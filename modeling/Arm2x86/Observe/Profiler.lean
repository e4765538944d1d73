import Mathlib.Algebra.Group.Nat.Defs
import Arm2x86.Base.Ring

/-!
# Profiler

The ring of events and the counters of `modules/arm2x86_profiler.c`. The number of all events
is the only one of the counters read here that has 32 bits.
-/

namespace Arm2x86

/-- `ProfilerEventType`, `arm2x86_profiler.h:15`. -/
inductive ProfilerEventType where
  | unknown | translateStart | translateEnd | blockExecution | cacheHit | cacheMiss
  | hotBlockRetranslate | signalHandler
deriving DecidableEq

/-- `ProfilerEntry`, `arm2x86_profiler.h:27`. -/
structure ProfilerEntry where
  type : ProfilerEventType
  armPc : BitVec 64
  timestampUs : BitVec 64
  cycleCount : BitVec 64
  data : BitVec 64
deriving DecidableEq

/-- An entry as `calloc` leaves it. -/
def ProfilerEntry.zero : ProfilerEntry := ⟨.unknown, 0, 0, 0, 0⟩

/-- `Arm2x86Profiler`, `arm2x86_profiler.h:48`, without the regions, which no event touches,
and the lock; `entries` is `none` where the pointer is NULL. -/
structure Profiler where
  entries : Option (List ProfilerEntry)
  maxEntries : BitVec 32
  count : BitVec 32
  startIdx : BitVec 32
  totalEvents : BitVec 32
  startTime : BitVec 64
  totalTranslateTimeUs : BitVec 64
  maxTranslateTimeUs : BitVec 64
  minTranslateTimeUs : BitVec 64
  slowestTranslatePc : BitVec 64
  translateCount : BitVec 32
  totalBlocksExecuted : BitVec 64
  totalInstructionsExecuted : BitVec 64
  cacheHits : BitVec 64
  cacheMisses : BitVec 64
  hotBlockRetranslations : BitVec 64
  signalHandlerInvocations : BitVec 64
  currentTranslateStart : BitVec 64
  currentTranslatePc : BitVec 64

namespace Profiler

/-- `PROFILER_MAX_ENTRIES`. -/
def profilerMaxEntries : Nat := 65536

/-- A profiler whose record was cleared, with memory for its entries. -/
def initial (now : BitVec 64) : Profiler where
  entries := some (List.replicate profilerMaxEntries .zero)
  maxEntries := BitVec.ofNat 32 profilerMaxEntries
  count := 0
  startIdx := 0
  totalEvents := 0
  startTime := now
  totalTranslateTimeUs := 0
  maxTranslateTimeUs := 0
  minTranslateTimeUs := 0
  slowestTranslatePc := 0
  translateCount := 0
  totalBlocksExecuted := 0
  totalInstructionsExecuted := 0
  cacheHits := 0
  cacheMisses := 0
  hotBlockRetranslations := 0
  signalHandlerInvocations := 0
  currentTranslateStart := 0
  currentTranslatePc := 0

/-- `arm2x86_profiler_init`, `arm2x86_profiler.c:24`, at a time; it fails when the memory for
the entries cannot be had. -/
def init (now : BitVec 64) (allocated : Bool) : Option Profiler :=
  if allocated then some (initial now) else none

/-- The end of a translation that was seen to begin, `arm2x86_profiler.c:127`. -/
def endTranslation (p : Profiler) (now : BitVec 64) : Profiler :=
  let duration := now - p.currentTranslateStart
  { p with
    totalTranslateTimeUs := p.totalTranslateTimeUs + duration
    translateCount := p.translateCount + 1
    maxTranslateTimeUs := if p.maxTranslateTimeUs < duration then duration else p.maxTranslateTimeUs
    slowestTranslatePc :=
      if p.maxTranslateTimeUs < duration then p.currentTranslatePc else p.slowestTranslatePc
    minTranslateTimeUs :=
      if duration < p.minTranslateTimeUs ∨ p.minTranslateTimeUs = 0 then duration
      else p.minTranslateTimeUs }

/-- The statistics of an event, `arm2x86_profiler.c:121`. -/
def updateStats (p : Profiler) (e : ProfilerEntry) : Profiler :=
  match e.type with
  | .translateStart =>
    { p with currentTranslateStart := e.timestampUs, currentTranslatePc := e.armPc }
  | .translateEnd => if 0 < p.currentTranslateStart then p.endTranslation e.timestampUs else p
  | .blockExecution =>
    { p with
      totalBlocksExecuted := p.totalBlocksExecuted + 1
      totalInstructionsExecuted :=
        if 0 < e.data then p.totalInstructionsExecuted + e.data else p.totalInstructionsExecuted }
  | .cacheHit => { p with cacheHits := p.cacheHits + 1 }
  | .cacheMiss => { p with cacheMisses := p.cacheMisses + 1 }
  | .hotBlockRetranslate => { p with hotBlockRetranslations := p.hotBlockRetranslations + 1 }
  | .signalHandler => { p with signalHandlerInvocations := p.signalHandlerInvocations + 1 }
  | .unknown => p

/-- Room for one more entry: in a full ring the oldest one goes. -/
def makeRoom (p : Profiler) : Profiler :=
  if p.count ≥ p.maxEntries then
    { p with startIdx := (p.startIdx + 1) % p.maxEntries, count := p.count - 1 }
  else p

/-- The index of the entry that a recording writes. -/
def recordIndex (p : Profiler) : BitVec 32 := (p.startIdx + p.count) % p.maxEntries

/-- `arm2x86_profiler_record_event`, `arm2x86_profiler.c:97`: its result and the profiler after
it. The clock and the cycle counter are read into the entry. -/
def recordEvent (p : Profiler) (e : ProfilerEntry) : Int × Profiler :=
  match p.entries with
  | none => (-1, p)
  | some entries =>
    let p := p.makeRoom
    let p := { p with
      entries := some (entries.set p.recordIndex.toNat e)
      count := p.count + 1
      totalEvents := p.totalEvents + 1 }
    (0, p.updateStats e)

/-- The index of the `i`-th entry that `arm2x86_profiler_export_json` writes,
`arm2x86_profiler.c:446`. -/
def exportIndex (p : Profiler) (i : Nat) : BitVec 32 :=
  (p.startIdx + BitVec.ofNat 32 i) % p.maxEntries

/-- How many entries `arm2x86_profiler_export_json` writes. -/
def exportCount (p : Profiler) : Nat := min p.count.toNat profilerMaxEntries

/-- The entries that `arm2x86_profiler_export_json` writes, in their order. -/
def exportEvents (p : Profiler) : List ProfilerEntry :=
  (List.range p.exportCount).filterMap fun i ↦ (p.entries.getD [])[(p.exportIndex i).toNat]?

/-- How many of the events are of a kind. -/
def number (kind : ProfilerEventType) (es : List ProfilerEntry) : Nat :=
  es.countP fun e ↦ e.type = kind

/-- The profiler tells the truth about the events: its ring holds the most recent ones, no index
leaves the ring, and its counters count them. -/
structure Faithful (p : Profiler) (es : List ProfilerEntry) : Prop where
  events : p.exportEvents = es.rtake p.maxEntries.toNat
  count_le : p.count ≤ p.maxEntries
  record_lt : p.makeRoom.recordIndex < p.maxEntries
  export_lt : ∀ i < p.exportCount, p.exportIndex i < p.maxEntries
  total : p.totalEvents.toNat = es.length
  hits : p.cacheHits.toNat = number .cacheHit es
  misses : p.cacheMisses.toNat = number .cacheMiss es
  blocks : p.totalBlocksExecuted.toNat = number .blockExecution es

/-- What holds of a profiler in use between two calls, when `es` were recorded. -/
structure Inv (es : List ProfilerEntry) (p : Profiler) : Prop where
  max_eq : p.maxEntries = 65536#32
  start_lt : p.startIdx.toNat < 65536
  cells : ∃ cells, p.entries = some cells ∧ cells.length = 65536 ∧
    Ring.Keeps cells p.startIdx.toNat p.count.toNat es
  total : p.totalEvents = BitVec.ofNat 32 es.length
  hits : p.cacheHits = BitVec.ofNat 64 (number .cacheHit es)
  misses : p.cacheMisses = BitVec.ofNat 64 (number .cacheMiss es)
  blocks : p.totalBlocksExecuted = BitVec.ofNat 64 (number .blockExecution es)

variable {p : Profiler} {e : ProfilerEntry} {es : List ProfilerEntry} {now : BitVec 64}

theorem initial_inv (now : BitVec 64) : Inv [] (initial now) := by
  refine ⟨rfl, Nat.zero_lt_succ _, ⟨_, rfl, List.length_replicate .., ?_⟩, rfl, rfl, rfl, rfl⟩
  exact Ring.keeps_nil _ _

theorem init_inv {allocated : Bool} (h : init now allocated = some p) : Inv [] p := by
  unfold init at h
  split at h
  · cases h
    exact initial_inv now
  · cases h

/-- The statistics are kept apart from the ring. -/
theorem updateStats_ring (p : Profiler) (e : ProfilerEntry) :
    (p.updateStats e).entries = p.entries ∧ (p.updateStats e).maxEntries = p.maxEntries ∧
      (p.updateStats e).count = p.count ∧ (p.updateStats e).startIdx = p.startIdx ∧
      (p.updateStats e).totalEvents = p.totalEvents := by
  cases htype : e.type with
  | translateEnd =>
    by_cases hseen : 0 < p.currentTranslateStart
    · simp only [updateStats, htype, if_pos hseen, endTranslation, and_self]
    · simp only [updateStats, htype, if_neg hseen, and_self]
  | _ => simp only [updateStats, htype, and_self]

/-- Each counter grows with the events of its kind and no others. -/
theorem updateStats_counters (p : Profiler) (e : ProfilerEntry) :
    (p.updateStats e).cacheHits = p.cacheHits + (if e.type = .cacheHit then 1 else 0) ∧
      (p.updateStats e).cacheMisses = p.cacheMisses + (if e.type = .cacheMiss then 1 else 0) ∧
      (p.updateStats e).totalBlocksExecuted =
        p.totalBlocksExecuted + (if e.type = .blockExecution then 1 else 0) := by
  cases htype : e.type with
  | translateEnd =>
    by_cases hseen : 0 < p.currentTranslateStart
    · simp only [updateStats, htype, if_pos hseen]
      simp [endTranslation]
    · simp only [updateStats, htype, if_neg hseen]
      simp
  | _ => simp [updateStats, htype]

/-- Counting goes on with one more event. -/
theorem number_concat (kind : ProfilerEventType) (es : List ProfilerEntry) (e : ProfilerEntry) :
    BitVec.ofNat 64 (number kind (es ++ [e])) =
      BitVec.ofNat 64 (number kind es) + (if e.type = kind then 1 else 0) := by
  unfold number
  rw [List.countP_append, List.countP_singleton]
  by_cases h : e.type = kind
  · simp [h, BitVec.ofNat_add]
  · simp [h]

/-- The ring after a call holds the new event as its last one. -/
theorem Inv.ring_push (h : Inv es p) (e : ProfilerEntry) :
    ∃ cells, p.entries = some cells ∧
      (cells.set p.makeRoom.recordIndex.toNat e).length = 65536 ∧
      p.makeRoom.startIdx.toNat < 65536 ∧
      Ring.Keeps (cells.set p.makeRoom.recordIndex.toNat e) p.makeRoom.startIdx.toNat
        (p.makeRoom.count + 1).toNat (es ++ [e]) := by
  obtain ⟨cells, hcells, hlength, hkeeps⟩ := h.cells
  have hcount := hkeeps.count_le
  have hstart := h.start_lt
  have hmax : p.maxEntries.toNat = 65536 := by rw [h.max_eq]; rfl
  rw [hlength] at hcount
  refine ⟨cells, hcells, (List.length_set ..).trans hlength, ?_⟩
  unfold makeRoom
  split
  · next hfull =>
    have hfull : p.count.toNat = 65536 := by
      have := BitVec.le_def.mp hfull
      omega
    have hnext : ((p.startIdx + 1) % p.maxEntries).toNat = (p.startIdx.toNat + 1) % 65536 := by
      rw [BitVec.toNat_umod, BitVec.toNat_add, hmax]
      show (p.startIdx.toNat + 1) % 2 ^ 32 % 65536 = _
      omega
    have hless : (p.count - 1).toNat = 65535 := by
      rw [BitVec.toNat_sub]
      show (2 ^ 32 - 1 + p.count.toNat) % 2 ^ 32 = _
      omega
    have hindex : (((p.startIdx + 1) % p.maxEntries + (p.count - 1)) % p.maxEntries).toNat =
        p.startIdx.toNat % cells.length := by
      rw [BitVec.toNat_umod, BitVec.toNat_add, hnext, hless, hmax, hlength]
      omega
    have hback : (p.count - 1 + 1).toNat = p.count.toNat := by
      rw [BitVec.sub_add_cancel]
    refine ⟨?_, ?_⟩
    · show ((p.startIdx + 1) % p.maxEntries).toNat < _
      rw [hnext]
      omega
    · show Ring.Keeps (cells.set (((p.startIdx + 1) % p.maxEntries + (p.count - 1)) %
        p.maxEntries).toNat e) ((p.startIdx + 1) % p.maxEntries).toNat (p.count - 1 + 1).toNat _
      rw [hindex, hnext, hback]
      apply (hkeeps.push_full (by omega) (by omega) e).congr_start
      rw [List.length_set, hlength, Nat.mod_mod]
  · next hroom =>
    have hroom : p.count.toNat < 65536 := by
      have := mt BitVec.le_def.mpr hroom
      omega
    have hindex : ((p.startIdx + p.count) % p.maxEntries).toNat =
        (p.startIdx.toNat + p.count.toNat) % cells.length := by
      rw [BitVec.toNat_umod, BitVec.toNat_add, hmax, hlength]
      omega
    have hmore : (p.count + 1).toNat = p.count.toNat + 1 := by
      rw [BitVec.toNat_add]
      show (p.count.toNat + 1) % 2 ^ 32 = _
      omega
    refine ⟨hstart, ?_⟩
    unfold recordIndex
    rw [hindex, hmore]
    exact hkeeps.push_room (by omega) e

/-- A call keeps the invariant. -/
theorem Inv.recordEvent (h : Inv es p) (e : ProfilerEntry) :
    Inv (es ++ [e]) (p.recordEvent e).2 := by
  obtain ⟨cells, hcells, hlength, hstart, hkeeps⟩ := h.ring_push e
  have hroom : p.makeRoom.maxEntries = p.maxEntries ∧ p.makeRoom.totalEvents = p.totalEvents ∧
      p.makeRoom.cacheHits = p.cacheHits ∧ p.makeRoom.cacheMisses = p.cacheMisses ∧
      p.makeRoom.totalBlocksExecuted = p.totalBlocksExecuted := by
    unfold makeRoom
    split
    · exact ⟨rfl, rfl, rfl, rfl, rfl⟩
    · exact ⟨rfl, rfl, rfl, rfl, rfl⟩
  unfold Profiler.recordEvent
  rw [hcells]
  dsimp only
  obtain ⟨q, hq⟩ : ∃ q : Profiler, q = { p.makeRoom with
      entries := some (cells.set p.makeRoom.recordIndex.toNat e)
      count := p.makeRoom.count + 1
      totalEvents := p.makeRoom.totalEvents + 1 } := ⟨_, rfl⟩
  rw [← hq]
  obtain ⟨hentries', hmax', hcount', hstart', htotal'⟩ := updateStats_ring q e
  obtain ⟨hhits', hmisses', hblocks'⟩ := updateStats_counters q e
  refine ⟨?_, ?_, ⟨_, ?_, hlength, ?_⟩, ?_, ?_, ?_, ?_⟩
  · rw [hmax', hq]
    exact hroom.1.trans h.max_eq
  · rw [hstart', hq]
    exact hstart
  · rw [hentries', hq]
  · rw [hstart', hcount', hq]
    exact hkeeps
  · rw [htotal', hq, List.length_append, List.length_singleton, BitVec.ofNat_add, ← h.total,
      ← hroom.2.1]
    rfl
  · rw [hhits', number_concat, ← h.hits, ← hroom.2.2.1, hq]
  · rw [hmisses', number_concat, ← h.misses, ← hroom.2.2.2.1, hq]
  · rw [hblocks', number_concat, ← h.blocks, ← hroom.2.2.2.2, hq]

/-- The profiler after a run of calls. -/
def run (p : Profiler) (es : List ProfilerEntry) : Profiler :=
  es.foldl (fun p e ↦ (p.recordEvent e).2) p

theorem Inv.run (h : Inv es p) (es' : List ProfilerEntry) : Inv (es ++ es') (p.run es') := by
  induction es' generalizing es p with
  | nil => simpa [Profiler.run] using h
  | cons e es' ih =>
    have hrest := ih (h.recordEvent e)
    rw [List.append_assoc] at hrest
    exact hrest

/-- The ring is read right whatever the number of events. -/
theorem Inv.events (h : Inv es p) : p.exportEvents = es.rtake 65536 := by
  obtain ⟨cells, hcells, hlength, hkeeps⟩ := h.cells
  have hcount := hkeeps.count_le
  have hstart := h.start_lt
  have hnumber : p.exportCount = p.count.toNat := Nat.min_eq_left (by
    rw [hlength] at hcount
    exact hcount)
  rw [← hlength, ← hkeeps.window_eq, exportEvents, hcells, hnumber, Ring.window]
  apply List.filterMap_congr
  intro i hi
  have hlt : i < p.count.toNat := List.mem_range.mp hi
  have hindex : (p.exportIndex i).toNat = (p.startIdx.toNat + i) % cells.length := by
    rw [exportIndex, BitVec.toNat_umod, BitVec.toNat_add, BitVec.toNat_ofNat, h.max_eq, hlength]
    show (p.startIdx.toNat + i % 2 ^ 32) % 2 ^ 32 % 65536 = _
    omega
  rw [hindex]
  rfl

/-- A remainder by the size of the ring is an index of it. -/
theorem Inv.index_lt (h : Inv es p) (x : BitVec 32) : x % p.maxEntries < p.maxEntries := by
  rw [BitVec.lt_def, BitVec.toNat_umod, h.max_eq]
  exact Nat.mod_lt _ (by decide)

theorem number_le (kind : ProfilerEventType) (es : List ProfilerEntry) :
    number kind es ≤ es.length :=
  List.countP_le_length

/-- Everything but the number of all events is right as long as the counters of 64 bits are. -/
theorem Inv.faithful (h : Inv es p) (hsmall : es.length < 2 ^ 32) : p.Faithful es := by
  obtain ⟨cells, hcells, hlength, hkeeps⟩ := h.cells
  have hcount := hkeeps.count_le
  have hmax : p.maxEntries.toNat = 65536 := by rw [h.max_eq]; rfl
  have hcounter : ∀ kind, (BitVec.ofNat 64 (number kind es)).toNat = number kind es := by
    intro kind
    have hle := number_le kind es
    rw [BitVec.toNat_ofNat, Nat.mod_eq_of_lt (by omega)]
  have hroom : p.makeRoom.maxEntries = p.maxEntries := by
    unfold makeRoom
    split
    · rfl
    · rfl
  refine {
    events := by rw [hmax]; exact h.events
    count_le := ?_
    record_lt := ?_
    export_lt := fun i _ ↦ h.index_lt _
    total := ?_
    hits := by rw [h.hits, hcounter]
    misses := by rw [h.misses, hcounter]
    blocks := by rw [h.blocks, hcounter] }
  · rw [BitVec.le_def]
    omega
  · rw [recordIndex, hroom]
    exact h.index_lt _
  · rw [h.total, BitVec.toNat_ofNat, Nat.mod_eq_of_lt hsmall]

/-- The truth ends with the number of all events: it is kept in 32 bits. -/
theorem Inv.faithful_iff (h : Inv es p) : p.Faithful es ↔ es.length < 2 ^ 32 := by
  refine ⟨?_, h.faithful⟩
  intro hfaithful
  rw [← hfaithful.total]
  exact p.totalEvents.isLt

/-- After any run of calls on an initialised profiler the ring holds the last events, no index
leaves it and the counters are right, exactly when there were fewer than `2 ^ 32` calls. -/
theorem run_faithful_iff {allocated : Bool} (h : init now allocated = some p)
    (es : List ProfilerEntry) : (p.run es).Faithful es ↔ es.length < 2 ^ 32 := by
  have hrun := (init_inv h).run es
  exact hrun.faithful_iff

/-- A run of one cache hit. -/
theorem run_faithful_iff_one :
    ((initial 5).run [⟨.cacheHit, 0x1000, 6, 60, 0⟩]).Faithful
      [⟨.cacheHit, 0x1000, 6, 60, 0⟩] :=
  have hinit : init 5 true = some (initial 5) := rfl
  (run_faithful_iff hinit _).mpr (by decide)

/-- After `2 ^ 32` cache hits the number of all events is zero again. -/
theorem run_wrapped :
    init 5 true = some (initial 5) ∧
      ¬ ((initial 5).run (List.replicate (2 ^ 32) ⟨.cacheHit, 0x1000, 6, 60, 0⟩)).Faithful
        (List.replicate (2 ^ 32) ⟨.cacheHit, 0x1000, 6, 60, 0⟩) := by
  refine ⟨rfl, ?_⟩
  intro hfaithful
  obtain ⟨es, hes⟩ : ∃ es : List ProfilerEntry,
    es = List.replicate (2 ^ 32) ⟨.cacheHit, 0x1000, 6, 60, 0⟩ := ⟨_, rfl⟩
  rw [← hes] at hfaithful
  have hlength : es.length = 2 ^ 32 := by rw [hes, List.length_replicate]
  have hless := ((initial_inv 5).run es).faithful_iff.mp hfaithful
  rw [List.nil_append, hlength] at hless
  exact lt_irrefl _ hless

end Profiler

end Arm2x86
