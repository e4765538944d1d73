import Arm2x86.Base.Bytes
import Arm2x86.Base.Ring

/-!
# Execution trace

The ring of trace entries of `modules/arm2x86_trace.c` and its three readers. All of them
start at `head`, the place of the next write; it is the place of the oldest entry once the
ring is full, and that of an entry which was never written before.
-/

namespace Arm2x86

/-- `arm2x86_trace_event_t`, `arm2x86_trace.h:26`. -/
inductive TraceEvent where
  | translate | execute | cacheHit | cacheMiss | invalidate | exception
deriving DecidableEq

def TraceEvent.code : TraceEvent → BitVec 32
  | .translate => 1
  | .execute => 2
  | .cacheHit => 3
  | .cacheMiss => 4
  | .invalidate => 5
  | .exception => 6

/-- `arm2x86_trace_entry_t`, `arm2x86_trace.h:36`. -/
structure TraceEntry where
  timestamp : BitVec 64
  event : BitVec 32
  address : BitVec 64
  translatedAddr : BitVec 64
  size : BitVec 32
  cpuId : BitVec 32
  extra : BitVec 64
deriving DecidableEq

/-- An entry as `calloc` and `memset` leave it. -/
def TraceEntry.zero : TraceEntry := ⟨0, 0, 0, 0, 0, 0, 0⟩

/-- `arm2x86_trace_t`, `arm2x86_trace.h:47`, without the lock and the file that is never set. -/
structure Trace where
  entries : List TraceEntry
  capacity : Nat
  count : Nat
  head : Nat
  enabled : Bool
deriving DecidableEq

/-- A call of `arm2x86_trace_record` and what the clock says during it. -/
structure TraceRecord where
  timestamp : BitVec 64
  event : TraceEvent
  address : BitVec 64
  translated : BitVec 64
  size : BitVec 32

/-- The entry a call fills in. -/
def TraceRecord.entry (r : TraceRecord) : TraceEntry where
  timestamp := r.timestamp
  event := r.event.code
  address := r.address
  translatedAddr := r.translated
  size := r.size
  cpuId := 0
  extra := 0

namespace Trace

/-- `ARM2X86_TRACE_MAX_ENTRIES`. -/
def maxEntries : Nat := 1000000

/-- `sizeof(arm2x86_trace_entry_t)`. -/
def entrySize : Nat := 48

/-- `calloc`: it fails when the product leaves `size_t` or memory has run out. -/
def calloc (free n size : Nat) : Option (List TraceEntry) :=
  if n * size < 2 ^ 64 ∧ n * size ≤ free then some (List.replicate n .zero) else none

/-- `arm2x86_trace_create`, `arm2x86_trace.c:19`, with `free` bytes of memory for the ring. -/
def create (free capacity : Nat) : Option Trace :=
  let capacity := if capacity = 0 then maxEntries else capacity
  match calloc free capacity entrySize with
  | none => none
  | some entries =>
    some { entries, capacity, count := 0, head := 0, enabled := true }

/-- `arm2x86_trace_record`, `arm2x86_trace.c:67`. -/
def record (t : Trace) (r : TraceRecord) : Trace :=
  if t.enabled then
    { t with
      entries := t.entries.set t.head r.entry
      head := sizeAdd t.head 1 % t.capacity
      count := if t.count < t.capacity then t.count + 1 else t.count }
  else t

/-- `arm2x86_trace_clear`, `arm2x86_trace.c:175`. -/
def clear (t : Trace) : Trace :=
  { t with
    count := 0
    head := 0
    entries := List.replicate t.capacity .zero }

/-- The entries in the order in which the readers visit them. -/
def visited (t : Trace) : List TraceEntry :=
  (List.range t.count).filterMap fun i ↦ t.entries[sizeAdd t.head i % t.capacity]?

end Trace

/-- The memory of an entry; the padding after `event` stays zero. -/
def TraceEntry.bytes (e : TraceEntry) : List Byte :=
  leBytes 8 e.timestamp.toNat ++ (leBytes 4 e.event.toNat ++ (leBytes 4 0 ++
  (leBytes 8 e.address.toNat ++ (leBytes 8 e.translatedAddr.toNat ++
  (leBytes 4 e.size.toNat ++ (leBytes 4 e.cpuId.toNat ++ leBytes 8 e.extra.toNat))))))

/-- `event_names`, `arm2x86_trace.c:130`. -/
def traceEventNames : List String :=
  ["UNKNOWN", "TRANSLATE", "EXECUTE", "CACHE_HIT", "CACHE_MISS", "INVALIDATE", "EXCEPTION"]

def TraceEntry.eventName (e : TraceEntry) : String :=
  if 1 ≤ e.event.toNat ∧ e.event.toNat ≤ 6 then traceEventNames.getD e.event.toNat ""
  else "UNKNOWN"

/-- `%lx` of `printf`. -/
def printHex (n : Nat) : String := String.ofList (Nat.toDigits 16 n)

/-- `%p` of `printf`. -/
def printPointer (n : Nat) : String := if n = 0 then "(nil)" else "0x" ++ printHex n

/-- The line of an entry, `arm2x86_trace.c:160`. -/
def TraceEntry.csvLine (e : TraceEntry) : String :=
  toString e.timestamp.toNat ++ "," ++ e.eventName ++ ",0x" ++ printHex e.address.toNat ++ "," ++
  printPointer e.translatedAddr.toNat ++ "," ++ toString e.size.toNat ++ "," ++
  toString e.cpuId.toNat ++ "," ++ toString e.extra.toNat ++ "\n"

namespace Trace

/-- The file of `count` entries in binary form: magic number, version, count, entries. -/
def binaryFile (count : Nat) (es : List TraceEntry) : List Byte :=
  leBytes 4 0x4A414E55 ++ (leBytes 4 1 ++ (leBytes 8 count ++ es.flatMap TraceEntry.bytes))

/-- The file of some entries as text: the names of the columns, then a line for each. -/
def csvFile (es : List TraceEntry) : List String :=
  "timestamp,event,address,translated_addr,size,cpu_id,extra\n" :: es.map TraceEntry.csvLine

/-- `arm2x86_trace_export_binary`, `arm2x86_trace.c:95`; no file when `fopen` fails. -/
def exportBinary (t : Trace) (opened : Bool) : Option (List Byte) :=
  if opened then some (binaryFile t.count t.visited) else none

/-- `arm2x86_trace_export_csv`, `arm2x86_trace.c:126`; no file when `fopen` fails. -/
def exportCsv (t : Trace) (opened : Bool) : Option (List String) :=
  if opened then some (csvFile t.visited) else none

/-- `arm2x86_trace_stats`, `arm2x86_trace.c:185`: entries, translations and executions. -/
def stats (t : Trace) : Nat × Nat × Nat :=
  (t.count, t.visited.countP fun e ↦ e.event = TraceEvent.translate.code,
    t.visited.countP fun e ↦ e.event = TraceEvent.execute.code)

/-- A call on a trace. -/
inductive Call where
  | record (r : TraceRecord)
  | clear

def Call.run (t : Trace) : Call → Trace
  | .record r => t.record r
  | .clear => t.clear

/-- What a run of calls recorded since its last clear. -/
def sinceClear (calls : List Call) : List TraceEntry :=
  calls.foldl (fun es call ↦ match call with
    | .record r => es ++ [r.entry]
    | .clear => []) []

/-- Both files and the statistics are about these entries, in this order. -/
structure Reports (t : Trace) (es : List TraceEntry) : Prop where
  binary : t.exportBinary true = some (binaryFile es.length es)
  csv : t.exportCsv true = some (csvFile es)
  stats : t.stats = (es.length, es.countP fun e ↦ e.event = TraceEvent.translate.code,
    es.countP fun e ↦ e.event = TraceEvent.execute.code)

/-- What holds of an enabled trace of `c` entries between two calls, when `es` were recorded
since the last clear. -/
structure Inv (c : Nat) (es : List TraceEntry) (t : Trace) : Prop where
  enabled : t.enabled = true
  capacity : t.capacity = c
  length : t.entries.length = c
  small : c * entrySize < 2 ^ 64
  head_lt : t.head < c
  keeps : Ring.Keeps t.entries (t.head + c - t.count) t.count es
  unwrapped : t.count < c →
    t.head = t.count ∧ ∀ i, t.count ≤ i → i < c → t.entries[i]? = some .zero
  recorded : ∀ e ∈ es, e.event ≠ 0

variable {c free : Nat} {es : List TraceEntry} {t : Trace} {calls : List Call}

/-- A trace that was created is as large as asked for. -/
theorem create_eq (hc : 1 ≤ c) (h : create free c = some t) :
    c * entrySize < 2 ^ 64 ∧ t = ⟨List.replicate c .zero, c, 0, 0, true⟩ := by
  have hcap : (if c = 0 then maxEntries else c) = c := if_neg (by omega)
  unfold create at h
  simp only [hcap] at h
  split at h
  · cases h
  · next entries hcalloc =>
    unfold calloc at hcalloc
    split at hcalloc
    · next hfits =>
      cases hcalloc
      cases h
      exact ⟨hfits.1, rfl⟩
    · cases hcalloc

theorem create_inv (hc : 1 ≤ c) (h : create free c = some t) : Inv c [] t := by
  obtain ⟨hsmall, rfl⟩ := create_eq hc h
  refine {
    enabled := rfl
    capacity := rfl
    length := List.length_replicate ..
    small := hsmall
    head_lt := hc
    keeps := Ring.keeps_nil _ _
    unwrapped := ?_
    recorded := List.forall_mem_nil _ }
  intro _
  refine ⟨rfl, ?_⟩
  intro i _ hi
  exact List.getElem?_replicate_of_lt hi

/-- The sums of the index arithmetic stay in `size_t`. -/
theorem Inv.room (h : Inv c es t) : 2 * c < 2 ^ 64 := by
  have hsmall := h.small
  unfold entrySize at hsmall
  omega

theorem code_ne_zero (e : TraceEvent) : e.code ≠ 0 := by
  cases e <;> decide

/-- What a call of `record` does to a trace in use. -/
theorem Inv.record_eq (h : Inv c es t) (r : TraceRecord) :
    t.record r = ⟨t.entries.set t.head r.entry, c,
      if t.count < c then t.count + 1 else t.count, (t.head + 1) % c, true⟩ := by
  have hhead := h.head_lt
  have hroom := h.room
  have hsum : sizeAdd t.head 1 = t.head + 1 := Nat.mod_eq_of_lt (by omega)
  rw [Trace.record, if_pos h.enabled, hsum, h.capacity, h.enabled]

theorem Inv.recorded_concat (h : Inv c es t) (r : TraceRecord) :
    ∀ e ∈ es ++ [r.entry], e.event ≠ 0 := by
  intro e he
  rcases List.mem_append.mp he with he | he
  · exact h.recorded e he
  · cases List.mem_singleton.mp he
    exact code_ne_zero r.event

/-- With room left the write goes to the first entry never written. -/
theorem Inv.record_room (h : Inv c es t) (hroom : t.count < c) (r : TraceRecord) :
    Inv c (es ++ [r.entry])
      ⟨t.entries.set t.head r.entry, c, t.count + 1, (t.head + 1) % c, true⟩ := by
  obtain ⟨hat, hzero⟩ := h.unwrapped hroom
  have hlength := h.length
  have hnext : 0 < c := by omega
  refine {
    enabled := rfl
    capacity := rfl
    length := (List.length_set ..).trans hlength
    small := h.small
    head_lt := Nat.mod_lt _ hnext
    keeps := ?_
    unwrapped := ?_
    recorded := h.recorded_concat r }
  · -- the oldest entry stays the first one
    have hplace : (c + t.count) % t.entries.length = t.head := by
      rw [hlength, Nat.add_mod_left, Nat.mod_eq_of_lt hroom, hat]
    have hstart : t.head + c - t.count = c := by omega
    have hkeeps := h.keeps
    rw [hstart] at hkeeps
    have hpush := hkeeps.push_room (by omega) r.entry
    rw [hplace] at hpush
    apply hpush.congr_start
    show c % _ = ((t.head + 1) % c + c - (t.count + 1)) % _
    rw [List.length_set, hlength, hat]
    rcases Nat.lt_or_eq_of_le hroom with hmore | hlast
    · rw [Nat.mod_eq_of_lt hmore]
      congr 1
      omega
    · change t.count + 1 = c at hlast
      rw [hlast, Nat.mod_self, Nat.zero_add, Nat.sub_self, Nat.zero_mod]
  · intro hmore
    change t.count + 1 < c at hmore
    refine ⟨?_, ?_⟩
    · show (t.head + 1) % c = t.count + 1
      rw [hat, Nat.mod_eq_of_lt hmore]
    · intro i hi hic
      change t.count + 1 ≤ i at hi
      show (t.entries.set t.head r.entry)[i]? = _
      rw [List.getElem?_set_ne (by omega)]
      exact hzero i (by omega) hic

/-- In a full ring the write goes over the oldest entry. -/
theorem Inv.record_full (h : Inv c es t) (hfull : t.count = c) (r : TraceRecord) :
    Inv c (es ++ [r.entry])
      ⟨t.entries.set t.head r.entry, c, t.count, (t.head + 1) % c, true⟩ := by
  have hhead := h.head_lt
  have hlength := h.length
  refine {
    enabled := rfl
    capacity := rfl
    length := (List.length_set ..).trans hlength
    small := h.small
    head_lt := Nat.mod_lt _ (Nat.zero_lt_of_lt hhead)
    keeps := ?_
    unwrapped := ?_
    recorded := h.recorded_concat r }
  · have hplace : t.head % t.entries.length = t.head := by
      rw [hlength, Nat.mod_eq_of_lt hhead]
    have hstart : t.head + c - t.count = t.head := by omega
    have hkeeps := h.keeps
    rw [hstart] at hkeeps
    have hpush := hkeeps.push_full (by omega) (by omega) r.entry
    rw [hplace] at hpush
    apply hpush.congr_start
    show (t.head + 1) % _ = ((t.head + 1) % c + c - t.count) % _
    rw [List.length_set, hlength, hfull, Nat.add_sub_cancel, Nat.mod_mod]
  · intro hless
    change t.count < c at hless
    omega

theorem Inv.record (h : Inv c es t) (r : TraceRecord) :
    Inv c (es ++ [r.entry]) (t.record r) := by
  have hcount := h.keeps.count_le
  have hlength := h.length
  rw [h.record_eq r]
  split
  · next hroom => exact h.record_room hroom r
  · next hfull => exact h.record_full (by omega) r

theorem Inv.clear (h : Inv c es t) : Inv c [] t.clear := by
  refine {
    enabled := h.enabled
    capacity := h.capacity
    length := (List.length_replicate ..).trans h.capacity
    small := h.small
    head_lt := Nat.zero_lt_of_lt h.head_lt
    keeps := Ring.keeps_nil _ _
    unwrapped := ?_
    recorded := List.forall_mem_nil _ }
  intro _
  refine ⟨rfl, ?_⟩
  intro i _ hi
  exact List.getElem?_replicate_of_lt (h.capacity ▸ hi)

/-- Every call keeps the invariant, for what was recorded since the last clear. -/
theorem run_inv_from (h : Inv c es t) (calls : List Call) :
    Inv c (calls.foldl (fun es call ↦ match call with
      | .record r => es ++ [r.entry]
      | .clear => []) es) (calls.foldl Call.run t) := by
  induction calls generalizing es t with
  | nil => exact h
  | cons call calls ih =>
    cases call with
    | record r => exact ih (h.record r)
    | clear => exact ih h.clear

/-- A run of calls on a new trace. -/
theorem run_inv (hc : 1 ≤ c) (h : create free c = some t) (calls : List Call) :
    Inv c (sinceClear calls) (calls.foldl Call.run t) :=
  run_inv_from (create_inv hc h) calls

/-- The readers visit the window from `head` on. -/
theorem Inv.visited_eq (h : Inv c es t) : t.visited = Ring.window t.entries t.head t.count := by
  have hhead := h.head_lt
  have hroom := h.room
  have hcount : t.count ≤ c := h.length ▸ h.keeps.count_le
  unfold visited Ring.window
  apply List.filterMap_congr
  intro i hi
  have hlt : i < t.count := List.mem_range.mp hi
  have hsum : sizeAdd t.head i = t.head + i := Nat.mod_eq_of_lt (by omega)
  rw [hsum, h.capacity, h.length]

/-- The number of entries is right at all times. -/
theorem Inv.count_eq (h : Inv c es t) : t.count = (es.rtake c).length := by
  have hcount := h.keeps.count_eq
  rw [h.length] at hcount
  rw [hcount, List.rtake, List.length_drop]
  omega

/-- Reports about what the readers visit are right when it is what they should visit. -/
theorem Inv.reports_of_visited (h : Inv c es t) (hvisited : t.visited = es.rtake c) :
    t.Reports (es.rtake c) := by
  apply Reports.mk
  · rw [exportBinary, if_pos rfl, hvisited, h.count_eq]
  · rw [exportCsv, if_pos rfl, hvisited]
  · rw [stats, hvisited, h.count_eq]

/-- Once the ring is full its oldest entry is at `head`. -/
theorem Inv.visited_full (h : Inv c es t) (hfull : c ≤ es.length) : t.visited = es.rtake c := by
  have hcount := h.keeps.count_eq
  have hwindow := h.keeps.window_eq
  have hlength := h.length
  have hstart : t.head + c - t.count = t.head := by omega
  rw [h.visited_eq, ← hlength, ← hwindow, hstart]

/-- Before that the first entry visited is one that was never written. -/
theorem Inv.visited_unwrapped (h : Inv c es t) (hpos : 0 < t.count) (hroom : t.count < c) :
    ∃ rest, t.visited = .zero :: rest := by
  obtain ⟨hat, hzero⟩ := h.unwrapped hroom
  obtain ⟨n, hn⟩ : ∃ n, t.count = n + 1 := ⟨t.count - 1, by omega⟩
  have hfirst : t.entries[t.head % t.entries.length]? = some .zero := by
    rw [h.length, Nat.mod_eq_of_lt h.head_lt]
    exact hzero t.head (by omega) h.head_lt
  refine ⟨Ring.window t.entries (t.head + 1) n, ?_⟩
  rw [h.visited_eq, hn, Ring.window_cons, hfirst]
  rfl

@[simp] theorem length_bytes (e : TraceEntry) : e.bytes.length = entrySize := by
  simp [TraceEntry.bytes, entrySize]

/-- The event of an entry can be read off its memory. -/
theorem event_of_bytes {d e : TraceEntry} (h : d.bytes = e.bytes) : d.event = e.event := by
  have hdrop := congrArg (fun bs ↦ leNat ((bs.drop 8).take 4)) h
  have key : ∀ e : TraceEntry, leNat ((e.bytes.drop 8).take 4) = e.event.toNat := by
    intro e
    rw [TraceEntry.bytes, List.drop_left' (length_leBytes 8 _),
      List.take_left' (length_leBytes 4 _), leNat_leBytes e.event.isLt]
  apply BitVec.eq_of_toNat_eq
  rw [← key d, ← key e]
  exact hdrop

/-- Two files with the same bytes start with an entry of the same event. -/
theorem event_of_binaryFile {m n : Nat} {d e : TraceEntry} {ds es : List TraceEntry}
    (h : binaryFile m (d :: ds) = binaryFile n (e :: es)) : d.event = e.event := by
  apply event_of_bytes
  have hdrop := congrArg (fun bs ↦ ((((bs.drop 4).drop 4).drop 8).take entrySize)) h
  have key : ∀ (k : Nat) (e : TraceEntry) (es : List TraceEntry),
      ((((binaryFile k (e :: es)).drop 4).drop 4).drop 8).take entrySize = e.bytes := by
    intro k e es
    rw [binaryFile, List.drop_left' (length_leBytes 4 _), List.drop_left' (length_leBytes 4 _),
      List.drop_left' (length_leBytes 8 _), List.flatMap_cons, List.take_left' (length_bytes e)]
  rw [← key m d ds, ← key n e es]
  exact hdrop

/-- The reports are right exactly when nothing was recorded since the last clear or the ring
went round since then. -/
theorem Inv.reports_iff (h : Inv c es t) : t.Reports (es.rtake c) ↔ es = [] ∨ c ≤ es.length := by
  have hcount := h.count_eq
  have hkept := h.keeps.count_eq
  rw [h.length] at hkept
  constructor
  · intro hreports
    by_contra hnot
    push Not at hnot
    obtain ⟨hne, hless⟩ := hnot
    have hlen : 0 < es.length := List.length_pos_iff.mpr hne
    obtain ⟨rest, hvisited⟩ := h.visited_unwrapped (by omega) (by omega)
    have hall : es.rtake c = es := by
      rw [List.rtake, Nat.sub_eq_zero_of_le (by omega), List.drop_zero]
    have hbinary := hreports.binary
    rw [exportBinary, if_pos rfl, hvisited, hall] at hbinary
    cases es with
    | nil => exact hne rfl
    | cons e es =>
      have hevent := event_of_binaryFile (Option.some.inj hbinary)
      exact h.recorded e (List.mem_cons_self ..) hevent.symm
  · rintro (rfl | hfull)
    · apply h.reports_of_visited
      have hzero : t.count = 0 := by
        rw [hkept]
        exact Nat.zero_min c
      rw [h.visited_eq, hzero]
      simp
    · exact h.reports_of_visited (h.visited_full hfull)

/-- After any run of calls on a new trace the two files and the statistics are about the last
`min n c` entries recorded since the last clear, oldest first, exactly when there are none of
them or at least `c`. -/
theorem reports_recent_iff (free : Nat) (hc : 1 ≤ c) (h : create free c = some t)
    (calls : List Call) :
    (calls.foldl Call.run t).Reports ((sinceClear calls).rtake c) ↔
      sinceClear calls = [] ∨ c ≤ (sinceClear calls).length :=
  (run_inv hc h calls).reports_iff

/-- Two entries in a trace of two. -/
theorem reports_recent_iff_two :
    ([Call.record ⟨7, .execute, 0x1000, 0x2000, 4⟩,
        .record ⟨9, .translate, 0x1004, 0x2010, 8⟩].foldl Call.run
      ⟨List.replicate 2 .zero, 2, 0, 0, true⟩).Reports
        ((sinceClear [Call.record ⟨7, .execute, 0x1000, 0x2000, 4⟩,
          .record ⟨9, .translate, 0x1004, 0x2010, 8⟩]).rtake 2) :=
  (reports_recent_iff 96 (by decide) (by decide +kernel) _).mpr (by decide)

/-- With one entry in a trace of two, the files hold an entry that nobody recorded. -/
theorem reports_stale :
    ∃ t, create 96 2 = some t ∧
      ¬ (([Call.record ⟨7, .execute, 0x1000, 0x2000, 4⟩].foldl Call.run t).Reports
        ((sinceClear [Call.record ⟨7, .execute, 0x1000, 0x2000, 4⟩]).rtake 2)) := by
  refine ⟨⟨List.replicate 2 .zero, 2, 0, 0, true⟩, by decide +kernel, ?_⟩
  intro h
  have hstats := h.stats
  revert hstats
  decide +kernel

end Trace

end Arm2x86
