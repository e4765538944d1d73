import Arm2x86.Link.Unlinking

/-!
# The blocks that registered jumps stand in

A record of `g_jump_targets` is removed when the block its jump leads to is evicted
(`modules/arm2x86_tcache.c:38`), never when the block that holds the jump goes: not by the eviction
loop, not by `arm2x86_tcache_clear`. The states considered are those between the calls and those
between the evictions of one insertion, where the patches write.
-/

namespace Arm2x86.Tcache

/-- The memory a block's code takes. -/
def Item.code (x : Item) : Region := ⟨x.x86Code, x.x86Size⟩

/-- The blocks met along the list from a pointer. -/
def lruWalk (heap : Heap Entry) : Nat → Option Ptr → List Item
  | 0, _ => []
  | _ + 1, none => []
  | fuel + 1, some p =>
    match heap[p]? with
    | none => []
    | some e => e.item :: lruWalk heap fuel e.lruNext

/-- The blocks of a cache, the most recently used first. -/
def Cache.lruItems (c : Cache) : List Item := lruWalk c.heap c.heap.size c.lruHead

variable {c : Cache} {lru chained : List Ptr}

theorem lruWalk_eq {heap : Heap Entry} {fuel : Nat} {p : Option Ptr} {xs : List Ptr}
    (h : Links.Chain (linkOf heap Entry.lruNext) p xs) (hfuel : xs.length ≤ fuel) :
    lruWalk heap fuel p = recency heap xs := by
  induction xs generalizing p fuel with
  | nil =>
    obtain rfl : p = none := h
    cases fuel <;> rfl
  | cons x xs ih =>
    obtain ⟨rfl, q, hq, hxs⟩ := h
    obtain ⟨e, he, rfl⟩ := Option.map_eq_some_iff.mp hq
    cases fuel with
    | zero => cases hfuel
    | succ fuel =>
      rw [lruWalk, he]
      show e.item :: lruWalk heap fuel e.lruNext = itemOf heap x :: recency heap xs
      rw [itemOf_entry he, ih hxs (Nat.le_of_succ_le_succ hfuel)]

theorem Represents.lruItems_eq (h : Represents c lru chained) :
    c.lruItems = recency c.heap lru :=
  lruWalk_eq h.list.forward
    (Heap.length_le_size h.list.nodup fun p hp ↦ (h.allocated p).mpr hp)

end Arm2x86.Tcache

namespace Arm2x86.Link

open Tcache

inductive Call where
  /-- `tcache_register_jump_target` -/
  | register (targetArmAddr jmpInstruction : Addr) (isCall : Bool)
  /-- `arm2x86_tcache_insert_ex` -/
  | insertEx (armAddr x86Code : Addr) (x86Size : Nat) (owned mmap : Bool)
      (alloc : Heap.Allocator Entry)
  /-- `arm2x86_tcache_clear` -/
  | clear
  /-- `arm2x86_tcache_resize` -/
  | resize (newSize : Nat) (alloc : Bool)

variable (dispatcherLookup : Addr)

/-- One call. -/
def Call.exec : Call → System → Option System
  | .register targetArmAddr jmpInstruction isCall, s =>
    some { s with
      jumpTargets := tcacheRegisterJumpTarget s.jumpTargets targetArmAddr jmpInstruction isCall }
  | .insertEx armAddr x86Code x86Size owned mmap alloc, s =>
    s.insertEx dispatcherLookup armAddr x86Code x86Size owned mmap alloc
  | .clear, s => do
    let (cache, _) ← tcacheClear s.cache
    return { s with cache }
  | .resize newSize alloc, s => do
    let (_, cache) ← tcacheResize s.cache newSize alloc
    return { s with cache }

/-- The states of an eviction loop: at its entry and behind every eviction. -/
def evictStates (buckets x86Size : Nat) : Nat → System → List System
  | 0, _ => []
  | fuel + 1, s =>
    s :: if sizeAdd s.cache.usedSize x86Size > s.cache.totalSize then
      match s.cache.lruTail with
      | none => []
      | some evict =>
        if s.cache.heap[evict]?.any (fun e ↦ hasFlag e.flags flagLocked) then []
        else
          match evictEntry buckets s.cache evict with
          | none => []
          | some (cache, fx) => evictStates buckets x86Size fuel (s.patched dispatcherLookup cache fx)
    else []

/-- The states a call goes through, without the one it ends in. -/
def Call.passes : Call → System → List System
  | .insertEx _ x86Code x86Size _ _ _, s =>
    if x86Code = 0#64 then [s]
    else evictStates dispatcherLookup s.cache.bucketCount x86Size (s.cache.heap.size + 1) s
  | _, s => [s]

/-- The states of a run. -/
def statesOf : List Call → System → List System
  | [], s => [s]
  | call :: calls, s =>
    call.passes dispatcherLookup s ++ match call.exec dispatcherLookup s with
      | none => []
      | some s' => statesOf calls s'

/-- The calls of a run, each with the state before it. -/
def callsOf : List Call → System → List (Call × System)
  | [], _ => []
  | call :: calls, s =>
    (call, s) :: match call.exec dispatcherLookup s with
      | none => []
      | some s' => callsOf calls s'

/-- An address lies in the code of an entry of the cache. -/
def InCachedCode (c : Cache) (a : Addr) : Prop :=
  ∃ (p : Ptr) (e : Entry), c.heap[p]? = some e ∧ a ∈ e.code

instance (c : Cache) (a : Addr) : Decidable (InCachedCode c a) :=
  decidable_of_iff (∃ pe ∈ c.heap.toList, a ∈ pe.2.code)
    ⟨fun ⟨pe, hpe, ha⟩ ↦ ⟨pe.1, pe.2, Std.ExtTreeMap.mem_toList_iff_getElem?_eq_some.mp hpe, ha⟩,
      fun ⟨p, e, he, ha⟩ ↦ ⟨(p, e), Std.ExtTreeMap.mem_toList_iff_getElem?_eq_some.mpr he, ha⟩⟩

/-- Every registered jump stands in the code of an entry that is in the cache. -/
def Live (s : System) : Prop := ∀ jt ∈ s.jumpTargets, InCachedCode s.cache jt.jmpInstruction

instance (s : System) : Decidable (Live s) :=
  inferInstanceAs (Decidable (∀ jt ∈ s.jumpTargets, InCachedCode s.cache jt.jmpInstruction))

/-- An address lies in the code of one of some blocks. -/
def InBlocks (items : List Item) (a : Addr) : Prop := ∃ x ∈ items, a ∈ x.code

/-- As the blocks that do not fit are dropped from the back one by one, those that are left hold
every jump that does not lead to a dropped one. -/
def SourcesKept (room : List Item → Bool) (items : List Item) (jumpTargets : List JumpTarget) :
    Prop :=
  ∀ kept dropped, items = kept ++ dropped → (Lru.survivors room items).length ≤ kept.length →
    ∀ jt ∈ jumpTargets, jt.targetArmAddr ∉ dropped.map Item.armAddr →
      InBlocks kept jt.jmpInstruction

/-- The condition on a call and the state before it: a jump is registered when its block is in the
cache, an insertion keeps the sources of the jumps that stay, and the cache is cleared only when
no jump is registered. -/
def Call.KeepsSources (call : Call) (s : System) : Prop :=
  match call with
  | .register _ jmpInstruction _ => InCachedCode s.cache jmpInstruction
  | .insertEx _ x86Code x86Size _ _ _ =>
    x86Code = 0#64 ∨
      SourcesKept (fits s.cache.totalSize x86Size) s.cache.lruItems s.jumpTargets
  | .clear => s.jumpTargets = []
  | .resize _ _ => True

section Blocks

variable {room : List Item → Bool} {items : List Item} {jts : List JumpTarget} {x : Item}

theorem sourcesKept_of_survivors (h : Lru.survivors room items = items) :
    SourcesKept room items jts ↔ ∀ jt ∈ jts, InBlocks items jt.jmpInstruction := by
  constructor
  · intro hk jt hjt
    exact hk items [] (by simp) (by rw [h]) jt hjt (by simp)
  · rintro hin kept dropped rfl hlen jt hjt -
    rw [h, List.length_append] at hlen
    obtain rfl : dropped = [] := List.eq_nil_of_length_eq_zero (by omega)
    simpa using hin jt hjt

/-- Dropping the last block takes the jumps to it off the list. -/
theorem sourcesKept_concat (hno : room (items ++ [x]) = false) :
    SourcesKept room (items ++ [x]) jts ↔
      (∀ jt ∈ jts, InBlocks (items ++ [x]) jt.jmpInstruction) ∧
        SourcesKept room items (jts.filter fun jt ↦ jt.targetArmAddr ≠ x.armAddr) := by
  have hsurv : Lru.survivors room (items ++ [x]) = Lru.survivors room items := by
    rw [Lru.survivors_concat, hno]
    rfl
  have hle : (Lru.survivors room items).length ≤ items.length := Lru.survivors_prefix.length_le
  constructor
  · intro hk
    constructor
    · intro jt hjt
      refine hk (items ++ [x]) [] (by simp) ?_ jt hjt (by simp)
      rw [hsurv, List.length_append]
      omega
    · rintro kept dropped rfl hlen jt hjt hnot
      obtain ⟨hjt, hne⟩ := List.mem_filter.mp hjt
      refine hk kept (dropped ++ [x]) (by simp) (by rw [hsurv]; exact hlen) jt hjt ?_
      simp only [List.map_append, List.mem_append, not_or]
      exact ⟨hnot, by simpa using hne⟩
  · rintro ⟨hall, hk⟩ kept dropped hsplit hlen jt hjt hnot
    rcases List.eq_nil_or_concat' dropped with rfl | ⟨ys, y, rfl⟩
    · rw [List.append_nil] at hsplit
      exact hsplit ▸ hall jt hjt
    · rw [← List.append_assoc] at hsplit
      obtain ⟨hitems, hy⟩ := List.append_inj' hsplit rfl
      obtain rfl : x = y := List.singleton_inj.mp hy
      simp only [List.map_append, List.mem_append, not_or] at hnot
      rw [hsurv] at hlen
      refine hk kept ys hitems hlen jt (List.mem_filter.mpr ⟨hjt, ?_⟩) hnot.1
      simpa using hnot.2

end Blocks

section Step

variable {s : System} {lru chained : List Ptr}

/-- The patches of an insertion take the jumps to the evicted blocks off the list. -/
theorem patchEvicted_fst (fx : List Effect) (r : List JumpTarget × Memory) :
    (patchEvicted dispatcherLookup fx r).1 =
      r.1.filter fun jt ↦ jt.targetArmAddr ∉ evicted fx := by
  induction fx generalizing r with
  | nil => simp [patchEvicted, evicted]
  | cons f fx ih =>
    cases f with
    | patchEvictedBlock a =>
      rw [patchEvicted, ih, tcachePatchEvictedBlock, rewriteJumps_fst, List.filter_filter]
      refine List.filter_congr fun jt _ ↦ ?_
      rw [evicted_patch, ← Bool.decide_and, decide_eq_decide, List.mem_cons, not_or, and_comm]
    | munmap code size => exact ih r
    | free code => exact ih r

theorem patched_jumpTargets (cache : Cache) (fx : List Effect) :
    (s.patched dispatcherLookup cache fx).jumpTargets =
      s.jumpTargets.filter fun jt ↦ jt.targetArmAddr ∉ evicted fx :=
  patchEvicted_fst dispatcherLookup fx (s.jumpTargets, s.mem)

theorem inCachedCode_iff {c : Cache} (h : Represents c lru chained) (a : Addr) :
    InCachedCode c a ↔ InBlocks (recency c.heap lru) a := by
  constructor
  · rintro ⟨p, e, he, ha⟩
    have hp : p ∈ lru := (h.allocated p).mp (by simp [he])
    exact ⟨e.item, List.mem_map.mpr ⟨p, hp, itemOf_entry he⟩, ha⟩
  · rintro ⟨x, hx, ha⟩
    obtain ⟨p, hp, rfl⟩ := List.mem_map.mp hx
    obtain ⟨e, he⟩ := h.exists_entry hp
    rw [itemOf_entry he] at ha
    exact ⟨p, e, he, ha⟩

theorem live_iff (h : Represents s.cache lru chained) :
    Live s ↔ ∀ jt ∈ s.jumpTargets, InBlocks (recency s.cache.heap lru) jt.jmpInstruction :=
  forall₂_congr fun _ _ ↦ inCachedCode_iff h _

/-- The jumps are live in all states of an eviction loop exactly when their sources are kept. -/
theorem evictStates_live_iff (h : Represents s.cache lru chained) (x86Size : Nat) {fuel : Nat}
    (hfuel : lru.length < fuel) :
    (∀ s' ∈ evictStates dispatcherLookup s.cache.bucketCount x86Size fuel s, Live s') ↔
      SourcesKept (fits s.cache.totalSize x86Size) (recency s.cache.heap lru) s.jumpTargets := by
  induction fuel generalizing s lru chained with
  | zero => cases hfuel
  | succ fuel ih =>
    have hfits : fits s.cache.totalSize x86Size (recency s.cache.heap lru) =
        !decide (sizeAdd s.cache.usedSize x86Size > s.cache.totalSize) := by
      rw [fits, h.used, ← decide_not]
      simp
    by_cases hover : sizeAdd s.cache.usedSize x86Size > s.cache.totalSize
    · rcases List.eq_nil_or_concat' lru with rfl | ⟨xs, p, rfl⟩
      · have htail : s.cache.lruTail = none := h.list.tail_eq
        rw [sourcesKept_of_survivors (by simp [recency]), ← live_iff h, evictStates, if_pos hover,
          htail]
        simp
      · have htail : s.cache.lruTail = some p := by rw [h.list.tail_eq, List.getLast?_concat]
        obtain ⟨e, he⟩ := h.exists_entry (p := p) (by simp)
        obtain ⟨c₁, fx, hev, ⟨hfx, -⟩, hrep, hdata, htotal, hbuckets⟩ := evictEntry_spec h
        let s₁ := s.patched dispatcherLookup c₁
          (.patchEvictedBlock (itemOf s.cache.heap p).armAddr :: fx)
        have hstates : evictStates dispatcherLookup s.cache.bucketCount x86Size (fuel + 1) s =
            s :: evictStates dispatcherLookup s₁.cache.bucketCount x86Size fuel s₁ := by
          rw [evictStates, if_pos hover, htail]
          simp only [he, Option.any_some, h.unlocked p e he, hev]
          rw [← hbuckets]
          rfl
        have hjts : s₁.jumpTargets = s.jumpTargets.filter fun jt ↦
            jt.targetArmAddr ≠ (itemOf s.cache.heap p).armAddr := by
          rw [patched_jumpTargets, evicted_patch, hfx]
          simp
        have hne : ∀ y ∈ xs, p ≠ y := by
          have := (List.nodup_append.mp h.list.nodup).2.2
          exact fun y hy hpy ↦ this y hy p (by simp) hpy.symm
        have hrec : recency s₁.cache.heap xs = recency s.cache.heap xs := by
          refine List.map_congr_left fun y hy ↦ ?_
          show itemOf c₁.heap y = itemOf s.cache.heap y
          rw [itemOf, hdata y, if_neg (hne y hy), itemOf]
        have hmap : recency s.cache.heap (xs ++ [p]) =
            recency s.cache.heap xs ++ [itemOf s.cache.heap p] := by
          simp [recency]
        have hno : fits s.cache.totalSize x86Size (recency s.cache.heap (xs ++ [p])) = false := by
          rw [hfits]
          simp [hover]
        rw [hstates, List.forall_mem_cons, ih hrep (by simpa using hfuel), live_iff h]
        rw [hmap] at hno ⊢
        rw [sourcesKept_concat hno, hjts, hrec]
        show (_ ∧ SourcesKept (fits c₁.totalSize x86Size) _ _) ↔ _
        rw [htotal]
    · rw [sourcesKept_of_survivors (Lru.survivors_of_fits (by rw [hfits]; simp [hover])),
        ← live_iff h, evictStates, if_neg hover]
      simp

/-- When the sources are kept, the jumps are live behind the insertion. -/
theorem insertEx_live (h : Represents s.cache lru chained) (armAddr : Addr) {x86Code : Addr}
    (hcode : x86Code ≠ 0#64) (x86Size : Nat) (owned mmap : Bool) (alloc : Heap.Allocator Entry) :
    ∃ s' lru' chained',
      s.insertEx dispatcherLookup armAddr x86Code x86Size owned mmap alloc = some s' ∧
      Represents s'.cache lru' chained' ∧
      (SourcesKept (fits s.cache.totalSize x86Size) (recency s.cache.heap lru) s.jumpTargets →
        Live s') := by
  obtain ⟨st, c', fx, kept, dropped, lru', chained', hrun, hrep, -, hsplit, hdata, hkept,
    ⟨hfx, -⟩, hres⟩ :=
    tcacheInsertEx_spec h armAddr hcode x86Size owned mmap alloc
  refine ⟨s.patched dispatcherLookup c' fx, lru', chained', ?_, hrep, fun hsources ↦ ?_⟩
  · simp only [System.insertEx, hrun, Option.bind_eq_bind, Option.bind_some]
    rfl
  · rw [live_iff hrep]
    intro jt hjt
    rw [patched_jumpTargets] at hjt
    obtain ⟨hjt, hnot⟩ := List.mem_filter.mp hjt
    have hblocks : InBlocks (recency s.cache.heap kept) jt.jmpInstruction := by
      refine hsources _ (recency s.cache.heap dropped) ?_ ?_ jt hjt ?_
      · rw [hsplit, recency, List.map_append]
        rfl
      · rw [hkept]
      · simpa [hfx] using hnot
    obtain ⟨x, hx, hin⟩ := hblocks
    refine ⟨x, ?_, hin⟩
    obtain ⟨p, hp, rfl⟩ := List.mem_map.mp hx
    have hmem : p ∈ lru' := by
      rcases hres with ⟨-, rfl, -⟩ | ⟨q, -, rfl, -⟩
      · exact hp
      · exact List.mem_cons_of_mem _ hp
    refine List.mem_map.mpr ⟨p, hmem, ?_⟩
    show itemOf c'.heap p = itemOf s.cache.heap p
    rw [itemOf, hdata p hp, itemOf]

/-- One call returns. From live jumps, they are live in all states up to its end exactly when it
meets its condition. -/
theorem Call.exec_live_iff (h : Represents s.cache lru chained) (call : Call) :
    ∃ s' lru' chained', call.exec dispatcherLookup s = some s' ∧
      Represents s'.cache lru' chained' ∧
      (Live s →
        (((∀ r ∈ call.passes dispatcherLookup s, Live r) ∧ Live s') ↔ call.KeepsSources s)) := by
  have hone : ∀ {P : Prop}, Live s → ((∀ r ∈ [s], Live r) ∧ P ↔ P) := fun hlive ↦
    and_iff_right (by simpa using hlive)
  cases call with
  | register targetArmAddr jmpInstruction isCall =>
    refine ⟨_, lru, chained, rfl, h, fun hlive ↦ (hone hlive).trans ⟨fun hlive' ↦ ?_, fun hin ↦ ?_⟩⟩
    · exact hlive' _ List.mem_cons_self
    · intro jt hjt
      rcases List.mem_cons.mp hjt with rfl | hjt
      · exact hin
      · exact hlive jt hjt
  | insertEx armAddr x86Code x86Size owned mmap alloc =>
    by_cases hcode : x86Code = 0#64
    · refine ⟨s, lru, chained, ?_, h, fun hlive ↦ ?_⟩
      · simp only [exec, System.insertEx, tcacheInsertEx, if_pos hcode]
        rfl
      · simp only [passes, hcode, if_true, KeepsSources, true_or, iff_true]
        exact (hone hlive).mpr hlive
    · obtain ⟨s', lru', chained', hrun, hrep, hlive'⟩ :=
        insertEx_live dispatcherLookup h armAddr hcode x86Size owned mmap alloc
      have hlen : lru.length < s.cache.heap.size + 1 :=
        Nat.lt_succ_of_le (Heap.length_le_size h.list.nodup fun p hp ↦ (h.allocated p).mpr hp)
      have hloop := evictStates_live_iff dispatcherLookup h x86Size hlen
      refine ⟨s', lru', chained', hrun, hrep, fun _ ↦ ?_⟩
      simp only [passes, KeepsSources, hcode, if_false, false_or, h.lruItems_eq]
      rw [hloop]
      exact ⟨And.left, fun hs ↦ ⟨hs, hlive' hs⟩⟩
  | clear =>
    obtain ⟨c', fx, hrun, hrep, -⟩ := tcacheClear_spec h
    refine ⟨{ s with cache := c' }, [], [], ?_, hrep,
      fun hlive ↦ (hone hlive).trans ⟨fun hlive' ↦ ?_, fun hnil jt hjt ↦ ?_⟩⟩
    · simp only [exec, hrun]
      rfl
    · rw [live_iff (s := { s with cache := c' }) hrep] at hlive'
      refine List.eq_nil_iff_forall_not_mem.mpr fun jt hjt ↦ ?_
      obtain ⟨x, hx, -⟩ := hlive' jt hjt
      cases hx
    · rw [show s.jumpTargets = [] from hnil] at hjt
      cases hjt
  | resize newSize alloc =>
    obtain ⟨st, c', chained', hrun, hrep, hdata, -⟩ := tcacheResize_spec h newSize alloc
    refine ⟨{ s with cache := c' }, lru, chained', ?_, hrep,
      fun hlive ↦ (hone hlive).trans (iff_of_true ?_ trivial)⟩
    · simp only [exec, hrun]
      rfl
    · rw [live_iff (s := { s with cache := c' }) hrep, hdata.recency]
      exact (live_iff h).mp hlive

theorem Call.mem_passes (call : Call) (s : System) : s ∈ call.passes dispatcherLookup s := by
  cases call with
  | insertEx armAddr x86Code x86Size owned mmap alloc =>
    simp only [passes]
    split
    · exact List.mem_singleton_self s
    · rw [evictStates]
      exact List.mem_cons_self
  | register | clear | resize => exact List.mem_singleton_self s

theorem mem_statesOf (calls : List Call) (s : System) : s ∈ statesOf dispatcherLookup calls s := by
  cases calls with
  | nil => exact List.mem_singleton_self s
  | cons call calls => exact List.mem_append_left _ (call.mem_passes dispatcherLookup s)

theorem length_callsOf (calls : List Call) (h : Represents s.cache lru chained) :
    (callsOf dispatcherLookup calls s).length = calls.length := by
  induction calls generalizing s lru chained with
  | nil => rfl
  | cons call calls ih =>
    obtain ⟨s', lru', chained', hexec, hrep, -⟩ := call.exec_live_iff dispatcherLookup h
    simp only [callsOf, hexec, List.length_cons, ih hrep]

/-- A run from live jumps keeps them live exactly when every call meets its condition. -/
theorem statesOf_live_iff (calls : List Call) (h : Represents s.cache lru chained)
    (hlive : Live s) :
    (∀ r ∈ statesOf dispatcherLookup calls s, Live r) ↔
      ∀ step ∈ callsOf dispatcherLookup calls s, step.1.KeepsSources step.2 := by
  induction calls generalizing s lru chained with
  | nil => simpa [statesOf, callsOf] using hlive
  | cons call calls ih =>
    obtain ⟨s', lru', chained', hexec, hrep, hstep⟩ := call.exec_live_iff dispatcherLookup h
    simp only [statesOf, callsOf, hexec, List.forall_mem_append, List.forall_mem_cons]
    constructor
    · rintro ⟨hpasses, hrest⟩
      have hlive' := hrest s' (mem_statesOf dispatcherLookup calls s')
      exact ⟨(hstep hlive).mp ⟨hpasses, hlive'⟩, (ih hrep hlive').mp hrest⟩
    · rintro ⟨hfirst, hrest⟩
      obtain ⟨hpasses, hlive'⟩ := (hstep hlive).mpr hfirst
      exact ⟨hpasses, (ih hrep hlive').mpr hrest⟩

end Step

/-- A run on a new cache returns, and every registered jump stands in cached code in all its states
exactly when every call meets its condition. -/
theorem link_run_live_iff (dispatcherLookup : Addr) (size buckets : Nat) (mem : Memory)
    (calls : List Call) :
    (callsOf dispatcherLookup calls (create size buckets mem)).length = calls.length ∧
      ((∀ s ∈ statesOf dispatcherLookup calls (create size buckets mem), Live s) ↔
        ∀ step ∈ callsOf dispatcherLookup calls (create size buckets mem),
          step.1.KeepsSources step.2) := by
  have hrep := tcacheCreate_represents size buckets
  exact ⟨length_callsOf dispatcherLookup calls hrep, statesOf_live_iff dispatcherLookup calls hrep nofun⟩

/-- A jump of the block at `0x1000` outlives it: a second insertion evicts the block and leaves the
record. -/
theorem link_run_not_live :
    ¬ ∀ (dispatcherLookup : Addr) (size buckets : Nat) (mem : Memory) (calls : List Call),
      ∀ s ∈ statesOf dispatcherLookup calls (create size buckets mem), Live s := by
  intro hall
  have hrun := hall 0x700000 100 1 (fun _ ↦ 0)
    [.insertEx 0x1000 0x500000 90 true true (.at Entry 1), .register 0x3000 0x500050 false,
      .insertEx 0x2000 0x600000 90 true true (.at Entry 2)]
  have hlast : (statesOf 0x700000
      [.insertEx 0x1000 0x500000 90 true true (.at Entry 1), .register 0x3000 0x500050 false,
        .insertEx 0x2000 0x600000 90 true true (.at Entry 2)] (create 100 1 fun _ ↦ 0)).any
      (fun s ↦ decide (¬ Live s)) = true := by
    decide +kernel
  obtain ⟨s, hs, hdead⟩ := List.any_eq_true.mp hlast
  exact of_decide_eq_true hdead (hrun s hs)

end Arm2x86.Link
