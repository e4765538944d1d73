import Arm2x86.Base.Heap
import Arm2x86.Base.Links
import Arm2x86.Tcache.PatchFrame

/-!
# The jump records on the heap

The list of `modules/arm2x86_tcache.c:6` as the code keeps it: records linked by `next`, and a walk
with a trailing pointer that unlinks and frees while it goes on. It leaves what the walk over a list
of records leaves.
-/

namespace Arm2x86.Tcache

open Links

/-- `jump_target_t` with its link. -/
structure JumpNode extends JumpTarget where
  next : Option Ptr

/-- The allocated records, `g_jump_targets`, and the memory with the translated code. -/
structure JumpList where
  heap : Heap JumpNode
  gJumpTargets : Option Ptr
  mem : Memory

namespace JumpList

/-! ## The functions -/

/-- `tcache_register_jump_target`, `modules/arm2x86_tcache.c:18`. -/
def tcacheRegisterJumpTarget (alloc : Heap.Allocator JumpNode) (record : JumpTarget)
    (s : JumpList) : JumpList :=
  match alloc.calloc s.heap with
  | none => s
  | some jt =>
    { s with
      heap := s.heap.insert jt { record with next := s.gJumpTargets }
      gJumpTargets := some jt }

/-- A turn of `while (jt)`: the list, and `jt` and `prev` after it. There is no result when a record
is accessed that is not allocated. -/
def turn (code : JumpTarget → List Byte) (armAddr : Addr) (s : JumpList) (jt : Ptr)
    (prev : Option Ptr) : Option (JumpList × Option Ptr × Option Ptr) := do
  let node ← s.heap[jt]?
  if node.targetArmAddr = armAddr then
    let mem := s.mem.write node.jmpInstruction (code node.toJumpTarget)
    match prev with
    | some prev =>
      let heap ← Heap.update s.heap prev ({ · with next := node.next })
      let after ← heap[jt]?
      some ({ s with heap := heap.erase jt, mem }, after.next, some prev)
    | none =>
      some ({ heap := s.heap.erase jt, gJumpTargets := node.next, mem }, node.next, none)
  else some (s, node.next, some jt)

/-- `while (jt)`. -/
def walk (code : JumpTarget → List Byte) (armAddr : Addr) :
    Nat → JumpList × Option Ptr × Option Ptr → Option JumpList
  | _, (s, none, _) => some s
  | 0, (_, some _, _) => none
  | fuel + 1, (s, some jt, prev) => (turn code armAddr s jt prev).bind (walk code armAddr fuel)

/-- `tcache_patch_evicted_block`, `modules/arm2x86_tcache.c:38`. -/
def tcachePatchEvictedBlock (dispatcherLookup evictedArmAddr : Addr) (fuel : Nat) (s : JumpList) :
    Option JumpList :=
  walk (dispatchCode dispatcherLookup) evictedArmAddr fuel (s, s.gJumpTargets, none)

/-- `tcache_invalidate_jumps_to`, `modules/arm2x86_tcache.c:84`. -/
def tcacheInvalidateJumpsTo (evictedArmAddr : Addr) (fuel : Nat) (s : JumpList) :
    Option JumpList :=
  walk (fun _ ↦ [0x0f, 0x0b]) evictedArmAddr fuel (s, s.gJumpTargets, none)

/-! ## What a list holds -/

/-- The `next` field. -/
def link (s : JumpList) (p : Ptr) : Option (Option Ptr) := s.heap[p]?.map JumpNode.next

/-- The records of a list from its head, each with the address it is allocated at. -/
structure Represents (s : JumpList) (rs : List (Ptr × JumpTarget)) : Prop where
  chain : Chain s.link s.gJumpTargets (rs.map Prod.fst)
  records : ∀ r ∈ rs, (s.heap[r.1]?).map JumpNode.toJumpTarget = some r.2

/-- The records with a target are taken off the list and freed, after the code is written over each
of their jumps. The others are where they were. -/
structure Removed (code : JumpTarget → List Byte) (armAddr : Addr) (rs : List (Ptr × JumpTarget))
    (s s' : JumpList) : Prop where
  kept : s'.Represents (rs.filter fun r ↦ r.2.targetArmAddr ≠ armAddr)
  freed : ∀ r ∈ rs, r.2.targetArmAddr = armAddr → s'.heap[r.1]? = none
  others : ∀ p, p ∉ rs.map Prod.fst → s'.heap[p]? = s.heap[p]?
  patched : s'.mem = writeAll s.mem
    ((recordedWith armAddr (rs.map Prod.snd)).map fun jt ↦ (jt.jmpInstruction, code jt))

/-- Every patch is there, if no later one goes over it. -/
def SitesPatched (code : JumpTarget → List Byte) (jts : List JumpTarget) (mem : Memory) : Prop :=
  ∀ before jt after, jts = before ++ jt :: after →
    (∀ j ∈ after, ∀ q, q ∈ (⟨jt.jmpInstruction, (code jt).length⟩ : Region) →
      q ∉ (⟨j.jmpInstruction, (code j).length⟩ : Region)) →
    mem.read jt.jmpInstruction (code jt).length = code jt

/-! ## The walk -/

variable {code : JumpTarget → List Byte} {armAddr : Addr} {s s' : JumpList}
  {kept rest rs : List (Ptr × JumpTarget)} {r : Ptr × JumpTarget}

/-- A record of a list, taken off it. -/
structure Unlinked (code : JumpTarget → List Byte) (kept rest : List (Ptr × JumpTarget))
    (r : Ptr × JumpTarget) (s s' : JumpList) : Prop where
  represents : s'.Represents (kept ++ rest)
  freed : s'.heap[r.1]? = none
  others : ∀ p, p ∉ (kept ++ r :: rest).map Prod.fst → s'.heap[p]? = s.heap[p]?
  patched : s'.mem = s.mem.write r.2.jmpInstruction (code r.2)

/-- The record that a walk is at. -/
theorem Represents.node (h : s.Represents (kept ++ r :: rest)) :
    s.heap[r.1]? = some { r.2 with next := (rest.map Prod.fst).head? } := by
  have hrecord := h.records r (List.mem_append_right kept List.mem_cons_self)
  have hchain := h.chain
  rw [List.map_append, List.map_cons] at hchain
  have hlink := hchain.field_eq
  obtain ⟨node, hnode, htarget⟩ := Option.map_eq_some_iff.mp hrecord
  rw [link, hnode, Option.map_some, Option.some.injEq] at hlink
  rw [hnode, ← htarget, ← hlink]

theorem Represents.nodup (h : s.Represents rs) : (rs.map Prod.fst).Nodup := h.chain.nodup

/-- Unlinking keeps the rest of a list when the pointer to the record takes over its link. -/
theorem Represents.unlink (h : s.Represents (kept ++ r :: rest))
    (hhead : s'.gJumpTargets =
      if kept.map Prod.fst = [] then (rest.map Prod.fst).head? else s.gJumpTargets)
    (hheap : ∀ p ∈ (kept ++ rest).map Prod.fst, s'.heap[p]? =
      (s.heap[p]?).map fun node ↦
        if (kept.map Prod.fst).getLast? = some p then
          { node with next := (rest.map Prod.fst).head? }
        else node) :
    s'.Represents (kept ++ rest) := by
  have hnodup := h.nodup
  have hchain := h.chain
  simp only [List.map_append, List.map_cons] at hnodup hchain hheap ⊢
  constructor
  · rw [List.map_append]
    apply hchain.remove (List.nodup_cons.mp (List.nodup_middle.mp hnodup)).2 hhead
    intro p hp
    have hsome : (s.heap[p]?).isSome := by
      have hmem : p ∈ kept.map Prod.fst ++ r.1 :: rest.map Prod.fst := by
        rw [List.mem_append] at hp ⊢
        exact hp.imp_right (List.mem_cons_of_mem _)
      simpa [link] using Seg.allocated hchain hmem
    obtain ⟨node, hnode⟩ := Option.isSome_iff_exists.mp hsome
    rw [link, link, hheap p hp, hnode]
    simp only [Option.map_some]
    split <;> rfl
  · intro q hq
    have hold : q ∈ kept ++ r :: rest := by
      rw [List.mem_append] at hq ⊢
      exact hq.imp_right (List.mem_cons_of_mem _)
    have hp : q.1 ∈ kept.map Prod.fst ++ rest.map Prod.fst := by
      rw [← List.map_append]
      exact List.mem_map_of_mem hq
    rw [hheap q.1 hp, ← h.records q hold, Option.map_map]
    congr 1
    ext node
    dsimp only [Function.comp_apply]
    split <;> rfl

/-- A turn at a record with the target unlinks it. -/
theorem turn_of_eq (h : s.Represents (kept ++ r :: rest)) (hr : r.2.targetArmAddr = armAddr) :
    ∃ s', turn code armAddr s r.1 (kept.map Prod.fst).getLast? =
        some (s', (rest.map Prod.fst).head?, (kept.map Prod.fst).getLast?) ∧
      Unlinked code kept rest r s s' := by
  have hnode := h.node
  have hnodup := h.nodup
  rw [List.map_append, List.map_cons] at hnodup
  have hfresh := (List.nodup_cons.mp (List.nodup_middle.mp hnodup)).1
  have hother {p : Ptr} (hp : p ∈ (kept ++ rest).map Prod.fst) : r.1 ≠ p := by
    rintro rfl
    exact hfresh (List.map_append ▸ hp)
  rcases List.eq_nil_or_concat' kept with rfl | ⟨front, last, rfl⟩
  · refine ⟨{ heap := s.heap.erase r.1, gJumpTargets := (rest.map Prod.fst).head?, mem := _ }, ?_,
      ?_, ?_, ?_, rfl⟩
    · rw [turn, hnode, Option.bind_eq_bind, Option.bind_some, if_pos hr]
      rfl
    · refine h.unlink rfl fun p hp ↦ ?_
      rw [Heap.getElem?_erase, if_neg (hother hp)]
      simp
    · exact (Heap.getElem?_erase _ _ _).trans (if_pos rfl)
    · intro p hp
      rw [Heap.getElem?_erase, if_neg]
      rintro rfl
      simp at hp
  · have hlastmem : last ∈ front ++ [last] ++ r :: rest := by simp
    obtain ⟨prev, hprev, -⟩ := Option.map_eq_some_iff.mp (h.records last hlastmem)
    have hne : last.1 ≠ r.1 := (hother (by simp)).symm
    have hlast : ((front ++ [last]).map Prod.fst).getLast? = some last.1 := by simp
    refine ⟨{ s with
      heap := (s.heap.insert last.1 { prev with next := (rest.map Prod.fst).head? }).erase r.1
      mem := _ }, ?_, ?_, ?_, ?_, rfl⟩
    · rw [turn, hnode, Option.bind_eq_bind, Option.bind_some, if_pos hr, hlast]
      simp only [Heap.update_eq_some hprev, Option.bind_eq_bind, Option.bind_some,
        Heap.getElem?_insert, if_neg hne, hnode]
      rfl
    · refine h.unlink (by simp) fun p hp ↦ ?_
      rw [Heap.getElem?_erase, if_neg (hother hp), Heap.getElem?_insert, hlast]
      by_cases hp' : last.1 = p
      · subst hp'
        simp [hprev]
      · simp [hp']
    · exact (Heap.getElem?_erase _ _ _).trans (if_pos rfl)
    · intro p hp
      rw [Heap.getElem?_erase, if_neg, Heap.getElem?_insert, if_neg]
      · rintro rfl
        simp at hp
      · rintro rfl
        simp at hp

/-- A turn at another record goes on to the next one. -/
theorem turn_of_ne (h : s.Represents (kept ++ r :: rest)) (hr : r.2.targetArmAddr ≠ armAddr)
    (prev : Option Ptr) :
    turn code armAddr s r.1 prev = some (s, (rest.map Prod.fst).head?, some r.1) := by
  rw [turn, h.node, Option.bind_eq_bind, Option.bind_some, if_neg hr]

theorem recordedWith_eq_nil (h : ∀ r ∈ kept, r.2.targetArmAddr ≠ armAddr) :
    recordedWith armAddr (kept.map Prod.snd) = [] := by
  unfold recordedWith
  rw [List.filter_eq_nil_iff]
  intro jt hjt
  obtain ⟨r, hr, rfl⟩ := List.mem_map.mp hjt
  simpa using h r hr

/-- What is removed after a record is unlinked is removed with it. -/
theorem Unlinked.removed {s₁ : JumpList} (h : Unlinked code kept rest r s s₁)
    (hkept : ∀ r ∈ kept, r.2.targetArmAddr ≠ armAddr) (hr : r.2.targetArmAddr = armAddr)
    (hnodup : ((kept ++ r :: rest).map Prod.fst).Nodup)
    (hrest : Removed code armAddr (kept ++ rest) s₁ s') :
    Removed code armAddr (kept ++ r :: rest) s s' := by
  have hout : r.1 ∉ (kept ++ rest).map Prod.fst := by
    rw [List.map_append, List.map_cons] at hnodup
    rw [List.map_append]
    exact (List.nodup_cons.mp (List.nodup_middle.mp hnodup)).1
  have hnone := recordedWith_eq_nil hkept
  constructor
  · have hfilter := hrest.kept
    rw [List.filter_append] at hfilter ⊢
    rwa [List.filter_cons_of_neg (by simpa using hr)]
  · intro q hq hq'
    rw [List.mem_append, List.mem_cons] at hq
    rcases hq with hq | rfl | hq
    · exact hrest.freed q (List.mem_append_left rest hq) hq'
    · rw [hrest.others q.1 hout, h.freed]
    · exact hrest.freed q (List.mem_append_right kept hq) hq'
  · intro p hp
    rw [hrest.others p, h.others p hp]
    intro hp'
    apply hp
    rw [List.map_append, List.mem_append] at hp' ⊢
    exact hp'.imp_right (List.mem_cons_of_mem _)
  · rw [hrest.patched, h.patched]
    simp only [recordedWith, List.map_append, List.map_cons, List.filter_append] at hnone ⊢
    rw [hnone, List.filter_cons_of_pos (by simpa using hr)]
    rfl

/-- The walk removes from what is left of a list, when nothing before is to be removed. The trailing
pointer is the last record that was kept. -/
theorem walk_removed {fuel : Nat} (h : s.Represents (kept ++ rest))
    (hkept : ∀ r ∈ kept, r.2.targetArmAddr ≠ armAddr) (hfuel : rest.length ≤ fuel) :
    ∃ s', walk code armAddr fuel
        (s, (rest.map Prod.fst).head?, (kept.map Prod.fst).getLast?) = some s' ∧
      Removed code armAddr (kept ++ rest) s s' := by
  induction rest generalizing kept s fuel with
  | nil =>
    refine ⟨s, by cases fuel <;> rfl, ?_⟩
    have hall : kept.filter (fun r ↦ r.2.targetArmAddr ≠ armAddr) = kept :=
      List.filter_eq_self.mpr fun r hr ↦ by simpa using hkept r hr
    rw [List.append_nil] at h ⊢
    constructor
    · rwa [hall]
    · exact fun r hr heq ↦ absurd heq (hkept r hr)
    · exact fun _ _ ↦ rfl
    · rw [recordedWith_eq_nil hkept]
      rfl
  | cons r rest ih =>
    obtain ⟨fuel, rfl⟩ := Nat.exists_eq_succ_of_ne_zero
      (Nat.ne_of_gt (Nat.lt_of_lt_of_le (Nat.succ_pos _) hfuel))
    have hfuel' : rest.length ≤ fuel := Nat.le_of_succ_le_succ hfuel
    by_cases hr : r.2.targetArmAddr = armAddr
    · obtain ⟨s₁, hturn, hunlinked⟩ := turn_of_eq h hr
      obtain ⟨s', hwalk, hremoved⟩ := ih hunlinked.represents hkept hfuel'
      refine ⟨s', ?_, hunlinked.removed hkept hr h.nodup hremoved⟩
      rw [List.map_cons, List.head?_cons, walk, hturn, Option.bind_some, hwalk]
    · have hsplit : kept ++ r :: rest = (kept ++ [r]) ++ rest := by simp
      have hkept' : ∀ q ∈ kept ++ [r], q.2.targetArmAddr ≠ armAddr := by
        intro q hq
        rcases List.mem_append.mp hq with hq | hq
        · exact hkept q hq
        · rwa [List.mem_singleton.mp hq]
      obtain ⟨s', hwalk, hremoved⟩ := ih (hsplit ▸ h) hkept' hfuel'
      refine ⟨s', ?_, hsplit ▸ hremoved⟩
      have hlast : ((kept ++ [r]).map Prod.fst).getLast? = some r.1 := by simp
      rw [List.map_cons, List.head?_cons, walk, turn_of_ne h hr, Option.bind_some, ← hlast, hwalk]

/-- The code that is written last at a site is read there. -/
theorem Removed.sitesPatched (h : Removed code armAddr rs s s')
    (hlen : ∀ jt, (code jt).length ≤ 2 ^ 64) :
    SitesPatched code (recordedWith armAddr (rs.map Prod.snd)) s'.mem := by
  intro before jt after hsplit hlater
  rw [h.patched, hsplit, List.map_append, List.map_cons, writeAll, List.foldl_append,
    List.foldl_cons]
  calc (writeAll _ _).read jt.jmpInstruction (code jt).length
      = (Memory.write (writeAll s.mem (before.map fun jt ↦ (jt.jmpInstruction, code jt)))
          jt.jmpInstruction (code jt)).read jt.jmpInstruction (code jt).length := by
        apply Memory.read_congr
        intro i hi
        apply writeAll_of_notMem
        intro w hw
        obtain ⟨j, hj, rfl⟩ := List.mem_map.mp hw
        exact hlater j hj _ (Region.start_add_mem hi)
    _ = code jt := Memory.read_write _ _ (hlen jt)

/-! ## Runs -/

/-- A call of one of the three functions. -/
inductive Call
  | registerJumpTarget (record : JumpTarget)
  | patchEvictedBlock (dispatcherLookup evictedArmAddr : Addr)
  | invalidateJumpsTo (evictedArmAddr : Addr)

/-- The list after a call. A walk has as many turns as there are records at most. -/
def Call.run (alloc : Heap.Allocator JumpNode) (s : JumpList) : Call → Option JumpList
  | .registerJumpTarget record => some (s.tcacheRegisterJumpTarget alloc record)
  | .patchEvictedBlock dispatcherLookup armAddr =>
    s.tcachePatchEvictedBlock dispatcherLookup armAddr s.heap.size
  | .invalidateJumpsTo armAddr => s.tcacheInvalidateJumpsTo armAddr s.heap.size

theorem Represents.register (h : s.Represents rs) (alloc : Heap.Allocator JumpNode)
    (record : JumpTarget) :
    ∃ rs', (s.tcacheRegisterJumpTarget alloc record).Represents rs' := by
  unfold tcacheRegisterJumpTarget
  cases hjt : alloc.calloc s.heap with
  | none => exact ⟨rs, h⟩
  | some jt =>
    have hfresh := (alloc.fresh _ _ hjt).2.2
    have hold : ∀ r ∈ rs, jt ≠ r.1 := by
      rintro r hr rfl
      have hrecord := h.records r hr
      rw [hfresh] at hrecord
      cases hrecord
    refine ⟨(jt, record) :: rs, ?_, ?_⟩
    · apply h.chain.push
      · rw [link, Heap.getElem?_insert, if_pos rfl]
        rfl
      · intro p hp
        obtain ⟨r, hr, rfl⟩ := List.mem_map.mp hp
        rw [link, link, Heap.getElem?_insert, if_neg (hold r hr)]
    · rw [List.forall_mem_cons]
      constructor
      · rw [Heap.getElem?_insert, if_pos rfl]
        rfl
      · intro r hr
        rw [Heap.getElem?_insert, if_neg (hold r hr), h.records r hr]

theorem Represents.length_le (h : s.Represents rs) : rs.length ≤ s.heap.size := by
  rw [← List.length_map Prod.fst]
  apply Heap.length_le_size h.nodup
  intro p hp
  obtain ⟨r, hr, rfl⟩ := List.mem_map.mp hp
  have hrecord := h.records r hr
  cases hnode : s.heap[r.1]? with
  | none => rw [hnode] at hrecord; cases hrecord
  | some node => rfl

/-- A walk from the head removes from the whole list. -/
theorem Represents.walk (h : s.Represents rs) {fuel : Nat} (hfuel : rs.length ≤ fuel) :
    ∃ s', walk code armAddr fuel (s, s.gJumpTargets, none) = some s' ∧
      Removed code armAddr rs s s' := by
  rw [h.chain.eq_head?]
  exact walk_removed h (fun r hr ↦ absurd hr List.not_mem_nil) hfuel

/-- Whatever calls are made, they return, and the list stays one. -/
theorem represents_run (alloc : Heap.Allocator JumpNode) (calls : List Call) :
    ∀ s rs, s.Represents rs →
      ∃ s' rs', calls.foldlM (Call.run alloc) s = some s' ∧ s'.Represents rs' := by
  induction calls with
  | nil => exact fun s rs h ↦ ⟨s, rs, rfl, h⟩
  | cons call calls ih =>
    intro s rs h
    obtain ⟨s₁, rs₁, hstep, h₁⟩ : ∃ s₁ rs₁, call.run alloc s = some s₁ ∧ s₁.Represents rs₁ := by
      cases call with
      | registerJumpTarget record =>
        obtain ⟨rs', h'⟩ := h.register alloc record
        exact ⟨_, rs', rfl, h'⟩
      | patchEvictedBlock dispatcherLookup armAddr =>
        obtain ⟨s', hwalk, hremoved⟩ := h.walk h.length_le
        exact ⟨s', _, hwalk, hremoved.kept⟩
      | invalidateJumpsTo armAddr =>
        obtain ⟨s', hwalk, hremoved⟩ := h.walk h.length_le
        exact ⟨s', _, hwalk, hremoved.kept⟩
    obtain ⟨s', rs', hrun, h'⟩ := ih s₁ rs₁ h₁
    exact ⟨s', rs', by rw [List.foldlM_cons, hstep]; exact hrun, h'⟩

/-- Both functions go through every list to its end. They write their code over each jump to the
address, and take the records of these, and no others, off the list. -/
theorem jumps_removed (dispatcherLookup armAddr : Addr) (s : JumpList)
    (rs : List (Ptr × JumpTarget)) (h : s.Represents rs) (fuel : Nat) (hfuel : rs.length ≤ fuel) :
    (∃ s', s.tcachePatchEvictedBlock dispatcherLookup armAddr fuel = some s' ∧
        Removed (dispatchCode dispatcherLookup) armAddr rs s s' ∧
        SitesPatched (dispatchCode dispatcherLookup) (recordedWith armAddr (rs.map Prod.snd))
          s'.mem) ∧
      ∃ s', s.tcacheInvalidateJumpsTo armAddr fuel = some s' ∧
        Removed (fun _ ↦ [0x0f, 0x0b]) armAddr rs s s' ∧
        SitesPatched (fun _ ↦ [0x0f, 0x0b]) (recordedWith armAddr (rs.map Prod.snd)) s'.mem := by
  constructor
  · obtain ⟨s', hwalk, hremoved⟩ := h.walk hfuel
    refine ⟨s', hwalk, hremoved, hremoved.sitesPatched fun jt ↦ ?_⟩
    simp [dispatchCode, X86.imm32, X86.imm64]
  · obtain ⟨s', hwalk, hremoved⟩ := h.walk hfuel
    exact ⟨s', hwalk, hremoved, hremoved.sitesPatched fun _ ↦ by simp⟩

/-- Three jumps, two of them to one block, at the addresses in front of their code. -/
def threeJumps : JumpList where
  heap := ((∅ : Heap JumpNode).insert 3 ⟨⟨0x2000, 0x300, true⟩, none⟩).insert 2
    ⟨⟨0x1000, 0x200, false⟩, some 3⟩ |>.insert 1 ⟨⟨0x1000, 0x100, true⟩, some 2⟩
  gJumpTargets := some 1
  mem := fun _ ↦ 0

theorem represents_threeJumps : threeJumps.Represents
    [(1, ⟨0x1000, 0x100, true⟩), (2, ⟨0x1000, 0x200, false⟩), (3, ⟨0x2000, 0x300, true⟩)] := by
  have hone : threeJumps.heap[1]? = some ⟨⟨0x1000, 0x100, true⟩, some 2⟩ := by
    simp only [threeJumps, Heap.getElem?_insert]
    rfl
  have htwo : threeJumps.heap[2]? = some ⟨⟨0x1000, 0x200, false⟩, some 3⟩ := by
    simp only [threeJumps, Heap.getElem?_insert]
    rfl
  have hthree : threeJumps.heap[3]? = some ⟨⟨0x2000, 0x300, true⟩, none⟩ := by
    simp only [threeJumps, Heap.getElem?_insert]
    rfl
  constructor
  · simp only [List.map_cons, List.map_nil, Chain, seg_cons, seg_nil, link, hone, htwo, hthree,
      Option.map_some]
    exact ⟨rfl, _, rfl, rfl, _, rfl, rfl, _, rfl, rfl⟩
  · simp [hone, htwo, hthree]

/-- The two records in front are taken off the list, one after the other. -/
theorem jumps_removed_threeJumps :
    ∃ s', threeJumps.tcacheInvalidateJumpsTo 0x1000 3 = some s' ∧
      s'.Represents [(3, ⟨0x2000, 0x300, true⟩)] := by
  obtain ⟨-, s', hwalk, hremoved, -⟩ :=
    jumps_removed 0 0x1000 threeJumps _ represents_threeJumps 3 (Nat.le_refl 3)
  exact ⟨s', hwalk, hremoved.kept⟩

end JumpList

end Arm2x86.Tcache
