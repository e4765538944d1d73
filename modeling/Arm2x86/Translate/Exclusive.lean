import Arm2x86.Base.Pool
import Arm2x86.Translate.RegAlloc

/-!
# Exclusivity of the register allocator

The allocator as a pool: the guest registers are the holders and the host registers the
resources. Every sequence of its operations keeps assignments exclusive, and `reg_alloc_get_reg`
never reaches its last fallback, because one guest register is cached at any time.
-/

namespace Arm2x86.Translate

open X86

namespace Alloc

variable {a : Alloc} {r i : ArmReg} {x : Byte}

/-- The host register a guest register holds. -/
def held (a : Alloc) (r : ArmReg) : Option Byte :=
  if a.cached r then some (a.regAlloc r).x86Reg else none

/-- The stack of free host registers, from its bottom. -/
def freeStack (a : Alloc) : List Byte :=
  (List.range a.freeRegCount.toNat).map fun k : Nat ↦ a.freeRegs k

theorem held_eq_some_iff : a.held r = some x ↔ (a.regAlloc r).x86Reg = x ∧ x ≠ noReg := by
  unfold held cached
  by_cases h : (a.regAlloc r).x86Reg = noReg
  · simp only [h, bne_self_eq_false, Bool.false_eq_true, if_false, reduceCtorEq, false_iff, not_and,
      not_not]
    exact fun h ↦ h.symm
  · simp only [bne_iff_ne, ne_eq, h, not_false_eq_true, if_true, Option.some.injEq]
    exact ⟨fun hx ↦ ⟨hx, hx ▸ h⟩, fun hx ↦ hx.1⟩

theorem cached_iff_held : a.cached r ↔ ∃ x, a.held r = some x := by
  unfold held
  by_cases h : a.cached r <;> simp [h]

/-- The state in which the allocator is found between any two calls. -/
structure WellFormed (a : Alloc) : Prop where
  exclusive : Exclusive a.held a.freeStack
  count_nonneg : 0 ≤ a.freeRegCount
  count_le : a.freeRegCount ≤ regAllocCount
  free_ne : ∀ x ∈ a.freeStack, x ≠ noReg
  some_cached : ∃ r, a.cached r

@[simp] theorem held_setDirty (d : Bool) : (a.setDirty r d).held = a.held := by
  funext j
  by_cases h : j = r
  · subst h
    simp [held, cached, setDirty]
  · simp [held, cached, setDirty, h]

theorem held_setX86Reg_noReg : (a.setX86Reg r noReg).held = Function.update a.held r none := by
  funext j
  by_cases h : j = r
  · subst h
    simp [held, cached, setX86Reg]
  · simp [held, cached, setX86Reg, h]

theorem held_assign {w : Bool} (hx : x ≠ noReg) :
    (regAllocAssign a r x w).held = Function.update a.held r (some x) := by
  funext j
  by_cases h : j = r
  · subst h
    simp [held, cached, regAllocAssign, hx]
  · simp [held, cached, regAllocAssign, h]

theorem held_place {w d : Bool} (hx : x ≠ noReg) :
    (regAllocPlace a r x w d).1.held = Function.update a.held r (some x) := by
  unfold regAllocPlace
  by_cases h : d <;> simp [h, held_assign hx]

theorem freeStack_place {w d : Bool} : (regAllocPlace a r x w d).1.freeStack = a.freeStack := by
  unfold regAllocPlace
  by_cases h : d <;> simp [h] <;> rfl

@[simp] theorem freeRegCount_place {w d : Bool} :
    (regAllocPlace a r x w d).1.freeRegCount = a.freeRegCount := by
  unfold regAllocPlace
  by_cases h : d <;> simp [h] <;> rfl

/-- A stack with something on it: its top, and the allocator without it. -/
theorem freeStack_pop (h : 0 < a.freeRegCount) :
    a.freeStack = { a with freeRegCount := a.freeRegCount - 1 }.freeStack ++
      [a.freeRegs (a.freeRegCount - 1)] := by
  obtain ⟨n, hn⟩ : ∃ n : Nat, a.freeRegCount = n + 1 := ⟨(a.freeRegCount - 1).toNat, by omega⟩
  have h1 : a.freeRegCount.toNat = n + 1 := by omega
  have h3 : a.freeRegCount - 1 = n := by omega
  unfold freeStack
  simp only [h1, h3, Int.toNat_natCast]
  rw [List.range_succ, List.map_append]
  rfl

end Alloc

open Alloc

variable {a : Alloc}

/-- `reg_alloc_get_free` fails exactly on an empty stack and else takes its top. -/
theorem regAllocGetFree_cases (h : a.WellFormed) :
    (a.freeRegCount = 0 ∧ regAllocGetFree a = (a, noReg)) ∨
      (0 < a.freeRegCount ∧ a.freeRegs (a.freeRegCount - 1) ≠ noReg ∧
        regAllocGetFree a = ({ a with freeRegCount := a.freeRegCount - 1 },
          a.freeRegs (a.freeRegCount - 1))) := by
  unfold regAllocGetFree
  by_cases hc : a.freeRegCount = 0
  · left
    simp [hc]
  · have hpos : 0 < a.freeRegCount := by
      have := h.count_nonneg
      omega
    right
    refine ⟨hpos, h.free_ne _ ?_, by simp [hc]⟩
    rw [freeStack_pop hpos]
    exact List.mem_append_right _ List.mem_cons_self

/-- Some register is cached, so the scan finds a victim. The victim is the first of least
priority. -/
theorem spillIdx_spec (h : a.WellFormed) :
    ∃ i, spillIdx a = some i ∧ a.cached i ∧
      (∀ j, a.cached j → armRegPriority i ≤ armRegPriority j) ∧
      ∀ j < i, a.cached j → armRegPriority i < armRegPriority j := by
  obtain ⟨r, hr⟩ := h.some_cached
  have hbound : armRegPriority r < 255 := by
    have key : ∀ r : ArmReg, armRegPriority r < 255 := by decide
    exact key r
  obtain ⟨i, -, hi, hmin, hle, hfirst⟩ := firstMin_spec (p := a.cached) (List.pairwise_lt_finRange 32)
    (List.mem_finRange r) hr hbound
  refine ⟨i, ?_, hi, fun j hj ↦ hle j (List.mem_finRange j) hj,
    fun j hji hj ↦ hfirst j (List.mem_finRange j) hji hj⟩
  exact congrArg Prod.fst hmin

/-- The allocator after its victim's register went through the empty stack. -/
def Alloc.evict (a : Alloc) (i : ArmReg) : Alloc :=
  { a.setX86Reg i noReg with freeRegs := Function.update a.freeRegs 0 (a.regAlloc i).x86Reg }

theorem regAllocGetFree_free (h : a.freeRegCount = 0) (i : ArmReg) :
    regAllocGetFree (regAllocFree (a.setX86Reg i noReg) (a.regAlloc i).x86Reg) =
      (a.evict i, (a.regAlloc i).x86Reg) := by
  have hset : (a.setX86Reg i noReg).freeRegCount = 0 := h
  unfold regAllocFree
  rw [hset, if_pos (by decide)]
  simp [regAllocGetFree, Alloc.evict, Alloc.setX86Reg, h]

/-- The three ways of `reg_alloc_get_reg`, with all they return. -/
theorem regAllocGetReg_cases (h : a.WellFormed) (r : ArmReg) (w d : Bool) :
    (a.cached r ∧ regAllocGetReg a r w d =
        (if d then a.setDirty r true else a, ⟨(a.regAlloc r).x86Reg, [], .cached⟩)) ∨
      (∃ b x, ¬ a.cached r ∧ 0 < a.freeRegCount ∧ x ≠ noReg ∧
        b = { a with freeRegCount := a.freeRegCount - 1 } ∧
        x = a.freeRegs (a.freeRegCount - 1) ∧
        regAllocGetReg a r w d =
          ((regAllocPlace b r x w d).1, ⟨x, [emitLoadArmReg r x w], .allocated⟩)) ∨
      ∃ i, ¬ a.cached r ∧ a.freeRegCount = 0 ∧ spillIdx a = some i ∧ a.cached i ∧
        regAllocGetReg a r w d =
          ((regAllocPlace (a.evict i) r (a.regAlloc i).x86Reg w d).1,
            ⟨(a.regAlloc i).x86Reg,
              storeIfDirty a i ++ [emitLoadArmReg r (a.regAlloc i).x86Reg w], .spilled⟩) := by
  unfold regAllocGetReg
  by_cases hr : a.cached r
  · left
    simp [hr]
  · right
    rw [if_neg hr]
    rcases regAllocGetFree_cases h with ⟨hc, hfree⟩ | ⟨hpos, hne, hfree⟩
    · right
      obtain ⟨i, hi, hci, -⟩ := spillIdx_spec h
      have hx : (a.regAlloc i).x86Reg ≠ noReg := by simpa [Alloc.cached] using hci
      refine ⟨i, hr, hc, hi, hci, ?_⟩
      simp only [hfree, bne_self_eq_false, Bool.false_eq_true, if_false, hi,
        regAllocGetFree_free hc, bne_iff_ne, ne_eq, hx, not_false_eq_true, if_true]
      rfl
    · left
      refine ⟨_, _, hr, hpos, hne, rfl, rfl, ?_⟩
      simp only [hfree, bne_iff_ne, ne_eq, hne, not_false_eq_true, if_true]
      rfl

/-- Assigning a register that left the stack. -/
private theorem wellFormed_of_take {b c : Alloc} {r : ArmReg} {x : Byte}
    (hex : Exclusive b.held (b.freeStack ++ [x])) (h0 : 0 ≤ b.freeRegCount)
    (hle : b.freeRegCount ≤ regAllocCount) (hne : ∀ y ∈ b.freeStack, y ≠ noReg)
    (hheld : c.held = Function.update b.held r (some x)) (hstack : c.freeStack = b.freeStack)
    (hcount : c.freeRegCount = b.freeRegCount) : c.WellFormed where
  exclusive := by
    rw [hheld, hstack]
    exact hex.take
  count_nonneg := hcount ▸ h0
  count_le := hcount ▸ hle
  free_ne := hstack ▸ hne
  some_cached := ⟨r, cached_iff_held.mpr ⟨x, by rw [hheld, Function.update_self]⟩⟩

/-- A change of the allocator that leaves holders and stack alone. -/
private theorem wellFormed_congr {b : Alloc} (h : a.WellFormed) (hheld : b.held = a.held)
    (hregs : b.freeRegs = a.freeRegs) (hcount : b.freeRegCount = a.freeRegCount) :
    b.WellFormed := by
  have hstack : b.freeStack = a.freeStack := by
    unfold Alloc.freeStack
    rw [hregs, hcount]
  obtain ⟨r, hr⟩ := h.some_cached
  exact ⟨by rw [hheld, hstack]; exact h.exclusive, hcount ▸ h.count_nonneg, hcount ▸ h.count_le,
    hstack ▸ h.free_ne, r, by rw [cached_iff_held, hheld, ← cached_iff_held]; exact hr⟩

theorem Alloc.WellFormed.setDirty (h : a.WellFormed) (r : ArmReg) (d : Bool) :
    (a.setDirty r d).WellFormed :=
  wellFormed_congr h (held_setDirty d) rfl rfl

/-- What is true of the allocator once its stack lost its top. -/
private theorem exclusive_pop (h : a.WellFormed) (hpos : 0 < a.freeRegCount) :
    let b := { a with freeRegCount := a.freeRegCount - 1 }
    Exclusive b.held (b.freeStack ++ [a.freeRegs (a.freeRegCount - 1)]) ∧
      ∀ y ∈ b.freeStack, y ≠ noReg := by
  have hstack := freeStack_pop hpos
  refine ⟨?_, fun y hy ↦ h.free_ne y ?_⟩
  · rw [← hstack]
    exact h.exclusive
  · rw [hstack]
    exact List.mem_append_left _ hy

/-- `reg_alloc_get_reg` keeps assignments exclusive. -/
theorem regAllocGetReg_wellFormed (h : a.WellFormed) (r : ArmReg) (w d : Bool) :
    (regAllocGetReg a r w d).1.WellFormed := by
  rcases regAllocGetReg_cases h r w d with ⟨-, he⟩ | ⟨b, x, -, hpos, hx, rfl, rfl, he⟩ |
    ⟨i, -, hc, -, hi, he⟩
  · rw [he]
    by_cases hd : d
    · simpa [hd] using h.setDirty r true
    · simpa [hd] using h
  · rw [he]
    obtain ⟨hex, hne⟩ := exclusive_pop h hpos
    have hle := h.count_le
    exact wellFormed_of_take hex (by dsimp only; omega) (by dsimp only; omega) hne (held_place hx)
      freeStack_place freeRegCount_place
  · rw [he]
    have hx : (a.regAlloc i).x86Reg ≠ noReg := by simpa [Alloc.cached] using hi
    have hi' : a.held i = some (a.regAlloc i).x86Reg := held_eq_some_iff.mpr ⟨rfl, hx⟩
    have hnil : a.freeStack = [] := by simp [Alloc.freeStack, hc]
    have hevict : (a.evict i).freeStack = [] := by simp [Alloc.freeStack, Alloc.evict,
      Alloc.setX86Reg, hc]
    refine wellFormed_of_take ?_ (by simp [Alloc.evict, Alloc.setX86Reg, hc])
      (by simp [Alloc.evict, Alloc.setX86Reg, hc, regAllocCount]) (by simp [hevict])
      (held_place hx) freeStack_place freeRegCount_place
    -- the victim gave its register up before the request took it
    have hrel := h.exclusive.release hi'
    rw [hnil] at hrel
    rw [hevict]
    exact held_setX86Reg_noReg (a := a) ▸ hrel

/-- The last fallback of `reg_alloc_get_reg` is out of reach. -/
theorem regAllocGetReg_path_ne_fallback (h : a.WellFormed) (r : ArmReg) (w d : Bool) :
    (regAllocGetReg a r w d).2.path ≠ .fallback := by
  rcases regAllocGetReg_cases h r w d with ⟨-, he⟩ | ⟨b, x, -, -, -, -, -, he⟩ | ⟨i, -, -, -, -, he⟩
  all_goals
    rw [he]
    simp

/-- The allocator calls of `translate_mov_imm` keep assignments exclusive: the register the
destination had is lost to the pool, not shared. -/
theorem regAllocTakeFor_wellFormed (h : a.WellFormed) (rd : ArmReg) (w : Bool) :
    (regAllocTakeFor a rd w).1.WellFormed := by
  unfold regAllocTakeFor
  rcases regAllocGetFree_cases h with ⟨-, hfree⟩ | ⟨hpos, hne, hfree⟩
  · simpa [hfree] using h
  · obtain ⟨hex, hfree_ne⟩ := exclusive_pop h hpos
    have hle := h.count_le
    simp only [hfree, bne_iff_ne, ne_eq, hne, not_false_eq_true, if_true]
    apply Alloc.WellFormed.setDirty
    exact wellFormed_of_take hex (by dsimp only; omega) (by dsimp only; omega) hfree_ne
      (held_assign hne) rfl rfl

/-- Batch stores only clear dirty marks. -/
theorem regAllocEmitBatchStore_wellFormed (h : a.WellFormed) (live : List ArmReg) :
    (regAllocEmitBatchStore a live).1.WellFormed := by
  induction live generalizing a with
  | nil => exact h
  | cons r rs ih =>
    unfold regAllocEmitBatchStore
    split
    · exact ih (h.setDirty r false)
    · exact ih h

/-- The allocator a block starts with. -/
def regAllocStart : Alloc := (regAllocSetupCallingConvention regAllocInit).1

/-- Only `X29` is cached at the start of a block, in `RBP`, and the nine others are free. -/
theorem regAllocStart_eq : regAllocStart = regAllocAssign regAllocInit 29 rbp true := rfl

theorem regAllocStart_wellFormed : regAllocStart.WellFormed := by
  have hrbp : rbp ≠ noReg := by decide
  have hheld : ∀ j, regAllocInit.held j = none := fun j ↦ rfl
  have hstack : regAllocInit.freeStack = regAllocMap := by decide
  rw [regAllocStart_eq]
  constructor
  · rw [held_assign hrbp]
    change Exclusive _ regAllocInit.freeStack
    rw [hstack]
    have hnone : Exclusive regAllocInit.held regAllocMap :=
      ⟨by decide, fun hj ↦ by simp [hheld] at hj, fun hj ↦ by simp [hheld] at hj⟩
    exact hnone.claim (fun j ↦ by simp [hheld]) (by decide)
  · decide
  · decide
  · change ∀ x ∈ regAllocInit.freeStack, _
    rw [hstack]
    decide
  · exact ⟨29, rfl⟩

/-- The calls the translators make. -/
inductive AllocOp where
  | getReg (armReg : ArmReg) (is64bit markDirty : Bool)
  | takeFor (rd : ArmReg) (is64bit : Bool)
  | batchStore (live : List ArmReg)

/-- The allocator after a call. -/
def AllocOp.step (a : Alloc) : AllocOp → Alloc
  | .getReg r w d => (regAllocGetReg a r w d).1
  | .takeFor rd w => (regAllocTakeFor a rd w).1
  | .batchStore live => (regAllocEmitBatchStore a live).1

/-- The allocator after a sequence of calls. -/
def allocRun (a : Alloc) (ops : List AllocOp) : Alloc := ops.foldl AllocOp.step a

theorem AllocOp.step_wellFormed (h : a.WellFormed) (op : AllocOp) : (op.step a).WellFormed := by
  cases op with
  | getReg r w d => exact regAllocGetReg_wellFormed h r w d
  | takeFor rd w => exact regAllocTakeFor_wellFormed h rd w
  | batchStore live => exact regAllocEmitBatchStore_wellFormed h live

theorem allocRun_wellFormed (h : a.WellFormed) (ops : List AllocOp) :
    (allocRun a ops).WellFormed := by
  induction ops generalizing a with
  | nil => exact h
  | cons op ops ih => exact ih (op.step_wellFormed h)

/-- Between calls the stack only shrinks: what a spill pushes is popped at once. -/
theorem AllocOp.mem_freeStack (h : a.WellFormed) (op : AllocOp) {x : Byte}
    (hx : x ∈ (op.step a).freeStack) : x ∈ a.freeStack := by
  have hpop : 0 < a.freeRegCount →
      x ∈ ({ a with freeRegCount := a.freeRegCount - 1 } : Alloc).freeStack → x ∈ a.freeStack := by
    intro hpos hmem
    rw [freeStack_pop hpos]
    exact List.mem_append_left _ hmem
  cases op with
  | getReg r w d =>
    rw [AllocOp.step] at hx
    rcases regAllocGetReg_cases h r w d with ⟨-, he⟩ | ⟨b, y, -, hpos, -, rfl, rfl, he⟩ |
      ⟨i, -, hc, -, -, he⟩
    · rw [he] at hx
      cases d <;> exact hx
    · rw [he, freeStack_place] at hx
      exact hpop hpos hx
    · rw [he, freeStack_place] at hx
      simp [Alloc.freeStack, Alloc.evict, Alloc.setX86Reg, hc] at hx
  | takeFor rd w =>
    rw [AllocOp.step, regAllocTakeFor] at hx
    rcases regAllocGetFree_cases h with ⟨-, hfree⟩ | ⟨hpos, hne, hfree⟩
    · simpa [hfree] using hx
    · simp only [hfree, bne_iff_ne, ne_eq, hne, not_false_eq_true, if_true] at hx
      exact hpop hpos hx
  | batchStore live =>
    rw [AllocOp.step] at hx
    clear hpop h
    induction live generalizing a with
    | nil => exact hx
    | cons r rs ih =>
      unfold regAllocEmitBatchStore at hx
      split at hx
      · exact ih (a := a.setDirty r false) hx
      · exact ih hx

/-- What is free was free from the beginning on. -/
theorem allocRun_free_mem (ops : List AllocOp) {x : Byte}
    (hx : x ∈ (allocRun regAllocStart ops).freeStack) : x ∈ regAllocMap := by
  have key : ∀ ops a, a.WellFormed → (∀ x ∈ a.freeStack, x ∈ regAllocMap) →
      ∀ x ∈ (allocRun a ops).freeStack, x ∈ regAllocMap := by
    intro ops
    induction ops with
    | nil => exact fun a _ ha ↦ ha
    | cons op ops ih =>
      intro a hwf ha
      exact ih (op.step a) (op.step_wellFormed hwf) fun y hy ↦ ha y (op.mem_freeStack hwf hy)
  refine key ops _ regAllocStart_wellFormed ?_ x hx
  decide

/-- After every sequence of calls on a block's allocator: distinct guest registers are cached in
distinct host registers, the first `free_reg_count` elements of the stack, at most nine, are
distinct and none of them is assigned, and no request takes the fallback. -/
theorem regAlloc_exclusive (ops : List AllocOp) :
    let a := allocRun regAllocStart ops
    (∀ i j, i ≠ j → (a.regAlloc i).x86Reg ≠ noReg → (a.regAlloc j).x86Reg ≠ noReg →
        (a.regAlloc i).x86Reg ≠ (a.regAlloc j).x86Reg) ∧
      (a.freeStack.Nodup ∧ ∀ i, (a.regAlloc i).x86Reg ∉ a.freeStack) ∧
      (0 ≤ a.freeRegCount ∧ a.freeRegCount ≤ 9) ∧
      ∀ r w d, (regAllocGetReg a r w d).2.path ≠ .fallback := by
  intro a
  have h : a.WellFormed := allocRun_wellFormed regAllocStart_wellFormed ops
  refine ⟨?_, ⟨h.exclusive.nodup, ?_⟩, ⟨h.count_nonneg, h.count_le⟩,
    fun r w d ↦ regAllocGetReg_path_ne_fallback h r w d⟩
  · intro i j hij hi hj heq
    exact hij (h.exclusive.unique (held_eq_some_iff.mpr ⟨rfl, hi⟩)
      (held_eq_some_iff.mpr ⟨heq.symm, hi⟩))
  · intro i hmem
    by_cases hi : (a.regAlloc i).x86Reg = noReg
    · exact h.free_ne _ hmem hi
    · exact h.exclusive.disjoint (held_eq_some_iff.mpr ⟨rfl, hi⟩) hmem

end Arm2x86.Translate
