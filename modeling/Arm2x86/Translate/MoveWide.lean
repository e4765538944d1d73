import Arm2x86.Translate.Constants
import Arm2x86.Translate.Exclusive
import Arm2x86.Translate.Block

/-!
# Wide immediates

`translate_mov_imm` (`modules/arm2x86_translate64.c:1130`) against the value that `MOVZ`, `MOVN` and
`MOVK` give to the destination, in its slot and in the host register that is assigned to it. A free
register is stored by a code that has no high registers, and the masks of `MOVK` for the high half act
on the low half.
-/

namespace Arm2x86.A64

inductive MoveWide where
  | movn
  | movz
  | movk
deriving DecidableEq, Repr

/-- The field that tells them apart. -/
def MoveWide.opc : MoveWide → BitVec 2
  | movn => 0
  | movz => 2
  | movk => 3

/-- The value of the destination, with the half-word at `16 * hw` from the immediate. -/
def MoveWide.value (k : MoveWide) (w : Bool) (hw : Nat) (imm16 : BitVec 64) (old : BitVec 64) :
    BitVec 64 :=
  let imm := imm16 <<< (16 * hw)
  let v := match k with
    | movn => ~~~ imm
    | movz => imm
    | movk => old &&& ~~~ ((0xffff : BitVec 64) <<< (16 * hw)) ||| imm
  if w then v else (v.setWidth 32).setWidth 64

end Arm2x86.A64

namespace Arm2x86.Translate

open X86

section Values

/-- The instruction of a word. -/
def moveWide (op : BitVec 32) : Option A64.MoveWide :=
  let opc : BitVec 2 := op.extractLsb' 29 2
  if opc == 0 then some .movn else if opc == 2 then some .movz else if opc == 3 then some .movk else none

/-- The half-word of a word. -/
def hwAt (op : BitVec 32) : Nat := (op.extractLsb' 21 2).toNat

/-- The value of the destination. -/
def moveWanted (k : A64.MoveWide) (op : BitVec 32) (old : BitVec 64) : BitVec 64 :=
  k.value (is64 op) (hwAt op) (fieldAt op 5 16) old

/-- The host register assigned to a guest register has the value of its slot. -/
def Agrees (a : Alloc) (r : ArmReg) (slots : ArmReg → BitVec 64) (regs : Gpr → BitVec 64) : Prop :=
  ∀ x, a.held r = some x → regs (toGpr x) = slots r

/-- The slot of the destination, and the register assigned to it, get the value. `XZR` has none, and
its slot is that of the stack pointer. -/
def PutsValue (a a' : Alloc) (k : A64.MoveWide) (op : BitVec 32) (sem : Semantics) (code : List Code) :
    Prop :=
  LeavesRegs sem code (fun slots regs ↦ armReg op 0 ≠ 31 → Agrees a (armReg op 0) slots regs)
    fun slots slots' regs' ↦
      if armReg op 0 = 31 then slots' 31 = slots 31
      else slots' (armReg op 0) = moveWanted k op (slots (armReg op 0)) ∧
        Agrees a' (armReg op 0) slots' regs'

/-- The words, and the states of the allocator, with which the value gets to both places. -/
def MoveMatches (a : Alloc) (k : A64.MoveWide) (op : BitVec 32) : Prop :=
  armReg op 0 ≠ 31 ∧
    if k = .movk then
      is64 op = true ∧ hwAt op = 0 ∧ ∀ x, a.held (armReg op 0) = some x → toGpr x = 0
    else if a.freeRegCount = 0 then
      a.held (armReg op 0) = none ∧
        if k = .movn then is64 op = true ∧ hwAt op = 0
        else fieldAt op 5 16 <<< (16 * hwAt op) < 0x80000000 ∨
          is64 op = true ∧ 0x100000000 ≤ fieldAt op 5 16 <<< (16 * hwAt op)
    else
      is64 op = true ∧ a.freeRegs (a.freeRegCount - 1) < 8 ∧ (k = .movn → hwAt op = 0)

end Values

section Codes

variable {a : Alloc} {k : A64.MoveWide} {op : BitVec 32}

theorem opc_eq (h : moveWide op = some k) : op.extractLsb' 29 2 = k.opc := by
  have key : ∀ k (opc : BitVec 2), (if opc == 0 then some A64.MoveWide.movn else if opc == 2 then
      some .movz else if opc == 3 then some .movk else none) = some k → opc = k.opc := by
    intro k
    cases k <;> decide
  exact key k _ h

theorem translateMovImm_movk (h : moveWide op = some .movk) :
    translateMovImm a op = (a, translateMovk op (16 * hwAt op)) := by
  have hopc := opc_eq h
  rw [translateMovImm, hopc, Nat.mul_comm]
  rfl

theorem movImmValue_movz (h : moveWide op = some .movz) (shift : Nat) :
    movImmValue op shift = fieldAt op 5 16 <<< shift := by
  rw [movImmValue, opc_eq h]
  rfl

theorem movImmValue_movn (h : moveWide op = some .movn) (shift : Nat) :
    movImmValue op shift = if is64 op then ~~~ fieldAt op 5 16 <<< shift
      else (~~~ fieldAt op 5 16 <<< shift) ||| 0xffffffff00000000 := by
  rw [movImmValue, opc_eq h]
  rfl

/-- The other two take a register first. -/
private theorem translateMovImm_take (h : moveWide op = some k) (hk : k ≠ .movk) :
    translateMovImm a op =
      let taken := regAllocTakeFor a (armReg op 0) (is64 op)
      (taken.1, if taken.2 != noReg then
        [(if 8 ≤ taken.2 then 0x48 ||| 0x01 else 0x48) :: (0xb8 + (taken.2 &&& 7)) ::
            imm64 (movImmValue op (16 * hwAt op)), emitStoreArmReg taken.2 (armReg op 0) (is64 op)]
      else movSlot [rexRm 0 0, 0x48] (armReg op 0) (movImmValue op (16 * hwAt op))) := by
  have hopc := opc_eq h
  have hne : (op.extractLsb' 29 2 == (3 : BitVec 2)) = false := by
    rw [hopc]
    cases k with
    | movn => rfl
    | movz => rfl
    | movk => exact absurd rfl hk
  rw [translateMovImm, hne, hwAt, Nat.mul_comm]
  rfl

/-- Where nothing is free. -/
theorem translateMovImm_none (h : moveWide op = some k) (hk : k ≠ .movk) (hwf : a.WellFormed)
    (hc : a.freeRegCount = 0) : translateMovImm a op =
      (a, movSlot [rexRm 0 0, 0x48] (armReg op 0) (movImmValue op (16 * hwAt op))) := by
  have hfree : regAllocGetFree a = (a, noReg) := by
    rcases regAllocGetFree_cases hwf with ⟨-, hfree⟩ | ⟨hpos, -⟩
    · exact hfree
    · omega
  have htake : regAllocTakeFor a (armReg op 0) (is64 op) = (a, noReg) := by
    rw [regAllocTakeFor, hfree]
    rfl
  rw [translateMovImm_take h hk, htake]
  rfl

/-- Where a register is free. -/
theorem translateMovImm_free (h : moveWide op = some k) (hk : k ≠ .movk) (hwf : a.WellFormed)
    (hc : a.freeRegCount ≠ 0) (hmem : a.freeRegs (a.freeRegCount - 1) ∈ regAllocMap) :
    ∃ a', translateMovImm a op = (a', [movR64Imm (a.freeRegs (a.freeRegCount - 1))
        (movImmValue op (16 * hwAt op)),
          emitStoreArmReg (a.freeRegs (a.freeRegCount - 1)) (armReg op 0) (is64 op)]) ∧
      a'.held (armReg op 0) = some (a.freeRegs (a.freeRegCount - 1)) := by
  obtain ⟨hne, hfree⟩ : a.freeRegs (a.freeRegCount - 1) ≠ noReg ∧ regAllocGetFree a =
      ({ a with freeRegCount := a.freeRegCount - 1 }, a.freeRegs (a.freeRegCount - 1)) := by
    rcases regAllocGetFree_cases hwf with ⟨hc', -⟩ | ⟨-, hne, hfree⟩
    · exact absurd hc' hc
    · exact ⟨hne, hfree⟩
  generalize a.freeRegs (a.freeRegCount - 1) = x at hmem hne hfree ⊢
  generalize { a with freeRegCount := a.freeRegCount - 1 } = b at hfree
  have htake : regAllocTakeFor a (armReg op 0) (is64 op) =
      ((regAllocAssign b (armReg op 0) x (is64 op)).setDirty (armReg op 0) true, x) := by
    rw [regAllocTakeFor, hfree]
    exact if_pos (bne_iff_ne.mpr hne)
  have hcode : ∀ x ∈ regAllocMap, ∀ c, ((if 8 ≤ x then 0x48 ||| 0x01 else 0x48) ::
      (0xb8 + (x &&& 7)) :: imm64 c : List Byte) = movR64Imm x c := by
    have key : ∀ x ∈ regAllocMap, (if 8 ≤ x then 0x48 ||| 0x01 else 0x48 : Byte) = rex true 0 0 (x >>> 3) ∧
        0xb8 + (x &&& 7) = 0xb8 ||| (x &&& 7) := by
      decide
    intro x hx c
    rw [movR64Imm, (key x hx).1, (key x hx).2]
  refine ⟨(regAllocAssign b (armReg op 0) x (is64 op)).setDirty (armReg op 0) true, ?_, ?_⟩
  · rw [translateMovImm_take h hk, htake]
    dsimp only
    rw [if_pos (bne_iff_ne.mpr hne), hcode x hmem]
  · rw [Alloc.held_setDirty, Alloc.held_assign hne, Function.update_self]

end Codes

section Runs

variable (undef : Instr → Machine → Status) (rest : Instr → Machine → Option Machine)

section Codes

variable {a a' : Alloc} {k : A64.MoveWide} {op : BitVec 32}

private theorem exists_other (v : BitVec 64) : ∃ c, c ≠ v := by
  by_cases h : v = 0
  · exact ⟨1, fun he ↦ absurd (he.trans h) (by decide)⟩
  · exact ⟨0, Ne.symm h⟩

private theorem exists_merge_ne (w : Bool) (v : BitVec 64) : ∃ c, merge w c v ≠ c := by
  have hne : cut w 0 ≠ cut w 1 := by cases w <;> decide
  by_contra hall
  simp only [not_exists, not_not, merge_eq_self_iff] at hall
  exact hne ((hall 0).symm.trans (hall 1))

private theorem agrees_const (a : Alloc) (r : ArmReg) (c : BitVec 64) :
    Agrees a r (fun _ ↦ c) fun _ ↦ c := fun _ _ ↦ rfl

/-- A constant leaves its value in the slot, and no register with it. -/
theorem putsValue_none_iff (hrd : armReg op 0 ≠ 31) (c : BitVec 64) {want : BitVec 64}
    (hwant : ∀ old, moveWanted k op old = want) :
    PutsValue a a k op (Semantics.core undef rest) (movSlot [rexRm 0 0, 0x48] (armReg op 0) c) ↔
      a.held (armReg op 0) = none ∧ withConstant (fun _ ↦ 0) (armReg op 0) c (armReg op 0) = want := by
  rw [PutsValue, leavesRegs_iff (computes_movSlot undef rest fun h ↦ absurd h hrd)
    (fun slots _ ↦ withConstant slots (armReg op 0) c) (fun _ regs ↦ regs) (fun _ ↦ rfl) fun _ ↦ rfl]
  simp only [if_neg hrd, hwant]
  constructor
  · intro h
    have hslot := fun c ↦ (h _ _ (fun _ ↦ agrees_const a _ c)).1
    apply And.intro _ (hslot 0)
    by_contra hheld
    obtain ⟨x, hx⟩ := Option.ne_none_iff_exists'.mp hheld
    obtain ⟨v, hv⟩ := exists_other want
    have hreg := (h _ _ (fun _ ↦ agrees_const a _ v)).2 x hx
    rw [hslot v] at hreg
    exact hv hreg
  · rintro ⟨hheld, hslot⟩ slots regs -
    constructor
    · rw [withConstant_eq _ _ slots fun _ ↦ 0, hslot]
    · intro x hx
      rw [hheld] at hx
      cases hx

/-- The code with a free register. -/
private theorem computes_free {x : Byte} (hx : x ∈ regAllocMap) (c : BitVec 64) {w : Bool}
    (hlow : (w && decide (8 ≤ x)) = false) (r : ArmReg) :
    Computes (Semantics.core undef rest) [movR64Imm x c, emitStoreArmReg x r w].flatten
      fun v ↦ (v.setReg (toGpr x) c).store r w
        (cut w ((v.setReg (toGpr x) c).regs (gpr false (x.setWidth 3)))) := by
  have hmem : ∀ x ∈ regAllocMap, x < 16 ∧ toGpr x ≠ 5 := by decide
  have hmov : Computes (Semantics.core undef rest) (movR64Imm x c) fun v ↦ v.setReg (toGpr x) c := by
    apply computes_instr (decode_movR64Imm (hmem x hx).1 c)
    intro m v hv
    exact ⟨_, rfl, rfl, hv.setReg (hmem x hx).2 c⟩
  exact hmov.append ((computes_store_named undef rest r hlow).append computes_nil)

private theorem step_store_aliased {code : List Byte} {m : Machine} {r : ArmReg} {x : Byte}
    {old : BitVec 64} (h8 : 8 ≤ x) (hbase : m.regs 13 = m.regs 5)
    (hcode : At code m.pos (emitStoreArmReg x r true)) (hslot : slotAt (m.regs 5) r m = some old) :
    (Semantics.core undef rest).step code m = some
      { m with
        pos := m.pos + (emitStoreArmReg x r true).length
        mem := storedMem m (m.regs 5) r true (m.regs (gpr false (x.setWidth 3))) } := by
  have hloc : ∀ m : Machine, m.regs 13 = m.regs 5 →
      movAt true (storeLoc x r true) (.reg (gpr false (x.setWidth 3))) m =
        movAt true (.mem (some 5) none (BitVec.ofNat 64 (8 * r))) (.reg (gpr false (x.setWidth 3))) m := by
    intro m hbase
    have haddr : m.address (storeLoc x r true) =
        m.address (.mem (some 5) none (BitVec.ofNat 64 (8 * r))) := by
      rw [storeLoc, Bool.true_and, decide_eq_true h8]
      exact congrArg (fun b ↦ some (b + 0 + BitVec.ofNat 64 (8 * r))) hbase
    exact congrArg (Option.bind · fun a ↦
      m.store a (Machine.bytes (m.regs (gpr false (x.setWidth 3))) 8)) haddr
  rw [step_store hcode]
  exact (hloc { m with pos := m.pos + (emitStoreArmReg x r true).length } hbase).trans
    (movAt_store true _ fun i hi ↦ isSome_of_slotAt hslot hi)

/-- A high register is stored through `R13`, and what is stored is a low one. -/
private theorem reaches_high {x : Byte} (hx : x ∈ regAllocMap) (h8 : 8 ≤ x) (c v : BitVec 64)
    (slots : ArmReg → BitVec 64) (r : ArmReg) :
    Reaches (Semantics.core undef rest) [movR64Imm x c, emitStoreArmReg x r true].flatten
      (homeMachine v slots (fun _ ↦ v) (.ofBits 0)) fun m' ↦
        m'.pos = [movR64Imm x c, emitStoreArmReg x r true].flatten.length ∧
          Slots m' (Function.update slots r v) := by
  have hmem : ∀ x ∈ regAllocMap, 8 ≤ x →
      x < 16 ∧ toGpr x ≠ 5 ∧ toGpr x ≠ 13 ∧ toGpr x ≠ gpr false (x.setWidth 3) := by
    decide
  obtain ⟨h16, h5, h13, hne⟩ := hmem x hx h8
  have hv := exists_values slots fun _ ↦ v
  have hmov : Computes (Semantics.core undef rest) (movR64Imm x c) fun v ↦ v.setReg (toGpr x) c := by
    apply computes_instr (decode_movR64Imm h16 c)
    intro m v hv
    exact ⟨_, rfl, rfl, hv.setReg h5 c⟩
  have hat : At [movR64Imm x c, emitStoreArmReg x r true].flatten 0
      (movR64Imm x c ++ (emitStoreArmReg x r true ++ [])) := at_self _
  obtain ⟨m₁, hrun, hpos, hv₁⟩ := hmov _ _ _ hv hat.left
  have hat₁ : At [movR64Imm x c, emitStoreArmReg x r true].flatten m₁.pos (emitStoreArmReg x r true) := by
    rw [hpos]
    exact hat.right.left
  have hreg : ∀ g, m₁.regs g = if g = toGpr x then c else v := fun g ↦ congrFun hv₁.regs g
  have hbase : m₁.regs 13 = m₁.regs 5 := by
    rw [hreg, hreg, if_neg h13.symm, if_neg h5.symm]
  have hnamed : m₁.regs (gpr false (x.setWidth 3)) = v := by
    rw [hreg, if_neg hne.symm]
  apply reaches_of_runs hrun
  have hstep := step_store_aliased undef rest h8 hbase hat₁ (hv₁.slots r)
  apply reaches_of_step hstep
  apply reaches_here
  constructor
  · have hstart : (homeMachine v slots (fun _ ↦ v) (.ofBits 0)).pos = 0 := rfl
    simp only [hpos, hstart, List.flatten_cons, List.flatten_nil, List.append_nil, List.length_append,
      Nat.zero_add]
  · have hstored := hv₁.slots.store r true v (m₁.pos + (emitStoreArmReg x r true).length)
    rw [hnamed]
    exact hstored

/-- A constant through a free register. -/
theorem putsValue_free_iff {x : Byte} (hx : x ∈ regAllocMap) (hheld : a'.held (armReg op 0) = some x)
    (hrd : armReg op 0 ≠ 31) (c : BitVec 64) {want : BitVec 64} (hwant : ∀ old, moveWanted k op old = want)
    (hcut : is64 op = false → want = cut false want) :
    PutsValue a a' k op (Semantics.core undef rest)
        [movR64Imm x c, emitStoreArmReg x (armReg op 0) (is64 op)] ↔
      is64 op = true ∧ x < 8 ∧ c = want := by
  by_cases hlow : (is64 op && decide (8 ≤ x)) = false
  · rw [PutsValue, leavesRegs_iff (computes_free undef rest hx c hlow (armReg op 0))
      (fun slots regs ↦ Function.update slots (armReg op 0) (merge (is64 op) (slots (armReg op 0))
        (cut (is64 op) (if gpr false (x.setWidth 3) = toGpr x then c else
          regs (gpr false (x.setWidth 3))))))
      (fun _ regs g ↦ if g = toGpr x then c else regs g) (fun _ ↦ rfl) fun _ ↦ rfl]
    simp only [if_neg hrd, hwant, Function.update_self]
    cases hw : is64 op with
    | false =>
      apply iff_of_false
      · intro h
        have hones := (h _ _ (fun _ ↦ agrees_const a _ (BitVec.allOnes 64))).1
        rw [merge_cut, hcut hw] at hones
        exact merge_allOnes_ne _ _ hones
      · exact fun h ↦ Bool.noConfusion h.1
    | true =>
      rw [hw, Bool.true_and, decide_eq_false_iff_not, BitVec.not_le] at hlow
      have hgpr := gpr_low hlow
      have hmerge : ∀ a b : BitVec 64, merge true a b = b := fun _ _ ↦ rfl
      have hcut : ∀ b : BitVec 64, cut true b = b := fun _ ↦ rfl
      simp only [hgpr, if_pos, hmerge, hcut]
      constructor
      · intro h
        exact ⟨trivial, hlow, (h _ _ (fun _ ↦ agrees_const a _ 0)).1⟩
      · rintro ⟨-, -, hc⟩ slots regs -
        apply And.intro hc
        intro y hy
        rw [hheld] at hy
        obtain rfl := Option.some.inj hy
        rw [Function.update_self]
        exact if_pos rfl
  · rw [Bool.not_eq_false, Bool.and_eq_true, decide_eq_true_eq] at hlow
    apply iff_of_false
    · intro h
      obtain ⟨v, hv⟩ := exists_other want
      have hstart := exists_values (fun _ ↦ v) fun _ ↦ v
      obtain ⟨m₁, hrun₁, hpos₁, slots₁, hslots₁, hpost⟩ := h _ _ rfl hstart.slots (by
        rw [hstart.regs]
        exact fun _ ↦ agrees_const a _ v)
      rw [hlow.1] at hrun₁ hpos₁
      obtain ⟨m₂, hrun₂, hpos₂, hslots₂⟩ := reaches_high undef rest hx hlow.2 c v (fun _ ↦ v) (armReg op 0)
      rw [Semantics.runs_end_unique hrun₂ hpos₂ hrun₁ hpos₁] at hslots₁
      rw [if_neg hrd, hwant, hslots₁.unique hslots₂, Function.update_self] at hpost
      exact hv hpost.1
    · exact fun h ↦ BitVec.not_le.mpr h.2.1 hlow.2

/-- The stack pointer is overwritten, or what is behind its slot. -/
theorem not_putsValue_none (hrd : armReg op 0 = 31) (c : BitVec 64) :
    ¬ PutsValue a a' k op (Semantics.core undef rest) (movSlot [rexRm 0 0, 0x48] (armReg op 0) c) := by
  by_cases hhi : hi32 c = 0
  · rw [PutsValue, leavesRegs_iff (computes_movSlot undef rest fun _ ↦ hhi)
      (fun slots _ ↦ withConstant slots (armReg op 0) c) (fun _ regs ↦ regs) (fun _ ↦ rfl) fun _ ↦ rfl]
    simp only [hrd, if_true]
    intro h
    obtain ⟨v, hv⟩ := exists_other (withConstant (fun _ ↦ 0) 31 c 31)
    have hslot := h (fun _ ↦ v) (fun _ ↦ v) (fun _ ↦ agrees_const a _ v)
    rw [withConstant_eq _ _ _ fun _ ↦ 0] at hslot
    exact hv hslot.symm
  · rw [PutsValue]
    simp only [hrd]
    exact not_leavesRegs_movSlot undef rest hhi (fun _ ↦ 0) (fun _ ↦ 0) fun hne ↦ absurd rfl hne

theorem not_putsValue_free {x : Byte} (hx : x ∈ regAllocMap) (hrd : armReg op 0 = 31) (c : BitVec 64) :
    ¬ PutsValue a a' k op (Semantics.core undef rest)
        [movR64Imm x c, emitStoreArmReg x (armReg op 0) (is64 op)] := by
  by_cases hlow : (is64 op && decide (8 ≤ x)) = false
  · rw [PutsValue, leavesRegs_iff (computes_free undef rest hx c hlow (armReg op 0))
      (fun slots regs ↦ Function.update slots (armReg op 0) (merge (is64 op) (slots (armReg op 0))
        (cut (is64 op) (if gpr false (x.setWidth 3) = toGpr x then c else
          regs (gpr false (x.setWidth 3))))))
      (fun _ regs g ↦ if g = toGpr x then c else regs g) (fun _ ↦ rfl) fun _ ↦ rfl]
    simp only [hrd, if_true, Function.update_self]
    intro h
    obtain ⟨v, hv⟩ := exists_merge_ne (is64 op)
      (cut (is64 op) (if gpr false (x.setWidth 3) = toGpr x then c else 0))
    exact hv (h (fun _ ↦ v) (fun _ ↦ 0) fun hne ↦ absurd rfl hne)
  · rw [Bool.not_eq_false, Bool.and_eq_true, decide_eq_true_eq] at hlow
    intro h
    have hstart := exists_values (fun _ ↦ 1) fun _ ↦ 0
    obtain ⟨m₁, hrun₁, hpos₁, slots₁, hslots₁, hpost⟩ :=
      h _ _ rfl hstart.slots fun hne ↦ absurd hrd hne
    rw [hlow.1] at hrun₁ hpos₁
    obtain ⟨m₂, hrun₂, hpos₂, hslots₂⟩ :=
      reaches_high undef rest hx hlow.2 c 0 (fun _ ↦ 1) (armReg op 0)
    rw [Semantics.runs_end_unique hrun₂ hpos₂ hrun₁ hpos₁] at hslots₁
    rw [if_pos hrd, hslots₁.unique hslots₂, hrd, Function.update_self] at hpost
    exact absurd hpost (by decide)

/-- The masks of `MOVK`, one after the other on the whole register. -/
def movkMask (shift : Nat) : BitVec 64 :=
  let mask : BitVec 64 := ~~~ (0xffff <<< shift)
  (lo32 mask).signExtend 64 &&& if hi32 mask != 0 then (hi32 mask).signExtend 64 else BitVec.allOnes 64

/-- The bits of `MOVK`. -/
def movkBits (imm : BitVec 64) : BitVec 64 :=
  (lo32 imm).signExtend 64 ||| if hi32 imm != 0 then (hi32 imm).signExtend 64 else 0

private theorem decode_groupRax {ext : Byte} (h : ext = 1 ∨ ext = 4) (imm : BitVec 32)
    (tail : List Byte) : X86.decode (groupRax ext imm ++ tail) =
      some (.aluImm (aluOp (ext.setWidth 3)) .b64 (.reg 0) (imm.signExtend 64), tail) := by
  have htake : takeImm .b64 (imm32 imm ++ tail) = some (imm.signExtend 64, tail) :=
    take32_imm32 imm tail
  have hprefixes : takePrefixes .none
      (rexRm 0 0 :: 0x48 :: 0x81 :: modrm 3 ext 0 :: (imm32 imm ++ tail)) =
        ({ Prefixes.none with rex := some 0x48 }, 0x81 :: modrm 3 ext 0 :: (imm32 imm ++ tail)) := rfl
  have hcode : groupRax ext imm ++ tail =
      rexRm 0 0 :: 0x48 :: 0x81 :: modrm 3 ext 0 :: (imm32 imm ++ tail) := rfl
  rw [hcode]
  apply decode_prefixes hprefixes
  rcases h with rfl | rfl
  · simp [decodeOpcode, takeRm, htake, takeExt, Prefixes.size, Prefixes.w, Prefixes.b, gpr]
  · simp [decodeOpcode, takeRm, htake, takeExt, Prefixes.size, Prefixes.w, Prefixes.b, gpr]

theorem computes_andRax (imm : BitVec 32) : Computes (Semantics.core undef rest) (groupRax 4 imm)
    fun v ↦ v.setReg 0 (v.regs 0 &&& imm.signExtend 64) := by
  apply computes_instr (decode_groupRax (Or.inr rfl) imm)
  intro m v hv
  have hexec : (Semantics.core undef rest).exec (.aluImm .and .b64 (.reg 0) (imm.signExtend 64)) m =
      some ((m.setReg 0 (((m.regs 0).setWidth 64 &&& (imm.signExtend 64).setWidth 64).setWidth 64)).setStatus
        (.ofLogic ((m.regs 0).setWidth 64 &&& (imm.signExtend 64).setWidth 64)
          (undef (.aluImm .and .b64 (.reg 0) (imm.signExtend 64)) m))) := rfl
  rw [BitVec.setWidth_eq, BitVec.setWidth_eq, BitVec.setWidth_eq, hv.regs] at hexec
  exact ⟨_, hexec, rfl, (hv.setReg (by decide) _).setStatus _⟩

theorem computes_orRax (imm : BitVec 32) : Computes (Semantics.core undef rest) (groupRax 1 imm)
    fun v ↦ v.setReg 0 (v.regs 0 ||| imm.signExtend 64) := by
  apply computes_instr (decode_groupRax (Or.inl rfl) imm)
  intro m v hv
  have hexec : (Semantics.core undef rest).exec (.aluImm .or .b64 (.reg 0) (imm.signExtend 64)) m =
      some ((m.setReg 0 (((m.regs 0).setWidth 64 ||| (imm.signExtend 64).setWidth 64).setWidth 64)).setStatus
        (.ofLogic ((m.regs 0).setWidth 64 ||| (imm.signExtend 64).setWidth 64)
          (undef (.aluImm .or .b64 (.reg 0) (imm.signExtend 64)) m))) := rfl
  rw [BitVec.setWidth_eq, BitVec.setWidth_eq, BitVec.setWidth_eq, hv.regs] at hexec
  exact ⟨_, hexec, rfl, (hv.setReg (by decide) _).setStatus _⟩

/-- The instruction for the high half, if there is one. -/
private theorem computes_andHigh (hi : BitVec 32) : Computes (Semantics.core undef rest)
    (if hi != 0 then [groupRax 4 hi] else []).flatten
    fun v ↦ v.setReg 0 (v.regs 0 &&& if hi != 0 then hi.signExtend 64 else BitVec.allOnes 64) := by
  by_cases h : (hi != 0) = true
  · simp only [if_pos h]
    exact (computes_andRax undef rest hi).append computes_nil
  · have hsame : ∀ v : Values, v.setReg 0 (v.regs 0 &&& BitVec.allOnes 64) = v := by
      intro v
      rw [BitVec.and_allOnes]
      exact v.setReg_self 0
    simp only [if_neg h, hsame]
    exact computes_nil

private theorem computes_orHigh (hi : BitVec 32) : Computes (Semantics.core undef rest)
    (if hi != 0 then [groupRax 1 hi] else []).flatten
    fun v ↦ v.setReg 0 (v.regs 0 ||| if hi != 0 then hi.signExtend 64 else 0) := by
  by_cases h : (hi != 0) = true
  · simp only [if_pos h]
    exact (computes_orRax undef rest hi).append computes_nil
  · have hsame : ∀ v : Values, v.setReg 0 (v.regs 0 ||| 0) = v := by
      intro v
      rw [show v.regs 0 ||| 0 = v.regs 0 from BitVec.or_zero]
      exact v.setReg_self 0
    simp only [if_neg h, hsame]
    exact computes_nil

/-- What `MOVK` makes of the register. -/
def movkValue (op : BitVec 32) (x : BitVec 64) : BitVec 64 :=
  x &&& movkMask (16 * hwAt op) ||| movkBits (fieldAt op 5 16 <<< (16 * hwAt op))

theorem computes_movk (op : BitVec 32) :
    ∃ f, Computes (Semantics.core undef rest) (translateMovk op (16 * hwAt op)).flatten f ∧
      (∀ v, (f v).slots = Function.update v.slots (armReg op 0) (merge (is64 op) (v.slots (armReg op 0))
        (movkValue op (cut (is64 op) (v.slots (armReg op 0)))))) ∧
      ∀ v, (f v).regs = fun g ↦
        if g = 0 then movkValue op (cut (is64 op) (v.slots (armReg op 0))) else v.regs g := by
  let mask : BitVec 64 := ~~~ (0xffff <<< (16 * hwAt op))
  let imm : BitVec 64 := fieldAt op 5 16 <<< (16 * hwAt op)
  have hbody : Computes (Semantics.core undef rest)
      ([groupRax 4 (lo32 mask)] ++ (if hi32 mask != 0 then [groupRax 4 (hi32 mask)] else []) ++
        [groupRax 1 (lo32 imm)] ++ (if hi32 imm != 0 then [groupRax 1 (hi32 imm)] else [])).flatten
      fun v ↦ v.setReg 0 (v.regs 0 &&& movkMask (16 * hwAt op) ||| movkBits imm) := by
    have hall := (((computes_andRax undef rest (lo32 mask)).append
      (computes_andHigh undef rest (hi32 mask))).append (computes_orRax undef rest (lo32 imm))).append
        (computes_orHigh undef rest (hi32 imm))
    simp only [List.flatten_append, List.flatten_singleton]
    apply hall.congr
    intro v
    simp only [Function.comp, Values.setReg_setReg, Values.regs_setReg_self]
    rw [BitVec.and_assoc, BitVec.or_assoc]
    rfl
  refine ⟨_, hbody.viaRax undef rest (armReg op 0) (armReg op 0) (is64 op), fun v ↦ ?_, fun v ↦ ?_⟩
  · show Function.update v.slots (armReg op 0) (merge (is64 op) (v.slots (armReg op 0)) (cut (is64 op) _)) = _
    rw [merge_cut]
    rfl
  · funext g
    show (if g = 0 then _ else if g = 0 then _ else v.regs g) = _
    split <;> rfl

end Codes

section Movk

variable {a : Alloc} {op : BitVec 32}

theorem hwAt_lt (op : BitVec 32) : hwAt op < 4 := (op.extractLsb' 21 2).isLt

private theorem getLsbD_cut {b : Nat} (hb : b < 32) (w : Bool) (x : BitVec 64) :
    (cut w x).getLsbD b = x.getLsbD b := by
  cases w with
  | true => rfl
  | false =>
    have h64 : b < 64 := by omega
    simp [cut, hb, h64]

/-- A bit that the masks clear is one of the immediate. -/
private theorem getLsbD_movkValue {b : Nat} (h : (movkMask (16 * hwAt op)).getLsbD b = false)
    (x y : BitVec 64) : (movkValue op x).getLsbD b = (movkValue op y).getLsbD b := by
  rw [movkValue, movkValue, BitVec.getLsbD_or, BitVec.getLsbD_and, h, Bool.and_false, BitVec.getLsbD_or,
    BitVec.getLsbD_and, h, Bool.and_false]

/-- Some low bit is always cleared. -/
private theorem movk_changes (op : BitVec 32) (w : Bool) :
    ¬ ∀ x, cut w (movkValue op (cut w x)) = cut w x := by
  have hclear : ∀ h : Fin 4, (movkMask (16 * h)).getLsbD (if h.val % 2 = 0 then 0 else 16) = false := by
    decide
  have hlt : (if hwAt op % 2 = 0 then 0 else 16) < 32 := by split <;> decide
  have hlow := hclear ⟨hwAt op, hwAt_lt op⟩
  dsimp only at hlow
  generalize (if hwAt op % 2 = 0 then 0 else 16) = b at hlow hlt
  intro h
  have hbit : ∀ x : BitVec 64, (movkValue op (cut w x)).getLsbD b = x.getLsbD b := by
    intro x
    have hx := congrArg (BitVec.getLsbD · b) (h x)
    simp only [getLsbD_cut hlt] at hx
    exact hx
  have hzero := hbit 0
  have hones := hbit (BitVec.allOnes 64)
  rw [getLsbD_movkValue hlow _ (cut w 0), hzero, BitVec.getLsbD_allOnes] at hones
  have h64 : b < 64 := by omega
  simp [h64] at hones

/-- Only the masks of the first half-word clear what they are to clear. -/
private theorem movk_right_iff (hw : is64 op = true) :
    (∀ x, movkValue op x = moveWanted .movk op x) ↔ hwAt op = 0 := by
  have hwant : ∀ x, moveWanted .movk op x = x &&& ~~~ ((0xffff : BitVec 64) <<< (16 * hwAt op)) |||
      fieldAt op 5 16 <<< (16 * hwAt op) := by
    intro x
    rw [moveWanted, hw]
    rfl
  constructor
  · intro h
    by_contra hne
    -- a bit that is to be kept and is cleared: the top one, or the first of another half-word
    have hkept : ∀ h : Fin 4, h.val ≠ 0 → ∃ b : Fin 64, (b.val < 16 * h.val ∨ 16 * h.val + 16 ≤ b.val) ∧
        (movkMask (16 * h)).getLsbD b = false ∧
          (~~~ ((0xffff : BitVec 64) <<< (16 * h.val))).getLsbD b = true := by
      intro h hne
      exists if h.val = 1 then 63 else if h.val = 2 then 0 else 16
      revert h
      decide
    obtain ⟨b, hout, hclear, hkeep⟩ := hkept ⟨hwAt op, hwAt_lt op⟩ hne
    dsimp only at hout hclear hkeep
    have hlt := b.isLt
    have himm : (fieldAt op 5 16 <<< (16 * hwAt op)).getLsbD b = false := by
      rw [BitVec.getLsbD_shiftLeft, fieldAt]
      rcases hout with hout | hout
      · simp [hout]
      · have h16 : ¬ b.val - 16 * hwAt op < 16 := by omega
        simp [h16]
    have hbit := getLsbD_movkValue hclear 0 (BitVec.allOnes 64)
    rw [h, h, hwant, hwant, BitVec.getLsbD_or, BitVec.getLsbD_or, BitVec.getLsbD_and, BitVec.getLsbD_and,
      hkeep, himm, BitVec.getLsbD_allOnes] at hbit
    simp [hlt] at hbit
  · intro h0 x
    have hmask : movkMask 0 = ~~~ ((0xffff : BitVec 64) <<< 0) := by decide
    have hsmall : fieldAt op 5 16 < 0x80000000 := by
      have hhalf : (0x80000000 : BitVec 64).toNat = 2 ^ 31 := rfl
      have hlt := (op.extractLsb' 5 16).isLt
      rw [fieldAt, BitVec.lt_def, BitVec.toNat_setWidth, hhalf]
      omega
    have hhi : hi32 (fieldAt op 5 16) = 0 :=
      (hi32_eq_zero_iff _).mpr (BitVec.lt_trans hsmall (by decide))
    have hbits : movkBits (fieldAt op 5 16) = fieldAt op 5 16 := by
      rw [movkBits, hhi, (signExtend_lo32_iff hhi).mpr hsmall]
      exact BitVec.or_zero
    rw [hwant, movkValue, h0, Nat.mul_zero, hmask, BitVec.shiftLeft_zero (fieldAt op 5 16), hbits]

theorem putsValue_movk_iff :
    PutsValue a a .movk op (Semantics.core undef rest) (translateMovk op (16 * hwAt op)) ↔
      armReg op 0 ≠ 31 ∧ is64 op = true ∧ hwAt op = 0 ∧
        ∀ x, a.held (armReg op 0) = some x → toGpr x = 0 := by
  obtain ⟨f, hf, hslots, hregs⟩ := computes_movk undef rest op
  rw [PutsValue, leavesRegs_iff hf
    (fun slots _ ↦ Function.update slots (armReg op 0) (merge (is64 op) (slots (armReg op 0))
      (movkValue op (cut (is64 op) (slots (armReg op 0))))))
    (fun slots regs g ↦ if g = 0 then movkValue op (cut (is64 op) (slots (armReg op 0))) else regs g)
    hslots hregs]
  simp only [Function.update_self]
  by_cases hrd : armReg op 0 = 31
  · simp only [hrd, if_true, Function.update_self]
    apply iff_of_false
    · intro h
      exact movk_changes op (is64 op) fun x ↦
        merge_eq_self_iff.mp (h (fun _ ↦ x) (fun _ ↦ 0) fun hne ↦ absurd rfl hne)
    · exact fun h ↦ h.1 rfl
  simp only [hrd, if_false]
  cases hw : is64 op with
  | false =>
    apply iff_of_false
    · intro h
      have hones := (h _ _ fun _ ↦ agrees_const a _ (BitVec.allOnes 64)).1
      rw [moveWanted, hw] at hones
      exact merge_allOnes_ne _ _ hones
    · exact fun h ↦ Bool.noConfusion h.2.1
  | true =>
    have hmerge : ∀ a b : BitVec 64, merge true a b = b := fun _ _ ↦ rfl
    have hcut : ∀ b : BitVec 64, cut true b = b := fun _ ↦ rfl
    simp only [hmerge, hcut]
    constructor
    · intro h
      have hvalue := fun x ↦ (h _ _ fun _ ↦ agrees_const a _ x).1
      refine ⟨hrd, trivial, (movk_right_iff hw).mp hvalue, ?_⟩
      intro x hx
      by_contra hne
      -- the register keeps the value that the slot loses
      apply movk_changes op true
      intro v
      have hreg := (h _ _ fun _ ↦ agrees_const a _ v).2 x hx
      rw [Function.update_self] at hreg
      exact ((if_neg hne).symm.trans hreg).symm
    · rintro ⟨-, -, h0, hheld⟩ slots regs -
      apply And.intro ((movk_right_iff hw).mpr h0 _)
      intro x hx
      rw [Function.update_self]
      exact if_pos (hheld x hx)

end Movk

end Runs

section Results

variable (undef : Instr → Machine → Status) (rest : Instr → Machine → Option Machine)
variable {k : A64.MoveWide} {op : BitVec 32}

private theorem wanted_movz (old : BitVec 64) :
    moveWanted .movz op old = cut (is64 op) (fieldAt op 5 16 <<< (16 * hwAt op)) := rfl

private theorem wanted_movn (old : BitVec 64) :
    moveWanted .movn op old = cut (is64 op) (~~~ (fieldAt op 5 16 <<< (16 * hwAt op))) := rfl

/-- The complement is taken in front of the shift. -/
private theorem movn_low (op : BitVec 32) (hne : hwAt op ≠ 0) :
    lo32 (~~~ fieldAt op 5 16 <<< (16 * hwAt op)) ≠ lo32 (~~~ (fieldAt op 5 16 <<< (16 * hwAt op))) := by
  intro h
  have hbit := congrArg (BitVec.getLsbD · 0) h
  have hpos : 0 < 16 * hwAt op := by omega
  simp [lo32, hpos] at hbit

/-- What a constant in memory comes to. -/
private theorem constant_movz (op : BitVec 32) (r : ArmReg) :
    withConstant (fun _ ↦ 0) r (fieldAt op 5 16 <<< (16 * hwAt op)) r =
        cut (is64 op) (fieldAt op 5 16 <<< (16 * hwAt op)) ↔
      fieldAt op 5 16 <<< (16 * hwAt op) < 0x80000000 ∨
        is64 op = true ∧ 0x100000000 ≤ fieldAt op 5 16 <<< (16 * hwAt op) := by
  generalize fieldAt op 5 16 <<< (16 * hwAt op) = c
  cases is64 op with
  | true =>
    have hcut : cut true c = c := rfl
    rw [hcut, withConstant_self_iff]
    exact or_congr_right ⟨fun h ↦ ⟨rfl, h⟩, fun h ↦ h.2⟩
  | false =>
    have hlow : cut false c < 0x100000000 := by
      rw [← hi32_eq_zero_iff]
      ext i hi
      simp [hi32, cut]
    have hself : c < 0x100000000 → cut false c = c := by
      intro hlt
      have hbound : (0x100000000 : BitVec 64).toNat = 2 ^ 32 := rfl
      rw [BitVec.lt_def, hbound] at hlt
      apply BitVec.eq_of_toNat_eq
      rw [cut, if_neg Bool.false_ne_true, BitVec.toNat_setWidth, BitVec.toNat_setWidth]
      omega
    by_cases hlt : c < 0x100000000
    · rw [hself hlt, withConstant_self_iff]
      exact or_congr_right (iff_of_false (BitVec.not_le.mpr hlt) fun h ↦ Bool.noConfusion h.1)
    · apply iff_of_false
      · have hge := BitVec.not_lt.mp hlt
        rw [(withConstant_self_iff _ r c).mpr (Or.inr hge)]
        intro he
        exact hlt (he ▸ hlow)
      · rintro (hsmall | ⟨hw, -⟩)
        · exact hlt (BitVec.lt_trans hsmall (by decide))
        · cases hw

private theorem constant_movn (op : BitVec 32) (h : moveWide op = some .movn) (r : ArmReg) :
    withConstant (fun _ ↦ 0) r (movImmValue op (16 * hwAt op)) r =
        cut (is64 op) (~~~ (fieldAt op 5 16 <<< (16 * hwAt op))) ↔ is64 op = true ∧ hwAt op = 0 := by
  rw [movImmValue_movn h]
  cases hw : is64 op with
  | false =>
    apply iff_of_false
    · intro he
      have hhigh : hi32 (~~~ fieldAt op 5 16 <<< (16 * hwAt op) ||| 0xffffffff00000000) ≠ 0 := by
        intro hzero
        have hbit := congrArg (BitVec.getLsbD · 0) hzero
        simp [hi32] at hbit
      have hge := BitVec.not_lt.mp fun hlt ↦ hhigh ((hi32_eq_zero_iff _).mpr hlt)
      rw [if_neg Bool.false_ne_true, (withConstant_self_iff _ r _).mpr (Or.inr hge)] at he
      apply hhigh
      rw [he]
      ext i hi
      simp [hi32, cut]
    · exact fun h ↦ Bool.noConfusion h.1
  | true =>
    have hcut : ∀ b : BitVec 64, cut true b = b := fun _ ↦ rfl
    rw [if_pos rfl, hcut]
    constructor
    · intro he
      apply And.intro rfl
      by_contra hne
      have hlow := lo32_withConstant (fun _ ↦ 0) r (~~~ fieldAt op 5 16 <<< (16 * hwAt op))
      rw [he] at hlow
      exact movn_low op hne hlow.symm
    · rintro ⟨-, h0⟩
      have hge : (0x100000000 : BitVec 64) ≤ ~~~ fieldAt op 5 16 <<< 0 := by
        apply BitVec.not_lt.mp
        rw [← hi32_eq_zero_iff]
        intro hzero
        have hbit := congrArg (BitVec.getLsbD · 0) hzero
        simp [hi32, fieldAt] at hbit
      rw [h0, Nat.mul_zero, (withConstant_self_iff _ r _).mpr (Or.inr hge)]
      simp

end Results

end Arm2x86.Translate
