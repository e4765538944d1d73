import Arm2x86.Translate.HomeAccess
import Arm2x86.X86.Execution

/-!
# Between the register home and the host registers

Which accesses of `emit_load_arm_reg` and `emit_store_arm_reg` (`modules/arm2x86_translate64.c:43`)
transfer exactly the register they are given. The store has no way to name a high register, and
neither has the load without a prefix.
-/

namespace Arm2x86.Translate

open X86

section Statements

variable (sem : Semantics)

/-- The load writes the value of the slot at the width to the register, and nothing else. -/
def LoadsExactly (r : ArmReg) (x : Byte) (w : Bool) : Prop :=
  ∀ code m v, At code m.pos (emitLoadArmReg r x w) → slotAt (m.regs 5) r m = some v →
    sem.step code m = some
      ({ m with pos := m.pos + (emitLoadArmReg r x w).length }.setReg (toGpr x) (cut w v))

/-- The store writes the register at the width to the slot, and nothing else. -/
def StoresExactly (x : Byte) (r : ArmReg) (w : Bool) : Prop :=
  ∀ code m old, At code m.pos (emitStoreArmReg x r w) → slotAt (m.regs 5) r m = some old →
    sem.step code m = some
      { m with
        pos := m.pos + (emitStoreArmReg x r w).length
        mem := storedMem m (m.regs 5) r w (cut w (m.regs (toGpr x))) }

/-- A store of one register and a load of another from the same slot move the value. -/
def ReadsBack (x : Byte) (r : ArmReg) (y : Byte) (w : Bool) : Prop :=
  ∀ code m old, At code m.pos (emitStoreArmReg x r w ++ emitLoadArmReg r y w) →
    slotAt (m.regs 5) r m = some old →
    ∃ m', sem.steps code 2 m = some m' ∧ m'.regs (toGpr y) = cut w (m.regs (toGpr x))

end Statements

section Registers

/-- The host registers with a guest register. -/
def homeRegs : List Byte := rbp :: regAllocMap

/-- A register below eight needs no bit of a prefix. -/
theorem gpr_low {x : Byte} (h : x < 8) : gpr false (x.setWidth 3) = toGpr x := by
  have key : ∀ x : Byte, x < 8 → gpr false (x.setWidth 3) = toGpr x := by decide
  exact key x h

/-- A high register is not the one its field names without a prefix. -/
theorem loadedReg_eq_iff {x : Byte} (hx : x ∈ homeRegs) (w : Bool) :
    loadedReg x w = toGpr x ↔ x < 8 ∨ w = true := by
  have key : ∀ x ∈ homeRegs, ∀ w, loadedReg x w = toGpr x ↔ x < 8 ∨ w = true := by decide
  exact key x hx w

end Registers

section Steps

variable {undef : Instr → Machine → Status} {rest : Instr → Machine → Option Machine}
variable {code : List Byte} {m : Machine} {r : ArmReg} {x y : Byte} {w : Bool} {v : BitVec 64}

theorem core_mov (w : Bool) (dst src : Loc) (m : Machine) :
    (Semantics.core undef rest).exec (.mov (opSizeOf w) dst src) m = movAt w dst src m := by
  cases w <;> rfl

/-- The load, with the register it reaches. -/
theorem step_load (hcode : At code m.pos (emitLoadArmReg r x w))
    (hslot : slotAt (m.regs 5) r m = some v) :
    (Semantics.core undef rest).step code m = some
      ({ m with pos := m.pos + (emitLoadArmReg r x w).length }.setReg (loadedReg x w)
        (cut w v)) := by
  rw [Semantics.step_chunk (loadChunk r x w) hcode]
  exact (core_mov w _ _ _).trans (movAt_load w _ hslot)

theorem step_store (hcode : At code m.pos (emitStoreArmReg x r w)) :
    (Semantics.core undef rest).step code m =
      movAt w (storeLoc x r w) (.reg (gpr false (x.setWidth 3)))
        { m with pos := m.pos + (emitStoreArmReg x r w).length } := by
  rw [Semantics.step_chunk (storeChunk x r w) hcode]
  exact core_mov w _ _ _

/-- A store that reaches the slot, of the register it names. -/
theorem step_store_slot (hx : (w && decide (8 ≤ x)) = false)
    (hcode : At code m.pos (emitStoreArmReg x r w)) (hslot : slotAt (m.regs 5) r m = some v) :
    (Semantics.core undef rest).step code m = some
      { m with
        pos := m.pos + (emitStoreArmReg x r w).length
        mem := storedMem m (m.regs 5) r w (cut w (m.regs (gpr false (x.setWidth 3)))) } := by
  rw [step_store hcode, storeLoc, hx]
  exact movAt_store w _ fun i hi ↦ isSome_of_slotAt hslot hi

/-- Behind a store the slot has the value at its width. -/
theorem cut_merge (w : Bool) (old v : BitVec 64) : cut w (merge w old (cut w v)) = cut w v := by
  cases w with
  | true => rfl
  | false =>
    have hlow : (merge false old (cut false v)).setWidth 32 = (cut false v).extractLsb' 0 32 :=
      BitVec.setWidth_append_eq_right
    have hcut : (cut false v).extractLsb' 0 32 = (cut false v).setWidth 32 := by
      ext i hi
      simp
    rw [cut, if_neg Bool.false_ne_true, hlow, hcut]
    exact cut_cut false v

/-- A store that reaches the slot, and a load behind it. -/
theorem steps_store_load (hx : (w && decide (8 ≤ x)) = false)
    (hcode : At code m.pos (emitStoreArmReg x r w ++ emitLoadArmReg r y w))
    (hslot : slotAt (m.regs 5) r m = some v) :
    ∃ m', (Semantics.core undef rest).steps code 2 m = some m' ∧ ∀ g, m'.regs g =
      if g = loadedReg y w then cut w (m.regs (gpr false (x.setWidth 3))) else m.regs g := by
  let m₁ : Machine :=
    { m with
      pos := m.pos + (emitStoreArmReg x r w).length
      mem := storedMem m (m.regs 5) r w (cut w (m.regs (gpr false (x.setWidth 3)))) }
  have hstore : (Semantics.core undef rest).step code m = some m₁ :=
    step_store_slot hx hcode.left hslot
  have hmem : m₁.mem = storedMem m (m.regs 5) r w (cut w (m.regs (gpr false (x.setWidth 3)))) := rfl
  have hmerged := slotAt_storedMem hmem hslot r
  rw [if_pos rfl] at hmerged
  have hload : (Semantics.core undef rest).step code m₁ = some _ := step_load hcode.right hmerged
  rw [cut_merge] at hload
  rw [Semantics.steps, hstore, Option.bind_some, Semantics.steps, hload]
  exact ⟨_, rfl, fun g ↦ rfl⟩

end Steps

section Faults

/-- A state that tells the registers apart: ones in the high registers, zeros in the others and in
the home, and nothing mapped outside of it. -/
private def apart : Machine where
  regs g := if g = 5 then 0x10000 else if g.toNat < 8 then 0 else BitVec.allOnes 64
  flags := 0
  vectors _ := 0
  mem a := if 0x10000 ≤ a ∧ a < 0x10100 then some 0 else none
  codeBase := 0
  pos := 0

private theorem slotAt_apart : ∀ r, slotAt (apart.regs 5) r apart = some 0 := by
  decide +kernel

private theorem apart_low : ∀ x ∈ homeRegs, apart.regs (gpr false (x.setWidth 3)) =
    if x = rbp then 0x10000 else 0 := by
  decide

private theorem apart_high : ∀ x ∈ homeRegs, 8 ≤ x →
    apart.regs (toGpr x) = BitVec.allOnes 64 ∧ x ≠ rbp := by
  decide

private theorem store_high_faults : ∀ x ∈ homeRegs, 8 ≤ x → ∀ r,
    (movAt true (storeLoc x r true) (.reg (gpr false (x.setWidth 3)))
      { apart with pos := 7 }).isNone := by
  decide +kernel

private theorem stored_ones : ∀ r,
    storedMem apart (apart.regs 5) r false (cut false 0) (slotAddr (apart.regs 5) r) ≠
      storedMem apart (apart.regs 5) r false (cut false (BitVec.allOnes 64))
        (slotAddr (apart.regs 5) r) := by
  decide +kernel

private theorem cut_ne_allOnes (v : BitVec 64) : cut false v ≠ BitVec.allOnes 64 := by
  intro h
  have hbit := congrArg (·.getLsbD 63) h
  simp [cut] at hbit

end Faults

section Exactness

variable {undef : Instr → Machine → Status} {rest : Instr → Machine → Option Machine}
variable {x y : Byte}

theorem loadsExactly_iff (hx : x ∈ homeRegs) (r : ArmReg) (w : Bool) :
    LoadsExactly (Semantics.core undef rest) r x w ↔ x < 8 ∨ w = true := by
  rw [← loadedReg_eq_iff hx w]
  constructor
  · intro h
    have hstep := h (emitLoadArmReg r x w) apart 0 (at_self _) (slotAt_apart r)
    rw [step_load (at_self _) (slotAt_apart r)] at hstep
    have hreg := congrFun (congrArg Machine.regs (Option.some.inj hstep)) (toGpr x)
    by_contra hne
    have hhigh : 8 ≤ x := by
      rw [loadedReg_eq_iff hx w, not_or] at hne
      exact BitVec.not_lt.mp hne.1
    rw [Machine.regs_setReg, Machine.regs_setReg, if_neg (Ne.symm hne), if_pos rfl] at hreg
    have hzero : cut w 0 = 0 := by cases w <;> rfl
    have hones : BitVec.allOnes 64 = cut w 0 := (apart_high x hx hhigh).1.symm.trans hreg
    rw [hzero] at hones
    exact absurd hones (by decide)
  · intro hreg code m v hcode hslot
    rw [← hreg]
    exact step_load hcode hslot

theorem storesExactly_iff (hx : x ∈ homeRegs) (r : ArmReg) (w : Bool) :
    StoresExactly (Semantics.core undef rest) x r w ↔ x < 8 := by
  constructor
  · intro h
    by_contra hlow
    have hhigh : 8 ≤ x := BitVec.not_lt.mp hlow
    have hstep := h (emitStoreArmReg x r w) apart 0 (at_self _) (slotAt_apart r)
    cases w with
    | true =>
      rw [step_store (at_self _)] at hstep
      have hfault : movAt true (storeLoc x r true) (.reg (gpr false (x.setWidth 3)))
          { apart with pos := 7 } = none :=
        Option.isNone_iff_eq_none.mp (store_high_faults x hx hhigh r)
      cases hfault.symm.trans hstep
    | false =>
      rw [step_store_slot rfl (at_self _) (slotAt_apart r)] at hstep
      have hbyte := congrFun (congrArg Machine.mem (Option.some.inj hstep))
        (slotAddr (apart.regs 5) r)
      obtain ⟨hones, hne⟩ := apart_high x hx hhigh
      rw [apart_low x hx, if_neg hne, hones] at hbyte
      exact stored_ones r hbyte
  · intro hlow code m old hcode hslot
    have hbit : (w && decide (8 ≤ x)) = false := by
      rw [decide_eq_false (BitVec.not_le.mpr hlow), Bool.and_false]
    rw [step_store_slot hbit hcode hslot, gpr_low hlow]

theorem readsBack_iff (hx : x ∈ homeRegs) (hy : y ∈ homeRegs) (r : ArmReg) (w : Bool) :
    ReadsBack (Semantics.core undef rest) x r y w ↔ x < 8 ∧ (y < 8 ∨ w = true) := by
  constructor
  · intro h
    obtain ⟨m', hsteps, hreg⟩ :=
      h (emitStoreArmReg x r w ++ emitLoadArmReg r y w) apart 0 (at_self _) (slotAt_apart r)
    cases w with
    | true =>
      refine ⟨?_, Or.inr rfl⟩
      by_contra hlow
      have hfault : movAt true (storeLoc x r true) (.reg (gpr false (x.setWidth 3)))
          { apart with pos := 7 } = none :=
        Option.isNone_iff_eq_none.mp (store_high_faults x hx (BitVec.not_lt.mp hlow) r)
      rw [Semantics.steps, step_store (at_self _).left] at hsteps
      have hnone := congrArg (Option.bind · ((Semantics.core undef rest).steps
        (emitStoreArmReg x r true ++ emitLoadArmReg r y true) 1)) hfault
      cases hnone.symm.trans hsteps
    | false =>
      obtain ⟨m₁, hsteps₁, hregs⟩ : ∃ m₁, (Semantics.core undef rest).steps
          (emitStoreArmReg x r false ++ emitLoadArmReg r y false) 2 apart = some m₁ ∧ _ :=
        steps_store_load rfl (at_self _) (slotAt_apart r)
      rw [hsteps₁] at hsteps
      rw [← Option.some.inj hsteps, hregs] at hreg
      have hylow : y < 8 := by
        by_contra hlow
        have hne : toGpr y ≠ loadedReg y false := by
          intro he
          exact hlow (((loadedReg_eq_iff hy false).mp he.symm).resolve_right Bool.false_ne_true)
        rw [if_neg hne, (apart_high y hy (BitVec.not_lt.mp hlow)).1] at hreg
        exact cut_ne_allOnes _ hreg.symm
      refine ⟨?_, Or.inl hylow⟩
      by_contra hlow
      obtain ⟨hones, hne⟩ := apart_high x hx (BitVec.not_lt.mp hlow)
      have hloaded : toGpr y = loadedReg y false :=
        ((loadedReg_eq_iff hy false).mpr (Or.inl hylow)).symm
      rw [if_pos hloaded, apart_low x hx, if_neg hne, hones] at hreg
      exact absurd hreg (by decide)
  · rintro ⟨hlow, hload⟩ code m old hcode hslot
    have hbit : (w && decide (8 ≤ x)) = false := by
      rw [decide_eq_false (BitVec.not_le.mpr hlow), Bool.and_false]
    obtain ⟨m', hsteps, hregs⟩ := steps_store_load hbit hcode hslot
    refine ⟨m', hsteps, ?_⟩
    rw [hregs, if_pos ((loadedReg_eq_iff hy w).mpr hload).symm, gpr_low hlow]

/-- The accesses transfer exactly the registers they are given when those are below `R8`; a load
with the 64-bit prefix does so for every register. -/
theorem homeTransfer_iff (undef : Instr → Machine → Status) (rest : Instr → Machine → Option Machine)
    (r : ArmReg) (w : Bool) {x y : Byte} (hx : x ∈ homeRegs) (hy : y ∈ homeRegs) :
    (LoadsExactly (Semantics.core undef rest) r x w ↔ x < 8 ∨ w = true) ∧
      (StoresExactly (Semantics.core undef rest) x r w ↔ x < 8) ∧
      (ReadsBack (Semantics.core undef rest) x r y w ↔ x < 8 ∧ (y < 8 ∨ w = true)) :=
  ⟨loadsExactly_iff hx r w, storesExactly_iff hx r w, readsBack_iff hx hy r w⟩

/-- What is stored from `RDI` is loaded to `R11`, and no other way round. -/
theorem homeTransfer_rdi_r11 :
    ReadsBack (Semantics.core (fun _ m ↦ m.status) fun _ _ ↦ none) rdi 7 r11 true ∧
      ¬ ReadsBack (Semantics.core (fun _ m ↦ m.status) fun _ _ ↦ none) r11 7 rdi true :=
  ⟨(homeTransfer_iff _ _ 7 true (by decide) (by decide)).2.2.mpr (by decide),
    (homeTransfer_iff _ _ 7 true (by decide) (by decide)).2.2.not.mpr (by decide)⟩

/-- `emit_store_arm_reg` of `R8` stores `RAX`, to where `R13` points. -/
theorem store_r8_missed :
    ¬ StoresExactly (Semantics.core (fun _ m ↦ m.status) fun _ _ ↦ none) r8 0 true :=
  (storesExactly_iff (by decide) 0 true).not.mpr (by decide)

end Exactness

end Arm2x86.Translate
