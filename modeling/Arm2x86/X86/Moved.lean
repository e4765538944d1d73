import Arm2x86.X86.Pairs

/-!
# Instructions that do not look at where they are

Such an instruction does the same at each place of each code. Among them are those whose operand in
memory is no address relative to the next instruction.
-/

namespace Arm2x86.X86

/-- A state at another place of other code. -/
def Machine.moved (m : Machine) (pos : Nat) (base : BitVec 64) : Machine :=
  { m with pos := pos, codeBase := base }

/-- An instruction that does the same anywhere. -/
def Movable (sem : Semantics) (i : Instr) : Prop :=
  ∀ m pos base, sem.exec i (m.moved pos base) = (sem.exec i m).map fun m' ↦ m'.moved pos base

/-- An operand whose address does not depend on the place of the instruction. -/
def Loc.Fixed (loc : Loc) : Prop := ∀ disp, loc ≠ .rip disp

section Operands

variable {m : Machine} {loc : Loc} {size : Size} {pos : Nat} {base : BitVec 64}

theorem store_moved (a : BitVec 64) (bs : List Byte) :
    (m.moved pos base).store a bs = (m.store a bs).map fun m' ↦ m'.moved pos base := by
  show ((m.load a bs.length).bind fun _ ↦ _) = ((m.load a bs.length).bind fun _ ↦ _).map _
  cases m.load a bs.length <;> rfl

theorem fetch_moved (h : loc.Fixed) : (m.moved pos base).fetch size loc = m.fetch size loc := by
  cases loc with
  | rip disp => exact absurd rfl (h disp)
  | _ => cases size <;> rfl

theorem put_moved (h : loc.Fixed) (v : BitVec 64) :
    (m.moved pos base).put size v loc = (m.put size v loc).map fun m' ↦ m'.moved pos base := by
  cases loc with
  | rip disp => exact absurd rfl (h disp)
  | reg r => cases size <;> rfl
  | high r => cases size <;> rfl
  | mem b index disp =>
    cases size <;> exact store_moved _ _

/-- An operand of one byte of code. -/
theorem fixed_of_takeRm {p : Prefixes} {modrm : Byte} {rest : List Byte}
    (h : takeRm p size [modrm] = some (loc, rest)) : loc.Fixed := by
  intro disp hloc
  have htake8 : take8 [] = none := rfl
  have htake32 : take32 [] = none := rfl
  simp only [takeRm, takeSib, takeDisp, htake8, htake32, byteReg] at h
  subst hloc
  split at h
  · split at h
    · split at h <;> cases h
    · cases h
  · split at h
    · cases h
    · split at h
      · cases h
      · split at h
        · cases h
        · split at h <;> cases h

end Operands

section Instructions

variable {undef : Instr → Machine → Status} {rest : Instr → Machine → Option Machine}

theorem movable_cmp {loc : Loc} {g : Gpr} (h : loc.Fixed) :
    Movable (.core undef rest) (.alu .cmp .b64 loc (.reg g)) := by
  intro m pos base
  let i := Instr.alu .cmp .b64 loc (.reg g)
  show (m.moved pos base).execAlu (undef i (m.moved pos base)) .cmp .b64 loc (m.regs g) =
    (m.execAlu (undef i m) .cmp .b64 loc (m.regs g)).map _
  unfold Machine.execAlu
  rw [fetch_moved h]
  cases m.fetch .b64 loc <;> rfl

theorem movable_setcc {loc : Loc} {cc : BitVec 4} (h : loc.Fixed) :
    Movable (.core undef rest) (.setcc cc loc) := by
  intro m pos base
  show (m.moved pos base).put .b8 (if m.status.holds cc then 1 else 0) loc =
    (m.put .b8 (if m.status.holds cc then 1 else 0) loc).map _
  exact put_moved h _

end Instructions

section Effects

variable {sem : Semantics} {code : List Byte} {m : Machine} {c₁ c₂ : Chunk}

/-- What two instructions leave, when neither looks at where it is. -/
theorem pairEffect_movable (h₁ : Movable sem c₁.instr) (h₂ : Movable sem c₂.instr)
    (hjcc : ∀ cc rel, c₂.instr ≠ .jcc cc rel) (hat : At code m.pos (c₁.bytes ++ c₂.bytes)) :
    pairEffect sem code m =
      ((sem.exec c₁.instr m).bind (sem.exec c₂.instr)).map fun m' ↦ ⟨m'.regs, m'.mem, none⟩ := by
  have hstep : sem.step code m = _ :=
    (Semantics.step_chunk c₁ hat.left).trans (h₁ m (m.pos + c₁.bytes.length) m.codeBase)
  cases hexec : sem.exec c₁.instr m with
  | none =>
    rw [hexec] at hstep
    rw [pairEffect, hstep]
    rfl
  | some m₁ =>
    rw [hexec] at hstep
    rw [pairEffect_seq hstep hat.right c₂.decodes hjcc, Semantics.step_chunk c₂ hat.right]
    show (sem.exec c₂.instr (m₁.moved _ _)).map _ = (sem.exec c₂.instr m₁).map _
    rw [h₂, Option.map_map]
    rfl

end Effects

end Arm2x86.X86
