import Arm2x86.X86.Passes
import Arm2x86.X86.RexW

/-!
# Two instructions

What two instructions do one after the other, of which the second may be a jump on a condition: what
they leave in the registers and in memory, whether the jump is taken, and where it goes.
-/

namespace Arm2x86.X86

/-- A jump on a condition, with its target as an offset of the code, which may be in front of it. -/
structure CondJump where
  taken : Bool
  target : Int

structure Effect where
  regs : Gpr → BitVec 64
  mem : BitVec 64 → Option Byte
  branch : Option CondJump

/-- The effect of the next two instructions. -/
def pairEffect (sem : Semantics) (code : List Byte) (m : Machine) : Option Effect := do
  let m₁ ← sem.step code m
  let bs := code.drop m₁.pos
  let (i, rest) ← decode bs
  match i with
  | .jcc cc rel =>
    return ⟨m₁.regs, m₁.mem,
      some ⟨m₁.status.holds cc, m₁.pos + (bs.length - rest.length : Nat) + rel.toInt⟩⟩
  | _ => (sem.step code m₁).map fun m₂ ↦ ⟨m₂.regs, m₂.mem, none⟩

variable {undef : Instr → Machine → Status} {rest : Instr → Machine → Option Machine}

/-- The branch of an effect is where the machine goes. -/
theorem steps_pairEffect {code : List Byte} {m : Machine} {e : Effect} {b : CondJump}
    (h : pairEffect (.core undef rest) code m = some e) (hb : e.branch = some b)
    (htaken : b.taken = true) (htarget : 0 ≤ b.target) :
    (Semantics.core undef rest).steps code 2 m =
      (((Semantics.core undef rest).step code m).map fun m₁ ↦ { m₁ with pos := b.target.toNat }) := by
  unfold pairEffect at h
  obtain ⟨m₁, hstep, h⟩ := Option.bind_eq_some_iff.mp h
  obtain ⟨⟨i, tail⟩, hdec, h⟩ := Option.bind_eq_some_iff.mp h
  dsimp only at h
  split at h
  · next cc rel =>
    cases h
    cases hb
    dsimp only at htaken htarget
    have hjump : (Semantics.core undef rest).step code m₁ =
        some { m₁ with pos := (m₁.pos + ((code.drop m₁.pos).length - tail.length : Nat) +
          rel.toInt).toNat } := by
      rw [Semantics.step]
      simp only [hdec, Option.bind_eq_bind, Option.bind_some]
      show (if m₁.status.holds cc then _ else _) = _
      rw [if_pos htaken, Machine.jump]
      dsimp only
      rw [Int.natCast_add, if_pos htarget]
    rw [Semantics.steps, hstep, Option.bind_some, Semantics.steps, hjump]
    rfl
  · obtain ⟨m₂, -, h⟩ := Option.map_eq_some_iff.mp h
    cases h
    cases hb

section Rules

variable {sem : Semantics} {code : List Byte} {m m₁ m₂ : Machine}

/-- The first instruction. -/
theorem step_at {bs : List Byte} {i : Instr} (hat : At code m.pos bs)
    (hdec : ∀ rest, decode (bs ++ rest) = some (i, rest)) :
    sem.step code m = sem.exec i { m with pos := m.pos + bs.length } :=
  Semantics.step_chunk ⟨bs, i, hdec⟩ hat

theorem pairEffect_jcc {op : Byte} {rel : BitVec 32} {regs : Gpr → BitVec 64}
    {mem : BitVec 64 → Option Byte} {taken : Bool} {target : Int} (hstep : sem.step code m = some m₁)
    (hop : op &&& 0xf0 = 0x80) (hat : At code m₁.pos (0x0f :: op :: imm32 rel))
    (hregs : m₁.regs = regs) (hmem : m₁.mem = mem)
    (htaken : m₁.status.holds (op.extractLsb' 0 4) = taken)
    (htarget : (m₁.pos : Int) + 6 + rel.toInt = target) :
    pairEffect sem code m = some ⟨regs, mem, some ⟨taken, target⟩⟩ := by
  obtain ⟨tail, htail⟩ := hat
  have hdec := decode_jcc rel tail hop
  have hlen : (0x0f :: op :: (imm32 rel ++ tail)).length - tail.length = 6 := by
    simp [imm32]
    omega
  have hrel : (rel.signExtend 64).toInt = rel.toInt := BitVec.toInt_signExtend_of_le (by decide)
  unfold pairEffect
  rw [hstep, Option.bind_eq_bind, Option.bind_some, ← htail]
  simp only [List.cons_append, hdec, Option.bind_eq_bind, Option.bind_some, hlen, hrel]
  rw [← hregs, ← hmem, ← htaken, ← htarget]
  rfl

theorem pairEffect_seq {bs : List Byte} {i : Instr} (hstep : sem.step code m = some m₁)
    (hat : At code m₁.pos bs) (hdec : ∀ rest, decode (bs ++ rest) = some (i, rest))
    (hi : ∀ cc rel, i ≠ .jcc cc rel) :
    pairEffect sem code m = (sem.step code m₁).map fun m₂ ↦ ⟨m₂.regs, m₂.mem, none⟩ := by
  obtain ⟨tail, htail⟩ := hat
  unfold pairEffect
  rw [hstep, Option.bind_eq_bind, Option.bind_some, ← htail]
  simp only [hdec, Option.bind_eq_bind, Option.bind_some]

end Rules

section Registers

/-- A state behind an instruction. -/
def Machine.past (m : Machine) (n : Nat) : Machine := { m with pos := m.pos + n }

/-- What the arithmetic on a register leaves, when the flags that are undefined have some values. -/
def Machine.arith (m : Machine) (u : Status) (op : AluOp) (r : Gpr) (b : BitVec 64) : Machine :=
  (if op = .cmp then m else m.setReg r (op.run m.status.carry u (m.regs r) b).1).setStatus
    (op.run m.status.carry u (m.regs r) b).2

/-- What a test of a register leaves. -/
def Machine.tested (m : Machine) (u : Status) (r : Gpr) (b : BitVec 64) : Machine :=
  m.setStatus (.ofLogic (m.regs r &&& b) u)

@[simp] theorem Machine.pos_arith (m : Machine) (u : Status) (op : AluOp) (r : Gpr) (b : BitVec 64) :
    (m.arith u op r b).pos = m.pos := by
  unfold arith
  split <;> rfl

@[simp] theorem Machine.mem_arith (m : Machine) (u : Status) (op : AluOp) (r : Gpr) (b : BitVec 64) :
    (m.arith u op r b).mem = m.mem := by
  unfold arith
  split <;> rfl

variable {m : Machine} {r r' : Gpr} {b : BitVec 64} {u : Status} {op : AluOp} {code bs : List Byte}

theorem execAlu_reg64 : m.execAlu u op .b64 (.reg r) b = some (m.arith u op r b) := by
  have hcut : ∀ v, Size.cut .b64 v = v := BitVec.setWidth_eq
  rw [Machine.execAlu, Machine.fetch_reg64, Machine.arith]
  simp only [Option.bind_eq_bind, Option.bind_some, hcut]
  split
  · rfl
  · show some ((m.setReg r ((op.run m.status.carry u (m.regs r) b).1.setWidth 64)).setStatus _) = _
    rw [BitVec.setWidth_eq]
    rfl

theorem execTest_reg64 :
    m.execTest u .b64 (.reg r) b = some (m.tested u r b) := by
  have hcut : ∀ v, Size.cut .b64 v = v := BitVec.setWidth_eq
  rw [Machine.execTest, Machine.fetch_reg64]
  simp only [Option.bind_eq_bind, Option.bind_some, hcut]
  rfl

theorem step_aluImm64 (hat : At code m.pos bs)
    (hdec : ∀ tail, decode (bs ++ tail) = some (.aluImm op .b64 (.reg r) b, tail)) :
    ∃ u, (Semantics.core undef rest).step code m = some ((m.past bs.length).arith u op r b) := by
  refine ⟨undef (.aluImm op .b64 (.reg r) b) (m.past bs.length), ?_⟩
  rw [step_at hat hdec, ← execAlu_reg64]
  rfl

theorem step_alu64 (hat : At code m.pos bs)
    (hdec : ∀ tail, decode (bs ++ tail) = some (.alu op .b64 (.reg r) (.reg r'), tail)) :
    ∃ u, (Semantics.core undef rest).step code m =
      some ((m.past bs.length).arith u op r (m.regs r')) := by
  refine ⟨undef (.alu op .b64 (.reg r) (.reg r')) (m.past bs.length), ?_⟩
  rw [step_at hat hdec, ← execAlu_reg64]
  rfl

theorem step_test64 (hat : At code m.pos bs)
    (hdec : ∀ tail, decode (bs ++ tail) = some (.test .b64 (.reg r) (.reg r'), tail)) :
    ∃ u, (Semantics.core undef rest).step code m =
      some ((m.past bs.length).tested u r (m.regs r')) := by
  refine ⟨undef (.test .b64 (.reg r) (.reg r')) (m.past bs.length), ?_⟩
  rw [step_at hat hdec, ← execTest_reg64]
  rfl

theorem step_testImm64 (hat : At code m.pos bs)
    (hdec : ∀ tail, decode (bs ++ tail) = some (.testImm .b64 (.reg r) b, tail)) :
    ∃ u, (Semantics.core undef rest).step code m = some ((m.past bs.length).tested u r b) := by
  refine ⟨undef (.testImm .b64 (.reg r) b) (m.past bs.length), ?_⟩
  rw [step_at hat hdec, ← execTest_reg64]
  rfl

theorem step_movImm64 {v : BitVec 64} {field : BitVec 3}
    (hat : At code m.pos (0x48 :: (0xb8 + field.setWidth 8) :: imm64 v)) :
    (Semantics.core undef rest).step code m = some ((m.past 10).setReg (lowGpr field) v) := by
  rw [step_at hat fun _ ↦ decode_movImm64 field v]
  rfl

end Registers

/-- The conditions of `JE` and `JNE`. -/
theorem holds_je (s : Status) : s.holds 4 = s.zero := Bool.bne_false _

theorem holds_jne (s : Status) : s.holds 5 = !s.zero := Bool.bne_true _

end Arm2x86.X86
