import Arm2x86.Hotblock.Fusion

/-!
# Constant propagation

What the pass holds for constant at an index, and what the registers hold when an execution of its input
comes there. Nothing that the pass has recorded is dropped again, so a run keeps to it as long as no
instruction writes a register that is held for constant, each pattern is an instruction of the run, the
operands of each `ADD` agree and no `AND` needs the sign of its immediate.
-/

namespace Arm2x86.Hotblock

open Rewriting X86

section Statement

variable (s : Source)

/-- Where the pass comes to, with what it holds for constant there. -/
abbrev FactsAt : Facts → Nat → Nat → Prop :=
  Reached (constantPropagationTurn s) s.size fun _ ↦ none

/-- The registers hold what they are held for. -/
def Facts.Hold (facts : Facts) (m : Machine) : Prop :=
  ∀ r v, facts r = some v → m.regs (lowGpr r) = v

def FactsRight (m : Machine) : Prop := ∀ facts dst, FactsAt s facts m.pos dst → facts.Hold m

/-- An instruction that is replaced by a move of a constant. -/
def ReplacedAt (facts : Facts) (src : Nat) : Prop :=
  (addConstAt s facts src).isSome ∨ (andConstAt s facts src).isSome

/-- The destination of such an instruction. -/
def destAt (src : Nat) : Gpr := lowGpr (rmField (s.bytes (src + 2)))

/-- The code that the pass produces. -/
def propagated (buf : Nat → Byte) : List Byte :=
  slice (optimizeConstantPropagation s buf).buf 0 (optimizeConstantPropagation s buf).dst

/-- A step of an instruction that is replaced leaves in its destination what its replacement leaves
there. -/
def ReplacedRight (sem : Semantics) (buf : Nat → Byte) (base' : BitVec 64) (m m' : Machine) : Prop :=
  ∀ facts dst, FactsAt s facts m.pos dst → m.pos < s.size → ReplacedAt s facts m.pos →
    ∃ m'', sem.step (propagated s buf) (m.moved dst base') = some m'' ∧
      m''.regs (destAt s m.pos) = m'.regs (destAt s m.pos)

/-- Every execution of the code comes to each place with what is held for constant there, and each
replacement is right. -/
def PropagationRight (sem : Semantics) (buf : Nat → Byte) (base' : BitVec 64) : Prop :=
  ∀ m₀ m, m₀.pos = 0 → sem.Runs s.code m₀ m →
    FactsRight s m ∧ ∀ m', sem.step s.code m = some m' → ReplacedRight s sem buf base' m m'

/-- A pattern that makes a register constant. -/
def ConstantFor (src : Nat) (r : BitVec 3) : Prop :=
  movImm64At s src = some r ∨ xorZeroAt s src = some r

/-- A pattern that changes what a register is held for. -/
def Touches (facts : Facts) (src : Nat) (r : BitVec 3) : Prop :=
  ConstantFor s src r ∨ (∃ a b, addConstAt s facts src = some (r, a, b)) ∨
    ∃ a imm, andConstAt s facts src = some (r, a, imm)

/-- A pattern in front of an index makes a register constant. -/
def Known (src : Nat) (r : BitVec 3) : Prop :=
  ∃ facts i dst, FactsAt s facts i dst ∧ i < src ∧ ConstantFor s i r

/-- A pattern between two indices changes what a register is held for. -/
def TouchedBetween (src src' : Nat) (r : BitVec 3) : Prop :=
  ∃ facts i dst, FactsAt s facts i dst ∧ src ≤ i ∧ i < src' ∧ Touches s facts i r

/-- An instruction that does not write a register. -/
def Leaves (sem : Semantics) (i : Instr) (r : Gpr) : Prop :=
  ∀ m m', sem.exec i m = some m' → m'.regs r = m.regs r

/-- A step of an execution that the pass keeps up with. -/
inductive StepKept (sem : Semantics) (m m' : Machine) : Prop
  | constant {facts : Facts} {dst : Nat} {r : BitVec 3} (hat : FactsAt s facts m.pos dst)
      (hlt : m.pos < s.size) (hconst : ConstantFor s m.pos r)
  | add {facts : Facts} {dst : Nat} {reg : BitVec 3} {a b : BitVec 64}
      (hat : FactsAt s facts m.pos dst) (hlt : m.pos < s.size)
      (hadd : addConstAt s facts m.pos = some (reg, a, b))
      (hsame : lowGpr reg = destAt s m.pos ∨ a = 0 ∧ b = 0)
  | and {facts : Facts} {dst : Nat} {reg : BitVec 3} {a : BitVec 64} {imm : BitVec 32}
      (hat : FactsAt s facts m.pos dst) (hlt : m.pos < s.size)
      (hand : andConstAt s facts m.pos = some (reg, a, imm))
      (hupper : imm.msb = false ∨ a.extractLsb' 32 32 = 0)
  | other {i : Instr} {rest : List Byte} (hdec : decode (s.code.drop m.pos) = some (i, rest))
      (hnone : ∀ facts dst, FactsAt s facts m.pos dst → ¬ ReplacedAt s facts m.pos)
      (hkeeps : ∀ r, Known s m'.pos r → (∃ facts dst, FactsAt s facts m.pos dst) ∧
        ¬ TouchedBetween s (min m.pos m'.pos) (max m.pos m'.pos) r ∧ Leaves sem i (lowGpr r))

/-- The states that an execution comes to by such steps. -/
inductive KeptRun (sem : Semantics) (m₀ : Machine) : Machine → Prop
  | start : KeptRun sem m₀ m₀
  | step {m m' : Machine} (h : KeptRun sem m₀ m) (hstep : sem.step s.code m = some m')
      (hkept : StepKept s sem m m') : KeptRun sem m₀ m'

end Statement

section Patterns

variable {s : Source} {facts : Facts} {src dst : Nat} {r : BitVec 3}

theorem movImm64At_eq_some (h : movImm64At s src = some r) :
    s.bytes src = 0x48 ∧ s.bytes (src + 1) = 0xb8 + r.setWidth 8 := by
  unfold movImm64At at h
  split_ifs at h with hbytes
  obtain ⟨h0, hlo, hhi⟩ := hbytes
  refine ⟨h0, ?_⟩
  have key : ∀ b : Byte, 0xb8 ≤ b → b ≤ 0xbf → b = 0xb8 + ((b - 0xb8).setWidth 3).setWidth 8 := by
    decide
  rw [← Option.some.inj h]
  exact key _ hlo hhi

theorem xorZeroAt_eq_some (h : xorZeroAt s src = some r) :
    s.bytes src = 0x48 ∧ s.bytes (src + 1) = 0x31 ∧ modField (s.bytes (src + 2)) = 3 ∧
      regField (s.bytes (src + 2)) = r ∧ rmField (s.bytes (src + 2)) = r := by
  unfold xorZeroAt at h
  dsimp only at h
  split_ifs at h with hbytes
  obtain ⟨h0, h1, hmod, hreg⟩ := hbytes
  have hr := Option.some.inj h
  exact ⟨h0, h1, hmod, hr, hreg ▸ hr⟩

theorem addConstAt_eq_some {a b : BitVec 64} (h : addConstAt s facts src = some (r, a, b)) :
    s.bytes src = 0x48 ∧ s.bytes (src + 1) = 0x01 ∧ modField (s.bytes (src + 2)) = 3 ∧
      regField (s.bytes (src + 2)) = r ∧ facts r = some a ∧
        facts (rmField (s.bytes (src + 2))) = some b := by
  unfold addConstAt at h
  dsimp only at h
  split_ifs at h with hbytes
  split at h
  · next ha hb =>
    cases h
    exact ⟨hbytes.1, hbytes.2.1, hbytes.2.2, rfl, ha, hb⟩
  · cases h

theorem andConstAt_eq_some {a : BitVec 64} {imm : BitVec 32}
    (h : andConstAt s facts src = some (r, a, imm)) :
    s.bytes src = 0x48 ∧ s.bytes (src + 1) = 0x81 ∧ s.bytes (src + 2) &&& 0xf8 = 0xe0 ∧
      rmField (s.bytes (src + 2)) = r ∧ facts r = some a ∧ s.word32 (src + 3) = imm := by
  unfold andConstAt at h
  split_ifs at h with hbytes
  obtain ⟨v, hv, heq⟩ := Option.map_eq_some_iff.mp h
  cases heq
  exact ⟨hbytes.1, hbytes.2.1, hbytes.2.2, rfl, hv, rfl⟩

theorem Touches.first (h : Touches s facts src r) : s.bytes src = 0x48 := by
  rcases h with (h | h) | ⟨a, b, h⟩ | ⟨a, imm, h⟩
  · exact (movImm64At_eq_some h).1
  · exact (xorZeroAt_eq_some h).1
  · exact (addConstAt_eq_some h).1
  · exact (andConstAt_eq_some h).1

/-- `XOR` has an opcode of its own. -/
theorem zeroed_eq (h : s.bytes (src + 1) ≠ 0x31) : zeroed s facts src = facts := by
  unfold zeroed
  cases hxor : xorZeroAt s src with
  | none => rfl
  | some r => exact absurd (xorZeroAt_eq_some hxor).2.1 h

theorem movImm64At_eq_none {op : Byte} (h : s.bytes (src + 1) = op) (hop : op < 0xb8) :
    movImm64At s src = none := by
  unfold movImm64At
  rw [if_neg]
  rintro ⟨-, hlo, -⟩
  rw [h] at hlo
  exact absurd hlo (BitVec.not_le.mpr hop)

/-- An opcode below those of the moves that is not that of the exclusive or makes no register constant. -/
theorem not_constantFor {op : Byte} (h : s.bytes (src + 1) = op) (hop : op < 0xb8) (hxor : op ≠ 0x31) :
    ¬ ConstantFor s src r := by
  rintro (hmov | hzero)
  · rw [movImm64At_eq_none h hop] at hmov
    cases hmov
  · exact hxor (h.symm.trans (xorZeroAt_eq_some hzero).2.1)

/-- What makes a register constant is not replaced. -/
theorem not_replacedAt (h : ConstantFor s src r) : ¬ ReplacedAt s facts src := by
  rintro (hadd | hand)
  · obtain ⟨⟨reg, a, b⟩, hadd⟩ := Option.isSome_iff_exists.mp hadd
    exact not_constantFor (addConstAt_eq_some hadd).2.1 (by decide) (by decide) h
  · obtain ⟨⟨reg, a, imm⟩, hand⟩ := Option.isSome_iff_exists.mp hand
    exact not_constantFor (andConstAt_eq_some hand).2.1 (by decide) (by decide) h

theorem addConstAt_eq_none (h : s.bytes (src + 1) ≠ 0x01) : addConstAt s facts src = none := by
  unfold addConstAt
  dsimp only
  rw [if_neg]
  rintro ⟨-, h1, -⟩
  exact h h1

theorem andConstAt_eq_none (h : s.bytes (src + 1) ≠ 0x81) : andConstAt s facts src = none := by
  unfold andConstAt
  rw [if_neg]
  rintro ⟨-, h1, -⟩
  exact h h1

end Patterns

section Turns

variable {s : Source} {facts : Facts} {src dst : Nat} {r : BitVec 3}

theorem turn_movImm64 (h : movImm64At s src = some r) :
    constantPropagationTurn s facts src =
      (⟨[s.memcpy src 10 10], 10, 1, by decide⟩, facts.set r (s.word64 (src + 2))) := by
  unfold constantPropagationTurn
  rw [h]

theorem turn_xorZero (h : xorZeroAt s src = some r) :
    constantPropagationTurn s facts src = ({ s.copyByte src with hits := 1 }, facts.set r 0) := by
  have h1 := (xorZeroAt_eq_some h).2.1
  have hzeroed : zeroed s facts src = facts.set r 0 := by
    unfold zeroed
    rw [h]
    rfl
  have hadd : addConstAt s (facts.set r 0) src = none := addConstAt_eq_none (by rw [h1]; decide)
  have hand : andConstAt s (facts.set r 0) src = none := andConstAt_eq_none (by rw [h1]; decide)
  unfold constantPropagationTurn
  simp only [movImm64At_eq_none h1 (by decide), hzeroed, hadd, hand, h]
  rfl

theorem turn_add {a b : BitVec 64} (h : addConstAt s facts src = some (r, a, b)) :
    constantPropagationTurn s facts src =
      (constantTurn r (a + b) 3 (by decide), facts.set r (a + b)) := by
  have h1 := (addConstAt_eq_some h).2.1
  have hzeroed : zeroed s facts src = facts := zeroed_eq (by rw [h1]; decide)
  unfold constantPropagationTurn
  simp only [movImm64At_eq_none h1 (by decide), hzeroed, h]

theorem turn_and {a : BitVec 64} {imm : BitVec 32} (h : andConstAt s facts src = some (r, a, imm)) :
    constantPropagationTurn s facts src =
      (constantTurn r (a &&& imm.setWidth 64) 7 (by decide),
        facts.set r (a &&& imm.setWidth 64)) := by
  have h1 := (andConstAt_eq_some h).2.1
  have hzeroed : zeroed s facts src = facts := zeroed_eq (by rw [h1]; decide)
  have hadd : addConstAt s facts src = none := addConstAt_eq_none (by rw [h1]; decide)
  unfold constantPropagationTurn
  simp only [movImm64At_eq_none h1 (by decide), hzeroed, hadd, h]

/-- Where no pattern is found the facts stay, and a byte is copied. -/
theorem turn_none (hmov : movImm64At s src = none) (hxor : xorZeroAt s src = none)
    (hadd : addConstAt s facts src = none) (hand : andConstAt s facts src = none) :
    constantPropagationTurn s facts src = ({ s.copyByte src with hits := 0 }, facts) := by
  have hzeroed : zeroed s facts src = facts := by
    unfold zeroed
    rw [hxor]
    rfl
  unfold constantPropagationTurn
  simp only [hmov, hzeroed, hadd, hand, hxor]
  rfl

/-- What a turn does with what a register is held for. -/
theorem facts_turn (s : Source) (facts : Facts) (src : Nat) (r : BitVec 3) :
    (constantPropagationTurn s facts src).2 r = facts r ∨ Touches s facts src r := by
  have hset : ∀ (reg : BitVec 3) v, Touches s facts src reg →
      facts.set reg v r = facts r ∨ Touches s facts src r := by
    intro reg v htouches
    by_cases h : r = reg
    · rw [h]
      exact .inr htouches
    · exact .inl (if_neg h)
  cases hmov : movImm64At s src with
  | some reg =>
    rw [turn_movImm64 hmov]
    exact hset _ _ (.inl (.inl hmov))
  | none =>
    cases hxor : xorZeroAt s src with
    | some reg =>
      rw [turn_xorZero hxor]
      exact hset _ _ (.inl (.inr hxor))
    | none =>
      cases hadd : addConstAt s facts src with
      | some found =>
        obtain ⟨reg, a, b⟩ := found
        rw [turn_add hadd]
        exact hset _ _ (.inr (.inl ⟨a, b, hadd⟩))
      | none =>
        cases hand : andConstAt s facts src with
        | some found =>
          obtain ⟨reg, a, imm⟩ := found
          rw [turn_and hand]
          exact hset _ _ (.inr (.inr ⟨a, imm, hand⟩))
        | none =>
          rw [turn_none hmov hxor hadd hand]
          exact .inl rfl

/-- Something is held for constant because of a pattern in front. -/
theorem known_of_some {v : BitVec 64} (h : FactsAt s facts src dst) (hv : facts r = some v) :
    Known s src r := by
  induction h generalizing v with
  | start => cases hv
  | @turn facts src dst h _ ih =>
    have hpos := (constantPropagationTurn s facts src).1.len_pos
    have hearlier : ∀ {v}, facts r = some v →
        Known s (src + (constantPropagationTurn s facts src).1.len) r := by
      intro v hv
      obtain ⟨facts', i, dst', hat, hlt, hconst⟩ := ih hv
      exact ⟨facts', i, dst', hat, by omega, hconst⟩
    rcases facts_turn s facts src r with hsame | hconst | ⟨a, b, hadd⟩ | ⟨a, imm, hand⟩
    · exact hearlier (hsame ▸ hv)
    · exact ⟨facts, src, dst, h, by omega, hconst⟩
    · exact hearlier (addConstAt_eq_some hadd).2.2.2.2.1
    · exact hearlier (andConstAt_eq_some hand).2.2.2.2.1

/-- What no pattern between two indices touches is held for the same at both. -/
theorem facts_between {facts' : Facts} {src' dst' : Nat} (h : FactsAt s facts src dst)
    (h' : FactsAt s facts' src' dst') (hle : src ≤ src') (hnone : ¬ TouchedBetween s src src' r) :
    facts' r = facts r := by
  refine h.between (fun facts ↦ facts r) h' hle ?_
  intro facts₁ i d h₁ hi hlt
  exact (facts_turn s facts₁ i r).resolve_right fun htouches ↦
    hnone ⟨facts₁, i, d, h₁, hi, hlt, htouches⟩

end Turns

section Steps

variable {s : Source} {facts : Facts} {r : BitVec 3} {m m' : Machine}
  {undef : Instr → Machine → Status} {rest : Instr → Machine → Option Machine}

theorem lowGpr_inj : ∀ r r' : BitVec 3, lowGpr r = lowGpr r' → r = r' := by decide

theorem step_movImm64At (hlt : m.pos < s.size) (h : movImm64At s m.pos = some r) :
    (Semantics.core undef rest).step s.code m =
      some ((m.past 10).setReg (lowGpr r) (s.word64 (m.pos + 2))) := by
  obtain ⟨h0, h1⟩ := movImm64At_eq_some h
  apply step_movImm64
  have hat : At s.code m.pos (slice s.bytes m.pos 10) := at_code (by omega)
  have hbytes : slice s.bytes m.pos 10 =
      s.bytes m.pos :: s.bytes (m.pos + 1) :: slice s.bytes (m.pos + 2) 8 := rfl
  rwa [hbytes, h0, h1, slice_word64] at hat

/-- The bytes of an instruction of three bytes. -/
theorem at_three {op : Byte} (hlt : m.pos < s.size) (h0 : s.bytes m.pos = 0x48)
    (h1 : s.bytes (m.pos + 1) = op) : At s.code m.pos [0x48, op, s.bytes (m.pos + 2)] := by
  rw [← h0, ← h1]
  exact at_code (k := 3) (by omega)

theorem step_xorZeroAt (hlt : m.pos < s.size) (h : xorZeroAt s m.pos = some r) :
    ∃ m', (Semantics.core undef rest).step s.code m = some m' ∧
      m'.regs = (m.setReg (lowGpr r) 0).regs ∧ m'.pos = m.pos + 3 := by
  obtain ⟨h0, h1, hmod, hreg, hrm⟩ := xorZeroAt_eq_some h
  obtain ⟨m', hstep, hregs, -, -, hpos⟩ := step_clear (.inr rfl) rfl rfl hmod (hreg.trans hrm.symm)
    (at_three hlt h0 h1)
  rw [hrm] at hregs
  exact ⟨m', hstep, hregs, hpos⟩

theorem step_addConstAt {a b : BitVec 64} (hlt : m.pos < s.size)
    (h : addConstAt s facts m.pos = some (r, a, b)) :
    ∃ m', (Semantics.core undef rest).step s.code m = some m' ∧
      m'.regs = (m.setReg (destAt s m.pos) (m.regs (destAt s m.pos) + m.regs (lowGpr r))).regs ∧
        m'.pos = m.pos + 3 := by
  obtain ⟨h0, h1, hmod, hreg, -, -⟩ := addConstAt_eq_some h
  have hdec : ∀ tail, decode ([0x48, 0x01, s.bytes (m.pos + 2)] ++ tail) =
      some (.alu .add .b64 (.reg (destAt s m.pos)) (.reg (lowGpr r)), tail) := by
    intro tail
    have hrow := @decode_row (s.bytes (m.pos + 2)) tail 0x01 rfl hmod
    rw [hreg] at hrow
    exact hrow
  obtain ⟨u, hstep⟩ := @step_alu64 undef rest m _ _ _ _ _ (at_three hlt h0 h1) hdec
  exact ⟨_, hstep, rfl, Machine.pos_arith ..⟩

theorem step_andConstAt {a : BitVec 64} {imm : BitVec 32} (hlt : m.pos < s.size)
    (h : andConstAt s facts m.pos = some (r, a, imm)) :
    ∃ m', (Semantics.core undef rest).step s.code m = some m' ∧
      m'.regs = (m.setReg (lowGpr r) (m.regs (lowGpr r) &&& imm.signExtend 64)).regs ∧
        m'.pos = m.pos + 7 := by
  obtain ⟨h0, h1, hrow, hrm, -, himm⟩ := andConstAt_eq_some h
  have hfields : ∀ b : Byte, b &&& 0xf8 = 0xe0 → modField b = 3 ∧ regField b = 4 := by decide
  obtain ⟨hmod, hext⟩ := hfields _ hrow
  have hat : At s.code m.pos (0x48 :: 0x81 :: s.bytes (m.pos + 2) :: imm32 imm) := by
    rw [← h0, ← h1, ← himm, ← slice_word32]
    exact at_code (k := 7) (by omega)
  have hdec : ∀ tail, decode ((0x48 :: 0x81 :: s.bytes (m.pos + 2) :: imm32 imm) ++ tail) =
      some (.aluImm .and .b64 (.reg (lowGpr r)) (imm.signExtend 64), tail) := by
    intro tail
    have h := @decode_aluImm32 (s.bytes (m.pos + 2)) tail hmod imm
    rw [hext, hrm] at h
    exact h
  obtain ⟨u, hstep⟩ := @step_aluImm64 undef rest m _ _ _ _ _ hat hdec
  exact ⟨_, hstep, rfl, Machine.pos_arith ..⟩

/-- A register that is written and held for its new value. -/
theorem Facts.Hold.set {v : BitVec 64} (h : facts.Hold m) (hregs : m'.regs = (m.setReg (lowGpr r) v).regs) :
    (facts.set r v).Hold m' := by
  intro r' w hw
  rw [hregs]
  show (if lowGpr r' = lowGpr r then v else m.regs (lowGpr r')) = w
  unfold Facts.set at hw
  by_cases hr : r' = r
  · rw [if_pos hr] at hw
    rw [if_pos (congrArg lowGpr hr)]
    exact Option.some.inj hw
  · rw [if_neg hr] at hw
    rw [if_neg fun heq ↦ hr (lowGpr_inj _ _ heq)]
    exact h r' w hw

/-- The operands of an `ADD` agree with its replacement. -/
theorem regs_add {a b : BitVec 64} (hold : facts.Hold m)
    (hadd : addConstAt s facts m.pos = some (r, a, b))
    (hsame : lowGpr r = destAt s m.pos ∨ a = 0 ∧ b = 0) :
    (m.setReg (destAt s m.pos) (m.regs (destAt s m.pos) + m.regs (lowGpr r))).regs =
      (m.setReg (lowGpr r) (a + b)).regs := by
  obtain ⟨-, -, -, -, ha, hb⟩ := addConstAt_eq_some hadd
  have hra : m.regs (lowGpr r) = a := hold r a ha
  have hrb : m.regs (destAt s m.pos) = b := hold _ b hb
  rcases hsame with hdest | ⟨rfl, rfl⟩
  · rw [hrb, hra, hdest, BitVec.add_comm]
  · -- the sum is what both registers hold already
    have hself : ∀ g : Gpr, m.regs g = 0 → (m.setReg g (0 + 0)).regs = m.regs := by
      intro g hg
      have hset := m.setReg_self g
      rw [hg] at hset
      exact congrArg Machine.regs hset
    rw [hrb, hra, hself _ hrb, hself _ hra]

/-- The sign of an immediate matters for a constant with something in its upper half. -/
theorem and_signExtend_iff (a : BitVec 64) (imm : BitVec 32) :
    a &&& imm.signExtend 64 = a &&& imm.setWidth 64 ↔ imm.msb = false ∨ a.extractLsb' 32 32 = 0 := by
  have hbits : a &&& imm.signExtend 64 = a &&& imm.setWidth 64 ↔
      ∀ i < 32, (a.getLsbD (32 + i) && imm.msb) = false := by
    constructor
    · intro h i hi
      have hbit := congrArg (fun v ↦ v.getLsbD (32 + i)) h
      have hlt : 32 + i < 64 := by omega
      have hge : ¬ 32 + i < 32 := by omega
      simpa [BitVec.getElem_signExtend, hlt, hge] using hbit
    · intro h
      ext i hi
      by_cases hlow : i < 32
      · simp [BitVec.getElem_signExtend, hlow]
      · have hhigh := h (i - 32) (by omega)
        have hi' : 32 + (i - 32) = i := by omega
        have hzero : imm.getLsbD i = false := BitVec.getLsbD_of_ge imm i (by omega)
        rw [hi'] at hhigh
        simpa [BitVec.getElem_signExtend, hlow, hi, hzero] using hhigh
  rw [hbits]
  cases imm.msb with
  | false => simp
  | true =>
    simp only [Bool.and_true, Bool.true_eq_false, false_or]
    constructor
    · intro h
      ext i hi
      simpa using h i hi
    · intro h i hi
      have hbit := congrArg (fun v ↦ v.getLsbD i) h
      simpa [hi] using hbit

/-- What the pass holds for constant behind a pattern. -/
theorem factsRight_behind {len : Nat} {facts' : Facts} {dst : Nat} (hat : FactsAt s facts m.pos dst)
    (hlt : m.pos < s.size) (hlen : (constantPropagationTurn s facts m.pos).1.len = len)
    (hfacts : (constantPropagationTurn s facts m.pos).2 = facts') (hpos : m'.pos = m.pos + len)
    (hold : facts'.Hold m') : FactsRight s m' := by
  intro facts₁ dst₁ hat₁
  have hturn := hat.turn hlt
  rw [hlen, hfacts, ← hpos] at hturn
  rw [(hturn.unique hat₁).1]
  exact hold

/-- `XOR` is recorded at its first byte, and nothing is found at the other two. -/
theorem factsRight_xorZero {dst : Nat} (hat : FactsAt s facts m.pos dst) (hlt : m.pos < s.size)
    (hxor : xorZeroAt s m.pos = some r) (hpos : m'.pos = m.pos + 3)
    (hold : (facts.set r 0).Hold m') : FactsRight s m' := by
  intro facts₁ dst₁ hat₁
  obtain ⟨-, h1, hmod, -, -⟩ := xorZeroAt_eq_some hxor
  have hturn := hat.turn hlt
  rw [turn_xorZero hxor] at hturn
  have hnone : ∀ r', ¬ TouchedBetween s (m.pos + 1) m'.pos r' := by
    rintro r' ⟨facts₂, i, dst₂, -, hle, hlt, htouches⟩
    have hfirst := htouches.first
    have hi : i = m.pos + 1 ∨ i = m.pos + 2 := by omega
    rcases hi with rfl | rfl
    · rw [h1] at hfirst
      exact absurd hfirst (by decide)
    · rw [hfirst] at hmod
      exact absurd hmod (by decide)
  intro r' v hv
  apply hold r' v
  rw [← hv]
  exact (facts_between hturn hat₁ (by show m.pos + 1 ≤ m'.pos; omega) (hnone r')).symm

/-- A step that the pass keeps up with. -/
theorem factsRight_step (hright : FactsRight s m)
    (hstep : (Semantics.core undef rest).step s.code m = some m')
    (hkept : StepKept s (.core undef rest) m m') : FactsRight s m' := by
  cases hkept with
  | @constant facts dst r hat hlt hconst =>
    have hold := hright facts dst hat
    rcases hconst with hmov | hxor
    · rw [step_movImm64At hlt hmov] at hstep
      cases hstep
      have hturn := @turn_movImm64 s facts _ _ hmov
      exact factsRight_behind hat hlt (congrArg (fun t ↦ t.1.len) hturn) (congrArg Prod.snd hturn) rfl
        (hold.set rfl)
    · obtain ⟨m₁, hstep₁, hregs, hpos⟩ := @step_xorZeroAt _ _ _ undef rest hlt hxor
      cases hstep.symm.trans hstep₁
      exact factsRight_xorZero hat hlt hxor hpos (hold.set hregs)
  | @add facts dst reg a b hat hlt hadd hsame =>
    have hold := hright facts dst hat
    obtain ⟨m₁, hstep₁, hregs, hpos⟩ := @step_addConstAt _ _ _ _ undef rest _ _ hlt hadd
    cases hstep.symm.trans hstep₁
    rw [regs_add hold hadd hsame] at hregs
    have hturn := turn_add hadd
    exact factsRight_behind hat hlt (congrArg (fun t ↦ t.1.len) hturn) (congrArg Prod.snd hturn) hpos
      (hold.set hregs)
  | @and facts dst reg a imm hat hlt hand hupper =>
    have hold := hright facts dst hat
    obtain ⟨m₁, hstep₁, hregs, hpos⟩ := @step_andConstAt _ _ _ _ undef rest _ _ hlt hand
    cases hstep.symm.trans hstep₁
    have ha : m.regs (lowGpr reg) = a := hold reg a (andConstAt_eq_some hand).2.2.2.2.1
    rw [ha, (and_signExtend_iff a imm).mpr hupper] at hregs
    have hturn := turn_and hand
    exact factsRight_behind hat hlt (congrArg (fun t ↦ t.1.len) hturn) (congrArg Prod.snd hturn) hpos
      (hold.set hregs)
  | @other i tail hdec hnone hkeeps =>
    intro facts' dst' hat' r v hv
    obtain ⟨⟨facts, dst, hat⟩, huntouched, hleaves⟩ := hkeeps r (known_of_some hat' hv)
    have hsame : facts r = some v := by
      rw [← hv]
      rcases Nat.le_total m.pos m'.pos with hle | hle
      · rw [Nat.min_eq_left hle, Nat.max_eq_right hle] at huntouched
        exact (facts_between hat hat' hle huntouched).symm
      · rw [Nat.min_eq_right hle, Nat.max_eq_left hle] at huntouched
        exact facts_between hat' hat hle huntouched
    rw [Semantics.step, hdec] at hstep
    rw [hleaves _ _ hstep]
    exact hright facts dst hat r v hsame

/-- A replacement stands in the output. -/
theorem at_constantTurn {buf : Nat → Byte} {dst len : Nat} {v : BitVec 64} {facts' : Facts}
    {h : 0 < len} (hat : FactsAt s facts m.pos dst) (hlt : m.pos < s.size)
    (hturn : constantPropagationTurn s facts m.pos = (constantTurn r v len h, facts')) :
    At (propagated s buf) dst (0x48 :: (0xb8 + r.setWidth 8) :: imm64 v) := by
  have hstands := hat.stands hlt
  rw [hturn] at hstands
  have hout : propagated s buf =
      (turns (constantPropagationTurn s) s.size s.size (fun _ ↦ none) 0).flatMap Turn.items :=
    slice_rewrite fun facts src ↦ constantPropagationTurn_exact s src facts
  rw [hout]
  exact hstands

/-- A replacement of an instruction that the pass keeps up with. -/
theorem replacedRight_step {buf : Nat → Byte} {base' : BitVec 64} (hright : FactsRight s m)
    (hstep : (Semantics.core undef rest).step s.code m = some m')
    (hkept : StepKept s (.core undef rest) m m') : ReplacedRight s (.core undef rest) buf base' m m' := by
  -- a replacement that leaves what the instruction leaves
  have hmove : ∀ {facts facts' : Facts} {dst len : Nat} {reg v} {h : 0 < len},
      FactsAt s facts m.pos dst → m.pos < s.size →
        constantPropagationTurn s facts m.pos = (constantTurn reg v len h, facts') →
          m'.regs = (m.setReg (lowGpr reg) v).regs →
            ∃ m'', (Semantics.core undef rest).step (propagated s buf) (m.moved dst base') = some m'' ∧
              m''.regs (destAt s m.pos) = m'.regs (destAt s m.pos) := by
    intro facts facts' dst len reg v h hat hlt hturn hregs
    refine ⟨_, step_movImm64 (m := m.moved dst base') (at_constantTurn hat hlt hturn), ?_⟩
    rw [hregs]
    rfl
  intro facts₁ dst₁ hat₁ hlt₁ hreplaced
  cases hkept with
  | constant _ _ hconst => exact absurd hreplaced (not_replacedAt hconst)
  | @add facts dst reg a b hat hlt hadd hsame =>
    obtain ⟨m₁, hstep₁, hregs, -⟩ := @step_addConstAt _ _ _ _ undef rest _ _ hlt hadd
    cases hstep.symm.trans hstep₁
    rw [regs_add (hright facts dst hat) hadd hsame] at hregs
    obtain ⟨rfl, rfl⟩ := hat₁.unique hat
    exact hmove hat hlt (turn_add hadd) hregs
  | @and facts dst reg a imm hat hlt hand hupper =>
    obtain ⟨m₁, hstep₁, hregs, -⟩ := @step_andConstAt _ _ _ _ undef rest _ _ hlt hand
    cases hstep.symm.trans hstep₁
    have ha : m.regs (lowGpr reg) = a := hright facts dst hat reg a (andConstAt_eq_some hand).2.2.2.2.1
    rw [ha, (and_signExtend_iff a imm).mpr hupper] at hregs
    obtain ⟨rfl, rfl⟩ := hat₁.unique hat
    exact hmove hat hlt (turn_and hand) hregs
  | other _ hnone _ => exact absurd hreplaced (hnone facts₁ dst₁ hat₁)

end Steps

section Runs

variable (undef : Instr → Machine → Status) (rest : Instr → Machine → Option Machine)

/-- Constant propagation is right along each execution of its input whose steps the pass keeps up with. -/
theorem propagationRight_kept (s : Source) (buf : Nat → Byte) (base' : BitVec 64) {m₀ m : Machine}
    (hstart : m₀.pos = 0) (h : KeptRun s (.core undef rest) m₀ m) :
    FactsRight s m ∧ ∀ m', (Semantics.core undef rest).step s.code m = some m' →
      StepKept s (.core undef rest) m m' →
        ReplacedRight s (.core undef rest) buf base' m m' := by
  have hright : FactsRight s m := by
    induction h with
    | start =>
      intro facts dst hat
      rw [hstart] at hat
      obtain ⟨rfl, -⟩ := Reached.start.unique hat
      intro r v hv
      cases hv
    | step _ hstep hkept ih => exact factsRight_step ih hstep hkept
  exact ⟨hright, fun m' hstep hkept ↦ replacedRight_step hright hstep hkept⟩

/-- `MOV RAX, 1` and `SUB RAX, RAX`. -/
def movSub : Source where
  bytes := fun i ↦ [0x48, 0xb8, 1, 0, 0, 0, 0, 0, 0, 0, 0x48, 0x29, 0xc0].getD i 0
  size := 13

theorem movSub_mov : movImm64At movSub 0 = some 0 := by decide

/-- Behind the two instructions `RAX` is still held for 1. -/
theorem movSub_facts : FactsAt movSub (Facts.set (fun _ ↦ none) 0 1) 13 13 := by
  have hfirst : FactsAt movSub (Facts.set (fun _ ↦ none) 0 1) 10 10 := by
    have hstart : FactsAt movSub (fun _ ↦ none) 0 0 := .start
    have hturn := hstart.turn (show 0 < movSub.size by decide)
    rw [turn_movImm64 movSub_mov] at hturn
    exact hturn
  have hnone : ∀ i < 13, 10 ≤ i → movImm64At movSub i = none ∧ xorZeroAt movSub i = none ∧
      movSub.bytes (i + 1) ≠ 0x01 ∧ movSub.bytes (i + 1) ≠ 0x81 := by
    decide
  have hcopied : ∀ i < 13, 10 ≤ i → ∀ {facts}, FactsAt movSub facts i i →
      FactsAt movSub facts (i + 1) (i + 1) := by
    intro i hlt hge facts hat
    obtain ⟨hmov, hxor, hadd, hand⟩ := hnone i hlt hge
    have hturn := hat.turn (show i < movSub.size from hlt)
    rw [turn_none hmov hxor (addConstAt_eq_none hadd) (andConstAt_eq_none hand)] at hturn
    exact hturn
  exact hcopied 12 (by decide) (by decide) (hcopied 11 (by decide) (by decide)
    (hcopied 10 (by decide) (by decide) hfirst))

/-- `RAX` is held for a constant although it has been changed. -/
theorem movSub_not_right :
    ¬ PropagationRight movSub (.core (fun _ _ ↦ .ofBits 0) fun _ _ ↦ none) (fun _ ↦ 0) 0 := by
  intro h
  let sem := Semantics.core (fun _ _ ↦ .ofBits 0) fun _ _ ↦ none
  let m₁ : Machine := ((uniform 0 0 0).past 10).setReg (lowGpr 0) (movSub.word64 2)
  have hmov : sem.step movSub.code (uniform 0 0 0) = some m₁ :=
    step_movImm64At (show 0 < movSub.size by decide) movSub_mov
  have hat : At movSub.code m₁.pos [0x48, 0x29, 0xc0] :=
    at_three (show 10 < movSub.size by decide) rfl rfl
  obtain ⟨m₂, hsub, hregs, -, -, hpos⟩ := @step_clear (fun _ _ ↦ .ofBits 0)
    (fun _ _ ↦ none) _ _ _ _ _ (.inl rfl) rfl rfl rfl rfl hat
  have hruns : sem.Runs movSub.code (uniform 0 0 0) m₂ := by
    refine ⟨2, ?_⟩
    rw [Semantics.steps, hmov, Option.bind_some, Semantics.steps, hsub]
    rfl
  have hfacts : FactsAt movSub (Facts.set (fun _ ↦ none) 0 1) m₂.pos 13 := by
    rw [hpos]
    exact movSub_facts
  have hone : m₂.regs 0 = 1 := (h _ m₂ rfl hruns).1 _ 13 hfacts 0 1 rfl
  rw [hregs] at hone
  exact absurd (show (0 : BitVec 64) = 1 from hone) (by decide)

/-- The move is kept up with. -/
theorem movSub_mov_right :
    let m := ((uniform 0 0 0).past 10).setReg (lowGpr 0) (movSub.word64 2)
    FactsRight movSub m ∧ ∀ m', (Semantics.core (fun _ _ ↦ .ofBits 0) fun _ _ ↦ none).step
      movSub.code m = some m' → StepKept movSub (.core (fun _ _ ↦ .ofBits 0) fun _ _ ↦ none) m m' →
        ReplacedRight movSub (.core (fun _ _ ↦ .ofBits 0) fun _ _ ↦ none) (fun _ ↦ 0) 0 m m' := by
  have hstart : (uniform 0 0 0).pos = 0 := rfl
  apply propagationRight_kept _ _ movSub (fun _ ↦ 0) 0 hstart
  exact .step .start (step_movImm64At (by decide) movSub_mov)
    (.constant .start (by decide) (.inl movSub_mov))

end Runs

end Arm2x86.Hotblock
