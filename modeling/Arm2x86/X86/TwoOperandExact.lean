import Arm2x86.X86.TwoOperand

/-!
# Which helpers do what they are named after

The pairs of registers for which a helper of `modules/arm2x86_emit.c` does its operation on its
destination and its source, from every state. The others are told apart by a state in which the
registers hold different values.
-/

namespace Arm2x86.X86

namespace TwoOp

/-- The bytes do the operation on the destination and the source, wherever they stand and whatever
the registers hold, up to what the architecture leaves undefined. -/
def Right (op : TwoOp) (sem : Semantics) (undefBits : BitInstr → Machine → Undefined)
    (dest src : Byte) : Prop :=
  ∀ code m, At code m.pos (op.emit dest src) →
    ∃ u, sem.stepBits undefBits code m =
      some (op.effect u (toGpr dest) (toGpr src)
        { m with pos := m.pos + (op.emit dest src).length })

/-- The pairs of registers a helper can encode. -/
def Encodes (op : TwoOp) (dest src : Byte) : Prop :=
  match op with
  | .mov | .alu .add | .alu .sub | .alu .and | .alu .or | .alu .xor => dest = src
  | .alu .adc | .alu .sbb => dest = src ∧ dest < 8
  | .alu .cmp | .movzx .word => dest < 8 ∧ src < 8
  | .imul | .cmov _ | .test => True
  | .cmovcc _ | .movzxR8 | .movsx _ | .movsxd | .movzx .byte | .movzx .half | .bits _ | .testRex =>
    dest < 8

instance (op : TwoOp) (dest src : Byte) : Decidable (op.Encodes dest src) :=
  match op with
  | .mov | .alu .add | .alu .sub | .alu .and | .alu .or | .alu .xor =>
    inferInstanceAs (Decidable (dest = src))
  | .alu .adc | .alu .sbb => inferInstanceAs (Decidable (dest = src ∧ dest < 8))
  | .alu .cmp | .movzx .word => inferInstanceAs (Decidable (dest < 8 ∧ src < 8))
  | .imul | .cmov _ | .test => inferInstanceAs (Decidable True)
  | .cmovcc _ | .movzxR8 | .movsx _ | .movsxd | .movzx .byte | .movzx .half | .bits _ | .testRex =>
    inferInstanceAs (Decidable (dest < 8))

/-- The helpers that set the flags alone. -/
def flagsOnly (op : TwoOp) : Bool :=
  match op with
  | .alu .cmp | .test | .testRex => true
  | _ => false

section Effects

variable (op : TwoOp) (u : Undefined) (dest src : Gpr) (m : Machine)

theorem regs_effect (g : Gpr) : (op.effect u dest src m).regs g =
    if g = dest then (op.result u m.status (m.regs dest) (m.regs src)).1 else m.regs g := by
  rw [effect]
  obtain ⟨r, f⟩ := op.result u m.status (m.regs dest) (m.regs src)
  cases f <;> rfl

theorem status_effect : (op.effect u dest src m).status =
    (op.result u m.status (m.regs dest) (m.regs src)).2.getD m.status := by
  rw [effect]
  obtain ⟨r, f⟩ := op.result u m.status (m.regs dest) (m.regs src)
  cases f with
  | none => rfl
  | some f => exact Machine.status_setStatus _ f

/-- A test does not tell its operands apart. -/
theorem effect_test_comm (op : TwoOp) (h : op = .test ∨ op = .testRex) (u : Undefined)
    (a b : Gpr) (m : Machine) : op.effect u a b m = op.effect u b a m := by
  have hlogic : ∀ a b, op.effect u a b m =
      m.setStatus (.ofLogic (m.regs a &&& m.regs b) u.status) := by
    intro a b
    have hself : m.setReg a (m.regs a) = m := m.setReg_self a
    rcases h with rfl | rfl
    · exact congrArg (Machine.setStatus · _) hself
    · exact congrArg (Machine.setStatus · _) hself
  rw [hlogic a b, hlogic b a, BitVec.and_comm]

end Effects

section Encodings

private theorem low_of_lt {x : Byte} (h : x < 8) : gpr false (x.setWidth 3) = toGpr x := by
  have key : ∀ x : Byte, x < 8 → gpr false (x.setWidth 3) = toGpr x := by decide
  exact key x h

private theorem bit_of_lt {x : Byte} (h : x < 8) : x.getLsbD 3 = false := by
  have key : ∀ x : Byte, x < 8 → x.getLsbD 3 = false := by decide
  exact key x h

/-- The pairs a helper can encode stand in its bytes, in either order for the tests. -/
theorem encoded_of_encodes (op : TwoOp) {dest src : Byte} (h : op.Encodes dest src) :
    op.encoded dest src = (toGpr dest, toGpr src) ∨
      (op = .test ∨ op = .testRex) ∧ op.encoded dest src = (toGpr src, toGpr dest) := by
  cases op with
  | test => exact Or.inr ⟨Or.inl rfl, rfl⟩
  | testRex => exact Or.inr ⟨Or.inr rfl, congrArg _ (low_of_lt h)⟩
  | mov =>
    obtain rfl : dest = src := h
    exact Or.inl rfl
  | alu op =>
    left
    cases op with
    | add | sub | and | or | xor =>
      obtain rfl : dest = src := h
      rfl
    | adc | sbb =>
      obtain ⟨rfl, hlow⟩ : dest = src ∧ dest < 8 := h
      exact congrArg _ (low_of_lt hlow)
    | cmp =>
      have h : dest < 8 ∧ src < 8 := h
      have hrm : gpr (dest.getLsbD 3) (src.setWidth 3) = toGpr src := by
        rw [bit_of_lt h.1, low_of_lt h.2]
      exact Prod.ext (low_of_lt h.1) hrm
  | imul | cmov => exact Or.inl rfl
  | cmovcc | movzxR8 | movsx | movsxd | bits =>
    have h : dest < 8 := h
    exact Or.inl (congrArg (·, toGpr src) (low_of_lt h))
  | movzx width =>
    left
    cases width with
    | byte | half =>
      have h : dest < 8 := h
      exact congrArg (·, toGpr src) (low_of_lt h)
    | word =>
      have h : dest < 8 ∧ src < 8 := h
      have hrm : gpr (src.getLsbD 3) (dest.setWidth 3) = toGpr dest := by
        rw [bit_of_lt h.2, low_of_lt h.1]
      exact Prod.ext hrm (low_of_lt h.2)

end Encodings

section Probes

/-- The result of a helper on operands that leave nothing of it undefined, without a carry and with
its condition. -/
private def value (op : TwoOp) (a b : BitVec 64) : BitVec 64 :=
  let s : Status := ⟨false, false, false, false, false, false⟩
  match op with
  | .cmov _ | .cmovcc _ => b
  | op => (op.result ⟨0, s⟩ s a b).1

/-- Flags without a carry in which the condition of a helper holds. -/
private def Taken (op : TwoOp) (s : Status) : Prop :=
  match op with
  | .cmov cc | .cmovcc cc => s.holds cc = true
  | _ => s.carry = false

private theorem exists_taken (op : TwoOp) : ∃ s, Taken op s := by
  have hcc : ∀ cc, ∃ s : Status, s.holds cc = true := by
    intro cc
    obtain ⟨s, hs⟩ := Status.exists_not_holds (cc ^^^ 1)
    rw [Status.holds_xor_one, Bool.not_eq_false'] at hs
    exact ⟨s, hs⟩
  cases op with
  | cmov cc => exact hcc cc
  | cmovcc cc => exact hcc cc
  | _ => exact ⟨⟨false, false, false, false, false, false⟩, rfl⟩

private theorem result_eq_value (op : TwoOp) (u : Undefined) {s : Status} (hs : Taken op s)
    (a : BitVec 64) {b : BitVec 64} (hb : b ≠ 0) : (op.result u s a b).1 = value op a b := by
  cases op with
  | cmov cc => exact if_pos hs
  | cmovcc cc => exact if_pos hs
  | alu op =>
    have hcarry : s.carry = false := hs
    cases op with
    | adc | sbb =>
      simp only [result, value, hcarry]
      rfl
    | _ => rfl
  | bits op =>
    cases op with
    | bsf | bsr =>
      simp only [result, value, BitOp.run, hb, if_false]
    | _ => rfl
  | _ => rfl

/-- A value for each register. -/
private def probe (r : Gpr) : BitVec 64 := BitVec.ofNat 64 ((r.toNat + 1) * 0x9e3779b97f4a7c15)

private theorem probe_ne_zero : ∀ r, probe r ≠ 0 := by decide

/-- The helpers with a result, with one condition for all. -/
private def writers : List TwoOp :=
  [.mov, .alu .add, .alu .sub, .alu .and, .alu .or, .alu .xor, .alu .adc, .alu .sbb, .imul,
    .cmov 0, .cmovcc 0, .movzxR8, .movsx .byte, .movsx .half, .movsx .word, .movsxd, .movzx .byte,
    .movzx .half, .movzx .word, .bits .bsf, .bits .bsr, .bits .tzcnt, .bits .lzcnt, .bits .popcnt]

/-- The registers behind a helper in the probe. -/
private def after (op : TwoOp) (dest src g : Gpr) : BitVec 64 :=
  if g = dest then value op (probe dest) (probe src) else probe g

private theorem after_ne : ∀ op ∈ writers, ∀ d s : BitVec 4,
    let dest : Byte := d.setWidth 8
    let src : Byte := s.setWidth 8
    op.Encodes dest src ∨
      after op (op.encoded dest src).1 (op.encoded dest src).2 d ≠ after op d s d ∨
      after op (op.encoded dest src).1 (op.encoded dest src).2 (op.encoded dest src).1 ≠
        after op d s (op.encoded dest src).1 := by
  decide +kernel

/-- The helper whose condition is the first one. -/
private def plain (op : TwoOp) : TwoOp :=
  match op with
  | .cmov _ => .cmov 0
  | .cmovcc _ => .cmovcc 0
  | op => op

private theorem plain_mem (op : TwoOp) (h : op.flagsOnly = false) : plain op ∈ writers := by
  cases op with
  | alu op => cases op <;> first | decide | cases h
  | movsx width | movzx width => cases width <;> decide
  | bits op => cases op <;> decide
  | cmov cc => exact (by decide : TwoOp.cmov 0 ∈ writers)
  | cmovcc cc => exact (by decide : TwoOp.cmovcc 0 ∈ writers)
  | test | testRex => cases h
  | _ => decide

private theorem plain_eq (op : TwoOp) : (plain op).Encodes = op.Encodes ∧
    (plain op).encoded = op.encoded ∧ after (plain op) = after op := by
  cases op <;> exact ⟨rfl, rfl, rfl⟩

/-- A helper with a result that is not encoded writes it to another register, or of other
registers. -/
private theorem regs_apart (op : TwoOp) (hop : op.flagsOnly = false) {dest src : Byte}
    (hdest : dest < 16) (hsrc : src < 16) (h : ¬ op.Encodes dest src) {m : Machine}
    (hregs : m.regs = probe) (hs : Taken op m.status) (u u' : Undefined) :
    op.effect u (op.encoded dest src).1 (op.encoded dest src).2 m ≠
      op.effect u' (toGpr dest) (toGpr src) m := by
  intro heq
  have hafter : ∀ u d s g, (op.effect u d s m).regs g = after op d s g := by
    intro u d s g
    rw [regs_effect, hregs, result_eq_value op u hs _ (probe_ne_zero s), after]
  have hsame : ∀ g, after op (op.encoded dest src).1 (op.encoded dest src).2 g =
      after op (toGpr dest) (toGpr src) g := by
    intro g
    rw [← hafter u, ← hafter u', heq]
  obtain ⟨hencodes, hencoded, hplain⟩ := plain_eq op
  have hne := after_ne (plain op) (plain_mem op hop) (toGpr dest) (toGpr src)
  simp only [← eq_setWidth_of_lt hdest, ← eq_setWidth_of_lt hsrc, hencodes, hencoded, hplain] at hne
  rcases hne with hne | hne | hne
  · exact h hne
  · exact hne (hsame _)
  · exact hne (hsame _)

/-- The zero and carry flags of a comparison or a test. -/
private def zeroCarry (op : TwoOp) (a b : BitVec 64) : Bool × Bool :=
  let s : Status := ⟨false, false, false, false, false, false⟩
  let f := (op.result ⟨0, s⟩ s a b).2.getD s
  (f.zero, f.carry)

private theorem zeroCarry_eq (op : TwoOp) (hop : op.flagsOnly = true) (u : Undefined) (s : Status)
    (a b : BitVec 64) :
    let f := (op.result u s a b).2.getD s
    (f.zero, f.carry) = zeroCarry op a b := by
  cases op with
  | alu op => cases op <;> first | rfl | cases hop
  | test | testRex => rfl
  | _ => cases hop

/-- One register told from the others. -/
private def mark (g : Gpr) (others : Bool) (r : Gpr) : BitVec 64 :=
  if decide (r = g) != others then 1 else 0

private theorem zeroCarry_ne : ∀ op ∈ ([.alu .cmp, .test, .testRex] : List TwoOp),
    ∀ d s : BitVec 4,
      let dest : Byte := d.setWidth 8
      let src : Byte := s.setWidth 8
      op.Encodes dest src ∨ ∃ g others,
        zeroCarry op (mark g others (op.encoded dest src).1) (mark g others (op.encoded dest src).2) ≠
          zeroCarry op (mark g others d) (mark g others s) := by
  decide +kernel

/-- A comparison or a test that is not encoded is one of other registers. -/
private theorem flags_apart (op : TwoOp) (hop : op.flagsOnly = true) {dest src : Byte}
    (hdest : dest < 16) (hsrc : src < 16) (h : ¬ op.Encodes dest src) :
    ∃ g others, ∀ m : Machine, m.regs = mark g others → ∀ u u',
      op.effect u (op.encoded dest src).1 (op.encoded dest src).2 m ≠
        op.effect u' (toGpr dest) (toGpr src) m := by
  have hmem : op ∈ ([.alu .cmp, .test, .testRex] : List TwoOp) := by
    cases op with
    | alu op => cases op <;> first | decide | cases hop
    | test | testRex => decide
    | _ => cases hop
  have hne := zeroCarry_ne op hmem (toGpr dest) (toGpr src)
  simp only [← eq_setWidth_of_lt hdest, ← eq_setWidth_of_lt hsrc] at hne
  obtain ⟨g, others, hne⟩ := hne.resolve_left h
  refine ⟨g, others, fun m hregs u u' heq ↦ hne ?_⟩
  have hflags : ∀ u d s, ((op.effect u d s m).status.zero, (op.effect u d s m).status.carry) =
      zeroCarry op (mark g others d) (mark g others s) := by
    intro u d s
    rw [status_effect, hregs]
    exact zeroCarry_eq op hop u m.status _ _
  rw [← hflags u, ← hflags u', heq]

end Probes

section Exactness

variable {undef : Instr → Machine → Status} {rest : Instr → Machine → Option Machine}
variable {undefBits : BitInstr → Machine → Undefined} {dest src : Byte}

/-- A state with some registers and flags. -/
private def holding (regs : Gpr → BitVec 64) (s : Status) : Machine :=
  Machine.setStatus
    { regs, flags := 0, vectors := fun _ ↦ 0, mem := fun _ ↦ none, codeBase := 0, pos := 0 } s

private theorem not_right (op : TwoOp) (regs : Gpr → BitVec 64) (s : Status)
    (h : ∀ m : Machine, m.regs = regs → m.status = s → ∀ u u',
      op.effect u (op.encoded dest src).1 (op.encoded dest src).2 m ≠
        op.effect u' (toGpr dest) (toGpr src) m) :
    ¬ op.Right (Semantics.core undef rest) undefBits dest src := by
  intro hright
  have hcode : At (op.emit dest src) (holding regs s).pos (op.emit dest src) := at_self _
  obtain ⟨u', hstep'⟩ := hright _ _ hcode
  obtain ⟨u, hstep⟩ : ∃ u, (Semantics.core undef rest).stepBits undefBits _ _ = some _ :=
    op.step_emit dest src hcode
  apply h { holding regs s with pos := (holding regs s).pos + (op.emit dest src).length } rfl ?_ u u'
  · exact Option.some.inj (hstep.symm.trans hstep')
  · exact Machine.status_setStatus _ s

/-- A helper does its operation from every state exactly for the pairs of registers it can
encode. -/
theorem right_iff (op : TwoOp) (hdest : dest < 16) (hsrc : src < 16) :
    op.Right (Semantics.core undef rest) undefBits dest src ↔ op.Encodes dest src := by
  constructor
  · intro hright
    by_contra h
    cases hop : op.flagsOnly with
    | true =>
      obtain ⟨g, others, hapart⟩ := flags_apart op hop hdest hsrc h
      exact not_right op (mark g others) ⟨false, false, false, false, false, false⟩
        (fun m hregs _ ↦ hapart m hregs) hright
    | false =>
      obtain ⟨s, hs⟩ := exists_taken op
      refine not_right op probe s (fun m hregs hstatus ↦ ?_) hright
      rw [← hstatus] at hs
      exact regs_apart op hop hdest hsrc h hregs hs
  · intro h code m hcode
    obtain ⟨u, hstep⟩ : ∃ u, (Semantics.core undef rest).stepBits undefBits code m =
        some (op.effect u (op.encoded dest src).1 (op.encoded dest src).2
          { m with pos := m.pos + (op.emit dest src).length }) := op.step_emit dest src hcode
    refine ⟨u, hstep.trans ?_⟩
    rcases op.encoded_of_encodes h with henc | ⟨htest, henc⟩
    · rw [henc]
    · rw [henc, effect_test_comm op htest]

/-- The helpers with their destination in the `rm` field of their opcode are right for one register
twice, those that lose its high bit below `R8`, and multiplications and `cmov_r64_r64` always. -/
theorem twoOperand_iff (undef : Instr → Machine → Status) (rest : Instr → Machine → Option Machine)
    (undefBits : BitInstr → Machine → Undefined) (op : TwoOp) {dest src : Byte} (hdest : dest < 16)
    (hsrc : src < 16) :
    op.Right (Semantics.core undef rest) undefBits dest src ↔ op.Encodes dest src :=
  right_iff op hdest hsrc

/-- The product of `R9` and `RAX` is right, and their sum is not. -/
theorem twoOperand_r9_rax :
    TwoOp.imul.Right (Semantics.core (fun _ m ↦ m.status) fun _ _ ↦ none)
        (fun _ m ↦ ⟨0, m.status⟩) r9 rax ∧
      ¬ (TwoOp.alu .add).Right (Semantics.core (fun _ m ↦ m.status) fun _ _ ↦ none)
        (fun _ m ↦ ⟨0, m.status⟩) r9 rax :=
  ⟨(twoOperand_iff _ _ _ .imul (by decide) (by decide)).mpr trivial,
    (twoOperand_iff _ _ _ (.alu .add) (by decide) (by decide)).not.mpr (by decide)⟩

/-- `mov_r64_r64` of `RAX` to `RCX` writes `RAX`. -/
theorem mov_exchanged :
    ¬ TwoOp.mov.Right (Semantics.core (fun _ m ↦ m.status) fun _ _ ↦ none)
      (fun _ m ↦ ⟨0, m.status⟩) rcx rax :=
  (right_iff .mov (by decide) (by decide)).not.mpr (by decide)

end Exactness

end TwoOp

end Arm2x86.X86
