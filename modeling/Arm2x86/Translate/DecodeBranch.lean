import Arm2x86.A64.Branch
import Arm2x86.Translate.Block
import Arm2x86.Translate.DecodeMasks

/-!
# Decoded branches

What `arm2x86_decode` makes of the branches of A64. It takes every branch for what it is except
`RET` through another register than `X30`, but takes the register of the test branches from the
offset field, cuts the bit number to five bits, and the offset of `B.cond` to its low 19 bits,
halved.
-/

namespace Arm2x86.Translate

open A64 (Branch)

/-- The `INSTR_` constant of a branch. -/
def branchType : Branch → InstrType
  | .b => .b
  | .bl => .bl
  | .bCond => .bCond
  | .cbz => .cbz
  | .cbnz => .cbnz
  | .tbz => .tbz
  | .tbnz => .tbnz
  | .br => .br
  | .blr => .blr
  | .ret => .ret

/-- The register field the decoder fills in for a branch. -/
def branchReg (k : Branch) (d : DecodedInstruction) : BitVec 5 :=
  match k with
  | .tbz | .tbnz => d.rt
  | _ => d.rn

/-- A decoded instruction has the operands of a branch. A condition may be told by another number
of the same meaning. -/
@[mk_iff]
structure HasOperands (k : Branch) (op : BitVec 32) (d : DecodedInstruction) : Prop where
  offset : ∀ x ∈ k.offset op, d.imm = x
  cond : ∀ c ∈ k.cond op, A64.condHolds d.cond = A64.condHolds c
  reg : ∀ r ∈ k.reg op, branchReg k d = r
  sf : ∀ w ∈ k.sf op, d.is64bit = w
  bit : ∀ n ∈ k.bit op, d.shiftImm = n.setWidth 8

/-- A word is decoded to a branch when it is one, with its operands, and to the branch it is. -/
structure BranchDecoded (op : BitVec 32) (d : DecodedInstruction) : Prop where
  complete : ∀ k : Branch, k.diagram.Matches op → d.instrType = branchType k ∧ HasOperands k op d
  sound : ∀ k, d.instrType = branchType k → k.diagram.Matches op

/-- When the operands of a branch come out right: the registers of the test branches are read from
the low bits of the offset field. -/
def branchExact (k : Branch) (op : BitVec 32) : Prop :=
  match k with
  | .b | .bl | .br | .blr => True
  | .bCond => op.extractLsb' 5 19 = 0 ∨ op.extractLsb' 5 19 = -1
  | .cbz | .cbnz => op.extractLsb' 5 5 = op.extractLsb' 0 5
  | .tbz | .tbnz => op.extractLsb' 5 5 = op.extractLsb' 0 5 ∧ op.getLsbD 31 = false
  | .ret => False

section Operands

variable (op : BitVec 32)

/-- Halved and without its lowest bit, an offset stays what it is only for two values. -/
theorem halved_eq_iff (x : BitVec 19) :
    ((x &&& ~~~1) <<< 1).signExtend 32 = (x ++ 0#2).signExtend 32 ↔ x = 0 ∨ x = -1 := by
  constructor
  · intro h
    have hint := congrArg BitVec.toInt h
    have heven : (x &&& ~~~1).toNat = 2 * (x.toNat / 2) := by
      have hsplit : x &&& (~~~1 : BitVec 19) = x >>> 1 <<< 1 := by
        ext i hi
        simp only [BitVec.getElem_and, BitVec.getElem_not, BitVec.getElem_shiftLeft,
          BitVec.getElem_ushiftRight]
        by_cases h0 : i = 0
        · simp [h0]
        · have h1 : ¬ i < 1 := by omega
          have h2 : 1 + (i - 1) = i := by omega
          simp [h0, h1, h2, BitVec.getLsbD_eq_getElem hi]
      rw [hsplit]
      simp only [BitVec.toNat_shiftLeft, BitVec.toNat_ushiftRight, Nat.shiftLeft_eq,
        Nat.shiftRight_eq_div_pow]
      omega
    rw [BitVec.toInt_signExtend_of_le (by decide), BitVec.toInt_signExtend_of_le (by decide),
      BitVec.toInt_append, BitVec.toInt_shiftLeft, heven] at hint
    simp [BitVec.toInt_eq_toNat_cond, Int.bmod, Nat.shiftLeft_eq] at hint
    have hx := x.isLt
    have hcases : x.toNat = 0 ∨ x.toNat = 2 ^ 19 - 1 := by
      split at hint <;> split at hint <;> omega
    rcases hcases with h0 | h1
    · exact Or.inl (BitVec.eq_of_toNat_eq h0)
    · exact Or.inr (BitVec.eq_of_toNat_eq h1)
  · rintro (rfl | rfl) <;> decide

theorem signExtend64_bCond :
    signExtend64 ((fieldAt op 5 20 &&& 0xffffe) <<< 1) 19 =
      ((op.extractLsb' 5 19 &&& ~~~1) <<< 1).signExtend 32 := by
  rw [signExtend64_eq _ (by decide) (by decide)]
  congr 1
  ext i hi
  simp only [fieldAt, BitVec.getElem_setWidth, BitVec.getLsbD_shiftLeft, BitVec.getLsbD_and,
    BitVec.getLsbD_setWidth, BitVec.getElem_shiftLeft, BitVec.getElem_and, BitVec.getElem_not]
  by_cases h1 : i < 1
  · simp [h1]
  · have h64 : i < 64 := by omega
    have h20 : i - 1 < 20 := by omega
    have hmask : ∀ j < 18, (0xffffe : BitVec 64).getLsbD j = !(1 : BitVec 19).getLsbD j := by decide
    have hlt : i - 1 < 18 := by omega
    have h19 : i - 1 < 19 := by omega
    have h64' : i - 1 < 64 := by omega
    simp only [h1, h64, hmask _ hlt, BitVec.getLsbD_extractLsb', h20, ← BitVec.getLsbD_eq_getElem]
    simp [h19, h64']

/-- A bit number survives the cut to five bits when it is below 32. -/
theorem bitNumber_iff :
    (op.extractLsb' 19 5).setWidth 8 =
        ((op.extractLsb' 31 1 ++ op.extractLsb' 19 5).setWidth 8 : BitVec 8) ↔
      op.getLsbD 31 = false := by
  have key : ∀ (b : Bool) (x : BitVec 5),
      (x.setWidth 8 : BitVec 8) = (BitVec.ofBool b ++ x).setWidth 8 ↔ b = false := by decide
  have hbit : op.extractLsb' 31 1 = BitVec.ofBool (op.getLsbD 31) := by
    ext i hi
    have h0 : i = 0 := by omega
    simp [h0]
  rw [hbit]
  exact key _ _

theorem condHolds_capped (c : BitVec 4) :
    A64.condHolds (if 14 < c then 14 else c) = A64.condHolds c := by
  have key : ∀ c : BitVec 4, ∀ n z cy v : Bool,
      A64.condHolds (if 14 < c then 14 else c) ⟨n, z, cy, v⟩ = A64.condHolds c ⟨n, z, cy, v⟩ := by
    decide
  funext f
  exact key c f.n f.z f.c f.v

end Operands

section Kinds

variable {op : BitVec 32}

/-- The kinds whose branches are decoded as they should be. -/
theorem decode_branch_iff (k : Branch) (h : k.diagram.Matches op) :
    (decode op).instrType = branchType k ∧ HasOperands k op (decode op) ↔ branchExact k op := by
  rw [hasOperands_iff]
  cases k with
  | b =>
    simp (disch := decide) only [decode, maskEq_conflict h, maskEq_covered h, beq_conflict h,
      Bool.or_false, Bool.false_eq_true, if_false, if_true, signExtend64_scaled]
    simp [branchType, branchExact, Branch.offset, Branch.cond, Branch.reg, Branch.sf, Branch.bit]
  | bl =>
    simp (disch := decide) only [decode, maskEq_conflict h, maskEq_covered h, beq_conflict h,
      Bool.or_false, Bool.false_eq_true, if_false, if_true, signExtend64_scaled]
    simp [branchType, branchExact, Branch.offset, Branch.cond, Branch.reg, Branch.sf, Branch.bit]
  | bCond =>
    simp (disch := decide) only [decode, maskEq_conflict h, maskEq_covered h, beq_conflict h,
      Bool.or_false, Bool.false_eq_true, if_false, if_true, signExtend64_bCond]
    simp only [branchType, branchExact, Branch.offset, Branch.cond, Branch.reg, Branch.sf, Branch.bit,
      Option.mem_def, Option.some.injEq, reduceCtorEq, forall_eq', false_implies, implies_true,
      true_and, and_true, condHolds_capped, halved_eq_iff]
  | cbz =>
    simp (disch := decide) only [decode, maskEq_conflict h, maskEq_covered h, beq_conflict h,
      Bool.or_false, Bool.false_eq_true, if_false, if_true, h.bit_false,
      signExtend64_scaled]
    simp [branchType, branchExact, Branch.offset, Branch.cond, Branch.reg, Branch.sf, Branch.bit,
      branchReg, regAt]
  | cbnz =>
    simp (disch := decide) only [decode, maskEq_conflict h, maskEq_covered h, beq_conflict h,
      Bool.or_false, Bool.false_eq_true, if_false, if_true, h.bit_true,
      signExtend64_scaled]
    simp [branchType, branchExact, Branch.offset, Branch.cond, Branch.reg, Branch.sf, Branch.bit,
      branchReg, regAt]
  | tbz =>
    simp (disch := decide) only [decode, maskEq_conflict h, maskEq_covered h, beq_conflict h,
      Bool.or_false, Bool.false_eq_true, if_false, if_true, h.bit_false,
      signExtend64_scaled]
    simp only [branchType, branchExact, Branch.offset, Branch.cond, Branch.reg, Branch.sf, Branch.bit,
      branchReg, regAt, Option.mem_def, Option.some.injEq, reduceCtorEq, forall_eq', false_implies,
      implies_true, true_and, bitNumber_iff]
  | tbnz =>
    simp (disch := decide) only [decode, maskEq_conflict h, maskEq_covered h, beq_conflict h,
      Bool.or_false, Bool.false_eq_true, if_false, if_true, h.bit_true,
      signExtend64_scaled]
    simp only [branchType, branchExact, Branch.offset, Branch.cond, Branch.reg, Branch.sf, Branch.bit,
      branchReg, regAt, Option.mem_def, Option.some.injEq, reduceCtorEq, forall_eq', false_implies,
      implies_true, true_and, bitNumber_iff]
  | br =>
    simp (disch := decide) only [decode, maskEq_conflict h, maskEq_covered h, beq_conflict h,
      Bool.or_false, Bool.false_eq_true, if_false, if_true]
    simp [branchType, branchExact, Branch.offset, Branch.cond, Branch.reg, Branch.sf, Branch.bit,
      branchReg, regAt]
  | blr =>
    simp (disch := decide) only [decode, maskEq_conflict h, maskEq_covered h, beq_conflict h,
      Bool.or_false, Bool.false_eq_true, if_false, if_true]
    simp [branchType, branchExact, Branch.offset, Branch.cond, Branch.reg, Branch.sf, Branch.bit,
      branchReg, regAt]
  | ret =>
    simp (disch := decide) only [decode, decodeRest, decodeDpRegister, maskEq_conflict h,
      beq_conflict h, Bool.or_false, Bool.false_eq_true, if_false, Option.getD_none]
    simp only [branchType, branchExact, Branch.reg, Option.mem_def, Option.some.injEq, forall_eq',
      iff_false]
    rintro ⟨htype, -, -, hreg, -⟩
    by_cases hop : op = 0xd65f03c0
    · subst hop
      revert hreg
      decide
    · rw [if_neg (by simpa using hop)] at htype
      cases htype

end Kinds

section Others

variable {op : BitVec 32}

private theorem branchType_terminates (k : Branch) : isBlockTerminator (branchType k) = true := by
  cases k <;> rfl

private theorem dpRegister_no_branch : isBlockTerminator (decodeDpRegister op).instrType = false := by
  have hfield : ∀ n opc imm shiftImm, isBlockTerminator (bitfieldType n opc imm shiftImm) = false := by
    intro n opc imm shiftImm
    unfold bitfieldType
    simp only [apply_ite isBlockTerminator]
    simp [isBlockTerminator]
  unfold decodeDpRegister
  simp only [apply_ite DecodedInstruction.instrType, apply_ite isBlockTerminator, hfield]
  simp [isBlockTerminator]

private theorem rest_no_branch : isBlockTerminator (decodeRest op).instrType = false := by
  have hload : isBlockTerminator (decodeLoadstore op).instrType = false := by
    unfold decodeLoadstore
    simp only [apply_ite DecodedInstruction.instrType, apply_ite isBlockTerminator]
    simp [isBlockTerminator]
  unfold decodeRest neonIntType neonFpType
  simp only [apply_ite DecodedInstruction.instrType, apply_ite isBlockTerminator, hload,
    dpRegister_no_branch]
  simp [isBlockTerminator]

private theorem system_no_branch {d : DecodedInstruction} (h : decodeSystem op = some d) :
    isBlockTerminator d.instrType = false := by
  unfold decodeSystem at h
  repeat' split at h
  all_goals
    cases h
    try rfl
  dsimp only
  split <;> rfl

/-- A test of the decoder gives the words of a branch, with one more bit when it has two kinds. -/
private theorem matches_of_maskEq {m v : BitVec 32} {d : Diagram 32} (h : maskEq op m v = true)
    (hm : m &&& d.mask = d.mask) (hv : v &&& d.mask = d.bits) : d.Matches op :=
  (maskEq_iff.mp h).covered hm hv

private theorem matches_of_bit {m v : BitVec 32} {d : Diagram 32} (h : maskEq op m v = true)
    {b : Bool} (hb : op.getLsbD 24 = b)
    (hm : (m ||| BitVec.twoPow 32 24) &&& d.mask = d.mask)
    (hv : (v ||| if b then BitVec.twoPow 32 24 else 0) &&& d.mask = d.bits) : d.Matches op :=
  ((maskEq_iff.mp h).bit 24 b hb).covered hm hv

/-- Nothing but the branches is decoded to a branch. -/
theorem decode_branch_sound {k : Branch} (h : (decode op).instrType = branchType k) :
    k.diagram.Matches op := by
  have hnot : ∀ {d : DecodedInstruction}, isBlockTerminator d.instrType = false →
      d.instrType ≠ branchType k := by
    intro d hd heq
    rw [heq, branchType_terminates] at hd
    cases hd
  unfold decode at h
  split at h
  · cases k <;> cases h
  split at h
  · next hm => cases k <;> first | exact matches_of_maskEq hm rfl rfl | cases h
  split at h
  · next hm => cases k <;> first | exact matches_of_maskEq hm rfl rfl | cases h
  split at h
  · next hm => cases k <;> first | exact matches_of_maskEq hm rfl rfl | cases h
  split at h
  · next hm => cases k <;> first | exact matches_of_maskEq hm rfl rfl | cases h
  split at h
  · next hop =>
    rw [eq_of_beq hop]
    cases k <;> first | decide | cases h
  split at h
  · next hm => cases k <;> first | exact matches_of_maskEq hm rfl rfl | cases h
  split at h
  · next hm =>
    cases hb : op.getLsbD 24 <;> rw [hb] at h <;> cases k <;>
      first | exact matches_of_bit hm hb rfl rfl | cases h
  split at h
  · next hm =>
    cases hb : op.getLsbD 24 <;> rw [hb] at h <;> cases k <;>
      first | exact matches_of_bit hm hb rfl rfl | cases h
  · -- neither the system group nor what comes after it has a branch
    dsimp only at h
    split at h
    · cases hsys : decodeSystem op with
      | none => exact absurd (by rw [hsys] at h; exact h) (hnot rest_no_branch)
      | some d => exact absurd (by rw [hsys] at h; exact h) (hnot (system_no_branch hsys))
    · exact absurd h (hnot rest_no_branch)

/-- A word is decoded as it should be exactly when its kind of branch is. -/
theorem branchDecoded_iff (op : BitVec 32) :
    BranchDecoded op (decode op) ↔ ∀ k : Branch, k.diagram.Matches op → branchExact k op := by
  constructor
  · intro h k hk
    exact (decode_branch_iff k hk).mp (h.complete k hk)
  · intro h
    exact ⟨fun k hk ↦ (decode_branch_iff k hk).mpr (h k hk), fun k ↦ decode_branch_sound⟩

/-- `B.EQ` to the word after the next is decoded with the offset 4 in place of 8. -/
theorem bCond_decoded_halved : ¬ BranchDecoded 0x54000040 (decode 0x54000040) := by
  intro h
  have hoffset := (h.complete .bCond (by decide)).2.offset _ rfl
  revert hoffset
  decide

end Others

end Arm2x86.Translate
