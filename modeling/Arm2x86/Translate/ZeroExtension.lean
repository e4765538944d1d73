import Arm2x86.A64.Access
import Arm2x86.Translate.DecodeDataProcessing
import Arm2x86.Translate.OperationAgreement
import Arm2x86.Translate.UpperHalves

/-!
# Upper halves of 32-bit results

An A64 instruction with a 32-bit destination clears the upper half of the register. What is emitted
for it stores 32 bits to the slot and leaves the upper half, and a result in a cached register does
not reach the slot at all.
-/

namespace Arm2x86.Translate

open X86
open A64 (DataProcessing LoadStore ToGeneral NarrowDest)

/-- The kinds of a word that is not translated; the block has a `NOP` for it. -/
def InstrType.untranslated : InstrType → Bool
  | .unknown | .dataproc | .ldst => true
  | _ => false

/-- The upper half of a slot. -/
def UpperZero (home : BitVec 64) (r : ArmReg) (m : Machine) : Prop :=
  ∀ i, 4 ≤ i → i < 8 → m.mem (slotAddr home r + BitVec.ofNat 64 i) = some 0

/-- Behind the code of a word, the 64-bit value of each 32-bit destination has a zero upper half, in
its slot and in the host register that is assigned to it. -/
def ZeroExtends (env : Env) (t : TranslateCtx) (op : BitVec 32) : Prop :=
  ∀ r, NarrowDest op r → (decode op).instrType.untranslated = false →
    ∀ undef rest m m', m.pos = 0 →
      (Semantics.core undef rest).Runs (emittedFor env t op).flatten m m' →
      m'.pos = (emittedFor env t op).flatten.length →
      UpperZero (m.regs 5) r.toFin m' ∧
        let a := (translateOne env t (decode op).instrType op (decode op).imm).alloc
        (a.cached r.toFin = true →
          (m'.regs (toGpr (a.regAlloc r.toFin).x86Reg)).extractLsb' 32 32 = 0)

section Kinds

/-- The kinds of the data processing words in the small form, but the bitfield moves. -/
def smallTypes : List InstrType :=
  [.and, .bic, .orr, .orn, .add, .sub, .adc, .udiv, .sdiv, .mul, .csel, .ccmn, .ccmp, .cset, .movz,
    .movn, .movk, .dataproc]

/-- The kinds of the bitfield moves in the small form. -/
def smallBitfieldTypes : List InstrType :=
  [.asr, .lsl, .lsr, .sbfm, .ubfm, .sxtb, .sxth, .uxtb, .uxth, .dataproc]

variable {k : DataProcessing} {op : BitVec 32} {r : A64.Reg}

theorem bitfieldType_small (opc : BitVec 2) (imms immr : BitVec 6) (h1 : opc ≠ 1) (h3 : opc ≠ 3) :
    bitfieldType false opc imms immr ∈ smallBitfieldTypes := by
  have hcases : ∀ x : BitVec 2, x ≠ 1 → x ≠ 3 → x = 0 ∨ x = 2 := by decide
  rcases hcases opc h1 h3 with rfl | rfl
  · by_cases hlow : immr = 0#6
    · subst hlow
      simp [bitfieldType, smallBitfieldTypes]
    · by_cases hlast : immr = 31#6
      · subst hlast
        simp [bitfieldType, smallBitfieldTypes]
      · simp [bitfieldType, smallBitfieldTypes, hlow, hlast]
  · by_cases hlow : immr = 0#6
    · subst hlow
      simp [bitfieldType, smallBitfieldTypes]
    · simp [bitfieldType, smallBitfieldTypes, hlow]

/-- The words that are neither products nor bitfield moves nor additions of the carry. -/
private theorem decode_small_plain (h : k.diagram.Matches op)
    (hk : k ≠ .addSubCarry ∧ k ≠ .threeSource ∧ k ≠ .bitfield) :
    (decode op).instrType ∈ smallTypes := by
  rw [decode_dataProcessing hk.1 h]
  cases k with
  | addSubCarry => exact absurd rfl hk.1
  | threeSource => exact absurd rfl hk.2.1
  | bitfield => exact absurd rfl hk.2.2
  | _ =>
    simp (disch := decide) only [decodeDpRegister, maskEq_conflict h, maskEq_covered h,
      Bool.or_false, Bool.false_eq_true, if_false, if_true]
    repeat' split
    all_goals simp [smallTypes]

private theorem decode_small_product (h : DataProcessing.threeSource.diagram.Matches op)
    (hsf : op.getLsbD 31 = false) (hop : (DataProcessing.threeSource.operation op).isSome) :
    (decode op).instrType = .mul := by
  have htable : ∀ (op31 : BitVec 3) (o0 : Bool) (ra : A64.Reg),
      (DataProcessing.threeSourceOf false op31 o0 ra).isSome → op31 = 0 := by
    decide +kernel
  simp only [DataProcessing.operation, hsf] at hop
  have hfield := htable _ _ _ hop
  have h22 : op.getLsbD 22 = false := (bit_of_field 21 3 1 (by decide)).trans (by rw [hfield]; rfl)
  have h23 : op.getLsbD 23 = false := (bit_of_field 21 3 2 (by decide)).trans (by rw [hfield]; rfl)
  have hclass := h.bit 23 false h23
  rw [decode_dataProcessing (by decide) h]
  simp (disch := decide) only [decodeDpRegister, maskEq_conflict h, maskEq_covered hclass, hsf, h22,
    Bool.false_eq_true, if_false, if_true, Bool.not_false]

private theorem decode_small_carry (h : DataProcessing.addSubCarry.diagram.Matches op) :
    (decode op).instrType ∈ smallTypes ∨ (decode op).instrType = .crc32 := by
  have hcrc : op.extractLsb' 10 3 = 0 := h.extractLsb' rfl
  by_cases hmask : maskEq op 0x7fe0fc00 0x1a000000 = true
  · apply Or.inr
    simp (disch := decide) only [decode, decodeRest, maskEq_conflict h, beq_conflict h, hmask, hcrc,
      Bool.or_false, Bool.false_eq_true, if_false, if_true, Option.getD_none]
    rfl
  · have htype : (decode op).instrType = .adc := by
      simp (disch := decide) only [decode, decodeRest, decodeDpRegister, maskEq_conflict h,
        maskEq_covered h, beq_conflict h, hmask, Bool.or_false, Bool.false_eq_true, if_false,
        if_true, Option.getD_none]
    rw [htype]
    decide

private theorem decode_small_bitfield (h : DataProcessing.bitfield.diagram.Matches op)
    (hsf : op.getLsbD 31 = false) (hop : (DataProcessing.bitfield.operation op).isSome) :
    (decode op).instrType ∈ smallBitfieldTypes ∧ op.getLsbD 22 = false := by
  obtain ⟨o, ho⟩ := Option.isSome_iff_exists.mp hop
  simp only [DataProcessing.operation, DataProcessing.bitfieldOf, hsf,
    Option.ite_none_right_eq_some] at ho
  obtain ⟨⟨hn, -⟩, ho⟩ := ho
  refine ⟨?_, hn⟩
  have hcases : ∀ x : BitVec 2, x = 0 ∨ x = 1 ∨ x = 2 ∨ x = 3 := by decide
  rw [decode_dataProcessing (by decide) h]
  rcases hcases (op.extractLsb' 29 2) with h0 | h1 | h2 | h3
  · have hclass := h.both (Diagram.matches_field h0)
    simp (disch := decide) only [decodeDpRegister, maskEq_conflict h, maskEq_covered hclass, h0, hn,
      Bool.true_or, Bool.false_eq_true, if_false, if_true]
    exact bitfieldType_small _ _ _ (by decide) (by decide)
  · have hclass := h.both (Diagram.matches_field h1)
    simp (disch := decide) only [decodeDpRegister, maskEq_conflict h, maskEq_conflict hclass,
      Bool.or_false, Bool.false_eq_true, if_false]
    decide
  · have hclass := h.both (Diagram.matches_field h2)
    simp (disch := decide) only [decodeDpRegister, maskEq_conflict h, maskEq_covered hclass, h2, hn,
      Bool.or_true, Bool.false_eq_true, if_false, if_true]
    exact bitfieldType_small _ _ _ (by decide) (by decide)
  · rw [h3] at ho
    cases ho

/-- The kinds of the data processing words with a 32-bit destination. -/
theorem decode_small (h : k.diagram.Matches op) (hr : k.narrowDest op r) :
    (decode op).instrType ∈ smallTypes ∨
      ((decode op).instrType = .crc32 ∧ op.extractLsb' 10 3 = 0) ∨
      ((decode op).instrType ∈ smallBitfieldTypes ∧ op.getLsbD 22 = false) := by
  obtain ⟨hop, hsf, -⟩ := hr
  by_cases hcarry : k = .addSubCarry
  · rw [hcarry] at h
    exact (decode_small_carry h).imp_right fun hcrc ↦ Or.inl ⟨hcrc, h.extractLsb' rfl⟩
  by_cases hproduct : k = .threeSource
  · rw [hproduct] at h hop
    apply Or.inl
    rw [decode_small_product h hsf hop]
    decide
  by_cases hfield : k = .bitfield
  · rw [hfield] at h hop
    exact Or.inr (Or.inr (decode_small_bitfield h hsf hop))
  · exact Or.inl (decode_small_plain h ⟨hcarry, hproduct, hfield⟩)

private theorem narrow_single : ∀ (size : BitVec 2) (v : Bool) (opc : BitVec 2),
    ∀ o ∈ LoadStore.single size v opc, o.narrow = true → opc.getLsbD 0 = true ∧ size ≠ 3 := by
  decide

private theorem narrow_literal : ∀ (opc : BitVec 2) (v : Bool),
    ∀ o ∈ LoadStore.literalOf opc v, o.narrow = true → opc.getLsbD 0 = false := by
  decide

private theorem narrow_pair : ∀ (opc : BitVec 2) (v load : Bool),
    ∀ o ∈ LoadStore.pairOf opc v load, o.narrow = true → load = true := by
  decide

/-- The kinds of the loads with a 32-bit destination. -/
theorem decode_narrowLoad {k : LoadStore} (h : k.diagram.Matches op) (hr : k.narrowDest op r) :
    (decode op).instrType = .unknown ∨ (decode op).instrType = .prfm ∨
      ((decode op).instrType = .ldrLiteral ∧ op.getLsbD 30 = false) ∨
      ((decode op).instrType = .ldr ∧ op.getLsbD 22 = true ∧ op.extractLsb' 30 2 ≠ 3) := by
  obtain ⟨-, o, ho, hnarrow, -⟩ := hr
  by_cases hsingle : k = .unscaled ∨ k = .unsignedOffset
  · have hload : op.getLsbD 22 = (op.extractLsb' 22 2).getLsbD 0 := bit_of_field 22 2 0 (by decide)
    have hop : k.operation op =
        LoadStore.single (op.extractLsb' 30 2) (op.getLsbD 26) (op.extractLsb' 22 2) := by
      rcases hsingle with rfl | rfl <;> rfl
    rw [hop] at ho
    obtain ⟨hbit, hsize⟩ := narrow_single _ _ _ o ho hnarrow
    have htype := (decode_single hsingle h).1
    rw [hload, hbit, if_pos rfl] at htype
    exact Or.inr (Or.inr (Or.inr ⟨htype, hload.trans hbit, hsize⟩))
  rw [not_or] at hsingle
  rw [decode_loadStore (LoadStore.group _ h)]
  by_cases hliteral : k = .literal
  · rw [hliteral] at h ho
    have hbit : op.getLsbD 30 = false :=
      (bit_of_field 30 2 0 (by decide)).trans (narrow_literal _ _ o ho hnarrow)
    simp (disch := decide) only [decodeLoadstore, maskEq_conflict h, Bool.or_false,
      Bool.false_eq_true, if_false]
    split
    · dsimp only
      split
      · exact Or.inr (Or.inr (Or.inl ⟨rfl, hbit⟩))
      · exact Or.inr (Or.inl rfl)
    · exact Or.inl rfl
  by_cases hpair : k = .pairPost ∨ k = .pairPre
  · -- the test for the pairs with write-back passes stores only
    have hop : k.operation op =
        LoadStore.pairOf (op.extractLsb' 30 2) (op.getLsbD 26) (op.getLsbD 22) := by
      rcases hpair with rfl | rfl <;> rfl
    rw [hop] at ho
    have hclass := h.bit 22 true (narrow_pair _ _ _ o ho hnarrow)
    apply Or.inl
    rcases hpair with rfl | rfl <;>
      simp (disch := decide) only [decodeLoadstore, maskEq_conflict h, maskEq_conflict hclass,
        Bool.or_false, Bool.false_eq_true, if_false]
  · rw [not_or] at hpair
    exact Or.inl (unknown_of_class h ⟨hsingle.1, hsingle.2, hliteral, hpair.1, hpair.2⟩)

private theorem vector_types : ∀ x : BitVec 6,
    (x.extractLsb' 0 5 = 0 → neonFpType x = .neonFadd) ∧
      (x.extractLsb' 0 5 = 5 ∨ x.extractLsb' 0 5 = 7 →
        neonIntType x = .neonAdd ∨ neonIntType x = .neonEor) := by
  decide

/-- The kinds of the moves from a vector register with a 32-bit destination. -/
theorem decode_toGeneral {k : ToGeneral} (h : k.diagram.Matches op) :
    (decode op).instrType = .neonFadd ∨ (decode op).instrType = .neonAdd ∨
      (decode op).instrType = .neonEor := by
  have hfield : (op.extractLsb' 11 6).extractLsb' 0 5 = op.extractLsb' 11 5 := by
    ext i hi
    simp only [BitVec.getElem_extractLsb', BitVec.getLsbD_extractLsb', Nat.zero_add, decide_eq_true_eq,
      Bool.and_eq_right_iff_imp]
    intro _
    omega
  obtain ⟨hfp, hint⟩ := vector_types (op.extractLsb' 11 6)
  rw [hfield] at hfp hint
  cases k with
  | convert =>
    simp (disch := decide) only [decode, decodeRest, maskEq_conflict h, maskEq_covered h,
      beq_conflict h, hfp (h.extractLsb' rfl), Bool.or_false, Bool.false_eq_true, if_false,
      if_true, Option.getD_none]
    exact Or.inl trivial
  | unsignedElement =>
    simp (disch := decide) only [decode, decodeRest, maskEq_conflict h, maskEq_covered h,
      beq_conflict h, Bool.or_false, Bool.false_eq_true, if_false, if_true, Option.getD_none]
    exact Or.inr (hint (Or.inr (h.extractLsb' rfl)))
  | signedElement =>
    simp (disch := decide) only [decode, decodeRest, maskEq_conflict h, maskEq_covered h,
      beq_conflict h, Bool.or_false, Bool.false_eq_true, if_false, if_true, Option.getD_none]
    exact Or.inr (hint (Or.inl (h.extractLsb' rfl)))

end Kinds

section Emitted

variable {env : Env} {t : TranslateCtx} {op : BitVec 32}

/-- Code that leaves the upper halves of the slots does not clear them. -/
theorem not_zeroExtends {r : A64.Reg} (hr : NarrowDest op r)
    (htype : (decode op).instrType.untranslated = false) (h : LeavesUpper (emittedFor env t op)) :
    ¬ ZeroExtends env t op := by
  intro hzero
  obtain ⟨undef, rest, m, m', hmem, hbase, hstart, hrun, hpos, hkeeps⟩ :=
    h 0 (fun _ ↦ some 0xff) fun _ ↦ rfl
  have hupper := (hzero r hr htype undef rest m m' hstart hrun hpos).1 4 (by decide) (by decide)
  rw [hbase, hkeeps r.toFin 4 (by decide) (by decide), hmem] at hupper
  have hbyte : some (0xff : Byte) = some 0 := hupper
  exact absurd hbyte (by decide)

variable (env t op) in
theorem leaves_straight {code : List Code} (h : ∀ undef rest, KeepsUpper undef rest code)
    (heq : translateOne env t (decode op).instrType op (decode op).imm = t.straight code) :
    LeavesUpper (emittedFor env t op) := by
  rw [emittedFor_straight heq]
  exact KeepsUpper.leaves fun undef rest _ ↦ h undef rest

variable (env op) in
theorem leaves_allocating {f : Alloc → Alloc × List Code} (h : LeavesUpper (f t.alloc).2)
    (heq : translateOne env t (decode op).instrType op (decode op).imm = t.allocating f) :
    LeavesUpper (emittedFor env t op) := by
  rw [emittedFor_allocating heq]
  exact h

/-- The code of the data processing kinds. -/
theorem leaves_small (ht : t.alloc.Pinned) (hpos : 3 ≤ t.alloc.freeRegCount) (hw : is64 op = false)
    (htype : (decode op).instrType ∈ smallTypes) (hne : (decode op).instrType ≠ .dataproc) :
    LeavesUpper (emittedFor env t op) := by
  have hlogical := leaves_allocating env op (f := fun a ↦ translateLogical a op)
    (logical_leaves ht hpos hw)
  have haddSub := leaves_allocating env op (f := fun a ↦ translateAddSub a op (op.getLsbD 29))
    (addSub_leaves _ ht hpos hw)
  have hmovImm := leaves_allocating env op (f := fun a ↦ translateMovImm a op)
    (KeepsUpper.leaves fun undef rest _ ↦ movImm_keepsUpper ht (by omega) hw)
  have hdiv : translateOne env t (decode op).instrType op (decode op).imm =
      t.straight (translateDiv op) → LeavesUpper (emittedFor env t op) := by
    intro heq
    rw [emittedFor_straight heq]
    exact div_leaves hw
  simp only [smallTypes, List.mem_cons, List.not_mem_nil, or_false] at htype
  rcases htype with h | h | h | h | h | h | h | h | h | h | h | h | h | h | h | h | h | h
  · exact hlogical (by rw [h]; rfl)
  · exact hlogical (by rw [h]; rfl)
  · exact hlogical (by rw [h]; rfl)
  · exact leaves_straight env t op (fun _ _ ↦ keepsUpper_orn hw) (by rw [h]; rfl)
  · exact haddSub (by rw [h]; rfl)
  · exact haddSub (by rw [h]; rfl)
  · exact leaves_straight env t op (fun _ _ ↦ keepsUpper_adc hw) (by rw [h]; rfl)
  · exact hdiv (by rw [h]; rfl)
  · exact hdiv (by rw [h]; rfl)
  · exact leaves_straight env t op (fun _ _ ↦ keepsUpper_mul hw) (by rw [h]; rfl)
  · exact leaves_straight env t op (fun _ _ ↦ keepsUpper_csel hw) (by rw [h]; rfl)
  · have heq : translateOne env t (decode op).instrType op (decode op).imm =
        t.straight (translateCcmn op) := by rw [h]; rfl
    rw [emittedFor_straight heq, translateCcmn, hw]
    apply conditionalCompare_leaves hw (by decide)
    exact fun _ _ ↦ keepsUpper_negRax.cons (keepsUpper_testRax _ (Or.inl rfl))
  · have heq : translateOne env t (decode op).instrType op (decode op).imm =
        t.straight (translateCcmp op) := by rw [h]; rfl
    rw [emittedFor_straight heq, translateCcmp]
    exact conditionalCompare_leaves hw (by decide) fun _ _ ↦ keepsUpper_testRax _ (Or.inl rfl)
  · exact leaves_straight env t op (fun _ _ ↦ keepsUpper_cset hw) (by rw [h]; rfl)
  · exact hmovImm (by rw [h]; rfl)
  · exact hmovImm (by rw [h]; rfl)
  · exact hmovImm (by rw [h]; rfl)
  · exact absurd h hne

/-- The code of the bitfield moves. -/
theorem leaves_smallBitfield (hw : is64 op = false) (hn : op.getLsbD 22 = false)
    (htype : (decode op).instrType ∈ smallBitfieldTypes) (hne : (decode op).instrType ≠ .dataproc) :
    LeavesUpper (emittedFor env t op) := by
  have hshift := leaves_straight env t op (fun _ _ ↦ keepsUpper_translateShift hn)
  have hextend : ∀ (signed : Bool) (width : Width), translateOne env t (decode op).instrType op
      (decode op).imm = t.straight (viaRax (armReg op 5) (armReg op 0) (is64 op)
        [if signed then emitMovsx width rax rax else emitMovzx width rax rax]) →
        LeavesUpper (emittedFor env t op) := by
    intro signed width
    rw [hw]
    exact leaves_straight env t op fun _ _ ↦ keepsUpper_extend _ _ signed width
  simp only [smallBitfieldTypes, List.mem_cons, List.not_mem_nil, or_false] at htype
  rcases htype with h | h | h | h | h | h | h | h | h | h
  · exact hshift (by rw [h]; rfl)
  · exact hshift (by rw [h]; rfl)
  · exact hshift (by rw [h]; rfl)
  · exact leaves_straight env t op (fun _ _ ↦ keepsUpper_sbfm hn) (by rw [h]; rfl)
  · exact leaves_straight env t op (fun _ _ ↦ keepsUpper_ubfm hn) (by rw [h]; rfl)
  · exact hextend true .byte (by rw [h]; rfl)
  · exact hextend true .half (by rw [h]; rfl)
  · exact hextend false .byte (by rw [h]; rfl)
  · exact hextend false .half (by rw [h]; rfl)
  · exact absurd h hne

theorem emittedFor_emit {code : List Code}
    (h : translateOne env t (decode op).instrType op (decode op).imm = t.emit code) :
    emittedFor env t op = code := by
  apply emittedFor_eq
  rw [h]
  rfl

/-- The code of the moves from a vector register. -/
theorem leaves_vector (htype : (decode op).instrType = .neonFadd ∨
    (decode op).instrType = .neonAdd ∨ (decode op).instrType = .neonEor) :
    LeavesUpper (emittedFor env t op) := by
  have hcode : ∀ {c : List Code}, translateOne env t (decode op).instrType op (decode op).imm =
      t.emit c → (∀ undef rest, (∀ m, rest .vector m = some m) → KeepsUpper undef rest c) →
        LeavesUpper (emittedFor env t op) := by
    intro c heq h
    rw [emittedFor_emit heq]
    exact KeepsUpper.leaves h
  rcases htype with h | h | h
  · refine hcode (c := translateNeonFadd env op) (by rw [h]; rfl) fun undef rest hrest ↦ ?_
    rw [translateNeonFadd]
    split
    · exact keepsUpper_vecOp hrest (by decide) _ _
    · exact keepsUpper_nil
  · refine hcode (c := translateNeonAdd env op) (by rw [h]; rfl) fun undef rest hrest ↦ ?_
    rw [translateNeonAdd, vecOp2]
    split
    · apply keepsUpper_vecOp hrest
      split <;> decide
    · exact keepsUpper_nil
  · refine hcode (c := translateNeonEor op) (by rw [h]; rfl) fun undef rest hrest ↦ ?_
    exact keepsUpper_vecOp hrest (by decide) _ _

/-- Whatever has a 32-bit destination and is translated leaves the upper halves of the slots. -/
theorem leaves_narrow (ht : t.alloc.Pinned) (hpos : 3 ≤ t.alloc.freeRegCount) {r : A64.Reg}
    (hr : NarrowDest op r) (htype : (decode op).instrType.untranslated = false) :
    LeavesUpper (emittedFor env t op) := by
  have hne : ∀ type : InstrType, type.untranslated = true → (decode op).instrType ≠ type := by
    intro type htrue heq
    rw [heq, htrue] at htype
    cases htype
  rcases hr with ⟨k, hk, hr⟩ | ⟨k, hk, hr⟩ | ⟨k, hk, -⟩
  · have hw : is64 op = false := hr.2.1
    rcases decode_small hk hr with h | ⟨h, hcrc⟩ | ⟨h, hn⟩
    · exact leaves_small ht hpos hw h (hne _ rfl)
    · exact leaves_straight env t op (fun _ _ ↦ keepsUpper_crc32 hw hcrc) (by rw [h]; rfl)
    · exact leaves_smallBitfield hw hn h (hne _ rfl)
  · rcases decode_narrowLoad hk hr with h | h | ⟨h, hsize⟩ | ⟨h, hload, hsize⟩
    · exact absurd h (hne _ rfl)
    · have heq : translateOne env t (decode op).instrType op (decode op).imm =
          t.straight (translatePrfm op) := by rw [h]; rfl
      rw [emittedFor_straight heq]
      exact KeepsUpper.leaves fun _ _ hrest ↦ keepsUpper_prfm hrest
    · exact leaves_straight env t op (fun _ _ ↦ keepsUpper_ldrLiteral hsize _) (by rw [h]; rfl)
    · exact leaves_straight env t op (fun _ _ ↦ keepsUpper_narrowLoad hload hsize _) (by rw [h]; rfl)
  · exact leaves_vector (decode_toGeneral hk)

end Emitted

section Exact

end Exact

end Arm2x86.Translate
