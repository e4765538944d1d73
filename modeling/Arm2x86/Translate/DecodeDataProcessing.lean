import Arm2x86.A64.DataProcessing
import Arm2x86.Translate.DecodeMasks

/-!
# Decoded data processing

What the decoder makes of the integer instructions on registers and immediates. Every class falls
through to `decode_dp_register` but `ADC`, which the test for `CRC32` takes before.
-/

namespace Arm2x86.Translate

open A64 (DataProcessing Processing)

/-- The kinds that name an operation: its own, and those of the aliases it fits. -/
def typesOf : Processing → List InstrType
  | .and => [.and]
  | .bic => [.bic]
  | .orr => [.orr]
  | .orn => [.orn]
  | .eor => [.eor]
  | .add => [.add]
  | .sub => [.sub]
  | .adc => [.adc]
  | .sbc => [.sbc]
  | .udiv => [.udiv]
  | .sdiv => [.sdiv]
  | .lslv => [.lsl]
  | .lsrv => [.lsr]
  | .asrv => [.asr]
  | .rorv => [.ror]
  | .crc32 castagnoli => [if castagnoli then .crc32c else .crc32]
  | .rbit => [.rbit]
  | .rev => [.rev]
  | .clz => [.clz]
  | .madd ra => if ra = 31 then [.madd, .mul] else [.madd]
  | .msub _ => [.msub]
  | .smulh => [.smulh]
  | .umulh => [.umulh]
  | .csel => [.csel]
  | .csinc rn rm =>
    if rn = 31 ∧ rm = 31 then [.csinc, .cset] else if rn = rm then [.csinc, .cinc] else [.csinc]
  | .csinv rn rm => if rn = rm then [.csinv, .cinv] else [.csinv]
  | .csneg rn rm => if rn = rm then [.csneg, .cneg] else [.csneg]
  | .ccmn => [.ccmn]
  | .ccmp => [.ccmp]
  | .sbfm sf immr imms =>
    .sbfm :: (if imms = (if sf then 63 else 31) then [.asr] else [])
      ++ (if immr = 0 ∧ imms = 7 then [.sxtb] else [])
      ++ (if immr = 0 ∧ imms = 15 then [.sxth] else [])
      ++ (if immr = 0 ∧ imms = 31 then [.sxtw] else [])
  | .ubfm sf immr imms =>
    .ubfm :: (if imms = (if sf then 63 else 31) then [.lsr] else [])
      ++ (if imms + 1 = immr then [.lsl] else [])
      ++ (if immr = 0 ∧ imms = 7 then [.uxtb] else [])
      ++ (if immr = 0 ∧ imms = 15 then [.uxth] else [])
      ++ (if immr = 0 ∧ imms = 31 then [.uxtw] else [])
  | .extr => [.extr]
  | .movn => [.movn]
  | .movz => [.movz]
  | .movk => [.movk]
  | .eon | .ands | .bics | .adds | .subs | .adcs | .sbcs | .rev16 | .rev32 | .cls | .bfm => []

/-- A decoded instruction has the operands of a word of a class. -/
@[mk_iff]
structure HasDataOperands (k : DataProcessing) (op : BitVec 32) (d : DecodedInstruction) :
    Prop where
  rd : ∀ r ∈ k.rd op, d.rd = r
  rn : ∀ r ∈ k.rn op, d.rn = r
  rm : ∀ r ∈ k.rm op, d.rm = r
  imm : ∀ x ∈ k.imm op, d.imm.setWidth 64 = x
  amount : ∀ n ∈ k.amount op, d.shiftImm = n
  width : d.is64bit = op.getLsbD 31

/-- A decoded instruction is none that the translator translates, or the operation with its
operands. -/
def NamesProcessing (k : DataProcessing) (op : BitVec 32) (o : Processing)
    (d : DecodedInstruction) : Prop :=
  d.instrType = .dataproc ∨ d.instrType = .unknown ∨
    d.instrType ∈ typesOf o ∧ HasDataOperands k op d

/-- A data processing instruction is decoded to the operation it is or to no operation. -/
def DataProcessingDecoded (op : BitVec 32) (d : DecodedInstruction) : Prop :=
  ∀ k : DataProcessing, k.diagram.Matches op → ∀ o ∈ k.operation op, NamesProcessing k op o d

/-- When an instruction of a class is decoded as it should be. -/
def dataProcessingExact (k : DataProcessing) (op : BitVec 32) : Prop :=
  let sf := op.getLsbD 31
  let opc := op.extractLsb' 29 2
  let immr := op.extractLsb' 16 6
  let imms := op.extractLsb' 10 6
  match k with
  | .logicalShifted => op.extractLsb' 21 3 = 0 → opc = 0
  | .addSubShifted =>
    op.extractLsb' 22 2 = 0 → op.getLsbD 29 = false ∧ (sf = true → op.getLsbD 30 = true)
  | .twoSource => imms = 2
  | .threeSource =>
    op.getLsbD 23 = false →
      op.extractLsb' 21 3 = 0 ∧ op.getLsbD 15 = false ∧ (sf = true ∨ op.extractLsb' 10 5 = 31)
  | .condSelect =>
    op.extractLsb' 12 5 ∈ [0, 2, 4, 8] →
      op.extractLsb' 12 5 = 0 ∧ op.getLsbD 30 = false ∧ op.getLsbD 10 = false
  | .bitfield =>
    sf = false →
      (opc = 0 → (immr = 0 → imms = 31) ∧ immr ≠ 31) ∧ (opc = 2 → immr = 0 → imms = 31)
  | .condCompare | .extract | .moveWide => True
  | .addSubCarry | .oneSource | .logicalImmediate => False

variable {op : BitVec 32}

section Group

variable {k : DataProcessing} {o : Processing} {d : DecodedInstruction}

/-- All classes but one reach `decode_dp_register`. -/
theorem decode_dataProcessing (hk : k ≠ .addSubCarry) (h : k.diagram.Matches op) :
    decode op = decodeDpRegister op := by
  cases k <;> first
    | contradiction
    | simp (disch := decide) only [decode, decodeRest, maskEq_conflict h, beq_conflict h,
        Bool.or_false, Bool.false_eq_true, if_false, Option.getD_none]

theorem namesProcessing_dataproc (h : d.instrType = .dataproc) : NamesProcessing k op o d :=
  Or.inl h

theorem namesProcessing_iff {t : InstrType} (ht : d.instrType = t)
    (h : t ≠ .dataproc ∧ t ≠ .unknown) :
    NamesProcessing k op o d ↔ t ∈ typesOf o ∧ HasDataOperands k op d := by
  rw [NamesProcessing, ht, or_iff_right h.1, or_iff_right h.2]

end Group

section Shifted

private theorem logical_table : ∀ opc : BitVec 2,
    let t := if opc == 0 then InstrType.and else if opc == 1 then .bic
      else if opc == 2 then .orr else .orn
    (t ≠ .dataproc ∧ t ≠ .unknown) ∧
      (t ∈ typesOf (DataProcessing.logicalOf opc false) ↔ opc = 0) := by
  decide

theorem logicalShifted_iff {o : Processing} (h : DataProcessing.logicalShifted.diagram.Matches op)
    (ho : DataProcessing.logicalShifted.operation op = some o) :
    NamesProcessing .logicalShifted op o (decode op) ↔ dataProcessingExact .logicalShifted op := by
  rw [decode_dataProcessing (by decide) h]
  by_cases hmask : maskEq op 0x1fe00000 0x0a000000 = true
  · have hclass := maskEq_iff.mp hmask
    have hplain : op.extractLsb' 21 3 = 0 := hclass.extractLsb' rfl
    simp only [DataProcessing.operation, hclass.bit_false (i := 21) rfl rfl,
      Option.ite_none_right_eq_some, Option.some.injEq] at ho
    have htable := logical_table (op.extractLsb' 29 2)
    simp only [decodeDpRegister, hmask, if_true]
    rw [namesProcessing_iff rfl htable.1, ← ho.2, htable.2]
    simp only [dataProcessingExact, hplain, forall_const, and_iff_left_iff_imp]
    intro _
    simp only [hasDataOperands_iff, DataProcessing.rd, DataProcessing.rn, DataProcessing.rm,
      DataProcessing.imm, DataProcessing.amount, Option.mem_def, Option.some.injEq, forall_eq',
      reduceCtorEq, false_implies, implies_true, regAt, and_self]
  · have hexact : dataProcessingExact .logicalShifted op := by
      intro hplain
      have hbits : Diagram.Matches ⟨0x1fe00000, 0x0a000000⟩ op :=
        (h.both (Diagram.matches_field hplain)).covered rfl rfl
      exact absurd (maskEq_iff.mpr hbits) hmask
    rw [iff_true_right hexact]
    apply namesProcessing_dataproc
    simp (disch := decide) only [decodeDpRegister, maskEq_conflict h, hmask, Bool.or_false,
      Bool.false_eq_true, if_false]

private theorem addSub_table : ∀ (top : BitVec 2) (setFlags : Bool),
    let t := if top == 0 then InstrType.add else .sub
    (t ≠ .dataproc ∧ t ≠ .unknown) ∧
      (t ∈ typesOf (DataProcessing.addSubOf (top.getLsbD 0) setFlags) ↔
        setFlags = false ∧ (top.getLsbD 1 = true → top.getLsbD 0 = true)) := by
  decide

theorem addSubShifted_iff {o : Processing} (h : DataProcessing.addSubShifted.diagram.Matches op)
    (ho : DataProcessing.addSubShifted.operation op = some o) :
    NamesProcessing .addSubShifted op o (decode op) ↔ dataProcessingExact .addSubShifted op := by
  rw [decode_dataProcessing (by decide) h]
  by_cases hmask : maskEq op 0x1fe00000 0x0b000000 = true
  · have hplain : op.extractLsb' 22 2 = 0 := (maskEq_iff.mp hmask).extractLsb' rfl
    have htop : op.getLsbD 31 = (op.extractLsb' 30 2).getLsbD 1 := bit_of_field 30 2 1 (by decide)
    have hlow : op.getLsbD 30 = (op.extractLsb' 30 2).getLsbD 0 := bit_of_field 30 2 0 (by decide)
    have htable := addSub_table (op.extractLsb' 30 2) (op.getLsbD 29)
    simp only [DataProcessing.operation, Option.ite_none_right_eq_some, Option.some.injEq] at ho
    simp (disch := decide) only [decodeDpRegister, maskEq_conflict h, hmask, Bool.false_eq_true,
      if_false, if_true]
    rw [namesProcessing_iff rfl htable.1, ← ho.2, hlow, htable.2]
    simp only [dataProcessingExact, hplain, forall_const, hlow, htop, and_iff_left_iff_imp]
    intro _
    simp only [hasDataOperands_iff, DataProcessing.rd, DataProcessing.rn, DataProcessing.rm,
      DataProcessing.imm, DataProcessing.amount, Option.mem_def, Option.some.injEq, forall_eq',
      reduceCtorEq, false_implies, implies_true, regAt, htop, and_self]
  · have hexact : dataProcessingExact .addSubShifted op := by
      intro hplain
      have hbits : Diagram.Matches ⟨0x1fe00000, 0x0b000000⟩ op :=
        (h.both (Diagram.matches_field hplain)).covered rfl rfl
      exact absurd (maskEq_iff.mpr hbits) hmask
    rw [iff_true_right hexact]
    apply namesProcessing_dataproc
    simp (disch := decide) only [decodeDpRegister, maskEq_conflict h, hmask, Bool.or_false,
      Bool.false_eq_true, if_false]

end Shifted

section Products

private theorem threeSource_table : ∀ (sf : Bool) (op31 : BitVec 3) (o0 : Bool) (ra : A64.Reg),
    let t := if sf then InstrType.madd else if !op31.getLsbD 1 then .mul
      else if op31.getLsbD 0 then .smulh else .umulh
    (t ≠ .dataproc ∧ t ≠ .unknown) ∧
      (op31.getLsbD 2 = false → ∀ o ∈ DataProcessing.threeSourceOf sf op31 o0 ra,
        (t ∈ typesOf o ↔ op31 = 0 ∧ o0 = false ∧ (sf = true ∨ ra = 31))) := by
  decide +kernel

private theorem twoSource_table : ∀ (sf : Bool) (opcode : BitVec 6),
    let t := if opcode.getLsbD 1 then InstrType.udiv else .sdiv
    (t ≠ .dataproc ∧ t ≠ .unknown) ∧
      ∀ o ∈ DataProcessing.twoSourceOf sf opcode, (t ∈ typesOf o ↔ opcode = 2) := by
  decide

private theorem oneSource_table : ∀ (sf : Bool) (opcode : BitVec 6),
    let t := if opcode.getLsbD 1 then InstrType.udiv else .sdiv
    (t ≠ .dataproc ∧ t ≠ .unknown) ∧
      ∀ o ∈ DataProcessing.oneSourceOf sf opcode, t ∉ typesOf o := by
  decide

/-- The decoder takes one bit of the opcode for it. -/
theorem twoSource_iff {o : Processing} (h : DataProcessing.twoSource.diagram.Matches op)
    (ho : DataProcessing.twoSource.operation op = some o) :
    NamesProcessing .twoSource op o (decode op) ↔ dataProcessingExact .twoSource op := by
  have hbit : op.getLsbD 11 = (op.extractLsb' 10 6).getLsbD 1 := bit_of_field 10 6 1 (by decide)
  have htable := twoSource_table (op.getLsbD 31) (op.extractLsb' 10 6)
  rw [decode_dataProcessing (by decide) h]
  simp (disch := decide) only [decodeDpRegister, maskEq_conflict h, maskEq_covered h, hbit,
    Bool.false_eq_true, if_false, if_true]
  rw [namesProcessing_iff rfl htable.1, htable.2 o ho]
  simp only [dataProcessingExact, and_iff_left_iff_imp]
  intro _
  simp only [hasDataOperands_iff, DataProcessing.rd, DataProcessing.rn, DataProcessing.rm,
    DataProcessing.imm, DataProcessing.amount, Option.mem_def, Option.some.injEq, forall_eq',
    reduceCtorEq, false_implies, implies_true, regAt, and_self]

/-- The bit that tells one source from two is not tested. -/
theorem oneSource_iff {o : Processing} (h : DataProcessing.oneSource.diagram.Matches op)
    (ho : DataProcessing.oneSource.operation op = some o) :
    NamesProcessing .oneSource op o (decode op) ↔ dataProcessingExact .oneSource op := by
  have hbit : op.getLsbD 11 = (op.extractLsb' 10 6).getLsbD 1 := bit_of_field 10 6 1 (by decide)
  have htable := oneSource_table (op.getLsbD 31) (op.extractLsb' 10 6)
  rw [decode_dataProcessing (by decide) h]
  simp (disch := decide) only [decodeDpRegister, maskEq_conflict h, maskEq_covered h, hbit,
    Bool.false_eq_true, if_false, if_true]
  rw [namesProcessing_iff rfl htable.1]
  exact iff_of_false (fun hnames ↦ htable.2 o ho hnames.1) not_false

theorem threeSource_iff {o : Processing} (h : DataProcessing.threeSource.diagram.Matches op)
    (ho : DataProcessing.threeSource.operation op = some o) :
    NamesProcessing .threeSource op o (decode op) ↔ dataProcessingExact .threeSource op := by
  have h23 : op.getLsbD 23 = (op.extractLsb' 21 3).getLsbD 2 := bit_of_field 21 3 2 (by decide)
  have h22 : op.getLsbD 22 = (op.extractLsb' 21 3).getLsbD 1 := bit_of_field 21 3 1 (by decide)
  have h21 : op.getLsbD 21 = (op.extractLsb' 21 3).getLsbD 0 := bit_of_field 21 3 0 (by decide)
  have htable := threeSource_table (op.getLsbD 31) (op.extractLsb' 21 3) (op.getLsbD 15)
    (op.extractLsb' 10 5)
  rw [decode_dataProcessing (by decide) h]
  by_cases hmask : maskEq op 0x1f800000 0x1b000000 = true
  · have hlow : op.getLsbD 23 = false := (maskEq_iff.mp hmask).bit_false rfl rfl
    simp (disch := decide) only [decodeDpRegister, maskEq_conflict h, hmask, h22, h21,
      Bool.false_eq_true, if_false, if_true]
    rw [namesProcessing_iff rfl htable.1, htable.2 (h23 ▸ hlow) o ho]
    simp only [dataProcessingExact, hlow, forall_const, and_iff_left_iff_imp]
    intro _
    simp only [hasDataOperands_iff, DataProcessing.rd, DataProcessing.rn, DataProcessing.rm,
      DataProcessing.imm, DataProcessing.amount, Option.mem_def, Option.some.injEq, forall_eq',
      reduceCtorEq, false_implies, implies_true, regAt, and_self]
  · have hexact : dataProcessingExact .threeSource op := by
      intro hlow
      have hbits : Diagram.Matches ⟨0x1f800000, 0x1b000000⟩ op :=
        (h.bit 23 false hlow).covered rfl rfl
      exact absurd (maskEq_iff.mpr hbits) hmask
    rw [iff_true_right hexact]
    apply namesProcessing_dataproc
    simp (disch := decide) only [decodeDpRegister, maskEq_conflict h, hmask, Bool.or_false,
      Bool.false_eq_true, if_false]

/-- `ADC` is taken for `CRC32`, and every other sum with carry for `ADC`. -/
theorem addSubCarry_iff {o : Processing} (h : DataProcessing.addSubCarry.diagram.Matches op)
    (ho : DataProcessing.addSubCarry.operation op = some o) :
    NamesProcessing .addSubCarry op o (decode op) ↔ dataProcessingExact .addSubCarry op := by
  have hcrc : op.extractLsb' 10 3 = 0 := h.extractLsb' rfl
  refine iff_of_false ?_ not_false
  simp only [DataProcessing.operation] at ho
  by_cases hmask : maskEq op 0x7fe0fc00 0x1a000000 = true
  · have h30 : op.getLsbD 30 = false := (maskEq_iff.mp hmask).bit_false rfl rfl
    have h29 : op.getLsbD 29 = false := (maskEq_iff.mp hmask).bit_false rfl rfl
    rw [h30, h29] at ho
    have htype : (decode op).instrType = .crc32 := by
      simp (disch := decide) only [decode, decodeRest, maskEq_conflict h, beq_conflict h, hmask,
        hcrc, Bool.or_false, Bool.false_eq_true, if_false, if_true, Option.getD_none]
      rfl
    rw [namesProcessing_iff htype (by decide), ← Option.some.inj ho]
    intro hnames
    exact absurd hnames.1 (by decide)
  · have htype : (decode op).instrType = .adc := by
      simp (disch := decide) only [decode, decodeRest, decodeDpRegister, maskEq_conflict h,
        maskEq_covered h, beq_conflict h, hmask, Bool.or_false, Bool.false_eq_true, if_false,
        if_true, Option.getD_none]
    rw [namesProcessing_iff htype (by decide)]
    intro hnames
    cases h30 : op.getLsbD 30 <;> cases h29 : op.getLsbD 29 <;> rw [h30, h29] at ho <;>
      rw [← Option.some.inj ho] at hnames
    · exact hmask (maskEq_iff.mpr (((h.bit 30 false h30).bit 29 false h29).covered rfl rfl))
    all_goals exact absurd hnames.1 (by decide)

end Products

section Selects

private theorem condSelect_types (negate inc : Bool) (rn rm : A64.Reg) :
    let o := DataProcessing.condSelectOf negate inc rn rm
    (InstrType.csel ∈ typesOf o ↔ negate = false ∧ inc = false) ∧
      InstrType.ccmn ∉ typesOf o ∧ InstrType.ccmp ∉ typesOf o ∧
      (rm ≠ 31 → InstrType.cset ∉ typesOf o) := by
  cases negate <;> cases inc
  · simp [DataProcessing.condSelectOf, typesOf]
  · by_cases hset : rn = 31#5 ∧ rm = 31#5
    · simp [DataProcessing.condSelectOf, typesOf, hset]
    · by_cases heq : rn = rm
      · have hne : rm ≠ 31#5 := fun hrm ↦ hset ⟨heq.trans hrm, hrm⟩
        simp [DataProcessing.condSelectOf, typesOf, heq, hne]
      · simp [DataProcessing.condSelectOf, typesOf, hset, heq]
  · by_cases heq : rn = rm <;> simp [DataProcessing.condSelectOf, typesOf, heq]
  · by_cases heq : rn = rm <;> simp [DataProcessing.condSelectOf, typesOf, heq]

/-- The condition and the low bit of the second source choose the kind. -/
theorem condSelect_iff {o : Processing} (h : DataProcessing.condSelect.diagram.Matches op)
    (ho : DataProcessing.condSelect.operation op = some o) :
    NamesProcessing .condSelect op o (decode op) ↔ dataProcessingExact .condSelect op := by
  obtain ⟨hcsel, hccmn, hccmp, hcset⟩ := condSelect_types (op.getLsbD 30) (op.getLsbD 10)
    (op.extractLsb' 5 5) (op.extractLsb' 16 5)
  rw [← Option.some.inj ho, decode_dataProcessing (by decide) h]
  simp (disch := decide) only [decodeDpRegister, maskEq_conflict h, maskEq_covered h,
    Bool.false_eq_true, if_false, if_true, dataProcessingExact]
  by_cases h0 : op.extractLsb' 12 5 = 0
  · rw [h0]
    simp only [beq_self_eq_true, if_true]
    rw [namesProcessing_iff (t := .csel) rfl (by decide), hcsel]
    simp only [List.mem_cons, true_or, forall_const, true_and, and_iff_left_iff_imp]
    intro _
    simp only [hasDataOperands_iff, DataProcessing.rd, DataProcessing.rn, DataProcessing.rm,
      DataProcessing.imm, DataProcessing.amount, Option.mem_def, Option.some.injEq, forall_eq',
      reduceCtorEq, false_implies, implies_true, regAt, and_self]
  by_cases hmem : op.extractLsb' 12 5 ∈ [0, 2, 4, 8]
  · refine iff_of_false ?_ fun hexact ↦ h0 (hexact hmem).1
    simp only [List.mem_cons, h0, List.not_mem_nil, or_false, false_or] at hmem
    rcases hmem with h2 | h4 | h8
    · rw [h2, namesProcessing_iff (t := .ccmn) rfl (by decide)]
      exact fun hnames ↦ hccmn hnames.1
    · rw [h4, namesProcessing_iff (t := .ccmp) rfl (by decide)]
      exact fun hnames ↦ hccmp hnames.1
    · -- the second source of `CSET` is the zero register, whose number is odd
      have hodd : op.extractLsb' 16 5 ≠ 31 := by
        intro hrm
        have hlow := congrArg (fun x ↦ x.getLsbD 0) hrm
        have hhigh := congrArg (fun x ↦ x.getLsbD 4) h8
        simp only [← bit_of_field 16 5 0 (by decide), ← bit_of_field 12 5 4 (by decide)] at hlow hhigh
        rw [hlow] at hhigh
        revert hhigh
        decide
      rw [h8, namesProcessing_iff (t := .cset) rfl (by decide)]
      exact fun hnames ↦ hcset hodd hnames.1
  · refine iff_of_true (namesProcessing_dataproc ?_) fun hin ↦ absurd hin hmem
    simp only [List.mem_cons, not_or] at hmem
    simp only [beq_eq_false_iff_ne.mpr hmem.1, beq_eq_false_iff_ne.mpr hmem.2.1,
      beq_eq_false_iff_ne.mpr hmem.2.2.1, beq_eq_false_iff_ne.mpr hmem.2.2.2.1,
      Bool.false_eq_true, if_false]

theorem condCompare_iff {o : Processing} (h : DataProcessing.condCompare.diagram.Matches op) :
    NamesProcessing .condCompare op o (decode op) ↔ dataProcessingExact .condCompare op := by
  refine iff_of_true (namesProcessing_dataproc ?_) trivial
  rw [decode_dataProcessing (by decide) h]
  simp (disch := decide) only [decodeDpRegister, maskEq_conflict h, Bool.or_false,
    Bool.false_eq_true, if_false]

end Selects

section Fields

private theorem sbfm_types (sf : Bool) (immr imms : BitVec 6) :
    let t := bitfieldType sf 0 imms immr
    (t ≠ .dataproc ∧ t ≠ .unknown) ∧ (t ∈ typesOf (.sbfm sf immr imms) ↔
      (sf = false → (immr = 0 → imms = 31) ∧ immr ≠ 31)) := by
  cases sf
  · by_cases h0 : immr = 0#6
    · simp [bitfieldType, typesOf, h0]
    · by_cases h31 : immr = 31#6 <;> simp [bitfieldType, typesOf, h0, h31]
  · by_cases h0 : immr = 0#6
    · by_cases h7 : imms = 7#6
      · simp [bitfieldType, typesOf, h0, h7]
      · by_cases h15 : imms = 15#6 <;> simp [bitfieldType, typesOf, h0, h7, h15]
    · simp [bitfieldType, typesOf, h0]

private theorem ubfm_types (sf : Bool) (immr imms : BitVec 6) :
    let t := bitfieldType sf 2 imms immr
    (t ≠ .dataproc ∧ t ≠ .unknown) ∧ (t ∈ typesOf (.ubfm sf immr imms) ↔
      (sf = false → immr = 0 → imms = 31)) := by
  cases sf
  · by_cases h0 : immr = 0#6 <;> simp [bitfieldType, typesOf, h0]
  · by_cases h0 : immr = 0#6
    · by_cases h7 : imms = 7#6
      · simp [bitfieldType, typesOf, h0, h7]
      · by_cases h15 : imms = 15#6 <;> simp [bitfieldType, typesOf, h0, h7, h15]
    · simp [bitfieldType, typesOf, h0]

theorem bitfield_iff {o : Processing} (h : DataProcessing.bitfield.diagram.Matches op)
    (ho : DataProcessing.bitfield.operation op = some o) :
    NamesProcessing .bitfield op o (decode op) ↔ dataProcessingExact .bitfield op := by
  have hcases : ∀ x : BitVec 2, x = 0 ∨ x = 1 ∨ x = 2 ∨ x = 3 := by decide
  simp only [DataProcessing.operation, DataProcessing.bitfieldOf,
    Option.ite_none_right_eq_some] at ho
  obtain ⟨⟨hn, -⟩, ho⟩ := ho
  rw [decode_dataProcessing (by decide) h]
  rcases hcases (op.extractLsb' 29 2) with h0 | h1 | h2 | h3
  · have hclass := h.both (Diagram.matches_field h0)
    obtain ⟨htype, hnames⟩ := sbfm_types (op.getLsbD 31) (op.extractLsb' 16 6) (op.extractLsb' 10 6)
    rw [h0] at ho
    simp (disch := decide) only [decodeDpRegister, maskEq_conflict h, maskEq_covered hclass, h0, hn,
      Bool.true_or, Bool.false_eq_true, if_false, if_true]
    rw [namesProcessing_iff rfl htype, ← Option.some.inj ho, hnames]
    simp [dataProcessingExact, h0, hasDataOperands_iff, DataProcessing.rd, DataProcessing.rn,
      DataProcessing.rm, DataProcessing.imm, DataProcessing.amount, regAt]
  · have hclass := h.both (Diagram.matches_field h1)
    refine iff_of_true (namesProcessing_dataproc ?_) ?_
    · simp (disch := decide) only [decodeDpRegister, maskEq_conflict h, maskEq_conflict hclass,
        Bool.or_false, Bool.false_eq_true, if_false]
    · simp [dataProcessingExact, h1]
  · have hclass := h.both (Diagram.matches_field h2)
    obtain ⟨htype, hnames⟩ := ubfm_types (op.getLsbD 31) (op.extractLsb' 16 6) (op.extractLsb' 10 6)
    rw [h2] at ho
    simp (disch := decide) only [decodeDpRegister, maskEq_conflict h, maskEq_covered hclass, h2, hn,
      Bool.or_true, Bool.false_eq_true, if_false, if_true]
    rw [namesProcessing_iff rfl htype, ← Option.some.inj ho, hnames]
    simp [dataProcessingExact, h2, hasDataOperands_iff, DataProcessing.rd, DataProcessing.rn,
      DataProcessing.rm, DataProcessing.imm, DataProcessing.amount, regAt]
  · rw [h3] at ho
    cases ho

theorem extract_iff {o : Processing} (h : DataProcessing.extract.diagram.Matches op) :
    NamesProcessing .extract op o (decode op) ↔ dataProcessingExact .extract op := by
  refine iff_of_true (namesProcessing_dataproc ?_) trivial
  rw [decode_dataProcessing (by decide) h]
  simp (disch := decide) only [decodeDpRegister, maskEq_conflict h, Bool.or_false,
    Bool.false_eq_true, if_false]

private theorem logicalImmediate_table : ∀ opc : BitVec 2,
    let t := if opc == 0 then InstrType.and else if opc == 1 then .bic
      else if opc == 2 then .orr else .orn
    (t ≠ .dataproc ∧ t ≠ .unknown) ∧
      (t ∈ typesOf (DataProcessing.logicalImmediateOf opc) ↔ opc = 0) := by
  decide

/-- A logical immediate is not zero, in the 32 bits of the small form either. -/
private theorem logicalImmediate_ne {x : BitVec 64} (hsize : op.getLsbD 31 = true ∨
    op.getLsbD 22 = false) (hx : DataProcessing.logicalImmediate.imm op = some x) : x ≠ 0 := by
  obtain ⟨i, hi, hbit⟩ := A64.exists_bitMask_getLsbD (op.getLsbD 22) (op.extractLsb' 16 6)
    (op.extractLsb' 10 6)
  have hle := A64.maskLength_le (op.getLsbD 22) (op.extractLsb' 10 6)
  simp only [DataProcessing.imm, Option.some.injEq] at hx
  intro h0
  rw [h0] at hx
  cases hsf : op.getLsbD 31
  · have h22 : op.getLsbD 22 = false := hsize.resolve_left (by rw [hsf]; decide)
    rw [hsf, h22] at hx
    rw [h22] at hle hi hbit
    have h32 : i < 32 := by
      have hpow : 2 ^ A64.maskLength false (op.extractLsb' 10 6) ≤ 2 ^ 5 :=
        Nat.pow_le_pow_right (by decide) hle
      omega
    have hlow := congrArg (fun y ↦ y.getLsbD i) hx
    have h64 : i < 64 := by omega
    simp only [Bool.false_eq_true, if_false, BitVec.getLsbD_setWidth, h32, h64, decide_true,
      Bool.true_and, hbit] at hlow
    exact absurd hlow (by simp)
  · rw [hsf] at hx
    simp only [if_true] at hx
    rw [hx] at hbit
    simp at hbit

/-- The mask is not decoded, nor are the other operations told from the register forms. -/
theorem logicalImmediate_iff {o : Processing}
    (h : DataProcessing.logicalImmediate.diagram.Matches op)
    (ho : DataProcessing.logicalImmediate.operation op = some o) :
    NamesProcessing .logicalImmediate op o (decode op) ↔
      dataProcessingExact .logicalImmediate op := by
  obtain ⟨htype, hnames⟩ := logicalImmediate_table (op.extractLsb' 29 2)
  simp only [DataProcessing.operation, Option.ite_none_right_eq_some, Option.some.injEq] at ho
  refine iff_of_false ?_ not_false
  rw [decode_dataProcessing (by decide) h]
  simp (disch := decide) only [decodeDpRegister, maskEq_conflict h, maskEq_covered h, Bool.or_false,
    Bool.true_or, Bool.false_eq_true, if_false, if_true]
  rw [namesProcessing_iff rfl htype]
  intro hop
  exact logicalImmediate_ne ho.1.1 rfl (hop.2.imm _ rfl).symm

private theorem moveWide_table : ∀ opc : BitVec 2, ∀ o ∈ DataProcessing.moveWideOf opc,
    let t := if opc == 0 then InstrType.movn else if opc == 2 then .movz else .movk
    (opc == 1) = false ∧ (t ≠ .dataproc ∧ t ≠ .unknown) ∧ t ∈ typesOf o := by
  decide

/-- Only the wide moves to the lowest place are translated. -/
theorem moveWide_iff {o : Processing} (h : DataProcessing.moveWide.diagram.Matches op)
    (ho : DataProcessing.moveWide.operation op = some o) :
    NamesProcessing .moveWide op o (decode op) ↔ dataProcessingExact .moveWide op := by
  refine iff_of_true ?_ trivial
  simp only [DataProcessing.operation, Option.ite_none_right_eq_some] at ho
  obtain ⟨hne, htype, hmem⟩ := moveWide_table _ o ho.2
  rw [decode_dataProcessing (by decide) h]
  by_cases hmask : (maskEq op 0xffe00000 0xd2800000 || maskEq op 0xffe00000 0x92800000
      || maskEq op 0xffe00000 0xf2800000 || maskEq op 0xffe00000 0x52800000
      || maskEq op 0xffe00000 0x12800000 || maskEq op 0xffe00000 0x72800000) = true
  · simp (disch := decide) only [decodeDpRegister, maskEq_conflict h, hmask, hne, Bool.or_false,
      Bool.false_eq_true, if_false, if_true]
    rw [namesProcessing_iff rfl htype]
    refine ⟨hmem, ?_⟩
    simp [hasDataOperands_iff, DataProcessing.rd, DataProcessing.rn, DataProcessing.rm,
      DataProcessing.imm, DataProcessing.amount, regAt]
  · apply namesProcessing_dataproc
    simp (disch := decide) only [decodeDpRegister, maskEq_conflict h, hmask, Bool.or_false,
      Bool.false_eq_true, if_false]

end Fields

section Words

/-- The words of a class that are decoded as they should be. -/
theorem namesProcessing_class_iff {k : DataProcessing} {o : Processing} (h : k.diagram.Matches op)
    (ho : k.operation op = some o) :
    NamesProcessing k op o (decode op) ↔ dataProcessingExact k op := by
  cases k with
  | logicalShifted => exact logicalShifted_iff h ho
  | addSubShifted => exact addSubShifted_iff h ho
  | addSubCarry => exact addSubCarry_iff h ho
  | twoSource => exact twoSource_iff h ho
  | oneSource => exact oneSource_iff h ho
  | threeSource => exact threeSource_iff h ho
  | condSelect => exact condSelect_iff h ho
  | condCompare => exact condCompare_iff h
  | bitfield => exact bitfield_iff h ho
  | extract => exact extract_iff h
  | logicalImmediate => exact logicalImmediate_iff h ho
  | moveWide => exact moveWide_iff h ho

/-- A data processing instruction is decoded as it should be exactly when its class and its fields
are of those that are. -/
theorem dataProcessingDecoded_iff (op : BitVec 32) :
    DataProcessingDecoded op (decode op) ↔
      ∀ k : DataProcessing, k.diagram.Matches op → (k.operation op).isSome →
        dataProcessingExact k op := by
  constructor
  · intro h k hk hsome
    obtain ⟨o, ho⟩ := Option.isSome_iff_exists.mp hsome
    exact (namesProcessing_class_iff hk ho).mp (h k hk o ho)
  · intro h k hk o ho
    exact (namesProcessing_class_iff hk ho).mpr (h k hk (Option.isSome_iff_exists.mpr ⟨o, ho⟩))

/-- `ADD X0, X1, X2` is decoded as a subtraction. -/
theorem add_decoded_sub : ¬ DataProcessingDecoded 0x8b020020 (decode 0x8b020020) := by
  intro h
  have hnames := h .addSubShifted (by decide) .add (by decide)
  rw [namesProcessing_iff (t := .sub) (by decide) (by decide)] at hnames
  exact absurd hnames.1 (by decide)

end Words

end Arm2x86.Translate
