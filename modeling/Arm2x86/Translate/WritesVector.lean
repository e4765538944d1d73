import Arm2x86.Translate.Writes

/-!
# Which emitted vector instructions write `RBP`

The scalar floating-point translators never do. Of the vector ones the decoder selects two do: the
division, whose element extractions exchange their operands, and a multiplication with a misspelt
opcode.
-/

namespace Arm2x86.Translate

open X86

section Operands

/-- The opcodes of the vector instructions on two registers. -/
def vecOpcodes : List (List Byte) :=
  [[0x66, 0x0f, 0x58], [0x0f, 0x58], [0x66, 0x0f, 0x5c], [0x0f, 0x5c], [0x66, 0x0f, 0xd5],
    [0x66, 0x0f, 0xdb], [0x66, 0x0f, 0xeb], [0x66, 0x0f, 0xef], [0x66, 0x0f, 0x74],
    [0xf2, 0x0f, 0x12], [0x66, 0x0f, 0x6f], [0x66, 0x48, 0x0f, 0x6e], [0x66, 0x0f, 0x67],
    [0x66, 0x0f, 0x38, 0x2b], [0x66, 0x0f, 0x6b], [0x66, 0x0f, 0xfe], [0x66, 0x0f, 0xf3],
    [0x66, 0x0f, 0xe3], [0x66, 0x0f, 0x38, 0x40], [0x0f, 0x28], [0x66, 0x0f, 0x28], [0x0f, 0x59],
    [0x66, 0x0f, 0x59], [0x0f, 0x5f], [0x0f, 0x5d], [0x66, 0x0f, 0x5b], [0x0f, 0x5b],
    [0x66, 0x0f, 0x5a], [0x0f, 0x51], [0x0f, 0x53], [0x0f, 0x52], [0x0f, 0x57]]

/-- The opcodes of the vector instructions on two registers and an immediate byte. -/
def vecImmOpcodes : List (List Byte) :=
  [[0x66, 0x0f, 0x3a, 0x0f], [0x66, 0x0f, 0x70], [0xf3, 0x0f, 0x70], [0x66, 0x0f, 0x71],
    [0x66, 0x0f, 0x3a, 0x22], [0x66, 0x0f, 0x72], [0x66, 0x0f, 0x3a, 0x44], [0x66, 0x0f, 0xc2],
    [0x66, 0x0f, 0x3a, 0x20], [0x66, 0x0f, 0xc4]]

theorem writesRbp_vecOp {opcode : List Byte} (h : opcode ∈ vecOpcodes) (dest src : Byte) :
    writesRbp (vecOp opcode dest src) = false := by
  refine writesRbp_of_decode (i := .vector) ?_
  simp only [vecOpcodes, List.mem_cons, List.not_mem_nil, or_false] at h
  rcases h with rfl | rfl | rfl | rfl | rfl | rfl | rfl | rfl | rfl | rfl | rfl | rfl | rfl | rfl |
    rfl | rfl | rfl | rfl | rfl | rfl | rfl | rfl | rfl | rfl | rfl | rfl | rfl | rfl | rfl | rfl |
    rfl | rfl
  all_goals
    simp [vecOp, X86.decode, takePrefixes, decodeOpcode, decode0F, decode0F38, takeRm_modrm3]

theorem writesRbp_vecImm (opcode : List Byte) (h : opcode ∈ vecImmOpcodes) (dest src imm : Byte) :
    writesRbp (vecOp opcode dest src ++ [imm]) = false := by
  refine writesRbp_of_decode (i := .vector) ?_
  simp only [vecImmOpcodes, List.mem_cons, List.not_mem_nil, or_false] at h
  rcases h with rfl | rfl | rfl | rfl | rfl | rfl | rfl | rfl | rfl | rfl
  all_goals
    simp [vecOp, X86.decode, takePrefixes, decodeOpcode, decode0F, decode0F3A, takeRm_modrm3, take8]

/-- The opcodes of the vector instructions on a register and a slot. -/
def vecSlotOpcodes : List (List Byte) :=
  [[0x0f, 0x29], [0x0f, 0x28], [0x66, 0x0f, 0x28], [0x66, 0x0f, 0x56], [0x0f, 0x58],
    [0x66, 0x0f, 0x58], [0x0f, 0x5c], [0x66, 0x0f, 0x5c]]

/-- With the base 4 the displacement is read as further instructions, on memory and `AL`. -/
theorem writesRbp_vecSlot {opcode : List Byte} (h : opcode ∈ vecSlotOpcodes) (reg : Byte)
    {base disp : Byte} (hb : base ∈ ([4, 5] : List Byte)) (hd : disp ∈ ([0, 0x10, 0x20] : List Byte)) :
    writesRbp (vecSlot opcode reg base disp) = false := by
  have key : ∀ o ∈ vecSlotOpcodes, ∀ b ∈ ([4, 5] : List Byte), ∀ d ∈ ([0, 0x10, 0x20] : List Byte),
      ∀ r : BitVec 3,
        writesRbp (o ++ [modrm 0 (r.setWidth 8) 4, sib 0 4 b, d, 0x00, 0x00, 0x00]) = false := by
    decide +kernel
  rw [vecSlot, and_seven]
  exact key opcode h base hb disp hd _

end Operands

section Vector

variable (env : Env) (op : BitVec 32)

@[simp] theorem keeps_load_xmm0 (r : ArmReg) (double : Bool) :
    keeps (emitLoadArmRegFp r xmm0 double) := by cases double <;> rfl

@[simp] theorem keeps_load_xmm1 (r : ArmReg) (double : Bool) :
    keeps (emitLoadArmRegFp r xmm1 double) := by cases double <;> rfl

@[simp] theorem keeps_load_xmm2 (r : ArmReg) (double : Bool) :
    keeps (emitLoadArmRegFp r xmm2 double) := by cases double <;> rfl

@[simp] theorem keeps_store_xmm0 (r : ArmReg) (double : Bool) :
    keeps (emitStoreArmRegFp xmm0 r double) := by cases double <;> rfl

theorem keeps_fpBinary {opcode : Byte} (h : opcode ∈ ([0x58, 0x5c, 0x59, 0x5e] : List Byte)) :
    keeps (fpBinary opcode op) := by
  have hop : ∀ o ∈ ([0x58, 0x5c, 0x59, 0x5e] : List Byte), ∀ d : Bool,
      writesRbp (scalarOp d o xmm0 xmm1) = false := by decide
  simp [fpBinary, hop opcode h]

@[simp] theorem keeps_translateFadd : keeps (translateFadd op) := keeps_fpBinary op (by decide)

@[simp] theorem keeps_translateFsub : keeps (translateFsub op) := keeps_fpBinary op (by decide)

@[simp] theorem keeps_translateFmul : keeps (translateFmul op) := keeps_fpBinary op (by decide)

@[simp] theorem keeps_translateFdiv : keeps (translateFdiv op) := keeps_fpBinary op (by decide)

@[simp] theorem keeps_translateFcmp : keeps (translateFcmp op) := by
  simp [translateFcmp]
  rfl

@[simp] theorem keeps_translateFcvt : keeps (translateFcvt op) := by
  have hup : writesRbp (emitCvtss2sd xmm0 xmm0) = false := rfl
  have hdown : writesRbp (emitCvtsd2ss xmm0 xmm0) = false := rfl
  simp only [translateFcvt]
  repeat' split
  all_goals simp [hup, hdown]

@[simp] theorem keeps_translateFmovImm : keeps (translateFmovImm env op) := by
  simp only [translateFmovImm, keeps_append, keeps_store_xmm0]
  cases isDouble op <;> rfl

@[simp] theorem keeps_translateFsqrt : keeps (translateFsqrt op) := by
  have hop : ∀ d : Bool, writesRbp (scalarOp d 0x51#8 xmm0 xmm0) = false := by decide
  simp [translateFsqrt, hop]

theorem keeps_fpMask (mask mask32 : BitVec 64) {opcode : Byte}
    (h : opcode ∈ ([0x21, 0x31] : List Byte)) :
    keeps (fpMask mask mask32 (regReg opcode) op) := by
  simp only [List.mem_cons, List.not_mem_nil, or_false] at h
  simp only [fpMask, keeps_append, keeps_load_xmm0, keeps_store_xmm0]
  rcases h with rfl | rfl <;> cases isDouble op <;> rfl

@[simp] theorem keeps_translateFabs : keeps (translateFabs op) := keeps_fpMask op _ _ (by decide)

@[simp] theorem keeps_translateFneg : keeps (translateFneg op) := keeps_fpMask op _ _ (by decide)

theorem keeps_fpMulAcc {opcode : Byte} (h : opcode ∈ ([0x58, 0x5c] : List Byte)) :
    keeps (fpMulAcc opcode op) := by
  simp only [List.mem_cons, List.not_mem_nil, or_false] at h
  simp only [fpMulAcc, keeps_append, keeps_load_xmm0, keeps_load_xmm1, keeps_load_xmm2,
    keeps_store_xmm0]
  rcases h with rfl | rfl <;> cases isDouble op <;> rfl

@[simp] theorem keeps_translateFmadd : keeps (translateFmadd op) := keeps_fpMulAcc op (by decide)

@[simp] theorem keeps_translateFmsub : keeps (translateFmsub op) := keeps_fpMulAcc op (by decide)

@[simp] theorem keeps_translateFcsel : keeps (translateFcsel op) := by
  simp only [translateFcsel]
  split
  · simp
  · split
    · simp
    · next h _ =>
      have hcc : (condAt op ^^^ 1) &&& 0xf0 = 0x80 := condAt_inverted (by simpa [condAt] using h)
      simp only [keeps_append, keeps_jccOver hcc, keeps_load_xmm0, keeps_store_xmm0, Bool.and_true]

theorem keeps_fpNegMulAcc {opcode : Byte} (h : opcode ∈ ([0x58, 0x5c] : List Byte)) :
    keeps (fpNegMulAcc opcode op) := by
  simp only [List.mem_cons, List.not_mem_nil, or_false] at h
  simp only [fpNegMulAcc, keeps_append, keeps_load_xmm0, keeps_load_xmm1, keeps_load_xmm2,
    keeps_store_xmm0]
  rcases h with rfl | rfl <;> cases isDouble op <;> rfl

@[simp] theorem keeps_translateFnmadd : keeps (translateFnmadd op) := keeps_fpNegMulAcc op (by decide)

@[simp] theorem keeps_translateFnmsub : keeps (translateFnmsub op) := keeps_fpNegMulAcc op (by decide)

theorem keeps_cryptoOp {opcode : Byte} (h : opcode ∈ ([0xdb, 0xde, 0xdc] : List Byte)) :
    keeps (cryptoOp opcode op) := by
  have hop : ∀ o ∈ ([0xdb, 0xde, 0xdc] : List Byte),
      writesRbp [0x66#8, 0x0f#8, 0x38#8, o, modrm 3#8 (xmm0 &&& 7#8) (xmm0 &&& 7#8)] = false := by decide
  simp [cryptoOp, hop opcode h]

@[simp] theorem keeps_translateAese : keeps (translateAese op) := keeps_cryptoOp op (by decide)

@[simp] theorem keeps_translateAesd : keeps (translateAesd op) := keeps_cryptoOp op (by decide)

@[simp] theorem keeps_translateAesmc : keeps (translateAesmc op) := keeps_cryptoOp op (by decide)

@[simp] theorem keeps_translateAesimc : keeps (translateAesimc op) := keeps_cryptoOp op (by decide)

@[simp] theorem keeps_translateSha256 : keeps (translateSha256 op) := by
  simp only [translateSha256, keeps_append, keeps_load_xmm0]
  split <;> rfl

end Vector

section Neon

variable (env : Env) (op : BitVec 32)

theorem keeps_vecOp {opcode : List Byte} (h : opcode ∈ vecOpcodes) (dest src : Byte) :
    keeps [vecOp opcode dest src] := by
  rw [keeps_cons, writesRbp_vecOp h]
  rfl

theorem keeps_vecImm {opcode : List Byte} (h : opcode ∈ vecImmOpcodes) (dest src imm : Byte) :
    keeps [vecOp opcode dest src ++ [imm]] := by
  rw [keeps_cons, writesRbp_vecImm opcode h]
  rfl

theorem keeps_vecSlot {opcode : List Byte} (h : opcode ∈ vecSlotOpcodes) (reg : Byte)
    {base disp : Byte} (hb : base ∈ ([4, 5] : List Byte)) (hd : disp ∈ ([0, 0x10, 0x20] : List Byte)) :
    keeps [vecSlot opcode reg base disp] := by
  rw [keeps_cons, writesRbp_vecSlot h reg hb hd]
  rfl

/-- Instructions that keep `RBP` one by one keep it together. -/
theorem keeps_cons_of {c : Code} {code : List Code} (hc : keeps [c]) (h : keeps code) :
    keeps (c :: code) := by
  rw [← List.singleton_append, keeps_append, hc, h]
  rfl

@[simp] theorem keeps_translateNeonAdd : keeps (translateNeonAdd env op) := by
  simp only [translateNeonAdd, vecOp2]
  split
  · cases op.getLsbD 30 <;> exact keeps_vecOp (by decide) _ _
  · rfl

@[simp] theorem keeps_translateNeonSub : keeps (translateNeonSub op) := by
  simp only [translateNeonSub, vecOp2]
  cases op.getLsbD 30 <;> exact keeps_vecOp (by decide) _ _

@[simp] theorem keeps_translateNeonAnd : keeps (translateNeonAnd op) := keeps_vecOp (by decide) _ _

@[simp] theorem keeps_translateNeonOrr : keeps (translateNeonOrr op) := keeps_vecOp (by decide) _ _

@[simp] theorem keeps_translateNeonEor : keeps (translateNeonEor op) := keeps_vecOp (by decide) _ _

@[simp] theorem keeps_translateNeonBsl : keeps (translateNeonBsl op) :=
  keeps_cons_of rfl <|
  keeps_cons_of (keeps_vecSlot (by decide) _ (by decide) (by decide)) <|
  keeps_cons_of (keeps_vecSlot (by decide) _ (by decide) (by decide)) <|
  keeps_cons_of (keeps_vecOp (by decide) _ _) <|
  keeps_cons_of (keeps_vecSlot (by decide) _ (by decide) (by decide)) <|
  keeps_cons_of (keeps_vecSlot (by decide) _ (by decide) (by decide)) <|
  keeps_cons_of (keeps_vecOp (by decide) _ _) <|
  keeps_cons_of (keeps_vecOp (by decide) _ _) <|
  keeps_cons_of (keeps_vecOp (by decide) _ _) <|
  keeps_cons_of (keeps_vecOp (by decide) _ _) <|
  keeps_cons_of (keeps_vecSlot (by decide) _ (by decide) (by decide)) rfl

@[simp] theorem keeps_translateNeonExt : keeps (translateNeonExt op) := keeps_vecImm (by decide) _ _ _

@[simp] theorem keeps_translateNeonDup : keeps (translateNeonDup op) := by
  simp only [translateNeonDup]
  split
  · exact keeps_vecImm (by decide) _ _ _
  · split
    · exact keeps_vecOp (by decide) _ _
    · split
      · exact keeps_vecImm (by decide) _ _ _
      · exact keeps_vecOp (by decide) _ _

@[simp] theorem keeps_translateNeonMovi : keeps (translateNeonMovi op) := by
  refine keeps_cons_of rfl (keeps_cons_of (keeps_vecOp (by decide) _ _) ?_)
  split
  · exact keeps_vecImm (by decide) _ _ _
  · rfl

theorem keeps_neonShift (ext dest src shift : Byte) : keeps (neonShift ext dest src shift) :=
  keeps_cons_of (keeps_vecOp (by decide) _ _) (keeps_vecImm (by decide) _ _ _)

@[simp] theorem keeps_translateNeonShl : keeps (translateNeonShl op) := keeps_neonShift _ _ _ _

@[simp] theorem keeps_translateNeonShr : keeps (translateNeonShr op) := keeps_neonShift _ _ _ _

@[simp] theorem keeps_translateNeonIns : keeps (translateNeonIns op) := keeps_vecImm (by decide) _ _ _

theorem keeps_neonShiftAcc {shift : List Code} (h : keeps shift) : keeps (neonShiftAcc shift op) := by
  have hpre : keeps [[0x48, 0x83, 0xec, 0x10], vecSlot [0x0f, 0x29] (vn op) 5 0x00] :=
    keeps_cons_of rfl (keeps_vecSlot (by decide) _ (by decide) (by decide))
  have hpost : keeps [vecOp [0x66, 0x0f, 0xfe] (vd op) (vn op), [0x48, 0x83, 0xc4, 0x10]] :=
    keeps_cons_of (keeps_vecOp (by decide) _ _) rfl
  rw [neonShiftAcc, keeps_append, keeps_append, hpre, h, hpost]
  rfl

@[simp] theorem keeps_translateNeonUsra : keeps (translateNeonUsra op) :=
  keeps_neonShiftAcc op (keeps_neonShift _ _ _ _)

@[simp] theorem keeps_translateNeonSsra : keeps (translateNeonSsra op) :=
  keeps_neonShiftAcc op (keeps_vecImm (by decide) _ _ _)

@[simp] theorem keeps_translateNeonUshl : keeps (translateNeonUshl op) := keeps_vecOp (by decide) _ _

@[simp] theorem keeps_translateNeonSshl : keeps (translateNeonSshl op) := keeps_vecOp (by decide) _ _

theorem keeps_neonMull : keeps (neonMull op) := by
  unfold neonMull
  split <;> exact keeps_vecOp (by decide) _ _

@[simp] theorem keeps_translateNeonUmull : keeps (translateNeonUmull op) := keeps_neonMull op

@[simp] theorem keeps_translateNeonSmull : keeps (translateNeonSmull op) := keeps_neonMull op

@[simp] theorem keeps_translateNeonPmul : keeps (translateNeonPmul op) := keeps_vecImm (by decide) _ _ _

@[simp] theorem keeps_translateNeonFadd : keeps (translateNeonFadd env op) := by
  unfold translateNeonFadd
  split
  · exact keeps_vecOp (by decide) _ _
  · rfl

@[simp] theorem keeps_translateNeonFsub : keeps (translateNeonFsub op) := keeps_vecOp (by decide) _ _

@[simp] theorem keeps_translateNeonFmul : keeps (translateNeonFmul op) :=
  keeps_cons_of (keeps_vecOp (by decide) _ _) (keeps_vecOp (by decide) _ _)

@[simp] theorem keeps_translateNeonFmax : keeps (translateNeonFmax op) := keeps_vecOp (by decide) _ _

@[simp] theorem keeps_translateNeonFmin : keeps (translateNeonFmin op) := keeps_vecOp (by decide) _ _

@[simp] theorem keeps_translateNeonFcvt : keeps (translateNeonFcvt op) := by
  simp only [translateNeonFcvt]
  split
  · exact keeps_vecOp (by decide) _ _
  · split <;> exact keeps_vecOp (by decide) _ _

@[simp] theorem keeps_translateNeonFsqrt : keeps (translateNeonFsqrt op) := keeps_vecOp (by decide) _ _

@[simp] theorem keeps_translateNeonFrecpe : keeps (translateNeonFrecpe op) := keeps_vecOp (by decide) _ _

@[simp] theorem keeps_translateNeonFrsqrte : keeps (translateNeonFrsqrte op) :=
  keeps_vecOp (by decide) _ _

@[simp] theorem keeps_translateNeonFmla : keeps (translateNeonFmla op) := by
  simp only [translateNeonFmla, vecOp2]
  cases isDouble op <;>
    exact keeps_cons_of rfl <|
      keeps_cons_of (keeps_vecSlot (by decide) _ (by decide) (by decide)) <|
      keeps_cons_of (keeps_vecOp (by decide) _ _) <|
      keeps_cons_of (keeps_vecOp (by decide) _ _) <|
      keeps_cons_of (keeps_vecSlot (by decide) _ (by decide) (by decide)) rfl

@[simp] theorem keeps_translateNeonFmls : keeps (translateNeonFmls op) := by
  simp only [translateNeonFmls, vecOp2]
  cases isDouble op <;>
    exact keeps_cons_of rfl <|
      keeps_cons_of (keeps_vecSlot (by decide) _ (by decide) (by decide)) <|
      keeps_cons_of rfl <|
      keeps_cons_of (keeps_vecOp (by decide) _ _) <|
      keeps_cons_of (keeps_vecOp (by decide) _ _) <|
      keeps_cons_of (keeps_vecSlot (by decide) _ (by decide) (by decide)) <|
      keeps_cons_of (keeps_vecSlot (by decide) _ (by decide) (by decide)) <|
      keeps_cons_of (keeps_vecSlot (by decide) _ (by decide) (by decide)) rfl

@[simp] theorem keeps_translateNeonFabs : keeps (translateNeonFabs op) := keeps_vecOp (by decide) _ _

@[simp] theorem keeps_translateNeonFneg : keeps (translateNeonFneg op) := keeps_vecOp (by decide) _ _

@[simp] theorem keeps_translateNeonFcmp : keeps (translateNeonFcmp op) := keeps_vecImm (by decide) _ _ _

/-- The misspelt multiplication is a conditional move to `DX` and a stray byte, which is `LEAVE`
for one pair of operands. -/
theorem keeps_translateNeonMul :
    keeps (translateNeonMul op) =
      !(op.extractLsb' 22 2 == (2 : BitVec 2) && vd op &&& 7 == 1 && vm op &&& 7 == 1) := by
  have key : ∀ d m : BitVec 3,
      keeps [[0x66, 0x0f, 0x40, 0xd5, modrm 3 (d.setWidth 8) (m.setWidth 8)]] =
        !(d.setWidth 8 == (1 : Byte) && m.setWidth 8 == (1 : Byte)) := by decide
  unfold translateNeonMul
  split
  · next h =>
    rw [h, Bool.true_and, and_seven (vd op), and_seven (vm op), ← key,
      ← and_seven, ← and_seven]
    rfl
  · next h =>
    rw [Bool.eq_false_of_not_eq_true h]
    exact keeps_vecOp (by decide) _ _

private theorem writesRbp_of_none {c : Code} (h : X86.decode c = none) : writesRbp c = false := by
  unfold writesRbp
  cases c with
  | nil => rfl
  | cons b c =>
    rw [List.length_cons, sweep, h]
    rfl

/-- The extraction writes the general register with the number of the vector register; for 64-bit
elements its bytes are no instruction. -/
theorem writesRbp_divExtract (size : BitVec 2) (reg xmm i : Byte) :
    writesRbp (divExtract size reg xmm i) = (size != 3 && xmm &&& 7 == 5) := by
  have hreg : ∀ b : Byte,
      [gpr false ((b &&& 7#8).setWidth 3)].contains 5 = (b &&& 7 == 5) := by decide
  have hsize : ∀ s : BitVec 2, s = 0 ∨ s = 1 ∨ s = 2 ∨ s = 3 := by decide
  by_cases h3 : size = 3
  · subst h3
    refine writesRbp_of_none ?_
    simp [divExtract, X86.decode, takePrefixes, decodeOpcode, decode0F, decode0F3A, takeRm_modrm3,
      take8, Prefixes.none]
  · have hdec : X86.decode (divExtract size reg xmm i) =
        some (.vectorTo (.reg (gpr false ((xmm &&& 7#8).setWidth 3))), []) := by
      rcases hsize size with rfl | rfl | rfl | rfl
      · simp [divExtract, X86.decode, takePrefixes, decodeOpcode, decode0F, decode0F3A,
          takeRm_modrm3, take8, Prefixes.none, Prefixes.b]
      · simp [divExtract, X86.decode, takePrefixes, decodeOpcode, decode0F, decode0F3A,
          takeRm_modrm3, take8, Prefixes.none, Prefixes.b]
      · simp [divExtract, X86.decode, takePrefixes, decodeOpcode, decode0F, decode0F3A,
          takeRm_modrm3, take8, Prefixes.none, Prefixes.b]
      · exact absurd rfl h3
    rw [writesRbp_of_decode hdec, Instr.dests, Loc.gprs, hreg, bne_iff_ne.mpr h3, Bool.true_and]

theorem keeps_neonDivElement (signed : Bool) (size : BitVec 2) (xvd xvn xvm i : Byte) :
    keeps (neonDivElement signed size xvd xvn xvm i) =
      !(size != 3 && (xvn &&& 7 == 5 || xvm &&& 7 == 5)) := by
  have hsize : ∀ s : BitVec 2, s = 0 ∨ s = 1 ∨ s = 2 ∨ s = 3 := by decide
  have hins : writesRbp
      (if size == 0 then [0x66, 0x0f, 0x3a, 0x20, modrm 3 (xvd &&& 7) 0, i]
      else if size == 1 then [0x66, 0x0f, 0xc4, modrm 3 (xvd &&& 7) 0, i]
      else if size == 2 then [0x66, 0x0f, 0x3a, 0x22, modrm 3 (xvd &&& 7) 0, i]
      else [0x66, 0x0f, 0x3a, 0x22, 0x48, modrm 3 (xvd &&& 7) 0, i]) = false := by
    rcases hsize size with rfl | rfl | rfl | rfl
    · exact writesRbp_vecImm [0x66, 0x0f, 0x3a, 0x20] (by decide) xvd 0 i
    · exact writesRbp_vecImm [0x66, 0x0f, 0xc4] (by decide) xvd 0 i
    · exact writesRbp_vecImm [0x66, 0x0f, 0x3a, 0x22] (by decide) xvd 0 i
    · rfl
  simp only [neonDivElement, keeps_append, keeps_cons, writesRbp_divExtract, hins]
  generalize (xvn &&& 7 == 5) = a
  generalize (xvm &&& 7 == 5) = b
  rcases hsize size with rfl | rfl | rfl | rfl <;> cases signed <;> cases a <;> cases b <;> rfl

/-- The division keeps `RBP` unless it extracts from a vector register numbered like it. -/
theorem keeps_translateNeonDiv :
    keeps (translateNeonDiv op) =
      !(op.extractLsb' 20 2 != (3 : BitVec 2) && (vn op &&& 7 == 5 || vm op &&& 7 == 5)) := by
  simp only [translateNeonDiv, keeps_append]
  rw [keeps_flatMap (fun i ↦ keeps_neonDivElement _ _ _ _ _ _)]
  · exact Bool.and_true _
  · intro h
    have hlen := congrArg List.length h
    rw [List.length_range] at hlen
    split at hlen <;> [cases hlen; (split at hlen <;> [cases hlen; (split at hlen <;> cases hlen)])]

end Neon

end Arm2x86.Translate
