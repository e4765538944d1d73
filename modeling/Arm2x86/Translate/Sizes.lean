import Arm2x86.Translate.Block

/-!
# The sizes of emitted code

How many bytes the translators without the allocator emit. The longest code of all is that of a
division of sixteen lanes; of the others, that of a system call.
-/

namespace Arm2x86.Translate

open X86

/-- The number of bytes of some instructions. -/
def size (code : List Code) : Nat := code.flatten.length

section Instructions

variable (dest src : Byte)

@[simp] theorem size_nil : size [] = 0 := rfl

@[simp] theorem size_cons (c : Code) (code : List Code) : size (c :: code) = c.length + size code :=
  List.length_append

@[simp] theorem size_append (code code' : List Code) : size (code ++ code') = size code + size code' := by
  simp [size]

@[simp] theorem size_ite (p : Prop) [Decidable p] (code code' : List Code) :
    size (if p then code else code') = if p then size code else size code' :=
  apply_ite size p code code'

@[simp] theorem length_ite (p : Prop) [Decidable p] (c c' : Code) :
    (if p then c else c').length = if p then c.length else c'.length :=
  apply_ite List.length p c c'

theorem size_flatMap_range_le (f : Nat → List Code) (n bound : Nat) (h : ∀ i, size (f i) ≤ bound) :
    size ((List.range n).flatMap f) ≤ n * bound := by
  induction n with
  | zero => simp
  | succ n ih =>
    have hlast := h n
    rw [List.range_succ, List.flatMap_append, size_append, List.flatMap_singleton, Nat.succ_mul]
    omega

@[simp] theorem length_imm32 (v : BitVec 32) : (imm32 v).length = 4 := rfl

@[simp] theorem length_imm64 (v : BitVec 64) : (imm64 v).length = 8 := rfl

@[simp] theorem length_regReg (opcode : Byte) : (regReg opcode dest src).length = 3 := rfl

@[simp] theorem length_movR64R64 : (movR64R64 dest src).length = 3 := rfl

@[simp] theorem length_addR64R64 : (addR64R64 dest src).length = 3 := rfl

@[simp] theorem length_subR64R64 : (subR64R64 dest src).length = 3 := rfl

@[simp] theorem length_andR64R64 : (andR64R64 dest src).length = 3 := rfl

@[simp] theorem length_orR64R64 : (orR64R64 dest src).length = 3 := rfl

@[simp] theorem length_xorR64R64 : (xorR64R64 dest src).length = 3 := rfl

@[simp] theorem length_testR64R64 : (testR64R64 dest src).length = 3 := rfl

@[simp] theorem length_cmpR64R64 : (cmpR64R64 dest src).length = 3 := rfl

@[simp] theorem length_imulR64R64 : (imulR64R64 dest src).length = 4 := rfl

@[simp] theorem length_movzxR64R8 : (movzxR64R8 dest src).length = 4 := rfl

@[simp] theorem length_addR64Imm8 : (addR64Imm8 dest src).length = 4 := rfl

@[simp] theorem length_shlR64Imm8 : (shlR64Imm8 dest src).length = 4 := rfl

@[simp] theorem length_shrR64Imm8 : (shrR64Imm8 dest src).length = 4 := rfl

@[simp] theorem length_sarR64Imm8 : (sarR64Imm8 dest src).length = 4 := rfl

@[simp] theorem length_notR64 : (notR64 dest).length = 3 := rfl

@[simp] theorem length_divR64 : (divR64 dest).length = 3 := rfl

@[simp] theorem length_idivR64 : (idivR64 dest).length = 3 := rfl

@[simp] theorem length_emitCqo : emitCqo.length = 2 := rfl

@[simp] theorem length_emitMfence : emitMfence.length = 3 := rfl

@[simp] theorem length_emitLfence : emitLfence.length = 3 := rfl

@[simp] theorem length_emitBswap : (emitBswap dest).length = 3 := rfl

@[simp] theorem length_emitMovsx (w : Width) : (emitMovsx w dest src).length = 4 := rfl

@[simp] theorem length_emitMovzx (w : Width) : (emitMovzx w dest src).length = 4 := rfl

@[simp] theorem length_emitMovsxd : (emitMovsxd dest src).length = 3 := rfl

@[simp] theorem length_movR64Imm (v : BitVec 64) : (movR64Imm dest v).length = 10 := rfl

@[simp] theorem length_sseOp (pre opcode : Byte) : (sseOp pre opcode dest src).length = 4 := rfl

@[simp] theorem length_emitMulsdXmmXmm : (emitMulsdXmmXmm dest src).length = 4 := rfl

@[simp] theorem length_emitCvtss2sd : (emitCvtss2sd dest src).length = 4 := rfl

@[simp] theorem length_emitCvtsd2ss : (emitCvtsd2ss dest src).length = 4 := rfl

@[simp] theorem length_comisdXmmXmm : (comisdXmmXmm dest src).length = 4 := rfl

@[simp] theorem length_emitLoadArmReg (r : ArmReg) (w : Bool) :
    (emitLoadArmReg r dest w).length = if w then 7 else 6 := by
  cases w <;> rfl

@[simp] theorem length_emitStoreArmReg (r : ArmReg) (w : Bool) :
    (emitStoreArmReg src r w).length = if w then 7 else 6 := by
  cases w <;> rfl

@[simp] theorem length_unaryRax (w : Bool) (ext : Byte) :
    (unaryRax w ext).length = if w then 3 else 2 := by
  cases w <;> rfl

@[simp] theorem length_rorRax (amount : Byte) : (rorRax amount).length = 4 := rfl

@[simp] theorem length_groupRax (ext : Byte) (v : BitVec 32) : (groupRax ext v).length = 8 := rfl

@[simp] theorem length_jmpOver (body : List Code) : (jmpOver body).length = 5 := rfl

/-- The displacement of an access takes five bytes at most. -/
theorem length_emitModrmDisp_le (disp : BitVec 32) : (emitModrmDisp dest src disp).length ≤ 5 := by
  simp only [emitModrmDisp, length_ite]
  split_ifs <;> simp

end Instructions

section Integer

variable (op : BitVec 32) (rn rm rd : ArmReg) (w : Bool) (body : List Code)

@[simp] theorem size_viaRax : size (viaRax rn rd w body) = (if w then 14 else 12) + size body := by
  cases w <;> simp [viaRax] <;> omega

@[simp] theorem size_loadPair : size (loadPair rn rm w) = if w then 14 else 12 := by
  cases w <;> rfl

@[simp] theorem size_viaRaxR11 :
    size (viaRaxR11 rn rm rd w body) = (if w then 21 else 18) + size body := by
  cases w <;> simp [viaRaxR11] <;> omega

@[simp] theorem size_jccOver (opcode : Byte) : size (jccOver opcode body) = 6 + size body := by
  simp [jccOver]

@[simp] theorem size_shiftAndMask {shift : Byte → Byte → Code} (h : ∀ r v, (shift r v).length = 4) :
    size (shiftAndMask shift op) = 17 := by
  simp [shiftAndMask, h]

@[simp] theorem size_insertField {mask : BitVec 64} {shift : Byte → Byte → Code}
    (h : ∀ r v, (shift r v).length = 4) :
    size (insertField op mask shift) = if is64 op then 54 else 51 := by
  cases hw : is64 op <;> simp [insertField, h, hw]

/-- The path through the stack is longer by the flags that it sets. -/
theorem size_setNzcv_le (nzcv : BitVec 4) : size (setNzcv nzcv) ≤ 18 := by
  simp only [setNzcv, size_append, size_ite]
  split_ifs <;> simp

theorem size_conditionalCompare_le (compare : List Code) :
    size (conditionalCompare op compare) ≤ 36 + size compare := by
  have hpath := size_setNzcv_le (op.extractLsb' 0 4)
  have hload : (emitLoadArmReg (armReg op 5) rax (is64 op)).length ≤ 7 := by
    rw [length_emitLoadArmReg]
    split_ifs <;> omega
  simp only [conditionalCompare, size_append, size_jccOver, size_cons, size_nil, length_jmpOver]
  omega

theorem size_rbitStage (mask : BitVec 64) (k : Byte) : size (rbitStage mask k) = 30 := by
  simp [rbitStage]

end Integer

section Vectors

variable (op : BitVec 32) (double : Bool) (dest src : Byte)

@[simp] theorem length_movVector (dir : Byte) :
    (movVector dir double dest src).length = if double then 5 else 4 := by
  cases double <;> rfl

@[simp] theorem size_emitLoadArmRegFp (r : ArmReg) :
    size (emitLoadArmRegFp r dest double) = if double then 12 else 11 := by
  cases double <;> rfl

@[simp] theorem size_emitStoreArmRegFp (r : ArmReg) :
    size (emitStoreArmRegFp src r double) = if double then 12 else 11 := by
  cases double <;> rfl

@[simp] theorem length_scalarOp (opcode : Byte) : (scalarOp double opcode dest src).length = 4 := by
  cases double <;> rfl

@[simp] theorem size_emitNegsd : size (emitNegsd dest) = 18 := rfl

@[simp] theorem size_fpBinary (opcode : Byte) :
    size (fpBinary opcode op) = if isDouble op then 40 else 37 := by
  cases h : isDouble op <;> simp [fpBinary, h]

@[simp] theorem size_cryptoOp (opcode : Byte) : size (cryptoOp opcode op) = 29 := by
  simp [cryptoOp]

@[simp] theorem length_vecOp (opcode : List Byte) : (vecOp opcode dest src).length = opcode.length + 1 := by
  simp [vecOp]

@[simp] theorem length_vecOp2 (opcode : Byte) :
    (vecOp2 double opcode dest src).length = if double then 4 else 3 := by
  cases double <;> rfl

@[simp] theorem length_neonAnd : (neonAnd dest src).length = 4 := rfl

@[simp] theorem length_vecSlot (opcode : List Byte) (base disp : Byte) :
    (vecSlot opcode dest base disp).length = opcode.length + 6 := by
  simp [vecSlot]

@[simp] theorem size_neonShift (ext shift : Byte) : size (neonShift ext dest src shift) = 9 := rfl

@[simp] theorem length_divExtract (lane : BitVec 2) (i : Byte) :
    (divExtract lane dest src i).length = 6 := rfl

/-- One lane of a division. -/
theorem size_neonDivElement_le (signed : Bool) (lane : BitVec 2) (xvd xvn xvm i : Byte) :
    size (neonDivElement signed lane xvd xvn xvm i) ≤ if lane = 0 then 40 else 47 := by
  simp only [neonDivElement, size_cons, size_append, size_ite, length_ite, beq_iff_eq]
  split_ifs <;> simp_all

end Vectors

section IntegerTranslators

variable (op : BitVec 32)

theorem size_translateCmp_le : size (translateCmp op) ≤ 149 := by
  simp [translateCmp]
  split_ifs <;> omega

theorem size_translateAdc_le : size (translateAdc op) ≤ 149 := by
  simp [translateAdc]
  split_ifs <;> omega

theorem size_translateSbc_le : size (translateSbc op) ≤ 149 := by
  simp [translateSbc]
  split_ifs <;> omega

theorem size_translateNeg_le : size (translateNeg op) ≤ 149 := by
  simp [translateNeg]
  split_ifs <;> omega

theorem size_translateRsb_le : size (translateRsb op) ≤ 149 := by
  simp [translateRsb]
  split_ifs <;> omega

theorem size_translateMvn_le : size (translateMvn op) ≤ 149 := by
  simp [translateMvn]
  split_ifs <;> omega

theorem size_translateTst_le : size (translateTst op) ≤ 149 := by
  simp [translateTst]
  split_ifs <;> omega

theorem size_translateCmn_le : size (translateCmn op) ≤ 149 := by
  simp [translateCmn]
  split_ifs <;> omega

theorem size_translateOrn_le : size (translateOrn op) ≤ 149 := by
  simp [translateOrn]
  split_ifs <;> omega

theorem size_translateCsel_le : size (translateCsel op) ≤ 149 := by
  simp [translateCsel]
  split_ifs <;> omega

theorem size_translateCset_le : size (translateCset op) ≤ 149 := by
  simp [translateCset]
  split_ifs <;> omega

theorem size_translateCinc_le : size (translateCinc op) ≤ 149 := by
  simp [translateCinc, conditionalUpdate]
  split_ifs <;> omega

theorem size_translateCinv_le : size (translateCinv op) ≤ 149 := by
  simp [translateCinv, conditionalUpdate]
  split_ifs <;> omega

theorem size_translateCneg_le : size (translateCneg op) ≤ 149 := by
  simp [translateCneg, conditionalUpdate]
  split_ifs <;> omega

theorem size_translateMul_le : size (translateMul op) ≤ 149 := by
  simp [translateMul]
  split_ifs <;> omega

theorem size_translateDiv_le : size (translateDiv op) ≤ 149 := by
  simp [translateDiv]
  split_ifs <;> omega

theorem size_translateMadd_le : size (translateMadd op) ≤ 149 := by
  simp [translateMadd]
  split_ifs <;> omega

theorem size_translateMsub_le : size (translateMsub op) ≤ 149 := by
  simp [translateMsub]
  split_ifs <;> omega

theorem size_translateSmulh_le : size (translateSmulh op) ≤ 149 := by
  simp [translateSmulh, translateMulh]

theorem size_translateUmulh_le : size (translateUmulh op) ≤ 149 := by
  simp [translateUmulh, translateMulh]

theorem size_translateShift_le : size (translateShift op) ≤ 149 := by
  simp [translateShift]
  split_ifs <;> omega

theorem size_translateRorImm_le : size (translateRorImm op) ≤ 149 := by
  simp [translateRorImm]
  split_ifs <;> omega

theorem size_translateExtr_le : size (translateExtr op) ≤ 149 := by
  simp [translateExtr]
  split_ifs <;> omega

theorem size_translateBfc_le : size (translateBfc op) ≤ 149 := by
  simp [translateBfc]
  split_ifs <;> omega

theorem size_translateClz_le : size (translateClz op) ≤ 149 := by
  simp [translateClz]
  split_ifs <;> omega

theorem size_translateRev_le : size (translateRev op) ≤ 149 := by
  simp [translateRev]
  split_ifs <;> omega

theorem size_translateSxtb_le : size (translateSxtb op) ≤ 149 := by
  simp [translateSxtb]
  split_ifs <;> omega

theorem size_translateSxth_le : size (translateSxth op) ≤ 149 := by
  simp [translateSxth]
  split_ifs <;> omega

theorem size_translateUxtb_le : size (translateUxtb op) ≤ 149 := by
  simp [translateUxtb]
  split_ifs <;> omega

theorem size_translateUxth_le : size (translateUxth op) ≤ 149 := by
  simp [translateUxth]
  split_ifs <;> omega

theorem size_translateSxtw_le : size (translateSxtw op) ≤ 149 := by simp [translateSxtw]

theorem size_translateUxtw_le : size (translateUxtw op) ≤ 149 := by simp [translateUxtw]

theorem size_translateMovReg_le : size (translateMovReg op) ≤ 149 := by
  simp [translateMovReg]
  split_ifs <;> omega

theorem size_translateCsinc_le : size (translateCsinc op) ≤ 149 := by
  simp [translateCsinc]
  split_ifs <;> omega

theorem size_translateCsinv_le : size (translateCsinv op) ≤ 149 := by
  simp [translateCsinv, conditionalSelect]
  split_ifs <;> omega

theorem size_translateCsneg_le : size (translateCsneg op) ≤ 149 := by
  simp [translateCsneg, conditionalSelect]
  split_ifs <;> omega

theorem size_translateCrc32_le : size (translateCrc32 op) ≤ 149 := by
  simp [translateCrc32]
  split_ifs <;> omega

theorem size_translateSbfm_le : size (translateSbfm op) ≤ 149 := by
  have hbody : size (shiftAndMask sarR64Imm8 op) = 17 := size_shiftAndMask op fun _ _ ↦ rfl
  simp only [translateSbfm, size_viaRax, size_ite, hbody]
  split_ifs <;> simp

theorem size_translateUbfm_le : size (translateUbfm op) ≤ 149 := by
  have hbody : size (shiftAndMask shrR64Imm8 op) = 17 := size_shiftAndMask op fun _ _ ↦ rfl
  simp only [translateUbfm, size_viaRax, size_ite, hbody]
  split_ifs <;> simp

/-- The inserts of bitfields, where they do not fail. -/
theorem size_insertField_le {shift : Byte → Byte → Code} (mask : BitVec 64)
    (h : ∀ r v, (shift r v).length = 4) : size (insertField op mask shift) ≤ 149 := by
  rw [size_insertField op h]
  split_ifs <;> omega

theorem size_of_translateBfi {code : List Code} (h : translateBfi op = some code) : size code ≤ 149 := by
  unfold translateBfi at h
  split at h
  · cases h
  · cases h
    exact size_insertField_le op _ fun _ _ ↦ rfl

theorem size_of_translateBfxil {code : List Code} (h : translateBfxil op = some code) :
    size code ≤ 149 := by
  unfold translateBfxil at h
  split at h
  · cases h
  · cases h
    exact size_insertField_le op _ fun _ _ ↦ rfl

theorem size_translateCcmn_le : size (translateCcmn op) ≤ 149 := by
  apply (size_conditionalCompare_le op _).trans
  simp only [size_cons, size_nil, length_unaryRax, length_testR64R64]
  split_ifs <;> omega

theorem size_translateCcmp_le : size (translateCcmp op) ≤ 149 :=
  (size_conditionalCompare_le op _).trans (by simp)

theorem size_translateRbit_le : size (translateRbit op) ≤ 149 := by
  simp only [translateRbit, size_viaRax, size_append, size_rbitStage, size_cons, size_ite]
  split_ifs <;> simp

end IntegerTranslators

section MemoryTranslators

variable (op : BitVec 32)

/-- The accesses through `RAX` with a displacement. -/
theorem length_raxAccess_le (pre : List Byte) (reg : Byte) (imm : BitVec 32) :
    (raxAccess pre reg imm).length ≤ pre.length + 5 := by
  rw [raxAccess, List.length_append]
  exact Nat.add_le_add_left (length_emitModrmDisp_le _ _ _) _

theorem size_translateLdrStr_le (imm : BitVec 32) : size (translateLdrStr op imm) ≤ 149 := by
  have hload := length_raxAccess_le [rexR rax rax, 0x8b] rax imm
  have hstore := length_raxAccess_le [rexR r11 rax, 0x89] r11 imm
  simp only [List.length_cons, List.length_nil] at hload hstore
  simp only [translateLdrStr, size_cons, size_ite, size_nil, length_emitLoadArmReg,
    length_emitStoreArmReg]
  split_ifs <;> omega

theorem size_translateLdpStp_le (imm : BitVec 32) : size (translateLdpStp op imm) ≤ 149 := by
  have hload := length_raxAccess_le [rexR r11 rax, 0x8b] r11 imm
  have hload₂ := length_raxAccess_le [rexR r11 rax, 0x8b] r11 (imm + 8)
  have hstore := length_raxAccess_le [rexR r11 rax, 0x89] r11 imm
  have hstore₂ := length_raxAccess_le [rexR r11 rax, 0x89] r11 (imm + 8)
  simp only [List.length_cons, List.length_nil] at hload hload₂ hstore hstore₂
  simp only [translateLdpStp, size_cons, size_ite, size_nil, length_emitLoadArmReg,
    length_emitStoreArmReg]
  split_ifs <;> omega

theorem size_narrowLoad_le {pre : List Byte} (w : Bool) (h : pre.length ≤ 4) :
    size (narrowLoad pre w op) ≤ 149 := by
  have hload := length_raxAccess_le pre r11 (imm12 op)
  simp only [narrowLoad, size_cons, size_nil, length_emitLoadArmReg, length_emitStoreArmReg]
  split_ifs <;> omega

theorem size_narrowStore_le {pre : List Byte} (h : pre.length ≤ 4) :
    size (narrowStore pre op) ≤ 149 := by
  have hstore := length_raxAccess_le pre r11 (imm12 op)
  simp only [narrowStore, size_cons, size_nil, length_emitLoadArmReg]
  split_ifs <;> omega

theorem size_translatePrfm_le : size (translatePrfm op) ≤ 149 := by
  have hload := length_raxAccess_le [rex true 0 0 (r11 >>> 3), 0x8d] r11
    ((op.extractLsb' 10 9).signExtend 32)
  simp only [List.length_cons, List.length_nil] at hload
  simp only [translatePrfm, size_cons, size_append, size_ite, size_nil, length_emitLoadArmReg,
    List.length_cons, List.length_nil]
  split_ifs <;> omega

theorem size_translateSvc : size translateSvc = 149 := by simp [translateSvc, emitSyscall]

theorem size_translateMrs_le (env : Env) : size (translateMrs env op) ≤ 149 := by
  simp only [translateMrs, size_ite, size_cons, size_nil]
  split_ifs <;> simp

theorem length_translateMsr_le (env : Env) : ((translateMsr env op).flatMap Item.bytes).length ≤ 149 := by
  unfold translateMsr
  dsimp only
  split_ifs <;> simp [Item.bytes]

theorem size_translateLdrLiteral_le (cur : BitVec 64) : size (translateLdrLiteral cur op) ≤ 149 := by
  simp [translateLdrLiteral]
  split_ifs <;> omega

theorem size_translateLdaxr_le : size (translateLdaxr op) ≤ 149 := by
  simp [translateLdaxr]
  split_ifs <;> omega

theorem size_translateStlxr_le : size (translateStlxr op) ≤ 149 := by
  simp [translateStlxr]
  split_ifs <;> omega

theorem size_translateCas_le : size (translateCas op) ≤ 149 := by
  simp [translateCas]
  split_ifs <;> omega

theorem size_translateLdadd_le : size (translateLdadd op) ≤ 149 := by
  simp [translateLdadd]
  split_ifs <;> omega

theorem size_translateDmbDsbIsb_le (env : Env) : size (translateDmbDsbIsb env op) ≤ 149 := by
  simp [translateDmbDsbIsb]
  split_ifs <;> omega

theorem size_translateHint_le : size (translateHint op) ≤ 149 := by
  simp [translateHint]
  split_ifs <;> omega

theorem size_translateBrk_le : size translateBrk ≤ 149 := by simp [translateBrk]

theorem size_translateHlt_le : size translateHlt ≤ 149 := by simp [translateHlt]

theorem size_translateEret_le : size translateEret ≤ 149 := by simp [translateEret]

end MemoryTranslators

section VectorTranslators

variable (op : BitVec 32)

theorem size_translateFcvt_le : size (translateFcvt op) ≤ 149 := by
  simp [translateFcvt]
  split_ifs <;> omega

theorem size_translateFsqrt_le : size (translateFsqrt op) ≤ 149 := by
  simp [translateFsqrt]
  split_ifs <;> omega

theorem size_translateSha256_le : size (translateSha256 op) ≤ 149 := by simp [translateSha256]

theorem size_translateFcsel_le : size (translateFcsel op) ≤ 149 := by
  simp [translateFcsel]
  split_ifs <;> omega

theorem size_translateFadd_le : size (translateFadd op) ≤ 149 := by
  simp [translateFadd]
  split_ifs <;> omega

theorem size_translateFsub_le : size (translateFsub op) ≤ 149 := by
  simp [translateFsub]
  split_ifs <;> omega

theorem size_translateFmul_le : size (translateFmul op) ≤ 149 := by
  simp [translateFmul]
  split_ifs <;> omega

theorem size_translateFdiv_le : size (translateFdiv op) ≤ 149 := by
  simp [translateFdiv]
  split_ifs <;> omega

theorem size_translateFcmp_le : size (translateFcmp op) ≤ 149 := by
  simp [translateFcmp]
  split_ifs <;> omega

theorem size_translateFmovImm_le (env : Env) : size (translateFmovImm env op) ≤ 149 := by
  simp [translateFmovImm]
  split_ifs <;> omega

theorem size_translateFabs_le : size (translateFabs op) ≤ 149 := by
  simp [translateFabs, fpMask]
  split_ifs <;> omega

theorem size_translateFneg_le : size (translateFneg op) ≤ 149 := by
  simp [translateFneg, fpMask]
  split_ifs <;> omega

theorem size_translateFmadd_le : size (translateFmadd op) ≤ 149 := by
  simp [translateFmadd, fpMulAcc]
  split_ifs <;> omega

theorem size_translateFmsub_le : size (translateFmsub op) ≤ 149 := by
  simp [translateFmsub, fpMulAcc]
  split_ifs <;> omega

theorem size_translateFnmadd_le : size (translateFnmadd op) ≤ 149 := by
  simp [translateFnmadd, fpNegMulAcc]
  split_ifs <;> omega

theorem size_translateFnmsub_le : size (translateFnmsub op) ≤ 149 := by
  simp [translateFnmsub, fpNegMulAcc]
  split_ifs <;> omega

theorem size_translateAese_le : size (translateAese op) ≤ 149 := by simp [translateAese]

theorem size_translateAesd_le : size (translateAesd op) ≤ 149 := by simp [translateAesd]

theorem size_translateAesmc_le : size (translateAesmc op) ≤ 149 := by simp [translateAesmc]

theorem size_translateAesimc_le : size (translateAesimc op) ≤ 149 := by simp [translateAesimc]

theorem size_translateNeonAdd_le (env : Env) : size (translateNeonAdd env op) ≤ 149 := by
  simp [translateNeonAdd]
  split_ifs <;> omega

theorem size_translateNeonSub_le : size (translateNeonSub op) ≤ 149 := by
  simp [translateNeonSub]
  split_ifs <;> omega

theorem size_translateNeonMul_le : size (translateNeonMul op) ≤ 149 := by
  simp [translateNeonMul]
  split_ifs <;> omega

theorem size_translateNeonAnd_le : size (translateNeonAnd op) ≤ 149 := by simp [translateNeonAnd]

theorem size_translateNeonOrr_le : size (translateNeonOrr op) ≤ 149 := by simp [translateNeonOrr]

theorem size_translateNeonEor_le : size (translateNeonEor op) ≤ 149 := by simp [translateNeonEor]

theorem size_translateNeonBsl_le : size (translateNeonBsl op) ≤ 149 := by simp [translateNeonBsl]

theorem size_translateNeonExt_le : size (translateNeonExt op) ≤ 149 := by simp [translateNeonExt]

theorem size_translateNeonDup_le : size (translateNeonDup op) ≤ 149 := by
  simp [translateNeonDup]
  split_ifs <;> omega

theorem size_translateNeonMovi_le : size (translateNeonMovi op) ≤ 149 := by
  simp [translateNeonMovi]
  split_ifs <;> omega

theorem size_translateNeonShl_le : size (translateNeonShl op) ≤ 149 := by simp [translateNeonShl]

theorem size_translateNeonShr_le : size (translateNeonShr op) ≤ 149 := by simp [translateNeonShr]

theorem size_translateNeonIns_le : size (translateNeonIns op) ≤ 149 := by simp [translateNeonIns]

theorem size_translateNeonFadd_le (env : Env) : size (translateNeonFadd env op) ≤ 149 := by
  simp [translateNeonFadd]
  split_ifs <;> omega

theorem size_translateNeonFsub_le : size (translateNeonFsub op) ≤ 149 := by simp [translateNeonFsub]

theorem size_translateNeonFmul_le : size (translateNeonFmul op) ≤ 149 := by simp [translateNeonFmul]

theorem size_translateNeonFmax_le : size (translateNeonFmax op) ≤ 149 := by simp [translateNeonFmax]

theorem size_translateNeonFmin_le : size (translateNeonFmin op) ≤ 149 := by simp [translateNeonFmin]

theorem size_translateNeonFcvt_le : size (translateNeonFcvt op) ≤ 149 := by
  simp [translateNeonFcvt]
  split_ifs <;> omega

theorem size_translateNeonFsqrt_le : size (translateNeonFsqrt op) ≤ 149 := by
  simp [translateNeonFsqrt]

theorem size_translateNeonFrecpe_le : size (translateNeonFrecpe op) ≤ 149 := by
  simp [translateNeonFrecpe]

theorem size_translateNeonFrsqrte_le : size (translateNeonFrsqrte op) ≤ 149 := by
  simp [translateNeonFrsqrte]

theorem size_translateNeonFmla_le : size (translateNeonFmla op) ≤ 149 := by
  simp [translateNeonFmla]
  split_ifs <;> omega

theorem size_translateNeonFmls_le : size (translateNeonFmls op) ≤ 149 := by
  simp [translateNeonFmls]
  split_ifs <;> omega

theorem size_translateNeonFabs_le : size (translateNeonFabs op) ≤ 149 := by simp [translateNeonFabs]

theorem size_translateNeonFneg_le : size (translateNeonFneg op) ≤ 149 := by simp [translateNeonFneg]

theorem size_translateNeonFcmp_le : size (translateNeonFcmp op) ≤ 149 := by simp [translateNeonFcmp]

theorem size_translateNeonUshl_le : size (translateNeonUshl op) ≤ 149 := by simp [translateNeonUshl]

theorem size_translateNeonSshl_le : size (translateNeonSshl op) ≤ 149 := by simp [translateNeonSshl]

theorem size_translateNeonPmul_le : size (translateNeonPmul op) ≤ 149 := by simp [translateNeonPmul]

theorem size_translateNeonXtn_le : size (translateNeonXtn op) ≤ 149 := by
  simp [translateNeonXtn, neonNarrow]
  split_ifs <;> omega

theorem size_translateNeonSqxtn_le : size (translateNeonSqxtn op) ≤ 149 := by
  simp [translateNeonSqxtn, neonNarrow]

theorem size_translateNeonUqxtn_le : size (translateNeonUqxtn op) ≤ 149 := by
  simp [translateNeonUqxtn, neonNarrow]
  split_ifs <;> omega

theorem size_translateNeonSqxtun_le : size (translateNeonSqxtun op) ≤ 149 := by
  simp [translateNeonSqxtun, neonNarrow]

theorem size_translateNeonUsra_le : size (translateNeonUsra op) ≤ 149 := by
  simp [translateNeonUsra, neonShiftAcc]

theorem size_translateNeonSsra_le : size (translateNeonSsra op) ≤ 149 := by
  simp [translateNeonSsra, neonShiftAcc]

theorem size_translateNeonUmull_le : size (translateNeonUmull op) ≤ 149 := by
  simp [translateNeonUmull, neonMull]
  split_ifs <;> omega

theorem size_translateNeonSmull_le : size (translateNeonSmull op) ≤ 149 := by
  simp [translateNeonSmull, neonMull]
  split_ifs <;> omega

theorem size_neonAccess_le (opcode : Byte) : size (neonAccess opcode op) ≤ 149 := by
  unfold neonAccess
  dsimp only
  split_ifs <;> simp

/-- The sixteen lanes of bytes are the longest. -/
theorem size_translateNeonDiv_le : size (translateNeonDiv op) ≤ 658 := by
  have hlanes : ∀ n : Nat, size ((List.range n).flatMap fun i ↦
      neonDivElement (op.getLsbD 4) (op.extractLsb' 20 2) (vd op) (vn op) (vm op)
        (BitVec.ofNat 8 i)) ≤ n * if op.extractLsb' 20 2 = 0 then 40 else 47 :=
    fun n ↦ size_flatMap_range_le _ _ _ fun i ↦ size_neonDivElement_le ..
  have hcount : ∀ lane : BitVec 2, (if lane == 0 then 16 else if lane == 1 then 8
      else if lane == 2 then 4 else 2 : Nat) * (if lane = 0 then 40 else 47) ≤ 640 := by decide
  have hbody := (hlanes _).trans (hcount (op.extractLsb' 20 2))
  simp only [translateNeonDiv, size_append, size_cons, size_nil, List.length_cons, List.length_nil]
  omega

end VectorTranslators

end Arm2x86.Translate
