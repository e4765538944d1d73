import Arm2x86.X86.RoundTrip

/-!
# Instructions behind a 64-bit prefix

What the byte `48` and some opcodes decode to, with a ModRM byte in register mode.
-/

namespace Arm2x86.X86

/-- The fields of a ModRM byte. -/
def modField (b : Byte) : BitVec 2 := b.extractLsb' 6 2

def regField (b : Byte) : BitVec 3 := b.extractLsb' 3 3

def rmField (b : Byte) : BitVec 3 := b.extractLsb' 0 3

/-- The registers that need no bit of a prefix. -/
def lowGpr (field : BitVec 3) : Gpr := gpr false field

section RegisterMode

variable {modrm : Byte} {rest : List Byte}

/-- The prefixes that the byte `48` stands for. -/
def rexW : Prefixes := { Prefixes.none with rex := some 0x48 }

theorem takePrefixes_48 {op : Byte} (h : isOpcode op) (bs : List Byte) :
    takePrefixes .none (0x48 :: op :: bs) = (rexW, op :: bs) :=
  takePrefixes_rexW bs rfl h

theorem takeRm_registerMode (hmod : modField modrm = 3) :
    takeRm rexW .b64 (modrm :: rest) = some (.reg (lowGpr (rmField modrm)), rest) := by
  have hmode : modrm.extractLsb' 6 2 = 3#2 := hmod
  simp [takeRm, hmode]
  rfl

/-- The arithmetic rows, with the `rm` operand as the result. -/
theorem decode_row {op : Byte} (hop : op &&& 0xc7 = 0x01) (hmod : modField modrm = 3) :
    decode (0x48 :: op :: modrm :: rest) =
      some (.alu (aluOp (op.extractLsb' 3 3)) .b64 (.reg (lowGpr (rmField modrm)))
        (.reg (lowGpr (regField modrm))), rest) := by
  have key : ∀ o : Byte, o &&& 0xc7#8 = 0x01#8 → isOpcode o = true ∧ o ≠ 0x0f#8 ∧
      o &&& 0xc4#8 = 0x00#8 ∧ o.getLsbD 0 = true ∧ o.getLsbD 1 = false := by
    decide
  obtain ⟨hopcode, h0f, hrow, hfull, hdir⟩ := key op hop
  have hsize : opSize rexW op = .b64 := by
    rw [opSize, hfull]
    rfl
  have hdir' : op[1] = false := hdir
  rw [decode, takePrefixes_48 hopcode]
  simp [decodeOpcode, h0f, hrow, hsize, takeRm_registerMode hmod, hdir']
  rfl

/-- The arithmetic with an immediate. -/
theorem decode_aluImm32 (hmod : modField modrm = 3) (imm : BitVec 32) :
    decode (0x48 :: 0x81 :: modrm :: (imm32 imm ++ rest)) =
      some (.aluImm (aluOp (regField modrm)) .b64 (.reg (lowGpr (rmField modrm)))
        (imm.signExtend 64), rest) := by
  have hsize : rexW.size = .b64 := rfl
  rw [decode, takePrefixes_48 rfl]
  simp [decodeOpcode, hsize, takeRm_registerMode hmod, takeImm, take32_imm32, takeExt]
  rfl

/-- The test of a register with an immediate. -/
theorem decode_testImm32 (hmod : modField modrm = 3) (hext : regField modrm = 0) (imm : BitVec 32) :
    decode (0x48 :: 0xf7 :: modrm :: (imm32 imm ++ rest)) =
      some (.testImm .b64 (.reg (lowGpr (rmField modrm))) (imm.signExtend 64), rest) := by
  have hsize : opSize rexW 0xf7#8 = .b64 := rfl
  have hzero : modrm.extractLsb' 3 3 = 0#3 := hext
  rw [decode, takePrefixes_48 rfl]
  simp [decodeOpcode, decodeUnary, hsize, takeRm_registerMode hmod, takeImm, take32_imm32, takeExt,
    hzero]

/-- The test of two registers. -/
theorem decode_test (hmod : modField modrm = 3) :
    decode (0x48 :: 0x85 :: modrm :: rest) =
      some (.test .b64 (.reg (lowGpr (rmField modrm))) (.reg (lowGpr (regField modrm))), rest) := by
  have hsize : opSize rexW 0x85#8 = .b64 := rfl
  rw [decode, takePrefixes_48 rfl]
  simp [decodeOpcode, hsize, takeRm_registerMode hmod]
  rfl

/-- The move of a constant into a register. -/
theorem decode_movImm64 (r : BitVec 3) (v : BitVec 64) :
    decode (0x48 :: (0xb8 + r.setWidth 8) :: (imm64 v ++ rest)) =
      some (.movImm .b64 (.reg (lowGpr r)) v, rest) := by
  have hhead : ∀ r : BitVec 3, (r.setWidth 8 : Byte) < 16 ∧ toGpr (r.setWidth 8) = lowGpr r ∧
      rex true 0 0 ((r.setWidth 8 : Byte) >>> 3) = 0x48 ∧
        0xb8 ||| ((r.setWidth 8 : Byte) &&& 7) = 0xb8 + r.setWidth 8 := by
    decide
  obtain ⟨hlt, hgpr, hrex, hop⟩ := hhead r
  have hdec := decode_movR64Imm hlt v rest
  rwa [movR64Imm, hrex, hop, hgpr] at hdec

end RegisterMode

end Arm2x86.X86
