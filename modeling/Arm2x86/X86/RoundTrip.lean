import Arm2x86.X86.Emit
import Arm2x86.X86.Isa

/-!
# Emitted instructions, read back

The bytes an encoding helper emits, decoded again. The helpers for two registers come back with
their operands exchanged: they put the destination in the `reg` field of opcodes that write `rm`.
-/

namespace Arm2x86.X86

section Fields

/-- A masked field, as the three bits it has. -/
theorem and_seven (b : Byte) : b &&& 7 = (b.setWidth 3).setWidth 8 := by
  have key : ∀ b : Byte, b &&& 7 = (b.setWidth 3).setWidth 8 := by decide
  exact key b

theorem and_seven_field (x : BitVec 3) : x &&& 7#3 = x := BitVec.and_allOnes

/-- The fields of a ModRM byte, read back. -/
theorem modrm_fields (mod reg rm : Byte) :
    (modrm mod reg rm).extractLsb' 6 2 = mod.setWidth 2 ∧
      (modrm mod reg rm).extractLsb' 3 3 = reg.setWidth 3 ∧
      (modrm mod reg rm).extractLsb' 0 3 = rm.setWidth 3 := by
  have hmod : ∀ m : Byte, m <<< 6 = (m.setWidth 2).setWidth 8 <<< 6 := by decide
  have key : ∀ (m : BitVec 2) (g r : BitVec 3),
      let c : Byte := (m.setWidth 8 <<< 6) ||| (g.setWidth 8 <<< 3) ||| r.setWidth 8
      c.extractLsb' 6 2 = m ∧ c.extractLsb' 3 3 = g ∧ c.extractLsb' 0 3 = r := by decide
  unfold modrm
  rw [hmod mod, and_seven reg, and_seven rm]
  exact key _ _ _

@[simp] theorem modrm_mod (mod reg rm : Byte) :
    (modrm mod reg rm).extractLsb' 6 2 = mod.setWidth 2 := (modrm_fields mod reg rm).1

@[simp] theorem modrm_reg (mod reg rm : Byte) :
    (modrm mod reg rm).extractLsb' 3 3 = reg.setWidth 3 := (modrm_fields mod reg rm).2.1

@[simp] theorem modrm_rm (mod reg rm : Byte) :
    (modrm mod reg rm).extractLsb' 0 3 = rm.setWidth 3 := (modrm_fields mod reg rm).2.2

theorem takeRm_modrm3 (p : Prefixes) (reg rm : Byte) (rest : List Byte) :
    takeRm p .b64 (modrm 3#8 reg rm :: rest) = some (.reg (gpr p.b (rm.setWidth 3)), rest) := by
  simp [takeRm]

/-- The general register of an encoder's register number. -/
def toGpr (x : Byte) : Gpr := x.setWidth 4

/-- A prefix bit and a field together are the register's number. -/
@[simp] theorem gpr_eq_toGpr (x : Byte) : gpr x[3] (x.setWidth 3 &&& 7#3) = toGpr x := by
  have key : ∀ x : Byte, gpr x[3] (x.setWidth 3 &&& 7#3) = toGpr x := by decide
  exact key x

/-- A register number has four bits. -/
theorem eq_setWidth_of_lt {x : Byte} (h : x < 16) : x = (toGpr x).setWidth 8 := by
  have key : ∀ x : Byte, x < 16 → x = (toGpr x).setWidth 8 := by decide
  exact key x h

end Fields

section Prefix

variable (reg rm : Byte)

/-- The prefixes `rex_r` stands for. -/
def rexPrefixes (reg rm : Byte) : Prefixes := { Prefixes.none with rex := some (rexR reg rm) }

theorem rexR_mem : rexR reg rm ∈ ([0x48, 0x49, 0x4c, 0x4d] : List Byte) := by
  have hbit : ∀ x : Byte, x &&& 1 = 0 ∨ x &&& 1 = 1 := by decide
  unfold rexR rex
  rcases hbit (reg >>> 3) with h | h <;> rcases hbit (rm >>> 3) with h' | h' <;> rw [h, h'] <;>
    decide

private theorem rexR_bits :
    (rexR reg rm).getLsbD 3 = true ∧ (rexR reg rm).getLsbD 2 = reg.getLsbD 3 ∧
      (rexR reg rm).getLsbD 0 = rm.getLsbD 3 := by
  have hbit : ∀ x : Byte, (x >>> 3) &&& 1 = if x.getLsbD 3 then 1 else 0 := by decide
  unfold rexR rex
  rw [hbit reg, hbit rm]
  cases reg.getLsbD 3 <;> cases rm.getLsbD 3 <;> decide

@[simp] theorem rexPrefixes_size : (rexPrefixes reg rm).size = .b64 := by
  have hw : (rexPrefixes reg rm).w = true := (rexR_bits reg rm).1
  rw [Prefixes.size, hw]
  rfl

@[simp] theorem rexPrefixes_r : (rexPrefixes reg rm).r = reg.getLsbD 3 := (rexR_bits reg rm).2.1

@[simp] theorem rexPrefixes_b : (rexPrefixes reg rm).b = rm.getLsbD 3 := (rexR_bits reg rm).2.2

/-- An opcode is no prefix. -/
def isOpcode (op : Byte) : Bool :=
  op != 0x66 && op != 0xf3 && op != 0xf2 && op != 0xf0 && op &&& 0xf0 != 0x40

theorem takePrefixes_opcode {p : Prefixes} {op : Byte} (h : isOpcode op) (rest : List Byte) :
    takePrefixes p (op :: rest) = (p, op :: rest) := by
  simp only [isOpcode, Bool.and_eq_true, bne_iff_ne, ne_eq] at h
  obtain ⟨⟨⟨⟨h1, h2⟩, h3⟩, h4⟩, h5⟩ := h
  unfold takePrefixes
  simp only [beq_iff_eq, h1, h2, h3, h4, h5, if_false]

/-- A prefix with the register bits, whatever they are. -/
theorem takePrefixes_rex (p : Prefixes) {c : Byte} (hc : c &&& 0xf0 = 0x40)
    (bs : List Byte) : takePrefixes p (c :: bs) = takePrefixes { p with rex := some c } bs := by
  have key : ∀ c : Byte, c &&& 0xf0 = 0x40 → c ≠ 0x66 ∧ c ≠ 0xf3 ∧ c ≠ 0xf2 ∧ c ≠ 0xf0 := by
    decide
  obtain ⟨h1, h2, h3, h4⟩ := key c hc
  rw [takePrefixes]
  simp only [beq_iff_eq, h1, h2, h3, h4, hc, if_false, if_true]

theorem rex_row (w : Bool) (r x b : Byte) : rex w r x b &&& 0xf0 = 0x40 := by
  have hbit : ∀ x : Byte, x &&& 1 = 0 ∨ x &&& 1 = 1 := by decide
  unfold rex
  rcases hbit r with h | h <;> rcases hbit x with h' | h' <;> rcases hbit b with h'' | h'' <;>
    rw [h, h', h''] <;> cases w <;> decide

theorem decode_prefixes {bs bs' rest : List Byte} {p : Prefixes} {i : Instr}
    (hp : takePrefixes .none bs = (p, bs')) (h : decodeOpcode p bs' = some (i, rest)) :
    decode bs = some (i, rest) := by
  rw [decode, hp]
  exact h

theorem takePrefixes_rexR {op : Byte} (h : isOpcode op) (rest : List Byte) :
    takePrefixes .none (rexR reg rm :: op :: rest) = (rexPrefixes reg rm, op :: rest) := by
  have hmem := rexR_mem reg rm
  have hop := takePrefixes_opcode (p := rexPrefixes reg rm) h rest
  simp only [List.mem_cons, List.not_mem_nil, or_false] at hmem
  unfold rexPrefixes at hop ⊢
  rcases hmem with hr | hr | hr | hr <;> rw [hr] at hop ⊢ <;> exact hop

end Prefix

section TwoRegisters

variable (dest src : Byte) (rest : List Byte)

theorem decode_movR64R64 :
    decode (movR64R64 dest src ++ rest) =
      some (.mov .b64 (.reg (toGpr src)) (.reg (toGpr dest)), rest) := by
  unfold decode movR64R64 regReg
  rw [List.cons_append, List.cons_append, takePrefixes_rexR _ _ rfl]
  simp [decodeOpcode, takeRm, takeReg, regAt, opSize]

/-- The opcodes of the arithmetic helpers. -/
def aluOpcodes : List Byte := [0x01, 0x29, 0x21, 0x09, 0x31]

theorem decode_regReg {opcode : Byte} (h : opcode ∈ aluOpcodes) :
    decode (regReg opcode dest src ++ rest) =
      some (.alu (aluOp (opcode.extractLsb' 3 3)) .b64 (.reg (toGpr src)) (.reg (toGpr dest)),
        rest) := by
  unfold decode regReg
  simp only [aluOpcodes, List.mem_cons, List.not_mem_nil, or_false] at h
  rcases h with rfl | rfl | rfl | rfl | rfl <;>
  · rw [List.cons_append, List.cons_append, takePrefixes_rexR _ _ rfl]
    simp [decodeOpcode, takeRm, takeReg, regAt, opSize]

theorem decode_notR64 (reg : Byte) :
    decode (notR64 reg ++ rest) = some (.not .b64 (.reg (toGpr reg)), rest) := by
  unfold decode notR64 unaryR64
  rw [List.cons_append, List.cons_append, takePrefixes_rexR _ _ rfl]
  simp [decodeOpcode, decodeUnary, takeExt, takeRm, opSize]

end TwoRegisters

section HomeOperand

variable (reg : Byte) (disp : BitVec 32) (rest : List Byte)

theorem take32_imm32 : take32 (imm32 disp ++ rest) = some (disp.signExtend 64, rest) := by
  rw [← append_imm32 disp]
  simp only [imm32, take32, List.cons_append, List.nil_append]
  rw [append_imm32]

theorem takeRm_disp32 (p : Prefixes) (size : Size) :
    takeRm p size (modrm 2#8 reg 5#8 :: (imm32 disp ++ rest)) =
      some (.mem (some (gpr p.b 5)) none (disp.signExtend 64), rest) := by
  have htake : takeDisp 2#2 (imm32 disp ++ rest) = some (disp.signExtend 64, rest) :=
    take32_imm32 disp rest
  simp [takeRm, htake]

/-- A 64-bit prefix. -/
theorem takePrefixes_rexW {rex op : Byte} (hrex : rex &&& 0xf8 = 0x48) (h : isOpcode op) :
    takePrefixes .none (rex :: op :: rest) = ({ Prefixes.none with rex := some rex }, op :: rest) := by
  have key : ∀ c : Byte, c &&& 0xf8 = 0x48 →
      c ≠ 0x66 ∧ c ≠ 0xf3 ∧ c ≠ 0xf2 ∧ c ≠ 0xf0 ∧ c &&& 0xf0 = 0x40 := by decide
  obtain ⟨h1, h2, h3, h4, h5⟩ := key rex hrex
  rw [takePrefixes]
  simp only [beq_iff_eq, h1, h2, h3, h4, h5, if_false, if_true]
  exact takePrefixes_opcode h rest

theorem size_rexW {rex : Byte} (hrex : rex &&& 0xf8 = 0x48) :
    Prefixes.size { Prefixes.none with rex := some rex } = .b64 := by
  have key : ∀ c : Byte, c &&& 0xf8 = 0x48 → c.getLsbD 3 = true := by decide
  simp [Prefixes.size, Prefixes.w, key rex hrex]

theorem decode_storeDisp {rex : Byte} (hrex : rex &&& 0xf8 = 0x48) :
    decode (rex :: 0x89 :: modrm 2#8 reg 5#8 :: (imm32 disp ++ rest)) =
      some (.mov .b64 (.mem (some (gpr (rex.getLsbD 0) 5)) none (disp.signExtend 64))
        (.reg (gpr (rex.getLsbD 2) (reg.setWidth 3))), rest) := by
  rw [decode, takePrefixes_rexW _ hrex rfl]
  simp [decodeOpcode, takeRm_disp32, takeReg, regAt, opSize, size_rexW hrex, Prefixes.b, Prefixes.r]

theorem decode_loadDisp {rex : Byte} (hrex : rex &&& 0xf8 = 0x48) :
    decode (rex :: 0x8b :: modrm 2#8 reg 5#8 :: (imm32 disp ++ rest)) =
      some (.mov .b64 (.reg (gpr (rex.getLsbD 2) (reg.setWidth 3)))
        (.mem (some (gpr (rex.getLsbD 0) 5)) none (disp.signExtend 64)), rest) := by
  rw [decode, takePrefixes_rexW _ hrex rfl]
  simp [decodeOpcode, takeRm_disp32, takeReg, regAt, opSize, size_rexW hrex, Prefixes.b, Prefixes.r]

/-- Without a prefix an access has 32 bits and no high registers. -/
theorem decode_store32 :
    decode (0x89 :: modrm 2#8 reg 5#8 :: (imm32 disp ++ rest)) =
      some (.mov .b32 (.mem (some 5) none (disp.signExtend 64)) (.reg (gpr false (reg.setWidth 3))),
        rest) := by
  rw [decode, takePrefixes_opcode rfl]
  simp [decodeOpcode, takeRm_disp32, takeReg, regAt, opSize, Prefixes.size, Prefixes.w, Prefixes.b,
    Prefixes.r, Prefixes.none, gpr]

theorem decode_load32 :
    decode (0x8b :: modrm 2#8 reg 5#8 :: (imm32 disp ++ rest)) =
      some (.mov .b32 (.reg (gpr false (reg.setWidth 3))) (.mem (some 5) none (disp.signExtend 64)),
        rest) := by
  rw [decode, takePrefixes_opcode rfl]
  simp [decodeOpcode, takeRm_disp32, takeReg, regAt, opSize, Prefixes.size, Prefixes.w, Prefixes.b,
    Prefixes.r, Prefixes.none, gpr]

end HomeOperand

section RaxOperand

/-- A displacement that fits a byte is its sign-extended low byte. -/
theorem signExtend_low8 {disp : BitVec 32} (hlo : (-128#32).sle disp = true)
    (hhi : disp.sle 127#32 = true) : (disp.extractLsb' 0 8).signExtend 64 = disp.signExtend 64 := by
  have hlo' : -128 ≤ disp.toInt := BitVec.sle_iff_toInt_le.mp hlo
  have hhi' : disp.toInt ≤ 127 := BitVec.sle_iff_toInt_le.mp hhi
  have hlow : disp.extractLsb' 0 8 = disp.setWidth 8 := by
    ext i hi
    simp
  apply BitVec.eq_of_toInt_eq
  rw [BitVec.toInt_signExtend_of_le (by decide), BitVec.toInt_signExtend_of_le (by decide), hlow,
    BitVec.toInt_setWidth]
  rw [BitVec.toInt_eq_toNat_cond] at hlo' hhi' ⊢
  have hlt := disp.isLt
  dsimp only [Int.bmod]
  split <;> split <;> omega

/-- The three forms of an operand behind `RAX`, or behind `R8` where the prefix extends it. -/
theorem takeRm_modrmDisp (p : Prefixes) (size : Size) (reg : Byte) (disp : BitVec 32)
    (rest : List Byte) :
    takeRm p size (emitModrmDisp reg rax disp ++ rest) =
      some (.mem (some (gpr p.b 0)) none (disp.signExtend 64), rest) := by
  have hrax : BitVec.setWidth 3 (rax &&& 7#8) = 0#3 := rfl
  unfold emitModrmDisp
  split
  · next h =>
    rw [Bool.and_eq_true, beq_iff_eq] at h
    simp [takeRm, takeDisp, hrax, h.1]
  · split
    · next h =>
      rw [Bool.and_eq_true] at h
      simp [takeRm, takeDisp, take8, hrax, signExtend_low8 h.1 h.2]
    · have htake : takeDisp 2#2 (imm32 disp ++ rest) = some (disp.signExtend 64, rest) :=
        take32_imm32 disp rest
      simp [takeRm, htake, hrax]

/-- The register field is the same in the three forms. -/
theorem takeReg_modrmDisp (p : Prefixes) (reg : Byte) (disp : BitVec 32) (rest : List Byte) :
    takeReg p (emitModrmDisp reg rax disp ++ rest) = gpr p.r (reg.setWidth 3) := by
  unfold emitModrmDisp
  split
  · simp [takeReg]
  · split
    · simp [takeReg]
    · simp [takeReg]

theorem decode_leaDisp {rex : Byte} (hrex : rex &&& 0xf8 = 0x48) (reg : Byte) (disp : BitVec 32)
    (rest : List Byte) :
    decode (rex :: 0x8d :: (emitModrmDisp reg rax disp ++ rest)) =
      some (.lea .b64 (gpr (rex.getLsbD 2) (reg.setWidth 3))
        (.mem (some (gpr (rex.getLsbD 0) 0)) none (disp.signExtend 64)), rest) := by
  apply decode_prefixes (takePrefixes_rexW _ hrex rfl)
  have hsize := size_rexW hrex
  simp [decodeOpcode, takeRm_modrmDisp, takeReg_modrmDisp, hsize, Prefixes.r, Prefixes.b]

end RaxOperand

section Words

theorem signExtend_inj {x y : BitVec 32} (h : x.signExtend 64 = y.signExtend 64) : x = y := by
  have hint := congrArg BitVec.toInt h
  rw [BitVec.toInt_signExtend_of_le (by decide), BitVec.toInt_signExtend_of_le (by decide)] at hint
  exact BitVec.eq_of_toInt_eq hint

theorem imm32_inj {v v' : BitVec 32} (h : imm32 v = imm32 v') : v = v' := by
  simp only [imm32, List.cons.injEq] at h
  rw [← append_imm32 v, ← append_imm32 v', h.1, h.2.1, h.2.2.1, h.2.2.2.1]

theorem append_imm64 (v : BitVec 64) :
    v.extractLsb' 56 8 ++ v.extractLsb' 48 8 ++ v.extractLsb' 40 8 ++ v.extractLsb' 32 8 ++
      v.extractLsb' 24 8 ++ v.extractLsb' 16 8 ++ v.extractLsb' 8 8 ++ v.extractLsb' 0 8 = v := by
  rw [BitVec.extractLsb'_append_extractLsb'_eq_extractLsb' (by decide),
    BitVec.extractLsb'_append_extractLsb'_eq_extractLsb' (by decide),
    BitVec.extractLsb'_append_extractLsb'_eq_extractLsb' (by decide),
    BitVec.extractLsb'_append_extractLsb'_eq_extractLsb' (by decide),
    BitVec.extractLsb'_append_extractLsb'_eq_extractLsb' (by decide),
    BitVec.extractLsb'_append_extractLsb'_eq_extractLsb' (by decide),
    BitVec.extractLsb'_append_extractLsb'_eq_extractLsb' (by decide)]
  simp

/-- `mov_r64_imm` reads back as it is meant. -/
theorem decode_movR64Imm {reg : Byte} (h : reg < 16) (imm : BitVec 64) (rest : List Byte) :
    decode (movR64Imm reg imm ++ rest) = some (.movImm .b64 (.reg (toGpr reg)) imm, rest) := by
  have hreg : reg ∈ ([0, 1, 2, 3, 4, 5, 6, 7, 8, 9, 10, 11, 12, 13, 14, 15] : List Byte) := by
    have key : ∀ reg : Byte, reg < 16 →
        reg ∈ ([0, 1, 2, 3, 4, 5, 6, 7, 8, 9, 10, 11, 12, 13, 14, 15] : List Byte) := by
      decide
    exact key reg h
  have himm : ∀ g : Gpr, some (Instr.movImm .b64 (.reg g) (imm.extractLsb' 56 8 ++
      imm.extractLsb' 48 8 ++ imm.extractLsb' 40 8 ++ imm.extractLsb' 32 8 ++ imm.extractLsb' 24 8 ++
      imm.extractLsb' 16 8 ++ imm.extractLsb' 8 8 ++ imm.extractLsb' 0 8), rest) =
        some (.movImm .b64 (.reg g) imm, rest) := by
    rw [append_imm64]
    exact fun _ ↦ rfl
  simp only [List.mem_cons, List.not_mem_nil, or_false] at hreg
  rcases hreg with rfl | rfl | rfl | rfl | rfl | rfl | rfl | rfl | rfl | rfl | rfl | rfl | rfl |
      rfl | rfl | rfl <;>
    exact decode_prefixes rfl (Eq.trans rfl (himm _))

end Words

section Jumps

variable (rel : BitVec 32) (rest : List Byte)

/-- The jumps on a condition, with the condition in the low half of the opcode. -/
theorem decode_jcc {opcode : Byte} (h : opcode &&& 0xf0 = 0x80) :
    decode (0x0f :: opcode :: (imm32 rel ++ rest)) =
      some (.jcc (opcode.extractLsb' 0 4) (rel.signExtend 64), rest) := by
  have key : ∀ o : Byte, o &&& 0xf0#8 = 0x80#8 →
      o ≠ 0x05#8 ∧ o ≠ 0x31#8 ∧ o ≠ 0x38#8 ∧ o ≠ 0x3a#8 := by
    decide
  obtain ⟨h1, h2, h3, h4⟩ := key opcode h
  have hrow : opcode &&& 0xf0#8 = 0x80#8 := h
  rw [decode, takePrefixes_opcode rfl]
  simp [decodeOpcode, decode0F, h1, h2, h3, h4, hrow, take32_imm32]

/-- The conditions as a byte in `AL`. -/
theorem decode_setcc {opcode : Byte} (h : opcode &&& 0xf0 = 0x90) :
    decode (0x0f :: opcode :: 0xc0 :: rest) =
      some (.setcc (opcode.extractLsb' 0 4) (.reg 0), rest) := by
  have key : ∀ o : Byte, o &&& 0xf0#8 = 0x90#8 →
      o ≠ 0x05#8 ∧ o ≠ 0x31#8 ∧ o ≠ 0x38#8 ∧ o ≠ 0x3a#8 := by
    decide
  obtain ⟨h1, h2, h3, h4⟩ := key opcode h
  have hrow : opcode &&& 0xf0#8 = 0x90#8 := h
  rw [decode, takePrefixes_opcode rfl]
  simp [decodeOpcode, decode0F, h1, h2, h3, h4, hrow, takeRm]
  rfl

theorem decode_jmp : decode (0xe9 :: (imm32 rel ++ rest)) = some (.jmp (rel.signExtend 64), rest) := by
  rw [decode, takePrefixes_opcode rfl]
  simp [decodeOpcode, take32_imm32]

end Jumps

end Arm2x86.X86
