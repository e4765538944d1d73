import Arm2x86.Base.Bytes

/-!
# Encoding helpers

`modules/arm2x86_emit.c`: each helper appends the bytes of one instruction to the output. Here
a helper returns those bytes; registers, prefixes and operand fields are `uint8_t` values.
-/

namespace Arm2x86.X86

def rax : Byte := 0
def rcx : Byte := 1
def rdx : Byte := 2
def rbx : Byte := 3
def rsp : Byte := 4
def rbp : Byte := 5
def rsi : Byte := 6
def rdi : Byte := 7
def r8 : Byte := 8
def r9 : Byte := 9
def r10 : Byte := 10
def r11 : Byte := 11
def xmm0 : Byte := 0
def xmm1 : Byte := 1
def xmm2 : Byte := 2

/-- `emit_imm32`: the four bytes of a word, least significant first. -/
def imm32 (v : BitVec 32) : List Byte :=
  [v.extractLsb' 0 8, v.extractLsb' 8 8, v.extractLsb' 16 8, v.extractLsb' 24 8]

theorem append_imm32 (v : BitVec 32) :
    v.extractLsb' 24 8 ++ v.extractLsb' 16 8 ++ v.extractLsb' 8 8 ++ v.extractLsb' 0 8 = v := by
  rw [BitVec.extractLsb'_append_extractLsb'_eq_extractLsb' (by decide),
    BitVec.extractLsb'_append_extractLsb'_eq_extractLsb' (by decide),
    BitVec.extractLsb'_append_extractLsb'_eq_extractLsb' (by decide)]
  simp

theorem imm32_append (a b c d : Byte) : imm32 (d ++ c ++ b ++ a) = [a, b, c, d] := by
  have h0 : (d ++ c ++ b ++ a).extractLsb' 0 8 = a := BitVec.extractLsb'_append_eq_right
  have h1 : (d ++ c ++ b ++ a).extractLsb' 8 8 = b := by
    rw [BitVec.extractLsb'_append_eq_of_le (by decide)]
    exact BitVec.extractLsb'_append_eq_right
  have h2 : (d ++ c ++ b ++ a).extractLsb' 16 8 = c := by
    rw [BitVec.extractLsb'_append_eq_of_le (by decide), BitVec.extractLsb'_append_eq_of_le (by decide)]
    exact BitVec.extractLsb'_append_eq_right
  have h3 : (d ++ c ++ b ++ a).extractLsb' 24 8 = d := by
    rw [BitVec.extractLsb'_append_eq_of_le (by decide), BitVec.extractLsb'_append_eq_of_le (by decide)]
    exact BitVec.extractLsb'_append_eq_left
  rw [imm32, h0, h1, h2, h3]

/-- The eight bytes of a quadword, least significant first. -/
def imm64 (v : BitVec 64) : List Byte :=
  [v.extractLsb' 0 8, v.extractLsb' 8 8, v.extractLsb' 16 8, v.extractLsb' 24 8,
    v.extractLsb' 32 8, v.extractLsb' 40 8, v.extractLsb' 48 8, v.extractLsb' 56 8]

theorem imm64_append (hi lo : BitVec 32) : imm64 (hi ++ lo) = imm32 lo ++ imm32 hi := by
  have hlow : ∀ i, i + 8 ≤ 32 → (hi ++ lo).extractLsb' i 8 = lo.extractLsb' i 8 :=
    fun i h ↦ BitVec.extractLsb'_append_eq_of_add_le h
  have hhigh : ∀ i, (hi ++ lo).extractLsb' (32 + i) 8 = hi.extractLsb' i 8 := by
    intro i
    rw [BitVec.extractLsb'_append_eq_of_le (Nat.le_add_right 32 i), Nat.add_sub_cancel_left]
  rw [imm64, hlow 0 (by decide), hlow 8 (by decide), hlow 16 (by decide), hlow 24 (by decide),
    hhigh 0, hhigh 8, hhigh 16, hhigh 24]
  rfl

/-- `rex`: the prefix with its four bits. -/
def rex (w : Bool) (r x b : Byte) : Byte :=
  0x40 ||| (if w then 0x08 else 0) ||| ((r &&& 1) <<< 2) ||| ((x &&& 1) <<< 1) ||| (b &&& 1)

/-- `rex_r`: the 64-bit prefix for a register and an operand. -/
def rexR (reg rm : Byte) : Byte := rex true (reg >>> 3) 0 (rm >>> 3)

/-- `rex_rm`: the prefix without the 64-bit bit. -/
def rexRm (reg rm : Byte) : Byte := rex false (reg >>> 3) 0 (rm >>> 3)

def modrm (mod reg rm : Byte) : Byte := (mod <<< 6) ||| ((reg &&& 7) <<< 3) ||| (rm &&& 7)

def sib (scale index base : Byte) : Byte := (scale <<< 6) ||| ((index &&& 7) <<< 3) ||| (base &&& 7)

/-- `emit_modrm_disp`: a base register with the shortest displacement. There is no `sib` byte
for any base. -/
def emitModrmDisp (reg base : Byte) (disp : BitVec 32) : List Byte :=
  if disp == 0 && base != rbp then
    [modrm 0 reg (base &&& 7)]
  else if (-128#32).sle disp && disp.sle 127#32 then
    [modrm 1 reg (base &&& 7), disp.extractLsb' 0 8]
  else
    modrm 2 reg (base &&& 7) :: imm32 disp

/-- `emit_modrm_sib_disp`: a base and a scaled index. A base of `R13` is not told from one that
needs no displacement. -/
def emitModrmSibDisp (reg base index scale : Byte) (disp : BitVec 32) : List Byte :=
  if disp == 0 && base != rbp && base != rsp then
    [modrm 0 reg 4, sib scale index base]
  else if (-128#32).sle disp && disp.sle 127#32 then
    [modrm 1 reg 4, sib scale index base, disp.extractLsb' 0 8]
  else
    modrm 2 reg 4 :: sib scale index base :: imm32 disp

/-- `mov_r64_imm` -/
def movR64Imm (reg : Byte) (imm : BitVec 64) : List Byte :=
  rex true 0 0 (reg >>> 3) :: (0xb8 ||| (reg &&& 7)) :: imm64 imm

/-- The shared body of the two-register helpers: `dest` goes to the `reg` field and `src` to
`rm`. -/
def regReg (opcode dest src : Byte) : List Byte :=
  [rexR dest src, opcode, modrm 3 (dest &&& 7) (src &&& 7)]

def movR64R64 (dest src : Byte) : List Byte := regReg 0x89 dest src
def addR64R64 (dest src : Byte) : List Byte := regReg 0x01 dest src
def subR64R64 (dest src : Byte) : List Byte := regReg 0x29 dest src
def andR64R64 (dest src : Byte) : List Byte := regReg 0x21 dest src
def orR64R64 (dest src : Byte) : List Byte := regReg 0x09 dest src
def xorR64R64 (dest src : Byte) : List Byte := regReg 0x31 dest src
def testR64R64 (a b : Byte) : List Byte := regReg 0x85 a b

/-- `cmp_r64_r64`: the prefix is built from the first operand alone. -/
def cmpR64R64 (a b : Byte) : List Byte := [rexR 0 a, 0x3b, modrm 3 (a &&& 7) (b &&& 7)]

/-- `cmp_r64_imm32` -/
def cmpR64Imm32 (reg : Byte) (imm : BitVec 32) : List Byte :=
  rexR 0 reg :: 0x81 :: modrm 3 7 (reg &&& 7) :: imm32 imm

/-- `adc_r64_r64`: the destination's high bit goes to the index bit of the prefix. -/
def adcR64R64 (dest src : Byte) : List Byte :=
  [rex true 0 (dest >>> 3) (src >>> 3), 0x11, modrm 3 (dest &&& 7) (src &&& 7)]

/-- `sbb_r64_r64` -/
def sbbR64R64 (dest src : Byte) : List Byte :=
  [rex true 0 (dest >>> 3) (src >>> 3), 0x19, modrm 3 (dest &&& 7) (src &&& 7)]

/-- `emit_test_r64_r64` -/
def emitTestR64R64 (a b : Byte) : List Byte :=
  [rex true 0 (a >>> 3) (b >>> 3), 0x85, modrm 3 (a &&& 7) (b &&& 7)]

/-- `cmov_r64_r64` -/
def cmovR64R64 (cond dest src : Byte) : List Byte :=
  [rexR dest src, 0x0f, 0x40 + cond, modrm 3 (dest &&& 7) (src &&& 7)]

/-- `emit_cmovcc` -/
def emitCmovcc (cond dest src : Byte) : List Byte :=
  [rex true 0 (dest >>> 3) (src >>> 3), 0x0f, 0x40 ||| (cond &&& 0x0f),
    modrm 3 (dest &&& 7) (src &&& 7)]

/-- `imul_r64_r64`: the two-byte opcode reads its operands the way they are passed. -/
def imulR64R64 (dest src : Byte) : List Byte :=
  [rexR dest src, 0x0f, 0xaf, modrm 3 (dest &&& 7) (src &&& 7)]

/-- `movzx_r64_r8`: the destination's high bit goes to the index bit of the prefix. -/
def movzxR64R8 (dest src : Byte) : List Byte :=
  [rex true 0 (dest >>> 3) (src >>> 3), 0x0f, 0xb6, modrm 3 (dest &&& 7) (src &&& 7)]

/-- `add_r64_imm8`: the prefix lacks the 64-bit bit. -/
def addR64Imm8 (reg imm : Byte) : List Byte :=
  [rexRm 1 (reg >>> 3), 0x83, modrm 3 0 (reg &&& 7), imm]

/-- The shared body of the shifts by an immediate, told apart by the opcode extension. -/
def shiftImm8 (ext reg amount : Byte) : List Byte :=
  [rexR 0 reg, 0xc1, modrm 3 ext (reg &&& 7), amount]

def shlR64Imm8 (reg amount : Byte) : List Byte := shiftImm8 4 reg amount
def shrR64Imm8 (reg amount : Byte) : List Byte := shiftImm8 5 reg amount
def sarR64Imm8 (reg amount : Byte) : List Byte := shiftImm8 7 reg amount

/-- The shared body of the one-operand group `F7`. -/
def unaryR64 (ext reg : Byte) : List Byte := [rexR 0 reg, 0xf7, modrm 3 ext (reg &&& 7)]

def notR64 (reg : Byte) : List Byte := unaryR64 2 reg
def negR64 (reg : Byte) : List Byte := unaryR64 3 reg
def divR64 (src : Byte) : List Byte := unaryR64 6 src
def idivR64 (src : Byte) : List Byte := unaryR64 7 src

def emitCqo : List Byte := [0x48, 0x99]
def emitMfence : List Byte := [0x0f, 0xae, 0xf0]
def emitLfence : List Byte := [0x0f, 0xae, 0xe8]
def emitSyscall : List Byte := [0x0f, 0x05]

/-- `emit_bswap`: the prefix lacks the 64-bit bit. -/
def emitBswap (reg : Byte) : List Byte := [rexRm 1 (reg >>> 3), 0x0f, 0xc8 ||| (reg &&& 7)]

/-- The source widths `emit_movsx` and `emit_movzx` are called with. -/
inductive Width where
  | byte
  | half
deriving DecidableEq, Repr

/-- `emit_movsx` for 8 and 16 bits. -/
def emitMovsx (size : Width) (dest src : Byte) : List Byte :=
  let op : Byte := match size with
    | .byte => 0xbe
    | .half => 0xbf
  [rex true 0 (dest >>> 3) (src >>> 3), 0x0f, op, modrm 3 (dest &&& 7) (src &&& 7)]

/-- `emit_movzx` for 8 and 16 bits. -/
def emitMovzx (size : Width) (dest src : Byte) : List Byte :=
  let op : Byte := match size with
    | .byte => 0xb6
    | .half => 0xb7
  [rex true 0 (dest >>> 3) (src >>> 3), 0x0f, op, modrm 3 (dest &&& 7) (src &&& 7)]

/-- `emit_movsxd` -/
def emitMovsxd (dest src : Byte) : List Byte :=
  [rex true 0 (dest >>> 3) (src >>> 3), 0x63, modrm 3 (dest &&& 7) (src &&& 7)]

/-- `emit_movzx` for 32 bits: a `mov` of the low halves. -/
def emitMovzx32 (dest src : Byte) : List Byte :=
  [rex false 0 (dest >>> 3) (src >>> 3), 0x89, modrm 3 (src &&& 7) (dest &&& 7)]

/-- The shared body of `bsf_r64_r64` and `bsr_r64_r64`, without a mandatory prefix, and of the
counts behind `F3`. -/
def bitsR64R64 (pre : List Byte) (opcode dest src : Byte) : List Byte :=
  pre ++ [rex true 0 (dest >>> 3) (src >>> 3), 0x0f, opcode, modrm 3 (dest &&& 7) (src &&& 7)]

def bsfR64R64 (dest src : Byte) : List Byte := bitsR64R64 [] 0xbc dest src
def bsrR64R64 (dest src : Byte) : List Byte := bitsR64R64 [] 0xbd dest src
def lzcntR64R64 (dest src : Byte) : List Byte := bitsR64R64 [0xf3] 0xbd dest src
def tzcntR64R64 (dest src : Byte) : List Byte := bitsR64R64 [0xf3] 0xbc dest src
def popcntR64R64 (dest src : Byte) : List Byte := bitsR64R64 [0xf3] 0xb8 dest src

/-- `emit_jmp`, with the position it returns: that of the opcode. -/
def emitJmp (offset : BitVec 32) : List Byte × Nat := (0xe9 :: imm32 (offset - 5), 0)

/-- `emit_call`, with the position of the opcode. -/
def emitCall (offset : BitVec 32) : List Byte × Nat := (0xe8 :: imm32 (offset - 5), 0)

/-- `emit_call_reg`: the opcode extension is passed as the register of the prefix. -/
def emitCallReg (reg : Byte) : List Byte := [rexR 2 reg, 0xff, modrm 3 2 (reg &&& 7)]

/-- `emit_jmp_reg` -/
def emitJmpReg (reg : Byte) : List Byte := [rexR 0 reg, 0xff, modrm 3 4 (reg &&& 7)]

/-- `emit_jcc`, with the position of the displacement. -/
def emitJcc (cond : Byte) (offset : BitVec 32) : List Byte × Nat :=
  (0x0f :: cond :: imm32 (offset - 6), 2)

/-- `emit_lock_cmpxchg_mem`: the prefix is built from the register alone, as if it were the base. -/
def emitLockCmpxchgMem (reg base : Byte) (disp : BitVec 32) : List Byte :=
  0xf0 :: rexR 0 reg :: 0x0f :: 0xb1 :: emitModrmDisp (reg &&& 7) base disp

/-- `emit_lock_xadd_mem`: the prefix has no bit for the base. -/
def emitLockXaddMem (reg base : Byte) (disp : BitVec 32) : List Byte :=
  0xf0 :: rexR reg 0 :: 0x0f :: 0xc1 :: emitModrmDisp (reg &&& 7) base disp

/-- The shared body of the scalar floating-point helpers: a prefix and an `0F` opcode over two
low vector registers. -/
def sseOp (pre opcode dest src : Byte) : List Byte :=
  [pre, 0x0f, opcode, 0xc0 ||| ((dest &&& 7) <<< 3) ||| (src &&& 7)]

def emitAddsdXmmXmm (dest src : Byte) : List Byte := sseOp 0xf2 0x58 dest src
def emitSubsdXmmXmm (dest src : Byte) : List Byte := sseOp 0xf2 0x5c dest src
def emitMulsdXmmXmm (dest src : Byte) : List Byte := sseOp 0xf2 0x59 dest src
def emitDivsdXmmXmm (dest src : Byte) : List Byte := sseOp 0xf2 0x5e dest src
def emitSqrtsdXmmXmm (dest src : Byte) : List Byte := sseOp 0xf2 0x51 dest src
def emitCvtss2sd (dest src : Byte) : List Byte := sseOp 0xf3 0x5a dest src
def emitCvtsd2ss (dest src : Byte) : List Byte := sseOp 0xf2 0x5a dest src
def comisdXmmXmm (a b : Byte) : List Byte := sseOp 0x66 0x2f a b

end Arm2x86.X86
