import Arm2x86.Translate.Block

/-!
# The 32-bit translator

`modules/arm2x86_translate32.c`, with the fused multiplications of `modules/arm2x86_syscall.c:982`.
Each word becomes a prologue for its condition and the body of its class. A translator of the source
appends to the output; here it returns the bytes.
-/

namespace Arm2x86.Arm32

open X86

/-- `arm2x86_map_register_arm32`, by the table `g_reg_map_arm32`. -/
def mapRegisterArm32 (r : BitVec 4) : Byte :=
  ([rax, rdi, rsi, rdx, rcx, r8, r9, r10, r11, 12, 13, 14, 15, rsp, rbp, rbx] : List Byte).getD
    r.toNat rax

/-- The host register of a register field. -/
def regAt (op : BitVec 32) (lo : Nat) : Byte := mapRegisterArm32 (op.extractLsb' lo 4)

/-- `arm32_to_x86_cond` -/
def arm32ToX86Cond (cond : BitVec 4) : Byte :=
  ([0x84, 0x85, 0x83, 0x82, 0x88, 0x89, 0x80, 0x81, 0x87, 0x86, 0x8d, 0x8c, 0x8f, 0x8e, 0x00, 0xff] :
    List Byte).getD cond.toNat 0

/-- `arm32_get_cond` -/
def getCond (op : BitVec 32) : BitVec 4 := op.extractLsb' 28 4

def condAl : BitVec 4 := 14
def condNv : BitVec 4 := 15

/-- `emit_cond_prologue`, patched by `patch_cond_jump` to reach over a body of `n` bytes. -/
def condPrologue (cond : BitVec 4) (n : Nat) : List Byte :=
  if cond = condAl then []
  else if cond = condNv then [0x90]
  else 0x0f :: arm32ToX86Cond cond :: imm32 (BitVec.ofNat 32 n)

section DataProcessing

/-- `ror` -/
def ror (val : BitVec 32) (amount : Nat) : BitVec 32 := val.rotateRight (amount % 32)

/-- Both forms of `BIC`: the second operand is kept on the stack and inverted in place. -/
def bic (xrd xrn xrm : Byte) : List Byte :=
  movR64R64 xrd xrn ++ [0x48, 0x83, 0xec, 0x10] ++
    [0x48, 0x89, modrm 0 (xrm &&& 7) 4, sib 0 4 4] ++ notR64 xrm ++ andR64R64 xrd xrm ++
    [0x48, 0x8b, modrm 0 (xrm &&& 7) 4, sib 0 4 4] ++ [0x48, 0x83, 0xc4, 0x10]

/-- The immediate forms of `translate_arm32_dp`. Only the moves, the comparison and one subtraction
use the immediate. -/
def translateArm32DpImm (opcodeDp : BitVec 4) (xrd xrn xrm : Byte) (imm : BitVec 32) : List Byte :=
  match opcodeDp.toNat with
  | 4 | 11 => movR64R64 xrd xrn ++ addR64R64 xrd xrm
  | 10 => cmpR64Imm32 xrn imm
  | 2 => movR64R64 xrd xrn ++ rexR xrd xrd :: 0x81 :: modrm 3 5 (xrd &&& 7) :: imm32 imm
  | 12 | 13 => movR64Imm xrd (imm.setWidth 64)
  | 0 => movR64R64 xrd xrn ++ andR64R64 xrd xrm
  | 1 => movR64R64 xrd xrn ++ xorR64R64 xrd xrm
  | 14 => bic xrd xrn xrm
  | 15 => movR64Imm xrd ((~~~ imm).setWidth 64)
  | _ => [0x90]

/-- The register forms of `translate_arm32_dp`. -/
def translateArm32DpReg (opcodeDp : BitVec 4) (xrd xrn xrm : Byte) : List Byte :=
  match opcodeDp.toNat with
  | 0 | 1 => movR64R64 xrd xrn ++ andR64R64 xrd xrm
  | 2 | 3 => movR64R64 xrd xrn ++ subR64R64 xrd xrm
  | 4 | 5 => movR64R64 xrd xrn ++ addR64R64 xrd xrm
  | 6 => movR64R64 xrd xrn ++ adcR64R64 xrd xrm
  | 7 => movR64R64 xrd xrn ++ sbbR64R64 xrd xrm
  | 8 | 9 => movR64R64 r11 xrn ++ andR64R64 r11 xrm
  | 11 => movR64R64 r11 xrm ++ negR64 r11 ++ cmpR64R64 xrn r11
  | 10 => cmpR64R64 xrn xrm
  | 12 | 13 => movR64R64 xrd xrm
  | 14 => bic xrd xrn xrm
  | _ => movR64R64 xrd xrm ++ notR64 xrd

/-- `translate_arm32_dp`: the destination is read from the low field, the second operand from
bits 8 to 11. -/
def translateArm32Dp (op : BitVec 32) : List Byte :=
  let xrd := regAt op 0
  let xrn := regAt op 16
  let xrm := regAt op 8
  let opcodeDp := op.extractLsb' 21 4
  if op.getLsbD 25 then
    let imm := ror (op &&& 0xff) ((op.extractLsb' 8 4).toNat * 2)
    translateArm32DpImm opcodeDp xrd xrn xrm imm
  else
    translateArm32DpReg opcodeDp xrd xrn xrm

/-- `translate_arm32_mul` -/
def translateArm32Mul (op : BitVec 32) (isMla : Bool) : List Byte :=
  let xrd := regAt op 16
  movR64R64 xrd (regAt op 12) ++ imulR64R64 xrd (regAt op 8) ++
    if isMla then addR64R64 xrd (regAt op 0) else []

end DataProcessing

section Memory

/-- `translate_arm32_ldst`: a displacement behind a `rm` field of 5. -/
def translateArm32Ldst (op : BitVec 32) : List Byte :=
  let xrt := regAt op 0
  let xrn := regAt op 16
  let isLoad := op.getLsbD 20
  let isByte := op.getLsbD 22
  let offset := if op.getLsbD 23 then op &&& 0xfff else - (op &&& 0xfff)
  if isByte then
    if isLoad then
      rexR 0 xrn :: 0x0f :: 0xb6 :: modrm 0 (xrt &&& 7) 5 :: imm32 offset
    else
      rexRm xrn xrt :: 0x88 :: modrm 0 (xrn &&& 7) 5 :: imm32 offset
  else
    rexR xrt xrn :: (if isLoad then 0x8b else 0x89) :: modrm 0 (xrt &&& 7) 5 :: imm32 offset

/-- One move of a load or store of several registers: a `sib` byte without displacement, and then
the four bytes of the offset. -/
def multipleMove (isLoad : Bool) (xr xrn : Byte) (offset : BitVec 32) : List Byte :=
  rexR xr xrn :: (if isLoad then 0x8b else 0x89) :: modrm 0 (xr &&& 7) 4 :: sib 0 4 (xrn &&& 7) ::
    imm32 offset

/-- The loop over the registers, from an offset on, with the offset behind it. -/
def multipleLoop (isLoad : Bool) (xrn : Byte) (regList : BitVec 16) :
    List (BitVec 4) → BitVec 32 → List Byte × BitVec 32
  | [], offset => ([], offset)
  | r :: rs, offset =>
    if regList.getLsbD r.toNat then
      let (code, last) := multipleLoop isLoad xrn regList rs (offset + 4)
      (multipleMove isLoad (mapRegisterArm32 r) xrn offset ++ code, last)
    else
      multipleLoop isLoad xrn regList rs offset

/-- The registers in ascending order. -/
def registers : List (BitVec 4) := (List.range 16).map (BitVec.ofNat 4)

/-- `translate_arm32_ldm_stm`: bits 23 and 24, which tell the four addressing modes apart, are not
read. -/
def translateArm32LdmStm (op : BitVec 32) : List Byte :=
  let rn := op.extractLsb' 16 4
  let xrn := mapRegisterArm32 rn
  let (code, offset) := multipleLoop (op.getLsbD 20) xrn (op.extractLsb' 0 16) registers 0
  code ++ if op.getLsbD 21 && rn != 15 then addR64Imm8 xrn (offset.extractLsb' 0 8) else []

end Memory

section FloatingPoint

/-- The fields `Vd`, `Vn` and `Vm` with their extension bits, of which the low four bits are
used. -/
def vdAt (op : BitVec 32) : BitVec 32 := (op >>> 12 &&& 0xf) ||| (op >>> 22 &&& 0x10)
def vnAt (op : BitVec 32) : BitVec 32 := (op >>> 16 &&& 0xf) ||| (op >>> 5 &&& 0x10)
def vmAt (op : BitVec 32) : BitVec 32 := (op &&& 0xf) ||| (op >>> 1 &&& 0x10)

/-- `xvd`, `xvn` and `xvm`. -/
def xmmOf (v : BitVec 32) : Byte := (v &&& 0xf).setWidth 8

/-- A scalar operation in double or single precision. -/
def scalar (isDouble : Bool) (opcode a b : Byte) : List Byte :=
  [if isDouble then 0xf2 else 0xf3, 0x0f, opcode, modrm 3 (a &&& 7) (b &&& 7)]

/-- `translate_arm32_vfp` -/
def translateArm32Vfp (op : BitVec 32) : List Byte :=
  let xvd := xmmOf (vdAt op)
  let xvn := xmmOf (vnAt op)
  let isDouble := op.getLsbD 8
  match (op.extractLsb' 20 4).toNat with
  | 0x3 => scalar isDouble 0x58 xvd xvn
  | 0x7 => scalar isDouble 0x5c xvd xvn
  | 0x2 => scalar isDouble 0x59 xvd xvn
  | 0x8 => scalar isDouble 0x5e xvd xvn
  | 0x4 => [0x66, 0x0f, 0x2f, modrm 3 (xvd &&& 7) (xvn &&& 7)]
  | 0xc => scalar true (if op &&& 0xf0 = 0 then 0x2a else 0x2d) xvd xvn
  | _ => [0x90]

/-- `translate_arm32_vfma` and `translate_arm32_vfms`: a product into `Vn`, and what is done with it
in `Vd`. -/
def fused (opcode : Byte) (op : BitVec 32) : List Byte :=
  let isDouble := op.getLsbD 8
  scalar isDouble 0x59 (xmmOf (vnAt op)) (xmmOf (vmAt op)) ++
    scalar isDouble opcode (xmmOf (vdAt op)) (xmmOf (vnAt op))

def translateArm32Vfma (op : BitVec 32) : List Byte := fused 0x58 op
def translateArm32Vfms (op : BitVec 32) : List Byte := fused 0x5c op

/-- `translate_arm32_vldr_vstr`: the prefix stands behind the opcode. -/
def translateArm32VldrVstr (op : BitVec 32) : List Byte :=
  let xvd := xmmOf (vdAt op)
  let xrn := regAt op 16
  let offset := (op &&& 0xff) * 4
  [if op.getLsbD 8 then 0xf2 else 0xf3, 0x0f, if op.getLsbD 20 then 0x10 else 0x11,
    rex false (xvd >>> 3) 0 (xrn >>> 3), modrm 1 (xvd &&& 7) (xrn &&& 7), offset.extractLsb' 0 8]

/-- One register of `translate_arm32_vpush_vpop`. -/
def vpushVpopOne (isPush : Bool) (xvd size : Byte) : List Byte :=
  if isPush then
    [rex true 0 0 (rsp >>> 3), 0x83, modrm 3 5 (rsp &&& 7), size] ++
      [0x66, 0x0f, 0xd9, modrm 0 (xvd &&& 7) 4, sib 0 4 (rsp &&& 7)]
  else
    [0x66, 0x0f, 0x6f, modrm 0 (xvd &&& 7) 4, sib 0 4 (rsp &&& 7)] ++
      [rex true 0 0 (rsp >>> 3), 0x83, modrm 3 0 (rsp &&& 7), size]

/-- `translate_arm32_vpush_vpop` -/
def translateArm32VpushVpop (op : BitVec 32) : List Byte :=
  let size : Byte := if op.getLsbD 8 then 8 else 4
  (List.range (op.extractLsb' 0 8).toNat).flatMap fun i ↦
    vpushVpopOne (op.getLsbD 20) (xmmOf (vdAt op + BitVec.ofNat 32 i)) size

end FloatingPoint

section Jumps

/-- `translate_arm32_branch`: the offset is sign-extended from bit 25. -/
def translateArm32Branch (op : BitVec 32) : List Byte :=
  let offset := (op &&& 0x00ffffff) <<< 2
  let offset := if offset.getLsbD 25 then offset ||| 0xfc000000 else offset
  if op.getLsbD 24 then (emitCall offset).1 else (emitJmp offset).1

/-- `translate_arm32_bx` -/
def translateArm32Bx (op : BitVec 32) (isBlx : Bool) : List Byte :=
  if isBlx then emitCallReg (regAt op 0) else emitJmpReg (regAt op 0)

end Jumps

section Dispatch

/-- The branches of the dispatch. -/
inductive Class where
  | mul
  | dp
  | ldst
  | ldmStm
  | branch
  | vfma
  | vfms
  | vfp
  | vldrVstr
  | vpushVpop
  | bx
  | svc
  | other
deriving DecidableEq, Repr

/-- The tests of `arm2x86_convert_block_arm32`, in their order. -/
def dispatch (op : BitVec 32) : Class :=
  if op &&& 0x0c000000 = 0 ∧ op &&& 0x01000000 = 0 then
    if op &&& 0x0ff00000 = 0 ∧ op &&& 0x000f0000 = 0x00090000 then .mul else .dp
  else if op &&& 0x0e000000 = 0x04000000 then .ldst
  else if op &&& 0x0e000000 = 0x08000000 then .ldmStm
  else if op &&& 0x0e000000 = 0x0a000000 then .branch
  else if op &&& 0x0f000000 = 0x0e000000 ∧ op &&& 0x00000010 = 0 then
    if op &&& 0x0ff00ff0 = 0x0ea00a00 then .vfma
    else if op &&& 0x0ff00ff0 = 0x0ea00a40 then .vfms
    else .vfp
  else if op &&& 0x0f000010 = 0x0d000000 ∨ op &&& 0x0f000010 = 0x0c000010 then .vldrVstr
  else if op &&& 0x0ff00000 = 0x0d200000 ∨ op &&& 0x0ff00000 = 0x0c900000 then .vpushVpop
  else if op &&& 0x0ffffff0 = 0x012fff10 then .bx
  else if op &&& 0x0f000000 = 0x0f000000 then .svc
  else .other

/-- The translation of a word without its condition. -/
def body (op : BitVec 32) : List Byte :=
  match dispatch op with
  | .mul => translateArm32Mul op (op.getLsbD 21)
  | .dp => translateArm32Dp op
  | .ldst => translateArm32Ldst op
  | .ldmStm => translateArm32LdmStm op
  | .branch => translateArm32Branch op
  | .vfma => translateArm32Vfma op
  | .vfms => translateArm32Vfms op
  | .vfp => translateArm32Vfp op
  | .vldrVstr => translateArm32VldrVstr op
  | .vpushVpop => translateArm32VpushVpop op
  | .bx => translateArm32Bx op (op.getLsbD 4)
  | .svc => emitSyscall
  | .other => [0x90]

/-- The prologue in front of the body of a word. -/
def prologue (op : BitVec 32) : List Byte := condPrologue (getCond op) (body op).length

/-- The translation of a word. -/
def translateWord (op : BitVec 32) : List Byte := prologue op ++ body op

/-- The turns of the loop `while (src < end)`. -/
def wordCount (size : Nat) : Nat := (size + 3) / 4

/-- The code of the first `n` words of a block. -/
def convertWords (blk : Translate.Block) (n : Nat) : List Byte :=
  (List.range n).flatMap fun k ↦ translateWord (blk.word k)

/-- `arm2x86_convert_block_arm32` -/
def convertBlockArm32 (blk : Translate.Block) : List Byte := convertWords blk (wordCount blk.size)

end Dispatch

end Arm2x86.Arm32
