import Arm2x86.Translate.Memory

/-!
# Floating-point and vector translators

The scalar floating-point translators of `modules/arm2x86_translate64.c` and the vector ones of
`modules/arm2x86_neon.c`. Scalar operands pass from the register home through `R11` into a vector
register; vector operands are the low eight vector registers, whatever their number.
-/

namespace Arm2x86.Translate

open X86

/-- The precision bit. -/
def isDouble (op : BitVec 32) : Bool := op.getLsbD 22

/-- `MOVQ` or `MOVD` between a vector register in the `reg` field and a general register in `rm`. -/
def movVector (dir : Byte) (double : Bool) (reg rm : Byte) : Code :=
  if double then [0x66, 0x48, 0x0f, dir, modrm 3 (reg &&& 7) (rm &&& 7)]
  else [0x66, 0x0f, dir, modrm 3 (reg &&& 7) (rm &&& 7)]

/-- `emit_load_arm_reg_fp`: the move into the vector register lacks the prefix bit for `R11`. -/
def emitLoadArmRegFp (armReg : ArmReg) (xmm : Byte) (double : Bool) : List Code :=
  [rexR r11 rbp :: 0x8b :: modrm 2 (r11 &&& 7) 5 :: imm32 (armRegOffset armReg),
    movVector 0x6e double xmm r11]

/-- `emit_store_arm_reg_fp`: the operands of the move are exchanged. -/
def emitStoreArmRegFp (xmm : Byte) (armReg : ArmReg) (double : Bool) : List Code :=
  [movVector 0x7e double r11 xmm,
    rexRm (r11 >>> 3) 0 :: 0x89 :: modrm 2 (r11 &&& 7) 5 :: imm32 (armRegOffset armReg)]

/-- A scalar operation in the precision of the instruction. -/
def scalarOp (double : Bool) (opcode dest src : Byte) : Code :=
  if double then sseOp 0xf2 opcode dest src
  else [0xf3, 0x0f, opcode, modrm 3 (dest &&& 7) (src &&& 7)]

/-- The shared body of the two-operand arithmetic. -/
def fpBinary (opcode : Byte) (op : BitVec 32) : List Code :=
  let double := isDouble op
  emitLoadArmRegFp (armReg op 5) xmm0 double ++ emitLoadArmRegFp (armReg op 16) xmm1 double ++
    scalarOp double opcode xmm0 xmm1 :: emitStoreArmRegFp xmm0 (armReg op 0) double

def translateFadd (op : BitVec 32) : List Code := fpBinary 0x58 op
def translateFsub (op : BitVec 32) : List Code := fpBinary 0x5c op
def translateFmul (op : BitVec 32) : List Code := fpBinary 0x59 op
def translateFdiv (op : BitVec 32) : List Code := fpBinary 0x5e op

/-- `translate_fcmp`: both precisions are compared as doubles. -/
def translateFcmp (op : BitVec 32) : List Code :=
  let double := isDouble op
  emitLoadArmRegFp (armReg op 5) xmm0 double ++ emitLoadArmRegFp (armReg op 16) xmm1 double ++
    [comisdXmmXmm xmm0 xmm1]

/-- `translate_fcvt` -/
def translateFcvt (op : BitVec 32) : List Code :=
  let src := op.extractLsb' 22 2 == (1 : BitVec 2)
  let dst := op.extractLsb' 29 2 == (1 : BitVec 2)
  emitLoadArmRegFp (armReg op 5) xmm0 src ++
    if !src && dst then emitCvtss2sd xmm0 xmm0 :: emitStoreArmRegFp xmm0 (armReg op 0) true
    else if src && !dst then emitCvtsd2ss xmm0 xmm0 :: emitStoreArmRegFp xmm0 (armReg op 0) false
    else []

/-- The bits of the value `translate_fmov_imm` computes: `(1 + m / 8) * 2 ^ (exp - 3)`, which is
exact in both precisions, and what the host makes of a negative shift count otherwise. -/
def fmovBits (env : Env) (op : BitVec 32) : BitVec 64 :=
  let imm8 : BitVec 32 := ((op >>> 13) &&& 0x40) ||| ((op >>> 5) &&& 0x3f)
  let exp := (imm8.extractLsb' 3 3).toNat
  let mantissa := (imm8.extractLsb' 0 3).toNat
  if imm8 == 0 then 0
  else if exp < 3 then env.fmovNegative op
  else if isDouble op then BitVec.ofNat 64 ((1023 + exp - 3) * 2 ^ 52 + mantissa * 2 ^ 49)
  else BitVec.ofNat 64 ((127 + exp - 3) * 2 ^ 23 + mantissa * 2 ^ 20)

/-- `translate_fmov_imm` -/
def translateFmovImm (env : Env) (op : BitVec 32) : List Code :=
  let double := isDouble op
  [movR64Imm r11 (fmovBits env op), movVector 0x6e double xmm0 r11] ++
    emitStoreArmRegFp xmm0 (armReg op 0) double

/-- `translate_fsqrt` -/
def translateFsqrt (op : BitVec 32) : List Code :=
  let double := isDouble op
  emitLoadArmRegFp (armReg op 5) xmm0 double ++
    scalarOp double 0x51 xmm0 xmm0 :: emitStoreArmRegFp xmm0 (armReg op 0) double

/-- `translate_fabs` and `translate_fneg`: a mask through the general registers. -/
def fpMask (mask mask32 : BitVec 64) (combine : Byte → Byte → Code) (op : BitVec 32) : List Code :=
  let double := isDouble op
  emitLoadArmRegFp (armReg op 5) xmm0 double ++
    [movVector 0x7e double r11 xmm0, movR64Imm rcx (if double then mask else mask32),
      combine r11 rcx, movVector 0x6e double xmm0 r11] ++
    emitStoreArmRegFp xmm0 (armReg op 0) double

def translateFabs (op : BitVec 32) : List Code := fpMask 0x7fffffffffffffff 0x7fffffff andR64R64 op
def translateFneg (op : BitVec 32) : List Code := fpMask 0x8000000000000000 0x80000000 xorR64R64 op

/-- `translate_fmadd` and `translate_fmsub` -/
def fpMulAcc (opcode : Byte) (op : BitVec 32) : List Code :=
  let double := isDouble op
  emitLoadArmRegFp (armReg op 10) xmm0 double ++ emitLoadArmRegFp (armReg op 5) xmm1 double ++
    emitLoadArmRegFp (armReg op 16) xmm2 double ++
    [scalarOp double 0x59 xmm1 xmm2, scalarOp double opcode xmm0 xmm1] ++
    emitStoreArmRegFp xmm0 (armReg op 0) double

def translateFmadd (op : BitVec 32) : List Code := fpMulAcc 0x58 op
def translateFmsub (op : BitVec 32) : List Code := fpMulAcc 0x5c op

/-- `translate_fcsel` -/
def translateFcsel (op : BitVec 32) : List Code :=
  let double := isDouble op
  let load := fun r ↦ emitLoadArmRegFp r xmm0 double
  let store := emitStoreArmRegFp xmm0 (armReg op 0) double
  if condAt op == 0x00 then load (armReg op 5) ++ store
  else if condAt op == 0xff then load (armReg op 16) ++ store
  else load (armReg op 5) ++ jccOver (condAt op ^^^ 1) (load (armReg op 16)) ++ store

/-- `emit_negsd_xmm_xmm` with both operands the same register. -/
def emitNegsd (xmm : Byte) : List Code :=
  [0x48 :: 0xb8 :: imm64 0x8000000000000000, [0x49, 0x0f, 0x6e, modrm 3 3 3],
    [0x66, 0x0f, 0x57, modrm 3 (xmm &&& 7) 3]]

/-- `translate_fnmadd` and `translate_fnmsub`: single precision only copies. -/
def fpNegMulAcc (opcode : Byte) (op : BitVec 32) : List Code :=
  let double := isDouble op
  emitLoadArmRegFp (armReg op 5) xmm0 double ++ emitLoadArmRegFp (armReg op 16) xmm1 double ++
    emitLoadArmRegFp (armReg op 10) xmm2 double ++
    (if double then
      emitMulsdXmmXmm xmm0 xmm1 :: (emitNegsd xmm0 ++ [sseOp 0xf2 opcode xmm0 xmm2])
    else []) ++
    emitStoreArmRegFp xmm0 (armReg op 0) double

def translateFnmadd (op : BitVec 32) : List Code := fpNegMulAcc 0x5c op
def translateFnmsub (op : BitVec 32) : List Code := fpNegMulAcc 0x58 op

/-- The crypto translators: one vector opcode on a double. -/
def cryptoOp (opcode : Byte) (op : BitVec 32) : List Code :=
  emitLoadArmRegFp (armReg op 5) xmm0 true ++
    [0x66, 0x0f, 0x38, opcode, modrm 3 (xmm0 &&& 7) (xmm0 &&& 7)] ::
    emitStoreArmRegFp xmm0 (armReg op 0) true

def translateAese (op : BitVec 32) : List Code := cryptoOp 0xdb op
def translateAesd (op : BitVec 32) : List Code := cryptoOp 0xde op
def translateAesmc (op : BitVec 32) : List Code := cryptoOp 0xdc op
def translateAesimc (op : BitVec 32) : List Code := cryptoOp 0xdc op

/-- `translate_sha256`: the result is not stored. -/
def translateSha256 (op : BitVec 32) : List Code :=
  let opcode := (op.extractLsb' 10 3).toNat
  emitLoadArmRegFp (if opcode ≤ 1 then armReg op 16 else armReg op 5) xmm0 false ++
    [[0x0f, 0x38, if opcode ≤ 1 then 0xc9 else 0xc8, modrm 3 (xmm0 &&& 7) (xmm0 &&& 7)]]

/-- `neon_to_xmm` -/
def neonToXmm (v : BitVec 5) : Byte := (v.setWidth 4).setWidth 8

/-- The vector registers of an instruction. -/
def vd (op : BitVec 32) : Byte := neonToXmm (regAt op 0)
def vn (op : BitVec 32) : Byte := neonToXmm (regAt op 5)
def vm (op : BitVec 32) : Byte := neonToXmm (regAt op 16)

/-- A vector operation on two registers. -/
def vecOp (opcode : List Byte) (dest src : Byte) : Code :=
  opcode ++ [modrm 3 (dest &&& 7) (src &&& 7)]

/-- A vector operation in one of two precisions. -/
def vecOp2 (double : Bool) (opcode dest src : Byte) : Code :=
  vecOp ((if double then [0x66] else []) ++ [0x0f, opcode]) dest src

def translateNeonAdd (env : Env) (op : BitVec 32) : List Code :=
  if env.simdEnabled then [vecOp2 (op.getLsbD 30) 0x58 (vd op) (vm op)] else []

def translateNeonSub (op : BitVec 32) : List Code := [vecOp2 (op.getLsbD 30) 0x5c (vd op) (vm op)]

/-- `translate_neon_mul`: the 32-bit opcode is misspelt. -/
def translateNeonMul (op : BitVec 32) : List Code :=
  if op.extractLsb' 22 2 == (2 : BitVec 2) then [vecOp [0x66, 0x0f, 0x40, 0xd5] (vd op) (vm op)]
  else [vecOp [0x66, 0x0f, 0xd5] (vd op) (vm op)]

/-- The extraction of element `i` of a vector register into the general register `reg`: the
operands of the instruction are exchanged. -/
def divExtract (size : BitVec 2) (reg xmm i : Byte) : Code :=
  let opcode : Byte := if size == 0 then 0x14 else if size == 1 then 0x15 else 0x16
  [if size == 3 then 0x48 else 0x66, 0x0f, 0x3a, opcode, modrm 3 reg (xmm &&& 7), i]

/-- The instructions `translate_neon_div` emits for element `i`. -/
def neonDivElement (signed : Bool) (size : BitVec 2) (xvd xvn xvm i : Byte) : List Code :=
  let widen : List Code :=
    if signed then if size == 0 then [[0x48, 0x98]] else if size == 1 then [[0x66, 0x98]] else []
    else []
  divExtract size 0 xvn i :: ((if size == 0 then [[0x48, 0x89, 0xc0]] else []) ++ widen) ++
    [0x49, 0x89, 0xc2] :: divExtract size 1 xvm i ::
    (widen ++ (if size == 3 then [[0x48, 0x89, 0xc1], [0x49, 0x89, 0xd0]] else [])) ++
    (if size == 3 then [0x48, 0x85, 0xc9] else [0x85, 0xc9]) :: [0x74, 0x15] ::
    (if size == 3 then
      if signed then [[0x48, 0x99], [0xf7, 0xf9]] else [[0x48, 0x31, 0xd2], [0x48, 0xf7, 0xf1]]
    else if signed then [if size == 2 then [0x99] else [0x66, 0x99], [0xf7, 0xf9]]
    else [[0x31, 0xd2], [0xf7, 0xf1]]) ++
    [[0xeb, 0x0a], [0x31, 0xc0],
      if size == 0 then [0x66, 0x0f, 0x3a, 0x20, modrm 3 (xvd &&& 7) 0, i]
      else if size == 1 then [0x66, 0x0f, 0xc4, modrm 3 (xvd &&& 7) 0, i]
      else if size == 2 then [0x66, 0x0f, 0x3a, 0x22, modrm 3 (xvd &&& 7) 0, i]
      else [0x66, 0x0f, 0x3a, 0x22, 0x48, modrm 3 (xvd &&& 7) 0, i]]

/-- `translate_neon_div` -/
def translateNeonDiv (op : BitVec 32) : List Code :=
  let size : BitVec 2 := op.extractLsb' 20 2
  let elements := if size == 0 then 16 else if size == 1 then 8 else if size == 2 then 4 else 2
  [[0x50], [0x51], [0x52], [0x41, 0x50], [0x41, 0x51], [0x41, 0x52]] ++
    (List.range elements).flatMap (fun i ↦
      neonDivElement (op.getLsbD 4) size (vd op) (vn op) (vm op) (BitVec.ofNat 8 i)) ++
    [[0x41, 0x5a], [0x41, 0x59], [0x41, 0x58], [0x5a], [0x59], [0x58]]

/-- `neon_and` -/
def neonAnd (dest src : Byte) : Code := vecOp [0x66, 0x0f, 0xdb] dest src

def translateNeonAnd (op : BitVec 32) : List Code := [neonAnd (vd op) (vm op)]
def translateNeonOrr (op : BitVec 32) : List Code := [vecOp [0x66, 0x0f, 0xeb] (vd op) (vm op)]
def translateNeonEor (op : BitVec 32) : List Code := [vecOp [0x66, 0x0f, 0xef] (vd op) (vm op)]

/-- `modrm(buf, 0, reg, 4); sib(buf, 0, 4, base)` and four displacement bytes. -/
def vecSlot (opcode : List Byte) (reg base disp : Byte) : Code :=
  opcode ++ [modrm 0 (reg &&& 7) 4, sib 0 4 base, disp, 0x00, 0x00, 0x00]

/-- `translate_neon_bsl`: the slots are absolute addresses, not stack slots. -/
def translateNeonBsl (op : BitVec 32) : List Code :=
  [[0x48, 0x83, 0xec, 0x30], vecSlot [0x0f, 0x29] (vd op) 5 0x00, vecSlot [0x0f, 0x29] (vm op) 5 0x10,
    neonAnd (vd op) (vd op), vecSlot [0x0f, 0x29] (vd op) 5 0x20,
    vecSlot [0x66, 0x0f, 0x28] (vd op) 5 0x00, vecOp [0x66, 0x0f, 0xef] 0 0,
    vecOp [0x66, 0x0f, 0x74] 0 0, vecOp [0x66, 0x0f, 0xef] (vd op) 0, neonAnd (vd op) (vm op),
    vecSlot [0x66, 0x0f, 0x56] (vd op) 5 0x20, [0x48, 0x83, 0xc4, 0x30]]

def translateNeonExt (op : BitVec 32) : List Code :=
  [vecOp [0x66, 0x0f, 0x3a, 0x0f] (vd op) (vm op) ++ [(op.extractLsb' 11 4).setWidth 8]]

def translateNeonDup (op : BitVec 32) : List Code :=
  let size : BitVec 2 := op.extractLsb' 22 2
  if size == 2 then [vecOp [0x66, 0x0f, 0x70] (vd op) (vn op) ++ [0x00]]
  else if size == 3 then [vecOp [0xf2, 0x0f, 0x12] (vd op) (vn op)]
  else if size == 1 then [vecOp [0xf3, 0x0f, 0x70] (vd op) (vn op) ++ [0x00]]
  else [vecOp [0x66, 0x0f, 0x6f] (vd op) (vn op)]

def translateNeonMovi (op : BitVec 32) : List Code :=
  [0x48 :: 0xb8 :: imm64 (fieldAt op 5 8), vecOp [0x66, 0x48, 0x0f, 0x6e] (vd op) 0] ++
    if op.extractLsb' 22 2 == (2 : BitVec 2) then [vecOp [0x66, 0x0f, 0x70] (vd op) (vd op) ++ [0x00]]
    else []

/-- `neon_shl` and `neon_shr`: a copy and a shift of 16-bit elements. -/
def neonShift (ext dest src shift : Byte) : List Code :=
  [vecOp [0x66, 0x0f, 0x6f] dest src, vecOp [0x66, 0x0f, 0x71] ext dest ++ [shift]]

/-- The shift amount of the vector shifts. -/
def neonShiftImm (op : BitVec 32) : Byte := (op.extractLsb' 16 6).setWidth 8

def translateNeonShl (op : BitVec 32) : List Code := neonShift 6 (vd op) (vn op) (neonShiftImm op)
def translateNeonShr (op : BitVec 32) : List Code := neonShift 2 (vd op) (vn op) (neonShiftImm op)

def translateNeonIns (op : BitVec 32) : List Code :=
  [vecOp [0x66, 0x0f, 0x3a, 0x22] (vd op) (vn op) ++ [(op.extractLsb' 20 4).setWidth 8]]

/-- The narrowing translators: the opcode for 32-bit elements differs between them, and 64-bit
elements are moved to a general register. -/
def neonNarrow (narrow8 narrow16 : List Byte) (op : BitVec 32) : List Code :=
  let size : BitVec 2 := op.extractLsb' 22 2
  if size == 1 then [vecOp narrow16 (vd op) (vn op)]
  else if size == 2 then [vecOp [0x66, 0x0f, 0x7e] (vd op) (vn op)]
  else [vecOp narrow8 (vd op) (vn op)]

def translateNeonXtn (op : BitVec 32) : List Code :=
  neonNarrow [0x66, 0x0f, 0x67] [0x66, 0x0f, 0x38, 0x2b] op
def translateNeonSqxtn (op : BitVec 32) : List Code :=
  neonNarrow [0x66, 0x0f, 0x6b] [0x66, 0x0f, 0x6b] op
def translateNeonUqxtn (op : BitVec 32) : List Code :=
  neonNarrow [0x66, 0x0f, 0x67] [0x66, 0x0f, 0x38, 0x2b] op
def translateNeonSqxtun (op : BitVec 32) : List Code :=
  neonNarrow [0x66, 0x0f, 0x6b] [0x66, 0x0f, 0x6b] op

/-- The accumulating shifts: the shift between a spill of `Vn` and an addition. -/
def neonShiftAcc (shift : List Code) (op : BitVec 32) : List Code :=
  [[0x48, 0x83, 0xec, 0x10], vecSlot [0x0f, 0x29] (vn op) 5 0x00] ++ shift ++
    [vecOp [0x66, 0x0f, 0xfe] (vd op) (vn op), [0x48, 0x83, 0xc4, 0x10]]

def translateNeonUsra (op : BitVec 32) : List Code :=
  neonShiftAcc (neonShift 2 (vn op) (vn op) (neonShiftImm op)) op
def translateNeonSsra (op : BitVec 32) : List Code :=
  neonShiftAcc [vecOp [0x66, 0x0f, 0x72] 4 (vn op) ++ [neonShiftImm op]] op

def translateNeonUshl (op : BitVec 32) : List Code := [vecOp [0x66, 0x0f, 0xf3] (vd op) (vm op)]
def translateNeonSshl (op : BitVec 32) : List Code := [vecOp [0x66, 0x0f, 0xe3] (vd op) (vm op)]

/-- `neon_umull` and `neon_smull` have one body. -/
def neonMull (op : BitVec 32) : List Code :=
  if op.extractLsb' 22 2 == (1 : BitVec 2) then [vecOp [0x66, 0x0f, 0xd5] (vd op) (vm op)]
  else [vecOp [0x66, 0x0f, 0x38, 0x40] (vd op) (vm op)]

def translateNeonUmull (op : BitVec 32) : List Code := neonMull op
def translateNeonSmull (op : BitVec 32) : List Code := neonMull op

def translateNeonPmul (op : BitVec 32) : List Code :=
  [vecOp [0x66, 0x0f, 0x3a, 0x44] (vd op) (vm op) ++ [0x00]]

def translateNeonFadd (env : Env) (op : BitVec 32) : List Code :=
  if env.simdEnabled then [vecOp2 true 0x58 (vd op) (vm op)] else []

def translateNeonFsub (op : BitVec 32) : List Code := [vecOp2 true 0x5c (vd op) (vm op)]
def translateNeonFmul (op : BitVec 32) : List Code :=
  [vecOp [0x0f, 0x28] (vd op) (vn op), vecOp [0x0f, 0x59] (vd op) (vm op)]
def translateNeonFmax (op : BitVec 32) : List Code := [vecOp [0x0f, 0x5f] (vd op) (vm op)]
def translateNeonFmin (op : BitVec 32) : List Code := [vecOp [0x0f, 0x5d] (vd op) (vm op)]

def translateNeonFcvt (op : BitVec 32) : List Code :=
  let srcInt := op.getLsbD 22
  let dstInt := op.getLsbD 30
  if !srcInt && dstInt then [vecOp [0x66, 0x0f, 0x5b] (vd op) (vn op)]
  else if srcInt && !dstInt then [vecOp [0x0f, 0x5b] (vd op) (vn op)]
  else [vecOp [0x66, 0x0f, 0x5a] (vd op) (vn op)]

def translateNeonFsqrt (op : BitVec 32) : List Code := [vecOp [0x0f, 0x51] (vd op) (vn op)]
def translateNeonFrecpe (op : BitVec 32) : List Code := [vecOp [0x0f, 0x53] (vd op) (vn op)]
def translateNeonFrsqrte (op : BitVec 32) : List Code := [vecOp [0x0f, 0x52] (vd op) (vn op)]

/-- `translate_neon_fmla`: the slot operands carry four bytes too many. -/
def translateNeonFmla (op : BitVec 32) : List Code :=
  let double := isDouble op
  let pre : List Byte := if double then [0x66] else []
  [[0x48, 0x83, 0xec, 0x10], vecSlot [0x0f, 0x29] (vd op) 4 0x00, vecOp2 double 0x28 (vd op) (vn op),
    vecOp2 double 0x59 (vd op) (vm op), vecSlot (pre ++ [0x0f, 0x58]) (vd op) 4 0x00,
    [0x48, 0x83, 0xc4, 0x10]]

/-- `translate_neon_fmls` -/
def translateNeonFmls (op : BitVec 32) : List Code :=
  let double := isDouble op
  let pre : List Byte := if double then [0x66] else []
  [[0x48, 0x83, 0xec, 0x20], vecSlot [0x0f, 0x29] (vd op) 4 0x00, [0x48, 0x83, 0xec, 0x10],
    vecOp2 double 0x28 0 (vn op), vecOp2 double 0x59 0 (vm op), vecSlot [0x0f, 0x29] 0 4 0x10,
    vecSlot (pre ++ [0x0f, 0x28]) (vd op) 4 0x20, vecSlot (pre ++ [0x0f, 0x5c]) (vd op) 4 0x10,
    [0x48, 0x83, 0xc4, 0x30]]

def translateNeonFabs (op : BitVec 32) : List Code := [vecOp [0x66, 0x0f, 0x38, 0x40] (vd op) (vn op)]
def translateNeonFneg (op : BitVec 32) : List Code := [vecOp [0x0f, 0x57] (vd op) (vn op)]
def translateNeonFcmp (op : BitVec 32) : List Code :=
  [vecOp [0x66, 0x0f, 0xc2] (vd op) (vm op) ++ [0x00]]

/-- `neon_ldr` and `neon_str`: the base is a vector register number used as a general register's,
and a displacement is emitted as a second ModRM byte. -/
def neonAccess (opcode : Byte) (op : BitVec 32) : List Code :=
  let base := regAt op 5
  let xbase := neonToXmm base
  let xvt := vd op
  let offset : BitVec 32 := (op.extractLsb' 10 12).setWidth 32
  let pre : Byte := if op.extractLsb' 30 2 == (2 : BitVec 2) then 0x66 else 0xf3
  if base = 31 then
    [[pre, 0x0f, opcode, modrm 0 (xvt &&& 7) 4, sib 0 4 5] ++ imm32 offset]
  else
    [[pre, 0x0f, opcode, modrm 0 (xvt &&& 7) (xbase &&& 7)] ++
      if offset != 0 then
        [0x80 ||| ((xvt &&& 7) <<< 3) ||| (xbase &&& 7), offset.extractLsb' 0 8]
      else []]

def translateLdrSimd (op : BitVec 32) : List Code := neonAccess 0x6f op
def translateStrSimd (op : BitVec 32) : List Code := neonAccess 0x7f op

end Arm2x86.Translate
