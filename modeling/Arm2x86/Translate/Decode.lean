import Mathlib.Init

/-!
# The A64 decoder

`modules/arm2x86_decode64.c`: a chain of mask tests that sorts an instruction word into one of the
`INSTR_` kinds of `arm2x86.h` and extracts its fields. The order of the tests is the order of the
source, also where an earlier test hides a later one.
-/

namespace Arm2x86.Translate

/-- The `INSTR_` constants the decoder produces or the translator's switch names. -/
inductive InstrType where
  | unknown | bl | adr | adrp | b | bCond | ldrLiteral | cbz | cbnz | tbz | tbnz | ret | br | blr
  | dataproc | ldst | mov | add | sub | and | orr | eor | lsl | lsr | asr | ror | cmp | csel
  | stp | ldp | str | ldr | strb | ldrb | strh | ldrh | movz | movk | movn | rsb | tst | cmn
  | mul | bic | mvn | clz | brk | hlt | eret | csinc
  | fmovReg | fmovImm | fadd | fsub | fmul | fdiv | fabs | fneg | fsqrt | fcmp | fcmpe | fcvt
  | fmadd | fmsub | fnmadd | fnmsub | ldrSimd | strSimd | dmb | dsb | isb | mrs | msr | svc | hint
  | adc | sbc | neg | smulh | umulh | madd | msub | bfi | bfxil | sbfm | ubfm | bfc | extr | orn
  | ccmn | ccmp | cinc | cinv | cneg | cset | csinv | csneg | fcsel | sdiv | udiv
  | sxtb | sxth | uxtb | uxth | sxtw | uxtw | prfm | rbit | rev | ldrsb | ldrsh | ldrsw
  | neonAdd | neonSub | neonMul | neonDiv | neonAnd | neonOrr | neonEor | neonBsl | neonExt
  | neonIns | neonDup | neonMovi | neonXtn | neonSqxtn | neonUqxtn | neonSqxtun | neonShl | neonShr
  | neonUsra | neonSsra | neonUshl | neonSshl | neonUmull | neonSmull | neonPmul
  | neonFadd | neonFsub | neonFmul | neonFdiv | neonFmla | neonFmls | neonFmax | neonFmin
  | neonFcvt | neonFcmp | neonFrecpe | neonFrsqrte | neonFsqrt | neonFabs | neonFneg
  | ldaxr | stlxr | cas | ldadd | crc32 | crc32c | aesd | aese | aesmc | aesimc | sha256
deriving DecidableEq, Repr

/-- `DecodedInstruction`, the fields the decoder fills in. A register field has five bits, so the
decoder's test for numbers above 31 never fails. -/
structure DecodedInstruction where
  instrType : InstrType := .unknown
  imm : BitVec 32 := 0
  rd : BitVec 5 := 0
  rn : BitVec 5 := 0
  rm : BitVec 5 := 0
  rt : BitVec 5 := 0
  rt2 : BitVec 5 := 0
  is64bit : Bool := false
  decoded : Bool := false
  cond : BitVec 4 := 0
  shiftType : BitVec 2 := 0
  shiftImm : BitVec 8 := 0
deriving DecidableEq, Repr

/-- `sign_extend64`: the low `bits` bits, sign-extended and cut to 32. -/
def signExtend64 (val : BitVec 64) (bits : Nat) : BitVec 32 :=
  ((val <<< (64 - bits)).sshiftRight (64 - bits)).setWidth 32

/-- The register field at a bit position. -/
def regAt (op : BitVec 32) (lo : Nat) : BitVec 5 := op.extractLsb' lo 5

/-- A field of an instruction word, as an unsigned 64-bit value. -/
def fieldAt (op : BitVec 32) (lo len : Nat) : BitVec 64 := (op.extractLsb' lo len).setWidth 64

/-- `(op & mask) == value`. -/
def maskEq (op mask value : BitVec 32) : Bool := op &&& mask == value

/-- The kind of a bitfield instruction. -/
def bitfieldType (n : Bool) (opc : BitVec 2) (imm shiftImm : BitVec 6) : InstrType :=
  let kind : InstrType :=
    if !n && opc == 0 then
      if shiftImm == 0 then .asr else if shiftImm == 31 then .lsl else .sbfm
    else if !n && opc == 2 then
      if shiftImm == 0 then .lsr else .ubfm
    else if !n && opc == 3 then .extr
    else if opc == 0 then .sbfm
    else if opc == 2 then .ubfm
    else .extr
  if kind == .sbfm && imm == 7 && shiftImm == 0 then .sxtb
  else if kind == .sbfm && imm == 15 && shiftImm == 0 then .sxth
  else if kind == .ubfm && imm == 7 && shiftImm == 0 then .uxtb
  else if kind == .ubfm && imm == 15 && shiftImm == 0 then .uxth
  else kind

/-- `decode_dp_register`. -/
def decodeDpRegister (op : BitVec 32) : DecodedInstruction :=
  let opc : BitVec 2 := op.extractLsb' 29 2
  let d : DecodedInstruction :=
    { rd := regAt op 0, rn := regAt op 5, rm := regAt op 16, is64bit := op.getLsbD 31 }
  let shifted : DecodedInstruction :=
    { d with
      shiftType := op.extractLsb' 22 2
      shiftImm := (op.extractLsb' 10 6).setWidth 8
      decoded := true }
  if maskEq op 0x1fe00000 0x0a000000 then
    { shifted with
      instrType := if opc == 0 then .and else if opc == 1 then .bic else if opc == 2 then .orr
        else .orn }
  else if maskEq op 0x1fe00000 0x0b000000 then
    { shifted with instrType := if op.extractLsb' 30 2 == 0 then .add else .sub }
  else if maskEq op 0x1fe00000 0x1a000000 then
    { d with instrType := if maskEq op 0x00600000 0 then .adc else .sbc, decoded := true }
  else if maskEq op 0x1fe00000 0x1ac00000 then
    { d with instrType := if op.getLsbD 11 then .udiv else .sdiv, decoded := true }
  else if maskEq op 0x1f800000 0x1b000000 then
    { d with
      instrType :=
        if op.getLsbD 31 then .madd
        else if !op.getLsbD 22 then .mul
        else if op.getLsbD 21 then .smulh
        else .umulh
      decoded := true }
  else if maskEq op 0x1fe00000 0x1a800000 then
    let d := { d with cond := op.extractLsb' 0 4 }
    let opcodeHi : BitVec 5 := op.extractLsb' 12 5
    if opcodeHi == 0 then { d with instrType := .csel, decoded := true }
    else if opcodeHi == 2 then { d with instrType := .ccmn, decoded := true }
    else if opcodeHi == 4 then { d with instrType := .ccmp, decoded := true }
    else if opcodeHi == 8 then { d with instrType := .cset, decoded := true }
    else { d with instrType := .dataproc, decoded := false }
  else if maskEq op 0x7f800000 0x13000000 || maskEq op 0x7f800000 0x53000000 then
    { d with
      instrType :=
        bitfieldType (op.getLsbD 22) opc (op.extractLsb' 10 6) (op.extractLsb' 16 6)
      imm := (op.extractLsb' 10 6).setWidth 32
      shiftImm := (op.extractLsb' 16 6).setWidth 8
      is64bit := op.getLsbD 22
      decoded := true }
  else if maskEq op 0x1f800000 0x12000000 || maskEq op 0x7f800000 0x32000000 then
    { d with
      instrType := if opc == 0 then .and else if opc == 1 then .bic else if opc == 2 then .orr
        else .orn
      decoded := true }
  else if maskEq op 0xffe00000 0xd2800000 || maskEq op 0xffe00000 0x92800000
      || maskEq op 0xffe00000 0xf2800000 || maskEq op 0xffe00000 0x52800000
      || maskEq op 0xffe00000 0x12800000 || maskEq op 0xffe00000 0x72800000 then
    if opc == 1 then
      { d with instrType := .dataproc, decoded := false }
    else
      { d with
        instrType := if opc == 0 then .movn else if opc == 2 then .movz else .movk
        imm := (op.extractLsb' 5 16).setWidth 32
        shiftImm := (op.extractLsb' 21 2).setWidth 8 * 16
        rn := 0
        rm := 0
        decoded := true }
  else if maskEq op 0x7fe0fc00 0x1ac00000 then
    let crcOp : BitVec 3 := op.extractLsb' 10 3
    if crcOp == 0 || crcOp == 4 then { d with instrType := .crc32, decoded := true }
    else if crcOp == 1 || crcOp == 5 then { d with instrType := .crc32c, decoded := true }
    else { d with instrType := .dataproc, decoded := false }
  else
    { d with instrType := .dataproc, decoded := true }

/-- `decode_loadstore`. -/
def decodeLoadstore (op : BitVec 32) : DecodedInstruction :=
  let isLoad := op.getLsbD 22
  let size : BitVec 2 := op.extractLsb' 30 2
  let d : DecodedInstruction := { rt := regAt op 0, rn := regAt op 5, is64bit := op.getLsbD 31 }
  if maskEq op 0x3b200c00 0x38000000 then
    { d with
      imm := signExtend64 (fieldAt op 12 9) 9
      instrType := if isLoad then .ldr else .str
      decoded := true }
  else if maskEq op 0x3b000000 0x39000000 then
    { d with
      imm := (op.extractLsb' 10 12).setWidth 32 <<< size.toNat
      is64bit := size == 3
      instrType := if isLoad then .ldr else .str
      decoded := true }
  else if maskEq op 0xbf000000 0x18000000 then
    { d with
      imm := signExtend64 (fieldAt op 5 19 <<< 2) 21
      is64bit := op.getLsbD 30
      instrType := if isLoad then .ldrLiteral else .prfm
      decoded := true }
  else if maskEq op 0x7fc00000 0x28800000 || maskEq op 0x7fc00000 0x29800000 then
    { d with
      rt2 := regAt op 10
      imm := signExtend64 (fieldAt op 15 7) 7 <<< (if size == 3 then 3 else 2 : Nat)
      is64bit := size == 3
      instrType := if isLoad then .ldp else .stp
      decoded := true }
  else
    { d with instrType := .unknown, decoded := false }

/-- The vector kinds of the `0x0e` and `0x4e` groups. -/
def neonIntType (opcode : BitVec 6) : InstrType :=
  if opcode == 0x09 then .neonAdd else if opcode == 0x19 then .neonSub
  else if opcode == 0x01 then .neonAnd else if opcode == 0x03 then .neonOrr
  else if opcode == 0x07 then .neonEor else if opcode == 0x08 then .neonMul
  else if opcode == 0x11 then .neonBsl else if opcode == 0x13 then .neonExt
  else if opcode == 0x10 then .neonIns else if opcode == 0x18 then .neonShl
  else .neonAdd

/-- The vector kinds of the `0x1e` group. -/
def neonFpType (opcode : BitVec 6) : InstrType :=
  if opcode == 0x09 then .neonFadd else if opcode == 0x19 then .neonFsub
  else if opcode == 0x08 then .neonFmul else if opcode == 0x1a then .neonFdiv
  else if opcode == 0x15 then .neonFmax else if opcode == 0x14 then .neonFmin
  else if opcode == 0x03 then .neonFmla else if opcode == 0x1e then .neonFabs
  else if opcode == 0x2e then .neonFneg else if opcode == 0x1c then .neonFsqrt
  else if opcode == 0x1f then .neonFcvt else if opcode == 0x0b then .neonFmls
  else .neonFadd

/-- The system group `0xd5`; `none` where the source falls through to the later tests. -/
def decodeSystem (op : BitVec 32) : Option DecodedInstruction :=
  if maskEq op 0xfff00000 0xd5300000 then
    some { instrType := .mrs, rt := regAt op 0, decoded := true }
  else if maskEq op 0xfff00000 0xd5100000 then
    some { instrType := .msr, rt := regAt op 0, decoded := true }
  else if op == 0xd50330bf then some { instrType := .dmb, decoded := true }
  else if op == 0xd503309f then some { instrType := .dsb, decoded := true }
  else if op == 0xd50330df then some { instrType := .isb, decoded := true }
  else if op == 0xd4000001 || op == 0xd4000002 || op == 0xd4000003 then
    some { instrType := .svc, imm := (op.extractLsb' 5 16).setWidth 32, decoded := true }
  else if maskEq op 0xffff001f 0xd503001f then
    let crm : BitVec 4 := op.extractLsb' 16 4
    let op2 : BitVec 4 := op.extractLsb' 12 4
    some
      { instrType := if crm == 0 && op2 ≤ 4 then .hint else .dataproc
        decoded := true }
  else none

/-- The tests behind the system group. -/
def decodeRest (op : BitVec 32) : DecodedInstruction :=
  let regs : DecodedInstruction := { rd := regAt op 0, rn := regAt op 5, decoded := true }
  let regs3 : DecodedInstruction := { regs with rm := regAt op 16 }
  if maskEq op 0x0a000000 0x08000000 || maskEq op 0x3b000000 0x28000000
      || maskEq op 0x3b000000 0x38000000 || maskEq op 0x3b000000 0x39000000 then
    decodeLoadstore op
  else if maskEq op 0x3b200000 0x08200000 then
    let o3 : BitVec 3 := op.extractLsb' 22 3
    { instrType := if o3 == 3 then .cas else if o3 == 0 then .ldadd else .ldst, decoded := true }
  else if maskEq op 0x5f000000 0x0e000000 || maskEq op 0x5f000000 0x4e000000 then
    { regs3 with is64bit := op.getLsbD 30, instrType := neonIntType (op.extractLsb' 11 6) }
  else if maskEq op 0x5f000000 0x1e000000 then
    { regs3 with is64bit := op.getLsbD 30, instrType := neonFpType (op.extractLsb' 11 6) }
  else if maskEq op 0xbf000000 0x0d000000 || maskEq op 0xbf000000 0x0c000000 then
    { regs with instrType := if op.getLsbD 22 then .ldrSimd else .strSimd }
  else if maskEq op 0x7fe0fc00 0x1a000000 then
    let crcOp : BitVec 3 := op.extractLsb' 10 3
    { regs3 with instrType := if crcOp == 0 || crcOp == 4 then .crc32 else .crc32c }
  else if maskEq op 0x5f20fc00 0x48200000 || maskEq op 0x5f20fc00 0x48201000
      || maskEq op 0x5f20fc00 0x48202000 || maskEq op 0x5f20fc00 0x48203000 then
    let opcode : BitVec 3 := op.extractLsb' 10 3
    { regs with
      instrType := if opcode == 1 then .aesd else if opcode == 2 then .aesmc
        else if opcode == 3 then .aesimc else .aese }
  else if maskEq op 0xff00fc00 0x58000000 then { regs3 with instrType := .sha256 }
  else if maskEq op 0x1f000000 0x1e000000 then { instrType := .fmovReg, decoded := true }
  else if op == 0xd69c03c0 then { instrType := .eret, decoded := true }
  else if maskEq op 0xfff0001f 0xd4200000 then
    { instrType := .brk, imm := (op.extractLsb' 5 16).setWidth 32, decoded := true }
  else if maskEq op 0xfff0001f 0xd4400000 then
    { instrType := .hlt, imm := (op.extractLsb' 5 16).setWidth 32, decoded := true }
  else decodeDpRegister op

/-- `arm2x86_decode` on an aligned instruction. -/
def decode (op : BitVec 32) : DecodedInstruction :=
  if op == 0x00000000 || op == 0xffffffff then {}
  else if maskEq op 0xfc000000 0x94000000 then
    { instrType := .bl, imm := signExtend64 (fieldAt op 0 26 <<< 2) 28, decoded := true }
  else if maskEq op 0xfc000000 0x14000000 then
    { instrType := .b, imm := signExtend64 (fieldAt op 0 26 <<< 2) 28, decoded := true }
  else if maskEq op 0xfffffc1f 0xd61f0000 then
    { instrType := .br, rn := regAt op 5, decoded := true }
  else if maskEq op 0xfffffc1f 0xd63f0000 then
    { instrType := .blr, rn := regAt op 5, decoded := true }
  else if op == 0xd65f03c0 then { instrType := .ret, decoded := true }
  else if maskEq op 0xff000010 0x54000000 then
    let cond : BitVec 4 := op.extractLsb' 0 4
    { instrType := .bCond
      cond := if 14 < cond then 14 else cond
      imm := signExtend64 ((fieldAt op 5 20 &&& 0xffffe) <<< 1) 19
      decoded := true }
  else if maskEq op 0x7e000000 0x34000000 then
    { rn := regAt op 5
      imm := signExtend64 (fieldAt op 5 19 <<< 2) 21
      is64bit := op.getLsbD 31
      instrType := if op.getLsbD 24 then .cbnz else .cbz
      decoded := true }
  else if maskEq op 0x7e000000 0x36000000 then
    { rt := regAt op 5
      imm := signExtend64 (fieldAt op 5 14 <<< 2) 16
      shiftImm := (op.extractLsb' 19 5).setWidth 8
      instrType := if op.getLsbD 24 then .tbnz else .tbz
      decoded := true }
  else
    let system := if maskEq op 0xff000000 0xd5000000 then decodeSystem op else none
    system.getD (decodeRest op)

end Arm2x86.Translate
