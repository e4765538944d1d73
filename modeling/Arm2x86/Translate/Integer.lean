import Arm2x86.Translate.Decode
import Arm2x86.Translate.RegAlloc

/-!
# Integer translators

The translators of `modules/arm2x86_translate64.c` that compute on integer registers without the
allocator: they load their operands from the register home into `RAX`, `R11`, `RCX` or `RDX` and
store the result back. A translator is the list of instructions it emits, with forward jumps
already patched.
-/

namespace Arm2x86.Translate

open X86

/-- The guest register in the five bits at a position. -/
def armReg (op : BitVec 32) (lo : Nat) : ArmReg := (regAt op lo).toFin

/-- The `sf` bit. -/
def is64 (op : BitVec 32) : Bool := op.getLsbD 31

/-- `arm64_to_x86_cond`. -/
def arm64ToX86Cond (cond : BitVec 4) : Byte :=
  ([0x84, 0x85, 0x83, 0x82, 0x88, 0x89, 0x80, 0x81, 0x87, 0x86, 0x8d, 0x8c, 0x8f, 0x8e, 0x00, 0x00] :
    List Byte).getD cond.toNat 0

/-- The condition field of the conditional instructions. -/
def condAt (op : BitVec 32) : Byte := arm64ToX86Cond (op.extractLsb' 12 4)

/-- The number of bytes of some instructions, as the 32-bit offset a patch writes. -/
def byteCount (code : List Code) : BitVec 32 := BitVec.ofNat 32 code.flatten.length

/-- A conditional jump over some instructions. -/
def jccOver (opcode : Byte) (body : List Code) : List Code :=
  (0x0f :: opcode :: imm32 (byteCount body)) :: body

/-- A jump over some instructions. -/
def jmpOver (body : List Code) : Code := 0xe9 :: imm32 (byteCount body)

/-- The prefix `if (is_64bit) rex_rm(0, RAX >> 3)` in front of the one-operand group: it holds no
bit, so the operation stays 32-bit. -/
def unaryRax (w : Bool) (ext : Byte) : Code :=
  (if w then [rexRm 0 (rax >>> 3)] else []) ++ [0xf7, modrm 3 ext (rax &&& 7)]

/-- One operand through `RAX`. -/
def viaRax (rn rd : ArmReg) (w : Bool) (body : List Code) : List Code :=
  emitLoadArmReg rn rax w :: (body ++ [emitStoreArmReg rax rd w])

/-- Two operands in `RAX` and `R11`. -/
def loadPair (rn rm : ArmReg) (w : Bool) : List Code :=
  [emitLoadArmReg rn rax w, emitLoadArmReg rm r11 w]

/-- Two operands through `RAX` and `R11`. -/
def viaRaxR11 (rn rm rd : ArmReg) (w : Bool) (body : List Code) : List Code :=
  loadPair rn rm w ++ body ++ [emitStoreArmReg rax rd w]

/-- `translate_cmp` -/
def translateCmp (op : BitVec 32) : List Code :=
  loadPair (armReg op 5) (armReg op 16) (is64 op) ++ [cmpR64R64 rax r11]

/-- `translate_csel` -/
def translateCsel (op : BitVec 32) : List Code :=
  let w := is64 op
  let copy := fun r ↦ viaRax r (armReg op 0) w []
  if condAt op == 0x00 then copy (armReg op 5)
  else if condAt op == 0xff then copy (armReg op 16)
  else copy (armReg op 16) ++ jccOver (condAt op ^^^ 1) (copy (armReg op 5))

/-- `translate_mul` -/
def translateMul (op : BitVec 32) : List Code :=
  viaRaxR11 (armReg op 5) (armReg op 16) (armReg op 0) (is64 op) [imulR64R64 rax r11]

/-- `translate_div`: the patch for the second jump is written over its opcode. -/
def translateDiv (op : BitVec 32) : List Code :=
  let w := is64 op
  let signed := !op.getLsbD 11
  let store := emitStoreArmReg rax (armReg op 0) w
  let zero := [xorR64R64 rax rax, store]
  let divide :=
    [if signed then emitCqo else xorR64R64 rdx rdx, if signed then idivR64 r11 else divR64 r11,
      store, imm32 (byteCount zero + 1) ++ [0xff]]
  loadPair (armReg op 5) (armReg op 16) w ++ testR64R64 r11 r11 :: (jccOver 0x84 divide ++ zero)

/-- `translate_shift` -/
def translateShift (op : BitVec 32) : List Code :=
  let n := op.getLsbD 22
  let opc : BitVec 2 := op.extractLsb' 29 2
  let immr : Byte := (op.extractLsb' 16 6).setWidth 8
  viaRax (armReg op 5) (armReg op 0) n <|
    if opc == 0 && n then [sarR64Imm8 rax immr]
    else if opc == 2 then [shrR64Imm8 rax immr]
    else if opc == 0 && !n then [shlR64Imm8 rax immr]
    else []

/-- `translate_adc`: the encoding adds into `R11`. -/
def translateAdc (op : BitVec 32) : List Code :=
  viaRaxR11 (armReg op 5) (armReg op 16) (armReg op 0) (is64 op) [regReg 0x11 rax r11]

/-- `translate_sbc` -/
def translateSbc (op : BitVec 32) : List Code :=
  viaRaxR11 (armReg op 5) (armReg op 16) (armReg op 0) (is64 op) [regReg 0x19 rax r11]

/-- `translate_neg` -/
def translateNeg (op : BitVec 32) : List Code :=
  viaRax (armReg op 5) (armReg op 0) (is64 op) [unaryRax (is64 op) 3]

/-- `translate_rsb` -/
def translateRsb (op : BitVec 32) : List Code :=
  viaRaxR11 (armReg op 16) (armReg op 5) (armReg op 0) (is64 op) [subR64R64 rax r11]

/-- `translate_mvn` -/
def translateMvn (op : BitVec 32) : List Code :=
  viaRax (armReg op 16) (armReg op 0) (is64 op) [unaryRax (is64 op) 2]

/-- `translate_tst` -/
def translateTst (op : BitVec 32) : List Code :=
  loadPair (armReg op 5) (armReg op 16) (is64 op) ++ [testR64R64 rax r11]

/-- `translate_cmn` -/
def translateCmn (op : BitVec 32) : List Code :=
  loadPair (armReg op 5) (armReg op 16) (is64 op) ++ [addR64R64 rax r11]

/-- A rotation of `RAX` without the 64-bit prefix bit. -/
def rorRax (amount : Byte) : Code :=
  [rexRm 0 (rax >>> 3), 0xc1, modrm 3 1 (rax &&& 7), amount]

/-- `translate_ror_imm` -/
def translateRorImm (op : BitVec 32) : List Code :=
  viaRax (armReg op 5) (armReg op 0) (is64 op) [rorRax ((op.extractLsb' 16 6).setWidth 8)]

/-- `translate_extr` -/
def translateExtr (op : BitVec 32) : List Code :=
  let rd := armReg op 0
  let rn := armReg op 5
  let rm := armReg op 16
  let w := is64 op
  let immr : Byte := (op.extractLsb' 10 6).setWidth 8
  if rn = rm then
    viaRax rn rd w [rorRax immr]
  else
    viaRax rn rd w
      [shrR64Imm8 rax immr, emitLoadArmReg rm r11 w, shlR64Imm8 r11 (64 - immr), orR64R64 rax r11]

/-- `translate_madd` -/
def translateMadd (op : BitVec 32) : List Code :=
  let w := is64 op
  viaRaxR11 (armReg op 5) (armReg op 16) (armReg op 0) w
    [imulR64R64 rax r11, emitLoadArmReg (armReg op 10) r11 w, addR64R64 rax r11]

/-- `translate_msub` -/
def translateMsub (op : BitVec 32) : List Code :=
  let w := is64 op
  viaRaxR11 (armReg op 10) (armReg op 5) (armReg op 0) w
    [emitLoadArmReg (armReg op 16) rcx w, imulR64R64 r11 rcx, subR64R64 rax r11]

/-- `translate_smulh` and `translate_umulh`: the prefix is built from the shifted register number
and holds no bit. -/
def translateMulh (ext : Byte) (op : BitVec 32) : List Code :=
  loadPair (armReg op 5) (armReg op 16) true ++
    [[rexRm 0 (r11 >>> 3), 0xf7, modrm 3 ext (r11 &&& 7)], emitStoreArmReg rdx (armReg op 0) true]

def translateSmulh (op : BitVec 32) : List Code := translateMulh 5 op
def translateUmulh (op : BitVec 32) : List Code := translateMulh 4 op

/-- The general case of the bitfield moves: a shift by `immr` and a mask of `imms + 1` bits. -/
def shiftAndMask (shift : Byte → Byte → Code) (op : BitVec 32) : List Code :=
  let imms := (op.extractLsb' 10 6).toNat
  -- `1ULL << 64` is undefined; the shift instruction of the host takes the count modulo 64
  let mask : BitVec 64 := (1 <<< ((imms + 1) % 64)) - 1
  [shift rax ((op.extractLsb' 16 6).setWidth 8), movR64Imm r11 mask, andR64R64 rax r11]

/-- `translate_sbfm` -/
def translateSbfm (op : BitVec 32) : List Code :=
  let n := op.getLsbD 22
  let imms : BitVec 6 := op.extractLsb' 10 6
  let immr : BitVec 6 := op.extractLsb' 16 6
  viaRax (armReg op 5) (armReg op 0) n <|
    if imms < immr then [emitMovsx (if n then .half else .byte) rax rax]
    else shiftAndMask sarR64Imm8 op

/-- `translate_ubfm` -/
def translateUbfm (op : BitVec 32) : List Code :=
  let n := op.getLsbD 22
  let imms : BitVec 6 := op.extractLsb' 10 6
  let immr : BitVec 6 := op.extractLsb' 16 6
  viaRax (armReg op 5) (armReg op 0) n <|
    if imms < immr then [emitMovzx (if n then .half else .byte) rax rax]
    else shiftAndMask shrR64Imm8 op

/-- The mask of `width` low bits, with the host's rule for a shift by 64. -/
def lowMask (width : Nat) : BitVec 64 := (1 <<< (width % 64)) - 1

/-- The instructions `translate_bfi` and `translate_bfxil` share: clear the field, bring the source
in place and merge. -/
def insertField (op : BitVec 32) (mask : BitVec 64) (shift : Byte → Byte → Code) : List Code :=
  let w := is64 op
  viaRax (armReg op 0) (armReg op 0) w
    [movR64Imm r11 (~~~ mask), andR64R64 rax r11, emitLoadArmReg (armReg op 5) r11 w,
      shift r11 ((op.extractLsb' 16 6).setWidth 8), movR64Imm rcx mask, andR64R64 r11 rcx,
      orR64R64 rax r11]

/-- The width of the field of the bitfield inserts. -/
def fieldWidth (op : BitVec 32) : Nat :=
  (op.extractLsb' 10 6).toNat + 1 - (op.extractLsb' 16 6).toNat

/-- `translate_bfi`: `none` is the error return, which emits nothing. -/
def translateBfi (op : BitVec 32) : Option (List Code) :=
  if op.extractLsb' 10 6 < op.extractLsb' 16 6 then none
  else some (insertField op (lowMask (fieldWidth op) <<< (op.extractLsb' 16 6).toNat) shlR64Imm8)

/-- `translate_bfxil` -/
def translateBfxil (op : BitVec 32) : Option (List Code) :=
  if op.extractLsb' 10 6 < op.extractLsb' 16 6 then none
  else some (insertField op (lowMask (fieldWidth op)) shrR64Imm8)

/-- `translate_bfc`: here `imms < immr` is not tested, and the count of the shift, negative or
zero then, is taken modulo 64 as the host does. -/
def translateBfc (op : BitVec 32) : List Code :=
  let imms := (op.extractLsb' 10 6).toNat
  let immr := (op.extractLsb' 16 6).toNat
  let mask := lowMask (imms + 64 - immr + 1) <<< immr
  viaRax (armReg op 0) (armReg op 0) (is64 op) [movR64Imm r11 (~~~ mask), andR64R64 rax r11]

/-- The host flags for an `nzcv` immediate. -/
def rflagsBits (nzcv : BitVec 4) : BitVec 32 :=
  (if nzcv.getLsbD 3 then 1 <<< 7 else 0) ||| (if nzcv.getLsbD 2 then 1 <<< 6 else 0) |||
    (if nzcv.getLsbD 1 then 1 else 0) ||| (if nzcv.getLsbD 0 then 1 <<< 11 else 0)

/-- The path that sets the flags from an immediate through the stack. -/
def setNzcv (nzcv : BitVec 4) : List Code :=
  [[0x9c], [0x58], 0x48 :: 0x81 :: 0xe0 :: imm32 (~~~ 0x8c1)] ++
    (if rflagsBits nzcv != 0 then [0x48 :: 0x81 :: 0xc8 :: imm32 (rflagsBits nzcv)] else []) ++
    [[0x50], [0x9d]]

/-- The conditional compares: the instructions of the true path come first, behind a jump taken
on the condition. -/
def conditionalCompare (op : BitVec 32) (compare : List Code) : List Code :=
  let immediate := setNzcv (op.extractLsb' 0 4)
  let truePath := emitLoadArmReg (armReg op 5) rax (is64 op) :: (compare ++ [jmpOver immediate])
  jccOver (0x80 ||| condAt op) truePath ++ immediate

/-- `translate_ccmn` -/
def translateCcmn (op : BitVec 32) : List Code :=
  conditionalCompare op [unaryRax (is64 op) 3, testR64R64 rax rax]

/-- `translate_ccmp` -/
def translateCcmp (op : BitVec 32) : List Code := conditionalCompare op [testR64R64 rax rax]

/-- `translate_cset` -/
def translateCset (op : BitVec 32) : List Code :=
  [xorR64R64 rax rax, [0x0f, 0x90 ||| condAt op, modrm 3 0 (rax &&& 7)], movzxR64R8 rax rax,
    emitStoreArmReg rax (armReg op 0) (is64 op)]

/-- The conditional updates of `Rn`: the update is jumped over on the condition. -/
def conditionalUpdate (op : BitVec 32) (update : Code) : List Code :=
  viaRax (armReg op 5) (armReg op 0) (is64 op) (jccOver (0x80 ||| condAt op) [update])

/-- `translate_cinc` -/
def translateCinc (op : BitVec 32) : List Code := conditionalUpdate op (addR64Imm8 rax 1)

/-- `translate_cinv` -/
def translateCinv (op : BitVec 32) : List Code := conditionalUpdate op (unaryRax (is64 op) 2)

/-- `translate_cneg` -/
def translateCneg (op : BitVec 32) : List Code := conditionalUpdate op (unaryRax (is64 op) 3)

/-- `translate_csinc` -/
def translateCsinc (op : BitVec 32) : List Code :=
  viaRaxR11 (armReg op 5) (armReg op 16) (armReg op 0) (is64 op)
    (jccOver (0x80 ||| condAt op) [addR64Imm8 r11 1, movR64R64 rax r11])

/-- `translate_csinv` and `translate_csneg` -/
def conditionalSelect (op : BitVec 32) (ext : Byte) : List Code :=
  let w := is64 op
  viaRax (armReg op 5) (armReg op 0) w
    (jccOver (0x80 ||| condAt op) [emitLoadArmReg (armReg op 16) rax w, unaryRax w ext])

def translateCsinv (op : BitVec 32) : List Code := conditionalSelect op 2
def translateCsneg (op : BitVec 32) : List Code := conditionalSelect op 3

def translateSxtb (op : BitVec 32) : List Code :=
  viaRax (armReg op 5) (armReg op 0) (is64 op) [emitMovsx .byte rax rax]

def translateSxth (op : BitVec 32) : List Code :=
  viaRax (armReg op 5) (armReg op 0) (is64 op) [emitMovsx .half rax rax]

def translateUxtb (op : BitVec 32) : List Code :=
  viaRax (armReg op 5) (armReg op 0) (is64 op) [emitMovzx .byte rax rax]

def translateUxth (op : BitVec 32) : List Code :=
  viaRax (armReg op 5) (armReg op 0) (is64 op) [emitMovzx .half rax rax]

/-- `translate_sxtw` -/
def translateSxtw (op : BitVec 32) : List Code :=
  [emitLoadArmReg (armReg op 5) rax false, emitMovsxd rax rax,
    emitStoreArmReg rax (armReg op 0) true]

/-- `translate_uxtw` -/
def translateUxtw (op : BitVec 32) : List Code :=
  [emitLoadArmReg (armReg op 5) rax false, emitStoreArmReg rax (armReg op 0) true]

/-- `translate_clz`: the patch for the jump behind the count is written over its opcode. -/
def translateClz (op : BitVec 32) : List Code :=
  let zero := movR64Imm rax (if is64 op then 64 else 32)
  let count := [[rexR rax rax, 0xf3, 0x0f, 0xbd, modrm 3 (rax &&& 7) (rax &&& 7)],
    imm32 (byteCount [zero] + 1) ++ [0x00]]
  viaRax (armReg op 5) (armReg op 0) (is64 op)
    (testR64R64 rax rax :: (jccOver 0x84 count ++ [zero]))

/-- One stage of `translate_rbit`: swap neighbouring groups of `k` bits under a mask. -/
def rbitStage (mask : BitVec 64) (k : Byte) : List Code :=
  [movR64Imm r11 mask, [0x48, 0x89, modrm 3 (rdx &&& 7) (rax &&& 7)], andR64R64 rax r11,
    shlR64Imm8 rax k, shrR64Imm8 rdx k, andR64R64 rdx r11, orR64R64 rax rdx]

/-- `translate_rbit` -/
def translateRbit (op : BitVec 32) : List Code :=
  let w := is64 op
  viaRax (armReg op 5) (armReg op 0) w <|
    rbitStage (if w then 0x5555555555555555 else 0x55555555) 1 ++
    rbitStage (if w then 0x3333333333333333 else 0x33333333) 2 ++
    rbitStage (if w then 0x0f0f0f0f0f0f0f0f else 0x0f0f0f0f) 4 ++
    emitBswap rax ::
      (if w then [] else [[rexRm 0 (rax >>> 3), 0x89, modrm 3 (rax &&& 7) (rax &&& 7)]])

/-- `translate_rev` -/
def translateRev (op : BitVec 32) : List Code :=
  viaRax (armReg op 5) (armReg op 0) (is64 op) [emitBswap rax]

/-- `translate_orn`: the prefix of the complement holds no bit, so it complements `EBX`. -/
def translateOrn (op : BitVec 32) : List Code :=
  let w := is64 op
  viaRaxR11 (armReg op 5) (armReg op 16) (armReg op 0) w
    [(if w then [rexRm 0 (r11 >>> 3)] else []) ++ [0xf7, modrm 3 2 (r11 &&& 7)], orR64R64 rax r11]

/-- `translate_mov_reg` -/
def translateMovReg (op : BitVec 32) : List Code := viaRax (armReg op 5) (armReg op 0) (is64 op) []

/-- `translate_crc32`: the prefix stands before the mandatory one and is lost. -/
def translateCrc32 (op : BitVec 32) : List Code :=
  let w := is64 op
  if 4 ≤ (op.extractLsb' 10 3).toNat then
    viaRaxR11 (armReg op 5) (armReg op 16) (armReg op 0) w
      [[rexR rax rax, 0xf2, 0x0f, 0x38, 0xf0, modrm 3 (rax &&& 7) (r11 &&& 7)]]
  else
    viaRax (armReg op 5) (armReg op 0) w []

end Arm2x86.Translate
