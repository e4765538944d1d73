import Arm2x86.Arm32.Model

/-!
# The Thumb translator

`modules/arm2x86_translate_thumb.c`. A translator of the source appends to the output and returns by
how much the driver has to advance; here it returns the bytes with the advance. The state of an IT
block, a global of `modules/arm2x86_regs.c`, is passed along.
-/

namespace Arm2x86.Thumb

open X86 Arm32

/-- `is_thumb2_prefix` -/
def isThumb2Prefix (op16 : BitVec 16) : Bool :=
  op16 &&& 0xe800 == 0xe800 || op16 &&& 0xf800 == 0xf000

section Narrow

/-- The host register of a register field of three bits. -/
def lowAt (op16 : BitVec 16) (lo : Nat) : Byte := mapRegisterArm32 ((op16.extractLsb' lo 3).setWidth 4)

/-- The host register of a register field of four bits. -/
def highAt (op16 : BitVec 16) (lo : Nat) : Byte := mapRegisterArm32 (op16.extractLsb' lo 4)

/-- `rd` of a move between all registers: bit 7 on top of the low field. -/
def moveTarget (op16 : BitVec 16) : Byte :=
  mapRegisterArm32 (((op16 >>> 4 &&& 0x08) ||| (op16 &&& 0x07)).setWidth 4)

/-- A comparison of a byte, or an addition of one, with the opcode extension. -/
def immediateByte (rexReg ext x imm : Byte) : List Byte :=
  [rexR rexReg x, 0x83, modrm 3 ext (x &&& 7), imm]

/-- The loads and stores of words with an immediate offset. -/
def wordAccess (op16 : BitVec 16) : List Byte :=
  let xrd := lowAt op16 0
  let xrn := lowAt op16 3
  let imm : Byte := (op16.extractLsb' 6 5).setWidth 8
  [rexR xrd xrn, if op16.getLsbD 11 then 0x8b else 0x89, modrm 1 (xrd &&& 7) (xrn &&& 7), imm <<< 2]

/-- The loads and stores of bytes with an immediate offset. The store has its registers
exchanged. -/
def byteAccess (op16 : BitVec 16) : List Byte :=
  let xrd := lowAt op16 0
  let xrn := lowAt op16 3
  let imm : Byte := (op16.extractLsb' 6 5).setWidth 8
  if op16.getLsbD 11 then
    [rexR 0 xrn, 0x0f, 0xb6, modrm 1 (xrd &&& 7) (xrn &&& 7), imm]
  else
    [rexRm xrn xrd, 0x88, modrm 1 (xrn &&& 7) (xrd &&& 7), imm]

/-- One instruction on the top of the stack for each listed register: the register is in the prefix
alone. -/
def stackList (opcode ext : Byte) (op16 : BitVec 16) (order : List Nat) : List Byte :=
  order.flatMap fun r ↦
    if (op16 &&& 0xff).getLsbD r then
      [rex true 0 0 (mapRegisterArm32 (BitVec.ofNat 4 r) >>> 3), opcode, modrm 0 ext 4, sib 0 4 4]
    else []

/-- `translate_thumb16`, with the advance. -/
def translateThumb16 (op16 : BitVec 16) : List Byte × Nat :=
  if op16 &&& 0xff80 = 0x1800 then
    (movR64R64 (lowAt op16 0) (lowAt op16 3) ++ addR64R64 (lowAt op16 0) (lowAt op16 6), 2)
  else if op16 &&& 0xff80 = 0x1a00 then
    (movR64R64 (lowAt op16 0) (lowAt op16 3) ++ subR64R64 (lowAt op16 0) (lowAt op16 6), 2)
  else if op16 &&& 0xff80 = 0x4600 then
    (movR64R64 (moveTarget op16) (highAt op16 3), 2)
  else if op16 &&& 0xff80 = 0x3000 then
    (immediateByte (lowAt op16 8) 0 (lowAt op16 8) (op16.setWidth 8), 2)
  else if op16 &&& 0xf800 = 0x2800 then
    (immediateByte 0 7 (lowAt op16 8) (op16.setWidth 8), 2)
  else if op16 &&& 0xf000 = 0xd000 then
    (0x0f :: arm32ToX86Cond (op16.extractLsb' 8 4) ::
      imm32 ((op16.setWidth 8).signExtend 32 - 2), 2)
  else if op16 &&& 0xf800 = 0xe000 then
    ((emitJmp ((((op16 &&& 0x7ff) <<< 5).sshiftRight 4).signExtend 32)).1, 2)
  else if op16 &&& 0xff80 = 0x4700 then
    (if op16.getLsbD 7 then emitCallReg (highAt op16 3) else emitJmpReg (highAt op16 3), 2)
  else if op16 &&& 0xf800 = 0x4800 then
    (rexR (lowAt op16 8) 0 :: 0x8b :: modrm 0 (lowAt op16 8 &&& 7) 5 ::
      imm32 ((op16 &&& 0xff).setWidth 32 <<< 2), 2)
  else if op16 &&& 0xf000 = 0x6000 then
    (wordAccess op16, 2)
  else if op16 &&& 0xf000 = 0x7000 then
    (byteAccess op16, 2)
  else if op16 &&& 0xff00 = 0xb400 then
    (stackList 0xff 6 op16 (List.range 16).reverse, 2)
  else if op16 &&& 0xff00 = 0xbc00 then
    (stackList 0x8f 0 op16 (List.range 16), 2)
  else if op16 = 0x46c0 then
    ([0x90], 2)
  else if op16 &&& 0xff00 = 0xdf00 then
    (emitSyscall, 2)
  else
    ([0x90], 2)

end Narrow

section ItState

/-- `g_it_state` -/
structure ItState where
  condition : Byte
  mask : Byte
  index : Byte
  active : Bool
deriving DecidableEq, Repr

/-- The state a block starts with. -/
def ItState.reset : ItState := ⟨0, 0, 0, false⟩

/-- `init_it_block` -/
def initItBlock (firstcond mask : Byte) : ItState := ⟨firstcond &&& 0x0f, mask &&& 0x0f, 0, true⟩

/-- `get_current_it_condition`: a clear bit of the mask inverts the condition. -/
def getCurrentItCondition (it : ItState) : Byte :=
  if it.active then
    let maskBit := (it.mask >>> (3 - it.index)) &&& 1
    if maskBit = 0 then it.condition ^^^ 1 else it.condition
  else 0x0e

/-- `advance_it_state` -/
def advanceItState (it : ItState) : ItState :=
  if it.active then
    let index := it.index + 1
    if it.mask >>> (4 - index) = 0 ∨ 4 ≤ index then { it with active := false, index := 0 }
    else { it with index }
  else it

end ItState

section Wide

/-- What `translate_thumb32` leaves: the code, the advance and the state of the IT block. -/
structure Translated where
  code : List Byte
  advance : Nat
  it : ItState

/-- A move from `Rn` to `Rd` and an operation with `Rm`. -/
def threeRegisters (operation : Byte → Byte → List Byte) (op32 : BitVec 32) : List Byte :=
  movR64R64 (regAt op32 8) (regAt op32 16) ++ operation (regAt op32 8) (regAt op32 0)

/-- A load or store of a word with a displacement. -/
def wordDisp (opcode xrt xrn : Byte) (disp : BitVec 32) : List Byte :=
  rexR xrt xrn :: opcode :: emitModrmDisp (xrt &&& 7) xrn disp

/-- `STR` and `LDR` with an immediate offset. -/
def accessImm12 (opcode : Byte) (op32 : BitVec 32) : List Byte :=
  wordDisp opcode (regAt op32 0) (regAt op32 16) ((op32.extractLsb' 12 12).setWidth 32)

/-- `LDRD` and `STRD`. -/
def accessDual (opcode : Byte) (op32 : BitVec 32) : List Byte :=
  let disp : BitVec 32 := (op32.extractLsb' 4 8).setWidth 32 * 4
  wordDisp opcode (regAt op32 0) (regAt op32 16) disp ++
    wordDisp opcode (regAt op32 12) (regAt op32 16) (disp + 4)

/-- An instruction of the group `81` on a register, with one prefix or another. -/
def group81 (pre ext x : Byte) (imm : BitVec 32) : List Byte :=
  pre :: 0x81 :: modrm 3 ext (x &&& 7) :: imm32 imm

/-- A `mov` of an immediate, with one prefix or another. -/
def moveImm32 (pre x : Byte) (imm : BitVec 32) : List Byte := pre :: (0xb8 ||| (x &&& 7)) :: imm32 imm

/-- The loop of `LDMIA` and `STMIA`, from an offset on, with the offset behind it. -/
def multipleLoop (opcode xrn : Byte) (regList : BitVec 16) :
    List (BitVec 4) → BitVec 32 → List Byte × BitVec 32
  | [], offset => ([], offset)
  | r :: rs, offset =>
    if regList.getLsbD r.toNat then
      let (code, last) := multipleLoop opcode xrn regList rs (offset + 8)
      (wordDisp opcode (mapRegisterArm32 r) xrn offset ++ code, last)
    else
      multipleLoop opcode xrn regList rs offset

/-- `LDMIA` and `STMIA`. -/
def accessMultiple (opcode : Byte) (op32 : BitVec 32) : List Byte :=
  let xrn := regAt op32 16
  let (code, offset) := multipleLoop opcode xrn (op32.extractLsb' 0 16) registers 0
  code ++ if op32.getLsbD 21 then group81 (rexRm 1 xrn) 0 xrn offset else []

/-- `B` and `BL`: bit 24 of the offset is tested as its sign. -/
def branchWide (op32 : BitVec 32) : List Byte :=
  let offset := ((op32 >>> 16 &&& 0x3ff) <<< 12) ||| ((op32 &&& 0x7ff) <<< 1)
  let offset := if offset.getLsbD 24 then offset ||| 0xfe000000 else offset
  if op32.getLsbD 27 then (emitCall offset).1 else (emitJmp offset).1

/-- `CBZ` and `CBNZ`. -/
def compareBranch (op32 : BitVec 32) : List Byte :=
  let imm := (op32 >>> 4 &&& 0x3e) ||| (op32 >>> 19 &&& 0x40)
  testR64R64 (regAt op32 16) (regAt op32 16) ++
    0x0f :: (if op32.getLsbD 24 then 0x85 else 0x84) :: imm32 (imm - 4)

/-- The immediate of `MOVW` and `MOVT`. -/
def imm16At (op32 : BitVec 32) : BitVec 32 := ((op32 >>> 16 &&& 0xf) <<< 8) ||| (op32 &&& 0xff)

/-- `MOVW` -/
def moveWide (op32 : BitVec 32) : List Byte :=
  let xrd := regAt op32 8
  moveImm32 (rexRm 1 xrd) xrd (imm16At op32) ++ group81 (rexRm 0 xrd) 4 xrd 0xffffffff

/-- `MOVT` -/
def moveTop (op32 : BitVec 32) : List Byte :=
  let xrd := regAt op32 8
  group81 (rexRm 0 xrd) 4 xrd 0x0000ffff ++ group81 (rexRm 0 xrd) 1 xrd (imm16At op32 <<< 16)

/-- `ADDW` and `SUBW`. -/
def wideImmediate (ext : Byte) (op32 : BitVec 32) : List Byte :=
  let xrd := regAt op32 8
  let imm := ((op32 >>> 26 &&& 1) <<< 11) ||| ((op32 >>> 12 &&& 7) <<< 8) ||| (op32 &&& 0xff)
  movR64R64 xrd (regAt op32 16) ++ group81 (rexRm 1 xrd) ext xrd imm

/-- `msb` and `lsb` of the bit fields, and `int width = msb - lsb + 1`. -/
def msbAt (op32 : BitVec 32) : Nat := (op32.extractLsb' 16 5).toNat
def lsbAt (op32 : BitVec 32) : Nat := (op32.extractLsb' 5 5).toNat
def widthAt (op32 : BitVec 32) : Int := (msbAt op32 : Int) - lsbAt op32 + 1

/-- A shift of a register by an immediate, with one prefix or another. -/
def shiftBy (pre ext x amount : Byte) : List Byte := [pre, 0xc1, modrm 3 ext (x &&& 7), amount]

/-- The mask `((1ULL << width) - 1) << lsb` of a width below 64. -/
def fieldMask (width lsb : Nat) : BitVec 64 := (((1 : BitVec 64) <<< width) - 1) <<< lsb

/-- `BFI`, with nothing for a field that is empty. -/
def bitFieldInsert (op32 : BitVec 32) : List Byte :=
  let xrd := regAt op32 8
  let xrm := regAt op32 0
  if widthAt op32 ≤ 0 ∨ 64 < widthAt op32 ∨ 64 ≤ lsbAt op32 then []
  else
    let mask := if widthAt op32 = 64 then BitVec.allOnes 64
      else fieldMask (widthAt op32).toNat (lsbAt op32)
    moveImm32 (rexRm 1 xrd) xrd ((~~~ mask).setWidth 32) ++ andR64R64 xrd (regAt op32 16) ++
      shiftBy (rexRm 0 xrm) 4 xrm (BitVec.ofNat 8 (lsbAt op32)) ++ orR64R64 xrd xrm

/-- `BFC`, with nothing for a field that is empty. -/
def bitFieldClear (op32 : BitVec 32) : List Byte :=
  let xrd := regAt op32 8
  if widthAt op32 ≤ 0 ∨ 64 < widthAt op32 ∨ 64 ≤ lsbAt op32 then []
  else
    let mask := if widthAt op32 = 64 then 0 else ~~~ fieldMask (widthAt op32).toNat (lsbAt op32)
    group81 (rexRm 0 xrd) 4 xrd (mask.setWidth 32)

/-- `SBFX` -/
def signedExtract (op32 : BitVec 32) : List Byte :=
  let xrd := regAt op32 8
  let amount := BitVec.ofInt 8 (64 - widthAt op32)
  movR64R64 xrd (regAt op32 16) ++ shiftBy (rexRm 0 xrd) 7 xrd (BitVec.ofNat 8 (lsbAt op32)) ++
    if widthAt op32 < 64 then shiftBy (rexRm 0 xrd) 4 xrd amount ++ shiftBy (rexRm 0 xrd) 7 xrd amount
    else []

/-- `UBFX`. C gives `1ULL << width` no value for a negative width; `shl` does. -/
def unsignedExtract (shl : Int → BitVec 64) (op32 : BitVec 32) : List Byte :=
  let xrd := regAt op32 8
  let one := if 0 ≤ widthAt op32 then (1 : BitVec 64) <<< (widthAt op32).toNat else shl (widthAt op32)
  movR64R64 xrd (regAt op32 16) ++ shiftBy (rexRm 0 xrd) 5 xrd (BitVec.ofNat 8 (lsbAt op32)) ++
    if widthAt op32 < 64 then group81 (rexRm 0 xrd) 4 xrd ((one - 1).setWidth 32) else []

/-- `REV`: the source register is reversed in place. -/
def reverseBytes (op32 : BitVec 32) : List Byte :=
  let xrn := regAt op32 16
  [rex true 0 0 (xrn >>> 3), 0x0f, 0xc8 ||| (xrn &&& 7)] ++ movR64R64 (regAt op32 8) xrn

/-- `REV16`: the shifts are of `RAX`, and the prefix of the masks stands behind another one. -/
def reverseHalves (op32 : BitVec 32) : List Byte :=
  let xrd := regAt op32 8
  let pre := rex true 0 0 (xrd >>> 3)
  movR64R64 xrd (regAt op32 16) ++ [0x50] ++ [pre, 0xc1, 0xe8, 0x08] ++
    [pre, 0x48, 0x81, 0xe0 ||| (xrd &&& 7), 0xff, 0x00, 0xff, 0x00] ++ [0x58] ++
    [pre, 0xc1, 0xe0, 0x08] ++ [pre, 0x48, 0x81, 0xe0 ||| (xrd &&& 7), 0x00, 0xff, 0x00, 0xff]

/-- `REVSH`: a shift to the left where a rotation is meant. -/
def reverseSigned (op32 : BitVec 32) : List Byte :=
  let xrd := regAt op32 8
  let xrn := regAt op32 16
  movR64R64 xrd xrn ++ shiftBy (rexR xrd xrn) 4 xrd 8 ++
    [rex true 0 (xrd >>> 3) (xrd >>> 3), 0x0f, 0xbf, modrm 3 (xrd &&& 7) (xrd &&& 7)]

/-- A comparison with a bound, the bound in `R11`, a conditional move to `R11` and a move back. -/
def clampTo (cmov xrd : Byte) (bound : BitVec 32) : List Byte :=
  group81 (rexRm 1 xrd) 7 xrd bound ++ moveImm32 (rexRm 1 r11) r11 bound ++
    [rexR r11 xrd, 0x0f, cmov, modrm 3 (r11 &&& 7) (xrd &&& 7)] ++ movR64R64 xrd r11

/-- `SSAT` -/
def signedSaturate (op32 : BitVec 32) : List Byte :=
  let xrd := regAt op32 8
  let top : BitVec 64 := 1 <<< msbAt op32
  movR64R64 xrd (regAt op32 16) ++ clampTo 0x4f xrd ((top - 1).setWidth 32) ++
    clampTo 0x4c xrd ((- top).setWidth 32)

/-- `USAT`: a test with eight bytes of immediate, and a `mov` of zero that does not depend on it. -/
def unsignedSaturate (op32 : BitVec 32) : List Byte :=
  let xrd := regAt op32 8
  let top : BitVec 64 := 1 <<< (msbAt op32 + 1)
  movR64R64 xrd (regAt op32 16) ++
    [rexRm 0 xrd, 0xf7, modrm 3 0 (xrd &&& 7), 0x00, 0x00, 0x00, 0x00, 0x80, 0x00, 0x00, 0x00] ++
    ((0xb8 ||| (xrd &&& 7)) :: imm32 0) ++ clampTo 0x46 xrd ((top - 1).setWidth 32)

/-- `translate_thumb32` -/
def translateThumb32 (shl : Int → BitVec 64) (it : ItState) (op32 : BitVec 32) : Translated :=
  if op32 &&& 0xfe800000 = 0xf8800000 then ⟨accessImm12 0x89 op32, 4, it⟩
  else if op32 &&& 0xfe800000 = 0xf8000000 then ⟨accessImm12 0x8b op32, 4, it⟩
  else if op32 &&& 0xf800d000 = 0xf0009000 then ⟨branchWide op32, 4, it⟩
  else if op32 &&& 0xfff00000 = 0xeb000000 then ⟨threeRegisters addR64R64 op32, 4, it⟩
  else if op32 &&& 0xfff00000 = 0xeba00000 then ⟨threeRegisters subR64R64 op32, 4, it⟩
  else if op32 &&& 0xfff00000 = 0xea400000 then ⟨movR64R64 (regAt op32 8) (regAt op32 0), 4, it⟩
  else if op32 &&& 0xfff00000 = 0xebb00000 then ⟨cmpR64R64 (regAt op32 16) (regAt op32 0), 4, it⟩
  else if op32 &&& 0xfff00000 = 0xf0000000 ∧ op32 &&& 0x000f0000 = 0 then
    ⟨threeRegisters andR64R64 op32, 4, it⟩
  else if op32 &&& 0xfff00000 = 0xf0400000 then ⟨threeRegisters orR64R64 op32, 4, it⟩
  else if op32 &&& 0xfff00000 = 0xf0800000 then ⟨threeRegisters xorR64R64 op32, 4, it⟩
  else if op32 &&& 0xff100000 = 0xf1100000 then ⟨compareBranch op32, 4, it⟩
  else if op32 &&& 0xfff000f0 = 0xeb400050 then ⟨threeRegisters (regReg 0x11) op32, 4, it⟩
  else if op32 &&& 0xfff000f0 = 0xee400050 then ⟨threeRegisters (regReg 0x19) op32, 4, it⟩
  else if op32 &&& 0xfbf08000 = 0xf2400000 then ⟨moveWide op32, 4, it⟩
  else if op32 &&& 0xfbf08000 = 0xf2c00000 then ⟨moveTop op32, 4, it⟩
  else if op32 &&& 0xfbf08000 = 0xf2000000 then ⟨wideImmediate 0 op32, 4, it⟩
  else if op32 &&& 0xfbf08000 = 0xf2a00000 then ⟨wideImmediate 5 op32, 4, it⟩
  else if op32 &&& 0xfff00000 = 0xe8500000 then ⟨accessDual 0x8b op32, 4, it⟩
  else if op32 &&& 0xfff00000 = 0xe8000000 then ⟨accessDual 0x89 op32, 4, it⟩
  else if op32 &&& 0xfff00000 = 0xe8900000 then ⟨accessMultiple 0x8b op32, 4, it⟩
  else if op32 &&& 0xfff00000 = 0xe8800000 then ⟨accessMultiple 0x89 op32, 4, it⟩
  else if op32 &&& 0xff00ff00 = 0xbf000000 then
    ⟨[0x90], 4, initItBlock ((op32.extractLsb' 12 4).setWidth 8) ((op32.extractLsb' 0 4).setWidth 8)⟩
  else if op32 &&& 0xfff000ff = 0x47800000 then ⟨emitCallReg (regAt op32 3), 4, it⟩
  else if op32 &&& 0xffe00010 = 0xf3400000 then ⟨bitFieldInsert op32, 4, it⟩
  else if op32 &&& 0xffe0001f = 0xf360001f then ⟨bitFieldClear op32, 4, it⟩
  else if op32 &&& 0xffff0010 = 0xf3500000 then ⟨signedExtract op32, 4, it⟩
  else if op32 &&& 0xffff0010 = 0xf3700000 then ⟨unsignedExtract shl op32, 4, it⟩
  else if op32 &&& 0xfff000ff = 0xfa8000f0 then ⟨reverseBytes op32, 4, it⟩
  else if op32 &&& 0xfff000ff = 0xfa8000b0 then ⟨reverseHalves op32, 4, it⟩
  else if op32 &&& 0xfff000ff = 0xfa800030 then ⟨reverseSigned op32, 4, it⟩
  else if op32 &&& 0xffe00010 = 0xf3600000 then ⟨signedSaturate op32, 4, it⟩
  else if op32 &&& 0xffe00010 = 0xf3e00000 then ⟨unsignedSaturate op32, 4, it⟩
  else ⟨[0x90], 4, it⟩

end Wide

section Driver

/-- `read_le16`, which fails outside the buffer. -/
def readLe16 (buf : List Byte) (p : Nat) : Option (BitVec 16) := do
  let b₀ ← buf[p]?
  let b₁ ← buf[p + 1]?
  return b₁ ++ b₀

/-- The variables of `arm2x86_convert_block_thumb`: the offset `src` in the buffer, the state of the
IT block and the output. -/
structure Driver where
  src : Nat
  it : ItState
  out : List Byte

/-- The state in front of the loop. -/
def Driver.start : Driver := ⟨0, .reset, []⟩

/-- The branches of which a 32-bit one ends an IT block in front of its translation. -/
def endsItWide (op32 : BitVec 32) : Bool :=
  op32 &&& 0xf000d000 == 0xf0009000 || op32 &&& 0xfff000ff == 0x47800000

/-- The same for 16 bits. -/
def endsItNarrow (op16 : BitVec 16) : Bool := op16 &&& 0xf000 == 0xd000

def ItState.endIf (it : ItState) (b : Bool) : ItState := if b then { it with active := false } else it

/-- One turn of the loop: the look ahead, and the translation. -/
def step (shl : Int → BitVec 64) (buf : List Byte) (d : Driver) : Option Driver := do
  let op16 ← readLe16 buf d.src
  if isThumb2Prefix op16 && d.src + 4 ≤ buf.length then
    let op16₂ ← readLe16 buf (d.src + 2)
    let op32 : BitVec 32 := op16 ++ op16₂
    let t := translateThumb32 shl (d.it.endIf (endsItWide op32)) op32
    return ⟨d.src + t.advance, advanceItState t.it, d.out ++ t.code⟩
  else
    let it := d.it.endIf (endsItNarrow op16)
    if isThumb2Prefix op16 then
      return ⟨d.src + 2, advanceItState it, d.out ++ [0x90]⟩
    else
      let (code, advance) := translateThumb16 op16
      return ⟨d.src + advance, advanceItState it, d.out ++ code⟩

/-- Whether the loop goes on. -/
def Driver.continues (buf : List Byte) (d : Driver) : Bool := d.src + 2 ≤ buf.length

/-- The loop, for a number of turns at most. It fails where a read does or where the turns do not
suffice. -/
def loop (shl : Int → BitVec 64) (buf : List Byte) : Nat → Driver → Option Driver
  | 0, _ => none
  | fuel + 1, d => if d.continues buf then (step shl buf d).bind (loop shl buf fuel) else some d

/-- `arm2x86_convert_block_thumb`, with as many turns as there are bytes, and one. -/
def convertBlockThumb (shl : Int → BitVec 64) (buf : List Byte) : Option Driver :=
  loop shl buf (buf.length + 1) .start

end Driver

end Arm2x86.Thumb
