import Arm2x86.Tcache.PatchFrame
import Arm2x86.Translate.Vector

/-!
# Translation of a block

`arm2x86_convert_block`, `modules/arm2x86_translate64.c:4215`, with the translators that depend on
the state of the translation: those that ask the register allocator, and the branches, which look
at the guest address and at the map from guest to host addresses. The status codes of the
translators are ignored by the source and left out.
-/

namespace Arm2x86.Translate

open X86

/-- An element of `pc_map`. -/
structure PcMapEntry where
  armPc : BitVec 64
  x86Pc : BitVec 64
deriving DecidableEq, Repr

/-- `TranslateCtx`. `out` is what has been emitted between `x86_base` and `x86_cur`. The map and
its count are not initialised by the source. `jumpTargets` are the jumps this translation has put
on the global list. -/
structure TranslateCtx where
  arm64Cur : BitVec 64
  x86Base : BitVec 64
  out : List Item
  alloc : Alloc
  pcMap : Int → PcMapEntry
  pcMapCount : Int
  jumpTargets : List Tcache.JumpTarget := []

namespace TranslateCtx

/-- `x86_cur`. -/
def x86Cur (t : TranslateCtx) : BitVec 64 :=
  t.x86Base + BitVec.ofNat 64 (t.out.flatMap Item.bytes).length

def emitItems (t : TranslateCtx) (items : List Item) : TranslateCtx := { t with out := t.out ++ items }

def emit (t : TranslateCtx) (code : List Code) : TranslateCtx := t.emitItems (code.map .code)

/-- `pc_map_add` of the current instruction. -/
def pcMapAdd (t : TranslateCtx) : TranslateCtx :=
  if t.pcMapCount < 256 then
    { t with
      pcMap := Function.update t.pcMap t.pcMapCount ⟨t.arm64Cur, t.x86Cur⟩
      pcMapCount := t.pcMapCount + 1 }
  else
    t

/-- `pc_map_lookup`; zero is the null pointer. -/
def pcMapLookup (t : TranslateCtx) (armPc : BitVec 64) : BitVec 64 :=
  match (List.range t.pcMapCount.toNat).find? fun i : Nat ↦ (t.pcMap i).armPc == armPc with
  | some i => (t.pcMap i).x86Pc
  | none => 0

/-- `emit_direct_jump_or_call`. The jump is registered under the host address it goes to. -/
def emitDirectJumpOrCall (t : TranslateCtx) (target : BitVec 64) (isCall : Bool) : TranslateCtx :=
  let jumpTargets := Tcache.tcacheRegisterJumpTarget t.jumpTargets target t.x86Cur isCall
  { t with jumpTargets }.emit
    [(if isCall then 0xe8 else 0xe9) :: imm32 ((target - (t.x86Cur + 5)).setWidth 32)]

/-- `emit_dispatch_stub`: a known guest address follows its indirect jump as data. -/
def emitDispatchStub (t : TranslateCtx) (armTarget : BitVec 64) (isCall : Bool) : TranslateCtx :=
  if armTarget == 0 then
    t.emit [(if isCall then 0xe8 else 0xe9) :: imm32 0]
  else
    t.emitItems [.code (0xff :: (if isCall then 0x15 else 0x25) :: imm32 0), .data (imm64 armTarget)]

/-- A branch to a guest address: direct when it has been translated in this block. -/
def branchTo (t : TranslateCtx) (armTarget : BitVec 64) (isCall : Bool) : TranslateCtx :=
  if t.pcMapLookup armTarget != 0 then
    t.emitDirectJumpOrCall (t.pcMapLookup armTarget) isCall
  else
    t.emitDispatchStub armTarget isCall

end TranslateCtx

/-- `translate_add_sub`. -/
def translateAddSub (a : Alloc) (op : BitVec 32) (isSub : Bool) : Alloc × List Code :=
  let w := is64 op
  let (a, rn) := regAllocGetReg a (armReg op 5) w false
  let (a, rm) := regAllocGetReg a (armReg op 16) w false
  let (a, rd) := regAllocGetReg a (armReg op 0) w true
  let combine := if isSub then subR64R64 rd.x86Reg rm.x86Reg else addR64R64 rd.x86Reg rm.x86Reg
  -- the two branches for a destination other than the first source have one body
  (a, rn.code ++ rm.code ++ rd.code ++
    if rd.x86Reg == rn.x86Reg then [combine] else [movR64R64 rd.x86Reg rn.x86Reg, combine])

/-- `translate_logical`: the complements overwrite the second source. -/
def translateLogical (a : Alloc) (op : BitVec 32) : Alloc × List Code :=
  let w := is64 op
  let opcode : BitVec 2 := op.extractLsb' 29 2
  let (a, rn) := regAllocGetReg a (armReg op 5) w false
  let (a, rm) := regAllocGetReg a (armReg op 16) w false
  let (a, rd) := regAllocGetReg a (armReg op 0) w true
  let copy := if rd.x86Reg != rn.x86Reg then [movR64R64 rd.x86Reg rn.x86Reg] else []
  let combine :=
    if opcode == 0 then [andR64R64 rd.x86Reg rm.x86Reg]
    else if opcode == 1 then [notR64 rm.x86Reg, andR64R64 rd.x86Reg rm.x86Reg]
    else if opcode == 2 then [orR64R64 rd.x86Reg rm.x86Reg]
    else [notR64 rm.x86Reg, orR64R64 rd.x86Reg rm.x86Reg]
  (a, rn.code ++ rm.code ++ rd.code ++ copy ++ combine)

/-- `rex_rm(0, 0)`, a 64-bit prefix and an operation of the group `81` on `RAX`. -/
def groupRax (ext : Byte) (imm : BitVec 32) : Code :=
  [rexRm 0 (rax >>> 3), 0x48, 0x81, modrm 3 ext (rax &&& 7)] ++ imm32 imm

/-- The low word of a quadword. -/
def lo32 (v : BitVec 64) : BitVec 32 := v.setWidth 32

/-- The high word of a quadword. -/
def hi32 (v : BitVec 64) : BitVec 32 := v.extractLsb' 32 32

/-- `translate_mov_imm` for `MOVK`: the masks for the two halves act on the low word both. -/
def translateMovk (op : BitVec 32) (shift : Nat) : List Code :=
  let mask : BitVec 64 := ~~~ (0xffff <<< shift)
  let imm : BitVec 64 := fieldAt op 5 16 <<< shift
  viaRax (armReg op 0) (armReg op 0) (is64 op) <|
    [groupRax 4 (lo32 mask)] ++ (if hi32 mask != 0 then [groupRax 4 (hi32 mask)] else []) ++
    [groupRax 1 (lo32 imm)] ++ (if hi32 imm != 0 then [groupRax 1 (hi32 imm)] else [])

/-- The value of `MOVZ` and `MOVN`; the remaining `opc` shifts an `int`. -/
def movImmValue (op : BitVec 32) (shift : Nat) : BitVec 64 :=
  let opc : BitVec 2 := op.extractLsb' 29 2
  let imm16 := fieldAt op 5 16
  if opc == 0 then
    if is64 op then ~~~ imm16 <<< shift else (~~~ imm16 <<< shift) ||| 0xffffffff00000000
  else if opc == 2 then imm16 <<< shift
  else (lo32 imm16 <<< (shift % 32)).signExtend 64

/-- A 32-bit immediate to a slot of the register home, behind the given prefixes. -/
def movSlotImm (pre : List Byte) (offset imm : BitVec 32) : Code :=
  pre ++ [0xc7, modrm 2 0 5] ++ imm32 offset ++ imm32 imm

/-- A 64-bit constant to a slot of the register home, in two halves; a zero high half is not
written. -/
def movSlot (pre : List Byte) (r : ArmReg) (v : BitVec 64) : List Code :=
  movSlotImm pre (armRegOffset r) (lo32 v) ::
    if hi32 v != 0 then [movSlotImm pre (armRegOffset r + 4) (hi32 v)] else []

/-- `translate_mov_imm`. -/
def translateMovImm (a : Alloc) (op : BitVec 32) : Alloc × List Code :=
  let rd := armReg op 0
  let shift := (op.extractLsb' 21 2).toNat * 16
  if op.extractLsb' 29 2 == (3 : BitVec 2) then
    (a, translateMovk op shift)
  else
    let val := movImmValue op shift
    let (a, x86Reg) := regAllocTakeFor a rd (is64 op)
    (a,
      if x86Reg != noReg then
        [(if 8 ≤ x86Reg then 0x48 ||| 0x01 else 0x48) :: (0xb8 + (x86Reg &&& 7)) :: imm64 val,
          emitStoreArmReg x86Reg rd (is64 op)]
      else
        movSlot [rexRm 0 0, 0x48] rd val)

/-- `translate_adr_adrp`. -/
def translateAdrAdrp (arm64Cur : BitVec 64) (op : BitVec 32) : List Code :=
  let imm : BitVec 64 :=
    (((op >>> 5) &&& 0x3) ||| ((op >>> 29) &&& 0x1c) ||| ((op >>> 3) &&& 0x1ffffe0)).setWidth 64
  let page := maskEq op 0x9f000000 0x90000000
  let simm := if page then signExtend64 (imm <<< 12) 33 else signExtend64 imm 21
  let addr := arm64Cur + simm.signExtend 64
  movSlot [rexRm 0 0, 0x48] (armReg op 0) (if page then addr &&& ~~~ 0xfff else addr)

namespace TranslateCtx

variable (t : TranslateCtx) (op : BitVec 32)

/-- The target of a branch from the current instruction. -/
def target (imm : BitVec 32) : BitVec 64 := t.arm64Cur + imm.signExtend 64

/-- `translate_b`. -/
def translateB : TranslateCtx :=
  t.pcMapAdd.branchTo (t.target (signExtend64 (fieldAt op 0 26 <<< 2) 28)) false

/-- The write of the return address to the slot of `X30`. -/
def linkCode : List Code := movSlot [rexRm 0 0] 30 (t.arm64Cur + 4)

/-- `translate_bl`. -/
def translateBl : TranslateCtx :=
  (t.pcMapAdd.emit t.linkCode).branchTo (t.target (signExtend64 (fieldAt op 0 26 <<< 2) 28)) true

/-- `translate_br`. -/
def translateBr : TranslateCtx :=
  (t.pcMapAdd.emit [emitLoadArmReg (armReg op 5) rax true]).emitDispatchStub 0 false

/-- `translate_blr`. -/
def translateBlr : TranslateCtx :=
  (t.pcMapAdd.emit (t.linkCode ++ [emitLoadArmReg (armReg op 5) rax true])).emitDispatchStub 0 true

/-- `translate_ret`: a return through `X30` is left to the epilogue. -/
def translateRet : TranslateCtx :=
  if armReg op 5 = 30 then t.pcMapAdd else t.translateBr op

/-- A conditional jump as it is left by the patch, which is written to the start of the
instruction instead of to its offset. -/
def patchedJcc (opcode : Byte) : Code := imm32 2 ++ (0x0f :: opcode :: imm32 0).drop 4

/-- `translate_b_cond`. -/
def translateBCond : TranslateCtx :=
  let target := t.target (signExtend64 ((fieldAt op 5 20 &&& 0xffffe) <<< 1) 19)
  let cond := arm64ToX86Cond (op.extractLsb' 0 4)
  if cond == 0 then t.pcMapAdd.branchTo target false
  else if cond == 0xff then t.pcMapAdd.emit [[0x90]]
  else (t.pcMapAdd.emit [patchedJcc (cond ^^^ 1)]).branchTo target false

/-- `translate_cbz_cbnz`. -/
def translateCbzCbnz (isCbnz : Bool) : TranslateCtx :=
  let target := t.target (signExtend64 (fieldAt op 5 19 <<< 2) 21)
  (t.pcMapAdd.emit
    [emitLoadArmReg (armReg op 5) rax true, testR64R64 rax rax,
      patchedJcc (if isCbnz then 0x84 else 0x85)]).branchTo target false

/-- `translate_tbz_tbnz`. -/
def translateTbzTbnz (isTbnz : Bool) : TranslateCtx :=
  let target := t.target (signExtend64 (fieldAt op 5 14 <<< 2) 16)
  let bitPos : Byte := ((op.extractLsb' 31 1).setWidth 8 <<< 5) ||| (op.extractLsb' 19 5).setWidth 8
  (t.pcMapAdd.emit
    [emitLoadArmReg (armReg op 5) rax true,
      [rexR rax rax, 0x0f, 0xba, modrm 3 4 (rax &&& 7), bitPos],
      patchedJcc (if isTbnz then 0x84 else 0x85)]).branchTo target false

/-- A translator that records its address and emits some code. -/
def straight (code : List Code) : TranslateCtx := t.pcMapAdd.emit code

/-- A translator that asks the allocator. -/
def allocating (f : Alloc → Alloc × List Code) : TranslateCtx :=
  let (alloc, code) := f t.alloc
  ({ t.pcMapAdd with alloc }).emit code

/-- The write-back at the end of a block. -/
def batchStore : TranslateCtx :=
  let (alloc, code) := regAllocEmitBatchStore t.alloc (regAllocComputeLiveOut t.alloc)
  ({ t with alloc }).emit code

end TranslateCtx

/-- Whether the switch ends the block after this instruction. -/
def isBlockTerminator : InstrType → Bool
  | .b | .br | .blr | .ret | .bl | .bCond | .cbz | .cbnz | .tbz | .tbnz => true
  | _ => false

/-- The switch of `arm2x86_convert_block`. -/
def translateOne (env : Env) (t : TranslateCtx) (type : InstrType) (op imm : BitVec 32) :
    TranslateCtx :=
  match type with
  | .b => t.translateB op
  | .br => t.translateBr op
  | .blr => t.translateBlr op
  | .ret => t.translateRet op
  | .bl => t.translateBl op
  | .bCond => t.translateBCond op
  | .cbz => t.translateCbzCbnz op false
  | .cbnz => t.translateCbzCbnz op true
  | .tbz => t.translateTbzTbnz op false
  | .tbnz => t.translateTbzTbnz op true
  | .add | .sub => t.allocating fun a ↦ translateAddSub a op (op.getLsbD 29)
  | .and | .orr | .eor | .bic => t.allocating fun a ↦ translateLogical a op
  | .cmp => t.straight (translateCmp op)
  | .adc => t.straight (translateAdc op)
  | .sbc => t.straight (translateSbc op)
  | .neg => t.straight (translateNeg op)
  | .rsb => t.straight (translateRsb op)
  | .mvn => t.straight (translateMvn op)
  | .tst => t.straight (translateTst op)
  | .cmn => t.straight (translateCmn op)
  | .orn => t.straight (translateOrn op)
  | .csel => t.straight (translateCsel op)
  | .cset => t.straight (translateCset op)
  | .cinc => t.straight (translateCinc op)
  | .cinv => t.straight (translateCinv op)
  | .cneg => t.straight (translateCneg op)
  | .ccmn => t.straight (translateCcmn op)
  | .ccmp => t.straight (translateCcmp op)
  | .mul => t.straight (translateMul op)
  | .sdiv | .udiv => t.straight (translateDiv op)
  | .madd => t.straight (translateMadd op)
  | .msub => t.straight (translateMsub op)
  | .smulh => t.straight (translateSmulh op)
  | .umulh => t.straight (translateUmulh op)
  | .lsl | .lsr | .asr => t.straight (translateShift op)
  | .ror => t.straight (translateRorImm op)
  | .extr => t.straight (translateExtr op)
  | .sbfm => t.straight (translateSbfm op)
  | .ubfm => t.straight (translateUbfm op)
  | .bfi => ((translateBfi op).map t.straight).getD t
  | .bfxil => ((translateBfxil op).map t.straight).getD t
  | .bfc => t.straight (translateBfc op)
  | .clz => t.straight (translateClz op)
  | .rbit => t.straight (translateRbit op)
  | .rev => t.straight (translateRev op)
  | .sxtb => t.straight (translateSxtb op)
  | .sxth => t.straight (translateSxth op)
  | .uxtb => t.straight (translateUxtb op)
  | .uxth => t.straight (translateUxth op)
  | .sxtw => t.straight (translateSxtw op)
  | .uxtw => t.straight (translateUxtw op)
  | .ldr | .str => t.straight (translateLdrStr op imm)
  | .ldp | .stp => t.straight (translateLdpStp op imm)
  | .ldrLiteral => t.straight (translateLdrLiteral t.arm64Cur op)
  | .ldrb => t.straight (translateLdrb op)
  | .strb => t.straight (translateStrb op)
  | .ldrh => t.straight (translateLdrh op)
  | .strh => t.straight (translateStrh op)
  | .ldrsb => t.straight (translateLdrsb op)
  | .ldrsh => t.straight (translateLdrsh op)
  | .ldrsw => t.straight (translateLdrsw op)
  | .adr | .adrp => t.straight (translateAdrAdrp t.arm64Cur op)
  | .movz | .movn | .movk => t.allocating fun a ↦ translateMovImm a op
  | .mov => t.straight (translateMovReg op)
  | .ldaxr => t.straight (translateLdaxr op)
  | .stlxr => t.straight (translateStlxr op)
  | .cas => t.straight (translateCas op)
  | .ldadd => t.straight (translateLdadd op)
  | .fadd => t.straight (translateFadd op)
  | .fsub => t.straight (translateFsub op)
  | .fmul => t.straight (translateFmul op)
  | .fdiv => t.straight (translateFdiv op)
  | .fcmp | .fcmpe => t.straight (translateFcmp op)
  | .fcvt => t.straight (translateFcvt op)
  | .fmovReg | .fmovImm => t.straight (translateFmovImm env op)
  | .fsqrt => t.straight (translateFsqrt op)
  | .fabs => t.straight (translateFabs op)
  | .fneg => t.straight (translateFneg op)
  | .fmadd => t.straight (translateFmadd op)
  | .fmsub => t.straight (translateFmsub op)
  | .dmb | .dsb | .isb => t.emit (translateDmbDsbIsb env op)
  | .svc => t.straight translateSvc
  | .mrs => t.straight (translateMrs env op)
  | .msr => t.pcMapAdd.emitItems (translateMsr env op)
  | .hint => t.emit (translateHint op)
  | .brk => t.emit translateBrk
  | .hlt => t.emit translateHlt
  | .eret => t.straight translateEret
  | .csinc => t.straight (translateCsinc op)
  | .csinv => t.straight (translateCsinv op)
  | .csneg => t.straight (translateCsneg op)
  | .fcsel => t.straight (translateFcsel op)
  | .fnmadd => t.straight (translateFnmadd op)
  | .fnmsub => t.straight (translateFnmsub op)
  | .prfm => t.straight (translatePrfm op)
  | .crc32 | .crc32c => t.straight (translateCrc32 op)
  | .aese => t.straight (translateAese op)
  | .aesd => t.straight (translateAesd op)
  | .aesmc => t.straight (translateAesmc op)
  | .aesimc => t.straight (translateAesimc op)
  | .sha256 => t.straight (translateSha256 op)
  | .neonAdd => t.emit (translateNeonAdd env op)
  | .neonSub => t.emit (translateNeonSub op)
  | .neonMul => t.emit (translateNeonMul op)
  | .neonDiv | .neonFdiv => t.emit (translateNeonDiv op)
  | .neonAnd => t.emit (translateNeonAnd op)
  | .neonOrr => t.emit (translateNeonOrr op)
  | .neonEor => t.emit (translateNeonEor op)
  | .neonBsl => t.emit (translateNeonBsl op)
  | .neonExt => t.emit (translateNeonExt op)
  | .neonDup => t.emit (translateNeonDup op)
  | .neonMovi => t.emit (translateNeonMovi op)
  | .neonShl => t.emit (translateNeonShl op)
  | .neonShr => t.emit (translateNeonShr op)
  | .neonIns => t.emit (translateNeonIns op)
  | .neonXtn => t.emit (translateNeonXtn op)
  | .neonSqxtn => t.emit (translateNeonSqxtn op)
  | .neonUqxtn => t.emit (translateNeonUqxtn op)
  | .neonSqxtun => t.emit (translateNeonSqxtun op)
  | .neonUsra => t.emit (translateNeonUsra op)
  | .neonSsra => t.emit (translateNeonSsra op)
  | .neonUshl => t.emit (translateNeonUshl op)
  | .neonSshl => t.emit (translateNeonSshl op)
  | .neonUmull => t.emit (translateNeonUmull op)
  | .neonSmull => t.emit (translateNeonSmull op)
  | .neonPmul => t.emit (translateNeonPmul op)
  | .neonFadd => t.emit (translateNeonFadd env op)
  | .neonFsub => t.emit (translateNeonFsub op)
  | .neonFmul => t.emit (translateNeonFmul op)
  | .neonFmax => t.emit (translateNeonFmax op)
  | .neonFmin => t.emit (translateNeonFmin op)
  | .neonFcvt => t.emit (translateNeonFcvt op)
  | .neonFsqrt => t.emit (translateNeonFsqrt op)
  | .neonFabs => t.emit (translateNeonFabs op)
  | .neonFneg => t.emit (translateNeonFneg op)
  | .neonFmla => t.emit (translateNeonFmla op)
  | .neonFmls => t.emit (translateNeonFmls op)
  | .neonFrecpe => t.emit (translateNeonFrecpe op)
  | .neonFrsqrte => t.emit (translateNeonFrsqrte op)
  | .neonFcmp => t.emit (translateNeonFcmp op)
  | .ldrSimd => t.emit (translateLdrSimd op)
  | .strSimd => t.emit (translateStrSimd op)
  | .unknown | .dataproc | .ldst => t.emit [[0x90]]

/-- What the source leaves uninitialised: the map of a new context, and the decoded instruction
when the decoder rejects the address. -/
structure Stack where
  pcMap : Int → PcMapEntry
  pcMapCount : Int
  decoded : Nat → DecodedInstruction

/-- A stack of zeros. -/
def Stack.zero : Stack := ⟨fun _ ↦ ⟨0, 0⟩, 0, fun _ ↦ {}⟩

/-- `arm2x86_read_le32`. -/
def readLe32 (mem : BitVec 64 → Byte) (p : BitVec 64) : BitVec 32 :=
  mem (p + 3) ++ mem (p + 2) ++ mem (p + 1) ++ mem p

/-- A block of guest code: the memory it is read from, its address and its size in bytes. -/
structure Block where
  mem : BitVec 64 → Byte
  addr : BitVec 64
  size : Nat

/-- Some instructions at an address, with zeros around them. -/
def Block.ofWords (addr : BitVec 64) (words : List (BitVec 32)) : Block where
  mem p := (words.flatMap imm32).getD (p - addr).toNat 0
  addr
  size := 4 * words.length

/-- The address of an instruction of a block. -/
def Block.pc (blk : Block) (k : Nat) : BitVec 64 := blk.addr + BitVec.ofNat 64 (4 * k)

/-- An instruction of a block. The last one may reach beyond the end. -/
def Block.word (blk : Block) (k : Nat) : BitVec 32 := readLe32 blk.mem (blk.pc k)

/-- `arm2x86_decode` of an instruction of a block: a misaligned address leaves the result as it
was. -/
def Block.decoded (blk : Block) (stack : Stack) (k : Nat) : DecodedInstruction :=
  if blk.pc k &&& 3 == 0 then decode (blk.word k) else stack.decoded k

/-- The prologue: the argument registers to the slots of `X0` to `X7`, `RSP` to the slot of `X31`
and `RBP` to that of `X29`. The prefixes are spelt out in the source; those for `R8` to `R11` do
not extend the register. -/
def prologue : List Code :=
  [[0x48, 0x89, modrm 2 (4 &&& 7) 5] ++ imm32 (armRegOffset 31),
    [0x48, 0x89, modrm 2 (rdi &&& 7) 5] ++ imm32 (armRegOffset 0),
    [0x48, 0x89, modrm 2 (rsi &&& 7) 5] ++ imm32 (armRegOffset 1),
    [0x48, 0x89, modrm 2 (rdx &&& 7) 5] ++ imm32 (armRegOffset 2),
    [0x48, 0x89, modrm 2 (rcx &&& 7) 5] ++ imm32 (armRegOffset 3),
    [0x48, 0x89, modrm 2 (r8 &&& 7) 5] ++ imm32 (armRegOffset 4),
    [0x49, 0x89, modrm 2 (r9 &&& 7) 5] ++ imm32 (armRegOffset 5),
    [0x49, 0x89, modrm 2 (r10 &&& 7) 5] ++ imm32 (armRegOffset 6),
    [0x49, 0x89, modrm 2 (r11 &&& 7) 5] ++ imm32 (armRegOffset 7),
    [0x48, 0x89, modrm 2 (rbp &&& 7) 5] ++ imm32 (armRegOffset 29)]

/-- The epilogue: `X0` to `RAX`, and the return. -/
def epilogue : List Code :=
  [[0x48, 0x8b, modrm 2 (rax &&& 7) 5] ++ imm32 (armRegOffset 0), [0xc3]]

/-- The context behind the prologue. -/
def startCtx (stack : Stack) (blk : Block) (x86Base : BitVec 64) : TranslateCtx :=
  let (alloc, setup) := regAllocSetupCallingConvention regAllocInit
  { arm64Cur := blk.addr
    x86Base
    out := (prologue ++ setup).map .code
    alloc
    pcMap := stack.pcMap
    pcMapCount := stack.pcMapCount }

/-- One turn of the loop: the switch, and the advance to the next instruction. -/
def translateStep (env : Env) (stack : Stack) (blk : Block) (k : Nat) (t : TranslateCtx) :
    TranslateCtx :=
  let d := blk.decoded stack k
  { translateOne env t d.instrType (blk.word k) d.imm with arm64Cur := blk.pc (k + 1) }

/-- The loop: `fuel` more instructions at most, from instruction `k` on. -/
def convertLoop (env : Env) (stack : Stack) (blk : Block) : Nat → Nat → TranslateCtx → TranslateCtx
  | 0, _, t => t
  | fuel + 1, k, t =>
    if 4 * k < blk.size then
      let t := translateStep env stack blk k t
      if isBlockTerminator (blk.decoded stack k).instrType then t.batchStore
      else convertLoop env stack blk fuel (k + 1) t
    else
      t

/-- `max_instructions`. -/
def maxInstructions : Nat := 64

/-- `arm2x86_convert_block`, for valid arguments. The register home's address does not enter the
output. -/
def convertBlock (env : Env) (stack : Stack) (blk : Block) (x86Base : BitVec 64) : TranslateCtx :=
  ((convertLoop env stack blk maxInstructions 0 (startCtx stack blk x86Base)).batchStore).emit
    epilogue

/-- The bytes of a translated block. -/
def convertBlockBytes (env : Env) (stack : Stack) (blk : Block) (x86Base : BitVec 64) : List Byte :=
  (convertBlock env stack blk x86Base).out.flatMap Item.bytes

end Arm2x86.Translate
