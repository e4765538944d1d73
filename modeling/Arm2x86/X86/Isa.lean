import Arm2x86.Base.Bytes

/-!
# A fragment of the x86-64 instruction set

Operands, instructions and a decoder over byte lists for 64-bit mode. The decoder follows the
architecture's rules for prefixes (a REX prefix counts only directly before the opcode), for
ModRM, SIB and displacements, and for byte registers. Vector instructions are kept apart only by
whether they write a general register. A byte sequence outside the fragment, or one that ends
inside an instruction, decodes to `none`.
-/

namespace Arm2x86.X86

/-- General registers, numbered as in the encoding. -/
abbrev Gpr := BitVec 4

/-- Operand sizes. -/
inductive Size where
  | b8
  | b16
  | b32
  | b64
deriving DecidableEq, Repr

/-- Where an operand lives. `high` is one of `AH`, `CH`, `DH`, `BH`. -/
inductive Loc where
  | reg (r : Gpr)
  | high (r : BitVec 2)
  | mem (base : Option Gpr) (index : Option (Gpr × BitVec 2)) (disp : BitVec 64)
  | rip (disp : BitVec 64)
deriving DecidableEq, Repr

inductive AluOp where
  | add
  | or
  | adc
  | sbb
  | and
  | sub
  | xor
  | cmp
deriving DecidableEq, Repr

inductive ShiftOp where
  | rol
  | ror
  | rcl
  | rcr
  | shl
  | shr
  | sar
deriving DecidableEq, Repr

/-- Instructions of the fragment. Branch displacements are relative to the next instruction. -/
inductive Instr where
  | alu (op : AluOp) (size : Size) (dst src : Loc)
  | aluImm (op : AluOp) (size : Size) (dst : Loc) (imm : BitVec 64)
  | mov (size : Size) (dst src : Loc)
  | movImm (size : Size) (dst : Loc) (imm : BitVec 64)
  | extend (signed : Bool) (size srcSize : Size) (dst : Gpr) (src : Loc)
  | test (size : Size) (a b : Loc)
  | testImm (size : Size) (a : Loc) (imm : BitVec 64)
  | not (size : Size) (dst : Loc)
  | neg (size : Size) (dst : Loc)
  | mulWide (signed : Bool) (size : Size) (src : Loc)
  | divWide (signed : Bool) (size : Size) (src : Loc)
  | imul (size : Size) (dst : Gpr) (src : Loc)
  | shift (op : ShiftOp) (size : Size) (dst : Loc) (count : Byte)
  | incDec (dec : Bool) (size : Size) (dst : Loc)
  | bitTest (size : Size) (src : Loc) (bit : Byte)
  | lea (size : Size) (dst : Gpr) (src : Loc)
  | xchg (size : Size) (dst : Loc) (src : Gpr)
  | xadd (size : Size) (dst : Loc) (src : Gpr)
  | cmpxchg (size : Size) (dst : Loc) (src : Gpr)
  | bswap (size : Size) (dst : Gpr)
  | countZeros (size : Size) (dst : Gpr) (src : Loc)
  | crc32 (srcSize : Size) (dst : Gpr) (src : Loc)
  | setcc (cc : BitVec 4) (dst : Loc)
  | cmov (cc : BitVec 4) (size : Size) (dst : Gpr) (src : Loc)
  | signToRdx (size : Size)
  | widenRax (size : Size)
  | push (src : Gpr)
  | pop (dst : Gpr)
  | pushf
  | popf
  | leave
  | jcc (cc : BitVec 4) (rel : BitVec 64)
  | jmp (rel : BitVec 64)
  | call (rel : BitVec 64)
  | jmpLoc (target : Loc)
  | callLoc (target : Loc)
  | ret
  | nop
  | trap
  | syscall
  | rdtsc
  /-- a vector instruction, fence or hint with no general register as its result -/
  | vector
  /-- a vector instruction with a general register or memory as its result -/
  | vectorTo (dst : Loc)
deriving DecidableEq, Repr

/-- The prefixes in front of an opcode. -/
structure Prefixes where
  opsize : Bool
  rep : Bool
  repne : Bool
  rex : Option Byte
deriving DecidableEq, Repr

namespace Prefixes

def none : Prefixes := ⟨false, false, false, Option.none⟩

def w (p : Prefixes) : Bool := (p.rex.getD 0).getLsbD 3
def r (p : Prefixes) : Bool := (p.rex.getD 0).getLsbD 2
def x (p : Prefixes) : Bool := (p.rex.getD 0).getLsbD 1
def b (p : Prefixes) : Bool := (p.rex.getD 0).getLsbD 0

/-- The operand size of an instruction that is not a byte instruction. -/
def size (p : Prefixes) : Size :=
  if p.w then .b64 else if p.opsize then .b16 else .b32

end Prefixes

/-- Split the prefixes off. A legacy prefix after a REX prefix cancels it. -/
def takePrefixes (p : Prefixes) : List Byte → Prefixes × List Byte
  | [] => (p, [])
  | c :: cs =>
    if c == 0x66 then takePrefixes { p with opsize := true, rex := none } cs
    else if c == 0xf3 then takePrefixes { p with rep := true, rex := none } cs
    else if c == 0xf2 then takePrefixes { p with repne := true, rex := none } cs
    else if c == 0xf0 then takePrefixes { p with rex := none } cs
    else if c &&& 0xf0 == 0x40 then takePrefixes { p with rex := some c } cs
    else (p, c :: cs)

/-- A register number from its prefix bit and its three-bit field. -/
def gpr (ext : Bool) (field : BitVec 3) : Gpr := BitVec.ofBool ext ++ field

/-- A sign-extended byte. -/
def take8 : List Byte → Option (BitVec 64 × List Byte)
  | a :: rest => some (a.signExtend 64, rest)
  | [] => none

/-- A sign-extended little-endian word. -/
def take32 : List Byte → Option (BitVec 64 × List Byte)
  | a :: b :: c :: d :: rest => some ((d ++ c ++ b ++ a).signExtend 64, rest)
  | _ => none

/-- A sign-extended little-endian halfword. -/
def take16 : List Byte → Option (BitVec 64 × List Byte)
  | a :: b :: rest => some ((b ++ a).signExtend 64, rest)
  | _ => none

/-- A little-endian quadword. -/
def take64 : List Byte → Option (BitVec 64 × List Byte)
  | a :: b :: c :: d :: e :: f :: g :: h :: rest =>
    some (h ++ g ++ f ++ e ++ d ++ c ++ b ++ a, rest)
  | _ => none

/-- An immediate of an instruction's operand size; 64-bit operands take 32 bits. -/
def takeImm (size : Size) (bs : List Byte) : Option (BitVec 64 × List Byte) :=
  match size with
  | .b8 => take8 bs
  | .b16 => take16 bs
  | _ => take32 bs

/-- The displacement a `mod` field calls for. -/
def takeDisp (mod : BitVec 2) (bs : List Byte) : Option (BitVec 64 × List Byte) :=
  if mod == 1 then take8 bs else if mod == 2 then take32 bs else some (0, bs)

/-- The memory operand behind a SIB byte. -/
def takeSib (p : Prefixes) (mod : BitVec 2) : List Byte → Option (Loc × List Byte)
  | [] => none
  | s :: rest =>
    let index := gpr p.x (s.extractLsb' 3 3)
    let index := if index == 4 then none else some (index, s.extractLsb' 6 2)
    if s.extractLsb' 0 3 == 5 && mod == 0 then do
      let (disp, rest) ← take32 rest
      some (.mem none index disp, rest)
    else do
      let (disp, rest) ← takeDisp mod rest
      some (.mem (some (gpr p.b (s.extractLsb' 0 3))) index disp, rest)

/-- The register field of a ModRM byte. -/
def takeReg (p : Prefixes) : List Byte → Gpr
  | m :: _ => gpr p.r (m.extractLsb' 3 3)
  | [] => 0

/-- The opcode extension in the register field of a ModRM byte. -/
def takeExt : List Byte → BitVec 3
  | m :: _ => m.extractLsb' 3 3
  | [] => 0

/-- A byte register: without a REX prefix the numbers 4 to 7 are the high bytes. -/
def byteReg (p : Prefixes) (r : Gpr) : Loc :=
  if p.rex.isNone && 4 ≤ r then .high (r.extractLsb' 0 2) else .reg r

/-- The register or memory operand of a ModRM byte, at a given operand size. -/
def takeRm (p : Prefixes) (size : Size) : List Byte → Option (Loc × List Byte)
  | [] => none
  | m :: rest =>
    let mod : BitVec 2 := m.extractLsb' 6 2
    let rm : BitVec 3 := m.extractLsb' 0 3
    if mod == 3 then
      some (if size = .b8 then byteReg p (gpr p.b rm) else .reg (gpr p.b rm), rest)
    else if rm == 4 then
      takeSib p mod rest
    else if mod == 0 && rm == 5 then do
      let (disp, rest) ← take32 rest
      some (.rip disp, rest)
    else do
      let (disp, rest) ← takeDisp mod rest
      some (.mem (some (gpr p.b rm)) none disp, rest)

/-- The arithmetic operation of an opcode row or of an opcode extension. -/
def aluOp (n : BitVec 3) : AluOp :=
  if n == 0 then .add else if n == 1 then .or else if n == 2 then .adc else if n == 3 then .sbb
  else if n == 4 then .and else if n == 5 then .sub else if n == 6 then .xor else .cmp

/-- The shift of an opcode extension. -/
def shiftOp (n : BitVec 3) : ShiftOp :=
  if n == 0 then .rol else if n == 1 then .ror else if n == 2 then .rcl else if n == 3 then .rcr
  else if n == 5 then .shr else if n == 7 then .sar else .shl

/-- The size of an opcode whose lowest bit tells the byte form from the full form. -/
def opSize (p : Prefixes) (op : Byte) : Size := if op.getLsbD 0 then p.size else .b8

/-- The register operand at a given size. -/
def regAt (p : Prefixes) (size : Size) (r : Gpr) : Loc :=
  if size = .b8 then byteReg p r else .reg r

/-- The group of one-operand instructions behind `F6` and `F7`. -/
def decodeUnary (p : Prefixes) (op : Byte) (bs : List Byte) : Option (Instr × List Byte) := do
  let size := opSize p op
  let ext := takeExt bs
  let (rm, rest) ← takeRm p size bs
  if ext == 0 || ext == 1 then do
    let (imm, rest) ← takeImm size rest
    some (.testImm size rm imm, rest)
  else if ext == 2 then some (.not size rm, rest)
  else if ext == 3 then some (.neg size rm, rest)
  else if ext == 4 then some (.mulWide false size rm, rest)
  else if ext == 5 then some (.mulWide true size rm, rest)
  else if ext == 6 then some (.divWide false size rm, rest)
  else some (.divWide true size rm, rest)

/-- The group behind `FF`. -/
def decodeIndirect (p : Prefixes) (bs : List Byte) : Option (Instr × List Byte) := do
  let ext := takeExt bs
  let (rm, rest) ← takeRm p p.size bs
  if ext == 0 then some (.incDec false p.size rm, rest)
  else if ext == 1 then some (.incDec true p.size rm, rest)
  else if ext == 2 then some (.callLoc rm, rest)
  else if ext == 4 then some (.jmpLoc rm, rest)
  else none

/-- Opcodes behind `0F 38`. -/
def decode0F38 (p : Prefixes) : List Byte → Option (Instr × List Byte)
  | [] => none
  | op :: bs =>
    if op == 0xf0 || op == 0xf1 then
      if p.repne then do
        let size := opSize p op
        let (rm, rest) ← takeRm p size bs
        some (.crc32 size (takeReg p bs) rm, rest)
      else none
    else do
      let (_, rest) ← takeRm p .b64 bs
      some (.vector, rest)

/-- Opcodes behind `0F 3A`, all with an immediate byte. The extractions write the `rm` operand
and exist only with the operand-size prefix. -/
def decode0F3A (p : Prefixes) : List Byte → Option (Instr × List Byte)
  | [] => none
  | op :: bs => do
    let (rm, rest) ← takeRm p .b64 bs
    let (_, rest) ← take8 rest
    if p.opsize then
      if 0x14 ≤ op && op ≤ 0x17 then some (.vectorTo rm, rest) else some (.vector, rest)
    else none

/-- Two-byte opcodes. -/
def decode0F (p : Prefixes) : List Byte → Option (Instr × List Byte)
  | [] => none
  | op :: bs =>
    if op == 0x05 then some (.syscall, bs)
    else if op == 0x31 then some (.rdtsc, bs)
    else if op == 0x38 then decode0F38 p bs
    else if op == 0x3a then decode0F3A p bs
    else if op &&& 0xf0 == 0x40 then do
      let (rm, rest) ← takeRm p p.size bs
      some (.cmov (op.extractLsb' 0 4) p.size (takeReg p bs) rm, rest)
    else if op &&& 0xf0 == 0x80 then do
      let (rel, rest) ← take32 bs
      some (.jcc (op.extractLsb' 0 4) rel, rest)
    else if op &&& 0xf0 == 0x90 then do
      let (rm, rest) ← takeRm p .b8 bs
      some (.setcc (op.extractLsb' 0 4) rm, rest)
    else if op == 0xaf then do
      let (rm, rest) ← takeRm p p.size bs
      some (.imul p.size (takeReg p bs) rm, rest)
    else if op == 0xb0 || op == 0xb1 then do
      let (rm, rest) ← takeRm p (opSize p op) bs
      some (.cmpxchg (opSize p op) rm (takeReg p bs), rest)
    else if op == 0xb6 || op == 0xbe then do
      let (rm, rest) ← takeRm p .b8 bs
      some (.extend (op == 0xbe) p.size .b8 (takeReg p bs) rm, rest)
    else if op == 0xb7 || op == 0xbf then do
      let (rm, rest) ← takeRm p .b16 bs
      some (.extend (op == 0xbf) p.size .b16 (takeReg p bs) rm, rest)
    else if op == 0xba then do
      let (rm, rest) ← takeRm p p.size bs
      let (_, rest') ← take8 rest
      if takeExt bs == 4 then some (.bitTest p.size rm (rest.headD 0), rest') else none
    else if op == 0xbc || op == 0xbd then do
      let (rm, rest) ← takeRm p p.size bs
      some (.countZeros p.size (takeReg p bs) rm, rest)
    else if op == 0xc0 || op == 0xc1 then do
      let (rm, rest) ← takeRm p (opSize p op) bs
      some (.xadd (opSize p op) rm (takeReg p bs), rest)
    else if op &&& 0xf8 == 0xc8 then
      some (.bswap p.size (gpr p.b (op.extractLsb' 0 3)), bs)
    else if op == 0x7e then do
      let (rm, rest) ← takeRm p .b64 bs
      some (if p.rep then .vector else .vectorTo rm, rest)
    else if op == 0x2c || op == 0x2d || op == 0x50 || op == 0xd7 then do
      let (_, rest) ← takeRm p .b64 bs
      some (.vectorTo (.reg (takeReg p bs)), rest)
    else if op == 0xc5 then do
      let (_, rest) ← takeRm p .b64 bs
      let (_, rest) ← take8 rest
      some (.vectorTo (.reg (takeReg p bs)), rest)
    else if 0x70 ≤ op && op ≤ 0x73 || op == 0xc2 || op == 0xc4 || op == 0xc6 then do
      let (_, rest) ← takeRm p .b64 bs
      let (_, rest) ← take8 rest
      some (.vector, rest)
    else if 0x10 ≤ op && op ≤ 0x18 || op == 0xae || 0x28 ≤ op && op ≤ 0x2f
        || 0x51 ≤ op && op ≤ 0x7f || 0xd0 ≤ op && op ≤ 0xfe then do
      let (_, rest) ← takeRm p .b64 bs
      some (.vector, rest)
    else none

/-- One-byte opcodes. -/
def decodeOpcode (p : Prefixes) : List Byte → Option (Instr × List Byte)
  | [] => none
  | op :: bs =>
    if op == 0x0f then decode0F p bs
    else if op &&& 0xc4 == 0x00 then do
      -- the arithmetic rows: `rm, reg` when bit 1 is clear, `reg, rm` when it is set
      let size := opSize p op
      let (rm, rest) ← takeRm p size bs
      let reg := regAt p size (takeReg p bs)
      if op.getLsbD 1 then some (.alu (aluOp (op.extractLsb' 3 3)) size reg rm, rest)
      else some (.alu (aluOp (op.extractLsb' 3 3)) size rm reg, rest)
    else if op &&& 0xf8 == 0x50 then some (.push (gpr p.b (op.extractLsb' 0 3)), bs)
    else if op &&& 0xf8 == 0x58 then some (.pop (gpr p.b (op.extractLsb' 0 3)), bs)
    else if op == 0x63 then do
      let (rm, rest) ← takeRm p .b32 bs
      some (.extend true p.size .b32 (takeReg p bs) rm, rest)
    else if op &&& 0xf0 == 0x70 then do
      let (rel, rest) ← take8 bs
      some (.jcc (op.extractLsb' 0 4) rel, rest)
    else if op == 0x81 then do
      let (rm, rest) ← takeRm p p.size bs
      let (imm, rest) ← takeImm p.size rest
      some (.aluImm (aluOp (takeExt bs)) p.size rm imm, rest)
    else if op == 0x80 || op == 0x83 then do
      let (rm, rest) ← takeRm p (opSize p op) bs
      let (imm, rest) ← take8 rest
      some (.aluImm (aluOp (takeExt bs)) (opSize p op) rm imm, rest)
    else if op == 0x84 || op == 0x85 then do
      let (rm, rest) ← takeRm p (opSize p op) bs
      some (.test (opSize p op) rm (regAt p (opSize p op) (takeReg p bs)), rest)
    else if op == 0x87 then do
      let (rm, rest) ← takeRm p p.size bs
      some (.xchg p.size rm (takeReg p bs), rest)
    else if op == 0x88 || op == 0x89 then do
      let (rm, rest) ← takeRm p (opSize p op) bs
      some (.mov (opSize p op) rm (regAt p (opSize p op) (takeReg p bs)), rest)
    else if op == 0x8a || op == 0x8b then do
      let (rm, rest) ← takeRm p (opSize p op) bs
      some (.mov (opSize p op) (regAt p (opSize p op) (takeReg p bs)) rm, rest)
    else if op == 0x8d then do
      let (rm, rest) ← takeRm p p.size bs
      some (.lea p.size (takeReg p bs) rm, rest)
    else if op == 0x90 then some (.nop, bs)
    else if op == 0x98 then some (.widenRax p.size, bs)
    else if op == 0x99 then some (.signToRdx p.size, bs)
    else if op == 0x9c then some (.pushf, bs)
    else if op == 0x9d then some (.popf, bs)
    else if op &&& 0xf8 == 0xb8 then do
      let (imm, rest) ← if p.w then take64 bs else takeImm p.size bs
      some (.movImm p.size (.reg (gpr p.b (op.extractLsb' 0 3))) imm, rest)
    else if op == 0xc0 || op == 0xc1 then do
      let (rm, rest) ← takeRm p (opSize p op) bs
      let (_, rest') ← take8 rest
      some (.shift (shiftOp (takeExt bs)) (opSize p op) rm (rest.headD 0), rest')
    else if op == 0xc3 then some (.ret, bs)
    else if op == 0xc6 || op == 0xc7 then do
      let (rm, rest) ← takeRm p (opSize p op) bs
      let (imm, rest) ← takeImm (opSize p op) rest
      if takeExt bs == 0 then some (.movImm (opSize p op) rm imm, rest) else none
    else if op == 0xc9 then some (.leave, bs)
    else if op == 0xcc || op == 0xf4 then some (.trap, bs)
    else if op == 0xe8 then do
      let (rel, rest) ← take32 bs
      some (.call rel, rest)
    else if op == 0xe9 then do
      let (rel, rest) ← take32 bs
      some (.jmp rel, rest)
    else if op == 0xeb then do
      let (rel, rest) ← take8 bs
      some (.jmp rel, rest)
    else if op == 0xf6 || op == 0xf7 then decodeUnary p op bs
    else if op == 0xff then decodeIndirect p bs
    else none

/-- The instruction at the head of a byte list, and the bytes behind it. -/
def decode (bs : List Byte) : Option (Instr × List Byte) :=
  let (p, rest) := takePrefixes .none bs
  decodeOpcode p rest

/-- The general registers an operand written to stands for. -/
def Loc.gprs : Loc → List Gpr
  | .reg r => [r]
  | .high r => [r.setWidth 4]
  | _ => []

/-- The general registers an instruction writes, other than the stack pointer's implicit
updates. -/
def Instr.dests : Instr → List Gpr
  | .alu op _ dst _ | .aluImm op _ dst _ => if op = .cmp then [] else dst.gprs
  | .mov _ dst _ | .movImm _ dst _ | .not _ dst | .neg _ dst | .shift _ _ dst _
  | .incDec _ _ dst | .setcc _ dst | .vectorTo dst => dst.gprs
  | .extend _ _ _ dst _ | .imul _ dst _ | .lea _ dst _ | .bswap _ dst | .countZeros _ dst _
  | .crc32 _ dst _ | .cmov _ _ dst _ | .pop dst => [dst]
  | .xchg _ dst src | .xadd _ dst src => src :: dst.gprs
  | .cmpxchg _ dst _ => 0 :: dst.gprs
  | .mulWide _ _ _ | .divWide _ _ _ | .rdtsc => [0, 2]
  | .signToRdx _ => [2]
  | .widenRax _ => [0]
  | .leave => [4, 5]
  | .syscall => [0, 1, 11]
  | .test _ _ _ | .testImm _ _ _ | .bitTest _ _ _ | .push _ | .pushf | .popf | .jcc _ _ | .jmp _
  | .call _ | .jmpLoc _ | .callLoc _ | .ret | .nop | .trap | .vector => []

/-- The instructions a byte list decodes to from its head on, up to the first byte that starts
none. The fuel bounds their number. -/
def sweep : Nat → List Byte → List Instr
  | 0, _ => []
  | fuel + 1, bs =>
    match decode bs with
    | none => []
    | some (i, rest) => i :: sweep fuel rest

end Arm2x86.X86
