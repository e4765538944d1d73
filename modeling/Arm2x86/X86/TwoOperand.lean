import Arm2x86.X86.Execution
import Arm2x86.X86.RoundTrip
import Arm2x86.X86.Runs

/-!
# Helpers for two registers

The helpers of `modules/arm2x86_emit.c` that take a destination and a source register, with the
operations they are named after and with the registers that their bytes stand for.
-/

/-!
## Bit scans and bit counts

The instructions behind `0F BC`, `0F BD` and `F3 0F B8`: the scans, which the prefix `F3` turns into
counts of zeros, and the count of ones. A machine that has them runs the other instructions as it
did.
-/

namespace Arm2x86.X86

inductive BitOp where
  | bsf
  | bsr
  | tzcnt
  | lzcnt
  | popcnt
deriving DecidableEq, Repr

/-- What the architecture leaves undefined in a result and in the flags. -/
structure Undefined where
  value : BitVec 64
  status : Status

/-- The operations, with their flags. The scans have no result for zero. -/
def BitOp.run (op : BitOp) (undef : Undefined) (a : BitVec 64) : BitVec 64 × Status :=
  let scan := fun (index : BitVec 64) ↦
    (if a = 0 then undef.value else index, { undef.status with zero := a == 0 })
  let count := fun (n : BitVec 64) ↦ (n, { undef.status with carry := a == 0, zero := n == 0 })
  match op with
  | .bsf => scan a.ctz
  | .bsr => scan (63 - a.clz)
  | .tzcnt => count a.ctz
  | .lzcnt => count a.clz
  | .popcnt => (a.cpop, ⟨false, false, false, a == 0, false, false⟩)

/-- A 64-bit bit instruction. -/
structure BitInstr where
  op : BitOp
  dst : Gpr
  src : Loc
deriving DecidableEq, Repr

/-- The operation of an opcode behind `0F`. -/
def bitOp (p : Prefixes) (op : Byte) : Option BitOp :=
  if op == 0xbc then some (if p.rep then .tzcnt else .bsf)
  else if op == 0xbd then some (if p.rep then .lzcnt else .bsr)
  else if op == 0xb8 && p.rep then some .popcnt
  else none

/-- The 64-bit bit instruction at the head of a byte list, and the bytes behind it. -/
def decodeBits (bs : List Byte) : Option (BitInstr × List Byte) :=
  let (p, rest) := takePrefixes .none bs
  if rest.head? == some 0x0f && p.w then do
    let op ← bitOp p ((rest.drop 1).headD 0)
    let (rm, tail) ← takeRm p .b64 (rest.drop 2)
    some (⟨op, takeReg p (rest.drop 2), rm⟩, tail)
  else
    none

def BitInstr.exec (i : BitInstr) (undef : Undefined) (m : Machine) : Option Machine := do
  let a ← m.fetch .b64 i.src
  let (r, s) := i.op.run undef a
  return (m.setReg i.dst r).setStatus s

/-- One instruction of a machine with the bit instructions. -/
def Semantics.stepBits (sem : Semantics) (undef : BitInstr → Machine → Undefined)
    (code : List Byte) (m : Machine) : Option Machine :=
  let bs := code.drop m.pos
  match decodeBits bs with
  | some (i, rest) =>
    let m' := { m with pos := m.pos + (bs.length - rest.length) }
    i.exec (undef i m') m'
  | none => sem.step code m

theorem Semantics.stepBits_of_none (sem : Semantics) {undef : BitInstr → Machine → Undefined}
    {code : List Byte} {m : Machine} (h : decodeBits (code.drop m.pos) = none) :
    sem.stepBits undef code m = sem.step code m := by
  simp only [stepBits, h]

/-- A bit instruction at the position of a state. -/
theorem Semantics.stepBits_of_decode (sem : Semantics) {undef : BitInstr → Machine → Undefined}
    {code chunk rest : List Byte} {i : BitInstr} {m : Machine}
    (hcode : code.drop m.pos = chunk ++ rest)
    (hdec : decodeBits (chunk ++ rest) = some (i, rest)) :
    sem.stepBits undef code m =
      i.exec (undef i { m with pos := m.pos + chunk.length })
        { m with pos := m.pos + chunk.length } := by
  have hlen : (chunk ++ rest).length - rest.length = chunk.length := by
    rw [List.length_append, Nat.add_sub_cancel]
  simp only [stepBits, hcode, hdec, hlen]

end Arm2x86.X86

namespace Arm2x86.X86

/-- The source widths of `emit_movsx` and `emit_movzx`. -/
inductive SrcWidth where
  | byte
  | half
  | word
deriving DecidableEq, Repr

/-- The helpers. `cmp_r64_r64` stands with the arithmetic, and `cmovcc` and `testRex` are
`emit_cmovcc` and `emit_test_r64_r64`. -/
inductive TwoOp where
  | mov
  | alu (op : AluOp)
  | imul
  | cmov (cc : BitVec 4)
  | cmovcc (cc : BitVec 4)
  | movzxR8
  | movsx (width : SrcWidth)
  | movzx (width : SrcWidth)
  | movsxd
  | bits (op : BitOp)
  | test
  | testRex
deriving DecidableEq, Repr

namespace TwoOp

/-- The bytes of a helper. -/
def emit (op : TwoOp) (dest src : Byte) : List Byte :=
  match op with
  | .mov => movR64R64 dest src
  | .alu .add => addR64R64 dest src
  | .alu .sub => subR64R64 dest src
  | .alu .and => andR64R64 dest src
  | .alu .or => orR64R64 dest src
  | .alu .xor => xorR64R64 dest src
  | .alu .adc => adcR64R64 dest src
  | .alu .sbb => sbbR64R64 dest src
  | .alu .cmp => cmpR64R64 dest src
  | .imul => imulR64R64 dest src
  | .cmov cc => cmovR64R64 (cc.setWidth 8) dest src
  | .cmovcc cc => emitCmovcc (cc.setWidth 8) dest src
  | .movzxR8 => movzxR64R8 dest src
  | .movsx .byte => emitMovsx .byte dest src
  | .movsx .half => emitMovsx .half dest src
  -- the 32-bit form of `emit_movsx` has the bytes of `emit_movsxd`
  | .movsx .word | .movsxd => emitMovsxd dest src
  | .movzx .byte => emitMovzx .byte dest src
  | .movzx .half => emitMovzx .half dest src
  | .movzx .word => emitMovzx32 dest src
  | .bits .bsf => bsfR64R64 dest src
  | .bits .bsr => bsrR64R64 dest src
  | .bits .tzcnt => tzcntR64R64 dest src
  | .bits .lzcnt => lzcntR64R64 dest src
  | .bits .popcnt => popcntR64R64 dest src
  | .test => testR64R64 dest src
  | .testRex => emitTestR64R64 dest src

end TwoOp

def SrcWidth.bits : SrcWidth → Nat
  | .byte => 8
  | .half => 16
  | .word => 32

/-- A value extended from its low part. -/
def SrcWidth.extend (width : SrcWidth) (signed : Bool) (v : BitVec 64) : BitVec 64 :=
  let low := v.setWidth width.bits
  if signed then low.signExtend 64 else low.setWidth 64

namespace TwoOp

/-- The operation on the destination and the source: what is left in the destination, and in the
flags where it sets them. -/
def result (op : TwoOp) (undef : Undefined) (s : Status) (a b : BitVec 64) :
    BitVec 64 × Option Status :=
  match op with
  | .mov => (b, none)
  | .alu op =>
    let (r, f) := op.run s.carry undef.status a b
    (if op = .cmp then a else r, some f)
  | .imul => (a * b, some (.ofMul (decide ((a * b).toInt ≠ a.toInt * b.toInt)) undef.status))
  | .cmov cc | .cmovcc cc => (if s.holds cc then b else a, none)
  | .movzxR8 => (SrcWidth.byte.extend false b, none)
  | .movsx width => (width.extend true b, none)
  | .movzx width => (width.extend false b, none)
  | .movsxd => (SrcWidth.word.extend true b, none)
  | .bits op =>
    let (r, f) := op.run undef b
    (r, some f)
  | .test | .testRex => (a, some (.ofLogic (a &&& b) undef.status))

/-- The operation on two registers, which leaves the others and the memory alone. -/
def effect (op : TwoOp) (undef : Undefined) (dest src : Gpr) (m : Machine) : Machine :=
  let (r, f) := op.result undef m.status (m.regs dest) (m.regs src)
  f.elim (m.setReg dest r) (m.setReg dest r).setStatus

/-- The registers the bytes of a helper stand for, in the order of the operation. The helpers for
`89` and the arithmetic rows exchange them, and a high bit that is not in its place is lost. -/
def encoded (op : TwoOp) (dest src : Byte) : Gpr × Gpr :=
  let low := fun (x : Byte) ↦ gpr false (x.setWidth 3)
  match op with
  | .mov | .alu .add | .alu .sub | .alu .and | .alu .or | .alu .xor | .test => (toGpr src, toGpr dest)
  | .alu .adc | .alu .sbb | .testRex => (toGpr src, low dest)
  | .alu .cmp => (low dest, gpr (dest.getLsbD 3) (src.setWidth 3))
  | .imul | .cmov _ => (toGpr dest, toGpr src)
  | .cmovcc _ | .movzxR8 | .movsx _ | .movsxd | .movzx .byte | .movzx .half | .bits _ =>
    (low dest, toGpr src)
  | .movzx .word => (gpr (src.getLsbD 3) (dest.setWidth 3), low src)

end TwoOp

section Prefix

variable (dest src : Byte)

/-- The prefix of the helpers that put the destination's high bit to the index bit. -/
def rexIndex (w : Bool) (dest src : Byte) : Prefixes :=
  { Prefixes.none with rex := some (rex w 0 (dest >>> 3) (src >>> 3)) }

private theorem rexIndex_bits (w : Bool) :
    (rex w 0 (dest >>> 3) (src >>> 3)).getLsbD 3 = w ∧
      (rex w 0 (dest >>> 3) (src >>> 3)).getLsbD 2 = false ∧
      (rex w 0 (dest >>> 3) (src >>> 3)).getLsbD 0 = src.getLsbD 3 := by
  have hbit : ∀ x : Byte, (x >>> 3) &&& 1 = if x.getLsbD 3 then 1 else 0 := by decide
  unfold rex
  rw [hbit dest, hbit src]
  cases w <;> cases dest.getLsbD 3 <;> cases src.getLsbD 3 <;> decide

@[simp] theorem rexIndex_w (w : Bool) : (rexIndex w dest src).w = w := (rexIndex_bits dest src w).1

@[simp] theorem rexIndex_r (w : Bool) : (rexIndex w dest src).r = false :=
  (rexIndex_bits dest src w).2.1

@[simp] theorem rexIndex_b (w : Bool) : (rexIndex w dest src).b = src.getLsbD 3 :=
  (rexIndex_bits dest src w).2.2

@[simp] theorem rexIndex_size (w : Bool) :
    (rexIndex w dest src).size = if w then .b64 else .b32 := by
  rw [Prefixes.size, rexIndex_w]
  cases w <;> rfl

theorem takePrefixes_rexIndex (w : Bool) {op : Byte} (h : isOpcode op) (rest : List Byte) :
    takePrefixes .none (rex w 0 (dest >>> 3) (src >>> 3) :: op :: rest) =
      (rexIndex w dest src, op :: rest) :=
  (takePrefixes_rex _ (rex_row _ _ _ _) _).trans (takePrefixes_opcode h rest)

end Prefix

section Decoding

variable (dest src : Byte) (rest : List Byte)

/-- The instruction of a helper on two registers, other than a bit instruction. -/
def TwoOp.instr (op : TwoOp) (dest src : Gpr) : Option Instr :=
  match op with
  | .mov => some (.mov .b64 (.reg dest) (.reg src))
  | .alu op => some (.alu op .b64 (.reg dest) (.reg src))
  | .imul => some (.imul .b64 dest (.reg src))
  | .cmov cc | .cmovcc cc => some (.cmov cc .b64 dest (.reg src))
  | .movzxR8 | .movzx .byte => some (.extend false .b64 .b8 dest (.reg src))
  | .movzx .half => some (.extend false .b64 .b16 dest (.reg src))
  | .movzx .word => some (.mov .b32 (.reg dest) (.reg src))
  | .movsx .byte => some (.extend true .b64 .b8 dest (.reg src))
  | .movsx .half => some (.extend true .b64 .b16 dest (.reg src))
  | .movsx .word | .movsxd => some (.extend true .b64 .b32 dest (.reg src))
  | .bits _ => none
  | .test | .testRex => some (.test .b64 (.reg dest) (.reg src))

/-- Behind a prefix a register operand is no high byte. -/
private theorem takeRm_rexIndex (w : Bool) (size : Size) (reg rm : Byte) :
    takeRm (rexIndex w dest src) size (modrm 3#8 reg rm :: rest) =
      some (.reg (gpr (src.getLsbD 3) (rm.setWidth 3)), rest) := by
  have hbyte : ∀ r, byteReg (rexIndex w dest src) r = .reg r := fun _ ↦ rfl
  simp [takeRm, hbyte]

private theorem gpr_bit (x : Byte) (hbit : 3 < 8) : gpr x[3] (x.setWidth 3) = toGpr x := by
  have key : ∀ x : Byte, gpr (x.getLsbD 3) (x.setWidth 3) = toGpr x := by decide
  exact key x

private theorem decodeBits_of_opcode {op : Byte} {p : Prefixes} {bs tail : List Byte}
    (hp : takePrefixes .none bs = (p, op :: tail)) (hop : op ≠ 0x0f) : decodeBits bs = none := by
  have hne : ((op :: tail).head? == some 0x0f) = false :=
    beq_eq_false_iff_ne.mpr fun h ↦ hop (Option.some.inj h)
  rw [decodeBits, hp]
  simp only [hne, Bool.false_and]
  rfl

private theorem decodeBits_of_escape {op : Byte} {p : Prefixes} {bs tail : List Byte}
    (hp : takePrefixes .none bs = (p, 0x0f :: op :: tail)) (hop : bitOp p op = none) :
    decodeBits bs = none := by
  rw [decodeBits, hp]
  simp [hop]

/-- The second opcode byte of a conditional move. -/
private def isCmov (opcode : Byte) (cc : BitVec 4) : Bool :=
  opcode &&& 0xf0 == 0x40 && opcode.extractLsb' 0 4 == cc

private theorem decode_cmov {opcode : Byte} {cc : BitVec 4} {p : Prefixes} {bs : List Byte}
    (hp : takePrefixes .none bs = (p, 0x0f :: opcode :: modrm 3 (dest &&& 7) (src &&& 7) :: rest))
    (hcc : isCmov opcode cc) (hsize : p.size = .b64) :
    decode bs = some (.cmov cc .b64 (gpr p.r (dest.setWidth 3)) (.reg (gpr p.b (src.setWidth 3))),
        rest) ∧
      decodeBits bs = none := by
  have key : ∀ o : Byte, o &&& 0xf0#8 = 0x40#8 →
      o ≠ 0x05#8 ∧ o ≠ 0x31#8 ∧ o ≠ 0x38#8 ∧ o ≠ 0x3a#8 ∧ o ≠ 0xbc#8 ∧ o ≠ 0xbd#8 ∧ o ≠ 0xb8#8 := by
    decide
  rw [isCmov, Bool.and_eq_true, beq_iff_eq, beq_iff_eq] at hcc
  have hrow : opcode &&& 0xf0#8 = 0x40#8 := hcc.1
  obtain ⟨h1, h2, h3, h4, h5, h6, h7⟩ := key opcode hrow
  constructor
  · apply decode_prefixes hp
    rw [← hcc.2]
    simp [decodeOpcode, decode0F, h1, h2, h3, h4, hrow, hsize, takeRm, takeReg, and_seven_field]
  · apply decodeBits_of_escape hp
    simp [bitOp, h5, h6, h7]

/-- What a helper stands for, where it is not a bit instruction. -/
theorem TwoOp.decode_emit (op : TwoOp) {i : Instr}
    (h : op.instr (op.encoded dest src).1 (op.encoded dest src).2 = some i) :
    decode (op.emit dest src ++ rest) = some (i, rest) ∧
      decodeBits (op.emit dest src ++ rest) = none := by
  have hindex : ∀ {w : Bool} {opcode : Byte} (tail : List Byte), isOpcode opcode = true →
      takePrefixes .none (rex w 0 (dest >>> 3) (src >>> 3) :: opcode :: tail) =
        (rexIndex w dest src, opcode :: tail) :=
    fun tail hop ↦ takePrefixes_rexIndex dest src _ hop tail
  cases op with
  | mov =>
    obtain rfl := Option.some.inj h
    exact ⟨decode_movR64R64 dest src rest,
      decodeBits_of_opcode (takePrefixes_rexR dest src rfl _) (by decide)⟩
  | alu op =>
    obtain rfl := Option.some.inj h
    cases op with
    | add | sub | and | or | xor =>
      exact ⟨decode_regReg dest src rest (by decide),
        decodeBits_of_opcode (takePrefixes_rexR dest src rfl _) (by decide)⟩
    | adc | sbb =>
      refine ⟨decode_prefixes (hindex _ rfl) ?_, decodeBits_of_opcode (hindex _ rfl) (by decide)⟩
      simp [decodeOpcode, takeRm, takeReg, regAt, opSize, and_seven_field, gpr_bit, encoded, aluOp]
    | cmp =>
      refine ⟨decode_prefixes (takePrefixes_rexR 0 dest rfl _) ?_,
        decodeBits_of_opcode (takePrefixes_rexR 0 dest rfl _) (by decide)⟩
      simp [decodeOpcode, takeRm, takeReg, regAt, opSize, and_seven_field, encoded, aluOp]
  | imul =>
    obtain rfl := Option.some.inj h
    refine ⟨decode_prefixes (takePrefixes_rexR dest src rfl _) ?_,
      decodeBits_of_escape (takePrefixes_rexR dest src rfl _) rfl⟩
    simp [decodeOpcode, decode0F, takeRm, takeReg, and_seven_field, gpr_bit, encoded]
  | cmov cc =>
    obtain rfl := Option.some.inj h
    have key : ∀ cc : BitVec 4, isCmov (0x40 + cc.setWidth 8) cc := by decide
    have hescape : isOpcode 0x0f = true := rfl
    have hp := takePrefixes_rexR dest src hescape
      ((0x40 + cc.setWidth 8) :: modrm 3 (dest &&& 7) (src &&& 7) :: rest)
    have hdec := decode_cmov dest src rest hp (key cc) (rexPrefixes_size dest src)
    rw [rexPrefixes_r, rexPrefixes_b] at hdec
    refine ⟨hdec.1.trans ?_, hdec.2⟩
    rw [encoded, ← gpr_bit dest (by decide), ← gpr_bit src (by decide)]
    rfl
  | cmovcc cc =>
    obtain rfl := Option.some.inj h
    have key : ∀ cc : BitVec 4, isCmov (0x40 ||| (cc.setWidth 8 &&& 0x0f)) cc := by decide
    have hp : takePrefixes .none (rex true 0 (dest >>> 3) (src >>> 3) :: 0x0f :: _) = _ :=
      hindex ((0x40 ||| (cc.setWidth 8 &&& 0x0f)) :: modrm 3 (dest &&& 7) (src &&& 7) :: rest) rfl
    have hdec := decode_cmov dest src rest hp (key cc) (rexIndex_size dest src true)
    rw [rexIndex_r, rexIndex_b] at hdec
    refine ⟨hdec.1.trans ?_, hdec.2⟩
    rw [encoded, ← gpr_bit src (by decide)]
    rfl
  | movzxR8 =>
    obtain rfl := Option.some.inj h
    refine ⟨decode_prefixes (hindex _ rfl) ?_, decodeBits_of_escape (hindex _ rfl) rfl⟩
    simp [decodeOpcode, decode0F, takeRm_rexIndex, takeReg, and_seven_field, gpr_bit,
      encoded]
  | movsx width =>
    cases width with
    | byte | half =>
      obtain rfl := Option.some.inj h
      refine ⟨decode_prefixes (hindex _ rfl) ?_, decodeBits_of_escape (hindex _ rfl) rfl⟩
      simp [decodeOpcode, decode0F, takeRm_rexIndex, takeReg, and_seven_field, gpr_bit,
        encoded]
    | word =>
      obtain rfl := Option.some.inj h
      refine ⟨decode_prefixes (hindex _ rfl) ?_, decodeBits_of_opcode (hindex _ rfl) (by decide)⟩
      simp [decodeOpcode, takeRm_rexIndex, takeReg, and_seven_field, gpr_bit, encoded]
  | movzx width =>
    cases width with
    | byte | half =>
      obtain rfl := Option.some.inj h
      refine ⟨decode_prefixes (hindex _ rfl) ?_, decodeBits_of_escape (hindex _ rfl) rfl⟩
      simp [decodeOpcode, decode0F, takeRm_rexIndex, takeReg, and_seven_field, gpr_bit,
        encoded]
    | word =>
      obtain rfl := Option.some.inj h
      refine ⟨decode_prefixes (hindex _ rfl) ?_, decodeBits_of_opcode (hindex _ rfl) (by decide)⟩
      simp [decodeOpcode, takeRm_rexIndex, takeReg, regAt, opSize, and_seven_field,
        encoded]
  | movsxd =>
    obtain rfl := Option.some.inj h
    refine ⟨decode_prefixes (hindex _ rfl) ?_, decodeBits_of_opcode (hindex _ rfl) (by decide)⟩
    simp [decodeOpcode, takeRm_rexIndex, takeReg, and_seven_field, gpr_bit, encoded]
  | bits op => cases h
  | test =>
    obtain rfl := Option.some.inj h
    refine ⟨decode_prefixes (takePrefixes_rexR dest src rfl _) ?_,
      decodeBits_of_opcode (takePrefixes_rexR dest src rfl _) (by decide)⟩
    simp [decodeOpcode, takeRm, takeReg, regAt, opSize, and_seven_field, gpr_bit, encoded]
  | testRex =>
    obtain rfl := Option.some.inj h
    refine ⟨decode_prefixes (hindex _ rfl) ?_, decodeBits_of_opcode (hindex _ rfl) (by decide)⟩
    simp [decodeOpcode, takeRm, takeReg, regAt, opSize, and_seven_field, gpr_bit, encoded]

/-- The prefixes of a helper for a bit instruction. -/
private def bitPrefixes (rep : Bool) (dest src : Byte) : Prefixes :=
  { rexIndex true dest src with rep }

private theorem takePrefixes_bits (rep : Bool) {op : Byte} (h : isOpcode op) :
    takePrefixes .none ((if rep then [(0xf3 : Byte)] else []) ++
        rex true 0 (dest >>> 3) (src >>> 3) :: op :: rest) =
      (bitPrefixes rep dest src, op :: rest) := by
  cases rep with
  | false => exact takePrefixes_rexIndex dest src true h rest
  | true => exact (takePrefixes_rex _ (rex_row _ _ _ _) _).trans (takePrefixes_opcode h rest)

private theorem decodeBits_helper (rep : Bool) {opcode : Byte} {op : BitOp}
    (hop : bitOp (bitPrefixes rep dest src) opcode = some op) :
    decodeBits (bitsR64R64 (if rep then [0xf3] else []) opcode dest src ++ rest) =
      some (⟨op, gpr false (dest.setWidth 3), .reg (toGpr src)⟩, rest) := by
  have hw : (bitPrefixes rep dest src).w = true := rexIndex_w dest src true
  have hr : (bitPrefixes rep dest src).r = false := rexIndex_r dest src true
  have hb : (bitPrefixes rep dest src).b = src.getLsbD 3 := rexIndex_b dest src true
  have hbyte : ∀ r, byteReg (bitPrefixes rep dest src) r = .reg r := fun _ ↦ rfl
  have hescape : isOpcode 0x0f = true := rfl
  have hp := takePrefixes_bits dest src (opcode :: modrm 3 (dest &&& 7) (src &&& 7) :: rest) rep
    hescape
  rw [bitsR64R64, List.append_assoc, decodeBits]
  simp only [List.cons_append, List.nil_append]
  rw [hp]
  simp [hw, hop, takeRm, takeReg, hr, hb, and_seven_field, gpr_bit]

/-- What the helpers for the bit instructions stand for. -/
theorem decodeBits_emit (op : BitOp) :
    decodeBits ((TwoOp.bits op).emit dest src ++ rest) =
      some (⟨op, gpr false (dest.setWidth 3), .reg (toGpr src)⟩, rest) := by
  cases op with
  | bsf => exact decodeBits_helper dest src rest false rfl
  | bsr => exact decodeBits_helper dest src rest false rfl
  | tzcnt => exact decodeBits_helper dest src rest true rfl
  | lzcnt => exact decodeBits_helper dest src rest true rfl
  | popcnt => exact decodeBits_helper dest src rest true rfl

end Decoding

section Execution

variable {undef : Instr → Machine → Status} {rest : Instr → Machine → Option Machine}

private theorem putStatus_reg (m : Machine) (v : BitVec 64) (s : Status) (r : Gpr) :
    m.putStatus .b64 v s (.reg r) = some ((m.setReg r v).setStatus s) := by
  show some ((m.setReg r (v.setWidth 64)).setStatus s) = _
  rw [BitVec.setWidth_eq]

private theorem cut_fetched (size : Size) (v : BitVec 64) :
    size.cut ((size.cut v).setWidth 64) = size.cut v := by
  have hsize : size.bits ≤ 64 := by cases size <;> decide
  exact BitVec.setWidth_setWidth_of_le _ hsize |>.trans (BitVec.setWidth_eq _)

private theorem cut64 (v : BitVec 64) : Size.cut .b64 v = v := BitVec.setWidth_eq v

private theorem fetch_low {size : Size} (hsize : size = .b8 ∨ size = .b16 ∨ size = .b32) (r : Gpr)
    (m : Machine) : m.fetch size (.reg r) = some ((size.cut (m.regs r)).setWidth 64) := by
  rcases hsize with rfl | rfl | rfl <;> rfl

private theorem exec_extend (signed : Bool) {size : Size}
    (hsize : size = .b8 ∨ size = .b16 ∨ size = .b32) (dest src : Gpr) (m : Machine) :
    m.execExtend signed .b64 size dest (.reg src) =
      some (m.setReg dest (if signed then (size.cut (m.regs src)).signExtend 64
        else (size.cut (m.regs src)).setWidth 64)) := by
  rw [Machine.execExtend, fetch_low hsize]
  simp only [Option.bind_eq_bind, Option.bind_some, cut_fetched]
  rfl

private theorem exec_test (undef : Status) (dest src : Gpr) (m : Machine) :
    m.execTest undef .b64 (.reg dest) (m.regs src) =
      some ((m.setReg dest (m.regs dest)).setStatus
        (.ofLogic (m.regs dest &&& m.regs src) undef)) := by
  rw [Machine.setReg_self, Machine.execTest, Machine.fetch_reg64]
  simp only [Option.bind_eq_bind, Option.bind_some, cut64]
  rfl

private theorem exec_alu (undef : Status) (op : AluOp) (dest src : Gpr) (m : Machine) :
    m.execAlu undef op .b64 (.reg dest) (m.regs src) =
      some ((TwoOp.alu op).effect ⟨0, undef⟩ dest src m) := by
  rw [Machine.execAlu, Machine.fetch_reg64]
  simp only [Option.bind_eq_bind, Option.bind_some, cut64, TwoOp.effect, TwoOp.result, Option.elim]
  split
  · rw [Machine.setReg_self]
    rfl
  · exact putStatus_reg ..

private theorem exec_imul (undef : Status) (dest src : Gpr) (m : Machine) :
    m.execImul undef .b64 dest (.reg src) = some (TwoOp.imul.effect ⟨0, undef⟩ dest src m) := by
  rw [Machine.execImul, Machine.fetch_reg64]
  simp only [Option.bind_eq_bind, Option.bind_some, cut64]
  exact putStatus_reg ..

private theorem exec_mov32 (dest src : Gpr) (m : Machine) :
    (m.fetch .b32 (.reg src)).bind (fun v ↦ m.put .b32 v (.reg dest)) =
      some (m.setReg dest (SrcWidth.word.extend false (m.regs src))) := by
  have hlow : ((Size.cut .b32 (m.regs src)).setWidth 64).setWidth 32 = (m.regs src).setWidth 32 :=
    cut_fetched .b32 (m.regs src)
  have hput : m.put .b32 ((Size.cut .b32 (m.regs src)).setWidth 64) (.reg dest) =
      some (m.setReg dest
        ((((Size.cut .b32 (m.regs src)).setWidth 64).setWidth 32).setWidth 64)) := rfl
  rw [fetch_low (Or.inr (Or.inr rfl)), Option.bind_some, hput, hlow]
  rfl

/-- The instructions do what the helpers are named after. -/
theorem TwoOp.exec_instr (op : TwoOp) {dest src : Gpr} {i : Instr} (h : op.instr dest src = some i)
    (m : Machine) :
    (Semantics.core undef rest).exec i m = some (op.effect ⟨0, undef i m⟩ dest src m) := by
  cases op with
  | mov =>
    obtain rfl := Option.some.inj h
    rfl
  | alu op =>
    obtain rfl := Option.some.inj h
    exact exec_alu _ op dest src m
  | imul =>
    obtain rfl := Option.some.inj h
    exact exec_imul _ dest src m
  | cmov cc | cmovcc cc =>
    obtain rfl := Option.some.inj h
    rfl
  | movzxR8 =>
    obtain rfl := Option.some.inj h
    exact exec_extend false (Or.inl rfl) dest src m
  | movsx width =>
    cases width with
    | byte =>
      obtain rfl := Option.some.inj h
      exact exec_extend true (Or.inl rfl) dest src m
    | half =>
      obtain rfl := Option.some.inj h
      exact exec_extend true (Or.inr (Or.inl rfl)) dest src m
    | word =>
      obtain rfl := Option.some.inj h
      exact exec_extend true (Or.inr (Or.inr rfl)) dest src m
  | movzx width =>
    cases width with
    | byte =>
      obtain rfl := Option.some.inj h
      exact exec_extend false (Or.inl rfl) dest src m
    | half =>
      obtain rfl := Option.some.inj h
      exact exec_extend false (Or.inr (Or.inl rfl)) dest src m
    | word =>
      obtain rfl := Option.some.inj h
      exact exec_mov32 dest src m
  | movsxd =>
    obtain rfl := Option.some.inj h
    exact exec_extend true (Or.inr (Or.inr rfl)) dest src m
  | bits op => cases h
  | test | testRex =>
    obtain rfl := Option.some.inj h
    exact exec_test _ dest src m

variable {undefBits : BitInstr → Machine → Undefined} {code : List Byte} {m : Machine}

/-- The bytes of a helper do its operation on the registers they stand for. -/
theorem TwoOp.step_emit (op : TwoOp) (dest src : Byte) (h : At code m.pos (op.emit dest src)) :
    ∃ u, (Semantics.core undef rest).stepBits undefBits code m =
      some (op.effect u (op.encoded dest src).1 (op.encoded dest src).2
        { m with pos := m.pos + (op.emit dest src).length }) := by
  obtain ⟨tail, htail⟩ := h
  cases hinstr : op.instr (op.encoded dest src).1 (op.encoded dest src).2 with
  | some i =>
    obtain ⟨hdec, hbits⟩ := op.decode_emit dest src tail hinstr
    refine ⟨⟨0, undef i { m with pos := m.pos + (op.emit dest src).length }⟩, ?_⟩
    rw [htail] at hbits
    exact (Semantics.stepBits_of_none _ hbits).trans
      ((Semantics.step_of_decode _ htail.symm hdec).trans (op.exec_instr hinstr _))
  | none =>
    cases op with
    | bits op =>
      exact ⟨_, Semantics.stepBits_of_decode _ htail.symm (decodeBits_emit dest src tail op)⟩
    | movsx width => cases width <;> cases hinstr
    | movzx width => cases width <;> cases hinstr
    | _ => cases hinstr

end Execution

end Arm2x86.X86
