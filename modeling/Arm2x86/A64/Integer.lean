import Mathlib.Data.BitVec

/-!
# A64 integer instructions without flags

The wide moves, the register forms of addition, subtraction and logic with no shift, and the
product: their encodings, and what they do to the general registers. A program of them ends in a
return through `X30`.
-/

namespace Arm2x86.A64

/-- Register numbers. Number 31 is the zero register in all instructions here. -/
abbrev Reg := BitVec 5

inductive WideOp where
  | movn
  | movz
  | movk
deriving DecidableEq, Repr

inductive DataOp where
  | add
  | sub
  | and
  | bic
  | orr
  | eor
deriving DecidableEq, Repr

/-- An instruction. `sf` tells the 64-bit form from the 32-bit form; `shift` is the kind of the
shift by zero. -/
inductive Instr where
  | wide (op : WideOp) (sf : Bool) (hw : BitVec 2) (imm16 : BitVec 16) (rd : Reg)
  | data (op : DataOp) (sf : Bool) (shift : BitVec 2) (rm rn rd : Reg)
  | mul (sf : Bool) (rm rn rd : Reg)
deriving DecidableEq, Repr

/-- The `opc` field of a wide move. -/
def WideOp.opc : WideOp → BitVec 2
  | .movn => 0
  | .movz => 2
  | .movk => 3

/-- The bits between `sf` and the shift kind. -/
def DataOp.bits : DataOp → BitVec 7
  | .add => 0b0001011
  | .sub => 0b1001011
  | .and | .bic => 0b0001010
  | .orr => 0b0101010
  | .eor => 0b1001010

/-- The bit that complements the second source. -/
def DataOp.negate : DataOp → Bool
  | .bic => true
  | _ => false

namespace Instr

def encode : Instr → BitVec 32
  | wide op sf hw imm16 rd => BitVec.ofBool sf ++ op.opc ++ 0b100101#6 ++ hw ++ imm16 ++ rd
  | data op sf shift rm rn rd =>
    BitVec.ofBool sf ++ op.bits ++ shift ++ BitVec.ofBool op.negate ++ rm ++ 0#6 ++ rn ++ rd
  | mul sf rm rn rd => BitVec.ofBool sf ++ 0b0011011000#10 ++ rm ++ 0b011111#6 ++ rn ++ rd

/-- Whether the encoding is allocated: the 32-bit wide moves have two places only, and arithmetic
does not rotate. -/
def Valid : Instr → Prop
  | wide _ sf hw _ _ => sf ∨ hw < 2
  | data op _ shift _ _ _ => (op = .add ∨ op = .sub) → shift ≠ 3
  | mul .. => True

end Instr

/-- The general registers. -/
abbrev Regs := Reg → BitVec 64

def Regs.read (s : Regs) (r : Reg) : BitVec 64 := if r = 31 then 0 else s r

/-- A result; 32-bit results clear the upper half. -/
def Regs.write (s : Regs) (sf : Bool) (r : Reg) (v : BitVec 64) : Regs := fun r' ↦
  if r' = r then if sf then v else (v.setWidth 32).setWidth 64 else s r'

def DataOp.apply : DataOp → BitVec 64 → BitVec 64 → BitVec 64
  | .add, a, b => a + b
  | .sub, a, b => a - b
  | .and, a, b => a &&& b
  | .bic, a, b => a &&& ~~~ b
  | .orr, a, b => a ||| b
  | .eor, a, b => a ^^^ b

/-- The value of a wide move, from the old one and the place of the immediate. -/
def WideOp.apply (op : WideOp) (old imm16 : BitVec 64) (place : Nat) : BitVec 64 :=
  match op with
  | .movn => ~~~ (imm16 <<< place)
  | .movz => imm16 <<< place
  | .movk => (old &&& ~~~ ((0xffff : BitVec 64) <<< place)) ||| imm16 <<< place

/-- What an instruction does. The low halves of all results depend on the low halves of the sources
only. -/
def Instr.exec (s : Regs) : Instr → Regs
  | .wide op sf hw imm16 rd =>
    s.write sf rd (op.apply (s.read rd) (imm16.setWidth 64) (16 * hw.toNat))
  | .data op sf _ rm rn rd => s.write sf rd (op.apply (s.read rn) (s.read rm))
  | .mul sf rm rn rd => s.write sf rd (s.read rn * s.read rm)

/-- `RET` through `X30`. -/
def ret : BitVec 32 := 0xd65f03c0

/-- A program of at most `bound` words that ends in the return. -/
structure Program (bound : Nat) where
  instrs : List Instr
  valid : ∀ i ∈ instrs, i.Valid
  length : instrs.length + 1 ≤ bound

namespace Program

variable {bound : Nat} (p : Program bound)

def words : List (BitVec 32) := p.instrs.map Instr.encode ++ [ret]

/-- The registers at the return. -/
def run (s : Regs) : Regs := p.instrs.foldl Instr.exec s

end Program

end Arm2x86.A64
