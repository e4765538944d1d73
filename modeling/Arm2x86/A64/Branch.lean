import Arm2x86.A64.Integer
import Arm2x86.Base.Diagrams

/-!
# A64 branches and system instructions

The encodings of the branches to a label, of the compare and test branches and of the branches to
a register, with their operands. Then those of the exceptions, the moves of system registers, the
hints and the barriers.
-/

namespace Arm2x86.A64

/-- The flags. -/
structure Nzcv where
  n : Bool
  z : Bool
  c : Bool
  v : Bool
deriving DecidableEq, Repr

/-- Whether a condition holds. Numbers 14 and 15 both always hold. -/
def condHolds (cond : BitVec 4) (f : Nzcv) : Bool :=
  let base : Bool :=
    match (cond.extractLsb' 1 3).toNat with
    | 0 => f.z
    | 1 => f.c
    | 2 => f.n
    | 3 => f.v
    | 4 => f.c && !f.z
    | 5 => f.n == f.v
    | 6 => f.n == f.v && !f.z
    | _ => true
  if cond.getLsbD 0 && cond != 15 then !base else base

inductive Branch where
  | b
  | bl
  | bCond
  | cbz
  | cbnz
  | tbz
  | tbnz
  | br
  | blr
  | ret
deriving DecidableEq, Repr

namespace Branch

/-- The fixed bits. -/
def diagram : Branch → Diagram 32
  | b => ⟨0xfc000000, 0x14000000⟩
  | bl => ⟨0xfc000000, 0x94000000⟩
  | bCond => ⟨0xff000010, 0x54000000⟩
  | cbz => ⟨0x7f000000, 0x34000000⟩
  | cbnz => ⟨0x7f000000, 0x35000000⟩
  | tbz => ⟨0x7f000000, 0x36000000⟩
  | tbnz => ⟨0x7f000000, 0x37000000⟩
  | br => ⟨0xfffffc1f, 0xd61f0000⟩
  | blr => ⟨0xfffffc1f, 0xd63f0000⟩
  | ret => ⟨0xfffffc1f, 0xd65f0000⟩

variable (k : Branch) (op : BitVec 32)

/-- The byte offset of the label: an immediate field with two zeros behind it. -/
def offset : Option (BitVec 32) :=
  match k with
  | b | bl => some ((op.extractLsb' 0 26 ++ 0#2).signExtend 32)
  | bCond | cbz | cbnz => some ((op.extractLsb' 5 19 ++ 0#2).signExtend 32)
  | tbz | tbnz => some ((op.extractLsb' 5 14 ++ 0#2).signExtend 32)
  | br | blr | ret => none

/-- The condition. -/
def cond : Option (BitVec 4) :=
  match k with
  | bCond => some (op.extractLsb' 0 4)
  | _ => none

/-- The tested register or the register with the target. -/
def reg : Option Reg :=
  match k with
  | cbz | cbnz | tbz | tbnz => some (op.extractLsb' 0 5)
  | br | blr | ret => some (op.extractLsb' 5 5)
  | _ => none

/-- The width of a comparison with zero. -/
def sf : Option Bool :=
  match k with
  | cbz | cbnz => some (op.getLsbD 31)
  | _ => none

/-- The number of the tested bit. -/
def bit : Option (BitVec 6) :=
  match k with
  | tbz | tbnz => some (op.extractLsb' 31 1 ++ op.extractLsb' 19 5)
  | _ => none

end Branch

inductive System where
  | svc
  | hvc
  | smc
  | brk
  | hlt
  | mrs
  | msr
  | msrImmediate
  | hint
  | dmb
  | dsb
  | isb
  | eret
deriving DecidableEq, Repr

namespace System

/-- The fixed bits. -/
def diagram : System → Diagram 32
  | svc => ⟨0xffe0001f, 0xd4000001⟩
  | hvc => ⟨0xffe0001f, 0xd4000002⟩
  | smc => ⟨0xffe0001f, 0xd4000003⟩
  | brk => ⟨0xffe0001f, 0xd4200000⟩
  | hlt => ⟨0xffe0001f, 0xd4400000⟩
  | mrs => ⟨0xfff00000, 0xd5300000⟩
  | msr => ⟨0xfff00000, 0xd5100000⟩
  | msrImmediate => ⟨0xfff8f01f, 0xd500401f⟩
  | hint => ⟨0xfffff01f, 0xd503201f⟩
  | dmb => ⟨0xfffff0ff, 0xd50330bf⟩
  | dsb => ⟨0xfffff0ff, 0xd503309f⟩
  | isb => ⟨0xfffff0ff, 0xd50330df⟩
  | eret => ⟨0xffffffff, 0xd69f03e0⟩

/-- The immediate of an exception. -/
def imm (k : System) (op : BitVec 32) : Option (BitVec 16) :=
  match k with
  | svc | hvc | smc | brk | hlt => some (op.extractLsb' 5 16)
  | _ => none

end System

end Arm2x86.A64
