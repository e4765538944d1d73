import Arm2x86.A64.DataProcessing
import Arm2x86.A64.LoadStore
import Arm2x86.Base.Sparse

/-!
# What A64 loads and stores do

The accesses of one or two registers with an immediate offset, on the registers and the memory of a
guest. Exclusives, atomics, structures and literals have no effect here.
-/

/-!
## 32-bit destinations

The general registers that an instruction writes with 32 bits or less, the rest with zeros: those of
the data processing in the small form, of the loads up to a word, and of the conversions and the
moves from a vector register. The fixed-point conversions are left out.
-/

namespace Arm2x86.A64

/-- The moves of a scalar to a general register in the small form. -/
inductive ToGeneral where
  | convert
  | unsignedElement
  | signedElement
deriving DecidableEq, Repr

namespace ToGeneral

/-- The fixed bits. -/
def diagram : ToGeneral → Diagram 32
  | convert => ⟨0xff20fc00, 0x1e200000⟩
  | unsignedElement => ⟨0xffe0fc00, 0x0e003c00⟩
  | signedElement => ⟨0xffe0fc00, 0x0e002c00⟩

/-- Whether a word of a class is allocated. -/
def allocated (k : ToGeneral) (op : BitVec 32) : Bool :=
  let opcode := op.extractLsb' 16 3
  let rmode := op.extractLsb' 19 2
  match k with
  | convert =>
    -- one of the roundings, or one of the three that stand with the first of them only
    op.extractLsb' 22 2 != 2 &&
      (opcode.extractLsb' 1 2 == 0 || rmode == 0 && (opcode.extractLsb' 1 2 == 2 || opcode == 6))
  | unsignedElement => op.extractLsb' 16 3 != 0
  | signedElement => op.extractLsb' 16 2 != 0

end ToGeneral

/-- The destination of the small form; number 31 is a register in the logical immediates only. -/
def DataProcessing.narrowDest (k : DataProcessing) (op : BitVec 32) (r : Reg) : Prop :=
  (k.operation op).isSome ∧ op.getLsbD 31 = false ∧ k.rd op = some r ∧
    (r = 31 → k = .logicalImmediate ∧ op.extractLsb' 29 2 ≠ 3)

/-- Whether an access writes 32 bits or less to its general registers. -/
def MemOp.narrow : MemOp → Bool
  | .general true n | .literal n | .pair true n | .exclusive true _ n | .compareAndSwap n
  | .atomic _ n => n ≤ 4
  | .signed _ to64 => !to64
  | .exclusive false .. => true
  | _ => false

/-- The general registers an access writes, but for its base register. -/
def MemOp.dests (op : BitVec 32) : MemOp → List Reg
  | .general true _ | .signed .. | .literal _ | .atomic .. => [op.extractLsb' 0 5]
  | .pair true _ => [op.extractLsb' 0 5, op.extractLsb' 10 5]
  | .exclusive true .. =>
    if op.getLsbD 21 then [op.extractLsb' 0 5, op.extractLsb' 10 5] else [op.extractLsb' 0 5]
  | .exclusive false .. | .compareAndSwap _ => [op.extractLsb' 16 5]
  | _ => []

/-- The destinations of an access of up to four bytes. -/
def LoadStore.narrowDest (k : LoadStore) (op : BitVec 32) (r : Reg) : Prop :=
  r ≠ 31 ∧ ∃ o ∈ k.operation op, o.narrow = true ∧ r ∈ o.dests op

/-- A general register that an instruction writes with 32 bits or less. -/
def NarrowDest (op : BitVec 32) (r : Reg) : Prop :=
  (∃ k : DataProcessing, k.diagram.Matches op ∧ k.narrowDest op r) ∨
    (∃ k : LoadStore, k.diagram.Matches op ∧ k.narrowDest op r) ∨
    ∃ k : ToGeneral, k.diagram.Matches op ∧ k.allocated op = true ∧
      r ≠ 31 ∧ r = op.extractLsb' 0 5

end Arm2x86.A64

namespace Arm2x86.A64

/-- The registers and the memory of a guest. Number 31 of the registers is the stack pointer. -/
structure State where
  regs : Regs
  vectors : Reg → BitVec 128
  mem : Sparse

namespace State

variable (s : State)

/-- The value of some bytes. -/
def load (a : BitVec 64) (n : Nat) : Option Nat := (s.mem.load a n).map leNat

/-- The low bytes of a value to memory. -/
def store (a : BitVec 64) (n v : Nat) : Option State :=
  (s.mem.store a (leBytes n v)).map fun mem ↦ { s with mem }

/-- A result. The zero register discards it. -/
def setReg (r : Reg) (v : BitVec 64) : State :=
  { s with regs := fun r' ↦ if r' = r ∧ r ≠ 31 then v else s.regs r' }

/-- An updated base, which can be the stack pointer. -/
def setBase (r : Reg) (v : BitVec 64) : State :=
  { s with regs := fun r' ↦ if r' = r then v else s.regs r' }

def setVector (r : Reg) (v : BitVec 128) : State :=
  { s with vectors := fun r' ↦ if r' = r then v else s.vectors r' }

end State

/-- Some bytes, sign-extended to a register. -/
def signedValue (bytes : Nat) (to64 : Bool) (v : Nat) : BitVec 64 :=
  let x := (BitVec.ofNat (8 * bytes) v).signExtend 64
  if to64 then x else (x.setWidth 32).setWidth 64

/-- An access at an address. -/
def MemOp.exec (s : State) (a : BitVec 64) (rt rt2 : Reg) : MemOp → Option State
  | .general true n => (s.load a n).map fun v ↦ s.setReg rt (BitVec.ofNat 64 v)
  | .general false n => s.store a n (s.regs.read rt).toNat
  | .signed n to64 => (s.load a n).map fun v ↦ s.setReg rt (signedValue n to64 v)
  | .vector true n => (s.load a n).map fun v ↦ s.setVector rt (BitVec.ofNat 128 v)
  | .vector false n => s.store a n (s.vectors rt).toNat
  | .pair true n => do
    let v ← s.load a n
    let v2 ← s.load (a + BitVec.ofNat 64 n) n
    return (s.setReg rt (BitVec.ofNat 64 v)).setReg rt2 (BitVec.ofNat 64 v2)
  | .pair false n => do
    let s' ← s.store a n (s.regs.read rt).toNat
    s'.store (a + BitVec.ofNat 64 n) n (s.regs.read rt2).toNat
  | .pairSigned => do
    let v ← s.load a 4
    let v2 ← s.load (a + 4) 4
    return (s.setReg rt (signedValue 4 true v)).setReg rt2 (signedValue 4 true v2)
  | .pairVector true n => do
    let v ← s.load a n
    let v2 ← s.load (a + BitVec.ofNat 64 n) n
    return (s.setVector rt (BitVec.ofNat 128 v)).setVector rt2 (BitVec.ofNat 128 v2)
  | .pairVector false n => do
    let s' ← s.store a n (s.vectors rt).toNat
    s'.store (a + BitVec.ofNat 64 n) n (s.vectors rt2).toNat
  | _ => none

/-- What a word of a class does. The indexed classes update their base register, with the access at
the updated address or at the old one. -/
def LoadStore.step (k : LoadStore) (op : BitVec 32) (s : State) : Option State := do
  let o ← k.operation op
  let offset ← k.offset op
  let rn := op.extractLsb' 5 5
  let base := s.regs rn
  let target := base + offset.signExtend 64
  let access := fun a ↦ o.exec s a (op.extractLsb' 0 5) (op.extractLsb' 10 5)
  match k with
  | .unscaled | .unsignedOffset | .pairOffset => access target
  | .preIndex | .pairPre => (access target).map fun s' ↦ s'.setBase rn target
  | .postIndex | .pairPost => (access base).map fun s' ↦ s'.setBase rn target
  | _ => none

end Arm2x86.A64
