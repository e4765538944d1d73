import Arm2x86.A64.Integer
import Arm2x86.Base.Diagrams

/-!
# A64 loads and stores

The encodings of the loads and stores of one register with an immediate offset, the literal loads,
the pairs, the exclusives, the atomics and the vector structures, with the operation and the byte
offset that their fields name.
-/

namespace Arm2x86.A64

/-- The operation of a load or store: its direction and the bytes of one element. -/
inductive MemOp where
  | general (load : Bool) (bytes : Nat)
  | signed (bytes : Nat) (to64 : Bool)
  | vector (load : Bool) (bytes : Nat)
  | literal (bytes : Nat)
  | literalSigned
  | literalVector (bytes : Nat)
  | literalPrefetch
  | pair (load : Bool) (bytes : Nat)
  | pairSigned
  | pairVector (load : Bool) (bytes : Nat)
  | exclusive (load ordered : Bool) (bytes : Nat)
  | compareAndSwap (bytes : Nat)
  | atomic (opc : BitVec 4) (bytes : Nat)
  | struct (load : Bool)
deriving DecidableEq, Repr

/-- The classes of loads and stores. -/
inductive LoadStore where
  | unscaled
  | postIndex
  | preIndex
  | unsignedOffset
  | literal
  | pairPost
  | pairOffset
  | pairPre
  | exclusive
  | atomic
  | structMultiple
  | structMultiplePost
  | structSingle
  | structSinglePost
deriving DecidableEq, Repr

namespace LoadStore

/-- The fixed bits. -/
def diagram : LoadStore → Diagram 32
  | unscaled => ⟨0x3b200c00, 0x38000000⟩
  | postIndex => ⟨0x3b200c00, 0x38000400⟩
  | preIndex => ⟨0x3b200c00, 0x38000c00⟩
  | unsignedOffset => ⟨0x3b000000, 0x39000000⟩
  | literal => ⟨0x3b000000, 0x18000000⟩
  | pairPost => ⟨0x3b800000, 0x28800000⟩
  | pairOffset => ⟨0x3b800000, 0x29000000⟩
  | pairPre => ⟨0x3b800000, 0x29800000⟩
  | exclusive => ⟨0x3f000000, 0x08000000⟩
  | atomic => ⟨0x3f200c00, 0x38200000⟩
  | structMultiple => ⟨0xbfbf0000, 0x0c000000⟩
  | structMultiplePost => ⟨0xbfa00000, 0x0c800000⟩
  | structSingle => ⟨0xbf9f0000, 0x0d000000⟩
  | structSinglePost => ⟨0xbf800000, 0x0d800000⟩

/-- The operations on one register; none where the fields name a prefetch or nothing. -/
def single (size : BitVec 2) (v : Bool) (opc : BitVec 2) : Option MemOp :=
  let load := opc.getLsbD 0
  if v then
    if opc < 2 then some (.vector load (2 ^ size.toNat))
    else if size = 0 then some (.vector load 16)
    else none
  else if opc < 2 then some (.general load (2 ^ size.toNat))
  else if size = 3 ∨ size = 2 ∧ opc = 3 then none
  else some (.signed (2 ^ size.toNat) (opc == 2))

/-- The scale of an unsigned offset. -/
def scale (size : BitVec 2) (v : Bool) (opc : BitVec 2) : Nat :=
  if v ∧ 2 ≤ opc then 4 else size.toNat

/-- The literal loads. -/
def literalOf (opc : BitVec 2) (v : Bool) : Option MemOp :=
  match v, opc.toNat with
  | false, 0 => some (.literal 4)
  | false, 1 => some (.literal 8)
  | false, 2 => some .literalSigned
  | false, _ => some .literalPrefetch
  | true, 0 => some (.literalVector 4)
  | true, 1 => some (.literalVector 8)
  | true, 2 => some (.literalVector 16)
  | true, _ => none

/-- The loads and stores of two registers. -/
def pairOf (opc : BitVec 2) (v load : Bool) : Option MemOp :=
  match v, opc.toNat with
  | false, 0 => some (.pair load 4)
  | false, 1 => if load then some .pairSigned else none
  | false, 2 => some (.pair load 8)
  | true, 0 => some (.pairVector load 4)
  | true, 1 => some (.pairVector load 8)
  | true, 2 => some (.pairVector load 16)
  | _, _ => none

/-- The exclusives and the compare and swaps; the ordered accesses between them are left out. -/
def exclusiveOf (size : BitVec 2) (o2 load o1 ordered : Bool) : Option MemOp :=
  let bytes := 2 ^ size.toNat
  if o2 then
    if o1 then some (.compareAndSwap bytes) else none
  else if o1 ∧ size < 2 then some (.compareAndSwap (8 * bytes))
  else some (.exclusive load ordered bytes)

/-- The atomic operations: the fetching ones and the swap. -/
def atomicOf (size : BitVec 2) (opc : BitVec 4) : Option MemOp :=
  if opc ≤ 8 then some (.atomic opc (2 ^ size.toNat)) else none

variable (k : LoadStore) (op : BitVec 32)

/-- The operation of a word of a class. -/
def operation : Option MemOp :=
  let size := op.extractLsb' 30 2
  let v := op.getLsbD 26
  let load := op.getLsbD 22
  match k with
  | unscaled | postIndex | preIndex | unsignedOffset => single size v (op.extractLsb' 22 2)
  | literal => literalOf size v
  | pairPost | pairOffset | pairPre => pairOf size v load
  | exclusive => exclusiveOf size (op.getLsbD 23) load (op.getLsbD 21) (op.getLsbD 15)
  | atomic => atomicOf size (op.extractLsb' 12 4)
  | structMultiple | structMultiplePost | structSingle | structSinglePost => some (.struct load)

/-- The scale of the offset of a pair: four or eight bytes, 16 for the vector registers. -/
def pairScale (opc : BitVec 2) (v : Bool) : Nat :=
  if v then 2 + opc.toNat else 2 + opc.toNat / 2

/-- The byte offset from the base register or the instruction. -/
def offset : Option (BitVec 32) :=
  let size := op.extractLsb' 30 2
  let v := op.getLsbD 26
  match k with
  | unscaled | postIndex | preIndex => some ((op.extractLsb' 12 9).signExtend 32)
  | unsignedOffset =>
    some ((op.extractLsb' 10 12).setWidth 32 <<< scale size v (op.extractLsb' 22 2))
  | literal => some ((op.extractLsb' 5 19 ++ 0#2).signExtend 32)
  | pairPost | pairOffset | pairPre =>
    some ((op.extractLsb' 15 7).signExtend 32 <<< pairScale size v)
  | _ => none

end LoadStore

end Arm2x86.A64
