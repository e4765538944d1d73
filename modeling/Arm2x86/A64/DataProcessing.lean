import Arm2x86.A64.Integer
import Arm2x86.Base.Diagrams

/-!
# A64 data processing

The encodings of the integer instructions on registers and immediates, with the operation and the
operands that their fields name.
-/

namespace Arm2x86.A64

/-- The operation of a data processing instruction, with the operands that decide its aliases. -/
inductive Processing where
  | and
  | bic
  | orr
  | orn
  | eor
  | eon
  | ands
  | bics
  | add
  | adds
  | sub
  | subs
  | adc
  | adcs
  | sbc
  | sbcs
  | udiv
  | sdiv
  | lslv
  | lsrv
  | asrv
  | rorv
  | crc32 (castagnoli : Bool)
  | rbit
  | rev16
  | rev32
  | rev
  | clz
  | cls
  | madd (ra : Reg)
  | msub (ra : Reg)
  | smulh
  | umulh
  | csel
  | csinc (rn rm : Reg)
  | csinv (rn rm : Reg)
  | csneg (rn rm : Reg)
  | ccmn
  | ccmp
  | sbfm (sf : Bool) (immr imms : BitVec 6)
  | bfm
  | ubfm (sf : Bool) (immr imms : BitVec 6)
  | extr
  | movn
  | movz
  | movk
deriving DecidableEq, Repr

/-- The classes of data processing instructions. -/
inductive DataProcessing where
  | logicalShifted
  | addSubShifted
  | addSubCarry
  | twoSource
  | oneSource
  | threeSource
  | condSelect
  | condCompare
  | bitfield
  | extract
  | logicalImmediate
  | moveWide
deriving DecidableEq, Repr

/-- The length of the element of a bit mask, as a power of two. Zero is reserved. -/
def maskLength (n : Bool) (imms : BitVec 6) : Nat :=
  (BitVec.ofBool n ++ ~~~ imms).toNat.log2

/-- The mask of a logical immediate: a run of ones, rotated within an element and repeated. -/
def bitMask (n : Bool) (immr imms : BitVec 6) : BitVec 64 :=
  let esize := 2 ^ maskLength n imms
  (BitVec.ofBoolListLE ((List.range 64).map fun i ↦
    decide ((i + immr.toNat) % esize ≤ imms.toNat % esize))).setWidth 64

theorem maskLength_le : ∀ (n : Bool) (imms : BitVec 6),
    maskLength n imms ≤ if n then 6 else 5 := by
  decide

/-- The run of ones has its lowest bit in the first element. -/
theorem exists_bitMask_getLsbD (n : Bool) (immr imms : BitVec 6) :
    ∃ i < 2 ^ maskLength n imms, (bitMask n immr imms).getLsbD i = true := by
  have hle : maskLength n imms ≤ 6 := by
    have := maskLength_le n imms
    split at this <;> omega
  have hsize : 2 ^ maskLength n imms ≤ 2 ^ 6 := Nat.pow_le_pow_right (by decide) hle
  generalize hesize : 2 ^ maskLength n imms = esize at hsize
  have hpos : 0 < esize := by
    rw [← hesize]
    exact Nat.two_pow_pos _
  have hlt := Nat.mod_lt (esize - immr.toNat % esize) hpos
  refine ⟨(esize - immr.toNat % esize) % esize, hlt, ?_⟩
  have hzero : ((esize - immr.toNat % esize) % esize + immr.toNat) % esize = 0 := by
    have hmod := Nat.mod_lt immr.toNat hpos
    calc ((esize - immr.toNat % esize) % esize + immr.toNat) % esize
        = (esize - immr.toNat % esize + immr.toNat % esize) % esize := by
          rw [Nat.mod_add_mod, Nat.add_mod_mod]
      _ = esize % esize := by rw [Nat.sub_add_cancel (Nat.le_of_lt hmod)]
      _ = 0 := Nat.mod_self esize
  have h64 : (esize - immr.toNat % esize) % esize < 64 := by omega
  rw [bitMask, BitVec.getLsbD_setWidth, BitVec.getLsbD_ofBoolListLE]
  simp [hesize, hzero, h64]

namespace DataProcessing

/-- The fixed bits. -/
def diagram : DataProcessing → Diagram 32
  | logicalShifted => ⟨0x1f000000, 0x0a000000⟩
  | addSubShifted => ⟨0x1f200000, 0x0b000000⟩
  | addSubCarry => ⟨0x1fe0fc00, 0x1a000000⟩
  | twoSource => ⟨0x7fe00000, 0x1ac00000⟩
  | oneSource => ⟨0x7fff0000, 0x5ac00000⟩
  | threeSource => ⟨0x7f000000, 0x1b000000⟩
  | condSelect => ⟨0x3fe00800, 0x1a800000⟩
  | condCompare => ⟨0x3fe00410, 0x3a400000⟩
  | bitfield => ⟨0x1f800000, 0x13000000⟩
  | extract => ⟨0x7fa00000, 0x13800000⟩
  | logicalImmediate => ⟨0x1f800000, 0x12000000⟩
  | moveWide => ⟨0x1f800000, 0x12800000⟩

/-- The logical operations. -/
def logicalOf (opc : BitVec 2) (n : Bool) : Processing :=
  match opc.toNat, n with
  | 0, false => .and
  | 0, true => .bic
  | 1, false => .orr
  | 1, true => .orn
  | 2, false => .eor
  | 2, true => .eon
  | _, false => .ands
  | _, true => .bics

def addSubOf (op setFlags : Bool) : Processing :=
  match op, setFlags with
  | false, false => .add
  | false, true => .adds
  | true, false => .sub
  | true, true => .subs

def twoSourceOf (sf : Bool) (opcode : BitVec 6) : Option Processing :=
  match opcode.toNat with
  | 2 => some .udiv
  | 3 => some .sdiv
  | 8 => some .lslv
  | 9 => some .lsrv
  | 10 => some .asrv
  | 11 => some .rorv
  | _ =>
    if opcode.extractLsb' 3 3 = 2 ∧ (sf ↔ opcode.extractLsb' 0 2 = 3) then
      some (.crc32 (opcode.getLsbD 2))
    else none

def oneSourceOf (sf : Bool) (opcode : BitVec 6) : Option Processing :=
  match opcode.toNat with
  | 0 => some .rbit
  | 1 => some .rev16
  | 2 => some (if sf then .rev32 else .rev)
  | 3 => if sf then some .rev else none
  | 4 => some .clz
  | 5 => some .cls
  | _ => none

/-- The products; the ones that widen both sources are left out. -/
def threeSourceOf (sf : Bool) (op31 : BitVec 3) (o0 : Bool) (ra : Reg) : Option Processing :=
  match op31.toNat, o0 with
  | 0, false => some (.madd ra)
  | 0, true => some (.msub ra)
  | 2, false => if sf then some .smulh else none
  | 6, false => if sf then some .umulh else none
  | _, _ => none

def condSelectOf (op inc : Bool) (rn rm : Reg) : Processing :=
  match op, inc with
  | false, false => .csel
  | false, true => .csinc rn rm
  | true, false => .csinv rn rm
  | true, true => .csneg rn rm

/-- The bitfield moves; both positions lie in the register. -/
def bitfieldOf (sf n : Bool) (opc : BitVec 2) (immr imms : BitVec 6) : Option Processing :=
  if n = sf ∧ (sf ∨ immr < 32 ∧ imms < 32) then
    match opc.toNat with
    | 0 => some (.sbfm sf immr imms)
    | 1 => some .bfm
    | 2 => some (.ubfm sf immr imms)
    | _ => none
  else none

def logicalImmediateOf (opc : BitVec 2) : Processing :=
  match opc.toNat with
  | 0 => .and
  | 1 => .orr
  | 2 => .eor
  | _ => .ands

def moveWideOf (opc : BitVec 2) : Option Processing :=
  match opc.toNat with
  | 0 => some .movn
  | 2 => some .movz
  | 3 => some .movk
  | _ => none

variable (k : DataProcessing) (op : BitVec 32)

/-- The operation of a word of a class, when it is allocated. -/
def operation : Option Processing :=
  let sf := op.getLsbD 31
  let opc := op.extractLsb' 29 2
  let rm := op.extractLsb' 16 5
  let rn := op.extractLsb' 5 5
  let immr := op.extractLsb' 16 6
  let imms := op.extractLsb' 10 6
  let n := op.getLsbD 22
  match k with
  | logicalShifted =>
    if sf ∨ imms < 32 then some (logicalOf opc (op.getLsbD 21)) else none
  | addSubShifted =>
    if op.extractLsb' 22 2 ≠ 3 ∧ (sf ∨ imms < 32) then
      some (addSubOf (op.getLsbD 30) (op.getLsbD 29))
    else none
  | addSubCarry =>
    match op.getLsbD 30, op.getLsbD 29 with
    | false, false => some .adc
    | false, true => some .adcs
    | true, false => some .sbc
    | true, true => some .sbcs
  | twoSource => twoSourceOf sf imms
  | oneSource => oneSourceOf sf imms
  | threeSource => threeSourceOf sf (op.extractLsb' 21 3) (op.getLsbD 15) (op.extractLsb' 10 5)
  | condSelect => some (condSelectOf (op.getLsbD 30) (op.getLsbD 10) rn rm)
  | condCompare => some (if op.getLsbD 30 then .ccmp else .ccmn)
  | bitfield => bitfieldOf sf n opc immr imms
  | extract => if n = sf ∧ (sf ∨ imms < 32) then some .extr else none
  | logicalImmediate =>
    let length := maskLength n imms
    if (sf ∨ n = false) ∧ length ≠ 0 ∧ imms.toNat % 2 ^ length ≠ 2 ^ length - 1 then
      some (logicalImmediateOf opc)
    else none
  | moveWide =>
    if sf ∨ op.extractLsb' 21 2 < 2 then moveWideOf opc else none

/-- The destination. -/
def rd : Option Reg :=
  match k with
  | condCompare => none
  | _ => some (op.extractLsb' 0 5)

/-- The first source. -/
def rn : Option Reg :=
  match k with
  | moveWide => none
  | _ => some (op.extractLsb' 5 5)

/-- The second source. -/
def rm : Option Reg :=
  match k with
  | oneSource | bitfield | logicalImmediate | moveWide => none
  | condCompare => if op.getLsbD 11 then none else some (op.extractLsb' 16 5)
  | _ => some (op.extractLsb' 16 5)

/-- The immediate. -/
def imm : Option (BitVec 64) :=
  let immr := op.extractLsb' 16 6
  let imms := op.extractLsb' 10 6
  match k with
  | bitfield | extract => some (imms.setWidth 64)
  | logicalImmediate =>
    let mask := bitMask (op.getLsbD 22) immr imms
    some (if op.getLsbD 31 then mask else (mask.setWidth 32).setWidth 64)
  | moveWide => some ((op.extractLsb' 5 16).setWidth 64)
  | condCompare => if op.getLsbD 11 then some ((op.extractLsb' 16 5).setWidth 64) else none
  | _ => none

/-- The amount of a shift or of a rotation. -/
def amount : Option (BitVec 8) :=
  match k with
  | logicalShifted | addSubShifted => some ((op.extractLsb' 10 6).setWidth 8)
  | bitfield => some ((op.extractLsb' 16 6).setWidth 8)
  | moveWide => some ((op.extractLsb' 21 2).setWidth 8 * 16)
  | _ => none

end DataProcessing

end Arm2x86.A64
