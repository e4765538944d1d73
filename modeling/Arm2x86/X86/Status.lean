import Arm2x86.X86.Machine

/-!
# The status flags

Carry, parity, adjust, zero, sign and overflow: where they are in the flags register, when a condition
code holds, and what the arithmetic on operands of any width leaves in them.
-/

namespace Arm2x86.X86

structure Status where
  carry : Bool
  parity : Bool
  adjust : Bool
  zero : Bool
  sign : Bool
  overflow : Bool
deriving DecidableEq, Repr

namespace Status

/-- The bits of the flags register that are status flags. -/
def mask : BitVec 64 := 0x8d5

def ofBits (f : BitVec 64) : Status where
  carry := f.getLsbD 0
  parity := f.getLsbD 2
  adjust := f.getLsbD 4
  zero := f.getLsbD 6
  sign := f.getLsbD 7
  overflow := f.getLsbD 11

def bits (s : Status) : BitVec 64 :=
  (if s.carry then 1 else 0) ||| (if s.parity then 4 else 0) ||| (if s.adjust then 0x10 else 0) |||
    (if s.zero then 0x40 else 0) ||| (if s.sign then 0x80 else 0) |||
    (if s.overflow then 0x800 else 0)

/-- Status flags that have been set are read back. -/
@[simp] theorem ofBits_set (f : BitVec 64) (s : Status) :
    ofBits (f &&& ~~~ mask ||| s.bits) = s := by
  have hbits : ∀ s : Status, ofBits s.bits = s := by
    rintro ⟨c, p, a, z, n, v⟩
    revert c p a z n v
    decide
  have hkept : ∀ i < 64, mask.getLsbD i = true →
      (f &&& ~~~ mask ||| s.bits).getLsbD i = s.bits.getLsbD i := by
    intro i hi hmask
    rw [BitVec.getLsbD_or, BitVec.getLsbD_and, BitVec.getLsbD_not, hmask, Bool.not_true,
      Bool.and_false, Bool.and_false, Bool.false_or]
  calc ofBits (f &&& ~~~ mask ||| s.bits)
      = ofBits s.bits := by
        simp only [ofBits, hkept 0 (by decide) rfl, hkept 2 (by decide) rfl,
          hkept 4 (by decide) rfl, hkept 6 (by decide) rfl, hkept 7 (by decide) rfl,
          hkept 11 (by decide) rfl]
    _ = s := hbits s

/-- Whether a condition code holds. The codes come in pairs of a condition and its negation. -/
def holds (s : Status) (cc : BitVec 4) : Bool :=
  let positive :=
    match (cc.extractLsb' 1 3).toNat with
    | 0 => s.overflow
    | 1 => s.carry
    | 2 => s.zero
    | 3 => s.carry || s.zero
    | 4 => s.sign
    | 5 => s.parity
    | 6 => s.sign != s.overflow
    | _ => s.zero || s.sign != s.overflow
  positive != cc.getLsbD 0

theorem holds_xor_one (s : Status) (cc : BitVec 4) : s.holds (cc ^^^ 1) = !s.holds cc := by
  have hfields : ∀ cc : BitVec 4, (cc ^^^ 1).extractLsb' 1 3 = cc.extractLsb' 1 3 ∧
      (cc ^^^ 1).getLsbD 0 = !cc.getLsbD 0 := by
    decide
  simp only [holds, (hfields cc).1, (hfields cc).2]
  cases cc.getLsbD 0 <;> simp

/-- Each condition code fails in some state of the flags. -/
theorem exists_not_holds (cc : BitVec 4) : ∃ s : Status, s.holds cc = false := by
  have key : ∀ cc : BitVec 4, holds ⟨false, false, false, false, false, false⟩ cc = false ∨
      holds ⟨true, true, true, true, true, false⟩ cc = false ∨
      holds ⟨true, true, true, true, true, true⟩ cc = false := by
    decide
  rcases key cc with h | h | h
  · exact ⟨_, h⟩
  · exact ⟨_, h⟩
  · exact ⟨_, h⟩

section Arithmetic

variable {n : Nat}

/-- The flags of a result, with those that need more than the result. -/
def ofResult (r : BitVec n) (carry adjust overflow : Bool) : Status where
  carry
  parity := (List.range 8).countP r.getLsbD % 2 == 0
  adjust
  zero := r == 0
  sign := r.msb
  overflow

/-- The flags of an addition with a carry. -/
def ofAdd (a b : BitVec n) (c : Bool) : Status :=
  let r := a + b + (BitVec.ofBool c).setWidth n
  ofResult r (decide (2 ^ n ≤ a.toNat + b.toNat + c.toNat))
    (decide (16 ≤ a.toNat % 16 + b.toNat % 16 + c.toNat)) (a.msb == b.msb && r.msb != a.msb)

/-- The flags of a subtraction with a borrow. -/
def ofSub (a b : BitVec n) (c : Bool) : Status :=
  let r := a - b - (BitVec.ofBool c).setWidth n
  ofResult r (decide (a.toNat < b.toNat + c.toNat))
    (decide (a.toNat % 16 < b.toNat % 16 + c.toNat)) (a.msb != b.msb && r.msb != a.msb)

/-- The flags of a logical operation, of which one is undefined. -/
def ofLogic (r : BitVec n) (undef : Status) : Status := ofResult r false undef.adjust false

/-- The flags of a multiplication that tells whether the product fits. -/
def ofMul (wide : Bool) (undef : Status) : Status := { undef with carry := wide, overflow := wide }

/-- The flags behind a bit test, which leaves the zero flag. -/
def ofBitTest (old : Status) (bit : Bool) (undef : Status) : Status :=
  { undef with carry := bit, zero := old.zero }

/-- The flags of an increment or a decrement, which leave the carry. -/
def keepCarry (old new : Status) : Status := { new with carry := old.carry }

end Arithmetic

end Status

section Operations

variable {n : Nat}

/-- The operations of the arithmetic rows, with their flags. -/
def AluOp.run (op : AluOp) (c : Bool) (undef : Status) (a b : BitVec n) : BitVec n × Status :=
  let carry := (BitVec.ofBool c).setWidth n
  match op with
  | .add => (a + b, .ofAdd a b false)
  | .or => (a ||| b, .ofLogic (a ||| b) undef)
  | .adc => (a + b + carry, .ofAdd a b c)
  | .sbb => (a - b - carry, .ofSub a b c)
  | .and => (a &&& b, .ofLogic (a &&& b) undef)
  | .sub | .cmp => (a - b, .ofSub a b false)
  | .xor => (a ^^^ b, .ofLogic (a ^^^ b) undef)

/-- The shifts and rotations by a count that is not zero, with their flags. Those through the carry
are left out. -/
def ShiftOp.run (op : ShiftOp) (old undef : Status) (a : BitVec n) (count : Nat) :
    Option (BitVec n × Status) :=
  let single := fun b ↦ if count = 1 then b else undef.overflow
  let shifted := fun (r : BitVec n) carry overflow ↦
    some (r, Status.ofResult r carry undef.adjust (single overflow))
  let rotated := fun (r : BitVec n) carry overflow ↦
    some (r, { old with carry, overflow := single overflow })
  match op with
  | .shl =>
    let carry := if count ≤ n then a.getLsbD (n - count) else undef.carry
    shifted (a <<< count) carry ((a <<< count).msb != carry)
  | .shr =>
    shifted (a >>> count) (if count ≤ n then a.getLsbD (count - 1) else undef.carry) a.msb
  | .sar => shifted (a.sshiftRight count) ((a.sshiftRight (count - 1)).getLsbD 0) false
  | .rol =>
    let r := a.rotateLeft count
    rotated r (r.getLsbD 0) (r.msb != r.getLsbD 0)
  | .ror =>
    let r := a.rotateRight count
    rotated r r.msb (r.msb != r.getLsbD (n - 2))
  | .rcl | .rcr => none

end Operations

end Arm2x86.X86
