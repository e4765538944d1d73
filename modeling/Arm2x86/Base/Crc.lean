import Mathlib.Data.BitVec
import Mathlib.Logic.Function.Iterate
import Arm2x86.Base.Bytes

/-!
# Cyclic redundancy checks

The remainder register of a reflected check of any width, shifted once for every bit. Shifts are
linear in exclusive or, and lose nothing when the polynomial has its top bit. So a register that
takes in no more bits than it has keeps them apart, and what a message leaves in the register
changes with every change inside of so many bits.
-/

namespace Arm2x86.Crc

variable {w : Nat} (poly : BitVec w)

/-- One shift of the register. -/
def shift (r : BitVec w) : BitVec w := (r >>> 1) ^^^ (if r.getLsbD 0 then poly else 0#w)

/-- Some shifts. -/
def shifts (n : Nat) : BitVec w → BitVec w := (shift poly)^[n]

/-- The register after a byte, low bit first. -/
def step (r : BitVec w) (b : Byte) : BitVec w := shifts poly 8 (r ^^^ b.setWidth w)

/-- The register after some bytes. -/
def feed (r : BitVec w) (bs : List Byte) : BitVec w := bs.foldl (step poly) r

/-- The word of some bytes, least significant first. -/
def word (w : Nat) : List Byte → BitVec w
  | [] => 0#w
  | b :: bs => b.setWidth w ^^^ (word w bs <<< 8)

section Shifts

theorem and_one_ne_zero_iff (r : BitVec w) : r &&& 1#w ≠ 0#w ↔ r.getLsbD 0 = true := by
  rw [BitVec.and_one_eq_setWidth_ofBool_getLsbD]
  cases hbit : r.getLsbD 0 with
  | false => simp
  | true =>
    have hw : 0 < w := BitVec.lt_of_getLsbD hbit
    constructor
    · exact fun _ ↦ rfl
    · intro _ h
      have hone := congrArg (BitVec.getLsbD · 0) h
      simp [hw] at hone

/-- A shift with its test as C programs write it. -/
theorem shift_eq_ite (r : BitVec w) :
    (r >>> 1) ^^^ (if r &&& 1#w ≠ 0#w then poly else 0#w) = shift poly r := by
  unfold shift
  simp only [and_one_ne_zero_iff]

theorem shift_xor (a b : BitVec w) : shift poly (a ^^^ b) = shift poly a ^^^ shift poly b := by
  unfold shift
  rw [BitVec.ushiftRight_xor_distrib, BitVec.getLsbD_xor]
  ext i
  simp only [BitVec.getElem_xor]
  cases a.getLsbD 0 <;> cases b.getLsbD 0 <;> simp <;> cases poly[i] <;> simp

theorem shifts_zero (r : BitVec w) : shifts poly 0 r = r := rfl

theorem shifts_succ (n : Nat) (r : BitVec w) : shifts poly (n + 1) r = shifts poly n (shift poly r) :=
  rfl

theorem shifts_add (n k : Nat) (r : BitVec w) :
    shifts poly (n + k) r = shifts poly n (shifts poly k r) :=
  Function.iterate_add_apply _ n k r

theorem shifts_xor (n : Nat) (a b : BitVec w) :
    shifts poly n (a ^^^ b) = shifts poly n a ^^^ shifts poly n b := by
  induction n generalizing a b with
  | zero => rfl
  | succ n ih => rw [shifts_succ, shifts_succ, shifts_succ, shift_xor, ih]

/-- The lowest bit that is shifted out comes back at the top. -/
theorem msb_shift (hpoly : poly.msb = true) (r : BitVec w) : (shift poly r).msb = r.getLsbD 0 := by
  have hw : 0 < w := by
    cases w with
    | zero => simp [BitVec.msb_eq_getLsbD_last] at hpoly
    | succ w => exact Nat.succ_pos w
  unfold shift
  rw [BitVec.msb_xor, BitVec.msb_ushiftRight]
  cases r.getLsbD 0 <;> simp [hpoly]

theorem shift_injective (hpoly : poly.msb = true) : Function.Injective (shift poly) := by
  intro a b h
  have hlow : a.getLsbD 0 = b.getLsbD 0 := by
    rw [← msb_shift poly hpoly a, ← msb_shift poly hpoly b, h]
  have hrest : a >>> 1 = b >>> 1 := by
    unfold shift at h
    rw [hlow] at h
    have hcancel := congrArg (· ^^^ if b.getLsbD 0 then poly else 0#w) h
    simpa [BitVec.xor_assoc] using hcancel
  ext i hi
  cases i with
  | zero =>
    rw [← BitVec.getLsbD_eq_getElem, ← BitVec.getLsbD_eq_getElem]
    exact hlow
  | succ i =>
    have hbit := congrArg (fun r ↦ r.getLsbD i) hrest
    simp only [BitVec.getLsbD_ushiftRight] at hbit
    rw [← BitVec.getLsbD_eq_getElem, ← BitVec.getLsbD_eq_getElem, Nat.add_comm]
    exact hbit

theorem shifts_injective (hpoly : poly.msb = true) (n : Nat) : Function.Injective (shifts poly n) :=
  (shift_injective poly hpoly).iterate n

/-- As many shifts as there are zeros at the bottom and room at the top only move the bits. -/
theorem shifts_up {n : Nat} {r : BitVec w} (h : ∀ i, w ≤ i + n → r.getLsbD i = false) :
    shifts poly n (r <<< n) = r := by
  induction n with
  | zero => rw [shifts_zero, BitVec.shiftLeft_zero]
  | succ n ih =>
    have hlow : (r <<< (n + 1)).getLsbD 0 = false := by
      rw [BitVec.getLsbD_shiftLeft]
      simp
    have hdown : shift poly (r <<< (n + 1)) = r <<< n := by
      rw [shift, hlow, if_neg Bool.false_ne_true, BitVec.xor_zero]
      apply BitVec.eq_of_getLsbD_eq
      intro i hi
      rw [BitVec.getLsbD_ushiftRight, BitVec.getLsbD_shiftLeft, BitVec.getLsbD_shiftLeft]
      have hsub : 1 + i - (n + 1) = i - n := by omega
      rw [hsub]
      by_cases hn : i < n
      · simp [hn, show 1 + i < n + 1 by omega]
      · by_cases htop : 1 + i < w
        · simp [hn, htop, hi, show ¬ 1 + i < n + 1 by omega]
        · rw [h (i - n) (by omega), Bool.and_false, Bool.and_false]
    rw [shifts_succ, hdown]
    apply ih
    intro i hi
    exact h i (by omega)

end Shifts

section Words

theorem getLsbD_word (bs : List Byte) {i : Nat} (h : i < w) :
    (word w bs).getLsbD i = (leNat bs).testBit i := by
  induction bs generalizing i with
  | nil => simp [word, leNat]
  | cons b bs ih =>
    have hnat : leNat (b :: bs) = 2 ^ 8 * leNat bs + b.toNat := Nat.add_comm _ _
    rw [hnat, Nat.testBit_two_pow_mul_add _ b.isLt, word, BitVec.getLsbD_xor,
      BitVec.getLsbD_setWidth, BitVec.getLsbD_shiftLeft]
    by_cases hlow : i < 8
    · simp [hlow, h, BitVec.getLsbD]
    · rw [ih (by omega), BitVec.getLsbD_of_ge b i (by omega)]
      simp [hlow, h]

/-- The bytes of a number that fits into a word. -/
theorem word_leBytes (k : Nat) (v : BitVec w) (h : 256 ^ k = 2 ^ w) :
    word w (leBytes k v.toNat) = v := by
  apply BitVec.eq_of_getLsbD_eq
  intro i hi
  rw [getLsbD_word _ hi, leNat_leBytes (h ▸ v.isLt)]
  rfl

theorem testBit_leNat {bs : List Byte} {i : Nat} (h : 8 * bs.length ≤ i) :
    (leNat bs).testBit i = false := by
  apply Nat.testBit_lt_two_pow
  calc leNat bs
      < 256 ^ bs.length := leNat_lt bs
    _ = 2 ^ (8 * bs.length) := by rw [Nat.pow_mul]
    _ ≤ 2 ^ i := Nat.pow_le_pow_right (by decide) h

/-- Bits above the bytes of a word. -/
theorem getLsbD_word_of_ge (bs : List Byte) {i : Nat} (h : 8 * bs.length ≤ i) :
    (word w bs).getLsbD i = false := by
  by_cases hi : i < w
  · rw [getLsbD_word bs hi, testBit_leNat h]
  · exact BitVec.getLsbD_of_ge _ _ (Nat.le_of_not_lt hi)

/-- Bytes that fit into a word are read back from it. -/
theorem word_inj {bs bs' : List Byte} (hlen : bs.length = bs'.length) (hfits : 8 * bs.length ≤ w)
    (h : word w bs = word w bs') : bs = bs' := by
  have hnat : leNat bs = leNat bs' := by
    apply Nat.eq_of_testBit_eq
    intro i
    by_cases hi : i < w
    · rw [← getLsbD_word bs hi, ← getLsbD_word bs' hi, h]
    · rw [testBit_leNat (by omega), testBit_leNat (by omega)]
  rw [← leBytes_leNat bs, ← leBytes_leNat bs', hnat, hlen]

end Words

section Messages

variable {poly} {r r' : BitVec w} {bs bs' : List Byte}

@[simp] theorem feed_nil (r : BitVec w) : feed poly r [] = r := rfl

theorem feed_cons (r : BitVec w) (b : Byte) (bs : List Byte) :
    feed poly r (b :: bs) = feed poly (step poly r b) bs := rfl

theorem feed_append (r : BitVec w) (bs bs' : List Byte) :
    feed poly r (bs ++ bs') = feed poly (feed poly r bs) bs' := List.foldl_append

/-- A byte at a time from a table of the shifts of all bytes. -/
theorem step_table (r : BitVec w) (b : Byte) :
    step poly r b = shifts poly 8 ((r ^^^ b.setWidth w) &&& 0xff#w) ^^^ (r >>> 8) := by
  have hsplit : r ^^^ b.setWidth w =
      ((r ^^^ b.setWidth w) &&& 0xff#w) ^^^ ((r >>> 8) <<< 8) := by
    apply BitVec.eq_of_getLsbD_eq
    intro i hi
    have hmask : (255 : Nat).testBit i = decide (i < 8) := Nat.testBit_two_pow_sub_one 8 i
    simp only [BitVec.getLsbD_xor, BitVec.getLsbD_and, BitVec.getLsbD_ofNat, hmask,
      BitVec.getLsbD_shiftLeft, BitVec.getLsbD_ushiftRight, BitVec.getLsbD_setWidth, hi]
    by_cases hlow : i < 8
    · simp [hlow]
    · simp [hlow, BitVec.getLsbD_of_ge b i (by omega), show 8 + (i - 8) = i by omega]
  have hhigh : shifts poly 8 ((r >>> 8) <<< 8) = r >>> 8 := by
    apply shifts_up
    intro i hi
    rw [BitVec.getLsbD_ushiftRight, BitVec.getLsbD_of_ge _ _ (by omega)]
  calc step poly r b
      = shifts poly 8 (((r ^^^ b.setWidth w) &&& 0xff#w) ^^^ ((r >>> 8) <<< 8)) := by
        rw [step, ← hsplit]
    _ = shifts poly 8 ((r ^^^ b.setWidth w) &&& 0xff#w) ^^^ (r >>> 8) := by
        rw [shifts_xor, hhigh]

/-- Bytes that fit into the register are one word to it. -/
theorem feed_eq_shifts (hfits : 8 * bs.length ≤ w) :
    feed poly r bs = shifts poly (8 * bs.length) (r ^^^ word w bs) := by
  induction bs generalizing r with
  | nil => simp [word, shifts_zero]
  | cons b bs ih =>
    rw [List.length_cons] at hfits
    have hup : shifts poly 8 (word w bs <<< 8) = word w bs := by
      apply shifts_up
      intro i hi
      exact getLsbD_word_of_ge bs (by omega)
    rw [feed_cons, ih (by omega), step, List.length_cons, Nat.mul_succ, shifts_add]
    congr 1
    rw [word, ← BitVec.xor_assoc, shifts_xor poly 8 _ (word w bs <<< 8), hup]

/-- What is in the register before stays apart. -/
theorem feed_injective (hpoly : poly.msb = true) (bs : List Byte) :
    Function.Injective fun r ↦ feed poly r bs := by
  induction bs with
  | nil => exact fun _ _ h ↦ h
  | cons b bs ih =>
    intro r r' h
    have hstep := shifts_injective poly hpoly 8 (ih h)
    simpa [BitVec.xor_assoc] using congrArg (· ^^^ b.setWidth w) hstep

/-- Messages of one length that differ inside of as many bits as the register has leave different
remainders. -/
theorem burst (hpoly : poly.msb = true) {front mid mid' tail : List Byte}
    (hlen : mid.length = mid'.length) (hfits : 8 * mid.length ≤ w)
    (h : feed poly r (front ++ (mid ++ tail)) = feed poly r (front ++ (mid' ++ tail))) :
    mid = mid' := by
  rw [feed_append, feed_append, feed_append, feed_append] at h
  have hmid : feed poly (feed poly r front) mid = feed poly (feed poly r front) mid' :=
    feed_injective hpoly tail h
  generalize feed poly r front = s at hmid
  have hfits' : 8 * mid'.length ≤ w := by omega
  rw [feed_eq_shifts hfits, feed_eq_shifts hfits', hlen] at hmid
  have hword := shifts_injective poly hpoly _ hmid
  apply word_inj hlen hfits
  simpa [← BitVec.xor_assoc] using congrArg (s ^^^ ·) hword

/-- A message goes with its check exactly when both together leave what all ones leave. -/
theorem residue_iff (hpoly : poly.msb = true) (hlen : 8 * bs'.length = w) :
    word w bs' = ~~~ feed poly r bs ↔
      feed poly r (bs ++ bs') = shifts poly w (BitVec.allOnes w) := by
  rw [feed_append, feed_eq_shifts (Nat.le_of_eq hlen), hlen,
    (shifts_injective poly hpoly w).eq_iff]
  constructor
  · intro h
    rw [h]
    ext i hi
    simp
  · intro h
    have hcancel := congrArg (feed poly r bs ^^^ ·) h
    simp only [← BitVec.xor_assoc, BitVec.xor_self, BitVec.zero_xor] at hcancel
    rw [hcancel, BitVec.xor_allOnes]

end Messages

end Arm2x86.Crc
