import Mathlib.Algebra.Group.Int.Defs
import Mathlib.Algebra.GroupWithZero.Nat
import Mathlib.Data.List.TakeDrop

/-!
# Bytes, words and digits

Little-endian words as byte lists, `size_t` arithmetic, and fixed-width hexadecimal numerals.
-/

namespace Arm2x86

/-- A byte of code, of a file or of memory. -/
abbrev Byte := BitVec 8

/-- `size_t` addition. -/
def sizeAdd (a b : Nat) : Nat := (a + b) % 2 ^ 64

/-- `size_t` subtraction. -/
def sizeSub (a b : Nat) : Nat := (a + 2 ^ 64 - b % 2 ^ 64) % 2 ^ 64

/-- Taking a summand off a wrapped sum. -/
theorem sizeSub_add_mod (a b : Nat) : sizeSub ((a + b) % 2 ^ 64) b = a % 2 ^ 64 := by
  unfold sizeSub
  omega

/-- Adding a summand to a wrapped sum. -/
theorem sizeAdd_mod (a b : Nat) : sizeAdd (a % 2 ^ 64) b = (b + a) % 2 ^ 64 := by
  unfold sizeAdd
  omega

/-- Clearing the low bits. -/
theorem toNat_and_not_mask {w : Nat} (x : BitVec w) (k : Nat) :
    (x &&& ~~~ BitVec.ofNat w (2 ^ k - 1)).toNat = x.toNat / 2 ^ k * 2 ^ k := by
  apply Nat.eq_of_testBit_eq
  intro i
  rw [BitVec.testBit_toNat, BitVec.getLsbD_and, BitVec.getLsbD_not, BitVec.getLsbD_ofNat,
    Nat.testBit_two_pow_sub_one, Nat.testBit_mul_two_pow, Nat.testBit_div_two_pow]
  by_cases hk : k ≤ i
  · have hlt : ¬ i < k := Nat.not_lt.mpr hk
    rw [Nat.sub_add_cancel hk, BitVec.testBit_toNat]
    by_cases hi : i < w
    · simp [hk, hlt, hi]
    · simp [BitVec.getLsbD_of_ge x i (Nat.not_lt.mp hi)]
  · have hlt : i < k := Nat.not_le.mp hk
    simp [hk, hlt]

/-- The `k` low bytes of a number, least significant first. -/
def leBytes : Nat → Nat → List Byte
  | 0, _ => []
  | k + 1, n => BitVec.ofNat 8 n :: leBytes k (n / 256)

/-- The number a little-endian byte list stands for. -/
def leNat : List Byte → Nat
  | [] => 0
  | b :: bs => b.toNat + 256 * leNat bs

@[simp] theorem length_leBytes (k n : Nat) : (leBytes k n).length = k := by
  induction k generalizing n with
  | zero => rfl
  | succ k ih => simp [leBytes, ih]

/-- Reading back the bytes of a number. -/
theorem leNat_leBytes_mod (k n : Nat) : leNat (leBytes k n) = n % 256 ^ k := by
  induction k generalizing n with
  | zero => rw [Nat.pow_zero, Nat.mod_one, leBytes, leNat]
  | succ k ih =>
    have hpow : 256 ^ (k + 1) = 2 ^ 8 * 256 ^ k := Nat.pow_succ'
    rw [leBytes, leNat, ih, BitVec.toNat_ofNat, hpow]
    exact Nat.mod_mul.symm

/-- Reading back the bytes of a number that fits. -/
theorem leNat_leBytes {k n : Nat} (h : n < 256 ^ k) : leNat (leBytes k n) = n := by
  rw [leNat_leBytes_mod, Nat.mod_eq_of_lt h]

theorem leNat_lt (bs : List Byte) : leNat bs < 256 ^ bs.length := by
  induction bs with
  | nil => exact Nat.one_pos
  | cons b bs ih =>
    have hb := b.isLt
    rw [leNat, List.length_cons, Nat.pow_succ]
    omega

/-- The bytes a number was read from. -/
theorem leBytes_leNat (bs : List Byte) : leBytes bs.length (leNat bs) = bs := by
  induction bs with
  | nil => rfl
  | cons b bs ih =>
    have hb := b.isLt
    have hdiv : (b.toNat + 256 * leNat bs) / 256 = leNat bs := by omega
    have hlow : BitVec.ofNat 8 (b.toNat + 256 * leNat bs) = b := by
      apply BitVec.eq_of_toNat_eq
      rw [BitVec.toNat_ofNat]
      omega
    rw [List.length_cons, leNat, leBytes, hdiv, ih, hlow]

/-- A lower-case hexadecimal digit. -/
def hexDigit (n : Nat) : Char := "0123456789abcdef".toList.getD n '0'

/-- The `k` low hexadecimal digits of a number, most significant first. -/
def hexDigits : Nat → Nat → List Char
  | 0, _ => []
  | k + 1, n => hexDigits k (n / 16) ++ [hexDigit (n % 16)]

theorem hexDigit_inj {a b : Nat} (ha : a < 16) (hb : b < 16) (h : hexDigit a = hexDigit b) :
    a = b := by
  have key : ∀ a < 16, ∀ b < 16, hexDigit a = hexDigit b → a = b := by decide
  exact key a ha b hb h

@[simp] theorem length_hexDigits (k n : Nat) : (hexDigits k n).length = k := by
  induction k generalizing n with
  | zero => rfl
  | succ k ih => simp [hexDigits, ih]

/-- Numerals of one width that fit are distinct for distinct numbers. -/
theorem hexDigits_inj {k a b : Nat} (ha : a < 16 ^ k) (hb : b < 16 ^ k)
    (h : hexDigits k a = hexDigits k b) : a = b := by
  induction k generalizing a b with
  | zero =>
    rw [Nat.pow_zero] at ha hb
    omega
  | succ k ih =>
    rw [Nat.pow_succ] at ha hb
    obtain ⟨hhigh, hlow⟩ := List.append_inj' h rfl
    have hq := ih (by omega) (by omega) hhigh
    have hr := hexDigit_inj (Nat.mod_lt a (by decide)) (Nat.mod_lt b (by decide))
      (List.singleton_inj.mp hlow)
    omega

end Arm2x86
