import Arm2x86.Base.Crc

/-!
# Remainders bit by bit

What a cyclic check computes, one bit at a time: the reflected register that takes in a message low
bit first, and the long division of polynomials over two elements that it stands for, high bit
first. Above them a table of 256 cells with the shifts of all bytes, filled when it is first needed,
from which the register takes a byte at a time.
-/

namespace Arm2x86.Crc

variable {w : Nat} (poly : BitVec w)

/-- The register after a bit. -/
def stepBit (r : BitVec w) (b : Bool) : BitVec w := shift poly (r ^^^ (BitVec.ofBool b).setWidth w)

/-- The register after some bits. -/
def feedBits (r : BitVec w) (bits : List Bool) : BitVec w := bits.foldl (stepBit poly) r

/-- The bits of a word, low bit first. -/
def bitsOf {n : Nat} (v : BitVec n) : List Bool := (List.range n).map v.getLsbD

/-- The division of the lowest bits of a dividend, as many as the polynomial has and `n` above
them. The polynomial has one more bit on top, which is set and not written. -/
def divide {k : Nat} : Nat → BitVec k → BitVec k
  | 0, dividend => dividend
  | n + 1, dividend =>
    divide n (if dividend.getLsbD (w + n) then dividend ^^^ (poly.setWidth k <<< n) else dividend)

/-- The remainder of a dividend. -/
def remainder {n : Nat} (dividend : BitVec (w + n)) : BitVec w :=
  (divide poly n dividend).setWidth w

/-- A table with a cell for every byte. -/
abbrev Table (w : Nat) := Vector (BitVec w) 256

/-- The table after its cells are filled one after the other. -/
def fill (cell : BitVec w → BitVec w) (table : Table w) : Table w :=
  (List.finRange 256).foldl (fun table (i : Fin 256) ↦ table.set i (cell (BitVec.ofNat w i))) table

theorem toNat_and_ff_lt (r : BitVec w) : (r &&& 0xff#w).toNat < 256 := by
  rw [BitVec.toNat_and]
  calc r.toNat &&& (0xff#w).toNat
      ≤ (0xff#w).toNat := Nat.and_le_right
    _ ≤ 255 := Nat.mod_le _ _
    _ < 256 := by decide

/-- The register after a byte, from a table. -/
def stepTable (table : Table w) (r : BitVec w) (b : Byte) : BitVec w :=
  let index : Fin 256 := ⟨((r ^^^ b.setWidth w) &&& 0xff#w).toNat, toNat_and_ff_lt _⟩
  table[index] ^^^ (r >>> 8)

/-- A table that is filled when it is first needed. -/
structure Lazy (w : Nat) where
  filled : Bool
  table : Table w

/-- Fills a table that is not filled. -/
def Lazy.force (cell : BitVec w → BitVec w) (s : Lazy w) : Lazy w :=
  if s.filled then s else ⟨true, fill cell s.table⟩

section Bits

theorem bitsOf_succ {n : Nat} (v : BitVec (n + 1)) :
    bitsOf v = v.getLsbD 0 :: bitsOf ((v >>> 1).setWidth n) := by
  rw [bitsOf, List.range_succ_eq_map, List.map_cons, List.map_map, bitsOf]
  congr 1
  apply List.map_congr_left
  intro i hi
  rw [List.mem_range] at hi
  simp [hi, Nat.add_comm 1 i]

/-- The low bits of a word and those above them. -/
theorem bitsOf_add {k : Nat} (m n : Nat) (v : BitVec k) :
    bitsOf (v.setWidth (m + n)) = bitsOf (v.setWidth m) ++ bitsOf ((v >>> m).setWidth n) := by
  rw [bitsOf, List.range_add, List.map_append, List.map_map, bitsOf, bitsOf]
  congr 1
  · apply List.map_congr_left
    intro i hi
    rw [List.mem_range] at hi
    rw [BitVec.getLsbD_setWidth, BitVec.getLsbD_setWidth, decide_eq_true hi,
      decide_eq_true (show i < m + n by omega)]
  · apply List.map_congr_left
    intro i hi
    rw [List.mem_range] at hi
    simp [hi]

variable {poly}

theorem feedBits_cons (r : BitVec w) (b : Bool) (bits : List Bool) :
    feedBits poly r (b :: bits) = feedBits poly (stepBit poly r b) bits := rfl

theorem feedBits_append (r : BitVec w) (bits bits' : List Bool) :
    feedBits poly r (bits ++ bits') = feedBits poly (feedBits poly r bits) bits' :=
  List.foldl_append

/-- The bits of a register after one more bit of the message. -/
theorem getLsbD_stepBit (r : BitVec w) (b : Bool) {i : Nat} (h : i < w) :
    (stepBit poly r b).getLsbD i =
      (r.getLsbD (i + 1) ^^ ((r.getLsbD 0 ^^ b) && poly.getLsbD i)) := by
  have hw : 0 < w := by omega
  have hbit (j : Nat) :
      ((BitVec.ofBool b).setWidth w).getLsbD j = (decide (j = 0) && b) := by
    cases j <;> simp [hw]
  rw [stepBit, shift, BitVec.getLsbD_xor, BitVec.getLsbD_ushiftRight, BitVec.getLsbD_xor,
    BitVec.getLsbD_xor, hbit, hbit, Nat.add_comm 1 i]
  cases r.getLsbD 0 <;> cases b <;> simp

/-- A word that fits into the register can be taken in at once. -/
theorem feedBits_bitsOf {n : Nat} (r : BitVec w) (v : BitVec n) (h : n ≤ w) :
    feedBits poly r (bitsOf v) = shifts poly n (r ^^^ v.setWidth w) := by
  induction n generalizing r with
  | zero =>
    have hnil : v.setWidth w = 0#w := by
      ext i hi
      simp
    rw [hnil, BitVec.xor_zero]
    rfl
  | succ n ih =>
    have hstep : shift poly (r ^^^ v.setWidth w) =
        stepBit poly r (v.getLsbD 0) ^^^ ((v >>> 1).setWidth n).setWidth w := by
      apply BitVec.eq_of_getLsbD_eq
      intro i hi
      have hrest : (v.setWidth w).getLsbD (i + 1) =
          (((v >>> 1).setWidth n).setWidth w).getLsbD i := by
        simp only [BitVec.getLsbD_setWidth, BitVec.getLsbD_ushiftRight, Nat.add_comm 1 i]
        by_cases hlow : i < n
        · simp [hlow, hi, show i + 1 < w by omega]
        · simp [hlow, BitVec.getLsbD_of_ge v (i + 1) (by omega)]
      have hlow : (v.setWidth w).getLsbD 0 = v.getLsbD 0 := by
        rw [BitVec.getLsbD_setWidth, decide_eq_true (show 0 < w by omega), Bool.true_and]
      rw [shift, BitVec.getLsbD_xor, BitVec.getLsbD_ushiftRight, BitVec.getLsbD_xor,
        BitVec.getLsbD_xor, BitVec.getLsbD_xor, getLsbD_stepBit _ _ hi, ← hrest, hlow,
        Nat.add_comm 1 i]
      cases r.getLsbD 0 ^^ v.getLsbD 0 <;> simp [Bool.xor_comm]
    rw [bitsOf_succ, feedBits_cons, ih _ _ (by omega), shifts_succ, hstep]

/-- The bits of a byte, one after the other. -/
theorem step_eq_feedBits (r : BitVec w) (b : Byte) (h : 8 ≤ w) :
    step poly r b = feedBits poly r (bitsOf b) := by
  rw [feedBits_bitsOf r b h, step]

/-- The bits of all bytes, one after the other. -/
theorem feed_eq_feedBits (r : BitVec w) (bs : List Byte) (h : 8 ≤ w) :
    feed poly r bs = feedBits poly r (bs.flatMap bitsOf) := by
  induction bs generalizing r with
  | nil => rfl
  | cons b bs ih =>
    rw [feed_cons, ih, List.flatMap_cons, feedBits_append, step_eq_feedBits r b h]

end Bits

section Division

variable {poly}

/-- The division and the register run in step: what is left of the dividend is, from its top down,
the register with what is left of the message. -/
theorem divide_eq {k n : Nat} (hk : w + n ≤ k) (dividend : BitVec k) (r : BitVec w) (v : BitVec n)
    (h : ∀ i, i < w + n → dividend.getLsbD (w + n - 1 - i) = (r.getLsbD i ^^ v.getLsbD i)) :
    (divide poly n dividend).setWidth w = (feedBits poly.reverse r (bitsOf v)).reverse := by
  induction n generalizing dividend r with
  | zero =>
    apply BitVec.eq_of_getLsbD_eq
    intro i hi
    have hbit := h (w - 1 - i) (by omega)
    have hmirror : w + 0 - 1 - (w - 1 - i) = i := by omega
    rw [hmirror] at hbit
    simp only [divide, bitsOf, List.range_zero, List.map_nil, feedBits, List.foldl_nil]
    rw [BitVec.getLsbD_setWidth, decide_eq_true hi, Bool.true_and, hbit, BitVec.getLsbD_reverse,
      BitVec.getMsbD, decide_eq_true hi, Bool.true_and]
    simp
  | succ n ih =>
    rw [bitsOf_succ, feedBits_cons, divide]
    apply ih (by omega)
    intro i hi
    have htop : dividend.getLsbD (w + n) = (r.getLsbD 0 ^^ v.getLsbD 0) := h 0 (by omega)
    have hnext : dividend.getLsbD (w + n - 1 - i) = (r.getLsbD (i + 1) ^^ v.getLsbD (i + 1)) := by
      rw [← h (i + 1) (by omega)]
      congr 1
      omega
    have hrest : ((v >>> 1).setWidth n).getLsbD i = v.getLsbD (i + 1) := by
      rw [BitVec.getLsbD_setWidth, BitVec.getLsbD_ushiftRight, Nat.add_comm 1 i]
      by_cases hin : i < n
      · rw [decide_eq_true hin, Bool.true_and]
      · rw [BitVec.getLsbD_of_ge v (i + 1) (by omega), Bool.and_false]
    have hpoly : (poly.setWidth k <<< n).getLsbD (w + n - 1 - i) = poly.reverse.getLsbD i := by
      rw [BitVec.getLsbD_shiftLeft, BitVec.getLsbD_setWidth, BitVec.getLsbD_reverse,
        BitVec.getMsbD]
      by_cases hin : i < w
      · have hsub : w + n - 1 - i - n = w - 1 - i := by omega
        simp [hin, hsub, show w + n - 1 - i < k by omega, show ¬ w + n - 1 - i < n by omega,
          show w - 1 - i < k by omega]
      · simp [hin, show w + n - 1 - i < n by omega]
    rw [htop, hrest]
    by_cases hin : i < w
    · rw [getLsbD_stepBit _ _ hin, ← hpoly]
      cases r.getLsbD 0 ^^ v.getLsbD 0 <;>
        simp [hnext, Bool.xor_comm, Bool.xor_left_comm]
    · -- only the message is left here, and the polynomial does not reach it
      rw [BitVec.getLsbD_of_ge poly.reverse i (by omega)] at hpoly
      rw [BitVec.getLsbD_of_ge (stepBit _ _ _) i (by omega)]
      rw [BitVec.getLsbD_of_ge r (i + 1) (by omega)] at hnext
      split
      · rw [BitVec.getLsbD_xor, hpoly, hnext, Bool.xor_false]
      · exact hnext

/-- The remainder of a message below the register's own bits is what the register holds after the
message, each in the mirror. -/
theorem remainder_eq {n : Nat} (r : BitVec w) (v : BitVec n) :
    remainder poly ((r.reverse ++ 0#n) ^^^ (v.reverse ++ 0#w).cast (Nat.add_comm n w)) =
      (feedBits poly.reverse r (bitsOf v)).reverse := by
  apply divide_eq (Nat.le_refl _)
  intro i hi
  rw [BitVec.getLsbD_xor, BitVec.getLsbD_cast, BitVec.getLsbD_append, BitVec.getLsbD_append,
    BitVec.getLsbD_reverse, BitVec.getLsbD_reverse, BitVec.getLsbD_zero, BitVec.getLsbD_zero,
    BitVec.getMsbD, BitVec.getMsbD]
  congr 1
  · by_cases hin : i < w
    · simp [show ¬ w + n - 1 - i < n by omega, show w + n - 1 - i - n < w by omega,
        show w - 1 - (w + n - 1 - i - n) = i by omega]
    · simp [show w + n - 1 - i < n by omega, BitVec.getLsbD_of_ge r i (by omega)]
  · by_cases hin : i < n
    · simp [show ¬ w + n - 1 - i < w by omega, show w + n - 1 - i - w < n by omega,
        show n - 1 - (w + n - 1 - i - w) = i by omega]
    · simp [show w + n - 1 - i < w by omega, BitVec.getLsbD_of_ge v i (by omega)]

end Division

section Tables

variable {poly} {cell : BitVec w → BitVec w} {table : Table w}

/-- Cells that are set one after the other. -/
theorem getElem_foldl_set {n : Nat} {α : Type} (f : Fin n → α) (is : List (Fin n))
    (xs : Vector α n) (k : Fin n) :
    (is.foldl (fun xs i ↦ xs.set i (f i) i.isLt) xs).get k = if k ∈ is then f k else xs.get k := by
  induction is generalizing xs with
  | nil => simp
  | cons i is ih =>
    rw [List.foldl_cons, ih]
    by_cases hk : k ∈ is
    · simp [hk]
    · by_cases hik : i = k
      · subst hik
        rw [if_neg hk, if_pos List.mem_cons_self]
        exact Vector.getElem_set_self i.isLt
      · have hne : (i : Nat) ≠ k := fun h ↦ hik (Fin.ext h)
        simp only [hk, List.mem_cons, Ne.symm hik, or_self, if_false]
        exact Vector.getElem_set_ne i.isLt k.isLt hne

/-- Nothing of what was in a table before is left after it is filled. -/
theorem getElem_fill (i : Fin 256) : (fill cell table)[i] = cell (BitVec.ofNat w i) := by
  show (fill cell table).get i = _
  rw [fill, getElem_foldl_set, if_pos (List.mem_finRange i)]

/-- A table of the shifts of all bytes takes a byte in. -/
theorem stepTable_eq (h : ∀ i : Fin 256, table[i] = shifts poly 8 (BitVec.ofNat w i))
    (r : BitVec w) (b : Byte) : stepTable table r b = step poly r b := by
  rw [stepTable, h, step_table, BitVec.ofNat_toNat, BitVec.setWidth_eq]

/-- A table that passes for filled has been filled. -/
def Lazy.Inv (cell : BitVec w → BitVec w) (s : Lazy w) : Prop :=
  s.filled = true → ∀ i : Fin 256, s.table[i] = cell (BitVec.ofNat w i)

theorem Lazy.inv_of_unfilled : Lazy.Inv cell ⟨false, table⟩ := fun h ↦ nomatch h

theorem Lazy.Inv.force {s : Lazy w} (h : s.Inv cell) (i : Fin 256) :
    (s.force cell).table[i] = cell (BitVec.ofNat w i) := by
  unfold Lazy.force
  split
  · next hfilled => exact h hfilled i
  · dsimp only
    rw [getElem_fill]

theorem Lazy.Inv.inv_force {s : Lazy w} (h : s.Inv cell) : (s.force cell).Inv cell :=
  fun _ i ↦ h.force i

end Tables

end Arm2x86.Crc
