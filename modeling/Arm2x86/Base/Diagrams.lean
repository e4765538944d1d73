import Mathlib.Data.BitVec

/-!
# Encoding diagrams

A class of instruction words by its fixed bits: a mask, and the bits under it. A word of one class
passes or fails the mask test of another when the fixed bits of the first say so.
-/

namespace Arm2x86

structure Diagram (w : Nat) where
  mask : BitVec w
  bits : BitVec w
deriving DecidableEq

namespace Diagram

variable {w : Nat} {d d' : Diagram w} {op c : BitVec w}

/-- Whether a word has the fixed bits. -/
def Matches (d : Diagram w) (op : BitVec w) : Prop := op &&& d.mask = d.bits

instance (d : Diagram w) (op : BitVec w) : Decidable (d.Matches op) :=
  inferInstanceAs (Decidable (op &&& d.mask = d.bits))

/-- Two diagrams that fix a common bit differently have no common word. -/
theorem Matches.conflict (h : d.Matches op) (hc : d.bits &&& d'.mask ≠ d'.bits &&& d.mask) :
    ¬ d'.Matches op := by
  intro h'
  apply hc
  rw [← h, ← h', BitVec.and_assoc, BitVec.and_assoc, BitVec.and_comm d.mask]

/-- A diagram whose fixed bits another diagram fixes in the same way. -/
theorem Matches.covered (h : d.Matches op) (hm : d.mask &&& d'.mask = d'.mask)
    (hb : d.bits &&& d'.mask = d'.bits) : d'.Matches op := by
  rw [Matches, ← hb, ← h, BitVec.and_assoc, hm]

theorem Matches.ne (h : d.Matches op) (hc : d.bits ≠ c &&& d.mask) : op ≠ c := by
  rintro rfl
  exact hc h.symm

/-- The words of two diagrams. -/
theorem Matches.both (h : d.Matches op) (h' : d'.Matches op) :
    Matches ⟨d.mask ||| d'.mask, d.bits ||| d'.bits⟩ op := by
  rw [Matches, ← h, ← h']
  ext i hi
  simp only [BitVec.getElem_and, BitVec.getElem_or, Bool.and_or_distrib_left]

theorem Matches.getLsbD (h : d.Matches op) {i : Nat} (hi : d.mask.getLsbD i = true) :
    op.getLsbD i = d.bits.getLsbD i := by
  rw [← h, BitVec.getLsbD_and, hi, Bool.and_true]

/-- A field that is fixed as a whole. -/
theorem Matches.extractLsb' (h : d.Matches op) {lo len : Nat}
    (hm : d.mask.extractLsb' lo len = BitVec.allOnes len) :
    op.extractLsb' lo len = d.bits.extractLsb' lo len := by
  ext i hi
  have hbit := congrArg (fun m ↦ m.getLsbD i) hm
  simp only [BitVec.getLsbD_extractLsb', BitVec.getLsbD_allOnes, hi, decide_true,
    Bool.true_and] at hbit
  simp only [BitVec.getElem_extractLsb']
  exact h.getLsbD hbit

theorem Matches.bit_true (h : d.Matches op) {i : Nat} (hi : d.mask.getLsbD i = true)
    (hb : d.bits.getLsbD i = true) : op.getLsbD i = true := by
  rw [h.getLsbD hi, hb]

theorem Matches.bit_false (h : d.Matches op) {i : Nat} (hi : d.mask.getLsbD i = true)
    (hb : d.bits.getLsbD i = false) : op.getLsbD i = false := by
  rw [h.getLsbD hi, hb]

/-- The words with a value in a field. -/
theorem matches_field {lo len : Nat} {v : BitVec len} (hv : op.extractLsb' lo len = v) :
    Matches ⟨(BitVec.allOnes len).setWidth w <<< lo, v.setWidth w <<< lo⟩ op := by
  rw [Matches, ← hv]
  ext i hi
  simp only [BitVec.getElem_and, BitVec.getElem_shiftLeft, BitVec.getElem_setWidth,
    BitVec.getLsbD_allOnes, BitVec.getLsbD_extractLsb']
  by_cases hlo : i < lo
  · simp [hlo]
  · by_cases hin : i - lo < len
    · have hi' : lo + (i - lo) = i := by omega
      simp [hlo, hin, hi', BitVec.getLsbD_eq_getElem hi]
    · simp [hlo, hin]

/-- A word of a class, by one more bit. -/
theorem Matches.bit (h : d.Matches op) (i : Nat) (b : Bool) (hb : op.getLsbD i = b) :
    Matches ⟨d.mask ||| BitVec.twoPow w i, d.bits ||| if b then BitVec.twoPow w i else 0⟩ op := by
  have hbit : Matches ⟨BitVec.twoPow w i, if b then BitVec.twoPow w i else 0⟩ op := by
    rw [Matches, BitVec.and_twoPow, hb]
    rfl
  exact h.both hbit

end Diagram

end Arm2x86
