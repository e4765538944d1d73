import Arm2x86.Base.Diagrams
import Arm2x86.Translate.Decode

/-!
# Mask tests and fields

How the tests of the decoder come out on a class of words, from the fixed bits of the class alone,
and what `sign_extend64` makes of an offset field.
-/

namespace Arm2x86.Translate

section Masks

variable {d : Diagram 32} {op m v : BitVec 32}

theorem maskEq_iff : maskEq op m v = true ↔ Diagram.Matches ⟨m, v⟩ op := by
  rw [maskEq, beq_iff_eq]
  rfl

/-- A mask test that the fixed bits of a class fail. -/
theorem maskEq_conflict (h : d.Matches op) (hc : d.bits &&& m ≠ v &&& d.mask) :
    maskEq op m v = false := by
  rw [← Bool.not_eq_true, maskEq_iff]
  exact h.conflict hc

/-- A mask test that the fixed bits of a class pass. -/
theorem maskEq_covered (h : d.Matches op) (hm : d.mask &&& m = m) (hb : d.bits &&& m = v) :
    maskEq op m v = true :=
  maskEq_iff.mpr (h.covered hm hb)

theorem beq_conflict (h : d.Matches op) {c : BitVec 32} (hc : d.bits ≠ c &&& d.mask) :
    (op == c) = false :=
  beq_eq_false_iff_ne.mpr (h.ne hc)

/-- A bit of a word as a bit of a field. -/
theorem bit_of_field (lo len i : Nat) (hi : i < len) :
    op.getLsbD (lo + i) = (op.extractLsb' lo len).getLsbD i := by
  rw [BitVec.getLsbD_extractLsb', decide_eq_true hi, Bool.true_and]

end Masks

/-- The low bits of a value, sign-extended. -/
theorem signExtend64_eq (val : BitVec 64) {bits : Nat} (h : bits ≤ 32) (hpos : 0 < bits) :
    signExtend64 val bits = (val.setWidth bits).signExtend 32 := by
  ext i hi
  simp only [signExtend64, BitVec.getElem_setWidth, BitVec.getElem_signExtend,
    BitVec.getLsbD_sshiftRight, BitVec.getLsbD_shiftLeft, BitVec.msb_eq_getLsbD_last,
    BitVec.getLsbD_setWidth]
  have h64 : ¬ 64 ≤ i := by omega
  by_cases hlt : i < bits
  · have h1 : 64 - bits + i < 64 := by omega
    have h2 : ¬ 64 - bits + i < 64 - bits := by omega
    have h3 : 64 - bits + i - (64 - bits) = i := by omega
    simp [h64, hlt, h1, h2, h3]
  · have h1 : ¬ 64 - bits + i < 64 := by omega
    have h2 : ¬ 63 < 64 - bits := by omega
    have h3 : 63 - (64 - bits) = bits - 1 := by omega
    have h4 : bits - 1 < bits := by omega
    simp [h64, hlt, h1, h2, h3, h4]

/-- An offset field of at most 32 bits, sign-extended. -/
theorem signExtend64_field (op : BitVec 32) {lo len : Nat} (hlen : len ≤ 32) (hpos : 0 < len) :
    signExtend64 (fieldAt op lo len) len = (op.extractLsb' lo len).signExtend 32 := by
  rw [signExtend64_eq _ hlen hpos, fieldAt]
  congr 1
  ext i hi
  have h64 : i < 64 := by omega
  simp [hi, h64]

/-- A scaled offset field of at most 30 bits is extended as it has to be. -/
theorem signExtend64_scaled (op : BitVec 32) {lo len : Nat} (hlen : len ≤ 30) :
    signExtend64 (fieldAt op lo len <<< 2) (len + 2) =
      (op.extractLsb' lo len ++ 0#2).signExtend 32 := by
  rw [signExtend64_eq _ (by omega) (by omega)]
  congr 1
  ext i hi
  simp only [fieldAt, BitVec.getElem_setWidth, BitVec.getLsbD_shiftLeft, BitVec.getLsbD_setWidth,
    BitVec.getElem_append]
  by_cases h2 : i < 2
  · simp [h2]
  · have h64 : i - 2 < 64 := by omega
    have hi64 : i < 64 := by omega
    have hlt : i - 2 < len := by omega
    simp [h2, h64, hi64, hlt]

end Arm2x86.Translate
