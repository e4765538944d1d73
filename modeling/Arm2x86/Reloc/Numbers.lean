import Arm2x86.Reloc.Model

/-!
# The numbers of the decoders

`decode_uleb128` and `decode_sleb128` on encoded numbers of 64 bits.
-/

namespace Arm2x86.Reloc

private theorem or_shifted {result : BitVec 64} {s : Nat} (hr : result.toNat < 2 ^ s)
    (x : BitVec 64) : result ||| x <<< s = result + x <<< s := by
  apply BitVec.eq_of_toNat_eq
  rw [BitVec.toNat_or, BitVec.toNat_add, BitVec.toNat_shiftLeft, Nat.shiftLeft_eq]
  by_cases hs : s < 64
  · have hpow : 2 ^ 64 = 2 ^ s * 2 ^ (64 - s) := by
      rw [← Nat.pow_add]
      congr 1
      omega
    have hmod : x.toNat * 2 ^ s % 2 ^ 64 = 2 ^ s * (x.toNat % 2 ^ (64 - s)) := by
      rw [hpow, Nat.mul_comm x.toNat, Nat.mul_mod_mul_left]
    have hlt : x.toNat % 2 ^ (64 - s) < 2 ^ (64 - s) := Nat.mod_lt _ (Nat.two_pow_pos _)
    have hsum : 2 ^ s * (x.toNat % 2 ^ (64 - s)) + result.toNat < 2 ^ 64 := by
      calc 2 ^ s * (x.toNat % 2 ^ (64 - s)) + result.toNat
          < 2 ^ s * (x.toNat % 2 ^ (64 - s)) + 2 ^ s := Nat.add_lt_add_left hr _
        _ = 2 ^ s * (x.toNat % 2 ^ (64 - s) + 1) := by rw [Nat.mul_add, Nat.mul_one]
        _ ≤ 2 ^ s * 2 ^ (64 - s) := Nat.mul_le_mul_left _ hlt
        _ = 2 ^ 64 := hpow.symm
    rw [hmod, Nat.or_comm, ← Nat.two_pow_add_eq_or_of_lt hr, Nat.add_comm result.toNat,
      Nat.mod_eq_of_lt hsum]
  · have hzero : x.toNat * 2 ^ s % 2 ^ 64 = 0 := by
      apply Nat.mod_eq_zero_of_dvd
      exact Nat.dvd_trans (Nat.pow_dvd_pow 2 (by omega)) (Nat.dvd_mul_left _ _)
    rw [hzero, Nat.or_zero, Nat.add_zero, Nat.mod_eq_of_lt result.isLt]

private theorem digit_toNat (b : Byte) :
    ((b &&& 0x7f).setWidth 64 : BitVec 64).toNat = Leb128.digit b := by
  have key : ∀ b : Byte, ((b &&& 0x7f).setWidth 64 : BitVec 64).toNat = Leb128.digit b := by
    decide
  exact key b

/-- The loop of the decoders on the digits from a place on. -/
private theorem accumulate_eq (bs : List Byte) (i : Nat) (result : BitVec 64)
    (hi : i + bs.length ≤ 10) (hr : result.toNat < 2 ^ (7 * i)) :
    accumulate bs (BitVec.ofNat 32 (7 * i)) result =
      (result + BitVec.ofNat 64 (Leb128.natValue bs * 2 ^ (7 * i)),
        BitVec.ofNat 32 (7 * (i + bs.length))) := by
  induction bs generalizing i result with
  | nil => simp [accumulate, Leb128.natValue]
  | cons b bs ih =>
    rw [List.length_cons] at hi
    have hshift : (BitVec.ofNat 32 (7 * i)).toNat % 64 = 7 * i := by
      rw [BitVec.toNat_ofNat]
      omega
    have hnext : BitVec.ofNat 32 (7 * i) + 7 = BitVec.ofNat 32 (7 * (i + 1)) := by
      rw [Nat.mul_add, BitVec.ofNat_add]
      rfl
    have hdigit := Leb128.digit_lt b
    have hterm : ((b &&& 0x7f).setWidth 64 : BitVec 64) <<< (7 * i) =
        BitVec.ofNat 64 (Leb128.digit b * 2 ^ (7 * i)) := by
      apply BitVec.eq_of_toNat_eq
      rw [BitVec.toNat_shiftLeft, digit_toNat, Nat.shiftLeft_eq, BitVec.toNat_ofNat]
    have hpow : 2 ^ (7 * (i + 1)) = 128 * 2 ^ (7 * i) := by
      rw [Nat.mul_add, Nat.pow_add, Nat.mul_comm]
    have hbound : (result + BitVec.ofNat 64 (Leb128.digit b * 2 ^ (7 * i))).toNat <
        2 ^ (7 * (i + 1)) := by
      rw [hpow, BitVec.toNat_add, BitVec.toNat_ofNat]
      have hle : Leb128.digit b * 2 ^ (7 * i) ≤ 127 * 2 ^ (7 * i) :=
        Nat.mul_le_mul_right _ (by omega)
      have hmod := Nat.mod_le (result.toNat + Leb128.digit b * 2 ^ (7 * i)) (2 ^ 64)
      rw [Nat.add_mod_mod]
      omega
    rw [accumulate, hshift, hnext, or_shifted hr, hterm, ih (i + 1) _ (by omega) hbound]
    apply Prod.ext
    · show _ + _ + _ = _ + _
      rw [BitVec.add_assoc, ← BitVec.ofNat_add, Leb128.natValue, hpow]
      congr 2
      ring
    · show BitVec.ofNat 32 (7 * (i + 1 + bs.length)) = _
      congr 2
      rw [List.length_cons]
      omega

theorem ulebValue_eq {bs : List Byte} (h : bs.length ≤ 10) :
    ulebValue bs = BitVec.ofNat 64 (Leb128.natValue bs) := by
  have hrun := congrArg Prod.fst (accumulate_eq bs 0 0#64 (by omega) (by decide))
  rw [Nat.mul_zero, Nat.pow_zero, Nat.mul_one, BitVec.zero_add] at hrun
  exact hrun

theorem ulebValue_encodeNat (v : BitVec 64) : ulebValue (Leb128.encodeNat v.toNat) = v := by
  have hlt : v.toNat < 128 ^ 10 := Nat.lt_trans v.isLt (by decide)
  rw [ulebValue_eq (Leb128.length_encodeNat_le (by decide) hlt), Leb128.natValue_encodeNat,
    BitVec.ofNat_toNat, BitVec.setWidth_eq]

private theorem negative_iff (bs : List Byte) :
    (bs.getLastD 0 &&& 0x40) ≠ 0 ↔ Leb128.negative bs = true := by
  have key : ∀ b : Byte, (b &&& 0x40) ≠ 0 ↔ b.getLsbD 6 = true := by decide
  rw [Leb128.negative_eq]
  exact key _

/-- The bits above a shift. -/
private theorem neg_one_shiftLeft {s : Nat} (hs : s < 64) :
    -((1 : BitVec 64) <<< s) = BitVec.ofInt 64 (-2 ^ s) := by
  have hlt : 2 ^ s < 2 ^ 64 := Nat.pow_lt_pow_right (by decide) hs
  have hpos : 0 < 2 ^ s := Nat.two_pow_pos s
  apply BitVec.eq_of_toNat_eq
  rw [BitVec.toNat_neg, BitVec.toNat_shiftLeft, Nat.shiftLeft_eq, BitVec.toNat_ofInt]
  push_cast
  show (2 ^ 64 - 1 * 2 ^ s % 2 ^ 64) % 2 ^ 64 = _
  have hcast : ((2 ^ s : Nat) : Int) = 2 ^ s := by push_cast; rfl
  rw [← hcast]
  generalize 2 ^ s = n at *
  omega

theorem slebValue_eq {bs : List Byte} (hle : bs.length ≤ 10) :
    slebValue bs = BitVec.ofInt 64 (Leb128.intValue bs) := by
  have hrun := accumulate_eq bs 0 0#64 (by omega) (by decide)
  rw [Nat.mul_zero, Nat.pow_zero, Nat.mul_one, BitVec.zero_add, Nat.zero_add] at hrun
  have hlt := Leb128.natValue_lt bs
  have hnat : ∀ n : Nat, BitVec.ofInt 64 (n : Int) = BitVec.ofNat 64 n := fun n ↦ rfl
  have hdef : slebValue bs =
      if BitVec.ofNat 32 (7 * bs.length) < 64 ∧ (bs.getLastD 0 &&& 0x40) ≠ 0 then
        BitVec.ofNat 64 (Leb128.natValue bs) |||
          -((1 : BitVec 64) <<< (BitVec.ofNat 32 (7 * bs.length)).toNat)
      else BitVec.ofNat 64 (Leb128.natValue bs) := by
    rw [slebValue, show accumulate bs 0 0 = _ from hrun]
  have hsmall : (BitVec.ofNat 32 (7 * bs.length)).toNat = 7 * bs.length := by
    rw [BitVec.toNat_ofNat]
    omega
  have hpow : (128 : Nat) ^ bs.length = 2 ^ (7 * bs.length) := by
    rw [Nat.pow_mul]
  have hcond : (BitVec.ofNat 32 (7 * bs.length) < 64 ∧ (bs.getLastD 0 &&& 0x40) ≠ 0) ↔
      7 * bs.length < 64 ∧ Leb128.negative bs = true := by
    rw [negative_iff, BitVec.lt_def, hsmall]
    rfl
  rw [hdef, Leb128.intValue, hsmall]
  by_cases hneg : Leb128.negative bs = true
  · rw [if_pos hneg]
    by_cases hshort : 7 * bs.length < 64
    · -- the sign is extended from the last byte
      have hresult : (BitVec.ofNat 64 (Leb128.natValue bs)).toNat < 2 ^ (7 * bs.length) := by
        rw [← hpow, BitVec.toNat_ofNat]
        exact Nat.lt_of_le_of_lt (Nat.mod_le _ _) hlt
      have hones : -((1 : BitVec 64) <<< (7 * bs.length)) =
          (-1 : BitVec 64) <<< (7 * bs.length) := BitVec.shiftLeft_neg.symm
      rw [if_pos (hcond.mpr ⟨hshort, hneg⟩), hones, or_shifted hresult, ← hones,
        neg_one_shiftLeft hshort, ← hnat, ← BitVec.ofInt_add]
      congr 1
      have hcast : ((128 ^ bs.length : Nat) : Int) = ((2 ^ (7 * bs.length) : Nat) : Int) :=
        congrArg _ hpow
      push_cast at hcast
      rw [hcast]
      ring
    · -- ten bytes reach beyond the result
      rw [if_neg fun h ↦ hshort (hcond.mp h).1]
      have hlen : bs.length = 10 := by omega
      rw [hlen]
      apply BitVec.eq_of_toNat_eq
      rw [BitVec.toNat_ofInt, BitVec.toNat_ofNat]
      omega
  · rw [if_neg hneg, if_neg fun h ↦ hneg (hcond.mp h).2, Int.sub_zero, hnat]

theorem length_encodeInt_toInt (v : BitVec 64) : (Leb128.encodeInt v.toInt).length ≤ 10 := by
  have hlow := BitVec.le_toInt v
  have hhigh := @BitVec.toInt_lt 64 v
  apply Leb128.length_encodeInt_le (k := 9)
  · exact Int.le_trans (by decide) hlow
  · exact Int.lt_of_lt_of_le hhigh (by decide)

theorem slebValue_encodeInt (v : BitVec 64) : slebValue (Leb128.encodeInt v.toInt) = v := by
  rw [slebValue_eq (length_encodeInt_toInt v), Leb128.intValue_encodeInt, BitVec.ofInt_toInt]

section Decoding

variable {mem : Memory} {relData : BitVec 64} {pos : Nat} {bs : List Byte}

/-- The decoders come to the last byte of a number, whatever is behind it. -/
theorem reader_of_split (hread : mem.read (relData + BitVec.ofNat 64 pos) bs.length = bs)
    (hsplit : Leb128.split bs = some (bs, [])) (hlen : bs.length ≤ 10) :
    reader relData mem pos = some bs := by
  rw [← hread] at hsplit
  rw [reader, Leb128.take_of_split hsplit, hread]
  rw [hread]
  omega

theorem decodeUleb128_shortest (hread : mem.read (relData + BitVec.ofNat 64 pos) bs.length = bs)
    {u : BitVec 64} (h : Leb128.Shortest (Leb128.EncodesNat u.toNat) bs) :
    decodeUleb128 (reader relData) mem pos = some (u, bs.length) := by
  obtain ⟨⟨hsplit, hvalue⟩, hshortest⟩ := h
  have hlt : u.toNat < 128 ^ 10 := Nat.lt_trans u.isLt (by decide)
  have hlen : bs.length ≤ 10 :=
    Nat.le_trans (hshortest _ (Leb128.encodesNat_encodeNat _))
      (Leb128.length_encodeNat_le (by decide) hlt)
  rw [decodeUleb128, reader_of_split hread hsplit hlen, Option.map_some, ulebValue_eq hlen, hvalue,
    BitVec.ofNat_toNat, BitVec.setWidth_eq]

theorem decodeSleb128_shortest (hread : mem.read (relData + BitVec.ofNat 64 pos) bs.length = bs)
    {v : BitVec 64} (h : Leb128.Shortest (Leb128.EncodesInt v.toInt) bs) :
    decodeSleb128 (reader relData) mem pos = some (v, bs.length) := by
  obtain ⟨⟨hsplit, hvalue⟩, hshortest⟩ := h
  have hlen : bs.length ≤ 10 :=
    Nat.le_trans (hshortest _ (Leb128.encodesInt_encodeInt _)) (length_encodeInt_toInt v)
  rw [decodeSleb128, reader_of_split hread hsplit hlen, Option.map_some, slebValue_eq hlen, hvalue,
    BitVec.ofInt_toInt]

/-- The decoders read each number of 64 bits back from its shortest encoding, and go past that. -/
theorem decode_roundTrip (mem : Memory) (relData : BitVec 64) (pos : Nat) (bs : List Byte)
    (hread : mem.read (relData + BitVec.ofNat 64 pos) bs.length = bs) :
    (∀ u : BitVec 64, Leb128.Shortest (Leb128.EncodesNat u.toNat) bs →
      decodeUleb128 (reader relData) mem pos = some (u, bs.length)) ∧
    (∀ v : BitVec 64, Leb128.Shortest (Leb128.EncodesInt v.toInt) bs →
      decodeSleb128 (reader relData) mem pos = some (v, bs.length)) :=
  ⟨fun _ h ↦ decodeUleb128_shortest hread h, fun _ h ↦ decodeSleb128_shortest hread h⟩

/-- The shortest encoding of -2 is one byte, and of 126 as an unsigned number the same one. -/
theorem decode_roundTrip_minusTwo :
    let mem : Memory := fun _ ↦ 0x7e
    decodeUleb128 (reader 0) mem 0 = some (126, 1) ∧ decodeSleb128 (reader 0) mem 0 = some (-2, 1) := by
  have hunsigned : Leb128.Shortest (Leb128.EncodesNat (126 : BitVec 64).toNat) [0x7e] := by
    have h := Leb128.shortest_encodeNat 126
    rw [Leb128.encodeNat, if_pos (by decide)] at h
    exact h
  have hsigned : Leb128.Shortest (Leb128.EncodesInt (-2 : BitVec 64).toInt) [0x7e] := by
    have h := Leb128.shortest_encodeInt (-2)
    rw [Leb128.encodeInt, if_pos (by decide)] at h
    exact h
  have h := decode_roundTrip (fun _ ↦ 0x7e) 0 0 [0x7e] rfl
  exact ⟨h.1 126 hunsigned, h.2 (-2) hsigned⟩

end Decoding

end Arm2x86.Reloc
