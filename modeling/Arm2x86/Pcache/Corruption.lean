import Arm2x86.Base.Crc
import Arm2x86.Pcache.RoundTrip

/-!
# Damaged headers

`arm2x86_pcache_compute_hash` (`modules/arm2x86_pcache.c:74`) as a cyclic check: all 96 bytes of a
valid header, with the stored checksum at their end, leave one fixed remainder. A change inside of
four consecutive bytes, which may cover data and checksum, leaves another one.
-/

namespace Arm2x86.Pcache

/-- The polynomial of `init_crc32_table`. -/
def crcPoly : BitVec 32 := 0xEDB88320#32

/-- A change inside of four consecutive bytes. -/
structure Burst (start : Nat) (bytes bytes' : List Byte) : Prop where
  length : bytes'.length = bytes.length
  outside : ∀ i, i < start ∨ start + 4 ≤ i → bytes'[i]? = bytes[i]?
  changed : bytes' ≠ bytes

theorem crcRound_eq (crc : BitVec 32) : crcRound crc = Crc.shift crcPoly crc :=
  Crc.shift_eq_ite crcPoly crc

theorem crc32Table_eq (i : BitVec 32) : crc32Table i = Crc.shifts crcPoly 8 i := by
  unfold crc32Table Crc.shifts
  rw [funext crcRound_eq]

/-- The hash is the complement of the remainder after all ones. -/
theorem computeHash_eq (data : List Byte) :
    computeHash data = ~~~ Crc.feed crcPoly (BitVec.allOnes 32) data := by
  unfold computeHash Crc.feed
  congr 2
  ext crc b : 2
  rw [crc32Table_eq, Crc.step_table]

/-- A checksum is right exactly when the whole header leaves the fixed remainder. -/
theorem computeHeaderChecksum_eq_iff (h : Header) :
    computeHeaderChecksum h = h.checksum ↔ Crc.feed crcPoly (BitVec.allOnes 32) h.encode =
      Crc.shifts crcPoly 32 (BitVec.allOnes 32) := by
  rw [Header.encode, ← Crc.residue_iff rfl (by simp), Crc.word_leBytes 4 _ (by decide),
    computeHeaderChecksum, computeHash_eq, eq_comm]

/-- A header is read from 96 bytes without loss. -/
theorem encode_decode {bytes : List Byte} (hlen : bytes.length = headerSize) :
    (Header.decode bytes).encode = bytes := by
  have hfield (i k n : Nat) (hk : i + k ≤ headerSize) (hn : 256 ^ k = 2 ^ n) :
      leBytes k (BitVec.ofNat n (leNat ((bytes.drop i).take k))).toNat = (bytes.drop i).take k := by
    have hlength : ((bytes.drop i).take k).length = k := by
      rw [List.length_take, List.length_drop]
      omega
    have hlt := leNat_lt ((bytes.drop i).take k)
    have hback := leBytes_leNat ((bytes.drop i).take k)
    rw [hlength] at hlt hback
    rw [BitVec.toNat_ofNat, Nat.mod_eq_of_lt (hn ▸ hlt), hback]
  have hjoin (i k : Nat) : (bytes.drop i).take k ++ bytes.drop (i + k) = bytes.drop i := by
    rw [← List.drop_drop, List.take_append_drop]
  have hlast : (bytes.drop 92).take 4 = bytes.drop 92 := by
    apply List.take_of_length_le
    rw [List.length_drop, hlen, headerSize]
  have hfirst : bytes.take 4 = (bytes.drop 0).take 4 := rfl
  simp only [Header.encode, Header.checked, Header.decode, takeWord, List.append_assoc,
    List.drop_drop, Nat.reduceAdd]
  rw [hfirst, hfield 0 4 32 (by decide) (by decide), hfield 4 4 32 (by decide) (by decide),
    hfield 8 8 64 (by decide) (by decide), hfield 16 4 32 (by decide) (by decide),
    hfield 20 4 32 (by decide) (by decide), hfield 24 8 64 (by decide) (by decide),
    hfield 32 8 64 (by decide) (by decide), hfield 40 8 64 (by decide) (by decide),
    hfield 48 8 64 (by decide) (by decide), hfield 56 8 64 (by decide) (by decide),
    hfield 64 8 64 (by decide) (by decide), hfield 72 4 32 (by decide) (by decide),
    hfield 76 1 8 (by decide) (by decide), hfield 77 1 8 (by decide) (by decide),
    hfield 78 14 112 (by decide) (by decide), hfield 92 4 32 (by decide) (by decide)]
  rw [hlast, hjoin 78 14, hjoin 77 1, hjoin 76 1, hjoin 72 4, hjoin 64 8, hjoin 56 8, hjoin 48 8,
    hjoin 40 8, hjoin 32 8, hjoin 24 8, hjoin 20 4, hjoin 16 4, hjoin 8 8, hjoin 4 4, hjoin 0 4,
    List.drop_zero]

/-- Headers that pass the validation leave one remainder. -/
theorem feed_of_valid {bytes : List Byte} (hlen : bytes.length = headerSize)
    (h : validateHeader (Header.decode bytes) = .ok) :
    Crc.feed crcPoly (BitVec.allOnes 32) bytes = Crc.shifts crcPoly 32 (BitVec.allOnes 32) := by
  have hchecksum : computeHeaderChecksum (Header.decode bytes) = (Header.decode bytes).checksum := by
    by_contra hne
    simp only [validateHeader, if_pos hne] at h
    split at h
    · cases h
    · split at h <;> cases h
  rw [computeHeaderChecksum_eq_iff, encode_decode hlen] at hchecksum
  exact hchecksum

/-- The parts of a burst: what stays in front, what changes, and what stays behind. -/
theorem Burst.split {start : Nat} {bytes bytes' : List Byte} (h : Burst start bytes bytes') :
    ∃ front mid mid' tail, bytes = front ++ (mid ++ tail) ∧ bytes' = front ++ (mid' ++ tail) ∧
      mid.length = mid'.length ∧ mid.length ≤ 4 ∧ mid ≠ mid' := by
  have hfront : bytes'.take start = bytes.take start := by
    apply List.ext_getElem?
    intro i
    rw [List.getElem?_take, List.getElem?_take]
    split
    · next hi => exact h.outside i (.inl hi)
    · rfl
  have htail : (bytes'.drop start).drop 4 = (bytes.drop start).drop 4 := by
    apply List.ext_getElem?
    intro i
    rw [List.getElem?_drop, List.getElem?_drop, List.getElem?_drop, List.getElem?_drop]
    apply h.outside
    omega
  refine ⟨bytes.take start, (bytes.drop start).take 4, (bytes'.drop start).take 4,
    (bytes.drop start).drop 4, ?_, ?_, ?_, ?_, ?_⟩
  · rw [List.take_append_drop, List.take_append_drop]
  · rw [← hfront, ← htail, List.take_append_drop, List.take_append_drop]
  · rw [List.length_take, List.length_take, List.length_drop, List.length_drop, h.length]
  · exact List.length_take_le _ _
  · intro hmid
    apply h.changed
    rw [← List.take_append_drop start bytes', ← List.take_append_drop 4 (bytes'.drop start), hfront,
      htail, ← hmid, List.take_append_drop, List.take_append_drop]

/-- A header that a store has written does not pass the validation after a change inside of four
consecutive bytes. -/
theorem validateHeader_burst (now : Nat) (armAddr : Addr) (armCode x86Code : Buffer)
    (flags : BitVec 32) (start : Nat) (bytes : List Byte)
    (h : Burst start (newHeader now armAddr armCode x86Code flags).encode bytes) :
    validateHeader (Header.decode bytes) ≠ .ok := by
  intro hvalid
  set header := newHeader now armAddr armCode x86Code flags
  have hlen : bytes.length = headerSize := by rw [h.length, length_encode]
  have hchanged := feed_of_valid hlen hvalid
  have hwritten : Crc.feed crcPoly (BitVec.allOnes 32) header.encode =
      Crc.shifts crcPoly 32 (BitVec.allOnes 32) := by
    rw [← computeHeaderChecksum_eq_iff]
    rfl
  obtain ⟨front, mid, mid', tail, hbytes, hbytes', hmid, hfour, hne⟩ := h.split
  have hsame : Crc.feed crcPoly (BitVec.allOnes 32) (front ++ (mid ++ tail)) =
      Crc.feed crcPoly (BitVec.allOnes 32) (front ++ (mid' ++ tail)) := by
    rw [← hbytes, ← hbytes', hwritten, hchanged]
  exact hne (Crc.burst rfl hmid (by omega) hsame)

/-- The header of a `ret`, with the last reserved byte and the first one of the checksum changed. -/
theorem validateHeader_burst_straddling :
    validateHeader (Header.decode (((newHeader 7 0x1000#64 ⟨[0xc0, 0x03, 0x5f, 0xd6], by decide⟩
      ⟨[0xc3], by decide⟩ 0#32).encode.set 91 0xff).set 92 0)) ≠ .ok := by
  apply validateHeader_burst 7 0x1000#64 ⟨[0xc0, 0x03, 0x5f, 0xd6], by decide⟩
    ⟨[0xc3], by decide⟩ 0#32 90
  refine ⟨?_, ?_, ?_⟩
  · rw [List.length_set, List.length_set]
  · intro i hi
    rw [List.getElem?_set_ne (by omega), List.getElem?_set_ne (by omega)]
  · intro h
    have hbyte := congrArg (·[91]?) h
    rw [List.getElem?_set_ne (by decide), List.getElem?_set_self (by simp [headerSize])] at hbyte
    cases hbyte

end Arm2x86.Pcache
