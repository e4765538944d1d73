import Arm2x86.Base.Remainder
import Arm2x86.Pcache.Corruption

/-!
# Checks from tables

`arm2x86_pcache_compute_hash` (`modules/arm2x86_pcache.c:74`) with the table that it shares between
calls, and `crc32_ieee802_3` (`modules/arm2x86_syscall.c:91`) with its own, against the remainders
bit by bit that they stand for. The first call fills each table; the initializer in the source gives
24 cells of the first one only.
-/

namespace Arm2x86.Pcache

/-- `crc32_table` and `initialized`. -/
abbrev HashTable := Crc.Lazy 32

/-- `init_crc32_table`, `modules/arm2x86_pcache.c:60`. -/
def initCrc32Table (s : HashTable) : HashTable := s.force crc32Table

/-- `arm2x86_pcache_compute_hash`, `modules/arm2x86_pcache.c:74`, with the table that it reads. -/
def computeHashIn (s : HashTable) (data : List Byte) : BitVec 32 × HashTable :=
  let s := initCrc32Table s
  (~~~(data.foldl (Crc.stepTable s.table) 0xFFFFFFFF#32), s)

/-- The table after some hashes. -/
def runHashes (s : HashTable) (datas : List (List Byte)) : HashTable :=
  datas.foldl (fun s data ↦ (computeHashIn s data).2) s

theorem inv_runHashes {s : HashTable} (h : s.Inv crc32Table) (datas : List (List Byte)) :
    (runHashes s datas).Inv crc32Table := by
  induction datas generalizing s with
  | nil => exact h
  | cons data datas ih => exact ih h.inv_force

/-- The table never shows: the hash is that of the filled one. -/
theorem computeHashIn_fst {s : HashTable} (h : s.Inv crc32Table) (data : List Byte) :
    (computeHashIn s data).1 = computeHash data := by
  have htable (i : Fin 256) : (initCrc32Table s).table[i] =
      Crc.shifts crcPoly 8 (BitVec.ofNat 32 i) := by
    rw [← crc32Table_eq]
    exact h.force i
  have hstep : Crc.stepTable (initCrc32Table s).table = Crc.step crcPoly := by
    ext r b : 2
    exact Crc.stepTable_eq htable r b
  rw [computeHash_eq, computeHashIn, hstep, Crc.feed]
  rfl

/-- The hash, bit by bit. -/
theorem computeHash_eq_feedBits (data : List Byte) : computeHash data =
    ~~~ Crc.feedBits crcPoly (BitVec.allOnes 32) (data.flatMap Crc.bitsOf) := by
  rw [computeHash_eq, Crc.feed_eq_feedBits _ _ (by decide)]

end Arm2x86.Pcache

namespace Arm2x86.Syscall

/-! ## The code -/

/-- `crc32_ieee_table` and `crc32_once`. -/
abbrev IeeeTable := Crc.Lazy 32

/-- A round of `generate_crc32_ieee_table`, `modules/arm2x86_syscall.c:82`. -/
def ieeeRound (polynomial crc : BitVec 32) : BitVec 32 :=
  (crc >>> 1) ^^^ (if crc &&& 1#32 ≠ 0#32 then polynomial else 0#32)

/-- `crc32_ieee_table[i]` after `generate_crc32_ieee_table`. -/
def crc32IeeeCell (i : BitVec 32) : BitVec 32 := (ieeeRound 0xEDB88320#32)^[8] i

/-- `pthread_once(&crc32_once, generate_crc32_ieee_table)`. -/
def generateOnce (s : IeeeTable) : IeeeTable := s.force crc32IeeeCell

/-- A turn of the loop in `crc32_ieee802_3`, which takes in the low byte of the data. -/
def ieeeTurn (table : Crc.Table 32) : BitVec 32 × BitVec 64 → BitVec 32 × BitVec 64
  | (crc, data) => (Crc.stepTable table crc ((data &&& 0xFF#64).setWidth 8), data >>> 8)

/-- `crc32_ieee802_3`, `modules/arm2x86_syscall.c:91`. The size is an `int`. -/
def crc32Ieee8023 (s : IeeeTable) (crc : BitVec 32) (data : BitVec 64) (size : BitVec 32) :
    BitVec 32 × IeeeTable :=
  let s := generateOnce s
  (((ieeeTurn s.table)^[size.toInt.toNat] (crc, data)).1, s)

/-- The arguments of a call. -/
structure CrcCall where
  crc : BitVec 32
  data : BitVec 64
  size : BitVec 32

/-- The table after some calls. -/
def runCrcs (s : IeeeTable) (calls : List CrcCall) : IeeeTable :=
  calls.foldl (fun s call ↦ (crc32Ieee8023 s call.crc call.data call.size).2) s

/-! ## The instructions -/

/-- The result of `CRC32B`, `CRC32H`, `CRC32W` and `CRC32X` for an accumulator and a value of their
8, 16, 32 or 64 bits: both reversed and moved up, the remainder by the polynomial, reversed. -/
def armCrc32 {n : Nat} (acc : BitVec 32) (val : BitVec n) : BitVec 32 :=
  (Crc.remainder 0x04C11DB7#32
    ((acc.reverse ++ 0#n) ^^^ (val.reverse ++ 0#32).cast (Nat.add_comm n 32))).reverse

/-! ## Agreement -/

theorem armCrc32_eq {n : Nat} (acc : BitVec 32) (val : BitVec n) :
    armCrc32 acc val = Crc.feedBits 0xEDB88320#32 acc (Crc.bitsOf val) := by
  have hpoly : (0x04C11DB7#32).reverse = 0xEDB88320#32 := by decide +kernel
  rw [armCrc32, Crc.remainder_eq, BitVec.reverse_reverse_eq, hpoly]

theorem crc32IeeeCell_eq (i : BitVec 32) :
    crc32IeeeCell i = Crc.shifts 0xEDB88320#32 8 i := by
  have hround : ieeeRound 0xEDB88320#32 = Crc.shift 0xEDB88320#32 :=
    funext (Crc.shift_eq_ite 0xEDB88320#32)
  rw [crc32IeeeCell, Crc.shifts, hround]

theorem inv_runCrcs {s : IeeeTable} (h : s.Inv crc32IeeeCell) (calls : List CrcCall) :
    (runCrcs s calls).Inv crc32IeeeCell := by
  induction calls generalizing s with
  | nil => exact h
  | cons call calls ih => exact ih h.inv_force

/-- Some turns take in as many low bytes of the data. -/
theorem ieeeTurns_eq {table : Crc.Table 32}
    (h : ∀ i : Fin 256, table.get i = Crc.shifts 0xEDB88320#32 8 (BitVec.ofNat 32 i)) (n : Nat)
    (crc : BitVec 32) (data : BitVec 64) :
    ((ieeeTurn table)^[n] (crc, data)).1 =
      Crc.feedBits 0xEDB88320#32 crc (Crc.bitsOf (data.setWidth (8 * n))) := by
  induction n generalizing crc data with
  | zero => rfl
  | succ n ih =>
    have hbyte : (data &&& 0xFF#64).setWidth 8 = data.setWidth 8 := by
      apply BitVec.eq_of_getLsbD_eq
      intro i hi
      have hmask : (255 : Nat).testBit i = decide (i < 8) := Nat.testBit_two_pow_sub_one 8 i
      simp [BitVec.getLsbD_ofNat, hmask, hi]
    rw [Function.iterate_succ_apply, ieeeTurn, ih, Crc.stepTable_eq h, hbyte,
      Crc.step_eq_feedBits _ _ (by decide), ← Crc.feedBits_append, ← Crc.bitsOf_add,
      Nat.mul_succ, Nat.add_comm]

/-- From whatever the cells of both tables hold at the start, and after whatever calls, a hash is
the reflected remainder of all bits with its complements, and a `CRC32` helper call gives what the
instruction of its size is defined to give. -/
theorem crcs_bit_by_bit (cells : Crc.Table 32) (hashed : List (List Byte)) (bytes : List Byte)
    (cells' : Crc.Table 32) (calls : List CrcCall) (crc : BitVec 32) (data : BitVec 64)
    (size : BitVec 32) :
    (Pcache.computeHashIn (Pcache.runHashes ⟨false, cells⟩ hashed) bytes).1 =
        ~~~ Crc.feedBits 0xEDB88320#32 0xFFFFFFFF#32 (bytes.flatMap Crc.bitsOf) ∧
      (crc32Ieee8023 (runCrcs ⟨false, cells'⟩ calls) crc data size).1 =
        armCrc32 crc (data.setWidth (8 * size.toInt.toNat)) := by
  constructor
  · rw [Pcache.computeHashIn_fst (Pcache.inv_runHashes Crc.Lazy.inv_of_unfilled hashed),
      Pcache.computeHash_eq_feedBits]
    rfl
  · have hinv : (runCrcs ⟨false, cells'⟩ calls).Inv crc32IeeeCell :=
      inv_runCrcs Crc.Lazy.inv_of_unfilled calls
    rw [armCrc32_eq, crc32Ieee8023]
    apply ieeeTurns_eq
    intro i
    rw [← crc32IeeeCell_eq]
    exact hinv.force i

end Arm2x86.Syscall
