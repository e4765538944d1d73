import Arm2x86.Base.Bytes

/-!
# Byte memory and regions

A flat memory with 64-bit addresses, writes of byte strings to it, and regions of it given by
their first address and their size. Offsets into a region wrap around with the address.
-/

namespace Arm2x86

/-- The byte at every address. -/
abbrev Memory := BitVec 64 → Byte

namespace Memory

/-- The memory after a byte string has been written to an address. -/
def write (mem : Memory) (p : BitVec 64) (bs : List Byte) : Memory :=
  fun q ↦ (bs[(q - p).toNat]?).getD (mem q)

/-- The bytes from an address on. -/
def read (mem : Memory) (p : BitVec 64) : Nat → List Byte
  | 0 => []
  | n + 1 => mem p :: read mem (p + 1#64) n

end Memory

/-- A range of addresses. -/
structure Region where
  start : BitVec 64
  size : Nat
deriving DecidableEq, Repr

namespace Region

instance : Membership (BitVec 64) Region := ⟨fun r p ↦ (p - r.start).toNat < r.size⟩

theorem mem_iff {r : Region} {p : BitVec 64} : p ∈ r ↔ (p - r.start).toNat < r.size := Iff.rfl

instance (p : BitVec 64) (r : Region) : Decidable (p ∈ r) :=
  inferInstanceAs (Decidable ((p - r.start).toNat < r.size))

theorem start_add_mem {start : BitVec 64} {size k : Nat} (h : k < size) :
    start + BitVec.ofNat 64 k ∈ (⟨start, size⟩ : Region) := by
  rw [mem_iff, BitVec.add_comm, BitVec.add_sub_cancel, BitVec.toNat_ofNat]
  exact Nat.lt_of_le_of_lt (Nat.mod_le _ _) h

/-- An offset from a later start. -/
theorem toNat_sub_add (p q : BitVec 64) (m : Nat) : (q - (p + BitVec.ofNat 64 m)).toNat =
    ((q - p).toNat + (2 ^ 64 - m % 2 ^ 64)) % 2 ^ 64 := by
  simp only [BitVec.toNat_sub, BitVec.toNat_add, BitVec.toNat_ofNat]
  omega

/-- A region as two parts. -/
theorem mem_append {p q : BitVec 64} {m n : Nat} (h : m + n ≤ 2 ^ 64) :
    q ∈ (⟨p, m + n⟩ : Region) ↔ q ∈ (⟨p, m⟩ : Region) ∨
      q ∈ (⟨p + BitVec.ofNat 64 m, n⟩ : Region) := by
  have hq := (q - p).isLt
  simp only [Region.mem_iff, toNat_sub_add]
  omega

end Region

namespace Memory

variable {mem : Memory} {p q : BitVec 64} {bs : List Byte}

theorem write_of_notMem (h : q ∉ (⟨p, bs.length⟩ : Region)) : mem.write p bs q = mem q := by
  rw [Region.mem_iff, Nat.not_lt] at h
  rw [write, List.getElem?_eq_none h, Option.getD_none]

/-- A written byte, at an offset that does not wrap around. -/
theorem write_at {k : Nat} {b : Byte} (hk : k < 2 ^ 64) (hb : bs[k]? = some b) :
    mem.write p bs (p + BitVec.ofNat 64 k) = b := by
  rw [write, BitVec.add_comm, BitVec.add_sub_cancel, BitVec.toNat_ofNat, Nat.mod_eq_of_lt hk, hb,
    Option.getD_some]

theorem next_add (p : BitVec 64) (k : Nat) : p + 1#64 + BitVec.ofNat 64 k = p + BitVec.ofNat 64 (k + 1) := by
  rw [Nat.add_comm k 1, BitVec.ofNat_add, BitVec.add_assoc]

/-- A write outside of what is read is not seen. -/
theorem read_write_of_notMem {n : Nat}
    (h : ∀ i < n, q + BitVec.ofNat 64 i ∉ (⟨p, bs.length⟩ : Region)) :
    (mem.write p bs).read q n = mem.read q n := by
  induction n generalizing q with
  | zero => rfl
  | succ n ih =>
    have hfirst : q ∉ (⟨p, bs.length⟩ : Region) := by
      simpa using h 0 (Nat.succ_pos n)
    rw [read, read, write_of_notMem hfirst, ih]
    intro i hi
    rw [next_add]
    exact h (i + 1) (Nat.succ_lt_succ hi)

/-- What has been written inside of a byte string is read back. -/
theorem read_write_middle (xs ys zs : List Byte) (h : (xs ++ ys).length ≤ 2 ^ 64) :
    (mem.write p (xs ++ ys ++ zs)).read (p + BitVec.ofNat 64 xs.length) ys.length = ys := by
  induction ys generalizing xs with
  | nil => rfl
  | cons y ys ih =>
    have hlen : (xs ++ y :: ys).length = xs.length + ys.length + 1 := by
      rw [List.length_append, List.length_cons]
      omega
    have hrest := ih (xs ++ [y]) (by simpa using h)
    rw [List.append_assoc xs, List.singleton_append, List.length_append, List.length_singleton,
      BitVec.ofNat_add, ← BitVec.add_assoc] at hrest
    rw [List.length_cons, read, hrest]
    congr 1
    apply write_at
    · omega
    · simp

@[simp] theorem length_read (mem : Memory) (p : BitVec 64) (n : Nat) :
    (mem.read p n).length = n := by
  induction n generalizing p with
  | zero => rfl
  | succ n ih => rw [read, List.length_cons, ih]

/-- Reading in two parts. -/
theorem read_add (mem : Memory) (p : BitVec 64) (m n : Nat) :
    mem.read p (m + n) = mem.read p m ++ mem.read (p + BitVec.ofNat 64 m) n := by
  induction m generalizing p with
  | zero => simp [read]
  | succ m ih =>
    rw [Nat.succ_add, read, read, ih, next_add, List.cons_append]

/-- What has been written is read back. -/
theorem read_write (mem : Memory) (p : BitVec 64) (h : bs.length ≤ 2 ^ 64) :
    (mem.write p bs).read p bs.length = bs := by
  have hmiddle : (mem.write p ([] ++ bs ++ [])).read (p + BitVec.ofNat 64 0) bs.length = bs :=
    read_write_middle [] bs [] (by simpa using h)
  simpa using hmiddle

/-- Bytes that agree one by one. -/
theorem read_congr {mem' : Memory} {n : Nat}
    (h : ∀ i < n, mem (p + BitVec.ofNat 64 i) = mem' (q + BitVec.ofNat 64 i)) :
    mem.read p n = mem'.read q n := by
  induction n generalizing p q with
  | zero => rfl
  | succ n ih =>
    have hfirst : mem p = mem' q := by simpa using h 0 (Nat.succ_pos n)
    rw [read, read, hfirst, ih]
    intro i hi
    rw [next_add, next_add]
    exact h (i + 1) (Nat.succ_lt_succ hi)

theorem getElem?_read (mem : Memory) (p : BitVec 64) {n k : Nat} (hk : k < n) :
    (mem.read p n)[k]? = some (mem (p + BitVec.ofNat 64 k)) := by
  induction n generalizing p k with
  | zero => omega
  | succ n ih =>
    cases k with
    | zero => simp [read]
    | succ k =>
      rw [read, List.getElem?_cons_succ, ih (p + 1#64) (Nat.lt_of_succ_lt_succ hk), next_add]

/-- Writing what is there changes nothing. -/
theorem write_read (mem : Memory) (p : BitVec 64) (n : Nat) : mem.write p (mem.read p n) = mem := by
  funext q
  by_cases hq : (q - p).toNat < n
  · rw [write, getElem?_read mem p hq, Option.getD_some, BitVec.ofNat_toNat, BitVec.setWidth_eq,
      BitVec.add_comm, BitVec.sub_add_cancel]
  · apply write_of_notMem
    rw [Region.mem_iff, length_read]
    exact hq

/-- Two writes in a row are one. -/
theorem write_append (xs ys : List Byte) (h : (xs ++ ys).length ≤ 2 ^ 64) :
    (mem.write p xs).write (p + BitVec.ofNat 64 xs.length) ys = mem.write p (xs ++ ys) := by
  funext q
  rw [List.length_append] at h
  simp only [write]
  have hq := (q - p).isLt
  have hoff := Region.toNat_sub_add p q xs.length
  by_cases hlt : (q - p).toNat < xs.length
  · have hout : ys.length ≤ (q - (p + BitVec.ofNat 64 xs.length)).toNat := by
      rw [hoff]
      omega
    rw [List.getElem?_eq_none hout, Option.getD_none, List.getElem?_append_left hlt]
  · by_cases hempty : ys = []
    · simp [hempty]
    · have hpos := List.length_pos_iff.mpr hempty
      have hin : (q - (p + BitVec.ofNat 64 xs.length)).toNat = (q - p).toNat - xs.length := by
        rw [hoff]
        omega
      rw [hin, List.getElem?_append_right (by omega)]
      by_cases hend : (q - p).toNat - xs.length < ys.length
      · rw [List.getElem?_eq_getElem hend, Option.getD_some, Option.getD_some]
      · rw [List.getElem?_eq_none (by omega), Option.getD_none,
          List.getElem?_eq_none (by omega), Option.getD_none]

end Memory

end Arm2x86
