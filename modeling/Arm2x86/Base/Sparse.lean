import Arm2x86.Base.Memory

/-!
# Memory with holes

Byte memory of which an address may have no contents. A load of several bytes fails when one of them
is missing, and so does a store. What a store leaves alone is told by the region it writes.
-/

namespace Arm2x86

/-- The byte at an address, if there is one. -/
abbrev Sparse := BitVec 64 → Option Byte

namespace Sparse

/-- The `n` bytes from an address on. -/
def load (mem : Sparse) (p : BitVec 64) (n : Nat) : Option (List Byte) :=
  (List.range n).mapM fun i ↦ mem (p + BitVec.ofNat 64 i)

/-- Bytes put over those from an address on. -/
def overwrite (mem : Sparse) (p : BitVec 64) (bs : List Byte) : Sparse :=
  fun q ↦ (bs[(q - p).toNat]?).or (mem q)

/-- The bytes from an address on are replaced, if all of them are there. -/
def store (mem : Sparse) (p : BitVec 64) (bs : List Byte) : Option Sparse :=
  (mem.load p bs.length).map fun _ ↦ mem.overwrite p bs

variable {mem mem' : Sparse} {p q : BitVec 64} {bs : List Byte} {n : Nat}

theorem load_succ (mem : Sparse) (p : BitVec 64) (n : Nat) :
    mem.load p (n + 1) =
      (mem.load p n).bind fun bs ↦ (mem (p + BitVec.ofNat 64 n)).map fun b ↦ bs ++ [b] := by
  rw [load, load, List.range_succ, List.mapM_append]
  cases (List.range n).mapM fun i ↦ mem (p + BitVec.ofNat 64 i) with
  | none => rfl
  | some bs => cases hb : mem (p + BitVec.ofNat 64 n) <;> simp [hb]

/-- A load gets the bytes that are there. -/
theorem load_eq_some_iff :
    mem.load p n = some bs ↔ bs.length = n ∧ ∀ i < n, mem (p + BitVec.ofNat 64 i) = bs[i]? := by
  induction n generalizing bs with
  | zero =>
    constructor
    · intro h
      obtain rfl := Option.some.inj h
      exact ⟨rfl, fun i hi ↦ absurd hi (Nat.not_lt_zero i)⟩
    · rintro ⟨hlen, -⟩
      rw [List.eq_nil_of_length_eq_zero hlen]
      rfl
  | succ n ih =>
    rw [load_succ]
    constructor
    · intro h
      obtain ⟨xs, hxs, h⟩ := Option.bind_eq_some_iff.mp h
      obtain ⟨b, hb, rfl⟩ := Option.map_eq_some_iff.mp h
      obtain ⟨hlen, hget⟩ := ih.mp hxs
      refine ⟨by simp [hlen], fun i hi ↦ ?_⟩
      rcases Nat.lt_succ_iff_lt_or_eq.mp hi with hlt | rfl
      · rw [hget i hlt, List.getElem?_append_left (by omega)]
      · rw [hb, List.getElem?_append_right (by omega), hlen, Nat.sub_self]
        rfl
    · rintro ⟨hlen, hget⟩
      have hinit : mem.load p n = some (bs.take n) := by
        apply ih.mpr
        refine ⟨by simp [hlen], fun i hi ↦ ?_⟩
        rw [hget i (Nat.lt_succ_of_lt hi), List.getElem?_take_of_lt hi]
      have hlast : mem (p + BitVec.ofNat 64 n) = some bs[n] := by
        rw [hget n (Nat.lt_succ_self n), List.getElem?_eq_getElem]
      rw [hinit, Option.bind_some, hlast, Option.map_some, ← List.take_succ_eq_append_getElem,
        ← hlen, List.take_length]

theorem length_of_load (h : mem.load p n = some bs) : bs.length = n :=
  (load_eq_some_iff.mp h).1

/-- Memories with the same bytes give the same load. -/
theorem load_congr (h : ∀ i < n, mem (p + BitVec.ofNat 64 i) = mem' (p + BitVec.ofNat 64 i)) :
    mem.load p n = mem'.load p n := by
  induction n with
  | zero => rfl
  | succ n ih =>
    rw [load_succ, load_succ, ih fun i hi ↦ h i (Nat.lt_succ_of_lt hi), h n (Nat.lt_succ_self n)]

theorem exists_load_iff :
    (∃ bs, mem.load p n = some bs) ↔ ∀ i < n, (mem (p + BitVec.ofNat 64 i)).isSome := by
  induction n with
  | zero => exact ⟨fun _ i hi ↦ absurd hi (Nat.not_lt_zero i), fun _ ↦ ⟨[], rfl⟩⟩
  | succ n ih =>
    rw [load_succ]
    constructor
    · rintro ⟨bs, h⟩ i hi
      obtain ⟨xs, hxs, h⟩ := Option.bind_eq_some_iff.mp h
      obtain ⟨b, hb, -⟩ := Option.map_eq_some_iff.mp h
      rcases Nat.lt_succ_iff_lt_or_eq.mp hi with hlt | rfl
      · exact ih.mp ⟨xs, hxs⟩ i hlt
      · rw [hb]
        rfl
    · intro h
      obtain ⟨xs, hxs⟩ := ih.mpr fun i hi ↦ h i (Nat.lt_succ_of_lt hi)
      obtain ⟨b, hb⟩ := Option.isSome_iff_exists.mp (h n (Nat.lt_succ_self n))
      exists xs ++ [b]
      rw [hxs, Option.bind_some, hb]
      rfl

/-- One unmapped byte is enough for a fault. -/
theorem load_eq_none {i : Nat} (hi : i < n) (h : mem (p + BitVec.ofNat 64 i) = none) :
    mem.load p n = none := by
  apply Option.eq_none_iff_forall_ne_some.mpr
  intro bs hbs
  have hbyte := exists_load_iff.mp ⟨bs, hbs⟩ i hi
  rw [h] at hbyte
  cases hbyte

theorem overwrite_of_notMem (h : q ∉ (⟨p, bs.length⟩ : Region)) : mem.overwrite p bs q = mem q := by
  rw [Region.mem_iff, Nat.not_lt] at h
  rw [overwrite, List.getElem?_eq_none h, Option.none_or]

/-- A written byte, at an offset that does not wrap around. -/
theorem overwrite_at {i : Nat} (hi : i < bs.length) (h64 : i < 2 ^ 64) :
    mem.overwrite p bs (p + BitVec.ofNat 64 i) = bs[i]? := by
  rw [overwrite, BitVec.add_comm, BitVec.add_sub_cancel, BitVec.toNat_ofNat, Nat.mod_eq_of_lt h64,
    List.getElem?_eq_getElem hi, Option.some_or]

theorem load_overwrite (h : bs.length ≤ 2 ^ 64) :
    (mem.overwrite p bs).load p bs.length = some bs := by
  apply load_eq_some_iff.mpr
  exact ⟨rfl, fun i hi ↦ overwrite_at hi (Nat.lt_of_lt_of_le hi h)⟩

/-- A write outside of what is loaded is not seen. -/
theorem load_overwrite_of_notMem
    (h : ∀ i < n, q + BitVec.ofNat 64 i ∉ (⟨p, bs.length⟩ : Region)) :
    (mem.overwrite p bs).load q n = mem.load q n :=
  load_congr fun i hi ↦ overwrite_of_notMem (h i hi)

end Sparse

end Arm2x86
