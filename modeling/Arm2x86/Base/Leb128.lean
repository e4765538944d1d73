import Arm2x86.Base.Memory
import Mathlib.Tactic.Ring

/-!
# LEB128 numbers

Numbers as bytes of seven bits each, lowest first; every byte but the last has its high bit set.
In a signed number bit 6 of the last byte is the sign.
-/

namespace Arm2x86.Leb128

/-- Whether another byte of the number follows. -/
def more (b : Byte) : Bool := b.getLsbD 7

/-- The seven bits of a byte that belong to the number. -/
def digit (b : Byte) : Nat := b.toNat % 128

theorem more_iff (b : Byte) : more b = true ↔ 128 ≤ b.toNat := by
  have key : ∀ b : Byte, more b = true ↔ 128 ≤ b.toNat := by decide
  exact key b

theorem digit_lt (b : Byte) : digit b < 128 := Nat.mod_lt _ (by decide)

/-- The number at the head of some bytes and the bytes behind it; none where they end in it. -/
def split : List Byte → Option (List Byte × List Byte)
  | [] => none
  | b :: bs => if more b then (split bs).map fun r ↦ (b :: r.1, r.2) else some ([b], bs)

/-- The unsigned number that some bytes stand for. -/
def natValue : List Byte → Nat
  | [] => 0
  | b :: bs => digit b + 128 * natValue bs

/-- Whether the last byte has the sign bit. -/
def negative : List Byte → Bool
  | [] => false
  | [b] => b.getLsbD 6
  | _ :: bs => negative bs

/-- The signed number that some bytes stand for. -/
def intValue (bs : List Byte) : Int :=
  natValue bs - if negative bs then 128 ^ bs.length else 0

/-- An unsigned number as bytes. -/
def encodeNat (n : Nat) : List Byte :=
  if n < 128 then [BitVec.ofNat 8 n] else BitVec.ofNat 8 (n % 128 + 128) :: encodeNat (n / 128)
termination_by n
decreasing_by omega

/-- A signed number as bytes. -/
def encodeInt (v : Int) : List Byte :=
  if -64 ≤ v ∧ v < 64 then [BitVec.ofNat 8 (v % 128).toNat]
  else BitVec.ofNat 8 ((v % 128).toNat + 128) :: encodeInt (v / 128)
termination_by v.natAbs
decreasing_by omega

theorem natValue_lt (bs : List Byte) : natValue bs < 128 ^ bs.length := by
  induction bs with
  | nil => exact Nat.one_pos
  | cons b bs ih =>
    have hdigit := digit_lt b
    rw [natValue, List.length_cons, Nat.pow_succ]
    omega

theorem negative_eq (bs : List Byte) : negative bs = (bs.getLastD 0).getLsbD 6 := by
  induction bs with
  | nil => rfl
  | cons b bs ih =>
    cases bs with
    | nil => rfl
    | cons c cs => exact ih

/-! ## Splitting -/

theorem split_eq_some {bs x y : List Byte} (h : split bs = some (x, y)) :
    bs = x ++ y ∧ 0 < x.length := by
  induction bs generalizing x y with
  | nil => cases h
  | cons b bs ih =>
    rw [split] at h
    split at h
    · obtain ⟨⟨x', y'⟩, hsplit, heq⟩ := Option.map_eq_some_iff.mp h
      obtain ⟨rfl, rfl⟩ := Prod.mk.inj heq
      rw [(ih hsplit).1]
      exact ⟨rfl, Nat.succ_pos _⟩
    · obtain ⟨rfl, rfl⟩ := Prod.mk.inj (Option.some.inj h)
      exact ⟨rfl, Nat.one_pos⟩

private theorem split_last {b : Byte} (h : more b = false) (rest : List Byte) :
    split ([b] ++ rest) = some ([b], rest) := by
  rw [List.singleton_append, split, if_neg (by rw [h]; decide)]

private theorem split_more {b : Byte} (h : more b = true) {bs rest : List Byte}
    (hbs : split (bs ++ rest) = some (bs, rest)) :
    split (b :: bs ++ rest) = some (b :: bs, rest) := by
  rw [List.cons_append, split, if_pos h, hbs]
  rfl

/-! ## Encoding -/

private theorem toNat_low {n : Nat} (h : n < 128) : (BitVec.ofNat 8 n).toNat = n := by
  rw [BitVec.toNat_ofNat]
  omega

private theorem toNat_high {n : Nat} (h : n < 128) :
    (BitVec.ofNat 8 (n + 128)).toNat = n + 128 := by
  rw [BitVec.toNat_ofNat]
  omega

private theorem more_low {n : Nat} (h : n < 128) : more (BitVec.ofNat 8 n) = false := by
  apply Bool.eq_false_iff.mpr
  intro hmore
  have hge := (more_iff _).mp hmore
  rw [toNat_low h] at hge
  omega

private theorem more_high {n : Nat} (h : n < 128) : more (BitVec.ofNat 8 (n + 128)) = true := by
  apply (more_iff _).mpr
  rw [toNat_high h]
  omega

private theorem digit_low {n : Nat} (h : n < 128) : digit (BitVec.ofNat 8 n) = n := by
  rw [digit, toNat_low h]
  omega

private theorem digit_high {n : Nat} (h : n < 128) : digit (BitVec.ofNat 8 (n + 128)) = n := by
  rw [digit, toNat_high h]
  omega

/-- An encoded number is read back from the head of any bytes. -/
theorem split_encodeNat (n : Nat) (rest : List Byte) :
    split (encodeNat n ++ rest) = some (encodeNat n, rest) := by
  fun_induction encodeNat n with
  | case1 n h => exact split_last (more_low h) rest
  | case2 n h ih => exact split_more (more_high (Nat.mod_lt _ (by decide))) ih

theorem natValue_encodeNat (n : Nat) : natValue (encodeNat n) = n := by
  fun_induction encodeNat n with
  | case1 n h => rw [natValue, natValue, digit_low h, Nat.mul_zero, Nat.add_zero]
  | case2 n h ih =>
    rw [natValue, ih, digit_high (Nat.mod_lt _ (by decide))]
    omega

theorem length_encodeNat_le {n k : Nat} (hk : 0 < k) (h : n < 128 ^ k) :
    (encodeNat n).length ≤ k := by
  induction k generalizing n with
  | zero => omega
  | succ k ih =>
    rw [encodeNat]
    split
    · rw [List.length_singleton]
      omega
    · next hn =>
      have hdiv : n / 128 < 128 ^ k := by
        apply Nat.div_lt_of_lt_mul
        rwa [Nat.pow_succ, Nat.mul_comm] at h
      have hpos : 0 < k := by
        apply Nat.pos_of_ne_zero
        rintro rfl
        rw [Nat.pow_zero] at hdiv
        omega
      have hrest := ih hpos hdiv
      rw [List.length_cons]
      omega

theorem encodeNat_ne_nil (n : Nat) : encodeNat n ≠ [] := by
  rw [encodeNat]
  split
  · exact List.cons_ne_nil _ _
  · exact List.cons_ne_nil _ _

theorem encodeInt_ne_nil (v : Int) : encodeInt v ≠ [] := by
  rw [encodeInt]
  split
  · exact List.cons_ne_nil _ _
  · exact List.cons_ne_nil _ _

theorem split_encodeInt (v : Int) (rest : List Byte) :
    split (encodeInt v ++ rest) = some (encodeInt v, rest) := by
  fun_induction encodeInt v with
  | case1 v h =>
    apply split_last
    apply more_low
    omega
  | case2 v h ih =>
    apply split_more _ ih
    apply more_high
    omega

private theorem negative_cons {b : Byte} {bs : List Byte} (h : bs ≠ []) :
    negative (b :: bs) = negative bs := by
  cases bs with
  | nil => exact absurd rfl h
  | cons c cs => rfl

/-- The value of a number with one more digit below. -/
private theorem intValue_cons {b : Byte} {bs : List Byte} (h : bs ≠ []) :
    intValue (b :: bs) = digit b + 128 * intValue bs := by
  rw [intValue, intValue, natValue, negative_cons h, List.length_cons]
  split
  · push_cast
    ring
  · push_cast
    ring

theorem intValue_encodeInt (v : Int) : intValue (encodeInt v) = v := by
  fun_induction encodeInt v with
  | case1 v h =>
    have hlt : (v % 128).toNat < 128 := by omega
    have hsign : ∀ n < 128, (BitVec.ofNat 8 n).getLsbD 6 = decide (64 ≤ n) := by decide
    rw [intValue, natValue, natValue, negative, digit_low hlt, hsign _ hlt,
      List.length_singleton]
    split
    · next hneg =>
      have hneg := of_decide_eq_true hneg
      omega
    · next hpos =>
      have hpos : ¬ 64 ≤ (v % 128).toNat := fun hge ↦ hpos (decide_eq_true hge)
      omega
  | case2 v h ih =>
    rw [intValue_cons (encodeInt_ne_nil _), ih, digit_high (by omega)]
    omega

theorem length_encodeInt_le {v : Int} {k : Nat} (hlow : -64 * 128 ^ k ≤ v)
    (hhigh : v < 64 * 128 ^ k) : (encodeInt v).length ≤ k + 1 := by
  induction k generalizing v with
  | zero =>
    rw [encodeInt, if_pos (by omega)]
    exact Nat.le_refl _
  | succ k ih =>
    rw [encodeInt]
    split
    · rw [List.length_singleton]
      omega
    · have hpow : (128 : Int) ^ (k + 1) = 128 * 128 ^ k := by ring
      rw [hpow] at hlow hhigh
      have hrest : (encodeInt (v / 128)).length ≤ k + 1 := by
        apply ih
        · omega
        · omega
      rw [List.length_cons]
      omega

/-! ## Shortest encodings -/

/-- Some bytes are one unsigned number. -/
def EncodesNat (n : Nat) (bs : List Byte) : Prop := split bs = some (bs, []) ∧ natValue bs = n

/-- Some bytes are one signed number. -/
def EncodesInt (v : Int) (bs : List Byte) : Prop := split bs = some (bs, []) ∧ intValue bs = v

/-- There are no fewer bytes with a property. -/
def Shortest (P : List Byte → Prop) (bs : List Byte) : Prop :=
  P bs ∧ ∀ bs', P bs' → bs.length ≤ bs'.length

theorem encodesNat_encodeNat (n : Nat) : EncodesNat n (encodeNat n) := by
  have hsplit := split_encodeNat n []
  rw [List.append_nil] at hsplit
  exact ⟨hsplit, natValue_encodeNat n⟩

theorem encodesInt_encodeInt (v : Int) : EncodesInt v (encodeInt v) := by
  have hsplit := split_encodeInt v []
  rw [List.append_nil] at hsplit
  exact ⟨hsplit, intValue_encodeInt v⟩

theorem shortest_encodeNat (n : Nat) : Shortest (EncodesNat n) (encodeNat n) := by
  refine ⟨encodesNat_encodeNat n, ?_⟩
  rintro bs ⟨hsplit, rfl⟩
  exact length_encodeNat_le (split_eq_some hsplit).2 (natValue_lt bs)

/-- What the last byte bounds. -/
theorem intValue_bounds {bs : List Byte} (h : bs ≠ []) :
    -64 * 128 ^ (bs.length - 1) ≤ intValue bs ∧ intValue bs < 64 * 128 ^ (bs.length - 1) := by
  induction bs with
  | nil => exact absurd rfl h
  | cons b bs ih =>
    cases bs with
    | nil =>
      have key : ∀ b : Byte, -64 ≤ intValue [b] ∧ intValue [b] < 64 := by decide
      exact key b
    | cons c cs =>
      obtain ⟨hlow, hhigh⟩ := ih (List.cons_ne_nil c cs)
      have hdigit := digit_lt b
      have hpow : (128 : Int) ^ (b :: c :: cs).length.pred = 128 * 128 ^ cs.length := by
        rw [List.length_cons, List.length_cons, Nat.pred_succ]
        ring
      rw [List.length_cons, Nat.add_sub_cancel] at hlow hhigh
      rw [intValue_cons (List.cons_ne_nil c cs), ← Nat.pred_eq_sub_one, hpow]
      omega

theorem shortest_encodeInt (v : Int) : Shortest (EncodesInt v) (encodeInt v) := by
  refine ⟨encodesInt_encodeInt v, ?_⟩
  rintro bs ⟨hsplit, rfl⟩
  have hlen := (split_eq_some hsplit).2
  obtain ⟨hlow, hhigh⟩ := intValue_bounds (List.length_pos_iff.mp hlen)
  have hle := length_encodeInt_le hlow hhigh
  omega

/-! ## Numbers in memory -/

/-- The number at an address: the bytes up to one without the high bit, if it is among so many. -/
def take (mem : Memory) : Nat → BitVec 64 → Option (List Byte)
  | 0, _ => none
  | n + 1, p => if more (mem p) then (take mem n (p + 1#64)).map (mem p :: ·) else some [mem p]

variable {mem : Memory}

theorem length_pos_of_take {fuel : Nat} {p : BitVec 64} {x : List Byte}
    (h : take mem fuel p = some x) : 0 < x.length := by
  cases fuel with
  | zero => cases h
  | succ fuel =>
    rw [take] at h
    split at h
    · obtain ⟨x', -, rfl⟩ := Option.map_eq_some_iff.mp h
      exact Nat.succ_pos _
    · obtain rfl := Option.some.inj h
      exact Nat.one_pos

/-- A number that ends among the bytes at hand. -/
theorem take_of_split {n fuel : Nat} {p : BitVec 64} {x y : List Byte}
    (h : split (mem.read p n) = some (x, y)) (hfuel : x.length ≤ fuel) :
    take mem fuel p = some x := by
  induction n generalizing p x fuel with
  | zero => cases h
  | succ n ih =>
    have hpos := (split_eq_some h).2
    rw [Memory.read, split] at h
    cases fuel with
    | zero => omega
    | succ fuel =>
      rw [take]
      split at h
      · next hmore =>
        obtain ⟨⟨x', y'⟩, hsplit, heq⟩ := Option.map_eq_some_iff.mp h
        obtain ⟨rfl, rfl⟩ := Prod.mk.inj heq
        rw [if_pos hmore, ih hsplit (Nat.le_of_succ_le_succ hfuel)]
        rfl
      · next hmore =>
        obtain ⟨rfl, -⟩ := Prod.mk.inj (Option.some.inj h)
        rw [if_neg hmore]

/-- A number that does not end among them goes beyond them. -/
theorem lt_length_of_split {n fuel : Nat} {p : BitVec 64} {x : List Byte}
    (h : split (mem.read p n) = none) (htake : take mem fuel p = some x) : n < x.length := by
  induction n generalizing p x fuel with
  | zero =>
    cases fuel with
    | zero => cases htake
    | succ fuel =>
      rw [take] at htake
      split at htake
      · obtain ⟨x', -, rfl⟩ := Option.map_eq_some_iff.mp htake
        exact Nat.succ_pos _
      · obtain rfl := Option.some.inj htake
        exact Nat.one_pos
  | succ n ih =>
    rw [Memory.read, split] at h
    split at h
    · next hmore =>
      cases fuel with
      | zero => cases htake
      | succ fuel =>
        rw [take, if_pos hmore] at htake
        obtain ⟨x', hx', rfl⟩ := Option.map_eq_some_iff.mp htake
        exact Nat.succ_lt_succ (ih (Option.map_eq_none_iff.mp h) hx')
    · cases h

end Arm2x86.Leb128
