import Arm2x86.Translate.Constants
import Arm2x86.Translate.Block

/-!
# Addresses from the program counter

`translate_adr_adrp` (`modules/arm2x86_translate64.c:1094`) and `translate_ldr_literal` (`:2556`)
against the addresses the instructions name. The two fields of the immediate of `ADR` are not put
together, the one of `ADRP` is cut to 32 bits, and what is above two gigabytes does not get to its slot
alone.
-/

namespace Arm2x86.Translate

open X86

section Immediates

variable (op : BitVec 32)

/-- `immhi:immlo`. -/
def adrImm : BitVec 21 := op.extractLsb' 5 19 ++ op.extractLsb' 29 2

/-- The immediate as the translator puts it together. -/
def adrCodeImm : BitVec 64 :=
  (((op >>> 5) &&& 0x3#32) ||| ((op >>> 29) &&& 0x1c#32) ||| ((op >>> 3) &&& 0x1ffffe0#32)).setWidth 64

theorem getLsbD_adrImm {i : Nat} (h : i < 21) :
    (adrImm op).getLsbD i = if i < 2 then op.getLsbD (29 + i) else op.getLsbD (3 + i) := by
  rw [adrImm, BitVec.getLsbD_append]
  by_cases h2 : i < 2
  · simp [h2]
  · have h19 : i - 2 < 19 := by omega
    have hsum : 5 + (i - 2) = 3 + i := by omega
    simp [h2, h19, hsum]

/-- Above its five low bits the code's immediate is the instruction's. -/
theorem getLsbD_adrCodeImm {i : Nat} (h : i < 21) :
    (adrCodeImm op).getLsbD i =
      if 5 ≤ i then (adrImm op).getLsbD i
      else if i < 2 then op.getLsbD (5 + i) else decide (i = 2) && op.getLsbD 31 := by
  have key : ∀ i : Fin 21, (0x3#32).getLsbD i = decide (i.val < 2) ∧
      (0x1c#32).getLsbD i = decide (2 ≤ i.val ∧ i.val < 5) ∧
        (0x1ffffe0#32).getLsbD i = decide (5 ≤ i.val) := by
    decide
  obtain ⟨h3, h1c, hmask⟩ := key ⟨i, h⟩
  dsimp only at h3 h1c hmask
  have h64 : i < 64 := by omega
  rw [adrCodeImm, getLsbD_adrImm op h, BitVec.getLsbD_setWidth, BitVec.getLsbD_or, BitVec.getLsbD_or,
    BitVec.getLsbD_and, BitVec.getLsbD_and, BitVec.getLsbD_and, h3, h1c, hmask,
    BitVec.getLsbD_ushiftRight, BitVec.getLsbD_ushiftRight, BitVec.getLsbD_ushiftRight]
  by_cases h5 : 5 ≤ i
  · have h2 : ¬ i < 2 := by omega
    have hlow : ¬ i < 5 := by omega
    simp [h64, h5, h2, hlow]
  · by_cases h2 : i < 2
    · have hge : ¬ 2 ≤ i := by omega
      simp [h64, h5, h2, hge]
    · have hcases : i = 2 ∨ i = 3 ∨ i = 4 := by omega
      rcases hcases with rfl | rfl | rfl <;> simp

/-- The words whose immediate is put together right. -/
def AdrJoins : Prop := (adrImm op).extractLsb' 0 5 = if op.getLsbD 31 then 5#5 else 0#5

instance : Decidable (AdrJoins op) :=
  inferInstanceAs (Decidable ((adrImm op).extractLsb' 0 5 = if op.getLsbD 31 then 5#5 else 0#5))

private theorem eq_iff_five {n : Nat} (x y : BitVec n)
    (h : ∀ i < n, 5 ≤ i → x.getLsbD i = y.getLsbD i) :
    x = y ↔ x.getLsbD 0 = y.getLsbD 0 ∧ x.getLsbD 1 = y.getLsbD 1 ∧ x.getLsbD 2 = y.getLsbD 2 ∧
      x.getLsbD 3 = y.getLsbD 3 ∧ x.getLsbD 4 = y.getLsbD 4 := by
  constructor
  · rintro rfl
    exact ⟨rfl, rfl, rfl, rfl, rfl⟩
  · rintro ⟨h0, h1, h2, h3, h4⟩
    apply BitVec.eq_of_getLsbD_eq
    intro i hi
    by_cases h5 : 5 ≤ i
    · exact h i hi h5
    · have hcases : i = 0 ∨ i = 1 ∨ i = 2 ∨ i = 3 ∨ i = 4 := by omega
      rcases hcases with rfl | rfl | rfl | rfl | rfl
      · exact h0
      · exact h1
      · exact h2
      · exact h3
      · exact h4

theorem adrJoins_iff : (adrCodeImm op).setWidth 21 = adrImm op ↔ AdrJoins op := by
  have hset : ∀ i < 21, ((adrCodeImm op).setWidth 21).getLsbD i = (adrCodeImm op).getLsbD i := by
    intro i hi
    simp [hi]
  have hlow : ∀ i < 5, ((adrImm op).extractLsb' 0 5).getLsbD i = (adrImm op).getLsbD i := by
    intro i hi
    simp [hi]
  have hconst : ∀ b : Bool, ∀ i < 5, (if b then 5#5 else 0#5).getLsbD i = (b && (i == 0 || i == 2)) := by
    decide
  have hc : (adrCodeImm op).getLsbD 0 = op.getLsbD 5 ∧ (adrCodeImm op).getLsbD 1 = op.getLsbD 6 ∧
      (adrCodeImm op).getLsbD 2 = op.getLsbD 31 ∧ (adrCodeImm op).getLsbD 3 = false ∧
        (adrCodeImm op).getLsbD 4 = false :=
    ⟨getLsbD_adrCodeImm op (by decide), getLsbD_adrCodeImm op (by decide),
      getLsbD_adrCodeImm op (by decide), getLsbD_adrCodeImm op (by decide),
      getLsbD_adrCodeImm op (by decide)⟩
  have hi : (adrImm op).getLsbD 0 = op.getLsbD 29 ∧ (adrImm op).getLsbD 1 = op.getLsbD 30 ∧
      (adrImm op).getLsbD 2 = op.getLsbD 5 ∧ (adrImm op).getLsbD 3 = op.getLsbD 6 ∧
        (adrImm op).getLsbD 4 = op.getLsbD 7 :=
    ⟨getLsbD_adrImm op (by decide), getLsbD_adrImm op (by decide), getLsbD_adrImm op (by decide),
      getLsbD_adrImm op (by decide), getLsbD_adrImm op (by decide)⟩
  have habove : ∀ i < 21, 5 ≤ i →
      ((adrCodeImm op).setWidth 21).getLsbD i = (adrImm op).getLsbD i := by
    intro i hi h5
    rw [hset i hi, getLsbD_adrCodeImm op hi, if_pos h5]
  rw [AdrJoins, eq_iff_five _ _ habove, eq_iff_five _ _ fun i hi h5 ↦ absurd h5 (Nat.not_le.mpr hi)]
  simp only [hset 0 (by decide), hset 1 (by decide), hset 2 (by decide), hset 3 (by decide),
    hset 4 (by decide), hlow 0 (by decide), hlow 1 (by decide), hlow 2 (by decide), hlow 3 (by decide),
    hlow 4 (by decide), hc, hi, hconst _ 0 (by decide), hconst _ 1 (by decide), hconst _ 2 (by decide),
    hconst _ 3 (by decide), hconst _ 4 (by decide)]
  generalize op.getLsbD 5 = b5
  generalize op.getLsbD 6 = b6
  generalize op.getLsbD 7 = b7
  generalize op.getLsbD 29 = b29
  generalize op.getLsbD 30 = b30
  generalize op.getLsbD 31 = b31
  revert b5 b6 b7 b29 b30 b31
  decide

end Immediates

section Addresses

variable (pc : BitVec 64) (op : BitVec 32)

/-- What the instructions put to their destination. -/
def adrWanted (page : Bool) : BitVec 64 :=
  if page then (pc &&& ~~~ 0xfff#64) + (adrImm op).signExtend 64 <<< 12
  else pc + (adrImm op).signExtend 64

/-- What the translator computes. -/
def adrCodeAddr (page : Bool) : BitVec 64 :=
  let simm := if page then signExtend64 (adrCodeImm op <<< 12) 33 else signExtend64 (adrCodeImm op) 21
  let addr := pc + simm.signExtend 64
  if page then addr &&& ~~~ 0xfff else addr

theorem translateAdrAdrp_eq : translateAdrAdrp pc op =
    movSlot [rexRm 0 0, 0x48] (armReg op 0) (adrCodeAddr pc op (maskEq op 0x9f000000 0x90000000)) := rfl

theorem eq_of_signExtend {n : Nat} (hn : n ≤ 64) {x y : BitVec n}
    (h : x.signExtend 64 = y.signExtend 64) : x = y := by
  apply BitVec.eq_of_toInt_eq
  rw [← BitVec.toInt_signExtend_of_le hn, h, BitVec.toInt_signExtend_of_le hn]

/-- `arm2x86_sign_extend` bit by bit. -/
theorem getLsbD_signExtend64 (x : BitVec 64) {bits i : Nat} (hpos : 0 < bits) (hbits : bits ≤ 64)
    (hi : i < 32) :
    (signExtend64 x bits).getLsbD i = if i < bits then x.getLsbD i else x.getLsbD (bits - 1) := by
  have h64 : i < 64 := by omega
  have hge : ¬ 64 ≤ i := by omega
  rw [signExtend64, BitVec.getLsbD_setWidth, BitVec.getLsbD_sshiftRight]
  by_cases hlt : i < bits
  · have hin : 64 - bits + i < 64 := by omega
    have hsub : ¬ 64 - bits + i < 64 - bits := by omega
    simp [hi, h64, hlt, hin, hge, hsub]
  · have hin : ¬ 64 - bits + i < 64 := by omega
    have hmsb : (x <<< (64 - bits)).msb = x.getLsbD (bits - 1) := by
      have hsub : ¬ 63 < 64 - bits := by omega
      have hidx : 63 - (64 - bits) = bits - 1 := by omega
      rw [BitVec.msb_eq_getLsbD_last, BitVec.getLsbD_shiftLeft]
      simp [hsub, hidx]
    simp [hi, hlt, hin, hge, hmsb]

/-- Of a field of up to 32 bits nothing is lost. -/
theorem signExtend_signExtend64 (x : BitVec 64) :
    (signExtend64 x 21).signExtend 64 = (x.setWidth 21).signExtend 64 := by
  have hbit : ∀ i < 32, (signExtend64 x 21).getLsbD i = if i < 21 then x.getLsbD i else x.getLsbD 20 :=
    fun i hi ↦ getLsbD_signExtend64 x (by decide) (by decide) hi
  apply BitVec.eq_of_getLsbD_eq
  intro i hi
  have hmsb : (signExtend64 x 21).msb = x.getLsbD 20 := by
    rw [BitVec.msb_eq_getLsbD_last, hbit 31 (by decide)]
    rfl
  have hmsb' : (x.setWidth 21).msb = x.getLsbD 20 := by
    rw [BitVec.msb_eq_getLsbD_last, BitVec.getLsbD_setWidth]
    rfl
  rw [BitVec.getLsbD_signExtend, BitVec.getLsbD_signExtend, hmsb, hmsb', BitVec.getLsbD_setWidth]
  by_cases h32 : i < 32
  · rw [hbit i h32]
    by_cases h21 : i < 21 <;> simp [h32, h21]
  · have h21 : ¬ i < 21 := by omega
    simp [h32, h21]

theorem adrCodeAddr_iff : adrCodeAddr pc op false = adrWanted pc op false ↔ AdrJoins op := by
  have haddr : adrCodeAddr pc op false = pc + (signExtend64 (adrCodeImm op) 21).signExtend 64 := rfl
  have hwant : adrWanted pc op false = pc + (adrImm op).signExtend 64 := rfl
  rw [haddr, hwant, signExtend_signExtend64, ← adrJoins_iff]
  constructor
  · intro h
    exact eq_of_signExtend (by decide) (add_left_cancel h)
  · intro h
    rw [h]

/-- The 33 bits of a page offset are cut to 32. -/
theorem signExtend64_page (x : BitVec 64) : signExtend64 x 33 = x.setWidth 32 := by
  apply BitVec.eq_of_getLsbD_eq
  intro i hi
  have h33 : i < 33 := by omega
  rw [getLsbD_signExtend64 x (by decide) (by decide) hi, if_pos h33, BitVec.getLsbD_setWidth,
    decide_eq_true hi, Bool.true_and]

theorem page_add (a : BitVec 64) {b : BitVec 64} (hb : b &&& 0xfff#64 = 0) :
    (a + b) &&& ~~~ 0xfff#64 = (a &&& ~~~ 0xfff#64) + b := by
  have hmask : ∀ x : BitVec 64, (x &&& ~~~ 0xfff#64).toNat = x.toNat / 4096 * 4096 :=
    fun x ↦ toNat_and_not_mask x 12
  have hlow : b.toNat % 4096 = 0 := by
    have hzero := congrArg BitVec.toNat hb
    rw [BitVec.toNat_and] at hzero
    have hmod := Nat.and_two_pow_sub_one_eq_mod b.toNat 12
    exact hmod.symm.trans hzero
  apply BitVec.eq_of_toNat_eq
  rw [hmask, BitVec.toNat_add, BitVec.toNat_add, hmask]
  omega

/-- The upper half of a sign. -/
def upper (b : Bool) : BitVec 32 := if b then BitVec.allOnes 32 else 0

theorem getLsbD_upper (b : Bool) {i : Nat} (h : i < 32) : (upper b).getLsbD i = b := by
  cases b with
  | true =>
    rw [upper, if_pos rfl, BitVec.getLsbD_allOnes, decide_eq_true h]
  | false => simp [upper]

theorem signExtend_eq_append (x : BitVec 32) : x.signExtend 64 = (upper x.msb ++ x : BitVec 64) := by
  apply BitVec.eq_of_getLsbD_eq
  intro i hi
  rw [BitVec.getLsbD_signExtend, BitVec.getLsbD_append]
  by_cases h32 : i < 32
  · simp [h32, hi]
  · simp [h32, hi, getLsbD_upper x.msb (i := i - 32) (by omega)]

/-- The low half of a page offset. -/
def adrPageLow : BitVec 32 := (adrImm op).setWidth 32 <<< 12

theorem adrPageLow_msb : (adrPageLow op).msb = (adrImm op).getLsbD 19 := by
  rw [BitVec.msb_eq_getLsbD_last, adrPageLow, BitVec.getLsbD_shiftLeft, BitVec.getLsbD_setWidth]
  rfl

theorem pageOffset_eq : (adrImm op).signExtend 64 <<< 12 =
    (upper ((adrImm op).getLsbD 20) ++ adrPageLow op : BitVec 64) := by
  apply BitVec.eq_of_getLsbD_eq
  intro i hi
  have hmsb : (adrImm op).msb = (adrImm op).getLsbD 20 := BitVec.msb_eq_getLsbD_last _
  have hin : i - 12 < 64 := by omega
  rw [BitVec.getLsbD_shiftLeft, BitVec.getLsbD_signExtend, hmsb, BitVec.getLsbD_append, adrPageLow,
    BitVec.getLsbD_shiftLeft, BitVec.getLsbD_setWidth]
  by_cases h32 : i < 32
  · have h21 : i - 12 < 21 := by omega
    have hlow : i - 12 < 32 := by omega
    simp [h32, h21, hi, hin, hlow]
  · have h12 : ¬ i < 12 := by omega
    rw [if_neg h32, getLsbD_upper _ (by omega)]
    by_cases h33 : i = 32
    · subst h33
      rfl
    · have h21 : ¬ i - 12 < 21 := by omega
      simp [h12, h21, hi, hin]

/-- The code's low half is right where the immediate is. -/
theorem codePageLow_iff : (adrCodeImm op <<< 12).setWidth 32 = adrPageLow op ↔ AdrJoins op := by
  have hsign : (adrCodeImm op).getLsbD 20 = (adrImm op).getLsbD 20 := getLsbD_adrCodeImm op (by decide)
  have hcode : ∀ k < 20, ((adrCodeImm op <<< 12).setWidth 32).getLsbD (k + 12) = (adrCodeImm op).getLsbD k := by
    intro k hk
    have h32 : k + 12 < 32 := by omega
    simp [h32]
  have hlow : ∀ k < 20, (adrPageLow op).getLsbD (k + 12) = (adrImm op).getLsbD k := by
    intro k hk
    have h32 : k + 12 < 32 := by omega
    simp [adrPageLow, h32]
  rw [← adrJoins_iff]
  constructor
  · intro h
    apply BitVec.eq_of_getLsbD_eq
    intro k hk
    rw [BitVec.getLsbD_setWidth, decide_eq_true hk, Bool.true_and]
    by_cases h20 : k < 20
    · rw [← hcode k h20, ← hlow k h20, h]
    · obtain rfl : k = 20 := by omega
      exact hsign
  · intro h
    apply BitVec.eq_of_getLsbD_eq
    intro i hi
    by_cases h12 : i < 12
    · simp [adrPageLow, h12]
    · obtain ⟨k, rfl⟩ : ∃ k, i = k + 12 := ⟨i - 12, by omega⟩
      have hk := congrArg (BitVec.getLsbD · k) h
      have hk21 : k < 21 := by omega
      rw [hcode k (by omega), hlow k (by omega), ← hk, BitVec.getLsbD_setWidth, decide_eq_true hk21,
        Bool.true_and]

theorem adrpWanted_eq : adrWanted pc op true =
    (pc &&& ~~~ 0xfff#64) + (upper ((adrImm op).getLsbD 20) ++ adrPageLow op : BitVec 64) := by
  rw [← pageOffset_eq]
  rfl

theorem adrpCodeAddr_eq : adrCodeAddr pc op true = (pc &&& ~~~ 0xfff#64) +
    (upper ((adrCodeImm op <<< 12).setWidth 32).msb ++ (adrCodeImm op <<< 12).setWidth 32 : BitVec 64) := by
  have haddr : adrCodeAddr pc op true =
      (pc + (signExtend64 (adrCodeImm op <<< 12) 33).signExtend 64) &&& ~~~ 0xfff#64 := rfl
  have hzero : ((adrCodeImm op <<< 12).setWidth 32).signExtend 64 &&& 0xfff#64 = 0 := by
    have hkey : ∀ i : Fin 64, (0xfff#64).getLsbD i = decide (i.val < 12) := by decide
    apply BitVec.eq_of_getLsbD_eq
    intro i hi
    have hbit := hkey ⟨i, hi⟩
    dsimp only at hbit
    rw [BitVec.getLsbD_and, hbit, BitVec.getLsbD_signExtend]
    by_cases h12 : i < 12
    · have h32 : i < 32 := by omega
      simp [h12, h32]
    · simp [h12]
  rw [haddr, signExtend64_page, page_add _ hzero, signExtend_eq_append]

/-- A word and an instruction address with which the code gets the address to the slot. -/
def AdrMatches (page : Bool) : Prop :=
  AdrJoins op ∧
    if page = true ∧ (adrImm op).getLsbD 20 ≠ (adrImm op).getLsbD 19 then
      (adrImm op).getLsbD 20 = true ∧ 0xffffffff80000000 ≤ adrWanted pc op page
    else adrWanted pc op page < 0x80000000

/-- What two constants with the same low half come to. -/
private theorem constant_iff {c want : BitVec 64} (h : c = want) :
    hi32 c = 0 ∧ (lo32 c).signExtend 64 = want ↔ want < 0x80000000 := by
  subst h
  constructor
  · rintro ⟨hhi, hlow⟩
    exact (signExtend_lo32_iff hhi).mp hlow
  · intro hlt
    have hhi : hi32 c = 0 := (hi32_eq_zero_iff c).mpr (BitVec.lt_trans hlt (by decide))
    exact ⟨hhi, (signExtend_lo32_iff hhi).mpr hlt⟩

private theorem toNat_signExtend_lo32 {c : BitVec 64} (h : hi32 c = 0) :
    ((lo32 c).signExtend 64).toNat =
      if c.toNat < 2 ^ 31 then c.toNat else c.toNat + (2 ^ 64 - 2 ^ 32) := by
  have hlt := (hi32_eq_zero_iff c).mp h
  have hbound : (0x100000000 : BitVec 64).toNat = 2 ^ 32 := rfl
  have hlow : (lo32 c).toNat = c.toNat := by
    rw [BitVec.lt_def, hbound] at hlt
    rw [lo32, BitVec.toNat_setWidth, Nat.mod_eq_of_lt hlt]
  rw [BitVec.lt_def, hbound] at hlt
  rw [BitVec.toNat_signExtend, BitVec.toNat_setWidth, BitVec.msb_eq_decide, hlow,
    Nat.mod_eq_of_lt c.isLt]
  simp only [decide_eq_true_eq]
  split <;> split <;> omega

/-- Four gigabytes below: the sign-extension comes to it again. -/
private theorem constant_below_iff {c want : BitVec 64} (h : c = want + 0x100000000) :
    hi32 c = 0 ∧ (lo32 c).signExtend 64 = want ↔ 0xffffffff80000000 ≤ want := by
  have hbound : (0x100000000 : BitVec 64).toNat = 2 ^ 32 := rfl
  have htop : (0xffffffff80000000 : BitVec 64).toNat = 2 ^ 64 - 2 ^ 31 := rfl
  have hsum : c.toNat = (want.toNat + 2 ^ 32) % 2 ^ 64 := by
    rw [h, BitVec.toNat_add, hbound]
  have hwant := want.isLt
  rw [BitVec.le_def, htop]
  constructor
  · rintro ⟨hhi, hlow⟩
    have hnat := congrArg BitVec.toNat hlow
    rw [toNat_signExtend_lo32 hhi] at hnat
    split at hnat <;> omega
  · intro hge
    have hhi : hi32 c = 0 := by
      rw [hi32_eq_zero_iff, BitVec.lt_def, hbound]
      omega
    apply And.intro hhi
    apply BitVec.eq_of_toNat_eq
    rw [toNat_signExtend_lo32 hhi]
    split <;> omega

/-- And above it does not. -/
private theorem constant_above {c want : BitVec 64} (h : want = c + 0x100000000) :
    ¬ (hi32 c = 0 ∧ (lo32 c).signExtend 64 = want) := by
  have hbound : (0x100000000 : BitVec 64).toNat = 2 ^ 32 := rfl
  rintro ⟨hhi, hlow⟩
  have hlt := (hi32_eq_zero_iff c).mp hhi
  have hnat := congrArg BitVec.toNat hlow
  rw [toNat_signExtend_lo32 hhi, h, BitVec.toNat_add, hbound] at hnat
  rw [BitVec.lt_def, hbound] at hlt
  split at hnat <;> omega

private theorem getLsbD_lo32_signExtend {n : Nat} (x : BitVec n) {k : Nat} (hk : k < n) (h32 : k < 32) :
    (lo32 (x.signExtend 64)).getLsbD k = x.getLsbD k := by
  have h64 : k < 64 := by omega
  rw [lo32, BitVec.getLsbD_setWidth, decide_eq_true h32, Bool.true_and, BitVec.getLsbD_signExtend,
    decide_eq_true h64, Bool.true_and, if_pos hk]

private theorem lo32_signExtend (x : BitVec 32) : lo32 (x.signExtend 64) = x := by
  apply BitVec.eq_of_getLsbD_eq
  intro i hi
  exact getLsbD_lo32_signExtend x hi hi

private theorem lo32_add (a b : BitVec 64) : lo32 (a + b) = lo32 a + lo32 b :=
  BitVec.setWidth_add a b (by decide)

private theorem lo32_append (x y : BitVec 32) : lo32 (x ++ y : BitVec 64) = y :=
  BitVec.setWidth_append_eq_right

private theorem upper_add (x : BitVec 32) :
    (upper false ++ x : BitVec 64) = (upper true ++ x : BitVec 64) + 0x100000000 := by
  have hnat : ∀ y : BitVec 32, (y ++ x : BitVec 64).toNat = y.toNat * 2 ^ 32 + x.toNat := by
    intro y
    rw [BitVec.toNat_append, ← Nat.shiftLeft_add_eq_or_of_lt x.isLt, Nat.shiftLeft_eq]
  have hbound : (0x100000000 : BitVec 64).toNat = 2 ^ 32 := rfl
  have hzero : (upper false).toNat = 0 := rfl
  have hones : (upper true).toNat = 2 ^ 32 - 1 := by decide
  have hx := x.isLt
  apply BitVec.eq_of_toNat_eq
  rw [BitVec.toNat_add, hnat, hnat, hbound, hzero, hones]
  omega

theorem adr_iff (page : Bool) : hi32 (adrCodeAddr pc op page) = 0 ∧
    (lo32 (adrCodeAddr pc op page)).signExtend 64 = adrWanted pc op page ↔ AdrMatches pc op page := by
  rw [AdrMatches]
  cases page with
  | false =>
    rw [if_neg fun h ↦ Bool.noConfusion h.1]
    by_cases hjoin : AdrJoins op
    · rw [constant_iff ((adrCodeAddr_iff pc op).mpr hjoin)]
      exact ⟨fun h ↦ ⟨hjoin, h⟩, fun h ↦ h.2⟩
    · apply iff_of_false
      · rintro ⟨-, h⟩
        have hwant : adrWanted pc op false = pc + (adrImm op).signExtend 64 := rfl
        have hcode : adrCodeAddr pc op false =
            pc + ((adrCodeImm op).setWidth 21).signExtend 64 := by
          rw [← signExtend_signExtend64]
          rfl
        have hlow := congrArg lo32 h
        rw [lo32_signExtend, hcode, hwant, lo32_add, lo32_add] at hlow
        have hsame := add_left_cancel hlow
        apply hjoin
        rw [← adrJoins_iff]
        apply BitVec.eq_of_getLsbD_eq
        intro k hk
        have h32 : k < 32 := by omega
        rw [← getLsbD_lo32_signExtend _ hk h32, hsame, getLsbD_lo32_signExtend _ hk h32]
      · exact fun h ↦ hjoin h.1
  | true =>
    by_cases hjoin : AdrJoins op
    · have hlow := (codePageLow_iff op).mpr hjoin
      have hcode : adrCodeAddr pc op true = (pc &&& ~~~ 0xfff#64) +
          (upper ((adrImm op).getLsbD 19) ++ adrPageLow op : BitVec 64) := by
        rw [adrpCodeAddr_eq, hlow, adrPageLow_msb]
      have hwant := adrpWanted_eq pc op
      generalize (adrImm op).getLsbD 20 = b20 at hwant ⊢
      generalize (adrImm op).getLsbD 19 = b19 at hcode ⊢
      by_cases hfits : b20 = b19
      · rw [if_neg fun h ↦ h.2 hfits, constant_iff (by rw [hcode, hwant, hfits])]
        exact ⟨fun h ↦ ⟨hjoin, h⟩, fun h ↦ h.2⟩
      · rw [if_pos ⟨rfl, hfits⟩]
        cases b20 with
        | true =>
          obtain rfl : b19 = false := by simpa using hfits
          have hbelow : adrCodeAddr pc op true = adrWanted pc op true + 0x100000000 := by
            rw [hcode, hwant, upper_add, BitVec.add_assoc]
          rw [constant_below_iff hbelow]
          exact ⟨fun h ↦ ⟨hjoin, rfl, h⟩, fun h ↦ h.2.2⟩
        | false =>
          obtain rfl : b19 = true := by simpa using hfits
          have habove : adrWanted pc op true = adrCodeAddr pc op true + 0x100000000 := by
            rw [hcode, hwant, upper_add, BitVec.add_assoc]
          exact iff_of_false (constant_above habove) fun h ↦ Bool.noConfusion h.2.1
    · apply iff_of_false
      · rintro ⟨-, h⟩
        have hlow := congrArg lo32 h
        rw [lo32_signExtend, adrpCodeAddr_eq, adrpWanted_eq, lo32_add, lo32_add, lo32_append,
          lo32_append] at hlow
        exact hjoin ((codePageLow_iff op).mp (add_left_cancel hlow))
      · exact fun h ↦ hjoin h.1

end Addresses

section Literals

variable (undef : Instr → Machine → Status) (rest : Instr → Machine → Option Machine)
variable (pc : BitVec 64) (op : BitVec 32)

/-- The address of the literal. -/
def literalAddr : BitVec 64 := pc + (op.extractLsb' 5 19).signExtend 64 <<< 2

/-- The translator reads a bit more of the immediate and does not use it. -/
theorem literalAddr_eq : pc + (signExtend64 (fieldAt op 5 20 <<< 2) 21).signExtend 64 = literalAddr pc op := by
  rw [literalAddr, signExtend_signExtend64]
  have heq : ((fieldAt op 5 20 <<< 2).setWidth 21).signExtend 64 =
      (op.extractLsb' 5 19).signExtend 64 <<< 2 := by
    have hmsb : ((fieldAt op 5 20 <<< 2).setWidth 21).msb = op.getLsbD 23 := by
      rw [BitVec.msb_eq_getLsbD_last, BitVec.getLsbD_setWidth, BitVec.getLsbD_shiftLeft, fieldAt,
        BitVec.getLsbD_setWidth, BitVec.getLsbD_extractLsb']
      rfl
    have hmsb' : (op.extractLsb' 5 19).msb = op.getLsbD 23 := by
      rw [BitVec.msb_eq_getLsbD_last, BitVec.getLsbD_extractLsb']
      rfl
    apply BitVec.eq_of_getLsbD_eq
    intro i hi
    rw [BitVec.getLsbD_signExtend, hmsb, BitVec.getLsbD_shiftLeft, BitVec.getLsbD_signExtend, hmsb',
      BitVec.getLsbD_setWidth, BitVec.getLsbD_shiftLeft, fieldAt, BitVec.getLsbD_setWidth,
      BitVec.getLsbD_extractLsb', BitVec.getLsbD_extractLsb']
    have hin : i - 2 < 64 := by omega
    by_cases h21 : i < 21
    · by_cases h2 : i < 2
      · simp [h2, h21]
      · have h19 : i - 2 < 19 := by omega
        have h20 : i - 2 < 20 := by omega
        simp [h21, h2, h19, h20, hi, hin]
    · have h2 : ¬ i < 2 := by omega
      have h19 : ¬ i - 2 < 19 := by omega
      simp [h21, h2, h19, hi, hin]
  rw [heq]

/-- The literal, at its width, gets to its register. -/
def LoadsLiteral (sem : Semantics) (code : List Code) (addr : BitVec 64) (w : Bool) (rt : ArmReg) : Prop :=
  ∀ m slots bs, m.pos = 0 → Slots m slots → m.load addr (widthBytes w) = some bs →
    Reaches sem code.flatten m fun m' ↦ m'.pos = code.flatten.length ∧
      ∃ slots', Slots m' slots' ∧ SetsLow w slots rt (Machine.value bs) slots'

/-- The load goes to the register that `R11` is without its prefix. -/
theorem reaches_literal {m : Machine} {bs : List Byte} {w : Bool} {addr : BitVec 64} {tail : List Code}
    {Q : Machine → Prop} (hpos : m.pos = 0) (hload : m.load addr (widthBytes w) = some bs) :
    let code := movR64Imm rax addr ::
      ((if w then [rexR 1 (r11 >>> 3)] else []) ++ [0x8b, modrm 0 (r11 &&& 7) (rax &&& 7)]) :: tail
    let m₂ : Machine :=
      { (m.setReg 0 addr).setReg 3 (cut w (Machine.value bs)) with pos := if w then 13 else 12 }
    Reaches (Semantics.core undef rest) code.flatten m₂ Q →
      Reaches (Semantics.core undef rest) code.flatten m Q := by
  intro code m₂ hq
  let frag : Code := (if w then [rexR 1 (r11 >>> 3)] else []) ++ [0x8b, modrm 0 (r11 &&& 7) (rax &&& 7)]
  have hdec : ∀ tail, X86.decode (frag ++ tail) =
      some (.mov (opSizeOf w) (.reg 3) (.mem (some 0) none 0), tail) := by
    cases w <;> exact fun _ ↦ decode_prefixes rfl rfl
  have hat : At code.flatten m.pos (movR64Imm rax addr ++ (frag ++ tail.flatten)) := by
    rw [hpos]
    exact at_self _
  have hmov : (Semantics.core undef rest).step code.flatten m =
      some ({ m with pos := m.pos + (movR64Imm rax addr).length }.setReg 0 addr) :=
    Semantics.step_chunk ⟨_, _, decode_movR64Imm (by decide) addr⟩ hat.left
  apply reaches_of_step hmov
  let m₁ : Machine := { m with pos := m.pos + (movR64Imm rax addr).length }.setReg 0 addr
  have hat₁ : At code.flatten m₁.pos frag := hat.right.left
  have hlen : m₁.pos + frag.length = if w then 13 else 12 := by
    show m.pos + 10 + frag.length = _
    rw [hpos]
    cases w <;> rfl
  have hread : Machine.read { m₁ with pos := m₁.pos + frag.length } (opSizeOf w) (.mem (some 0) none 0) =
      some (Machine.value bs) := by
    have haddr : Machine.address { m₁ with pos := m₁.pos + frag.length } (.mem (some 0) none 0) =
        some addr := by
      have hsum : addr + 0 + 0 = addr := by simp
      exact congrArg some hsum
    have hbytes : Machine.read { m₁ with pos := m₁.pos + frag.length } (opSizeOf w)
        (.mem (some 0) none 0) =
          (Machine.address { m₁ with pos := m₁.pos + frag.length } (.mem (some 0) none 0)).bind
            fun a ↦ (m.load a (widthBytes w)).bind fun bs ↦ some (Machine.value bs) := by
      cases w <;> rfl
    rw [hbytes, haddr, Option.bind_some, hload, Option.bind_some]
  have hstep : (Semantics.core undef rest).step code.flatten m₁ = some m₂ := by
    rw [Semantics.step_chunk ⟨_, _, hdec⟩ hat₁]
    refine (core_mov w _ _ _).trans ?_
    rw [movAt, hread, Option.bind_some, write_reg, hlen]
    rfl
  exact reaches_of_step hstep hq

/-- A slot, as a literal. -/
private theorem exists_load_slot {m : Machine} {slots : ArmReg → BitVec 64} (hm : Slots m slots) (w : Bool)
    (r : ArmReg) : ∃ bs, m.load (slotAddr (m.regs 5) r) (widthBytes w) = some bs ∧
      Machine.value bs = cut w (slots r) := by
  have hread : m.read (opSizeOf w) (.mem (some 5) none (BitVec.ofNat 64 (8 * r))) =
      (m.address (.mem (some 5) none (BitVec.ofNat 64 (8 * r)))).bind
        fun a ↦ (m.load a (widthBytes w)).bind fun bs ↦ some (Machine.value bs) := by
    cases w <;> rfl
  have hslot := read_slot w (hm r)
  rw [hread, address_slot, Option.bind_some, Option.bind_eq_some_iff] at hslot
  obtain ⟨bs, hload, hvalue⟩ := hslot
  exact ⟨bs, hload, Option.some.inj hvalue⟩

/-- The register is stored at 32 bits through `RBP`. -/
theorem reaches_literal_word {m : Machine} {slots : ArmReg → BitVec 64} {bs : List Byte}
    {addr : BitVec 64} (rt : ArmReg) (hpos : m.pos = 0) (hm : Slots m slots)
    (hload : m.load addr (widthBytes false) = some bs) :
    let code := [movR64Imm rax addr, [0x8b, modrm 0 (r11 &&& 7) (rax &&& 7)], emitStoreArmReg r11 rt false]
    Reaches (Semantics.core undef rest) code.flatten m fun m' ↦ m'.pos = code.flatten.length ∧
      Slots m' (Function.update slots rt (merge false (slots rt) (Machine.value bs))) := by
  intro code
  let m₂ : Machine :=
    { (m.setReg 0 addr).setReg 3 (cut false (Machine.value bs)) with pos := 12 }
  have hm₂ : Slots m₂ slots := ((hm.setReg (by decide) addr).setReg (by decide) _).at 12
  have hat : At code.flatten m₂.pos (emitStoreArmReg r11 rt false) := List.prefix_append _ _
  have hnamed : cut false (m₂.regs (gpr false (r11.setWidth 3))) = cut false (Machine.value bs) :=
    cut_cut false _
  have hstored := hm₂.store rt false (cut false (Machine.value bs))
    (12 + (emitStoreArmReg r11 rt false).length)
  rw [merge_cut] at hstored
  apply reaches_literal undef rest hpos hload
  apply reaches_of_step (step_store_slot rfl hat (hm₂ rt))
  apply reaches_here
  apply And.intro rfl
  rw [hnamed]
  exact hstored

theorem loadsLiteral_word_iff (addr : BitVec 64) (rt : ArmReg) :
    LoadsLiteral (Semantics.core undef rest)
        [movR64Imm rax addr, [0x8b, modrm 0 (r11 &&& 7) (rax &&& 7)], emitStoreArmReg r11 rt false]
        addr false rt ↔ rt ≠ 31 := by
  constructor
  · rintro h rfl
    let slots : ArmReg → BitVec 64 := fun r ↦ if r = 31 then 1 else 0
    have hm : Slots (homeMachine addr slots (fun _ ↦ 0) (.ofBits 0)) slots := slots_homeMachine
    obtain ⟨bs, hload, hvalue⟩ := exists_load_slot hm false 0
    have haddr : slotAddr ((homeMachine addr slots (fun _ ↦ 0) (.ofBits 0)).regs 5) 0 = addr :=
      BitVec.add_zero addr
    rw [haddr] at hload
    obtain ⟨m₁, hrun₁, hpos₁, slots₁, hslots₁, hset⟩ := h _ _ bs rfl hm hload
    obtain ⟨m₂, hrun₂, hpos₂, hslots₂⟩ := reaches_literal_word undef rest 31 rfl hm hload
    rw [Semantics.runs_end_unique hrun₂ hpos₂ hrun₁ hpos₁] at hslots₁
    have hsame := hslots₁.unique hslots₂
    rw [hsame, setsLow_update_iff, hvalue] at hset
    exact absurd hset (by decide)
  · intro h31 m slots bs hpos hm hload
    apply (reaches_literal_word undef rest rt hpos hm hload).mono
    rintro m' ⟨hpos', hslots⟩
    refine ⟨hpos', _, hslots, ?_⟩
    rw [setsLow_update_iff, if_neg h31]

/-- At 64 bits it is stored through `R13`. -/
theorem not_loadsLiteral_long (addr : BitVec 64) (rt : ArmReg) :
    ¬ LoadsLiteral (Semantics.core undef rest)
        [movR64Imm rax addr, [rexR 1 (r11 >>> 3)] ++ [0x8b, modrm 0 (r11 &&& 7) (rax &&& 7)],
          emitStoreArmReg r11 rt true] addr true rt := by
  intro h
  let code := [movR64Imm rax addr, [rexR 1 (r11 >>> 3)] ++ [0x8b, modrm 0 (r11 &&& 7) (rax &&& 7)],
    emitStoreArmReg r11 rt true]
  let m := homeMachine addr (fun _ ↦ 0) (fun _ ↦ addr + BitVec.ofNat 64 256) (.ofBits 0)
  have hm : Slots m fun _ ↦ 0 := slots_homeMachine
  obtain ⟨bs, hload, -⟩ := exists_load_slot hm true 0
  have haddr : slotAddr (m.regs 5) 0 = addr := BitVec.add_zero addr
  rw [haddr] at hload
  have hreach : Reaches (Semantics.core undef rest) code.flatten m (· =
      { (m.setReg 0 addr).setReg 3 (cut true (Machine.value bs)) with pos := 13 }) :=
    reaches_literal undef rest rfl hload (reaches_here rfl)
  obtain ⟨m₂, hrun, rfl⟩ := hreach
  have hat : At code.flatten 13 (emitStoreArmReg r11 rt true) := List.prefix_append _ _
  have hout : slotAddr (addr + BitVec.ofNat 64 256) rt ∉ homeRegion addr := by
    have hr := rt.isLt
    rw [Region.mem_iff, homeRegion, slotAddr, BitVec.add_assoc, BitVec.add_comm, BitVec.add_sub_cancel,
      ← BitVec.ofNat_add, BitVec.toNat_ofNat]
    dsimp only
    omega
  have hmem : homeMem addr (fun _ ↦ 0) (slotAddr (addr + BitVec.ofNat 64 256) rt) = none :=
    homeMem_of_notMem hout
  apply not_reaches_end hrun _ _ (h m _ bs rfl hm hload)
  · exact step_store_unmapped (by decide) hat hmem
  · obtain ⟨b, bs', hstore⟩ : ∃ b bs, emitStoreArmReg r11 rt true = b :: bs := ⟨_, _, rfl⟩
    rw [hstore] at hat
    exact Nat.ne_of_lt hat.pos_lt

end Literals

section Results

/-- The three instructions. -/
inductive PcRelative where
  | adr
  | adrp
  | ldrLiteral
deriving DecidableEq, Repr

/-- The instruction of a word. -/
def pcRelative (op : BitVec 32) : Option PcRelative :=
  if maskEq op 0x9f000000 0x10000000 then some .adr
  else if maskEq op 0x9f000000 0x90000000 then some .adrp
  else if maskEq op 0xbf000000 0x18000000 then some .ldrLiteral
  else none

/-- The address, or what is there, gets to the register, and nothing to another. -/
def Addresses (sem : Semantics) (pc : BitVec 64) (op : BitVec 32) : PcRelative → Prop
  | .adr => LeavesRegs sem (translateAdrAdrp pc op) (fun _ _ ↦ True)
      fun slots slots' _ ↦ SetsReg true slots (armReg op 0) (adrWanted pc op false) slots'
  | .adrp => LeavesRegs sem (translateAdrAdrp pc op) (fun _ _ ↦ True)
      fun slots slots' _ ↦ SetsReg true slots (armReg op 0) (adrWanted pc op true) slots'
  | .ldrLiteral => LoadsLiteral sem (translateLdrLiteral pc op) (literalAddr pc op) (op.getLsbD 30)
      (armReg op 0)

/-- The words and the instruction addresses for which they do. -/
def AddressMatches (pc : BitVec 64) (op : BitVec 32) : PcRelative → Prop
  | .adr => armReg op 0 ≠ 31 ∧ AdrMatches pc op false
  | .adrp => armReg op 0 ≠ 31 ∧ AdrMatches pc op true
  | .ldrLiteral => armReg op 0 ≠ 31 ∧ op.getLsbD 30 = false

variable (undef : Instr → Machine → Status) (rest : Instr → Machine → Option Machine)
variable (pc : BitVec 64) (op : BitVec 32)

private theorem adrAdrp_iff (page : Bool) (h : maskEq op 0x9f000000 0x90000000 = page) :
    LeavesRegs (Semantics.core undef rest) (translateAdrAdrp pc op) (fun _ _ ↦ True)
        (fun slots slots' _ ↦ SetsReg true slots (armReg op 0) (adrWanted pc op page) slots') ↔
      armReg op 0 ≠ 31 ∧ AdrMatches pc op page := by
  rw [translateAdrAdrp_eq, h, leavesRegs_movSlot_iff, adr_iff]

theorem pcRelative_iff {k : PcRelative} (h : pcRelative op = some k) :
    Addresses (Semantics.core undef rest) pc op k ↔ AddressMatches pc op k := by
  rw [pcRelative] at h
  split at h
  · next hadr =>
    obtain rfl := Option.some.inj h
    have hpage : maskEq op 0x9f000000 0x90000000 = false := by
      rw [maskEq, beq_iff_eq] at hadr
      rw [maskEq, hadr]
      rfl
    exact adrAdrp_iff undef rest pc op false hpage
  · split at h
    · next hadrp =>
      obtain rfl := Option.some.inj h
      exact adrAdrp_iff undef rest pc op true hadrp
    · split at h
      · obtain rfl := Option.some.inj h
        show LoadsLiteral _ (translateLdrLiteral pc op) _ _ _ ↔ _ ∧ _
        rw [translateLdrLiteral, literalAddr_eq]
        cases op.getLsbD 30 with
        | true => exact iff_of_false (not_loadsLiteral_long undef rest _ _) fun h ↦ Bool.noConfusion h.2
        | false =>
          have hword := loadsLiteral_word_iff undef rest (literalAddr pc op) (armReg op 0)
          exact hword.trans ⟨fun h ↦ ⟨h, rfl⟩, fun h ↦ h.1⟩
      · cases h

/-- `ADR X0, #0` at `0x1000`. -/
theorem adr_reached : pcRelative 0x10000000 = some .adr ∧
    Addresses (Semantics.core (fun _ m ↦ m.status) fun _ _ ↦ none) 0x1000 0x10000000 .adr :=
  ⟨by decide, (pcRelative_iff _ _ _ _ (by decide)).mpr
    ⟨by decide, by decide, by rw [if_neg fun h ↦ Bool.noConfusion h.1]; decide⟩⟩

/-- `ADR X0, #4` at `0x1000` gives `0x1001`. -/
theorem adr_missed :
    ¬ Addresses (Semantics.core (fun _ m ↦ m.status) fun _ _ ↦ none) 0x1000 0x10000020 .adr := by
  intro h
  have hmatch := (adrAdrp_iff _ _ _ _ false (by decide)).mp h
  exact absurd hmatch.2.1 (by decide)

end Results

end Arm2x86.Translate
