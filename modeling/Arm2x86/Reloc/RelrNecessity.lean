import Arm2x86.Reloc.RelrExact

/-!
# RELR relocations that are missed

A table as an encoder writes it, its addresses in order and no bitmap empty: with a bias, every run
that is not plain has an address that the function does not take.
-/

namespace Arm2x86.Reloc.Relr

open Elf (ElfModule Class)
open Elf.ElfModule (wordSize)

variable {c : Elf.Class} {m : ElfModule}

/-- The addresses in order, no bitmap without a word, the table in front of the words, and the image
in the first quarter of the address space. -/
structure Canonical (c : Elf.Class) (m : ElfModule) (relr : Nat) (rs : List (Run c)) : Prop where
  sorted : (addresses rs).Pairwise (· < ·)
  nonempty : ∀ r ∈ rs, ∀ b ∈ r.bitmaps, ∃ i < width c - 1, b.getLsbD (i + 1) = true
  front : ∀ a ∈ addresses rs, relr + (entries rs).length * wordSize c ≤ a
  low : 4 * (m.loadBias.toNat + m.mappedSize) ≤ 2 ^ width c

/-! ## What is taken -/

theorem picked_mem {e b x : Word c} (hx : x ∈ picked e b) :
    ∃ i < width c, b.getLsbD i = true ∧ x = e + BitVec.ofNat (width c) (i * wordSize c) := by
  obtain ⟨i, hi, rfl⟩ := List.mem_map.mp hx
  obtain ⟨hrange, hbit⟩ := List.mem_filter.mp hi
  exact ⟨i, List.mem_range.mp hrange, hbit, rfl⟩

private theorem stride_add (addr : Word c) (i : Nat) :
    addr + stride c + BitVec.ofNat (width c) (i * wordSize c) =
      addr + BitVec.ofNat (width c) ((i + 1) * wordSize c) := by
  rw [BitVec.add_assoc, stride, ← BitVec.ofNat_add, Nat.succ_mul, Nat.add_comm (wordSize c)]

/-- Words behind the address at hand, and words from an even entry on. -/
theorem walk_mem {addr x : Word c} {es : List (Word c)} (hx : x ∈ walk addr es) :
    (∃ i, 0 < i ∧ i ≤ es.length ∧ x = addr + BitVec.ofNat (width c) (i * wordSize c)) ∨
      ∃ e ∈ es, e.getLsbD 0 = false ∧ ∃ i ≤ es.length + width c,
        x = e + BitVec.ofNat (width c) (i * wordSize c) := by
  induction addr, es using walk.induct with
  | case1 addr => cases hx
  | case2 addr e hodd =>
    rw [walk, if_pos hodd] at hx
    refine .inl ⟨1, Nat.one_pos, Nat.le_refl 1, ?_⟩
    rw [List.mem_singleton.mp hx, Nat.one_mul, stride]
  | case3 addr e heven =>
    rw [walk, if_neg heven] at hx
    cases hx
  | case4 addr e b es hodd ih =>
    rw [walk, if_pos hodd] at hx
    rcases List.mem_cons.mp hx with rfl | hx
    · refine .inl ⟨1, Nat.one_pos, Nat.succ_le_succ (Nat.zero_le _), ?_⟩
      rw [Nat.one_mul, stride]
    · rcases ih hx with ⟨i, -, hi, rfl⟩ | ⟨e', he', heven, i, hi, rfl⟩
      · refine .inl ⟨i + 1, Nat.succ_pos i, Nat.succ_le_succ hi, stride_add addr i⟩
      · refine .inr ⟨e', List.mem_cons_of_mem e he', heven, i, ?_, rfl⟩
        rw [List.length_cons]
        omega
  | case5 addr e b es heven ih =>
    have hfalse : e.getLsbD 0 = false := Bool.eq_false_iff.mpr heven
    rw [walk, if_neg heven] at hx
    rcases List.mem_append.mp hx with hx | hx
    · obtain ⟨i, hi, -, rfl⟩ := picked_mem hx
      exact .inr ⟨e, List.mem_cons_self, hfalse, i, by omega, rfl⟩
    · rcases ih hx with ⟨i, -, hi, rfl⟩ | ⟨e', he', heven', i, hi, rfl⟩
      · refine .inr ⟨e, List.mem_cons_self, hfalse, i, ?_, rfl⟩
        simp only [List.length_cons]
        omega
      · refine .inr ⟨e', List.mem_cons_of_mem e (List.mem_cons_of_mem b he'), heven', i, ?_, rfl⟩
        simp only [List.length_cons]
        omega

/-- The even entries are the addresses. -/
theorem entries_even {rs : List (Run c)} {e : Word c} (he : e ∈ entries rs)
    (heven : e.getLsbD 0 = false) : ∃ r ∈ rs, e = BitVec.ofNat (width c) r.base := by
  obtain ⟨r, hr, he⟩ := List.mem_flatMap.mp he
  rcases List.mem_cons.mp he with hbase | hbitmap
  · exact ⟨r, hr, hbase⟩
  · rw [r.odd e hbitmap] at heven
    cases heven

theorem toNat_offset {base d : Nat} (h : base + d < 2 ^ width c) :
    (BitVec.ofNat (width c) base + BitVec.ofNat (width c) d).toNat = base + d := by
  rw [← BitVec.ofNat_add, BitVec.toNat_ofNat, Nat.mod_eq_of_lt h]

/-- An even entry sets the address anew. -/
theorem walk_even {e : Word c} (heven : e.getLsbD 0 = false) (addr addr' : Word c)
    (es : List (Word c)) : walk addr (e :: es) = walk addr' (e :: es) := by
  have hnot : ¬ e.getLsbD 0 = true := Bool.eq_false_iff.mp heven
  cases es with
  | nil =>
    show (if e.getLsbD 0 = true then _ else _) = (if e.getLsbD 0 = true then _ else _)
    rw [if_neg hnot, if_neg hnot]
  | cons b es => rw [walk, walk, if_neg hnot, if_neg hnot]

/-- Runs in order, with room behind their addresses for what the loops add to them. -/
structure InOrder (rs : List (Run c)) : Prop where
  sorted : (addresses rs).Pairwise (· < ·)
  nonempty : ∀ r ∈ rs, ∀ b ∈ r.bitmaps, ∃ i < width c - 1, b.getLsbD (i + 1) = true
  even : ∀ r ∈ rs, (BitVec.ofNat (width c) r.base).getLsbD 0 = false
  fits : ∀ a ∈ addresses rs, a < 2 ^ width c
  room : ∀ r ∈ rs, r.base + ((entries rs).length + width c) * wordSize c < 2 ^ width c

namespace InOrder

variable {r : Run c} {rs : List (Run c)}

theorem length_entries_cons (r : Run c) (rs : List (Run c)) :
    (entries (r :: rs)).length = r.bitmaps.length + 1 + (entries rs).length := by
  rw [entries, List.flatMap_cons, List.length_append, Run.entries, List.length_cons]
  rfl

theorem tail (h : InOrder (r :: rs)) : InOrder rs := by
  refine ⟨?_, fun r' hr' ↦ h.nonempty r' (List.mem_cons_of_mem r hr'),
    fun r' hr' ↦ h.even r' (List.mem_cons_of_mem r hr'),
    fun a ha ↦ h.fits a (List.mem_append_right _ ha), fun r' hr' ↦ ?_⟩
  · exact (List.pairwise_append.mp h.sorted).2.1
  · have hroom := h.room r' (List.mem_cons_of_mem r hr')
    have hmul : ((entries rs).length + width c) * wordSize c ≤
        ((entries (r :: rs)).length + width c) * wordSize c := by
      apply Nat.mul_le_mul_right
      rw [length_entries_cons]
      omega
    omega

/-- The addresses of later runs are larger. -/
theorem lt (h : InOrder (r :: rs)) {a a' : Nat} (ha : a ∈ r.addresses) (ha' : a' ∈ addresses rs) :
    a < a' := (List.pairwise_append.mp h.sorted).2.2 a ha a' ha'

theorem base_lt (h : InOrder (r :: rs)) {a : Nat} (ha : a ∈ r.addresses) {r' : Run c}
    (hr' : r' ∈ rs) : a < r'.base :=
  h.lt ha (List.mem_flatMap.mpr ⟨r', hr', List.mem_cons_self⟩)

/-- A place behind an address is where it is without carry. -/
theorem toNat_place (h : InOrder rs) (hr : r ∈ rs) {i : Nat}
    (hi : i ≤ (entries rs).length + width c) :
    (BitVec.ofNat (width c) r.base + BitVec.ofNat (width c) (i * wordSize c)).toNat =
      r.base + i * wordSize c := by
  have hroom := h.room r hr
  have hmul := Nat.mul_le_mul_right (wordSize c) hi
  exact toNat_offset (by omega)

/-- What is taken for some runs is not in front of their addresses. -/
theorem walk_ge (h : InOrder rs) {addr x : Word c} (hx : x ∈ walk addr (entries rs)) :
    ∃ r ∈ rs, ∃ i ≤ (entries rs).length + width c, x.toNat = r.base + i * wordSize c := by
  cases rs with
  | nil => cases hx
  | cons r rs =>
    have hself := h.even r List.mem_cons_self
    have hcons : entries (r :: rs) =
        BitVec.ofNat (width c) r.base :: (r.bitmaps ++ entries rs) := rfl
    rw [hcons, walk_even hself addr (BitVec.ofNat (width c) r.base), ← hcons] at hx
    rcases walk_mem hx with ⟨i, -, hi, rfl⟩ | ⟨e, he, heven, i, hi, rfl⟩
    · have hle : i ≤ (entries (r :: rs)).length + width c := by omega
      exact ⟨r, List.mem_cons_self, i, hle, h.toNat_place List.mem_cons_self hle⟩
    · obtain ⟨r', hr', rfl⟩ := entries_even he heven
      exact ⟨r', hr', i, hi, h.toNat_place hr' hi⟩

/-- No address of a run is taken for a later one. -/
theorem notMem_later (h : InOrder (r :: rs)) {a : Nat} (ha : a ∈ r.addresses) (addr : Word c) :
    a ∉ (walk addr (entries rs)).map BitVec.toNat := by
  intro hmem
  obtain ⟨x, hx, rfl⟩ := List.mem_map.mp hmem
  obtain ⟨r', hr', i, -, heq⟩ := h.tail.walk_ge hx
  have hlt := h.base_lt ha hr'
  omega

end InOrder

/-! ## Runs that are not plain -/

/-- A chain of bitmaps that are taken as single entries. -/
theorem walk_bitmaps {bs : List (Word c)} (hodd : ∀ b ∈ bs, b.getLsbD 0 = true) (addr : Word c)
    (es : List (Word c)) :
    ∃ addr', walk addr (bs ++ es) =
      (List.range bs.length).map
        (fun j ↦ addr + BitVec.ofNat (width c) ((j + 1) * wordSize c)) ++ walk addr' es := by
  induction bs generalizing addr with
  | nil => exact ⟨addr, rfl⟩
  | cons b bs ih =>
    obtain ⟨addr', hrest⟩ := ih (fun b' hb' ↦ hodd b' (List.mem_cons_of_mem b hb')) (addr + stride c)
    refine ⟨addr', ?_⟩
    rw [List.cons_append, walk_odd (hodd b List.mem_cons_self), hrest, List.length_cons,
      List.range_succ_eq_map, List.map_cons, List.map_map, List.cons_append, Nat.zero_add,
      Nat.one_mul, ← stride]
    congr 2
    apply List.map_congr_left
    intro j _
    exact stride_add addr (j + 1)

/-- The last of some bitmaps selects a word that is as far as the others reach. -/
theorem exists_selected {bs : List (Word c)} (hbs : bs ≠ [])
    (hnonempty : ∀ b ∈ bs, ∃ i < width c - 1, b.getLsbD (i + 1) = true) (pos : Nat) :
    ∃ i, (width c - 1) * (bs.length - 1) ≤ i ∧ pos + i * wordSize c ∈ selected c pos bs := by
  induction bs generalizing pos with
  | nil => exact absurd rfl hbs
  | cons b bs ih =>
    cases bs with
    | nil =>
      obtain ⟨i, hi, hbit⟩ := hnonempty b List.mem_cons_self
      refine ⟨i, Nat.zero_le _, ?_⟩
      rw [selected]
      apply List.mem_append_left
      exact List.mem_map.mpr ⟨i, List.mem_filter.mpr ⟨List.mem_range.mpr hi, hbit⟩, rfl⟩
    | cons b' bs =>
      obtain ⟨i, hi, hmem⟩ := ih (List.cons_ne_nil _ _)
        (fun b'' hb'' ↦ hnonempty b'' (List.mem_cons_of_mem b hb''))
        (pos + (width c - 1) * wordSize c)
      refine ⟨width c - 1 + i, ?_, ?_⟩
      · rw [List.length_cons, List.length_cons, Nat.add_sub_cancel, Nat.mul_succ]
        rw [List.length_cons, Nat.add_sub_cancel] at hi
        omega
      · rw [selected, Nat.add_mul, ← Nat.add_assoc]
        exact List.mem_append_right _ hmem

namespace InOrder

variable {r : Run c} {rs : List (Run c)}

/-- An address without bitmaps is missed when another run stands in front of it. -/
theorem missed_alone (h : InOrder (r :: rs)) (hnone : r.bitmaps = []) (addr : Word c) :
    r.base ∉ (walk addr (entries (r :: rs))).map BitVec.toNat := by
  intro hmem
  obtain ⟨x, hx, hbase⟩ := List.mem_map.mp hmem
  have heven := h.even r List.mem_cons_self
  have hnot : ¬ (BitVec.ofNat (width c) r.base).getLsbD 0 = true := Bool.eq_false_iff.mp heven
  have hself : r.base ∈ r.addresses := List.mem_cons_self
  have hpos := wordSize_pos c
  have hcons : entries (r :: rs) = BitVec.ofNat (width c) r.base :: entries rs := by
    rw [entries, List.flatMap_cons, Run.entries, hnone]
    rfl
  rw [hcons] at hx
  cases rs with
  | nil =>
    change x ∈ (if _ then _ else _) at hx
    rw [if_neg hnot] at hx
    cases hx
  | cons r' rs =>
    have hcons' : entries (r' :: rs) =
        BitVec.ofNat (width c) r'.base :: (r'.bitmaps ++ entries rs) := rfl
    have hlen : (r'.bitmaps ++ entries rs).length ≤ (entries (r :: r' :: rs)).length := by
      rw [hcons, hcons']
      simp only [List.length_cons]
      omega
    rw [hcons', walk, if_neg hnot] at hx
    rcases List.mem_append.mp hx with hx | hx
    · -- the next address taken as a bitmap, whose lowest bit is clear
      obtain ⟨i, hi, hbit, rfl⟩ := picked_mem hx
      rw [h.toNat_place List.mem_cons_self (by omega)] at hbase
      have hzero : i = 0 := by
        rcases Nat.eq_zero_or_pos i with hzero | hi'
        · exact hzero
        · have hlt := Nat.mul_pos hi' hpos
          omega
      rw [hzero, h.even r' (List.mem_cons_of_mem r List.mem_cons_self)] at hbit
      cases hbit
    · rcases walk_mem hx with ⟨i, hi, hle, rfl⟩ | ⟨e, he, heven', i, hle, rfl⟩
      · rw [h.toNat_place List.mem_cons_self (by omega)] at hbase
        have hlt := Nat.mul_pos hi hpos
        omega
      · rcases List.mem_append.mp he with hbitmap | he
        · rw [r'.odd e hbitmap] at heven'
          cases heven'
        · obtain ⟨r'', hr'', rfl⟩ := entries_even he heven'
          have hlater : r'' ∈ r' :: rs := List.mem_cons_of_mem r' hr''
          have hlt := h.base_lt hself hlater
          rw [h.toNat_place (List.mem_cons_of_mem r hlater) (by omega)] at hbase
          omega

/-- A place of a chain of single entries. -/
private theorem chain_place (h : InOrder (r :: rs)) {k a : Nat} (hk : k ≤ r.bitmaps.length)
    (ha : a ∈ ((List.range k).map fun j ↦ BitVec.ofNat (width c) r.base +
      BitVec.ofNat (width c) ((j + 1) * wordSize c)).map BitVec.toNat) :
    ∃ j < k, a = r.base + (j + 1) * wordSize c := by
  obtain ⟨x, hx, rfl⟩ := List.mem_map.mp ha
  obtain ⟨j, hj, rfl⟩ := List.mem_map.mp hx
  have hlt := List.mem_range.mp hj
  refine ⟨j, hlt, h.toNat_place List.mem_cons_self ?_⟩
  rw [length_entries_cons]
  omega

/-- The word far behind an address that the last of two or more bitmaps selects. -/
theorem missed_far (h : InOrder (r :: rs)) (htwo : 2 ≤ r.bitmaps.length) :
    ∃ a ∈ r.addresses,
      (∀ addr, a ∉ (walk addr (entries (r :: rs))).map BitVec.toNat) ∧
      a ∉ (taken (r :: rs)).map BitVec.toNat := by
  have hne : r.bitmaps ≠ [] := by
    intro hnil
    rw [hnil, List.length_nil] at htwo
    omega
  obtain ⟨i, hi, hmem⟩ := exists_selected hne (h.nonempty r List.mem_cons_self)
    (r.base + wordSize c)
  have ha : r.base + wordSize c + i * wordSize c ∈ r.addresses := List.mem_cons_of_mem _ hmem
  have hplace : r.base + wordSize c + i * wordSize c = r.base + (i + 1) * wordSize c := by
    rw [Nat.succ_mul]
    omega
  have hpos := wordSize_pos c
  have hwidth := le_width c
  have heven : ¬ (BitVec.ofNat (width c) r.base).getLsbD 0 = true :=
    Bool.eq_false_iff.mp (h.even r List.mem_cons_self)
  have hfar : r.bitmaps.length ≤ i := by
    have hmul : 2 * (r.bitmaps.length - 1) ≤ (width c - 1) * (r.bitmaps.length - 1) :=
      Nat.mul_le_mul_right _ (by omega)
    omega
  have hwide : width c - 1 ≤ i := by
    have hmul : (width c - 1) * 1 ≤ (width c - 1) * (r.bitmaps.length - 1) :=
      Nat.mul_le_mul_left _ (by omega)
    omega
  -- it is behind all that the chain of bitmaps reaches
  have hchain : ∀ k ≤ r.bitmaps.length, r.base + wordSize c + i * wordSize c ∉
      ((List.range k).map fun j ↦ BitVec.ofNat (width c) r.base +
        BitVec.ofNat (width c) ((j + 1) * wordSize c)).map BitVec.toNat := by
    intro k hk hin
    obtain ⟨j, hj, heq⟩ := h.chain_place hk hin
    rw [hplace] at heq
    have hmul : (j + 1 + 1) * wordSize c ≤ (i + 1) * wordSize c :=
      Nat.mul_le_mul_right _ (by omega)
    rw [Nat.succ_mul] at hmul
    omega
  refine ⟨_, ha, fun addr ↦ ?_, ?_⟩
  · obtain ⟨b, bs, hbitmaps⟩ := List.exists_cons_of_ne_nil hne
    have hcons : entries (r :: rs) =
        BitVec.ofNat (width c) r.base :: b :: (bs ++ entries rs) := by
      rw [entries, List.flatMap_cons, Run.entries, hbitmaps]
      rfl
    have hodd : ∀ b' ∈ bs, b'.getLsbD 0 = true := by
      intro b' hb'
      apply r.odd
      rw [hbitmaps]
      exact List.mem_cons_of_mem b hb'
    obtain ⟨addr', hwalk⟩ := walk_bitmaps hodd (BitVec.ofNat (width c) r.base) (entries rs)
    have hlen : bs.length ≤ r.bitmaps.length := by
      rw [hbitmaps]
      exact Nat.le_succ _
    rw [hcons, walk, if_neg heven, hwalk, List.map_append, List.map_append]
    intro hin
    rcases List.mem_append.mp hin with hpicked | hin
    · obtain ⟨x, hx, heq⟩ := List.mem_map.mp hpicked
      obtain ⟨j, hj, -, rfl⟩ := picked_mem hx
      rw [h.toNat_place List.mem_cons_self (by omega), hplace] at heq
      have hmul : (j + 1) * wordSize c ≤ (i + 1) * wordSize c :=
        Nat.mul_le_mul_right _ (by omega)
      rw [Nat.succ_mul] at hmul
      omega
    · rcases List.mem_append.mp hin with hin | hin
      · exact hchain bs.length hlen hin
      · exact h.notMem_later ha addr' hin
  · obtain ⟨addr', hwalk⟩ := walk_bitmaps r.odd (BitVec.ofNat (width c) r.base) (entries rs)
    rw [taken_cons, hwalk, List.map_cons, List.map_append]
    intro hin
    rcases List.mem_cons.mp hin with hbase | hin
    · have hroom := h.room r List.mem_cons_self
      rw [BitVec.toNat_ofNat, Nat.mod_eq_of_lt (by omega)] at hbase
      omega
    · rcases List.mem_append.mp hin with hin | hin
      · exact hchain _ (Nat.le_refl _) hin
      · exact h.notMem_later ha addr' hin

end InOrder

/-- The addresses among some words that pass the test. -/
def seen (m : ElfModule) (xs : List (Word c)) : List Nat :=
  (xs.map BitVec.toNat).filter fun a ↦ inRange m (BitVec.ofNat 64 a)

theorem seen_append (xs ys : List (Word c)) : seen m (xs ++ ys) = seen m xs ++ seen m ys := by
  rw [seen, List.map_append, List.filter_append]
  rfl

theorem mem_map_of_seen {xs : List (Word c)} {a : Nat} (h : a ∈ seen m xs) :
    a ∈ xs.map BitVec.toNat := (List.mem_filter.mp h).1

theorem seen_ofNat {as : List Nat} (hfits : ∀ a ∈ as, a < 2 ^ width c)
    (hin : ∀ a ∈ as, inRange m (BitVec.ofNat 64 a) = true) :
    seen m (as.map (BitVec.ofNat (width c))) = as := by
  rw [seen, map_toNat_ofNat hfits]
  exact List.filter_eq_self.mpr hin

/-- Later runs that are taken as they should have one bitmap each. -/
theorem single_of_perm {rs : List (Run c)} (h : InOrder rs)
    (hin : ∀ a ∈ addresses rs, inRange m (BitVec.ofNat 64 a) = true) {addr : Word c}
    (hperm : (seen m (walk addr (entries rs))).Perm (addresses rs)) :
    ∀ r ∈ rs, ∃ b, r.bitmaps = [b] := by
  induction rs generalizing addr with
  | nil =>
    intro r hr
    cases hr
  | cons r rs ih =>
    have htaken : ∀ a ∈ r.addresses, a ∈ (walk addr (entries (r :: rs))).map BitVec.toNat :=
      fun a ha ↦ mem_map_of_seen (hperm.mem_iff.mpr (List.mem_append_left _ ha))
    match hbitmaps : r.bitmaps with
    | [] => exact absurd (htaken r.base List.mem_cons_self) (h.missed_alone hbitmaps addr)
    | b :: b' :: bs =>
      have htwo : 2 ≤ r.bitmaps.length := by
        rw [hbitmaps]
        exact Nat.le_add_left 2 bs.length
      obtain ⟨a, ha, hmissed, -⟩ := h.missed_far htwo
      exact absurd (htaken a ha) (hmissed addr)
    | [b] =>
      have hodd : b.getLsbD 0 = true := by
        apply r.odd
        rw [hbitmaps]
        exact List.mem_singleton_self b
      have heven : ¬ (BitVec.ofNat (width c) r.base).getLsbD 0 = true :=
        Bool.eq_false_iff.mp (h.even r List.mem_cons_self)
      have hentries : entries (r :: rs) = BitVec.ofNat (width c) r.base :: b :: entries rs := by
        rw [entries, List.flatMap_cons, Run.entries, hbitmaps]
        rfl
      have haddresses : addresses (r :: rs) = r.addresses ++ addresses rs := rfl
      have hfirst : seen m (picked (BitVec.ofNat (width c) r.base) b) = r.addresses := by
        have hself : r.addresses = r.base :: selected c (r.base + wordSize c) [b] := by
          rw [Run.addresses, hbitmaps]
        rw [picked_odd hodd, ← hself]
        apply seen_ofNat
        · intro a ha
          exact h.fits a (List.mem_append_left _ ha)
        · intro a ha
          exact hin a (List.mem_append_left _ ha)
      rw [hentries, walk, if_neg heven, seen_append, hfirst, haddresses,
        List.perm_append_left_iff] at hperm
      intro r' hr'
      rcases List.mem_cons.mp hr' with rfl | hr'
      · exact ⟨b, hbitmaps⟩
      · exact ih h.tail (fun a ha ↦ hin a (List.mem_append_right _ ha)) hperm r' hr'

/-- A bitmap that selects the next word alone. -/
private theorem eq_three {b : Word c} (hodd : b.getLsbD 0 = true)
    (hbits : ∀ i < width c - 1, b.getLsbD (i + 1) = true → i = 0)
    (hsome : ∃ i < width c - 1, b.getLsbD (i + 1) = true) : b = 3 := by
  have hthree : ∀ i < width c, (3 : Word c).getLsbD i = decide (i < 2) := by
    cases c with
    | elf32 => decide
    | elf64 => decide
  apply BitVec.eq_of_getLsbD_eq
  intro i hi
  rw [hthree i hi]
  match i with
  | 0 => exact hodd
  | 1 =>
    obtain ⟨j, hj, hbit⟩ := hsome
    rw [hbits j hj hbit] at hbit
    exact hbit
  | i + 2 =>
    have hfalse : ¬ i + 2 < 2 := by omega
    rw [decide_eq_false hfalse]
    apply Bool.eq_false_iff.mpr
    intro hbit
    exact absurd (hbits (i + 1) (by omega) hbit) (Nat.succ_ne_zero i)

/-- A first run with one bitmap that is taken as it should selects the next word alone. -/
private theorem first_three {r : Run c} {rs : List (Run c)} (h : InOrder (r :: rs)) {b : Word c}
    (hb : r.bitmaps = [b])
    (htaken : ∀ a ∈ r.addresses, a ∈ (taken (r :: rs)).map BitVec.toNat) : b = 3 := by
  have hodd : b.getLsbD 0 = true := by
    apply r.odd
    rw [hb]
    exact List.mem_singleton_self b
  have hpos := wordSize_pos c
  have hmem : b ∈ r.bitmaps := by
    rw [hb]
    exact List.mem_singleton_self b
  apply eq_three hodd
  · intro i hi hbit
    have ha : r.base + wordSize c + i * wordSize c ∈ r.addresses := by
      rw [Run.addresses, hb, selected]
      apply List.mem_cons_of_mem
      apply List.mem_append_left
      exact List.mem_map.mpr ⟨i, List.mem_filter.mpr ⟨List.mem_range.mpr hi, hbit⟩, rfl⟩
    have hroom := h.room r List.mem_cons_self
    have hone : r.base + 1 * wordSize c < 2 ^ width c := by
      have hmul : 1 * wordSize c ≤ ((entries (r :: rs)).length + width c) * wordSize c := by
        apply Nat.mul_le_mul_right
        have hwidth := le_width c
        omega
      omega
    have hin := htaken _ ha
    rw [taken_cons, hb, List.singleton_append, walk_odd hodd] at hin
    rcases List.mem_cons.mp hin with hbase | hin
    · rw [BitVec.toNat_ofNat, Nat.mod_eq_of_lt (by omega)] at hbase
      omega
    · rcases List.mem_cons.mp hin with hnext | hin
      · rw [Nat.one_mul] at hone
        rw [stride, toNat_offset hone] at hnext
        have hzero : i * wordSize c = 0 := by omega
        rcases Nat.mul_eq_zero.mp hzero with hi | hword
        · exact hi
        · omega
      · exact absurd hin (h.notMem_later ha _)
  · exact h.nonempty r List.mem_cons_self b hmem

/-- Runs that are taken as they should are plain. -/
theorem plain_of_perm {rs : List (Run c)} (h : InOrder rs)
    (hin : ∀ a ∈ addresses rs, inRange m (BitVec.ofNat 64 a) = true)
    (hperm : (seen m (taken rs)).Perm (addresses rs)) : Plain rs := by
  cases rs with
  | nil => trivial
  | cons r rs =>
    have htaken : ∀ a ∈ r.addresses, a ∈ (taken (r :: rs)).map BitVec.toNat :=
      fun a ha ↦ mem_map_of_seen (hperm.mem_iff.mpr (List.mem_append_left _ ha))
    have hrest : ∀ addr : Word c, taken (r :: rs) =
        r.addresses.map (BitVec.ofNat (width c)) ++ walk addr (entries rs) →
        ∀ r' ∈ rs, ∃ b, r'.bitmaps = [b] := by
      intro addr hsplit
      have haddresses : addresses (r :: rs) = r.addresses ++ addresses rs := rfl
      rw [hsplit, seen_append, seen_ofNat (fun a ha ↦ h.fits a (List.mem_append_left _ ha))
        (fun a ha ↦ hin a (List.mem_append_left _ ha)), haddresses,
        List.perm_append_left_iff] at hperm
      exact single_of_perm h.tail (fun a ha ↦ hin a (List.mem_append_right _ ha)) hperm
    match hbitmaps : r.bitmaps with
    | [] =>
      refine ⟨.inl hbitmaps, hrest (BitVec.ofNat (width c) r.base) ?_⟩
      rw [taken_cons, Run.addresses, hbitmaps]
      rfl
    | [b] =>
      obtain rfl := first_three h hbitmaps htaken
      have hodd : (3 : Word c).getLsbD 0 = true := by
        apply r.odd
        rw [hbitmaps]
        exact List.mem_singleton_self _
      refine ⟨.inr hbitmaps,
        hrest (BitVec.ofNat (width c) r.base + stride c) ?_⟩
      rw [taken_cons, Run.addresses, hbitmaps, List.singleton_append, walk_odd hodd,
        selected_three, stride, ← BitVec.ofNat_add]
      rfl
    | b :: b' :: bs =>
      have htwo : 2 ≤ r.bitmaps.length := by
        rw [hbitmaps]
        exact Nat.le_add_left 2 bs.length
      obtain ⟨a, ha, -, hmissed⟩ := h.missed_far htwo
      exact absurd (htaken a ha) hmissed

/-! ## Tables in a module -/

namespace Encodes

variable {relr : Nat} {rs : List (Run c)}

theorem inOrder (h : Encodes c m relr rs) (hc : Canonical c m relr rs) : InOrder rs := by
  refine ⟨hc.sorted, hc.nonempty, fun r hr ↦ h.base_even hr, fun a ha ↦ (h.lt_width ha).2.1,
    fun r hr ↦ ?_⟩
  have hbase := base_mem hr
  have hfront := hc.front r.base hbase
  obtain ⟨-, hhigh, -⟩ := h.inside r.base hbase
  have hlow := hc.low
  have hsmall := (width_bounds c).1
  have hpow : 2 ^ 32 ≤ 2 ^ width c := Nat.pow_le_pow_right (by decide) (le_width c)
  rw [Nat.add_mul]
  omega

/-- What is taken for a table lies behind the table. -/
theorem taken_apart (h : Encodes c m relr rs) (hc : Canonical c m relr rs) {x : Word c}
    (hx : x ∈ taken rs) :
    Apart m (tableRegion c (m.pointer (BitVec.ofNat 64 relr)) (entries rs).length) x := by
  have horder := h.inOrder hc
  have hplace : ∃ r ∈ rs, ∃ i ≤ (entries rs).length + width c,
      x.toNat = r.base + i * wordSize c := by
    cases rs with
    | nil => cases hx
    | cons r rs =>
      have hself := horder.even r List.mem_cons_self
      have hwalk : x = BitVec.ofNat (width c) r.base ∨
          x ∈ walk (BitVec.ofNat (width c) r.base) (r.bitmaps ++ entries rs) :=
        List.mem_cons.mp hx
      rcases hwalk with rfl | hx
      · refine ⟨r, List.mem_cons_self, 0, Nat.zero_le _, ?_⟩
        rw [BitVec.toNat_ofNat, Nat.mod_eq_of_lt (h.lt_width (base_mem List.mem_cons_self)).2.1,
          Nat.zero_mul, Nat.add_zero]
      · have hlen : (r.bitmaps ++ entries rs).length ≤ (entries (r :: rs)).length := by
          rw [InOrder.length_entries_cons, List.length_append]
          omega
        rcases walk_mem hx with ⟨i, -, hi, rfl⟩ | ⟨e, he, heven, i, hi, rfl⟩
        · have hle : i ≤ (entries (r :: rs)).length + width c := by omega
          exact ⟨r, List.mem_cons_self, i, hle, horder.toNat_place List.mem_cons_self hle⟩
        · have hle : i ≤ (entries (r :: rs)).length + width c := by omega
          have hentry : e ∈ entries (r :: rs) :=
            List.mem_cons_of_mem (BitVec.ofNat (width c) r.base) he
          obtain ⟨r', hr', rfl⟩ := entries_even hentry heven
          exact ⟨r', hr', i, hle, horder.toNat_place hr' hle⟩
  obtain ⟨r, hr, i, hi, hnat⟩ := hplace
  have hbase := base_mem hr
  have hfront := hc.front r.base hbase
  obtain ⟨-, hhigh, -⟩ := h.inside r.base hbase
  have hlow := hc.low
  have hsmall := (width_bounds c).1
  have hword := (width_bounds c).2
  have hpow : 2 ^ 32 ≤ 2 ^ width c := Nat.pow_le_pow_right (by decide) (le_width c)
  have hpow' := pow_width_le c
  have hmul : i * wordSize c ≤ (entries rs).length * wordSize c + width c * wordSize c := by
    rw [← Nat.add_mul]
    exact Nat.mul_le_mul_right _ hi
  have heq : x = BitVec.ofNat (width c) x.toNat := by
    rw [BitVec.ofNat_toNat, BitVec.setWidth_eq]
  rw [heq, hnat]
  apply apart_of_disjoint
  · omega
  · omega
  · exact Nat.le_of_lt h.relr_fits
  · omega

theorem plain_of_exact (h : Encodes c m relr rs) (hc : Canonical c m relr rs)
    (hbias : m.loadBias ≠ 0) (hexact : Exact c m (addresses rs)) :
    Plain rs ∧ ∀ a ∈ addresses rs, inRange m (BitVec.ofNat 64 a) = true := by
  obtain ⟨s, hs, -, -, hperm⟩ := hexact
  have hrun := h.run hbias fun x hx ↦ h.taken_apart hc hx
  have hadded := hperm hbias
  rw [hrun] at hs
  obtain rfl := Option.some.inj hs
  rw [relocateAll_added_toNat] at hadded
  have hin : ∀ a ∈ addresses rs, inRange m (BitVec.ofNat 64 a) = true :=
    fun a ha ↦ (List.mem_filter.mp (hadded.mem_iff.mpr ha)).2
  exact ⟨plain_of_perm (h.inOrder hc) hin hadded, hin⟩

end Encodes

/-- Every word of a table is relocated once when there is no bias, or when the runs are plain and
their words in range; for a table as an encoder writes it, in these cases only. -/
theorem applyRelr_exact {relr : Nat} {rs : List (Run c)} (h : Encodes c m relr rs) :
    (m.loadBias = 0 ∨ (Plain rs ∧ ∀ a ∈ addresses rs, inRange m (BitVec.ofNat 64 a) = true) →
      Exact c m (addresses rs)) ∧
    (Canonical c m relr rs → (Exact c m (addresses rs) ↔
      m.loadBias = 0 ∨ (Plain rs ∧ ∀ a ∈ addresses rs, inRange m (BitVec.ofNat 64 a) = true))) := by
  have henough : m.loadBias = 0 ∨
      (Plain rs ∧ ∀ a ∈ addresses rs, inRange m (BitVec.ofNat 64 a) = true) →
      Exact c m (addresses rs) := by
    intro hcond
    by_cases hbias : m.loadBias = 0
    · exact h.exact_zero hbias
    · obtain ⟨hplain, hin⟩ := hcond.resolve_left hbias
      exact h.exact_plain hbias hplain hin
  refine ⟨henough, fun hc ↦ ⟨fun hexact ↦ ?_, henough⟩⟩
  by_cases hbias : m.loadBias = 0
  · exact .inl hbias
  · exact .inr (h.plain_of_exact hc hbias hexact)

/-- An image of 64 bits with the bias 4096 and a table of an address and a bitmap. -/
def sampleTable (bitmap : BitVec 64) : ElfModule where
  mem p :=
    (([0x7f, 0x45, 0x4c, 0x46, 2] ++ List.replicate 27 0 ++ leBytes 8 64 ++ List.replicate 16 0 ++
      leBytes 2 1 ++ List.replicate 6 0 ++
      leBytes 4 2 ++ List.replicate 4 0 ++ leBytes 8 120 ++ List.replicate 40 0 ++
      leBytes 8 36 ++ leBytes 8 4264 ++ leBytes 8 35 ++ leBytes 8 16 ++
      List.replicate 16 0 ++ leBytes 8 4608 ++ leBytes 8 bitmap.toNat : List Byte)[
        (p - 8192).toNat]?).getD 0
  written := []
  memory := 8192
  size := 4096
  mappedSize := 4096
  loadBias := 4096

private theorem odd_singleton {b : Word c} (h : b.getLsbD 0 = true) :
    ∀ b' ∈ [b], b'.getLsbD 0 = true := by
  intro b' hb'
  rwa [List.mem_singleton.mp hb']

/-- The address and the next word. -/
def adjacentRun : Run .elf64 := ⟨4608, [3], odd_singleton rfl⟩

/-- The address and the word after the next one. -/
def gapRun : Run .elf64 := ⟨4608, [5], odd_singleton rfl⟩

theorem sampleTable_encodes : Encodes .elf64 (sampleTable 3) 4264 [adjacentRun] where
  class_eq := by decide +kernel
  tags_eq := ⟨_, rfl, by decide +kernel, by decide +kernel, by decide +kernel⟩
  image := by decide +kernel
  relr_pos := by decide
  relr_fits := by decide +kernel
  entry_eq := by decide +kernel
  inside := by decide +kernel
  apart := by decide +kernel
  nodup := by decide +kernel

theorem sampleTable_exact : Exact .elf64 (sampleTable 3) (addresses [adjacentRun]) := by
  apply (applyRelr_exact sampleTable_encodes).1
  refine .inr ⟨⟨.inr rfl, fun r hr ↦ ?_⟩, by decide +kernel⟩
  cases hr

/-- A bitmap that selects the word after the next one. -/
theorem gap_missed : Encodes .elf64 (sampleTable 5) 4264 [gapRun] ∧
    ¬ Exact .elf64 (sampleTable 5) (addresses [gapRun]) := by
  constructor
  · constructor
    · decide +kernel
    · exact ⟨_, rfl, by decide +kernel, by decide +kernel, by decide +kernel⟩
    · decide +kernel
    · decide
    · decide +kernel
    · decide +kernel
    · decide +kernel
    · decide +kernel
    · decide +kernel
  · rintro ⟨s, hs, hwords, -, -⟩
    have hword := hwords 4624 (by decide +kernel)
    have hrun : (applyRelrRelocations (sampleTable 5)).map
        (fun s ↦ wordAt .elf64 s.mem ((sampleTable 5).pointer (BitVec.ofNat 64 4624))) =
          some 0 := by decide +kernel
    rw [hs, Option.map_some] at hrun
    rw [Option.some.inj hrun] at hword
    revert hword
    decide +kernel

end Arm2x86.Reloc.Relr
