import Mathlib.Data.BitVec
import Arm2x86.Reloc.RelrFormat

/-!
# RELR relocations, once each

When `apply_relr_relocations` adds the bias to every word of a table once: the first run must have
no bitmap, or one that selects the next word alone, and every later run exactly one bitmap.
-/

namespace Arm2x86.Reloc.Relr

open Elf (ElfModule field classOf)
open Elf.ElfModule (wordSize)

variable {c : Elf.Class} {m : ElfModule}

/-- A module with the table of some runs at an address: the table and the words, which are aligned,
lie in the image, the words outside of the table, and no word twice. -/
structure Encodes (c : Elf.Class) (m : ElfModule) (relr : Nat) (rs : List (Run c)) : Prop where
  class_eq : classOf m.mem m.memory = some c
  tags_eq : ∃ tags, moduleTags c m = some tags ∧ tags dtRelr = BitVec.ofNat 64 relr ∧
    tags dtRelrSz = BitVec.ofNat 64 ((entries rs).length * wordSize c) ∧
    (tags dtRelrEnt = 0 ∨ tags dtRelrEnt = BitVec.ofNat 64 (wordSize c))
  image : m.loadBias.toNat + m.mappedSize ≤ 2 ^ width c
  relr_pos : 0 < relr
  relr_fits : relr + (entries rs).length * wordSize c < 2 ^ 64
  entry_eq : ∀ j (h : j < (entries rs).length),
    entry c (m.pointer (BitVec.ofNat 64 relr)) m.mem j = (entries rs)[j]
  inside : ∀ a ∈ addresses rs, m.loadBias.toNat ≤ a ∧
    a + wordSize c ≤ m.loadBias.toNat + m.mappedSize ∧ wordSize c ∣ a
  apart : ∀ a ∈ addresses rs,
    a + wordSize c ≤ relr ∨ relr + (entries rs).length * wordSize c ≤ a
  nodup : (addresses rs).Nodup

/-- The bias is added to every word once, and no other byte changes. -/
def Exact (c : Elf.Class) (m : ElfModule) (as : List Nat) : Prop :=
  ∃ s, applyRelrRelocations m = some s ∧
    (∀ a ∈ as, wordAt c s.mem (m.pointer (BitVec.ofNat 64 a)) =
      wordAt c m.mem (m.pointer (BitVec.ofNat 64 a)) + m.loadBias.setWidth (width c)) ∧
    (∀ p, (∀ a ∈ as, p ∉ (⟨m.pointer (BitVec.ofNat 64 a), wordSize c⟩ : Region)) →
      s.mem p = m.mem p) ∧
    (m.loadBias ≠ 0 → (s.added.map BitVec.toNat).Perm as)

/-- The runs that the loops read as they are meant. -/
def Plain : List (Run c) → Prop
  | [] => True
  | r :: rs => (r.bitmaps = [] ∨ r.bitmaps = [3]) ∧ ∀ r' ∈ rs, ∃ b, r'.bitmaps = [b]

/-! ## Places -/

theorem wordSize_pos (c : Elf.Class) : 0 < wordSize c := by
  cases c with
  | elf32 => decide
  | elf64 => decide

theorem two_dvd_wordSize (c : Elf.Class) : 2 ∣ wordSize c := by
  cases c with
  | elf32 => decide
  | elf64 => decide

theorem width_le (c : Elf.Class) : width c ≤ 64 := by
  cases c with
  | elf32 => decide
  | elf64 => decide

theorem le_width (c : Elf.Class) : 32 ≤ width c := by
  cases c with
  | elf32 => decide
  | elf64 => decide

theorem pow_width_le (c : Elf.Class) : 2 ^ width c ≤ 2 ^ 64 :=
  Nat.pow_le_pow_right (by decide) (width_le c)

theorem width_bounds (c : Elf.Class) : width c * wordSize c ≤ 512 ∧ wordSize c ≤ 8 := by
  cases c with
  | elf32 => decide
  | elf64 => decide

/-- The virtual address of a place in the mapping. -/
def vaddr (m : ElfModule) (p : BitVec 64) : Nat := (p - m.memory + m.loadBias).toNat

/-- The bytes of a region of the image. -/
theorem mem_image_iff {a size : Nat} (h : a + size ≤ 2 ^ 64) {p : BitVec 64} :
    p ∈ (⟨m.pointer (BitVec.ofNat 64 a), size⟩ : Region) ↔
      a ≤ vaddr m p ∧ vaddr m p < a + size := by
  have hoff : p - m.pointer (BitVec.ofNat 64 a) =
      p - m.memory + m.loadBias - BitVec.ofNat 64 a := by
    rw [ElfModule.pointer, sub_sub_eq_add_sub, sub_add_eq_sub_sub, sub_add_eq_add_sub]
  have hlt := (p - m.memory + m.loadBias).isLt
  rw [Region.mem_iff, hoff, vaddr]
  generalize p - m.memory + m.loadBias = x at hlt ⊢
  rw [BitVec.toNat_sub, BitVec.toNat_ofNat]
  generalize x.toNat = d at hlt ⊢
  show (2 ^ 64 - a % 2 ^ 64 + d) % 2 ^ 64 < size ↔ _
  by_cases ha : a < 2 ^ 64
  · rw [Nat.mod_eq_of_lt ha]
    omega
  · have ha : a = 2 ^ 64 := by omega
    subst ha
    rw [Nat.mod_self]
    omega

theorem setWidth_ofNat {a : Nat} (h : a < 2 ^ width c) :
    (BitVec.ofNat (width c) a).setWidth 64 = BitVec.ofNat 64 a := by
  apply BitVec.eq_of_toNat_eq
  rw [BitVec.toNat_setWidth, BitVec.toNat_ofNat, BitVec.toNat_ofNat, Nat.mod_eq_of_lt h]

/-- A word that does not meet a region of the image. -/
theorem apart_of_disjoint {a b size : Nat} (ha : a < 2 ^ width c) (hfits : a + wordSize c ≤ 2 ^ 64)
    (hb : b + size ≤ 2 ^ 64) (h : a + wordSize c ≤ b ∨ b + size ≤ a) :
    Apart m ⟨m.pointer (BitVec.ofNat 64 b), size⟩ (BitVec.ofNat (width c) a) := by
  intro _ p hp
  rw [setWidth_ofNat ha, mem_image_iff hfits] at hp
  rw [mem_image_iff hb]
  omega

/-! ## The run on a table -/

/-- The words that the function takes, before the test of their addresses. -/
def taken (rs : List (Run c)) : List (Word c) :=
  match entries rs with
  | [] => []
  | e :: es => e :: walk e es

namespace Encodes

variable {relr : Nat} {rs : List (Run c)}

theorem lt_width (h : Encodes c m relr rs) {a : Nat} (ha : a ∈ addresses rs) :
    a + wordSize c ≤ 2 ^ width c ∧ a < 2 ^ width c ∧ a + wordSize c ≤ 2 ^ 64 := by
  obtain ⟨-, hhigh, -⟩ := h.inside a ha
  have himage := h.image
  have hpos := wordSize_pos c
  have hpow := pow_width_le c
  omega

theorem base_mem {r : Run c} (hr : r ∈ rs) : r.base ∈ addresses rs :=
  List.mem_flatMap.mpr ⟨r, hr, List.mem_cons_self⟩

/-- The address entries are even, and the bitmaps odd. -/
theorem base_even (h : Encodes c m relr rs) {r : Run c} (hr : r ∈ rs) :
    (BitVec.ofNat (width c) r.base).getLsbD 0 = false := by
  obtain ⟨-, -, hdvd⟩ := h.inside r.base (base_mem hr)
  have htwo := Nat.dvd_trans (two_dvd_wordSize c) hdvd
  have hw := le_width c
  rw [BitVec.getLsbD_ofNat, Nat.testBit_zero]
  simp only [Bool.and_eq_false_iff, decide_eq_false_iff_not]
  right
  omega

theorem ne_zero (h : Encodes c m relr rs) (hbias : m.loadBias ≠ 0) {e : Word c}
    (he : e ∈ entries rs) : e ≠ 0 := by
  obtain ⟨r, hr, he⟩ := List.mem_flatMap.mp he
  rintro rfl
  rcases List.mem_cons.mp he with hbase | hbitmap
  · obtain ⟨hlow, -, -⟩ := h.inside r.base (base_mem hr)
    obtain ⟨-, hlt, -⟩ := h.lt_width (base_mem hr)
    have hpos : 0 < m.loadBias.toNat :=
      Nat.pos_of_ne_zero fun hzero ↦ hbias (BitVec.eq_of_toNat_eq hzero)
    have hnat := congrArg BitVec.toNat hbase
    rw [BitVec.toNat_ofNat, Nat.mod_eq_of_lt hlt] at hnat
    have hzero : (0 : Word c).toNat = 0 := BitVec.toNat_ofNat _ _ |>.trans (Nat.zero_mod _)
    omega
  · have hodd := r.odd 0 hbitmap
    rw [BitVec.ofNat_eq_ofNat, BitVec.getLsbD_zero] at hodd
    cases hodd

/-- The number of entries. -/
theorem count_eq {n : Nat} (h : n * wordSize c < 2 ^ 64) {ent : BitVec 64}
    (hent : ent = BitVec.ofNat 64 (wordSize c)) :
    (BitVec.ofNat 64 (n * wordSize c) / ent).toNat = n := by
  have hsize : (BitVec.ofNat 64 (wordSize c)).toNat = wordSize c := by
    cases c with
    | elf32 => rfl
    | elf64 => rfl
  rw [hent, BitVec.toNat_udiv, BitVec.toNat_ofNat, Nat.mod_eq_of_lt h, hsize,
    Nat.mul_div_cancel _ (wordSize_pos c)]

/-- The function on the table, up to its loop. -/
theorem apply_eq (h : Encodes c m relr rs) :
    applyRelrRelocations m =
      if (entries rs).length = 0 then some ⟨m.mem, []⟩
      else
        let p := m.pointer (BitVec.ofNat 64 relr)
        entryLoop c m p (entries rs).length ((entries rs).length + 1) 1 (entry c p m.mem 0)
          (relocate c m ⟨m.mem, []⟩ (entry c p m.mem 0)) := by
  obtain ⟨tags, htags, haddr, hsz, hent⟩ := h.tags_eq
  have hpos := h.relr_pos
  have hfits := h.relr_fits
  have hword := wordSize_pos c
  have hrelr : (BitVec.ofNat 64 relr).toNat = relr := by
    rw [BitVec.toNat_ofNat]
    exact Nat.mod_eq_of_lt (by omega)
  have hne : tags dtRelr ≠ 0 := by
    intro hzero
    rw [← haddr, hzero] at hrelr
    exact absurd hrelr (Nat.ne_of_lt hpos)
  have hbytes : (entries rs).length * wordSize c < 2 ^ 64 := by omega
  have hcount : (tags dtRelrSz / if tags dtRelrEnt = 0 then BitVec.ofNat 64 (wordSize c)
      else tags dtRelrEnt).toNat = (entries rs).length := by
    rw [hsz]
    apply count_eq hbytes
    split
    · rfl
    · next hsome => exact hent.resolve_left hsome
  have hempty : tags dtRelrSz = 0 → (entries rs).length = 0 := by
    intro hzero
    rw [hzero] at hcount
    rw [← hcount, BitVec.toNat_udiv]
    exact Nat.zero_div _
  rw [applyRelrRelocations, h.class_eq]
  show applyRelr c m = _
  rw [applyRelr, htags]
  simp only [Option.bind_eq_bind, Option.bind_some]
  rw [hcount, haddr]
  rw [haddr] at hne
  by_cases hzero : tags dtRelrSz = 0
  · rw [if_pos (.inr hzero), if_pos (hempty hzero)]
  · rw [if_neg (not_or.mpr ⟨hne, hzero⟩)]

/-- With a bias, as long as the words taken do not meet the table. -/
theorem run (h : Encodes c m relr rs) (hbias : m.loadBias ≠ 0)
    (hapart : ∀ x ∈ taken rs, Apart m
      (tableRegion c (m.pointer (BitVec.ofNat 64 relr)) (entries rs).length) x) :
    applyRelrRelocations m = some (relocateAll c m ⟨m.mem, []⟩ (taken rs)) := by
  have hentry := h.entry_eq
  have hzero : ∀ e ∈ entries rs, e ≠ 0 := fun e he ↦ h.ne_zero hbias he
  rw [h.apply_eq]
  rw [taken] at hapart ⊢
  generalize entries rs = es at hentry hzero hapart
  cases es with
  | nil =>
    rw [if_pos List.length_nil]
    rfl
  | cons e es =>
    have htable : Table c (m.pointer (BitVec.ofNat 64 relr)) (e :: es).length m.mem 0 (e :: es) := by
      refine ⟨Nat.zero_add _, fun j hj ↦ ?_⟩
      rw [Nat.zero_add]
      exact hentry j hj
    have hnext := htable.tail.relocateAll (s := ⟨m.mem, []⟩) [e] fun x hx ↦ by
      rw [List.mem_singleton.mp hx]
      exact hapart e List.mem_cons_self
    have hsome : (e :: es).length ≠ 0 := Nat.succ_ne_zero _
    rw [if_neg hsome]
    dsimp only
    rw [htable.head.2]
    apply entryLoop_eq hnext
    · intro e' he'
      exact hzero e' (List.mem_cons_of_mem e he')
    · rw [List.length_cons]
      omega
    · intro x hx
      exact hapart x (List.mem_cons_of_mem e hx)

end Encodes

/-! ## Plain runs -/

/-- A bitmap behind an address, taken with the address itself. -/
theorem picked_odd {base : Nat} {b : Word c} (hodd : b.getLsbD 0 = true) :
    picked (BitVec.ofNat (width c) base) b =
      (base :: selected c (base + wordSize c) [b]).map (BitVec.ofNat (width c)) := by
  have hrange : List.range (width c) = 0 :: (List.range (width c - 1)).map Nat.succ := by
    obtain ⟨n, hn⟩ : ∃ n, width c = n + 1 := ⟨width c - 1, by have := le_width c; omega⟩
    rw [hn, List.range_succ_eq_map]
    rfl
  rw [picked, hrange, List.filter_cons_of_pos hodd, List.filter_map, List.map_cons, List.map_cons,
    selected, selected, List.append_nil, List.map_map, List.map_map]
  congr 1
  · rw [Nat.zero_mul, BitVec.add_zero]
  · apply List.map_congr_left
    intro i _
    show BitVec.ofNat _ base + BitVec.ofNat _ ((i + 1) * wordSize c) = BitVec.ofNat _ _
    rw [← BitVec.ofNat_add]
    congr 1
    show base + (i + 1) * wordSize c = base + wordSize c + i * wordSize c
    rw [Nat.succ_mul]
    omega

/-- Later runs of one bitmap each. -/
theorem walk_single {rs : List (Run c)} (hsingle : ∀ r ∈ rs, ∃ b, r.bitmaps = [b])
    (heven : ∀ r ∈ rs, (BitVec.ofNat (width c) r.base).getLsbD 0 = false) (addr : Word c) :
    walk addr (entries rs) = (addresses rs).map (BitVec.ofNat (width c)) := by
  induction rs generalizing addr with
  | nil => rfl
  | cons r rs ih =>
    obtain ⟨b, hb⟩ := hsingle r List.mem_cons_self
    have hbase := heven r List.mem_cons_self
    have hodd : b.getLsbD 0 = true := by
      apply r.odd
      rw [hb]
      exact List.mem_singleton_self b
    have hentries : entries (r :: rs) = BitVec.ofNat (width c) r.base :: b :: entries rs := by
      rw [entries, List.flatMap_cons, Run.entries, hb]
      rfl
    have haddresses : addresses (r :: rs) =
        (r.base :: selected c (r.base + wordSize c) [b]) ++ addresses rs := by
      rw [addresses, List.flatMap_cons, Run.addresses, hb]
      rfl
    rw [hentries, walk, if_neg (by rw [hbase]; exact Bool.false_ne_true), picked_odd hodd,
      ih (fun r' hr' ↦ hsingle r' (List.mem_cons_of_mem r hr'))
        (fun r' hr' ↦ heven r' (List.mem_cons_of_mem r hr')), haddresses, List.map_append]

/-- The bitmap that selects the next word alone. -/
theorem selected_three (pos : Nat) : selected c pos [3] = [pos] := by
  have hfilter : (List.range (width c - 1)).filter (fun i ↦ (3 : Word c).getLsbD (i + 1)) = [0] := by
    cases c with
    | elf32 => decide
    | elf64 => decide
  rw [selected, hfilter, selected]
  simp

/-- A walk through bitmaps that are read as single entries. -/
theorem walk_odd {addr b : Word c} (hodd : b.getLsbD 0 = true) (es : List (Word c)) :
    walk addr (b :: es) = (addr + stride c) :: walk (addr + stride c) es := by
  cases es with
  | nil =>
    show (if b.getLsbD 0 = true then _ else _) = _
    rw [if_pos hodd, walk]
  | cons e es => rw [walk, if_pos hodd]

theorem taken_cons (r : Run c) (rs : List (Run c)) :
    taken (r :: rs) = BitVec.ofNat (width c) r.base ::
      walk (BitVec.ofNat (width c) r.base) (r.bitmaps ++ entries rs) := rfl

/-- Plain runs are taken as they stand. -/
theorem taken_plain {rs : List (Run c)} (h : Plain rs)
    (heven : ∀ r ∈ rs, (BitVec.ofNat (width c) r.base).getLsbD 0 = false) :
    taken rs = (addresses rs).map (BitVec.ofNat (width c)) := by
  cases rs with
  | nil => rfl
  | cons r rs =>
    obtain ⟨hfirst, hsingle⟩ := h
    have hwalk := walk_single hsingle fun r' hr' ↦ heven r' (List.mem_cons_of_mem r hr')
    have haddresses : addresses (r :: rs) = r.addresses ++ addresses rs := rfl
    rw [taken_cons, haddresses, List.map_append, Run.addresses]
    rcases hfirst with hnone | hthree
    · rw [hnone, List.nil_append, hwalk]
      rfl
    · have hodd : (3 : Word c).getLsbD 0 = true := by
        apply r.odd
        rw [hthree]
        exact List.mem_singleton_self _
      rw [hthree, List.singleton_append, walk_odd hodd, hwalk, selected_three, stride,
        ← BitVec.ofNat_add]
      rfl

/-! ## The effect on memory -/

variable {as : List Nat}

/-- Words of the image, aligned and below the top of the address space. -/
def Words (c : Elf.Class) (as : List Nat) : Prop :=
  ∀ a ∈ as, a + wordSize c ≤ 2 ^ width c ∧ wordSize c ∣ a

theorem Words.disjoint {a b : Nat} (h : Words c as) (ha : a ∈ as) (hb : b ∈ as) (hne : a ≠ b) :
    a + wordSize c ≤ b ∨ b + wordSize c ≤ a := by
  obtain ⟨-, i, rfl⟩ := h a ha
  obtain ⟨-, j, rfl⟩ := h b hb
  have hij : i ≠ j := fun hij ↦ hne (hij ▸ rfl)
  rcases Nat.lt_or_gt_of_ne hij with hlt | hlt
  · left
    calc wordSize c * i + wordSize c = wordSize c * (i + 1) := (Nat.mul_succ _ _).symm
      _ ≤ wordSize c * j := Nat.mul_le_mul_left _ hlt
  · right
    calc wordSize c * j + wordSize c = wordSize c * (j + 1) := (Nat.mul_succ _ _).symm
      _ ≤ wordSize c * i := Nat.mul_le_mul_left _ hlt

theorem wordAt_congr {mem mem' : Memory} {p : BitVec 64}
    (h : ∀ q ∈ (⟨p, wordSize c⟩ : Region), mem' q = mem q) : wordAt c mem' p = wordAt c mem p := by
  rw [wordAt, wordAt, field, field]
  congr 3
  apply Memory.read_congr
  intro k hk
  apply h
  rw [BitVec.add_zero]
  exact Region.start_add_mem hk

/-- The word that is relocated. -/
theorem wordAt_relocate {a : Nat} (ha : a < 2 ^ width c)
    (hin : inRange m (BitVec.ofNat 64 a) = true) (s : State) :
    wordAt c (relocate c m s (BitVec.ofNat (width c) a)).mem (m.pointer (BitVec.ofNat 64 a)) =
      wordAt c s.mem (m.pointer (BitVec.ofNat 64 a)) + m.loadBias.setWidth (width c) := by
  have hback : ∀ w : Word c, (w.setWidth 64).setWidth (width c) = w := by
    intro w
    rw [BitVec.setWidth_setWidth_of_le _ (width_le c), BitVec.setWidth_eq]
  have hnat : ∀ w : Word c, w.toNat = (w.setWidth 64).toNat := by
    intro w
    rw [BitVec.toNat_setWidth]
    exact (Nat.mod_eq_of_lt (Nat.lt_of_lt_of_le w.isLt (pow_width_le c))).symm
  have hlt : ∀ w : Word c, (w.setWidth 64).toNat < 256 ^ wordSize c := by
    intro w
    have hpow : 2 ^ width c = 256 ^ wordSize c := Nat.pow_mul 2 8 (wordSize c)
    rw [← hnat, ← hpow]
    exact w.isLt
  have hword := (width_bounds c).2
  rw [relocate, setWidth_ofNat ha]
  dsimp only
  rw [if_pos hin, wordAt, hnat, field_write (hlt _) (by omega), hback]

/-- A byte that no word holds. -/
theorem relocateAll_other (hw : Words c as) {s : State} {p : BitVec 64}
    (hp : ∀ a ∈ as, p ∉ (⟨m.pointer (BitVec.ofNat 64 a), wordSize c⟩ : Region)) :
    (relocateAll c m s (as.map (BitVec.ofNat (width c)))).mem p = s.mem p := by
  have hself : p ∈ (⟨p, 1⟩ : Region) := by
    rw [Region.mem_iff, BitVec.sub_self]
    exact Nat.one_pos
  have hapart : ∀ x ∈ as.map (BitVec.ofNat (width c)), Apart m ⟨p, 1⟩ x := by
    intro x hx _ q hq hqp
    obtain ⟨a, ha, rfl⟩ := List.mem_map.mp hx
    have hpos := wordSize_pos c
    have hlt : a < 2 ^ width c := by
      have hfits := (hw a ha).1
      omega
    have heq : q = p := by
      rw [Region.mem_iff] at hqp
      bv_omega
    rw [setWidth_ofNat hlt, heq] at hq
    exact hp a ha hq
  exact relocateAll_mem hapart hself

theorem relocateAll_word (hw : Words c as) (hnodup : as.Nodup)
    (hin : ∀ a ∈ as, inRange m (BitVec.ofNat 64 a) = true) {s : State} {a : Nat} (ha : a ∈ as) :
    wordAt c (relocateAll c m s (as.map (BitVec.ofNat (width c)))).mem
        (m.pointer (BitVec.ofNat 64 a)) =
      wordAt c s.mem (m.pointer (BitVec.ofNat 64 a)) + m.loadBias.setWidth (width c) := by
  have hpow := pow_width_le c
  have hpos := wordSize_pos c
  -- the word of another address
  have hother : ∀ b ∈ as, b ≠ a → ∀ q ∈ (⟨m.pointer (BitVec.ofNat 64 a), wordSize c⟩ : Region),
      q ∉ (⟨m.pointer (BitVec.ofNat 64 b), wordSize c⟩ : Region) := by
    intro b hb hne q hq
    have hfits := (hw a ha).1
    have hfits' := (hw b hb).1
    have hapart := hw.disjoint hb ha hne
    rw [mem_image_iff (by omega)] at hq ⊢
    omega
  induction as generalizing s with
  | nil => cases ha
  | cons x as ih =>
    have hwas : Words c as := fun b hb ↦ hw b (List.mem_cons_of_mem x hb)
    have hlt : x < 2 ^ width c := by
      have hfits := (hw x List.mem_cons_self).1
      omega
    have hsplit := List.nodup_cons.mp hnodup
    show wordAt c (relocateAll c m (relocate c m s (BitVec.ofNat (width c) x))
      (as.map (BitVec.ofNat (width c)))).mem _ = _
    by_cases hx : x = a
    · subst hx
      rw [← wordAt_relocate hlt (hin x List.mem_cons_self) s]
      apply wordAt_congr
      intro q hq
      apply relocateAll_other hwas
      intro b hb
      exact hother b (List.mem_cons_of_mem x hb) (fun hbx ↦ hsplit.1 (hbx ▸ hb)) q hq
    · have hmem : a ∈ as := (List.mem_cons.mp ha).resolve_left fun hax ↦ hx hax.symm
      rw [ih hwas hsplit.2 (fun b hb ↦ hin b (List.mem_cons_of_mem x hb)) hmem
        fun b hb ↦ hother b (List.mem_cons_of_mem x hb)]
      congr 1
      apply wordAt_congr
      intro q hq
      have hone := @relocateAll_other c m [x] (fun b hb ↦ hw b (List.mem_cons.mpr
        (.inl (List.mem_singleton.mp hb)))) s q fun b hb ↦ by
          rw [List.mem_singleton.mp hb]
          exact hother x List.mem_cons_self hx q hq
      exact hone

/-! ## Enough -/

theorem Encodes.words {relr : Nat} {rs : List (Run c)} (h : Encodes c m relr rs) :
    Words c (addresses rs) := fun a ha ↦ ⟨(h.lt_width ha).1, (h.inside a ha).2.2⟩

/-- The addresses that the bias has been added to, as numbers. -/
theorem relocateAll_added_toNat (mem : Memory) (xs : List (Word c)) :
    (relocateAll c m ⟨mem, []⟩ xs).added.map BitVec.toNat =
      (xs.map BitVec.toNat).filter fun a ↦ inRange m (BitVec.ofNat 64 a) := by
  have hnat : ∀ x : Word c, (x.setWidth 64).toNat = x.toNat := by
    intro x
    rw [BitVec.toNat_setWidth]
    exact Nat.mod_eq_of_lt (Nat.lt_of_lt_of_le x.isLt (pow_width_le c))
  have hof : ∀ x : Word c, BitVec.ofNat 64 x.toNat = x.setWidth 64 := by
    intro x
    rw [BitVec.ofNat_toNat]
  rw [relocateAll_added, List.nil_append, List.filter_map, List.map_map, List.filter_map]
  have hleft : BitVec.toNat ∘ BitVec.setWidth 64 = (BitVec.toNat : Word c → Nat) := funext hnat
  have hright : (inRange m ∘ BitVec.setWidth 64 : Word c → Bool) =
      (fun a ↦ inRange m (BitVec.ofNat 64 a)) ∘ BitVec.toNat := by
    funext x
    show inRange m (x.setWidth 64) = inRange m (BitVec.ofNat 64 x.toNat)
    rw [hof]
  rw [hleft, hright]

theorem map_toNat_ofNat {as : List Nat} (h : ∀ a ∈ as, a < 2 ^ width c) :
    (as.map (BitVec.ofNat (width c))).map BitVec.toNat = as := by
  rw [List.map_map]
  conv => rhs; rw [← List.map_id as]
  apply List.map_congr_left
  intro a ha
  show (BitVec.ofNat (width c) a).toNat = a
  rw [BitVec.toNat_ofNat, Nat.mod_eq_of_lt (h a ha)]

/-- Without a bias nothing changes. -/
theorem Encodes.exact_zero {relr : Nat} {rs : List (Run c)} (h : Encodes c m relr rs)
    (hbias : m.loadBias = 0) : Exact c m (addresses rs) := by
  have hrun : ∃ s, applyRelrRelocations m = some s ∧ s.mem = m.mem := by
    rw [h.apply_eq]
    split
    · exact ⟨_, rfl, rfl⟩
    · obtain ⟨s, hs, hmem⟩ := @entryLoop_zero c m (m.pointer (BitVec.ofNat 64 relr))
        (entries rs).length hbias ((entries rs).length + 1) 1
        (entry c (m.pointer (BitVec.ofNat 64 relr)) m.mem 0)
        (relocate c m ⟨m.mem, []⟩ (entry c (m.pointer (BitVec.ofNat 64 relr)) m.mem 0))
        (by omega) (Nat.succ_pos _)
      exact ⟨s, hs, hmem.trans (relocate_mem_zero hbias _ _)⟩
  obtain ⟨s, hs, hmem⟩ := hrun
  refine ⟨s, hs, ?_, ?_, fun hne ↦ absurd hbias hne⟩
  · intro a _
    have hzero : (0 : BitVec 64).setWidth (width c) = 0#(width c) := BitVec.setWidth_zero _ _
    rw [hmem, hbias, hzero, BitVec.add_zero]
  · intro p _
    rw [hmem]

/-- Plain runs, all in range. -/
theorem Encodes.exact_plain {relr : Nat} {rs : List (Run c)} (h : Encodes c m relr rs)
    (hbias : m.loadBias ≠ 0) (hplain : Plain rs)
    (hin : ∀ a ∈ addresses rs, inRange m (BitVec.ofNat 64 a) = true) :
    Exact c m (addresses rs) := by
  have htaken := taken_plain hplain fun r hr ↦ h.base_even hr
  have hrun := h.run hbias fun x hx ↦ by
    rw [htaken] at hx
    obtain ⟨a, ha, rfl⟩ := List.mem_map.mp hx
    obtain ⟨-, hlt, hfits⟩ := h.lt_width ha
    exact apart_of_disjoint hlt hfits (Nat.le_of_lt h.relr_fits) (h.apart a ha)
  refine ⟨_, hrun, ?_, ?_, ?_⟩
  · intro a ha
    rw [htaken]
    exact relocateAll_word h.words h.nodup hin ha
  · intro p hp
    rw [htaken]
    exact relocateAll_other h.words hp
  · intro _
    have hall : (addresses rs).filter (fun a ↦ inRange m (BitVec.ofNat 64 a)) = addresses rs :=
      List.filter_eq_self.mpr hin
    rw [relocateAll_added_toNat, htaken, map_toNat_ofNat fun a ha ↦ (h.lt_width ha).2.1, hall]

end Arm2x86.Reloc.Relr
