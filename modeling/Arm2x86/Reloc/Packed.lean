import Arm2x86.Reloc.Numbers

/-!
# Packed relocations

`apply_android_packed_relocs` against the same loops with a reader that stops at the end of the
section. The two agree as long as no number is cut off there; one that is takes the function beyond
the section.
-/

namespace Arm2x86.Reloc

open Elf (ElfModule field)
open Elf.ElfModule (wordSize)

/-! ## Reading inside the section -/

/-- The number at a position, if it ends inside the section. -/
def boundedReader (relData : BitVec 64) (size : Nat) : Reader :=
  fun mem pos ↦
    (Leb128.split (mem.read (relData + BitVec.ofNat 64 pos) (size - pos))).map (·.1)

/-- The relocations of a module with every number read inside the section; none where one is cut
off. -/
def checkedPackedRelocs (m : ElfModule) : Option Packed := applyPackedWith boundedReader m

variable {c : Elf.Class} {m : ElfModule} {relData : BitVec 64} {size : Nat}

/-- A number inside the section is read by the function as well. -/
theorem reader_of_bounded {mem : Memory} {pos : Nat} {bs : List Byte} (hsize : size ≤ 2 ^ 64)
    (hpos : pos ≤ size) (h : boundedReader relData size mem pos = some bs) :
    reader relData mem pos = some bs ∧ pos + bs.length ≤ size ∧ 0 < bs.length := by
  obtain ⟨⟨x, y⟩, hsplit, rfl⟩ := Option.map_eq_some_iff.mp h
  obtain ⟨happ, hlen⟩ := Leb128.split_eq_some hsplit
  have hle : x.length ≤ size - pos := by
    have hlength := congrArg List.length happ
    rw [Memory.length_read, List.length_append] at hlength
    omega
  refine ⟨Leb128.take_of_split hsplit (Nat.le_trans hle (by omega)), ?_, hlen⟩
  show pos + x.length ≤ size
  omega

/-- One that is cut off is read beyond the section, if it ends at all. -/
theorem lt_of_bounded_none {mem : Memory} {pos : Nat} {bs : List Byte}
    (h : boundedReader relData size mem pos = none) (hread : reader relData mem pos = some bs) :
    size < pos + bs.length := by
  have hlt := Leb128.lt_length_of_split (Option.map_eq_none_iff.mp h) hread
  omega

/-- The outcome of the function against that of the checked reading. -/
def Agrees (size : Nat) (checked live : Option Packed) : Prop :=
  match checked with
  | some s => live = some s ∧ s.pos ≤ size
  | none => ∀ s, live = some s → size < s.pos

theorem relocLoop_beyond {relocCount : Nat} {type addend : BitVec 64} {fuel left : Nat}
    {s s' : Packed} {read : Reader} (hpos : size < s.pos)
    (h : relocLoop c m read size relocCount type addend fuel left s = some s') :
    size < s'.pos := by
  cases fuel with
  | zero => cases h
  | succ fuel =>
    rw [relocLoop, if_pos (.inr (.inl (Nat.le_of_lt hpos)))] at h
    obtain rfl := Option.some.inj h
    exact hpos

theorem groupLoop_beyond {relocCount : Nat} {fuel : Nat} {s s' : Packed} {read : Reader}
    (hpos : size < s.pos) (h : groupLoop c m read size relocCount fuel s = some s') :
    size < s'.pos := by
  cases fuel with
  | zero => cases h
  | succ fuel =>
    rw [groupLoop, if_pos (.inr (Nat.le_of_lt hpos))] at h
    obtain rfl := Option.some.inj h
    exact hpos

/-- One number, and whatever is done behind it. -/
private theorem agrees_number {mem : Memory} {pos : Nat} {value : List Byte → BitVec 64}
    {checked live : BitVec 64 × Nat → Option Packed} (hsize : size ≤ 2 ^ 64) (hpos : pos ≤ size)
    (hsame : ∀ v k, pos + k ≤ size → Agrees size (checked (v, k)) (live (v, k)))
    (hbeyond : ∀ v k s, size < pos + k → live (v, k) = some s → size < s.pos) :
    Agrees size
      (((boundedReader relData size mem pos).map fun bs ↦ (value bs, bs.length)).bind checked)
      (((reader relData mem pos).map fun bs ↦ (value bs, bs.length)).bind live) := by
  cases hread : boundedReader relData size mem pos with
  | some bs =>
    obtain ⟨hlive, hend, -⟩ := reader_of_bounded hsize hpos hread
    rw [hlive]
    exact hsame (value bs) bs.length hend
  | none =>
    intro s hs
    obtain ⟨⟨v, k⟩, hnumber, hrest⟩ := Option.bind_eq_some_iff.mp hs
    obtain ⟨bs, hbs, heq⟩ := Option.map_eq_some_iff.mp hnumber
    obtain ⟨rfl, rfl⟩ := Prod.mk.inj heq
    exact hbeyond _ _ s (lt_of_bounded_none hread hbs) hrest

theorem relocLoop_agrees (hsize : size ≤ 2 ^ 64) {relocCount : Nat} {type addend : BitVec 64}
    (fuel left : Nat) (s : Packed) (hpos : s.pos ≤ size) :
    Agrees size
      (relocLoop c m (boundedReader relData size) size relocCount type addend fuel left s)
      (relocLoop c m (reader relData) size relocCount type addend fuel left s) := by
  induction fuel generalizing left s with
  | zero =>
    intro s' hs'
    cases hs'
  | succ fuel ih =>
    rw [relocLoop, relocLoop]
    split
    · exact ⟨rfl, hpos⟩
    · apply agrees_number hsize hpos
      · intro v k hk
        exact ih _ _ hk
      · intro v k s' hk hs'
        exact relocLoop_beyond hk hs'

/-- The same for two runs one after the other. -/
private theorem Agrees.bind {checked live : Option Packed} {f g : Packed → Option Packed}
    (h : Agrees size checked live) (hsame : ∀ s, s.pos ≤ size → Agrees size (f s) (g s))
    (hbeyond : ∀ s s', size < s.pos → g s = some s' → size < s'.pos) :
    Agrees size (checked.bind f) (live.bind g) := by
  cases checked with
  | some s =>
    rw [h.1]
    exact hsame s h.2
  | none =>
    intro s' hs'
    obtain ⟨s, hs, hrest⟩ := Option.bind_eq_some_iff.mp hs'
    exact hbeyond s s' (h s hs) hrest

theorem groupLoop_agrees (hsize : size ≤ 2 ^ 64) {relocCount : Nat} (fuel : Nat) (s : Packed)
    (hpos : s.pos ≤ size) :
    Agrees size (groupLoop c m (boundedReader relData size) size relocCount fuel s)
      (groupLoop c m (reader relData) size relocCount fuel s) := by
  induction fuel generalizing s with
  | zero =>
    intro s' hs'
    cases hs'
  | succ fuel ih =>
    rw [groupLoop, groupLoop]
    split
    · exact ⟨rfl, hpos⟩
    · apply agrees_number hsize hpos
      · intro count k hk
        dsimp only
        split
        · exact ⟨rfl, hk⟩
        · apply agrees_number hsize hk
          · intro type k' hk'
            dsimp only
            split
            · exact ⟨rfl, hk'⟩
            · apply agrees_number hsize hk'
              · intro addend k'' hk''
                dsimp only
                split
                · exact ⟨rfl, hk''⟩
                · apply (relocLoop_agrees hsize _ _ _ hk'').bind
                  · intro s' hs'
                    exact ih s' hs'
                  · intro s' s'' hs' hs''
                    exact groupLoop_beyond hs' hs''
              · intro addend k'' s' hk'' hs'
                dsimp only at hs'
                rw [if_pos (Nat.le_of_lt hk'')] at hs'
                obtain rfl := Option.some.inj hs'
                exact hk''
          · intro type k' s' hk' hs'
            dsimp only at hs'
            rw [if_pos (Nat.le_of_lt hk')] at hs'
            obtain rfl := Option.some.inj hs'
            exact hk'
      · intro count k s' hk hs'
        dsimp only at hs'
        rw [if_pos (.inr (Nat.le_of_lt hk))] at hs'
        obtain rfl := Option.some.inj hs'
        exact hk

/-- The function does what the checked reading says, or it reads beyond the section. -/
theorem packedRelocs_agrees (hsize : size ≤ 2 ^ 64) :
    Agrees size (packedRelocs c m (boundedReader relData size) size)
      (packedRelocs c m (reader relData) size) := by
  apply agrees_number hsize (Nat.zero_le _)
  · intro relocCount k hk
    apply agrees_number hsize hk
    · intro relocSize k' hk'
      dsimp only
      split
      · exact ⟨rfl, hk'⟩
      · exact groupLoop_agrees hsize _ _ hk'
    · intro relocSize k' s' hk' hs'
      dsimp only at hs'
      rw [if_pos (.inr (Nat.le_of_lt hk'))] at hs'
      obtain rfl := Option.some.inj hs'
      exact hk'
  · intro relocCount k s' hk hs'
    obtain ⟨⟨relocSize, k'⟩, -, hrest⟩ := Option.bind_eq_some_iff.mp hs'
    have hk' : size < 0 + k + k' := Nat.lt_of_lt_of_le hk (Nat.le_add_right _ _)
    dsimp only at hrest
    rw [if_pos (.inr (Nat.le_of_lt hk'))] at hrest
    obtain rfl := Option.some.inj hrest
    exact hk'

/-! ## The fuel

Every number takes a byte at least, so the loops end before their fuel does. -/

section

variable {read : Reader} {relocCount : Nat}

theorem reader_pos (mem : Memory) (pos : Nat) (bs : List Byte)
    (h : reader relData mem pos = some bs) : 0 < bs.length := Leb128.length_pos_of_take h

/-- More fuel than there are bytes left changes nothing. -/
theorem relocLoop_fuel (hread : ∀ mem pos bs, read mem pos = some bs → 0 < bs.length)
    {type addend : BitVec 64} {fuel fuel' left : Nat} {s : Packed} (hfuel : size < s.pos + fuel)
    (hfuel' : size < s.pos + fuel') (hpos : 0 < fuel) (hpos' : 0 < fuel') :
    relocLoop c m read size relocCount type addend fuel left s =
      relocLoop c m read size relocCount type addend fuel' left s := by
  induction fuel generalizing fuel' left s with
  | zero => exact absurd hpos (Nat.lt_irrefl 0)
  | succ fuel ih =>
    cases fuel' with
    | zero => exact absurd hpos' (Nat.lt_irrefl 0)
    | succ fuel' =>
      rw [relocLoop, relocLoop]
      split
      · rfl
      · next hgo =>
        cases hnumber : read s.out.mem s.pos with
        | none => simp only [decodeUleb128, hnumber, Option.map_none, Option.bind_eq_bind,
            Option.bind_none]
        | some bs =>
          have hbs := hread _ _ _ hnumber
          simp only [decodeUleb128, hnumber, Option.map_some, Option.bind_eq_bind,
            Option.bind_some]
          apply ih
          · show size < s.pos + bs.length + fuel
            omega
          · show size < s.pos + bs.length + fuel'
            omega
          · omega
          · omega

theorem relocLoop_pos_le {type addend : BitVec 64} {fuel left : Nat} {s s' : Packed}
    (h : relocLoop c m read size relocCount type addend fuel left s = some s') :
    s.pos ≤ s'.pos := by
  induction fuel generalizing left s with
  | zero => cases h
  | succ fuel ih =>
    rw [relocLoop] at h
    split at h
    · obtain rfl := Option.some.inj h
      exact Nat.le_refl _
    · obtain ⟨⟨delta, k⟩, -, hrest⟩ := Option.bind_eq_some_iff.mp h
      exact Nat.le_trans (Nat.le_add_right _ _) (ih hrest)

theorem groupLoop_fuel (hread : ∀ mem pos bs, read mem pos = some bs → 0 < bs.length)
    {fuel fuel' : Nat} {s : Packed} (hfuel : size < s.pos + fuel)
    (hfuel' : size < s.pos + fuel') (hpos : 0 < fuel) (hpos' : 0 < fuel') :
    groupLoop c m read size relocCount fuel s = groupLoop c m read size relocCount fuel' s := by
  induction fuel generalizing fuel' s with
  | zero => exact absurd hpos (Nat.lt_irrefl 0)
  | succ fuel ih =>
    cases fuel' with
    | zero => exact absurd hpos' (Nat.lt_irrefl 0)
    | succ fuel' =>
      rw [groupLoop, groupLoop]
      split
      · rfl
      · apply Option.bind_congr
        rintro ⟨count, k⟩ hcount
        obtain ⟨bs, hbs, heq⟩ := Option.map_eq_some_iff.mp hcount
        obtain ⟨-, rfl⟩ := Prod.mk.inj heq
        have hlen := hread _ _ _ hbs
        dsimp only
        split
        · rfl
        · apply Option.bind_congr
          rintro ⟨type, k⟩ -
          dsimp only
          split
          · rfl
          · apply Option.bind_congr
            rintro ⟨addend, k'⟩ -
            dsimp only
            split
            · rfl
            · apply Option.bind_congr
              intro t ht
              have hle := relocLoop_pos_le ht
              dsimp only at hle
              apply ih
              · omega
              · omega
              · omega
              · omega

end

/-! ## What is written -/

/-- Whether a relocation of a type is written, which does not depend on the word. -/
def writesWord (c : Elf.Class) (m : ElfModule) (v : Visit) : Bool := (newWord c m v 0).isSome

/-- The word of a relocation. -/
def wordRegion (c : Elf.Class) (m : ElfModule) (v : Visit) : Region :=
  ⟨m.pointer v.offset, wordSize c⟩

theorem newWord_isSome (v : Visit) (old : BitVec 64) :
    (newWord c m v old).isSome = writesWord c m v := by
  rw [writesWord]
  cases c with
  | elf32 =>
    simp only [newWord]
    split
    · rfl
    · rfl
  | elf64 =>
    simp only [newWord]

/-- The words written are those of the relocations that write. -/
def Effects.Accounted (c : Elf.Class) (m : ElfModule) (out : Effects) : Prop :=
  out.writes = (out.visits.filter (writesWord c m)).map (wordRegion c m)

theorem Effects.Accounted.perform {out : Effects} (h : out.Accounted c m) (v : Visit) :
    (perform c m out v).Accounted c m := by
  rw [Reloc.perform]
  dsimp only
  split
  · cases hword : newWord c m v (field out.mem (m.pointer v.offset) 0 (wordSize c)) with
    | some word =>
      have hwrites : writesWord c m v = true := by
        rw [← newWord_isSome v _, hword]
        rfl
      show out.writes ++ [wordRegion c m v] = _
      rw [Effects.Accounted.eq_1] at h
      rw [h, List.filter_append, List.map_append, List.filter_cons_of_pos hwrites]
      rfl
    | none =>
      have hwrites : writesWord c m v = false := by
        rw [← newWord_isSome v _, hword]
        rfl
      show out.writes = _
      have hskip : ¬ writesWord c m v = true := Bool.eq_false_iff.mp hwrites
      rw [Effects.Accounted.eq_1] at h
      rw [h, List.filter_append, List.filter_cons_of_neg hskip, List.filter_nil,
        List.append_nil]
  · exact h

section

variable {read : Reader}

theorem relocLoop_accounted {relocCount : Nat} {type addend : BitVec 64} {fuel left : Nat}
    {s s' : Packed} (hs : s.out.Accounted c m)
    (h : relocLoop c m read size relocCount type addend fuel left s = some s') :
    s'.out.Accounted c m := by
  induction fuel generalizing left s with
  | zero => cases h
  | succ fuel ih =>
    rw [relocLoop] at h
    split at h
    · obtain rfl := Option.some.inj h
      exact hs
    · obtain ⟨⟨delta, k⟩, -, hrest⟩ := Option.bind_eq_some_iff.mp h
      exact ih (hs.perform _) hrest

theorem groupLoop_accounted {relocCount : Nat} {fuel : Nat} {s s' : Packed}
    (hs : s.out.Accounted c m) (h : groupLoop c m read size relocCount fuel s = some s') :
    s'.out.Accounted c m := by
  induction fuel generalizing s with
  | zero => cases h
  | succ fuel ih =>
    rw [groupLoop] at h
    split at h
    · obtain rfl := Option.some.inj h
      exact hs
    · obtain ⟨⟨count, k⟩, -, h⟩ := Option.bind_eq_some_iff.mp h
      dsimp only at h
      split at h
      · obtain rfl := Option.some.inj h
        exact hs
      · obtain ⟨⟨type, k⟩, -, h⟩ := Option.bind_eq_some_iff.mp h
        dsimp only at h
        split at h
        · obtain rfl := Option.some.inj h
          exact hs
        · obtain ⟨⟨addend, k⟩, -, h⟩ := Option.bind_eq_some_iff.mp h
          dsimp only at h
          split at h
          · obtain rfl := Option.some.inj h
            exact hs
          · obtain ⟨t, ht, h⟩ := Option.bind_eq_some_iff.mp h
            have hloop : t.out.Accounted c m := by
              apply relocLoop_accounted _ ht
              exact hs
            exact ih hloop h

theorem packedRelocs_accounted {s : Packed} (h : packedRelocs c m read size = some s) :
    s.out.Accounted c m := by
  obtain ⟨⟨relocCount, k⟩, -, h⟩ := Option.bind_eq_some_iff.mp h
  obtain ⟨⟨relocSize, k'⟩, -, h⟩ := Option.bind_eq_some_iff.mp h
  dsimp only at h
  split at h
  · obtain rfl := Option.some.inj h
    rfl
  · apply groupLoop_accounted _ h
    rfl

theorem applyPackedWith_accounted {read : BitVec 64 → Nat → Reader} {s : Packed}
    (h : applyPackedWith read m = some s) : s.out.Accounted (packedClass m) m := by
  obtain ⟨tags, -, h⟩ := Option.bind_eq_some_iff.mp h
  dsimp only at h
  split at h
  · obtain rfl := Option.some.inj h
    rfl
  · exact packedRelocs_accounted h

end

/-! ## Safety -/

/-- A region inside the mapping of a module. -/
def InMapping (m : ElfModule) (r : Region) : Prop :=
  (r.start - m.memory).toNat + r.size ≤ m.mappedSize

/-- The function ends, it has read bytes of the section only, and it has written inside the
mapping only. -/
def Safe (m : ElfModule) : Prop :=
  ∃ tags s, moduleTags (packedClass m) m = some tags ∧ applyAndroidPackedRelocs m = some s ∧
    s.pos ≤ (tags dtAndroidRelSz).toNat ∧ ∀ r ∈ s.out.writes, InMapping m r

/-- No number of the section is cut off, and the relocations that write lie inside the mapping with
their whole words. -/
def Contained (m : ElfModule) : Prop :=
  ∃ s, checkedPackedRelocs m = some s ∧ ∀ v ∈ s.out.visits, writesWord (packedClass m) m v = true →
    (v.offset - m.loadBias).toNat + wordSize (packedClass m) ≤ m.mappedSize

theorem inMapping_wordRegion (v : Visit) :
    InMapping m (wordRegion c m v) ↔
      (v.offset - m.loadBias).toNat + wordSize c ≤ m.mappedSize := by
  have hstart : m.pointer v.offset - m.memory = v.offset - m.loadBias := by
    rw [ElfModule.pointer]
    bv_omega
  rw [InMapping, wordRegion, hstart]

theorem apply_agrees {tags : BitVec 64 → BitVec 64} (h : moduleTags (packedClass m) m = some tags) :
    Agrees (tags dtAndroidRelSz).toNat (checkedPackedRelocs m) (applyAndroidPackedRelocs m) := by
  rw [checkedPackedRelocs, applyAndroidPackedRelocs, applyPackedWith, applyPackedWith, h]
  show Agrees _ (if _ then _ else _) (if _ then _ else _)
  split
  · exact ⟨rfl, Nat.zero_le _⟩
  · exact packedRelocs_agrees (Nat.le_of_lt (tags dtAndroidRelSz).isLt)

private theorem inMapping_iff {s : Packed} (h : s.out.Accounted c m) :
    (∀ r ∈ s.out.writes, InMapping m r) ↔
      ∀ v ∈ s.out.visits, writesWord c m v = true →
        (v.offset - m.loadBias).toNat + wordSize c ≤ m.mappedSize := by
  rw [h]
  constructor
  · intro hin v hv hwrites
    apply (inMapping_wordRegion v).mp
    exact hin _ (List.mem_map_of_mem (List.mem_filter.mpr ⟨hv, hwrites⟩))
  · intro hin r hr
    obtain ⟨v, hv, rfl⟩ := List.mem_map.mp hr
    obtain ⟨hmem, hwrites⟩ := List.mem_filter.mp hv
    exact (inMapping_wordRegion v).mpr (hin v hmem hwrites)

theorem safe_iff (m : ElfModule) : Safe m ↔ Contained m := by
  constructor
  · rintro ⟨tags, s, htags, hs, hpos, hwrites⟩
    have hagree := apply_agrees htags
    cases hchecked : checkedPackedRelocs m with
    | some t =>
      rw [hchecked] at hagree
      obtain rfl : t = s := Option.some.inj (hagree.1.symm.trans hs)
      exact ⟨t, hchecked, (inMapping_iff (applyPackedWith_accounted hs)).mp hwrites⟩
    | none =>
      rw [hchecked] at hagree
      have hbeyond := hagree s hs
      omega
  · rintro ⟨s, hs, hvisits⟩
    obtain ⟨tags, htags, -⟩ := Option.bind_eq_some_iff.mp hs
    have hagree := apply_agrees htags
    rw [hs] at hagree
    have haccounted := applyPackedWith_accounted hs
    exact ⟨tags, s, htags, hagree.1, hagree.2, (inMapping_iff haccounted).mpr hvisits⟩

end Arm2x86.Reloc
