import Arm2x86.Base.Walks
import Arm2x86.Elf.Image
import Arm2x86.Elf.Symbols

/-!
# When symbol lookups end

The chains of `DT_HASH` are links that a file may close to a circle, and without chains the buckets are
taken for them. The chains of `DT_GNU_HASH` go upwards and the versions are counted, so these searches
end for every image.
-/

namespace Arm2x86.Elf

open Walks

/-- A search ends, and the indices it uses into the symbols and the chains are in range. -/
def Settles (nchain : BitVec 32) (f : Nat → Option Lookup) : Prop :=
  ∃ fuel l, f fuel = some l ∧ ∀ a ∈ l.accesses, a.table ≠ .versym → a.index < nchain

/-- The lookups of a symbol and of a version. -/
structure LookupRight (m : ElfModule) (vs : Versions) (name : List Byte) (symIdx : BitVec 32) : Prop where
  symbol : Settles m.nchain fun fuel ↦ elfGetSymbol fuel m name
  version : Settles m.nchain fun fuel ↦ elfGetSymbolVersion m vs fuel symIdx

namespace ElfModule

variable (m : ElfModule) (name : List Byte)

/-- Where the search in a chain of `DT_HASH` stops. -/
def sysvStops (idx : BitVec 32) : Bool :=
  idx == 0 || decide (m.numSyms ≤ idx) || nameAt m.mem (m.symName m.symClass idx) name

/-- The chain of a name ends as soon as it can, and it is not taken from the buckets. -/
def ChainEnds : Prop :=
  m.hasSysv = true →
    (∃ k < m.numSyms.toNat, m.sysvStops name ((m.word32 m.chain)^[k] (m.sysvFirst name)) = true) ∧
      (m.nchain ≠ 0 ∨ m.sysvFirst name = 0 ∨ m.nbucket ≤ m.sysvFirst name)

instance : Decidable (m.ChainEnds name) :=
  inferInstanceAs (Decidable (m.hasSysv = true →
    (∃ k < m.numSyms.toNat, m.sysvStops name ((m.word32 m.chain)^[k] (m.sysvFirst name)) = true) ∧
      (m.nchain ≠ 0 ∨ m.sysvFirst name = 0 ∨ m.nbucket ≤ m.sysvFirst name)))

end ElfModule

section Sysv

variable {m : ElfModule} {name : List Byte} {fuel : Nat} {idx : BitVec 32} {acc : List Access} {l : Lookup}

/-- What the loop keeps of the indices on its way. -/
def wayAccesses (as : List (BitVec 32)) : List Access :=
  as.flatMap fun i ↦ [⟨.symtab, i⟩, ⟨.chain, i⟩]

theorem sysvStops_eq_false : m.sysvStops name idx = false ↔
    (idx ≠ 0 ∧ idx < m.numSyms) ∧ nameAt m.mem (m.symName m.symClass idx) name = false := by
  simp [ElfModule.sysvStops, BitVec.not_le, and_assoc]

/-- What the loop makes of the end of its way. -/
def sysvEnd (m : ElfModule) (e : BitVec 32) (acc : List Access) : Lookup :=
  if e ≠ 0 ∧ e < m.numSyms then ⟨some (m.symAddress m.symClass e), acc ++ [⟨.symtab, e⟩]⟩
  else ⟨none, acc⟩

/-- The loop of `ElfGetSymbol` over a chain, wherever its links are. -/
def chainLoop (m : ElfModule) (next : BitVec 32 → BitVec 32) (name : List Byte) :
    Nat → BitVec 32 → List Access → Option Lookup
  | 0, _, _ => none
  | fuel + 1, idx, acc =>
    if idx ≠ 0 ∧ idx < m.numSyms then
      if nameAt m.mem (m.symName m.symClass idx) name then
        some ⟨some (m.symAddress m.symClass idx), acc ++ [⟨.symtab, idx⟩]⟩
      else chainLoop m next name fuel (next idx) (acc ++ [⟨.symtab, idx⟩, ⟨.chain, idx⟩])
    else some ⟨none, acc⟩

theorem sysvLoop_eq_chainLoop : m.sysvLoop name fuel idx acc =
    chainLoop m (m.word32 m.chain) name fuel idx acc := by
  induction fuel generalizing idx acc with
  | zero => rfl
  | succ fuel ih => rw [ElfModule.sysvLoop, chainLoop, ih]

/-- The loop follows the links. -/
theorem chainLoop_eq (next : BitVec 32 → BitVec 32) : chainLoop m next name fuel idx acc =
    (follow next (m.sysvStops name) fuel idx).map fun way ↦
      sysvEnd m way.2 (acc ++ wayAccesses way.1) := by
  induction fuel generalizing idx acc with
  | zero => rfl
  | succ fuel ih =>
    rw [chainLoop]
    by_cases hidx : idx ≠ 0 ∧ idx < m.numSyms
    · rw [if_pos hidx]
      cases hname : nameAt m.mem (m.symName m.symClass idx) name with
      | true =>
        have hstop : m.sysvStops name idx = true := by
          rw [ElfModule.sysvStops, hname, Bool.or_true]
        rw [follow_of_stop hstop, if_pos rfl, Option.map_some, sysvEnd, if_pos hidx, wayAccesses,
          List.flatMap_nil, List.append_nil]
      | false =>
        rw [follow_of_go (sysvStops_eq_false.mpr ⟨hidx, hname⟩), if_neg Bool.false_ne_true, ih,
          Option.map_map]
        congr 1
        funext way
        simp [wayAccesses]
    · have hstop : m.sysvStops name idx = true := by
        rw [← Bool.not_eq_false, sysvStops_eq_false]
        exact fun h ↦ hidx h.1
      rw [if_neg hidx, follow_of_stop hstop, Option.map_some, sysvEnd, if_neg hidx, wayAccesses,
        List.flatMap_nil, List.append_nil]

/-- The links of a search in memory are those of its chain. -/
theorem sysvLoop_eq : m.sysvLoop name fuel idx acc =
    (follow (m.word32 m.chain) (m.sysvStops name) fuel idx).map fun way ↦
      sysvEnd m way.2 (acc ++ wayAccesses way.1) := by
  rw [sysvLoop_eq_chainLoop, chainLoop_eq]

theorem sysvLoop_mono {fuel' : Nat} (hle : fuel ≤ fuel') (h : m.sysvLoop name fuel idx acc = some l) :
    m.sysvLoop name fuel' idx acc = some l := by
  rw [sysvLoop_eq] at h ⊢
  obtain ⟨⟨as, e⟩, hfollow, hl⟩ := Option.map_eq_some_iff.mp h
  rw [follow_mono hle hfollow, ← hl]
  rfl

/-- The indices that the loop uses are below the number of symbols. -/
theorem sysvLoop_accesses (h : m.sysvLoop name fuel idx [] = some l) :
    ∀ a ∈ l.accesses, a.index < m.numSyms := by
  rw [sysvLoop_eq] at h
  obtain ⟨⟨as, e⟩, hfollow, rfl⟩ := Option.map_eq_some_iff.mp h
  obtain ⟨-, -, hway⟩ := follow_spec hfollow
  have has : ∀ a ∈ wayAccesses as, a.index < m.numSyms := by
    intro a ha
    obtain ⟨i, hi, ha⟩ := List.mem_flatMap.mp ha
    have hlt := (sysvStops_eq_false.mp (hway i hi)).1.2
    rcases List.mem_pair.mp ha with rfl | rfl
    · exact hlt
    · exact hlt
  intro a ha
  simp only [sysvEnd, List.nil_append] at ha
  split at ha
  · next he =>
    rcases List.mem_append.mp ha with ha | ha
    · exact has a ha
    · rw [List.mem_singleton.mp ha]
      exact he.2
  · exact has a ha

/-- The first index is used if it is in range. -/
theorem first_mem_accesses (hidx : idx ≠ 0 ∧ idx < m.numSyms) (h : m.sysvLoop name fuel idx [] = some l) :
    ⟨.symtab, idx⟩ ∈ l.accesses := by
  cases fuel with
  | zero => cases h
  | succ fuel =>
    rw [ElfModule.sysvLoop, if_pos hidx] at h
    split at h
    · rw [← Option.some.inj h]
      exact List.mem_singleton.mpr rfl
    · rw [sysvLoop_eq] at h
      obtain ⟨⟨as, e⟩, -, rfl⟩ := Option.map_eq_some_iff.mp h
      simp only [sysvEnd]
      split <;> simp

/-- A search in the tables of `DT_HASH` ends if and only if it stops within as many steps as there are
symbols. -/
theorem sysvLoop_ends_iff (hbuckets : m.nbucket ≠ 0) :
    (∃ fuel l, m.sysvLoop name fuel idx [] = some l) ↔
      ∃ k < m.numSyms.toNat, m.sysvStops name ((m.word32 m.chain)^[k] idx) = true := by
  have hnum : 0 < m.numSyms.toNat := by
    have hne : m.numSyms ≠ 0 := by
      unfold ElfModule.numSyms
      split
      · next h => exact h
      · exact hbuckets
    exact Nat.pos_of_ne_zero fun h ↦ hne (BitVec.eq_of_toNat_eq h)
  let s := ((Finset.range m.numSyms.toNat).erase 0).image (BitVec.ofNat 32)
  have hs : ∀ i, m.sysvStops name i = false → i ∈ s := by
    intro i hi
    obtain ⟨hzero, hlt⟩ := (sysvStops_eq_false.mp hi).1
    refine Finset.mem_image.mpr ⟨i.toNat, ?_, by simp⟩
    exact Finset.mem_erase.mpr ⟨fun h ↦ hzero (BitVec.eq_of_toNat_eq h), Finset.mem_range.mpr hlt⟩
  have hcard : s.card < m.numSyms.toNat := by
    refine Nat.lt_of_le_of_lt Finset.card_image_le ?_
    rw [Finset.card_erase_of_mem (Finset.mem_range.mpr hnum), Finset.card_range]
    omega
  constructor
  · rintro ⟨fuel, l, h⟩
    rw [sysvLoop_eq] at h
    obtain ⟨⟨as, e⟩, hfollow, -⟩ := Option.map_eq_some_iff.mp h
    obtain ⟨k, hk, hstop⟩ := exists_le_card hs (exists_follow_iff.mp ⟨fuel, as, e, hfollow⟩)
    exact ⟨k, Nat.lt_of_le_of_lt hk hcard, hstop⟩
  · rintro ⟨k, -, hstop⟩
    obtain ⟨as, e, hfollow⟩ := follow_of_iterate hstop
    refine ⟨k + 1, sysvEnd m e ([] ++ wayAccesses as), ?_⟩
    rw [sysvLoop_eq, hfollow]
    rfl

end Sysv

section Gnu

variable {m : ElfModule} {name : List Byte} {fuel : Nat} {idx : BitVec 32} {acc : List Access}

/-- The loop over a chain of `DT_GNU_HASH` ends, with indices in range. -/
theorem gnuLoop_ends (hoffset : m.gnuTable.symoffset ≤ idx) (hidx : idx < m.nchain)
    (hfuel : m.nchain.toNat - idx.toNat ≤ fuel) :
    ∃ l, m.gnuLoop name fuel idx acc = some l ∧ ∀ a ∈ l.accesses, a ∈ acc ∨ a.index < m.nchain := by
  induction fuel generalizing idx acc with
  | zero =>
    rw [BitVec.lt_def] at hidx
    omega
  | succ fuel ih =>
    rw [ElfModule.gnuLoop]
    dsimp only
    have hsub : idx - m.gnuTable.symoffset < m.nchain := by bv_omega
    generalize hacc : acc ++ ⟨.gnuChain, idx - m.gnuTable.symoffset⟩ ::
      (if (m.word32 m.gnuTable.chain (idx - m.gnuTable.symoffset) ||| 1 == gnuHash name ||| 1) = true
        then [⟨.symtab, idx⟩] else []) = acc'
    have hnew : ∀ a ∈ acc', a ∈ acc ∨ a.index < m.nchain := by
      intro a ha
      rw [← hacc] at ha
      rcases List.mem_append.mp ha with ha | ha
      · exact Or.inl ha
      · right
        rcases List.mem_cons.mp ha with rfl | ha
        · exact hsub
        · split at ha
          · rw [List.mem_singleton.mp ha]
            exact hidx
          · exact absurd ha List.not_mem_nil
    split_ifs with hout hhit hgo
    · exact ⟨_, rfl, fun a ha ↦ Or.inl ha⟩
    · exact ⟨_, rfl, hnew⟩
    · obtain ⟨l, hl, hmem⟩ := @ih (idx + 1) acc' (by bv_omega) hgo.2 (by bv_omega)
      refine ⟨l, hl, fun a ha ↦ ?_⟩
      rcases hmem a ha with ha | ha
      · exact hnew a ha
      · exact Or.inr ha
    · exact ⟨_, rfl, hnew⟩

theorem gnuSymbol_ends (hfuel : 2 ^ 32 ≤ fuel) :
    ∃ l, m.gnuSymbol name fuel acc = some l ∧ ∀ a ∈ l.accesses, a ∈ acc ∨ a.index < m.nchain := by
  have hsame : ∃ l : Lookup, some (⟨none, acc⟩ : Lookup) = some l ∧
      ∀ a ∈ l.accesses, a ∈ acc ∨ a.index < m.nchain := ⟨_, rfl, fun a ha ↦ Or.inl ha⟩
  unfold ElfModule.gnuSymbol
  dsimp only
  split_ifs with hnone hidx
  · exact hsame
  · exact gnuLoop_ends hidx.1 hidx.2 (by have := m.nchain.isLt; omega)
  · exact hsame

end Gnu

section Versions

variable {m : ElfModule} {vs : Versions} {verIdx : BitVec 64} {fuel : Nat}

/-- The entries of `Elf64_Verdef` are counted. -/
theorem verdefLoop_ends {i : BitVec 32} {current : BitVec 64} (hfuel : vs.verdefnum.toNat - i.toNat < fuel) :
    ∃ found, verdefLoop m vs verIdx fuel i current = some found := by
  induction fuel generalizing i current with
  | zero => exact absurd hfuel (Nat.not_lt_zero _)
  | succ fuel ih =>
    rw [verdefLoop]
    split_ifs with hi hfound hlast
    · exact ⟨_, rfl⟩
    · exact ⟨_, rfl⟩
    · exact ih (by bv_omega)
    · exact ⟨_, rfl⟩

theorem vernauxLoop_ends {cnt : BitVec 64} {j : BitVec 32} {vernaux : BitVec 64} (hcnt : cnt.toNat < 2 ^ 32)
    (hfuel : cnt.toNat - j.toNat < fuel) : ∃ found, vernauxLoop m verIdx cnt fuel j vernaux = some found := by
  induction fuel generalizing j vernaux with
  | zero => exact absurd hfuel (Nat.not_lt_zero _)
  | succ fuel ih =>
    rw [vernauxLoop]
    split_ifs with hj hfound hlast
    · exact ⟨_, rfl⟩
    · exact ⟨_, rfl⟩
    · exact ih (by bv_omega)
    · exact ⟨_, rfl⟩

theorem field_lt (mem : Memory) (p : BitVec 64) (offset bytes : Nat) :
    (field mem p offset bytes).toNat < 256 ^ bytes := by
  have hlt := leNat_lt (mem.read (p + BitVec.ofNat 64 offset) bytes)
  rw [Memory.length_read] at hlt
  exact Nat.lt_of_le_of_lt (Nat.mod_le _ _) hlt

theorem verneedLoop_ends {turns : Nat} (hturns : 2 ^ 16 ≤ turns) {i : BitVec 32} {current : BitVec 64}
    (hfuel : vs.verneednum.toNat - i.toNat < fuel) :
    ∃ found, verneedLoop m vs verIdx turns fuel i current = some found := by
  induction fuel generalizing i current with
  | zero => exact absurd hfuel (Nat.not_lt_zero _)
  | succ fuel ih =>
    rw [verneedLoop]
    by_cases hi : i < vs.verneednum
    · have hcnt := field_lt m.mem current 2 2
      obtain ⟨found, hfound⟩ := @vernauxLoop_ends m verIdx turns (field m.mem current 2 2) 0
        (current + field m.mem current 8 4) (by omega) (by omega)
      rw [if_pos hi, hfound, Option.bind_eq_bind, Option.bind_some]
      cases found with
      | some found => exact ⟨_, rfl⟩
      | none =>
        dsimp only
        split_ifs
        · exact ⟨_, rfl⟩
        · exact ih (by bv_omega)
    · rw [if_neg hi]
      exact ⟨_, rfl⟩

theorem verdefName_ends (m : ElfModule) (vs : Versions) (verIdx : BitVec 64) :
    ∃ found, verdefName m vs verIdx (2 ^ 32) = some found := by
  unfold verdefName
  split
  · exact ⟨_, rfl⟩
  · exact verdefLoop_ends (Nat.lt_of_le_of_lt (Nat.sub_le _ _) vs.verdefnum.isLt)

theorem verneedName_ends (m : ElfModule) (vs : Versions) (verIdx : BitVec 64) :
    ∃ found, verneedName m vs verIdx (2 ^ 32) = some found := by
  unfold verneedName
  split
  · exact ⟨_, rfl⟩
  · exact verneedLoop_ends (by decide) (Nat.lt_of_le_of_lt (Nat.sub_le _ _) vs.verneednum.isLt)

/-- The search for a version ends, and it uses an index into the versions only. -/
theorem elfGetSymbolVersion_settles (m : ElfModule) (vs : Versions) (symIdx : BitVec 32) :
    Settles m.nchain fun fuel ↦ elfGetSymbolVersion m vs fuel symIdx := by
  by_cases hnone : vs.versym = 0
  · exact ⟨0, ⟨none, []⟩, if_pos hnone, fun a ha ↦ absurd ha List.not_mem_nil⟩
  · have hfinds : ∃ found, elfGetSymbolVersion m vs (2 ^ 32) symIdx = some ⟨found, [⟨.versym, symIdx⟩]⟩ := by
      unfold elfGetSymbolVersion
      rw [if_neg hnone]
      dsimp only
      split
      · exact ⟨_, rfl⟩
      · obtain ⟨found, hdef⟩ := verdefName_ends m vs (field m.mem (vs.versym + 2 * symIdx.setWidth 64) 0 2)
        rw [hdef, Option.bind_eq_bind, Option.bind_some]
        cases found with
        | some found => exact ⟨_, rfl⟩
        | none =>
          obtain ⟨found, hneed⟩ :=
            verneedName_ends m vs (field m.mem (vs.versym + 2 * symIdx.setWidth 64) 0 2)
          rw [hneed]
          exact ⟨_, rfl⟩
    obtain ⟨found, hfound⟩ := hfinds
    refine ⟨2 ^ 32, _, hfound, fun a ha hne ↦ ?_⟩
    rw [List.mem_singleton.mp ha] at hne
    exact absurd rfl hne

end Versions

section Lookups

variable {m : ElfModule} {name : List Byte}

/-- Without chains nothing is found in the buckets of `DT_GNU_HASH`. -/
theorem gnuSymbol_of_empty (h : m.nchain = 0) (fuel : Nat) (acc : List Access) :
    m.gnuSymbol name fuel acc = some ⟨none, acc⟩ := by
  unfold ElfModule.gnuSymbol
  dsimp only
  split_ifs with hnone hidx
  · rfl
  · rw [h] at hidx
    exact absurd hidx.2 (by simp)
  · rfl

theorem sysvLoop_indices {fuel : Nat} {idx : BitVec 32} {l : Lookup}
    (hcount : m.nchain ≠ 0 ∨ idx = 0 ∨ m.nbucket ≤ idx) (h : m.sysvLoop name fuel idx [] = some l) :
    ∀ a ∈ l.accesses, a.index < m.nchain := by
  by_cases hchain : m.nchain = 0
  · -- the loop does not begin
    have hout : ¬ (idx ≠ 0 ∧ idx < m.numSyms) := by
      rintro ⟨hzero, hlt⟩
      rw [ElfModule.numSyms, if_neg (not_not_intro hchain)] at hlt
      rcases hcount with hne | hidx | hidx
      · exact hne hchain
      · exact hzero hidx
      · exact absurd hlt (BitVec.not_lt.mpr hidx)
    cases fuel with
    | zero => cases h
    | succ fuel =>
      rw [ElfModule.sysvLoop, if_neg hout] at h
      rw [← Option.some.inj h]
      exact fun a ha ↦ absurd ha List.not_mem_nil
  · have hnum : m.numSyms = m.nchain := if_pos hchain
    rw [← hnum]
    exact sysvLoop_accesses h

theorem elfGetSymbol_settles_iff :
    Settles m.nchain (fun fuel ↦ elfGetSymbol fuel m name) ↔ m.ChainEnds name := by
  by_cases hsysv : m.hasSysv = true
  · have hbuckets : m.nbucket ≠ 0 := by
      intro h
      rw [ElfModule.hasSysv, h] at hsysv
      simp at hsysv
    have hloop : ∀ fuel, m.sysvSymbol name fuel = m.sysvLoop name fuel (m.sysvFirst name) [] :=
      fun _ ↦ if_pos hsysv
    constructor
    · rintro ⟨fuel, l, hl, hindices⟩ -
      obtain ⟨l₀, hl₀, hrest⟩ := Option.bind_eq_some_iff.mp hl
      rw [hloop] at hl₀
      refine ⟨(sysvLoop_ends_iff hbuckets).mp ⟨fuel, l₀, hl₀⟩, ?_⟩
      by_contra hcount
      push Not at hcount
      obtain ⟨hchain, hzero, hlt⟩ := hcount
      have hnum : m.numSyms = m.nbucket := if_neg (not_not_intro hchain)
      have hused := first_mem_accesses ⟨hzero, hnum ▸ BitVec.not_le.mp hlt⟩ hl₀
      have hsame : l.accesses = l₀.accesses := by
        rw [gnuSymbol_of_empty hchain] at hrest
        split at hrest <;> rw [← Option.some.inj hrest]
      have hindex := hindices _ (hsame ▸ hused) (by simp)
      rw [hchain] at hindex
      exact absurd hindex (by simp)
    · intro hends
      obtain ⟨hstops, hcount⟩ := hends hsysv
      obtain ⟨fuel, l₀, hl₀⟩ := (sysvLoop_ends_iff hbuckets).mpr hstops
      have hindices := sysvLoop_indices hcount hl₀
      have hl₀ := sysvLoop_mono (Nat.le_max_left fuel (2 ^ 32)) hl₀
      rw [← hloop] at hl₀
      by_cases hfound : l₀.result.isSome = true
      · refine ⟨max fuel (2 ^ 32), l₀, ?_, fun a ha _ ↦ hindices a ha⟩
        show (m.sysvSymbol name _).bind _ = _
        rw [hl₀, Option.bind_some, if_pos hfound]
        rfl
      · obtain ⟨l, hl, hmem⟩ := @gnuSymbol_ends m name _ l₀.accesses (Nat.le_max_right fuel (2 ^ 32))
        refine ⟨max fuel (2 ^ 32), l, ?_, fun a ha _ ↦ (hmem a ha).elim (hindices a) id⟩
        show (m.sysvSymbol name _).bind _ = _
        rw [hl₀, Option.bind_some, if_neg hfound]
        exact hl
  · constructor
    · exact fun _ h ↦ absurd h hsysv
    · intro _
      obtain ⟨l, hl, hmem⟩ := @gnuSymbol_ends m name _ [] (Nat.le_refl (2 ^ 32))
      refine ⟨2 ^ 32, l, ?_, fun a ha _ ↦ (hmem a ha).elim (fun h ↦ absurd h List.not_mem_nil) id⟩
      show (m.sysvSymbol name _).bind _ = _
      rw [ElfModule.sysvSymbol, if_neg hsysv]
      exact hl

/-- The lookups end with all indices in range if and only if the chain of the name in `DT_HASH` does, and
there is a count of symbols for the first of its indices. -/
theorem lookupRight_iff (m : ElfModule) (vs : Versions) (name : List Byte) (symIdx : BitVec 32) :
    LookupRight m vs name symIdx ↔ m.ChainEnds name := by
  rw [← elfGetSymbol_settles_iff]
  exact ⟨LookupRight.symbol, fun h ↦ ⟨h, elfGetSymbolVersion_settles m vs symIdx⟩⟩

/-- The start of a file with one bucket, whose only symbol is linked to itself. -/
def circleHead : List Byte :=
  dynamicHeader ++ leBytes 8 5 ++ leBytes 8 512 ++ leBytes 8 6 ++ leBytes 8 512 ++ leBytes 8 4 ++
    leBytes 8 240 ++ leBytes 16 0 ++ leBytes 4 1 ++ leBytes 4 2 ++ leBytes 4 1 ++ leBytes 4 0 ++ leBytes 4 1

/-- A name that is not there is searched for without end. -/
theorem circle_not_right : ∃ m, elfLoad sampleHost (pageFile circleHead) = some m ∧
    ∀ vs symIdx, ¬ LookupRight m vs [0x61] symIdx := by
  have hload := @elfLoad_pageFile circleHead .elf64 (by decide +kernel) (by decide +kernel)
    (by decide +kernel) (by decide +kernel)
  have hcircle : (ElfModule.readHeaders .elf64 (pageModule circleHead)).map
      (fun m ↦ decide (m.ChainEnds [0x61])) = some false := by
    decide +kernel
  obtain ⟨m, hm, hends⟩ := Option.map_eq_some_iff.mp hcircle
  refine ⟨m, hload.trans hm, fun vs symIdx h ↦ ?_⟩
  exact of_decide_eq_false hends (elfGetSymbol_settles_iff.mp h.symbol)

end Lookups

end Arm2x86.Elf
