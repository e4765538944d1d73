import Arm2x86.Elf.Image
import Arm2x86.Reloc.Packed
import Arm2x86.Reloc.Tables

/-!
# What relocation writes

Every byte of the memory behind a relocation is that of the last relocation over it, so it can be told
from the relocations whether they leave the addresses of the image in its words. Whether they stay
inside the mapping is a question of their offsets.
-/

namespace Arm2x86.Reloc

open Elf (ElfModule field dynamicHeader elfLoad elfLoad_pageFile pageFile pageModule sampleHost)

section Runs

variable {m : ElfModule} {entry : Memory → Nat → Option Patch} {out : Relocated} {p : Patch} {j n : Nat}

/-- The byte that the last of some relocations over an address writes there. -/
def lastByte (m : ElfModule) (ps : List Patch) (q : BitVec 64) : Option Byte :=
  ps.reverse.findSome? fun p ↦ p.bytes[(q - m.pointer p.offset).toNat]?

/-- The memory is that of the module with the bytes of the relocations. -/
def Accounted (m : ElfModule) (out : Relocated) : Prop :=
  ∀ q, out.mem q = (lastByte m out.patches q).getD (m.mem q)

theorem accounted_start (m : ElfModule) : Accounted m ⟨m.mem, []⟩ := fun _ ↦ rfl

theorem Accounted.apply (h : Accounted m out) (p : Patch) : Accounted m (out.apply m p) := by
  intro q
  show (p.bytes[_]?).getD (out.mem q) = (lastByte m (out.patches ++ [p]) q).getD (m.mem q)
  rw [lastByte, List.reverse_append, List.reverse_singleton, List.singleton_append, List.findSome?_cons,
    h q]
  cases p.bytes[(q - m.pointer p.offset).toNat]? <;> rfl

theorem Accounted.tableTurn (h : Accounted m out) (j : Nat) : Accounted m (tableTurn m entry out j) := by
  unfold Reloc.tableTurn
  split
  · exact h.apply _
  · exact h

theorem tableLoop_succ (n : Nat) (out : Relocated) :
    tableLoop m entry (n + 1) out = tableTurn m entry (tableLoop m entry n out) n := by
  rw [tableLoop, List.range_succ, List.foldl_append]
  rfl

theorem tableLoop_ite (c : Prop) [Decidable c] :
    tableLoop m entry (if c then n else 0) out = if c then tableLoop m entry n out else out := by
  split
  · rfl
  · rfl

theorem Accounted.tableLoop (h : Accounted m out) (n : Nat) : Accounted m (tableLoop m entry n out) := by
  induction n with
  | zero => exact h
  | succ n ih =>
    rw [tableLoop_succ]
    exact ih.tableTurn n

/-- What the turns of a loop write, each with its entry as it stands in the memory before the turn. -/
def turns (m : ElfModule) (entry : Memory → Nat → Option Patch) (n : Nat) (out : Relocated) : List Patch :=
  (List.range n).filterMap fun j ↦ entry (tableLoop m entry j out).mem j

theorem patches_tableLoop (n : Nat) (out : Relocated) :
    (tableLoop m entry n out).patches = out.patches ++ turns m entry n out := by
  induction n with
  | zero => exact (List.append_nil _).symm
  | succ n ih =>
    rw [tableLoop_succ, turns, List.range_succ, List.filterMap_append, ← List.append_assoc, ← turns, ← ih]
    unfold tableTurn
    split
    · next p hp =>
      rw [List.filterMap_cons, hp]
      rfl
    · next hnone =>
      rw [List.filterMap_cons, hnone]
      exact (List.append_nil _).symm

/-- What holds of all that the entries of a table can say holds of all that its turns write. -/
theorem turns_forall {P : Patch → Prop} (hentry : ∀ mem j p, entry mem j = some p → P p) (n : Nat)
    (out : Relocated) : ∀ p ∈ turns m entry n out, P p := by
  intro p hp
  obtain ⟨j, -, hj⟩ := List.mem_filterMap.mp hp
  exact hentry _ _ _ hj

end Runs

section Large

variable {dlsym : Dlsym} {m : ElfModule} {out : Relocated} {p : Patch} {tags : BitVec 64 → BitVec 64}

/-- What a relocation of the large class is like. -/
structure Patch.Large (m : ElfModule) (p : Patch) : Prop where
  length : p.bytes.length = 8
  relative : ∀ a, p.relative = some a → p.bytes = leBytes 8 (m.loadBias + a).toNat

theorem large_of_symbol (offset word : BitVec 64) : Patch.Large m ⟨offset, leBytes 8 word.toNat, none⟩ :=
  ⟨length_leBytes _ _, fun _ h ↦ by cases h⟩

theorem relaPatch_large {mem : Memory} {r : Rela} (h : relaPatch dlsym m mem r = some p) : p.Large m := by
  unfold relaPatch at h
  split_ifs at h
  · rw [← Option.some.inj h]
    refine ⟨length_leBytes _ _, fun a ha ↦ ?_⟩
    rw [← Option.some.inj ha]
  · obtain ⟨sym, -, rfl⟩ := Option.map_eq_some_iff.mp h
    exact large_of_symbol _ _
  · obtain ⟨sym, -, rfl⟩ := Option.map_eq_some_iff.mp h
    exact large_of_symbol _ _

theorem pltPatch_large {mem : Memory} {r : Rela} (h : pltPatch dlsym m mem r = some p) : p.Large m := by
  unfold pltPatch at h
  split_ifs at h
  · obtain ⟨sym, -, h⟩ := Option.bind_eq_some_iff.mp h
    rw [← Option.some.inj h]
    exact large_of_symbol _ _
  · obtain ⟨sym, -, h⟩ := Option.bind_eq_some_iff.mp h
    cases h

variable (dlsym m tags)

/-- The tables of `DT_RELA` and `DT_JMPREL`. -/
def relaEntry (mem : Memory) (j : Nat) : Option Patch :=
  relaPatch dlsym m mem (relaAt mem (m.pointer (tags 7) + BitVec.ofNat 64 (24 * j)))

def relaCount : Nat := if tags 7 ≠ 0 ∧ tags 8 ≠ 0 then (tags 8).toNat / (tags 9).toNat else 0

def pltEntry (mem : Memory) (j : Nat) : Option Patch :=
  pltPatch dlsym m mem (relaAt mem (m.pointer (tags 23) + BitVec.ofNat 64 (24 * j)))

def pltCount : Nat := if tags 23 ≠ 0 ∧ tags 2 ≠ 0 then (tags 2).toNat / 24 else 0

/-- The module behind the first loop. -/
def afterRela : Relocated := tableLoop m (relaEntry dlsym m tags) (relaCount tags) ⟨m.mem, []⟩

/-- The relocations of both tables that are in range, in the order of their turns. -/
def tableRelocations : List Patch :=
  turns m (relaEntry dlsym m tags) (relaCount tags) ⟨m.mem, []⟩ ++
    turns m (pltEntry dlsym m tags) (pltCount tags) (afterRela dlsym m tags)

variable {dlsym m tags}

theorem tableRelocations_large : ∀ p ∈ tableRelocations dlsym m tags, p.Large m := by
  intro p hp
  rcases List.mem_append.mp hp with hp | hp
  · exact turns_forall (fun _ _ _ h ↦ relaPatch_large h) _ _ p hp
  · exact turns_forall (fun _ _ _ h ↦ pltPatch_large h) _ _ p hp

/-- The loops divide by zero, or they leave what these relocations write. -/
theorem relocateTables_cases :
    (tags 7 ≠ 0 ∧ tags 8 ≠ 0 ∧ tags 9 = 0 ∧ relocateTables dlsym m tags = .error .divide) ∨
      ((tags 7 ≠ 0 → tags 8 ≠ 0 → tags 9 ≠ 0) ∧ ∃ out, relocateTables dlsym m tags = .ok out ∧
        out.patches = tableRelocations dlsym m tags ∧ Accounted m out) := by
  by_cases hdivide : (tags 7 ≠ 0 ∧ tags 8 ≠ 0) ∧ tags 9 = 0
  · exact .inl ⟨hdivide.1.1, hdivide.1.2, hdivide.2, if_pos hdivide⟩
  · refine .inr ⟨fun h₇ h₈ h₉ ↦ hdivide ⟨⟨h₇, h₈⟩, h₉⟩,
      tableLoop m (pltEntry dlsym m tags) (pltCount tags) (afterRela dlsym m tags), ?_, ?_, ?_⟩
    · rw [pltCount, tableLoop_ite, afterRela, relaCount, tableLoop_ite]
      exact if_neg hdivide
    · rw [patches_tableLoop, afterRela, patches_tableLoop, List.nil_append]
      rfl
    · exact ((accounted_start m).tableLoop _).tableLoop _

end Large

section Small

variable {m : ElfModule} {out : Relocated} {tags : BitVec 64 → BitVec 64}

theorem length_relPatch {mem : Memory} {q : BitVec 64} {p : Patch} (h : relPatch m mem q = some p) :
    p.bytes.length = 4 := by
  unfold relPatch at h
  dsimp only at h
  split_ifs at h
  rw [← Option.some.inj h]
  exact length_leBytes _ _

variable (m tags)

/-- The table of `DT_REL`. -/
def relEntry (mem : Memory) (j : Nat) : Option Patch :=
  relPatch m mem (m.pointer (tags 17) + BitVec.ofNat 64 (8 * j))

def relCount : Nat := if tags 17 = 0 ∨ tags 18 = 0 then 0 else (tags 18).toNat / (tags 19).toNat

def tableRelocations32 : List Patch := turns m (relEntry m tags) (relCount tags) ⟨m.mem, []⟩

variable {m tags}

theorem relocateTable32_cases :
    (tags 17 ≠ 0 ∧ tags 18 ≠ 0 ∧ tags 19 = 0 ∧ relocateTable32 m tags = .error .divide) ∨
      ((tags 17 ≠ 0 → tags 18 ≠ 0 → tags 19 ≠ 0) ∧ ∃ out, relocateTable32 m tags = .ok out ∧
        out.patches = tableRelocations32 m tags ∧ Accounted m out) := by
  have hturns : (tableLoop m (relEntry m tags) (relCount tags) ⟨m.mem, []⟩).patches = tableRelocations32 m tags := by
    rw [patches_tableLoop, List.nil_append, tableRelocations32]
  have haccounted := @Accounted.tableLoop m (relEntry m tags) _ (accounted_start m) (relCount tags)
  by_cases hnone : tags 17 = 0 ∨ tags 18 = 0
  · refine .inr ⟨fun h₁₇ h₁₈ ↦ absurd hnone (not_or.mpr ⟨h₁₇, h₁₈⟩), _, ?_, hturns, haccounted⟩
    rw [relCount, if_pos hnone]
    exact if_pos hnone
  · obtain ⟨h₁₇, h₁₈⟩ := not_or.mp hnone
    by_cases hdivide : tags 19 = 0
    · refine .inl ⟨h₁₇, h₁₈, hdivide, ?_⟩
      rw [relocateTable32, if_neg hnone, if_pos hdivide]
    · refine .inr ⟨fun _ _ ↦ hdivide, _, ?_, hturns, haccounted⟩
      rw [relCount, if_neg hnone, relocateTable32, if_neg hnone, if_neg hdivide]
      rfl

end Small

section Words

variable {m : ElfModule} {out : Relocated} {ps : List Patch} {p : Patch} {mem : Memory} {q w : BitVec 64}

/-- A word in memory, byte by byte. -/
theorem field_eq_iff : field mem q 0 8 = w ↔
    ∀ k < 8, (leBytes 8 w.toNat)[k]? = some (mem (q + BitVec.ofNat 64 k)) := by
  have hlt : leNat (mem.read q 8) < 2 ^ 64 := by
    have hbound := leNat_lt (mem.read q 8)
    rw [Memory.length_read] at hbound
    exact Nat.lt_of_lt_of_eq hbound (by decide)
  have hbytes := leBytes_leNat (mem.read q 8)
  rw [Memory.length_read] at hbytes
  rw [field, BitVec.add_zero]
  constructor
  · rintro rfl k hk
    rw [BitVec.toNat_ofNat, Nat.mod_eq_of_lt hlt, hbytes, Memory.getElem?_read mem q hk]
  · intro h
    have hread : mem.read q 8 = leBytes 8 w.toNat := by
      apply List.ext_getElem?
      intro k
      by_cases hk : k < 8
      · rw [Memory.getElem?_read mem q hk, h k hk]
      · rw [List.getElem?_eq_none (by simpa using hk), List.getElem?_eq_none (by simpa using hk)]
    rw [hread, leNat_leBytes w.isLt, BitVec.ofNat_toNat, BitVec.setWidth_eq]

private theorem toNat_add_sub_self {k : Nat} (hk : k < 2 ^ 64) : (q + BitVec.ofNat 64 k - q).toNat = k := by
  rw [BitVec.add_comm, BitVec.add_sub_cancel, BitVec.toNat_ofNat, Nat.mod_eq_of_lt hk]

/-- The bytes of a relocation are written by a last relocation. -/
theorem isSome_lastByte (hp : p ∈ ps) {k : Nat} (hk : k < p.bytes.length) (hlen : k < 2 ^ 64) :
    (lastByte m ps (m.pointer p.offset + BitVec.ofNat 64 k)).isSome := by
  rw [lastByte, List.findSome?_isSome_iff]
  refine ⟨p, List.mem_reverse.mpr hp, ?_⟩
  rw [toNat_add_sub_self hlen, List.getElem?_eq_getElem hk]
  rfl

/-- The word at a relocation is the one whose bytes are the last written over its bytes. -/
theorem Accounted.field_eq_iff (h : Accounted m out) (hp : p ∈ out.patches) (hlen : p.bytes.length = 8) :
    field out.mem (m.pointer p.offset) 0 8 = w ↔ ∀ k < 8,
      lastByte m out.patches (m.pointer p.offset + BitVec.ofNat 64 k) = (leBytes 8 w.toNat)[k]? := by
  rw [Reloc.field_eq_iff]
  apply forall₂_congr
  intro k hk
  obtain ⟨b, hb⟩ := Option.isSome_iff_exists.mp (isSome_lastByte (m := m) hp (hlen ▸ hk) (by omega))
  rw [h, hb, Option.getD_some]
  exact eq_comm

end Words

section Law

variable {m : ElfModule} {ps qs : List Patch} {p : Patch} {a : BitVec 64}

/-- No division by zero, and no write outside the mapping. -/
structure Confined (m : ElfModule) (r : Except Stop Relocated) : Prop where
  divides : r ≠ .error .divide
  inside : ∀ out, r = .ok out → ∀ p ∈ out.patches, InMapping m ⟨m.pointer p.offset, p.bytes.length⟩

/-- The locations of `R_AARCH64_RELATIVE` hold the addresses of their addends. -/
def Based (m : ElfModule) (r : Except Stop Relocated) : Prop :=
  ∀ out, r = .ok out → ∀ p ∈ out.patches, ∀ a, p.relative = some a →
    field out.mem (m.pointer p.offset) 0 8 = m.memory + a - m.loadBias

structure RelocationRight (dlsym : Dlsym) (m : ElfModule) : Prop where
  large : Confined m (elfRelocate dlsym m)
  small : Confined m (elfRelocate32 m)
  based : Based m (elfRelocate dlsym m)

/-- No relocation writes beyond the mapping. -/
def Ends (m : ElfModule) (size : Nat) (ps : List Patch) : Prop :=
  ∀ p ∈ ps, (p.offset - m.loadBias).toNat + size ≤ m.mappedSize

/-- A relocation writes over the location of another one. -/
def Patch.Overwrites (m : ElfModule) (q p : Patch) : Prop :=
  ∃ k < 8, (q.bytes[(m.pointer p.offset + BitVec.ofNat 64 k - m.pointer q.offset).toNat]?).isSome

/-- The base of the mapping is twice that of the file, where there is an `R_AARCH64_RELATIVE` that no later
relocation overwrites; where one does, the last bytes that are written are those of the address. -/
def Addressed (m : ElfModule) (ps : List Patch) : Prop :=
  ∀ before p after a, ps = before ++ p :: after → p.relative = some a →
    ((∀ q ∈ after, ¬ q.Overwrites m p) → m.memory = m.loadBias + m.loadBias) ∧
      ∀ q ∈ after, q.Overwrites m p → ∀ k < 8,
        lastByte m ps (m.pointer p.offset + BitVec.ofNat 64 k) =
          (leBytes 8 (m.memory + a - m.loadBias).toNat)[k]?

structure TablesExact (dlsym : Dlsym) (m : ElfModule) (tags : BitVec 64 → BitVec 64) : Prop where
  entrySize : tags 7 ≠ 0 → tags 8 ≠ 0 → tags 9 ≠ 0
  ends : Ends m 8 (tableRelocations dlsym m tags)
  addressed : Addressed m (tableRelocations dlsym m tags)

structure TableExact32 (m : ElfModule) (tags : BitVec 64 → BitVec 64) : Prop where
  entrySize : tags 17 ≠ 0 → tags 18 ≠ 0 → tags 19 ≠ 0
  ends : Ends m 4 (tableRelocations32 m tags)

structure RelocationExact (dlsym : Dlsym) (m : ElfModule) : Prop where
  large : m.mem (m.memory + 4) = 2 → ∀ tags, relaTags m = some tags → TablesExact dlsym m tags
  small : m.mem (m.memory + 4) = 1 → ∀ tags, relTags m = some tags → TableExact32 m tags

theorem inMapping_iff_ends {size : Nat} (hlen : ∀ p ∈ ps, p.bytes.length = size) :
    (∀ p ∈ ps, InMapping m ⟨m.pointer p.offset, p.bytes.length⟩) ↔ Ends m size ps := by
  apply forall₂_congr
  intro p hp
  have hstart : m.pointer p.offset - m.memory = p.offset - m.loadBias := by
    rw [ElfModule.pointer]
    bv_omega
  rw [InMapping, hstart, hlen p hp]

/-- A function that writes some relocations is confined if they end inside the mapping. -/
theorem confined_ok_iff {out : Relocated} {size : Nat} (hlen : ∀ p ∈ out.patches, p.bytes.length = size) :
    Confined m (.ok out) ↔ Ends m size out.patches := by
  rw [← inMapping_iff_ends hlen]
  constructor
  · exact fun h ↦ h.inside out rfl
  · intro h
    refine ⟨fun hdivide ↦ (by cases hdivide), fun out' hout ↦ ?_⟩
    rw [← Except.ok.inj hout]
    exact h

/-- A location that no relocation writes behind has the right word only where the base of the mapping is
twice that of the file. -/
theorem relative_alone_iff (hp : p.Large m) (ha : p.relative = some a)
    (hlast : ∀ q ∈ qs, ¬ q.Overwrites m p) :
    (∀ k < 8, lastByte m (ps ++ p :: qs) (m.pointer p.offset + BitVec.ofNat 64 k) =
      (leBytes 8 (m.memory + a - m.loadBias).toNat)[k]?) ↔ m.memory = m.loadBias + m.loadBias := by
  have hbyte : ∀ k < 8, lastByte m (ps ++ p :: qs) (m.pointer p.offset + BitVec.ofNat 64 k) =
      (leBytes 8 (m.loadBias + a).toNat)[k]? := by
    intro k hk
    have hnone : qs.reverse.findSome? (fun q ↦
        q.bytes[(m.pointer p.offset + BitVec.ofNat 64 k - m.pointer q.offset).toNat]?) = none :=
      List.findSome?_eq_none_iff.mpr fun q hq ↦ Option.not_isSome_iff_eq_none.mp fun hsome ↦
        hlast q (List.mem_reverse.mp hq) ⟨k, hk, hsome⟩
    have hlt : k < p.bytes.length := hp.length.symm ▸ hk
    rw [lastByte, List.reverse_append, List.reverse_cons, List.append_assoc, List.findSome?_append, hnone,
      Option.none_or, List.singleton_append, List.findSome?_cons, toNat_add_sub_self (by omega),
      ← hp.relative a ha, List.getElem?_eq_getElem hlt]
  have hwords : leBytes 8 (m.loadBias + a).toNat = leBytes 8 (m.memory + a - m.loadBias).toNat ↔
      m.memory = m.loadBias + m.loadBias := by
    constructor
    · intro h
      have hnat := congrArg leNat h
      rw [leNat_leBytes (BitVec.isLt _), leNat_leBytes (BitVec.isLt _)] at hnat
      have hword := BitVec.eq_of_toNat_eq hnat
      bv_omega
    · intro h
      rw [h]
      congr 2
      bv_omega
  rw [← hwords]
  constructor
  · intro h
    apply List.ext_getElem?
    intro k
    by_cases hk : k < 8
    · rw [← hbyte k hk, h k hk]
    · rw [List.getElem?_eq_none (by simpa using hk), List.getElem?_eq_none (by simpa using hk)]
  · intro h k hk
    rw [hbyte k hk, h]

theorem based_ok_iff {out : Relocated} (hlarge : ∀ p ∈ out.patches, p.Large m) (h : Accounted m out) :
    Based m (.ok out) ↔ Addressed m out.patches := by
  constructor
  · intro hbased before p after a hsplit ha
    have hp : p ∈ out.patches := hsplit ▸ List.mem_append_right before List.mem_cons_self
    have hword := (h.field_eq_iff hp (hlarge p hp).length).mp (hbased out rfl p hp a ha)
    refine ⟨fun halone ↦ ?_, fun _ _ _ ↦ hword⟩
    rw [hsplit] at hword
    exact (relative_alone_iff (hlarge p hp) ha halone).mp hword
  · intro haddressed out' hout p hp a ha
    obtain rfl := Except.ok.inj hout
    obtain ⟨before, after, hsplit⟩ := List.append_of_mem hp
    obtain ⟨halone, hlater⟩ := haddressed before p after a hsplit ha
    rw [h.field_eq_iff hp (hlarge p hp).length]
    by_cases hover : ∃ q ∈ after, q.Overwrites m p
    · obtain ⟨q, hq, hover⟩ := hover
      exact hlater q hq hover
    · have hnone : ∀ q ∈ after, ¬ q.Overwrites m p := fun q hq hq' ↦ hover ⟨q, hq, hq'⟩
      rw [hsplit, relative_alone_iff (hlarge p hp) ha hnone]
      exact halone hnone

theorem confined_start : Confined m (.ok ⟨m.mem, []⟩) :=
  (@confined_ok_iff m ⟨m.mem, []⟩ 8 fun _ hp ↦ absurd hp List.not_mem_nil).mpr
    fun _ hp ↦ absurd hp List.not_mem_nil

theorem relocateTables_right_iff (dlsym : Dlsym) (tags : BitVec 64 → BitVec 64) :
    (Confined m (relocateTables dlsym m tags) ∧ Based m (relocateTables dlsym m tags)) ↔
      TablesExact dlsym m tags := by
  rcases @relocateTables_cases dlsym m tags with ⟨h₇, h₈, h₉, hdivide⟩ | ⟨hsize, out, hout, hpatches, haccounted⟩
  · exact ⟨fun h ↦ absurd hdivide h.1.divides, fun h ↦ absurd h₉ (h.entrySize h₇ h₈)⟩
  · have hlarge : ∀ p ∈ out.patches, p.Large m := hpatches ▸ tableRelocations_large
    rw [hout, confined_ok_iff fun p hp ↦ (hlarge p hp).length, based_ok_iff hlarge haccounted, hpatches]
    exact ⟨fun h ↦ ⟨hsize, h.1, h.2⟩, fun h ↦ ⟨h.ends, h.addressed⟩⟩

theorem relocateTable32_right_iff (tags : BitVec 64 → BitVec 64) :
    Confined m (relocateTable32 m tags) ↔ TableExact32 m tags := by
  rcases @relocateTable32_cases m tags with ⟨h₁₇, h₁₈, h₁₉, hdivide⟩ | ⟨hsize, out, hout, hpatches, -⟩
  · exact ⟨fun h ↦ absurd hdivide h.divides, fun h ↦ absurd h₁₉ (h.entrySize h₁₇ h₁₈)⟩
  · have hlen : ∀ p ∈ out.patches, p.bytes.length = 4 := by
      rw [hpatches]
      exact turns_forall (fun _ _ _ h ↦ length_relPatch h) _ _
    rw [hout, confined_ok_iff hlen, hpatches]
    exact ⟨fun h ↦ ⟨hsize, h⟩, fun h ↦ h.ends⟩

theorem elfRelocate_right_iff (dlsym : Dlsym) (m : ElfModule) :
    (Confined m (elfRelocate dlsym m) ∧ Based m (elfRelocate dlsym m)) ↔
      (m.mem (m.memory + 4) = 2 → ∀ tags, relaTags m = some tags → TablesExact dlsym m tags) := by
  by_cases hclass : m.mem (m.memory + 4) = 2
  · rw [elfRelocate, if_neg (not_not_intro hclass)]
    cases htags : relaTags m with
    | some tags =>
      rw [relocateTables_right_iff]
      exact ⟨fun h _ tags' htags' ↦ Option.some.inj htags' ▸ h, fun h ↦ h hclass tags rfl⟩
    | none =>
      exact ⟨fun _ _ tags htags ↦ (by cases htags),
        fun _ ↦ ⟨⟨fun h ↦ (by cases h), fun out h ↦ (by cases h)⟩, fun out h ↦ (by cases h)⟩⟩
  · rw [elfRelocate, if_pos hclass]
    refine ⟨fun _ h ↦ absurd h hclass, fun _ ↦ ⟨confined_start, fun out hout p hp ↦ ?_⟩⟩
    rw [← Except.ok.inj hout] at hp
    exact absurd hp List.not_mem_nil

theorem elfRelocate32_right_iff (m : ElfModule) : Confined m (elfRelocate32 m) ↔
    (m.mem (m.memory + 4) = 1 → ∀ tags, relTags m = some tags → TableExact32 m tags) := by
  by_cases hclass : m.mem (m.memory + 4) = 1
  · rw [elfRelocate32, if_neg (not_not_intro hclass)]
    cases htags : relTags m with
    | some tags =>
      rw [relocateTable32_right_iff]
      exact ⟨fun h _ tags' htags' ↦ Option.some.inj htags' ▸ h, fun h ↦ h hclass tags rfl⟩
    | none =>
      exact ⟨fun _ _ tags htags ↦ (by cases htags), fun _ ↦ ⟨fun h ↦ (by cases h), fun out h ↦ (by cases h)⟩⟩
  · rw [elfRelocate32, if_pos hclass]
    exact ⟨fun _ h ↦ absurd h hclass, fun _ ↦ confined_start⟩

/-- Relocation is right if and only if no table has entries of no size, all words end inside the mapping,
and for the locations of `R_AARCH64_RELATIVE` the bases, or the words written over them, fit. -/
theorem relocationRight_iff (dlsym : Dlsym) (m : ElfModule) :
    RelocationRight dlsym m ↔ RelocationExact dlsym m := by
  constructor
  · intro h
    exact ⟨(elfRelocate_right_iff dlsym m).mp ⟨h.large, h.based⟩, (elfRelocate32_right_iff m).mp h.small⟩
  · intro h
    obtain ⟨hlarge, hbased⟩ := (elfRelocate_right_iff dlsym m).mpr h.large
    exact ⟨hlarge, (elfRelocate32_right_iff m).mpr h.small, hbased⟩

/-- The start of a file with the one relocation of the word at 1024, by 2048. -/
def relativeHead : List Byte :=
  dynamicHeader ++ leBytes 8 7 ++ leBytes 8 240 ++ leBytes 8 8 ++ leBytes 8 24 ++ leBytes 16 0 ++
    leBytes 16 0 ++ leBytes 8 1024 ++ leBytes 8 1027 ++ leBytes 8 2048

def relativePatch : Patch := ⟨1024, leBytes 8 2048, some 2048⟩

/-- The word has the addend, and not its address. -/
theorem relativeHead_not_right :
    ∃ m, elfLoad sampleHost (pageFile relativeHead) = some m ∧
      ¬ RelocationRight (fun _ _ ↦ 0) m := by
  have hload := @elfLoad_pageFile relativeHead .elf64 (by decide +kernel) (by decide +kernel) (by decide +kernel)
    (by decide +kernel)
  have hrun : (ElfModule.readHeaders .elf64 (pageModule relativeHead)).map (fun m ↦
      (elfRelocate (fun _ _ ↦ 0) m).toOption.map fun out ↦ decide (relativePatch ∈ out.patches ∧
        field out.mem (m.pointer 1024) 0 8 ≠ m.memory + 2048 - m.loadBias)) = some (some true) := by
    decide +kernel
  obtain ⟨m, hm, hrun⟩ := Option.map_eq_some_iff.mp hrun
  obtain ⟨out, hout, hword⟩ := Option.map_eq_some_iff.mp hrun
  obtain ⟨hmem, hword⟩ := of_decide_eq_true hword
  refine ⟨m, hload.trans hm, fun h ↦ hword (h.based out ?_ relativePatch hmem 2048 rfl)⟩
  cases hresult : elfRelocate (fun _ _ ↦ 0) m with
  | error stop =>
    rw [hresult] at hout
    cases hout
  | ok out' =>
    rw [hresult] at hout
    rw [Option.some.inj hout]

end Law

end Arm2x86.Reloc
