import Mathlib.Data.List.TakeWhile
import Arm2x86.Base.Buckets
import Arm2x86.Elf.Lookup

/-!
# Hash tables of symbols

The tables that `ElfBuildSymbolTable` (`modules/arm2x86_elf.c:614`) builds where a module has buckets:
`module->hash` is null in every module, as nothing fills it in. It reads `Elf64_Sym` in every table,
while `ElfGetSymbol` reads what the class of the module says. The arrays are objects of their own
beside the memory of the module.
-/

namespace Arm2x86.Elf

open Buckets Walks

/-- The bytes of a string in memory, up to the zero that ends it. -/
def cString (mem : Memory) : Nat → BitVec 64 → List Byte
  | 0, _ => []
  | n + 1, p => if mem p = 0 then [] else mem p :: cString mem n (p + 1)

/-- The string at an address. -/
def stringAt (mem : Memory) (p : BitVec 64) : List Byte := cString mem (2 ^ 64) p

namespace ElfModule

variable (m : ElfModule)

/-- The name of a symbol. -/
def nameOf (c : Class) (i : BitVec 32) : List Byte := stringAt m.mem (m.symName c i)

/-- A symbol has a name, in the class of the module. -/
def named (name : List Byte) (i : BitVec 32) : Bool := nameAt m.mem (m.symName m.symClass i) name

/-- The bucket that `ElfBuildSymbolTable` puts a symbol into. -/
def builtSlot (i : BitVec 32) : Nat := (elfHash (m.nameOf .elf64 i) % m.nbucket).toNat

/-- Whether a symbol is put into the table: global or weak, defined, and not zero. -/
def entered (i : BitVec 32) : Bool :=
  let bind := field m.mem (m.symbolAt .elf64 i) 4 1 >>> 4
  (bind == 1 || bind == 2) && field m.mem (m.symbolAt .elf64 i) 6 2 != 0 &&
    field m.mem (m.symbolAt .elf64 i) 8 8 != 0

/-- The symbols that are put into the table. The loop ends at the first one whose `st_name` is zero. -/
def inserted : List (BitVec 32) :=
  ((((List.range m.numSyms.toNat).drop 1).map (BitVec.ofNat 32)).takeWhile fun i ↦
    field m.mem (m.symbolAt .elf64 i) 0 4 != 0).filter m.entered

/-- The arrays that `ElfBuildSymbolTable` builds. -/
def builtTables : Buckets 32 :=
  (Buckets.empty 32 m.nbucket.toNat m.nchain.toNat).insertAll m.builtSlot m.inserted

/-- `ElfBuildSymbolTable` as far as it is about `DT_HASH`, `modules/arm2x86_elf.c:614`: its result, and
the arrays when it builds them. What is asked of `malloc` is whether it has so many bytes. -/
def elfBuildSymbolTable (malloc : Nat → Bool) : Int × Option (Buckets 32) :=
  if m.dynsym = 0 ∨ m.dynstr = 0 then (0, none)
  else if m.nbucket ≠ 0 then
    if malloc (m.nbucket.toNat * 4) ∧ malloc (m.nchain.toNat * 4) then (0, some m.builtTables)
    else (-3, none)
  else (0, none)

/-- The part of `ElfGetSymbol` about `DT_HASH`, in arrays that have been built. -/
def builtSymbol (t : Buckets 32) (name : List Byte) (fuel : Nat) : Option Lookup :=
  chainLoop m t.next name fuel (t.first (elfHash name % m.nbucket).toNat) []

/-- What a search in built arrays finds, and the symbols it looks at. -/
structure SearchRight (t : Buckets 32) (name : List Byte) (l : Lookup) : Prop where
  visited : ∀ a ∈ l.accesses, a.index ∈ m.inserted ∧
    elfHash (m.nameOf m.symClass a.index) % m.nbucket = elfHash name % m.nbucket
  found : ∀ i ∈ m.inserted, m.named name i →
    ∃ j ∈ m.inserted, m.named name j ∧ (∀ k ∈ m.inserted, m.named name k → k ≤ j) ∧
      l.result = some (m.symAddress m.symClass j)

/-- The chains go down to 0, and a search for any name ends right. -/
structure TablesRight (t : Buckets 32) : Prop where
  decreasing : ∀ i : BitVec 32, i ≠ 0 → i < m.nchain → t.next i < i
  ends : ∀ i : BitVec 32, i < m.nchain → ∃ k, t.next^[k] i = 0
  search : ∀ name : List Byte, 0 ∉ name →
    ∃ fuel l, m.builtSymbol t name fuel = some l ∧ m.SearchRight t name l

/-- Every symbol of the table is in the bucket of its name. -/
def OwnBuckets : Prop :=
  ∀ i ∈ m.inserted, elfHash (m.nameOf m.symClass i) % m.nbucket =
    elfHash (m.nameOf .elf64 i) % m.nbucket

end ElfModule

section Strings

variable {mem : Memory} {p : BitVec 64} {n : Nat} {name : List Byte}

theorem zero_notMem_cString (mem : Memory) (p : BitVec 64) (n : Nat) : 0 ∉ cString mem n p := by
  induction n generalizing p with
  | zero => exact List.not_mem_nil
  | succ n ih =>
    rw [cString]
    split
    · exact List.not_mem_nil
    · next hne =>
      rw [List.mem_cons, not_or]
      exact ⟨Ne.symm hne, ih (p + 1)⟩

/-- What stands in front of a zero is the string, if it is reached. -/
theorem cString_of_read (hname : 0 ∉ name) (hread : mem.read p (name.length + 1) = name ++ [0])
    (hn : name.length < n) : cString mem n p = name := by
  induction name generalizing p n with
  | nil =>
    obtain ⟨n, rfl⟩ := Nat.exists_eq_succ_of_ne_zero (Nat.ne_of_gt hn)
    have hzero : mem p = 0 := by simpa [Memory.read] using hread
    rw [Nat.succ_eq_add_one, cString, if_pos hzero]
  | cons b name ih =>
    obtain ⟨n, rfl⟩ := Nat.exists_eq_succ_of_ne_zero (Nat.ne_of_gt (Nat.lt_of_le_of_lt (Nat.zero_le _) hn))
    rw [List.mem_cons, not_or] at hname
    rw [List.length_cons, Memory.read, List.cons_append, List.cons.injEq] at hread
    have hb : mem p ≠ 0 := hread.1 ▸ Ne.symm hname.1
    have hrest : cString mem n (p + 1) = name := ih hname.2 hread.2 (Nat.lt_of_succ_lt_succ hn)
    rw [Nat.succ_eq_add_one, cString, if_neg hb, hread.1, hrest]

/-- No string that ends is as long as the address space: its zero would be one of its bytes. -/
theorem length_lt_of_read (hname : 0 ∉ name)
    (hread : mem.read p (name.length + 1) = name ++ [0]) : name.length < 2 ^ 64 := by
  by_contra hlong
  have hbyte (k : Nat) (hk : k < name.length + 1) :
      (name ++ [0])[k]? = some (mem (p + BitVec.ofNat 64 k)) := by
    rw [← hread, Memory.getElem?_read mem p hk]
  have hlast := hbyte name.length (by omega)
  have hfirst := hbyte (name.length - 2 ^ 64) (by omega)
  have hsame : BitVec.ofNat 64 (name.length - 2 ^ 64) = BitVec.ofNat 64 name.length := by
    apply BitVec.eq_of_toNat_eq
    rw [BitVec.toNat_ofNat, BitVec.toNat_ofNat]
    omega
  rw [hsame, ← hlast, List.getElem?_append_left (by omega),
    List.getElem?_append_right (Nat.le_refl _), Nat.sub_self] at hfirst
  exact hname (List.mem_of_getElem? hfirst)

/-- The string that `strcmp` finds equal. -/
theorem stringAt_of_nameAt (hname : 0 ∉ name) (h : nameAt mem p name = true) :
    stringAt mem p = name := by
  have hread : mem.read p (name.length + 1) = name ++ [0] := by simpa [nameAt] using h
  exact cString_of_read hname hread (length_lt_of_read hname hread)

end Strings

section Tables

variable {m : ElfModule} {name : List Byte} {i : BitVec 32}

/-- The symbols are put into the table in ascending order. -/
theorem inserted_sorted (m : ElfModule) : m.inserted.Pairwise (· < ·) := by
  unfold ElfModule.inserted
  apply List.Pairwise.filter
  apply List.Pairwise.sublist (List.takeWhile_sublist _)
  rw [List.pairwise_map]
  apply List.Pairwise.imp_of_mem _ (List.pairwise_lt_range.sublist (List.drop_sublist 1 _))
  intro i j hi hj hij
  have hi := List.mem_range.mp (List.mem_of_mem_drop hi)
  have hj := List.mem_range.mp (List.mem_of_mem_drop hj)
  have hnum := m.numSyms.isLt
  rw [BitVec.lt_def, BitVec.toNat_ofNat, BitVec.toNat_ofNat, Nat.mod_eq_of_lt (by omega),
    Nat.mod_eq_of_lt (by omega)]
  exact hij

theorem inserted_range (hi : i ∈ m.inserted) : i ≠ 0 ∧ i < m.numSyms := by
  have hmem := List.takeWhile_subset _ (List.mem_of_mem_filter hi)
  obtain ⟨n, hn, rfl⟩ := List.mem_map.mp hmem
  have hlt := List.mem_range.mp (List.mem_of_mem_drop hn)
  have hpos : n ≠ 0 := by
    rintro rfl
    rw [List.mem_drop_iff_getElem] at hn
    obtain ⟨k, hk, hget⟩ := hn
    rw [List.getElem_range] at hget
    omega
  have hnum := m.numSyms.isLt
  have hval : (BitVec.ofNat 32 n).toNat = n := by
    rw [BitVec.toNat_ofNat, Nat.mod_eq_of_lt (by omega)]
  constructor
  · intro hzero
    apply hpos
    rw [← hval, hzero]
    rfl
  · rw [BitVec.lt_def, hval]
    exact hlt

theorem slot_lt (hbuckets : m.nbucket ≠ 0) (h : BitVec 32) :
    (h % m.nbucket).toNat < m.nbucket.toNat := by
  rw [BitVec.toNat_umod]
  exact Nat.mod_lt _ (Nat.pos_of_ne_zero fun hzero ↦ hbuckets (BitVec.eq_of_toNat_eq hzero))

/-- The arrays hold the symbols that are put into them. -/
theorem holds_builtTables (hchain : m.nchain ≠ 0) (hbuckets : m.nbucket ≠ 0) :
    m.builtTables.Holds m.builtSlot m.nbucket.toNat m.nchain.toNat m.inserted := by
  have hnum : m.numSyms = m.nchain := if_pos hchain
  have hempty := holds_empty m.builtSlot m.nbucket.toNat m.nchain.toNat
  apply hempty.insertAll
  · exact (inserted_sorted m).imp fun hlt heq ↦ by
      rw [heq] at hlt
      exact BitVec.lt_irrefl _ hlt
  · intro i hi
    obtain ⟨hzero, hlt⟩ := inserted_range hi
    exact ⟨hzero, BitVec.lt_def.mp (hnum ▸ hlt), slot_lt hbuckets _⟩

end Tables

section Searches

variable {m : ElfModule} {name : List Byte} {i : BitVec 32}

/-- The symbols in the bucket of a name, as they are linked. -/
def ElfModule.candidates (m : ElfModule) (name : List Byte) : List (BitVec 32) :=
  (m.inserted.filter fun i ↦ decide (m.builtSlot i = (elfHash name % m.nbucket).toNat)).reverse

/-- What a search in the arrays finds among the symbols in the bucket of a name. -/
def ElfModule.found (m : ElfModule) (name : List Byte) : Lookup :=
  sysvEnd m (((m.candidates name).find? (m.sysvStops name)).getD 0)
    (wayAccesses ((m.candidates name).takeWhile (! m.sysvStops name ·)))

theorem mem_candidates : i ∈ m.candidates name ↔ i ∈ m.inserted ∧
    elfHash (m.nameOf .elf64 i) % m.nbucket = elfHash name % m.nbucket := by
  rw [ElfModule.candidates, List.mem_reverse, List.mem_filter, decide_eq_true_eq,
    ElfModule.builtSlot, BitVec.toNat_inj]

theorem candidates_descending (m : ElfModule) (name : List Byte) :
    (m.candidates name).Pairwise (· > ·) := by
  rw [ElfModule.candidates, List.pairwise_reverse]
  exact (inserted_sorted m).filter _

/-- Where a search stops at a symbol of the table. -/
theorem sysvStops_of_mem (hi : i ∈ m.inserted) :
    m.sysvStops name i = m.named name i := by
  obtain ⟨hzero, hlt⟩ := inserted_range hi
  rw [ElfModule.sysvStops, ElfModule.named, beq_false_of_ne hzero,
    decide_eq_false (BitVec.not_le.mpr hlt)]
  rfl

/-- A search in the arrays ends. -/
theorem builtSymbol_eq (hchain : m.nchain ≠ 0) (hbuckets : m.nbucket ≠ 0) {fuel : Nat}
    (hfuel : (m.candidates name).length < fuel) :
    m.builtSymbol m.builtTables name fuel = some (m.found name) := by
  have hlists := (holds_builtTables hchain hbuckets).lists _ (slot_lt hbuckets (elfHash name))
  have hzero : m.sysvStops name 0 = true := rfl
  have hfollow := follow_mono hfuel (hlists.follow hzero)
  rw [ElfModule.builtSymbol, chainLoop_eq, hfollow]
  rfl

/-- It has one end, however long it may take. -/
theorem found_of_builtSymbol (hchain : m.nchain ≠ 0) (hbuckets : m.nbucket ≠ 0) {fuel : Nat} {l : Lookup}
    (hl : m.builtSymbol m.builtTables name fuel = some l) : l = m.found name := by
  have hmore := builtSymbol_eq hchain hbuckets
    (Nat.lt_of_lt_of_le (Nat.lt_succ_self (m.candidates name).length) (Nat.le_max_right fuel _))
  rw [ElfModule.builtSymbol, chainLoop_eq] at hl hmore
  obtain ⟨⟨as, e⟩, hfollow, rfl⟩ := Option.map_eq_some_iff.mp hl
  rw [follow_mono (Nat.le_max_left fuel _) hfollow] at hmore
  exact Option.some.inj hmore

/-- The first symbol of the name in its bucket. -/
theorem find_candidates {j : BitVec 32} (hj : (m.candidates name).find? (m.sysvStops name) = some j) :
    j ∈ m.inserted ∧ m.named name j ∧ ∀ k ∈ m.candidates name, m.named name k → k ≤ j := by
  obtain ⟨hstop, front, back, hsplit, hfront⟩ := List.find?_eq_some_iff_append.mp hj
  have hmem : j ∈ m.candidates name := by
    rw [hsplit]
    exact List.mem_append_right _ List.mem_cons_self
  have hin := (mem_candidates.mp hmem).1
  refine ⟨hin, sysvStops_of_mem hin ▸ hstop, fun k hk hnamed ↦ ?_⟩
  have hdescending := candidates_descending m name
  have hkin := (mem_candidates.mp hk).1
  rw [hsplit, List.mem_append, List.mem_cons] at hk
  rw [hsplit, List.pairwise_append] at hdescending
  rcases hk with hk | rfl | hk
  · have hgo := hfront k hk
    rw [sysvStops_of_mem hkin, hnamed] at hgo
    cases hgo
  · exact BitVec.le_refl k
  · exact BitVec.le_of_lt (List.rel_of_pairwise_cons hdescending.2.1 hk)

/-- A search uses the symbols in the bucket of the name only. -/
theorem mem_candidates_of_accesses {a : Access} (ha : a ∈ (m.found name).accesses) :
    a.index ∈ m.candidates name := by
  have hway : a ∈ wayAccesses ((m.candidates name).takeWhile (! m.sysvStops name ·)) →
      a.index ∈ m.candidates name := by
    intro ha
    obtain ⟨i, hi, ha⟩ := List.mem_flatMap.mp ha
    have hi := List.takeWhile_subset _ hi
    rcases List.mem_pair.mp ha with rfl | rfl
    · exact hi
    · exact hi
  simp only [ElfModule.found, sysvEnd] at ha
  split at ha
  · next he =>
    rcases List.mem_append.mp ha with ha | ha
    · exact hway ha
    · rw [List.mem_singleton.mp ha]
      cases hfind : (m.candidates name).find? (m.sysvStops name) with
      | none =>
        rw [hfind] at he
        exact absurd rfl he.1
      | some j => exact List.mem_of_find?_eq_some hfind
  · exact hway ha

/-- Where the symbols are in the buckets of their names, a search is right. -/
theorem searchRight_found (hown : m.OwnBuckets) (hname : 0 ∉ name) :
    m.SearchRight m.builtTables name (m.found name) := by
  have hcandidate {i : BitVec 32} (hi : i ∈ m.inserted) (hnamed : m.named name i) :
      i ∈ m.candidates name := by
    have hnameOf : m.nameOf m.symClass i = name := stringAt_of_nameAt hname hnamed
    refine mem_candidates.mpr ⟨hi, ?_⟩
    rw [← hown i hi, hnameOf]
  constructor
  · intro a ha
    obtain ⟨hin, hhash⟩ := mem_candidates.mp (mem_candidates_of_accesses ha)
    exact ⟨hin, (hown _ hin).trans hhash⟩
  · intro i hi hnamed
    have hstop : ((m.candidates name).find? (m.sysvStops name)).isSome = true := by
      rw [List.find?_isSome]
      exact ⟨i, hcandidate hi hnamed, (sysvStops_of_mem hi).trans hnamed⟩
    obtain ⟨j, hj⟩ := Option.isSome_iff_exists.mp hstop
    obtain ⟨hin, hnamedj, hhighest⟩ := find_candidates hj
    refine ⟨j, hin, hnamedj, fun k hk hnamedk ↦ hhighest k (hcandidate hk hnamedk) hnamedk, ?_⟩
    rw [ElfModule.found, hj, sysvEnd, Option.getD_some, if_pos (inserted_range hin)]

end Searches

section Names

/-- Bytes that leave the hash of what is behind them as it is. -/
theorem elfHash_append (name : List Byte) :
    elfHash ([0x0f, 0x0f, 0x0f, 0x0f, 0x0f, 0x10, 0x10] ++ name) = elfHash name := by
  rw [elfHash, List.foldl_append]
  rfl

/-- There are names of any length with the hash of another. -/
theorem exists_long_name {name : List Byte} (hname : 0 ∉ name) (n : Nat) :
    ∃ long, 0 ∉ long ∧ n ≤ long.length ∧ elfHash long = elfHash name := by
  induction n with
  | zero => exact ⟨name, hname, Nat.zero_le _, rfl⟩
  | succ n ih =>
    obtain ⟨long, hzero, hlength, hhash⟩ := ih
    refine ⟨[0x0f, 0x0f, 0x0f, 0x0f, 0x0f, 0x10, 0x10] ++ long, ?_, ?_, ?_⟩
    · rw [List.mem_append, not_or]
      exact ⟨by decide, hzero⟩
    · rw [List.length_append, List.length_cons]
      omega
    · rw [elfHash_append, hhash]

theorem length_cString_le (mem : Memory) (p : BitVec 64) (n : Nat) : (cString mem n p).length ≤ n := by
  induction n generalizing p with
  | zero => exact Nat.le_refl 0
  | succ n ih =>
    rw [cString]
    split
    · exact Nat.zero_le _
    · rw [List.length_cons]
      exact Nat.succ_le_succ (ih (p + 1))

end Names

section Right

variable {m : ElfModule} {t : Buckets 32} {i : BitVec 32}

/-- A search for a name that no symbol has goes through the whole bucket. -/
theorem accesses_of_long {name : List Byte} (hname : 0 ∉ name) (hlong : 2 ^ 64 + 1 ≤ name.length)
    (hi : i ∈ m.candidates name) : ⟨.symtab, i⟩ ∈ (m.found name).accesses := by
  have hgo : ∀ k ∈ m.candidates name, m.sysvStops name k = false := by
    intro k hk
    rw [sysvStops_of_mem (mem_candidates.mp hk).1, Bool.eq_false_iff]
    intro hnamed
    have hle := length_cString_le m.mem (m.symName m.symClass k) (2 ^ 64)
    have hnameOf : cString m.mem (2 ^ 64) (m.symName m.symClass k) = name :=
      stringAt_of_nameAt hname hnamed
    rw [hnameOf] at hle
    omega
  have hnone : (m.candidates name).find? (m.sysvStops name) = none := by
    rw [List.find?_eq_none]
    exact fun k hk ↦ Bool.eq_false_iff.mp (hgo k hk)
  have hall : (m.candidates name).takeWhile (! m.sysvStops name ·) = m.candidates name := by
    rw [List.takeWhile_eq_self_iff]
    intro k hk
    rw [hgo k hk, Bool.not_false]
  rw [ElfModule.found, hnone, hall, Option.getD_none, sysvEnd, if_neg fun h ↦ h.1 rfl]
  exact List.mem_flatMap.mpr ⟨i, hi, List.mem_cons_self⟩

/-- Where every search is right, the symbols are in the buckets of their names. -/
theorem ownBuckets_of_search (hchain : m.nchain ≠ 0) (hbuckets : m.nbucket ≠ 0)
    (hsearch : ∀ name : List Byte, 0 ∉ name → ∃ fuel l, m.builtSymbol m.builtTables name fuel = some l ∧
      m.SearchRight m.builtTables name l) : m.OwnBuckets := by
  intro i hi
  obtain ⟨name, hname, hlong, hhash⟩ :=
    exists_long_name (zero_notMem_cString m.mem (m.symName .elf64 i) (2 ^ 64)) (2 ^ 64 + 1)
  have hhash : elfHash name = elfHash (m.nameOf .elf64 i) := hhash
  obtain ⟨fuel, l, hl, hright⟩ := hsearch name hname
  have hfound : l = m.found name := found_of_builtSymbol hchain hbuckets hl
  have hcandidate : i ∈ m.candidates name := mem_candidates.mpr ⟨hi, by rw [hhash]⟩
  have hvisited := hright.visited _ (hfound ▸ accesses_of_long hname hlong hcandidate)
  rw [← hhash]
  exact hvisited.2

/-- Links that go down end in 0. -/
theorem ends_of_decreasing (hdown : ∀ i : BitVec 32, i ≠ 0 → t.next i < i) (i : BitVec 32) :
    ∃ k, t.next^[k] i = 0 := by
  by_cases hzero : i = 0
  · exact ⟨0, hzero⟩
  · obtain ⟨k, hk⟩ := ends_of_decreasing hdown (t.next i)
    exact ⟨k + 1, hk⟩
termination_by i.toNat
decreasing_by exact BitVec.lt_def.mp (hdown i hzero)

/-- The arrays have strictly decreasing chains, and the searches in them are right, if and only if every
symbol is in the bucket of its name. -/
theorem tablesRight_iff (m : ElfModule) (malloc : Nat → Bool) (t : Buckets 32) (hchain : m.nchain ≠ 0)
    (ht : (m.elfBuildSymbolTable malloc).2 = some t) : m.TablesRight t ↔ m.OwnBuckets := by
  have hbuilt : m.nbucket ≠ 0 ∧ t = m.builtTables := by
    unfold ElfModule.elfBuildSymbolTable at ht
    split_ifs at ht with hdyn hbuckets hmem
    exact ⟨hbuckets, (Option.some.inj ht).symm⟩
  obtain ⟨hbuckets, rfl⟩ := hbuilt
  have hdown : ∀ i : BitVec 32, i ≠ 0 → m.builtTables.next i < i := fun i hi ↦
    (holds_builtTables hchain hbuckets).next_lt (inserted_sorted m) (fun _ _ ↦ slot_lt hbuckets _) hi
  constructor
  · exact fun h ↦ ownBuckets_of_search hchain hbuckets h.search
  · intro hown
    refine ⟨fun i hi _ ↦ hdown i hi, fun i _ ↦ ends_of_decreasing hdown i, fun name hname ↦ ?_⟩
    exact ⟨_, m.found name, builtSymbol_eq hchain hbuckets (Nat.lt_succ_self _),
      searchRight_found hown hname⟩

/-- In a module of the large class they are. -/
theorem ownBuckets_of_elf64 (hclass : m.symClass = .elf64) : m.OwnBuckets := by
  intro i _
  rw [hclass]

/-- Two symbols of the large class, `a` and `b`, and two buckets. -/
def largeHead : List Byte :=
  dynamicHeader ++ leBytes 8 5 ++ leBytes 8 340 ++ leBytes 8 6 ++ leBytes 8 268 ++ leBytes 8 4 ++
    leBytes 8 240 ++ leBytes 16 0 ++
    leBytes 4 2 ++ leBytes 4 3 ++ leBytes 4 2 ++ leBytes 4 1 ++ leBytes 12 0 ++ leBytes 24 0 ++
    leBytes 4 1 ++ [0x12, 0] ++ leBytes 2 1 ++ leBytes 8 0x100 ++ leBytes 8 4 ++
    leBytes 4 3 ++ [0x12, 0] ++ leBytes 2 1 ++ leBytes 8 0x104 ++ leBytes 8 4 ++ [0, 0x61, 0, 0x62, 0]

theorem tablesRight_iff_large : ∃ m t, elfLoad sampleHost (pageFile largeHead) = some m ∧
    (m.elfBuildSymbolTable fun _ ↦ true).2 = some t ∧ m.TablesRight t := by
  have hload := @elfLoad_pageFile largeHead .elf64 (by decide +kernel) (by decide +kernel)
    (by decide +kernel) (by decide +kernel)
  have hlarge : (ElfModule.readHeaders .elf64 (pageModule largeHead)).map (fun m ↦
      decide (m.nchain ≠ 0 ∧ (m.elfBuildSymbolTable fun _ ↦ true).2.isSome ∧ m.symClass = .elf64)) =
        some true := by
    decide +kernel
  obtain ⟨m, hm, hlarge⟩ := Option.map_eq_some_iff.mp hlarge
  obtain ⟨hchain, hsome, hclass⟩ := of_decide_eq_true hlarge
  obtain ⟨t, ht⟩ := Option.isSome_iff_exists.mp hsome
  exact ⟨m, t, hload.trans hm, ht,
    (tablesRight_iff m (fun _ ↦ true) t hchain ht).mpr (ownBuckets_of_elf64 hclass)⟩

/-- The same symbols in the small class, of four bytes each. -/
def smallHead : List Byte :=
  [0x7f, 0x45, 0x4c, 0x46, 1, 1, 1, 0] ++ leBytes 8 0 ++ leBytes 2 3 ++ leBytes 2 40 ++ leBytes 4 1 ++
    leBytes 4 0 ++ leBytes 4 52 ++ leBytes 8 0 ++ leBytes 2 52 ++ leBytes 2 32 ++ leBytes 2 2 ++ leBytes 6 0 ++
    leBytes 4 1 ++ leBytes 12 0 ++ leBytes 4 4096 ++ leBytes 4 4096 ++ leBytes 4 6 ++ leBytes 4 4096 ++
    leBytes 4 2 ++ leBytes 4 116 ++ leBytes 4 116 ++ leBytes 4 116 ++ leBytes 4 32 ++ leBytes 4 32 ++
    leBytes 4 6 ++ leBytes 4 4 ++
    leBytes 4 5 ++ leBytes 4 224 ++ leBytes 4 6 ++ leBytes 4 176 ++ leBytes 4 4 ++ leBytes 4 148 ++
    leBytes 8 0 ++
    leBytes 4 2 ++ leBytes 4 3 ++ leBytes 4 2 ++ leBytes 4 1 ++ leBytes 12 0 ++ leBytes 16 0 ++
    leBytes 4 1 ++ leBytes 4 0x100 ++ leBytes 4 4 ++ [0x12, 0] ++ leBytes 2 1 ++
    leBytes 4 3 ++ leBytes 4 0x104 ++ leBytes 4 4 ++ [0x12, 0] ++ leBytes 2 1 ++ [0, 0x61, 0, 0x62, 0]

/-- The first symbol is put into the bucket of an empty name, as its size is taken for its name. -/
theorem small_not_right : ∃ m t, elfLoad sampleHost (pageFile smallHead) = some m ∧
    m.nchain ≠ 0 ∧ m.nbucket ≠ 0 ∧ (m.elfBuildSymbolTable fun _ ↦ true).2 = some t ∧
      ¬ m.TablesRight t := by
  have hload := @elfLoad_pageFile smallHead .elf32 (by decide +kernel) (by decide +kernel)
    (by decide +kernel) (by decide +kernel)
  have hsmall : (ElfModule.readHeaders .elf32 (pageModule smallHead)).map (fun m ↦
      decide (m.nchain ≠ 0 ∧ m.nbucket ≠ 0 ∧
        (m.elfBuildSymbolTable fun _ ↦ true).2 = some m.builtTables ∧ 1 ∈ m.inserted ∧
        m.named [0x61] 1 = true ∧ (m.found [0x61]).result = none)) = some true := by
    decide +kernel
  obtain ⟨m, hm, hsmall⟩ := Option.map_eq_some_iff.mp hsmall
  obtain ⟨hchain, hbuckets, ht, hin, hnamed, hnone⟩ := of_decide_eq_true hsmall
  refine ⟨m, m.builtTables, hload.trans hm, hchain, hbuckets, ht, fun h ↦ ?_⟩
  obtain ⟨fuel, l, hl, hright⟩ := h.search [0x61] (by decide)
  obtain ⟨j, -, -, -, hresult⟩ := hright.found 1 hin hnamed
  rw [found_of_builtSymbol hchain hbuckets hl, hnone] at hresult
  cases hresult

end Right

end Arm2x86.Elf
