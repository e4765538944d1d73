import Arm2x86.Reloc.Model

/-!
# The RELR format

A table of runs: an even entry is an address to relocate, and the odd entries behind it are bitmaps
that select words from the next one on, 63 or 31 words each. `apply_relr_relocations` reads the
first run and the later ones in two ways, neither of which is this one.
-/

/-!
## RELR relocations

`apply_relr_relocations` of `modules/arm2x86_syscall.c` (lines 1344–1519). The two halves for the
two classes differ in the width of a word only.
-/

namespace Arm2x86.Reloc.Relr

open Elf (ElfModule field classOf)
open Elf.ElfModule (wordSize)

/-- `DT_RELR`, `DT_RELRSZ`, `DT_RELRENT`. -/
def dtRelr : BitVec 64 := 36

def dtRelrSz : BitVec 64 := 35

def dtRelrEnt : BitVec 64 := 37

/-- The bits of a word, and of an entry. -/
def width (c : Elf.Class) : Nat := 8 * wordSize c

/-- An address or an entry of the table. -/
abbrev Word (c : Elf.Class) := BitVec (width c)

/-- The size of a word as a number of that width. -/
def stride (c : Elf.Class) : Word c := BitVec.ofNat (width c) (wordSize c)

/-- The word at an address. -/
def wordAt (c : Elf.Class) (mem : Memory) (p : BitVec 64) : Word c :=
  (field mem p 0 (wordSize c)).setWidth (width c)

/-- The memory, and the addresses that the bias has been added to. -/
structure State where
  mem : Memory
  added : List (BitVec 64)

section

variable (c : Elf.Class) (m : ElfModule)

/-- `*loc += module->load_bias`, for an address in range. -/
def relocate (s : State) (addr : Word c) : State :=
  let offset : BitVec 64 := addr.setWidth 64
  if inRange m offset then
    let p := m.pointer offset
    let word := wordAt c s.mem p + m.loadBias.setWidth (width c)
    { mem := s.mem.write p (leBytes (wordSize c) word.toNat), added := s.added ++ [offset] }
  else s

/-- The loop over the bits of a bitmap. -/
def bitLoop (addr : Word c) (bitOffset : Nat) (bitmap : Word c) (s : State) : State :=
  (List.range (width c)).foldl
    (fun s bit ↦
      if bitmap.getLsbD bit then
        relocate c m s (addr + BitVec.ofNat (width c) ((bitOffset + bit) * wordSize c))
      else s)
    s

variable (relr : BitVec 64) (n : Nat)

/-- `relr[i]`. -/
def entry (mem : Memory) (i : Nat) : Word c :=
  wordAt c mem (relr + BitVec.ofNat 64 (i * wordSize c))

/-- The loop over the bitmaps behind an address, from an entry on. Every turn takes an entry. -/
def bitmapLoop (addr : Word c) : Nat → Nat → Nat → State → Option (Nat × State)
  | 0, _, _, _ => none
  | fuel + 1, i, bitOffset, s =>
    if i < n then
      let s := bitLoop c m addr bitOffset (entry c relr s.mem i) s
      let next := entry c relr s.mem (i + 1)
      if i + 1 < n ∧ next.getLsbD 0 = true then some (i + 1, s)
      else if i + 1 < n ∧ next.getLsbD 0 = false ∧ next ≠ 0 then some (i + 1, s)
      else bitmapLoop addr fuel (i + 1) (bitOffset + width c) s
    else some (i, s)

/-- The loop over the entries behind the first one. -/
def entryLoop : Nat → Nat → Word c → State → Option State
  | 0, _, _, _ => none
  | fuel + 1, i, addr, s =>
    if i < n then
      let e := entry c relr s.mem i
      if e.getLsbD 0 then
        entryLoop fuel (i + 1) (addr + stride c) (relocate c m s (addr + stride c))
      else if e = 0 then entryLoop fuel (i + 1) addr s
      else do
        let (i, s) ← bitmapLoop c m relr n e (n + 1) (i + 1) 0 s
        entryLoop fuel i e s
    else some s

end

/-- `apply_relr_relocations` for a class. -/
def applyRelr (c : Elf.Class) (m : ElfModule) : Option State := do
  let tags ← moduleTags c m
  if tags dtRelr = 0 ∨ tags dtRelrSz = 0 then some ⟨m.mem, []⟩
  else
    let relrEnt := if tags dtRelrEnt = 0 then BitVec.ofNat 64 (wordSize c) else tags dtRelrEnt
    let relr := m.pointer (tags dtRelr)
    let n := (tags dtRelrSz / relrEnt).toNat
    if n = 0 then some ⟨m.mem, []⟩
    else
      let addr := entry c relr m.mem 0
      entryLoop c m relr n (n + 1) 1 addr (relocate c m ⟨m.mem, []⟩ addr)

/-- `apply_relr_relocations`; none where it does not end. -/
def applyRelrRelocations (m : ElfModule) : Option State :=
  match classOf m.mem m.memory with
  | some c => applyRelr c m
  | none => some ⟨m.mem, []⟩

end Arm2x86.Reloc.Relr

namespace Arm2x86.Reloc.Relr

open Elf (ElfModule field classOf)
open Elf.ElfModule (wordSize)

variable {c : Elf.Class} {m : ElfModule}

/-! ## Tables -/

/-- An address and the bitmaps behind it. -/
structure Run (c : Elf.Class) where
  base : Nat
  bitmaps : List (Word c)
  odd : ∀ b ∈ bitmaps, b.getLsbD 0 = true

def Run.entries (r : Run c) : List (Word c) := BitVec.ofNat (width c) r.base :: r.bitmaps

/-- The table of some runs. -/
def entries (rs : List (Run c)) : List (Word c) := rs.flatMap Run.entries

/-- The words that bitmaps select from a position on. -/
def selected (c : Elf.Class) : Nat → List (Word c) → List Nat
  | _, [] => []
  | pos, b :: bs =>
    ((List.range (width c - 1)).filter fun i ↦ b.getLsbD (i + 1)).map
      (fun i ↦ pos + i * wordSize c) ++ selected c (pos + (width c - 1) * wordSize c) bs

def Run.addresses (r : Run c) : List Nat := r.base :: selected c (r.base + wordSize c) r.bitmaps

/-- The addresses that a table stands for. -/
def addresses (rs : List (Run c)) : List Nat := rs.flatMap Run.addresses

/-! ## The loops over a list of entries -/

/-- The words that the loop over the bits takes. -/
def picked (addr bitmap : Word c) : List (Word c) :=
  ((List.range (width c)).filter bitmap.getLsbD).map
    fun i ↦ addr + BitVec.ofNat (width c) (i * wordSize c)

/-- The addresses that the loop over the entries adds the bias to, in a table without zeros. -/
def walk : Word c → List (Word c) → List (Word c)
  | _, [] => []
  | addr, [e] => if e.getLsbD 0 then [addr + stride c] else []
  | addr, e :: b :: es =>
    if e.getLsbD 0 then (addr + stride c) :: walk (addr + stride c) (b :: es)
    else picked e b ++ walk e es

/-- Words one after the other. -/
def relocateAll (c : Elf.Class) (m : ElfModule) (s : State) (xs : List (Word c)) : State :=
  xs.foldl (relocate c m) s

theorem bitLoop_zero (addr bitmap : Word c) (s : State) :
    bitLoop c m addr 0 bitmap s = relocateAll c m s (picked addr bitmap) := by
  rw [bitLoop, relocateAll, picked, List.foldl_map, List.foldl_filter]
  simp only [Nat.zero_add]

/-! ## The table in memory -/

/-- The word at an address in range lies outside of a region. -/
def Apart (m : ElfModule) (region : Region) (x : Word c) : Prop :=
  inRange m (x.setWidth 64) = true →
    ∀ p ∈ (⟨m.pointer (x.setWidth 64), wordSize c⟩ : Region), p ∉ region

theorem relocate_mem {s : State} {x : Word c} {region : Region} (h : Apart m region x)
    {p : BitVec 64} (hp : p ∈ region) : (relocate c m s x).mem p = s.mem p := by
  rw [relocate]
  dsimp only
  split
  · next hin =>
    apply Memory.write_of_notMem
    rw [length_leBytes]
    intro hword
    exact h hin p hword hp
  · rfl

theorem relocateAll_mem {s : State} {xs : List (Word c)} {region : Region}
    (h : ∀ x ∈ xs, Apart m region x) {p : BitVec 64} (hp : p ∈ region) :
    (relocateAll c m s xs).mem p = s.mem p := by
  induction xs generalizing s with
  | nil => rfl
  | cons x xs ih =>
    calc (relocateAll c m (relocate c m s x) xs).mem p
        = (relocate c m s x).mem p := ih fun y hy ↦ h y (List.mem_cons_of_mem x hy)
      _ = s.mem p := relocate_mem (h x List.mem_cons_self) hp

theorem relocateAll_append (s : State) (xs ys : List (Word c)) :
    relocateAll c m s (xs ++ ys) = relocateAll c m (relocateAll c m s xs) ys :=
  List.foldl_append

theorem relocateAll_added (s : State) (xs : List (Word c)) :
    (relocateAll c m s xs).added =
      s.added ++ (xs.map (BitVec.setWidth 64)).filter (inRange m) := by
  induction xs generalizing s with
  | nil => exact (List.append_nil _).symm
  | cons x xs ih =>
    have hone : (relocate c m s x).added =
        s.added ++ [x.setWidth 64].filter (inRange m) := by
      rw [relocate]
      dsimp only
      split
      · next hin => rw [List.filter_cons_of_pos hin, List.filter_nil]
      · next hout => rw [List.filter_cons_of_neg hout, List.filter_nil, List.append_nil]
    have happ : (x :: xs).map (BitVec.setWidth 64) =
        [x.setWidth 64] ++ xs.map (BitVec.setWidth 64) := rfl
    rw [happ, List.filter_append, ← List.append_assoc, ← hone, ← ih]
    rfl

/-- The bytes of a table. -/
def tableRegion (c : Elf.Class) (relr : BitVec 64) (n : Nat) : Region := ⟨relr, n * wordSize c⟩

/-- What a table of so many entries holds from one of them on. -/
structure Table (c : Elf.Class) (relr : BitVec 64) (n : Nat) (mem : Memory) (i : Nat)
    (es : List (Word c)) : Prop where
  length_eq : i + es.length = n
  entry_eq : ∀ j (h : j < es.length), entry c relr mem (i + j) = es[j]

namespace Table

variable {relr : BitVec 64} {n i : Nat} {mem : Memory} {e : Word c} {es : List (Word c)}

theorem head (h : Table c relr n mem i (e :: es)) : i < n ∧ entry c relr mem i = e := by
  have hlen := h.length_eq
  have hfirst := h.entry_eq 0 (Nat.succ_pos _)
  rw [List.length_cons] at hlen
  exact ⟨by omega, hfirst⟩

theorem tail (h : Table c relr n mem i (e :: es)) : Table c relr n mem (i + 1) es := by
  have hlen := h.length_eq
  rw [List.length_cons] at hlen
  refine ⟨by omega, fun j hj ↦ ?_⟩
  have hnext := h.entry_eq (j + 1) (Nat.succ_lt_succ hj)
  rw [List.getElem_cons_succ] at hnext
  rw [Nat.add_assoc, Nat.add_comm 1 j]
  exact hnext

theorem entry_congr {mem' : Memory} (hi : i < n)
    (h : ∀ p ∈ tableRegion c relr n, mem' p = mem p) :
    entry c relr mem' i = entry c relr mem i := by
  rw [entry, entry, wordAt, wordAt, field, field]
  congr 3
  apply Memory.read_congr
  intro k hk
  apply h
  have hlt : i * wordSize c + k < n * wordSize c := by
    calc i * wordSize c + k < i * wordSize c + wordSize c := Nat.add_lt_add_left hk _
      _ = (i + 1) * wordSize c := (Nat.succ_mul _ _).symm
      _ ≤ n * wordSize c := Nat.mul_le_mul_right _ hi
  rw [BitVec.add_zero, BitVec.add_assoc, ← BitVec.ofNat_add]
  exact Region.start_add_mem hlt

theorem relocateAll {s : State} (h : Table c relr n s.mem i es) (xs : List (Word c))
    (hapart : ∀ x ∈ xs, Apart m (tableRegion c relr n) x) :
    Table c relr n (relocateAll c m s xs).mem i es := by
  refine ⟨h.length_eq, fun j hj ↦ ?_⟩
  have hlen := h.length_eq
  have hsame : entry c relr (Relr.relocateAll c m s xs).mem (i + j) =
      entry c relr s.mem (i + j) := by
    apply entry_congr (n := n) (by omega)
    intro p hp
    exact relocateAll_mem hapart hp
  rw [hsame, h.entry_eq j hj]

end Table

/-! ## The loops on a table -/

section

variable {relr : BitVec 64} {n : Nat}

/-- The loop over bitmaps takes one entry only, as the entry behind it is not zero. -/
theorem bitmapLoop_eq {e b : Word c} {es : List (Word c)} {i : Nat} {s : State}
    (hs : Table c relr n s.mem i (b :: es)) (hzero : ∀ e' ∈ es, e' ≠ 0)
    (hapart : ∀ x ∈ picked e b, Apart m (tableRegion c relr n) x) :
    bitmapLoop c m relr n e (n + 1) i 0 s = some (i + 1, relocateAll c m s (picked e b)) := by
  obtain ⟨hi, hentry⟩ := hs.head
  have hnext := hs.tail.relocateAll _ hapart
  rw [bitmapLoop, if_pos hi, hentry, bitLoop_zero]
  dsimp only
  cases es with
  | nil =>
    have hlast : i + 1 = n := hs.length_eq
    obtain ⟨k, rfl⟩ : ∃ k, n = k + 1 := ⟨n - 1, by omega⟩
    rw [if_neg (by omega), if_neg (by omega), bitmapLoop, if_neg (by omega)]
  | cons e' es =>
    obtain ⟨hi', hentry'⟩ := hnext.head
    rw [hentry']
    split
    · rfl
    · next hodd =>
      have heven : e'.getLsbD 0 = false := by
        apply Bool.eq_false_iff.mpr
        exact fun h ↦ hodd ⟨hi', h⟩
      rw [if_pos ⟨hi', heven, hzero e' List.mem_cons_self⟩]

theorem entryLoop_eq {addr : Word c} {es : List (Word c)} {fuel i : Nat} {s : State}
    (hs : Table c relr n s.mem i es) (hzero : ∀ e ∈ es, e ≠ 0) (hfuel : es.length < fuel)
    (hapart : ∀ x ∈ walk addr es, Apart m (tableRegion c relr n) x) :
    entryLoop c m relr n fuel i addr s = some (relocateAll c m s (walk addr es)) := by
  induction addr, es using walk.induct generalizing fuel i s with
  | case1 addr =>
    obtain ⟨fuel, rfl⟩ := Nat.exists_eq_add_of_lt hfuel
    have hend : i = n := hs.length_eq
    rw [entryLoop, if_neg (by omega)]
    rfl
  | case2 addr e hodd =>
    obtain ⟨fuel, rfl⟩ := Nat.exists_eq_add_of_lt hfuel
    obtain ⟨hi, hentry⟩ := hs.head
    have hend : i + 1 = n := hs.length_eq
    rw [entryLoop, if_pos hi, hentry]
    dsimp only
    rw [if_pos hodd, walk, if_pos hodd]
    show entryLoop c m relr n ([e].length + fuel) (i + 1) _ _ = _
    rw [List.length_singleton, Nat.add_comm 1 fuel, entryLoop, if_neg (by omega)]
    rfl
  | case3 addr e heven =>
    obtain ⟨fuel, rfl⟩ := Nat.exists_eq_add_of_lt hfuel
    obtain ⟨hi, hentry⟩ := hs.head
    have hend : i + 1 = n := hs.length_eq
    rw [entryLoop, if_pos hi, hentry]
    dsimp only
    rw [if_neg heven, if_neg (hzero e List.mem_cons_self), bitmapLoop, if_neg (by omega), walk,
      if_neg heven]
    show entryLoop c m relr n ([e].length + fuel) (i + 1) e s = _
    rw [List.length_singleton, Nat.add_comm 1 fuel, entryLoop, if_neg (by omega)]
    rfl
  | case4 addr e b es hodd ih =>
    obtain ⟨fuel, rfl⟩ := Nat.exists_eq_add_of_lt hfuel
    obtain ⟨hi, hentry⟩ := hs.head
    rw [walk, if_pos hodd] at hapart ⊢
    have hnext := hs.tail.relocateAll [addr + stride c] fun x hx ↦ by
      rw [List.mem_singleton.mp hx]
      exact hapart _ List.mem_cons_self
    rw [entryLoop, if_pos hi, hentry]
    dsimp only
    rw [if_pos hodd]
    apply ih hnext
    · intro e' he'
      exact hzero e' (List.mem_cons_of_mem e he')
    · simp only [List.length_cons]
      omega
    · intro x hx
      exact hapart x (List.mem_cons_of_mem _ hx)
  | case5 addr e b es heven ih =>
    obtain ⟨fuel, rfl⟩ := Nat.exists_eq_add_of_lt hfuel
    obtain ⟨hi, hentry⟩ := hs.head
    rw [walk, if_neg heven] at hapart ⊢
    have hpicked : ∀ x ∈ picked e b, Apart m (tableRegion c relr n) x :=
      fun x hx ↦ hapart x (List.mem_append_left _ hx)
    have hrest : ∀ e' ∈ es, e' ≠ 0 := fun e' he' ↦
      hzero e' (List.mem_cons_of_mem e (List.mem_cons_of_mem b he'))
    have hnext := hs.tail.tail.relocateAll _ hpicked
    rw [entryLoop, if_pos hi, hentry]
    dsimp only
    rw [if_neg heven, if_neg (hzero e List.mem_cons_self), bitmapLoop_eq hs.tail hrest hpicked,
      relocateAll_append]
    apply ih hnext hrest
    · simp only [List.length_cons]
      omega
    · intro x hx
      exact hapart x (List.mem_append_right _ hx)

end

/-! ## A bias of zero -/

theorem relocate_mem_zero (hbias : m.loadBias = 0) (s : State) (x : Word c) :
    (relocate c m s x).mem = s.mem := by
  rw [relocate]
  dsimp only
  split
  · have hzero : m.loadBias.setWidth (width c) = 0#(width c) := by
      rw [hbias]
      exact BitVec.setWidth_zero _ _
    have hlt := leNat_lt (s.mem.read (m.pointer (x.setWidth 64)) (wordSize c))
    have hword : (wordAt c s.mem (m.pointer (x.setWidth 64))).toNat =
        leNat (s.mem.read (m.pointer (x.setWidth 64)) (wordSize c)) := by
      rw [Memory.length_read] at hlt
      rw [wordAt, field, BitVec.add_zero, BitVec.toNat_setWidth, BitVec.toNat_ofNat]
      cases c with
      | elf32 =>
        change _ < 256 ^ 4 at hlt
        show _ % 2 ^ 32 = _
        omega
      | elf64 =>
        change _ < 256 ^ 8 at hlt
        show _ % 2 ^ 64 = _
        omega
    have hbytes := leBytes_leNat (s.mem.read (m.pointer (x.setWidth 64)) (wordSize c))
    rw [Memory.length_read] at hbytes
    rw [hzero, BitVec.add_zero, hword, hbytes]
    exact Memory.write_read _ _ _
  · rfl

theorem bitLoop_mem_zero (hbias : m.loadBias = 0) (addr : Word c) (bitOffset : Nat)
    (bitmap : Word c) (s : State) : (bitLoop c m addr bitOffset bitmap s).mem = s.mem := by
  rw [bitLoop]
  generalize List.range (width c) = bits
  induction bits generalizing s with
  | nil => rfl
  | cons bit bits ih =>
    rw [List.foldl_cons, ih]
    split
    · exact relocate_mem_zero hbias _ _
    · rfl

section

variable {relr : BitVec 64} {n : Nat}

theorem bitmapLoop_zero (hbias : m.loadBias = 0) (addr : Word c) (fuel i bitOffset : Nat)
    (s : State) (hfuel : n < i + fuel) (hpos : 0 < fuel) :
    ∃ i' s', bitmapLoop c m relr n addr fuel i bitOffset s = some (i', s') ∧ i ≤ i' ∧
      s'.mem = s.mem := by
  induction fuel generalizing i bitOffset s with
  | zero => omega
  | succ fuel ih =>
    rw [bitmapLoop]
    split
    · dsimp only
      split
      · exact ⟨i + 1, _, rfl, Nat.le_succ i, bitLoop_mem_zero hbias _ _ _ _⟩
      · split
        · exact ⟨i + 1, _, rfl, Nat.le_succ i, bitLoop_mem_zero hbias _ _ _ _⟩
        · obtain ⟨i', s', hs', hle, hmem⟩ := ih (i + 1) (bitOffset + width c)
            (bitLoop c m addr bitOffset (entry c relr s.mem i) s) (by omega) (by omega)
          exact ⟨i', s', hs', by omega, hmem.trans (bitLoop_mem_zero hbias _ _ _ _)⟩
    · exact ⟨i, s, rfl, Nat.le_refl i, rfl⟩

theorem entryLoop_zero (hbias : m.loadBias = 0) (fuel i : Nat) (addr : Word c) (s : State)
    (hfuel : n < i + fuel) (hpos : 0 < fuel) :
    ∃ s', entryLoop c m relr n fuel i addr s = some s' ∧ s'.mem = s.mem := by
  induction fuel generalizing i addr s with
  | zero => omega
  | succ fuel ih =>
    rw [entryLoop]
    split
    · dsimp only
      split
      · obtain ⟨s', hs', hmem⟩ := ih (i + 1) (addr + stride c)
          (relocate c m s (addr + stride c)) (by omega) (by omega)
        exact ⟨s', hs', hmem.trans (relocate_mem_zero hbias _ _)⟩
      · split
        · exact ih (i + 1) addr s (by omega) (by omega)
        · obtain ⟨i', s', hs', hle, hmem⟩ := @bitmapLoop_zero c m relr n hbias
            (entry c relr s.mem i) (n + 1) (i + 1) 0 s (by omega) (by omega)
          obtain ⟨s'', hs'', hmem'⟩ := ih i' (entry c relr s.mem i) s' (by omega) (by omega)
          rw [hs']
          exact ⟨s'', hs'', hmem'.trans hmem⟩
    · exact ⟨s, rfl, rfl⟩

end

end Arm2x86.Reloc.Relr
