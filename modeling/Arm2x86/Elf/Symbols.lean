import Arm2x86.Elf.Model

/-!
# Symbols and their versions

`ElfGetSymbol` and `elf_get_symbol_version`, `modules/arm2x86_elf.c:464` and `:751`, over a loaded module
and the whole memory. `module->handle` is null in every module `ElfLoad` makes, so the system is not asked
for a symbol. The indices that are used into tables are kept beside the results.
-/

namespace Arm2x86.Elf

/-- The tables that are looked into by an index. -/
inductive Table where
  | symtab
  | chain
  | gnuChain
  | versym
deriving DecidableEq, Repr

structure Access where
  table : Table
  index : BitVec 32
deriving DecidableEq, Repr

/-- What has been found, and the indices that have been used. -/
structure Lookup where
  result : Option (BitVec 64)
  accesses : List Access
deriving DecidableEq, Repr

/-- `elf_hash`. -/
def elfHash (name : List Byte) : BitVec 32 :=
  name.foldl (fun h b ↦
    let h := (h <<< 4) + b.setWidth 32
    let g := h &&& 0xf0000000
    (if g ≠ 0 then h ^^^ (g >>> 24) else h) &&& ~~~ g) 0

/-- `gnu_hash`. -/
def gnuHash (name : List Byte) : BitVec 32 :=
  name.foldl (fun h b ↦ h + ((h <<< 5) + b.setWidth 32)) 5381

/-- `strcmp` with a name that ends in zero. -/
def nameAt (mem : Memory) (p : BitVec 64) (name : List Byte) : Bool :=
  mem.read p (name.length + 1) == name ++ [0]

namespace ElfModule

variable (m : ElfModule)

/-- A word of an array of `uint32_t`. -/
def word32 (p : BitVec 64) (i : BitVec 32) : BitVec 32 := (field m.mem (p + 4 * i.setWidth 64) 0 4).setWidth 32

/-- `Elf64_Sym` is taken where `EI_CLASS` says so, and `Elf32_Sym` otherwise. -/
def symClass : Class := if m.mem (m.memory + 4) == 2 then .elf64 else .elf32

section Symbols

variable (c : Class) (idx : BitVec 32)

def symbolAt : BitVec 64 := m.dynsym + idx.setWidth 64 * symSize c

/-- Where the name of a symbol stands. -/
def symName : BitVec 64 := m.dynstr + field m.mem (m.symbolAt c idx) 0 4

/-- The address that a symbol stands for. -/
def symAddress : BitVec 64 :=
  match c with
  | .elf32 => m.pointer (field m.mem (m.symbolAt c idx) 4 4)
  | .elf64 => m.pointer (field m.mem (m.symbolAt c idx) 8 8)

end Symbols

section Sysv

variable (name : List Byte)

/-- Whether the tables of `DT_HASH` are looked into. -/
def hasSysv : Bool := m.bucket != 0 && m.dynsym != 0 && m.dynstr != 0 && m.nbucket != 0

/-- The index that a search starts with. -/
def sysvFirst : BitVec 32 := m.word32 m.bucket (elfHash name % m.nbucket)

/-- `num_syms`, not zero where there are buckets. -/
def numSyms : BitVec 32 := if m.nchain ≠ 0 then m.nchain else m.nbucket

/-- The loop over a chain. -/
def sysvLoop : Nat → BitVec 32 → List Access → Option Lookup
  | 0, _, _ => none
  | fuel + 1, idx, acc =>
    if idx ≠ 0 ∧ idx < m.numSyms then
      if nameAt m.mem (m.symName m.symClass idx) name then
        some ⟨some (m.symAddress m.symClass idx), acc ++ [⟨.symtab, idx⟩]⟩
      else sysvLoop fuel (m.word32 m.chain idx) (acc ++ [⟨.symtab, idx⟩, ⟨.chain, idx⟩])
    else some ⟨none, acc⟩

/-- The part of `ElfGetSymbol` that looks into the tables of `DT_HASH`. -/
def sysvSymbol (fuel : Nat) : Option Lookup :=
  if m.hasSysv then m.sysvLoop name fuel (m.sysvFirst name) [] else some ⟨none, []⟩

end Sysv

section Gnu

variable (name : List Byte)

/-- The header of `DT_GNU_HASH`, and where its buckets and chains are. -/
structure GnuTable where
  nbuckets : BitVec 32
  symoffset : BitVec 32
  bloomSize : BitVec 32
  buckets : BitVec 64
  chain : BitVec 64

def gnuTable : GnuTable :=
  let nbuckets := m.word32 m.ghash 0
  let bloomSize := m.word32 m.ghash 2
  let buckets := m.ghash + 16 + 8 * bloomSize.setWidth 64
  { nbuckets
    symoffset := m.word32 m.ghash 1
    bloomSize
    buckets
    chain := buckets + 4 * nbuckets.setWidth 64 }

/-- The loop over a chain, whose last entry has its lowest bit set. -/
def gnuLoop : Nat → BitVec 32 → List Access → Option Lookup
  | 0, _, _ => none
  | fuel + 1, idx, acc =>
    let symoffset := m.gnuTable.symoffset
    if m.nchain - symoffset ≤ idx - symoffset then some ⟨none, acc⟩
    else
      let hashed := m.word32 m.gnuTable.chain (idx - symoffset)
      let hit := hashed ||| 1 == gnuHash name ||| 1
      let acc := acc ++ ⟨.gnuChain, idx - symoffset⟩ :: if hit then [⟨.symtab, idx⟩] else []
      if hit ∧ nameAt m.mem (m.symName .elf64 idx) name then some ⟨some (m.symAddress .elf64 idx), acc⟩
      else if hashed &&& 1 = 0 ∧ idx + 1 < m.nchain then gnuLoop fuel (idx + 1) acc
      else some ⟨none, acc⟩

/-- The part of `ElfGetSymbol` that looks into the tables of `DT_GNU_HASH`. -/
def gnuSymbol (fuel : Nat) (acc : List Access) : Option Lookup :=
  let t := m.gnuTable
  if m.ghash = 0 ∨ t.nbuckets = 0 ∨ t.bloomSize = 0 ∨ m.nchain < t.symoffset then some ⟨none, acc⟩
  else
    let idx := m.word32 t.buckets (gnuHash name % t.nbuckets)
    if t.symoffset ≤ idx ∧ idx < m.nchain then m.gnuLoop name fuel idx acc else some ⟨none, acc⟩

end Gnu

end ElfModule

/-- `ElfGetSymbol`, with the turns that a loop takes at most. -/
def elfGetSymbol (fuel : Nat) (m : ElfModule) (name : List Byte) : Option Lookup := do
  let l ← m.sysvSymbol name fuel
  if l.result.isSome then return l else m.gnuSymbol name fuel l.accesses

section Versions

/-- The fields of `ElfModule` about versions, which `ElfRelocate` fills in. -/
structure Versions where
  verneed : BitVec 64
  verneednum : BitVec 32
  verdef : BitVec 64
  verdefnum : BitVec 32
  versym : BitVec 64

variable (m : ElfModule) (vs : Versions) (verIdx : BitVec 64)

/-- The loop over `Elf64_Verdef`; inside, the name if there is one. -/
def verdefLoop : Nat → BitVec 32 → BitVec 64 → Option (Option (BitVec 64))
  | 0, _, _ => none
  | fuel + 1, i, current =>
    if i < vs.verdefnum then
      if field m.mem current 4 2 = verIdx then
        some (some (m.dynstr + field m.mem (current + field m.mem current 12 4) 0 4))
      else if field m.mem current 16 4 = 0 then some none
      else verdefLoop fuel (i + 1) (current + field m.mem current 16 4)
    else some none

/-- The loop over the `Elf64_Vernaux` of an entry, of which there are `cnt`. -/
def vernauxLoop (cnt : BitVec 64) : Nat → BitVec 32 → BitVec 64 → Option (Option (BitVec 64))
  | 0, _, _ => none
  | fuel + 1, j, vernaux =>
    if j.setWidth 64 < cnt then
      if field m.mem vernaux 6 2 = verIdx then some (some (m.dynstr + field m.mem vernaux 8 4))
      else if field m.mem vernaux 12 4 = 0 then some none
      else vernauxLoop cnt fuel (j + 1) (vernaux + field m.mem vernaux 12 4)
    else some none

/-- The loop over `Elf64_Verneed`. -/
def verneedLoop (turns : Nat) : Nat → BitVec 32 → BitVec 64 → Option (Option (BitVec 64))
  | 0, _, _ => none
  | fuel + 1, i, current =>
    if i < vs.verneednum then do
      match ← vernauxLoop m verIdx (field m.mem current 2 2) turns 0 (current + field m.mem current 8 4) with
      | some found => return some found
      | none =>
        if field m.mem current 12 4 = 0 then some none
        else verneedLoop turns fuel (i + 1) (current + field m.mem current 12 4)
    else some none

/-- The two searches, of the versions that are defined and of those that are needed. -/
def verdefName (fuel : Nat) : Option (Option (BitVec 64)) :=
  if vs.verdef = 0 then some none else verdefLoop m vs verIdx fuel 0 vs.verdef

def verneedName (fuel : Nat) : Option (Option (BitVec 64)) :=
  if vs.verneed = 0 then some none else verneedLoop m vs verIdx fuel fuel 0 vs.verneed

/-- `elf_get_symbol_version`, with the turns that a loop takes at most. -/
def elfGetSymbolVersion (fuel : Nat) (symIdx : BitVec 32) : Option Lookup :=
  if vs.versym = 0 then some ⟨none, []⟩
  else
    let verIdx := field m.mem (vs.versym + 2 * symIdx.setWidth 64) 0 2
    let acc := [⟨.versym, symIdx⟩]
    if verIdx ≤ 1 then some ⟨none, acc⟩
    else do
      match ← verdefName m vs verIdx fuel with
      | some found => return ⟨some found, acc⟩
      | none => return ⟨← verneedName m vs verIdx fuel, acc⟩

end Versions

end Arm2x86.Elf
