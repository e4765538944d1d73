import Arm2x86.Elf.Symbols
import Arm2x86.Reloc.Model

/-!
# Relocation of loaded modules

`ElfRelocate` and `ElfRelocate32`, `modules/arm2x86_elf.c:217` and `:389`: the tables of the dynamic
section, read while the words of the image are written. What `dlsym` finds for a name in memory is a
parameter; in the small class `module->handle` is null, so no symbol is found. The fields about versions
and the protection of the segments are left out.
-/

namespace Arm2x86.Reloc

open Elf (ElfModule field fileHeader programHeaders ptDynamic)

/-- What `dlsym` finds for the name at an address; zero where it finds nothing. -/
abbrev Dlsym := Memory → BitVec 64 → BitVec 64

/-- Bytes that a relocation writes to a location, and the addend of an `R_AARCH64_RELATIVE`. -/
structure Patch where
  offset : BitVec 64
  bytes : List Byte
  relative : Option (BitVec 64)
deriving DecidableEq, Repr

/-- The memory, and what has been written. -/
structure Relocated where
  mem : Memory
  patches : List Patch

/-- Why a function does not return: the dynamic section goes around the address space, or a division by
zero. -/
inductive Stop where
  | endless
  | divide
deriving DecidableEq, Repr

section Tags

variable (c : Elf.Class) (m : ElfModule)

/-- The values of the tags, with some that count for those a module does not have. -/
def tagsWith (missing : BitVec 64 → BitVec 64) : Option (BitVec 64 → BitVec 64) :=
  let ehdr := fileHeader c m.mem m.memory
  match (programHeaders c m.mem (m.memory + ehdr.phoff) ehdr.phnum).find? (·.type == ptDynamic) with
  | some ph => dynamicTags c m.mem (2 ^ 60) (m.memory + ph.offset) missing
  | none => some missing

end Tags

section Loop

variable (m : ElfModule)

def Relocated.apply (out : Relocated) (p : Patch) : Relocated :=
  ⟨out.mem.write (m.pointer p.offset) p.bytes, out.patches ++ [p]⟩

/-- One turn of a loop over a table; `entry` reads an entry and says what is written. -/
def tableTurn (entry : Memory → Nat → Option Patch) (out : Relocated) (j : Nat) : Relocated :=
  match entry out.mem j with
  | some p => out.apply m p
  | none => out

/-- A loop over a table. -/
def tableLoop (entry : Memory → Nat → Option Patch) (n : Nat) (out : Relocated) : Relocated :=
  (List.range n).foldl (tableTurn m entry) out

end Loop

section Large

variable (dlsym : Dlsym) (m : ElfModule)

/-- `Elf64_Rela`. -/
structure Rela where
  offset : BitVec 64
  info : BitVec 64
  addend : BitVec 64

def relaAt (mem : Memory) (p : BitVec 64) : Rela := ⟨field mem p 0 8, field mem p 8 8, field mem p 16 8⟩

/-- `ELF64_R_TYPE`, `ELF64_R_SYM`. -/
def Rela.type (r : Rela) : BitVec 32 := r.info.setWidth 32

def Rela.sym (r : Rela) : BitVec 32 := (r.info >>> 32).setWidth 32

/-- The test of an offset. -/
def mapped (offset : BitVec 64) : Bool :=
  m.loadBias ≤ offset && offset < m.loadBias + BitVec.ofNat 64 m.mappedSize

/-- The symbol of a relocation, if its index is in the table and it is found. -/
def symbolOf (mem : Memory) (r : Rela) : Option (BitVec 64) :=
  if m.dynsymSz = 0 ∨ m.dynsymSz / 24 ≤ r.sym.setWidth 64 then none
  else
    let sym := dlsym mem (m.dynstr + field mem (m.symbolAt .elf64 r.sym) 0 4)
    if sym = 0 then none else some sym

/-- An entry of `DT_RELA`: `R_AARCH64_RELATIVE` (1027), `R_AARCH64_GLOB_DAT` (1025), `R_AARCH64_ABS64`
(257) and `R_AARCH64_JUMP_SLOT` (1026). -/
def relaPatch (mem : Memory) (r : Rela) : Option Patch :=
  if mapped m r.offset then
    if r.type = 1027 then some ⟨r.offset, leBytes 8 (m.loadBias + r.addend).toNat, some r.addend⟩
    else if r.type = 1025 ∨ r.type = 257 then
      (symbolOf dlsym m mem r).map fun sym ↦ ⟨r.offset, leBytes 8 (sym + r.addend).toNat, none⟩
    else if r.type = 1026 then (symbolOf dlsym m mem r).map fun sym ↦ ⟨r.offset, leBytes 8 sym.toNat, none⟩
    else none
  else none

/-- An entry of `DT_JMPREL`, of which the offset is tested last. -/
def pltPatch (mem : Memory) (r : Rela) : Option Patch :=
  if r.type = 1026 then
    (symbolOf dlsym m mem r).bind fun sym ↦
      if mapped m r.offset then some ⟨r.offset, leBytes 8 sym.toNat, none⟩ else none
  else none

/-- The two loops, behind the values of `DT_RELA`, `DT_RELASZ`, `DT_RELAENT`, `DT_JMPREL` and
`DT_PLTRELSZ`. The entry size divides the size, the entries stand `sizeof(Elf64_Rela)` apart. -/
def relocateTables (tags : BitVec 64 → BitVec 64) : Except Stop Relocated :=
  let rela := tags 7 ≠ 0 ∧ tags 8 ≠ 0
  if rela ∧ tags 9 = 0 then .error .divide
  else
    let out : Relocated := ⟨m.mem, []⟩
    let out :=
      if rela then
        tableLoop m (fun mem j ↦ relaPatch dlsym m mem (relaAt mem (m.pointer (tags 7) + BitVec.ofNat 64 (24 * j))))
          ((tags 8).toNat / (tags 9).toNat) out
      else out
    .ok (if tags 23 ≠ 0 ∧ tags 2 ≠ 0 then
      tableLoop m (fun mem j ↦ pltPatch dlsym m mem (relaAt mem (m.pointer (tags 23) + BitVec.ofNat 64 (24 * j))))
        ((tags 2).toNat / 24) out
    else out)

/-- The tags of a module of the large class, with the entry size that `DT_RELAENT` has where it is missing. -/
def relaTags : Option (BitVec 64 → BitVec 64) := tagsWith .elf64 m fun tag ↦ if tag = 9 then 24 else 0

/-- `ElfRelocate`. -/
def elfRelocate : Except Stop Relocated :=
  if m.mem (m.memory + 4) ≠ 2 then .ok ⟨m.mem, []⟩
  else
    match relaTags m with
    | some tags => relocateTables dlsym m tags
    | none => .error .endless

end Large

section Small

variable (m : ElfModule)

/-- An entry of `DT_REL`, an `Elf32_Rel`. The addend of `R_ARM_RELATIVE` (23) is in the word. -/
def relPatch (mem : Memory) (p : BitVec 64) : Option Patch :=
  let offset := field mem p 0 4
  if offset < m.loadBias ∨ BitVec.ofNat 64 m.size ≤ offset then none
  else if field mem p 4 1 = 23 then
    some ⟨offset, leBytes 4 (field mem (m.pointer offset) 0 4 + m.loadBias).toNat, none⟩
  else none

/-- The loop, behind the values of `DT_REL`, `DT_RELSZ` and `DT_RELENT`. -/
def relocateTable32 (tags : BitVec 64 → BitVec 64) : Except Stop Relocated :=
  if tags 17 = 0 ∨ tags 18 = 0 then .ok ⟨m.mem, []⟩
  else if tags 19 = 0 then .error .divide
  else
    .ok (tableLoop m (fun mem j ↦ relPatch m mem (m.pointer (tags 17) + BitVec.ofNat 64 (8 * j)))
      ((tags 18).toNat / (tags 19).toNat) ⟨m.mem, []⟩)

def relTags : Option (BitVec 64 → BitVec 64) := tagsWith .elf32 m fun tag ↦ if tag = 19 then 8 else 0

/-- `ElfRelocate32`. -/
def elfRelocate32 : Except Stop Relocated :=
  if m.mem (m.memory + 4) ≠ 1 then .ok ⟨m.mem, []⟩
  else
    match relTags m with
    | some tags => relocateTable32 m tags
    | none => .error .endless

end Small

end Arm2x86.Reloc
