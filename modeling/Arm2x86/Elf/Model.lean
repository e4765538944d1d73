import Arm2x86.Base.Memory

/-!
# Loading of ELF files

`ElfLoad`, `modules/arm2x86_elf.c:42`: the size of the image from the program headers, an anonymous
mapping of that size, the file read into it as it stands, and the load bias and the dynamic section
from the headers in the mapping. The path, the descriptor and the list of modules are left out.
-/

namespace Arm2x86.Elf

/-- The classes, `EI_CLASS`. -/
inductive Class where
  | elf32
  | elf64
deriving DecidableEq, Repr

/-- A little-endian field of some bytes. -/
def field (mem : Memory) (p : BitVec 64) (offset bytes : Nat) : BitVec 64 :=
  BitVec.ofNat 64 (leNat (mem.read (p + BitVec.ofNat 64 offset) bytes))

/-- `Elf32_Ehdr` and `Elf64_Ehdr`, the fields that are used. -/
structure FileHeader where
  phoff : BitVec 64
  phnum : Nat
deriving DecidableEq, Repr

def fileHeader (c : Class) (mem : Memory) (p : BitVec 64) : FileHeader :=
  match c with
  | .elf32 => ⟨field mem p 28 4, (field mem p 44 2).toNat⟩
  | .elf64 => ⟨field mem p 32 8, (field mem p 56 2).toNat⟩

/-- `Elf32_Phdr` and `Elf64_Phdr`, the fields that are used. -/
structure ProgramHeader where
  type : BitVec 64
  offset : BitVec 64
  vaddr : BitVec 64
  filesz : BitVec 64
  memsz : BitVec 64
deriving DecidableEq, Repr

/-- `sizeof(Elf32_Phdr)`, `sizeof(Elf64_Phdr)`. -/
def Class.phdrSize : Class → Nat
  | .elf32 => 32
  | .elf64 => 56

def programHeader (c : Class) (mem : Memory) (p : BitVec 64) : ProgramHeader :=
  match c with
  | .elf32 =>
    { type := field mem p 0 4
      offset := field mem p 4 4
      vaddr := field mem p 8 4
      filesz := field mem p 16 4
      memsz := field mem p 20 4 }
  | .elf64 =>
    { type := field mem p 0 4
      offset := field mem p 8 8
      vaddr := field mem p 16 8
      filesz := field mem p 32 8
      memsz := field mem p 40 8 }

/-- A table of program headers. -/
def programHeaders (c : Class) (mem : Memory) (p : BitVec 64) (n : Nat) : List ProgramHeader :=
  (List.range n).map fun i ↦ programHeader c mem (p + BitVec.ofNat 64 (i * c.phdrSize))

/-- `PT_LOAD`, `PT_DYNAMIC`. -/
def ptLoad : BitVec 64 := 1

def ptDynamic : BitVec 64 := 2

/-- The segments that are loaded. -/
def loads (phdrs : List ProgramHeader) : List ProgramHeader := phdrs.filter (·.type == ptLoad)

/-- The end of the last segment; the sums wrap around. -/
def maxVaddr (phdrs : List ProgramHeader) : BitVec 64 :=
  (loads phdrs).foldl (fun m ph ↦ if m < ph.vaddr + ph.memsz then ph.vaddr + ph.memsz else m) 0

/-- `load_bias`: the address of the first segment with the start of the file. -/
def loadBias (phdrs : List ProgramHeader) : BitVec 64 :=
  match (loads phdrs).find? (·.offset == 0) with
  | some ph => ph.vaddr
  | none => 0

/-- The bytes of a file, with zeros behind them. -/
def fileMemory (file : List Byte) : Memory := fun p ↦ file.getD p.toNat 0

/-- The program headers that the first pass reads from the file; none where `lseek` or `read` falls
short. -/
def firstPass (file : List Byte) : List ProgramHeader :=
  let ehdr := fileHeader .elf64 (fileMemory file) 0
  let start := if ehdr.phoff.toNat < 2 ^ 63 then ehdr.phoff else 0
  if start.toNat + ehdr.phnum * Class.elf64.phdrSize ≤ file.length ∨ ehdr.phnum = 0 then
    programHeaders .elf64 (fileMemory file) start ehdr.phnum
  else []

/-- `EI_CLASS` in a file or an image. -/
def classOf (mem : Memory) (p : BitVec 64) : Option Class :=
  if mem (p + 4) == 1 then some .elf32 else if mem (p + 4) == 2 then some .elf64 else none

/-- `map_size`. -/
def mapSize (file : List Byte) : Nat :=
  let maxVaddr := if classOf (fileMemory file) 0 = some .elf64 then maxVaddr (firstPass file) else 0
  if 0 < maxVaddr then maxVaddr.toNat else file.length

/-- An anonymous mapping of some bytes in the lower half of the address space: the memory behind
it, and the addresses that a system call can write to, those of other mappings among them. -/
structure Mapping (size : Nat) where
  base : BitVec 64
  mem : Memory
  writable : BitVec 64 → Bool
  fits : base.toNat + size ≤ 2 ^ 47
  zero : ∀ p ∈ (⟨base, size⟩ : Region), mem p = 0
  owned : ∀ p ∈ (⟨base, size⟩ : Region), writable p = true

/-- What the load depends on besides the file: the mapping it is given, and how many bytes a `read`
at a position of the file transfers at most. -/
structure Host where
  mmap : (size : Nat) → Option (Mapping size)
  chunk : Nat → Nat

/-- The memory and the places that have been written. -/
structure Writes where
  mem : Memory
  regions : List Region

def Writes.write (w : Writes) (p : BitVec 64) (bs : List Byte) : Writes :=
  ⟨w.mem.write p bs, w.regions ++ [⟨p, bs.length⟩]⟩

/-- How many bytes a `read` to an address transfers: those before the first that cannot be
written. -/
def transferred (writable : BitVec 64 → Bool) (p : BitVec 64) : Nat → Nat
  | 0 => 0
  | n + 1 => if writable p then transferred writable (p + 1) n + 1 else 0

/-- The loop that reads the file, from a position on. Every turn transfers a byte or fails, so the
length of the file is fuel enough. -/
def readLoop (file : List Byte) (chunk : Nat → Nat) (base : BitVec 64)
    (writable : BitVec 64 → Bool) : Nat → Nat → Writes → Option Writes
  | 0, pos, w => if pos < file.length then none else some w
  | fuel + 1, pos, w =>
    if pos < file.length then
      let p := base + BitVec.ofNat 64 pos
      let n := transferred writable p (min (chunk pos) (file.length - pos))
      if n = 0 then none
      else readLoop file chunk base writable fuel (pos + n) (w.write p ((file.drop pos).take n))
    else
      some w

/-- `ElfModule`, the fields that a load fills in, with the memory and the places written. Null
pointers are zero. -/
structure ElfModule where
  mem : Memory
  written : List Region
  memory : BitVec 64
  size : Nat
  mappedSize : Nat
  loadBias : BitVec 64 := 0
  dynsym : BitVec 64 := 0
  dynsymSz : BitVec 64 := 0
  dynstr : BitVec 64 := 0
  ghash : BitVec 64 := 0
  nbucket : BitVec 32 := 0
  nchain : BitVec 32 := 0
  bucket : BitVec 64 := 0
  chain : BitVec 64 := 0

namespace ElfModule

/-- The sizes of `d_tag` and of a symbol. -/
def wordSize : Class → Nat
  | .elf32 => 4
  | .elf64 => 8

def symSize : Class → BitVec 64
  | .elf32 => 16
  | .elf64 => 24

/-- The pointer to an address of the image. -/
def pointer (m : ElfModule) (vaddr : BitVec 64) : BitVec 64 := m.memory + vaddr - m.loadBias

/-- One entry of the dynamic section. The hash table of GNU is for the large class only. -/
def dynEntry (c : Class) (m : ElfModule) (tag val : BitVec 64) : ElfModule :=
  let p := m.pointer val
  if tag == 6 then { m with dynsym := p }
  else if tag == 5 then { m with dynstr := p }
  else if tag == 4 then
    let nbucket : BitVec 32 := (field m.mem p 0 4).setWidth 32
    let nchain : BitVec 32 := (field m.mem p 4 4).setWidth 32
    { m with
      nbucket
      nchain
      bucket := p + 8
      chain := p + 4 * (2 + nbucket).setWidth 64
      dynsymSz :=
        if m.dynsym ≠ 0 ∧ m.dynsymSz = 0 then nchain.setWidth 64 * symSize c else m.dynsymSz }
  else if tag == 0x6ffffef5 ∧ c = .elf64 then { m with ghash := p }
  else m

/-- The walk through the dynamic section up to `DT_NULL`; none where it goes around the address
space. -/
def dynLoop (c : Class) : Nat → BitVec 64 → ElfModule → Option ElfModule
  | 0, _, _ => none
  | fuel + 1, dyn, m =>
    let tag := field m.mem dyn 0 (wordSize c)
    if tag == 0 then some m
    else
      dynLoop c fuel (dyn + BitVec.ofNat 64 (2 * wordSize c))
        (m.dynEntry c tag (field m.mem dyn (wordSize c) (wordSize c)))

/-- What the headers in the mapping say. -/
def readHeaders (c : Class) (m : ElfModule) : Option ElfModule :=
  let ehdr := fileHeader c m.mem m.memory
  let phdrs := programHeaders c m.mem (m.memory + ehdr.phoff) ehdr.phnum
  let m := { m with loadBias := Elf.loadBias phdrs }
  match phdrs.find? (·.type == ptDynamic) with
  | some ph => dynLoop c (2 ^ 60) (m.memory + ph.offset) m
  | none => some m

end ElfModule

/-- `ElfLoad` of a file; none where it fails. -/
def elfLoad (host : Host) (file : List Byte) : Option ElfModule := do
  guard (4096 ≤ file.length)
  let mapping ← host.mmap (mapSize file)
  let w ← readLoop file host.chunk mapping.base mapping.writable file.length 0 ⟨mapping.mem, []⟩
  let m : ElfModule :=
    { mem := w.mem
      written := w.regions
      memory := mapping.base
      size := file.length
      mappedSize := mapSize file }
  guard (w.mem.read mapping.base 4 = [0x7f, 0x45, 0x4c, 0x46])
  match classOf w.mem mapping.base with
  | some c => m.readHeaders c
  | none => some m

end Arm2x86.Elf
