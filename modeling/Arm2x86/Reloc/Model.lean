import Arm2x86.Base.Leb128
import Arm2x86.Elf.Model

/-!
# Relocations of Android

`apply_android_packed_relocs` of `modules/arm2x86_syscall.c` (lines 1527–1771), over a loaded
module. `module->handle` is null in every module `ElfLoad` makes, so no symbol is ever found.
-/

namespace Arm2x86.Reloc

open Elf (ElfModule field fileHeader programHeaders ptDynamic)
open Elf.ElfModule (wordSize)

/-! ## The dynamic section -/

/-- The values of the tags in a dynamic section, the last one of a tag that occurs twice; none
where the section goes around the address space. -/
def dynamicTags (c : Elf.Class) (mem : Memory) :
    Nat → BitVec 64 → (BitVec 64 → BitVec 64) → Option (BitVec 64 → BitVec 64)
  | 0, _, _ => none
  | fuel + 1, dyn, values =>
    let tag := field mem dyn 0 (wordSize c)
    if tag == 0 then some values
    else
      dynamicTags c mem fuel (dyn + BitVec.ofNat 64 (2 * wordSize c))
        (fun t ↦ if t == tag then field mem dyn (wordSize c) (wordSize c) else values t)

/-- The tags of a module, zero for those it does not have. -/
def moduleTags (c : Elf.Class) (m : ElfModule) : Option (BitVec 64 → BitVec 64) :=
  let ehdr := fileHeader c m.mem m.memory
  match (programHeaders c m.mem (m.memory + ehdr.phoff) ehdr.phnum).find?
    (·.type == ptDynamic) with
  | some ph => dynamicTags c m.mem (2 ^ 60) (m.memory + ph.offset) fun _ ↦ 0
  | none => some fun _ ↦ 0

/-- `DT_ANDROID_REL`, `DT_ANDROID_RELSZ`. -/
def dtAndroidRel : BitVec 64 := 0x6ffffffa

def dtAndroidRelSz : BitVec 64 := 0x6ffffffb

/-- A word that has been written. -/
theorem field_write {mem : Memory} {p : BitVec 64} {k : Nat} {w : BitVec 64}
    (hk : w.toNat < 256 ^ k) (hk' : k ≤ 2 ^ 64) :
    field (mem.write p (leBytes k w.toNat)) p 0 k = w := by
  have hread : (mem.write p (leBytes k w.toNat)).read p (leBytes k w.toNat).length =
      leBytes k w.toNat := by
    apply mem.read_write
    rwa [length_leBytes]
  rw [length_leBytes] at hread
  rw [field, BitVec.add_zero, hread, leNat_leBytes hk, BitVec.ofNat_toNat, BitVec.setWidth_eq]

/-! ## Numbers -/

/-- The loop of both decoders, over the bytes of a number: the result and the shift behind it. The
host takes a shift modulo 64. -/
def accumulate : List Byte → BitVec 32 → BitVec 64 → BitVec 64 × BitVec 32
  | [], shift, result => (result, shift)
  | b :: bs, shift, result =>
    accumulate bs (shift + 7) (result ||| (b &&& 0x7f).setWidth 64 <<< (shift.toNat % 64))

def ulebValue (bs : List Byte) : BitVec 64 := (accumulate bs 0 0).1

def slebValue (bs : List Byte) : BitVec 64 :=
  let (result, shift) := accumulate bs 0 0
  if shift < 64 ∧ (bs.getLastD 0 &&& 0x40) ≠ 0 then result ||| -((1 : BitVec 64) <<< shift.toNat)
  else result

/-- How the bytes of the number at a position of the section are found. -/
abbrev Reader := Memory → Nat → Option (List Byte)

/-- The loop of both decoders over memory: up to the first byte without the high bit, wherever that
is; none where there is none. -/
def reader (relData : BitVec 64) : Reader :=
  fun mem pos ↦ Leb128.take mem (2 ^ 64) (relData + BitVec.ofNat 64 pos)

/-- `decode_uleb128`: the number at a position and its length. -/
def decodeUleb128 (read : Reader) (mem : Memory) (pos : Nat) : Option (BitVec 64 × Nat) :=
  (read mem pos).map fun bs ↦ (ulebValue bs, bs.length)

/-- `decode_sleb128`. -/
def decodeSleb128 (read : Reader) (mem : Memory) (pos : Nat) : Option (BitVec 64 × Nat) :=
  (read mem pos).map fun bs ↦ (slebValue bs, bs.length)

/-! ## One relocation -/

/-- A relocation as it is read. -/
structure Visit where
  offset : BitVec 64
  type : BitVec 64
  addend : BitVec 64
deriving DecidableEq, Repr

/-- The memory, the words written, and the relocations found in range. -/
structure Effects where
  mem : Memory
  writes : List Region
  visits : List Visit

/-- The test of an offset. -/
def inRange (m : ElfModule) (offset : BitVec 64) : Bool :=
  m.loadBias ≤ offset && offset < m.loadBias + BitVec.ofNat 64 m.size

/-- What is written over a word. `R_AARCH64_GLOB_DAT` (1025) and `R_AARCH64_JUMP_SLOT` (1026) write
a symbol only, `R_AARCH64_ABS64` (257) the sum when there is a symbol table; so do the types
`R_ARM_ABS32` (2), `R_ARM_GLOB_DAT` (21) and `R_ARM_JUMP_SLOT` (22). -/
def newWord (c : Elf.Class) (m : ElfModule) (v : Visit) (old : BitVec 64) : Option (BitVec 64) :=
  match c with
  | .elf64 =>
    if v.type = 1025 ∨ v.type = 1026 ∨ v.type = 257 ∧ m.dynsym = 0 then none
    else some (m.loadBias + v.addend)
  | .elf32 =>
    if (v.type = 2 ∨ v.type = 21 ∨ v.type = 22) ∧ m.dynsym = 0 then none
    else some (old + (m.loadBias + v.addend))

/-- The body of the innermost loop, behind the sum of the deltas. -/
def perform (c : Elf.Class) (m : ElfModule) (out : Effects) (v : Visit) : Effects :=
  if inRange m v.offset then
    let p := m.pointer v.offset
    match newWord c m v (field out.mem p 0 (wordSize c)) with
    | some word =>
      { mem := out.mem.write p (leBytes (wordSize c) word.toNat)
        writes := out.writes ++ [⟨p, wordSize c⟩]
        visits := out.visits ++ [v] }
    | none => { out with visits := out.visits ++ [v] }
  else out

/-! ## The loops -/

/-- The state of the loops: `pos` is how far `ptr` is behind `rel_data`, so that just the bytes
before it have been read. -/
structure Packed where
  out : Effects
  pos : Nat
  processed : Nat
  currentOffset : BitVec 64

section

variable (c : Elf.Class) (m : ElfModule) (read : Reader) (size : Nat)

/-- The loop over the relocations of a group, of which `left` have not been read. Every turn reads
a byte of the section at least. -/
def relocLoop (relocCount : Nat) (type addend : BitVec 64) : Nat → Nat → Packed → Option Packed
  | 0, _, _ => none
  | fuel + 1, left, s =>
    if left = 0 ∨ size ≤ s.pos ∨ relocCount ≤ s.processed then some s
    else do
      let (delta, k) ← decodeUleb128 read s.out.mem s.pos
      let offset := s.currentOffset + delta
      relocLoop relocCount type addend fuel (left - 1)
        { out := perform c m s.out ⟨offset, type, addend⟩
          pos := s.pos + k
          processed := s.processed + 1
          currentOffset := offset }

/-- The loop over the groups. -/
def groupLoop (relocCount : Nat) : Nat → Packed → Option Packed
  | 0, _ => none
  | fuel + 1, s =>
    if relocCount ≤ s.processed ∨ size ≤ s.pos then some s
    else do
      let (groupCount, k) ← decodeUleb128 read s.out.mem s.pos
      let s := { s with pos := s.pos + k }
      if groupCount = 0 ∨ size ≤ s.pos then some s
      else
        let (type, k) ← decodeUleb128 read s.out.mem s.pos
        let s := { s with pos := s.pos + k }
        if size ≤ s.pos then some s
        else
          let (addend, k) ← decodeSleb128 read s.out.mem s.pos
          let s := { s with pos := s.pos + k }
          if size ≤ s.pos then some s
          else
            let s ← relocLoop c m read size relocCount type addend (size + 1) groupCount.toNat s
            groupLoop relocCount fuel s

/-- The header and the loops. -/
def packedRelocs : Option Packed := do
  let s : Packed := { out := ⟨m.mem, [], []⟩, pos := 0, processed := 0, currentOffset := 0 }
  let (relocCount, k) ← decodeUleb128 read m.mem s.pos
  let s := { s with pos := s.pos + k }
  let (_, k) ← decodeUleb128 read m.mem s.pos
  let s := { s with pos := s.pos + k }
  if relocCount = 0 ∨ size ≤ s.pos then some s
  else groupLoop c m read size relocCount.toNat (size + 1) s

end

/-- `elf_class == ELFCLASS64`, or the other layout. -/
def packedClass (m : ElfModule) : Elf.Class := if m.mem (m.memory + 4) == 2 then .elf64 else .elf32

/-- `apply_android_packed_relocs`, with a reader for each place of the section; none where it does
not end. -/
def applyPackedWith (read : BitVec 64 → Nat → Reader) (m : ElfModule) : Option Packed := do
  let tags ← moduleTags (packedClass m) m
  let relAddr := tags dtAndroidRel
  let size := (tags dtAndroidRelSz).toNat
  if relAddr = 0 ∨ size = 0 ∨ size < 2 then
    some { out := ⟨m.mem, [], []⟩, pos := 0, processed := 0, currentOffset := 0 }
  else packedRelocs (packedClass m) m (read (m.pointer relAddr) size) size

/-- `apply_android_packed_relocs`. -/
def applyAndroidPackedRelocs (m : ElfModule) : Option Packed :=
  applyPackedWith (fun relData _ ↦ reader relData) m

end Arm2x86.Reloc
