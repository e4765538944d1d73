import Arm2x86.Base.Arena
import Arm2x86.Base.Memory
import Mathlib.Data.List.FinRange
import Mathlib.Logic.Function.Basic

/-!
# The pool of executable memory

`modules/arm2x86_easy.c:36`: memory for code in chunks of six size classes. A request takes the
first chunk of its class with room and gives out its next bytes; without one, a chunk is mapped.
The mutex and the failure to allocate the pool itself are left out.
-/

namespace Arm2x86.Easy

instance neZeroClasses : NeZero 6 := ⟨by decide⟩

/-- `mempool_class_sizes`. -/
def mempoolClassSizes : Fin 6 → BitVec 64
  | 0 => 64
  | 1 => 256
  | 2 => 1024
  | 3 => 4096
  | 4 => 16384
  | 5 => 65536

/-- `mempool_get_class`, `modules/arm2x86_easy.c:54`. -/
def mempoolGetClass (size : BitVec 64) : Fin 6 :=
  if size ≤ 64 then 0
  else if size ≤ 256 then 1
  else if size ≤ 1024 then 2
  else if size ≤ 4096 then 3
  else if size ≤ 16384 then 4
  else 5

/-- `(size + 15) & ~15`. -/
def align16 (size : BitVec 64) : BitVec 64 := (size + 15) &&& ~~~ 15

/-- `arm2x86_mempool_chunk_t`. -/
structure MempoolChunk where
  base : BitVec 64
  size : BitVec 64
  offset : BitVec 64
  classId : Fin 6
deriving DecidableEq, Repr

namespace MempoolChunk

/-- The chunk as an arena. -/
def arena (c : MempoolChunk) : Arena := ⟨c.base.toNat, c.size.toNat, c.offset.toNat⟩

end MempoolChunk

/-- `arm2x86_mempool_t`. -/
structure Mempool where
  chunks : Fin 6 → List MempoolChunk
  totalSize : BitVec 64
  usedSize : BitVec 64
  defaultChunkSize : BitVec 64
  maxSize : BitVec 64
  enableGrowth : BitVec 32

namespace Mempool

/-- The chunks of all classes. -/
def all (pool : Mempool) : List MempoolChunk := (List.finRange 6).flatMap pool.chunks

/-- The memory of all chunks. -/
def spans (pool : Mempool) : List Span := pool.all.map fun c ↦ c.arena.span

end Mempool

/-- What `mmap` returns for some bytes while some spans are mapped: a page in the lower half of the
address space with free memory behind it. -/
structure Mappable (taken : List Span) (n : Nat) (a : BitVec 64) : Prop where
  nonempty : n ≠ 0
  nonnull : a ≠ 0
  page : a.toNat % 4096 = 0
  lower : a.toNat + n ≤ 2 ^ 47
  fresh : ∀ s ∈ taken, Span.Apart ⟨a.toNat, n⟩ s

/-- The answers of `mmap`, and of the `malloc` for the chunk. -/
structure Mmap where
  map : List Span → Nat → Option (BitVec 64)
  mappable : ∀ {taken n a}, map taken n = some a → Mappable taken n a

/-- No memory. -/
def Mmap.none : Mmap where
  map _ _ := .none
  mappable := nofun

/-- One page, where it has the memory behind it. -/
def Mmap.at (a : BitVec 64) : Mmap where
  map taken n :=
    if n ≠ 0 ∧ a ≠ 0 ∧ a.toNat % 4096 = 0 ∧ a.toNat + n ≤ 2 ^ 47 ∧
      ∀ s ∈ taken, Span.Apart ⟨a.toNat, n⟩ s then some a else .none
  mappable h := by
    split at h
    · next hfree =>
      obtain ⟨hn, ha, hpage, hlower, hfresh⟩ := hfree
      exact Option.some.inj h ▸ ⟨hn, ha, hpage, hlower, hfresh⟩
    · cases h

/-- The size of the mapping for a chunk. -/
def mempoolActualSize (size : BitVec 64) : BitVec 64 :=
  if mempoolClassSizes (mempoolGetClass size) < size then align16 size
  else mempoolClassSizes (mempoolGetClass size)

/-- `arm2x86_mempool_alloc_chunk`, `modules/arm2x86_easy.c:81`. -/
def mempoolAllocChunk (m : Mmap) (taken : List Span) (size : BitVec 64) : Option MempoolChunk :=
  (m.map taken (mempoolActualSize size).toNat).map fun mem ↦
    { base := mem
      size := mempoolActualSize size
      offset := 0
      classId := mempoolGetClass size }

/-- `arm2x86_mempool_config_t`; `precommit` is never read. -/
structure MempoolConfig where
  initialSize : BitVec 64
  maxSize : BitVec 64
  chunkSize : BitVec 64
  enableGrowth : BitVec 32
deriving DecidableEq, Repr

/-- `arm2x86_mempool_config_default`, `modules/arm2x86_easy.c:208`. -/
def mempoolConfigDefault : MempoolConfig where
  initialSize := 64 * 1024
  maxSize := 64 * 1024 * 1024
  chunkSize := 64 * 1024
  enableGrowth := 1

namespace MempoolConfig

/-- What `arm2x86_mempool_init` makes of the settings. -/
def defaultChunkSize (config : MempoolConfig) : BitVec 64 :=
  if config.chunkSize ≠ 0 then config.chunkSize else 64 * 1024

def maximum (config : MempoolConfig) : BitVec 64 :=
  if config.maxSize ≠ 0 then config.maxSize else 64 * 1024 * 1024

def initial (config : MempoolConfig) : BitVec 64 :=
  let initial := if config.initialSize ≠ 0 then config.initialSize else config.defaultChunkSize
  if config.maximum < initial then config.maximum else initial

/-- `arm2x86_mempool_init`, `modules/arm2x86_easy.c:112`. Growth is enabled on either branch. -/
def mempoolInit (config : MempoolConfig) (m : Mmap) : Mempool :=
  let pool : Mempool :=
    { chunks := fun _ ↦ []
      totalSize := 0
      usedSize := 0
      defaultChunkSize := config.defaultChunkSize
      maxSize := config.maximum
      enableGrowth := if config.enableGrowth ≠ 0 then 1 else 1 }
  match mempoolAllocChunk m [] config.initial with
  | some chunk =>
    { pool with
      chunks := Function.update pool.chunks chunk.classId [chunk]
      totalSize := config.initial }
  | none => pool

end MempoolConfig

/-- `arm2x86_enable_mempool`, `modules/arm2x86_easy.c:218`, on an instance without a pool. -/
def enableMempool (config : Option MempoolConfig) (m : Mmap) : Mempool :=
  (config.getD mempoolConfigDefault).mempoolInit m

/-- The walk over the chunks of a class: the first one with room gives out its next bytes. -/
def takeFirst (size : BitVec 64) : List MempoolChunk → Option (BitVec 64 × List MempoolChunk)
  | [] => none
  | chunk :: rest =>
    if chunk.offset + size ≤ chunk.size then
      some (chunk.base + chunk.offset, { chunk with offset := chunk.offset + size } :: rest)
    else
      (takeFirst size rest).map fun (ptr, rest) ↦ (ptr, chunk :: rest)

/-- The size a request is given a new chunk of. -/
def mempoolNewSize (size : BitVec 64) : BitVec 64 :=
  if mempoolClassSizes (mempoolGetClass size) < size then align16 size
  else mempoolClassSizes (mempoolGetClass size)

/-- `arm2x86_mempool_alloc`, `modules/arm2x86_easy.c:155`. -/
def Mempool.alloc (m : Mmap) (pool : Mempool) (size : BitVec 64) : Option (BitVec 64) × Mempool :=
  let size := align16 size
  let classId := mempoolGetClass size
  match takeFirst size (pool.chunks classId) with
  | some (ptr, chunks) =>
    (some ptr,
      { pool with
        chunks := Function.update pool.chunks classId chunks
        usedSize := pool.usedSize + size })
  | none =>
    let newSize := mempoolNewSize size
    if pool.maxSize < pool.totalSize + newSize ∧ pool.enableGrowth = 0 then (none, pool)
    else
      match mempoolAllocChunk m pool.spans newSize with
      | none => (none, pool)
      | some chunk =>
        (some chunk.base,
          { pool with
            chunks :=
              Function.update pool.chunks classId
                ({ chunk with offset := size } :: pool.chunks classId)
            totalSize := pool.totalSize + chunk.size
            usedSize := pool.usedSize + size })

end Arm2x86.Easy
