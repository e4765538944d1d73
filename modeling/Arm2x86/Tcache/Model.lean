import Arm2x86.Base.Bytes
import Arm2x86.Base.Heap

/-!
# The translation cache

`modules/arm2x86_tcache.c`: entries of translated code on two intrusive structures, a hash
table of singly linked chains and a doubly linked list in order of use. Every function is
translated statement by statement over an explicit heap of entries; a result `none` of the
`Option` monad is an access through a pointer that is not allocated or a pointer walk longer
than the heap. Calls that leave the cache (unmapping or freeing code, patching jumps into an
evicted block) are recorded as effects. Sizes and counters are `size_t` values with explicit
wrap-around.
-/

namespace Arm2x86.Tcache

/-- `uintptr_t` values: guest addresses and code pointers. -/
abbrev Addr := BitVec 64

/-- `TCACHE_DEFAULT_SIZE`. -/
def defaultSize : Nat := 1024 * 1024

/-- `TCACHE_HASH_BUCKETS`. -/
def hashBuckets : Nat := 4096

/-- `TCACHE_HOT_THRESHOLD`. -/
def hotThreshold : BitVec 32 := 3#32

/-- `TCACHE_MIN_SIZE`. -/
def minSize : Nat := 512 * 1024

/-- `TCACHE_MAX_SIZE`. -/
def maxSize : Nat := 64 * 1024 * 1024

/-- `TCACHE_FLAG_HOT`. -/
def flagHot : BitVec 16 := 0x01#16

/-- `TCACHE_FLAG_LOCKED`. -/
def flagLocked : BitVec 16 := 0x02#16

/-- `TCACHE_FLAG_OWNED`. -/
def flagOwned : BitVec 16 := 0x04#16

/-- `TCACHE_FLAG_MMAP`. -/
def flagMmap : BitVec 16 := 0x08#16

/-- The flag test `flags & f`. -/
def hasFlag (flags f : BitVec 16) : Bool := flags &&& f != 0#16

/-- `struct tcache_entry`, `modules/arm2x86_tcache.c:161`. -/
structure Entry where
  next : Option Ptr
  lruPrev : Option Ptr
  lruNext : Option Ptr
  armAddr : Addr
  x86Code : Addr
  x86Size : Nat
  execCount : BitVec 32
  flags : BitVec 16
  hash : BitVec 16
deriving DecidableEq

namespace Entry

/-- `e->next = p`. -/
def setNext (p : Option Ptr) (e : Entry) : Entry := { e with next := p }

/-- `e->lru_prev = p`. -/
def setLruPrev (p : Option Ptr) (e : Entry) : Entry := { e with lruPrev := p }

/-- `e->lru_next = p`. -/
def setLruNext (p : Option Ptr) (e : Entry) : Entry := { e with lruNext := p }

end Entry

/-- `struct arm2x86_translation_cache`, `modules/arm2x86_tcache.c:148`, with the heap its
entries live in. `hashTable` is indexed below `bucketCount`. -/
structure Cache where
  heap : Heap Entry
  hashTable : Nat → Option Ptr
  lruHead : Option Ptr
  lruTail : Option Ptr
  totalSize : Nat
  usedSize : Nat
  entryCount : Nat
  lookupCount : Nat
  missCount : Nat
  bucketCount : Nat

/-- The status codes the cache returns, `arm2x86.h:24`. -/
inductive Status where
  | ok
  | errInvalidParam
  | errMemory
deriving DecidableEq, Repr

/-- What the cache asks of its surroundings. -/
inductive Effect where
  /-- `tcache_patch_evicted_block` -/
  | patchEvictedBlock (armAddr : Addr)
  | munmap (code : Addr) (size : Nat)
  | free (code : Addr)
deriving DecidableEq, Repr

/-- `tcache_hash_buckets`, `modules/arm2x86_tcache.c:178`. -/
def tcacheHashBuckets (hash : BitVec 16) (buckets : Nat) : Nat := hash.toNat % buckets

/-- `tcache_hash`, `modules/arm2x86_tcache.c:183`: two rounds of a 64-bit hash over the low
and the high word, truncated to 16 bits. -/
def tcacheHash (addr : Addr) : BitVec 16 :=
  let hash : BitVec 64 := 14695981039346656037#64
  let hash := hash ^^^ (addr &&& 0xFFFFFFFF#64)
  let hash := hash * 1099511628211#64
  let hash := hash ^^^ ((addr >>> 32) &&& 0xFFFFFFFF#64)
  let hash := hash * 1099511628211#64
  hash.setWidth 16

namespace Cache

/-- Write to an entry through its pointer. -/
def update (c : Cache) (p : Ptr) (f : Entry → Entry) : Option Cache :=
  (c.heap.update p f).map fun heap ↦ { c with heap }

/-- Write to an entry through a pointer that may be null, as `if (p) p->field = v` does. -/
def updateIf (c : Cache) (p : Option Ptr) (f : Entry → Entry) : Option Cache :=
  match p with
  | none => some c
  | some p => c.update p f

/-- `hash_table[i] = p`. -/
def setBucket (c : Cache) (i : Nat) (p : Option Ptr) : Cache :=
  { c with hashTable := fun j ↦ if j = i then p else c.hashTable j }

end Cache

/-- `arm2x86_tcache_create`, `modules/arm2x86_tcache.c:193`, when both allocations succeed. -/
def tcacheCreate (size buckets : Nat) : Cache where
  heap := ∅
  hashTable := fun _ ↦ none
  lruHead := none
  lruTail := none
  totalSize := if size > 0 then size else defaultSize
  usedSize := 0
  entryCount := 0
  lookupCount := 0
  missCount := 0
  bucketCount := if buckets > 0 then buckets else hashBuckets

/-- The walk `while (entry)` of `tcache_lookup_internal` along one chain. -/
def findEntry (heap : Heap Entry) (armAddr : Addr) : Nat → Option Ptr → Option (Option Ptr)
  | 0, _ => none
  | _ + 1, none => some none
  | fuel + 1, some p => do
    let entry ← heap[p]?
    if entry.armAddr = armAddr then some (some p)
    else findEntry heap armAddr fuel entry.next

/-- The count and the hot flag of a hit, `modules/arm2x86_tcache.c:234`. -/
def Entry.markUsed (e : Entry) : Entry :=
  let e := { e with execCount := e.execCount + 1 }
  if hotThreshold ≤ e.execCount then { e with flags := e.flags ||| flagHot } else e

/-- The relinking of a hit that is not yet at the front, `modules/arm2x86_tcache.c:239`. -/
def moveToFront (c : Cache) (p : Ptr) : Option Cache := do
  let entry ← c.heap[p]?
  let c ← c.updateIf entry.lruPrev (Entry.setLruNext entry.lruNext)
  let entry ← c.heap[p]?
  let c ← c.updateIf entry.lruNext (Entry.setLruPrev entry.lruPrev)
  let entry ← c.heap[p]?
  let c := { c with lruTail := if c.lruTail = some p then entry.lruPrev else c.lruTail }
  let c ← c.update p (Entry.setLruPrev none)
  let c ← c.update p (Entry.setLruNext c.lruHead)
  let c ← c.updateIf c.lruHead (Entry.setLruPrev (some p))
  return { c with lruHead := some p }

/-- `tcache_lookup_internal`, `modules/arm2x86_tcache.c:222`. -/
def tcacheLookupInternal (c : Cache) (armAddr : Addr) : Option (Option Ptr × Cache) := do
  let bucketIdx := tcacheHashBuckets (tcacheHash armAddr) c.bucketCount
  let c := { c with lookupCount := sizeAdd c.lookupCount 1 }
  match ← findEntry c.heap armAddr (c.heap.size + 1) (c.hashTable bucketIdx) with
  | none => return (none, { c with missCount := sizeAdd c.missCount 1 })
  | some p =>
    let c ← c.update p Entry.markUsed
    if c.lruHead = some p then return (some p, c)
    else return (some p, ← moveToFront c p)

/-- The place a `tcache_entry_t **` points to: a table slot or the `next` field of an entry. -/
inductive Slot where
  | table (i : Nat)
  | next (p : Ptr)
deriving DecidableEq

namespace Cache

/-- `*slot`. -/
def load (c : Cache) : Slot → Option (Option Ptr)
  | .table i => some (c.hashTable i)
  | .next p => c.heap[p]?.map Entry.next

/-- `*slot = v`. -/
def store (c : Cache) (v : Option Ptr) : Slot → Option Cache
  | .table i => some (c.setBucket i v)
  | .next p => c.update p (Entry.setNext v)

end Cache

/-- `while (*bucket && *bucket != evict) bucket = &(*bucket)->next;`. -/
def findSlot (c : Cache) (evict : Ptr) : Nat → Slot → Option Slot
  | 0, _ => none
  | fuel + 1, slot => do
    match ← c.load slot with
    | none => some slot
    | some q => if q = evict then some slot else findSlot c evict fuel (.next q)

/-- The release of an entry's code, `modules/arm2x86_tcache.c:303`. -/
def Entry.release (e : Entry) : List Effect :=
  if hasFlag e.flags flagOwned then
    if hasFlag e.flags flagMmap then [.munmap e.x86Code e.x86Size] else [.free e.x86Code]
  else []

/-- One eviction, the body of the loop at `modules/arm2x86_tcache.c:280`. -/
def evictEntry (buckets : Nat) (c : Cache) (evict : Ptr) : Option (Cache × List Effect) := do
  let e ← c.heap[evict]?
  let patched := Effect.patchEvictedBlock e.armAddr
  let c ← c.updateIf e.lruPrev (Entry.setLruNext none)
  let e ← c.heap[evict]?
  let c := { c with
    lruTail := e.lruPrev
    lruHead := if e.lruPrev = none then none else c.lruHead }
  let bucketIdx := tcacheHashBuckets e.hash buckets
  let slot ← findSlot c evict (c.heap.size + 1) (.table bucketIdx)
  let c ← match ← c.load slot with
    | none => some c
    | some _ => c.store e.next slot
  let e ← c.heap[evict]?
  let c := { c with
    usedSize := sizeSub c.usedSize e.x86Size
    entryCount := sizeSub c.entryCount 1
    heap := c.heap.erase evict }
  return (c, patched :: e.release)

/-- The eviction loop of `arm2x86_tcache_insert_ex`. -/
def evictLoop (buckets x86Size : Nat) : Nat → Cache → Option (Cache × List Effect)
  | 0, _ => none
  | fuel + 1, c =>
    if sizeAdd c.usedSize x86Size > c.totalSize then
      match c.lruTail with
      | none => some (c, [])
      | some evict => do
        let e ← c.heap[evict]?
        if hasFlag e.flags flagLocked then some (c, [])
        else
          let (c, fx) ← evictEntry buckets c evict
          let (c, fx') ← evictLoop buckets x86Size fuel c
          return (c, fx ++ fx')
    else some (c, [])

/-- The links and counters of a new entry, `modules/arm2x86_tcache.c:325`. -/
def linkEntry (buckets : Nat) (c : Cache) (p : Ptr) : Option Cache := do
  let entry ← c.heap[p]?
  let bucketIdx := tcacheHashBuckets entry.hash buckets
  let c ← c.update p (Entry.setNext (c.hashTable bucketIdx))
  let c := c.setBucket bucketIdx (some p)
  let c ← c.update p (Entry.setLruPrev none)
  let c ← c.update p (Entry.setLruNext c.lruHead)
  let c ← c.updateIf c.lruHead (Entry.setLruPrev (some p))
  return { c with
    lruHead := some p
    lruTail := if c.lruTail = none then some p else c.lruTail
    usedSize := sizeAdd c.usedSize entry.x86Size
    entryCount := sizeAdd c.entryCount 1 }

/-- The fields of a new entry, `modules/arm2x86_tcache.c:317`. -/
def newEntry (armAddr x86Code : Addr) (x86Size : Nat) (owned mmap : Bool) : Entry where
  next := none
  lruPrev := none
  lruNext := none
  armAddr := armAddr
  x86Code := x86Code
  x86Size := x86Size
  execCount := 1#32
  flags := (if owned then flagOwned else 0#16) ||| (if mmap then flagMmap else 0#16)
  hash := tcacheHash armAddr

/-- `arm2x86_tcache_insert_ex`, `modules/arm2x86_tcache.c:271`; `alloc` answers the
`calloc` it makes. -/
def tcacheInsertEx (c : Cache) (armAddr x86Code : Addr) (x86Size : Nat) (owned mmap : Bool)
    (alloc : Heap.Allocator Entry) : Option (Status × Cache × List Effect) :=
  if x86Code = 0#64 then some (.errInvalidParam, c, [])
  else do
    let buckets := c.bucketCount
    let (c, fx) ← evictLoop buckets x86Size (c.heap.size + 1) c
    match alloc.calloc c.heap with
    | none => return (.errMemory, c, fx)
    | some p =>
      let heap := c.heap.insert p (newEntry armAddr x86Code x86Size owned mmap)
      return (.ok, ← linkEntry buckets { c with heap } p, fx)

/-- `arm2x86_tcache_insert`, `modules/arm2x86_tcache.c:265`. -/
def tcacheInsert (c : Cache) (armAddr x86Code : Addr) (x86Size : Nat)
    (alloc : Heap.Allocator Entry) : Option (Status × Cache × List Effect) :=
  tcacheInsertEx c armAddr x86Code x86Size false false alloc

/-- The walk `while (entry)` of `arm2x86_tcache_clear` along one chain. -/
def clearChain : Nat → Option Ptr → Cache × List Effect → Option (Cache × List Effect)
  | 0, _, _ => none
  | _ + 1, none, s => some s
  | fuel + 1, some p, (c, fx) => do
    let entry ← c.heap[p]?
    let next := entry.next
    clearChain fuel next ({ c with heap := c.heap.erase p }, fx ++ entry.release)

/-- The body of the loop over the table in `arm2x86_tcache_clear`. -/
def clearBucket (i : Nat) (s : Cache × List Effect) : Option (Cache × List Effect) := do
  let (c, fx) ← clearChain (s.1.heap.size + 1) (s.1.hashTable i) s
  return (c.setBucket i none, fx)

/-- `arm2x86_tcache_clear`, `modules/arm2x86_tcache.c:340`. -/
def tcacheClear (c : Cache) : Option (Cache × List Effect) := do
  let (c, fx) ← forRange clearBucket c.bucketCount (c, [])
  return ({ c with
    lruHead := none
    lruTail := none
    usedSize := 0
    entryCount := 0
    lookupCount := 0
    missCount := 0 }, fx)

/-- The walk `while (entry)` of `arm2x86_tcache_resize` along one chain: each entry moves to
the front of its chain in the new table. -/
def rehashChain (newBuckets : Nat) :
    Nat → Option Ptr → Heap Entry × (Nat → Option Ptr) →
      Option (Heap Entry × (Nat → Option Ptr))
  | 0, _, _ => none
  | _ + 1, none, s => some s
  | fuel + 1, some p, (heap, newTable) => do
    let entry ← heap[p]?
    let next := entry.next
    let newBucket := tcacheHashBuckets entry.hash newBuckets
    let heap ← heap.update p (Entry.setNext (newTable newBucket))
    rehashChain newBuckets fuel next
      (heap, fun j ↦ if j = newBucket then some p else newTable j)

/-- The rehashing loop over the old table, `modules/arm2x86_tcache.c:412`. -/
def rehash (c : Cache) (oldBuckets newBuckets : Nat) :
    Option (Heap Entry × (Nat → Option Ptr)) :=
  forRange (fun i s ↦ rehashChain newBuckets (s.1.size + 1) (c.hashTable i) s) oldBuckets
    (c.heap, fun _ ↦ none)

/-- The bounds `arm2x86_tcache_resize` puts on a size. -/
def clampSize (newSize : Nat) : Nat :=
  let newSize := if newSize < minSize then minSize else newSize
  if newSize > maxSize then maxSize else newSize

/-- `arm2x86_tcache_resize`, `modules/arm2x86_tcache.c:386`; `alloc` tells whether the new
table could be allocated. -/
def tcacheResize (c : Cache) (newSize : Nat) (alloc : Bool) : Option (Status × Cache) :=
  let newSize := clampSize newSize
  if newSize = c.totalSize then some (.ok, c)
  else
    let oldBuckets := if c.bucketCount = 0 then hashBuckets else c.bucketCount
    let newBuckets := if newSize / 8 = 0 then hashBuckets else newSize / 8
    if alloc then do
      let (heap, newTable) ← rehash c oldBuckets newBuckets
      return (.ok, { c with
        heap := heap
        hashTable := newTable
        totalSize := newSize
        bucketCount := newBuckets })
    else some (.errMemory, c)

/-- The size `arm2x86_tcache_adjust_auto` asks for, in `double` arithmetic. -/
def adjustedSize (totalSize usedSize : Nat) (missRate : Float) : Nat :=
  let total := (UInt64.ofNat totalSize).toFloat
  let used := (UInt64.ofNat usedSize).toFloat
  if missRate > 0.3 ∧ used ≥ total * 0.9 then (total * 1.5).toUInt64.toNat
  else if missRate < 0.1 ∧ used < total * 0.3 then (total * 0.75).toUInt64.toNat
  else totalSize

/-- `arm2x86_tcache_adjust_auto`, `modules/arm2x86_tcache.c:434`. -/
def tcacheAdjustAuto (c : Cache) (missRate : Float) (alloc : Bool) : Option (Status × Cache) :=
  let newSize := adjustedSize c.totalSize c.usedSize missRate
  if newSize ≠ c.totalSize then tcacheResize c newSize alloc else some (.ok, c)

/-- `arm2x86_tcache_get_code` and `arm2x86_tcache_get_size` of a lookup result. -/
def Cache.codeAndSize (c : Cache) (entry : Option Ptr) : Option (Addr × Nat) := do
  let e ← c.heap[← entry]?
  return (e.x86Code, e.x86Size)

end Arm2x86.Tcache
