import Arm2x86.Tcache.Invariant
import Arm2x86.Translate.Block

/-!
# Translation instances

`modules/arm2x86_easy.c`: an instance puts a translation cache, a table from the content of guest
code to translated code, an optional persistent cache and an optional memory pool behind the calls
of the easy interface. The answers of the system (what is mapped where, what fails, what the
persistent cache returns) are arguments of the calls. Memory for code is a map from addresses in
use to their contents; releasing an address that is not in use is recorded.
-/

namespace Arm2x86.Easy

open Tcache

/-- `arm2x86_code_hash`, `modules/arm2x86_easy.c:271`. -/
def codeHash (data : List Byte) : BitVec 64 :=
  let h := data.foldl (fun h b ↦ (h ^^^ b.setWidth 64) * 0xbf58476d1ce4e5b9#64) 0x9e3779b97f4a7c15#64
  let h := h ^^^ (h >>> 33)
  let h := h * 0xff51afd7ed558ccd#64
  let h := h ^^^ (h >>> 33)
  let h := h * 0xc4ceb9fe1a85ec53#64
  h ^^^ (h >>> 33)

/-- `arm2x86_code_hash_entry_t`; its count of references is never read. -/
structure CodeHashEntry where
  hash : BitVec 64
  x86Code : Addr
  x86Size : Nat
deriving DecidableEq, Repr

/-- The contents of the mapped and allocated memory, by the address it starts at. -/
abbrev Regions := Addr → Option (List Byte)

/-- The answers of `mmap` and `malloc`: nothing, or an address that is not in use. -/
structure Placement where
  place : Regions → Option Addr
  fresh : ∀ r a, place r = some a → a ≠ 0#64 ∧ r a = none

/-- One address, as long as it is not in use. -/
def Placement.at (a : Addr) : Placement where
  place r := if a ≠ 0#64 ∧ r a = none then some a else none
  fresh r b hb := by
    split at hb
    · next h => exact Option.some.inj hb ▸ h
    · cases hb

/-- No memory. -/
def Placement.none : Placement where
  place _ := Option.none
  fresh _ _ h := nomatch h

/-- `arm2x86_instance_t`. The chains of the code table hold entries whose hashes share their low
bits, so a search along a chain is a search for the hash in the list of all entries, newest first.
`mempool` lists what the pool has handed out; `faults` lists the releases of memory that was not in
use. -/
structure Instance where
  cache : Cache
  codeHashTable : Option (List CodeHashEntry)
  pcache : Bool
  mempool : Option (List Addr)
  regions : Regions
  faults : List Addr

/-- `arm2x86_create_easy`: `table` tells whether the code table could be allocated. -/
def createEasy (cacheSize hashBuckets : Nat) (table pcache mempool : Bool) : Instance where
  cache := tcacheCreate cacheSize hashBuckets
  codeHashTable := if table then some [] else none
  pcache := pcache
  mempool := if mempool then some [] else none
  regions := fun _ ↦ none
  faults := []

/-- What a call meets: the code the persistent cache returns and the buffer it is in, the memory
for a copy, for a translation and in the pool, the translator, and whether the protection of the
pages, the entry of the code table and the entry of the cache succeed. -/
structure Answers where
  pcache : Option (List Byte)
  buffer : Placement
  copy : Placement
  code : Placement
  pool : Placement
  convert : Addr → List Byte → Addr → Option (List Byte)
  mprotect : Bool
  hashEntry : Bool
  entry : Heap.Allocator Entry

/-- No persistent cache and no pool: code is mapped at `a`, translated, and entered at `p`. -/
def Answers.mapped (a : Addr) (p : Ptr) : Answers where
  pcache := none
  buffer := .none
  copy := .none
  code := .at a
  pool := .none
  convert addr code x86Base := some <| Translate.convertBlockBytes .default .zero
    ⟨fun q ↦ code.getD (q - addr).toNat 0, addr, code.length⟩ x86Base
  mprotect := true
  hashEntry := true
  entry := .at Entry p

namespace Instance

/-- Memory in use with some contents. -/
def occupy (s : Instance) (a : Addr) (code : List Byte) : Instance :=
  { s with regions := fun b ↦ if b = a then some code else s.regions b }

/-- `munmap` or `free`. -/
def release (s : Instance) (a : Addr) : Instance :=
  if (s.regions a).isSome then { s with regions := fun b ↦ if b = a then none else s.regions b }
  else { s with faults := a :: s.faults }

/-- Releases in order. -/
def releaseAll (s : Instance) (as : List Addr) : Instance := as.foldl release s

/-- `arm2x86_code_hash_lookup`, `modules/arm2x86_easy.c:318`. -/
def codeHashLookup (s : Instance) (hash : BitVec 64) : Option CodeHashEntry :=
  s.codeHashTable.bind fun table ↦ table.find? fun e ↦ e.hash = hash

/-- `arm2x86_code_hash_insert`, `modules/arm2x86_easy.c:329`. -/
def codeHashInsert (s : Instance) (hash : BitVec 64) (x86Code : Addr) (x86Size : Nat)
    (malloc : Bool) : Instance :=
  if malloc then { s with codeHashTable := s.codeHashTable.map (⟨hash, x86Code, x86Size⟩ :: ·) }
  else s

/-- `arm2x86_tcache_lookup` and `arm2x86_tcache_get_code`. -/
def tcacheLookup (s : Instance) (addr : Addr) : Option (Option Addr × Instance) := do
  let (entry, cache) ← tcacheLookupInternal s.cache addr
  return ((cache.codeAndSize entry).map Prod.fst, { s with cache })

/-- `arm2x86_tcache_insert_ex` with the releases of its evictions. The callers pass `owned` for
both flags. -/
def tcacheInsert (s : Instance) (addr x86Code : Addr) (x86Size : Nat) (owned : Bool)
    (alloc : Heap.Allocator Entry) : Option Instance := do
  let (_, cache, fx) ← tcacheInsertEx s.cache addr x86Code x86Size owned owned alloc
  return { s with cache }.releaseAll (released fx)

/-- The persistent cache in `arm2x86_translate_easy`, `modules/arm2x86_easy.c:548`. -/
def loadPersistent (s : Instance) (addr : Addr) (ans : Answers) :
    Option (Option Addr × Instance) :=
  match s.pcache, ans.pcache, ans.buffer.place s.regions with
  | true, some code, some buf =>
    let s := s.occupy buf code
    match ans.copy.place s.regions with
    | some exec => do
      let s := (s.occupy exec code).release buf
      return (some exec, ← s.tcacheInsert addr exec code.length false ans.entry)
    | none => some (none, s.release buf)
  | _, _, _ => some (none, s)

/-- The memory for a translation: from the pool when there is one, else mapped. -/
def allocCode (s : Instance) (ans : Answers) : Option (Addr × Instance) :=
  let mapped := (ans.code.place s.regions).map fun a ↦ (a, s.occupy a [])
  match s.mempool with
  | none => mapped
  | some handed =>
    match ans.pool.place s.regions with
    | some a => some (a, { s.occupy a [] with mempool := some (a :: handed) })
    | none => mapped

/-- The translation in `arm2x86_translate_easy`, `modules/arm2x86_easy.c:584`. -/
def translateNew (s : Instance) (armCode : Addr) (code : List Byte) (ans : Answers) :
    Option (Option Addr × Instance) :=
  match s.allocCode ans with
  | none => some (none, s)
  | some (a, s) =>
    match ans.convert armCode code a, ans.mprotect with
    | some x86, true => do
      let s := (s.occupy a x86).codeHashInsert (codeHash code) a x86.length ans.hashEntry
      return (some a, ← s.tcacheInsert armCode a x86.length false ans.entry)
    -- memory of the pool stays with the pool, and so does memory mapped in its place
    | _, _ => some (none, if s.mempool.isSome then s else s.release a)

/-- `arm2x86_translate_easy`, `modules/arm2x86_easy.c:523`, with the guest code at its address. -/
def translateEasy (s : Instance) (armCode : Addr) (code : List Byte) (ans : Answers) :
    Option (Option Addr × Instance) :=
  if armCode = 0#64 ∨ code = [] then some (none, s)
  else do
    let (hit, s) ← s.tcacheLookup armCode
    if hit.isSome then return (hit, s)
    let (loaded, s) ← s.loadPersistent armCode ans
    if loaded.isSome then return (loaded, s)
    match s.codeHashLookup (codeHash code) with
    | some e => return (some e.x86Code, s)
    | none => s.translateNew armCode code ans

/-- `arm2x86_load_aot_module`, `modules/arm2x86_easy.c:1306`, for a file with a valid header:
`complete` tells whether it holds all of the code. -/
def loadAotModule (s : Instance) (baseAddr : Addr) (code : List Byte) (complete : Bool)
    (ans : Answers) : Option Instance :=
  match ans.buffer.place s.regions with
  | none => some s
  | some buf =>
    let s := s.occupy buf code
    if complete then do
      let s ← if baseAddr = 0#64 then some s
        else s.tcacheInsert baseAddr buf code.length false ans.entry
      return s.codeHashInsert (codeHash code) buf code.length ans.hashEntry
    else some (s.release buf)

/-- `arm2x86_invalidate_easy`: the whole cache is cleared. -/
def invalidateEasy (s : Instance) : Option Instance := do
  let (cache, fx) ← tcacheClear s.cache
  return { s with cache }.releaseAll (released fx)

/-- The code in the code table. -/
def hashedCodes (s : Instance) : List Addr := (s.codeHashTable.getD []).map CodeHashEntry.x86Code

/-- `arm2x86_destroy_easy`: the cache, the code table and the pool release what they hold. -/
def destroyEasy (s : Instance) : Option Instance := do
  let s ← s.invalidateEasy
  let s := { s with codeHashTable := none }.releaseAll (s.hashedCodes.filter (· ≠ 0#64))
  return { s with mempool := none }.releaseAll (s.mempool.getD [])

end Instance

end Arm2x86.Easy
