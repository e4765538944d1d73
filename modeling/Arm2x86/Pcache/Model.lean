import Std.Data.ExtTreeMap
import Arm2x86.Pcache.Format

/-!
# The persistent cache

`modules/arm2x86_pcache.c` over a file system that maps the names in the entries directory to
files, with atomic rename. What the operating system decides (the time, whether a write, a
rename or the removal of a file succeeds, whether memory is available, the order of a directory
listing) is an argument of each call. Null arguments are excluded by the types, and the statistics
callback is left out.
-/

namespace Arm2x86.Pcache

/-- The error codes of `include/arm2x86_pcache.h:46` that the code returns. -/
inductive Status where
  | ok
  | invalidArg
  | noMemory
  | io
  | corrupt
  | versionMismatch
  | hashMismatch
  | notFound
  | alreadyExists
  | full
deriving DecidableEq, Repr

/-- A file of the entries directory. -/
structure File where
  bytes : List Byte
  atime : Nat

/-- The entries directory. -/
abbrev Dir := Std.ExtTreeMap String File

/-- The fields of `arm2x86_pcache_config_t` that the code reads. -/
structure Config where
  maxSizeBytes : Nat
  maxEntrySize : Nat
  enabled : Bool
  verifyHash : Bool
  autoCleanup : Bool
  loadOnStartup : Bool

/-- `arm2x86_pcache_stats_t`; `total_size` is never written. -/
structure Stats where
  totalEntries : Nat
  hits : Nat
  misses : Nat
  stores : Nat
  evictions : Nat
  hitRate : Float
  lastCleanupTime : Nat

/-- `struct arm2x86_persistent_cache` with the directory it works on; `totalSize` is
`index.total_size`. -/
structure Cache where
  config : Config
  totalSize : Nat
  stats : Stats
  dir : Dir

/-- What the system answers during a call. -/
structure Env where
  /-- `time(NULL)` -/
  now : Nat
  /-- whether `malloc` of a size succeeds -/
  malloc : Nat → Bool
  /-- whether the temporary file can be opened -/
  fopenTmp : Bool
  /-- whether the header is written -/
  fwriteHeader : Bool
  /-- whether the code is written -/
  fwriteCode : Bool
  /-- whether the temporary file is renamed -/
  rename : Bool
  /-- what a temporary file holds after a failed write -/
  leftover : List Byte
  /-- whether a file can be unlinked -/
  unlink : String → Bool
  /-- whether the entries directory can be opened for reading -/
  opendir : Bool
  /-- the names `readdir` returns, in order: every file once -/
  readdir : Dir → List String
  readdir_nodup : ∀ dir, (readdir dir).Nodup
  mem_readdir : ∀ dir name, name.toList.head? ≠ some '.' →
    (name ∈ readdir dir ↔ dir[name]?.isSome)

/-- The count of a miss. -/
def Cache.miss (c : Cache) : Cache :=
  { c with stats := { c.stats with misses := sizeAdd c.stats.misses 1 } }

/-- `unlink` of a temporary file with these bytes. -/
def Cache.unlinkTmp (c : Cache) (env : Env) (name : String) (bytes : List Byte) : Cache :=
  { c with dir := if env.unlink name then c.dir.erase name else c.dir.insert name ⟨bytes, env.now⟩ }

/-- `unlink` of an entry file. -/
def Cache.unlinkEntry (c : Cache) (env : Env) (name : String) : Cache :=
  if env.unlink name then { c with dir := c.dir.erase name } else c

/-- `validate_header`, `modules/arm2x86_pcache.c:171`. -/
def validateHeader (h : Header) : Status :=
  if h.magic ≠ pcacheMagic then .corrupt
  else if h.version ≠ pcacheVersion then .versionMismatch
  else if computeHeaderChecksum h ≠ h.checksum then .corrupt
  else .ok

/-- The statistics and the access time after a hit, `modules/arm2x86_pcache.c:367`. -/
def Cache.hit (c : Cache) (name : String) (file : File) (now : Nat) : Cache :=
  let hits := sizeAdd c.stats.hits 1
  let total := sizeAdd hits c.stats.misses
  { c with
    dir := c.dir.insert name { file with atime := now }
    stats := { c.stats with
      hits := hits
      hitRate := (UInt64.ofNat hits).toFloat / (UInt64.ofNat total).toFloat * 100.0 } }

/-- `arm2x86_pcache_lookup`, `modules/arm2x86_pcache.c:292`: the code and its size, or an error. -/
def pcacheLookup (env : Env) (c : Cache) (armAddr : Addr) (armCode : Buffer)
    (flags : BitVec 32) : Except Status (List Byte × Nat) × Cache :=
  if !c.config.enabled then (.error .notFound, c)
  else
    let filename := getEntryFilename armAddr
    match c.dir[filename]? with
    | none => (.error .notFound, c.miss)
    | some file =>
      if file.bytes.length < headerSize then (.error .corrupt, c.miss)
      else
        let header := Header.decode file.bytes
        let body := file.bytes.drop headerSize
        match validateHeader header with
        | .ok =>
          if c.config.verifyHash ∧ computeHash armCode.bytes ≠ header.armCodeHash then
            (.error .hashMismatch, c.miss.unlinkEntry env filename)
          else if header.flags ≠ flags then (.error .notFound, c.miss)
          else if !env.malloc header.x86CodeSize.toNat then (.error .noMemory, c)
          else if body.length < header.x86CodeSize.toNat then (.error .corrupt, c)
          else
            (.ok (body.take header.x86CodeSize.toNat, header.x86CodeSize.toNat),
              c.hit filename file env.now)
        | st => (.error st, c.miss)

/-- The names `readdir` loops keep: not hidden, and with `.jtx` in them. -/
def isEntryName (name : String) : Bool :=
  name.toList.head? ≠ some '.' &&
    name.toList.tails.any (List.isPrefixOf ['.', 'j', 't', 'x'])

/-- `struct entry_info` of `arm2x86_pcache_cleanup`. -/
structure EntryInfo where
  name : String
  atime : Nat
  size : Nat

/-- The entries a directory listing yields. -/
def listEntries (dir : Dir) (names : List String) : List EntryInfo :=
  (names.filter isEntryName).filterMap fun name ↦
    dir[name]?.map fun file ↦ ⟨name, file.atime, file.bytes.length⟩

/-- One round of the exchange sort: the oldest entry ends up in front. -/
def exchangeRound (x : EntryInfo) : List EntryInfo → EntryInfo × List EntryInfo
  | [] => (x, [])
  | y :: ys =>
    if x.atime > y.atime then
      let (z, zs) := exchangeRound y ys
      (z, x :: zs)
    else
      let (z, zs) := exchangeRound x ys
      (z, y :: zs)

/-- The sort by access time, `modules/arm2x86_pcache.c:554`. -/
def exchangeSort : Nat → List EntryInfo → List EntryInfo
  | 0, xs => xs
  | _ + 1, [] => []
  | n + 1, x :: xs =>
    let (z, zs) := exchangeRound x xs
    z :: exchangeSort n zs

/-- The removal of the oldest entries, `modules/arm2x86_pcache.c:565`. -/
def removeOldest (env : Env) (targetSize : Nat) :
    List EntryInfo → Nat × Nat × Dir → Nat × Nat × Dir
  | [], s => s
  | e :: es, (currentSize, removed, dir) =>
    if currentSize > targetSize then
      if dir[e.name]?.isSome && env.unlink e.name then
        removeOldest env targetSize es (sizeSub currentSize e.size, removed + 1, dir.erase e.name)
      else removeOldest env targetSize es (currentSize, removed, dir)
    else (currentSize, removed, dir)

/-- `sizeof(struct entry_info)`. -/
def entryInfoSize : Nat := 4096 + 8 + 8

/-- Whether the table of 1000 entries takes `n` of them. Its allocation is not checked. -/
def tableHolds (env : Env) (n : Nat) : Bool :=
  decide (n = 0) || env.malloc (1000 * entryInfoSize) && decide (n ≤ 1000)

/-- `arm2x86_pcache_cleanup`, `modules/arm2x86_pcache.c:512`: the number of entries removed, or an
error. There is no result when the table of entries is missing or overrun. -/
def pcacheCleanup (env : Env) (c : Cache) (targetSize : Nat) : Option (Except Status Nat × Cache) :=
  let targetSize := if targetSize = 0 then c.config.maxSizeBytes / 2 else targetSize
  if c.totalSize ≤ targetSize then some (.ok 0, c)
  else if !env.opendir then some (.error .io, c)
  else
    let entries := listEntries c.dir (env.readdir c.dir)
    if !tableHolds env entries.length then none
    else
      let (currentSize, removed, dir) :=
        removeOldest env targetSize (exchangeSort entries.length entries) (c.totalSize, 0, c.dir)
      some (.ok removed, { c with
        totalSize := currentSize
        dir := dir
        stats := { c.stats with
          totalEntries := sizeSub c.stats.totalEntries removed
          evictions := sizeAdd c.stats.evictions removed
          lastCleanupTime := env.now } })

/-- The header `arm2x86_pcache_store` builds, `modules/arm2x86_pcache.c:444`. -/
def newHeader (now : Nat) (armAddr : Addr) (armCode x86Code : Buffer) (flags : BitVec 32) :
    Header :=
  let header : Header :=
    { magic := pcacheMagic
      version := pcacheVersion
      armAddr := armAddr
      armCodeHash := computeHash armCode.bytes
      x86CodeHash := computeHash x86Code.bytes
      armCodeSize := .ofNat 64 armCode.size
      x86CodeSize := .ofNat 64 x86Code.size
      compressedSize := 0
      timestamp := .ofNat 64 now
      accessCount := 1
      lastAccessTime := .ofNat 64 now
      flags := flags
      architecture := 64
      compression := 0
      reserved := 0
      checksum := 0 }
  { header with checksum := computeHeaderChecksum header }

/-- Whether a store finds the cache over its limit, `modules/arm2x86_pcache.c:414`. -/
def Cache.overLimit (c : Cache) (x86Code : Buffer) : Bool :=
  sizeAdd c.totalSize x86Code.size > c.config.maxSizeBytes

/-- The part of `arm2x86_pcache_store` after the size checks, `modules/arm2x86_pcache.c:422`. -/
def storeEntry (env : Env) (c : Cache) (armAddr : Addr) (armCode x86Code : Buffer)
    (flags : BitVec 32) : Status × Cache :=
  let filename := getEntryFilename armAddr
  let tmpfile := tmpFilename armAddr
  if c.dir[filename]?.isSome then (.alreadyExists, c)
  else if !env.fopenTmp then (.io, c)
  else
    let header := newHeader env.now armAddr armCode x86Code flags
    let file : File := ⟨header.encode ++ x86Code.bytes, env.now⟩
    if !env.fwriteHeader then (.io, c.unlinkTmp env tmpfile env.leftover)
    else if !env.fwriteCode then (.io, c.unlinkTmp env tmpfile env.leftover)
    else if !env.rename then (.io, c.unlinkTmp env tmpfile file.bytes)
    else
      (.ok, { c with
        dir := (c.dir.erase tmpfile).insert filename file
        totalSize := sizeAdd c.totalSize (headerSize + x86Code.size)
        stats := { c.stats with
          totalEntries := sizeAdd c.stats.totalEntries 1
          stores := sizeAdd c.stats.stores 1 } })

/-- `arm2x86_pcache_store`, `modules/arm2x86_pcache.c:395`. -/
def pcacheStore (env : Env) (c : Cache) (armAddr : Addr) (armCode x86Code : Buffer)
    (flags : BitVec 32) : Option (Status × Cache) :=
  if !c.config.enabled then some (.ok, c)
  else if x86Code.size > c.config.maxEntrySize then some (.invalidArg, c)
  else if c.overLimit x86Code then
    if c.config.autoCleanup then do
      let (_, c) ← pcacheCleanup env c (c.config.maxSizeBytes / 2)
      return storeEntry env c armAddr armCode x86Code flags
    else some (.full, c)
  else some (storeEntry env c armAddr armCode x86Code flags)

/-- `arm2x86_pcache_invalidate`, `modules/arm2x86_pcache.c:620`. -/
def pcacheInvalidate (env : Env) (c : Cache) (armAddr : Addr) : Status × Cache :=
  let filename := getEntryFilename armAddr
  match c.dir[filename]? with
  | none => (.notFound, c)
  | some file =>
    let c := { c with
      totalSize := sizeSub c.totalSize file.bytes.length
      stats := { c.stats with totalEntries := sizeSub c.stats.totalEntries 1 } }
    if env.unlink filename then (.ok, { c with dir := c.dir.erase filename })
    else (.notFound, c)

/-- `arm2x86_pcache_rebuild_index`, `modules/arm2x86_pcache.c:588`: the counters start from what
they are. -/
def pcacheRebuildIndex (env : Env) (c : Cache) : Status × Cache :=
  if !env.opendir then (.io, c)
  else
    let entries := listEntries c.dir (env.readdir c.dir)
    (.ok, { c with
      totalSize := entries.foldl (fun total e ↦ sizeAdd total e.size) c.totalSize
      stats := { c.stats with
        totalEntries := entries.foldl (fun n _ ↦ sizeAdd n 1) c.stats.totalEntries } })

/-- `arm2x86_pcache_invalidate_all`, `modules/arm2x86_pcache.c:645`. -/
def pcacheInvalidateAll (env : Env) (c : Cache) : Status × Cache :=
  if !env.opendir then (.io, c)
  else
    let names := (env.readdir c.dir).filter fun name ↦ name.toList.head? ≠ some '.'
    (.ok, { c with
      dir := names.foldl (fun dir name ↦ if env.unlink name then dir.erase name else dir) c.dir
      totalSize := 0
      stats := { c.stats with totalEntries := 0 } })

/-- The cache of `arm2x86_pcache_create` before it looks at the directory. -/
def newCache (config : Config) (dir : Dir) : Cache where
  config := config
  totalSize := 0
  stats := ⟨0, 0, 0, 0, 0, 0, 0⟩
  dir := dir

/-- `arm2x86_pcache_create`, `modules/arm2x86_pcache.c:188`, over an existing directory; `env` and
`env'` answer its two passes over the directory. -/
def pcacheCreate (env env' : Env) (config : Config) (dir : Dir) : Option Cache :=
  let c := newCache config dir
  let c := if config.loadOnStartup then (pcacheRebuildIndex env c).2 else c
  if config.autoCleanup then (pcacheCleanup env' c (config.maxSizeBytes / 2)).map Prod.snd
  else some c

end Arm2x86.Pcache
