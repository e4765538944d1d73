import Arm2x86.Pcache.RoundTrip

/-!
# Recovery after a failed lookup

A lookup that finds no usable entry is followed by a translation and a store. The store refuses
to replace a file, and only one of the exits of `arm2x86_pcache_lookup` removes the file it turned
down: the one for guest code with another hash.
-/

/-!
## Integrity of persistent entries

The header of an entry names the address, the size of the guest code and a CRC of the
translated code, but `arm2x86_pcache_lookup` compares none of the three: it returns the body
of every file that passes the checks it does make.
-/

namespace Arm2x86.Pcache

/-- The header of an entry file names the address and the size looked up, and the code in the
file has the recorded CRC. -/
structure Intact (armAddr : Addr) (armCode : Buffer) (bytes : List Byte) : Prop where
  armAddr : (Header.decode bytes).armAddr = armAddr
  armCodeSize : (Header.decode bytes).armCodeSize.toNat = armCode.size
  x86CodeHash : computeHash (storedCode bytes) = (Header.decode bytes).x86CodeHash

/-- The integrity of a lookup: code is returned only from an entry file that is intact for the
arguments, and it is the code the recorded CRC is of. -/
def ReturnsIntact (env : Env) (c : Cache) (armAddr : Addr) (armCode : Buffer)
    (flags : BitVec 32) : Prop :=
  ∀ code size, (pcacheLookup env c armAddr armCode flags).1 = .ok (code, size) →
    ∃ file, c.dir[getEntryFilename armAddr]? = some file ∧
      (Header.decode file.bytes).armAddr = armAddr ∧
      (Header.decode file.bytes).armCodeSize.toNat = armCode.size ∧
      computeHash code = (Header.decode file.bytes).x86CodeHash

/-- The guest `ret` of the swapped entry. -/
def retCode : Buffer := ⟨[0xc0, 0x03, 0x5f, 0xd6], by decide⟩

/-- A directory in which the entry written for address 0x1000 has the name of 0x2000. -/
def Cache.swapped : Cache := { Cache.empty with
  dir := (∅ : Dir).insert (getEntryFilename 0x2000#64)
    ⟨(newHeader 7 0x1000#64 retCode ⟨[0xc3], by decide⟩ 0#32).encode ++ [0xc3], 7⟩ }

end Arm2x86.Pcache

namespace Arm2x86.Pcache

/-- No I/O error during a store. -/
structure Env.Writes (env : Env) : Prop where
  fopenTmp : env.fopenTmp = true
  fwriteHeader : env.fwriteHeader = true
  fwriteCode : env.fwriteCode = true
  rename : env.rename = true

/-- An entry file that a lookup removes: a valid header for guest code with another hash. -/
structure Stale (env : Env) (config : Config) (armAddr : Addr) (armCode : Buffer)
    (bytes : List Byte) : Prop where
  header : headerSize ≤ bytes.length
  valid : validateHeader (Header.decode bytes) = .ok
  verify : config.verifyHash = true
  armHash : computeHash armCode.bytes ≠ (Header.decode bytes).armCodeHash
  unlink : env.unlink (getEntryFilename armAddr) = true

/-- A store returns OK and the next lookup with the same arguments returns what it stored. -/
def Heals (env env' : Env) (c : Cache) (armAddr : Addr) (armCode x86Code : Buffer)
    (flags : BitVec 32) : Prop :=
  ∃ c', pcacheStore env c armAddr armCode x86Code flags = some (.ok, c') ∧
    (pcacheLookup env' c' armAddr armCode flags).1 = .ok (x86Code.bytes, x86Code.size)

variable {c : Cache} {armAddr : Addr} {armCode x86Code : Buffer} {flags : BitVec 32}

/-- What a failed lookup leaves: the sizes, and the entry file unless it was stale. -/
theorem pcacheLookup_failed {env : Env} {st : Status} (henabled : c.config.enabled = true)
    (hfail : (pcacheLookup env c armAddr armCode flags).1 = .error st) :
    (pcacheLookup env c armAddr armCode flags).2.config = c.config ∧
      (pcacheLookup env c armAddr armCode flags).2.totalSize = c.totalSize ∧
      ((pcacheLookup env c armAddr armCode flags).2.dir[getEntryFilename armAddr]? = none ↔
        ∀ file, c.dir[getEntryFilename armAddr]? = some file →
          Stale env c.config armAddr armCode file.bytes) := by
  revert hfail
  cases hfile : c.dir[getEntryFilename armAddr]? with
  | none =>
    intro _
    simp only [pcacheLookup, henabled, Bool.not_true, Bool.false_eq_true, if_false, hfile]
    refine ⟨rfl, rfl, fun _ file h ↦ ?_, fun _ ↦ hfile⟩
    cases h
  | some file =>
    have hkeep : (∀ c' : Cache, c'.dir = c.dir → ¬ Stale env c.config armAddr armCode file.bytes →
        (c'.dir[getEntryFilename armAddr]? = none ↔ ∀ file', some file = some file' →
          Stale env c.config armAddr armCode file'.bytes)) := by
      intro c' hdir hstale
      rw [hdir, hfile]
      refine ⟨fun h ↦ ?_, fun h ↦ absurd (h file rfl) hstale⟩
      cases h
    simp only [pcacheLookup, henabled, Bool.not_true, Bool.false_eq_true, if_false, hfile]
    by_cases hheader : file.bytes.length < headerSize
    · rw [if_pos hheader]
      exact fun _ ↦ ⟨rfl, rfl, hkeep _ rfl fun h ↦ absurd h.header (Nat.not_le.mpr hheader)⟩
    rw [if_neg hheader]
    cases hvalid : validateHeader (Header.decode file.bytes)
    case ok =>
      dsimp only
      by_cases hhash : c.config.verifyHash = true ∧
          computeHash armCode.bytes ≠ (Header.decode file.bytes).armCodeHash
      · rw [if_pos hhash]
        intro _
        unfold Cache.unlinkEntry
        by_cases hunlink : env.unlink (getEntryFilename armAddr) = true
        · have hstale : Stale env c.config armAddr armCode file.bytes :=
            ⟨Nat.not_lt.mp hheader, hvalid, hhash.1, hhash.2, hunlink⟩
          rw [if_pos hunlink]
          refine ⟨rfl, rfl, fun _ file' h ↦ Option.some.inj h ▸ hstale, fun _ ↦ ?_⟩
          change (c.dir.erase (getEntryFilename armAddr))[_]? = none
          rw [getElem?_dir_erase, if_pos rfl]
        · rw [if_neg hunlink]
          exact ⟨rfl, rfl, hkeep _ rfl fun h ↦ hunlink h.unlink⟩
      rw [if_neg hhash]
      have hfresh : ¬ Stale env c.config armAddr armCode file.bytes := fun h ↦
        hhash ⟨h.verify, h.armHash⟩
      split
      · exact fun _ ↦ ⟨rfl, rfl, hkeep _ rfl hfresh⟩
      split
      · exact fun _ ↦ ⟨rfl, rfl, hkeep _ rfl hfresh⟩
      split
      · exact fun _ ↦ ⟨rfl, rfl, hkeep _ rfl hfresh⟩
      · intro hok
        cases hok
    all_goals
      refine fun _ ↦ ⟨rfl, rfl, hkeep _ rfl fun h ↦ ?_⟩
      have := h.valid
      rw [hvalid] at this
      cases this

/-- A store into room that finds no entry file writes one. -/
theorem pcacheStore_absent {env : Env} (armCode : Buffer) (flags : BitVec 32) (henv : env.Writes)
    (henabled : c.config.enabled = true)
    (hsize : x86Code.size ≤ c.config.maxEntrySize) (hroom : c.overLimit x86Code = false)
    (hnone : c.dir[getEntryFilename armAddr]? = none) :
    ∃ c', pcacheStore env c armAddr armCode x86Code flags = some (.ok, c') := by
  simp only [pcacheStore, henabled, Bool.not_true, Bool.false_eq_true, if_false,
    if_neg (Nat.not_lt.mpr hsize), hroom, storeEntry, hnone, Option.isSome_none, henv.fopenTmp,
    henv.fwriteHeader, henv.fwriteCode, henv.rename]
  exact ⟨_, rfl⟩

/-- A store into room that finds an entry file refuses. -/
theorem pcacheStore_present {env : Env} {file : File} (henabled : c.config.enabled = true)
    (hsize : x86Code.size ≤ c.config.maxEntrySize) (hroom : c.overLimit x86Code = false)
    (hfile : c.dir[getEntryFilename armAddr]? = some file) :
    pcacheStore env c armAddr armCode x86Code flags = some (.alreadyExists, c) := by
  simp only [pcacheStore, henabled, Bool.not_true, Bool.false_eq_true, if_false,
    if_neg (Nat.not_lt.mpr hsize), hroom, storeEntry, hfile, Option.isSome_some, if_true]

/-- After a lookup that failed, a store within the limits and without I/O error is followed by a
lookup that returns the stored code, exactly if the cache is enabled and the address had no entry
file or one that the lookup removed. -/
theorem pcache_heals_iff (env env' env'' : Env) (c : Cache) (armAddr : Addr)
    (armCode x86Code : Buffer) (flags : BitVec 32) (st : Status)
    (hfail : (pcacheLookup env c armAddr armCode flags).1 = .error st)
    (hsize : x86Code.size ≤ c.config.maxEntrySize) (hroom : c.overLimit x86Code = false)
    (henv : env'.Writes) (hmalloc : env''.malloc x86Code.size = true) :
    Heals env' env'' (pcacheLookup env c armAddr armCode flags).2 armAddr armCode x86Code flags ↔
      c.config.enabled = true ∧ ∀ file, c.dir[getEntryFilename armAddr]? = some file →
        Stale env c.config armAddr armCode file.bytes := by
  by_cases henabled : c.config.enabled = true
  swap
  · -- a disabled cache ignores the store
    refine iff_of_false ?_ fun h ↦ henabled h.1
    rintro ⟨c', hstore, hlookup⟩
    have hsame : (pcacheLookup env c armAddr armCode flags).2 = c := by
      simp [pcacheLookup, henabled]
    rw [hsame] at hstore
    simp only [pcacheStore, henabled, Bool.not_false, if_true, Option.some.injEq,
      Prod.mk.injEq, true_and] at hstore
    subst hstore
    simp [pcacheLookup, henabled] at hlookup
  obtain ⟨hconfig, htotal, hdir⟩ := pcacheLookup_failed henabled hfail
  set c₁ := (pcacheLookup env c armAddr armCode flags).2 with hc₁
  have henabled₁ : c₁.config.enabled = true := by rw [hconfig, henabled]
  have hsize₁ : x86Code.size ≤ c₁.config.maxEntrySize := by
    rw [hconfig]
    exact hsize
  have hroom₁ : c₁.overLimit x86Code = false := by
    rw [Cache.overLimit, htotal, hconfig]
    exact hroom
  rw [and_iff_right henabled, ← hdir]
  cases hfile : c₁.dir[getEntryFilename armAddr]? with
  | none =>
    refine iff_of_true ?_ rfl
    obtain ⟨c', hstore⟩ := pcacheStore_absent armCode flags henv henabled₁ hsize₁ hroom₁ hfile
    exact ⟨c', hstore, pcacheLookup_stored (pcacheStore_stored henabled₁ hstore) env'' hmalloc⟩
  | some file =>
    refine iff_of_false ?_ (Option.some_ne_none file)
    rintro ⟨c', hstore, -⟩
    rw [pcacheStore_present henabled₁ hsize₁ hroom₁ hfile] at hstore
    cases hstore

theorem Env.granting_writes (now : Nat) : (Env.granting now).Writes := ⟨rfl, rfl, rfl, rfl⟩

/-- A `ret` looked up, stored and found in an empty directory. -/
theorem pcache_heals_empty :
    Heals (.granting 8) (.granting 9) (pcacheLookup (.granting 7) .empty 0x1000#64 retCode 0#32).2
      0x1000#64 retCode ⟨[0xc3], by decide⟩ 0#32 := by
  have hnone : Cache.empty.dir[getEntryFilename 0x1000#64]? = none :=
    Std.ExtTreeMap.getElem?_empty
  apply (pcache_heals_iff (.granting 7) (.granting 8) (.granting 9) .empty 0x1000#64 retCode
    ⟨[0xc3], by decide⟩ 0#32 .notFound ?_ (by decide) (by decide) (Env.granting_writes 8) rfl).mpr
  · refine ⟨rfl, fun file hfile ↦ ?_⟩
    rw [hnone] at hfile
    cases hfile
  · simp only [pcacheLookup, hnone]
    rfl

/-- A directory with an empty entry file for address 0x1000. -/
def Cache.truncated : Cache := { Cache.empty with
  dir := (∅ : Dir).insert (getEntryFilename 0x1000#64) ⟨[], 7⟩ }

/-- The lookup reports the file as corrupt and leaves it, and the store does not replace it. -/
theorem pcache_not_heals :
    (pcacheLookup (.granting 7) .truncated 0x1000#64 retCode 0#32).1 = .error .corrupt ∧
      (Buffer.mk [0xc3] (by decide)).size ≤ Cache.truncated.config.maxEntrySize ∧
      Cache.truncated.overLimit ⟨[0xc3], by decide⟩ = false ∧
      ¬ Heals (.granting 8) (.granting 9)
        (pcacheLookup (.granting 7) .truncated 0x1000#64 retCode 0#32).2 0x1000#64 retCode
        ⟨[0xc3], by decide⟩ 0#32 := by
  have hfile : Cache.truncated.dir[getEntryFilename 0x1000#64]? = some ⟨[], 7⟩ := by
    rw [Cache.truncated, getElem?_dir_insert, if_pos rfl]
  have hlookup : pcacheLookup (.granting 7) .truncated 0x1000#64 retCode 0#32 =
      (.error .corrupt, Cache.truncated.miss) := by
    simp only [pcacheLookup, hfile]
    rfl
  rw [hlookup]
  refine ⟨rfl, by decide, by decide, ?_⟩
  rintro ⟨c', hstore, -⟩
  have hrefused : pcacheStore (.granting 8) Cache.truncated.miss 0x1000#64 retCode
      ⟨[0xc3], by decide⟩ 0#32 = some (.alreadyExists, Cache.truncated.miss) :=
    pcacheStore_present rfl (by decide) (by decide) hfile
  cases hrefused.symm.trans hstore

end Arm2x86.Pcache
