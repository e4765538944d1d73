import Arm2x86.Pcache.Lookup

/-!
# Round trip through the persistent cache

What `arm2x86_pcache_store` has written stays in its file, and `arm2x86_pcache_lookup` reads it
back, as long as nothing but lookups of the same code and calls for other addresses happens
and no cleanup runs.
-/

namespace Arm2x86.Pcache

/-- The calls on a cache. -/
inductive Call where
  | lookup (env : Env) (armAddr : Addr) (armCode : Buffer) (flags : BitVec 32)
  | store (env : Env) (armAddr : Addr) (armCode x86Code : Buffer) (flags : BitVec 32)
  | invalidate (env : Env) (armAddr : Addr)

/-- The cache after a call. -/
def Call.exec (c : Cache) : Call → Option Cache
  | .lookup env armAddr armCode flags => some (pcacheLookup env c armAddr armCode flags).2
  | .store env armAddr armCode x86Code flags =>
    (pcacheStore env c armAddr armCode x86Code flags).map Prod.snd
  | .invalidate env armAddr => some (pcacheInvalidate env c armAddr).2

/-- The cache after a sequence of calls. -/
def runCalls : List Call → Cache → Option Cache
  | [], c => some c
  | call :: calls, c => (call.exec c).bind (runCalls calls)

/-- Whether a store of this code runs a cleanup. -/
def Cache.triggersCleanup (c : Cache) (x86Code : Buffer) : Bool :=
  c.config.enabled && decide (x86Code.size ≤ c.config.maxEntrySize) && c.overLimit x86Code &&
    c.config.autoCleanup

/-- A call that neither changes the code at `armAddr`, nor stores or invalidates its entry,
nor runs a cleanup. -/
def Call.Undisturbing (armAddr : Addr) (armCode : Buffer) (c : Cache) : Call → Prop
  | .lookup _ armAddr' armCode' _ => armAddr' = armAddr → armCode'.bytes = armCode.bytes
  | .store _ armAddr' _ x86Code _ => armAddr' ≠ armAddr ∧ c.triggersCleanup x86Code = false
  | .invalidate _ armAddr' => armAddr' ≠ armAddr

/-- A sequence of such calls, each in the state the calls before it leave. -/
def Undisturbed (armAddr : Addr) (armCode : Buffer) : List Call → Cache → Prop
  | [], _ => True
  | call :: calls, c => call.Undisturbing armAddr armCode c ∧
    ∀ c', call.exec c = some c' → Undisturbed armAddr armCode calls c'

/-- The entry file of `armAddr` is one that a store of this code has written. -/
def Stored (armAddr : Addr) (armCode x86Code : Buffer) (flags : BitVec 32) (c : Cache) : Prop :=
  c.config.enabled = true ∧ ∃ now atime, c.dir[getEntryFilename armAddr]? =
    some ⟨(newHeader now armAddr armCode x86Code flags).encode ++ x86Code.bytes, atime⟩

variable {armAddr : Addr} {armCode x86Code : Buffer} {flags : BitVec 32} {c : Cache}

/-- A header that a store has built passes its validation. -/
theorem validateHeader_newHeader (now : Nat) (armAddr : Addr) (armCode x86Code : Buffer)
    (flags : BitVec 32) : validateHeader (newHeader now armAddr armCode x86Code flags) = .ok := by
  have hmagic : (newHeader now armAddr armCode x86Code flags).magic = pcacheMagic := rfl
  have hversion : (newHeader now armAddr armCode x86Code flags).version = pcacheVersion := rfl
  have hchecksum : computeHeaderChecksum (newHeader now armAddr armCode x86Code flags) =
      (newHeader now armAddr armCode x86Code flags).checksum := rfl
  rw [validateHeader, if_neg (not_not.mpr hmagic), if_neg (not_not.mpr hversion),
    if_neg (not_not.mpr hchecksum)]

@[simp] theorem newHeader_armCodeHash (now : Nat) :
    (newHeader now armAddr armCode x86Code flags).armCodeHash = computeHash armCode.bytes := rfl

@[simp] theorem newHeader_flags (now : Nat) :
    (newHeader now armAddr armCode x86Code flags).flags = flags := rfl

/-- What a store has written passes the checks of a lookup with its flags up to the hash of the
guest code and the memory for the result. -/
theorem accepts_stored_iff (env : Env) (config : Config) (armCode' : Buffer) (now : Nat) :
    Accepts env config armCode' flags
        ((newHeader now armAddr armCode x86Code flags).encode ++ x86Code.bytes) ↔
      (config.verifyHash = true → computeHash armCode'.bytes = computeHash armCode.bytes) ∧
        env.malloc x86Code.size = true := by
  set header := newHeader now armAddr armCode x86Code flags with hheader
  have hdecode : Header.decode (header.encode ++ x86Code.bytes) = header :=
    decode_encode header x86Code.bytes
  have hbody : (header.encode ++ x86Code.bytes).drop headerSize = x86Code.bytes :=
    List.drop_left' (length_encode header)
  have hsize : header.x86CodeSize.toNat = x86Code.size := by
    rw [hheader]
    exact Nat.mod_eq_of_lt x86Code.length_lt
  constructor
  · intro h
    have harm := h.armHash
    have hmemory := h.memory
    rw [hdecode, hheader, newHeader_armCodeHash] at harm
    rw [hdecode, hsize] at hmemory
    exact ⟨harm, hmemory⟩
  · rintro ⟨harm, hmemory⟩
    refine ⟨?_, ?_, fun hverify ↦ ?_, ?_, ?_, ?_⟩
    · simp
    · rw [hdecode, hheader, validateHeader_newHeader]
    · rw [hdecode, hheader, newHeader_armCodeHash, harm hverify]
    · rw [hdecode, hheader, newHeader_flags]
    · rw [hdecode, hsize, hmemory]
    · rw [hdecode, hbody, hsize]
      exact Nat.le_refl _

/-- The code in what a store has written. -/
theorem storedCode_stored (now : Nat) (armAddr : Addr) (armCode x86Code : Buffer)
    (flags : BitVec 32) :
    storedCode ((newHeader now armAddr armCode x86Code flags).encode ++ x86Code.bytes) =
        x86Code.bytes ∧
      (Header.decode ((newHeader now armAddr armCode x86Code flags).encode ++
        x86Code.bytes)).x86CodeSize.toNat = x86Code.size := by
  have hsize : (newHeader now armAddr armCode x86Code flags).x86CodeSize.toNat = x86Code.size :=
    Nat.mod_eq_of_lt x86Code.length_lt
  constructor
  · rw [storedCode, decode_encode, List.drop_left' (length_encode _), hsize, Buffer.size,
      List.take_length]
  · rw [decode_encode, hsize]

/-- A lookup with the flags of the store finds what is stored exactly for guest code with the same
hash, or for any if hashes are not verified, and with memory for the result. -/
theorem pcacheLookup_stored_iff (h : Stored armAddr armCode x86Code flags c) (env : Env)
    (armCode' : Buffer) (r : List Byte × Nat) :
    (pcacheLookup env c armAddr armCode' flags).1 = .ok r ↔
      (c.config.verifyHash = true → computeHash armCode'.bytes = computeHash armCode.bytes) ∧
        env.malloc x86Code.size = true ∧ r = (x86Code.bytes, x86Code.size) := by
  obtain ⟨henabled, now, atime, hfile⟩ := h
  obtain ⟨hcode, hsize⟩ := storedCode_stored now armAddr armCode x86Code flags
  rw [pcacheLookup_ok_iff, hfile]
  constructor
  · rintro ⟨-, file, hsame, haccepts, hr⟩
    rw [Option.some.injEq] at hsame
    subst hsame
    dsimp only at haccepts hr
    rw [hcode, hsize] at hr
    obtain ⟨harm, hmemory⟩ := (accepts_stored_iff env c.config armCode' now).mp haccepts
    exact ⟨harm, hmemory, hr⟩
  · rintro ⟨harm, hmemory, hr⟩
    refine ⟨henabled, _, rfl, (accepts_stored_iff env c.config armCode' now).mpr ⟨harm, hmemory⟩, ?_⟩
    dsimp only
    rw [hcode, hsize, hr]

/-- A lookup of stored code with its flags returns that code. -/
theorem pcacheLookup_stored (h : Stored armAddr armCode x86Code flags c) (env : Env)
    (hmalloc : env.malloc x86Code.size = true) :
    (pcacheLookup env c armAddr armCode flags).1 = .ok (x86Code.bytes, x86Code.size) :=
  (pcacheLookup_stored_iff h env armCode _).mpr ⟨fun _ ↦ rfl, hmalloc, rfl⟩

/-- A lookup keeps what is stored, unless it is for the same address and other guest code. -/
theorem pcacheLookup_keeps_stored (h : Stored armAddr armCode x86Code flags c) (env : Env)
    (armAddr' : Addr) (armCode' : Buffer) (flags' : BitVec 32)
    (hhash : armAddr' = armAddr → computeHash armCode'.bytes = computeHash armCode.bytes) :
    Stored armAddr armCode x86Code flags (pcacheLookup env c armAddr' armCode' flags').2 := by
  obtain ⟨henabled, now, atime, hfile⟩ := h
  obtain ⟨hdir, hconfig⟩ := pcacheLookup_dir env c armAddr' armCode' flags'
    (getEntryFilename armAddr)
  refine ⟨by rw [hconfig, henabled], now, ?_⟩
  rcases hdir with hsame | ⟨hname, file, hfile', hother⟩
  · rw [hfile, Option.map_some, Option.map_eq_some_iff] at hsame
    obtain ⟨⟨bytes, atime'⟩, hfound, hbytes⟩ := hsame
    refine ⟨atime', ?_⟩
    rw [hfound]
    exact congrArg (fun b ↦ some (File.mk b atime')) hbytes
  · -- the looked-up code has the hash in the header
    rw [hfile] at hfile'
    obtain rfl := Option.some.inj hfile'
    rw [decode_encode, newHeader_armCodeHash] at hother
    exact absurd (hhash (getEntryFilename_inj hname).symm) hother

/-- The removal of a temporary file, even a failing one, leaves the other files alone. -/
theorem getElem?_unlinkTmp (env : Env) (c : Cache) (bytes : List Byte) {tmpfile name : String}
    (hname : tmpfile ≠ name) : (c.unlinkTmp env tmpfile bytes).dir[name]? = c.dir[name]? := by
  unfold Cache.unlinkTmp
  dsimp only
  split
  · rw [getElem?_dir_erase, if_neg hname]
  · rw [getElem?_dir_insert, if_neg hname]

/-- The files after the writing part of a store: its own new file, or no change. -/
theorem storeEntry_dir (env : Env) (c : Cache) (armAddr : Addr) (armCode x86Code : Buffer)
    (flags : BitVec 32) (armAddr' : Addr) :
    (storeEntry env c armAddr armCode x86Code flags).2.config = c.config ∧
    (storeEntry env c armAddr armCode x86Code flags).2.dir[getEntryFilename armAddr']? =
      if (storeEntry env c armAddr armCode x86Code flags).1 = .ok ∧ armAddr = armAddr' then
        some ⟨(newHeader env.now armAddr armCode x86Code flags).encode ++ x86Code.bytes, env.now⟩
      else c.dir[getEntryFilename armAddr']? := by
  have htmp : (c.dir.erase (tmpFilename armAddr))[getEntryFilename armAddr']? =
      c.dir[getEntryFilename armAddr']? := by
    rw [getElem?_dir_erase, if_neg (tmpFilename_ne armAddr armAddr')]
  have hunlink (bytes : List Byte) :
      (c.unlinkTmp env (tmpFilename armAddr) bytes).dir[getEntryFilename armAddr']? =
        c.dir[getEntryFilename armAddr']? :=
    getElem?_unlinkTmp env c bytes (tmpFilename_ne armAddr armAddr')
  unfold storeEntry
  dsimp only
  split
  · exact ⟨rfl, by simp⟩
  split
  · exact ⟨rfl, by simp⟩
  split
  · exact ⟨rfl, by simpa using hunlink _⟩
  split
  · exact ⟨rfl, by simpa using hunlink _⟩
  split
  · exact ⟨rfl, by simpa using hunlink _⟩
  · refine ⟨rfl, ?_⟩
    change ((c.dir.erase (tmpFilename armAddr)).insert (getEntryFilename armAddr) _)[_]? = _
    rw [getElem?_dir_insert]
    by_cases haddr : armAddr = armAddr'
    · simp [haddr]
    · have hname : getEntryFilename armAddr ≠ getEntryFilename armAddr' := fun h ↦
        haddr (getEntryFilename_inj h)
      rw [if_neg hname, htmp, if_neg fun h ↦ haddr h.2]

/-- A cleanup keeps the configuration. -/
theorem pcacheCleanup_config {env : Env} {targetSize : Nat} {removed : Except Status Nat}
    {c' : Cache} (h : pcacheCleanup env c targetSize = some (removed, c')) :
    c'.config = c.config := by
  simp only [pcacheCleanup] at h
  generalize (if targetSize = 0 then c.config.maxSizeBytes / 2 else targetSize) = target at h
  split at h
  · obtain ⟨-, rfl⟩ := Prod.mk.inj (Option.some.inj h)
    rfl
  · split at h
    · obtain ⟨-, rfl⟩ := Prod.mk.inj (Option.some.inj h)
      rfl
    · split at h
      · cases h
      · obtain ⟨-, rfl⟩ := Prod.mk.inj (Option.some.inj h)
        rfl

/-- A store that succeeds on an enabled cache leaves its entry file. -/
theorem pcacheStore_stored {env : Env} {c' : Cache} (henabled : c.config.enabled = true)
    (h : pcacheStore env c armAddr armCode x86Code flags = some (.ok, c')) :
    Stored armAddr armCode x86Code flags c' := by
  have hentry : ∀ c₁ : Cache, c₁.config.enabled = true →
      storeEntry env c₁ armAddr armCode x86Code flags = (.ok, c') →
      Stored armAddr armCode x86Code flags c' := by
    intro c₁ h₁ hs
    obtain ⟨hconfig, hdir⟩ := storeEntry_dir env c₁ armAddr armCode x86Code flags armAddr
    rw [hs] at hconfig hdir
    refine ⟨by rw [hconfig, h₁], env.now, env.now, ?_⟩
    rw [hdir, if_pos ⟨rfl, rfl⟩]
  simp only [pcacheStore, henabled, Bool.not_true, Bool.false_eq_true, if_false] at h
  split at h
  · simp at h
  split at h
  · split at h
    · obtain ⟨⟨removed, c₁⟩, hclean, hs⟩ := Option.bind_eq_some_iff.mp h
      refine hentry c₁ ?_ (Option.some.inj hs)
      rw [pcacheCleanup_config hclean, henabled]
    · simp at h
  · exact hentry c henabled (Option.some.inj h)

/-- An invalidation leaves the other files alone. -/
theorem pcacheInvalidate_dir (env : Env) (c : Cache) {armAddr : Addr} {name : String}
    (hname : getEntryFilename armAddr ≠ name) :
    (pcacheInvalidate env c armAddr).2.config = c.config ∧
      (pcacheInvalidate env c armAddr).2.dir[name]? = c.dir[name]? := by
  cases hfile : c.dir[getEntryFilename armAddr]? with
  | none => simp only [pcacheInvalidate, hfile, and_self]
  | some file =>
    simp only [pcacheInvalidate, hfile]
    by_cases hunlink : env.unlink (getEntryFilename armAddr) = true
    · simp only [hunlink, if_true, getElem?_dir_erase, if_neg hname, and_self]
    · simp only [hunlink, Bool.false_eq_true, if_false, and_self]

/-- An undisturbing call returns and keeps the entry file. -/
theorem Call.Undisturbing.stored {call : Call} (hcall : call.Undisturbing armAddr armCode c)
    (h : Stored armAddr armCode x86Code flags c) :
    ∃ c', call.exec c = some c' ∧ Stored armAddr armCode x86Code flags c' := by
  obtain ⟨henabled, now, atime, hfile⟩ := h
  cases call with
  | lookup env armAddr' armCode' flags' =>
    exact ⟨_, rfl, pcacheLookup_keeps_stored ⟨henabled, now, atime, hfile⟩ env armAddr' armCode'
      flags' fun haddr ↦ congrArg computeHash (hcall haddr)⟩
  | store env armAddr' armCode' x86Code' flags' =>
    obtain ⟨hne, hclean⟩ := hcall
    have hentry : ∃ c', some (storeEntry env c armAddr' armCode' x86Code' flags').2 = some c' ∧
        Stored armAddr armCode x86Code flags c' := by
      obtain ⟨hconfig, hdir⟩ := storeEntry_dir env c armAddr' armCode' x86Code' flags' armAddr
      refine ⟨_, rfl, by rw [hconfig, henabled], now, atime, ?_⟩
      rw [hdir, if_neg fun h ↦ hne h.2, hfile]
    simp only [Call.exec, pcacheStore, henabled, Bool.not_true, Bool.false_eq_true, if_false]
    by_cases hsize : x86Code'.size > c.config.maxEntrySize
    · rw [if_pos hsize]
      exact ⟨c, rfl, henabled, now, atime, hfile⟩
    rw [if_neg hsize]
    by_cases hover : c.overLimit x86Code' = true
    · -- over the limit without cleanup the store is refused
      have hauto : c.config.autoCleanup = false := by
        simpa [Cache.triggersCleanup, henabled, Nat.not_lt.mp hsize, hover] using hclean
      rw [if_pos hover, hauto]
      exact ⟨c, rfl, henabled, now, atime, hfile⟩
    · rw [if_neg hover]
      exact hentry
  | invalidate env armAddr' =>
    refine ⟨_, rfl, ?_⟩
    have hname : getEntryFilename armAddr' ≠ getEntryFilename armAddr := fun h ↦
      hcall (getEntryFilename_inj h)
    obtain ⟨hconfig, hdir⟩ := pcacheInvalidate_dir env c hname
    exact ⟨by rw [hconfig, henabled], now, atime, by rw [hdir, hfile]⟩

/-- Undisturbing calls return and keep the entry file. -/
theorem runCalls_stored (calls : List Call) (h : Stored armAddr armCode x86Code flags c)
    (hcalls : Undisturbed armAddr armCode calls c) :
    ∃ c', runCalls calls c = some c' ∧ Stored armAddr armCode x86Code flags c' := by
  induction calls generalizing c with
  | nil => exact ⟨c, rfl, h⟩
  | cons call calls ih =>
    obtain ⟨c₁, hexec, h₁⟩ := hcalls.1.stored h
    obtain ⟨c', hrun, h'⟩ := ih h₁ (hcalls.2 c₁ hexec)
    exact ⟨c', by rw [runCalls, hexec, Option.bind_some, hrun], h'⟩

/-- What a successful store has written is what a later lookup with the same arguments
returns, after any undisturbing calls. -/
theorem pcache_store_lookup (env : Env) (c c₁ : Cache) (armAddr : Addr)
    (armCode x86Code : Buffer) (flags : BitVec 32) (henabled : c.config.enabled = true)
    (hstore : pcacheStore env c armAddr armCode x86Code flags = some (.ok, c₁))
    (calls : List Call) (hcalls : Undisturbed armAddr armCode calls c₁) :
    ∃ c₂, runCalls calls c₁ = some c₂ ∧
      ∀ env' : Env, env'.malloc x86Code.size = true →
        (pcacheLookup env' c₂ armAddr armCode flags).1 = .ok (x86Code.bytes, x86Code.size) := by
  obtain ⟨c₂, hrun, h₂⟩ := runCalls_stored calls (pcacheStore_stored henabled hstore) hcalls
  exact ⟨c₂, hrun, fun env' hmalloc ↦ pcacheLookup_stored h₂ env' hmalloc⟩

/-- An environment in which every request succeeds. -/
def Env.granting (now : Nat) : Env where
  now := now
  malloc := fun _ ↦ true
  fopenTmp := true
  fwriteHeader := true
  fwriteCode := true
  rename := true
  leftover := []
  unlink := fun _ ↦ true
  opendir := true
  readdir := fun dir ↦ dir.keys
  readdir_nodup := fun dir ↦ Std.ExtTreeMap.nodup_keys
  mem_readdir := fun dir name _ ↦ by
    rw [Std.ExtTreeMap.mem_keys, Std.ExtTreeMap.isSome_getElem?_iff_mem]

/-- A cache with the default configuration over an empty directory. -/
def Cache.empty : Cache where
  config := ⟨500 * 1024 * 1024, 10 * 1024 * 1024, true, true, true, true⟩
  totalSize := 0
  stats := ⟨0, 0, 0, 0, 0, 0, 0⟩
  dir := ∅

/-- A `ret` stored for one address, and a lookup and an invalidation of another. -/
theorem pcache_store_lookup_ret :
    ∃ c₁ c₂, pcacheStore (.granting 7) .empty 0x1000#64 ⟨[0xc0, 0x03, 0x5f, 0xd6], by decide⟩
        ⟨[0xc3], by decide⟩ 0#32 = some (.ok, c₁) ∧
      runCalls [.lookup (.granting 8) 0x2000#64 ⟨[0x00], by decide⟩ 1#32,
        .invalidate (.granting 8) 0x2000#64] c₁ = some c₂ ∧
      (pcacheLookup (.granting 9) c₂ 0x1000#64 ⟨[0xc0, 0x03, 0x5f, 0xd6], by decide⟩ 0#32).1 =
        .ok ([0xc3], 1) := by
  have hstore : ∃ c₁, pcacheStore (.granting 7) .empty 0x1000#64
      ⟨[0xc0, 0x03, 0x5f, 0xd6], by decide⟩ ⟨[0xc3], by decide⟩ 0#32 = some (.ok, c₁) := by
    refine ⟨(storeEntry (.granting 7) .empty 0x1000#64 ⟨[0xc0, 0x03, 0x5f, 0xd6], by decide⟩
      ⟨[0xc3], by decide⟩ 0#32).2, ?_⟩
    simp [pcacheStore, storeEntry, Cache.empty, Env.granting, Cache.overLimit, Buffer.size,
      sizeAdd]
  obtain ⟨c₁, hc₁⟩ := hstore
  obtain ⟨c₂, hrun, hlook⟩ := pcache_store_lookup (.granting 7) .empty c₁ 0x1000#64 _ _ 0#32 rfl
    hc₁ [.lookup (.granting 8) 0x2000#64 ⟨[0x00], by decide⟩ 1#32, .invalidate (.granting 8) 0x2000#64]
    ⟨fun h ↦ absurd h (by decide),
      fun _ _ ↦ ⟨(by decide : (0x2000#64 : Addr) ≠ 0x1000#64), fun _ _ ↦ trivial⟩⟩
  exact ⟨c₁, c₂, hc₁, hrun, hlook (.granting 9) rfl⟩

end Arm2x86.Pcache
