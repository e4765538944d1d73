import Arm2x86.Pcache.Eviction

/-!
# Admission of new entries

`arm2x86_pcache_store` (`modules/arm2x86_pcache.c:395`) makes room before it looks whether it can
store at all, and it makes room for the code alone: the counter then grows by the header, too.
-/

namespace Arm2x86.Pcache

open Shedding

/-- The entries a store evicts. -/
def storeEvictions (env : Env) (c : Cache) (x86Code : Buffer) : List EntryInfo :=
  if c.triggersCleanup x86Code && env.opendir then
    evictions env c.dir (cleanupTarget c (c.config.maxSizeBytes / 2)) c.totalSize
  else []

/-- A store gets past the size checks and returns from its cleanup. -/
structure Admits (env : Env) (c : Cache) (x86Code : Buffer) : Prop where
  enabled : c.config.enabled = true
  size : x86Code.size ≤ c.config.maxEntrySize
  room : c.overLimit x86Code = true →
    c.config.autoCleanup = true ∧ CleanupFits env c (c.config.maxSizeBytes / 2)

/-- The address has no entry file when its store comes to it. -/
def Free (env : Env) (c : Cache) (armAddr : Addr) (x86Code : Buffer) : Prop :=
  c.dir[getEntryFilename armAddr]?.isSome = true →
    getEntryFilename armAddr ∈ (storeEvictions env c x86Code).map EntryInfo.name

variable {env : Env} {c c' : Cache} {armAddr : Addr} {armCode x86Code : Buffer}
  {flags : BitVec 32} {st : Status}

theorem storeEvictions_sublist (env : Env) (c : Cache) (x86Code : Buffer) :
    (storeEvictions env c x86Code).Sublist (accessOrder env c.dir) := by
  unfold storeEvictions
  split
  · exact (shed_isPrefix _ _ _ _).sublist.trans List.filter_sublist
  · exact List.nil_sublist _

/-- The cleanup of a store leaves what its evictions leave. -/
theorem pcacheCleanup_store (hfits : CleanupFits env c (c.config.maxSizeBytes / 2))
    (htriggers : c.triggersCleanup x86Code = true) :
    ∃ r c₁, pcacheCleanup env c (c.config.maxSizeBytes / 2) = some (r, c₁) ∧
      c₁.config = c.config ∧ c₁.dir = without c.dir (storeEvictions env c x86Code) ∧
      c₁.totalSize =
        (storeEvictions env c x86Code).foldl (fun t e ↦ sizeSub t e.size) c.totalSize := by
  rw [pcacheCleanup_eq]
  unfold storeEvictions
  rw [htriggers, Bool.true_and]
  by_cases hle : c.totalSize ≤ cleanupTarget c (c.config.maxSizeBytes / 2)
  · rw [if_pos hle, evictions, evictedOf, shed_of_le hle, ite_self]
    exact ⟨_, c, rfl, rfl, rfl, rfl⟩
  rw [if_neg hle]
  cases hopen : env.opendir with
  | false => exact ⟨_, c, rfl, rfl, rfl, rfl⟩
  | true =>
    have htable : tableHolds env (diskEntries c.dir) = true := hfits (Nat.lt_of_not_le hle) hopen
    rw [htable]
    exact ⟨_, _, rfl, rfl, rfl, rfl⟩

/-- An admitted store goes on with what its evictions leave. -/
theorem Admits.pcacheStore_eq (h : Admits env c x86Code) (armAddr : Addr) (armCode : Buffer)
    (flags : BitVec 32) :
    ∃ c₁ : Cache, c₁.config = c.config ∧
      c₁.dir = without c.dir (storeEvictions env c x86Code) ∧
      c₁.totalSize =
        (storeEvictions env c x86Code).foldl (fun t e ↦ sizeSub t e.size) c.totalSize ∧
      pcacheStore env c armAddr armCode x86Code flags =
        some (storeEntry env c₁ armAddr armCode x86Code flags) := by
  rw [pcacheStore, h.enabled, if_neg (by simp), if_neg (Nat.not_lt.mpr h.size)]
  by_cases hover : c.overLimit x86Code = true
  · obtain ⟨hauto, hfits⟩ := h.room hover
    have htriggers : c.triggersCleanup x86Code = true := by
      simp [Cache.triggersCleanup, h.enabled, h.size, hover, hauto]
    obtain ⟨r, c₁, hrun, hconfig, hdir, htotal⟩ := pcacheCleanup_store hfits htriggers
    refine ⟨c₁, hconfig, hdir, htotal, ?_⟩
    rw [if_pos hover, if_pos hauto, hrun]
    rfl
  · have hnone : storeEvictions env c x86Code = [] := by
      rw [storeEvictions, Cache.triggersCleanup, Bool.eq_false_iff.mpr hover]
      simp
    refine ⟨c, rfl, ?_, ?_, if_neg hover⟩
    · rw [hnone]
      rfl
    · rw [hnone]
      rfl

/-- A store that is not admitted changes nothing if it returns, and returns OK only if the cache is
disabled. -/
theorem pcacheStore_not_admitted (h : ¬ Admits env c x86Code)
    (hstore : pcacheStore env c armAddr armCode x86Code flags = some (st, c')) :
    c' = c ∧ (c.config.enabled = true → st ≠ .ok) := by
  rw [pcacheStore] at hstore
  split at hstore
  · next henabled =>
    obtain ⟨-, rfl⟩ := Prod.mk.inj (Option.some.inj hstore)
    exact ⟨rfl, fun hon ↦ by simp [hon] at henabled⟩
  next henabled =>
  split at hstore
  · obtain ⟨rfl, rfl⟩ := Prod.mk.inj (Option.some.inj hstore)
    exact ⟨rfl, fun _ ↦ by simp⟩
  next hsize =>
  have henabled' : c.config.enabled = true := by simpa using henabled
  split at hstore
  · next hover =>
    split at hstore
    · next hauto =>
      have hfits : ¬ CleanupFits env c (c.config.maxSizeBytes / 2) := fun hfits ↦
        h ⟨henabled', Nat.not_lt.mp hsize, fun _ ↦ ⟨hauto, hfits⟩⟩
      have hnone : pcacheCleanup env c (c.config.maxSizeBytes / 2) = none := by
        rw [CleanupFits, Classical.not_imp, Classical.not_imp] at hfits
        obtain ⟨hlt, hopen, htable⟩ := hfits
        have hmore : ¬ c.totalSize ≤ cleanupTarget c (c.config.maxSizeBytes / 2) :=
          Nat.not_le.mpr hlt
        rw [pcacheCleanup_eq, if_neg hmore, hopen, Bool.eq_false_iff.mpr htable]
        rfl
      rw [hnone] at hstore
      cases hstore
    · obtain ⟨rfl, rfl⟩ := Prod.mk.inj (Option.some.inj hstore)
      exact ⟨rfl, fun _ ↦ by simp⟩
  · next hover =>
    exact absurd ⟨henabled', Nat.not_lt.mp hsize, fun ho ↦ absurd ho hover⟩ h

theorem pcacheStore_config
    (hstore : pcacheStore env c armAddr armCode x86Code flags = some (st, c')) :
    c'.config = c.config := by
  by_cases h : Admits env c x86Code
  · obtain ⟨c₁, hconfig, -, -, heq⟩ := h.pcacheStore_eq armAddr armCode flags
    have hentry := (storeEntry_dir env c₁ armAddr armCode x86Code flags armAddr).1
    rw [heq, Option.some.injEq] at hstore
    rw [hstore] at hentry
    exact hentry.trans hconfig
  · rw [(pcacheStore_not_admitted h hstore).1]

/-- The four ends of the part of a store that writes the entry. -/
theorem storeEntry_cases (env : Env) (c : Cache) (armAddr : Addr) (armCode x86Code : Buffer)
    (flags : BitVec 32) :
    (c.dir[getEntryFilename armAddr]?.isSome = true ∧
      storeEntry env c armAddr armCode x86Code flags = (.alreadyExists, c)) ∨
    (c.dir[getEntryFilename armAddr]?.isSome = false ∧ env.fopenTmp = false ∧
      storeEntry env c armAddr armCode x86Code flags = (.io, c)) ∨
    (c.dir[getEntryFilename armAddr]?.isSome = false ∧ env.fopenTmp = true ∧ ¬ env.Writes ∧
      ∃ bytes, storeEntry env c armAddr armCode x86Code flags =
        (.io, c.unlinkTmp env (tmpFilename armAddr) bytes)) ∨
    (c.dir[getEntryFilename armAddr]?.isSome = false ∧ env.Writes ∧
      (storeEntry env c armAddr armCode x86Code flags).1 = .ok ∧
      (storeEntry env c armAddr armCode x86Code flags).2.totalSize =
        sizeAdd c.totalSize (headerSize + x86Code.size)) := by
  unfold storeEntry
  dsimp only
  cases c.dir[getEntryFilename armAddr]?.isSome with
  | true => exact .inl ⟨rfl, rfl⟩
  | false =>
    right
    cases hopen : env.fopenTmp with
    | false => exact .inl ⟨rfl, rfl, rfl⟩
    | true =>
      right
      cases hheader : env.fwriteHeader with
      | false =>
        exact .inl ⟨rfl, rfl, fun h ↦ by simp [h.fwriteHeader] at hheader, _, rfl⟩
      | true =>
        cases hcode : env.fwriteCode with
        | false => exact .inl ⟨rfl, rfl, fun h ↦ by simp [h.fwriteCode] at hcode, _, rfl⟩
        | true =>
          cases hrename : env.rename with
          | false => exact .inl ⟨rfl, rfl, fun h ↦ by simp [h.rename] at hrename, _, rfl⟩
          | true => exact .inr ⟨rfl, ⟨hopen, hheader, hcode, hrename⟩, rfl, rfl⟩

/-- The same entry files, the same counter and no new file. -/
structure Untouched (c c' : Cache) : Prop where
  entries : ∀ name : String, isEntryName name = true → c'.dir[name]? = c.dir[name]?
  totalSize : c'.totalSize = c.totalSize
  files : ∀ name : String, c'.dir[name]?.isSome = true → c.dir[name]?.isSome = true

/-- A store that does not return OK leaves everything as it was. -/
def Atomic (env : Env) (c : Cache) (armAddr : Addr) (armCode x86Code : Buffer)
    (flags : BitVec 32) : Prop :=
  ∀ st c', pcacheStore env c armAddr armCode x86Code flags = some (st, c') → st ≠ .ok →
    Untouched c c'

theorem untouched_refl (c : Cache) : Untouched c c := ⟨fun _ _ ↦ rfl, rfl, fun _ h ↦ h⟩

theorem tmpFilename_ne_entry (armAddr : Addr) {name : String} (h : isEntryName name = true) :
    tmpFilename armAddr ≠ name := by
  rintro rfl
  rw [isEntryName_tmpFilename] at h
  cases h

/-- An eviction is a change. -/
theorem not_untouched_of_evicted {c₁ : Cache} (hne : storeEvictions env c x86Code ≠ [])
    (hdir : c₁.dir = without c.dir (storeEvictions env c x86Code))
    (hsame : ∀ name : String, isEntryName name = true → c'.dir[name]? = c₁.dir[name]?) :
    ¬ Untouched c c' := by
  intro h
  obtain ⟨e, he⟩ := List.exists_mem_of_ne_nil _ hne
  obtain ⟨hname, file, hfile, -⟩ :=
    accessOrder_file env c.dir e ((storeEvictions_sublist env c x86Code).subset he)
  have hgone : c'.dir[e.name]? = none := by
    rw [hsame e.name hname, hdir, getElem?_without, if_pos (List.mem_map_of_mem he)]
  rw [h.entries e.name hname, hfile] at hgone
  cases hgone

/-- Only evictions can free the address. -/
theorem free_iff {c₁ : Cache} (hdir : c₁.dir = without c.dir (storeEvictions env c x86Code)) :
    c₁.dir[getEntryFilename armAddr]?.isSome = false ↔ Free env c armAddr x86Code := by
  rw [hdir, getElem?_without, Free]
  split
  · next h => exact iff_of_true rfl fun _ ↦ h
  · next h =>
    rw [Bool.eq_false_iff]
    exact ⟨fun hno hsome ↦ absurd hsome hno, fun himp hsome ↦ h (himp hsome)⟩

/-- The removal of a temporary file leaves no new file exactly if it succeeds or the file was
there. -/
theorem untouched_unlinkTmp (bytes : List Byte) :
    Untouched c (c.unlinkTmp env (tmpFilename armAddr) bytes) ↔
      (env.unlink (tmpFilename armAddr) = true ∨ c.dir[tmpFilename armAddr]?.isSome = true) := by
  constructor
  · intro h
    by_contra hno
    rw [not_or] at hno
    apply hno.2
    apply h.files
    rw [Cache.unlinkTmp]
    dsimp only
    rw [if_neg hno.1, getElem?_dir_insert, if_pos rfl]
    rfl
  · intro h
    refine ⟨fun name hname ↦ ?_, rfl, fun name hsome ↦ ?_⟩
    · exact getElem?_unlinkTmp env c bytes (tmpFilename_ne_entry armAddr hname)
    · by_cases hname : tmpFilename armAddr = name
      · subst hname
        rcases h with hunlink | hthere
        · rw [Cache.unlinkTmp] at hsome
          dsimp only at hsome
          rw [if_pos hunlink, getElem?_dir_erase, if_pos rfl] at hsome
          cases hsome
        · exact hthere
      · rwa [getElem?_unlinkTmp env c bytes hname] at hsome

/-- Of a store that fails, atomicity is about its one result. -/
theorem atomic_iff_untouched {st : Status} {armCode : Buffer} {flags : BitVec 32}
    (hstore : pcacheStore env c armAddr armCode x86Code flags = some (st, c')) (hst : st ≠ .ok) :
    Atomic env c armAddr armCode x86Code flags ↔ Untouched c c' := by
  constructor
  · exact fun h ↦ h st c' hstore hst
  · intro h st₂ c₂ hstore₂ _
    obtain ⟨-, rfl⟩ := Prod.mk.inj (Option.some.inj (hstore.symm.trans hstore₂))
    exact h

/-- The evictions leave everything only if there is none. -/
theorem untouched_evicted_iff {c₁ : Cache}
    (hdir : c₁.dir = without c.dir (storeEvictions env c x86Code))
    (hkept : storeEvictions env c x86Code = [] → c₁.dir = c.dir ∧ c₁.totalSize = c.totalSize) :
    Untouched c c₁ ↔ storeEvictions env c x86Code = [] := by
  constructor
  · exact fun h ↦ by_contra fun hne ↦ not_untouched_of_evicted hne hdir (fun _ _ ↦ rfl) h
  · intro hnil
    obtain ⟨hd, ht⟩ := hkept hnil
    exact ⟨fun name _ ↦ by rw [hd], ht, fun name h ↦ by rwa [← hd]⟩

/-- A store is atomic exactly if it evicts nothing before it fails (on an existing file or an
output error) and can remove its temporary file. -/
theorem pcacheStore_atomic_iff (env : Env) (c : Cache) (armAddr : Addr)
    (armCode x86Code : Buffer) (flags : BitVec 32) :
    Atomic env c armAddr armCode x86Code flags ↔
      (Admits env c x86Code →
        (storeEvictions env c x86Code ≠ [] → Free env c armAddr x86Code ∧ env.Writes) ∧
        (Free env c armAddr x86Code → env.fopenTmp = true → ¬ env.Writes →
          env.unlink (tmpFilename armAddr) = true ∨
            c.dir[tmpFilename armAddr]?.isSome = true)) := by
  by_cases hadmits : Admits env c x86Code
  swap
  · refine iff_of_true (fun st c' hstore _ ↦ ?_) fun h ↦ absurd h hadmits
    rw [(pcacheStore_not_admitted hadmits hstore).1]
    exact untouched_refl c
  rw [forall_prop_of_true hadmits]
  obtain ⟨c₁, hconfig, hdir, htotal, hstore⟩ := hadmits.pcacheStore_eq armAddr armCode flags
  have hfree : c₁.dir[getEntryFilename armAddr]?.isSome = false ↔ Free env c armAddr x86Code :=
    free_iff hdir
  have hkept : storeEvictions env c x86Code = [] → c₁.dir = c.dir ∧ c₁.totalSize = c.totalSize := by
    intro hnil
    rw [hdir, htotal, hnil]
    exact ⟨rfl, rfl⟩
  have hsame : Untouched c c₁ ↔ storeEvictions env c x86Code = [] := untouched_evicted_iff hdir hkept
  rcases storeEntry_cases env c₁ armAddr armCode x86Code flags with
    ⟨hthere, heq⟩ | ⟨hnot, hopen, heq⟩ | ⟨hnot, hopen, hio, bytes, heq⟩ | ⟨hnot, hio, hok, -⟩
  · -- the file exists
    have hbusy : ¬ Free env c armAddr x86Code := fun h ↦ by simp [hfree.mpr h] at hthere
    rw [heq] at hstore
    rw [atomic_iff_untouched hstore (by simp), hsame]
    constructor
    · exact fun hnil ↦ ⟨fun hne ↦ absurd hnil hne, fun h ↦ absurd h hbusy⟩
    · exact fun h ↦ by_contra fun hne ↦ hbusy (h.1 hne).1
  · -- no temporary file
    rw [heq] at hstore
    rw [atomic_iff_untouched hstore (by simp), hsame]
    constructor
    · exact fun hnil ↦ ⟨fun hne ↦ absurd hnil hne, fun _ h ↦ by simp [hopen] at h⟩
    · intro h
      by_contra hne
      have hopened := (h.1 hne).2.fopenTmp
      rw [hopen] at hopened
      cases hopened
  · -- an output error
    rw [heq] at hstore
    rw [atomic_iff_untouched hstore (by simp)]
    by_cases hnil : storeEvictions env c x86Code = []
    · obtain ⟨hd, ht⟩ := hkept hnil
      have hmove : Untouched c (c₁.unlinkTmp env (tmpFilename armAddr) bytes) ↔
          Untouched c₁ (c₁.unlinkTmp env (tmpFilename armAddr) bytes) := by
        constructor
        · exact fun h ↦ ⟨fun n hn ↦ hd ▸ h.entries n hn, rfl, fun n hn ↦ hd ▸ h.files n hn⟩
        · exact fun h ↦ ⟨fun n hn ↦ hd ▸ h.entries n hn, ht, fun n hn ↦ hd ▸ h.files n hn⟩
      rw [hmove, untouched_unlinkTmp, hd]
      constructor
      · exact fun h ↦ ⟨fun hne ↦ absurd hnil hne, fun _ _ _ ↦ h⟩
      · exact fun h ↦ h.2 (hfree.mp hnot) hopen hio
    · apply iff_of_false
      · exact not_untouched_of_evicted hnil hdir fun n hn ↦
          getElem?_unlinkTmp env c₁ bytes (tmpFilename_ne_entry armAddr hn)
      · exact fun h ↦ hio (h.1 hnil).2
  · -- stored
    apply iff_of_true
    · intro st c' hstore₂ hst
      rw [hstore, Option.some.injEq] at hstore₂
      rw [hstore₂] at hok
      exact absurd hok hst
    · exact ⟨fun _ ↦ ⟨hfree.mp hnot, hio⟩, fun _ _ h ↦ absurd hio h⟩

/-- Two entry files of one byte in a cache for two bytes. -/
def Cache.pair : Cache :=
  { Cache.numbered 1 2 with config := { Cache.empty.config with maxSizeBytes := 2 } }

/-- The entry of address 0 is the older one. -/
theorem accessOrder_pair : ∃ e e', accessOrder (.granting 7) Cache.pair.dir = [e, e'] ∧
    e.name = getEntryFilename 0#64 ∧ e'.name = getEntryFilename 1#64 ∧ e.size = 1 := by
  have hfile : ∀ e ∈ accessOrder (.granting 7) Cache.pair.dir,
      ∃ i < 2, e.name = getEntryFilename (BitVec.ofNat 64 i) ∧ e.atime = i ∧ e.size = 1 := by
    intro e he
    obtain ⟨-, file, hfile, hsize⟩ := accessOrder_file _ _ e he
    obtain ⟨i, hi, hname, rfl⟩ := getElem?_numbered hfile
    exact ⟨i, hi, hname, accessOrder_atime _ _ he hfile, hsize⟩
  have hlen : (accessOrder (.granting 7) Cache.pair.dir).length = 2 := by
    have hnames := (accessOrder_names (.granting 7) Cache.pair.dir).length_eq
    rw [List.length_map] at hnames
    exact hnames.trans (disk_cacheNumbered 1 2 (by omega)).2
  have hsorted := accessOrder_sorted (.granting 7) Cache.pair.dir
  have hnodup := accessOrder_nodup (.granting 7) Cache.pair.dir
  obtain ⟨e, e', horder⟩ := List.length_eq_two.mp hlen
  rw [horder] at hfile hsorted hnodup
  obtain ⟨i, hi, hname, hatime, hsize⟩ := hfile e (by simp)
  obtain ⟨j, hj, hname', hatime', -⟩ := hfile e' (by simp)
  have hle : e.atime ≤ e'.atime := by simpa using hsorted
  have hne : i ≠ j := by
    rintro rfl
    simp [hname, hname'] at hnodup
  obtain rfl : i = 0 := by omega
  obtain rfl : j = 1 := by omega
  exact ⟨e, e', horder, hname, hname', hsize⟩

/-- The store for an address with an entry file evicts the other entry before it fails. -/
theorem pcacheStore_not_atomic :
    (∃ c', pcacheStore (.granting 7) .pair 0x1#64 retCode ⟨[0xc3], by decide⟩ 0#32 =
      some (.alreadyExists, c')) ∧
    ¬ Atomic (.granting 7) .pair 0x1#64 retCode ⟨[0xc3], by decide⟩ 0#32 := by
  obtain ⟨hsize, hentries⟩ := disk_cacheNumbered 1 2 (by omega)
  obtain ⟨e, e', horder, hname, hname', hbyte⟩ := accessOrder_pair
  have hevicted : storeEvictions (.granting 7) .pair ⟨[0xc3], by decide⟩ = [e] := by
    have hall : [e, e'].filter (removable (.granting 7)) = [e, e'] :=
      List.filter_eq_self.mpr fun _ _ ↦ rfl
    change evictedOf (.granting 7) 1 2 (accessOrder (.granting 7) Cache.pair.dir) = [e]
    rw [horder, evictedOf, hall, shed_cons_of_lt (by omega), hbyte]
    rfl
  have hadmits : Admits (.granting 7) .pair ⟨[0xc3], by decide⟩ := by
    refine ⟨rfl, by decide, fun _ ↦ ⟨rfl, fun _ _ ↦ ?_⟩⟩
    change tableHolds (.granting 7) (diskEntries (Cache.numbered 1 2).dir) = true
    rw [hentries]
    rfl
  obtain ⟨c₁, -, hdir, -, hstore⟩ := hadmits.pcacheStore_eq 0x1#64 retCode 0#32
  rw [hevicted] at hdir
  have hthere : c₁.dir[getEntryFilename 0x1#64]?.isSome = true := by
    obtain ⟨-, file, hfile, -⟩ := accessOrder_file (.granting 7) Cache.pair.dir e' (by simp [horder])
    have hne : getEntryFilename 1#64 ≠ getEntryFilename 0#64 := fun h ↦
      absurd (getEntryFilename_inj h) (by decide)
    rw [hdir, getElem?_without, if_neg (by simpa [hname] using hne), ← hname', hfile]
    rfl
  have hfailed : storeEntry (.granting 7) c₁ 0x1#64 retCode ⟨[0xc3], by decide⟩ 0#32 =
      (.alreadyExists, c₁) := by
    rw [storeEntry]
    exact if_pos hthere
  rw [hfailed] at hstore
  refine ⟨⟨c₁, hstore⟩, fun h ↦ ?_⟩
  have hne : storeEvictions (.granting 7) .pair ⟨[0xc3], by decide⟩ ≠ [] := by
    rw [hevicted]
    exact List.cons_ne_nil _ _
  apply not_untouched_of_evicted hne _ (fun _ _ ↦ rfl) (h _ _ hstore (by decide))
  rw [hevicted, hdir]

/-- The counter after a store that returns OK. -/
theorem pcacheStore_totalSize (henabled : c.config.enabled = true) (hsize : c.totalSize < 2 ^ 64)
    (hdisk : c.totalSize = diskSize c.dir)
    (hstore : pcacheStore env c armAddr armCode x86Code flags = some (.ok, c')) :
    c'.totalSize = sizeAdd (c.totalSize - load EntryInfo.size (storeEvictions env c x86Code))
      (headerSize + x86Code.size) := by
  by_cases hadmits : Admits env c x86Code
  swap
  · exact absurd rfl ((pcacheStore_not_admitted hadmits hstore).2 henabled)
  obtain ⟨c₁, -, -, htotal, heq⟩ := hadmits.pcacheStore_eq armAddr armCode flags
  rw [heq, Option.some.injEq] at hstore
  have hfits : load EntryInfo.size (storeEvictions env c x86Code) ≤ c.totalSize := by
    rw [hdisk, ← load_accessOrder env]
    exact load_le_of_sublist (storeEvictions_sublist env c x86Code)
  have hleft : c₁.totalSize = c.totalSize - load EntryInfo.size (storeEvictions env c x86Code) := by
    rw [htotal]
    exact foldl_sub (sizeSub_exact hsize) hfits
  rcases storeEntry_cases env c₁ armAddr armCode x86Code flags with
    ⟨-, hst⟩ | ⟨-, -, hst⟩ | ⟨-, -, -, bytes, hst⟩ | ⟨-, -, -, hgrown⟩
  · simp [hst] at hstore
  · simp [hst] at hstore
  · simp [hst] at hstore
  · rwa [hstore, hleft] at hgrown

/-- A store into a cache within its limit stays in the limit, if it returns OK, exactly when it is
ignored or what is left after its evictions has room for the header and the code. -/
theorem pcacheStore_limit_iff (env : Env) (c c' : Cache) (armAddr : Addr)
    (armCode x86Code : Buffer) (flags : BitVec 32) (hmax : c.config.maxSizeBytes < 2 ^ 64)
    (hlimit : c.totalSize ≤ c.config.maxSizeBytes) (hdisk : c.totalSize = diskSize c.dir)
    (hstore : pcacheStore env c armAddr armCode x86Code flags = some (.ok, c')) :
    c'.totalSize ≤ c.config.maxSizeBytes ↔
      c.config.enabled = false ∨
        sizeAdd (c.totalSize - load EntryInfo.size (storeEvictions env c x86Code))
          (headerSize + x86Code.size) ≤ c.config.maxSizeBytes := by
  by_cases henabled : c.config.enabled = true
  · rw [pcacheStore_totalSize henabled (by omega) hdisk hstore, henabled]
    simp
  · have hoff := Bool.eq_false_iff.mpr henabled
    rw [pcacheStore, hoff] at hstore
    obtain ⟨-, rfl⟩ := Prod.mk.inj (Option.some.inj hstore)
    exact iff_of_true hlimit (.inl hoff)

/-- A `ret` in an empty cache. -/
theorem pcacheStore_limit_ret :
    ∃ c', pcacheStore (.granting 7) .empty 0x1000#64 retCode ⟨[0xc3], by decide⟩ 0#32 =
      some (.ok, c') ∧ c'.totalSize ≤ Cache.empty.config.maxSizeBytes := by
  have hok : ∃ c', pcacheStore (.granting 7) .empty 0x1000#64 retCode ⟨[0xc3], by decide⟩ 0#32 =
      some (.ok, c') :=
    pcacheStore_absent retCode 0#32 (Env.granting_writes 7) rfl (by decide) (by decide)
      Std.ExtTreeMap.getElem?_empty
  obtain ⟨c', hstore⟩ := hok
  refine ⟨c', hstore, ?_⟩
  apply (pcacheStore_limit_iff (.granting 7) .empty c' 0x1000#64 retCode ⟨[0xc3], by decide⟩ 0#32
    (by decide) (by decide) disk_empty.1.symm hstore).mpr
  right
  have hnone : storeEvictions (.granting 7) .empty ⟨[0xc3], by decide⟩ = [] := rfl
  rw [hnone]
  decide

/-- An empty cache with room for 96 bytes. -/
def Cache.small : Cache :=
  { Cache.empty with config := { Cache.empty.config with maxSizeBytes := 96 } }

/-- It takes one byte of code, and with the header that is 97. -/
theorem pcacheStore_over_limit :
    Cache.small.totalSize ≤ Cache.small.config.maxSizeBytes ∧
      Cache.small.totalSize = diskSize Cache.small.dir ∧
      ∃ c', pcacheStore (.granting 7) .small 0x1000#64 retCode ⟨[0xc3], by decide⟩ 0#32 =
        some (.ok, c') ∧ ¬ c'.totalSize ≤ Cache.small.config.maxSizeBytes := by
  have hok : ∃ c', pcacheStore (.granting 7) .small 0x1000#64 retCode ⟨[0xc3], by decide⟩ 0#32 =
      some (.ok, c') :=
    pcacheStore_absent retCode 0#32 (Env.granting_writes 7) rfl (by decide) (by decide)
      Std.ExtTreeMap.getElem?_empty
  obtain ⟨c', hstore⟩ := hok
  refine ⟨by decide, disk_empty.1.symm, c', hstore, ?_⟩
  have hnone : storeEvictions (.granting 7) .small ⟨[0xc3], by decide⟩ = [] := rfl
  rw [pcacheStore_totalSize rfl (by decide) disk_empty.1.symm hstore, hnone]
  decide

end Arm2x86.Pcache
