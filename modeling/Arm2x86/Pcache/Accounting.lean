import Mathlib.Algebra.BigOperators.Group.List.Basic
import Mathlib.Data.List.Infix
import Arm2x86.Pcache.Healing

/-!
# The counters of the persistent cache

`index.total_size` and `stats.total_entries` against the entry files on disk. Stores, cleanups
and successful removals keep them in step. The removal of a stale file in a lookup does not adjust
them, and `arm2x86_pcache_rebuild_index` adds the whole directory to what they already are.
-/

namespace Arm2x86.Pcache

/-- The names of the entry files of a directory. -/
def entryNames (dir : Dir) : List String := dir.keys.filter isEntryName

/-- The size of a file. -/
def fileSize (dir : Dir) (name : String) : Nat := (dir[name]?.map fun f ↦ f.bytes.length).getD 0

/-- The sum of the sizes of the entry files. -/
def diskSize (dir : Dir) : Nat := ((entryNames dir).map (fileSize dir)).sum

/-- The number of entry files. -/
def diskEntries (dir : Dir) : Nat := (entryNames dir).length

/-- The counters of a cache agree with its directory. -/
structure Accurate (c : Cache) : Prop where
  size : c.totalSize = diskSize c.dir
  entries : c.stats.totalEntries = diskEntries c.dir

section disk

variable {dir : Dir} {name : String}

theorem mem_entryNames : name ∈ entryNames dir ↔ isEntryName name = true ∧ dir[name]?.isSome := by
  rw [entryNames, List.mem_filter, Std.ExtTreeMap.mem_keys, Std.ExtTreeMap.isSome_getElem?_iff_mem,
    and_comm]

theorem nodup_entryNames (dir : Dir) : (entryNames dir).Nodup :=
  Std.ExtTreeMap.nodup_keys.filter _

/-- Entry names once each, in any order. -/
theorem entryNames_perm {names : List String} (hnd : names.Nodup)
    (hmem : ∀ n, n ∈ names ↔ isEntryName n = true ∧ dir[n]?.isSome) :
    names.Perm (entryNames dir) := by
  refine (List.perm_ext_iff_of_nodup hnd (nodup_entryNames dir)).mpr fun n ↦ ?_
  rw [hmem n, mem_entryNames]

/-- Only the sizes of the entry files matter. -/
theorem disk_congr (dir dir' : Dir) (h : ∀ n, isEntryName n = true →
      (dir'[n]?.map fun f ↦ f.bytes.length) = dir[n]?.map fun f ↦ f.bytes.length) :
    diskSize dir' = diskSize dir ∧ diskEntries dir' = diskEntries dir := by
  have hperm : (entryNames dir').Perm (entryNames dir) := by
    refine entryNames_perm (nodup_entryNames dir') fun n ↦ ?_
    rw [mem_entryNames]
    refine and_congr_right fun hn ↦ ?_
    have hsome := congrArg Option.isSome (h n hn)
    rw [Option.isSome_map, Option.isSome_map] at hsome
    rw [hsome]
  refine ⟨?_, hperm.length_eq⟩
  have hsizes : (entryNames dir').map (fileSize dir') = (entryNames dir').map (fileSize dir) := by
    refine List.map_congr_left fun n hn ↦ ?_
    rw [fileSize, h n (mem_entryNames.mp hn).1, fileSize]
  rw [diskSize, hsizes, diskSize]
  exact (hperm.map (fileSize dir)).sum_nat

/-- Without one of its entry files. -/
theorem disk_erase {file : File} (hn : isEntryName name = true) (hfile : dir[name]? = some file) :
    diskSize dir = file.bytes.length + diskSize (dir.erase name) ∧
      diskEntries dir = diskEntries (dir.erase name) + 1 := by
  have hnot : name ∉ entryNames (dir.erase name) := fun hm ↦ by
    have := (mem_entryNames.mp hm).2
    rw [getElem?_dir_erase, if_pos rfl] at this
    cases this
  have hperm : (name :: entryNames (dir.erase name)).Perm (entryNames dir) := by
    refine entryNames_perm (List.nodup_cons.mpr ⟨hnot, nodup_entryNames _⟩) fun n ↦ ?_
    rw [List.mem_cons, mem_entryNames, getElem?_dir_erase]
    by_cases hne : name = n
    · subst hne
      simp [hn, hfile]
    · simp [hne, Ne.symm hne]
  constructor
  · have hrest : (entryNames (dir.erase name)).map (fileSize dir) =
        (entryNames (dir.erase name)).map (fileSize (dir.erase name)) := by
      refine List.map_congr_left fun n hn' ↦ ?_
      have hne : name ≠ n := fun h ↦ hnot (h ▸ hn')
      rw [fileSize, fileSize, getElem?_dir_erase, if_neg hne]
    have hsum := (hperm.map (fileSize dir)).sum_nat
    rw [List.map_cons, List.sum_cons, hrest] at hsum
    rw [diskSize, ← hsum, fileSize, hfile]
    rfl
  · rw [diskEntries, ← hperm.length_eq, List.length_cons, diskEntries]

/-- With one more entry file. -/
theorem disk_insert (file : File) (hn : isEntryName name = true) (hnone : dir[name]? = none) :
    diskSize (dir.insert name file) = file.bytes.length + diskSize dir ∧
      diskEntries (dir.insert name file) = diskEntries dir + 1 := by
  have hself : (dir.insert name file)[name]? = some file := by
    rw [getElem?_dir_insert, if_pos rfl]
  have hback := disk_congr dir ((dir.insert name file).erase name) fun n _ ↦ by
    rw [getElem?_dir_erase, getElem?_dir_insert]
    by_cases hne : name = n
    · rw [if_pos hne, ← hne, hnone]
    · rw [if_neg hne, if_neg hne]
  obtain ⟨hsize, hentries⟩ := disk_erase hn hself
  rw [hback.1] at hsize
  rw [hback.2] at hentries
  exact ⟨hsize, hentries⟩

end disk

theorem hexDigits_ne_dot (k n : Nat) : ∀ x ∈ hexDigits k n, x ≠ '.' := by
  have hdigit : ∀ i < 16, hexDigit i ≠ '.' := by decide
  induction k generalizing n with
  | zero => simp [hexDigits]
  | succ k ih =>
    intro x hx
    rcases List.mem_append.mp hx with hx | hx
    · exact ih (n / 16) x hx
    · obtain rfl := List.mem_singleton.mp hx
      exact hdigit _ (Nat.mod_lt n (by decide))

theorem isEntryName_getEntryFilename (armAddr : Addr) :
    isEntryName (getEntryFilename armAddr) = true := by
  rw [isEntryName, getEntryFilename, String.toList_ofList, Bool.and_eq_true]
  constructor
  · have hne := hexDigits_ne_dot 16 armAddr.toNat
    have hlen := length_hexDigits 16 armAddr.toNat
    cases hd : hexDigits 16 armAddr.toNat with
    | nil => simp [hd] at hlen
    | cons x xs =>
      have hx : x ≠ '.' := hne x (by simp [hd])
      simp [hx]
  · refine List.any_eq_true.mpr ⟨['.', 'j', 't', 'x'], ?_, by decide⟩
    exact (List.mem_tails _ _).mpr (List.suffix_append _ _)

theorem isEntryName_tmpFilename (armAddr : Addr) : isEntryName (tmpFilename armAddr) = false := by
  simp [isEntryName, tmpFilename]

/-- The names of a listing. -/
theorem map_name_listEntries (dir : Dir) (names : List String) :
    (listEntries dir names).map EntryInfo.name =
      (names.filter isEntryName).filter fun n ↦ dir[n]?.isSome := by
  rw [listEntries, List.map_filterMap]
  generalize names.filter isEntryName = ns
  induction ns with
  | nil => rfl
  | cons n ns ih =>
    cases hfile : dir[n]? with
    | none =>
      rw [List.filterMap_cons_none (by rw [hfile]; rfl), ih,
        List.filter_cons_of_neg (by rw [hfile]; exact Bool.false_ne_true)]
    | some file =>
      rw [List.filterMap_cons_some (b := n) (by rw [hfile]; rfl), ih,
        List.filter_cons_of_pos (by rw [hfile]; rfl)]

/-- A listing of a directory has its entry files, each once and with its size. -/
theorem listEntries_spec (env : Env) (dir : Dir) :
    ((listEntries dir (env.readdir dir)).map EntryInfo.name).Perm (entryNames dir) ∧
      ∀ e ∈ listEntries dir (env.readdir dir), isEntryName e.name = true ∧
        ∃ file, dir[e.name]? = some file ∧ e.size = file.bytes.length := by
  constructor
  · rw [map_name_listEntries]
    refine entryNames_perm (((env.readdir_nodup dir).filter _).filter _) fun n ↦ ?_
    rw [List.mem_filter, List.mem_filter]
    constructor
    · exact fun h ↦ ⟨h.1.2, h.2⟩
    · rintro ⟨hn, hsome⟩
      have hdot : n.toList.head? ≠ some '.' := by
        rw [isEntryName, Bool.and_eq_true] at hn
        exact of_decide_eq_true hn.1
      exact ⟨⟨(env.mem_readdir dir n hdot).mpr hsome, hn⟩, hsome⟩
  · intro e he
    obtain ⟨n, hn, hmap⟩ := List.mem_filterMap.mp he
    obtain ⟨file, hfile, rfl⟩ := Option.map_eq_some_iff.mp hmap
    exact ⟨(List.mem_filter.mp hn).2, file, hfile, rfl⟩

/-- The sizes in a listing add up to the size on disk. -/
theorem sum_listEntries (env : Env) (dir : Dir) :
    ((listEntries dir (env.readdir dir)).map EntryInfo.size).sum = diskSize dir ∧
      (listEntries dir (env.readdir dir)).length = diskEntries dir := by
  obtain ⟨hperm, hsizes⟩ := listEntries_spec env dir
  have hmap : (listEntries dir (env.readdir dir)).map EntryInfo.size =
      ((listEntries dir (env.readdir dir)).map EntryInfo.name).map (fileSize dir) := by
    rw [List.map_map]
    refine List.map_congr_left fun e he ↦ ?_
    obtain ⟨-, file, hfile, hsize⟩ := hsizes e he
    simp [fileSize, hfile, hsize]
  constructor
  · rw [hmap]
    exact (hperm.map (fileSize dir)).sum_nat
  · rw [diskEntries, ← hperm.length_eq, List.length_map]

theorem exchangeRound_perm (x : EntryInfo) (xs : List EntryInfo) :
    ((exchangeRound x xs).1 :: (exchangeRound x xs).2).Perm (x :: xs) := by
  induction xs generalizing x with
  | nil => exact List.Perm.refl _
  | cons y ys ih =>
    rw [exchangeRound]
    split
    · exact (List.Perm.swap _ _ _).trans ((ih y).cons x)
    · exact (List.Perm.swap _ _ _).trans (((ih x).cons y).trans (List.Perm.swap _ _ _))

/-- The sort only changes the order. -/
theorem exchangeSort_perm (n : Nat) (xs : List EntryInfo) : (exchangeSort n xs).Perm xs := by
  induction n generalizing xs with
  | zero => exact List.Perm.refl _
  | succ n ih =>
    cases xs with
    | nil => exact List.Perm.refl _
    | cons x xs =>
      rw [exchangeSort]
      exact ((ih _).cons _).trans (exchangeRound_perm x xs)

/-- The removal of the oldest entries keeps its running size and its count in step. -/
theorem removeOldest_spec (env : Env) (targetSize : Nat) (es : List EntryInfo) {dir : Dir}
    (hnd : (es.map EntryInfo.name).Nodup)
    (hes : ∀ e ∈ es, isEntryName e.name = true ∧
      ∃ file, dir[e.name]? = some file ∧ e.size = file.bytes.length)
    (hbound : diskSize dir < 2 ^ 64) (removed : Nat) :
    ∃ removed' dir', removeOldest env targetSize es (diskSize dir, removed, dir) =
        (diskSize dir', removed', dir') ∧
      removed' + diskEntries dir' = removed + diskEntries dir ∧ diskSize dir' ≤ diskSize dir ∧
      diskEntries dir' ≤ diskEntries dir := by
  induction es generalizing dir removed with
  | nil => exact ⟨removed, dir, rfl, rfl, Nat.le_refl _, Nat.le_refl _⟩
  | cons e es ih =>
    obtain ⟨hn, file, hfile, hsize⟩ := hes e List.mem_cons_self
    obtain ⟨hne, hnd'⟩ := List.nodup_cons.mp hnd
    have hes' : ∀ e' ∈ es, isEntryName e'.name = true ∧
        ∃ file, dir[e'.name]? = some file ∧ e'.size = file.bytes.length := fun e' he' ↦
      hes e' (List.mem_cons_of_mem e he')
    rw [removeOldest]
    split
    · split
      · -- the entry goes
        obtain ⟨hdisk, hcount⟩ := disk_erase hn hfile
        have hsub : sizeSub (diskSize dir) e.size = diskSize (dir.erase e.name) := by
          rw [hsize, sizeSub]
          omega
        have hrest : ∀ e' ∈ es, isEntryName e'.name = true ∧
            ∃ file, (dir.erase e.name)[e'.name]? = some file ∧ e'.size = file.bytes.length := by
          intro e' he'
          have hname : e.name ≠ e'.name := fun h ↦ hne (h ▸ List.mem_map_of_mem he')
          rw [getElem?_dir_erase, if_neg hname]
          exact hes' e' he'
        obtain ⟨removed', dir', hrun, hkeep, hle, hle'⟩ :=
          ih hnd' hrest (by omega) (removed + 1)
        refine ⟨removed', dir', ?_, by omega, by omega, by omega⟩
        rw [hsub, hrun]
      · exact ih hnd' hes' hbound removed
    · exact ⟨removed, dir, rfl, rfl, Nat.le_refl _, Nat.le_refl _⟩

/-- A cleanup that scans the directory has a table for its entries. -/
def CleanupFits (env : Env) (c : Cache) (targetSize : Nat) : Prop :=
  (if targetSize = 0 then c.config.maxSizeBytes / 2 else targetSize) < c.totalSize →
    env.opendir = true → tableHolds env (diskEntries c.dir) = true

variable {c c' : Cache}

/-- A cleanup returns exactly if its table suffices, and keeps the counters accurate. -/
theorem pcacheCleanup_accurate (h : Accurate c) (hsize : diskSize c.dir < 2 ^ 64)
    (hentries : diskEntries c.dir < 2 ^ 64) (env : Env) (targetSize : Nat) :
    (CleanupFits env c targetSize → ∃ r c', pcacheCleanup env c targetSize = some (r, c') ∧
      c'.config = c.config ∧ Accurate c' ∧ diskSize c'.dir ≤ diskSize c.dir ∧
      diskEntries c'.dir ≤ diskEntries c.dir) ∧
    (¬ CleanupFits env c targetSize → pcacheCleanup env c targetSize = none) := by
  unfold CleanupFits
  simp only [pcacheCleanup]
  generalize (if targetSize = 0 then c.config.maxSizeBytes / 2 else targetSize) = target
  by_cases hover : c.totalSize ≤ target
  · rw [if_pos hover]
    refine ⟨fun _ ↦ ⟨_, _, rfl, rfl, h, Nat.le_refl _, Nat.le_refl _⟩, fun hfits ↦ ?_⟩
    exact absurd (fun hlt ↦ absurd hover (Nat.not_le.mpr hlt)) hfits
  rw [if_neg hover]
  cases hopen : env.opendir with
  | false =>
    refine ⟨fun _ ↦ ⟨_, _, rfl, rfl, h, Nat.le_refl _, Nat.le_refl _⟩, fun hfits ↦ ?_⟩
    exact absurd (fun _ ho ↦ absurd ho Bool.false_ne_true) hfits
  | true =>
    rw [if_neg (by simp), (sum_listEntries env c.dir).2]
    by_cases htable : tableHolds env (diskEntries c.dir) = true
    · refine ⟨fun _ ↦ ?_, fun hfits ↦ absurd (fun _ _ ↦ htable) hfits⟩
      rw [htable, if_neg (by simp)]
      -- the sorted listing
      obtain ⟨hperm, hes⟩ := listEntries_spec env c.dir
      have hsort := exchangeSort_perm (diskEntries c.dir) (listEntries c.dir (env.readdir c.dir))
      have hnd : ((exchangeSort (diskEntries c.dir)
          (listEntries c.dir (env.readdir c.dir))).map EntryInfo.name).Nodup :=
        ((hsort.map EntryInfo.name).trans hperm).nodup_iff.mpr (nodup_entryNames c.dir)
      obtain ⟨removed, dir', hrun, hkeep, hle, hle'⟩ := removeOldest_spec env target _ hnd
        (fun e he ↦ hes e (hsort.mem_iff.mp he)) hsize 0
      rw [h.size, hrun]
      refine ⟨_, _, rfl, rfl, ⟨rfl, ?_⟩, hle, hle'⟩
      change sizeSub c.stats.totalEntries removed = diskEntries dir'
      rw [h.entries, sizeSub]
      omega
    · rw [Bool.eq_false_iff.mpr htable, if_pos (by simp)]
      refine ⟨fun hfits ↦ absurd (hfits (Nat.lt_of_not_le hover) rfl) Bool.false_ne_true, fun _ ↦ rfl⟩

/-- The writing part of a store keeps the counters accurate. -/
theorem storeEntry_accurate (h : Accurate c) (env : Env) (armAddr : Addr)
    (armCode x86Code : Buffer) (flags : BitVec 32)
    (hsize : diskSize c.dir + (headerSize + x86Code.size) < 2 ^ 64)
    (hentries : diskEntries c.dir + 1 < 2 ^ 64) :
    Accurate (storeEntry env c armAddr armCode x86Code flags).2 := by
  have hother : ∀ n, isEntryName n = true → tmpFilename armAddr ≠ n := by
    rintro n hn rfl
    rw [isEntryName_tmpFilename] at hn
    cases hn
  have htmp : diskSize (c.dir.erase (tmpFilename armAddr)) = diskSize c.dir ∧
      diskEntries (c.dir.erase (tmpFilename armAddr)) = diskEntries c.dir := by
    refine disk_congr _ _ fun n hn ↦ ?_
    rw [getElem?_dir_erase, if_neg (hother n hn)]
  have hunlink (bytes : List Byte) : Accurate (c.unlinkTmp env (tmpFilename armAddr) bytes) := by
    have hdisk := disk_congr c.dir (c.unlinkTmp env (tmpFilename armAddr) bytes).dir fun n hn ↦ by
      rw [getElem?_unlinkTmp env c bytes (hother n hn)]
    exact ⟨h.size.trans hdisk.1.symm, h.entries.trans hdisk.2.symm⟩
  unfold storeEntry
  dsimp only
  split
  · exact h
  next hexists =>
  split
  · exact h
  split
  · exact hunlink _
  split
  · exact hunlink _
  split
  · exact hunlink _
  · have hnone : (c.dir.erase (tmpFilename armAddr))[getEntryFilename armAddr]? = none := by
      rw [getElem?_dir_erase, if_neg (tmpFilename_ne armAddr armAddr)]
      exact Option.not_isSome_iff_eq_none.mp hexists
    obtain ⟨hdisk, hcount⟩ := disk_insert
      ⟨(newHeader env.now armAddr armCode x86Code flags).encode ++ x86Code.bytes, env.now⟩
      (isEntryName_getEntryFilename armAddr) hnone
    constructor
    · change sizeAdd c.totalSize (headerSize + x86Code.size) = _
      rw [hdisk, htmp.1, h.size, sizeAdd, Nat.mod_eq_of_lt hsize, List.length_append,
        length_encode, Nat.add_comm]
      rfl
    · change sizeAdd c.stats.totalEntries 1 = _
      rw [hcount, htmp.2, h.entries, sizeAdd, Nat.mod_eq_of_lt hentries]

/-- A lookup leaves the counters alone, and the entry files unless it meets a stale one. -/
theorem pcacheLookup_effect (env : Env) (c : Cache) (armAddr : Addr) (armCode : Buffer)
    (flags : BitVec 32) :
    (pcacheLookup env c armAddr armCode flags).2.totalSize = c.totalSize ∧
    (pcacheLookup env c armAddr armCode flags).2.stats.totalEntries = c.stats.totalEntries ∧
    ((c.config.enabled = true ∧ (∃ file, c.dir[getEntryFilename armAddr]? = some file ∧
        Stale env c.config armAddr armCode file.bytes) ∧
      (pcacheLookup env c armAddr armCode flags).2.dir = c.dir.erase (getEntryFilename armAddr)) ∨
    ((c.config.enabled = true → ∀ file, c.dir[getEntryFilename armAddr]? = some file →
        ¬ Stale env c.config armAddr armCode file.bytes) ∧
      ∀ n : String,
        ((pcacheLookup env c armAddr armCode flags).2.dir[n]?.map fun f ↦ f.bytes.length) =
          c.dir[n]?.map fun f ↦ f.bytes.length)) := by
  by_cases henabled : c.config.enabled = true
  swap
  · have hsame : (pcacheLookup env c armAddr armCode flags).2 = c := by
      simp [pcacheLookup, henabled]
    rw [hsame]
    exact ⟨rfl, rfl, .inr ⟨fun h ↦ absurd h henabled, fun _ ↦ rfl⟩⟩
  simp only [pcacheLookup, henabled, Bool.not_true, Bool.false_eq_true, if_false]
  cases hfile : c.dir[getEntryFilename armAddr]? with
  | none =>
    refine ⟨rfl, rfl, .inr ⟨fun _ file h ↦ ?_, fun _ ↦ rfl⟩⟩
    cases h
  | some file =>
    dsimp only
    have honly : ¬ Stale env c.config armAddr armCode file.bytes → ∀ file', some file = some file' →
        ¬ Stale env c.config armAddr armCode file'.bytes := fun hs file' h ↦
      Option.some.inj h ▸ hs
    by_cases hheader : file.bytes.length < headerSize
    · rw [if_pos hheader]
      exact ⟨rfl, rfl, .inr ⟨fun _ ↦ honly fun h ↦ absurd h.header (Nat.not_le.mpr hheader),
        fun _ ↦ rfl⟩⟩
    rw [if_neg hheader]
    cases hvalid : validateHeader (Header.decode file.bytes)
    case ok =>
      dsimp only
      by_cases hhash : c.config.verifyHash = true ∧
          computeHash armCode.bytes ≠ (Header.decode file.bytes).armCodeHash
      · rw [if_pos hhash]
        unfold Cache.unlinkEntry
        by_cases hunlink : env.unlink (getEntryFilename armAddr) = true
        · rw [if_pos hunlink]
          exact ⟨rfl, rfl, .inl ⟨trivial, ⟨file, rfl, Nat.not_lt.mp hheader, hvalid, hhash.1,
            hhash.2, hunlink⟩, rfl⟩⟩
        · rw [if_neg hunlink]
          exact ⟨rfl, rfl, .inr ⟨fun _ ↦ honly fun h ↦ hunlink h.unlink, fun _ ↦ rfl⟩⟩
      rw [if_neg hhash]
      have hfresh : ¬ Stale env c.config armAddr armCode file.bytes := fun h ↦
        hhash ⟨h.verify, h.armHash⟩
      split
      · exact ⟨rfl, rfl, .inr ⟨fun _ ↦ honly hfresh, fun _ ↦ rfl⟩⟩
      split
      · exact ⟨rfl, rfl, .inr ⟨fun _ ↦ honly hfresh, fun _ ↦ rfl⟩⟩
      split
      · exact ⟨rfl, rfl, .inr ⟨fun _ ↦ honly hfresh, fun _ ↦ rfl⟩⟩
      · refine ⟨rfl, rfl, .inr ⟨fun _ ↦ honly hfresh, fun n ↦ ?_⟩⟩
        change ((c.dir.insert (getEntryFilename armAddr) _)[n]?.map _) = _
        rw [getElem?_dir_insert]
        split
        · next hname => rw [← hname, hfile, Option.map_some, Option.map_some]
        · rfl
    all_goals
      refine ⟨rfl, rfl, .inr ⟨fun _ ↦ honly fun h ↦ ?_, fun _ ↦ rfl⟩⟩
      have := h.valid
      rw [hvalid] at this
      cases this

/-- A lookup keeps the counters accurate exactly if it meets no stale file. -/
theorem pcacheLookup_accurate_iff (h : Accurate c) (env : Env) (armAddr : Addr)
    (armCode : Buffer) (flags : BitVec 32) :
    Accurate (pcacheLookup env c armAddr armCode flags).2 ↔
      (c.config.enabled = true → ∀ file, c.dir[getEntryFilename armAddr]? = some file →
        ¬ Stale env c.config armAddr armCode file.bytes) := by
  obtain ⟨hsize, hentries, ⟨henabled, ⟨file, hfile, hstale⟩, hdir⟩ | ⟨hfresh, hdir⟩⟩ :=
    pcacheLookup_effect env c armAddr armCode flags
  · refine iff_of_false (fun hacc ↦ ?_) fun hno ↦ hno henabled file hfile hstale
    have hcount := (disk_erase (isEntryName_getEntryFilename armAddr) hfile).2
    have := hacc.entries
    rw [hentries, hdir, h.entries] at this
    omega
  · refine iff_of_true ?_ hfresh
    obtain ⟨hs, he⟩ := disk_congr c.dir _ fun n _ ↦ hdir n
    exact ⟨by rw [hsize, h.size, hs], by rw [hentries, h.entries, he]⟩

/-- An invalidation keeps the counters accurate exactly if its file, if any, can be removed. -/
theorem pcacheInvalidate_accurate_iff (h : Accurate c) (hsize : diskSize c.dir < 2 ^ 64)
    (hentries : diskEntries c.dir < 2 ^ 64) (env : Env) (armAddr : Addr) :
    Accurate (pcacheInvalidate env c armAddr).2 ↔
      (c.dir[getEntryFilename armAddr]?.isSome → env.unlink (getEntryFilename armAddr) = true) := by
  cases hfile : c.dir[getEntryFilename armAddr]? with
  | none =>
    simp only [pcacheInvalidate, hfile]
    exact iff_of_true h fun hs ↦ by cases hs
  | some file =>
    obtain ⟨hdisk, hcount⟩ := disk_erase (isEntryName_getEntryFilename armAddr) hfile
    have htotal : sizeSub c.totalSize file.bytes.length =
        diskSize (c.dir.erase (getEntryFilename armAddr)) := by
      rw [h.size, sizeSub]
      omega
    have hless : sizeSub c.stats.totalEntries 1 =
        diskEntries (c.dir.erase (getEntryFilename armAddr)) := by
      rw [h.entries, sizeSub]
      omega
    simp only [pcacheInvalidate, hfile]
    rw [htotal, hless]
    by_cases hunlink : env.unlink (getEntryFilename armAddr) = true
    · rw [if_pos hunlink]
      exact iff_of_true ⟨rfl, rfl⟩ fun _ ↦ hunlink
    · rw [if_neg hunlink]
      refine iff_of_false (fun hacc ↦ ?_) fun hall ↦ hunlink (hall rfl)
      have hwrong : diskEntries (c.dir.erase (getEntryFilename armAddr)) = diskEntries c.dir :=
        hacc.entries
      omega

/-- A wrapped sum. -/
theorem foldl_sizeAdd {α : Type} (f : α → Nat) (xs : List α) {total : Nat}
    (htotal : total < 2 ^ 64) :
    xs.foldl (fun t x ↦ sizeAdd t (f x)) total = (total + (xs.map f).sum) % 2 ^ 64 := by
  induction xs generalizing total with
  | nil => exact (Nat.mod_eq_of_lt htotal).symm
  | cons x xs ih =>
    have hlt : sizeAdd total (f x) < 2 ^ 64 := Nat.mod_lt _ (by decide)
    rw [List.foldl_cons, ih hlt, List.map_cons, List.sum_cons, sizeAdd]
    omega

/-- The counters after a rebuild that could read the directory. -/
theorem pcacheRebuildIndex_counters (env : Env) (c : Cache) (hopen : env.opendir = true)
    (hsize : c.totalSize < 2 ^ 64) (hentries : c.stats.totalEntries < 2 ^ 64) :
    (pcacheRebuildIndex env c).2.totalSize = (c.totalSize + diskSize c.dir) % 2 ^ 64 ∧
      (pcacheRebuildIndex env c).2.stats.totalEntries =
        (c.stats.totalEntries + diskEntries c.dir) % 2 ^ 64 ∧
      (pcacheRebuildIndex env c).2.dir = c.dir ∧
      (pcacheRebuildIndex env c).2.config = c.config := by
  obtain ⟨hs, he⟩ := sum_listEntries env c.dir
  simp only [pcacheRebuildIndex, hopen, Bool.not_true, Bool.false_eq_true, if_false]
  refine ⟨?_, ?_, trivial, trivial⟩
  · rw [foldl_sizeAdd EntryInfo.size _ hsize, hs]
  · rw [foldl_sizeAdd (fun _ ↦ 1) _ hentries, List.map_const', List.sum_replicate_nat, he,
      Nat.mul_one]

theorem pcacheRebuildIndex_accurate_iff (h : Accurate c) (hsize : diskSize c.dir < 2 ^ 64)
    (hentries : diskEntries c.dir < 2 ^ 64) (env : Env) :
    Accurate (pcacheRebuildIndex env c).2 ↔ (env.opendir = true → diskEntries c.dir = 0) := by
  cases hopen : env.opendir with
  | false =>
    have hsame : (pcacheRebuildIndex env c).2 = c := by simp [pcacheRebuildIndex, hopen]
    rw [hsame]
    exact iff_of_true h fun ho ↦ absurd ho Bool.false_ne_true
  | true =>
    obtain ⟨hs, he, hdir, -⟩ := pcacheRebuildIndex_counters env c hopen
      (h.size.symm ▸ hsize) (h.entries.symm ▸ hentries)
    rw [h.size] at hs
    rw [h.entries] at he
    constructor
    · intro hacc _
      have := hacc.entries
      rw [he, hdir] at this
      omega
    · intro hnone
      have hzero : diskSize c.dir = 0 := by
        have hnil : entryNames c.dir = [] := List.length_eq_zero_iff.mp (hnone rfl)
        rw [diskSize, hnil]
        rfl
      refine ⟨?_, ?_⟩
      · rw [hs, hdir, hzero]
        rfl
      · rw [he, hdir, hnone rfl]
        rfl

/-- The files left by the unlinking loop. -/
theorem getElem?_unlinked (env : Env) (names : List String) (dir : Dir) (n : String) :
    (names.foldl (fun d name ↦ if env.unlink name then d.erase name else d) dir)[n]? =
      if n ∈ names ∧ env.unlink n = true then none else dir[n]? := by
  induction names generalizing dir with
  | nil => simp
  | cons name names ih =>
    rw [List.foldl_cons, ih]
    by_cases hmem : n ∈ names ∧ env.unlink n = true
    · rw [if_pos hmem, if_pos ⟨List.mem_cons_of_mem _ hmem.1, hmem.2⟩]
    · rw [if_neg hmem]
      by_cases hunlink : env.unlink name = true
      · rw [if_pos hunlink, getElem?_dir_erase]
        by_cases hname : name = n
        · subst hname
          rw [if_pos rfl, if_pos ⟨List.mem_cons_self, hunlink⟩]
        · have hno : ¬ (n ∈ name :: names ∧ env.unlink n = true) := fun hc ↦
            hmem ⟨(List.mem_cons.mp hc.1).resolve_left (Ne.symm hname), hc.2⟩
          rw [if_neg hname, if_neg hno]
      · have hno : ¬ (n ∈ name :: names ∧ env.unlink n = true) := by
          rintro ⟨hn, hu⟩
          rcases List.mem_cons.mp hn with rfl | hn
          · exact hunlink hu
          · exact hmem ⟨hn, hu⟩
        rw [if_neg hunlink, if_neg hno]

/-- The removal of all files keeps the counters accurate exactly if all entry files go. -/
theorem pcacheInvalidateAll_accurate_iff (h : Accurate c) (env : Env) :
    Accurate (pcacheInvalidateAll env c).2 ↔
      (env.opendir = true → ∀ name ∈ entryNames c.dir, env.unlink name = true) := by
  cases hopen : env.opendir with
  | false =>
    have hsame : (pcacheInvalidateAll env c).2 = c := by simp [pcacheInvalidateAll, hopen]
    rw [hsame]
    exact iff_of_true h fun ho ↦ absurd ho Bool.false_ne_true
  | true =>
    set names := (env.readdir c.dir).filter fun name ↦ name.toList.head? ≠ some '.' with hnames
    set dir' := names.foldl (fun d name ↦ if env.unlink name then d.erase name else d) c.dir
      with hdir'
    have hresult : (pcacheInvalidateAll env c).2 = { c with
        dir := dir'
        totalSize := 0
        stats := { c.stats with totalEntries := 0 } } := by
      simp only [pcacheInvalidateAll, hopen, Bool.not_true, Bool.false_eq_true, if_false]
      rfl
    have hleft : ∀ n, n ∈ entryNames dir' ↔ n ∈ entryNames c.dir ∧ env.unlink n = false := by
      intro n
      rw [mem_entryNames, mem_entryNames, hdir', getElem?_unlinked]
      constructor
      · rintro ⟨hn, hsome⟩
        split at hsome
        · cases hsome
        · next hno =>
          refine ⟨⟨hn, hsome⟩, Bool.eq_false_iff.mpr fun hu ↦ hno ⟨?_, hu⟩⟩
          have hdot : n.toList.head? ≠ some '.' := by
            rw [isEntryName, Bool.and_eq_true] at hn
            exact of_decide_eq_true hn.1
          rw [hnames, List.mem_filter]
          exact ⟨(env.mem_readdir c.dir n hdot).mpr hsome, by simpa using hdot⟩
      · rintro ⟨⟨hn, hsome⟩, hu⟩
        rw [if_neg fun hc ↦ by simp [hu] at hc]
        exact ⟨hn, hsome⟩
    rw [hresult]
    constructor
    · intro hacc _ name hname
      by_contra hu
      have hmem := (hleft name).mpr ⟨hname, Bool.eq_false_iff.mpr hu⟩
      have hzero : 0 = diskEntries dir' := hacc.entries
      rw [List.length_eq_zero_iff.mp hzero.symm] at hmem
      cases hmem
    · intro hall
      have hnil : entryNames dir' = [] := by
        refine List.eq_nil_iff_forall_not_mem.mpr fun n hn ↦ ?_
        obtain ⟨hin, hu⟩ := (hleft n).mp hn
        rw [hall rfl n hin] at hu
        cases hu
      constructor
      · change 0 = diskSize dir'
        rw [diskSize, hnil]
        rfl
      · change 0 = diskEntries dir'
        rw [diskEntries, hnil]
        rfl

/-- The calls that change the directory or the counters. -/
inductive Op where
  | call (entryCall : Call)
  | cleanup (env : Env) (targetSize : Nat)
  | rebuildIndex (env : Env)
  | invalidateAll (env : Env)

/-- The cache after a call. -/
def Op.exec (op : Op) (c : Cache) : Option Cache :=
  match op with
  | .call entryCall => entryCall.exec c
  | .cleanup env targetSize => (pcacheCleanup env c targetSize).map Prod.snd
  | .rebuildIndex env => some (pcacheRebuildIndex env c).2
  | .invalidateAll env => some (pcacheInvalidateAll env c).2

/-- The condition under which a call on accurate counters returns and leaves accurate ones. -/
def Op.Balanced (op : Op) (c : Cache) : Prop :=
  match op with
  | .call (.lookup env armAddr armCode _) => c.config.enabled = true →
    ∀ file, c.dir[getEntryFilename armAddr]? = some file →
      ¬ Stale env c.config armAddr armCode file.bytes
  | .call (.store env _ _ x86Code _) => c.triggersCleanup x86Code = true →
    CleanupFits env c (c.config.maxSizeBytes / 2)
  | .call (.invalidate env armAddr) => c.dir[getEntryFilename armAddr]?.isSome →
    env.unlink (getEntryFilename armAddr) = true
  | .cleanup env targetSize => CleanupFits env c targetSize
  | .rebuildIndex env => env.opendir = true → diskEntries c.dir = 0
  | .invalidateAll env => env.opendir = true → ∀ name ∈ entryNames c.dir, env.unlink name = true

/-- The bytes a call adds to the directory. -/
def Op.added : Op → Nat
  | .call (.store _ _ _ x86Code _) => headerSize + x86Code.size
  | _ => 0

/-- The entry files and their bytes can be counted in a `size_t`. -/
def Op.Countable (op : Op) (c : Cache) : Prop :=
  diskSize c.dir + op.added < 2 ^ 64 ∧ diskEntries c.dir + 1 < 2 ^ 64

/-- A store returns exactly if a cleanup it runs does, and then keeps the counters accurate. -/
theorem pcacheStore_accurate_iff (h : Accurate c) (env : Env) (armAddr : Addr)
    (armCode x86Code : Buffer) (flags : BitVec 32)
    (hsize : diskSize c.dir + (headerSize + x86Code.size) < 2 ^ 64)
    (hentries : diskEntries c.dir + 1 < 2 ^ 64) :
    (∃ c', (pcacheStore env c armAddr armCode x86Code flags).map Prod.snd = some c' ∧
      Accurate c') ↔
      (c.triggersCleanup x86Code = true → CleanupFits env c (c.config.maxSizeBytes / 2)) := by
  unfold pcacheStore Cache.triggersCleanup
  cases c.config.enabled with
  | false => exact iff_of_true ⟨c, rfl, h⟩ fun ht ↦ by simp at ht
  | true =>
    by_cases hlarge : x86Code.size > c.config.maxEntrySize
    · rw [if_neg (by simp), if_pos hlarge]
      exact iff_of_true ⟨c, rfl, h⟩ fun ht ↦ by simp [Nat.not_le.mpr hlarge] at ht
    rw [if_neg (by simp), if_neg hlarge]
    cases c.overLimit x86Code with
    | false =>
      exact iff_of_true ⟨_, rfl, storeEntry_accurate h env armAddr armCode x86Code flags hsize
        hentries⟩ fun ht ↦ by simp at ht
    | true =>
      rw [if_pos rfl]
      cases c.config.autoCleanup with
      | false => exact iff_of_true ⟨c, rfl, h⟩ fun ht ↦ by simp at ht
      | true =>
        rw [if_pos rfl]
        obtain ⟨hok, hno⟩ := pcacheCleanup_accurate h (by omega) (by omega) env
          (c.config.maxSizeBytes / 2)
        by_cases hfits : CleanupFits env c (c.config.maxSizeBytes / 2)
        · obtain ⟨r, c₁, hrun, -, hacc, hle, hle'⟩ := hok hfits
          rw [hrun]
          exact iff_of_true ⟨_, rfl, storeEntry_accurate hacc env armAddr armCode x86Code flags
            (by omega) (by omega)⟩ fun _ ↦ hfits
        · rw [hno hfits]
          refine iff_of_false ?_ fun hall ↦ hfits (hall (by simp [Nat.not_lt.mp hlarge]))
          rintro ⟨c', hc', -⟩
          cases hc'

/-- One call on accurate counters. -/
theorem Op.accurate_iff (h : Accurate c) (op : Op) (hcount : op.Countable c) :
    (∃ c', op.exec c = some c' ∧ Accurate c') ↔ op.Balanced c := by
  obtain ⟨hsize, hentries⟩ := hcount
  have hsome : ∀ c₁ : Cache, (∃ c', some c₁ = some c' ∧ Accurate c') ↔ Accurate c₁ := fun c₁ ↦
    ⟨fun ⟨_, heq, hacc⟩ ↦ Option.some.inj heq ▸ hacc, fun hacc ↦ ⟨c₁, rfl, hacc⟩⟩
  cases op with
  | call entryCall =>
    cases entryCall with
    | lookup env armAddr armCode flags =>
      exact (hsome _).trans (pcacheLookup_accurate_iff h env armAddr armCode flags)
    | store env armAddr armCode x86Code flags =>
      exact pcacheStore_accurate_iff h env armAddr armCode x86Code flags hsize hentries
    | invalidate env armAddr =>
      exact (hsome _).trans (pcacheInvalidate_accurate_iff h (by omega) (by omega) env armAddr)
  | cleanup env targetSize =>
    obtain ⟨hok, hno⟩ := pcacheCleanup_accurate h (by omega) (by omega) env targetSize
    by_cases hfits : CleanupFits env c targetSize
    · obtain ⟨r, c₁, hrun, -, hacc, -⟩ := hok hfits
      refine iff_of_true ⟨c₁, ?_, hacc⟩ hfits
      rw [Op.exec, hrun]
      rfl
    · refine iff_of_false ?_ hfits
      rintro ⟨c', hc', -⟩
      rw [Op.exec, hno hfits] at hc'
      cases hc'
  | rebuildIndex env =>
    exact (hsome _).trans (pcacheRebuildIndex_accurate_iff h (by omega) (by omega) env)
  | invalidateAll env => exact (hsome _).trans (pcacheInvalidateAll_accurate_iff h env)

/-- The calls of a run, each with the cache before it. -/
def stepsOf : List Op → Cache → List (Op × Cache)
  | [], _ => []
  | op :: ops, c =>
    (op, c) :: match op.exec c with
      | none => []
      | some c' => stepsOf ops c'

/-- A directory without entry files takes no room. -/
theorem diskSize_of_no_entries {dir : Dir} (h : diskEntries dir = 0) : diskSize dir = 0 := by
  rw [diskSize, List.length_eq_zero_iff.mp h]
  rfl

/-- A new cache that reads its directory has accurate counters, exactly if it can read it or there
is nothing to read. -/
theorem pcacheCreate_accurate_iff {env env' : Env} {config : Config} {dir : Dir}
    (hload : config.loadOnStartup = true) (hcreate : pcacheCreate env env' config dir = some c)
    (hsize : diskSize dir < 2 ^ 64) (hentries : diskEntries dir < 2 ^ 64) :
    Accurate c ↔ (env.opendir = true ∨ diskEntries dir = 0) := by
  simp only [pcacheCreate, hload, if_true] at hcreate
  -- the cleanup keeps accurate counters, and does nothing when they are zero
  have hclean : Accurate (pcacheRebuildIndex env (newCache config dir)).2 →
      (pcacheRebuildIndex env (newCache config dir)).2.dir = dir → Accurate c := by
    intro hacc hdir
    split at hcreate
    · obtain ⟨⟨r, c₁⟩, hrun, rfl⟩ := Option.map_eq_some_iff.mp hcreate
      obtain ⟨hok, hno⟩ := pcacheCleanup_accurate hacc (hdir.symm ▸ hsize) (hdir.symm ▸ hentries)
        env' (config.maxSizeBytes / 2)
      by_cases hfits : CleanupFits env' (pcacheRebuildIndex env (newCache config dir)).2
          (config.maxSizeBytes / 2)
      · obtain ⟨r', c₂, hrun', -, hacc', -⟩ := hok hfits
        obtain ⟨-, rfl⟩ := Prod.mk.inj (Option.some.inj (hrun.symm.trans hrun'))
        exact hacc'
      · rw [hno hfits] at hrun
        cases hrun
    · exact Option.some.inj hcreate ▸ hacc
  cases hopen : env.opendir with
  | true =>
    obtain ⟨hs, he, hdir, -⟩ := pcacheRebuildIndex_counters env (newCache config dir) hopen
      (by decide : 0 < 2 ^ 64) (by decide : 0 < 2 ^ 64)
    have hs' : (pcacheRebuildIndex env (newCache config dir)).2.totalSize = diskSize dir :=
      hs.trans ((congrArg (· % 2 ^ 64) (Nat.zero_add _)).trans (Nat.mod_eq_of_lt hsize))
    have he' : (pcacheRebuildIndex env (newCache config dir)).2.stats.totalEntries =
        diskEntries dir :=
      he.trans ((congrArg (· % 2 ^ 64) (Nat.zero_add _)).trans (Nat.mod_eq_of_lt hentries))
    refine iff_of_true (hclean ⟨?_, ?_⟩ hdir) (.inl rfl)
    · rw [hs', hdir]
      rfl
    · rw [he', hdir]
      rfl
  | false =>
    have hsame : (pcacheRebuildIndex env (newCache config dir)).2 = newCache config dir := by
      simp [pcacheRebuildIndex, hopen]
    rw [hsame] at hcreate hclean
    constructor
    · intro hacc
      have hnew : c = newCache config dir := by
        split at hcreate
        · have hstop : pcacheCleanup env' (newCache config dir) (config.maxSizeBytes / 2) =
              some (.ok 0, newCache config dir) := by
            simp [pcacheCleanup, newCache]
          rw [hstop] at hcreate
          exact (Option.some.inj hcreate).symm
        · exact (Option.some.inj hcreate).symm
      right
      have := hacc.entries
      rw [hnew] at this
      exact this.symm
    · rintro (ho | hnone)
      · cases ho
      · exact hclean ⟨(diskSize_of_no_entries hnone).symm, hnone.symm⟩ rfl

theorem disk_empty : diskSize ∅ = 0 ∧ diskEntries ∅ = 0 := by
  have hnil : entryNames ∅ = [] := by
    refine List.eq_nil_iff_forall_not_mem.mpr fun n hn ↦ ?_
    simpa using (mem_entryNames.mp hn).2
  have hzero : diskEntries ∅ = 0 := by rw [diskEntries, hnil, List.length_nil]
  exact ⟨diskSize_of_no_entries hzero, hzero⟩

theorem length_ret : ([0xc3] : List Byte).length < 2 ^ 64 := by decide

/-- A directory with the entry of a `ret` at address 0x1000. -/
def retDir : Dir := (∅ : Dir).insert (getEntryFilename 0x1000#64)
  ⟨(newHeader 7 0x1000#64 retCode ⟨[0xc3], length_ret⟩ 0#32).encode ++ [0xc3], 7⟩

/-- Guest code other than the stored one. -/
def nopCode : Buffer := ⟨[0x1f, 0x20, 0x03, 0xd5], by decide⟩

end Arm2x86.Pcache
