import Arm2x86.Base.Shedding
import Arm2x86.Pcache.Accounting

/-!
# Eviction

`arm2x86_pcache_cleanup` (`modules/arm2x86_pcache.c:512`) against its purpose: the entries with
the oldest access go until the rest is small enough. Its table has 1000 places and the listing is
not cut off there, and a file that cannot be unlinked is passed over for the next one.
-/

namespace Arm2x86.Pcache

open Shedding

/-- A round of the exchange sort brings an entry of least access time to the front. -/
theorem exchangeRound_le (x : EntryInfo) (xs : List EntryInfo) :
    (exchangeRound x xs).1.atime ≤ x.atime ∧
      ∀ y ∈ (exchangeRound x xs).2, (exchangeRound x xs).1.atime ≤ y.atime := by
  induction xs generalizing x with
  | nil => exact ⟨Nat.le_refl _, fun y hy ↦ by cases hy⟩
  | cons y ys ih =>
    rw [exchangeRound]
    split
    · next hlt =>
      obtain ⟨hfront, hrest⟩ := ih y
      have hx : (exchangeRound y ys).1.atime ≤ x.atime := by omega
      exact ⟨hx, List.forall_mem_cons.mpr ⟨hx, hrest⟩⟩
    · next hle =>
      obtain ⟨hfront, hrest⟩ := ih x
      have hy : (exchangeRound x ys).1.atime ≤ y.atime := by omega
      exact ⟨hfront, List.forall_mem_cons.mpr ⟨hy, hrest⟩⟩

/-- The exchange sort sorts by access time. -/
theorem exchangeSort_sorted {n : Nat} {xs : List EntryInfo} (h : xs.length ≤ n) :
    (exchangeSort n xs).Pairwise fun e e' ↦ e.atime ≤ e'.atime := by
  induction n generalizing xs with
  | zero =>
    rw [List.length_eq_zero_iff.mp (Nat.le_zero.mp h)]
    exact List.Pairwise.nil
  | succ n ih =>
    cases xs with
    | nil => exact List.Pairwise.nil
    | cons x xs =>
      have hlen := (exchangeRound_perm x xs).length_eq
      rw [List.length_cons, List.length_cons] at hlen
      rw [List.length_cons] at h
      rw [exchangeSort]
      apply List.Pairwise.cons
      · intro y hy
        exact (exchangeRound_le x xs).2 y ((exchangeSort_perm n _).mem_iff.mp hy)
      · exact ih (by omega)

/-- The entries of a directory, oldest access first. -/
def accessOrder (env : Env) (dir : Dir) : List EntryInfo :=
  exchangeSort (listEntries dir (env.readdir dir)).length (listEntries dir (env.readdir dir))

section accessOrder

variable (env : Env) (dir : Dir)

theorem accessOrder_perm : (accessOrder env dir).Perm (listEntries dir (env.readdir dir)) :=
  exchangeSort_perm _ _

theorem accessOrder_sorted :
    (accessOrder env dir).Pairwise fun e e' ↦ e.atime ≤ e'.atime :=
  exchangeSort_sorted (Nat.le_refl _)

theorem accessOrder_names : ((accessOrder env dir).map EntryInfo.name).Perm (entryNames dir) :=
  ((accessOrder_perm env dir).map EntryInfo.name).trans (listEntries_spec env dir).1

theorem accessOrder_nodup : ((accessOrder env dir).map EntryInfo.name).Nodup :=
  (accessOrder_names env dir).nodup_iff.mpr (nodup_entryNames dir)

theorem accessOrder_file : ∀ e ∈ accessOrder env dir, isEntryName e.name = true ∧
    ∃ file, dir[e.name]? = some file ∧ e.size = file.bytes.length := fun e he ↦
  (listEntries_spec env dir).2 e ((accessOrder_perm env dir).mem_iff.mp he)

theorem accessOrder_atime {e : EntryInfo} (he : e ∈ accessOrder env dir) {file : File}
    (hfile : dir[e.name]? = some file) : e.atime = file.atime := by
  obtain ⟨name, -, hmap⟩ := List.mem_filterMap.mp ((accessOrder_perm env dir).mem_iff.mp he)
  obtain ⟨file', hfile', rfl⟩ := Option.map_eq_some_iff.mp hmap
  rw [hfile', Option.some.injEq] at hfile
  rw [hfile]

/-- The entries hold what the directory holds. -/
theorem load_accessOrder : load EntryInfo.size (accessOrder env dir) = diskSize dir :=
  (load_perm (accessOrder_perm env dir)).trans (sum_listEntries env dir).1

end accessOrder

/-- A directory without some files. -/
def without (dir : Dir) (gone : List EntryInfo) : Dir :=
  gone.foldl (fun dir e ↦ dir.erase e.name) dir

theorem getElem?_without (dir : Dir) (gone : List EntryInfo) (name : String) :
    (without dir gone)[name]? =
      if name ∈ gone.map EntryInfo.name then none else dir[name]? := by
  unfold without
  induction gone generalizing dir with
  | nil => rfl
  | cons e gone ih =>
    rw [List.foldl_cons, ih, getElem?_dir_erase, List.map_cons]
    by_cases hrest : name ∈ gone.map EntryInfo.name
    · rw [if_pos hrest, if_pos (List.mem_cons_of_mem _ hrest)]
    · by_cases hname : e.name = name
      · rw [if_neg hrest, if_pos hname, if_pos (hname ▸ List.mem_cons_self)]
      · rw [if_neg hrest, if_neg hname, if_neg]
        rw [List.mem_cons]
        rintro (h | h)
        · exact hname h.symm
        · exact hrest h

/-- Whether the file of an entry can be unlinked. -/
def removable (env : Env) (e : EntryInfo) : Bool := env.unlink e.name

/-- The entries of a list that a cleanup removes when it counts down from `total` to `target`. -/
def evictedOf (env : Env) (target total : Nat) (es : List EntryInfo) : List EntryInfo :=
  shed EntryInfo.size sizeSub target total (es.filter (removable env))

/-- The entries a cleanup removes from a directory. -/
def evictions (env : Env) (dir : Dir) (target total : Nat) : List EntryInfo :=
  evictedOf env target total (accessOrder env dir)

/-- The removal of the oldest entries, file by file. -/
theorem removeOldest_eq (env : Env) (target : Nat) (es : List EntryInfo) (total removed : Nat)
    (dir : Dir) (hnd : (es.map EntryInfo.name).Nodup)
    (hes : ∀ e ∈ es, dir[e.name]?.isSome = true) :
    removeOldest env target es (total, removed, dir) =
      ((evictedOf env target total es).foldl (fun t e ↦ sizeSub t e.size) total,
        removed + (evictedOf env target total es).length,
        without dir (evictedOf env target total es)) := by
  unfold evictedOf
  induction es generalizing total removed dir with
  | nil => rfl
  | cons e es ih =>
    rw [List.map_cons, List.nodup_cons] at hnd
    have hin := hes e List.mem_cons_self
    have hes' : ∀ e' ∈ es, dir[e'.name]?.isSome = true := fun e' he' ↦
      hes e' (List.mem_cons_of_mem e he')
    rw [removeOldest]
    by_cases hlt : target < total
    · rw [if_pos hlt]
      by_cases hunlink : env.unlink e.name = true
      · have hrest : ∀ e' ∈ es, (dir.erase e.name)[e'.name]?.isSome = true := by
          intro e' he'
          have hne : e.name ≠ e'.name := fun h ↦ hnd.1 (h ▸ List.mem_map_of_mem he')
          rw [getElem?_dir_erase, if_neg hne]
          exact hes' e' he'
        rw [List.filter_cons_of_pos (p := removable env) hunlink, shed_cons_of_lt hlt, hin, Bool.true_and, if_pos hunlink,
          ih _ _ _ hnd.2 hrest]
        simp only [List.foldl_cons, List.length_cons, without, Prod.mk.injEq, and_true, true_and]
        omega
      · rw [List.filter_cons_of_neg (p := removable env) hunlink, hin, Bool.true_and, if_neg hunlink,
          ih _ _ _ hnd.2 hes']
    · rw [if_neg hlt, shed_of_le (Nat.not_lt.mp hlt)]
      rfl

theorem sizeSub_eq {a b : Nat} (ha : a < 2 ^ 64) (hb : b ≤ a) : sizeSub a b = a - b := by
  unfold sizeSub
  omega

/-- The size a cleanup aims at. -/
def cleanupTarget (c : Cache) (targetSize : Nat) : Nat :=
  if targetSize = 0 then c.config.maxSizeBytes / 2 else targetSize

theorem le_cleanupTarget (c : Cache) (targetSize : Nat) :
    targetSize ≤ cleanupTarget c targetSize := by
  unfold cleanupTarget
  split <;> omega

/-- The cache after the removal of some entries. -/
def Cache.evict (c : Cache) (env : Env) (gone : List EntryInfo) : Cache :=
  { c with
    totalSize := gone.foldl (fun t e ↦ sizeSub t e.size) c.totalSize
    dir := without c.dir gone
    stats := { c.stats with
      totalEntries := sizeSub c.stats.totalEntries gone.length
      evictions := sizeAdd c.stats.evictions gone.length
      lastCleanupTime := env.now } }

variable {env : Env} {c : Cache} {targetSize : Nat}

/-- A cleanup has nothing to do, cannot read the directory, writes outside of its table, or
removes its evictions. -/
theorem pcacheCleanup_eq (env : Env) (c : Cache) (targetSize : Nat) :
    pcacheCleanup env c targetSize =
      if c.totalSize ≤ cleanupTarget c targetSize then some (.ok 0, c)
      else if env.opendir = false then some (.error .io, c)
      else if tableHolds env (diskEntries c.dir) = false then none
      else
        let gone := evictions env c.dir (cleanupTarget c targetSize) c.totalSize
        some (.ok gone.length, c.evict env gone) := by
  have hlength := (sum_listEntries env c.dir).2
  have hremove := removeOldest_eq env (cleanupTarget c targetSize) (accessOrder env c.dir)
    c.totalSize 0 c.dir (accessOrder_nodup env c.dir) fun e he ↦ by
      obtain ⟨-, file, hfile, -⟩ := accessOrder_file env c.dir e he
      rw [hfile]
      rfl
  unfold accessOrder cleanupTarget at hremove
  simp only [pcacheCleanup, Bool.not_eq_true']
  rw [hremove, ← hlength, Nat.zero_add]
  rfl

theorem evictions_removable (env : Env) (dir : Dir) (target total : Nat) :
    ∀ e ∈ evictions env dir target total, e ∈ accessOrder env dir ∧ env.unlink e.name = true :=
  fun e he ↦ by
    have hmem := (shed_isPrefix sizeSub target total _).subset he
    exact ⟨(List.mem_filter.mp hmem).1, (List.mem_filter.mp hmem).2⟩

/-- What a cleanup is for: of the entries by access time, the shortest prefix goes that brings the
counter to the target, the result is its length, and its size leaves the counter. -/
def CleansUp (env : Env) (c : Cache) (targetSize : Nat) : Prop :=
  ∃ gone c', Shed EntryInfo.size targetSize c.totalSize (accessOrder env c.dir) gone ∧
    pcacheCleanup env c targetSize = some (.ok gone.length, c') ∧
    (∀ name : String, c'.dir[name]? =
      if name ∈ gone.map EntryInfo.name then none else c.dir[name]?) ∧
    c'.totalSize + load EntryInfo.size gone = c.totalSize

/-- A directory that can be read into the table, and from which these entries can be removed and
taken off the counter. -/
structure Cleanable (env : Env) (c : Cache) (gone : List EntryInfo) : Prop where
  opendir : env.opendir = true
  table : tableHolds env (diskEntries c.dir) = true
  unlink : ∀ e ∈ gone, env.unlink e.name = true
  counted : load EntryInfo.size gone ≤ c.totalSize

theorem sizeSub_exact {total : Nat} (h : total < 2 ^ 64) :
    ∀ a ≤ total, ∀ b ≤ a, sizeSub a b = a - b := fun _ ha _ hb ↦ sizeSub_eq (by omega) hb

/-- The evictions are the prefix that should go, if all of it can. -/
theorem Cleanable.evictions_eq {gone : List EntryInfo} {target : Nat}
    (hsize : c.totalSize < 2 ^ 64) (h : Cleanable env c gone)
    (hshed : Shed EntryInfo.size target c.totalSize (accessOrder env c.dir) gone) :
    evictions env c.dir target c.totalSize = gone := by
  have hgone := shed_iff.mp hshed
  have hexact : shed EntryInfo.size sizeSub target c.totalSize (accessOrder env c.dir) = gone := by
    rw [hgone]
    apply shed_congr (sizeSub_exact hsize)
    right
    rw [← hgone]
    exact h.counted
  rw [evictions, evictedOf, shed_filter, hexact]
  rw [hexact]
  exact h.unlink

/-- If the removed entries are the prefix that should go for a lower target, they are the one for
the target of the loop. -/
theorem shed_of_evictions {gone : List EntryInfo} {target target' : Nat}
    (hsize : c.totalSize < 2 ^ 64) (hle : target' ≤ target)
    (hshed : Shed EntryInfo.size target' c.totalSize (accessOrder env c.dir) gone)
    (hgone : evictions env c.dir target c.totalSize = gone)
    (hcounted : load EntryInfo.size gone ≤ c.totalSize) :
    Shed EntryInfo.size target c.totalSize (accessOrder env c.dir) gone := by
  have hexact : gone = shed EntryInfo.size (· - ·) target c.totalSize
      ((accessOrder env c.dir).filter (removable env)) := by
    rw [← hgone]
    apply shed_congr (sizeSub_exact hsize)
    left
    rw [← evictedOf, ← evictions, hgone]
    exact hcounted
  have hspec := shed_iff.mpr hexact
  refine ⟨hshed.isPrefix, ?_, fun ys hys hlen ↦ ?_⟩
  · rcases hshed.enough with henough | hall
    · exact .inl (by omega)
    · exact .inr hall
  · -- a shorter prefix is one of the removable entries, too
    apply hspec.shortest ys _ hlen
    exact (List.prefix_of_prefix_length_le hys hshed.isPrefix (by omega)).trans hspec.isPrefix

/-- The removed entries are the prefix that should go, if its files and no more of them are
missing afterwards. -/
theorem evictions_eq_of_dir {gone : List EntryInfo} {target : Nat}
    (hfront : gone <+: accessOrder env c.dir)
    (hlen : (evictions env c.dir target c.totalSize).length = gone.length)
    (hdir : ∀ name : String, (without c.dir (evictions env c.dir target c.totalSize))[name]? =
      if name ∈ gone.map EntryInfo.name then none else c.dir[name]?) :
    evictions env c.dir target c.totalSize = gone := by
  have hunlink : ∀ e ∈ gone, removable env e = true := by
    intro e he
    obtain ⟨-, file, hfile, -⟩ := accessOrder_file env c.dir e (hfront.subset he)
    have hmissing := hdir e.name
    rw [if_pos (List.mem_map_of_mem he), getElem?_without, hfile] at hmissing
    by_cases hmem : e.name ∈ (evictions env c.dir target c.totalSize).map EntryInfo.name
    · obtain ⟨e', he', hname⟩ := List.mem_map.mp hmem
      rw [removable, ← hname]
      exact (evictions_removable env c.dir target c.totalSize e' he').2
    · rw [if_neg hmem] at hmissing
      cases hmissing
  have hsame : gone <+: (accessOrder env c.dir).filter (removable env) := by
    have := hfront.filter (removable env)
    rwa [List.filter_eq_self.mpr hunlink] at this
  have hevict : evictions env c.dir target c.totalSize <+:
      (accessOrder env c.dir).filter (removable env) := shed_isPrefix _ _ _ _
  exact (List.prefix_of_prefix_length_le hevict hsame (Nat.le_of_eq hlen)).eq_of_length hlen

/-- A cleanup does its work exactly if the target it takes for `target_size` asks for the same
entries and either there is nothing to do or the directory is cleanable. The order is by access
time. -/
theorem pcacheCleanup_iff (env : Env) (c : Cache) (targetSize : Nat)
    (hsize : c.totalSize < 2 ^ 64) :
    ((accessOrder env c.dir).Perm (listEntries c.dir (env.readdir c.dir)) ∧
      (accessOrder env c.dir).Pairwise fun e e' ↦ e.atime ≤ e'.atime) ∧
    (CleansUp env c targetSize ↔ ∃ gone,
      Shed EntryInfo.size targetSize c.totalSize (accessOrder env c.dir) gone ∧
      Shed EntryInfo.size (cleanupTarget c targetSize) c.totalSize (accessOrder env c.dir) gone ∧
      (c.totalSize ≤ cleanupTarget c targetSize ∨ Cleanable env c gone)) := by
  refine ⟨⟨accessOrder_perm env c.dir, accessOrder_sorted env c.dir⟩, ?_, ?_⟩
  · rintro ⟨gone, c', hshed, hrun, hdir, htotal⟩
    refine ⟨gone, hshed, ?_⟩
    rw [pcacheCleanup_eq] at hrun
    split at hrun
    · next hle =>
      have hnil : gone = [] := by
        rw [Option.some.injEq, Prod.mk.injEq, Except.ok.injEq] at hrun
        exact List.length_eq_zero_iff.mp hrun.1.symm
      refine ⟨?_, .inl hle⟩
      rw [hnil, shed_iff, shed_of_le hle]
    split at hrun
    · cases hrun
    next hopen =>
    split at hrun
    · cases hrun
    next htable =>
    obtain ⟨hlen, rfl⟩ := Prod.mk.inj (Option.some.inj hrun)
    have hgone := evictions_eq_of_dir hshed.isPrefix (Except.ok.inj hlen) hdir
    have hcounted : load EntryInfo.size gone ≤ c.totalSize := by omega
    refine ⟨shed_of_evictions hsize (le_cleanupTarget c targetSize) hshed hgone hcounted, .inr ?_⟩
    constructor
    · exact Bool.of_not_eq_false hopen
    · exact Bool.of_not_eq_false htable
    · intro e he
      rw [← hgone] at he
      exact (evictions_removable env c.dir _ _ e he).2
    · exact hcounted
  · rintro ⟨gone, hshed, htarget, hcan⟩
    by_cases hle : c.totalSize ≤ cleanupTarget c targetSize
    · have hnil : gone = [] := by
        rw [shed_iff.mp htarget, shed_of_le hle]
      refine ⟨gone, c, hshed, ?_, ?_, ?_⟩
      · rw [pcacheCleanup_eq, if_pos hle, hnil]
        rfl
      · intro name
        rw [hnil]
        rfl
      · rw [hnil]
        rfl
    · have hclean := hcan.resolve_left hle
      have hgone := hclean.evictions_eq hsize htarget
      refine ⟨gone, c.evict env gone, hshed, ?_, getElem?_without c.dir gone, ?_⟩
      · rw [pcacheCleanup_eq, if_neg hle, hclean.opendir, hclean.table, hgone]
        rfl
      · have hcounted := hclean.counted
        change gone.foldl (fun t e ↦ sizeSub t e.size) c.totalSize + _ = _
        rw [foldl_sub (sizeSub_exact hsize) hcounted]
        omega

/-- A directory with entry files of `size` bytes for the first `n` addresses. -/
def numbered (size n : Nat) : Dir :=
  (List.range n).foldl (fun dir i ↦
    dir.insert (getEntryFilename (BitVec.ofNat 64 i)) ⟨List.replicate size 0#8, i⟩) ∅

theorem disk_numbered (size n : Nat) (h : n ≤ 2 ^ 64) :
    diskSize (numbered size n) = n * size ∧ diskEntries (numbered size n) = n ∧
      ∀ i, n ≤ i → i < 2 ^ 64 → (numbered size n)[getEntryFilename (BitVec.ofNat 64 i)]? = none := by
  induction n with
  | zero =>
    refine ⟨disk_empty.1.trans (Nat.zero_mul size).symm, disk_empty.2, fun i _ _ ↦ ?_⟩
    exact Std.ExtTreeMap.getElem?_empty
  | succ n ih =>
    obtain ⟨hsize, hentries, habsent⟩ := ih (by omega)
    have hstep : numbered size (n + 1) = (numbered size n).insert
        (getEntryFilename (BitVec.ofNat 64 n)) ⟨List.replicate size 0#8, n⟩ := by
      rw [numbered, List.range_succ, List.foldl_append]
      rfl
    obtain ⟨hsize', hentries'⟩ := disk_insert ⟨List.replicate size 0#8, n⟩
      (isEntryName_getEntryFilename (BitVec.ofNat 64 n)) (habsent n (Nat.le_refl n) (by omega))
    rw [hstep]
    refine ⟨?_, ?_, fun i hi hlt ↦ ?_⟩
    · rw [hsize', hsize, List.length_replicate, Nat.succ_mul, Nat.add_comm]
    · rw [hentries', hentries]
    · have hne : getEntryFilename (BitVec.ofNat 64 n) ≠ getEntryFilename (BitVec.ofNat 64 i) := by
        intro hname
        have hsame := congrArg BitVec.toNat (getEntryFilename_inj hname)
        rw [BitVec.toNat_ofNat, BitVec.toNat_ofNat] at hsame
        omega
      rw [getElem?_dir_insert, if_neg hne, habsent i (by omega) hlt]

/-- Every file of such a directory is one of these, and its access time is its address. -/
theorem getElem?_numbered {size n : Nat} {name : String} {file : File}
    (h : (numbered size n)[name]? = some file) :
    ∃ i < n, name = getEntryFilename (BitVec.ofNat 64 i) ∧ file = ⟨List.replicate size 0#8, i⟩ := by
  induction n with
  | zero =>
    have hnone : (∅ : Dir)[name]? = none := Std.ExtTreeMap.getElem?_empty
    change (∅ : Dir)[name]? = some file at h
    rw [hnone] at h
    cases h
  | succ n ih =>
    rw [numbered, List.range_succ, List.foldl_append, List.foldl_cons, List.foldl_nil,
      getElem?_dir_insert] at h
    split at h
    · next hname => exact ⟨n, Nat.lt_succ_self n, hname.symm, (Option.some.inj h).symm⟩
    · obtain ⟨i, hi, hfile⟩ := ih h
      exact ⟨i, by omega, hfile⟩

/-- A cache with these files and a counter that is right. -/
def Cache.numbered (size n : Nat) : Cache :=
  { Cache.empty with
    totalSize := n * size
    dir := Pcache.numbered size n }

theorem disk_cacheNumbered (size n : Nat) (h : n ≤ 2 ^ 64) :
    (Cache.numbered size n).totalSize = diskSize (Cache.numbered size n).dir ∧
      diskEntries (Cache.numbered size n).dir = n :=
  ⟨(disk_numbered size n h).1.symm, (disk_numbered size n h).2.1⟩

/-- The removal of a single entry of two bytes. -/
theorem pcacheCleanup_iff_single : CleansUp (.granting 7) (.numbered 2 1) 1 := by
  obtain ⟨hsize, hentries⟩ := disk_cacheNumbered 2 1 (by omega)
  apply ((pcacheCleanup_iff (.granting 7) (.numbered 2 1) 1 (by decide)).2).mpr
  set order := accessOrder (.granting 7) (Cache.numbered 2 1).dir with horder
  have hload : load EntryInfo.size order = 2 := (load_accessOrder _ _).trans hsize.symm
  have hlength : order.length = 1 := by
    have hlen := (accessOrder_names (.granting 7) (Cache.numbered 2 1).dir).length_eq
    rw [List.length_map] at hlen
    exact hlen.trans hentries
  have hshed : Shed EntryInfo.size 1 (Cache.numbered 2 1).totalSize order order := by
    refine ⟨List.prefix_rfl, .inr rfl, fun ys _ hlen ↦ ?_⟩
    obtain rfl : ys = [] := List.length_eq_zero_iff.mp (by omega)
    exact Nat.lt_succ_self 1
  refine ⟨order, hshed, hshed, .inr ⟨rfl, ?_, fun _ _ ↦ rfl, ?_⟩⟩
  · rw [hentries]
    rfl
  · exact Nat.le_of_eq hload

/-- A directory with 1001 entry files, all removable and right on the counter, overruns the
table. -/
theorem pcacheCleanup_overrun :
    (Cache.numbered 1 1001).totalSize = diskSize (Cache.numbered 1 1001).dir ∧
      diskEntries (Cache.numbered 1 1001).dir = 1001 ∧
      pcacheCleanup (.granting 7) (.numbered 1 1001) 1 = none ∧
      ¬ CleansUp (.granting 7) (.numbered 1 1001) 1 := by
  obtain ⟨hsize, hentries⟩ := disk_cacheNumbered 1 1001 (by omega)
  have hnone : pcacheCleanup (.granting 7) (.numbered 1 1001) 1 = none := by
    have htable : tableHolds (.granting 7) (diskEntries (Cache.numbered 1 1001).dir) = false := by
      rw [hentries]
      rfl
    rw [pcacheCleanup_eq, htable]
    rfl
  refine ⟨hsize, hentries, hnone, ?_⟩
  rintro ⟨gone, c', -, hrun, -⟩
  rw [hnone] at hrun
  cases hrun

end Arm2x86.Pcache
