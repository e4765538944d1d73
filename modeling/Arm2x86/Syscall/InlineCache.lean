import Mathlib.Data.Fin.Tuple.Basic
import Mathlib.Data.List.FinRange
import Mathlib.Data.List.Induction
import Mathlib.Order.OrderDual
import Arm2x86.Base.Bytes
import Arm2x86.Base.Selection

/-!
# The inline cache of indirect branches

`arm2x86_inline_cache_init`, `lookup` and `insert` of `modules/arm2x86_syscall.c:1095`: four slots
from guest to host addresses. A slot without a target has the address 0, which a guest may use too.
-/

namespace Arm2x86.Syscall

/-- `INLINE_CACHE_SIZE`. -/
abbrev inlineCacheSize : Nat := 4

/-- `IndirectCacheEntry`, `arm2x86.h:923`. The null pointer is the address 0. -/
structure IndirectCacheEntry where
  armTarget : BitVec 64
  x86Target : BitVec 64
  hitCount : BitVec 32
deriving DecidableEq

/-- An entry as `memset` leaves it. -/
def IndirectCacheEntry.zero : IndirectCacheEntry := ⟨0, 0, 0⟩

/-- `IndirectBranchCache`, `arm2x86.h:929`. -/
structure IndirectBranchCache where
  entries : Vector IndirectCacheEntry inlineCacheSize
  totalHits : BitVec 32
  totalMisses : BitVec 32

namespace IndirectBranchCache

/-- `arm2x86_inline_cache_init`. -/
def init : IndirectBranchCache := ⟨Vector.replicate _ .zero, 0, 0⟩

/-- `arm2x86_inline_cache_lookup`, `modules/arm2x86_syscall.c:1103`. -/
def lookup (cache : IndirectBranchCache) (armTarget : BitVec 64) :
    BitVec 64 × IndirectBranchCache :=
  match Fin.find? fun i : Fin inlineCacheSize ↦
      cache.entries[i].armTarget = armTarget ∧ cache.entries[i].x86Target ≠ 0 with
  | some i =>
    let entry := cache.entries[i]
    (entry.x86Target, { cache with
      entries := cache.entries.set i { entry with hitCount := entry.hitCount + 1 }
      totalHits := cache.totalHits + 1 })
  | none => (0, { cache with totalMisses := cache.totalMisses + 1 })

/-- The slot that `lru` names after the loop of `arm2x86_inline_cache_insert`. -/
def lru (entries : Vector IndirectCacheEntry inlineCacheSize) : Fin inlineCacheSize :=
  (List.finRange inlineCacheSize).foldl
    (fun lru i ↦ if entries[i].hitCount < entries[lru].hitCount then i else lru) 0

/-- `arm2x86_inline_cache_insert`, `modules/arm2x86_syscall.c:1118`. -/
def insert (cache : IndirectBranchCache) (armTarget x86Entry : BitVec 64) : IndirectBranchCache :=
  if x86Entry = 0 then cache
  else
    match Fin.find? fun i : Fin inlineCacheSize ↦ cache.entries[i].armTarget = armTarget with
    | some i =>
      { cache with
        entries := cache.entries.set i
          { cache.entries[i] with x86Target := x86Entry, hitCount := 0 } }
    | none =>
      { cache with entries := cache.entries.set (lru cache.entries) ⟨armTarget, x86Entry, 0⟩ }

/-- A call of one of the two functions. -/
inductive Call
  | lookup (armTarget : BitVec 64)
  | insert (armTarget x86Entry : BitVec 64)

/-- The cache after a call. -/
def step (cache : IndirectBranchCache) : Call → IndirectBranchCache
  | .lookup armTarget => (cache.lookup armTarget).2
  | .insert armTarget x86Entry => cache.insert armTarget x86Entry

/-- The cache after some calls. -/
def run (calls : List Call) : IndirectBranchCache := calls.foldl step init

/-- The entry of the most recent one of those inserts for an address that count. -/
def mostRecent (counts : BitVec 64 → Bool) (armTarget : BitVec 64) (calls : List Call) :
    Option (BitVec 64) :=
  calls.reverse.findSome? fun
    | .insert t e => if t = armTarget ∧ counts e then some e else none
    | .lookup _ => none

/-- How many of the calls are lookups. -/
def lookups (calls : List Call) : Nat :=
  calls.countP fun
    | .lookup _ => true
    | .insert _ _ => false

/-- What the cache says after some calls, when some inserts count. -/
structure Right (counts : BitVec 64 → Bool) (calls : List Call) : Prop where
  recent : ∀ t, ((run calls).lookup t).1 ≠ 0 →
    mostRecent counts t calls = some ((run calls).lookup t).1
  unique : ∀ i j : Fin inlineCacheSize, (run calls).entries[i].x86Target ≠ 0 →
    (run calls).entries[j].x86Target ≠ 0 →
    (run calls).entries[i].armTarget = (run calls).entries[j].armTarget → i = j
  inserted : ∀ t e, counts e → (((run calls).insert t e).lookup t).1 = e

/-! ## Slots -/

/-- A slot has a target. -/
def Live (cache : IndirectBranchCache) (i : Fin inlineCacheSize) : Prop :=
  cache.entries[i].x86Target ≠ 0

/-- What holds of a cache in use: the slots with a target come first and have different addresses,
the others are as `memset` leaves them. -/
structure Inv (cache : IndirectBranchCache) : Prop where
  front : ∀ i j, i < j → cache.Live j → cache.Live i
  zeroed : ∀ i : Fin inlineCacheSize, ¬ cache.Live i → cache.entries[i] = .zero
  unique : ∀ i j : Fin inlineCacheSize, cache.Live i → cache.Live j →
    cache.entries[i].armTarget = cache.entries[j].armTarget → i = j

/-- The slot that an insert writes. -/
def slot (cache : IndirectBranchCache) (armTarget : BitVec 64) : Fin inlineCacheSize :=
  (Fin.find? fun i : Fin inlineCacheSize ↦ cache.entries[i].armTarget = armTarget).getD (lru cache.entries)

variable {cache : IndirectBranchCache} {t e : BitVec 64} {i j : Fin inlineCacheSize}

theorem inv_init : Inv init := by
  have hzero (i : Fin inlineCacheSize) : init.entries[i] = .zero := by
    simp [init]
  refine ⟨?_, fun i _ ↦ hzero i, ?_⟩
  · intro i j _ hj
    rw [Live, hzero] at hj
    exact absurd rfl hj
  · intro i j hi
    rw [Live, hzero] at hi
    exact absurd rfl hi

/-- No slot that was not hit comes before the one that `lru` names. -/
theorem lru_le (entries : Vector IndirectCacheEntry inlineCacheSize)
    (h : entries[i].hitCount = 0) : lru entries ≤ i := by
  let key (i : Fin inlineCacheSize) : Natᵒᵈ := OrderDual.toDual entries[i].hitCount.toNat
  have hloop : lru entries = Selection.greatest key 0 (List.finRange inlineCacheSize) := rfl
  have hsorted : (0 :: List.finRange inlineCacheSize).Pairwise (· ≤ ·) := by decide
  rw [hloop]
  apply Selection.greatest_le hsorted (List.mem_cons_of_mem _ (List.mem_finRange i))
  show entries[i].hitCount.toNat ≤ _
  rw [h]
  exact Nat.zero_le _

/-- An address that has a target is the one of the slot that an insert for it writes. -/
theorem Inv.eq_slot (h : cache.Inv) (hi : cache.Live i) (ht : cache.entries[i].armTarget = t) :
    i = cache.slot t := by
  unfold slot
  cases hfind : Fin.find? fun i : Fin inlineCacheSize ↦ decide (cache.entries[i].armTarget = t) with
  | none =>
    have hnone := Fin.find?_eq_none_iff.mp hfind i
    exact absurd ht (of_decide_eq_false hnone)
  | some s =>
    obtain ⟨hs, hbefore⟩ := Fin.find?_eq_some_iff.mp hfind
    rw [decide_eq_true_eq] at hs
    have hle : s ≤ i := by
      by_contra hlt
      exact of_decide_eq_false (hbefore i (lt_of_not_ge hlt)) ht
    have hlive : cache.Live s := by
      rcases lt_or_eq_of_le hle with hlt | rfl
      · exact h.front s i hlt hi
      · exact hi
    exact h.unique i s hi hlive (ht.trans hs.symm)

/-- An insert leaves no slot without a target in front. -/
theorem Inv.slot_le (h : cache.Inv) (hi : ¬ cache.Live i) : cache.slot t ≤ i := by
  unfold slot
  cases hfind : Fin.find? fun i : Fin inlineCacheSize ↦ decide (cache.entries[i].armTarget = t) with
  | none =>
    apply lru_le
    rw [h.zeroed i hi]
    rfl
  | some s =>
    obtain ⟨hs, hbefore⟩ := Fin.find?_eq_some_iff.mp hfind
    rw [decide_eq_true_eq] at hs
    by_contra hlt
    have hlt : i < s := lt_of_not_ge hlt
    have hdead : ¬ cache.Live s := fun hlive ↦ hi (h.front i s hlt hlive)
    -- both have the address 0, so the search would have ended at the first one
    have hzero : cache.entries[i].armTarget = t := by
      rw [← hs, h.zeroed i hi, h.zeroed s hdead]
    exact of_decide_eq_false (hbefore i hlt) hzero

/-- Whether the address is there or not, an insert writes one whole entry. -/
theorem insert_eq (cache : IndirectBranchCache) (t : BitVec 64) (he : e ≠ 0) :
    cache.insert t e =
      { cache with entries := cache.entries.set (cache.slot t) ⟨t, e, 0⟩ } := by
  rw [insert, if_neg he]
  split
  · next s hfind =>
    have hs := (Fin.find?_eq_some_iff.mp hfind).1
    rw [decide_eq_true_eq] at hs
    have hslot : s = cache.slot t := by
      rw [slot, hfind, Option.getD_some]
    subst hslot
    dsimp only
    rw [hs]
  · next hfind =>
    have hslot : lru cache.entries = cache.slot t := by
      rw [slot, hfind, Option.getD_none]
    simp only [hslot]

theorem getElem_insert (cache : IndirectBranchCache) (t : BitVec 64) (he : e ≠ 0)
    (i : Fin inlineCacheSize) :
    (cache.insert t e).entries[i] = if i = cache.slot t then ⟨t, e, 0⟩ else cache.entries[i] := by
  rw [insert_eq cache t he]
  by_cases hi : i = cache.slot t
  · subst hi
    simp
  · have hne : (cache.slot t : Nat) ≠ i := fun h ↦ hi (Fin.ext h.symm)
    simp [hi, hne]

theorem Inv.insert (h : cache.Inv) (t e : BitVec 64) : (cache.insert t e).Inv := by
  by_cases he : e = 0
  · rw [IndirectBranchCache.insert, if_pos he]
    exact h
  have hlive (i : Fin inlineCacheSize) :
      (cache.insert t e).Live i ↔ i = cache.slot t ∨ cache.Live i := by
    rw [Live, getElem_insert cache t he]
    by_cases hi : i = cache.slot t
    · simpa [hi] using he
    · simp [hi, Live]
  constructor
  · intro i j hij hj
    rw [hlive] at hj ⊢
    rcases hj with rfl | hj
    · right
      by_contra hi
      exact absurd (h.slot_le hi) (not_le_of_gt hij)
    · exact .inr (h.front i j hij hj)
  · intro i hi
    rw [hlive, not_or] at hi
    rw [getElem_insert cache t he, if_neg hi.1, h.zeroed i hi.2]
  · intro i j hi hj hkey
    rw [hlive] at hi hj
    rw [getElem_insert cache t he, getElem_insert cache t he] at hkey
    by_cases hi' : i = cache.slot t
    · by_cases hj' : j = cache.slot t
      · rw [hi', hj']
      · rw [if_pos hi', if_neg hj'] at hkey
        rw [hi', ← h.eq_slot (hj.resolve_left hj') hkey.symm]
    · rw [if_neg hi'] at hkey
      by_cases hj' : j = cache.slot t
      · rw [if_pos hj'] at hkey
        rw [hj', ← h.eq_slot (hi.resolve_left hi') hkey]
      · rw [if_neg hj'] at hkey
        exact h.unique i j (hi.resolve_left hi') (hj.resolve_left hj') hkey

/-- A lookup changes the count of one slot with a target, at most. -/
theorem getElem_lookup (cache : IndirectBranchCache) (t : BitVec 64) (i : Fin inlineCacheSize) :
    ∃ count, (cache.lookup t).2.entries[i] = { cache.entries[i] with hitCount := count } ∧
      (¬ cache.Live i → count = cache.entries[i].hitCount) := by
  unfold lookup
  split
  · next s hfind =>
    have hs := (Fin.find?_eq_some_iff.mp hfind).1
    rw [decide_eq_true_eq] at hs
    by_cases hi : i = s
    · subst hi
      exact ⟨cache.entries[i].hitCount + 1, by simp, fun hdead ↦ absurd hs.2 hdead⟩
    · have hne : (s : Nat) ≠ i := fun h ↦ hi (Fin.ext h.symm)
      exact ⟨cache.entries[i].hitCount, by simp [hne], fun _ ↦ rfl⟩
  · exact ⟨cache.entries[i].hitCount, rfl, fun _ ↦ rfl⟩

theorem Inv.lookup (h : cache.Inv) (t : BitVec 64) : (cache.lookup t).2.Inv := by
  have hkey (i : Fin inlineCacheSize) :
      (cache.lookup t).2.entries[i].armTarget = cache.entries[i].armTarget := by
    obtain ⟨count, hentry, -⟩ := getElem_lookup cache t i
    rw [hentry]
  have hlive (i : Fin inlineCacheSize) : (cache.lookup t).2.Live i ↔ cache.Live i := by
    obtain ⟨count, hentry, -⟩ := getElem_lookup cache t i
    rw [Live, hentry, Live]
  constructor
  · intro i j hij hj
    rw [hlive] at hj ⊢
    exact h.front i j hij hj
  · intro i hi
    rw [hlive] at hi
    obtain ⟨count, hentry, hcount⟩ := getElem_lookup cache t i
    rw [hentry, hcount hi, ← h.zeroed i hi]
  · intro i j hi hj heq
    rw [hlive] at hi hj
    rw [hkey, hkey] at heq
    exact h.unique i j hi hj heq

/-! ## Answers -/

/-- A slot has an address with its target. -/
def Holds (cache : IndirectBranchCache) (t e : BitVec 64) : Prop :=
  ∃ i : Fin inlineCacheSize, cache.entries[i].armTarget = t ∧ cache.entries[i].x86Target = e

/-- A lookup answers with the target that is there, and with none only when there is none. -/
theorem Inv.lookup_eq_iff (h : cache.Inv) (he : e ≠ 0) :
    (cache.lookup t).1 = e ↔ cache.Holds t e := by
  unfold IndirectBranchCache.lookup
  split
  · next s hfind =>
    have hs := (Fin.find?_eq_some_iff.mp hfind).1
    rw [decide_eq_true_eq] at hs
    constructor
    · intro heq
      exact ⟨s, hs.1, heq⟩
    · rintro ⟨i, hi, rfl⟩
      rw [h.unique i s he hs.2 (hi.trans hs.1.symm)]
  · next hfind =>
    constructor
    · intro heq
      exact absurd heq.symm he
    · rintro ⟨i, hi, rfl⟩
      have hnone := Fin.find?_eq_none_iff.mp hfind i
      exact absurd ⟨hi, he⟩ (of_decide_eq_false hnone)

/-- A lookup forgets nothing. -/
theorem holds_lookup {u : BitVec 64} : (cache.lookup t).2.Holds u e ↔ cache.Holds u e := by
  unfold Holds
  apply exists_congr
  intro i
  obtain ⟨count, hentry, -⟩ := getElem_lookup cache t i
  rw [hentry]

/-- After an insert its address has the new target, and the others have theirs or none. -/
theorem Inv.of_holds_insert (h : cache.Inv) (he : e ≠ 0) {u x : BitVec 64} (hx : x ≠ 0)
    (hholds : (cache.insert t e).Holds u x) : if u = t then x = e else cache.Holds u x := by
  obtain ⟨i, hkey, hvalue⟩ := hholds
  rw [getElem_insert cache t he] at hkey hvalue
  by_cases hi : i = cache.slot t
  · rw [if_pos hi] at hkey hvalue
    rw [if_pos hkey.symm, ← hvalue]
  · rw [if_neg hi] at hkey hvalue
    have hne : u ≠ t := by
      rintro rfl
      apply hi
      apply h.eq_slot _ hkey
      rw [Live, hvalue]
      exact hx
    rw [if_neg hne]
    exact ⟨i, hkey, hvalue⟩

theorem holds_insert (cache : IndirectBranchCache) (t : BitVec 64) (he : e ≠ 0) :
    (cache.insert t e).Holds t e :=
  ⟨cache.slot t, by rw [getElem_insert cache t he, if_pos rfl],
    by rw [getElem_insert cache t he, if_pos rfl]⟩

/-! ## Runs -/

theorem run_concat (calls : List Call) (call : Call) :
    run (calls ++ [call]) = (run calls).step call := List.foldl_concat ..

theorem inv_run (calls : List Call) : (run calls).Inv := by
  induction calls using List.reverseRecOn with
  | nil => exact inv_init
  | append_singleton calls call ih =>
    rw [run_concat]
    cases call with
    | lookup t => exact ih.lookup t
    | insert t e => exact ih.insert t e

/-- The inserts of a target count. -/
def counted (e : BitVec 64) : Bool := e ≠ 0

theorem mostRecent_lookup {counts : BitVec 64 → Bool} (calls : List Call) (t u : BitVec 64) :
    mostRecent counts t (calls ++ [.lookup u]) = mostRecent counts t calls := by
  simp [mostRecent]

theorem mostRecent_insert {counts : BitVec 64 → Bool} (calls : List Call) (t u x : BitVec 64) :
    mostRecent counts t (calls ++ [.insert u x]) =
      if u = t ∧ counts x then some x else mostRecent counts t calls := by
  rw [mostRecent, List.reverse_append, List.reverse_singleton, List.singleton_append,
    List.findSome?_cons]
  dsimp only
  by_cases hcounts : u = t ∧ counts x = true
  · rw [if_pos hcounts, if_pos hcounts]
  · rw [if_neg hcounts, if_neg hcounts, mostRecent]

/-- Every target that is there comes from the most recent insert for its address. -/
theorem mostRecent_of_holds (calls : List Call) (he : e ≠ 0) (h : (run calls).Holds t e) :
    mostRecent counted t calls = some e := by
  induction calls using List.reverseRecOn generalizing t e with
  | nil =>
    obtain ⟨i, -, hvalue⟩ := h
    have hdead : ¬ init.Live i := by simp [Live, init, IndirectCacheEntry.zero]
    rw [← hvalue] at he
    exact absurd he hdead
  | append_singleton calls call ih =>
    rw [run_concat] at h
    cases call with
    | lookup u =>
      rw [mostRecent_lookup]
      exact ih he (holds_lookup.mp h)
    | insert u x =>
      rw [mostRecent_insert]
      by_cases hx : x = 0
      · subst hx
        rw [step, IndirectBranchCache.insert, if_pos rfl] at h
        rw [if_neg (fun hcounts ↦ absurd hcounts.2 (by decide))]
        exact ih he h
      · have hcases := (inv_run calls).of_holds_insert hx he h
        by_cases hu : u = t
        · rw [if_pos hu.symm] at hcases
          rw [if_pos ⟨hu, decide_eq_true hx⟩, hcases]
        · rw [if_neg (Ne.symm hu)] at hcases
          rw [if_neg (fun hcounts ↦ hu hcounts.1)]
          exact ih he hcases

/-- A lookup is counted, as a hit or as a miss. -/
theorem lookup_totals (cache : IndirectBranchCache) (t : BitVec 64) :
    (cache.lookup t).2.totalHits = cache.totalHits + 1 ∧
        (cache.lookup t).2.totalMisses = cache.totalMisses ∨
      (cache.lookup t).2.totalHits = cache.totalHits ∧
        (cache.lookup t).2.totalMisses = cache.totalMisses + 1 := by
  unfold lookup
  split
  · exact .inl ⟨rfl, rfl⟩
  · exact .inr ⟨rfl, rfl⟩

theorem insert_totals (cache : IndirectBranchCache) (t e : BitVec 64) :
    (cache.insert t e).totalHits = cache.totalHits ∧
      (cache.insert t e).totalMisses = cache.totalMisses := by
  by_cases he : e = 0
  · rw [insert, if_pos he]
    exact ⟨rfl, rfl⟩
  · rw [insert_eq cache t he]
    exact ⟨rfl, rfl⟩

/-- The counters grow by one with each lookup, together. -/
theorem totals_run (calls : List Call) :
    ∃ hits misses, hits + misses = lookups calls ∧
      (run calls).totalHits = BitVec.ofNat 32 hits ∧
      (run calls).totalMisses = BitVec.ofNat 32 misses := by
  induction calls using List.reverseRecOn with
  | nil => exact ⟨0, 0, rfl, rfl, rfl⟩
  | append_singleton calls call ih =>
    obtain ⟨hits, misses, hsum, hhits, hmisses⟩ := ih
    rw [run_concat, lookups, List.countP_append, List.countP_singleton, ← lookups, ← hsum]
    cases call with
    | lookup t =>
      rcases lookup_totals (run calls) t with ⟨hhits', hmisses'⟩ | ⟨hhits', hmisses'⟩
      · refine ⟨hits + 1, misses, by rw [if_pos rfl]; omega, ?_, ?_⟩
        · rw [step, hhits', hhits, BitVec.ofNat_add]
          rfl
        · rw [step, hmisses', hmisses]
      · refine ⟨hits, misses + 1, by rw [if_pos rfl]; omega, ?_, ?_⟩
        · rw [step, hhits', hhits]
        · rw [step, hmisses', hmisses, BitVec.ofNat_add]
          rfl
    | insert t e =>
      obtain ⟨hhits', hmisses'⟩ := insert_totals (run calls) t e
      exact ⟨hits, misses, rfl, hhits'.trans hhits, hmisses'.trans hmisses⟩

/-- After any calls the cache is right about the inserts of a target, and its two counters are
together the number of lookups, as far as 32 bits go. -/
theorem run_right (calls : List Call) :
    Right counted calls ∧
      (run calls).totalHits + (run calls).totalMisses = BitVec.ofNat 32 (lookups calls) ∧
      (lookups calls < 2 ^ 32 →
        (run calls).totalHits.toNat + (run calls).totalMisses.toNat = lookups calls) := by
  have hinv := inv_run calls
  obtain ⟨hits, misses, hsum, hhits, hmisses⟩ := totals_run calls
  refine ⟨⟨?_, hinv.unique, ?_⟩, ?_, ?_⟩
  · intro t ht
    exact mostRecent_of_holds calls ht ((hinv.lookup_eq_iff ht).mp rfl)
  · intro t e he
    have he : e ≠ 0 := by simpa [counted] using he
    exact ((hinv.insert t e).lookup_eq_iff he).mpr (holds_insert _ t he)
  · rw [hhits, hmisses, ← hsum, BitVec.ofNat_add]
  · intro hless
    rw [hhits, hmisses, BitVec.toNat_ofNat, BitVec.toNat_ofNat, ← hsum]
    omega

/-- Lookups in an empty cache are misses. -/
theorem run_replicate_lookup (n : Nat) (t : BitVec 64) :
    run (List.replicate n (.lookup t)) = { init with totalMisses := BitVec.ofNat 32 n } := by
  induction n with
  | zero => rfl
  | succ n ih =>
    rw [List.replicate_succ', run_concat, ih, step, lookup]
    split
    · next i hfind =>
      have hi := (Fin.find?_eq_some_iff.mp hfind).1
      rw [decide_eq_true_eq] at hi
      exact absurd (by simp [init, IndirectCacheEntry.zero]) hi.2
    · rw [BitVec.ofNat_add]
      rfl

/-- An insert without a target leaves the one before it, and after `2 ^ 32` misses the counters are
zero again. -/
theorem null_insert_not_right :
    ¬ Right (fun _ ↦ true) [.insert 0x1000 5, .insert 0x1000 0] ∧
      (run (List.replicate (2 ^ 32) (.lookup 0x1000))).totalHits.toNat +
          (run (List.replicate (2 ^ 32) (.lookup 0x1000))).totalMisses.toNat ≠
        lookups (List.replicate (2 ^ 32) (.lookup 0x1000)) := by
  constructor
  · intro h
    have hrecent := h.recent 0x1000 (by decide)
    revert hrecent
    decide
  · obtain ⟨n, hn⟩ : ∃ n : Nat, n = 2 ^ 32 := ⟨_, rfl⟩
    rw [← hn, run_replicate_lookup, lookups, List.countP_replicate, if_pos rfl]
    dsimp only
    rw [hn]
    decide

end IndirectBranchCache

end Arm2x86.Syscall
