import Mathlib.Algebra.BigOperators.Group.List.Basic
import Mathlib.Data.Int.Init
import Mathlib.Data.List.Range
import Mathlib.Tactic.Linarith

/-!
# The partition of a parallel batch

`arm2x86_translate_batch_parallel`, `modules/arm2x86_easy.c:1148`: the blocks of a batch are split
into one range of indices a worker thread. The threads are created in one loop and joined in
another; the answers of `pthread_create` are not looked at.
-/

namespace Arm2x86.Easy

/-- The result of `int` arithmetic on the host. -/
def toInt32 (x : Int) : Int := x.bmod (2 ^ 32)

/-- The limits on `num_threads`. -/
def workerCount (count numThreads : Int) : Int :=
  let n := if numThreads > count then count else numThreads
  if n > 16 then 16 else n

/-- `chunk_size`. -/
def chunkSize (count n : Int) : Int := (toInt32 (toInt32 (count + n) - 1)).tdiv n

/-- The indices of a worker, from `start_idx` to below `end_idx`. -/
structure WorkerRange where
  startIdx : Int
  endIdx : Int
deriving DecidableEq, Repr

namespace WorkerRange

def Contains (r : WorkerRange) (i : Int) : Prop := r.startIdx ≤ i ∧ i < r.endIdx

/-- `local_success`: the number of blocks of the range that were translated. -/
def successes (r : WorkerRange) (translated : Int → Bool) : Int :=
  ((List.range (r.endIdx - r.startIdx).toNat).countP fun k ↦ translated (r.startIdx + k) : Nat)

end WorkerRange

/-- The range of one turn of the creating loop; `none` is its early exit. -/
def rangeAt (count n chunk : Int) (t : Nat) : Option WorkerRange :=
  let start := toInt32 (t * chunk)
  let stop := if (t : Int) = n - 1 then count else toInt32 (start + chunk)
  if start ≥ stop then none else some ⟨start, stop⟩

/-- The creating loop, with the turns left and the number of the turn. -/
def createLoop (count n chunk : Int) : Nat → Nat → List WorkerRange
  | 0, _ => []
  | fuel + 1, t =>
    match rangeAt count n chunk t with
    | none => []
    | some r => r :: createLoop count n chunk fuel (t + 1)

/-- What a parallel batch does: the ranges it hands out, the threads that came to life, the
threads it joins, what each thread counted, and the number it returns. -/
structure Batch where
  ranges : List WorkerRange
  created : List Nat
  joined : List Nat
  successCounts : Nat → Int
  total : Int

/-- `arm2x86_translate_batch_parallel` for more than one thread; `create` are the answers of
`pthread_create`. The counts start at zero, so their test lets every thread pass. -/
def translateBatchParallel (count numThreads : Int) (create : Nat → Bool) (translated : Int → Bool) :
    Batch :=
  let n := workerCount count numThreads
  let ranges := createLoop count n (chunkSize count n) n.toNat 0
  let created := (List.range ranges.length).filter create
  let successCounts : Nat → Int := fun t ↦
    if created.contains t then ((ranges[t]?.map fun r ↦ r.successes translated).getD 0) else 0
  let joined := (List.range n.toNat).filter fun t : Nat ↦ decide (0 ≤ successCounts t)
  { ranges, created, joined, successCounts, total := (joined.map successCounts).sum }

/-- The ranges are a partition of the batch, exactly the created threads are joined, and the result
is the sum of their counts. -/
structure Batch.Correct (b : Batch) (count : Int) : Prop where
  disjoint : b.ranges.Pairwise fun r s ↦ ∀ i, ¬ (r.Contains i ∧ s.Contains i)
  inside : ∀ r ∈ b.ranges, 0 ≤ r.startIdx ∧ r.endIdx ≤ count
  covers : ∀ i, 0 ≤ i → i < count → ∃ r ∈ b.ranges, r.Contains i
  joined : b.joined = b.created
  total : b.total = (b.created.map b.successCounts).sum

section Arithmetic

variable {count numThreads n chunk : Int}

theorem workerCount_bounds (hcount : 1 ≤ count) (hthreads : 2 ≤ numThreads) :
    1 ≤ workerCount count numThreads ∧ workerCount count numThreads ≤ 16 ∧
      workerCount count numThreads ≤ count := by
  unfold workerCount
  dsimp only
  split <;> split <;> omega

theorem toInt32_of_range {x : Int} (h : -2 ^ 31 ≤ x) (h' : x < 2 ^ 31) : toInt32 x = x := by
  unfold toInt32
  rw [Int.bmod_eq_of_le] <;> omega

theorem chunkSize_eq (hn : 1 ≤ n) (hcount : n ≤ count) (hfit : count + n - 1 < 2 ^ 31) :
    chunkSize count n = (count + n - 1) / n := by
  have hwrap : toInt32 (toInt32 (count + n) - 1) = count + n - 1 := by
    unfold toInt32 Int.bmod
    dsimp only
    split <;> split <;> omega
  unfold chunkSize
  rw [hwrap, Int.tdiv_eq_ediv_of_nonneg (by omega)]

/-- `n` chunks hold the batch, and fewer than `n` of them do not reach far beyond it. -/
theorem chunkSize_spec (hn : 1 ≤ n) (hcount : n ≤ count) (hfit : count + n - 1 < 2 ^ 31) :
    1 ≤ chunkSize count n ∧ count ≤ n * chunkSize count n ∧
      n * chunkSize count n ≤ count + n - 1 := by
  rw [chunkSize_eq hn hcount hfit]
  have hdiv := Int.mul_ediv_add_emod (count + n - 1) n
  have hlt := Int.emod_lt_of_pos (count + n - 1) (by omega : 0 < n)
  have hnn := Int.emod_nonneg (count + n - 1) (by omega : n ≠ 0)
  have hone : 1 ≤ (count + n - 1) / n := Int.le_ediv_of_mul_le (by omega) (by omega)
  omega

/-- When the sum for the rounding leaves the range of `int`, the chunk is negative. -/
theorem chunkSize_neg (hn : 2 ≤ n) (hn' : n ≤ 16) (hcount : count < 2 ^ 31)
    (hover : 2 ^ 31 ≤ count + n - 1) : chunkSize count n < 0 ∧ -2 ^ 31 ≤ chunkSize count n := by
  have hwrap : toInt32 (toInt32 (count + n) - 1) = count + n - 1 - 2 ^ 32 := by
    unfold toInt32 Int.bmod
    dsimp only
    split <;> split <;> omega
  have hneg : count + n - 1 - 2 ^ 32 = -(2 ^ 32 - (count + n - 1)) := by omega
  unfold chunkSize
  rw [hwrap, hneg, Int.neg_tdiv, Int.tdiv_eq_ediv_of_nonneg (by omega)]
  have hlo : 1 ≤ (2 ^ 32 - (count + n - 1)) / n := Int.le_ediv_of_mul_le (by omega) (by omega)
  have hhi := Int.ediv_le_self n (by omega : 0 ≤ 2 ^ 32 - (count + n - 1))
  omega

end Arithmetic

section Ranges

variable {count n chunk : Int}

/-- The range a turn hands out when the numbers stay in the range of `int`. -/
def plainRange (count n chunk : Int) (t : Nat) : WorkerRange :=
  ⟨t * chunk, if (t : Int) = n - 1 then count else (t + 1) * chunk⟩

/-- A turn before the last always hands out a range; the last one only if something is left. -/
theorem rangeAt_eq (hn : 1 ≤ n) (hcount : n ≤ count) (hfit : count + n - 1 < 2 ^ 31) {t : Nat}
    (ht : (t : Int) < n) :
    rangeAt count n (chunkSize count n) t =
      if (t : Int) = n - 1 ∧ count ≤ (n - 1) * chunkSize count n then none
      else some (plainRange count n (chunkSize count n) t) := by
  obtain ⟨hpos, hle, hge⟩ := chunkSize_spec hn hcount hfit
  set chunk := chunkSize count n
  have hlast : (n - 1) * chunk = n * chunk - chunk := by rw [Int.sub_mul, Int.one_mul]
  have hnext : ((t : Int) + 1) * chunk = t * chunk + chunk := by rw [Int.add_mul, Int.one_mul]
  have hstart : 0 ≤ t * chunk := Int.mul_nonneg (by omega) (by omega)
  have hstart' : t * chunk ≤ (n - 1) * chunk :=
    Int.mul_le_mul_of_nonneg_right (by omega) (by omega)
  unfold rangeAt plainRange
  rw [toInt32_of_range (by omega) (by omega)]
  dsimp only
  by_cases ht' : (t : Int) = n - 1
  · rw [if_pos ht', if_pos ht', ht']
    by_cases hc : count ≤ (n - 1) * chunk
    · rw [if_pos hc, if_pos ⟨rfl, hc⟩]
    · rw [if_neg hc, if_neg fun h ↦ hc h.2]
  · have hstop : (t + 1) * chunk ≤ (n - 1) * chunk :=
      Int.mul_le_mul_of_nonneg_right (by omega) (by omega)
    have hboth : ¬ ((t : Int) = n - 1 ∧ count ≤ (n - 1) * chunk) := fun h ↦ ht' h.1
    rw [if_neg ht', if_neg ht', if_neg hboth, toInt32_of_range (by omega) (by omega), ← hnext,
      if_neg (by omega)]

/-- The turns left hand out a range each, except that the last one may have nothing left. -/
theorem createLoop_eq (hn : 1 ≤ n) (hcount : n ≤ count) (hfit : count + n - 1 < 2 ^ 31) (fuel t : Nat)
    (ht : (t + fuel : Int) = n) :
    createLoop count n (chunkSize count n) fuel t =
      (List.range' t (if count ≤ (n - 1) * chunkSize count n then fuel - 1 else fuel)).map
        (plainRange count n (chunkSize count n)) := by
  induction fuel generalizing t with
  | zero => simp [createLoop]
  | succ fuel ih =>
    have hrec := ih (t + 1) (by push_cast at ht ⊢; omega)
    unfold createLoop
    rw [rangeAt_eq hn hcount hfit (by omega)]
    by_cases hc : count ≤ (n - 1) * chunkSize count n
    · rw [if_pos hc] at hrec ⊢
      cases fuel with
      | zero =>
        rw [if_pos ⟨by omega, hc⟩]
        rfl
      | succ fuel =>
        rw [if_neg fun h ↦ by omega]
        rw [Nat.add_sub_cancel] at hrec ⊢
        rw [List.range'_succ, List.map_cons, ← hrec]
    · rw [if_neg hc] at hrec ⊢
      rw [if_neg fun h ↦ hc h.2, List.range'_succ, List.map_cons, ← hrec]

theorem length_createLoop_le (fuel t : Nat) : (createLoop count n chunk fuel t).length ≤ fuel := by
  induction fuel generalizing t with
  | zero => exact Nat.le_refl 0
  | succ fuel ih =>
    unfold createLoop
    split
    · exact Nat.zero_le _
    · exact Nat.succ_le_succ (ih (t + 1))

/-- Without room for the rounding no thread is created at all. -/
theorem createLoop_overflow (hn : 2 ≤ n) (hn' : n ≤ 16) (hcount : count < 2 ^ 31)
    (hover : 2 ^ 31 ≤ count + n - 1) (fuel : Nat) :
    createLoop count n (chunkSize count n) fuel 0 = [] := by
  obtain ⟨hneg, hlo⟩ := chunkSize_neg hn hn' hcount hover
  cases fuel with
  | zero => rfl
  | succ fuel =>
    have hnone : rangeAt count n (chunkSize count n) 0 = none := by
      have hlast : ¬ (0 : Int) = n - 1 := by omega
      unfold rangeAt
      simp only [Nat.cast_zero, Int.zero_mul]
      rw [if_neg hlast, toInt32_of_range (x := 0) (by omega) (by omega), Int.zero_add,
        toInt32_of_range hlo (by omega), if_pos (by omega)]
    unfold createLoop
    rw [hnone]

/-- Ranges of equal chunks with a last one that is not empty are a partition. -/
theorem plainRanges_partition {m : Nat} (hpos : 1 ≤ chunk) (hlast : (m - 1) * chunk < count)
    (hall : count ≤ m * chunk) :
    let ranges := (List.range m).map (plainRange count m chunk)
    (ranges.Pairwise fun r s ↦ ∀ i, ¬ (r.Contains i ∧ s.Contains i)) ∧
      (∀ r ∈ ranges, 0 ≤ r.startIdx ∧ r.endIdx ≤ count) ∧
      ∀ i, 0 ≤ i → i < count → ∃ r ∈ ranges, r.Contains i := by
  -- the start of a chunk is monotone in its number
  have hmono {a b : Int} (h : a ≤ b) : a * chunk ≤ b * chunk :=
    Int.mul_le_mul_of_nonneg_right h (by omega)
  refine ⟨?_, ?_, ?_⟩
  · rw [List.pairwise_map]
    refine List.Pairwise.imp_of_mem ?_ List.pairwise_lt_range
    intro s t _ ht hst i
    rintro ⟨⟨-, hs⟩, ⟨ht', -⟩⟩
    have hlt := List.mem_range.mp ht
    have hne : ¬ (s : Int) = m - 1 := by omega
    simp only [plainRange, if_neg hne] at hs ht'
    have := hmono (a := s + 1) (b := t) (by omega)
    omega
  · intro r hr
    obtain ⟨t, ht, rfl⟩ := List.mem_map.mp hr
    have hlt := List.mem_range.mp ht
    refine ⟨Int.mul_nonneg (by omega) (by omega), ?_⟩
    simp only [plainRange]
    split
    · exact Int.le_refl count
    · have := hmono (a := t + 1) (b := m - 1) (by omega)
      omega
  · intro i hi hic
    have hdiv := Int.mul_ediv_add_emod i chunk
    have hlt := Int.emod_lt_of_pos i (by omega : 0 < chunk)
    have hnn := Int.emod_nonneg i (by omega : chunk ≠ 0)
    have hq : 0 ≤ i / chunk := Int.ediv_nonneg hi (by omega)
    rw [Int.mul_comm] at hdiv
    have hqm : i / chunk < m := by
      by_contra hge
      have := hmono (a := m) (b := i / chunk) (by omega)
      omega
    obtain ⟨t, ht⟩ := Int.eq_ofNat_of_zero_le hq
    refine ⟨_, List.mem_map.mpr ⟨t, List.mem_range.mpr (by omega), rfl⟩, ?_⟩
    rw [ht] at hdiv
    unfold WorkerRange.Contains plainRange
    dsimp only
    refine ⟨by omega, ?_⟩
    split
    · exact hic
    · rw [Int.add_mul, Int.one_mul]
      omega

end Ranges

/-- The condition on a batch: the sum for the rounding stays in the range of `int`, the chunks of
all workers but the last leave something for it, and every thread comes to life. -/
def Splits (count numThreads : Int) (create : Nat → Bool) : Prop :=
  let n := workerCount count numThreads
  count + n - 1 < 2 ^ 31 ∧ (n - 1) * ((count + n - 1) / n) < count ∧ ∀ t < n.toNat, create t

section Batch

variable {count numThreads : Int} {create : Nat → Bool} {translated : Int → Bool}

theorem successCounts_nonneg (count numThreads : Int) (create : Nat → Bool) (translated : Int → Bool)
    (t : Nat) :
    0 ≤ (translateBatchParallel count numThreads create translated).successCounts t := by
  unfold translateBatchParallel
  dsimp only
  split
  · cases (createLoop count (workerCount count numThreads)
      (chunkSize count (workerCount count numThreads)) (workerCount count numThreads).toNat 0)[t]? with
    | none => simp
    | some r => simp [WorkerRange.successes]
  · exact Int.le_refl 0

/-- Every thread there could be is joined. -/
theorem joined_eq (count numThreads : Int) (create : Nat → Bool) (translated : Int → Bool) :
    (translateBatchParallel count numThreads create translated).joined =
      List.range (workerCount count numThreads).toNat := by
  apply List.filter_eq_self.mpr
  intro t _
  exact decide_eq_true (successCounts_nonneg count numThreads create translated t)

/-- The ranges of a batch, and how many there are. -/
theorem ranges_length_eq_iff (count numThreads : Int) (create : Nat → Bool)
    (translated : Int → Bool) (hcount : 1 ≤ count) (hcount' : count < 2 ^ 31) (hthreads : 2 ≤ numThreads) :
    (translateBatchParallel count numThreads create translated).ranges.length =
        (workerCount count numThreads).toNat ↔
      count + workerCount count numThreads - 1 < 2 ^ 31 ∧
        (workerCount count numThreads - 1) *
          ((count + workerCount count numThreads - 1) / workerCount count numThreads) < count := by
  obtain ⟨hn, hn', hle⟩ := workerCount_bounds hcount hthreads
  unfold translateBatchParallel
  dsimp only
  generalize workerCount count numThreads = n at hn hn' hle ⊢
  by_cases hfit : count + n - 1 < 2 ^ 31
  · rw [createLoop_eq hn hle hfit n.toNat 0 (by omega), ← chunkSize_eq hn hle hfit, List.length_map,
      List.length_range']
    split <;> omega
  · rw [createLoop_overflow (by omega) hn' hcount' (by omega)]
    simp only [List.length_nil]
    omega

theorem ranges_partition (hcount : 1 ≤ count) (hthreads : 2 ≤ numThreads)
    (hfit : count + workerCount count numThreads - 1 < 2 ^ 31)
    (hlast : (workerCount count numThreads - 1) *
      ((count + workerCount count numThreads - 1) / workerCount count numThreads) < count)
    (create : Nat → Bool) (translated : Int → Bool) :
    let ranges := (translateBatchParallel count numThreads create translated).ranges
    (ranges.Pairwise fun r s ↦ ∀ i, ¬ (r.Contains i ∧ s.Contains i)) ∧
      (∀ r ∈ ranges, 0 ≤ r.startIdx ∧ r.endIdx ≤ count) ∧
      ∀ i, 0 ≤ i → i < count → ∃ r ∈ ranges, r.Contains i := by
  obtain ⟨hn, -, hle⟩ := workerCount_bounds hcount hthreads
  unfold translateBatchParallel
  dsimp only
  generalize workerCount count numThreads = n at hn hle hfit hlast ⊢
  rw [← chunkSize_eq hn hle hfit] at hlast
  obtain ⟨hpos, hall, -⟩ := chunkSize_spec hn hle hfit
  obtain ⟨m, rfl⟩ := Int.eq_ofNat_of_zero_le (by omega : 0 ≤ n)
  rw [createLoop_eq hn hle hfit _ 0 (by omega), if_neg (by omega), Int.toNat_natCast,
    ← List.range_eq_range']
  exact plainRanges_partition hpos hlast hall

/-- The filter of the threads that came to life keeps all of them exactly if it has to. -/
theorem filter_range_eq_range_iff (create : Nat → Bool) {m n : Nat} (h : m ≤ n) :
    List.range n = (List.range m).filter create ↔ m = n ∧ ∀ t < n, create t := by
  constructor
  · intro heq
    have hlen := congrArg List.length heq
    have hfl := List.length_filter_le create (List.range m)
    rw [List.length_range] at hlen hfl
    obtain rfl : m = n := by omega
    refine ⟨rfl, fun t ht ↦ ?_⟩
    rw [eq_comm, List.filter_eq_self] at heq
    exact heq t (List.mem_range.mpr ht)
  · rintro ⟨rfl, hall⟩
    rw [eq_comm, List.filter_eq_self]
    exact fun t ht ↦ hall t (List.mem_range.mp ht)

/-- A batch is partitioned and accounted for exactly if it splits. -/
theorem translateBatchParallel_correct_iff (count numThreads : Int) (create : Nat → Bool)
    (translated : Int → Bool) (hcount : 1 ≤ count) (hcount' : count < 2 ^ 31)
    (hthreads : 2 ≤ numThreads) :
    (translateBatchParallel count numThreads create translated).Correct count ↔
      Splits count numThreads create := by
  have hlen := ranges_length_eq_iff count numThreads create translated hcount hcount' hthreads
  have hle : (translateBatchParallel count numThreads create translated).ranges.length ≤
      (workerCount count numThreads).toNat := length_createLoop_le _ _
  have hjoined := joined_eq count numThreads create translated
  have hcreated := filter_range_eq_range_iff create hle
  constructor
  · intro h
    have heq := h.joined
    rw [hjoined] at heq
    obtain ⟨hl, hall⟩ := hcreated.mp heq
    obtain ⟨hfit, hlast⟩ := hlen.mp hl
    exact ⟨hfit, hlast, hall⟩
  · rintro ⟨hfit, hlast, hall⟩
    have heq : (translateBatchParallel count numThreads create translated).joined =
        (translateBatchParallel count numThreads create translated).created :=
      hjoined.trans (hcreated.mpr ⟨hlen.mpr ⟨hfit, hlast⟩, hall⟩)
    obtain ⟨hdisj, hin, hcov⟩ := ranges_partition hcount hthreads hfit hlast create translated
    exact ⟨hdisj, hin, hcov, heq, by rw [← heq]; rfl⟩

/-- Three threads over ten blocks. -/
theorem translateBatchParallel_ten :
    (translateBatchParallel 10 3 (fun _ ↦ true) (fun _ ↦ true)).Correct 10 := by
  rw [translateBatchParallel_correct_iff 10 3 _ _ (by decide) (by decide) (by decide)]
  exact ⟨by decide, by decide, fun _ _ ↦ rfl⟩

/-- Sixteen threads over seventeen blocks: the tenth gets a range behind the end, and a sixteenth
thread is joined that was not created. -/
theorem translateBatchParallel_seventeen :
    ¬ (translateBatchParallel 17 16 (fun _ ↦ true) (fun _ ↦ true)).Correct 17 := by
  intro h
  have hmem : ⟨18, 20⟩ ∈ (translateBatchParallel 17 16 (fun _ ↦ true) (fun _ ↦ true)).ranges := by
    decide
  exact absurd (h.inside _ hmem).2 (by decide)

end Batch

end Arm2x86.Easy
