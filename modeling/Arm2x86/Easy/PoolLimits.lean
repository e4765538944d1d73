import Arm2x86.Easy.PoolBlocks

/-!
# Limits of the memory pool

The total size that a pool reports against the chunks it has, and against its maximum. The total
starts as the size that was asked for, not as that of the first chunk, and the maximum is enforced
only while growth is disabled, which no configuration achieves.
-/

namespace Arm2x86.Easy

open Stepping

/-- The sizes of some chunks together. -/
def sumSizes (chunks : List MempoolChunk) : Nat := (chunks.map fun c ↦ c.size.toNat).sum

/-- What is promised of a pool's total. -/
def Limits (config : MempoolConfig) (pool : Mempool) : Prop :=
  pool.totalSize.toNat = sumSizes pool.all ∧
    (config.enableGrowth = 0 → pool.totalSize ≤ pool.maxSize)

/-- The first chunk, if there is one, has the size that was asked for. -/
def InitialExact (config : MempoolConfig) (m : Mmap) : Prop :=
  (mempoolAllocChunk m [] config.initial).isSome → mempoolActualSize config.initial = config.initial

/-- With growth disabled, a call that needs a chunk gets one only within the maximum. -/
def GrowsWithin (config : MempoolConfig) (s : Mempool × List Span) (call : PoolCall) : Prop :=
  let n := align16 call.size
  config.enableGrowth = 0 → takeFirst n (s.1.chunks (mempoolGetClass n)) = none →
    (mempoolAllocChunk call.mmap s.1.spans (mempoolNewSize n)).isSome →
      s.1.totalSize.toNat + (mempoolNewSize n).toNat ≤ s.1.maxSize.toNat

section Sums

variable {chunks : List MempoolChunk} {used : BitVec 64} {given : List Span}

/-- The chunks are apart in the lower half of the address space. -/
theorem PoolSound.sumSizes_le (h : PoolSound chunks used given) : sumSizes chunks ≤ 2 ^ 47 := by
  have hspans : (chunks.map fun c ↦ c.arena.span).Pairwise Span.Apart := by
    have hpairs := h.packed.apart
    rw [List.pairwise_map] at hpairs ⊢
    exact hpairs
  have hlower : ∀ s ∈ chunks.map fun c ↦ c.arena.span, s.start + s.len ≤ 2 ^ 47 := by
    intro s hs
    obtain ⟨c, hc, rfl⟩ := List.mem_map.mp hs
    exact (h.chunk c hc).lower
  have hsum := Span.sum_len_le hspans hlower
  rw [List.map_map] at hsum
  exact hsum

theorem sumSizes_perm {chunks' : List MempoolChunk} (hperm : chunks.Perm chunks') :
    sumSizes chunks = sumSizes chunks' := (hperm.map _).sum_eq

theorem sumSizes_nil : sumSizes [] = 0 := rfl

theorem sumSizes_cons (c : MempoolChunk) (chunks : List MempoolChunk) :
    sumSizes (c :: chunks) = c.size.toNat + sumSizes chunks := by
  rw [sumSizes, List.map_cons, List.sum_cons]
  rfl

end Sums

/-- The sizes that chunks are mapped with as they are: those of the classes, and the multiples of 16
above them. -/
theorem mempoolActualSize_eq_iff (n : BitVec 64) :
    mempoolActualSize n = n ↔
      (∃ k, n = mempoolClassSizes k) ∨ (65536 < n.toNat ∧ n.toNat % 16 = 0) := by
  have hmask : (align16 n).toNat = (n + 15#64).toNat / 16 * 16 := toNat_and_not_mask (n + 15#64) 4
  have hsum : (n + 15#64).toNat = (n.toNat + 15) % 2 ^ 64 := BitVec.toNat_add ..
  have hn := n.isLt
  unfold mempoolActualSize
  split
  · next hlarge =>
    have hclass := mempoolGetClass_of_lt hlarge
    rw [hclass, BitVec.lt_def] at hlarge
    have h65536 : 65536 < n.toNat := hlarge
    have hle : ∀ k, (mempoolClassSizes k).toNat ≤ 65536 := by decide
    constructor
    · intro heq
      have hval := congrArg BitVec.toNat heq
      omega
    · rintro (⟨k, rfl⟩ | ⟨-, halign⟩)
      · exact absurd h65536 (Nat.not_lt.mpr (hle k))
      · apply BitVec.eq_of_toNat_eq
        omega
  · next hsmall =>
    constructor
    · exact fun heq ↦ .inl ⟨_, heq.symm⟩
    · rintro (⟨k, rfl⟩ | ⟨h65536, -⟩)
      · revert k
        decide
      · have hle := BitVec.not_lt.mp hsmall
        have hbound : ∀ k, (mempoolClassSizes k).toNat ≤ 65536 := by decide
        exact absurd (Nat.le_trans hle (hbound _)) (Nat.not_le.mpr h65536)

section Steps

variable {config : MempoolConfig}

/-- A fresh pool is within its limits when its first chunk has the size that was asked for. -/
theorem limits_mempoolInit (config : MempoolConfig) (m : Mmap) :
    Limits config (config.mempoolInit m) ↔ InitialExact config m := by
  have hfresh := mempoolInit_spec config m
  have hmax : config.initial ≤ config.maximum := by
    unfold MempoolConfig.initial
    generalize (if config.initialSize ≠ 0 then config.initialSize else config.defaultChunkSize) = x
    dsimp only
    split
    · exact BitVec.le_refl _
    · next hle => exact BitVec.not_lt.mp hle
  unfold Limits InitialExact
  rw [sumSizes_perm hfresh.all, hfresh.total, hfresh.maxSize]
  cases hmap : mempoolAllocChunk m [] config.initial with
  | none =>
    have hzero : 0#64 ≤ config.maximum := Nat.zero_le _
    simp [sumSizes_nil, hzero]
  | some c =>
    obtain ⟨mem, hmem, rfl⟩ := Option.map_eq_some_iff.mp hmap
    simp only [Option.isSome_some, if_true, Option.toList_some, sumSizes_cons, sumSizes_nil, hmax,
      implies_true, and_true, true_implies, Nat.add_zero]
    exact eq_comm.trans BitVec.toNat_inj

/-- The states of runs that are within the limits so far. -/
structure LimitsInv (config : MempoolConfig) (s : Mempool × List Span) : Prop where
  sound : PoolInv s
  limits : Limits config s.1
  growth : s.1.enableGrowth = 1

/-- A call leaves the pool within its limits when it does not grow beyond its maximum. -/
theorem limits_next_iff {s : Mempool × List Span} (h : LimitsInv config s) (call : PoolCall) :
    Limits config (PoolCall.next s call).1 ↔ GrowsWithin config s call := by
  have hinv := (poolInv_next s call h.sound).2
  have hn := rounded_align16 call.small
  have hspec := alloc_spec call.mmap s.1 call.small
  unfold PoolCall.next at hinv ⊢
  unfold GrowsWithin
  generalize align16 call.size = n at *
  generalize s.1.alloc call.mmap call.size = r at *
  dsimp only
  cases hspec with
  | refused hnone hrefused =>
    constructor
    · intro _ _ _ hmap
      rcases hrefused with hgrowth | hfail
      · rw [h.growth] at hgrowth
        cases hgrowth
      · rw [hfail] at hmap
        cases hmap
    · exact fun _ ↦ h.limits
  | @given c others pool' htake hall hroom hgives htotal =>
    have hkept : Limits config pool' := by
      unfold Limits
      rw [htotal, hgives.maxSize, sumSizes_perm hgives.all, sumSizes_cons]
      have hlimits := h.limits
      rwa [Limits, sumSizes_perm hall, sumSizes_cons] at hlimits
    exact ⟨fun _ _ hnone ↦ absurd hnone htake, fun _ ↦ hkept⟩
  | @mapped c pool' hnone hmap hgives htotal =>
    obtain ⟨hsize, -, -, hmappable⟩ := mempoolAllocChunk_spec hn hmap
    have hle := PoolSound.sumSizes_le hinv
    obtain ⟨htotal₀, hmax₀⟩ := h.limits
    rw [sumSizes_perm hgives.all, sumSizes_cons] at hle
    have hsum : pool'.totalSize.toNat = s.1.totalSize.toNat + c.size.toNat := by
      rw [htotal, BitVec.toNat_add]
      dsimp only at hle
      omega
    unfold Limits
    rw [sumSizes_perm hgives.all, sumSizes_cons, hgives.maxSize, BitVec.le_def, hsum, hmap, ← hsize]
    constructor
    · rintro ⟨-, hmax⟩ hgrowth _ _
      exact hmax hgrowth
    · intro hwithin
      refine ⟨by dsimp only; omega, fun hgrowth ↦ hwithin hgrowth hnone rfl⟩

theorem limitsInv_next {s : Mempool × List Span} (h : LimitsInv config s) (call : PoolCall)
    (hgrows : GrowsWithin config s call) : LimitsInv config (PoolCall.next s call) where
  sound := (poolInv_next s call h.sound).2
  limits := (limits_next_iff h call).mpr hgrows
  growth := by
    have hspec := alloc_spec call.mmap s.1 call.small
    unfold PoolCall.next
    generalize s.1.alloc call.mmap call.size = r at *
    cases hspec with
    | refused hnone hrefused => exact h.growth
    | given htake hall hroom hgives htotal => exact hgives.enableGrowth.trans h.growth
    | mapped hnone hmap hgives htotal => exact hgives.enableGrowth.trans h.growth

end Steps

section Result

/-- A pool stays within its limits when its first chunk has the size that was asked for and, with
growth disabled, no call makes it grow beyond its maximum. -/
theorem mempool_limits_iff (config : Option MempoolConfig) (m : Mmap) (calls : List PoolCall) :
    (∀ done, done <+: calls →
      Limits (config.getD mempoolConfigDefault)
        (done.foldl PoolCall.next (enableMempool config m, [])).1) ↔
      InitialExact (config.getD mempoolConfigDefault) m ∧
        Each PoolCall.next (GrowsWithin (config.getD mempoolConfigDefault))
          (enableMempool config m, []) calls := by
  unfold enableMempool
  generalize config.getD mempoolConfigDefault = config
  have hstart := limits_mempoolInit config m
  refine (forall_prefix_iff (P := fun s : Mempool × List Span ↦ Limits config s.1)).trans ?_
  dsimp only
  rw [hstart]
  apply and_congr_right
  intro hinitial
  have hinv : LimitsInv config (config.mempoolInit m, []) :=
    ⟨poolInv_mempoolInit config m, hstart.mpr hinitial, (mempoolInit_spec config m).enableGrowth⟩
  have hkeep : ∀ s call, LimitsInv config s → True → GrowsWithin config s call →
      LimitsInv config (PoolCall.next s call) := fun s call h _ hgrows ↦ limitsInv_next h call hgrows
  exact each_congr hkeep (fun s call h _ ↦ limits_next_iff h call) hinv fun _ _ ↦ trivial

/-- Growth disabled, 100 bytes at first and 128 at most: the first chunk has 256 bytes, and a request
for 16 bytes maps 64 more. -/
theorem total_missed :
    ¬ ∀ done, done <+: [⟨16, .at 0x20000, by decide⟩] →
      Limits ⟨100, 128, 0, 0⟩
        (done.foldl PoolCall.next (enableMempool (some ⟨100, 128, 0, 0⟩) (.at 0x10000), [])).1 := by
  intro h
  have hstart := (h [] List.nil_prefix).1
  revert hstart
  decide

end Result

end Arm2x86.Easy
