import Arm2x86.Base.Stepping
import Arm2x86.Easy.MemoryPool

/-!
# Blocks of the memory pool

The blocks that the pool gives out are aligned, lie in chunks of their size class and apart from
each other, and the pool counts them. The invariant is that of bump allocation on the chunks as
arenas; a request either takes the next bytes of a chunk or those of a chunk that is mapped for it.
-/

namespace Arm2x86.Easy

section Sizes

/-- A rounded size of half the address space at most. -/
structure Rounded (n : BitVec 64) : Prop where
  small : n.toNat ≤ 2 ^ 63
  aligned : n.toNat % 16 = 0

variable {size n : BitVec 64}

theorem toNat_align16 (h : size.toNat < 2 ^ 64 - 15) :
    (align16 size).toNat = (size.toNat + 15) / 16 * 16 := by
  have hsum : (size + 15#64).toNat = size.toNat + 15 := by
    rw [BitVec.toNat_add, BitVec.toNat_ofNat]
    omega
  exact (toNat_and_not_mask (size + 15#64) 4).trans (congrArg (· / 16 * 16) hsum)

theorem rounded_align16 (h : size.toNat < 2 ^ 63) : Rounded (align16 size) := by
  have hround := toNat_align16 (Nat.lt_trans h (by decide))
  constructor
  · omega
  · omega

/-- Rounding leaves a rounded size. -/
theorem Rounded.align16_eq (h : Rounded n) : align16 n = n := by
  have hsmall := h.small
  have haligned := h.aligned
  apply BitVec.eq_of_toNat_eq
  rw [toNat_align16 (by omega)]
  omega

/-- The classes, by the bounds of their sizes. -/
theorem mempoolGetClass_cases (n : BitVec 64) :
    (mempoolGetClass n = 0 ∧ n.toNat ≤ 64) ∨
    (mempoolGetClass n = 1 ∧ 64 < n.toNat ∧ n.toNat ≤ 256) ∨
    (mempoolGetClass n = 2 ∧ 256 < n.toNat ∧ n.toNat ≤ 1024) ∨
    (mempoolGetClass n = 3 ∧ 1024 < n.toNat ∧ n.toNat ≤ 4096) ∨
    (mempoolGetClass n = 4 ∧ 4096 < n.toNat ∧ n.toNat ≤ 16384) ∨
    (mempoolGetClass n = 5 ∧ 16384 < n.toNat) := by
  unfold mempoolGetClass
  simp only [BitVec.le_def, BitVec.ofNat_eq_ofNat, BitVec.toNat_ofNat]
  split_ifs <;> simp <;> omega

/-- Only the last class has sizes above its own. -/
theorem mempoolGetClass_of_lt (h : mempoolClassSizes (mempoolGetClass n) < n) :
    mempoolGetClass n = 5 := by
  rw [BitVec.lt_def] at h
  rcases mempoolGetClass_cases n with
    ⟨hclass, hn⟩ | ⟨hclass, -, hn⟩ | ⟨hclass, -, hn⟩ | ⟨hclass, -, hn⟩ | ⟨hclass, -, hn⟩ |
      ⟨hclass, -⟩
  case inr.inr.inr.inr.inr => exact hclass
  all_goals
    rw [hclass] at h
    exact absurd hn (Nat.not_le.mpr h)

/-- A class's own size, or a larger one in the last class. -/
theorem mempoolNewSize_cases (h : Rounded n) :
    (mempoolNewSize n = mempoolClassSizes (mempoolGetClass n) ∧
      n ≤ mempoolClassSizes (mempoolGetClass n)) ∨
    (mempoolNewSize n = n ∧ mempoolGetClass n = 5 ∧ mempoolClassSizes 5 < n) := by
  unfold mempoolNewSize
  split
  · next hlarge =>
    right
    have hclass := mempoolGetClass_of_lt hlarge
    rw [hclass] at hlarge
    exact ⟨h.align16_eq, hclass, hlarge⟩
  · next hsmall => exact .inl ⟨rfl, BitVec.not_lt.mp hsmall⟩

/-- A chunk for a request has room for it, is of its class and is mapped with its own size. -/
theorem mempoolNewSize_spec (h : Rounded n) :
    n ≤ mempoolNewSize n ∧ mempoolGetClass (mempoolNewSize n) = mempoolGetClass n ∧
      mempoolActualSize (mempoolNewSize n) = mempoolNewSize n := by
  have hclass : ∀ k, mempoolGetClass (mempoolClassSizes k) = k := by decide
  have hactual : ∀ k, mempoolActualSize (mempoolClassSizes k) = mempoolClassSizes k := by decide
  rcases mempoolNewSize_cases h with ⟨hsize, hn⟩ | ⟨hsize, hlast, hn⟩
  · rw [hsize]
    exact ⟨hn, hclass _, hactual _⟩
  · rw [hsize]
    refine ⟨BitVec.le_refl _, rfl, ?_⟩
    rw [mempoolActualSize, hlast, if_pos hn]
    exact h.align16_eq

end Sizes

section Chunks

/-- Lists of which one is replaced. -/
theorem flatMap_update_perm {ι α : Type*} [DecidableEq ι] {l : List ι} (hl : l.Nodup) {k : ι}
    (hk : k ∈ l) (f : ι → List α) (xs : List α) :
    (l.flatMap (Function.update f k xs)).Perm (xs ++ (l.erase k).flatMap f) := by
  have hrest : (l.erase k).flatMap (Function.update f k xs) = (l.erase k).flatMap f := by
    apply List.flatMap_congr
    intro j hj
    rw [Function.update_of_ne]
    rintro rfl
    exact hl.not_mem_erase hj
  have hperm := (List.perm_cons_erase hk).flatMap_right (Function.update f k xs)
  rwa [List.flatMap_cons, Function.update_self, hrest] at hperm

/-- The chunks of the other classes. -/
def Mempool.others (pool : Mempool) (k : Fin 6) : List MempoolChunk :=
  ((List.finRange 6).erase k).flatMap pool.chunks

theorem Mempool.all_perm (pool : Mempool) (k : Fin 6) :
    pool.all.Perm (pool.chunks k ++ pool.others k) := by
  have hperm := flatMap_update_perm (List.nodup_finRange 6) (List.mem_finRange k) pool.chunks
    (pool.chunks k)
  rwa [Function.update_eq_self] at hperm

theorem Mempool.all_update_perm (pool : Mempool) (k : Fin 6) (cs : List MempoolChunk) :
    ((List.finRange 6).flatMap (Function.update pool.chunks k cs)).Perm (cs ++ pool.others k) :=
  flatMap_update_perm (List.nodup_finRange 6) (List.mem_finRange k) pool.chunks cs

/-- The walk takes the next bytes of one of the chunks. -/
theorem takeFirst_eq_some {n ptr : BitVec 64} {cs cs' : List MempoolChunk}
    (h : takeFirst n cs = some (ptr, cs')) :
    ∃ before c behind, cs = before ++ c :: behind ∧ c.offset + n ≤ c.size ∧
      ptr = c.base + c.offset ∧
      cs' = before ++ { c with offset := c.offset + n } :: behind := by
  induction cs generalizing cs' with
  | nil => cases h
  | cons c cs ih =>
    rw [takeFirst] at h
    split at h
    · next hroom =>
      obtain ⟨rfl, rfl⟩ := Prod.mk.inj (Option.some.inj h)
      exact ⟨[], c, cs, rfl, hroom, rfl, rfl⟩
    · obtain ⟨⟨ptr', cs''⟩, hrest, heq⟩ := Option.map_eq_some_iff.mp h
      obtain ⟨rfl, rfl⟩ := Prod.mk.inj heq
      obtain ⟨before, d, behind, rfl, hroom, hptr, rfl⟩ := ih hrest
      exact ⟨c :: before, d, behind, rfl, hroom, hptr, rfl⟩

end Chunks

section Allocation

/-- The pool after a request for `n` bytes that leaves `c` as the chunk it has come to. -/
structure Gives (n : BitVec 64) (c : MempoolChunk) (others : List MempoolChunk)
    (pool pool' : Mempool) : Prop where
  all : pool'.all.Perm (c :: others)
  mem : c ∈ pool'.chunks (mempoolGetClass n)
  used : pool'.usedSize = pool.usedSize + n
  maxSize : pool'.maxSize = pool.maxSize
  enableGrowth : pool'.enableGrowth = pool.enableGrowth

theorem gives_update {n : BitVec 64} {c : MempoolChunk} {others cs : List MempoolChunk}
    {pool : Mempool} (total : BitVec 64) (hmem : c ∈ cs)
    (hcs : (cs ++ pool.others (mempoolGetClass n)).Perm (c :: others)) :
    Gives n c others pool
      { pool with
        chunks := Function.update pool.chunks (mempoolGetClass n) cs
        totalSize := total
        usedSize := pool.usedSize + n } where
  all := (pool.all_update_perm _ _).trans hcs
  mem := by
    dsimp only
    rwa [Function.update_self]
  used := rfl
  maxSize := rfl
  enableGrowth := rfl

/-- The ways a request goes: it is refused, or given the next bytes of a chunk, or the first bytes
of a chunk that is mapped for it. -/
inductive Allocates (m : Mmap) (pool : Mempool) (n : BitVec 64) :
    Option (BitVec 64) × Mempool → Prop
  | refused (hnone : takeFirst n (pool.chunks (mempoolGetClass n)) = none)
      (hrefused : pool.enableGrowth = 0 ∨
        mempoolAllocChunk m pool.spans (mempoolNewSize n) = none) : Allocates m pool n (none, pool)
  | given {c others pool'} (htake : takeFirst n (pool.chunks (mempoolGetClass n)) ≠ none)
      (hall : pool.all.Perm (c :: others)) (hroom : c.offset + n ≤ c.size)
      (hgives : Gives n { c with offset := c.offset + n } others pool pool')
      (htotal : pool'.totalSize = pool.totalSize) :
      Allocates m pool n (some (c.base + c.offset), pool')
  | mapped {c pool'} (hnone : takeFirst n (pool.chunks (mempoolGetClass n)) = none)
      (hmap : mempoolAllocChunk m pool.spans (mempoolNewSize n) = some c)
      (hgives : Gives n { c with offset := n } pool.all pool pool')
      (htotal : pool'.totalSize = pool.totalSize + c.size) :
      Allocates m pool n (some c.base, pool')

/-- What is mapped for a request. -/
theorem mempoolAllocChunk_spec {m : Mmap} {taken : List Span} {n : BitVec 64} (hn : Rounded n)
    {c : MempoolChunk} (h : mempoolAllocChunk m taken (mempoolNewSize n) = some c) :
    c.size = mempoolNewSize n ∧ c.offset = 0 ∧ c.classId = mempoolGetClass n ∧
      Mappable taken c.size.toNat c.base := by
  obtain ⟨-, hclass, hactual⟩ := mempoolNewSize_spec hn
  obtain ⟨mem, hmem, rfl⟩ := Option.map_eq_some_iff.mp h
  exact ⟨hactual, rfl, hclass, m.mappable hmem⟩

theorem alloc_spec (m : Mmap) (pool : Mempool) {size : BitVec 64} (h : size.toNat < 2 ^ 63) :
    Allocates m pool (align16 size) (pool.alloc m size) := by
  have hn := rounded_align16 h
  unfold Mempool.alloc
  generalize align16 size = n at *
  dsimp only
  split
  · next ptr chunks htake =>
    obtain ⟨before, c, behind, hchunks, hroom, rfl, rfl⟩ := takeFirst_eq_some htake
    have hfront : ∀ d, (before ++ d :: behind ++ pool.others (mempoolGetClass n)).Perm
        (d :: (before ++ behind ++ pool.others (mempoolGetClass n))) := by
      intro d
      rw [List.append_assoc, List.cons_append, List.append_assoc]
      exact List.perm_middle
    have hall := pool.all_perm (mempoolGetClass n)
    rw [hchunks] at hall
    refine .given (Option.ne_none_iff_exists'.mpr ⟨_, htake⟩) (hall.trans (hfront c)) hroom ?_ rfl
    exact gives_update pool.totalSize (List.mem_append_right _ List.mem_cons_self) (hfront _)
  · next hnone =>
    split
    · next hlimit => exact .refused hnone (.inl hlimit.2)
    · split
      · next hmap => exact .refused hnone (.inr hmap)
      · next c hmap =>
        refine .mapped hnone hmap ?_ rfl
        exact gives_update _ List.mem_cons_self ((pool.all_perm _).symm.cons _)

end Allocation

section Invariant

/-- A chunk in its mapping, with what it has given out of its front. -/
structure MempoolChunk.Sound (c : MempoolChunk) : Prop where
  nonnull : c.base ≠ 0
  page : c.base.toNat % 4096 = 0
  lower : c.base.toNat + c.size.toNat ≤ 2 ^ 47
  aligned : c.offset.toNat % 16 = 0

/-- The memory of a block. -/
def block (ptr n : BitVec 64) : Span := ⟨ptr.toNat, n.toNat⟩

/-- The blocks that some chunks have given out, and their count. -/
structure PoolSound (chunks : List MempoolChunk) (used : BitVec 64) (given : List Span) : Prop where
  packed : Arena.Packed (chunks.map MempoolChunk.arena) given
  chunk : ∀ c ∈ chunks, c.Sound
  lower : ∀ s ∈ given, s.start + s.len ≤ 2 ^ 47
  used : used.toNat = (given.map Span.len).sum

/-- What a request for `n` bytes is answered, when it is answered. -/
structure BlockRight (n : BitVec 64) (given : List Span) (ptr : BitVec 64) (pool' : Mempool) :
    Prop where
  nonnull : ptr ≠ 0
  aligned : ptr.toNat % 16 = 0
  inside : ∃ c ∈ pool'.chunks (mempoolGetClass n),
    c.base.toNat ≤ ptr.toNat ∧ ptr.toNat + n.toNat ≤ c.base.toNat + c.size.toNat
  apart : ∀ s ∈ given, (block ptr n).Apart s
  used : pool'.usedSize.toNat = n.toNat + (given.map Span.len).sum

namespace PoolSound

variable {c : MempoolChunk} {chunks chunks' : List MempoolChunk} {used n : BitVec 64}
  {given : List Span}

theorem perm (h : PoolSound chunks used given) (hperm : chunks.Perm chunks') :
    PoolSound chunks' used given where
  packed := h.packed.perm (hperm.map _)
  chunk c hc := h.chunk c (hperm.mem_iff.mpr hc)
  lower := h.lower
  used := h.used

/-- A new chunk. -/
theorem grow (h : PoolSound chunks used given) (hoffset : c.offset = 0)
    (hmap : Mappable (chunks.map fun c ↦ c.arena.span) c.size.toNat c.base) :
    PoolSound (c :: chunks) used given where
  packed := by
    apply h.packed.grow
    · exact congrArg BitVec.toNat hoffset
    · intro a ha
      obtain ⟨d, hd, rfl⟩ := List.mem_map.mp ha
      exact hmap.fresh _ (List.mem_map.mpr ⟨d, hd, rfl⟩)
  chunk := by
    rw [List.forall_mem_cons]
    refine ⟨⟨hmap.nonnull, hmap.page, hmap.lower, ?_⟩, h.chunk⟩
    rw [hoffset]
    rfl
  lower := h.lower
  used := h.used

/-- The numbers of a chunk that has room. -/
theorem room (h : PoolSound (c :: chunks) used given) (hn : Rounded n)
    (hroom : c.offset + n ≤ c.size) :
    c.Sound ∧ (c.offset + n).toNat = c.offset.toNat + n.toNat ∧
      c.offset.toNat + n.toNat ≤ c.size.toNat ∧
      (c.base + c.offset).toNat = c.base.toNat + c.offset.toNat := by
  have hc := h.chunk c List.mem_cons_self
  have hwithin : c.offset.toNat ≤ c.size.toNat := h.packed.within c.arena List.mem_cons_self
  have hlower := hc.lower
  have hsmall := hn.small
  have hsum : (c.offset + n).toNat = c.offset.toNat + n.toNat := by
    rw [BitVec.toNat_add]
    omega
  rw [BitVec.le_def, hsum] at hroom
  refine ⟨hc, hsum, hroom, ?_⟩
  rw [BitVec.toNat_add]
  omega

/-- A chunk gives out its next bytes. -/
theorem give (h : PoolSound (c :: chunks) used given) (hn : Rounded n)
    (hroom : c.offset + n ≤ c.size) :
    PoolSound ({ c with offset := c.offset + n } :: chunks) (used + n)
      (block (c.base + c.offset) n :: given) := by
  obtain ⟨hc, hsum, hle, hptr⟩ := h.room hn hroom
  have hlower := hc.lower
  have hpacked : Arena.Packed (c.arena.take n.toNat :: chunks.map MempoolChunk.arena)
      (c.arena.next n.toNat :: given) := h.packed.take hle
  have hnext : c.arena.next n.toNat = block (c.base + c.offset) n := by
    rw [block, hptr]
    rfl
  have htake : c.arena.take n.toNat = MempoolChunk.arena { c with offset := c.offset + n } := by
    simp only [MempoolChunk.arena, Arena.take, hsum]
  rw [hnext, htake] at hpacked
  have hbound : ∀ s ∈ block (c.base + c.offset) n :: given, s.start + s.len ≤ 2 ^ 47 := by
    rw [List.forall_mem_cons]
    refine ⟨?_, h.lower⟩
    dsimp only [block]
    omega
  refine ⟨hpacked, ?_, hbound, ?_⟩
  · rw [List.forall_mem_cons]
    refine ⟨⟨hc.nonnull, hc.page, hc.lower, ?_⟩, fun d hd ↦ h.chunk d (List.mem_cons_of_mem c hd)⟩
    have haligned := hc.aligned
    have hn16 := hn.aligned
    rw [hsum]
    omega
  · -- all blocks are apart and in the lower half, so their count does not wrap around
    have hcount := Span.sum_len_le hpacked.disjoint hbound
    rw [List.map_cons, List.sum_cons] at hcount ⊢
    have hlen : (block (c.base + c.offset) n).len = n.toNat := rfl
    rw [hlen] at hcount ⊢
    rw [BitVec.toNat_add, h.used]
    omega

/-- The block that a chunk gives out. -/
theorem blockRight (h : PoolSound (c :: chunks) used given) (hn : Rounded n)
    (hroom : c.offset + n ≤ c.size) {pool pool' : Mempool} (hused : pool.usedSize = used)
    (hgives : Gives n { c with offset := c.offset + n } chunks pool pool') :
    BlockRight n given (c.base + c.offset) pool' := by
  obtain ⟨hc, hsum, hle, hptr⟩ := h.room hn hroom
  have hgiven := h.give hn hroom
  constructor
  · intro hzero
    apply hc.nonnull
    apply BitVec.eq_of_toNat_eq
    have hzero' := congrArg BitVec.toNat hzero
    rw [hptr] at hzero'
    exact Nat.eq_zero_of_add_eq_zero_right hzero'
  · have hpage := hc.page
    have haligned := hc.aligned
    rw [hptr]
    omega
  · refine ⟨_, hgives.mem, ?_⟩
    rw [hptr]
    dsimp only
    omega
  · exact (List.pairwise_cons.mp hgiven.packed.disjoint).1
  · rw [hgives.used, hused, hgiven.used]
    rfl

end PoolSound

end Invariant

section Runs

open Stepping

/-- A call of `arm2x86_mempool_alloc`. -/
structure PoolCall where
  size : BitVec 64
  mmap : Mmap
  small : size.toNat < 2 ^ 63

/-- The pool and the blocks it has given out after a call. -/
def PoolCall.next (s : Mempool × List Span) (call : PoolCall) : Mempool × List Span :=
  match s.1.alloc call.mmap call.size with
  | (some ptr, pool) => (pool, block ptr (align16 call.size) :: s.2)
  | (none, pool) => (pool, s.2)

/-- What is promised of a call. -/
def PoolCall.Right (s : Mempool × List Span) (call : PoolCall) : Prop :=
  match s.1.alloc call.mmap call.size with
  | (some ptr, pool) => BlockRight (align16 call.size) s.2 ptr pool
  | (none, pool) => pool = s.1

/-- The invariant of runs. -/
def PoolInv (s : Mempool × List Span) : Prop := PoolSound s.1.all s.1.usedSize s.2

theorem poolInv_next (s : Mempool × List Span) (call : PoolCall) (h : PoolInv s) :
    PoolCall.Right s call ∧ PoolInv (PoolCall.next s call) := by
  have hn := rounded_align16 call.small
  have hspec := alloc_spec call.mmap s.1 call.small
  unfold PoolCall.Right PoolCall.next
  generalize s.1.alloc call.mmap call.size = r at hspec
  cases hspec with
  | refused hnone hrefused => exact ⟨rfl, h⟩
  | given htake hall hroom hgives htotal =>
    have hsound := h.perm hall
    refine ⟨hsound.blockRight hn hroom rfl hgives, ?_⟩
    have hgiven := (hsound.give hn hroom).perm hgives.all.symm
    rwa [← hgives.used] at hgiven
  | @mapped c pool' hnone hmap hgives htotal =>
    obtain ⟨hsize, hoffset, -, hmappable⟩ := mempoolAllocChunk_spec hn hmap
    obtain ⟨hle, -⟩ := mempoolNewSize_spec hn
    have hsound : PoolSound (c :: s.1.all) s.1.usedSize s.2 := PoolSound.grow h hoffset hmappable
    have hfirst : c.offset + align16 call.size = align16 call.size := by
      rw [hoffset]
      exact BitVec.zero_add _
    have hptr : c.base + c.offset = c.base := by
      rw [hoffset]
      exact BitVec.add_zero _
    have hroom : c.offset + align16 call.size ≤ c.size := by
      rwa [hfirst, hsize]
    have hgives' : Gives (align16 call.size) { c with offset := c.offset + align16 call.size }
        s.1.all s.1 pool' := by
      rwa [hfirst]
    rw [← hptr]
    refine ⟨hsound.blockRight hn hroom rfl hgives', ?_⟩
    have hgiven := (hsound.give hn hroom).perm hgives'.all.symm
    rwa [← hgives.used] at hgiven

/-- A fresh pool with its first chunk, if that could be mapped. Growth is enabled always. -/
structure Fresh (config : MempoolConfig) (first : Option MempoolChunk) (pool : Mempool) : Prop where
  all : pool.all.Perm first.toList
  used : pool.usedSize = 0
  total : pool.totalSize = if first.isSome then config.initial else 0
  maxSize : pool.maxSize = config.maximum
  enableGrowth : pool.enableGrowth = 1

theorem mempoolInit_spec (config : MempoolConfig) (m : Mmap) :
    Fresh config (mempoolAllocChunk m [] config.initial) (config.mempoolInit m) := by
  have hempty : ∀ l : List (Fin 6), (l.flatMap fun _ ↦ ([] : List MempoolChunk)) = [] := by simp
  unfold MempoolConfig.mempoolInit
  cases mempoolAllocChunk m [] config.initial with
  | none => exact ⟨List.Perm.of_eq (hempty _), rfl, rfl, rfl, ite_self 1⟩
  | some c =>
    have hperm := flatMap_update_perm (List.nodup_finRange 6) (List.mem_finRange c.classId)
      (fun _ ↦ []) [c]
    rw [hempty, List.append_nil] at hperm
    exact ⟨hperm, rfl, rfl, rfl, ite_self 1⟩

theorem poolInv_mempoolInit (config : MempoolConfig) (m : Mmap) :
    PoolInv (config.mempoolInit m, []) := by
  have hfresh := mempoolInit_spec config m
  have hnil : PoolSound [] 0 [] := ⟨.nil, by simp, by simp, rfl⟩
  apply PoolSound.perm ?_ hfresh.all.symm
  dsimp only
  rw [hfresh.used]
  cases hmap : mempoolAllocChunk m [] config.initial with
  | none => exact hnil
  | some c =>
    obtain ⟨mem, hmem, rfl⟩ := Option.map_eq_some_iff.mp hmap
    exact hnil.grow rfl (m.mappable hmem)

/-- Every block a pool gives out is aligned, in a chunk of its class, apart from all blocks before
and counted; a call that fails leaves the pool as it was. -/
theorem mempool_blocks_right (config : MempoolConfig) (m : Mmap) (calls : List PoolCall) :
    Each PoolCall.next PoolCall.Right (config.mempoolInit m, []) calls :=
  each_of_inv (fun s call h ↦ (poolInv_next s call h).2) (fun s call h ↦ (poolInv_next s call h).1)
    (poolInv_mempoolInit config m)

end Runs

end Arm2x86.Easy
