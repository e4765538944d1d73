import Arm2x86.Arm32.Model
import Arm2x86.Translate.Relocation
import Mathlib.Data.List.TakeWhile

/-!
# What the converters read

The addresses that `arm2x86_convert_block` and `arm2x86_convert_block_arm32` read guest code from. Both
loops go on while a word starts inside of the buffer, so the last word may end behind it. The debugging
output of the first one asks for the whole word.
-/

namespace Arm2x86.Translate

section Reads

/-- The bytes of `arm2x86_read_le32`. -/
def readLe32At (p : BitVec 64) : List (BitVec 64) := (List.range 4).map fun i ↦ p + BitVec.ofNat 64 i

variable (blk : Block)

/-- The words of the debugging output, in front of the loop. -/
def debugReads : List (BitVec 64) :=
  ((List.range 5).takeWhile fun k ↦ 4 * k + 4 ≤ blk.size).flatMap fun k ↦ readLe32At (blk.pc k)

/-- What one turn of the loop reads. The decoder reads the word again, unless it rejects the
address. -/
def turnReads (k : Nat) : List (BitVec 64) :=
  readLe32At (blk.pc k) ++ if blk.pc k &&& 3 == 0 then readLe32At (blk.pc k) else []

/-- The loop together with what it reads. -/
def readingLoop (env : Env) (stack : Stack) : Nat → Nat → TranslateCtx →
    TranslateCtx × List (BitVec 64)
  | 0, _, t => (t, [])
  | fuel + 1, k, t =>
    if 4 * k < blk.size then
      let t := translateStep env stack blk k t
      if isBlockTerminator (blk.decoded stack k).instrType then (t.batchStore, turnReads blk k)
      else
        let (t, reads) := readingLoop env stack fuel (k + 1) t
        (t, turnReads blk k ++ reads)
    else
      (t, [])

/-- What `arm2x86_convert_block` reads. -/
def convertBlockReads (env : Env) (stack : Stack) (x86Base : BitVec 64) (debug : Bool) :
    List (BitVec 64) :=
  (if debug then debugReads blk else []) ++
    (readingLoop blk env stack maxInstructions 0 (startCtx stack blk x86Base)).2

/-- What `arm2x86_convert_block_arm32` reads. -/
def convertBlockArm32Reads : List (BitVec 64) :=
  (List.range (Arm32.wordCount blk.size)).flatMap fun k ↦ readLe32At (blk.pc k)

/-- All of that is inside of the buffer. -/
def ReadsInside (reads : List (BitVec 64)) : Prop := ∀ a ∈ reads, a ∈ (⟨blk.addr, blk.size⟩ : Region)

end Reads

section Words

variable {blk : Block} {k : Nat}

theorem mem_readLe32At {p a : BitVec 64} : a ∈ readLe32At p ↔ ∃ i < 4, a = p + BitVec.ofNat 64 i := by
  simp only [readLe32At, List.mem_map, List.mem_range, eq_comm]

/-- A word that starts inside of the buffer is inside of it unless it ends behind it. -/
theorem readsInside_word (hsize : blk.size < 2 ^ 64) (hk : 4 * k < blk.size) :
    ReadsInside blk (readLe32At (blk.pc k)) ↔ 4 * k + 4 ≤ blk.size := by
  have hoff : ∀ i < 4, (blk.pc k + BitVec.ofNat 64 i - blk.addr).toNat = 4 * k + i := by
    intro i hi
    rw [Block.pc, BitVec.add_assoc, BitVec.add_comm, BitVec.add_sub_cancel, ← BitVec.ofNat_add,
      BitVec.toNat_ofNat, Nat.mod_eq_of_lt (by omega)]
  constructor
  · intro h
    have hlast := h _ (mem_readLe32At.mpr ⟨3, by decide, rfl⟩)
    rw [Region.mem_iff, hoff 3 (by decide)] at hlast
    exact hlast
  · intro h a ha
    obtain ⟨i, hi, rfl⟩ := mem_readLe32At.mp ha
    rw [Region.mem_iff, hoff i hi]
    show 4 * k + i < blk.size
    omega

theorem readsInside_append {xs ys : List (BitVec 64)} :
    ReadsInside blk (xs ++ ys) ↔ ReadsInside blk xs ∧ ReadsInside blk ys := List.forall_mem_append

theorem readsInside_flatMap {ks : List Nat} {f : Nat → List (BitVec 64)} :
    ReadsInside blk (ks.flatMap f) ↔ ∀ k ∈ ks, ReadsInside blk (f k) := by
  simp only [ReadsInside, List.mem_flatMap, forall_exists_index, and_imp]
  exact ⟨fun h k hk a ha ↦ h a k hk ha, fun h a k hk ha ↦ h k hk a ha⟩

/-- The decoder reads nothing else. -/
theorem readsInside_turn : ReadsInside blk (turnReads blk k) ↔ ReadsInside blk (readLe32At (blk.pc k)) := by
  rw [turnReads, readsInside_append, and_iff_left_iff_imp]
  intro h
  split
  · exact h
  · exact List.forall_mem_nil _

/-- The debugging output stays inside. -/
theorem readsInside_debug (hsize : blk.size < 2 ^ 64) : ReadsInside blk (debugReads blk) := by
  rw [debugReads, readsInside_flatMap]
  intro k hk
  have hend := List.mem_takeWhile_imp hk
  rw [decide_eq_true_eq] at hend
  exact (readsInside_word hsize (by omega)).mpr hend

end Words

section Loops

variable {blk : Block} {env : Env} {stack : Stack} {fuel k : Nat} {t : TranslateCtx}

/-- The loop translates as it does without its reads. -/
theorem readingLoop_fst :
    (readingLoop blk env stack fuel k t).1 = convertLoop env stack blk fuel k t := by
  induction fuel generalizing k t with
  | zero => rfl
  | succ fuel ih =>
    rw [readingLoop, convertLoop]
    split
    · split
      · rfl
      · exact ih
    · rfl

/-- It reads inside of the buffer if every instruction that it comes to is there. -/
theorem readsInside_readingLoop :
    ReadsInside blk (readingLoop blk env stack fuel k t).2 ↔ ∀ j, k ≤ j → j < k + fuel → 4 * j < blk.size →
      (∀ i, k ≤ i → i < j → isBlockTerminator (blk.decoded stack i).instrType = false) →
      ReadsInside blk (readLe32At (blk.pc j)) := by
  induction fuel generalizing k t with
  | zero =>
    refine iff_of_true (List.forall_mem_nil _) fun j hj hlt ↦ ?_
    omega
  | succ fuel ih =>
    rw [readingLoop]
    split
    · next hin =>
      dsimp only
      split
      · next hterm =>
        rw [readsInside_turn]
        constructor
        · intro h j hj hlt hsize hgoes
          rcases Nat.eq_or_lt_of_le hj with rfl | hj
          · exact h
          · rw [hgoes k (Nat.le_refl k) hj] at hterm
            cases hterm
        · exact fun h ↦ h k (Nat.le_refl k) (by omega) hin fun i hi hik ↦ by omega
      · next hterm =>
        rw [Bool.not_eq_true] at hterm
        rw [readsInside_append, readsInside_turn, ih]
        constructor
        · rintro ⟨hword, hrest⟩ j hj hlt hsize hgoes
          rcases Nat.eq_or_lt_of_le hj with rfl | hj
          · exact hword
          · exact hrest j hj (by omega) hsize fun i hi ↦ hgoes i (Nat.le_of_succ_le hi)
        · intro h
          refine ⟨h k (Nat.le_refl k) (by omega) hin fun i hi hik ↦ by omega, ?_⟩
          intro j hj hlt hsize hgoes
          apply h j (Nat.le_of_succ_le hj) (by omega) hsize
          intro i hi hij
          rcases Nat.eq_or_lt_of_le hi with rfl | hi
          · exact hterm
          · exact hgoes i hi hij
    · next hin =>
      refine iff_of_true (List.forall_mem_nil _) fun j hj hlt hsize ↦ ?_
      omega

/-- The instructions that the loop comes to are inside of the buffer unless the last word, which is
not whole, is one of them. -/
theorem readsInside_convertBlock (hsize : blk.size < 2 ^ 64) {x86Base : BitVec 64} {debug : Bool} :
    ReadsInside blk (convertBlockReads blk env stack x86Base debug) ↔
      blk.size % 4 = 0 ∨ ¬ blk.Visits stack (blk.size / 4) := by
  have hdebug : ReadsInside blk (if debug then debugReads blk else []) := by
    split
    · exact readsInside_debug hsize
    · exact List.forall_mem_nil _
  rw [convertBlockReads, readsInside_append, and_iff_right hdebug, readsInside_readingLoop]
  constructor
  · intro h
    by_contra hne
    rw [not_or, not_not] at hne
    obtain ⟨hrest, hlimit, hin, hgoes⟩ := hne
    have hword := h _ (Nat.zero_le _) (by omega) hin fun i _ ↦ hgoes i
    rw [readsInside_word hsize hin] at hword
    omega
  · intro h j _ hj hin hgoes
    rw [readsInside_word hsize hin]
    rcases h with h | h
    · omega
    · by_contra hend
      have hlast : j = blk.size / 4 := by omega
      subst hlast
      exact h ⟨by omega, hin, fun i ↦ hgoes i (Nat.zero_le i)⟩

/-- The other loop comes to all words. -/
theorem readsInside_convertBlockArm32 (hsize : blk.size < 2 ^ 64) :
    ReadsInside blk (convertBlockArm32Reads blk) ↔ blk.size % 4 = 0 := by
  rw [convertBlockArm32Reads, readsInside_flatMap]
  constructor
  · intro h
    by_contra hrest
    have hword := h (blk.size / 4) (List.mem_range.mpr (by rw [Arm32.wordCount]; omega))
    rw [readsInside_word hsize (by omega)] at hword
    omega
  · intro h k hk
    rw [List.mem_range, Arm32.wordCount] at hk
    rw [readsInside_word hsize (by omega)]
    omega

end Loops

section Result

/-- `arm2x86_convert_block` reads inside of its buffer when the size is a multiple of four, or when the
loop stops in front of the last word: behind 64 instructions, or behind a branch. The other converter
does in the first case only. -/
theorem converters_read_inside_iff (mem : BitVec 64 → Byte) (addr size : BitVec 64) (env : Env)
    (stack : Stack) (x86Base : BitVec 64) (debug : Bool) :
    (ReadsInside ⟨mem, addr, size.toNat⟩
        (convertBlockReads ⟨mem, addr, size.toNat⟩ env stack x86Base debug) ↔
      size.toNat % 4 = 0 ∨ maxInstructions ≤ size.toNat / 4 ∨ ∃ k < size.toNat / 4,
        isBlockTerminator (Block.decoded ⟨mem, addr, size.toNat⟩ stack k).instrType = true) ∧
    (ReadsInside ⟨mem, addr, size.toNat⟩ (convertBlockArm32Reads ⟨mem, addr, size.toNat⟩) ↔
      size.toNat % 4 = 0) := by
  obtain ⟨blk, hblk⟩ : ∃ blk : Block, blk = ⟨mem, addr, size.toNat⟩ := ⟨_, rfl⟩
  have hsize : blk.size = size.toNat := by rw [hblk]
  have hlt : blk.size < 2 ^ 64 := hsize ▸ size.isLt
  rw [← hblk, ← hsize]
  refine ⟨(readsInside_convertBlock hlt).trans ?_, readsInside_convertBlockArm32 hlt⟩
  by_cases hrest : blk.size % 4 = 0
  · simp only [hrest, true_or]
  · have hin : 4 * (blk.size / 4) < blk.size := by omega
    simp only [hrest, false_or, Block.Visits, hin, true_and, not_and_or, Nat.not_lt, not_forall,
      exists_prop, Bool.not_eq_false]

/-- A buffer of one byte: both read the three bytes behind it. -/
theorem one_byte_not_inside :
    ¬ ReadsInside ⟨fun _ ↦ 0, 0x1000, 1⟩
        (convertBlockReads ⟨fun _ ↦ 0, 0x1000, 1⟩ .default .zero 0 false) ∧
      ¬ ReadsInside ⟨fun _ ↦ 0, 0x1000, 1⟩ (convertBlockArm32Reads ⟨fun _ ↦ 0, 0x1000, 1⟩) := by
  rw [readsInside_convertBlock (by decide), readsInside_convertBlockArm32 (by decide)]
  refine ⟨?_, by decide⟩
  rintro (hrest | hlast)
  · cases hrest
  · exact hlast ⟨by decide, by decide, fun j hj ↦ absurd hj (Nat.not_lt_zero j)⟩

end Result

end Arm2x86.Translate
