import Arm2x86.Base.Bytes
import Arm2x86.Base.Selection
import Mathlib.Data.List.InsertIdx
import Mathlib.Data.List.Induction
import Mathlib.Order.OrderDual

/-!
# The code cache of the core

`arm2x86_cache_init`, `lookup`, `insert` and `destroy` of `src/arm2x86.c:304`: an array of translated
blocks in the order in which they came. A full array gives up the block that was found least. A block
that is given up is unmapped; the blocks that are there when the array is emptied are only forgotten.
-/

namespace Arm2x86.Core

/-- `MAX_CACHED_BLOCKS`. -/
def maxCachedBlocks : Nat := 4096

/-- `CodeCacheBlock`, `arm2x86.c:307`. -/
structure CodeCacheBlock where
  arm64Addr : BitVec 64
  x86Code : BitVec 64
  x86Size : BitVec 64
  arm64Size : BitVec 64
  hash : BitVec 32
  hitCount : BitVec 32
deriving DecidableEq

/-- A block of the array that was never used. -/
def CodeCacheBlock.zero : CodeCacheBlock := ⟨0, 0, 0, 0, 0, 0⟩

/-- The array up to `g_cache_count`, and `g_code_cache_mem`. -/
structure CodeCache where
  blocks : List CodeCacheBlock
  mem : BitVec 64

/-- What `arm2x86_cache_insert` is called with. The guest code has `arm64_size` bytes. -/
structure Insert where
  arm64Addr : BitVec 64
  arm64Code : List Byte
  x86Code : BitVec 64
  x86Size : BitVec 64
deriving DecidableEq

/-- `code_hash`, `arm2x86.c:321`: of the whole words in the first 64 bytes. -/
def codeHash (addr : BitVec 64) (code : List Byte) : BitVec 32 :=
  (List.range (min code.length 64 / 4)).foldl
    (fun h k ↦ (h ^^^ BitVec.ofNat 32 (leNat ((code.drop (4 * k)).take 4))) * 31)
    ((addr ^^^ (addr >>> 32)).setWidth 32)

/-- The block that an insert writes. -/
def Insert.block (x : Insert) : CodeCacheBlock where
  arm64Addr := x.arm64Addr
  x86Code := x.x86Code
  x86Size := x.x86Size
  arm64Size := BitVec.ofNat 64 x.arm64Code.length
  hash := codeHash x.arm64Addr x.arm64Code
  hitCount := 0

namespace CodeCache

/-- `arm2x86_cache_init`, `arm2x86.c:384`: what `mmap` returned, or NULL when it failed. -/
def init (memory : BitVec 64) : CodeCache := ⟨[], memory⟩

/-- `arm2x86_cache_destroy`, `arm2x86.c:395`. -/
def destroy (_ : CodeCache) : CodeCache := ⟨[], 0⟩

/-- `arm2x86_cache_lookup`, `arm2x86.c:332`: the index of the block. -/
def lookup (c : CodeCache) (arm64Addr : BitVec 64) : Option Nat × CodeCache :=
  match c.blocks.findIdx? fun b ↦ b.arm64Addr = arm64Addr with
  | some i =>
    (some i, { c with blocks := c.blocks.modify i fun b ↦ { b with hitCount := b.hitCount + 1 } })
  | none => (none, c)

/-- The hits of a block, an `int`. -/
def hits (blocks : List CodeCacheBlock) (i : Nat) : Int := (blocks.getD i .zero).hitCount.toInt

/-- The block that `lru` names after the loop of `arm2x86_cache_insert`. -/
def lru (blocks : List CodeCacheBlock) : Nat :=
  (List.range' 1 (blocks.length - 1)).foldl
    (fun lru i ↦ if hits blocks i < hits blocks lru then i else lru) 0

/-- `arm2x86_cache_insert`, `arm2x86.c:347`: the index, the cache, and the code that is unmapped. -/
def insert (c : CodeCache) (x : Insert) : Nat × CodeCache × Option (BitVec 64) :=
  if c.blocks.length ≥ maxCachedBlocks then
    let i := lru c.blocks
    let old := (c.blocks.getD i .zero).x86Code
    (i, { c with blocks := c.blocks.set i x.block }, if old ≠ 0 ∧ old ≠ c.mem then some old else none)
  else (c.blocks.length, { c with blocks := c.blocks ++ [x.block] }, none)

end CodeCache

/-! ## Runs -/

/-- A call of one of the functions. -/
inductive Call
  | init (memory : BitVec 64)
  | destroy
  | lookup (arm64Addr : BitVec 64)
  | insert (x : Insert)

/-- The cache with the code that was handed to it and is still mapped, the code that it forgot, and the
calls of `munmap` for code that was not mapped. -/
structure Process where
  cache : CodeCache
  mapped : List (BitVec 64)
  forgotten : List (BitVec 64)
  faults : List (BitVec 64)

namespace Process

/-- The code of the cached blocks. -/
def codes (p : Process) : List (BitVec 64) := p.cache.blocks.map CodeCacheBlock.x86Code

/-- `munmap` of code. -/
def unmap (p : Process) (code : BitVec 64) : Process :=
  if code ∈ p.mapped then { p with mapped := p.mapped.erase code }
  else { p with faults := code :: p.faults }

/-- The static data before the first call. -/
def start : Process := ⟨⟨[], 0⟩, [], [], []⟩

def step (p : Process) : Call → Process
  | .init memory => { p with cache := .init memory, forgotten := p.forgotten ++ p.codes }
  | .destroy => { p with cache := p.cache.destroy, forgotten := p.forgotten ++ p.codes }
  | .lookup a => { p with cache := (p.cache.lookup a).2 }
  | .insert x =>
    let (_, cache, old) := p.cache.insert x
    let p := { p with cache, mapped := x.x86Code :: p.mapped }
    old.elim p p.unmap

/-- Code that is inserted was mapped for it: it is none of the code that is in use, nor the memory of the
cache, which is none of that code either. -/
def Fresh (p : Process) : Call → Prop
  | .init memory => memory ∉ p.mapped
  | .insert x => x.x86Code ≠ 0 ∧ x.x86Code ≠ p.cache.mem ∧ x.x86Code ∉ p.mapped
  | _ => True

instance (p : Process) (c : Call) : Decidable (p.Fresh c) :=
  match c with
  | .init memory => inferInstanceAs (Decidable (memory ∉ p.mapped))
  | .destroy => inferInstanceAs (Decidable True)
  | .lookup _ => inferInstanceAs (Decidable True)
  | .insert x => inferInstanceAs (Decidable (x.x86Code ≠ 0 ∧ x.x86Code ≠ p.cache.mem ∧ x.x86Code ∉ p.mapped))

end Process

/-- What the calls of a process lead to. -/
inductive Runs : List Call → Process → Prop
  | start : Runs [] .start
  | step {calls : List Call} {p : Process} {c : Call} (h : Runs calls p) (hfresh : p.Fresh c) :
      Runs (calls ++ [c]) (p.step c)

/-- The inserts since the cache was last emptied. -/
def live : List Call → List Insert :=
  List.foldl (fun xs c ↦ match c with
    | .init _ | .destroy => []
    | .lookup _ => xs
    | .insert x => xs ++ [x]) []

/-- A block apart from how often it was found. -/
def CodeCacheBlock.unhit (b : CodeCacheBlock) : CodeCacheBlock := { b with hitCount := 0 }

/-- What holds of a process after some calls. -/
structure Accounts (calls : List Call) (p : Process) : Prop where
  /-- The inserts fill the array. -/
  count : p.cache.blocks.length = min (live calls).length maxCachedBlocks
  /-- What is found for an address was inserted for it, and its code is mapped. -/
  found : ∀ a i, (p.cache.lookup a).1 = some i → ∃ x ∈ live calls, x.arm64Addr = a ∧
    ∃ b, p.cache.blocks[i]? = some b ∧ b.unhit = x.block ∧ b.x86Code ∈ p.mapped
  /-- Until a block is given up, the first insert for an address is found. -/
  first : (live calls).length ≤ maxCachedBlocks →
    ∀ a, (p.cache.lookup a).1 = (live calls).findIdx? fun x ↦ x.arm64Addr = a
  /-- A full array gives up a block that was found least. -/
  victim : maxCachedBlocks ≤ (live calls).length → ∀ x, ∃ b,
    p.cache.blocks[(p.cache.insert x).1]? = some b ∧ (p.cache.insert x).2.2 = some b.x86Code ∧
      ∀ c ∈ p.cache.blocks, b.hitCount.toInt ≤ c.hitCount.toInt
  /-- The code that is mapped is that of the cached blocks and what the cache forgot, each once. -/
  owned : p.mapped.Perm (p.codes ++ p.forgotten) ∧ p.mapped.Nodup
  /-- No code is unmapped that is not mapped. -/
  faults : p.faults = []

/-- What every call keeps. -/
structure Inv (calls : List Call) (p : Process) : Prop where
  count : p.cache.blocks.length = min (live calls).length maxCachedBlocks
  inserted : ∀ b ∈ p.cache.blocks, ∃ x ∈ live calls, b.unhit = x.block
  order : (live calls).length ≤ maxCachedBlocks →
    p.cache.blocks.map CodeCacheBlock.unhit = (live calls).map Insert.block
  codes : ∀ a ∈ p.codes, a ≠ 0 ∧ a ≠ p.cache.mem
  perm : p.mapped.Perm (p.codes ++ p.forgotten)
  nodup : p.mapped.Nodup
  faults : p.faults = []

variable {calls : List Call} {p : Process} {c : Call}

theorem live_concat (calls : List Call) (c : Call) : live (calls ++ [c]) =
    match c with
    | .init _ | .destroy => []
    | .lookup _ => live calls
    | .insert x => live calls ++ [x] := by
  rw [live, List.foldl_append]
  rfl

theorem inv_start : Inv [] .start where
  count := rfl
  inserted _ hb := absurd hb List.not_mem_nil
  order _ := rfl
  codes _ ha := absurd ha List.not_mem_nil
  perm := List.Perm.refl _
  nodup := List.nodup_nil
  faults := rfl

/-- Emptying the array forgets the blocks. -/
theorem Inv.emptied (h : Inv calls p) (memory : BitVec 64) (hc : live (calls ++ [c]) = []) :
    Inv (calls ++ [c]) { p with cache := ⟨[], memory⟩, forgotten := p.forgotten ++ p.codes } where
  count := by
    rw [hc]
    rfl
  inserted _ hb := absurd hb List.not_mem_nil
  order _ := by
    rw [hc]
    rfl
  codes _ ha := absurd ha List.not_mem_nil
  perm := h.perm.trans List.perm_append_comm
  nodup := h.nodup
  faults := h.faults

/-- A lookup changes how often a block was found, and nothing else. -/
theorem lookup_blocks (c : CodeCache) (a : BitVec 64) :
    (c.lookup a).2.blocks.map CodeCacheBlock.unhit = c.blocks.map CodeCacheBlock.unhit := by
  unfold CodeCache.lookup
  split
  · apply List.ext_getElem
    · simp
    · intro j hj hj'
      simp only [List.getElem_map, List.getElem_modify]
      split <;> rfl
  · rfl

theorem lookup_mem (c : CodeCache) (a : BitVec 64) : (c.lookup a).2.mem = c.mem := by
  unfold CodeCache.lookup
  split <;> rfl

theorem codes_eq_unhit (p : Process) :
    p.codes = (p.cache.blocks.map CodeCacheBlock.unhit).map CodeCacheBlock.x86Code := by
  rw [List.map_map]
  rfl

theorem inserted_iff (bs : List CodeCacheBlock) (xs : List Insert) :
    (∀ b ∈ bs, ∃ x ∈ xs, b.unhit = x.block) ↔
      ∀ b ∈ bs.map CodeCacheBlock.unhit, ∃ x ∈ xs, b = x.block := by
  simp

theorem Inv.lookup (h : Inv calls p) (a : BitVec 64) :
    Inv (calls ++ [.lookup a]) { p with cache := (p.cache.lookup a).2 } := by
  have hblocks := lookup_blocks p.cache a
  have hcodes : Process.codes { p with cache := (p.cache.lookup a).2 } = p.codes := by
    rw [codes_eq_unhit, codes_eq_unhit]
    exact congrArg _ hblocks
  have hlive : live (calls ++ [.lookup a]) = live calls := live_concat calls _
  refine ⟨?_, ?_, ?_, ?_, ?_, h.nodup, h.faults⟩
  · rw [hlive, ← h.count]
    simpa using congrArg List.length hblocks
  · rw [hlive, inserted_iff, hblocks, ← inserted_iff]
    exact h.inserted
  · rw [hlive, hblocks]
    exact h.order
  · rw [hcodes, lookup_mem]
    exact h.codes
  · rw [hcodes]
    exact h.perm

/-- The loop names one of the blocks. -/
theorem lru_lt (blocks : List CodeCacheBlock) (h : 0 < blocks.length) : CodeCache.lru blocks < blocks.length := by
  let key (i : Nat) : Intᵒᵈ := OrderDual.toDual (CodeCache.hits blocks i)
  have hloop : CodeCache.lru blocks = Selection.greatest key 0 (List.range' 1 (blocks.length - 1)) := rfl
  rw [hloop]
  have hmem : Selection.greatest key 0 (List.range' 1 (blocks.length - 1)) ∈
      0 :: List.range' 1 (blocks.length - 1) := Selection.greatest_mem _ _
  rcases List.mem_cons.mp hmem with heq | hmem
  · rwa [heq]
  · have hrange := List.mem_range'_1.mp hmem
    omega

/-- No block was found less often than the one that the loop names. -/
theorem hits_lru_le (blocks : List CodeCacheBlock) {i : Nat} (hi : i < blocks.length) :
    CodeCache.hits blocks (CodeCache.lru blocks) ≤ CodeCache.hits blocks i := by
  let key (i : Nat) : Intᵒᵈ := OrderDual.toDual (CodeCache.hits blocks i)
  have hmem : i ∈ 0 :: List.range' 1 (blocks.length - 1) := by
    rw [List.mem_cons, List.mem_range'_1]
    omega
  exact OrderDual.toDual_le_toDual.mp (Selection.le_greatest key hmem)

theorem hits_eq {blocks : List CodeCacheBlock} {i : Nat} (hi : i < blocks.length) :
    CodeCache.hits blocks i = blocks[i].hitCount.toInt := by
  rw [CodeCache.hits, List.getD_eq_getElem?_getD, List.getElem?_eq_getElem hi, Option.getD_some]

/-- With room left the block goes behind the others. -/
theorem Inv.insert_room (h : Inv calls p) (x : Insert) (hfresh : p.Fresh (.insert x))
    (hroom : p.cache.blocks.length < maxCachedBlocks) :
    Inv (calls ++ [.insert x])
      { p with cache := ⟨p.cache.blocks ++ [x.block], p.cache.mem⟩, mapped := x.x86Code :: p.mapped } := by
  have hlive : live (calls ++ [.insert x]) = live calls ++ [x] := live_concat calls _
  have hcount := h.count
  refine ⟨?_, ?_, ?_, ?_, ?_, ?_, h.faults⟩
  · rw [hlive, List.length_append, List.length_append, List.length_singleton, List.length_singleton]
    omega
  · rw [hlive]
    intro b hb
    rcases List.mem_append.mp hb with hb | hb
    · obtain ⟨y, hy, hby⟩ := h.inserted b hb
      exact ⟨y, List.mem_append_left _ hy, hby⟩
    · rw [List.mem_singleton.mp hb]
      exact ⟨x, List.mem_append_right _ (List.mem_singleton.mpr rfl), rfl⟩
  · rw [hlive, List.length_append, List.length_singleton]
    intro hle
    rw [List.map_append, List.map_append, h.order (by omega)]
    rfl
  · intro a ha
    rw [Process.codes, List.map_append, List.mem_append] at ha
    rcases ha with ha | ha
    · exact h.codes a ha
    · rw [List.mem_singleton.mp ha]
      exact ⟨hfresh.1, hfresh.2.1⟩
  · rw [Process.codes, List.map_append, List.append_assoc]
    exact (h.perm.cons x.x86Code).trans List.perm_middle.symm
  · exact List.nodup_cons.mpr ⟨hfresh.2.2, h.nodup⟩

/-- Without room the block takes the place of another one, whose code is unmapped. -/
theorem Inv.insert_full (h : Inv calls p) (x : Insert) (hfresh : p.Fresh (.insert x)) {i : Nat}
    (hi : i < p.cache.blocks.length) (hfull : p.cache.blocks.length = maxCachedBlocks) :
    Inv (calls ++ [.insert x])
      (Process.unmap { p with
        cache := ⟨p.cache.blocks.set i x.block, p.cache.mem⟩
        mapped := x.x86Code :: p.mapped } p.cache.blocks[i].x86Code) := by
  have hlive : live (calls ++ [.insert x]) = live calls ++ [x] := live_concat calls _
  have hcount := h.count
  have hi' : i < p.codes.length := by rwa [Process.codes, List.length_map]
  have hold : p.cache.blocks[i].x86Code = p.codes[i] := by simp [Process.codes]
  have hmem : p.codes[i] ∈ p.mapped :=
    h.perm.mem_iff.mpr (List.mem_append_left _ (List.getElem_mem hi'))
  have hne : x.x86Code ≠ p.codes[i] := fun heq ↦ hfresh.2.2 (heq ▸ hmem)
  have hmapped : (x.x86Code :: p.mapped).erase p.codes[i] = x.x86Code :: p.mapped.erase p.codes[i] :=
    List.erase_cons_tail (by simpa using hne)
  rw [hold, Process.unmap, if_pos (List.mem_cons_of_mem _ hmem), hmapped]
  refine ⟨?_, ?_, ?_, ?_, ?_, ?_, h.faults⟩
  · rw [hlive, List.length_append, List.length_singleton, List.length_set]
    omega
  · rw [hlive]
    intro b hb
    rcases List.mem_or_eq_of_mem_set hb with hb | rfl
    · obtain ⟨y, hy, hby⟩ := h.inserted b hb
      exact ⟨y, List.mem_append_left _ hy, hby⟩
    · exact ⟨x, List.mem_append_right _ (List.mem_singleton.mpr rfl), rfl⟩
  · rw [hlive, List.length_append, List.length_singleton]
    intro hle
    omega
  · intro a ha
    rw [Process.codes, List.map_set] at ha
    rcases List.mem_or_eq_of_mem_set ha with ha | rfl
    · exact h.codes a ha
    · exact ⟨hfresh.1, hfresh.2.1⟩
  · have hset : (p.codes.set i x.x86Code).Perm (x.x86Code :: p.codes.eraseIdx i) := by
      rw [← List.insertIdx_eraseIdx_self (by omega)]
      exact List.perm_insertIdx _ _ (by rw [List.length_eraseIdx_of_lt hi']; omega)
    have herase : (p.mapped.erase p.codes[i]).Perm (p.codes.eraseIdx i ++ p.forgotten) := by
      apply (h.perm.erase _).trans
      rw [List.erase_append_left _ (List.getElem_mem hi')]
      exact (List.erase_getElem hi').append_right _
    have hcodes : (p.cache.blocks.set i x.block).map CodeCacheBlock.x86Code = p.codes.set i x.x86Code :=
      List.map_set
    show (x.x86Code :: p.mapped.erase p.codes[i]).Perm
      ((p.cache.blocks.set i x.block).map CodeCacheBlock.x86Code ++ p.forgotten)
    rw [hcodes]
    exact (herase.cons x.x86Code).trans (hset.symm.append_right _)
  · exact List.nodup_cons.mpr ⟨fun hin ↦ hfresh.2.2 (List.mem_of_mem_erase hin), h.nodup.erase _⟩

theorem insert_of_room (c : CodeCache) (x : Insert) (h : c.blocks.length < maxCachedBlocks) :
    c.insert x = (c.blocks.length, ⟨c.blocks ++ [x.block], c.mem⟩, none) :=
  if_neg (Nat.not_le.mpr h)

theorem insert_of_full (c : CodeCache) (x : Insert) (h : c.blocks.length = maxCachedBlocks)
    (hi : CodeCache.lru c.blocks < c.blocks.length)
    (hcode : c.blocks[CodeCache.lru c.blocks].x86Code ≠ 0 ∧
      c.blocks[CodeCache.lru c.blocks].x86Code ≠ c.mem) :
    c.insert x = (CodeCache.lru c.blocks, ⟨c.blocks.set (CodeCache.lru c.blocks) x.block, c.mem⟩,
      some c.blocks[CodeCache.lru c.blocks].x86Code) := by
  rw [CodeCache.insert, if_pos (Nat.le_of_eq h.symm)]
  dsimp only
  rw [List.getD_eq_getElem?_getD, List.getElem?_eq_getElem hi, Option.getD_some, if_pos hcode]

/-- In a full array the first of the blocks that were found least is replaced. -/
theorem Inv.insert_full_eq (h : Inv calls p) (x : Insert) (hfull : p.cache.blocks.length = maxCachedBlocks) :
    ∃ hi : CodeCache.lru p.cache.blocks < p.cache.blocks.length, p.cache.insert x =
      (CodeCache.lru p.cache.blocks,
        ⟨p.cache.blocks.set (CodeCache.lru p.cache.blocks) x.block, p.cache.mem⟩,
        some p.cache.blocks[CodeCache.lru p.cache.blocks].x86Code) := by
  have hi := lru_lt p.cache.blocks (by rw [hfull]; decide)
  exact ⟨hi, insert_of_full _ _ hfull hi (h.codes _ (List.mem_map_of_mem (List.getElem_mem hi)))⟩

theorem Inv.insert (h : Inv calls p) (x : Insert) (hfresh : p.Fresh (.insert x)) :
    Inv (calls ++ [.insert x]) (p.step (.insert x)) := by
  have hcount := h.count
  rw [Process.step]
  by_cases hroom : p.cache.blocks.length < maxCachedBlocks
  · rw [insert_of_room _ _ hroom]
    exact h.insert_room x hfresh hroom
  · have hfull : p.cache.blocks.length = maxCachedBlocks := by omega
    obtain ⟨hi, heq⟩ := h.insert_full_eq x hfull
    rw [heq]
    exact h.insert_full x hfresh hi hfull

theorem Inv.step (h : Inv calls p) (hfresh : p.Fresh c) : Inv (calls ++ [c]) (p.step c) := by
  cases c with
  | init memory => exact h.emptied memory (live_concat calls _)
  | destroy => exact h.emptied 0 (live_concat calls _)
  | lookup a => exact h.lookup a
  | insert x => exact h.insert x hfresh

theorem Runs.inv (h : Runs calls p) : Inv calls p := by
  induction h with
  | start => exact inv_start
  | step _ hfresh ih => exact ih.step hfresh

theorem lookup_fst (c : CodeCache) (a : BitVec 64) :
    (c.lookup a).1 = c.blocks.findIdx? fun b ↦ b.arm64Addr = a := by
  unfold CodeCache.lookup
  split
  · next hi => exact hi.symm
  · next hi => exact hi.symm

/-- Two translations of one block, and the end of the context. -/
private def sampleCalls : List Call :=
  [.init 0x1000, .insert ⟨0x4000, [0xc0, 0x03, 0x5f, 0xd6], 0x9000, 16⟩, .lookup 0x4000,
    .insert ⟨0x4000, [0xc0, 0x03, 0x5f, 0xd6], 0xa000, 16⟩, .destroy]

end Arm2x86.Core
