import Arm2x86.Hotblock.Model
import Mathlib.Data.List.Induction
import Mathlib.Data.List.Nodup
import Arm2x86.Base.History

/-!
# Counting hits

What the table knows of the calls before. Each block has the hits of its address since it was taken for
it, modulo the size of the counter; with a clock that goes on, the least access is the one whose last hit
is the longest ago.
-/

/-!
## The table of hot blocks

`HotBlockManager` of `modules/arm2x86_hotblock.c`: the blocks that have been run, with the number of their
hits and the time of the last one. Blocks are never given back; a full table takes the one of the longest
ago.
-/

namespace Arm2x86.Hotblock

/-- An address of the guest or of the host; zero is NULL. -/
abbrev Addr := BitVec 64

/-- `HOT_BLOCK_MAX`. -/
def hotBlockMax : Nat := 1024

/-- `HOT_BLOCK_THRESHOLD`. -/
def hotBlockThreshold : BitVec 32 := 100

/-- `HOT_BLOCK_AGGRESSIVE`. -/
def hotBlockAggressive : BitVec 32 := 1000

/-- `HOT_FLAG_MARKED`, `HOT_FLAG_RETRANSLATED` and `HOT_FLAG_AGGRESSIVE`. -/
def hotFlagMarked : BitVec 32 := 1

def hotFlagRetranslated : BitVec 32 := 2

def hotFlagAggressive : BitVec 32 := 4

/-- `HotBlock`, `arm2x86_hotblock.h:22`. -/
structure HotBlock where
  armPc : Addr
  x86Entry : Addr
  hitCount : BitVec 32
  x86Optimized : Addr
  optSize : Nat
  flags : BitVec 32
  lastAccess : BitVec 64
deriving DecidableEq

/-- A block that was never used, or is cleared. -/
def HotBlock.zero : HotBlock := ⟨0, 0, 0, 0, 0, 0, 0⟩

/-- `HotBlockManager`. The blocks are those below `count`; the others have never been used. -/
structure HotBlockManager where
  blocks : List HotBlock
  totalRetranslations : BitVec 32
deriving DecidableEq

/-- A call of `hotblock_record_hit` with what it gets from elsewhere: the reading of the clock, what the
phases make of the code if they are run, and what `malloc` returns for the outcome. -/
structure Call where
  armPc : Addr
  x86Entry : Addr
  now : BitVec 64
  optimized : Optimized
  memory : Addr

/-- `hotblock_init`. -/
def init : HotBlockManager := ⟨[], 0⟩

/-- `hotblock_lookup`, `arm2x86_hotblock.c:424`. -/
def lookup (hbm : HotBlockManager) (armPc : Addr) : Option Nat :=
  hbm.blocks.findIdx? fun b ↦ b.armPc = armPc

/-- The loop over the last accesses from the block of index `i` on: the first block with the least one,
given that of the blocks before. -/
def leastAccess (lru : Nat) (minTime : BitVec 64) : Nat → List HotBlock → Nat
  | _, [] => lru
  | i, b :: rest =>
    if b.lastAccess < minTime then leastAccess i b.lastAccess (i + 1) rest
    else leastAccess lru minTime (i + 1) rest

/-- The block that a full table gives up. -/
def oldest (blocks : List HotBlock) : Nat :=
  leastAccess 0 (blocks.headD .zero).lastAccess 1 (blocks.drop 1)

/-- The block for a new address, with the blocks: a cleared one, or one that was never used. -/
def takeBlock (blocks : List HotBlock) : Nat × List HotBlock :=
  if blocks.length ≥ hotBlockMax then (oldest blocks, blocks.set (oldest blocks) .zero)
  else (blocks.length, blocks ++ [.zero])

/-- `hotblock_should_retranslate`, `arm2x86_hotblock.c:441`. -/
def shouldRetranslate (block : HotBlock) : Bool := block.hitCount ≥ hotBlockThreshold

/-- What `hotblock_apply_optimizations`, `arm2x86_hotblock.c:847`, returns and leaves in the block. The code
is copied when a phase has changed it. -/
def storeOptimized (block : HotBlock) (o : Optimized) (memory : Addr) : Nat × HotBlock :=
  if block.x86Entry = 0 then (0, block)
  else if 0 < o.total then
    (o.total,
      if memory = 0 then { block with x86Optimized := 0 }
      else { block with x86Optimized := memory, optSize := o.code.size })
  else (o.total, block)

/-- `hotblock_retranslate`, `arm2x86_hotblock.c:452`: the number of optimizations, the block, and whether
it counts as retranslated. -/
def retranslate (block : HotBlock) (o : Optimized) (memory : Addr) : Nat × HotBlock × Bool :=
  if block.flags &&& hotFlagRetranslated ≠ 0 then (0, block, false)
  else
    let (optCount, block) := storeOptimized block o memory
    let block := if 0 < optCount then { block with flags := block.flags ||| hotFlagRetranslated } else block
    let block :=
      if block.hitCount ≥ hotBlockAggressive then { block with flags := block.flags ||| hotFlagAggressive }
      else block
    (optCount, block, 0 < optCount)

/-- The end of `hotblock_record_hit`, on the block that has been hit. -/
def countHit (block : HotBlock) (c : Call) : HotBlock × Bool :=
  let block := { block with hitCount := block.hitCount + 1, lastAccess := c.now }
  if shouldRetranslate block ∧ block.flags &&& hotFlagRetranslated = 0 then
    (retranslate { block with flags := block.flags ||| hotFlagMarked } c.optimized c.memory).2
  else (block, false)

/-- The place of the block that is hit, with the blocks: one that is there already, or a new one. -/
def findOrTake (hbm : HotBlockManager) (c : Call) : Nat × List HotBlock :=
  match lookup hbm c.armPc with
  | some i => (i, hbm.blocks)
  | none =>
    let (i, blocks) := takeBlock hbm.blocks
    (i, blocks.modify i fun b ↦ { b with armPc := c.armPc, x86Entry := c.x86Entry, hitCount := 0, flags := 0 })

/-- `hotblock_record_hit`, `arm2x86_hotblock.c:356`. -/
def recordHit (hbm : HotBlockManager) (c : Call) : Int × HotBlockManager :=
  if c.x86Entry = 0 then (-1, hbm)
  else
    let (i, blocks) := findOrTake hbm c
    let (block, retranslated) := countHit (blocks.getD i .zero) c
    (block.hitCount.toInt,
      { blocks := blocks.set i block
        totalRetranslations := if retranslated then hbm.totalRetranslations + 1 else hbm.totalRetranslations })

/-- The table after some calls. -/
def run (cs : List Call) : HotBlockManager := cs.foldl (fun hbm c ↦ (recordHit hbm c).2) init

end Arm2x86.Hotblock

namespace Arm2x86.Hotblock

open History

/-- A call that counts as a hit of an address. -/
def Call.hits (pc : Addr) (c : Call) : Bool := c.armPc = pc && c.x86Entry ≠ 0

/-- A hit of an address, whatever was before. -/
def HitOf (pc : Addr) (_ : List Call) (c : Call) : Prop := c.hits pc

/-- A hit of an address that is not in the table. -/
def Inserts (pc : Addr) (done : List Call) (c : Call) : Prop := c.hits pc ∧ lookup (run done) pc = none

/-- The calls that read the clock find it later each time. -/
def Increasing (cs : List Call) : Prop :=
  cs.Pairwise fun c d ↦ c.x86Entry ≠ 0 → d.x86Entry ≠ 0 → c.now < d.now

/-- The addresses that are in the table. -/
def InTable (cs : List Call) (pc : Addr) : Prop := ∃ b ∈ (run cs).blocks, b.armPc = pc

/-- The counter of a block and the number of the hits of its address since that was taken into the
table. -/
def CountedAs (agree : BitVec 32 → Nat → Prop) (cs : List Call) (b : HotBlock) : Prop :=
  ∃ i c, LastAt (Inserts b.armPc) cs i c ∧ agree b.hitCount ((cs.drop i).countP (Call.hits b.armPc))

/-- A block whose last hit was before those of all others. -/
def OldestHit (cs : List Call) (b : HotBlock) : Prop :=
  ∃ i c, LastAt (HitOf b.armPc) cs i c ∧
    ∀ d ∈ (run cs).blocks, d.armPc ≠ b.armPc → ∃ j e, LastAt (HitOf d.armPc) cs j e ∧ i < j

/-- What is asked of the table after some calls, and of the next one. -/
structure TableRight (agree : BitVec 32 → Nat → Prop) (cs : List Call) : Prop where
  count_le : (run cs).blocks.length ≤ hotBlockMax
  distinct : ((run cs).blocks.map HotBlock.armPc).Nodup
  counted : ∀ b ∈ (run cs).blocks, CountedAs agree cs b
  evicts : ∀ c : Call, c.x86Entry ≠ 0 → ¬ InTable cs c.armPc → hotBlockMax ≤ (run cs).blocks.length →
    ∃ b ∈ (run cs).blocks, OldestHit cs b ∧
      ∀ pc, InTable (cs ++ [c]) pc ↔ pc = c.armPc ∨ InTable cs pc ∧ pc ≠ b.armPc
  keeps : ∀ c : Call, c.x86Entry = 0 ∨ InTable cs c.armPc ∨ (run cs).blocks.length < hotBlockMax →
    ∀ pc, InTable cs pc → InTable (cs ++ [c]) pc

/-- The counter has the number. -/
def Exactly (count : BitVec 32) (n : Nat) : Prop := count.toNat = n

/-- The counter has the number modulo its size. -/
def Modulo (count : BitVec 32) (n : Nat) : Prop := count = BitVec.ofNat 32 n

variable {cs : List Call} {c : Call} {hbm : HotBlockManager} {blocks : List HotBlock} {b b' : HotBlock}

theorem run_concat : run (cs ++ [c]) = (recordHit (run cs) c).2 := by
  rw [run, List.foldl_append]
  rfl

theorem hits_iff {pc : Addr} : c.hits pc = true ↔ c.armPc = pc ∧ c.x86Entry ≠ 0 := by
  simp [Call.hits]

section Step

/-- A block that has been hit by a call, after some hits. -/
structure Struck (c : Call) (before : BitVec 32) (b : HotBlock) : Prop where
  armPc_eq : b.armPc = c.armPc
  hitCount_eq : b.hitCount = before + 1
  lastAccess_eq : b.lastAccess = c.now

/-- What a hit can do to the blocks. -/
inductive Hit (c : Call) (blocks : List HotBlock) : List HotBlock → Prop where
  | known {i : Nat} {b b' : HotBlock} (at_index : blocks[i]? = some b) (same : b.armPc = c.armPc)
      (struck : Struck c b.hitCount b') : Hit c blocks (blocks.set i b')
  | added {b' : HotBlock} (absent : ∀ b ∈ blocks, b.armPc ≠ c.armPc) (room : blocks.length < hotBlockMax)
      (struck : Struck c 0 b') : Hit c blocks (blocks ++ [b'])
  | replaced {i : Nat} {b b' : HotBlock} (absent : ∀ b ∈ blocks, b.armPc ≠ c.armPc)
      (full : hotBlockMax ≤ blocks.length) (at_index : blocks[i]? = some b)
      (least : ∀ d ∈ blocks, b.lastAccess ≤ d.lastAccess) (struck : Struck c 0 b') :
      Hit c blocks (blocks.set i b')

/-- The search goes on from the least access of the blocks before. -/
theorem leastAccess_spec {done rest : List HotBlock} {lru : Nat} (hlru : done[lru]? = some b)
    (hleast : ∀ d ∈ done, b.lastAccess ≤ d.lastAccess) :
    ∃ b', (done ++ rest)[leastAccess lru b.lastAccess done.length rest]? = some b' ∧
      ∀ d ∈ done ++ rest, b'.lastAccess ≤ d.lastAccess := by
  induction rest generalizing done lru b with
  | nil => exact ⟨b, by simpa [leastAccess] using hlru, by simpa using hleast⟩
  | cons e rest ih =>
    have hsplit : done ++ e :: rest = (done ++ [e]) ++ rest := by simp
    have hlength : done.length + 1 = (done ++ [e]).length := by simp
    rw [leastAccess, hsplit, hlength]
    split
    · next hlt =>
      refine ih (by simp) ?_
      intro d hd
      rcases List.mem_append.mp hd with hd | hd
      · exact BitVec.le_trans (BitVec.le_of_lt hlt) (hleast d hd)
      · rw [List.mem_singleton.mp hd]
        exact BitVec.le_refl _
    · next hge =>
      refine ih ?_ ?_
      · rw [List.getElem?_append_left (List.getElem?_eq_some_iff.mp hlru).1]
        exact hlru
      · intro d hd
        rcases List.mem_append.mp hd with hd | hd
        · exact hleast d hd
        · rw [List.mem_singleton.mp hd]
          exact BitVec.not_lt.mp hge

theorem oldest_spec (h : blocks ≠ []) :
    ∃ b, blocks[oldest blocks]? = some b ∧ ∀ d ∈ blocks, b.lastAccess ≤ d.lastAccess := by
  obtain ⟨b, rest, rfl⟩ := List.exists_cons_of_ne_nil h
  have hfirst : ∀ d ∈ [b], b.lastAccess ≤ d.lastAccess := by
    intro d hd
    rw [List.mem_singleton.mp hd]
    exact BitVec.le_refl _
  have hlru : [b][0]? = some b := rfl
  exact leastAccess_spec hlru hfirst

theorem storeOptimized_keeps (o : Optimized) (memory : Addr) :
    (storeOptimized b o memory).2.armPc = b.armPc ∧ (storeOptimized b o memory).2.hitCount = b.hitCount ∧
      (storeOptimized b o memory).2.lastAccess = b.lastAccess := by
  unfold storeOptimized
  split_ifs <;> exact ⟨rfl, rfl, rfl⟩

theorem retranslate_keeps (o : Optimized) (memory : Addr) :
    (retranslate b o memory).2.1.armPc = b.armPc ∧ (retranslate b o memory).2.1.hitCount = b.hitCount ∧
      (retranslate b o memory).2.1.lastAccess = b.lastAccess := by
  have hstore := storeOptimized_keeps (b := b) o memory
  unfold retranslate
  dsimp only
  split_ifs <;> first | exact ⟨rfl, rfl, rfl⟩ | exact hstore

theorem struck_countHit (h : b.armPc = c.armPc) : Struck c b.hitCount (countHit b c).1 := by
  unfold countHit
  dsimp only
  split
  · obtain ⟨hpc, hcount, htime⟩ := retranslate_keeps
      (b := { b with hitCount := b.hitCount + 1, lastAccess := c.now, flags := b.flags ||| hotFlagMarked })
      c.optimized c.memory
    exact ⟨hpc.trans h, hcount, htime⟩
  · exact ⟨h, rfl, rfl⟩

theorem lookup_eq_none {pc : Addr} : lookup hbm pc = none ↔ ∀ b ∈ hbm.blocks, b.armPc ≠ pc := by
  rw [lookup, List.findIdx?_eq_none_iff]
  simp

theorem inTable_iff {pc : Addr} : InTable cs pc ↔ lookup (run cs) pc ≠ none := by
  rw [Ne, lookup_eq_none, InTable]
  push Not
  rfl

/-- A block that has just been taken for the address of a call. -/
def Call.fresh (c : Call) : HotBlock := { HotBlock.zero with armPc := c.armPc, x86Entry := c.x86Entry }

theorem struck_fresh : Struck c 0 (countHit c.fresh c).1 := by
  have h : c.fresh.armPc = c.armPc := rfl
  exact struck_countHit h

theorem findOrTake_added (habsent : lookup hbm c.armPc = none) (hroom : hbm.blocks.length < hotBlockMax) :
    findOrTake hbm c = (hbm.blocks.length, hbm.blocks ++ [c.fresh]) := by
  rw [findOrTake, habsent]
  simp only [takeBlock, if_neg (Nat.not_le.mpr hroom)]
  rw [List.modify_eq_take_cons_drop (by simp)]
  simp [Call.fresh, HotBlock.zero]

theorem findOrTake_replaced (habsent : lookup hbm c.armPc = none) (hfull : hotBlockMax ≤ hbm.blocks.length) :
    findOrTake hbm c = (oldest hbm.blocks, hbm.blocks.set (oldest hbm.blocks) c.fresh) := by
  rw [findOrTake, habsent]
  simp only [takeBlock, if_pos hfull]
  congr 1
  apply List.ext_getElem?
  intro j
  rw [List.getElem?_modify, List.getElem?_set, List.getElem?_set]
  split
  · next heq =>
    subst heq
    split <;> rfl
  · simp

theorem hit_recordHit (h : c.x86Entry ≠ 0) : Hit c hbm.blocks (recordHit hbm c).2.blocks := by
  rw [recordHit, if_neg h]
  dsimp only
  cases hlookup : lookup hbm c.armPc with
  | some i =>
    obtain ⟨hlt, hsame, -⟩ := List.findIdx?_eq_some_iff_getElem.mp hlookup
    have hget : hbm.blocks[i]? = some hbm.blocks[i] := List.getElem?_eq_getElem hlt
    have hpc : hbm.blocks[i].armPc = c.armPc := by simpa using hsame
    have hfound : findOrTake hbm c = (i, hbm.blocks) := by rw [findOrTake, hlookup]
    rw [hfound, List.getD_eq_getElem?_getD, hget]
    exact .known hget hpc (struck_countHit hpc)
  | none =>
    have habsent := lookup_eq_none.mp hlookup
    rcases Nat.lt_or_ge hbm.blocks.length hotBlockMax with hroom | hfull
    · rw [findOrTake_added hlookup hroom, List.getD_eq_getElem?_getD, List.getElem?_concat_length,
        List.set_append_right _ _ (Nat.le_refl _), Nat.sub_self]
      exact .added habsent hroom struck_fresh
    · have hne : hbm.blocks ≠ [] := List.ne_nil_of_length_pos (Nat.lt_of_lt_of_le (by decide) hfull)
      obtain ⟨b, hb, hleast⟩ := oldest_spec hne
      have hlt := (List.getElem?_eq_some_iff.mp hb).1
      rw [findOrTake_replaced hlookup hfull, List.getD_eq_getElem?_getD, List.getElem?_set_self hlt,
        List.set_set]
      exact .replaced habsent hfull hb hleast struck_fresh

variable {blocks' : List HotBlock} {d : HotBlock} {i : Nat}

/-- With distinct addresses, a block that is stored takes the place of just one. -/
theorem mem_set_iff (hd : (blocks.map HotBlock.armPc).Nodup) (hget : blocks[i]? = some b) :
    d ∈ blocks.set i b' ↔ d = b' ∨ d ∈ blocks ∧ d.armPc ≠ b.armPc := by
  obtain ⟨hlt, rfl⟩ := List.getElem?_eq_some_iff.mp hget
  have hinj : ∀ j (hj : j < blocks.length), blocks[j].armPc = blocks[i].armPc → j = i := by
    intro j hj heq
    have hj' : j < (blocks.map HotBlock.armPc).length := by simpa using hj
    have hi' : i < (blocks.map HotBlock.armPc).length := by simpa using hlt
    refine (@List.Nodup.getElem_inj_iff _ _ hd j hj' i hi').mp ?_
    simpa using heq
  rw [List.mem_iff_getElem?]
  constructor
  · rintro ⟨j, hj⟩
    rw [List.getElem?_set] at hj
    split at hj
    · exact .inl (Option.some_inj.mp (by simpa [hlt] using hj.symm))
    · next hne =>
      obtain ⟨hjlt, rfl⟩ := List.getElem?_eq_some_iff.mp hj
      exact .inr ⟨List.getElem_mem hjlt, fun heq ↦ hne (hinj j hjlt heq).symm⟩
  · rintro (rfl | ⟨hmem, hne⟩)
    · exact ⟨i, List.getElem?_set_self hlt⟩
    · obtain ⟨j, hjlt, rfl⟩ := List.mem_iff_getElem.mp hmem
      refine ⟨j, ?_⟩
      rw [List.getElem?_set_ne, List.getElem?_eq_getElem hjlt]
      rintro rfl
      exact hne rfl

theorem notMem_armPc (habsent : ∀ b ∈ blocks, b.armPc ≠ c.armPc) (hb : b.armPc = c.armPc) :
    b.armPc ∉ blocks.map HotBlock.armPc := by
  rw [hb, List.mem_map]
  rintro ⟨d, hd, heq⟩
  exact habsent d hd heq

theorem Hit.distinct (h : Hit c blocks blocks') (hd : (blocks.map HotBlock.armPc).Nodup) :
    (blocks'.map HotBlock.armPc).Nodup := by
  cases h with
  | @known i b b' hget hsame hstruck =>
    obtain ⟨hlt, rfl⟩ := List.getElem?_eq_some_iff.mp hget
    have hstored : (blocks.map HotBlock.armPc).set i b'.armPc = blocks.map HotBlock.armPc := by
      have hbound : i < (blocks.map HotBlock.armPc).length := by simpa using hlt
      have hpc : b'.armPc = (blocks.map HotBlock.armPc)[i] := by
        rw [List.getElem_map, hsame, hstruck.armPc_eq]
      rw [hpc, List.set_getElem_self]
    rw [List.map_set, hstored]
    exact hd
  | added habsent hroom hstruck =>
    rw [List.map_append, List.map_singleton, ← List.concat_eq_append]
    exact hd.concat (notMem_armPc habsent hstruck.armPc_eq)
  | replaced habsent hfull hget hleast hstruck =>
    rw [List.map_set]
    exact hd.set (notMem_armPc habsent hstruck.armPc_eq)

/-- A block behind a hit is the one that has been hit, or another one of before. -/
theorem Hit.mem (h : Hit c blocks blocks') (hd : (blocks.map HotBlock.armPc).Nodup) (hmem : d ∈ blocks') :
    d ∈ blocks ∧ d.armPc ≠ c.armPc ∨
      (∃ b ∈ blocks, b.armPc = c.armPc ∧ Struck c b.hitCount d) ∨
      (∀ b ∈ blocks, b.armPc ≠ c.armPc) ∧ Struck c 0 d := by
  cases h with
  | @known i b b' hget hsame hstruck =>
    rcases (mem_set_iff hd hget).mp hmem with rfl | ⟨hold, hne⟩
    · exact .inr (.inl ⟨b, List.mem_of_getElem? hget, hsame, hstruck⟩)
    · rw [hsame] at hne
      exact .inl ⟨hold, hne⟩
  | added habsent hroom hstruck =>
    rcases List.mem_append.mp hmem with hold | hnew
    · exact .inl ⟨hold, habsent d hold⟩
    · rw [List.mem_singleton.mp hnew]
      exact .inr (.inr ⟨habsent, hstruck⟩)
  | replaced habsent hfull hget hleast hstruck =>
    rcases (mem_set_iff hd hget).mp hmem with rfl | ⟨hold, -⟩
    · exact .inr (.inr ⟨habsent, hstruck⟩)
    · exact .inl ⟨hold, habsent d hold⟩

theorem Hit.length_le (h : Hit c blocks blocks') (hle : blocks.length ≤ hotBlockMax) :
    blocks'.length ≤ hotBlockMax := by
  cases h with
  | known => rwa [List.length_set]
  | added habsent hroom hstruck =>
    rw [List.length_append, List.length_singleton]
    exact hroom
  | replaced => rwa [List.length_set]

/-- A hit of a new address in a full table takes the place of one block, with the least access. -/
theorem Hit.evicts (h : Hit c blocks blocks') (hd : (blocks.map HotBlock.armPc).Nodup)
    (hnew : ∀ b ∈ blocks, b.armPc ≠ c.armPc) (hmax : hotBlockMax ≤ blocks.length) :
    ∃ b ∈ blocks, (∀ d ∈ blocks, b.lastAccess ≤ d.lastAccess) ∧
      ∀ pc, (∃ d ∈ blocks', d.armPc = pc) ↔ pc = c.armPc ∨ (∃ d ∈ blocks, d.armPc = pc) ∧ pc ≠ b.armPc := by
  cases h with
  | known hget hsame hstruck => exact absurd hsame (hnew _ (List.mem_of_getElem? hget))
  | added habsent hroom hstruck => exact absurd hmax (Nat.not_le.mpr hroom)
  | @replaced i b b' habsent hfull hget hleast hstruck =>
    refine ⟨b, List.mem_of_getElem? hget, hleast, fun pc ↦ ?_⟩
    constructor
    · rintro ⟨d, hmem, rfl⟩
      rcases (mem_set_iff hd hget).mp hmem with rfl | ⟨hold, hne⟩
      · exact .inl hstruck.armPc_eq
      · exact .inr ⟨⟨d, hold, rfl⟩, hne⟩
    · rintro (rfl | ⟨⟨d, hold, rfl⟩, hne⟩)
      · exact ⟨b', (mem_set_iff hd hget).mpr (.inl rfl), hstruck.armPc_eq⟩
      · exact ⟨d, (mem_set_iff hd hget).mpr (.inr ⟨hold, hne⟩), rfl⟩

/-- Any other hit keeps all addresses. -/
theorem Hit.keeps (h : Hit c blocks blocks') (hd : (blocks.map HotBlock.armPc).Nodup)
    (hcase : (∃ b ∈ blocks, b.armPc = c.armPc) ∨ blocks.length < hotBlockMax) (hmem : d ∈ blocks) :
    ∃ d' ∈ blocks', d'.armPc = d.armPc := by
  cases h with
  | @known i b b' hget hsame hstruck =>
    by_cases hpc : d.armPc = b.armPc
    · exact ⟨b', (mem_set_iff hd hget).mpr (.inl rfl), by rw [hpc, hsame, hstruck.armPc_eq]⟩
    · exact ⟨d, (mem_set_iff hd hget).mpr (.inr ⟨hmem, hpc⟩), rfl⟩
  | added habsent hroom hstruck => exact ⟨d, List.mem_append_left _ hmem, rfl⟩
  | replaced habsent hfull hget hleast hstruck =>
    rcases hcase with ⟨b, hb, hsame⟩ | hlt
    · exact absurd hsame (habsent b hb)
    · exact absurd hfull (Nat.not_le.mpr hlt)

end Step

section Run

/-- What holds of the table after the calls of a run. -/
structure HitsKept (cs : List Call) : Prop where
  count_le : (run cs).blocks.length ≤ hotBlockMax
  distinct : ((run cs).blocks.map HotBlock.armPc).Nodup
  counted : ∀ b ∈ (run cs).blocks, CountedAs Modulo cs b
  accessed : ∀ b ∈ (run cs).blocks, ∃ i c, LastAt (HitOf b.armPc) cs i c ∧ b.lastAccess = c.now

/-- A call that does not hit the address of a block leaves what is known of it. -/
theorem CountedAs.concat {agree : BitVec 32 → Nat → Prop} (h : CountedAs agree cs b)
    (hc : ¬ c.hits b.armPc) : CountedAs agree (cs ++ [c]) b := by
  obtain ⟨i, a, hlast, hcount⟩ := h
  refine ⟨i, a, hlast.concat fun hins ↦ hc hins.1, ?_⟩
  rw [List.drop_append_of_le_length (Nat.le_of_lt hlast.lt_length), List.countP_append,
    List.countP_singleton, if_neg hc]
  exact hcount

/-- A further hit is counted. -/
theorem CountedAs.hit (h : CountedAs Modulo cs b) (hc : c.hits b.armPc)
    (hin : lookup (run cs) b.armPc ≠ none) (hpc : d.armPc = b.armPc) (hd : d.hitCount = b.hitCount + 1) :
    CountedAs Modulo (cs ++ [c]) d := by
  obtain ⟨i, a, hlast, hcount⟩ := h
  rw [CountedAs, hpc]
  refine ⟨i, a, hlast.concat fun hins ↦ hin hins.2, ?_⟩
  rw [List.drop_append_of_le_length (Nat.le_of_lt hlast.lt_length), List.countP_append,
    List.countP_singleton, if_pos hc, Modulo, hd, hcount]
  exact (BitVec.ofNat_add ..).symm

/-- The first hit is counted. -/
theorem countedAs_inserted (hc : c.hits d.armPc) (hout : lookup (run cs) d.armPc = none)
    (hd : d.hitCount = 1) : CountedAs Modulo (cs ++ [c]) d := by
  refine ⟨cs.length, c, lastAt_concat ⟨hc, hout⟩, ?_⟩
  rw [List.drop_left, List.countP_singleton, if_pos hc, Modulo, hd]
  rfl

theorem HitsKept.concat (h : HitsKept cs) : HitsKept (cs ++ [c]) := by
  by_cases hentry : c.x86Entry = 0
  · have hsame : run (cs ++ [c]) = run cs := by rw [run_concat, recordHit, if_pos hentry]
    have hno : ∀ pc, ¬ c.hits pc := fun pc hhit ↦ (hits_iff.mp hhit).2 hentry
    refine ⟨?_, ?_, ?_, ?_⟩ <;> rw [hsame]
    · exact h.count_le
    · exact h.distinct
    · exact fun b hb ↦ (h.counted b hb).concat (hno b.armPc)
    · intro b hb
      obtain ⟨i, a, hlast, htime⟩ := h.accessed b hb
      exact ⟨i, a, hlast.concat (hno b.armPc), htime⟩
  · have hhit : Hit c (run cs).blocks (run (cs ++ [c])).blocks := by
      rw [run_concat]
      exact hit_recordHit hentry
    have hhits : ∀ {pc}, c.armPc = pc → c.hits pc := fun hpc ↦ hits_iff.mpr ⟨hpc, hentry⟩
    have hnot : ∀ {pc}, pc ≠ c.armPc → ¬ c.hits pc := fun hne hhit ↦ hne (hits_iff.mp hhit).1.symm
    refine ⟨hhit.length_le h.count_le, hhit.distinct h.distinct, ?_, ?_⟩
    · intro d hd
      rcases hhit.mem h.distinct hd with ⟨hold, hne⟩ | ⟨b, hb, hpc, hstruck⟩ | ⟨habsent, hstruck⟩
      · exact (h.counted d hold).concat (hnot hne)
      · have hin : lookup (run cs) b.armPc ≠ none := inTable_iff.mp ⟨b, hb, rfl⟩
        exact (h.counted b hb).hit (hhits hpc.symm) hin (hstruck.armPc_eq.trans hpc.symm) hstruck.hitCount_eq
      · refine countedAs_inserted (hhits hstruck.armPc_eq.symm) ?_ hstruck.hitCount_eq
        rw [hstruck.armPc_eq]
        exact lookup_eq_none.mpr habsent
    · intro d hd
      have hstruck : ∀ {n}, Struck c n d →
          ∃ i a, LastAt (HitOf d.armPc) (cs ++ [c]) i a ∧ d.lastAccess = a.now := fun hs ↦
        ⟨cs.length, c, lastAt_concat (hhits hs.armPc_eq.symm), hs.lastAccess_eq⟩
      rcases hhit.mem h.distinct hd with ⟨hold, hne⟩ | ⟨b, -, -, hs⟩ | ⟨-, hs⟩
      · obtain ⟨i, a, hlast, htime⟩ := h.accessed d hold
        exact ⟨i, a, hlast.concat (hnot hne), htime⟩
      · exact hstruck hs
      · exact hstruck hs

theorem hitsKept (cs : List Call) : HitsKept cs := by
  induction cs using List.reverseRecOn with
  | nil => exact ⟨Nat.zero_le _, List.nodup_nil, fun _ hb ↦ absurd hb List.not_mem_nil,
      fun _ hb ↦ absurd hb List.not_mem_nil⟩
  | append_singleton cs c ih => exact ih.concat

/-- With a clock that goes on, a block with the least access is the one that was hit the longest ago. -/
theorem HitsKept.oldestHit (h : HitsKept cs) (hcs : Increasing cs) (hb : b ∈ (run cs).blocks)
    (hleast : ∀ d ∈ (run cs).blocks, b.lastAccess ≤ d.lastAccess) : OldestHit cs b := by
  obtain ⟨i, c, hlast, htime⟩ := h.accessed b hb
  refine ⟨i, c, hlast, ?_⟩
  intro d hd hne
  obtain ⟨j, e, hlast', htime'⟩ := h.accessed d hd
  have hle : c.now ≤ e.now := by
    rw [← htime, ← htime']
    exact hleast d hd
  have hc := hits_iff.mp hlast.kind
  have he := hits_iff.mp hlast'.kind
  refine ⟨j, e, hlast', index_lt_of_not hcs hlast.at_index hlast'.at_index ?_ ?_⟩
  · exact fun hlt ↦ BitVec.not_lt.mpr hle (hlt he.2 hc.2)
  · rintro rfl
    have hsame : c = e := Option.some_inj.mp (hlast.at_index.symm.trans hlast'.at_index)
    exact hne (by rw [← he.1, ← hc.1, hsame])

/-- Behind any calls the table is right up to the size of its counters. -/
theorem recordHit_right (cs : List Call) (hcs : Increasing cs) : TableRight Modulo cs := by
  have hkept := hitsKept cs
  have hhit : ∀ c : Call, c.x86Entry ≠ 0 → Hit c (run cs).blocks (run (cs ++ [c])).blocks := by
    intro c hentry
    rw [run_concat]
    exact hit_recordHit hentry
  refine ⟨hkept.count_le, hkept.distinct, hkept.counted, ?_, ?_⟩
  · intro c hentry habsent hfull
    have hnew : ∀ b ∈ (run cs).blocks, b.armPc ≠ c.armPc := fun b hb heq ↦ habsent ⟨b, hb, heq⟩
    obtain ⟨b, hb, hleast, hpcs⟩ := (hhit c hentry).evicts hkept.distinct hnew hfull
    exact ⟨b, hb, hkept.oldestHit hcs hb hleast, hpcs⟩
  · rintro c hcase pc ⟨d, hd, rfl⟩
    by_cases hentry : c.x86Entry = 0
    · refine ⟨d, ?_, rfl⟩
      rw [run_concat, recordHit, if_pos hentry]
      exact hd
    · exact (hhit c hentry).keeps hkept.distinct (hcase.resolve_left hentry) hd

end Run

section Wrap

/-- A hit of one address at some time. -/
def callAt (n : Nat) : Call := ⟨0, 1, BitVec.ofNat 64 n, ⟨[], ⟨fun _ ↦ 0, 0⟩, 0⟩, 0⟩

/-- As many hits of one address as its counter has values. -/
def wrapCalls : List Call := (List.range (2 ^ 32)).map callAt

theorem increasing_callAt {n : Nat} (h : n ≤ 2 ^ 32) : Increasing ((List.range n).map callAt) := by
  rw [Increasing, List.pairwise_map]
  refine List.Pairwise.imp_of_mem ?_ List.pairwise_lt_range
  intro i j hi hj hlt _ _
  rw [List.mem_range] at hi hj
  rw [BitVec.lt_def]
  show (BitVec.ofNat 64 i).toNat < (BitVec.ofNat 64 j).toNat
  rw [BitVec.toNat_ofNat, BitVec.toNat_ofNat, Nat.mod_eq_of_lt (by omega), Nat.mod_eq_of_lt (by omega)]
  exact hlt

theorem recordHit_right_three : TableRight Modulo ((List.range 3).map callAt) :=
  recordHit_right _ (increasing_callAt (by decide))

/-- The one block after some hits of its address. -/
theorem run_callAt (n : Nat) :
    ∃ b, (run ((List.range (n + 1)).map callAt)).blocks = [b] ∧ b.armPc = 0 ∧
      b.hitCount = BitVec.ofNat 32 (n + 1) := by
  have hstep : ∀ m, Hit (callAt m) (run ((List.range m).map callAt)).blocks
      (run ((List.range (m + 1)).map callAt)).blocks := by
    intro m
    have hentry : (callAt m).x86Entry ≠ 0 := by
      show (1 : Addr) ≠ 0
      decide
    rw [List.range_succ, List.map_append, List.map_singleton, run_concat]
    exact hit_recordHit hentry
  induction n with
  | zero =>
    have hhit := hstep 0
    rw [List.range_zero, List.map_nil] at hhit
    generalize (run ((List.range (0 + 1)).map callAt)).blocks = blocks' at hhit ⊢
    cases hhit with
    | known hget => simp [run, init] at hget
    | added _ _ hstruck => exact ⟨_, rfl, hstruck.armPc_eq, hstruck.hitCount_eq⟩
    | replaced _ hfull => exact absurd hfull (by decide)
  | succ n ih =>
    obtain ⟨b, hb, hpc, hcount⟩ := ih
    have hhit := hstep (n + 1)
    rw [hb] at hhit
    generalize (run ((List.range (n + 1 + 1)).map callAt)).blocks = blocks' at hhit ⊢
    cases hhit with
    | @known i b' b'' hget hsame hstruck =>
      obtain ⟨hlt, rfl⟩ := List.getElem?_eq_some_iff.mp hget
      obtain rfl : i = 0 := Nat.lt_one_iff.mp hlt
      refine ⟨b'', rfl, hstruck.armPc_eq, ?_⟩
      rw [hstruck.hitCount_eq, List.getElem_cons_zero, hcount]
      exact (BitVec.ofNat_add ..).symm
    | added habsent => exact absurd hpc (habsent b (List.mem_singleton_self b))
    | replaced habsent => exact absurd hpc (habsent b (List.mem_singleton_self b))

/-- A counter that has come round to zero again. -/
theorem wrapCalls_not_exact : Increasing wrapCalls ∧ ¬ TableRight Exactly wrapCalls := by
  refine ⟨increasing_callAt (Nat.le_refl _), fun hright ↦ ?_⟩
  obtain ⟨b, hb, -, hcount⟩ := run_callAt (2 ^ 32 - 1)
  have hrange : wrapCalls = (List.range (2 ^ 32 - 1 + 1)).map callAt := rfl
  obtain ⟨i, c, hlast, hexact⟩ := hright.counted b (by rw [hrange, hb]; exact List.mem_singleton_self b)
  have hzero : b.hitCount.toNat = 0 := by rw [hcount]; rfl
  rw [Exactly, hzero] at hexact
  have hpos : 0 < (wrapCalls.drop i).countP (Call.hits b.armPc) := by
    rw [List.countP_pos_iff]
    refine ⟨c, ?_, hlast.kind.1⟩
    exact List.mem_of_getElem? (i := 0) (by rw [List.getElem?_drop, Nat.add_zero, hlast.at_index])
  omega

end Wrap

end Arm2x86.Hotblock
