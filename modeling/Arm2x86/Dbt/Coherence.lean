import Arm2x86.Dbt.Locking

/-!
# Coherence of the translation runtime

The blocks of the table against the guest code they stand for. Beside every block the mode and
the guest memory of its translation are kept; a lookup that finds the block returns current code
as long as neither has changed. The runtime itself compares the first `64 * 4` bytes only, and the
mode not at all.
-/

namespace Arm2x86.Dbt

/-- The mode and the guest memory a block was translated in. -/
structure Origin where
  mode : Mode
  memory : Addr → Byte

/-- The origins after a step: a translation that found no block and leaves one records its own. -/
def originsAfter (op : Op E) (s s' : State) (origins : Nat → Origin) : Nat → Origin :=
  match op with
  | .translateBlock ctx armPc _ _ =>
    match s.findBlock armPc, s'.findBlock armPc with
    | none, some i => fun j ↦ if j = i then ⟨s.mode ctx, s.memory⟩ else origins j
    | _, _ => origins
  | _ => origins

/-- The steps of a run, each with the state and the origins before it. -/
def tracedSteps (conv : Converters E) :
    List (Op E) → State → (Nat → Origin) → List (Op E × State × (Nat → Origin))
  | [], _, _ => []
  | op :: ops, s, origins =>
    (op, s, origins) :: match op.exec conv s with
      | none => []
      | some (_, s') => tracedSteps conv ops s' (originsAfter op s s' origins)

/-- `n` bytes of the code cache. -/
def readCode (code : Nat → Byte) (offset n : Nat) : List Byte :=
  (List.range n).map fun i ↦ code (offset + i)

/-- The modes that share a translator. -/
def Mode.translatesAs : Mode → Mode
  | .auto => .arm64
  | m => m

/-- A translation that finds a live block finds one of its mode, made from the bytes the
translator would be given now. -/
def Op.finds (op : Op E) (s : State) (origins : Nat → Origin) : Bool :=
  match op with
  | .translateBlock ctx armPc _ _ =>
    match s.findBlock armPc with
    | none => true
    | some i => (s.cache i).x86Entry.isNone ||
      ((s.mode ctx).translatesAs == (origins i).mode.translatesAs &&
        readMemory s.memory armPc (sourceSize (s.mode ctx)) ==
          readMemory (origins i).memory armPc (sourceSize (s.mode ctx)))
  | _ => true

/-- A step returns, and the block a translation returns is the translation, in the current mode
of its context, of the guest code that is now at the address. -/
def Op.Coherent (conv : Converters E) (op : Op E) (s : State) : Prop :=
  ∃ r s', op.exec conv s = some (r, s') ∧
    match op with
    | .translateBlock ctx armPc _ _ => ∀ entry size, r = some (entry, size) →
      ∃ env x86, (conv.convert (s.mode ctx)).run env armPc entry
          (readMemory s.memory armPc (sourceSize (s.mode ctx))) = .ok x86 ∧
        size = x86.length ∧ readCode s'.code entry size = x86
    | _ => True

variable {E : Type} {conv : Converters E} {s s' : State} {armPc : Addr} {origins : Nat → Origin}

@[simp] theorem length_readMemory (memory : Addr → Byte) (addr : Addr) (n : Nat) :
    (readMemory memory addr n).length = n := by
  simp [readMemory]

/-- A longer read contains the shorter one. -/
theorem readMemory_take (memory : Addr → Byte) (addr : Addr) {m n : Nat} (h : m ≤ n) :
    (readMemory memory addr n).take m = readMemory memory addr m := by
  rw [readMemory, ← List.map_take, List.take_range, Nat.min_eq_left h, readMemory]

/-- A part of a read is a read. -/
theorem readMemory_slice (memory : Addr → Byte) (addr : Addr) {i m n : Nat} (h : i + m ≤ n) :
    ((readMemory memory addr n).drop i).take m =
      readMemory memory (addr + BitVec.ofNat 64 i) m := by
  apply List.ext_getElem
  · simp
    omega
  · intro j hj hj'
    simp only [readMemory, List.getElem_take, List.getElem_drop, List.getElem_map,
      List.getElem_range]
    congr 1
    rw [BitVec.add_assoc, ← BitVec.ofNat_add]

/-- Code below the place of a write stays. -/
theorem readCode_writeCode_below (code : Nat → Byte) (bs : List Byte) {entry n offset : Nat}
    (h : entry + n ≤ offset) : readCode (writeCode code offset bs) entry n = readCode code entry n := by
  refine List.map_congr_left fun i hi ↦ ?_
  have hlt := List.mem_range.mp hi
  rw [writeCode, if_neg (by omega)]

/-- Reading back what was written. -/
theorem readCode_writeCode (code : Nat → Byte) (offset : Nat) (bs : List Byte) :
    readCode (writeCode code offset bs) offset bs.length = bs := by
  apply List.ext_getElem
  · simp [readCode]
  · intro i hi hi'
    simp only [readCode, List.getElem_map, List.getElem_range, writeCode]
    rw [if_pos (Nat.le_add_right _ _), Nat.add_sub_cancel_left, List.getElem?_eq_getElem hi']
    rfl

theorem leastHits_lt (cache : Nat → Block) {n : Nat} (h : 0 < n) : leastHits cache n < n := by
  induction n with
  | zero => omega
  | succ n ih =>
    rw [leastHits]
    split
    · exact Nat.lt_succ_self n
    · rcases Nat.eq_zero_or_pos n with rfl | hn
      · exact Nat.zero_lt_one
      · exact Nat.lt_succ_of_lt (ih hn)

theorem slot_lt (s : State) (block : Block) : s.slot < (s.insertBlock block).count := by
  unfold State.slot State.insertBlock
  split
  · next h => exact leastHits_lt _ (Nat.lt_of_lt_of_le (by decide) h)
  · exact Nat.lt_succ_self _

/-- A new block is the one of its address. -/
theorem findBlock_insertBlock (hmiss : s.findBlock armPc = none) (block : Block)
    (hblock : block.armPc = armPc) : (s.insertBlock block).findBlock armPc = some s.slot := by
  cases hfind : (s.insertBlock block).findBlock armPc with
  | none =>
    have hne := findBlock_eq_none.mp hfind s.slot (slot_lt s block)
    rw [insertBlock_cache, if_pos rfl] at hne
    exact absurd hblock hne
  | some i =>
    obtain ⟨hi, hpc⟩ := findBlock_eq_some hfind
    by_cases his : i = s.slot
    · rw [his]
    · rw [insertBlock_cache, if_neg his] at hpc
      exact absurd hpc (findBlock_eq_none.mp hmiss i (lt_insertBlock_count hi his))

/-- A live block is the code its translator made in its origin, below the used part of the code
cache, and its saved guest code is that of its origin. -/
structure Translated (conv : Converters E) (s : State) (block : Block) (entry : Nat)
    (origin : Origin) (x86 : List Byte) : Prop where
  converted : ∃ env, (conv.convert origin.mode).run env block.armPc entry
    (readMemory origin.memory block.armPc (sourceSize origin.mode)) = .ok x86
  size : block.blockSize.toNat = x86.length
  code : readCode s.code entry x86.length = x86
  below : entry + x86.length ≤ s.cacheUsed
  saved : block.originalCode = some (readMemory origin.memory block.armPc armSize)
  savedSize : block.originalSize = armSize

/-- All live blocks are translated. -/
structure Coherence (conv : Converters E) (s : State) (origins : Nat → Origin) : Prop extends
    Inv s where
  blocks : ∀ i < s.count, ∀ entry, (s.cache i).x86Entry = some entry →
    ∃ x86, Translated conv s (s.cache i) entry (origins i) x86

/-- Blocks stay translated while their code stays. -/
theorem Translated.congr {block : Block} {entry : Nat} {origin : Origin} {x86 : List Byte}
    (h : Translated conv s block entry origin x86)
    (hcode : readCode s'.code entry x86.length = readCode s.code entry x86.length)
    (hused : s.cacheUsed ≤ s'.cacheUsed) : Translated conv s' block entry origin x86 where
  converted := h.converted
  size := h.size
  code := hcode.trans h.code
  below := Nat.le_trans h.below hused
  saved := h.saved
  savedSize := h.savedSize

theorem translatesAs_congr {m m' : Mode} (h : m.translatesAs = m'.translatesAs)
    (conv : Converters E) : conv.convert m = conv.convert m' ∧ sourceSize m = sourceSize m' := by
  cases m <;> cases m' <;> first | exact ⟨rfl, rfl⟩ | cases h

theorem armSize_le_sourceSize (m : Mode) : armSize ≤ sourceSize m := by
  cases m <;> decide

/-- Unchanged guest code is not taken for modified. -/
theorem Translated.checkSmc {block : Block} {entry : Nat} {origin : Origin} {x86 : List Byte}
    (h : Translated conv s block entry origin x86) {memory : Addr → Byte} {n : Nat}
    (hn : armSize ≤ n)
    (hsame : readMemory memory block.armPc n = readMemory origin.memory block.armPc n) :
    dbtCheckSmc memory block = false := by
  have hsaved : readMemory origin.memory block.armPc armSize =
      readMemory memory block.armPc armSize := by
    rw [← readMemory_take _ _ hn, ← readMemory_take memory _ hn, hsame]
  unfold dbtCheckSmc
  rw [h.saved, h.savedSize, hsaved]
  split
  · next original _ horiginal _ =>
    obtain rfl := Option.some.inj horiginal
    refine List.any_eq_false.mpr fun k hk ↦ ?_
    have hlt : 4 * k + 4 ≤ armSize := by
      have := List.mem_range.mp hk
      unfold armSize at this ⊢
      omega
    rw [readMemory_slice _ _ hlt]
    simp
  · rfl

/-- The steps that neither translate nor touch a live block. -/
theorem Coherence.kill (h : Coherence conv s origins) (hinv : Inv s')
    (hcount : s'.count = s.count) (hcode : s'.code = s.code) (hused : s'.cacheUsed = s.cacheUsed)
    (hcache : ∀ i, s'.cache i = s.cache i ∨ (s'.cache i).x86Entry = none) :
    Coherence conv s' origins where
  toInv := hinv
  blocks i hi entry hentry := by
    rcases hcache i with hsame | hdead
    · rw [hsame] at hentry ⊢
      obtain ⟨x86, hx⟩ := h.blocks i (hcount ▸ hi) entry hentry
      exact ⟨x86, hx.congr (by rw [hcode]) (Nat.le_of_eq hused.symm)⟩
    · rw [hdead] at hentry
      cases hentry

/-- Counting a hit changes nothing that matters. -/
theorem Coherence.countHit (h : Coherence conv s origins) (i : Nat) :
    Coherence conv (s.countHit i) origins where
  toInv := h.toInv.countHit i
  blocks j hj entry hentry := by
    have hj' : j < s.count := hj
    simp only [State.countHit, State.setBlock] at hentry ⊢
    by_cases hji : j = i
    · subst hji
      rw [if_pos rfl] at hentry ⊢
      obtain ⟨x86, hx⟩ := h.blocks j hj' entry hentry
      exact ⟨x86, hx.converted, hx.size, hx.code, hx.below, hx.saved, hx.savedSize⟩
    · rw [if_neg hji] at hentry ⊢
      obtain ⟨x86, hx⟩ := h.blocks j hj' entry hentry
      exact ⟨x86, hx.congr rfl (Nat.le_refl _)⟩

/-- A new block behind the used part of the code cache. -/
theorem Coherence.insert (h : Coherence conv s origins) (hmiss : s.findBlock armPc = none)
    (ctx : Nat) {env : E} {x86 : List Byte}
    (hconv : (conv.convert (s.mode ctx)).run env armPc s.cacheUsed
      (readMemory s.memory armPc (sourceSize (s.mode ctx))) = .ok x86) :
    Coherence conv
      { ({ s with code := writeCode s.code s.cacheUsed x86 } : State).insertBlock
          ⟨armPc, some s.cacheUsed, BitVec.ofNat 32 x86.length, 0#32,
            some (readMemory s.memory armPc armSize), armSize⟩ with
        cacheUsed := s.cacheUsed + (x86.length + 15) / 16 * 16 }
      (fun j ↦ if j = s.slot then ⟨s.mode ctx, s.memory⟩ else origins j) := by
  set block : Block := ⟨armPc, some s.cacheUsed, BitVec.ofNat 32 x86.length, 0#32,
    some (readMemory s.memory armPc armSize), armSize⟩ with hblock
  set s₁ : State := { s with code := writeCode s.code s.cacheUsed x86 } with hs₁
  have hinv : Inv s₁ := ⟨h.unlocked, h.distinct⟩
  have hins : Inv (s₁.insertBlock block) := hinv.insertBlock hmiss block rfl
  have hcode : (s₁.insertBlock block).code = writeCode s.code s.cacheUsed x86 := by
    unfold State.insertBlock
    split <;> rfl
  have hshort := (conv.convert (s.mode ctx)).short _ _ _ _ _ hconv
  refine ⟨⟨hins.unlocked, hins.distinct⟩, fun j hj entry hentry ↦ ?_⟩
  change j < (s₁.insertBlock block).count at hj
  change ((s₁.insertBlock block).cache j).x86Entry = some entry at hentry
  change ∃ x, Translated conv _ ((s₁.insertBlock block).cache j) entry _ x
  rw [insertBlock_cache] at hentry ⊢
  change (if j = s.slot then block else s.cache j).x86Entry = some entry at hentry
  change ∃ x, Translated conv _ (if j = s.slot then block else s.cache j) entry _ x
  by_cases hjs : j = s.slot
  · rw [if_pos hjs] at hentry ⊢
    obtain rfl : s.cacheUsed = entry := Option.some.inj hentry
    rw [if_pos hjs]
    refine ⟨x86, ⟨env, hconv⟩, ?_, ?_, ?_, rfl, rfl⟩
    · rw [hblock, BitVec.toNat_ofNat, Nat.mod_eq_of_lt hshort]
    · change readCode (s₁.insertBlock block).code _ _ = _
      rw [hcode, readCode_writeCode]
    · change s.cacheUsed + x86.length ≤ s.cacheUsed + (x86.length + 15) / 16 * 16
      omega
  · rw [if_neg hjs] at hentry ⊢
    obtain ⟨x, hx⟩ := h.blocks j (lt_insertBlock_count (s := s₁) hj hjs) entry hentry
    rw [if_neg hjs]
    refine ⟨x, hx.congr ?_ (Nat.le_add_right _ _)⟩
    change readCode (s₁.insertBlock block).code _ _ = _
    rw [hcode, readCode_writeCode_below _ _ hx.below]

theorem originsAfter_of_new (ctx : Nat) (env : E) (alloc : Bool) (origins : Nat → Origin) {i : Nat}
    (hmiss : s.findBlock armPc = none) (hfound : s'.findBlock armPc = some i) :
    originsAfter (.translateBlock ctx armPc env alloc) s s' origins =
      fun j ↦ if j = i then ⟨s.mode ctx, s.memory⟩ else origins j := by
  simp only [originsAfter, hmiss, hfound]

/-- A live block that is found has the converter and the bytes of its origin. -/
theorem current_of_finds {ctx : Nat} {env : E} {alloc : Bool} {i : Nat} {entry : Nat}
    (hf : (Op.translateBlock ctx armPc env alloc).finds s origins = true) (hfind : s.findBlock armPc = some i)
    (hentry : (s.cache i).x86Entry = some entry) :
    (s.mode ctx).translatesAs = (origins i).mode.translatesAs ∧
      readMemory s.memory armPc (sourceSize (s.mode ctx)) =
        readMemory (origins i).memory armPc (sourceSize (s.mode ctx)) := by
  simpa [Op.finds, hfind, hentry] using hf

/-- The guest code of a block that is current has not been modified. -/
theorem Coherence.smcDetected_eq_false (h : Coherence conv s origins) {ctx : Nat} {env : E} {alloc : Bool}
    (hf : (Op.translateBlock ctx armPc env alloc).finds s origins = true) : s.smcDetected armPc = false := by
  unfold State.smcDetected
  split
  · rfl
  · next i hfind =>
    obtain ⟨hi, hpc⟩ := findBlock_eq_some hfind
    cases hentry : (s.cache i).x86Entry with
    | none =>
      unfold dbtCheckSmc
      rw [hentry]
      split
      · next hsome => cases hsome
      · rfl
    | some entry =>
      obtain ⟨x86, hx⟩ := h.blocks i hi entry hentry
      refine hx.checkSmc (armSize_le_sourceSize (s.mode ctx)) ?_
      rw [hpc]
      exact (current_of_finds hf hfind hentry).2

/-- A translation of an address whose live block, if any, is current. -/
theorem dbtTranslateBlock_coherent (h : Coherence conv s origins) (ctx : Nat) (env : E)
    (alloc : Bool) (hf : (Op.translateBlock ctx armPc env alloc).finds s origins = true) :
    (Op.translateBlock ctx armPc env alloc).Coherent conv s ∧
      ∀ r s', (Op.translateBlock ctx armPc env alloc).exec conv s = some (r, s') →
        Coherence conv s'
          (originsAfter (Op.translateBlock ctx armPc env alloc) s s' origins) := by
  have hcases := dbtTranslateBlock_cases conv h.unlocked (h.smcDetected_eq_false hf) ctx env alloc
  obtain ⟨i, hfind, heq⟩ | ⟨hmiss, heq | ⟨written, heq⟩ | ⟨x86, hconv, heq⟩⟩ := hcases
  · constructor
    · refine ⟨_, _, heq, fun entry size hr ↦ ?_⟩
      obtain ⟨entry', hentry, hpair⟩ := Option.map_eq_some_iff.mp hr
      obtain ⟨rfl, rfl⟩ := Prod.mk.inj hpair
      obtain ⟨hi, hpc⟩ := findBlock_eq_some hfind
      obtain ⟨x86, hx⟩ := h.blocks i hi entry' hentry
      obtain ⟨hmode, hbytes⟩ := current_of_finds hf hfind hentry
      obtain ⟨hsame, hsize⟩ := translatesAs_congr hmode conv
      obtain ⟨env', hconv⟩ := hx.converted
      refine ⟨env', x86, ?_, hx.size, ?_⟩
      · rw [hbytes, hsame, hsize, ← hpc]
        exact hconv
      · rw [hx.size]
        exact hx.code
    · intro r s' hexec
      obtain ⟨-, rfl⟩ := Prod.mk.inj (Option.some.inj (heq.symm.trans hexec))
      simp only [originsAfter, hfind]
      exact h.countHit i
  · constructor
    · exact ⟨_, _, heq, fun entry size hr ↦ by cases hr⟩
    · intro r s' hexec
      obtain ⟨-, rfl⟩ := Prod.mk.inj (Option.some.inj (heq.symm.trans hexec))
      simp only [originsAfter, hmiss]
      exact h
  · constructor
    · exact ⟨_, _, heq, fun entry size hr ↦ by cases hr⟩
    · intro r s' hexec
      obtain ⟨-, rfl⟩ := Prod.mk.inj (Option.some.inj (heq.symm.trans hexec))
      have hmiss' : State.findBlock { s with code := writeCode s.code s.cacheUsed written }
          armPc = none := hmiss
      simp only [originsAfter, hmiss, hmiss']
      refine ⟨⟨h.unlocked, h.distinct⟩, fun j hj entry hentry ↦ ?_⟩
      obtain ⟨x, hx⟩ := h.blocks j hj entry hentry
      exact ⟨x, hx.congr (readCode_writeCode_below _ _ hx.below) (Nat.le_refl _)⟩
  · constructor
    · refine ⟨_, _, heq, fun entry size hr ↦ ?_⟩
      obtain ⟨rfl, rfl⟩ := Prod.mk.inj (Option.some.inj hr)
      refine ⟨env, x86, hconv, rfl, ?_⟩
      have hcode : ∀ (s₁ : State) (block : Block), (s₁.insertBlock block).code = s₁.code := by
        intro s₁ block
        unfold State.insertBlock
        split <;> rfl
      change readCode (State.insertBlock _ _).code _ _ = _
      rw [hcode]
      exact readCode_writeCode s.code s.cacheUsed x86
    · intro r s' hexec
      obtain ⟨-, rfl⟩ := Prod.mk.inj (Option.some.inj (heq.symm.trans hexec))
      have hfound : State.findBlock
          { ({ s with code := writeCode s.code s.cacheUsed x86 } : State).insertBlock
              ⟨armPc, some s.cacheUsed, BitVec.ofNat 32 x86.length, 0#32,
                some (readMemory s.memory armPc armSize), armSize⟩ with
            cacheUsed := s.cacheUsed + (x86.length + 15) / 16 * 16 } armPc = some s.slot :=
        findBlock_insertBlock (s := { s with code := writeCode s.code s.cacheUsed x86 }) hmiss _
          rfl
      rw [originsAfter_of_new ctx env alloc origins hmiss hfound]
      exact h.insert hmiss ctx hconv

/-- One step from coherent blocks. -/
theorem Op.exec_coherent (h : Coherence conv s origins) (op : Op E)
    (hf : op.finds s origins = true) :
    op.Coherent conv s ∧ ∀ r s', op.exec conv s = some (r, s') →
      Coherence conv s' (originsAfter op s s' origins) := by
  cases op with
  | write addr value =>
    refine ⟨⟨_, _, rfl, trivial⟩, fun r s' hexec ↦ ?_⟩
    have hinv := Op.exec_inv h.toInv hexec
    obtain ⟨-, rfl⟩ := Prod.mk.inj (Option.some.inj hexec)
    exact h.kill hinv rfl rfl rfl fun _ ↦ .inl rfl
  | setMode ctx mode =>
    refine ⟨⟨_, _, rfl, trivial⟩, fun r s' hexec ↦ ?_⟩
    have hinv := Op.exec_inv h.toInv hexec
    obtain ⟨-, rfl⟩ := Prod.mk.inj (Option.some.inj hexec)
    exact h.kill hinv rfl rfl rfl fun _ ↦ .inl rfl
  | invalidateBlock armPc =>
    have hrun : (Op.invalidateBlock armPc : Op E).exec conv s =
        some (none, s.invalidate ((armPc.setWidth 32).setWidth 64)) := by
      simp only [Op.exec, dbtInvalidateBlock_eq h.unlocked]
      rfl
    refine ⟨⟨_, _, hrun, trivial⟩, fun r s' hexec ↦ ?_⟩
    obtain ⟨-, rfl⟩ := Prod.mk.inj (Option.some.inj (hrun.symm.trans hexec))
    have hinv := h.toInv.invalidate ((armPc.setWidth 32).setWidth 64)
    unfold State.invalidate at hinv ⊢
    split at hinv
    · exact h
    · next k _ =>
      refine h.kill hinv rfl rfl rfl fun i ↦ ?_
      by_cases hik : i = k
      · right
        simp [State.setBlock, hik, Block.invalidated]
      · left
        simp [State.setBlock, hik]
  | flushCache =>
    obtain ⟨s₁, hflush, hlock, hcount⟩ := dbtFlushCache_eq h.unlocked
    have hrun : (Op.flushCache : Op E).exec conv s = some (none, s₁) := by
      simp only [Op.exec, hflush]
      rfl
    refine ⟨⟨_, _, hrun, trivial⟩, fun r s' hexec ↦ ?_⟩
    have hinv := Op.exec_inv h.toInv hexec
    obtain ⟨-, rfl⟩ := Prod.mk.inj (Option.some.inj (hrun.symm.trans hexec))
    refine ⟨hinv, fun i hi ↦ ?_⟩
    rw [hcount] at hi
    exact absurd hi (Nat.not_lt_zero i)
  | translateBlock ctx armPc env alloc => exact dbtTranslateBlock_coherent h ctx env alloc hf

/-- In a run in which every live block that a lookup finds was translated in the current mode and
from the guest code that is there now, every step returns, and every block returned is the
translation of the current guest code in the current mode. -/
theorem dbt_run_coherent (conv : Converters E) (mapped : Bool) (code : Nat → Byte)
    (memory : Addr → Byte) (mode : Nat → Mode) (origins : Nat → Origin) (ops : List (Op E))
    (hfinds : ∀ x ∈ tracedSteps conv ops (dbtInit mapped code memory mode) origins,
      x.1.finds x.2.1 x.2.2 = true) :
    ∀ x ∈ tracedSteps conv ops (dbtInit mapped code memory mode) origins,
      x.1.Coherent conv x.2.1 := by
  suffices hrun : ∀ s origins, Coherence conv s origins →
      (∀ x ∈ tracedSteps conv ops s origins, x.1.finds x.2.1 x.2.2 = true) →
      ∀ x ∈ tracedSteps conv ops s origins, x.1.Coherent conv x.2.1 by
    refine hrun _ origins ⟨dbtInit_inv mapped code memory mode, fun i hi ↦ ?_⟩ hfinds
    exact absurd hi (Nat.not_lt_zero i)
  clear hfinds
  induction ops with
  | nil => simp [tracedSteps]
  | cons op ops ih =>
    intro s origins h hfinds
    simp only [tracedSteps, List.forall_mem_cons] at hfinds ⊢
    obtain ⟨hstep, hnext⟩ := Op.exec_coherent h op hfinds.1
    refine ⟨hstep, ?_⟩
    obtain ⟨r, s', hexec, -⟩ := hstep
    rw [hexec] at hfinds ⊢
    exact ih s' _ (hnext r s' hexec) hfinds.2

/-- The code of 256 halfwords that are each `ADDS R0, R0, R0` (`0x1800`) or `SUBS R0, R0, R0`
(`0x1a00`), as `arm2x86_convert_block_thumb` writes it: `R0` lives in `RAX`. -/
def addSubCode (armCode : List Byte) : List Byte :=
  (List.range 256).flatMap fun k ↦
    [0x48#8, 0x89#8, 0xc0#8, 0x48#8, if armCode[2 * k + 1]? = some 0x1a#8 then 0x29#8 else 0x01#8,
      0xc0#8]

/-- The Thumb translator on blocks of `ADDS` and `SUBS`. -/
def addSubConverter : Converter Unit where
  run _ _ _ armCode := .ok (addSubCode armCode)
  short _ _ _ armCode x86 h := by
    rw [← Except.ok.inj h, addSubCode, List.length_flatMap]
    have hconst : ∀ k : Nat, (List.length [0x48#8, 0x89#8, 0xc0#8, 0x48#8,
        if armCode[2 * k + 1]? = some 0x1a#8 then 0x29#8 else 0x01#8, 0xc0#8]) = 6 := fun _ ↦ rfl
    rw [List.map_congr_left fun k _ ↦ hconst k, List.map_const', List.length_range,
      List.sum_replicate_nat]
    decide

/-- Guest memory full of `ADDS R0, R0, R0`. -/
def addsMemory : Addr → Byte := fun addr ↦ if addr % 2#64 = 1#64 then 0x18#8 else 0x00#8

/-- The three translators at work on such blocks. -/
def addSubConverters : Converters Unit := ⟨addSubConverter, addSubConverter, addSubConverter⟩

/-- A block that is translated, looked up again, invalidated after a write and translated anew. -/
theorem dbt_run_coherent_invalidated :
    (tracedSteps addSubConverters [.translateBlock 0 0x1000#64 () true,
        .translateBlock 0 0x1000#64 () true, .write 0x1101#64 0x1a#8, .invalidateBlock 0x1000#64,
        .translateBlock 0 0x1000#64 () true]
        (dbtInit true (fun _ ↦ 0#8) addsMemory fun _ ↦ .thumb)
        (fun _ ↦ ⟨.thumb, addsMemory⟩)).all (fun x ↦ x.1.finds x.2.1 x.2.2) = true ∧
    ∀ x ∈ tracedSteps addSubConverters [.translateBlock 0 0x1000#64 () true,
        .translateBlock 0 0x1000#64 () true, .write 0x1101#64 0x1a#8, .invalidateBlock 0x1000#64,
        .translateBlock 0 0x1000#64 () true]
        (dbtInit true (fun _ ↦ 0#8) addsMemory fun _ ↦ .thumb) (fun _ ↦ ⟨.thumb, addsMemory⟩),
      x.1.Coherent addSubConverters x.2.1 := by
  have hfinds : (tracedSteps addSubConverters [.translateBlock 0 0x1000#64 () true,
      .translateBlock 0 0x1000#64 () true, .write 0x1101#64 0x1a#8, .invalidateBlock 0x1000#64,
      .translateBlock 0 0x1000#64 () true]
      (dbtInit true (fun _ ↦ 0#8) addsMemory fun _ ↦ .thumb)
      (fun _ ↦ ⟨.thumb, addsMemory⟩)).all (fun x ↦ x.1.finds x.2.1 x.2.2) = true := by
    decide +kernel
  exact ⟨hfinds, dbt_run_coherent _ _ _ _ _ _ _ (List.all_eq_true.mp hfinds)⟩

/-- Byte 772 of a block that is returned is not that of the code which is there. -/
def staleAt (op : Op Unit) (s : State) : Bool :=
  match op, op.exec addSubConverters s with
  | .translateBlock ctx armPc _ _, some (some (entry, size), s') =>
    decide (772 < size ∧ some (s'.code (entry + 772)) ≠
      (addSubCode (readMemory s.memory armPc (sourceSize (s.mode ctx))))[772]?)
  | _, _ => false

/-- Without the invalidation the block of the old code is returned: the write at byte 257 of a
Thumb block is not noticed. -/
theorem dbt_run_not_coherent :
    ¬ ∀ (conv : Converters Unit) (mapped : Bool) (code : Nat → Byte) (memory : Addr → Byte)
      (mode : Nat → Mode) (ops : List (Op Unit)),
      ∀ x ∈ stepsOf conv ops (dbtInit mapped code memory mode), x.1.Coherent conv x.2 := by
  intro hall
  have hrun := hall addSubConverters true (fun _ ↦ 0#8) addsMemory (fun _ ↦ .thumb)
    [.translateBlock 0 0x1000#64 () true, .write 0x1101#64 0x1a#8,
      .translateBlock 0 0x1000#64 () true]
  -- byte 772 of the block returned last is that of the old `ADDS`
  have hstale : (stepsOf addSubConverters [.translateBlock 0 0x1000#64 () true,
      .write 0x1101#64 0x1a#8, .translateBlock 0 0x1000#64 () true]
      (dbtInit true (fun _ ↦ 0#8) addsMemory fun _ ↦ .thumb)).any (fun x ↦
        staleAt x.1 x.2) = true := by
    decide +kernel
  obtain ⟨⟨op, s⟩, hx, hcheck⟩ := List.any_eq_true.mp hstale
  obtain ⟨r, s', hexec, hprop⟩ := hrun _ hx
  simp only [staleAt, hexec] at hcheck
  cases op with
  | translateBlock ctx armPc env alloc =>
    cases r with
    | none => cases hcheck
    | some block =>
      obtain ⟨entry, size⟩ := block
      obtain ⟨hlt, hne⟩ := of_decide_eq_true hcheck
      obtain ⟨env', x86, hconv, -, hcode⟩ := hprop entry size rfl
      have hx86 : x86 = addSubCode (readMemory s.memory armPc (sourceSize (s.mode ctx))) := by
        cases hmode : s.mode ctx <;> rw [hmode] at hconv <;> exact (Except.ok.inj hconv).symm
      rw [← hx86, ← hcode, readCode, List.getElem?_map, List.getElem?_range hlt] at hne
      exact hne rfl
  | write addr value => cases hcheck
  | setMode ctx mode => cases hcheck
  | invalidateBlock armPc => cases hcheck
  | flushCache => cases hcheck

end Arm2x86.Dbt
