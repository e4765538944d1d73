import Arm2x86.Dbt.Model

/-!
# Locking and invalidation in the translation runtime

What every call does when the mutex is free. `dbt_lookup` holds the mutex while it calls
`dbt_invalidate_block`, which takes it again: a lookup that detects modified guest code never
returns. `dbt_invalidate_block` itself sees the low word of an address only.
-/

namespace Arm2x86.Dbt

namespace State

/-- The table has a block of the address that can be executed. -/
def Live (s : State) (armPc : Addr) : Prop :=
  ∃ i < s.count, (s.cache i).armPc = armPc ∧ (s.cache i).x86Entry ≠ none

/-- A lookup of the address finds a block whose guest code has changed. -/
def smcDetected (s : State) (armPc : Addr) : Bool :=
  match s.findBlock armPc with
  | none => false
  | some i => dbtCheckSmc s.memory (s.cache i)

/-- The table without the first block of the address. -/
def invalidate (s : State) (armPc : Addr) : State :=
  match s.findBlock armPc with
  | none => s
  | some i => s.setBlock i (s.cache i).invalidated

/-- The table with one more hit of a block. -/
def countHit (s : State) (i : Nat) : State :=
  s.setBlock i { s.cache i with hitCount := (s.cache i).hitCount + 1 }

/-- The index of the next new block. -/
def slot (s : State) : Nat := if s.count ≥ cacheSize then leastHits s.cache s.count else s.count

/-- The table with a new block. -/
def insertBlock (s : State) (block : Block) : State :=
  if s.count ≥ cacheSize then s.setBlock (leastHits s.cache s.count) block
  else { s.setBlock s.count block with count := s.count + 1 }

end State

variable {E : Type} {conv : Converters E} {s s' : State} {armPc : Addr}

theorem findBlock_eq_some {i : Nat} (h : s.findBlock armPc = some i) :
    i < s.count ∧ (s.cache i).armPc = armPc := by
  have hmem := List.mem_of_find?_eq_some h
  have hpc := List.find?_some h
  exact ⟨List.mem_range.mp hmem, of_decide_eq_true hpc⟩

theorem findBlock_eq_none : s.findBlock armPc = none ↔ ∀ i < s.count, (s.cache i).armPc ≠ armPc := by
  simp only [State.findBlock, List.find?_eq_none, List.mem_range, decide_eq_true_eq, ne_eq]

/-- An invalidation with the mutex free. -/
theorem dbtInvalidateBlock_eq (hlock : s.locked = false) (pc : BitVec 32) :
    dbtInvalidateBlock pc s = some (s.invalidate (pc.setWidth 64)) := by
  obtain ⟨locked, cache, count, mapped, cacheUsed, code, memory, mode⟩ := s
  obtain rfl : locked = false := hlock
  simp only [dbtInvalidateBlock, State.lock, Bool.false_eq_true, if_false, Option.bind_eq_bind,
    Option.bind_some, State.invalidate]
  cases hfind : State.findBlock ⟨false, cache, count, mapped, cacheUsed, code, memory, mode⟩
      (pc.setWidth 64) with
  | none =>
    have hfind' : State.findBlock ⟨true, cache, count, mapped, cacheUsed, code, memory, mode⟩
        (pc.setWidth 64) = none := hfind
    rw [hfind']
    rfl
  | some i =>
    have hfind' : State.findBlock ⟨true, cache, count, mapped, cacheUsed, code, memory, mode⟩
        (pc.setWidth 64) = some i := hfind
    rw [hfind']
    rfl

/-- A lookup with the mutex free that finds nothing. -/
theorem dbtLookup_of_miss (hlock : s.locked = false) (hfind : s.findBlock armPc = none) :
    dbtLookup armPc s = some (none, s) := by
  obtain ⟨locked, cache, count, mapped, cacheUsed, code, memory, mode⟩ := s
  obtain rfl : locked = false := hlock
  have hfind' : State.findBlock ⟨true, cache, count, mapped, cacheUsed, code, memory, mode⟩
      armPc = none := hfind
  simp only [dbtLookup, State.lock, Bool.false_eq_true, if_false, Option.bind_eq_bind,
    Option.bind_some, hfind']
  rfl

/-- A lookup with the mutex free that finds a block whose guest code is unchanged. -/
theorem dbtLookup_of_hit (hlock : s.locked = false) {i : Nat} (hfind : s.findBlock armPc = some i)
    (hsmc : dbtCheckSmc s.memory (s.cache i) = false) :
    dbtLookup armPc s = some (some i, s.countHit i) := by
  obtain ⟨locked, cache, count, mapped, cacheUsed, code, memory, mode⟩ := s
  obtain rfl : locked = false := hlock
  have hfind' : State.findBlock ⟨true, cache, count, mapped, cacheUsed, code, memory, mode⟩
      armPc = some i := hfind
  simp only at hsmc
  simp only [dbtLookup, State.lock, Bool.false_eq_true, if_false, Option.bind_eq_bind,
    Option.bind_some, hfind', hsmc]
  rfl

/-- A lookup that detects modified guest code waits for its own lock. -/
theorem dbtLookup_of_smc {i : Nat} (hfind : s.findBlock armPc = some i)
    (hsmc : dbtCheckSmc s.memory (s.cache i) = true) : dbtLookup armPc s = none := by
  obtain ⟨locked, cache, count, mapped, cacheUsed, code, memory, mode⟩ := s
  cases locked with
  | true => rfl
  | false =>
    have hfind' : State.findBlock ⟨true, cache, count, mapped, cacheUsed, code, memory, mode⟩
        armPc = some i := hfind
    simp only at hsmc
    simp only [dbtLookup, State.lock, Bool.false_eq_true, if_false, Option.bind_eq_bind,
      Option.bind_some, hfind', hsmc, if_true, dbtInvalidateBlock, Option.bind_none]

theorem dbtInsert_eq (hlock : s.locked = false) (x86Entry : Nat) (blockSize : BitVec 32)
    (originalCode : List Byte) (originalSize : Nat) :
    dbtInsert armPc x86Entry blockSize originalCode originalSize s = some (s.insertBlock
      ⟨armPc, some x86Entry, blockSize, 0#32, some originalCode, originalSize⟩) := by
  obtain ⟨locked, cache, count, mapped, cacheUsed, code, memory, mode⟩ := s
  obtain rfl : locked = false := hlock
  simp only [dbtInsert, State.lock, Bool.false_eq_true, if_false, Option.bind_eq_bind,
    Option.bind_some, State.insertBlock]
  split <;> rfl

/-- What a translation does with the mutex free when no modified guest code is detected: a block
is found, or there is no room or memory for one, or the translator fails, or a new block is
inserted. -/
theorem dbtTranslateBlock_cases (conv : Converters E) (hlock : s.locked = false)
    (hsmc : s.smcDetected armPc = false) (ctx : Nat) (env : E) (alloc : Bool) :
    (∃ i, s.findBlock armPc = some i ∧
      dbtTranslateBlock conv ctx armPc env alloc s =
        some ((s.cache i).x86Entry.map fun entry ↦ (entry, (s.cache i).blockSize.toNat),
          s.countHit i)) ∨
    s.findBlock armPc = none ∧
      (dbtTranslateBlock conv ctx armPc env alloc s = some (none, s) ∨
        (∃ written, dbtTranslateBlock conv ctx armPc env alloc s =
          some (none, { s with code := writeCode s.code s.cacheUsed written })) ∨
        ∃ x86, (conv.convert (s.mode ctx)).run env armPc s.cacheUsed
            (readMemory s.memory armPc (sourceSize (s.mode ctx))) = .ok x86 ∧
          dbtTranslateBlock conv ctx armPc env alloc s = some (some (s.cacheUsed, x86.length),
            { ({ s with code := writeCode s.code s.cacheUsed x86 } : State).insertBlock
                ⟨armPc, some s.cacheUsed, BitVec.ofNat 32 x86.length, 0#32,
                  some (readMemory s.memory armPc armSize), armSize⟩ with
              cacheUsed := s.cacheUsed + (x86.length + 15) / 16 * 16 })) := by
  cases hfind : s.findBlock armPc with
  | some i =>
    left
    rw [State.smcDetected, hfind] at hsmc
    refine ⟨i, rfl, ?_⟩
    simp only [dbtTranslateBlock, dbtLookup_of_hit hlock hfind hsmc, Option.bind_eq_bind,
      Option.bind_some]
    simp [State.countHit, State.setBlock]
  | none =>
    right
    refine ⟨rfl, ?_⟩
    simp only [dbtTranslateBlock, dbtLookup_of_miss hlock hfind, Option.bind_eq_bind,
      Option.bind_some]
    split
    · exact .inl rfl
    · split
      · exact .inl rfl
      · right
        cases hconv : (conv.convert (s.mode ctx)).run env armPc s.cacheUsed
            (readMemory s.memory armPc (sourceSize (s.mode ctx))) with
        | error written => exact .inl ⟨written, rfl⟩
        | ok x86 =>
          refine .inr ⟨x86, rfl, ?_⟩
          have hlock' : ({ s with code := writeCode s.code s.cacheUsed x86 } : State).locked =
              false := hlock
          simp only [dbtInsert_eq hlock', Option.bind_some]
          have hused : (({ s with code := writeCode s.code s.cacheUsed x86 } : State).insertBlock
              ⟨armPc, some s.cacheUsed, BitVec.ofNat 32 x86.length, 0#32,
                some (readMemory s.memory armPc armSize), armSize⟩).cacheUsed = s.cacheUsed := by
            unfold State.insertBlock
            split <;> rfl
          rw [hused]
          rfl

theorem insertBlock_cache (s : State) (block : Block) (j : Nat) :
    (s.insertBlock block).cache j = if j = s.slot then block else s.cache j := by
  unfold State.insertBlock State.slot
  split <;> rfl

theorem lt_insertBlock_count {block : Block} {j : Nat} (hj : j < (s.insertBlock block).count)
    (hne : j ≠ s.slot) : j < s.count := by
  unfold State.insertBlock at hj
  unfold State.slot at hne
  split at hj
  · exact hj
  · next h =>
    rw [if_neg h] at hne
    change j < s.count + 1 at hj
    omega

theorem insertBlock_locked (s : State) (block : Block) :
    (s.insertBlock block).locked = s.locked := by
  unfold State.insertBlock
  split <;> rfl

/-- Between calls the mutex is free, and no two live blocks have one address. -/
structure Inv (s : State) : Prop where
  unlocked : s.locked = false
  distinct : ∀ i < s.count, ∀ j < s.count, (s.cache i).x86Entry ≠ none →
    (s.cache j).x86Entry ≠ none → (s.cache i).armPc = (s.cache j).armPc → i = j

theorem dbtInit_inv (mapped : Bool) (code : Nat → Byte) (memory : Addr → Byte)
    (mode : Nat → Mode) : Inv (dbtInit mapped code memory mode) where
  unlocked := rfl
  distinct i hi := absurd hi (Nat.not_lt_zero i)

theorem Inv.countHit (h : Inv s) (i : Nat) : Inv (s.countHit i) where
  unlocked := h.unlocked
  distinct j hj k hk hlive hlive' hpc := by
    have hkeep : ∀ j, ((s.countHit i).cache j).x86Entry = (s.cache j).x86Entry ∧
        ((s.countHit i).cache j).armPc = (s.cache j).armPc := by
      intro j
      simp only [State.countHit, State.setBlock]
      split
      · next hji => exact hji ▸ ⟨rfl, rfl⟩
      · exact ⟨rfl, rfl⟩
    rw [(hkeep j).1] at hlive
    rw [(hkeep k).1] at hlive'
    rw [(hkeep j).2, (hkeep k).2] at hpc
    exact h.distinct j hj k hk hlive hlive' hpc

theorem Inv.insertBlock (h : Inv s) (hmiss : s.findBlock armPc = none) (block : Block)
    (hblock : block.armPc = armPc) : Inv (s.insertBlock block) where
  unlocked := by rw [insertBlock_locked, h.unlocked]
  distinct i hi j hj hlive hlive' hpc := by
    have hnew : ∀ k, k < (s.insertBlock block).count → k ≠ s.slot →
        (s.cache k).armPc ≠ armPc := fun k hk hks ↦
      findBlock_eq_none.mp hmiss k (lt_insertBlock_count hk hks)
    rw [insertBlock_cache] at hlive hlive'
    rw [insertBlock_cache, insertBlock_cache] at hpc
    by_cases his : i = s.slot
    · by_cases hjs : j = s.slot
      · rw [his, hjs]
      · rw [if_pos his, if_neg hjs, hblock] at hpc
        exact absurd hpc.symm (hnew j hj hjs)
    · rw [if_neg his] at hlive hpc
      by_cases hjs : j = s.slot
      · rw [if_pos hjs, hblock] at hpc
        exact absurd hpc (hnew i hi his)
      · rw [if_neg hjs] at hlive' hpc
        exact h.distinct i (lt_insertBlock_count hi his) j (lt_insertBlock_count hj hjs) hlive
          hlive' hpc

/-- An invalidation kills at most blocks. -/
theorem Inv.invalidate (h : Inv s) (pc : Addr) : Inv (s.invalidate pc) := by
  unfold State.invalidate
  split
  · exact h
  · next k _ =>
    refine ⟨h.unlocked, fun i hi j hj hlive hlive' hpc ↦ ?_⟩
    by_cases hik : i = k
    · exact absurd (by simp [State.setBlock, hik, Block.invalidated]) hlive
    · by_cases hjk : j = k
      · exact absurd (by simp [State.setBlock, hjk, Block.invalidated]) hlive'
      · simp only [State.setBlock, if_neg hik, if_neg hjk] at hlive hlive' hpc
        exact h.distinct i hi j hj hlive hlive' hpc

/-- The condition under which a call neither blocks nor leaves a stale block: a lookup detects
no modified guest code, and an invalidation has the address of a live block in the low word and
does not meet a dead block of the same address first. -/
def Op.Harmless (op : Op E) (s : State) : Prop :=
  match op with
  | .invalidateBlock armPc => s.Live armPc → armPc.toNat < 2 ^ 32 ∧
    ∃ i, s.findBlock armPc = some i ∧ (s.cache i).x86Entry ≠ none
  | .translateBlock _ armPc _ _ => s.smcDetected armPc = false
  | _ => True

/-- A call returns and has released the mutex, and no live block is left of an address that was
invalidated or whose guest code a lookup found modified. -/
def Op.Releases (conv : Converters E) (op : Op E) (s : State) : Prop :=
  ∃ r s', op.exec conv s = some (r, s') ∧ s'.locked = false ∧
    match op with
    | .invalidateBlock armPc => ¬ s'.Live armPc
    | .translateBlock _ armPc _ _ => s.smcDetected armPc = true →
      ∃ s₁, dbtLookup armPc s = some (none, s₁) ∧ ¬ s₁.Live armPc
    | _ => True

/-- A translation that detects modified guest code does not return. -/
theorem dbtTranslateBlock_of_smc (hsmc : s.smcDetected armPc = true) (ctx : Nat) (env : E)
    (alloc : Bool) : dbtTranslateBlock conv ctx armPc env alloc s = none := by
  unfold State.smcDetected at hsmc
  split at hsmc
  · cases hsmc
  · next i hfind =>
    rw [dbtTranslateBlock, dbtLookup_of_smc hfind hsmc]
    rfl

theorem dbtFlushCache_eq (hlock : s.locked = false) :
    ∃ s', dbtFlushCache s = some s' ∧ s'.locked = false ∧ s'.count = 0 := by
  simp only [dbtFlushCache, State.lock, hlock, Bool.false_eq_true, if_false, Option.bind_eq_bind,
    Option.bind_some]
  exact ⟨_, rfl, rfl, rfl⟩

/-- A step that returns keeps the invariant. -/
theorem Op.exec_inv (h : Inv s) {op : Op E} {r : Option (Nat × Nat)}
    (hexec : op.exec conv s = some (r, s')) : Inv s' := by
  cases op with
  | write addr value =>
    obtain ⟨-, rfl⟩ := Prod.mk.inj (Option.some.inj hexec)
    exact ⟨h.unlocked, h.distinct⟩
  | setMode ctx mode =>
    obtain ⟨-, rfl⟩ := Prod.mk.inj (Option.some.inj hexec)
    exact ⟨h.unlocked, h.distinct⟩
  | invalidateBlock armPc =>
    simp only [Op.exec, dbtInvalidateBlock_eq h.unlocked] at hexec
    obtain ⟨-, rfl⟩ := Prod.mk.inj (Option.some.inj hexec)
    exact h.invalidate _
  | flushCache =>
    obtain ⟨s₁, hflush, hlock, hcount⟩ := dbtFlushCache_eq h.unlocked
    simp only [Op.exec, hflush] at hexec
    obtain ⟨-, rfl⟩ := Prod.mk.inj (Option.some.inj hexec)
    refine ⟨hlock, fun i hi ↦ ?_⟩
    rw [hcount] at hi
    exact absurd hi (Nat.not_lt_zero i)
  | translateBlock ctx armPc env alloc =>
    change dbtTranslateBlock conv ctx armPc env alloc s = _ at hexec
    cases hsmc : s.smcDetected armPc with
    | true =>
      rw [dbtTranslateBlock_of_smc hsmc] at hexec
      cases hexec
    | false =>
      obtain ⟨i, -, heq⟩ | ⟨hmiss, heq | ⟨written, heq⟩ | ⟨x86, -, heq⟩⟩ :=
        dbtTranslateBlock_cases conv h.unlocked hsmc ctx env alloc
      · obtain ⟨-, rfl⟩ := Prod.mk.inj (Option.some.inj (heq.symm.trans hexec))
        exact h.countHit i
      · obtain ⟨-, rfl⟩ := Prod.mk.inj (Option.some.inj (heq.symm.trans hexec))
        exact h
      · obtain ⟨-, rfl⟩ := Prod.mk.inj (Option.some.inj (heq.symm.trans hexec))
        exact ⟨h.unlocked, h.distinct⟩
      · obtain ⟨-, rfl⟩ := Prod.mk.inj (Option.some.inj (heq.symm.trans hexec))
        have hcode : Inv { s with code := writeCode s.code s.cacheUsed x86 } :=
          ⟨h.unlocked, h.distinct⟩
        have hins := hcode.insertBlock hmiss ⟨armPc, some s.cacheUsed,
          BitVec.ofNat 32 x86.length, 0#32, some (readMemory s.memory armPc armSize), armSize⟩ rfl
        exact ⟨hins.unlocked, hins.distinct⟩

/-- An invalidation leaves no live block exactly if the first block of the truncated address is
the live block of the whole one. -/
theorem not_live_invalidate_iff (h : Inv s) (pc : Addr) :
    ¬ (s.invalidate ((pc.setWidth 32).setWidth 64)).Live pc ↔
      (s.Live pc → pc.toNat < 2 ^ 32 ∧
        ∃ i, s.findBlock pc = some i ∧ (s.cache i).x86Entry ≠ none) := by
  have hlow : (pc.setWidth 32).setWidth 64 = pc ↔ pc.toNat < 2 ^ 32 := by
    rw [← BitVec.toNat_inj, BitVec.toNat_setWidth, BitVec.toNat_setWidth]
    have := pc.isLt
    omega
  constructor
  · rintro hdead ⟨i, hi, hpc, hlive⟩
    unfold State.invalidate at hdead
    split at hdead
    · exact absurd ⟨i, hi, hpc, hlive⟩ hdead
    · next k hfind =>
      by_cases hik : i = k
      · subst hik
        have hsame := (findBlock_eq_some hfind).2
        rw [hpc] at hsame
        rw [← hsame] at hfind
        exact ⟨hlow.mp hsame.symm, i, hfind, hlive⟩
      · refine absurd ⟨i, hi, ?_, ?_⟩ hdead
        · simp only [State.setBlock, if_neg hik]
          exact hpc
        · simp only [State.setBlock, if_neg hik]
          exact hlive
  · rintro hcond ⟨i, hi, hpc, hlive⟩
    unfold State.invalidate at hi hpc hlive
    split at hi
    · next hfind =>
      rw [hfind] at hpc hlive
      obtain ⟨hsmall, j, hj, -⟩ := hcond ⟨i, hi, hpc, hlive⟩
      rw [hlow.mpr hsmall, hj] at hfind
      cases hfind
    · next k hfind =>
      rw [hfind] at hpc hlive
      simp only [State.setBlock] at hpc hlive hi
      by_cases hik : i = k
      · simp [hik, Block.invalidated] at hlive
      · rw [if_neg hik] at hpc hlive
        obtain ⟨hsmall, j, hj, hjlive⟩ := hcond ⟨i, hi, hpc, hlive⟩
        rw [hlow.mpr hsmall, hj] at hfind
        obtain rfl := Option.some.inj hfind
        obtain ⟨hjlt, hjpc⟩ := findBlock_eq_some hj
        exact hik (h.distinct i hi j hjlt hlive hjlive (hpc.trans hjpc.symm))

/-- One step with the mutex free. -/
theorem Op.releases_iff (h : Inv s) (op : Op E) : op.Releases conv s ↔ op.Harmless s := by
  cases op with
  | write addr value => exact iff_of_true ⟨_, _, rfl, h.unlocked, trivial⟩ trivial
  | setMode ctx mode => exact iff_of_true ⟨_, _, rfl, h.unlocked, trivial⟩ trivial
  | flushCache =>
    obtain ⟨s₁, hflush, hlock, -⟩ := dbtFlushCache_eq h.unlocked
    refine iff_of_true ⟨none, s₁, ?_, hlock, trivial⟩ trivial
    simp only [Op.exec, hflush]
    rfl
  | invalidateBlock armPc =>
    have hexec : (Op.invalidateBlock armPc : Op E).exec conv s =
        some (none, s.invalidate ((armPc.setWidth 32).setWidth 64)) := by
      simp only [Op.exec, dbtInvalidateBlock_eq h.unlocked]
      rfl
    refine Iff.trans ?_ (not_live_invalidate_iff h armPc)
    constructor
    · rintro ⟨r, s', hrun, -, hdead⟩
      obtain ⟨-, rfl⟩ := Prod.mk.inj (Option.some.inj (hexec.symm.trans hrun))
      exact hdead
    · exact fun hdead ↦ ⟨none, _, hexec, (h.invalidate _).unlocked, hdead⟩
  | translateBlock ctx armPc env alloc =>
    constructor
    · rintro ⟨r, s', hrun, -, -⟩
      change dbtTranslateBlock conv ctx armPc env alloc s = _ at hrun
      cases hsmc : s.smcDetected armPc with
      | true =>
        rw [dbtTranslateBlock_of_smc hsmc] at hrun
        cases hrun
      | false => exact hsmc
    · intro hsmc
      have hret : ∃ r s', (Op.translateBlock ctx armPc env alloc).exec conv s = some (r, s') := by
        obtain ⟨i, -, heq⟩ | ⟨-, heq | ⟨written, heq⟩ | ⟨x86, -, heq⟩⟩ :=
          dbtTranslateBlock_cases conv h.unlocked hsmc ctx env alloc
        all_goals exact ⟨_, _, heq⟩
      obtain ⟨r, s', hrun⟩ := hret
      refine ⟨r, s', hrun, (Op.exec_inv h hrun).unlocked, fun hsmc' ↦ ?_⟩
      rw [show s.smcDetected armPc = false from hsmc] at hsmc'
      cases hsmc'

/-- In a run of the runtime every call returns with the mutex released, and no live block is left
of an address that was invalidated or found modified, exactly if every step is harmless. -/
theorem dbt_run_releases_iff (conv : Converters E) (mapped : Bool) (code : Nat → Byte)
    (memory : Addr → Byte) (mode : Nat → Mode) (ops : List (Op E)) :
    (∀ x ∈ stepsOf conv ops (dbtInit mapped code memory mode), x.1.Releases conv x.2) ↔
      ∀ x ∈ stepsOf conv ops (dbtInit mapped code memory mode), x.1.Harmless x.2 := by
  suffices hinv : ∀ s, Inv s → ((∀ x ∈ stepsOf conv ops s, x.1.Releases conv x.2) ↔
      ∀ x ∈ stepsOf conv ops s, x.1.Harmless x.2) from hinv _ (dbtInit_inv mapped code memory mode)
  induction ops with
  | nil => simp [stepsOf]
  | cons op ops ih =>
    intro s h
    simp only [stepsOf, List.forall_mem_cons]
    rw [op.releases_iff h]
    refine and_congr_right fun _ ↦ ?_
    cases hexec : op.exec conv s with
    | none => simp
    | some result =>
      obtain ⟨r, s'⟩ := result
      exact ih s' (Op.exec_inv h hexec)

/-- The code of sixty-four `SVC` instructions, which `arm2x86_convert_block_arm32` translates to
one `SYSCALL` each. -/
def svcConverter : Converter Unit where
  run _ _ _ _ := .ok (List.replicate 64 [0x0f#8, 0x05#8]).flatten
  short _ _ _ _ x86 h := by
    rw [← Except.ok.inj h]
    simp

/-- Guest memory full of `SVC #0` in ARM32 code. -/
def svcMemory : Addr → Byte := fun addr ↦ if addr % 4#64 = 3#64 then 0xef#8 else 0x00#8

/-- A block that is translated, modified and translated again: the third step never returns. -/
theorem dbt_run_not_releases :
    ¬ ∀ (conv : Converters Unit) (mapped : Bool) (code : Nat → Byte) (memory : Addr → Byte)
      (mode : Nat → Mode) (ops : List (Op Unit)),
      ∀ x ∈ stepsOf conv ops (dbtInit mapped code memory mode), x.1.Releases conv x.2 := by
  intro hall
  have hrun := hall ⟨svcConverter, svcConverter, svcConverter⟩ true (fun _ ↦ 0#8) svcMemory
    (fun _ ↦ .arm32) [.translateBlock 0 0x1000#64 () true, .write 0x1000#64 1#8,
      .translateBlock 0 0x1000#64 () true]
  have hblocked : (stepsOf ⟨svcConverter, svcConverter, svcConverter⟩
      [.translateBlock 0 0x1000#64 () true, .write 0x1000#64 1#8, .translateBlock 0 0x1000#64 () true]
      (dbtInit true (fun _ ↦ 0#8) svcMemory fun _ ↦ .arm32)).any (fun x ↦
        (x.1.exec ⟨svcConverter, svcConverter, svcConverter⟩ x.2).isNone) = true := by
    decide +kernel
  obtain ⟨x, hx, hnone⟩ := List.any_eq_true.mp hblocked
  obtain ⟨r, s', hexec, -⟩ := hrun x hx
  rw [hexec] at hnone
  cases hnone

end Arm2x86.Dbt
