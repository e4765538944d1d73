import Arm2x86.Arm32.OutputBound
import Arm2x86.Dbt.Locking

/-!
# Where the code of the runtime lies

The translation runtime with the translators of the source. A translation needs 4096 free bytes in the
code cache, whatever the translator puts out, so the last block may reach beyond the end; by how much is
bounded by the longest output. Below the pointer of the used part no translation writes, and no two
live blocks overlap.
-/

namespace Arm2x86.Dbt

/-- What the three translators read beside the guest code: the settings and the stack of
`arm2x86_convert_block`, the value of a shift by a negative count, and the address of the code cache. -/
structure Surroundings where
  env : Translate.Env
  stack : Translate.Stack
  shl : Int → BitVec 64
  codeCache : BitVec 64

/-- The guest code a translator is given, as a block. -/
def sourceBlock (armPc : Addr) (armCode : List Byte) : Translate.Block where
  mem p := armCode.getD (p - armPc).toNat 0
  addr := armPc
  size := armSize

/-- The longest output of any of the translators, for the guest code the runtime gives them. -/
def outputLimit : Nat := 147264

theorem length_arm64_le (surr : Surroundings) (blk : Translate.Block) (h : blk.size = armSize)
    (x86Base : BitVec 64) :
    (Translate.convertBlockBytes surr.env surr.stack blk x86Base).length ≤ outputLimit := by
  have hlen := Translate.length_convertBlockBytes_le surr.env surr.stack blk x86Base
  have hlimit : Translate.outputBound armSize ≤ outputLimit := by decide
  rw [h] at hlen
  omega

theorem length_arm32_le (blk : Translate.Block) (h : blk.size = armSize) :
    (Arm32.convertBlockArm32 blk).length ≤ outputLimit := by
  have hlen := Arm32.length_convertWords_le blk (Arm32.wordCount blk.size)
  have hlimit : 2301 * Arm32.wordCount armSize = outputLimit := by decide
  rw [Arm32.convertBlockArm32]
  rw [h] at hlen ⊢
  omega

/-- `arm2x86_convert_block`, for the 64 instructions of a block of the runtime. -/
def arm64Converter : Converter Surroundings where
  run surr armPc blockMem armCode := .ok (Translate.convertBlockBytes surr.env surr.stack
    (sourceBlock armPc armCode) (surr.codeCache + BitVec.ofNat 64 blockMem))
  short surr armPc blockMem armCode x86 h := by
    have hlen := length_arm64_le surr (sourceBlock armPc armCode) rfl
      (surr.codeCache + BitVec.ofNat 64 blockMem)
    rw [Except.ok.inj h] at hlen
    exact Nat.lt_of_le_of_lt hlen (by decide)

/-- `arm2x86_convert_block_arm32`. -/
def arm32Converter : Converter Surroundings where
  run _ armPc _ armCode := .ok (Arm32.convertBlockArm32 (sourceBlock armPc armCode))
  short _ armPc _ armCode x86 h := by
    have hlen := length_arm32_le (sourceBlock armPc armCode) rfl
    rw [Except.ok.inj h] at hlen
    exact Nat.lt_of_le_of_lt hlen (by decide)

/-- What `arm2x86_convert_block_thumb` puts out for the guest code it is given. -/
def thumbOutput (surr : Surroundings) (armCode : List Byte) : Except (List Byte) (List Byte) :=
  match Thumb.convertBlockThumb surr.shl (armCode.take (sourceSize .thumb)) with
  | some d => .ok d.out
  | none => .error []

theorem length_thumbOutput_le {surr : Surroundings} {armCode x86 : List Byte}
    (h : thumbOutput surr armCode = .ok x86) : x86.length ≤ outputLimit := by
  unfold thumbOutput at h
  split at h
  · next d hd =>
    have hlen := Thumb.length_convertBlockThumb_le hd
    have htake : (armCode.take (sourceSize .thumb)).length ≤ sourceSize .thumb := List.length_take_le _ _
    have hsize : sourceSize .thumb = 512 := rfl
    have hlimit : outputLimit = 147264 := rfl
    rw [← Except.ok.inj h]
    omega
  · cases h

/-- `arm2x86_convert_block_thumb`. -/
def thumbConverter : Converter Surroundings where
  run surr _ _ armCode := thumbOutput surr armCode
  short _ _ _ _ _ h := Nat.lt_of_le_of_lt (length_thumbOutput_le h) (by decide)

/-- The translators of the source. -/
def sourceConverters : Converters Surroundings := ⟨arm64Converter, arm32Converter, thumbConverter⟩

/-- What any of them writes, on success and on failure. -/
theorem length_output_le (surr : Surroundings) (armPc : Addr) (blockMem : Nat) (armCode : List Byte)
    (mode : Mode) :
    match (sourceConverters.convert mode).run surr armPc blockMem armCode with
    | .ok x86 => x86.length ≤ outputLimit
    | .error written => written = [] := by
  cases mode with
  | arm32 => exact length_arm32_le (sourceBlock armPc armCode) rfl
  | thumb =>
    change match thumbOutput surr armCode with | .ok x86 => _ | .error written => _
    split
    · next h => exact length_thumbOutput_le h
    · next h =>
      unfold thumbOutput at h
      split at h
      · cases h
      · exact (Except.error.inj h).symm
  | arm64 | auto => exact length_arm64_le surr (sourceBlock armPc armCode) rfl _

section Placement

variable {conv : Converters Surroundings} {s s' : State} {armPc : Addr}

/-- The live block at an index of the table, with its place and its size. -/
def State.liveAt (s : State) (i entry size : Nat) : Prop :=
  i < s.count ∧ (s.cache i).x86Entry = some entry ∧ (s.cache i).blockSize.toNat = size

/-- The used part of the code cache reaches over its end by a block at most, and the live blocks lie in
it, apart from each other. -/
structure Placed (s : State) : Prop extends Inv s where
  within : s.cacheUsed ≤ codeCacheSize - 4096 + outputLimit
  below : ∀ {i entry size}, s.liveAt i entry size → entry + size ≤ s.cacheUsed
  apart : ∀ {i j entry size entry' size'}, i ≠ j → s.liveAt i entry size → s.liveAt j entry' size' →
    entry + size ≤ entry' ∨ entry' + size' ≤ entry

/-- A step that adds no block. -/
theorem Placed.of_live (h : Placed s) (hinv : Inv s') (hused : s'.cacheUsed = s.cacheUsed)
    (hlive : ∀ {i entry size}, s'.liveAt i entry size → s.liveAt i entry size) : Placed s' where
  toInv := hinv
  within := hused ▸ h.within
  below hi := hused ▸ h.below (hlive hi)
  apart hij hi hj := h.apart hij (hlive hi) (hlive hj)

theorem placed_dbtInit (mapped : Bool) (code : Nat → Byte) (memory : Addr → Byte) (mode : Nat → Mode) :
    Placed (dbtInit mapped code memory mode) where
  toInv := dbtInit_inv mapped code memory mode
  within := Nat.zero_le _
  below hi := absurd hi.1 (Nat.not_lt_zero _)
  apart _ hi := absurd hi.1 (Nat.not_lt_zero _)

theorem liveAt_countHit {i j entry size : Nat} (h : (s.countHit i).liveAt j entry size) :
    s.liveAt j entry size := by
  obtain ⟨hj, hentry, hsize⟩ := h
  simp only [State.countHit, State.setBlock] at hentry hsize
  refine ⟨hj, ?_, ?_⟩
  · split at hentry
    · next hji => exact hji ▸ hentry
    · exact hentry
  · split at hsize
    · next hji => exact hji ▸ hsize
    · exact hsize

theorem liveAt_invalidate {pc : Addr} {j entry size : Nat} (h : (s.invalidate pc).liveAt j entry size) :
    s.liveAt j entry size := by
  unfold State.invalidate at h
  split at h
  · exact h
  · next i _ =>
    obtain ⟨hj, hentry, hsize⟩ := h
    simp only [State.setBlock] at hentry hsize
    by_cases hji : j = i
    · rw [if_pos hji] at hentry
      cases hentry
    · rw [if_neg hji] at hentry hsize
      exact ⟨hj, hentry, hsize⟩

/-- The state behind an insertion. -/
def State.inserted (s : State) (armPc : Addr) (x86 : List Byte) : State :=
  { ({ s with code := writeCode s.code s.cacheUsed x86 } : State).insertBlock
      ⟨armPc, some s.cacheUsed, BitVec.ofNat 32 x86.length, 0#32,
        some (readMemory s.memory armPc armSize), armSize⟩ with
    cacheUsed := s.cacheUsed + (x86.length + 15) / 16 * 16 }

/-- A translation of an address that is not in the table. -/
theorem dbtTranslateBlock_of_miss (conv : Converters Surroundings) (hlock : s.locked = false)
    (hmiss : s.findBlock armPc = none) (ctx : Nat) (surr : Surroundings) (alloc : Bool) :
    (s.mapped = false ∨ codeCacheSize < s.cacheUsed + 4096 ∨ alloc = false) ∧
        dbtTranslateBlock conv ctx armPc surr alloc s = some (none, s) ∨
      s.cacheUsed + 4096 ≤ codeCacheSize ∧
        match (conv.convert (s.mode ctx)).run surr armPc s.cacheUsed
          (readMemory s.memory armPc (sourceSize (s.mode ctx))) with
        | .error written => dbtTranslateBlock conv ctx armPc surr alloc s =
            some (none, { s with code := writeCode s.code s.cacheUsed written })
        | .ok x86 => dbtTranslateBlock conv ctx armPc surr alloc s =
            some (some (s.cacheUsed, x86.length), s.inserted armPc x86) := by
  by_cases hfull : s.mapped = false ∨ s.cacheUsed + 4096 > codeCacheSize
  · refine .inl ⟨hfull.imp_right .inl, ?_⟩
    simp only [dbtTranslateBlock, dbtLookup_of_miss hlock hmiss, Option.bind_eq_bind, Option.bind_some,
      if_pos hfull]
    rfl
  · have hroom : s.cacheUsed + 4096 ≤ codeCacheSize :=
      Nat.not_lt.mp fun h ↦ hfull (.inr h)
    cases alloc with
    | false =>
      refine .inl ⟨.inr (.inr rfl), ?_⟩
      simp only [dbtTranslateBlock, dbtLookup_of_miss hlock hmiss, Option.bind_eq_bind,
        Option.bind_some, if_neg hfull]
      rfl
    | true =>
      right
      refine ⟨hroom, ?_⟩
      split
      · next written hconv =>
        simp only [dbtTranslateBlock, dbtLookup_of_miss hlock hmiss, Option.bind_eq_bind,
          Option.bind_some, if_neg hfull, Bool.true_eq_false, if_false, hconv]
        rfl
      · next x86 hconv =>
        have hlock' : ({ s with code := writeCode s.code s.cacheUsed x86 } : State).locked = false := hlock
        have hused : (({ s with code := writeCode s.code s.cacheUsed x86 } : State).insertBlock
            ⟨armPc, some s.cacheUsed, BitVec.ofNat 32 x86.length, 0#32,
              some (readMemory s.memory armPc armSize), armSize⟩).cacheUsed = s.cacheUsed := by
          unfold State.insertBlock
          split <;> rfl
        simp only [dbtTranslateBlock, dbtLookup_of_miss hlock hmiss, Option.bind_eq_bind,
          Option.bind_some, if_neg hfull, Bool.true_eq_false, if_false, hconv, dbtInsert_eq hlock']
        rw [hused]
        rfl

/-- A live block behind an insertion is the new one or an old one. -/
theorem liveAt_inserted {x86 : List Byte} (hlen : x86.length ≤ outputLimit) {i entry size : Nat}
    (h : (s.inserted armPc x86).liveAt i entry size) :
    i = s.slot ∧ entry = s.cacheUsed ∧ size = x86.length ∨ i ≠ s.slot ∧ s.liveAt i entry size := by
  obtain ⟨hi, hentry, hsize⟩ := h
  change (State.cache (State.insertBlock _ _) i).x86Entry = _ at hentry
  change (State.cache (State.insertBlock _ _) i).blockSize.toNat = _ at hsize
  rw [insertBlock_cache] at hentry hsize
  by_cases his : i = s.slot
  · left
    have hshort : x86.length < 2 ^ 32 := Nat.lt_of_le_of_lt hlen (by decide)
    rw [if_pos (by exact his)] at hentry hsize
    rw [BitVec.toNat_ofNat, Nat.mod_eq_of_lt hshort] at hsize
    exact ⟨his, (Option.some.inj hentry).symm, hsize.symm⟩
  · right
    rw [if_neg (by exact his)] at hentry hsize
    exact ⟨his, lt_insertBlock_count (s := { s with code := writeCode s.code s.cacheUsed x86 }) hi his,
      hentry, hsize⟩

/-- A new block behind the used part. -/
theorem Placed.insert (h : Placed s) (hmiss : s.findBlock armPc = none)
    (hroom : s.cacheUsed + 4096 ≤ codeCacheSize) {x86 : List Byte} (hlen : x86.length ≤ outputLimit) :
    Placed (s.inserted armPc x86) := by
  have hused : (s.inserted armPc x86).cacheUsed = s.cacheUsed + (x86.length + 15) / 16 * 16 := rfl
  have hcode : Inv { s with code := writeCode s.code s.cacheUsed x86 } := ⟨h.unlocked, h.distinct⟩
  have hinv := hcode.insertBlock hmiss ⟨armPc, some s.cacheUsed, BitVec.ofNat 32 x86.length, 0#32,
    some (readMemory s.memory armPc armSize), armSize⟩ rfl
  refine ⟨⟨hinv.unlocked, hinv.distinct⟩, ?_, ?_, ?_⟩
  · have hlimit : outputLimit = 16 * 9204 := rfl
    rw [hused]
    omega
  · intro i entry size hi
    rw [hused]
    rcases liveAt_inserted hlen hi with ⟨-, rfl, rfl⟩ | ⟨-, hold⟩
    · omega
    · have hbelow := h.below hold
      omega
  · intro i j entry size entry' size' hij hi hj
    rcases liveAt_inserted hlen hi with ⟨his, rfl, rfl⟩ | ⟨-, hold⟩
    · rcases liveAt_inserted hlen hj with ⟨hjs, -⟩ | ⟨-, hold'⟩
      · exact absurd (his.trans hjs.symm) hij
      · exact .inr (h.below hold')
    · rcases liveAt_inserted hlen hj with ⟨-, rfl, rfl⟩ | ⟨-, hold'⟩
      · exact .inl (h.below hold)
      · exact h.apart hij hold hold'

theorem writeCode_ne {code : Nat → Byte} {offset i : Nat} {bs : List Byte}
    (h : writeCode code offset bs i ≠ code i) : offset ≤ i ∧ i < offset + bs.length := by
  unfold writeCode at h
  split at h
  · next hle =>
    refine ⟨hle, ?_⟩
    by_contra hge
    rw [List.getElem?_eq_none (by omega)] at h
    exact h rfl
  · exact absurd rfl h

/-- The bytes of the code cache that a step changes are behind the used part and less than a block
behind the place where the last one may begin. -/
def Op.WritesBehind (op : Op Surroundings) (s : State) : Prop :=
  ∀ r s', op.exec sourceConverters s = some (r, s') → ∀ i, s'.code i ≠ s.code i →
    s.cacheUsed ≤ i ∧ i < s.cacheUsed + outputLimit ∧ i < codeCacheSize - 4096 + outputLimit

theorem Op.exec_code {op : Op Surroundings} {r : Option (Nat × Nat)} (hlock : s.locked = false)
    (hop : ∀ ctx armPc surr alloc, op ≠ .translateBlock ctx armPc surr alloc)
    (hexec : op.exec conv s = some (r, s')) : s'.code = s.code := by
  cases op with
  | write addr value | setMode ctx mode =>
    obtain ⟨-, rfl⟩ := Prod.mk.inj (Option.some.inj hexec)
    rfl
  | invalidateBlock armPc =>
    simp only [Op.exec, dbtInvalidateBlock_eq hlock] at hexec
    obtain ⟨-, rfl⟩ := Prod.mk.inj (Option.some.inj hexec)
    unfold State.invalidate
    split <;> rfl
  | flushCache =>
    simp only [Op.exec, dbtFlushCache, State.lock, hlock, Bool.false_eq_true, if_false,
      Option.bind_eq_bind, Option.bind_some] at hexec
    obtain ⟨-, rfl⟩ := Prod.mk.inj (Option.some.inj hexec)
    rfl
  | translateBlock ctx armPc surr alloc => exact absurd rfl (hop ctx armPc surr alloc)

/-- One translation. -/
theorem dbtTranslateBlock_placed (h : Placed s) (ctx : Nat) (armPc : Addr) (surr : Surroundings)
    (alloc : Bool) {r : Option (Nat × Nat)}
    (hexec : dbtTranslateBlock sourceConverters ctx armPc surr alloc s = some (r, s')) :
    Placed s' ∧ ∀ i, s'.code i ≠ s.code i →
      s.cacheUsed ≤ i ∧ i < s.cacheUsed + outputLimit ∧ i < codeCacheSize - 4096 + outputLimit := by
  have hsame : s'.code = s.code → ∀ i, s'.code i ≠ s.code i →
      s.cacheUsed ≤ i ∧ i < s.cacheUsed + outputLimit ∧ i < codeCacheSize - 4096 + outputLimit :=
    fun hcode i hne ↦ absurd (congrFun hcode i) hne
  cases hsmc : s.smcDetected armPc with
  | true =>
    rw [dbtTranslateBlock_of_smc hsmc] at hexec
    cases hexec
  | false =>
    cases hfind : s.findBlock armPc with
    | some i =>
      obtain ⟨j, -, heq⟩ | ⟨hmiss, -⟩ :=
        dbtTranslateBlock_cases sourceConverters h.unlocked hsmc ctx surr alloc
      · obtain ⟨-, rfl⟩ := Prod.mk.inj (Option.some.inj (heq.symm.trans hexec))
        exact ⟨h.of_live (h.toInv.countHit j) rfl liveAt_countHit, hsame rfl⟩
      · rw [hfind] at hmiss
        cases hmiss
    | none =>
      rcases dbtTranslateBlock_of_miss sourceConverters h.unlocked hfind ctx surr alloc with
        ⟨-, heq⟩ | ⟨hroom, hnew⟩
      · obtain ⟨-, rfl⟩ := Prod.mk.inj (Option.some.inj (heq.symm.trans hexec))
        exact ⟨h, hsame rfl⟩
      · have hlen := length_output_le surr armPc s.cacheUsed
          (readMemory s.memory armPc (sourceSize (s.mode ctx))) (s.mode ctx)
        split at hnew
        · next written hconv =>
          rw [hconv] at hlen
          obtain rfl : written = [] := hlen
          obtain ⟨-, rfl⟩ := Prod.mk.inj (Option.some.inj (hnew.symm.trans hexec))
          have hcode : writeCode s.code s.cacheUsed [] = s.code := by
            funext i
            by_contra hne
            have hin := writeCode_ne hne
            rw [List.length_nil] at hin
            omega
          refine ⟨h.of_live ⟨h.unlocked, h.distinct⟩ rfl id, hsame hcode⟩
        · next x86 hconv =>
          rw [hconv] at hlen
          obtain ⟨-, rfl⟩ := Prod.mk.inj (Option.some.inj (hnew.symm.trans hexec))
          refine ⟨h.insert hfind hroom hlen, fun i hne ↦ ?_⟩
          have hcode : (s.inserted armPc x86).code = writeCode s.code s.cacheUsed x86 := by
            unfold State.inserted State.insertBlock
            split <;> rfl
          change (s.inserted armPc x86).code i ≠ s.code i at hne
          rw [hcode] at hne
          have hin := writeCode_ne hne
          omega

/-- One step. -/
theorem Op.exec_placed (h : Placed s) (op : Op Surroundings) : op.WritesBehind s ∧
    ∀ r s', op.exec sourceConverters s = some (r, s') → Placed s' := by
  have hquiet : (∀ ctx armPc surr alloc, op ≠ .translateBlock ctx armPc surr alloc) →
      op.WritesBehind s := by
    intro hop r s' hexec i hne
    rw [Op.exec_code h.unlocked hop hexec] at hne
    exact absurd rfl hne
  cases op with
  | write addr value | setMode ctx mode =>
    refine ⟨hquiet (by simp), fun r s' hexec ↦ ?_⟩
    have hinv := Op.exec_inv h.toInv hexec
    obtain ⟨-, rfl⟩ := Prod.mk.inj (Option.some.inj hexec)
    exact h.of_live hinv rfl id
  | invalidateBlock armPc =>
    refine ⟨hquiet (by simp), fun r s' hexec ↦ ?_⟩
    simp only [Op.exec, dbtInvalidateBlock_eq h.unlocked] at hexec
    obtain ⟨-, rfl⟩ := Prod.mk.inj (Option.some.inj hexec)
    have hused : ∀ pc, (s.invalidate pc).cacheUsed = s.cacheUsed := by
      intro pc
      unfold State.invalidate
      split <;> rfl
    exact h.of_live (h.toInv.invalidate _) (hused _) liveAt_invalidate
  | flushCache =>
    refine ⟨hquiet (by simp), fun r s' hexec ↦ ?_⟩
    have hinv := Op.exec_inv h.toInv hexec
    simp only [Op.exec, dbtFlushCache, State.lock, h.unlocked, Bool.false_eq_true, if_false,
      Option.bind_eq_bind, Option.bind_some] at hexec
    obtain ⟨-, rfl⟩ := Prod.mk.inj (Option.some.inj hexec)
    exact ⟨hinv, Nat.zero_le _, fun hi ↦ absurd hi.1 (Nat.not_lt_zero _),
      fun _ hi ↦ absurd hi.1 (Nat.not_lt_zero _)⟩
  | translateBlock ctx armPc surr alloc =>
    exact ⟨fun r s' hexec ↦ (dbtTranslateBlock_placed h ctx armPc surr alloc hexec).2,
      fun r s' hexec ↦ (dbtTranslateBlock_placed h ctx armPc surr alloc hexec).1⟩

/-- In a run with the translators of the source the live blocks lie apart in the used part of the code
cache in front of every step, and no step writes into it. Nothing is written further behind the end than
the longest block is longer than the 4096 bytes that are asked for. -/
theorem dbt_run_placed (mapped : Bool) (code : Nat → Byte) (memory : Addr → Byte) (mode : Nat → Mode)
    (ops : List (Op Surroundings)) :
    ∀ x ∈ stepsOf sourceConverters ops (dbtInit mapped code memory mode),
      Placed x.2 ∧ x.1.WritesBehind x.2 := by
  suffices hrun : ∀ s, Placed s → ∀ x ∈ stepsOf sourceConverters ops s,
      Placed x.2 ∧ x.1.WritesBehind x.2 from hrun _ (placed_dbtInit mapped code memory mode)
  induction ops with
  | nil => simp [stepsOf]
  | cons op ops ih =>
    intro s h
    obtain ⟨hwrites, hnext⟩ := op.exec_placed h
    simp only [stepsOf, List.forall_mem_cons]
    refine ⟨⟨h, hwrites⟩, ?_⟩
    cases hexec : op.exec sourceConverters s with
    | none => simp
    | some p => exact ih p.2 (hnext p.1 p.2 hexec)

private def zeroSurroundings : Surroundings where
  env := Translate.Env.default
  stack := Translate.Stack.zero
  shl _ := 0#64
  codeCache := 0x7f0000000000#64

/-- The second of two translations writes behind the block of the first one. -/
theorem dbt_run_placed_second : ∃ s, s.count = 1 ∧ Placed s ∧
    (Op.translateBlock 0 0x2000#64 zeroSurroundings true).WritesBehind s := by
  refine ⟨_, ?_, dbt_run_placed true (fun _ ↦ 0#8) (fun _ ↦ 0#8) (fun _ ↦ .arm64)
    [.translateBlock 0 0x1000#64 zeroSurroundings true, .translateBlock 0 0x2000#64 zeroSurroundings true]
    (_, _) (.tail _ (.head _))⟩
  rfl

end Placement

end Arm2x86.Dbt
