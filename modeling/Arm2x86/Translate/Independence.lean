import Arm2x86.Translate.Relocation

/-!
# What a translation takes from the stack

`arm2x86_convert_block` does not initialise the map of its context. A block whose translators do
not look up the map has one translation whatever the stack holds, and one whose translators do not
record their address either leaves the stack around the map alone.
-/

namespace Arm2x86.Translate

open X86
open Tcache (JumpTarget)

/-- The context before instruction `k`. -/
def contextAt (env : Env) (stack : Stack) (blk : Block) (x86Base : BitVec 64) :
    Nat → TranslateCtx
  | 0 => startCtx stack blk x86Base
  | k + 1 => translateStep env stack blk k (contextAt env stack blk x86Base k)

/-- Whether the translator of an instruction asks the map, with `pc_map_lookup`. -/
def looksUp (type : InstrType) (op : BitVec 32) : Bool := (branchOffset type op).isSome

/-- A translation does not depend on what the stack holds, of which only `fresh` stacks are
possible: the output is the same, no element in front of the map is written, and a direct jump
goes to the first byte of an instruction of the block. -/
structure Independent (env : Env) (blk : Block) (x86Base : BitVec 64) (fresh : Stack → Prop) :
    Prop where
  same : ∀ stack stack', fresh stack → fresh stack' →
    convertBlockBytes env stack blk x86Base = convertBlockBytes env stack' blk x86Base
  inBounds : ∀ stack, fresh stack → ∀ k, blk.Visits stack k →
    recordsAddress (blk.decoded stack k).instrType (blk.word k) = true →
    0 ≤ (contextAt env stack blk x86Base k).pcMapCount
  jumps : ∀ stack, fresh stack → ∀ jt ∈ (convertBlock env stack blk x86Base).jumpTargets,
    ∃ k, blk.Visits stack k ∧ jt.targetArmAddr =
      x86Base + BitVec.ofNat 64 (contextAt env stack blk x86Base k).bytes.length

/-! ## Two contexts with different maps -/

namespace TranslateCtx

/-- Two contexts that differ in their maps only. -/
structure Agree (t t' : TranslateCtx) : Prop where
  arm64Cur : t'.arm64Cur = t.arm64Cur
  x86Base : t'.x86Base = t.x86Base
  out : t'.out = t.out
  alloc : t'.alloc = t.alloc

namespace Agree

variable {t t' : TranslateCtx}

theorem emitItems (h : Agree t t') (items : List Item) :
    Agree (t.emitItems items) (t'.emitItems items) :=
  ⟨h.arm64Cur, h.x86Base, congrArg (· ++ items) h.out, h.alloc⟩

theorem emit (h : Agree t t') (code : List Code) : Agree (t.emit code) (t'.emit code) :=
  h.emitItems _

theorem setAlloc (h : Agree t t') (alloc : Alloc) :
    Agree { t with alloc } { t' with alloc } :=
  ⟨h.arm64Cur, h.x86Base, h.out, rfl⟩

theorem batchStore (h : Agree t t') : Agree t.batchStore t'.batchStore := by
  unfold TranslateCtx.batchStore
  rw [h.alloc]
  exact (h.setAlloc _).emitItems _

theorem bytes (h : Agree t t') : t'.bytes = t.bytes := congrArg (List.flatMap Item.bytes) h.out

theorem x86Cur (h : Agree t t') : t'.x86Cur = t.x86Cur := by
  rw [TranslateCtx.x86Cur, TranslateCtx.x86Cur, h.x86Base, h.out]

theorem addressCode (h : Agree t t') (type : InstrType) (op : BitVec 32) :
    t'.addressCode type op = t.addressCode type op := by
  unfold TranslateCtx.addressCode linkCode
  rw [h.arm64Cur]

private theorem pcMapAdd_left (u : TranslateCtx) : Agree u u.pcMapAdd := by
  unfold pcMapAdd
  split <;> exact ⟨rfl, rfl, rfl, rfl⟩

theorem trans {t'' : TranslateCtx} (h : Agree t t') (h' : Agree t' t'') : Agree t t'' :=
  ⟨h'.arm64Cur.trans h.arm64Cur, h'.x86Base.trans h.x86Base, h'.out.trans h.out,
    h'.alloc.trans h.alloc⟩

theorem symm (h : Agree t t') : Agree t' t :=
  ⟨h.arm64Cur.symm, h.x86Base.symm, h.out.symm, h.alloc.symm⟩

theorem pcMapAdd (h : Agree t t') : Agree t.pcMapAdd t'.pcMapAdd :=
  (pcMapAdd_left t).symm.trans (h.trans (pcMapAdd_left t'))

theorem record (h : Agree t t') (type : InstrType) (op : BitVec 32) :
    Agree (t.record type op) (t'.record type op) := by
  unfold TranslateCtx.record
  split
  · exact h.pcMapAdd
  · exact h

/-- A translator that does not look up the map. -/
theorem translateOne (h : Agree t t') (env : Env) {type : InstrType} {op : BitVec 32}
    (himm : BitVec 32) (hquiet : looksUp type op = false) :
    Agree (Translate.translateOne env t type op himm)
      (Translate.translateOne env t' type op himm) := by
  apply translateOne_rel env t t' type op himm
  case hitems => exact fun u u' items hu ↦ hu.emitItems items
  case halloc => exact fun u u' alloc hu ↦ hu.setAlloc alloc
  case hsame => exact h.alloc
  case haddress =>
    intro u u' hu
    rw [h.addressCode]
    exact hu.emit _
  case hbranch =>
    intro u u' off isCall hoff
    rw [looksUp, hoff] at hquiet
    cases hquiet
  case h => exact h.record type op

end Agree

end TranslateCtx

/-! ## Runs of the loop -/

section Runs

variable {env : Env} {stack stack' : Stack} {blk : Block} {x86Base : BitVec 64}

theorem decoded_congr (hdecoded : stack'.decoded = stack.decoded) (k : Nat) :
    blk.decoded stack' k = blk.decoded stack k := by
  rw [Block.decoded, Block.decoded, hdecoded]

/-- What two contexts have in common behind each instruction the loop comes to, and behind the
write-back, they have in common behind the loop. -/
theorem convertLoop_rel {R : TranslateCtx → TranslateCtx → Prop}
    (hdecoded : stack'.decoded = stack.decoded)
    (hstep : ∀ k, blk.Visits stack k → ∀ t t', R t t' →
      R (translateStep env stack blk k t) (translateStep env stack' blk k t'))
    (hstore : ∀ t t', R t t' → R t.batchStore t'.batchStore) {fuel k : Nat} {t t' : TranslateCtx}
    (hfuel : fuel + k = maxInstructions)
    (hgoes : ∀ j < k, isBlockTerminator (blk.decoded stack j).instrType = false) (h : R t t') :
    R (convertLoop env stack blk fuel k t) (convertLoop env stack' blk fuel k t') := by
  induction fuel generalizing k t t' with
  | zero => exact h
  | succ fuel ih =>
    unfold convertLoop
    split
    · next hin =>
      have hnext := hstep k ⟨by omega, hin, hgoes⟩ t t' h
      dsimp only
      rw [decoded_congr hdecoded]
      split
      · exact hstore _ _ hnext
      · next hterm =>
        apply ih (by omega) _ hnext
        intro j hj
        rcases Nat.lt_succ_iff_lt_or_eq.mp hj with hj | rfl
        · exact hgoes j hj
        · exact Bool.not_eq_true _ ▸ hterm
    · exact h

theorem convertBlock_rel {R : TranslateCtx → TranslateCtx → Prop}
    (hdecoded : stack'.decoded = stack.decoded)
    (hstep : ∀ k, blk.Visits stack k → ∀ t t', R t t' →
      R (translateStep env stack blk k t) (translateStep env stack' blk k t'))
    (hstore : ∀ t t', R t t' → R t.batchStore t'.batchStore)
    (hemit : ∀ t t', R t t' → R (t.emit epilogue) (t'.emit epilogue))
    (h : R (startCtx stack blk x86Base) (startCtx stack' blk x86Base)) :
    R (convertBlock env stack blk x86Base) (convertBlock env stack' blk x86Base) := by
  have hloop := convertLoop_rel hdecoded hstep hstore (Nat.add_zero maxInstructions)
    (fun j hj ↦ absurd hj (Nat.not_lt_zero j)) h
  exact hemit _ _ (hstore _ _ hloop)

/-- A visited instruction is translated in the context before it. -/
theorem convertLoop_visits {k : Nat} (h : blk.Visits stack k) :
    convertLoop env stack blk maxInstructions 0 (startCtx stack blk x86Base) =
      convertLoop env stack blk (maxInstructions - k) k (contextAt env stack blk x86Base k) := by
  induction k with
  | zero => rfl
  | succ k ih =>
    obtain ⟨hmax, hin, hgoes⟩ := h
    have hfuel : maxInstructions - k = maxInstructions - (k + 1) + 1 := by omega
    rw [ih ⟨by omega, by omega, fun j hj ↦ hgoes j (by omega)⟩, hfuel, convertLoop,
      if_pos (by omega)]
    dsimp only
    rw [if_neg (by rw [hgoes k (by omega)]; decide), contextAt]

/-- A translator that looks up the map ends the block. -/
theorem isBlockTerminator_of_looksUp {type : InstrType} {op : BitVec 32}
    (h : looksUp type op = true) : isBlockTerminator type = true := by
  cases type <;> first | rfl | cases h

/-- A translator that looks up the map records its address. -/
theorem recordsAddress_of_looksUp {type : InstrType} {op : BitVec 32}
    (h : looksUp type op = true) : recordsAddress type op = true := by
  cases type <;> first | rfl | cases h

end Runs

/-! ## Blocks that do not look up the map -/

section Quiet

variable {env : Env} {stack stack' : Stack} {blk : Block} {x86Base : BitVec 64}

private theorem translateStep_agree (hdecoded : stack'.decoded = stack.decoded) {k : Nat}
    {t t' : TranslateCtx}
    (hquiet : looksUp (blk.decoded stack k).instrType (blk.word k) = false)
    (h : TranslateCtx.Agree t t') :
    TranslateCtx.Agree (translateStep env stack blk k t) (translateStep env stack' blk k t') := by
  have hone := h.translateOne env (blk.decoded stack k).imm hquiet
  unfold translateStep
  rw [decoded_congr hdecoded]
  exact ⟨rfl, hone.x86Base, hone.out, hone.alloc⟩

/-- A block that does not look up the map has the same translation from every stack. -/
theorem convertBlock_agree (hdecoded : stack'.decoded = stack.decoded)
    (hquiet : ∀ k, blk.Visits stack k →
      looksUp (blk.decoded stack k).instrType (blk.word k) = false) :
    TranslateCtx.Agree (convertBlock env stack blk x86Base)
      (convertBlock env stack' blk x86Base) := by
  apply convertBlock_rel hdecoded
  case hstep => exact fun k hvisit t t' h ↦ translateStep_agree hdecoded (hquiet k hvisit) h
  case hstore => exact fun t t' h ↦ h.batchStore
  case hemit => exact fun t t' h ↦ h.emit epilogue
  case h => exact ⟨rfl, rfl, rfl, rfl⟩

/-- It has no direct jumps. -/
theorem jumpTargets_of_quiet (hquiet : ∀ k, blk.Visits stack k →
      looksUp (blk.decoded stack k).instrType (blk.word k) = false) :
    (convertBlock env stack blk x86Base).jumpTargets = [] := by
  apply convertBlock_rel (R := fun t _ ↦ t.jumpTargets = []) (rfl : stack.decoded = stack.decoded)
  case hstep =>
    intro k hvisit t _ h
    show (translateOne ..).jumpTargets = []
    apply TranslateCtx.translateOne_induct (P := fun u ↦ u.jumpTargets = [])
    case hadd =>
      intro u hu
      unfold TranslateCtx.pcMapAdd
      split
      · exact hu
      · exact hu
    case hitems => exact fun u items hu ↦ hu
    case halloc => exact fun u alloc hu ↦ hu
    case hjump =>
      intro u off isCall hoff
      have hq := hquiet k hvisit
      rw [looksUp, hoff] at hq
      cases hq
    case h => exact h
  case hstore => exact fun t _ h ↦ h
  case hemit => exact fun t _ h ↦ h
  case h => rfl

end Quiet

/-! ## Blocks that look up the map -/

/-- The map starts with an element. -/
structure Marked (entry : PcMapEntry) (t : TranslateCtx) : Prop where
  count : 0 < t.pcMapCount
  first : t.pcMap 0 = entry

namespace Marked

variable {entry : PcMapEntry} {t : TranslateCtx}

theorem pcMapAdd (h : Marked entry t) : Marked entry t.pcMapAdd := by
  have hcount := h.count
  unfold TranslateCtx.pcMapAdd
  split
  · constructor
    · show 0 < t.pcMapCount + 1
      omega
    · show Function.update t.pcMap t.pcMapCount _ 0 = entry
      rw [Function.update_of_ne (by omega), h.first]
  · exact h

theorem record (h : Marked entry t) (type : InstrType) (op : BitVec 32) :
    Marked entry (t.record type op) := by
  unfold TranslateCtx.record
  split
  · exact h.pcMapAdd
  · exact h

theorem translateStep (h : Marked entry t) (env : Env) (stack : Stack) (blk : Block) (k : Nat) :
    Marked entry (Translate.translateStep env stack blk k t) := by
  obtain ⟨hmap, hcount⟩ := translateOne_pcMap env t (blk.decoded stack k).instrType
    (blk.word k) (blk.decoded stack k).imm
  have hrecord := h.record (blk.decoded stack k).instrType (blk.word k)
  constructor
  · show 0 < (translateOne ..).pcMapCount
    rw [hcount]
    exact hrecord.count
  · show (translateOne ..).pcMap 0 = entry
    rw [hmap]
    exact hrecord.first

theorem contextAt {stack : Stack} (hcount : 0 < stack.pcMapCount) (hfirst : stack.pcMap 0 = entry)
    (env : Env) (blk : Block) (x86Base : BitVec 64) (k : Nat) :
    Marked entry (Translate.contextAt env stack blk x86Base k) := by
  induction k with
  | zero => exact ⟨hcount, hfirst⟩
  | succ k ih => exact ih.translateStep env stack blk k

/-- The first element is found first. -/
theorem pcMapLookup (h : Marked entry t) : t.pcMapLookup entry.armPc = entry.x86Pc := by
  have hcount := h.count
  have hrange : List.range t.pcMapCount.toNat =
      0 :: (List.range (t.pcMapCount.toNat - 1)).map Nat.succ := by
    rw [← List.range_succ_eq_map]
    congr 1
    omega
  unfold TranslateCtx.pcMapLookup
  rw [hrange, List.find?_cons_of_pos]
  · show (t.pcMap 0).x86Pc = entry.x86Pc
    rw [h.first]
  · show ((t.pcMap 0).armPc == entry.armPc) = true
    rw [h.first, beq_self_eq_true]

end Marked

/-- The translators that look up the map end with the branch. -/
private theorem translateOne_branch (env : Env) {type : InstrType} {op off : BitVec 32}
    (imm : BitVec 32) (h : branchOffset type op = some off) :
    ∃ (code : BitVec 64 → List Code) (isCall : Bool), ∀ t : TranslateCtx,
      translateOne env t type op imm =
        (t.pcMapAdd.emit (code t.arm64Cur)).branchTo (t.target off) isCall := by
  have hempty : ∀ t : TranslateCtx, t.emit [] = t := by
    intro t
    show { t with out := t.out ++ [] } = t
    rw [List.append_nil]
  have hnever : ∀ cond : BitVec 4, (arm64ToX86Cond cond == 0xff) = false := by
    decide
  cases type
  case b =>
    obtain rfl := Option.some.inj h
    refine ⟨fun _ ↦ [], false, fun t ↦ ?_⟩
    rw [hempty]
    rfl
  case bl =>
    obtain rfl := Option.some.inj h
    exact ⟨fun cur ↦ movSlot [rexRm 0 0] 30 (cur + 4), true, fun t ↦ rfl⟩
  case bCond =>
    obtain rfl := Option.some.inj h
    by_cases halways : arm64ToX86Cond (op.extractLsb' 0 4) == 0
    · refine ⟨fun _ ↦ [], false, fun t ↦ ?_⟩
      show t.translateBCond op = _
      rw [hempty, TranslateCtx.translateBCond, if_pos halways]
    · refine ⟨fun _ ↦ [TranslateCtx.patchedJcc (arm64ToX86Cond (op.extractLsb' 0 4) ^^^ 1)], false,
        fun t ↦ ?_⟩
      show t.translateBCond op = _
      rw [TranslateCtx.translateBCond, if_neg halways, if_neg (by rw [hnever]; decide)]
  case cbz | cbnz | tbz | tbnz =>
    obtain rfl := Option.some.inj h
    exact ⟨fun _ ↦ _, false, fun t ↦ rfl⟩
  all_goals cases h

/-- The write-back of the loop, that behind it, and the epilogue. -/
private def closing (a : Alloc) : List Byte :=
  let r := regAllocEmitBatchStore a (regAllocComputeLiveOut a)
  let r' := regAllocEmitBatchStore r.1 (regAllocComputeLiveOut r.1)
  ((r.2 ++ r'.2 ++ epilogue).map Item.code).flatMap Item.bytes

private theorem bytes_closing (t : TranslateCtx) :
    (t.batchStore.batchStore.emit epilogue).bytes = t.bytes ++ closing t.alloc := by
  simp [TranslateCtx.batchStore, TranslateCtx.emit, TranslateCtx.emitItems, TranslateCtx.bytes,
    closing]

/-- A stack whose map starts with an address and some host code for it. -/
def Stack.holding (decoded : Nat → DecodedInstruction) (target x86Pc : BitVec 64) : Stack :=
  ⟨fun _ ↦ ⟨target, x86Pc⟩, 1, decoded⟩

/-- A direct jump to a host address, as `emit_direct_jump_or_call` writes it at `cur`. -/
private def jumpBytes (isCall : Bool) (x86Pc cur : BitVec 64) : List Byte :=
  (if isCall then 0xe8 else 0xe9) :: imm32 ((x86Pc - (cur + 5)).setWidth 32)

private theorem jumpBytes_ne (isCall : Bool) (cur : BitVec 64) :
    jumpBytes isCall 1 cur ≠ jumpBytes isCall 2 cur := by
  intro h
  have hlow := congrArg BitVec.toNat (List.cons.inj (List.cons.inj h).2).1
  have hone : (1 : BitVec 64).toNat = 1 := rfl
  have htwo : (2 : BitVec 64).toNat = 2 := rfl
  have hcur := (cur + 5).isLt
  simp only [BitVec.extractLsb'_toNat, BitVec.toNat_setWidth, BitVec.toNat_sub, hone, htwo,
    Nat.shiftRight_zero] at hlow
  omega

/-- The jump of a branch that is found in the first element. -/
private theorem bytes_branchTo {t : TranslateCtx} {target x86Pc : BitVec 64}
    (h : Marked ⟨target, x86Pc⟩ t) (hne : x86Pc ≠ 0) (isCall : Bool) :
    (t.branchTo target isCall).bytes = t.bytes ++ jumpBytes isCall x86Pc t.x86Cur := by
  have hlookup : t.pcMapLookup target = x86Pc := h.pcMapLookup
  unfold TranslateCtx.branchTo
  rw [hlookup, if_pos (by simpa using hne)]
  simp [TranslateCtx.emitDirectJumpOrCall, TranslateCtx.emit, TranslateCtx.bytes, jumpBytes,
    TranslateCtx.emitItems, Item.bytes]

section Noisy

variable {env : Env} {stack : Stack} {blk : Block} {x86Base : BitVec 64}

/-- Before a visited instruction no translator has looked up the map. -/
private theorem contextAt_agree {stack' : Stack} (hdecoded : stack'.decoded = stack.decoded)
    {k : Nat} (hgoes : ∀ j < k, isBlockTerminator (blk.decoded stack j).instrType = false) :
    TranslateCtx.Agree (contextAt env stack blk x86Base k)
      (contextAt env stack' blk x86Base k) := by
  induction k with
  | zero => exact ⟨rfl, rfl, rfl, rfl⟩
  | succ k ih =>
    have hquiet : looksUp (blk.decoded stack k).instrType (blk.word k) = false := by
      apply Bool.eq_false_iff.mpr
      intro hlooks
      have hterm := isBlockTerminator_of_looksUp hlooks
      rw [hgoes k (Nat.lt_succ_self k)] at hterm
      cases hterm
    exact translateStep_agree hdecoded hquiet (ih fun j hj ↦ hgoes j (by omega))

/-- The context behind the block of a visited branch. -/
private theorem convertBlock_of_terminator {k : Nat} (h : blk.Visits stack k)
    (hterm : isBlockTerminator (blk.decoded stack k).instrType = true) :
    convertBlock env stack blk x86Base =
      ((translateStep env stack blk k (contextAt env stack blk x86Base k)).batchStore.batchStore).emit
        epilogue := by
  obtain ⟨fuel, hfuel⟩ : ∃ fuel, maxInstructions - k = fuel + 1 :=
    ⟨maxInstructions - k - 1, by have := h.1; omega⟩
  rw [convertBlock, convertLoop_visits h, hfuel, convertLoop, if_pos h.2.1]
  dsimp only
  rw [if_pos hterm]

/-- The translation of a block with a visited branch, when the map starts with the target of the
branch. -/
private theorem convertBlockBytes_holding (env : Env) (x86Base : BitVec 64) {k : Nat} (h : blk.Visits stack k) {off : BitVec 32}
    (hoff : branchOffset (blk.decoded stack k).instrType (blk.word k) = some off) :
    ∃ (before after : List Byte) (isCall : Bool) (cur target : BitVec 64), ∀ x86Pc ≠ 0,
      convertBlockBytes env (Stack.holding stack.decoded target x86Pc) blk x86Base =
        before ++ jumpBytes isCall x86Pc cur ++ after := by
  have hterm : isBlockTerminator (blk.decoded stack k).instrType = true := by
    apply @isBlockTerminator_of_looksUp _ (blk.word k)
    rw [looksUp, hoff]
    rfl
  obtain ⟨code, isCall, htranslate⟩ := translateOne_branch env (blk.decoded stack k).imm hoff
  let c := contextAt env stack blk x86Base k
  let u := c.pcMapAdd.emit (code c.arm64Cur)
  refine ⟨u.bytes, closing u.alloc, isCall, u.x86Cur, c.target off, fun x86Pc hne ↦ ?_⟩
  let s := Stack.holding stack.decoded (c.target off) x86Pc
  let c' := contextAt env s blk x86Base k
  let u' := c'.pcMapAdd.emit (code c'.arm64Cur)
  have hc : TranslateCtx.Agree c c' := contextAt_agree (show s.decoded = stack.decoded from rfl) h.2.2
  have hu : TranslateCtx.Agree u u' := by
    show TranslateCtx.Agree u (c'.pcMapAdd.emit (code c'.arm64Cur))
    rw [hc.arm64Cur]
    exact hc.pcMapAdd.emit _
  have hmarked : Marked ⟨c.target off, x86Pc⟩ u' := by
    have hc' : Marked ⟨c.target off, x86Pc⟩ c' :=
      Marked.contextAt (show 0 < s.pcMapCount from Int.one_pos) rfl env blk x86Base k
    exact ⟨hc'.pcMapAdd.count, hc'.pcMapAdd.first⟩
  have hdec : blk.decoded s k = blk.decoded stack k := decoded_congr (show s.decoded = stack.decoded from rfl) k
  have hstep : translateStep env s blk k c' =
      { u'.branchTo (c.target off) isCall with arm64Cur := blk.pc (k + 1) } := by
    have htarget : c'.target off = c.target off := by
      rw [TranslateCtx.target, TranslateCtx.target, hc.arm64Cur]
    unfold translateStep
    dsimp only
    rw [hdec, htranslate, htarget]
  have halloc : (u'.branchTo (c.target off) isCall).alloc = u.alloc := by
    have hbranch : (u'.branchTo (c.target off) isCall).alloc = u'.alloc := by
      unfold TranslateCtx.branchTo TranslateCtx.emitDispatchStub
      split
      · rfl
      · split <;> rfl
    rw [hbranch, hu.alloc]
  have hvisit : blk.Visits s k := ⟨h.1, h.2.1, h.2.2⟩
  show (convertBlock env s blk x86Base).bytes = _
  rw [convertBlock_of_terminator hvisit (by rw [hdec]; exact hterm), bytes_closing]
  show (translateStep env s blk k c').bytes ++ closing (translateStep env s blk k c').alloc = _
  rw [hstep]
  show (u'.branchTo (c.target off) isCall).bytes ++
    closing (u'.branchTo (c.target off) isCall).alloc = _
  rw [bytes_branchTo hmarked hne, hu.bytes, hu.x86Cur, halloc]

end Noisy

/-! ## When a translation is independent -/

/-- Each instruction adds one element at most. -/
private theorem pcMapCount_contextAt_le (env : Env) (stack : Stack) (blk : Block)
    (x86Base : BitVec 64) (k : Nat) :
    (contextAt env stack blk x86Base k).pcMapCount ≤ stack.pcMapCount + k := by
  induction k with
  | zero => exact Int.le_of_eq (Int.add_zero _).symm
  | succ k ih =>
    have hcount := (translateOne_pcMap env (contextAt env stack blk x86Base k)
      (blk.decoded stack k).instrType (blk.word k) (blk.decoded stack k).imm).2
    have hrecord : ((contextAt env stack blk x86Base k).record (blk.decoded stack k).instrType
        (blk.word k)).pcMapCount ≤ (contextAt env stack blk x86Base k).pcMapCount + 1 := by
      unfold TranslateCtx.record TranslateCtx.pcMapAdd
      split
      · split
        · exact Int.le_refl _
        · omega
      · omega
    show (translateOne ..).pcMapCount ≤ _
    rw [hcount]
    omega

private theorem pcMapCount_contextAt_nonneg {stack : Stack} (h : 0 ≤ stack.pcMapCount) (env : Env)
    (blk : Block) (x86Base : BitVec 64) (k : Nat) :
    0 ≤ (contextAt env stack blk x86Base k).pcMapCount := by
  induction k with
  | zero => exact h
  | succ k ih =>
    have hcount := (translateOne_pcMap env (contextAt env stack blk x86Base k)
      (blk.decoded stack k).instrType (blk.word k) (blk.decoded stack k).imm).2
    have hrecord : 0 ≤ ((contextAt env stack blk x86Base k).record
        (blk.decoded stack k).instrType (blk.word k)).pcMapCount := by
      unfold TranslateCtx.record TranslateCtx.pcMapAdd
      split
      · split
        · show 0 ≤ (contextAt env stack blk x86Base k).pcMapCount + 1
          omega
        · exact ih
      · exact ih
    show 0 ≤ (translateOne ..).pcMapCount
    rw [hcount]
    exact hrecord

/-- The stacks that differ in the map only. -/
def AnyMap (decoded : Nat → DecodedInstruction) (stack : Stack) : Prop := stack.decoded = decoded

/-- Those of them whose count is one that `pc_map_add` can leave. -/
def AnyContents (decoded : Nat → DecodedInstruction) (stack : Stack) : Prop :=
  stack.decoded = decoded ∧ 0 ≤ stack.pcMapCount ∧ stack.pcMapCount ≤ 256

private theorem independent_of_quiet {env : Env} {stack : Stack} {blk : Block}
    {x86Base : BitVec 64} {fresh : Stack → Prop}
    (hfresh : ∀ s, fresh s → s.decoded = stack.decoded)
    (hbounds : ∀ s, fresh s → ∀ k, blk.Visits s k →
      recordsAddress (blk.decoded s k).instrType (blk.word k) = true →
      0 ≤ (contextAt env s blk x86Base k).pcMapCount)
    (hquiet : ∀ k, blk.Visits stack k →
      looksUp (blk.decoded stack k).instrType (blk.word k) = false) :
    Independent env blk x86Base fresh := by
  have hsame : ∀ s, fresh s → convertBlockBytes env s blk x86Base =
      convertBlockBytes env stack blk x86Base :=
    fun s hs ↦ (convertBlock_agree (hfresh s hs) hquiet).bytes
  refine ⟨fun s s' hs hs' ↦ (hsame s hs).trans (hsame s' hs').symm, hbounds, ?_⟩
  intro s hs jt hjt
  have hnone : (convertBlock env s blk x86Base).jumpTargets = [] := by
    apply jumpTargets_of_quiet
    intro k hvisit
    have hdec : ∀ j, blk.decoded s j = blk.decoded stack j := decoded_congr (hfresh s hs)
    rw [hdec]
    apply hquiet
    exact ⟨hvisit.1, hvisit.2.1, fun j hj ↦ by rw [← hdec]; exact hvisit.2.2 j hj⟩
  rw [hnone] at hjt
  exact absurd hjt List.not_mem_nil

/-- The translation of a block is independent of the map on the stack exactly when none of its
translators records its address; and of what an initialised map could hold, exactly when none looks
up the map. -/
theorem convertBlock_independent_iff (env : Env) (blk : Block) (x86Base : BitVec 64)
    (stack : Stack) :
    (Independent env blk x86Base (AnyMap stack.decoded) ↔ ∀ k, blk.Visits stack k →
      recordsAddress (blk.decoded stack k).instrType (blk.word k) = false) ∧
    (Independent env blk x86Base (AnyContents stack.decoded) ↔ ∀ k, blk.Visits stack k →
      looksUp (blk.decoded stack k).instrType (blk.word k) = false) := by
  constructor
  · constructor
    · -- a negative count stays negative until the instruction
      intro h k hvisit
      apply Bool.eq_false_iff.mpr
      intro hrecords
      let s : Stack := { stack with pcMapCount := -(k + 1) }
      have hdec : blk.decoded s k = blk.decoded stack k := decoded_congr (show s.decoded = stack.decoded from rfl) k
      have hnonneg := h.inBounds s rfl k ⟨hvisit.1, hvisit.2.1, hvisit.2.2⟩
        (by rw [hdec]; exact hrecords)
      have hle := pcMapCount_contextAt_le env s blk x86Base k
      have hcount : s.pcMapCount = -(k + 1) := rfl
      omega
    · intro h
      apply @independent_of_quiet env stack
      case hfresh => exact fun s hs ↦ hs
      case hbounds =>
        intro s hs k hvisit hrecords
        have hdec : ∀ j, blk.decoded s j = blk.decoded stack j := decoded_congr hs
        have hno := h k ⟨hvisit.1, hvisit.2.1, fun j hj ↦ by rw [← hdec]; exact hvisit.2.2 j hj⟩
        rw [hdec, hno] at hrecords
        cases hrecords
      case hquiet =>
        intro k hvisit
        apply Bool.eq_false_iff.mpr
        intro hlooks
        have hno := h k hvisit
        rw [recordsAddress_of_looksUp hlooks] at hno
        cases hno
  · constructor
    · -- two addresses in the first element
      intro h k hvisit
      cases hoff : branchOffset (blk.decoded stack k).instrType (blk.word k) with
      | none => rw [looksUp, hoff]; rfl
      | some off =>
        obtain ⟨before, after, isCall, cur, target, hbytes⟩ :=
          convertBlockBytes_holding env x86Base hvisit hoff
        have hfresh : ∀ x86Pc, AnyContents stack.decoded (Stack.holding stack.decoded target x86Pc) :=
          fun x86Pc ↦ ⟨rfl, show (0 : Int) ≤ 1 by decide, show (1 : Int) ≤ 256 by decide⟩
        have hsame := h.same _ _ (hfresh 1) (hfresh 2)
        rw [hbytes 1 (by decide), hbytes 2 (by decide)] at hsame
        have hjumps := List.append_cancel_left (List.append_cancel_right hsame)
        exact absurd hjumps (jumpBytes_ne isCall cur)
    · intro h
      apply @independent_of_quiet env stack
      case hfresh => exact fun s hs ↦ hs.1
      case hbounds => exact fun s hs k _ _ ↦ pcMapCount_contextAt_nonneg hs.2.1 env blk x86Base k
      case hquiet => exact h

/-- A branch to itself at `0x1000`. -/
def selfBranch : Block := Block.ofWords 0x1000#64 [0x14000000#32]

/-- With one leftover element for `0x1000` on the stack, it jumps to what that element holds. -/
theorem selfBranch_dependent :
    ¬ Independent Env.default selfBranch 0x400000#64 (AnyContents Stack.zero.decoded) := by
  intro h
  have hne : convertBlockBytes Env.default
        (Stack.holding Stack.zero.decoded 0x1000#64 0x5000#64) selfBranch 0x400000#64 ≠
      convertBlockBytes Env.default
        (Stack.holding Stack.zero.decoded 0x1000#64 0x6000#64) selfBranch 0x400000#64 := by
    decide +kernel
  apply hne
  apply h.same
  · exact ⟨rfl, by decide, by decide⟩
  · exact ⟨rfl, by decide, by decide⟩

end Arm2x86.Translate
