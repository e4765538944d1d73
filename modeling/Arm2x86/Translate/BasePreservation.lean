import Arm2x86.Translate.BaseRegister
import Arm2x86.Translate.Jumps

/-!
# Preservation of the base over a block

Every translator appends to the output. Which of them append a write to `RBP` is settled for one
instruction from the state before it, and then for the loop of `arm2x86_convert_block`.
-/

namespace Arm2x86.Translate

open X86 Alloc

/-- Whether an item is an instruction that writes `RBP`. -/
def Item.writesRbp : Item → Bool
  | .code c => Translate.writesRbp c
  | .data _ => false

section Contexts

variable {t t' t'' : TranslateCtx} {b b' : Bool}

/-- The output of a context continues that of another; the continuation keeps `RBP`, or one of its
instructions clobbers it. -/
def Appends (t t' : TranslateCtx) (b : Bool) : Prop :=
  ∃ items, t'.out = t.out ++ items ∧ (b → ∀ i ∈ items, i.writesRbp = false) ∧
    (b = false → ∃ c, Item.code c ∈ items ∧ Clobbers c)

theorem Appends.of_out_eq (h : t'.out = t.out) : Appends t t' true :=
  ⟨[], by simp [h], nofun, nofun⟩

theorem Appends.trans (h : Appends t t' b) (h' : Appends t' t'' b') : Appends t t'' (b && b') := by
  obtain ⟨items, hout, hkeep, hclob⟩ := h
  obtain ⟨items', hout', hkeep', hclob'⟩ := h'
  refine ⟨items ++ items', by rw [hout', hout, List.append_assoc], fun hb i hi ↦ ?_, fun hb ↦ ?_⟩
  · rw [Bool.and_eq_true] at hb
    rcases List.mem_append.mp hi with hi | hi
    · exact hkeep hb.1 i hi
    · exact hkeep' hb.2 i hi
  · rcases Bool.and_eq_false_iff.mp hb with hb | hb
    · obtain ⟨c, hc, hcl⟩ := hclob hb
      exact ⟨c, List.mem_append_left _ hc, hcl⟩
    · obtain ⟨c, hc, hcl⟩ := hclob' hb
      exact ⟨c, List.mem_append_right _ hc, hcl⟩

/-- A clobbered base stays clobbered, whatever follows. -/
theorem Appends.extend (h : Appends t t' false) (h' : t'.out <+: t''.out) : Appends t t'' false := by
  obtain ⟨items, hout, -, hclob⟩ := h
  obtain ⟨items', hout'⟩ := h'
  obtain ⟨c, hc, hcl⟩ := hclob rfl
  exact ⟨items ++ items', by rw [← hout', hout, List.append_assoc], nofun,
    fun _ ↦ ⟨c, List.mem_append_left _ hc, hcl⟩⟩

theorem Appends.emit {code : List Code} (h : Verdict b code) : Appends t (t.emit code) b := by
  refine ⟨code.map .code, rfl, fun hb i hi ↦ ?_, fun hb ↦ ?_⟩
  · obtain ⟨c, hc, rfl⟩ := List.mem_map.mp hi
    have hk := h.1 hb
    rw [keeps, List.all_eq_true] at hk
    simpa [Item.writesRbp] using hk c hc
  · obtain ⟨c, hc, hcl⟩ := h.2 hb
    exact ⟨c, List.mem_map_of_mem hc, hcl⟩

theorem verdict_of_keeps {code : List Code} (h : keeps code) : Verdict true code :=
  ⟨fun _ ↦ h, nofun⟩

theorem Appends.emit_keeps {code : List Code} (h : keeps code) : Appends t (t.emit code) true :=
  Appends.emit (verdict_of_keeps h)

theorem Appends.pcMapAdd (h : Appends t.pcMapAdd t' b) : Appends t t' b := by
  obtain ⟨items, hout, hrest⟩ := h
  exact ⟨items, by rw [hout, pcMapAdd_out], hrest⟩

/-- What holds of a step: the verdict on its output, and `X29` still pinned if it keeps `RBP`. -/
def Settled (t t' : TranslateCtx) (b : Bool) : Prop := Appends t t' b ∧ (b → t'.alloc.Pinned)

theorem Settled.trans (h : Settled t t' true) (h' : t'.alloc.Pinned → Settled t' t'' b) :
    Settled t t'' b := by
  obtain ⟨h', hp⟩ := h' (h.2 rfl)
  exact ⟨by simpa using h.1.trans h', hp⟩

theorem Settled.emit (hp : t.alloc.Pinned) {code : List Code} (h : keeps code) :
    Settled t (t.emit code) true :=
  ⟨Appends.emit_keeps h, fun _ ↦ hp⟩

theorem Settled.pcMapAdd (hp : t.alloc.Pinned) : Settled t t.pcMapAdd true :=
  ⟨Appends.of_out_eq (pcMapAdd_out t), fun _ ↦ by rwa [pcMapAdd_alloc]⟩

theorem Settled.straight (hp : t.alloc.Pinned) {code : List Code} (h : keeps code) :
    Settled t (t.straight code) true :=
  (Settled.pcMapAdd hp).trans fun hp' ↦ Settled.emit hp' h

theorem Settled.allocating {f : Alloc → Alloc × List Code} (hv : Verdict b (f t.alloc).2)
    (hp : b → (f t.alloc).1.Pinned) : Settled t (t.allocating f) b := by
  refine ⟨Appends.pcMapAdd ?_, hp⟩
  obtain ⟨items, hout, hrest⟩ :=
    Appends.emit (t := { t.pcMapAdd with alloc := (f t.alloc).1 }) hv
  exact ⟨items, hout, hrest⟩

end Contexts

section Branches

variable {t : TranslateCtx} (op : BitVec 32)

theorem Settled.emitDispatchStub (hp : t.alloc.Pinned) (target : BitVec 64) (isCall : Bool) :
    Settled t (t.emitDispatchStub target isCall) true := by
  unfold TranslateCtx.emitDispatchStub
  split
  · cases isCall <;> exact Settled.emit hp rfl
  · refine ⟨⟨_, rfl, fun _ i hi ↦ ?_, nofun⟩, fun _ ↦ hp⟩
    simp only [List.mem_cons, List.not_mem_nil, or_false] at hi
    rcases hi with rfl | rfl
    · cases isCall <;> rfl
    · rfl

theorem Settled.branchTo (hp : t.alloc.Pinned) (target : BitVec 64) (isCall : Bool) :
    Settled t (t.branchTo target isCall) true := by
  unfold TranslateCtx.branchTo
  split
  · unfold TranslateCtx.emitDirectJumpOrCall
    cases isCall <;> exact Settled.emit hp rfl
  · exact Settled.emitDispatchStub hp target isCall

theorem keeps_linkCode (t : TranslateCtx) : keeps t.linkCode := keeps_movSlot (Or.inr rfl) _ _

/-- A conditional jump whose patch went to its start: additions to memory through `RAX`. -/
theorem keeps_patchedJcc (opcode : Byte) : keeps [TranslateCtx.patchedJcc opcode] := rfl

theorem Settled.translateB (hp : t.alloc.Pinned) : Settled t (t.translateB op) true :=
  (Settled.pcMapAdd hp).trans fun hp ↦ Settled.branchTo hp _ _

theorem Settled.translateBl (hp : t.alloc.Pinned) : Settled t (t.translateBl op) true :=
  (Settled.straight hp (keeps_linkCode t)).trans fun hp ↦ Settled.branchTo hp _ _

theorem Settled.translateBr (hp : t.alloc.Pinned) : Settled t (t.translateBr op) true :=
  (Settled.straight hp rfl).trans fun hp ↦ Settled.emitDispatchStub hp _ _

theorem Settled.translateBlr (hp : t.alloc.Pinned) : Settled t (t.translateBlr op) true := by
  refine (Settled.straight hp ?_).trans fun hp ↦ Settled.emitDispatchStub hp _ _
  rw [keeps_append, keeps_linkCode]
  rfl

theorem Settled.translateRet (hp : t.alloc.Pinned) : Settled t (t.translateRet op) true := by
  unfold TranslateCtx.translateRet
  split
  · exact Settled.pcMapAdd hp
  · exact Settled.translateBr op hp

theorem Settled.translateBCond (hp : t.alloc.Pinned) : Settled t (t.translateBCond op) true := by
  unfold TranslateCtx.translateBCond
  dsimp only
  split
  · exact (Settled.pcMapAdd hp).trans fun hp ↦ Settled.branchTo hp _ _
  · split
    · exact Settled.straight hp rfl
    · exact (Settled.straight hp (keeps_patchedJcc _)).trans fun hp ↦ Settled.branchTo hp _ _

theorem Settled.translateCbzCbnz (hp : t.alloc.Pinned) (isCbnz : Bool) :
    Settled t (t.translateCbzCbnz op isCbnz) true :=
  (Settled.straight hp rfl).trans fun hp ↦ Settled.branchTo hp _ _

theorem Settled.translateTbzTbnz (hp : t.alloc.Pinned) (isTbnz : Bool) :
    Settled t (t.translateTbzTbnz op isTbnz) true :=
  (Settled.straight hp rfl).trans fun hp ↦ Settled.branchTo hp _ _

end Branches

section Step

variable {t : TranslateCtx} {env : Env} {op : BitVec 32}

/-- Whether the translation of an instruction leaves `RBP` alone, from the allocator before it and
the instruction. Of the vector instructions, the 32-bit multiplication must not name `V1` and `V1`
modulo eight, and the division of elements up to 32 bits no source that is `V5` modulo eight. -/
def keepsBase (a : Alloc) (type : InstrType) (op : BitVec 32) : Bool :=
  match type with
  | .add | .sub | .and | .orr | .eor | .bic => keepsBaseAlu a op
  | .neonMul => !(op.extractLsb' 22 2 == (2 : BitVec 2) && vd op &&& 7 == 1 && vm op &&& 7 == 1)
  | .neonDiv | .neonFdiv =>
    !(op.extractLsb' 20 2 != (3 : BitVec 2) && (vn op &&& 7 == 5 || vm op &&& 7 == 5))
  | _ => true

/-- The kinds the switch handles but the decoder never yields. -/
def InstrType.undecoded : InstrType → Bool
  | .ldrSimd | .strSimd | .neonXtn | .neonSqxtn | .neonUqxtn | .neonSqxtun => true
  | _ => false

theorem Settled.emit_verdict (hp : t.alloc.Pinned) {b : Bool} {code : List Code} (h : Verdict b code) :
    Settled t (t.emit code) b :=
  ⟨Appends.emit h, fun _ ↦ hp⟩

theorem verdict_neonMul : Verdict (keepsBase t.alloc .neonMul op) (translateNeonMul op) := by
  refine verdict_of_notMem (keeps_translateNeonMul op) ?_
  unfold translateNeonMul
  split <;> simp [vecOp, reload_eq]

theorem verdict_neonDiv : Verdict (keepsBase t.alloc .neonDiv op) (translateNeonDiv op) := by
  refine verdict_of_notMem (keeps_translateNeonDiv op) ?_
  have hextract (size : BitVec 2) (reg xmm i : Byte) : reload ≠ divExtract size reg xmm i := by
    simp [divExtract, reload_eq]
  have helement (signed : Bool) (size : BitVec 2) (xvd xvn xvm i : Byte) :
      reload ∉ neonDivElement signed size xvd xvn xvm i := by
    have hsize : ∀ s : BitVec 2, s = 0 ∨ s = 1 ∨ s = 2 ∨ s = 3 := by decide
    simp only [neonDivElement, List.mem_append, List.mem_cons, hextract, false_or]
    rcases hsize size with rfl | rfl | rfl | rfl <;> cases signed <;> simp [reload_eq]
  simp only [translateNeonDiv, List.mem_append, List.mem_flatMap, helement, and_false, exists_false,
    or_false]
  simp [reload_eq]

theorem Settled.translateMsr (hp : t.alloc.Pinned) :
    Settled t (t.pcMapAdd.emitItems (translateMsr env op)) true := by
  refine (Settled.pcMapAdd hp).trans fun hp ↦ ⟨⟨_, rfl, fun _ ↦ ?_, nofun⟩, fun _ ↦ hp⟩
  have hall : (Translate.translateMsr env op).all fun i ↦ !i.writesRbp := by
    unfold Translate.translateMsr
    dsimp only
    repeat' split
    all_goals rfl
  simpa using hall

theorem Settled.translateAddSub (hp : t.alloc.Pinned) (isSub : Bool) :
    Settled t (t.allocating fun a ↦ translateAddSub a op isSub) (keepsBaseAlu t.alloc op) := by
  have hmem : (if isSub then 0x29 else 0x01 : Byte) ∈ aluOpcodes := by split <;> decide
  have hv := allocatingAlu_verdict (combineSpec_singleton hmem) hp op
  rw [← translateAddSub_eq] at hv
  exact Settled.allocating (f := fun a ↦ Translate.translateAddSub a op isSub) hv.1 hv.2

theorem Settled.translateLogical (hp : t.alloc.Pinned) :
    Settled t (t.allocating fun a ↦ translateLogical a op) (keepsBaseAlu t.alloc op) := by
  have hv := allocatingAlu_verdict (combineSpec_logical (op.extractLsb' 29 2)) hp op
  rw [← translateLogical_eq] at hv
  exact Settled.allocating (f := fun a ↦ Translate.translateLogical a op) hv.1 hv.2

theorem Settled.translateMovImm (hp : t.alloc.Pinned) :
    Settled t (t.allocating fun a ↦ translateMovImm a op) true := by
  obtain ⟨hpinned, hkeeps⟩ := translateMovImm_pinned hp op
  exact Settled.allocating (f := fun a ↦ Translate.translateMovImm a op) (verdict_of_keeps hkeeps)
    fun _ ↦ hpinned

/-- A bitfield insert, or nothing. -/
theorem Settled.straight_getD (hp : t.alloc.Pinned) {code : Option (List Code)}
    (h : ∀ c, code = some c → keeps c) : Settled t ((code.map t.straight).getD t) true := by
  cases code with
  | none => exact ⟨Appends.of_out_eq rfl, fun _ ↦ hp⟩
  | some c => exact Settled.straight hp (h c rfl)

/-- One turn of the switch. -/
theorem translateOne_settled (hp : t.alloc.Pinned) {type : InstrType} (hu : type.undecoded = false)
    (imm : BitVec 32) :
    Settled t (translateOne env t type op imm) (keepsBase t.alloc type op) := by
  cases type
  case unknown | dataproc | ldst => exact Settled.emit hp rfl
  case b => exact Settled.translateB op hp
  case bl => exact Settled.translateBl op hp
  case br => exact Settled.translateBr op hp
  case blr => exact Settled.translateBlr op hp
  case ret => exact Settled.translateRet op hp
  case bCond => exact Settled.translateBCond op hp
  case cbz | cbnz => exact Settled.translateCbzCbnz op hp _
  case tbz | tbnz => exact Settled.translateTbzTbnz op hp _
  case add | sub => exact Settled.translateAddSub hp _
  case and | orr | eor | bic => exact Settled.translateLogical hp
  case movz | movn | movk => exact Settled.translateMovImm hp
  case adr | adrp => exact Settled.straight hp (keeps_movSlot (Or.inl rfl) _ _)
  case msr => exact Settled.translateMsr hp
  case neonMul => exact Settled.emit_verdict hp verdict_neonMul
  case neonDiv | neonFdiv => exact Settled.emit_verdict hp (verdict_neonDiv (t := t))
  case bfi => exact Settled.straight_getD hp fun c ↦ keeps_translateBfi op
  case bfxil => exact Settled.straight_getD hp fun c ↦ keeps_translateBfxil op
  case ldrSimd | strSimd | neonXtn | neonSqxtn | neonUqxtn | neonSqxtun => cases hu
  all_goals
    first
    | exact Settled.straight hp (by simp)
    | exact Settled.emit hp (by simp)

end Step

section Decoder

variable (op : BitVec 32)

/-- A mask test implies every coarser one. -/
theorem maskEq_of_maskEq {op m v m' v' : BitVec 32} (h : maskEq op m v) (hm : m &&& m' = m')
    (hv : v &&& m' = v') : maskEq op m' v' := by
  simp only [maskEq, beq_iff_eq] at h ⊢
  rw [← hv, ← h, BitVec.and_assoc, hm]

theorem bitfieldType_undecoded (n : Bool) (opc : BitVec 2) (imm shiftImm : BitVec 6) :
    (bitfieldType n opc imm shiftImm).undecoded = false := by
  unfold bitfieldType
  simp only [apply_ite InstrType.undecoded]
  simp [InstrType.undecoded]

theorem decodeDpRegister_undecoded : (decodeDpRegister op).instrType.undecoded = false := by
  unfold decodeDpRegister
  simp only [apply_ite DecodedInstruction.instrType, apply_ite InstrType.undecoded,
    bitfieldType_undecoded]
  simp [InstrType.undecoded]

theorem decodeLoadstore_undecoded : (decodeLoadstore op).instrType.undecoded = false := by
  unfold decodeLoadstore
  simp only [apply_ite DecodedInstruction.instrType, apply_ite InstrType.undecoded]
  simp [InstrType.undecoded]

theorem neonType_undecoded (opcode : BitVec 6) :
    (neonIntType opcode).undecoded = false ∧ (neonFpType opcode).undecoded = false := by
  unfold neonIntType neonFpType
  simp only [apply_ite InstrType.undecoded]
  simp [InstrType.undecoded]

/-- The test for vector loads and stores is hidden by the one for all loads and stores. -/
theorem decodeRest_undecoded : (decodeRest op).instrType.undecoded = false := by
  unfold decodeRest
  by_cases hls : maskEq op 0x0a000000 0x08000000 || maskEq op 0x3b000000 0x28000000
      || maskEq op 0x3b000000 0x38000000 || maskEq op 0x3b000000 0x39000000
  · rw [if_pos hls]
    exact decodeLoadstore_undecoded op
  · have hsimd : (maskEq op 0xbf000000 0x0d000000 || maskEq op 0xbf000000 0x0c000000) = false := by
      rw [Bool.eq_false_iff]
      intro h
      have hld : maskEq op 0x0a000000 0x08000000 := by
        rw [Bool.or_eq_true] at h
        rcases h with h | h <;> exact maskEq_of_maskEq h (by decide) (by decide)
      exact hls (by rw [hld]; rfl)
    rw [if_neg hls]
    simp only [hsimd, apply_ite DecodedInstruction.instrType, apply_ite InstrType.undecoded,
      decodeDpRegister_undecoded, neonType_undecoded]
    simp [InstrType.undecoded]

theorem decodeSystem_undecoded {d : DecodedInstruction} (h : decodeSystem op = some d) :
    d.instrType.undecoded = false := by
  unfold decodeSystem at h
  repeat' split at h
  all_goals
    cases h
    try rfl
  dsimp only
  split <;> rfl

theorem decode_undecoded : (decode op).instrType.undecoded = false := by
  have hrest : (((if maskEq op 0xff000000 0xd5000000 then decodeSystem op else none).getD
      (decodeRest op)).instrType).undecoded = false := by
    cases hs : if maskEq op 0xff000000 0xd5000000 then decodeSystem op else none with
    | none => exact decodeRest_undecoded op
    | some d =>
      split at hs
      · exact decodeSystem_undecoded op hs
      · cases hs
  unfold decode
  simp only [apply_ite DecodedInstruction.instrType, apply_ite InstrType.undecoded, hrest]
  simp [InstrType.undecoded]

end Decoder

section Run

variable (env : Env) (stack : Stack)

/-- A64 code: a block of word-aligned instructions. -/
structure A64Block extends Block where
  aligned : addr &&& 3 = 0

private theorem and_three_eq_zero_iff (x : BitVec 64) : x &&& 3 = 0 ↔ x.toNat % 4 = 0 := by
  rw [← BitVec.toNat_inj, BitVec.toNat_and]
  exact (Nat.and_two_pow_sub_one_eq_mod x.toNat 2).congr_left

theorem A64Block.pc_aligned (blk : A64Block) (k : Nat) : blk.pc k &&& 3 = 0 := by
  have h := (and_three_eq_zero_iff _).mp blk.aligned
  rw [and_three_eq_zero_iff, Block.pc, BitVec.toNat_add, BitVec.toNat_ofNat]
  omega

/-- The instructions of aligned code are decoded from the code. -/
theorem A64Block.decoded_eq (blk : A64Block) (k : Nat) :
    blk.decoded stack k = decode (blk.word k) := by
  unfold Block.decoded
  rw [blk.pc_aligned]
  rfl

/-- The states before the instructions the loop of a block goes through, with their numbers. -/
def loopStates (blk : Block) : Nat → Nat → TranslateCtx → List (Nat × TranslateCtx)
  | 0, _, _ => []
  | fuel + 1, k, t =>
    if 4 * k < blk.size then
      (k, t) ::
        if isBlockTerminator (blk.decoded stack k).instrType then []
        else loopStates blk fuel (k + 1) (translateStep env stack blk k t)
    else
      []

/-- The states of the translation of a block. -/
def blockStates (blk : Block) (x86Base : BitVec 64) : List (Nat × TranslateCtx) :=
  loopStates env stack blk maxInstructions 0 (startCtx stack blk x86Base)

/-- Whether an instruction of a block leaves `RBP` alone in a state before it. -/
def stepKeepsBase (blk : Block) (s : Nat × TranslateCtx) : Bool :=
  keepsBase s.2.alloc (decode (blk.word s.1)).instrType (blk.word s.1)

variable {env stack} {t : TranslateCtx}

theorem Settled.batchStore (hp : t.alloc.Pinned) : Settled t t.batchStore true := by
  obtain ⟨hpinned, hkeeps⟩ := regAllocEmitBatchStore_pinned hp (regAllocComputeLiveOut t.alloc)
  obtain ⟨items, hout, hrest⟩ := Appends.emit_keeps hkeeps
    (t := { t with alloc := (regAllocEmitBatchStore t.alloc (regAllocComputeLiveOut t.alloc)).1 })
  exact ⟨⟨items, hout, hrest⟩, fun _ ↦ hpinned⟩

/-- The loop: its output keeps `RBP` exactly if every instruction it goes through does. -/
theorem convertLoop_settled (env : Env) (stack : Stack) (blk : A64Block) (fuel k : Nat) (hp : t.alloc.Pinned) :
    Settled t (convertLoop env stack blk.toBlock fuel k t)
      ((loopStates env stack blk.toBlock fuel k t).all (stepKeepsBase blk.toBlock)) := by
  induction fuel generalizing k t with
  | zero => exact ⟨Appends.of_out_eq rfl, fun _ ↦ hp⟩
  | succ fuel ih =>
    have hstep : Settled t (translateStep env stack blk.toBlock k t)
        (stepKeepsBase blk.toBlock (k, t)) := by
      unfold translateStep stepKeepsBase
      rw [blk.decoded_eq]
      exact translateOne_settled hp (decode_undecoded _) _
    unfold convertLoop loopStates
    split
    · dsimp only
      rw [List.all_cons]
      cases hb : stepKeepsBase blk.toBlock (k, t) with
      | true =>
        rw [hb] at hstep
        refine hstep.trans fun hp ↦ ?_
        split
        · exact Settled.batchStore hp
        · exact ih (k + 1) hp
      | false =>
        -- what follows a clobbered base cannot mend it
        rw [hb] at hstep
        refine ⟨hstep.1.extend ?_, fun htrue ↦ by cases htrue⟩
        split
        · exact out_prefix_batchStore _
        · exact out_prefix_convertLoop _ _ _ _ _ _
    · exact ⟨Appends.of_out_eq rfl, fun _ ↦ hp⟩

theorem startCtx_pinned (stack : Stack) (blk : Block) (x86Base : BitVec 64) :
    (startCtx stack blk x86Base).alloc.Pinned := by
  change regAllocStart.Pinned
  refine ⟨regAllocStart_wellFormed, ?_, ?_⟩
  · have hstack : regAllocStart.freeStack = regAllocMap := by decide
    rw [hstack]
    exact fun x hx ↦ hx
  · decide

theorem startCtx_out (stack : Stack) (blk : Block) (x86Base : BitVec 64) :
    (startCtx stack blk x86Base).out = (prologue ++ [reload]).map .code := rfl

/-- The claim on a block's output: behind the prologue, an instruction that writes `RBP` loads
`X29` into it right after `RBP` was stored to the slot of `X29`. -/
def KeepsRbp (out : List Item) : Prop :=
  ∀ k item, prologue.length ≤ k → out[k]? = some item → item.writesRbp →
    item = .code reload ∧ out[k - 1]? = some (.code (emitStoreArmReg rbp 29 true))

/-- The output of a block continues the one behind the prologue. -/
theorem convertBlock_appends (blk : A64Block) (x86Base : BitVec 64) :
    Appends (startCtx stack blk.toBlock x86Base) (convertBlock env stack blk.toBlock x86Base)
      ((blockStates env stack blk.toBlock x86Base).all (stepKeepsBase blk.toBlock)) := by
  have hloop := convertLoop_settled env stack blk maxInstructions 0
    (startCtx_pinned stack blk.toBlock x86Base)
  change Settled _ _ ((blockStates env stack blk.toBlock x86Base).all _) at hloop
  unfold convertBlock
  cases hb : (blockStates env stack blk.toBlock x86Base).all (stepKeepsBase blk.toBlock) with
  | true =>
    rw [hb] at hloop
    exact (hloop.trans fun hp ↦ (Settled.batchStore hp).trans fun hp ↦ Settled.emit hp rfl).1
  | false =>
    rw [hb] at hloop
    exact hloop.1.extend ((out_prefix_batchStore _).trans (out_prefix_emit _ _))

/-- An output behind the prologue that keeps `RBP` or clobbers it. -/
theorem keepsRbp_iff {t t' : TranslateCtx} {b : Bool} (hout : t.out = (prologue ++ [reload]).map .code)
    (h : Appends t t' b) : KeepsRbp t'.out ↔ b := by
  obtain ⟨items, hitems, hkeep, hclob⟩ := h
  have hlen : ((prologue ++ [reload]).map Item.code).length = prologue.length + 1 := rfl
  rw [hitems, hout]
  constructor
  · intro hk
    by_contra hb
    obtain ⟨c, hc, hw, hne⟩ := hclob (Bool.eq_false_of_not_eq_true hb)
    obtain ⟨j, hj⟩ := List.mem_iff_getElem?.mp hc
    obtain ⟨heq, -⟩ := hk (prologue.length + 1 + j) (.code c) (by omega)
      (by rw [List.getElem?_append_right (by omega), hlen, Nat.add_sub_cancel_left, hj]) hw
    exact hne (Item.code.inj heq)
  · intro hb k item hk hitem hw
    rcases Nat.eq_or_lt_of_le hk with rfl | hlt
    · -- the load behind the prologue, and the store before it
      obtain rfl := Option.some.inj hitem
      exact ⟨rfl, rfl⟩
    · rw [List.getElem?_append_right (by omega)] at hitem
      rw [hkeep hb item (List.mem_of_getElem? hitem)] at hw
      cases hw

/-- Four additions that name ten registers. -/
def tenRegisters : A64Block where
  toBlock := Block.ofWords 0x1000 [0x8b020020, 0x8b050083, 0x8b0800e6, 0x8b000009]
  aligned := rfl

end Run

end Arm2x86.Translate
