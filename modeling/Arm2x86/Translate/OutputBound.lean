import Arm2x86.Translate.Jumps
import Arm2x86.Translate.Sizes
import Mathlib.Data.Finset.Card
import Mathlib.Data.Fintype.Basic
import Mathlib.Order.Bounds.Defs

/-!
# How long a translation gets

A bound on the output of `arm2x86_convert_block` that some block meets for every size. What a dirty
register costs in its write-back is counted when the register gets dirty, so that every instruction
adds to the output and to the dirty registers together.
-/

namespace Arm2x86.Translate

open X86

section Allocator

namespace Alloc

/-- Whether the write-back of a guest register is still to come. -/
def dirtyAt (a : Alloc) (r : ArmReg) : Bool := a.cached r && (a.regAlloc r).dirty

/-- The number of write-backs to come. -/
def dirtyCount (a : Alloc) : Nat := (Finset.univ.filter fun r ↦ a.dirtyAt r).card

variable {a b : Alloc} {r : ArmReg}

theorem dirtyCount_le (h : ∀ j, b.dirtyAt j → a.dirtyAt j) : b.dirtyCount ≤ a.dirtyCount := by
  apply Finset.card_le_card
  intro j hj
  rw [Finset.mem_filter] at hj ⊢
  exact ⟨hj.1, h j hj.2⟩

/-- A change of one register. -/
theorem dirtyCount_le_succ (h : ∀ j, j ≠ r → b.dirtyAt j → a.dirtyAt j) :
    b.dirtyCount ≤ a.dirtyCount + 1 := by
  apply (Finset.card_le_card (t := insert r (Finset.univ.filter fun j ↦ a.dirtyAt j)) ?_).trans
    (Finset.card_insert_le _ _)
  intro j hj
  rw [Finset.mem_filter] at hj
  by_cases hjr : j = r
  · exact hjr ▸ Finset.mem_insert_self _ _
  · exact Finset.mem_insert_of_mem (Finset.mem_filter.mpr ⟨hj.1, h j hjr hj.2⟩)

/-- A register that gets clean. -/
theorem dirtyCount_lt (hr : a.dirtyAt r) (hclean : b.dirtyAt r = false)
    (h : ∀ j, j ≠ r → b.dirtyAt j → a.dirtyAt j) : b.dirtyCount < a.dirtyCount := by
  apply Finset.card_lt_card
  apply Finset.ssubset_iff_of_subset (fun j hj ↦ ?_) |>.mpr
  · refine ⟨r, Finset.mem_filter.mpr ⟨Finset.mem_univ r, hr⟩, fun hmem ↦ ?_⟩
    rw [Finset.mem_filter, hclean] at hmem
    cases hmem.2
  · rw [Finset.mem_filter] at hj ⊢
    by_cases hjr : j = r
    · exact ⟨hj.1, hjr ▸ hr⟩
    · exact ⟨hj.1, h j hjr hj.2⟩

theorem dirtyAt_of_ne {j : ArmReg} (h : b.regAlloc j = a.regAlloc j) : b.dirtyAt j = a.dirtyAt j := by
  rw [dirtyAt, dirtyAt, cached, cached, h]

end Alloc

variable (a : Alloc) (r : ArmReg) (w d : Bool)

theorem dirtyCount_setDirty_le : (a.setDirty r d).dirtyCount ≤ a.dirtyCount + 1 :=
  Alloc.dirtyCount_le_succ (r := r) fun j hj ↦ by
    rw [Alloc.dirtyAt_of_ne (Function.update_of_ne hj _ _)]
    exact id

theorem regAlloc_place {j : ArmReg} (x : Byte) (hj : j ≠ r) :
    (regAllocPlace a r x w d).1.regAlloc j = a.regAlloc j := by
  cases d <;> simp [regAllocPlace, regAllocAssign, Alloc.setDirty, hj]

theorem regAlloc_getFree : (regAllocGetFree a).1.regAlloc = a.regAlloc := by
  unfold regAllocGetFree
  split <;> rfl

theorem regAlloc_free (x : Byte) : (regAllocFree a x).regAlloc = a.regAlloc := by
  unfold regAllocFree
  split <;> rfl

theorem size_getReg_le : size (regAllocGetReg a r w d).2.code ≤ 14 := by
  have hload : ∀ x, (emitLoadArmReg r x w).length ≤ 7 := by
    intro x
    rw [length_emitLoadArmReg]
    split_ifs <;> omega
  have hstore : ∀ x i w', (emitStoreArmReg x i w').length ≤ 7 := by
    intro x i w'
    rw [length_emitStoreArmReg]
    split_ifs <;> omega
  simp only [regAllocGetReg, regAllocPlace]
  split
  · simp
  · split
    · have hload' := hload (regAllocGetFree a).2
      simp only [size_cons, size_nil]
      omega
    · split
      · simp
      · next i _ =>
        have hload' := hload (regAllocGetFree (regAllocFree ((regAllocGetFree a).1.setX86Reg i noReg)
          ((regAllocGetFree a).1.regAlloc i).x86Reg)).2
        have hstore' := hstore ((regAllocGetFree a).1.regAlloc i).x86Reg i
          ((regAllocGetFree a).1.regAlloc i).is64bit
        split <;> simp only [size_append, size_ite, size_cons, size_nil] <;> split_ifs <;> omega

/-- A request makes no register dirty but the one that is asked for. -/
theorem dirtyAt_getReg {j : ArmReg} (hj : j ≠ r) (h : (regAllocGetReg a r w d).1.dirtyAt j) :
    a.dirtyAt j := by
  have hfree : ∀ b : Alloc, (regAllocGetFree b).1.dirtyAt j = b.dirtyAt j :=
    fun b ↦ Alloc.dirtyAt_of_ne (congrFun (regAlloc_getFree b) j)
  have hplace : ∀ (b : Alloc) x, (regAllocPlace b r x w d).1.dirtyAt j = b.dirtyAt j :=
    fun b x ↦ Alloc.dirtyAt_of_ne (regAlloc_place b r w d x hj)
  -- the victim of a spill is not cached any more
  have hevict : ∀ (b : Alloc) i, (regAllocFree (b.setX86Reg i noReg) (b.regAlloc i).x86Reg).dirtyAt j →
      b.dirtyAt j := by
    intro b i hb
    rw [Alloc.dirtyAt_of_ne (congrFun (regAlloc_free _ _) j)] at hb
    by_cases hji : j = i
    · subst hji
      simp [Alloc.dirtyAt, Alloc.cached, Alloc.setX86Reg] at hb
    · rwa [Alloc.dirtyAt_of_ne (Function.update_of_ne hji _ _)] at hb
  unfold regAllocGetReg at h
  split at h
  · cases d
    · exact h
    · rwa [Alloc.dirtyAt_of_ne (Function.update_of_ne hj _ _)] at h
  · dsimp only at h
    split at h
    · rwa [hplace, hfree] at h
    · split at h
      · rwa [hfree] at h
      · rw [← hfree a]
        split at h
        · rw [hplace, hfree] at h
          exact hevict _ _ h
        · rw [hfree] at h
          exact hevict _ _ h

/-- What a request costs: a write-back, a load, and a write-back to come. -/
theorem regAllocGetReg_cost :
    size (regAllocGetReg a r w d).2.code + 7 * (regAllocGetReg a r w d).1.dirtyCount ≤
      7 * a.dirtyCount + 21 := by
  have hcode := size_getReg_le a r w d
  have hdirty := Alloc.dirtyCount_le_succ fun j hj ↦ dirtyAt_getReg a r w d hj
  omega

theorem translateAddSub_cost (op : BitVec 32) (isSub : Bool) :
    size (translateAddSub a op isSub).2 + 7 * (translateAddSub a op isSub).1.dirtyCount ≤
      7 * a.dirtyCount + 149 := by
  unfold translateAddSub
  dsimp only
  generalize hn : regAllocGetReg a (armReg op 5) (is64 op) false = n
  have hncost := hn ▸ regAllocGetReg_cost a (armReg op 5) (is64 op) false
  generalize hm : regAllocGetReg n.1 (armReg op 16) (is64 op) false = m
  have hmcost := hm ▸ regAllocGetReg_cost n.1 (armReg op 16) (is64 op) false
  have hdcost := regAllocGetReg_cost m.1 (armReg op 0) (is64 op) true
  simp only [size_append, size_ite, size_cons, size_nil, length_ite, length_addR64R64,
    length_subR64R64, length_movR64R64]
  split_ifs <;> omega

theorem translateLogical_cost (op : BitVec 32) :
    size (translateLogical a op).2 + 7 * (translateLogical a op).1.dirtyCount ≤
      7 * a.dirtyCount + 149 := by
  unfold translateLogical
  dsimp only
  generalize hn : regAllocGetReg a (armReg op 5) (is64 op) false = n
  have hncost := hn ▸ regAllocGetReg_cost a (armReg op 5) (is64 op) false
  generalize hm : regAllocGetReg n.1 (armReg op 16) (is64 op) false = m
  have hmcost := hm ▸ regAllocGetReg_cost n.1 (armReg op 16) (is64 op) false
  have hdcost := regAllocGetReg_cost m.1 (armReg op 0) (is64 op) true
  simp only [size_append, size_ite, size_cons, size_nil, length_notR64, length_andR64R64,
    length_orR64R64, length_movR64R64]
  split_ifs <;> omega

theorem size_movSlot_le (pre : List Byte) (v : BitVec 64) :
    size (movSlot pre r v) ≤ 2 * pre.length + 20 := by
  simp only [movSlot, movSlotImm, size_cons, size_ite, size_nil, List.length_append, List.length_cons,
    List.length_nil, length_imm32]
  split_ifs <;> omega

theorem translateMovImm_cost (op : BitVec 32) :
    size (translateMovImm a op).2 + 7 * (translateMovImm a op).1.dirtyCount ≤
      7 * a.dirtyCount + 149 := by
  have hdirty : (regAllocTakeFor a (armReg op 0) (is64 op)).1.dirtyCount ≤ a.dirtyCount + 1 := by
    apply Alloc.dirtyCount_le_succ (r := armReg op 0)
    intro j hj
    unfold regAllocTakeFor
    dsimp only
    split
    · rw [Alloc.dirtyAt_of_ne (Function.update_of_ne hj _ _),
        Alloc.dirtyAt_of_ne (Function.update_of_ne hj _ _),
        Alloc.dirtyAt_of_ne (congrFun (regAlloc_getFree a) j)]
      exact id
    · rw [Alloc.dirtyAt_of_ne (congrFun (regAlloc_getFree a) j)]
      exact id
  have hslot : ∀ v, size (movSlot [rexRm 0 0, 0x48] (armReg op 0) v) ≤ 24 :=
    fun v ↦ size_movSlot_le (armReg op 0) [rexRm 0 0, 0x48] v
  unfold translateMovImm
  dsimp only
  split
  · simp only [translateMovk, size_viaRax, size_append, size_cons, size_ite, size_nil, length_groupRax]
    split_ifs <;> omega
  · have hmov := hslot (movImmValue op ((op.extractLsb' 21 2).toNat * 16))
    simp only [size_ite, size_cons, size_nil, List.length_cons, length_imm64, length_emitStoreArmReg]
    split_ifs <;> omega

theorem size_translateAdrAdrp_le (cur : BitVec 64) (op : BitVec 32) :
    size (translateAdrAdrp cur op) ≤ 149 :=
  (size_movSlot_le (armReg op 0) [rexRm 0 0, 0x48] _).trans (by simp)

/-- The write-back pays with what has been counted. -/
theorem regAllocEmitBatchStore_cost (live : List ArmReg) :
    size (regAllocEmitBatchStore a live).2 + 7 * (regAllocEmitBatchStore a live).1.dirtyCount ≤
      7 * a.dirtyCount := by
  induction live generalizing a with
  | nil => simp [regAllocEmitBatchStore]
  | cons r live ih =>
    unfold regAllocEmitBatchStore
    split
    · next hr =>
      have hrest := ih (a.setDirty r false)
      have hstore : size (storeIfDirty a r) ≤ 7 := by
        simp only [storeIfDirty, size_ite, size_cons, size_nil, length_emitStoreArmReg]
        split_ifs <;> omega
      have hclean : (a.setDirty r false).dirtyCount < a.dirtyCount := by
        apply Alloc.dirtyCount_lt (r := r) hr
        · simp [Alloc.dirtyAt, Alloc.setDirty]
        · intro j hj
          rw [Alloc.dirtyAt_of_ne (Function.update_of_ne hj _ _)]
          exact id
      dsimp only
      rw [size_append]
      omega
    · exact ih a

end Allocator

section Block

namespace TranslateCtx

/-- What has been emitted, and what the write-backs to come will emit. -/
def weight (t : TranslateCtx) : Nat := t.bytes.length + 7 * t.alloc.dirtyCount

variable (t : TranslateCtx)

@[simp] theorem weight_pcMapAdd : t.pcMapAdd.weight = t.weight := by
  rw [weight, bytes_pcMapAdd, pcMapAdd_alloc, weight]

theorem weight_emitItems (items : List Item) :
    (t.emitItems items).weight = t.weight + (items.flatMap Item.bytes).length := by
  rw [weight, bytes_emitItems, List.length_append, weight]
  exact Nat.add_right_comm _ _ _

theorem length_items (code : List Code) : ((code.map Item.code).flatMap Item.bytes).length = size code := by
  rw [List.flatMap_map, size, List.flatMap_def]
  exact congrArg (fun bs : List Code ↦ bs.flatten.length) code.map_id

@[simp] theorem weight_emit (code : List Code) : (t.emit code).weight = t.weight + size code := by
  rw [emit, weight_emitItems, length_items]

@[simp] theorem weight_straight (code : List Code) : (t.straight code).weight = t.weight + size code := by
  rw [straight, weight_emit, weight_pcMapAdd]

theorem weight_allocating_le {f : Alloc → Alloc × List Code} {bound : Nat}
    (h : ∀ a, size (f a).2 + 7 * (f a).1.dirtyCount ≤ 7 * a.dirtyCount + bound) :
    (t.allocating f).weight ≤ t.weight + bound := by
  have hcost := h t.alloc
  rw [allocating, weight_emit, weight, weight]
  change (t.pcMapAdd.bytes.length + 7 * (f t.alloc).1.dirtyCount) + size (f t.alloc).2 ≤ _
  rw [bytes_pcMapAdd]
  omega

theorem weight_emitDispatchStub_le (a : BitVec 64) (isCall : Bool) :
    (t.emitDispatchStub a isCall).weight ≤ t.weight + 14 := by
  unfold emitDispatchStub
  split
  · simp
  · simp [weight_emitItems, Item.bytes]

theorem weight_branchTo_le (a : BitVec 64) (isCall : Bool) :
    (t.branchTo a isCall).weight ≤ t.weight + 14 := by
  unfold branchTo
  split
  · rw [emitDirectJumpOrCall, weight_emit]
    simp [weight, bytes]
  · exact t.weight_emitDispatchStub_le a isCall

@[simp] theorem length_patchedJcc (opcode : Byte) : (patchedJcc opcode).length = 6 := rfl

theorem size_linkCode_le : size t.linkCode ≤ 22 := size_movSlot_le 30 [rexRm 0 0] _

variable (op : BitVec 32)

theorem weight_translateB_le : (t.translateB op).weight ≤ t.weight + 149 := by
  apply (weight_branchTo_le _ _ _).trans
  simp

theorem weight_translateBl_le : (t.translateBl op).weight ≤ t.weight + 149 := by
  have hlink := t.size_linkCode_le
  apply (weight_branchTo_le _ _ _).trans
  simp only [weight_emit, weight_pcMapAdd]
  omega

theorem weight_translateBr_le : (t.translateBr op).weight ≤ t.weight + 149 := by
  apply (weight_emitDispatchStub_le _ _ _).trans
  simp

theorem weight_translateBlr_le : (t.translateBlr op).weight ≤ t.weight + 149 := by
  have hlink := t.size_linkCode_le
  apply (weight_emitDispatchStub_le _ _ _).trans
  simp only [weight_emit, weight_pcMapAdd, size_append, size_cons, size_nil, length_emitLoadArmReg,
    if_true]
  omega

theorem weight_translateRet_le : (t.translateRet op).weight ≤ t.weight + 149 := by
  unfold translateRet
  split
  · simp
  · exact t.weight_translateBr_le op

theorem weight_translateBCond_le : (t.translateBCond op).weight ≤ t.weight + 149 := by
  unfold translateBCond
  dsimp only
  split
  · apply (weight_branchTo_le _ _ _).trans
    simp
  · split
    · simp
    · apply (weight_branchTo_le _ _ _).trans
      simp

theorem weight_translateCbzCbnz_le (isCbnz : Bool) :
    (t.translateCbzCbnz op isCbnz).weight ≤ t.weight + 149 := by
  apply (weight_branchTo_le _ _ _).trans
  simp

theorem weight_translateTbzTbnz_le (isTbnz : Bool) :
    (t.translateTbzTbnz op isTbnz).weight ≤ t.weight + 149 := by
  apply (weight_branchTo_le _ _ _).trans
  simp

theorem weight_batchStore_le : t.batchStore.weight ≤ t.weight := by
  have hcost := regAllocEmitBatchStore_cost t.alloc (regAllocComputeLiveOut t.alloc)
  rw [batchStore, weight_emit, weight, weight]
  change (t.bytes.length + 7 * (regAllocEmitBatchStore _ _).1.dirtyCount) + _ ≤ _
  omega

end TranslateCtx

/-- The most that an instruction of a kind adds. -/
def wordLimit : InstrType → Nat
  | .neonDiv | .neonFdiv => 658
  | _ => 149

/-- One instruction, by its kind. -/
theorem weight_translateOne_le (env : Env) (t : TranslateCtx) (type : InstrType) (op imm : BitVec 32) :
    (translateOne env t type op imm).weight ≤ t.weight + wordLimit type := by
  have hemit : ∀ code, size code ≤ 149 → (t.emit code).weight ≤ t.weight + 149 := by
    intro code h
    rw [TranslateCtx.weight_emit]
    omega
  have hstraight : ∀ code, size code ≤ 149 → (t.straight code).weight ≤ t.weight + 149 := by
    intro code h
    rw [TranslateCtx.weight_straight]
    omega
  have hallocating : ∀ f : Alloc → Alloc × List Code,
      (∀ a, size (f a).2 + 7 * (f a).1.dirtyCount ≤ 7 * a.dirtyCount + 149) →
      (t.allocating f).weight ≤ t.weight + 149 := fun f h ↦ t.weight_allocating_le h
  cases type
  case neonDiv | neonFdiv =>
    change (t.emit (translateNeonDiv op)).weight ≤ t.weight + 658
    rw [TranslateCtx.weight_emit]
    exact Nat.add_le_add_left (size_translateNeonDiv_le op) _
  case b => exact t.weight_translateB_le op
  case bl => exact t.weight_translateBl_le op
  case br => exact t.weight_translateBr_le op
  case blr => exact t.weight_translateBlr_le op
  case ret => exact t.weight_translateRet_le op
  case bCond => exact t.weight_translateBCond_le op
  case cbz => exact t.weight_translateCbzCbnz_le op false
  case cbnz => exact t.weight_translateCbzCbnz_le op true
  case tbz => exact t.weight_translateTbzTbnz_le op false
  case tbnz => exact t.weight_translateTbzTbnz_le op true
  case add | sub =>
    exact hallocating (translateAddSub · op (op.getLsbD 29)) (translateAddSub_cost · op _)
  case and | orr | eor | bic =>
    exact hallocating (translateLogical · op) (translateLogical_cost · op)
  case movz | movn | movk =>
    exact hallocating (translateMovImm · op) (translateMovImm_cost · op)
  case bfi =>
    change (((translateBfi op).map t.straight).getD t).weight ≤ _
    cases h : translateBfi op with
    | none => exact Nat.le_add_right _ _
    | some code => exact hstraight _ (size_of_translateBfi op h)
  case bfxil =>
    change (((translateBfxil op).map t.straight).getD t).weight ≤ _
    cases h : translateBfxil op with
    | none => exact Nat.le_add_right _ _
    | some code => exact hstraight _ (size_of_translateBfxil op h)
  case msr =>
    change (t.pcMapAdd.emitItems (translateMsr env op)).weight ≤ _
    rw [TranslateCtx.weight_emitItems, TranslateCtx.weight_pcMapAdd]
    exact Nat.add_le_add_left (length_translateMsr_le op env) _
  case sbfm => exact hstraight _ (size_translateSbfm_le op)
  case ubfm => exact hstraight _ (size_translateUbfm_le op)
  case ccmn => exact hstraight _ (size_translateCcmn_le op)
  case ccmp => exact hstraight _ (size_translateCcmp_le op)
  case rbit => exact hstraight _ (size_translateRbit_le op)
  case ldr | str => exact hstraight _ (size_translateLdrStr_le op imm)
  case ldp | stp => exact hstraight _ (size_translateLdpStp_le op imm)
  case ldrb | ldrh | ldrsb | ldrsh | ldrsw => exact hstraight _ (size_narrowLoad_le op _ (by simp))
  case strb | strh => exact hstraight _ (size_narrowStore_le op (by simp))
  case prfm => exact hstraight _ (size_translatePrfm_le op)
  case svc => exact hstraight _ size_translateSvc.le
  case mrs => exact hstraight _ (size_translateMrs_le op env)
  case ldrSimd | strSimd => exact hemit _ (size_neonAccess_le op _)
  case adr | adrp => exact hstraight _ (size_translateAdrAdrp_le t.arm64Cur op)
  case cmp => exact hstraight _ (size_translateCmp_le op)
  case adc => exact hstraight _ (size_translateAdc_le op)
  case sbc => exact hstraight _ (size_translateSbc_le op)
  case neg => exact hstraight _ (size_translateNeg_le op)
  case rsb => exact hstraight _ (size_translateRsb_le op)
  case mvn => exact hstraight _ (size_translateMvn_le op)
  case tst => exact hstraight _ (size_translateTst_le op)
  case cmn => exact hstraight _ (size_translateCmn_le op)
  case orn => exact hstraight _ (size_translateOrn_le op)
  case csel => exact hstraight _ (size_translateCsel_le op)
  case cset => exact hstraight _ (size_translateCset_le op)
  case mul => exact hstraight _ (size_translateMul_le op)
  case madd => exact hstraight _ (size_translateMadd_le op)
  case msub => exact hstraight _ (size_translateMsub_le op)
  case bfc => exact hstraight _ (size_translateBfc_le op)
  case clz => exact hstraight _ (size_translateClz_le op)
  case rev => exact hstraight _ (size_translateRev_le op)
  case sxtb => exact hstraight _ (size_translateSxtb_le op)
  case sxth => exact hstraight _ (size_translateSxth_le op)
  case uxtb => exact hstraight _ (size_translateUxtb_le op)
  case uxth => exact hstraight _ (size_translateUxth_le op)
  case sxtw => exact hstraight _ (size_translateSxtw_le op)
  case uxtw => exact hstraight _ (size_translateUxtw_le op)
  case ldrLiteral => exact hstraight _ (size_translateLdrLiteral_le op _)
  case ldaxr => exact hstraight _ (size_translateLdaxr_le op)
  case stlxr => exact hstraight _ (size_translateStlxr_le op)
  case cas => exact hstraight _ (size_translateCas_le op)
  case ldadd => exact hstraight _ (size_translateLdadd_le op)
  case csinc => exact hstraight _ (size_translateCsinc_le op)
  case fcvt => exact hstraight _ (size_translateFcvt_le op)
  case fsqrt => exact hstraight _ (size_translateFsqrt_le op)
  case sha256 => exact hstraight _ (size_translateSha256_le op)
  case eret => exact hstraight _ (size_translateEret_le)
  case extr => exact hstraight _ (size_translateExtr_le op)
  case fcsel => exact hstraight _ (size_translateFcsel_le op)
  case cinc => exact hstraight _ (size_translateCinc_le op)
  case cinv => exact hstraight _ (size_translateCinv_le op)
  case cneg => exact hstraight _ (size_translateCneg_le op)
  case sdiv | udiv => exact hstraight _ (size_translateDiv_le op)
  case smulh => exact hstraight _ (size_translateSmulh_le op)
  case umulh => exact hstraight _ (size_translateUmulh_le op)
  case lsl | lsr | asr => exact hstraight _ (size_translateShift_le op)
  case ror => exact hstraight _ (size_translateRorImm_le op)
  case mov => exact hstraight _ (size_translateMovReg_le op)
  case csinv => exact hstraight _ (size_translateCsinv_le op)
  case csneg => exact hstraight _ (size_translateCsneg_le op)
  case crc32 | crc32c => exact hstraight _ (size_translateCrc32_le op)
  case fadd => exact hstraight _ (size_translateFadd_le op)
  case fsub => exact hstraight _ (size_translateFsub_le op)
  case fmul => exact hstraight _ (size_translateFmul_le op)
  case fdiv => exact hstraight _ (size_translateFdiv_le op)
  case fcmp | fcmpe => exact hstraight _ (size_translateFcmp_le op)
  case fmovReg | fmovImm => exact hstraight _ (size_translateFmovImm_le op env)
  case fabs => exact hstraight _ (size_translateFabs_le op)
  case fneg => exact hstraight _ (size_translateFneg_le op)
  case fmadd => exact hstraight _ (size_translateFmadd_le op)
  case fmsub => exact hstraight _ (size_translateFmsub_le op)
  case fnmadd => exact hstraight _ (size_translateFnmadd_le op)
  case fnmsub => exact hstraight _ (size_translateFnmsub_le op)
  case aese => exact hstraight _ (size_translateAese_le op)
  case aesd => exact hstraight _ (size_translateAesd_le op)
  case aesmc => exact hstraight _ (size_translateAesmc_le op)
  case aesimc => exact hstraight _ (size_translateAesimc_le op)
  case dmb | dsb | isb => exact hemit _ (size_translateDmbDsbIsb_le op env)
  case hint => exact hemit _ (size_translateHint_le op)
  case brk => exact hemit _ (size_translateBrk_le)
  case hlt => exact hemit _ (size_translateHlt_le)
  case neonAdd => exact hemit _ (size_translateNeonAdd_le op env)
  case neonSub => exact hemit _ (size_translateNeonSub_le op)
  case neonMul => exact hemit _ (size_translateNeonMul_le op)
  case neonAnd => exact hemit _ (size_translateNeonAnd_le op)
  case neonOrr => exact hemit _ (size_translateNeonOrr_le op)
  case neonEor => exact hemit _ (size_translateNeonEor_le op)
  case neonBsl => exact hemit _ (size_translateNeonBsl_le op)
  case neonExt => exact hemit _ (size_translateNeonExt_le op)
  case neonDup => exact hemit _ (size_translateNeonDup_le op)
  case neonMovi => exact hemit _ (size_translateNeonMovi_le op)
  case neonShl => exact hemit _ (size_translateNeonShl_le op)
  case neonShr => exact hemit _ (size_translateNeonShr_le op)
  case neonIns => exact hemit _ (size_translateNeonIns_le op)
  case neonFadd => exact hemit _ (size_translateNeonFadd_le op env)
  case neonFsub => exact hemit _ (size_translateNeonFsub_le op)
  case neonFmul => exact hemit _ (size_translateNeonFmul_le op)
  case neonFmax => exact hemit _ (size_translateNeonFmax_le op)
  case neonFmin => exact hemit _ (size_translateNeonFmin_le op)
  case neonFcvt => exact hemit _ (size_translateNeonFcvt_le op)
  case neonFsqrt => exact hemit _ (size_translateNeonFsqrt_le op)
  case neonFrecpe => exact hemit _ (size_translateNeonFrecpe_le op)
  case neonFrsqrte => exact hemit _ (size_translateNeonFrsqrte_le op)
  case neonFmla => exact hemit _ (size_translateNeonFmla_le op)
  case neonFmls => exact hemit _ (size_translateNeonFmls_le op)
  case neonFabs => exact hemit _ (size_translateNeonFabs_le op)
  case neonFneg => exact hemit _ (size_translateNeonFneg_le op)
  case neonFcmp => exact hemit _ (size_translateNeonFcmp_le op)
  case neonUshl => exact hemit _ (size_translateNeonUshl_le op)
  case neonSshl => exact hemit _ (size_translateNeonSshl_le op)
  case neonPmul => exact hemit _ (size_translateNeonPmul_le op)
  case neonXtn => exact hemit _ (size_translateNeonXtn_le op)
  case neonSqxtn => exact hemit _ (size_translateNeonSqxtn_le op)
  case neonUqxtn => exact hemit _ (size_translateNeonUqxtn_le op)
  case neonSqxtun => exact hemit _ (size_translateNeonSqxtun_le op)
  case neonUsra => exact hemit _ (size_translateNeonUsra_le op)
  case neonSsra => exact hemit _ (size_translateNeonSsra_le op)
  case neonUmull => exact hemit _ (size_translateNeonUmull_le op)
  case neonSmull => exact hemit _ (size_translateNeonSmull_le op)
  case unknown | dataproc | ldst => exact hemit _ (by simp)

/-- The number of instructions of a block, the last of which may be cut off. -/
def Block.words (blk : Block) : Nat := (blk.size + 3) / 4

theorem Block.lt_words_iff (blk : Block) (k : Nat) : 4 * k < blk.size ↔ k < blk.words := by
  unfold Block.words
  omega

theorem wordLimit_le (type : InstrType) : wordLimit type ≤ 658 := by
  unfold wordLimit
  split <;> omega

variable (env : Env) (stack : Stack) (blk : Block)

/-- The loop, by the instructions that are left. -/
theorem weight_convertLoop_le (fuel k : Nat) (t : TranslateCtx) :
    (convertLoop env stack blk fuel k t).weight ≤ t.weight + 658 * min fuel (blk.words - k) := by
  induction fuel generalizing k t with
  | zero => simp [convertLoop]
  | succ fuel ih =>
    unfold convertLoop
    split
    · next hk =>
      rw [Block.lt_words_iff] at hk
      have hone := weight_translateOne_le env t (blk.decoded stack k).instrType (blk.word k)
        (blk.decoded stack k).imm
      have hlimit := wordLimit_le (blk.decoded stack k).instrType
      have hstep : (translateStep env stack blk k t).weight ≤ t.weight + 658 := hone.trans (by omega)
      dsimp only
      split
      · have hstore := (translateStep env stack blk k t).weight_batchStore_le
        omega
      · have hrest := ih (k + 1) (translateStep env stack blk k t)
        omega
    · omega

theorem weight_startCtx (x86Base : BitVec 64) : (startCtx stack blk x86Base).weight = 77 := by
  have hcount : (regAllocSetupCallingConvention regAllocInit).1.dirtyCount = 0 := by decide
  have hbytes : (startCtx stack blk x86Base).bytes.length = 77 := rfl
  rw [TranslateCtx.weight, hbytes]
  exact congrArg (77 + 7 * ·) hcount

/-- The most that the translation of a block of `n` bytes takes. -/
def outputBound (n : Nat) : Nat := 85 + 658 * min maxInstructions ((n + 3) / 4)

theorem length_convertBlockBytes_le (x86Base : BitVec 64) :
    (convertBlockBytes env stack blk x86Base).length ≤ outputBound blk.size := by
  have hloop := weight_convertLoop_le env stack blk maxInstructions 0 (startCtx stack blk x86Base)
  have hstore := (convertLoop env stack blk maxInstructions 0
    (startCtx stack blk x86Base)).weight_batchStore_le
  have hbytes : (convertBlockBytes env stack blk x86Base).length =
      (convertLoop env stack blk maxInstructions 0 (startCtx stack blk x86Base)).batchStore.bytes.length +
        8 := by
    rw [convertBlockBytes, convertBlock]
    exact (congrArg List.length (TranslateCtx.bytes_emitItems _ _)).trans List.length_append
  have hle : ∀ t : TranslateCtx, t.bytes.length ≤ t.weight := fun t ↦ Nat.le_add_right _ _
  have hlast := hle (convertLoop env stack blk maxInstructions 0
    (startCtx stack blk x86Base)).batchStore
  rw [weight_startCtx, Nat.sub_zero] at hloop
  unfold Block.words at hloop
  unfold outputBound
  omega

end Block

section Longest

/-- A block of one instruction over and over, from the address zero on. -/
def Block.repeating (op : BitVec 32) (n : Nat) : Block where
  mem p := (imm32 op).getD (p &&& 3).toNat 0
  addr := 0
  size := n

theorem repeating_low (op : BitVec 32) (n k i : Nat) (hi : i < 4) :
    ((Block.repeating op n).pc k + BitVec.ofNat 64 i &&& 3).toNat = i := by
  have hthree : (3 : BitVec 64).toNat = 2 ^ 2 - 1 := rfl
  rw [BitVec.toNat_and, hthree, Nat.and_two_pow_sub_one_eq_mod]
  simp only [Block.pc, Block.repeating, BitVec.toNat_add, BitVec.toNat_ofNat, BitVec.ofNat_eq_ofNat]
  omega

theorem repeating_word (op : BitVec 32) (n k : Nat) : (Block.repeating op n).word k = op := by
  have hbyte : ∀ i, i < 4 → (Block.repeating op n).mem
      ((Block.repeating op n).pc k + BitVec.ofNat 64 i) = (imm32 op).getD i 0 :=
    fun i hi ↦ congrArg (List.getD _ · 0) (repeating_low op n k i hi)
  have hfirst := hbyte 0 (by decide)
  rw [BitVec.add_zero] at hfirst
  have hbytes : (Block.repeating op n).word k = (imm32 op).getD 3 0 ++ (imm32 op).getD 2 0 ++
      (imm32 op).getD 1 0 ++ (imm32 op).getD 0 0 :=
    congrArg₂ (· ++ ·) (congrArg₂ (· ++ ·) (congrArg₂ (· ++ ·) (hbyte 3 (by decide))
      (hbyte 2 (by decide))) (hbyte 1 (by decide))) hfirst
  exact hbytes.trans (append_imm32 op)

/-- A block of divisions of sixteen lanes. -/
def longest (n : Nat) : Block := Block.repeating 0x1e00d010 n

theorem longest_decoded (stack : Stack) (n k : Nat) :
    ((longest n).decoded stack k).instrType = .neonFdiv := by
  have haligned : (longest n).pc k &&& 3 = 0 := by
    have hlow := repeating_low 0x1e00d010 n k 0 (by decide)
    rw [BitVec.add_zero] at hlow
    exact BitVec.eq_of_toNat_eq hlow
  have hdecode : (decode 0x1e00d010).instrType = .neonFdiv := by decide
  rw [Block.decoded, haligned, longest, repeating_word]
  exact hdecode

/-- A turn of the loop adds the code of one division and asks for no register. -/
theorem translateStep_longest (env : Env) (stack : Stack) (n k : Nat) (t : TranslateCtx) :
    (translateStep env stack (longest n) k t).bytes.length = t.bytes.length + 658 ∧
      (translateStep env stack (longest n) k t).alloc = t.alloc := by
  have hsize : size (translateNeonDiv 0x1e00d010) = 658 := by decide +kernel
  have hone : translateOne env t ((longest n).decoded stack k).instrType ((longest n).word k)
      ((longest n).decoded stack k).imm = t.emit (translateNeonDiv 0x1e00d010) := by
    rw [longest_decoded, longest, repeating_word]
    rfl
  unfold translateStep
  dsimp only
  rw [hone]
  refine ⟨?_, rfl⟩
  change (t.emit (translateNeonDiv 0x1e00d010)).bytes.length = _
  rw [TranslateCtx.emit, TranslateCtx.bytes_emitItems, List.length_append, TranslateCtx.length_items,
    hsize]

theorem convertLoop_longest (env : Env) (stack : Stack) (n fuel k : Nat) (t : TranslateCtx) :
    (convertLoop env stack (longest n) fuel k t).bytes.length =
        t.bytes.length + 658 * min fuel ((longest n).words - k) ∧
      (convertLoop env stack (longest n) fuel k t).alloc = t.alloc := by
  induction fuel generalizing k t with
  | zero => simp [convertLoop]
  | succ fuel ih =>
    unfold convertLoop
    split
    · next hk =>
      rw [Block.lt_words_iff] at hk
      obtain ⟨hbytes, halloc⟩ := translateStep_longest env stack n k t
      obtain ⟨hrest, hsame⟩ := ih (k + 1) (translateStep env stack (longest n) k t)
      have hgoes : isBlockTerminator ((longest n).decoded stack k).instrType = false := by
        rw [longest_decoded]
        rfl
      dsimp only
      rw [hgoes, if_neg Bool.false_ne_true]
      refine ⟨?_, hsame.trans halloc⟩
      omega
    · next hk =>
      rw [Block.lt_words_iff] at hk
      refine ⟨?_, rfl⟩
      omega

/-- The bound is met. -/
theorem length_convertBlockBytes_longest (env : Env) (stack : Stack) (n : Nat) (x86Base : BitVec 64) :
    (convertBlockBytes env stack (longest n) x86Base).length = outputBound n := by
  obtain ⟨hbytes, halloc⟩ := convertLoop_longest env stack n maxInstructions 0
    (startCtx stack (longest n) x86Base)
  have hstart : (startCtx stack (longest n) x86Base).bytes.length = 77 := rfl
  have hstore : (regAllocEmitBatchStore (regAllocSetupCallingConvention regAllocInit).1
      (regAllocComputeLiveOut (regAllocSetupCallingConvention regAllocInit).1)).2 = [] := by decide
  have hbatch : ∀ t : TranslateCtx, t.alloc = (regAllocSetupCallingConvention regAllocInit).1 →
      (t.batchStore.emit epilogue).bytes.length = t.bytes.length + 8 := by
    intro t ht
    simp only [TranslateCtx.batchStore, ht, hstore]
    rw [TranslateCtx.emit, TranslateCtx.bytes_emitItems, List.length_append, TranslateCtx.emit,
      TranslateCtx.bytes_emitItems, List.length_append]
    rfl
  rw [convertBlockBytes, convertBlock]
  apply (hbatch _ halloc).trans
  rw [hbytes, hstart, outputBound, Block.words, Nat.sub_zero]
  change 77 + 658 * min maxInstructions ((n + 3) / 4) + 8 = _
  omega

/-- The buffers that hold whatever a block of `n` bytes is translated to. -/
theorem length_convertBlockBytes_le_iff (n cap : Nat) :
    (∀ env stack blk x86Base, blk.size = n → (convertBlockBytes env stack blk x86Base).length ≤ cap) ↔
      outputBound n ≤ cap := by
  constructor
  · intro h
    have hlongest := h Env.default Stack.zero (longest n) 0 rfl
    rwa [length_convertBlockBytes_longest] at hlongest
  · rintro h env stack blk x86Base rfl
    exact (length_convertBlockBytes_le env stack blk x86Base).trans h

/-- The greatest length of a translation, by the size of the block. -/
theorem isGreatest_length_convertBlockBytes (n : Nat) :
    IsGreatest {l | ∃ env stack blk x86Base, blk.size = n ∧
      (convertBlockBytes env stack blk x86Base).length = l} (outputBound n) := by
  constructor
  · exact ⟨Env.default, Stack.zero, longest n, 0, rfl, length_convertBlockBytes_longest ..⟩
  · rintro l ⟨env, stack, blk, x86Base, rfl, rfl⟩
    exact length_convertBlockBytes_le env stack blk x86Base

-- the buffer on the stack of `sigsegv_handler`, for its sixteen instructions
example : ¬ outputBound 64 ≤ 4096 := by decide

/-- The size of the mapping that `arm2x86_convert` (`arm2x86.c:232`) and the translator of
`arm2x86_easy.c` (`:587`, `:736`) estimate, in the arithmetic of `size_t`. -/
def estSize (n : Nat) : Nat := (n / 4 * 16 + 4096) % 2 ^ 64

/-- The estimate is enough for six instructions, and again from 2382 on: the translation of the
sixty-four instructions at most that a block is cut to does not get longer any more. -/
theorem fits_estSize_iff (n : Nat) :
    (∀ env stack blk x86Base, blk.size = n →
      (convertBlockBytes env stack blk x86Base).length ≤ estSize n) ↔
      n ≤ 24 ∨ 2638 ≤ (n / 4 + 256) % 2 ^ 60 := by
  rw [length_convertBlockBytes_le_iff]
  unfold outputBound estSize maxInstructions
  omega

end Longest

end Arm2x86.Translate
