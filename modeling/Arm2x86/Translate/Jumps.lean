import Arm2x86.Translate.Block

/-!
# The direct jumps of a translated block

Which jumps `arm2x86_convert_block` emits and registers. A translator records its address, emits
code, asks the allocator, and at most jumps to what the map from guest to host addresses holds for
its target. The map of a new context is whatever the stack holds, so a target is the code of an
instruction of the same block or a leftover of an earlier translation.
-/

namespace Arm2x86.Translate

open X86
open Tcache (JumpTarget)

/-- The offset of a branch from its own address. -/
def branchOffset : InstrType → BitVec 32 → Option (BitVec 32)
  | .b, op | .bl, op => some (signExtend64 (fieldAt op 0 26 <<< 2) 28)
  | .bCond, op => some (signExtend64 ((fieldAt op 5 20 &&& 0xffffe) <<< 1) 19)
  | .cbz, op | .cbnz, op => some (signExtend64 (fieldAt op 5 19 <<< 2) 21)
  | .tbz, op | .tbnz, op => some (signExtend64 (fieldAt op 5 14 <<< 2) 16)
  | _, _ => none

/-- Whether the translator of an instruction records its address with `pc_map_add`. -/
def recordsAddress : InstrType → BitVec 32 → Bool
  | .bfi, op => (translateBfi op).isSome
  | .bfxil, op => (translateBfxil op).isSome
  | .dmb, _ | .dsb, _ | .isb, _ | .hint, _ | .brk, _ | .hlt, _ => false
  | .neonAdd, _ | .neonSub, _ | .neonMul, _ | .neonDiv, _ | .neonFdiv, _ | .neonAnd, _ | .neonOrr, _
  | .neonEor, _ | .neonBsl, _ | .neonExt, _ | .neonDup, _ | .neonMovi, _ | .neonShl, _ | .neonShr, _
  | .neonIns, _ | .neonXtn, _ | .neonSqxtn, _ | .neonUqxtn, _ | .neonSqxtun, _ | .neonUsra, _
  | .neonSsra, _ | .neonUshl, _ | .neonSshl, _ | .neonUmull, _ | .neonSmull, _ | .neonPmul, _
  | .neonFadd, _ | .neonFsub, _ | .neonFmul, _ | .neonFmax, _ | .neonFmin, _ | .neonFcvt, _
  | .neonFsqrt, _ | .neonFabs, _ | .neonFneg, _ | .neonFmla, _ | .neonFmls, _ | .neonFrecpe, _
  | .neonFrsqrte, _ | .neonFcmp, _ | .ldrSimd, _ | .strSimd, _ => false
  | .unknown, _ | .dataproc, _ | .ldst, _ => false
  | _, _ => true

namespace TranslateCtx

/-- The bytes between `x86_base` and `x86_cur`. -/
def bytes (t : TranslateCtx) : List Byte := t.out.flatMap Item.bytes

theorem emit_append (t : TranslateCtx) (code code' : List Code) :
    t.emit (code ++ code') = (t.emit code).emit code' := by
  simp [emit, emitItems]

/-- What a translator does first. -/
def record (t : TranslateCtx) (type : InstrType) (op : BitVec 32) : TranslateCtx :=
  if recordsAddress type op then t.pcMapAdd else t

/-- The code that a translator derives from the address of its instruction. -/
def addressCode (t : TranslateCtx) (type : InstrType) (op : BitVec 32) : List Code :=
  match type with
  | .bl | .blr => t.linkCode
  | .adr | .adrp => translateAdrAdrp t.arm64Cur op
  | .ldrLiteral => translateLdrLiteral t.arm64Cur op
  | _ => []

/-- What two contexts keep in common behind every action of a translator, they have in common
behind the translator. -/
theorem translateOne_rel {R : TranslateCtx → TranslateCtx → Prop} (env : Env) (t t' : TranslateCtx)
    (type : InstrType) (op imm : BitVec 32)
    (hitems : ∀ u u' items, R u u' → R (u.emitItems items) (u'.emitItems items))
    (halloc : ∀ u u' alloc, R u u' → R { u with alloc } { u' with alloc })
    (hsame : t'.alloc = t.alloc)
    (haddress : ∀ u u', R u u' →
      R (u.emit (t.addressCode type op)) (u'.emit (t'.addressCode type op)))
    (hbranch : ∀ (u u' : TranslateCtx) off isCall, branchOffset type op = some off →
      (∀ a, u.pcMapLookup a = (t.record type op).pcMapLookup a) → R u u' →
      R (u.branchTo (t.target off) isCall) (u'.branchTo (t'.target off) isCall))
    (h : R (t.record type op) (t'.record type op)) : R (translateOne env t type op imm) (translateOne env t' type op imm) := by
  have hcode : ∀ u u' (code : List Code), R u u' → R (u.emit code) (u'.emit code) :=
    fun u u' code hu ↦ hitems u u' _ hu
  have hstraight : R t.pcMapAdd t'.pcMapAdd → ∀ code, R (t.straight code) (t'.straight code) :=
    fun hstart code ↦ hcode _ _ code hstart
  have hallocating : R t.pcMapAdd t'.pcMapAdd → ∀ f, R (t.allocating f) (t'.allocating f) := by
    intro hstart f
    unfold allocating
    rw [hsame]
    exact hcode _ _ _ (halloc _ _ _ hstart)
  have hstub : ∀ u u' isCall, R u u' → R (u.emitDispatchStub 0 isCall) (u'.emitDispatchStub 0 isCall) :=
    fun u u' isCall hu ↦ hcode u u' _ hu
  have hbr : R t.pcMapAdd t'.pcMapAdd → R (t.translateBr op) (t'.translateBr op) := fun hstart ↦
    hstub _ _ false (hstraight hstart [emitLoadArmReg (armReg op 5) rax true])
  cases type
  case b => exact hbranch _ _ _ _ rfl (fun a ↦ rfl) h
  case bl => exact hbranch _ _ _ _ rfl (fun a ↦ rfl) (haddress _ _ h)
  case br => exact hbr h
  case blr =>
    have hload := hcode _ _ [emitLoadArmReg (armReg op 5) rax true] (haddress _ _ h)
    show R (t.translateBlr op) (t'.translateBlr op)
    rw [translateBlr, translateBlr, emit_append, emit_append]
    exact hstub _ _ true hload
  case ret =>
    change R (t.translateRet op) (t'.translateRet op)
    unfold translateRet
    split
    · exact h
    · exact hbr h
  case bCond =>
    change R (t.translateBCond op) (t'.translateBCond op)
    unfold translateBCond
    dsimp only
    split
    · exact hbranch _ _ _ _ rfl (fun a ↦ rfl) h
    · split
      · exact hstraight h _
      · exact hbranch _ _ _ _ rfl (fun a ↦ rfl) (hstraight h _)
  case cbz | cbnz | tbz | tbnz => exact hbranch _ _ _ _ rfl (fun a ↦ rfl) (hstraight h _)
  case bfi =>
    change R (((translateBfi op).map t.straight).getD t) (((translateBfi op).map t'.straight).getD t')
    unfold record recordsAddress at h
    cases hb : translateBfi op with
    | none => exact (by simpa [hb] using h)
    | some code => exact hstraight (by simpa [hb] using h) _
  case bfxil =>
    change R (((translateBfxil op).map t.straight).getD t)
      (((translateBfxil op).map t'.straight).getD t')
    unfold record recordsAddress at h
    cases hb : translateBfxil op with
    | none => exact (by simpa [hb] using h)
    | some code => exact hstraight (by simpa [hb] using h) _
  case msr => exact hitems _ _ _ h
  case add | sub => exact hallocating h fun a ↦ translateAddSub a op (op.getLsbD 29)
  case and | orr | eor | bic => exact hallocating h fun a ↦ translateLogical a op
  case movz | movn | movk => exact hallocating h fun a ↦ translateMovImm a op
  case adr | adrp | ldrLiteral => exact haddress _ _ h
  all_goals
    first
    | exact hstraight h _
    | exact hcode _ _ _ h

/-- What holds behind every action of a translator holds behind the translator. -/
theorem translateOne_induct {P : TranslateCtx → Prop} (env : Env) (t : TranslateCtx)
    (type : InstrType) (op imm : BitVec 32) (hadd : ∀ u, P u → P u.pcMapAdd)
    (hitems : ∀ u items, P u → P (u.emitItems items)) (halloc : ∀ u alloc, P u → P { u with alloc })
    (hjump : ∀ (u : TranslateCtx) off isCall, branchOffset type op = some off →
      u.pcMapLookup (t.target off) ≠ 0 → P u →
      P (u.emitDirectJumpOrCall (u.pcMapLookup (t.target off)) isCall))
    (h : P t) : P (translateOne env t type op imm) := by
  apply translateOne_rel (R := fun u _ ↦ P u) env t t
  case hitems => exact fun u _ ↦ hitems u
  case halloc => exact fun u _ ↦ halloc u
  case hsame => rfl
  case haddress => exact fun u _ hu ↦ hitems u _ hu
  case hbranch =>
    intro u _ off isCall hoff _ hu
    unfold branchTo
    split
    · next hne => exact hjump u off isCall hoff (by simpa using hne) hu
    · unfold emitDispatchStub
      split
      · exact hitems u _ hu
      · exact hitems u _ hu
  case h =>
    unfold record
    split
    · exact hadd t h
    · exact h

@[simp] theorem bytes_emitItems (t : TranslateCtx) (items : List Item) :
    (t.emitItems items).bytes = t.bytes ++ items.flatMap Item.bytes := by
  simp [bytes, emitItems]

@[simp] theorem bytes_pcMapAdd (t : TranslateCtx) : t.pcMapAdd.bytes = t.bytes := by
  unfold pcMapAdd
  split <;> rfl

/-- A successful lookup returns an element of the map. -/
theorem exists_of_pcMapLookup {t : TranslateCtx} {a : BitVec 64} (h : t.pcMapLookup a ≠ 0) :
    ∃ i : Nat, i < t.pcMapCount ∧ t.pcMap i = ⟨a, t.pcMapLookup a⟩ := by
  unfold pcMapLookup at h ⊢
  split at h
  · next i hfind =>
    have hi := List.mem_range.mp (List.mem_of_find?_eq_some hfind)
    have ha : (t.pcMap i).armPc = a := by simpa using List.find?_some hfind
    refine ⟨i, by omega, ?_⟩
    rw [← ha]
  · exact absurd rfl h

end TranslateCtx

section Growth

variable (t : TranslateCtx)

@[simp] theorem pcMapAdd_out : t.pcMapAdd.out = t.out := by
  unfold TranslateCtx.pcMapAdd
  split <;> rfl

@[simp] theorem pcMapAdd_alloc : t.pcMapAdd.alloc = t.alloc := by
  unfold TranslateCtx.pcMapAdd
  split <;> rfl

theorem out_prefix_emit (code : List Code) : t.out <+: (t.emit code).out := List.prefix_append _ _

/-- No translator takes back what has been emitted. -/
theorem out_prefix_translateOne (op : BitVec 32) (env : Env) (type : InstrType) (imm : BitVec 32) :
    t.out <+: (translateOne env t type op imm).out := by
  apply TranslateCtx.translateOne_induct (P := fun u ↦ t.out <+: u.out)
  case hadd =>
    intro u hu
    rwa [pcMapAdd_out]
  case hitems => exact fun u items hu ↦ hu.trans (List.prefix_append _ _)
  case halloc => exact fun u alloc hu ↦ hu
  case hjump => exact fun u off isCall _ _ hu ↦ hu.trans (List.prefix_append _ _)
  case h => exact List.prefix_rfl

theorem out_prefix_batchStore : t.out <+: t.batchStore.out :=
  List.prefix_append _ _

theorem out_prefix_convertLoop (env : Env) (stack : Stack) (blk : Block) (fuel k : Nat) :
    t.out <+: (convertLoop env stack blk fuel k t).out := by
  induction fuel generalizing k t with
  | zero => exact List.prefix_rfl
  | succ fuel ih =>
    have hstep : t.out <+: (translateStep env stack blk k t).out := out_prefix_translateOne t _ _ _ _
    unfold convertLoop
    split
    · dsimp only
      split
      · exact hstep.trans (out_prefix_batchStore _)
      · exact hstep.trans (ih _ _)
    · exact List.prefix_rfl

end Growth

/-- The instruction of a direct jump or call. -/
def jumpCode (jt : JumpTarget) : List Byte :=
  (if jt.isCall then 0xe8 else 0xe9) ::
    imm32 ((jt.targetArmAddr - (jt.jmpInstruction + 5)).setWidth 32)

/-- A registered jump stands at its place in the output from `x86Base` on. -/
structure Placed (x86Base : BitVec 64) (out : List Byte) (jt : JumpTarget) (before : Nat) : Prop where
  location : jt.jmpInstruction = x86Base + BitVec.ofNat 64 before
  code : ∃ xs ys, out = xs ++ jumpCode jt ++ ys ∧ xs.length = before

theorem Placed.append {x86Base : BitVec 64} {out : List Byte} {jt : JumpTarget} {before : Nat}
    (h : Placed x86Base out jt before) (more : List Byte) :
    Placed x86Base (out ++ more) jt before := by
  obtain ⟨hloc, xs, ys, rfl, hxs⟩ := h
  exact ⟨hloc, xs, ys ++ more, by simp, hxs⟩

/-- What the uninitialised map holds for an address the block branches to. -/
def Leftover (stack : Stack) (blk : Block) (x86Pc : BitVec 64) : Prop :=
  ∃ (k i : Nat) (off : BitVec 32), 4 * k < blk.size ∧
    branchOffset (blk.decoded stack k).instrType (blk.word k) = some off ∧
    i < stack.pcMapCount ∧ stack.pcMap i = ⟨blk.pc k + off.signExtend 64, x86Pc⟩ ∧ x86Pc ≠ 0

/-- The state of a translation: its map holds leftovers and its own addresses, and its jumps go
where the map says. -/
structure Tracked (stack : Stack) (blk : Block) (x86Base : BitVec 64) (t : TranslateCtx) : Prop where
  base : t.x86Base = x86Base
  map : ∀ i : Nat, i < t.pcMapCount →
    (i < stack.pcMapCount ∧ t.pcMap i = stack.pcMap i) ∨
      ∃ n ≤ t.bytes.length, (t.pcMap i).x86Pc = x86Base + BitVec.ofNat 64 n
  jumps : ∀ jt ∈ t.jumpTargets, ∃ before, Placed x86Base t.bytes jt before ∧
    ((∃ n ≤ before, jt.targetArmAddr = x86Base + BitVec.ofNat 64 n) ∨
      Leftover stack blk jt.targetArmAddr)

namespace Tracked

variable {stack : Stack} {blk : Block} {x86Base : BitVec 64} {t : TranslateCtx}

theorem x86Cur_eq (h : Tracked stack blk x86Base t) :
    t.x86Cur = x86Base + BitVec.ofNat 64 t.bytes.length := by
  rw [TranslateCtx.x86Cur, h.base, TranslateCtx.bytes]

theorem emitItems (h : Tracked stack blk x86Base t) (items : List Item) :
    Tracked stack blk x86Base (t.emitItems items) where
  base := h.base
  map i hi := by
    rcases h.map i hi with hold | ⟨n, hn, hpc⟩
    · exact .inl hold
    · refine .inr ⟨n, ?_, hpc⟩
      rw [TranslateCtx.bytes_emitItems, List.length_append]
      omega
  jumps jt hjt := by
    obtain ⟨before, hplaced, htarget⟩ := h.jumps jt hjt
    refine ⟨before, ?_, htarget⟩
    rw [TranslateCtx.bytes_emitItems]
    exact hplaced.append _

theorem pcMapAdd (h : Tracked stack blk x86Base t) : Tracked stack blk x86Base t.pcMapAdd := by
  unfold TranslateCtx.pcMapAdd
  split
  · refine ⟨h.base, fun i hi ↦ ?_, h.jumps⟩
    change (i : Int) < t.pcMapCount + 1 at hi
    by_cases heq : (i : Int) = t.pcMapCount
    · refine .inr ⟨t.bytes.length, Nat.le_refl _, ?_⟩
      show (Function.update t.pcMap t.pcMapCount ⟨t.arm64Cur, t.x86Cur⟩ i).x86Pc = _
      rw [heq, Function.update_self]
      exact h.x86Cur_eq
    · show (_ ∧ Function.update t.pcMap t.pcMapCount _ i = _) ∨
        ∃ n ≤ _, (Function.update t.pcMap t.pcMapCount _ i).x86Pc = _
      rw [Function.update_of_ne heq]
      exact h.map i (by omega)
  · exact h

/-- A jump to what the map holds. -/
theorem emitDirectJumpOrCall (h : Tracked stack blk x86Base t) {a : BitVec 64} (isCall : Bool)
    (hne : t.pcMapLookup a ≠ 0)
    (hleft : ∀ i : Nat, i < stack.pcMapCount → stack.pcMap i = ⟨a, t.pcMapLookup a⟩ →
      Leftover stack blk (t.pcMapLookup a)) :
    Tracked stack blk x86Base (t.emitDirectJumpOrCall (t.pcMapLookup a) isCall) := by
  let jt : JumpTarget := ⟨t.pcMapLookup a, t.x86Cur, isCall⟩
  have hcode : (t.emitDirectJumpOrCall (t.pcMapLookup a) isCall).bytes = t.bytes ++ jumpCode jt := by
    simp [TranslateCtx.emitDirectJumpOrCall, TranslateCtx.emit, TranslateCtx.bytes, jumpCode, jt,
      TranslateCtx.emitItems, Item.bytes]
  have hother := h.emitItems [.code (jumpCode jt)]
  refine ⟨h.base, hother.map, fun jt' hjt' ↦ ?_⟩
  rcases List.mem_cons.mp hjt' with rfl | hold
  · refine ⟨t.bytes.length, ⟨h.x86Cur_eq, t.bytes, [], ?_, rfl⟩, ?_⟩
    · rw [hcode, List.append_nil]
    · obtain ⟨i, hi, hentry⟩ := TranslateCtx.exists_of_pcMapLookup hne
      rcases h.map i hi with ⟨hi', hsame⟩ | ⟨n, hn, hpc⟩
      · exact .inr (hleft i hi' (hsame.symm.trans hentry))
      · refine .inl ⟨n, hn, ?_⟩
        rw [hentry] at hpc
        exact hpc
  · exact hother.jumps jt' hold

theorem setAlloc (h : Tracked stack blk x86Base t) (alloc : Alloc) :
    Tracked stack blk x86Base { t with alloc } :=
  ⟨h.base, h.map, h.jumps⟩

theorem batchStore (h : Tracked stack blk x86Base t) : Tracked stack blk x86Base t.batchStore :=
  (h.setAlloc (regAllocEmitBatchStore t.alloc (regAllocComputeLiveOut t.alloc)).1).emitItems _

/-- One turn of the loop. -/
theorem translateStep (env : Env) {k : Nat} (h : Tracked stack blk x86Base t)
    (hk : 4 * k < blk.size) (hcur : t.arm64Cur = blk.pc k) :
    Tracked stack blk x86Base (Translate.translateStep env stack blk k t) := by
  have hone : Tracked stack blk x86Base
      (translateOne env t (blk.decoded stack k).instrType (blk.word k)
        (blk.decoded stack k).imm) := by
    apply TranslateCtx.translateOne_induct
    case hadd => exact fun u hu ↦ hu.pcMapAdd
    case hitems => exact fun u items hu ↦ hu.emitItems items
    case halloc => exact fun u alloc hu ↦ hu.setAlloc alloc
    case hjump =>
      intro u off isCall hoff hne hu
      apply hu.emitDirectJumpOrCall isCall hne
      intro i hi hentry
      rw [TranslateCtx.target, hcur] at hentry hne ⊢
      exact ⟨k, i, off, hk, hoff, hi, hentry, hne⟩
    case h => exact h
  exact ⟨hone.base, hone.map, hone.jumps⟩

theorem convertLoop (env : Env) {fuel k : Nat} (h : Tracked stack blk x86Base t)
    (hcur : t.arm64Cur = blk.pc k) :
    Tracked stack blk x86Base (Translate.convertLoop env stack blk fuel k t) := by
  induction fuel generalizing k t with
  | zero => exact h
  | succ fuel ih =>
    rw [Translate.convertLoop]
    split
    · next hk =>
      have hstep := h.translateStep env hk hcur
      dsimp only
      split
      · exact hstep.batchStore
      · exact ih hstep rfl
    · exact h

end Tracked

theorem tracked_startCtx (stack : Stack) (blk : Block) (x86Base : BitVec 64) :
    Tracked stack blk x86Base (startCtx stack blk x86Base) :=
  ⟨rfl, fun _ hi ↦ .inl ⟨hi, rfl⟩, fun _ hjt ↦ nomatch hjt⟩

/-- A block registers jumps that stand in its output and go back into it, or to a leftover. -/
theorem convertBlock_tracked (env : Env) (stack : Stack) (blk : Block) (x86Base : BitVec 64) :
    Tracked stack blk x86Base (convertBlock env stack blk x86Base) := by
  have hstart := tracked_startCtx stack blk x86Base
  have hcur : (startCtx stack blk x86Base).arm64Cur = blk.pc 0 := by
    simp [startCtx, Block.pc]
  exact (hstart.convertLoop env hcur).batchStore.emitItems _

end Arm2x86.Translate
