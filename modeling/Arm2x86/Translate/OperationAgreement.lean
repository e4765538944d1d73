import Arm2x86.Translate.BaseRegister
import Arm2x86.Translate.DecodeLoadStore
import Arm2x86.Translate.Jumps

/-!
# Named and emitted operations

The decoder names an operation by its kind and its width, and the translator that the kind selects
takes direction, width and opcode from the instruction word once more. What it emits is read back
from its bytes.
-/

namespace Arm2x86.Translate

open X86

/-- An operation on general registers, with or without the complement of an operand, or an access to
guest memory. -/
inductive Operation where
  | combine (op : AluOp) (complemented : Bool)
  | access (load : Bool) (bytes : Nat)
deriving DecidableEq, Repr

/-- The operations that a kind and a width name. -/
def namedOperations (type : InstrType) (is64bit : Bool) : Option (List Operation) :=
  let bytes := if is64bit then 8 else 4
  match type with
  | .add => some [.combine .add false]
  | .sub => some [.combine .sub false]
  | .and => some [.combine .and false]
  | .bic => some [.combine .and true]
  | .orr => some [.combine .or false]
  | .orn => some [.combine .or true]
  | .eor => some [.combine .xor false]
  | .ldr | .ldrLiteral => some [.access true bytes]
  | .str => some [.access false bytes]
  | .ldrb | .ldrsb => some [.access true 1]
  | .ldrh | .ldrsh => some [.access true 2]
  | .ldrsw => some [.access true 4]
  | .strb => some [.access false 1]
  | .strh => some [.access false 2]
  | .ldp => some [.access true bytes, .access true bytes]
  | .stp => some [.access false bytes, .access false bytes]
  | _ => none

/-- The bytes of an operand of a size. -/
def sizeBytes : Size → Nat
  | .b8 => 1
  | .b16 => 2
  | .b32 => 4
  | .b64 => 8

/-- Whether an operand is guest memory: the translators address it through `RAX`, and the register
home through `RBP` or `R13`. -/
def throughRax : Loc → Bool
  | .mem base _ _ => base == some 0
  | _ => false

/-- The operations some instructions do, behind the complement of an operand. -/
def operationsFrom : Option Loc → List Instr → List Operation
  | _, [] => []
  | flipped, i :: is =>
    match i with
    | .not _ dst => operationsFrom (some dst) is
    | .alu op _ dst src =>
      .combine op (flipped == some dst || flipped == some src) :: operationsFrom none is
    | .mov size dst src =>
      if throughRax src then .access true (sizeBytes size) :: operationsFrom flipped is
      else if throughRax dst then .access false (sizeBytes size) :: operationsFrom flipped is
      else operationsFrom flipped is
    | .extend _ _ srcSize _ src =>
      if throughRax src then .access true (sizeBytes srcSize) :: operationsFrom flipped is
      else operationsFrom flipped is
    | _ => operationsFrom flipped is

/-- The instructions of some emitted code. -/
def instrs (code : List Code) : List Instr := code.flatMap fun c ↦ sweep c.length c

/-- The operations that some emitted code does. -/
def operations (code : List Code) : List Operation := operationsFrom none (instrs code)

/-- What the translator of a word's kind emits. -/
def emittedFor (env : Env) (t : TranslateCtx) (op : BitVec 32) : List Code :=
  ((translateOne env t (decode op).instrType op (decode op).imm).out.drop t.out.length).filterMap
    fun
    | .code c => some c
    | .data _ => none

/-- The emitted operations are those that the decoded kind and width name, if they name any. -/
def OperationsAgree (env : Env) (t : TranslateCtx) (op : BitVec 32) : Prop :=
  ∀ ops ∈ namedOperations (decode op).instrType (decode op).is64bit,
    operations (emittedFor env t op) = ops

/-- When they are: the bit the translator takes for a subtraction agrees with the two the decoder
does, there is no `ORN`, and an access of general size has eight bytes. -/
structure AgreementExact (op : BitVec 32) : Prop where
  addSub : Diagram.Matches ⟨0x1fe00000, 0x0b000000⟩ op →
    (op.getLsbD 29 = true ↔ op.extractLsb' 30 2 ≠ 0)
  logicalShifted : Diagram.Matches ⟨0x1fe00000, 0x0a000000⟩ op → op.extractLsb' 29 2 ≠ 3
  logicalImmediate : Diagram.Matches ⟨0x1f800000, 0x12000000⟩ op → op.extractLsb' 29 2 ≠ 3
  unscaled : Diagram.Matches ⟨0x3b200c00, 0x38000000⟩ op → op.getLsbD 31 = true
  unsignedOffset : Diagram.Matches ⟨0x3b000000, 0x39000000⟩ op → op.extractLsb' 30 2 = 3
  pairPost : ¬ Diagram.Matches ⟨0x7fc00000, 0x28800000⟩ op
  pairPre : ¬ Diagram.Matches ⟨0x7fc00000, 0x29800000⟩ op

section Emitted

variable {env : Env} {t : TranslateCtx} {op : BitVec 32} {code : List Code}

theorem emittedFor_eq {out : List Code}
    (h : (translateOne env t (decode op).instrType op (decode op).imm).out =
      t.out ++ out.map .code) : emittedFor env t op = out := by
  rw [emittedFor, h, List.drop_left]
  induction out with
  | nil => rfl
  | cons c cs ih => simp

end Emitted

section Quiet

/-- An instruction that does none of the operations. -/
def Quiet (i : Instr) : Prop := ∀ flipped is, operationsFrom flipped (i :: is) = operationsFrom flipped is

theorem quiet_mov {size : Size} {dst src : Loc} (hsrc : throughRax src = false)
    (hdst : throughRax dst = false) : Quiet (.mov size dst src) := by
  intro flipped is
  rw [operationsFrom]
  simp only [hsrc, hdst, Bool.false_eq_true, if_false]

/-- Code that does none of the operations. -/
def QuietCode (code : List Code) : Prop := ∀ c ∈ code, ∃ i, sweep c.length c = [i] ∧ Quiet i

theorem operationsFrom_append {code : List Code} (h : QuietCode code) (flipped : Option Loc)
    (rest : List Instr) :
    operationsFrom flipped (instrs code ++ rest) = operationsFrom flipped rest := by
  induction code with
  | nil => rfl
  | cons c cs ih =>
    rw [QuietCode, List.forall_mem_cons] at h
    obtain ⟨⟨i, hi, hquiet⟩, hcs⟩ := h
    rw [instrs, List.flatMap_cons, hi, List.append_assoc, List.singleton_append, hquiet]
    exact ih hcs

theorem QuietCode.append {code code' : List Code} (h : QuietCode code) (h' : QuietCode code') :
    QuietCode (code ++ code') := by
  intro c hc
  rcases List.mem_append.mp hc with hc | hc
  · exact h c hc
  · exact h' c hc

theorem quietCode_singleton {c : Code} {i : Instr} (h : X86.decode c = some (i, []))
    (hquiet : Quiet i) : QuietCode [c] := by
  intro c' hc
  rw [List.mem_singleton.mp hc]
  exact ⟨i, sweep_of_decode h, hquiet⟩

private theorem base_ne_rax (b : Bool) : (some (gpr b 5#3) == some (0 : Gpr)) = false := by
  cases b <;> rfl

theorem quietCode_load (r : ArmReg) (x : Byte) (w : Bool) : QuietCode [emitLoadArmReg r x w] := by
  have h64 : ∀ rex : Byte, rex &&& 0xf8 = 0x48 →
      QuietCode [rex :: 0x8b :: modrm 2#8 (x &&& 7) 5#8 :: imm32 (armRegOffset r)] := by
    intro rex hrex
    have hdec := decode_loadDisp (x &&& 7) (armRegOffset r) [] hrex
    rw [List.append_nil] at hdec
    exact quietCode_singleton hdec (quiet_mov (base_ne_rax _) rfl)
  unfold emitLoadArmReg
  cases w with
  | false =>
    have hdec := decode_load32 (x &&& 7) (armRegOffset r) []
    rw [List.append_nil] at hdec
    exact quietCode_singleton hdec (quiet_mov rfl rfl)
  | true =>
    rw [if_pos rfl]
    split
    · exact h64 _ (by decide)
    · exact h64 _ (by decide)

theorem quietCode_store (r : ArmReg) (x : Byte) (w : Bool) : QuietCode [emitStoreArmReg x r w] := by
  have h64 : ∀ rex : Byte, rex &&& 0xf8 = 0x48 →
      QuietCode [rex :: 0x89 :: modrm 2#8 (x &&& 7) 5#8 :: imm32 (armRegOffset r)] := by
    intro rex hrex
    have hdec := decode_storeDisp (x &&& 7) (armRegOffset r) [] hrex
    rw [List.append_nil] at hdec
    exact quietCode_singleton hdec (quiet_mov rfl (base_ne_rax _))
  unfold emitStoreArmReg
  cases w with
  | false =>
    have hdec := decode_store32 (x &&& 7) (armRegOffset r) []
    rw [List.append_nil] at hdec
    exact quietCode_singleton hdec (quiet_mov rfl rfl)
  | true =>
    rw [if_pos rfl]
    split
    · exact h64 _ (by decide)
    · exact h64 _ (by decide)

theorem quietCode_nil : QuietCode [] := fun _ hc ↦ absurd hc List.not_mem_nil

/-- The requests to the allocator only move registers to and from the home. -/
theorem quietCode_getReg (a : Alloc) (r : ArmReg) (w d : Bool) :
    QuietCode (regAllocGetReg a r w d).2.code := by
  have hstore : ∀ b x i w', QuietCode (if b = true then [emitStoreArmReg x i w'] else []) := by
    intro b x i w'
    cases b
    · exact quietCode_nil
    · exact quietCode_store i x w'
  unfold regAllocGetReg
  split
  · exact quietCode_nil
  · dsimp only
    split
    · exact quietCode_load r _ w
    · split
      · exact quietCode_nil
      · split
        · exact (hstore _ _ _ _).append (quietCode_load r _ w)
        · exact hstore _ _ _ _

end Quiet

section Translators

variable {op : BitVec 32}

theorem operations_append {code code' : List Code} (h : QuietCode code) :
    operations (code ++ code') = operations code' := by
  rw [operations, instrs, List.flatMap_append]
  exact operationsFrom_append h none _

/-- A single instruction at the head of some code. -/
theorem operationsFrom_cons {c : Code} {i : Instr} (h : sweep c.length c = [i]) (cs : List Code)
    (flipped : Option Loc) :
    operationsFrom flipped (instrs (c :: cs)) = operationsFrom flipped (i :: instrs cs) := by
  rw [instrs, List.flatMap_cons, h]
  rfl

/-- The allocating translators do what they put behind the requests and the copy. -/
theorem operations_allocatingAlu {combine : Byte → Byte → List Code} {ops : List Operation}
    (h : ∀ d m, operations (combine d m) = ops) (a : Alloc) (op : BitVec 32) :
    operations (allocatingAlu combine a op).2 = ops := by
  have hcopy : ∀ (b : Bool) (x y : Byte),
      QuietCode (if b = true then [] else [movR64R64 x y]) := by
    intro b x y
    cases b
    · have hdec := decode_movR64R64 x y []
      rw [List.append_nil] at hdec
      exact quietCode_singleton hdec (quiet_mov rfl rfl)
    · exact quietCode_nil
  unfold allocatingAlu
  dsimp only
  rw [← List.append_assoc]
  refine (operations_append (QuietCode.append ?_ (hcopy _ _ _))).trans (h _ _)
  exact ((quietCode_getReg _ _ _ _).append (quietCode_getReg _ _ _ _)).append
    (quietCode_getReg _ _ _ _)

theorem sweep_regReg {opcode : Byte} (h : opcode ∈ aluOpcodes) (d m : Byte) :
    sweep (regReg opcode d m).length (regReg opcode d m) =
      [.alu (aluOp (opcode.extractLsb' 3 3)) .b64 (.reg (toGpr m)) (.reg (toGpr d))] := by
  have hdec := decode_regReg d m [] h
  rw [List.append_nil] at hdec
  exact sweep_of_decode hdec

theorem operations_regReg {opcode : Byte} (h : opcode ∈ aluOpcodes) (d m : Byte) :
    operations [regReg opcode d m] = [.combine (aluOp (opcode.extractLsb' 3 3)) false] := by
  rw [operations, operationsFrom_cons (sweep_regReg h d m)]
  rfl

theorem operations_complement {opcode : Byte} (h : opcode ∈ aluOpcodes) (d m : Byte) :
    operations [notR64 m, regReg opcode d m] =
      [.combine (aluOp (opcode.extractLsb' 3 3)) true] := by
  have hdec := decode_notR64 [] m
  rw [List.append_nil] at hdec
  rw [operations, operationsFrom_cons (sweep_of_decode hdec), operationsFrom,
    operationsFrom_cons (sweep_regReg h d m), operationsFrom, beq_self_eq_true, Bool.true_or]
  rfl

theorem operations_addSub (a : Alloc) (isSub : Bool) :
    operations (translateAddSub a op isSub).2 = [.combine (if isSub then .sub else .add) false] := by
  rw [translateAddSub_eq]
  apply operations_allocatingAlu
  intro d m
  cases isSub
  · exact operations_regReg (by decide) d m
  · exact operations_regReg (by decide) d m

/-- The operations of `translate_logical`, by its two opcode bits. -/
def logicalOperation (opcode : BitVec 2) : Operation :=
  .combine (if opcode.getLsbD 1 then .or else .and) (opcode.getLsbD 0)

theorem operations_logical (a : Alloc) :
    operations (translateLogical a op).2 = [logicalOperation (op.extractLsb' 29 2)] := by
  rw [translateLogical_eq]
  apply operations_allocatingAlu
  intro d m
  generalize op.extractLsb' 29 2 = opcode
  have hcases : ∀ c : BitVec 2, c = 0#2 ∨ c = 1#2 ∨ c = 2#2 ∨ c = 3#2 := by decide
  rcases hcases opcode with rfl | rfl | rfl | rfl
  · exact operations_regReg (by decide) d m
  · exact operations_complement (by decide) d m
  · exact operations_regReg (by decide) d m
  · exact operations_complement (by decide) d m

/-- `translate_orn` complements `EBX`, which its operation does not read. -/
theorem operations_orn : operations (translateOrn op) = [.combine .or false] := by
  have hloads : QuietCode (loadPair (armReg op 5) (armReg op 16) (is64 op)) :=
    (quietCode_load _ _ _).append (quietCode_load _ _ _)
  have hstore := quietCode_store (armReg op 0) rax (is64 op)
  rw [translateOrn, viaRaxR11, List.append_assoc, operations_append hloads]
  generalize is64 op = w at hstore ⊢
  have hnot : X86.decode ((if w = true then [rexRm 0 (r11 >>> 3)] else []) ++
      [0xf7, modrm 3 2 (r11 &&& 7)]) = some (.not .b32 (.reg 3), []) := by
    cases w <;> rfl
  show operationsFrom none (instrs (_ :: regReg 0x09 rax r11 :: [emitStoreArmReg rax _ w])) = _
  rw [operationsFrom_cons (sweep_of_decode hnot), operationsFrom,
    operationsFrom_cons (sweep_regReg (by decide) _ _), operationsFrom]
  have hquiet := operationsFrom_append hstore none []
  rw [List.append_nil] at hquiet
  rw [hquiet]
  rfl

end Translators

section Accesses

variable {op : BitVec 32}

/-- The accesses of the single and paired translators have eight bytes, whatever the offset. -/
theorem decode_raxAccess (reg : Byte) (imm : BitVec 32) (rest : List Byte) :
    X86.decode (raxAccess [rexR reg rax, 0x8b] reg imm ++ rest) =
        some (.mov .b64 (.reg (toGpr reg)) (.mem (some 0) none (imm.signExtend 64)), rest) ∧
      X86.decode (raxAccess [rexR reg rax, 0x89] reg imm ++ rest) =
        some (.mov .b64 (.mem (some 0) none (imm.signExtend 64)) (.reg (toGpr reg)), rest) := by
  have hb : (rexPrefixes reg rax).b = false := rexPrefixes_b reg rax
  have hrm := takeRm_modrmDisp (rexPrefixes reg rax) .b64 (reg &&& 7#8) imm rest
  rw [hb] at hrm
  have hbase : gpr false 0#3 = 0 := rfl
  have hreg := takeReg_modrmDisp (rexPrefixes reg rax) (reg &&& 7#8) imm rest
  unfold raxAccess X86.decode
  simp only [List.cons_append, List.nil_append]
  rw [takePrefixes_rexR _ _ rfl, takePrefixes_rexR _ _ rfl]
  constructor <;> simp [decodeOpcode, hrm, hreg, hbase, X86.regAt, opSize]

theorem operationsFrom_load (reg : Byte) (imm : BitVec 32) (cs : List Code)
    (flipped : Option Loc) :
    operationsFrom flipped (instrs (raxAccess [rexR reg rax, 0x8b] reg imm :: cs)) =
      .access true 8 :: operationsFrom flipped (instrs cs) := by
  have hdec := (decode_raxAccess reg imm []).1
  rw [List.append_nil] at hdec
  rw [operationsFrom_cons (sweep_of_decode hdec)]
  rfl

theorem operationsFrom_store (reg : Byte) (imm : BitVec 32) (cs : List Code)
    (flipped : Option Loc) :
    operationsFrom flipped (instrs (raxAccess [rexR reg rax, 0x89] reg imm :: cs)) =
      .access false 8 :: operationsFrom flipped (instrs cs) := by
  have hdec := (decode_raxAccess reg imm []).2
  rw [List.append_nil] at hdec
  rw [operationsFrom_cons (sweep_of_decode hdec)]
  rfl

theorem operationsFrom_quiet_cons {c : Code} (h : QuietCode [c]) (cs : List Code)
    (flipped : Option Loc) :
    operationsFrom flipped (instrs (c :: cs)) = operationsFrom flipped (instrs cs) := by
  have happend := operationsFrom_append h flipped (instrs cs)
  rwa [instrs, instrs, ← List.flatMap_append] at happend

theorem operations_ldrStr (imm : BitVec 32) :
    operations (translateLdrStr op imm) = [.access (op.getLsbD 22) 8] := by
  rw [translateLdrStr, operations, operationsFrom_quiet_cons (quietCode_load _ _ _)]
  cases op.getLsbD 22
  · rw [if_neg Bool.false_ne_true, operationsFrom_quiet_cons (quietCode_load _ _ _),
      operationsFrom_store]
    rfl
  · rw [if_pos rfl, operationsFrom_load,
      operationsFrom_quiet_cons (quietCode_store _ _ _)]
    rfl

theorem operations_ldpStp (imm : BitVec 32) :
    operations (translateLdpStp op imm) =
      [.access (op.getLsbD 31) 8, .access (op.getLsbD 31) 8] := by
  rw [translateLdpStp, operations, operationsFrom_quiet_cons (quietCode_load _ _ _)]
  cases op.getLsbD 31
  · rw [if_neg Bool.false_ne_true, operationsFrom_quiet_cons (quietCode_load _ _ _),
      operationsFrom_store, operationsFrom_quiet_cons (quietCode_load _ _ _),
      operationsFrom_store]
    rfl
  · rw [if_pos rfl, operationsFrom_load,
      operationsFrom_quiet_cons (quietCode_store _ _ _), operationsFrom_load,
      operationsFrom_quiet_cons (quietCode_store _ _ _)]
    rfl

theorem operations_ldrLiteral (pc : BitVec 64) :
    operations (translateLdrLiteral pc op) = [.access true (if op.getLsbD 30 then 8 else 4)] := by
  have himm : ∀ v, QuietCode [movR64Imm rax v] := by
    intro v
    have hdec : ∃ imm, X86.decode (movR64Imm rax v) = some (.movImm .b64 (.reg 0) imm, []) := by
      have hbytes : movR64Imm rax v = 0x48 :: 0xb8 :: imm64 v := rfl
      rw [hbytes, X86.decode, takePrefixes_rexW _ rfl rfl]
      simp [decodeOpcode, imm64, take64, Prefixes.w, Prefixes.size, Prefixes.b, gpr]
    obtain ⟨imm, hdec⟩ := hdec
    exact quietCode_singleton hdec fun _ _ ↦ rfl
  rw [translateLdrLiteral, operations, operationsFrom_quiet_cons (himm _)]
  cases op.getLsbD 30
  · have hdec : X86.decode ((if false = true then [rexR 1 (r11 >>> 3)] else []) ++
        [0x8b, modrm 0 (r11 &&& 7) (rax &&& 7)]) =
        some (.mov .b32 (.reg 3) (.mem (some 0) none 0), []) := rfl
    rw [operationsFrom_cons (sweep_of_decode hdec), operationsFrom]
    simp only [throughRax, beq_self_eq_true, if_true]
    rw [operationsFrom_quiet_cons (quietCode_store _ _ _)]
    rfl
  · have hdec : X86.decode ((if true = true then [rexR 1 (r11 >>> 3)] else []) ++
        [0x8b, modrm 0 (r11 &&& 7) (rax &&& 7)]) =
        some (.mov .b64 (.reg 3) (.mem (some 0) none 0), []) := rfl
    rw [operationsFrom_cons (sweep_of_decode hdec), operationsFrom]
    simp only [throughRax, beq_self_eq_true, if_true]
    rw [operationsFrom_quiet_cons (quietCode_store _ _ _)]
    rfl

end Accesses

section Classes

variable {env : Env} {t : TranslateCtx} {op : BitVec 32}

/-- A translator that records its address emits its code. -/
theorem emittedFor_straight {code : List Code}
    (h : translateOne env t (decode op).instrType op (decode op).imm = t.straight code) :
    emittedFor env t op = code := by
  apply emittedFor_eq
  rw [h, TranslateCtx.straight]
  show t.pcMapAdd.out ++ _ = _
  rw [pcMapAdd_out]

theorem emittedFor_allocating {f : Alloc → Alloc × List Code}
    (h : translateOne env t (decode op).instrType op (decode op).imm = t.allocating f) :
    emittedFor env t op = (f t.alloc).2 := by
  apply emittedFor_eq
  rw [h, TranslateCtx.allocating]
  show t.pcMapAdd.out ++ _ = _
  rw [pcMapAdd_out]

theorem operationsAgree_of_named {type : InstrType} {ops : List Operation}
    (htype : (decode op).instrType = type)
    (h : namedOperations type (decode op).is64bit = some ops) :
    OperationsAgree env t op ↔ operations (emittedFor env t op) = ops := by
  rw [OperationsAgree, htype, h]
  exact ⟨fun hall ↦ hall ops rfl, fun heq x hx ↦ heq.trans (Option.some.inj hx)⟩

theorem operationsAgree_of_unnamed
    (h : namedOperations (decode op).instrType (decode op).is64bit = none) :
    OperationsAgree env t op := by
  rw [OperationsAgree, h]
  exact nofun

theorem decode_addSub (h : Diagram.Matches ⟨0x1fe00000, 0x0b000000⟩ op) :
    (decode op).instrType = if op.extractLsb' 30 2 == 0 then .add else .sub := by
  simp (disch := decide) only [decode, decodeRest, decodeDpRegister, maskEq_conflict h,
    maskEq_covered h, beq_conflict h, Bool.or_false, Bool.false_eq_true, if_false, if_true,
    Option.getD_none]

/-- The kinds of the logical instructions, by their two opcode bits. -/
def logicalType (opc : BitVec 2) : InstrType :=
  if opc == 0 then .and else if opc == 1 then .bic else if opc == 2 then .orr else .orn

theorem decode_logical (h : Diagram.Matches ⟨0x1fe00000, 0x0a000000⟩ op ∨
    Diagram.Matches ⟨0x1f800000, 0x12000000⟩ op) :
    (decode op).instrType = logicalType (op.extractLsb' 29 2) := by
  rcases h with h | h <;>
    simp (disch := decide) only [decode, decodeRest, decodeDpRegister, maskEq_conflict h,
      maskEq_covered h, beq_conflict h, Bool.or_false, Bool.true_or, Bool.false_eq_true, if_false,
      if_true, Option.getD_none, logicalType]

theorem agree_addSub (h : Diagram.Matches ⟨0x1fe00000, 0x0b000000⟩ op) :
    OperationsAgree env t op ↔ (op.getLsbD 29 = true ↔ op.extractLsb' 30 2 ≠ 0) := by
  have htype := decode_addSub h
  have hemit : emittedFor env t op = (translateAddSub t.alloc op (op.getLsbD 29)).2 := by
    apply emittedFor_allocating (f := fun a ↦ translateAddSub a op (op.getLsbD 29))
    rw [htype]
    split <;> rfl
  by_cases hadd : (op.extractLsb' 30 2 == 0) = true
  · rw [if_pos hadd] at htype
    rw [operationsAgree_of_named htype rfl, hemit, operations_addSub]
    cases op.getLsbD 29 <;> simp [beq_iff_eq.mp hadd]
  · rw [if_neg hadd] at htype
    rw [operationsAgree_of_named htype rfl, hemit, operations_addSub]
    cases op.getLsbD 29 <;> simpa using hadd

/-- All kinds but `ORN` are translated to the operation of the opcode bits. -/
private theorem logicalType_named : ∀ opc : BitVec 2, opc ≠ 3 → ∀ w,
    namedOperations (logicalType opc) w = some [logicalOperation opc] ∧
      (logicalType opc = .and ∨ logicalType opc = .bic ∨ logicalType opc = .orr) := by
  decide

theorem agree_logical (h : Diagram.Matches ⟨0x1fe00000, 0x0a000000⟩ op ∨
    Diagram.Matches ⟨0x1f800000, 0x12000000⟩ op) :
    OperationsAgree env t op ↔ op.extractLsb' 29 2 ≠ 3 := by
  have htype := decode_logical h
  by_cases hopc : op.extractLsb' 29 2 = 3
  · rw [hopc] at htype
    have hemit : emittedFor env t op = translateOrn op := by
      apply emittedFor_straight
      rw [htype]
      rfl
    rw [operationsAgree_of_named htype rfl, hemit, operations_orn, hopc]
    decide
  · obtain ⟨hnamed, hkind⟩ := logicalType_named _ hopc (decode op).is64bit
    have hemit : emittedFor env t op = (translateLogical t.alloc op).2 := by
      apply emittedFor_allocating (f := fun a ↦ translateLogical a op)
      rw [htype]
      rcases hkind with hk | hk | hk <;> rw [hk] <;> rfl
    rw [operationsAgree_of_named htype hnamed, hemit, operations_logical]
    exact iff_of_true rfl hopc

variable (env t) in
/-- The single accesses, which have eight bytes whatever the decoder finds. -/
theorem agree_single (h : Diagram.Matches ⟨0x0a000000, 0x08000000⟩ op)
    (htype : (decodeLoadstore op).instrType = if op.getLsbD 22 then .ldr else .str) :
    OperationsAgree env t op ↔ (decodeLoadstore op).is64bit = true := by
  rw [← decode_loadStore h] at htype ⊢
  have hemit : emittedFor env t op = translateLdrStr op (decode op).imm := by
    apply emittedFor_straight
    rw [htype]
    split <;> rfl
  have hops : operations (translateLdrStr op (decode op).imm) = [.access (op.getLsbD 22) 8] :=
    operations_ldrStr _
  cases hload : op.getLsbD 22 <;> rw [hload] at htype hops
  · rw [operationsAgree_of_named htype rfl, hemit, hops]
    cases (decode op).is64bit <;> decide
  · rw [operationsAgree_of_named htype rfl, hemit, hops]
    cases (decode op).is64bit <;> decide

/-- A pair is decoded as a store of two words and translated as two accesses of eight bytes. -/
theorem agree_pair {c : BitVec 32} (hc : c = 0x28800000 ∨ c = 0x29800000)
    (h : Diagram.Matches ⟨0x7fc00000, c⟩ op) : ¬ OperationsAgree env t op := by
  obtain ⟨htype, hwidth, -⟩ := decode_pair hc h
  have hemit : emittedFor env t op = translateLdpStp op (decode op).imm := by
    apply emittedFor_straight
    rw [htype]
    rfl
  rw [operationsAgree_of_named htype rfl, hemit, operations_ldpStp, hwidth]
  cases op.getLsbD 31 <;> decide

theorem agree_literal (h : Diagram.Matches ⟨0xbf000000, 0x18000000⟩ op) :
    OperationsAgree env t op := by
  have hdecode : decode op = decodeLoadstore op := decode_loadStore (h.covered rfl rfl)
  simp (disch := decide) only [decodeLoadstore, maskEq_conflict h, maskEq_covered h,
    Bool.false_eq_true, if_false, if_true] at hdecode
  have htype := congrArg DecodedInstruction.instrType hdecode
  have hwidth := congrArg DecodedInstruction.is64bit hdecode
  dsimp only at htype hwidth
  cases hload : op.getLsbD 22 <;> rw [hload] at htype
  · apply operationsAgree_of_unnamed
    rw [htype]
    rfl
  · have hemit : emittedFor env t op = translateLdrLiteral t.arm64Cur op := by
      apply emittedFor_straight
      rw [htype]
      rfl
    rw [operationsAgree_of_named htype rfl, hemit, operations_ldrLiteral, hwidth]

end Classes

section Others

variable {op : BitVec 32}

/-- Whether a kind names operations. -/
def InstrType.named (type : InstrType) : Bool := (namedOperations type true).isSome

theorem namedOperations_eq_none {type : InstrType} (h : type.named = false) (w : Bool) :
    namedOperations type w = none := by
  cases type <;> first
    | rfl
    | cases h

theorem bitfieldType_unnamed (n : Bool) (opc : BitVec 2) (imm shiftImm : BitVec 6) :
    (bitfieldType n opc imm shiftImm).named = false := by
  unfold bitfieldType
  simp only [apply_ite InstrType.named]
  simp [InstrType.named, namedOperations]

theorem neonType_unnamed (opcode : BitVec 6) :
    (neonIntType opcode).named = false ∧ (neonFpType opcode).named = false := by
  unfold neonIntType neonFpType
  simp only [apply_ite InstrType.named]
  simp [InstrType.named, namedOperations]

theorem decodeSystem_unnamed {d : DecodedInstruction} (h : decodeSystem op = some d) :
    d.instrType.named = false := by
  unfold decodeSystem at h
  repeat' split at h
  all_goals
    cases h
    try rfl
  dsimp only
  split <;> rfl

/-- Outside the two classes of logical instructions and that of additions and subtractions,
`decode_dp_register` names no operation. -/
theorem decodeDpRegister_unnamed (hadd : ¬ Diagram.Matches ⟨0x1fe00000, 0x0b000000⟩ op)
    (hshifted : ¬ Diagram.Matches ⟨0x1fe00000, 0x0a000000⟩ op)
    (himm : ¬ Diagram.Matches ⟨0x1f800000, 0x12000000⟩ op) :
    (decodeDpRegister op).instrType.named = false := by
  have hsecond : maskEq op 0x7f800000 0x32000000 = false := by
    rw [← Bool.not_eq_true, maskEq_iff]
    exact fun h ↦ himm (h.covered rfl rfl)
  rw [← maskEq_iff, Bool.not_eq_true] at hadd hshifted himm
  unfold decodeDpRegister
  simp only [hadd, hshifted, himm, hsecond, Bool.or_false, Bool.false_eq_true, if_false,
    apply_ite DecodedInstruction.instrType, apply_ite InstrType.named, bitfieldType_unnamed]
  simp [InstrType.named, namedOperations]

/-- The other words name no operation. -/
theorem decode_unnamed (hload : ¬ Diagram.Matches ⟨0x0a000000, 0x08000000⟩ op)
    (hadd : ¬ Diagram.Matches ⟨0x1fe00000, 0x0b000000⟩ op)
    (hshifted : ¬ Diagram.Matches ⟨0x1fe00000, 0x0a000000⟩ op)
    (himm : ¬ Diagram.Matches ⟨0x1f800000, 0x12000000⟩ op) : (decode op).instrType.named = false := by
  have hgroup : ∀ m v : BitVec 32, m &&& 0x0a000000 = 0x0a000000 → v &&& 0x0a000000 = 0x08000000 →
      maskEq op m v = false := by
    intro m v hm hv
    rw [← Bool.not_eq_true, maskEq_iff]
    exact fun h ↦ hload (h.covered hm hv)
  have hrest : (decodeRest op).instrType.named = false := by
    unfold decodeRest
    simp only [hgroup 0x0a000000 0x08000000 rfl rfl, hgroup 0x3b000000 0x28000000 rfl rfl,
      hgroup 0x3b000000 0x38000000 rfl rfl, hgroup 0x3b000000 0x39000000 rfl rfl, Bool.or_false,
      Bool.false_eq_true, if_false, apply_ite DecodedInstruction.instrType,
      apply_ite InstrType.named, neonType_unnamed, decodeDpRegister_unnamed hadd hshifted himm]
    simp [InstrType.named, namedOperations]
  have hsystem : (((if maskEq op 0xff000000 0xd5000000 then decodeSystem op else none).getD
      (decodeRest op)).instrType).named = false := by
    cases hs : if maskEq op 0xff000000 0xd5000000 then decodeSystem op else none with
    | none => exact hrest
    | some d =>
      split at hs
      · exact decodeSystem_unnamed hs
      · cases hs
  unfold decode
  simp only [apply_ite DecodedInstruction.instrType, apply_ite InstrType.named, hsystem]
  simp [InstrType.named, namedOperations]

end Others

section Agreement

variable {env : Env} {t : TranslateCtx} {op : BitVec 32}

/-- A load or store agrees when it is of no class that fails. -/
theorem agree_loadStore (h : Diagram.Matches ⟨0x0a000000, 0x08000000⟩ op) :
    OperationsAgree env t op ↔ AgreementExact op := by
  have hexact : AgreementExact op ↔
      (Diagram.Matches ⟨0x3b200c00, 0x38000000⟩ op → op.getLsbD 31 = true) ∧
      (Diagram.Matches ⟨0x3b000000, 0x39000000⟩ op → op.extractLsb' 30 2 = 3) ∧
      ¬ Diagram.Matches ⟨0x7fc00000, 0x28800000⟩ op ∧
      ¬ Diagram.Matches ⟨0x7fc00000, 0x29800000⟩ op := by
    constructor
    · intro he
      exact ⟨he.unscaled, he.unsignedOffset, he.pairPost, he.pairPre⟩
    · rintro ⟨hunscaled, hunsigned, hpost, hpre⟩
      exact ⟨fun hc ↦ absurd hc (h.conflict (by decide)),
        fun hc ↦ absurd hc (h.conflict (by decide)), fun hc ↦ absurd hc (h.conflict (by decide)),
        hunscaled, hunsigned, hpost, hpre⟩
  rw [hexact]
  by_cases hunscaled : Diagram.Matches ⟨0x3b200c00, 0x38000000⟩ op
  · have hsingle := agree_single env t h (by
      simp (disch := decide) only [decodeLoadstore, maskEq_covered hunscaled, if_true])
    rw [hsingle]
    simp (disch := decide) only [decodeLoadstore, maskEq_covered hunscaled, if_true, hunscaled,
      forall_const, hunscaled.conflict, false_implies, not_false_eq_true, and_true]
  by_cases hunsigned : Diagram.Matches ⟨0x3b000000, 0x39000000⟩ op
  · have hsingle := agree_single env t h (by
      simp (disch := decide) only [decodeLoadstore, maskEq_conflict hunsigned,
        maskEq_covered hunsigned, Bool.false_eq_true, if_false, if_true])
    rw [hsingle]
    simp (disch := decide) only [decodeLoadstore, maskEq_conflict hunsigned,
      maskEq_covered hunsigned, Bool.false_eq_true, if_false, if_true, hunscaled, hunsigned,
      forall_const, hunsigned.conflict, false_implies, not_false_eq_true, and_true, true_and,
      beq_iff_eq]
  by_cases hpair : Diagram.Matches ⟨0x7fc00000, 0x28800000⟩ op ∨
      Diagram.Matches ⟨0x7fc00000, 0x29800000⟩ op
  · refine iff_of_false ?_ fun hall ↦ hpair.elim hall.2.2.1 hall.2.2.2
    exact hpair.elim (agree_pair (Or.inl rfl)) (agree_pair (Or.inr rfl))
  rw [not_or] at hpair
  have hagree : OperationsAgree env t op := by
    by_cases hliteral : Diagram.Matches ⟨0xbf000000, 0x18000000⟩ op
    · exact agree_literal hliteral
    · apply operationsAgree_of_unnamed
      rw [decode_loadStore h]
      simp only [decodeLoadstore, Bool.eq_false_iff.mpr (maskEq_iff.not.mpr hunscaled),
        Bool.eq_false_iff.mpr (maskEq_iff.not.mpr hunsigned),
        Bool.eq_false_iff.mpr (maskEq_iff.not.mpr hliteral),
        Bool.eq_false_iff.mpr (maskEq_iff.not.mpr hpair.1),
        Bool.eq_false_iff.mpr (maskEq_iff.not.mpr hpair.2), Bool.or_false, Bool.false_eq_true,
        if_false]
      rfl
  exact iff_of_true hagree ⟨fun hc ↦ absurd hc hunscaled, fun hc ↦ absurd hc hunsigned, hpair⟩

/-- The emitted operations are the named ones exactly when the fields that are extracted twice agree
and the translator has the operation. -/
theorem operationsAgree_iff (env : Env) (t : TranslateCtx) (op : BitVec 32) :
    OperationsAgree env t op ↔ AgreementExact op := by
  by_cases hload : Diagram.Matches ⟨0x0a000000, 0x08000000⟩ op
  · exact agree_loadStore hload
  have hunscaled : ¬ Diagram.Matches ⟨0x3b200c00, 0x38000000⟩ op :=
    fun hc ↦ hload (hc.covered rfl rfl)
  have hunsigned : ¬ Diagram.Matches ⟨0x3b000000, 0x39000000⟩ op :=
    fun hc ↦ hload (hc.covered rfl rfl)
  have hpost : ¬ Diagram.Matches ⟨0x7fc00000, 0x28800000⟩ op :=
    fun hc ↦ hload (hc.covered rfl rfl)
  have hpre : ¬ Diagram.Matches ⟨0x7fc00000, 0x29800000⟩ op :=
    fun hc ↦ hload (hc.covered rfl rfl)
  by_cases hadd : Diagram.Matches ⟨0x1fe00000, 0x0b000000⟩ op
  · rw [agree_addSub hadd]
    constructor
    · intro hbit
      exact ⟨fun _ ↦ hbit, fun hc ↦ absurd hc (hadd.conflict (by decide)),
        fun hc ↦ absurd hc (hadd.conflict (by decide)), fun hc ↦ absurd hc hunscaled,
        fun hc ↦ absurd hc hunsigned, hpost, hpre⟩
    · intro he
      exact he.addSub hadd
  by_cases hlogical : Diagram.Matches ⟨0x1fe00000, 0x0a000000⟩ op ∨
      Diagram.Matches ⟨0x1f800000, 0x12000000⟩ op
  · rw [agree_logical hlogical]
    constructor
    · intro hopc
      exact ⟨fun hc ↦ absurd hc hadd, fun _ ↦ hopc, fun _ ↦ hopc, fun hc ↦ absurd hc hunscaled,
        fun hc ↦ absurd hc hunsigned, hpost, hpre⟩
    · intro he
      exact hlogical.elim he.logicalShifted he.logicalImmediate
  rw [not_or] at hlogical
  have hnone := decode_unnamed hload hadd hlogical.1 hlogical.2
  apply iff_of_true
  · exact operationsAgree_of_unnamed (namedOperations_eq_none hnone _)
  · exact ⟨fun hc ↦ absurd hc hadd, fun hc ↦ absurd hc hlogical.1, fun hc ↦ absurd hc hlogical.2,
      fun hc ↦ absurd hc hunscaled, fun hc ↦ absurd hc hunsigned, hpost, hpre⟩

/-- `SUB W0, W1, W2` is decoded as a subtraction and translated to an addition. -/
theorem sub_emitted_add :
    ¬ OperationsAgree Env.default (startCtx Stack.zero (Block.ofWords 0 [0x4b020020]) 0)
      0x4b020020 := by
  intro h
  have hops := h [.combine .sub false] (by decide)
  revert hops
  decide +kernel

end Agreement

end Arm2x86.Translate
