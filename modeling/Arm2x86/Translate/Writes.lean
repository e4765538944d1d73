import Arm2x86.Translate.Block
import Arm2x86.X86.RoundTrip

/-!
# Which emitted instructions write `RBP`

The bytes of an emitted instruction are read back with the decoder of the host. No integer, memory
or system translator outside the register allocator emits a write to `RBP`.
-/

namespace Arm2x86.Translate

open X86

/-- Whether some instruction the bytes decode to writes `RBP`. -/
def writesRbp (c : Code) : Bool := (sweep c.length c).any fun i ↦ i.dests.contains 5

/-- Whether none of some emitted instructions writes `RBP`. -/
def keeps (code : List Code) : Bool := code.all fun c ↦ !writesRbp c

/-- Bytes that are one instruction. -/
theorem sweep_of_decode {c : Code} {i : Instr} (h : X86.decode c = some (i, [])) :
    sweep c.length c = [i] := by
  cases c with
  | nil => cases h
  | cons b c =>
    rw [List.length_cons, sweep, h]
    have hnil : ∀ fuel, sweep fuel [] = [] := fun fuel ↦ by cases fuel <;> rfl
    simp [hnil]

theorem writesRbp_of_decode {c : Code} {i : Instr} (h : X86.decode c = some (i, [])) :
    writesRbp c = i.dests.contains 5 := by
  rw [writesRbp, sweep_of_decode h]
  exact Bool.or_false _

@[simp] theorem keeps_nil : keeps [] = true := rfl

@[simp] theorem keeps_cons (c : Code) (code : List Code) :
    keeps (c :: code) = (!writesRbp c && keeps code) := rfl

@[simp] theorem keeps_append (code code' : List Code) :
    keeps (code ++ code') = (keeps code && keeps code') := List.all_append

theorem keeps_flatMap {α : Type} {f : α → List Code} {b : Bool} (h : ∀ x, keeps (f x) = b)
    {l : List α} (hl : l ≠ []) : keeps (l.flatMap f) = b := by
  induction l with
  | nil => exact absurd rfl hl
  | cons x l ih =>
    rw [List.flatMap_cons, keeps_append, h x]
    cases l with
    | nil => simp
    | cons y l => rw [ih (List.cons_ne_nil y l), Bool.and_self]

section Operands

/-- The condition codes of the table, as two-byte jump opcodes. -/
theorem condAt_jcc (op : BitVec 32) : (0x80 ||| condAt op) &&& 0xf0 = 0x80 := by
  have key : ∀ c : BitVec 4, (0x80 ||| arm64ToX86Cond c) &&& 0xf0 = 0x80 := by decide
  exact key _

/-- A conditional jump, whatever its condition, writes no general register. -/
theorem writesRbp_jcc {opcode : Byte} (h : opcode &&& 0xf0 = 0x80) (v : BitVec 32) :
    writesRbp (0x0f :: opcode :: imm32 v) = false := by
  have key : ∀ o : Byte, o &&& 0xf0 = 0x80 → o ∈ ([0x80, 0x81, 0x82, 0x83, 0x84, 0x85, 0x86, 0x87,
      0x88, 0x89, 0x8a, 0x8b, 0x8c, 0x8d, 0x8e, 0x8f] : List Byte) := by decide
  have hmem := key opcode h
  simp only [List.mem_cons, List.not_mem_nil, or_false] at hmem
  rcases hmem with rfl | rfl | rfl | rfl | rfl | rfl | rfl | rfl | rfl | rfl | rfl | rfl | rfl |
    rfl | rfl | rfl
  all_goals rfl

theorem keeps_jccOver {opcode : Byte} (h : opcode &&& 0xf0 = 0x80) (body : List Code) :
    keeps (jccOver opcode body) = keeps body := by
  rw [jccOver, keeps_cons, writesRbp_jcc h]
  rfl

@[simp] theorem keeps_jccOver_condAt (op : BitVec 32) (body : List Code) :
    keeps (jccOver (0x80#8 ||| condAt op) body) = keeps body := keeps_jccOver (condAt_jcc op) body

/-- A condition that is not "always", inverted. -/
theorem condAt_inverted {c : BitVec 4} (h : arm64ToX86Cond c ≠ 0) :
    (arm64ToX86Cond c ^^^ 1) &&& 0xf0 = 0x80 := by
  have key : ∀ c : BitVec 4, arm64ToX86Cond c ≠ 0 → (arm64ToX86Cond c ^^^ 1) &&& 0xf0 = 0x80 := by
    decide
  exact key c h

end Operands

section Integer

variable (op : BitVec 32)

@[simp] theorem writesRbp_load_rax (r : ArmReg) (w : Bool) :
    writesRbp (emitLoadArmReg r rax w) = false := by cases w <;> rfl

@[simp] theorem writesRbp_load_r11 (r : ArmReg) (w : Bool) :
    writesRbp (emitLoadArmReg r r11 w) = false := by cases w <;> rfl

@[simp] theorem writesRbp_store_rax (r : ArmReg) (w : Bool) :
    writesRbp (emitStoreArmReg rax r w) = false := by cases w <;> rfl

@[simp] theorem writesRbp_store_r11 (r : ArmReg) (w : Bool) :
    writesRbp (emitStoreArmReg r11 r w) = false := by cases w <;> rfl

@[simp] theorem keeps_viaRax (rn rd : ArmReg) (w : Bool) (body : List Code) :
    keeps (viaRax rn rd w body) = keeps body := by
  simp [viaRax]

@[simp] theorem keeps_loadPair (rn rm : ArmReg) (w : Bool) : keeps (loadPair rn rm w) := by
  cases w <;> rfl

@[simp] theorem keeps_viaRaxR11 (rn rm rd : ArmReg) (w : Bool) (body : List Code) :
    keeps (viaRaxR11 rn rm rd w body) = keeps body := by
  simp [viaRaxR11]

@[simp] theorem keeps_translateCmp : keeps (translateCmp op) := by
  simp only [translateCmp, keeps_append, keeps_loadPair]
  rfl

@[simp] theorem keeps_translateTst : keeps (translateTst op) := by
  simp only [translateTst, keeps_append, keeps_loadPair]
  rfl

@[simp] theorem keeps_translateCmn : keeps (translateCmn op) := by
  simp only [translateCmn, keeps_append, keeps_loadPair]
  rfl

@[simp] theorem keeps_translateCsel : keeps (translateCsel op) := by
  unfold translateCsel
  dsimp only
  split
  · simp
  · split
    · simp
    · next h _ =>
      have hcc : (condAt op ^^^ 1) &&& 0xf0 = 0x80 := condAt_inverted (by simpa [condAt] using h)
      rw [keeps_append, keeps_jccOver hcc, keeps_viaRax, keeps_viaRax]
      rfl

@[simp] theorem keeps_translateMul : keeps (translateMul op) := by
  simp only [translateMul, keeps_viaRaxR11]
  rfl

@[simp] theorem keeps_translateDiv : keeps (translateDiv op) := by
  have hzero (w : Bool) : byteCount [xorR64R64 rax rax, emitStoreArmReg rax (armReg op 0) w] =
      if w then 10 else 9 := by cases w <;> rfl
  simp only [translateDiv, hzero]
  rw [keeps_append, keeps_loadPair, keeps_cons, keeps_append, keeps_jccOver rfl]
  generalize op.getLsbD 11 = s
  cases is64 op <;> cases s <;> rfl

@[simp] theorem keeps_translateShift : keeps (translateShift op) := by
  simp only [translateShift, keeps_viaRax]
  split <;> [rfl; (split <;> [rfl; (split <;> rfl)])]

@[simp] theorem keeps_translateAdc : keeps (translateAdc op) := by
  simp only [translateAdc, keeps_viaRaxR11]
  rfl

@[simp] theorem keeps_translateSbc : keeps (translateSbc op) := by
  simp only [translateSbc, keeps_viaRaxR11]
  rfl

@[simp] theorem writesRbp_unaryRax (w : Bool) (ext : Byte) (h : ext = 2 ∨ ext = 3) :
    writesRbp (unaryRax w ext) = false := by
  rcases h with rfl | rfl <;> cases w <;> rfl

@[simp] theorem keeps_translateNeg : keeps (translateNeg op) := by simp [translateNeg]

@[simp] theorem keeps_translateRsb : keeps (translateRsb op) := by
  simp only [translateRsb, keeps_viaRaxR11]
  rfl

@[simp] theorem keeps_translateMvn : keeps (translateMvn op) := by simp [translateMvn]

@[simp] theorem keeps_translateRorImm : keeps (translateRorImm op) := by
  simp only [translateRorImm, keeps_viaRax]
  rfl

@[simp] theorem keeps_translateExtr : keeps (translateExtr op) := by
  unfold translateExtr
  generalize is64 op = w
  dsimp only
  split <;> rw [keeps_viaRax] <;> cases w <;> rfl

@[simp] theorem keeps_translateMadd : keeps (translateMadd op) := by
  simp only [translateMadd, keeps_viaRaxR11]
  cases is64 op <;> rfl

@[simp] theorem keeps_translateMsub : keeps (translateMsub op) := by
  simp only [translateMsub, keeps_viaRaxR11]
  cases is64 op <;> rfl

@[simp] theorem keeps_translateSmulh : keeps (translateSmulh op) := rfl

@[simp] theorem keeps_translateUmulh : keeps (translateUmulh op) := rfl

@[simp] theorem keeps_translateSbfm : keeps (translateSbfm op) := by
  simp only [translateSbfm, keeps_viaRax]
  generalize op.getLsbD 22 = n
  split
  · cases n <;> rfl
  · rfl

@[simp] theorem keeps_translateUbfm : keeps (translateUbfm op) := by
  simp only [translateUbfm, keeps_viaRax]
  generalize op.getLsbD 22 = n
  split
  · cases n <;> rfl
  · rfl

theorem keeps_insertField (mask : BitVec 64) (ext : Byte) (h : ext = 4 ∨ ext = 5) :
    keeps (insertField op mask (shiftImm8 ext)) := by
  unfold insertField
  rw [keeps_viaRax]
  generalize is64 op = w
  rcases h with rfl | rfl <;> cases w <;> rfl

@[simp] theorem keeps_translateBfi {code : List Code} (h : translateBfi op = some code) : keeps code := by
  unfold translateBfi at h
  split at h
  · cases h
  · obtain rfl := Option.some.inj h
    exact keeps_insertField op _ 4 (.inl rfl)

@[simp] theorem keeps_translateBfxil {code : List Code} (h : translateBfxil op = some code) :
    keeps code := by
  unfold translateBfxil at h
  split at h
  · cases h
  · obtain rfl := Option.some.inj h
    exact keeps_insertField op _ 5 (.inr rfl)

@[simp] theorem keeps_translateBfc : keeps (translateBfc op) := by
  simp only [translateBfc, keeps_viaRax]
  rfl

@[simp] theorem keeps_setNzcv (nzcv : BitVec 4) : keeps (setNzcv nzcv) := by
  unfold setNzcv
  split <;> rfl

theorem keeps_conditionalCompare (compare : List Code) :
    keeps (conditionalCompare op compare) = keeps compare := by
  have hjmp (body : List Code) : writesRbp (jmpOver body) = false := rfl
  simp [conditionalCompare, hjmp]

@[simp] theorem keeps_translateCcmn : keeps (translateCcmn op) := by
  rw [translateCcmn, keeps_conditionalCompare]
  cases is64 op <;> rfl

@[simp] theorem keeps_translateCcmp : keeps (translateCcmp op) := by
  rw [translateCcmp, keeps_conditionalCompare]
  rfl

theorem writesRbp_setcc {opcode : Byte} (h : opcode &&& 0xf0 = 0x90) :
    writesRbp [0x0f, opcode, modrm 3 0 (rax &&& 7)] = false := by
  have key : ∀ o : Byte, o &&& 0xf0 = 0x90 → writesRbp [0x0f, o, modrm 3 0 (rax &&& 7)] = false := by
    decide
  exact key opcode h

@[simp] theorem keeps_translateCset : keeps (translateCset op) := by
  have hcc : (0x90 ||| condAt op) &&& 0xf0 = 0x90 := by
    have key : ∀ c : BitVec 4, (0x90 ||| arm64ToX86Cond c) &&& 0xf0 = 0x90 := by decide
    exact key _
  unfold translateCset
  rw [keeps_cons, keeps_cons, writesRbp_setcc hcc]
  cases is64 op <;> rfl

theorem keeps_conditionalUpdate (update : Code) :
    keeps (conditionalUpdate op update) = !writesRbp update := by
  simp [conditionalUpdate]

@[simp] theorem keeps_translateCinc : keeps (translateCinc op) := by
  rw [translateCinc, keeps_conditionalUpdate]
  rfl

@[simp] theorem keeps_translateCinv : keeps (translateCinv op) := by
  simp [translateCinv, keeps_conditionalUpdate]

@[simp] theorem keeps_translateCneg : keeps (translateCneg op) := by
  simp [translateCneg, keeps_conditionalUpdate]

@[simp] theorem keeps_translateCsinc : keeps (translateCsinc op) := by
  rw [translateCsinc, keeps_viaRaxR11, keeps_jccOver (condAt_jcc op)]
  rfl

theorem keeps_conditionalSelect {ext : Byte} (h : ext = 2 ∨ ext = 3) :
    keeps (conditionalSelect op ext) := by
  simp only [conditionalSelect, keeps_viaRax, keeps_jccOver (condAt_jcc op)]
  rcases h with rfl | rfl <;> cases is64 op <;> rfl

@[simp] theorem keeps_translateCsinv : keeps (translateCsinv op) := keeps_conditionalSelect op (.inl rfl)

@[simp] theorem keeps_translateCsneg : keeps (translateCsneg op) := keeps_conditionalSelect op (.inr rfl)

@[simp] theorem keeps_translateSxtb : keeps (translateSxtb op) := by
  rw [translateSxtb, keeps_viaRax]
  rfl

@[simp] theorem keeps_translateSxth : keeps (translateSxth op) := by
  rw [translateSxth, keeps_viaRax]
  rfl

@[simp] theorem keeps_translateUxtb : keeps (translateUxtb op) := by
  rw [translateUxtb, keeps_viaRax]
  rfl

@[simp] theorem keeps_translateUxth : keeps (translateUxth op) := by
  rw [translateUxth, keeps_viaRax]
  rfl

@[simp] theorem keeps_translateSxtw : keeps (translateSxtw op) := rfl

@[simp] theorem keeps_translateUxtw : keeps (translateUxtw op) := rfl

@[simp] theorem keeps_translateClz : keeps (translateClz op) := by
  simp only [translateClz, keeps_viaRax]
  cases is64 op <;> rfl

@[simp] theorem keeps_translateRbit : keeps (translateRbit op) := by
  simp only [translateRbit, keeps_viaRax]
  cases is64 op <;> rfl

@[simp] theorem keeps_translateRev : keeps (translateRev op) := by
  rw [translateRev, keeps_viaRax]
  rfl

@[simp] theorem keeps_translateOrn : keeps (translateOrn op) := by
  simp only [translateOrn, keeps_viaRaxR11]
  cases is64 op <;> rfl

@[simp] theorem keeps_translateMovReg : keeps (translateMovReg op) := by simp [translateMovReg]

@[simp] theorem keeps_translateCrc32 : keeps (translateCrc32 op) := by
  simp only [translateCrc32]
  split
  · rw [keeps_viaRaxR11]
    rfl
  · simp

end Integer

section Memory

variable (env : Env) (op imm : BitVec 32)

/-- The opcodes of the accesses through `RAX`, with their prefixes. -/
def raxOpcodes : List (List Byte) :=
  [[0x48, 0x8b], [0x4c, 0x89], [0x4c, 0x8b], [0x48, 0x0f, 0xb6], [0x48, 0x88], [0x48, 0x0f, 0xb7],
    [0x48, 0x66, 0x89], [0x48, 0x0f, 0xbe], [0x48, 0x0f, 0xbf], [0x48, 0x63], [0x49, 0x8d]]

/-- The register of an access is `RAX` or one numbered like `R11`, whatever the prefix. -/
theorem writesRbp_raxAccess (pre : List Byte) (reg : Byte) (h : pre ∈ raxOpcodes)
    (hr : reg ∈ ([rax, r11] : List Byte)) : writesRbp (raxAccess pre reg imm) = false := by
  unfold raxAccess emitModrmDisp
  simp only [raxOpcodes, List.mem_cons, List.not_mem_nil, or_false] at h hr
  split
  · rcases h with rfl | rfl | rfl | rfl | rfl | rfl | rfl | rfl | rfl | rfl | rfl <;>
      rcases hr with rfl | rfl <;> rfl
  · split
    · rcases h with rfl | rfl | rfl | rfl | rfl | rfl | rfl | rfl | rfl | rfl | rfl <;>
        rcases hr with rfl | rfl <;> rfl
    · rcases h with rfl | rfl | rfl | rfl | rfl | rfl | rfl | rfl | rfl | rfl | rfl <;>
        rcases hr with rfl | rfl <;> rfl

@[simp] theorem keeps_translateLdrStr : keeps (translateLdrStr op imm) := by
  have hload := writesRbp_raxAccess imm [rexR rax rax, 0x8b#8] rax (by decide) (by decide)
  have hstore := writesRbp_raxAccess imm [rexR r11 rax, 0x89#8] r11 (by decide) (by decide)
  simp only [translateLdrStr]
  split <;> simp [hload, hstore]

@[simp] theorem keeps_translateLdpStp : keeps (translateLdpStp op imm) := by
  have hload (i) := writesRbp_raxAccess i [rexR r11 rax, 0x8b#8] r11 (by decide) (by decide)
  have hstore (i) := writesRbp_raxAccess i [rexR r11 rax, 0x89#8] r11 (by decide) (by decide)
  simp only [translateLdpStp]
  split <;> simp [hload, hstore]

@[simp] theorem keeps_translateLdrLiteral (arm64Cur : BitVec 64) :
    keeps (translateLdrLiteral arm64Cur op) := by
  simp only [translateLdrLiteral]
  cases op.getLsbD 30 <;> rfl

theorem keeps_narrowLoad {pre : List Byte} (h : pre ∈ raxOpcodes) (w : Bool) :
    keeps (narrowLoad pre w op) := by
  simp [narrowLoad, writesRbp_raxAccess (imm12 op) pre r11 h (by decide)]

theorem keeps_narrowStore {pre : List Byte} (h : pre ∈ raxOpcodes) : keeps (narrowStore pre op) := by
  simp [narrowStore, writesRbp_raxAccess (imm12 op) pre r11 h (by decide)]

@[simp] theorem keeps_translateLdrb : keeps (translateLdrb op) := keeps_narrowLoad op (by decide) _

@[simp] theorem keeps_translateStrb : keeps (translateStrb op) := keeps_narrowStore op (by decide)

@[simp] theorem keeps_translateLdrh : keeps (translateLdrh op) := keeps_narrowLoad op (by decide) _

@[simp] theorem keeps_translateStrh : keeps (translateStrh op) := keeps_narrowStore op (by decide)

@[simp] theorem keeps_translateLdrsb : keeps (translateLdrsb op) := keeps_narrowLoad op (by decide) _

@[simp] theorem keeps_translateLdrsh : keeps (translateLdrsh op) := keeps_narrowLoad op (by decide) _

@[simp] theorem keeps_translateLdrsw : keeps (translateLdrsw op) := keeps_narrowLoad op (by decide) _

@[simp] theorem keeps_translatePrfm : keeps (translatePrfm op) := by
  have hlea (i) := writesRbp_raxAccess i [rex true 0 0 (r11 >>> 3), 0x8d] r11 (by decide) (by decide)
  have hhint : ∀ base ∈ ([rax, r11] : List Byte), ∀ hint ∈ ([0, 1, 2, 3] : List Byte),
      writesRbp [0x0f, 0x18, modrm 0 hint (base &&& 7)] = false := by decide
  have hnop : writesRbp [0x90] = false := rfl
  simp only [translatePrfm]
  generalize (op.extractLsb' 0 3).toNat = target
  have hmem : (if target ≤ 1 then 0 else if target ≤ 3 then 1 else if target ≤ 5 then 2 else 3) ∈
      ([0, 1, 2, 3] : List Byte) := by
    repeat' split
    all_goals decide
  split <;> (split <;> [skip; split]) <;>
    simp only [keeps_cons, keeps_append, keeps_nil, writesRbp_load_rax, hlea,
      hhint rax (by decide) _ hmem, hhint r11 (by decide) _ hmem, hhint rax (by decide) 0 (by decide),
      hhint r11 (by decide) 0 (by decide), hnop, Bool.not_false, Bool.and_true]

@[simp] theorem keeps_translateLdaxr : keeps (translateLdaxr op) := by
  simp only [translateLdaxr]
  cases op.getLsbD 30 <;> rfl

@[simp] theorem keeps_translateStlxr : keeps (translateStlxr op) := by
  simp only [translateStlxr]
  cases op.getLsbD 30 <;> rfl

@[simp] theorem keeps_translateCas : keeps (translateCas op) := by
  simp only [translateCas]
  cases is64 op <;> rfl

@[simp] theorem keeps_translateLdadd : keeps (translateLdadd op) := by
  simp only [translateLdadd]
  cases is64 op <;> rfl

@[simp] theorem keeps_translateDmbDsbIsb : keeps (translateDmbDsbIsb env op) := by
  simp only [translateDmbDsbIsb]
  split
  · split <;> rfl
  · rfl

@[simp] theorem keeps_translateSvc : keeps translateSvc := rfl

@[simp] theorem keeps_translateMrs : keeps (translateMrs env op) := by
  simp only [translateMrs]
  repeat' split
  all_goals rfl

@[simp] theorem keeps_translateHint : keeps (translateHint op) := by
  simp only [translateHint]
  repeat' split
  all_goals rfl

@[simp] theorem keeps_translateBrk : keeps translateBrk := rfl

@[simp] theorem keeps_translateHlt : keeps translateHlt := rfl

@[simp] theorem keeps_translateEret : keeps translateEret := rfl

end Memory

end Arm2x86.Translate
