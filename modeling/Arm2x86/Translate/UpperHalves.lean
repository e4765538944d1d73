import Arm2x86.Translate.BasePreservation
import Arm2x86.Translate.GuestAccess
import Arm2x86.Translate.HomeFrame

/-!
# Code that leaves the upper halves of the slots

The translators of the instructions in their small form. Whatever they compute, they store it with
32 bits, or they leave it in a host register.
-/

namespace Arm2x86.Translate

open X86 Alloc

variable {undef : Instr → Machine → Status} {rest : Instr → Machine → Option Machine}

section Instructions

theorem keepsUpper_regReg {opcode : Byte} (h : opcode ∈ aluOpcodes) (dest src : Byte)
    (hr : toGpr src ≠ 5) : KeepsUpper undef rest [regReg opcode dest src] :=
  keepsUpper_instr (fun tail ↦ decode_regReg dest src tail h) (regOnly_alu _ fun _ hsrc ↦ by cases hsrc) hr

theorem keepsUpper_movR64Imm (imm : BitVec 64) (x : Byte) (hx : x = rax ∨ x = r11) :
    KeepsUpper undef rest [movR64Imm x imm] := by
  rcases hx with rfl | rfl
  · exact keepsUpper_instr (i := .movImm .b64 (.reg 0) _) (fun _ ↦ decode_prefixes rfl rfl)
      (regOnly_movImm _) (by decide)
  · exact keepsUpper_instr (i := .movImm .b64 (.reg 11) _) (fun _ ↦ decode_prefixes rfl rfl)
      (regOnly_movImm _) (by decide)

/-- A shift of `RAX`. -/
theorem keepsUpper_shiftImm8 {ext : Byte} (h : ext = 4 ∨ ext = 5 ∨ ext = 7) (amount : Byte) :
    KeepsUpper undef rest [shiftImm8 ext rax amount] := by
  rcases h with rfl | rfl | rfl
  · exact keepsUpper_instr (i := .shift .shl .b64 (.reg 0) amount) (fun _ ↦ decode_prefixes rfl rfl)
      (regOnly_shift (by decide) _) (by decide)
  · exact keepsUpper_instr (i := .shift .shr .b64 (.reg 0) amount) (fun _ ↦ decode_prefixes rfl rfl)
      (regOnly_shift (by decide) _) (by decide)
  · exact keepsUpper_instr (i := .shift .sar .b64 (.reg 0) amount) (fun _ ↦ decode_prefixes rfl rfl)
      (regOnly_shift (by decide) _) (by decide)

/-- An extension of the low part of `RAX`. -/
theorem keepsUpper_extendRax (signed : Bool) (width : Width) :
    KeepsUpper undef rest [if signed then emitMovsx width rax rax else emitMovzx width rax rax] := by
  cases signed <;> cases width
  · exact keepsUpper_instr (i := .extend false .b64 .b8 0 (.reg 0))
      (fun _ ↦ decode_prefixes rfl rfl) (regOnly_extend _ _ nofun) (by decide)
  · exact keepsUpper_instr (i := .extend false .b64 .b16 0 (.reg 0))
      (fun _ ↦ decode_prefixes rfl rfl) (regOnly_extend _ _ nofun) (by decide)
  · exact keepsUpper_instr (i := .extend true .b64 .b8 0 (.reg 0))
      (fun _ ↦ decode_prefixes rfl rfl) (regOnly_extend _ _ nofun) (by decide)
  · exact keepsUpper_instr (i := .extend true .b64 .b16 0 (.reg 0))
      (fun _ ↦ decode_prefixes rfl rfl) (regOnly_extend _ _ nofun) (by decide)

theorem keepsUpper_groupRax {ext : Byte} (h : ext = 1 ∨ ext = 4) (imm : BitVec 32) :
    KeepsUpper undef rest [groupRax ext imm] := by
  rcases h with rfl | rfl
  · exact keepsUpper_instr (i := .aluImm .or .b64 (.reg 0) _) (fun _ ↦ decode_prefixes rfl rfl)
      (regOnly_aluImm _ _) (by decide)
  · exact keepsUpper_instr (i := .aluImm .and .b64 (.reg 0) _) (fun _ ↦ decode_prefixes rfl rfl)
      (regOnly_aluImm _ _) (by decide)

theorem keepsUpper_testRax (b : Byte) (h : b = rax ∨ b = r11) :
    KeepsUpper undef rest [testR64R64 rax b] := by
  rcases h with rfl | rfl
  · exact keepsUpper_instr (r := 0) (i := .test .b64 (.reg 0) (.reg 0))
      (fun _ ↦ decode_prefixes rfl rfl) (regOnly_test _ _) (by decide)
  · exact keepsUpper_instr (r := 0) (i := .test .b64 (.reg 11) (.reg 0))
      (fun _ ↦ decode_prefixes rfl rfl) (regOnly_test _ _) (by decide)

/-- The one-operand group on `EAX`. -/
theorem keepsUpper_negRax : KeepsUpper undef rest [unaryRax false 3] :=
  keepsUpper_instr (i := .neg .b32 (.reg 0)) (fun _ ↦ decode_prefixes rfl rfl) regOnly_neg (by decide)

end Instructions

section Straight

variable {op : BitVec 32}

theorem keepsUpper_mul (hw : is64 op = false) : KeepsUpper undef rest (translateMul op) := by
  rw [translateMul, hw]
  apply keepsUpper_viaRaxR11
  exact keepsUpper_instr (i := .imul .b64 0 (.reg 11)) (fun _ ↦ decode_prefixes rfl rfl)
    (regOnly_imul fun _ hsrc ↦ by cases hsrc) (by decide)

theorem keepsUpper_adc (hw : is64 op = false) : KeepsUpper undef rest (translateAdc op) := by
  rw [translateAdc, hw]
  apply keepsUpper_viaRaxR11
  exact keepsUpper_instr (i := .alu .adc .b64 (.reg 11) (.reg 0)) (fun _ ↦ decode_prefixes rfl rfl)
    (regOnly_alu _ fun _ hsrc ↦ by cases hsrc) (by decide)

theorem keepsUpper_crc32 (hw : is64 op = false) (hop : op.extractLsb' 10 3 = 0) :
    KeepsUpper undef rest (translateCrc32 op) := by
  have hcopy : translateCrc32 op = viaRax (armReg op 5) (armReg op 0) false [] := by
    rw [translateCrc32, hop, hw]
    rfl
  rw [hcopy]
  exact keepsUpper_viaRax _ _ keepsUpper_nil

theorem keepsUpper_orn (hw : is64 op = false) : KeepsUpper undef rest (translateOrn op) := by
  rw [translateOrn, hw]
  apply keepsUpper_viaRaxR11
  apply KeepsUpper.cons
  · exact keepsUpper_instr (i := .not .b32 (.reg 3)) (fun _ ↦ decode_prefixes rfl rfl) regOnly_not
      (by decide)
  · exact keepsUpper_regReg (by decide) _ _ (by decide)

theorem keepsUpper_csel (hw : is64 op = false) : KeepsUpper undef rest (translateCsel op) := by
  have hcopy : ∀ rn rd : ArmReg, KeepsUpper undef rest (viaRax rn rd false []) :=
    fun rn rd ↦ keepsUpper_viaRax rn rd keepsUpper_nil
  rw [translateCsel, hw]
  split
  · exact hcopy _ _
  · split
    · exact hcopy _ _
    · next hal _ =>
      have hcc : (condAt op ^^^ 1) &&& 0xf0 = 0x80 := condAt_inverted (by simpa [condAt] using hal)
      have hlen : (viaRax (armReg op 5) (armReg op 0) false []).flatten.length = 12 := rfl
      apply (hcopy _ _).append
      apply keepsUpper_jccOver hcc _ (hcopy _ _)
      rw [hlen]
      decide

theorem keepsUpper_cset (hw : is64 op = false) : KeepsUpper undef rest (translateCset op) := by
  have hcc : (0x90 ||| condAt op) &&& 0xf0 = 0x90 := by
    have key : ∀ c : BitVec 4, (0x90 ||| arm64ToX86Cond c) &&& 0xf0 = 0x90 := by decide
    exact key _
  rw [translateCset, hw]
  apply (keepsUpper_regReg (by decide) _ _ (by decide)).cons
  apply KeepsUpper.cons
  · exact keepsUpper_instr (fun tail ↦ decode_setcc tail hcc) (regOnly_setcc _) (by decide)
  apply KeepsUpper.cons
  · exact keepsUpper_instr (i := .extend false .b64 .b8 0 (.reg 0))
      (fun _ ↦ decode_prefixes rfl rfl) (regOnly_extend _ _ nofun) (by decide)
  · exact keepsUpper_store _ _

theorem keepsUpper_translateShift (h : op.getLsbD 22 = false) :
    KeepsUpper undef rest (translateShift op) := by
  rw [translateShift, h]
  apply keepsUpper_viaRax
  split
  · exact keepsUpper_shiftImm8 (Or.inr (Or.inr rfl)) _
  · split
    · exact keepsUpper_shiftImm8 (Or.inr (Or.inl rfl)) _
    · split
      · exact keepsUpper_shiftImm8 (Or.inl rfl) _
      · exact keepsUpper_nil

theorem keepsUpper_shiftAndMask {ext : Byte} (h : ext = 4 ∨ ext = 5 ∨ ext = 7) :
    KeepsUpper undef rest (shiftAndMask (shiftImm8 ext) op) := by
  apply (keepsUpper_shiftImm8 h _).cons
  apply (keepsUpper_movR64Imm _ _ (Or.inr rfl)).cons
  exact keepsUpper_regReg (by decide) _ _ (by decide)

theorem keepsUpper_sbfm (h : op.getLsbD 22 = false) : KeepsUpper undef rest (translateSbfm op) := by
  rw [translateSbfm, h]
  apply keepsUpper_viaRax
  split
  · exact keepsUpper_extendRax true .byte
  · exact keepsUpper_shiftAndMask (Or.inr (Or.inr rfl))

theorem keepsUpper_ubfm (h : op.getLsbD 22 = false) : KeepsUpper undef rest (translateUbfm op) := by
  rw [translateUbfm, h]
  apply keepsUpper_viaRax
  split
  · exact keepsUpper_extendRax false .byte
  · exact keepsUpper_shiftAndMask (Or.inr (Or.inl rfl))

/-- The extensions of a byte or a halfword. -/
theorem keepsUpper_extend (rn rd : ArmReg) (signed : Bool) (width : Width) :
    KeepsUpper undef rest (viaRax rn rd false
      [if signed then emitMovsx width rax rax else emitMovzx width rax rax]) :=
  keepsUpper_viaRax rn rd (keepsUpper_extendRax signed width)

/-- `MOVK`. -/
theorem keepsUpper_movk (hw : is64 op = false) (shift : Nat) :
    KeepsUpper undef rest (translateMovk op shift) := by
  rw [translateMovk, hw]
  apply keepsUpper_viaRax
  have hhigh : ∀ (ext : Byte) (v : BitVec 64), ext = 1 ∨ ext = 4 →
      KeepsUpper undef rest (if hi32 v != 0 then [groupRax ext (hi32 v)] else []) := by
    intro ext v hext
    split
    · exact keepsUpper_groupRax hext _
    · exact keepsUpper_nil
  exact (((keepsUpper_groupRax (Or.inr rfl) _).append (hhigh 4 _ (Or.inr rfl))).append
    (keepsUpper_groupRax (Or.inl rfl) _)).append (hhigh 1 _ (Or.inl rfl))

end Straight

section Memory

variable {op : BitVec 32}

/-- A load of less than a doubleword. -/
theorem keepsUpper_narrowLoad (hload : op.getLsbD 22 = true) (hsize : op.extractLsb' 30 2 ≠ 3)
    (imm : BitVec 32) : KeepsUpper undef rest (translateLdrStr op imm) := by
  rw [translateLdrStr, hload, beq_eq_false_iff_ne.mpr hsize]
  apply (keepsUpper_load_rax _ true).cons
  apply KeepsUpper.cons
  · exact keepsUpper_instr (guestLoad rax imm).decodes (regOnly_mov fun _ hsrc ↦ by cases hsrc) (by decide)
  · exact keepsUpper_store _ _

/-- A load of a word at the address of the instruction. -/
theorem keepsUpper_ldrLiteral (hsize : op.getLsbD 30 = false) (arm64Cur : BitVec 64) :
    KeepsUpper undef rest (translateLdrLiteral arm64Cur op) := by
  rw [translateLdrLiteral, hsize]
  apply (keepsUpper_movR64Imm _ _ (Or.inl rfl)).cons
  apply KeepsUpper.cons
  · exact keepsUpper_instr (i := .mov .b32 (.reg 3) (.mem (some 0) none 0))
      (fun _ ↦ decode_prefixes rfl rfl) (regOnly_mov fun _ hsrc ↦ by cases hsrc) (by decide)
  · exact keepsUpper_store _ _

/-- The prefetch hints. -/
private theorem decode_prefetch : ∀ base ∈ ([rax, r11] : List Byte),
    ∀ hint ∈ ([0, 1, 2, 3] : List Byte), ∀ tail,
      X86.decode ([0x0f, 0x18, modrm 0 hint (base &&& 7)] ++ tail) = some (.vector, tail) := by
  intro base hbase hint hhint tail
  simp only [List.mem_cons, List.not_mem_nil, or_false] at hbase hhint
  rcases hbase with rfl | rfl <;> rcases hhint with rfl | rfl | rfl | rfl <;>
    exact decode_prefixes rfl rfl

theorem keepsUpper_prfm (hrest : ∀ m, rest .vector m = some m) :
    KeepsUpper undef rest (translatePrfm op) := by
  have hhint : ∀ base ∈ ([rax, r11] : List Byte), ∀ hint ∈ ([0, 1, 2, 3] : List Byte),
      KeepsUpper undef rest [[0x0f, 0x18, modrm 0 hint (base &&& 7)]] :=
    fun base hbase hint hh ↦ keepsUpper_instr (r := 0) (decode_prefetch base hbase hint hh)
      (regOnly_vector hrest) (by decide)
  have hlea : ∀ imm, KeepsUpper undef rest [raxAccess [rex true 0 0 (r11 >>> 3), 0x8d] r11 imm] := by
    intro imm
    have hrex : (0x49 : Byte) &&& 0xf8 = 0x48 := by decide
    exact keepsUpper_instr (fun tail ↦ decode_leaDisp hrex _ imm tail)
      (regOnly_lea _ _ _) (by decide)
  rw [translatePrfm]
  generalize (op.extractLsb' 0 3).toNat = target
  have hmem : (if target ≤ 1 then 0 else if target ≤ 3 then 1 else if target ≤ 5 then 2 else 3) ∈
      ([0, 1, 2, 3] : List Byte) := by
    repeat' split
    all_goals decide
  have hbase : (if (op.extractLsb' 10 9).signExtend 32 != 0#32 then r11 else rax) ∈
      ([rax, r11] : List Byte) := by
    split <;> decide
  refine (keepsUpper_load_rax _ true).cons (KeepsUpper.append ?_ ?_)
  · split
    · exact hlea _
    · exact keepsUpper_nil
  · split
    · exact hhint _ hbase _ hmem
    · split
      · exact hhint _ hbase _ (by decide)
      · exact keepsUpper_instr (r := 0) (i := .nop) (fun _ ↦ decode_prefixes rfl rfl) regOnly_nop
          (by decide)

end Memory

section Vector

/-- A vector operation on two registers. -/
theorem keepsUpper_vecOp (hrest : ∀ m, rest .vector m = some m) {opcode : List Byte}
    (h : opcode ∈ ([[0x0f, 0x58], [0x66, 0x0f, 0x58], [0x66, 0x0f, 0xef]] : List (List Byte)))
    (dest src : Byte) : KeepsUpper undef rest [vecOp opcode dest src] := by
  have hdec : ∀ tail, X86.decode (vecOp opcode dest src ++ tail) = some (.vector, tail) := by
    intro tail
    simp only [List.mem_cons, List.not_mem_nil, or_false] at h
    rcases h with rfl | rfl | rfl <;>
      exact decode_prefixes rfl (by simp [decodeOpcode, decode0F, takeRm_modrm3])
  exact keepsUpper_instr (r := 0) hdec (regOnly_vector hrest) (by decide)

end Vector

section Leaves

/-- All memory is mapped, and it is kept. -/
def mappedFrame : Frame where
  Ready m := ∀ a, (m.mem a).isSome
  Keeps m m' := m'.mem = m.mem
  ready_pos _ h := h
  refl _ _ := rfl
  trans h h' := h'.trans h

/-- With any contents of a memory without gaps there are states from which the code gets to its end,
with the upper halves of the slots as they were. -/
def LeavesUpper (code : List Code) : Prop :=
  ∀ (home : BitVec 64) (mem : Sparse), (∀ a, (mem a).isSome) → ∃ undef rest m m',
    m.mem = mem ∧ m.regs 5 = home ∧ m.pos = 0 ∧
      (Semantics.core undef rest).Runs code.flatten m m' ∧ m'.pos = code.flatten.length ∧
      (homeFrame home).Keeps m m'

/-- A state with nothing but a memory, a base and flags. -/
def bareState (home : BitVec 64) (mem : Sparse) (s : Status) : Machine :=
  Machine.setStatus { regs := fun r ↦ if r = 5 then home else 0, flags := 0, vectors := fun _ ↦ 0
                      mem, codeBase := 0, pos := 0 } s

/-- Code that is jumped over or passed as a whole. -/
theorem leavesUpper_of_passes {code : List Code} (s : Status)
    (h : ∀ home mem, (∀ a, (mem a).isSome) → ∃ undef rest m',
      (Semantics.core undef rest).Runs code.flatten (bareState home mem s) m' ∧
        m'.pos = code.flatten.length ∧ (homeFrame home).Keeps (bareState home mem s) m') :
    LeavesUpper code := by
  intro home mem hmem
  obtain ⟨undef, rest, m', hrun, hpos, hkeeps⟩ := h home mem hmem
  exact ⟨undef, rest, bareState home mem s, m', rfl, rfl, rfl, hrun, hpos, hkeeps⟩

theorem bareState_ready {home : BitVec 64} {mem : Sparse} (hmem : ∀ a, (mem a).isSome)
    (s : Status) : (homeFrame home).Ready (bareState home mem s) := ⟨rfl, hmem⟩

theorem KeepsUpper.leaves {code : List Code}
    (h : ∀ undef rest, (∀ m, rest .vector m = some m) → KeepsUpper undef rest code) :
    LeavesUpper code := by
  apply leavesUpper_of_passes (.ofBits 0)
  intro home mem hmem
  obtain ⟨m', hrun, hpos, -, hkeeps⟩ := h (fun _ _ ↦ .ofBits 0) (fun _ m ↦ some m) (fun _ ↦ rfl)
    home code.flatten _ (bareState_ready hmem _) (at_self _)
  exact ⟨_, _, m', hrun, hpos.trans (Nat.zero_add _), hkeeps⟩

/-- Behind the last access to the home it does not matter what becomes of `RBP`. -/
theorem KeepsUpper.leaves_append {code code' : List Code}
    (h : ∀ undef rest, KeepsUpper undef rest code)
    (h' : ∀ undef rest, Passes (Semantics.core undef rest) mappedFrame code'.flatten) :
    LeavesUpper (code ++ code') := by
  apply leavesUpper_of_passes (.ofBits 0)
  intro home mem hmem
  let undef : Instr → Machine → Status := fun _ _ ↦ .ofBits 0
  let rest : Instr → Machine → Option Machine := fun _ m ↦ some m
  have hat := at_self (code ++ code').flatten
  rw [List.flatten_append] at hat ⊢
  obtain ⟨m₁, hrun₁, hpos₁, hready₁, hkeeps₁⟩ := h undef rest home _ (bareState home mem (.ofBits 0))
    (bareState_ready hmem _) hat.left
  have hat₁ : At (code.flatten ++ code'.flatten) m₁.pos code'.flatten := by
    rw [hpos₁]
    exact hat.right
  obtain ⟨m₂, hrun₂, hpos₂, -, hmem₂⟩ := h' undef rest _ m₁ hready₁.2 hat₁
  refine ⟨undef, rest, m₂, hrun₁.trans hrun₂, ?_, fun r i hi h8 ↦ ?_⟩
  · rw [hpos₂, hpos₁, List.length_append]
    exact congrArg (· + _) (Nat.zero_add _)
  · have hmem₂ : m₂.mem = m₁.mem := hmem₂
    rw [hmem₂]
    exact hkeeps₁ r i hi h8

theorem passable_mapped {r : Gpr} {i : Instr} (h : RegOnly (Semantics.core undef rest) r i) :
    Passable (Semantics.core undef rest) mappedFrame i := by
  intro m hm
  obtain ⟨m', hexec, hpos, hmem, -⟩ := h m hm
  refine ⟨m', hexec, hpos, fun a ↦ ?_, hmem⟩
  rw [hmem]
  exact hm a

end Leaves

section Conditional

variable {op : BitVec 32}

/-- `homeFrame`, with zero in `R11`. -/
def clearedFrame (home : BitVec 64) : Frame where
  Ready m := (homeFrame home).Ready m ∧ m.regs 11 = 0
  Keeps := (homeFrame home).Keeps
  ready_pos p h := ⟨(homeFrame home).ready_pos p h.1, h.2⟩
  refl := (homeFrame home).refl
  trans := (homeFrame home).trans

theorem passes_load_cleared {home : BitVec 64} (r : ArmReg) {x : Byte} {w : Bool}
    (hx : loadedReg x w ≠ 5 ∧ loadedReg x w ≠ 11) :
    Passes (Semantics.core undef rest) (clearedFrame home) (emitLoadArmReg r x w) := by
  apply passes_chunk (loadChunk r x w)
  have hreg : RegOnly (Semantics.core undef rest) (loadedReg x w) (loadChunk r x w).instr :=
    regOnly_mov nofun
  rintro m ⟨hready, hzero⟩
  obtain ⟨m', hexec, hpos, hready', hkeeps⟩ := passable_of_regOnly hreg hx.1 m hready
  obtain ⟨m'', hexec', -, -, hregs⟩ := hreg m hready.2
  obtain rfl : m' = m'' := Option.some.inj (hexec.symm.trans hexec')
  exact ⟨m', hexec, hpos, ⟨hready', (hregs 11 hx.2.symm).trans hzero⟩, hkeeps⟩

variable (undef rest) in
/-- Testing a zero in `R11`. -/
theorem runs_testR11 {m : Machine} {code : List Byte} (hzero : m.regs 11 = 0)
    (hat : At code m.pos (testR64R64 r11 r11)) :
    ∃ m', (Semantics.core undef rest).Runs code m m' ∧ m'.pos = m.pos + 3 ∧ m'.regs = m.regs ∧
      m'.mem = m.mem ∧ m'.status.zero = true := by
  let c : Chunk := ⟨testR64R64 r11 r11, .test .b64 (.reg 11) (.reg 11),
    fun _ ↦ decode_prefixes rfl rfl⟩
  have hexec : (Semantics.core undef rest).exec c.instr { m with pos := m.pos + c.bytes.length } =
      some (Machine.setStatus { m with pos := m.pos + 3 }
        (.ofLogic (Size.b64.cut (m.regs 11) &&& Size.b64.cut (m.regs 11))
          (undef c.instr { m with pos := m.pos + 3 }))) := rfl
  refine ⟨_, Semantics.runs_chunk hat hexec, rfl, rfl, rfl, ?_⟩
  rw [Machine.status_setStatus, hzero]
  rfl

/-- The divisor is loaded to `EBX`, and `R11` is tested for zero: from a state with zero in `R11`
nothing is divided. -/
theorem div_leaves (hw : is64 op = false) : LeavesUpper (translateDiv op) := by
  apply leavesUpper_of_passes (.ofBits 0)
  intro home mem hmem
  rw [translateDiv, hw]
  let undef : Instr → Machine → Status := fun _ _ ↦ .ofBits 0
  let rest : Instr → Machine → Option Machine := fun _ m ↦ some m
  have hzero : KeepsUpper undef rest
      [xorR64R64 rax rax, emitStoreArmReg rax (armReg op 0) false] :=
    (keepsUpper_regReg (by decide) _ _ (by decide)).cons (keepsUpper_store _ _)
  generalize [xorR64R64 rax rax, emitStoreArmReg rax (armReg op 0) false] = zero at hzero
  generalize hdivide : [if !op.getLsbD 11 then emitCqo else xorR64R64 rdx rdx, _, _, _] = divide
  have hlen : divide.flatten.length < 2 ^ 31 := by
    rw [← hdivide]
    cases op.getLsbD 11 <;> exact Nat.le_of_ble_eq_true rfl
  have hcode : (loadPair (armReg op 5) (armReg op 16) false ++
      testR64R64 r11 r11 :: (jccOver 0x84 divide ++ zero)).flatten =
        (emitLoadArmReg (armReg op 5) rax false ++ emitLoadArmReg (armReg op 16) r11 false) ++
          (testR64R64 r11 r11 ++ ((0x0f :: 0x84 :: imm32 (BitVec.ofNat 32 divide.flatten.length)) ++
            (divide.flatten ++ zero.flatten))) := by
    simp [loadPair, jccOver, byteCount]
  rw [hcode]
  generalize hloads : emitLoadArmReg (armReg op 5) rax false ++
    emitLoadArmReg (armReg op 16) r11 false = loads
  have hpasses : Passes (Semantics.core undef rest) (clearedFrame home) loads := by
    rw [← hloads]
    exact (passes_load_cleared _ (by decide)).append (passes_load_cleared _ (by decide))
  obtain ⟨whole, hwhole⟩ : ∃ whole, whole = loads ++ (testR64R64 r11 r11 ++
      ((0x0f :: 0x84 :: imm32 (BitVec.ofNat 32 divide.flatten.length)) ++
        (divide.flatten ++ zero.flatten))) := ⟨_, rfl⟩
  have hat : At whole (bareState home mem (.ofBits 0)).pos whole := at_self whole
  nth_rewrite 2 [hwhole] at hat
  rw [← hwhole]
  obtain ⟨m₁, hrun₁, hpos₁, ⟨hready₁, hzero₁⟩, hkeeps₁⟩ :=
    hpasses whole _ ⟨bareState_ready hmem _, rfl⟩ hat.left
  have hat₁ := hat.right
  rw [← hpos₁] at hat₁
  obtain ⟨m₂, hrun₂, hpos₂, hregs₂, hmem₂, hflag₂⟩ := runs_testR11 undef rest hzero₁ hat₁.left
  have hat₂ := hat₁.right
  have hlen₂ : (testR64R64 r11 r11).length = 3 := rfl
  rw [hlen₂, ← hpos₂] at hat₂
  have hholds : m₂.status.holds ((0x84 : Byte).extractLsb' 0 4) = true := by
    show (m₂.status.zero != false) = true
    rw [hflag₂]
    rfl
  have hjump := runs_jcc undef rest (by decide) hlen hat₂.left
  rw [if_pos hholds] at hjump
  have hready₃ : (homeFrame home).Ready { m₂ with pos := m₂.pos + 6 + divide.flatten.length } := by
    refine ⟨(congrFun hregs₂ 5).trans hready₁.1, fun a ↦ ?_⟩
    show (m₂.mem a).isSome = true
    rw [hmem₂]
    exact hready₁.2 a
  have hat₃ := hat₂.right.right
  obtain ⟨m₄, hrun₄, hpos₄, -, hkeeps₄⟩ := hzero home whole _ hready₃ hat₃
  refine ⟨undef, rest, m₄, hrun₁.trans (hrun₂.trans (hjump.trans hrun₄)), ?_, ?_⟩
  · rw [hpos₄, hwhole]
    simp only [List.length_append]
    have hstart : (bareState home mem (.ofBits 0)).pos = 0 := rfl
    have hjcc : (0x0f :: 0x84 :: imm32 (BitVec.ofNat 32 divide.flatten.length)).length = 6 := rfl
    rw [hpos₂, hpos₁, hlen₂, hstart, hjcc]
    omega
  · refine (homeFrame home).trans hkeeps₁ ((homeFrame home).trans ?_ hkeeps₄)
    intro r i _ _
    exact congrFun hmem₂ _

/-- From a state in which the condition does not hold a conditional compare compares, and jumps over
the instructions that set the flags. -/
theorem conditionalCompare_leaves (hw : is64 op = false) {compare : List Code}
    (hlen : compare.flatten.length < 2 ^ 16) (h : ∀ undef rest, KeepsUpper undef rest compare) :
    LeavesUpper (conditionalCompare op compare) := by
  obtain ⟨s, hs⟩ := Status.exists_not_holds ((0x80 ||| condAt op).extractLsb' 0 4)
  apply leavesUpper_of_passes s
  intro home mem hmem
  rw [conditionalCompare, hw]
  let undef : Instr → Machine → Status := fun _ _ ↦ .ofBits 0
  let rest : Instr → Machine → Option Machine := fun _ m ↦ some m
  have himmediate : (setNzcv (op.extractLsb' 0 4)).flatten.length < 2 ^ 31 := by
    unfold setNzcv
    split <;> exact Nat.le_of_ble_eq_true rfl
  generalize setNzcv (op.extractLsb' 0 4) = immediate at himmediate
  have hcompare : Passes (Semantics.core undef rest) (homeFrame home)
      (emitLoadArmReg (armReg op 5) rax false :: compare).flatten :=
    (keepsUpper_load_rax (armReg op 5) false).cons (h undef rest) home
  have hbody := hcompare.append (passes_jmpOver himmediate)
  generalize htrue : emitLoadArmReg (armReg op 5) rax false :: (compare ++ [jmpOver immediate]) = body
  have hbodyLen : body.flatten.length < 2 ^ 31 := by
    have hload : (emitLoadArmReg (armReg op 5) rax false).length = 6 := rfl
    have hjmp : (jmpOver immediate).length = 5 := rfl
    rw [← htrue]
    simp only [List.flatten_cons, List.flatten_append, List.flatten_nil, List.length_append,
      List.length_nil, hload, hjmp]
    omega
  have hcode : (jccOver (0x80 ||| condAt op) body ++ immediate).flatten =
      (0x0f :: (0x80 ||| condAt op) :: imm32 (BitVec.ofNat 32 body.flatten.length)) ++
        ((emitLoadArmReg (armReg op 5) rax false :: compare).flatten ++
          (0xe9 :: imm32 (BitVec.ofNat 32 immediate.flatten.length) ++ immediate.flatten)) := by
    simp [jccOver, byteCount, ← htrue, jmpOver]
  obtain ⟨whole, hwhole⟩ : ∃ whole, whole = (jccOver (0x80 ||| condAt op) body ++ immediate).flatten :=
    ⟨_, rfl⟩
  have hat : At whole (bareState home mem s).pos whole := at_self whole
  nth_rewrite 2 [hwhole] at hat
  rw [hcode] at hat
  have hjump := runs_jcc undef rest (condAt_jcc op) hbodyLen hat.left
  have hfail : ¬ (bareState home mem s).status.holds ((0x80 ||| condAt op).extractLsb' 0 4) = true := by
    rw [bareState, Machine.status_setStatus, hs]
    exact Bool.false_ne_true
  rw [if_neg hfail] at hjump
  obtain ⟨m', hrun, hpos, -, hkeeps⟩ := hbody whole _
    ((homeFrame home).ready_pos _ (bareState_ready hmem s)) hat.right
  rw [← hwhole]
  refine ⟨undef, rest, m', hjump.trans hrun, ?_, (homeFrame home).trans ((homeFrame home).refl _ _) hkeeps⟩
  have hstart : (bareState home mem s).pos = 0 := rfl
  rw [hpos, hwhole, hcode]
  dsimp only
  rw [hstart, Nat.zero_add]
  exact List.length_append.symm

end Conditional

section Allocating

variable {a : Alloc} {op : BitVec 32}

variable (undef rest) in
/-- A request with a free register at hand emits a load at most. -/
theorem regAllocGetReg_keepsUpper (h : a.Pinned) (hpos : 0 < a.freeRegCount) (r : ArmReg) (d : Bool) :
    (regAllocGetReg a r false d).1.Pinned ∧
      a.freeRegCount - 1 ≤ (regAllocGetReg a r false d).1.freeRegCount ∧
      KeepsUpper undef rest (regAllocGetReg a r false d).2.code := by
  have hev : evictsBase a r = false := by
    have hne : (a.freeRegCount == 0) = false := by
      rw [beq_eq_false_iff_ne]
      omega
    simp only [evictsBase, hne, Bool.and_false, Bool.false_and]
  refine ⟨(regAllocGetReg_pinned h hev false d).1, ?_⟩
  rcases regAllocGetReg_cases h.wellFormed r false d with ⟨-, he⟩ | ⟨b, x, -, -, -, rfl, rfl, he⟩ |
    ⟨i, -, hc, -⟩
  · rw [he]
    refine ⟨?_, keepsUpper_nil⟩
    cases d
    · exact Int.sub_le_self _ (by decide)
    · exact Int.sub_le_self _ (by decide)
  · rw [he]
    have hmem : a.freeRegs (a.freeRegCount - 1) ∈ regAllocMap :=
      h.free_mem _ (by rw [freeStack_pop hpos]; simp)
    have hpool : ∀ x ∈ regAllocMap, loadedReg x false ≠ 5 := by decide
    refine ⟨?_, keepsUpper_load r (hpool _ hmem)⟩
    rw [freeRegCount_place]
  · omega

/-- The last instructions of the allocating translators change registers only. -/
def CombinePasses (combine : Byte → Byte → List Code) : Prop :=
  ∀ d m undef rest, Passes (Semantics.core undef rest) mappedFrame (combine d m).flatten

theorem allocatingAlu_leaves {combine : Byte → Byte → List Code} (hcomb : CombinePasses combine)
    (h : a.Pinned) (hpos : 3 ≤ a.freeRegCount) (hw : is64 op = false) :
    LeavesUpper (allocatingAlu combine a op).2 := by
  rw [allocatingAlu, hw]
  apply KeepsUpper.leaves_append
  · intro undef rest
    obtain ⟨h₁, hle₁, hcode₁⟩ := regAllocGetReg_keepsUpper undef rest h
      (by omega) (armReg op 5) false
    obtain ⟨h₂, hle₂, hcode₂⟩ := regAllocGetReg_keepsUpper undef rest h₁
      (by omega) (armReg op 16) false
    obtain ⟨-, -, hcode₃⟩ := regAllocGetReg_keepsUpper undef rest h₂
      (by omega) (armReg op 0) true
    exact (hcode₁.append hcode₂).append hcode₃
  · intro undef rest
    rw [List.flatten_append]
    refine Passes.append ?_ (hcomb _ _ undef rest)
    split
    · exact passes_nil
    · rw [List.flatten_singleton]
      exact passes_decode (fun tail ↦ decode_movR64R64 _ _ tail) (passable_mapped (regOnly_mov fun _ hsrc ↦ by cases hsrc))

theorem passes_regReg {opcode : Byte} (h : opcode ∈ aluOpcodes) (d m : Byte) :
    Passes (Semantics.core undef rest) mappedFrame [regReg opcode d m].flatten := by
  rw [List.flatten_singleton]
  exact passes_decode (fun tail ↦ decode_regReg d m tail h) (passable_mapped (regOnly_alu _ fun _ hsrc ↦ by cases hsrc))

theorem passes_complement {opcode : Byte} (h : opcode ∈ aluOpcodes) (d m : Byte) :
    Passes (Semantics.core undef rest) mappedFrame [notR64 m, regReg opcode d m].flatten := by
  rw [List.flatten_cons]
  apply Passes.append _ (passes_regReg h d m)
  exact passes_decode (fun tail ↦ decode_notR64 tail m) (passable_mapped regOnly_not)

theorem addSub_leaves (isSub : Bool) (h : a.Pinned) (hpos : 3 ≤ a.freeRegCount)
    (hw : is64 op = false) : LeavesUpper (translateAddSub a op isSub).2 := by
  rw [translateAddSub_eq]
  refine allocatingAlu_leaves (fun d m undef rest ↦ passes_regReg ?_ d m) h hpos hw
  cases isSub <;> decide

theorem logical_leaves (h : a.Pinned) (hpos : 3 ≤ a.freeRegCount) (hw : is64 op = false) :
    LeavesUpper (translateLogical a op).2 := by
  rw [translateLogical_eq]
  refine allocatingAlu_leaves (fun d m undef rest ↦ ?_) h hpos hw
  unfold logicalCombine
  split
  · exact passes_regReg (by decide) d m
  · split
    · exact passes_complement (by decide) d m
    · split
      · exact passes_regReg (by decide) d m
      · exact passes_complement (by decide) d m

/-- The 64-bit constant of a wide move. -/
theorem keepsUpper_movPool {x : Byte} (hx : x ∈ regAllocMap) (imm : BitVec 64) :
    KeepsUpper undef rest
      [(if 8 ≤ x then 0x48 ||| 0x01 else 0x48) :: (0xb8 + (x &&& 7)) :: imm64 imm] := by
  have hdec : ∃ i, RegOnly (Semantics.core undef rest) (toGpr x) i ∧ ∀ tail, X86.decode
      (((if 8 ≤ x then 0x48 ||| 0x01 else 0x48) :: (0xb8 + (x &&& 7)) :: imm64 imm) ++ tail) =
        some (i, tail) := by
    simp only [regAllocMap, List.mem_cons, List.not_mem_nil, or_false] at hx
    rcases hx with rfl | rfl | rfl | rfl | rfl | rfl | rfl | rfl | rfl <;>
      exact ⟨.movImm .b64 (.reg _) _, regOnly_movImm _, fun _ ↦ decode_prefixes rfl rfl⟩
  have hpool : ∀ x ∈ regAllocMap, toGpr x ≠ 5 := by decide
  obtain ⟨i, hreg, hdec⟩ := hdec
  exact keepsUpper_instr hdec hreg (hpool x hx)

/-- A wide move with a free register at hand goes through it. -/
theorem movImm_keepsUpper (h : a.Pinned) (hpos : 0 < a.freeRegCount) (hw : is64 op = false) :
    KeepsUpper undef rest (translateMovImm a op).2 := by
  rw [translateMovImm]
  split
  · exact keepsUpper_movk hw _
  · have hmem : a.freeRegs (a.freeRegCount - 1) ∈ regAllocMap :=
      h.free_mem _ (by rw [freeStack_pop hpos]; simp)
    have hpool : ∀ x ∈ regAllocMap, x ≠ noReg := by decide
    have htake : (regAllocTakeFor a (armReg op 0) (is64 op)).2 = a.freeRegs (a.freeRegCount - 1) := by
      have hne : (a.freeRegCount == 0) = false := by
        rw [beq_eq_false_iff_ne]
        omega
      simp only [regAllocTakeFor, regAllocGetFree, hne, Bool.false_eq_true, if_false, bne_iff_ne, ne_eq,
        hpool _ hmem, not_false_eq_true, if_true]
    dsimp only
    rw [htake, if_pos (bne_iff_ne.mpr (hpool _ hmem)), hw]
    generalize a.freeRegs (a.freeRegCount - 1) = x at hmem
    apply KeepsUpper.cons _ (keepsUpper_store _ _)
    exact keepsUpper_movPool hmem _

end Allocating

end Arm2x86.Translate
