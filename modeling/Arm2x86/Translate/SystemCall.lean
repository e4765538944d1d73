import Arm2x86.Syscall.Model
import Arm2x86.Translate.Memory
import Arm2x86.Translate.StackRuns
import Arm2x86.X86.Runs

/-!
# System calls

`translate_svc` (`modules/arm2x86_translate64.c:1426`) moves seven registers through the stack. What it
calls the kernel with is told from the instructions one by one: two of the moves through a scratch
register go the other way, and two loads have the wrong destination.
-/

namespace Arm2x86.Translate

open X86

section Statements

/-- The number that `translate_syscall_number` gives for the low half of `X8`. -/
def hostNumber (x8 : BitVec 64) : BitVec 64 :=
  BitVec.ofInt 64 (Syscall.translateSyscallNumber (x8.setWidth 32).toInt)

/-- The kernel returns, and of the registers changes `RAX`, `RCX` and `R11` at most. The register home is
no buffer of a call. -/
def KernelReturns (rest : Instr → Machine → Option Machine) : Prop :=
  ∀ m, ∃ m', rest .syscall m = some m' ∧ m'.pos = m.pos ∧
    (∀ g, g ≠ 0 → g ≠ 1 → g ≠ 11 → m'.regs g = m.regs g) ∧
      ∀ r, slotAt (m.regs 5) r m' = slotAt (m.regs 5) r m

/-- A state in front of the code, with room on the stack that is not in the home. -/
structure CallStart (m : Machine) (slots : ArmReg → BitVec 64) : Prop where
  pos : m.pos = 0
  slots : Slots m slots
  room : ∀ i < 64, (m.mem (m.regs 4 - 64 + BitVec.ofNat 64 i)).isSome ∧
    m.regs 4 - 64 + BitVec.ofNat 64 i ∉ homeRegion (m.regs 5)

/-- The number and the arguments are in the registers of the host's calls. -/
structure CallRegs (slots : ArmReg → BitVec 64) (regs : Gpr → BitVec 64) : Prop where
  rax : regs 0 = hostNumber (slots 8)
  rdi : regs 7 = slots 0
  rsi : regs 6 = slots 1
  rdx : regs 2 = slots 2
  r10 : regs 10 = slots 3
  r8 : regs 8 = slots 4
  r9 : regs 9 = slots 5

/-- Whether the next instruction is a system call. -/
def AtSyscall (code : List Byte) (m : Machine) : Prop :=
  ∃ tail, X86.decode (code.drop m.pos) = some (.syscall, tail)

/-- The code comes to one system call, with the number and the arguments, and at its end `X0` has the
result, and the other registers and the stack pointer are as before. -/
def MakesCall (sem : Semantics) (m : Machine) (slots : ArmReg → BitVec 64) : Prop :=
  let code := translateSvc.flatten
  ∃ m₁ m₂, sem.Runs code m m₁ ∧ AtSyscall code m₁ ∧
    (∀ m', sem.Runs code m m' → AtSyscall code m' → m' = m₁) ∧ CallRegs slots m₁.regs ∧
      sem.step code m₁ = some m₂ ∧ Reaches sem code m₂ fun m' ↦ m'.pos = code.length ∧
        m'.regs 4 = m.regs 4 ∧ Slots m' (Function.update slots 0 (m₂.regs 0))

/-- With these values the registers that the code calls the kernel with are the right ones. -/
def CallMatches (slots : ArmReg → BitVec 64) (r10 : BitVec 64) : Prop :=
  slots 2 = slots 1 ∧ r10 = slots 2 ∧ r10 = slots 3 ∧ slots 0 = hostNumber (slots 8)

end Statements

section Instructions

/-- `mov` to the stack. -/
private def toStack (bytes : List Byte) (g : Gpr) (disp : BitVec 64)
    (h : ∀ tail, X86.decode (bytes ++ tail) =
      some (.mov .b64 (.mem (some 4) none disp) (.reg g), tail)) : Chunk := ⟨bytes, _, h⟩

/-- `mov` from the stack. -/
private def fromStack (bytes : List Byte) (g : Gpr) (disp : BitVec 64)
    (h : ∀ tail, X86.decode (bytes ++ tail) =
      some (.mov .b64 (.reg g) (.mem (some 4) none disp), tail)) : Chunk := ⟨bytes, _, h⟩

/-- `mov` between registers. -/
private def between (bytes : List Byte) (g g' : Gpr)
    (h : ∀ tail, X86.decode (bytes ++ tail) = some (.mov .b64 (.reg g) (.reg g'), tail)) : Chunk :=
  ⟨bytes, _, h⟩

/-- The instructions in front of the call. -/
private def marshalChunks : List Chunk :=
  [⟨[0x48, 0x81, 0xec, 64, 0, 0, 0], .aluImm .sub .b64 (.reg 4) 64, fun _ ↦ decode_prefixes rfl rfl⟩,
    loadChunk 8 r11 true, toStack [0x4c, 0x89, 0x04, 0x24] 8 0 fun _ ↦ decode_prefixes rfl rfl,
    loadChunk 0 rax true, toStack [0x48, 0x89, 0x44, 0x24, 0x08] 0 8 fun _ ↦ decode_prefixes rfl rfl,
    loadChunk 1 rdi true, toStack [0x48, 0x89, 0x7c, 0x24, 0x10] 7 16 fun _ ↦ decode_prefixes rfl rfl,
    loadChunk 2 rsi true, toStack [0x48, 0x89, 0x74, 0x24, 0x18] 6 24 fun _ ↦ decode_prefixes rfl rfl,
    loadChunk 3 rdx true, toStack [0x48, 0x89, 0x54, 0x24, 0x20] 2 32 fun _ ↦ decode_prefixes rfl rfl,
    loadChunk 4 r8 true, toStack [0x4c, 0x89, 0x44, 0x24, 0x28] 8 40 fun _ ↦ decode_prefixes rfl rfl,
    loadChunk 5 r9 true, toStack [0x4c, 0x89, 0x4c, 0x24, 0x30] 9 48 fun _ ↦ decode_prefixes rfl rfl,
    fromStack [0x4c, 0x8b, 0x04, 0x24] 8 0 fun _ ↦ decode_prefixes rfl rfl,
    between [0x49, 0x89, 0xc0] 8 0 fun _ ↦ decode_prefixes rfl rfl,
    fromStack [0x48, 0x8b, 0x44, 0x24, 0x08] 0 8 fun _ ↦ decode_prefixes rfl rfl,
    between [0x48, 0x89, 0xc7] 7 0 fun _ ↦ decode_prefixes rfl rfl,
    fromStack [0x48, 0x8b, 0x74, 0x24, 0x10] 6 16 fun _ ↦ decode_prefixes rfl rfl,
    fromStack [0x48, 0x8b, 0x74, 0x24, 0x18] 6 24 fun _ ↦ decode_prefixes rfl rfl,
    fromStack [0x48, 0x8b, 0x54, 0x24, 0x20] 2 32 fun _ ↦ decode_prefixes rfl rfl,
    between [0x4c, 0x89, 0xd2] 2 10 fun _ ↦ decode_prefixes rfl rfl,
    fromStack [0x4c, 0x8b, 0x44, 0x24, 0x28] 8 40 fun _ ↦ decode_prefixes rfl rfl,
    fromStack [0x4c, 0x8b, 0x4c, 0x24, 0x30] 9 48 fun _ ↦ decode_prefixes rfl rfl]

private def callChunk : Chunk := ⟨emitSyscall, .syscall, fun _ ↦ rfl⟩

/-- The instructions behind the call. -/
private def returnChunks : List Chunk :=
  [⟨[0x48, 0x81, 0xc4, 64, 0, 0, 0], .aluImm .add .b64 (.reg 4) 64, fun _ ↦ decode_prefixes rfl rfl⟩,
    storeChunk rax 0 true]

private def svcChunks : List Chunk := marshalChunks ++ callChunk :: returnChunks

private theorem svcChunks_bytes : chunkBytes svcChunks = translateSvc.flatten := by
  decide

private theorem svcChunks_call : ∀ k (h : k < svcChunks.length), svcChunks[k].instr = .syscall → k = 25 := by
  decide

end Instructions

section Runs

variable {undef : Instr → Machine → Status} {rest : Instr → Machine → Option Machine}
variable {slots : ArmReg → BitVec 64} {sp r10 : BitVec 64} {saved : Nat → BitVec 64} {v : Values} {n : Nat}

/-- The registers with the stack frame, of which the first slots have values. -/
private structure Saved (slots : ArmReg → BitVec 64) (sp r10 : BitVec 64) (saved : Nat → BitVec 64)
    (n : Nat) (v : Values) : Prop where
  slots : v.slots = slots
  stack : v.regs 4 = sp
  r10 : v.regs 10 = r10
  room : v.Beside sp 64
  saved : ∀ k < n, Sparse.load v.mem (sp + BitVec.ofNat 64 (8 * k)) 8 =
    some (Machine.bytes (saved k) 8)

private theorem Saved.setReg (h : Saved slots sp r10 saved n v) {g : Gpr} (hg : g ≠ 4 ∧ g ≠ 5 ∧ g ≠ 10)
    (x : BitVec 64) : Saved slots sp r10 saved n (v.setReg g x) where
  slots := h.slots
  stack := (if_neg (Ne.symm hg.1)).trans h.stack
  r10 := (if_neg (Ne.symm hg.2.2)).trans h.r10
  room := h.room.setReg hg.2.1 x
  saved := h.saved

private theorem Saved.put (h : Saved slots sp r10 saved n v) (hn : n < 8) :
    Saved slots sp r10 saved (n + 1)
      (v.put (sp + BitVec.ofNat 64 (8 * n)) (Machine.bytes (saved n) 8)) where
  slots := h.slots
  stack := h.stack
  r10 := h.r10
  room := h.room.put _ _
  saved := by
    intro k hk
    rcases Nat.lt_or_eq_of_le (Nat.le_of_lt_succ hk) with hlt | rfl
    · refine Eq.trans (Sparse.load_overwrite_of_notMem fun i hi ↦ ?_) (h.saved k hlt)
      rw [Machine.length_bytes]
      have hne : Fin.ofNat 32 k ≠ Fin.ofNat 32 n := by
        intro he
        have hval := congrArg Fin.val he
        rw [Fin.val_ofNat, Fin.val_ofNat] at hval
        omega
      have hslot := slot_notMem_slot sp hne hi (Nat.le_refl 8)
      have hmod : ∀ j < 8, slotAddr sp (Fin.ofNat 32 j) = sp + BitVec.ofNat 64 (8 * j) := by
        intro j hj
        rw [slotAddr, Fin.val_ofNat, Nat.mod_eq_of_lt (by omega)]
      rwa [hmod k (by omega), hmod n hn] at hslot
    · exact Sparse.load_overwrite (by rw [Machine.length_bytes]; decide)

/-- A guest register to a host register, and one to the next slot of the frame. -/
private theorem Saved.next (h : Saved slots sp r10 saved n v) (hn : n < 8) (r : ArmReg) (x : Byte) (c : Chunk)
    (g : Gpr) (hx : toGpr x ≠ 4 ∧ toGpr x ≠ 5 ∧ toGpr x ≠ 10) (hload : loadedReg x true = toGpr x)
    (hc : c.instr = .mov .b64 (.mem (some 4) none (BitVec.ofNat 64 (8 * n))) (.reg g))
    (hg : (v.setReg (toGpr x) (slots r)).regs g = saved n) :
    ∃ v', Takes (Semantics.core undef rest) ((loadChunk r x true).bytes ++ c.bytes) v v' ∧
      Saved slots sp r10 saved (n + 1) v' := by
  have hne : loadedReg x true ≠ 5 := by
    rw [hload]
    exact hx.2.1
  have hloads := (computes_load undef rest r hne).takes v
  rw [hload, h.slots] at hloads
  have hv := h.setReg hx (slots r)
  have haddr : (v.setReg (toGpr x) (slots r)).regs 4 + BitVec.ofNat 64 (8 * n) =
      sp + BitVec.ofNat 64 (8 * n) := by
    rw [hv.stack]
  have hbeside : (v.setReg (toGpr x) (slots r)).Beside
      ((v.setReg (toGpr x) (slots r)).regs 4 + BitVec.ofNat 64 (8 * n)) 8 := by
    rw [haddr]
    exact hv.room.part (by omega)
  have hstores := takes_movStore undef rest hbeside fun tail ↦ hc ▸ c.decodes tail
  rw [haddr, hg] at hstores
  exact ⟨_, hloads.append hstores, hv.put hn⟩

/-- The frame has the values of the argument registers. -/
private theorem Saved.argument (h : Saved slots sp r10 saved n v) (hn : n < 8) (r : ArmReg) (x : Byte)
    (c : Chunk) (hx : toGpr x ≠ 4 ∧ toGpr x ≠ 5 ∧ toGpr x ≠ 10) (hload : loadedReg x true = toGpr x)
    (hc : c.instr = .mov .b64 (.mem (some 4) none (BitVec.ofNat 64 (8 * n))) (.reg (toGpr x)))
    (hsaved : saved n = slots r) :
    ∃ v', Takes (Semantics.core undef rest) ((loadChunk r x true).bytes ++ c.bytes) v v' ∧
      Saved slots sp r10 saved (n + 1) v' :=
  h.next hn r x c (toGpr x) hx hload hc ((Values.regs_setReg_self _ _ _).trans hsaved.symm)

/-- A slot of the frame to a register. -/
private theorem Saved.fetch (h : Saved slots sp r10 saved n v) {k : Nat} (hk : k < n) (hn : n ≤ 8)
    (c : Chunk) {g : Gpr} (hg : g ≠ 5)
    (hc : c.instr = .mov .b64 (.reg g) (.mem (some 4) none (BitVec.ofNat 64 (8 * k)))) :
    Takes (Semantics.core undef rest) c.bytes v (v.setReg g (saved k)) := by
  have haddr : v.regs 4 + BitVec.ofNat 64 (8 * k) = sp + BitVec.ofNat 64 (8 * k) := by
    rw [h.stack]
  have hout : ∀ i < 8, v.regs 4 + BitVec.ofNat 64 (8 * k) + BitVec.ofNat 64 i ∉
      homeRegion (v.regs 5) := by
    rw [haddr]
    exact (h.room.part (by omega)).outside
  have hload : Sparse.load v.mem (v.regs 4 + BitVec.ofNat 64 (8 * k)) 8 =
      some (Machine.bytes (saved k) 8) := by
    rw [haddr]
    exact h.saved k hk
  exact takes_movLoad undef rest hg hout hload fun tail ↦ hc ▸ c.decodes tail

private theorem takes_between {c : Chunk} (v : Values) {g g' : Gpr} (hg : g ≠ 5)
    (hc : c.instr = .mov .b64 (.reg g) (.reg g')) :
    Takes (Semantics.core undef rest) c.bytes v (v.setReg g (v.regs g')) :=
  (computes_movReg undef rest hg fun tail ↦ hc ▸ c.decodes tail).takes v

/-- The frame is taken from the stack and given back. -/
private theorem computes_subStack {c : Chunk} (hc : c.instr = .aluImm .sub .b64 (.reg 4) 64) :
    Computes (Semantics.core undef rest) c.bytes fun v ↦ v.setReg 4 (v.regs 4 - 64) := by
  apply computes_instr fun tail ↦ hc ▸ c.decodes tail
  intro m v hv
  have hexec : (Semantics.core undef rest).exec (.aluImm .sub .b64 (.reg 4) 64) m =
      some ((m.setReg 4 (((m.regs 4).setWidth 64 - (64 : BitVec 64).setWidth 64).setWidth 64)).setStatus
        (.ofSub ((m.regs 4).setWidth 64) ((64 : BitVec 64).setWidth 64) false)) := rfl
  rw [BitVec.setWidth_eq, BitVec.setWidth_eq, BitVec.setWidth_eq, hv.regs] at hexec
  exact ⟨_, hexec, rfl, (hv.setReg (by decide) _).setStatus _⟩

private theorem computes_addStack {c : Chunk} (hc : c.instr = .aluImm .add .b64 (.reg 4) 64) :
    Computes (Semantics.core undef rest) c.bytes fun v ↦ v.setReg 4 (v.regs 4 + 64) := by
  apply computes_instr fun tail ↦ hc ▸ c.decodes tail
  intro m v hv
  have hexec : (Semantics.core undef rest).exec (.aluImm .add .b64 (.reg 4) 64) m =
      some ((m.setReg 4 (((m.regs 4).setWidth 64 + (64 : BitVec 64).setWidth 64).setWidth 64)).setStatus
        (.ofAdd ((m.regs 4).setWidth 64) ((64 : BitVec 64).setWidth 64) false)) := rfl
  rw [BitVec.setWidth_eq, BitVec.setWidth_eq, BitVec.setWidth_eq, hv.regs] at hexec
  exact ⟨_, hexec, rfl, (hv.setReg (by decide) _).setStatus _⟩

/-- What is in the frame: `R8` and the arguments. -/
private def frameValue (slots : ArmReg → BitVec 64) (r8 : BitVec 64) (k : Nat) : BitVec 64 :=
  [r8, slots 0, slots 1, slots 2, slots 3, slots 4, slots 5].getD k 0

variable (undef rest) in
/-- The instructions that fill the frame. -/
private theorem takes_fill {m : Machine} (hm : CallStart m slots) : ∃ v,
    Takes (Semantics.core undef rest) (chunkBytes (marshalChunks.take 15)) ⟨slots, m.regs, m.mem⟩ v ∧
      Saved slots (m.regs 4 - 64) (m.regs 10) (frameValue slots (m.regs 8)) 7 v := by
  let v₀ : Values := ⟨slots, m.regs, m.mem⟩
  have hframe : Takes (Semantics.core undef rest) marshalChunks[0].bytes v₀
      (v₀.setReg 4 (m.regs 4 - 64)) :=
    (computes_subStack rfl).takes v₀
  have hroom : v₀.Beside (m.regs 4 - 64) 64 := ⟨fun i hi ↦ (hm.room i hi).2, fun i hi ↦ (hm.room i hi).1⟩
  have hv : Saved slots (m.regs 4 - 64) (m.regs 10) (frameValue slots (m.regs 8)) 0
      (v₀.setReg 4 (m.regs 4 - 64)) := by
    refine ⟨rfl, Values.regs_setReg_self _ _ _, rfl, hroom.setReg (by decide) _, fun k hk ↦ ?_⟩
    exact absurd hk (Nat.not_lt_zero k)
  obtain ⟨v₁, htakes₁, hv₁⟩ := hv.next (by decide) 8 r11 marshalChunks[2] 8 (by decide) rfl rfl rfl
  obtain ⟨v₂, htakes₂, hv₂⟩ := hv₁.argument (by decide) 0 rax marshalChunks[4] (by decide) rfl rfl rfl
  obtain ⟨v₃, htakes₃, hv₃⟩ := hv₂.argument (by decide) 1 rdi marshalChunks[6] (by decide) rfl rfl rfl
  obtain ⟨v₄, htakes₄, hv₄⟩ := hv₃.argument (by decide) 2 rsi marshalChunks[8] (by decide) rfl rfl rfl
  obtain ⟨v₅, htakes₅, hv₅⟩ := hv₄.argument (by decide) 3 rdx marshalChunks[10] (by decide) rfl rfl rfl
  obtain ⟨v₆, htakes₆, hv₆⟩ := hv₅.argument (by decide) 4 r8 marshalChunks[12] (by decide) rfl rfl rfl
  obtain ⟨v₇, htakes₇, hv₇⟩ := hv₆.argument (by decide) 5 r9 marshalChunks[14] (by decide) rfl rfl rfl
  have hall := hframe.append (htakes₁.append (htakes₂.append (htakes₃.append (htakes₄.append
    (htakes₅.append (htakes₆.append htakes₇))))))
  exact ⟨v₇, hall, hv₇⟩

variable (undef rest) in
/-- The instructions that get the registers of the call from the frame. -/
private theorem takes_arguments (hv : Saved slots sp r10 saved 7 v) : ∃ v',
    Takes (Semantics.core undef rest) (chunkBytes (marshalChunks.drop 15)) v v' ∧ v'.slots = slots ∧
      v'.regs 4 = sp ∧ v'.regs 0 = saved 1 ∧ v'.regs 7 = saved 1 ∧ v'.regs 6 = saved 3 ∧
        v'.regs 2 = r10 ∧ v'.regs 10 = r10 ∧ v'.regs 8 = saved 5 ∧ v'.regs 9 = saved 6 := by
  let v₁ := v.setReg 8 (saved 0)
  let v₂ := v₁.setReg 8 (v₁.regs 0)
  let v₃ := v₂.setReg 0 (saved 1)
  let v₄ := v₃.setReg 7 (v₃.regs 0)
  let v₅ := v₄.setReg 6 (saved 2)
  let v₆ := v₅.setReg 6 (saved 3)
  let v₇ := v₆.setReg 2 (saved 4)
  let v₈ := v₇.setReg 2 (v₇.regs 10)
  let v₉ := v₈.setReg 8 (saved 5)
  let v₁₀ := v₉.setReg 9 (saved 6)
  have hv₁ : Saved slots sp r10 saved 7 v₁ := hv.setReg (by decide) _
  have hv₂ : Saved slots sp r10 saved 7 v₂ := hv₁.setReg (by decide) _
  have hv₃ : Saved slots sp r10 saved 7 v₃ := hv₂.setReg (by decide) _
  have hv₄ : Saved slots sp r10 saved 7 v₄ := hv₃.setReg (by decide) _
  have hv₅ : Saved slots sp r10 saved 7 v₅ := hv₄.setReg (by decide) _
  have hv₆ : Saved slots sp r10 saved 7 v₆ := hv₅.setReg (by decide) _
  have hv₇ : Saved slots sp r10 saved 7 v₇ := hv₆.setReg (by decide) _
  have hv₈ : Saved slots sp r10 saved 7 v₈ := hv₇.setReg (by decide) _
  have hv₉ : Saved slots sp r10 saved 7 v₉ := hv₈.setReg (by decide) _
  have hv₁₀ : Saved slots sp r10 saved 7 v₁₀ := hv₉.setReg (by decide) _
  let sem := Semantics.core undef rest
  have h₁ : Takes sem marshalChunks[15].bytes v v₁ := hv.fetch (k := 0) (by decide) (by decide) _ (by decide) rfl
  have h₂ : Takes sem marshalChunks[16].bytes v₁ v₂ := takes_between v₁ (by decide) rfl
  have h₃ : Takes sem marshalChunks[17].bytes v₂ v₃ := hv₂.fetch (k := 1) (by decide) (by decide) _ (by decide) rfl
  have h₄ : Takes sem marshalChunks[18].bytes v₃ v₄ := takes_between v₃ (by decide) rfl
  have h₅ : Takes sem marshalChunks[19].bytes v₄ v₅ := hv₄.fetch (k := 2) (by decide) (by decide) _ (by decide) rfl
  have h₆ : Takes sem marshalChunks[20].bytes v₅ v₆ := hv₅.fetch (k := 3) (by decide) (by decide) _ (by decide) rfl
  have h₇ : Takes sem marshalChunks[21].bytes v₆ v₇ := hv₆.fetch (k := 4) (by decide) (by decide) _ (by decide) rfl
  have h₈ : Takes sem marshalChunks[22].bytes v₇ v₈ := takes_between v₇ (by decide) rfl
  have h₉ : Takes sem marshalChunks[23].bytes v₈ v₉ := hv₈.fetch (k := 5) (by decide) (by decide) _ (by decide) rfl
  have h₁₀ : Takes sem marshalChunks[24].bytes v₉ v₁₀ :=
    hv₉.fetch (k := 6) (by decide) (by decide) _ (by decide) rfl
  have hall : Takes sem (chunkBytes (marshalChunks.drop 15)) v v₁₀ :=
    h₁.append (h₂.append (h₃.append (h₄.append (h₅.append (h₆.append (h₇.append
      (h₈.append (h₉.append h₁₀))))))))
  have hr10 : v₇.regs 10 = r10 := hv₇.r10
  refine ⟨v₁₀, hall, hv₁₀.slots, hv₁₀.stack, rfl, rfl, rfl, hr10, hv₁₀.r10, rfl, rfl⟩

variable (undef rest) in
private theorem takes_marshal {m : Machine} (hm : CallStart m slots) : ∃ v,
    Takes (Semantics.core undef rest) (chunkBytes marshalChunks) ⟨slots, m.regs, m.mem⟩ v ∧
      v.slots = slots ∧ v.regs 4 = m.regs 4 - 64 ∧ v.regs 0 = slots 0 ∧ v.regs 7 = slots 0 ∧
        v.regs 6 = slots 2 ∧ v.regs 2 = m.regs 10 ∧ v.regs 10 = m.regs 10 ∧ v.regs 8 = slots 4 ∧
          v.regs 9 = slots 5 := by
  obtain ⟨v, hfill, hv⟩ := takes_fill undef rest hm
  obtain ⟨v', harguments, hregs⟩ := takes_arguments undef rest hv
  exact ⟨v', hfill.append harguments, hregs⟩

/-- The kinds of instructions of the code. -/
private def inCall : Instr → Bool
  | .mov .b64 _ _ | .aluImm .sub .b64 (.reg 4) 64 | .aluImm .add .b64 (.reg 4) 64 | .syscall => true
  | _ => false

private theorem svcChunks_inCall : ∀ c ∈ svcChunks, inCall c.instr = true := by
  decide

private theorem sequential_inCall (hk : KernelReturns rest) {i : Instr} (hi : inCall i = true) :
    (Semantics.core undef rest).Sequential i := by
  intro m m' hexec
  rw [inCall.eq_def] at hi
  split at hi
  · rw [(Semantics.core undef rest).mov] at hexec
    obtain ⟨x, -, hwrite⟩ := Option.bind_eq_some_iff.mp hexec
    exact Machine.write64_pos hwrite
  · rw [← Option.some.inj hexec]
    rfl
  · rw [← Option.some.inj hexec]
    rfl
  · obtain ⟨m'', hcall, hpos, -⟩ := hk m
    have hsame : m'' = m' := Option.some.inj (hcall.symm.trans hexec)
    rw [← hsame, hpos]
  · cases hi

variable (undef rest) in
/-- The code comes to its call with these registers, and from there to its end. -/
private theorem runs_svc (hk : KernelReturns rest) {m : Machine} (hm : CallStart m slots) : ∃ m₁ m₂,
    (Semantics.core undef rest).Runs translateSvc.flatten m m₁ ∧ AtSyscall translateSvc.flatten m₁ ∧
      (m₁.regs 0 = slots 0 ∧ m₁.regs 7 = slots 0 ∧ m₁.regs 6 = slots 2 ∧ m₁.regs 2 = m.regs 10 ∧
        m₁.regs 10 = m.regs 10 ∧ m₁.regs 8 = slots 4 ∧ m₁.regs 9 = slots 5) ∧
      (Semantics.core undef rest).step translateSvc.flatten m₁ = some m₂ ∧
      Reaches (Semantics.core undef rest) translateSvc.flatten m₂ fun m' ↦
        m'.pos = translateSvc.flatten.length ∧ m'.regs 4 = m.regs 4 ∧
          Slots m' (Function.update slots 0 (m₂.regs 0)) := by
  have hbytes : translateSvc.flatten =
      chunkBytes marshalChunks ++ (callChunk.bytes ++ chunkBytes returnChunks) :=
    svcChunks_bytes.symm
  have hat : At translateSvc.flatten m.pos
      (chunkBytes marshalChunks ++ (callChunk.bytes ++ chunkBytes returnChunks)) := by
    rw [← hbytes, hm.pos]
    exact at_self _
  obtain ⟨v, htakes, hslots, hsp, hregs⟩ := takes_marshal undef rest hm
  have hv₀ : Values.Of ⟨slots, m.regs, m.mem⟩ m := ⟨hm.slots, rfl, fun _ _ ↦ rfl⟩
  obtain ⟨m₁, hrun, hpos, hv⟩ := htakes _ m hv₀ hat.left
  have hat₁ : At translateSvc.flatten m₁.pos (callChunk.bytes ++ chunkBytes returnChunks) := by
    rw [hpos]
    exact hat.right
  obtain ⟨m₂, hcall, hpos₂, hkeeps, hhome⟩ := hk { m₁ with pos := m₁.pos + callChunk.bytes.length }
  have hstep : (Semantics.core undef rest).step translateSvc.flatten m₁ = some m₂ := by
    rw [Semantics.step_chunk callChunk hat₁.left]
    exact hcall
  have hslots₂ : Slots m₂ slots := by
    intro r
    have hsame : m₂.regs 5 = m₁.regs 5 := hkeeps 5 (by decide) (by decide) (by decide)
    have hslot := hv.slots r
    rw [hslots] at hslot
    rw [hsame, ← hslot]
    exact hhome r
  let v₂ : Values := ⟨slots, m₂.regs, m₂.mem⟩
  have hv₂ : v₂.Of m₂ := ⟨hslots₂, rfl, fun _ _ ↦ rfl⟩
  have hlow : rax < 8 := by decide
  have hadd : Takes (Semantics.core undef rest) returnChunks[0].bytes v₂ (v₂.setReg 4 (m₂.regs 4 + 64)) :=
    (computes_addStack rfl).takes v₂
  have hreturn : Takes (Semantics.core undef rest) (chunkBytes returnChunks) v₂ _ :=
    hadd.append ((computes_store undef rest 0 hlow true).takes _)
  have hat₂ : At translateSvc.flatten m₂.pos (chunkBytes returnChunks) := by
    rw [hpos₂]
    exact hat₁.right
  obtain ⟨m₃, hrun₃, hpos₃, hv₃⟩ := hreturn _ m₂ hv₂ hat₂
  refine ⟨m₁, m₂, hrun, ?_, ?_, hstep, m₃, hrun₃, ?_, ?_, hv₃.slots⟩
  · obtain ⟨tail, htail⟩ := hat₁.left
    refine ⟨tail, ?_⟩
    rw [← htail]
    rfl
  · rw [hv.regs]
    exact hregs
  · rw [hpos₃, hpos₂, hbytes, List.length_append, List.length_append, hpos, hm.pos, Nat.zero_add,
      Nat.add_assoc]
  · rw [hv₃.regs]
    show m₂.regs 4 + 64 = m.regs 4
    rw [hkeeps 4 (by decide) (by decide) (by decide), hv.regs, hsp, BitVec.sub_add_cancel]

end Runs

section Results

variable {undef : Instr → Machine → Status} {rest : Instr → Machine → Option Machine}
variable {slots : ArmReg → BitVec 64} {m m₁ m' : Machine}

/-- There is one state in front of the call. -/
private theorem atSyscall_unique (hk : KernelReturns rest) (hm : m.pos = 0)
    (hrun : (Semantics.core undef rest).Runs translateSvc.flatten m m')
    (hcall : AtSyscall translateSvc.flatten m')
    (hrun₁ : (Semantics.core undef rest).Runs translateSvc.flatten m m₁)
    (hcall₁ : AtSyscall translateSvc.flatten m₁) : m' = m₁ := by
  have hat : At translateSvc.flatten m.pos (chunkBytes svcChunks) := by
    rw [hm, svcChunks_bytes]
    exact at_self _
  have hend : m.pos + (chunkBytes svcChunks).length = translateSvc.flatten.length := by
    rw [hm, svcChunks_bytes, Nat.zero_add]
  exact hrun.unique hrun₁ (fun c hc ↦ sequential_inCall hk (svcChunks_inCall c hc)) hat hend
    svcChunks_call hcall hcall₁

private theorem MakesCall.agrees (hk : KernelReturns rest) (hm : CallStart m slots)
    (h : MakesCall (Semantics.core undef rest) m slots) : CallMatches slots (m.regs 10) := by
  obtain ⟨m₁, m₂, hrun, hcall, ⟨hrax, -, hrsi, hrdx, hr10, -⟩, -⟩ := runs_svc undef rest hk hm
  obtain ⟨m₁', -, hrun', hcall', -, hregs, -⟩ := h
  rw [atSyscall_unique hk hm.pos hrun' hcall' hrun hcall] at hregs
  exact ⟨hrsi.symm.trans hregs.rsi, hrdx.symm.trans hregs.rdx, hr10.symm.trans hregs.r10,
    hrax.symm.trans hregs.rax⟩

/-- The code makes the call of the guest exactly where the values agree that it mixes up: it passes `X2`
for `X1`, the host's `R10` for `X2` and `X3`, and `X0` for the number. -/
theorem makesCall_iff (undef : Instr → Machine → Status) (hk : KernelReturns rest)
    (hm : CallStart m slots) :
    MakesCall (Semantics.core undef rest) m slots ↔ CallMatches slots (m.regs 10) := by
  constructor
  · exact MakesCall.agrees hk hm
  · rintro ⟨h1, h2, h3, h8⟩
    obtain ⟨m₁, m₂, hrun, hcall, ⟨hrax, hrdi, hrsi, hrdx, hr10, hr8, hr9⟩, hstep, hreturn⟩ :=
      runs_svc undef rest hk hm
    refine ⟨m₁, m₂, hrun, hcall, fun m' hrun' hcall' ↦ ?_, ?_, hstep, hreturn⟩
    · exact atSyscall_unique hk hm.pos hrun' hcall' hrun hcall
    · exact ⟨hrax.trans h8, hrdi, hrsi.trans h1, hrdx.trans h2, hr10.trans h3, hr8, hr9⟩

/-- Slots with a stack, and zeros in the host registers. -/
private def callValues (slots : ArmReg → BitVec 64) : Values where
  slots := slots
  regs g := if g = 5 then 0x10000 else if g = 4 then 0x8000 else 0
  mem q := if q ∈ (⟨0x7fc0, 64⟩ : Region) then some 0 else none

private theorem callStart (slots : ArmReg → BitVec 64) :
    CallStart (machineOf (callValues slots)) slots where
  pos := rfl
  slots := (machineOf_of (callValues slots)).slots
  room := by
    intro i hi
    have hout : ∀ i < 64, (0x7fc0 : BitVec 64) + BitVec.ofNat 64 i ∉ homeRegion 0x10000 := by
      decide +kernel
    have hmapped : ∀ i < 64, (0x7fc0 : BitVec 64) + BitVec.ofNat 64 i ∈ (⟨0x7fc0, 64⟩ : Region) :=
      fun i hi ↦ Region.start_add_mem hi
    have hmem := (machineOf_of (callValues slots)).mem _ (hout i hi)
    have hsp : (machineOf (callValues slots)).regs 4 - 64 = 0x7fc0 := by
      show (0x8000 : BitVec 64) - 64 = 0x7fc0
      decide
    rw [hsp]
    refine ⟨?_, hout i hi⟩
    have hzero : (callValues slots).mem (0x7fc0 + BitVec.ofNat 64 i) = some 0 := if_pos (hmapped i hi)
    rw [hmem, hzero]
    rfl

/-- A kernel with one result for every call. -/
private def oneResult (i : Instr) (m : Machine) : Option Machine :=
  if i = .syscall then some (m.setReg 0 1234) else none

private theorem kernelReturns_oneResult : KernelReturns oneResult := by
  intro m
  refine ⟨m.setReg 0 1234, rfl, rfl, fun g h0 _ _ ↦ if_neg h0, fun r ↦ ?_⟩
  rfl

/-- `getpid` where `X0` has its number by chance. -/
theorem makesCall_getpid : MakesCall (Semantics.core (fun _ m ↦ m.status) oneResult)
    (machineOf (callValues fun r ↦ if r = 0 ∨ r = 8 then 172 else 0))
    fun r ↦ if r = 0 ∨ r = 8 then 172 else 0 := by
  have hnumber : (172 : BitVec 64) = hostNumber 172 := by decide +kernel
  exact (makesCall_iff _ kernelReturns_oneResult (callStart _)).mpr ⟨rfl, rfl, rfl, hnumber⟩

/-- Where each register has its number, the call gets `X2` for `X1`. -/
theorem svc_missed : ¬ MakesCall (Semantics.core (fun _ m ↦ m.status) oneResult)
    (machineOf (callValues fun r ↦ BitVec.ofNat 64 r)) fun r ↦ BitVec.ofNat 64 r := by
  intro h
  obtain ⟨h1, -⟩ := h.agrees kernelReturns_oneResult (callStart _)
  exact absurd h1 (by decide)

end Results

end Arm2x86.Translate
