import Arm2x86.X86.Machine
import Arm2x86.X86.RoundTrip
import Arm2x86.Translate.Jumps
import Arm2x86.A64.Integer

/-!
# Straight-line integer blocks

What a translated block of integer instructions has to return, against the A64 semantics. The
entry code stores three registers through `R13`, which `arm2x86_call_with_reg_home` does not set:
where nothing is mapped there, no translated block gets to its return.
-/

/-!
## What the code in front of a block does

The prologue of `arm2x86_convert_block` (`modules/arm2x86_translate64.c:4243`) is meant to put the
argument registers into the slots of `X0` to `X7`. As it is encoded, the slot of `X4` gets `RAX`, and
the stores for `X5` to `X7` go through `R13`, which nothing sets.
-/

namespace Arm2x86.Translate

open X86

/-- A slot of the register home as an operand. -/
def slotLoc (r : ArmReg) : Loc := .mem (some 5) none (BitVec.ofNat 64 (8 * r))

/-- A store of the prologue to a slot. -/
private def storeCode (rex reg : Byte) (r : ArmReg) : Code :=
  [rex, 0x89, modrm 2 (reg &&& 7) 5] ++ imm32 (armRegOffset r)

/-- The prologue and the load of `X29`, instruction by instruction. -/
def entryMovs : List MovCode :=
  [⟨storeCode 0x48 4 31, slotLoc 31, .reg 4⟩, ⟨storeCode 0x48 rdi 0, slotLoc 0, .reg 7⟩,
    ⟨storeCode 0x48 rsi 1, slotLoc 1, .reg 6⟩, ⟨storeCode 0x48 rdx 2, slotLoc 2, .reg 2⟩,
    ⟨storeCode 0x48 rcx 3, slotLoc 3, .reg 1⟩, ⟨storeCode 0x48 r8 4, slotLoc 4, .reg 0⟩,
    ⟨storeCode 0x49 r9 5, .mem (some 13) none 0x28, .reg 1⟩,
    ⟨storeCode 0x49 r10 6, .mem (some 13) none 0x30, .reg 2⟩,
    ⟨storeCode 0x49 r11 7, .mem (some 13) none 0x38, .reg 3⟩,
    ⟨storeCode 0x48 rbp 29, slotLoc 29, .reg 5⟩, ⟨emitLoadArmReg 29 rbp true, .reg 5, slotLoc 29⟩]

theorem decode_entryMovs : ∀ c ∈ entryMovs, ∀ rest,
    X86.decode (c.bytes ++ rest) = some (.mov .b64 c.dst c.src, rest) := by
  simp only [entryMovs, List.forall_mem_cons]
  refine ⟨?_, ?_, ?_, ?_, ?_, ?_, ?_, ?_, ?_, ?_, ?_, fun c hc ↦ absurd hc List.not_mem_nil⟩
  iterate 10 exact fun rest ↦ decode_storeDisp _ _ rest (by decide)
  exact fun rest ↦ decode_loadDisp _ _ rest (by decide)

/-- The output is the entry code, the code of the instructions and the epilogue. -/
theorem convertBlockBytes_parts (env : Env) (stack : Stack) (blk : Block) (x86Base : BitVec 64) :
    ∃ body, convertBlockBytes env stack blk x86Base =
      entryMovs.flatMap MovCode.bytes ++ (body ++ epilogue.flatten) := by
  have hgrows : (startCtx stack blk x86Base).out <+:
      (convertLoop env stack blk maxInstructions 0 (startCtx stack blk x86Base)).batchStore.out :=
    (out_prefix_convertLoop _ _ _ _ _ _).trans (out_prefix_batchStore _)
  obtain ⟨items, hout⟩ := hgrows
  refine ⟨items.flatMap Item.bytes, ?_⟩
  unfold convertBlockBytes convertBlock TranslateCtx.emit TranslateCtx.emitItems
  show (_ ++ _ : List Item).flatMap Item.bytes = _
  rw [← hout, List.flatMap_append, List.flatMap_append, List.append_assoc]
  rfl

/-- A run that the entry code stops does not come to the return. -/
theorem not_return_of_entry_fault (sem : Semantics) {env : Env} {stack : Stack} {blk : Block}
    {x86Base : BitVec 64} {m : Machine} (hpos : m.pos = 0) (hfault : runMovs entryMovs m = none)
    {n : Nat} {m' : Machine}
    (hrun : sem.steps (convertBlockBytes env stack blk x86Base) n m = some m') :
    (convertBlockBytes env stack blk x86Base).drop m'.pos ≠ [0xc3] := by
  obtain ⟨body, hcode⟩ := convertBlockBytes_parts env stack blk x86Base
  have hdrop : (convertBlockBytes env stack blk x86Base).drop m.pos =
      entryMovs.flatMap MovCode.bytes ++ (body ++ epilogue.flatten) := by
    rw [hpos, List.drop_zero, hcode]
  have hentry : n < entryMovs.length := by
    apply Nat.lt_of_not_le
    intro hle
    have hall := sem.steps_movs decode_entryMovs hdrop
    rw [← Nat.add_sub_of_le hle, sem.steps_add, hall, hfault] at hrun
    cases hrun
  rw [sem.steps_movs_take decode_entryMovs hdrop (Nat.le_of_lt hentry)] at hrun
  have hpos' := runMovs_pos hrun
  have htake : ((entryMovs.take n).flatMap MovCode.bytes).length ≤
      (entryMovs.flatMap MovCode.bytes).length := by
    conv_rhs => rw [← List.take_append_drop n entryMovs, List.flatMap_append]
    rw [List.length_append]
    exact Nat.le_add_right _ _
  intro hret
  have hlen := congrArg List.length hret
  have hepilogue : epilogue.flatten.length = 8 := rfl
  rw [hcode, List.length_drop, List.length_append, List.length_append, hepilogue] at hlen
  simp only [List.length_cons, List.length_nil] at hlen
  omega

end Arm2x86.Translate

namespace Arm2x86.Translate

open X86

/-- A state in which a translated block is called: `RBP` points at the 256 bytes of a register
home. -/
structure Entry (x86Base : BitVec 64) (m : Machine) : Prop where
  pos : m.pos = 0
  codeBase : m.codeBase = x86Base
  home : ∀ i < 256, (m.mem (m.regs 5 + BitVec.ofNat 64 i)).isSome

/-- A slot of the register home at an address. -/
def slotAt (home : BitVec 64) (r : ArmReg) (m : Machine) : Option (BitVec 64) :=
  (m.load (home + BitVec.ofNat 64 (8 * r)) 8).map Machine.value

/-- The guest registers a block is called with: the four arguments, and the slots of the others. -/
def calledWith (m : Machine) : A64.Regs := fun r ↦
  if r = 0 then m.regs 7 else if r = 1 then m.regs 6 else if r = 2 then m.regs 2
  else if r = 3 then m.regs 1
  else (slotAt (m.regs 5) r.toFin m).getD 0

/-- From every call the translation of a program gets to its return with `X0` in `RAX`. -/
def ReturnsX0 (sem : Semantics) (env : Env) (stack : Stack) (addr x86Base : BitVec 64)
    (prog : A64.Program 64) : Prop :=
  let code := convertBlockBytes env stack (Block.ofWords addr prog.words) x86Base
  ∀ m, Entry x86Base m → ∃ n m', sem.steps code n m = some m' ∧ code.drop m'.pos = [0xc3] ∧
    m'.regs 0 = prog.run (calledWith m) 0

/-- A call with nothing mapped but the register home. -/
private def homeOnly : Machine where
  regs r := if r = 5 then 0x10000 else 0
  flags := 0
  vectors _ := 0
  mem a := if 0x10000 ≤ a ∧ a < 0x10100 then some 0 else none
  codeBase := 0
  pos := 0

private theorem homeOnly_home : ∀ i < 256, (homeOnly.mem (homeOnly.regs 5 + BitVec.ofNat 64 i)).isSome := by
  decide +kernel

private theorem homeOnly_faults (x86Base : BitVec 64) :
    runMovs entryMovs { homeOnly with codeBase := x86Base } = none := by
  have hnone : (runMovs entryMovs homeOnly).isNone := by decide +kernel
  rw [runMovs_codeBase (by decide), Option.isNone_iff_eq_none.mp hnone]
  rfl

/-- No program is translated so that every call returns its `X0`. -/
theorem not_returnsX0 (sem : Semantics) (env : Env) (stack : Stack) (addr x86Base : BitVec 64)
    (prog : A64.Program 64) : ¬ ReturnsX0 sem env stack addr x86Base prog := by
  intro h
  obtain ⟨n, m', hrun, hret, -⟩ :=
    h { homeOnly with codeBase := x86Base } ⟨rfl, rfl, homeOnly_home⟩
  exact not_return_of_entry_fault sem rfl (homeOnly_faults x86Base) hrun hret

section Constant

/-- `MOVZ X0, #42; RET`. -/
private def mov42 : A64.Program 64 where
  instrs := [.wide .movz true 0 42 0]
  valid i hi := by
    rw [List.mem_singleton.mp hi]
    exact Or.inl rfl
  length := by decide

/-- A call with all addresses mapped. -/
private def allMapped : Machine where
  regs r := if r = 5 then 0x10000 else if r = 13 then 0x20000 else 0
  flags := 0
  vectors _ := 0
  mem _ := some 0
  codeBase := 0
  pos := 0

private def mov42Code : List Byte :=
  convertBlockBytes Env.default Stack.zero (Block.ofWords 0 mov42.words) 0

/-- Whether the first `n` instructions return 42. -/
private def returns42 (n : Nat) : Bool :=
  (Semantics.integer.steps mov42Code n allMapped).any fun m' ↦
    mov42Code.drop m'.pos == [0xc3] && m'.regs 0 == 42

/-- Where all addresses are mapped the block returns, with 0 in `RAX`. -/
theorem not_returnsX0_mov42 :
    ¬ ReturnsX0 Semantics.integer Env.default Stack.zero 0 0 mov42 := by
  intro h
  obtain ⟨n, m', hrun, hret, hx0⟩ := h allMapped ⟨rfl, rfl, fun _ _ ↦ rfl⟩
  have hrun : Semantics.integer.steps mov42Code n allMapped = some m' := hrun
  have hret : mov42Code.drop m'.pos = [0xc3] := hret
  have hx0 : m'.regs 0 = 42 := hx0
  have hhit : returns42 n = true := by
    rw [returns42, hrun, Option.any_some, hret, hx0]
    rfl
  have hnone : (Semantics.integer.steps mov42Code 16 allMapped).isNone := by decide +kernel
  have hshort : ∀ n < 16, returns42 n = false := by decide +kernel
  rcases Nat.lt_or_ge n 16 with hn | hn
  · rw [hshort n hn] at hhit
    cases hhit
  · rw [← Nat.add_sub_of_le hn, Semantics.steps_add, Option.isNone_iff_eq_none.mp hnone] at hrun
    cases hrun

end Constant

end Arm2x86.Translate
