import Arm2x86.Translate.StraightLine

/-!
# Where the guest registers are inside a block

Before a translator runs, a guest register is either in the host register the allocator has
assigned to it or in its slot. The translators that load the slots themselves and those that ask
the allocator have to agree on the value. The entry code puts `RAX` into the slot of `X4`, so they
start from a wrong value.
-/

namespace Arm2x86.Translate

open X86

/-- The guest: the general registers of a state, and what an instruction at an address does. -/
structure Guest where
  State : Type
  regs : State → ArmReg → BitVec 64
  start : (ArmReg → BitVec 64) → State
  regs_start : ∀ f, regs (start f) = f
  step : BitVec 64 → BitVec 32 → State → Option State

/-- The convention of the prologue: `X0` to `X7` are in `RDI`, `RSI`, `RDX`, `RCX` and `R8` to
`R11`, `X29` is `RBP`, and the others are in their slots. -/
def entryValues (m : Machine) (r : ArmReg) : BitVec 64 :=
  if r < 8 then m.regs (([7, 6, 2, 1, 8, 9, 10, 11] : List Gpr).getD r 0)
  else if r = 29 then m.regs 5
  else (slotAt (m.regs 5) r m).getD 0

/-- The value of a guest register by the state of the allocator. -/
def heldValue (a : Alloc) (home : BitVec 64) (m : Machine) (r : ArmReg) : Option (BitVec 64) :=
  if a.cached r then some (m.regs (toGpr (a.regAlloc r).x86Reg)) else slotAt home r m

/-- The slots a translator loads itself. -/
def homeReads (type : InstrType) (op : BitVec 32) : List ArmReg :=
  match type with
  | .mul | .sdiv | .udiv | .csel => [armReg op 5, armReg op 16]
  | .madd => [armReg op 5, armReg op 16, armReg op 10]
  | .ldr | .str => armReg op 5 :: if op.getLsbD 22 then [] else [armReg op 0]
  | .cbz | .cbnz | .tbz | .tbnz | .lsl | .lsr | .asr => [armReg op 5]
  | _ => []

/-- The host registers the translators use as scratch. -/
def scratch : List Byte := [rax, rcx, rdx, r11]

section Block

variable (env : Env) (stack : Stack) (blk : Block) (x86Base : BitVec 64)

/-- The context in front of a translator. -/
def ctxAt : Nat → TranslateCtx
  | 0 => startCtx stack blk x86Base
  | k + 1 => translateStep env stack blk k (ctxAt k)

/-- Whether the loop comes to an instruction. -/
structure Visited (k : Nat) : Prop where
  inside : 4 * k < blk.size
  limit : k < maxInstructions
  noTerminator : ∀ j < k, isBlockTerminator (blk.decoded stack j).instrType = false

/-- The offset of the code of an instruction. -/
def codeOffset (k : Nat) : Nat := (ctxAt env stack blk x86Base k).bytes.length

variable {env stack blk x86Base} in
/-- The contexts are those of the loop. -/
theorem convertLoop_ctxAt {k : Nat} (h : Visited stack blk k) :
    convertLoop env stack blk maxInstructions 0 (startCtx stack blk x86Base) =
      convertLoop env stack blk (maxInstructions - k) k (ctxAt env stack blk x86Base k) := by
  induction k with
  | zero => rfl
  | succ k ih =>
    have hlt : 4 * k < blk.size := by
      have := h.inside
      omega
    have hk : k < maxInstructions := Nat.lt_of_succ_lt h.limit
    rw [ih ⟨hlt, hk, fun j hj ↦ h.noTerminator j (Nat.lt_succ_of_lt hj)⟩]
    have hfuel : maxInstructions - k = maxInstructions - (k + 1) + 1 := by omega
    rw [hfuel, convertLoop]
    simp only [hlt, h.noTerminator k (Nat.lt_succ_self k), if_true, Bool.false_eq_true, if_false]
    rfl

/-- A run through the code of one piece: from its start to the position behind it, without leaving
the piece before. -/
def Through (sem : Semantics) (code : List Byte) (hi : Nat) (m m' : Machine) : Prop :=
  ∃ n, sem.steps code n m = some m' ∧ m'.pos = hi ∧
    ∀ i < n, ∀ mi, sem.steps code i m = some mi → m.pos ≤ mi.pos ∧ mi.pos < hi

variable (sem : Semantics) (guest : Guest)

/-- A call comes to the code of an instruction, with the guest state it stands for. -/
inductive Arrives (m : Machine) : Nat → guest.State → Machine → Prop where
  | entry {m' : Machine}
      (run : Through sem (convertBlockBytes env stack blk x86Base)
        (codeOffset env stack blk x86Base 0) m m') :
      Arrives m 0 (guest.start (entryValues m)) m'
  | next {k : Nat} {g g' : guest.State} {m₁ m₂ : Machine} (before : Arrives m k g m₁)
      (step : guest.step (blk.pc k) (blk.word k) g = some g')
      (run : Through sem (convertBlockBytes env stack blk x86Base)
        (codeOffset env stack blk x86Base (k + 1)) m₁ m₂) :
      Arrives m (k + 1) g' m₂

/-- In front of an instruction every guest register is where the allocator has it, and the slots
its translator loads hold the same; its code leaves the guest registers that are cached in scratch
registers as they have to be. -/
structure CoherentAt (home : BitVec 64) (k : Nat) (g : guest.State) (m : Machine) : Prop where
  held : ∀ r : ArmReg, r ≠ 31 →
    heldValue (ctxAt env stack blk x86Base k).alloc home m r = some (guest.regs g r)
  reads : ∀ r ∈ homeReads (blk.decoded stack k).instrType (blk.word k), r ≠ 31 →
    slotAt home r m = some (guest.regs g r)
  scratch : ∀ g' m', guest.step (blk.pc k) (blk.word k) g = some g' →
    Through sem (convertBlockBytes env stack blk x86Base) (codeOffset env stack blk x86Base (k + 1))
      m m' →
    ∀ r : ArmReg, r ≠ 31 →
      ((ctxAt env stack blk x86Base (k + 1)).alloc.regAlloc r).x86Reg ∈ scratch →
      m'.regs (toGpr ((ctxAt env stack blk x86Base (k + 1)).alloc.regAlloc r).x86Reg) =
        guest.regs g' r

/-- All instructions of a block are reached coherently from every call. -/
def Coherent : Prop :=
  ∀ m, Entry x86Base m → ∀ k, Visited stack blk k → ∀ g m',
    Arrives env stack blk x86Base sem guest m k g m' →
    CoherentAt env stack blk x86Base sem guest (m.regs 5) k g m'

/-- A call with all addresses mapped and different values in `RAX` and `R8`. -/
private def raxCall : Machine where
  regs r := if r = 0 then 1 else if r = 5 then 0x10000 else if r = 13 then 0x20000 else 0
  flags := 0
  vectors _ := 0
  mem _ := some 0
  codeBase := 0
  pos := 0

private theorem raxCall_slot :
    (runMovs entryMovs raxCall).bind (slotAt 0x10000 4) = some 1 := by
  decide +kernel

/-- The entry code is run through wherever it does not fault. -/
theorem through_entry {m m' : Machine} (hpos : m.pos = 0) (hrun : runMovs entryMovs m = some m') :
    Through sem (convertBlockBytes env stack blk x86Base) (codeOffset env stack blk x86Base 0) m
      m' := by
  obtain ⟨body, hdrop⟩ := convertBlockBytes_parts env stack blk x86Base
  rw [← List.drop_zero (l := convertBlockBytes env stack blk x86Base), ← hpos] at hdrop
  refine ⟨entryMovs.length, ?_, ?_, ?_⟩
  · rw [sem.steps_movs decode_entryMovs hdrop, hrun]
  · rw [runMovs_pos hrun, hpos, Nat.zero_add]
    rfl
  · intro i hi mi hmi
    rw [sem.steps_movs_take decode_entryMovs hdrop (Nat.le_of_lt hi)] at hmi
    rw [runMovs_pos hmi, hpos, Nat.zero_add]
    have hshort : ∀ i < entryMovs.length, ((entryMovs.take i).flatMap MovCode.bytes).length < 77 := by
      decide
    exact ⟨Nat.zero_le _, hshort i hi⟩

/-- In front of the first instruction the slot of `X4` has the value of `RAX`: neither that of `R8`
nor the one from before the call. -/
theorem not_coherent (hsize : blk.size ≠ 0) : ¬ Coherent env stack blk x86Base sem guest := by
  intro h
  obtain ⟨m', hrun, hslot⟩ := Option.bind_eq_some_iff.mp raxCall_slot
  have hmoved : runMovs entryMovs { raxCall with codeBase := x86Base } =
      some { m' with codeBase := x86Base } := by
    rw [runMovs_codeBase (by decide), hrun]
    rfl
  have hvisited : Visited stack blk 0 :=
    ⟨Nat.pos_of_ne_zero hsize, by decide, fun j hj ↦ absurd hj (Nat.not_lt_zero j)⟩
  have hat := h _ ⟨rfl, rfl, fun _ _ ↦ rfl⟩ 0 hvisited _ _
    (.entry (through_entry env stack blk x86Base sem rfl hmoved))
  have hheld := hat.held 4 (by decide)
  rw [guest.regs_start] at hheld
  have hx4 : slotAt 0x10000 4 m' = some 0 := hheld
  rw [hx4] at hslot
  exact absurd hslot (by decide)

/-- Blocks are coherent only where there is no instruction. -/
theorem coherent_iff : Coherent env stack blk x86Base sem guest ↔ blk.size = 0 := by
  constructor
  · intro h
    by_contra hsize
    exact not_coherent env stack blk x86Base sem guest hsize h
  · intro hsize m _ k hk
    have hinside := hk.inside
    omega

end Block

/-- A guest whose instructions have no effect, as `NOP` has none. -/
def Guest.idle : Guest where
  State := ArmReg → BitVec 64
  regs g := g
  start f := f
  regs_start _ := rfl
  step _ _ g := some g

/-- A block of one `NOP`. -/
theorem not_coherent_nop :
    ¬ Coherent Env.default Stack.zero (Block.ofWords 0 [0xd503201f]) 0 Semantics.integer
      Guest.idle :=
  not_coherent _ _ _ _ _ _ (by decide)

end Arm2x86.Translate
