import Arm2x86.Translate.AccessFootprint
import Arm2x86.Translate.BasePreservation
import Arm2x86.Translate.Bitfields
import Arm2x86.Translate.DecodeDataProcessing
import Arm2x86.Translate.MoveWide
import Arm2x86.X86.TwoOperand

/-!
# Programs over the register home

A translated block from its call to its return, for the instructions whose code is right: the accesses
of eight bytes, the products, the right shifts of a whole register, `MOVK` of the lowest half-word, the
hints and the barriers. None of their translators asks the allocator, so the registers of the guest are
in the home between any two of them, and the code of a program does what the program does.
-/

/-! ## What the integer instructions leave -/


namespace Arm2x86.X86

/-- Every state of an option has these vector registers. -/
def HasVectors (vs : BitVec 4 → BitVec 128) (o : Option Machine) : Prop := ∀ m ∈ o, m.vectors = vs

section Vectors

variable {vs : BitVec 4 → BitVec 128} {m : Machine} {α : Type}

theorem hasVectors_some (h : m.vectors = vs) : HasVectors vs (some m) := by
  intro m' hm'
  rwa [← Option.some.inj hm']

theorem hasVectors_none : HasVectors vs none := by
  intro m' hm'
  cases hm'

theorem hasVectors_bind {o : Option α} {f : α → Option Machine} (h : ∀ x, HasVectors vs (f x)) :
    HasVectors vs (o.bind f) := by
  intro m' hm'
  obtain ⟨x, -, hx⟩ := Option.bind_eq_some_iff.mp hm'
  exact h x m' hx

theorem HasVectors.bind {o : Option Machine} {f : Machine → Option Machine} (ho : HasVectors vs o)
    (h : ∀ m, m.vectors = vs → HasVectors vs (f m)) : HasVectors vs (o.bind f) := by
  intro m' hm'
  obtain ⟨x, hx, hm'⟩ := Option.bind_eq_some_iff.mp hm'
  exact h x (ho x hx) m' hm'

theorem HasVectors.map {o : Option Machine} {f : Machine → Machine} (ho : HasVectors vs o)
    (h : ∀ m, m.vectors = vs → (f m).vectors = vs) : HasVectors vs (o.map f) := by
  intro m' hm'
  obtain ⟨x, hx, rfl⟩ := Option.map_eq_some_iff.mp hm'
  exact h x (ho x hx)

theorem hasVectors_ite {c : Prop} [Decidable c] {o o' : Option Machine} (h : HasVectors vs o)
    (h' : HasVectors vs o') : HasVectors vs (if c then o else o') := by
  split
  · exact h
  · exact h'

theorem hasVectors_store (h : m.vectors = vs) (a : BitVec 64) (bs : List Byte) :
    HasVectors vs (m.store a bs) := by
  apply hasVectors_bind
  intro _
  exact hasVectors_some h

theorem hasVectors_put (h : m.vectors = vs) (size : Size) (v : BitVec 64) (loc : Loc) :
    HasVectors vs (m.put size v loc) := by
  cases size <;> cases loc <;>
    first
    | exact hasVectors_some h
    | exact hasVectors_none
    | exact hasVectors_bind fun _ ↦ hasVectors_some h

theorem hasVectors_putStatus (h : m.vectors = vs) (size : Size) (v : BitVec size.bits) (s : Status)
    (loc : Loc) : HasVectors vs (m.putStatus size v s loc) :=
  (hasVectors_put h size _ loc).map fun _ h ↦ h

theorem hasVectors_pushed (h : m.vectors = vs) (v : BitVec 64) : HasVectors vs (m.pushed v) :=
  (hasVectors_store h _ _).map fun _ h ↦ h

theorem hasVectors_jump (h : m.vectors = vs) (rel : BitVec 64) : HasVectors vs (m.jump rel) :=
  hasVectors_ite (hasVectors_some h) hasVectors_none

theorem vectors_of_popped {v : BitVec 64} {m' : Machine} (h : m.popped = some (v, m')) :
    m'.vectors = m.vectors := by
  obtain ⟨bs, -, hbs⟩ := Option.bind_eq_some_iff.mp h
  rw [← (Prod.mk.inj (Option.some.inj hbs)).2]
  rfl

theorem hasVectors_popped (h : m.vectors = vs) {f : BitVec 64 × Machine → Option Machine}
    (hf : ∀ v m', m'.vectors = vs → HasVectors vs (f (v, m'))) : HasVectors vs (m.popped.bind f) := by
  intro m' hm'
  obtain ⟨⟨v, m₁⟩, hpop, hm'⟩ := Option.bind_eq_some_iff.mp hm'
  exact hf v m₁ ((vectors_of_popped hpop).trans h) m' hm'

theorem hasVectors_core (undef : Instr → Machine → Status) (i : Instr) (h : m.vectors = vs) :
    HasVectors vs ((Semantics.core undef fun _ _ ↦ none).exec i m) := by
  cases i with
  | alu op size dst src =>
    refine hasVectors_bind fun b ↦ hasVectors_bind fun a ↦ hasVectors_ite ?_ ?_
    · exact hasVectors_some h
    · exact hasVectors_putStatus h _ _ _ _
  | aluImm op size dst imm =>
    refine hasVectors_bind fun a ↦ hasVectors_ite ?_ ?_
    · exact hasVectors_some h
    · exact hasVectors_putStatus h _ _ _ _
  | mov size dst src => exact hasVectors_bind fun _ ↦ hasVectors_put h _ _ _
  | movImm size dst imm => exact hasVectors_put h _ _ _
  | extend signed size srcSize dst src => exact hasVectors_bind fun _ ↦ hasVectors_put h _ _ _
  | test size a b => exact hasVectors_bind fun _ ↦ hasVectors_bind fun _ ↦ hasVectors_some h
  | testImm size a imm => exact hasVectors_bind fun _ ↦ hasVectors_some h
  | not size dst => exact hasVectors_bind fun _ ↦ hasVectors_put h _ _ _
  | neg size dst => exact hasVectors_bind fun _ ↦ hasVectors_putStatus h _ _ _ _
  | mulWide signed size src =>
    refine hasVectors_bind fun _ ↦ hasVectors_ite ?_ ?_
    · exact (hasVectors_put h _ _ _).bind fun _ h ↦ hasVectors_some h
    · exact (hasVectors_put h _ _ _).bind fun _ h ↦ (hasVectors_put h _ _ _).bind fun _ h ↦ hasVectors_some h
  | divWide signed size src =>
    refine hasVectors_bind fun _ ↦ hasVectors_ite hasVectors_none ?_
    exact (hasVectors_put h _ _ _).bind fun _ h ↦ (hasVectors_put h _ _ _).bind fun _ h ↦ hasVectors_some h
  | imul size dst src => exact hasVectors_bind fun _ ↦ hasVectors_putStatus h _ _ _ _
  | shift op size dst count =>
    have hshift : HasVectors vs (m.execShift (undef (.shift op size dst count) m) op size dst count) := by
      refine hasVectors_bind fun _ ↦ hasVectors_ite (hasVectors_put h _ _ _) ?_
      exact hasVectors_bind fun _ ↦ hasVectors_putStatus h _ _ _ _
    cases op <;> first | exact hshift | exact hasVectors_none
  | incDec dec size dst => exact hasVectors_bind fun _ ↦ hasVectors_putStatus h _ _ _ _
  | bitTest size src bit => exact hasVectors_bind fun _ ↦ hasVectors_some h
  | lea size dst src => exact hasVectors_bind fun _ ↦ hasVectors_put h _ _ _
  | xchg size dst src =>
    exact hasVectors_bind fun _ ↦ (hasVectors_put h _ _ _).bind fun _ h ↦ hasVectors_put h _ _ _
  | xadd size dst src =>
    refine hasVectors_bind fun _ ↦ (hasVectors_putStatus h _ _ _ _).bind fun _ h ↦ hasVectors_ite ?_ ?_
    · exact hasVectors_some h
    · exact hasVectors_put h _ _ _
  | cmpxchg size dst src =>
    refine hasVectors_bind fun _ ↦ hasVectors_ite ?_ ?_
    · apply hasVectors_put
      exact h
    · apply hasVectors_put
      exact h
  | bswap size dst =>
    have hreg := hasVectors_put h
    cases size <;> first
      | exact hreg .b64 _ (.reg dst)
      | exact hreg .b32 _ (.reg dst)
      | exact hasVectors_none
  | setcc cc dst => exact hasVectors_put h .b8 _ dst
  | cmov cc size dst src => exact hasVectors_bind fun _ ↦ hasVectors_put h _ _ _
  | signToRdx size => exact hasVectors_put h _ _ _
  | widenRax size =>
    cases size <;> exact hasVectors_put h .b64 _ (.reg 0)
  | push src => exact hasVectors_pushed h _
  | pop dst =>
    show HasVectors vs (m.popped.map _)
    rw [Option.map_eq_bind]
    exact hasVectors_popped h fun _ _ h ↦ hasVectors_some h
  | pushf => exact hasVectors_pushed h _
  | popf =>
    apply hasVectors_popped h
    intro _ _ h
    exact hasVectors_some h
  | leave =>
    have hset : (m.setReg 4 (m.regs 5)).vectors = vs := h
    show HasVectors vs ((m.setReg 4 (m.regs 5)).popped.map _)
    rw [Option.map_eq_bind]
    exact hasVectors_popped hset fun _ _ h ↦ hasVectors_some h
  | jcc cc rel => exact hasVectors_ite (hasVectors_jump h rel) (hasVectors_some h)
  | jmp rel => exact hasVectors_jump h rel
  | call rel => exact (hasVectors_pushed h _).bind fun _ h ↦ hasVectors_jump h rel
  | jmpLoc target =>
    show HasVectors vs ((m.fetch .b64 target).map m.goto)
    rw [Option.map_eq_bind]
    exact hasVectors_bind fun _ ↦ hasVectors_some h
  | callLoc target =>
    exact hasVectors_bind fun _ ↦ (hasVectors_pushed h _).bind fun _ h ↦ hasVectors_some h
  | ret =>
    show HasVectors vs (m.popped.map _)
    rw [Option.map_eq_bind]
    exact hasVectors_popped h fun _ _ h ↦ hasVectors_some h
  | nop => exact hasVectors_some h
  | _ => exact hasVectors_none

/-- A run of the integer instructions leaves the vector registers. -/
theorem vectors_steps {undef : Instr → Machine → Status} {code : List Byte} {n : Nat} {m m' : Machine}
    (h : (Semantics.core undef fun _ _ ↦ none).steps code n m = some m') : m'.vectors = m.vectors := by
  induction n generalizing m with
  | zero => rw [← Option.some.inj h]
  | succ n ih =>
    obtain ⟨m₁, hstep, hsteps⟩ := Option.bind_eq_some_iff.mp h
    obtain ⟨⟨i, tail⟩, -, hexec⟩ := Option.bind_eq_some_iff.mp hstep
    rw [ih hsteps]
    apply hasVectors_core undef i _ m₁ hexec
    rfl

/-- What runs without the other instructions runs with them. -/
theorem steps_core_of_none {undef : Instr → Machine → Status} {code : List Byte} {n : Nat}
    {m m' : Machine} (h : (Semantics.core undef fun _ _ ↦ none).steps code n m = some m')
    (rest : Instr → Machine → Option Machine) :
    (Semantics.core undef rest).steps code n m = some m' := by
  have hexec : ∀ i (m m' : Machine), (Semantics.core undef fun _ _ ↦ none).exec i m = some m' →
      (Semantics.core undef rest).exec i m = some m' := by
    intro i m m' h
    cases i with
    | shift op => cases op <;> first | exact h | cases h
    | _ => first | exact h | cases h
  induction n generalizing m with
  | zero => exact h
  | succ n ih =>
    obtain ⟨m₁, hstep, hsteps⟩ := Option.bind_eq_some_iff.mp h
    obtain ⟨⟨i, tail⟩, hdecode, hi⟩ := Option.bind_eq_some_iff.mp hstep
    have hstep' : (Semantics.core undef rest).step code m = some m₁ := by
      rw [Semantics.step, hdecode]
      exact hexec i _ _ hi
    rw [Semantics.steps, hstep']
    exact ih hsteps

end Vectors

end Arm2x86.X86

namespace Arm2x86.A64

/-- The hints. A guest sees nothing of them. -/
def hint : Diagram 32 := ⟨0xfffff01f, 0xd503201f⟩

/-- The barriers. One guest sees nothing of them. -/
def barrier : Diagram 32 := ⟨0xfffff01f, 0xd503301f⟩

/-- What products, bitfield moves and wide moves do. The other operations have no effect here. -/
def DataProcessing.step (k : DataProcessing) (op : BitVec 32) (s : State) : Option State := do
  let sf := op.getLsbD 31
  let rd := op.extractLsb' 0 5
  let rn := s.regs.read (op.extractLsb' 5 5)
  let rm := s.regs.read (op.extractLsb' 16 5)
  let product := fun v : BitVec 64 ↦ s.setReg rd (if sf then v else (v.setWidth 32).setWidth 64)
  let wide := fun k : MoveWide ↦ s.setReg rd
    (k.value sf (op.extractLsb' 21 2).toNat ((op.extractLsb' 5 16).setWidth 64) (s.regs.read rd))
  match ← k.operation op with
  | .madd ra => return product (s.regs.read ra + rn * rm)
  | .msub ra => return product (s.regs.read ra - rn * rm)
  | .sbfm sf immr imms => return s.setReg rd (Bitfield.sbfm.value sf immr.toNat imms.toNat rn 0)
  | .ubfm sf immr imms => return s.setReg rd (Bitfield.ubfm.value sf immr.toNat imms.toNat rn 0)
  | .movn => return wide .movn
  | .movz => return wide .movz
  | .movk => return wide .movk
  | _ => none

/-- What a word of one of these classes does. -/
def stepWord (op : BitVec 32) (s : State) : Option State :=
  if hint.Matches op ∨ barrier.Matches op then some s
  else if LoadStore.unscaled.diagram.Matches op then LoadStore.unscaled.step op s
  else if LoadStore.unsignedOffset.diagram.Matches op then LoadStore.unsignedOffset.step op s
  else if DataProcessing.threeSource.diagram.Matches op then DataProcessing.threeSource.step op s
  else if DataProcessing.bitfield.diagram.Matches op then DataProcessing.bitfield.step op s
  else if DataProcessing.moveWide.diagram.Matches op then DataProcessing.moveWide.step op s
  else none

/-- What some words do one after the other. -/
def runWords : List (BitVec 32) → State → Option State
  | [], s => some s
  | op :: ops, s => (stepWord op s).bind (runWords ops)

/-- A product without a third source. -/
def mulWord : Diagram 32 := ⟨0xffe0fc00, 0x9b007c00⟩

/-- A right shift of a whole register, signed or not. -/
def shiftWord : Diagram 32 := ⟨0xbfc0fc00, 0x9340fc00⟩

/-- `MOVK` of the lowest half-word. -/
def movkWord : Diagram 32 := ⟨0xffe00000, 0xf2800000⟩

section Steps

variable {op : BitVec 32} {s : State}

theorem stepWord_hint (h : hint.Matches op ∨ barrier.Matches op) : stepWord op s = some s := if_pos h

theorem stepWord_access {k : LoadStore} (hk : k = .unscaled ∨ k = .unsignedOffset)
    (h : k.diagram.Matches op) : stepWord op s = k.step op s := by
  rcases hk with rfl | rfl
  · simp (disch := decide) only [stepWord, h.conflict, or_self, if_neg, if_pos h]
  · simp (disch := decide) only [stepWord, h.conflict, or_self, if_neg, if_pos h]

theorem stepWord_mul (h : mulWord.Matches op) : stepWord op s = some (s.setReg (op.extractLsb' 0 5)
    (s.regs.read (op.extractLsb' 5 5) * s.regs.read (op.extractLsb' 16 5))) := by
  have hclass : DataProcessing.threeSource.diagram.Matches op := h.covered rfl rfl
  have hsf : op.getLsbD 31 = true := h.bit_true rfl rfl
  have hop31 : op.extractLsb' 21 3 = 0 := h.extractLsb' rfl
  have ho0 : op.getLsbD 15 = false := h.bit_false rfl rfl
  have hra : op.extractLsb' 10 5 = 31 := h.extractLsb' rfl
  have hop : DataProcessing.threeSource.operation op = some (.madd 31) := by
    simp only [DataProcessing.operation, hsf, hop31, ho0, hra]
    rfl
  simp (disch := decide) only [stepWord, h.conflict, or_self, if_neg, if_pos hclass]
  simp only [DataProcessing.step, hop, hsf]
  show some (s.setReg _ (0#64 + _)) = _
  rw [BitVec.zero_add]

/-- The shift of a word: `UBFM` with bit 30, and `SBFM` without. -/
def shifted (op : BitVec 32) (x : BitVec 64) : BitVec 64 :=
  if op.getLsbD 30 then x >>> (op.extractLsb' 16 6).toNat
  else x.sshiftRight (op.extractLsb' 16 6).toNat

theorem stepWord_shift (h : shiftWord.Matches op) : stepWord op s =
    some (s.setReg (op.extractLsb' 0 5) (shifted op (s.regs.read (op.extractLsb' 5 5)))) := by
  have hclass : DataProcessing.bitfield.diagram.Matches op := h.covered rfl rfl
  have hsf : op.getLsbD 31 = true := h.bit_true rfl rfl
  have hn : op.getLsbD 22 = true := h.bit_true rfl rfl
  have himms : op.extractLsb' 10 6 = 63 := h.extractLsb' rfl
  have hle : (op.extractLsb' 16 6).toNat ≤ 63 := Nat.le_of_lt_succ (op.extractLsb' 16 6).isLt
  have hopc : op.extractLsb' 29 2 = if op.getLsbD 30 then 2 else 0 := by
    have h29 : (op.extractLsb' 29 2).getLsbD 0 = false := by
      rw [← Translate.bit_of_field 29 2 0 (by decide)]
      exact h.bit_false rfl rfl
    rw [Translate.bit_of_field 29 2 1 (by decide)]
    revert h29
    generalize op.extractLsb' 29 2 = opc
    revert opc
    decide
  simp (disch := decide) only [stepWord, h.conflict, or_self, if_neg, if_pos hclass]
  cases hbit : op.getLsbD 30 with
  | true =>
    have hop : DataProcessing.bitfield.operation op = some (.ubfm true (op.extractLsb' 16 6) 63) := by
      simp only [DataProcessing.operation, DataProcessing.bitfieldOf, hsf, hn, himms, hopc, hbit]
      rfl
    simp only [DataProcessing.step, hop, shifted, hbit, if_true]
    show some (s.setReg _ (ubfm _ 63 _)) = _
    rw [Translate.ubfm_top hle]
  | false =>
    have hop : DataProcessing.bitfield.operation op = some (.sbfm true (op.extractLsb' 16 6) 63) := by
      simp only [DataProcessing.operation, DataProcessing.bitfieldOf, hsf, hn, himms, hopc, hbit]
      rfl
    simp only [DataProcessing.step, hop, shifted, hbit, Bool.false_eq_true, if_false]
    show some (s.setReg _ (sbfm _ 63 _)) = _
    rw [Translate.sbfm_top hle]

theorem stepWord_movk (h : movkWord.Matches op) : stepWord op s = some (s.setReg (op.extractLsb' 0 5)
    (s.regs.read (op.extractLsb' 0 5) &&& ~~~ 0xffff#64 ||| (op.extractLsb' 5 16).setWidth 64)) := by
  have hclass : DataProcessing.moveWide.diagram.Matches op := h.covered rfl rfl
  have hsf : op.getLsbD 31 = true := h.bit_true rfl rfl
  have hopc : op.extractLsb' 29 2 = 3 := h.extractLsb' rfl
  have hhw : op.extractLsb' 21 2 = 0 := h.extractLsb' rfl
  have hop : DataProcessing.moveWide.operation op = some .movk := by
    simp only [DataProcessing.operation, hsf, hopc]
    rfl
  simp (disch := decide) only [stepWord, h.conflict, or_self, if_neg, if_pos hclass]
  simp only [DataProcessing.step, hop, hsf, hhw]
  show some (s.setReg _ (_ &&& ~~~ (0xffff#64 <<< 0) ||| (op.extractLsb' 5 16).setWidth 64 <<< (0 : Nat))) = _
  rw [BitVec.shiftLeft_zero, BitVec.shiftLeft_zero]

end Steps

end Arm2x86.A64

namespace Arm2x86.Translate

open X86
open A64 (LoadStore MemOp)

section Words

/-- The integer instructions and no others. -/
abbrev integers (undef : Instr → Machine → Status) : Semantics := Semantics.core undef fun _ _ ↦ none

/-- The words whose code does what they do, from every state of the allocator. No register is the zero
register, and the barriers have an option. -/
inductive Carried (op : BitVec 32) : Prop
  | hint (h : A64.hint.Matches op)
  | barrier (h : A64.barrier.Matches op) (option : op.extractLsb' 8 4 ≠ 0)
  | access (k : LoadStore) (h : k.diagram.Matches op) (exact : FootprintExact k op)
  | mul (h : A64.mulWord.Matches op) (rd : regAt op 0 ≠ 31) (rn : regAt op 5 ≠ 31)
      (rm : regAt op 16 ≠ 31)
  | shift (h : A64.shiftWord.Matches op) (rd : regAt op 0 ≠ 31) (rn : regAt op 5 ≠ 31)
  | movk (h : A64.movkWord.Matches op) (rd : regAt op 0 ≠ 31)

/-- From every state of a guest that some words lead on from, the code gets to the state behind them. -/
def Carries (undef : Instr → Machine → Status) (code : List Byte) (ops : List (BitVec 32)) : Prop :=
  ∀ whole home m g g', At whole m.pos code → Represents home m g → A64.runWords ops g = some g' →
    ∃ m', (integers undef).Runs whole m m' ∧ m'.pos = m.pos + code.length ∧ Represents home m' g'

variable {undef : Instr → Machine → Status} {code code' : List Byte} {ops ops' : List (BitVec 32)}

theorem carries_nil : Carries undef [] [] := by
  intro whole home m g g' _ hrep hrun
  obtain rfl := Option.some.inj hrun
  exact ⟨m, Semantics.Runs.refl, rfl, hrep⟩

/-- The code of one word in front of that of others. -/
theorem Carries.cons {op : BitVec 32} (h : Carries undef code [op]) (h' : Carries undef code' ops) :
    Carries undef (code ++ code') (op :: ops) := by
  intro whole home m g g' hat hrep hrun
  obtain ⟨g₁, hstep, hrun⟩ := Option.bind_eq_some_iff.mp hrun
  have hone : A64.runWords [op] g = some g₁ := by
    rw [A64.runWords, hstep]
    rfl
  obtain ⟨m₁, hruns₁, hpos₁, hrep₁⟩ := h whole home m g g₁ hat.left hrep hone
  have hat' : At whole m₁.pos code' := by
    rw [hpos₁]
    exact hat.right
  obtain ⟨m₂, hruns₂, hpos₂, hrep₂⟩ := h' whole home m₁ g₁ g' hat' hrep₁ hrun
  refine ⟨m₂, hruns₁.trans hruns₂, ?_, hrep₂⟩
  rw [hpos₂, hpos₁, List.length_append, Nat.add_assoc]

/-- One word that always leads on. -/
theorem runWords_one {op : BitVec 32} {g g' : A64.State} {f : A64.State → A64.State}
    (hstep : ∀ s, A64.stepWord op s = some (f s)) (h : A64.runWords [op] g = some g') : g' = f g := by
  rw [A64.runWords, hstep] at h
  exact (Option.some.inj h).symm

/-- The values of the home of a guest. -/
theorem Represents.values {home : BitVec 64} {m : Machine} {g : A64.State} (h : Represents home m g) :
    Values.Of ⟨fun r ↦ g.regs (BitVec.ofFin r), m.regs, m.mem⟩ m :=
  ⟨fun r ↦ h.slot_self r, rfl, fun _ _ ↦ rfl⟩

/-- Code that computes one slot from the others. -/
theorem carries_of_computes {op : BitVec 32} {f : Values → Values} (rd : A64.Reg) (hrd : rd ≠ 31)
    (val : (ArmReg → BitVec 64) → BitVec 64)
    (hstep : ∀ s, A64.stepWord op s = some (s.setReg rd (val fun r ↦ s.regs (BitVec.ofFin r))))
    (h : Computes (integers undef) code f)
    (hslots : ∀ v, (f v).slots = Function.update v.slots rd.toFin (val v.slots))
    (hbase : ∀ v, (f v).regs 5 = v.regs 5) (hmem : ∀ v, (f v).mem = v.mem) :
    Carries undef code [op] := by
  intro whole home m g g' hat hrep hrun
  obtain rfl := runWords_one hstep hrun
  obtain ⟨m', ⟨n, hn⟩, hpos, hv⟩ := h whole m _ hrep.values hat
  have hhome : m'.regs 5 = home := by
    rw [hv.regs, hbase]
    exact hrep.base
  have hvectors := vectors_steps hn
  refine ⟨m', ⟨n, hn⟩, hpos, hhome, fun r ↦ ?_, fun v hlt ↦ ?_, fun a ha ↦ ?_, hrep.outside⟩
  · rw [← hhome, hv.slots r, hslots]
    show some (Function.update (fun r ↦ g.regs (BitVec.ofFin r)) rd.toFin _ r) =
      some (if BitVec.ofFin r = rd ∧ rd ≠ 31 then _ else _)
    rw [Function.update_apply]
    by_cases hr : r = rd.toFin
    · rw [if_pos hr, if_pos ⟨congrArg BitVec.ofFin hr, hrd⟩]
    · rw [if_neg hr, if_neg fun hall ↦ hr (congrArg BitVec.toFin hall.1)]
  · rw [hvectors]
    exact hrep.vectors v hlt
  · rw [hv.mem a (by rwa [hhome]), hmem]
    exact hrep.guest a ha

end Words

section Codes

variable {undef : Instr → Machine → Status} {op : BitVec 32}

/-- A word without an effect, translated to a `NOP`. -/
theorem carries_nop (hstep : ∀ s, A64.stepWord op s = some s) : Carries undef [0x90] [op] := by
  intro whole home m g g' hat hrep hrun
  have hsame : g' = g := runWords_one (f := id) hstep hrun
  have hnop : Transforms (fun g m ↦ Represents home m g) (integers undef) [0x90] id := by
    apply transforms_instr (i := .nop) (fun _ ↦ rfl) (fun _ _ p h ↦ h.pos p)
    intro m g h
    exact ⟨m, rfl, rfl, h⟩
  rw [hsame]
  exact hnop whole m g hrep hat

/-- `imul_r64_r64` of `RAX` and `R11`. -/
theorem computes_imulRax (rest : Instr → Machine → Option Machine) :
    Computes (Semantics.core undef rest) (imulR64R64 rax r11)
      fun v ↦ v.setReg 0 (v.regs 0 * v.regs 11) := by
  apply computes_instr fun tail ↦ (TwoOp.decode_emit rax r11 tail .imul rfl).1
  intro m v hv
  have hexec : (Semantics.core undef rest).exec (.imul .b64 0 (.reg 11)) m =
      some ((m.setReg 0 (((m.regs 0).setWidth 64 * (m.regs 11).setWidth 64).setWidth 64)).setStatus
        (.ofMul (decide (((m.regs 0).setWidth 64 * (m.regs 11).setWidth 64).toInt ≠
          ((m.regs 0).setWidth 64).toInt * ((m.regs 11).setWidth 64).toInt))
          (undef (.imul .b64 0 (.reg 11)) m))) := rfl
  simp only [BitVec.setWidth_eq, hv.regs] at hexec
  exact ⟨_, hexec, rfl, (hv.setReg (by decide) _).setStatus _⟩

/-- `add_r64_r64` of `RAX` and `R11` adds to `R11`. -/
theorem computes_addR11 (rest : Instr → Machine → Option Machine) :
    Computes (Semantics.core undef rest) (addR64R64 rax r11)
      fun v ↦ v.setReg 11 (v.regs 11 + v.regs 0) := by
  apply computes_instr (decode_regReg rax r11 · (by decide))
  intro m v hv
  have hexec : (Semantics.core undef rest).exec (.alu .add .b64 (.reg 11) (.reg 0)) m =
      some ((m.setReg 11 (((m.regs 11).setWidth 64 + (m.regs 0).setWidth 64).setWidth 64)).setStatus
        (.ofAdd ((m.regs 11).setWidth 64) ((m.regs 0).setWidth 64) false)) := rfl
  simp only [BitVec.setWidth_eq, hv.regs] at hexec
  exact ⟨_, hexec, rfl, (hv.setReg (by decide) _).setStatus _⟩

/-- The product without its third source: the sum goes to `R11` and is lost. -/
theorem carries_mul (h : A64.mulWord.Matches op) (hrd : regAt op 0 ≠ 31) (hrn : regAt op 5 ≠ 31)
    (hrm : regAt op 16 ≠ 31) : Carries undef (translateMadd op).flatten [op] := by
  have hw : is64 op = true := h.bit_true rfl rfl
  have hcode := (computes_load undef (fun _ _ ↦ none) (armReg op 5) (x := rax) (w := true)
    (by decide)).append <| (computes_load undef (fun _ _ ↦ none) (armReg op 16) (x := r11) (w := true)
    (by decide)).append <| (computes_imulRax _).append <| (computes_load undef (fun _ _ ↦ none)
    (armReg op 10) (x := r11) (w := true) (by decide)).append <| (computes_addR11 _).append <|
    (computes_store undef (fun _ _ ↦ none) (armReg op 0) (x := rax) (by decide) true).append computes_nil
  have hbytes : translateMadd op = viaRaxR11 (armReg op 5) (armReg op 16) (armReg op 0) true
      [imulR64R64 rax r11, emitLoadArmReg (armReg op 10) r11 true, addR64R64 rax r11] := by
    rw [translateMadd, hw]
  rw [hbytes]
  refine carries_of_computes (regAt op 0) hrd (fun slots ↦ slots (armReg op 5) * slots (armReg op 16))
    (fun s ↦ ?_) hcode (fun _ ↦ rfl) (fun _ ↦ rfl) (fun _ ↦ rfl)
  have hn : s.regs.read (op.extractLsb' 5 5) = s.regs (regAt op 5) := if_neg hrn
  have hm : s.regs.read (op.extractLsb' 16 5) = s.regs (regAt op 16) := if_neg hrm
  rw [A64.stepWord_mul h, hn, hm]
  rfl

/-- A register shifted through `RAX`. -/
private theorem carries_viaRax {body : List Code} {f : Values → Values} {g : BitVec 64 → BitVec 64}
    {rn rd : ArmReg} (hbody : Computes (integers undef) body.flatten f)
    (hslots : ∀ v, (f v).slots = v.slots) (hrax : ∀ v, (f v).regs 0 = g (v.regs 0))
    (hbase : ∀ v, (f v).regs 5 = v.regs 5) (hmem : ∀ v, (f v).mem = v.mem)
    (hrd : (BitVec.ofFin rd : A64.Reg) ≠ 31)
    (hstep : ∀ s, A64.stepWord op s =
      some (s.setReg (BitVec.ofFin rd) (g (s.regs (BitVec.ofFin rn))))) :
    Carries undef (viaRax rn rd true body).flatten [op] := by
  refine carries_of_computes (BitVec.ofFin rd) hrd (fun slots ↦ g (slots rn)) hstep
    (hbody.viaRax undef _ rn rd true) (fun v ↦ ?_) (fun v ↦ ?_) (fun v ↦ ?_)
  · show Function.update (f _).slots rd ((f _).regs 0) = _
    rw [hslots, hrax]
    rfl
  · exact (hbase _).trans rfl
  · exact (hmem _).trans rfl

/-- The mask of a shift goes to `R11` and is lost. -/
theorem carries_shift (h : A64.shiftWord.Matches op) (hrd : regAt op 0 ≠ 31) (hrn : regAt op 5 ≠ 31) :
    Carries undef (if op.getLsbD 30 then translateUbfm op else translateSbfm op).flatten [op] := by
  have hn : op.getLsbD 22 = true := h.bit_true rfl rfl
  have himms : op.extractLsb' 10 6 = 63 := h.extractLsb' rfl
  have hle : ¬ op.extractLsb' 10 6 < op.extractLsb' 16 6 := by
    rw [himms]
    generalize op.extractLsb' 16 6 = immr
    revert immr
    decide
  have hcount : ((op.extractLsb' 16 6).setWidth 8 : Byte).toNat % 64 = (op.extractLsb' 16 6).toNat := by
    rw [BitVec.toNat_setWidth]
    omega
  have hread : ∀ s : A64.State, s.regs.read (op.extractLsb' 5 5) = s.regs (regAt op 5) :=
    fun _ ↦ if_neg hrn
  have hbody : ∀ {shift : Byte → Byte → Code} {g : BitVec 64 → BitVec 64},
      Computes (integers undef) (shift rax ((op.extractLsb' 16 6).setWidth 8))
        (fun v ↦ v.setReg 0 (g (v.regs 0))) →
      (∀ s, A64.stepWord op s = some (s.setReg (regAt op 0) (g (s.regs (regAt op 5))))) →
      Carries undef (viaRax (armReg op 5) (armReg op 0) true (shiftAndMask shift op)).flatten [op] := by
    intro shift g hshift hstep
    exact carries_viaRax (hshift.append ((computes_movR11 undef _ _).append
      ((computes_andR11 undef _).append computes_nil))) (fun _ ↦ rfl) (fun _ ↦ rfl) (fun _ ↦ rfl)
      (fun _ ↦ rfl) hrd hstep
  cases hbit : op.getLsbD 30 with
  | true =>
    have hcode : translateUbfm op =
        viaRax (armReg op 5) (armReg op 0) true (shiftAndMask shrR64Imm8 op) := by
      rw [translateUbfm, hn]
      simp only [if_neg hle]
    have hshift := computes_shrRax undef (fun _ _ ↦ none) ((op.extractLsb' 16 6).setWidth 8)
    rw [hcount] at hshift
    rw [if_pos rfl, hcode]
    refine hbody (g := fun x ↦ x >>> (op.extractLsb' 16 6).toNat) hshift fun s ↦ ?_
    rw [A64.stepWord_shift h, hread, A64.shifted, hbit]
    rfl
  | false =>
    have hcode : translateSbfm op =
        viaRax (armReg op 5) (armReg op 0) true (shiftAndMask sarR64Imm8 op) := by
      rw [translateSbfm, hn]
      simp only [if_neg hle]
    have hshift := computes_sarRax undef (fun _ _ ↦ none) ((op.extractLsb' 16 6).setWidth 8)
    rw [hcount] at hshift
    rw [if_neg Bool.false_ne_true, hcode]
    refine hbody (g := fun x ↦ x.sshiftRight (op.extractLsb' 16 6).toNat) hshift fun s ↦ ?_
    rw [A64.stepWord_shift h, hread, A64.shifted, hbit]
    rfl

theorem carries_movk (h : A64.movkWord.Matches op) (hrd : regAt op 0 ≠ 31) :
    Carries undef (translateMovk op 0).flatten [op] := by
  have hw : is64 op = true := h.bit_true rfl rfl
  have himm : lo32 (fieldAt op 5 16 <<< 0) = (op.extractLsb' 5 16).setWidth 32 ∧
      hi32 (fieldAt op 5 16 <<< 0) = 0 := by
    rw [fieldAt]
    generalize op.extractLsb' 5 16 = imm
    constructor
    · ext i hi
      simp [lo32, BitVec.getElem_eq_testBit_toNat]
    · ext i hi
      have hge : imm.getLsbD (32 + i) = false := BitVec.getLsbD_of_ge _ _ (by omega)
      simp [hi32, hge]
  have hcode : translateMovk op 0 = viaRax (armReg op 0) (armReg op 0) true
      [groupRax 4 0xffff0000, groupRax 4 0xffffffff, groupRax 1 ((op.extractLsb' 5 16).setWidth 32)] := by
    rw [translateMovk, hw, himm.1, himm.2]
    rfl
  have hread : ∀ s : A64.State, s.regs.read (op.extractLsb' 0 5) = s.regs (regAt op 0) :=
    fun _ ↦ if_neg hrd
  have hmask : ∀ x : BitVec 64, x &&& (0xffff0000#32).signExtend 64 &&& (0xffffffff#32).signExtend 64 =
      x &&& ~~~ 0xffff#64 := by
    intro x
    rw [BitVec.and_assoc]
    rfl
  have hsign : ∀ x : BitVec 16, (x.setWidth 32).signExtend 64 = x.setWidth 64 := by
    intro x
    have hmsb : (x.setWidth 32).msb = false := by
      rw [BitVec.msb_eq_getLsbD_last]
      simp
    rw [BitVec.signExtend_eq_setWidth_of_msb_false hmsb]
    apply BitVec.eq_of_toNat_eq
    have hlt := x.isLt
    simp only [BitVec.toNat_setWidth]
    omega
  rw [hcode]
  refine carries_viaRax ((computes_andRax undef _ _).append ((computes_andRax undef _ _).append
    ((computes_orRax undef _ _).append computes_nil))) (fun _ ↦ rfl)
    (g := fun x ↦ x &&& ~~~ 0xffff#64 ||| (op.extractLsb' 5 16).setWidth 64) (fun v ↦ ?_) (fun _ ↦ rfl)
    (fun _ ↦ rfl) hrd fun s ↦ ?_
  · show v.regs 0 &&& (0xffff0000#32).signExtend 64 &&& (0xffffffff#32).signExtend 64 |||
      ((op.extractLsb' 5 16).setWidth 32).signExtend 64 = _
    rw [hmask, hsign]
  · rw [A64.stepWord_movk h, hread]
    rfl

/-- Code of 64-bit `mov`s runs the same whatever the other instructions do. -/
theorem runChunks_movs (sem : Semantics) {cs : List Chunk}
    (h : ∀ c ∈ cs, ∃ dst src, c.instr = .mov .b64 dst src) (m : Machine) :
    sem.runChunks cs m = Semantics.integer.runChunks cs m := by
  induction cs generalizing m with
  | nil => rfl
  | cons c cs ih =>
    rw [List.forall_mem_cons] at h
    obtain ⟨dst, src, hc⟩ := h.1
    rw [Semantics.runChunks, Semantics.runChunks, hc, sem.mov, Semantics.integer.mov]
    congr 1
    funext m
    exact ih h.2 m

theorem sequential_movs (sem : Semantics) {cs : List Chunk}
    (h : ∀ c ∈ cs, ∃ dst src, c.instr = .mov .b64 dst src) : ∀ c ∈ cs, sem.Sequential c.instr := by
  intro c hc m m' hexec
  obtain ⟨dst, src, hinstr⟩ := h c hc
  rw [hinstr, sem.mov] at hexec
  obtain ⟨v, -, hwrite⟩ := Option.bind_eq_some_iff.mp hexec
  exact Machine.write64_pos hwrite

/-- An access of eight bytes, with a register that is not the zero register. -/
theorem carries_access {k : LoadStore} (h : k.diagram.Matches op) (hexact : FootprintExact k op) :
    Carries undef (translateLdrStr op (decode op).imm).flatten [op] := by
  intro whole home m g g' hat hrep hrun
  obtain ⟨g₁, hstep, hend⟩ := Option.bind_eq_some_iff.mp hrun
  obtain rfl : g₁ = g' := Option.some.inj hend
  rw [A64.stepWord_access hexact.single h] at hstep
  obtain ⟨o, ho, hrest⟩ := Option.bind_eq_some_iff.mp hstep
  obtain ⟨x, hx, -⟩ := Option.bind_eq_some_iff.mp hrest
  have himm := (decode_single hexact.single h).2 hexact.general
  have hload : (op.extractLsb' 22 2).getLsbD 0 = op.getLsbD 22 :=
    (bit_of_field 22 2 0 (by decide)).symm
  have hoperation : o = .general (op.getLsbD 22) 8 := by
    have hforms : ∀ opc : BitVec 2, ∀ o ∈ LoadStore.single 3 false opc,
        o = .general (opc.getLsbD 0) 8 := by decide
    have hsingle := ho
    rw [operation_single hexact.single, hexact.size, hexact.general] at hsingle
    rw [← hload]
    exact hforms _ o hsingle
  rw [step_single hexact.single ho hx, hoperation, Option.some.inj (hx.symm.trans himm)] at hstep
  obtain ⟨m', hchunks, hrep'⟩ := single_carries hexact.size hexact.target hrep hstep
  have hmovs : ∀ c ∈ ldrStrChunks op (decode op).imm, ∃ dst src, c.instr = .mov .b64 dst src := by
    rw [ldrStrChunks, hexact.size]
    cases op.getLsbD 22 with
    | true =>
      simp only [if_true, List.forall_mem_cons]
      exact ⟨⟨_, _, rfl⟩, ⟨_, _, rfl⟩, ⟨_, _, rfl⟩, fun c hc ↦ absurd hc List.not_mem_nil⟩
    | false =>
      simp only [Bool.false_eq_true, if_false, List.forall_mem_cons]
      exact ⟨⟨_, _, rfl⟩, ⟨_, _, rfl⟩, ⟨_, _, rfl⟩, fun c hc ↦ absurd hc List.not_mem_nil⟩
  rw [translateLdrStr_flatten] at hat ⊢
  rw [← runChunks_movs (integers undef) hmovs] at hchunks
  have hseq := sequential_movs (integers undef) hmovs
  have hsteps := Semantics.steps_chunks hseq hat
  rw [hchunks] at hsteps
  exact ⟨m', ⟨_, hsteps⟩, Semantics.runChunks_pos hseq hchunks, hrep'⟩

end Codes

end Arm2x86.Translate

namespace Arm2x86.Translate

open X86

section Emission

variable {op : BitVec 32}

theorem dataproc_of_hint (h : A64.hint.Matches op) : (decode op).instrType = .dataproc := by
  have hcrm : op.extractLsb' 16 4 = 3 := h.extractLsb' rfl
  simp (disch := decide) only [decode, decodeSystem, maskEq_conflict h, beq_conflict h,
    maskEq_covered h, hcrm, Bool.or_false, Bool.false_eq_true, if_false, if_true, Option.getD_some]
  rfl

/-- The three barriers that are translated as such have no option. -/
theorem dataproc_of_barrier (h : A64.barrier.Matches op) (hoption : op.extractLsb' 8 4 ≠ 0) :
    (decode op).instrType = .dataproc := by
  have hcrm : op.extractLsb' 16 4 = 3 := h.extractLsb' rfl
  have hne : ∀ c : BitVec 32, c.extractLsb' 8 4 = 0 → (op == c) = false := by
    intro c hc
    apply beq_eq_false_iff_ne.mpr
    rintro rfl
    exact hoption hc
  simp (disch := decide) only [decode, decodeSystem, maskEq_conflict h, hne, beq_conflict h,
    maskEq_covered h, hcrm, Bool.or_false, Bool.false_eq_true, if_false, if_true, Option.getD_some]
  rfl

theorem decode_mul (h : A64.mulWord.Matches op) : (decode op).instrType = .madd := by
  have hclass : A64.DataProcessing.threeSource.diagram.Matches op := h.covered rfl rfl
  have hsf : op.getLsbD 31 = true := h.bit_true rfl rfl
  rw [decode_dataProcessing (by decide) hclass]
  simp (disch := decide) only [decodeDpRegister, maskEq_conflict h, maskEq_covered h, hsf,
    Bool.false_eq_true, if_false, if_true]

theorem decode_shift (h : A64.shiftWord.Matches op) :
    (decode op).instrType = if op.getLsbD 30 then .ubfm else .sbfm := by
  have hclass : A64.DataProcessing.bitfield.diagram.Matches op := h.covered rfl rfl
  have hn : op.getLsbD 22 = true := h.bit_true rfl rfl
  have himms : op.extractLsb' 10 6 = 63 := h.extractLsb' rfl
  have htypes : ∀ immr : BitVec 6, bitfieldType true 0 63 immr = .sbfm ∧
      bitfieldType true 2 63 immr = .ubfm := by decide
  rw [decode_dataProcessing (by decide) hclass]
  cases hbit : op.getLsbD 30 with
  | true =>
    have hword : Diagram.Matches ⟨0xffc0fc00, 0xd340fc00⟩ op := h.bit 30 true hbit
    have hopc : op.extractLsb' 29 2 = 2 := hword.extractLsb' rfl
    simp (disch := decide) only [decodeDpRegister, maskEq_conflict hword, maskEq_covered hword, hn,
      himms, hopc, Bool.or_true, Bool.false_eq_true, if_false, if_true]
    exact (htypes _).2
  | false =>
    have hword : Diagram.Matches ⟨0xffc0fc00, 0x9340fc00⟩ op := h.bit 30 false hbit
    have hopc : op.extractLsb' 29 2 = 0 := hword.extractLsb' rfl
    simp (disch := decide) only [decodeDpRegister, maskEq_conflict hword, maskEq_covered hword, hn,
      himms, hopc, Bool.true_or, Bool.false_eq_true, if_false, if_true]
    exact (htypes _).1

theorem decode_movk (h : A64.movkWord.Matches op) : (decode op).instrType = .movk := by
  have hclass : A64.DataProcessing.moveWide.diagram.Matches op := h.covered rfl rfl
  have hopc : op.extractLsb' 29 2 = 3 := h.extractLsb' rfl
  rw [decode_dataProcessing (by decide) hclass]
  simp (disch := decide) only [decodeDpRegister, maskEq_conflict h, maskEq_covered h, hopc,
    Bool.or_true, Bool.true_or, Bool.false_eq_true, if_false, if_true]
  rfl

/-- What a word adds to a translation: its own code, with the allocator as it was. -/
def Emits (op : BitVec 32) (code : List Code) : Prop :=
  isBlockTerminator (decode op).instrType = false ∧ ∀ env t,
    (translateOne env t (decode op).instrType op (decode op).imm).out = t.out ++ code.map .code ∧
      (translateOne env t (decode op).instrType op (decode op).imm).alloc = t.alloc

theorem emits_straight {code : List Code} (hend : isBlockTerminator (decode op).instrType = false)
    (h : ∀ env t, translateOne env t (decode op).instrType op (decode op).imm = t.straight code) :
    Emits op code := by
  refine ⟨hend, fun env t ↦ ?_⟩
  rw [h]
  constructor
  · show t.pcMapAdd.out ++ code.map .code = _
    rw [pcMapAdd_out]
  · exact pcMapAdd_alloc t

/-- A word that is carried is so by its own code. -/
theorem Carried.emits (undef : Instr → Machine → Status) (h : Carried op) :
    ∃ code, Emits op code ∧ Carries undef code.flatten [op] := by
  have hnop : ∀ ty, ty = .dataproc → (decode op).instrType = ty → Emits op [[0x90]] := by
    rintro ty rfl hty
    rw [Emits, hty]
    exact ⟨rfl, fun _ _ ↦ ⟨rfl, rfl⟩⟩
  cases h with
  | hint h =>
    exact ⟨_, hnop _ rfl (dataproc_of_hint h), carries_nop fun _ ↦ A64.stepWord_hint (Or.inl h)⟩
  | barrier h hoption =>
    exact ⟨_, hnop _ rfl (dataproc_of_barrier h hoption), carries_nop fun _ ↦ A64.stepWord_hint (Or.inr h)⟩
  | access k h hexact =>
    have htype := (decode_single hexact.single h).1
    refine ⟨_, emits_straight ?_ fun env t ↦ ?_, carries_access h hexact⟩
    · rw [htype]
      split <;> rfl
    · rw [htype]
      split <;> rfl
  | mul h hrd hrn hrm =>
    have htype := decode_mul h
    refine ⟨_, emits_straight ?_ fun env t ↦ ?_, carries_mul h hrd hrn hrm⟩
    · rw [htype]
      rfl
    · rw [htype]
      rfl
  | shift h hrd hrn =>
    have htype := decode_shift h
    refine ⟨_, emits_straight ?_ fun env t ↦ ?_, carries_shift h hrd hrn⟩
    · rw [htype]
      split <;> rfl
    · rw [htype]
      split <;> rfl
  | movk h hrd =>
    have htype := decode_movk h
    have hopc : op.extractLsb' 29 2 = 3 := h.extractLsb' rfl
    have hhw : op.extractLsb' 21 2 = 0 := h.extractLsb' rfl
    refine ⟨_, emits_straight ?_ fun env t ↦ ?_, carries_movk h hrd⟩
    · rw [htype]
      rfl
    · have hcode : translateMovImm t.alloc op = (t.alloc, translateMovk op 0) := by
        rw [translateMovImm, hopc, hhw]
        rfl
      rw [htype]
      show t.allocating (fun a ↦ translateMovImm a op) = _
      rw [TranslateCtx.allocating, hcode]
      show TranslateCtx.emit { t.pcMapAdd with alloc := t.alloc } _ = _
      rw [← pcMapAdd_alloc t]
      rfl

end Emission

section Blocks

/-- The allocator behind the prologue: `X29` is kept in `RBP`, and nothing is dirty. -/
def entryAlloc : Alloc := (regAllocSetupCallingConvention regAllocInit).1

/-- A block of words that are carried, in front of a return through `X30`. -/
structure HomeProgram (blk : A64Block) (n : Nat) : Prop where
  short : n < maxInstructions
  inside : 4 * n < blk.size
  carried : ∀ k < n, Carried (blk.word k)
  returns : blk.word n = A64.ret

/-- The words of a block. -/
def Block.leadingWords (blk : Block) (n : Nat) : List (BitVec 32) := (List.range n).map blk.word

variable {env : Env} {stack : Stack} {blk : A64Block} {undef : Instr → Machine → Status} {n : Nat}

theorem batchStore_entry {t : TranslateCtx} (h : t.alloc = entryAlloc) :
    t.batchStore.out = t.out ∧ t.batchStore.alloc = entryAlloc := by
  have hbatch : regAllocEmitBatchStore entryAlloc (regAllocComputeLiveOut entryAlloc) =
      (entryAlloc, []) := by
    have hnone : regAllocComputeLiveOut entryAlloc = [] := by decide
    rw [hnone]
    rfl
  rw [TranslateCtx.batchStore, h, hbatch]
  exact ⟨List.append_nil _, rfl⟩

/-- The loop of a program from one of its words on. -/
theorem convertLoop_home (env : Env) (stack : Stack) (h : HomeProgram blk n)
    (undef : Instr → Machine → Status) {j k fuel : Nat} {t : TranslateCtx} (hk : k + j = n)
    (hfuel : j < fuel) (ht : t.alloc = entryAlloc) :
    ∃ code : List Code, (convertLoop env stack blk.toBlock fuel k t).out = t.out ++ code.map .code ∧
      (convertLoop env stack blk.toBlock fuel k t).alloc = entryAlloc ∧
      Carries undef code.flatten ((List.range' k j).map blk.word) := by
  induction j generalizing k fuel t with
  | zero =>
    obtain ⟨fuel, rfl⟩ := Nat.exists_eq_add_of_lt hfuel
    obtain rfl : k = n := hk
    have hword : blk.toBlock.word k = A64.ret := h.returns
    have hret : isBlockTerminator (decode A64.ret).instrType = true := by decide
    have hstep : (translateStep env stack blk.toBlock k t).out = t.out ∧
        (translateStep env stack blk.toBlock k t).alloc = entryAlloc := by
      rw [translateStep, blk.decoded_eq, hword]
      exact ⟨pcMapAdd_out t, (pcMapAdd_alloc t).trans ht⟩
    have hbatch := batchStore_entry hstep.2
    rw [convertLoop, if_pos h.inside, blk.decoded_eq, hword]
    simp only [hret, if_true]
    refine ⟨[], ?_, hbatch.2, carries_nil⟩
    rw [hbatch.1, hstep.1]
    exact (List.append_nil _).symm
  | succ j ih =>
    obtain ⟨fuel, rfl⟩ : ∃ f, fuel = f + 1 := ⟨fuel - 1, by omega⟩
    have hlt : k < n := by omega
    have hinside : 4 * k < blk.size := by
      have hsize := h.inside
      omega
    obtain ⟨code, ⟨hend, hemits⟩, hcarries⟩ := (h.carried k hlt).emits undef
    obtain ⟨hout, halloc⟩ := hemits env t
    have hstep : (translateStep env stack blk.toBlock k t).out = t.out ++ code.map .code ∧
        (translateStep env stack blk.toBlock k t).alloc = entryAlloc := by
      rw [translateStep, blk.decoded_eq]
      exact ⟨hout, halloc.trans ht⟩
    have hj : k + 1 + j = n := by omega
    obtain ⟨codes, hrest, hallocs, hcarried⟩ := ih hj (Nat.lt_of_succ_lt_succ hfuel) hstep.2
    rw [convertLoop, if_pos hinside, blk.decoded_eq]
    simp only [hend, Bool.false_eq_true, if_false]
    refine ⟨code ++ codes, ?_, hallocs, ?_⟩
    · rw [hrest, hstep.1, List.map_append, List.append_assoc]
    · rw [List.flatten_append, List.range'_succ, List.map_cons]
      exact hcarries.cons hcarried

/-- The bytes of a program: the entry code, code that carries its words, and the epilogue. -/
theorem convertBlockBytes_home (env : Env) (stack : Stack) (h : HomeProgram blk n)
    (undef : Instr → Machine → Status) (x86Base : BitVec 64) : ∃ body, convertBlockBytes env stack blk.toBlock x86Base =
      entryMovs.flatMap MovCode.bytes ++ (body ++ epilogue.flatten) ∧
      Carries undef body (blk.leadingWords n) := by
  have hstart : (startCtx stack blk.toBlock x86Base).alloc = entryAlloc := rfl
  obtain ⟨code, hout, halloc, hcarries⟩ :=
    convertLoop_home env stack h undef (Nat.zero_add n) h.short hstart
  refine ⟨code.flatten, ?_, ?_⟩
  · have hbatch := (batchStore_entry halloc).1
    unfold convertBlockBytes convertBlock TranslateCtx.emit TranslateCtx.emitItems
    show (_ ++ _ : List Item).flatMap Item.bytes = _
    rw [hbatch, hout, List.flatMap_append, List.flatMap_append, List.append_assoc]
    have hcode : ∀ cs : List Code, (cs.map Item.code).flatMap Item.bytes = cs.flatten := by
      intro cs
      rw [List.flatMap_map]
      exact List.flatMap_id'
    rw [hcode, hcode]
    rfl
  · rw [Block.leadingWords, List.range_eq_range']
    exact hcarries

end Blocks

section Calls

variable {m m' m₀ : Machine}

/-- The guest in a machine: its registers are the slots, and it has nothing at the home. -/
def guestOf (m : Machine) : A64.State where
  regs r := (slotAt (m.regs 5) r.toFin m).getD 0
  vectors v := m.vectors (v.setWidth 4)
  mem a := if a ∈ homeRegion (m.regs 5) then none else m.mem a

theorem slotAt_of_mapped (h : ∀ i < 256, (m.mem (m.regs 5 + BitVec.ofNat 64 i)).isSome) (r : ArmReg) :
    ∃ v, slotAt (m.regs 5) r m = some v := by
  have hbytes : ∃ bs, Sparse.load m.mem (slotAddr (m.regs 5) r) 8 = some bs := by
    rw [Sparse.exists_load_iff]
    intro i hi
    have hr := r.isLt
    rw [slotAddr, BitVec.add_assoc, ← BitVec.ofNat_add]
    exact h _ (by omega)
  obtain ⟨bs, hbs⟩ := hbytes
  exact ⟨_, by rw [slotAt_eq, hbs, Option.map_some]⟩

theorem represents_guestOf (h : ∀ i < 256, (m.mem (m.regs 5 + BitVec.ofNat 64 i)).isSome) :
    Represents (m.regs 5) m (guestOf m) where
  base := rfl
  slots r := by
    obtain ⟨v, hv⟩ := slotAt_of_mapped h r
    show slotAt (m.regs 5) r m = some ((slotAt (m.regs 5) r m).getD 0)
    rw [hv, Option.getD_some]
  vectors _ _ := rfl
  guest a ha := (if_neg ha).symm
  outside a ha := if_pos ha

/-- Some code leaves the registers, and what is mapped. -/
def Keeps (m m' : Machine) : Prop := m'.regs = m.regs ∧ ∀ a, (m.mem a).isSome → (m'.mem a).isSome

theorem keeps_store {a : BitVec 64} {bs : List Byte} (h : m.store a bs = some m') : Keeps m m' := by
  obtain ⟨_, -, hm'⟩ := Option.bind_eq_some_iff.mp h
  rw [← Option.some.inj hm']
  refine ⟨rfl, fun q hq ↦ ?_⟩
  show ((bs[(q - a).toNat]?).or (m.mem q)).isSome
  rw [Option.isSome_or, hq, Bool.or_true]

/-- The stores of the entry code. -/
theorem keeps_runMovs {cs : List MovCode}
    (hcs : ∀ c ∈ cs, ∃ base disp r, c.dst = .mem base none disp ∧ c.src = .reg r)
    (h : runMovs cs m = some m') : Keeps m m' := by
  induction cs generalizing m with
  | nil =>
    rw [← Option.some.inj h]
    exact ⟨rfl, fun _ ha ↦ ha⟩
  | cons c cs ih =>
    rw [List.forall_mem_cons] at hcs
    obtain ⟨base, disp, r, hdst, hsrc⟩ := hcs.1
    obtain ⟨m₁, hmov, hrun⟩ := Option.bind_eq_some_iff.mp h
    rw [hdst, hsrc] at hmov
    obtain ⟨hregs₁, hmapped₁⟩ := keeps_store hmov
    obtain ⟨hregs, hmapped⟩ := ih hcs.2 hrun
    exact ⟨hregs.trans hregs₁, fun a ha ↦ hmapped a (hmapped₁ a ha)⟩

theorem runMovs_append (cs ds : List MovCode) (m : Machine) :
    runMovs (cs ++ ds) m = (runMovs cs m).bind (runMovs ds) := by
  induction cs generalizing m with
  | nil => rfl
  | cons c cs ih =>
    rw [List.cons_append, runMovs, runMovs]
    cases { m with pos := m.pos + c.bytes.length }.mov c.dst c.src with
    | none => rfl
    | some m₁ => exact ih m₁

/-- Behind the entry code `RBP` is where it was: it is stored to the slot of `X29` and loaded from
there. -/
theorem entry_keeps (hhome : ∀ i < 256, (m.mem (m.regs 5 + BitVec.ofNat 64 i)).isSome)
    (h : runMovs entryMovs m = some m₀) :
    m₀.regs 5 = m.regs 5 ∧ ∀ a, (m.mem a).isSome → (m₀.mem a).isSome := by
  have hsplit : entryMovs = entryMovs.take 9 ++ entryMovs.drop 9 := (List.take_append_drop 9 _).symm
  rw [hsplit, runMovs_append] at h
  obtain ⟨m₉, hstores, hlast⟩ := Option.bind_eq_some_iff.mp h
  obtain ⟨hregs₉, hmapped₉⟩ := keeps_runMovs (by
    simp only [entryMovs, List.take_succ_cons, List.take_zero, List.forall_mem_cons]
    refine ⟨⟨_, _, _, rfl, rfl⟩, ⟨_, _, _, rfl, rfl⟩, ⟨_, _, _, rfl, rfl⟩, ⟨_, _, _, rfl, rfl⟩,
      ⟨_, _, _, rfl, rfl⟩, ⟨_, _, _, rfl, rfl⟩, ⟨_, _, _, rfl, rfl⟩, ⟨_, _, _, rfl, rfl⟩,
      ⟨_, _, _, rfl, rfl⟩, fun c hc ↦ absurd hc List.not_mem_nil⟩) hstores
  obtain ⟨m₁₀, hstore, hload⟩ := Option.bind_eq_some_iff.mp hlast
  obtain ⟨m₁₁, hmov, hend⟩ := Option.bind_eq_some_iff.mp hload
  obtain rfl : m₁₁ = m₀ := Option.some.inj hend
  generalize m₉.pos + _ = p at hstore
  obtain ⟨v, hv⟩ := slotAt_of_mapped (m := { m₉ with pos := p }) (fun i hi ↦ by
    show (m₉.mem (m₉.regs 5 + BitVec.ofNat 64 i)).isSome
    rw [hregs₉]
    exact hmapped₉ _ (hhome i hi)) 29
  have hset := (movAt_store true 5 fun i hi ↦ isSome_of_slotAt hv hi).symm.trans hstore
  have hm₁₀ := Option.some.inj hset
  have hslot := slotAt_storedMem (congrArg Machine.mem hm₁₀).symm hv 29
  rw [if_pos rfl] at hslot
  have hregs₁₀ : m₁₀.regs = m₉.regs := (congrArg Machine.regs hm₁₀).symm
  have hkeeps : Keeps { m₉ with pos := p } m₁₀ := keeps_store hstore
  generalize m₁₀.pos + _ = q at hmov
  have hvalue : slotAt (m₁₀.regs 5) 29 { m₁₀ with pos := q } = some (m₉.regs 5) := by
    rw [hregs₁₀]
    exact hslot
  have hloaded := Option.some.inj ((movAt_load true 5 hvalue).symm.trans hmov)
  constructor
  · rw [← hloaded, Machine.regs_setReg, if_pos rfl, hregs₉]
    rfl
  · intro a ha
    rw [← hloaded]
    exact hkeeps.2 a (hmapped₉ a ha)

/-- A call of some code does what some words do to the guest that the entry code leaves, and returns
its `X0`. -/
def Preserves (sem : Semantics) (code : List Byte) (x86Base : BitVec 64) (ops : List (BitVec 32)) : Prop :=
  ∀ m m₀ g, Entry x86Base m → runMovs entryMovs m = some m₀ → A64.runWords ops (guestOf m₀) = some g →
    ∃ n m', sem.steps code n m = some m' ∧ code.drop m'.pos = [0xc3] ∧
      Represents (m.regs 5) m' g ∧ m'.regs 0 = g.regs 0

/-- The code of a program does what the program does, also where it does not lie where it was made for. -/
theorem preserves_of_home (undef : Instr → Machine → Status) (rest : Instr → Machine → Option Machine)
    (env : Env) (stack : Stack) {blk : A64Block} {n : Nat} (h : HomeProgram blk n)
    (x86Base base : BitVec 64) :
    Preserves (Semantics.core undef rest) (convertBlockBytes env stack blk.toBlock x86Base) base
      (blk.leadingWords n) := by
  intro m m₀ g hentry hmovs hwords
  obtain ⟨body, hcode, hcarries⟩ := convertBlockBytes_home env stack h undef x86Base
  rw [hcode]
  obtain ⟨hbase, hmapped⟩ := entry_keeps hentry.home hmovs
  have hhome : ∀ i < 256, (m₀.mem (m₀.regs 5 + BitVec.ofNat 64 i)).isSome := by
    intro i hi
    rw [hbase]
    exact hmapped _ (hentry.home i hi)
  -- the entry code
  have hdrop : (entryMovs.flatMap MovCode.bytes ++ (body ++ epilogue.flatten)).drop m.pos =
      entryMovs.flatMap MovCode.bytes ++ (body ++ epilogue.flatten) := by
    rw [hentry.pos, List.drop_zero]
  have hsteps := (integers undef).steps_movs decode_entryMovs hdrop
  rw [hmovs] at hsteps
  have hpos₀ := runMovs_pos hmovs
  rw [hentry.pos, Nat.zero_add] at hpos₀
  -- the words
  have hat : At (entryMovs.flatMap MovCode.bytes ++ (body ++ epilogue.flatten)) m₀.pos
      (body ++ epilogue.flatten) := by
    rw [hpos₀, At, List.drop_left]
  obtain ⟨m₁, hbody, hpos₁, hrep₁⟩ :=
    hcarries _ (m₀.regs 5) m₀ _ g hat.left (represents_guestOf hhome) hwords
  -- the epilogue
  have hat₁ : At (entryMovs.flatMap MovCode.bytes ++ (body ++ epilogue.flatten)) m₁.pos
      ((loadChunk 0 rax true).bytes ++ [0xc3]) := by
    rw [hpos₁]
    exact hat.right
  have hexec : (integers undef).exec (loadChunk 0 rax true).instr
      { m₁ with pos := m₁.pos + (loadChunk 0 rax true).bytes.length } =
        some ({ m₁ with pos := m₁.pos + (loadChunk 0 rax true).bytes.length }.setReg 0 (g.regs 0)) :=
    movAt_load true 0 ((hrep₁.pos _).slot_self 0)
  have hlast := Semantics.runs_chunk hat₁.left hexec
  obtain ⟨k, hk⟩ := Semantics.Runs.trans ⟨_, hsteps⟩ (hbody.trans hlast)
  refine ⟨k, _, steps_core_of_none hk rest, ?_, ?_, ?_⟩
  · show List.drop (m₁.pos + (loadChunk 0 rax true).bytes.length) _ = _
    rw [hpos₁, hpos₀, ← List.drop_drop, ← List.drop_drop, List.drop_left, List.drop_left]
    rfl
  · rw [← hbase]
    exact (hrep₁.pos _).setReg (by decide) _
  · rw [Machine.regs_setReg, if_pos rfl]

/-- `MOVK X0, #0x2000`, `LDR X1, [X0, #8]`, `MUL X2, X1, X1`, `ASR X2, X2, #3`, `DMB ISH`,
`STR X2, [X0]` and `RET`. -/
private def sampleProgram : A64Block where
  toBlock := Block.ofWords 0x1000
    [0xf2840000, 0xf9400401, 0x9b017c22, 0x9343fc42, 0xd5033bbf, 0xf9000002, 0xd65f03c0]
  aligned := by decide

/-- A call with all of memory mapped and the register home at `0x1000`. -/
private def sampleCall : Machine where
  regs r := if r = 5 then 0x1000 else 0
  flags := 0
  vectors _ := 0
  mem _ := some 3
  codeBase := 0
  pos := 0

private def sampleOps : List (BitVec 32) :=
  [0xf2840000, 0xf9400401, 0x9b017c22, 0x9343fc42, 0xd5033bbf, 0xf9000002]

/-- The words run behind the entry code of that call, and `X2` is the product shifted. -/
private theorem sampleOps_run : ∃ m₀ g, runMovs entryMovs sampleCall = some m₀ ∧
    A64.runWords sampleOps (guestOf m₀) = some g ∧
    g.regs 2 = (0x0303030303030303 * 0x0303030303030303 : BitVec 64).sshiftRight 3 := by
  have hrun : ((runMovs entryMovs sampleCall).bind fun m₀ ↦
      (A64.runWords sampleOps (guestOf m₀)).map fun g ↦ g.regs 2) =
        some ((0x0303030303030303 * 0x0303030303030303 : BitVec 64).sshiftRight 3) := by
    decide +kernel
  obtain ⟨m₀, hm₀, hg⟩ := Option.bind_eq_some_iff.mp hrun
  obtain ⟨g, hg, hx₂⟩ := Option.map_eq_some_iff.mp hg
  exact ⟨m₀, g, hm₀, hg, hx₂⟩

end Calls

end Arm2x86.Translate
