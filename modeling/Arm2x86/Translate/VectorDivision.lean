import Arm2x86.Translate.Vector
import Arm2x86.X86.Passes
import Arm2x86.X86.Stack
import Arm2x86.X86.Vectors

/-!
# Division of vectors

`translate_neon_div` (`modules/arm2x86_neon.c:900`): one sequence of instructions for every lane, with two
short jumps over fixed distances. The distances are larger than what is left of the sequence, so both
jumps leave their lane.
-/

namespace Arm2x86.Translate

open X86

section Statement

/-- The size of the elements. -/
def laneSize (op : BitVec 32) : Size :=
  let size : BitVec 2 := op.extractLsb' 20 2
  if size == 0 then .b8 else if size == 1 then .b16 else if size == 2 then .b32 else .b64

/-- The number of elements. -/
def laneCount (op : BitVec 32) : Nat := 128 / (laneSize op).bits

/-- The sequence for an element. -/
def lane (op : BitVec 32) (i : Nat) : List Code :=
  neonDivElement (op.getLsbD 4) (op.extractLsb' 20 2) (vd op) (vn op) (vm op) (BitVec.ofNat 8 i)

/-- The distance of a short jump from the next instruction. -/
def shortJump : Code → Option Int
  | [opcode, d] => if opcode = 0xeb ∨ opcode &&& 0xf0 = 0x70 then some d.toInt else none
  | _ => none

/-- The target of a short jump is the first byte of an instruction of the sequence. -/
def LandsInside (code : List Code) : Prop :=
  ∀ before c after d, code = before ++ c :: after → shortJump c = some d →
    ∃ before' c' after', code = before' ++ c' :: after' ∧
      ((before ++ [c]).flatten.length : Int) + d = before'.flatten.length

/-- The quotient of two lanes: truncated, zero for a zero divisor, the smallest integer where it does
not fit. -/
def laneQuotient {n : Nat} (signed : Bool) (a b : BitVec n) : BitVec n :=
  if signed then a.sdiv b else a / b

/-- The registers that the code has to restore. -/
def divScratch : List Gpr := [0, 1, 2, 8, 9, 10, 4]

/-- The code consists of instructions, its jumps stay in their lanes, and from every state with room on
the stack it comes to its end, with the quotients in `Vd` and the registers that it uses as before. -/
structure DividesLanes (sem : Semantics) (op : BitVec 32) : Prop where
  decodes : ∀ c ∈ translateNeonDiv op, ∃ i, X86.decode c = some (i, [])
  lands : ∀ i < laneCount op, LandsInside (lane op i)
  quotients : ∀ m : Machine, m.pos = 0 → m.Room 48 →
    ∃ m', sem.VecRuns (translateNeonDiv op).flatten m m' ∧
      m'.pos = (translateNeonDiv op).flatten.length ∧ (∀ r ∈ divScratch, m'.regs r = m.regs r) ∧
      ∀ i < laneCount op, vecElement (laneSize op) (m'.vectors ((regAt op 0).setWidth 4)) (BitVec.ofNat 8 i) =
        laneQuotient (op.getLsbD 4)
          (vecElement (laneSize op) (m.vectors ((regAt op 5).setWidth 4)) (BitVec.ofNat 8 i))
          (vecElement (laneSize op) (m.vectors ((regAt op 16).setWidth 4)) (BitVec.ofNat 8 i))

end Statement

section Jumps

/-- A jump over more than what is left of the sequence. -/
theorem not_landsInside {code before after : List Code} {c : Code} {d : Int}
    (h : code = before ++ c :: after) (hjump : shortJump c = some d) (hfar : after.flatten.length < d) :
    ¬ LandsInside code := by
  intro hlands
  obtain ⟨before', c', after', hcode, htarget⟩ := hlands before c after d h hjump
  have hlen : (before ++ [c]).flatten.length + after.flatten.length = code.flatten.length := by
    rw [h, ← List.length_append, ← List.flatten_append, List.append_assoc, List.singleton_append]
  have hlen' : before'.flatten.length ≤ code.flatten.length := by
    rw [hcode, List.flatten_append, List.length_append]
    exact Nat.le_add_right _ _
  omega

private theorem split_parts (front mid back : List Code) (test jz jmp : Code) :
    front ++ test :: jz :: mid ++ jmp :: back = (front ++ [test]) ++ jz :: (mid ++ jmp :: back) := by
  simp

variable (op : BitVec 32) (i : Nat)

/-- What follows the two jumps of a lane is shorter than their distances. -/
theorem lane_jumps : ∃ front mid back, lane op i = front ++ [0x74, 0x15] :: (mid ++ [0xeb, 0x0a] :: back) ∧
    back.flatten.length < 10 ∧ mid.flatten.length + back.flatten.length < 19 := by
  have hsize : ∀ s : BitVec 2, s = 0 ∨ s = 1 ∨ s = 2 ∨ s = 3 := by decide
  refine ⟨_, _, _, split_parts _ _ _ _ _ _, ?_, ?_⟩
  · rcases hsize (op.extractLsb' 20 2) with h | h | h | h <;> rw [h] <;>
      exact Nat.le_of_ble_eq_true rfl
  · rcases hsize (op.extractLsb' 20 2) with h | h | h | h <;> cases op.getLsbD 4 <;> rw [h] <;>
      exact Nat.le_of_ble_eq_true rfl

/-- The jump on a zero divisor leaves its lane, and so does the one behind the division. -/
theorem not_landsInside_lane : ¬ LandsInside (lane op i) := by
  obtain ⟨front, mid, back, hlane, hback, -⟩ := lane_jumps op i
  have hsplit : lane op i = (front ++ [0x74, 0x15] :: mid) ++ [0xeb, 0x0a] :: back := by
    rw [hlane, List.append_assoc, List.cons_append]
  apply not_landsInside hsplit rfl
  show (back.flatten.length : Int) < 10
  omega

end Jumps

section Runs

variable (undef : Instr → Machine → Status) (rest : Instr → Machine → Option Machine)
variable {whole : List Byte} {a : Nat}

private theorem jump_forward (m : Machine) {rel : BitVec 64} {n : Nat} (h : rel.toInt = n) :
    m.jump rel = some { m with pos := m.pos + n } := by
  have hnonneg : 0 ≤ (m.pos : Int) + n := by omega
  have hnat : ((m.pos : Int) + n).toNat = m.pos + n := by omega
  rw [Machine.jump, h, if_pos hnonneg, hnat]

/-- A jump of a lane is no vector instruction. -/
private theorem vecStep_jump {c : Chunk} {m : Machine} (h : At whole m.pos c.bytes)
    (hvec : ∀ tail, decodeVec (c.bytes ++ tail) = none) :
    (Semantics.core undef rest).vecStep whole m =
      (Semantics.core undef rest).exec c.instr { m with pos := m.pos + c.bytes.length } := by
  obtain ⟨tail, htail⟩ := h
  rw [Semantics.vecStep_of_none (htail ▸ hvec tail), Semantics.step_chunk c ⟨tail, htail⟩]

/-- A machine leaves a lane on a zero divisor, and it leaves it behind the division. -/
theorem jumps_leave (op : BitVec 32) (i : Nat) (hat : At whole a (lane op i).flatten) :
    ∃ jz jmp, a ≤ jz ∧ jz < jmp ∧ jmp < a + (lane op i).flatten.length ∧
      (∀ m, m.pos = jz → m.status.zero = true →
        ∃ m', (Semantics.core undef rest).vecStep whole m = some m' ∧
          a + (lane op i).flatten.length < m'.pos) ∧
      ∀ m, m.pos = jmp → ∃ m', (Semantics.core undef rest).vecStep whole m = some m' ∧
        a + (lane op i).flatten.length < m'.pos := by
  obtain ⟨front, mid, back, hlane, hback, hmid⟩ := lane_jumps op i
  have hsplit : (lane op i).flatten = front.flatten ++ ([0x74, 0x15] ++ (mid.flatten ++
      ([0xeb, 0x0a] ++ back.flatten))) := by
    rw [hlane]
    simp
  rw [hsplit] at hat ⊢
  have hjz := hat.right
  have hjmp := hjz.right.right
  have hlen : (front.flatten ++ ([0x74, 0x15] ++ (mid.flatten ++ ([0xeb, 0x0a] ++ back.flatten)))).length =
      front.flatten.length + 2 + mid.flatten.length + 2 + back.flatten.length := by
    simp only [List.length_append, List.length_cons, List.length_nil]
    omega
  rw [hlen]
  refine ⟨a + front.flatten.length, a + front.flatten.length + 2 + mid.flatten.length, ?_, ?_, ?_, ?_, ?_⟩
  · omega
  · omega
  · omega
  · intro m hpos hzero
    rw [← hpos] at hjz
    have hstep := vecStep_jump undef rest
      (c := ⟨[0x74, 0x15], .jcc 4 21, fun _ ↦ decode_prefixes rfl rfl⟩) hjz.left fun _ ↦ rfl
    have hholds : m.status.holds 4 = true := (Bool.bne_false _).trans hzero
    have hjump : ∀ m : Machine, m.jump 21 = some { m with pos := m.pos + 21 } :=
      fun m ↦ jump_forward m rfl
    refine ⟨_, hstep.trans ((if_pos hholds).trans (hjump _)), ?_⟩
    show _ < m.pos + 2 + 21
    omega
  · intro m hpos
    have hjmp' : At whole m.pos ([0xeb, 0x0a] ++ back.flatten) := hpos ▸ hjmp
    have hstep := vecStep_jump undef rest
      (c := ⟨[0xeb, 0x0a], .jmp 10, fun _ ↦ decode_prefixes rfl rfl⟩) hjmp'.left fun _ ↦ rfl
    have hjump : ∀ m : Machine, m.jump 10 = some { m with pos := m.pos + 10 } :=
      fun m ↦ jump_forward m rfl
    refine ⟨_, hstep.trans (hjump _), ?_⟩
    show _ < m.pos + 2 + 10
    omega

end Runs

section Result

/-- No lane is divided by code that stays in the lane. -/
theorem not_dividesLanes (undef : Instr → Machine → Status) (rest : Instr → Machine → Option Machine)
    (op : BitVec 32) : ¬ DividesLanes (Semantics.core undef rest) op := by
  intro h
  have hcount : 0 < laneCount op := by
    rw [laneCount]
    cases laneSize op <;> decide
  exact not_landsInside_lane op 0 (h.lands 0 hcount)

/-- Bytes of `V1` by those of `V2`: the jump on a zero divisor goes into the sequence for the next
byte. -/
theorem udiv_bytes_missed :
    ¬ DividesLanes (Semantics.core (fun _ m ↦ m.status) fun _ _ ↦ none) 0x00020020 := by
  intro h
  exact not_landsInside_lane _ 0 (h.lands 0 (by decide))

end Result

end Arm2x86.Translate
