import Arm2x86.Arm32.Conditions
import Arm2x86.Thumb.Segmentation

/-!
# IT blocks

The instructions of an IT block and their conditions, against the state machine of the translator. On
its own the machine is right for one form of the instruction, and no stream of instructions starts it.
-/

namespace Arm2x86.Thumb

open X86 Arm32

section Architecture

/-- The halfwords of IT instructions. With an empty mask they are hints. -/
def isIt (h : BitVec 16) : Bool := h.extractLsb' 8 8 == 0xbf && h.extractLsb' 0 4 != 0

/-- How many instructions a mask is for: the lowest bit that is set ends the block. -/
def blockLength (mask : BitVec 4) : Nat :=
  if mask.getLsbD 0 then 4 else if mask.getLsbD 1 then 3 else if mask.getLsbD 2 then 2 else 1

/-- The condition of an instruction of a block: the first condition, with its lowest bit replaced by a
bit of the mask for all instructions but the first. -/
def blockCond (firstcond mask : BitVec 4) (k : Nat) : BitVec 4 :=
  firstcond.extractLsb' 1 3 ++ BitVec.ofBool ((firstcond.extractLsb' 0 1 ++ mask).getLsbD (4 - k))

/-- An IT instruction in a stream, with all instructions of its block. -/
structure ItBlock (buf : List Byte) where
  index : Nat
  halfword : BitVec 16
  isIt : isIt halfword = true
  at_index : (segments buf)[index]? = some (.narrow halfword)
  follow : index + blockLength (halfword.extractLsb' 0 4) < (segments buf).length

namespace ItBlock

variable {buf : List Byte} (b : ItBlock buf)

def length : Nat := blockLength (b.halfword.extractLsb' 0 4)

def cond (k : Nat) : BitVec 4 := blockCond (b.halfword.extractLsb' 4 4) (b.halfword.extractLsb' 0 4) k

/-- The translation of an instruction of the block. -/
def code (shl : Int → BitVec 64) (k : Nat) : List Byte :=
  ((segments buf)[b.index + 1 + k]?).elim [] (Segment.code shl)

/-- What has to hold for a block: before each of its instructions the state machine is active and
yields the condition of the instruction, behind the last one it is inactive, and the code of an
instruction whose condition fails is passed without any effect. -/
structure Correct (shl : Int → BitVec 64) : Prop where
  conditions : ∀ k < b.length, ∃ d, after shl buf (b.index + 1 + k) = some d ∧ d.it.active = true ∧
    getCurrentItCondition d.it = (b.cond k).setWidth 8
  ends : ∃ d, after shl buf (b.index + 1 + b.length) = some d ∧ d.it.active = false
  guards : ∀ k < b.length, ∀ undef rest (m : Machine),
    condHolds (b.cond k) (Translate.nzcvOf m.status) = false →
      (Semantics.core undef rest).Runs (b.code shl k) { m with pos := 0 }
        { m with pos := (b.code shl k).length }

end ItBlock

end Architecture

section Machine

/-- The state in front of an instruction of a block, if the block starts the machine. -/
def machineState (firstcond mask : BitVec 4) : Nat → ItState
  | 0 => initItBlock (firstcond.setWidth 8) (mask.setWidth 8)
  | k + 1 => advanceItState (machineState firstcond mask k)

/-- Whether the machine goes through a block as it has to. -/
def MachineCorrect (firstcond mask : BitVec 4) : Prop :=
  (∀ k < blockLength mask, (machineState firstcond mask k).active = true ∧
    getCurrentItCondition (machineState firstcond mask k) = (blockCond firstcond mask k).setWidth 8) ∧
  (machineState firstcond mask (blockLength mask)).active = false

instance (firstcond mask : BitVec 4) : Decidable (MachineCorrect firstcond mask) := by
  unfold MachineCorrect
  infer_instance

/-- On its own the machine is right where a set bit of the mask stands for the first condition and
where its length is not read: blocks of four instructions under one odd condition. -/
theorem machineCorrect_iff {firstcond mask : BitVec 4} (h : mask ≠ 0) :
    MachineCorrect firstcond mask ↔ mask = 0b1111 ∧ firstcond.getLsbD 0 = true := by
  have key : ∀ firstcond mask : BitVec 4, mask ≠ 0 →
      (MachineCorrect firstcond mask ↔ mask = 0b1111 ∧ firstcond.getLsbD 0 = true) := by
    decide
  exact key firstcond mask h

end Machine

section Streams

variable (shl : Int → BitVec 64) {buf : List Byte}

/-- No turn of the driver finds a block open. -/
theorem not_active_of_after {k : Nat} (hk : k ≤ (segments buf).length) {d : Driver}
    (h : after shl buf k = some d) : d.it.active = false := by
  rw [after_eq shl hk, Option.some_inj] at h
  rw [← h]
  rfl

theorem ItBlock.length_pos (b : ItBlock buf) : 0 < b.length := by
  unfold ItBlock.length blockLength
  split_ifs <;> decide

theorem ItBlock.not_conditions (b : ItBlock buf) : ¬ ∀ k < b.length, ∃ d,
    after shl buf (b.index + 1 + k) = some d ∧ d.it.active = true ∧
      getCurrentItCondition d.it = (b.cond k).setWidth 8 := by
  intro h
  have hfollow : b.index + b.length < (segments buf).length := b.follow
  have hpos := b.length_pos
  obtain ⟨d, hafter, hactive, -⟩ := h 0 hpos
  have hinactive := not_active_of_after shl (by omega) hafter
  rw [hinactive] at hactive
  cases hactive

/-- The state machine is not active in front of the first instruction of any block. -/
theorem ItBlock.never_correct (b : ItBlock buf) : ¬ b.Correct shl :=
  fun h ↦ b.not_conditions shl h.conditions

/-- `IT EQ` in front of an addition. -/
def itEqAdd : ItBlock [0x08, 0xbf, 0x00, 0x18] where
  index := 0
  halfword := 0xbf08
  isIt := rfl
  at_index := rfl
  follow := by decide

theorem itEqAdd_not_correct : ¬ itEqAdd.Correct (fun _ ↦ 0) :=
  fun h ↦ itEqAdd.not_conditions _ h.conditions

end Streams

end Arm2x86.Thumb
