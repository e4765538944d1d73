import Arm2x86.X86.Execution
import Arm2x86.X86.RoundTrip
import Arm2x86.X86.Runs
import Mathlib.Logic.Function.Basic
import Mathlib.Logic.Relation

/-!
# Vector instructions

The vector instructions that are needed with their operands: the bitwise ones, moves, the part of two
registers behind each other, and the elements of a register. A step of the machine takes one of these
or, where the bytes are none of them, an instruction of the other fragment.
-/

namespace Arm2x86.X86

/-- Vector registers, numbered as in the encoding. -/
abbrev Xmm := BitVec 4

inductive VecOp where
  | and
  | or
  | xor
  /-- ones in the bytes that are equal, and zeros in the others -/
  | equalBytes
deriving DecidableEq, Repr

/-- Vector instructions. An operand `Loc.reg` of theirs is a vector register, unless an element is
taken from it or put into it. -/
inductive VecInstr where
  | combine (f : VecOp) (dst : Xmm) (src : Loc)
  | align (dst : Xmm) (src : Loc) (count : Byte)
  | load (dst : Xmm) (src : Loc)
  | store (dst : Loc) (src : Xmm)
  | extract (size : Size) (dst : Loc) (src : Xmm) (i : Byte)
  | insert (size : Size) (dst : Xmm) (src : Loc) (i : Byte)
deriving DecidableEq, Repr

section Decoding

/-- Opcodes behind `0F 3A`, with the operand-size prefix. -/
def decodeVec0F3A (p : Prefixes) : List Byte → Option (VecInstr × List Byte)
  | [] => none
  | op :: bs => do
    let reg := takeReg p bs
    let (rm, rest) ← takeRm p .b64 bs
    let (_, rest') ← take8 rest
    let i := rest.headD 0
    let full : Size := if p.w then .b64 else .b32
    if op == 0x0f then some (.align reg rm i, rest')
    else if op == 0x14 then some (.extract .b8 rm reg i, rest')
    else if op == 0x15 then some (.extract .b16 rm reg i, rest')
    else if op == 0x16 then some (.extract full rm reg i, rest')
    else if op == 0x20 then some (.insert .b8 reg rm i, rest')
    else if op == 0x22 then some (.insert full reg rm i, rest')
    else none

/-- The operation of an opcode behind `0F`. -/
def combination (op : Byte) : Option VecOp :=
  if op == 0xdb then some .and
  else if op == 0xeb || op == 0x56 then some .or
  else if op == 0xef then some .xor
  else if op == 0x74 then some .equalBytes
  else none

/-- Opcodes behind `0F`. Without the operand-size prefix only the moves are of this fragment. -/
def decodeVec0F (p : Prefixes) : List Byte → Option (VecInstr × List Byte)
  | [] => none
  | op :: bs =>
    if op == 0x3a then if p.opsize then decodeVec0F3A p bs else none
    else do
      let reg := takeReg p bs
      let (rm, rest) ← takeRm p .b64 bs
      if op == 0x28 then some (.load reg rm, rest)
      else if op == 0x29 then some (.store rm reg, rest)
      else if !p.opsize then none
      else if op == 0x6f then some (.load reg rm, rest)
      else if op == 0x7e then some (.extract (if p.w then .b64 else .b32) rm reg 0, rest)
      else if op == 0xc4 then do
        let (_, rest') ← take8 rest
        some (.insert .b16 reg rm (rest.headD 0), rest')
      else (combination op).map fun f ↦ (.combine f reg rm, rest)

/-- The vector instruction at the head of a byte list, and the bytes behind it. -/
def decodeVec (bs : List Byte) : Option (VecInstr × List Byte) :=
  match takePrefixes .none bs with
  | (p, 0x0f :: rest) => if p.rep || p.repne then none else decodeVec0F p rest
  | _ => none

end Decoding

section Values

/-- The element `i` of a vector; the index is taken modulo the number of elements. -/
def vecElement (size : Size) (v : BitVec 128) (i : Byte) : BitVec size.bits :=
  v.extractLsb' (size.bits * (i.toNat % (128 / size.bits))) size.bits

/-- A vector with another element `i`. -/
def setVecElement (size : Size) (v : BitVec 128) (i : Byte) (e : BitVec size.bits) : BitVec 128 :=
  let off := size.bits * (i.toNat % (128 / size.bits))
  v &&& ~~~ ((BitVec.allOnes size.bits).setWidth 128 <<< off) ||| (e.setWidth 128 <<< off)

/-- The 128 bits behind the first `count` bytes of two vectors. -/
def alignVec (hi lo : BitVec 128) (count : Byte) : BitVec 128 :=
  (hi ++ lo).extractLsb' (8 * count.toNat) 128

def VecOp.run : VecOp → BitVec 128 → BitVec 128 → BitVec 128
  | .and, a, b => a &&& b
  | .or, a, b => a ||| b
  | .xor, a, b => a ^^^ b
  | .equalBytes, a, b =>
    (List.range 16).foldl (fun v i ↦ setVecElement .b8 v (BitVec.ofNat 8 i)
      (if vecElement .b8 a (BitVec.ofNat 8 i) = vecElement .b8 b (BitVec.ofNat 8 i)
        then BitVec.allOnes 8 else 0)) 0

end Values

namespace Machine

variable (m : Machine)

def setVec (r : Xmm) (v : BitVec 128) : Machine :=
  { m with vectors := Function.update m.vectors r v }

/-- The address of a vector in memory, which has to be aligned. -/
def vecAddress (loc : Loc) : Option (BitVec 64) := do
  let a ← m.address loc
  if a.extractLsb' 0 4 = 0 then some a else none

def readVec : Loc → Option (BitVec 128)
  | .reg r => some (m.vectors r)
  | .high _ => none
  | loc => do
    let bs ← m.load (← m.vecAddress loc) 16
    return value (bs.drop 8) ++ value (bs.take 8)

def writeVec (v : BitVec 128) : Loc → Option Machine
  | .reg r => some (m.setVec r v)
  | .high _ => none
  | loc => do
    m.store (← m.vecAddress loc) (bytes (v.setWidth 64) 8 ++ bytes (v.extractLsb' 64 64) 8)

end Machine

/-- What a vector instruction does to a state whose position is behind it already. An element in a
general register has zeros above it. -/
def VecInstr.exec (m : Machine) : VecInstr → Option Machine
  | .combine f dst src => do return m.setVec dst (f.run (m.vectors dst) (← m.readVec src))
  | .align dst src count => do
    return m.setVec dst (alignVec (m.vectors dst) (← m.readVec src) count)
  | .load dst src => do return m.setVec dst (← m.readVec src)
  | .store dst src => m.writeVec (m.vectors src) dst
  | .extract size dst src i =>
    let e := (vecElement size (m.vectors src) i).setWidth 64
    match dst with
    | .reg r => some (m.setReg r e)
    | dst => m.put size e dst
  | .insert size dst src i => do
    let e ← m.fetch size src
    return m.setVec dst (setVecElement size (m.vectors dst) i (size.cut e))

namespace Semantics

variable (sem : Semantics) (code : List Byte)

/-- One instruction of the code, which may be a vector instruction. -/
def vecStep (m : Machine) : Option Machine :=
  let bs := code.drop m.pos
  match decodeVec bs with
  | some (i, rest) => i.exec { m with pos := m.pos + (bs.length - rest.length) }
  | none => sem.step code m

/-- One state comes to another. -/
def VecRuns : Machine → Machine → Prop :=
  Relation.ReflTransGen fun m m' ↦ sem.vecStep code m = some m'

variable {sem code} {m m' m₁ : Machine}

/-- A vector instruction at the position of a state. -/
theorem vecStep_of_decode {chunk rest : List Byte} {i : VecInstr} (hcode : code.drop m.pos = chunk ++ rest)
    (hdec : decodeVec (chunk ++ rest) = some (i, rest)) :
    sem.vecStep code m = i.exec { m with pos := m.pos + chunk.length } := by
  have hlen : (chunk ++ rest).length - rest.length = chunk.length := by
    rw [List.length_append, Nat.add_sub_cancel]
  rw [vecStep, hcode, hdec]
  dsimp only
  rw [hlen]

/-- Another instruction there. -/
theorem vecStep_of_none (hdec : decodeVec (code.drop m.pos) = none) :
    sem.vecStep code m = sem.step code m := by
  rw [vecStep, hdec]

theorem vecStep_end (h : m.pos = code.length) : sem.vecStep code m = none := by
  have hdec : decodeVec (code.drop m.pos) = none := by
    rw [h, List.drop_length]
    rfl
  rw [vecStep_of_none hdec, step_end h]

/-- A state that is stuck comes to itself alone. -/
theorem vecRuns_of_stuck (hstuck : sem.vecStep code m = none) (h : sem.VecRuns code m m') : m' = m := by
  rcases Relation.ReflTransGen.cases_head h with rfl | ⟨m₁, hstep, -⟩
  · rfl
  · rw [hstuck] at hstep
    cases hstep

/-- Another comes to itself and to what the next one comes to. -/
theorem vecRuns_of_step (hstep : sem.vecStep code m = some m₁) (h : sem.VecRuns code m m') :
    m' = m ∨ sem.VecRuns code m₁ m' := by
  rcases Relation.ReflTransGen.cases_head h with rfl | ⟨m₂, hstep', hrun⟩
  · exact Or.inl rfl
  · rw [hstep] at hstep'
    rw [Option.some.inj hstep']
    exact Or.inr hrun

/-- Code of one instruction. -/
theorem vecRuns_end_iff (hstep : sem.vecStep code m = some m₁) (hpos : m.pos ≠ code.length)
    (hend : m₁.pos = code.length) : sem.VecRuns code m m' ∧ m'.pos = code.length ↔ m' = m₁ := by
  constructor
  · rintro ⟨hrun, hpos'⟩
    rcases vecRuns_of_step hstep hrun with rfl | hrun
    · exact absurd hpos' hpos
    · exact vecRuns_of_stuck (vecStep_end hend) hrun
  · rintro rfl
    exact ⟨.single hstep, hend⟩

end Semantics

end Arm2x86.X86
