import Arm2x86.X86.Execution
import Arm2x86.X86.RoundTrip
import Arm2x86.X86.Runs

/-!
# Code that is passed

Code that a machine gets through from every state of a kind, with a relation between the states in
front of it and behind it. Such code is put together from instructions, from other such code, and
from jumps over it.
-/

namespace Arm2x86.X86

/-- What code can rely on and has to keep. -/
structure Frame where
  Ready : Machine → Prop
  Keeps : Machine → Machine → Prop
  ready_pos : ∀ {m : Machine} (p : Nat), Ready m → Ready { m with pos := p }
  refl : ∀ (m : Machine) (p : Nat), Keeps m { m with pos := p }
  trans : ∀ {m m' m'' : Machine}, Keeps m m' → Keeps m' m'' → Keeps m m''

variable {undef : Instr → Machine → Status} {rest : Instr → Machine → Option Machine} {f : Frame}

/-- An instruction that goes on with the next one and keeps a frame. -/
def Passable (sem : Semantics) (f : Frame) (i : Instr) : Prop :=
  ∀ m, f.Ready m → ∃ m', sem.exec i m = some m' ∧ m'.pos = m.pos ∧ f.Ready m' ∧ f.Keeps m m'

/-- Code that a machine gets through and that keeps a frame. -/
def Passes (sem : Semantics) (f : Frame) (code : List Byte) : Prop :=
  ∀ whole m, f.Ready m → At whole m.pos code →
    ∃ m', sem.Runs whole m m' ∧ m'.pos = m.pos + code.length ∧ f.Ready m' ∧ f.Keeps m m'

section Composition

variable {sem : Semantics} {code code' : List Byte}

theorem passes_nil : Passes sem f [] :=
  fun _ m hm _ ↦ ⟨m, Semantics.Runs.refl, rfl, hm, f.refl m m.pos⟩

theorem Passes.append (h : Passes sem f code) (h' : Passes sem f code') :
    Passes sem f (code ++ code') := by
  intro whole m hm hat
  obtain ⟨m₁, hrun₁, hpos₁, hready₁, hkeeps₁⟩ := h whole m hm hat.left
  have hat' : At whole m₁.pos code' := by
    rw [hpos₁]
    exact hat.right
  obtain ⟨m₂, hrun₂, hpos₂, hready₂, hkeeps₂⟩ := h' whole m₁ hready₁ hat'
  refine ⟨m₂, hrun₁.trans hrun₂, ?_, hready₂, f.trans hkeeps₁ hkeeps₂⟩
  rw [hpos₂, hpos₁, List.length_append, Nat.add_assoc]

theorem passes_chunk (c : Chunk) (h : Passable sem f c.instr) : Passes sem f c.bytes := by
  intro whole m hm hat
  obtain ⟨m', hexec, hpos, hready, hkeeps⟩ := h _ (f.ready_pos (m.pos + c.bytes.length) hm)
  exact ⟨m', Semantics.runs_chunk hat hexec, hpos, hready, f.trans (f.refl m _) hkeeps⟩

theorem passes_decode {i : Instr} (hdec : ∀ rest, decode (code ++ rest) = some (i, rest))
    (h : Passable sem f i) : Passes sem f code :=
  passes_chunk ⟨code, i, hdec⟩ h

end Composition

section Jumps

variable {body whole : List Byte} {m m' : Machine} {opcode : Byte}

theorem toInt_displacement {n : Nat} (h : n < 2 ^ 31) :
    ((BitVec.ofNat 32 n).signExtend 64).toInt = n := by
  rw [BitVec.toInt_signExtend_of_le (by decide), BitVec.toInt_ofNat', Int.bmod_eq_of_le] <;> omega

/-- A jump over some code. -/
theorem jump_over {n : Nat} (m : Machine) (h : n < 2 ^ 31) :
    m.jump ((BitVec.ofNat 32 n).signExtend 64) = some { m with pos := m.pos + n } := by
  have hnonneg : 0 ≤ (m.pos : Int) + n := by omega
  have hnat : ((m.pos : Int) + n).toNat = m.pos + n := by omega
  rw [Machine.jump, toInt_displacement h, if_pos hnonneg, hnat]

variable (undef rest) in
/-- A jump on a condition goes on behind the code or in front of it. -/
theorem step_jcc (h : opcode &&& 0xf0 = 0x80) (hlen : body.length < 2 ^ 31)
    (hat : At whole m.pos (0x0f :: opcode :: imm32 (BitVec.ofNat 32 body.length))) :
    (Semantics.core undef rest).step whole m = some { m with
      pos := m.pos + 6 + if m.status.holds (opcode.extractLsb' 0 4) then body.length else 0 } := by
  rw [Semantics.step_chunk ⟨_, _, fun tail ↦ decode_jcc _ tail h⟩ hat]
  show (if m.status.holds _ then Machine.jump _ _ else _) = _
  split
  · exact jump_over _ hlen
  · rfl

variable (undef rest) in
theorem runs_jcc (h : opcode &&& 0xf0 = 0x80) (hlen : body.length < 2 ^ 31)
    (hat : At whole m.pos (0x0f :: opcode :: imm32 (BitVec.ofNat 32 body.length))) :
    (Semantics.core undef rest).Runs whole m { m with
      pos := m.pos + 6 + if m.status.holds (opcode.extractLsb' 0 4) then body.length else 0 } := by
  exists 1
  rw [Semantics.steps, step_jcc undef rest h hlen hat]
  rfl

theorem Passes.jccOver (h : opcode &&& 0xf0 = 0x80) (hlen : body.length < 2 ^ 31)
    (hbody : Passes (Semantics.core undef rest) f body) :
    Passes (Semantics.core undef rest) f
      (0x0f :: opcode :: imm32 (BitVec.ofNat 32 body.length) ++ body) := by
  intro whole m hm hat
  have hjcc := runs_jcc undef rest h hlen hat.left
  by_cases hcond : m.status.holds (opcode.extractLsb' 0 4) = true
  · rw [if_pos hcond] at hjcc
    refine ⟨_, hjcc, ?_, f.ready_pos _ hm, f.refl m _⟩
    rw [List.length_append]
    exact Nat.add_assoc _ _ _
  · rw [if_neg hcond] at hjcc
    obtain ⟨m', hrun, hpos, hready, hkeeps⟩ := hbody whole _ (f.ready_pos (m.pos + 6) hm) hat.right
    refine ⟨m', hjcc.trans hrun, ?_, hready, f.trans (f.refl m _) hkeeps⟩
    rw [hpos, List.length_append]
    exact Nat.add_assoc _ _ _

/-- Whatever is jumped over is passed. -/
theorem passes_jmpOver (hlen : body.length < 2 ^ 31) :
    Passes (Semantics.core undef rest) f (0xe9 :: imm32 (BitVec.ofNat 32 body.length) ++ body) := by
  intro whole m hm hat
  have hjmp : (Semantics.core undef rest).Runs whole m { m with pos := m.pos + 5 + body.length } := by
    apply Semantics.runs_chunk (c := ⟨_, _, fun tail ↦ decode_jmp _ tail⟩) hat.left
    exact jump_over _ hlen
  refine ⟨_, hjmp, ?_, f.ready_pos _ hm, f.refl m _⟩
  rw [List.length_append]
  exact Nat.add_assoc _ _ _

end Jumps

end Arm2x86.X86
