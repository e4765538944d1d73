import Arm2x86.X86.Execution
import Arm2x86.X86.Runs

/-!
# Counted loops

Runs of code with `LOOP`, which takes one from `RCX` and jumps unless nothing is left. A run is known
with the number of times that it comes to a `LOOP`.
-/

namespace Arm2x86.X86

/-- The displacement of a `LOOP` at an offset of the code. -/
def loopAt (code : List Byte) (pos : Nat) : Option Byte :=
  match code.drop pos with
  | op :: d :: _ => if op = 0xe2 then some d else none
  | _ => none

/-- `LOOP`, from a state whose position is behind it already. -/
def Machine.execLoop (m : Machine) (d : Byte) : Option Machine :=
  let m' := m.setReg 1 (m.regs 1 - 1)
  if m'.regs 1 = 0 then some m' else m'.jump (d.signExtend 64)

/-- Runs that come to a `LOOP` a number of times. -/
inductive Laps (sem : Semantics) (code : List Byte) : Nat → Machine → Machine → Prop
  | refl (m : Machine) : Laps sem code 0 m m
  | step {n : Nat} {m m' m'' : Machine} (hstep : sem.step code m = some m')
      (h : Laps sem code n m' m'') : Laps sem code n m m''
  | loop {n : Nat} {m m' m'' : Machine} {d : Byte} (hat : loopAt code m.pos = some d)
      (hexec : { m with pos := m.pos + 2 }.execLoop d = some m') (h : Laps sem code n m' m'') :
      Laps sem code (n + 1) m m''

section Instruction

variable {sem : Semantics} {code : List Byte} {m : Machine} {d : Byte} {pos : Nat}

theorem loopAt_of_at {tail : List Byte} (h : At code pos (0xe2 :: d :: tail)) :
    loopAt code pos = some d := by
  obtain ⟨rest, hrest⟩ := h
  rw [loopAt, ← hrest]
  rfl

/-- `LOOP` is none of the other instructions. -/
theorem decode_of_loopAt (h : loopAt code pos = some d) : decode (code.drop pos) = none := by
  rw [loopAt] at h
  split at h
  · rename_i op d' tail hcode
    by_cases hop : op = 0xe2
    · rw [hcode, hop]
      rfl
    · rw [if_neg hop] at h
      cases h
  · cases h

/-- A count that is not used up yet. -/
theorem execLoop_of_ne {target : Nat} (hne : m.regs 1 ≠ 1)
    (htarget : (m.pos : Int) + (d.signExtend 64).toInt = target) :
    m.execLoop d = some { m.setReg 1 (m.regs 1 - 1) with pos := target } := by
  have hleft : m.regs 1 - 1 ≠ 0 := by
    intro hzero
    apply hne
    rw [← BitVec.sub_add_cancel (m.regs 1) 1, hzero]
    rfl
  have hnonneg : 0 ≤ (m.pos : Int) + (d.signExtend 64).toInt := by omega
  have hnat : ((m.pos : Int) + (d.signExtend 64).toInt).toNat = target := by omega
  show (if m.regs 1 - 1 = 0 then _ else Machine.jump (m.setReg 1 (m.regs 1 - 1)) _) = _
  rw [if_neg hleft, Machine.jump, Machine.pos_setReg, if_pos hnonneg, hnat]

/-- The last count. -/
theorem execLoop_one (h : m.regs 1 = 1) : m.execLoop d = some (m.setReg 1 0) := by
  have hzero : m.regs 1 - 1 = 0 := by
    rw [h]
    rfl
  show (if m.regs 1 - 1 = 0 then some (m.setReg 1 (m.regs 1 - 1)) else _) = _
  rw [hzero, if_pos rfl]

end Instruction

/-- One of some instructions. -/
theorem at_chunk {code : List Byte} {done todo : List Chunk} {c : Chunk}
    (h : At code 0 (chunkBytes (done ++ c :: todo))) : At code (chunkBytes done).length c.bytes := by
  rw [chunkBytes, List.flatMap_append, List.flatMap_cons] at h
  have hc := h.right.left
  rwa [Nat.zero_add] at hc

namespace Laps

variable {sem : Semantics} {code : List Byte} {m m' m'' : Machine} {n k : Nat}

theorem trans (h : Laps sem code n m m') (h' : Laps sem code k m' m'') :
    Laps sem code (n + k) m m'' := by
  induction h with
  | refl m =>
    rw [Nat.zero_add]
    exact h'
  | step hstep _ ih => exact .step hstep (ih h')
  | loop hat hexec _ ih =>
    rw [Nat.add_right_comm]
    exact .loop hat hexec (ih h')

theorem of_runs (h : sem.Runs code m m') : Laps sem code 0 m m' := by
  obtain ⟨j, hj⟩ := h
  induction j generalizing m with
  | zero =>
    obtain rfl := Option.some.inj hj
    exact .refl m
  | succ j ih =>
    obtain ⟨m₁, hstep, hsteps⟩ := Option.bind_eq_some_iff.mp hj
    exact .step hstep (ih hsteps)

/-- A run that starts with straight code and gets stuck behind it does not get further. -/
theorem pos_le_of_stuck {cs : List Chunk} (hseq : ∀ c ∈ cs, sem.Sequential c.instr)
    (hat : At code 0 (chunkBytes cs)) (hdec : decode (code.drop (chunkBytes cs).length) = none)
    (hloop : loopAt code (chunkBytes cs).length = none) (hpos : m.pos = 0)
    (h : Laps sem code n m m') : m'.pos ≤ (chunkBytes cs).length := by
  have hfront : ∃ done todo, cs = done ++ todo ∧ m.pos = (chunkBytes done).length :=
    ⟨[], cs, rfl, hpos⟩
  clear hpos
  induction h with
  | refl m =>
    obtain ⟨done, todo, rfl, hm⟩ := hfront
    rw [hm, chunkBytes, chunkBytes, List.flatMap_append, List.length_append]
    exact Nat.le_add_right _ _
  | step hstep _ ih =>
    apply ih
    obtain ⟨done, todo, rfl, hm⟩ := hfront
    cases todo with
    | nil =>
      rw [List.append_nil] at hdec
      rw [Semantics.step, hm, hdec] at hstep
      cases hstep
    | cons c todo =>
      refine ⟨done ++ [c], todo, List.append_cons done c todo, ?_⟩
      rw [Semantics.step_chunk c (hm ▸ at_chunk hat)] at hstep
      rw [hseq c (by simp) _ _ hstep, chunkBytes, List.flatMap_append, List.length_append,
        List.flatMap_singleton, ← chunkBytes, hm]
  | loop hatLoop _ _ _ =>
    obtain ⟨done, todo, rfl, hm⟩ := hfront
    cases todo with
    | nil =>
      rw [List.append_nil] at hloop
      rw [hm, hloop] at hatLoop
      cases hatLoop
    | cons c todo =>
      -- an instruction stands there
      obtain ⟨tail, htail⟩ := at_chunk hat
      have hnone := decode_of_loopAt hatLoop
      rw [hm, ← htail, c.decodes] at hnone
      cases hnone

/-- A loop that is left when its counter is used up. -/
theorem countdown {I : Machine → Prop} {pos target : Nat} {d : Byte}
    (hat : loopAt code pos = some d)
    (htarget : (pos : Int) + 2 + (d.signExtend 64).toInt = target)
    (hcount : ∀ m v p, I m → I { m.setReg 1 v with pos := p })
    (hbody : ∀ m, I m → m.pos = target →
      ∃ m', Laps sem code 0 m m' ∧ m'.pos = pos ∧ m'.regs 1 = m.regs 1 ∧ I m')
    (hk : k + 1 < 2 ^ 64) (hm : I m) (hpos : m.pos = pos)
    (hrcx : m.regs 1 = BitVec.ofNat 64 (k + 1)) :
    ∃ m', Laps sem code (k + 1) m m' ∧ m'.pos = pos + 2 ∧ I m' := by
  induction k generalizing m with
  | zero =>
    refine ⟨_, .loop (hpos ▸ hat) (execLoop_one hrcx) (.refl _), ?_, hcount m 0 _ hm⟩
    rw [Machine.pos_setReg, hpos]
  | succ k ih =>
    have hne : m.regs 1 ≠ 1 := by
      rw [hrcx]
      intro h
      have := congrArg BitVec.toNat h
      rw [BitVec.toNat_ofNat, Nat.mod_eq_of_lt hk] at this
      change k + 1 + 1 = 1 at this
      omega
    have hexec := execLoop_of_ne (m := { m with pos := m.pos + 2 }) (d := d) hne
      (by rw [← htarget, ← hpos]; rfl)
    obtain ⟨m₁, hlap, hpos₁, hrcx₁, hm₁⟩ := hbody _ (hcount m (m.regs 1 - 1) target hm) rfl
    have hleft : m₁.regs 1 = BitVec.ofNat 64 (k + 1) := by
      rw [hrcx₁]
      show m.regs 1 - 1 = _
      rw [hrcx, BitVec.ofNat_add (k + 1) 1]
      exact BitVec.add_sub_cancel _ _
    obtain ⟨m₂, hlaps, hpos₂, hm₂⟩ := ih (by omega) hm₁ hpos₁ hleft
    refine ⟨m₂, .loop (hpos ▸ hat) hexec ?_, hpos₂, hm₂⟩
    have hboth := hlap.trans hlaps
    rwa [Nat.zero_add] at hboth

end Laps

end Arm2x86.X86
