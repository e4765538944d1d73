import Arm2x86.Peephole.Reach

/-!
# Where the peephole optimizer stays within its buffer

A rule that matches takes what it removes off the pointer to the length, so the length is wrong from
then on. The optimizer does what it should exactly on code in which no rule matches where it looks, and
in which what it looks at ends within the code.
-/

namespace Arm2x86.Peephole

section Positions

variable (mem : Nat → Byte) (size : Nat)

/-- The indices that code is looked at from, when it is gone through from `j` on. -/
inductive Visited (j : Nat) : Nat → Prop
  | first (h : j < size) : Visited j j
  | next {i : Nat} (h : Visited j i) (hlt : i + (getInstrLen.run (suffix mem i)).1 < size) :
      Visited j (i + (getInstrLen.run (suffix mem i)).1)

/-- No rule matches at an index, and what the patterns look at there is within the code. -/
def Quiet (i : Nat) : Prop :=
  ((firstRule rules).run (suffix mem i)).1 = none ∧ i + lookahead (suffix mem i) ≤ size

/-- The optimizer ends, it stays within the code, and it leaves the length of what is not removed. -/
def Right : Prop :=
  ∃ fuel s, peepholeOptimize fuel mem size = some s ∧ s.reach ≤ size ∧ s.size + s.removed = size

variable {mem size} {i j : Nat}

theorem Visited.start_lt (h : Visited mem size j i) : j < size := by
  induction h with
  | first h => exact h
  | next _ _ ih => exact ih

theorem Visited.eq_or_tail (h : Visited mem size j i) :
    i = j ∨ Visited mem size (j + (getInstrLen.run (suffix mem j)).1) i := by
  induction h with
  | first _ => exact Or.inl rfl
  | next _ hlt ih =>
    rcases ih with rfl | ih
    · exact Or.inr (.first hlt)
    · exact Or.inr (.next ih hlt)

theorem Visited.head (hj : j < size) (h : Visited mem size (j + (getInstrLen.run (suffix mem j)).1) i) :
    Visited mem size j i := by
  induction h with
  | first h => exact .next (.first hj) h
  | next _ hlt ih => exact .next ih hlt

end Positions

section Steps

variable {s s' : State} {fuel : Nat}

theorem step_of_some {r : Rewrite} (h : ((firstRule rules).run (suffix s.mem s.idx)).1 = some r) :
    ∃ reach, s.reach ≤ reach ∧ s.step = { s with reach := reach }.rewrite r := by
  refine ⟨max s.reach (s.idx + ((firstRule rules).run (suffix s.mem s.idx)).2),
    Nat.le_max_left .., ?_⟩
  unfold State.step
  dsimp only
  rw [h]

/-- A turn in which no rule matches goes on behind the instruction. -/
theorem step_of_none (h : ((firstRule rules).run (suffix s.mem s.idx)).1 = none) :
    s.step = { s with
      idx := s.idx + (getInstrLen.run (suffix s.mem s.idx)).1
      reach := max s.reach (s.idx + lookahead (suffix s.mem s.idx)) } := by
  unfold State.step
  dsimp only
  rw [h, ← lookahead_eq h, Nat.max_assoc, Nat.add_max_add_left]

/-- A turn of the loop leaves the length as it is. It removes bytes when a rule matches. -/
theorem step_spec (s : State) :
    s.step.size = s.size ∧ s.reach ≤ s.step.reach ∧ s.removed ≤ s.step.removed ∧
      (s.step.removed = s.removed → ((firstRule rules).run (suffix s.mem s.idx)).1 = none) := by
  cases h : ((firstRule rules).run (suffix s.mem s.idx)).1 with
  | none =>
    rw [step_of_none h]
    exact ⟨rfl, Nat.le_max_left _ _, Nat.le_refl _, fun _ ↦ rfl⟩
  | some r =>
    obtain ⟨reach, hreach, hstep⟩ := step_of_some h
    rw [hstep]
    have hshrinks := r.shrinks
    refine ⟨rfl, Nat.le_trans hreach (Nat.le_max_left ..), Nat.le_add_right _ _, ?_⟩
    intro hsame
    have hremoved : s.removed + (r.src - r.dst) = s.removed := hsame
    omega

theorem run_spec (h : run fuel s = some s') :
    s'.size = s.size ∧ s.reach ≤ s'.reach ∧ s.removed ≤ s'.removed := by
  induction fuel generalizing s with
  | zero =>
    rw [run] at h
    split at h
    · cases h
    · cases h
      exact ⟨rfl, Nat.le_refl _, Nat.le_refl _⟩
  | succ fuel ih =>
    rw [run] at h
    split at h
    · obtain ⟨hsize, hreach, hremoved⟩ := ih h
      obtain ⟨hsize', hreach', hremoved', -⟩ := step_spec s
      exact ⟨hsize.trans hsize', Nat.le_trans hreach' hreach, Nat.le_trans hremoved' hremoved⟩
    · cases h
      exact ⟨rfl, Nat.le_refl _, Nat.le_refl _⟩

end Steps

section Runs

variable {s s' : State} {fuel : Nat}

/-- In a run that removes nothing, no rule matches, and what is looked at has been reached. -/
theorem quiet_of_run (h : run fuel s = some s') (hremoved : s'.removed = s.removed) :
    ∀ i, Visited s.mem s.size s.idx i → Quiet s.mem s'.reach i := by
  induction fuel generalizing s with
  | zero =>
    intro i hi
    rw [run, if_pos hi.start_lt] at h
    cases h
  | succ fuel ih =>
    intro i hi
    rw [run, if_pos hi.start_lt] at h
    obtain ⟨-, hreach, hmono⟩ := run_spec h
    obtain ⟨-, -, hmono', hquiet⟩ := step_spec s
    have hnone := hquiet (by omega)
    have hstep := step_of_none hnone
    rw [hstep] at h hreach
    have hlater := ih h hremoved
    rcases hi.eq_or_tail with rfl | hi
    · exact ⟨hnone, Nat.le_trans (Nat.le_max_right ..) hreach⟩
    · exact hlater i hi

/-- Code in which no rule matches is gone through. -/
theorem run_of_quiet (h : ∀ i, Visited s.mem s.size s.idx i → Quiet s.mem s.size i)
    (hreach : s.reach ≤ s.size) :
    ∃ fuel s', run fuel s = some s' ∧ s'.reach ≤ s.size ∧ s'.size = s.size ∧
      s'.removed = s.removed := by
  induction hn : s.size - s.idx using Nat.strongRecOn generalizing s with
  | ind n ih =>
    by_cases hlt : s.idx < s.size
    · obtain ⟨hnone, hlook⟩ := h s.idx (.first hlt)
      have hstep := step_of_none hnone
      have hlen := getInstrLen_pos (suffix s.mem s.idx)
      obtain ⟨fuel, s', hrun, hreach', hsize, hremoved⟩ := ih (s.step.size - s.step.idx)
        (by rw [hstep]; dsimp only; omega) (s := s.step)
        (by rw [hstep]; exact fun i hi ↦ h i (hi.head hlt))
        (by rw [hstep]; exact Nat.max_le.mpr ⟨hreach, hlook⟩) rfl
      rw [hstep] at hreach' hsize hremoved
      refine ⟨fuel + 1, s', ?_, hreach', hsize, hremoved⟩
      rw [run, if_pos hlt, hrun]
    · exact ⟨0, s, by rw [run, if_neg hlt], hreach, rfl, rfl⟩

theorem quiet_of_right {mem : Nat → Byte} {size : Nat} (h : Right mem size) :
    ∀ i, Visited mem size 0 i → Quiet mem size i := by
  obtain ⟨fuel, s, hrun, hreach, hsize⟩ := h
  have hremoved : s.removed = 0 := by
    have hsame : s.size = size := (run_spec hrun).1
    omega
  intro i hi
  obtain ⟨hnone, hlook⟩ := quiet_of_run hrun hremoved i hi
  exact ⟨hnone, Nat.le_trans hlook hreach⟩

/-- The optimizer ends within the code with the right length exactly when, from the start of one
instruction to the next, no rule matches and no pattern looks at what is behind the code. -/
theorem peepholeOptimize_right_iff (mem : Nat → Byte) (size : Nat) :
    Right mem size ↔ ∀ i, Visited mem size 0 i → Quiet mem size i := by
  constructor
  · exact quiet_of_right
  · intro h
    obtain ⟨fuel, s, hrun, hreach, hsize, hremoved⟩ :=
      run_of_quiet (s := ⟨mem, size, 0, 0, 0, 0⟩) h (Nat.zero_le _)
    refine ⟨fuel, s, hrun, hreach, ?_⟩
    rw [hsize, hremoved]
    rfl

end Runs

section Forever

variable {s : State}

/-- `XOR EAX, EAX` matches the rule that puts it in place of a move. -/
theorem firstRule_xor_eax {p : Nat → Byte} (h0 : p 0 = 0x31#8) (h1 : p 1 = 0xc0#8) :
    ((firstRule rules).run p).1 = some ⟨0, [0x31, 0xc0], 2, 5, by decide⟩ := by
  have hxor : (isXorZero.run p).1 = some 0 := by
    unfold isXorZero
    simp [h0, h1]
  have hmov : (isMovZero.run p).1 = some 0 := by
    unfold isMovZero
    rw [run_bind, hxor]
    rfl
  have hrule : (optimizeMovZero.run p).1 = some ⟨0, [0x31, 0xc0], 2, 5, by decide⟩ := by
    unfold optimizeMovZero
    rw [run_bind, hmov]
    simp [h0, movLen]
  rw [rules, firstRule, run_bind, hrule]
  rfl

/-- The optimizer does not get past `XOR EAX, EAX`. -/
theorem run_xor_eax (fuel : Nat) (hidx : s.idx < s.size) (h0 : s.mem s.idx = 0x31#8)
    (h1 : s.mem (s.idx + 1) = 0xc0#8) : run fuel s = none := by
  induction fuel generalizing s with
  | zero => rw [run, if_pos hidx]
  | succ fuel ih =>
    rw [run, if_pos hidx]
    obtain ⟨reach, -, hstep⟩ := step_of_some (firstRule_xor_eax h0 h1)
    rw [hstep]
    apply ih
    · exact hidx
    · unfold State.rewrite Rewriting.overwrite
      dsimp only
      rw [if_neg (by omega)]
      simp
    · unfold State.rewrite Rewriting.overwrite
      dsimp only
      rw [if_neg (by omega)]
      simp

/-- `MOV EAX, 0`, and zeros behind it. -/
def movEaxZero : Nat → Byte := fun i ↦ if i = 0 then 0xb8 else 0

/-- `MOV EAX, 0` becomes `XOR EAX, EAX`, so the optimizer does not end. -/
theorem movEaxZero_not_right : ¬ Right movEaxZero 5 := by
  rintro ⟨fuel, s, hrun, -⟩
  have hxor : ∀ fuel, peepholeOptimize fuel movEaxZero 5 = none := by
    intro fuel
    cases fuel with
    | zero => rfl
    | succ fuel => exact run_xor_eax fuel (by decide) rfl rfl
  rw [hxor] at hrun
  cases hrun

end Forever

end Arm2x86.Peephole
