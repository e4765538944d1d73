import Arm2x86.X86.Runs

/-!
# Runs among other agents

Code that runs while other agents store to a location. A run is the list of what comes next each
time, and it is told from it which instruction of the code has changed the location.
-/

namespace Arm2x86.X86

/-- What comes next: an instruction of the code, or a store of another agent. -/
inductive Event where
  | own
  | other (bytes : List Byte)

namespace Semantics

section Runs

variable (sem : Semantics) (code : List Byte) (a : BitVec 64)

/-- A run in which other agents store to an address. -/
def contend : List Event → Machine → Option Machine
  | [], m => some m
  | .own :: es, m => (sem.step code m).bind (contend es)
  | .other bytes :: es, m => (m.store a bytes).bind (contend es)

/-- An instruction of the code in a run. -/
structure OwnStep (es : List Event) (m : Machine) (j : Nat) (m₁ m₂ : Machine) : Prop where
  own : es[j]? = some .own
  before : sem.contend code a (es.take j) m = some m₁
  step : sem.step code m₁ = some m₂

/-- One instruction of a run puts a function of what is there at the location, and the others leave
it. -/
def Exchanges (n : Nat) (f : BitVec 64 → BitVec 64) (es : List Event) (m : Machine)
    (old : BitVec 64) : Prop :=
  ∃ j, (∃ m₁ m₂, sem.OwnStep code a es m j m₁ m₂ ∧ m₁.load a n = some (Machine.bytes old n) ∧
      m₂.load a n = some (Machine.bytes (f old) n)) ∧
    ∀ k m₁ m₂, k ≠ j → sem.OwnStep code a es m k m₁ m₂ → m₂.load a n = m₁.load a n

/-- Whatever other agents store to a location of some bytes, the code comes to its end when they
stop, and it has exchanged what was there once. -/
def Atomically (n : Nat) (f : BitVec 64 → BitVec 64) (m : Machine)
    (post : BitVec 64 → Machine → Prop) : Prop :=
  ∀ es m', (∀ bytes, .other bytes ∈ es → bytes.length = n) → sem.contend code a es m = some m' →
    (∃ m'', sem.Runs code m' m'' ∧ m''.pos = code.length) ∧
      (m'.pos = code.length → ∃ old, sem.Exchanges code a n f es m old ∧ post old m')

end Runs

section Steps

variable {sem : Semantics} {code : List Byte} {a : BitVec 64} {n : Nat} {f : BitVec 64 → BitVec 64}
variable {es : List Event} {m m₁ m₂ : Machine}

/-- A run on its own. -/
theorem contend_own (k : Nat) : sem.contend code a (List.replicate k .own) m = sem.steps code k m := by
  induction k generalizing m with
  | zero => rfl
  | succ k ih =>
    rw [List.replicate_succ, contend, steps]
    cases sem.step code m with
    | none => rfl
    | some m' => exact ih

theorem ownStep_own {k j : Nat} (hrun : sem.steps code k m = some m₁)
    (hstep : sem.step code m₁ = some m₂) (hj : k < j) :
    sem.OwnStep code a (List.replicate j .own) m k m₁ m₂ where
  own := by rw [List.getElem?_replicate, if_pos hj]
  before := by rw [List.take_replicate, Nat.min_eq_left (Nat.le_of_lt hj), contend_own, hrun]
  step := hstep

/-- Each instruction leaves the location or exchanges what is there. -/
theorem Exchanges.ownStep {old : BitVec 64} {k : Nat} (h : sem.Exchanges code a n f es m old)
    (hstep : sem.OwnStep code a es m k m₁ m₂) :
    m₂.load a n = m₁.load a n ∨
      m₁.load a n = some (Machine.bytes old n) ∧ m₂.load a n = some (Machine.bytes (f old) n) := by
  obtain ⟨j, ⟨m₁', m₂', hexchange, hold, hnew⟩, hleaves⟩ := h
  by_cases hk : k = j
  · subst hk
    obtain rfl : m₁' = m₁ := Option.some.inj (hexchange.before.symm.trans hstep.before)
    obtain rfl : m₂' = m₂ := Option.some.inj (hexchange.step.symm.trans hstep.step)
    exact Or.inr ⟨hold, hnew⟩
  · exact Or.inl (hleaves k m₁ m₂ hk hstep)

/-- Also without other agents each instruction does so. -/
theorem Atomically.step {post : BitVec 64 → Machine → Prop} (h : sem.Atomically code a n f m post)
    (hrun : sem.Runs code m m₁) (hstep : sem.step code m₁ = some m₂) :
    m₂.load a n = m₁.load a n ∨ ∃ old, m₁.load a n = some (Machine.bytes old n) ∧
      m₂.load a n = some (Machine.bytes (f old) n) := by
  obtain ⟨k, hk⟩ := hrun
  have halone : ∀ j bytes, Event.other bytes ∈ List.replicate j Event.own → bytes.length = n := by
    intro j bytes hmem
    cases List.eq_of_mem_replicate hmem
  have hnext : sem.steps code (k + 1) m = some m₂ := by
    rw [sem.steps_add, hk, Option.bind_some, steps, hstep]
    rfl
  obtain ⟨⟨m', ⟨i, hi⟩, hend⟩, -⟩ := h _ m₂ (halone (k + 1)) ((contend_own (k + 1)).trans hnext)
  have hall : sem.steps code (k + 1 + i) m = some m' := by
    rw [sem.steps_add, hnext]
    exact hi
  obtain ⟨-, hdone⟩ := h _ m' (halone (k + 1 + i)) ((contend_own (k + 1 + i)).trans hall)
  obtain ⟨old, hexchange, -⟩ := hdone hend
  have hown : sem.OwnStep code a (List.replicate (k + 1 + i) .own) m k m₁ m₂ :=
    ownStep_own hk hstep (by omega)
  rcases hexchange.ownStep hown with hleaves | hputs
  · exact Or.inl hleaves
  · exact Or.inr ⟨old, hputs⟩

end Steps

end Semantics

end Arm2x86.X86
