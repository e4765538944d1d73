import Arm2x86.X86.Passes

/-!
# Code as a transformer

Code that takes every machine to its end and changes what an abstraction sees of the machine by a
function. Such code is put together from instructions and from other such code. Where the number of the
instructions is known, the states of a run are told apart by it.
-/

namespace Arm2x86.X86

section Transformers

variable {α : Type} {Sees : α → Machine → Prop} {sem : Semantics} {frag frag' : List Byte}
variable {f f' : α → α}

/-- Some code takes every machine to its end and changes what is seen of it. -/
def Transforms (Sees : α → Machine → Prop) (sem : Semantics) (frag : List Byte) (f : α → α) : Prop :=
  ∀ whole m a, Sees a m → At whole m.pos frag →
    ∃ m', sem.Runs whole m m' ∧ m'.pos = m.pos + frag.length ∧ Sees (f a) m'

theorem transforms_nil : Transforms Sees sem [] id :=
  fun _ m _ ha _ ↦ ⟨m, Semantics.Runs.refl, rfl, ha⟩

theorem Transforms.append (h : Transforms Sees sem frag f) (h' : Transforms Sees sem frag' f') :
    Transforms Sees sem (frag ++ frag') (f' ∘ f) := by
  intro whole m a ha hat
  obtain ⟨m₁, hrun₁, hpos₁, ha₁⟩ := h whole m a ha hat.left
  have hat' : At whole m₁.pos frag' := by
    rw [hpos₁]
    exact hat.right
  obtain ⟨m₂, hrun₂, hpos₂, ha₂⟩ := h' whole m₁ (f a) ha₁ hat'
  refine ⟨m₂, hrun₁.trans hrun₂, ?_, ha₂⟩
  rw [hpos₂, hpos₁, List.length_append, Nat.add_assoc]

/-- An instruction that goes on with the next one. -/
theorem transforms_instr {i : Instr} (hdec : ∀ tail, decode (frag ++ tail) = some (i, tail))
    (hpos : ∀ a m p, Sees a m → Sees a { m with pos := p })
    (h : ∀ m a, Sees a m → ∃ m', sem.exec i m = some m' ∧ m'.pos = m.pos ∧ Sees (f a) m') :
    Transforms Sees sem frag f := by
  intro whole m a ha hat
  obtain ⟨m', hexec, hpos', ha'⟩ := h _ a (hpos a m (m.pos + frag.length) ha)
  exact ⟨m', Semantics.runs_chunk (c := ⟨frag, i, hdec⟩) hat hexec, hpos', ha'⟩

end Transformers

/-- A number of instructions that work on registers. -/
def Alters (sem : Semantics) (n : Nat) (frag : List Byte) (f : (Gpr → BitVec 64) → Gpr → BitVec 64) :
    Prop :=
  ∀ whole m, At whole m.pos frag →
    ∃ m', sem.steps whole n m = some m' ∧ m'.pos = m.pos + frag.length ∧ m'.regs = f m.regs

section Alters

variable {sem : Semantics} {n n' : Nat} {frag frag' : List Byte}
variable {f f' : (Gpr → BitVec 64) → Gpr → BitVec 64}

theorem alters_nil : Alters sem 0 [] id := fun _ m _ ↦ ⟨m, rfl, rfl, rfl⟩

theorem Alters.append (h : Alters sem n frag f) (h' : Alters sem n' frag' f') :
    Alters sem (n + n') (frag ++ frag') (f' ∘ f) := by
  intro whole m hat
  obtain ⟨m₁, hsteps₁, hpos₁, hregs₁⟩ := h whole m hat.left
  have hat' : At whole m₁.pos frag' := by
    rw [hpos₁]
    exact hat.right
  obtain ⟨m₂, hsteps₂, hpos₂, hregs₂⟩ := h' whole m₁ hat'
  refine ⟨m₂, ?_, ?_, ?_⟩
  · rw [sem.steps_add, hsteps₁, Option.bind_some, hsteps₂]
  · rw [hpos₂, hpos₁, List.length_append, Nat.add_assoc]
  · rw [hregs₂, hregs₁]
    rfl

theorem alters_instr {i : Instr} (hdec : ∀ tail, decode (frag ++ tail) = some (i, tail))
    (h : ∀ m, ∃ m', sem.exec i m = some m' ∧ m'.pos = m.pos ∧ m'.regs = f m.regs) :
    Alters sem 1 frag f := by
  intro whole m hat
  obtain ⟨m', hexec, hpos, hregs⟩ := h { m with pos := m.pos + frag.length }
  refine ⟨m', ?_, hpos, hregs⟩
  rw [Semantics.steps, Semantics.step_chunk ⟨_, _, hdec⟩ hat]
  show (sem.exec i { m with pos := m.pos + frag.length }).bind _ = _
  rw [hexec]
  rfl

/-- Of the states of a run, one is a given number of steps from the end. -/
theorem runs_unique {code : List Byte} {m m₁ m₂ : Machine} (hrun₁ : sem.Runs code m m₁)
    (hrun₂ : sem.Runs code m m₂) (h₁ : ∃ e, sem.steps code n m₁ = some e ∧ e.pos = code.length)
    (h₂ : ∃ e, sem.steps code n m₂ = some e ∧ e.pos = code.length) : m₁ = m₂ := by
  obtain ⟨k₁, hk₁⟩ := hrun₁
  obtain ⟨k₂, hk₂⟩ := hrun₂
  obtain ⟨e₁, hsteps₁, hend₁⟩ := h₁
  obtain ⟨e₂, hsteps₂, hend₂⟩ := h₂
  have hfrom₁ : sem.steps code (k₁ + n) m = some e₁ := by
    rw [sem.steps_add, hk₁, Option.bind_some, hsteps₁]
  have hfrom₂ : sem.steps code (k₂ + n) m = some e₂ := by
    rw [sem.steps_add, hk₂, Option.bind_some, hsteps₂]
  have hstop : ∀ {e : Machine}, e.pos = code.length → ∀ j, sem.steps code (j + 1) e = none := by
    intro e hend j
    rw [Semantics.steps, Semantics.step_end hend]
    rfl
  rcases Nat.lt_trichotomy k₁ k₂ with hlt | rfl | hgt
  · obtain ⟨j, rfl⟩ := Nat.exists_eq_add_of_lt hlt
    have hsum : k₁ + j + 1 + n = k₁ + n + (j + 1) := by omega
    rw [hsum, sem.steps_add, hfrom₁, Option.bind_some, hstop hend₁] at hfrom₂
    cases hfrom₂
  · exact Option.some.inj (hk₁.symm.trans hk₂)
  · obtain ⟨j, rfl⟩ := Nat.exists_eq_add_of_lt hgt
    have hsum : k₂ + j + 1 + n = k₂ + n + (j + 1) := by omega
    rw [hsum, sem.steps_add, hfrom₂, Option.bind_some, hstop hend₂] at hfrom₁
    cases hfrom₁

end Alters

theorem regs_setReg_update (m : Machine) (g : Gpr) (v : BitVec 64) :
    (m.setReg g v).regs = Function.update m.regs g v := by
  funext g'
  rw [Machine.regs_setReg, Function.update_apply]

end Arm2x86.X86
