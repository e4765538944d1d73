import Mathlib.Data.List.Induction
import Mathlib.Data.List.Infix

/-!
# Runs, step by step

Runs of a deterministic system as lists of actions, and conditions on the single steps of a run.
An invariant under which each step does what is wanted exactly when it meets a condition gives
the same for whole runs: every step does what is wanted exactly when every step meets the
condition.
-/

namespace Arm2x86.Stepping

variable {σ α : Type} (step : σ → α → σ)

/-- Every step of a run has a property, which may speak of the state it is taken in. -/
def Each (P : σ → α → Prop) : σ → List α → Prop
  | _, [] => True
  | s, a :: as => P s a ∧ Each P (step s a) as

variable {step} {s : σ} {as : List α}

/-- The steps of a run are those that follow one of its beginnings. -/
theorem each_iff {P : σ → α → Prop} :
    Each step P s as ↔ ∀ done a, done ++ [a] <+: as → P (done.foldl step s) a := by
  induction as generalizing s with
  | nil =>
    refine ⟨?_, fun _ ↦ trivial⟩
    intro _ done a hdone
    simp at hdone
  | cons a as ih =>
    constructor
    · rintro ⟨hfirst, hrest⟩ done b hdone
      cases done with
      | nil =>
        obtain ⟨rfl, _⟩ := List.cons_prefix_cons.mp hdone
        exact hfirst
      | cons c done =>
        obtain ⟨rfl, htail⟩ := List.cons_prefix_cons.mp hdone
        exact ih.mp hrest done b htail
    · intro hall
      refine ⟨hall [] a (List.prefix_append [a] as), ih.mpr ?_⟩
      intro done b hdone
      exact hall (a :: done) b ((List.prefix_cons_inj a).mpr hdone)

/-- Conditions that agree in every state agree along every run. -/
theorem each_congr_of_iff {P Q : σ → α → Prop} (h : ∀ s a, P s a ↔ Q s a) :
    Each step P s as ↔ Each step Q s as := by
  simp only [each_iff, h]

/-- The states of a run are the first one and those after a step. -/
theorem forall_prefix_iff {P : σ → Prop} :
    (∀ done, done <+: as → P (done.foldl step s)) ↔
      P s ∧ Each step (fun s a ↦ P (step s a)) s as := by
  rw [each_iff]
  constructor
  · intro hall
    refine ⟨hall [] List.nil_prefix, ?_⟩
    intro done a hdone
    have hnext := hall (done ++ [a]) hdone
    rwa [List.foldl_append] at hnext
  · rintro ⟨hfirst, hsteps⟩ done hdone
    rcases List.eq_nil_or_concat' done with rfl | ⟨done, a, rfl⟩
    · exact hfirst
    · rw [List.foldl_append]
      exact hsteps done a hdone

/-- What an invariant gives for each step holds along every run. -/
theorem each_of_inv {inv : σ → Prop} {P : σ → α → Prop}
    (hkeep : ∀ s a, inv s → inv (step s a)) (hgives : ∀ s a, inv s → P s a) (hs : inv s) :
    Each step P s as := by
  induction as generalizing s with
  | nil => exact trivial
  | cons a as ih => exact ⟨hgives s a hs, ih (hkeep s a hs)⟩

/-- What holds of single steps from the states of an invariant, when the actions are allowed,
holds of the steps of a run. -/
theorem each_congr {inv : σ → Prop} {allowed : α → Prop} {wanted safe : σ → α → Prop}
    (hkeep : ∀ s a, inv s → allowed a → safe s a → inv (step s a))
    (hexact : ∀ s a, inv s → allowed a → (wanted s a ↔ safe s a))
    (hs : inv s) (has : ∀ a ∈ as, allowed a) :
    Each step wanted s as ↔ Each step safe s as := by
  induction as generalizing s with
  | nil => exact Iff.rfl
  | cons a as ih =>
    have ha : allowed a := has a (List.mem_cons_self ..)
    have hrest : ∀ b ∈ as, allowed b := fun b hb ↦ has b (List.mem_cons_of_mem a hb)
    have hfirst := hexact s a hs ha
    constructor
    · rintro ⟨hwanted, hsteps⟩
      have hsafe := hfirst.mp hwanted
      exact ⟨hsafe, (ih (hkeep s a hs ha hsafe) hrest).mp hsteps⟩
    · rintro ⟨hsafe, hsteps⟩
      exact ⟨hfirst.mpr hsafe, (ih (hkeep s a hs ha hsafe) hrest).mpr hsteps⟩

/-- The same where what is wanted and what is allowed speak of all the actions so far: as long as an
invariant holds, an action is allowed exactly when all is right behind it. -/
theorem forall_history_iff {inv P : List α → Prop} {safe : List α → α → Prop} (hstart : inv [])
    (hright : ∀ h, inv h → P h) (hkeep : ∀ h a, inv h → safe h a → inv (h ++ [a]))
    (hexact : ∀ h a, inv h → P (h ++ [a]) → safe h a) :
    (∀ done, done <+: as → P done) ↔ ∀ done a, done ++ [a] <+: as → safe done a := by
  constructor
  · intro hall
    have hinv : ∀ done, done <+: as → inv done := by
      intro done
      induction done using List.reverseRecOn with
      | nil => exact fun _ ↦ hstart
      | append_singleton done a ih =>
        intro hdone
        have hbefore := ih ((List.prefix_append done [a]).trans hdone)
        exact hkeep done a hbefore (hexact done a hbefore (hall _ hdone))
    intro done a hdone
    exact hexact done a (hinv done ((List.prefix_append done [a]).trans hdone)) (hall _ hdone)
  · intro hsafe done hdone
    apply hright
    induction done using List.reverseRecOn with
    | nil => exact hstart
    | append_singleton done a ih =>
      exact hkeep done a (ih ((List.prefix_append done [a]).trans hdone)) (hsafe done a hdone)

end Arm2x86.Stepping
