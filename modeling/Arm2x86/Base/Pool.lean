import Mathlib.Data.List.Nodup
import Mathlib.Logic.Function.Basic
import Mathlib.Order.Lattice

/-!
# Exclusive assignment from a pool

Holders draw resources from a stack of free ones. Nothing is held by two holders, or held while
it is free. The second part is the scan that picks a victim: the first holder of least cost.
-/

namespace Arm2x86

section Exclusive

variable {ι ρ : Type*} {held : ι → Option ρ} {free : List ρ} {i : ι} {r : ρ}

/-- Every resource is held by at most one holder, and no held resource is free. The stack of
free resources is listed from its bottom. -/
structure Exclusive (held : ι → Option ρ) (free : List ρ) : Prop where
  nodup : free.Nodup
  disjoint : ∀ {i r}, held i = some r → r ∉ free
  unique : ∀ {i j r}, held i = some r → held j = some r → i = j

/-- Taking the top of the stack without giving it to anyone. -/
theorem Exclusive.pop (h : Exclusive held (free ++ [r])) : Exclusive held free where
  nodup := (List.nodup_append.mp h.nodup).1
  disjoint := fun hj hmem ↦ h.disjoint hj (List.mem_append_left _ hmem)
  unique := h.unique

variable [DecidableEq ι]

/-- Giving a resource that is neither held nor free to a holder. What the holder had before is
lost. -/
theorem Exclusive.claim (h : Exclusive held free) (hheld : ∀ j, held j ≠ some r)
    (hfree : r ∉ free) : Exclusive (Function.update held i (some r)) free where
  nodup := h.nodup
  disjoint := by
    intro j s hj
    by_cases hji : j = i
    · subst hji
      rw [Function.update_self, Option.some.injEq] at hj
      exact hj ▸ hfree
    · rw [Function.update_of_ne hji] at hj
      exact h.disjoint hj
  unique := by
    intro j k s hj hk
    by_cases hji : j = i <;> by_cases hki : k = i
    · rw [hji, hki]
    · subst hji
      rw [Function.update_self] at hj
      rw [Function.update_of_ne hki, ← hj] at hk
      exact absurd hk (hheld k)
    · subst hki
      rw [Function.update_self] at hk
      rw [Function.update_of_ne hji, ← hk] at hj
      exact absurd hj (hheld j)
    · rw [Function.update_of_ne hji] at hj
      rw [Function.update_of_ne hki] at hk
      exact h.unique hj hk

/-- Taking the top of the stack for a holder. -/
theorem Exclusive.take (h : Exclusive held (free ++ [r])) :
    Exclusive (Function.update held i (some r)) free := by
  refine h.pop.claim (fun j hj ↦ h.disjoint hj (by simp)) ?_
  exact (List.nodup_append_comm.mp h.nodup |> List.nodup_cons.mp).1

/-- Putting a holder's resource on the stack. -/
theorem Exclusive.release (h : Exclusive held free) (hi : held i = some r) :
    Exclusive (Function.update held i none) (free ++ [r]) where
  nodup := by
    rw [← List.concat_eq_append]
    exact h.nodup.concat (h.disjoint hi)
  disjoint := by
    intro j s hj
    by_cases hji : j = i
    · subst hji
      rw [Function.update_self] at hj
      exact absurd hj (by simp)
    · rw [Function.update_of_ne hji] at hj
      rw [List.mem_append, List.mem_singleton, not_or]
      refine ⟨h.disjoint hj, fun hs ↦ hji ?_⟩
      subst hs
      exact h.unique hj hi
  unique := by
    intro j k s hj hk
    by_cases hji : j = i
    · subst hji
      rw [Function.update_self] at hj
      exact absurd hj (by simp)
    · by_cases hki : k = i
      · subst hki
        rw [Function.update_self] at hk
        exact absurd hk (by simp)
      · rw [Function.update_of_ne hji] at hj
        rw [Function.update_of_ne hki] at hk
        exact h.unique hj hk

end Exclusive

section FirstMin

variable {α : Type*} (p : α → Bool) (cost : α → Nat)

/-- One step of the scan: a candidate that is strictly cheaper replaces the best so far. -/
def scanMin (best : Option α × Nat) (i : α) : Option α × Nat :=
  if p i && cost i < best.2 then (some i, cost i) else best

/-- The first of the cheapest candidates below a bound. -/
def firstMin (bound : Nat) (l : List α) : Option α × Nat := l.foldl (scanMin p cost) (none, bound)

variable {p cost}

/-- The scan keeps the best so far, or ends at the first cheapest candidate of the list. -/
theorem foldl_scanMin [LinearOrder α] {l : List α} (hl : l.Pairwise (· < ·))
    (best : Option α × Nat) :
    let r := l.foldl (scanMin p cost) best
    (∀ j ∈ l, p j → r.2 ≤ cost j) ∧ r.2 ≤ best.2 ∧
      (r = best ∨ ∃ i ∈ l, p i ∧ cost i < best.2 ∧ r = (some i, cost i) ∧
        ∀ j ∈ l, j < i → p j → cost i < cost j) := by
  induction l generalizing best with
  | nil => simp
  | cons k l ih =>
    rw [List.pairwise_cons] at hl
    obtain ⟨hk, hl⟩ := hl
    obtain ⟨hmin, hle, hr⟩ := ih hl (scanMin p cost best k)
    simp only [List.foldl_cons]
    by_cases hc : p k ∧ cost k < best.2
    · -- `k` is the best so far; a later element wins only if it is strictly cheaper
      have hs : scanMin p cost best k = (some k, cost k) := by
        unfold scanMin
        simp [hc]
      rw [hs] at hmin hle hr ⊢
      refine ⟨?_, Nat.le_trans hle (Nat.le_of_lt hc.2), Or.inr ?_⟩
      · intro j hj hpj
        rcases List.mem_cons.mp hj with rfl | hj
        · exact hle
        · exact hmin j hj hpj
      · rcases hr with hr | ⟨i, hi, hpi, hci, hr, hfirst⟩
        · refine ⟨k, List.mem_cons_self, hc.1, hc.2, hr, ?_⟩
          intro j hj hjk hpj
          rcases List.mem_cons.mp hj with rfl | hj
          · exact absurd hjk (lt_irrefl _)
          · exact absurd (hjk.trans (hk j hj)) (lt_irrefl _)
        · refine ⟨i, List.mem_cons_of_mem _ hi, hpi, Nat.lt_trans hci hc.2, hr, ?_⟩
          intro j hj hji hpj
          rcases List.mem_cons.mp hj with rfl | hj
          · exact hci
          · exact hfirst j hj hji hpj
    · have hs : scanMin p cost best k = best := by
        unfold scanMin
        rw [if_neg]
        simpa using hc
      rw [hs] at hmin hle hr ⊢
      refine ⟨?_, hle, ?_⟩
      · intro j hj hpj
        rcases List.mem_cons.mp hj with rfl | hj
        · exact Nat.le_trans hle (Nat.le_of_not_lt fun h ↦ hc ⟨hpj, h⟩)
        · exact hmin j hj hpj
      · rcases hr with hr | ⟨i, hi, hpi, hci, hr, hfirst⟩
        · exact Or.inl hr
        · refine Or.inr ⟨i, List.mem_cons_of_mem _ hi, hpi, hci, hr, ?_⟩
          intro j hj hji hpj
          rcases List.mem_cons.mp hj with rfl | hj
          · exact Nat.lt_of_lt_of_le hci (Nat.le_of_not_lt fun h ↦ hc ⟨hpj, h⟩)
          · exact hfirst j hj hji hpj

/-- A candidate below the bound makes the scan succeed, at the first cheapest one. -/
theorem firstMin_spec [LinearOrder α] {l : List α} (hl : l.Pairwise (· < ·)) {bound : Nat} {k : α}
    (hk : k ∈ l) (hpk : p k) (hck : cost k < bound) :
    ∃ i ∈ l, p i ∧ firstMin p cost bound l = (some i, cost i) ∧
      (∀ j ∈ l, p j → cost i ≤ cost j) ∧ ∀ j ∈ l, j < i → p j → cost i < cost j := by
  obtain ⟨hmin, -, hr⟩ := foldl_scanMin (p := p) hl (none, bound)
  rcases hr with hr | ⟨i, hi, hpi, -, hr, hfirst⟩
  · have := hmin k hk hpk
    rw [hr] at this
    exact absurd hck (Nat.not_lt.mpr this)
  · refine ⟨i, hi, hpi, hr, ?_, hfirst⟩
    intro j hj hpj
    have := hmin j hj hpj
    rwa [hr] at this

end FirstMin

end Arm2x86
