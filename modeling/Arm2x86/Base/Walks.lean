import Mathlib.Data.Finset.Card
import Mathlib.Logic.Function.Iterate
import Mathlib.Data.Nat.Find

/-!
# Following links

From a place the next one, up to one to stop at. Where only finitely many places are not to be stopped
at, a walk stops within as many steps as there are such places, or it never does.
-/

namespace Arm2x86.Walks

variable {α : Type} (next : α → α) (stop : α → Bool)

/-- The places on the way, and the one that is stopped at. -/
def follow : Nat → α → Option (List α × α)
  | 0, _ => none
  | fuel + 1, a =>
    if stop a then some ([], a) else (follow fuel (next a)).map fun (as, e) ↦ (a :: as, e)

variable {next stop} {a e : α} {as : List α} {fuel k : Nat}

theorem follow_of_stop (h : stop a = true) : follow next stop (fuel + 1) a = some ([], a) := if_pos h

theorem follow_of_go (h : stop a = false) :
    follow next stop (fuel + 1) a = (follow next stop fuel (next a)).map fun (as, e) ↦ (a :: as, e) := by
  rw [follow, h]
  rfl

/-- Where a walk ends, and what it goes through. -/
theorem follow_spec (h : follow next stop fuel a = some (as, e)) :
    e = next^[as.length] a ∧ stop e = true ∧ ∀ b ∈ as, stop b = false := by
  induction fuel generalizing a as with
  | zero => cases h
  | succ fuel ih =>
    cases hstop : stop a with
    | true =>
      rw [follow_of_stop hstop] at h
      cases h
      exact ⟨rfl, hstop, fun b hb ↦ absurd hb List.not_mem_nil⟩
    | false =>
      rw [follow_of_go hstop] at h
      obtain ⟨⟨bs, e'⟩, hrest, h⟩ := Option.map_eq_some_iff.mp h
      cases h
      obtain ⟨hend, hlast, hway⟩ := ih hrest
      exact ⟨hend, hlast, List.forall_mem_cons.mpr ⟨hstop, hway⟩⟩

theorem follow_of_iterate (h : stop (next^[k] a) = true) : ∃ as e, follow next stop (k + 1) a = some (as, e) := by
  induction k generalizing a with
  | zero => exact ⟨[], a, follow_of_stop h⟩
  | succ k ih =>
    cases hstop : stop a with
    | true => exact ⟨[], a, follow_of_stop hstop⟩
    | false =>
      obtain ⟨as, e, hrest⟩ := ih h
      refine ⟨a :: as, e, ?_⟩
      rw [follow_of_go hstop, hrest]
      rfl

/-- More fuel does not change a walk that ends. -/
theorem follow_mono {fuel' : Nat} (hle : fuel ≤ fuel') (h : follow next stop fuel a = some (as, e)) :
    follow next stop fuel' a = some (as, e) := by
  induction fuel generalizing a as e fuel' with
  | zero => cases h
  | succ fuel ih =>
    obtain ⟨fuel', rfl⟩ := Nat.exists_eq_succ_of_ne_zero (Nat.ne_of_gt (Nat.lt_of_lt_of_le (Nat.succ_pos _) hle))
    cases hstop : stop a with
    | true =>
      rw [follow_of_stop hstop] at h
      rw [Nat.succ_eq_add_one, follow_of_stop hstop, h]
    | false =>
      rw [follow_of_go hstop] at h
      obtain ⟨⟨bs, e'⟩, hrest, h⟩ := Option.map_eq_some_iff.mp h
      rw [Nat.succ_eq_add_one, follow_of_go hstop, ih (Nat.le_of_succ_le_succ hle) hrest, ← h]
      rfl

/-- A walk ends if and only if a place to stop at is linked. -/
theorem exists_follow_iff :
    (∃ fuel as e, follow next stop fuel a = some (as, e)) ↔ ∃ k, stop (next^[k] a) = true := by
  constructor
  · rintro ⟨fuel, as, e, h⟩
    obtain ⟨hend, hlast, -⟩ := follow_spec h
    exact ⟨as.length, hend ▸ hlast⟩
  · rintro ⟨k, hk⟩
    obtain ⟨as, e, h⟩ := follow_of_iterate hk
    exact ⟨k + 1, as, e, h⟩

/-- It is linked within as many steps as there are places that are gone through, as these do not repeat. -/
theorem exists_le_card {s : Finset α} (hs : ∀ b, stop b = false → b ∈ s)
    (h : ∃ k, stop (next^[k] a) = true) : ∃ k ≤ s.card, stop (next^[k] a) = true := by
  classical
  obtain ⟨k, hk, hleast⟩ : ∃ k, stop (next^[k] a) = true ∧ ∀ j < k, stop (next^[j] a) = false := by
    refine ⟨Nat.find h, Nat.find_spec h, fun j hj ↦ ?_⟩
    exact Bool.eq_false_iff.mpr (Nat.find_min h hj)
  refine ⟨k, ?_, hk⟩
  have hinj : Set.InjOn (fun j ↦ next^[j] a) (Finset.range k : Set Nat) := by
    intro i hi j hj hij
    by_contra hne
    -- from a place that is come to twice the walk does not get to its end
    have hrepeat : ∀ i j, i < j → j < k → next^[i] a = next^[j] a → False := by
      intro i j hlt hjk heq
      have hback : next^[k - (j - i)] a = next^[k] a := by
        have hi : k - (j - i) = (k - j) + i := by omega
        have hj : k = (k - j) + j := by omega
        rw [hi, Function.iterate_add_apply, heq, ← Function.iterate_add_apply, ← hj]
      have hbefore := hleast (k - (j - i)) (by omega)
      rw [hback, hk] at hbefore
      cases hbefore
    have hi := Finset.mem_range.mp (Finset.mem_coe.mp hi)
    have hj := Finset.mem_range.mp (Finset.mem_coe.mp hj)
    rcases Nat.lt_or_gt_of_ne hne with hlt | hgt
    · exact hrepeat i j hlt hj hij
    · exact hrepeat j i hgt hi hij.symm
  have hcard := Finset.card_le_card_of_injOn (fun j ↦ next^[j] a)
    (fun j hj ↦ hs _ (hleast j (Finset.mem_range.mp (Finset.mem_coe.mp hj)))) hinj
  rwa [Finset.card_range] at hcard

end Arm2x86.Walks
