import Mathlib.Data.List.Nodup

/-!
# Histories

A history is a list of actions, the latest one last. Whether an action is of some kind may depend on
those before it. A table that is filled in the order of the history has the first different keys.
-/

namespace Arm2x86.History

variable {α : Type} {K : List α → α → Prop} {h : List α} {i j : Nat} {a b : α}

/-- The last action of a kind, with its place in the history. -/
structure LastAt (K : List α → α → Prop) (h : List α) (i : Nat) (a : α) : Prop where
  at_index : h[i]? = some a
  kind : K (h.take i) a
  after : ∀ j b, i < j → h[j]? = some b → ¬ K (h.take j) b

theorem LastAt.lt_length (hl : LastAt K h i a) : i < h.length :=
  (List.getElem?_eq_some_iff.mp hl.at_index).1

theorem lastAt_concat (ha : K h a) : LastAt K (h ++ [a]) h.length a := by
  refine ⟨by simp, by simpa using ha, ?_⟩
  intro j b hj hb
  have hlt := (List.getElem?_eq_some_iff.mp hb).1
  rw [List.length_append, List.length_singleton] at hlt
  omega

/-- An action of another kind leaves it the last one. -/
theorem LastAt.concat (hl : LastAt K h i a) (hb : ¬ K h b) : LastAt K (h ++ [b]) i a := by
  have hi := hl.lt_length
  have hbefore : ∀ j, j ≤ h.length → (h ++ [b]).take j = h.take j := fun j hj ↦
    List.take_append_of_le_length hj
  refine ⟨?_, ?_, ?_⟩
  · rw [List.getElem?_append_left hi]
    exact hl.at_index
  · rw [hbefore i (Nat.le_of_lt hi)]
    exact hl.kind
  · intro j c hj hc
    have hlt := (List.getElem?_eq_some_iff.mp hc).1
    rw [List.length_append, List.length_singleton] at hlt
    rw [hbefore j (by omega)]
    by_cases hjl : j < h.length
    · rw [List.getElem?_append_left hjl] at hc
      exact hl.after j c hj hc
    · obtain rfl : j = h.length := by omega
      rw [List.getElem?_concat_length, Option.some_inj] at hc
      rw [List.take_length, ← hc]
      exact hb

/-- Where earlier actions are related to later ones, those that are not related the other way round are
in their order. -/
theorem index_lt_of_not {R : α → α → Prop} (hp : h.Pairwise R) (ha : h[i]? = some a) (hb : h[j]? = some b)
    (hnot : ¬ R b a) (hne : i ≠ j) : i < j := by
  by_contra hge
  obtain ⟨hi, rfl⟩ := List.getElem?_eq_some_iff.mp ha
  obtain ⟨hj, rfl⟩ := List.getElem?_eq_some_iff.mp hb
  exact hnot (List.pairwise_iff_getElem.mp hp j i hj hi (by omega))

/-! ## The first keys of a history -/

section Firsts

variable [DecidableEq α] {n : Nat} {xs : List α} {x : α}

/-- The first `n` different items, in the order in which they first came. -/
def firsts (n : Nat) (xs : List α) : List α := xs.eraseDups.take n

theorem nodup_firsts (n : Nat) (xs : List α) : (firsts n xs).Nodup := by
  unfold firsts
  apply List.Nodup.sublist (List.take_sublist n _)
  induction hlength : xs.length using Nat.strongRecOn generalizing xs with
  | _ k ih =>
    cases xs with
    | nil => exact List.nodup_nil
    | cons x xs =>
      have hle := List.length_filter_le (fun b ↦ !b == x) xs
      rw [List.length_cons] at hlength
      rw [List.eraseDups_cons, List.nodup_cons]
      exact ⟨by simp, ih _ (by omega) _ rfl⟩

theorem mem_of_mem_firsts (h : x ∈ firsts n xs) : x ∈ xs :=
  List.mem_eraseDups.mp (List.mem_of_mem_take h)

theorem eraseDups_concat (xs : List α) (x : α) :
    (xs ++ [x]).eraseDups = if x ∈ xs then xs.eraseDups else xs.eraseDups ++ [x] := by
  rw [List.eraseDups_append]
  by_cases hx : x ∈ xs <;> simp [List.removeAll, hx, List.eraseDups_cons]

/-- An item is one of the first when there is room for it. -/
theorem firsts_concat (n : Nat) (xs : List α) (x : α) : firsts n (xs ++ [x]) =
    if x ∈ firsts n xs ∨ n ≤ (firsts n xs).length then firsts n xs else firsts n xs ++ [x] := by
  have hmem : x ∈ xs ↔ x ∈ xs.eraseDups := List.mem_eraseDups.symm
  unfold firsts
  rw [eraseDups_concat, List.length_take]
  by_cases hfull : n ≤ xs.eraseDups.length
  · rw [if_pos (Or.inr (by omega))]
    split
    · rfl
    · exact List.take_append_of_le_length hfull
  · have hall : xs.eraseDups.take n = xs.eraseDups := List.take_of_length_le (by omega)
    rw [hall]
    by_cases hx : x ∈ xs
    · rw [if_pos hx, if_pos (Or.inl (hmem.mp hx)), hall]
    · rw [if_neg hx, if_neg (by rintro (h | h); exacts [hx (hmem.mpr h), by omega])]
      exact List.take_of_length_le (by rw [List.length_append, List.length_singleton]; omega)

end Firsts

/-- An item at one place of a list without repetitions is changed. -/
theorem map_modify {β : Type} {xs : List α} {f f' : α → β} {g : β → β} {i : Nat} {x : α}
    (hnodup : xs.Nodup) (hx : xs[i]? = some x) (hat : f' x = g (f x)) (hother : ∀ y, y ≠ x → f' y = f y) :
    (xs.map f).modify i g = xs.map f' := by
  obtain ⟨hi, rfl⟩ := List.getElem?_eq_some_iff.mp hx
  apply List.ext_getElem
  · simp
  · intro j hj hj'
    rw [List.length_map] at hj'
    rw [List.getElem_modify, List.getElem_map, List.getElem_map]
    split
    · next heq =>
      subst heq
      exact hat.symm
    · next hne =>
      exact (hother _ fun heq ↦ hne ((hnodup.getElem_inj_iff).mp heq).symm).symm

end Arm2x86.History
