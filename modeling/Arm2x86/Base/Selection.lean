import Mathlib.Data.List.FinRange
import Mathlib.Order.Defs.LinearOrder

/-!
# Selecting by a key

The loop that goes through some places and keeps the first of those with the greatest key, and the
sort that puts what is selected from the places left in front of them. What lists the greatest items
of a collection is said apart.
-/

namespace Arm2x86.Selection

variable {ι α : Type} [LinearOrder α] (key : ι → α)

/-- The first of the greatest: another place is taken only when its key is greater. -/
def greatest (m : ι) (is : List ι) : ι := is.foldl (fun m i ↦ if key m < key i then i else m) m

/-- A turn of the sort: the greatest from a place on is swapped to it. -/
def selectAt {n : Nat} (xs : Vector ι n) (i : Fin n) : Vector ι n :=
  let m := greatest (fun j : Fin n ↦ key xs[j]) i ((List.finRange n).filter (i < ·))
  if m ≠ i then xs.swap i m else xs

/-- The sort, greatest keys first. -/
def selectionSort {n : Nat} (xs : Vector ι n) : Vector ι n :=
  (List.finRange n).foldl (selectAt key) xs

/-- A list of some greatest items, as many as are asked for if there are so many, greatest first. -/
structure Top (k : Nat) (xs top : List ι) : Prop where
  sorted : top.Pairwise fun x y ↦ key y ≤ key x
  length : top.length = min k xs.length
  others : ∃ rest, (top ++ rest).Perm xs ∧ ∀ x ∈ top, ∀ y ∈ rest, key y ≤ key x

section Greatest

variable {key} {m : ι} {is : List ι}

/-- All keys in front of the selected place are less, and none behind it is greater. -/
theorem greatest_split (key : ι → α) (m : ι) (is : List ι) :
    ∃ front back, m :: is = front ++ greatest key m is :: back ∧
      (∀ i ∈ front, key i < key (greatest key m is)) ∧
      ∀ i ∈ back, key i ≤ key (greatest key m is) := by
  induction is generalizing m with
  | nil => exact ⟨[], [], rfl, by simp, by simp⟩
  | cons i is ih =>
    by_cases hless : key m < key i
    · have hstep : greatest key m (i :: is) = greatest key i is := by
        rw [greatest, List.foldl_cons, if_pos hless]
        rfl
      obtain ⟨front, back, hsplit, hfront, hback⟩ := ih i
      have hi : key i ≤ key (greatest key i is) := by
        have hmem : i ∈ front ++ greatest key i is :: back := hsplit ▸ List.mem_cons_self
        rcases List.mem_append.mp hmem with hmem | hmem
        · exact le_of_lt (hfront i hmem)
        · rcases List.mem_cons.mp hmem with heq | hmem
          · exact le_of_eq (congrArg key heq)
          · exact hback i hmem
      rw [hstep]
      refine ⟨m :: front, back, by rw [hsplit, List.cons_append], ?_, hback⟩
      rw [List.forall_mem_cons]
      exact ⟨lt_of_lt_of_le hless hi, hfront⟩
    · have hstep : greatest key m (i :: is) = greatest key m is := by
        rw [greatest, List.foldl_cons, if_neg hless]
        rfl
      rw [not_lt] at hless
      obtain ⟨front, back, hsplit, hfront, hback⟩ := ih m
      rw [hstep]
      cases front with
      | nil =>
        rw [List.nil_append, List.cons.injEq] at hsplit
        refine ⟨[], i :: is, by rw [List.nil_append, ← hsplit.1], by simp, ?_⟩
        rw [List.forall_mem_cons, ← hsplit.1, hsplit.2]
        rw [← hsplit.1] at hback
        exact ⟨hless, hback⟩
      | cons n front =>
        rw [List.cons_append, List.cons.injEq] at hsplit
        rw [← hsplit.1, List.forall_mem_cons] at hfront
        refine ⟨m :: i :: front, back, by rw [List.cons_append, List.cons_append, ← hsplit.2], ?_,
          hback⟩
        rw [List.forall_mem_cons, List.forall_mem_cons]
        exact ⟨hfront.1, lt_of_le_of_lt hless hfront.1, hfront.2⟩

theorem greatest_mem (m : ι) (is : List ι) : greatest key m is ∈ m :: is := by
  obtain ⟨front, back, hsplit, -, -⟩ := greatest_split key m is
  rw [hsplit]
  exact List.mem_append_right front List.mem_cons_self

/-- Nothing is greater than what is selected. -/
theorem le_greatest (key : ι → α) {i : ι} (h : i ∈ m :: is) : key i ≤ key (greatest key m is) := by
  obtain ⟨front, back, hsplit, hfront, hback⟩ := greatest_split key m is
  rw [hsplit] at h
  rcases List.mem_append.mp h with h | h
  · exact le_of_lt (hfront i h)
  · rcases List.mem_cons.mp h with rfl | h
    · exact le_rfl
    · exact hback i h

/-- Of two places with the greatest key the first is selected. -/
theorem greatest_le [LinearOrder ι] (hsorted : (m :: is).Pairwise (· ≤ ·)) {i : ι}
    (h : i ∈ m :: is) (hi : key (greatest key m is) ≤ key i) : greatest key m is ≤ i := by
  obtain ⟨front, back, hsplit, hfront, -⟩ := greatest_split key m is
  rw [hsplit] at h hsorted
  rcases List.mem_append.mp h with h | h
  · exact absurd (hfront i h) (not_lt_of_ge hi)
  · rcases List.mem_cons.mp h with rfl | h
    · exact le_rfl
    · exact List.rel_of_pairwise_cons (List.pairwise_append.mp hsorted).2.1 h

end Greatest

section Sorting

variable {n : Nat}

theorem selectAt_perm (xs : Vector ι n) (i : Fin n) :
    (selectAt key xs i).toList.Perm xs.toList := by
  unfold selectAt
  dsimp only
  split
  · exact Vector.Perm.toList (Vector.swap_perm _ _)
  · exact List.Perm.refl _

theorem selectionSort_perm (xs : Vector ι n) : (selectionSort key xs).toList.Perm xs.toList := by
  unfold selectionSort
  generalize List.finRange n = is
  induction is generalizing xs with
  | nil => exact List.Perm.refl _
  | cons i is ih => exact (ih _).trans (selectAt_perm key xs i)

/-- Only two places change, and the greatest of those from the first one on comes to it. -/
theorem getElem_selectAt (xs : Vector ι n) (i : Fin n) :
    ∃ m : Fin n, i ≤ m ∧ (∀ j : Fin n, i ≤ j → key xs[j] ≤ key xs[m]) ∧
      ∀ j : Fin n, (selectAt key xs i)[j] =
        if j = i then xs[m] else if j = m then xs[i] else xs[j] := by
  have hplaces (j : Fin n) : j ∈ i :: (List.finRange n).filter (i < ·) ↔ i ≤ j := by
    rw [List.mem_cons, List.mem_filter, decide_eq_true_eq, le_iff_eq_or_lt, eq_comm]
    simp
  let m := greatest (fun j : Fin n ↦ key xs[j]) i ((List.finRange n).filter (i < ·))
  have hmem : m ∈ i :: (List.finRange n).filter (i < ·) := greatest_mem _ _
  refine ⟨m, (hplaces m).mp hmem, ?_, ?_⟩
  · intro j hj
    exact le_greatest (fun j : Fin n ↦ key xs[j]) ((hplaces j).mpr hj)
  · intro j
    show (if m ≠ i then xs.swap i m else xs)[j] = _
    by_cases hm : m = i
    · rw [if_neg (not_not.mpr hm), hm]
      by_cases hj : j = i
      · rw [hj, if_pos rfl]
      · rw [if_neg hj, if_neg hj]
    · rw [if_pos hm]
      simp only [Fin.getElem_fin, Vector.getElem_swap, Fin.ext_iff]

/-- The places that were gone through have nothing greater behind them. -/
theorem foldl_selectAt_sorted (xs : Vector ι n) (done is : List (Fin n))
    (h : (done ++ is).Pairwise (· < ·))
    (hdone : ∀ i ∈ done, ∀ j : Fin n, i < j → key xs[j] ≤ key xs[i]) :
    ∀ i ∈ done ++ is, ∀ j : Fin n, i < j →
      key (is.foldl (selectAt key) xs)[j] ≤ key (is.foldl (selectAt key) xs)[i] := by
  induction is generalizing xs done with
  | nil => rwa [List.append_nil]
  | cons k is ih =>
    obtain ⟨m, hm, hgreatest, hget⟩ := getElem_selectAt key xs k
    have hbefore : ∀ i ∈ done, i < k := by
      intro i hi
      exact (List.pairwise_append.mp h).2.2 i hi k List.mem_cons_self
    rw [List.append_cons] at h ⊢
    apply ih _ _ h
    intro i hi j hij
    rw [List.mem_append, List.mem_singleton] at hi
    rw [hget, hget]
    rcases hi with hi | rfl
    · have hik := hbefore i hi
      rw [if_neg (ne_of_lt hik), if_neg (ne_of_lt (lt_of_lt_of_le hik hm))]
      split
      · exact hdone i hi m (lt_of_lt_of_le hik hm)
      · split
        · exact hdone i hi k hik
        · exact hdone i hi j hij
    · rw [if_pos rfl, if_neg (ne_of_gt hij)]
      split
      · exact hgreatest i le_rfl
      · exact hgreatest j (le_of_lt hij)

theorem selectionSort_sorted (xs : Vector ι n) :
    (selectionSort key xs).toList.Pairwise fun x y ↦ key y ≤ key x := by
  have hsorted := foldl_selectAt_sorted key xs [] (List.finRange n) (List.pairwise_lt_finRange n)
    (fun i hi ↦ absurd hi List.not_mem_nil)
  rw [List.pairwise_iff_getElem]
  intro i j hi hj hij
  rw [Vector.length_toList] at hi hj
  exact hsorted ⟨i, hi⟩ (List.mem_finRange _) ⟨j, hj⟩ hij

end Sorting

section Tops

variable {key} {k : Nat} {xs top : List ι}

theorem Top.congr {ys : List ι} (hperm : xs.Perm ys) : Top key k xs top ↔ Top key k ys top := by
  constructor
  · rintro ⟨hsorted, hlength, rest, hrest, hle⟩
    exact ⟨hsorted, hperm.length_eq ▸ hlength, rest, hrest.trans hperm, hle⟩
  · rintro ⟨hsorted, hlength, rest, hrest, hle⟩
    exact ⟨hsorted, hperm.length_eq ▸ hlength, rest, hrest.trans hperm.symm, hle⟩

/-- What lists the greatest items of a part of a collection, all of it in order, lists the greatest
of the whole, unless a greater one is left out or there are too few. -/
theorem top_iff {part rest : List ι} (hsorted : top.Pairwise fun x y ↦ key y ≤ key x)
    (hperm : top.Perm part) (hpart : part.length ≤ k) :
    Top key k (part ++ rest) top ↔
      rest = [] ∨ (part.length = k ∧ ∀ x ∈ part, ∀ y ∈ rest, key y ≤ key x) := by
  have hlength := hperm.length_eq
  constructor
  · intro h
    obtain ⟨others, hothers, hle⟩ := h.others
    have hrest : others.Perm rest :=
      (List.perm_append_left_iff part).mp ((hperm.symm.append_right others).trans hothers)
    have htake := h.length
    rw [List.length_append] at htake
    by_cases hk : part.length = k
    · refine .inr ⟨hk, fun x hx y hy ↦ ?_⟩
      exact hle x (hperm.mem_iff.mpr hx) y (hrest.mem_iff.mpr hy)
    · left
      apply List.eq_nil_of_length_eq_zero
      omega
  · intro h
    refine ⟨hsorted, ?_, rest, hperm.append_right rest, ?_⟩
    · rw [List.length_append]
      rcases h with rfl | ⟨hk, -⟩
      · rw [List.length_nil]
        omega
      · omega
    · intro x hx y hy
      rcases h with rfl | ⟨-, hle⟩
      · exact absurd hy List.not_mem_nil
      · exact hle x (hperm.mem_iff.mp hx) y hy

end Tops

end Arm2x86.Selection
