import Mathlib.Data.List.Infix
import Mathlib.Data.List.Nodup

/-!
# Recency lists

The order of a least-recently-used cache as a list, most recent first. A use moves an item to
the front; making room drops the shortest suffix after which the rest fits, for any test of
fitting, and everything when no prefix fits.
-/

namespace Arm2x86.Lru

variable {α β K : Type}

/-- The longest prefix that fits, or nothing when none does. -/
def survivors (fits : List α → Bool) (xs : List α) : List α :=
  (xs.inits.reverse.find? fits).getD []

/-- The suffix that is dropped to keep the longest prefix that fits. -/
def victims (fits : List α → Bool) (xs : List α) : List α :=
  xs.drop (survivors fits xs).length

/-- The use of a key: its item, when there is one, becomes the first. -/
def touch [DecidableEq K] (key : α → K) (k : K) (xs : List α) : List α :=
  match xs.find? fun x ↦ key x = k with
  | none => xs
  | some x => x :: xs.filter fun y ↦ key y ≠ k

variable {fits : List α → Bool} {xs ys : List α} {x : α}

@[simp] theorem survivors_nil : survivors fits [] = [] := by
  cases h : fits [] <;> simp [survivors, h]

/-- Keeping the last item is tried first. -/
theorem survivors_concat :
    survivors fits (xs ++ [x]) = if fits (xs ++ [x]) then xs ++ [x] else survivors fits xs := by
  have hinits : (xs ++ [x]).inits.reverse = (xs ++ [x]) :: xs.inits.reverse := by
    rw [List.inits_append]
    simp
  rw [survivors, hinits, List.find?_cons]
  cases fits (xs ++ [x]) <;> simp [survivors]

theorem survivors_of_fits (h : fits xs) : survivors fits xs = xs := by
  rcases List.eq_nil_or_concat' xs with rfl | ⟨ys, y, rfl⟩
  · exact survivors_nil
  · rw [survivors_concat, if_pos h]

theorem survivors_prefix : survivors fits xs <+: xs := by
  induction xs using List.reverseRecOn with
  | nil => simp
  | append_singleton xs x ih =>
    rw [survivors_concat]
    split
    · exact List.prefix_rfl
    · exact ih.trans (List.prefix_append xs [x])

/-- The order splits into what is kept and what is dropped. -/
theorem survivors_append_victims (fits : List α → Bool) (xs : List α) :
    survivors fits xs ++ victims fits xs = xs := by
  rw [victims, ← List.prefix_iff_eq_append]
  exact survivors_prefix

/-- What is kept fits, unless everything had to go. -/
theorem fits_survivors_or_nil : fits (survivors fits xs) = true ∨ survivors fits xs = [] := by
  induction xs using List.reverseRecOn with
  | nil => simp
  | append_singleton xs x ih =>
    rw [survivors_concat]
    split
    · next h => exact .inl h
    · exact ih

/-- No longer prefix fits: the dropped suffix is the shortest. -/
theorem not_fits_of_survivors_lt (hy : ys <+: xs) (hlt : (survivors fits xs).length < ys.length) :
    fits ys = false := by
  induction xs using List.reverseRecOn with
  | nil =>
    obtain rfl : ys = [] := List.prefix_nil.mp hy
    simp at hlt
  | append_singleton xs x ih =>
    rw [survivors_concat] at hlt
    split at hlt
    · exact absurd hy.length_le (by omega)
    · next h =>
      rcases List.prefix_concat_iff.mp hy with rfl | hy'
      · simpa using h
      · exact ih hy' hlt

/-- With distinct keys a use takes the item out of its place and puts it in front. -/
theorem touch_split [DecidableEq K] {key : α → K} (hd : ((xs ++ x :: ys).map key).Nodup) :
    touch key (key x) (xs ++ x :: ys) = x :: (xs ++ ys) := by
  rw [List.map_append, List.map_cons] at hd
  have hx := (List.nodup_cons.mp (List.nodup_middle.mp hd)).1
  simp only [List.mem_append, List.mem_map, not_or, not_exists, not_and] at hx
  have hfind : (xs ++ x :: ys).find? (fun y ↦ key y = key x) = some x := by
    rw [List.find?_append, List.find?_eq_none.mpr fun y hy ↦ by simpa using hx.1 y hy]
    simp
  have hkeep : ∀ zs : List α, (∀ z ∈ zs, key z ≠ key x) →
      zs.filter (fun y ↦ key y ≠ key x) = zs := fun zs hz ↦
    List.filter_eq_self.mpr fun z hm ↦ by simpa using hz z hm
  rw [touch, hfind]
  simp only [List.filter_append]
  rw [hkeep xs hx.1, List.filter_cons_of_neg (by simp), hkeep ys hx.2]

theorem touch_of_absent [DecidableEq K] {key : α → K} {k : K} (h : ∀ y ∈ xs, key y ≠ k) :
    touch key k xs = xs := by
  rw [touch, List.find?_eq_none.mpr fun y hy ↦ by simpa using h y hy]

end Arm2x86.Lru
