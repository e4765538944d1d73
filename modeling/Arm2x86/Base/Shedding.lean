import Mathlib.Algebra.BigOperators.Group.List.Basic
import Mathlib.Algebra.GroupWithZero.Nat
import Mathlib.Data.List.Infix

/-!
# Shedding a load

Items with sizes and a count of their total that is over a target: items go from the front until
the count has come down to it. What goes is the shortest prefix that is enough.
-/

namespace Arm2x86.Shedding

variable {α : Type*} (size : α → Nat)

/-- The size of some items together. -/
def load (xs : List α) : Nat := (xs.map size).sum

@[simp] theorem load_nil : load size [] = 0 := rfl

@[simp] theorem load_cons (x : α) (xs : List α) : load size (x :: xs) = size x + load size xs :=
  List.sum_cons

/-- The shortest prefix of `xs` whose removal takes the total to the target, all items if none
does. -/
structure Shed (target total : Nat) (xs gone : List α) : Prop where
  isPrefix : gone <+: xs
  enough : total ≤ target + load size gone ∨ gone = xs
  shortest : ∀ ys, ys <+: xs → ys.length < gone.length → target + load size ys < total

/-- What a loop removes that keeps the count with its own subtraction. -/
def shed (sub : Nat → Nat → Nat) (target : Nat) : Nat → List α → List α
  | _, [] => []
  | total, x :: xs =>
    if target < total then x :: shed sub target (sub total (size x)) xs else []

variable {size}

theorem shed_of_le {sub : Nat → Nat → Nat} {target total : Nat} (h : total ≤ target)
    (xs : List α) : shed size sub target total xs = [] := by
  cases xs with
  | nil => rfl
  | cons x xs => exact if_neg (Nat.not_lt.mpr h)

theorem shed_cons_of_lt {sub : Nat → Nat → Nat} {target total : Nat} (h : target < total) (x : α)
    (xs : List α) :
    shed size sub target total (x :: xs) = x :: shed size sub target (sub total (size x)) xs :=
  if_pos h

theorem shed_isPrefix (sub : Nat → Nat → Nat) (target total : Nat) (xs : List α) :
    shed size sub target total xs <+: xs := by
  induction xs generalizing total with
  | nil => exact List.prefix_rfl
  | cons x xs ih =>
    by_cases h : target < total
    · rw [shed_cons_of_lt h]
      exact List.prefix_cons_inj x |>.mpr (ih _)
    · rw [shed_of_le (Nat.not_lt.mp h)]
      exact List.nil_prefix

/-- With exact counts the loop removes the shortest prefix that is enough. -/
theorem shed_spec (target total : Nat) (xs : List α) :
    Shed size target total xs (shed size (· - ·) target total xs) := by
  induction xs generalizing total with
  | nil =>
    refine ⟨List.prefix_rfl, .inr rfl, fun ys _ hlen ↦ ?_⟩
    exact absurd hlen (Nat.not_lt_zero _)
  | cons x xs ih =>
    by_cases h : target < total
    · rw [shed_cons_of_lt h]
      obtain ⟨hfront, henough, hshortest⟩ := ih (total - size x)
      refine ⟨List.prefix_cons_inj x |>.mpr hfront, ?_, ?_⟩
      · rcases henough with hle | hall
        · left
          rw [load_cons]
          omega
        · exact .inr (congrArg _ hall)
      · intro ys hys hlen
        cases ys with
        | nil => exact h
        | cons y ys =>
          obtain ⟨rfl, hrest⟩ := List.cons_prefix_cons.mp hys
          have hlt := hshortest ys hrest (Nat.lt_of_succ_lt_succ hlen)
          rw [load_cons]
          omega
    · rw [shed_of_le (Nat.not_lt.mp h)]
      refine ⟨List.nil_prefix, .inl (by simp; omega), fun ys _ hlen ↦ ?_⟩
      exact absurd hlen (Nat.not_lt_zero _)

/-- There is only one such prefix. -/
theorem Shed.unique {target total : Nat} {xs gone gone' : List α}
    (h : Shed size target total xs gone) (h' : Shed size target total xs gone') :
    gone = gone' := by
  have hle : ∀ {p q : List α}, Shed size target total xs p → Shed size target total xs q →
      p.length ≤ q.length := by
    intro p q hp hq
    by_contra hlt
    have hmore := hp.shortest q hq.isPrefix (by omega)
    rcases hq.enough with henough | rfl
    · omega
    · exact hlt hp.isPrefix.length_le
  apply List.IsPrefix.eq_of_length (List.prefix_of_prefix_length_le h.isPrefix h'.isPrefix _)
  · exact Nat.le_antisymm (hle h h') (hle h' h)
  · exact hle h h'

theorem shed_iff {target total : Nat} {xs gone : List α} :
    Shed size target total xs gone ↔ gone = shed size (· - ·) target total xs := by
  constructor
  · exact fun h ↦ h.unique (shed_spec target total xs)
  · rintro rfl
    exact shed_spec target total xs

/-- Items that stay in any case do not matter if none of them would have gone. -/
theorem shed_filter (sub : Nat → Nat → Nat) (target total : Nat) (p : α → Bool) (xs : List α)
    (h : ∀ x ∈ shed size sub target total xs, p x = true) :
    shed size sub target total (xs.filter p) = shed size sub target total xs := by
  induction xs generalizing total with
  | nil => rfl
  | cons x xs ih =>
    by_cases hlt : target < total
    · rw [shed_cons_of_lt hlt] at h ⊢
      rw [List.filter_cons_of_pos (h x List.mem_cons_self), shed_cons_of_lt hlt]
      apply congrArg
      exact ih _ fun y hy ↦ h y (List.mem_cons_of_mem x hy)
    · rw [shed_of_le (Nat.not_lt.mp hlt), shed_of_le (Nat.not_lt.mp hlt)]

/-- A subtraction that is exact without borrow removes the same items as long as the items that
go do not exceed the count. -/
theorem shed_congr {sub : Nat → Nat → Nat} {target total : Nat} {xs : List α}
    (hsub : ∀ a ≤ total, ∀ b ≤ a, sub a b = a - b)
    (hfits : load size (shed size sub target total xs) ≤ total ∨
      load size (shed size (· - ·) target total xs) ≤ total) :
    shed size sub target total xs = shed size (· - ·) target total xs := by
  induction xs generalizing total with
  | nil => rfl
  | cons x xs ih =>
    by_cases hlt : target < total
    · rw [shed_cons_of_lt hlt, shed_cons_of_lt hlt, load_cons, load_cons] at hfits
      have hx : size x ≤ total := by omega
      rw [hsub total (Nat.le_refl _) _ hx] at hfits
      rw [shed_cons_of_lt hlt, shed_cons_of_lt hlt, hsub total (Nat.le_refl _) _ hx]
      apply congrArg
      apply ih
      · exact fun a ha ↦ hsub a (by omega)
      · omega
    · rw [shed_of_le (Nat.not_lt.mp hlt), shed_of_le (Nat.not_lt.mp hlt)]

/-- The count left by such a subtraction. -/
theorem foldl_sub {sub : Nat → Nat → Nat} {total : Nat} {xs : List α}
    (hsub : ∀ a ≤ total, ∀ b ≤ a, sub a b = a - b) (hfits : load size xs ≤ total) :
    xs.foldl (fun t x ↦ sub t (size x)) total = total - load size xs := by
  induction xs generalizing total with
  | nil => rfl
  | cons x xs ih =>
    rw [load_cons] at hfits
    rw [List.foldl_cons, hsub total (Nat.le_refl _) _ (by omega), load_cons, ih]
    · omega
    · exact fun a ha ↦ hsub a (by omega)
    · omega

/-- Some of the items are no more than all. -/
theorem load_le_of_sublist {xs ys : List α} (h : xs.Sublist ys) : load size xs ≤ load size ys := by
  induction h with
  | slnil => exact Nat.le_refl _
  | cons x _ ih =>
    rw [load_cons]
    omega
  | cons_cons x _ ih =>
    rw [load_cons, load_cons]
    omega

theorem load_perm {xs ys : List α} (h : xs.Perm ys) : load size xs = load size ys :=
  (h.map size).sum_nat

end Arm2x86.Shedding
