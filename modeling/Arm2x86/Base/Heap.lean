import Mathlib.Algebra.Group.Nat.Defs
import Mathlib.Data.List.Perm.Subperm
import Std.Data.ExtTreeMap

/-!
# Heap objects and counted loops

Support for C data structures: a heap of objects of one type addressed by pointers, where an
access through a pointer that is not allocated has no value, and the C `for` loop over an
ascending range of indices. Pointers are nonzero machine words; the null pointer is the
`none` of `Option Ptr`.
-/

namespace Arm2x86

/-- The address of a heap object. -/
abbrev Ptr := Nat

/-- Allocated objects by address. -/
abbrev Heap (α : Type) := Std.ExtTreeMap Ptr α

namespace Heap

variable {α : Type}

/-- Write through a pointer; there is no result when it is not allocated. -/
def update (h : Heap α) (p : Ptr) (f : α → α) : Option (Heap α) :=
  h[p]?.map fun a ↦ h.insert p (f a)

/-- An address that the allocator may return: a nonzero 64-bit word that is not in use. -/
def Fresh (h : Heap α) (p : Ptr) : Prop := 0 < p ∧ p < 2 ^ 64 ∧ h[p]? = none

instance (h : Heap α) (p : Ptr) : Decidable (Fresh h p) :=
  have : Decidable (h[p]? = none) := decidable_of_iff (h[p]?.isNone) Option.isNone_iff_eq_none
  inferInstanceAs (Decidable (_ ∧ _ ∧ _))

/-- A `calloc` whose results are unused addresses; it may also fail. -/
structure Allocator (α : Type) where
  calloc : Heap α → Option Ptr
  fresh : ∀ h p, calloc h = some p → Fresh h p

/-- The allocator that hands out one address as long as it is unused. -/
def Allocator.at (α : Type) (p : Ptr) : Allocator α where
  calloc h := if Fresh h p then some p else none
  fresh h q hq := by
    split at hq
    · next hp => exact Option.some.inj hq ▸ hp
    · cases hq

theorem getElem?_insert (h : Heap α) (p q : Ptr) (a : α) :
    (h.insert p a)[q]? = if p = q then some a else h[q]? := by
  rw [Std.ExtTreeMap.getElem?_insert]
  simp

theorem getElem?_erase (h : Heap α) (p q : Ptr) :
    (h.erase p)[q]? = if p = q then none else h[q]? := by
  rw [Std.ExtTreeMap.getElem?_erase]
  simp

/-- Writing through an allocated pointer succeeds. -/
theorem update_eq_some {h : Heap α} {p : Ptr} {a : α} (hp : h[p]? = some a) (f : α → α) :
    update h p f = some (h.insert p (f a)) := by
  rw [update, hp, Option.map_some]

/-- Distinct allocated pointers are at most as many as the heap has objects. -/
theorem length_le_size {h : Heap α} {xs : List Ptr} (hd : xs.Nodup)
    (hx : ∀ x ∈ xs, h[x]?.isSome) : xs.length ≤ h.size := by
  have hsub : xs.Subset h.keys := fun x hm ↦ by
    have := hx x hm
    rw [Std.ExtTreeMap.isSome_getElem?_iff_mem] at this
    exact Std.ExtTreeMap.mem_keys.mpr this
  rw [← Std.ExtTreeMap.length_keys]
  exact (List.Nodup.subperm hd hsub).length_le

end Heap

/-- The C loop `for (i = 0; i < n; i++)` with a body that may fail. -/
def forRange {σ : Type} (body : Nat → σ → Option σ) : Nat → σ → Option σ
  | 0, s => some s
  | n + 1, s => (forRange body n s).bind (body n)

/-- A loop whose body takes the invariant of its index to that of the next one ends in the
invariant of the bound. -/
theorem forRange_invariant {σ : Type} {body : Nat → σ → Option σ} {n : Nat} {s : σ}
    (Inv : Nat → σ → Prop) (h0 : Inv 0 s)
    (hstep : ∀ i < n, ∀ t, Inv i t → ∃ u, body i t = some u ∧ Inv (i + 1) u) :
    ∃ t, forRange body n s = some t ∧ Inv n t := by
  induction n with
  | zero => exact ⟨s, rfl, h0⟩
  | succ n ih =>
    obtain ⟨t, ht, hinv⟩ := ih fun i hi ↦ hstep i (Nat.lt_succ_of_lt hi)
    obtain ⟨u, hu, hinv'⟩ := hstep n (Nat.lt_succ_self n) t hinv
    exact ⟨u, by rw [forRange, ht, Option.bind_some, hu], hinv'⟩

end Arm2x86
