import Mathlib.Algebra.GroupWithZero.Nat
import Mathlib.Algebra.Order.BigOperators.Group.List
import Mathlib.Order.Interval.Finset.Nat
import Mathlib.Data.List.Perm.Basic

/-!
# Bump allocation

Spans of a linear address space, and arenas that hand out such spans from their front. As long as
the arenas lie apart, so do all spans that have ever been handed out.
-/

namespace Arm2x86

/-- Addresses in a row. -/
structure Span where
  start : Nat
  len : Nat
deriving DecidableEq, Repr

namespace Span

/-- The addresses of a span. -/
def cells (s : Span) : Finset Nat := Finset.Ico s.start (s.start + s.len)

/-- Spans without a common address. -/
def Apart (s t : Span) : Prop := Disjoint s.cells t.cells

instance (s t : Span) : Decidable (s.Apart t) := inferInstanceAs (Decidable (Disjoint _ _))

variable {s t u : Span}

@[simp] theorem card_cells (s : Span) : s.cells.card = s.len := by
  rw [cells, Nat.card_Ico, Nat.add_sub_cancel_left]

theorem mem_cells {a : Nat} : a ∈ s.cells ↔ s.start ≤ a ∧ a < s.start + s.len := Finset.mem_Ico

theorem Apart.symm (h : s.Apart t) : t.Apart s := Disjoint.symm h

theorem Apart.mono (h : s.Apart t) (hsub : u.cells ⊆ t.cells) : s.Apart u :=
  Finset.disjoint_of_subset_right hsub h

/-- A span that starts behind another. -/
theorem apart_of_le (h : s.start + s.len ≤ t.start) : s.Apart t := by
  apply Finset.disjoint_left.mpr
  intro a hs ht
  rw [mem_cells] at hs ht
  omega

theorem cells_subset (hstart : t.start ≤ s.start) (hend : s.start + s.len ≤ t.start + t.len) :
    s.cells ⊆ t.cells := Finset.Ico_subset_Ico hstart hend

/-- Spans that lie apart have no more addresses together than there are. -/
theorem sum_len_le {spans : List Span} {bound : Nat} (hapart : spans.Pairwise Apart)
    (hbound : ∀ s ∈ spans, s.start + s.len ≤ bound) : (spans.map len).sum ≤ bound := by
  -- the addresses of all spans, counted by induction, are among the first `bound` ones
  have hunion : ∃ all : Finset Nat, all.card = (spans.map len).sum ∧
      ∀ a, a ∈ all ↔ ∃ s ∈ spans, a ∈ s.cells := by
    clear hbound
    induction spans with
    | nil => exact ⟨∅, rfl, by simp⟩
    | cons s spans ih =>
      obtain ⟨hs, hrest⟩ := List.pairwise_cons.mp hapart
      obtain ⟨all, hcard, hall⟩ := ih hrest
      have hdisj : Disjoint s.cells all := by
        apply Finset.disjoint_left.mpr
        intro a ha hmem
        obtain ⟨t, ht, hat⟩ := (hall a).mp hmem
        exact Finset.disjoint_left.mp (hs t ht) ha hat
      refine ⟨s.cells ∪ all, ?_, ?_⟩
      · rw [Finset.card_union_of_disjoint hdisj, hcard, card_cells, List.map_cons, List.sum_cons]
      · intro a
        simp [hall]
  obtain ⟨all, hcard, hall⟩ := hunion
  have hsub : all ⊆ Finset.range bound := by
    intro a ha
    obtain ⟨s, hs, hmem⟩ := (hall a).mp ha
    rw [mem_cells] at hmem
    have hend := hbound s hs
    rw [Finset.mem_range]
    omega
  calc (spans.map len).sum = all.card := hcard.symm
    _ ≤ (Finset.range bound).card := Finset.card_le_card hsub
    _ = bound := Finset.card_range bound

end Span

/-- Memory that is handed out from its front. -/
structure Arena where
  base : Nat
  size : Nat
  used : Nat
deriving DecidableEq, Repr

namespace Arena

/-- All of an arena. -/
def span (a : Arena) : Span := ⟨a.base, a.size⟩

/-- What has been handed out. -/
def taken (a : Arena) : Span := ⟨a.base, a.used⟩

/-- The next span of some length. -/
def next (a : Arena) (n : Nat) : Span := ⟨a.base + a.used, n⟩

/-- The arena behind that span. -/
def take (a : Arena) (n : Nat) : Arena := { a with used := a.used + n }

/-- The arenas lie apart and are not overdrawn, and all that has been handed out is apart and in
the used parts. -/
structure Packed (arenas : List Arena) (given : List Span) : Prop where
  apart : arenas.Pairwise fun a b ↦ a.span.Apart b.span
  within : ∀ a ∈ arenas, a.used ≤ a.size
  inside : ∀ s ∈ given, ∃ a ∈ arenas, s.cells ⊆ a.taken.cells
  disjoint : given.Pairwise Span.Apart

namespace Packed

variable {a : Arena} {arenas arenas' : List Arena} {given : List Span} {n : Nat}

theorem nil : Packed [] [] := ⟨.nil, by simp, by simp, .nil⟩

/-- The order of the arenas does not matter. -/
theorem perm (h : Packed arenas given) (hperm : arenas.Perm arenas') : Packed arenas' given where
  apart := (hperm.pairwise_iff fun hab ↦ hab.symm).mp h.apart
  within a ha := h.within a (hperm.mem_iff.mpr ha)
  inside s hs := by
    obtain ⟨a, ha, hsub⟩ := h.inside s hs
    exact ⟨a, hperm.mem_iff.mp ha, hsub⟩
  disjoint := h.disjoint

/-- An unused arena apart from the others. -/
theorem grow (h : Packed arenas given) (hused : a.used = 0)
    (hapart : ∀ b ∈ arenas, a.span.Apart b.span) : Packed (a :: arenas) given where
  apart := List.pairwise_cons.mpr ⟨hapart, h.apart⟩
  within := by
    rw [List.forall_mem_cons]
    exact ⟨hused ▸ Nat.zero_le _, h.within⟩
  inside s hs := by
    obtain ⟨b, hb, hsub⟩ := h.inside s hs
    exact ⟨b, List.mem_cons_of_mem a hb, hsub⟩
  disjoint := h.disjoint

/-- What is handed out next is apart from everything before. -/
theorem next_apart (h : Packed (a :: arenas) given) (hn : a.used + n ≤ a.size) :
    ∀ s ∈ given, (a.next n).Apart s := by
  intro s hs
  obtain ⟨b, hb, hsub⟩ := h.inside s hs
  apply Span.Apart.mono ?_ hsub
  obtain ⟨ha, -⟩ := List.pairwise_cons.mp h.apart
  rcases List.mem_cons.mp hb with rfl | hb
  · apply Span.Apart.symm
    apply Span.apart_of_le
    exact Nat.le_refl _
  · have htaken : b.taken.cells ⊆ b.span.cells := by
      apply Span.cells_subset
      · exact Nat.le_refl _
      · exact Nat.add_le_add_left (h.within b (List.mem_cons_of_mem a hb)) _
    have hnext : (a.next n).cells ⊆ a.span.cells := by
      apply Span.cells_subset
      · exact Nat.le_add_right _ _
      · simp only [next, span]
        omega
    exact (((ha b hb).mono htaken).symm.mono hnext).symm

/-- Handing out the next span of an arena. -/
theorem take (h : Packed (a :: arenas) given) (hn : a.used + n ≤ a.size) :
    Packed (a.take n :: arenas) (a.next n :: given) where
  apart := by
    obtain ⟨ha, hrest⟩ := List.pairwise_cons.mp h.apart
    exact List.pairwise_cons.mpr ⟨ha, hrest⟩
  within := by
    rw [List.forall_mem_cons]
    exact ⟨hn, fun b hb ↦ h.within b (List.mem_cons_of_mem a hb)⟩
  inside := by
    rw [List.forall_mem_cons]
    constructor
    · refine ⟨a.take n, List.mem_cons_self, ?_⟩
      apply Span.cells_subset
      · exact Nat.le_add_right _ _
      · exact Nat.le_of_eq (Nat.add_assoc _ _ _)
    · intro s hs
      obtain ⟨b, hb, hsub⟩ := h.inside s hs
      rcases List.mem_cons.mp hb with rfl | hb
      · refine ⟨b.take n, List.mem_cons_self, hsub.trans ?_⟩
        apply Span.cells_subset
        · exact Nat.le_refl _
        · exact Nat.add_le_add_left (Nat.le_add_right _ _) _
      · exact ⟨b, List.mem_cons_of_mem _ hb, hsub⟩
  disjoint := List.pairwise_cons.mpr ⟨h.next_apart hn, h.disjoint⟩

end Packed

end Arena

end Arm2x86
