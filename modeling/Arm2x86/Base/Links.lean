import Mathlib.Data.List.Nodup
import Mathlib.Data.List.Perm.Subperm

/-!
# Link-field segments

Support for intrusive linked structures. A link field is a partial function from nodes to
the pointer they store: `none` for a node that is not allocated, `some q` for a node whose
field holds `q`, where the pointer `q` is itself `none` when it is null. A segment lists the
nodes met when the field is followed from one pointer to another.
-/

namespace Arm2x86.Links

variable {P : Type}

/-- Following `f` from the pointer `p` visits exactly `xs` and then holds the pointer `m`. -/
def Seg (f : P → Option (Option P)) : Option P → List P → Option P → Prop
  | p, [], m => p = m
  | p, x :: xs, m => p = some x ∧ ∃ q, f x = some q ∧ Seg f q xs m

/-- A null-terminated chain from `p`. -/
def Chain (f : P → Option (Option P)) (p : Option P) (xs : List P) : Prop := Seg f p xs none

variable {f g : P → Option (Option P)} {p q m m' : Option P} {x y : P} {xs ys zs : List P}

@[simp] theorem seg_nil : Seg f p [] m ↔ p = m := Iff.rfl

theorem seg_cons : Seg f p (x :: xs) m ↔ p = some x ∧ ∃ q, f x = some q ∧ Seg f q xs m :=
  Iff.rfl

/-- Segments compose through the pointer between them. -/
theorem seg_append :
    Seg f p (xs ++ ys) m ↔ ∃ q, Seg f p xs q ∧ Seg f q ys m := by
  induction xs generalizing p with
  | nil => simp
  | cons x xs ih =>
    simp only [List.cons_append, seg_cons, ih]
    constructor
    · rintro ⟨hp, q, hf, r, hxs, hys⟩
      exact ⟨r, ⟨hp, q, hf, hxs⟩, hys⟩
    · rintro ⟨r, ⟨hp, q, hf, hxs⟩, hys⟩
      exact ⟨hp, q, hf, r, hxs, hys⟩

/-- A one-node segment reads the field once. -/
theorem seg_singleton : Seg f p [x] m ↔ p = some x ∧ f x = some m := by
  simp [seg_cons]

/-- A segment only depends on the fields of the nodes it visits. -/
theorem Seg.congr (h : Seg f p xs m) (hfg : ∀ x ∈ xs, g x = f x) : Seg g p xs m := by
  induction xs generalizing p with
  | nil => exact h
  | cons x xs ih =>
    obtain ⟨hp, q, hf, hxs⟩ := h
    refine ⟨hp, q, ?_, ih hxs fun y hy ↦ hfg y (List.mem_cons_of_mem x hy)⟩
    rw [hfg x List.mem_cons_self, hf]

/-- A chain starts at its first node. -/
theorem Chain.eq_head? (h : Chain f p xs) : p = xs.head? := by
  cases xs with
  | nil => exact h
  | cons x xs => exact h.1

/-- Every node of a segment is allocated. -/
theorem Seg.allocated (h : Seg f p xs m) (hx : x ∈ xs) : (f x).isSome := by
  induction xs generalizing p with
  | nil => exact absurd hx List.not_mem_nil
  | cons y xs ih =>
    obtain ⟨-, q, hf, hxs⟩ := h
    rcases List.mem_cons.mp hx with rfl | hx
    · simp [hf]
    · exact ih hxs hx

/-- The field of a node inside a chain holds the first node after it. -/
theorem Chain.field_eq (h : Chain f p (xs ++ x :: ys)) : f x = some ys.head? := by
  obtain ⟨q, -, -, r, hf, hys⟩ := seg_append.mp h
  rw [hf, Chain.eq_head? hys]

/-- A pointer starts one chain only. -/
theorem Chain.unique (hxs : Chain f p xs) (hys : Chain f p ys) : xs = ys := by
  induction xs generalizing p ys with
  | nil =>
    cases ys with
    | nil => rfl
    | cons y ys => exact absurd (hxs.symm.trans hys.1) (by simp)
  | cons x xs ih =>
    obtain ⟨hp, q, hf, hxs⟩ := hxs
    cases ys with
    | nil => exact absurd (hp.symm.trans hys) (by simp)
    | cons y ys =>
      obtain ⟨hp', q', hf', hys⟩ := hys
      obtain rfl : x = y := Option.some.inj (hp.symm.trans hp')
      obtain rfl : q = q' := Option.some.inj (hf.symm.trans hf')
      rw [ih hxs hys]

/-- A chain that ends meets no node twice: it would go on from there as it did before. -/
theorem Chain.nodup (h : Chain f p xs) : xs.Nodup := by
  induction xs generalizing p with
  | nil => exact List.nodup_nil
  | cons x xs ih =>
    obtain ⟨-, q, hf, hxs⟩ := h
    refine List.nodup_cons.mpr ⟨fun hx ↦ ?_, ih hxs⟩
    obtain ⟨ys, zs, rfl⟩ := List.append_of_mem hx
    obtain ⟨r, -, hr, hzs⟩ := seg_append.mp hxs
    have hagain : ys ++ x :: zs = zs := by
      have hfirst : Chain f (some x) (x :: (ys ++ x :: zs)) := ⟨rfl, q, hf, hxs⟩
      exact (List.cons.inj (hfirst.unique ⟨rfl, hzs⟩)).2
    have hlength := congrArg List.length hagain
    rw [List.length_append, List.length_cons] at hlength
    omega

/-- Pushing a node whose field holds the old first pointer. -/
theorem Chain.push (h : Chain f p xs) (hx : g x = some p) (hg : ∀ y ∈ xs, g y = f y) :
    Chain g (some x) (x :: xs) :=
  ⟨rfl, p, hx, Seg.congr h hg⟩

/-- Redirecting the last node of a segment moves only its end. -/
theorem Seg.redirect (h : Seg f p (xs ++ [x]) m) (hx : g x = some m')
    (hg : ∀ y ∈ xs, g y = f y) : Seg g p (xs ++ [x]) m' := by
  obtain ⟨q, hxs, hq⟩ := seg_append.mp h
  exact seg_append.mpr ⟨q, hxs.congr hg, hq.1, m', hx, rfl⟩

/-- Cutting a node out of a chain: the pointer that led to it takes over its field. -/
theorem Chain.remove [DecidableEq P] (h : Chain f p (xs ++ x :: ys)) (hd : (xs ++ ys).Nodup)
    (hq : q = if xs = [] then ys.head? else p)
    (hg : ∀ y ∈ xs ++ ys, g y = if xs.getLast? = some y then some ys.head? else f y) :
    Chain g q (xs ++ ys) := by
  obtain ⟨r, hxs, hr, s, hf, htail⟩ := seg_append.mp h
  have hs : s = ys.head? := Chain.eq_head? htail
  have hgys : Chain g s ys := by
    refine Seg.congr htail fun y hy ↦ ?_
    rw [hg y (List.mem_append_right xs hy), if_neg]
    intro hlast
    exact List.disjoint_of_nodup_append hd (List.mem_of_getLast? hlast) hy
  rcases List.eq_nil_or_concat' xs with rfl | ⟨ws, a, rfl⟩
  · rw [hq, if_pos rfl, List.nil_append, ← hs]
    exact hgys
  · rw [hq, if_neg (by simp)]
    refine seg_append.mpr ⟨s, hxs.redirect ?_ fun y hy ↦ ?_, hgys⟩
    · rw [hg a (by simp), if_pos (by simp), hs]
    · rw [hg y (by simp [hy]), if_neg]
      rintro hay
      obtain rfl : a = y := by simpa using hay
      have := (List.nodup_append.mp (List.Nodup.of_append_left hd)).2.2
      exact this a hy a (by simp) rfl

/-- The nodes of a list without repetition that all lie below a bound are at most as many. -/
theorem length_le_of_nodup_lt {xs : List Nat} {n : Nat} (hd : xs.Nodup)
    (hlt : ∀ x ∈ xs, x < n) : xs.length ≤ n := by
  have hsub : xs.Subperm (List.range n) :=
    List.subperm_of_subset hd fun x hx ↦ List.mem_range.mpr (hlt x hx)
  simpa using hsub.length_le

/-- A doubly linked list: `next` chains the nodes from `head`, `prev` chains them from `tail`
in the opposite order, and no node occurs twice. -/
structure DList (next prev : P → Option (Option P)) (head tail : Option P) (xs : List P) :
    Prop where
  forward : Chain next head xs
  backward : Chain prev tail xs.reverse
  nodup : xs.Nodup

namespace DList

variable {next prev next' prev' : P → Option (Option P)} {head tail head' tail' : Option P}

/-- The head pointer is the first node. -/
theorem head_eq (h : DList next prev head tail xs) : head = xs.head? := h.forward.eq_head?

/-- The tail pointer is the last node. -/
theorem tail_eq (h : DList next prev head tail xs) : tail = xs.getLast? := by
  rw [h.backward.eq_head?, List.head?_reverse]

/-- The forward field of an inner node. -/
theorem next_eq (h : DList next prev head tail (xs ++ x :: ys)) : next x = some ys.head? :=
  h.forward.field_eq

/-- The backward field of an inner node. -/
theorem prev_eq (h : DList next prev head tail (xs ++ x :: ys)) :
    prev x = some xs.getLast? := by
  have hb := h.backward
  rw [List.reverse_append, List.reverse_cons, List.append_assoc, List.singleton_append] at hb
  rw [hb.field_eq, List.head?_reverse]

/-- The empty list has two null ends. -/
theorem nil : DList next prev none none [] := ⟨rfl, rfl, List.nodup_nil⟩

/-- Both ends are null exactly when the list is empty. -/
theorem ends_none_iff (h : DList next prev head tail xs) :
    (head = none ↔ xs = []) ∧ (tail = none ↔ xs = []) := by
  rw [h.head_eq, h.tail_eq]
  simp

/-- A list only depends on the fields of its nodes. -/
theorem congr (h : DList next prev head tail xs) (hn : ∀ y ∈ xs, next' y = next y)
    (hp : ∀ y ∈ xs, prev' y = prev y) : DList next' prev' head tail xs :=
  ⟨Seg.congr h.forward hn, Seg.congr h.backward fun y hy ↦ hp y (List.mem_reverse.mp hy),
    h.nodup⟩

/-- Unlinking a node: its neighbours are joined and an end that pointed to it moves on. -/
theorem remove [DecidableEq P] (h : DList next prev head tail (xs ++ x :: ys))
    (hhead : head' = if xs = [] then ys.head? else head)
    (htail : tail' = if ys = [] then xs.getLast? else tail)
    (hn : ∀ y ∈ xs ++ ys, next' y = if xs.getLast? = some y then some ys.head? else next y)
    (hp : ∀ y ∈ xs ++ ys, prev' y = if ys.head? = some y then some xs.getLast? else prev y) :
    DList next' prev' head' tail' (xs ++ ys) := by
  have hd : (xs ++ ys).Nodup := by
    have := (List.nodup_middle.mp h.nodup)
    exact (List.nodup_cons.mp this).2
  refine ⟨Chain.remove h.forward hd hhead hn, ?_, hd⟩
  have hb := h.backward
  rw [List.reverse_append, List.reverse_cons, List.append_assoc, List.singleton_append] at hb
  rw [List.reverse_append]
  refine Chain.remove hb ?_ ?_ fun y hy ↦ ?_
  · rw [← List.reverse_append]
    exact List.nodup_reverse.mpr hd
  · simpa using htail
  · rw [List.head?_reverse, List.getLast?_reverse]
    exact hp y (by simpa [or_comm] using hy)

/-- Linking a new node in front: the old first node, if any, gets a backward field, and the
tail moves only when the list was empty. -/
theorem push [DecidableEq P] (h : DList next prev head tail xs) (hx : x ∉ xs)
    (htail : tail' = if tail = none then some x else tail)
    (hnx : next' x = some head) (hpx : prev' x = some none)
    (hn : ∀ y ∈ xs, next' y = next y)
    (hp : ∀ y ∈ xs, prev' y = if head = some y then some (some x) else prev y) :
    DList next' prev' (some x) tail' (x :: xs) := by
  refine ⟨h.forward.push hnx hn, ?_, List.nodup_cons.mpr ⟨hx, h.nodup⟩⟩
  rw [List.reverse_cons]
  cases xs with
  | nil =>
    have ht : tail = none := h.backward
    rw [htail, if_pos ht]
    exact seg_singleton.mpr ⟨rfl, hpx⟩
  | cons y ys =>
    have hne : tail ≠ none := by simp [h.tail_eq]
    have hhd : head = some y := h.head_eq
    have hb := h.backward
    rw [List.reverse_cons] at hb
    rw [htail, if_neg hne, List.reverse_cons]
    refine seg_append.mpr ⟨some x, hb.redirect ?_ fun z hz ↦ ?_, seg_singleton.mpr ⟨rfl, hpx⟩⟩
    · rw [hp y List.mem_cons_self, if_pos hhd]
    · have hz' : z ∈ ys := List.mem_reverse.mp hz
      rw [hp z (List.mem_cons_of_mem y hz'), if_neg]
      rw [hhd]
      rintro hyz
      obtain rfl : y = z := by simpa using hyz
      exact (List.nodup_cons.mp h.nodup).1 hz'

end DList

end Arm2x86.Links
