import Mathlib.Data.List.Basic

/-!
# Rewriting a buffer in one pass

A pass goes over its input from front to back in turns. A turn goes past some of the input and writes
some strings into another buffer, each with the move of the cursor behind it. Where the cursor moves by
what is written, the output is what the turns write one after the other, and its length is bounded by
what each turn writes for what it goes past.
-/

namespace Arm2x86.Rewriting

variable {α σ : Type}

/-- The items from an index on. -/
def slice (buf : Nat → α) (i n : Nat) : List α := (List.range n).map fun k ↦ buf (i + k)

/-- Some items in place of those from an index on. -/
def overwrite (buf : Nat → α) (i : Nat) (xs : List α) : Nat → α :=
  fun j ↦ if i ≤ j then (xs[j - i]?).getD (buf j) else buf j

/-- Items that are written, and how far the cursor moves then. -/
structure Emit (α : Type) where
  items : List α
  advance : Nat

/-- What is written, how much of the input is gone past, and how often it counts. -/
structure Turn (α : Type) where
  emits : List (Emit α)
  len : Nat
  hits : Nat
  len_pos : 0 < len

/-- The items of a turn. -/
def Turn.items (t : Turn α) : List α := t.emits.flatMap Emit.items

/-- The turns from an index on, with what the pass keeps from one to the next. -/
def turns (step : σ → Nat → Turn α × σ) (size : Nat) : Nat → σ → Nat → List (Turn α)
  | 0, _, _ => []
  | fuel + 1, s, src =>
    if src < size then
      (step s src).1 :: turns step size fuel (step s src).2 (src + (step s src).1.len)
    else []

/-- A buffer that is written to: the cursor, the number of items written, and the end of the farthest
of them. -/
structure Output (α : Type) where
  buf : Nat → α
  dst : Nat
  written : Nat
  reach : Nat
  hits : Nat

namespace Output

variable (o : Output α)

def emit (e : Emit α) : Output α :=
  { o with
    buf := overwrite o.buf o.dst e.items
    dst := o.dst + e.advance
    written := o.written + e.items.length
    reach := max o.reach (o.dst + e.items.length) }

def turn (t : Turn α) : Output α :=
  { t.emits.foldl emit o with hits := o.hits + t.hits }

end Output

/-- A whole pass, over a buffer that holds anything. -/
def rewrite (step : σ → Nat → Turn α × σ) (s : σ) (size : Nat) (buf : Nat → α) : Output α :=
  (turns step size size s 0).foldl Output.turn ⟨buf, 0, 0, 0, 0⟩

section Slices

variable {buf : Nat → α} {i n : Nat} {xs ys : List α}

@[simp] theorem length_slice : (slice buf i n).length = n := by simp [slice]

@[simp] theorem getElem_slice {k : Nat} (h : k < (slice buf i n).length) :
    (slice buf i n)[k] = buf (i + k) := by
  simp [slice]

theorem slice_succ : slice buf i (n + 1) = buf i :: slice buf (i + 1) n := by
  rw [slice, List.range_succ_eq_map, List.map_cons, List.map_map, slice]
  congr 1
  apply List.map_congr_left
  intro k _
  show buf (i + (k + 1)) = buf (i + 1 + k)
  congr 1
  omega

theorem slice_append (k : Nat) : slice buf i (n + k) = slice buf i n ++ slice buf (i + n) k := by
  induction n generalizing i with
  | zero =>
    rw [Nat.zero_add]
    rfl
  | succ n ih =>
    rw [Nat.succ_add, slice_succ, slice_succ, ih, List.cons_append, Nat.add_assoc, Nat.add_comm 1 n]

/-- Some items stand at their index. -/
theorem slice_stands {k : Nat} (h : i + k ≤ n) : slice buf i k <+: (slice buf 0 n).drop i := by
  obtain ⟨tail, rfl⟩ := Nat.exists_eq_add_of_le h
  rw [Nat.add_assoc, slice_append, Nat.zero_add, slice_append, List.drop_left' length_slice]
  exact List.prefix_append _ _

/-- What is written behind some items. -/
theorem slice_overwrite : slice (overwrite buf n xs) 0 (n + xs.length) = slice buf 0 n ++ xs := by
  apply List.ext_getElem
  · simp
  · intro k hk _
    rw [length_slice] at hk
    rw [getElem_slice, overwrite, Nat.zero_add]
    by_cases hlt : k < n
    · rw [if_neg (Nat.not_le.mpr hlt), List.getElem_append_left (by simpa using hlt), getElem_slice,
        Nat.zero_add]
    · have hin : k - n < xs.length := by omega
      rw [if_pos (Nat.not_lt.mp hlt), List.getElem?_eq_getElem hin, Option.getD_some,
        List.getElem_append_right (by simpa using hlt)]
      simp

end Slices

section Exact

/-- The cursor moves by what is written. -/
def Turn.Exact (t : Turn α) : Prop := ∀ e ∈ t.emits, e.advance = e.items.length

/-- Nothing has been left out and nothing has been written twice. -/
structure Output.Exact (o : Output α) : Prop where
  written : o.written = o.dst
  reach : o.reach = o.dst

variable {o : Output α}

theorem Output.foldl_emit {es : List (Emit α)} (he : ∀ e ∈ es, e.advance = e.items.length)
    (ho : o.Exact) :
    (es.foldl Output.emit o).Exact ∧
      slice (es.foldl Output.emit o).buf 0 (es.foldl Output.emit o).dst =
        slice o.buf 0 o.dst ++ es.flatMap Emit.items := by
  induction es generalizing o with
  | nil => exact ⟨ho, by simp⟩
  | cons e es ih =>
    rw [List.forall_mem_cons] at he
    have hnext : (o.emit e).Exact := by
      constructor
      · show o.written + e.items.length = o.dst + e.advance
        rw [ho.written, he.1]
      · show max o.reach (o.dst + e.items.length) = o.dst + e.advance
        rw [ho.reach, he.1]
        omega
    obtain ⟨hexact, hslice⟩ := ih he.2 hnext
    refine ⟨hexact, ?_⟩
    rw [List.foldl_cons, hslice, List.flatMap_cons, ← List.append_assoc]
    congr 1
    show slice (overwrite o.buf o.dst e.items) 0 (o.dst + e.advance) = _
    rw [he.1, slice_overwrite]

theorem Output.foldl_turn {ts : List (Turn α)} (ht : ∀ t ∈ ts, t.Exact) (ho : o.Exact) :
    (ts.foldl Output.turn o).Exact ∧
      slice (ts.foldl Output.turn o).buf 0 (ts.foldl Output.turn o).dst =
        slice o.buf 0 o.dst ++ ts.flatMap Turn.items := by
  induction ts generalizing o with
  | nil => exact ⟨ho, by simp⟩
  | cons t ts ih =>
    rw [List.forall_mem_cons] at ht
    obtain ⟨hexact, hslice⟩ := Output.foldl_emit ht.1 ho
    have hnext : (o.turn t).Exact := ⟨hexact.written, hexact.reach⟩
    obtain ⟨hexact', hslice'⟩ := ih ht.2 hnext
    refine ⟨hexact', ?_⟩
    rw [List.foldl_cons, hslice', List.flatMap_cons, ← List.append_assoc]
    congr 1

variable {step : σ → Nat → Turn α × σ} {s : σ} {size : Nat} {buf : Nat → α}

theorem turns_mem {P : Turn α → Prop} (h : ∀ s src, P (step s src).1) {fuel src : Nat} :
    ∀ t ∈ turns step size fuel s src, P t := by
  induction fuel generalizing s src with
  | zero => simp [turns]
  | succ fuel ih =>
    rw [turns]
    split
    · exact List.forall_mem_cons.mpr ⟨h s src, ih⟩
    · simp

/-- The length of the output is the number of items written. -/
theorem rewrite_exact (h : ∀ s src, (step s src).1.Exact) : (rewrite step s size buf).Exact :=
  (Output.foldl_turn (turns_mem h) ⟨rfl, rfl⟩).1

/-- The output is what the turns write. -/
theorem slice_rewrite (h : ∀ s src, (step s src).1.Exact) :
    slice (rewrite step s size buf).buf 0 (rewrite step s size buf).dst =
      (turns step size size s 0).flatMap Turn.items :=
  (Output.foldl_turn (turns_mem h) ⟨rfl, rfl⟩).2

theorem rewrite_dst (h : ∀ s src, (step s src).1.Exact) :
    (rewrite step s size buf).dst = ((turns step size size s 0).flatMap Turn.items).length := by
  rw [← slice_rewrite h, length_slice]

end Exact

section Growth

variable {step : σ → Nat → Turn α × σ} {s : σ} {size : Nat}

/-- A pass whose turns write at most `b` items for `a` that they go past, and go at most `k` items too
far. -/
theorem length_turns_le {a b k : Nat}
    (hgrow : ∀ s src, a * (step s src).1.items.length ≤ b * (step s src).1.len)
    (hend : ∀ s src, src < size → src + (step s src).1.len ≤ size + k) {fuel src : Nat} :
    a * ((turns step size fuel s src).flatMap Turn.items).length ≤ b * (size + k - src) := by
  induction fuel generalizing s src with
  | zero => simp [turns]
  | succ fuel ih =>
    rw [turns]
    split
    · next hlt =>
      have hturn := hgrow s src
      have hlast := hend s src hlt
      have hrest := @ih (step s src).2 (src + (step s src).1.len)
      have hsplit : size + k - src =
          (step s src).1.len + (size + k - (src + (step s src).1.len)) := by
        omega
      rw [List.flatMap_cons, List.length_append, Nat.mul_add, hsplit, Nat.mul_add]
      exact Nat.add_le_add hturn hrest
    · simp

end Growth

section Positions

variable (step : σ → Nat → Turn α × σ) (size : Nat) (s₀ : σ)

/-- Where a pass comes to: what it keeps, the index in its input and the one in its output. -/
inductive Reached : σ → Nat → Nat → Prop
  | start : Reached s₀ 0 0
  | turn {s : σ} {src dst : Nat} (h : Reached s src dst) (hlt : src < size) :
      Reached (step s src).2 (src + (step s src).1.len) (dst + (step s src).1.items.length)

variable {step size s₀} {s : σ} {src dst : Nat}

/-- The turns from a place on that the pass comes to are the last ones. -/
theorem Reached.split (h : Reached step size s₀ s src dst) :
    ∃ done fuel, turns step size size s₀ 0 = done ++ turns step size fuel s src ∧
      size ≤ fuel + src ∧ (done.flatMap Turn.items).length = dst := by
  induction h with
  | start => exact ⟨[], size, rfl, Nat.le_refl _, rfl⟩
  | @turn s src dst _ hlt ih =>
    obtain ⟨done, fuel, hturns, hfuel, hlen⟩ := ih
    have hpos := (step s src).1.len_pos
    cases fuel with
    | zero => omega
    | succ fuel =>
      rw [turns, if_pos hlt] at hturns
      refine ⟨done ++ [(step s src).1], fuel, ?_, by omega, ?_⟩
      · rw [hturns, List.append_assoc, List.singleton_append]
      · rw [List.flatMap_append, List.length_append, hlen, List.flatMap_singleton]

/-- What a turn writes stands in the output. -/
theorem Reached.stands (h : Reached step size s₀ s src dst) (hlt : src < size) :
    (step s src).1.items <+: ((turns step size size s₀ 0).flatMap Turn.items).drop dst := by
  obtain ⟨done, fuel, hturns, hfuel, hlen⟩ := h.split
  cases fuel with
  | zero => omega
  | succ fuel =>
    rw [turns, if_pos hlt] at hturns
    rw [hturns, List.flatMap_append, ← hlen, List.drop_left, List.flatMap_cons]
    exact List.prefix_append _ _

/-- Of two places that a pass comes to, one is behind the turn at the other, or they are the same. -/
theorem Reached.comparable {s' : σ} {src' dst' : Nat} (h : Reached step size s₀ s src dst)
    (h' : Reached step size s₀ s' src' dst') :
    src' + (step s' src').1.len ≤ src ∨ (s' = s ∧ src' = src ∧ dst' = dst) ∨
      src + (step s src).1.len ≤ src' := by
  induction h generalizing s' src' dst' with
  | start =>
    right
    induction h' with
    | start => exact .inl ⟨rfl, rfl, rfl⟩
    | turn _ _ ih =>
      right
      rcases ih with ⟨rfl, rfl, -⟩ | hle <;> omega
  | @turn s src dst _ _ ih =>
    have hpos := (step s src).1.len_pos
    induction h' with
    | start =>
      left
      rcases ih .start with hle | ⟨rfl, rfl, -⟩ | hle <;> omega
    | @turn s₁ src₁ dst₁ h₁ hlt₁ ih₁ =>
      have hpos₁ := (step s₁ src₁).1.len_pos
      rcases ih h₁ with hbefore | ⟨rfl, rfl, rfl⟩ | hbehind
      · left
        rcases ih (h₁.turn hlt₁) with hle | ⟨hs, hsrc, -⟩ | hle
        · omega
        · exact Nat.le_of_eq (by rw [hs, hsrc])
        · omega
      · exact .inr (.inl ⟨rfl, rfl, rfl⟩)
      · right
        right
        rcases ih₁ with hle | ⟨rfl, rfl, -⟩ | hle <;> omega

/-- There is one way to come to an index. -/
theorem Reached.unique {s' : σ} {dst' : Nat} (h : Reached step size s₀ s src dst)
    (h' : Reached step size s₀ s' src dst') : s' = s ∧ dst' = dst := by
  have hpos := (step s src).1.len_pos
  have hpos' := (step s' src).1.len_pos
  rcases h.comparable h' with hle | ⟨hs, -, hdst⟩ | hle
  · omega
  · exact ⟨hs, hdst⟩
  · omega

/-- A part of what the pass keeps is the same at two places when no turn between them changes it. -/
theorem Reached.between {β : Type} (f : σ → β) {s' : σ} {src' dst' : Nat}
    (h : Reached step size s₀ s src dst) (h' : Reached step size s₀ s' src' dst') (hle : src ≤ src')
    (hsame : ∀ s₁ i d, Reached step size s₀ s₁ i d → src ≤ i → i < src' → f (step s₁ i).2 = f s₁) :
    f s' = f s := by
  induction h' with
  | start =>
    obtain rfl := Nat.le_zero.mp hle
    rw [(Reached.start.unique h).1]
  | @turn s₁ src₁ dst₁ h₁ hlt ih =>
    have hpos := (step s₁ src₁).1.len_pos
    have hbetween : src ≤ src₁ → f (step s₁ src₁).2 = f s := by
      intro hle₁
      rw [hsame s₁ src₁ dst₁ h₁ hle₁ (by omega)]
      exact ih hle₁ fun s₂ i d h₂ hi hlt₂ ↦ hsame s₂ i d h₂ hi (by omega)
    rcases h.comparable h₁ with hbefore | ⟨-, rfl, -⟩ | hbehind
    · obtain rfl : src = src₁ + (step s₁ src₁).1.len := by omega
      rw [(h.unique (h₁.turn hlt)).1]
    · exact hbetween (Nat.le_refl _)
    · exact hbetween (by omega)

/-- Items that stand one behind the other. -/
theorem stands_append {xs ys out : List α} {i : Nat} (h : xs <+: out.drop i)
    (h' : ys <+: out.drop (i + xs.length)) : xs ++ ys <+: out.drop i := by
  obtain ⟨tail, htail⟩ := h
  rw [← List.drop_drop, ← htail, List.drop_left] at h'
  rw [← htail]
  exact (List.prefix_append_right_inj xs).mpr h'

/-- Items that a pass copies one by one. -/
theorem Reached.copied {f : Nat → α} {n : Nat} (h : Reached step size s₀ s src dst)
    (hsize : src + n ≤ size)
    (hcopy : ∀ s' i, src ≤ i → i < src + n →
      (step s' i).1.len = 1 ∧ (step s' i).1.items = [f i]) :
    ∃ s', Reached step size s₀ s' (src + n) (dst + n) ∧
      slice f src n <+: ((turns step size size s₀ 0).flatMap Turn.items).drop dst := by
  induction n with
  | zero => exact ⟨s, h, List.nil_prefix⟩
  | succ n ih =>
    obtain ⟨s', hreached, hstands⟩ := ih (by omega) fun s' i hle hlt ↦ hcopy s' i hle (by omega)
    obtain ⟨hlen, hitems⟩ := hcopy s' (src + n) (by omega) (by omega)
    have hnext := hreached.turn (by omega)
    have hlast := hreached.stands (by omega)
    rw [hlen, hitems] at hnext
    rw [hitems] at hlast
    refine ⟨_, hnext, ?_⟩
    rw [slice_append]
    apply stands_append hstands
    rw [length_slice]
    exact hlast

end Positions

end Arm2x86.Rewriting
