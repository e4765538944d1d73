import Mathlib.Data.List.DropRight

/-!
# Ring buffers

A list of cells read round its end. A ring that writes each new item after the items it holds,
and over the oldest one when it is full, holds the most recent items in the order in which
they came.
-/

namespace Arm2x86.Ring

variable {α : Type} {cells : List α} {start start' count n : Nat} {xs : List α} {x : α}

/-- The `n` cells from a position on, going round at the end. -/
def window (cells : List α) (start n : Nat) : List α :=
  (List.range n).filterMap fun i ↦ cells[(start + i) % cells.length]?

@[simp] theorem window_zero : window cells start 0 = [] := rfl

/-- The last cell of a window comes last. -/
theorem window_succ : window cells start (n + 1) =
    window cells start n ++ cells[(start + n) % cells.length]?.toList := by
  rw [window, List.range_succ, List.filterMap_append]
  cases h : cells[(start + n) % cells.length]? <;> simp [window, h]

/-- The first cell of a window comes first. -/
theorem window_cons : window cells start (n + 1) =
    cells[start % cells.length]?.toList ++ window cells (start + 1) n := by
  induction n with
  | zero => simp [window_succ]
  | succ n ih =>
    have hshift : start + 1 + n = start + (n + 1) := by omega
    rw [window_succ, ih, window_succ, List.append_assoc, hshift]

/-- Only the position within the ring matters. -/
theorem window_congr (h : start % cells.length = start' % cells.length) :
    window cells start n = window cells start' n := by
  unfold window
  congr 1
  funext i
  rw [Nat.add_mod, h, ← Nat.add_mod]

theorem getElem?_ring (start : Nat) (h : 0 < cells.length) :
    ∃ c, cells[start % cells.length]? = some c :=
  ⟨_, List.getElem?_eq_getElem (Nat.mod_lt start h)⟩

@[simp] theorem length_window (h : 0 < cells.length) : (window cells start n).length = n := by
  induction n with
  | zero => rfl
  | succ n ih =>
    obtain ⟨c, hc⟩ := getElem?_ring (start + n) h
    rw [window_succ, hc, List.length_append, ih]
    rfl

/-- A window from the first cell on. -/
theorem window_start (h : n ≤ cells.length) : window cells 0 n = cells.take n := by
  induction n with
  | zero => rfl
  | succ n ih =>
    rw [window_succ, ih (by omega), List.take_add_one, Nat.zero_add, Nat.mod_eq_of_lt h]

/-- Once round, every cell is met. -/
theorem window_perm (cells : List α) (start : Nat) : (window cells start cells.length).Perm cells := by
  induction start with
  | zero => rw [window_start le_rfl, List.take_length]
  | succ start ih =>
    refine List.Perm.trans ?_ ih
    cases hlength : cells.length with
    | zero => rw [window_zero, window_zero]
    | succ n =>
      have hround : (start + 1 + n) % cells.length = start % cells.length := by
        rw [show start + 1 + n = start + cells.length by omega, Nat.add_mod_right]
      have hlast : window cells (start + 1) (n + 1) =
          window cells (start + 1) n ++ cells[start % cells.length]?.toList := by
        rw [window_succ, hround]
      have hfirst : window cells start (n + 1) =
          cells[start % cells.length]?.toList ++ window cells (start + 1) n := window_cons
      rw [hlast, hfirst]
      exact List.perm_append_comm

/-- Positions less than one round apart are different cells. -/
theorem index_ne (start : Nat) {i j : Nat} (hij : i < j) (hj : j < start + cells.length) (hi : start ≤ i) :
    i % cells.length ≠ j % cells.length := by
  intro h
  have hmod : (j - i) % cells.length = 0 := Nat.sub_mod_eq_zero_of_mod_eq h.symm
  rw [Nat.mod_eq_of_lt (by omega)] at hmod
  omega

/-- A write right after a window that leaves room does not change it. -/
theorem window_set_after (hn : n ≤ count) (hcount : count < cells.length) :
    window (cells.set ((start + count) % cells.length) x) start n = window cells start n := by
  induction n with
  | zero => rfl
  | succ n ih =>
    have hne : (start + count) % cells.length ≠ (start + n) % cells.length :=
      (index_ne start (by omega) (by omega) (by omega)).symm
    rw [window_succ, window_succ, ih (by omega), List.length_set, List.getElem?_set_ne hne]

/-- A write right after a window extends it. -/
theorem window_push (h : n < cells.length) :
    window (cells.set ((start + n) % cells.length) x) start (n + 1) =
      window cells start n ++ [x] := by
  have hlt : (start + n) % cells.length < cells.length := Nat.mod_lt _ (by omega)
  rw [window_succ, window_set_after le_rfl h, List.length_set, List.getElem?_set_self hlt]
  rfl

/-- The ring holds the most recent of the items, from the position `start` on. -/
structure Keeps (cells : List α) (start count : Nat) (xs : List α) : Prop where
  count_eq : count = min xs.length cells.length
  window_eq : window cells start count = xs.rtake cells.length

/-- A ring without items. -/
theorem keeps_nil (cells : List α) (start : Nat) : Keeps cells start 0 [] :=
  ⟨by simp, by simp [List.rtake]⟩

namespace Keeps

theorem count_le (h : Keeps cells start count xs) : count ≤ cells.length :=
  h.count_eq ▸ Nat.min_le_right _ _

theorem congr_start (h : Keeps cells start count xs)
    (hstart : start % cells.length = start' % cells.length) : Keeps cells start' count xs :=
  ⟨h.count_eq, window_congr hstart ▸ h.window_eq⟩

/-- With room left the new item goes after the others. -/
theorem push_room (h : Keeps cells start count xs) (hroom : count < cells.length) (x : α) :
    Keeps (cells.set ((start + count) % cells.length) x) start (count + 1) (xs ++ [x]) := by
  have hcount := h.count_eq
  have hall : ∀ k, xs.length ≤ k → xs.rtake k = xs := by
    intro k hk
    rw [List.rtake, Nat.sub_eq_zero_of_le hk, List.drop_zero]
  apply Keeps.mk
  · rw [List.length_append, List.length_set, List.length_singleton]
    omega
  · rw [window_push hroom, h.window_eq, List.length_set, hall _ (by omega)]
    rw [List.rtake, List.length_append, List.length_singleton,
      Nat.sub_eq_zero_of_le (by omega), List.drop_zero]

/-- In a full ring the new item takes the place of the oldest one. -/
theorem push_full (h : Keeps cells start count xs) (hfull : count = cells.length)
    (hpos : 0 < cells.length) (x : α) :
    Keeps (cells.set (start % cells.length) x) (start + 1) count (xs ++ [x]) := by
  have hcount := h.count_eq
  obtain ⟨n, hn⟩ : ∃ n, cells.length = n + 1 := ⟨cells.length - 1, by omega⟩
  obtain ⟨c, hc⟩ := getElem?_ring start hpos
  -- what follows the oldest item is one item shorter
  have hrest : window cells (start + 1) n = xs.rtake n := by
    have hall := h.window_eq
    rw [hfull, hn, window_cons, hc] at hall
    have htail : (xs.rtake (n + 1)).tail = xs.rtake n := by
      rw [List.rtake, List.rtake, List.tail_drop]
      congr 1
      omega
    rw [← htail, ← hall]
    rfl
  have hpos' : (start + 1 + n) % cells.length = start % cells.length := by
    rw [show start + 1 + n = start + cells.length by omega, Nat.add_mod_right]
  apply Keeps.mk
  · rw [List.length_append, List.length_set, List.length_singleton]
    omega
  · have hpush : window (cells.set ((start + 1 + n) % cells.length) x) (start + 1) (n + 1) =
        window cells (start + 1) n ++ [x] := window_push (by omega)
    rw [hpos', hrest] at hpush
    have hright : (xs ++ [x]).rtake cells.length = xs.rtake n ++ [x] := by
      rw [hn, List.rtake_concat_succ]
    have hround : count = n + 1 := by omega
    rw [List.length_set, hright, hround]
    exact hpush

end Keeps

end Arm2x86.Ring
