import Arm2x86.Base.Selection
import Arm2x86.Observe.Profiler

/-!
# The blocks that ran most

`arm2x86_profiler_print_top_blocks` of `modules/arm2x86_profiler.c:356`. It copies as many cells of
the ring as it is to list, sorts the copy, and lists the executions of blocks in it. So it lists the
greatest ones only when none that is greater, or wanted as well, lies behind these cells.
-/

namespace Arm2x86.Profiler

/-- `PROF_BLOCK_EXECUTION` is the type of an entry. -/
def isBlock (e : ProfilerEntry) : Bool := e.type = .blockExecution

/-- The number that entries are sorted by. -/
def rankedBy (e : ProfilerEntry) : Nat := e.data.toNat

/-- `arm2x86_profiler_print_top_blocks`, `arm2x86_profiler.c:356`: its result, and the lines that it
prints, each with its rank. Of an entry a line shows the address, the data and the time. -/
def printTopBlocks (p : Profiler) (count : BitVec 32) : Int × List (ProfilerEntry × Nat) :=
  if count.toInt ≤ 0 then (-1, [])
  else if p.count = 0 then (0, [])
  else
    let n := min p.count.toNat profilerMaxEntries
    let countTop := min count.toNat n
    let copied := ((p.entries.getD []).take countTop).toArray
    let sorted := Selection.selectionSort rankedBy ⟨copied, rfl⟩
    (0, (sorted.toList.zipIdx 1).filter fun line ↦ isBlock line.1)

/-- The entries that are listed. -/
def topBlocks (p : Profiler) (count : BitVec 32) : List ProfilerEntry :=
  (p.printTopBlocks count).2.map Prod.fst

/-- A ring in use: it holds its first cells, or all of them. -/
structure InUse (p : Profiler) : Prop where
  max_eq : p.maxEntries = 65536#32
  start_lt : p.startIdx.toNat < 65536
  cells : ∃ cells, p.entries = some cells ∧ cells.length = 65536
  count_le : p.count.toNat ≤ 65536
  wrapped : p.startIdx = 0 ∨ p.count.toNat = 65536

/-- The cells that are copied. -/
def copiedCells (p : Profiler) (count : BitVec 32) : List ProfilerEntry :=
  (p.entries.getD []).take (min count.toNat p.count.toNat)

/-- The cells in use that are not copied. -/
def otherCells (p : Profiler) (count : BitVec 32) : List ProfilerEntry :=
  ((p.entries.getD []).take p.count.toNat).drop (min count.toNat p.count.toNat)

/-- No execution of a block lies in the other cells, or all cells that are copied are executions of
blocks and those in the other cells have no greater data. -/
def TopCopied (p : Profiler) (count : BitVec 32) : Prop :=
  (∀ e ∈ p.otherCells count, ¬ isBlock e) ∨
    (∀ e ∈ p.copiedCells count, isBlock e) ∧
      ∀ x ∈ p.copiedCells count, ∀ y ∈ p.otherCells count, isBlock y → y.data ≤ x.data

variable {p : Profiler} {count : BitVec 32}

/-! ## Rings in use -/

theorem Inv.inUse {es : List ProfilerEntry} (h : Inv es p)
    (hwrapped : p.startIdx = 0 ∨ p.count.toNat = 65536) : p.InUse := by
  obtain ⟨cells, hcells, hlength, hkeeps⟩ := h.cells
  exact ⟨h.max_eq, h.start_lt, ⟨cells, hcells, hlength⟩, hlength ▸ hkeeps.count_le, hwrapped⟩

/-- A ring leaves its first cell only when it is full, and then it stays full. -/
theorem wrapped_recordEvent {es : List ProfilerEntry} (h : Inv es p)
    (hwrapped : p.startIdx = 0 ∨ p.count.toNat = 65536) (e : ProfilerEntry) :
    (p.recordEvent e).2.startIdx = 0 ∨ (p.recordEvent e).2.count.toNat = 65536 := by
  obtain ⟨cells, hcells, hlength, hkeeps⟩ := h.cells
  have hcount : p.count.toNat ≤ 65536 := hlength ▸ hkeeps.count_le
  have hmax : p.maxEntries.toNat = 65536 := by rw [h.max_eq]; rfl
  unfold recordEvent
  rw [hcells]
  dsimp only
  rw [(updateStats_ring _ e).2.2.1, (updateStats_ring _ e).2.2.2.1]
  unfold makeRoom
  split
  · next hfull =>
    have hfull : p.count.toNat = 65536 := by
      have := BitVec.le_def.mp hfull
      omega
    right
    show (p.count - 1 + 1).toNat = 65536
    rw [BitVec.sub_add_cancel, hfull]
  · next hroom =>
    left
    apply hwrapped.resolve_right
    intro hfull
    apply hroom
    rw [ge_iff_le, BitVec.le_def]
    omega

/-- Every run of recordings leaves a ring in use. -/
theorem inUse_run (now : BitVec 64) (es : List ProfilerEntry) : ((initial now).run es).InUse := by
  suffices hrun : ∀ done (p : Profiler), Inv done p →
      (p.startIdx = 0 ∨ p.count.toNat = 65536) →
      (p.run es).startIdx = 0 ∨ (p.run es).count.toNat = 65536 by
    have hinv := (initial_inv now).run es
    exact hinv.inUse (hrun [] _ (initial_inv now) (.inl rfl))
  induction es with
  | nil => exact fun _ _ _ hwrapped ↦ hwrapped
  | cons e es ih =>
    intro done p h hwrapped
    exact ih _ _ (h.recordEvent e) (wrapped_recordEvent h hwrapped e)

/-- What a ring in use holds is in its cells, up to the order. -/
theorem InUse.exportEvents_perm (h : p.InUse) (count : BitVec 32) :
    p.exportEvents.Perm (p.copiedCells count ++ p.otherCells count) := by
  obtain ⟨cells, hcells, hlength⟩ := h.cells
  have hcount := h.count_le
  have hstart := h.start_lt
  have hwindow : p.exportEvents = Ring.window cells p.startIdx.toNat p.count.toNat := by
    have hnumber : p.exportCount = p.count.toNat := Nat.min_eq_left hcount
    rw [exportEvents, hcells, hnumber, Ring.window]
    apply List.filterMap_congr
    intro i hi
    have hlt : i < p.count.toNat := List.mem_range.mp hi
    have hindex : (p.exportIndex i).toNat = (p.startIdx.toNat + i) % cells.length := by
      rw [exportIndex, BitVec.toNat_umod, BitVec.toNat_add, BitVec.toNat_ofNat, h.max_eq, hlength]
      show (p.startIdx.toNat + i % 2 ^ 32) % 2 ^ 32 % 65536 = _
      omega
    rw [hindex]
    rfl
  have hsplit : p.copiedCells count ++ p.otherCells count = cells.take p.count.toNat := by
    have htake : cells.take (min count.toNat p.count.toNat) =
        (cells.take p.count.toNat).take (min count.toNat p.count.toNat) := by
      rw [List.take_take, Nat.min_assoc, Nat.min_self]
    rw [copiedCells, otherCells, hcells, Option.getD_some, htake, List.take_append_drop]
  rw [hwindow, hsplit]
  rcases h.wrapped with hzero | hfull
  · have hzero : p.startIdx.toNat = 0 := by rw [hzero]; rfl
    rw [hzero, Ring.window_start (hlength ▸ hcount)]
  · rw [hfull, ← hlength, List.take_length]
    exact Ring.window_perm cells _

/-- The first cells of a ring that has not been full are the events. -/
theorem take_run (now : BitVec 64) {es : List ProfilerEntry} (hshort : es.length < 65536) :
    (((initial now).run es).entries.getD []).take ((initial now).run es).count.toNat = es ∧
      ((initial now).run es).count.toNat = es.length := by
  have hinv : Inv es ((initial now).run es) := (initial_inv now).run es
  obtain ⟨cells, hcells, hlength, hkeeps⟩ := hinv.cells
  have hcount : ((initial now).run es).count.toNat = es.length := by
    rw [hkeeps.count_eq, hlength]
    omega
  have hstart : ((initial now).run es).startIdx = 0 := by
    apply (inUse_run now es).wrapped.resolve_right
    omega
  have hstart : ((initial now).run es).startIdx.toNat = 0 := by rw [hstart]; rfl
  have hwindow := hkeeps.window_eq
  rw [hstart, Ring.window_start hkeeps.count_le, List.rtake,
    Nat.sub_eq_zero_of_le (by omega), List.drop_zero] at hwindow
  rw [hcells]
  exact ⟨hwindow, hcount⟩

theorem copiedCells_run (now : BitVec 64) {es : List ProfilerEntry} (hshort : es.length < 65536)
    (count : BitVec 32) : ((initial now).run es).copiedCells count = es.take count.toNat := by
  obtain ⟨hcells, hcount⟩ := take_run now hshort
  rw [copiedCells, ← List.take_take, hcells]

theorem otherCells_run (now : BitVec 64) {es : List ProfilerEntry} (hshort : es.length < 65536)
    (count : BitVec 32) : ((initial now).run es).otherCells count = es.drop count.toNat := by
  obtain ⟨hcells, hcount⟩ := take_run now hshort
  rw [otherCells, hcells, hcount]
  by_cases h : count.toNat ≤ es.length
  · rw [Nat.min_eq_left h]
  · rw [Nat.min_eq_right (by omega), List.drop_length, List.drop_of_length_le (by omega)]

/-! ## The report -/

/-- What is left of numbered items is numbered items that are left. -/
theorem map_fst_filter_zipIdx {α : Type} (f : α → Bool) (xs : List α) (n : Nat) :
    ((xs.zipIdx n).filter fun x ↦ f x.1).map Prod.fst = xs.filter f := by
  have hfirst := List.filter_map (f := Prod.fst) (p := f) (l := xs.zipIdx n)
  rw [List.zipIdx_map_fst] at hfirst
  exact hfirst.symm

/-- The copied cells are sorted, and the executions of blocks among them are listed. -/
theorem InUse.topBlocks_eq (h : p.InUse) (hcount : 0 < count.toInt) :
    ∃ sorted : List ProfilerEntry, p.topBlocks count = sorted.filter isBlock ∧
      sorted.Perm (p.copiedCells count) ∧
      sorted.Pairwise fun x y ↦ rankedBy y ≤ rankedBy x := by
  unfold topBlocks printTopBlocks
  rw [if_neg (Int.not_le.mpr hcount)]
  split
  · next hzero =>
    have hnone : p.copiedCells count = [] := by
      rw [copiedCells, hzero]
      simp
    rw [hnone]
    exact ⟨[], rfl, List.Perm.refl _, List.Pairwise.nil⟩
  · have hcopied : (p.entries.getD []).take
        (min count.toNat (min p.count.toNat profilerMaxEntries)) = p.copiedCells count := by
      rw [copiedCells, Nat.min_eq_left (show p.count.toNat ≤ profilerMaxEntries from h.count_le)]
    dsimp only
    rw [map_fst_filter_zipIdx]
    refine ⟨_, rfl, ?_, Selection.selectionSort_sorted rankedBy _⟩
    rw [← hcopied]
    exact Selection.selectionSort_perm rankedBy _

/-- As many are listed as are asked for only when as many are copied and all of them are executions
of blocks. -/
theorem length_copied_iff (hother : p.otherCells count ≠ []) :
    ((p.copiedCells count).filter isBlock).length = count.toNat ↔
      ∀ e ∈ p.copiedCells count, isBlock e := by
  have hcount : (p.copiedCells count).length = count.toNat := by
    rw [Ne, otherCells, List.drop_eq_nil_iff, List.length_take] at hother
    rw [copiedCells, List.length_take]
    omega
  rw [← hcount, List.length_filter_eq_length_iff]

/-- The report lists the executions of blocks with the greatest data exactly when it copies them. -/
theorem topBlocks_top_iff (p : Profiler) (h : p.InUse) (count : BitVec 32)
    (hcount : 0 < count.toInt) :
    Selection.Top rankedBy count.toNat (p.exportEvents.filter isBlock) (p.topBlocks count) ↔
      p.TopCopied count := by
  obtain ⟨sorted, hlisted, hperm, hsorted⟩ := h.topBlocks_eq hcount
  have hblocks : ((p.copiedCells count).filter isBlock).length ≤ count.toNat := by
    apply Nat.le_trans (List.length_filter_le _ _)
    rw [copiedCells, List.length_take]
    omega
  rw [hlisted, Selection.Top.congr ((h.exportEvents_perm count).filter isBlock), List.filter_append,
    Selection.top_iff (hsorted.filter isBlock) (hperm.filter isBlock) hblocks, TopCopied,
    List.filter_eq_nil_iff]
  apply or_congr_right'
  intro hrest
  have hother : p.otherCells count ≠ [] := by
    intro hnil
    apply hrest
    rw [hnil]
    exact fun e he ↦ absurd he List.not_mem_nil
  rw [length_copied_iff hother]
  apply and_congr_right
  intro hall
  constructor
  · intro hle x hx y hy hblock
    exact hle x (List.mem_filter.mpr ⟨hx, hall x hx⟩) y (List.mem_filter.mpr ⟨hy, hblock⟩)
  · intro hle x hx y hy
    exact hle x (List.mem_of_mem_filter hx) y (List.mem_of_mem_filter hy) (List.mem_filter.mp hy).2

/-- The greater one of two blocks, which ran first. -/
theorem topBlocks_top_iff_falling :
    let p := (initial 5).run [⟨.blockExecution, 0x1000, 6, 60, 9⟩, ⟨.blockExecution, 0x2000, 7, 70, 4⟩]
    Selection.Top rankedBy 1 (p.exportEvents.filter isBlock) (p.topBlocks 1) := by
  refine (topBlocks_top_iff _ (inUse_run 5 _) 1 (by decide)).mpr (.inr ?_)
  rw [copiedCells_run 5 (by decide), otherCells_run 5 (by decide)]
  decide

/-- A block behind a hit of the cache: the only cell that is copied is the hit, and nothing is
listed. -/
theorem hit_first_not_top :
    let p := (initial 5).run [⟨.cacheHit, 0x1000, 6, 60, 0⟩, ⟨.blockExecution, 0x2000, 7, 70, 4⟩]
    ¬ Selection.Top rankedBy 1 (p.exportEvents.filter isBlock) (p.topBlocks 1) := by
  intro p htop
  have hevents := ((initial_inv 5).run [⟨.cacheHit, 0x1000, 6, 60, 0⟩,
    ⟨.blockExecution, 0x2000, 7, 70, 4⟩]).events
  have hpositive : 0 < (1 : BitVec 32).toInt := by decide
  obtain ⟨sorted, hlisted, hperm, -⟩ := (inUse_run 5 [⟨.cacheHit, 0x1000, 6, 60, 0⟩,
    ⟨.blockExecution, 0x2000, 7, 70, 4⟩]).topBlocks_eq hpositive
  rw [copiedCells_run 5 (by decide)] at hperm
  have hlength := htop.length
  rw [hevents, hlisted, (hperm.filter isBlock).length_eq] at hlength
  revert hlength
  decide

end Arm2x86.Profiler
