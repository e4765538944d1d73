import Arm2x86.Tcache.Invariant

/-!
# The capacity of the translation cache

Insertions make room, but `arm2x86_tcache_resize` lowers the bound without evicting anything.
A cache stays within its bound as long as no call sets the bound below what is in use.
-/

namespace Arm2x86.Tcache

/-- The states of a run: the one it starts from and the one behind every call. -/
def statesOf : List Op → Cache → List Cache
  | [], c => [c]
  | op :: ops, c =>
    c :: match op.exec c with
      | none => []
      | some (_, c') => statesOf ops c'

/-- The calls of a run, each with the state before it. -/
def stepsOf : List Op → Cache → List (Op × Cache)
  | [], _ => []
  | op :: ops, c =>
    (op, c) :: match op.exec c with
      | none => []
      | some (_, c') => stepsOf ops c'

/-- The bound a call puts on the cache, when it changes it. -/
def Op.newBound (op : Op) (c : Cache) : Option Nat :=
  match op with
  | .resize newSize true => some (clampSize newSize)
  | .adjustAuto missRate true =>
    let newSize := adjustedSize c.totalSize c.usedSize missRate
    if newSize = c.totalSize then none else some (clampSize newSize)
  | _ => none

/-- A call that changes the bound leaves room for what is in use. -/
def Op.KeepsRoom (op : Op) (c : Cache) : Prop :=
  ∀ bound, op.newBound c = some bound → c.usedSize ≤ bound

variable {c c' : Cache} {lru chained : List Ptr}

theorem tcacheResize_sizes {newSize : Nat} {alloc : Bool} {st : Status}
    (h : tcacheResize c newSize alloc = some (st, c')) :
    c'.usedSize = c.usedSize ∧
      c'.totalSize = if alloc then clampSize newSize else c.totalSize := by
  unfold tcacheResize at h
  dsimp only at h
  split at h
  · next heq =>
    obtain ⟨rfl, rfl⟩ := Prod.mk.inj (Option.some.inj h)
    refine ⟨rfl, ?_⟩
    split
    · exact heq.symm
    · rfl
  · split at h
    · next halloc =>
      obtain ⟨s, -, hs⟩ := Option.bind_eq_some_iff.mp h
      obtain ⟨-, rfl⟩ := Prod.mk.inj (Option.some.inj hs)
      exact ⟨rfl, (if_pos halloc).symm⟩
    · next halloc =>
      obtain ⟨-, rfl⟩ := Prod.mk.inj (Option.some.inj h)
      exact ⟨rfl, (if_neg halloc).symm⟩

/-- The bound of the cache after a call. -/
theorem Op.exec_totalSize {op : Op} {answer : Answer} (h : Represents c lru chained)
    (hexec : op.exec c = some (answer, c')) :
    c'.totalSize = (op.newBound c).getD c.totalSize := by
  obtain ⟨answer₁, c₁, lru₁, chained₁, hexec₁, -, hchange⟩ := op.exec_changes h
  obtain ⟨rfl, rfl⟩ := Prod.mk.inj (Option.some.inj (hexec₁.symm.trans hexec))
  cases op with
  | lookup armAddr => exact hchange.1
  | insert armAddr x86Code x86Size alloc => exact hchange.1
  | insertEx armAddr x86Code x86Size owned mmap alloc => exact hchange.1
  | clear => exact hchange.1
  | resize newSize alloc =>
    obtain ⟨⟨st, c₂⟩, hrun, hret⟩ := Option.bind_eq_some_iff.mp hexec
    obtain ⟨-, rfl⟩ := Prod.mk.inj (Option.some.inj hret)
    rw [(tcacheResize_sizes hrun).2]
    cases alloc <;> rfl
  | adjustAuto missRate alloc =>
    obtain ⟨⟨st, c₂⟩, hrun, hret⟩ := Option.bind_eq_some_iff.mp hexec
    obtain ⟨-, rfl⟩ := Prod.mk.inj (Option.some.inj hret)
    simp only [tcacheAdjustAuto] at hrun
    split at hrun
    · next hne =>
      rw [(tcacheResize_sizes hrun).2]
      cases alloc
      · rfl
      · simp only [Op.newBound, if_true, if_neg hne, Option.getD_some]
    · next heq =>
      obtain ⟨-, rfl⟩ := Prod.mk.inj (Option.some.inj hrun)
      rw [not_not] at heq
      cases alloc
      · rfl
      · simp only [Op.newBound, if_pos heq, Option.getD_none]

/-- A call that changes the bound changes nothing else of the sizes. -/
theorem Op.exec_usedSize {op : Op} {answer : Answer} {bound : Nat}
    (hexec : op.exec c = some (answer, c')) (hbound : op.newBound c = some bound) :
    c'.usedSize = c.usedSize := by
  cases op with
  | lookup armAddr => cases hbound
  | insert armAddr x86Code x86Size alloc => cases hbound
  | insertEx armAddr x86Code x86Size owned mmap alloc => cases hbound
  | clear => cases hbound
  | resize newSize alloc =>
    obtain ⟨⟨st, c₂⟩, hrun, hret⟩ := Option.bind_eq_some_iff.mp hexec
    obtain ⟨-, rfl⟩ := Prod.mk.inj (Option.some.inj hret)
    exact (tcacheResize_sizes hrun).1
  | adjustAuto missRate alloc =>
    obtain ⟨⟨st, c₂⟩, hrun, hret⟩ := Option.bind_eq_some_iff.mp hexec
    obtain ⟨-, rfl⟩ := Prod.mk.inj (Option.some.inj hret)
    simp only [tcacheAdjustAuto] at hrun
    split at hrun
    · exact (tcacheResize_sizes hrun).1
    · obtain ⟨-, rfl⟩ := Prod.mk.inj (Option.some.inj hrun)
      rfl

theorem clampSize_le (newSize : Nat) : clampSize newSize ≤ maxSize := by
  unfold clampSize
  dsimp only
  generalize (if newSize < minSize then minSize else newSize) = n
  split
  · exact Nat.le_refl _
  · next h => exact Nat.not_lt.mp h

theorem Op.newBound_le {op : Op} {bound : Nat} (hbound : op.newBound c = some bound) :
    bound ≤ maxSize := by
  cases op with
  | lookup armAddr => cases hbound
  | insert armAddr x86Code x86Size alloc => cases hbound
  | insertEx armAddr x86Code x86Size owned mmap alloc => cases hbound
  | clear => cases hbound
  | resize newSize alloc =>
    cases alloc
    · cases hbound
    · obtain rfl := Option.some.inj hbound
      exact clampSize_le newSize
  | adjustAuto missRate alloc =>
    cases alloc
    · cases hbound
    · simp only [Op.newBound] at hbound
      split at hbound
      · cases hbound
      · obtain rfl := Option.some.inj hbound
        exact clampSize_le _

/-- The survivors of an eviction leave room for the new block, when it fits at all. -/
theorem bytes_survivors_add_le {cap x86Size : Nat} {items kept dropped : List Item}
    (hsplit : items = kept ++ dropped) (hkept : kept = Lru.survivors (fits cap x86Size) items)
    (hsize : x86Size ≤ cap) (hfit : bytes items + x86Size < 2 ^ 64) :
    bytes kept + x86Size ≤ cap := by
  have hle : bytes kept ≤ bytes items := by
    rw [hsplit, bytes_append]
    exact Nat.le_add_right _ _
  rcases @Lru.fits_survivors_or_nil _ (fits cap x86Size) items with hroom | hnil
  · rw [← hkept, fits, decide_eq_true_eq, sizeAdd, Nat.mod_eq_of_lt (by omega),
      Nat.mod_eq_of_lt (by omega)] at hroom
    exact hroom
  · rw [← hkept] at hnil
    rw [hnil, bytes_nil, Nat.zero_add]
    exact hsize

theorem InsertChanges.bytes_le_cap {cap : Nat} {item : Item} {items items' : List Item}
    {answer : Answer} (h : InsertChanges cap item items answer items') (hcap : cap < 2 ^ 63)
    (hin : bytes items ≤ cap) (hadd : item.x86Size ≤ cap) : bytes items' ≤ cap := by
  obtain ⟨-, -, rfl⟩ | ⟨kept, dropped, -, hsplit, hkept, hres⟩ := h
  · exact hin
  · have hroom : bytes kept + item.x86Size ≤ cap :=
      bytes_survivors_add_le hsplit hkept hadd (by omega)
    rcases hres with ⟨-, rfl⟩ | ⟨-, rfl⟩
    · omega
    · rw [bytes_cons]
      omega

/-- A call with a block that fits keeps the blocks within the bound, if what was in use fits
the bound it leaves. -/
theorem Op.Changes.bytes_le_cap {op : Op} {cap cap' : Nat} {items items' : List Item}
    {answer : Answer} (h : op.Changes cap items answer cap' items') (hcap : cap < 2 ^ 63)
    (hin : bytes items ≤ cap) (hadd : op.added ≤ cap) (hin' : bytes items ≤ cap') :
    bytes items' ≤ cap' := by
  cases op with
  | lookup armAddr =>
    obtain ⟨rfl, ⟨-, rfl, -⟩ | ⟨xs, x, ys, rfl, rfl, -, -⟩⟩ := h
    · exact hin
    · have hperm : (x :: (xs ++ ys)).Perm (xs ++ x :: ys) := List.perm_middle.symm
      rw [bytes_perm hperm]
      exact hin
  | insert armAddr x86Code x86Size alloc =>
    obtain ⟨rfl, hins⟩ := h
    exact hins.bytes_le_cap hcap hin hadd
  | insertEx armAddr x86Code x86Size owned mmap alloc =>
    obtain ⟨rfl, hins⟩ := h
    exact hins.bytes_le_cap hcap hin hadd
  | clear =>
    obtain ⟨-, -, rfl⟩ := h
    exact Nat.zero_le _
  | resize newSize alloc =>
    obtain ⟨rfl, -⟩ := h
    exact hin'
  | adjustAuto missRate alloc =>
    obtain ⟨rfl, -⟩ := h
    exact hin'

/-- One call of a cache within its bound. -/
theorem Op.exec_within {op : Op} {answer : Answer} {lru' : List Ptr}
    (h : Represents c lru chained) (hcap : c.totalSize < 2 ^ 63)
    (hin : bytes (recency c.heap lru) ≤ c.totalSize) (hadd : op.added ≤ c.totalSize)
    (hroom : op.KeepsRoom c) (hexec : op.exec c = some (answer, c'))
    (hchange : op.Changes c.totalSize (recency c.heap lru) answer c'.totalSize
      (recency c'.heap lru')) :
    c'.totalSize < 2 ^ 63 ∧ bytes (recency c'.heap lru') ≤ c'.totalSize := by
  have htotal := op.exec_totalSize h hexec
  have hused : c.usedSize = bytes (recency c.heap lru) := by
    rw [h.used, Nat.mod_eq_of_lt (by omega)]
  cases hbound : op.newBound c with
  | none =>
    rw [hbound, Option.getD_none] at htotal
    rw [htotal] at hchange ⊢
    exact ⟨hcap, hchange.bytes_le_cap hcap hin hadd hin⟩
  | some bound =>
    rw [hbound, Option.getD_some] at htotal
    have hle : bound ≤ maxSize := op.newBound_le hbound
    have hfits : c.usedSize ≤ bound := hroom bound hbound
    rw [htotal] at hchange ⊢
    constructor
    · exact Nat.lt_of_le_of_lt hle (by decide)
    · exact hchange.bytes_le_cap hcap hin hadd (hused ▸ hfits)

/-- Along a run whose calls all leave room, every state is within its bound. -/
theorem statesOf_within (ops : List Op) (h : Represents c lru chained)
    (hcap : c.totalSize < 2 ^ 63) (hin : bytes (recency c.heap lru) ≤ c.totalSize)
    (hadd : ∀ s ∈ stepsOf ops c, s.1.added ≤ s.2.totalSize)
    (hroom : ∀ s ∈ stepsOf ops c, s.1.KeepsRoom s.2) :
    ∀ c' ∈ statesOf ops c, c'.usedSize ≤ c'.totalSize := by
  induction ops generalizing c lru chained with
  | nil =>
    intro c' hc'
    obtain rfl := List.mem_singleton.mp hc'
    rw [h.used]
    exact Nat.le_trans (Nat.mod_le _ _) hin
  | cons op ops ih =>
    obtain ⟨answer, c₁, lru₁, chained₁, hexec, hrep, hchange⟩ := op.exec_changes h
    simp only [stepsOf, hexec, List.forall_mem_cons] at hadd hroom
    simp only [statesOf, hexec, List.forall_mem_cons]
    constructor
    · rw [h.used]
      exact Nat.le_trans (Nat.mod_le _ _) hin
    · obtain ⟨hcap₁, hin₁⟩ := Op.exec_within h hcap hin hadd.1 hroom.1 hexec hchange
      exact ih hrep hcap₁ hin₁ hadd.2 hroom.2

/-- The first state of a run is among its states. -/
theorem mem_statesOf (ops : List Op) (c : Cache) : c ∈ statesOf ops c := by
  cases ops with
  | nil => exact List.mem_singleton_self c
  | cons op ops => exact List.mem_cons_self

/-- A run whose states are all within their bounds has only calls that leave room. -/
theorem keepsRoom_of_statesOf (ops : List Op) (h : Represents c lru chained)
    (hstates : ∀ c' ∈ statesOf ops c, c'.usedSize ≤ c'.totalSize) :
    ∀ s ∈ stepsOf ops c, s.1.KeepsRoom s.2 := by
  induction ops generalizing c lru chained with
  | nil => simp [stepsOf]
  | cons op ops ih =>
    obtain ⟨answer, c₁, lru₁, chained₁, hexec, hrep, -⟩ := op.exec_changes h
    simp only [statesOf, hexec, List.forall_mem_cons] at hstates
    simp only [stepsOf, hexec, List.forall_mem_cons]
    constructor
    · intro bound hbound
      have hlast : c₁.usedSize ≤ c₁.totalSize := hstates.2 c₁ (mem_statesOf ops c₁)
      rw [op.exec_totalSize h hexec, hbound, Option.getD_some,
        Op.exec_usedSize hexec hbound] at hlast
      exact hlast
    · exact ih hrep hstates.2

/-- A run on a new cache returns. When every block fits the bound it meets, all states of the
run are within their bounds exactly if no call sets the bound below what is in use. -/
theorem tcache_run_within_iff (size buckets : Nat) (ops : List Op) (hsize : size < 2 ^ 63)
    (hblocks : ∀ s ∈ stepsOf ops (tcacheCreate size buckets), s.1.added ≤ s.2.totalSize) :
    (∃ answers c, runOps ops (tcacheCreate size buckets) = some (answers, c)) ∧
      ((∀ c ∈ statesOf ops (tcacheCreate size buckets), c.usedSize ≤ c.totalSize) ↔
        ∀ s ∈ stepsOf ops (tcacheCreate size buckets), s.1.KeepsRoom s.2) := by
  have hrep := tcacheCreate_represents size buckets
  have hcap : (tcacheCreate size buckets).totalSize < 2 ^ 63 := by
    simp only [tcacheCreate]
    split
    · exact hsize
    · decide
  constructor
  · obtain ⟨answers, c, -, -, hrun, -⟩ := runOps_total ops hrep
    exact ⟨answers, c, hrun⟩
  · constructor
    · exact keepsRoom_of_statesOf ops hrep
    · exact statesOf_within ops hrep hcap (Nat.zero_le _) hblocks

/-- Two mebibytes with a block of one, resized to three: the bound stays above the block. -/
theorem tcache_run_within_grown :
    (∃ answers c, runOps [.insert 0x1000#64 0x7000#64 0x100000 (.at Entry 1),
        .resize 0x300000 true] (tcacheCreate 0x200000 1) = some (answers, c)) ∧
    ∀ c ∈ statesOf [.insert 0x1000#64 0x7000#64 0x100000 (.at Entry 1), .resize 0x300000 true]
      (tcacheCreate 0x200000 1), c.usedSize ≤ c.totalSize := by
  apply (tcache_run_within_iff 0x200000 1
    [.insert 0x1000#64 0x7000#64 0x100000 (.at Entry 1), .resize 0x300000 true] (by decide)
    ?_).imp_right
  · intro hiff
    apply hiff.mpr
    intro s hs bound hbound
    obtain rfl | hs := List.mem_cons.mp hs
    · cases hbound
    · obtain rfl := List.mem_singleton.mp hs
      obtain rfl := Option.some.inj hbound
      decide
  · have h : (stepsOf [.insert 0x1000#64 0x7000#64 0x100000 (.at Entry 1),
        .resize 0x300000 true] (tcacheCreate 0x200000 1)).all
          (fun s ↦ decide (s.1.added ≤ s.2.totalSize)) = true := by decide
    intro s hs
    exact of_decide_eq_true (List.all_eq_true.mp h s hs)

/-- The same block after a resize to half a mebibyte exceeds the bound. -/
theorem tcache_run_not_within :
    ¬ ∀ (size buckets : Nat) (ops : List Op),
      (∀ s ∈ stepsOf ops (tcacheCreate size buckets), s.1.added ≤ s.2.totalSize) →
        ∀ c ∈ statesOf ops (tcacheCreate size buckets), c.usedSize ≤ c.totalSize := by
  intro hall
  have hblocks : (stepsOf [.insert 0x1000#64 0x7000#64 0x100000 (.at Entry 1),
      .resize 0x80000 true] (tcacheCreate 0x200000 1)).all
        (fun s ↦ decide (s.1.added ≤ s.2.totalSize)) = true := by decide
  have hstates : (statesOf [.insert 0x1000#64 0x7000#64 0x100000 (.at Entry 1),
      .resize 0x80000 true] (tcacheCreate 0x200000 1)).all
        (fun c ↦ decide (c.usedSize ≤ c.totalSize)) = false := by decide
  have hwithin := hall 0x200000 1 _ fun s hs ↦
    of_decide_eq_true (List.all_eq_true.mp hblocks s hs)
  have htrue := List.all_eq_true.mpr fun c hc ↦ decide_eq_true (hwithin c hc)
  rw [hstates] at htrue
  cases htrue

end Arm2x86.Tcache
