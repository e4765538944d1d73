import Arm2x86.Tcache.Capacity

/-!
# Which of several translations a lookup returns

`arm2x86_tcache_insert_ex` does not replace an entry of the same address: the new one shadows it
from the front of the chain. The order of insertion is kept beside the cache and compared with
the chains. Only the rehashing loop of `arm2x86_tcache_resize` disturbs it: it reverses the
entries of every address.
-/

namespace Arm2x86.Tcache

/-- The entries still in the cache after a call, the latest insertion first: a call that
inserts leaves its entry at `lru_head`. -/
def bornAfter (answer : Answer) (c : Cache) (born : List Ptr) : List Ptr :=
  let live := born.filter fun p ↦ c.heap[p]?.isSome
  match answer, c.lruHead with
  | .inserted .ok _, some p => p :: live.filter (· ≠ p)
  | _, _ => live

/-- The states of a run, each with its entries in order of insertion. -/
def bornStates : List Op → Cache → List Ptr → List (Cache × List Ptr)
  | [], c, born => [(c, born)]
  | op :: ops, c, born =>
    (c, born) :: match op.exec c with
      | none => []
      | some (answer, c') => bornStates ops c' (bornAfter answer c' born)

/-- Every lookup that returns an entry returns the latest insertion of its address. -/
def NewestWins (c : Cache) (born : List Ptr) : Prop :=
  ∀ (armAddr : Addr) (p : Ptr) (c' : Cache), tcacheLookupInternal c armAddr = some (some p, c') →
    born.find? (fun q ↦ (itemOf c.heap q).armAddr = armAddr) = some p

/-- A call that fills a new table. -/
def Op.Rehashes (op : Op) (c : Cache) : Prop :=
  ∃ bound, op.newBound c = some bound ∧ bound ≠ c.totalSize

/-- No two entries of the cache translate one address. -/
def DistinctAddrs (c : Cache) : Prop :=
  ∀ (p q : Ptr) (e e' : Entry), c.heap[p]? = some e → c.heap[q]? = some e' →
    e.armAddr = e'.armAddr → p = q

variable {c c' : Cache} {lru chained born : List Ptr}

/-- Links and hit counts do not matter for distinctness. -/
theorem DistinctAddrs.congr (hdata : SameData c.heap c'.heap) (hd : DistinctAddrs c) :
    DistinctAddrs c' := by
  intro p q e e' he he' haddr
  obtain ⟨e₁, he₁, hdata₁⟩ := hdata.exists_entry he
  obtain ⟨e₂, he₂, hdata₂⟩ := hdata.exists_entry he'
  simp only [Entry.data, Entry.item, Prod.mk.injEq, Item.mk.injEq] at hdata₁ hdata₂
  apply hd p q e₁ e₂ he₁ he₂
  rw [hdata₁.1.1, hdata₂.1.1, haddr]

/-- Addresses are distinct when the chains hold at most one entry of each. -/
theorem Represents.distinctAddrs_iff (h : Represents c lru chained) :
    DistinctAddrs c ↔ ∀ armAddr, (atAddr c.heap chained armAddr).length ≤ 1 := by
  have hnd : chained.Nodup := h.perm.nodup_iff.mpr h.list.nodup
  constructor
  · intro hd armAddr
    by_contra hlen
    obtain ⟨p, q, hp, hq, hne⟩ : ∃ p q, p ∈ atAddr c.heap chained armAddr ∧
        q ∈ atAddr c.heap chained armAddr ∧ p ≠ q := by
      have hna : (atAddr c.heap chained armAddr).Nodup := hnd.filter _
      match hxs : atAddr c.heap chained armAddr with
      | [] => simp [hxs] at hlen
      | [x] => simp [hxs] at hlen
      | x :: y :: xs =>
        rw [hxs] at hna
        exact ⟨x, y, by simp, by simp, fun hxy ↦ by simp [hxy] at hna⟩
    obtain ⟨hpc, hpa⟩ := mem_atAddr.mp hp
    obtain ⟨hqc, hqa⟩ := mem_atAddr.mp hq
    obtain ⟨e, he⟩ := h.exists_entry (h.perm.mem_iff.mp hpc)
    obtain ⟨e', he'⟩ := h.exists_entry (h.perm.mem_iff.mp hqc)
    rw [itemOf_entry he] at hpa
    rw [itemOf_entry he'] at hqa
    exact hne (hd p q e e' he he' (hpa.trans hqa.symm))
  · intro hlen p q e e' he he' haddr
    have hmem : ∀ r d, c.heap[r]? = some d → d.armAddr = e.armAddr →
        r ∈ atAddr c.heap chained e.armAddr := by
      intro r d hr hra
      refine mem_atAddr.mpr ⟨h.perm.mem_iff.mpr ((h.allocated r).mp (by simp [hr])), ?_⟩
      rw [itemOf_entry hr]
      exact hra
    have hp := hmem p e he rfl
    have hq := hmem q e' he' haddr.symm
    match hxs : atAddr c.heap chained e.armAddr with
    | [] => simp [hxs] at hp
    | [x] =>
      rw [hxs, List.mem_singleton] at hp hq
      exact hp.trans hq.symm
    | x :: y :: xs => simpa [hxs] using hlen e.armAddr

/-- A lookup returns the first entry of the address in chain order. -/
theorem tcacheLookupInternal_first (h : Represents c lru chained) {armAddr : Addr}
    {r : Option Ptr} (hrun : tcacheLookupInternal c armAddr = some (r, c')) :
    r = (atAddr c.heap chained armAddr).head? := by
  have hidx : tcacheHashBuckets (tcacheHash armAddr) c.bucketCount < c.bucketCount :=
    Nat.mod_lt _ h.nonempty
  have hfind := findEntry_eq armAddr (h.chains _ hidx)
    (Nat.lt_succ_of_le (h.length_bucket_le _))
  rw [← List.head?_filter] at hfind
  change _ = some (atAddr c.heap _ armAddr).head? at hfind
  rw [h.atAddr_bucket, if_pos rfl] at hfind
  simp only [tcacheLookupInternal, hfind, Option.bind_eq_bind, Option.bind_some] at hrun
  cases hhead : (atAddr c.heap chained armAddr).head? with
  | none =>
    rw [hhead] at hrun
    exact (Prod.mk.inj (Option.some.inj hrun)).1.symm
  | some p =>
    rw [hhead] at hrun
    obtain ⟨c₁, -, hc₁⟩ := Option.bind_eq_some_iff.mp hrun
    split at hc₁
    · exact (Prod.mk.inj (Option.some.inj hc₁)).1.symm
    · obtain ⟨c₂, -, hc₂⟩ := Option.bind_eq_some_iff.mp hc₁
      exact (Prod.mk.inj (Option.some.inj hc₂)).1.symm

/-- The chains and the order of insertion agree on the entries of every address. -/
def Aligned (c : Cache) (chained born : List Ptr) : Prop :=
  ∀ armAddr, atAddr c.heap chained armAddr = atAddr c.heap born armAddr

theorem Aligned.newestWins (h : Represents c lru chained) (ha : Aligned c chained born) :
    NewestWins c born := by
  intro armAddr p c' hrun
  have hp := tcacheLookupInternal_first h hrun
  rw [ha armAddr, atAddr, List.head?_filter] at hp
  exact hp.symm

/-- The order of insertion holds the entries of the cache only. -/
theorem Aligned.mem (ha : Aligned c chained born) {p : Ptr} (hp : p ∈ born) : p ∈ chained := by
  have hmem : p ∈ atAddr c.heap born (itemOf c.heap p).armAddr := mem_atAddr.mpr ⟨hp, rfl⟩
  rw [← ha] at hmem
  exact (mem_atAddr.mp hmem).1

/-- Entries that survive keep their order. -/
theorem atAddr_filter {h h' : Heap Entry} {kept : List Ptr}
    (hdata : ∀ q ∈ kept, dataOf h' q = dataOf h q) (xs : List Ptr) (armAddr : Addr) :
    atAddr h' (xs.filter (· ∈ kept)) armAddr = (atAddr h xs armAddr).filter (· ∈ kept) := by
  rw [atAddr, atAddr, List.filter_comm]
  rw [List.filter_filter, List.filter_filter]
  refine List.filter_congr fun q _ ↦ ?_
  by_cases hq : q ∈ kept
  · have hitem : itemOf h' q = itemOf h q := by rw [itemOf, hdata q hq, itemOf]
    simp [hq, hitem]
  · simp [hq]

/-- What a call leaves of the order: aligned lists stay aligned, except that a new table holds
the entries of every address in reverse. -/
def Follows (op : Op) (c c' : Cache) (chained' born' : List Ptr) : Prop :=
  (¬ op.Rehashes c ∧ Aligned c' chained' born') ∨
    (op.Rehashes c ∧ SameData c.heap c'.heap ∧
      ∀ armAddr, atAddr c'.heap chained' armAddr = (atAddr c'.heap born' armAddr).reverse)

/-- A call that keeps all entries and inserts none keeps the order of insertion. -/
theorem bornAfter_same {answer : Answer} (h : Represents c lru chained)
    (ha : Aligned c chained born) (hdata : SameData c.heap c'.heap)
    (hanswer : ∀ ev, answer ≠ .inserted .ok ev) : bornAfter answer c' born = born := by
  have hlive : born.filter (fun p ↦ c'.heap[p]?.isSome) = born := by
    refine List.filter_eq_self.mpr fun p hp ↦ ?_
    rw [hdata.isSome]
    exact (h.allocated p).mpr (h.perm.mem_iff.mp (ha.mem hp))
  unfold bornAfter
  dsimp only
  split
  · exact absurd rfl (hanswer _)
  · exact hlive

/-- An insertion keeps the order of the survivors and puts its entry in front. -/
theorem insertEx_follows (h : Represents c lru chained) (ha : Aligned c chained born)
    (armAddr x86Code : Addr) (x86Size : Nat) (owned mmap : Bool)
    (alloc : Heap.Allocator Entry) :
    ∃ answer c' lru' chained',
      (Op.insertEx armAddr x86Code x86Size owned mmap alloc).exec c = some (answer, c') ∧
      Represents c' lru' chained' ∧ Aligned c' chained' (bornAfter answer c' born) := by
  by_cases hcode : x86Code = 0#64
  · refine ⟨.inserted .errInvalidParam [], c, lru, chained, ?_, h, ?_⟩
    · simp only [Op.exec, tcacheInsertEx, hcode, if_true]
      rfl
    · rw [bornAfter_same h ha (fun _ ↦ rfl) (by simp)]
      exact ha
  obtain ⟨st, c', fx, kept, dropped, lru', chained', hrun, hrep, -, -, hdata, -, -, hres⟩ :=
    tcacheInsertEx_spec h armAddr hcode x86Size owned mmap alloc
  have hkept : ∀ a, atAddr c'.heap (chained.filter (· ∈ kept)) a =
      atAddr c'.heap (born.filter (· ∈ kept)) a := by
    intro a
    rw [atAddr_filter hdata, atAddr_filter hdata, ha a]
  refine ⟨.inserted st (evicted fx), c', lru', chained', ?_, hrep, ?_⟩
  · simp only [Op.exec, hrun]
    rfl
  · rcases hres with ⟨rfl, rfl, rfl⟩ | ⟨p, rfl, rfl, rfl, -⟩
    · have hlive : born.filter (fun q ↦ c'.heap[q]?.isSome) = born.filter (· ∈ lru') :=
        List.filter_congr fun q _ ↦ by rw [Bool.eq_iff_iff, hrep.allocated q, decide_eq_true_iff]
      intro a
      change _ = atAddr c'.heap (born.filter fun q ↦ c'.heap[q]?.isSome) a
      rw [hlive]
      exact hkept a
    · have hpk : p ∉ kept := (List.nodup_cons.mp hrep.list.nodup).1
      have hlive : (born.filter (fun q ↦ c'.heap[q]?.isSome)).filter (· ≠ p) =
          born.filter (· ∈ kept) := by
        rw [List.filter_filter]
        refine List.filter_congr fun q _ ↦ ?_
        rw [Bool.eq_iff_iff, Bool.and_eq_true, hrep.allocated q, decide_eq_true_iff,
          decide_eq_true_iff, List.mem_cons]
        constructor
        · rintro ⟨hne, rfl | hq⟩
          · exact absurd rfl hne
          · exact hq
        · exact fun hq ↦ ⟨fun hqp ↦ hpk (hqp ▸ hq), .inr hq⟩
      have hborn : bornAfter (.inserted .ok (evicted fx)) c' born =
          p :: born.filter (· ∈ kept) := by
        rw [← hlive]
        simp only [bornAfter, hrep.list.head_eq, List.head?_cons]
      intro a
      rw [hborn]
      by_cases hpa : (itemOf c'.heap p).armAddr = a
      · rw [atAddr, List.filter_cons_of_pos (by simp [hpa]), atAddr,
          List.filter_cons_of_pos (by simp [hpa])]
        exact congrArg _ (hkept a)
      · rw [atAddr, List.filter_cons_of_neg (by simp [hpa]), atAddr,
          List.filter_cons_of_neg (by simp [hpa])]
        exact hkept a

theorem Op.resize_rehashes (newSize : Nat) (alloc : Bool) :
    (Op.resize newSize alloc).Rehashes c ↔
      alloc = true ∧ clampSize newSize ≠ c.totalSize := by
  cases alloc <;> simp [Op.Rehashes, Op.newBound]

theorem Op.adjustAuto_rehashes (missRate : Float) (alloc : Bool)
    (hne : adjustedSize c.totalSize c.usedSize missRate ≠ c.totalSize) :
    (Op.adjustAuto missRate alloc).Rehashes c ↔
      alloc = true ∧ clampSize (adjustedSize c.totalSize c.usedSize missRate) ≠ c.totalSize := by
  cases alloc <;> simp [Op.Rehashes, Op.newBound, hne]

/-- Filling a new table reverses the entries of every address. -/
theorem tcacheResize_follows (h : Represents c lru chained) (ha : Aligned c chained born)
    {op : Op} {newSize : Nat} {alloc : Bool}
    (hop : op.Rehashes c ↔ alloc = true ∧ clampSize newSize ≠ c.totalSize) :
    ∃ st c' chained', tcacheResize c newSize alloc = some (st, c') ∧
      Represents c' lru chained' ∧
      Follows op c c' chained' (bornAfter (.resized st) c' born) := by
  obtain ⟨st, c', chained', hrun, hrep, hdata, -, horder⟩ := tcacheResize_spec h newSize alloc
  refine ⟨st, c', chained', hrun, hrep, ?_⟩
  rw [bornAfter_same h ha hdata (by simp)]
  split at horder
  · next hre =>
    right
    refine ⟨hop.mpr hre, hdata, fun a ↦ ?_⟩
    rw [hdata.atAddr, hdata.atAddr, horder a, ha a]
  · next hre =>
    left
    subst horder
    refine ⟨fun hr ↦ hre (hop.mp hr), fun a ↦ ?_⟩
    rw [hdata.atAddr, hdata.atAddr, ha a]

/-- Every call on a cache whose chains are in order of insertion. -/
theorem Op.exec_follows (h : Represents c lru chained) (ha : Aligned c chained born) (op : Op) :
    ∃ answer c' lru' chained', op.exec c = some (answer, c') ∧ Represents c' lru' chained' ∧
      Follows op c c' chained' (bornAfter answer c' born) := by
  have hstill : ∀ op' : Op, op'.newBound c = none → ¬ op'.Rehashes c := by
    rintro op' hnone ⟨bound, hbound, -⟩
    rw [hnone] at hbound
    cases hbound
  cases op with
  | lookup armAddr =>
    obtain ⟨r, c', lru', hrun, hrep, hdata, -, -⟩ := tcacheLookupInternal_spec h armAddr
    refine ⟨.found (c'.codeAndSize r), c', lru', chained, ?_, hrep, .inl ⟨hstill _ rfl, ?_⟩⟩
    · simp only [Op.exec, hrun]
      rfl
    · rw [bornAfter_same h ha hdata (by simp)]
      intro a
      rw [hdata.atAddr, hdata.atAddr, ha a]
  | insert armAddr x86Code x86Size alloc =>
    obtain ⟨answer, c', lru', chained', hexec, hrep, hal⟩ :=
      insertEx_follows h ha armAddr x86Code x86Size false false alloc
    exact ⟨answer, c', lru', chained', hexec, hrep, .inl ⟨hstill _ rfl, hal⟩⟩
  | insertEx armAddr x86Code x86Size owned mmap alloc =>
    obtain ⟨answer, c', lru', chained', hexec, hrep, hal⟩ :=
      insertEx_follows h ha armAddr x86Code x86Size owned mmap alloc
    exact ⟨answer, c', lru', chained', hexec, hrep, .inl ⟨hstill _ rfl, hal⟩⟩
  | clear =>
    obtain ⟨c', fx, hrun, hrep, -⟩ := tcacheClear_spec h
    refine ⟨.cleared, c', [], [], ?_, hrep, .inl ⟨hstill _ rfl, ?_⟩⟩
    · simp only [Op.exec, hrun]
      rfl
    · have hlive : bornAfter .cleared c' born = [] := by
        refine List.filter_eq_nil_iff.mpr fun p _ ↦ ?_
        rw [hrep.allocated p]
        exact List.not_mem_nil
      rw [hlive]
      exact fun _ ↦ rfl
  | resize newSize alloc =>
    obtain ⟨st, c', chained', hrun, hrep, hfollow⟩ :=
      tcacheResize_follows h ha (Op.resize_rehashes newSize alloc)
    refine ⟨.resized st, c', lru, chained', ?_, hrep, hfollow⟩
    simp only [Op.exec, hrun]
    rfl
  | adjustAuto missRate alloc =>
    by_cases hsame : adjustedSize c.totalSize c.usedSize missRate = c.totalSize
    · refine ⟨.resized .ok, c, lru, chained, ?_, h, .inl ⟨hstill _ ?_, ?_⟩⟩
      · simp only [Op.exec, tcacheAdjustAuto, hsame, ne_eq, not_true_eq_false, if_false]
        rfl
      · cases alloc
        · rfl
        · simp only [Op.newBound, hsame, if_true]
      · rw [bornAfter_same h ha (fun _ ↦ rfl) (by simp)]
        exact ha
    · obtain ⟨st, c', chained', hrun, hrep, hfollow⟩ :=
        tcacheResize_follows h ha (Op.adjustAuto_rehashes missRate alloc hsame)
      refine ⟨.resized st, c', lru, chained', ?_, hrep, hfollow⟩
      simp only [Op.exec, tcacheAdjustAuto, ne_eq, hsame, not_false_eq_true, if_true, hrun]
      rfl

/-- A table that was filled while an address had two entries returns the older one. -/
theorem not_newestWins (h : Represents c lru chained)
    (hrev : ∀ armAddr, atAddr c.heap chained armAddr = (atAddr c.heap born armAddr).reverse)
    (hd : ¬ DistinctAddrs c) : ¬ NewestWins c born := by
  rw [h.distinctAddrs_iff, not_forall] at hd
  obtain ⟨armAddr, hlen⟩ := hd
  intro hwins
  obtain ⟨r, c', -, hrun, -⟩ := tcacheLookupInternal_spec h armAddr
  have hfirst := tcacheLookupInternal_first h hrun
  have hnd : (atAddr c.heap chained armAddr).Nodup :=
    (h.perm.nodup_iff.mpr h.list.nodup).filter _
  rw [hrev armAddr] at hfirst hlen hnd
  rw [List.nodup_reverse] at hnd
  match hxs : atAddr c.heap born armAddr with
  | [] => simp [hxs] at hlen
  | [x] => simp [hxs] at hlen
  | x :: y :: xs =>
    rw [hxs] at hfirst hnd
    -- the lookup returns the last of `y :: xs`, the newest is `x`
    rw [List.head?_reverse, List.getLast?_cons_cons, List.getLast?_eq_some_getLast (by simp)]
      at hfirst
    subst hfirst
    have hnew := hwins armAddr _ c' hrun
    rw [← List.head?_filter] at hnew
    change (atAddr c.heap born armAddr).head? = _ at hnew
    rw [hxs, List.head?_cons, Option.some.injEq] at hnew
    apply (List.nodup_cons.mp hnd).1
    rw [hnew]
    exact List.getLast_mem _

theorem mem_bornStates (ops : List Op) (c : Cache) (born : List Ptr) :
    (c, born) ∈ bornStates ops c born := by
  cases ops with
  | nil => exact List.mem_singleton_self _
  | cons op ops => exact List.mem_cons_self

/-- Along a run from chains in order of insertion. -/
theorem bornStates_newest_iff (ops : List Op) (h : Represents c lru chained)
    (ha : Aligned c chained born) :
    (∀ s ∈ bornStates ops c born, NewestWins s.1 s.2) ↔
      ∀ s ∈ stepsOf ops c, s.1.Rehashes s.2 → DistinctAddrs s.2 := by
  induction ops generalizing c lru chained born with
  | nil =>
    simp only [bornStates, stepsOf, List.mem_singleton, forall_eq, List.not_mem_nil,
      false_implies, implies_true, iff_true]
    exact ha.newestWins h
  | cons op ops ih =>
    obtain ⟨answer, c', lru', chained', hexec, hrep, hfollow⟩ := op.exec_follows h ha
    simp only [bornStates, stepsOf, hexec, List.forall_mem_cons]
    rw [and_iff_right (ha.newestWins h)]
    obtain ⟨hre, hal⟩ | ⟨hre, hdata, hrev⟩ := hfollow
    · rw [and_iff_right fun hr ↦ absurd hr hre]
      exact ih hrep hal
    · by_cases hd : DistinctAddrs c
      · have hal : Aligned c' chained' (bornAfter answer c' born) := by
          intro a
          have hlen := hrep.distinctAddrs_iff.mp (hd.congr hdata) a
          rw [hrev a] at hlen ⊢
          rw [List.length_reverse] at hlen
          rcases hxs : atAddr c'.heap (bornAfter answer c' born) a with _ | ⟨x, _ | ⟨y, xs⟩⟩
          · rfl
          · rfl
          · simp [hxs] at hlen
        rw [and_iff_right fun _ ↦ hd]
        exact ih hrep hal
      · have hd' : ¬ DistinctAddrs c' := fun hd' ↦ hd (hd'.congr fun q ↦ (hdata q).symm)
        constructor
        · intro hall
          exact absurd (hall _ (mem_bornStates ops c' _)) (not_newestWins hrep hrev hd')
        · intro hall
          exact absurd (hall.1 hre) hd

/-- A run on a new cache returns, and every lookup at every point of it would return the latest
insertion of its address exactly if no table is filled anew while two entries share one. -/
theorem tcache_newest_wins_iff (size buckets : Nat) (ops : List Op) :
    (∃ answers c, runOps ops (tcacheCreate size buckets) = some (answers, c)) ∧
      ((∀ s ∈ bornStates ops (tcacheCreate size buckets) [], NewestWins s.1 s.2) ↔
        ∀ s ∈ stepsOf ops (tcacheCreate size buckets),
          s.1.Rehashes s.2 → DistinctAddrs s.2) := by
  have hrep := tcacheCreate_represents size buckets
  constructor
  · obtain ⟨answers, c, -, -, hrun, -⟩ := runOps_total ops hrep
    exact ⟨answers, c, hrun⟩
  · exact bornStates_newest_iff ops hrep fun _ ↦ rfl

/-- Two insertions of one address and a resize: the lookup returns the first of them. -/
theorem tcache_newest_loses :
    ¬ ∀ (size buckets : Nat) (ops : List Op),
      ∀ s ∈ bornStates ops (tcacheCreate size buckets) [], NewestWins s.1 s.2 := by
  intro hall
  have hwins := hall 0x200000 1 [.insert 0x1000#64 0x7000#64 16 (.at Entry 1),
    .insert 0x1000#64 0x8000#64 16 (.at Entry 2), .resize 0x100000 true]
  have hlast : (bornStates [.insert 0x1000#64 0x7000#64 16 (.at Entry 1),
      .insert 0x1000#64 0x8000#64 16 (.at Entry 2), .resize 0x100000 true]
      (tcacheCreate 0x200000 1) []).any (fun s ↦
        decide ((tcacheLookupInternal s.1 0x1000#64).map Prod.fst = some (some 1) ∧
          s.2.find? (fun q ↦ (itemOf s.1.heap q).armAddr = 0x1000#64) = some 2)) = true := by
    decide
  obtain ⟨s, hs, hcheck⟩ := List.any_eq_true.mp hlast
  obtain ⟨hlookup, hnewest⟩ := of_decide_eq_true hcheck
  obtain ⟨⟨r, c'⟩, hrun, hr⟩ := Option.map_eq_some_iff.mp hlookup
  obtain rfl : r = some 1 := hr
  have hone := hwins s hs 0x1000#64 1 c' hrun
  rw [hnewest] at hone
  cases hone

end Arm2x86.Tcache
