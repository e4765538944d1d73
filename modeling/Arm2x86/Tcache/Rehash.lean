import Arm2x86.Tcache.Lookup

/-!
# Clearing and resizing a represented cache

The two operations of `modules/arm2x86_tcache.c` that walk the whole table:
`arm2x86_tcache_clear` frees every chain, `arm2x86_tcache_resize` moves every entry to its
chain in a table of another size.
-/

namespace Arm2x86.Tcache

open Links

variable {c : Cache} {lru chained : List Ptr}

/-- Counting one value further adds the elements with that value. -/
private theorem filter_lt_succ_perm {α : Type} (f : α → Nat) (i : Nat) (xs : List α) :
    (xs.filter fun x ↦ f x < i + 1).Perm
      ((xs.filter fun x ↦ f x < i) ++ xs.filter fun x ↦ f x = i) := by
  induction xs with
  | nil => exact List.Perm.nil
  | cons x xs ih =>
    rcases Nat.lt_trichotomy (f x) i with hlt | heq | hgt
    · rw [List.filter_cons_of_pos (by simp; omega), List.filter_cons_of_pos (by simpa using hlt),
        List.filter_cons_of_neg (by simp; omega), List.cons_append]
      exact ih.cons x
    · rw [List.filter_cons_of_pos (by simp; omega), List.filter_cons_of_neg (by simp; omega),
        List.filter_cons_of_pos (by simpa using heq)]
      exact (ih.cons x).trans List.perm_middle.symm
    · rw [List.filter_cons_of_neg (by simp; omega), List.filter_cons_of_neg (by simp; omega),
        List.filter_cons_of_neg (by simp; omega)]
      exact ih

/-- Clearing a chain frees exactly its entries and the code they own. -/
theorem clearChain_spec {h : Heap Entry} {p : Option Ptr} {xs : List Ptr} (c : Cache)
    (hc : Chain (linkOf h Entry.next) p xs) (hd : xs.Nodup) {fuel : Nat}
    (hfuel : xs.length < fuel) (fx : List Effect) :
    ∃ h' fx', clearChain fuel p ({ c with heap := h }, fx) = some ({ c with heap := h' }, fx') ∧
      (∀ q, h'[q]? = if q ∈ xs then none else h[q]?) ∧
      released fx' = released fx ++ ownedCodes h xs := by
  induction xs generalizing h p fuel fx with
  | nil =>
    obtain rfl : p = none := hc
    cases fuel with
    | zero => omega
    | succ fuel => exact ⟨h, fx, rfl, fun q ↦ by simp, (List.append_nil _).symm⟩
  | cons x xs ih =>
    obtain ⟨rfl, r, hr, hxs⟩ := hc
    obtain ⟨e, he, rfl⟩ := Option.map_eq_some_iff.mp hr
    have hnd := List.nodup_cons.mp hd
    cases fuel with
    | zero => simp at hfuel
    | succ fuel =>
      have hchain : Chain (linkOf (h.erase x) Entry.next) e.next xs :=
        Seg.congr hxs fun y hy ↦ by
          have hyx : x ≠ y := fun hxy ↦ hnd.1 (hxy ▸ hy)
          rw [linkOf, Heap.getElem?_erase, if_neg hyx, linkOf]
      obtain ⟨h', fx', hrun, hh', hfx⟩ :=
        ih hchain hnd.2 (by simpa using hfuel) (fx ++ e.release)
      refine ⟨h', fx', ?_, fun q ↦ ?_, ?_⟩
      · simp only [clearChain, he, Option.bind_eq_bind, Option.bind_some]
        exact hrun
      · rw [hh' q, Heap.getElem?_erase]
        by_cases hqx : x = q
        · simp [hqx]
        · simp [hqx, Ne.symm hqx]
      · have hrest : ownedCodes (h.erase x) xs = ownedCodes h xs :=
          ownedCodes_congr fun y hy ↦ by
            have hyx : x ≠ y := fun hxy ↦ hnd.1 (hxy ▸ hy)
            rw [dataOf, Heap.getElem?_erase, if_neg hyx, dataOf]
        rw [hfx, released_append, released_release he, hrest, List.append_assoc,
          ← ownedCodes_append, List.singleton_append]

/-- The state of the clearing loop before round `i`: the chains below `i` are freed with the code
they own and the others are as they were in `c`. -/
def ClearedBelow (c : Cache) (chained : List Ptr) (i : Nat) (s : Cache × List Effect) : Prop :=
  ∃ h' t, s.1 = { c with heap := h', hashTable := t } ∧
    (∀ q : Ptr, h'[q]? = if bucketOf c.heap c.bucketCount q < i then none else c.heap[q]?) ∧
    (∀ j, t j = if j < i then none else c.hashTable j) ∧
    (released s.2).Perm
      (ownedCodes c.heap (chained.filter fun q ↦ bucketOf c.heap c.bucketCount q < i))

private theorem clearBucket_step (h : Represents c lru chained) {i : Nat}
    (hi : i < c.bucketCount) {s : Cache × List Effect} (hs : ClearedBelow c chained i s) :
    ∃ s', clearBucket i s = some s' ∧ ClearedBelow c chained (i + 1) s' := by
  obtain ⟨h', t, hs1, hheap, htable, hfree⟩ := hs
  obtain ⟨c₁, fx⟩ := s
  obtain rfl : c₁ = { c with heap := h', hashTable := t } := hs1
  have hnd : chained.Nodup := h.perm.nodup_iff.mpr h.list.nodup
  set xs := bucket c.heap c.bucketCount chained i with hxs
  have hbucket : ∀ q ∈ xs, bucketOf c.heap c.bucketCount q = i := fun q hq ↦ by
    simpa using (List.mem_filter.mp hq).2
  have hkeep : ∀ q ∈ xs, h'[q]? = c.heap[q]? := fun q hq ↦ by
    rw [hheap q, hbucket q hq, if_neg (Nat.lt_irrefl i)]
  have hti : t i = c.hashTable i := by rw [htable i, if_neg (Nat.lt_irrefl i)]
  have hchain : Chain (linkOf h' Entry.next) (t i) xs := by
    rw [hti]
    exact Seg.congr (h.chains i hi) fun q hq ↦ by rw [linkOf, hkeep q hq, linkOf]
  have halloc : ∀ q ∈ xs, h'[q]?.isSome := fun q hq ↦ allocated_of_chain hchain hq
  have hfuel : xs.length < h'.size + 1 :=
    Nat.lt_succ_of_le (Heap.length_le_size (hnd.filter _) halloc)
  obtain ⟨h'', fx', hrun, hfreed, hfx⟩ :=
    clearChain_spec { c with hashTable := t } hchain (hnd.filter _) hfuel fx
  refine ⟨({ c with heap := h'', hashTable := fun j ↦ if j = i then none else t j }, fx'), ?_,
    h'', fun j ↦ if j = i then none else t j, rfl, fun q ↦ ?_, fun j ↦ ?_, ?_⟩
  · simp only [clearBucket, Option.bind_eq_bind]
    rw [hrun]
    rfl
  · rw [hfreed q, hheap q]
    rcases Nat.lt_trichotomy (bucketOf c.heap c.bucketCount q) i with hlt | heq | hgt
    · have hlt' : bucketOf c.heap c.bucketCount q < i + 1 := Nat.lt_succ_of_lt hlt
      rw [if_pos hlt, if_pos hlt', ite_self]
    · have hlt' : bucketOf c.heap c.bucketCount q < i + 1 := heq ▸ Nat.lt_succ_self i
      rw [if_pos hlt', heq, if_neg (Nat.lt_irrefl i)]
      by_cases hq : q ∈ xs
      · rw [if_pos hq]
      · have hq' : q ∉ lru := fun hm ↦
          hq (List.mem_filter.mpr ⟨h.perm.mem_iff.mpr hm, by simpa using heq⟩)
        rw [← h.allocated q] at hq'
        rw [if_neg hq]
        simpa using hq'
    · have hq : q ∉ xs := fun hm ↦ absurd (hbucket q hm) (Nat.ne_of_gt hgt)
      rw [if_neg hq, if_neg (Nat.not_lt_of_gt hgt), if_neg (by omega)]
  · beta_reduce
    rw [htable j]
    by_cases hj : j = i
    · simp [hj]
    · rw [if_neg hj]
      by_cases hlt : j < i
      · rw [if_pos hlt, if_pos (Nat.lt_succ_of_lt hlt)]
      · rw [if_neg hlt, if_neg (by omega)]
  · -- the code of the chains below and of this one
    have hcodes : ownedCodes h' xs = ownedCodes c.heap xs :=
      ownedCodes_congr fun q hq ↦ by rw [dataOf, hkeep q hq, dataOf]
    have hperm := filter_lt_succ_perm (bucketOf c.heap c.bucketCount) i chained
    rw [hfx, hcodes]
    refine (hfree.append_right _).trans ?_
    rw [← ownedCodes_append]
    exact ((hperm.filter _).map _).symm

/-- Clearing leaves an empty cache of the same size and bucket count, and releases the code its
entries own. -/
theorem tcacheClear_spec (h : Represents c lru chained) :
    ∃ c' fx, tcacheClear c = some (c', fx) ∧ Represents c' [] [] ∧
      c'.totalSize = c.totalSize ∧ (released fx).Perm (ownedCodes c.heap lru) := by
  have hstart : ClearedBelow c chained 0 (c, []) :=
    ⟨c.heap, c.hashTable, rfl, fun q ↦ by simp, fun j ↦ by simp, by simp [released, ownedCodes]⟩
  obtain ⟨⟨c₁, fx⟩, hloop, h', t, hc₁, hheap, htable, hfree⟩ :=
    forRange_invariant (ClearedBelow c chained) hstart fun i hi s hs ↦ clearBucket_step h hi hs
  obtain rfl : c₁ = { c with heap := h', hashTable := t } := hc₁
  have hempty : ∀ q : Ptr, h'[q]? = none := fun q ↦ by
    rw [hheap q, if_pos (h.bucketOf_lt q)]
  refine ⟨{ c with
      heap := h'
      hashTable := t
      lruHead := none
      lruTail := none
      usedSize := 0
      entryCount := 0
      lookupCount := 0
      missCount := 0 }, fx, ?_, ⟨DList.nil, fun i hi ↦ ?_, List.Perm.nil, fun q ↦ ?_, by simp,
    fun q e he ↦ ?_, fun q e he ↦ ?_, h.nonempty, rfl, rfl⟩, rfl, ?_⟩
  · simp only [tcacheClear, hloop, Option.bind_eq_bind, Option.bind_some]
    rfl
  · change Chain _ (t i) []
    rw [htable i, if_pos hi]
    rfl
  · change (h'[q]?).isSome ↔ q ∈ []
    simp [hempty q]
  · change h'[q]? = some e at he
    rw [hempty q] at he
    cases he
  · change h'[q]? = some e at he
    rw [hempty q] at he
    cases he
  · have hall : chained.filter (fun q ↦ bucketOf c.heap c.bucketCount q < c.bucketCount) = chained :=
      List.filter_eq_self.mpr fun q _ ↦ decide_eq_true (h.bucketOf_lt q)
    rw [hall] at hfree
    exact hfree.trans ((h.perm.filter _).map _)

/-- The list links of two heaps agree. -/
def SameList (h h' : Heap Entry) : Prop :=
  ∀ q, linkOf h' Entry.lruNext q = linkOf h Entry.lruNext q ∧
    linkOf h' Entry.lruPrev q = linkOf h Entry.lruPrev q

/-- Rehashing a chain moves its entries, last one first, in front of those already moved. -/
theorem rehashChain_spec {h : Heap Entry} {newTable : Nat → Option Ptr} {p : Option Ptr}
    {xs moved : List Ptr} {n : Nat} (hc : Chain (linkOf h Entry.next) p xs)
    (hd : (xs ++ moved).Nodup)
    (hnew : ∀ j, Chain (linkOf h Entry.next) (newTable j) (bucket h n moved j)) {fuel : Nat}
    (hfuel : xs.length < fuel) :
    ∃ h' newTable', rehashChain n fuel p (h, newTable) = some (h', newTable') ∧
      SameData h h' ∧ SameList h h' ∧
      (∀ q, q ∉ xs → linkOf h' Entry.next q = linkOf h Entry.next q) ∧
      ∀ j, Chain (linkOf h' Entry.next) (newTable' j) (bucket h' n (xs.reverse ++ moved) j) := by
  induction xs generalizing h newTable p moved fuel with
  | nil =>
    obtain rfl : p = none := hc
    cases fuel with
    | zero => omega
    | succ fuel =>
      exact ⟨h, newTable, rfl, fun _ ↦ rfl, fun _ ↦ ⟨rfl, rfl⟩, fun _ _ ↦ rfl, hnew⟩
  | cons x xs ih =>
    obtain ⟨rfl, r, hr, hxs⟩ := hc
    have hx := allocated_of_chain (show Chain _ _ (x :: xs) from ⟨rfl, r, hr, hxs⟩)
      List.mem_cons_self
    obtain ⟨e, he, rfl⟩ := Option.map_eq_some_iff.mp hr
    have hnd := List.nodup_cons.mp hd
    have hne : ∀ y ∈ xs ++ moved, some x ≠ some y := fun y hy hxy ↦
      hnd.1 (Option.some.inj hxy ▸ hy)
    cases fuel with
    | zero => simp at hfuel
    | succ fuel =>
      set b := tcacheHashBuckets e.hash n with hb
      obtain ⟨h1, hup, hw⟩ := update_spec hx (Entry.setNext (newTable b))
      have hdata : SameData h h1 := hw.sameData fun _ ↦ rfl
      have hnext : ∀ q, some x ≠ some q → linkOf h1 Entry.next q = linkOf h Entry.next q :=
        fun q hq ↦ by rw [linkOf, hw.getElem?_ne hq, linkOf]
      have hbx : bucketOf h1 n x = b := by rw [hdata.bucketOf, bucketOf_entry he]
      have hnew1 : ∀ j, Chain (linkOf h1 Entry.next) (if j = b then some x else newTable j)
          (bucket h1 n (x :: moved) j) := by
        intro j
        have hrest := Seg.congr (hnew j) fun y hy ↦
          hnext y (hne y (List.mem_append_right xs (List.mem_of_mem_filter hy)))
        rw [← hdata.bucket n moved j] at hrest
        by_cases hj : j = b
        · have hcons : bucket h1 n (x :: moved) j = x :: bucket h1 n moved j :=
            List.filter_cons_of_pos (by simp [hbx, hj])
          rw [if_pos hj, hcons]
          refine Chain.push hrest ?_ fun _ _ ↦ rfl
          rw [hw.linkOf_set (v := newTable b) (fun _ ↦ rfl) hx, if_pos rfl, hj]
        · have hskip : bucket h1 n (x :: moved) j = bucket h1 n moved j :=
            List.filter_cons_of_neg (by simpa [hbx] using Ne.symm hj)
          rw [if_neg hj, hskip]
          exact hrest
      have hxs1 : Chain (linkOf h1 Entry.next) e.next xs :=
        Seg.congr hxs fun y hy ↦ hnext y (hne y (List.mem_append_left moved hy))
      have hd1 : (xs ++ x :: moved).Nodup := List.nodup_middle.mpr hd
      obtain ⟨h', newTable', hrun, hdata', hlist', hother, hchains⟩ :=
        ih hxs1 hd1 hnew1 (by simpa using hfuel)
      refine ⟨h', newTable', ?_, hdata.trans hdata', fun q ↦ ?_, fun q hq ↦ ?_, fun j ↦ ?_⟩
      · simp only [rehashChain, he, Option.bind_eq_bind, Option.bind_some]
        rw [← hb, hup, Option.bind_some]
        exact hrun
      · rw [(hlist' q).1, (hlist' q).2, hw.linkOf_eq (fun _ ↦ rfl), hw.linkOf_eq (fun _ ↦ rfl)]
        exact ⟨rfl, rfl⟩
      · rw [List.mem_cons, not_or] at hq
        rw [hother q hq.2, hnext q fun hxq ↦ hq.1 (Option.some.inj hxq).symm]
      · have happ : (x :: xs).reverse ++ moved = xs.reverse ++ x :: moved := by simp
        rw [happ]
        exact hchains j

/-- The state of the rehashing loop before round `i`: the entries of the chains below `i` are
in the new table, those of one address in reverse order, and the other chains are as they were
in `c`. -/
def RehashedBelow (c : Cache) (chained : List Ptr) (n i : Nat)
    (s : Heap Entry × (Nat → Option Ptr)) : Prop :=
  SameData c.heap s.1 ∧ SameList c.heap s.1 ∧
    (∀ q, i ≤ bucketOf c.heap c.bucketCount q →
      linkOf s.1 Entry.next q = linkOf c.heap Entry.next q) ∧
    ∃ moved : List Ptr, moved.Nodup ∧
      (∀ q, q ∈ moved ↔ q ∈ chained ∧ bucketOf c.heap c.bucketCount q < i) ∧
      (∀ armAddr, tcacheHashBuckets (tcacheHash armAddr) c.bucketCount < i →
        atAddr c.heap moved armAddr = (atAddr c.heap chained armAddr).reverse) ∧
      ∀ j, Chain (linkOf s.1 Entry.next) (s.2 j) (bucket s.1 n moved j)

/-- The entries of an address are all in the chain of its bucket. -/
theorem Represents.atAddr_bucket (h : Represents c lru chained) (armAddr : Addr) (i : Nat) :
    atAddr c.heap (bucket c.heap c.bucketCount chained i) armAddr =
      if tcacheHashBuckets (tcacheHash armAddr) c.bucketCount = i then
        atAddr c.heap chained armAddr
      else [] := by
  have hbucket : ∀ q ∈ chained, (itemOf c.heap q).armAddr = armAddr →
      bucketOf c.heap c.bucketCount q = tcacheHashBuckets (tcacheHash armAddr) c.bucketCount := by
    intro q hq hqa
    rw [h.bucketOf_eq (h.perm.mem_iff.mp hq), hqa]
  rw [atAddr, bucket, List.filter_filter, atAddr]
  split
  · next hi =>
    refine List.filter_congr fun q hq ↦ ?_
    by_cases hqa : (itemOf c.heap q).armAddr = armAddr
    · simp [hqa, hbucket q hq hqa, hi]
    · simp [hqa]
  · next hi =>
    refine List.filter_eq_nil_iff.mpr fun q hq hqi ↦ hi ?_
    simp only [Bool.and_eq_true, decide_eq_true_eq] at hqi
    rw [← hbucket q hq hqi.1, hqi.2]

private theorem rehash_step (h : Represents c lru chained) {n i : Nat} (hi : i < c.bucketCount)
    {s : Heap Entry × (Nat → Option Ptr)} (hs : RehashedBelow c chained n i s) :
    ∃ s', rehashChain n (s.1.size + 1) (c.hashTable i) s = some s' ∧
      RehashedBelow c chained n (i + 1) s' := by
  obtain ⟨h', newTable⟩ := s
  obtain ⟨hdata, hlist, hkeep, moved, hmnd, hmem, hrev, hnew⟩ := hs
  have hnd : chained.Nodup := h.perm.nodup_iff.mpr h.list.nodup
  set xs := bucket c.heap c.bucketCount chained i with hxs
  have hin : ∀ q, q ∈ xs ↔ q ∈ chained ∧ bucketOf c.heap c.bucketCount q = i := fun q ↦ by
    rw [hxs, bucket, List.mem_filter, decide_eq_true_eq]
  have hchain : Chain (linkOf h' Entry.next) (c.hashTable i) xs :=
    Seg.congr (h.chains i hi) fun q hq ↦ hkeep q (Nat.le_of_eq ((hin q).mp hq).2.symm)
  have hdisj : (xs ++ moved).Nodup := by
    refine List.Nodup.append (hnd.filter _) hmnd fun q hq hq' ↦ ?_
    exact absurd ((hin q).mp hq).2 (Nat.ne_of_lt ((hmem q).mp hq').2)
  have hfuel : xs.length < h'.size + 1 :=
    Nat.lt_succ_of_le (Heap.length_le_size (hnd.filter _) fun q hq ↦ allocated_of_chain hchain hq)
  obtain ⟨h'', newTable', hrun, hdata', hlist', hother, hchains⟩ :=
    rehashChain_spec hchain hdisj hnew hfuel
  refine ⟨(h'', newTable'), hrun, hdata.trans hdata', fun q ↦ ?_, fun q hq ↦ ?_,
    xs.reverse ++ moved, ?_, fun q ↦ ?_, fun a ha ↦ ?_, hchains⟩
  · exact ⟨(hlist' q).1.trans (hlist q).1, (hlist' q).2.trans (hlist q).2⟩
  · have hqx : q ∉ xs := fun hm ↦ absurd ((hin q).mp hm).2 (Nat.ne_of_gt hq)
    rw [hother q hqx, hkeep q (Nat.le_of_succ_le hq)]
  · exact ((List.reverse_perm xs).append_right moved).nodup_iff.mpr hdisj
  · rw [List.mem_append, List.mem_reverse, hin q, hmem q, Nat.lt_succ_iff_lt_or_eq]
    tauto
  · have hxa := h.atAddr_bucket a i
    have happ : atAddr c.heap (xs.reverse ++ moved) a =
        (atAddr c.heap xs a).reverse ++ atAddr c.heap moved a := by
      rw [atAddr, List.filter_append, List.filter_reverse]
      rfl
    rw [happ, hxs, hxa]
    rcases Nat.lt_succ_iff_lt_or_eq.mp ha with hlt | heq
    · rw [if_neg (Nat.ne_of_lt hlt), List.reverse_nil, List.nil_append, hrev a hlt]
    · have hnone : atAddr c.heap moved a = [] := by
        refine List.filter_eq_nil_iff.mpr fun q hq hqa ↦ ?_
        obtain ⟨hqc, hqi⟩ := (hmem q).mp hq
        rw [h.bucketOf_eq (h.perm.mem_iff.mp hqc), of_decide_eq_true hqa] at hqi
        exact absurd heq (Nat.ne_of_lt hqi)
      rw [if_pos heq, hnone, List.append_nil]

/-- Resizing keeps the list and its blocks; only the table, the bucket count and the bound
change. When a new table is filled, the entries of one address change their order in it. -/
theorem tcacheResize_spec (h : Represents c lru chained) (newSize : Nat) (alloc : Bool) :
    ∃ st c' chained', tcacheResize c newSize alloc = some (st, c') ∧
      Represents c' lru chained' ∧ SameData c.heap c'.heap ∧
      ((st = .errMemory ∧ c' = c) ∨ (st = .ok ∧ c'.totalSize = clampSize newSize)) ∧
      if alloc = true ∧ clampSize newSize ≠ c.totalSize then
        ∀ armAddr, atAddr c.heap chained' armAddr = (atAddr c.heap chained armAddr).reverse
      else chained' = chained := by
  by_cases heq : clampSize newSize = c.totalSize
  · refine ⟨.ok, c, chained, ?_, h, fun _ ↦ rfl, .inr ⟨rfl, heq.symm⟩, ?_⟩
    · rw [tcacheResize, if_pos heq]
    · rw [if_neg fun hre ↦ hre.2 heq]
  cases alloc with
  | false =>
    refine ⟨.errMemory, c, chained, ?_, h, fun _ ↦ rfl, .inl ⟨rfl, rfl⟩, ?_⟩
    · rw [tcacheResize, if_neg heq]
      rfl
    · rw [if_neg fun hre ↦ Bool.false_ne_true hre.1]
  | true =>
    have hold : (if c.bucketCount = 0 then hashBuckets else c.bucketCount) = c.bucketCount :=
      if_neg (Nat.ne_of_gt h.nonempty)
    set n := if clampSize newSize / 8 = 0 then hashBuckets else clampSize newSize / 8 with hn
    have hpos : 0 < n := by
      rw [hn]
      split
      · decide
      · omega
    have hstart : RehashedBelow c chained n 0 (c.heap, fun _ ↦ none) :=
      ⟨fun _ ↦ rfl, fun _ ↦ ⟨rfl, rfl⟩, fun _ _ ↦ rfl, [], List.nodup_nil, by simp,
        by simp, fun _ ↦ rfl⟩
    obtain ⟨⟨h', newTable⟩, hloop, hdata, hlist, -, moved, hmnd, hmem, hrev, hchains⟩ :=
      forRange_invariant (RehashedBelow c chained n) hstart fun i hi s hs ↦ rehash_step h hi hs
    have hperm : moved.Perm lru := by
      refine (List.perm_ext_iff_of_nodup hmnd h.list.nodup).mpr fun q ↦ ?_
      rw [hmem q, h.perm.mem_iff]
      exact and_iff_left (h.bucketOf_lt q)
    refine ⟨.ok, { c with
        heap := h'
        hashTable := newTable
        totalSize := clampSize newSize
        bucketCount := n }, moved, ?_, ?_, hdata, .inr ⟨rfl, rfl⟩, ?_⟩
    · simp only [tcacheResize, if_neg heq, if_true, hold]
      rw [← hn, rehash, hloop]
      rfl
    · refine ⟨h.list.congr (fun y _ ↦ (hlist y).1) fun y _ ↦ (hlist y).2,
        fun i _ ↦ hchains i, hperm, fun q ↦ ?_, h.address,
        fun _ _ he ↦ hashed_of_sameData hdata h.hashed he,
        fun _ _ he ↦ unlocked_of_sameData hdata h.unlocked he, hpos, h.count, ?_⟩
      · rw [← h.allocated q, ← hdata.isSome]
      · exact h.used.trans (congrArg (bytes · % 2 ^ 64) (hdata.recency lru).symm)
    · rw [if_pos ⟨rfl, heq⟩]
      exact fun armAddr ↦ hrev armAddr (Nat.mod_lt _ h.nonempty)

end Arm2x86.Tcache
