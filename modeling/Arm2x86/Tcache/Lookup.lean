import Arm2x86.Tcache.Representation

/-!
# Lookups of a represented cache

`tcache_lookup_internal` and the relinking it does, described by the change of the list. Like
every operation lemma of the cache, the result states that the function returns: no null or
dangling pointer is followed and no walk exceeds the heap.
-/

namespace Arm2x86.Tcache

open Links

variable {c : Cache} {lru chained : List Ptr}

/-- Distinct nonzero words leave room for one more in a `size_t` counter. -/
theorem length_lt_of_addresses {xs : List Ptr} (hd : xs.Nodup)
    (ha : ∀ p ∈ xs, 0 < p ∧ p < 2 ^ 64) : xs.length < 2 ^ 64 := by
  have hd0 : (0 :: xs).Nodup :=
    List.nodup_cons.mpr ⟨fun hm ↦ absurd (ha 0 hm).1 (Nat.lt_irrefl 0), hd⟩
  refine length_le_of_nodup_lt hd0 fun p hp ↦ ?_
  rcases List.mem_cons.mp hp with rfl | hp
  · decide
  · exact (ha p hp).2

namespace Represents

/-- Every listed entry is allocated. -/
theorem exists_entry (h : Represents c lru chained) {p : Ptr} (hp : p ∈ lru) :
    ∃ e, c.heap[p]? = some e :=
  Option.isSome_iff_exists.mp ((h.allocated p).mpr hp)

/-- A chain is never longer than the heap. -/
theorem length_bucket_le (h : Represents c lru chained) (i : Nat) :
    (bucket c.heap c.bucketCount chained i).length ≤ c.heap.size := by
  have hd : chained.Nodup := h.perm.nodup_iff.mpr h.list.nodup
  refine Heap.length_le_size (hd.filter _) fun p hp ↦ ?_
  exact (h.allocated p).mpr (h.perm.mem_iff.mp (List.mem_of_mem_filter hp))

/-- The bucket of an entry is the one its address hashes to. -/
theorem bucketOf_eq (h : Represents c lru chained) {p : Ptr} (hp : p ∈ lru) :
    bucketOf c.heap c.bucketCount p =
      tcacheHashBuckets (tcacheHash (itemOf c.heap p).armAddr) c.bucketCount := by
  obtain ⟨e, he⟩ := h.exists_entry hp
  rw [bucketOf_entry he, itemOf_entry he, h.hashed p e he]
  rfl

theorem bucketOf_lt (h : Represents c lru chained) (p : Ptr) :
    bucketOf c.heap c.bucketCount p < c.bucketCount := by
  unfold bucketOf
  cases dataOf c.heap p with
  | none => exact h.nonempty
  | some d => exact Nat.mod_lt _ h.nonempty

end Represents

/-- The walk along a chain finds the first entry with the address. -/
theorem findEntry_eq {heap : Heap Entry} (armAddr : Addr) {p : Option Ptr} {xs : List Ptr}
    (hc : Chain (linkOf heap Entry.next) p xs) {fuel : Nat} (hfuel : xs.length < fuel) :
    findEntry heap armAddr fuel p =
      some (xs.find? fun q ↦ (itemOf heap q).armAddr = armAddr) := by
  induction xs generalizing p fuel with
  | nil =>
    obtain rfl : p = none := hc
    cases fuel with
    | zero => omega
    | succ fuel => rfl
  | cons x xs ih =>
    obtain ⟨rfl, q, hq, hxs⟩ := hc
    cases fuel with
    | zero => simp at hfuel
    | succ fuel =>
      obtain ⟨e, he, rfl⟩ := Option.map_eq_some_iff.mp hq
      rw [findEntry, he, List.find?_cons, itemOf_entry he]
      simp only [Option.bind_eq_bind, Option.bind_some, Entry.item]
      by_cases ha : e.armAddr = armAddr
      · simp [ha]
      · simp only [ha, if_false, decide_false]
        exact ih hxs (by simpa using hfuel)

/-- The hot flag does not touch the other flags. -/
theorem hasFlag_or_hot (flags : BitVec 16) {f : BitVec 16} (hf : flagHot &&& f = 0#16) :
    hasFlag (flags ||| flagHot) f = hasFlag flags f := by
  have hmask : (flags ||| flagHot) &&& f = flags &&& f := by
    rw [BitVec.and_or_distrib_right, hf, BitVec.or_zero]
  rw [hasFlag, hmask, hasFlag]

/-- Counting a hit keeps the data of the entry. -/
theorem Entry.markUsed_data (e : Entry) : e.markUsed.data = e.data := by
  simp only [Entry.markUsed]
  split
  · simp only [Entry.data, Entry.item, hasFlag_or_hot e.flags (f := flagLocked) (by decide),
      hasFlag_or_hot e.flags (f := flagOwned) (by decide)]
  · rfl

@[simp] theorem Entry.markUsed_next (e : Entry) : e.markUsed.next = e.next := by
  simp only [Entry.markUsed]
  split <;> rfl

@[simp] theorem Entry.markUsed_lruNext (e : Entry) : e.markUsed.lruNext = e.lruNext := by
  simp only [Entry.markUsed]
  split <;> rfl

@[simp] theorem Entry.markUsed_lruPrev (e : Entry) : e.markUsed.lruPrev = e.lruPrev := by
  simp only [Entry.markUsed]
  split <;> rfl

/-- The three writes that link an entry in front of the list. -/
theorem list_push {h h1 h2 h3 : Heap Entry} {p : Ptr} {xs : List Ptr}
    {head tail tail' : Option Ptr}
    (hl : DList (linkOf h Entry.lruNext) (linkOf h Entry.lruPrev) head tail xs)
    (halloc : ∀ y ∈ xs, h[y]?.isSome) (hp : h[p]?.isSome) (hpx : p ∉ xs)
    (hw1 : Written h h1 (some p) (Entry.setLruPrev none))
    (hw2 : Written h1 h2 (some p) (Entry.setLruNext head))
    (hw3 : Written h2 h3 head (Entry.setLruPrev (some p)))
    (htail : tail' = if tail = none then some p else tail) :
    DList (linkOf h3 Entry.lruNext) (linkOf h3 Entry.lruPrev) (some p) tail' (p :: xs) := by
  have hne : ∀ y ∈ xs, some p ≠ some y := by
    rintro y hy hpy
    obtain rfl : p = y := by simpa using hpy
    exact hpx hy
  have hhead : head ≠ some p := fun hh ↦ by
    rw [hl.head_eq] at hh
    exact hpx (List.mem_of_head? hh)
  have hp1 : h1[p]?.isSome := by rw [hw1.isSome]; exact hp
  have hp2 : h2[p]?.isSome := by rw [hw2.isSome]; exact hp1
  refine hl.push hpx htail ?_ ?_ (fun y hy ↦ ?_) fun y hy ↦ ?_
  · rw [hw3.linkOf_eq (fun _ ↦ rfl), hw2.linkOf_set (fun _ ↦ rfl) hp1, if_pos rfl]
  · rw [hw3.linkOf_set (fun _ ↦ rfl) hp2, if_neg hhead, hw2.linkOf_eq (fun _ ↦ rfl),
      hw1.linkOf_set (fun _ ↦ rfl) hp, if_pos rfl]
  · have hy1 : h1[y]?.isSome := by rw [hw1.isSome]; exact halloc y hy
    rw [hw3.linkOf_eq (fun _ ↦ rfl), hw2.linkOf_set (fun _ ↦ rfl) hy1, if_neg (hne y hy),
      hw1.linkOf_eq (fun _ ↦ rfl)]
  · have hy2 : h2[y]?.isSome := by rw [hw2.isSome, hw1.isSome]; exact halloc y hy
    rw [hw3.linkOf_set (fun _ ↦ rfl) hy2, hw2.linkOf_eq (fun _ ↦ rfl),
      hw1.linkOf_set (fun _ ↦ rfl) (halloc y hy), if_neg (hne y hy)]

/-- Moving an entry that is not the first one to the front. -/
theorem moveToFront_spec {xs ys : List Ptr} {p : Ptr} (h : Represents c (xs ++ p :: ys) chained)
    (hne : xs ≠ []) :
    ∃ c', moveToFront c p = some c' ∧ Represents c' (p :: (xs ++ ys)) chained ∧
      SameData c.heap c'.heap ∧ c'.totalSize = c.totalSize := by
  obtain ⟨e, he⟩ := h.exists_entry (p := p) (by simp)
  have hprev : e.lruPrev = xs.getLast? := by
    simpa [linkOf, he] using h.list.prev_eq
  have hnext : e.lruNext = ys.head? := by
    simpa [linkOf, he] using h.list.next_eq
  have hnd := List.nodup_cons.mp (List.nodup_middle.mp h.list.nodup)
  have halloc : ∀ y ∈ xs ++ ys, c.heap[y]?.isSome := fun y hy ↦
    (h.allocated y).mpr (by simp only [List.mem_append, List.mem_cons] at hy ⊢; tauto)
  have hhead : c.lruHead = xs.head? := by
    rw [h.list.head_eq, List.head?_append]
    cases xs with
    | nil => exact absurd rfl hne
    | cons x xs => rfl
  have hlastmem : ∀ y, xs.getLast? = some y → y ∈ xs ++ ys := fun y hy ↦
    List.mem_append_left ys (List.mem_of_getLast? hy)
  have hfirstmem : ∀ y, ys.head? = some y → y ∈ xs ++ ys := fun y hy ↦
    List.mem_append_right xs (List.mem_of_head? hy)
  have hheadmem : ∀ y, xs.head? = some y → y ∈ xs ++ ys := fun y hy ↦
    List.mem_append_left ys (List.mem_of_head? hy)
  have hlastne : xs.getLast? ≠ some p := fun hp ↦ hnd.1 (hlastmem p hp)
  have hfirstne : ys.head? ≠ some p := fun hp ↦ hnd.1 (hfirstmem p hp)
  have hheadne : xs.head? ≠ some p := fun hp ↦ hnd.1 (hheadmem p hp)
  -- the two writes that join the neighbours
  obtain ⟨h1, hc1, hw1⟩ := Cache.updateIf_spec (c := c) (p := xs.getLast?)
    (fun y hy ↦ halloc y (hlastmem y hy)) (Entry.setLruNext ys.head?)
  have he1 : h1[p]? = some e := by rw [hw1.getElem?_ne hlastne, he]
  obtain ⟨h2, hc2, hw2⟩ := Cache.updateIf_spec (c := { c with heap := h1 }) (p := ys.head?)
    (fun y hy ↦ by rw [hw1.isSome]; exact halloc y (hfirstmem y hy))
    (Entry.setLruPrev xs.getLast?)
  have he2 : h2[p]? = some e := by rw [hw2.getElem?_ne hfirstne, he1]
  -- the list without the entry
  let tail' := if c.lruTail = some p then xs.getLast? else c.lruTail
  have hlist : DList (linkOf h2 Entry.lruNext) (linkOf h2 Entry.lruPrev) c.lruHead tail'
      (xs ++ ys) := by
    refine h.list.remove ?_ ?_ (fun y hy ↦ ?_) fun y hy ↦ ?_
    · rw [if_neg hne]
    · have htail : c.lruTail = some p ↔ ys = [] := by
        rw [h.list.tail_eq]
        rcases List.eq_nil_or_concat' ys with rfl | ⟨zs, z, rfl⟩
        · simp
        · have hz : z ≠ p := fun hz ↦ hnd.1 (by simp [hz])
          rw [← List.cons_append, ← List.append_assoc, List.getLast?_concat]
          simp [hz]
      simp only [tail', htail]
    · rw [hw2.linkOf_eq (fun _ ↦ rfl), hw1.linkOf_set (v := ys.head?) (fun _ ↦ rfl) (halloc y hy)]
    · have hy1 : h1[y]?.isSome := by rw [hw1.isSome]; exact halloc y hy
      rw [hw2.linkOf_set (v := xs.getLast?) (fun _ ↦ rfl) hy1, hw1.linkOf_eq (fun _ ↦ rfl)]
  -- the three writes at the front
  obtain ⟨h3, hc3, hw3⟩ := Cache.update_spec (c := { c with heap := h2, lruTail := tail' })
    (p := p) (by simp [he2]) (Entry.setLruPrev none)
  have he3 : h3[p]?.isSome := by rw [hw3.isSome]; simp [he2]
  obtain ⟨h4, hc4, hw4⟩ := Cache.update_spec (c := { c with heap := h3, lruTail := tail' })
    (p := p) he3 (Entry.setLruNext c.lruHead)
  obtain ⟨h5, hc5, hw5⟩ := Cache.updateIf_spec (c := { c with heap := h4, lruTail := tail' })
    (p := c.lruHead) (fun y hy ↦ by
      rw [hw4.isSome, hw3.isSome, hw2.isSome, hw1.isSome]
      exact halloc y (hheadmem y (hhead ▸ hy))) (Entry.setLruPrev (some p))
  have hdata : SameData c.heap h5 :=
    ((((hw1.sameData fun _ ↦ rfl).trans (hw2.sameData fun _ ↦ rfl)).trans
      (hw3.sameData fun _ ↦ rfl)).trans (hw4.sameData fun _ ↦ rfl)).trans
      (hw5.sameData fun _ ↦ rfl)
  refine ⟨{ c with heap := h5, lruTail := tail', lruHead := some p }, ?_, ?_, hdata, rfl⟩
  · simp only [moveToFront, he, Option.bind_eq_bind, Option.bind_some, hprev, hnext, hc1, he1,
      hc2, he2]
    rw [hc3, Option.bind_some, hc4, Option.bind_some, hc5]
    rfl
  · refine h.relink hdata (fun q ↦ ?_) rfl rfl rfl rfl ?_ List.perm_middle.symm
    · rw [hw5.linkOf_eq (fun _ ↦ rfl), hw4.linkOf_eq (fun _ ↦ rfl), hw3.linkOf_eq (fun _ ↦ rfl),
        hw2.linkOf_eq (fun _ ↦ rfl), hw1.linkOf_eq (fun _ ↦ rfl)]
    · refine list_push hlist (fun y hy ↦ ?_) (by simp [he2]) hnd.1 hw3 hw4 hw5 ?_
      · rw [hw2.isSome, hw1.isSome]
        exact halloc y hy
      · have : tail' ≠ none := by
          rw [hlist.tail_eq]; simp [hne]
        rw [if_neg this]

/-- A lookup finds an entry exactly when one has the address, and makes it the first of the
list; nothing else moves. -/
theorem tcacheLookupInternal_spec (h : Represents c lru chained) (armAddr : Addr) :
    ∃ r c' lru', tcacheLookupInternal c armAddr = some (r, c') ∧
      Represents c' lru' chained ∧ SameData c.heap c'.heap ∧ c'.totalSize = c.totalSize ∧
      ((r = none ∧ lru' = lru ∧ ∀ p ∈ lru, (itemOf c.heap p).armAddr ≠ armAddr) ∨
        ∃ xs p ys, r = some p ∧ lru = xs ++ p :: ys ∧ lru' = p :: (xs ++ ys) ∧
          (itemOf c.heap p).armAddr = armAddr) := by
  have hidx : tcacheHashBuckets (tcacheHash armAddr) c.bucketCount < c.bucketCount :=
    Nat.mod_lt _ h.nonempty
  have hfind := findEntry_eq armAddr (h.chains _ hidx)
    (Nat.lt_succ_of_le (h.length_bucket_le _))
  have hcount : ∀ n m : Nat, Represents { c with lookupCount := n, missCount := m } lru chained :=
    fun _ _ ↦ h.relink (fun _ ↦ rfl) (fun _ ↦ rfl) rfl rfl rfl rfl h.list (List.Perm.refl lru)
  cases hr : (bucket c.heap c.bucketCount chained
      (tcacheHashBuckets (tcacheHash armAddr) c.bucketCount)).find?
      (fun q ↦ (itemOf c.heap q).armAddr = armAddr) with
  | none =>
    refine ⟨none, _, lru, ?_, hcount (sizeAdd c.lookupCount 1) (sizeAdd c.missCount 1),
      fun _ ↦ rfl, rfl, .inl ⟨rfl, rfl, fun p hp ha ↦ ?_⟩⟩
    · rw [hr] at hfind
      simp only [tcacheLookupInternal, hfind, Option.bind_eq_bind, Option.bind_some]
      rfl
    · have hb := h.bucketOf_eq hp
      rw [ha] at hb
      have hmem : p ∈ bucket c.heap c.bucketCount chained
          (tcacheHashBuckets (tcacheHash armAddr) c.bucketCount) :=
        List.mem_filter.mpr ⟨h.perm.mem_iff.mpr hp, by simp [hb]⟩
      simpa [ha] using List.find?_eq_none.mp hr p hmem
  | some p =>
    have hp : p ∈ lru :=
      h.perm.mem_iff.mp (List.mem_of_mem_filter (List.mem_of_find?_eq_some hr))
    have ha : (itemOf c.heap p).armAddr = armAddr := by simpa using List.find?_some hr
    obtain ⟨xs, ys, rfl⟩ := List.append_of_mem hp
    -- counting the hit
    obtain ⟨h1, hc1, hw1⟩ := Cache.update_spec
      (c := { c with lookupCount := sizeAdd c.lookupCount 1 }) ((h.allocated p).mpr hp)
      Entry.markUsed
    have hdata1 : SameData c.heap h1 := hw1.sameData Entry.markUsed_data
    have hlinks : ∀ (field : Entry → Option Ptr), (∀ e, field e.markUsed = field e) →
        ∀ q, linkOf h1 field q = linkOf c.heap field q := fun field hf q ↦ hw1.linkOf_eq hf q
    have h' : Represents { c with lookupCount := sizeAdd c.lookupCount 1, heap := h1 }
        (xs ++ p :: ys) chained :=
      h.relink hdata1 (hlinks _ Entry.markUsed_next) rfl rfl rfl rfl
        (h.list.congr (fun y _ ↦ hlinks _ Entry.markUsed_lruNext y)
          fun y _ ↦ hlinks _ Entry.markUsed_lruPrev y) (List.Perm.refl _)
    rw [hr] at hfind
    by_cases hfirst : c.lruHead = some p
    · have hxs : xs = [] := by
        have hhead := h.list.head_eq
        cases xs with
        | nil => rfl
        | cons x xs =>
          rw [hfirst] at hhead
          obtain rfl : p = x := by simpa using hhead
          have := h.list.nodup
          simp at this
      subst hxs
      refine ⟨some p, _, p :: ys, ?_, h', hdata1, rfl, .inr ⟨[], p, ys, rfl, rfl, rfl, ha⟩⟩
      simp only [tcacheLookupInternal, hfind, Option.bind_eq_bind, Option.bind_some, hc1]
      rw [if_pos hfirst]
      rfl
    · have hxs : xs ≠ [] := by
        rintro rfl
        exact hfirst (by simpa using h.list.head_eq)
      obtain ⟨c', hc', hrep, hdata', htotal⟩ := moveToFront_spec h' hxs
      refine ⟨some p, c', p :: (xs ++ ys), ?_, hrep, hdata1.trans hdata', htotal,
        .inr ⟨xs, p, ys, rfl, rfl, rfl, ha⟩⟩
      simp only [tcacheLookupInternal, hfind, Option.bind_eq_bind, Option.bind_some, hc1]
      rw [if_neg hfirst, hc']
      rfl

end Arm2x86.Tcache
