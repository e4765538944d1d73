import Arm2x86.Base.Lru
import Arm2x86.Tcache.Lookup

/-!
# Insertions into a represented cache

`arm2x86_tcache_insert_ex`: evictions from the back of the list, each of which takes the entry
out of its chain through a pointer to a pointer, and then a new entry in front of both
structures.
-/

namespace Arm2x86.Tcache

open Links

variable {c : Cache} {lru chained : List Ptr}

/-- The place that points to the node after a prefix of a chain. -/
def slotAfter (slot : Slot) (xs : List Ptr) : Slot :=
  match xs.getLast? with
  | none => slot
  | some a => .next a

/-- The pointer-to-pointer walk stops at the place that points to the entry. -/
theorem findSlot_eq {evict : Ptr} (slot : Slot) {q : Option Ptr} {xs ys : List Ptr}
    (hload : c.load slot = some q)
    (hc : Chain (linkOf c.heap Entry.next) q (xs ++ evict :: ys)) (hx : evict ∉ xs)
    {fuel : Nat} (hfuel : xs.length < fuel) :
    findSlot c evict fuel slot = some (slotAfter slot xs) := by
  induction xs generalizing slot q fuel with
  | nil =>
    obtain ⟨rfl, -⟩ := hc
    cases fuel with
    | zero => omega
    | succ fuel => simp [findSlot, hload, slotAfter]
  | cons x xs ih =>
    obtain ⟨rfl, r, hr, hxs⟩ := hc
    have hne : x ≠ evict := fun hxe ↦ hx (by simp [hxe])
    cases fuel with
    | zero => simp at hfuel
    | succ fuel =>
      have hrec := ih (.next x) hr hxs (fun hm ↦ hx (List.mem_cons_of_mem x hm))
        (Nat.lt_of_succ_lt_succ hfuel)
      simp only [findSlot, hload, Option.bind_eq_bind, Option.bind_some, hne, if_false, hrec,
        slotAfter]
      cases xs with
      | nil => rfl
      | cons y ys => simp [List.getLast?_cons]

private theorem filter_ne_middle {xs ys : List Ptr} {p : Ptr} (h : (xs ++ p :: ys).Nodup) :
    (xs ++ p :: ys).filter (· ≠ p) = xs ++ ys := by
  have hp := (List.nodup_cons.mp (List.nodup_middle.mp h)).1
  rw [List.filter_append, List.filter_cons_of_neg (by simp)]
  have hkeep : ∀ zs : List Ptr, p ∉ zs → zs.filter (· ≠ p) = zs := fun zs hz ↦
    List.filter_eq_self.mpr fun y hy ↦ by
      simp only [ne_eq, decide_not, Bool.not_eq_true', decide_eq_false_iff_not]
      exact fun hyp ↦ hz (hyp ▸ hy)
  rw [hkeep xs fun hm ↦ hp (List.mem_append_left ys hm),
    hkeep ys fun hm ↦ hp (List.mem_append_right xs hm)]

/-- A chain other than an entry's own does without it. -/
private theorem bucket_filter_ne {h : Heap Entry} {n i : Nat} {p : Ptr}
    (hp : bucketOf h n p ≠ i) :
    (bucket h n chained i).filter (· ≠ p) = bucket h n chained i := by
  apply List.filter_eq_self.mpr
  intro y hy
  have hb : bucketOf h n y = i := by simpa using (List.mem_filter.mp hy).2
  simp only [ne_eq, decide_not, Bool.not_eq_true', decide_eq_false_iff_not]
  rintro rfl
  exact hp hb

/-- Taking an entry out of its chain: the walk finds the place that points to it, and the
store there leaves every other chain alone. -/
theorem unchain_spec (h : Represents c lru chained) {p : Ptr} (hp : p ∈ lru) {e : Entry}
    (he : c.heap[p]? = some e) (c₁ : Cache) (hheap : SameData c.heap c₁.heap)
    (hnext : ∀ q, linkOf c₁.heap Entry.next q = linkOf c.heap Entry.next q)
    (htable : c₁.hashTable = c.hashTable) :
    ∃ slot h' t', findSlot c₁ p (c₁.heap.size + 1)
        (.table (tcacheHashBuckets e.hash c.bucketCount)) = some slot ∧
      c₁.load slot = some (some p) ∧
      c₁.store e.next slot = some { c₁ with heap := h', hashTable := t' } ∧
      (∃ o : Option Ptr, o ≠ some p ∧ Written c₁.heap h' o (Entry.setNext e.next)) ∧
      ∀ i < c.bucketCount, Chain (linkOf h' Entry.next) (t' i)
        ((bucket c.heap c.bucketCount chained i).filter (· ≠ p)) := by
  set idx := tcacheHashBuckets e.hash c.bucketCount with hidx
  have hbucket : bucketOf c.heap c.bucketCount p = idx := bucketOf_entry he
  have hnd : chained.Nodup := h.perm.nodup_iff.mpr h.list.nodup
  have hchains : ∀ i < c.bucketCount, Chain (linkOf c₁.heap Entry.next) (c₁.hashTable i)
      (bucket c.heap c.bucketCount chained i) := fun i hi ↦ by
    rw [htable]
    exact Seg.congr (h.chains i hi) fun q _ ↦ hnext q
  have hlt : idx < c.bucketCount := hbucket ▸ h.bucketOf_lt p
  have hmem : p ∈ bucket c.heap c.bucketCount chained idx :=
    List.mem_filter.mpr ⟨h.perm.mem_iff.mpr hp, by simp [hbucket]⟩
  obtain ⟨xs, ys, hsplit⟩ := List.append_of_mem hmem
  have hchain := hchains idx hlt
  have halloc : ∀ y ∈ chained, c₁.heap[y]?.isSome := fun y hy ↦ by
    rw [hheap.isSome]
    exact (h.allocated y).mpr (h.perm.mem_iff.mp hy)
  have hbnd : (bucket c.heap c.bucketCount chained idx).Nodup := hnd.filter _
  have hlen : (bucket c.heap c.bucketCount chained idx).length ≤ c₁.heap.size :=
    Heap.length_le_size hbnd fun y hy ↦ halloc y (List.mem_of_mem_filter hy)
  rw [hsplit] at hchain hlen hbnd
  have hpn := List.nodup_cons.mp (List.nodup_middle.mp hbnd)
  have hpx : p ∉ xs := fun hm ↦ hpn.1 (List.mem_append_left ys hm)
  have heq : e.next = ys.head? := by
    have hf := hchain.field_eq
    rw [hnext p] at hf
    simpa [linkOf, he] using hf
  have hfind : findSlot c₁ p (c₁.heap.size + 1) (.table idx) = some (slotAfter (.table idx) xs) := by
    refine findSlot_eq (.table idx) rfl hchain hpx ?_
    simp only [List.length_append, List.length_cons] at hlen
    omega
  have hother : ∀ i, i ≠ idx → (bucket c.heap c.bucketCount chained i).filter (· ≠ p) =
      bucket c.heap c.bucketCount chained i :=
    fun i hi ↦ bucket_filter_ne fun hb ↦ hi (hb.symm.trans hbucket)
  have hown : (bucket c.heap c.bucketCount chained idx).filter (· ≠ p) = xs ++ ys := by
    rw [hsplit]
    exact filter_ne_middle hbnd
  rcases List.eq_nil_or_concat' xs with rfl | ⟨ws, a, rfl⟩
  · -- the table points to the entry
    refine ⟨.table idx, c₁.heap, fun j ↦ if j = idx then e.next else c₁.hashTable j,
      hfind, ?_, rfl, ⟨none, by simp, fun q ↦ by simp⟩, fun i hi ↦ ?_⟩
    · rw [Cache.load, hchain.eq_head?]
      rfl
    · beta_reduce
      by_cases hi' : i = idx
      · subst hi'
        rw [hown, if_pos rfl, heq]
        exact hchain.remove hpn.2 (by simp) (by simp)
      · rw [hother i hi', if_neg hi']
        exact hchains i hi
  · -- the entry before it points to it
    have hamem : a ∈ bucket c.heap c.bucketCount chained idx := by rw [hsplit]; simp
    have hap : a ≠ p := fun hap ↦ hpx (by simp [hap])
    obtain ⟨h', hc', hw⟩ := Cache.update_spec (c := c₁) (p := a)
      (halloc a (List.mem_of_mem_filter hamem)) (Entry.setNext e.next)
    refine ⟨.next a, h', c₁.hashTable, ?_, ?_, hc', ⟨some a, by simpa using hap, hw⟩,
      fun i hi ↦ ?_⟩
    · rw [hfind]
      simp [slotAfter]
    · have hfield : linkOf c₁.heap Entry.next a = some (some p) := by
        rw [List.append_assoc, List.singleton_append] at hchain
        exact hchain.field_eq
      exact hfield
    · by_cases hi' : i = idx
      · subst hi'
        rw [hown]
        refine hchain.remove hpn.2 (by simp) fun y hy ↦ ?_
        have hy' : y ∈ chained := by
          refine List.mem_of_mem_filter (p := fun q ↦ bucketOf c.heap c.bucketCount q = idx) ?_
          change y ∈ bucket c.heap c.bucketCount chained idx
          rw [hsplit]
          simp only [List.mem_append, List.mem_cons] at hy ⊢
          tauto
        rw [hw.linkOf_set (v := ys.head?) (fun _ ↦ heq) (halloc y hy')]
        simp
      · rw [hother i hi']
        refine Seg.congr (hchains i hi) fun y hy ↦ ?_
        have hya : some a ≠ some y := by
          rintro hay
          obtain rfl : a = y := by simpa using hay
          have hba : bucketOf c.heap c.bucketCount a = idx := by
            simpa using (List.mem_filter.mp hamem).2
          have hbi : bucketOf c.heap c.bucketCount a = i := by
            simpa using (List.mem_filter.mp hy).2
          exact hi' (hbi.symm.trans hba)
        rw [linkOf, hw.getElem?_ne hya, linkOf]

/-- The addresses whose blocks were evicted, in order. -/
def evicted (fx : List Effect) : List Addr :=
  fx.filterMap fun
    | .patchEvictedBlock armAddr => some armAddr
    | _ => none

theorem evicted_patch (armAddr : Addr) (fx : List Effect) :
    evicted (.patchEvictedBlock armAddr :: fx) = armAddr :: evicted fx := rfl

@[simp] theorem evicted_release (e : Entry) : evicted e.release = [] := by
  unfold Entry.release
  split
  · split <;> rfl
  · rfl

/-- The cache without its last entry, whose links the heap `h'` has redirected already. -/
private theorem Represents.evict {xs : List Ptr} {p : Ptr} (h : Represents c (xs ++ [p]) chained)
    {e : Entry} (he : c.heap[p]? = some e) {h' : Heap Entry} {t : Nat → Option Ptr}
    {head tail : Option Ptr} (hdata : SameData c.heap h')
    (hlist : DList (linkOf h' Entry.lruNext) (linkOf h' Entry.lruPrev) head tail xs)
    (hchains : ∀ i < c.bucketCount, Chain (linkOf h' Entry.next) (t i)
      ((bucket c.heap c.bucketCount chained i).filter (· ≠ p))) :
    Represents
      { c with
        heap := h'.erase p
        hashTable := t
        lruHead := head
        lruTail := tail
        usedSize := sizeSub c.usedSize e.x86Size
        entryCount := sizeSub c.entryCount 1 } xs (chained.filter (· ≠ p)) := by
  have hnd := List.nodup_cons.mp (List.nodup_middle.mp h.list.nodup)
  rw [List.append_nil] at hnd
  have hne : ∀ y ∈ xs, y ≠ p := fun y hy hyp ↦ hnd.1 (hyp ▸ hy)
  have hdata' : ∀ q, q ≠ p → dataOf (h'.erase p) q = dataOf c.heap q := by
    intro q hq
    rw [dataOf, Heap.getElem?_erase, if_neg (Ne.symm hq)]
    exact hdata q
  have herase : ∀ (field : Entry → Option Ptr) (q : Ptr), q ≠ p →
      linkOf (h'.erase p) field q = linkOf h' field q := by
    intro field q hq
    rw [linkOf, Heap.getElem?_erase, if_neg (Ne.symm hq), linkOf]
  have hrec : recency (h'.erase p) xs = recency c.heap xs :=
    List.map_congr_left fun y hy ↦ by rw [itemOf, hdata' y (hne y hy), itemOf]
  refine ⟨hlist.congr (fun y hy ↦ herase _ y (hne y hy)) fun y hy ↦ herase _ y (hne y hy),
    fun i hi ↦ ?_, ?_, fun q ↦ ?_, fun q hq ↦ h.address q (by simp [hq]), fun q e' he' ↦ ?_,
    fun q e' he' ↦ ?_, h.nonempty, ?_, ?_⟩
  · have hb : bucket (h'.erase p) c.bucketCount (chained.filter (· ≠ p)) i =
        (bucket c.heap c.bucketCount chained i).filter (· ≠ p) := by
      rw [bucket, bucket, List.filter_comm (p := fun q ↦ decide (q ≠ p))]
      apply List.filter_congr
      intro y hy
      have hyp : y ≠ p := by simpa using (List.mem_filter.mp hy).2
      rw [bucketOf, hdata' y hyp, bucketOf]
    show Chain (linkOf (h'.erase p) Entry.next) (t i)
      (bucket (h'.erase p) c.bucketCount (chained.filter (· ≠ p)) i)
    rw [hb]
    exact Seg.congr (hchains i hi) fun y hy ↦ herase _ y (by simpa using (List.mem_filter.mp hy).2)
  · have hperm := h.perm.filter (· ≠ p)
    rw [filter_ne_middle h.list.nodup, List.append_nil] at hperm
    exact hperm
  · show (h'.erase p)[q]?.isSome ↔ q ∈ xs
    rw [Heap.getElem?_erase]
    by_cases hq : p = q
    · subst hq
      simpa using hnd.1
    · rw [if_neg hq, hdata.isSome, h.allocated q]
      simp [Ne.symm hq]
  · change (h'.erase p)[q]? = some e' at he'
    rw [Heap.getElem?_erase] at he'
    split at he'
    · cases he'
    · exact hashed_of_sameData hdata h.hashed he'
  · change (h'.erase p)[q]? = some e' at he'
    rw [Heap.getElem?_erase] at he'
    split at he'
    · cases he'
    · exact unlocked_of_sameData hdata h.unlocked he'
  · show sizeSub c.entryCount 1 = xs.length
    have hlen := length_lt_of_addresses h.list.nodup h.address
    rw [h.count]
    simp only [List.length_append, List.length_singleton, sizeSub] at hlen ⊢
    omega
  · show sizeSub c.usedSize e.x86Size = bytes (recency (h'.erase p) xs) % 2 ^ 64
    have hbytes : bytes (recency c.heap (xs ++ [p])) = bytes (recency c.heap xs) + e.x86Size := by
      simp [recency, itemOf_entry he, Entry.item]
    rw [hrec, h.used, hbytes, sizeSub_add_mod]

/-- Evicting the last entry of the list. -/
theorem evictEntry_spec {xs : List Ptr} {p : Ptr} (h : Represents c (xs ++ [p]) chained) :
    ∃ c' fx, evictEntry c.bucketCount c p =
        some (c', .patchEvictedBlock (itemOf c.heap p).armAddr :: fx) ∧
      (evicted fx = [] ∧ released fx = ownedCodes c.heap [p]) ∧
      Represents c' xs (chained.filter (· ≠ p)) ∧
      (∀ q, dataOf c'.heap q = if p = q then none else dataOf c.heap q) ∧
      c'.totalSize = c.totalSize ∧ c'.bucketCount = c.bucketCount := by
  obtain ⟨e, he⟩ := h.exists_entry (p := p) (by simp)
  have hprev : e.lruPrev = xs.getLast? := by
    simpa [linkOf, he] using h.list.prev_eq
  have hnd := List.nodup_cons.mp (List.nodup_middle.mp h.list.nodup)
  rw [List.append_nil] at hnd
  have halloc : ∀ y ∈ xs, c.heap[y]?.isSome := fun y hy ↦
    (h.allocated y).mpr (List.mem_append_left _ hy)
  have hlastne : xs.getLast? ≠ some p := fun hp ↦ hnd.1 (List.mem_of_getLast? hp)
  -- the list write
  obtain ⟨h1, hc1, hw1⟩ := Cache.updateIf_spec (c := c) (p := xs.getLast?)
    (fun y hy ↦ halloc y (List.mem_of_getLast? hy)) (Entry.setLruNext none)
  have he1 : h1[p]? = some e := by rw [hw1.getElem?_ne hlastne, he]
  -- the chain write
  let c₁ : Cache := { c with
    heap := h1
    lruTail := xs.getLast?
    lruHead := if xs.getLast? = none then none else c.lruHead }
  obtain ⟨slot, h2, t, hfind, hload, hstore, ⟨o, hop, hw2⟩, hchains⟩ :=
    unchain_spec h (p := p) (by simp) he c₁ (hw1.sameData fun _ ↦ rfl)
      (hw1.linkOf_eq fun _ ↦ rfl) rfl
  have he2 : h2[p]? = some e := by rw [hw2.getElem?_ne hop]; exact he1
  have hdata : SameData c.heap h2 :=
    (hw1.sameData fun _ ↦ rfl).trans (hw2.sameData fun _ ↦ rfl)
  have hdata' : ∀ q, dataOf (h2.erase p) q = if p = q then none else dataOf c.heap q := by
    intro q
    rw [dataOf, Heap.getElem?_erase]
    split
    · rfl
    · exact hdata q
  refine ⟨{ c₁ with
      heap := h2.erase p
      hashTable := t
      usedSize := sizeSub c.usedSize e.x86Size
      entryCount := sizeSub c.entryCount 1 }, e.release, ?_,
    ⟨evicted_release e, released_release he⟩, ?_, hdata', rfl, rfl⟩
  · simp only [evictEntry, he, Option.bind_eq_bind, Option.bind_some, hprev, hc1, he1]
    change (findSlot c₁ p (c₁.heap.size + 1) _).bind _ = _
    rw [hfind, Option.bind_some]
    change ((c₁.load slot).bind _) = _
    rw [hload, Option.bind_some]
    change (c₁.store e.next slot).bind _ = _
    rw [hstore, Option.bind_some]
    change (h2[p]?).bind _ = _
    rw [he2, itemOf_entry he]
    rfl
  · have hlist : DList (linkOf h2 Entry.lruNext) (linkOf h2 Entry.lruPrev) c₁.lruHead
        c₁.lruTail (xs ++ []) := by
      refine h.list.remove ?_ rfl (fun y hy ↦ ?_) fun y hy ↦ ?_
      · simp only [c₁, List.getLast?_eq_none_iff]
        split <;> rfl
      · rw [List.append_nil] at hy
        rw [hw2.linkOf_eq (fun _ ↦ rfl),
          hw1.linkOf_set (v := none) (fun _ ↦ rfl) (halloc y hy)]
        rfl
      · rw [hw2.linkOf_eq (fun _ ↦ rfl), hw1.linkOf_eq (fun _ ↦ rfl)]
        simp
    rw [List.append_nil] at hlist
    exact h.evict he hdata hlist hchains

/-- Whether the blocks leave room for `x86Size` more bytes, in `size_t` arithmetic. -/
def fits (totalSize x86Size : Nat) (items : List Item) : Bool :=
  sizeAdd (bytes items % 2 ^ 64) x86Size ≤ totalSize

/-- The chains hold nothing but the entries of the list. -/
theorem Represents.filter_mem_eq (h : Represents c lru chained) :
    chained.filter (· ∈ lru) = chained :=
  List.filter_eq_self.mpr fun _ hq ↦ decide_eq_true (h.perm.mem_iff.mp hq)

/-- The eviction loop drops the shortest suffix of the list after which there is room. -/
theorem evictLoop_spec (h : Represents c lru chained) (x86Size : Nat) {fuel : Nat}
    (hfuel : lru.length < fuel) :
    ∃ c' fx kept dropped, evictLoop c.bucketCount x86Size fuel c = some (c', fx) ∧
      lru = kept ++ dropped ∧ Represents c' kept (chained.filter (· ∈ kept)) ∧
      (∀ q ∈ kept, dataOf c'.heap q = dataOf c.heap q) ∧
      c'.totalSize = c.totalSize ∧ c'.bucketCount = c.bucketCount ∧
      recency c.heap kept = Lru.survivors (fits c.totalSize x86Size) (recency c.heap lru) ∧
      evicted fx = ((recency c.heap dropped).map Item.armAddr).reverse ∧
      released fx = (ownedCodes c.heap dropped).reverse := by
  induction fuel generalizing c lru chained with
  | zero => omega
  | succ fuel ih =>
    have hfits : fits c.totalSize x86Size (recency c.heap lru) =
        !decide (sizeAdd c.usedSize x86Size > c.totalSize) := by
      rw [fits, h.used, ← decide_not]
      simp
    by_cases hover : sizeAdd c.usedSize x86Size > c.totalSize
    · rcases List.eq_nil_or_concat' lru with rfl | ⟨xs, p, rfl⟩
      · have htail : c.lruTail = none := h.list.tail_eq
        refine ⟨c, [], [], [], ?_, rfl, ?_, fun _ _ ↦ rfl, rfl, rfl, ?_, rfl, rfl⟩
        · rw [evictLoop, if_pos hover, htail]
        · rw [h.filter_mem_eq]
          exact h
        · simp [recency]
      · have htail : c.lruTail = some p := by rw [h.list.tail_eq, List.getLast?_concat]
        obtain ⟨e, he⟩ := h.exists_entry (p := p) (by simp)
        obtain ⟨c₁, fx, hev, ⟨hfx₁, hrel₁⟩, hrep, hdata, htotal, hbuckets⟩ := evictEntry_spec h
        obtain ⟨c', fx', kept, dropped, hloop, hsplit, hrep', hdata', htotal',
          hbuckets', hkept, hfx, hrel⟩ := ih hrep (by simpa using hfuel)
        have hne : ∀ y ∈ xs, p ≠ y := by
          have := (List.nodup_append.mp h.list.nodup).2.2
          exact fun y hy hpy ↦ this y hy p (by simp) hpy.symm
        have hdata₁ : ∀ y ∈ xs, dataOf c₁.heap y = dataOf c.heap y := fun y hy ↦ by
          rw [hdata y, if_neg (hne y hy)]
        have hrec : ∀ ys, (∀ y ∈ ys, y ∈ xs) → recency c₁.heap ys = recency c.heap ys :=
          fun ys hys ↦ List.map_congr_left fun y hy ↦ by
            rw [itemOf, hdata₁ y (hys y hy), itemOf]
        subst hsplit
        have hchained : (chained.filter (· ≠ p)).filter (· ∈ kept) =
            chained.filter (· ∈ kept) := by
          rw [List.filter_filter]
          refine List.filter_congr fun q _ ↦ ?_
          by_cases hq : q ∈ kept
          · simp [hq, Ne.symm (hne q (List.mem_append_left _ hq))]
          · simp [hq]
        rw [hchained] at hrep'
        refine ⟨c', .patchEvictedBlock (itemOf c.heap p).armAddr :: (fx ++ fx'), kept,
          dropped ++ [p], ?_, by simp, hrep', ?_, htotal'.trans htotal,
          hbuckets'.trans hbuckets, ?_, ?_, ?_⟩
        · rw [evictLoop, if_pos hover, htail]
          simp only [he, Option.bind_eq_bind, Option.bind_some, h.unlocked p e he, hev]
          rw [if_neg (by simp), ← hbuckets, hloop]
          rfl
        · intro q hq
          rw [hdata' q hq, hdata₁ q (List.mem_append_left _ hq)]
        · rw [← hrec kept fun y hy ↦ List.mem_append_left _ hy, hkept, htotal,
            hrec _ fun y hy ↦ hy]
          have hno : fits c.totalSize x86Size (recency c.heap (kept ++ dropped ++ [p])) = false := by
            rw [hfits]
            simp [hover]
          have hmap : recency c.heap (kept ++ dropped ++ [p]) =
              recency c.heap (kept ++ dropped) ++ [itemOf c.heap p] := by
            simp [recency]
          rw [hmap] at hno ⊢
          rw [Lru.survivors_concat, hno]
          rfl
        · rw [hrec dropped fun y hy ↦ List.mem_append_right _ hy] at hfx
          simp only [evicted, List.filterMap_cons, List.filterMap_append] at hfx hfx₁ ⊢
          simp [hfx, hfx₁, recency]
        · rw [ownedCodes_congr fun y hy ↦ hdata₁ y (List.mem_append_right _ hy)] at hrel
          show released (fx ++ fx') = _
          rw [released_append, hrel₁, hrel, ownedCodes_append, List.reverse_append]
          exact congrArg (· ++ _) (ownedCodes_singleton_reverse _ _).symm
    · refine ⟨c, [], lru, [], ?_, by simp, ?_, fun _ _ ↦ rfl, rfl, rfl, ?_, rfl, rfl⟩
      · rw [evictLoop, if_neg hover]
      · rw [h.filter_mem_eq]
        exact h
      · rw [Lru.survivors_of_fits]
        simp [hfits, hover]

theorem newEntry_unlocked (armAddr x86Code : Addr) (x86Size : Nat) (owned mmap : Bool) :
    hasFlag (newEntry armAddr x86Code x86Size owned mmap).flags flagLocked = false := by
  simp only [newEntry]
  cases owned <;> cases mmap <;> decide

theorem newEntry_owned (armAddr x86Code : Addr) (x86Size : Nat) (owned mmap : Bool) :
    hasFlag (newEntry armAddr x86Code x86Size owned mmap).flags flagOwned = owned := by
  simp only [newEntry]
  cases owned <;> cases mmap <;> decide

/-- The four writes of `linkEntry`, and the cache behind them. -/
private theorem linkEntry_run {h0 : Heap Entry} {p : Ptr} {e : Entry} (he : h0[p]? = some e)
    (hhead : ∀ y, c.lruHead = some y → h0[y]?.isSome) :
    ∃ h1 h2 h3 h4 : Heap Entry,
      Written h0 h1 (some p)
        (Entry.setNext (c.hashTable (tcacheHashBuckets e.hash c.bucketCount))) ∧
      Written h1 h2 (some p) (Entry.setLruPrev none) ∧
      Written h2 h3 (some p) (Entry.setLruNext c.lruHead) ∧
      Written h3 h4 c.lruHead (Entry.setLruPrev (some p)) ∧
      linkEntry c.bucketCount { c with heap := h0 } p = some
        { c with
          heap := h4
          hashTable := fun j ↦
            if j = tcacheHashBuckets e.hash c.bucketCount then some p else c.hashTable j
          lruHead := some p
          lruTail := if c.lruTail = none then some p else c.lruTail
          usedSize := sizeAdd c.usedSize e.x86Size
          entryCount := sizeAdd c.entryCount 1 } := by
  set idx := tcacheHashBuckets e.hash c.bucketCount with hidx
  let t : Nat → Option Ptr := fun j ↦ if j = idx then some p else c.hashTable j
  obtain ⟨h1, hc1, hw1⟩ := Cache.update_spec (c := { c with heap := h0 }) (p := p)
    (by simp [he]) (Entry.setNext (c.hashTable idx))
  have hp1 : h1[p]?.isSome := by rw [hw1.isSome]; simp [he]
  obtain ⟨h2, hc2, hw2⟩ := Cache.update_spec (c := { c with heap := h1, hashTable := t })
    (p := p) hp1 (Entry.setLruPrev none)
  have hp2 : h2[p]?.isSome := by rw [hw2.isSome]; exact hp1
  obtain ⟨h3, hc3, hw3⟩ := Cache.update_spec (c := { c with heap := h2, hashTable := t })
    (p := p) hp2 (Entry.setLruNext c.lruHead)
  obtain ⟨h4, hc4, hw4⟩ := Cache.updateIf_spec (c := { c with heap := h3, hashTable := t })
    (p := c.lruHead) (fun y hy ↦ by
      rw [hw3.isSome, hw2.isSome, hw1.isSome]
      exact hhead y hy) (Entry.setLruPrev (some p))
  refine ⟨h1, h2, h3, h4, hw1, hw2, hw3, hw4, ?_⟩
  simp only [linkEntry, he, Option.bind_eq_bind, Option.bind_some]
  rw [← hidx, hc1, Option.bind_some]
  change (Cache.update { c with heap := h1, hashTable := t } p _).bind _ = _
  rw [hc2, Option.bind_some]
  change (Cache.update { c with heap := h2, hashTable := t } p _).bind _ = _
  rw [hc3, Option.bind_some]
  change (Cache.updateIf { c with heap := h3, hashTable := t } c.lruHead _).bind _ = _
  rw [hc4]
  rfl

/-- A new entry at the head of its bucket; the other buckets keep their chains. -/
private theorem chain_push {h' : Heap Entry} {p : Ptr} {i idx : Nat}
    (hchain : Chain (linkOf c.heap Entry.next) (c.hashTable i)
      (bucket c.heap c.bucketCount chained i))
    (hdata : ∀ q ∈ chained, dataOf h' q = dataOf c.heap q)
    (hnext : ∀ q ∈ chained, linkOf h' Entry.next q = linkOf c.heap Entry.next q)
    (hbucket : bucketOf h' c.bucketCount p = idx)
    (hp : linkOf h' Entry.next p = some (c.hashTable idx)) :
    Chain (linkOf h' Entry.next) (if i = idx then some p else c.hashTable i)
      (bucket h' c.bucketCount (p :: chained) i) := by
  have hrest : bucket h' c.bucketCount chained i = bucket c.heap c.bucketCount chained i := by
    apply List.filter_congr
    intro q hq
    rw [bucketOf, hdata q hq, bucketOf]
  have hnext' : ∀ q ∈ bucket c.heap c.bucketCount chained i,
      linkOf h' Entry.next q = linkOf c.heap Entry.next q :=
    fun q hq ↦ hnext q (List.mem_of_mem_filter hq)
  by_cases hi : i = idx
  · have hb : bucket h' c.bucketCount (p :: chained) i = p :: bucket h' c.bucketCount chained i :=
      List.filter_cons_of_pos (by simp [hbucket, hi])
    rw [hb, hrest, if_pos hi]
    apply hchain.push _ hnext'
    rw [hp, hi]
  · have hb : bucket h' c.bucketCount (p :: chained) i = bucket h' c.bucketCount chained i :=
      List.filter_cons_of_neg (by simpa [hbucket] using Ne.symm hi)
    rw [hb, hrest, if_neg hi]
    exact Seg.congr hchain hnext'

/-- Linking a new entry puts it first in its chain and in the list. -/
theorem linkEntry_spec (h : Represents c lru chained) {p : Ptr} (hfresh : c.heap.Fresh p)
    (armAddr x86Code : Addr) (x86Size : Nat) (owned mmap : Bool) :
    ∃ c', linkEntry c.bucketCount
        { c with heap := c.heap.insert p (newEntry armAddr x86Code x86Size owned mmap) } p =
        some c' ∧
      Represents c' (p :: lru) (p :: chained) ∧
      (∀ q ∈ lru, dataOf c'.heap q = dataOf c.heap q) ∧
      itemOf c'.heap p = ⟨armAddr, x86Code, x86Size⟩ ∧ ownedOf c'.heap p = owned ∧
      c'.totalSize = c.totalSize := by
  set e := newEntry armAddr x86Code x86Size owned mmap with he
  set h0 := c.heap.insert p e with hh0
  obtain ⟨hpos, hword, hnone⟩ := hfresh
  have hpl : p ∉ lru := fun hp ↦ by simpa [hnone] using (h.allocated p).mpr hp
  have hne : ∀ q ∈ lru, p ≠ q := fun q hq hpq ↦ hpl (hpq ▸ hq)
  have he0 : h0[p]? = some e := by rw [Heap.getElem?_insert, if_pos rfl]
  have hold : ∀ q, p ≠ q → h0[q]? = c.heap[q]? := fun q hq ↦ by
    rw [Heap.getElem?_insert, if_neg hq]
  have halloc0 : ∀ q ∈ lru, h0[q]?.isSome := fun q hq ↦ by
    rw [hold q (hne q hq)]
    exact (h.allocated q).mpr hq
  obtain ⟨h1, h2, h3, h4, hw1, hw2, hw3, hw4, hrun⟩ := linkEntry_run (c := c) he0 fun y hy ↦ by
    rw [h.list.head_eq] at hy
    exact halloc0 y (List.mem_of_head? hy)
  have hp1 : h1[p]?.isSome := by rw [hw1.isSome]; simp [he0]
  have hdata : SameData h0 h4 :=
    (((hw1.sameData fun _ ↦ rfl).trans (hw2.sameData fun _ ↦ rfl)).trans
      (hw3.sameData fun _ ↦ rfl)).trans (hw4.sameData fun _ ↦ rfl)
  have hdata' : ∀ q, p ≠ q → dataOf h4 q = dataOf c.heap q := fun q hq ↦ by
    rw [hdata q, dataOf, hold q hq, dataOf]
  have hnext : ∀ q, linkOf h4 Entry.next q = linkOf h1 Entry.next q := fun q ↦ by
    rw [hw4.linkOf_eq (fun _ ↦ rfl), hw3.linkOf_eq (fun _ ↦ rfl), hw2.linkOf_eq (fun _ ↦ rfl)]
  have hnext' : ∀ q, p ≠ q → linkOf h4 Entry.next q = linkOf c.heap Entry.next q := by
    intro q hq
    rw [hnext q, linkOf, hw1.getElem?_ne (by simpa using hq)]
    change (h0[q]?).map _ = _
    rw [hold q hq, linkOf]
  have hitem : itemOf h4 p = ⟨armAddr, x86Code, x86Size⟩ := by
    rw [hdata.itemOf, itemOf_entry he0]
    rfl
  have hown : ownedOf h4 p = owned := by
    rw [ownedOf, hdata p, ← ownedOf, ownedOf_entry he0]
    exact newEntry_owned armAddr x86Code x86Size owned mmap
  refine ⟨_, hrun, ?_, fun q hq ↦ hdata' q (hne q hq), hitem, hown, rfl⟩
  have haddr : ∀ q ∈ p :: lru, 0 < q ∧ q < 2 ^ 64 := by
    intro q hq
    rcases List.mem_cons.mp hq with rfl | hq
    · exact ⟨hpos, hword⟩
    · exact h.address q hq
  refine ⟨?_, fun i hi ↦ ?_, h.perm.cons p, fun q ↦ ?_, haddr, fun q e' he' ↦ ?_,
    fun q e' he' ↦ ?_, h.nonempty, ?_, ?_⟩
  · refine list_push (h.list.congr (fun y hy ↦ ?_) fun y hy ↦ ?_)
      (fun y hy ↦ ?_) hp1 hpl hw2 hw3 hw4 rfl
    · rw [hw1.linkOf_eq (fun _ ↦ rfl)]
      exact congrArg (Option.map Entry.lruNext) (hold y (hne y hy))
    · rw [hw1.linkOf_eq (fun _ ↦ rfl)]
      exact congrArg (Option.map Entry.lruPrev) (hold y (hne y hy))
    · rw [hw1.isSome]
      exact halloc0 y hy
  · have hchained : ∀ q ∈ chained, p ≠ q := fun q hq ↦ hne q (h.perm.mem_iff.mp hq)
    apply chain_push (h.chains i hi) (fun q hq ↦ hdata' q (hchained q hq))
      fun q hq ↦ hnext' q (hchained q hq)
    · rw [hdata.bucketOf, bucketOf_entry he0]
    · rw [hnext p, hw1.linkOf_set (fun _ ↦ rfl) (by simp [he0]), if_pos rfl]
  · change (h4[q]?).isSome ↔ q ∈ p :: lru
    rw [hdata.isSome]
    by_cases hq : p = q
    · subst hq
      simp [he0]
    · rw [hold q hq, h.allocated q]
      simp [Ne.symm hq]
  · refine hashed_of_sameData hdata (fun r e₀ hr ↦ ?_) he'
    rw [Heap.getElem?_insert] at hr
    split at hr
    · obtain rfl := Option.some.inj hr
      rfl
    · exact h.hashed r e₀ hr
  · refine unlocked_of_sameData hdata (fun r e₀ hr ↦ ?_) he'
    rw [Heap.getElem?_insert] at hr
    split at hr
    · obtain rfl := Option.some.inj hr
      exact newEntry_unlocked armAddr x86Code x86Size owned mmap
    · exact h.unlocked r e₀ hr
  · change sizeAdd c.entryCount 1 = (p :: lru).length
    have hlen := length_lt_of_addresses (List.nodup_cons.mpr ⟨hpl, h.list.nodup⟩) haddr
    rw [List.length_cons] at hlen ⊢
    rw [h.count, sizeAdd, Nat.mod_eq_of_lt hlen]
  · change sizeAdd c.usedSize x86Size = bytes (recency h4 (p :: lru)) % 2 ^ 64
    have hrec : recency h4 lru = recency c.heap lru :=
      List.map_congr_left fun q hq ↦ by rw [itemOf, hdata' q (hne q hq), itemOf]
    have hcons : recency h4 (p :: lru) = ⟨armAddr, x86Code, x86Size⟩ :: recency c.heap lru := by
      rw [← hrec, ← hitem]
      rfl
    rw [hcons, h.used, sizeAdd_mod, bytes_cons]

/-- The cache after an eviction loop and, when there is an address for it, a new entry at the
front of the list and of its chain. -/
theorem tcacheInsertEx_spec (h : Represents c lru chained) (armAddr : Addr) {x86Code : Addr}
    (hcode : x86Code ≠ 0#64) (x86Size : Nat) (owned mmap : Bool) (alloc : Heap.Allocator Entry) :
    ∃ st c' fx kept dropped lru' chained',
      tcacheInsertEx c armAddr x86Code x86Size owned mmap alloc = some (st, c', fx) ∧
      Represents c' lru' chained' ∧ c'.totalSize = c.totalSize ∧
      lru = kept ++ dropped ∧ (∀ q ∈ kept, dataOf c'.heap q = dataOf c.heap q) ∧
      recency c.heap kept = Lru.survivors (fits c.totalSize x86Size) (recency c.heap lru) ∧
      (evicted fx = ((recency c.heap dropped).map Item.armAddr).reverse ∧
        released fx = (ownedCodes c.heap dropped).reverse) ∧
      ((st = .errMemory ∧ lru' = kept ∧ chained' = chained.filter (· ∈ kept)) ∨
        ∃ p, st = .ok ∧ lru' = p :: kept ∧ chained' = p :: chained.filter (· ∈ kept) ∧
          itemOf c'.heap p = ⟨armAddr, x86Code, x86Size⟩ ∧ ownedOf c'.heap p = owned) := by
  have hlen : lru.length < c.heap.size + 1 :=
    Nat.lt_succ_of_le (Heap.length_le_size h.list.nodup fun p hp ↦ (h.allocated p).mpr hp)
  obtain ⟨c₁, fx, kept, dropped, hloop, hsplit, hrep, hdata, htotal, hbuckets, hkept, hfx⟩ :=
    evictLoop_spec h x86Size hlen
  cases ha : alloc.calloc c₁.heap with
  | none =>
    refine ⟨.errMemory, c₁, fx, kept, dropped, kept, _, ?_, hrep, htotal, hsplit, hdata, hkept,
      hfx, .inl ⟨rfl, rfl, rfl⟩⟩
    simp only [tcacheInsertEx, hcode, if_false, hloop, Option.bind_eq_bind, Option.bind_some, ha]
    rfl
  | some p =>
    obtain ⟨c', hlink, hrep', hdata', hitem, hown, htotal'⟩ :=
      linkEntry_spec hrep (alloc.fresh c₁.heap p ha) armAddr x86Code x86Size owned mmap
    refine ⟨.ok, c', fx, kept, dropped, p :: kept, _, ?_, hrep', htotal'.trans htotal, hsplit,
      fun q hq ↦ (hdata' q hq).trans (hdata q hq), hkept, hfx, .inr ⟨p, rfl, rfl, rfl, hitem, hown⟩⟩
    simp only [tcacheInsertEx, hcode, if_false, hloop, Option.bind_eq_bind, Option.bind_some, ha]
    rw [← hbuckets, hlink]
    rfl

/-- Every insertion returns. It names addresses of the cache it meets to be patched, and the
entries it leaves hold blocks of that cache or the new one. -/
theorem tcacheInsertEx_entries (h : Represents c lru chained) (armAddr x86Code : Addr)
    (x86Size : Nat) (owned mmap : Bool) (alloc : Heap.Allocator Entry) :
    ∃ st c' fx lru' chained',
      tcacheInsertEx c armAddr x86Code x86Size owned mmap alloc = some (st, c', fx) ∧
      Represents c' lru' chained' ∧
      (∀ a ∈ evicted fx, ∃ (p : Ptr) (e : Entry), c.heap[p]? = some e ∧ e.armAddr = a) ∧
      ∀ (q : Ptr) (e' : Entry), c'.heap[q]? = some e' →
        e'.item = ⟨armAddr, x86Code, x86Size⟩ ∨
          ∃ (p : Ptr) (e : Entry), c.heap[p]? = some e ∧ e.item = e'.item := by
  by_cases hcode : x86Code = 0#64
  · refine ⟨.errInvalidParam, c, [], lru, chained, ?_, h, nofun, fun q e' he' ↦ ?_⟩
    · rw [tcacheInsertEx, if_pos hcode]
    · exact .inr ⟨q, e', he', rfl⟩
  obtain ⟨st, c', fx, kept, dropped, lru', chained', hrun, hrep, -, hsplit, hdata, -, ⟨hfx, -⟩, hres⟩ :=
    tcacheInsertEx_spec h armAddr hcode x86Size owned mmap alloc
  have hold : ∀ q ∈ kept, ∀ e', c'.heap[q]? = some e' →
      ∃ (p : Ptr) (e : Entry), c.heap[p]? = some e ∧ e.item = e'.item := by
    intro q hq e' he'
    obtain ⟨e, he⟩ := h.exists_entry (p := q) (hsplit ▸ List.mem_append_left _ hq)
    refine ⟨q, e, he, ?_⟩
    rw [← itemOf_entry he, ← itemOf_entry he', itemOf, itemOf, hdata q hq]
  refine ⟨st, c', fx, lru', chained', hrun, hrep, fun a ha ↦ ?_, fun q e' he' ↦ ?_⟩
  · rw [hfx, List.mem_reverse, recency, List.map_map, List.mem_map] at ha
    obtain ⟨p, hp, rfl⟩ := ha
    obtain ⟨e, he⟩ := h.exists_entry (p := p) (hsplit ▸ List.mem_append_right _ hp)
    refine ⟨p, e, he, ?_⟩
    rw [Function.comp_apply, itemOf_entry he]
    rfl
  · have hq : q ∈ lru' := (hrep.allocated q).mp (by simp [he'])
    rcases hres with ⟨-, rfl, -⟩ | ⟨p, -, rfl, -, hitem, -⟩
    · exact .inr (hold q hq e' he')
    · rcases List.mem_cons.mp hq with rfl | hq
      · rw [itemOf_entry he'] at hitem
        exact .inl hitem
      · exact .inr (hold q hq e' he')

end Arm2x86.Tcache
