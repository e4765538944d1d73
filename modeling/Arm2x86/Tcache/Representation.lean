import Arm2x86.Base.Links
import Arm2x86.Tcache.Model

/-!
# Representation of the translation cache

The two structures of a cache described by two lists of entry pointers: `lru` in list order
from the head, and `chained`, whose sublists by bucket are the hash chains. In-place writes
to entries are described by the entry they change, so that the operations can be followed
write by write.
-/

namespace Arm2x86.Tcache

open Links

/-- A pointer field of the entries of a heap. -/
def linkOf (h : Heap Entry) (field : Entry → Option Ptr) (p : Ptr) : Option (Option Ptr) :=
  h[p]?.map field

/-- What an entry says about its translated block. -/
structure Item where
  armAddr : Addr
  x86Code : Addr
  x86Size : Nat
deriving DecidableEq

/-- The block an entry holds. -/
def Entry.item (e : Entry) : Item := ⟨e.armAddr, e.x86Code, e.x86Size⟩

/-- The part of an entry that relinking and hit counting leave alone. -/
def Entry.data (e : Entry) : Item × BitVec 16 × Bool × Bool :=
  (e.item, e.hash, hasFlag e.flags flagLocked, hasFlag e.flags flagOwned)

/-- The data stored at a pointer. -/
def dataOf (h : Heap Entry) (p : Ptr) : Option (Item × BitVec 16 × Bool × Bool) :=
  h[p]?.map Entry.data

/-- The block stored at a pointer; a dangling pointer reads as an empty block. -/
def itemOf (h : Heap Entry) (p : Ptr) : Item :=
  ((dataOf h p).map Prod.fst).getD ⟨0#64, 0#64, 0⟩

/-- Whether the entry at a pointer owns its code. -/
def ownedOf (h : Heap Entry) (p : Ptr) : Bool := ((dataOf h p).map fun d ↦ d.2.2.2).getD false

/-- The code that some entries own. -/
def ownedCodes (h : Heap Entry) (ps : List Ptr) : List Addr :=
  (ps.filter (ownedOf h)).map fun p ↦ (itemOf h p).x86Code

/-- The chain an entry belongs to when the table has `n` buckets. -/
def bucketOf (h : Heap Entry) (n : Nat) (p : Ptr) : Nat :=
  ((dataOf h p).map fun d ↦ tcacheHashBuckets d.2.1 n).getD 0

/-- The entries of `chained` in bucket `i`. -/
def bucket (h : Heap Entry) (n : Nat) (chained : List Ptr) (i : Nat) : List Ptr :=
  chained.filter fun p ↦ bucketOf h n p = i

/-- The entries of a list that translate one address. -/
def atAddr (h : Heap Entry) (xs : List Ptr) (armAddr : Addr) : List Ptr :=
  xs.filter fun p ↦ (itemOf h p).armAddr = armAddr

/-- The blocks of a cache in list order. -/
def recency (h : Heap Entry) (lru : List Ptr) : List Item := lru.map (itemOf h)

/-- The bytes of translated code behind a list of blocks. -/
def bytes (items : List Item) : Nat := (items.map Item.x86Size).sum

@[simp] theorem bytes_nil : bytes [] = 0 := rfl

@[simp] theorem bytes_cons (x : Item) (xs : List Item) :
    bytes (x :: xs) = x.x86Size + bytes xs := by
  simp [bytes]

@[simp] theorem bytes_append (xs ys : List Item) : bytes (xs ++ ys) = bytes xs + bytes ys := by
  simp [bytes]

theorem bytes_perm {xs ys : List Item} (h : xs.Perm ys) : bytes xs = bytes ys :=
  List.Perm.sum_nat (h.map Item.x86Size)

/-- A cache is represented by its list order `lru` and its chain order `chained`. -/
structure Represents (c : Cache) (lru chained : List Ptr) : Prop where
  list : DList (linkOf c.heap Entry.lruNext) (linkOf c.heap Entry.lruPrev)
    c.lruHead c.lruTail lru
  chains : ∀ i < c.bucketCount, Chain (linkOf c.heap Entry.next) (c.hashTable i)
    (bucket c.heap c.bucketCount chained i)
  perm : chained.Perm lru
  allocated : ∀ p : Ptr, c.heap[p]?.isSome ↔ p ∈ lru
  address : ∀ p ∈ lru, 0 < p ∧ p < 2 ^ 64
  hashed : ∀ (p : Ptr) (e : Entry), c.heap[p]? = some e → e.hash = tcacheHash e.armAddr
  unlocked : ∀ (p : Ptr) (e : Entry), c.heap[p]? = some e → hasFlag e.flags flagLocked = false
  nonempty : 0 < c.bucketCount
  count : c.entryCount = lru.length
  used : c.usedSize = bytes (recency c.heap lru) % 2 ^ 64

section heap

variable {h h' : Heap Entry} {p q : Ptr} {n : Nat}

theorem itemOf_entry {e : Entry} (he : h[p]? = some e) : itemOf h p = e.item := by
  simp only [itemOf, dataOf, he, Option.map_some, Option.getD_some, Entry.data]

theorem ownedOf_entry {e : Entry} (he : h[p]? = some e) :
    ownedOf h p = hasFlag e.flags flagOwned := by
  simp only [ownedOf, dataOf, he, Option.map_some, Option.getD_some, Entry.data]

/-- The owned code only depends on the data of the entries. -/
theorem ownedCodes_congr {ps : List Ptr} (hd : ∀ q ∈ ps, dataOf h' q = dataOf h q) :
    ownedCodes h' ps = ownedCodes h ps := by
  have hfilter : ps.filter (ownedOf h') = ps.filter (ownedOf h) :=
    List.filter_congr fun q hq ↦ by rw [ownedOf, hd q hq, ownedOf]
  rw [ownedCodes, hfilter, ownedCodes]
  refine List.map_congr_left fun q hq ↦ ?_
  rw [itemOf, hd q (List.mem_of_mem_filter hq), itemOf]

theorem ownedCodes_append (ps qs : List Ptr) :
    ownedCodes h (ps ++ qs) = ownedCodes h ps ++ ownedCodes h qs := by
  simp only [ownedCodes, List.filter_append, List.map_append]

theorem ownedCodes_singleton_reverse (h : Heap Entry) (p : Ptr) :
    (ownedCodes h [p]).reverse = ownedCodes h [p] := by
  simp only [ownedCodes, List.filter_singleton]
  cases ownedOf h p <;> rfl

/-- The code that was unmapped or freed, in order. -/
def released (fx : List Effect) : List Addr :=
  fx.filterMap fun
    | .patchEvictedBlock _ => none
    | .munmap code _ => some code
    | .free code => some code

theorem released_append (fx fx' : List Effect) :
    released (fx ++ fx') = released fx ++ released fx' := List.filterMap_append

theorem released_release {e : Entry} (he : h[p]? = some e) :
    released e.release = ownedCodes h [p] := by
  simp only [ownedCodes, List.filter_singleton, ownedOf_entry he, Entry.release]
  cases hasFlag e.flags flagOwned
  · rfl
  · cases hasFlag e.flags flagMmap <;> simp [released, itemOf_entry he, Entry.item]

theorem bucketOf_entry {e : Entry} (he : h[p]? = some e) :
    bucketOf h n p = tcacheHashBuckets e.hash n := by
  simp only [bucketOf, dataOf, he, Option.map_some, Option.getD_some, Entry.data]

theorem mem_atAddr {xs : List Ptr} {armAddr : Addr} :
    p ∈ atAddr h xs armAddr ↔ p ∈ xs ∧ (itemOf h p).armAddr = armAddr := by
  rw [atAddr, List.mem_filter, decide_eq_true_eq]

/-- Two heaps that differ in links and hit counts only. -/
def SameData (h h' : Heap Entry) : Prop := ∀ q, dataOf h' q = dataOf h q

theorem SameData.itemOf (hs : SameData h h') (q : Ptr) : itemOf h' q = itemOf h q := by
  simp only [Tcache.itemOf, hs q]

theorem SameData.bucketOf (hs : SameData h h') (n : Nat) (q : Ptr) :
    bucketOf h' n q = bucketOf h n q := by
  simp only [Tcache.bucketOf, hs q]

theorem SameData.bucket (hs : SameData h h') (n : Nat) (xs : List Ptr) (i : Nat) :
    bucket h' n xs i = bucket h n xs i := by
  simp only [Tcache.bucket, hs.bucketOf]

theorem SameData.atAddr (hs : SameData h h') (xs : List Ptr) (armAddr : Addr) :
    atAddr h' xs armAddr = atAddr h xs armAddr := by
  simp only [Tcache.atAddr, hs.itemOf]

theorem SameData.recency (hs : SameData h h') (xs : List Ptr) :
    recency h' xs = recency h xs := by
  rw [Tcache.recency, Tcache.recency, funext hs.itemOf]

theorem SameData.trans {h'' : Heap Entry} (hs : SameData h h') (hs' : SameData h' h'') :
    SameData h h'' := fun q ↦ (hs' q).trans (hs q)

theorem SameData.isSome (hs : SameData h h') (q : Ptr) : h'[q]?.isSome = h[q]?.isSome := by
  have := congrArg Option.isSome (hs q)
  simpa [dataOf] using this

/-- An entry of the second heap has the data of one of the first. -/
theorem SameData.exists_entry (hs : SameData h h') {e' : Entry} (he : h'[q]? = some e') :
    ∃ e, h[q]? = some e ∧ e.data = e'.data := by
  have hq := hs q
  rw [dataOf, dataOf, he, Option.map_some, eq_comm, Option.map_eq_some_iff] at hq
  exact hq

theorem hashed_of_sameData (hs : SameData h h')
    (hh : ∀ (p : Ptr) (e : Entry), h[p]? = some e → e.hash = tcacheHash e.armAddr)
    {e' : Entry} (he : h'[q]? = some e') : e'.hash = tcacheHash e'.armAddr := by
  obtain ⟨e, he, hd⟩ := hs.exists_entry he
  have hq := hh q e he
  simp only [Entry.data, Entry.item, Prod.mk.injEq, Item.mk.injEq] at hd
  rw [← hd.2.1, ← hd.1.1, hq]

theorem unlocked_of_sameData (hs : SameData h h')
    (hh : ∀ (p : Ptr) (e : Entry), h[p]? = some e → hasFlag e.flags flagLocked = false)
    {e' : Entry} (he : h'[q]? = some e') : hasFlag e'.flags flagLocked = false := by
  obtain ⟨e, he, hd⟩ := hs.exists_entry he
  have hq := hh q e he
  simp only [Entry.data, Prod.mk.injEq] at hd
  rw [← hd.2.2.1, hq]

/-- The nodes of a chain of entries are allocated. -/
theorem allocated_of_chain {field : Entry → Option Ptr} {o : Option Ptr} {xs : List Ptr}
    (hc : Chain (linkOf h field) o xs) (hq : q ∈ xs) : h[q]?.isSome := by
  simpa [linkOf] using Seg.allocated hc hq

end heap

/-- The chains survive when the heap keeps its data and its `next` fields. -/
theorem Represents.relink {c c' : Cache} {lru lru' chained : List Ptr} (h : Represents c lru chained)
    (hdata : SameData c.heap c'.heap)
    (hnext : ∀ q, linkOf c'.heap Entry.next q = linkOf c.heap Entry.next q)
    (htable : c'.hashTable = c.hashTable) (hbuckets : c'.bucketCount = c.bucketCount)
    (hcount : c'.entryCount = c.entryCount) (hused : c'.usedSize = c.usedSize)
    (hlist : DList (linkOf c'.heap Entry.lruNext) (linkOf c'.heap Entry.lruPrev)
      c'.lruHead c'.lruTail lru')
    (hperm : lru'.Perm lru) : Represents c' lru' chained where
  list := hlist
  chains i hi := by
    rw [hbuckets] at hi ⊢
    rw [htable, hdata.bucket]
    exact Seg.congr (h.chains i hi) fun q _ ↦ hnext q
  perm := h.perm.trans hperm.symm
  allocated p := by rw [hdata.isSome, h.allocated p, hperm.mem_iff]
  address p hp := h.address p (hperm.mem_iff.mp hp)
  hashed _ _ he := hashed_of_sameData hdata h.hashed he
  unlocked _ _ he := unlocked_of_sameData hdata h.unlocked he
  nonempty := by rw [hbuckets]; exact h.nonempty
  count := by rw [hcount, h.count, hperm.length_eq]
  used := by
    rw [hused, h.used, hdata.recency]
    exact congrArg (· % 2 ^ 64) (bytes_perm (hperm.symm.map (itemOf c.heap)))

section update

variable {c : Cache} {p : Ptr}

/-- The heap after an in-place write. -/
def Written (h h' : Heap Entry) (p : Option Ptr) (f : Entry → Entry) : Prop :=
  ∀ q, h'[q]? = h[q]?.map fun e ↦ if p = some q then f e else e

/-- A write through an allocated pointer changes that entry only. -/
theorem update_spec {h : Heap Entry} {p : Ptr} (hp : h[p]?.isSome) (f : Entry → Entry) :
    ∃ h', h.update p f = some h' ∧ Written h h' (some p) f := by
  obtain ⟨e, he⟩ := Option.isSome_iff_exists.mp hp
  refine ⟨h.insert p (f e), Heap.update_eq_some he f, fun q ↦ ?_⟩
  rw [Heap.getElem?_insert]
  by_cases hq : p = q
  · subst hq
    simp [he]
  · simp [hq]

theorem Cache.update_spec (hp : c.heap[p]?.isSome) (f : Entry → Entry) :
    ∃ h', c.update p f = some { c with heap := h' } ∧ Written c.heap h' (some p) f := by
  obtain ⟨h', hh, hw⟩ := Tcache.update_spec hp f
  exact ⟨h', by rw [Cache.update, hh, Option.map_some], hw⟩

theorem Cache.updateIf_spec {p : Option Ptr} (hp : ∀ q, p = some q → c.heap[q]?.isSome)
    (f : Entry → Entry) :
    ∃ h', c.updateIf p f = some { c with heap := h' } ∧ Written c.heap h' p f := by
  cases p with
  | none => exact ⟨c.heap, rfl, fun q ↦ by simp⟩
  | some p => exact Cache.update_spec (hp p rfl) f

variable {h h' : Heap Entry} {o : Option Ptr} {f : Entry → Entry}

/-- In-place writes allocate and free nothing. -/
theorem Written.isSome (hw : Written h h' o f) (q : Ptr) : h'[q]?.isSome = h[q]?.isSome := by
  rw [hw q, Option.isSome_map]

/-- A write that keeps the data of every entry. -/
theorem Written.sameData (hw : Written h h' o f) (hf : ∀ e, (f e).data = e.data) :
    SameData h h' := by
  intro q
  rw [dataOf, dataOf, hw q, Option.map_map]
  refine Option.map_congr fun e _ ↦ ?_
  simp only [Function.comp]
  split
  · exact hf e
  · rfl

/-- A pointer field after a write. -/
theorem Written.linkOf (hw : Written h h' o f) (field : Entry → Option Ptr) (q : Ptr) :
    linkOf h' field q = h[q]?.map fun e ↦ if o = some q then field (f e) else field e := by
  rw [Tcache.linkOf, hw q, Option.map_map]
  refine Option.map_congr fun e _ ↦ ?_
  simp only [Function.comp]
  split <;> rfl

/-- Entries the write does not name keep everything. -/
theorem Written.getElem?_ne (hw : Written h h' o f) {q : Ptr} (hq : o ≠ some q) :
    h'[q]? = h[q]? := by
  rw [hw q]
  simp [hq]

/-- A write that sets a pointer field. -/
theorem Written.linkOf_set (hw : Written h h' o f) {field : Entry → Option Ptr} {v : Option Ptr}
    (hf : ∀ e, field (f e) = v) {q : Ptr} (hq : h[q]?.isSome) :
    Tcache.linkOf h' field q = if o = some q then some v else Tcache.linkOf h field q := by
  obtain ⟨e, he⟩ := Option.isSome_iff_exists.mp hq
  rw [hw.linkOf, Tcache.linkOf, he]
  simp only [hf, Option.map_some]
  split <;> rfl

/-- A write that keeps a pointer field. -/
theorem Written.linkOf_eq (hw : Written h h' o f) {field : Entry → Option Ptr}
    (hf : ∀ e, field (f e) = field e) (q : Ptr) :
    Tcache.linkOf h' field q = Tcache.linkOf h field q := by
  rw [hw.linkOf, Tcache.linkOf]
  simp only [hf, ite_self]

end update

end Arm2x86.Tcache
