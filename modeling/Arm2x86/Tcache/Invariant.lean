import Arm2x86.Tcache.Insert
import Arm2x86.Tcache.Rehash

/-!
# Runs of the translation cache

Sequences of calls on one cache and the representation invariant of every state they reach:
the buckets and the list hold the same entries, each once, and the counters agree with them.
-/

namespace Arm2x86.Tcache

open Links

/-- The calls on a cache, each with the answers of the allocator it meets. -/
inductive Op where
  | lookup (armAddr : Addr)
  | insert (armAddr x86Code : Addr) (x86Size : Nat) (alloc : Heap.Allocator Entry)
  | insertEx (armAddr x86Code : Addr) (x86Size : Nat) (owned mmap : Bool)
      (alloc : Heap.Allocator Entry)
  | clear
  | resize (newSize : Nat) (alloc : Bool)
  | adjustAuto (missRate : Float) (alloc : Bool)

/-- What a caller sees of a call: the code and size of the entry a lookup returns, the status
of the other calls, and the addresses whose blocks an insertion evicted. -/
inductive Answer where
  | found (block : Option (Addr × Nat))
  | inserted (st : Status) (evicted : List Addr)
  | cleared
  | resized (st : Status)
deriving DecidableEq

/-- One call. -/
def Op.exec (op : Op) (c : Cache) : Option (Answer × Cache) :=
  match op with
  | .lookup armAddr => do
    let (entry, c) ← tcacheLookupInternal c armAddr
    return (.found (c.codeAndSize entry), c)
  | .insert armAddr x86Code x86Size alloc => do
    let (st, c, fx) ← tcacheInsert c armAddr x86Code x86Size alloc
    return (.inserted st (evicted fx), c)
  | .insertEx armAddr x86Code x86Size owned mmap alloc => do
    let (st, c, fx) ← tcacheInsertEx c armAddr x86Code x86Size owned mmap alloc
    return (.inserted st (evicted fx), c)
  | .clear => do
    let (c, _) ← tcacheClear c
    return (.cleared, c)
  | .resize newSize alloc => do
    let (st, c) ← tcacheResize c newSize alloc
    return (.resized st, c)
  | .adjustAuto missRate alloc => do
    let (st, c) ← tcacheAdjustAuto c missRate alloc
    return (.resized st, c)

/-- A sequence of calls with its answers. -/
def runOps : List Op → Cache → Option (List Answer × Cache)
  | [], c => some ([], c)
  | op :: ops, c => do
    let (answer, c) ← op.exec c
    let (answers, c) ← runOps ops c
    return (answer :: answers, c)

/-- The bytes a call adds to the cache. -/
def Op.added : Op → Nat
  | .insert _ _ x86Size _ => x86Size
  | .insertEx _ _ x86Size _ _ _ => x86Size
  | _ => 0

/-- No sum of sizes in the run overflows a `size_t`. -/
def sizesFit : List Op → Cache → Bool
  | [], _ => true
  | op :: ops, c =>
    decide (c.usedSize + op.added < 2 ^ 64) &&
      match op.exec c with
      | none => true
      | some (_, c') => sizesFit ops c'

/-- The representation invariant: the chains of the buckets and the list hold the same
entries, each exactly once, every entry in the bucket of its address, and the counters are the
number and the total size of the entries. -/
def WellFormed (c : Cache) : Prop :=
  ∃ (lru : List Ptr) (chain : Nat → List Ptr),
    (∀ i < c.bucketCount, Chain (linkOf c.heap Entry.next) (c.hashTable i) (chain i)) ∧
    DList (linkOf c.heap Entry.lruNext) (linkOf c.heap Entry.lruPrev) c.lruHead c.lruTail lru ∧
    (∀ i < c.bucketCount, (chain i).Nodup) ∧
    (∀ i < c.bucketCount, ∀ j < c.bucketCount, ∀ p ∈ chain i, p ∈ chain j → i = j) ∧
    (∀ p, p ∈ lru ↔ ∃ i < c.bucketCount, p ∈ chain i) ∧
    (c.lruHead = none ↔ lru = []) ∧ (c.lruTail = none ↔ lru = []) ∧
    (∀ i < c.bucketCount, ∀ p ∈ chain i, ∃ e, c.heap[p]? = some e ∧
      i = tcacheHashBuckets (tcacheHash e.armAddr) c.bucketCount) ∧
    c.entryCount = lru.length ∧ c.usedSize = bytes (recency c.heap lru)

variable {c : Cache} {lru chained : List Ptr}

/-- A represented cache whose sizes add up below the word size is well formed. -/
theorem Represents.wellFormed (h : Represents c lru chained)
    (hbytes : bytes (recency c.heap lru) < 2 ^ 64) : WellFormed c := by
  have hnd : chained.Nodup := h.perm.nodup_iff.mpr h.list.nodup
  have hin : ∀ i p, p ∈ bucket c.heap c.bucketCount chained i ↔
      p ∈ lru ∧ bucketOf c.heap c.bucketCount p = i := fun i p ↦ by
    rw [bucket, List.mem_filter, decide_eq_true_eq, h.perm.mem_iff]
  refine ⟨lru, bucket c.heap c.bucketCount chained, h.chains, h.list, fun i _ ↦ hnd.filter _,
    fun i _ j _ p hp hp' ↦ ?_, fun p ↦ ⟨fun hp ↦ ?_, ?_⟩, h.list.ends_none_iff.1, h.list.ends_none_iff.2, fun i _ p hp ↦ ?_, h.count, ?_⟩
  · rw [← ((hin i p).mp hp).2, ((hin j p).mp hp').2]
  · exact ⟨_, h.bucketOf_lt p, (hin _ p).mpr ⟨hp, rfl⟩⟩
  · rintro ⟨i, -, hp⟩
    exact ((hin i p).mp hp).1
  · obtain ⟨hmem, rfl⟩ := (hin i p).mp hp
    obtain ⟨e, he⟩ := h.exists_entry hmem
    refine ⟨e, he, ?_⟩
    rw [bucketOf_entry he, h.hashed p e he]
  · rw [h.used, Nat.mod_eq_of_lt hbytes]

/-- A new cache is represented by two empty lists. -/
theorem tcacheCreate_represents (size buckets : Nat) :
    Represents (tcacheCreate size buckets) [] [] := by
  refine ⟨DList.nil, fun _ _ ↦ rfl, List.Perm.nil, fun p ↦ ?_, by simp, fun p e he ↦ ?_,
    fun p e he ↦ ?_, ?_, rfl, rfl⟩
  · simp [tcacheCreate]
  · simp [tcacheCreate] at he
  · simp [tcacheCreate] at he
  · simp only [tcacheCreate]
    split
    · assumption
    · decide

/-- How an insertion may change the blocks of a cache with bound `cap`, and what it answers:
the shortest suffix after which the block fits is evicted, everything when there is none. -/
def InsertChanges (cap : Nat) (item : Item) (items : List Item) (answer : Answer)
    (items' : List Item) : Prop :=
  (item.x86Code = 0#64 ∧ answer = .inserted .errInvalidParam [] ∧ items' = items) ∨
    ∃ kept dropped, item.x86Code ≠ 0#64 ∧ items = kept ++ dropped ∧
      kept = Lru.survivors (fits cap item.x86Size) items ∧
      ((answer = .inserted .errMemory (dropped.map Item.armAddr).reverse ∧ items' = kept) ∨
        (answer = .inserted .ok (dropped.map Item.armAddr).reverse ∧ items' = item :: kept))

/-- How a call may change the bound of the cache and its blocks in list order, and what it
answers. -/
def Op.Changes (op : Op) (cap : Nat) (items : List Item) (answer : Answer) (cap' : Nat)
    (items' : List Item) : Prop :=
  match op with
  | .lookup armAddr => cap' = cap ∧
    ((answer = .found none ∧ items' = items ∧ ∀ x ∈ items, x.armAddr ≠ armAddr) ∨
      ∃ xs x ys, items = xs ++ x :: ys ∧ items' = x :: (xs ++ ys) ∧ x.armAddr = armAddr ∧
        answer = .found (some (x.x86Code, x.x86Size)))
  | .insert armAddr x86Code x86Size _ | .insertEx armAddr x86Code x86Size _ _ _ =>
    cap' = cap ∧ InsertChanges cap ⟨armAddr, x86Code, x86Size⟩ items answer items'
  | .clear => cap' = cap ∧ answer = .cleared ∧ items' = []
  | .resize newSize _ => items' = items ∧
    ((answer = .resized .errMemory ∧ cap' = cap) ∨
      (answer = .resized .ok ∧ cap' = clampSize newSize))
  | .adjustAuto missRate _ => items' = items ∧
    ((answer = .resized .errMemory ∧ cap' = cap) ∨
      (answer = .resized .ok ∧
        cap' = let newSize := adjustedSize cap (bytes items % 2 ^ 64) missRate
          if newSize = cap then cap else clampSize newSize))

private theorem insertEx_changes (h : Represents c lru chained) (armAddr x86Code : Addr)
    (x86Size : Nat) (owned mmap : Bool) (alloc : Heap.Allocator Entry) :
    ∃ answer c' lru' chained',
      (Op.insertEx armAddr x86Code x86Size owned mmap alloc).exec c = some (answer, c') ∧
      Represents c' lru' chained' ∧
      (Op.insertEx armAddr x86Code x86Size owned mmap alloc).Changes c.totalSize
        (recency c.heap lru) answer c'.totalSize (recency c'.heap lru') := by
  by_cases hcode : x86Code = 0#64
  · refine ⟨.inserted .errInvalidParam [], c, lru, chained, ?_, h, rfl,
      .inl ⟨hcode, rfl, rfl⟩⟩
    simp only [Op.exec, tcacheInsertEx, hcode, if_true]
    rfl
  · obtain ⟨st, c', fx, kept, dropped, lru', chained', hrun, hrep, htotal, hsplit, hdata, hkept,
      ⟨hfx, -⟩, hres⟩ := tcacheInsertEx_spec h armAddr hcode x86Size owned mmap alloc
    have hrec : recency c'.heap kept = recency c.heap kept :=
      List.map_congr_left fun q hq ↦ by rw [itemOf, hdata q hq, itemOf]
    refine ⟨.inserted st (evicted fx), c', lru', chained', ?_, hrep, htotal, .inr
      ⟨recency c.heap kept, recency c.heap dropped, hcode, ?_, hkept, ?_⟩⟩
    · simp only [Op.exec, hrun]
      rfl
    · rw [hsplit]
      exact List.map_append
    · rw [hfx]
      rcases hres with ⟨rfl, rfl, -⟩ | ⟨p, rfl, rfl, -, hitem, -⟩
      · exact .inl ⟨rfl, hrec⟩
      · refine .inr ⟨rfl, ?_⟩
        rw [← hrec, ← hitem]
        rfl

private theorem resize_changes (h : Represents c lru chained) (newSize : Nat) (alloc : Bool) :
    ∃ st c' chained', tcacheResize c newSize alloc = some (st, c') ∧
      Represents c' lru chained' ∧ recency c'.heap lru = recency c.heap lru ∧
      ((st = .errMemory ∧ c'.totalSize = c.totalSize) ∨
        (st = .ok ∧ c'.totalSize = clampSize newSize)) := by
  obtain ⟨st, c', chained', hrun, hrep, hdata, hres, -⟩ := tcacheResize_spec h newSize alloc
  refine ⟨st, c', chained', hrun, hrep, hdata.recency lru, ?_⟩
  rcases hres with ⟨rfl, rfl⟩ | hok
  · exact .inl ⟨rfl, rfl⟩
  · exact .inr hok

/-- Every call on a represented cache returns, leaves a represented cache, and changes its
blocks as described. -/
theorem Op.exec_changes (h : Represents c lru chained) (op : Op) :
    ∃ answer c' lru' chained', op.exec c = some (answer, c') ∧ Represents c' lru' chained' ∧
      op.Changes c.totalSize (recency c.heap lru) answer c'.totalSize
        (recency c'.heap lru') := by
  cases op with
  | lookup armAddr =>
    obtain ⟨r, c', lru', hrun, hrep, hdata, htotal, hres⟩ := tcacheLookupInternal_spec h armAddr
    refine ⟨.found (c'.codeAndSize r), c', lru', chained, ?_, hrep, htotal, ?_⟩
    · simp only [Op.exec, hrun]
      rfl
    · rw [hdata.recency lru']
      rcases hres with ⟨rfl, rfl, hmiss⟩ | ⟨xs, p, ys, rfl, rfl, rfl, haddr⟩
      · refine .inl ⟨rfl, rfl, fun x hx ↦ ?_⟩
        obtain ⟨p, hp, rfl⟩ := List.mem_map.mp hx
        exact hmiss p hp
      · refine .inr ⟨recency c.heap xs, itemOf c.heap p, recency c.heap ys, ?_, ?_, haddr, ?_⟩
        · simp [recency]
        · simp [recency]
        · obtain ⟨e, he⟩ := hrep.exists_entry List.mem_cons_self
          rw [← hdata.itemOf p, itemOf_entry he]
          simp [Cache.codeAndSize, he, Entry.item]
  | insert armAddr x86Code x86Size alloc =>
    exact insertEx_changes h armAddr x86Code x86Size false false alloc
  | insertEx armAddr x86Code x86Size owned mmap alloc =>
    exact insertEx_changes h armAddr x86Code x86Size owned mmap alloc
  | clear =>
    obtain ⟨c', fx, hrun, hrep, htotal, -⟩ := tcacheClear_spec h
    refine ⟨.cleared, c', [], [], ?_, hrep, htotal, rfl, rfl⟩
    simp only [Op.exec, hrun]
    rfl
  | resize newSize alloc =>
    obtain ⟨st, c', chained', hrun, hrep, hrec, hres⟩ := resize_changes h newSize alloc
    refine ⟨.resized st, c', lru, chained', ?_, hrep, hrec, ?_⟩
    · simp only [Op.exec, hrun]
      rfl
    · rcases hres with ⟨rfl, ht⟩ | ⟨rfl, ht⟩
      · exact .inl ⟨rfl, ht⟩
      · exact .inr ⟨rfl, ht⟩
  | adjustAuto missRate alloc =>
    by_cases hsame : adjustedSize c.totalSize c.usedSize missRate = c.totalSize
    · refine ⟨.resized .ok, c, lru, chained, ?_, h, rfl, .inr ⟨rfl, ?_⟩⟩
      · simp only [Op.exec, tcacheAdjustAuto, hsame, ne_eq, not_true_eq_false, if_false]
        rfl
      · rw [← h.used]
        simp only [hsame, if_true]
    · obtain ⟨st, c', chained', hrun, hrep, hrec, hres⟩ :=
        resize_changes h (adjustedSize c.totalSize c.usedSize missRate) alloc
      refine ⟨.resized st, c', lru, chained', ?_, hrep, hrec, ?_⟩
      · simp only [Op.exec, tcacheAdjustAuto, ne_eq, hsame, not_false_eq_true, if_true, hrun]
        rfl
      · rcases hres with ⟨rfl, ht⟩ | ⟨rfl, ht⟩
        · exact .inl ⟨rfl, ht⟩
        · refine .inr ⟨rfl, ?_⟩
          rw [← h.used, ht]
          simp only [hsame, if_false]

theorem InsertChanges.bytes_le {cap : Nat} {item : Item} {items items' : List Item}
    {answer : Answer} (h : InsertChanges cap item items answer items') :
    bytes items' ≤ bytes items + item.x86Size := by
  obtain ⟨-, -, rfl⟩ | ⟨kept, dropped, -, rfl, -, ⟨-, rfl⟩ | ⟨-, rfl⟩⟩ := h
  · omega
  · rw [bytes_append]
    omega
  · rw [bytes_append, bytes_cons]
    omega

/-- A call adds at most its own bytes. -/
theorem Op.Changes.bytes_le {op : Op} {cap cap' : Nat} {items items' : List Item}
    {answer : Answer} (h : op.Changes cap items answer cap' items') :
    bytes items' ≤ bytes items + op.added := by
  cases op with
  | lookup armAddr =>
    obtain ⟨-, ⟨-, rfl, -⟩ | ⟨xs, x, ys, rfl, rfl, -, -⟩⟩ := h
    · exact Nat.le_add_right _ _
    · simp only [bytes_append, bytes_cons, Op.added]
      omega
  | insert armAddr x86Code x86Size alloc => exact h.2.bytes_le
  | insertEx armAddr x86Code x86Size owned mmap alloc => exact h.2.bytes_le
  | clear =>
    obtain ⟨-, -, rfl⟩ := h
    simp
  | resize newSize alloc =>
    obtain ⟨rfl, -⟩ := h
    exact Nat.le_add_right _ _
  | adjustAuto missRate alloc =>
    obtain ⟨rfl, -⟩ := h
    exact Nat.le_add_right _ _

/-- A run from a represented cache returns and stays represented. -/
theorem runOps_total (ops : List Op) (h : Represents c lru chained) :
    ∃ answers c' lru' chained', runOps ops c = some (answers, c') ∧
      Represents c' lru' chained' := by
  induction ops generalizing c lru chained with
  | nil => exact ⟨[], c, lru, chained, rfl, h⟩
  | cons op ops ih =>
    obtain ⟨answer, c₁, lru₁, chained₁, hexec, hrep, -⟩ := op.exec_changes h
    obtain ⟨answers, c', lru', chained', hrun, hrep'⟩ := ih hrep
    refine ⟨answer :: answers, c', lru', chained', ?_, hrep'⟩
    simp only [runOps, hexec, Option.bind_eq_bind, Option.bind_some, hrun]
    rfl

/-- A run from a represented cache stays represented and its sizes stay below the word size. -/
theorem runOps_represents (ops : List Op) (h : Represents c lru chained)
    (hbytes : bytes (recency c.heap lru) < 2 ^ 64) (hfit : sizesFit ops c = true) :
    ∃ answers c' lru' chained', runOps ops c = some (answers, c') ∧
      Represents c' lru' chained' ∧ bytes (recency c'.heap lru') < 2 ^ 64 := by
  induction ops generalizing c lru chained with
  | nil => exact ⟨[], c, lru, chained, rfl, h, hbytes⟩
  | cons op ops ih =>
    obtain ⟨answer, c₁, lru₁, chained₁, hexec, hrep, hchange⟩ := op.exec_changes h
    simp only [sizesFit, hexec, Bool.and_eq_true, decide_eq_true_eq] at hfit
    have hbytes₁ : bytes (recency c₁.heap lru₁) < 2 ^ 64 := by
      have hle := hchange.bytes_le
      have hused := h.used
      rw [Nat.mod_eq_of_lt hbytes] at hused
      omega
    obtain ⟨answers, c', lru', chained', hrun, hrep', hbytes'⟩ := ih hrep hbytes₁ hfit.2
    refine ⟨answer :: answers, c', lru', chained', ?_, hrep', hbytes'⟩
    simp only [runOps, hexec, Option.bind_eq_bind, Option.bind_some, hrun]
    rfl

/-- Every sequence of calls on a new cache returns, and leaves a well-formed cache, as long as
no sum of sizes overflows. -/
theorem tcache_run_wellFormed (size buckets : Nat) (ops : List Op)
    (hfit : sizesFit ops (tcacheCreate size buckets) = true) :
    ∃ answers c, runOps ops (tcacheCreate size buckets) = some (answers, c) ∧
      WellFormed c := by
  obtain ⟨answers, c, lru, chained, hrun, hrep, hbytes⟩ :=
    runOps_represents ops (tcacheCreate_represents size buckets) (by simp [recency]) hfit
  exact ⟨answers, c, hrun, hrep.wellFormed hbytes⟩

/-- Two blocks in one bucket of which the second evicts the first. -/
theorem tcache_run_wellFormed_evicting :
    ∃ answers c, runOps [.lookup 0x1000#64,
        .insertEx 0x1000#64 0x7000#64 60 false false (.at Entry 1),
        .insertEx 0x2000#64 0x7100#64 60 true true (.at Entry 2), .lookup 0x2000#64]
        (tcacheCreate 100 1) = some (answers, c) ∧ WellFormed c :=
  tcache_run_wellFormed 100 1 _ (by decide)

end Arm2x86.Tcache
