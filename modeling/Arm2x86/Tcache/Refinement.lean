import Arm2x86.Tcache.Invariant

/-!
# The translation cache as a bounded LRU map

The abstract cache is a list of blocks with distinct addresses, most recently used first, and
a bound on their bytes. Runs in which an address is inserted only right after a lookup of it
has missed, as `arm2x86_translate_easy` does (`modules/arm2x86_easy.c:538`), answer exactly as
this map does.
-/

namespace Arm2x86.Tcache

/-- A bounded map from addresses to blocks, in order of use. -/
structure LruMap where
  cap : Nat
  items : List Item

namespace LruMap

/-- The map of a new cache. -/
def create (size : Nat) : LruMap := ⟨if size > 0 then size else defaultSize, []⟩

/-- The block of an address. -/
def get (m : LruMap) (armAddr : Addr) : Option (Addr × Nat) :=
  (m.items.find? fun x ↦ x.armAddr = armAddr).map fun x ↦ (x.x86Code, x.x86Size)

/-- `dropped` is the shortest suffix of the order whose removal makes room for `x86Size` more
bytes, or everything when no suffix does. -/
structure Evicts (m : LruMap) (x86Size : Nat) (kept dropped : List Item) : Prop where
  split : m.items = kept ++ dropped
  room : fits m.cap x86Size kept = true ∨ kept = []
  shortest : ∀ kept' dropped', m.items = kept' ++ dropped' → dropped'.length < dropped.length →
    fits m.cap x86Size kept' = false

/-- The insertion of a block: an eviction, and then the block in front unless its entry could
not be allocated. A null code pointer is refused. -/
def Insert (m : LruMap) (item : Item) (answer : Answer) (m' : LruMap) : Prop :=
  m'.cap = m.cap ∧
    if item.x86Code = 0#64 then answer = .inserted .errInvalidParam [] ∧ m'.items = m.items
    else ∃ kept dropped, m.Evicts item.x86Size kept dropped ∧
      ((answer = .inserted .errMemory (dropped.map Item.armAddr).reverse ∧ m'.items = kept) ∨
        (answer = .inserted .ok (dropped.map Item.armAddr).reverse ∧ m'.items = item :: kept))

/-- A change of the bound, unless the new table could not be allocated. -/
def Resize (m : LruMap) (newSize : Nat) (answer : Answer) (m' : LruMap) : Prop :=
  m'.items = m.items ∧
    ((answer = .resized .errMemory ∧ m'.cap = m.cap) ∨
      (answer = .resized .ok ∧ m'.cap = newSize))

/-- One call on the abstract map. -/
def Step (m : LruMap) (op : Op) (answer : Answer) (m' : LruMap) : Prop :=
  match op with
  | .lookup armAddr => answer = .found (m.get armAddr) ∧
    m' = { m with items := Lru.touch Item.armAddr armAddr m.items }
  | .insert armAddr x86Code x86Size _ | .insertEx armAddr x86Code x86Size _ _ _ =>
    m.Insert ⟨armAddr, x86Code, x86Size⟩ answer m'
  | .clear => answer = .cleared ∧ m' = { m with items := [] }
  | .resize newSize _ => m.Resize (clampSize newSize) answer m'
  | .adjustAuto missRate _ =>
    let newSize := adjustedSize m.cap (bytes m.items % 2 ^ 64) missRate
    m.Resize (if newSize = m.cap then m.cap else clampSize newSize) answer m'

/-- A sequence of calls on the abstract map. -/
inductive Run : LruMap → List Op → List Answer → LruMap → Prop where
  | nil (m : LruMap) : Run m [] [] m
  | cons {m m₁ m' : LruMap} {op : Op} {answer : Answer} {ops : List Op}
      {answers : List Answer} (hstep : m.Step op answer m₁) (hrun : Run m₁ ops answers m') :
      Run m (op :: ops) (answer :: answers) m'

/-- The addresses of a map are distinct. -/
def Distinct (m : LruMap) : Prop := (m.items.map Item.armAddr).Nodup

end LruMap

/-- The block a call inserts. -/
def Op.item : Op → Option Item
  | .insert armAddr x86Code x86Size _ => some ⟨armAddr, x86Code, x86Size⟩
  | .insertEx armAddr x86Code x86Size _ _ _ => some ⟨armAddr, x86Code, x86Size⟩
  | _ => none

/-- The address a call has looked up without success. -/
def missed (op : Op) (answer : Answer) : Option Addr :=
  match op, answer with
  | .lookup armAddr, .found none => some armAddr
  | _, _ => none

/-- Every insertion comes right after a lookup of its address that has missed; `last` is the
address missed by the call before. -/
def Guarded : Option Addr → List Op → List Answer → Prop
  | last, op :: ops, answer :: answers =>
    (∀ item, op.item = some item → last = some item.armAddr) ∧
      Guarded (missed op answer) ops answers
  | _, _, _ => True

/-- The block of the last insertion of an address that has been neither evicted nor cleared
since, in a history with the most recent call first. -/
def lastLive (armAddr : Addr) : List (Op × Answer) → Option (Addr × Nat)
  | [] => none
  | (op, answer) :: history =>
    match answer with
    | .cleared => none
    | .inserted st evicted =>
      match op.item with
      | some item =>
        if st = .ok ∧ item.armAddr = armAddr then some (item.x86Code, item.x86Size)
        else if armAddr ∈ evicted then none
        else lastLive armAddr history
      | none => lastLive armAddr history
    | _ => lastLive armAddr history

/-- The longest prefix that fits leaves the shortest suffix. -/
theorem LruMap.evicts_survivors (m : LruMap) (x86Size : Nat) {dropped : List Item}
    (h : m.items = Lru.survivors (fits m.cap x86Size) m.items ++ dropped) :
    m.Evicts x86Size (Lru.survivors (fits m.cap x86Size) m.items) dropped where
  split := h
  room := Lru.fits_survivors_or_nil
  shortest kept' dropped' hsplit hlt := by
    refine Lru.not_fits_of_survivors_lt (hsplit ▸ List.prefix_append kept' dropped') ?_
    have hlen := congrArg List.length (h.symm.trans hsplit)
    simp only [List.length_append] at hlen
    omega

namespace LruMap

theorem get_eq_none_iff {m : LruMap} {armAddr : Addr} :
    m.get armAddr = none ↔ ∀ x ∈ m.items, x.armAddr ≠ armAddr := by
  simp [get]

/-- With distinct addresses the block of an address is the one item that has it. -/
theorem get_eq_of_mem {m : LruMap} (hd : m.Distinct) {x : Item} (hx : x ∈ m.items) :
    m.get x.armAddr = some (x.x86Code, x.x86Size) := by
  obtain ⟨xs, ys, hsplit⟩ := List.append_of_mem hx
  have hne : ∀ y ∈ xs, y.armAddr ≠ x.armAddr := by
    rw [Distinct, hsplit, List.map_append, List.map_cons] at hd
    intro y hy hyx
    have := (List.nodup_append.mp hd).2.2 _ (List.mem_map_of_mem hy) x.armAddr (by simp)
    exact this hyx
  have hfind : m.items.find? (fun y ↦ y.armAddr = x.armAddr) = some x := by
    rw [hsplit, List.find?_append, List.find?_eq_none.mpr fun y hy ↦ by simpa using hne y hy]
    simp
  rw [get, hfind]
  rfl

/-- Maps with the same items up to order agree. -/
theorem get_perm {m m' : LruMap} (hd : m.Distinct) (hperm : m'.items.Perm m.items)
    (armAddr : Addr) : m'.get armAddr = m.get armAddr := by
  have hd' : m'.Distinct := (hperm.map Item.armAddr).nodup_iff.mpr hd
  cases hget : m.get armAddr with
  | none =>
    rw [get_eq_none_iff] at hget ⊢
    exact fun x hx ↦ hget x (hperm.mem_iff.mp hx)
  | some b =>
    obtain ⟨x, hfind, rfl⟩ := Option.map_eq_some_iff.mp hget
    have hx : x ∈ m'.items := hperm.mem_iff.mpr (List.mem_of_find?_eq_some hfind)
    obtain rfl : x.armAddr = armAddr := by simpa using List.find?_some hfind
    exact get_eq_of_mem hd' hx

end LruMap

/-- What a call on a map with distinct addresses leaves behind: an abstract step, distinct
addresses, and blocks that agree with the history. -/
structure Simulates (m : LruMap) (op : Op) (answer : Answer) (m' : LruMap) : Prop where
  step : m.Step op answer m'
  distinct : m'.Distinct
  absent : ∀ armAddr, missed op answer = some armAddr → m'.get armAddr = none
  live : ∀ armAddr history, lastLive armAddr history = m.get armAddr →
    lastLive armAddr ((op, answer) :: history) = m'.get armAddr

/-- The blocks of the survivors of an eviction. -/
theorem LruMap.get_kept {m : LruMap} (hd : m.Distinct) {kept dropped : List Item}
    (hsplit : m.items = kept ++ dropped) (cap : Nat) (armAddr : Addr) :
    LruMap.get ⟨cap, kept⟩ armAddr =
      if armAddr ∈ (dropped.map Item.armAddr).reverse then none else m.get armAddr := by
  rw [LruMap.Distinct, hsplit, List.map_append] at hd
  split
  · next hmem =>
    rw [LruMap.get_eq_none_iff]
    intro x hx hxa
    rw [List.mem_reverse, List.mem_map] at hmem
    obtain ⟨y, hy, hya⟩ := hmem
    exact (List.nodup_append.mp hd).2.2 _ (List.mem_map_of_mem hx) _ (List.mem_map_of_mem hy)
      (hxa.trans hya.symm)
  · next hmem =>
    have hnone : dropped.find? (fun x ↦ x.armAddr = armAddr) = none := by
      refine List.find?_eq_none.mpr fun x hx ↦ ?_
      simp only [decide_eq_true_eq]
      rintro rfl
      exact hmem (List.mem_reverse.mpr (List.mem_map_of_mem hx))
    simp only [LruMap.get, hsplit, List.find?_append, hnone, Option.or_none]

/-- An insertion of an address that is not in the map. -/
theorem InsertChanges.simulates {m : LruMap} {op : Op} {item : Item} {answer : Answer}
    {items' : List Item} (h : InsertChanges m.cap item m.items answer items')
    (hop : op.item = some item)
    (hstep : ∀ m', m.Insert item answer m' → m.Step op answer m') (hd : m.Distinct)
    (hmiss : m.get item.armAddr = none) :
    Simulates m op answer ⟨m.cap, items'⟩ := by
  have hnot : ∀ st ev, missed op (.inserted st ev) = none := fun st ev ↦ by
    cases op <;> rfl
  rw [LruMap.get_eq_none_iff] at hmiss
  obtain ⟨hcode, rfl, rfl⟩ | ⟨kept, dropped, hcode, hsplit, hkept, hres⟩ := h
  · refine ⟨hstep _ ⟨rfl, ?_⟩, hd, fun a ha ↦ ?_, fun a history hh ↦ ?_⟩
    · rw [if_pos hcode]
      exact ⟨rfl, rfl⟩
    · rw [hnot] at ha
      cases ha
    · simpa [lastLive, hop] using hh
  · have hev : m.Evicts item.x86Size kept dropped := by
      have hs := hsplit
      rw [hkept] at hs ⊢
      exact m.evicts_survivors item.x86Size hs
    have hdkept : LruMap.Distinct ⟨m.cap, kept⟩ := by
      rw [LruMap.Distinct, hsplit, List.map_append] at hd
      exact List.Nodup.of_append_left hd
    have hins : ∀ m', m'.cap = m.cap →
        ((answer = .inserted .errMemory (dropped.map Item.armAddr).reverse ∧ m'.items = kept) ∨
          (answer = .inserted .ok (dropped.map Item.armAddr).reverse ∧
            m'.items = item :: kept)) → m.Insert item answer m' := fun m' hcap hres ↦ by
      refine ⟨hcap, ?_⟩
      rw [if_neg hcode]
      exact ⟨kept, dropped, hev, hres⟩
    rcases hres with ⟨rfl, rfl⟩ | ⟨rfl, rfl⟩
    · refine ⟨hstep _ (hins _ rfl (.inl ⟨rfl, rfl⟩)), hdkept, fun a ha ↦ ?_,
        fun a history hh ↦ ?_⟩
      · rw [hnot] at ha
        cases ha
      · rw [LruMap.get_kept hd hsplit]
        simp [lastLive, hop, hh]
    · have hfresh : ∀ x ∈ kept, x.armAddr ≠ item.armAddr := fun x hx ↦
        hmiss x (hsplit ▸ List.mem_append_left dropped hx)
      refine ⟨hstep _ (hins _ rfl (.inr ⟨rfl, rfl⟩)), ?_, fun a ha ↦ ?_,
        fun a history hh ↦ ?_⟩
      · refine List.nodup_cons.mpr ⟨fun hm ↦ ?_, hdkept⟩
        obtain ⟨x, hx, hxa⟩ := List.mem_map.mp hm
        exact hfresh x hx hxa
      · rw [hnot] at ha
        cases ha
      · have hcons : LruMap.get ⟨m.cap, item :: kept⟩ a =
            if item.armAddr = a then some (item.x86Code, item.x86Size)
            else LruMap.get ⟨m.cap, kept⟩ a := by
          simp only [LruMap.get, List.find?_cons]
          by_cases hia : item.armAddr = a <;> simp [hia]
        rw [hcons, LruMap.get_kept hd hsplit]
        simp [lastLive, hop, hh]

/-- A call that keeps the items up to order and is neither a clearing nor an insertion. -/
theorem LruMap.live_of_perm {m m' : LruMap} (hd : m.Distinct)
    (hperm : m'.items.Perm m.items) {op : Op} {answer : Answer}
    (hanswer : (∃ b, answer = .found b) ∨ ∃ st, answer = .resized st) (armAddr : Addr)
    (history : List (Op × Answer)) (hh : lastLive armAddr history = m.get armAddr) :
    lastLive armAddr ((op, answer) :: history) = m'.get armAddr := by
  rw [LruMap.get_perm hd hperm, ← hh]
  rcases hanswer with ⟨b, rfl⟩ | ⟨st, rfl⟩ <;> rfl

/-- Every call on a map with distinct addresses that inserts only absent ones. -/
theorem Op.Changes.simulates {op : Op} {m : LruMap} {cap' : Nat} {items' : List Item}
    {answer : Answer} (h : op.Changes m.cap m.items answer cap' items') (hd : m.Distinct)
    (hmiss : ∀ item, op.item = some item → m.get item.armAddr = none) :
    Simulates m op answer ⟨cap', items'⟩ := by
  cases op with
  | lookup armAddr =>
    obtain ⟨rfl, ⟨rfl, rfl, hnone⟩ | ⟨xs, x, ys, hsplit, rfl, rfl, rfl⟩⟩ := h
    · have hget : m.get armAddr = none := LruMap.get_eq_none_iff.mpr hnone
      refine ⟨⟨by rw [hget], by rw [Lru.touch_of_absent hnone]⟩, hd, fun a ha ↦ ?_,
        LruMap.live_of_perm hd (List.Perm.refl _) (.inl ⟨_, rfl⟩)⟩
      obtain rfl : armAddr = a := Option.some.inj ha
      exact hget
    · have hperm : (x :: (xs ++ ys)).Perm m.items := hsplit ▸ List.perm_middle.symm
      have hget := LruMap.get_eq_of_mem hd (x := x) (by simp [hsplit])
      refine ⟨⟨by rw [hget], ?_⟩, (hperm.map Item.armAddr).nodup_iff.mpr hd,
        fun a ha ↦ by simp [missed] at ha, LruMap.live_of_perm hd hperm (.inl ⟨_, rfl⟩)⟩
      have hd' := hd
      rw [LruMap.Distinct, hsplit] at hd'
      rw [hsplit, Lru.touch_split hd']
  | insert armAddr x86Code x86Size alloc =>
    obtain ⟨rfl, hins⟩ := h
    exact hins.simulates rfl (fun _ hm ↦ hm) hd (hmiss _ rfl)
  | insertEx armAddr x86Code x86Size owned mmap alloc =>
    obtain ⟨rfl, hins⟩ := h
    exact hins.simulates rfl (fun _ hm ↦ hm) hd (hmiss _ rfl)
  | clear =>
    obtain ⟨rfl, rfl, rfl⟩ := h
    exact ⟨⟨rfl, rfl⟩, List.nodup_nil, fun a ha ↦ by simp [missed] at ha, fun a _ _ ↦ rfl⟩
  | resize newSize alloc =>
    obtain ⟨rfl, hres⟩ := h
    refine ⟨⟨rfl, hres⟩, hd, fun a ha ↦ by simp [missed] at ha,
      LruMap.live_of_perm hd (List.Perm.refl _) (.inr ?_)⟩
    rcases hres with ⟨rfl, -⟩ | ⟨rfl, -⟩ <;> exact ⟨_, rfl⟩
  | adjustAuto missRate alloc =>
    obtain ⟨rfl, hres⟩ := h
    refine ⟨⟨rfl, hres⟩, hd, fun a ha ↦ by simp [missed] at ha,
      LruMap.live_of_perm hd (List.Perm.refl _) (.inr ?_)⟩
    rcases hres with ⟨rfl, -⟩ | ⟨rfl, -⟩ <;> exact ⟨_, rfl⟩

/-- The abstract map of a cache with list `lru`. -/
def Cache.lruMap (c : Cache) (lru : List Ptr) : LruMap := ⟨c.totalSize, recency c.heap lru⟩

variable {c : Cache} {lru chained : List Ptr}

/-- A guarded run keeps the cache and its map in step; `history` are the calls before it. -/
theorem runOps_simulates (ops : List Op) (h : Represents c lru chained)
    (hd : (c.lruMap lru).Distinct) (last : Option Addr)
    (hlast : ∀ a, last = some a → (c.lruMap lru).get a = none) (history : List (Op × Answer))
    (hlive : ∀ a, lastLive a history = (c.lruMap lru).get a) :
    ∃ answers c' lru' chained', runOps ops c = some (answers, c') ∧
      Represents c' lru' chained' ∧
      (Guarded last ops answers →
        LruMap.Run (c.lruMap lru) ops answers (c'.lruMap lru') ∧ (c'.lruMap lru').Distinct ∧
          ∀ a, lastLive a ((ops.zip answers).reverse ++ history) = (c'.lruMap lru').get a) := by
  induction ops generalizing c lru chained last history with
  | nil => exact ⟨[], c, lru, chained, rfl, h, fun _ ↦ ⟨.nil _, hd, hlive⟩⟩
  | cons op ops ih =>
    obtain ⟨answer, c₁, lru₁, chained₁, hexec, hrep, hchange⟩ := op.exec_changes h
    by_cases hguard : ∀ item, op.item = some item → last = some item.armAddr
    · have hsim : Simulates (c.lruMap lru) op answer (c₁.lruMap lru₁) :=
        Op.Changes.simulates hchange hd fun item hitem ↦ hlast _ (hguard item hitem)
      obtain ⟨answers, c', lru', chained', hrun, hrep', hres⟩ :=
        ih hrep hsim.distinct (missed op answer) hsim.absent ((op, answer) :: history)
          fun a ↦ hsim.live a history (hlive a)
      refine ⟨answer :: answers, c', lru', chained', ?_, hrep', fun hg ↦ ?_⟩
      · simp only [runOps, hexec, Option.bind_eq_bind, Option.bind_some, hrun]
        rfl
      · obtain ⟨hrun', hd', hlive'⟩ := hres hg.2
        refine ⟨.cons hsim.step hrun', hd', fun a ↦ ?_⟩
        rw [← hlive' a, List.zip_cons_cons, List.reverse_cons, List.append_assoc]
        rfl
    · -- the guard fails here, so only the totality of the rest of the run is left
      obtain ⟨answers, c', lru', chained', hrun, hrep'⟩ := runOps_total ops hrep
      refine ⟨answer :: answers, c', lru', chained', ?_, hrep', fun hg ↦ absurd hg.1 hguard⟩
      simp only [runOps, hexec, Option.bind_eq_bind, Option.bind_some, hrun]
      rfl

/-- The cache refines a bounded LRU map: every run returns, and when insertions are guarded by
a missed lookup its answers are those of the abstract map, so that a further lookup returns
the block of the last insertion that has been neither evicted nor cleared, and every insertion
evicts the shortest suffix of the order of use that makes room. -/
theorem tcache_refines_lru (size buckets : Nat) (ops : List Op) :
    ∃ answers c, runOps ops (tcacheCreate size buckets) = some (answers, c) ∧
      (Guarded none ops answers →
        (∃ m, LruMap.Run (LruMap.create size) ops answers m ∧ m.cap = c.totalSize) ∧
        ∀ armAddr, ∃ c', (Op.lookup armAddr).exec c =
          some (.found (lastLive armAddr (ops.zip answers).reverse), c')) := by
  have hrep := tcacheCreate_represents size buckets
  obtain ⟨answers, c, lru, chained, hrun, hrep', hres⟩ :=
    runOps_simulates ops hrep List.nodup_nil none (by simp) [] (fun a ↦ rfl)
  refine ⟨answers, c, hrun, fun hg ↦ ?_⟩
  obtain ⟨hrun', hd, hlive⟩ := hres hg
  refine ⟨⟨c.lruMap lru, hrun', rfl⟩, fun armAddr ↦ ?_⟩
  obtain ⟨answer, c', lru', chained', hexec, -, hchange⟩ := (Op.lookup armAddr).exec_changes hrep'
  have hsim : Simulates (c.lruMap lru) (.lookup armAddr) answer (c'.lruMap lru') :=
    Op.Changes.simulates hchange hd fun item hitem ↦ by simp [Op.item] at hitem
  refine ⟨c', ?_⟩
  rw [hexec, hsim.step.1, ← hlive armAddr, List.append_nil]

/-- Two guarded insertions of which the second evicts the first. -/
theorem tcache_refines_lru_evicting :
    ∃ answers c, runOps [.lookup 0x1000#64,
        .insertEx 0x1000#64 0x7000#64 60 false false (.at Entry 1), .lookup 0x2000#64,
        .insertEx 0x2000#64 0x7100#64 60 false false (.at Entry 2)]
        (tcacheCreate 100 1) = some (answers, c) ∧
      ∃ c', (Op.lookup 0x2000#64).exec c = some (.found (some (0x7100#64, 60)), c') := by
  obtain ⟨answers, c, hrun, hres⟩ := tcache_refines_lru 100 1 [.lookup 0x1000#64,
    .insertEx 0x1000#64 0x7000#64 60 false false (.at Entry 1), .lookup 0x2000#64,
    .insertEx 0x2000#64 0x7100#64 60 false false (.at Entry 2)]
  have hanswers : answers = [.found none, .inserted .ok [], .found none,
      .inserted .ok [0x1000#64]] := by
    have h := congrArg (Option.map Prod.fst) hrun
    have h' : some answers = some [.found none, .inserted .ok [], .found none,
      .inserted .ok [0x1000#64]] := h.symm.trans (by decide)
    exact Option.some.inj h'
  subst hanswers
  have hguard : Guarded none [.lookup 0x1000#64,
      .insertEx 0x1000#64 0x7000#64 60 false false (.at Entry 1), .lookup 0x2000#64,
      .insertEx 0x2000#64 0x7100#64 60 false false (.at Entry 2)]
      [.found none, .inserted .ok [], .found none, .inserted .ok [0x1000#64]] := by
    simp [Guarded, missed, Op.item]
  exact ⟨_, c, hrun, (hres hguard).2 0x2000#64⟩

end Arm2x86.Tcache
