import Arm2x86.Easy.Batch

/-!
# The owners of translated code

Code is released by the cache entries that own it, by the code table and by the pool, and buffers of
the persistent cache by the callers. Every pointer in a table is valid and nothing is released twice
as long as each piece of memory has one owner. The workers of a parallel batch put their code into
the table and make the cache its owner as well, a batch frees the buffer of a persistent hit twice,
and the table releases what belongs to the pool.
-/

namespace Arm2x86.Tcache

/-- The code of an entry and whether the entry owns it. -/
def codeAt (c : Cache) (p : Ptr) : Option (Addr × Bool) :=
  (dataOf c.heap p).map fun d ↦ (d.1.x86Code, d.2.2.2)

variable {c c' : Cache} {p : Ptr} {a : Addr} {lru chained : List Ptr}

theorem codeAt_entry {e : Entry} (he : c.heap[p]? = some e) :
    codeAt c p = some (e.x86Code, hasFlag e.flags flagOwned) := by
  simp only [codeAt, dataOf, he, Option.map_some, Entry.data, Entry.item]

theorem codeAt_congr (h : dataOf c'.heap p = dataOf c.heap p) : codeAt c' p = codeAt c p := by
  rw [codeAt, h, codeAt]

theorem codeAt_eq_none_of_notMem (h : Represents c lru chained) (hp : p ∉ lru) :
    codeAt c p = none := by
  rw [← h.allocated p, Option.not_isSome_iff_eq_none] at hp
  rw [codeAt, dataOf, hp]
  rfl

theorem mem_ownedCodes (h : Represents c lru chained) {ps : List Ptr} (hps : ∀ p ∈ ps, p ∈ lru) :
    a ∈ ownedCodes c.heap ps ↔ ∃ p ∈ ps, codeAt c p = some (a, true) := by
  rw [ownedCodes, List.mem_map]
  constructor
  · rintro ⟨p, hp, rfl⟩
    obtain ⟨hp, hown⟩ := List.mem_filter.mp hp
    obtain ⟨e, he⟩ := h.exists_entry (hps p hp)
    rw [ownedOf_entry he] at hown
    refine ⟨p, hp, ?_⟩
    rw [codeAt_entry he, hown, itemOf_entry he]
    rfl
  · rintro ⟨p, hp, hcode⟩
    obtain ⟨e, he⟩ := h.exists_entry (hps p hp)
    rw [codeAt_entry he] at hcode
    obtain ⟨rfl, hown⟩ := Prod.mk.inj (Option.some.inj hcode)
    refine ⟨p, List.mem_filter.mpr ⟨hp, by rw [ownedOf_entry he, hown]⟩, ?_⟩
    rw [itemOf_entry he]
    rfl

/-- The code of the entries behind an insertion: they were there, but for one. -/
theorem tcacheInsertEx_codes (h : Represents c lru chained) (armAddr : Addr) (ha : a ≠ 0#64)
    (x86Size : Nat) (owned : Bool) (alloc : Heap.Allocator Entry) :
    ∃ st c' fx kept dropped lru' chained', ∃ new : Option Ptr,
      tcacheInsertEx c armAddr a x86Size owned owned alloc = some (st, c', fx) ∧
      Represents c' lru' chained' ∧ lru = kept ++ dropped ∧
      (released fx).Perm (ownedCodes c.heap dropped) ∧
      ∀ q d, codeAt c' q = some d →
        (new = some q ∧ d = (a, owned)) ∨ (q ∈ kept ∧ codeAt c q = some d) := by
  obtain ⟨st, c', fx, kept, dropped, lru', chained', hrun, hrep', -, hsplit, hdata, -, ⟨-, hfx⟩,
    hres⟩ := tcacheInsertEx_spec h armAddr ha x86Size owned owned alloc
  have hlru : ∀ q d, codeAt c' q = some d → q ∈ lru' := by
    intro q d hd
    by_contra hq
    rw [codeAt_eq_none_of_notMem hrep' hq] at hd
    cases hd
  have hkept : ∀ q ∈ kept, ∀ d, codeAt c' q = some d → q ∈ kept ∧ codeAt c q = some d :=
    fun q hq d hd ↦ ⟨hq, codeAt_congr (hdata q hq) ▸ hd⟩
  have hperm : (released fx).Perm (ownedCodes c.heap dropped) := hfx ▸ List.reverse_perm _
  rcases hres with ⟨-, rfl, -⟩ | ⟨p, -, rfl, -, hitem, howns⟩
  · exact ⟨st, c', fx, lru', dropped, lru', chained', none, hrun, hrep', hsplit, hperm,
      fun q d hd ↦ .inr (hkept q (hlru q d hd) d hd)⟩
  · refine ⟨st, c', fx, kept, dropped, _, chained', some p, hrun, hrep', hsplit, hperm,
      fun q d hd ↦ ?_⟩
    rcases List.mem_cons.mp (hlru q d hd) with rfl | hq
    · obtain ⟨e, he⟩ := hrep'.exists_entry (p := q) List.mem_cons_self
      rw [itemOf_entry he] at hitem
      rw [ownedOf_entry he] at howns
      have hx86 : e.x86Code = a := congrArg Item.x86Code hitem
      rw [codeAt_entry he, howns, hx86] at hd
      exact .inl ⟨rfl, (Option.some.inj hd).symm⟩
    · exact .inr (hkept q hq d hd)

end Arm2x86.Tcache

namespace Arm2x86.Easy

open Tcache

namespace Instance

/-- Memory that is in use. -/
def Live (s : Instance) (a : Addr) : Prop := (s.regions a).isSome

/-- Every pointer to code in the cache and in the code table refers to memory in use. -/
def PointersLive (s : Instance) : Prop :=
  (∀ (p : Ptr) (e : Entry), s.cache.heap[p]? = some e → s.Live e.x86Code) ∧
    ∀ a ∈ s.hashedCodes, s.Live a

/-- What the pool has handed out. -/
def pooled (s : Instance) : List Addr := s.mempool.getD []

/-- Nothing has been released twice, nor will be when the instance is destroyed. -/
def ReleasedOnce (s : Instance) : Prop :=
  s.faults = [] ∧ ∃ s', s.destroyEasy = some s' ∧ s'.faults = []

end Instance

/-- A request that the cache or the code table can answer. -/
def Instance.Known (s : Instance) (armCode : Addr) (code : List Byte) : Prop :=
  (∃ hit s', s.tcacheLookup armCode = some (some hit, s')) ∨
    (s.codeHashLookup (codeHash code)).isSome

/-- The condition on a step of a worker: no copy of a persistent hit, and no cache entry that owns
code of the code table. -/
def Phase.OneOwner (phase : Phase) (owned : Bool) (s : Instance) (ans : Answers) : Prop :=
  match phase with
  | .mapCached _ => ans.copy.place s.regions = none
  | .insertConverted x86Code _ => owned = true → x86Code ∉ s.hashedCodes
  | _ => True

/-- The condition on an event and the state before it: no code of the pool enters the code table, no
copy of a persistent hit is made in a batch, and no cache entry owns code of the code table. -/
def Event.OneOwner (event : Event) (sys : System) : Prop :=
  match event with
  | .translateEasy armCode code ans =>
    sys.inst.mempool = none ∨ sys.inst.codeHashTable = none ∨ ans.hashEntry = false ∨
      (∀ r, ans.pool.place r = none) ∨ sys.inst.Known armCode code
  | .step worker ans =>
    ∀ w, sys.workers[worker]? = some w → w.blocks ≠ [] → w.phase.OneOwner w.owned sys.inst ans
  | _ => True

/-- One owner for everything: `unseen` is memory that only a local variable knows, `pending` is
code on its way into the cache. -/
structure Sound (s : Instance) (unseen pending : List Addr) : Prop where
  represented : ∃ lru chained, Represents s.cache lru chained
  cached : ∀ p d, codeAt s.cache p = some d → s.Live d.1
  hashed : ∀ a ∈ s.hashedCodes, s.Live a
  hashedOnce : s.hashedCodes.Nodup
  ownedAlone : ∀ p q a o, codeAt s.cache p = some (a, true) → codeAt s.cache q = some (a, o) → p = q
  ownedUnhashed : ∀ p a, codeAt s.cache p = some (a, true) → a ∉ s.hashedCodes
  held : ∀ a ∈ unseen ++ pending, s.Live a ∧ ∀ p o, codeAt s.cache p ≠ some (a, o)
  heldOnce : (unseen ++ pending).Nodup
  unhashed : ∀ a ∈ unseen, a ∉ s.hashedCodes
  faults : s.faults = []
  pooled : ∀ a ∈ s.pooled, s.Live a ∧ (∀ p, codeAt s.cache p ≠ some (a, true)) ∧
    a ∉ s.hashedCodes ∧ a ∉ unseen
  pooledOnce : s.pooled.Nodup

section Release

variable {s : Instance} {a : Addr} {as : List Addr}

@[simp] theorem release_cache : (s.release a).cache = s.cache := by
  unfold Instance.release
  split <;> rfl

@[simp] theorem release_codeHashTable : (s.release a).codeHashTable = s.codeHashTable := by
  unfold Instance.release
  split <;> rfl

@[simp] theorem release_mempool : (s.release a).mempool = s.mempool := by
  unfold Instance.release
  split <;> rfl

theorem releaseAll_cache : (s.releaseAll as).cache = s.cache := by
  induction as generalizing s with
  | nil => rfl
  | cons a as ih => exact (ih (s := s.release a)).trans release_cache

/-- Releasing distinct memory in use frees it and nothing else. -/
theorem releaseAll_spec (hlive : ∀ a ∈ as, s.Live a) (honce : as.Nodup) :
    s.releaseAll as = { s with regions := fun b ↦ if b ∈ as then none else s.regions b } := by
  induction as generalizing s with
  | nil => simp [Instance.releaseAll]
  | cons a as ih =>
    rw [List.forall_mem_cons] at hlive
    rw [List.nodup_cons] at honce
    have hfirst : s.release a = { s with regions := fun b ↦ if b = a then none else s.regions b } := by
      exact if_pos hlive.1
    have hrest : ∀ b ∈ as, (s.release a).Live b := by
      intro b hb
      have hne : b ≠ a := fun hba ↦ honce.1 (hba ▸ hb)
      rw [hfirst]
      show (if b = a then none else s.regions b).isSome
      rw [if_neg hne]
      exact hlive.2 b hb
    show (s.release a).releaseAll as = _
    rw [ih hrest honce.2, hfirst]
    congr 1
    ext b : 1
    by_cases hba : b = a
    · simp [hba]
    · simp [hba]

end Release

namespace Sound

variable {s : Instance} {u p : List Addr} {a : Addr}

/-- What is held may be listed in any order, and be forgotten. -/
theorem subperm {u' p' : List Addr} (h : Sound s u p) (hu : u'.Subset u)
    (hall : (u' ++ p').Subperm (u ++ p)) : Sound s u' p' := by
  obtain ⟨l, hperm, hsub⟩ := hall
  exact { h with
    held := fun a ha ↦ h.held a (hsub.subset (hperm.mem_iff.mpr ha))
    heldOnce := hperm.nodup_iff.mp (h.heldOnce.sublist hsub)
    unhashed := fun a ha ↦ h.unhashed a (hu ha)
    pooled := fun a ha ↦
      have ⟨hlive, hown, hhash, hseen⟩ := h.pooled a ha
      ⟨hlive, hown, hhash, fun hau ↦ hseen (hu hau)⟩ }

theorem forget (h : Sound s (a :: u) p) : Sound s u p :=
  h.subperm (List.subset_cons_self a u) (List.sublist_cons_self a _).subperm

theorem forgetPending (h : Sound s u (a :: p)) : Sound s u p :=
  h.subperm (List.Subset.refl u) ((List.Sublist.refl u).append (List.sublist_cons_self a p)).subperm

/-- Code that only a local variable knows may go into the cache. -/
theorem toPending (h : Sound s (a :: u) p) : Sound s u (a :: p) :=
  h.subperm (List.subset_cons_self a u) List.perm_middle.subperm

/-- Memory in use stays in use when some is added or rewritten. -/
theorem occupy (h : Sound s u p) (a : Addr) (code : List Byte) : Sound (s.occupy a code) u p := by
  have hlive : ∀ b, s.Live b → (s.occupy a code).Live b := by
    intro b hb
    show (if b = a then some code else s.regions b).isSome
    split
    · rfl
    · exact hb
  exact { h with
    cached := fun q d hd ↦ hlive _ (h.cached q d hd)
    hashed := fun b hb ↦ hlive b (h.hashed b hb)
    held := fun b hb ↦ ⟨hlive b (h.held b hb).1, (h.held b hb).2⟩
    pooled := fun b hb ↦ ⟨hlive b (h.pooled b hb).1, (h.pooled b hb).2⟩ }

/-- New memory is in no table. -/
theorem fresh (h : Sound s u p) {pl : Placement} (ha : pl.place s.regions = some a) :
    (∀ q o, codeAt s.cache q ≠ some (a, o)) ∧ a ∉ s.hashedCodes ∧ a ∉ u ++ p ∧ a ∉ s.pooled := by
  have hnone : ¬ s.Live a := by
    show ¬ (s.regions a).isSome = true
    rw [(pl.fresh _ _ ha).2]
    simp
  exact ⟨fun q _ hq ↦ hnone (h.cached q _ hq), fun hh ↦ hnone (h.hashed a hh),
    fun hh ↦ hnone (h.held a hh).1, fun hh ↦ hnone (h.pooled a hh).1⟩

/-- New memory is held by the one who asked for it. -/
theorem place (h : Sound s u p) {pl : Placement} (ha : pl.place s.regions = some a)
    (code : List Byte) : Sound (s.occupy a code) (a :: u) p := by
  obtain ⟨huncached, hunhashed, hunheld, hunpooled⟩ := h.fresh ha
  have h' := h.occupy a code
  refine { h' with
    held := fun b hb ↦ ?_
    heldOnce := List.nodup_cons.mpr ⟨hunheld, h.heldOnce⟩
    unhashed := fun b hb ↦ ?_
    pooled := fun b hb ↦ ?_ }
  · rcases List.mem_cons.mp hb with rfl | hb
    · refine ⟨?_, huncached⟩
      show (if b = b then some code else s.regions b).isSome
      rw [if_pos rfl]
      rfl
    · exact h'.held b hb
  · rcases List.mem_cons.mp hb with rfl | hb
    · exact hunhashed
    · exact h.unhashed b hb
  · obtain ⟨hlive, hown, hhash, hseen⟩ := h'.pooled b hb
    refine ⟨hlive, hown, hhash, fun hu ↦ ?_⟩
    rcases List.mem_cons.mp hu with rfl | hu
    · exact hunpooled hb
    · exact hseen hu

/-- The holder releases its memory. -/
theorem free (h : Sound s (a :: u) p) : Sound (s.release a) u p := by
  obtain ⟨hlive, huncached⟩ := h.held a (by simp)
  have hunhashed := h.unhashed a (by simp)
  have hunheld : a ∉ u ++ p := (List.nodup_cons.mp h.heldOnce).1
  have hrel : s.release a = { s with regions := fun b ↦ if b = a then none else s.regions b } :=
    if_pos hlive
  have hkeep : ∀ b, b ≠ a → s.Live b → (s.release a).Live b := by
    intro b hne hb
    rw [hrel]
    show (if b = a then none else s.regions b).isSome
    rw [if_neg hne]
    exact hb
  have h' := h.forget
  have hcodes : (s.release a).hashedCodes = s.hashedCodes := by rw [hrel]; rfl
  have hpool : (s.release a).pooled = s.pooled := by rw [hrel]; rfl
  refine ⟨?_, fun q d hd ↦ ?_, fun b hb ↦ ?_, ?_, ?_, ?_, fun b hb ↦ ?_, h'.heldOnce, ?_, ?_,
    fun b hb ↦ ?_, ?_⟩
  · rw [release_cache]
    exact h.represented
  · rw [release_cache] at hd
    refine hkeep _ (fun hda ↦ ?_) (h.cached q d hd)
    exact huncached q d.2 (by rw [hd, ← hda])
  · rw [hcodes] at hb
    exact hkeep b (fun hba ↦ hunhashed (hba ▸ hb)) (h.hashed b hb)
  · rw [hcodes]
    exact h.hashedOnce
  · rw [release_cache]
    exact h.ownedAlone
  · rw [release_cache, hcodes]
    exact h.ownedUnhashed
  · rw [release_cache]
    exact ⟨hkeep b (fun hba ↦ hunheld (hba ▸ hb)) (h'.held b hb).1, (h'.held b hb).2⟩
  · rw [hcodes]
    exact h'.unhashed
  · rw [hrel]
    exact h.faults
  · rw [hpool] at hb
    obtain ⟨hlb, hown, hhash, hseen⟩ := h.pooled b hb
    rw [release_cache, hcodes]
    exact ⟨hkeep b (fun hba ↦ hseen (hba ▸ by simp)) hlb, hown, hhash, (h'.pooled b hb).2.2.2⟩
  · rw [hpool]
    exact h.pooledOnce

/-- Code goes into the code table. -/
theorem codeHashInsert (h : Sound s u p) (hlive : s.Live a) (hnew : a ∉ s.hashedCodes)
    (hown : ∀ q, codeAt s.cache q ≠ some (a, true)) (hseen : a ∉ u) (hpool : a ∉ s.pooled)
    (hash : BitVec 64) (size : Nat) (malloc : Bool) : Sound (s.codeHashInsert hash a size malloc) u p := by
  unfold Instance.codeHashInsert
  split
  · cases htable : s.codeHashTable with
    | none =>
      have hsame : { s with codeHashTable := (none : Option (List CodeHashEntry)) } = s := by
        rw [← htable]
      show Sound { s with codeHashTable := none } u p
      rw [hsame]
      exact h
    | some table =>
      have hcodes : Instance.hashedCodes
          { s with codeHashTable := some (⟨hash, a, size⟩ :: table) } = a :: s.hashedCodes := by
        simp [Instance.hashedCodes, htable]
      show Sound { s with codeHashTable := some (⟨hash, a, size⟩ :: table) } u p
      refine { h with
        hashed := fun b hb ↦ ?_
        hashedOnce := ?_
        ownedUnhashed := fun q b hq hb ↦ ?_
        unhashed := fun b hb hb' ↦ ?_
        pooled := fun b hb ↦ ?_ }
      · rw [hcodes] at hb
        rcases List.mem_cons.mp hb with rfl | hb
        · exact hlive
        · exact h.hashed b hb
      · rw [hcodes]
        exact List.nodup_cons.mpr ⟨hnew, h.hashedOnce⟩
      · rw [hcodes] at hb
        rcases List.mem_cons.mp hb with rfl | hb
        · exact hown q hq
        · exact h.ownedUnhashed q b hq hb
      · rw [hcodes] at hb'
        rcases List.mem_cons.mp hb' with rfl | hb'
        · exact hseen hb
        · exact h.unhashed b hb hb'
      · obtain ⟨hlb, hownb, hhash, hub⟩ := h.pooled b hb
        refine ⟨hlb, hownb, fun hb' ↦ ?_, hub⟩
        rw [hcodes] at hb'
        rcases List.mem_cons.mp hb' with rfl | hb'
        · exact hpool hb
        · exact hhash hb'
  · exact h

/-- New code goes into the code table on its way into the cache. -/
theorem publish (h : Sound s (a :: u) p) (hash : BitVec 64) (size : Nat) (malloc : Bool) :
    Sound (s.codeHashInsert hash a size malloc) u (a :: p) := by
  obtain ⟨hlive, huncached⟩ := h.held a (by simp)
  have hunheld : a ∉ u ++ p := (List.nodup_cons.mp h.heldOnce).1
  exact h.toPending.codeHashInsert hlive (h.unhashed a (by simp)) (fun q ↦ huncached q true)
    (fun hu ↦ hunheld (List.mem_append_left p hu)) (fun hp ↦ (h.pooled a hp).2.2.2 (by simp))
    hash size malloc

/-- The code owned by some entries is in use, and no two of them own the same. -/
theorem ownedCodes_spec (h : Sound s u p) {lru chained ps : List Ptr}
    (hrep : Represents s.cache lru chained) (hps : ∀ q ∈ ps, q ∈ lru) (hnd : ps.Nodup) :
    (∀ b ∈ ownedCodes s.cache.heap ps, s.Live b) ∧ (ownedCodes s.cache.heap ps).Nodup := by
  constructor
  · intro b hb
    obtain ⟨q, -, hq⟩ := (mem_ownedCodes hrep hps).mp hb
    exact h.cached q _ hq
  · refine List.Nodup.map_on (fun q hq r hr heq ↦ ?_) (hnd.filter _)
    have hcode : ∀ r ∈ ps.filter (ownedOf s.cache.heap),
        codeAt s.cache r = some ((itemOf s.cache.heap r).x86Code, true) := by
      intro r hr
      obtain ⟨hr, hown⟩ := List.mem_filter.mp hr
      obtain ⟨e, he⟩ := hrep.exists_entry (hps r hr)
      rw [ownedOf_entry he] at hown
      rw [codeAt_entry he, hown, itemOf_entry he]
      rfl
    exact h.ownedAlone q r _ true (hcode q hq) (heq ▸ hcode r hr)

/-- A change of the cache: some entries are dropped with the code they own, the others stay, and at
most one new entry takes code that was on its way. -/
theorem recache {c' : Cache} {lru chained lru' chained' kept dropped : List Ptr} {rel : List Addr}
    (new : Option (Ptr × Addr × Bool)) (h : Sound s u (new.toList.map (·.2.1) ++ p))
    (hrep : Represents s.cache lru chained) (hsplit : lru = kept ++ dropped)
    (hrep' : Represents c' lru' chained') (hrel : rel.Perm (ownedCodes s.cache.heap dropped))
    (hentries : ∀ q d, codeAt c' q = some d →
      new = some (q, d) ∨ (q ∈ kept ∧ codeAt s.cache q = some d))
    (hnew : ∀ q a, new = some (q, a, true) → a ∉ s.hashedCodes ∧ a ∉ s.pooled) :
    Sound ({ s with cache := c' }.releaseAll rel) u p ∧
      ∀ b, s.Live b → (∀ q, codeAt s.cache q ≠ some (b, true)) →
        ({ s with cache := c' }.releaseAll rel).Live b := by
  have hnd : (kept ++ dropped).Nodup := hsplit ▸ hrep.list.nodup
  have hdrop : ∀ q ∈ dropped, q ∈ lru := fun q hq ↦ hsplit ▸ List.mem_append_right kept hq
  obtain ⟨hlive, honce⟩ := h.ownedCodes_spec hrep hdrop (List.nodup_append.mp hnd).2.1
  have hmem : ∀ b, b ∈ rel ↔ ∃ q ∈ dropped, codeAt s.cache q = some (b, true) := fun b ↦
    hrel.mem_iff.trans (mem_ownedCodes hrep hdrop)
  have hresult : { s with cache := c' }.releaseAll rel =
      { s with
        cache := c'
        regions := fun b ↦ if b ∈ rel then none else s.regions b } :=
    releaseAll_spec (s := { s with cache := c' }) (fun b hb ↦ hlive b (hrel.mem_iff.mp hb))
      (hrel.nodup_iff.mpr honce)
  rw [hresult]
  have hkeep : ∀ b, b ∉ rel → s.Live b →
      Instance.Live { s with
        cache := c'
        regions := fun b ↦ if b ∈ rel then none else s.regions b } b := by
    intro b hb hlb
    show (if b ∈ rel then none else s.regions b).isSome
    rw [if_neg hb]
    exact hlb
  -- what is held is not released
  have hheld : ∀ b ∈ u ++ (new.toList.map (·.2.1) ++ p), b ∉ rel := by
    intro b hb hr
    obtain ⟨q, -, hq⟩ := (hmem b).mp hr
    exact (h.held b hb).2 q true hq
  have hkept : ∀ q d, q ∈ kept → codeAt s.cache q = some d → d.1 ∉ rel := by
    intro q d hq hd hr
    obtain ⟨q', hq', hd'⟩ := (hmem d.1).mp hr
    obtain rfl := h.ownedAlone q' q d.1 d.2 hd' hd
    exact (List.nodup_append.mp hnd).2.2 q' hq q' hq' rfl
  have hpending : ∀ q d, new = some (q, d) → d.1 ∈ new.toList.map (·.2.1) := by
    rintro q d rfl
    simp
  have hsub : (u ++ p).Sublist (u ++ (new.toList.map (·.2.1) ++ p)) :=
    (List.Sublist.refl u).append (List.sublist_append_right _ p)
  refine ⟨⟨⟨lru', chained', hrep'⟩, fun q d hd ↦ ?_, fun b hb ↦ ?_, h.hashedOnce,
    fun q r b o hq hr ↦ ?_, fun q b hq ↦ ?_, fun b hb ↦ ⟨?_, fun q o hq ↦ ?_⟩,
    h.heldOnce.sublist hsub, h.unhashed, h.faults, fun b hb ↦ ?_, h.pooledOnce⟩,
    fun b hlb hown ↦ ?_⟩
  · rcases hentries q d hd with hn | ⟨hq, hold⟩
    · have hin := List.mem_append_right u (List.mem_append_left p (hpending q d hn))
      exact hkeep _ (hheld _ hin) (h.held _ hin).1
    · exact hkeep _ (hkept q d hq hold) (h.cached q d hold)
  · refine hkeep b (fun hr ↦ ?_) (h.hashed b hb)
    obtain ⟨q, -, hq⟩ := (hmem b).mp hr
    exact h.ownedUnhashed q b hq hb
  · rcases hentries q _ hq with hnq | ⟨-, hoq⟩ <;> rcases hentries r _ hr with hnr | ⟨-, hor⟩
    · exact (Prod.mk.inj (Option.some.inj (hnq.symm.trans hnr))).1
    · have hin := List.mem_append_right u (List.mem_append_left p (hpending q _ hnq))
      exact absurd hor ((h.held _ hin).2 r o)
    · have hin := List.mem_append_right u (List.mem_append_left p (hpending r _ hnr))
      exact absurd hoq ((h.held _ hin).2 q true)
    · exact h.ownedAlone q r b o hoq hor
  · rcases hentries q _ hq with hn | ⟨-, hold⟩
    · exact (hnew q b hn).1
    · exact h.ownedUnhashed q b hold
  · have hin := hsub.subset hb
    exact hkeep b (hheld b hin) (h.held b hin).1
  · rcases hentries q _ hq with hn | ⟨-, hold⟩
    · have honce := h.heldOnce
      rw [hn] at honce
      exact (List.nodup_cons.mp (List.perm_middle.nodup_iff.mp honce)).1 hb
    · exact (h.held b (hsub.subset hb)).2 q o hold
  · obtain ⟨hlb, hown, hhash, hseen⟩ := h.pooled b hb
    refine ⟨hkeep b (fun hr ↦ ?_) hlb, fun q hq ↦ ?_, hhash, hseen⟩
    · obtain ⟨q, -, hq⟩ := (hmem b).mp hr
      exact hown q hq
    · rcases hentries q _ hq with hn | ⟨-, hold⟩
      · exact (hnew q b hn).2 hb
      · exact hown q hold
  · refine hkeep b (fun hr ↦ ?_) hlb
    obtain ⟨q, -, hq⟩ := (hmem b).mp hr
    exact hown q hq

end Sound

/-- The code table and the pool are untouched. -/
def SameTables (s s' : Instance) : Prop :=
  s'.codeHashTable = s.codeHashTable ∧ s'.mempool = s.mempool

namespace SameTables

variable {s s' s'' : Instance}

theorem trans (h : SameTables s s') (h' : SameTables s' s'') : SameTables s s'' :=
  ⟨h'.1.trans h.1, h'.2.trans h.2⟩

theorem hashedCodes (h : SameTables s s') : s'.hashedCodes = s.hashedCodes := by
  rw [Instance.hashedCodes, h.1, Instance.hashedCodes]

theorem pooled (h : SameTables s s') : s'.pooled = s.pooled := by
  rw [Instance.pooled, h.2, Instance.pooled]

theorem release (s : Instance) (a : Addr) : SameTables s (s.release a) :=
  ⟨release_codeHashTable, release_mempool⟩

theorem releaseAll (s : Instance) (as : List Addr) : SameTables s (s.releaseAll as) := by
  induction as generalizing s with
  | nil => exact ⟨rfl, rfl⟩
  | cons a as ih => exact (release s a).trans (ih (s.release a))

end SameTables

namespace Sound

variable {s : Instance} {u p : List Addr} {a : Addr}

/-- A lookup reorders the cache. -/
theorem tcacheLookup (h : Sound s u p) (addr : Addr) :
    ∃ hit s', s.tcacheLookup addr = some (hit, s') ∧ Sound s' u p ∧ SameTables s s' := by
  obtain ⟨lru, chained, hrep⟩ := h.represented
  obtain ⟨r, c', lru', hrun, hrep', hdata, -⟩ := tcacheLookupInternal_spec hrep addr
  refine ⟨(c'.codeAndSize r).map Prod.fst, { s with cache := c' }, ?_, ?_, rfl, rfl⟩
  · simp only [Instance.tcacheLookup, hrun, Option.bind_eq_bind, Option.bind_some]
    rfl
  · refine (h.recache none hrep (List.append_nil lru).symm hrep' (List.Perm.refl [])
      (fun q d hd ↦ .inr ?_) nofun).1
    rw [codeAt_congr (hdata q)] at hd
    refine ⟨?_, hd⟩
    by_contra hq
    rw [codeAt_eq_none_of_notMem hrep hq] at hd
    cases hd

/-- An insertion takes code that was on its way. -/
theorem tcacheInsert (h : Sound s u (a :: p)) (addr : Addr) (size : Nat) (owned : Bool)
    (alloc : Heap.Allocator Entry) (hown : owned = true → a ∉ s.hashedCodes ∧ a ∉ s.pooled) :
    ∃ s', s.tcacheInsert addr a size owned alloc = some s' ∧ Sound s' u p ∧ SameTables s s' ∧
      s'.Live a ∧ (owned = false → ∀ q, codeAt s'.cache q ≠ some (a, true)) := by
  have hin : a ∈ u ++ a :: p := List.mem_append_right u (List.mem_cons_self)
  by_cases hzero : a = 0#64
  · refine ⟨s, ?_, h.forgetPending, ⟨rfl, rfl⟩, (h.held a hin).1, fun _ q ↦ (h.held a hin).2 q true⟩
    simp only [Instance.tcacheInsert, tcacheInsertEx, hzero, if_true, Option.bind_eq_bind,
      Option.bind_some]
    rfl
  obtain ⟨lru, chained, hrep⟩ := h.represented
  obtain ⟨st, c', fx, kept, dropped, lru', chained', new, hrun, hrep', hsplit, hrel, hcodes⟩ :=
    tcacheInsertEx_codes hrep addr hzero size owned alloc
  have hresult : s.tcacheInsert addr a size owned alloc =
      some ({ s with cache := c' }.releaseAll (released fx)) := by
    simp only [Instance.tcacheInsert, hrun, Option.bind_eq_bind, Option.bind_some]
    rfl
  have hcache : ({ s with cache := c' }.releaseAll (released fx)).cache = c' := releaseAll_cache
  have hsound : Sound s u ((new.map (·, a, owned)).toList.map (·.2.1) ++ p) := by
    cases new with
    | none => exact h.forgetPending
    | some q => exact h
  obtain ⟨hsound', hlive⟩ := recache (new.map (·, a, owned)) hsound hrep hsplit hrep' hrel
    (by
      intro q d hd
      rcases hcodes q d hd with ⟨rfl, rfl⟩ | hold
      · exact .inl rfl
      · exact .inr hold)
    (by
      intro q b hb
      obtain ⟨q', -, heq⟩ := Option.map_eq_some_iff.mp hb
      cases heq
      exact hown rfl)
  refine ⟨_, hresult, hsound', SameTables.releaseAll { s with cache := c' } _,
    hlive a (h.held a hin).1 fun q ↦ (h.held a hin).2 q true, fun hfalse q hq ↦ ?_⟩
  rw [hcache] at hq
  rcases hcodes q _ hq with ⟨-, hd⟩ | ⟨-, hold⟩
  · cases hfalse ▸ hd
  · exact (h.held a hin).2 q true hold

/-- The cleared cache has released the code of its entries. -/
theorem invalidateEasy (h : Sound s u p) :
    ∃ s', s.invalidateEasy = some s' ∧ Sound s' u p ∧ SameTables s s' := by
  obtain ⟨lru, chained, hrep⟩ := h.represented
  obtain ⟨c', fx, hrun, hrep', -, hrel⟩ := tcacheClear_spec hrep
  have hsame : SameTables s ({ s with cache := c' }.releaseAll (released fx)) :=
    SameTables.releaseAll { s with cache := c' } _
  refine ⟨_, ?_, ?_, hsame⟩
  · simp only [Instance.invalidateEasy, hrun, Option.bind_eq_bind, Option.bind_some]
    rfl
  · refine (h.recache none hrep (List.nil_append lru).symm hrep' hrel (fun q d hd ↦ ?_) nofun).1
    rw [codeAt_eq_none_of_notMem hrep' (List.not_mem_nil)] at hd
    cases hd

end Sound

end Arm2x86.Easy
