import Arm2x86.Easy.Transparency
import Arm2x86.Pcache.Admission

/-!
# Translation by address

`arm2x86_translate_addr` (`modules/arm2x86_easy.c:668`) over the persistent cache itself. The bytes
a lookup hashes are the first 64 at the address, the bytes a store hashes are the 256 it translates,
so an entry matches the next lookup only if both have the same hash.
-/

namespace Arm2x86.Easy

open Tcache

/-- An instance with its persistent cache. -/
structure Persistent where
  inst : Instance
  pcache : Option Pcache.Cache

/-- What a call of `arm2x86_translate_addr` meets: the file system at the lookup and at the store,
the memory for a copy, for a translation and in the pool, the translator, and whether the protection
of the pages and the entry of the cache succeed. -/
structure AddrAnswers where
  lookup : Pcache.Env
  store : Pcache.Env
  copy : Placement
  code : Placement
  pool : Placement
  convert : Addr → List Byte → Addr → Option Pcache.Buffer
  mprotect : Bool
  entry : Heap.Allocator Entry

/-- Every request succeeds: code is mapped at `a` and translated, a copy is mapped at `b`, the entry
is at `p`. -/
def AddrAnswers.granting (now : Nat) (a b : Addr) (p : Ptr) : AddrAnswers where
  lookup := .granting now
  store := .granting now
  copy := .at b
  code := .at a
  pool := .none
  convert addr code x86Base :=
    let x86Code := Translate.convertBlockBytes .default .zero
      ⟨Memory.write (fun _ ↦ 0) addr code, addr, code.length⟩ x86Base
    if h : x86Code.length < 2 ^ 64 then some ⟨x86Code, h⟩ else none
  mprotect := true
  entry := .at Entry p

/-- The answers for the memory of a translation. -/
def AddrAnswers.memory (ans : AddrAnswers) : Answers where
  pcache := none
  buffer := .none
  copy := ans.copy
  code := ans.code
  pool := ans.pool
  convert _ _ _ := none
  mprotect := ans.mprotect
  hashEntry := false
  entry := ans.entry

/-- The bytes of a request, `n` of them. -/
def guestBuffer (mem : Memory) (address : Addr) (n : Nat) (h : n < 2 ^ 64) : Pcache.Buffer :=
  ⟨mem.read address n, by rwa [Memory.length_read]⟩

/-- What a lookup in the persistent cache hashes. -/
def hashedCode (mem : Memory) (address : Addr) : Pcache.Buffer :=
  guestBuffer mem address 64 (by decide)

/-- What is translated, and hashed by the store. -/
def translatedCode (mem : Memory) (address : Addr) : Pcache.Buffer :=
  guestBuffer mem address 256 (by decide)

namespace Persistent

/-- The persistent cache in `arm2x86_translate_addr`, `modules/arm2x86_easy.c:690`. The buffer of
the lookup is released again. -/
def loadAddr (s : Persistent) (mem : Memory) (address : Addr) (ans : AddrAnswers) :
    Option (Option Addr × Persistent) :=
  match s.pcache with
  | none => some (none, s)
  | some pcache =>
    let (found, pcache) :=
      Pcache.pcacheLookup ans.lookup pcache address (hashedCode mem address) 0#32
    match found, ans.copy.place s.inst.regions with
    | .ok (x86Code, x86Size), some exec => do
      let inst ← (s.inst.occupy exec x86Code).tcacheInsert address exec x86Size false ans.entry
      return (some exec, ⟨inst, some pcache⟩)
    | _, _ => some (none, { s with pcache := some pcache })

/-- The translation in `arm2x86_translate_addr`, `modules/arm2x86_easy.c:725`. The last part of the
result is the code that went to the persistent cache and the status of its store, which the code
ignores. -/
def translateNew (s : Persistent) (mem : Memory) (address : Addr) (ans : AddrAnswers) :
    Option (Option Addr × Persistent × Option (Pcache.Buffer × Pcache.Status)) :=
  let armCode := translatedCode mem address
  match s.inst.allocCode ans.memory with
  | none => some (none, s, none)
  | some (a, inst) =>
    match (ans.convert address armCode.bytes a).filter (0 < ·.size), ans.mprotect with
    | some x86Code, true => do
      let inst ← (inst.occupy a x86Code.bytes).tcacheInsert address a x86Code.size false ans.entry
      match s.pcache with
      | none => return (some a, ⟨inst, none⟩, none)
      | some pcache =>
        let (st, pcache) ← Pcache.pcacheStore ans.store pcache address armCode x86Code 0#32
        return (some a, ⟨inst, some pcache⟩, some (x86Code, st))
    -- memory of the pool stays with the pool, and so does memory mapped in its place
    | _, _ => some (none, ⟨if inst.mempool.isSome then inst else inst.release a, s.pcache⟩, none)

/-- `arm2x86_translate_addr`, `modules/arm2x86_easy.c:668`. -/
def translateAddr (s : Persistent) (mem : Memory) (address : Addr) (ans : AddrAnswers) :
    Option (Option Addr × Persistent × Option (Pcache.Buffer × Pcache.Status)) :=
  if address = 0#64 then some (none, s, none)
  else do
    let (hit, inst) ← s.inst.tcacheLookup address
    let s := { s with inst }
    if hit.isSome then return (hit, s, none)
    let (loaded, s) ← s.loadAddr mem address ans
    if loaded.isSome then return (loaded, s, none)
    s.translateNew mem address ans

/-- `arm2x86_invalidate_easy` leaves the persistent cache alone. -/
def invalidateEasy (s : Persistent) : Option Persistent :=
  s.inst.invalidateEasy.map fun inst ↦ { s with inst }

end Persistent

/-- The lists of the translation cache are intact. -/
def Instance.Linked (s : Instance) : Prop := ∃ lru chained, Represents s.cache lru chained

/-- The translation cache is empty. -/
def Instance.Emptied (s : Instance) : Prop := Represents s.cache [] []

section steps

variable {s : Instance} {a : Addr}

theorem linked_createEasy (cacheSize hashBuckets : Nat) (table pcache mempool : Bool) :
    (createEasy cacheSize hashBuckets table pcache mempool).Linked :=
  ⟨[], [], tcacheCreate_represents cacheSize hashBuckets⟩

theorem Instance.Linked.tcacheLookup (h : s.Linked) (addr : Addr) :
    ∃ hit s', s.tcacheLookup addr = some (hit, s') ∧ s'.Linked := by
  obtain ⟨lru, chained, hrep⟩ := h
  obtain ⟨r, c', lru', hrun, hrep', -⟩ := tcacheLookupInternal_spec hrep addr
  refine ⟨(c'.codeAndSize r).map Prod.fst, { s with cache := c' }, ?_, lru', chained, hrep'⟩
  simp only [Instance.tcacheLookup, hrun, Option.bind_eq_bind, Option.bind_some]
  rfl

theorem Instance.Linked.tcacheInsert (h : s.Linked) (ha : a ≠ 0#64) (addr : Addr) (size : Nat)
    (owned : Bool) (alloc : Heap.Allocator Entry) :
    ∃ s', s.tcacheInsert addr a size owned alloc = some s' ∧ s'.Linked := by
  obtain ⟨lru, chained, hrep⟩ := h
  obtain ⟨st, c', fx, kept, dropped, lru', chained', hrun, hrep', -⟩ :=
    tcacheInsertEx_spec hrep addr ha size owned owned alloc
  refine ⟨{ s with cache := c' }.releaseAll (released fx), ?_, lru', chained', ?_⟩
  · simp only [Instance.tcacheInsert, hrun, Option.bind_eq_bind, Option.bind_some]
    rfl
  · rwa [releaseAll_cache]

theorem Instance.Linked.invalidateEasy (h : s.Linked) :
    ∃ s', s.invalidateEasy = some s' ∧ s'.Emptied := by
  obtain ⟨lru, chained, hrep⟩ := h
  obtain ⟨c', fx, hrun, hrep', -⟩ := tcacheClear_spec hrep
  refine ⟨{ s with cache := c' }.releaseAll (released fx), ?_, ?_⟩
  · simp only [Instance.invalidateEasy, hrun, Option.bind_eq_bind, Option.bind_some]
    rfl
  · rwa [Instance.Emptied, releaseAll_cache]

/-- An empty cache misses. -/
theorem Instance.Emptied.tcacheLookup (h : s.Emptied) (addr : Addr) :
    ∃ cache, s.tcacheLookup addr = some (none, { s with cache }) ∧ Represents cache [] [] := by
  obtain ⟨r, c', lru', hrun, hrep', -, -, ⟨rfl, rfl, -⟩ | ⟨xs, p, ys, -, hsplit, -⟩⟩ :=
    tcacheLookupInternal_spec h addr
  · refine ⟨c', ?_, hrep'⟩
    simp only [Instance.tcacheLookup, hrun, Option.bind_eq_bind, Option.bind_some]
    rfl
  · simp at hsplit

/-- An empty cache has nothing to evict. -/
theorem Instance.Emptied.tcacheInsert (h : s.Emptied) (ha : a ≠ 0#64) (addr : Addr) (size : Nat)
    (owned : Bool) (alloc : Heap.Allocator Entry) :
    ∃ cache, s.tcacheInsert addr a size owned alloc = some { s with cache } := by
  obtain ⟨st, c', fx, kept, dropped, lru', chained', hrun, -, -, hsplit, -, -, ⟨-, hfx⟩, -⟩ :=
    tcacheInsertEx_spec h addr ha size owned owned alloc
  obtain ⟨-, rfl⟩ := List.append_eq_nil_iff.mp hsplit.symm
  refine ⟨c', ?_⟩
  simp only [Instance.tcacheInsert, hrun, Option.bind_eq_bind, Option.bind_some]
  rw [hfx]
  rfl

end steps

namespace Persistent

variable {s s' : Persistent} {mem : Memory} {address : Addr} {ans : AddrAnswers}

/-- A call returns the code stored for `armCode` from the persistent cache, where its entry stays. -/
def Reuses (s : Persistent) (mem : Memory) (address : Addr) (ans : AddrAnswers)
    (armCode x86Code : Pcache.Buffer) : Prop :=
  ∃ exec s' c', s.translateAddr mem address ans = some (some exec, s', none) ∧
    s'.inst.regions exec = some x86Code.bytes ∧ s'.pcache = some c' ∧
    Pcache.Stored address armCode x86Code 0#32 c'

theorem linked_allocCode {s : Instance} (h : s.Linked) {ans : Answers} {a : Addr}
    {inst : Instance} (halloc : s.allocCode ans = some (a, inst)) : inst.Linked ∧ a ≠ 0#64 := by
  have hmapped : ((ans.code.place s.regions).map fun a ↦ (a, s.occupy a [])) = some (a, inst) →
      inst.Linked ∧ a ≠ 0#64 := by
    intro hmap
    obtain ⟨b, hplace, heq⟩ := Option.map_eq_some_iff.mp hmap
    obtain ⟨rfl, rfl⟩ := Prod.mk.inj heq
    exact ⟨h, (ans.code.fresh _ _ hplace).1⟩
  unfold Instance.allocCode at halloc
  split at halloc
  · exact hmapped halloc
  · split at halloc
    · next b hplace =>
      obtain ⟨rfl, rfl⟩ := Prod.mk.inj (Option.some.inj halloc)
      exact ⟨h, (ans.pool.fresh _ _ hplace).1⟩
    · exact hmapped halloc

/-- The part of a call that asks the persistent cache. -/
theorem loadAddr_linked (h : s.inst.Linked) (mem : Memory) (address : Addr) (ans : AddrAnswers) :
    ∃ r s', s.loadAddr mem address ans = some (r, s') ∧ s'.inst.Linked ∧
      ∀ c, s.pcache = some c → ∃ c', s'.pcache = some c' ∧ c'.config = c.config := by
  unfold loadAddr
  cases hpcache : s.pcache with
  | none => exact ⟨none, s, rfl, h, nofun⟩
  | some c =>
    have hconfig := (Pcache.pcacheLookup_dir ans.lookup c address (hashedCode mem address) 0#32
      (Pcache.getEntryFilename address)).2
    dsimp only
    split
    · next x86Code x86Size exec _ hplace =>
      obtain ⟨inst, hinsert, hlinked⟩ := Instance.Linked.tcacheInsert
        (s := s.inst.occupy exec x86Code) h (ans.copy.fresh _ _ hplace).1 address x86Size false
        ans.entry
      rw [hinsert]
      refine ⟨some exec, _, rfl, hlinked, fun c' hc ↦ ⟨_, rfl, ?_⟩⟩
      rw [hconfig, Option.some.inj hc]
    · refine ⟨none, _, rfl, h, fun c' hc ↦ ⟨_, rfl, ?_⟩⟩
      rw [hconfig, Option.some.inj hc]

/-- The part of a call that translates. -/
theorem translateNew_linked (h : s.inst.Linked) {r : Option Addr}
    {st : Option (Pcache.Buffer × Pcache.Status)}
    (hrun : s.translateNew mem address ans = some (r, s', st)) :
    s'.inst.Linked ∧ ∀ c, s.pcache = some c → (r.isSome = true → st ≠ none) ∧
      ∀ x86Code, c.config.enabled = true → st = some (x86Code, .ok) →
        ∃ c', s'.pcache = some c' ∧ c'.config = c.config ∧
          Pcache.Stored address (translatedCode mem address) x86Code 0#32 c' := by
  unfold translateNew at hrun
  dsimp only at hrun
  split at hrun
  · obtain ⟨rfl, rfl, rfl⟩ := by simpa using hrun
    exact ⟨h, fun c _ ↦ ⟨nofun, nofun⟩⟩
  next a inst halloc =>
  obtain ⟨hinst, ha⟩ := linked_allocCode h halloc
  split at hrun
  · next x86Code _ _ =>
    obtain ⟨inst', hinsert, hlinked⟩ := Instance.Linked.tcacheInsert
      (s := inst.occupy a x86Code.bytes) hinst ha address x86Code.size false ans.entry
    rw [hinsert] at hrun
    cases hpcache : s.pcache with
    | none =>
      rw [hpcache] at hrun
      obtain ⟨rfl, rfl, rfl⟩ := by simpa using hrun
      exact ⟨hlinked, nofun⟩
    | some c =>
      rw [hpcache] at hrun
      cases hstore : Pcache.pcacheStore ans.store c address (translatedCode mem address) x86Code
          0#32 with
      | none => simp [hstore] at hrun
      | some result =>
        obtain ⟨status, c'⟩ := result
        obtain ⟨rfl, rfl, rfl⟩ := by simpa [hstore] using hrun
        refine ⟨hlinked, fun c₀ hc₀ ↦ ⟨nofun, fun x86 henabled hst ↦ ?_⟩⟩
        obtain rfl := Option.some.inj hc₀
        obtain ⟨rfl, rfl⟩ := Prod.mk.inj (Option.some.inj hst)
        exact ⟨c', rfl, Pcache.pcacheStore_config hstore,
          Pcache.pcacheStore_stored henabled hstore⟩
  · obtain ⟨rfl, rfl, rfl⟩ := by simpa using hrun
    refine ⟨?_, fun c _ ↦ ⟨nofun, nofun⟩⟩
    dsimp only
    split
    · exact hinst
    · obtain ⟨lru, chained, hrep⟩ := hinst
      exact ⟨lru, chained, by rwa [release_cache]⟩

/-- A call keeps the translation cache intact, and one that stores leaves its entry. -/
theorem translateAddr_linked (h : s.inst.Linked) {r : Option Addr}
    {st : Option (Pcache.Buffer × Pcache.Status)}
    (hrun : s.translateAddr mem address ans = some (r, s', st)) :
    s'.inst.Linked ∧ ∀ c x86Code, s.pcache = some c → c.config.enabled = true →
      st = some (x86Code, .ok) → address ≠ 0#64 ∧ ∃ c', s'.pcache = some c' ∧
        c'.config = c.config ∧
        Pcache.Stored address (translatedCode mem address) x86Code 0#32 c' := by
  unfold translateAddr at hrun
  split at hrun
  · obtain ⟨rfl, rfl, rfl⟩ := by simpa using hrun
    exact ⟨h, fun c x86Code _ _ ↦ nofun⟩
  next haddr =>
  obtain ⟨hit, inst, hlookup, hinst⟩ := h.tcacheLookup address
  rw [hlookup, Option.bind_eq_bind, Option.bind_some] at hrun
  dsimp only at hrun
  split at hrun
  · obtain ⟨rfl, rfl, rfl⟩ := by simpa using hrun
    exact ⟨hinst, fun c x86Code _ _ ↦ nofun⟩
  obtain ⟨loaded, s₁, hload, hlinked, hkept⟩ :=
    loadAddr_linked (s := { s with inst }) hinst mem address ans
  rw [hload, Option.bind_eq_bind, Option.bind_some] at hrun
  dsimp only at hrun
  split at hrun
  · obtain ⟨rfl, rfl, rfl⟩ := by simpa using hrun
    exact ⟨hlinked, fun c x86Code _ _ ↦ nofun⟩
  obtain ⟨hlinked', hstored⟩ := translateNew_linked hlinked hrun
  refine ⟨hlinked', fun c x86Code hc henabled hst ↦ ⟨haddr, ?_⟩⟩
  obtain ⟨c₁, hc₁, hconfig⟩ := hkept c hc
  obtain ⟨c', hc', hconfig', hs⟩ := (hstored c₁ hc₁).2 x86Code (by rw [hconfig, henabled]) hst
  exact ⟨c', hc', hconfig'.trans hconfig, hs⟩

/-- With an empty translation cache a call asks the persistent cache, and translates next. -/
theorem translateAddr_emptied (h : s.inst.Emptied) (haddr : address ≠ 0#64) (mem : Memory)
    (ans : AddrAnswers) : ∃ cache, Represents cache [] [] ∧
      s.translateAddr mem address ans =
        (loadAddr { s with inst := { s.inst with cache } } mem address ans).bind fun r ↦
          if r.1.isSome then some (r.1, r.2, none) else r.2.translateNew mem address ans := by
  obtain ⟨cache, hlookup, hrep⟩ := h.tcacheLookup address
  refine ⟨cache, hrep, ?_⟩
  unfold translateAddr
  rw [if_neg haddr, hlookup]
  rfl

/-- A lookup that fails leaves the instance. -/
theorem loadAddr_of_error {c c' : Pcache.Cache} {e : Pcache.Status} (hpcache : s.pcache = some c)
    (hmiss : Pcache.pcacheLookup ans.lookup c address (hashedCode mem address) 0#32 = (.error e, c')) :
    s.loadAddr mem address ans = some (none, { s with pcache := some c' }) := by
  unfold loadAddr
  rw [hpcache]
  dsimp only
  rw [hmiss]

/-- With an empty translation cache, a stored entry serves a call exactly if the bytes that the
lookup hashes have the hash of the stored ones and there is memory for the code. -/
theorem reuses_iff {c : Pcache.Cache} {armCode x86Code : Pcache.Buffer} (h : s.inst.Emptied)
    (haddr : address ≠ 0#64) (hpcache : s.pcache = some c) (hverify : c.config.verifyHash = true)
    (hstored : Pcache.Stored address armCode x86Code 0#32 c) :
    s.Reuses mem address ans armCode x86Code ↔
      Pcache.computeHash (hashedCode mem address).bytes = Pcache.computeHash armCode.bytes ∧
        ans.lookup.malloc x86Code.size = true ∧
        (ans.copy.place s.inst.regions).isSome = true := by
  obtain ⟨cache, hrep, hcall⟩ := translateAddr_emptied h haddr mem ans
  set inst : Instance := { s.inst with cache } with hinst
  have hfound := Pcache.pcacheLookup_stored_iff hstored ans.lookup (hashedCode mem address)
  rw [forall_prop_of_true hverify] at hfound
  constructor
  · rintro ⟨exec, s', c', hrun, -, -, -⟩
    rw [hcall] at hrun
    by_contra hno
    -- the lookup or the copy fails, and the code is translated again
    have hload : loadAddr { s with inst } mem address ans = some (none, ⟨inst, some
        (Pcache.pcacheLookup ans.lookup c address (hashedCode mem address) 0#32).2⟩) := by
      unfold loadAddr
      dsimp only
      rw [hpcache]
      dsimp only
      split
      · next x86 size exec' hok hplace =>
        obtain ⟨hhash, hmalloc, -⟩ := (hfound _).mp hok
        exact absurd ⟨hhash, hmalloc, Option.isSome_of_eq_some hplace⟩ hno
      · rfl
    rw [hload, Option.bind_some] at hrun
    have hlinked : Instance.Linked inst := ⟨[], [], hrep⟩
    exact ((translateNew_linked hlinked hrun).2 _ rfl).1 rfl rfl
  · rintro ⟨hhash, hmalloc, hplace⟩
    obtain ⟨exec, hexec⟩ := Option.isSome_iff_exists.mp hplace
    have hok := (hfound _).mpr ⟨hhash, hmalloc, rfl⟩
    obtain ⟨cache', hinsert⟩ := Instance.Emptied.tcacheInsert
      (s := inst.occupy exec x86Code.bytes) hrep (ans.copy.fresh _ _ hexec).1 address x86Code.size
      false ans.entry
    set inst' : Instance := { inst.occupy exec x86Code.bytes with cache := cache' } with hinst'
    have hplace' : ans.copy.place inst.regions = some exec := hexec
    have hload : loadAddr { s with inst } mem address ans = some (some exec, ⟨inst', some
        (Pcache.pcacheLookup ans.lookup c address (hashedCode mem address) 0#32).2⟩) := by
      unfold loadAddr
      dsimp only
      rw [hpcache, hplace']
      dsimp only
      rw [hok]
      dsimp only
      rw [hinsert]
      rfl
    refine ⟨exec, ⟨inst', some
      (Pcache.pcacheLookup ans.lookup c address (hashedCode mem address) 0#32).2⟩, _, ?_, ?_, rfl, ?_⟩
    · rw [hcall, hload]
      rfl
    · exact if_pos rfl
    · exact Pcache.pcacheLookup_keeps_stored hstored ans.lookup address _ _ fun _ ↦ hhash

end Persistent

/-- After a call that translated and stored, and the clearing of the translation cache, a call for
the same bytes returns the stored code from the persistent cache and keeps its entry, exactly if the
first 64 bytes at the address have the hash of the 256 and there is memory for the code. -/
theorem translateAddr_reuses_iff (s s₁ : Persistent) (c : Pcache.Cache) (mem mem' : Memory)
    (address a : Addr) (ans ans' : AddrAnswers) (x86Code : Pcache.Buffer) (hlinked : s.inst.Linked)
    (hpcache : s.pcache = some c) (henabled : c.config.enabled = true)
    (hverify : c.config.verifyHash = true)
    (hfirst : s.translateAddr mem address ans = some (some a, s₁, some (x86Code, .ok)))
    (hsame : mem'.read address 256 = mem.read address 256) :
    ∃ s₂, s₁.invalidateEasy = some s₂ ∧
      (s₂.Reuses mem' address ans' (translatedCode mem address) x86Code ↔
        Pcache.computeHash (mem.read address 64) = Pcache.computeHash (mem.read address 256) ∧
          ans'.lookup.malloc x86Code.size = true ∧
          (ans'.copy.place s₂.inst.regions).isSome = true) := by
  obtain ⟨hlinked₁, hentry⟩ := Persistent.translateAddr_linked hlinked hfirst
  obtain ⟨haddr, c₁, hc₁, hconfig, hstored⟩ := hentry c x86Code hpcache henabled rfl
  obtain ⟨inst₂, hclear, hempty⟩ := hlinked₁.invalidateEasy
  refine ⟨{ s₁ with inst := inst₂ }, ?_, ?_⟩
  · rw [Persistent.invalidateEasy, hclear]
    rfl
  · have hhead : (hashedCode mem' address).bytes = mem.read address 64 := by
      have hsplit : 256 = 64 + 192 := rfl
      rw [hsplit, Memory.read_add, Memory.read_add] at hsame
      exact (List.append_inj hsame (by rw [Memory.length_read, Memory.length_read])).1
    rw [Persistent.reuses_iff (s := { s₁ with inst := inst₂ }) hempty haddr hc₁
      (by rw [hconfig, hverify]) hstored, hhead]
    rfl

theorem releaseAll_regions_none {s : Instance} {b : Addr} (as : List Addr)
    (h : s.regions b = none) : (s.releaseAll as).regions b = none := by
  induction as generalizing s with
  | nil => exact h
  | cons a as ih =>
    apply ih
    unfold Instance.release
    split
    · change (if b = a then none else s.regions b) = none
      rw [h, ite_self]
    · exact h

theorem Persistent.invalidateEasy_regions_none {s s₂ : Persistent} {b : Addr}
    (h : s.invalidateEasy = some s₂) (hb : s.inst.regions b = none) :
    s₂.inst.regions b = none := by
  obtain ⟨inst, hclear, rfl⟩ := Option.map_eq_some_iff.mp h
  obtain ⟨⟨cache, fx⟩, -, heq⟩ := Option.bind_eq_some_iff.mp hclear
  obtain rfl := Option.some.inj heq
  exact releaseAll_regions_none (s := { s.inst with cache }) _ hb

/-- A new instance over an empty persistent cache. -/
def Persistent.new : Persistent :=
  ⟨createEasy 0x10000 16 false true false, some .empty⟩

/-- The first lookup in an empty persistent cache. -/
theorem pcacheLookup_empty (mem : Memory) (now : Nat) (address : Addr) :
    Pcache.pcacheLookup (.granting now) .empty address (hashedCode mem address) 0#32 =
      (.error .notFound, Pcache.Cache.empty.miss) := by
  have hnone : Pcache.Cache.empty.dir[Pcache.getEntryFilename address]? = none :=
    Std.ExtTreeMap.getElem?_empty
  simp only [Pcache.pcacheLookup, hnone]
  rfl

/-- The translation of a call for which there is memory, and room in both caches. -/
theorem translateNew_granting {inst : Instance} (hrep : Represents inst.cache [] [])
    (hpool : inst.mempool = none) (mem : Memory) (now : Nat) {address a : Addr} (b : Addr) (p : Ptr)
    {x86Code : Pcache.Buffer} (ha : a ≠ 0#64) (hfree : inst.regions a = none)
    (hconvert : (AddrAnswers.granting now a b p).convert address (mem.read address 256) a =
      some x86Code)
    (hpos : 0 < x86Code.size) (hsize : x86Code.size ≤ 0x1000) :
    ∃ s₁, Persistent.translateNew ⟨inst, some Pcache.Cache.empty.miss⟩ mem address
        (.granting now a b p) = some (some a, s₁, some (x86Code, .ok)) ∧
      s₁.inst.regions = ((inst.occupy a []).occupy a x86Code.bytes).regions := by
  have hroom : Pcache.Cache.empty.miss.overLimit x86Code = false := by
    have hmax : Pcache.Cache.empty.miss.config.maxSizeBytes = 500 * 1024 * 1024 := rfl
    have htotal : Pcache.Cache.empty.miss.totalSize = 0 := rfl
    unfold Pcache.Cache.overLimit sizeAdd
    rw [hmax, htotal, decide_eq_false_iff_not]
    omega
  have hnone : Pcache.Cache.empty.dir[Pcache.getEntryFilename address]? = none :=
    Std.ExtTreeMap.getElem?_empty
  obtain ⟨c₁, hstore⟩ := Pcache.pcacheStore_absent (translatedCode mem address) 0#32
    (Pcache.Env.granting_writes now) rfl (Nat.le_trans hsize (by decide)) hroom hnone
  obtain ⟨cache, hinsert⟩ := Instance.Emptied.tcacheInsert
    (s := (inst.occupy a []).occupy a x86Code.bytes) hrep ha address x86Code.size false
    (AddrAnswers.granting now a b p).entry
  have halloc : inst.allocCode (AddrAnswers.granting now a b p).memory =
      some (a, inst.occupy a []) := by
    have hplace : (Placement.at a).place inst.regions = some a := if_pos ⟨ha, hfree⟩
    unfold Instance.allocCode
    rw [hpool]
    change Option.map _ ((Placement.at a).place inst.regions) = _
    rw [hplace]
    rfl
  have hcode : ((AddrAnswers.granting now a b p).convert address
      (translatedCode mem address).bytes a).filter (0 < ·.size) = some x86Code := by
    change Option.filter _ ((AddrAnswers.granting now a b p).convert address
      (mem.read address 256) a) = _
    rw [hconvert, Option.filter_some, if_pos (by simpa using hpos)]
  have hmprotect : (AddrAnswers.granting now a b p).mprotect = true := rfl
  have hstore' : (AddrAnswers.granting now a b p).store = .granting now := rfl
  refine ⟨⟨{ (inst.occupy a []).occupy a x86Code.bytes with cache }, some c₁⟩, ?_, rfl⟩
  unfold Persistent.translateNew
  dsimp only
  rw [halloc]
  dsimp only
  rw [hcode, hmprotect, hstore']
  dsimp only
  rw [hinsert, Option.bind_eq_bind, Option.bind_some, hstore]
  rfl

/-- The first call on a new instance translates and stores. -/
theorem translateAddr_new (mem : Memory) (now : Nat) {address a : Addr} (b : Addr) (p : Ptr)
    {x86Code : Pcache.Buffer} (haddr : address ≠ 0#64) (ha : a ≠ 0#64)
    (hconvert : (AddrAnswers.granting now a b p).convert address (mem.read address 256) a =
      some x86Code)
    (hpos : 0 < x86Code.size) (hsize : x86Code.size ≤ 0x1000) :
    ∃ s₁, Persistent.new.translateAddr mem address (.granting now a b p) =
        some (some a, s₁, some (x86Code, .ok)) ∧
      s₁.inst.regions = fun q ↦ if q = a then some x86Code.bytes else none := by
  have hempty : Persistent.new.inst.Emptied := tcacheCreate_represents 0x10000 16
  obtain ⟨cache, hrep, hcall⟩ :=
    Persistent.translateAddr_emptied hempty haddr mem (.granting now a b p)
  obtain ⟨s₁, hnew, hregions⟩ : ∃ s₁, Persistent.translateNew
      ⟨{ Persistent.new.inst with cache }, some Pcache.Cache.empty.miss⟩ mem address
        (.granting now a b p) = some (some a, s₁, some (x86Code, .ok)) ∧
      s₁.inst.regions = ((Persistent.new.inst.occupy a []).occupy a x86Code.bytes).regions :=
    translateNew_granting hrep rfl mem now b p ha rfl hconvert hpos hsize
  refine ⟨s₁, ?_, ?_⟩
  · have hlookup : (AddrAnswers.granting now a b p).lookup = .granting now := rfl
    have hmiss := pcacheLookup_empty mem now address
    rw [← hlookup] at hmiss
    rw [hcall, Persistent.loadAddr_of_error rfl hmiss]
    exact hnew
  · rw [hregions]
    funext q
    change (if q = a then some x86Code.bytes else if q = a then some [] else none) = _
    split <;> rfl

/-- `mov x0, #1` and `ret` at 0x1000, with some bytes at the end of the 256. -/
def movRet (tail : List Byte) : Memory :=
  Memory.write (Memory.write (fun _ ↦ 0) 0x1000#64 [0x20, 0x00, 0x80, 0xd2, 0xc0, 0x03, 0x5f, 0xd6])
    0x10fc#64 tail

/-- The translation of this code. -/
theorem convert_movRet (tail : List Byte) (now : Nat) (a b : Addr) (p : Ptr)
    (hlen : 0 < (Translate.convertBlockBytes .default .zero
        ⟨Memory.write (fun _ ↦ 0) 0x1000#64 ((movRet tail).read 0x1000#64 256), 0x1000#64,
          ((movRet tail).read 0x1000#64 256).length⟩ a).length ∧
      (Translate.convertBlockBytes .default .zero
        ⟨Memory.write (fun _ ↦ 0) 0x1000#64 ((movRet tail).read 0x1000#64 256), 0x1000#64,
          ((movRet tail).read 0x1000#64 256).length⟩ a).length ≤ 0x1000) :
    ∃ x86Code, (AddrAnswers.granting now a b p).convert 0x1000#64
        ((movRet tail).read 0x1000#64 256) a = some x86Code ∧
      0 < x86Code.size ∧ x86Code.size ≤ 0x1000 :=
  ⟨⟨_, by omega⟩, dif_pos _, hlen⟩

/-- A block whose bytes are chosen to give the 64 and the 256 of them one hash. -/
theorem translateAddr_reuses_colliding : ∃ x86Code s₁ s₂,
    Persistent.new.translateAddr (movRet [0xcb, 0x27, 0x66, 0xfb]) 0x1000#64
      (.granting 7 0x7000#64 0x9000#64 1) = some (some 0x7000#64, s₁, some (x86Code, .ok)) ∧
    s₁.invalidateEasy = some s₂ ∧
    s₂.Reuses (movRet [0xcb, 0x27, 0x66, 0xfb]) 0x1000#64 (.granting 8 0x7000#64 0x9000#64 1)
      (translatedCode (movRet [0xcb, 0x27, 0x66, 0xfb]) 0x1000#64) x86Code := by
  obtain ⟨x86Code, hconvert, hpos, hsize⟩ :=
    convert_movRet [0xcb, 0x27, 0x66, 0xfb] 7 0x7000#64 0x9000#64 1 (by decide +kernel)
  obtain ⟨s₁, hfirst, hregions⟩ := translateAddr_new (movRet [0xcb, 0x27, 0x66, 0xfb]) 7 0x9000#64 1
    (by decide) (by decide) hconvert hpos hsize
  obtain ⟨s₂, hclear, hiff⟩ := translateAddr_reuses_iff .new s₁ .empty
    (movRet [0xcb, 0x27, 0x66, 0xfb]) (movRet [0xcb, 0x27, 0x66, 0xfb]) 0x1000#64 0x7000#64
    (.granting 7 0x7000#64 0x9000#64 1) (.granting 8 0x7000#64 0x9000#64 1) x86Code
    (linked_createEasy 0x10000 16 false true false) rfl rfl rfl hfirst rfl
  refine ⟨x86Code, s₁, s₂, hfirst, hclear, hiff.mpr ⟨by decide +kernel, rfl, ?_⟩⟩
  have hfree : s₂.inst.regions 0x9000#64 = none := by
    apply Persistent.invalidateEasy_regions_none hclear
    rw [hregions]
    rfl
  have hplace : (Placement.at 0x9000#64).place s₂.inst.regions = some 0x9000#64 :=
    if_pos ⟨by decide, hfree⟩
  exact Option.isSome_of_eq_some hplace

/-- The code stored for `mov x0, #1`, `ret` and zeros does not serve the next call. -/
theorem translateAddr_not_reuses : ∃ x86Code s₁ s₂,
    Persistent.new.translateAddr (movRet []) 0x1000#64 (.granting 7 0x7000#64 0x9000#64 1) =
      some (some 0x7000#64, s₁, some (x86Code, .ok)) ∧
    s₁.invalidateEasy = some s₂ ∧
    ¬ s₂.Reuses (movRet []) 0x1000#64 (.granting 8 0x7000#64 0x9000#64 1)
      (translatedCode (movRet []) 0x1000#64) x86Code := by
  obtain ⟨x86Code, hconvert, hpos, hsize⟩ :=
    convert_movRet [] 7 0x7000#64 0x9000#64 1 (by decide +kernel)
  obtain ⟨s₁, hfirst, -⟩ := translateAddr_new (movRet []) 7 0x9000#64 1 (by decide) (by decide)
    hconvert hpos hsize
  obtain ⟨hlinked, hentry⟩ := Persistent.translateAddr_linked
    (linked_createEasy 0x10000 16 false true false) hfirst
  obtain ⟨haddr, c₁, hc₁, hconfig, hstored⟩ := hentry .empty x86Code rfl rfl rfl
  obtain ⟨inst₂, hclear, hempty⟩ := hlinked.invalidateEasy
  refine ⟨x86Code, s₁, { s₁ with inst := inst₂ }, hfirst, ?_, fun hreuses ↦ ?_⟩
  · rw [Persistent.invalidateEasy, hclear]
    rfl
  · have hverify : c₁.config.verifyHash = true := by rw [hconfig]; rfl
    have hhash := ((Persistent.reuses_iff (s := { s₁ with inst := inst₂ }) hempty haddr hc₁ hverify
      hstored).mp hreuses).1
    exact absurd hhash (by decide +kernel)

end Arm2x86.Easy
