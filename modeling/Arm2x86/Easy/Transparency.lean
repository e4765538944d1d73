import Arm2x86.Easy.Lifetime
import Arm2x86.Translate.Relocation

/-!
# What the tables of an instance hand out

Without pool and persistent cache, `arm2x86_translate_easy` answers a request from the cache, whose
key is the address alone, from the code table, whose key is a hash of the bytes alone, or with a new
translation. For every piece of code a run keeps the block it was translated from. An answer is a
translation of the requested block as long as the tables hold, under the keys of the request, only
code of blocks with the same translation.
-/

namespace Arm2x86.Easy

open Tcache Translate

/-- Guest memory and what the translator reads besides it. -/
structure Guest where
  env : Env
  mem : Memory

namespace Guest

variable (g : Guest)

/-- The bytes of a request. -/
def code (p : Addr) (n : Nat) : List Byte := g.mem.read p n

/-- The block of a request. The last instruction may reach beyond its bytes. -/
def block (p : Addr) (n : Nat) : Block := ⟨g.mem, p, n⟩

end Guest

/-- What a call meets without pool and persistent cache: the leftovers on the stack, the memory for
a translation, and what succeeds. -/
structure Meets where
  stack : Stack
  code : Placement
  converts : Bool
  mprotect : Bool
  hashEntry : Bool
  entry : Heap.Allocator Entry

/-- The answers of the system, with the translator. -/
def Meets.answers (m : Meets) (g : Guest) : Answers where
  pcache := none
  buffer := .none
  copy := .none
  code := m.code
  pool := .none
  convert p code x86Base :=
    if m.converts then some (convertBlockBytes g.env m.stack (g.block p code.length) x86Base) else none
  mprotect := m.mprotect
  hashEntry := m.hashEntry
  entry := m.entry

/-- A block of a batch. -/
structure GuestBlock where
  armCode : Addr
  size : Nat
  address : Addr
  output : Bool

def GuestBlock.codeBlock (g : Guest) (b : GuestBlock) : CodeBlock :=
  ⟨b.armCode, g.code b.armCode b.size, b.address, b.output⟩

/-- The calls on an instance, and the steps of the batches they start. -/
inductive Call where
  | translateEasy (armCode : Addr) (codeSize : Nat) (m : Meets)
  | translateBatch (blocks : List GuestBlock)
  | step (worker : Nat) (m : Meets)
  | invalidateEasy

def Call.event (g : Guest) : Call → Event
  | .translateEasy p n m => .translateEasy p (g.code p n) (m.answers g)
  | .translateBatch blocks => .translateBatch (blocks.map (GuestBlock.codeBlock g))
  | .step worker m => .step worker (m.answers g)
  | .invalidateEasy => .invalidateEasy

/-- The block that some code was translated from, and the leftovers its translation met. -/
structure Origin where
  addr : Addr
  size : Nat
  stack : Stack

/-- The origins of all code, by its address. -/
abbrev Origins := Addr → Origin

/-- A new piece of code. -/
def Origins.place (origins : Origins) (code : Placement) (regions : Regions) (o : Origin) : Origins :=
  match code.place regions with
  | some a => Function.update origins a o
  | none => origins

/-- The origins behind a call. Where it maps memory, that is for the block at hand. -/
def Call.originsAfter (call : Call) (sys : System) (origins : Origins) : Origins :=
  match call with
  | .translateEasy p n m => origins.place m.code sys.inst.regions ⟨p, n, m.stack⟩
  | .step worker m =>
    match sys.workers[worker]? with
    | some ⟨_, b :: _, _⟩ =>
      origins.place m.code sys.inst.regions ⟨b.armCode, b.code.length, m.stack⟩
    | _ => origins
  | _ => origins

/-- The calls of a run, each with the state and the origins before it. -/
def tracedCalls (g : Guest) : List Call → System → Origins → List (Call × System × Origins)
  | [], _, _ => []
  | call :: calls, sys, origins =>
    (call, sys, origins) :: match (call.event g).exec sys with
      | none => []
      | some sys' => tracedCalls g calls sys' (call.originsAfter sys origins)

/-- Code at `a` with this origin serves for a request: the translator sees the same instructions,
and the request is for the same address or the translation holds no address. -/
def Guest.Serves (g : Guest) (o : Origin) (a : Addr) (p : Addr) (n : Nat) : Prop :=
  (g.block o.addr o.size).Alike o.stack (g.block p n) ∧
    (p = o.addr ∨ (g.block o.addr o.size).Movable o.stack g.env a)

/-- The condition on a call and the state before it: what the cache has under the address of a
request serves for it, and so does what the code table has under its hash, unless the cache has
something. -/
def Call.Unambiguous (g : Guest) (call : Call) (sys : System) (origins : Origins) : Prop :=
  match call with
  | .translateEasy p n _ =>
    (∀ (q : Ptr) (e : Entry), sys.inst.cache.heap[q]? = some e → e.armAddr = p →
      g.Serves (origins e.x86Code) e.x86Code p n) ∧
    ((∀ (q : Ptr) (e : Entry), sys.inst.cache.heap[q]? = some e → e.armAddr ≠ p) →
      ∀ e ∈ sys.inst.codeHashTable.getD [], e.hash = codeHash (g.code p n) →
        g.Serves (origins e.x86Code) e.x86Code p n)
  | _ => True

/-- A call returns, and the code that a request gets is what the translator makes of the requested
block, for some placement of the output and some leftovers. -/
def Call.Transparent (g : Guest) (call : Call) (sys : System) : Prop :=
  match call with
  | .translateEasy p n m => ∃ r s', sys.inst.translateEasy p (g.code p n) (m.answers g) = some (r, s') ∧
    ∀ a, r = some a → ∃ stack x86Base,
      s'.regions a = some (convertBlockBytes g.env stack (g.block p n) x86Base)
  | call => ((call.event g).exec sys).isSome

theorem Guest.length_code (g : Guest) (p : Addr) (n : Nat) : (g.code p n).length = n := by
  unfold Guest.code
  induction n generalizing p with
  | zero => rfl
  | succ n ih => rw [Memory.read, List.length_cons, ih]

theorem Instance.occupy_occupy (s : Instance) (a : Addr) (code code' : List Byte) :
    (s.occupy a code).occupy a code' = s.occupy a code' := by
  unfold Instance.occupy
  congr 1
  ext b : 1
  split
  · rfl
  · next hb => exact if_neg hb

theorem Instance.release_occupy {s : Instance} {a : Addr} (hfree : s.regions a = none)
    (code : List Byte) : (s.occupy a code).release a = s := by
  have hlive : ((s.occupy a code).regions a).isSome := by
    show (if a = a then some code else s.regions a).isSome
    rw [if_pos rfl]
    rfl
  rw [Instance.release, if_pos hlive]
  unfold Instance.occupy
  congr 1
  ext b : 1
  split
  · next hb => rw [hb, hfree]
  · next hb => exact if_neg hb

/-- Code that is what its origin says. -/
def Guest.Translated (g : Guest) (origins : Origins) (r : Regions) (a : Addr) : Prop :=
  r a = some (convertBlockBytes g.env (origins a).stack (g.block (origins a).addr (origins a).size) a)

theorem Guest.Translated.live {g : Guest} {origins : Origins} {s : Instance} {a : Addr}
    (h : g.Translated origins s.regions a) : s.Live a := by
  show (s.regions a).isSome
  rw [h]
  rfl

/-- All code in the tables, and what the batches hold, is what its origin says; no entry of the cache
owns its code. -/
structure Traced (g : Guest) (origins : Origins) (s : Instance) (held : List Addr) : Prop where
  represented : ∃ lru chained, Represents s.cache lru chained
  cached : ∀ q d, codeAt s.cache q = some d → d.2 = false ∧ g.Translated origins s.regions d.1
  hashed : ∀ a ∈ s.hashedCodes, g.Translated origins s.regions a
  held : ∀ a ∈ held, g.Translated origins s.regions a
  noPcache : s.pcache = false
  noPool : s.mempool = none

namespace Traced

variable {g : Guest} {origins : Origins} {s : Instance} {held : List Addr} {a : Addr}

theorem mono {held' : List Addr} (h : Traced g origins s held) (hsub : held' ⊆ held) :
    Traced g origins s held' :=
  { h with held := fun a ha ↦ h.held a (hsub ha) }

/-- What is written where nothing was in use, and whose origin changes with it. -/
theorem write (h : Traced g origins s held) (r : Regions) (origins' : Origins)
    (hsame : ∀ b, s.Live b → r b = s.regions b ∧ origins' b = origins b) :
    Traced g origins' { s with regions := r } held := by
  have hkeep : ∀ b, g.Translated origins s.regions b → g.Translated origins' r b := by
    intro b hb
    obtain ⟨hr, ho⟩ := hsame b hb.live
    unfold Guest.Translated
    rw [hr, ho]
    exact hb
  exact { h with
    cached := fun q d hd ↦ ⟨(h.cached q d hd).1, hkeep _ (h.cached q d hd).2⟩
    hashed := fun b hb ↦ hkeep b (h.hashed b hb)
    held := fun b hb ↦ hkeep b (h.held b hb) }

/-- A change of the cache to entries it had, and new ones that do not own their code. -/
theorem recache {c' : Cache} {lru chained : List Ptr} (h : Traced g origins s held)
    (hrep : Represents c' lru chained)
    (hentries : ∀ q d, codeAt c' q = some d →
      codeAt s.cache q = some d ∨ d.2 = false ∧ g.Translated origins s.regions d.1) :
    Traced g origins { s with cache := c' } held := by
  refine { h with
    represented := ⟨lru, chained, hrep⟩
    cached := fun q d hd ↦ ?_ }
  rcases hentries q d hd with hold | hnew
  · exact h.cached q d hold
  · exact hnew

/-- No eviction releases code. -/
theorem ownedCodes_eq_nil (h : Traced g origins s held) {lru chained ps : List Ptr}
    (hrep : Represents s.cache lru chained) (hps : ∀ q ∈ ps, q ∈ lru) :
    ownedCodes s.cache.heap ps = [] := by
  apply List.eq_nil_iff_forall_not_mem.mpr
  intro b hb
  obtain ⟨q, -, hq⟩ := (mem_ownedCodes hrep hps).mp hb
  cases (h.cached q _ hq).1

/-- A lookup returns the code of an entry of the address, if there is one. -/
theorem tcacheLookup (h : Traced g origins s held) (addr : Addr) :
    ∃ hit s', s.tcacheLookup addr = some (hit, s') ∧ Traced g origins s' held ∧
      s'.codeHashTable = s.codeHashTable ∧ s'.regions = s.regions ∧
      match hit with
      | some a => ∃ (q : Ptr) (e : Entry), s.cache.heap[q]? = some e ∧ e.armAddr = addr ∧ e.x86Code = a
      | none => ∀ (q : Ptr) (e : Entry), s.cache.heap[q]? = some e → e.armAddr ≠ addr := by
  obtain ⟨lru, chained, hrep⟩ := h.represented
  obtain ⟨r, c', lru', hrun, hrep', hdata, -, hres⟩ := tcacheLookupInternal_spec hrep addr
  refine ⟨(c'.codeAndSize r).map Prod.fst, { s with cache := c' }, ?_, ?_, rfl, rfl, ?_⟩
  · simp only [Instance.tcacheLookup, hrun, Option.bind_eq_bind, Option.bind_some]
    rfl
  · apply h.recache hrep'
    intro q d hd
    rw [codeAt_congr (hdata q)] at hd
    exact .inl hd
  · rcases hres with ⟨rfl, -, hmiss⟩ | ⟨xs, q, ys, rfl, hlru, -, haddr⟩
    · intro q e he hea
      apply hmiss q ((hrep.allocated q).mp (by simp [he]))
      rw [itemOf_entry he]
      exact hea
    · obtain ⟨e, he⟩ := hrep.exists_entry (p := q) (by simp [hlru])
      obtain ⟨e', he'⟩ := hrep'.exists_entry (p := q) (by
        rw [← hrep'.allocated, hdata.isSome, he]
        rfl)
      have hitem : e'.item = e.item := by
        rw [← itemOf_entry he', ← itemOf_entry he, hdata.itemOf]
      have hhit : (c'.codeAndSize (some q)).map Prod.fst = some e'.x86Code := by
        simp only [Cache.codeAndSize, Option.bind_eq_bind, Option.bind_some, he']
        rfl
      rw [hhit]
      refine ⟨q, e, he, ?_, (congrArg Item.x86Code hitem).symm⟩
      rw [itemOf_entry he] at haddr
      exact haddr

/-- An insertion of code that is what its origin says. -/
theorem tcacheInsert (h : Traced g origins s held) (ha : g.Translated origins s.regions a)
    (addr : Addr) (size : Nat) (alloc : Heap.Allocator Entry) :
    ∃ s', s.tcacheInsert addr a size false alloc = some s' ∧ Traced g origins s' held ∧
      s'.codeHashTable = s.codeHashTable ∧ s'.regions = s.regions := by
  by_cases hzero : a = 0#64
  · refine ⟨s, ?_, h, rfl, rfl⟩
    simp only [Instance.tcacheInsert, tcacheInsertEx, hzero, if_true, Option.bind_eq_bind,
      Option.bind_some]
    rfl
  obtain ⟨lru, chained, hrep⟩ := h.represented
  obtain ⟨st, c', fx, kept, dropped, lru', chained', new, hrun, hrep', hsplit, hrel, hcodes⟩ :=
    tcacheInsertEx_codes hrep addr hzero size false alloc
  rw [h.ownedCodes_eq_nil hrep fun q hq ↦ hsplit ▸ List.mem_append_right kept hq,
    List.perm_nil] at hrel
  refine ⟨{ s with cache := c' }, ?_, h.recache hrep' fun q d hd ↦ ?_, rfl, rfl⟩
  · simp only [Instance.tcacheInsert, hrun, hrel, Option.bind_eq_bind, Option.bind_some]
    rfl
  · rcases hcodes q d hd with ⟨-, rfl⟩ | ⟨-, hold⟩
    · exact .inr ⟨rfl, ha⟩
    · exact .inl hold

theorem invalidateEasy (h : Traced g origins s held) :
    ∃ s', s.invalidateEasy = some s' ∧ Traced g origins s' held := by
  obtain ⟨lru, chained, hrep⟩ := h.represented
  obtain ⟨c', fx, hrun, hrep', -, hrel⟩ := tcacheClear_spec hrep
  rw [h.ownedCodes_eq_nil hrep fun q hq ↦ hq, List.perm_nil] at hrel
  refine ⟨{ s with cache := c' }, ?_, h.recache hrep' fun q d hd ↦ ?_⟩
  · simp only [Instance.invalidateEasy, hrun, hrel, Option.bind_eq_bind, Option.bind_some]
    rfl
  · rw [codeAt_eq_none_of_notMem hrep' List.not_mem_nil] at hd
    cases hd

/-- Code enters the code table. -/
theorem codeHashInsert (h : Traced g origins s held) (ha : g.Translated origins s.regions a)
    (hash : BitVec 64) (size : Nat) (malloc : Bool) :
    Traced g origins (s.codeHashInsert hash a size malloc) held ∧
      (s.codeHashInsert hash a size malloc).regions = s.regions := by
  unfold Instance.codeHashInsert
  split
  · refine ⟨{ h with hashed := fun b hb ↦ ?_ }, rfl⟩
    cases htable : s.codeHashTable with
    | none => simp [Instance.hashedCodes, htable] at hb
    | some table =>
      simp only [Instance.hashedCodes, htable, Option.map_some, Option.getD_some, List.map_cons,
        List.mem_cons] at hb
      rcases hb with rfl | hb
      · exact ha
      · apply h.hashed b
        simpa [Instance.hashedCodes, htable] using hb
  · exact ⟨h, rfl⟩

/-- Memory for a translation is mapped. -/
theorem place (h : Traced g origins s held) {code : Placement} {o : Origin}
    (hplace : code.place s.regions = some a) (x86 : List Byte) :
    Traced g (origins.place code s.regions o) (s.occupy a x86) held ∧
      (x86 = convertBlockBytes g.env o.stack (g.block o.addr o.size) a →
        g.Translated (origins.place code s.regions o) (s.occupy a x86).regions a) := by
  have horigins : origins.place code s.regions o = Function.update origins a o := by
    simp only [Origins.place, hplace]
  have hfree := (code.fresh _ _ hplace).2
  rw [horigins]
  constructor
  · apply h.write
    intro b hb
    have hne : b ≠ a := by
      rintro rfl
      rw [Instance.Live, hfree] at hb
      cases hb
    rw [Function.update_of_ne hne, if_neg hne]
    exact ⟨rfl, rfl⟩
  · rintro rfl
    unfold Guest.Translated
    rw [Function.update_self]
    exact if_pos rfl

/-- Memory that is not in use any more, or was not mapped. -/
theorem unplaced (h : Traced g origins s held) (code : Placement) (o : Origin) :
    Traced g (origins.place code s.regions o) s held := by
  cases hplace : code.place s.regions with
  | none =>
    simp only [Origins.place, hplace]
    exact h
  | some a =>
    simp only [Origins.place, hplace]
    apply h.write s.regions
    intro b hb
    have hne : b ≠ a := by
      rintro rfl
      rw [Instance.Live, (code.fresh _ _ hplace).2] at hb
      cases hb
    exact ⟨rfl, Function.update_of_ne hne _ _⟩

/-- The translation at the end of a request. -/
theorem translateNew (h : Traced g origins s held) (p : Addr) (n : Nat) (m : Meets) :
    ∃ r s', s.translateNew p (g.code p n) (m.answers g) = some (r, s') ∧
      Traced g (origins.place m.code s.regions ⟨p, n, m.stack⟩) s' held ∧
      ∀ a, r = some a → ∃ stack x86Base,
        s'.regions a = some (convertBlockBytes g.env stack (g.block p n) x86Base) := by
  unfold Instance.translateNew Instance.allocCode
  simp only [h.noPool]
  cases hplace : m.code.place s.regions with
  | none =>
    refine ⟨none, s, ?_, h.unplaced _ _, nofun⟩
    simp only [Meets.answers, hplace, Option.map_none]
  | some a =>
    simp only [Meets.answers, hplace, Option.map_some]
    split
    · next x86 hconv _ =>
      have hx86 : x86 = convertBlockBytes g.env m.stack (g.block p n) a := by
        split at hconv
        · rw [← Option.some.inj hconv, g.length_code]
        · cases hconv
      obtain ⟨hplaced, htranslated⟩ := h.place (o := ⟨p, n, m.stack⟩) hplace x86
      have hcode := htranslated hx86
      obtain ⟨htable, hregions⟩ :=
        hplaced.codeHashInsert hcode (codeHash (g.code p n)) x86.length m.hashEntry
      obtain ⟨s', hrun, hinserted, -, hregions'⟩ :=
        htable.tcacheInsert (hregions.symm ▸ hcode) p x86.length m.entry
      refine ⟨some a, s', ?_, hinserted, fun b hb ↦ ⟨m.stack, a, ?_⟩⟩
      · rw [Instance.occupy_occupy, hrun]
        rfl
      · obtain rfl := Option.some.inj hb
        rw [hregions', hregions, ← hx86]
        exact if_pos rfl
    · refine ⟨none, _, rfl, ?_, nofun⟩
      rw [if_neg (by simp [Instance.occupy, h.noPool])]
      rw [Instance.release_occupy (m.code.fresh _ _ hplace).2]
      exact h.unplaced _ _

end Traced

/-- Code that serves for a request is a translation of its block. -/
theorem Guest.Serves.translation {g : Guest} {origins : Origins} {r : Regions} {a p : Addr} {n : Nat}
    (h : g.Serves (origins a) a p n) (ha : g.Translated origins r a) :
    ∃ stack x86Base, r a = some (convertBlockBytes g.env stack (g.block p n) x86Base) := by
  refine ⟨(origins a).stack.move (p - (origins a).addr), a, ?_⟩
  rw [ha, ← convertBlockBytes_alike g.env a h.1 h.2]
  rfl

/-- A request. -/
theorem Traced.translateEasy {g : Guest} {origins : Origins} {sys : System} {held : List Addr}
    (h : Traced g origins sys.inst held) (p : Addr) (n : Nat) (m : Meets)
    (hun : (Call.translateEasy p n m).Unambiguous g sys origins) :
    ∃ r s', sys.inst.translateEasy p (g.code p n) (m.answers g) = some (r, s') ∧
      Traced g (origins.place m.code sys.inst.regions ⟨p, n, m.stack⟩) s' held ∧
      ∀ a, r = some a → ∃ stack x86Base,
        s'.regions a = some (convertBlockBytes g.env stack (g.block p n) x86Base) := by
  unfold Instance.translateEasy
  split
  · exact ⟨none, sys.inst, rfl, h.unplaced _ _, nofun⟩
  obtain ⟨hit, s₁, hlookup, h₁, htable, hregions, hhit⟩ := h.tcacheLookup p
  rw [← hregions]
  simp only [hlookup, Option.bind_eq_bind, Option.bind_some]
  cases hit with
  | some a =>
    obtain ⟨q, e, he, haddr, rfl⟩ := hhit
    refine ⟨some e.x86Code, s₁, rfl, h₁.unplaced _ _, fun b hb ↦ ?_⟩
    obtain rfl := Option.some.inj hb
    rw [hregions]
    exact (hun.1 q e he haddr).translation (h.cached q _ (codeAt_entry he)).2
  | none =>
    have hload : s₁.loadPersistent p (m.answers g) = some (none, s₁) := by
      simp only [Instance.loadPersistent, h₁.noPcache]
    simp only [hload, Option.bind_some, Option.isSome_none, Bool.false_eq_true, if_false]
    cases hfind : s₁.codeHashLookup (codeHash (g.code p n)) with
    | some e =>
      refine ⟨some e.x86Code, s₁, rfl, h₁.unplaced _ _, fun b hb ↦ ?_⟩
      obtain rfl := Option.some.inj hb
      obtain ⟨table, htab, hfound⟩ := Option.bind_eq_some_iff.mp hfind
      rw [htable] at htab
      have hmem : e ∈ sys.inst.codeHashTable.getD [] := by
        rw [htab]
        exact List.mem_of_find?_eq_some hfound
      have hhash : e.hash = codeHash (g.code p n) := by simpa using List.find?_some hfound
      rw [hregions]
      exact (hun.2 hhit e hmem hhash).translation (h.hashed _ (List.mem_map_of_mem hmem))
    | none => exact h₁.translateNew p n m

/-- The code that a worker in this phase holds. -/
def Phase.code : Phase → List Addr
  | .hashConverted a _ => [a]
  | .insertConverted a _ => [a]
  | _ => []

/-- The phases of a batch without a persistent cache. -/
def Phase.Plain : Phase → Prop
  | .lookupCache | .lookupHash | .lookupPcache | .convert => True
  | .hashConverted .. | .insertConverted .. => True
  | _ => False

/-- A step of a batch. -/
theorem Traced.step {g : Guest} {origins : Origins} {s : Instance} {held : List Addr} {phase : Phase}
    (h : Traced g origins s (phase.code ++ held)) (hplain : phase.Plain) (b : CodeBlock) (m : Meets) :
    ∃ next s', phase.step false b s (m.answers g) = some (next, s') ∧
      (next.getD .lookupCache).Plain ∧
      Traced g (origins.place m.code s.regions ⟨b.armCode, b.code.length, m.stack⟩) s'
        ((next.getD .lookupCache).code ++ held) := by
  have hstill := h.unplaced m.code ⟨b.armCode, b.code.length, m.stack⟩
  cases phase with
  | lookupCache =>
    unfold Phase.step
    dsimp only
    split
    · obtain ⟨hit, s', hrun, h', -⟩ := hstill.tcacheLookup b.key
      simp only [hrun, Option.bind_eq_bind, Option.bind_some]
      refine ⟨_, s', rfl, ?_⟩
      split
      · exact ⟨trivial, h'⟩
      · exact ⟨trivial, h'⟩
    · exact ⟨none, s, rfl, trivial, hstill⟩
  | lookupHash =>
    refine ⟨_, s, rfl, ?_⟩
    split
    · exact ⟨trivial, hstill⟩
    · exact ⟨trivial, hstill⟩
  | lookupPcache =>
    refine ⟨some .convert, s, ?_, trivial, hstill⟩
    simp only [Phase.step, h.noPcache]
  | convert =>
    cases hplace : m.code.place s.regions with
    | none =>
      refine ⟨none, s, ?_, trivial, hstill⟩
      simp only [Phase.step, Meets.answers, hplace]
    | some a =>
      cases hconv : m.converts with
      | false =>
        refine ⟨none, s, ?_, trivial, hstill⟩
        simp only [Phase.step, Meets.answers, hplace, hconv, Bool.false_eq_true, if_false]
      | true =>
        let x86 := convertBlockBytes g.env m.stack (g.block b.armCode b.code.length) a
        obtain ⟨hplaced, hcode⟩ := h.place (o := ⟨b.armCode, b.code.length, m.stack⟩) hplace x86
        refine ⟨some (.hashConverted a x86.length), s.occupy a x86, ?_, trivial,
          { hplaced with held := fun c hc ↦ ?_ }⟩
        · simp only [Phase.step, Meets.answers, hplace, hconv, if_true]
          rfl
        rcases List.mem_cons.mp hc with rfl | hc
        · exact hcode rfl
        · exact hplaced.held c hc
  | hashConverted a size =>
    have hcode := hstill.held a (by simp [Phase.code])
    exact ⟨_, _, rfl, trivial, (hstill.codeHashInsert hcode _ _ _).1⟩
  | insertConverted a size =>
    have hcode := hstill.held a (by simp [Phase.code])
    obtain ⟨s', hrun, h', -⟩ := hstill.tcacheInsert hcode b.key size m.entry
    refine ⟨none, s', ?_, trivial, h'.mono (List.subset_cons_self a held)⟩
    simp only [Phase.step, Meets.answers, hrun, Option.bind_eq_bind, Option.bind_some]
    rfl
  | mapCached | freeCopied | insertCached | hashCached | freeCached => exact hplain.elim

/-- The tables and the batches of a system. -/
structure Attributed (g : Guest) (origins : Origins) (sys : System) : Prop where
  traced : Traced g origins sys.inst (sys.workers.flatMap (·.phase.code))
  workers : ∀ w ∈ sys.workers, w.owned = false ∧ w.phase.Plain

namespace Attributed

variable {g : Guest} {origins : Origins} {sys : System}

/-- A step of one of the batches. -/
theorem step (h : Attributed g origins sys) {i : Nat} {w : Worker} (hw : sys.workers[i]? = some w)
    (m : Meets) : ∃ w' s', w.step sys.inst (m.answers g) = some (w', s') ∧
      Attributed g ((Call.step i m).originsAfter sys origins)
        { inst := s', workers := sys.workers.set i w' } := by
  obtain ⟨owned, blocks, phase⟩ := w
  have hmem := List.mem_of_getElem? hw
  obtain ⟨rfl, hplain⟩ := h.workers _ hmem
  cases blocks with
  | nil =>
    refine ⟨_, _, rfl, ?_⟩
    obtain ⟨hlt, hget⟩ := List.getElem?_eq_some_iff.mp hw
    rw [← hget, List.set_getElem_self]
    simp only [Call.originsAfter, hw]
    exact h
  | cons b rest =>
    have hown : Traced g origins sys.inst (phase.code ++ sys.workers.flatMap (·.phase.code)) := by
      apply h.traced.mono
      intro a ha
      rcases List.mem_append.mp ha with ha | ha
      · exact List.mem_flatMap.mpr ⟨_, hmem, ha⟩
      · exact ha
    obtain ⟨next, s', hrun, hnext, htraced⟩ := hown.step hplain b m
    have hworker : ∃ w' : Worker, (Worker.mk false (b :: rest) phase).step sys.inst (m.answers g) =
        some (w', s') ∧ w'.owned = false ∧ w'.phase = next.getD .lookupCache := by
      simp only [Worker.step, hrun, Option.bind_eq_bind, Option.bind_some]
      cases next with
      | none => exact ⟨_, rfl, rfl, rfl⟩
      | some phase => exact ⟨_, rfl, rfl, rfl⟩
    obtain ⟨w', hstep, howned, hphase⟩ := hworker
    rw [← hphase] at hnext htraced
    refine ⟨w', s', hstep, ?_, fun v hv ↦ ?_⟩
    · simp only [Call.originsAfter, hw]
      apply htraced.mono
      intro a ha
      obtain ⟨v, hv, hav⟩ := List.mem_flatMap.mp ha
      rcases List.mem_or_eq_of_mem_set hv with hv | rfl
      · exact List.mem_append_right _ (List.mem_flatMap.mpr ⟨v, hv, hav⟩)
      · exact List.mem_append_left _ hav
    · rcases List.mem_or_eq_of_mem_set hv with hv | rfl
      · exact h.workers v hv
      · exact ⟨howned, hnext⟩

/-- One call. -/
theorem exec (h : Attributed g origins sys) {call : Call} (hun : call.Unambiguous g sys origins) :
    call.Transparent g sys ∧ ∃ sys', (call.event g).exec sys = some sys' ∧
      Attributed g (call.originsAfter sys origins) sys' := by
  cases call with
  | translateEasy p n m =>
    obtain ⟨r, s', hrun, htraced, hcode⟩ := h.traced.translateEasy p n m hun
    refine ⟨⟨r, s', hrun, hcode⟩, { sys with inst := s' }, ?_, htraced, h.workers⟩
    simp only [Call.event, Event.exec, hrun, Option.bind_eq_bind, Option.bind_some]
    rfl
  | translateBatch blocks =>
    refine ⟨rfl, _, rfl, h.traced.mono ?_, fun w hw ↦ ?_⟩
    · intro a ha
      rw [List.flatMap_append] at ha
      rcases List.mem_append.mp ha with ha | ha
      · exact ha
      · cases ha
    · rcases List.mem_append.mp hw with hw | hw
      · exact h.workers w hw
      · rw [List.mem_singleton.mp hw]
        exact ⟨rfl, trivial⟩
  | step worker m =>
    cases hw : sys.workers[worker]? with
    | none =>
      have hexec : ((Call.step worker m).event g).exec sys = some sys := by
        simp only [Call.event, Event.exec, hw]
      refine ⟨?_, sys, hexec, ?_⟩
      · show (((Call.step worker m).event g).exec sys).isSome
        rw [hexec]
        rfl
      · simp only [Call.originsAfter, hw]
        exact h
    | some w =>
      obtain ⟨w', s', hrun, hattributed⟩ := h.step hw m
      have hexec : ((Call.step worker m).event g).exec sys =
          some { inst := s', workers := sys.workers.set worker w' } := by
        simp only [Call.event, Event.exec, hw, hrun, Option.bind_eq_bind, Option.bind_some]
        rfl
      refine ⟨?_, _, hexec, hattributed⟩
      show (((Call.step worker m).event g).exec sys).isSome
      rw [hexec]
      rfl
  | invalidateEasy =>
    obtain ⟨s', hrun, htraced⟩ := h.traced.invalidateEasy
    have hexec : (Call.invalidateEasy.event g).exec sys = some { sys with inst := s' } := by
      simp only [Call.event, Event.exec, hrun, Option.bind_eq_bind, Option.bind_some]
      rfl
    refine ⟨?_, _, hexec, htraced, h.workers⟩
    show ((Call.invalidateEasy.event g).exec sys).isSome
    rw [hexec]
    rfl

end Attributed

/-- In every run of requests, batches and invalidations in which no key stands for two blocks with
different translations, every request gets the translation of its block. -/
theorem easy_run_transparent (g : Guest) (cacheSize hashBuckets : Nat) (table : Bool)
    (origins : Origins) (calls : List Call)
    (hun : ∀ x ∈ tracedCalls g calls ⟨createEasy cacheSize hashBuckets table false false, []⟩ origins,
      x.1.Unambiguous g x.2.1 x.2.2) :
    (tracedCalls g calls ⟨createEasy cacheSize hashBuckets table false false, []⟩ origins).length =
        calls.length ∧
      ∀ x ∈ tracedCalls g calls ⟨createEasy cacheSize hashBuckets table false false, []⟩ origins,
        x.1.Transparent g x.2.1 := by
  have hstart : Attributed g origins ⟨createEasy cacheSize hashBuckets table false false, []⟩ := by
    have hrep := tcacheCreate_represents cacheSize hashBuckets
    refine ⟨⟨⟨[], [], hrep⟩, fun q d hd ↦ ?_, fun a ha ↦ ?_, nofun, rfl, rfl⟩, nofun⟩
    · change codeAt (tcacheCreate cacheSize hashBuckets) q = some d at hd
      rw [codeAt_eq_none_of_notMem hrep List.not_mem_nil] at hd
      cases hd
    · cases table <;> cases ha
  generalize (⟨createEasy cacheSize hashBuckets table false false, []⟩ : System) = sys at hun hstart ⊢
  induction calls generalizing sys origins with
  | nil => exact ⟨rfl, fun x hx ↦ absurd hx List.not_mem_nil⟩
  | cons call calls ih =>
    simp only [tracedCalls, List.forall_mem_cons] at hun
    obtain ⟨htrans, sys', hexec, hnext⟩ := hstart.exec hun.1
    rw [hexec] at hun
    obtain ⟨hlen, hrest⟩ := ih _ sys' hun.2 hnext
    simp only [tracedCalls, hexec, List.length_cons, hlen, List.forall_mem_cons]
    exact ⟨trivial, htrans, hrest⟩

/-- Requests for one block, and invalidations. -/
private def Call.asksFor (o : Origin) : Call → Prop
  | .translateEasy p n m => p = o.addr ∧ n = o.size ∧ m.stack = o.stack
  | .invalidateEasy => True
  | _ => False

private theorem unambiguous_of_asksFor (g : Guest) (o : Origin) {calls : List Call}
    (hcalls : ∀ call ∈ calls, call.asksFor o) (sys : System) :
    ∀ x ∈ tracedCalls g calls sys (fun _ ↦ o), x.1.Unambiguous g x.2.1 x.2.2 := by
  have hserves : ∀ a, g.Serves o a o.addr o.size := fun _ ↦
    ⟨⟨fun _ ↦ Iff.rfl, fun _ _ ↦ ⟨rfl, rfl⟩⟩, .inl rfl⟩
  induction calls generalizing sys with
  | nil => exact fun x hx ↦ absurd hx List.not_mem_nil
  | cons call calls ih =>
    rw [List.forall_mem_cons] at hcalls
    have hcall := hcalls.1
    have hsame : call.originsAfter sys (fun _ ↦ o) = fun _ ↦ o := by
      cases call with
      | translateEasy p n m =>
        obtain ⟨rfl, rfl, hstack⟩ := hcall
        simp only [Call.originsAfter, Origins.place, hstack]
        split
        · exact Function.update_eq_self _ _
        · rfl
      | step => exact hcall.elim
      | _ => rfl
    rw [tracedCalls, List.forall_mem_cons]
    constructor
    · cases call with
      | translateEasy p n m =>
        obtain ⟨rfl, rfl, -⟩ := hcall
        exact ⟨fun _ _ _ _ ↦ hserves _, fun _ _ _ _ ↦ hserves _⟩
      | _ => trivial
    · rw [hsame]
      split
      · exact fun x hx ↦ absurd hx List.not_mem_nil
      · next sys' _ => exact ih hcalls.2 sys'

/-- The same instructions at the start of every page. -/
private def pagesOf (words : List (BitVec 32)) : Memory := fun q ↦
  (words.flatMap X86.imm32).getD (q &&& 0xfff).toNat 0

private def meetsAt (a : Addr) (p : Ptr) : Meets := ⟨.zero, .at a, true, true, true, .at Entry p⟩

/-- A block is translated, found in the cache, and after an invalidation in the code table. -/
theorem easy_run_transparent_hits :
    (tracedCalls ⟨.default, pagesOf [0xd2800540, 0xd65f03c0]⟩
        [.translateEasy 0x1000 8 (meetsAt 0x500000 1), .translateEasy 0x1000 8 (meetsAt 0x600000 2),
          .invalidateEasy, .translateEasy 0x1000 8 (meetsAt 0x600000 2)]
        ⟨createEasy 4096 1 true false false, []⟩ (fun _ ↦ ⟨0x1000, 8, .zero⟩)).length = 4 ∧
      ∀ x ∈ tracedCalls ⟨.default, pagesOf [0xd2800540, 0xd65f03c0]⟩
        [.translateEasy 0x1000 8 (meetsAt 0x500000 1), .translateEasy 0x1000 8 (meetsAt 0x600000 2),
          .invalidateEasy, .translateEasy 0x1000 8 (meetsAt 0x600000 2)]
        ⟨createEasy 4096 1 true false false, []⟩ (fun _ ↦ ⟨0x1000, 8, .zero⟩),
        x.1.Transparent ⟨.default, pagesOf [0xd2800540, 0xd65f03c0]⟩ x.2.1 := by
  apply easy_run_transparent
  apply unambiguous_of_asksFor
  simp [Call.asksFor, meetsAt]

/-- The bytes that the output for a block with a leading `BL` starts with: the prologue and the link
value. -/
private def linkBytes (addr : Addr) : List Byte :=
  ((prologue ++ (regAllocSetupCallingConvention regAllocInit).2 ++
    movSlot [X86.rexRm 0 0] 30 (addr + 4)).map Translate.Item.code).flatMap Translate.Item.bytes

private theorem linkBytes_prefix (env : Env) {stack : Stack} {blk : Block} (x86Base : BitVec 64)
    (hsize : 0 < blk.size) (hbl : (blk.decoded stack 0).instrType = .bl) :
    linkBytes blk.addr <+: convertBlockBytes env stack blk x86Base := by
  let t := startCtx stack blk x86Base
  have hbranch : ∀ (u : TranslateCtx) a isCall, u.out <+: (u.branchTo a isCall).out := by
    intro u a isCall
    unfold TranslateCtx.branchTo
    split
    · exact List.prefix_append _ _
    · unfold TranslateCtx.emitDispatchStub
      split
      · exact List.prefix_append _ _
      · exact List.prefix_append _ _
  have hstep : (t.pcMapAdd.emit t.linkCode).out <+: (translateStep env stack blk 0 t).out := by
    unfold translateStep
    dsimp only
    rw [hbl]
    exact hbranch _ _ _
  have hloop : (translateStep env stack blk 0 t).out <+:
      (convertLoop env stack blk maxInstructions 0 t).out := by
    rw [show maxInstructions = 63 + 1 from rfl, convertLoop, if_pos (by omega), hbl]
    exact out_prefix_batchStore _
  have hblock : (convertLoop env stack blk maxInstructions 0 t).out <+:
      (convertBlock env stack blk x86Base).out :=
    (out_prefix_batchStore _).trans (out_prefix_emit _ _)
  obtain ⟨rest, hout⟩ := (hstep.trans hloop).trans hblock
  refine ⟨rest.flatMap Translate.Item.bytes, ?_⟩
  have hstart : (t.pcMapAdd.emit t.linkCode).out =
      (prologue ++ (regAllocSetupCallingConvention regAllocInit).2 ++
        movSlot [X86.rexRm 0 0] 30 (blk.addr + 4)).map Translate.Item.code := by
    show t.pcMapAdd.out ++ t.linkCode.map _ = _
    rw [pcMapAdd_out, List.map_append]
    rfl
  rw [convertBlockBytes, ← hout, List.flatMap_append, hstart, linkBytes]

/-- A call of a function, at the start of every page. -/
private def callingGuest : Guest := ⟨.default, pagesOf [0x94000040]⟩

private def newSystem : System := ⟨createEasy 4096 1 true false false, []⟩

/-- The second request for the call answers with code that starts with another link value. -/
private theorem answers_other_link :
    ((newSystem.inst.translateEasy 0x1000 (callingGuest.code 0x1000 4)
      ((meetsAt 0x500000 1).answers callingGuest)).bind fun first ↦
        (first.2.translateEasy 0x2000 (callingGuest.code 0x2000 4)
          ((meetsAt 0x600000 2).answers callingGuest)).bind
          fun second ↦ second.1.bind fun a ↦ (second.2.regions a).map fun code ↦
            (linkBytes 0x2000).isPrefixOf code) = some false := by
  decide +kernel

/-- Two calls of one function from two places: the second place gets the code of the first, with the
first return address. -/
theorem easy_run_not_transparent :
    ¬ ∀ (g : Guest) (cacheSize hashBuckets : Nat) (table : Bool) (origins : Origins)
      (calls : List Call),
      ∀ x ∈ tracedCalls g calls ⟨createEasy cacheSize hashBuckets table false false, []⟩ origins,
        x.1.Transparent g x.2.1 := by
  intro hall
  have hrun := hall callingGuest 4096 1 true (fun _ ↦ ⟨0, 0, .zero⟩)
    [.translateEasy 0x1000 4 (meetsAt 0x500000 1), .translateEasy 0x2000 4 (meetsAt 0x600000 2)]
  obtain ⟨first, hfirst, hother⟩ := Option.bind_eq_some_iff.mp answers_other_link
  obtain ⟨second, hsecond, hother⟩ := Option.bind_eq_some_iff.mp hother
  obtain ⟨a, ha, hother⟩ := Option.bind_eq_some_iff.mp hother
  obtain ⟨code, hcode, hother⟩ := Option.map_eq_some_iff.mp hother
  have hexec : ((Call.translateEasy 0x1000 4 (meetsAt 0x500000 1)).event callingGuest).exec newSystem =
      some { newSystem with inst := first.2 } := by
    simp only [Call.event, Event.exec, hfirst, Option.bind_eq_bind, Option.bind_some]
    rfl
  have hstep : (Call.translateEasy 0x2000 4 (meetsAt 0x600000 2)).Transparent callingGuest
      { newSystem with inst := first.2 } := by
    change ∀ x ∈ tracedCalls callingGuest _ newSystem _, _ at hrun
    simp only [tracedCalls, hexec, List.forall_mem_cons] at hrun
    exact hrun.2.1
  obtain ⟨r, s', hagain, htrans⟩ := hstep
  obtain ⟨rfl, rfl⟩ := Prod.mk.inj (Option.some.inj (hsecond.symm.trans hagain))
  obtain ⟨stack, x86Base, htranslation⟩ := htrans a ha
  have hbl : ((callingGuest.block 0x2000 4).decoded stack 0).instrType = .bl := by
    have haligned : (callingGuest.block 0x2000 4).decoded stack 0 =
        decode ((callingGuest.block 0x2000 4).word 0) := if_pos (by decide)
    rw [haligned]
    decide +kernel
  have hlink := linkBytes_prefix callingGuest.env x86Base (by decide) hbl
  rw [← Option.some.inj (hcode.symm.trans htranslation), ← List.isPrefixOf_iff_prefix] at hlink
  exact absurd (hlink.symm.trans hother) (by decide)

end Arm2x86.Easy
