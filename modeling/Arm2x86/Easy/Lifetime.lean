import Arm2x86.Easy.Ownership

/-!
# The lifetime of translated code

The calls of `modules/arm2x86_easy.c` keep one owner for everything as long as they meet the
condition of `Event.OneOwner`, and so does every run of calls and workers' steps.
-/

namespace Arm2x86.Easy

open Tcache

namespace Sound

variable {s : Instance} {u p : List Addr} {a : Addr}

/-- The pool hands out memory for code on its way into the cache. -/
theorem hand (h : Sound s u p) {pl : Placement} {handed : List Addr}
    (ha : pl.place s.regions = some a) (hpool : s.mempool = some handed) :
    Sound { s.occupy a [] with mempool := some (a :: handed) } u (a :: p) := by
  obtain ⟨huncached, hunhashed, hunheld, hunpooled⟩ := h.fresh ha
  have h' := (h.place ha []).toPending
  have hold : s.pooled = handed := by rw [Instance.pooled, hpool]; rfl
  refine { h' with
    pooled := fun b hb ↦ ?_
    pooledOnce := List.nodup_cons.mpr ⟨hold ▸ hunpooled, hold ▸ h.pooledOnce⟩ }
  rcases List.mem_cons.mp hb with rfl | hb
  · exact ⟨(h'.held b (by simp)).1, fun q ↦ huncached q true, hunhashed,
      fun hu ↦ hunheld (List.mem_append_left p hu)⟩
  · exact h'.pooled b (hold.symm ▸ hb)

/-- A persistent hit is copied, and its buffer released. -/
theorem loadPersistent (h : Sound s u p) (addr : Addr) (ans : Answers) :
    ∃ r s', s.loadPersistent addr ans = some (r, s') ∧ Sound s' u p ∧ SameTables s s' := by
  unfold Instance.loadPersistent
  split
  · next code buf hpc hans hbuf =>
    have hbuffer := h.place hbuf code
    dsimp only
    split
    · next exec hexec =>
      have hcopied := hbuffer.place hexec code
      have hswap : Sound ((s.occupy buf code).occupy exec code) (buf :: exec :: u) p :=
        hcopied.subperm (List.Perm.swap _ _ _).subset (List.Perm.swap _ _ _).subperm
      obtain ⟨s', hrun, hsound, hsame, -⟩ :=
        hswap.free.toPending.tcacheInsert addr code.length false ans.entry nofun
      refine ⟨some exec, s', ?_, hsound,
        (SameTables.release ((s.occupy buf code).occupy exec code) buf).trans hsame⟩
      rw [hrun]
      rfl
    · exact ⟨none, _, rfl, hbuffer.free, SameTables.release (s.occupy buf code) buf⟩
  · exact ⟨none, s, rfl, h, rfl, rfl⟩

/-- Code that does not enter the table leaves it as it is. -/
theorem codeHashInsert_skipped (s : Instance) {ans : Answers}
    (hskip : s.codeHashTable = none ∨ ans.hashEntry = false) (hash : BitVec 64) (a : Addr)
    (size : Nat) : s.codeHashInsert hash a size ans.hashEntry = s := by
  rcases hskip with hnone | hfalse
  · cases s
    obtain rfl : _ = none := hnone
    unfold Instance.codeHashInsert
    split <;> rfl
  · rw [hfalse]
    rfl

/-- The end of a translation: the code is on its way into the cache, and the pool keeps its own. -/
private theorem insertNew (h : Sound s u (a :: p)) (addr : Addr) (size : Nat)
    (alloc : Heap.Allocator Entry) {pool : List Addr} (hpool : ∀ b ∈ s.pooled, b ∈ pool ∨ b ∉ p) :
    ∃ r s', (do return (some a, ← s.tcacheInsert addr a size false alloc)) = some (r, s') ∧
      Sound s' u p ∧ ∀ b ∈ s'.pooled, b ∈ pool ∨ b ∉ p := by
  obtain ⟨s', hrun, hsound, hsame, -⟩ := h.tcacheInsert addr size false alloc nofun
  refine ⟨some a, s', ?_, hsound, fun b hb ↦ hpool b (hsame.pooled ▸ hb)⟩
  rw [hrun]
  rfl

/-- A translation to mapped memory. -/
private theorem translateMapped (h : Sound s u p) (armCode : Addr) (code : List Byte)
    (ans : Answers) (halloc : s.allocCode ans =
      (ans.code.place s.regions).map fun a ↦ (a, s.occupy a [])) :
    ∃ r s', s.translateNew armCode code ans = some (r, s') ∧ Sound s' u p ∧
      ∀ b ∈ s'.pooled, b ∈ s.pooled ∨ b ∉ p := by
  unfold Instance.translateNew
  rw [halloc]
  cases ha : ans.code.place s.regions with
  | none => exact ⟨none, s, rfl, h, fun b hb ↦ .inl hb⟩
  | some a =>
    have hplaced := h.place ha []
    simp only [Option.map_some]
    split
    · next x86 hconv _ =>
      have hpublished := (hplaced.occupy a x86).publish (codeHash code) x86.length ans.hashEntry
      refine hpublished.insertNew armCode x86.length ans.entry fun b hb ↦ .inl ?_
      unfold Instance.codeHashInsert at hb
      split at hb <;> exact hb
    · split
      · exact ⟨none, _, rfl, hplaced.forget, fun b hb ↦ .inl hb⟩
      · refine ⟨none, _, rfl, hplaced.free, fun b hb ↦ .inl ?_⟩
        rw [(SameTables.release (s.occupy a []) a).pooled] at hb
        exact hb

/-- A translation, provided no code of the pool enters the code table. -/
theorem translateNew (h : Sound s u p) (armCode : Addr) (code : List Byte) (ans : Answers)
    (hpool : s.mempool = none ∨ s.codeHashTable = none ∨ ans.hashEntry = false ∨
      ∀ r, ans.pool.place r = none) :
    ∃ r s', s.translateNew armCode code ans = some (r, s') ∧ Sound s' u p ∧
      ∀ b ∈ s'.pooled, b ∈ s.pooled ∨ b ∉ p := by
  cases hmem : s.mempool with
  | none =>
    refine h.translateMapped armCode code ans ?_
    simp only [Instance.allocCode, hmem]
  | some handed =>
    cases hp : ans.pool.place s.regions with
    | none =>
      refine h.translateMapped armCode code ans ?_
      simp only [Instance.allocCode, hmem, hp]
    | some a =>
      have hskip : s.codeHashTable = none ∨ ans.hashEntry = false := by
        rcases hpool with hnone | htable | hentry | hnever
        · cases hmem.symm.trans hnone
        · exact .inl htable
        · exact .inr hentry
        · cases (hnever s.regions).symm.trans hp
      have hhanded := h.hand hp hmem
      have hfresh : a ∉ p := fun ha ↦ (h.fresh hp).2.2.1 (List.mem_append_right u ha)
      have hold : ∀ b ∈ (a :: handed), b ∈ s.pooled ∨ b ∉ p := by
        intro b hb
        rcases List.mem_cons.mp hb with rfl | hb
        · exact .inr hfresh
        · rw [Instance.pooled, hmem]
          exact .inl hb
      unfold Instance.translateNew
      simp only [Instance.allocCode, hmem, hp]
      split
      · next x86 hconv _ =>
        rw [codeHashInsert_skipped]
        · exact (hhanded.occupy a x86).insertNew armCode x86.length ans.entry hold
        · exact hskip
      · exact ⟨none, _, rfl, hhanded.forgetPending, hold⟩

/-- A request. -/
theorem translateEasy (h : Sound s u p) (armCode : Addr) (code : List Byte) (ans : Answers)
    (hpool : s.mempool = none ∨ s.codeHashTable = none ∨ ans.hashEntry = false ∨
      (∀ r, ans.pool.place r = none) ∨ s.Known armCode code) :
    ∃ r s', s.translateEasy armCode code ans = some (r, s') ∧ Sound s' u p ∧
      ∀ b ∈ s'.pooled, b ∈ s.pooled ∨ b ∉ p := by
  unfold Instance.translateEasy
  split
  · exact ⟨none, s, rfl, h, fun b hb ↦ .inl hb⟩
  obtain ⟨hit, s₁, hlookup, hsound₁, hsame₁⟩ := h.tcacheLookup armCode
  obtain ⟨loaded, s₂, hload, hsound₂, hsame₂⟩ := hsound₁.loadPersistent armCode ans
  simp only [hlookup, Option.bind_eq_bind, Option.bind_some]
  split
  · exact ⟨hit, s₁, rfl, hsound₁, fun b hb ↦ .inl (hsame₁.pooled ▸ hb)⟩
  · next hmiss =>
    have hsame := hsame₁.trans hsame₂
    simp only [hload, Option.bind_some]
    split
    · exact ⟨loaded, s₂, rfl, hsound₂, fun b hb ↦ .inl (hsame.pooled ▸ hb)⟩
    · split
      · next e he => exact ⟨some e.x86Code, s₂, rfl, hsound₂, fun b hb ↦ .inl (hsame.pooled ▸ hb)⟩
      · next hnone =>
        rw [← hsame.pooled]
        refine hsound₂.translateNew armCode code ans ?_
        rw [hsame.1, hsame.2]
        rcases hpool with hmem | htable | hentry | hnever | ⟨a, s', hcached⟩ | hhashed
        · exact .inl hmem
        · exact .inr (.inl htable)
        · exact .inr (.inr (.inl hentry))
        · exact .inr (.inr (.inr hnever))
        · rw [hlookup] at hcached
          cases hcached
          exact absurd rfl hmiss
        · rw [Instance.codeHashLookup, ← hsame.1] at hhashed
          rw [Instance.codeHashLookup] at hnone
          rw [hnone] at hhashed
          cases hhashed

/-- A module loaded from a file is in the code table, and its cache entry does not own it. -/
theorem loadAotModule (h : Sound s u p) (baseAddr : Addr) (code : List Byte) (complete : Bool)
    (ans : Answers) : ∃ s', s.loadAotModule baseAddr code complete ans = some s' ∧ Sound s' u p ∧
      s'.pooled = s.pooled := by
  have hpooled : ∀ (s : Instance) (hash : BitVec 64) (a : Addr) (size : Nat),
      (s.codeHashInsert hash a size ans.hashEntry).pooled = s.pooled := by
    intro s hash a size
    unfold Instance.codeHashInsert
    split <;> rfl
  unfold Instance.loadAotModule
  cases hbuf : ans.buffer.place s.regions with
  | none => exact ⟨s, rfl, h, rfl⟩
  | some buf =>
    have hloaded := h.place hbuf code
    dsimp only
    split
    · split
      · refine ⟨_, rfl, (hloaded.publish _ _ _).forgetPending, hpooled _ _ _ _⟩
      · obtain ⟨s', hrun, hsound, hsame, hlive, hown⟩ :=
          hloaded.toPending.tcacheInsert baseAddr code.length false ans.entry nofun
        have hunseen : buf ∉ u := fun hu ↦
          (List.nodup_cons.mp hloaded.heldOnce).1 (List.mem_append_left p hu)
        refine ⟨_, ?_, hsound.codeHashInsert hlive ?_ (hown rfl) hunseen ?_ (codeHash code)
          code.length ans.hashEntry, (hpooled _ _ _ _).trans hsame.pooled⟩
        · rw [hrun]
          rfl
        · rw [hsame.hashedCodes]
          exact hloaded.unhashed buf (by simp)
        · rw [hsame.pooled]
          exact fun hp ↦ (hloaded.pooled buf hp).2.2.2 (by simp)
    · exact ⟨_, rfl, hloaded.free, (SameTables.release (s.occupy buf code) buf).pooled⟩

/-- The pointers of the tables are valid. -/
theorem pointersLive (h : Sound s u p) : s.PointersLive :=
  ⟨fun q _ he ↦ h.cached q _ (codeAt_entry he), h.hashed⟩

/-- The end of an instance releases everything once. -/
theorem releasedOnce (h : Sound s u p) : s.ReleasedOnce := by
  refine ⟨h.faults, ?_⟩
  obtain ⟨s₁, hrun, h₁, -⟩ := h.invalidateEasy
  have hhashed : ∀ a ∈ s₁.hashedCodes.filter (· ≠ 0#64), s₁.Live a := fun a ha ↦
    h₁.hashed a (List.mem_of_mem_filter ha)
  have htable := releaseAll_spec (s := { s₁ with codeHashTable := none }) hhashed
    (h₁.hashedOnce.filter _)
  simp only [Instance.destroyEasy, hrun, Option.bind_eq_bind, Option.bind_some, htable]
  refine ⟨_, rfl, ?_⟩
  show (Instance.releaseAll _ s₁.pooled).faults = []
  rw [releaseAll_spec ?_ h₁.pooledOnce]
  · exact h₁.faults
  · intro a ha
    show (if a ∈ s₁.hashedCodes.filter (· ≠ 0#64) then none else s₁.regions a).isSome
    obtain ⟨hlive, -, hunhashed, -⟩ := h₁.pooled a ha
    rw [if_neg fun hm ↦ hunhashed (List.mem_of_mem_filter hm)]
    exact hlive

end Sound

/-- Memory that only a worker in this phase knows. -/
def Phase.unseen : Phase → List Addr
  | .mapCached buf => [buf]
  | .freeCached buf none => [buf]
  | .hashConverted a _ => [a]
  | _ => []

/-- Code that a worker in this phase is about to insert. -/
def Phase.pending : Phase → List Addr
  | .insertConverted a _ => [a]
  | _ => []

/-- The phases without a copy of a persistent hit. -/
def Phase.Uncopied : Phase → Prop
  | .freeCopied .. => False
  | .insertCached .. => False
  | .hashCached .. => False
  | .freeCached _ (some _) => False
  | _ => True

/-- A step of a worker keeps the memory of all workers apart. -/
theorem Sound.step {s : Instance} {u p : List Addr} {phase : Phase}
    (h : Sound s (phase.unseen ++ u) (phase.pending ++ p)) (hphase : phase.Uncopied)
    (hpool : ∀ a ∈ phase.pending, a ∉ s.pooled) {owned : Bool} {ans : Answers}
    (hone : phase.OneOwner owned s ans) (b : CodeBlock) :
    ∃ next s', phase.step owned b s ans = some (next, s') ∧ s'.pooled = s.pooled ∧
      (next.getD .lookupCache).Uncopied ∧ (∀ a ∈ (next.getD .lookupCache).pending, a ∉ s.pooled) ∧
      Sound s' ((next.getD .lookupCache).unseen ++ u) ((next.getD .lookupCache).pending ++ p) := by
  cases phase with
  | lookupCache =>
    unfold Phase.step
    dsimp only
    split
    · obtain ⟨hit, s', hrun, hsound, hsame⟩ := h.tcacheLookup b.key
      simp only [hrun, Option.bind_eq_bind, Option.bind_some]
      refine ⟨_, s', rfl, hsame.pooled, ?_⟩
      split
      · exact ⟨trivial, nofun, hsound⟩
      · exact ⟨trivial, nofun, hsound⟩
    · exact ⟨none, s, rfl, rfl, trivial, nofun, h⟩
  | lookupHash =>
    refine ⟨_, s, rfl, rfl, ?_⟩
    split
    · exact ⟨trivial, nofun, h⟩
    · exact ⟨trivial, nofun, h⟩
  | lookupPcache =>
    unfold Phase.step
    dsimp only
    split
    · next code buf _ _ hbuf =>
      exact ⟨_, _, rfl, rfl, trivial, nofun, h.place hbuf code⟩
    · exact ⟨_, s, rfl, rfl, trivial, nofun, h⟩
  | mapCached buf =>
    unfold Phase.step
    rw [show ans.copy.place s.regions = none from hone]
    exact ⟨_, s, rfl, rfl, trivial, nofun, h⟩
  | freeCopied => exact hphase.elim
  | insertCached => exact hphase.elim
  | hashCached => exact hphase.elim
  | freeCached buf exec =>
    cases exec with
    | none => exact ⟨_, _, rfl, (SameTables.release s buf).pooled, trivial, nofun, h.free⟩
    | some exec => exact hphase.elim
  | convert =>
    unfold Phase.step
    dsimp only
    split
    · exact ⟨none, s, rfl, rfl, trivial, nofun, h⟩
    · next a ha =>
      split
      · exact ⟨none, s, rfl, rfl, trivial, nofun, h⟩
      · next x86 hconv => exact ⟨_, _, rfl, rfl, trivial, nofun, h.place ha x86⟩
  | hashConverted a size =>
    refine ⟨_, _, rfl, ?_, trivial, fun c hc ↦ ?_, h.publish _ _ _⟩
    · unfold Instance.codeHashInsert
      split <;> rfl
    · rw [List.mem_singleton.mp hc]
      exact fun hp ↦ (h.pooled a hp).2.2.2 (by simp [Phase.unseen])
  | insertConverted a size =>
    obtain ⟨s', hrun, hsound, hsame, -⟩ := h.tcacheInsert b.key size owned ans.entry fun ho ↦
      ⟨hone ho, hpool a (by simp [Phase.pending])⟩
    refine ⟨none, s', ?_, hsame.pooled, trivial, nofun, hsound⟩
    simp only [Phase.step, hrun, Option.bind_eq_bind, Option.bind_some]
    rfl

/-- One owner for everything, with what the workers hold. -/
structure Apart (sys : System) : Prop where
  sound : Sound sys.inst (sys.workers.flatMap (·.phase.unseen))
    (sys.workers.flatMap (·.phase.pending))
  uncopied : ∀ w ∈ sys.workers, w.phase.Uncopied
  unpooled : ∀ w ∈ sys.workers, ∀ a ∈ w.phase.pending, a ∉ sys.inst.pooled

namespace Apart

variable {sys : System}

/-- Calls that leave the workers alone. -/
theorem call {inst : Instance} (h : Apart sys)
    (hsound : Sound inst (sys.workers.flatMap (·.phase.unseen))
      (sys.workers.flatMap (·.phase.pending)))
    (hpool : ∀ b ∈ inst.pooled,
      b ∈ sys.inst.pooled ∨ b ∉ sys.workers.flatMap (·.phase.pending)) :
    Apart { sys with inst } := by
  refine ⟨hsound, h.uncopied, fun w hw a ha hp ↦ ?_⟩
  rcases hpool a hp with hp | hn
  · exact h.unpooled w hw a ha hp
  · exact hn (List.mem_flatMap.mpr ⟨w, hw, ha⟩)

/-- New workers hold nothing. -/
theorem start (h : Apart sys) (owned : Bool) (parts : List (List CodeBlock)) :
    Apart { sys with workers := sys.workers ++ parts.map (Worker.start owned) } := by
  have hnew : ∀ w ∈ parts.map (Worker.start owned), w.phase = .lookupCache := by
    intro w hw
    obtain ⟨blocks, -, rfl⟩ := List.mem_map.mp hw
    rfl
  have hnone : ∀ f : Phase → List Addr, f .lookupCache = [] →
      (sys.workers ++ parts.map (Worker.start owned)).flatMap (fun w ↦ f w.phase) =
        sys.workers.flatMap fun w ↦ f w.phase := by
    intro f hf
    have hempty : (parts.map (Worker.start owned)).flatMap (fun w ↦ f w.phase) = [] :=
      List.flatMap_eq_nil_iff.mpr fun w hw ↦ by rw [hnew w hw, hf]
    rw [List.flatMap_append, hempty, List.append_nil]
  refine ⟨?_, fun w hw ↦ ?_, fun w hw ↦ ?_⟩
  · rw [hnone Phase.unseen rfl, hnone Phase.pending rfl]
    exact h.sound
  · rcases List.mem_append.mp hw with hw | hw
    · exact h.uncopied w hw
    · rw [hnew w hw]
      trivial
  · rcases List.mem_append.mp hw with hw | hw
    · exact h.unpooled w hw
    · rw [hnew w hw]
      exact nofun

/-- What one worker holds, apart from the others. -/
private theorem flatMap_middle {α β : Type} (f : α → List β) (xs ys : List α) (w : α) :
    ((xs ++ w :: ys).flatMap f).Perm (f w ++ (xs ++ ys).flatMap f) := by
  rw [List.flatMap_append, List.flatMap_cons, List.flatMap_append, ← List.append_assoc,
    ← List.append_assoc]
  exact List.perm_append_comm.append_right _

/-- A step of one of the workers. -/
theorem step (h : Apart sys) {i : Nat} {w : Worker} (hw : sys.workers[i]? = some w)
    {ans : Answers} (hone : w.blocks ≠ [] → w.phase.OneOwner w.owned sys.inst ans) :
    ∃ w' s', w.step sys.inst ans = some (w', s') ∧
      Apart { inst := s', workers := sys.workers.set i w' } := by
  obtain ⟨hlt, hget⟩ := List.getElem?_eq_some_iff.mp hw
  cases hb : w.blocks with
  | nil =>
    refine ⟨w, sys.inst, by simp only [Worker.step, hb], ?_⟩
    rw [← hget, List.set_getElem_self]
    exact h
  | cons b rest =>
    obtain ⟨inst, workers⟩ := sys
    obtain ⟨xs, ys, rfl, rfl⟩ : ∃ xs ys, workers = xs ++ w :: ys ∧ xs.length = i :=
      ⟨workers.take i, workers.drop (i + 1), by
        rw [← hget, ← List.drop_eq_getElem_cons hlt, List.take_append_drop],
        List.length_take_of_le hlt.le⟩
    have hin : ∀ {v : Worker}, v ∈ xs ++ ys → v ∈ xs ++ w :: ys := fun hv ↦
      List.perm_middle.mem_iff.mpr (List.mem_cons_of_mem w hv)
    have hself : w ∈ xs ++ w :: ys := List.perm_middle.mem_iff.mpr List.mem_cons_self
    have hsplit := h.sound.subperm (flatMap_middle (·.phase.unseen) xs ys w).symm.subset
      ((flatMap_middle (·.phase.unseen) xs ys w).append
        (flatMap_middle (·.phase.pending) xs ys w)).symm.subperm
    obtain ⟨next, s', hrun, hpool, hphase, hpending, hsound⟩ :=
      hsplit.step (h.uncopied w hself) (h.unpooled w hself) (hone (by simp [hb])) b
    -- the worker goes on with the block, or with the next one
    have hnext : ∃ w' : Worker, w.step inst ans = some (w', s') ∧
        w'.phase = next.getD .lookupCache := by
      simp only [Worker.step, hb, hrun, Option.bind_eq_bind, Option.bind_some]
      cases next with
      | none => exact ⟨_, rfl, rfl⟩
      | some phase => exact ⟨_, rfl, rfl⟩
    obtain ⟨w', hstep, hphase'⟩ := hnext
    rw [← hphase'] at hphase hpending hsound
    refine ⟨w', s', hstep, ?_⟩
    rw [List.set_append_right _ _ le_rfl, Nat.sub_self, List.set_cons_zero]
    refine ⟨?_, fun v hv ↦ ?_, fun v hv ↦ ?_⟩
    · exact hsound.subperm (flatMap_middle (·.phase.unseen) xs ys w').subset
        ((flatMap_middle (·.phase.unseen) xs ys w').append
          (flatMap_middle (·.phase.pending) xs ys w')).subperm
    · rcases List.mem_cons.mp (List.perm_middle.mem_iff.mp hv) with rfl | hv
      · exact hphase
      · exact h.uncopied v (hin hv)
    · rw [hpool]
      rcases List.mem_cons.mp (List.perm_middle.mem_iff.mp hv) with rfl | hv
      · exact hpending
      · exact h.unpooled v (hin hv)

/-- One event. -/
theorem exec (h : Apart sys) {event : Event} (hone : event.OneOwner sys) :
    ∃ sys', event.exec sys = some sys' ∧ Apart sys' := by
  cases event with
  | translateEasy armCode code ans =>
    obtain ⟨r, s', hrun, hsound, hpool⟩ := h.sound.translateEasy armCode code ans hone
    refine ⟨{ sys with inst := s' }, ?_, h.call hsound hpool⟩
    simp only [Event.exec, hrun, Option.bind_eq_bind, Option.bind_some]
    rfl
  | translateBatch blocks => exact ⟨_, rfl, h.start false [blocks]⟩
  | translateBatchParallel parts => exact ⟨_, rfl, h.start true parts⟩
  | step worker ans =>
    cases hw : sys.workers[worker]? with
    | none => exact ⟨sys, by simp only [Event.exec, hw], h⟩
    | some w =>
      obtain ⟨w', s', hrun, hapart⟩ := h.step hw (hone w hw)
      refine ⟨_, ?_, hapart⟩
      simp only [Event.exec, hw, hrun, Option.bind_eq_bind, Option.bind_some]
      rfl
  | loadAotModule baseAddr code complete ans =>
    obtain ⟨s', hrun, hsound, hpool⟩ := h.sound.loadAotModule baseAddr code complete ans
    refine ⟨{ sys with inst := s' }, ?_, h.call hsound fun b hb ↦ .inl (hpool ▸ hb)⟩
    simp only [Event.exec, hrun, Option.bind_eq_bind, Option.bind_some]
    rfl
  | invalidateEasy =>
    obtain ⟨s', hrun, hsound, hsame⟩ := h.sound.invalidateEasy
    refine ⟨{ sys with inst := s' }, ?_, h.call hsound fun b hb ↦ .inl (hsame.pooled ▸ hb)⟩
    simp only [Event.exec, hrun, Option.bind_eq_bind, Option.bind_some]
    rfl

/-- Every state of a run. -/
theorem run (events : List Event) (h : Apart sys)
    (hone : ∀ x ∈ stepsOf events sys, x.1.OneOwner x.2) :
    (∀ t ∈ statesOf events sys, Apart t) ∧ (statesOf events sys).length = events.length + 1 := by
  induction events generalizing sys with
  | nil => exact ⟨fun t ht ↦ List.mem_singleton.mp ht ▸ h, rfl⟩
  | cons event events ih =>
    simp only [stepsOf, List.forall_mem_cons] at hone
    obtain ⟨sys', hexec, h'⟩ := h.exec hone.1
    simp only [hexec] at hone
    obtain ⟨hall, hlen⟩ := ih h' hone.2
    simp only [statesOf, hexec, List.forall_mem_cons, List.length_cons, hlen]
    exact ⟨⟨h, hall⟩, trivial⟩

/-- A new instance without workers. -/
theorem create (cacheSize hashBuckets : Nat) (table pcache mempool : Bool) :
    Apart ⟨createEasy cacheSize hashBuckets table pcache mempool, []⟩ := by
  have hrep := tcacheCreate_represents cacheSize hashBuckets
  have hempty : ∀ q, codeAt (tcacheCreate cacheSize hashBuckets) q = none := fun q ↦
    codeAt_eq_none_of_notMem hrep List.not_mem_nil
  have hcached : ∀ {q d}, codeAt (tcacheCreate cacheSize hashBuckets) q ≠ some d := by
    intro q d hd
    cases (hempty q).symm.trans hd
  have hcodes : (createEasy cacheSize hashBuckets table pcache mempool).hashedCodes = [] := by
    cases table <;> rfl
  have hpool : (createEasy cacheSize hashBuckets table pcache mempool).pooled = [] := by
    cases mempool <;> rfl
  refine ⟨⟨⟨[], [], hrep⟩, fun q d hd ↦ absurd hd hcached, ?_, ?_, fun q r a o hq ↦ absurd hq hcached,
    fun q a hq ↦ absurd hq hcached, nofun, List.nodup_nil, nofun, rfl, ?_, ?_⟩, nofun, nofun⟩
  · rw [hcodes]
    exact nofun
  · rw [hcodes]
    exact List.nodup_nil
  · rw [hpool]
    exact nofun
  · rw [hpool]
    exact List.nodup_nil

end Apart

/-- In every run of calls and workers' steps that all have one owner for what they touch, every
pointer of the cache and the code table is valid in every state, and nothing is released twice. -/
theorem easy_run_one_owner (cacheSize hashBuckets : Nat) (table pcache mempool : Bool)
    (events : List Event)
    (hone : ∀ x ∈ stepsOf events ⟨createEasy cacheSize hashBuckets table pcache mempool, []⟩,
      x.1.OneOwner x.2) :
    (∀ t ∈ statesOf events ⟨createEasy cacheSize hashBuckets table pcache mempool, []⟩,
      t.inst.PointersLive ∧ t.inst.ReleasedOnce) ∧
    (statesOf events ⟨createEasy cacheSize hashBuckets table pcache mempool, []⟩).length =
      events.length + 1 := by
  obtain ⟨hall, hlen⟩ := (Apart.create cacheSize hashBuckets table pcache mempool).run events hone
  exact ⟨fun t ht ↦ ⟨(hall t ht).sound.pointersLive, (hall t ht).sound.releasedOnce⟩, hlen⟩

/-- A test for events that meet the condition: no pool, no persistent hits, no owned code. -/
private def plainEvent (x : Event × System) : Bool :=
  match x.1 with
  | .translateEasy .. => x.2.inst.mempool.isNone
  | .step worker _ =>
    match x.2.workers[worker]? with
    | some ⟨owned, _, phase⟩ =>
      match phase with
      | .mapCached _ => false
      | .insertConverted .. => !owned
      | _ => true
    | none => true
  | _ => true

private theorem oneOwner_of_plainEvent {x : Event × System} (hx : plainEvent x = true) :
    x.1.OneOwner x.2 := by
  obtain ⟨event, sys⟩ := x
  cases event with
  | translateEasy => exact .inl (Option.isNone_iff_eq_none.mp hx)
  | step worker ans =>
    rintro ⟨owned, blocks, phase⟩ hw -
    simp only [plainEvent, hw] at hx
    cases phase with
    | mapCached => cases hx
    | insertConverted =>
      intro howned
      rw [show owned = true from howned] at hx
      cases hx
    | _ => trivial
  | _ => trivial

/-- A request and a batch on an instance that is then cleared. -/
theorem easy_run_one_owner_batch :
    (∀ t ∈ statesOf ([.translateEasy 0x1000 (X86.imm32 0xd65f03c0) (.mapped 0x500000 1),
        .translateBatch [⟨0x2000, X86.imm32 0xd503201f ++ X86.imm32 0xd65f03c0, 0, true⟩]] ++
        List.replicate 6 (.step 0 (.mapped 0x600000 2)) ++ [.invalidateEasy])
        ⟨createEasy 4096 1 true false false, []⟩,
      t.inst.PointersLive ∧ t.inst.ReleasedOnce) ∧
    (statesOf ([.translateEasy 0x1000 (X86.imm32 0xd65f03c0) (.mapped 0x500000 1),
        .translateBatch [⟨0x2000, X86.imm32 0xd503201f ++ X86.imm32 0xd65f03c0, 0, true⟩]] ++
        List.replicate 6 (.step 0 (.mapped 0x600000 2)) ++ [.invalidateEasy])
        ⟨createEasy 4096 1 true false false, []⟩).length = 10 := by
  refine easy_run_one_owner 4096 1 true false false _ fun x hx ↦ oneOwner_of_plainEvent ?_
  exact List.all_eq_true.mp (by decide +kernel) x hx

/-- A worker of a parallel batch translates a block, and the cache is cleared: the code table still
has the code that the cache has released. -/
theorem easy_run_not_one_owner :
    ¬ ∀ (cacheSize hashBuckets : Nat) (table pcache mempool : Bool) (events : List Event),
      ∀ t ∈ statesOf events ⟨createEasy cacheSize hashBuckets table pcache mempool, []⟩,
        t.inst.PointersLive ∧ t.inst.ReleasedOnce := by
  intro hall
  let block : CodeBlock := ⟨0x1000, X86.imm32 0xd65f03c0, 0, true⟩
  have hrun := hall 4096 1 true false false (.translateBatchParallel [[block]] ::
    List.replicate 6 (.step 0 (.mapped 0x500000 1)) ++ [.invalidateEasy])
  have hstale : (statesOf (.translateBatchParallel [[block]] ::
      List.replicate 6 (.step 0 (.mapped 0x500000 1)) ++ [.invalidateEasy])
      ⟨createEasy 4096 1 true false false, []⟩).any (fun t ↦
        t.inst.hashedCodes.any fun a ↦ (t.inst.regions a).isNone) = true := by
    decide +kernel
  obtain ⟨t, ht, hstale⟩ := List.any_eq_true.mp hstale
  obtain ⟨a, ha, hnone⟩ := List.any_eq_true.mp hstale
  have hlive : (t.inst.regions a).isSome := (hrun t ht).1.2 a ha
  rw [Option.isNone_iff_eq_none.mp hnone] at hlive
  cases hlive

end Arm2x86.Easy
