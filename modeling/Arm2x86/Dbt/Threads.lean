import Arm2x86.Dbt.Execution

/-!
# Translations of several threads

`dbt_translate_block` takes the mutex for the lookup and for the insertion only. Between them a thread
reads the place for its block, translates, and adds the size of the block to the used part, with a read
and a write; what other threads do in between is not kept out. The threads here take these steps in any
order. The blocks lie apart exactly when no thread reads the place of its block while another one has read
its own and not yet written the used part back.
-/

namespace Arm2x86.Dbt

variable {E : Type}

/-- Where a thread is in `dbt_translate_block`, with its local variables. -/
inductive Phase where
  | idle
  /-- Behind the lookup. -/
  | missed (ctx : Nat) (armPc : Addr)
  /-- Behind the test for room. -/
  | checked (ctx : Nat) (armPc : Addr)
  | placed (ctx : Nat) (armPc : Addr) (blockMem : Nat)
  | copied (ctx : Nat) (armPc : Addr) (blockMem : Nat) (originalCopy : List Byte)
  | converted (armPc : Addr) (blockMem x86Size : Nat) (originalCopy : List Byte)
  | inserted (blockMem x86Size : Nat)
  /-- Behind the read of the addition to `g_dbt_cache_used`. -/
  | adding (blockMem x86Size used : Nat)
  /-- Waiting for the mutex it holds. -/
  | deadlocked
deriving DecidableEq

namespace Phase

/-- The place of a block that is not yet in the used part. -/
def window : Phase → Option Nat
  | placed _ _ blockMem | copied _ _ blockMem _ | converted _ blockMem _ _ => some blockMem
  | inserted blockMem _ | adding blockMem _ _ => some blockMem
  | _ => none

/-- The code that is written and not yet in the used part. -/
def owned : Phase → Option (Nat × Nat)
  | converted _ blockMem x86Size _ | inserted blockMem x86Size => some (blockMem, x86Size)
  | adding blockMem x86Size _ => some (blockMem, x86Size)
  | _ => none

end Phase

/-- The runtime with its threads, and the places and sizes of the code that was written, the last first. -/
structure Threads where
  state : State
  phase : Nat → Phase
  written : List (Nat × Nat)

namespace Threads

/-- The step of a thread. -/
def move (σ : Threads) (t : Nat) (p : Phase) (s : State) : Threads :=
  { σ with state := s, phase := fun u ↦ if u = t then p else σ.phase u }

/-- The code that was written. -/
def wrote (σ : Threads) (x : Nat × Nat) : Threads := { σ with written := x :: σ.written }

/-- One step of a thread in `dbt_translate_block`. A thread that has to wait for the mutex takes none. -/
def advance (conv : Converters E) (σ : Threads) (t : Nat) (env : E) (alloc : Bool) : Option Threads :=
  let s := σ.state
  match σ.phase t with
  | .missed ctx armPc =>
    if s.mapped = false ∨ s.cacheUsed + 4096 > codeCacheSize then some (σ.move t .idle s)
    else some (σ.move t (.checked ctx armPc) s)
  | .checked ctx armPc => some (σ.move t (.placed ctx armPc s.cacheUsed) s)
  | .placed ctx armPc blockMem =>
    if alloc = false then some (σ.move t .idle s)
    else some (σ.move t (.copied ctx armPc blockMem (readMemory s.memory armPc armSize)) s)
  | .copied ctx armPc blockMem originalCopy =>
    let mode := s.mode ctx
    match (conv.convert mode).run env armPc blockMem (readMemory s.memory armPc (sourceSize mode)) with
    | .error partly => some (σ.move t .idle { s with code := writeCode s.code blockMem partly })
    | .ok x86 =>
      let σ := σ.move t (.converted armPc blockMem x86.length originalCopy)
        { s with code := writeCode s.code blockMem x86 }
      some (σ.wrote (blockMem, x86.length))
  | .converted armPc blockMem x86Size originalCopy =>
    (dbtInsert armPc blockMem (BitVec.ofNat 32 x86Size) originalCopy armSize s).map fun s ↦
      σ.move t (.inserted blockMem x86Size) s
  | .inserted blockMem x86Size => some (σ.move t (.adding blockMem x86Size s.cacheUsed) s)
  | .adding _ x86Size used =>
    some (σ.move t .idle { s with cacheUsed := used + (x86Size + 15) / 16 * 16 })
  | .idle | .deadlocked => none

/-- A call of `dbt_translate_block`, up to the lookup. -/
def call (σ : Threads) (t ctx : Nat) (armPc : Addr) : Option Threads :=
  if σ.phase t ≠ .idle ∨ σ.state.locked then none
  else
    match dbtLookup armPc σ.state with
    | none => some (σ.move t .deadlocked { σ.state with locked := true })
    | some (some _, s) => some (σ.move t .idle s)
    | some (none, s) => some (σ.move t (.missed ctx armPc) s)

end Threads

/-- What can happen next. -/
inductive Act (E : Type) where
  | call (t ctx : Nat) (armPc : Addr)
  | advance (t : Nat) (env : E) (alloc : Bool)
  | write (addr : Addr) (value : Byte)
  | invalidateBlock (armPc : Addr)

def Act.exec (conv : Converters E) (a : Act E) (σ : Threads) : Option Threads :=
  match a with
  | .call t ctx armPc => σ.call t ctx armPc
  | .advance t env alloc => σ.advance conv t env alloc
  | .write addr value => some
      { σ with state := { σ.state with memory := fun a ↦ if a = addr then value else σ.state.memory a } }
  | .invalidateBlock armPc =>
    (dbtInvalidateBlock (armPc.setWidth 32) σ.state).map fun s ↦ { σ with state := s }

/-- The steps of a schedule, each with the threads before it. -/
def actsOf (conv : Converters E) : List (Act E) → Threads → List (Act E × Threads)
  | [], _ => []
  | a :: acts, σ =>
    (a, σ) :: match a.exec conv σ with
      | none => []
      | some σ' => actsOf conv acts σ'

/-- The threads behind a schedule, if each of its steps can be taken. -/
def runActs (conv : Converters E) : List (Act E) → Threads → Option Threads
  | [], σ => some σ
  | a :: acts, σ => (a.exec conv σ).bind (runActs conv acts)

/-- No thread reads the place of its block while another one's is not yet in the used part. -/
def Act.Exclusive (a : Act E) (σ : Threads) : Prop :=
  ∀ t env alloc ctx armPc, a = .advance t env alloc → σ.phase t = .checked ctx armPc →
    ∀ u, (σ.phase u).window = none

/-- Two pieces of code without a byte in common. -/
def Apart (x y : Nat × Nat) : Prop := x.1 + x.2 ≤ y.1 ∨ y.1 + y.2 ≤ x.1

section Moves

variable {conv : Converters E} {σ σ' : Threads} {t : Nat}

/-- What a step of a thread does to the places of the blocks. -/
inductive Move (σ σ' : Threads) (t : Nat) : Prop
  /-- Outside of the window. -/
  | outside (h : (σ.phase t).window = none) (h' : (σ'.phase t).window = none)
      (hused : σ'.state.cacheUsed = σ.state.cacheUsed) (hwritten : σ'.written = σ.written)
  | opens {ctx : Nat} {armPc : Addr} (h : σ.phase t = .checked ctx armPc)
      (h' : σ'.phase t = .placed ctx armPc σ.state.cacheUsed)
      (hused : σ'.state.cacheUsed = σ.state.cacheUsed) (hwritten : σ'.written = σ.written)
  /-- In front of the translation. -/
  | waits {b : Nat} (h : (σ.phase t).window = some b) (hnone : (σ.phase t).owned = none)
      (h' : (σ'.phase t).window = some b) (hnone' : (σ'.phase t).owned = none)
      (hused : σ'.state.cacheUsed = σ.state.cacheUsed) (hwritten : σ'.written = σ.written)
  | converts {b n : Nat} (h : (σ.phase t).window = some b) (hnone : (σ.phase t).owned = none)
      (h' : (σ'.phase t).window = some b) (howned : (σ'.phase t).owned = some (b, n)) (hn : 0 < n)
      (hused : σ'.state.cacheUsed = σ.state.cacheUsed) (hwritten : σ'.written = (b, n) :: σ.written)
      (hload : ∀ used, σ'.phase t ≠ .adding b n used)
  /-- Behind the translation. -/
  | owns {b n : Nat} (howned : (σ.phase t).owned = some (b, n)) (howned' : (σ'.phase t).owned = some (b, n))
      (hused : σ'.state.cacheUsed = σ.state.cacheUsed) (hwritten : σ'.written = σ.written)
      (hload : ∀ used, σ'.phase t = .adding b n used → used = σ.state.cacheUsed)
  | closes {b n used : Nat} (h : σ.phase t = .adding b n used) (h' : σ'.phase t = .idle)
      (hused : σ'.state.cacheUsed = used + (n + 15) / 16 * 16) (hwritten : σ'.written = σ.written)

theorem Phase.window_of_owned {p : Phase} {b n : Nat} (h : p.owned = some (b, n)) : p.window = some b := by
  cases p with
  | converted armPc blockMem x86Size originalCopy => exact congrArg (Option.map Prod.fst) h
  | inserted blockMem x86Size => exact congrArg (Option.map Prod.fst) h
  | adding blockMem x86Size used => exact congrArg (Option.map Prod.fst) h
  | idle | missed | checked | placed | copied | deadlocked => cases h

theorem Phase.owned_of_window {p : Phase} (h : p.window = none) : p.owned = none := by
  cases howned : p.owned with
  | none => rfl
  | some x => rw [Phase.window_of_owned howned] at h; cases h

/-- While windows do not overlap, a block whose window is open begins where the used part ends, and the
others end there or before. -/
structure Accounted (σ : Threads) : Prop where
  alone : ∀ t u b b', (σ.phase t).window = some b → (σ.phase u).window = some b' → t = u
  base : ∀ t b, (σ.phase t).window = some b → b = σ.state.cacheUsed
  adding : ∀ t b n used, σ.phase t = .adding b n used → used = σ.state.cacheUsed
  owner : ∀ t x, (σ.phase t).owned = some x → x ∈ σ.written ∧ 0 < x.2
  below : ∀ x ∈ σ.written, x.1 + x.2 ≤ σ.state.cacheUsed ∨ ∃ t, (σ.phase t).owned = some x
  apart : σ.written.Pairwise Apart

/-- A step that neither opens nor closes a window and writes no code. -/
theorem Accounted.of_same (h : Accounted σ) (hwindow : ∀ u, (σ'.phase u).window = (σ.phase u).window)
    (howned : ∀ u, (σ'.phase u).owned = (σ.phase u).owned)
    (hused : σ'.state.cacheUsed = σ.state.cacheUsed) (hwritten : σ'.written = σ.written)
    (hadding : ∀ u b n used, σ'.phase u = .adding b n used → used = σ.state.cacheUsed) : Accounted σ' where
  alone t u b b' ht hu := h.alone t u b b' (hwindow t ▸ ht) (hwindow u ▸ hu)
  base t b ht := hused ▸ h.base t b (hwindow t ▸ ht)
  adding t b n used ht := hused ▸ hadding t b n used ht
  owner t x ht := hwritten ▸ h.owner t x (howned t ▸ ht)
  below x hx := by
    rw [hused]
    simp only [howned]
    exact h.below x (hwritten ▸ hx)
  apart := hwritten ▸ h.apart

/-- The step lemma of schedules whose windows do not overlap. -/
theorem Accounted.move (h : Accounted σ) (hmove : Move σ σ' t)
    (hframe : ∀ u, u ≠ t → σ'.phase u = σ.phase u)
    (hexclusive : ∀ ctx armPc, σ.phase t = .checked ctx armPc → ∀ u, (σ.phase u).window = none) :
    Accounted σ' := by
  cases hmove with
  | outside ht ht' hused hwritten =>
    apply h.of_same _ _ hused hwritten
    · intro u b n used hu
      by_cases hut : u = t
      · rw [hut] at hu
        rw [hu] at ht'
        cases ht'
      · exact h.adding u b n used (hframe u hut ▸ hu)
    · intro u
      by_cases hut : u = t
      · rw [hut, ht, ht']
      · rw [hframe u hut]
    · intro u
      by_cases hut : u = t
      · rw [hut, Phase.owned_of_window ht, Phase.owned_of_window ht']
      · rw [hframe u hut]
  | waits ht hnone ht' hnone' hused hwritten =>
    apply h.of_same _ _ hused hwritten
    · intro u b n used hu
      by_cases hut : u = t
      · rw [hut] at hu
        rw [hu] at hnone'
        cases hnone'
      · exact h.adding u b n used (hframe u hut ▸ hu)
    · intro u
      by_cases hut : u = t
      · rw [hut, ht, ht']
      · rw [hframe u hut]
    · intro u
      by_cases hut : u = t
      · rw [hut, hnone, hnone']
      · rw [hframe u hut]
  | owns howned howned' hused hwritten hload =>
    apply h.of_same _ _ hused hwritten
    · intro u b n used hu
      by_cases hut : u = t
      · rw [hut] at hu
        rw [hu] at howned'
        obtain ⟨rfl, rfl⟩ := Prod.mk.inj (Option.some.inj howned')
        exact hload used hu
      · exact h.adding u b n used (hframe u hut ▸ hu)
    · intro u
      by_cases hut : u = t
      · rw [hut, Phase.window_of_owned howned, Phase.window_of_owned howned']
      · rw [hframe u hut]
    · intro u
      by_cases hut : u = t
      · rw [hut, howned, howned']
      · rw [hframe u hut]
  | opens ht ht' hused hwritten =>
    have hnone := hexclusive _ _ ht
    have honly : ∀ u b, (σ'.phase u).window = some b → u = t := by
      intro u b hu
      by_contra hut
      rw [hframe u hut, hnone u] at hu
      cases hu
    refine ⟨fun u v b b' hu hv ↦ (honly u b hu).trans (honly v b' hv).symm, fun u b hu ↦ ?_,
      fun u b n used hu ↦ ?_, fun u x hu ↦ ?_, fun x hx ↦ ?_, hwritten ▸ h.apart⟩
    · rw [honly u b hu, ht'] at hu
      rw [hused]
      exact (Option.some.inj hu).symm
    · by_cases hut : u = t
      · rw [hut, ht'] at hu
        cases hu
      · rw [hused]
        exact h.adding u b n used (hframe u hut ▸ hu)
    · have hut := honly u x.1 (Phase.window_of_owned hu)
      rw [hut, ht'] at hu
      cases hu
    · rw [hwritten] at hx
      rw [hused]
      rcases h.below x hx with hbelow | ⟨u, hu⟩
      · exact .inl hbelow
      · have hwindow := Phase.window_of_owned (b := x.1) (n := x.2) hu
        rw [hnone u] at hwindow
        cases hwindow
  | converts ht hnone ht' howned hn hused hwritten hload =>
    rename_i b n
    have hb := h.base t b ht
    have honly : ∀ u c, (σ'.phase u).window = some c → u = t := by
      intro u c hu
      by_contra hut
      rw [hframe u hut] at hu
      exact hut (h.alone u t c b hu ht)
    -- nothing else is still to be accounted for
    have hbelow : ∀ x ∈ σ.written, x.1 + x.2 ≤ σ.state.cacheUsed := by
      intro x hx
      rcases h.below x hx with hbelow | ⟨u, hu⟩
      · exact hbelow
      · rw [h.alone u t x.1 b (Phase.window_of_owned hu) ht, hnone] at hu
        cases hu
    refine ⟨fun u v c c' hu hv ↦ (honly u c hu).trans (honly v c' hv).symm, fun u c hu ↦ ?_,
      fun u c m used hu ↦ ?_, fun u x hu ↦ ?_, fun x hx ↦ ?_, ?_⟩
    · rw [honly u c hu, ht'] at hu
      rw [hused, ← hb]
      exact (Option.some.inj hu).symm
    · by_cases hut : u = t
      · rw [hut] at hu
        rw [hu] at howned
        obtain ⟨rfl, rfl⟩ := Prod.mk.inj (Option.some.inj howned)
        exact absurd hu (hload used)
      · rw [hused]
        exact h.adding u c m used (hframe u hut ▸ hu)
    · rw [honly u x.1 (Phase.window_of_owned hu), howned] at hu
      rw [hwritten, ← Option.some.inj hu]
      exact ⟨List.mem_cons_self, hn⟩
    · rw [hwritten] at hx
      rw [hused]
      rcases List.mem_cons.mp hx with rfl | hx
      · exact .inr ⟨t, howned⟩
      · exact .inl (hbelow x hx)
    · rw [hwritten, List.pairwise_cons]
      refine ⟨fun x hx ↦ .inr ?_, h.apart⟩
      rw [hb]
      exact hbelow x hx
  | closes ht ht' hused hwritten =>
    rename_i b n used
    have hwindow : (σ.phase t).window = some b := by rw [ht]; rfl
    have hb := h.base t b hwindow
    have hload := h.adding t b n used ht
    have hnone : ∀ u, (σ'.phase u).window = none := by
      intro u
      by_cases hut : u = t
      · rw [hut, ht']
        rfl
      · rw [hframe u hut]
        cases hu : (σ.phase u).window with
        | none => rfl
        | some c => exact absurd (h.alone u t c b hu hwindow) hut
    refine ⟨fun u v c c' hu ↦ ?_, fun u c hu ↦ ?_, fun u c m k hu ↦ ?_, fun u x hu ↦ ?_, fun x hx ↦ .inl ?_,
      hwritten ▸ h.apart⟩
    · rw [hnone u] at hu
      cases hu
    · rw [hnone u] at hu
      cases hu
    · have hu' := hnone u
      rw [hu] at hu'
      cases hu'
    · rw [Phase.owned_of_window (hnone u)] at hu
      cases hu
    · rw [hwritten] at hx
      rw [hused, hload]
      rcases h.below x hx with hbelow | ⟨u, hu⟩
      · omega
      · rw [h.alone u t x.1 b (Phase.window_of_owned hu) hwindow, ht] at hu
        rw [← Option.some.inj hu]
        dsimp only
        omega

/-- Whether the code of a thread is still to be written at a place. -/
def Threads.claims (σ : Threads) (b t : Nat) : Nat :=
  if (σ.phase t).window = some b ∧ (σ.phase t).owned = none then 1 else 0

/-- The number of codes that begin at a place. -/
def Threads.placedAt (σ : Threads) (b : Nat) : Nat := σ.written.countP fun x ↦ x.1 = b ∧ 0 < x.2

/-- A place that was read is written to. -/
theorem Move.claims_le (hmove : Move σ σ' t) (b : Nat) :
    σ.claims b t + σ.placedAt b ≤ σ'.claims b t + σ'.placedAt b ∧ σ.placedAt b ≤ σ'.placedAt b := by
  cases hmove with
  | outside ht ht' hused hwritten =>
    simp [Threads.claims, Threads.placedAt, ht, ht', hwritten]
  | opens ht ht' hused hwritten =>
    simp [Threads.claims, Threads.placedAt, ht, Phase.window, hwritten]
  | waits ht hnone ht' hnone' hused hwritten =>
    simp [Threads.claims, Threads.placedAt, ht, hnone, ht', hnone', hwritten]
  | converts ht hnone ht' howned hn hused hwritten hload =>
    simp only [Threads.claims, Threads.placedAt, ht, hnone, howned, hwritten, List.countP_cons,
      Option.some.injEq, and_true, reduceCtorEq, and_false, if_false]
    rename_i c n
    by_cases hc : c = b
    · simp [hc, hn]
      omega
    · simp [hc]
  | owns howned howned' hused hwritten hload =>
    simp [Threads.claims, Threads.placedAt, howned, howned', hwritten]
  | closes ht ht' hused hwritten =>
    simp [Threads.claims, Threads.placedAt, ht, Phase.window, Phase.owned, hwritten]

/-- Two codes that begin at one place have a byte in common. -/
theorem not_pairwise_apart {b : Nat} (h : 2 ≤ σ.placedAt b) : ¬ σ.written.Pairwise Apart := by
  suffices hcount : ∀ l : List (Nat × Nat), l.Pairwise Apart → l.countP (fun x ↦ x.1 = b ∧ 0 < x.2) ≤ 1 by
    intro hapart
    have hle := hcount _ hapart
    unfold Threads.placedAt at h
    omega
  intro l hl
  induction l with
  | nil => simp
  | cons x l ih =>
    rw [List.pairwise_cons] at hl
    rw [List.countP_cons]
    by_cases hx : x.1 = b ∧ 0 < x.2
    · have hnone : l.countP (fun x ↦ x.1 = b ∧ 0 < x.2) = 0 := by
        rw [List.countP_eq_zero]
        intro y hy hxy
        have hpair := of_decide_eq_true hxy
        have happart := hl.1 y hy
        unfold Apart at happart
        omega
      rw [hnone]
      split <;> omega
    · have hrest := ih hl.2
      rw [if_neg (by simpa using hx)]
      omega

end Moves

section Schedules

variable {conv : Converters E} {σ σ' : Threads} {a : Act E}

/-- The translators never fail, and every translation has some code. -/
def Converters.Sure (conv : Converters E) (mode : Nat → Mode) : Prop :=
  ∀ ctx env armPc blockMem armCode, ∃ x86, x86 ≠ [] ∧
    (conv.convert (mode ctx)).run env armPc blockMem armCode = .ok x86

@[simp] theorem Threads.move_self (σ : Threads) (t : Nat) (p : Phase) (s : State) :
    (σ.move t p s).phase t = p :=
  if_pos rfl

theorem Threads.move_ne (σ : Threads) {t u : Nat} (h : u ≠ t) (p : Phase) (s : State) :
    (σ.move t p s).phase u = σ.phase u :=
  if_neg h

theorem insertBlock_frame (s : State) (block : Block) :
    (s.insertBlock block).mode = s.mode ∧ (s.insertBlock block).cacheUsed = s.cacheUsed := by
  unfold State.insertBlock
  split <;> exact ⟨rfl, rfl⟩

/-- A call moves a thread outside of its window. -/
theorem Threads.call_move {t ctx : Nat} {armPc : Addr} (h : σ.call t ctx armPc = some σ') :
    Move σ σ' t ∧ (∀ u, u ≠ t → σ'.phase u = σ.phase u) ∧ σ'.state.mode = σ.state.mode ∧
      ∀ ctx armPc, σ.phase t ≠ .checked ctx armPc := by
  unfold Threads.call at h
  split at h
  · cases h
  · next hfree =>
    rw [not_or, not_not, Bool.not_eq_true] at hfree
    obtain ⟨hidle, hlock⟩ := hfree
    have hwindow : (σ.phase t).window = none := by rw [hidle]; rfl
    have hnot : ∀ ctx armPc, σ.phase t ≠ .checked ctx armPc := by
      intro ctx armPc
      rw [hidle]
      exact Phase.noConfusion
    have hout : ∀ p s, p.window = none → s.cacheUsed = σ.state.cacheUsed → s.mode = σ.state.mode →
        Move σ (σ.move t p s) t ∧ (∀ u, u ≠ t → (σ.move t p s).phase u = σ.phase u) ∧
          (σ.move t p s).state.mode = σ.state.mode ∧ ∀ ctx armPc, σ.phase t ≠ .checked ctx armPc := by
      intro p s hp hused hmode
      refine ⟨.outside hwindow ?_ hused rfl, fun u hu ↦ σ.move_ne hu p s, hmode, hnot⟩
      rwa [σ.move_self]
    cases hfind : σ.state.findBlock armPc with
    | none =>
      rw [dbtLookup_of_miss hlock hfind] at h
      rw [← Option.some.inj h]
      exact hout _ _ rfl rfl rfl
    | some i =>
      cases hsmc : dbtCheckSmc σ.state.memory (σ.state.cache i) with
      | true =>
        rw [dbtLookup_of_smc hfind hsmc] at h
        rw [← Option.some.inj h]
        exact hout _ _ rfl rfl rfl
      | false =>
        rw [dbtLookup_of_hit hlock hfind hsmc] at h
        rw [← Option.some.inj h]
        exact hout _ _ rfl rfl rfl

/-- A step of a thread whose allocation succeeds. -/
theorem Threads.advance_move (hsure : conv.Sure σ.state.mode) {t : Nat} {env : E}
    (h : σ.advance conv t env true = some σ') :
    Move σ σ' t ∧ (∀ u, u ≠ t → σ'.phase u = σ.phase u) ∧ σ'.state.mode = σ.state.mode := by
  have hframe : ∀ p s u, u ≠ t → (σ.move t p s).phase u = σ.phase u := fun p s u hu ↦ σ.move_ne hu p s
  unfold Threads.advance at h
  cases hphase : σ.phase t with
  | idle | deadlocked =>
    rw [hphase] at h
    cases h
  | missed ctx armPc =>
    rw [hphase] at h
    dsimp only at h
    have hout : ∀ p : Phase, p.window = none → Move σ (σ.move t p σ.state) t := fun p hp ↦
      .outside (by rw [hphase]; rfl) (by rwa [σ.move_self]) rfl rfl
    split at h
    · rw [← Option.some.inj h]
      exact ⟨hout _ rfl, hframe _ _, rfl⟩
    · rw [← Option.some.inj h]
      exact ⟨hout _ rfl, hframe _ _, rfl⟩
  | checked ctx armPc =>
    rw [hphase] at h
    rw [← Option.some.inj h]
    exact ⟨.opens hphase (σ.move_self ..) rfl rfl, hframe _ _, rfl⟩
  | placed ctx armPc blockMem =>
    rw [hphase] at h
    rw [← Option.some.inj h]
    refine ⟨.waits (b := blockMem) ?_ ?_ ?_ ?_ rfl rfl, hframe _ _, rfl⟩
    · rw [hphase]
      rfl
    · rw [hphase]
      rfl
    · rw [σ.move_self]
      rfl
    · rw [σ.move_self]
      rfl
  | copied ctx armPc blockMem originalCopy =>
    rw [hphase] at h
    obtain ⟨x86, hne, hconv⟩ := hsure ctx env armPc blockMem
      (readMemory σ.state.memory armPc (sourceSize (σ.state.mode ctx)))
    simp only [hconv] at h
    have hσ' := Option.some.inj h
    have hphase' : σ'.phase t = .converted armPc blockMem x86.length originalCopy := by
      rw [← hσ']
      exact if_pos rfl
    refine ⟨.converts (b := blockMem) (n := x86.length) ?_ ?_ ?_ ?_ (List.length_pos_iff.mpr hne) ?_ ?_ ?_,
      fun u hu ↦ ?_, ?_⟩
    · rw [hphase]
      rfl
    · rw [hphase]
      rfl
    · rw [hphase']
      rfl
    · rw [hphase']
      rfl
    · rw [← hσ']
      rfl
    · rw [← hσ']
      rfl
    · rw [hphase']
      exact fun _ ↦ Phase.noConfusion
    · rw [← hσ']
      exact if_neg hu
    · rw [← hσ']
      rfl
  | converted armPc blockMem x86Size originalCopy =>
    rw [hphase] at h
    obtain ⟨s, hinsert, hs⟩ := Option.map_eq_some_iff.mp h
    have hlock : σ.state.locked = false := by
      cases hlocked : σ.state.locked with
      | false => rfl
      | true =>
        rw [dbtInsert, State.lock, hlocked] at hinsert
        cases hinsert
    rw [dbtInsert_eq hlock] at hinsert
    obtain ⟨hmode, hused⟩ := insertBlock_frame σ.state
      ⟨armPc, some blockMem, BitVec.ofNat 32 x86Size, 0#32, some originalCopy, armSize⟩
    rw [← hs, ← Option.some.inj hinsert]
    refine ⟨.owns (b := blockMem) (n := x86Size) ?_ ?_ hused rfl ?_, hframe _ _, hmode⟩
    · rw [hphase]
      rfl
    · rw [σ.move_self]
      rfl
    · intro used hadding
      rw [σ.move_self] at hadding
      cases hadding
  | inserted blockMem x86Size =>
    rw [hphase] at h
    rw [← Option.some.inj h]
    refine ⟨.owns (b := blockMem) (n := x86Size) ?_ ?_ rfl rfl ?_, hframe _ _, rfl⟩
    · rw [hphase]
      rfl
    · rw [σ.move_self]
      rfl
    · intro used hadding
      rw [σ.move_self] at hadding
      exact (Phase.adding.inj hadding).2.2.symm
  | adding blockMem x86Size used =>
    rw [hphase] at h
    rw [← Option.some.inj h]
    exact ⟨.closes hphase (σ.move_self ..) rfl rfl, hframe _ _, rfl⟩

/-- What one step does: it moves a thread, or it leaves them where they are. -/
theorem Act.exec_moves (hsure : conv.Sure σ.state.mode)
    (halloc : ∀ t env alloc, a = .advance t env alloc → alloc = true) (h : a.exec conv σ = some σ') :
    σ'.state.mode = σ.state.mode ∧
      ((σ'.phase = σ.phase ∧ σ'.written = σ.written ∧ σ'.state.cacheUsed = σ.state.cacheUsed) ∨
        ∃ t, Move σ σ' t ∧ (∀ u, u ≠ t → σ'.phase u = σ.phase u) ∧
          ∀ ctx armPc, σ.phase t = .checked ctx armPc → ∃ env, a = .advance t env true) := by
  cases a with
  | call t ctx armPc =>
    obtain ⟨hmove, hframe, hmode, hnot⟩ := σ.call_move h
    exact ⟨hmode, .inr ⟨t, hmove, hframe, fun ctx armPc hchecked ↦ absurd hchecked (hnot ctx armPc)⟩⟩
  | advance t env alloc =>
    obtain rfl := halloc t env alloc rfl
    obtain ⟨hmove, hframe, hmode⟩ := σ.advance_move hsure h
    exact ⟨hmode, .inr ⟨t, hmove, hframe, fun _ _ _ ↦ ⟨env, rfl⟩⟩⟩
  | write addr value =>
    rw [← Option.some.inj h]
    exact ⟨rfl, .inl ⟨rfl, rfl, rfl⟩⟩
  | invalidateBlock armPc =>
    obtain ⟨s, hs, hσ'⟩ := Option.map_eq_some_iff.mp h
    have hlock : σ.state.locked = false := by
      cases hlocked : σ.state.locked with
      | false => rfl
      | true =>
        rw [dbtInvalidateBlock, State.lock, hlocked] at hs
        cases hs
    rw [dbtInvalidateBlock_eq hlock] at hs
    have hframe : s.mode = σ.state.mode ∧ s.cacheUsed = σ.state.cacheUsed := by
      rw [← Option.some.inj hs]
      unfold State.invalidate
      split <;> exact ⟨rfl, rfl⟩
    rw [← hσ']
    exact ⟨hframe.1, .inl ⟨rfl, rfl, hframe.2⟩⟩

theorem Accounted.exec (h : Accounted σ) (hsure : conv.Sure σ.state.mode)
    (halloc : ∀ t env alloc, a = .advance t env alloc → alloc = true) (hexclusive : a.Exclusive σ)
    (hexec : a.exec conv σ = some σ') : Accounted σ' := by
  obtain ⟨-, ⟨hphase, hwritten, hused⟩ | ⟨t, hmove, hframe, hchecked⟩⟩ := a.exec_moves hsure halloc hexec
  · apply h.of_same _ _ hused hwritten
    · intro u b n used hu
      rw [hphase] at hu
      exact h.adding u b n used hu
    · intro u
      rw [hphase]
    · intro u
      rw [hphase]
  · apply h.move hmove hframe
    intro ctx armPc hphase
    obtain ⟨env, ha⟩ := hchecked ctx armPc hphase
    exact hexclusive t env true ctx armPc ha hphase

/-- Once two threads have read one place, both write to it. -/
theorem claims_exec (hsure : conv.Sure σ.state.mode)
    (halloc : ∀ t env alloc, a = .advance t env alloc → alloc = true) (hexec : a.exec conv σ = some σ')
    {b t u : Nat} (htu : t ≠ u) :
    σ.claims b t + σ.claims b u + σ.placedAt b ≤ σ'.claims b t + σ'.claims b u + σ'.placedAt b := by
  obtain ⟨-, ⟨hphase, hwritten, -⟩ | ⟨v, hmove, hframe, -⟩⟩ := a.exec_moves hsure halloc hexec
  · simp [Threads.claims, Threads.placedAt, hphase, hwritten]
  · have hmoved := hmove.claims_le b
    have hsame : ∀ w, w ≠ v → σ'.claims b w = σ.claims b w := by
      intro w hw
      rw [Threads.claims, Threads.claims, hframe w hw]
    by_cases ht : t = v
    · have hu := hsame u (ht ▸ htu.symm)
      rw [ht, hu]
      omega
    · rw [hsame t ht]
      by_cases hu : u = v
      · rw [hu]
        omega
      · rw [hsame u hu]
        omega

theorem claims_run {acts : List (Act E)} (hsure : conv.Sure σ.state.mode)
    (halloc : ∀ t env alloc, .advance t env alloc ∈ acts → alloc = true)
    (hrun : runActs conv acts σ = some σ') {b t u : Nat} (htu : t ≠ u) :
    σ.claims b t + σ.claims b u + σ.placedAt b ≤ σ'.claims b t + σ'.claims b u + σ'.placedAt b := by
  induction acts generalizing σ with
  | nil => rw [← Option.some.inj hrun]
  | cons a acts ih =>
    obtain ⟨σ₁, hexec, hrest⟩ := Option.bind_eq_some_iff.mp hrun
    have halloc₁ : ∀ t env alloc, a = .advance t env alloc → alloc = true := fun t env alloc ha ↦
      halloc t env alloc (ha ▸ List.mem_cons_self)
    have hmode := (a.exec_moves hsure halloc₁ hexec).1
    have hstep := claims_exec hsure halloc₁ hexec (b := b) htu
    have hlater := ih (hmode ▸ hsure) (fun t env alloc ha ↦ halloc t env alloc (List.mem_cons_of_mem _ ha))
      hrest
    omega

/-- Two threads that read one place. -/
theorem Accounted.collides (h : Accounted σ) (hexclusive : ¬ a.Exclusive σ) (hexec : a.exec conv σ = some σ') :
    ∃ b t u, t ≠ u ∧ 2 ≤ σ'.claims b t + σ'.claims b u + σ'.placedAt b := by
  simp only [Act.Exclusive, not_forall] at hexclusive
  obtain ⟨t, env, alloc, ctx, armPc, rfl, hchecked, u, hu⟩ := hexclusive
  obtain ⟨b, hb⟩ := Option.ne_none_iff_exists'.mp hu
  have htu : t ≠ u := by
    rintro rfl
    rw [hchecked] at hb
    cases hb
  have hused := h.base u b hb
  have hσ' : σ' = σ.move t (.placed ctx armPc σ.state.cacheUsed) σ.state := by
    simp only [Act.exec, Threads.advance, hchecked] at hexec
    exact (Option.some.inj hexec).symm
  have hself : σ'.claims b t = 1 := by
    rw [Threads.claims, hσ', σ.move_self, hused]
    exact if_pos ⟨rfl, rfl⟩
  refine ⟨b, t, u, htu, ?_⟩
  have hother : σ'.phase u = σ.phase u := by
    rw [hσ', σ.move_ne htu.symm]
  cases howned : (σ.phase u).owned with
  | none =>
    have hclaim : σ'.claims b u = 1 := by
      rw [Threads.claims, hother, if_pos ⟨hb, howned⟩]
    omega
  | some x =>
    -- the other one has written its code already
    obtain ⟨hmem, hpos⟩ := h.owner u x howned
    have hx : x.1 = b := Option.some.inj ((Phase.window_of_owned (b := x.1) (n := x.2) howned).symm.trans hb)
    have hplaced : 0 < σ'.placedAt b := by
      rw [hσ']
      exact List.countP_pos_iff.mpr ⟨x, hmem, decide_eq_true ⟨hx, hpos⟩⟩
    omega

/-- The run lemma: the blocks are apart behind a schedule that has closed its windows exactly when the
windows did not overlap. -/
theorem Accounted.run_iff (h : Accounted σ) {acts : List (Act E)} (hsure : conv.Sure σ.state.mode)
    (halloc : ∀ t env alloc, .advance t env alloc ∈ acts → alloc = true)
    (hrun : runActs conv acts σ = some σ') (hdone : ∀ t, (σ'.phase t).window = none) :
    σ'.written.Pairwise Apart ↔ ∀ x ∈ actsOf conv acts σ, x.1.Exclusive x.2 := by
  induction acts generalizing σ with
  | nil =>
    rw [← Option.some.inj hrun]
    simp [actsOf, h.apart]
  | cons a acts ih =>
    obtain ⟨σ₁, hexec, hrest⟩ := Option.bind_eq_some_iff.mp hrun
    have halloc₁ : ∀ t env alloc, a = .advance t env alloc → alloc = true := fun t env alloc ha ↦
      halloc t env alloc (ha ▸ List.mem_cons_self)
    have hallocs : ∀ t env alloc, .advance t env alloc ∈ acts → alloc = true := fun t env alloc ha ↦
      halloc t env alloc (List.mem_cons_of_mem _ ha)
    have hmode := (a.exec_moves hsure halloc₁ hexec).1
    rw [actsOf, List.forall_mem_cons, hexec]
    by_cases hexclusive : a.Exclusive σ
    · rw [ih (h.exec hsure halloc₁ hexclusive hexec) (hmode ▸ hsure) hallocs hrest]
      exact (and_iff_right hexclusive).symm
    · refine iff_of_false (fun hapart ↦ ?_) fun hall ↦ hexclusive hall.1
      obtain ⟨b, t, u, htu, htwo⟩ := h.collides hexclusive hexec
      have hlater := claims_run (hmode ▸ hsure) hallocs hrest (b := b) htu
      have hclosed : ∀ v, σ'.claims b v = 0 := by
        intro v
        rw [Threads.claims, hdone v, if_neg]
        rintro ⟨hv, -⟩
        cases hv
      have hplaced : 2 ≤ σ'.placedAt b := by
        have ht := hclosed t
        have hu := hclosed u
        omega
      exact not_pairwise_apart hplaced hapart

end Schedules

section Alone

variable {conv : Converters E} {σ : Threads} {t : Nat}

/-- The steps of one thread, with nothing in between. -/
def aloneActs (t ctx : Nat) (armPc : Addr) (env : E) (alloc : Bool) (n : Nat) : List (Act E) :=
  .call t ctx armPc :: List.replicate n (.advance t env alloc)

@[simp] theorem Threads.move_move (σ : Threads) (t : Nat) (p q : Phase) (s s' : State) :
    (σ.move t p s).move t q s' = σ.move t q s' := by
  simp only [Threads.move, Threads.mk.injEq, and_true, true_and]
  funext u
  split <;> rfl

@[simp] theorem Threads.move_state (σ : Threads) (t : Nat) (p : Phase) (s : State) :
    (σ.move t p s).state = s :=
  rfl

@[simp] theorem Threads.wrote_move (σ : Threads) (x : Nat × Nat) (t : Nat) (p : Phase) (s : State) :
    (σ.wrote x).move t p s = (σ.move t p s).wrote x :=
  rfl

@[simp] theorem Threads.wrote_phase (σ : Threads) (x : Nat × Nat) : (σ.wrote x).phase = σ.phase := rfl

@[simp] theorem Threads.wrote_state (σ : Threads) (x : Nat × Nat) : (σ.wrote x).state = σ.state := rfl

/-- A thread that nothing comes between does what `dbtTranslateBlock` does. -/
theorem run_alone (hidle : σ.phase t = .idle) (ctx : Nat) (armPc : Addr) (env : E) (alloc : Bool)
    {r : Option (Nat × Nat)} {s' : State}
    (h : dbtTranslateBlock conv ctx armPc env alloc σ.state = some (r, s')) :
    ∃ n σ', runActs conv (aloneActs t ctx armPc env alloc n) σ = some σ' ∧ σ'.state = s' ∧
      σ'.phase = σ.phase := by
  have hphase : ∀ s, (σ.move t .idle s).phase = σ.phase := by
    intro s
    funext u
    by_cases hu : u = t
    · rw [hu, σ.move_self, hidle]
    · exact σ.move_ne hu _ s
  cases hlookup : dbtLookup armPc σ.state with
  | none =>
    rw [dbtTranslateBlock, hlookup] at h
    cases h
  | some found =>
    obtain ⟨cached, s⟩ := found
    have hlock : σ.state.locked = false := by
      cases hlocked : σ.state.locked with
      | false => rfl
      | true =>
        rw [dbtLookup, State.lock, hlocked] at hlookup
        cases hlookup
    have hfree : ¬ (σ.phase t ≠ .idle ∨ σ.state.locked) := by simp [hidle, hlock]
    simp only [dbtTranslateBlock, hlookup, Option.bind_eq_bind, Option.bind_some] at h
    cases cached with
    | some i =>
      have hcall : σ.call t ctx armPc = some (σ.move t .idle s) := by
        rw [Threads.call, if_neg hfree, hlookup]
      obtain ⟨-, rfl⟩ := Prod.mk.inj (Option.some.inj h)
      exact ⟨0, σ.move t .idle s, by simp [aloneActs, runActs, Act.exec, hcall], rfl, hphase s⟩
    | none =>
      have hcall : σ.call t ctx armPc = some (σ.move t (.missed ctx armPc) s) := by
        rw [Threads.call, if_neg hfree, hlookup]
      dsimp only at h
      by_cases hroom : s.mapped = false ∨ s.cacheUsed + 4096 > codeCacheSize
      · rw [if_pos hroom] at h
        obtain ⟨-, rfl⟩ := Prod.mk.inj (Option.some.inj h)
        refine ⟨1, σ.move t .idle s, ?_, rfl, hphase s⟩
        simp [aloneActs, runActs, Act.exec, hcall, Threads.advance, hroom]
      · rw [if_neg hroom] at h
        cases alloc with
        | false =>
          rw [if_pos rfl] at h
          obtain ⟨-, rfl⟩ := Prod.mk.inj (Option.some.inj h)
          refine ⟨3, σ.move t .idle s, ?_, rfl, hphase s⟩
          simp [aloneActs, runActs, Act.exec, hcall, Threads.advance, hroom]
        | true =>
          rw [if_neg (by decide)] at h
          cases hconv : (conv.convert (s.mode ctx)).run env armPc s.cacheUsed
            (readMemory s.memory armPc (sourceSize (s.mode ctx))) with
          | error partly =>
            simp only [hconv] at h
            obtain ⟨-, rfl⟩ := Prod.mk.inj (Option.some.inj h)
            refine ⟨4, σ.move t .idle _, ?_, rfl, hphase _⟩
            simp [aloneActs, runActs, Act.exec, hcall, Threads.advance, hroom, hconv]
          | ok x86 =>
            simp only [hconv] at h
            obtain ⟨s₁, hinsert, hret⟩ := Option.bind_eq_some_iff.mp h
            obtain ⟨-, hs'⟩ := Prod.mk.inj (Option.some.inj hret)
            refine ⟨7, (σ.move t .idle s').wrote (s.cacheUsed, x86.length), ?_, rfl, hphase s'⟩
            rw [← hs']
            simp [aloneActs, runActs, Act.exec, hcall, Threads.advance, hroom, hconv, hinsert]

end Alone

section Processes

theorem accounted_start (s : State) : Accounted ⟨s, fun _ ↦ .idle, []⟩ where
  alone _ _ _ _ h := by cases h
  base _ _ h := by cases h
  adding _ _ _ _ h := by cases h
  owner _ _ h := by cases h
  below _ h := by cases h
  apart := List.Pairwise.nil

theorem sure_sourceConverters {mode : Nat → Mode} (hmode : ∀ ctx, (mode ctx).Wide) :
    sourceConverters.Sure mode := by
  intro ctx surr armPc blockMem armCode
  have hconverter : sourceConverters.convert (mode ctx) = arm64Converter := by
    cases h : mode ctx with
    | arm64 | auto => rfl
    | arm32 | thumb =>
      have hwide := hmode ctx
      rw [h] at hwide
      cases hwide
  rw [hconverter]
  refine ⟨_, ?_, rfl⟩
  obtain ⟨body, hparts⟩ := Translate.convertBlockBytes_parts surr.env surr.stack
    (sourceBlock armPc armCode) (surr.codeCache + BitVec.ofNat 64 blockMem)
  rw [hparts]
  exact List.append_ne_nil_of_left_ne_nil (by decide) _

/-- In a process of 64-bit contexts whose allocations succeed, the codes that were written lie apart, once
each thread is through, exactly when no thread read the place for its block while another one had read its
own and not yet added the size of its block to the used part. -/
theorem written_apart_iff (mapped : Bool) (code : Nat → Byte) (memory : Addr → Byte) (mode : Nat → Mode)
    (hmode : ∀ ctx, (mode ctx).Wide) (acts : List (Act Surroundings)) {σ : Threads}
    (halloc : ∀ t surr alloc, .advance t surr alloc ∈ acts → alloc = true)
    (hrun : runActs sourceConverters acts ⟨dbtInit mapped code memory mode, fun _ ↦ .idle, []⟩ = some σ)
    (hdone : ∀ t, (σ.phase t).window = none) :
    σ.written.Pairwise Apart ↔
      ∀ x ∈ actsOf sourceConverters acts ⟨dbtInit mapped code memory mode, fun _ ↦ .idle, []⟩,
        x.1.Exclusive x.2 :=
  (accounted_start _).run_iff (sure_sourceConverters hmode) halloc hrun hdone

private def raceSurroundings : Surroundings where
  env := Translate.Env.default
  stack := Translate.Stack.zero
  shl _ := 0#64
  codeCache := 0x7f0000000000#64

/-- Two threads that translate the block at `0x1000` in step. -/
private def race : List (Act Surroundings) :=
  [.call 0 0 0x1000#64, .call 1 0 0x1000#64] ++
    (List.replicate 7 [.advance 0 raceSurroundings true, .advance 1 raceSurroundings true]).flatten

/-- The two blocks have the same place. -/
theorem written_apart_race : ∃ σ,
    runActs sourceConverters race
      ⟨dbtInit true (fun _ ↦ 0#8) (fun _ ↦ 0#8) fun _ ↦ .arm64, fun _ ↦ .idle, []⟩ = some σ ∧
    ¬ σ.written.Pairwise Apart := by
  refine ⟨_, rfl, ?_⟩
  rw [written_apart_iff true (fun _ ↦ 0#8) (fun _ ↦ 0#8) (fun _ ↦ .arm64) (fun _ ↦ rfl) race ?_ rfl ?_]
  · intro h
    -- the second thread reads its place behind the first one
    have hsecond := h (.advance 1 raceSurroundings true, _)
      (.tail _ (.tail _ (.tail _ (.tail _ (.tail _ (.head _))))))
    have hopen := hsecond 1 raceSurroundings true 0 0x1000#64 rfl rfl 0
    cases hopen
  · intro t surr alloc hmem
    rcases List.mem_append.mp hmem with hcall | hround
    · simp at hcall
    · obtain ⟨l, hl, hadvance⟩ := List.mem_flatten.mp hround
      rw [List.eq_of_mem_replicate hl] at hadvance
      simp only [List.mem_cons, Act.advance.injEq, List.not_mem_nil, or_false] at hadvance
      rcases hadvance with ⟨-, -, htrue⟩ | ⟨-, -, htrue⟩
      · exact htrue
      · exact htrue
  · intro t
    rcases t with _ | _ | t
    · rfl
    · rfl
    · rfl

end Processes

end Arm2x86.Dbt
