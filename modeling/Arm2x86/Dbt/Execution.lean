import Arm2x86.Dbt.Coherence
import Arm2x86.Dbt.Placement
import Arm2x86.Translate.HomePrograms

/-!
# Executing what the runtime translated

The code cache against the programs that are executed from it. In a process of 64-bit contexts the
runtime never returns the code of another program: a block is compared in all of its 256 bytes, and a
lookup that finds them changed does not return. The code of a block that was returned stays in the code
cache, whatever is translated, invalidated or written behind it, until the code cache is flushed.
-/

namespace Arm2x86.Dbt

/-- The modes `arm2x86_convert_block` translates. -/
def Mode.Wide (m : Mode) : Prop := m.translatesAs = .arm64

theorem Mode.Wide.sourceSize {m : Mode} (h : m.Wide) : sourceSize m = armSize := by
  cases m with
  | arm64 | auto | arm32 => rfl
  | thumb => cases h

/-- The state behind some steps, if each of them returns. -/
def stateAfter {E : Type} (conv : Converters E) : List (Op E) → State → Option State
  | [], s => some s
  | op :: ops, s => (op.exec conv s).bind fun r ↦ stateAfter conv ops r.2

/-- The guest code at an address, as the block that is translated. -/
def State.guestBlock (s : State) (armPc : Addr) : Translate.Block :=
  sourceBlock armPc (readMemory s.memory armPc armSize)

section Bytes

theorem readMemory_add (memory : Addr → Byte) (addr : Addr) (m n : Nat) : readMemory memory addr (m + n) =
    readMemory memory addr m ++ readMemory memory (addr + BitVec.ofNat 64 m) n := by
  rw [readMemory, List.range_add, List.map_append, List.map_map]
  congr 1
  apply List.map_congr_left
  intro i _
  rw [Function.comp_apply, BitVec.ofNat_add, BitVec.add_assoc]

/-- Guest code is compared a word at a time. -/
theorem readMemory_words {memory memory' : Addr → Byte} {addr : Addr} {n : Nat}
    (h : ∀ k < n, readMemory memory (addr + BitVec.ofNat 64 (4 * k)) 4 =
      readMemory memory' (addr + BitVec.ofNat 64 (4 * k)) 4) :
    readMemory memory addr (4 * n) = readMemory memory' addr (4 * n) := by
  induction n with
  | zero => rfl
  | succ n ih =>
    rw [Nat.mul_succ, readMemory_add, readMemory_add, h n (Nat.lt_succ_self n)]
    rw [ih fun k hk ↦ h k (Nat.lt_succ_of_lt hk)]

theorem eq_of_leNat {bs bs' : List Byte} (hlen : bs.length = bs'.length) (h : leNat bs = leNat bs') :
    bs = bs' := by
  rw [← leBytes_leNat bs, ← leBytes_leNat bs', hlen, h]

theorem readCode_congr {code code' : Nat → Byte} {entry n : Nat}
    (h : ∀ i < entry + n, code' i = code i) : readCode code' entry n = readCode code entry n := by
  apply List.map_congr_left
  intro i hi
  have hlt := List.mem_range.mp hi
  apply h
  omega

end Bytes

section Runs

variable {E : Type} {conv : Converters E} {s s' : State} {origins : Nat → Origin} {armPc : Addr}

/-- A block that is not taken for modified has the guest code it was made from. -/
theorem Translated.current {block : Block} {entry : Nat} {origin : Origin} {x86 : List Byte}
    (h : Translated conv s block entry origin x86) (hentry : block.x86Entry = some entry)
    {memory : Addr → Byte} (hsmc : dbtCheckSmc memory block = false) :
    readMemory memory block.armPc armSize = readMemory origin.memory block.armPc armSize := by
  have hsize : armSize = 4 * 64 := rfl
  simp only [dbtCheckSmc, h.saved, hentry, h.savedSize, List.any_eq_false, List.mem_range,
    decide_eq_true_eq, ne_eq, Decidable.not_not] at hsmc
  rw [hsize]
  apply readMemory_words
  intro k hk
  have hword := hsmc k (by rw [hsize]; omega)
  rw [readMemory_slice _ _ (by omega)] at hword
  apply eq_of_leNat _ hword
  rw [length_readMemory, length_readMemory]

/-- The blocks are translated, by `arm2x86_convert_block`. -/
structure WideCoherence (conv : Converters E) (s : State) (origins : Nat → Origin) : Prop extends
    Coherence conv s origins where
  modes : ∀ ctx, (s.mode ctx).Wide
  made : ∀ i, (origins i).mode.Wide

/-- A step that returns finds current code. -/
theorem WideCoherence.finds (h : WideCoherence conv s origins) {op : Op E} {r : Option (Nat × Nat)}
    (hexec : op.exec conv s = some (r, s')) : op.finds s origins = true := by
  cases op with
  | write addr value | setMode ctx mode | invalidateBlock armPc | flushCache => rfl
  | translateBlock ctx armPc env alloc =>
    have hsmc : s.smcDetected armPc = false := by
      cases hdetected : s.smcDetected armPc with
      | false => rfl
      | true =>
        rw [Op.exec, dbtTranslateBlock_of_smc hdetected] at hexec
        cases hexec
    unfold Op.finds
    dsimp only
    split
    · rfl
    · next i hfind =>
      cases hentry : (s.cache i).x86Entry with
      | none => rfl
      | some entry =>
        obtain ⟨hi, hpc⟩ := findBlock_eq_some hfind
        obtain ⟨x86, hx⟩ := h.blocks i hi entry hentry
        have hcheck : dbtCheckSmc s.memory (s.cache i) = false := by
          unfold State.smcDetected at hsmc
          rwa [hfind] at hsmc
        have hbytes := hx.current hentry hcheck
        rw [hpc] at hbytes
        rw [(h.modes ctx).sourceSize, hbytes, h.modes ctx, h.made i]
        simp

theorem originsAfter_wide (h : WideCoherence conv s origins) (op : Op E) (i : Nat) :
    (originsAfter op s s' origins i).mode.Wide := by
  cases op with
  | write addr value | setMode ctx mode | invalidateBlock armPc | flushCache => exact h.made i
  | translateBlock ctx armPc env alloc =>
    rw [originsAfter]
    cases s.findBlock armPc with
    | some k => exact h.made i
    | none =>
      cases s'.findBlock armPc with
      | none => exact h.made i
      | some k =>
        dsimp only
        split
        · exact h.modes ctx
        · exact h.made i

/-- The modes and the used part behind a translation. -/
theorem dbtTranslateBlock_frame (hlock : s.locked = false) {ctx : Nat} {env : E} {alloc : Bool}
    {r : Option (Nat × Nat)} (hexec : dbtTranslateBlock conv ctx armPc env alloc s = some (r, s')) :
    s'.mode = s.mode ∧ s.cacheUsed ≤ s'.cacheUsed := by
  have hinsert : ∀ (s₁ : State) (block : Block), (s₁.insertBlock block).mode = s₁.mode := by
    intro s₁ block
    unfold State.insertBlock
    split <;> rfl
  cases hsmc : s.smcDetected armPc with
  | true =>
    rw [dbtTranslateBlock_of_smc hsmc] at hexec
    cases hexec
  | false =>
    obtain ⟨i, -, heq⟩ | ⟨-, heq | ⟨written, heq⟩ | ⟨x86, -, heq⟩⟩ :=
      dbtTranslateBlock_cases conv hlock hsmc ctx env alloc
    all_goals obtain ⟨-, rfl⟩ := Prod.mk.inj (Option.some.inj (heq.symm.trans hexec))
    · exact ⟨rfl, Nat.le_refl _⟩
    · exact ⟨rfl, Nat.le_refl _⟩
    · exact ⟨rfl, Nat.le_refl _⟩
    · exact ⟨hinsert _ _, Nat.le_add_right _ _⟩

/-- Only a flush gives up a part of the code cache. -/
theorem exec_frame (hlock : s.locked = false) {op : Op E} {r : Option (Nat × Nat)}
    (hexec : op.exec conv s = some (r, s')) :
    ((∃ ctx m, op = .setMode ctx m ∧ s'.mode = fun c ↦ if c = ctx then m else s.mode c) ∨
      s'.mode = s.mode) ∧ (op = .flushCache ∨ s.cacheUsed ≤ s'.cacheUsed) := by
  cases op with
  | write addr value =>
    obtain ⟨-, rfl⟩ := Prod.mk.inj (Option.some.inj hexec)
    exact ⟨.inr rfl, .inr (Nat.le_refl _)⟩
  | setMode ctx m =>
    obtain ⟨-, rfl⟩ := Prod.mk.inj (Option.some.inj hexec)
    exact ⟨.inl ⟨ctx, m, rfl, rfl⟩, .inr (Nat.le_refl _)⟩
  | invalidateBlock armPc =>
    simp only [Op.exec, dbtInvalidateBlock_eq hlock] at hexec
    obtain ⟨-, rfl⟩ := Prod.mk.inj (Option.some.inj hexec)
    unfold State.invalidate
    split
    · exact ⟨.inr rfl, .inr (Nat.le_refl _)⟩
    · exact ⟨.inr rfl, .inr (Nat.le_refl _)⟩
  | flushCache =>
    simp only [Op.exec, dbtFlushCache, State.lock, hlock, Bool.false_eq_true, if_false,
      Option.bind_eq_bind, Option.bind_some] at hexec
    obtain ⟨-, rfl⟩ := Prod.mk.inj (Option.some.inj hexec)
    exact ⟨.inr rfl, .inl rfl⟩
  | translateBlock ctx armPc env alloc =>
    obtain ⟨hmode, hused⟩ := dbtTranslateBlock_frame hlock hexec
    exact ⟨.inr hmode, .inr hused⟩

/-- The step lemma of a process of 64-bit contexts. -/
theorem WideCoherence.step (h : WideCoherence conv s origins) {op : Op E} {r : Option (Nat × Nat)}
    (hmode : ∀ ctx m, op = .setMode ctx m → m.Wide) (hexec : op.exec conv s = some (r, s')) :
    WideCoherence conv s' (originsAfter op s s' origins) where
  toCoherence := (Op.exec_coherent h.toCoherence op (h.finds hexec)).2 r s' hexec
  modes c := by
    rcases (exec_frame h.unlocked hexec).1 with ⟨ctx, m, hop, hs'⟩ | hs'
    · rw [hs']
      dsimp only
      split
      · exact hmode ctx m hop
      · exact h.modes c
    · rw [hs']
      exact h.modes c
  made i := originsAfter_wide h op i

theorem WideCoherence.run (h : WideCoherence conv s origins) {ops : List (Op E)}
    (hmode : ∀ ctx m, Op.setMode ctx m ∈ ops → m.Wide) (hafter : stateAfter conv ops s = some s') :
    ∃ origins', WideCoherence conv s' origins' := by
  induction ops generalizing s origins with
  | nil =>
    rw [← Option.some.inj hafter]
    exact ⟨origins, h⟩
  | cons op ops ih =>
    obtain ⟨⟨r, s₁⟩, hexec, hrest⟩ := Option.bind_eq_some_iff.mp hafter
    apply ih (h.step (fun ctx m hop ↦ hmode ctx m (hop ▸ List.mem_cons_self)) hexec) _ hrest
    intro ctx m hop
    exact hmode ctx m (List.mem_cons_of_mem _ hop)

end Runs

section Returned

variable {s s' t : State} {origins : Nat → Origin} {armPc : Addr} {entry size : Nat}

theorem Placed.run (h : Placed s) {ops : List (Op Surroundings)}
    (hafter : stateAfter sourceConverters ops s = some t) : Placed t := by
  induction ops generalizing s with
  | nil =>
    rw [← Option.some.inj hafter]
    exact h
  | cons op ops ih =>
    obtain ⟨⟨r, s₁⟩, hexec, hrest⟩ := Option.bind_eq_some_iff.mp hafter
    exact ih ((op.exec_placed h).2 r s₁ hexec) hrest

/-- What lies in the used part stays there until a flush. -/
theorem Placed.code_stays (h : Placed s) {ops : List (Op Surroundings)}
    (hafter : stateAfter sourceConverters ops s = some t) (hflush : Op.flushCache ∉ ops)
    (hbelow : entry + size ≤ s.cacheUsed) : readCode t.code entry size = readCode s.code entry size := by
  induction ops generalizing s with
  | nil => rw [← Option.some.inj hafter]
  | cons op ops ih =>
    obtain ⟨⟨r, s₁⟩, hexec, hrest⟩ := Option.bind_eq_some_iff.mp hafter
    obtain ⟨hwrites, hnext⟩ := op.exec_placed h
    rw [List.mem_cons, not_or] at hflush
    have hused : s.cacheUsed ≤ s₁.cacheUsed :=
      (exec_frame h.unlocked hexec).2.resolve_left (Ne.symm hflush.1)
    rw [ih (hnext r s₁ hexec) hrest hflush.2 (by omega)]
    apply readCode_congr
    intro i hi
    by_contra hne
    have hbehind := (hwrites r s₁ hexec i hne).1
    omega

/-- A block that is returned lies in the used part, and it is the translation of the guest code that is
there now. -/
theorem dbtTranslateBlock_returned (h : WideCoherence sourceConverters s origins) {ctx : Nat}
    {surr : Surroundings} {alloc : Bool}
    (hexec : dbtTranslateBlock sourceConverters ctx armPc surr alloc s = some (some (entry, size), s')) :
    entry + size ≤ s'.cacheUsed ∧ ∃ env stack x86Base,
      readCode s'.code entry size = Translate.convertBlockBytes env stack (s.guestBlock armPc) x86Base := by
  have hop : (Op.translateBlock ctx armPc surr alloc).exec sourceConverters s =
      some (some (entry, size), s') := hexec
  have hfinds := h.finds hop
  constructor
  · obtain ⟨i, hfind, heq⟩ | ⟨-, heq | ⟨written, heq⟩ | ⟨x86, -, heq⟩⟩ :=
      dbtTranslateBlock_cases sourceConverters h.unlocked (h.smcDetected_eq_false hfinds) ctx surr alloc
    all_goals obtain ⟨hr, rfl⟩ := Prod.mk.inj (Option.some.inj (heq.symm.trans hexec))
    · obtain ⟨entry', hentry, hpair⟩ := Option.map_eq_some_iff.mp hr
      obtain ⟨rfl, rfl⟩ := Prod.mk.inj hpair
      obtain ⟨x86, hx⟩ := h.blocks i (findBlock_eq_some hfind).1 entry' hentry
      rw [hx.size]
      exact hx.below
    · cases hr
    · cases hr
    · obtain ⟨rfl, rfl⟩ := Prod.mk.inj (Option.some.inj hr)
      dsimp only
      omega
  · obtain ⟨r, s₁, hexec', hcode⟩ := (Op.exec_coherent h.toCoherence _ hfinds).1
    obtain ⟨rfl, rfl⟩ := Prod.mk.inj (Option.some.inj (hexec'.symm.trans hop))
    obtain ⟨surr', x86, hconv, -, hread⟩ := hcode entry size rfl
    have hconverter : sourceConverters.convert (s.mode ctx) = arm64Converter := by
      cases hmode : s.mode ctx with
      | arm64 | auto => rfl
      | arm32 | thumb =>
        have hwide := h.modes ctx
        rw [hmode] at hwide
        cases hwide
    rw [hconverter, (h.modes ctx).sourceSize] at hconv
    exact ⟨surr'.env, surr'.stack, _, hread.trans (Except.ok.inj hconv).symm⟩

theorem wideCoherence_dbtInit (mapped : Bool) (code : Nat → Byte) (memory : Addr → Byte)
    {mode : Nat → Mode} (hmode : ∀ ctx, (mode ctx).Wide) :
    WideCoherence sourceConverters (dbtInit mapped code memory mode) fun _ ↦ ⟨.arm64, memory⟩ where
  toInv := dbtInit_inv mapped code memory mode
  blocks i hi := absurd hi (Nat.not_lt_zero i)
  modes := hmode
  made _ := rfl

/-- Guest memory with `MUL X0, X1, X2` and `RET` at `0x1000`. -/
private def mulMemory : Addr → Byte := fun addr ↦
  [0x20#8, 0x7c#8, 0x02#8, 0x9b#8, 0xc0#8, 0x03#8, 0x5f#8, 0xd6#8].getD (addr - 0x1000#64).toNat 0#8

private def mulSurroundings : Surroundings where
  env := Translate.Env.default
  stack := Translate.Stack.zero
  shl _ := 0#64
  codeCache := 0x7f0000000000#64

/-- The runtime with the product in guest memory. -/
private def mulStart : State := dbtInit true (fun _ ↦ 0#8) mulMemory fun _ ↦ .arm64

end Returned

end Arm2x86.Dbt
