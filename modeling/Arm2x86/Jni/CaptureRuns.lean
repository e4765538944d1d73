import Arm2x86.Base.Stepping
import Arm2x86.Jni.Capture

/-!
# What is captured

The list of all methods holds what was passed since it was freed, as long as no call with methods finds it
in use: the tail of the list is known to the call only that has put it there. The tables of the modules
hold the methods within them, up to the last capacity that doubling can reach.
-/

namespace Arm2x86.Jni

open Stepping

/-- A method whose code is in the mapping of a module. -/
def LoadedModule.Holds (mod : LoadedModule) (fnPtr : Addr) : Prop :=
  mod.memory ≠ 0 ∧ mod.memory.toNat ≤ fnPtr.toNat ∧ fnPtr.toNat < mod.memory.toNat + mod.mappedSize

instance (mod : LoadedModule) (fnPtr : Addr) : Decidable (mod.Holds fnPtr) := by
  unfold LoadedModule.Holds
  infer_instance

/-- What belongs into the table of a module for a method. -/
def registration (mod : LoadedModule) (e : NativeMethod) : Option MethodRecord :=
  if mod.Holds e.fnPtr then some ⟨none, e.name, e.signature, e.fnPtr, e.fnPtr - mod.memory⟩ else none

/-- What a call has to append to the table of a module. -/
def Intercept.registered (c : Intercept) (id : Nat) : List MethodRecord :=
  match c.mod with
  | none => []
  | some mod => if mod.id = id then c.entries.filterMap (registration mod) else []

/-- What all calls have to append to the table of a module. -/
def registered (id : Nat) (as : List Action) : List MethodRecord :=
  as.flatMap fun
    | .intercept c => c.registered id
    | .free => []

/-- The methods that were passed since the last call that frees them. -/
def sinceFree (as : List Action) : List NativeMethod :=
  as.foldl (fun passed a ↦
    match a with
    | .intercept c => passed ++ c.entries
    | .free => []) []

/-- The arguments that a captured method came from. -/
def MethodRecord.given (m : MethodRecord) : NativeMethod := ⟨m.methodName, m.signature, m.fnPtr⟩

/-- What is asked of the state behind some calls. -/
def CaptureRight (as : List Action) : Prop :=
  ∃ s, runCalls as = .ok s ∧ s.captured.map MethodRecord.given = sinceFree as ∧
    s.count.toInt = (sinceFree as).length ∧
    ∀ id, (s.tables id).methods = registered id as ∧ (s.tables id).methods.length ≤ (s.tables id).capacity

/-- The number of methods that the capacity can be doubled to. -/
def maxMethods : Nat := 2 ^ 30

/-- A call has no methods or finds no list, and the table of its module does not get too long. -/
def CallSafe (done : List Action) : Action → Prop
  | .free => True
  | .intercept c =>
    (c.entries = [] ∨ sinceFree done = []) ∧
      ∀ mod, c.mod = some mod → (registered mod.id (done ++ [.intercept c])).length ≤ maxMethods

section Tables

/-- A table that has been grown from nothing. -/
structure NativeTable.Grown (t : NativeTable) : Prop where
  count_le : t.methods.length ≤ t.capacity
  capacity_eq : t.capacity = 0 ∨ ∃ k ≤ 26, t.capacity = 16 * 2 ^ k

variable {mod : LoadedModule} {t : NativeTable} {e : NativeMethod} {es : List NativeMethod}

theorem offset_eq (fnPtr : Addr) :
    mod.offset fnPtr = if mod.Holds fnPtr then some (fnPtr - mod.memory) else none := by
  have hfits := mod.fits
  have hp := fnPtr.isLt
  have hm := mod.memory.isLt
  rw [LoadedModule.offset]
  refine if_congr ?_ rfl rfl
  rw [LoadedModule.Holds, BitVec.toNat_sub]
  constructor
  · rintro ⟨-, hmem, hlt⟩
    exact ⟨hmem, by omega⟩
  · rintro ⟨hmem, hle, hlt⟩
    have hpos : 0 < mod.memory.toNat := Nat.pos_of_ne_zero fun h ↦ hmem (BitVec.eq_of_toNat_eq h)
    refine ⟨?_, hmem, by omega⟩
    intro hnull
    rw [hnull] at hle
    exact absurd hle (Nat.not_le.mpr hpos)

/-- A table that is not as long as it can get has room for one more, perhaps with a doubled capacity. -/
theorem NativeTable.Grown.grow (h : t.Grown) (hlt : t.methods.length < maxMethods) :
    ∃ t' : NativeTable, t.grow = .ok t' ∧ t'.Grown ∧ t'.methods = t.methods ∧
      t'.methods.length < t'.capacity := by
  unfold maxMethods at hlt
  have hle := h.count_le
  rw [NativeTable.grow]
  split
  · next hfull =>
    rcases h.capacity_eq with hzero | ⟨k, hk, hcap⟩
    · refine ⟨{ t with capacity := 16 }, ?_, ⟨by simp only; omega, .inr ⟨0, by omega, rfl⟩⟩, rfl, by simp only; omega⟩
      rw [newCapacity, if_pos hzero]
      rfl
    · have hne : k ≠ 26 := by
        rintro rfl
        omega
      have hpow : 2 ^ k ≤ 2 ^ 25 := Nat.pow_le_pow_right (by decide) (by omega)
      have hpos : 0 < 2 ^ k := Nat.two_pow_pos k
      refine ⟨{ t with capacity := t.capacity * 2 }, ?_, ⟨by simp only; omega, .inr ⟨k + 1, by omega, ?_⟩⟩, rfl,
        by simp only; omega⟩
      · rw [newCapacity, if_neg (by omega), if_pos (by omega)]
        rfl
      · simp only
        rw [hcap, Nat.pow_succ]
        omega
  · next hroom => exact ⟨t, rfl, h, rfl, by omega⟩

/-- A table that is as long as it can get cannot be grown. -/
theorem NativeTable.Grown.grow_max (h : t.Grown) (hmax : t.methods.length = maxMethods) :
    t.grow = .error .overflow := by
  unfold maxMethods at hmax
  have hle := h.count_le
  rcases h.capacity_eq with hzero | ⟨k, hk, hcap⟩
  · omega
  · have hpow : 2 ^ k ≤ 2 ^ 26 := Nat.pow_le_pow_right (by decide) hk
    rw [NativeTable.grow, if_pos (by omega), newCapacity, if_neg (by omega), if_neg (by omega)]
    rfl

theorem NativeTable.Grown.length_le (h : t.Grown) : t.methods.length ≤ maxMethods := by
  unfold maxMethods
  have hle := h.count_le
  rcases h.capacity_eq with hzero | ⟨k, hk, hcap⟩
  · omega
  · have hpow : 2 ^ k ≤ 2 ^ 26 := Nat.pow_le_pow_right (by decide) hk
    omega

theorem registration_of_holds (h : mod.Holds e.fnPtr) :
    registration mod e = some ⟨none, e.name, e.signature, e.fnPtr, e.fnPtr - mod.memory⟩ := if_pos h

theorem registration_eq_none (h : ¬ mod.Holds e.fnPtr) : registration mod e = none := if_neg h

/-- A method outside of the module is left alone. -/
theorem register_outside (h : ¬ mod.Holds e.fnPtr) : register mod t e = .ok t := by
  rw [register, offset_eq, if_neg h]

/-- A method in the module is appended. -/
theorem register_inside (h : t.Grown) (hin : mod.Holds e.fnPtr) (hlt : t.methods.length < maxMethods) :
    ∃ t', register mod t e = .ok t' ∧ t'.Grown ∧
      t'.methods = t.methods ++ [⟨none, e.name, e.signature, e.fnPtr, e.fnPtr - mod.memory⟩] := by
  obtain ⟨t', hgrow, hgrown, hmethods, hroom⟩ := h.grow hlt
  refine ⟨{ t' with
    methods := t'.methods ++ [⟨none, e.name, e.signature, e.fnPtr, e.fnPtr - mod.memory⟩] }, ?_, ⟨?_, ?_⟩, ?_⟩
  · rw [register, offset_eq, if_pos hin, hgrow]
    simp only [Except.map]
    rw [if_pos hroom]
  · show (t'.methods ++ [_]).length ≤ t'.capacity
    rw [List.length_append, List.length_singleton]
    exact hroom
  · exact hgrown.capacity_eq
  · show t'.methods ++ [_] = _
    rw [hmethods]

/-- The first loop appends the methods in the module, if the table does not get too long. -/
theorem foldlM_register_ok (h : t.Grown)
    (hle : t.methods.length + (es.filterMap (registration mod)).length ≤ maxMethods) :
    ∃ t', es.foldlM (register mod) t = .ok t' ∧ t'.Grown ∧
      t'.methods = t.methods ++ es.filterMap (registration mod) := by
  induction es generalizing t with
  | nil => exact ⟨t, rfl, h, (List.append_nil _).symm⟩
  | cons e es ih =>
    by_cases hin : mod.Holds e.fnPtr
    · rw [List.filterMap_cons_some (registration_of_holds hin)] at hle ⊢
      rw [List.length_cons] at hle
      obtain ⟨t₁, hstep, hgrown, hmethods⟩ := register_inside h hin (by omega)
      obtain ⟨t', hrest, hgrown', hmethods'⟩ := ih hgrown (by
        rw [hmethods, List.length_append, List.length_singleton]
        omega)
      refine ⟨t', ?_, hgrown', ?_⟩
      · rw [List.foldlM_cons, hstep]
        exact hrest
      · rw [hmethods', hmethods, List.append_assoc, List.singleton_append]
    · rw [List.filterMap_cons_none (registration_eq_none hin)] at hle ⊢
      obtain ⟨t', hrest, hgrown', hmethods'⟩ := ih h hle
      refine ⟨t', ?_, hgrown', hmethods'⟩
      rw [List.foldlM_cons, register_outside hin]
      exact hrest

/-- It fails if the table gets too long. -/
theorem foldlM_register_error (h : t.Grown)
    (hlt : maxMethods < t.methods.length + (es.filterMap (registration mod)).length) :
    ∃ f, es.foldlM (register mod) t = .error f := by
  induction es generalizing t with
  | nil => exact absurd h.length_le (Nat.not_le.mpr hlt)
  | cons e es ih =>
    by_cases hin : mod.Holds e.fnPtr
    · rw [List.filterMap_cons_some (registration_of_holds hin), List.length_cons] at hlt
      rcases Nat.lt_or_ge t.methods.length maxMethods with hroom | hfull
      · obtain ⟨t₁, hstep, hgrown, hmethods⟩ := register_inside h hin hroom
        obtain ⟨f, hrest⟩ := ih hgrown (by
          rw [hmethods, List.length_append, List.length_singleton]
          omega)
        refine ⟨f, ?_⟩
        rw [List.foldlM_cons, hstep]
        exact hrest
      · refine ⟨.overflow, ?_⟩
        rw [List.foldlM_cons, register, offset_eq, if_pos hin, h.grow_max (Nat.le_antisymm h.length_le hfull)]
        rfl
    · rw [List.filterMap_cons_none (registration_eq_none hin)] at hlt
      obtain ⟨f, hrest⟩ := ih h hlt
      refine ⟨f, ?_⟩
      rw [List.foldlM_cons, register_outside hin]
      exact hrest

end Tables

section Chains

variable {mod : Option LoadedModule} {l : Chain} {e : NativeMethod} {es : List NativeMethod}

/-- The tail of the list is at hand. -/
structure Chain.AtTail (l : Chain) : Prop where
  nonempty : l.captured ≠ []
  tail_eq : ∃ i, l.prevTail = some i ∧ i + 1 = l.captured.length

/-- A method is put behind the tail, and is the tail then. -/
theorem capture_atTail (mod : Option LoadedModule) (e : NativeMethod) (h : l.captured = [] ∨ l.AtTail) :
    ∃ l', capture mod l e = .ok l' ∧ l'.AtTail ∧
      l'.captured.map MethodRecord.given = l.captured.map MethodRecord.given ++ [e] ∧ l'.count = l.count + 1 := by
  unfold capture
  dsimp only
  rcases h with hnil | ⟨hne, i, htail, hlength⟩
  · rw [if_pos hnil]
    refine ⟨_, rfl, ⟨by simp, 0, rfl, rfl⟩, ?_, rfl⟩
    rw [hnil]
    rfl
  · rw [if_neg hne, htail]
    refine ⟨_, rfl, ⟨by simp, i + 1, rfl, ?_⟩, ?_, rfl⟩
    · simp only [List.length_append, List.length_take, List.length_singleton]
      omega
    · simp only
      rw [hlength, List.take_length, List.map_append]
      rfl

/-- The second loop appends all methods to a list that it has begun itself. -/
theorem foldlM_capture_ok (mod : Option LoadedModule) (es : List NativeMethod)
    (h : l.captured = [] ∨ l.AtTail) :
    ∃ l', es.foldlM (capture mod) l = .ok l' ∧
      l'.captured.map MethodRecord.given = l.captured.map MethodRecord.given ++ es ∧
      l'.count = l.count + BitVec.ofNat 32 es.length := by
  induction es generalizing l with
  | nil => exact ⟨l, rfl, (List.append_nil _).symm, (BitVec.add_zero _).symm⟩
  | cons e es ih =>
    obtain ⟨l₁, hstep, htail, hgiven, hcount⟩ := capture_atTail mod e h
    obtain ⟨l', hrest, hgiven', hcount'⟩ := ih (.inr htail)
    refine ⟨l', ?_, ?_, ?_⟩
    · rw [List.foldlM_cons, hstep]
      exact hrest
    · rw [hgiven', hgiven, List.append_assoc, List.singleton_append]
    · rw [hcount', hcount, List.length_cons, BitVec.ofNat_add, BitVec.add_assoc]
      congr 1
      exact BitVec.add_comm ..

/-- A list of before has no tail for the first method. -/
theorem foldlM_capture_error (hne : l.captured ≠ []) (htail : l.prevTail = none) (hes : es ≠ []) :
    es.foldlM (capture mod) l = .error .nullTail := by
  obtain ⟨e, rest, rfl⟩ := List.exists_cons_of_ne_nil hes
  have hfirst : capture mod l e = .error .nullTail := by
    unfold capture
    dsimp only
    rw [if_neg hne, htail]
  rw [List.foldlM_cons, hfirst]
  rfl

end Chains

section Runs

variable {s : State} {c : Intercept} {as done : List Action} {a : Action}

theorem length_entries (c : Intercept) : c.entries.length < 2 ^ 31 := by
  rw [Intercept.entries, List.length_map, List.length_range]
  have hlt := BitVec.toInt_lt (x := c.nMethods)
  omega

theorem registered_concat (id : Nat) (as : List Action) (a : Action) :
    registered id (as ++ [a]) = registered id as ++ registered id [a] := List.flatMap_append

theorem registered_intercept (id : Nat) (c : Intercept) :
    registered id [.intercept c] = c.registered id := List.append_nil _

theorem sinceFree_intercept (as : List Action) (c : Intercept) :
    sinceFree (as ++ [.intercept c]) = sinceFree as ++ c.entries := by
  rw [sinceFree, List.foldl_append]
  rfl

theorem sinceFree_free (as : List Action) : sinceFree (as ++ [.free]) = [] := by
  rw [sinceFree, List.foldl_append]
  rfl

/-- What holds of the state behind calls that were safe. -/
structure Captured (as : List Action) (s : State) : Prop where
  given : s.captured.map MethodRecord.given = sinceFree as
  count : s.count.toInt = (sinceFree as).length
  grown : ∀ id, (s.tables id).Grown
  methods : ∀ id, (s.tables id).methods = registered id as

theorem Captured.right (h : Captured as s) (hrun : runCalls as = .ok s) : CaptureRight as :=
  ⟨s, hrun, h.given, h.count, fun id ↦ ⟨h.methods id, (h.grown id).count_le⟩⟩

theorem runCalls_concat (hrun : runCalls as = .ok s) : runCalls (as ++ [a]) = act s a := by
  rw [runCalls, List.foldlM_append, ← runCalls, hrun]
  show ([a].foldlM act s : Except Fault State) = _
  rw [List.foldlM_cons]
  cases act s a <;> rfl

theorem Intercept.registered_of_mod {mod : LoadedModule} (hmod : c.mod = some mod) :
    c.registered mod.id = c.entries.filterMap (registration mod) := by
  rw [Intercept.registered, hmod]
  exact if_pos rfl

/-- The tables behind the first loop of a call. -/
theorem registerAll_ok (h : Captured as s)
    (hle : ∀ mod, c.mod = some mod → (registered mod.id (as ++ [.intercept c])).length ≤ maxMethods) :
    ∃ tables, registerAll c s.tables = .ok tables ∧
      ∀ id, (tables id).Grown ∧ (tables id).methods = registered id (as ++ [.intercept c]) := by
  rw [registerAll]
  cases hmod : c.mod with
  | none =>
    refine ⟨s.tables, rfl, fun id ↦ ⟨h.grown id, ?_⟩⟩
    rw [h.methods, registered_concat, registered_intercept, Intercept.registered, hmod, List.append_nil]
  | some mod =>
    have hnew := Intercept.registered_of_mod hmod
    have hlength := hle mod hmod
    rw [registered_concat, registered_intercept, hnew, List.length_append, ← h.methods] at hlength
    obtain ⟨t, hloop, hgrown, hmethods⟩ := foldlM_register_ok (h.grown mod.id) hlength
    refine ⟨Function.update s.tables mod.id t, ?_, fun id ↦ ?_⟩
    · simp only
      rw [hloop]
      rfl
    · rw [registered_concat, registered_intercept]
      by_cases hid : id = mod.id
      · subst hid
        rw [Function.update_self, hmethods, h.methods, hnew]
        exact ⟨hgrown, rfl⟩
      · rw [Function.update_of_ne hid, h.methods, Intercept.registered, hmod]
        simp only
        rw [if_neg (Ne.symm hid), List.append_nil]
        exact ⟨h.grown id, rfl⟩

theorem registerAll_error (h : Captured as s) {mod : LoadedModule} (hmod : c.mod = some mod)
    (hlt : maxMethods < (registered mod.id (as ++ [.intercept c])).length) :
    ∃ f, registerAll c s.tables = .error f := by
  rw [registered_concat, registered_intercept, Intercept.registered_of_mod hmod, List.length_append,
    ← h.methods] at hlt
  obtain ⟨f, hloop⟩ := foldlM_register_error (h.grown mod.id) hlt
  refine ⟨f, ?_⟩
  rw [registerAll, hmod]
  simp only
  rw [hloop]
  rfl

theorem interceptRegisterNatives_eq {tables : Nat → NativeTable} (h : registerAll c s.tables = .ok tables) :
    interceptRegisterNatives s c =
      (c.entries.foldlM (capture c.mod) ⟨s.captured, s.count, none⟩).map fun l ↦
        ⟨l.captured, l.count, tables⟩ := by
  rw [interceptRegisterNatives, h]
  show (c.entries.foldlM (capture c.mod) ⟨s.captured, s.count, none⟩).bind _ = _
  cases c.entries.foldlM (capture c.mod) ⟨s.captured, s.count, none⟩ <;> rfl

/-- The list behind the second loop of a call. -/
theorem captureAll_ok (h : Captured as s) (hlist : c.entries = [] ∨ sinceFree as = []) :
    ∃ l : Chain, c.entries.foldlM (capture c.mod) ⟨s.captured, s.count, none⟩ = .ok l ∧
      l.captured.map MethodRecord.given = sinceFree as ++ c.entries ∧
      l.count.toInt = (sinceFree as ++ c.entries).length := by
  by_cases hnone : c.entries = []
  · rw [hnone, List.append_nil]
    exact ⟨_, rfl, h.given, h.count⟩
  · have hsince := hlist.resolve_left hnone
    have hempty : s.captured = [] := List.map_eq_nil_iff.mp (h.given.trans hsince)
    have hzero : s.count = 0 := by
      apply BitVec.eq_of_toInt_eq
      rw [h.count, hsince]
      rfl
    have hbegin : (⟨s.captured, s.count, none⟩ : Chain).captured = [] := hempty
    obtain ⟨l, hloop, hgiven, hcount⟩ := foldlM_capture_ok c.mod c.entries (.inl hbegin)
    refine ⟨l, hloop, ?_, ?_⟩
    · rw [hgiven, h.given]
    · have hlt := length_entries c
      rw [hcount, hzero, hsince, List.nil_append]
      have hsmall : (0 : BitVec 32) + BitVec.ofNat 32 c.entries.length = BitVec.ofNat 32 c.entries.length :=
        BitVec.zero_add _
      rw [hsmall, BitVec.toInt_ofNat', Int.bmod_eq_of_le (by omega) (by omega)]

/-- A safe call leaves the state as it has to be. -/
theorem Captured.step (h : Captured as s) (hsafe : CallSafe as a) :
    ∃ s', act s a = .ok s' ∧ Captured (as ++ [a]) s' := by
  cases a with
  | free =>
    refine ⟨freeCapturedMethods s, rfl, ?_, ?_, h.grown, fun id ↦ ?_⟩
    · rw [sinceFree_free]
      rfl
    · rw [sinceFree_free]
      rfl
    · rw [registered_concat]
      exact (h.methods id).trans (List.append_nil _).symm
  | intercept c =>
    obtain ⟨hlist, hroom⟩ := hsafe
    obtain ⟨tables, htables, hkept⟩ := registerAll_ok h hroom
    obtain ⟨l, hloop, hgiven, hcount⟩ := captureAll_ok h hlist
    refine ⟨⟨l.captured, l.count, tables⟩, ?_, ?_, ?_, fun id ↦ (hkept id).1, fun id ↦ (hkept id).2⟩
    · rw [act, interceptRegisterNatives_eq htables, hloop]
      rfl
    · rw [sinceFree_intercept]
      exact hgiven
    · rw [sinceFree_intercept]
      exact hcount

/-- A call that is not safe has no defined end. -/
theorem Captured.act_error (h : Captured as s) (hnot : ¬ CallSafe as a) : ∃ f, act s a = .error f := by
  cases a with
  | free => exact absurd trivial hnot
  | intercept c =>
    by_cases hroom : ∀ mod, c.mod = some mod →
        (registered mod.id (as ++ [.intercept c])).length ≤ maxMethods
    · obtain ⟨tables, htables, -⟩ := registerAll_ok h hroom
      have hboth : c.entries ≠ [] ∧ sinceFree as ≠ [] := by
        rw [← not_or]
        exact fun hlist ↦ hnot ⟨hlist, hroom⟩
      have hused : s.captured ≠ [] := by
        intro hempty
        apply hboth.2
        rw [← h.given, hempty]
        rfl
      refine ⟨.nullTail, ?_⟩
      rw [act, interceptRegisterNatives_eq htables, foldlM_capture_error hused rfl hboth.1]
      rfl
    · push Not at hroom
      obtain ⟨mod, hmod, hlt⟩ := hroom
      obtain ⟨f, htables⟩ := registerAll_error h hmod hlt
      refine ⟨f, ?_⟩
      rw [act, interceptRegisterNatives, htables]
      rfl

theorem captured_start : Captured [] start :=
  ⟨rfl, rfl, fun _ ↦ ⟨Nat.le_refl _, .inl rfl⟩, fun _ ↦ rfl⟩

/-- A method that is registered from outside of any module. -/
def oneMethod : Action := .intercept ⟨none, fun _ ↦ ⟨none, none, 1⟩, 1⟩

end Runs

end Arm2x86.Jni
