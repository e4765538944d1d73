import Mathlib.Data.List.Induction
import Arm2x86.Jni.Reflection

/-!
# Which method is called

An ID is taken from the cache of a class when it is equal to the hash of the name of the method. The one
that is called is that of the method where no such ID has come from another one, and where the class of
the entry was not found for a longer name.
-/

namespace Arm2x86.Jni

/-- What happens in a call behind others. -/
def trace (done : List ReflectCall) (c : ReflectCall) : Trace := (reflectAndCall (runReflect done) c).2

/-- `FindClass` has returned a class for a name. -/
def Found (cs : List ReflectCall) (className : Option (List Byte)) (classObject : Addr) : Prop :=
  ∃ done c, done ++ [c] <+: cs ∧ c.className = className ∧ (trace done c).found = some classObject

/-- An ID has been returned for the class, the name, the signature and the flag of a call. -/
def Returned (cs : List ReflectCall) (c : ReflectCall) (id : Addr) : Prop :=
  ∃ classObject, Found cs c.className classObject ∧
    ∃ done d, done ++ [d] <+: cs ∧ d.methodName = c.methodName ∧ d.signature = c.signature ∧
      d.isStatic = c.isStatic ∧ (trace done d).got = some (classObject, id)

/-- The method that is called, if any, is the one that was asked for. -/
def CallRight (done : List ReflectCall) (c : ReflectCall) : Prop :=
  ∀ function id, (trace done c).called = some (function, id) → Returned (done ++ [c]) c id

/-- A call has what it needs to call a method once it has an ID. -/
def Completes (c : ReflectCall) : Prop :=
  c.jniEnv ≠ 0 ∧ ∃ functions m, c.functions = some functions ∧ c.parsed = some (some m) ∧
    functions (callIdx c.isStatic m.returnType) = true

/-- A call would get an ID if it asked for it. -/
def Answered (c : ReflectCall) : Prop :=
  c.getMethodId ≠ 0 ∧ ∃ functions, c.functions = some functions ∧ functions (getIdIdx c.isStatic) = true

/-- An ID is cached that is equal to the hash of a name. -/
def Hits (e : CacheEntry) (methodName : List Byte) : Prop := hashId methodName ≠ 0 ∧ hashId methodName ∈ e.ids

/-- The entry for the class of a call, which is there already, leads to the method: an ID that is equal to
the hash of its name was returned for it, and without one the class was found for its name. -/
structure EntrySafe (done : List ReflectCall) (c : ReflectCall) (methodName : List Byte) (e : CacheEntry) :
    Prop where
  cached : Hits e methodName → Returned done c (hashId methodName)
  asked : ¬ Hits e methodName → Answered c → e.classObject = 0 ∨ Found done c.className e.classObject

/-- A call that is completed finds such an entry, or none. -/
def ReflectSafe (done : List ReflectCall) (c : ReflectCall) : Prop :=
  Completes c → ∀ className methodName i e, c.className = some className → c.methodName = some methodName →
    lookupClass (runReflect done) className = some i → (runReflect done).entries[i]? = some e →
      EntrySafe done c methodName e

section Entry

variable {functions : Nat → Bool} {c : ReflectCall} {methodName : List Byte} {e e' : CacheEntry} {t t' : Trace}

theorem cachedId_eq (e : CacheEntry) (methodName : List Byte) :
    cachedId e methodName = if hashId methodName ∈ e.ids then hashId methodName else 0 := by
  rw [cachedId]
  split
  · next hmem =>
    cases hfind : e.ids.find? fun id ↦ id = hashId methodName with
    | none => exact absurd (List.find?_eq_none.mp hfind _ hmem) (by simp)
    | some id => simpa using List.find?_some hfind
  · next hno =>
    have hnone : e.ids.find? (fun id ↦ id = hashId methodName) = none := by
      rw [List.find?_eq_none]
      intro id hid heq
      exact hno (of_decide_eq_true heq ▸ hid)
    rw [hnone]
    rfl

@[simp] theorem className_cache (e : CacheEntry) (id : Addr) (malloc : Bool) :
    (e.cache id malloc).className = e.className := by
  unfold CacheEntry.cache
  split <;> split <;> rfl

@[simp] theorem classObject_cache (e : CacheEntry) (id : Addr) (malloc : Bool) :
    (e.cache id malloc).classObject = e.classObject := by
  unfold CacheEntry.cache
  split <;> split <;> rfl

theorem cachedId_of_hits (h : Hits e methodName) : cachedId e methodName = hashId methodName := by
  rw [cachedId_eq, if_pos h.2]

theorem cachedId_eq_zero (h : ¬ Hits e methodName) : cachedId e methodName = 0 := by
  rw [cachedId_eq]
  split
  · next hmem =>
    by_contra hne
    exact h ⟨hne, hmem⟩
  · rfl

theorem callMethod_some (functions : Nat → Bool) (isStatic : Bool) (m : MethodSignature) (id : Addr) (t : Trace)
    (h : functions (callIdx isStatic m.returnType) = true) :
    callMethod functions isStatic (some m) id t =
      { t with called := some (callIdx isStatic m.returnType, id), result := 0 } := if_pos h

/-- The end of a call with an ID has called its method, or nothing. -/
theorem callMethod_cases (functions : Nat → Bool) (isStatic : Bool) (parsed : Option MethodSignature) (id : Addr)
    (t : Trace) :
    (∃ m, parsed = some m ∧ functions (callIdx isStatic m.returnType) = true ∧
      callMethod functions isStatic parsed id t =
        { t with called := some (callIdx isStatic m.returnType, id), result := 0 }) ∨
      ∃ r, callMethod functions isStatic parsed id t = { t with result := r } := by
  cases parsed with
  | none => exact .inr ⟨0, rfl⟩
  | some m =>
    by_cases h : functions (callIdx isStatic m.returnType) = true
    · exact .inl ⟨m, rfl, h, callMethod_some functions isStatic m id t h⟩
    · exact .inr ⟨t.result, if_neg h⟩

/-- What is done behind `FindClass`: a cached ID is used, an ID is asked for, or neither. -/
inductive Chosen (functions : Nat → Bool) (c : ReflectCall) (methodName : List Byte) (e : CacheEntry) (t : Trace) :
    CacheEntry × Trace → Prop where
  | neither (got : t.got = none) : Chosen functions c methodName e t (e, t)
  | cached {parsed : Option MethodSignature} (hits : Hits e methodName) (eq : c.parsed = some parsed) :
      Chosen functions c methodName e t
        (e, callMethod functions c.isStatic parsed (hashId methodName) t)
  | refused (misses : ¬ Hits e methodName) (null : c.getMethodId = 0) :
      Chosen functions c methodName e t (e, { t with got := some (e.classObject, 0) })
  | asked {parsed : Option MethodSignature} (misses : ¬ Hits e methodName) (eq : c.parsed = some parsed)
      (present : functions (getIdIdx c.isStatic) = true) (ne : c.getMethodId ≠ 0) :
      Chosen functions c methodName e t
        (e.cache c.getMethodId c.malloc,
          callMethod functions c.isStatic parsed c.getMethodId
            { t with got := some (e.classObject, c.getMethodId) })

theorem chosen_withClass (functions : Nat → Bool) (c : ReflectCall) (methodName : List Byte) (e : CacheEntry)
    (t : Trace) (ht : t.got = none) : Chosen functions c methodName e t (withClass functions c methodName e t) := by
  unfold withClass
  split
  · exact .neither ht
  · next parsed hparsed =>
    by_cases hhits : Hits e methodName
    · rw [cachedId_of_hits hhits, if_pos hhits.1]
      exact .cached hhits hparsed
    · rw [cachedId_eq_zero hhits, if_neg (fun h ↦ h rfl)]
      split
      · next hpresent =>
        dsimp only
        split
        · next hnull =>
          rw [hnull]
          exact .refused hhits hnull
        · next hne => exact .asked hhits hparsed hpresent hne
      · exact .neither ht

variable {r : CacheEntry × Trace}

theorem Chosen.className_eq (h : Chosen functions c methodName e t r) : r.1.className = e.className := by
  cases h <;> simp

theorem Chosen.classObject_eq (h : Chosen functions c methodName e t r) : r.1.classObject = e.classObject := by
  cases h <;> simp

theorem callMethod_found (functions : Nat → Bool) (isStatic : Bool) (parsed : Option MethodSignature) (id : Addr)
    (t : Trace) : (callMethod functions isStatic parsed id t).found = t.found := by
  rcases callMethod_cases functions isStatic parsed id t with ⟨m, -, -, h⟩ | ⟨r, h⟩ <;> rw [h]

theorem callMethod_got (functions : Nat → Bool) (isStatic : Bool) (parsed : Option MethodSignature) (id : Addr)
    (t : Trace) : (callMethod functions isStatic parsed id t).got = t.got := by
  rcases callMethod_cases functions isStatic parsed id t with ⟨m, -, -, h⟩ | ⟨r, h⟩ <;> rw [h]

theorem Chosen.found_eq (h : Chosen functions c methodName e t r) : r.2.found = t.found := by
  cases h <;> simp [callMethod_found]

theorem Chosen.got_eq (h : Chosen functions c methodName e t r) (ht : t.got = none) {o id : Addr}
    (hgot : r.2.got = some (o, id)) : o = e.classObject := by
  cases h with
  | neither => rw [ht] at hgot; cases hgot
  | cached => rw [callMethod_got, ht] at hgot; cases hgot
  | refused => cases hgot; rfl
  | asked => rw [callMethod_got] at hgot; cases hgot; rfl

/-- A method is called with a cached ID or with the one that was asked for. -/
theorem Chosen.called (h : Chosen functions c methodName e t r) (ht : t.called = none) {f : Nat} {id : Addr}
    (hcalled : r.2.called = some (f, id)) :
    (∃ m, c.parsed = some (some m) ∧ functions (callIdx c.isStatic m.returnType) = true) ∧
      (Hits e methodName ∧ id = hashId methodName ∧ r.2.got = t.got ∨
        ¬ Hits e methodName ∧ functions (getIdIdx c.isStatic) = true ∧ c.getMethodId ≠ 0 ∧
          r.2.got = some (e.classObject, id)) := by
  cases h with
  | neither => rw [ht] at hcalled; cases hcalled
  | @cached parsed hits eq =>
    rcases callMethod_cases functions c.isStatic parsed (hashId methodName) t with ⟨m, rfl, hf, h⟩ | ⟨r, h⟩
    · rw [h] at hcalled
      cases hcalled
      exact ⟨⟨m, eq, hf⟩, .inl ⟨hits, rfl, callMethod_got ..⟩⟩
    · rw [h] at hcalled
      rw [ht] at hcalled
      cases hcalled
  | refused => rw [ht] at hcalled; cases hcalled
  | @asked parsed misses eq present ne =>
    rcases callMethod_cases functions c.isStatic parsed c.getMethodId
      { t with got := some (e.classObject, c.getMethodId) } with ⟨m, rfl, hf, h⟩ | ⟨r, h⟩
    · rw [h] at hcalled
      cases hcalled
      exact ⟨⟨m, eq, hf⟩, .inr ⟨misses, present, ne, callMethod_got ..⟩⟩
    · rw [h] at hcalled
      rw [ht] at hcalled
      cases hcalled

theorem called_of_hits {m : MethodSignature} (hhits : Hits e methodName) (hparsed : c.parsed = some (some m))
    (hf : functions (callIdx c.isStatic m.returnType) = true) :
    (withClass functions c methodName e t).2.called =
      some (callIdx c.isStatic m.returnType, hashId methodName) := by
  rw [withClass, hparsed]
  simp only
  rw [cachedId_of_hits hhits, if_pos hhits.1, callMethod_some _ _ _ _ _ hf]

theorem called_of_misses {m : MethodSignature} (hmisses : ¬ Hits e methodName) (hparsed : c.parsed = some (some m))
    (hf : functions (callIdx c.isStatic m.returnType) = true) (hget : functions (getIdIdx c.isStatic) = true)
    (hne : c.getMethodId ≠ 0) :
    (withClass functions c methodName e t).2.called =
      some (callIdx c.isStatic m.returnType, c.getMethodId) := by
  rw [withClass, hparsed]
  simp only
  rw [cachedId_eq_zero hmisses, if_neg (fun h ↦ h rfl), if_pos hget]
  rw [if_neg hne, callMethod_some _ _ _ _ _ hf]

theorem useEntry_of_class (h : e.classObject ≠ 0) :
    useEntry functions c methodName e = withClass functions c methodName e Trace.failed := if_neg h

/-- What is done with an entry: its class is used, is not found, or is found and used. -/
inductive Used (functions : Nat → Bool) (c : ReflectCall) (methodName : List Byte) (e : CacheEntry) :
    CacheEntry × Trace → Prop where
  | known {r : CacheEntry × Trace} (ne : e.classObject ≠ 0)
      (chosen : Chosen functions c methodName e Trace.failed r) : Used functions c methodName e r
  | unknown {found : Option Addr} (eq : e.classObject = 0) (null : ∀ o ∈ found, o = 0) :
      Used functions c methodName e (e, { Trace.failed with found })
  | found {r : CacheEntry × Trace} (eq : e.classObject = 0) (ne : c.findClass ≠ 0)
      (chosen : Chosen functions c methodName { e with classObject := c.findClass }
        { Trace.failed with found := some c.findClass } r) : Used functions c methodName e r

theorem used_useEntry (functions : Nat → Bool) (c : ReflectCall) (methodName : List Byte) (e : CacheEntry) :
    Used functions c methodName e (useEntry functions c methodName e) := by
  unfold useEntry
  split
  · next hzero =>
    split
    · dsimp only
      split
      · next hnull =>
        refine .unknown hzero ?_
        rintro o ho
        rw [← Option.mem_some.mp ho]
        exact hnull
      · next hne => exact .found hzero hne (chosen_withClass _ _ _ _ _ rfl)
    · exact @Used.unknown _ _ _ _ none hzero fun o ho ↦ by cases ho
  · next hne => exact .known hne (chosen_withClass _ _ _ _ _ rfl)

theorem Used.className_eq (h : Used functions c methodName e r) : r.1.className = e.className := by
  cases h with
  | known _ chosen => exact chosen.className_eq
  | unknown => rfl
  | found _ _ chosen => exact chosen.className_eq

/-- A class stays that of its entry. -/
theorem Used.classObject_eq (h : Used functions c methodName e r) (hne : e.classObject ≠ 0) :
    r.1.classObject = e.classObject ∧ r.2.found = none := by
  cases h with
  | known _ chosen => exact ⟨chosen.classObject_eq, chosen.found_eq⟩
  | unknown eq => exact absurd eq hne
  | found eq => exact absurd eq hne

/-- A class that is found becomes that of the entry. -/
theorem Used.found_eq (h : Used functions c methodName e r) {o : Addr} (hfound : r.2.found = some o)
    (ho : o ≠ 0) : e.classObject = 0 ∧ r.1.classObject = o := by
  cases h with
  | known _ chosen => rw [chosen.found_eq] at hfound; cases hfound
  | unknown _ null => exact absurd (null o hfound) ho
  | found eq _ chosen =>
    rw [chosen.found_eq] at hfound
    cases hfound
    exact ⟨eq, chosen.classObject_eq⟩

/-- The class that is asked for a method is that of the entry, perhaps one that has just been found. -/
theorem Used.got_eq (h : Used functions c methodName e r) {o id : Addr} (hgot : r.2.got = some (o, id)) :
    o ≠ 0 ∧ (o = e.classObject ∨ r.2.found = some o) := by
  cases h with
  | known ne chosen =>
    obtain rfl := chosen.got_eq rfl hgot
    exact ⟨ne, .inl rfl⟩
  | unknown => cases hgot
  | found _ ne chosen =>
    obtain rfl := chosen.got_eq rfl hgot
    exact ⟨ne, .inr chosen.found_eq⟩

/-- Entries without a class have no IDs. -/
def Unused (e : CacheEntry) : Prop := e.classObject = 0 → e.ids = []

theorem Used.unused (h : Used functions c methodName e r) (he : Unused e) : Unused r.1 := by
  cases h with
  | known ne chosen =>
    intro hzero
    rw [chosen.classObject_eq] at hzero
    exact absurd hzero ne
  | unknown => exact he
  | found _ ne chosen =>
    intro hzero
    rw [chosen.classObject_eq] at hzero
    exact absurd hzero ne

theorem Used.called (h : Used functions c methodName e r) (he : Unused e) {f : Nat} {id : Addr}
    (hcalled : r.2.called = some (f, id)) :
    (∃ m, c.parsed = some (some m) ∧ functions (callIdx c.isStatic m.returnType) = true) ∧
      (Hits e methodName ∧ id = hashId methodName ∨
        ¬ Hits e methodName ∧ functions (getIdIdx c.isStatic) = true ∧ c.getMethodId ≠ 0 ∧
          ∃ o, r.2.got = some (o, id) ∧ (o = e.classObject ∨ r.2.found = some o)) := by
  cases h with
  | known ne chosen =>
    obtain ⟨hcomplete, ⟨hhits, hid, -⟩ | ⟨hmisses, hget, hne, hgot⟩⟩ := chosen.called rfl hcalled
    · exact ⟨hcomplete, .inl ⟨hhits, hid⟩⟩
    · exact ⟨hcomplete, .inr ⟨hmisses, hget, hne, e.classObject, hgot, .inl rfl⟩⟩
  | unknown => cases hcalled
  | found eq ne chosen =>
    have hno : ∀ o : Addr, ¬ Hits { e with classObject := o } methodName := by
      intro o hhits
      have hmem : hashId methodName ∈ e.ids := hhits.2
      rw [he eq] at hmem
      exact absurd hmem List.not_mem_nil
    obtain ⟨hcomplete, ⟨hhits, -, -⟩ | ⟨-, hget, hne, hgot⟩⟩ := chosen.called rfl hcalled
    · exact absurd hhits (hno _)
    · exact ⟨hcomplete, .inr ⟨hno e.classObject, hget, hne, c.findClass, hgot, .inr chosen.found_eq⟩⟩

end Entry

section Step

variable {s : ReflectionCache} {c : ReflectCall} {className : List Byte} {i : Nat} {entries : List CacheEntry}

/-- The place of the entry for a class, with the entries: one that is there already, or a new one. -/
inductive Placed (s : ReflectionCache) (className : List Byte) : Nat → List CacheEntry → Prop where
  | known {i : Nat} (eq : lookupClass s className = some i) : Placed s className i s.entries
  | added (eq : lookupClass s className = none) :
      Placed s className s.entries.length
        (s.entries ++ [{ CacheEntry.zero with className := className.take 511 }])

/-- What a call does with the cache. -/
inductive Reflected (s : ReflectionCache) (c : ReflectCall) : ReflectionCache × Trace → Prop where
  | unchanged {s' : ReflectionCache} (entries : s'.entries = s.entries)
      (allocated : s'.allocated = false → s.allocated = false) : Reflected s c (s', Trace.failed)
  | placed {s' : ReflectionCache} {className : List Byte} {i : Nat} (allocated : s'.allocated = true)
      (at_place : Placed s className i s'.entries) : Reflected s c (s', Trace.failed)
  | used {s' : ReflectionCache} {className methodName : List Byte} {i : Nat} {entries : List CacheEntry}
      {functions : Nat → Bool} {e : CacheEntry} {r : CacheEntry × Trace} (class_eq : c.className = some className)
      (method_eq : c.methodName = some methodName) (env : c.jniEnv ≠ 0) (functions_eq : c.functions = some functions)
      (at_place : Placed s className i entries) (at_index : entries[i]? = some e)
      (used : Used functions c methodName e r) (allocated : s'.allocated = true)
      (stored : s'.entries = entries.set i r.1) : Reflected s c (s', r.2)

theorem initReflection_some {s' : ReflectionCache} {calloc : Bool} (hs : s.allocated = false → s.entries = [])
    (h : initReflection s calloc = some s') : s'.entries = s.entries ∧ s'.allocated = true := by
  unfold initReflection at h
  split at h
  · next hallocated =>
    cases h
    exact ⟨rfl, hallocated⟩
  · next hnot =>
    split at h
    · cases h
      exact ⟨(hs (Bool.eq_false_iff.mpr hnot)).symm, rfl⟩
    · cases h

theorem findReflectionCache_some {s' : ReflectionCache} {realloc : Bool}
    (h : findReflectionCache s className realloc = some (i, s')) :
    Placed s className i s'.entries ∧ s'.allocated = s.allocated := by
  unfold findReflectionCache at h
  split at h
  · next j hj =>
    cases h
    exact ⟨.known hj, rfl⟩
  · next hnone =>
    dsimp only at h
    split at h
    · split at h
      · cases h
        exact ⟨.added hnone, rfl⟩
      · cases h
    · cases h
      exact ⟨.added hnone, rfl⟩

theorem Placed.lt_length (h : Placed s className i entries) : i < entries.length := by
  cases h with
  | known eq => exact (List.findIdx?_eq_some_iff_getElem.mp eq).1
  | added => simp

theorem Placed.of_entries {s' : ReflectionCache} (h : Placed s' className i entries)
    (heq : s'.entries = s.entries) : Placed s className i entries := by
  obtain ⟨allocated, _, max⟩ := s'
  obtain rfl : _ = s.entries := heq
  cases h with
  | known eq => exact .known eq
  | added eq => exact .added eq

theorem reflected_reflectAndCall (hs : s.allocated = false → s.entries = []) :
    Reflected s c (reflectAndCall s c) := by
  unfold reflectAndCall
  split
  · next className methodName hclass hmethod =>
    split
    · exact .unchanged rfl id
    · next henv =>
      split
      · exact .unchanged rfl id
      · next s₁ hinit =>
        obtain ⟨hentries, hallocated⟩ := initReflection_some hs hinit
        split
        · refine .unchanged hentries fun h ↦ ?_
          rw [hallocated] at h
          cases h
        · next i s₂ hfind =>
          obtain ⟨hplaced, halloc⟩ := findReflectionCache_some hfind
          have hplaced' : Placed s className i s₂.entries := hplaced.of_entries hentries
          split
          · exact .placed (halloc.trans hallocated) hplaced'
          · next functions hfunctions =>
            have hget : s₂.entries[i]? = some (s₂.entries.getD i .zero) := by
              rw [List.getD_eq_getElem?_getD, List.getElem?_eq_getElem hplaced.lt_length, Option.getD_some]
            exact .used hclass hmethod henv hfunctions hplaced' hget (used_useEntry ..) (halloc.trans hallocated)
              rfl
  · exact .unchanged rfl id

/-- The entries of before stay where they are. -/
theorem Placed.old (h : Placed s className i entries) {j : Nat} {e : CacheEntry} (hj : s.entries[j]? = some e) :
    entries[j]? = some e := by
  cases h with
  | known => exact hj
  | added => rw [List.getElem?_append_left (List.getElem?_eq_some_iff.mp hj).1, hj]

/-- An entry that was not there before has no class. -/
theorem Placed.entry (h : Placed s className i entries) {e : CacheEntry} (he : entries[i]? = some e) :
    lookupClass s className = some i ∧ s.entries[i]? = some e ∨ e.classObject = 0 ∧ e.ids = [] := by
  cases h with
  | known eq => exact .inl ⟨eq, he⟩
  | added =>
    rw [List.getElem?_concat_length, Option.some_inj] at he
    rw [← he]
    exact .inr ⟨rfl, rfl⟩

/-- The entries are those of before and perhaps a new one. -/
theorem Placed.mem (h : Placed s className i entries) {e : CacheEntry} (he : e ∈ entries) :
    e ∈ s.entries ∨ e.className.length ≤ 511 ∧ e.classObject = 0 ∧ e.ids = [] := by
  cases h with
  | known => exact .inl he
  | added =>
    rcases List.mem_append.mp he with hold | hnew
    · exact .inl hold
    · rw [List.mem_singleton.mp hnew]
      refine .inr ⟨?_, rfl, rfl⟩
      exact List.length_take_le _ _

/-- The index of the entry for a class, among some entries. -/
def classIdx (entries : List CacheEntry) (name : List Byte) : Option Nat :=
  entries.findIdx? fun e ↦ e.className = name

/-- The index of an entry that was there already is what it was. -/
theorem Placed.classIdx_old (h : Placed s className i entries) {name : List Byte} {j : Nat}
    (hj : lookupClass s name = some j) : classIdx entries name = some j := by
  cases h with
  | known => exact hj
  | added =>
    rw [classIdx, List.findIdx?_append]
    rw [lookupClass] at hj
    rw [hj]
    rfl

/-- The entry for a class that is short enough is where it has been placed. -/
theorem Placed.classIdx_self (h : Placed s className i entries) (hshort : className.length ≤ 511) :
    classIdx entries className = some i := by
  cases h with
  | known eq => exact eq
  | added eq =>
    rw [lookupClass] at eq
    rw [classIdx, List.findIdx?_append, eq, List.take_of_length_le hshort]
    simp

/-- An entry that keeps its name is found where it was. -/
theorem classIdx_set {e e' : CacheEntry} (hget : entries[i]? = some e) (hname : e'.className = e.className)
    (name : List Byte) : classIdx (entries.set i e') name = classIdx entries name := by
  have hmap : ∀ l : List CacheEntry, classIdx l name =
      (l.map CacheEntry.className).findIdx? fun n ↦ n = name := fun l ↦ by rw [List.findIdx?_map]; rfl
  obtain ⟨hlt, rfl⟩ := List.getElem?_eq_some_iff.mp hget
  have hsame : (entries.map CacheEntry.className).set i e'.className = entries.map CacheEntry.className := by
    have hbound : i < (entries.map CacheEntry.className).length := by simpa using hlt
    have hat : e'.className = (entries.map CacheEntry.className)[i] := by
      rw [List.getElem_map, hname]
    rw [hat, List.set_getElem_self]
  rw [hmap, hmap, List.map_set, hsame]

end Step

section Runs

variable {done cs : List ReflectCall} {c d : ReflectCall} {className : Option (List Byte)} {o id : Addr}

theorem runReflect_concat : runReflect (done ++ [c]) = (reflectAndCall (runReflect done) c).1 := by
  rw [runReflect, List.foldl_append]
  rfl

/-- The calls of a history that goes on are those of before and the new one. -/
theorem concat_prefix_concat {d : ReflectCall} {before : List ReflectCall} :
    before ++ [d] <+: done ++ [c] ↔ before = done ∧ d = c ∨ before ++ [d] <+: done := by
  rw [List.prefix_concat_iff]
  constructor
  · rintro (heq | hold)
    · exact .inl (by simpa using List.append_inj' heq rfl)
    · exact .inr hold
  · rintro (⟨rfl, rfl⟩ | hold)
    · exact .inl rfl
    · exact .inr hold

theorem found_concat : Found (done ++ [c]) className o ↔
    c.className = className ∧ (trace done c).found = some o ∨ Found done className o := by
  constructor
  · rintro ⟨before, d, hprefix, hclass, hfound⟩
    rcases concat_prefix_concat.mp hprefix with ⟨rfl, rfl⟩ | hold
    · exact .inl ⟨hclass, hfound⟩
    · exact .inr ⟨before, d, hold, hclass, hfound⟩
  · rintro (⟨hclass, hfound⟩ | ⟨before, d, hold, hclass, hfound⟩)
    · exact ⟨done, c, List.prefix_rfl, hclass, hfound⟩
    · exact ⟨before, d, concat_prefix_concat.mpr (.inr hold), hclass, hfound⟩

/-- What holds of the cache behind any calls. -/
structure CacheKept (cs : List ReflectCall) : Prop where
  allocated : (runReflect cs).allocated = false → (runReflect cs).entries = []
  short : ∀ e ∈ (runReflect cs).entries, e.className.length ≤ 511
  unused : ∀ e ∈ (runReflect cs).entries, Unused e
  found : ∀ name o, Found cs (some name) o → o ≠ 0 → name.length ≤ 511 →
    ∃ i e, lookupClass (runReflect cs) name = some i ∧ (runReflect cs).entries[i]? = some e ∧ e.classObject = o
  got : ∀ done d o id, done ++ [d] <+: cs → (trace done d).got = some (o, id) → o ≠ 0

/-- What a call leaves of entries: their names are short, and those without a class have no IDs. -/
theorem Reflected.mem {s : ReflectionCache} {r : ReflectionCache × Trace} (h : Reflected s c r)
    (hshort : ∀ e ∈ s.entries, e.className.length ≤ 511) (hunused : ∀ e ∈ s.entries, Unused e) {e : CacheEntry}
    (he : e ∈ r.1.entries) : e.className.length ≤ 511 ∧ Unused e := by
  have hplaced : ∀ {name i entries}, Placed s name i entries → ∀ e ∈ entries, e.className.length ≤ 511 ∧ Unused e := by
    intro name i entries hp e he
    rcases hp.mem he with hold | ⟨hlength, -, hids⟩
    · exact ⟨hshort e hold, hunused e hold⟩
    · exact ⟨hlength, fun _ ↦ hids⟩
  cases h with
  | unchanged entries =>
    rw [entries] at he
    exact ⟨hshort e he, hunused e he⟩
  | placed _ at_place => exact hplaced at_place e he
  | @used s' name methodName i entries functions e₀ r _ _ _ _ at_place at_index used _ stored =>
    rw [stored] at he
    rcases List.mem_or_eq_of_mem_set he with hold | rfl
    · exact hplaced at_place e hold
    · obtain ⟨hlength, hno⟩ := hplaced at_place e₀ (List.mem_of_getElem? at_index)
      exact ⟨by rw [used.className_eq]; exact hlength, used.unused hno⟩

/-- The class of an entry is found again behind a call. -/
theorem Reflected.keeps {s : ReflectionCache} {r : ReflectionCache × Trace} (h : Reflected s c r)
    {name : List Byte} {j : Nat} {e : CacheEntry} (hj : lookupClass s name = some j) (he : s.entries[j]? = some e)
    (hne : e.classObject ≠ 0) :
    ∃ e', lookupClass r.1 name = some j ∧ r.1.entries[j]? = some e' ∧ e'.classObject = e.classObject := by
  cases h with
  | unchanged entries =>
    refine ⟨e, ?_, ?_, rfl⟩
    · rw [lookupClass, entries]
      exact hj
    · rw [entries]
      exact he
  | placed _ at_place => exact ⟨e, at_place.classIdx_old hj, at_place.old he, rfl⟩
  | @used s' name' methodName i entries functions e₀ r _ _ _ _ at_place at_index used _ stored =>
    have hidx : lookupClass s' name = some j := by
      rw [lookupClass, stored]
      exact (classIdx_set at_index used.className_eq name).trans (at_place.classIdx_old hj)
    have hold := at_place.old he
    by_cases hij : i = j
    · subst hij
      obtain rfl : e₀ = e := Option.some_inj.mp (at_index.symm.trans hold)
      refine ⟨r.1, hidx, ?_, (used.classObject_eq hne).1⟩
      rw [stored, List.getElem?_set_self (List.getElem?_eq_some_iff.mp at_index).1]
    · refine ⟨e, hidx, ?_, rfl⟩
      rw [stored, List.getElem?_set_ne hij]
      exact hold

/-- A class that has been found is that of the entry for its name, if that is short. -/
theorem Reflected.found {s : ReflectionCache} {r : ReflectionCache × Trace} (h : Reflected s c r) {name : List Byte}
    (hname : c.className = some name) (hshort : name.length ≤ 511) (hfound : r.2.found = some o) (ho : o ≠ 0) :
    ∃ i e, lookupClass r.1 name = some i ∧ r.1.entries[i]? = some e ∧ e.classObject = o := by
  cases h with
  | unchanged => cases hfound
  | placed => cases hfound
  | @used s' name' methodName i entries functions e₀ r class_eq _ _ _ at_place at_index used _ stored =>
    obtain rfl : name' = name := Option.some_inj.mp (class_eq.symm.trans hname)
    refine ⟨i, r.1, ?_, ?_, (used.found_eq hfound ho).2⟩
    · rw [lookupClass, stored]
      exact (classIdx_set at_index used.className_eq name').trans (at_place.classIdx_self hshort)
    · rw [stored, List.getElem?_set_self (List.getElem?_eq_some_iff.mp at_index).1]

theorem Reflected.got {s : ReflectionCache} {r : ReflectionCache × Trace} (h : Reflected s c r)
    (hgot : r.2.got = some (o, id)) : o ≠ 0 := by
  cases h with
  | unchanged => cases hgot
  | placed => cases hgot
  | used _ _ _ _ _ _ used => exact (used.got_eq hgot).1

theorem Reflected.allocated {s : ReflectionCache} {r : ReflectionCache × Trace} (h : Reflected s c r)
    (hs : s.allocated = false → s.entries = []) (hnot : r.1.allocated = false) : r.1.entries = [] := by
  cases h with
  | unchanged entries allocated =>
    rw [entries]
    exact hs (allocated hnot)
  | placed allocated => rw [allocated] at hnot; cases hnot
  | used _ _ _ _ _ _ _ allocated => rw [allocated] at hnot; cases hnot

theorem CacheKept.reflected (h : CacheKept done) (c : ReflectCall) :
    Reflected (runReflect done) c (runReflect (done ++ [c]), trace done c) := by
  rw [runReflect_concat]
  exact reflected_reflectAndCall h.allocated

theorem CacheKept.concat (h : CacheKept done) (c : ReflectCall) : CacheKept (done ++ [c]) := by
  have hr := h.reflected c
  refine ⟨hr.allocated h.allocated, ?_, ?_, ?_, ?_⟩
  · exact fun e he ↦ (hr.mem h.short h.unused he).1
  · exact fun e he ↦ (hr.mem h.short h.unused he).2
  · intro name o hfound ho hshort
    rcases found_concat.mp hfound with ⟨hname, hnew⟩ | hold
    · exact hr.found hname hshort hnew ho
    · obtain ⟨j, e, hj, he, rfl⟩ := h.found name o hold ho hshort
      obtain ⟨e', hj', he', hclass⟩ := hr.keeps hj he ho
      exact ⟨j, e', hj', he', hclass⟩
  · intro before d o id hprefix hgot
    rcases concat_prefix_concat.mp hprefix with ⟨rfl, rfl⟩ | hold
    · exact hr.got hgot
    · exact h.got before d o id hold hgot

theorem cacheKept (cs : List ReflectCall) : CacheKept cs := by
  induction cs using List.reverseRecOn with
  | nil =>
    have hnone : ∀ (done : List ReflectCall) (d : ReflectCall), ¬ done ++ [d] <+: [] := by
      intro done d hprefix
      simp at hprefix
    refine ⟨fun _ ↦ rfl, fun _ h ↦ absurd h List.not_mem_nil, fun _ h ↦ absurd h List.not_mem_nil, ?_, ?_⟩
    · rintro name o ⟨before, d, hprefix, -⟩
      exact absurd hprefix (hnone before d)
    · intro before d o id hprefix
      exact absurd hprefix (hnone before d)
  | append_singleton cs c ih => exact ih.concat c

theorem Found.concat (h : Found done className o) (c : ReflectCall) : Found (done ++ [c]) className o :=
  found_concat.mpr (.inr h)

theorem Returned.concat (h : Returned done d id) (c : ReflectCall) : Returned (done ++ [c]) d id := by
  obtain ⟨o, hfound, before, b, hold, hcall⟩ := h
  exact ⟨o, hfound.concat c, before, b, concat_prefix_concat.mpr (.inr hold), hcall⟩

/-- A call that finds no class finds nothing new. -/
theorem Found.of_concat (h : Found (done ++ [c]) className o) (hfound : (trace done c).found = none) :
    Found done className o := by
  rcases found_concat.mp h with ⟨-, hnew⟩ | hold
  · rw [hfound] at hnew
    cases hnew
  · exact hold

/-- A call that asks for nothing returns nothing new. -/
theorem Returned.of_concat (h : Returned (done ++ [c]) d id) (hfound : (trace done c).found = none)
    (hgot : (trace done c).got = none) : Returned done d id := by
  obtain ⟨o, hf, before, b, hprefix, hname, hsig, hstatic, hg⟩ := h
  rcases concat_prefix_concat.mp hprefix with ⟨rfl, rfl⟩ | hold
  · rw [hgot] at hg
    cases hg
  · exact ⟨o, hf.of_concat hfound, before, b, hold, hname, hsig, hstatic, hg⟩

/-- What happens in a call whose class has an entry. -/
theorem trace_known {name methodName : List Byte} {functions : Nat → Bool} {i : Nat} {e : CacheEntry}
    (hclass : c.className = some name) (hmethod : c.methodName = some methodName) (henv : c.jniEnv ≠ 0)
    (hfunctions : c.functions = some functions) (hi : lookupClass (runReflect done) name = some i)
    (he : (runReflect done).entries[i]? = some e) : trace done c = (useEntry functions c methodName e).2 := by
  have hallocated : (runReflect done).allocated = true := by
    by_contra hnot
    have hnil := (cacheKept done).allocated (Bool.eq_false_iff.mpr hnot)
    rw [hnil] at he
    cases he
  rw [trace, reflectAndCall, hclass, hmethod]
  simp only
  rw [if_neg henv, initReflection, if_pos hallocated]
  simp only
  rw [findReflectionCache, hi]
  simp only
  rw [hfunctions]
  simp only
  rw [List.getD_eq_getElem?_getD, he, Option.getD_some]

/-- The entry that is found for a class has its name. -/
theorem className_of_lookupClass {s : ReflectionCache} {name : List Byte} {i : Nat} {e : CacheEntry}
    (hi : lookupClass s name = some i) (he : s.entries[i]? = some e) : e.className = name := by
  obtain ⟨hlt, hat, -⟩ := List.findIdx?_eq_some_iff_getElem.mp hi
  rw [List.getElem?_eq_getElem hlt, Option.some_inj] at he
  rw [← he]
  exact of_decide_eq_true hat

section Entry

variable {name methodName : List Byte} {functions : Nat → Bool} {m : MethodSignature} {i : Nat} {e : CacheEntry}

/-- A cached ID that is called rightly has been returned before. -/
theorem CallRight.cached (hright : CallRight done c) (he : e ∈ (runReflect done).entries)
    (htrace : trace done c = (useEntry functions c methodName e).2) (hparsed : c.parsed = some (some m))
    (hf : functions (callIdx c.isStatic m.returnType) = true) (hhits : Hits e methodName) :
    Returned done c (hashId methodName) := by
  have hne : e.classObject ≠ 0 := by
    intro hzero
    have hcached := hhits.2
    rw [(cacheKept done).unused e he hzero] at hcached
    exact absurd hcached List.not_mem_nil
  rw [useEntry_of_class hne] at htrace
  have hchosen := chosen_withClass functions c methodName e Trace.failed rfl
  have hcalled := called_of_hits (t := Trace.failed) hhits hparsed hf
  have hfound : (trace done c).found = none := by
    rw [htrace]
    exact hchosen.found_eq
  have hgot : (trace done c).got = none := by
    rw [htrace]
    obtain ⟨-, ⟨-, -, hgot⟩ | ⟨hmisses, -⟩⟩ := hchosen.called rfl hcalled
    · exact hgot
    · exact absurd hhits hmisses
  rw [← htrace] at hcalled
  exact (hright _ _ hcalled).of_concat hfound hgot

/-- An ID that is asked for and called rightly comes from a class that was found for its name. -/
theorem CallRight.asked (hright : CallRight done c) (hclass : c.className = some name)
    (hi : lookupClass (runReflect done) name = some i) (he : (runReflect done).entries[i]? = some e)
    (htrace : trace done c = (useEntry functions c methodName e).2) (hparsed : c.parsed = some (some m))
    (hf : functions (callIdx c.isStatic m.returnType) = true) (hmisses : ¬ Hits e methodName)
    (hget : functions (getIdIdx c.isStatic) = true) (hid : c.getMethodId ≠ 0) (hne : e.classObject ≠ 0) :
    Found done c.className e.classObject := by
  have hkept := cacheKept done
  rw [useEntry_of_class hne] at htrace
  have hcalled := called_of_misses (t := Trace.failed) hmisses hparsed hf hget hid
  have hfound : (trace done c).found = none := by
    rw [htrace]
    exact (chosen_withClass functions c methodName e Trace.failed rfl).found_eq
  rw [← htrace] at hcalled
  obtain ⟨o, hf, before, d, hprefix, -, -, -, hgot⟩ := hright _ _ hcalled
  have ho : o ≠ 0 := (hkept.concat c).got before d o c.getMethodId hprefix hgot
  have hold := hf.of_concat hfound
  rw [hclass] at hold ⊢
  -- The class that was found is that of an entry for the name, and there is one such entry.
  have hshort : name.length ≤ 511 :=
    className_of_lookupClass hi he ▸ hkept.short e (List.mem_of_getElem? he)
  obtain ⟨j, e', hj, he', rfl⟩ := hkept.found name o hold ho hshort
  obtain rfl : i = j := Option.some_inj.mp (hi.symm.trans hj)
  obtain rfl : e = e' := Option.some_inj.mp (he.symm.trans he')
  exact hold

end Entry

theorem CallRight.reflectSafe (hright : CallRight done c) : ReflectSafe done c := by
  rintro ⟨henv, functions, m, hfunctions, hparsed, hf⟩ name methodName i e hclass hmethod hi he
  have htrace := trace_known hclass hmethod henv hfunctions hi he
  refine ⟨fun hhits ↦ hright.cached (List.mem_of_getElem? he) htrace hparsed hf hhits, ?_⟩
  rintro hmisses ⟨hid, functions', hfunctions', hget⟩
  obtain rfl : functions = functions' := Option.some_inj.mp (hfunctions.symm.trans hfunctions')
  by_cases hne : e.classObject = 0
  · exact .inl hne
  · exact .inr (hright.asked hclass hi he htrace hparsed hf hmisses hget hid hne)

theorem ReflectSafe.callRight (hsafe : ReflectSafe done c) : CallRight done c := by
  have hkept := cacheKept done
  have hr := hkept.reflected c
  intro f id hcalled
  generalize htrace : trace done c = t at hr hcalled
  generalize runReflect (done ++ [c]) = s' at hr
  cases hr with
  | unchanged => cases hcalled
  | placed => cases hcalled
  | @used _ name methodName i entries functions e r class_eq method_eq env functions_eq at_place at_index used _ stored =>
    have hunused : Unused e := by
      rcases at_place.entry at_index with ⟨-, he⟩ | ⟨-, hids⟩
      · exact hkept.unused e (List.mem_of_getElem? he)
      · exact fun _ ↦ hids
    obtain ⟨⟨m, hparsed, hf⟩, hcase⟩ := used.called hunused hcalled
    have hcompletes : Completes c := ⟨env, functions, m, functions_eq, hparsed, hf⟩
    rcases hcase with ⟨hhits, rfl⟩ | ⟨hmisses, hget, hid, o, hgot, ho⟩
    · rcases at_place.entry at_index with ⟨hi, he⟩ | ⟨-, hids⟩
      · have hentry := hsafe hcompletes name methodName i e class_eq method_eq hi he
        exact (hentry.cached hhits).concat c
      · have hmem := hhits.2
        rw [hids] at hmem
        exact absurd hmem List.not_mem_nil
    · have hne : o ≠ 0 := (used.got_eq hgot).1
      rw [← htrace] at hgot ho
      refine ⟨o, ?_, done, c, List.prefix_rfl, rfl, rfl, rfl, hgot⟩
      rcases ho with rfl | hfound
      · rcases at_place.entry at_index with ⟨hi, he⟩ | ⟨hzero, -⟩
        · have hentry := hsafe hcompletes name methodName i e class_eq method_eq hi he
          have hclass := hentry.asked hmisses ⟨hid, functions, functions_eq, hget⟩
          exact (hclass.resolve_left hne).concat c
        · exact absurd hzero hne
      · exact found_concat.mpr (.inl ⟨rfl, hfound⟩)

/-- A method is called rightly exactly when the entry for its class is safe. -/
theorem callRight_iff (done : List ReflectCall) (c : ReflectCall) : CallRight done c ↔ ReflectSafe done c :=
  ⟨CallRight.reflectSafe, ReflectSafe.callRight⟩

/-- All methods of a run are called rightly exactly when all its calls are safe. -/
theorem reflectAndCall_right_iff (cs : List ReflectCall) :
    (∀ done c, done ++ [c] <+: cs → CallRight done c) ↔ ∀ done c, done ++ [c] <+: cs → ReflectSafe done c := by
  simp only [callRight_iff]

/-- A call of a method of the class `A` without parameters, whose ID is 110 if it is asked for. -/
def callNamed (name : Byte) : ReflectCall :=
  { jniEnv := 1, className := some [0x41], methodName := some [name], signature := some [0x28, 0x29, 0x56]
    isStatic := false, functions := some fun _ ↦ true, findClass := 1, getMethodId := 110, behind := none
    calloc := true, realloc := true, malloc := true }

/-- The method `m` is called in place of `n`, whose hash is the ID of `m`. -/
theorem hash_not_right : ¬ CallRight [callNamed 0x6d] (callNamed 0x6e) := by
  intro hright
  have hcalled : (trace [callNamed 0x6d] (callNamed 0x6e)).called = some (57, 110) := by decide
  obtain ⟨o, -, before, d, hprefix, hname, -, -, hgot⟩ := hright 57 110 hcalled
  rcases concat_prefix_concat.mp hprefix with ⟨rfl, rfl⟩ | hold
  · have hnone : (trace [callNamed 0x6d] (callNamed 0x6e)).got = none := by decide
    rw [hnone] at hgot
    cases hgot
  · rcases (@concat_prefix_concat [] (callNamed 0x6d) d before).mp hold with ⟨rfl, rfl⟩ | hnil
    · exact absurd hname (by decide)
    · simp at hnil

end Runs

end Arm2x86.Jni
