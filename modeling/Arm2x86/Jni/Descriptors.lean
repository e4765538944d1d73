import Arm2x86.Base.Memory
import Mathlib.Data.List.Basic

/-!
# Method descriptors

The grammar of descriptors goes down into the elements of an array; the parser takes one character for the
element of an array that is no class. So it reads descriptors without arrays of arrays among the
parameters, and many strings that are none.
-/

/-!
## Method signatures

`parse_method_signature` of `modules/arm2x86_syscall.c`. A pointer into the string is what is left of it
from there on; the zero at its end is no part of it.
-/

namespace Arm2x86.Jni

/-- `MethodSignature`, `arm2x86_syscall.c:2854`; its `param_count` is the number of the types. -/
structure MethodSignature where
  returnType : List Byte
  paramTypes : List (List Byte)
deriving DecidableEq

/-- Why nothing has been parsed: -1 is returned, or the string is read on behind its end. -/
inductive ParseError where
  | refused
  | overrun
deriving DecidableEq

/-- `(`. -/
def parenOpen : Byte := 0x28

/-- `)`. -/
def parenClose : Byte := 0x29

/-- `;`. -/
def semicolon : Byte := 0x3b

/-- `L`. -/
def letterL : Byte := 0x4c

/-- `[`. -/
def bracket : Byte := 0x5b

/-- `strchr`, as an index. -/
def strchr (p : List Byte) (c : Byte) : Option Nat := p.findIdx? fun b ↦ b = c

/-- The body of the loop over the parameters, at a character that is there: the type and what is left. -/
def parseParam (c : Byte) (q : List Byte) : Except ParseError (List Byte × List Byte) :=
  if c = letterL then
    match strchr (c :: q) semicolon with
    | none => .error .refused
    | some i =>
      let len := if i + 1 ≥ 64 then 63 else i + 1
      .ok ((c :: q).take len, (c :: q).drop (i + 1))
  else if c = bracket then
    match q with
    | [] => .error .overrun
    | d :: q' =>
      if d = letterL then
        match strchr q semicolon with
        | none => .error .refused
        | some i =>
          let len := if i + 1 + 1 ≥ 64 then 62 else i + 1
          .ok (c :: q.take len, q.drop (i + 1))
      else .ok ([c, d], q')
  else .ok ([c], q)

/-- The loop, for some more parameters at most. -/
def parseParams : Nat → List Byte → Except ParseError (List (List Byte) × List Byte)
  | 0, p => .ok ([], p)
  | _ + 1, [] => .ok ([], [])
  | n + 1, c :: q =>
    if c = parenClose then .ok ([], c :: q)
    else
      (parseParam c q).bind fun (param, p) ↦
        (parseParams n p).map fun (params, rest) ↦ (param :: params, rest)

/-- `parse_method_signature`, `arm2x86_syscall.c:2908`. -/
def parseMethodSignature (sig : Option (List Byte)) : Except ParseError MethodSignature :=
  match sig with
  | none => .error .refused
  | some sig =>
    match strchr sig parenOpen with
    | none => .error .refused
    | some i =>
      (parseParams 16 (sig.drop (i + 1))).bind fun (paramTypes, p) ↦
        match p with
        | [] => .error .refused
        | c :: rest =>
          if c = parenClose then .ok ⟨rest.take 63, paramTypes⟩ else .error .refused

end Arm2x86.Jni

namespace Arm2x86.Jni

/-- The name of a class: parts between slashes, none of which is empty. -/
def ClassName (name : List Byte) : Prop :=
  (∀ b ∈ name, b ≠ 0x2e ∧ b ≠ semicolon ∧ b ≠ bracket) ∧ [] ∉ name.splitOn 0x2f

/-- `B`, `C`, `D`, `F`, `I`, `J`, `S` and `Z`. -/
def baseTypes : List Byte := [0x42, 0x43, 0x44, 0x46, 0x49, 0x4a, 0x53, 0x5a]

/-- The type of a field or of a parameter. -/
inductive FieldType : List Byte → Prop where
  | base {c : Byte} (mem : c ∈ baseTypes) : FieldType [c]
  | object {name : List Byte} (className : ClassName name) : FieldType (letterL :: (name ++ [semicolon]))
  | array {element : List Byte} (type : FieldType element) : FieldType (bracket :: element)

/-- The type that a method returns, perhaps `V`. -/
def ReturnType (t : List Byte) : Prop := FieldType t ∨ t = [0x56]

/-- A descriptor with the types of the parameters and the one that is returned. -/
structure Descriptor (sig : List Byte) (params : List (List Byte)) (ret : List Byte) : Prop where
  eq : sig = parenOpen :: (params.flatten ++ parenClose :: ret)
  params : ∀ t ∈ params, FieldType t
  ret : ReturnType ret

/-- There is room for the types in a `MethodSignature`. -/
structure WithinLimits (params : List (List Byte)) (ret : List Byte) : Prop where
  count : params.length ≤ 16
  params : ∀ t ∈ params, t.length ≤ 63
  ret : ret.length ≤ 63

/-- A descriptor is parsed, and another string is refused. -/
def SignatureRight (sig : List Byte) : Prop :=
  (∀ params ret, Descriptor sig params ret → WithinLimits params ret →
    parseMethodSignature (some sig) = .ok ⟨ret, params⟩) ∧
  ((∀ params ret, ¬ Descriptor sig params ret) → parseMethodSignature (some sig) = .error .refused)

/-- An array whose elements are arrays. -/
def Nested (t : List Byte) : Prop := ∃ element, t = bracket :: bracket :: element

/-- What is taken for one parameter. -/
inductive Item : List Byte → Prop where
  | object {name : List Byte} (no_end : semicolon ∉ name) : Item (letterL :: (name ++ [semicolon]))
  | objects {name : List Byte} (no_end : semicolon ∉ name) :
      Item (bracket :: letterL :: (name ++ [semicolon]))
  | array {c : Byte} (ne : c ≠ letterL) : Item [bracket, c]
  | single {c : Byte} (ne_letterL : c ≠ letterL) (ne_bracket : c ≠ bracket) (ne_close : c ≠ parenClose) : Item [c]

/-- A string that is read as a signature: after the first parenthesis come items, then one that closes. -/
def Accepted (sig : List Byte) : Prop :=
  ∃ (before : List Byte) (items : List (List Byte)) (rest : List Byte),
    sig = before ++ parenOpen :: (items.flatten ++ parenClose :: rest) ∧
    parenOpen ∉ before ∧ items.length ≤ 16 ∧ ∀ it ∈ items, Item it

/-- A string that is read on behind its end: after some items comes a bracket that is the last character. -/
def Overrun (sig : List Byte) : Prop :=
  ∃ (before : List Byte) (items : List (List Byte)),
    sig = before ++ parenOpen :: (items.flatten ++ [bracket]) ∧
    parenOpen ∉ before ∧ items.length < 16 ∧ ∀ it ∈ items, Item it

section Parser

variable {c d : Byte} {p q rest it param sig : List Byte} {items params : List (List Byte)} {n : Nat}

theorem strchr_append {a b : List Byte} (h : c ∉ a) : strchr (a ++ c :: b) c = some a.length := by
  have hnone : a.findIdx? (fun b ↦ b = c) = none := by
    rw [List.findIdx?_eq_none_iff]
    intro x hx
    exact decide_eq_false fun heq ↦ h (heq ▸ hx)
  rw [strchr, List.findIdx?_append, hnone, List.findIdx?_cons]
  simp

theorem strchr_eq_none : strchr p c = none ↔ c ∉ p := by
  rw [strchr, List.findIdx?_eq_none_iff]
  constructor
  · exact fun h hmem ↦ by simpa using h c hmem
  · exact fun h x hx ↦ decide_eq_false fun heq ↦ h (heq ▸ hx)

theorem Item.ne_close (h : Item (c :: q)) : c ≠ parenClose := by
  cases h with
  | object => decide
  | objects => decide
  | array => decide
  | single _ _ ne_close => exact ne_close

theorem Item.ne_nil (h : Item it) : it ≠ [] := by
  cases h <;> exact List.cons_ne_nil _ _

/-- The text up to some character is cut to the size of the buffer for it. -/
theorem take_text (text rest : List Byte) {limit : Nat} {long : Prop} [Decidable long]
    (h : long ↔ limit < text.length) :
    (text ++ rest).take (if long then limit else text.length) = text.take limit := by
  split
  · next hlong => exact List.take_append_of_le_length (Nat.le_of_lt (h.mp hlong))
  · next hshort =>
    rw [List.take_left, List.take_of_length_le (Nat.le_of_not_lt fun hlt ↦ hshort (h.mpr hlt))]

theorem strchr_class (hno : semicolon ∉ p) :
    strchr (letterL :: (p ++ semicolon :: rest)) semicolon = some (p.length + 1) :=
  @strchr_append semicolon (letterL :: p) rest (by simpa [letterL, semicolon] using hno)

theorem strchr_noClass (hno : semicolon ∉ q) : strchr (letterL :: q) semicolon = none := by
  rw [strchr_eq_none]
  simpa [letterL, semicolon] using hno

/-- What a class is read as, from its first character on. -/
theorem parseParam_letterL (hno : semicolon ∉ p) :
    parseParam letterL (p ++ semicolon :: rest) = .ok ((letterL :: (p ++ [semicolon])).take 63, rest) := by
  have hsplit : letterL :: (p ++ semicolon :: rest) = (letterL :: (p ++ [semicolon])) ++ rest := by simp
  have hlength : p.length + 1 + 1 = (letterL :: (p ++ [semicolon])).length := by simp
  unfold parseParam
  rw [if_pos rfl, strchr_class hno, hsplit]
  simp only
  rw [hlength, List.drop_left, take_text _ _ (by omega)]

/-- What an array of a class is read as. -/
theorem parseParam_bracket (hno : semicolon ∉ p) :
    parseParam bracket (letterL :: (p ++ semicolon :: rest)) =
      .ok ((bracket :: letterL :: (p ++ [semicolon])).take 63, rest) := by
  have hsplit : letterL :: (p ++ semicolon :: rest) = (letterL :: (p ++ [semicolon])) ++ rest := by simp
  have hlength : p.length + 1 + 1 = (letterL :: (p ++ [semicolon])).length := by simp
  unfold parseParam
  rw [if_neg (by decide), if_pos rfl]
  simp only [strchr_class hno, if_true]
  rw [hsplit, hlength, List.drop_left, take_text _ _ (by omega)]
  rfl

/-- An item is parsed up to the size of the buffer for it. -/
theorem parseParam_item (h : Item (c :: q)) (rest : List Byte) :
    parseParam c (q ++ rest) = .ok ((c :: q).take 63, rest) := by
  cases h with
  | object hno =>
    rw [List.append_assoc, List.singleton_append]
    exact parseParam_letterL hno
  | objects hno =>
    rw [List.cons_append, List.append_assoc, List.singleton_append]
    exact parseParam_bracket hno
  | array hne =>
    unfold parseParam
    rw [if_neg (by decide), if_pos rfl]
    exact if_neg hne
  | single hL hb hc =>
    unfold parseParam
    rw [if_neg hL, if_neg hb]
    rfl

/-- Only items are parsed. -/
theorem parseParam_ok (h : parseParam c q = .ok (param, p)) (hc : c ≠ parenClose) :
    ∃ it, Item (c :: it) ∧ q = it ++ p := by
  by_cases hL : c = letterL
  · subst hL
    by_cases hend : semicolon ∈ q
    · obtain ⟨name, rest, rfl, hno⟩ := List.eq_append_cons_of_mem hend
      rw [parseParam_letterL hno] at h
      cases h
      exact ⟨name ++ [semicolon], .object hno, by simp⟩
    · unfold parseParam at h
      rw [if_pos rfl, strchr_noClass hend] at h
      cases h
  · by_cases hb : c = bracket
    · subst hb
      cases q with
      | nil =>
        unfold parseParam at h
        rw [if_neg hL, if_pos rfl] at h
        cases h
      | cons d q =>
        by_cases hd : d = letterL
        · subst hd
          by_cases hend : semicolon ∈ q
          · obtain ⟨name, rest, rfl, hno⟩ := List.eq_append_cons_of_mem hend
            rw [parseParam_bracket hno] at h
            cases h
            exact ⟨letterL :: (name ++ [semicolon]), .objects hno, by simp⟩
          · unfold parseParam at h
            rw [if_neg hL, if_pos rfl] at h
            simp only [strchr_noClass hend, if_true] at h
            cases h
        · unfold parseParam at h
          rw [if_neg hL, if_pos rfl] at h
          simp only [if_neg hd] at h
          cases h
          exact ⟨[d], .array hd, rfl⟩
    · unfold parseParam at h
      rw [if_neg hL, if_neg hb] at h
      cases h
      exact ⟨[], .single hL hb hc, rfl⟩

theorem parseParam_overrun (h : parseParam c q = .error .overrun) : c = bracket ∧ q = [] := by
  unfold parseParam at h
  split at h
  · split at h <;> cases h
  · split at h
    · next hb =>
      split at h
      · exact ⟨hb, rfl⟩
      · split at h
        · split at h <;> cases h
        · cases h
    · cases h

/-- The loop takes one item. -/
theorem parseParams_cons (hit : Item it) (n : Nat) (rest : List Byte) :
    parseParams (n + 1) (it ++ rest) = (parseParams n rest).map fun (params, p) ↦ (it.take 63 :: params, p) := by
  obtain ⟨c, q, rfl⟩ := List.exists_cons_of_ne_nil hit.ne_nil
  rw [List.cons_append, parseParams, if_neg hit.ne_close, parseParam_item hit]
  rfl

/-- The loop goes over items one by one. -/
theorem parseParams_items (hitems : ∀ it ∈ items, Item it) (hn : items.length ≤ n) (rest : List Byte) :
    parseParams n (items.flatten ++ rest) =
      (parseParams (n - items.length) rest).map fun (params, p) ↦ (items.map (List.take 63) ++ params, p) := by
  induction items generalizing n with
  | nil =>
    rw [List.flatten_nil, List.nil_append, List.length_nil, Nat.sub_zero]
    cases parseParams n rest <;> rfl
  | cons it items ih =>
    obtain ⟨n, rfl⟩ : ∃ m, n = m + 1 := ⟨n - 1, by rw [List.length_cons] at hn; omega⟩
    rw [List.length_cons, Nat.add_le_add_iff_right] at hn
    rw [List.flatten_cons, List.append_assoc, parseParams_cons (hitems it (List.mem_cons_self ..)),
      ih (fun it h ↦ hitems it (List.mem_cons_of_mem _ h)) hn, List.length_cons, Nat.add_sub_add_right]
    cases parseParams (n - items.length) rest <;> rfl

/-- Behind items that are followed by something else the loop ends. -/
theorem parseParams_close (hitems : ∀ it ∈ items, Item it) (hn : items.length ≤ n) (rest : List Byte) :
    parseParams n (items.flatten ++ parenClose :: rest) =
      .ok (items.map (List.take 63), parenClose :: rest) := by
  have hend : ∀ m, parseParams m (parenClose :: rest) = .ok ([], parenClose :: rest) := by
    intro m
    cases m with
    | zero => rfl
    | succ m => exact if_pos rfl
  rw [parseParams_items hitems hn, hend]
  simp [Except.map]

/-- The loop goes over items, and ends or fails behind them. -/
theorem parseParams_cases (n : Nat) (p : List Byte) :
    ∃ (items : List (List Byte)) (rest : List Byte), p = items.flatten ++ rest ∧ (∀ it ∈ items, Item it) ∧
      (items.length ≤ n ∧ parseParams n p = .ok (items.map (List.take 63), rest) ∨
        items.length < n ∧ ∃ c q e, rest = c :: q ∧ parseParam c q = .error e ∧ parseParams n p = .error e) := by
  induction n generalizing p with
  | zero => exact ⟨[], p, rfl, fun _ h ↦ absurd h List.not_mem_nil, .inl ⟨Nat.le_refl _, rfl⟩⟩
  | succ n ih =>
    cases p with
    | nil => exact ⟨[], [], rfl, fun _ h ↦ absurd h List.not_mem_nil, .inl ⟨Nat.zero_le _, rfl⟩⟩
    | cons c q =>
      by_cases hc : c = parenClose
      · exact ⟨[], c :: q, rfl, fun _ h ↦ absurd h List.not_mem_nil, .inl ⟨Nat.zero_le _, if_pos hc⟩⟩
      · cases hparam : parseParam c q with
        | error e =>
          refine ⟨[], c :: q, rfl, fun _ h ↦ absurd h List.not_mem_nil, .inr ⟨Nat.succ_pos n, c, q, e, rfl, hparam, ?_⟩⟩
          rw [parseParams, if_neg hc, hparam]
          rfl
        | ok r =>
          obtain ⟨param, p⟩ := r
          obtain ⟨it, hit, rfl⟩ := parseParam_ok hparam hc
          obtain ⟨items, rest, rfl, hitems, hcase⟩ := ih p
          have hall : ∀ i ∈ (c :: it) :: items, Item i := by simpa using ⟨hit, hitems⟩
          have hstep := parseParams_cons hit n (items.flatten ++ rest)
          refine ⟨(c :: it) :: items, rest, by simp, hall, ?_⟩
          rw [List.cons_append] at hstep
          rcases hcase with ⟨hle, hok⟩ | ⟨hlt, c', q', e, hrest, hfail, herror⟩
          · rw [hstep, hok]
            exact .inl ⟨Nat.succ_le_succ hle, rfl⟩
          · rw [hstep, herror]
            exact .inr ⟨Nat.succ_lt_succ hlt, c', q', e, hrest, hfail, rfl⟩

/-- Behind some items, a bracket that is the last character is read over. -/
theorem parseParams_bracket (hitems : ∀ it ∈ items, Item it) (hn : items.length < n) :
    parseParams n (items.flatten ++ [bracket]) = .error .overrun := by
  obtain ⟨m, hm⟩ : ∃ m, n - items.length = m + 1 := ⟨n - items.length - 1, by omega⟩
  rw [parseParams_items hitems (Nat.le_of_lt hn), hm]
  rfl

theorem parseMethodSignature_open {before : List Byte} (h : parenOpen ∉ before) (p : List Byte) :
    parseMethodSignature (some (before ++ parenOpen :: p)) =
      (parseParams 16 p).bind fun (paramTypes, p) ↦
        match p with
        | [] => .error .refused
        | c :: rest => if c = parenClose then .ok ⟨rest.take 63, paramTypes⟩ else .error .refused := by
  have hdrop : (before ++ parenOpen :: p).drop (before.length + 1) = p := by
    rw [List.drop_append, List.drop_of_length_le (by omega)]
    simp
  rw [parseMethodSignature]
  simp only [strchr_append h]
  generalize (before ++ parenOpen :: p).drop (before.length + 1) = q at hdrop ⊢
  subst hdrop
  rfl

/-- A string of items between parentheses is parsed, whatever is behind them. -/
theorem parse_items {before : List Byte} (h : parenOpen ∉ before) (hn : items.length ≤ 16)
    (hitems : ∀ it ∈ items, Item it) (rest : List Byte) :
    parseMethodSignature (some (before ++ parenOpen :: (items.flatten ++ parenClose :: rest))) =
      .ok ⟨rest.take 63, items.map (List.take 63)⟩ := by
  rw [parseMethodSignature_open h, parseParams_close hitems hn]
  show (if parenClose = parenClose then
    Except.ok (⟨rest.take 63, items.map (List.take 63)⟩ : MethodSignature) else .error .refused) = _
  exact if_pos rfl

theorem parse_of_overrun (h : Overrun sig) : parseMethodSignature (some sig) = .error .overrun := by
  obtain ⟨before, items, rfl, hopen, hn, hitems⟩ := h
  rw [parseMethodSignature_open hopen, parseParams_bracket hitems hn]
  rfl

/-- What is neither accepted nor read over is refused. -/
theorem parse_cases (sig : List Byte) :
    Accepted sig ∨ Overrun sig ∨ parseMethodSignature (some sig) = .error .refused := by
  by_cases hopen : parenOpen ∈ sig
  · obtain ⟨before, p, rfl, hbefore⟩ := List.eq_append_cons_of_mem hopen
    obtain ⟨items, rest, rfl, hitems, ⟨hle, hok⟩ | ⟨hlt, c, q, e, rfl, hfail, herror⟩⟩ := parseParams_cases 16 p
    · have hparse := parseMethodSignature_open hbefore (items.flatten ++ rest)
      rw [hok] at hparse
      cases rest with
      | nil => exact .inr (.inr hparse)
      | cons c rest =>
        by_cases hc : c = parenClose
        · subst hc
          exact .inl ⟨before, items, rest, rfl, hbefore, hle, hitems⟩
        · exact .inr (.inr (hparse.trans (if_neg hc)))
    · cases e with
      | refused =>
        have hparse := parseMethodSignature_open hbefore (items.flatten ++ c :: q)
        rw [herror] at hparse
        exact .inr (.inr hparse)
      | overrun =>
        obtain ⟨rfl, rfl⟩ := parseParam_overrun hfail
        exact .inr (.inl ⟨before, items, rfl, hbefore, hlt, hitems⟩)
  · refine .inr (.inr ?_)
    rw [parseMethodSignature]
    simp only [strchr_eq_none.mpr hopen]

theorem parse_of_accepted (h : Accepted sig) : ∃ m, parseMethodSignature (some sig) = .ok m := by
  obtain ⟨before, items, rest, rfl, hopen, hn, hitems⟩ := h
  exact ⟨_, parse_items hopen hn hitems rest⟩

theorem refused_iff : parseMethodSignature (some sig) = .error .refused ↔ ¬ Accepted sig ∧ ¬ Overrun sig := by
  constructor
  · intro h
    refine ⟨fun hacc ↦ ?_, fun hover ↦ ?_⟩
    · obtain ⟨m, hm⟩ := parse_of_accepted hacc
      rw [hm] at h
      cases h
    · rw [parse_of_overrun hover] at h
      cases h
  · rintro ⟨hacc, hover⟩
    exact ((parse_cases sig).resolve_left hacc).resolve_left hover

end Parser

section Grammar

variable {t sig ret : List Byte} {params : List (List Byte)}

theorem FieldType.ne_nil (h : FieldType t) : t ≠ [] := by
  cases h <;> exact List.cons_ne_nil _ _

/-- A type that is no array of arrays is an item. -/
theorem FieldType.item (h : FieldType t) (hflat : ¬ Nested t) : Item t := by
  have hbase : ∀ c ∈ baseTypes, c ≠ letterL ∧ c ≠ bracket ∧ c ≠ parenClose := by decide
  cases h with
  | base hc => exact .single (hbase _ hc).1 (hbase _ hc).2.1 (hbase _ hc).2.2
  | object hname => exact .object fun hmem ↦ (hname.1 _ hmem).2.1 rfl
  | array helement =>
    cases helement with
    | base hc => exact .array (hbase _ hc).1
    | object hname => exact .objects fun hmem ↦ (hname.1 _ hmem).2.1 rfl
    | array h => exact absurd ⟨_, rfl⟩ hflat

/-- No item is an array of arrays. -/
theorem Item.not_nested {it : List Byte} (h : Item it) (ht : FieldType (it.take 63)) : ¬ Nested (it.take 63) := by
  rintro ⟨element, heq⟩
  cases h with
  | object => cases heq
  | objects => cases heq
  | @array c hne =>
    cases heq
    have hnone : ¬ FieldType [bracket, bracket] := by
      intro hpair
      cases hpair with
      | array hsingle =>
        cases hsingle with
        | base hmem => exact absurd hmem (by decide)
        | array hnil => exact hnil.ne_nil rfl
    exact hnone ht
  | single => cases heq

/-- A descriptor of types without arrays of arrays is parsed. -/
theorem Descriptor.parsed (h : Descriptor sig params ret) (hlimits : WithinLimits params ret)
    (hflat : ∀ t ∈ params, ¬ Nested t) : parseMethodSignature (some sig) = .ok ⟨ret, params⟩ := by
  have hitems : ∀ t ∈ params, Item t := fun t ht ↦ (h.params t ht).item (hflat t ht)
  have hparse := @parse_items params [] List.not_mem_nil hlimits.count hitems ret
  rw [List.nil_append, ← h.eq] at hparse
  have hsame : params.map (List.take 63) = params := by
    conv_rhs => rw [← List.map_id params]
    refine List.map_congr_left fun t ht ↦ ?_
    exact List.take_of_length_le (hlimits.params t ht)
  rw [hparse, hsame, List.take_of_length_le hlimits.ret]

/-- `([[I)V`. -/
def nestedSignature : List Byte := [0x28, 0x5b, 0x5b, 0x49, 0x29, 0x56]

end Grammar

end Arm2x86.Jni
