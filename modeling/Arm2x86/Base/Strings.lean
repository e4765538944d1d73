import Mathlib.Algebra.Group.Nat.Defs
import Mathlib.Data.List.Basic

/-!
# Strings

Functions of C on strings, which are lists without the zero that ends them: the comparison of some
items, the tokens between separators, the lines of a file, and hexadecimal numerals.
-/

namespace Arm2x86.Strings

variable {α : Type} [DecidableEq α]

/-- Whether the first items of two strings are the same. Where a string ends, another one that goes on
differs from it. -/
def sameUpTo : List α → List α → Nat → Bool
  | _, _, 0 => true
  | [], [], _ + 1 => true
  | a :: s, b :: t, n + 1 => a = b && sameUpTo s t n
  | _, _, _ + 1 => false

theorem sameUpTo_length {s t : List α} : sameUpTo s t t.length = true ↔ t <+: s := by
  induction t generalizing s with
  | nil => simp [sameUpTo]
  | cons b t ih =>
    cases s with
    | nil => simp [sameUpTo]
    | cons a s =>
      rw [List.length_cons, sameUpTo, List.cons_prefix_cons, Bool.and_eq_true, ih, decide_eq_true_iff]
      exact and_congr_left' eq_comm

/-- The next token, and what is behind the separator that ends it. -/
def token (sep : α) (s : List α) : Option (List α × List α) :=
  match s.dropWhile (· == sep) with
  | [] => none
  | a :: s => some ((a :: s).takeWhile (· != sep), ((a :: s).dropWhile (· != sep)).drop 1)

variable {sep : α} {s t rest : List α}

theorem length_token_lt (h : token sep s = some (t, rest)) : rest.length < s.length := by
  unfold token at h
  split at h
  · cases h
  · next a s' hs =>
    cases h
    have hskipped : (s.dropWhile (· == sep)).length ≤ s.length := (List.dropWhile_suffix _).length_le
    have hrest : ((a :: s').dropWhile (· != sep)).length ≤ (a :: s').length :=
      (List.dropWhile_suffix _).length_le
    rw [hs] at hskipped
    rw [List.length_drop]
    simp only [List.length_cons] at *
    omega

/-- The tokens one after the other. -/
def tokens (sep : α) (s : List α) : List (List α) :=
  match _h : token sep s with
  | none => []
  | some (t, rest) => t :: tokens sep rest
termination_by s.length
decreasing_by exact length_token_lt _h

theorem tokens_of_none (h : token sep s = none) : tokens sep s = [] := by
  rw [tokens]
  split
  · rfl
  · next h' => rw [h] at h'; cases h'

theorem tokens_of_some (h : token sep s = some (t, rest)) : tokens sep s = t :: tokens sep rest := by
  rw [tokens]
  split
  · next h' => rw [h] at h'; cases h'
  · next h' =>
    rw [h] at h'
    cases h'
    rfl

theorem token_cons_sep : token sep (sep :: s) = token sep s := by
  rw [token, List.dropWhile_cons_of_pos (by simp)]
  rfl

theorem tokens_cons_sep : tokens sep (sep :: s) = tokens sep s := by
  cases h : token sep s with
  | none => rw [tokens_of_none h, tokens_of_none (token_cons_sep.trans h)]
  | some r => rw [tokens_of_some h, tokens_of_some (token_cons_sep.trans h)]

/-- A token at the front of a string, up to a separator or the end. -/
theorem token_append {tail : List α} (ht : t ≠ []) (hsep : sep ∉ t)
    (htail : tail = [] ∨ ∃ rest, tail = sep :: rest) :
    token sep (t ++ tail) = some (t, tail.drop 1) := by
  obtain ⟨a, t, rfl⟩ := List.exists_cons_of_ne_nil ht
  have ha : a ≠ sep := fun h ↦ hsep (h ▸ List.mem_cons_self)
  have hall : ∀ b ∈ a :: t, (b != sep) = true := by
    intro b hb
    rw [bne_iff_ne]
    exact fun h ↦ hsep (h ▸ hb)
  have hskip : (a :: t ++ tail).dropWhile (· == sep) = a :: (t ++ tail) :=
    List.dropWhile_cons_of_neg (by simpa using ha)
  have hstop : tail.takeWhile (· != sep) = [] ∧ tail.dropWhile (· != sep) = tail := by
    rcases htail with rfl | ⟨rest, rfl⟩
    · exact ⟨rfl, rfl⟩
    · exact ⟨List.takeWhile_cons_of_neg (by simp), List.dropWhile_cons_of_neg (by simp)⟩
  rw [token, hskip]
  dsimp only
  rw [← List.cons_append, List.takeWhile_append_of_pos hall, List.dropWhile_append_of_pos hall,
    hstop.1, hstop.2, List.append_nil]

/-- The tokens are the parts between separators that are not empty. -/
theorem mem_tokens : t ∈ tokens sep s ↔ t ≠ [] ∧ t ∈ s.splitOn sep := by
  induction hn : s.length using Nat.strongRecOn generalizing s with
  | ind n ih =>
    cases s with
    | nil =>
      rw [tokens_of_none rfl, List.splitOn_nil, List.mem_singleton]
      exact iff_of_false List.not_mem_nil fun h ↦ h.1 h.2
    | cons a s =>
      by_cases ha : a = sep
      · subst ha
        have hsplit : (a :: s).splitOn a = [] :: s.splitOn a := by
          simp [List.splitOn_cons_eq_if_modifyHead]
        rw [tokens_cons_sep, ih s.length (by simp [← hn]) rfl, hsplit, List.mem_cons]
        exact and_congr_right fun ht ↦ (or_iff_right ht).symm
      · by_cases hsep : sep ∈ s
        · obtain ⟨front, back, hs, hfront⟩ := List.eq_append_cons_of_mem hsep
          have hnone : sep ∉ a :: front := by simp [Ne.symm ha, hfront]
          have hne := List.cons_ne_nil a front
          have hlt : back.length < n := by
            rw [← hn, hs]
            simp only [List.length_cons, List.length_append]
            omega
          have htoken := token_append hne hnone (.inr ⟨back, rfl⟩)
          have hsplit : (a :: front ++ sep :: back).splitOn sep = (a :: front) :: back.splitOn sep := by
            rw [List.splitOn_append_cons_of_beq _ _ (beq_self_eq_true sep), List.splitOn_eq_singleton hnone]
            rfl
          rw [hs, ← List.cons_append, tokens_of_some htoken, hsplit, List.mem_cons, List.mem_cons,
            List.drop_one, List.tail_cons, ih back.length hlt rfl]
          constructor
          · rintro (rfl | h)
            · exact ⟨hne, .inl rfl⟩
            · exact ⟨h.1, .inr h.2⟩
          · rintro ⟨ht, rfl | h⟩
            · exact .inl rfl
            · exact .inr ⟨ht, h⟩
        · have hnone : sep ∉ a :: s := by simp [Ne.symm ha, hsep]
          have hne := List.cons_ne_nil a s
          have htoken := token_append hne hnone (.inl rfl)
          rw [List.append_nil] at htoken
          rw [tokens_of_some htoken, tokens_of_none rfl, List.splitOn_eq_singleton hnone,
            List.mem_singleton]
          exact ⟨fun h ↦ ⟨h ▸ hne, h⟩, And.right⟩

section Lines

variable (eol : α)

/-- The next line with its end, or as many of its items as there is room for, and what is behind. -/
def readLine : Nat → List α → List α × List α
  | 0, s => ([], s)
  | _ + 1, [] => ([], [])
  | room + 1, a :: s =>
    if a = eol then ([a], s) else (a :: (readLine room s).1, (readLine room s).2)

theorem length_readLine_le (room : Nat) (s : List α) : (readLine eol room s).2.length ≤ s.length := by
  induction room generalizing s with
  | zero => exact Nat.le_refl _
  | succ room ih =>
    cases s with
    | nil => exact Nat.le_refl _
    | cons a s =>
      rw [readLine]
      split
      · simp
      · have hrest := ih s
        simp only [List.length_cons]
        omega

/-- The lines one after the other, with room for `room + 1` items at a time, as `fgets` reads them into
an array of `room + 2`. -/
def readLines (room : Nat) (s : List α) : List (List α) :=
  match s with
  | [] => []
  | a :: s => (readLine eol (room + 1) (a :: s)).1 :: readLines room (readLine eol (room + 1) (a :: s)).2
termination_by s.length
decreasing_by
  rw [readLine]
  split
  · simp
  · have hrest := length_readLine_le eol room s
    simp only [List.length_cons]
    omega

variable {eol} {room : Nat}

theorem readLine_line (ht : eol ∉ t) (hroom : t.length ≤ room) (s : List α) :
    readLine eol (room + 1) (t ++ eol :: s) = (t ++ [eol], s) := by
  induction t generalizing room with
  | nil => rw [List.nil_append, readLine, if_pos rfl, List.nil_append]
  | cons a t ih =>
    rw [List.mem_cons, not_or] at ht
    obtain ⟨room, rfl⟩ := Nat.exists_eq_succ_of_ne_zero (Nat.ne_zero_of_lt hroom)
    rw [List.cons_append, readLine, if_neg (Ne.symm ht.1), ih ht.2 (Nat.le_of_succ_le_succ hroom)]
    rfl

theorem readLine_rest (ht : eol ∉ t) (hroom : t.length ≤ room) : readLine eol room t = (t, []) := by
  induction t generalizing room with
  | nil => cases room <;> rfl
  | cons a t ih =>
    rw [List.mem_cons, not_or] at ht
    obtain ⟨room, rfl⟩ := Nat.exists_eq_succ_of_ne_zero (Nat.ne_zero_of_lt hroom)
    rw [readLine, if_neg (Ne.symm ht.1), ih ht.2 (Nat.le_of_succ_le_succ hroom)]

/-- Lines there is room for are read as they are. -/
theorem readLines_line (ht : eol ∉ t) (hroom : t.length ≤ room) (s : List α) :
    readLines eol room (t ++ eol :: s) = (t ++ [eol]) :: readLines eol room s := by
  obtain ⟨a, u, hu⟩ := List.exists_cons_of_ne_nil (show t ++ eol :: s ≠ [] by simp)
  have hline := readLine_line ht hroom s
  rw [hu] at hline ⊢
  rw [readLines, hline]

theorem readLines_last (ht : eol ∉ t) (hroom : t.length ≤ room) :
    readLines eol room t = if t = [] then [] else [t] := by
  cases t with
  | nil => rw [readLines, if_pos rfl]
  | cons a t =>
    rw [readLines, readLine_rest ht (Nat.le_succ_of_le hroom), readLines, if_neg (List.cons_ne_nil a t)]

end Lines

section Words

variable {β : Type} {isSep : β → Bool} {gap t : List β}

/-- The words between separators, as `strtok` yields them one after the other. -/
def words (isSep : β → Bool) (s : List β) : List (List β) := (s.splitOnP isSep).filter (· ≠ [])

theorem words_cons_sep {a : β} (ha : isSep a = true) (s : List β) : words isSep (a :: s) = words isSep s := by
  rw [words, List.splitOnP_cons_eq_if_modifyHead, if_pos ha]
  rfl

theorem words_gap (hgap : ∀ a ∈ gap, isSep a = true) (s : List β) : words isSep (gap ++ s) = words isSep s := by
  induction gap with
  | nil => rfl
  | cons a gap ih =>
    rw [List.forall_mem_cons] at hgap
    rw [List.cons_append, words_cons_sep hgap.1, ih hgap.2]

theorem words_last (ht : ∀ a ∈ t, isSep a = false) : words isSep t = if t = [] then [] else [t] := by
  rw [words, List.splitOnP_eq_singleton ht]
  by_cases hnil : t = [] <;> simp [hnil]

theorem words_word (hne : t ≠ []) (ht : ∀ a ∈ t, isSep a = false) {a : β} (ha : isSep a = true)
    (s : List β) : words isSep (t ++ a :: s) = t :: words isSep s := by
  rw [words, List.splitOnP_append_cons _ _ ha, List.splitOnP_eq_singleton ht, List.filter_append]
  simp [hne, words]

end Words

section Numerals

/-- `isspace`. -/
def isSpace (c : Char) : Bool := c = ' ' || (9 ≤ c.toNat && c.toNat ≤ 13)

/-- The value of a hexadecimal digit. -/
def hexValue (c : Char) : Option Nat :=
  if '0' ≤ c ∧ c ≤ '9' then some (c.toNat - '0'.toNat)
  else if 'a' ≤ c ∧ c ≤ 'f' then some (c.toNat - 'a'.toNat + 10)
  else if 'A' ≤ c ∧ c ≤ 'F' then some (c.toNat - 'A'.toNat + 10)
  else none

/-- `isxdigit`. -/
def isHex (c : Char) : Bool := (hexValue c).isSome

/-- The number some digits write. -/
def hexNat (s : List Char) : Nat := s.foldl (fun n c ↦ 16 * n + (hexValue c).getD 0) 0

/-- A numeral behind its sign, without the `0x` in front of it. -/
def unbased (s : List Char) : Option (List Char) :=
  match s with
  | '0' :: 'x' :: s | '0' :: 'X' :: s => some s
  | _ => none

/-- The number that `sscanf` reads with `%x`: behind white space a sign, `0x`, and digits as far as they
go. A number too large for 64 bits is read as the largest of them. -/
def scanHex (s : List Char) : Option (BitVec 64) :=
  let s := s.dropWhile isSpace
  let numeral := if s.head? = some '-' ∨ s.head? = some '+' then s.drop 1 else s
  let digits := ((unbased numeral).getD numeral).takeWhile isHex
  if digits = [] ∧ unbased numeral = none then none
  else if 2 ^ 64 ≤ hexNat digits then some (BitVec.allOnes 64)
  else if s.head? = some '-' then some (-BitVec.ofNat 64 (hexNat digits))
  else some (BitVec.ofNat 64 (hexNat digits))

variable {digits tail : List Char} {c d : Char}

theorem ne_of_isHex (hc : isHex c = true) (hd : isHex d = false) : c ≠ d := by
  rintro rfl
  rw [hc] at hd
  cases hd

theorem hexValue_lt {n : Nat} (h : hexValue c = some n) : n < 16 := by
  unfold hexValue at h
  split at h
  · next hrange =>
    have hhigh : c.toNat ≤ 57 := hrange.2
    have hzero : '0'.toNat = 48 := rfl
    have hn := Option.some.inj h
    omega
  · split at h
    · next hrange =>
      have hhigh : c.toNat ≤ 102 := hrange.2
      have ha : 'a'.toNat = 97 := rfl
      have hn := Option.some.inj h
      omega
    · split at h
      · next hrange =>
        have hhigh : c.toNat ≤ 70 := hrange.2
        have ha : 'A'.toNat = 65 := rfl
        have hn := Option.some.inj h
        omega
      · cases h

theorem hexNat_lt (s : List Char) : hexNat s < 16 ^ s.length := by
  suffices hfold : ∀ n, s.foldl (fun n c ↦ 16 * n + (hexValue c).getD 0) n < (n + 1) * 16 ^ s.length by
    have h := hfold 0
    rwa [Nat.zero_add, Nat.one_mul] at h
  induction s with
  | nil => simp
  | cons c s ih =>
    intro n
    have hvalue : (hexValue c).getD 0 < 16 := by
      cases h : hexValue c with
      | none => decide
      | some k => exact hexValue_lt h
    have hnext := ih (16 * n + (hexValue c).getD 0)
    have hstep : (16 * n + (hexValue c).getD 0 + 1) * 16 ^ s.length ≤ 16 * (n + 1) * 16 ^ s.length :=
      Nat.mul_le_mul_right _ (by omega)
    rw [List.foldl_cons, List.length_cons, Nat.pow_succ]
    calc _ < _ := hnext
      _ ≤ 16 * (n + 1) * 16 ^ s.length := hstep
      _ = (n + 1) * (16 ^ s.length * 16) := by rw [Nat.mul_comm 16, Nat.mul_assoc, Nat.mul_comm 16]

theorem isSpace_of_isHex (h : isHex c = true) : isSpace c = false := by
  cases hspace : isSpace c with
  | false => rfl
  | true =>
    have hlow : c.toNat ≤ 32 := by
      rw [isSpace, Bool.or_eq_true, Bool.and_eq_true, decide_eq_true_iff, decide_eq_true_iff,
        decide_eq_true_iff] at hspace
      rcases hspace with rfl | hrange
      · decide
      · omega
    unfold isHex hexValue at h
    split at h
    · next hrange =>
      have hge : 48 ≤ c.toNat := hrange.1
      omega
    · split at h
      · next hrange =>
        have hge : 97 ≤ c.toNat := hrange.1
        omega
      · split at h
        · next hrange =>
          have hge : 65 ≤ c.toNat := hrange.1
          omega
        · cases h

/-- Digits in front of something else are no `0x`. -/
theorem digits_append_ne (hdigits : ∀ c ∈ digits, isHex c = true)
    (htail : ∀ c ∈ tail.head?, isHex c = false ∧ c ≠ 'x' ∧ c ≠ 'X') {s : List Char}
    (hd : d = 'x' ∨ d = 'X') : digits ++ tail ≠ '0' :: d :: s := by
  have hnot : isHex d = false := by
    rcases hd with rfl | rfl
    · decide
    · decide
  intro heq
  rcases digits with _ | ⟨a, _ | ⟨b, ds⟩⟩
  · rw [List.nil_append] at heq
    rw [heq] at htail
    exact absurd (htail '0' rfl).1 (by decide)
  · have hrest : tail = d :: s := (List.cons.inj heq).2
    rw [hrest] at htail
    rcases hd with rfl | rfl
    · exact (htail 'x' rfl).2.1 rfl
    · exact (htail 'X' rfl).2.2 rfl
  · have hb : b = d := (List.cons.inj (List.cons.inj heq).2).1
    exact ne_of_isHex (hdigits b (by simp)) hnot hb

theorem unbased_digits (hdigits : ∀ c ∈ digits, isHex c = true)
    (htail : ∀ c ∈ tail.head?, isHex c = false ∧ c ≠ 'x' ∧ c ≠ 'X') : unbased (digits ++ tail) = none := by
  unfold unbased
  split
  · next s heq => exact absurd heq (digits_append_ne hdigits htail (.inl rfl))
  · next s heq => exact absurd heq (digits_append_ne hdigits htail (.inr rfl))
  · rfl

theorem scanHex_digits (hne : digits ≠ []) (hdigits : ∀ c ∈ digits, isHex c = true)
    (hvalue : hexNat digits < 2 ^ 64)
    (htail : ∀ c ∈ tail.head?, isHex c = false ∧ c ≠ 'x' ∧ c ≠ 'X') :
    scanHex (digits ++ tail) = some (BitVec.ofNat 64 (hexNat digits)) := by
  have hbase := unbased_digits hdigits htail
  have htake : (digits ++ tail).takeWhile isHex = digits := by
    rw [List.takeWhile_append_of_pos hdigits]
    cases tail with
    | nil => simp
    | cons c tail =>
      rw [List.takeWhile_cons_of_neg (by simp [(htail c rfl).1]), List.append_nil]
  obtain ⟨c, ds, rfl⟩ := List.exists_cons_of_ne_nil hne
  have hc : isHex c = true := hdigits c List.mem_cons_self
  have hspace : (c :: ds ++ tail).dropWhile isSpace = c :: ds ++ tail :=
    List.dropWhile_cons_of_neg (by simp [isSpace_of_isHex hc])
  have hminus : (c :: ds ++ tail).head? ≠ some '-' := by
    simpa using ne_of_isHex hc (by decide)
  have hplus : (c :: ds ++ tail).head? ≠ some '+' := by
    simpa using ne_of_isHex hc (by decide)
  simp only [scanHex, hspace, hminus, hplus, or_self, if_false, hbase, Option.getD_none, htake, hne,
    false_and]
  rw [if_neg (Nat.not_le.mpr hvalue)]

end Numerals

end Arm2x86.Strings
