import Arm2x86.Peephole.Model

/-!
# How far the patterns look

The bytes that the rules and the instruction length look at where no rule matches.
-/

namespace Arm2x86.Peephole

section Looks

variable {α β : Type} (p : Nat → Byte)

@[simp] theorem run_pure (a : α) : (pure a : Look α).run p = (a, 0) := rfl

@[simp] theorem run_bind (x : Look α) (f : α → Look β) :
    (x >>= f).run p =
      (((f (x.run p).1).run p).1, max (x.run p).2 ((f (x.run p).1).run p).2) := rfl

@[simp] theorem run_byte (i : Nat) : (byte i).run p = (p i, i + 1) := rfl

@[simp] theorem run_ite {c : Prop} {_ : Decidable c} (x y : Look α) :
    (if c then x else y).run p = if c then x.run p else y.run p := by
  split <;> rfl

/-- A choice between results reads nothing. -/
@[simp] theorem run_ite_pure_snd {c : Prop} {_ : Decidable c} (a b : α) :
    ((if c then pure a else pure b : Look α).run p).2 = 0 := by
  split <;> rfl

@[simp] theorem run_word_snd (i n : Nat) : ((word i n).run p).2 = i + n := rfl

@[simp] theorem run_later_snd (n : Nat) (x : Look α) :
    ((later n x).run p).2 = n + (x.run fun i ↦ p (n + i)).2 := rfl

end Looks

section Reach

variable (p : Nat → Byte)

/-- The bytes that the addition of a byte is looked for in. -/
def addImm8Reach : Nat :=
  if p 0 = 0x48#8 then
    if p 1 = 0x83#8 then if isExtension 0#8 (p 2) then 4 else 3 else 2
  else if p 0 = 0x83#8 then if isExtension 0#8 (p 1) then 3 else 2
  else 1

/-- The bytes that are looked at where no rule matches. -/
def lookahead : Nat :=
  if p 0 = 0x48#8 then
    if p 1 &&& 0xf8#8 = 0xb8#8 then 10 + addImm8Reach fun i ↦ p (10 + i)
    else if p 1 = 0x83#8 then
      if isExtension 0#8 (p 2) ∨ isExtension 5#8 (p 2) then 4 else 3
    else if p 1 = 0x81#8 then if isExtension 7#8 (p 2) then 7 else 3
    else if p 1 = 0x31#8 ∨ p 1 = 0x89#8 then 3
    else 2
  else if isRex (p 0) then if p 1 = 0x89#8 then 3 else 2
  else if p 0 &&& 0xf8#8 = 0xb8#8 then 5
  else if p 0 = 0x83#8 then addImm8Reach p
  else if p 0 = 0x31#8 ∨ p 0 = 0x89#8 ∨ p 0 = 0x0f#8 ∨ p 0 = 0xc7#8 then 2
  else 1

theorem isAddImm8_snd : (isAddImm8.run p).2 = addImm8Reach p := by
  unfold isAddImm8 addImm8Reach
  by_cases h48 : p 0 = 0x48#8
  · by_cases h83 : p 1 = 0x83#8
    · by_cases hm : isExtension 0#8 (p 2) <;> simp [h48, h83, hm]
    · simp [h48, h83]
  · by_cases h83 : p 0 = 0x83#8
    · by_cases hm : isExtension 0#8 (p 1) <;> simp [h83, hm]
    · simp [h48, h83]

theorem isXorZero_snd :
    (isXorZero.run p).2 =
      if p 0 = 0x48#8 then if p 1 = 0x31#8 then 3 else 2 else if p 0 = 0x31#8 then 2 else 1 := by
  unfold isXorZero
  by_cases h48 : p 0 = 0x48#8
  · by_cases h31 : p 1 = 0x31#8 <;> simp [h48, h31, apply_ite Prod.snd]
  · by_cases h31 : p 0 = 0x31#8 <;> simp [h48, h31, apply_ite Prod.snd]

theorem isMovZero64_snd :
    (isMovZero64.run p).2 =
      if p 0 = 0x48#8 then if p 1 &&& 0xf8#8 = 0xb8#8 then 10 else 2 else 1 := by
  unfold isMovZero64
  by_cases h48 : p 0 = 0x48#8
  · by_cases hb8 : p 1 &&& 0xf8#8 = 0xb8#8 <;> simp [h48, hb8, apply_ite Prod.snd]
  · simp [h48]

theorem isMovZero32_snd :
    (isMovZero32.run p).2 = if p 0 &&& 0xf8#8 = 0xb8#8 then 5 else 1 := by
  unfold isMovZero32 isRexW
  by_cases hb8 : p 0 &&& 0xf8#8 = 0xb8#8 <;> simp [hb8, apply_ite Prod.snd]

theorem optimizeSubZero_snd :
    (optimizeSubZero.run p).2 =
      if p 0 = 0x48#8 then
        if p 1 = 0x83#8 then if isExtension 5#8 (p 2) then 4 else 3 else 2
      else 1 := by
  unfold optimizeSubZero
  by_cases h48 : p 0 = 0x48#8
  · by_cases h83 : p 1 = 0x83#8
    · by_cases hm : isExtension 5#8 (p 2) <;> simp [h48, h83, hm]
    · simp [h48, h83]
  · simp [h48]

theorem optimizeCmpZero_snd :
    (optimizeCmpZero.run p).2 =
      if p 0 = 0x48#8 then
        if p 1 = 0x81#8 then if isExtension 7#8 (p 2) then 7 else 3 else 2
      else 1 := by
  unfold optimizeCmpZero
  by_cases h48 : p 0 = 0x48#8
  · by_cases h81 : p 1 = 0x81#8
    · by_cases hm : isExtension 7#8 (p 2) <;> simp [h48, h81, hm, apply_ite Prod.snd]
    · simp [h48, h81]
  · simp [h48]

theorem isMovReg_snd :
    (isMovReg.run p).2 =
      if isRex (p 0) then if p 1 = 0x89#8 then 3 else 2 else if p 0 = 0x89#8 then 2 else 1 := by
  unfold isMovReg
  by_cases hrex : isRex (p 0)
  · by_cases h89 : p 1 = 0x89#8 <;> simp [hrex, h89, apply_ite Prod.snd]
  · by_cases h89 : p 0 = 0x89#8
    · simp [h89, isRex, apply_ite Prod.snd]
    · simp [hrex, h89]

theorem rexInstrLen_snd : (rexInstrLen.run p).2 = if isRex (p 0) then 2 else 1 := by
  unfold rexInstrLen
  by_cases hrex : isRex (p 0) <;> simp [hrex, apply_ite Prod.snd]

theorem plainInstrLen_snd :
    (plainInstrLen.run p).2 = if p 0 = 0x0f#8 ∨ p 0 = 0xc7#8 then 2 else 1 := by
  unfold plainInstrLen
  by_cases h0f : p 0 = 0x0f#8
  · simp [h0f]
  · by_cases hc7 : p 0 = 0xc7#8 <;> simp [h0f, hc7, apply_ite Prod.snd]

theorem rexInstrLen_fst (h : isRex (p 0) = false) : (rexInstrLen.run p).1 = none := by
  unfold rexInstrLen
  simp [h]

theorem getInstrLen_snd :
    (getInstrLen.run p).2 = if isRex (p 0) ∨ p 0 = 0x0f#8 ∨ p 0 = 0xc7#8 then 2 else 1 := by
  have hrex := rexInstrLen_snd p
  have hplain := plainInstrLen_snd p
  unfold getInstrLen
  rw [run_bind]
  by_cases h : isRex (p 0)
  · rw [if_pos h] at hrex
    rw [if_pos (Or.inl h), hrex]
    cases (rexInstrLen.run p).1
    · simp only [hplain]
      split <;> rfl
    · rfl
  · rw [if_neg h] at hrex
    rw [rexInstrLen_fst p (by simpa using h), hrex]
    simp only [hplain, h, Bool.false_eq_true, false_or]
    split <;> rfl

theorem rexInstrLen_pos {len : Nat} (h : (rexInstrLen.run p).1 = some len) : 0 < len := by
  unfold rexInstrLen at h
  simp only [run_bind, run_ite, run_pure, apply_ite Prod.fst] at h
  split_ifs at h <;> cases h <;> omega

theorem plainInstrLen_pos : 0 < (plainInstrLen.run p).1 := by
  unfold plainInstrLen
  simp only [run_bind, run_ite, run_pure, apply_ite Prod.fst]
  split_ifs <;> omega

theorem getInstrLen_pos : 0 < (getInstrLen.run p).1 := by
  unfold getInstrLen
  rw [run_bind]
  cases h : (rexInstrLen.run p).1 with
  | some len => exact rexInstrLen_pos p h
  | none => exact plainInstrLen_pos p

variable {p}

theorem firstRule_none {rs : List (Look (Option Rewrite))} :
    ((firstRule rs).run p).1 = none ↔ ∀ rule ∈ rs, (rule.run p).1 = none := by
  induction rs with
  | nil => simp [firstRule]
  | cons rule rs ih =>
    rw [List.forall_mem_cons, ← ih, firstRule, run_bind]
    cases (rule.run p).1 <;> simp

/-- Every rule is tried where none matches. -/
theorem firstRule_snd {rs : List (Look (Option Rewrite))} (h : ∀ rule ∈ rs, (rule.run p).1 = none) :
    ((firstRule rs).run p).2 = (rs.map fun rule ↦ (rule.run p).2).foldr max 0 := by
  induction rs with
  | nil => rfl
  | cons rule rs ih =>
    rw [List.forall_mem_cons] at h
    rw [firstRule, run_bind, h.1, List.map_cons, List.foldr_cons, ← ih h.2]

/-- `is_mov_zero` makes all of its tests where it does not match. -/
theorem isMovZero_none (h : (isMovZero.run p).1 = none) :
    (isXorZero.run p).1 = none ∧ (isMovZero.run p).2 =
      max (isXorZero.run p).2 (max (isMovZero64.run p).2 (isMovZero32.run p).2) := by
  unfold isMovZero at *
  rw [run_bind] at *
  cases hxor : (isXorZero.run p).1 with
  | some reg =>
    rw [hxor] at h
    cases h
  | none =>
    rw [hxor] at h
    simp only [run_bind] at h ⊢
    cases h64 : (isMovZero64.run p).1 with
    | some reg =>
      rw [h64] at h
      cases h
    | none => exact ⟨trivial, rfl⟩

theorem optimizeMovZero_none (h : (optimizeMovZero.run p).1 = none) :
    (isMovZero.run p).1 = none ∧ (optimizeMovZero.run p).2 = (isMovZero.run p).2 := by
  unfold optimizeMovZero at *
  cases hmov : (isMovZero.run p).1 with
  | none => simp [hmov]
  | some reg =>
    rw [run_bind, hmov] at h
    simp only [run_bind, run_ite] at h
    split at h <;> cases h

theorem optimizeXorMov_snd (h : (isXorZero.run p).1 = none) :
    (optimizeXorMov.run p).2 = (isXorZero.run p).2 := by
  unfold optimizeXorMov
  simp [h]

theorem optimizeAddZero_snd : (optimizeAddZero.run p).2 = addImm8Reach p := by
  unfold optimizeAddZero
  rw [run_bind, isAddImm8_snd]
  cases (isAddImm8.run p).1 <;> simp

theorem optimizeRedundantMov_snd :
    (optimizeRedundantMov.run p).2 = (isMovReg.run p).2 := by
  have hpos : 1 ≤ (isMovReg.run p).2 := by
    rw [isMovReg_snd]
    split_ifs <;> omega
  unfold optimizeRedundantMov
  rw [run_bind]
  cases (isMovReg.run p).1 with
  | none => simp
  | some regs => 
    simp [apply_ite Prod.snd]
    split <;> omega

theorem optimizeMovAdd_snd :
    (optimizeMovAdd.run p).2 =
      if p 0 = 0x48#8 then
        if p 1 &&& 0xf8#8 = 0xb8#8 then 10 + addImm8Reach fun i ↦ p (10 + i) else 2
      else 1 := by
  unfold optimizeMovAdd isMovImm64
  by_cases h48 : p 0 = 0x48#8
  · by_cases hb8 : p 1 &&& 0xf8#8 = 0xb8#8
    · cases hadd : ((later 10 isAddImm8).run p).1
      all_goals
        simp [h48, hb8, isAddImm8_snd, hadd, apply_ite Prod.snd]
        omega
    · simp [h48, hb8]
  · simp [h48]

/-- Where no rule matches, the bytes looked at are those of the patterns. -/
theorem lookahead_eq (h : ((firstRule rules).run p).1 = none) :
    max ((firstRule rules).run p).2 (getInstrLen.run p).2 = lookahead p := by
  rw [firstRule_none] at h
  obtain ⟨hnone, hmov⟩ := optimizeMovZero_none (h _ (List.mem_cons_self ..))
  obtain ⟨hxor, hreach⟩ := isMovZero_none hnone
  rw [firstRule_snd h]
  simp only [rules, List.map_cons, List.map_nil, List.foldr_cons, List.foldr_nil]
  rw [hmov, hreach, optimizeXorMov_snd hxor, optimizeAddZero_snd, optimizeSubZero_snd, optimizeCmpZero_snd,
    optimizeRedundantMov_snd, isXorZero_snd, isMovZero64_snd, isMovZero32_snd, isMovReg_snd,
    optimizeMovAdd_snd, getInstrLen_snd]
  unfold lookahead
  by_cases h48 : p 0 = 0x48#8
  · simp only [h48, isRex, addImm8Reach, if_true]
    by_cases h31 : p 1 = 0x31#8
    · simp [h31]
    · by_cases h81 : p 1 = 0x81#8
      · simp [h81]
        split <;> omega
      · by_cases h83 : p 1 = 0x83#8
        · simp [h83]
          split_ifs <;> simp_all
        · simp [h31, h81, h83]
          split_ifs <;> omega
  · by_cases hrex : isRex (p 0)
    · have hne : ∀ b : Byte, isRex b = true → b &&& 0xf8#8 ≠ 0xb8#8 ∧ b ≠ 0x31#8 ∧ b ≠ 0x83#8 := by
        decide
      obtain ⟨hb8, h31, h83⟩ := hne _ hrex
      simp only [h48, hrex, hb8, h31, h83, addImm8Reach, if_true, if_false, true_or]
      split <;> rfl
    · simp only [h48, hrex, addImm8Reach, if_false, Bool.false_eq_true, false_or]
      by_cases hb8 : p 0 &&& 0xf8#8 = 0xb8#8
      · have hne : ∀ b : Byte, b &&& 0xf8#8 = 0xb8#8 →
            b ≠ 0x31#8 ∧ b ≠ 0x83#8 ∧ b ≠ 0x89#8 ∧ b ≠ 0x0f#8 ∧ b ≠ 0xc7#8 := by
          decide
        obtain ⟨h31, h83, h89, h0f, hc7⟩ := hne _ hb8
        simp [hb8, h31, h83, h89, h0f, hc7]
      · by_cases h83 : p 0 = 0x83#8
        · simp [h83]
          split <;> omega
        · simp only [hb8, h83, if_false]
          by_cases h31 : p 0 = 0x31#8
          · simp [h31]
          · by_cases h89 : p 0 = 0x89#8
            · simp [h89]
            · simp only [h31, h89, if_false, false_or]
              split <;> rfl

end Reach

end Arm2x86.Peephole
