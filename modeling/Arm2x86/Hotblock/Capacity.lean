import Arm2x86.Hotblock.Model

/-!
# The buffers of the hot-block passes

Each turn of a pass moves the cursor by what it writes, and writes no more than a multiple of what it
goes past. The factors bound the four passes one after the other.
-/

namespace Arm2x86.Hotblock

open Rewriting X86

section Exactness

variable (s : Source) (src : Nat)

@[simp] theorem length_store (bs : List Byte) : (store bs).items.length = bs.length := rfl

@[simp] theorem advance_store (bs : List Byte) : (store bs).advance = bs.length := rfl

@[simp] theorem length_memcpy (i n advance : Nat) : (s.memcpy i n advance).items.length = n :=
  length_slice

@[simp] theorem advance_memcpy (i n advance : Nat) : (s.memcpy i n advance).advance = advance := rfl

@[simp] theorem length_imm64 (v : BitVec 64) : (imm64 v).length = 8 := rfl

/-- The bytes of a word of the source. -/
theorem slice_word32 (i : Nat) : slice s.bytes i 4 = imm32 (s.word32 i) := by
  rw [Source.word32, imm32_append]
  rfl

theorem slice_word64 (i : Nat) : slice s.bytes i 8 = imm64 (s.word64 i) := by
  rw [Source.word64, imm64_append, ← slice_word32, ← slice_word32]
  exact slice_append 4

theorem copyByte_exact : (s.copyByte src).Exact := by simp [Turn.Exact, Source.copyByte]

theorem constantPropagationTurn_exact (facts : Facts) :
    (constantPropagationTurn s facts src).1.Exact := by
  unfold constantPropagationTurn
  split
  · simp [Turn.Exact]
  · dsimp only
    split
    · simp [Turn.Exact, constantTurn]
    · split
      · simp [Turn.Exact, constantTurn]
      · exact copyByte_exact s src

theorem deadCodeTurn_exact : (deadCodeTurn s src).Exact := by
  unfold deadCodeTurn
  split_ifs
  · simp [Turn.Exact]
  · simp [Turn.Exact]
  · simp [Turn.Exact]
  · simp [Turn.Exact]
  · exact copyByte_exact s src

theorem fusionTurn_exact : (fusionTurn s src).Exact := by
  unfold fusionTurn
  split
  · next f _ => cases f <;> simp [Turn.Exact, Fusion.emits]
  · exact copyByte_exact s src

end Exactness

/-- The code with the bytes behind it that a pattern can go on into. -/
def Source.code (s : Source) : List Byte := slice s.bytes 0 (s.size + 13)

section Unrolling

variable {s : Source} {start body : Nat}

/-- The body is what is in front of the first `LOOP` byte that has two bytes behind it. -/
theorem findLoop_eq_some (h : findLoop s start = some body) :
    start + body + 2 < s.size ∧ s.bytes (start + body) = 0xe2 ∧
      ∀ k < body, s.bytes (start + k) ≠ 0xe2 := by
  rw [findLoop, List.find?_range_eq_some] at h
  obtain ⟨hloop, hmem, hfirst⟩ := h
  rw [List.mem_range] at hmem
  refine ⟨by omega, by simpa using hloop, ?_⟩
  intro k hk
  simpa using hfirst k hk

/-- What is written for a loop has at most nine bodies and seven bytes. -/
def Bounded (body : Nat) (emits : List (Emit Byte)) : Prop :=
  (∀ e ∈ emits, e.advance = e.items.length) ∧ (emits.flatMap Emit.items).length ≤ 9 * body + 7

theorem length_copies (n : Nat) : ((copies s n start body).flatMap Emit.items).length = n * body := by
  induction n with
  | zero => simp [copies]
  | succ n ih =>
    rw [copies, List.replicate_succ, List.flatMap_cons, List.length_append, ← copies, ih,
      length_memcpy, Nat.succ_mul, Nat.add_comm]

theorem advance_copies {n : Nat} : ∀ e ∈ copies s n start body, e.advance = e.items.length := by
  intro e he
  obtain rfl := List.eq_of_mem_replicate he
  simp

theorem bounded_copies {n : Nat} (hn : n ≤ 8) : Bounded body (copies s n start body) := by
  refine ⟨advance_copies, ?_⟩
  rw [length_copies]
  have := Nat.mul_le_mul_right body hn
  omega

theorem bounded_remaining {n : Nat} {tail : List (Emit Byte)} (hn : n ≤ 8)
    (hadvance : ∀ e ∈ tail, e.advance = e.items.length)
    (hlen : (tail.flatMap Emit.items).length = body + 7) :
    Bounded body (copies s n start body ++ tail) := by
  constructor
  · intro e he
    rcases List.mem_append.mp he with he | he
    · exact advance_copies e he
    · exact hadvance e he
  · rw [List.flatMap_append, List.length_append, length_copies, hlen]
    have := Nat.mul_le_mul_right body hn
    omega

theorem remainingLoop_exact (remaining : BitVec 32) :
    (∀ e ∈ remainingLoop s remaining start body, e.advance = e.items.length) ∧
      ((remainingLoop s remaining start body).flatMap Emit.items).length = body + 7 := by
  simp [remainingLoop, loopBack, imm32]
  omega

theorem remainingLoop8_exact (remaining : Byte) :
    (∀ e ∈ remainingLoop8 s remaining start body, e.advance = e.items.length) ∧
      ((remainingLoop8 s remaining start body).flatMap Emit.items).length = body + 7 := by
  simp [remainingLoop8, loopBack]
  omega

theorem unrolled_bounded {n : BitVec 32} {emits : List (Emit Byte)}
    (h : unrolled s n start body = some emits) : Bounded body emits := by
  unfold unrolled at h
  obtain ⟨hadvance, hlen⟩ := @remainingLoop_exact s start body (n - 8)
  obtain ⟨hadvance', hlen'⟩ := @remainingLoop_exact s start body (n - 4)
  split_ifs at h with hn <;> cases h
  · exact bounded_copies (BitVec.le_def.mp hn)
  · exact bounded_remaining (by decide) hadvance hlen
  · exact bounded_remaining (by decide) hadvance' hlen'

theorem unrolled8_bounded {n : Byte} {emits : List (Emit Byte)}
    (h : unrolled8 s n start body = some emits) : Bounded body emits := by
  unfold unrolled8 at h
  obtain ⟨hadvance, hlen⟩ := @remainingLoop8_exact s start body (n - 8)
  split_ifs at h with hn <;> cases h
  · exact bounded_copies (BitVec.le_def.mp hn)
  · exact bounded_remaining (by decide) hadvance hlen

end Unrolling

section Turns

/-- What a turn keeps to: it writes at most `b` bytes for `a` that it goes past, and it goes at most `k`
bytes over the end. -/
structure Keeps (a b k size src : Nat) (t : Turn Byte) : Prop where
  exact : t.Exact
  grows : a * t.items.length ≤ b * t.len
  ends : src < size → src + t.len ≤ size + k

variable (s : Source) (src : Nat)

theorem copyByte_keeps {a b : Nat} (hab : a ≤ b) (k : Nat) :
    Keeps a b k s.size src (s.copyByte src) := by
  refine ⟨copyByte_exact s src, ?_, ?_⟩
  · simpa [Source.copyByte, Turn.items] using hab
  · intro h
    show src + 1 ≤ s.size + k
    omega

theorem deadCodeTurn_keeps : Keeps 1 1 3 s.size src (deadCodeTurn s src) := by
  refine ⟨deadCodeTurn_exact s src, ?_, ?_⟩
  · unfold deadCodeTurn
    split_ifs <;> simp [Turn.items, Source.copyByte]
  · unfold deadCodeTurn Source.copyByte
    intro h
    split_ifs <;> dsimp only <;> omega

theorem constantPropagationTurn_keeps (facts : Facts) :
    Keeps 3 10 9 s.size src (constantPropagationTurn s facts src).1 := by
  refine ⟨constantPropagationTurn_exact s src facts, ?_, ?_⟩
  · unfold constantPropagationTurn
    split
    · simp [Turn.items]
    · dsimp only
      split
      · simp [Turn.items, constantTurn]
      · split
        · simp [Turn.items, constantTurn]
        · simp [Turn.items, Source.copyByte]
  · intro h
    unfold constantPropagationTurn
    split
    · dsimp only
      omega
    · dsimp only
      split
      · dsimp only [constantTurn]
        omega
      · split
        · dsimp only [constantTurn]
          omega
        · dsimp only [Source.copyByte]
          omega

theorem fusionTurn_keeps : Keeps 1 1 13 s.size src (fusionTurn s src) := by
  refine ⟨fusionTurn_exact s src, ?_, ?_⟩
  · unfold fusionTurn
    split
    · next f _ => cases f <;> simp [Turn.items, Fusion.emits, Fusion.len]
    · simp [Turn.items, Source.copyByte]
  · intro h
    unfold fusionTurn Source.copyByte
    split
    · next f _ =>
      cases f <;> dsimp only [Fusion.len] <;> omega
    · dsimp only
      omega

/-- A loop that is unrolled. -/
theorem unrolledTurn_keeps {head body : Nat} {emits : List (Emit Byte)} (hemits : Bounded body emits)
    (hhead : 1 ≤ head) (hend : src + head + body + 2 < s.size) {hpos : 0 < head + body + 2} :
    Keeps 1 9 0 s.size src ⟨emits, head + body + 2, 1, hpos⟩ := by
  refine ⟨hemits.1, ?_, ?_⟩
  · have hlen := hemits.2
    show 1 * (emits.flatMap Emit.items).length ≤ 9 * (head + body + 2)
    omega
  · intro _
    show src + (head + body + 2) ≤ s.size + 0
    omega

theorem unrollMovEcx_keeps {t : Turn Byte} (h : unrollMovEcx s src = some t) :
    Keeps 1 9 0 s.size src t := by
  have hcopy : Keeps 1 9 0 s.size src (s.copyByte src) := copyByte_keeps s src (by decide) 0
  unfold unrollMovEcx at h
  split_ifs at h
  dsimp only at h
  split at h
  · cases h
    exact hcopy
  · next body hbody =>
    obtain ⟨hend, -, -⟩ := findLoop_eq_some hbody
    split_ifs at h
    · cases h
      exact unrolledTurn_keeps s src ⟨by simp, by simp⟩ (by decide) (by omega)
    · cases h
      exact hcopy
    · cases h
      exact hcopy
    · obtain ⟨emits, hemits, rfl⟩ := Option.map_eq_some_iff.mp h
      exact unrolledTurn_keeps s src (unrolled_bounded hemits) (by decide) (by omega)

theorem unrollXorEcx_keeps {t : Turn Byte} (h : unrollXorEcx s src = some t) :
    Keeps 1 9 0 s.size src t := by
  unfold unrollXorEcx at h
  split_ifs at h
  split at h
  · cases h
  · next body hbody =>
    obtain ⟨hend, -, -⟩ := findLoop_eq_some hbody
    split_ifs at h
    obtain ⟨emits, hemits, rfl⟩ := Option.map_eq_some_iff.mp h
    exact unrolledTurn_keeps s src (unrolled8_bounded hemits) (by decide) (by omega)

theorem unrollTurn_keeps : Keeps 1 9 0 s.size src (unrollTurn s src) := by
  have hcopy : Keeps 1 9 0 s.size src (s.copyByte src) := copyByte_keeps s src (by decide) 0
  unfold unrollTurn
  split
  · split
    · next t ht => exact unrollMovEcx_keeps s src ht
    · split
      · next t ht => exact unrollXorEcx_keeps s src ht
      · exact hcopy
  · exact hcopy

end Turns

section Pipeline

variable {σ : Type}

/-- A pass whose turns keep to a bound. -/
theorem rewrite_bounded {step : σ → Nat → Turn Byte × σ} {a b k size : Nat}
    (h : ∀ s src, Keeps a b k size src (step s src).1) (s : σ) (buf : Nat → Byte) :
    (rewrite step s size buf).Exact ∧ a * (rewrite step s size buf).dst ≤ b * (size + k) := by
  have hexact : ∀ s src, (step s src).1.Exact := fun s src ↦ (h s src).exact
  refine ⟨rewrite_exact hexact, ?_⟩
  rw [rewrite_dst hexact]
  exact length_turns_le (fun s src ↦ (h s src).grows) fun s src ↦ (h s src).ends

variable (s : Source) (buf : Nat → Byte)

theorem deadCodeElimination_bounded :
    (optimizeDeadCodeElimination s buf).Exact ∧
      1 * (optimizeDeadCodeElimination s buf).dst ≤ 1 * (s.size + 3) := by
  unfold optimizeDeadCodeElimination
  exact rewrite_bounded (fun _ src ↦ deadCodeTurn_keeps s src) () buf

theorem constantPropagation_bounded :
    (optimizeConstantPropagation s buf).Exact ∧
      3 * (optimizeConstantPropagation s buf).dst ≤ 10 * (s.size + 9) := by
  unfold optimizeConstantPropagation
  exact rewrite_bounded (fun facts src ↦ constantPropagationTurn_keeps s src facts) _ buf

theorem instructionFusion_bounded :
    (optimizeInstructionFusion s buf).Exact ∧
      1 * (optimizeInstructionFusion s buf).dst ≤ 1 * (s.size + 13) := by
  unfold optimizeInstructionFusion
  exact rewrite_bounded (fun _ src ↦ fusionTurn_keeps s src) () buf

theorem loopUnrolling_bounded :
    (optimizeLoopUnrolling s buf).Exact ∧
      1 * (optimizeLoopUnrolling s buf).dst ≤ 9 * (s.size + 0) := by
  unfold optimizeLoopUnrolling
  exact rewrite_bounded (fun _ src ↦ unrollTurn_keeps s src) () buf

/-- The outputs so far are exact and within their buffers, and the code has at most `n` bytes. -/
structure Optimized.Fits (o : Optimized) (n : Nat) : Prop where
  outputs : ∀ out ∈ o.outputs, out.Exact ∧ out.dst ≤ bufferSize
  size : o.code.size ≤ n

/-- A phase after which the code has at most `n'` bytes. -/
theorem Optimized.Fits.phase {o : Optimized} {n n' : Nat}
    {pass : Source → (Nat → Byte) → Output Byte} (h : o.Fits n)
    (hpass : ∀ s buf, s.size ≤ n → (pass s buf).Exact ∧ (pass s buf).dst ≤ n')
    (hn : n ≤ n') (hn' : n' ≤ bufferSize) (buf : Option (Nat → Byte)) :
    (o.phase pass buf).Fits n' := by
  cases buf with
  | none => exact ⟨h.outputs, Nat.le_trans h.size hn⟩
  | some buf =>
    obtain ⟨hexact, hdst⟩ := hpass o.code buf h.size
    have houtputs : ∀ out ∈ o.outputs ++ [pass o.code buf], out.Exact ∧ out.dst ≤ bufferSize := by
      intro out hout
      rcases List.mem_append.mp hout with hout | hout
      · exact h.outputs out hout
      · obtain rfl := List.mem_singleton.mp hout
        exact ⟨hexact, Nat.le_trans hdst hn'⟩
    unfold Optimized.phase
    dsimp only
    split
    · exact ⟨houtputs, hdst⟩
    · exact ⟨houtputs, Nat.le_trans h.size hn⟩

/-- The code grows to at most 259, 893, 906 and 8154 bytes. -/
theorem applyOptimizations_fits (entry : Nat → Byte) (buf₁ buf₂ buf₃ buf₄ : Option (Nat → Byte)) :
    (applyOptimizations entry buf₁ buf₂ buf₃ buf₄).Fits 8154 := by
  have hstart : (Optimized.mk [] ⟨entry, 256⟩ 0).Fits 256 := ⟨by simp, Nat.le_refl _⟩
  have hdead : ∀ s buf, s.size ≤ 256 → (optimizeDeadCodeElimination s buf).Exact ∧
      (optimizeDeadCodeElimination s buf).dst ≤ 259 := by
    intro s buf hs
    obtain ⟨hexact, hdst⟩ := deadCodeElimination_bounded s buf
    exact ⟨hexact, by omega⟩
  have hconst : ∀ s buf, s.size ≤ 259 → (optimizeConstantPropagation s buf).Exact ∧
      (optimizeConstantPropagation s buf).dst ≤ 893 := by
    intro s buf hs
    obtain ⟨hexact, hdst⟩ := constantPropagation_bounded s buf
    exact ⟨hexact, by omega⟩
  have hfusion : ∀ s buf, s.size ≤ 893 → (optimizeInstructionFusion s buf).Exact ∧
      (optimizeInstructionFusion s buf).dst ≤ 906 := by
    intro s buf hs
    obtain ⟨hexact, hdst⟩ := instructionFusion_bounded s buf
    exact ⟨hexact, by omega⟩
  have hunroll : ∀ s buf, s.size ≤ 906 → (optimizeLoopUnrolling s buf).Exact ∧
      (optimizeLoopUnrolling s buf).dst ≤ 8154 := by
    intro s buf hs
    obtain ⟨hexact, hdst⟩ := loopUnrolling_bounded s buf
    exact ⟨hexact, by omega⟩
  unfold applyOptimizations
  have h₁ := hstart.phase hdead (by decide) (by decide) buf₁
  have h₂ := h₁.phase hconst (by decide) (by decide) buf₂
  have h₃ := h₂.phase hfusion (by decide) (by decide) buf₃
  exact h₃.phase hunroll (by decide) (by decide) buf₄

/-- Every pass that is run keeps to its buffer, and the size that it reports is the number of bytes that
it has written. -/
theorem applyOptimizations_in_buffers (entry : Nat → Byte)
    (buf₁ buf₂ buf₃ buf₄ : Option (Nat → Byte)) :
    ∀ out ∈ (applyOptimizations entry buf₁ buf₂ buf₃ buf₄).outputs,
      out.reach ≤ bufferSize ∧ out.written ≤ bufferSize ∧ out.dst = out.written := by
  intro out hout
  obtain ⟨hexact, hdst⟩ := (applyOptimizations_fits entry buf₁ buf₂ buf₃ buf₄).outputs out hout
  rw [hexact.reach, hexact.written]
  exact ⟨hdst, hdst, rfl⟩

/-- The first pass over zeros. -/
theorem deadCodeElimination_zeros_in_buffer :
    let out := optimizeDeadCodeElimination ⟨fun _ ↦ 0, 256⟩ fun _ ↦ 0
    out.reach ≤ bufferSize ∧ out.written ≤ bufferSize ∧ out.dst = out.written := by
  apply applyOptimizations_in_buffers (fun _ ↦ 0) (some fun _ ↦ 0) none none none
  unfold applyOptimizations Optimized.phase
  dsimp only
  split <;> simp

end Pipeline

end Arm2x86.Hotblock
