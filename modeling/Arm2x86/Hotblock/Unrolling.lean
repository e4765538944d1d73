import Arm2x86.Hotblock.Capacity
import Arm2x86.X86.Rounds

/-!
# Loop unrolling

A counted loop and what the pass makes of it, from the same state: how many times each goes through the
body, and what each leaves in `RCX`. A loop is kept where the pass copies it, and where it counts to nine,
which leaves one round for the loop behind the eight copies.
-/

namespace Arm2x86.Hotblock

open Rewriting X86

section Statement

/-- The counts that are unrolled, for a body of some bytes. -/
def CountUnrolled (n : BitVec 32) (body : Nat) : Prop :=
  n ≤ 8 ∧ n.toNat * body < 1024 ∨ 8 < n ∧ n ≤ 32 ∧ 8 * body + 7 < 2048 ∨
    32 < n ∧ n ≤ 64 ∧ 4 * body + 7 < 2048

/-- An index at which one of the two patterns is found and unrolled, with the bytes that are gone past. -/
inductive Unrolls (s : Source) (src : Nat) : Nat → Prop
  | movEcx {body : Nat} (hroom : src + 10 < s.size) (hop : s.bytes src = 0xb9)
      (hloop : findLoop s (src + 5) = some body)
      (hcount : s.word32 (src + 1) = 0 ∨ body ≠ 0 ∧ hasControlFlow s (src + 5) body = false ∧
        CountUnrolled (s.word32 (src + 1)) body) :
      Unrolls s src (5 + body + 2)
  | xorEcx {body : Nat} (hroom : src + 10 < s.size)
      (hop : s.bytes src = 0x31 ∧ s.bytes (src + 1) = 0xc9 ∧ s.bytes (src + 2) = 0xb0)
      (hloop : findLoop s (src + 4) = some body)
      (hcount : body ≠ 0 ∧ hasCf s (src + 4) body = false ∧ s.bytes (src + 3) ≤ 32) :
      Unrolls s src (4 + body + 2)

/-- The indices that the pass comes to. -/
inductive UnrollComes (s : Source) : Nat → Prop
  | start : UnrollComes s 0
  | copied {src : Nat} (h : UnrollComes s src) (hlt : src < s.size)
      (hnone : ∀ len, ¬ Unrolls s src len) : UnrollComes s (src + 1)
  | unrolled {src len : Nat} (h : UnrollComes s src) (hlt : src < s.size)
      (hunrolls : Unrolls s src len) : UnrollComes s (src + len)

/-- Where the pass comes to in its input and in its output. -/
abbrev UnrollReached (s : Source) : Nat → Nat → Prop :=
  Reached (fun (_ : Unit) src ↦ (unrollTurn s src, ())) s.size () ()

variable {sem : Semantics}

/-- The bytes of a loop. -/
def loopLen (c : Counter) (b : LoopBody sem) : Nat := c.bytes.length + b.len + 2

/-- A counted loop in the code: its counter, its body, and `LOOP` back to the body. -/
structure CountedLoop (s : Source) (src : Nat) (c : Counter) (b : LoopBody sem) : Prop where
  stands : slice s.bytes src (loopLen c b) =
    c.bytes ++ (b.bytes ++ [0xe2, BitVec.ofInt 8 (-((b.len : Int) + 2))])
  near : b.len + 2 ≤ 128
  inside : src + loopLen c b ≤ s.size

/-- From each state, the output behind the index of a loop goes through the body as often as the loop and
comes to its end with the same value in `RCX`. -/
def UnrolledRight (s : Source) (buf : Nat → Byte) (base base' : BitVec 64) (src : Nat) (c : Counter)
    (b : LoopBody sem) : Prop :=
  let out := optimizeLoopUnrolling s buf
  ∃ dst dst', UnrollReached s src dst ∧ UnrollReached s (src + loopLen c b) dst' ∧
    ∀ (m : Machine) n m', Rounds (slice s.bytes 0 s.size) b (src + loopLen c b) n (m.moved src base) m' →
      ∃ m'', Rounds (slice out.buf 0 out.dst) b dst' n (m.moved dst base') m'' ∧
        m''.regs 1 = m'.regs 1

/-- When a loop is kept. -/
def LoopKept (s : Source) (src : Nat) (c : Counter) (b : LoopBody sem) : Prop :=
  UnrollComes s src ∧ b.Movable ∧
    ((∀ i len, src ≤ i → i < src + loopLen c b → ¬ Unrolls s i len) ∨
      c = .ecx 9 ∧ Unrolls s src (loopLen c b))

/-- A loop whose body runs from each state and leaves memory alone, whose `LOOP` is the first one behind
its counter, and in which no other pattern is found. -/
structure PlainLoop (s : Source) (src : Nat) (c : Counter) (b : LoopBody sem) : Prop where
  movable : b.Movable
  total : ∀ m, ∃ m', b.run m = some m' ∧ m'.mem = m.mem
  near : b.len + 5 ≤ 128
  own : ∀ len, Unrolls s src len → len = loopLen c b
  inner : ∀ i len, src < i → i < src + loopLen c b → ¬ Unrolls s i len
  count : ∀ n, c = .al n → n ≤ 8

end Statement

section Turns

variable {s : Source} {src len : Nat}

/-- The three ranges of counts. -/
theorem unrolled_isSome {n : BitVec 32} {start body : Nat} :
    (unrolled s n start body).isSome ↔ CountUnrolled n body := by
  have h8 : (8 : BitVec 32).toNat = 8 := rfl
  have h32 : (32 : BitVec 32).toNat = 32 := rfl
  have h64 : (64 : BitVec 32).toNat = 64 := rfl
  unfold unrolled CountUnrolled
  simp only [BitVec.le_def, BitVec.lt_def, h8, h32, h64]
  split_ifs <;> simp only [Option.isSome_some, Option.isSome_none, Bool.false_eq_true, true_iff,
    false_iff] <;> omega

theorem unrolled8_isSome {n : Byte} {start body : Nat} :
    (unrolled8 s n start body).isSome ↔ n ≤ 32 := by
  unfold unrolled8
  have hle : n ≤ 8 → n ≤ 32 := fun h ↦ BitVec.le_trans h (by decide)
  split_ifs with h8 h32
  · exact iff_of_true rfl (hle h8)
  · exact iff_of_true rfl h32
  · exact iff_of_false (by simp) h32

/-- Pattern 1, where a `LOOP` is found. -/
theorem unrollMovEcx_of_loop {body : Nat} (hop : s.bytes src = 0xb9)
    (hloop : findLoop s (src + 5) = some body) :
    unrollMovEcx s src =
      if s.word32 (src + 1) = 0 then some ⟨[], 5 + body + 2, 1, movEcx_pos body⟩
      else if body = 0 then some (s.copyByte src)
      else if hasControlFlow s (src + 5) body then some (s.copyByte src)
      else (unrolled s (s.word32 (src + 1)) (src + 5) body).map fun emits ↦
        ⟨emits, 5 + body + 2, 1, movEcx_pos body⟩ := by
  unfold unrollMovEcx
  rw [if_pos hop]
  simp only [hloop]

/-- Pattern 2, where a `LOOP` is found. -/
theorem unrollXorEcx_of_loop {body : Nat}
    (hop : s.bytes src = 0x31 ∧ s.bytes (src + 1) = 0xc9 ∧ s.bytes (src + 2) = 0xb0)
    (hloop : findLoop s (src + 4) = some body) :
    unrollXorEcx s src =
      if body = 0 then none
      else if hasCf s (src + 4) body then none
      else (unrolled8 s (s.bytes (src + 3)) (src + 4) body).map fun emits ↦
        ⟨emits, 4 + body + 2, 1, xorEcx_pos body⟩ := by
  unfold unrollXorEcx
  rw [if_pos hop]
  simp only [hloop]

section Unrolled

variable {body : Nat} {emits : List (Emit Byte)}

/-- A loop that counts to nothing is left out. -/
theorem unrollTurn_zero (hroom : src + 10 < s.size) (hop : s.bytes src = 0xb9)
    (hloop : findLoop s (src + 5) = some body) (hn : s.word32 (src + 1) = 0) :
    unrollTurn s src = ⟨[], 5 + body + 2, 1, movEcx_pos body⟩ := by
  unfold unrollTurn
  rw [if_pos hroom, unrollMovEcx_of_loop hop hloop, if_pos hn]

theorem unrollTurn_movEcx (hroom : src + 10 < s.size) (hop : s.bytes src = 0xb9)
    (hloop : findLoop s (src + 5) = some body) (hn : s.word32 (src + 1) ≠ 0) (hbody : body ≠ 0)
    (hflow : hasControlFlow s (src + 5) body = false)
    (hemits : unrolled s (s.word32 (src + 1)) (src + 5) body = some emits) :
    unrollTurn s src = ⟨emits, 5 + body + 2, 1, movEcx_pos body⟩ := by
  unfold unrollTurn
  rw [if_pos hroom, unrollMovEcx_of_loop hop hloop, if_neg hn, if_neg hbody, hflow, hemits]
  rfl

theorem unrollTurn_xorEcx (hroom : src + 10 < s.size)
    (hop : s.bytes src = 0x31 ∧ s.bytes (src + 1) = 0xc9 ∧ s.bytes (src + 2) = 0xb0)
    (hloop : findLoop s (src + 4) = some body) (hbody : body ≠ 0)
    (hflow : hasCf s (src + 4) body = false)
    (hemits : unrolled8 s (s.bytes (src + 3)) (src + 4) body = some emits) :
    unrollTurn s src = ⟨emits, 4 + body + 2, 1, xorEcx_pos body⟩ := by
  have hfirst : unrollMovEcx s src = none := by
    unfold unrollMovEcx
    rw [if_neg]
    rw [hop.1]
    decide
  unfold unrollTurn
  rw [if_pos hroom, hfirst, unrollXorEcx_of_loop hop hloop, if_neg hbody, hflow, hemits]
  rfl

end Unrolled

/-- A turn that unrolls goes past the loop. -/
theorem Unrolls.len_turn (h : Unrolls s src len) : (unrollTurn s src).len = len := by
  cases h with
  | @movEcx body hroom hop hloop hcount =>
    by_cases hn : s.word32 (src + 1) = 0
    · rw [unrollTurn_zero hroom hop hloop hn]
    · obtain ⟨hbody, hflow, hunrolled⟩ := hcount.resolve_left hn
      obtain ⟨emits, hemits⟩ := Option.isSome_iff_exists.mp (unrolled_isSome.mpr hunrolled)
      rw [unrollTurn_movEcx hroom hop hloop hn hbody hflow hemits]
  | @xorEcx body hroom hop hloop hcount =>
    obtain ⟨hbody, hflow, hle⟩ := hcount
    obtain ⟨emits, hemits⟩ := Option.isSome_iff_exists.mp (unrolled8_isSome.mpr hle)
    rw [unrollTurn_xorEcx hroom hop hloop hbody hflow hemits]

/-- An index at which nothing is unrolled. -/
theorem unrollTurn_copied (h : ∀ len, ¬ Unrolls s src len) : unrollTurn s src = s.copyByte src := by
  by_cases hroom : src + 10 < s.size
  · have hfirst : unrollMovEcx s src = none ∨ unrollMovEcx s src = some (s.copyByte src) := by
      by_cases hop : s.bytes src = 0xb9
      · cases hloop : findLoop s (src + 5) with
        | none =>
          right
          unfold unrollMovEcx
          rw [if_pos hop]
          simp only [hloop]
        | some body =>
          have hcount := fun hcount ↦ h _ (.movEcx hroom hop hloop hcount)
          rw [unrollMovEcx_of_loop hop hloop]
          split_ifs with hn hbody hflow
          · exact absurd (.inl hn) hcount
          · exact .inr rfl
          · exact .inr rfl
          · left
            rw [Option.map_eq_none_iff, ← Option.not_isSome_iff_eq_none, unrolled_isSome]
            intro hunrolled
            exact hcount (.inr ⟨hbody, Bool.eq_false_iff.mpr hflow, hunrolled⟩)
      · left
        unfold unrollMovEcx
        rw [if_neg hop]
    have hsecond : unrollXorEcx s src = none := by
      by_cases hop : s.bytes src = 0x31 ∧ s.bytes (src + 1) = 0xc9 ∧ s.bytes (src + 2) = 0xb0
      · cases hloop : findLoop s (src + 4) with
        | none =>
          unfold unrollXorEcx
          rw [if_pos hop]
          simp only [hloop]
        | some body =>
          have hcount := fun hcount ↦ h _ (.xorEcx hroom hop hloop hcount)
          rw [unrollXorEcx_of_loop hop hloop]
          split_ifs with hbody hflow
          · rfl
          · rfl
          · rw [Option.map_eq_none_iff, ← Option.not_isSome_iff_eq_none, unrolled8_isSome]
            intro hle
            exact hcount ⟨hbody, Bool.eq_false_iff.mpr hflow, hle⟩
      · unfold unrollXorEcx
        rw [if_neg hop]
    unfold unrollTurn
    rw [if_pos hroom, hsecond]
    rcases hfirst with hfirst | hfirst <;> rw [hfirst]
  · unfold unrollTurn
    rw [if_neg hroom]

/-- The pass comes to these indices. -/
theorem UnrollComes.reached (h : UnrollComes s src) : ∃ dst, UnrollReached s src dst := by
  induction h with
  | start => exact ⟨0, .start⟩
  | copied _ hlt hnone ih =>
    obtain ⟨dst, hreached⟩ := ih
    have hnext := hreached.turn hlt
    dsimp only at hnext
    rw [unrollTurn_copied hnone] at hnext
    exact ⟨_, hnext⟩
  | unrolled _ hlt hunrolls ih =>
    obtain ⟨dst, hreached⟩ := ih
    have hnext := hreached.turn hlt
    dsimp only at hnext
    rw [hunrolls.len_turn] at hnext
    exact ⟨_, hnext⟩

theorem UnrollComes.of_reached {u : Unit} {dst : Nat}
    (h : Reached (fun (_ : Unit) src ↦ (unrollTurn s src, ())) s.size () u src dst) :
    UnrollComes s src := by
  induction h with
  | start => exact .start
  | @turn _ src dst _ hlt ih =>
    dsimp only
    by_cases hunrolls : ∃ len, Unrolls s src len
    · obtain ⟨len, hunrolls⟩ := hunrolls
      rw [hunrolls.len_turn]
      exact ih.unrolled hlt hunrolls
    · rw [unrollTurn_copied (not_exists.mp hunrolls)]
      exact ih.copied hlt (not_exists.mp hunrolls)

end Turns

section Loops

variable {s : Source} {buf : Nat → Byte} {src dst : Nat} {c : Counter}
  {undef : Instr → Machine → Status} {rest : Instr → Machine → Option Machine}
  {b : LoopBody (.core (placeless undef) rest)} {base base' : BitVec 64}

/-- The code that the pass produces. -/
def unrolledCode (s : Source) (buf : Nat → Byte) : List Byte :=
  slice (optimizeLoopUnrolling s buf).buf 0 (optimizeLoopUnrolling s buf).dst

theorem unrolledCode_eq (s : Source) (buf : Nat → Byte) :
    unrolledCode s buf =
      (turns (fun (_ : Unit) src ↦ (unrollTurn s src, ())) s.size s.size () 0).flatMap Turn.items :=
  slice_rewrite fun _ src ↦ (unrollTurn_keeps s src).exact

/-- What is written in a turn stands in the output. -/
theorem at_unrolled (h : UnrollReached s src dst) (hlt : src < s.size) :
    At (unrolledCode s buf) dst (unrollTurn s src).items := by
  rw [unrolledCode_eq]
  exact h.stands hlt

/-- The displacement of a short jump back. -/
theorem toInt_back {k : Nat} (h : k ≤ 128) :
    ((BitVec.ofInt 8 (-(k : Int))).signExtend 64).toInt = -(k : Int) := by
  rw [BitVec.toInt_signExtend_of_le (by decide), BitVec.toInt_ofInt]
  apply Int.bmod_eq_of_le <;> omega

theorem CountedLoop.at_source (h : CountedLoop s src c b) :
    At (slice s.bytes 0 s.size) src
      (c.bytes ++ (b.bytes ++ [0xe2, BitVec.ofInt 8 (-((b.len : Int) + 2))])) := by
  rw [← h.stands]
  exact slice_stands h.inside

theorem CountedLoop.back (h : CountedLoop s src c b) :
    ((BitVec.ofInt 8 (-((b.len : Int) + 2))).signExtend 64).toInt = -((b.len : Int) + 2) :=
  toInt_back h.near

/-- A run through the loop. -/
theorem CountedLoop.rounds_iff (h : CountedLoop s src c b) (hb : b.Movable) {m m' : Machine} {n : Nat} :
    Rounds (slice s.bytes 0 s.size) b (src + loopLen c b) n (m.moved src base) m' ↔
      n = c.times ∧ ∃ m₁, b.passes c.times (c.set (placeless undef xorEcx.instr m) m) = some m₁ ∧
        m' = (m₁.setReg 1 0).moved (src + loopLen c b) base := by
  have hlen : src + loopLen c b = src + c.bytes.length + b.len + 2 := by
    unfold loopLen
    omega
  rw [hlen]
  exact rounds_counted hb h.at_source h.back

/-- A loop that is copied. -/
theorem copied_right (h : CountedLoop s src c b) (hcomes : UnrollComes s src) (hb : b.Movable)
    (hnone : ∀ i len, src ≤ i → i < src + loopLen c b → ¬ Unrolls s i len) :
    UnrolledRight s buf base base' src c b := by
  obtain ⟨dst, hreached⟩ := hcomes.reached
  have hcopy : ∀ (_ : Unit) i, src ≤ i → i < src + loopLen c b →
      (unrollTurn s i).len = 1 ∧ (unrollTurn s i).items = [s.bytes i] := by
    intro _ i hle hlt
    rw [unrollTurn_copied fun len ↦ hnone i len hle hlt]
    exact ⟨rfl, rfl⟩
  obtain ⟨_, hend, hstands⟩ := hreached.copied h.inside hcopy
  have hat : At (unrolledCode s buf) dst
      (c.bytes ++ (b.bytes ++ [0xe2, BitVec.ofInt 8 (-((b.len : Int) + 2))])) := by
    rw [unrolledCode_eq, ← h.stands]
    exact hstands
  have hlen : dst + loopLen c b = dst + c.bytes.length + b.len + 2 := by
    unfold loopLen
    omega
  refine ⟨dst, dst + loopLen c b, hreached, hend, ?_⟩
  intro m n m' hrounds
  obtain ⟨rfl, m₁, hpasses, rfl⟩ := (h.rounds_iff hb).mp hrounds
  refine ⟨(m₁.setReg 1 0).moved (dst + loopLen c b) base', ?_, rfl⟩
  rw [hlen]
  exact (rounds_counted hb hat h.back).mpr ⟨rfl, m₁, hpasses, rfl⟩

/-- The bytes of the counter and of the body. -/
theorem CountedLoop.split (h : CountedLoop s src c b) :
    slice s.bytes src c.bytes.length = c.bytes ∧
      slice s.bytes (src + c.bytes.length) b.len = b.bytes := by
  have hstands := h.stands
  rw [loopLen, Nat.add_assoc, slice_append, slice_append] at hstands
  obtain ⟨hcounter, hrest⟩ := List.append_inj hstands length_slice
  obtain ⟨hbody, -⟩ := List.append_inj hrest length_slice
  exact ⟨hcounter, hbody⟩

theorem CountedLoop.ecx {v : BitVec 32} (h : CountedLoop s src (.ecx v) b) :
    s.bytes src = 0xb9 ∧ s.word32 (src + 1) = v := by
  have hbytes : s.bytes src :: slice s.bytes (src + 1) 4 = 0xb9 :: imm32 v := h.split.1
  rw [slice_word32] at hbytes
  obtain ⟨hop, himm⟩ := List.cons.inj hbytes
  exact ⟨hop, imm32_inj himm⟩

theorem items_copies (k start body : Nat) :
    (copies s k start body).flatMap Emit.items =
      (List.replicate k (slice s.bytes start body)).flatten := by
  rw [copies, List.flatMap_def, List.map_replicate]
  rfl

/-- Copies of the body with a loop behind them. -/
theorem items_remaining (k start body : Nat) (r : BitVec 32) :
    (copies s k start body ++ remainingLoop s r start body).flatMap Emit.items =
      (List.replicate k (slice s.bytes start body)).flatten ++ ((movEcx r).bytes ++
        (slice s.bytes start body ++ [0xe2, BitVec.ofInt 8 (-((body + 5 : Nat) : Int))])) := by
  rw [List.flatMap_append, items_copies]
  rfl

/-- What is written for a count: copies, and a loop for what they leave of it. -/
theorem items_unrolled {v : BitVec 32} {start body : Nat} {emits : List (Emit Byte)}
    (h : unrolled s v start body = some emits) :
    (v.toNat ≤ 8 ∧ emits.flatMap Emit.items =
        (List.replicate v.toNat (slice s.bytes start body)).flatten) ∨
      ∃ k r, v.toNat = k + r.toNat ∧ (v.toNat ≤ 32 → k = 8) ∧ (32 < v.toNat → k = 4) ∧
        8 < v.toNat ∧ v.toNat ≤ 64 ∧ emits.flatMap Emit.items =
          (List.replicate k (slice s.bytes start body)).flatten ++ ((movEcx r).bytes ++
            (slice s.bytes start body ++ [0xe2, BitVec.ofInt 8 (-((body + 5 : Nat) : Int))])) := by
  have h8 : (8 : BitVec 32).toNat = 8 := rfl
  have h32 : (32 : BitVec 32).toNat = 32 := rfl
  have h64 : (64 : BitVec 32).toNat = 64 := rfl
  unfold unrolled at h
  simp only [BitVec.le_def, h8, h32, h64] at h
  split_ifs at h with hle _ hle' _ hle'' <;> cases h
  · exact .inl ⟨hle, items_copies v.toNat start body⟩
  · refine .inr ⟨8, v - 8, ?_, fun _ ↦ rfl, by omega, by omega, by omega, items_remaining ..⟩
    rw [BitVec.toNat_sub_of_le (BitVec.le_def.mpr (by rw [h8]; omega)), h8]
    omega
  · refine .inr ⟨4, v - 4, ?_, by omega, fun _ ↦ rfl, by omega, by omega, items_remaining ..⟩
    have h4 : (4 : BitVec 32).toNat = 4 := rfl
    rw [BitVec.toNat_sub_of_le (BitVec.le_def.mpr (by rw [h4]; omega)), h4]
    omega

theorem length_bodies (k : Nat) : (List.replicate k b.bytes).flatten.length = k * b.len := by
  simp [LoopBody.len]

/-- The run through the copies, and the counter behind them. -/
theorem rounds_remaining {code : List Byte} {k n pos stop : Nat} {r : BitVec 32} {m m' : Machine}
    {tail : List Byte} (hb : b.Movable)
    (hat : At code pos ((List.replicate k b.bytes).flatten ++ ((movEcx r).bytes ++ tail)))
    (hstop : pos + k * b.len + 5 ≤ stop) :
    Rounds code b stop n (m.moved pos base) m' ↔
      ∃ j m₁, n = j + k ∧ b.passes k m = some m₁ ∧
        Rounds code b stop j
          ((m₁.setReg 1 (r.setWidth 64)).moved (pos + k * b.len + 5) base) m' := by
  have hmov : At code (pos + k * b.len) (movEcx r).bytes := by
    rw [← length_bodies]
    exact hat.right.left
  rw [rounds_copies (m := m.moved pos base) hat.left (by show pos + _ ≤ _; omega),
    LoopBody.passes_moved hb]
  cases hpasses : b.passes k m with
  | none => simp
  | some m₁ =>
    have hne : pos + k * b.len ≠ stop := by omega
    constructor
    · rintro ⟨j, m₂, rfl, hm₂, h⟩
      cases hm₂
      exact ⟨j, m₁, rfl, rfl, (rounds_movEcx hmov hne).mp h⟩
    · rintro ⟨j, m₂, rfl, hm₂, h⟩
      cases hm₂
      exact ⟨j, _, rfl, rfl, (rounds_movEcx hmov hne).mpr h⟩

/-- A last round, after which `LOOP` does not jump. -/
theorem rounds_last {code : List Byte} {pos : Nat} {d : Byte} {m m₁ : Machine} (hb : b.Movable)
    (hat : At code pos (b.bytes ++ [0xe2, d])) (hrun : b.run m = some m₁) :
    Rounds code b (pos + b.len + 2) 1 ((m.setReg 1 1).moved pos base)
      ((m₁.setReg 1 0).moved (pos + b.len + 2) base) := by
  have hlast : b.run ((m.setReg 1 1).moved pos base) =
      some ((m₁.setReg 1 1).moved (pos + b.len) base) := by
    rw [LoopBody.run_moved hb, LoopBody.run_setReg, hrun]
    rfl
  have hexec := execLoop_one (m := (m₁.setReg 1 1).moved (pos + b.len + 2) base) (d := d) rfl
  have hend : ((m₁.setReg 1 1).moved (pos + b.len + 2) base).setReg 1 0 =
      (m₁.setReg 1 0).moved (pos + b.len + 2) base :=
    moved_setReg_moved m₁ 1 0 (pos + b.len + 2) (pos + b.len + 2) base base
  rw [hend] at hexec
  exact (rounds_turn hb hat rfl (by omega)).mpr ⟨0, _, _, rfl, hlast, hexec, .arrived rfl⟩

/-- What is written for a loop whose first `LOOP` byte is its own. -/
theorem CountedLoop.turn_movEcx {v : BitVec 32} (h : CountedLoop s src (.ecx v) b)
    (hunrolls : Unrolls s src (loopLen (.ecx v) b)) :
    if v = 0 then (unrollTurn s src).items = []
    else ∃ emits, unrolled s v (src + 5) b.len = some emits ∧
      (unrollTurn s src).items = emits.flatMap Emit.items := by
  obtain ⟨hop, hword⟩ := h.ecx
  generalize hlen : loopLen (.ecx v) b = len at hunrolls
  cases hunrolls with
  | @movEcx body hroom _ hloop hcount =>
    have hbody : body = b.len := by
      change 5 + b.len + 2 = 5 + body + 2 at hlen
      omega
    subst hbody
    rw [hword] at hcount
    split
    · next hzero =>
      rw [unrollTurn_zero hroom hop hloop (hword.trans hzero)]
      rfl
    · next hzero =>
      obtain ⟨hne, hflow, hunrolled⟩ := hcount.resolve_left hzero
      obtain ⟨emits, hemits⟩ := Option.isSome_iff_exists.mp (unrolled_isSome.mpr hunrolled)
      refine ⟨emits, hemits, ?_⟩
      rw [unrollTurn_movEcx hroom hop hloop (by rwa [hword]) hne hflow (by rwa [hword])]
      rfl
  | xorEcx _ hxor _ _ =>
    rw [hop] at hxor
    exact absurd hxor.1 (by decide)

/-- A loop that counts to nine: eight copies and one round. -/
theorem nine_right (h : CountedLoop s src (.ecx 9) b) (hcomes : UnrollComes s src) (hb : b.Movable)
    (hunrolls : Unrolls s src (loopLen (.ecx 9) b)) :
    UnrolledRight s buf base base' src (.ecx 9) b := by
  obtain ⟨dst, hreached⟩ := hcomes.reached
  have hlt : src < s.size := by
    have hinside := h.inside
    unfold loopLen at hinside
    omega
  have hend := hreached.turn hlt
  dsimp only at hend
  rw [hunrolls.len_turn] at hend
  have hturn := h.turn_movEcx hunrolls
  rw [if_neg (by decide)] at hturn
  obtain ⟨emits, hemits, hitems⟩ := hturn
  have h9 : (9 : BitVec 32).toNat = 9 := rfl
  obtain ⟨hle, -⟩ | ⟨k, r, hsum, hk, -, -, -, hbytes⟩ := items_unrolled hemits
  · rw [h9] at hle
    omega
  obtain rfl := hk (by rw [h9]; omega)
  obtain rfl : r = 1 := by
    apply BitVec.eq_of_toNat_eq
    rw [h9] at hsum
    show r.toNat = 1
    omega
  rw [← hitems, show slice s.bytes (src + 5) b.len = b.bytes from h.split.2] at hbytes
  have hat := @at_unrolled s buf _ _ hreached hlt
  have hlen : (unrollTurn s src).items.length = 8 * b.len + 5 + b.len + 2 := by
    rw [hbytes, List.length_append, length_bodies]
    simp [LoopBody.len, movEcx, imm32]
    omega
  rw [hlen] at hend
  rw [hbytes] at hat
  refine ⟨dst, _, hreached, hend, ?_⟩
  intro m n m' hrounds
  obtain ⟨rfl, m₁, hpasses, rfl⟩ := (h.rounds_iff hb).mp hrounds
  -- the nine passes without the counter
  have hnine : b.passes 9 (m.setReg 1 9) = some m₁ := hpasses
  rw [LoopBody.passes_setReg] at hnine
  obtain ⟨m₂, hm₂, rfl⟩ := Option.map_eq_some_iff.mp hnine
  rw [LoopBody.passes_add 8 1] at hm₂
  obtain ⟨m₃, hm₃, hlast⟩ := Option.bind_eq_some_iff.mp hm₂
  obtain ⟨m₄, hrun, hm₄⟩ := Option.bind_eq_some_iff.mp hlast
  cases hm₄
  have hloop : At (unrolledCode s buf) (dst + 8 * b.len + 5)
      (b.bytes ++ [0xe2, BitVec.ofInt 8 (-((b.len + 5 : Nat) : Int))]) := by
    rw [← length_bodies]
    exact hat.right.right
  have hstop : dst + (8 * b.len + 5 + b.len + 2) = dst + 8 * b.len + 5 + b.len + 2 := by omega
  refine ⟨(m₂.setReg 1 0).moved (dst + 8 * b.len + 5 + b.len + 2) base', ?_, rfl⟩
  rw [hstop]
  exact (rounds_remaining hb hat (by omega)).mpr ⟨1, m₃, rfl, hm₃, rounds_last hb hloop hrun⟩

/-- What is written for the other pattern, up to eight. -/
theorem CountedLoop.turn_xorEcx {v : Byte} (h : CountedLoop s src (.al v) b) (hv : v ≤ 8)
    (hunrolls : Unrolls s src (loopLen (.al v) b)) :
    (unrollTurn s src).items = (List.replicate v.toNat b.bytes).flatten := by
  have hbytes : [s.bytes src, s.bytes (src + 1), s.bytes (src + 2), s.bytes (src + 3)] =
      [0x31, 0xc9, 0xb0, v] := h.split.1
  simp only [List.cons.injEq] at hbytes
  obtain ⟨h0, -, -, h3, -⟩ := hbytes
  have hbody := h.split.2
  generalize hlen : loopLen (.al v) b = len at hunrolls
  cases hunrolls with
  | movEcx _ hop _ _ =>
    rw [h0] at hop
    exact absurd hop (by decide)
  | @xorEcx body hroom hop hloop hcount =>
    have hsame : body = b.len := by
      change 4 + b.len + 2 = 4 + body + 2 at hlen
      omega
    subst hsame
    obtain ⟨hne, hflow, -⟩ := hcount
    have hemits : unrolled8 s (s.bytes (src + 3)) (src + 4) b.len =
        some (copies s v.toNat (src + 4) b.len) := by
      rw [h3, unrolled8, if_pos hv]
    rw [unrollTurn_xorEcx hroom hop hloop hne hflow hemits]
    show (copies s v.toNat (src + 4) b.len).flatMap Emit.items = _
    rw [items_copies, show slice s.bytes (src + 4) b.len = b.bytes from hbody]

/-- A state in which nothing is mapped and no register is zero. -/
def probe : Machine where
  regs := fun _ ↦ 1
  flags := 0
  vectors := fun _ ↦ 0
  mem := fun _ ↦ none
  codeBase := 0
  pos := 0

theorem PlainLoop.passes (hp : PlainLoop s src c b) (k : Nat) (m : Machine) :
    ∃ m', b.passes k m = some m' ∧ m'.mem = m.mem := by
  induction k generalizing m with
  | zero => exact ⟨m, rfl, rfl⟩
  | succ k ih =>
    obtain ⟨m₁, hrun, hmem₁⟩ := hp.total m
    obtain ⟨m₂, hpasses, hmem₂⟩ := ih m₁
    refine ⟨m₂, ?_, hmem₂.trans hmem₁⟩
    rw [LoopBody.passes, hrun]
    exact hpasses

/-- The run of what is written for a loop that is unrolled, when it is right. -/
theorem PlainLoop.run_unrolled (hp : PlainLoop s src c b) (h : CountedLoop s src c b)
    (hright : UnrolledRight s buf base base' src c b) (hunrolls : Unrolls s src (loopLen c b)) :
    ∃ dst m', At (unrolledCode s buf) dst (unrollTurn s src).items ∧ m'.regs 1 = 0 ∧
      Rounds (unrolledCode s buf) b (dst + (unrollTurn s src).items.length) c.times
        (probe.moved dst base') m' := by
  obtain ⟨dst, dst', hreached, hend, hrounds⟩ := hright
  have hlt : src < s.size := by
    have hinside := h.inside
    unfold loopLen at hinside
    omega
  have hturn := hreached.turn hlt
  dsimp only at hturn
  rw [hunrolls.len_turn] at hturn
  obtain ⟨-, rfl⟩ := hturn.unique hend
  obtain ⟨m₁, hpasses, -⟩ := hp.passes c.times (c.set (placeless undef xorEcx.instr probe) probe)
  obtain ⟨m', hrun, hrcx⟩ := hrounds probe _ _ ((h.rounds_iff hp.movable).mpr ⟨rfl, m₁, hpasses, rfl⟩)
  exact ⟨dst, m', at_unrolled hreached hlt, hrcx, hrun⟩

/-- Copies leave the counter as it was. -/
theorem not_rounds_copies {code : List Byte} {k n : Nat} {m' : Machine}
    (hat : At code dst (List.replicate k b.bytes).flatten) (hrcx : m'.regs 1 = 0) :
    ¬ Rounds code b (dst + (List.replicate k b.bytes).flatten.length) n (probe.moved dst base') m' := by
  intro h
  rw [length_bodies] at h
  obtain ⟨j, m₁, -, hpasses, hend⟩ :=
    (rounds_copies (m := probe.moved dst base') hat (Nat.le_refl _)).mp h
  have hpos : m₁.pos = dst + k * b.len := LoopBody.pos_passes hpasses
  obtain ⟨-, rfl⟩ := (rounds_arrived hpos).mp hend
  rw [LoopBody.rcx_passes hpasses] at hrcx
  exact absurd (show (1 : BitVec 64) = 0 from hrcx) (by decide)

/-- The bytes that a `LOOP` comes to that jumps three bytes too far: a store to where `RAX` points. -/
def addZeros : Chunk where
  bytes := [0, 0]
  instr := .alu .add .b8 (.mem (some 0) none 0) (.reg 0)
  decodes := by
    intro tail
    have hsize : opSize .none 0#8 = .b8 := rfl
    rw [List.cons_append, decode, takePrefixes_opcode rfl]
    simp [decodeOpcode, hsize, takeRm, takeDisp]
    exact ⟨rfl, rfl, rfl⟩

/-- The store faults where nothing is mapped. -/
theorem exec_addZeros {m : Machine} (hmem : m.mem = fun _ ↦ none) :
    (Semantics.core undef rest).exec addZeros.instr m = none := by
  show m.execAlu (undef addZeros.instr m) .add .b8 (.mem (some 0) none 0) _ = none
  simp [Machine.execAlu, Machine.fetch, Machine.read8, Machine.load, hmem]

theorem round_addZeros {code : List Byte} {m : Machine}
    (htotal : ∀ m, ∃ m', b.run m = some m' ∧ m'.mem = m.mem) (hat : At code m.pos addZeros.bytes)
    (hmem : m.mem = fun _ ↦ none) : round code b m = none := by
  have hstep : (Semantics.core (placeless undef) rest).step code m = none := by
    rw [Semantics.step_chunk addZeros hat]
    exact exec_addZeros hmem
  have hnot : ¬ At code m.pos b.bytes := by
    -- the body would start with the store
    intro hbody
    obtain ⟨m', hrun, -⟩ := htotal m
    obtain ⟨m₁, hexec, -⟩ := Option.bind_eq_some_iff.mp hrun
    have hfirst : At code m.pos (b.first.bytes ++ chunkBytes b.others) := hbody
    rw [Semantics.step_chunk b.first hfirst.left, hexec] at hstep
    cases hstep
  rw [X86.round, if_neg hnot, loopAt_eq_none hat (by decide), byteMoveAt_eq_none hat (by decide), hstep]
  rfl

/-- A loop for what the copies leave of the count jumps into its own counter. -/
theorem not_rounds_remaining {code : List Byte} {k n : Nat} {r : BitVec 32} {m' : Machine}
    (hp : PlainLoop s src c b) (hr : 1 < r.toNat) (hr' : r.toNat < 256)
    (hat : At code dst ((List.replicate k b.bytes).flatten ++ ((movEcx r).bytes ++
      (b.bytes ++ [0xe2, BitVec.ofInt 8 (-((b.len + 5 : Nat) : Int))])))) :
    ¬ Rounds code b (dst + k * b.len + 5 + b.len + 2) n (probe.moved dst base') m' := by
  intro h
  obtain ⟨j, m₁, -, hpasses, hrest⟩ := (rounds_remaining hp.movable hat (by omega)).mp h
  have hloop : At code (dst + k * b.len + 5)
      (b.bytes ++ [0xe2, BitVec.ofInt 8 (-((b.len + 5 : Nat) : Int))]) := by
    rw [← length_bodies]
    exact hat.right.right
  have hzeros : At code (dst + k * b.len + 2) addZeros.bytes := by
    have hmov := hat.right.left
    rw [length_bodies] at hmov
    have hhigh : ∀ i, 8 ≤ i → r.extractLsb' i 8 = 0 := by
      intro i hi
      apply BitVec.eq_of_toNat_eq
      have hsmall : r.toNat < 2 ^ i := Nat.lt_of_lt_of_le hr' (Nat.pow_le_pow_right Nat.two_pos hi)
      rw [BitVec.extractLsb'_toNat, Nat.shiftRight_eq_div_pow, Nat.div_eq_of_lt hsmall]
      rfl
    have hbytes : (movEcx r).bytes = [0xb9, r.extractLsb' 0 8] ++ (addZeros.bytes ++ [0]) := by
      show 0xb9 :: imm32 r = _
      rw [imm32, hhigh 8 (by decide), hhigh 16 (by decide), hhigh 24 (by decide)]
      rfl
    rw [hbytes] at hmov
    exact hmov.right.left
  obtain ⟨i, m₂, m₃, -, hrun, hexec, hstuck⟩ :=
    (rounds_turn hp.movable hloop rfl (by omega)).mp hrest
  have hmem : m₂.mem = fun _ ↦ none := by
    obtain ⟨m₁', hpasses', hmem₁⟩ := hp.passes k probe
    obtain ⟨m₂', hrun', hmem₂⟩ := hp.total ((m₁.setReg 1 (r.setWidth 64)).moved
      (dst + k * b.len + 5) base')
    cases hpasses.symm.trans hpasses'
    cases hrun.symm.trans hrun'
    exact hmem₂.trans hmem₁
  have hrcx : m₂.regs 1 = r.setWidth 64 := LoopBody.rcx_run hrun
  have hne : m₂.regs 1 ≠ 1 := by
    rw [hrcx]
    intro hone
    have := congrArg BitVec.toNat hone
    rw [BitVec.toNat_setWidth_of_le (by decide)] at this
    change r.toNat = 1 at this
    omega
  have htarget : ((dst + k * b.len + 5 + b.len + 2 : Nat) : Int) +
      ((BitVec.ofInt 8 (-((b.len + 5 : Nat) : Int))).signExtend 64).toInt =
        (dst + k * b.len + 2 : Nat) := by
    rw [toInt_back hp.near]
    omega
  have hjump := execLoop_of_ne (m := m₂.moved (dst + k * b.len + 5 + b.len + 2) base') hne htarget
  cases hexec.symm.trans hjump
  have hpos : dst + k * b.len + 2 ≠ dst + k * b.len + 5 + b.len + 2 := by omega
  exact absurd hstuck (not_rounds hpos (round_addZeros hp.total hzeros hmem))

/-- A loop that is unrolled and right counts to nine. -/
theorem PlainLoop.eq_nine (hp : PlainLoop s src c b) (h : CountedLoop s src c b)
    (hright : UnrolledRight s buf base base' src c b) (hunrolls : Unrolls s src (loopLen c b)) :
    c = .ecx 9 := by
  obtain ⟨dst, m', hat, hrcx, hrounds⟩ := hp.run_unrolled h hright hunrolls
  have hcopies : ∀ k, (unrollTurn s src).items ≠ (List.replicate k b.bytes).flatten := by
    intro k hitems
    rw [hitems] at hat hrounds
    exact not_rounds_copies hat hrcx hrounds
  cases c with
  | ecx v =>
    have hbody : slice s.bytes (src + 5) b.len = b.bytes := h.split.2
    have hturn := h.turn_movEcx hunrolls
    split at hturn
    · exact absurd hturn (hcopies 0)
    · obtain ⟨emits, hemits, hitems⟩ := hturn
      obtain ⟨-, hsome⟩ | ⟨k, r, hsum, hk, hk', hlow, hhigh, hsome⟩ := items_unrolled hemits
      · rw [← hitems, hbody] at hsome
        exact absurd hsome (hcopies _)
      · rw [← hitems, hbody] at hsome
        by_cases hone : r.toNat = 1
        · congr 1
          apply BitVec.eq_of_toNat_eq
          show v.toNat = 9
          omega
        · rw [hsome] at hat hrounds
          have hlen : dst + ((List.replicate k b.bytes).flatten ++ ((movEcx r).bytes ++
              (b.bytes ++ [0xe2, BitVec.ofInt 8 (-((b.len + 5 : Nat) : Int))]))).length =
                dst + k * b.len + 5 + b.len + 2 := by
            rw [List.length_append, length_bodies]
            simp [LoopBody.len, movEcx, imm32]
            omega
          rw [hlen] at hrounds
          exact absurd hrounds (not_rounds_remaining hp (by omega) (by omega) hat)
  | cl v =>
    have hbytes : [s.bytes src, s.bytes (src + 1), s.bytes (src + 2), s.bytes (src + 3)] =
        [0x31, 0xc9, 0xb1, v] := h.split.1
    simp only [List.cons.injEq] at hbytes
    obtain ⟨h0, -, h2, -⟩ := hbytes
    generalize loopLen (.cl v) b = len at hunrolls
    cases hunrolls with
    | movEcx _ hop _ _ =>
      rw [h0] at hop
      exact absurd hop (by decide)
    | xorEcx _ hop _ _ =>
      rw [h2] at hop
      exact absurd hop.2.2 (by decide)
  | al v => exact absurd (h.turn_xorEcx (hp.count v rfl) hunrolls) (hcopies _)

end Loops

section Increments

variable (undef : Instr → Machine → Status) (rest : Instr → Machine → Option Machine)

/-- `INC RAX`. -/
def incRax : Chunk where
  bytes := [0x48, 0xff, 0xc0]
  instr := .incDec false .b64 (.reg 0)
  decodes := by
    intro tail
    have hsize : rexW.size = .b64 := rfl
    rw [List.cons_append, List.cons_append, decode, takePrefixes_48 rfl]
    simp [decodeOpcode, decodeIndirect, takeExt, hsize, takeRm]
    rfl

theorem exec_incRax (m : Machine) :
    (Semantics.core undef rest).exec incRax.instr m =
      some ((m.setReg 0 (m.regs 0 + 1)).setStatus
        (.keepCarry m.status (.ofAdd (m.regs 0) 1 false))) := by
  have hcut : ∀ v, Size.cut .b64 v = v := BitVec.setWidth_eq
  show m.execIncDec false .b64 (.reg 0) = _
  rw [Machine.execIncDec, Machine.fetch_reg64]
  simp only [Option.bind_eq_bind, Option.bind_some, hcut]
  show some ((m.setReg 0 ((m.regs 0 + 1).setWidth 64)).setStatus _) = _
  rw [BitVec.setWidth_eq]
  rfl

/-- A loop's body that counts up in `RAX`. -/
def incBody : LoopBody (.core (placeless undef) rest) where
  first := incRax
  others := []
  sequential := by
    intro c hc m m' hexec
    obtain rfl := List.mem_singleton.mp hc
    rw [exec_incRax] at hexec
    cases hexec
    rfl
  spares := by
    intro c hc m v
    obtain rfl := List.mem_singleton.mp hc
    rw [exec_incRax, exec_incRax, Option.map_some, m.setReg_comm (by decide)]
    rfl

/-- `MOV ECX, n`, `INC RAX` and `LOOP`. -/
def incLoop (n : Byte) : Source where
  bytes := fun i ↦ [0xb9, n, 0, 0, 0, 0x48, 0xff, 0xc0, 0xe2, 0xfb].getD i 0x90
  size := 11

theorem incBody_bytes : (incBody undef rest).bytes = [0x48, 0xff, 0xc0] := rfl

theorem incBody_len : (incBody undef rest).len = 3 := rfl

theorem incBody_movable : (incBody undef rest).Movable := by
  intro c hc m pos base
  have hinstr : c = incRax := List.mem_singleton.mp hc
  rw [hinstr, exec_incRax, exec_incRax]
  rfl

theorem incBody_total (m : Machine) : ∃ m', (incBody undef rest).run m = some m' ∧ m'.mem = m.mem := by
  have hrun : (incBody undef rest).run m = some (((m.past 3).setReg 0 (m.regs 0 + 1)).setStatus
      (.keepCarry m.status (.ofAdd (m.regs 0) 1 false))) := by
    show ((Semantics.core (placeless undef) rest).exec incRax.instr (m.past 3)).bind some = _
    rw [exec_incRax]
    rfl
  exact ⟨_, hrun, rfl⟩

variable {n : Byte} (hn : n = 1 ∨ n = 9)
include hn

theorem incLoop_counted : CountedLoop (incLoop n) 0 (.ecx (n.setWidth 32)) (incBody undef rest) where
  stands := by
    rw [loopLen, incBody_bytes, incBody_len]
    rcases hn with rfl | rfl <;> decide
  near := by
    rw [incBody_len]
    decide
  inside := by
    rw [loopLen, incBody_len]
    show 0 + 10 ≤ 11
    decide

theorem incLoop_unrolls : Unrolls (incLoop n) 0 10 := by
  have hloop : findLoop (incLoop n) (0 + 5) = some 3 := by rcases hn with rfl | rfl <;> decide
  apply Unrolls.movEcx (show 0 + 10 < 11 by decide) rfl hloop
  rcases hn with rfl | rfl
  · exact .inr ⟨by decide, by decide, .inl (by decide)⟩
  · exact .inr ⟨by decide, by decide, .inr (.inl (by decide))⟩

theorem incLoop_plain : PlainLoop (incLoop n) 0 (.ecx (n.setWidth 32)) (incBody undef rest) where
  movable := incBody_movable undef rest
  total := incBody_total undef rest
  near := by
    rw [incBody_len]
    decide
  own := by
    intro len h
    rw [← h.len_turn, (incLoop_unrolls hn).len_turn]
    rfl
  inner := by
    intro i len hgt _ h
    have hroom : i + 10 < 11 := by cases h <;> assumption
    omega
  count := by
    intro v h
    cases h

omit hn

end Increments

end Arm2x86.Hotblock
