import Arm2x86.X86.Loops
import Arm2x86.X86.Moved

/-!
# Rounds of a loop

Runs with the number of times that they go through the body of a loop, wherever a copy of it stands. The
body is straight code that leaves `RCX` alone, so what it does is the same for each count.
-/

namespace Arm2x86.X86

instance (code : List Byte) (pos : Nat) (bytes : List Byte) : Decidable (At code pos bytes) :=
  inferInstanceAs (Decidable (bytes <+: code.drop pos))

/-- The register and the immediate of a move into a byte register at an offset of the code. -/
def byteMoveAt (code : List Byte) (pos : Nat) : Option (BitVec 3 × Byte) :=
  match code.drop pos with
  | op :: imm :: _ => if op &&& 0xf8 = 0xb0 then some (op.extractLsb' 0 3, imm) else none
  | _ => none

/-- An instruction that neither looks at a register nor writes it. -/
def Spares (sem : Semantics) (r : Gpr) (i : Instr) : Prop :=
  ∀ m v, sem.exec i (m.setReg r v) = (sem.exec i m).map fun m' ↦ m'.setReg r v

/-- The body of a counted loop: no control flow, and no use of `RCX`. -/
structure LoopBody (sem : Semantics) where
  first : Chunk
  others : List Chunk
  sequential : ∀ c ∈ first :: others, sem.Sequential c.instr
  spares : ∀ c ∈ first :: others, Spares sem 1 c.instr

namespace LoopBody

variable {sem : Semantics} (b : LoopBody sem)

def chunks : List Chunk := b.first :: b.others

def bytes : List Byte := chunkBytes b.chunks

def len : Nat := b.bytes.length

/-- Once through the body. -/
def run (m : Machine) : Option Machine := sem.runChunks b.chunks m

/-- Some times through the body, from each end on. -/
def passes : Nat → Machine → Option Machine
  | 0, m => some m
  | k + 1, m => (b.run m).bind (passes k)

/-- No operand is relative to the place of its instruction. -/
def Movable : Prop := ∀ c ∈ b.chunks, X86.Movable sem c.instr

end LoopBody

section Runs

variable {sem : Semantics} (code : List Byte) (b : LoopBody sem)

/-- Through the whole body where it stands, and through one instruction elsewhere. -/
def round (m : Machine) : Option (Nat × Machine) :=
  if At code m.pos b.bytes then (b.run m).map fun m' ↦ (1, m')
  else
    match loopAt code m.pos, byteMoveAt code m.pos with
    | some d, _ => ({ m with pos := m.pos + 2 }.execLoop d).map fun m' ↦ (0, m')
    | none, some (r, imm) =>
      ((m.past 2).put .b8 (imm.setWidth 64) (byteReg .none (gpr false r))).map fun m' ↦ (0, m')
    | none, none => (sem.step code m).map fun m' ↦ (0, m')

/-- Runs up to the first arrival at an offset, with the number of times through the body. -/
inductive Rounds (stop : Nat) : Nat → Machine → Machine → Prop
  | arrived {m : Machine} (hpos : m.pos = stop) : Rounds stop 0 m m
  | round {n k : Nat} {m m' m'' : Machine} (hpos : m.pos ≠ stop)
      (hround : round code b m = some (k, m')) (h : Rounds stop n m' m'') :
      Rounds stop (n + k) m m''

variable {code b} {stop n k : Nat} {m m' m'' m₁ : Machine}

theorem rounds_arrived (hpos : m.pos = stop) : Rounds code b stop n m m' ↔ n = 0 ∧ m' = m := by
  constructor
  · intro h
    cases h with
    | arrived => exact ⟨rfl, rfl⟩
    | round hne => exact absurd hpos hne
  · rintro ⟨rfl, rfl⟩
    exact .arrived hpos

theorem rounds_round (hpos : m.pos ≠ stop) (hround : round code b m = some (k, m₁)) :
    Rounds code b stop n m m' ↔ ∃ j, n = j + k ∧ Rounds code b stop j m₁ m' := by
  constructor
  · intro h
    cases h with
    | arrived heq => exact absurd heq hpos
    | round _ hround' h' =>
      rw [hround] at hround'
      cases hround'
      exact ⟨_, rfl, h'⟩
  · rintro ⟨j, rfl, h⟩
    exact .round hpos hround h

/-- An instruction outside of the body. -/
theorem rounds_next (hpos : m.pos ≠ stop) (hround : round code b m = some (0, m₁)) :
    Rounds code b stop n m m' ↔ Rounds code b stop n m₁ m' := by
  rw [rounds_round hpos hround]
  constructor
  · rintro ⟨j, rfl, h⟩
    exact h
  · intro h
    exact ⟨n, rfl, h⟩

theorem not_rounds (hpos : m.pos ≠ stop) (hround : round code b m = none) :
    ¬ Rounds code b stop n m m' := by
  intro h
  cases h with
  | arrived heq => exact hpos heq
  | round _ hround' _ =>
    rw [hround] at hround'
    cases hround'

end Runs

namespace LoopBody

variable {sem : Semantics} {b : LoopBody sem} {code : List Byte} {m m' : Machine} {k : Nat}

theorem runChunks_setReg {r : Gpr} {v : BitVec 64} {cs : List Chunk}
    (h : ∀ c ∈ cs, Spares sem r c.instr) (m : Machine) :
    sem.runChunks cs (m.setReg r v) = (sem.runChunks cs m).map fun m' ↦ m'.setReg r v := by
  induction cs generalizing m with
  | nil => rfl
  | cons c cs ih =>
    rw [List.forall_mem_cons] at h
    have hexec := h.1 { m with pos := m.pos + c.bytes.length } v
    show (sem.exec c.instr ({ m with pos := m.pos + c.bytes.length }.setReg r v)).bind _ = _
    rw [hexec, Semantics.runChunks]
    cases sem.exec c.instr { m with pos := m.pos + c.bytes.length } with
    | none => rfl
    | some m₁ => exact ih h.2 m₁

theorem runChunks_moved {cs : List Chunk} (h : ∀ c ∈ cs, X86.Movable sem c.instr) (m : Machine)
    (pos : Nat) (base : BitVec 64) :
    sem.runChunks cs (m.moved pos base) =
      (sem.runChunks cs m).map fun m' ↦ m'.moved (pos + (chunkBytes cs).length) base := by
  induction cs generalizing m pos with
  | nil => rfl
  | cons c cs ih =>
    rw [List.forall_mem_cons] at h
    have hexec := h.1 { m with pos := m.pos + c.bytes.length } (pos + c.bytes.length) base
    show (sem.exec c.instr
      ({ m with pos := m.pos + c.bytes.length }.moved (pos + c.bytes.length) base)).bind _ = _
    rw [hexec, Semantics.runChunks]
    cases sem.exec c.instr { m with pos := m.pos + c.bytes.length } with
    | none => rfl
    | some m₁ =>
      show sem.runChunks cs (m₁.moved _ base) = (sem.runChunks cs m₁).map _
      rw [ih h.2, chunkBytes, chunkBytes, List.flatMap_cons, List.length_append, Nat.add_assoc]

theorem run_setReg (m : Machine) (v : BitVec 64) :
    b.run (m.setReg 1 v) = (b.run m).map fun m' ↦ m'.setReg 1 v :=
  runChunks_setReg b.spares m

theorem run_moved (h : b.Movable) (m : Machine) (pos : Nat) (base : BitVec 64) :
    b.run (m.moved pos base) = (b.run m).map fun m' ↦ m'.moved (pos + b.len) base :=
  runChunks_moved h m pos base

theorem pos_run (h : b.run m = some m') : m'.pos = m.pos + b.len :=
  Semantics.runChunks_pos b.sequential h

theorem rcx_run (h : b.run m = some m') : m'.regs 1 = m.regs 1 := by
  have hself := run_setReg (b := b) m (m.regs 1)
  rw [Machine.setReg_self, h] at hself
  have hregs := congrArg (fun m ↦ m.regs 1) (Option.some.inj hself)
  rwa [Machine.regs_setReg, if_pos rfl] at hregs

theorem codeBase_run (hb : b.Movable) (h : b.run m = some m') : m'.codeBase = m.codeBase := by
  have hself : some m' = some (m'.moved (m.pos + b.len) m.codeBase) := by
    have hmoved := run_moved hb m m.pos m.codeBase
    rw [h] at hmoved
    exact h.symm.trans hmoved
  rw [Option.some.inj hself]
  rfl

theorem passes_add (j k : Nat) (m : Machine) :
    b.passes (j + k) m = (b.passes j m).bind (b.passes k) := by
  induction j generalizing m with
  | zero =>
    rw [Nat.zero_add]
    rfl
  | succ j ih =>
    rw [Nat.succ_add, passes, passes, Option.bind_assoc]
    congr 1
    funext m₁
    exact ih m₁

theorem passes_setReg (m : Machine) (v : BitVec 64) :
    b.passes k (m.setReg 1 v) = (b.passes k m).map fun m' ↦ m'.setReg 1 v := by
  induction k generalizing m with
  | zero => rfl
  | succ k ih =>
    rw [passes, passes, run_setReg]
    cases b.run m with
    | none => rfl
    | some m₁ => exact ih m₁

theorem passes_moved (h : b.Movable) (m : Machine) (pos : Nat) (base : BitVec 64) :
    b.passes k (m.moved pos base) =
      (b.passes k m).map fun m' ↦ m'.moved (pos + k * b.len) base := by
  induction k generalizing m pos with
  | zero =>
    rw [Nat.zero_mul]
    rfl
  | succ k ih =>
    rw [passes, passes, run_moved h]
    cases b.run m with
    | none => rfl
    | some m₁ =>
      show b.passes k (m₁.moved _ base) = (b.passes k m₁).map _
      rw [ih, Nat.succ_mul, Nat.add_comm (k * b.len), Nat.add_assoc]

theorem pos_passes (h : b.passes k m = some m') : m'.pos = m.pos + k * b.len := by
  induction k generalizing m with
  | zero =>
    rw [← Option.some.inj h, Nat.zero_mul]
    rfl
  | succ k ih =>
    obtain ⟨m₁, hrun, hpasses⟩ := Option.bind_eq_some_iff.mp h
    rw [ih hpasses, pos_run hrun, Nat.succ_mul, Nat.add_comm (k * b.len), Nat.add_assoc]

theorem rcx_passes (h : b.passes k m = some m') : m'.regs 1 = m.regs 1 := by
  induction k generalizing m with
  | zero => rw [← Option.some.inj h]
  | succ k ih =>
    obtain ⟨m₁, hrun, hpasses⟩ := Option.bind_eq_some_iff.mp h
    rw [ih hpasses, rcx_run hrun]

/-- The body does not stand where no instruction does. -/
theorem not_at_of_none {pos : Nat} (h : decode (code.drop pos) = none) : ¬ At code pos b.bytes := by
  rintro ⟨tail, htail⟩
  rw [← htail, bytes, chunks, chunkBytes, List.flatMap_cons, List.append_assoc,
    b.first.decodes] at h
  cases h

/-- The body does not start with an instruction that uses `RCX`. -/
theorem not_at_of_decode {pos : Nat} {i : Instr} {rest : List Byte}
    (h : decode (code.drop pos) = some (i, rest)) (hi : ¬ Spares sem 1 i) :
    ¬ At code pos b.bytes := by
  rintro ⟨tail, htail⟩
  rw [← htail, bytes, chunks, chunkBytes, List.flatMap_cons, List.append_assoc,
    b.first.decodes] at h
  cases h
  exact hi (b.spares b.first List.mem_cons_self)

theorem len_pos : 0 < b.len := by
  apply List.length_pos_iff.mpr
  intro h
  have hdec := b.first.decodes []
  have hbytes : b.first.bytes = [] := by
    rw [bytes, chunks, chunkBytes, List.flatMap_cons, List.append_eq_nil_iff] at h
    exact h.1
  rw [hbytes] at hdec
  cases hdec

end LoopBody

section Rules

variable {sem : Semantics} {code : List Byte} {b : LoopBody sem} {stop n k : Nat} {m m' m₁ : Machine}

theorem round_body (h : At code m.pos b.bytes) : round code b m = (b.run m).map fun m' ↦ (1, m') :=
  if_pos h

theorem round_loop {d : Byte} {pos : Nat} (h : At code pos [0xe2, d]) (hpos : m.pos = pos) :
    round code b m = ({ m with pos := pos + 2 }.execLoop d).map fun m' ↦ (0, m') := by
  subst hpos
  have hloop : loopAt code m.pos = some d := loopAt_of_at h
  rw [round, if_neg (LoopBody.not_at_of_none (decode_of_loopAt hloop)), hloop]

theorem round_byteMove {r : BitVec 3} {imm : Byte} (hloop : loopAt code m.pos = none)
    (hmove : byteMoveAt code m.pos = some (r, imm)) (hnone : decode (code.drop m.pos) = none) :
    round code b m = ((m.past 2).put .b8 (imm.setWidth 64) (byteReg .none (gpr false r))).map
      fun m' ↦ (0, m') := by
  rw [round, if_neg (LoopBody.not_at_of_none hnone), hloop, hmove]

/-- An instruction that uses `RCX`. -/
theorem round_instr {c : Chunk} (h : At code m.pos c.bytes) (hloop : loopAt code m.pos = none)
    (hmove : byteMoveAt code m.pos = none) (hc : ¬ Spares sem 1 c.instr) :
    round code b m = (sem.exec c.instr (m.past c.bytes.length)).map fun m' ↦ (0, m') := by
  have hdec : ∃ rest, decode (code.drop m.pos) = some (c.instr, rest) := by
    obtain ⟨rest, hrest⟩ := h
    exact ⟨rest, by rw [← hrest, c.decodes]⟩
  obtain ⟨rest, hdec⟩ := hdec
  rw [round, if_neg (LoopBody.not_at_of_decode hdec hc), hloop, hmove]
  show (sem.step code m).map _ = _
  rw [Semantics.step_chunk c h]
  rfl

/-- Copies of the body, one behind the other. -/
theorem rounds_copies (hat : At code m.pos (List.replicate k b.bytes).flatten)
    (hstop : m.pos + k * b.len ≤ stop) :
    Rounds code b stop n m m' ↔
      ∃ j m₁, n = j + k ∧ b.passes k m = some m₁ ∧ Rounds code b stop j m₁ m' := by
  induction k generalizing m n with
  | zero =>
    constructor
    · intro h
      exact ⟨n, m, rfl, rfl, h⟩
    · rintro ⟨j, m₁, rfl, hpasses, h⟩
      cases hpasses
      exact h
  | succ k ih =>
    rw [List.replicate_succ, List.flatten_cons] at hat
    rw [Nat.succ_mul] at hstop
    have hlen := b.len_pos
    have hne : m.pos ≠ stop := by omega
    have hbody := round_body (b := b) hat.left
    rw [LoopBody.passes]
    cases hrun : b.run m with
    | none =>
      rw [hrun] at hbody
      constructor
      · intro h
        exact absurd h (not_rounds hne hbody)
      · rintro ⟨j, m₁, -, hpasses, -⟩
        cases hpasses
    | some m₁ =>
      rw [hrun] at hbody
      have hpos := LoopBody.pos_run hrun
      have hnext : At code m₁.pos (List.replicate k b.bytes).flatten := by
        rw [hpos]
        exact hat.right
      rw [rounds_round hne hbody]
      constructor
      · rintro ⟨j, rfl, h⟩
        obtain ⟨i, m₂, rfl, hpasses, hrest⟩ := (ih hnext (by omega)).mp h
        exact ⟨i, m₂, rfl, hpasses, hrest⟩
      · rintro ⟨i, m₂, rfl, hpasses, hrest⟩
        exact ⟨i + k, rfl, (ih hnext (by omega)).mpr ⟨i, m₂, rfl, hpasses, hrest⟩⟩

/-- Once through the body of a loop and the `LOOP` behind it. -/
theorem rounds_turn {d : Byte} {pos : Nat} (hb : b.Movable)
    (hat : At code pos (b.bytes ++ [0xe2, d])) (hpos : m.pos = pos) (hstop : pos + b.len < stop) :
    Rounds code b stop n m m' ↔ ∃ j m₁ m₂, n = j + 1 ∧ b.run m = some m₁ ∧
      (m₁.moved (pos + b.len + 2) m.codeBase).execLoop d = some m₂ ∧
        Rounds code b stop j m₂ m' := by
  have hne : m.pos ≠ stop := by omega
  have hbody := round_body (b := b) (hpos ▸ hat.left)
  cases hrun : b.run m with
  | none =>
    rw [hrun] at hbody
    constructor
    · intro h
      exact absurd h (not_rounds hne hbody)
    · rintro ⟨j, m₁, m₂, -, h, -⟩
      cases h
  | some m₁ =>
    rw [hrun] at hbody
    have hpos₁ : m₁.pos = pos + b.len := by rw [LoopBody.pos_run hrun, hpos]
    have hne₁ : m₁.pos ≠ stop := by omega
    have hloop : round code b m₁ =
        ((m₁.moved (pos + b.len + 2) m.codeBase).execLoop d).map fun m' ↦ (0, m') := by
      rw [← LoopBody.codeBase_run hb hrun]
      exact round_loop hat.right hpos₁
    rw [rounds_round hne hbody]
    constructor
    · rintro ⟨j, rfl, h⟩
      cases hexec : (m₁.moved (pos + b.len + 2) m.codeBase).execLoop d with
      | none =>
        rw [hexec] at hloop
        exact absurd h (not_rounds hne₁ hloop)
      | some m₂ =>
        rw [hexec] at hloop
        exact ⟨j, m₁, m₂, rfl, rfl, hexec, (rounds_next hne₁ hloop).mp h⟩
    · rintro ⟨j, m₁', m₂, rfl, h₁, hexec, h⟩
      cases h₁
      rw [hexec] at hloop
      exact ⟨j, rfl, (rounds_next hne₁ hloop).mpr h⟩

/-- A count that has been set does not matter when it is set again. -/
theorem moved_setReg_moved (m : Machine) (v w : BitVec 64) (p q : Nat) (base base' : BitVec 64) :
    (((m.setReg 1 v).moved p base).setReg 1 w).moved q base' = (m.setReg 1 w).moved q base' :=
  congrArg (fun m ↦ m.moved q base') (m.setReg_setReg 1 v w)

/-- What `LOOP` does behind the body, for a count of `k + 1`. -/
theorem execLoop_count {d : Byte} {pos : Nat} {base : BitVec 64}
    (hd : (d.signExtend 64).toInt = -((b.len : Int) + 2)) (hk : k + 1 ≤ 2 ^ 64)
    (hrcx : m.regs 1 = BitVec.ofNat 64 (k + 1)) :
    (m.moved (pos + b.len + 2) base).execLoop d =
      some ((m.setReg 1 (BitVec.ofNat 64 k)).moved (if k = 0 then pos + b.len + 2 else pos) base) := by
  cases k with
  | zero => exact execLoop_one hrcx
  | succ k =>
    have hsucc : m.regs 1 = BitVec.ofNat 64 (k + 1) + 1 := by
      rw [hrcx]
      exact BitVec.ofNat_add (k + 1) 1
    have hne : m.regs 1 ≠ 1 := by
      rw [hrcx]
      intro h
      have hmod := congrArg BitVec.toNat h
      rw [BitVec.toNat_ofNat] at hmod
      change (k + 1 + 1) % 2 ^ 64 = 1 at hmod
      omega
    have hpred : BitVec.ofNat 64 (k + 1) = m.regs 1 - 1 := by
      rw [hsucc]
      exact (BitVec.add_sub_cancel _ 1).symm
    rw [hpred, if_neg (Nat.succ_ne_zero k)]
    refine execLoop_of_ne (m := m.moved (pos + b.len + 2) base) hne ?_
    show ((pos + b.len + 2 : Nat) : Int) + _ = pos
    omega

/-- A loop goes through its body as many times as its counter says, and leaves the counter zero. -/
theorem rounds_loop {d : Byte} {pos : Nat} (hb : b.Movable)
    (hat : At code pos (b.bytes ++ [0xe2, d])) (hd : (d.signExtend 64).toInt = -((b.len : Int) + 2))
    (hk : k + 1 ≤ 2 ^ 64) (hpos : m.pos = pos) (hrcx : m.regs 1 = BitVec.ofNat 64 (k + 1)) :
    Rounds code b (pos + b.len + 2) n m m' ↔
      n = k + 1 ∧ ∃ m₁, b.passes (k + 1) m = some m₁ ∧
        m' = (m₁.setReg 1 0).moved (pos + b.len + 2) m.codeBase := by
  induction k generalizing m n with
  | zero =>
    rw [rounds_turn hb hat hpos (by omega), LoopBody.passes]
    constructor
    · rintro ⟨j, m₁, m₂, rfl, hrun, hexec, h⟩
      rw [execLoop_count hd hk ((LoopBody.rcx_run hrun).trans hrcx)] at hexec
      cases hexec
      have hend : ((m₁.setReg 1 0).moved (pos + b.len + 2) m.codeBase).pos = pos + b.len + 2 := rfl
      obtain ⟨rfl, rfl⟩ := (rounds_arrived hend).mp h
      refine ⟨rfl, m₁, ?_, rfl⟩
      rw [hrun]
      rfl
    · rintro ⟨rfl, m₁, hpasses, rfl⟩
      obtain ⟨m₁', hrun, hm⟩ := Option.bind_eq_some_iff.mp hpasses
      cases hm
      have hexec := @execLoop_count _ _ _ _ _ pos m.codeBase hd hk
        ((LoopBody.rcx_run hrun).trans hrcx)
      exact ⟨0, m₁, _, rfl, hrun, hexec, .arrived rfl⟩
  | succ k ih =>
    rw [rounds_turn hb hat hpos (by omega), LoopBody.passes]
    let v : BitVec 64 := BitVec.ofNat 64 (k + 1)
    -- the machine that the loop goes on with, and its passes
    have hpasses : ∀ m₁ : Machine, b.passes (k + 1) ((m₁.setReg 1 v).moved pos m.codeBase) =
        (b.passes (k + 1) m₁).map fun m₂ ↦
          (m₂.setReg 1 v).moved (pos + (k + 1) * b.len) m.codeBase := by
      intro m₁
      rw [LoopBody.passes_moved hb, LoopBody.passes_setReg, Option.map_map]
      rfl
    have hrest : ∀ (m₁ : Machine) j,
        Rounds code b (pos + b.len + 2) j ((m₁.setReg 1 v).moved pos m.codeBase) m' ↔
          j = k + 1 ∧ ∃ m₂, b.passes (k + 1) ((m₁.setReg 1 v).moved pos m.codeBase) = some m₂ ∧
            m' = (m₂.setReg 1 0).moved (pos + b.len + 2) m.codeBase := by
      intro m₁ j
      have hv : ((m₁.setReg 1 v).moved pos m.codeBase).regs 1 = v := by
        show (m₁.setReg 1 v).regs 1 = v
        rw [Machine.regs_setReg, if_pos rfl]
      exact ih (by omega) rfl hv
    constructor
    · rintro ⟨j, m₁, m₂, rfl, hrun, hexec, h⟩
      rw [execLoop_count hd hk ((LoopBody.rcx_run hrun).trans hrcx)] at hexec
      cases hexec
      obtain ⟨rfl, m₃, hm₃, rfl⟩ := (hrest m₁ j).mp h
      rw [hpasses] at hm₃
      obtain ⟨m₄, hm₄, rfl⟩ := Option.map_eq_some_iff.mp hm₃
      refine ⟨rfl, m₄, ?_, moved_setReg_moved ..⟩
      rw [hrun]
      exact hm₄
    · rintro ⟨rfl, m₄, hm, rfl⟩
      obtain ⟨m₁, hrun, hm₄⟩ := Option.bind_eq_some_iff.mp hm
      have hexec := @execLoop_count _ _ _ _ _ pos m.codeBase hd hk
        ((LoopBody.rcx_run hrun).trans hrcx)
      have hm₅ : b.passes (k + 1) ((m₁.setReg 1 v).moved pos m.codeBase) =
          some ((m₄.setReg 1 v).moved (pos + (k + 1) * b.len) m.codeBase) := by
        rw [hpasses, hm₄]
        rfl
      exact ⟨k + 1, m₁, _, rfl, hrun, hexec,
        (hrest m₁ (k + 1)).mpr ⟨rfl, _, hm₅, (moved_setReg_moved ..).symm⟩⟩

/-- The same from any state, for a count up to `2 ^ 64`. -/
theorem rounds_loop_moved {d : Byte} {pos : Nat} {base : BitVec 64} (hb : b.Movable)
    (hat : At code pos (b.bytes ++ [0xe2, d])) (hd : (d.signExtend 64).toInt = -((b.len : Int) + 2))
    (hpos : 0 < k) (hk : k ≤ 2 ^ 64) (hrcx : m.regs 1 = BitVec.ofNat 64 k) :
    Rounds code b (pos + b.len + 2) n (m.moved pos base) m' ↔
      n = k ∧ ∃ m₁, b.passes k m = some m₁ ∧
        m' = (m₁.setReg 1 0).moved (pos + b.len + 2) base := by
  obtain ⟨j, rfl⟩ := Nat.exists_eq_succ_of_ne_zero (Nat.ne_of_gt hpos)
  rw [rounds_loop (m := m.moved pos base) hb hat hd hk rfl hrcx, LoopBody.passes_moved hb]
  cases b.passes (j + 1) m with
  | none => simp
  | some m₁ =>
    constructor
    · rintro ⟨rfl, m₂, hm₂, rfl⟩
      cases hm₂
      exact ⟨rfl, m₁, rfl, rfl⟩
    · rintro ⟨rfl, m₂, hm₂, rfl⟩
      cases hm₂
      exact ⟨rfl, _, rfl, rfl⟩

end Rules

/-- What is in front of a counted loop: `MOV ECX, n`, or `XOR ECX, ECX` with a move into the low byte of
`RCX` or of `RAX`. -/
inductive Counter where
  | ecx (n : BitVec 32)
  | cl (n : Byte)
  | al (n : Byte)
deriving DecidableEq

namespace Counter

def bytes : Counter → List Byte
  | ecx n => 0xb9 :: imm32 n
  | cl n => [0x31, 0xc9, 0xb1, n]
  | al n => [0x31, 0xc9, 0xb0, n]

/-- What it leaves in `RCX`. -/
def value : Counter → BitVec 64
  | ecx n => n.setWidth 64
  | cl n => n.setWidth 64
  | al _ => 0

/-- How many times a loop goes through its body. -/
def times (c : Counter) : Nat := if c.value = 0 then 2 ^ 64 else c.value.toNat

theorem times_pos (c : Counter) : 0 < c.times := by
  unfold times
  split
  · decide
  · next h => exact Nat.pos_of_ne_zero fun hzero ↦ h (BitVec.eq_of_toNat_eq hzero)

theorem times_le (c : Counter) : c.times ≤ 2 ^ 64 := by
  unfold times
  split
  · exact Nat.le_refl _
  · exact Nat.le_of_lt c.value.isLt

theorem value_eq (c : Counter) : c.value = BitVec.ofNat 64 c.times := by
  unfold times
  split
  · next h =>
    rw [h]
    rfl
  · rw [BitVec.ofNat_toNat, BitVec.setWidth_eq]

end Counter

section Counters

variable {undef : Instr → Machine → Status} {rest : Instr → Machine → Option Machine}

/-- What is left undefined does not depend on the place of the code. -/
def placeless (undef : Instr → Machine → Status) : Instr → Machine → Status :=
  fun i m ↦ undef i (m.moved 0 0)

/-- `MOV ECX, n`. -/
def movEcx (n : BitVec 32) : Chunk where
  bytes := 0xb9 :: imm32 n
  instr := .movImm .b32 (.reg 1) (n.signExtend 64)
  decodes := by
    intro rest
    have hsize : Prefixes.none.size = .b32 := rfl
    rw [List.cons_append, decode, takePrefixes_opcode rfl]
    simp [decodeOpcode, takeImm, hsize, take32_imm32]
    rfl

/-- `XOR ECX, ECX`. -/
def xorEcx : Chunk where
  bytes := [0x31, 0xc9]
  instr := .alu .xor .b32 (.reg 1) (.reg 1)
  decodes := by
    intro rest
    have hsize : opSize .none 0x31#8 = .b32 := rfl
    rw [List.cons_append, decode, takePrefixes_opcode rfl]
    simp [decodeOpcode, hsize, takeRm]
    exact ⟨rfl, rfl, rfl⟩

theorem exec_movEcx (n : BitVec 32) (m : Machine) :
    (Semantics.core undef rest).exec (movEcx n).instr m = some (m.setReg 1 (n.setWidth 64)) := by
  show some (m.setReg 1 (((n.signExtend 64).setWidth 32).setWidth 64)) = _
  have hcut : (n.signExtend 64).setWidth 32 = n := by
    ext i hi
    have hlt : i < 64 := by omega
    simp [BitVec.getElem_signExtend, hi, hlt]
  rw [hcut]

theorem movEcx_uses (n : BitVec 32) (m : Machine) : ¬ Spares (.core undef rest) 1 (movEcx n).instr := by
  intro h
  have hexec := h m (n.setWidth 64 + 1)
  rw [exec_movEcx, exec_movEcx] at hexec
  have hregs := congrArg (fun m ↦ m.regs 1) (Option.some.inj hexec)
  simp at hregs

/-- What `XOR ECX, ECX` leaves. -/
def Machine.cleared (m : Machine) (u : Status) : Machine :=
  (m.setReg 1 0).setStatus (.ofLogic (0 : BitVec 32) u)

theorem exec_xorEcx (m : Machine) :
    (Semantics.core undef rest).exec xorEcx.instr m = some (m.cleared (undef xorEcx.instr m)) := by
  let a : BitVec 32 := (((m.regs 1).setWidth 32).setWidth 64).setWidth 32
  have hzero : a ^^^ a = 0 := BitVec.xor_self
  show some ((m.setReg 1 ((((a ^^^ a).setWidth 64).setWidth 32).setWidth 64)).setStatus
    (.ofLogic (a ^^^ a) (undef xorEcx.instr m))) = _
  rw [hzero]
  rfl

theorem xorEcx_uses (m : Machine) : ¬ Spares (.core undef rest) 1 xorEcx.instr := by
  intro h
  have hexec := h m 1
  rw [exec_xorEcx, exec_xorEcx] at hexec
  have hregs := congrArg (fun m ↦ m.regs 1) (Option.some.inj hexec)
  simp [Machine.cleared] at hregs

section Bytes

variable {code tail : List Byte} {pos : Nat} {op imm : Byte}

theorem loopAt_eq_none (h : At code pos (op :: tail)) (hop : op ≠ 0xe2) : loopAt code pos = none := by
  obtain ⟨rest, hrest⟩ := h
  rw [loopAt, ← hrest, List.cons_append]
  cases tail ++ rest with
  | nil => rfl
  | cons d tail => exact if_neg hop

theorem byteMoveAt_eq_none (h : At code pos (op :: tail)) (hop : op &&& 0xf8 ≠ 0xb0) :
    byteMoveAt code pos = none := by
  obtain ⟨rest, hrest⟩ := h
  rw [byteMoveAt, ← hrest, List.cons_append]
  cases tail ++ rest with
  | nil => rfl
  | cons d tail => exact if_neg hop

theorem byteMoveAt_of_at (h : At code pos [op, imm]) (hop : op &&& 0xf8 = 0xb0) :
    byteMoveAt code pos = some (op.extractLsb' 0 3, imm) := by
  obtain ⟨rest, hrest⟩ := h
  rw [byteMoveAt, ← hrest]
  exact if_pos hop

/-- A move into a byte register is none of the other instructions. -/
theorem decode_byteMove (h : At code pos [op, imm]) (hop : op = 0xb0 ∨ op = 0xb1) :
    decode (code.drop pos) = none := by
  obtain ⟨rest, hrest⟩ := h
  rw [← hrest]
  rcases hop with rfl | rfl <;> rfl

end Bytes

section Heads

variable {b : LoopBody (.core (placeless undef) rest)} {code : List Byte} {stop n pos : Nat}
  {m m' : Machine} {base : BitVec 64}

theorem rounds_movEcx {v : BitVec 32} (hat : At code pos (movEcx v).bytes) (hstop : pos ≠ stop) :
    Rounds code b stop n (m.moved pos base) m' ↔
      Rounds code b stop n ((m.setReg 1 (v.setWidth 64)).moved (pos + 5) base) m' := by
  apply rounds_next hstop
  rw [round_instr (c := movEcx v) hat (loopAt_eq_none hat (by decide))
    (byteMoveAt_eq_none hat (by decide)) (movEcx_uses v m), exec_movEcx]
  rfl

theorem rounds_xorEcx (hat : At code pos xorEcx.bytes) (hstop : pos ≠ stop) :
    Rounds code b stop n (m.moved pos base) m' ↔
      Rounds code b stop n
        ((m.cleared (placeless undef xorEcx.instr m)).moved (pos + 2) base) m' := by
  apply rounds_next hstop
  rw [round_instr (c := xorEcx) hat (loopAt_eq_none hat (by decide))
    (byteMoveAt_eq_none hat (by decide)) (xorEcx_uses m), exec_xorEcx]
  rfl

theorem rounds_byteMove {op imm : Byte} {r : Gpr} (hat : At code pos [op, imm])
    (hop : op = 0xb0 ∨ op = 0xb1) (hr : r = (op.extractLsb' 0 3).setWidth 4) (hstop : pos ≠ stop) :
    Rounds code b stop n (m.moved pos base) m' ↔
      Rounds code b stop n
        ((m.setReg r ((m.regs r).extractLsb' 8 56 ++ imm)).moved (pos + 2) base) m' := by
  have hrow : op &&& 0xf8 = 0xb0 ∧ op ≠ 0xe2 := by rcases hop with rfl | rfl <;> decide
  have hround := round_byteMove (b := b) (m := m.moved pos base) (loopAt_eq_none hat hrow.2)
    (byteMoveAt_of_at hat hrow.1) (decode_byteMove hat hop)
  apply rounds_next hstop
  rw [hround]
  have hput : ((m.moved pos base).past 2).put .b8 (imm.setWidth 64)
      (byteReg .none (gpr false (op.extractLsb' 0 3))) =
        some ((m.setReg r ((m.regs r).extractLsb' 8 56 ++ (imm.setWidth 64).setWidth 8)).moved
          (pos + 2) base) := by
    rw [hr]
    rcases hop with rfl | rfl <;> rfl
  rw [hput, BitVec.setWidth_setWidth_of_le _ (by decide), BitVec.setWidth_eq]
  rfl

/-- What a counter leaves, when the flags that are undefined have some values. -/
def Counter.set (u : Status) (m : Machine) : Counter → Machine
  | .ecx n => m.setReg 1 (n.setWidth 64)
  | .cl n => (m.cleared u).setReg 1 (((m.cleared u).regs 1).extractLsb' 8 56 ++ n)
  | .al n => (m.cleared u).setReg 0 (((m.cleared u).regs 0).extractLsb' 8 56 ++ n)

theorem Counter.rcx_set (c : Counter) (u : Status) (m : Machine) : (c.set u m).regs 1 = c.value := by
  have hlow : ∀ n : Byte, (0 : BitVec 64).extractLsb' 8 56 ++ n = n.setWidth 64 := by decide
  cases c with
  | ecx n => rfl
  | cl n => exact hlow n
  | al n => rfl

theorem rounds_counter {c : Counter} (hat : At code pos c.bytes)
    (hstop : pos + c.bytes.length ≤ stop) :
    Rounds code b stop n (m.moved pos base) m' ↔
      Rounds code b stop n
        ((c.set (placeless undef xorEcx.instr m) m).moved (pos + c.bytes.length) base) m' := by
  cases c with
  | ecx v =>
    have hne : pos ≠ stop := by
      change pos + 5 ≤ stop at hstop
      omega
    exact rounds_movEcx hat hne
  | cl v =>
    change pos + 4 ≤ stop at hstop
    have hhead : At code pos (xorEcx.bytes ++ [0xb1, v]) := hat
    have hlow : At code (pos + 2) [0xb1, v] := hhead.right
    rw [rounds_xorEcx hhead.left (by omega), rounds_byteMove hlow (.inr rfl) rfl (by omega)]
    rfl
  | al v =>
    change pos + 4 ≤ stop at hstop
    have hhead : At code pos (xorEcx.bytes ++ [0xb0, v]) := hat
    have hlow : At code (pos + 2) [0xb0, v] := hhead.right
    rw [rounds_xorEcx hhead.left (by omega), rounds_byteMove hlow (.inl rfl) rfl (by omega)]
    rfl

/-- A counter with its loop, from any state. -/
theorem rounds_counted {c : Counter} {d : Byte} (hb : b.Movable)
    (hat : At code pos (c.bytes ++ (b.bytes ++ [0xe2, d])))
    (hd : (d.signExtend 64).toInt = -((b.len : Int) + 2)) :
    Rounds code b (pos + c.bytes.length + b.len + 2) n (m.moved pos base) m' ↔
      n = c.times ∧ ∃ m₁, b.passes c.times (c.set (placeless undef xorEcx.instr m) m) = some m₁ ∧
        m' = (m₁.setReg 1 0).moved (pos + c.bytes.length + b.len + 2) base := by
  have hcount := (c.rcx_set (placeless undef xorEcx.instr m) m).trans c.value_eq
  rw [rounds_counter hat.left (by omega)]
  exact rounds_loop_moved hb hat.right hd c.times_pos c.times_le hcount

end Heads

end Counters

end Arm2x86.X86
