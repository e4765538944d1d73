import Arm2x86.Hotblock.Fusion
import Arm2x86.X86.Flags

/-!
# Dead code elimination

A run of the code and one of what the pass makes of it, from the same state and with the same decisions
at the branches. The second is kept along a run in which the bytes that are taken out are whole
instructions `NOP` and `TEST`, no flag of such a `TEST` is read before it is set again, and each jump has
as many bytes left out in front of its target as in front of what follows it.
-/

namespace Arm2x86.Hotblock

open Rewriting X86

section Statement

variable (s : Source)

/-- The number of bytes that are taken out at an index. -/
def deadAt (src : Nat) : Option Nat :=
  if deadTest s src then some 3
  else if deadLea s src then some 4
  else if deadNop s src then some 1
  else if deadMov s src then some 3
  else none

/-- The indices that the pass comes to, with the number of bytes left out in front of them. -/
inductive DeadComes : Nat → Nat → Prop
  | start : DeadComes 0 0
  | copied {src r : Nat} (h : DeadComes src r) (hlt : src < s.size) (hnone : deadAt s src = none) :
      DeadComes (src + 1) r
  | removed {src r n : Nat} (h : DeadComes src r) (hlt : src < s.size) (hdead : deadAt s src = some n) :
      DeadComes (src + n) (r + n)

/-- Where the pass comes to in its input and in its output. -/
abbrev DeadReached : Nat → Nat → Prop :=
  Reached (fun (_ : Unit) src ↦ (deadCodeTurn s src, ())) s.size () ()

/-- The code that the pass produces. -/
def eliminated (buf : Nat → Byte) : List Byte :=
  slice (optimizeDeadCodeElimination s buf).buf 0 (optimizeDeadCodeElimination s buf).dst

variable (base base' : BitVec 64)

/-- A place of the code and one of the output: the output has there what the pass has made of what stands
at the place, or both are the same address outside of the code. -/
def SamePlace (p q : Nat) : Prop :=
  (∃ r, DeadComes s p r ∧ q + r = p) ∨
    (s.size ≤ p ∧ base' + BitVec.ofNat 64 q = base + BitVec.ofNat 64 p)

variable (sem : Semantics) (buf : Nat → Byte)

/-- The output comes with the same decisions to the same registers and memory in the same place. -/
def EliminatedRight (m₀ : Machine) (ds : List Bool) (m : Machine) : Prop :=
  ∃ m', Traced sem (eliminated s buf) (m₀.moved 0 base') ds m' ∧ m'.regs = m.regs ∧
    m'.vectors = m.vectors ∧ m'.mem = m.mem ∧ SamePlace s base base' m.pos m'.pos

/-- Each run that leaves the code does so in the output. -/
def EliminationRight : Prop :=
  ∀ m₀ ds m, m₀.pos = 0 → m₀.codeBase = base → Traced sem (slice s.bytes 0 s.size) m₀ ds m →
    s.size ≤ m.pos → EliminatedRight s base base' sem buf m₀ ds m

/-- An instruction that is copied as a whole, with `r` bytes left out in front of it. -/
structure CopiedWhole (m : Machine) (c : Chunk) (r : Nat) : Prop where
  comes : DeadComes s m.pos r
  stands : At (slice s.bytes 0 s.size) m.pos c.bytes
  whole : ∀ k < c.bytes.length, deadAt s (m.pos + k) = none

/-- As many bytes are left out in front of a target, or the code has been moved by that many. -/
def JumpKept (r p : Nat) : Prop :=
  DeadComes s p r ∨ (s.size ≤ p ∧ base' = base + BitVec.ofNat 64 r)

/-- How far the output is from the code behind `r` bytes that are left out. -/
def shiftAt (r : Nat) : BitVec 64 := base' - base - BitVec.ofNat 64 r

/-- A step that the output keeps up with, from a state some of whose flags differ there. -/
inductive Survives (m : Machine) (apart : Set Flag) : Set Flag → Machine → Prop
  | nop {m₁ : Machine} (hlt : m.pos < s.size) (hdead : deadNop s m.pos = true) :
      Survives m apart apart m₁
  | test {m₁ : Machine} (hdead : deadTest s m.pos = true) : Survives m apart Set.univ m₁
  | carried {c : Chunk} {r : Nat} {apart' : Set Flag} {m₁ : Machine} (hcopied : CopiedWhole s m c r)
      (hjcc : ∀ cc rel, c.instr ≠ .jcc cc rel)
      (hcarries : Carries sem c.instr (shiftAt base base' r) apart apart') : Survives m apart apart' m₁
  | exits {c : Chunk} {r : Nat} {apart' : Set Flag} {m₁ : Machine} (hcopied : CopiedWhole s m c r)
      (hjcc : ∀ cc rel, c.instr ≠ .jcc cc rel)
      (hexits : Exits sem c.instr (shiftAt base base' r) apart apart') (hleft : s.size ≤ m₁.pos) :
      Survives m apart apart' m₁
  | jcc {c : Chunk} {r : Nat} {cc : BitVec 4} {rel : BitVec 64} {m₁ : Machine}
      (hcopied : CopiedWhole s m c r) (hinstr : c.instr = .jcc cc rel)
      (hunread : Status.Unread apart cc)
      (htarget : m.status.holds cc = true → JumpKept s base base' r m₁.pos) :
      Survives m apart apart m₁
  | jmp {c : Chunk} {r : Nat} {rel : BitVec 64} {m₁ : Machine} (hcopied : CopiedWhole s m c r)
      (hinstr : c.instr = .jmp rel) (htarget : JumpKept s base base' r m₁.pos) :
      Survives m apart apart m₁

/-- A run of such steps, with the flags that differ behind it and its decisions. -/
inductive SurvivedRun (m₀ : Machine) : Set Flag → List Bool → Machine → Prop
  | start : SurvivedRun m₀ ∅ [] m₀
  | step {apart apart' : Set Flag} {ds : List Bool} {m m₁ : Machine} (h : SurvivedRun m₀ apart ds m)
      (hstep : sem.step (slice s.bytes 0 s.size) m = some m₁)
      (hsurvives : Survives s base base' sem m apart apart' m₁) :
      SurvivedRun m₀ apart' (ds ++ decision (slice s.bytes 0 s.size) m) m₁

end Statement

section Places

variable {s : Source} {src dst r n : Nat}

theorem deadCodeTurn_of_some (h : deadAt s src = some n) :
    (deadCodeTurn s src).len = n ∧ (deadCodeTurn s src).items = [] := by
  unfold deadAt at h
  unfold deadCodeTurn
  split_ifs at h ⊢ <;> cases h <;> exact ⟨rfl, rfl⟩

theorem deadCodeTurn_of_none (h : deadAt s src = none) : deadCodeTurn s src = s.copyByte src := by
  unfold deadAt at h
  unfold deadCodeTurn
  split_ifs at h ⊢
  rfl

/-- The index in the output is the one in the input less what has been left out. -/
theorem DeadComes.reached (h : DeadComes s src r) : ∃ dst, DeadReached s src dst ∧ dst + r = src := by
  induction h with
  | start => exact ⟨0, .start, rfl⟩
  | @copied src r _ hlt hnone ih =>
    obtain ⟨dst, hreached, hdst⟩ := ih
    have hnext := hreached.turn hlt
    dsimp only at hnext
    rw [deadCodeTurn_of_none hnone] at hnext
    exact ⟨dst + 1, hnext, by omega⟩
  | @removed src r n _ hlt hdead ih =>
    obtain ⟨dst, hreached, hdst⟩ := ih
    obtain ⟨hlen, hitems⟩ := deadCodeTurn_of_some hdead
    have hnext := hreached.turn hlt
    dsimp only at hnext
    rw [hlen, hitems] at hnext
    exact ⟨dst, hnext, by omega⟩

theorem DeadComes.unique {r' : Nat} (h : DeadComes s src r) (h' : DeadComes s src r') : r' = r := by
  obtain ⟨dst, hreached, hdst⟩ := h.reached
  obtain ⟨dst', hreached', hdst'⟩ := h'.reached
  obtain ⟨-, rfl⟩ := hreached.unique hreached'
  omega

theorem DeadComes.le (h : DeadComes s src r) : r ≤ src := by
  obtain ⟨dst, -, hdst⟩ := h.reached
  omega

theorem DeadComes.copied_all (h : DeadComes s src r) (hsize : src + n ≤ s.size)
    (hnone : ∀ k < n, deadAt s (src + k) = none) : DeadComes s (src + n) r := by
  induction n with
  | zero => exact h
  | succ n ih =>
    have hcomes := ih (by omega) fun k hk ↦ hnone k (by omega)
    exact hcomes.copied (by omega) (hnone n (by omega))

theorem at_source {bs : List Byte} (h : At (slice s.bytes 0 s.size) src bs) :
    (0 < bs.length → src + bs.length ≤ s.size) ∧ slice s.bytes src bs.length = bs := by
  have hlen := h.length_le
  rw [List.length_drop, length_slice] at hlen
  by_cases hempty : bs.length = 0
  · have hnil := List.eq_nil_of_length_eq_zero hempty
    subst hnil
    exact ⟨fun hpos ↦ absurd hpos (lt_irrefl 0), rfl⟩
  · have hsize : src + bs.length ≤ s.size := by omega
    refine ⟨fun _ ↦ hsize, ?_⟩
    exact List.IsPrefix.eq_of_length (List.prefix_of_prefix_length_le (slice_stands hsize) h (by simp))
      (by simp)

/-- What the pass copies stands in its output. -/
theorem CopiedWhole.at_eliminated {m : Machine} {c : Chunk} (h : CopiedWhole s m c r)
    (hpos : 0 < c.bytes.length) (buf : Nat → Byte) (hdst : dst + r = m.pos) :
    At (eliminated s buf) dst c.bytes := by
  obtain ⟨hsize, hbytes⟩ := at_source h.stands
  obtain ⟨dst', hreached, hdst'⟩ := h.comes.reached
  obtain rfl : dst' = dst := by omega
  have hcopy : ∀ (_ : Unit) i, m.pos ≤ i → i < m.pos + c.bytes.length →
      (deadCodeTurn s i).len = 1 ∧ (deadCodeTurn s i).items = [s.bytes i] := by
    intro _ i hle hlt
    have hnone := h.whole (i - m.pos) (by omega)
    rw [Nat.add_sub_cancel' hle] at hnone
    rw [deadCodeTurn_of_none hnone]
    exact ⟨rfl, rfl⟩
  obtain ⟨_, -, hstands⟩ := hreached.copied (hsize hpos) hcopy
  rw [hbytes] at hstands
  unfold At eliminated optimizeDeadCodeElimination
  rwa [slice_rewrite fun _ src ↦ deadCodeTurn_exact s src]

theorem length_chunk_pos (c : Chunk) : 0 < c.bytes.length := by
  have hdec := c.decodes []
  cases hbytes : c.bytes with
  | nil =>
    rw [hbytes] at hdec
    cases hdec
  | cons b bs => simp

/-- No instruction stands behind the code. -/
theorem step_inside {sem : Semantics} {m m₁ : Machine}
    (h : sem.step (slice s.bytes 0 s.size) m = some m₁) : m.pos < s.size := by
  by_contra hle
  have hdrop : (slice s.bytes 0 s.size).drop m.pos = [] := by
    apply List.drop_eq_nil_of_le
    rw [length_slice]
    omega
  have hnone : sem.step (slice s.bytes 0 s.size) m = none := by
    rw [Semantics.step, hdrop]
    rfl
  rw [hnone] at h
  cases h

theorem deadAt_nop (h : deadNop s src = true) : deadAt s src = some 1 := by
  have hbyte : s.bytes src = 0x90 := by simpa [deadNop] using h
  have htest : deadTest s src = false := by simp [deadTest, hbyte]
  have hlea : deadLea s src = false := by simp [deadLea, hbyte]
  simp [deadAt, h, htest, hlea]

theorem deadAt_test (h : deadTest s src = true) : deadAt s src = some 3 := by
  rw [deadAt, if_pos h]

variable {base base' : BitVec 64}

theorem shift_place (h : dst + r = src) :
    base' + BitVec.ofNat 64 dst = base + BitVec.ofNat 64 src + shiftAt base base' r := by
  have hbehind : base + BitVec.ofNat 64 src = BitVec.ofNat 64 dst + (base + BitVec.ofNat 64 r) := by
    rw [← h, BitVec.ofNat_add, ← BitVec.add_assoc, ← BitVec.add_assoc, BitVec.add_comm base]
  have hshift : shiftAt base base' r = base' - (base + BitVec.ofNat 64 r) := BitVec.sub_sub ..
  rw [hbehind, hshift, BitVec.add_assoc, BitVec.add_comm (base + _), BitVec.sub_add_cancel,
    BitVec.add_comm]

/-- The target of a jump. -/
theorem JumpKept.place (h : JumpKept s base base' r n) (hr : r ≤ s.size) :
    r ≤ n ∧ SamePlace s base base' n (n - r) := by
  rcases h with hcomes | ⟨hsize, hbase⟩
  · have hle := hcomes.le
    exact ⟨hle, .inl ⟨r, hcomes, by omega⟩⟩
  · refine ⟨by omega, .inr ⟨hsize, ?_⟩⟩
    rw [hbase, BitVec.add_assoc, ← BitVec.ofNat_add]
    congr 2
    omega

end Places

section Runs

variable {s : Source} {base base' : BitVec 64} {buf : Nat → Byte} {m m' m₁ : Machine}
  {apart apart' : Set Flag} {c : Chunk} {r : Nat}

/-- The state of the output that goes with one of the code. -/
structure Matches (s : Source) (base base' : BitVec 64) (apart : Set Flag) (m m' : Machine) : Prop where
  state : ∃ st, m.status.Agree apart st ∧ m' = (m.setStatus st).moved m'.pos base'
  origin : m.codeBase = base
  place : SamePlace s base base' m.pos m'.pos

theorem Matches.pos_eq (h : Matches s base base' apart m m') (hlt : m.pos < s.size)
    (hcomes : DeadComes s m.pos r) : m'.pos + r = m.pos := by
  rcases h.place with ⟨r', hcomes', hpos⟩ | ⟨hle, -⟩
  · rw [hcomes'.unique hcomes]
    exact hpos
  · omega

/-- The address of the next instruction, from that of the one in the code. -/
theorem Matches.next_eq (h : Matches s base base' apart m m') (hlt : m.pos < s.size)
    (hcomes : DeadComes s m.pos r) (n : Nat) :
    base' + BitVec.ofNat 64 (m'.pos + n) = (m.past n).next + shiftAt base base' r := by
  have hpos := h.pos_eq hlt hcomes
  have hbase : (m.past n).codeBase = base := h.origin
  rw [Machine.next, hbase]
  exact shift_place (show m'.pos + n + r = m.pos + n by omega)

/-- Inside of the code the pass comes to the place. -/
theorem Matches.comes (h : Matches s base base' apart m m') (hlt : m.pos < s.size) :
    ∃ r, DeadComes s m.pos r ∧ m'.pos + r = m.pos := by
  rcases h.place with hinside | ⟨hle, -⟩
  · exact hinside
  · omega

section Semantics

variable {sem : Semantics}

/-- The instruction that is copied is executed in the output with the flags that it has there. -/
theorem Matches.step_copied (h : Matches s base base' apart m m') (hlt : m.pos < s.size)
    (hcopied : CopiedWhole s m c r) (buf : Nat → Byte) :
    At (eliminated s buf) m'.pos c.bytes ∧
      ∃ st, m.status.Agree apart st ∧ m'.status = st ∧ sem.step (eliminated s buf) m' =
        sem.exec c.instr (((m.past c.bytes.length).setStatus st).moved (m'.pos + c.bytes.length) base') := by
  have hat := hcopied.at_eliminated (length_chunk_pos c) buf (h.pos_eq hlt hcopied.comes)
  obtain ⟨st, hagree, hstate⟩ := h.state
  refine ⟨hat, st, hagree, ?_, ?_⟩
  · rw [hstate]
    exact Machine.status_setStatus m st
  · rw [Semantics.step_chunk c hat]
    congr 1
    exact congrArg (fun m'' : Machine ↦ { m'' with pos := m'.pos + c.bytes.length }) hstate

theorem decision_other {code : List Byte} (hat : At code m.pos c.bytes)
    (hjcc : ∀ cc rel, c.instr ≠ .jcc cc rel) : decision code m = [] := by
  rw [decision_chunk hat]
  split
  · next cc rel hinstr => exact absurd hinstr (hjcc cc rel)
  · rfl

theorem matches_carried (h : Matches s base base' apart m m') (hlt : m.pos < s.size)
    (hcopied : CopiedWhole s m c r)
    (hcarries : Carries sem c.instr (shiftAt base base' r) apart apart')
    (hexec : sem.exec c.instr (m.past c.bytes.length) = some m₁) :
    ∃ m₁', Matches s base base' apart' m₁ m₁' ∧ sem.step (eliminated s buf) m' = some m₁' := by
  have hpos := h.pos_eq hlt hcopied.comes
  obtain ⟨-, st, hagree, -, hstep⟩ := h.step_copied hlt hcopied buf
  have hplace := h.next_eq hlt hcopied.comes c.bytes.length
  obtain ⟨hpos₁, hbase₁, st', hagree', hexec'⟩ := hcarries (m.past c.bytes.length) m₁ st _ base' hagree hplace hexec
  have hend : m₁.pos = m.pos + c.bytes.length := hpos₁
  refine ⟨_, ⟨⟨st', hagree', rfl⟩, hbase₁.trans h.origin, .inl ⟨r, ?_, ?_⟩⟩, hstep.trans hexec'⟩
  · rw [hend]
    exact hcopied.comes.copied_all ((at_source hcopied.stands).1 (length_chunk_pos c)) hcopied.whole
  · show m'.pos + c.bytes.length + r = m₁.pos
    omega

theorem matches_exits (h : Matches s base base' apart m m') (hlt : m.pos < s.size)
    (hcopied : CopiedWhole s m c r)
    (hexits : Exits sem c.instr (shiftAt base base' r) apart apart') (hleft : s.size ≤ m₁.pos)
    (hexec : sem.exec c.instr (m.past c.bytes.length) = some m₁) :
    ∃ m₁', Matches s base base' apart' m₁ m₁' ∧ sem.step (eliminated s buf) m' = some m₁' := by
  obtain ⟨-, st, hagree, -, hstep⟩ := h.step_copied hlt hcopied buf
  have hplace := h.next_eq hlt hcopied.comes c.bytes.length
  obtain ⟨hbase₁, st', pos', hagree', haddress, hexec'⟩ := hexits (m.past c.bytes.length) m₁ st _ base' hagree hplace hexec
  have hbase : m₁.codeBase = base := hbase₁.trans h.origin
  rw [Machine.next, hbase] at haddress
  exact ⟨_, ⟨⟨st', hagree', rfl⟩, hbase, .inr ⟨hleft, haddress⟩⟩, hstep.trans hexec'⟩

end Semantics

/-- Nothing stands in the output for an instruction that is taken out. -/
theorem matches_removed {n : Nat} (h : Matches s base base' apart m m') (hlt : m.pos < s.size)
    (hdead : deadAt s m.pos = some n) {st : Status}
    (hstate : m' = (m₁.setStatus st).moved m'.pos base') (hagree : m₁.status.Agree apart' st)
    (hbase : m₁.codeBase = m.codeBase) (hpos : m₁.pos = m.pos + n) :
    Matches s base base' apart' m₁ m' := by
  obtain ⟨r, hcomes, hdst⟩ := h.comes hlt
  refine ⟨⟨st, hagree, hstate⟩, hbase.trans h.origin, .inl ⟨r + n, ?_, by omega⟩⟩
  rw [hpos]
  exact hcomes.removed hlt hdead

variable {undef : Instr → Machine → Status} {rest : Instr → Machine → Option Machine}

theorem matches_nop (h : Matches s base base' apart m m') (hlt : m.pos < s.size)
    (hdead : deadNop s m.pos = true)
    (hstep : (Semantics.core undef rest).step (slice s.bytes 0 s.size) m = some m₁) :
    Matches s base base' apart m₁ m' ∧ decision (slice s.bytes 0 s.size) m = [] := by
  let c : Chunk := ⟨[0x90], .nop, fun _ ↦ rfl⟩
  have hat : At (slice s.bytes 0 s.size) m.pos c.bytes := by
    have hbyte : s.bytes m.pos = 0x90 := by simpa [deadNop] using hdead
    show At _ _ [0x90]
    have hinside : m.pos + 1 ≤ s.size := hlt
    rw [← hbyte]
    exact slice_stands hinside
  rw [Semantics.step_chunk c hat] at hstep
  cases hstep
  obtain ⟨st, hagree, hstate⟩ := h.state
  refine ⟨matches_removed h hlt (deadAt_nop hdead) hstate hagree rfl rfl, ?_⟩
  exact decision_other hat (by simp [c])

theorem matches_test (h : Matches s base base' apart m m') (hdead : deadTest s m.pos = true)
    (hstep : (Semantics.core undef rest).step (slice s.bytes 0 s.size) m = some m₁) :
    Matches s base base' Set.univ m₁ m' ∧ decision (slice s.bytes 0 s.size) m = [] := by
  have hfound := hdead
  simp only [deadTest, decide_eq_true_eq] at hfound
  obtain ⟨h0, h1, hmod, -, hsize, -⟩ := hfound
  have hdec := fun tail ↦ @decode_test (s.bytes (m.pos + 2)) tail hmod
  have hat : At (slice s.bytes 0 s.size) m.pos [0x48, 0x85, s.bytes (m.pos + 2)] := by
    have hinside : m.pos + 3 ≤ s.size := by omega
    rw [← h0, ← h1]
    exact slice_stands hinside
  obtain ⟨u, hstep'⟩ := step_test64 hat hdec
  cases hstep.symm.trans hstep'
  obtain ⟨st, -, hstate⟩ := h.state
  refine ⟨matches_removed h (by omega) (deadAt_test hdead) ?_ (Status.agree_univ _ st) rfl rfl, ?_⟩
  · rw [Machine.tested, Machine.setStatus_setStatus]
    exact hstate
  · exact @decision_other _ ⟨_, _, hdec⟩ _ hat (by simp)

/-- A jump in the output. -/
theorem jump_moved {rel : BitVec 64} {st : Status} {q : Nat} (hq : q + r = m.pos)
    (hjump : m.jump rel = some m₁) (hr : r ≤ m₁.pos) :
    ((m.setStatus st).moved q base').jump rel = some ((m₁.setStatus st).moved (m₁.pos - r) base') := by
  unfold Machine.jump at hjump
  split at hjump
  · next hle =>
    cases hjump
    dsimp only at hr ⊢
    have hle' : 0 ≤ ((m.setStatus st).moved q base').pos + rel.toInt := by
      show 0 ≤ (q : Int) + rel.toInt
      omega
    rw [Machine.jump, if_pos hle']
    have hpos : ((q : Int) + rel.toInt).toNat = ((m.pos : Int) + rel.toInt).toNat - r := by omega
    exact congrArg (fun p ↦ some ((m.setStatus st).moved p base')) hpos
  · cases hjump

theorem matches_jump (h : Matches s base base' apart m m') (hlt : m.pos < s.size)
    (hcomes : DeadComes s m.pos r) {rel : BitVec 64} {st : Status} (hagree : m.status.Agree apart st)
    {n : Nat} (hjump : (m.past n).jump rel = some m₁) (htarget : JumpKept s base base' r m₁.pos) :
    ∃ m₁', Matches s base base' apart m₁ m₁' ∧
      (((m.past n).setStatus st).moved (m'.pos + n) base').jump rel = some m₁' := by
  have hpos := h.pos_eq hlt hcomes
  have hle := hcomes.le
  obtain ⟨hr, hplace⟩ := htarget.place (by omega)
  have hq : m'.pos + n + r = (m.past n).pos := by
    show m'.pos + n + r = m.pos + n
    omega
  refine ⟨_, ⟨⟨st, ?_, rfl⟩, ?_, hplace⟩, jump_moved hq hjump hr⟩
  · unfold Machine.jump at hjump
    split at hjump <;> cases hjump
    exact hagree
  · unfold Machine.jump at hjump
    split at hjump <;> cases hjump
    exact h.origin

/-- A jump that is not taken. -/
theorem Matches.past (h : Matches s base base' apart m m') (hlt : m.pos < s.size)
    (hcopied : CopiedWhole s m c r) {st : Status} (hagree : m.status.Agree apart st) :
    Matches s base base' apart (m.past c.bytes.length)
      (((m.past c.bytes.length).setStatus st).moved (m'.pos + c.bytes.length) base') := by
  have hpos := h.pos_eq hlt hcopied.comes
  have hsize := (at_source hcopied.stands).1 (length_chunk_pos c)
  refine ⟨⟨st, hagree, rfl⟩, h.origin, .inl ⟨r, hcopied.comes.copied_all hsize hcopied.whole, ?_⟩⟩
  show m'.pos + c.bytes.length + r = m.pos + c.bytes.length
  omega

theorem exec_jcc (cc : BitVec 4) (rel : BitVec 64) (m : Machine) :
    (Semantics.core undef rest).exec (.jcc cc rel) m =
      if m.status.holds cc then m.jump rel else some m := rfl

theorem matches_jcc (h : Matches s base base' apart m m') (hlt : m.pos < s.size)
    (hcopied : CopiedWhole s m c r) {cc : BitVec 4} {rel : BitVec 64} (hinstr : c.instr = .jcc cc rel)
    (hunread : Status.Unread apart cc)
    (htarget : m.status.holds cc = true → JumpKept s base base' r m₁.pos)
    (hstep : (Semantics.core undef rest).step (slice s.bytes 0 s.size) m = some m₁)
    (buf : Nat → Byte) :
    ∃ m₁', Matches s base base' apart m₁ m₁' ∧
      (Semantics.core undef rest).step (eliminated s buf) m' = some m₁' ∧
      decision (eliminated s buf) m' = decision (slice s.bytes 0 s.size) m := by
  obtain ⟨hat, st, hagree, hstatus, hstep'⟩ :=
    @Matches.step_copied _ _ _ _ _ _ _ _ (.core undef rest) h hlt hcopied buf
  have hholds : st.holds cc = m.status.holds cc := hunread _ _ hagree
  have hdecision : decision (eliminated s buf) m' = decision (slice s.bytes 0 s.size) m := by
    rw [decision_chunk hat, decision_chunk hcopied.stands, hinstr, hstatus]
    exact congrArg (fun b ↦ [b]) hholds
  rw [Semantics.step_chunk c hcopied.stands, hinstr] at hstep
  replace hstep : (if m.status.holds cc then (m.past c.bytes.length).jump rel
    else some (m.past c.bytes.length)) = some m₁ := hstep
  have hstatus' : (((m.past c.bytes.length).setStatus st).moved
      (m'.pos + c.bytes.length) base').status = st :=
    Machine.status_setStatus _ st
  rw [hinstr, exec_jcc, hstatus', hholds] at hstep'
  by_cases htaken : m.status.holds cc = true
  · rw [if_pos htaken] at hstep hstep'
    obtain ⟨m₁', hm, hjump⟩ := matches_jump h hlt hcopied.comes hagree hstep (htarget htaken)
    exact ⟨m₁', hm, hstep'.trans hjump, hdecision⟩
  · rw [if_neg htaken] at hstep hstep'
    cases hstep
    exact ⟨_, h.past hlt hcopied hagree, hstep', hdecision⟩

/-- One step of the code is one of the output with the same decision, or none of it. -/
theorem matches_step (h : Matches s base base' apart m m')
    (hstep : (Semantics.core undef rest).step (slice s.bytes 0 s.size) m = some m₁)
    (hsurvives : Survives s base base' (.core undef rest) m apart apart' m₁) (buf : Nat → Byte) :
    (Matches s base base' apart' m₁ m' ∧ decision (slice s.bytes 0 s.size) m = []) ∨
      ∃ m₁', Matches s base base' apart' m₁ m₁' ∧
        (Semantics.core undef rest).step (eliminated s buf) m' = some m₁' ∧
        decision (eliminated s buf) m' = decision (slice s.bytes 0 s.size) m := by
  have hlt := step_inside hstep
  cases hsurvives with
  | nop _ hdead => exact .inl (matches_nop h hlt hdead hstep)
  | test hdead => exact .inl (matches_test h hdead hstep)
  | @carried c r _ _ hcopied hjcc hcarries =>
    have hat := hcopied.at_eliminated (length_chunk_pos c) buf (h.pos_eq hlt hcopied.comes)
    rw [Semantics.step_chunk c hcopied.stands] at hstep
    obtain ⟨m₁', hm, hstep'⟩ := matches_carried h hlt hcopied hcarries hstep
    exact .inr ⟨m₁', hm, hstep', (decision_other hat hjcc).trans (decision_other hcopied.stands hjcc).symm⟩
  | @exits c r _ _ hcopied hjcc hexits hleft =>
    have hat := hcopied.at_eliminated (length_chunk_pos c) buf (h.pos_eq hlt hcopied.comes)
    rw [Semantics.step_chunk c hcopied.stands] at hstep
    obtain ⟨m₁', hm, hstep'⟩ := matches_exits h hlt hcopied hexits hleft hstep
    exact .inr ⟨m₁', hm, hstep', (decision_other hat hjcc).trans (decision_other hcopied.stands hjcc).symm⟩
  | jcc hcopied hinstr hunread htarget =>
    exact .inr (matches_jcc h hlt hcopied hinstr hunread htarget hstep buf)
  | @jmp c r rel _ hcopied hinstr htarget =>
    obtain ⟨hat, st, hagree, -, hstep'⟩ :=
      @Matches.step_copied _ _ _ _ _ _ _ _ (.core undef rest) h hlt hcopied buf
    have hjcc : ∀ cc rel, c.instr ≠ .jcc cc rel := by simp [hinstr]
    rw [Semantics.step_chunk c hcopied.stands, hinstr] at hstep
    rw [hinstr] at hstep'
    obtain ⟨m₁', hm, hjump⟩ := matches_jump h hlt hcopied.comes hagree hstep htarget
    exact .inr ⟨m₁', hm, hstep'.trans hjump,
      (decision_other hat hjcc).trans (decision_other hcopied.stands hjcc).symm⟩

theorem Matches.start {m₀ : Machine} (hpos : m₀.pos = 0) (hbase : m₀.codeBase = base) :
    Matches s base base' ∅ m₀ (m₀.moved 0 base') := by
  refine ⟨⟨m₀.status, .refl _ _, ?_⟩, hbase, .inl ⟨0, ?_, hpos.symm⟩⟩
  · rw [Machine.setStatus_status]
    rfl
  · rw [hpos]
    exact .start

/-- A run of the code is one of the output. -/
theorem matches_run {m₀ : Machine} {ds : List Bool} (hpos : m₀.pos = 0) (hbase : m₀.codeBase = base)
    (h : SurvivedRun s base base' (.core undef rest) m₀ apart ds m) (buf : Nat → Byte) :
    ∃ m', Traced (.core undef rest) (eliminated s buf) (m₀.moved 0 base') ds m' ∧
      Matches s base base' apart m m' := by
  induction h with
  | start => exact ⟨_, .start, .start hpos hbase⟩
  | @step apart apart' ds m m₁ _ hstep hsurvives ih =>
    obtain ⟨m', htraced, hm⟩ := ih
    rcases matches_step hm hstep hsurvives buf with ⟨hm₁, hnone⟩ | ⟨m₁', hm₁, hstep', hsame⟩
    · rw [hnone, List.append_nil]
      exact ⟨m', htraced, hm₁⟩
    · rw [← hsame]
      exact ⟨m₁', htraced.step hstep', hm₁⟩

end Runs

section Pass

/-- In a run in which each step survives, the output has come to the same registers and memory with the
same decisions, in each state that is reached. -/
theorem eliminatedRight_survived (undef : Instr → Machine → Status)
    (rest : Instr → Machine → Option Machine) (s : Source) (buf : Nat → Byte)
    (base base' : BitVec 64) {m₀ m : Machine} {apart : Set Flag} {ds : List Bool} (hpos : m₀.pos = 0)
    (hbase : m₀.codeBase = base) (h : SurvivedRun s base base' (.core undef rest) m₀ apart ds m) :
    EliminatedRight s base base' (.core undef rest) buf m₀ ds m := by
  obtain ⟨m', htraced, hm⟩ := matches_run hpos hbase h buf
  obtain ⟨st, -, hstate⟩ := hm.state
  refine ⟨m', htraced, ?_, ?_, ?_, hm.place⟩
  · rw [hstate]
    rfl
  · rw [hstate]
    rfl
  · rw [hstate]
    rfl

/-- `MOV RAX, 0x90`. -/
def movNinety : Source where
  bytes := fun i ↦ [0x48, 0xb8, 0x90].getD i 0
  size := 10

/-- The byte of the immediate is taken out as a `NOP`. -/
theorem eliminated_movNinety (buf : Nat → Byte) :
    eliminated movNinety buf = [0x48, 0xb8, 0, 0, 0, 0, 0, 0, 0] := by
  unfold eliminated optimizeDeadCodeElimination
  rw [slice_rewrite fun _ src ↦ deadCodeTurn_exact movNinety src]
  decide

theorem eq_of_traced_stuck {sem : Semantics} {code : List Byte} {m₀ m : Machine} {ds : List Bool}
    (hstuck : sem.step code m₀ = none) (h : Traced sem code m₀ ds m) : m = m₀ := by
  induction h with
  | start => rfl
  | step _ hstep ih =>
    rw [ih, hstuck] at hstep
    cases hstep

/-- What is left is no instruction. -/
theorem movNinety_not_right :
    ¬ EliminationRight movNinety 0 0 (.core (fun _ _ ↦ .ofBits 0) fun _ _ ↦ none) (fun _ ↦ 0) := by
  intro h
  let sem := Semantics.core (fun _ _ ↦ .ofBits 0) fun _ _ ↦ none
  have hat : At (slice movNinety.bytes 0 10) (uniform 0 0 0).pos
      (0x48 :: (0xb8 + (0 : BitVec 3).setWidth 8) :: imm64 0x90) :=
    ⟨[], rfl⟩
  have hmov : sem.step (slice movNinety.bytes 0 10) (uniform 0 0 0) =
      some (((uniform 0 0 0).past 10).setReg 0 0x90) :=
    step_movImm64 hat
  obtain ⟨m', htraced, hregs, -⟩ := h _ _ _ rfl rfl (Traced.start.step hmov) (Nat.le_refl 10)
  have hstuck : sem.step (eliminated movNinety fun _ ↦ 0) ((uniform 0 0 0).moved 0 0) = none := by
    rw [eliminated_movNinety]
    rfl
  rw [eq_of_traced_stuck hstuck htraced] at hregs
  exact absurd (congrFun hregs 0) (by decide)

/-- `TEST RAX, RAX`, `SUB RAX, RAX`, `JE` to the next instruction and `RET`. -/
def testSubJe : Source where
  bytes := fun i ↦ [0x48, 0x85, 0xc0, 0x48, 0x29, 0xc0, 0x0f, 0x84, 0, 0, 0, 0, 0xc3].getD i 0
  size := 13

/-- A state with an address on the stack that is not in the code. -/
def stacked : Machine := { uniform 0 0 0 with mem := fun _ ↦ some 0xff }

theorem testSubJe_comes {n : Nat} (hn : n ≤ 10) : DeadComes testSubJe (3 + n) 3 := by
  have hthree : DeadComes testSubJe 3 3 :=
    DeadComes.start.removed (by decide) (show deadAt testSubJe 0 = some 3 by decide)
  have hnone : ∀ k < 10, deadAt testSubJe (3 + k) = none := by decide
  apply hthree.copied_all (show 3 + n ≤ 13 by omega)
  exact fun k hk ↦ hnone k (by omega)

/-- Behind the `TEST` everything is copied. -/
theorem testSubJe_copied {m : Machine} {c : Chunk} {n : Nat} (hpos : m.pos = 3 + n)
    (hn : n + c.bytes.length ≤ 10) (hat : At (slice testSubJe.bytes 0 13) m.pos c.bytes) :
    CopiedWhole testSubJe m c 3 := by
  have hnone : ∀ k < 10, deadAt testSubJe (3 + k) = none := by decide
  refine ⟨?_, hat, fun k hk ↦ ?_⟩
  · rw [hpos]
    exact testSubJe_comes (by omega)
  · rw [hpos, Nat.add_assoc]
    exact hnone (n + k) (by omega)

theorem testSubJe_survives : ∃ apart ds m, testSubJe.size ≤ m.pos ∧
    SurvivedRun testSubJe 0 0 (.core (fun _ _ ↦ .ofBits 0) fun _ _ ↦ none) stacked apart ds m := by
  let sem := Semantics.core (fun _ _ ↦ .ofBits 0) fun _ _ ↦ none
  let code := slice testSubJe.bytes 0 13
  have hfixed : (Loc.reg 0).Fixed := by simp [Loc.Fixed]
  -- `TEST`
  have htest : At code stacked.pos [0x48, 0x85, 0xc0] := ⟨_, rfl⟩
  obtain ⟨u₁, hstep₁⟩ : ∃ u, sem.step code stacked = some ((stacked.past 3).tested u 0 0) :=
    step_test64 htest fun _ ↦ decode_test rfl
  have hstart : SurvivedRun testSubJe 0 0 sem stacked ∅ [] stacked := .start
  have hrun₁ := hstart.step hstep₁ (.test (by decide))
  -- `SUB`
  let m₁ := (stacked.past 3).tested u₁ 0 0
  let cSub : Chunk := ⟨[0x48, 0x29, 0xc0], .alu .sub .b64 (.reg 0) (.reg 0), fun _ ↦ decode_row rfl rfl⟩
  have hsub : At code m₁.pos cSub.bytes := ⟨_, rfl⟩
  obtain ⟨u₂, hstep₂⟩ : ∃ u, sem.step code m₁ = some ((m₁.past 3).arith u .sub 0 0) :=
    step_alu64 hsub cSub.decodes
  have hcopied₂ : CopiedWhole testSubJe m₁ cSub 3 := testSubJe_copied (n := 0) rfl (by decide) hsub
  have hcarries : Carries sem cSub.instr (shiftAt 0 0 3) Set.univ {.adjust} :=
    carries_alu (by decide) (by decide) hfixed hfixed
  have hrun₂ := hrun₁.step hstep₂ (.carried hcopied₂ (by simp [cSub]) hcarries)
  -- `JE`
  let m₂ := (m₁.past 3).arith u₂ .sub 0 0
  let cJe : Chunk := ⟨0x0f :: 0x84 :: imm32 0, .jcc 4 0, fun tail ↦ decode_jcc 0 tail rfl⟩
  have hje : At code m₂.pos cJe.bytes := ⟨_, rfl⟩
  have htaken : m₂.status.holds 4 = true := by
    rw [holds_je]
    show ((m₁.past 3).arith u₂ .sub 0 0).status.zero = true
    rw [Machine.arith, Machine.status_setStatus]
    exact zero_ofSub 0 0
  have hstep₃ : sem.step code m₂ = some (m₂.past 6) := by
    rw [Semantics.step_chunk cJe hje, exec_jcc]
    exact if_pos htaken
  have hcopied₃ : CopiedWhole testSubJe m₂ cJe 3 := testSubJe_copied (n := 3) rfl (by decide) hje
  have htarget : JumpKept testSubJe 0 0 3 (m₂.past 6).pos := .inl (testSubJe_comes (n := 9) (by decide))
  have hrun₃ := hrun₂.step hstep₃ (.jcc hcopied₃ rfl Status.unread_zero fun _ ↦ htarget)
  -- `RET`
  let m₃ := m₂.past 6
  let cRet : Chunk := ⟨[0xc3], .ret, fun _ ↦ rfl⟩
  have hret : At code m₃.pos cRet.bytes := ⟨_, rfl⟩
  have hstep₄ : sem.step code m₃ = some (((m₃.past 1).setReg 4 8).goto (BitVec.allOnes 64)) := by
    rw [Semantics.step_chunk cRet hret]
    rfl
  have hleft : testSubJe.size ≤ (((m₃.past 1).setReg 4 8).goto (BitVec.allOnes 64)).pos := by
    show 13 ≤ (BitVec.allOnes 64 - 0).toNat
    decide
  have hcopied₄ : CopiedWhole testSubJe m₃ cRet 3 := testSubJe_copied (n := 9) rfl (by decide) hret
  have hrun₄ := hrun₃.step hstep₄ (.exits hcopied₄ (by simp [cRet]) exits_ret hleft)
  exact ⟨_, _, _, hleft, hrun₄⟩

/-- The `TEST` is taken out, and the jump looks at the flags of the `SUB`. -/
theorem testSubJe_right : ∃ ds m, testSubJe.size ≤ m.pos ∧
    EliminatedRight testSubJe 0 0 (.core (fun _ _ ↦ .ofBits 0) fun _ _ ↦ none) (fun _ ↦ 0)
      stacked ds m := by
  obtain ⟨apart, ds, m, hleft, hrun⟩ := testSubJe_survives
  exact ⟨ds, m, hleft, eliminatedRight_survived _ _ testSubJe _ 0 0 rfl rfl hrun⟩

end Pass

end Arm2x86.Hotblock
