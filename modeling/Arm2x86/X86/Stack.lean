import Arm2x86.Base.Sparse
import Arm2x86.X86.Execution
import Arm2x86.X86.Runs

/-!
# The stack

Values that lie on the stack, and code that pushes and pops them.
-/

namespace Arm2x86.X86

/-- Quadwords that lie in memory from an address on. -/
def Stacked (mem : Sparse) (a : BitVec 64) : List (BitVec 64) → Prop
  | [] => True
  | v :: vs => mem.load a 8 = some (Machine.bytes v 8) ∧ Stacked mem (a + 8) vs

section Memory

variable {mem mem' : Sparse} {a v : BitVec 64} {vs : List (BitVec 64)}

private theorem off_add (a : BitVec 64) (i : Nat) :
    a + 8 + BitVec.ofNat 64 i = a + BitVec.ofNat 64 (8 + i) := by
  rw [BitVec.add_assoc, BitVec.ofNat_add]
  rfl

/-- They lie in any memory with the same bytes there. -/
theorem Stacked.congr (h : Stacked mem a vs)
    (hsame : ∀ i < 8 * vs.length, mem' (a + BitVec.ofNat 64 i) = mem (a + BitVec.ofNat 64 i)) :
    Stacked mem' a vs := by
  induction vs generalizing a with
  | nil => exact h
  | cons v vs ih =>
    rw [List.length_cons] at hsame
    constructor
    · rw [Sparse.load_congr fun i hi ↦ hsame i (by omega)]
      exact h.1
    · apply ih h.2
      intro i hi
      rw [off_add]
      exact hsame (8 + i) (by omega)

/-- One more in front of them. -/
theorem Stacked.push (h : Stacked mem (a + 8) vs) (hlen : 8 * vs.length + 8 ≤ 2 ^ 64) :
    Stacked (Sparse.overwrite mem a (Machine.bytes v 8)) a (v :: vs) := by
  constructor
  · exact Sparse.load_overwrite (by rw [Machine.length_bytes]; decide)
  · apply h.congr
    intro i hi
    rw [off_add]
    apply Sparse.overwrite_of_notMem
    rw [Region.mem_iff, BitVec.add_comm, BitVec.add_sub_cancel, BitVec.toNat_ofNat,
      Nat.mod_eq_of_lt (by omega)]
    show ¬ 8 + i < (Machine.bytes v 8).length
    rw [Machine.length_bytes]
    omega

end Memory

theorem Machine.pushed_pos {m m' : Machine} {v : BitVec 64} (h : m.pushed v = some m') :
    m'.pos = m.pos := by
  rw [Machine.pushed, Machine.store_eq, Option.map_map] at h
  obtain ⟨mem, -, rfl⟩ := Option.map_eq_some_iff.mp h
  rfl

/-- Some bytes below the stack pointer are mapped. -/
def Machine.Room (m : Machine) (n : Nat) : Prop :=
  ∀ i < n, (m.mem (m.regs 4 - BitVec.ofNat 64 n + BitVec.ofNat 64 i)).isSome

section Room

variable {m : Machine} {n : Nat}

/-- The quadword that is pushed next. -/
theorem Machine.Room.top (h : m.Room (n + 8)) :
    ∀ i < 8, (m.mem (m.regs 4 - 8 + BitVec.ofNat 64 i)).isSome := by
  intro i hi
  have haddr : m.regs 4 - BitVec.ofNat 64 (n + 8) + BitVec.ofNat 64 (n + i) =
      m.regs 4 - 8 + BitVec.ofNat 64 i := by
    rw [BitVec.ofNat_add, BitVec.ofNat_add]
    bv_omega
  rw [← haddr]
  exact h (n + i) (by omega)

/-- What is left below it. -/
theorem Machine.Room.below (h : m.Room (n + 8)) :
    ∀ i < n, (m.mem (m.regs 4 - 8 - BitVec.ofNat 64 n + BitVec.ofNat 64 i)).isSome := by
  intro i hi
  have haddr : m.regs 4 - BitVec.ofNat 64 (n + 8) = m.regs 4 - 8 - BitVec.ofNat 64 n := by
    rw [BitVec.ofNat_add]
    bv_omega
  rw [← haddr]
  exact h i (by omega)

end Room

/-- A state with some values on top of the stack of another. -/
structure Saved (m₀ m : Machine) (vs : List (BitVec 64)) : Prop where
  top : m.regs 4 + BitVec.ofNat 64 (8 * vs.length) = m₀.regs 4
  values : Stacked m.mem (m.regs 4) vs

namespace Saved

variable {m₀ m m' : Machine} {v : BitVec 64} {vs : List (BitVec 64)} {g : Gpr}
  {n : Nat}

theorem nil (m : Machine) : Saved m m [] := ⟨BitVec.add_zero _, trivial⟩

/-- The stack pointer and what it points to are all that counts. -/
theorem congr (h : Saved m₀ m vs) (htop : m'.regs 4 = m.regs 4)
    (hmem : ∀ i < 8 * vs.length,
      m'.mem (m.regs 4 + BitVec.ofNat 64 i) = m.mem (m.regs 4 + BitVec.ofNat 64 i)) :
    Saved m₀ m' vs := by
  constructor
  · rw [htop]
    exact h.top
  · rw [htop]
    exact h.values.congr hmem

theorem setReg (h : Saved m₀ m vs) (hg : g ≠ 4) (v : BitVec 64) : Saved m₀ (m.setReg g v) vs :=
  h.congr (if_neg (Ne.symm hg)) fun _ _ ↦ rfl

theorem setPos (h : Saved m₀ m vs) (p : Nat) : Saved m₀ { m with pos := p } vs :=
  h.congr rfl fun _ _ ↦ rfl

/-- A push where there is room. -/
theorem pushed (h : Saved m₀ m vs) (hlen : 8 * vs.length + 8 ≤ 2 ^ 64) (hroom : m.Room (n + 8)) :
    ∃ m', m.pushed v = some m' ∧ Saved m₀ m' (v :: vs) ∧ m'.pos = m.pos ∧
      (∀ r ≠ 4, m'.regs r = m.regs r) ∧ m'.Room n := by
  obtain ⟨bs, hbs⟩ := Sparse.exists_load_iff.mpr hroom.top
  have hpush : m.pushed v = some
      ({ m with mem := Sparse.overwrite m.mem (m.regs 4 - 8) (Machine.bytes v 8) }.setReg 4
        (m.regs 4 - 8)) := by
    rw [Machine.pushed, Machine.store_eq, Sparse.store, Machine.length_bytes, hbs]
    rfl
  refine ⟨_, hpush, ⟨?_, ?_⟩, rfl, fun r hr ↦ if_neg hr, fun i hi ↦ ?_⟩
  · rw [← h.top, List.length_cons, Nat.mul_succ, Nat.add_comm, BitVec.ofNat_add]
    show m.regs 4 - 8 + (8 + BitVec.ofNat 64 (8 * vs.length)) = _
    rw [← BitVec.add_assoc, BitVec.sub_add_cancel]
  · apply Stacked.push ?_ hlen
    show Stacked m.mem (m.regs 4 - 8 + 8) vs
    rw [BitVec.sub_add_cancel]
    exact h.values
  · show ((Machine.bytes v 8)[_]?.or (m.mem (m.regs 4 - 8 - _ + _))).isSome = true
    rw [Option.isSome_or, hroom.below i hi, Bool.or_true]

/-- A pop of the value on top. -/
theorem popped (h : Saved m₀ m (v :: vs)) :
    m.popped = some (v, m.setReg 4 (m.regs 4 + 8)) ∧ Saved m₀ (m.setReg 4 (m.regs 4 + 8)) vs := by
  constructor
  · have hload : m.load (m.regs 4) 8 = some (Machine.bytes v 8) := h.values.1
    rw [Machine.popped, hload]
    show some (Machine.value (Machine.bytes v 8), _) = _
    rw [Machine.value_bytes]
  · refine ⟨?_, h.values.2⟩
    have htop := h.top
    rw [List.length_cons, Nat.mul_succ, Nat.add_comm, BitVec.ofNat_add, ← BitVec.add_assoc] at htop
    exact htop

variable {undef : Instr → Machine → Status} {rest : Instr → Machine → Option Machine}
  {whole : List Byte} {c : Chunk}

theorem runs_push (h : Saved m₀ m vs) (hc : c.instr = .push g) (hat : At whole m.pos c.bytes)
    (hlen : 8 * vs.length + 8 ≤ 2 ^ 64) (hroom : m.Room (n + 8)) :
    ∃ m', (Semantics.core undef rest).Runs whole m m' ∧ Saved m₀ m' (m.regs g :: vs) ∧
      m'.pos = m.pos + c.bytes.length ∧ (∀ r ≠ 4, m'.regs r = m.regs r) ∧ m'.Room n := by
  obtain ⟨m', hpush, hsaved, hpos, hregs, hroom'⟩ :=
    (h.setPos (m.pos + c.bytes.length)).pushed (v := m.regs g) hlen hroom
  refine ⟨m', Semantics.runs_chunk hat ?_, hsaved, hpos, hregs, hroom'⟩
  rw [hc]
  exact hpush

theorem runs_pop (h : Saved m₀ m (v :: vs)) (hc : c.instr = .pop g) (hg : g ≠ 4)
    (hat : At whole m.pos c.bytes) :
    ∃ m', (Semantics.core undef rest).Runs whole m m' ∧ Saved m₀ m' vs ∧
      m'.pos = m.pos + c.bytes.length ∧ m'.regs g = v ∧ ∀ r ≠ 4, r ≠ g → m'.regs r = m.regs r := by
  obtain ⟨hpop, hsaved⟩ := (h.setPos (m.pos + c.bytes.length)).popped
  refine ⟨_, Semantics.runs_chunk hat ?_, hsaved.setReg hg v, rfl, if_pos rfl, fun r hr hrg ↦ ?_⟩
  · rw [hc]
    show Option.map _ (Machine.popped _) = _
    rw [hpop]
    rfl
  · exact (if_neg hrg).trans (if_neg hr)

end Saved

end Arm2x86.X86
