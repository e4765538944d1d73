import Arm2x86.X86.Moved
import Mathlib.Data.Set.Insert

/-!
# Flags that differ

Two states that are the same but for where they are and for some of the status flags. An instruction
carries such a difference when it does the same in both and leaves again nothing but a difference in
some flags. It reads none of the flags that differ then, and what it sets is the same behind it.
-/

namespace Arm2x86.X86

/-- A status flag. -/
inductive Flag where
  | carry
  | parity
  | adjust
  | zero
  | sign
  | overflow
deriving DecidableEq, Repr

namespace Status

def flag (s : Status) : Flag → Bool
  | .carry => s.carry
  | .parity => s.parity
  | .adjust => s.adjust
  | .zero => s.zero
  | .sign => s.sign
  | .overflow => s.overflow

/-- The flags outside of a set are the same. -/
def Agree (apart : Set Flag) (s s' : Status) : Prop := ∀ f, f ∉ apart → s'.flag f = s.flag f

/-- A condition that looks at no flag of a set. -/
def Unread (apart : Set Flag) (cc : BitVec 4) : Prop :=
  ∀ s s', Agree apart s s' → s'.holds cc = s.holds cc

variable {s s' : Status} {apart : Set Flag}

theorem Agree.refl (apart : Set Flag) (s : Status) : Agree apart s s := fun _ _ ↦ rfl

theorem agree_univ (s s' : Status) : Agree Set.univ s s' := fun f hf ↦ absurd (Set.mem_univ f) hf

/-- Zero does not look at the adjust flag. -/
theorem unread_zero : Unread {.adjust} 4 := by
  intro s s' h
  have hzero : s'.zero = s.zero := h .zero (by simp)
  show (s'.zero != false) = (s.zero != false)
  rw [hzero]

theorem bits_and_not_mask (s : Status) : s.bits &&& ~~~ mask = 0 := by
  rcases s with ⟨c, p, a, z, n, v⟩
  revert c p a z n v
  decide

/-- The status flags of a flags register. -/
theorem bits_ofBits (f : BitVec 64) : (ofBits f).bits = f &&& mask := by
  have hmask : mask = .twoPow 64 0 ||| .twoPow 64 2 ||| .twoPow 64 4 ||| .twoPow 64 6 |||
      .twoPow 64 7 ||| .twoPow 64 11 := by
    decide
  rw [hmask]
  simp only [BitVec.and_or_distrib_left, BitVec.and_twoPow]
  rfl

end Status

namespace Machine

variable (m : Machine)

/-- A state with its own flags. -/
theorem setStatus_status : m.setStatus m.status = m := by
  have hflags : m.flags &&& ~~~ Status.mask ||| m.status.bits = m.flags := by
    rw [status, Status.bits_ofBits, ← BitVec.and_or_distrib_left]
    have hall : ~~~ Status.mask ||| Status.mask = BitVec.allOnes 64 := by decide
    rw [hall, BitVec.and_allOnes]
  rw [setStatus, hflags]

/-- The last of two settings of the flags. -/
theorem setStatus_setStatus (s t : Status) : (m.setStatus s).setStatus t = m.setStatus t := by
  have hflags : (m.setStatus s).flags &&& ~~~ Status.mask = m.flags &&& ~~~ Status.mask := by
    show (m.flags &&& ~~~ Status.mask ||| s.bits) &&& ~~~ Status.mask = _
    rw [BitVec.and_or_distrib_right, Status.bits_and_not_mask, BitVec.and_assoc, BitVec.and_self]
    exact BitVec.or_zero
  rw [setStatus, hflags]
  rfl

end Machine

section Carrying

variable (sem : Semantics) (i : Instr) (d : BitVec 64) (apart apart' : Set Flag)

/-- An instruction that does the same with other flags, `d` bytes further on. -/
def Carries : Prop :=
  ∀ (m m₁ : Machine) (s : Status) (pos : Nat) (base : BitVec 64), m.status.Agree apart s →
    base + BitVec.ofNat 64 pos = m.next + d → sem.exec i m = some m₁ →
      m₁.pos = m.pos ∧ m₁.codeBase = m.codeBase ∧
        ∃ s', m₁.status.Agree apart' s' ∧
          sem.exec i ((m.setStatus s).moved pos base) = some ((m₁.setStatus s').moved pos base)

/-- An instruction that goes to the same address with other flags, `d` bytes further on. -/
def Exits : Prop :=
  ∀ (m m₁ : Machine) (s : Status) (pos : Nat) (base : BitVec 64), m.status.Agree apart s →
    base + BitVec.ofNat 64 pos = m.next + d → sem.exec i m = some m₁ →
      m₁.codeBase = m.codeBase ∧
        ∃ s' pos', m₁.status.Agree apart' s' ∧ base + BitVec.ofNat 64 pos' = m₁.next ∧
          sem.exec i ((m.setStatus s).moved pos base) = some ((m₁.setStatus s').moved pos' base)

end Carrying

section Instructions

variable {m m₁ : Machine} {size : Size} {loc : Loc} {s : Status} {apart : Set Flag}
  {undef : Instr → Machine → Status} {rest : Instr → Machine → Option Machine} {d : BitVec 64}

theorem fetch_setStatus : (m.setStatus s).fetch size loc = m.fetch size loc := by
  cases loc <;> cases size <;> rfl

theorem store_setStatus (a : BitVec 64) (bs : List Byte) :
    (m.setStatus s).store a bs = (m.store a bs).map fun m' ↦ m'.setStatus s := by
  show ((m.load a bs.length).bind fun _ ↦ _) = ((m.load a bs.length).bind fun _ ↦ _).map _
  cases m.load a bs.length <;> rfl

theorem put_setStatus (h : loc.Fixed) (v : BitVec 64) :
    (m.setStatus s).put size v loc = (m.put size v loc).map fun m' ↦ m'.setStatus s := by
  cases loc with
  | rip disp => exact absurd rfl (h disp)
  | reg r => cases size <;> rfl
  | high r => cases size <;> rfl
  | mem b index disp =>
    cases size <;> exact store_setStatus _ _

/-- A result leaves the place and the flags. -/
theorem put_keeps {v : BitVec 64} (h : loc.Fixed) (hput : m.put size v loc = some m₁) :
    m₁.pos = m.pos ∧ m₁.codeBase = m.codeBase := by
  have hself : m.put size v loc = (m.put size v loc).map fun m' ↦ m'.moved m.pos m.codeBase :=
    put_moved h v
  rw [hput] at hself
  have hmoved : m₁ = m₁.moved m.pos m.codeBase := Option.some.inj hself
  rw [hmoved]
  exact ⟨rfl, rfl⟩

/-- The arithmetic without a carry, with other flags in front of it and with others left undefined. -/
theorem run_agree {op : AluOp} (hadc : op ≠ .adc) (hsbb : op ≠ .sbb) {n : Nat} (a b : BitVec n)
    (c c' : Bool) (u u' : Status) :
    (op.run c' u' a b).1 = (op.run c u a b).1 ∧
      (op.run c u a b).2.Agree {.adjust} (op.run c' u' a b).2 := by
  have hlogic : ∀ r : BitVec n, (Status.ofLogic r u).Agree {.adjust} (.ofLogic r u') := by
    intro r f hf
    cases f with
    | adjust => exact absurd rfl hf
    | _ => rfl
  cases op with
  | adc => exact absurd rfl hadc
  | sbb => exact absurd rfl hsbb
  | or => exact ⟨rfl, hlogic _⟩
  | and => exact ⟨rfl, hlogic _⟩
  | xor => exact ⟨rfl, hlogic _⟩
  | add => exact ⟨rfl, .refl _ _⟩
  | sub => exact ⟨rfl, .refl _ _⟩
  | cmp => exact ⟨rfl, .refl _ _⟩

theorem execAlu_eq {u : Status} {op : AluOp} {a b : BitVec 64} (h : m.fetch size loc = some a) :
    m.execAlu u op size loc b =
      if op = .cmp then some (m.setStatus (op.run m.status.carry u (size.cut a) (size.cut b)).2)
      else m.putStatus size (op.run m.status.carry u (size.cut a) (size.cut b)).1
        (op.run m.status.carry u (size.cut a) (size.cut b)).2 loc := by
  rw [Machine.execAlu, h]
  rfl

/-- The arithmetic without a carry sets the flags but may leave the adjust flag undefined. -/
theorem execAlu_carries {op : AluOp} (hadc : op ≠ .adc) (hsbb : op ≠ .sbb) (hloc : loc.Fixed)
    {u u' : Status} {b : BitVec 64} {pos : Nat} {base : BitVec 64}
    (h : m.execAlu u op size loc b = some m₁) :
    m₁.pos = m.pos ∧ m₁.codeBase = m.codeBase ∧
      ∃ s', m₁.status.Agree {.adjust} s' ∧
        ((m.setStatus s).moved pos base).execAlu u' op size loc b =
          some ((m₁.setStatus s').moved pos base) := by
  obtain ⟨a, hfetch, -⟩ := Option.bind_eq_some_iff.mp h
  have hfetch' : ((m.setStatus s).moved pos base).fetch size loc = some a := by
    rw [fetch_moved hloc, fetch_setStatus, hfetch]
  obtain ⟨hresult, hagree⟩ := run_agree hadc hsbb (size.cut a) (size.cut b) m.status.carry
    ((m.setStatus s).moved pos base).status.carry u u'
  rw [execAlu_eq hfetch] at h
  rw [execAlu_eq hfetch', hresult]
  generalize (op.run ((m.setStatus s).moved pos base).status.carry u' (size.cut a)
    (size.cut b)).2 = t' at hagree ⊢
  generalize op.run m.status.carry u (size.cut a) (size.cut b) = result at h hagree ⊢
  -- the flags that are set take the place of all of those that were there
  have hset : ∀ m' : Machine, ((m'.setStatus s).moved pos base).setStatus t' =
      ((m'.setStatus result.2).setStatus t').moved pos base := by
    intro m'
    rw [m'.setStatus_setStatus]
    exact congrArg (fun m'' ↦ m''.moved pos base) (m'.setStatus_setStatus s t')
  by_cases hcmp : op = .cmp
  · rw [if_pos hcmp] at h ⊢
    cases h
    refine ⟨rfl, rfl, t', ?_, congrArg some (hset m)⟩
    rw [Machine.status_setStatus]
    exact hagree
  · rw [if_neg hcmp] at h ⊢
    obtain ⟨m₂, hput, rfl⟩ := Option.map_eq_some_iff.mp h
    obtain ⟨hpos, hbase⟩ := put_keeps hloc hput
    rw [Machine.putStatus, put_moved hloc, put_setStatus hloc, hput]
    refine ⟨hpos, hbase, t', ?_, congrArg some (hset m₂)⟩
    rw [Machine.status_setStatus]
    exact hagree

theorem carries_alu {op : AluOp} (hadc : op ≠ .adc) (hsbb : op ≠ .sbb) {dst src : Loc}
    (hdst : dst.Fixed) (hsrc : src.Fixed) :
    Carries (.core undef rest) (.alu op size dst src) d apart {.adjust} := by
  intro m m₁ s pos base _ _ hexec
  obtain ⟨b, hfetch, hexec⟩ := Option.bind_eq_some_iff.mp hexec
  obtain ⟨hpos, hbase, s', hagree, hexec'⟩ := execAlu_carries hadc hsbb hdst hexec
  refine ⟨hpos, hbase, s', hagree, ?_⟩
  show (((m.setStatus s).moved pos base).fetch size src).bind _ = _
  rw [fetch_moved hsrc, fetch_setStatus, hfetch]
  exact hexec'

/-- A return goes to the address on the stack. -/
theorem exits_ret : Exits (.core undef rest) .ret d apart apart := by
  intro m m₁ s pos base hagree _ hexec
  obtain ⟨⟨v, m₂⟩, hpopped, rfl⟩ := Option.map_eq_some_iff.mp hexec
  obtain ⟨bs, hload, hpop⟩ := Option.bind_eq_some_iff.mp hpopped
  cases hpop
  have hplace : ∀ v b : BitVec 64, b + BitVec.ofNat 64 (v - b).toNat = v := by
    intro v b
    rw [BitVec.ofNat_toNat, BitVec.setWidth_eq, BitVec.add_comm]
    exact BitVec.sub_add_cancel v b
  refine ⟨rfl, s, (Machine.value bs - base).toNat, hagree, ?_, ?_⟩
  · exact (hplace _ base).trans (hplace _ m.codeBase).symm
  · show ((m.load (m.regs 4) 8).bind _).map _ = _
    rw [hload]
    rfl

end Instructions

section Traces

variable (sem : Semantics) (code : List Byte)

/-- Whether the branch at a state is taken, if it stands at one. -/
def decision (m : Machine) : List Bool :=
  match decode (code.drop m.pos) with
  | some (.jcc cc _, _) => [m.status.holds cc]
  | _ => []

/-- The states that a state comes to, with the decisions on the way. -/
inductive Traced (m₀ : Machine) : List Bool → Machine → Prop
  | start : Traced m₀ [] m₀
  | step {ds : List Bool} {m m₁ : Machine} (h : Traced m₀ ds m) (hstep : sem.step code m = some m₁) :
      Traced m₀ (ds ++ decision code m) m₁

variable {sem code}

theorem decision_chunk {m : Machine} {c : Chunk} (hat : At code m.pos c.bytes) :
    decision code m = match c.instr with
      | .jcc cc _ => [m.status.holds cc]
      | _ => [] := by
  obtain ⟨tail, htail⟩ := hat
  unfold decision
  rw [← htail, c.decodes]
  cases c.instr <;> rfl

end Traces

end Arm2x86.X86
