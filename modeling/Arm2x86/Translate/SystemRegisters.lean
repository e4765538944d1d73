import Arm2x86.Base.Stepping
import Arm2x86.Translate.Division

/-!
# Accesses to system registers

`translate_mrs` and `translate_msr` (`modules/arm2x86_translate64.c:2817`) over sequences of accesses to
`TPIDR_EL0` and `NZCV`. The cases of their switches are whole instruction words, and what they are
compared with has 17 bits, so every access comes to the default: a read is one of zero, and a write is
nothing.
-/

namespace Arm2x86.A64

/-- The system registers that a program reads and writes. -/
inductive SysReg where
  | tpidrEl0
  | nzcv
deriving DecidableEq, Repr

/-- `MSR` and `MRS`, with the general register. -/
inductive Access where
  | msr (reg : SysReg) (t : Fin 32)
  | mrs (reg : SysReg) (t : Fin 32)
deriving DecidableEq, Repr

/-- The instruction word of an access. -/
def Access.word : Access → BitVec 32
  | .msr .tpidrEl0 t => 0xd51bd040 ||| BitVec.ofNat 32 t
  | .msr .nzcv t => 0xd51b4200 ||| BitVec.ofNat 32 t
  | .mrs .tpidrEl0 t => 0xd53bd040 ||| BitVec.ofNat 32 t
  | .mrs .nzcv t => 0xd53b4200 ||| BitVec.ofNat 32 t

end Arm2x86.A64

namespace Arm2x86.Translate

open X86 Stepping
open A64 (SysReg Access)

section Statement

/-- The values in the slots, and those that the program has put into the system registers. -/
structure SysState where
  slots : ArmReg → BitVec 64
  tpidrEl0 : BitVec 64
  nzcv : BitVec 4

/-- What a read of a system register has to give; the flags are in bits 31 to 28. -/
def SysState.value (s : SysState) : SysReg → BitVec 64
  | .tpidrEl0 => s.tpidrEl0
  | .nzcv => (s.nzcv ++ 0#28).setWidth 64

/-- An access, or some other instructions, which leave any values in the slots. -/
inductive SysEvent where
  | access (a : Access)
  | others (slots : ArmReg → BitVec 64)

/-- What the translators emit for an access. -/
def accessCode (env : Env) : Access → List Byte
  | a@(.msr _ _) => (translateMsr env a.word).flatMap Item.bytes
  | a@(.mrs _ _) => (translateMrs env a.word).flatten

/-- The state behind an event: a write changes a system register, and of a read the slot is what the
emitted code leaves in it. -/
def SysState.next (s : SysState) : SysEvent → SysState
  | .access (.msr .tpidrEl0 t) => { s with tpidrEl0 := operand s.slots t }
  | .access (.msr .nzcv t) => { s with nzcv := (operand s.slots t).extractLsb' 28 4 }
  | .access (.mrs _ t) => { s with slots := Function.update s.slots t 0 }
  | .others slots => { s with slots }

/-- From every state with these slots the code of an access comes to its end with `RSP` as before, and
behind a read the slot of `Xt` has the value of the system register. -/
def SysEventRight (sem : Semantics) (env : Env) (s : SysState) : SysEvent → Prop
  | .access a => ∀ whole m, Slots m s.slots → At whole m.pos (accessCode env a) →
    ∃ m' slots', sem.Runs whole m m' ∧ m'.pos = m.pos + (accessCode env a).length ∧
      m'.regs 4 = m.regs 4 ∧ Slots m' slots' ∧
        ∀ reg t, a = .mrs reg t → t ≠ 31 → slots' t = s.value reg
  | .others _ => True

/-- A read of a system register whose value is zero, or into the zero register. -/
def ReadsZero (s : SysState) : SysEvent → Prop
  | .access (.mrs reg t) => t ≠ 31 → s.value reg = 0
  | _ => True

end Statement

section Code

variable (env : Env) (op : BitVec 32)

private theorem fieldAt_lt (lo len : Nat) : (fieldAt op lo len).toNat < 2 ^ len := by
  rw [fieldAt, BitVec.toNat_setWidth]
  exact Nat.lt_of_le_of_lt (Nat.mod_le _ _) (op.extractLsb' lo len).isLt

private theorem fieldAt_shift_lt {lo len k : Nat} (h : len + k ≤ 17) :
    (fieldAt op lo len <<< k).toNat < 2 ^ 17 := by
  rw [BitVec.toNat_shiftLeft, Nat.shiftLeft_eq]
  calc (fieldAt op lo len).toNat * 2 ^ k % 2 ^ 64
      ≤ (fieldAt op lo len).toNat * 2 ^ k := Nat.mod_le _ _
    _ < 2 ^ len * 2 ^ k := Nat.mul_lt_mul_of_pos_right (fieldAt_lt op lo len) (Nat.two_pow_pos k)
    _ = 2 ^ (len + k) := (Nat.pow_add 2 len k).symm
    _ ≤ 2 ^ 17 := Nat.pow_le_pow_right (by decide) h

/-- The number of a system register has 17 bits. -/
theorem sysreg_lt : (sysreg op).toNat < 2 ^ 17 := by
  rw [sysreg, BitVec.toNat_or, BitVec.toNat_or, BitVec.toNat_or, BitVec.toNat_or]
  have hop2 : (fieldAt op 5 3).toNat < 2 ^ 17 := Nat.lt_trans (fieldAt_lt op 5 3) (by decide)
  refine Nat.or_lt_two_pow (Nat.or_lt_two_pow (Nat.or_lt_two_pow (Nat.or_lt_two_pow ?_ ?_) ?_) ?_) hop2
  · exact fieldAt_shift_lt op (by decide)
  · exact fieldAt_shift_lt op (by decide)
  · exact fieldAt_shift_lt op (by decide)
  · exact fieldAt_shift_lt op (by decide)

/-- So it is none of the words it is compared with. -/
theorem sysreg_beq {v : BitVec 64} (h : 2 ^ 17 ≤ v.toNat) : (sysreg op == v) = false := by
  rw [beq_eq_false_iff_ne]
  rintro rfl
  exact Nat.not_lt.mpr h (sysreg_lt op)

/-- A read of any system register is one of zero. -/
theorem translateMrs_eq :
    translateMrs env op = [xorR64R64 rax rax, emitStoreArmReg rax (armReg op 0) true] := by
  simp [translateMrs, sysreg_beq]

/-- A write of any system register is ignored. -/
theorem translateMsr_eq : translateMsr env op = [] := by
  simp [translateMsr, sysreg_beq]

/-- The translator of an access. -/
def accessType : Access → InstrType
  | .msr _ _ => .msr
  | .mrs _ _ => .mrs

/-- The decoder knows the accesses. -/
theorem decode_word (a : Access) : (decode a.word).instrType = accessType a := by
  have key : ∀ (reg : SysReg) (t : ArmReg), (decode (Access.msr reg t).word).instrType = .msr ∧
      (decode (Access.mrs reg t).word).instrType = .mrs := by
    intro reg
    cases reg <;> decide
  cases a with
  | msr reg t => exact (key reg t).1
  | mrs reg t => exact (key reg t).2

theorem armReg_word (reg : SysReg) (t : ArmReg) : armReg (Access.mrs reg t).word 0 = t := by
  have key : ∀ t : ArmReg, armReg (Access.mrs .tpidrEl0 t).word 0 = t ∧
      armReg (Access.mrs .nzcv t).word 0 = t := by decide
  cases reg with
  | tpidrEl0 => exact (key t).1
  | nzcv => exact (key t).2

end Code

section Runs

variable (undef : Instr → Machine → Status) (rest : Instr → Machine → Option Machine) (env : Env)
variable {s : SysState}

/-- The code of an access. -/
theorem access_runs (a : Access) {whole : List Byte} {m : Machine} (hslots : Slots m s.slots)
    (hat : At whole m.pos (accessCode env a)) :
    ∃ m', (Semantics.core undef rest).Runs whole m m' ∧ m'.pos = m.pos + (accessCode env a).length ∧
      m'.regs 4 = m.regs 4 ∧ Slots m' (s.next (.access a)).slots := by
  cases a with
  | msr reg t =>
    have hcode : accessCode env (.msr reg t) = [] := by
      rw [accessCode, translateMsr_eq]
      rfl
    rw [hcode]
    refine ⟨m, Semantics.Runs.refl, rfl, rfl, ?_⟩
    cases reg <;> exact hslots
  | mrs reg t =>
    have hcode : accessCode env (.mrs reg t) = xorR64R64 rax rax ++ (emitStoreArmReg rax t true ++ []) := by
      rw [accessCode, translateMrs_eq, armReg_word]
      rfl
    rw [hcode] at hat ⊢
    have hdoes := (does_xorRax undef rest).append
      ((does_store undef rest t (x := rax) (by decide) true).append does_nil)
    have hview : View.Of ⟨s.slots, m.regs, m.status, m.mem⟩ m := ⟨hslots, rfl, rfl, fun _ _ ↦ rfl⟩
    obtain ⟨m', hrun, hpos, hv⟩ := hdoes whole m _ hview hat
    refine ⟨m', hrun, hpos, ?_, ?_⟩
    · rw [hv.regs]
      rfl
    · exact hv.slots

/-- A read comes out right when it is one of zero. -/
theorem eventRight_iff (e : SysEvent) : SysEventRight (Semantics.core undef rest) env s e ↔ ReadsZero s e := by
  cases e with
  | others slots => exact Iff.rfl
  | access a =>
    constructor
    · intro h
      cases a with
      | msr reg t => trivial
      | mrs reg t =>
        intro ht
        have hslots : Slots (homeMachine 0 s.slots (fun _ ↦ 0) (.ofBits 0)) s.slots := slots_homeMachine
        obtain ⟨m₁, hrun₁, hend₁, -, hslots₁⟩ := access_runs undef rest env (.mrs reg t) hslots (at_self _)
        obtain ⟨m₂, slots₂, hrun₂, hend₂, -, hslots₂, hvalue⟩ := h _ _ hslots (at_self _)
        rw [Semantics.runs_end_unique hrun₁ (hend₁.trans (Nat.zero_add _)) hrun₂
          (hend₂.trans (Nat.zero_add _))] at hslots₂
        rw [← hvalue reg t rfl ht, ← hslots₁.unique hslots₂]
        exact Function.update_self ..
    · intro h whole m hslots hat
      obtain ⟨m', hrun, hpos, hrsp, hslots'⟩ := access_runs undef rest env a hslots hat
      refine ⟨m', _, hrun, hpos, hrsp, hslots', ?_⟩
      rintro reg t rfl ht
      rw [h ht]
      exact Function.update_self ..

end Runs

section Result

/-- The accesses of a sequence come out right when every read is one of zero. -/
theorem accesses_right_iff (undef : Instr → Machine → Status)
    (rest : Instr → Machine → Option Machine) (env : Env) (s : SysState) (events : List SysEvent) :
    Each SysState.next (SysEventRight (Semantics.core undef rest) env) s events ↔
      Each SysState.next ReadsZero s events :=
  each_congr_of_iff fun _ e ↦ eventRight_iff undef rest env e

/-- `MSR TPIDR_EL0, X0` and `MRS X1, TPIDR_EL0`: what was written is not read. -/
theorem tpidr_lost :
    ¬ Each SysState.next (SysEventRight (Semantics.core (fun _ m ↦ m.status) fun _ _ ↦ none) .default)
      ⟨fun _ ↦ 1, 0, 0⟩ [.access (.msr .tpidrEl0 0), .access (.mrs .tpidrEl0 1)] := by
  rintro ⟨-, hread, -⟩
  have hzero := (eventRight_iff _ _ _ _).mp hread
  exact absurd (hzero (by decide)) (by decide)

end Result

end Arm2x86.Translate
