import Arm2x86.A64.Branch
import Arm2x86.Translate.Block
import Arm2x86.Translate.DecodeMasks

/-!
# Decoded system instructions

What the decoder makes of the exceptions, the system register moves, the hints and the barriers.
The test for `SVC` stands behind a guard that no `SVC` passes, the barriers are compared with one
word each, and the field that has to be zero in a hint is one that no hint has zero.
-/

namespace Arm2x86.Translate

open A64 (System)

/-- The `INSTR_` constant of a system instruction. The decoder has one for the three calls. -/
def systemType : System → InstrType
  | .svc | .hvc | .smc => .svc
  | .brk => .brk
  | .hlt => .hlt
  | .mrs => .mrs
  | .msr | .msrImmediate => .msr
  | .hint => .hint
  | .dmb => .dmb
  | .dsb => .dsb
  | .isb => .isb
  | .eret => .eret

/-- A system call is translated by `translate_svc`, a barrier by `translate_dmb_dsb_isb`. -/
def ReachesTranslator (k : System) (op : BitVec 32) (d : DecodedInstruction) : Prop :=
  match k with
  | .svc => ∀ env t, translateOne env t d.instrType op d.imm = t.straight translateSvc
  | .dmb | .dsb | .isb =>
    ∀ env t, translateOne env t d.instrType op d.imm = t.emit (translateDmbDsbIsb env op)
  | _ => True

/-- A system instruction is decoded to what it is, with its immediate, and translated as such. -/
def SystemDecoded (op : BitVec 32) (d : DecodedInstruction) : Prop :=
  ∀ k : System, k.diagram.Matches op →
    (d.instrType = systemType k ∧ ∀ x ∈ k.imm op, d.imm = x.setWidth 32) ∧ ReachesTranslator k op d

/-- When a system instruction is decoded as it should be. -/
def systemExact (k : System) (op : BitVec 32) : Prop :=
  match k with
  | .mrs | .msr => True
  | .brk | .hlt => op.getLsbD 20 = false
  | .dmb | .dsb | .isb => op.extractLsb' 8 4 = 0
  | .svc | .hvc | .smc | .msrImmediate | .hint | .eret => False

variable {op : BitVec 32}

section Kinds

variable {k : System}

/-- The instruction is dispatched as its kind. -/
theorem reachesTranslator_of_type {d : DecodedInstruction} (h : d.instrType = systemType k) :
    ReachesTranslator k op d := by
  cases k <;> first
    | trivial
    | (intro env t
       rw [h]
       rfl)

/-- The exceptions that no test accepts. -/
theorem decode_exception (hk : k = .svc ∨ k = .hvc ∨ k = .smc ∨ k = .eret)
    (h : k.diagram.Matches op) : (decode op).instrType = .dataproc := by
  rcases hk with rfl | rfl | rfl | rfl <;>
    simp (disch := decide) only [decode, decodeRest, decodeDpRegister, maskEq_conflict h,
      beq_conflict h, Bool.or_false, Bool.false_eq_true, if_false, Option.getD_none]

/-- The field that the test for hints wants zero is three in every word that gets there. -/
theorem decode_hint (hk : k = .hint ∨ k = .msrImmediate) (h : k.diagram.Matches op) :
    (decode op).instrType = .dataproc := by
  by_cases hmask : maskEq op 0xffff001f 0xd503001f = true
  · have hcrm : op.extractLsb' 16 4 = (3 : BitVec 4) :=
      (maskEq_iff.mp hmask).extractLsb' rfl
    rcases hk with rfl | rfl <;>
      simp (disch := decide) only [decode, decodeSystem, maskEq_conflict h, maskEq_covered h,
        beq_conflict h, hmask, hcrm, Bool.or_false, Bool.false_eq_true, if_false, if_true,
        Option.getD_some] <;>
      rfl
  · rcases hk with rfl | rfl
    · exact absurd (maskEq_iff.mpr (h.covered rfl rfl)) hmask
    · simp (disch := decide) only [decode, decodeSystem, decodeRest, decodeDpRegister,
        maskEq_conflict h, maskEq_covered h, beq_conflict h, hmask, Bool.or_false,
        Bool.false_eq_true, if_false, if_true, Option.getD_none]

theorem decode_move (hk : k = .mrs ∨ k = .msr) (h : k.diagram.Matches op) :
    (decode op).instrType = systemType k := by
  rcases hk with rfl | rfl <;>
    simp (disch := decide) only [decode, decodeSystem, maskEq_conflict h, maskEq_covered h,
      beq_conflict h, Bool.or_false, Bool.false_eq_true, if_false, if_true, Option.getD_some,
      systemType]

/-- A breakpoint whose immediate has the top bit set fails the test. -/
theorem decode_breakpoint (hk : k = .brk ∨ k = .hlt) (h : k.diagram.Matches op) :
    ((decode op).instrType = systemType k ↔ op.getLsbD 20 = false) ∧
      (op.getLsbD 20 = false → (decode op).imm = (op.extractLsb' 5 16).setWidth 32) := by
  cases h20 : op.getLsbD 20
  · have hclass := h.bit 20 false h20
    rcases hk with rfl | rfl <;>
      simp (disch := decide) only [decode, decodeRest, maskEq_conflict h, maskEq_covered hclass,
        beq_conflict h, Bool.or_false, Bool.false_eq_true, if_false, if_true, Option.getD_none,
        systemType, implies_true, and_self]
  · have hclass := h.bit 20 true h20
    rcases hk with rfl | rfl <;>
      simp (disch := decide) [decode, decodeRest, decodeDpRegister, maskEq_conflict h,
        maskEq_conflict hclass, beq_conflict h, systemType]

/-- The word of the option that a barrier is compared with. -/
private theorem beq_barrier {c : BitVec 32} (h : Diagram.Matches ⟨0xfffff0ff, c⟩ op)
    (hc : c.extractLsb' 8 4 = 0) : (op == c) = true ↔ op.extractLsb' 8 4 = 0 := by
  rw [beq_iff_eq]
  constructor
  · rintro rfl
    exact hc
  · intro hoption
    have hall := h.both (Diagram.matches_field hoption)
    have hmask : (0xfffff0ff : BitVec 32) ||| (BitVec.allOnes 4).setWidth 32 <<< 8 =
        BitVec.allOnes 32 := by
      decide
    have hbits : c ||| (0 : BitVec 4).setWidth 32 <<< 8 = c := by simp
    rw [Diagram.Matches, hmask, hbits, BitVec.and_allOnes] at hall
    exact hall

/-- A barrier is compared with the word of one option. -/
theorem decode_barrier (hk : k = .dmb ∨ k = .dsb ∨ k = .isb) (h : k.diagram.Matches op) :
    (decode op).instrType = systemType k ↔ op.extractLsb' 8 4 = 0 := by
  have hcrm : op.extractLsb' 16 4 = (3 : BitVec 4) := by
    rcases hk with rfl | rfl | rfl <;> exact h.extractLsb' rfl
  have hword : (op == k.diagram.bits) = true ↔ op.extractLsb' 8 4 = 0 := by
    rcases hk with rfl | rfl | rfl <;> exact beq_barrier h rfl
  constructor
  · intro htype
    by_contra hoption
    have hne := Bool.eq_false_of_not_eq_true (hoption ∘ hword.mp)
    revert htype
    rcases hk with rfl | rfl | rfl <;> simp only [System.diagram] at hne <;>
      simp (disch := decide) only [decode, decodeSystem, maskEq_conflict h, maskEq_covered h,
        beq_conflict h, hne, hcrm, Bool.or_false, Bool.false_eq_true, if_false, if_true,
        Option.getD_some] <;>
      exact nofun
  · intro hoption
    have heq := hword.mpr hoption
    rcases hk with rfl | rfl | rfl <;> simp only [System.diagram] at heq <;>
      simp (disch := decide) only [decode, decodeSystem, maskEq_conflict h, maskEq_covered h,
        beq_conflict h, heq, Bool.or_false, Bool.false_eq_true, if_false, if_true,
        Option.getD_some, systemType]

end Kinds

/-- The words of a kind that are decoded as they should be. -/
theorem systemType_iff {k : System} (h : k.diagram.Matches op) :
    ((decode op).instrType = systemType k ∧
        ∀ x ∈ k.imm op, (decode op).imm = x.setWidth 32) ↔ systemExact k op := by
  have hwrong : (decode op).instrType = .dataproc → (decode op).instrType ≠ systemType k := by
    intro htype
    rw [htype]
    cases k <;> exact nofun
  have hno : ∀ {x : BitVec 16}, x ∈ (none : Option (BitVec 16)) →
      (decode op).imm = x.setWidth 32 := nofun
  cases k with
  | svc => exact iff_of_false (fun hs ↦ hwrong (decode_exception (by decide) h) hs.1) not_false
  | hvc => exact iff_of_false (fun hs ↦ hwrong (decode_exception (by decide) h) hs.1) not_false
  | smc => exact iff_of_false (fun hs ↦ hwrong (decode_exception (by decide) h) hs.1) not_false
  | eret => exact iff_of_false (fun hs ↦ hwrong (decode_exception (by decide) h) hs.1) not_false
  | hint => exact iff_of_false (fun hs ↦ hwrong (decode_hint (by decide) h) hs.1) not_false
  | msrImmediate => exact iff_of_false (fun hs ↦ hwrong (decode_hint (by decide) h) hs.1) not_false
  | mrs => exact iff_of_true ⟨decode_move (by decide) h, fun x ↦ hno⟩ trivial
  | msr => exact iff_of_true ⟨decode_move (by decide) h, fun x ↦ hno⟩ trivial
  | brk =>
    obtain ⟨htype, himm⟩ := decode_breakpoint (by decide) h
    exact ⟨fun hs ↦ htype.mp hs.1, fun h20 ↦
      ⟨htype.mpr h20, fun x hx ↦ (himm h20).trans (Option.some.inj hx ▸ rfl)⟩⟩
  | hlt =>
    obtain ⟨htype, himm⟩ := decode_breakpoint (by decide) h
    exact ⟨fun hs ↦ htype.mp hs.1, fun h20 ↦
      ⟨htype.mpr h20, fun x hx ↦ (himm h20).trans (Option.some.inj hx ▸ rfl)⟩⟩
  | dmb => exact (and_iff_left fun x ↦ hno).trans (decode_barrier (by decide) h)
  | dsb => exact (and_iff_left fun x ↦ hno).trans (decode_barrier (by decide) h)
  | isb => exact (and_iff_left fun x ↦ hno).trans (decode_barrier (by decide) h)

/-- A system instruction is decoded as it should be exactly when it is a register move, a breakpoint
with a small immediate or a barrier without an option. -/
theorem systemDecoded_iff (op : BitVec 32) :
    SystemDecoded op (decode op) ↔ ∀ k : System, k.diagram.Matches op → systemExact k op := by
  constructor
  · intro h k hk
    exact (systemType_iff hk).mp (h k hk).1
  · intro h k hk
    have hkind := (systemType_iff hk).mpr (h k hk)
    exact ⟨hkind, reachesTranslator_of_type hkind.1⟩

/-- `SVC #0` is decoded as data processing. -/
theorem svc_decoded_dataproc : ¬ SystemDecoded 0xd4000001 (decode 0xd4000001) := by
  intro h
  have htype := (h .svc (by decide)).1.1
  revert htype
  decide

end Arm2x86.Translate
