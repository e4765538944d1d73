import Arm2x86.A64.Branch
import Arm2x86.Translate.SlotRuns
import Arm2x86.Translate.Writes

/-!
# The conditional selects

`translate_csel` (`modules/arm2x86_translate64.c:1011`) and `translate_csinc`, `translate_csinv` and
`translate_csneg` (`:4003`) against what the instructions do to the guest registers. The carry of the
guest is kept the other way round in the carry of the host.
-/

namespace Arm2x86.A64

inductive Select where
  | csel
  | csinc
  | csinv
  | csneg
deriving DecidableEq, Repr

/-- What a select makes of its second operand. -/
def Select.otherwise : Select → BitVec 64 → BitVec 64
  | csel, b => b
  | csinc, b => b + 1
  | csinv, b => ~~~ b
  | csneg, b => - b

/-- The result of a select. -/
def Select.value (k : Select) (cond : BitVec 4) (f : Nzcv) (a b : BitVec 64) : BitVec 64 :=
  if condHolds cond f then a else k.otherwise b

end Arm2x86.A64

namespace Arm2x86.Translate

open X86

section Conditions

/-- The guest flags that the host flags stand for. -/
def nzcvOf (s : Status) : A64.Nzcv := ⟨s.sign, s.zero, !s.carry, s.overflow⟩

/-- The host condition of a guest condition. -/
def hostCond (cond : BitVec 4) : BitVec 4 := (arm64ToX86Cond cond).extractLsb' 0 4

/-- The conditions below 14 hold together. -/
theorem holds_hostCond {cond : BitVec 4} (h : cond < 14) (s : Status) :
    s.holds (hostCond cond) = A64.condHolds cond (nzcvOf s) := by
  have key : ∀ cond : BitVec 4, cond < 14 → ∀ c p a z n v,
      Status.holds ⟨c, p, a, z, n, v⟩ (hostCond cond) =
        A64.condHolds cond (nzcvOf ⟨c, p, a, z, n, v⟩) := by
    decide
  exact key cond h _ _ _ _ _ _

theorem condHolds_always {cond : BitVec 4} (h : ¬ cond < 14) (f : A64.Nzcv) :
    A64.condHolds cond f = true := by
  have key : ∀ cond : BitVec 4, ¬ cond < 14 → ∀ n z c v,
      A64.condHolds cond ⟨n, z, c, v⟩ = true := by
    decide
  exact key cond h _ _ _ _

/-- Some flags let a condition hold. -/
theorem exists_condHolds (cond : BitVec 4) : ∃ s, A64.condHolds cond (nzcvOf s) = true := by
  by_cases h : cond < 14
  · obtain ⟨s, hs⟩ := Status.exists_not_holds (hostCond cond ^^^ 1)
    exists s
    rw [Status.holds_xor_one, holds_hostCond h] at hs
    simpa using hs
  · exact ⟨.ofBits 0, condHolds_always h _⟩

/-- Where the condition is below 14 others do not. -/
theorem exists_not_condHolds {cond : BitVec 4} (h : cond < 14) :
    ∃ s, A64.condHolds cond (nzcvOf s) = false := by
  obtain ⟨s, hs⟩ := Status.exists_not_holds (hostCond cond)
  exists s
  rw [← holds_hostCond h, hs]

theorem condAt_eq_zero_iff (op : BitVec 32) : condAt op = 0 ↔ ¬ op.extractLsb' 12 4 < 14#4 := by
  have key : ∀ c : BitVec 4, arm64ToX86Cond c = 0 ↔ ¬ c < 14 := by decide
  exact key _

theorem condAt_ne_ff (op : BitVec 32) : condAt op ≠ 0xff := by
  have key : ∀ c : BitVec 4, arm64ToX86Cond c ≠ 0xff := by decide
  exact key _

theorem hostCond_jcc (op : BitVec 32) :
    (0x80 ||| condAt op).extractLsb' 0 4 = hostCond (op.extractLsb' 12 4) := by
  have key : ∀ c : BitVec 4, (0x80 ||| arm64ToX86Cond c).extractLsb' 0 4 = hostCond c := by decide
  exact key _

theorem hostCond_inverted (op : BitVec 32) :
    (condAt op ^^^ 1).extractLsb' 0 4 = hostCond (op.extractLsb' 12 4) ^^^ 1 := by
  have key : ∀ c : BitVec 4, (arm64ToX86Cond c ^^^ 1).extractLsb' 0 4 = hostCond c ^^^ 1 := by decide
  exact key _

end Conditions

section Rules

variable (undef : Instr → Machine → Status) (rest : Instr → Machine → Option Machine)
variable {f : View → View}

private theorem cut_not (w : Bool) (v : BitVec 64) : cut false (~~~ cut w v) = cut false (~~~ v) := by
  cases w with
  | true => rfl
  | false =>
    ext i hi
    by_cases h32 : i < 32
    · simp [cut, h32, hi]
    · simp [cut, h32]

private theorem cut_neg (w : Bool) (v : BitVec 64) : cut false (- cut w v) = cut false (- v) := by
  cases w with
  | true => rfl
  | false =>
    have hlow : (- ((v.setWidth 32).setWidth 64)).setWidth 32 = (- v).setWidth 32 := by
      apply BitVec.eq_of_toNat_eq
      simp only [BitVec.toNat_setWidth, BitVec.toNat_neg]
      omega
    exact congrArg (BitVec.setWidth 64) hlow

private theorem cut_low (x : BitVec 32) : cut false (x.setWidth 64) = x.setWidth 64 := by
  have hlow : (x.setWidth 64).setWidth 32 = x := by simp
  exact congrArg (BitVec.setWidth 64) hlow

/-- `not` and `neg` of `EAX`: there is no 64-bit form behind the prefix. -/
theorem does_notRax (w : Bool) : Does (Semantics.core undef rest) (unaryRax w 2)
    fun v ↦ v.setReg 0 (cut false (~~~ v.regs 0)) := by
  have hdec : ∀ tail, X86.decode (unaryRax w 2 ++ tail) = some (.not .b32 (.reg 0), tail) := by
    cases w <;> exact fun _ ↦ decode_prefixes rfl rfl
  apply does_instr hdec
  intro m v hv
  refine ⟨m.setReg 0 (cut false (~~~ cut false (m.regs 0))), rfl, rfl, ?_⟩
  rw [cut_not, hv.regs]
  exact hv.setReg (by decide) _

theorem does_negRax (w : Bool) : Does (Semantics.core undef rest) (unaryRax w 3)
    fun v ↦ { v.setReg 0 (cut false (- v.regs 0)) with
      status := .ofSub 0 (Size.b32.cut (v.regs 0)) false } := by
  have hdec : ∀ tail, X86.decode (unaryRax w 3 ++ tail) = some (.neg .b32 (.reg 0), tail) := by
    cases w <;> exact fun _ ↦ decode_prefixes rfl rfl
  apply does_instr hdec
  intro m v hv
  have hfetch : Size.b32.cut (cut false (m.regs 0)) = Size.b32.cut (m.regs 0) := by
    show ((m.regs 0).setWidth 32 |>.setWidth 64).setWidth 32 = (m.regs 0).setWidth 32
    simp
  have hvalue : cut false ((- Size.b32.cut (m.regs 0)).setWidth 64) = cut false (- m.regs 0) := by
    apply (cut_low (- Size.b32.cut (m.regs 0))).trans
    show (- (m.regs 0).setWidth 32).setWidth 64 = ((- m.regs 0).setWidth 32).setWidth 64
    have hneg : (- m.regs 0).setWidth 32 = - (m.regs 0).setWidth 32 :=
      BitVec.setWidth_neg_of_le (by decide)
    rw [hneg]
  have hexec : (Semantics.core undef rest).exec (.neg .b32 (.reg 0)) m =
      some ((m.setReg 0 (cut false ((- Size.b32.cut (cut false (m.regs 0))).setWidth 64))).setStatus
        (.ofSub 0 (Size.b32.cut (cut false (m.regs 0))) false)) := rfl
  rw [hfetch, hvalue] at hexec
  refine ⟨_, hexec, rfl, ?_⟩
  rw [hv.regs]
  exact (hv.setReg (by decide) _).setStatus rfl

/-- `add_r64_imm8` of `R11` reaches `EBX`. -/
theorem does_addR11 : Does (Semantics.core undef rest) (addR64Imm8 r11 1)
    fun v ↦ { v.setReg 3 (cut false ((Size.b32.cut (v.regs 3) + 1).setWidth 64)) with
      status := .ofAdd (Size.b32.cut (v.regs 3)) 1 false } := by
  have hdec : ∀ tail, X86.decode (addR64Imm8 r11 1 ++ tail) =
      some (.aluImm .add .b32 (.reg 3) 1, tail) :=
    fun _ ↦ decode_prefixes rfl rfl
  apply does_instr hdec
  intro m v hv
  have hfetch : Size.b32.cut (cut false (m.regs 3)) = Size.b32.cut (m.regs 3) := by
    show ((m.regs 3).setWidth 32 |>.setWidth 64).setWidth 32 = (m.regs 3).setWidth 32
    simp
  have hexec : (Semantics.core undef rest).exec (.aluImm .add .b32 (.reg 3) 1) m =
      some ((m.setReg 3 (cut false ((Size.b32.cut (cut false (m.regs 3)) + 1).setWidth 64))).setStatus
        (.ofAdd (Size.b32.cut (cut false (m.regs 3))) 1 false)) := rfl
  rw [hfetch] at hexec
  refine ⟨_, hexec, rfl, ?_⟩
  rw [hv.regs]
  exact (hv.setReg (by decide) _).setStatus rfl

/-- `mov_r64_r64` to `RAX` from `R11` goes the other way. -/
theorem does_movRaxR11 : Does (Semantics.core undef rest) (movR64R64 rax r11)
    fun v ↦ v.setReg 11 (v.regs 0) := by
  apply does_instr (decode_movR64R64 rax r11)
  intro m v hv
  refine ⟨m.setReg 11 (m.regs 0), rfl, rfl, ?_⟩
  rw [hv.regs]
  exact hv.setReg (by decide) _

/-- One operand through `RAX`. -/
theorem Does.viaRax {body : List Code} (rn rd : ArmReg) (w : Bool)
    (h : Does (Semantics.core undef rest) body.flatten f) :
    Does (Semantics.core undef rest) (viaRax rn rd w body).flatten fun v ↦
      let v' := f (v.setReg 0 (cut w (v.slots rn)))
      v'.store rd w (cut w (v'.regs 0)) := by
  have hload : loadedReg rax w = 0 := by cases w <;> rfl
  have hne : loadedReg rax w ≠ 5 := by
    rw [hload]
    decide
  have hdoes := (does_load undef rest rn hne).append
    (h.append (does_store undef rest rd (x := rax) (by decide) w))
  rw [hload] at hdoes
  rw [Translate.viaRax, List.flatten_cons, List.flatten_append, List.flatten_singleton]
  exact hdoes

end Rules

section Code

/-- The translators. -/
def selectCode (k : A64.Select) (op : BitVec 32) : List Code :=
  match k with
  | .csel => translateCsel op
  | .csinc => translateCsinc op
  | .csinv => translateCsinv op
  | .csneg => translateCsneg op

/-- What the code of a select puts to `Rd`. -/
def selected (k : A64.Select) (op : BitVec 32) (slots : ArmReg → BitVec 64) (s : Status) :
    BitVec 64 :=
  let cond := op.extractLsb' 12 4
  let a := slots (armReg op 5)
  let b := slots (armReg op 16)
  match k with
  | .csel =>
    -- `Rm` is in `Rd` already when `Rn` is read
    if A64.condHolds cond (nzcvOf s) then
      if cond < 14 ∧ armReg op 5 = armReg op 0 then b else a
    else b
  | .csinc => a
  | .csinv | .csneg => if s.holds (hostCond cond) then a else cut false (k.otherwise b)

variable (undef : Instr → Machine → Status) (rest : Instr → Machine → Option Machine)
variable (op : BitVec 32)

/-- Some code puts a value to the low part of one slot. -/
def PutsTo (sem : Semantics) (code : List Code) (w : Bool) (rd : ArmReg)
    (value : (ArmReg → BitVec 64) → Status → BitVec 64) : Prop :=
  ∃ f, Does sem code.flatten f ∧ ∀ v : View, (f v).slots =
    Function.update v.slots rd (merge w (v.slots rd) (value v.slots v.status))

/-- A value that some code leaves in `RAX` without a change of the slots. -/
theorem putsTo_viaRax {body : List Code} {f : View → View} {rn rd : ArmReg} {w : Bool}
    {value : (ArmReg → BitVec 64) → Status → BitVec 64}
    (h : Does (Semantics.core undef rest) body.flatten f) (hslots : ∀ v, (f v).slots = v.slots)
    (hvalue : ∀ v : View, cut w ((f (v.setReg 0 (cut w (v.slots rn)))).regs 0) =
      cut w (value v.slots v.status)) :
    PutsTo (Semantics.core undef rest) (viaRax rn rd w body) w rd value := by
  refine ⟨_, h.viaRax undef rest rn rd w, fun v ↦ ?_⟩
  show Function.update (f _).slots rd (merge w ((f _).slots rd) (cut w _)) = _
  rw [hslots, merge_cut, ← merge_cut, hvalue, merge_cut]
  rfl

/-- The view behind a copy of one register to another. -/
def View.copy (v : View) (w : Bool) (r rd : ArmReg) : View :=
  (v.setReg 0 (cut w (v.slots r))).store rd w (cut w (cut w (v.slots r)))

theorem slots_copy (v : View) (w : Bool) (r rd : ArmReg) : (v.copy w r rd).slots =
    Function.update v.slots rd (merge w (v.slots rd) (v.slots r)) := by
  show Function.update v.slots rd (merge w (v.slots rd) (cut w (cut w (v.slots r)))) = _
  rw [merge_cut, merge_cut]

/-- A copy over another one. -/
theorem slots_copy_copy (v : View) (w : Bool) (r r' rd : ArmReg) :
    ((v.copy w r rd).copy w r' rd).slots = Function.update v.slots rd
      (merge w (v.slots rd) (if r' = rd then v.slots r else v.slots r')) := by
  rw [slots_copy, slots_copy, Function.update_self, merge_merge, Function.update_idem]
  split
  · next he => rw [he, Function.update_self, ← merge_cut, cut_merge_eq, merge_cut]
  · next hne => rw [Function.update_of_ne hne]

theorem putsTo_csel : PutsTo (Semantics.core undef rest) (translateCsel op) (is64 op) (armReg op 0)
    (selected .csel op) := by
  have hff : (condAt op == 0xff) = false := beq_eq_false_iff_ne.mpr (condAt_ne_ff op)
  have hcopy : ∀ r, Does (Semantics.core undef rest) (viaRax r (armReg op 0) (is64 op) []).flatten
      fun v ↦ v.copy (is64 op) r (armReg op 0) :=
    fun r ↦ by
      have hnil : Does (Semantics.core undef rest) ([] : List Code).flatten id := does_nil
      exact hnil.viaRax undef rest r (armReg op 0) (is64 op)
  rw [translateCsel, hff]
  by_cases h : op.extractLsb' 12 4 < 14
  · have hal : condAt op ≠ 0 := (condAt_eq_zero_iff op).not.mpr (not_not.mpr h)
    have hlen : (viaRax (armReg op 5) (armReg op 0) (is64 op) []).flatten.length < 2 ^ 31 := by
      cases is64 op <;> exact Nat.le_of_ble_eq_true rfl
    have hdoes := (hcopy (armReg op 16)).append
      (does_jccOver undef rest (condAt_inverted hal) hlen (hcopy (armReg op 5)))
    rw [if_neg (fun he ↦ hal (beq_iff_eq.mp he)), if_neg Bool.false_ne_true]
    refine ⟨_, by rwa [List.flatten_append], fun v ↦ ?_⟩
    have hholds := Status.holds_xor_one v.status (hostCond (op.extractLsb' 12 4))
    rw [holds_hostCond h, ← hostCond_inverted] at hholds
    show View.slots (if v.status.holds ((condAt op ^^^ 1).extractLsb' 0 4) = true then _ else _) = _
    rw [hholds]
    by_cases hcond : A64.condHolds (op.extractLsb' 12 4) (nzcvOf v.status) = true
    · have hvalue : selected .csel op v.slots v.status =
          if armReg op 5 = armReg op 0 then v.slots (armReg op 16) else v.slots (armReg op 5) := by
        simp only [selected, hcond, if_true, h, true_and]
      rw [hcond, if_neg (by decide), slots_copy_copy, hvalue]
    · have hvalue : selected .csel op v.slots v.status = v.slots (armReg op 16) := if_neg hcond
      rw [Bool.not_eq_true] at hcond
      rw [hcond, Bool.not_false, if_pos rfl, slots_copy, hvalue]
  · have hvalue : ∀ v : View, selected .csel op v.slots v.status = v.slots (armReg op 5) := by
      intro v
      have hlow : ¬ (op.extractLsb' 12 4 < 14 ∧ armReg op 5 = armReg op 0) := fun hlt ↦ h hlt.1
      rw [selected, condHolds_always h, if_pos rfl, if_neg hlow]
    rw [if_pos (beq_iff_eq.mpr ((condAt_eq_zero_iff op).mpr h))]
    refine ⟨_, hcopy _, fun v ↦ ?_⟩
    rw [slots_copy, hvalue]

theorem putsTo_csinc : PutsTo (Semantics.core undef rest) (translateCsinc op) (is64 op) (armReg op 0)
    (selected .csinc op) := by
  have hbody : Does (Semantics.core undef rest) [addR64Imm8 r11 1, movR64R64 rax r11].flatten _ :=
    (does_addR11 undef rest).append ((does_movRaxR11 undef rest).append does_nil)
  have hload := does_load undef rest (armReg op 16) (x := r11) (w := is64 op) (by
    cases is64 op <;> decide)
  have hdoes := hload.append (does_jccOver undef rest (condAt_jcc op) (by decide) hbody)
  have hcode : translateCsinc op = viaRax (armReg op 5) (armReg op 0) (is64 op)
      (emitLoadArmReg (armReg op 16) r11 (is64 op) ::
        jccOver (0x80 ||| condAt op) [addR64Imm8 r11 1, movR64R64 rax r11]) := rfl
  have hne : (0 : Gpr) ≠ loadedReg r11 (is64 op) := by cases is64 op <;> decide
  rw [hcode]
  apply putsTo_viaRax undef rest (by rwa [List.flatten_cons])
  · intro v
    simp only [Function.comp_apply]
    split <;> rfl
  · intro v
    have hloaded : ∀ (v : View) a, (v.setReg (loadedReg r11 (is64 op)) a).regs 0 = v.regs 0 :=
      fun _ _ ↦ if_neg hne
    show cut _ (View.regs (if _ then _ else _) 0) = _
    split
    · exact (congrArg (cut _) (hloaded _ _)).trans (cut_cut _ _)
    · exact (congrArg (cut _) (hloaded _ _)).trans (cut_cut _ _)

/-- The two that change `RAX` under a condition. -/
theorem putsTo_conditionalSelect {ext : Byte} {k : A64.Select} {f : View → View}
    (h : Does (Semantics.core undef rest) (unaryRax (is64 op) ext) f)
    (hslots : ∀ v, (f v).slots = v.slots)
    (hvalue : ∀ v : View, ∀ a, (f (v.setReg 0 (cut (is64 op) a))).regs 0 = cut false (k.otherwise a))
    (hselected : ∀ slots s, selected k op slots s =
      if s.holds (hostCond (op.extractLsb' 12 4)) then slots (armReg op 5)
      else cut false (k.otherwise (slots (armReg op 16)))) :
    PutsTo (Semantics.core undef rest) (conditionalSelect op ext) (is64 op) (armReg op 0)
      (selected k op) := by
  have hload := does_load undef rest (armReg op 16) (x := rax) (w := is64 op) (by
    cases is64 op <;> decide)
  have hbody : Does (Semantics.core undef rest)
      [emitLoadArmReg (armReg op 16) rax (is64 op), unaryRax (is64 op) ext].flatten _ :=
    hload.append (h.append does_nil)
  have hlen : [emitLoadArmReg (armReg op 16) rax (is64 op), unaryRax (is64 op) ext].flatten.length <
      2 ^ 31 := by
    cases is64 op <;> exact Nat.le_of_ble_eq_true rfl
  have hreg : loadedReg rax (is64 op) = 0 := by cases is64 op <;> rfl
  rw [hreg] at hbody
  apply putsTo_viaRax undef rest (does_jccOver undef rest (condAt_jcc op) hlen hbody)
  · intro v
    show View.slots (if _ then v else f _) = _
    split
    · rfl
    · exact hslots _
  · intro v
    rw [hselected, hostCond_jcc]
    show cut _ (View.regs (if v.status.holds _ = true then _ else _) 0) = _
    split
    · exact cut_cut _ _
    · exact congrArg (cut _) (hvalue _ _)

theorem putsTo_select (k : A64.Select) : PutsTo (Semantics.core undef rest) (selectCode k op)
    (is64 op) (armReg op 0) (selected k op) := by
  cases k with
  | csel => exact putsTo_csel undef rest op
  | csinc => exact putsTo_csinc undef rest op
  | csinv =>
    exact putsTo_conditionalSelect undef rest op (does_notRax undef rest _) (fun _ ↦ rfl)
      (fun _ _ ↦ cut_not _ _) (fun _ _ ↦ rfl)
  | csneg =>
    exact putsTo_conditionalSelect undef rest op (does_negRax undef rest _) (fun _ ↦ rfl)
      (fun _ _ ↦ cut_neg _ _) (fun _ _ ↦ rfl)

end Code

section Matching

variable {w : Bool} {a b rd : ArmReg}

theorem exists_cut_ne (w : Bool) (h : a ≠ b) : ∃ slots : ArmReg → BitVec 64,
    cut w (slots a) ≠ cut w (slots b) := by
  exists fun r ↦ if r = a then 1 else 0
  dsimp only
  rw [if_pos rfl, if_neg (Ne.symm h)]
  cases w <;> decide

/-- When one slot is always the wanted value of a copy. -/
theorem copies_iff (w : Bool) (rd a b : ArmReg) :
    (∀ slots : ArmReg → BitVec 64, cut w (slots a) =
      if rd = 31 then cut w (slots 31) else cut w (operand slots b)) ↔
    if rd = 31 then a = 31 else a = b ∧ b ≠ 31 := by
  by_cases h31 : rd = 31
  · simp only [if_pos h31]
    constructor
    · intro h
      by_contra hne
      obtain ⟨slots, hslots⟩ := exists_cut_ne w hne
      exact hslots (h slots)
    · rintro rfl slots
      rfl
  · simp only [if_neg h31]
    constructor
    · intro h
      have hb : b ≠ 31 := by
        rintro rfl
        have hone := h fun _ ↦ 1
        rw [operand, if_pos rfl] at hone
        revert hone
        cases w <;> decide
      refine ⟨?_, hb⟩
      by_contra hne
      obtain ⟨slots, hslots⟩ := exists_cut_ne w hne
      have hcopy := h slots
      rw [operand, if_neg hb] at hcopy
      exact hslots hcopy
    · rintro ⟨rfl, hb⟩ slots
      rw [operand, if_neg hb]

/-- The selects whose result is right at the width. -/
def SelectMatches (k : A64.Select) (op : BitVec 32) : Prop :=
  let rd := armReg op 0
  let rn := armReg op 5
  let rm := armReg op 16
  let always := ¬ op.extractLsb' 12 4 < 14
  match k with
  | .csel => (rd = 31 ↔ rn = 31) ∧ (always ∨ (rd = 31 ↔ rm = 31) ∧ (rd = rn → rm = rn))
  | .csinc => (rd = 31 ↔ rn = 31) ∧ (always ∨ rd = 31)
  | .csinv | .csneg => is64 op = false ∧ ¬ always ∧ rd ≠ 31 ∧ rn ≠ 31 ∧ rm ≠ 31

instance (k : A64.Select) (op : BitVec 32) : Decidable (SelectMatches k op) :=
  match k with
  | .csel => inferInstanceAs (Decidable (_ ∧ (_ ∨ _ ∧ (_ → _))))
  | .csinc => inferInstanceAs (Decidable (_ ∧ (_ ∨ _)))
  | .csinv | .csneg => inferInstanceAs (Decidable (_ ∧ ¬ _ ∧ _ ∧ _ ∧ _))

/-- The value at the width that is wanted in the slot of `Rd`. -/
def wanted (k : A64.Select) (op : BitVec 32) (slots : ArmReg → BitVec 64) (s : Status) : BitVec 64 :=
  k.value (op.extractLsb' 12 4) (nzcvOf s) (operand slots (armReg op 5))
    (operand slots (armReg op 16))

/-- What is put to `Rd` is what is wanted there, at the width. -/
def PutsWanted (k : A64.Select) (op : BitVec 32) : Prop :=
  ∀ slots s, cut (is64 op) (selected k op slots s) =
    if armReg op 0 = 31 then cut (is64 op) (slots 31) else cut (is64 op) (wanted k op slots s)

variable {op : BitVec 32}

theorem wanted_of_holds {k : A64.Select} {slots : ArmReg → BitVec 64} {s : Status}
    (h : A64.condHolds (op.extractLsb' 12 4) (nzcvOf s) = true) :
    wanted k op slots s = operand slots (armReg op 5) := by
  rw [wanted, A64.Select.value, if_pos h]

theorem wanted_of_fails {k : A64.Select} {slots : ArmReg → BitVec 64} {s : Status}
    (h : A64.condHolds (op.extractLsb' 12 4) (nzcvOf s) = false) :
    wanted k op slots s = k.otherwise (operand slots (armReg op 16)) := by
  rw [wanted, A64.Select.value, if_neg (by rw [h]; exact Bool.false_ne_true)]

/-- A copy of the first operand is right for all flags that let the condition hold. -/
theorem holds_copies_iff (k : A64.Select) (op : BitVec 32) (a : ArmReg) :
    (∀ slots s, A64.condHolds (op.extractLsb' 12 4) (nzcvOf s) = true →
      cut (is64 op) (slots a) =
        if armReg op 0 = 31 then cut (is64 op) (slots 31) else cut (is64 op) (wanted k op slots s)) ↔
    if armReg op 0 = 31 then a = 31 else a = armReg op 5 ∧ armReg op 5 ≠ 31 := by
  rw [← copies_iff (is64 op)]
  obtain ⟨s, hs⟩ := exists_condHolds (op.extractLsb' 12 4)
  constructor
  · intro h slots
    have hcopy := h slots s hs
    rwa [wanted_of_holds hs] at hcopy
  · intro h slots s' hs'
    rw [wanted_of_holds hs']
    exact h slots

/-- A condition that fails is below 14. -/
theorem low_of_fails {s : Status} (h : A64.condHolds (op.extractLsb' 12 4) (nzcvOf s) = false) :
    op.extractLsb' 12 4 < 14#4 := by
  by_contra hlow
  rw [condHolds_always hlow] at h
  cases h

/-- The register whose value a `CSEL` leaves where the condition holds. -/
def cselSource (op : BitVec 32) : ArmReg :=
  if op.extractLsb' 12 4 < 14 ∧ armReg op 5 = armReg op 0 then armReg op 16 else armReg op 5

theorem putsWanted_csel_iff : PutsWanted .csel op ↔ SelectMatches .csel op := by
  have hholds : ∀ slots s, A64.condHolds (op.extractLsb' 12 4) (nzcvOf s) = true →
      selected .csel op slots s = slots (cselSource op) := by
    intro slots s hs
    rw [selected, hs, if_pos rfl, cselSource, apply_ite slots]
  have hfails : ∀ slots s, A64.condHolds (op.extractLsb' 12 4) (nzcvOf s) = false →
      selected .csel op slots s = slots (armReg op 16) := by
    intro slots s hs
    rw [selected, hs, if_neg Bool.false_ne_true]
  have hsource := holds_copies_iff .csel op (cselSource op)
  have hsecond := copies_iff (is64 op) (armReg op 0) (armReg op 16) (armReg op 16)
  constructor
  · intro h
    have hcopy := hsource.mp fun slots s hs ↦ hholds slots s hs ▸ h slots s
    have hlow : op.extractLsb' 12 4 < 14#4 →
        if armReg op 0 = 31 then armReg op 16 = 31
        else armReg op 16 = armReg op 16 ∧ armReg op 16 ≠ 31 := by
      intro hlt
      obtain ⟨s, hs⟩ := exists_not_condHolds hlt
      apply hsecond.mp
      intro slots
      have hput := h slots s
      rwa [hfails slots s hs, wanted_of_fails hs] at hput
    rw [cselSource] at hcopy
    rw [SelectMatches]
    grind
  · intro hmatches slots s
    rw [SelectMatches] at hmatches
    cases hs : A64.condHolds (op.extractLsb' 12 4) (nzcvOf s) with
    | true =>
      rw [hholds slots s hs]
      apply hsource.mpr _ slots s hs
      rw [cselSource]
      grind
    | false =>
      have hlt := low_of_fails hs
      rw [hfails slots s hs, wanted_of_fails hs]
      apply hsecond.mpr
      grind

theorem putsWanted_csinc_iff : PutsWanted .csinc op ↔ SelectMatches .csinc op := by
  have hsource := holds_copies_iff .csinc op (armReg op 5)
  constructor
  · intro h
    have hcopy := hsource.mp fun slots s _ ↦ h slots s
    have hlow : ¬ op.extractLsb' 12 4 < 14#4 ∨ armReg op 0 = 31 := by
      by_contra hne
      rw [not_or, not_not] at hne
      obtain ⟨s, hs⟩ := exists_not_condHolds hne.1
      have hzero := h (fun _ ↦ 0) s
      have hoperand : ∀ r, operand (fun _ ↦ 0) r = 0 := fun r ↦ ite_self _
      rw [if_neg hne.2, wanted_of_fails hs, hoperand] at hzero
      revert hzero
      cases is64 op <;> simp [selected, A64.Select.otherwise, cut]
    rw [SelectMatches]
    grind
  · intro hmatches slots s
    rw [SelectMatches] at hmatches
    cases hs : A64.condHolds (op.extractLsb' 12 4) (nzcvOf s) with
    | true =>
      apply hsource.mpr _ slots s hs
      grind
    | false =>
      have hrd : armReg op 0 = 31 := by
        have hlt := low_of_fails hs
        grind
      have hrn : armReg op 5 = 31 := hmatches.1.mp hrd
      rw [if_pos hrd, selected, hrn]

theorem putsWanted_csinv_iff {k : A64.Select} (hk : k = .csinv ∨ k = .csneg) :
    PutsWanted k op ↔ SelectMatches k op := by
  have hselected : ∀ slots s, selected k op slots s =
      if s.holds (hostCond (op.extractLsb' 12 4)) then slots (armReg op 5)
      else cut false (k.otherwise (slots (armReg op 16))) := by
    rcases hk with rfl | rfl <;> exact fun _ _ ↦ rfl
  have hmatches : SelectMatches k op ↔ is64 op = false ∧ op.extractLsb' 12 4 < 14#4 ∧
      armReg op 0 ≠ 31 ∧ armReg op 5 ≠ 31 ∧ armReg op 16 ≠ 31 := by
    rcases hk with rfl | rfl
    · simp only [SelectMatches, not_not]
      rfl
    · simp only [SelectMatches, not_not]
      rfl
  have hsource := holds_copies_iff k op (armReg op 5)
  have hones : ∀ w, cut w (cut false (k.otherwise 1)) ≠ cut w 1 ∧
      cut w (cut false (k.otherwise 1)) ≠ cut w 0 ∧
      cut w (cut false (k.otherwise 1)) ≠ cut w (k.otherwise 0) ∧
      cut true (cut false (k.otherwise 1)) ≠ cut true (k.otherwise 1) := by
    rcases hk with rfl | rfl <;> decide
  rw [hmatches]
  constructor
  · intro h
    obtain ⟨s, hs⟩ := Status.exists_not_holds (hostCond (op.extractLsb' 12 4))
    have hone := h (fun _ ↦ 1) s
    rw [hselected, hs, if_neg Bool.false_ne_true] at hone
    have hrd : armReg op 0 ≠ 31 := by
      intro hrd
      rw [if_pos hrd] at hone
      exact (hones _).1 hone
    rw [if_neg hrd] at hone
    have hlow : op.extractLsb' 12 4 < 14#4 := by
      by_contra hlow
      rw [wanted_of_holds (condHolds_always hlow _), operand] at hone
      split at hone
      · exact (hones _).2.1 hone
      · exact (hones _).1 hone
    rw [wanted_of_fails ((holds_hostCond hlow s).symm.trans hs)] at hone
    have hrm : armReg op 16 ≠ 31 := by
      intro hrm
      rw [operand, if_pos hrm] at hone
      exact (hones _).2.2.1 hone
    rw [operand, if_neg hrm] at hone
    have hw : is64 op = false := by
      cases hw : is64 op with
      | false => rfl
      | true =>
        rw [hw] at hone
        exact absurd hone (hones true).2.2.2
    have hrn := hsource.mp fun slots s' hs' ↦ by
      have hput := h slots s'
      rwa [hselected, holds_hostCond hlow, hs', if_pos rfl] at hput
    rw [if_neg hrd] at hrn
    exact ⟨hw, hlow, hrd, hrn.2, hrm⟩
  · rintro ⟨hw, hlow, hrd, hrn, hrm⟩ slots s
    rw [hselected, holds_hostCond hlow]
    cases hs : A64.condHolds (op.extractLsb' 12 4) (nzcvOf s) with
    | true =>
      rw [if_pos rfl]
      apply hsource.mpr _ slots s hs
      rw [if_neg hrd]
      exact ⟨rfl, hrn⟩
    | false =>
      rw [if_neg Bool.false_ne_true, if_neg hrd, wanted_of_fails hs, operand, if_neg hrm, hw]
      exact cut_cut _ _

theorem putsWanted_iff (k : A64.Select) (op : BitVec 32) : PutsWanted k op ↔ SelectMatches k op := by
  cases k with
  | csel => exact putsWanted_csel_iff
  | csinc => exact putsWanted_csinc_iff
  | csinv => exact putsWanted_csinv_iff (Or.inl rfl)
  | csneg => exact putsWanted_csinv_iff (Or.inr rfl)

/-- A result of 32 bits leaves the upper half of a slot that is not all zero. -/
theorem putsExactly_iff (k : A64.Select) (op : BitVec 32) :
    (∀ slots s, merge (is64 op) (slots (armReg op 0)) (selected k op slots s) =
      if armReg op 0 = 31 then slots 31 else cut (is64 op) (wanted k op slots s)) ↔
    SelectMatches k op ∧ (is64 op = true ∨ armReg op 0 = 31) := by
  rw [← putsWanted_iff]
  constructor
  · intro h
    refine ⟨fun slots s ↦ ?_, ?_⟩
    · have hput := congrArg (cut (is64 op)) (h slots s)
      rwa [cut_merge_eq, apply_ite (cut _), cut_cut] at hput
    · by_contra hne
      rw [not_or, Bool.not_eq_true] at hne
      have hput := h (fun _ ↦ BitVec.allOnes 64) (.ofBits 0)
      rw [if_neg hne.2, hne.1] at hput
      exact merge_allOnes_ne _ _ hput
  · rintro ⟨h, hexact⟩ slots s
    have hput := h slots s
    by_cases hrd : armReg op 0 = 31
    · rw [if_pos hrd] at hput
      rw [if_pos hrd, hrd]
      exact merge_eq_self_iff.mpr hput
    · rw [if_neg hrd, hexact.resolve_right hrd] at hput
      rw [if_neg hrd, hexact.resolve_right hrd]
      exact hput

end Matching

section Selects

variable (undef : Instr → Machine → Status) (rest : Instr → Machine → Option Machine)

variable (k : A64.Select) (op : BitVec 32)

theorem leaves_select_iff {post : (ArmReg → BitVec 64) → Status → (ArmReg → BitVec 64) → Prop} :
    Leaves (Semantics.core undef rest) (selectCode k op) post ↔ ∀ slots s, post slots s
      (Function.update slots (armReg op 0) (merge (is64 op) (slots (armReg op 0))
        (selected k op slots s))) := by
  obtain ⟨f, hdoes, hslots⟩ := putsTo_select undef rest op k
  exact leaves_iff hdoes _ hslots

theorem leavesLow_iff : Leaves (Semantics.core undef rest) (selectCode k op) (fun slots s slots' ↦
    SetsLow (is64 op) slots (armReg op 0) (wanted k op slots s) slots') ↔ SelectMatches k op := by
  rw [leaves_select_iff, ← putsWanted_iff]
  simp only [setsLow_update_iff, PutsWanted]

/-- `CSINC X0, X1, X2, NE` has the value of `X1` always. -/
theorem csinc_x0_missed : ¬ Leaves (Semantics.core (fun _ m ↦ m.status) fun _ _ ↦ none)
    (translateCsinc 0x9a821420) (fun slots s slots' ↦
      SetsLow true slots 0 (wanted .csinc 0x9a821420 slots s) slots') :=
  (leavesLow_iff _ _ .csinc 0x9a821420).not.mpr (by decide)

/-- The code of a select leaves its result in `Rd` modulo the width and the other registers alone
exactly for the selects that match, and a zero-extended result exactly for the 64-bit ones among
them and for those to the zero register. -/
theorem conditionalSelect_iff :
    (Leaves (Semantics.core undef rest) (selectCode k op) (fun slots s slots' ↦
        SetsLow (is64 op) slots (armReg op 0) (wanted k op slots s) slots') ↔ SelectMatches k op) ∧
    (Leaves (Semantics.core undef rest) (selectCode k op) (fun slots s slots' ↦
        SetsReg (is64 op) slots (armReg op 0) (wanted k op slots s) slots') ↔
      SelectMatches k op ∧ (is64 op = true ∨ armReg op 0 = 31)) := by
  refine ⟨leavesLow_iff undef rest k op, ?_⟩
  rw [leaves_select_iff, ← putsExactly_iff]
  simp only [setsReg_update_iff]

end Selects

end Arm2x86.Translate
