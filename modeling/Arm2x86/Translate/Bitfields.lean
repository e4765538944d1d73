import Arm2x86.Translate.ValueRuns

/-!
# The bitfield moves

`translate_sbfm`, `translate_ubfm` (`modules/arm2x86_translate64.c:1844`) and `translate_extr`
(`:1699`) against what the instructions do to the guest registers. The mask of a move is combined into
the register of the mask, and so is the second operand of an extract, so that a move comes to a shift
and an extract to a shift of its first operand.
-/

namespace Arm2x86.A64

inductive Bitfield where
  | sbfm
  | ubfm
  | extr
deriving DecidableEq, Repr

/-- A field of an operand, moved to the bottom or up from there, below zeros. -/
def ubfm {n : Nat} (immr imms : Nat) (x : BitVec n) : BitVec n :=
  if immr ≤ imms then (x.extractLsb' immr (imms - immr + 1)).setWidth n
  else (x.extractLsb' 0 (imms + 1)).setWidth n <<< (n - immr)

/-- A field of an operand, moved to the bottom or up from there, below its sign. -/
def sbfm {n : Nat} (immr imms : Nat) (x : BitVec n) : BitVec n :=
  if immr ≤ imms then (x.extractLsb' immr (imms - immr + 1)).signExtend n
  else (x.extractLsb' 0 (imms + 1)).signExtend n <<< (n - immr)

/-- A register from the middle of two. -/
def extr {n : Nat} (lsb : Nat) (x y : BitVec n) : BitVec n := (x ++ y).extractLsb' lsb n

/-- The results. -/
def Bitfield.run {n : Nat} (k : Bitfield) (immr imms : Nat) (x y : BitVec n) : BitVec n :=
  match k with
  | sbfm => A64.sbfm immr imms x
  | ubfm => A64.ubfm immr imms x
  | extr => A64.extr imms x y

/-- The results at a width, zero-extended. -/
def Bitfield.value (k : Bitfield) (w : Bool) (immr imms : Nat) (x y : BitVec 64) : BitVec 64 :=
  if w then k.run immr imms x y
  else (k.run immr imms (x.setWidth 32) (y.setWidth 32)).setWidth 64

end Arm2x86.A64

namespace Arm2x86.Translate

open X86

section Code

/-- The translators. -/
def fieldCode (k : A64.Bitfield) (op : BitVec 32) : List Code :=
  match k with
  | .sbfm => translateSbfm op
  | .ubfm => translateUbfm op
  | .extr => translateExtr op

/-- The bit of the word that is its width: `N` of a move, the same as `sf` in every allocated word. -/
def fieldIs64 (k : A64.Bitfield) (op : BitVec 32) : Bool :=
  match k with
  | .sbfm | .ubfm => op.getLsbD 22
  | .extr => is64 op

/-- `immr` of a move. -/
def immrAt (op : BitVec 32) : Nat := (op.extractLsb' 16 6).toNat

/-- `imms` of a move, and the position of an extract. -/
def immsAt (op : BitVec 32) : Nat := (op.extractLsb' 10 6).toNat

/-- What the instruction puts to its destination. -/
def fieldWanted (k : A64.Bitfield) (op : BitVec 32) (slots : ArmReg → BitVec 64) : BitVec 64 :=
  k.value (fieldIs64 k op) (immrAt op) (immsAt op) (operand slots (armReg op 5))
    (operand slots (armReg op 16))

/-- What the code makes of the first operand. -/
def fieldShifted (k : A64.Bitfield) (op : BitVec 32) (x : BitVec 64) : BitVec 64 :=
  match k with
  | .sbfm =>
    if immsAt op < immrAt op then
      if fieldIs64 .sbfm op then (x.setWidth 16).signExtend 64 else (x.setWidth 8).signExtend 64
    else x.sshiftRight (immrAt op)
  | .ubfm =>
    if immsAt op < immrAt op then
      if fieldIs64 .ubfm op then (x.setWidth 16).setWidth 64 else (x.setWidth 8).setWidth 64
    else x >>> immrAt op
  | .extr =>
    if armReg op 5 = armReg op 16 then ((x.setWidth 32).rotateRight (immsAt op % 32)).setWidth 64
    else x >>> immsAt op

end Code

section Rules

variable (undef : Instr → Machine → Status) (rest : Instr → Machine → Option Machine)

/-- A shift of a register. -/
private theorem computes_shift {op : ShiftOp} {g : Gpr} {frag : List Byte} {count : Byte}
    {f : BitVec 64 → BitVec 64} (hg : g ≠ 5)
    (hdec : ∀ tail, X86.decode (frag ++ tail) = some (.shift op .b64 (.reg g) count, tail))
    (hcore : ∀ m, (Semantics.core undef rest).exec (.shift op .b64 (.reg g) count) m =
      m.execShift (undef (.shift op .b64 (.reg g) count) m) op .b64 (.reg g) count)
    (hzero : count.toNat % 64 = 0 → ∀ x, f x = x)
    (hrun : ∀ old undef x, ∃ s, op.run (n := 64) old undef x (count.toNat % 64) = some (f x, s)) :
    Computes (Semantics.core undef rest) frag fun v ↦ v.setReg g (f (v.regs g)) := by
  apply computes_instr hdec
  intro m v hv
  rw [hcore]
  have hexec : m.execShift (undef (.shift op .b64 (.reg g) count) m) op .b64 (.reg g) count =
      (if count.toNat % 64 = 0 then some (m.setReg g (m.regs g))
      else (op.run (n := 64) m.status (undef (.shift op .b64 (.reg g) count) m)
        ((m.regs g).setWidth 64) (count.toNat % 64)).bind
          fun rs ↦ some ((m.setReg g (rs.1.setWidth 64)).setStatus rs.2)) := rfl
  rw [hexec, BitVec.setWidth_eq]
  by_cases h0 : count.toNat % 64 = 0
  · rw [if_pos h0, hzero h0, hv.regs]
    exact ⟨_, rfl, rfl, hv.setReg hg _⟩
  · obtain ⟨s, hs⟩ := hrun m.status (undef (.shift op .b64 (.reg g) count) m) (m.regs g)
    rw [if_neg h0, hs, Option.bind_some, hv.regs]
    dsimp only
    rw [BitVec.setWidth_eq]
    exact ⟨_, rfl, rfl, (hv.setReg hg _).setStatus s⟩

theorem computes_sarRax (count : Byte) :
    Computes (Semantics.core undef rest) (sarR64Imm8 rax count)
      fun v ↦ v.setReg 0 ((v.regs 0).sshiftRight (count.toNat % 64)) := by
  have hdec : ∀ tail, X86.decode (sarR64Imm8 rax count ++ tail) =
      some (.shift .sar .b64 (.reg 0) count, tail) := fun _ ↦ decode_prefixes rfl rfl
  have hzero : count.toNat % 64 = 0 → ∀ x : BitVec 64, x.sshiftRight (count.toNat % 64) = x := by
    intro h0 x
    rw [h0, BitVec.sshiftRight_zero]
  exact computes_shift undef rest (f := (BitVec.sshiftRight · (count.toNat % 64))) (by decide) hdec
    (fun _ ↦ rfl) hzero fun _ _ _ ↦ ⟨_, rfl⟩

theorem computes_shrRax (count : Byte) :
    Computes (Semantics.core undef rest) (shrR64Imm8 rax count)
      fun v ↦ v.setReg 0 (v.regs 0 >>> (count.toNat % 64)) := by
  have hdec : ∀ tail, X86.decode (shrR64Imm8 rax count ++ tail) =
      some (.shift .shr .b64 (.reg 0) count, tail) := fun _ ↦ decode_prefixes rfl rfl
  have hzero : count.toNat % 64 = 0 → ∀ x : BitVec 64, x >>> (count.toNat % 64) = x := by
    intro h0 x
    rw [h0, BitVec.ushiftRight_zero]
  exact computes_shift undef rest (f := (· >>> (count.toNat % 64))) (by decide) hdec
    (fun _ ↦ rfl) hzero fun _ _ _ ↦ ⟨_, rfl⟩

theorem computes_shlR11 (count : Byte) :
    Computes (Semantics.core undef rest) (shlR64Imm8 r11 count)
      fun v ↦ v.setReg 11 (v.regs 11 <<< (count.toNat % 64)) := by
  have hdec : ∀ tail, X86.decode (shlR64Imm8 r11 count ++ tail) =
      some (.shift .shl .b64 (.reg 11) count, tail) := fun _ ↦ decode_prefixes rfl rfl
  have hzero : count.toNat % 64 = 0 → ∀ x : BitVec 64, x <<< (count.toNat % 64) = x := by
    intro h0 x
    rw [h0, BitVec.shiftLeft_zero]
  exact computes_shift undef rest (f := (· <<< (count.toNat % 64))) (by decide) hdec
    (fun _ ↦ rfl) hzero fun _ _ _ ↦ ⟨_, rfl⟩

private theorem rotateRight_zero (x : BitVec 32) : x.rotateRight 0 = x := by
  rw [BitVec.rotateRight, Nat.zero_mod, BitVec.rotateRightAux]
  simp

/-- A rotation of `EAX`. -/
theorem computes_rorRax (count : Byte) :
    Computes (Semantics.core undef rest) (rorRax count) fun v ↦
      v.setReg 0 ((((v.regs 0).setWidth 32).rotateRight (count.toNat % 32)).setWidth 64) := by
  have hdec : ∀ tail, X86.decode (rorRax count ++ tail) =
      some (.shift .ror .b32 (.reg 0) count, tail) := fun _ ↦ decode_prefixes rfl rfl
  apply computes_instr hdec
  intro m v hv
  have hexec : (Semantics.core undef rest).exec (.shift .ror .b32 (.reg 0) count) m =
      (if count.toNat % 32 = 0 then
        some (m.setReg 0 ((((m.regs 0).setWidth 32).setWidth 64).setWidth 32 |>.setWidth 64))
      else ((ShiftOp.run (n := 32) .ror m.status (undef (.shift .ror .b32 (.reg 0) count) m)
        ((((m.regs 0).setWidth 32).setWidth 64).setWidth 32) (count.toNat % 32))).bind
          fun (r, s) ↦ some
            ((m.setReg 0 (((r.setWidth 64).setWidth 32).setWidth 64)).setStatus s)) := rfl
  have hlow : ∀ x : BitVec 32, (x.setWidth 64).setWidth 32 = x := by
    intro x
    simp
  rw [hexec, hlow, hv.regs]
  by_cases h0 : count.toNat % 32 = 0
  · rw [if_pos h0, h0, rotateRight_zero]
    exact ⟨_, rfl, rfl, hv.setReg (by decide) _⟩
  · rw [if_neg h0, ShiftOp.run, Option.bind_some]
    dsimp only
    rw [hlow]
    exact ⟨_, rfl, rfl, (hv.setReg (by decide) _).setStatus _⟩

/-- The low part of a value, extended. -/
def extended (signed : Bool) (width : Width) (x : BitVec 64) : BitVec 64 :=
  match width with
  | .byte => if signed then (x.setWidth 8).signExtend 64 else (x.setWidth 8).setWidth 64
  | .half => if signed then (x.setWidth 16).signExtend 64 else (x.setWidth 16).setWidth 64

theorem computes_extendRax (signed : Bool) (width : Width) :
    Computes (Semantics.core undef rest)
      (if signed then emitMovsx width rax rax else emitMovzx width rax rax)
      fun v ↦ v.setReg 0 (extended signed width (v.regs 0)) := by
  have hlow : ∀ x : BitVec 64, ((x.setWidth 8).setWidth 64).setWidth 8 = x.setWidth 8 := by
    intro x
    simp
  have hlow' : ∀ x : BitVec 64, ((x.setWidth 16).setWidth 64).setWidth 16 = x.setWidth 16 := by
    intro x
    simp
  have hcore : ∀ size m, (Semantics.core undef rest).exec (.extend signed .b64 size 0 (.reg 0)) m =
      m.execExtend signed .b64 size 0 (.reg 0) := fun _ _ ↦ rfl
  cases width with
  | byte =>
    have hdec : ∀ tail, X86.decode ((if signed then emitMovsx .byte rax rax
        else emitMovzx .byte rax rax) ++ tail) = some (.extend signed .b64 .b8 0 (.reg 0), tail) := by
      cases signed <;> exact fun _ ↦ decode_prefixes rfl rfl
    apply computes_instr hdec
    intro m v hv
    have hexec : m.execExtend signed .b64 .b8 0 (.reg 0) = some (m.setReg 0 (if signed then
        ((((m.regs 0).setWidth 8).setWidth 64).setWidth 8).signExtend 64
        else ((m.regs 0).setWidth 8).setWidth 64)) := rfl
    rw [hcore, hexec, hlow, hv.regs]
    exact ⟨_, rfl, rfl, hv.setReg (by decide) _⟩
  | half =>
    have hdec : ∀ tail, X86.decode ((if signed then emitMovsx .half rax rax
        else emitMovzx .half rax rax) ++ tail) =
          some (.extend signed .b64 .b16 0 (.reg 0), tail) := by
      cases signed <;> exact fun _ ↦ decode_prefixes rfl rfl
    apply computes_instr hdec
    intro m v hv
    have hexec : m.execExtend signed .b64 .b16 0 (.reg 0) = some (m.setReg 0 (if signed then
        ((((m.regs 0).setWidth 16).setWidth 64).setWidth 16).signExtend 64
        else ((m.regs 0).setWidth 16).setWidth 64)) := rfl
    rw [hcore, hexec, hlow', hv.regs]
    exact ⟨_, rfl, rfl, hv.setReg (by decide) _⟩

/-- `mov_r64_imm` of `R11`. -/
theorem computes_movR11 (imm : BitVec 64) :
    Computes (Semantics.core undef rest) (movR64Imm r11 imm) fun v ↦ v.setReg 11 imm := by
  apply computes_instr (decode_movR64Imm (by decide) imm)
  intro m v hv
  exact ⟨_, rfl, rfl, hv.setReg (by decide) imm⟩

/-- `and_r64_r64` and `or_r64_r64` of `RAX` and `R11` combine into `R11`. -/
theorem computes_andR11 : Computes (Semantics.core undef rest) (andR64R64 rax r11)
    fun v ↦ v.setReg 11 (v.regs 11 &&& v.regs 0) := by
  apply computes_instr (decode_regReg rax r11 · (by decide))
  intro m v hv
  have hexec : (Semantics.core undef rest).exec (.alu .and .b64 (.reg 11) (.reg 0)) m =
      some ((m.setReg 11 (((m.regs 11).setWidth 64 &&& (m.regs 0).setWidth 64).setWidth 64)).setStatus
        (.ofLogic ((m.regs 11).setWidth 64 &&& (m.regs 0).setWidth 64)
          (undef (.alu .and .b64 (.reg 11) (.reg 0)) m))) := rfl
  rw [BitVec.setWidth_eq, BitVec.setWidth_eq, BitVec.setWidth_eq, hv.regs] at hexec
  exact ⟨_, hexec, rfl, (hv.setReg (by decide) _).setStatus _⟩

theorem computes_orR11 : Computes (Semantics.core undef rest) (orR64R64 rax r11)
    fun v ↦ v.setReg 11 (v.regs 11 ||| v.regs 0) := by
  apply computes_instr (decode_regReg rax r11 · (by decide))
  intro m v hv
  have hexec : (Semantics.core undef rest).exec (.alu .or .b64 (.reg 11) (.reg 0)) m =
      some ((m.setReg 11 (((m.regs 11).setWidth 64 ||| (m.regs 0).setWidth 64).setWidth 64)).setStatus
        (.ofLogic ((m.regs 11).setWidth 64 ||| (m.regs 0).setWidth 64)
          (undef (.alu .or .b64 (.reg 11) (.reg 0)) m))) := rfl
  rw [BitVec.setWidth_eq, BitVec.setWidth_eq, BitVec.setWidth_eq, hv.regs] at hexec
  exact ⟨_, hexec, rfl, (hv.setReg (by decide) _).setStatus _⟩

end Rules

section Equations

variable {w : Bool} {rd rn : ArmReg} {g : BitVec 64 → BitVec 64}

/-- Only a code that keeps the stack pointer leaves it. -/
theorem keeps_iff : (∀ slots : ArmReg → BitVec 64,
    merge w (slots 31) (g (cut w (slots rn))) = slots 31) ↔
      rn = 31 ∧ ∀ x, cut w (g (cut w x)) = cut w x := by
  constructor
  · intro h
    have hrn : rn = 31 := by
      by_contra hrn
      have hslot : ∀ x, cut w (g (cut w 0)) = cut w x := by
        intro x
        have hx := h (Function.update (fun _ ↦ 0) 31 x)
        rw [Function.update_self, Function.update_of_ne hrn] at hx
        exact merge_eq_self_iff.mp hx
      have hone : cut w 0 = cut w 1 := (hslot 0).symm.trans (hslot 1)
      cases w <;> exact absurd hone (by decide)
    apply And.intro hrn
    intro x
    have hx := h fun _ ↦ x
    exact merge_eq_self_iff.mp hx
  · rintro ⟨hrn, h⟩ slots
    rw [hrn]
    exact merge_eq_self_iff.mpr (h (slots 31))

/-- A register gets a zero-extended result only at the full width. -/
theorem puts_iff {want : (ArmReg → BitVec 64) → BitVec 64} : (∀ slots : ArmReg → BitVec 64,
    merge w (slots rd) (g (cut w (slots rn))) = cut w (want slots)) ↔
      w = true ∧ ∀ slots, g (slots rn) = want slots := by
  cases w with
  | false =>
    constructor
    · intro h
      exact absurd (h fun _ ↦ BitVec.allOnes 64) (merge_allOnes_ne _ _)
    · rintro ⟨hw, _⟩
      cases hw
  | true => exact ⟨fun h ↦ ⟨rfl, h⟩, fun h ↦ h.2⟩

end Equations

section Fields

/-- A shift is the move up to the top bit. -/
theorem ubfm_top {r : Nat} (hr : r ≤ 63) (x : BitVec 64) : A64.ubfm r 63 x = x >>> r := by
  rw [A64.ubfm, if_pos hr]
  ext i hi
  by_cases hir : r + i < 64
  · have hin : i < 63 - r + 1 := by omega
    simp [hin]
  · have hin : ¬ i < 63 - r + 1 := by omega
    have hge : x.getLsbD (r + i) = false := BitVec.getLsbD_of_ge x (r + i) (by omega)
    simp [hin, hge]

theorem sbfm_top {r : Nat} (hr : r ≤ 63) (x : BitVec 64) : A64.sbfm r 63 x = x.sshiftRight r := by
  rw [A64.sbfm, if_pos hr]
  ext i hi
  rw [BitVec.getElem_signExtend, BitVec.getElem_sshiftRight]
  by_cases hir : r + i < 64
  · have hin : i < 63 - r + 1 := by omega
    simp [hin, hir]
  · have hin : ¬ i < 63 - r + 1 := by omega
    have hmsb : (x.extractLsb' r (63 - r + 1)).msb = x.msb := by
      have hlast : r + (63 - r + 1 - 1) = 63 := by omega
      have hin : 63 - r + 1 - 1 < 63 - r + 1 := by omega
      rw [BitVec.msb_eq_getLsbD_last, BitVec.msb_eq_getLsbD_last, BitVec.getLsbD_extractLsb', hlast,
        decide_eq_true hin, Bool.true_and]
    simp [hin, hir, hmsb]

/-- The bit above the field is not in the result, and a shift keeps it. -/
theorem ubfm_above {r s : Nat} (hr : r ≤ s) (hs : s < 63) :
    A64.ubfm r s (BitVec.twoPow 64 (s + 1)) ≠ BitVec.twoPow 64 (s + 1) >>> r := by
  intro h
  have hbit := congrArg (BitVec.getLsbD · (s - r + 1)) h
  have h64 : s - r + 1 < 64 := by omega
  have hsum : r + (s - r + 1) = s + 1 := by omega
  have htop : s + 1 < 64 := by omega
  rw [A64.ubfm, if_pos hr] at hbit
  simp [h64, hsum, htop] at hbit

theorem sbfm_above {r s : Nat} (hr : r ≤ s) (hs : s < 63) :
    A64.sbfm r s (BitVec.twoPow 64 (s + 1)) ≠ (BitVec.twoPow 64 (s + 1)).sshiftRight r := by
  intro h
  have hzero : (BitVec.twoPow 64 (s + 1)).extractLsb' r (s - r + 1) = 0 := by
    ext i hi
    have hne : s + 1 ≠ r + i := by omega
    simp [hne]
  have hkept : ((BitVec.twoPow 64 (s + 1)).sshiftRight r).getLsbD (s - r + 1) = true := by
    have h64 : s - r + 1 < 64 := by omega
    have hsum : r + (s - r + 1) = s + 1 := by omega
    have htop : s + 1 < 64 := by omega
    rw [BitVec.getLsbD_sshiftRight, hsum, if_pos htop, BitVec.getLsbD_twoPow]
    simp [htop]
    omega
  rw [← h, A64.sbfm, if_pos hr, hzero, BitVec.getLsbD_signExtend] at hkept
  simp at hkept

/-- A field moved up has no bit `0`. -/
theorem run_up {k : A64.Bitfield} {r s : Nat} (hk : k ≠ .extr) (hs : s < r) (hr : r ≤ 63)
    (x y : BitVec 64) : k.run r s x y ≠ 1 := by
  intro h
  have hbit := congrArg (BitVec.getLsbD · 0) h
  have hge : ¬ r ≤ s := by omega
  have hpos : 0 < 64 - r := by omega
  cases k with
  | sbfm =>
    rw [A64.Bitfield.run, A64.sbfm, if_neg hge] at hbit
    simp [hpos] at hbit
  | ubfm =>
    rw [A64.Bitfield.run, A64.ubfm, if_neg hge] at hbit
    simp [hpos] at hbit
  | extr => exact hk rfl

/-- A move has one operand. -/
theorem run_second {n : Nat} {k : A64.Bitfield} (hk : k ≠ .extr) (r s : Nat) (x y z : BitVec n) :
    k.run r s x y = k.run r s x z := by
  cases k with
  | sbfm => rfl
  | ubfm => rfl
  | extr => exact absurd rfl hk

theorem run_zero {k : A64.Bitfield} (hk : k ≠ .extr) (r s : Nat) (y : BitVec 64) :
    k.run r s 0 y = 0 := by
  cases k with
  | sbfm =>
    have hsign : ∀ n, (0#n).signExtend 64 = 0 := by
      intro n
      rw [BitVec.signExtend_eq_setWidth_of_msb_false (BitVec.msb_zero)]
      simp
    rw [A64.Bitfield.run, A64.sbfm]
    split <;> simp [hsign]
  | ubfm =>
    rw [A64.Bitfield.run, A64.ubfm]
    split <;> simp
  | extr => exact absurd rfl hk

end Fields

section Shifts

variable (k : A64.Bitfield) (op : BitVec 32)

theorem immrAt_lt : immrAt op < 64 := (op.extractLsb' 16 6).isLt

theorem immsAt_lt : immsAt op < 64 := (op.extractLsb' 10 6).isLt

/-- A move up is an extension. -/
theorem fieldShifted_up {k : A64.Bitfield} (hk : k ≠ .extr) (hlt : immsAt op < immrAt op) :
    ∃ signed width, fieldShifted k op = extended signed width ∧
      width = if fieldIs64 k op then .half else .byte := by
  cases k with
  | sbfm =>
    refine ⟨true, _, ?_, rfl⟩
    funext x
    rw [fieldShifted, if_pos hlt]
    cases fieldIs64 .sbfm op <;> rfl
  | ubfm =>
    refine ⟨false, _, ?_, rfl⟩
    funext x
    rw [fieldShifted, if_pos hlt]
    cases fieldIs64 .ubfm op <;> rfl
  | extr => exact absurd rfl hk

/-- Ones do not come to zero. -/
theorem fieldShifted_allOnes_ne : fieldShifted k op (BitVec.allOnes 64) ≠ 0 := by
  have hshr : ∀ r : Fin 64, BitVec.allOnes 64 >>> r.val ≠ 0 := by decide
  have hsar : ∀ r : Fin 64, (BitVec.allOnes 64).sshiftRight r.val ≠ 0 := by decide
  have hror : ∀ r : Fin 32,
      (((BitVec.allOnes 64).setWidth 32).rotateRight r.val).setWidth 64 ≠ (0 : BitVec 64) := by decide
  by_cases hup : k ≠ .extr ∧ immsAt op < immrAt op
  · obtain ⟨signed, width, hshort, -⟩ := fieldShifted_up op hup.1 hup.2
    rw [hshort]
    cases signed <;> cases width <;> decide
  cases k with
  | sbfm =>
    rw [fieldShifted, if_neg fun h ↦ hup ⟨by decide, h⟩]
    exact hsar ⟨immrAt op, immrAt_lt op⟩
  | ubfm =>
    rw [fieldShifted, if_neg fun h ↦ hup ⟨by decide, h⟩]
    exact hshr ⟨immrAt op, immrAt_lt op⟩
  | extr =>
    rw [fieldShifted]
    by_cases hrm : armReg op 5 = armReg op 16
    · rw [if_pos hrm]
      exact hror ⟨immsAt op % 32, Nat.mod_lt _ (by decide)⟩
    · rw [if_neg hrm]
      exact hshr ⟨immsAt op, immsAt_lt op⟩

/-- A move of a whole register is right where its field ends at the top bit. -/
theorem fieldShifted_eq_iff {k : A64.Bitfield} (hk : k ≠ .extr) (y : BitVec 64) :
    (∀ x, fieldShifted k op x = k.run (immrAt op) (immsAt op) x y) ↔ immsAt op = 63 := by
  constructor
  · intro h
    by_contra htop
    have hs : immsAt op < 63 := by
      have hlt := immsAt_lt op
      omega
    by_cases hlt : immsAt op < immrAt op
    · obtain ⟨signed, width, hshort, -⟩ := fieldShifted_up op hk hlt
      have hone : extended signed width 1 = 1 := by cases signed <;> cases width <;> decide
      have hle : immrAt op ≤ 63 := Nat.le_of_lt_succ (immrAt_lt op)
      have h1 := h 1
      rw [hshort, hone] at h1
      exact run_up hk hlt hle 1 y h1.symm
    · have hle : immrAt op ≤ immsAt op := Nat.le_of_not_lt hlt
      have htwo := h (BitVec.twoPow 64 (immsAt op + 1))
      cases k with
      | sbfm =>
        rw [fieldShifted, if_neg hlt] at htwo
        exact sbfm_above hle hs htwo.symm
      | ubfm =>
        rw [fieldShifted, if_neg hlt] at htwo
        exact ubfm_above hle hs htwo.symm
      | extr => exact hk rfl
  · intro htop x
    have hle : immrAt op ≤ 63 := Nat.le_of_lt_succ (immrAt_lt op)
    have hlt : ¬ 63 < immrAt op := by omega
    cases k with
    | sbfm =>
      rw [fieldShifted, htop, if_neg hlt, A64.Bitfield.run, sbfm_top hle]
    | ubfm =>
      rw [fieldShifted, htop, if_neg hlt, A64.Bitfield.run, ubfm_top hle]
    | extr => exact absurd rfl hk

/-- An extract never is: its second operand is not combined. -/
theorem extr_ne (hw : is64 op = true) : ∃ slots : ArmReg → BitVec 64,
    fieldShifted .extr op (slots (armReg op 5)) ≠ fieldWanted .extr op slots := by
  exists Function.update (fun _ ↦ 0) (armReg op 5) (BitVec.allOnes 64)
  rw [Function.update_self]
  intro h
  by_cases hrn : armReg op 5 = 31
  · have hzero : ∀ r, operand (Function.update (fun _ ↦ 0) (armReg op 5) (BitVec.allOnes 64)) r = 0 := by
      intro r
      by_cases hr : r = 31
      · exact if_pos hr
      · rw [operand, if_neg hr, Function.update_of_ne (hrn ▸ hr)]
    have hwant : A64.Bitfield.value .extr true (immrAt op) (immsAt op) 0 0 = 0 := by
      show ((0 : BitVec 64) ++ (0 : BitVec 64)).extractLsb' (immsAt op) 64 = 0
      ext i hi
      simp
    rw [fieldWanted, hzero, hzero, fieldIs64, hw, hwant] at h
    exact fieldShifted_allOnes_ne .extr op h
  · have hs := immsAt_lt op
    have hfirst : operand (Function.update (fun _ ↦ 0) (armReg op 5) (BitVec.allOnes 64)) (armReg op 5) =
        BitVec.allOnes 64 := by
      rw [operand, if_neg hrn, Function.update_self]
    rw [fieldWanted, hfirst, fieldIs64, hw] at h
    by_cases hrm : armReg op 5 = armReg op 16
    · have hne : ∀ s : Fin 64, (((BitVec.allOnes 64).setWidth 32).rotateRight (s.val % 32)).setWidth 64 ≠
          A64.extr s.val (BitVec.allOnes 64) (BitVec.allOnes 64) := by
        decide
      rw [← hrm, hfirst, fieldShifted, if_pos hrm] at h
      exact hne ⟨immsAt op, immsAt_lt op⟩ h
    · have hsecond : operand (Function.update (fun _ ↦ 0) (armReg op 5) (BitVec.allOnes 64))
          (armReg op 16) = 0 := by
        by_cases h31 : armReg op 16 = 31
        · exact if_pos h31
        · rw [operand, if_neg h31, Function.update_of_ne (Ne.symm hrm)]
      have hne : ∀ s : Fin 64, BitVec.allOnes 64 >>> s.val ≠ A64.extr s.val (BitVec.allOnes 64) 0 := by
        decide
      rw [hsecond, fieldShifted, if_neg hrm] at h
      exact hne ⟨immsAt op, immsAt_lt op⟩ h

/-- A shift keeps every value only by nothing. -/
private theorem keeps_shift_iff {r : Nat} (f : BitVec 64 → BitVec 64) (w : Bool)
    (hzero : r = 0 → ∀ x, f x = x) (hone : r ≠ 0 → f 1 = 0) :
    (∀ x, cut w (f (cut w x)) = cut w x) ↔ r = 0 := by
  constructor
  · intro h
    by_contra hr
    have hcut : ∀ w, cut w 1 = 1 ∧ cut w 0 ≠ 1 := by decide
    have h1 := h 1
    rw [(hcut w).1, hone hr] at h1
    exact (hcut w).2 h1
  · intro hr x
    rw [hzero hr, cut_cut]

/-- The words whose shift is by nothing. -/
def ShiftsNothing (k : A64.Bitfield) (op : BitVec 32) : Prop :=
  match k with
  | .sbfm | .ubfm => immrAt op = 0
  | .extr =>
    if armReg op 5 = armReg op 16 then is64 op = false ∧ immsAt op % 32 = 0 else immsAt op = 0

theorem shiftsNothing_iff : (∀ x, cut (fieldIs64 k op)
    (fieldShifted k op (cut (fieldIs64 k op) x)) = cut (fieldIs64 k op) x) ↔ ShiftsNothing k op := by
  have hshr : ∀ r : Fin 64, r.val ≠ 0 → (1 : BitVec 64) >>> r.val = 0 := by decide
  have hsar : ∀ r : Fin 64, r.val ≠ 0 → (1 : BitVec 64).sshiftRight r.val = 0 := by decide
  by_cases hup : k ≠ .extr ∧ immsAt op < immrAt op
  · obtain ⟨signed, width, hshort, hwidth⟩ := fieldShifted_up op hup.1 hup.2
    have hfail : ∀ signed w, ¬ ∀ x, cut w (extended signed (if w then .half else .byte) (cut w x)) =
        cut w x := by
      intro signed w h
      have hx := h 0x10100
      cases signed <;> cases w <;> exact absurd hx (by decide)
    rw [hshort, hwidth]
    apply iff_of_false (hfail signed _)
    intro hnothing
    cases k with
    | sbfm => exact absurd (hnothing ▸ hup.2) (Nat.not_lt_zero _)
    | ubfm => exact absurd (hnothing ▸ hup.2) (Nat.not_lt_zero _)
    | extr => exact hup.1 rfl
  cases k with
  | sbfm =>
    have hshift : fieldShifted .sbfm op = (BitVec.sshiftRight · (immrAt op)) := by
      funext x
      rw [fieldShifted, if_neg fun h ↦ hup ⟨by decide, h⟩]
    rw [hshift]
    show _ ↔ immrAt op = 0
    apply keeps_shift_iff (BitVec.sshiftRight · (immrAt op))
    · intro h0 x
      rw [h0, BitVec.sshiftRight_zero]
    · exact hsar ⟨immrAt op, immrAt_lt op⟩
  | ubfm =>
    have hshift : fieldShifted .ubfm op = fun x : BitVec 64 ↦ x >>> immrAt op := by
      funext x
      rw [fieldShifted, if_neg fun h ↦ hup ⟨by decide, h⟩]
    rw [hshift]
    show _ ↔ immrAt op = 0
    apply keeps_shift_iff (· >>> immrAt op)
    · intro h0 x
      rw [h0, BitVec.ushiftRight_zero]
    · exact hshr ⟨immrAt op, immrAt_lt op⟩
  | extr =>
    rw [ShiftsNothing, fieldIs64]
    by_cases hrm : armReg op 5 = armReg op 16
    · have hror : fieldShifted .extr op =
          fun x ↦ ((x.setWidth 32).rotateRight (immsAt op % 32)).setWidth 64 := by
        funext x
        rw [fieldShifted, if_pos hrm]
      have hturn : ∀ r : Fin 32, r.val ≠ 0 →
          cut false ((((1 : BitVec 64).setWidth 32).rotateRight r.val).setWidth 64) ≠ 1 := by
        decide
      rw [hror, if_pos hrm]
      cases is64 op with
      | true =>
        apply iff_of_false
        · intro h
          have hcut : cut true (BitVec.allOnes 64) = BitVec.allOnes 64 := rfl
          have h63 := congrArg (BitVec.getLsbD · 63) (h (BitVec.allOnes 64))
          simp [cut] at h63
        · exact fun h ↦ Bool.noConfusion h.1
      | false =>
        have hcut : cut false 1 = 1 := by decide
        constructor
        · intro h
          apply And.intro rfl
          by_contra hr
          have h1 := h 1
          rw [hcut] at h1
          exact hturn ⟨immsAt op % 32, Nat.mod_lt _ (by decide)⟩ hr h1
        · rintro ⟨-, hr⟩ x
          rw [hr]
          dsimp only
          rw [rotateRight_zero]
          exact (cut_cut false _).trans (cut_cut false x)
    · have hshift : fieldShifted .extr op = fun x : BitVec 64 ↦ x >>> immsAt op := by
        funext x
        rw [fieldShifted, if_neg hrm]
      rw [hshift, if_neg hrm]
      apply keeps_shift_iff (· >>> immsAt op)
      · intro h0 x
        rw [h0, BitVec.ushiftRight_zero]
      · exact hshr ⟨immsAt op, immsAt_lt op⟩

end Shifts

section Result

variable (undef : Instr → Machine → Status) (rest : Instr → Machine → Option Machine)
variable (k : A64.Bitfield) (op : BitVec 32)

private theorem computes_viaRax {body : List Code} {f : Values → Values} {g : BitVec 64 → BitVec 64}
    (rn rd : ArmReg) (w : Bool) (h : Computes (Semantics.core undef rest) body.flatten f)
    (hslots : ∀ v, (f v).slots = v.slots) (hrax : ∀ v, (f v).regs 0 = g (v.regs 0)) :
    ∃ f', Computes (Semantics.core undef rest) (viaRax rn rd w body).flatten f' ∧
      ∀ v, (f' v).slots = Function.update v.slots rd
        (merge w (v.slots rd) (g (cut w (v.slots rn)))) := by
  refine ⟨_, h.viaRax undef rest rn rd w, fun v ↦ ?_⟩
  show Function.update (f _).slots rd (merge w ((f _).slots rd) (cut w _)) = _
  rw [hslots, merge_cut, hrax]
  rfl

theorem computes_shiftAndMask {shift : Byte → Byte → Code} {g : BitVec 64 → BitVec 64}
    (h : Computes (Semantics.core undef rest) (shift rax ((op.extractLsb' 16 6).setWidth 8))
      fun v ↦ v.setReg 0 (g (v.regs 0))) :
    ∃ f, Computes (Semantics.core undef rest) (shiftAndMask shift op).flatten f ∧
      (∀ v, (f v).slots = v.slots) ∧ ∀ v, (f v).regs 0 = g (v.regs 0) :=
  ⟨_, h.append ((computes_movR11 undef rest _).append
    ((computes_andR11 undef rest).append computes_nil)), fun _ ↦ rfl, fun _ ↦ rfl⟩

private theorem count_eq (x : BitVec 6) : (x.setWidth 8 : Byte).toNat = x.toNat := by
  rw [BitVec.toNat_setWidth]
  omega

/-- What the code of a field is to do. -/
private abbrev Shifts (k : A64.Bitfield) : Prop :=
  ∃ f, Computes (Semantics.core undef rest) (fieldCode k op).flatten f ∧
    ∀ v, (f v).slots = Function.update v.slots (armReg op 0)
      (merge (fieldIs64 k op) (v.slots (armReg op 0))
        (fieldShifted k op (cut (fieldIs64 k op) (v.slots (armReg op 5)))))

private theorem computes_sbfm : Shifts undef rest op .sbfm := by
  have himmr : immrAt op % 64 = immrAt op := Nat.mod_eq_of_lt (op.extractLsb' 16 6).isLt
  show ∃ f, Computes _ (viaRax (armReg op 5) (armReg op 0) (op.getLsbD 22)
    (if immsAt op < immrAt op then [emitMovsx (if op.getLsbD 22 then .half else .byte) rax rax]
    else shiftAndMask sarR64Imm8 op)).flatten f ∧ _
  by_cases hlt : immsAt op < immrAt op
  · have hshort : fieldShifted .sbfm op = extended true (if op.getLsbD 22 then .half else .byte) := by
      funext x
      rw [fieldShifted, if_pos hlt, fieldIs64]
      cases op.getLsbD 22 <;> rfl
    rw [if_pos hlt, hshort]
    exact computes_viaRax undef rest _ _ _
      ((computes_extendRax undef rest true _).append computes_nil) (fun _ ↦ rfl) fun _ ↦ rfl
  · have hshift : fieldShifted .sbfm op = fun x ↦ x.sshiftRight (immrAt op) := by
      funext x
      rw [fieldShifted, if_neg hlt]
    have hsar := computes_sarRax undef rest ((op.extractLsb' 16 6).setWidth 8)
    rw [count_eq] at hsar
    obtain ⟨f, hf, hslots, hrax⟩ := computes_shiftAndMask undef rest op
      (g := (BitVec.sshiftRight · (immrAt op % 64))) hsar
    rw [himmr] at hrax
    rw [if_neg hlt, hshift]
    exact computes_viaRax undef rest (g := (BitVec.sshiftRight · (immrAt op))) _ _ _ hf hslots hrax

private theorem computes_ubfm : Shifts undef rest op .ubfm := by
  have himmr : immrAt op % 64 = immrAt op := Nat.mod_eq_of_lt (op.extractLsb' 16 6).isLt
  show ∃ f, Computes _ (viaRax (armReg op 5) (armReg op 0) (op.getLsbD 22)
    (if immsAt op < immrAt op then [emitMovzx (if op.getLsbD 22 then .half else .byte) rax rax]
    else shiftAndMask shrR64Imm8 op)).flatten f ∧ _
  by_cases hlt : immsAt op < immrAt op
  · have hshort : fieldShifted .ubfm op = extended false (if op.getLsbD 22 then .half else .byte) := by
      funext x
      rw [fieldShifted, if_pos hlt, fieldIs64]
      cases op.getLsbD 22 <;> rfl
    rw [if_pos hlt, hshort]
    exact computes_viaRax undef rest _ _ _
      ((computes_extendRax undef rest false _).append computes_nil) (fun _ ↦ rfl) fun _ ↦ rfl
  · have hshift : fieldShifted .ubfm op = fun x : BitVec 64 ↦ x >>> immrAt op := by
      funext x
      rw [fieldShifted, if_neg hlt]
    have hshr := computes_shrRax undef rest ((op.extractLsb' 16 6).setWidth 8)
    rw [count_eq] at hshr
    obtain ⟨f, hf, hslots, hrax⟩ := computes_shiftAndMask undef rest op
      (g := (· >>> (immrAt op % 64))) hshr
    rw [himmr] at hrax
    rw [if_neg hlt, hshift]
    exact computes_viaRax undef rest (g := (· >>> immrAt op)) _ _ _ hf hslots hrax

private theorem computes_extr : Shifts undef rest op .extr := by
  have himms : immsAt op % 64 = immsAt op := Nat.mod_eq_of_lt (op.extractLsb' 10 6).isLt
  rw [Shifts, fieldCode, translateExtr]
  by_cases hrm : armReg op 5 = armReg op 16
  · have hror : fieldShifted .extr op =
        fun x ↦ ((x.setWidth 32).rotateRight (immsAt op % 32)).setWidth 64 := by
      funext x
      rw [fieldShifted, if_pos hrm]
    have hrot := computes_rorRax undef rest ((op.extractLsb' 10 6).setWidth 8)
    rw [count_eq] at hrot
    rw [hror]
    dsimp only
    rw [if_pos hrm]
    exact computes_viaRax undef rest
      (g := fun x ↦ ((x.setWidth 32).rotateRight (immsAt op % 32)).setWidth 64) _ _ _
      (hrot.append computes_nil) (fun _ ↦ rfl) fun _ ↦ rfl
  · have hshift : fieldShifted .extr op = fun x : BitVec 64 ↦ x >>> immsAt op := by
      funext x
      rw [fieldShifted, if_neg hrm]
    have hne : loadedReg r11 (is64 op) ≠ 5 ∧ loadedReg r11 (is64 op) ≠ 0 := by
      cases is64 op <;> decide
    have hshr := computes_shrRax undef rest ((op.extractLsb' 10 6).setWidth 8)
    rw [count_eq] at hshr
    rw [hshift]
    dsimp only
    rw [if_neg hrm]
    have hbody : Computes (Semantics.core undef rest)
        [shrR64Imm8 rax ((op.extractLsb' 10 6).setWidth 8), emitLoadArmReg (armReg op 16) r11 (is64 op),
          shlR64Imm8 r11 (64 - (op.extractLsb' 10 6).setWidth 8), orR64R64 rax r11].flatten _ :=
      hshr.append ((computes_load undef rest (armReg op 16) hne.1).append
        ((computes_shlR11 undef rest _).append ((computes_orR11 undef rest).append computes_nil)))
    apply computes_viaRax undef rest (g := (· >>> immsAt op)) _ _ _ hbody
    · exact fun _ ↦ rfl
    · intro v
      show (if (0 : Gpr) = loadedReg r11 (is64 op) then _ else _) = _
      rw [if_neg (Ne.symm hne.2)]
      exact congrArg (v.regs 0 >>> ·) himms

/-- A move comes to a shift or to an extension, and an extract to a shift or a rotation. -/
theorem computes_field : ∃ f, Computes (Semantics.core undef rest) (fieldCode k op).flatten f ∧
    ∀ v, (f v).slots = Function.update v.slots (armReg op 0)
      (merge (fieldIs64 k op) (v.slots (armReg op 0))
        (fieldShifted k op (cut (fieldIs64 k op) (v.slots (armReg op 5))))) :=
  match k with
  | .sbfm => computes_sbfm undef rest op
  | .ubfm => computes_ubfm undef rest op
  | .extr => computes_extr undef rest op

/-- What a field leaves, as an equation of its shift. -/
private theorem leaves_field_iff :
    Leaves (Semantics.core undef rest) (fieldCode k op)
      (fun slots _ slots' ↦ SetsReg (fieldIs64 k op) slots (armReg op 0) (fieldWanted k op slots) slots') ↔
    ∀ slots : ArmReg → BitVec 64, merge (fieldIs64 k op) (slots (armReg op 0))
        (fieldShifted k op (cut (fieldIs64 k op) (slots (armReg op 5)))) =
      if armReg op 0 = 31 then slots 31 else cut (fieldIs64 k op) (fieldWanted k op slots) := by
  obtain ⟨f, hf, hslots⟩ := computes_field undef rest k op
  rw [leaves_iff_of_computes hf (fun slots ↦ Function.update slots (armReg op 0)
    (merge (fieldIs64 k op) (slots (armReg op 0))
      (fieldShifted k op (cut (fieldIs64 k op) (slots (armReg op 5)))))) hslots]
  constructor
  · intro h slots
    exact setsReg_update_iff.mp (h slots (.ofBits 0))
  · intro h slots _
    exact setsReg_update_iff.mpr (h slots)

/-- The words whose code does what the instruction does. -/
def FieldMatches (k : A64.Bitfield) (op : BitVec 32) : Prop :=
  if armReg op 0 = 31 then armReg op 5 = 31 ∧ ShiftsNothing k op
  else k ≠ .extr ∧ fieldIs64 k op = true ∧ armReg op 5 ≠ 31 ∧ immsAt op = 63

end Result

end Arm2x86.Translate
