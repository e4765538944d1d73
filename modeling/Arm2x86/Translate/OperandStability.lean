import Arm2x86.Translate.Combinations
import Arm2x86.Translate.Requests

/-!
# Operands of the allocating translators

`translate_add_sub` and `translate_logical` (`modules/arm2x86_translate64.c:907`) against the values that
the host registers of the operands have: where the arithmetic begins, and behind it. `mov_r64_r64` and
the operations write the register that is given as their source, so that a source keeps its value only
where it is the destination.
-/

namespace Arm2x86.Translate

open X86 Alloc

section Operands

variable (a : Alloc) (op : BitVec 32)

/-- The three requests, and the allocator behind them. -/
structure Operands where
  alloc : Alloc
  rn : GetReg
  rm : GetReg
  rd : GetReg

def operandsOf : Operands :=
  let w := is64 op
  let (a, rn) := regAllocGetReg a (armReg op 5) w false
  let (a, rm) := regAllocGetReg a (armReg op 16) w false
  let (a, rd) := regAllocGetReg a (armReg op 0) w true
  ⟨a, rn, rm, rd⟩

/-- What the requests emit. -/
def Operands.code (o : Operands) : List Code := o.rn.code ++ o.rm.code ++ o.rd.code

/-- The registers of the sources with their guest registers. -/
def Operands.sources (o : Operands) (op : BitVec 32) : List (ArmReg × Byte) :=
  [(armReg op 5, o.rn.x86Reg), (armReg op 16, o.rm.x86Reg)]

theorem Operands.rn_mem (o : Operands) (op : BitVec 32) : (armReg op 5, o.rn.x86Reg) ∈ o.sources op :=
  List.mem_cons_self

theorem Operands.rm_mem (o : Operands) (op : BitVec 32) : (armReg op 16, o.rm.x86Reg) ∈ o.sources op :=
  List.mem_cons_of_mem _ List.mem_cons_self

/-- The values of the guest registers are in the host registers assigned to them, and in the slots of
those that are not cached or not dirty. -/
structure Alloc.Carries (vals slots : ArmReg → BitVec 64) (regs : Gpr → BitVec 64) : Prop where
  held : ∀ r x, a.held r = some x → regs (toGpr x) = vals r
  slot : ∀ r, a.cached r = false ∨ (a.regAlloc r).dirty = false → slots r = vals r

/-- Behind the requests the three registers are assigned, and those of the sources have their values. They
have them also at the end, the destination with the result. -/
structure StableOperands (sem : Semantics) (k : A64.Combination) (code : List Code) : Prop where
  assigned : (operandsOf a op).alloc.held (armReg op 5) = some (operandsOf a op).rn.x86Reg ∧
    (operandsOf a op).alloc.held (armReg op 16) = some (operandsOf a op).rm.x86Reg ∧
      (operandsOf a op).alloc.held (armReg op 0) = some (operandsOf a op).rd.x86Reg
  begins : ∀ m slots vals, m.pos = 0 → Slots m slots → a.Carries vals slots m.regs →
    Reaches sem code.flatten m fun m' ↦ m'.pos = (operandsOf a op).code.flatten.length ∧
      ∀ p ∈ (operandsOf a op).sources op, cut (is64 op) (m'.regs (toGpr p.2)) = cut (is64 op) (vals p.1)
  ends : ∀ m slots vals, m.pos = 0 → Slots m slots → a.Carries vals slots m.regs →
    Reaches sem code.flatten m fun m' ↦ m'.pos = code.flatten.length ∧
      ∀ p ∈ (operandsOf a op).sources op, cut (is64 op) (m'.regs (toGpr p.2)) =
        cut (is64 op) (if p.1 = armReg op 0 then k.value (vals (armReg op 5)) (vals (armReg op 16))
          else vals p.1)

/-- A register that is cached, or that a load gets to the register taken for it. -/
def Alloc.Loads (r : ArmReg) (w : Bool) : Prop :=
  a.cached r ∨ (w = true ∨ a.nextReg < 8) ∧ a.WritesBack

/-- The words, and the states of the allocator, with which the operands are stable. -/
def OperandsMatch (k : A64.Combination) : Prop :=
  armReg op 0 = armReg op 5 ∧ armReg op 16 = armReg op 5 ∧ k ≠ .bic ∧ k ≠ .orn ∧
    a.Loads (armReg op 5) (is64 op)

/-- The combination of a logical word. -/
def logicalAt : A64.Combination :=
  let opcode : BitVec 2 := op.extractLsb' 29 2
  if opcode == 0 then .and else if opcode == 1 then .bic else if opcode == 2 then .orr else .orn

theorem addSub_eq (isSub : Bool) : translateAddSub a op isSub =
    allocatingAlu (combinationCode (if isSub then .sub else .add)) a op := by
  rw [translateAddSub_eq]
  cases isSub <;> rfl

theorem logical_eq : translateLogical a op = allocatingAlu (combinationCode (logicalAt op)) a op := by
  have hcode : logicalCombine (op.extractLsb' 29 2) = combinationCode (logicalAt op) := by
    funext d m
    rw [logicalAt, logicalCombine]
    split
    · rfl
    · split
      · rfl
      · split <;> rfl
  rw [translateLogical_eq, hcode]

theorem allocatingAlu_eq (combine : Byte → Byte → List Code) :
    (allocatingAlu combine a op).2 = (operandsOf a op).code ++
      (copyCode (operandsOf a op).rd.x86Reg (operandsOf a op).rn.x86Reg ++
        combine (operandsOf a op).rd.x86Reg (operandsOf a op).rm.x86Reg) := by
  unfold allocatingAlu
  rfl

end Operands

section Carriers

variable {a : Alloc}

theorem toGpr_homeReg {x y : Byte} (hx : x ∈ homeRegs) (hy : y ∈ homeRegs) :
    toGpr x = toGpr y ↔ x = y := by
  have key : ∀ x ∈ homeRegs, ∀ y ∈ homeRegs, toGpr x = toGpr y ↔ x = y := by decide
  exact key x hx y hy

theorem toGpr_ne_r13 {x : Byte} (hx : x ∈ homeRegs) : toGpr x ≠ 13 := by
  have key : ∀ x ∈ homeRegs, toGpr x ≠ 13 := by decide
  exact key x hx

/-- Host registers with given values of the guest registers. What is not assigned is zero, but for `R13`,
where no home is. -/
def Alloc.host (a : Alloc) (vals : ArmReg → BitVec 64) (g : Gpr) : BitVec 64 :=
  match (List.finRange 32).find? fun r ↦ (a.held r).map toGpr == some g with
  | some r => vals r
  | none => if g = 13 then 0x2000 else 0

theorem Alloc.Drawn.host_held (h : a.Drawn) (vals : ArmReg → BitVec 64) {r : ArmReg} {x : Byte}
    (hr : a.held r = some x) : a.host vals (toGpr x) = vals r := by
  rw [Alloc.host]
  cases hfind : (List.finRange 32).find? fun r ↦ (a.held r).map toGpr == some (toGpr x) with
  | none =>
    have hno := List.find?_eq_none.mp hfind r (List.mem_finRange r)
    rw [hr] at hno
    exact absurd (beq_self_eq_true _) hno
  | some j =>
    have hj := List.find?_some hfind
    obtain ⟨y, hy, hxy⟩ := Option.map_eq_some_iff.mp (beq_iff_eq.mp hj)
    obtain rfl := (toGpr_homeReg (h.held j y hy) (h.held r x hr)).mp hxy
    rw [h.wellFormed.exclusive.unique hy hr]

theorem Alloc.host_free (a : Alloc) (vals : ArmReg → BitVec 64) {g : Gpr}
    (hg : ∀ r x, a.held r = some x → toGpr x ≠ g) : a.host vals g = if g = 13 then 0x2000 else 0 := by
  have hfind : ((List.finRange 32).find? fun r ↦ (a.held r).map toGpr == some g) = none := by
    apply List.find?_eq_none.mpr
    rintro r - hr
    obtain ⟨x, hx, hxg⟩ := Option.map_eq_some_iff.mp (beq_iff_eq.mp hr)
    exact hg r x hx hxg
  rw [Alloc.host, hfind]

/-- A machine with given values of the guest registers. -/
def Alloc.carrier (a : Alloc) (vals : ArmReg → BitVec 64) : Machine :=
  homeMachine (a.host vals 5) vals (a.host vals) (.ofBits 0)

theorem Alloc.carrier_pos (a : Alloc) (vals : ArmReg → BitVec 64) : (a.carrier vals).pos = 0 := rfl

theorem Alloc.carrier_regs (a : Alloc) (vals : ArmReg → BitVec 64) :
    (a.carrier vals).regs = a.host vals := by
  funext g
  show (if g = 5 then a.host vals 5 else a.host vals g) = _
  split
  · next h => rw [h]
  · rfl

theorem Alloc.carrier_slots (a : Alloc) (vals : ArmReg → BitVec 64) : Slots (a.carrier vals) vals :=
  slots_homeMachine

theorem Alloc.Drawn.carries (h : a.Drawn) (vals : ArmReg → BitVec 64) :
    a.Carries vals vals (a.carrier vals).regs := by
  rw [Alloc.carrier_regs]
  exact ⟨fun r x hr ↦ h.host_held vals hr, fun _ _ ↦ rfl⟩

end Carriers

section Clobbered

variable {undef : Instr → Machine → Status} {rest : Instr → Machine → Option Machine}
variable {a : Alloc} {op : BitVec 32} {k : A64.Combination}

theorem operandsOf_drawn (h : a.Drawn) (op : BitVec 32) : (operandsOf a op).alloc.Drawn :=
  ((h.getReg _ _ _).getReg _ _ _).getReg _ _ _

/-- From the begin of the arithmetic to its end. -/
theorem arithmetic_ends (undef : Instr → Machine → Status) (rest : Instr → Machine → Option Machine)
    (a : Alloc) (op : BitVec 32) (k : A64.Combination) {m : Machine}
    (hpos : m.pos = (operandsOf a op).code.flatten.length) :
    let o := operandsOf a op
    let whole := (allocatingAlu (combinationCode k) a op).2.flatten
    ∃ e, (Semantics.core undef rest).steps whole ((copyCode o.rd.x86Reg o.rn.x86Reg).length +
        (combinationCode k o.rd.x86Reg o.rm.x86Reg).length) m = some e ∧ e.pos = whole.length ∧
      e.regs = combinedRegs k (toGpr o.rd.x86Reg) (toGpr o.rm.x86Reg)
        (copiedRegs o.rd.x86Reg o.rn.x86Reg m.regs) := by
  intro o whole
  let tail := (copyCode o.rd.x86Reg o.rn.x86Reg).flatten ++
    (combinationCode k o.rd.x86Reg o.rm.x86Reg).flatten
  have hwhole : whole = o.code.flatten ++ tail := by
    show (allocatingAlu (combinationCode k) a op).2.flatten = _
    rw [allocatingAlu_eq, List.flatten_append, List.flatten_append]
  have hat : At whole m.pos tail := by
    have hself : At whole 0 (o.code.flatten ++ tail) := hwhole ▸ at_self _
    rw [hpos, ← Nat.zero_add o.code.flatten.length]
    exact hself.right
  have halters := (alters_copy undef rest o.rd.x86Reg o.rn.x86Reg).append
    (alters_combination undef rest k o.rd.x86Reg o.rm.x86Reg)
  obtain ⟨e, hsteps, hend, hregs⟩ := halters whole m hat
  refine ⟨e, hsteps, ?_, hregs⟩
  rw [hend, hpos, hwhole]
  exact List.length_append.symm

/-- What the values at the begin of the arithmetic are at its end. -/
theorem StableOperands.finishes
    (h : StableOperands a op (Semantics.core undef rest) k (allocatingAlu (combinationCode k) a op).2)
    {m : Machine} {slots vals : ArmReg → BitVec 64} (hpos : m.pos = 0) (hm : Slots m slots)
    (hc : a.Carries vals slots m.regs) :
    let o := operandsOf a op
    ∃ regs : Gpr → BitVec 64,
      (∀ m', (Semantics.core undef rest).Runs (allocatingAlu (combinationCode k) a op).2.flatten m m' →
        m'.pos = o.code.flatten.length → m'.regs = regs) ∧
      (∀ p ∈ o.sources op, cut (is64 op) (regs (toGpr p.2)) = cut (is64 op) (vals p.1)) ∧
      ∀ p ∈ o.sources op, cut (is64 op) (combinedRegs k (toGpr o.rd.x86Reg) (toGpr o.rm.x86Reg)
          (copiedRegs o.rd.x86Reg o.rn.x86Reg regs) (toGpr p.2)) =
        cut (is64 op) (if p.1 = armReg op 0 then k.value (vals (armReg op 5)) (vals (armReg op 16))
          else vals p.1) := by
  intro o
  obtain ⟨m₁, hrun₁, hpos₁, hbegin⟩ := h.begins m slots vals hpos hm hc
  obtain ⟨e, hsteps, hend, hregs⟩ := arithmetic_ends undef rest a op k hpos₁
  refine ⟨m₁.regs, fun m' hrun' hpos' ↦ ?_, hbegin, ?_⟩
  · obtain ⟨e', hsteps', hend', -⟩ := arithmetic_ends undef rest a op k hpos'
    rw [runs_unique hrun' hrun₁ ⟨e', hsteps', hend'⟩ ⟨e, hsteps, hend⟩]
  · obtain ⟨m₃, hrun₃, hpos₃, hends⟩ := h.ends m slots vals hpos hm hc
    have hrun := hrun₁.trans ⟨_, hsteps⟩
    rw [Semantics.runs_end_unique hrun hend hrun₃ hpos₃, hregs] at hends
    exact hends

/-- Two values for the sources. -/
def twoValues (rn : ArmReg) (p q : BitVec 64) (r : ArmReg) : BitVec 64 := if r = rn then p else q

section Cases

variable (h : StableOperands a op (Semantics.core undef rest) k (allocatingAlu (combinationCode k) a op).2)
variable (ha : a.Drawn)

omit h in
include ha in
/-- Two of the registers are one where their guest registers are. -/
private theorem Alloc.Drawn.toGpr_iff {r r' : ArmReg} {x x' : Byte}
    (hr : (operandsOf a op).alloc.held r = some x) (hr' : (operandsOf a op).alloc.held r' = some x') :
    toGpr x = toGpr x' ↔ r = r' := by
  have hd := operandsOf_drawn ha op
  rw [toGpr_homeReg (hd.held r x hr) (hd.held r' x' hr')]
  constructor
  · rintro rfl
    exact hd.wellFormed.exclusive.unique hr hr'
  · rintro rfl
    exact Option.some.inj (hr.symm.trans hr')

include h ha

/-- What the copy leaves, in a state with given values. -/
private theorem StableOperands.copied (vals : ArmReg → BitVec 64) :
    let o := operandsOf a op
    ∃ regs : Gpr → BitVec 64,
      (∀ m', (Semantics.core undef rest).Runs (allocatingAlu (combinationCode k) a op).2.flatten
        (a.carrier vals) m' → m'.pos = o.code.flatten.length → m'.regs = regs) ∧
      cut (is64 op) (regs (toGpr o.rn.x86Reg)) = cut (is64 op) (vals (armReg op 5)) ∧
      cut (is64 op) (regs (toGpr o.rm.x86Reg)) = cut (is64 op) (vals (armReg op 16)) ∧
      ∀ p ∈ o.sources op, cut (is64 op) (combinedRegs k (toGpr o.rd.x86Reg) (toGpr o.rm.x86Reg)
          (copiedRegs o.rd.x86Reg o.rn.x86Reg regs) (toGpr p.2)) =
        cut (is64 op) (if p.1 = armReg op 0 then k.value (vals (armReg op 5)) (vals (armReg op 16))
          else vals p.1) := by
  intro o
  have hfinish := h.finishes (a.carrier_pos vals) (a.carrier_slots vals) (ha.carries vals)
  obtain ⟨regs, hreach, hbegin, hend⟩ := hfinish
  have hn := hbegin _ (o.rn_mem op)
  have hm := hbegin _ (o.rm_mem op)
  exact ⟨regs, hreach, hn, hm, hend⟩

/-- A second source that is neither the first nor the destination gets a result. -/
theorem StableOperands.rm_eq : armReg op 16 = armReg op 5 ∨ armReg op 16 = armReg op 0 := by
  by_contra hne
  rw [not_or] at hne
  have key : ∀ k : A64.Combination, ∀ w, ∃ p q, cut w (k.combined (k.flipped q) p) ≠ cut w q := by
    intro k w
    cases k <;> cases w
    · exact ⟨1, 0, by decide⟩
    · exact ⟨1, 0, by decide⟩
    · exact ⟨1, 0, by decide⟩
    · exact ⟨1, 0, by decide⟩
    · exact ⟨0, 1, by decide⟩
    · exact ⟨0, 1, by decide⟩
    · exact ⟨1, 0, by decide⟩
    · exact ⟨1, 0, by decide⟩
    · exact ⟨1, 0, by decide⟩
    · exact ⟨1, 0, by decide⟩
    · exact ⟨1, 0, by decide⟩
    · exact ⟨1, 0, by decide⟩
  obtain ⟨p, q, hpq⟩ := key k (is64 op)
  obtain ⟨regs, -, hn, hm, hend⟩ := h.copied ha (twoValues (armReg op 5) p q)
  obtain ⟨hrn, hrm, hrd⟩ := h.assigned
  have hsn := mt (ha.toGpr_iff hrm hrn).mp hne.1
  have hsd := mt (ha.toGpr_iff hrm hrd).mp hne.2
  have hends := hend _ ((operandsOf a op).rm_mem op)
  rw [combinedRegs_self, if_neg (Ne.symm hsd), copiedRegs_other _ hsn, copiedRegs_dest, if_neg hne.2] at hends
  have hdest : cut (is64 op) (regs (toGpr (operandsOf a op).rd.x86Reg)) =
      cut (is64 op) (twoValues (armReg op 5) p q (armReg op 5)) := by
    by_cases hd : armReg op 0 = armReg op 5
    · rw [(ha.toGpr_iff hrd hrn).mpr hd]
      exact hn
    · have hendn := hend _ ((operandsOf a op).rn_mem op)
      rw [combinedRegs_other _ _ (Ne.symm hsn), copiedRegs_source, if_neg (Ne.symm hd)] at hendn
      exact hendn
  have hrn' : twoValues (armReg op 5) p q (armReg op 5) = p := if_pos rfl
  have hrm' : twoValues (armReg op 5) p q (armReg op 16) = q := if_neg hne.1
  rw [cut_congr_combined k hdest (cut_congr_flipped k hm), hrn', hrm'] at hends
  exact hpq hends

/-- The copy takes a second source that is the destination for the first one. -/
theorem StableOperands.rm_ne (hd : armReg op 0 ≠ armReg op 5) : armReg op 16 = armReg op 5 := by
  rcases h.rm_eq ha with hm | hm
  · exact hm
  · obtain ⟨regs, -, hn, hs, hend⟩ := h.copied ha (twoValues (armReg op 5) 1 0)
    obtain ⟨hrn, hrm, hrd⟩ := h.assigned
    have hsd := (ha.toGpr_iff hrm hrd).mpr hm
    have hsn := mt (ha.toGpr_iff hrm hrn).mp fun he ↦ hd (hm.symm.trans he)
    have hendn := hend _ ((operandsOf a op).rn_mem op)
    rw [combinedRegs_other _ _ (Ne.symm hsn), copiedRegs_source, if_neg (Ne.symm hd), ← hsd, hs] at hendn
    have hrn' : twoValues (armReg op 5) 1 0 (armReg op 5) = 1 := if_pos rfl
    have hrm' : twoValues (armReg op 5) 1 0 (armReg op 16) = 0 := if_neg fun he ↦ hd (hm.symm.trans he)
    have hne : ∀ w, cut w 0 ≠ cut w 1 := by decide
    rw [hrn', hrm'] at hendn
    exact absurd hendn (hne _)

/-- Where both sources are one register that is not the destination, what the destination had comes to
it. -/
theorem StableOperands.source_eq (hd : armReg op 0 ≠ armReg op 5) (vals : ArmReg → BitVec 64) :
    let o := operandsOf a op
    ∃ regs : Gpr → BitVec 64,
      (∀ m', (Semantics.core undef rest).Runs (allocatingAlu (combinationCode k) a op).2.flatten
        (a.carrier vals) m' → m'.pos = o.code.flatten.length → m'.regs = regs) ∧
      cut (is64 op) (regs (toGpr o.rn.x86Reg)) = cut (is64 op) (vals (armReg op 5)) ∧
      cut (is64 op) (k.combined (k.flipped (regs (toGpr o.rd.x86Reg))) (regs (toGpr o.rd.x86Reg))) =
        cut (is64 op) (vals (armReg op 5)) := by
  intro o
  obtain ⟨regs, hreach, hn, -, hend⟩ := h.copied ha vals
  obtain ⟨hrn, hrm, hrd⟩ := h.assigned
  have hsn := (ha.toGpr_iff hrm hrn).mpr (h.rm_ne ha hd)
  have hdn := mt (ha.toGpr_iff hrd hrn).mp hd
  refine ⟨regs, hreach, hn, ?_⟩
  have hendn := hend _ (o.rn_mem op)
  rw [hsn, combinedRegs_self, if_neg hdn, copiedRegs_source, copiedRegs_dest, if_neg (Ne.symm hd)] at hendn
  exact hendn

/-- A complement is not undone. -/
theorem StableOperands.not_complements (hd : armReg op 0 = armReg op 5) : k.complements = false := by
  have hm : armReg op 16 = armReg op 5 := by
    rcases h.rm_eq ha with hm | hm
    · exact hm
    · exact hm.trans hd
  have hfinal : ∀ p, cut (is64 op) (k.combined (k.flipped p) (k.flipped p)) =
      cut (is64 op) (k.value p p) := by
    intro p
    obtain ⟨regs, -, hn, -, hend⟩ := h.copied ha fun _ ↦ p
    obtain ⟨hrn, hrm, hrd⟩ := h.assigned
    have hsn := (ha.toGpr_iff hrm hrn).mpr hm
    have hdn := (ha.toGpr_iff hrd hrn).mpr hd
    have hendn := hend _ ((operandsOf a op).rn_mem op)
    rw [hsn, combinedRegs_self, if_pos hdn, copiedRegs_source, hdn, if_pos hd.symm] at hendn
    rw [← cut_congr_combined k (cut_congr_flipped k hn) (cut_congr_flipped k hn)]
    exact hendn
  have h0 := hfinal 0
  have h1 := hfinal 1
  revert h0 h1
  cases k <;> cases is64 op <;> decide

/-- Of the other combinations two are left. -/
theorem StableOperands.dest_eq (hd : armReg op 0 ≠ armReg op 5) (vals : ArmReg → BitVec 64) :
    let o := operandsOf a op
    ∃ regs : Gpr → BitVec 64,
      (∀ m', (Semantics.core undef rest).Runs (allocatingAlu (combinationCode k) a op).2.flatten
        (a.carrier vals) m' → m'.pos = o.code.flatten.length → m'.regs = regs) ∧
      cut (is64 op) (regs (toGpr o.rn.x86Reg)) = cut (is64 op) (vals (armReg op 5)) ∧
      cut (is64 op) (regs (toGpr o.rd.x86Reg)) = cut (is64 op) (vals (armReg op 5)) := by
  intro o
  have hk : k = .and ∨ k = .orr := by
    by_contra hk
    obtain ⟨regs, -, -, hone⟩ := h.source_eq ha hd fun _ ↦ 1
    exact combined_self_ne k (not_or.mp hk) _ _ hone
  obtain ⟨regs, hreach, hn, hself⟩ := h.source_eq ha hd vals
  have hsame : ∀ u : BitVec 64, k.combined (k.flipped u) u = u := by
    intro u
    rcases hk with rfl | rfl
    · exact BitVec.and_self
    · exact BitVec.or_self
  rw [hsame] at hself
  exact ⟨regs, hreach, hn, hself⟩

end Cases

end Clobbered

section Probes

variable {undef : Instr → Machine → Status} {rest : Instr → Machine → Option Machine}
variable {a : Alloc} {op : BitVec 32} {k : A64.Combination}

/-- One source has a value that is the address of nothing, and the other registers have none. -/
def probe (a : Alloc) (rn : ArmReg) : Machine := a.carrier (twoValues rn 0x1000 0)

theorem slotAddr_apart : ∀ j, slotAddr 0x2000 j ∉ homeRegion 0 ∧ slotAddr 0x2000 j ∉ homeRegion 0x1000 ∧
    slotAddr 0x1000 j ∉ homeRegion 0 := by
  simp only [Region.mem_iff]
  decide

theorem Alloc.Drawn.host_thirteen (ha : a.Drawn) (vals : ArmReg → BitVec 64) : a.host vals 13 = 0x2000 := by
  rw [Alloc.host_free a vals fun r x hr ↦ toGpr_ne_r13 (ha.held r x hr)]
  rfl

theorem Alloc.Drawn.host_zero (ha : a.Drawn) {rn : ArmReg} {g : Gpr} (h13 : g ≠ 13)
    (hg : ∀ x, a.held rn = some x → toGpr x ≠ g) : a.host (twoValues rn 0x1000 0) g = 0 := by
  by_cases hfree : ∀ r x, a.held r = some x → toGpr x ≠ g
  · rw [Alloc.host_free a _ hfree, if_neg h13]
  · simp only [not_forall, not_not] at hfree
    obtain ⟨r, x, hr, rfl⟩ := hfree
    rw [ha.host_held _ hr]
    apply if_neg
    rintro rfl
    exact hg x hr rfl

/-- Where the home of a probe is. -/
theorem Alloc.Drawn.probe_home (ha : a.Drawn) (rn : ArmReg) :
    (probe a rn).regs 5 = 0 ∨ (probe a rn).regs 5 = 0x1000 ∧ a.held rn = some rbp := by
  rw [probe, Alloc.carrier_regs]
  by_cases hrn : a.held rn = some rbp
  · right
    exact ⟨(ha.host_held _ hrn).trans (if_pos rfl), hrn⟩
  · left
    apply ha.host_zero (by decide)
    intro x hx h5
    have key : ∀ x ∈ homeRegs, toGpr x = 5 → x = rbp := by decide
    exact hrn (key x (ha.held rn x hx) h5 ▸ hx)

theorem Alloc.Drawn.probe_unmapped (ha : a.Drawn) (rn : ArmReg) (j : ArmReg) :
    slotAddr ((probe a rn).regs 13) j ∉ homeRegion ((probe a rn).regs 5) := by
  have h13 : (probe a rn).regs 13 = 0x2000 := by
    rw [probe, Alloc.carrier_regs, ha.host_thirteen]
  obtain ⟨hzero, hhome, -⟩ := slotAddr_apart j
  rw [h13]
  rcases ha.probe_home rn with h | ⟨h, -⟩
  · rwa [h]
  · rwa [h]

theorem probe_mem {rn : ArmReg} {p : BitVec 64} (h : p ∉ homeRegion ((probe a rn).regs 5)) :
    (probe a rn).mem p = none := homeMem_of_notMem h

/-- All registers but one are zero, next to `R13`. -/
def OneLeft (regs : Gpr → BitVec 64) : Prop := ∃ g₀, ∀ g, g ≠ 13 → g ≠ g₀ → regs g = 0

theorem OneLeft.eq {regs : Gpr → BitVec 64} (h : OneLeft regs) {g g' : Gpr} (hg : g ≠ 13) (hg' : g' ≠ 13)
    {w : Bool} (hv : cut w (regs g) = cut w 0x1000) (hv' : cut w (regs g') = cut w 0x1000) : g = g' := by
  obtain ⟨g₀, hzero⟩ := h
  have hne : ∀ w, cut w 0 ≠ cut w 0x1000 := by decide
  have heq : ∀ g, g ≠ 13 → cut w (regs g) = cut w 0x1000 → g = g₀ := by
    intro g hg hv
    by_contra hgg
    rw [hzero g hg hgg] at hv
    exact hne w hv
  rw [heq g hg hv, heq g' hg' hv']

/-- Behind the request for the source a probe has one register left, and its slots. -/
theorem probe_first (ha : a.Drawn) {rn : ArmReg} {w : Bool} {code : List Byte} {Q : Machine → Prop}
    (hreach : Reaches (Semantics.core undef rest) code (probe a rn) Q)
    (hQ : ∀ m₁, Q m₁ → (regAllocGetReg a rn w false).2.code.flatten.length < m₁.pos)
    (hat : At code 0 (regAllocGetReg a rn w false).2.code.flatten) :
    ∃ m', (Semantics.core undef rest).Runs code (probe a rn) m' ∧
      Reaches (Semantics.core undef rest) code m' Q ∧
      m'.pos = (regAllocGetReg a rn w false).2.code.flatten.length ∧ OneLeft m'.regs ∧
      m'.regs 13 = 0x2000 ∧ (∀ p, p ∉ homeRegion ((probe a rn).regs 5) → m'.mem p = none) ∧
      (a.cached rn ∨ a.WritesBack ∧
        m'.regs = Function.update (probe a rn).regs (loadedReg a.nextReg w) (cut w 0x1000)) ∧
      (Slots m' (twoValues rn 0x1000 0) ∨ (probe a rn).regs 5 = 0 ∧ m'.regs 5 = 0x1000) := by
  have hregs : (probe a rn).regs = a.host (twoValues rn 0x1000 0) := Alloc.carrier_regs a _
  have hslots : Slots (probe a rn) (twoValues rn 0x1000 0) := a.carrier_slots _
  have h13 : (probe a rn).regs 13 = 0x2000 := by
    rw [hregs, ha.host_thirteen]
  by_cases hr : a.cached rn
  · obtain ⟨-, hcode, hheld⟩ := regAllocGetReg_held (w := w) (d := false) hr
    have hleft : OneLeft (probe a rn).regs := by
      refine ⟨toGpr (regAllocGetReg a rn w false).2.x86Reg, fun g hg hne ↦ ?_⟩
      rw [hregs]
      apply ha.host_zero hg
      intro x hx he
      rw [hheld] at hx
      exact hne (Option.some.inj hx ▸ he.symm)
    exact ⟨probe a rn, Semantics.Runs.refl, hreach, hcode ▸ rfl, hleft, h13, fun _ ↦ probe_mem, Or.inl hr,
      Or.inl hslots⟩
  · obtain ⟨-, hcode, -⟩ := regAllocGetReg_uncached (w := w) (d := false) ha.wellFormed hr
    rw [hcode] at hat hQ ⊢
    have hnone : a.held rn = none := if_neg hr
    have hzero : ∀ g, g ≠ 13 → (probe a rn).regs g = 0 := by
      intro g hg
      rw [hregs]
      apply ha.host_zero hg
      intro x hx
      rw [hnone] at hx
      cases hx
    have hstart : (probe a rn).pos = 0 := rfl
    have hback : a.WritesBack := by
      apply WritesBack.of_reaches ha _ hreach _ hat
      · intro m₁ hq
        rw [hstart]
        exact Nat.zero_lt_of_lt (hQ m₁ hq)
      · intro j
        exact probe_mem (ha.probe_unmapped rn j)
    obtain ⟨m', hm', hiff⟩ := request_iff undef rest ha hr hslots hback hat
    have hreach' : Reaches (Semantics.core undef rest) code (probe a rn) (· = m') := by
      apply (hiff (· = m') _).mpr (reaches_here rfl)
      intro m₁ hm₁
      rw [hm₁]
    obtain ⟨m'', hrun, hm''⟩ := hreach'
    rw [hm''] at hrun
    have hpos : m'.pos = (a.writeBack ++ [emitLoadArmReg rn a.nextReg w]).flatten.length := by
      rw [hm'.pos, hstart, Nat.zero_add]
    have hvalue : twoValues rn 0x1000 0 rn = 0x1000 := if_pos rfl
    have hregs' := hm'.regs
    rw [hvalue] at hregs'
    have hload : ∀ x ∈ homeRegs, ∀ w, loadedReg x w ≠ 13 := by decide
    have hleft : ∀ g, g ≠ 13 → g ≠ loadedReg a.nextReg w → m'.regs g = 0 := by
      intro g hg hne
      rw [hregs', Function.update_of_ne hne, hzero g hg]
    have h13' : m'.regs 13 = 0x2000 := by
      rw [hregs', Function.update_of_ne (Ne.symm (hload _ ha.nextReg_mem w)), h13]
    refine ⟨m', hrun, (hiff Q fun m₁ hq ↦ ?_).mp hreach, hpos, ⟨_, hleft⟩, h13', fun p hp ↦ ?_,
      Or.inr ⟨hback, hregs'⟩, ?_⟩
    · rw [hpos]
      exact Nat.le_of_lt (hQ m₁ hq)
    · rw [hm'.mem p hp]
      exact probe_mem hp
    · by_cases h5 : loadedReg a.nextReg w = 5
      · right
        have hcut : ∀ w, cut w 0x1000 = 0x1000 := by decide
        rw [hregs', h5, Function.update_self, hcut]
        exact ⟨hzero 5 (by decide), rfl⟩
      · left
        obtain ⟨slots', hslots', hsame⟩ := hm'.slots h5
        have heq : slots' = twoValues rn 0x1000 0 := by
          funext j
          rcases hsame j with hj | ⟨hcj, w', x, hx, hj⟩
          · exact hj
          · have hne : j ≠ rn := fun he ↦ hr (he ▸ hcj)
            have hj0 : twoValues rn 0x1000 0 j = 0 := if_neg hne
            have hname : ∀ x ∈ homeRegs, gpr false (x.setWidth 3) ≠ 13 := by decide
            have hmerge : ∀ w, merge w 0 (cut w 0) = 0 := by decide
            rw [hj, hj0, hzero _ (hname x hx), hmerge]
        rwa [heq] at hslots'

theorem OneLeft.update {regs : Gpr → BitVec 64} (h : OneLeft regs) (g : Gpr) :
    OneLeft (Function.update regs g 0) := by
  obtain ⟨g₀, hzero⟩ := h
  refine ⟨g₀, fun g' h13 hne ↦ ?_⟩
  rw [Function.update_apply]
  split
  · rfl
  · exact hzero g' h13 hne

/-- And behind the request for the destination too. -/
theorem probe_second (ha : a.Drawn) {rn rd : ArmReg} (hd : rd ≠ rn) {w : Bool} {code : List Byte} {m : Machine}
    {Q : Machine → Prop} (hreach : Reaches (Semantics.core undef rest) code m Q) (hleft : OneLeft m.regs)
    (h13 : m.regs 13 = 0x2000) (h13' : ∀ j, m.mem (slotAddr 0x2000 j) = none)
    (hm : Slots m (twoValues rn 0x1000 0) ∨
      m.regs 5 = 0x1000 ∧ ∀ j, m.mem (slotAddr 0x1000 j) = none)
    (hQ : ∀ m₁, Q m₁ → m.pos + (regAllocGetReg a rd w true).2.code.flatten.length < m₁.pos)
    (hat : At code m.pos (regAllocGetReg a rd w true).2.code.flatten) :
    ∃ m', (Semantics.core undef rest).Runs code m m' ∧
      m'.pos = m.pos + (regAllocGetReg a rd w true).2.code.flatten.length ∧ OneLeft m'.regs := by
  by_cases hr : a.cached rd
  · rw [(regAllocGetReg_held hr).2.1]
    exact ⟨m, Semantics.Runs.refl, rfl, hleft⟩
  · obtain ⟨-, hcode, -⟩ := regAllocGetReg_uncached (w := w) (d := true) ha.wellFormed hr
    rw [hcode] at hat hQ ⊢
    have hlt : ∀ m₁, Q m₁ → m.pos < m₁.pos := by
      intro m₁ hq
      have hend := hQ m₁ hq
      omega
    rw [← h13] at h13'
    rcases hm with hm | ⟨h5, hmem⟩
    · have hback := WritesBack.of_reaches ha hlt hreach h13' hat
      obtain ⟨m', hm', hiff⟩ := request_iff undef rest ha hr hm hback hat
      have hreach' : Reaches (Semantics.core undef rest) code m (· = m') := by
        apply (hiff (· = m') _).mpr (reaches_here rfl)
        intro m₁ hm₁
        rw [hm₁]
      obtain ⟨m'', hrun, hm''⟩ := hreach'
      rw [hm''] at hrun
      refine ⟨m', hrun, hm'.pos, ?_⟩
      have hzero : cut w (twoValues rn 0x1000 0 rd) = 0 := by
        have hvalue : twoValues rn 0x1000 0 rd = 0 := if_neg hd
        have hcut : ∀ w, cut w 0 = 0 := by decide
        rw [hvalue, hcut]
      rw [hm'.regs, hzero]
      exact hleft.update _
    · rw [← h5] at hmem
      exact absurd hreach (not_reaches_request ha hlt hmem h13' hat)

theorem regAllocGetReg_of_cached {r : ArmReg} (hr : a.cached r) (w : Bool) :
    (regAllocGetReg a r w false).1 = a ∧ (regAllocGetReg a r w false).2.code = [] := by
  rw [regAllocGetReg, if_pos hr]
  exact ⟨rfl, rfl⟩

/-- Where the sources are one, there are two requests. -/
theorem operandsOf_same (ha : a.Drawn) (hm : armReg op 16 = armReg op 5) :
    (operandsOf a op).code = (regAllocGetReg a (armReg op 5) (is64 op) false).2.code ++
        (regAllocGetReg (regAllocGetReg a (armReg op 5) (is64 op) false).1 (armReg op 0) (is64 op)
          true).2.code := by
  let a₁ := (regAllocGetReg a (armReg op 5) (is64 op) false).1
  have hcached : a₁.cached (armReg op 16) := by
    rw [hm]
    exact cached_iff_held.mpr ⟨_, regAllocGetReg_assigned ha.wellFormed⟩
  obtain ⟨halloc, hcode⟩ := regAllocGetReg_of_cached hcached (is64 op)
  show (regAllocGetReg a (armReg op 5) (is64 op) false).2.code ++
    (regAllocGetReg a₁ (armReg op 16) (is64 op) false).2.code ++
      (regAllocGetReg (regAllocGetReg a₁ (armReg op 16) (is64 op) false).1 (armReg op 0) (is64 op)
        true).2.code = _
  rw [halloc, hcode, List.append_nil]

/-- The code of two requests and of the arithmetic. -/
theorem allocating_split (ha : a.Drawn) (hm : armReg op 16 = armReg op 5) (k : A64.Combination) :
    let first := (regAllocGetReg a (armReg op 5) (is64 op) false).2.code.flatten
    let second := (regAllocGetReg (regAllocGetReg a (armReg op 5) (is64 op) false).1 (armReg op 0) (is64 op)
      true).2.code.flatten
    ∃ tail : List Byte, 0 < tail.length ∧
      At (allocatingAlu (combinationCode k) a op).2.flatten 0 (first ++ (second ++ tail)) ∧
      (allocatingAlu (combinationCode k) a op).2.flatten.length =
        first.length + (second.length + tail.length) ∧
      (operandsOf a op).code.flatten.length = first.length + second.length := by
  intro first second
  have hcode := operandsOf_same ha hm
  let tail := (copyCode (operandsOf a op).rd.x86Reg (operandsOf a op).rn.x86Reg).flatten ++
    (combinationCode k (operandsOf a op).rd.x86Reg (operandsOf a op).rm.x86Reg).flatten
  have hwhole : (allocatingAlu (combinationCode k) a op).2.flatten = first ++ (second ++ tail) := by
    rw [allocatingAlu_eq, List.flatten_append, hcode, List.flatten_append, List.flatten_append,
      List.append_assoc]
  refine ⟨tail, ?_, ?_, ?_, ?_⟩
  · have hcomb : ∀ k d s, 0 < (combinationCode k d s).flatten.length := by
      intro k d s
      cases k <;> exact Nat.zero_lt_succ _
    rw [List.length_append]
    exact Nat.add_pos_right _ (hcomb _ _ _)
  · rw [hwhole]
    exact at_self _
  · rw [hwhole, List.length_append, List.length_append]
  · rw [hcode, List.flatten_append, List.length_append]

section Necessity

variable (h : StableOperands a op (Semantics.core undef rest) k (allocatingAlu (combinationCode k) a op).2)
variable (ha : a.Drawn)

include h ha

/-- A probe at the first request. -/
private theorem StableOperands.probed (hm : armReg op 16 = armReg op 5) :
    let code := (allocatingAlu (combinationCode k) a op).2.flatten
    let first := (regAllocGetReg a (armReg op 5) (is64 op) false).2.code.flatten
    ∃ m', (Semantics.core undef rest).Runs code (probe a (armReg op 5)) m' ∧
      Reaches (Semantics.core undef rest) code m' (fun m'' ↦ m''.pos = code.length) ∧
      m'.pos = first.length ∧ OneLeft m'.regs ∧
      m'.regs 13 = 0x2000 ∧ (∀ p, p ∉ homeRegion ((probe a (armReg op 5)).regs 5) → m'.mem p = none) ∧
      (a.cached (armReg op 5) ∨ a.WritesBack ∧ m'.regs = Function.update (probe a (armReg op 5)).regs
        (loadedReg a.nextReg (is64 op)) (cut (is64 op) 0x1000)) ∧
      (Slots m' (twoValues (armReg op 5) 0x1000 0) ∨
        (probe a (armReg op 5)).regs 5 = 0 ∧ m'.regs 5 = 0x1000) := by
  intro code first
  obtain ⟨tail, htail, hat, hlen, -⟩ := allocating_split ha hm k
  have hends := h.ends (probe a (armReg op 5)) _ _ rfl (a.carrier_slots _) (ha.carries _)
  have hreach : Reaches (Semantics.core undef rest) code (probe a (armReg op 5))
      fun m'' ↦ m''.pos = code.length := hends.mono fun _ hend ↦ hend.1
  refine probe_first ha hreach (fun m'' hend ↦ ?_) hat.left
  rw [hend, hlen]
  exact Nat.lt_add_of_pos_right (Nat.add_pos_right _ htail)

theorem StableOperands.dest_same : armReg op 0 = armReg op 5 := by
  by_contra hd
  have hm := h.rm_ne ha hd
  obtain ⟨tail, htail, hself, hlen, hcode⟩ := allocating_split ha hm k
  obtain ⟨regs, huniq, hn, hdv⟩ := h.dest_eq ha hd (twoValues (armReg op 5) 0x1000 0)
  obtain ⟨m₁, hrun₁, hreach₁, hpos₁, hleft, h13, hmem, -, hslots⟩ := h.probed ha hm
  have hunmapped := ha.probe_unmapped (armReg op 5)
  have hstart13 : (probe a (armReg op 5)).regs 13 = 0x2000 := by
    rw [probe, Alloc.carrier_regs, ha.host_thirteen]
  rw [hstart13] at hunmapped
  have hslots₁ : Slots m₁ (twoValues (armReg op 5) 0x1000 0) ∨
      m₁.regs 5 = 0x1000 ∧ ∀ j, m₁.mem (slotAddr 0x1000 j) = none := by
    rcases hslots with hslots | ⟨h0, h5⟩
    · exact Or.inl hslots
    · refine Or.inr ⟨h5, fun j ↦ hmem _ ?_⟩
      rw [h0]
      exact (slotAddr_apart j).2.2
  have hat := hself.right.left
  rw [Nat.zero_add, ← hpos₁] at hat
  obtain ⟨m₂, hrun₂, hpos₂, hleft₂⟩ := probe_second (ha.getReg _ _ _) hd hreach₁ hleft h13
    (fun j ↦ hmem _ (hunmapped j)) hslots₁ (by
      intro m' hend
      rw [hend, hlen, hpos₁]
      omega) hat
  have hend : m₂.pos = (operandsOf a op).code.flatten.length := by
    rw [hpos₂, hpos₁, hcode]
  rw [← huniq m₂ (hrun₁.trans hrun₂) hend] at hn hdv
  have hvalue : twoValues (armReg op 5) 0x1000 0 (armReg op 5) = 0x1000 := if_pos rfl
  rw [hvalue] at hn hdv
  obtain ⟨hrn, -, hrd⟩ := h.assigned
  have hdrawn := operandsOf_drawn ha op
  exact hd ((ha.toGpr_iff hrd hrn).mp
    (hleft₂.eq (toGpr_ne_r13 (hdrawn.held _ _ hrd)) (toGpr_ne_r13 (hdrawn.held _ _ hrn)) hdv hn))

theorem StableOperands.source_same : armReg op 16 = armReg op 5 := by
  rcases h.rm_eq ha with hm | hm
  · exact hm
  · exact hm.trans (h.dest_same ha)

theorem StableOperands.loads : a.Loads (armReg op 5) (is64 op) := by
  by_cases hr : a.cached (armReg op 5)
  · exact Or.inl hr
  have hd := h.dest_same ha
  have hm := h.source_same ha
  obtain ⟨m₁, hrun₁, -, hpos₁, -, -, -, hload, -⟩ := h.probed ha hm
  obtain ⟨hback, hregs⟩ := hload.resolve_left hr
  obtain ⟨-, -, -, -, hlen⟩ := allocating_split ha hm k
  obtain ⟨regs, huniq, hn, -⟩ := h.copied ha (twoValues (armReg op 5) 0x1000 0)
  have hnext : (operandsOf a op).rn.x86Reg = a.nextReg := (regAllocGetReg_uncached ha.wellFormed hr).1
  have hsecond : (regAllocGetReg (regAllocGetReg a (armReg op 5) (is64 op) false).1 (armReg op 0) (is64 op)
      true).2.code = [] := by
    rw [hd]
    exact (regAllocGetReg_held (cached_iff_held.mpr ⟨_, regAllocGetReg_assigned ha.wellFormed⟩)).2.1
  have hend : m₁.pos = (operandsOf a op).code.flatten.length := by
    rw [hlen, hsecond, hpos₁]
    rfl
  have hvalue : twoValues (armReg op 5) 0x1000 0 (armReg op 5) = 0x1000 := if_pos rfl
  rw [← huniq m₁ hrun₁ hend, hregs, hnext, hvalue] at hn
  have hsame : loadedReg a.nextReg (is64 op) = toGpr a.nextReg := by
    by_contra hne
    have hnone : ∀ x, a.held (armReg op 5) ≠ some x := by
      intro x hx
      exact hr (cached_iff_held.mpr ⟨x, hx⟩)
    have hzero : (probe a (armReg op 5)).regs (toGpr a.nextReg) = 0 := by
      rw [probe, Alloc.carrier_regs]
      exact ha.host_zero (toGpr_ne_r13 ha.nextReg_mem) fun x hx ↦ absurd hx (hnone x)
    have hcut : ∀ w, cut w 0 ≠ cut w 0x1000 := by decide
    rw [Function.update_of_ne (Ne.symm hne), hzero] at hn
    exact hcut _ hn
  exact Or.inr ⟨((loadedReg_eq_iff ha.nextReg_mem _).mp hsame).symm, hback⟩

end Necessity

end Probes

section Sufficiency

variable {undef : Instr → Machine → Status} {rest : Instr → Machine → Option Machine}
variable {a : Alloc} {op : BitVec 32} {k : A64.Combination}

/-- Of one guest register all three requests return the host register. -/
theorem operandsOf_one (ha : a.Drawn) (hd : armReg op 0 = armReg op 5) (hm : armReg op 16 = armReg op 5) :
    let o := operandsOf a op
    o.alloc.held (armReg op 5) = some o.rn.x86Reg ∧ o.rm.x86Reg = o.rn.x86Reg ∧
      o.rd.x86Reg = o.rn.x86Reg ∧
        o.code = (regAllocGetReg a (armReg op 5) (is64 op) false).2.code := by
  intro o
  let b := (regAllocGetReg a (armReg op 5) (is64 op) false).1
  have hheld : b.held (armReg op 5) = some o.rn.x86Reg := regAllocGetReg_assigned ha.wellFormed
  have hcached : b.cached (armReg op 5) := cached_iff_held.mpr ⟨_, hheld⟩
  have hb : (regAllocGetReg b (armReg op 16) (is64 op) false).1 = b := by
    rw [hm]
    exact (regAllocGetReg_of_cached hcached _).1
  have hrm : b.held (armReg op 16) = some o.rm.x86Reg := by
    have hcached' : b.cached (armReg op 16) := hm ▸ hcached
    exact (regAllocGetReg_held hcached').2.2
  have hcached' : b.cached (armReg op 0) := hd ▸ hcached
  obtain ⟨halloc, hcode, hrd⟩ := regAllocGetReg_held (w := is64 op) (d := true) hcached'
  have ho : o.alloc = (regAllocGetReg b (armReg op 0) (is64 op) true).1 :=
    congrArg (fun c ↦ (regAllocGetReg c (armReg op 0) (is64 op) true).1) hb
  have hod : o.rd = (regAllocGetReg b (armReg op 0) (is64 op) true).2 :=
    congrArg (fun c ↦ (regAllocGetReg c (armReg op 0) (is64 op) true).2) hb
  have hsame : o.code = (regAllocGetReg a (armReg op 5) (is64 op) false).2.code ++
      (regAllocGetReg b (armReg op 0) (is64 op) true).2.code := operandsOf_same ha hm
  rw [hcode, List.append_nil] at hsame
  rw [hm, hheld] at hrm
  rw [← hod, hd, hheld] at hrd
  refine ⟨?_, (Option.some.inj hrm).symm, (Option.some.inj hrd).symm, hsame⟩
  rw [ho, halloc, hheld]

variable (undef rest) in
/-- The request of a register that loads. -/
theorem loads_runs (ha : a.Drawn) {r : ArmReg} {w : Bool} (hload : a.Loads r w) {code : List Byte} {m : Machine}
    {slots vals : ArmReg → BitVec 64} (hm : Slots m slots) (hc : a.Carries vals slots m.regs)
    (hat : At code m.pos (regAllocGetReg a r w false).2.code.flatten) :
    ∃ m', (Semantics.core undef rest).Runs code m m' ∧
      m'.pos = m.pos + (regAllocGetReg a r w false).2.code.flatten.length ∧
      cut w (m'.regs (toGpr (regAllocGetReg a r w false).2.x86Reg)) = cut w (vals r) := by
  by_cases hr : a.cached r
  · obtain ⟨-, hcode, hheld⟩ := regAllocGetReg_held (w := w) (d := false) hr
    rw [hcode]
    exact ⟨m, Semantics.Runs.refl, rfl, congrArg (cut w) (hc.held r _ hheld)⟩
  · obtain ⟨hw, hback⟩ := hload.resolve_left hr
    obtain ⟨hreg, hcode, -⟩ := regAllocGetReg_uncached (w := w) (d := false) ha.wellFormed hr
    rw [hcode] at hat ⊢
    obtain ⟨m', hm', hiff⟩ := request_iff undef rest ha hr hm hback hat
    have hreach : Reaches (Semantics.core undef rest) code m (· = m') := by
      apply (hiff (· = m') _).mpr (reaches_here rfl)
      intro m₁ hm₁
      rw [hm₁]
    obtain ⟨m'', hrun, hm''⟩ := hreach
    rw [hm''] at hrun
    refine ⟨m', hrun, hm'.pos, ?_⟩
    rw [hreg, hm'.regs, (loadedReg_eq_iff ha.nextReg_mem w).mpr hw.symm, Function.update_self,
      hc.slot r (Or.inl (Bool.eq_false_iff.mpr hr)), cut_cut]

theorem stableOperands_of_match (ha : a.Drawn) (h : OperandsMatch a op k) :
    StableOperands a op (Semantics.core undef rest) k (allocatingAlu (combinationCode k) a op).2 := by
  obtain ⟨hd, hm, hbic, horn, hload⟩ := h
  obtain ⟨hheld, hrm, hrd, hcode⟩ := operandsOf_one ha hd hm
  obtain ⟨tail, -, hat, -⟩ := allocating_split ha hm k
  have hbegin : ∀ m slots vals, m.pos = 0 → Slots m slots → a.Carries vals slots m.regs →
      ∃ m', (Semantics.core undef rest).Runs (allocatingAlu (combinationCode k) a op).2.flatten m m' ∧
        m'.pos = (operandsOf a op).code.flatten.length ∧
        cut (is64 op) (m'.regs (toGpr (operandsOf a op).rn.x86Reg)) =
          cut (is64 op) (vals (armReg op 5)) := by
    intro m slots vals hpos hslots hc
    rw [← hpos] at hat
    obtain ⟨m', hrun, hpos', hv⟩ := loads_runs undef rest ha hload hslots hc hat.left
    refine ⟨m', hrun, ?_, hv⟩
    rw [hpos', hpos, hcode, Nat.zero_add]
  have hsources : ∀ p ∈ (operandsOf a op).sources op,
      p.1 = armReg op 5 ∧ p.2 = (operandsOf a op).rn.x86Reg := by
    intro p hp
    rcases List.mem_cons.mp hp with rfl | hp
    · exact ⟨rfl, rfl⟩
    · obtain rfl := List.mem_singleton.mp hp
      exact ⟨hm, hrm⟩
  refine ⟨⟨hheld, ?_, ?_⟩, fun m slots vals hpos hslots hc ↦ ?_, fun m slots vals hpos hslots hc ↦ ?_⟩
  · rw [hm, hrm, hheld]
  · rw [hd, hrd, hheld]
  · obtain ⟨m', hrun, hpos', hv⟩ := hbegin m slots vals hpos hslots hc
    refine ⟨m', hrun, hpos', fun p hp ↦ ?_⟩
    obtain ⟨h1, h2⟩ := hsources p hp
    rw [h1, h2, hv]
  · obtain ⟨m', hrun, hpos', hv⟩ := hbegin m slots vals hpos hslots hc
    obtain ⟨e, hsteps, hend, hregs⟩ := arithmetic_ends undef rest a op k hpos'
    refine ⟨e, hrun.trans ⟨_, hsteps⟩, hend, fun p hp ↦ ?_⟩
    obtain ⟨h1, h2⟩ := hsources p hp
    have hvalue : ∀ p, k.combined (k.flipped p) (k.flipped p) = k.value p p := by
      intro p
      cases k with
      | bic => exact absurd rfl hbic
      | orn => exact absurd rfl horn
      | _ => rfl
    have hflip := cut_congr_flipped k hv
    rw [hregs, h1, h2, hrm, hrd, combinedRegs_self, if_pos rfl, copiedRegs_source, if_pos hd.symm, hm,
      ← hvalue]
    exact cut_congr_combined k hflip hflip

end Sufficiency

section Results

variable (undef : Instr → Machine → Status) (rest : Instr → Machine → Option Machine)
variable (op : BitVec 32)

theorem stableOperands_iff {a : Alloc} (ha : a.Drawn) (k : A64.Combination) :
    StableOperands a op (Semantics.core undef rest) k (allocatingAlu (combinationCode k) a op).2 ↔
      OperandsMatch a op k := by
  constructor
  · intro h
    have hflip := h.not_complements ha (h.dest_same ha)
    refine ⟨h.dest_same ha, h.source_same ha, ?_, ?_, h.loads ha⟩
    · rintro rfl
      cases hflip
    · rintro rfl
      cases hflip
  · exact stableOperands_of_match ha

end Results

end Arm2x86.Translate
