import Arm2x86.Translate.SlotRuns

/-!
# Runs apart from the flags

Emitted code whose result does not depend on the flags, followed by what it makes of the slots, of the
host registers and of the memory outside of the home. The flags it leaves may be anything.
-/

namespace Arm2x86.Translate

open X86

/-- What is seen of a machine without its flags. -/
structure Values where
  slots : ArmReg → BitVec 64
  regs : Gpr → BitVec 64
  mem : Sparse

/-- A view without its flags. -/
def View.values (v : View) : Values := ⟨v.slots, v.regs, v.mem⟩

namespace Values

/-- The values of a machine. -/
structure Of (v : Values) (m : Machine) : Prop where
  slots : Slots m v.slots
  regs : m.regs = v.regs
  mem : ∀ a ∉ homeRegion (m.regs 5), m.mem a = v.mem a

/-- Another value in a register. -/
def setReg (v : Values) (g : Gpr) (a : BitVec 64) : Values :=
  { v with regs := fun g' ↦ if g' = g then a else v.regs g' }

theorem setReg_self (v : Values) (g : Gpr) : v.setReg g (v.regs g) = v := by
  have hregs : (fun g' ↦ if g' = g then v.regs g else v.regs g') = v.regs := by
    funext g'
    split
    · next h => rw [h]
    · rfl
  rw [setReg, hregs]

@[simp] theorem regs_setReg_self (v : Values) (g : Gpr) (a : BitVec 64) :
    (v.setReg g a).regs g = a := if_pos rfl

@[simp] theorem setReg_setReg (v : Values) (g : Gpr) (a b : BitVec 64) :
    (v.setReg g a).setReg g b = v.setReg g b := by
  have hregs : (fun g' ↦ if g' = g then b else if g' = g then a else v.regs g') =
      fun g' ↦ if g' = g then b else v.regs g' := by
    funext g'
    split <;> rfl
  rw [setReg, setReg, setReg, hregs]

/-- Another value in the low part of a slot. -/
def store (v : Values) (r : ArmReg) (w : Bool) (a : BitVec 64) : Values :=
  { v with slots := Function.update v.slots r (merge w (v.slots r) a) }

variable {v : Values} {m : Machine}

theorem Of.view (h : v.Of m) : View.Of ⟨v.slots, v.regs, m.status, v.mem⟩ m :=
  ⟨h.slots, h.regs, rfl, h.mem⟩

theorem Of.at (h : v.Of m) (p : Nat) : v.Of { m with pos := p } := ⟨h.slots.at p, h.regs, h.mem⟩

theorem Of.setReg (h : v.Of m) {g : Gpr} (hg : g ≠ 5) (a : BitVec 64) :
    (v.setReg g a).Of (m.setReg g a) :=
  have hview := h.view.setReg hg a
  ⟨hview.slots, hview.regs, hview.mem⟩

theorem Of.setStatus (h : v.Of m) (s : Status) : v.Of (m.setStatus s) :=
  ⟨h.slots.setStatus s, h.regs, h.mem⟩

end Values

theorem View.Of.values {v : View} {m : Machine} (h : v.Of m) : v.values.Of m :=
  ⟨h.slots, h.regs, h.mem⟩

/-- Some code takes every machine to its end and changes its values. -/
def Computes (sem : Semantics) (frag : List Byte) (f : Values → Values) : Prop :=
  Transforms Values.Of sem frag f

section Rules

variable {sem : Semantics} {frag frag' : List Byte} {f f' : Values → Values}

theorem computes_nil : Computes sem [] id := transforms_nil

theorem Computes.append (h : Computes sem frag f) (h' : Computes sem frag' f') :
    Computes sem (frag ++ frag') (f' ∘ f) := Transforms.append h h'

theorem Computes.congr (h : Computes sem frag f) (hf : ∀ v, f v = f' v) : Computes sem frag f' := by
  rwa [← funext hf]

/-- An instruction that goes on with the next one. -/
theorem computes_instr {i : Instr} (hdec : ∀ tail, X86.decode (frag ++ tail) = some (i, tail))
    (h : ∀ m v, Values.Of v m → ∃ m', sem.exec i m = some m' ∧ m'.pos = m.pos ∧ (f v).Of m') :
    Computes sem frag f := transforms_instr hdec (fun _ _ p hv ↦ hv.at p) h

/-- Code that works on views, and does not ask for the flags. -/
theorem Does.computes {g : View → View} (h : Does sem frag g)
    (hg : ∀ v, (g v).values = f v.values) : Computes sem frag f := by
  intro whole m v hv hat
  obtain ⟨m', hrun, hpos, hv'⟩ := h whole m _ hv.view hat
  have hvalues := hv'.values
  rw [hg] at hvalues
  exact ⟨m', hrun, hpos, hvalues⟩

variable (undef : Instr → Machine → Status) (rest : Instr → Machine → Option Machine)

theorem computes_load (r : ArmReg) {x : Byte} {w : Bool} (hx : loadedReg x w ≠ 5) :
    Computes (Semantics.core undef rest) (emitLoadArmReg r x w)
      fun v ↦ v.setReg (loadedReg x w) (cut w (v.slots r)) :=
  (does_load undef rest r hx).computes fun _ ↦ rfl

theorem computes_store (r : ArmReg) {x : Byte} (hx : x < 8) (w : Bool) :
    Computes (Semantics.core undef rest) (emitStoreArmReg x r w)
      fun v ↦ v.store r w (cut w (v.regs (toGpr x))) :=
  (does_store undef rest r hx w).computes fun _ ↦ rfl

theorem computes_store_named (r : ArmReg) {x : Byte} {w : Bool} (hx : (w && decide (8 ≤ x)) = false) :
    Computes (Semantics.core undef rest) (emitStoreArmReg x r w)
      fun v ↦ v.store r w (cut w (v.regs (gpr false (x.setWidth 3)))) :=
  (does_store_named undef rest r hx).computes fun _ ↦ rfl

/-- One operand through `RAX`. -/
theorem Computes.viaRax {body : List Code} (rn rd : ArmReg) (w : Bool)
    (h : Computes (Semantics.core undef rest) body.flatten f) :
    Computes (Semantics.core undef rest) (viaRax rn rd w body).flatten fun v ↦
      let v' := f (v.setReg 0 (cut w (v.slots rn)))
      v'.store rd w (cut w (v'.regs 0)) := by
  have hload : loadedReg rax w = 0 := by cases w <;> rfl
  have hne : loadedReg rax w ≠ 5 := by
    rw [hload]
    decide
  have hlow : rax < 8 := by decide
  have hall := (computes_load undef rest rn hne).append
    (h.append (computes_store undef rest rd hlow w))
  rw [hload] at hall
  rw [Translate.viaRax, List.flatten_cons, List.flatten_append, List.flatten_singleton]
  exact hall

end Rules

/-- What code computes decides what it leaves. -/
theorem leaves_iff_of_computes {sem : Semantics} {code : List Code} {f : Values → Values}
    {post : (ArmReg → BitVec 64) → Status → (ArmReg → BitVec 64) → Prop}
    (h : Computes sem code.flatten f)
    (slotsOf : (ArmReg → BitVec 64) → ArmReg → BitVec 64)
    (hslots : ∀ v, (f v).slots = slotsOf v.slots) :
    Leaves sem code post ↔ ∀ slots s, post slots s (slotsOf slots) := by
  constructor
  · intro hleaves slots s
    have hv := (exists_view 0 slots (fun _ ↦ 0) s).values
    obtain ⟨m₁, hrun₁, hpos₁, slots₁, hslots₁, hpost⟩ := hleaves _ slots rfl hv.slots
    obtain ⟨m₂, hrun₂, hpos₂, hv₂⟩ := h _ _ _ hv (at_self code.flatten)
    have hend : m₂.pos = code.flatten.length := hpos₂.trans (Nat.zero_add _)
    rw [Semantics.runs_end_unique hrun₂ hend hrun₁ hpos₁] at hslots₁
    have hsame := hslots₁.unique hv₂.slots
    rw [hslots] at hsame
    rwa [hsame, status_homeMachine] at hpost
  · intro hpost m slots hpos hm
    have hv : Values.Of ⟨slots, m.regs, m.mem⟩ m := ⟨hm, rfl, fun _ _ ↦ rfl⟩
    have hat : At code.flatten m.pos code.flatten := by
      rw [hpos]
      exact at_self _
    obtain ⟨m', hrun, hpos', hv'⟩ := h _ m _ hv hat
    refine ⟨m', hrun, ?_, _, hv'.slots, ?_⟩
    · rw [hpos', hpos, Nat.zero_add]
    · rw [hslots]
      exact hpost slots m.status

/-- What the end of code is for the slots and the host registers, from where they are related. -/
def LeavesRegs (sem : Semantics) (code : List Code)
    (pre : (ArmReg → BitVec 64) → (Gpr → BitVec 64) → Prop)
    (post : (ArmReg → BitVec 64) → (ArmReg → BitVec 64) → (Gpr → BitVec 64) → Prop) : Prop :=
  ∀ m slots, m.pos = 0 → Slots m slots → pre slots m.regs → Reaches sem code.flatten m fun m' ↦
    m'.pos = code.flatten.length ∧ ∃ slots', Slots m' slots' ∧ post slots slots' m'.regs

/-- Any registers come with any slots, in the home that `RBP` is at. -/
theorem exists_values (slots : ArmReg → BitVec 64) (regs : Gpr → BitVec 64) :
    Values.Of ⟨slots, regs, fun _ ↦ none⟩ (homeMachine (regs 5) slots regs (.ofBits 0)) := by
  have hv := (exists_view (regs 5) slots regs (.ofBits 0)).values
  have hregs : (fun g ↦ if g = 5 then regs 5 else regs g) = regs := by
    funext g
    split
    · next h => rw [h]
    · rfl
  rwa [hregs] at hv

theorem leavesRegs_iff {sem : Semantics} {code : List Code} {f : Values → Values}
    {pre : (ArmReg → BitVec 64) → (Gpr → BitVec 64) → Prop}
    {post : (ArmReg → BitVec 64) → (ArmReg → BitVec 64) → (Gpr → BitVec 64) → Prop}
    (h : Computes sem code.flatten f)
    (slotsOf : (ArmReg → BitVec 64) → (Gpr → BitVec 64) → ArmReg → BitVec 64)
    (regsOf : (ArmReg → BitVec 64) → (Gpr → BitVec 64) → Gpr → BitVec 64)
    (hslots : ∀ v, (f v).slots = slotsOf v.slots v.regs)
    (hregs : ∀ v, (f v).regs = regsOf v.slots v.regs) :
    LeavesRegs sem code pre post ↔
      ∀ slots regs, pre slots regs → post slots (slotsOf slots regs) (regsOf slots regs) := by
  constructor
  · intro hleaves slots regs hpre
    have hv := exists_values slots regs
    obtain ⟨m₁, hrun₁, hpos₁, slots₁, hslots₁, hpost⟩ :=
      hleaves _ slots rfl hv.slots (by rwa [hv.regs])
    obtain ⟨m₂, hrun₂, hpos₂, hv₂⟩ := h _ _ _ hv (at_self code.flatten)
    have hend : m₂.pos = code.flatten.length := hpos₂.trans (Nat.zero_add _)
    rw [Semantics.runs_end_unique hrun₂ hend hrun₁ hpos₁] at hslots₁ hpost
    have hsame := hslots₁.unique hv₂.slots
    rw [hslots] at hsame
    rwa [hsame, hv₂.regs, hregs] at hpost
  · intro hpost m slots hpos hm hpre
    have hv : Values.Of ⟨slots, m.regs, m.mem⟩ m := ⟨hm, rfl, fun _ _ ↦ rfl⟩
    have hat : At code.flatten m.pos code.flatten := by
      rw [hpos]
      exact at_self _
    obtain ⟨m', hrun, hpos', hv'⟩ := h _ m _ hv hat
    refine ⟨m', hrun, ?_, _, hv'.slots, ?_⟩
    · rw [hpos', hpos, Nat.zero_add]
    · rw [hslots, hv'.regs, hregs]
      exact hpost slots m.regs hpre

/-- Code that gets stuck at its second instruction, where only the home is mapped. -/
theorem not_leavesRegs {sem : Semantics} {first second : Code} {tail : List Code} {i : Instr}
    {f : Values → Values} {pre : (ArmReg → BitVec 64) → (Gpr → BitVec 64) → Prop}
    {post : (ArmReg → BitVec 64) → (ArmReg → BitVec 64) → (Gpr → BitVec 64) → Prop}
    (hfirst : Computes sem first f) (hdec : ∀ tail, X86.decode (second ++ tail) = some (i, tail))
    (hlen : second ≠ []) (slots : ArmReg → BitVec 64) (regs : Gpr → BitVec 64) (hpre : pre slots regs)
    (hstuck : ∀ m, (f ⟨slots, regs, fun _ ↦ none⟩).Of m → sem.exec i m = none) :
    ¬ LeavesRegs sem (first :: second :: tail) pre post := by
  intro h
  have hv := exists_values slots regs
  have hat : At (first :: second :: tail).flatten 0 (first ++ (second ++ tail.flatten)) :=
    at_self _
  obtain ⟨m₁, hrun, hpos, hv₁⟩ := hfirst _ _ _ hv hat.left
  have hat₁ : At (first :: second :: tail).flatten m₁.pos second := by
    rw [hpos]
    exact hat.right.left
  apply not_reaches_end hrun _ _ (h _ slots rfl hv.slots (by rwa [hv.regs]))
  · rw [Semantics.step_chunk ⟨_, _, hdec⟩ hat₁]
    exact hstuck _ (hv₁.at _)
  · have hsecond : 0 < second.length := List.length_pos_iff.mpr hlen
    have hstart : (homeMachine (regs 5) slots regs (.ofBits 0)).pos = 0 := rfl
    rw [hpos, hstart, List.flatten_cons, List.flatten_cons, List.length_append, List.length_append]
    omega

end Arm2x86.Translate
