import Arm2x86.Translate.HomeTransfer
import Arm2x86.Translate.Integer
import Arm2x86.X86.Transforms

/-!
# Runs over the register home

Emitted code is followed from state to state, with the values of the 32 slots next to the machine. A
state with any registers and any slots exists, with nothing mapped but the home.
-/

namespace Arm2x86.X86

/-- One state comes to one with a property. -/
def Reaches (sem : Semantics) (code : List Byte) (m : Machine) (Q : Machine → Prop) : Prop :=
  ∃ m', sem.Runs code m m' ∧ Q m'

section Reaching

variable {sem : Semantics} {code : List Byte} {m m' : Machine} {Q : Machine → Prop}

theorem reaches_here (h : Q m) : Reaches sem code m Q := ⟨m, Semantics.Runs.refl, h⟩

theorem reaches_of_runs (hrun : sem.Runs code m m') (h : Reaches sem code m' Q) :
    Reaches sem code m Q := by
  obtain ⟨m'', hrun', hq⟩ := h
  exact ⟨m'', hrun.trans hrun', hq⟩

theorem reaches_of_step (hstep : sem.step code m = some m') (h : Reaches sem code m' Q) :
    Reaches sem code m Q := by
  apply reaches_of_runs ⟨1, ?_⟩ h
  rw [Semantics.steps, hstep]
  rfl

theorem Reaches.mono {Q' : Machine → Prop} (h : Reaches sem code m Q) (hq : ∀ m', Q m' → Q' m') :
    Reaches sem code m Q' := by
  obtain ⟨m', hrun, h⟩ := h
  exact ⟨m', hrun, hq m' h⟩

/-- Code stands in front of the end. -/
theorem At.pos_lt {b : Byte} {bs : List Byte} {pos : Nat} (h : At code pos (b :: bs)) :
    pos < code.length := by
  have hlen := h.length_le
  rw [List.length_cons, List.length_drop] at hlen
  omega

/-- A stuck state comes to itself alone. -/
theorem runs_of_stuck (hstuck : sem.step code m = none) (h : sem.Runs code m m') : m' = m := by
  obtain ⟨n, hn⟩ := h
  cases n with
  | zero => exact (Option.some.inj hn).symm
  | succ n =>
    rw [Semantics.steps, hstuck] at hn
    cases hn

/-- Another state comes to itself and to what the next one comes to. -/
theorem runs_of_step {m₁ : Machine} (hstep : sem.step code m = some m₁) (h : sem.Runs code m m') :
    m' = m ∨ sem.Runs code m₁ m' := by
  obtain ⟨n, hn⟩ := h
  cases n with
  | zero => exact Or.inl (Option.some.inj hn).symm
  | succ n =>
    rw [Semantics.steps, hstep] at hn
    exact Or.inr ⟨n, hn⟩

/-- Where a run gets stuck inside of the code, its end is not reached. -/
theorem not_reaches_end (hrun : sem.Runs code m m') (hstuck : sem.step code m' = none)
    (hpos : m'.pos ≠ code.length) : ¬ Reaches sem code m fun m' ↦ m'.pos = code.length ∧ Q m' := by
  rintro ⟨m'', ⟨k, hk⟩, hend, -⟩
  obtain ⟨n, hn⟩ := hrun
  rcases Nat.lt_trichotomy k n with hlt | rfl | hgt
  · obtain ⟨j, rfl⟩ := Nat.exists_eq_add_of_lt hlt
    rw [Nat.add_assoc, sem.steps_add, hk, Option.bind_some, Semantics.steps,
      Semantics.step_end hend] at hn
    cases hn
  · rw [hn] at hk
    rw [Option.some.inj hk] at hpos
    exact hpos hend
  · obtain ⟨j, rfl⟩ := Nat.exists_eq_add_of_lt hgt
    rw [Nat.add_assoc, sem.steps_add, hn, Option.bind_some, Semantics.steps, hstuck] at hk
    cases hk

end Reaching

end Arm2x86.X86

namespace Arm2x86.Translate

open X86

/-- The values of the slots of the register home. -/
def Slots (m : Machine) (slots : ArmReg → BitVec 64) : Prop :=
  ∀ r, slotAt (m.regs 5) r m = some (slots r)

section Slots

variable {m : Machine} {slots : ArmReg → BitVec 64}

theorem Slots.of_eq {m' : Machine} (h : Slots m slots) (hbase : m'.regs 5 = m.regs 5)
    (hmem : m'.mem = m.mem) : Slots m' slots := by
  intro r
  have hslot := h r
  rw [slotAt_eq] at hslot ⊢
  rw [hbase, hmem, hslot]

theorem Slots.setReg (h : Slots m slots) {g : Gpr} (hg : g ≠ 5) (v : BitVec 64) :
    Slots (m.setReg g v) slots := h.of_eq (if_neg (Ne.symm hg)) rfl

theorem Slots.setStatus (h : Slots m slots) (s : Status) : Slots (m.setStatus s) slots :=
  h.of_eq rfl rfl

theorem Slots.at (h : Slots m slots) (p : Nat) : Slots { m with pos := p } slots := h.of_eq rfl rfl

/-- A store of a width to a slot. -/
theorem Slots.store (h : Slots m slots) (r : ArmReg) (w : Bool) (v : BitVec 64) (p : Nat) :
    Slots { m with pos := p, mem := storedMem m (m.regs 5) r w v }
      (Function.update slots r (merge w (slots r) v)) := by
  intro r'
  let m' := { m with pos := p, mem := storedMem m (m.regs 5) r w v }
  have hmem : m'.mem = storedMem m (m.regs 5) r w v := rfl
  have hstored := slotAt_storedMem hmem (h r) r'
  show slotAt (m.regs 5) r' m' = _
  rw [hstored, Function.update_apply]
  split
  · rfl
  · exact h r'

end Slots

section Home

/-- Memory with the slots and nothing else. -/
def homeMem (home : BitVec 64) (slots : ArmReg → BitVec 64) : Sparse := fun a ↦
  let i := (a - home).toNat
  if i < 256 then some ((slots (Fin.ofNat 32 (i / 8))).extractLsb' (8 * (i % 8)) 8) else none

/-- Any slots at any address, with any registers and flags. -/
def homeMachine (home : BitVec 64) (slots : ArmReg → BitVec 64) (regs : Gpr → BitVec 64)
    (s : Status) : Machine :=
  { regs := fun g ↦ if g = 5 then home else regs g
    flags := s.bits
    vectors := fun _ ↦ 0
    mem := homeMem home slots
    codeBase := 0
    pos := 0 }

variable {home : BitVec 64} {slots : ArmReg → BitVec 64} {regs : Gpr → BitVec 64} {s : Status}

theorem homeMem_of_notMem {a : BitVec 64} (h : a ∉ homeRegion home) : homeMem home slots a = none :=
  if_neg h

theorem slots_homeMachine : Slots (homeMachine home slots regs s) slots := by
  intro r
  have hr := r.isLt
  have hload : Sparse.load (homeMem home slots) (slotAddr home r) 8 =
      some (Machine.bytes (slots r) 8) := by
    rw [Sparse.load_eq_some_iff]
    refine ⟨Machine.length_bytes _ 8, fun i hi ↦ ?_⟩
    have hoff : (slotAddr home r + BitVec.ofNat 64 i - home).toNat = 8 * r + i := by
      rw [slotAddr, BitVec.add_assoc, ← BitVec.ofNat_add, BitVec.add_comm, BitVec.add_sub_cancel,
        BitVec.toNat_ofNat]
      omega
    have hslot : Fin.ofNat 32 ((8 * (r : Nat) + i) / 8) = r := by
      apply Fin.ext
      rw [Fin.val_ofNat]
      omega
    have hbyte : (8 * (r : Nat) + i) % 8 = i := by omega
    rw [Machine.getElem?_bytes _ hi, homeMem, hoff, if_pos (by omega), hslot, hbyte]
  show slotAt home r (homeMachine home slots regs s) = _
  rw [slotAt_eq]
  show (Sparse.load (homeMem home slots) (slotAddr home r) 8).map Machine.value = _
  rw [hload, Option.map_some, Machine.value_bytes]

theorem status_homeMachine : (homeMachine home slots regs s).status = s := by
  have hset := Status.ofBits_set 0#64 s
  rwa [BitVec.zero_and, BitVec.zero_or] at hset

end Home

/-- What emitted code works on: the slots, the host registers, the flags and the memory outside of
the home. The adjust flag is left out, since no condition asks for it. -/
structure View where
  slots : ArmReg → BitVec 64
  regs : Gpr → BitVec 64
  status : Status
  mem : Sparse

/-- A view of a machine. -/
structure View.Of (v : View) (m : Machine) : Prop where
  slots : Slots m v.slots
  regs : m.regs = v.regs
  status : m.status = { v.status with adjust := m.status.adjust }
  mem : ∀ a ∉ homeRegion (m.regs 5), m.mem a = v.mem a

/-- Some code takes every machine to its end and changes what is seen of it. -/
def Does (sem : Semantics) (frag : List Byte) (f : View → View) : Prop :=
  ∀ whole m v, View.Of v m → At whole m.pos frag →
    ∃ m', sem.Runs whole m m' ∧ m'.pos = m.pos + frag.length ∧ (f v).Of m'

section Views

variable {v : View} {m : Machine}

theorem View.Of.holds (h : v.Of m) (cc : BitVec 4) : m.status.holds cc = v.status.holds cc := by
  rw [h.status]
  rfl

theorem View.Of.at (h : v.Of m) (p : Nat) : v.Of { m with pos := p } :=
  ⟨h.slots.at p, h.regs, h.status, h.mem⟩

/-- A view with another value in a register. -/
def View.setReg (v : View) (g : Gpr) (a : BitVec 64) : View :=
  { v with regs := fun g' ↦ if g' = g then a else v.regs g' }

/-- A view with another value in the low part of a slot. -/
def View.store (v : View) (r : ArmReg) (w : Bool) (a : BitVec 64) : View :=
  { v with slots := Function.update v.slots r (merge w (v.slots r) a) }

theorem View.Of.setReg (h : v.Of m) {g : Gpr} (hg : g ≠ 5) (a : BitVec 64) :
    (v.setReg g a).Of (m.setReg g a) := by
  refine ⟨h.slots.setReg hg a, ?_, h.status, ?_⟩
  · funext g'
    show (if g' = g then a else m.regs g') = if g' = g then a else v.regs g'
    rw [h.regs]
  · intro b hb
    apply h.mem b
    rwa [Machine.regs_setReg, if_neg (Ne.symm hg)] at hb

theorem View.Of.setStatus (h : v.Of m) {s s' : Status} (hs : s = { s' with adjust := s.adjust }) :
    View.Of { v with status := s' } (m.setStatus s) := by
  refine ⟨h.slots.setStatus s, h.regs, ?_, h.mem⟩
  rw [Machine.status_setStatus]
  exact hs

/-- An operation with an operand where `RAX` points needs it mapped. -/
theorem step_unmapped {undef : Instr → Machine → Status} {rest : Instr → Machine → Option Machine}
    {whole frag : List Byte} {op : AluOp} {size : Size} (hsize : size = .b8 ∨ size = .b32)
    (hdec : ∀ tail, X86.decode (frag ++ tail) =
      some (.alu op size (.reg 0) (.mem (some 0) none 0), tail))
    (hat : At whole m.pos frag) (hmem : m.mem (m.regs 0) = none) :
    (Semantics.core undef rest).step whole m = none := by
  have hload : ∀ n, 0 < n → Sparse.load m.mem (m.regs 0 + 0 + 0) n = none := by
    intro n hn
    have haddr : m.regs 0 + 0 + 0 + BitVec.ofNat 64 0 = m.regs 0 := by simp
    apply Sparse.load_eq_none hn
    rw [haddr, hmem]
  have hfetch : Machine.fetch { m with pos := m.pos + frag.length } size (.mem (some 0) none 0) =
      none := by
    rcases hsize with rfl | rfl
    · exact congrArg (Option.bind · fun bs ↦ some (Machine.value bs)) (hload 1 (by decide))
    · exact congrArg (Option.bind · fun bs ↦ some (Machine.value bs)) (hload 4 (by decide))
  rw [Semantics.step_chunk ⟨_, _, hdec⟩ hat]
  exact congrArg (Option.bind · _) hfetch

/-- A store of a high register is one through `R13`. -/
theorem step_store_unmapped {undef : Instr → Machine → Status} {rest : Instr → Machine → Option Machine}
    {whole : List Byte} {x : Byte} {r : ArmReg} (hx : 8 ≤ x)
    (hat : At whole m.pos (emitStoreArmReg x r true)) (hmem : m.mem (slotAddr (m.regs 13) r) = none) :
    (Semantics.core undef rest).step whole m = none := by
  have haddr : m.regs 13 + 0 + BitVec.ofNat 64 (8 * r) + BitVec.ofNat 64 0 = slotAddr (m.regs 13) r := by
    rw [slotAddr]
    simp
  have hload : Sparse.load m.mem (m.regs 13 + 0 + BitVec.ofNat 64 (8 * r)) 8 = none := by
    apply Sparse.load_eq_none (by decide : 0 < 8)
    rw [haddr, hmem]
  have hstore : movAt true (storeLoc x r true) (.reg (gpr false (x.setWidth 3)))
      { m with pos := m.pos + (emitStoreArmReg x r true).length } =
        Machine.store { m with pos := m.pos + (emitStoreArmReg x r true).length }
          (m.regs 13 + 0 + BitVec.ofNat 64 (8 * r))
          (Machine.bytes (m.regs (gpr false (x.setWidth 3))) 8) := by
    rw [storeLoc, Bool.true_and, decide_eq_true hx]
    rfl
  rw [step_store hat, hstore, Machine.store_eq, Sparse.store, Machine.length_bytes, hload]
  rfl

/-- Each view is one of a machine. -/
theorem exists_view (home : BitVec 64) (slots : ArmReg → BitVec 64) (regs : Gpr → BitVec 64)
    (s : Status) : View.Of ⟨slots, fun g ↦ if g = 5 then home else regs g, s, fun _ ↦ none⟩
      (homeMachine home slots regs s) := by
  refine ⟨slots_homeMachine, rfl, ?_, fun a ha ↦ homeMem_of_notMem ha⟩
  rw [status_homeMachine]

end Views

section Rules

variable {sem : Semantics} {frag frag' : List Byte} {f f' : View → View}

theorem does_nil : Does sem [] id := transforms_nil

theorem Does.append (h : Does sem frag f) (h' : Does sem frag' f') :
    Does sem (frag ++ frag') (f' ∘ f) := Transforms.append h h'

/-- An instruction that goes on with the next one. -/
theorem does_instr {i : Instr} (hdec : ∀ tail, X86.decode (frag ++ tail) = some (i, tail))
    (h : ∀ m v, View.Of v m → ∃ m', sem.exec i m = some m' ∧ m'.pos = m.pos ∧ (f v).Of m') :
    Does sem frag f := transforms_instr hdec (fun _ _ p hv ↦ hv.at p) h

variable (undef : Instr → Machine → Status) (rest : Instr → Machine → Option Machine)

theorem does_load (r : ArmReg) {x : Byte} {w : Bool} (hx : loadedReg x w ≠ 5) :
    Does (Semantics.core undef rest) (emitLoadArmReg r x w)
      fun v ↦ v.setReg (loadedReg x w) (cut w (v.slots r)) := by
  apply does_instr (loadChunk r x w).decodes
  intro m v hv
  exact ⟨_, (core_mov w _ _ m).trans (movAt_load w _ (hv.slots r)), rfl, hv.setReg hx _⟩

/-- A store that reaches the slot, of the register its field names. -/
theorem does_store_named (r : ArmReg) {x : Byte} {w : Bool} (hx : (w && decide (8 ≤ x)) = false) :
    Does (Semantics.core undef rest) (emitStoreArmReg x r w)
      fun v ↦ v.store r w (cut w (v.regs (gpr false (x.setWidth 3)))) := by
  apply does_instr (storeChunk x r w).decodes
  intro m v hv
  have hloc : storeLoc x r w = .mem (some 5) none (BitVec.ofNat 64 (8 * r)) := by
    rw [storeLoc, hx]
    rfl
  refine ⟨{ m with mem := storedMem m (m.regs 5) r w (cut w (m.regs (gpr false (x.setWidth 3)))) },
    ?_, rfl, ?_⟩
  · rw [storeChunk, core_mov, hloc]
    exact movAt_store w _ fun i hi ↦ isSome_of_slotAt (hv.slots r) hi
  · rw [hv.regs]
    refine ⟨?_, rfl, hv.status, fun a ha ↦ ?_⟩
    · have hstore := hv.slots.store r w (cut w (v.regs (gpr false (x.setWidth 3)))) m.pos
      rw [hv.regs] at hstore
      exact hstore
    · have hkept := hv.mem a
      rw [hv.regs] at hkept
      exact (storedMem_of_notMem ha w).trans (hkept ha)

theorem does_store (r : ArmReg) {x : Byte} (hx : x < 8) (w : Bool) :
    Does (Semantics.core undef rest) (emitStoreArmReg x r w)
      fun v ↦ v.store r w (cut w (v.regs (toGpr x))) := by
  have hbit : (w && decide (8 ≤ x)) = false := by
    rw [decide_eq_false (BitVec.not_le.mpr hx), Bool.and_false]
  have hnamed := does_store_named undef rest r hbit
  rwa [gpr_low hx] at hnamed

/-- A jump on a condition over some code. -/
theorem does_jccOver {opcode : Byte} {body : List Code} (h : opcode &&& 0xf0 = 0x80)
    (hlen : body.flatten.length < 2 ^ 31) (hbody : Does (Semantics.core undef rest) body.flatten f) :
    Does (Semantics.core undef rest) (jccOver opcode body).flatten
      fun v ↦ if v.status.holds (opcode.extractLsb' 0 4) then v else f v := by
  intro whole m v hv hat
  rw [jccOver, List.flatten_cons] at hat ⊢
  dsimp only
  have hjcc := runs_jcc undef rest h hlen hat.left
  rw [hv.holds] at hjcc
  by_cases hcond : v.status.holds (opcode.extractLsb' 0 4) = true
  · rw [if_pos hcond] at hjcc ⊢
    refine ⟨_, hjcc, ?_, hv.at _⟩
    rw [List.length_append]
    exact Nat.add_assoc _ _ _
  · rw [if_neg hcond] at hjcc ⊢
    obtain ⟨m', hrun, hpos, hv'⟩ := hbody whole _ v (hv.at (m.pos + 6)) hat.right
    refine ⟨m', hjcc.trans hrun, ?_, hv'⟩
    rw [hpos, List.length_append]
    exact Nat.add_assoc _ _ _

end Rules

section Results

variable {sem : Semantics} {code : List Code} {f : View → View}
variable {post : (ArmReg → BitVec 64) → Status → (ArmReg → BitVec 64) → Prop}

/-- From every state the code comes to its end, and the slots are as wanted from the old ones and the
flags. -/
def Leaves (sem : Semantics) (code : List Code)
    (post : (ArmReg → BitVec 64) → Status → (ArmReg → BitVec 64) → Prop) : Prop :=
  ∀ m slots, m.pos = 0 → Slots m slots → Reaches sem code.flatten m fun m' ↦
    m'.pos = code.flatten.length ∧ ∃ slots', Slots m' slots' ∧ post slots m.status slots'

theorem Slots.unique {m : Machine} {slots slots' : ArmReg → BitVec 64} (h : Slots m slots)
    (h' : Slots m slots') : slots = slots' := by
  funext r
  exact Option.some.inj ((h r).symm.trans (h' r))

/-- What code does decides what it leaves. -/
theorem leaves_iff (h : Does sem code.flatten f)
    (slotsOf : (ArmReg → BitVec 64) → Status → ArmReg → BitVec 64)
    (hslots : ∀ v, (f v).slots = slotsOf v.slots v.status) :
    Leaves sem code post ↔ ∀ slots s, post slots s (slotsOf slots s) := by
  constructor
  · intro hleaves slots s
    have hv := exists_view 0 slots (fun _ ↦ 0) s
    obtain ⟨m₁, hrun₁, hpos₁, slots₁, hslots₁, hpost⟩ := hleaves _ slots rfl hv.slots
    obtain ⟨m₂, hrun₂, hpos₂, hv₂⟩ := h _ _ _ hv (at_self code.flatten)
    have hend : m₂.pos = code.flatten.length := hpos₂.trans (Nat.zero_add _)
    rw [Semantics.runs_end_unique hrun₂ hend hrun₁ hpos₁] at hslots₁
    have hsame := hslots₁.unique hv₂.slots
    rw [hslots] at hsame
    rwa [hsame, status_homeMachine] at hpost
  · intro hpost m slots hpos hm
    have hv : View.Of ⟨slots, m.regs, m.status, m.mem⟩ m := ⟨hm, rfl, rfl, fun _ _ ↦ rfl⟩
    have hat : At code.flatten m.pos code.flatten := by
      rw [hpos]
      exact at_self _
    obtain ⟨m', hrun, hpos', hv'⟩ := h _ m _ hv hat
    refine ⟨m', hrun, ?_, _, hv'.slots, ?_⟩
    · rw [hpos', hpos, Nat.zero_add]
    · rw [hslots]
      exact hpost slots m.status

end Results

section Operands

/-- A register operand. Number 31 is the zero register, and its slot is that of the stack pointer. -/
def operand (slots : ArmReg → BitVec 64) (r : ArmReg) : BitVec 64 := if r = 31 then 0 else slots r

/-- One register has a value at a width and the others, with the stack pointer, are as before. -/
def SetsLow (w : Bool) (slots : ArmReg → BitVec 64) (rd : ArmReg) (v : BitVec 64)
    (slots' : ArmReg → BitVec 64) : Prop :=
  ∀ r, if r = rd ∧ r ≠ 31 then cut w (slots' r) = cut w v else slots' r = slots r

/-- One register has a value of a width, zero-extended, and the others are as before. -/
def SetsReg (w : Bool) (slots : ArmReg → BitVec 64) (rd : ArmReg) (v : BitVec 64)
    (slots' : ArmReg → BitVec 64) : Prop :=
  ∀ r, slots' r = if r = rd ∧ r ≠ 31 then cut w v else slots r

variable {w : Bool} {slots : ArmReg → BitVec 64} {rd : ArmReg} {v x : BitVec 64}

/-- A merge takes the low part only. -/
theorem merge_cut (w : Bool) (old x : BitVec 64) : merge w old (cut w x) = merge w old x := by
  cases w with
  | true => rfl
  | false =>
    have hlow : (cut false x).extractLsb' 0 32 = x.extractLsb' 0 32 := by
      ext i hi
      have h64 : i < 64 := by omega
      simp [cut, hi, h64]
    exact congrArg (old.extractLsb' 32 32 ++ ·) hlow

theorem cut_merge_eq (w : Bool) (old x : BitVec 64) : cut w (merge w old x) = cut w x := by
  rw [← merge_cut, cut_merge]

theorem merge_self (w : Bool) (old : BitVec 64) : merge w old old = old := by
  cases w with
  | true => rfl
  | false =>
    show old.extractLsb' 32 32 ++ old.extractLsb' 0 32 = old
    rw [BitVec.extractLsb'_append_extractLsb'_eq_extractLsb' (by decide)]
    simp

theorem merge_eq_self_iff {old : BitVec 64} : merge w old x = old ↔ cut w x = cut w old := by
  constructor
  · intro h
    rw [← cut_merge_eq w old x, h]
  · intro h
    rw [← merge_cut, h, merge_cut, merge_self]

theorem merge_merge (w : Bool) (old x y : BitVec 64) :
    merge w (merge w old x) y = merge w old y := by
  cases w with
  | true =>
    have hmerge : ∀ a b : BitVec 64, merge true a b = b := fun _ _ ↦ rfl
    rw [hmerge, hmerge]
  | false =>
    have hmerge : ∀ a b : BitVec 64, merge false a b = a.extractLsb' 32 32 ++ b.extractLsb' 0 32 :=
      fun _ _ ↦ rfl
    rw [hmerge, hmerge old x, BitVec.extractLsb'_append_eq_left, hmerge]

/-- What has ones in the upper half is not zero-extended. -/
theorem merge_allOnes_ne (x y : BitVec 64) : merge false (BitVec.allOnes 64) x ≠ cut false y := by
  intro h
  have hhigh : (merge false (BitVec.allOnes 64) x).extractLsb' 32 32 = BitVec.allOnes 32 :=
    BitVec.extractLsb'_append_eq_left
  have hzero : (cut false y).extractLsb' 32 32 = 0 := by
    ext i hi
    simp [cut]
  rw [h, hzero] at hhigh
  exact absurd hhigh (by decide)

/-- A value in the low part of a slot, as a result. -/
theorem setsLow_update_iff :
    SetsLow w slots rd v (Function.update slots rd (merge w (slots rd) x)) ↔
      cut w x = if rd = 31 then cut w (slots 31) else cut w v := by
  constructor
  · intro h
    have hrd := h rd
    rw [Function.update_self] at hrd
    by_cases h31 : rd = 31
    · rw [if_neg (fun h ↦ h.2 h31)] at hrd
      rw [if_pos h31, ← h31]
      exact merge_eq_self_iff.mp hrd
    · rw [if_pos ⟨rfl, h31⟩, cut_merge_eq] at hrd
      rwa [if_neg h31]
  · intro h r
    by_cases hr : r = rd
    · rw [hr, Function.update_self]
      by_cases h31 : rd = 31
      · rw [if_pos h31, ← h31] at h
        rw [if_neg (fun h ↦ h.2 h31)]
        exact merge_eq_self_iff.mpr h
      · rw [if_neg h31] at h
        rwa [if_pos ⟨rfl, h31⟩, cut_merge_eq]
    · rw [if_neg (fun h ↦ hr h.1), Function.update_of_ne hr]

theorem setsReg_update_iff :
    SetsReg w slots rd v (Function.update slots rd (merge w (slots rd) x)) ↔
      merge w (slots rd) x = if rd = 31 then slots 31 else cut w v := by
  constructor
  · intro h
    have hrd := h rd
    rw [Function.update_self] at hrd
    rw [hrd]
    by_cases h31 : rd = 31
    · rw [if_neg (fun h ↦ h.2 h31), if_pos h31, h31]
    · rw [if_pos ⟨rfl, h31⟩, if_neg h31]
  · intro h r
    by_cases hr : r = rd
    · rw [hr, Function.update_self, h]
      by_cases h31 : rd = 31
      · rw [if_pos h31, if_neg (fun h ↦ h.2 h31), h31]
      · rw [if_neg h31, if_pos ⟨rfl, h31⟩]
    · rw [if_neg (fun h ↦ hr h.1), Function.update_of_ne hr]

end Operands

end Arm2x86.Translate
