import Arm2x86.Translate.ValueRuns

/-!
# Runs over memory beside the home

Emitted code that pushes and pops, and that moves to memory and from it. It is followed from values for
which that memory is mapped and lies outside of the register home.
-/

namespace Arm2x86.Translate

open X86

/-- Some code takes every machine with some values to its end, where they are others. -/
def Takes (sem : Semantics) (frag : List Byte) (v v' : Values) : Prop :=
  ∀ whole m, v.Of m → At whole m.pos frag →
    ∃ m', sem.Runs whole m m' ∧ m'.pos = m.pos + frag.length ∧ v'.Of m'

namespace Values

/-- Some bytes are mapped, and none of them is in the home. -/
structure Beside (v : Values) (a : BitVec 64) (n : Nat) : Prop where
  outside : ∀ i < n, a + BitVec.ofNat 64 i ∉ homeRegion (v.regs 5)
  mapped : ∀ i < n, (v.mem (a + BitVec.ofNat 64 i)).isSome

/-- Other bytes from an address on. -/
def put (v : Values) (a : BitVec 64) (bs : List Byte) : Values :=
  { v with mem := Sparse.overwrite v.mem a bs }

variable {v : Values} {m : Machine} {a b : BitVec 64} {n k : Nat} {bs : List Byte}

theorem Beside.setReg (h : v.Beside a n) {g : Gpr} (hg : g ≠ 5) (x : BitVec 64) :
    (v.setReg g x).Beside a n := by
  refine ⟨fun i hi ↦ ?_, h.mapped⟩
  have hhome : (v.setReg g x).regs 5 = v.regs 5 := if_neg (Ne.symm hg)
  rw [hhome]
  exact h.outside i hi

theorem Beside.store (h : v.Beside a n) (r : ArmReg) (w : Bool) (x : BitVec 64) :
    (v.store r w x).Beside a n := ⟨h.outside, h.mapped⟩

theorem Beside.put (h : v.Beside a n) (b : BitVec 64) (bs : List Byte) : (v.put b bs).Beside a n := by
  refine ⟨h.outside, fun i hi ↦ ?_⟩
  show ((bs[_]?).or (v.mem (a + BitVec.ofNat 64 i))).isSome = true
  rw [Option.isSome_or, h.mapped i hi, Bool.or_true]

/-- A part of such bytes. -/
theorem Beside.part (h : v.Beside a n) {o : Nat} (ho : o + k ≤ n) :
    v.Beside (a + BitVec.ofNat 64 o) k := by
  have haddr : ∀ i, a + BitVec.ofNat 64 o + BitVec.ofNat 64 i = a + BitVec.ofNat 64 (o + i) := by
    intro i
    rw [BitVec.add_assoc, BitVec.ofNat_add]
  refine ⟨fun i hi ↦ ?_, fun i hi ↦ ?_⟩
  · rw [haddr]
    exact h.outside (o + i) (by omega)
  · rw [haddr]
    exact h.mapped (o + i) (by omega)

/-- What is loaded there. -/
theorem Of.load (h : v.Of m) (hout : ∀ i < n, a + BitVec.ofNat 64 i ∉ homeRegion (v.regs 5)) :
    m.load a n = Sparse.load v.mem a n := by
  apply Sparse.load_congr
  intro i hi
  apply h.mem
  rw [h.regs]
  exact hout i hi

private theorem notMem_of_outside (hn : bs.length = n)
    (hout : ∀ i < n, a + BitVec.ofNat 64 i ∉ homeRegion (v.regs 5)) {q : BitVec 64}
    (hq : q ∈ homeRegion (v.regs 5)) : q ∉ (⟨a, bs.length⟩ : Region) := by
  intro hmem
  rw [Region.mem_iff, hn] at hmem
  apply hout _ hmem
  have hoff : a + BitVec.ofNat 64 (q - a).toNat = q := by
    rw [BitVec.ofNat_toNat, BitVec.setWidth_eq, BitVec.add_comm, BitVec.sub_add_cancel]
  show a + BitVec.ofNat 64 (q - a).toNat ∈ homeRegion (v.regs 5)
  rwa [hoff]

/-- A store there leaves the slots. -/
theorem Of.put (h : v.Of m) (hn : bs.length = n) (hb : v.Beside a n) :
    ∃ m', m.store a bs = some m' ∧ m'.pos = m.pos ∧ (v.put a bs).Of m' := by
  have hout : ∀ i < bs.length, a + BitVec.ofNat 64 i ∉ homeRegion (v.regs 5) := by
    rw [hn]
    exact hb.outside
  have hload : ∃ xs, Sparse.load m.mem a bs.length = some xs := by
    have hsame : Sparse.load m.mem a bs.length = Sparse.load v.mem a bs.length := h.load hout
    rw [hsame, Sparse.exists_load_iff, hn]
    exact hb.mapped
  obtain ⟨xs, hxs⟩ := hload
  refine ⟨{ m with mem := Sparse.overwrite m.mem a bs }, ?_, rfl, ?_, h.regs, ?_⟩
  · rw [Machine.store_eq, Sparse.store, hxs]
    rfl
  · intro r
    refine Eq.trans ?_ (h.slots r)
    apply slotAt_congr
    intro i hi
    apply Sparse.overwrite_of_notMem
    apply notMem_of_outside hn hb.outside
    rw [← h.regs]
    exact slot_mem_home _ r hi
  · intro q hq
    show (bs[_]?).or (m.mem q) = (bs[_]?).or (v.mem q)
    rw [h.mem q hq]

/-- A quadword that a register points to. -/
theorem Of.read64_base (h : v.Of m) {base : Gpr} {disp x : BitVec 64}
    (hout : ∀ i < 8, v.regs base + disp + BitVec.ofNat 64 i ∉ homeRegion (v.regs 5))
    (hload : Sparse.load v.mem (v.regs base + disp) 8 = some (Machine.bytes x 8)) :
    m.read64 (.mem (some base) none disp) = some x := by
  show (m.load (m.regs base + 0 + disp) 8).bind (fun bs ↦ some (Machine.value bs)) = some x
  rw [add_zero, h.regs, h.load hout, hload, Option.bind_some, Machine.value_bytes]

end Values

theorem write64_base (m : Machine) (base : Gpr) (disp x : BitVec 64) :
    m.write64 x (.mem (some base) none disp) = m.store (m.regs base + disp) (Machine.bytes x 8) := by
  show m.store (m.regs base + 0 + disp) _ = _
  rw [add_zero]

section Rules

variable {sem : Semantics} {frag frag' : List Byte} {v v' v'' : Values}

theorem Takes.append (h : Takes sem frag v v') (h' : Takes sem frag' v' v'') :
    Takes sem (frag ++ frag') v v'' := by
  intro whole m hv hat
  obtain ⟨m₁, hrun₁, hpos₁, hv₁⟩ := h whole m hv hat.left
  have hat' : At whole m₁.pos frag' := by
    rw [hpos₁]
    exact hat.right
  obtain ⟨m₂, hrun₂, hpos₂, hv₂⟩ := h' whole m₁ hv₁ hat'
  refine ⟨m₂, hrun₁.trans hrun₂, ?_, hv₂⟩
  rw [hpos₂, hpos₁, List.length_append, Nat.add_assoc]

/-- Code that needs no memory. -/
theorem Computes.takes {f : Values → Values} (h : Computes sem frag f) (v : Values) :
    Takes sem frag v (f v) := fun whole m hv hat ↦ h whole m v hv hat

/-- An instruction that goes on with the next one. -/
theorem takes_instr {i : Instr} (hdec : ∀ tail, X86.decode (frag ++ tail) = some (i, tail))
    (h : ∀ m, v.Of m → ∃ m', sem.exec i m = some m' ∧ m'.pos = m.pos ∧ v'.Of m') :
    Takes sem frag v v' := by
  intro whole m hv hat
  obtain ⟨m', hexec, hpos, hv'⟩ := h _ (hv.at (m.pos + frag.length))
  exact ⟨m', Semantics.runs_chunk (c := ⟨frag, i, hdec⟩) hat hexec, hpos, hv'⟩

variable (undef : Instr → Machine → Status) (rest : Instr → Machine → Option Machine)
variable {base g g' : Gpr} {disp x : BitVec 64}

theorem computes_movReg (hg : g ≠ 5)
    (hdec : ∀ tail, X86.decode (frag ++ tail) = some (.mov .b64 (.reg g) (.reg g'), tail)) :
    Computes (Semantics.core undef rest) frag fun v ↦ v.setReg g (v.regs g') := by
  apply computes_instr hdec
  intro m v hv
  refine ⟨m.setReg g (m.regs g'), rfl, rfl, ?_⟩
  rw [hv.regs]
  exact hv.setReg hg _

theorem takes_movStore (hb : v.Beside (v.regs base + disp) 8)
    (hdec : ∀ tail, X86.decode (frag ++ tail) =
      some (.mov .b64 (.mem (some base) none disp) (.reg g), tail)) :
    Takes (Semantics.core undef rest) frag v
      (v.put (v.regs base + disp) (Machine.bytes (v.regs g) 8)) := by
  apply takes_instr hdec
  intro m hv
  obtain ⟨m', hstore, hpos, hv'⟩ := hv.put (Machine.length_bytes (v.regs g) 8) hb
  refine ⟨m', ?_, hpos, hv'⟩
  rw [(Semantics.core undef rest).mov]
  show m.write64 (m.regs g) (.mem (some base) none disp) = some m'
  rw [write64_base, hv.regs, hstore]

theorem takes_movLoad (hg : g ≠ 5)
    (hout : ∀ i < 8, v.regs base + disp + BitVec.ofNat 64 i ∉ homeRegion (v.regs 5))
    (hload : Sparse.load v.mem (v.regs base + disp) 8 = some (Machine.bytes x 8))
    (hdec : ∀ tail, X86.decode (frag ++ tail) =
      some (.mov .b64 (.reg g) (.mem (some base) none disp), tail)) :
    Takes (Semantics.core undef rest) frag v (v.setReg g x) := by
  apply takes_instr hdec
  intro m hv
  refine ⟨m.setReg g x, ?_, rfl, hv.setReg hg x⟩
  rw [(Semantics.core undef rest).mov, Machine.mov, hv.read64_base hout hload]
  rfl

theorem takes_push (hb : v.Beside (v.regs 4 - 8) 8)
    (hdec : ∀ tail, X86.decode (frag ++ tail) = some (.push g, tail)) :
    Takes (Semantics.core undef rest) frag v
      ((v.put (v.regs 4 - 8) (Machine.bytes (v.regs g) 8)).setReg 4 (v.regs 4 - 8)) := by
  apply takes_instr hdec
  intro m hv
  obtain ⟨m', hstore, hpos, hv'⟩ := hv.put (Machine.length_bytes (v.regs g) 8) hb
  refine ⟨m'.setReg 4 (v.regs 4 - 8), ?_, hpos, hv'.setReg (by decide) _⟩
  show (m.store (m.regs 4 - 8) (Machine.bytes (m.regs g) 8)).map _ = _
  rw [hv.regs, hstore]
  rfl

end Rules

/-- Any values are those of a machine. -/
def machineOf (v : Values) : Machine :=
  { homeMachine (v.regs 5) v.slots v.regs (.ofBits 0) with
    mem := fun q ↦ (homeMem (v.regs 5) v.slots q).or (v.mem q) }

theorem machineOf_of (v : Values) : v.Of (machineOf v) := by
  have hv := exists_values v.slots v.regs
  refine ⟨fun r ↦ ?_, hv.regs, fun q hq ↦ ?_⟩
  · refine Eq.trans ?_ (hv.slots r)
    apply slotAt_congr
    intro i hi
    obtain ⟨b, hb⟩ := Option.isSome_iff_exists.mp (isSome_of_slotAt (hv.slots r) hi)
    have hhome : homeMem (v.regs 5) v.slots (slotAddr (v.regs 5) r + BitVec.ofNat 64 i) = some b := hb
    show (homeMem (v.regs 5) v.slots (slotAddr (v.regs 5) r + BitVec.ofNat 64 i)).or _ =
      homeMem (v.regs 5) v.slots (slotAddr (v.regs 5) r + BitVec.ofNat 64 i)
    rw [hhome, Option.some_or]
  · have hout : q ∉ homeRegion (v.regs 5) := hq
    show (homeMem (v.regs 5) v.slots q).or (v.mem q) = v.mem q
    rw [homeMem_of_notMem hout, Option.none_or]

end Arm2x86.Translate
