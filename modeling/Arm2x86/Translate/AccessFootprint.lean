import Arm2x86.Translate.GuestAccess

/-!
# Footprints of loads and stores

What the code of a load or store has to do to the registers and the memory of the guest, and when it
does. Every access of the emitted code has eight bytes, no register is the zero register, a pair is
eight bytes apart whatever its size and is loaded where the top bit is set, and no base register is
updated.
-/

namespace Arm2x86.Translate

open X86
open A64 (LoadStore MemOp signedValue)

/-- The kinds that are translated by the functions for single, paired and narrow accesses. -/
def InstrType.accesses : InstrType → Bool
  | .ldr | .str | .ldp | .stp | .ldrb | .strb | .ldrh | .strh | .ldrsb | .ldrsh | .ldrsw => true
  | _ => false

/-- From every state of a guest in which a load or store succeeds, the emitted code gets to the
state behind it. -/
def AccessExact (env : Env) (t : TranslateCtx) (op : BitVec 32) : Prop :=
  ∀ k : LoadStore, k.diagram.Matches op → (decode op).instrType.accesses = true →
    ∀ code home m g g', At code m.pos (emittedFor env t op).flatten → Represents home m g →
      k.step op g = some g' →
      ∃ m', Semantics.integer.Runs code m m' ∧
        m'.pos = m.pos + (emittedFor env t op).flatten.length ∧ Represents home m' g'

/-- The words whose access has the footprint it should have: a general register that is not the zero
register, of eight bytes, without an update of the base. -/
structure FootprintExact (k : LoadStore) (op : BitVec 32) : Prop where
  single : k = .unscaled ∨ k = .unsignedOffset
  general : op.getLsbD 26 = false
  size : op.extractLsb' 30 2 = 3
  target : regAt op 0 ≠ 31

section Steps

variable {home : BitVec 64} {m : Machine} {g : A64.State}

/-- The first of some instructions does this. -/
def Leads (c : Chunk) (m m₁ : Machine) : Prop :=
  ∀ cs, Semantics.integer.runChunks (c :: cs) m = Semantics.integer.runChunks cs m₁

theorem leads_of_exec {c : Chunk} {m₁ : Machine}
    (h : Semantics.integer.exec c.instr { m with pos := m.pos + c.bytes.length } = some m₁) :
    Leads c m m₁ := by
  intro cs
  rw [Semantics.runChunks, h]
  rfl

namespace Represents

theorem slot_self (h : Represents home m g) (r : ArmReg) :
    slotAt (m.regs 5) r m = some (g.regs (BitVec.ofFin r)) := by
  rw [h.base]
  exact h.slots r

/-- A guest register comes into a host register that is not the base of the home. -/
theorem loadSlot (h : Represents home m g) (r : ArmReg) (x : Byte) (w : Bool)
    (hx : loadedReg x w ≠ 5) :
    ∃ m₁, Leads (loadChunk r x w) m m₁ ∧ Represents home m₁ g ∧
      m₁.regs (loadedReg x w) = cut w (g.regs (BitVec.ofFin r)) ∧
      ∀ y ≠ loadedReg x w, m₁.regs y = m.regs y := by
  have hpos := h.pos (m.pos + (loadChunk r x w).bytes.length)
  refine ⟨_, leads_of_exec (exec_loadChunk x w (hpos.slot_self r)), ?_, if_pos rfl, ?_⟩
  · exact hpos.setReg hx _
  · intro y hy
    exact if_neg hy

/-- Guest memory comes into a host register that is not the base of the home. -/
theorem loadGuest (h : Represents home m g) (reg : Byte) (hreg : toGpr reg ≠ 5)
    {imm : BitVec 32} {v : Nat} (hv : g.load (m.regs 0 + imm.signExtend 64) 8 = some v) :
    ∃ m₁, Leads (guestLoad reg imm) m m₁ ∧ Represents home m₁ g ∧
      m₁.regs (toGpr reg) = BitVec.ofNat 64 v ∧ ∀ y ≠ toGpr reg, m₁.regs y = m.regs y := by
  obtain ⟨bs, hbs, rfl⟩ := Option.map_eq_some_iff.mp hv
  have hpos := h.pos (m.pos + (guestLoad reg imm).bytes.length)
  refine ⟨_, leads_of_exec (exec_guestLoad (hpos.load hbs)), hpos.setReg hreg _, ?_, ?_⟩
  · rw [← Machine.value_eq]
    exact if_pos rfl
  · intro y hy
    exact if_neg hy

/-- A host register goes to a slot. -/
theorem storeReg (h : Represents home m g) (r : ArmReg) {x : Byte} {w : Bool}
    (hx : (w && decide (8 ≤ x)) = false) :
    ∃ m₁, Leads (storeChunk x r w) m m₁ ∧
      Represents home m₁ (g.setBase (BitVec.ofFin r) (merge w (g.regs (BitVec.ofFin r))
        (cut w (m.regs (gpr false (x.setWidth 3)))))) ∧ m₁.regs = m.regs := by
  have hpos := h.pos (m.pos + (storeChunk x r w).bytes.length)
  refine ⟨_, leads_of_exec (exec_storeChunk hx fun i ↦ isSome_of_slotAt (hpos.slot_self r)), ?_, rfl⟩
  refine hpos.storeSlot r w _ ?_ rfl rfl
  rw [hpos.base]

/-- A host register goes to guest memory. -/
theorem storeGuest (h : Represents home m g) {reg : Byte} {imm : BitVec 32} {mem : Sparse}
    (hmem : g.mem.store (m.regs 0 + imm.signExtend 64) (Machine.bytes (m.regs (toGpr reg)) 8) =
      some mem) :
    ∃ m₁, Leads (guestStore reg imm) m m₁ ∧ Represents home m₁ { g with mem } ∧
      m₁.regs = m.regs := by
  have hpos := h.pos (m.pos + (guestStore reg imm).bytes.length)
  obtain ⟨m₁, hm₁, hregs, hrep⟩ := hpos.store hmem
  exact ⟨m₁, leads_of_exec (exec_guestStore hm₁), hrep, hregs⟩

end Represents

end Steps

section Single

variable {op imm : BitVec 32} {home : BitVec 64} {code : List Byte} {m : Machine} {g g' : A64.State}

/-- An access of eight bytes with a register that is not the zero register. -/
theorem single_carries (hsize : op.extractLsb' 30 2 = 3) (hrt : regAt op 0 ≠ 31)
    (h : Represents home m g)
    (hexec : (MemOp.general (op.getLsbD 22) 8).exec g (g.regs (regAt op 5) + imm.signExtend 64)
      (regAt op 0) (regAt op 10) = some g') :
    ∃ m', Semantics.integer.runChunks (ldrStrChunks op imm) m = some m' ∧ Represents home m' g' := by
  rw [ldrStrChunks, hsize]
  obtain ⟨m₁, hfirst, hrep₁, hbase, -⟩ := h.loadSlot (armReg op 5) rax true (by decide)
  have hbase : m₁.regs 0 = g.regs (regAt op 5) := hbase
  cases hload : op.getLsbD 22 with
  | true =>
    rw [hload] at hexec
    obtain ⟨v, hv, rfl⟩ := Option.map_eq_some_iff.mp hexec
    rw [← hbase] at hv
    obtain ⟨m₂, hsecond, hrep₂, hvalue, -⟩ := hrep₁.loadGuest rax (by decide) hv
    obtain ⟨m₃, hthird, hrep₃, -⟩ := hrep₂.storeReg (armReg op 0) (x := rax) (w := true) rfl
    have hvalue : m₂.regs 0 = BitVec.ofNat 64 v := hvalue
    have hset : g.setReg (regAt op 0) (BitVec.ofNat 64 v) =
        g.setBase (regAt op 0) (BitVec.ofNat 64 v) := by
      simp only [A64.State.setReg, A64.State.setBase, hrt, ne_eq, not_false_eq_true, and_true]
    exists m₃
    rw [if_pos rfl, hfirst, hsecond, beq_self_eq_true, hthird, hset, ← hvalue]
    exact ⟨rfl, hrep₃⟩
  | false =>
    rw [hload] at hexec
    obtain ⟨mem, hmem, rfl⟩ := Option.map_eq_some_iff.mp hexec
    have hread : g.regs.read (regAt op 0) = g.regs (regAt op 0) := if_neg hrt
    obtain ⟨m₂, hsecond, hrep₂, hsource, hother⟩ :=
      hrep₁.loadSlot (armReg op 0) r11 true (by decide)
    have hsource : m₂.regs (toGpr r11) = g.regs (regAt op 0) := hsource
    rw [hread, ← Machine.bytes_eq, ← hsource, ← hbase, ← hother 0 (by decide)] at hmem
    obtain ⟨m₃, hthird, hrep₃, -⟩ := hrep₂.storeGuest hmem
    exists m₃
    rw [if_neg Bool.false_ne_true, hfirst, beq_self_eq_true, hsecond, hthird]
    exact ⟨rfl, hrep₃⟩

end Single

section Sample

/-- A base address far from the home. -/
private def sampleBase : BitVec 64 := 0x4000000000000000

private def sampleHome : BitVec 64 := 0x100000

/-- A guest with the same value in all registers, and all bits set elsewhere. -/
private def sampleGuest : A64.State where
  regs _ := sampleBase
  vectors _ := BitVec.allOnes 128
  mem a := if a ∈ homeRegion sampleHome then none else some 0xff

private def sampleMachine : Machine where
  regs r := if r = 5 then sampleHome else 0
  flags := 0
  vectors _ := BitVec.allOnes 128
  mem a :=
    if a ∈ homeRegion sampleHome then some (if (a - sampleHome).toNat % 8 = 7 then 0x40 else 0)
    else some 0xff
  codeBase := 0
  pos := 0

private theorem sample_slots : ∀ r, slotAt sampleHome r sampleMachine = some sampleBase := by
  decide +kernel

private theorem sample_represents : Represents sampleHome sampleMachine sampleGuest where
  base := rfl
  slots := sample_slots
  vectors _ _ := rfl
  guest a ha := by
    show (if a ∈ homeRegion sampleHome then _ else _) = (if a ∈ homeRegion sampleHome then _ else _)
    rw [if_neg ha, if_neg ha]
  outside a ha := if_pos ha

/-- The addresses an access of the sample can reach. -/
private theorem sample_notMem (x : BitVec 32) {i : Nat} (hi : i < 32) :
    sampleBase + x.signExtend 64 + BitVec.ofNat 64 i ∉ homeRegion sampleHome := by
  have hx := x.isLt
  rw [Region.mem_iff, BitVec.toNat_sub, BitVec.toNat_add, BitVec.toNat_add, BitVec.toNat_ofNat,
    BitVec.toNat_signExtend, BitVec.toNat_setWidth]
  have hhome : (homeRegion sampleHome).start.toNat = 0x100000 := rfl
  have hsize : (homeRegion sampleHome).size = 256 := rfl
  have hbase : sampleBase.toNat = 0x4000000000000000 := rfl
  rw [hhome, hsize, hbase]
  split <;> omega

private theorem sample_byte (x : BitVec 32) {i : Nat} (hi : i < 32) :
    sampleGuest.mem (sampleBase + x.signExtend 64 + BitVec.ofNat 64 i) = some 0xff :=
  if_neg (sample_notMem x hi)

/-- What an access of the sample finds, from an offset on. -/
private theorem sample_load (x : BitVec 32) {i n : Nat} (hn : i + n ≤ 32) :
    sampleGuest.mem.load (sampleBase + x.signExtend 64 + BitVec.ofNat 64 i) n =
      some (List.replicate n 0xff) := by
  rw [Sparse.load_eq_some_iff]
  refine ⟨List.length_replicate, fun j hj ↦ ?_⟩
  rw [BitVec.add_assoc _ (BitVec.ofNat 64 i), ← BitVec.ofNat_add, sample_byte x (by omega),
    List.getElem?_replicate, if_pos hj]

variable {env : Env} {t : TranslateCtx} {op : BitVec 32}

/-- Code that takes the sample to another guest than the instruction does. -/
private theorem not_accessExact {k : LoadStore} {cs : List Chunk} {m₁ : Machine}
    {bad g' : A64.State} (hk : k.diagram.Matches op)
    (hroute : (decode op).instrType.accesses = true)
    (hcode : (emittedFor env t op).flatten = chunkBytes cs)
    (hseq : ∀ c ∈ cs, Semantics.integer.Sequential c.instr)
    (hrun : Semantics.integer.runChunks cs sampleMachine = some m₁)
    (hrep : Represents sampleHome m₁ bad) (hstep : k.step op sampleGuest = some g')
    (hbad : bad.regs ≠ g'.regs ∨ bad.mem ≠ g'.mem) : ¬ AccessExact env t op := by
  intro h
  obtain ⟨m', hruns, hpos, hrep'⟩ :=
    h k hk hroute (chunkBytes cs) sampleHome sampleMachine sampleGuest g'
      (by rw [hcode]; exact at_self _) sample_represents hstep
  have hsteps := Semantics.steps_chunks hseq (m := sampleMachine) (at_self (chunkBytes cs))
  rw [hrun] at hsteps
  have hend := Semantics.runChunks_pos hseq hrun
  have hzero : sampleMachine.pos = 0 := rfl
  rw [hzero, Nat.zero_add] at hpos hend
  rw [hcode] at hpos
  rw [Semantics.runs_end_unique ⟨_, hsteps⟩ hend hruns hpos] at hrep'
  have hunique := hrep.unique hrep'
  exact hbad.elim (fun hne ↦ hne hunique.1) fun hne ↦ hne hunique.2

/-- The forms of the single accesses. -/
private theorem single_forms {size opc : BitVec 2} {v : Bool} {o : MemOp}
    (ho : LoadStore.single size v opc = some o) :
    (v = true ∧ ∃ n ≤ 16, o = .vector (opc.getLsbD 0) n) ∨
    (v = false ∧ o = .general (opc.getLsbD 0) (2 ^ size.toNat)) ∨
    (v = false ∧ size ≠ 3 ∧ o = .signed (2 ^ size.toNat) (!opc.getLsbD 0)) := by
  have hpow : ∀ size : BitVec 2, 2 ^ size.toNat ≤ 16 := by decide
  have hsigned : ∀ opc : BitVec 2, ¬ opc < 2 → (opc == 2) = !opc.getLsbD 0 := by decide
  unfold LoadStore.single at ho
  dsimp only at ho
  split at ho
  · next hv =>
    apply Or.inl
    split at ho
    · exact ⟨hv, _, hpow size, (Option.some.inj ho).symm⟩
    · split at ho
      · exact ⟨hv, 16, Nat.le_refl 16, (Option.some.inj ho).symm⟩
      · cases ho
  · next hv =>
    apply Or.inr
    split at ho
    · exact Or.inl ⟨eq_false_of_ne_true hv, (Option.some.inj ho).symm⟩
    · next hopc =>
      split at ho
      · cases ho
      · next hsize =>
        rw [hsigned opc hopc] at ho
        exact Or.inr ⟨eq_false_of_ne_true hv, fun h ↦ hsize (Or.inl h), (Option.some.inj ho).symm⟩

/-- The value that a load with the short store leaves in the slot. -/
private def loadedValue (size : BitVec 2) : BitVec 64 :=
  merge (size == 3) sampleBase (cut (size == 3) (BitVec.allOnes 64))

/-- The byte that the code stores last. -/
private def storedByte (size : BitVec 2) : Byte := if size == 3 then 0x40 else 0

/-- What a single access leaves when it is not one of those with the right footprint. -/
private theorem sample_exec {size opc : BitVec 2} {v : Bool} {o : MemOp} {rt : A64.Reg}
    (rt2 : A64.Reg) (ho : LoadStore.single size v opc = some o)
    (hnot : ¬ (v = false ∧ size = 3 ∧ rt ≠ 31))
    (x : BitVec 32) :
    ∃ g', o.exec sampleGuest (sampleBase + x.signExtend 64) rt rt2 = some g' ∧
      (opc.getLsbD 0 = true → g'.regs rt ≠ loadedValue size) ∧
      (opc.getLsbD 0 = false → ∀ y, (v = false → y = x) →
        g'.mem (sampleBase + y.signExtend 64 + BitVec.ofNat 64 7) ≠ some (storedByte size)) := by
  have hpow : ∀ size : BitVec 2, 0 + 2 ^ size.toNat ≤ 32 := by decide
  have hbase : ∀ size : BitVec 2, sampleBase ≠ loadedValue size := by decide
  have hbyte : ∀ size : BitVec 2, (some 0xff : Option Byte) ≠ some (storedByte size) := by decide
  have hload : ∀ n, 0 + n ≤ 32 → sampleGuest.load (sampleBase + x.signExtend 64) n =
      some (leNat (List.replicate n 0xff)) := by
    intro n hn
    have hbytes := sample_load x hn
    rw [BitVec.add_zero] at hbytes
    rw [A64.State.load, hbytes]
    rfl
  have hstore : ∀ n, 0 + n ≤ 32 → ∀ value, sampleGuest.store (sampleBase + x.signExtend 64) n value =
      some { sampleGuest with
        mem := sampleGuest.mem.overwrite (sampleBase + x.signExtend 64) (leBytes n value) } := by
    intro n hn value
    have hbytes := sample_load x hn
    rw [BitVec.add_zero] at hbytes
    rw [A64.State.store, Sparse.store, length_leBytes, hbytes]
    rfl
  have hregs : ∀ value, value ≠ loadedValue size ∨ rt = 31 →
      (sampleGuest.setReg rt value).regs rt ≠ loadedValue size := by
    intro value hvalue
    rw [A64.State.setReg]
    by_cases hrt : rt = 31
    · simp only [hrt, ne_eq, not_true_eq_false, and_false, if_false]
      exact hbase size
    · simp only [hrt, ne_eq, not_false_eq_true, and_true, if_true]
      exact hvalue.resolve_right hrt
  rcases single_forms ho with ⟨rfl, n, hn, rfl⟩ | ⟨rfl, rfl⟩ | ⟨rfl, hsize, rfl⟩
  · cases opc.getLsbD 0 with
    | true =>
      refine ⟨_, congrArg (Option.map _) (hload n (by omega)), fun _ ↦ ?_, fun hne ↦ by cases hne⟩
      exact hbase size
    | false =>
      refine ⟨_, hstore n (by omega) _, (fun hne ↦ by cases hne), fun _ y _ ↦ ?_⟩
      have hones : leBytes n (BitVec.allOnes 128).toNat = List.replicate n 0xff := by
        have key : ∀ n < 17, leBytes n (BitVec.allOnes 128).toNat = List.replicate n 0xff := by
          decide
        exact key n (by omega)
      show (((leBytes n (BitVec.allOnes 128).toNat)[_]?).or (sampleGuest.mem _)) ≠ _
      rw [hones, sample_byte y (by decide), List.getElem?_replicate]
      split
      · exact hbyte size
      · exact hbyte size
  · have hexact : size = 3 → rt = 31 := by
      intro hsize
      by_contra hrt
      exact hnot ⟨rfl, hsize, hrt⟩
    cases opc.getLsbD 0 with
    | true =>
      have hvalue : ∀ size : BitVec 2, size ≠ 3 →
          BitVec.ofNat 64 (leNat (List.replicate (2 ^ size.toNat) 0xff)) ≠ loadedValue size := by
        decide
      refine ⟨_, congrArg (Option.map _) (hload _ (hpow size)), fun _ ↦ ?_, fun hne ↦ by cases hne⟩
      apply hregs
      by_cases hsize : size = 3
      · exact Or.inr (hexact hsize)
      · exact Or.inl (hvalue size hsize)
    | false =>
      refine ⟨_, hstore _ (hpow size) _, (fun hne ↦ by cases hne), fun _ y hy ↦ ?_⟩
      rw [hy rfl]
      by_cases hsize : size = 3
      · have hread : sampleGuest.regs.read rt = 0 := if_pos (hexact hsize)
        rw [hread, hsize]
        show Sparse.overwrite sampleGuest.mem _ (leBytes 8 0) _ ≠ _
        rw [Sparse.overwrite_at (by decide) (by decide)]
        decide
      · have hshort : ∀ size : BitVec 2, size ≠ 3 → 2 ^ size.toNat ≤ 7 := by decide
        have hout : sampleBase + x.signExtend 64 + BitVec.ofNat 64 7 ∉
            (⟨sampleBase + x.signExtend 64, (leBytes (2 ^ size.toNat)
              (sampleGuest.regs.read rt).toNat).length⟩ : Region) := by
          rw [Region.mem_iff, BitVec.add_comm, BitVec.add_sub_cancel, length_leBytes]
          exact Nat.not_lt.mpr (hshort size hsize)
        show Sparse.overwrite sampleGuest.mem _ _ _ ≠ _
        rw [Sparse.overwrite_of_notMem hout, sample_byte x (by decide)]
        exact hbyte size
  · have hvalue : ∀ size : BitVec 2, size ≠ 3 →
        signedValue (2 ^ size.toNat) false (leNat (List.replicate (2 ^ size.toNat) 0xff)) ≠
          loadedValue size := by
      decide
    refine ⟨_, congrArg (Option.map _) (hload _ (hpow size)), fun hbit ↦ ?_, fun _ y _ ↦ ?_⟩
    · rw [hbit]
      exact hregs _ (Or.inl (hvalue size hsize))
    · show sampleGuest.mem _ ≠ _
      rw [sample_byte y (by decide)]
      exact hbyte size

/-- Where the code of a single access takes the sample. -/
private theorem sample_ldrStr (op imm : BitVec 32) :
    ∃ m₁ bad, Semantics.integer.runChunks (ldrStrChunks op imm) sampleMachine = some m₁ ∧
      Represents sampleHome m₁ bad ∧
      (op.getLsbD 22 = true → bad.regs (regAt op 0) = loadedValue (op.extractLsb' 30 2)) ∧
      (op.getLsbD 22 = false → bad.mem (sampleBase + imm.signExtend 64 + BitVec.ofNat 64 7) =
        some (storedByte (op.extractLsb' 30 2))) := by
  have hbytes := sample_load imm (i := 0) (n := 8) (by decide)
  rw [BitVec.add_zero] at hbytes
  obtain ⟨m₁, hfirst, hrep₁, hbase, hother₁⟩ :=
    sample_represents.loadSlot (armReg op 5) rax true (by decide)
  have hbase : m₁.regs 0 = sampleBase := hbase
  rw [ldrStrChunks]
  generalize (op.extractLsb' 30 2) = size
  cases op.getLsbD 22 with
  | true =>
    have hload : sampleGuest.load (m₁.regs 0 + imm.signExtend 64) 8 =
        some (leNat (List.replicate 8 0xff)) := by
      rw [hbase, A64.State.load, hbytes]
      rfl
    obtain ⟨m₂, hsecond, hrep₂, hvalue, -⟩ := hrep₁.loadGuest rax (by decide) hload
    have hvalue : m₂.regs 0 = BitVec.allOnes 64 := hvalue
    obtain ⟨m₃, hthird, hrep₃, -⟩ := hrep₂.storeReg (armReg op 0) (x := rax) (w := size == 3) (by
      rw [Bool.and_eq_false_iff]
      exact Or.inr rfl)
    refine ⟨m₃, _, ?_, hrep₃, fun _ ↦ ?_, fun hne ↦ by cases hne⟩
    · rw [if_pos rfl, hfirst, hsecond, hthird]
      rfl
    · have hzero : m₂.regs (gpr false (rax.setWidth 3)) = BitVec.allOnes 64 := hvalue
      rw [hzero]
      exact if_pos rfl
  | false =>
    have hreg : ∀ w, loadedReg r11 w ≠ 5 := by decide
    obtain ⟨m₂, hsecond, hrep₂, hsource, hother₂⟩ :=
      hrep₁.loadSlot (armReg op 0) r11 (size == 3) (hreg _)
    have hmem : sampleGuest.mem.store (m₂.regs 0 + imm.signExtend 64)
        (Machine.bytes (m₂.regs (toGpr r11)) 8) = some (sampleGuest.mem.overwrite
          (sampleBase + imm.signExtend 64) (Machine.bytes (m₂.regs (toGpr r11)) 8)) := by
      have hne : ∀ w, (0 : Gpr) ≠ loadedReg r11 w := by decide
      rw [hother₂ 0 (hne _), hbase, Sparse.store, Machine.length_bytes, hbytes]
      rfl
    obtain ⟨m₃, hthird, hrep₃, -⟩ := hrep₂.storeGuest hmem
    refine ⟨m₃, _, ?_, hrep₃, (fun hne ↦ by cases hne), fun _ ↦ ?_⟩
    · rw [if_neg Bool.false_ne_true, hfirst, hsecond, hthird]
      rfl
    · show Sparse.overwrite sampleGuest.mem _ _ _ = _
      rw [Sparse.overwrite_at (by rw [Machine.length_bytes]; decide) (by decide),
        Machine.getElem?_bytes _ (by decide), storedByte]
      -- the short load goes to `RBX`
      cases hw : size == 3 with
      | true =>
        rw [hw] at hsource
        have hsource : m₂.regs (toGpr r11) = sampleBase := hsource
        rw [hsource]
        rfl
      | false =>
        rw [hw] at hother₂
        have hzero : m₂.regs (toGpr r11) = 0 :=
          (hother₂ _ (by decide)).trans (hother₁ _ (by decide))
        rw [hzero]
        rfl

/-- The memory behind the store of two elements that are next to each other. -/
private def samplePaired (n : Nat) (x : BitVec 32) (rt rt2 : A64.Reg) : Sparse :=
  (sampleGuest.mem.overwrite (sampleBase + x.signExtend 64)
    (leBytes n (sampleGuest.regs.read rt).toNat)).overwrite
      (sampleBase + x.signExtend 64 + BitVec.ofNat 64 n)
      (leBytes n (sampleGuest.regs.read rt2).toNat)

private theorem sample_pair {n : Nat} (hn : n ≤ 8) (x : BitVec 32) (rt rt2 : A64.Reg) :
    (MemOp.pair false n).exec sampleGuest (sampleBase + x.signExtend 64) rt rt2 =
      some { sampleGuest with mem := samplePaired n x rt rt2 } := by
  have hfirst := sample_load x (i := 0) (n := n) (by omega)
  have hsecond := sample_load x (i := n) (n := n) (by omega)
  rw [BitVec.add_zero] at hfirst
  have hkept : (sampleGuest.mem.overwrite (sampleBase + x.signExtend 64)
      (leBytes n (sampleGuest.regs.read rt).toNat)).load
        (sampleBase + x.signExtend 64 + BitVec.ofNat 64 n) n = some (List.replicate n 0xff) := by
    rw [Sparse.load_overwrite_of_notMem, hsecond]
    intro i hi
    rw [Region.mem_iff, BitVec.add_assoc, BitVec.add_comm, BitVec.add_sub_cancel, length_leBytes,
      ← BitVec.ofNat_add, BitVec.toNat_ofNat]
    dsimp only
    omega
  show (sampleGuest.store _ n _).bind _ = _
  rw [A64.State.store, Sparse.store, length_leBytes, hfirst, Option.map_some, Option.map_some,
    Option.bind_some, A64.State.store, Sparse.store, length_leBytes, hkept]
  rfl

/-- The first byte of a pair of eight bytes is written. -/
private theorem samplePaired_first (x : BitVec 32) (rt rt2 : A64.Reg) :
    samplePaired 8 x rt rt2 (sampleBase + x.signExtend 64 + BitVec.ofNat 64 0) = some 0 := by
  have hread : (sampleGuest.regs.read rt).toNat = 0 ∨
      (sampleGuest.regs.read rt).toNat = 0x4000000000000000 := by
    unfold A64.Regs.read
    split
    · exact Or.inl rfl
    · exact Or.inr rfl
  have hout : sampleBase + x.signExtend 64 + BitVec.ofNat 64 0 ∉
      (⟨sampleBase + x.signExtend 64 + BitVec.ofNat 64 8,
        (leBytes 8 (sampleGuest.regs.read rt2).toNat).length⟩ : Region) := by
    rw [Region.mem_iff, length_leBytes, add_sub_add_left_eq_sub]
    show ¬ (0#64 - 8#64).toNat < 8
    decide
  rw [samplePaired, Sparse.overwrite_of_notMem hout,
    Sparse.overwrite_at (by rw [length_leBytes]; decide) (by decide)]
  rcases hread with hr | hr <;> rw [hr] <;> rfl

/-- What is behind a pair of four bytes is not written. -/
private theorem samplePaired_behind (rt rt2 : A64.Reg) :
    samplePaired 4 0 rt rt2 (sampleBase + (0 + 8 : BitVec 32).signExtend 64 + BitVec.ofNat 64 7) =
      some 0xff := by
  have hout : ∀ p v, p = sampleBase + (0 : BitVec 32).signExtend 64 ∨
      p = sampleBase + (0 : BitVec 32).signExtend 64 + BitVec.ofNat 64 4 →
      sampleBase + (0 + 8 : BitVec 32).signExtend 64 + BitVec.ofNat 64 7 ∉
        (⟨p, (leBytes 4 v).length⟩ : Region) := by
    intro p v hp
    rw [Region.mem_iff, length_leBytes]
    rcases hp with rfl | rfl
    · show ¬ _ < 4
      decide
    · show ¬ _ < 4
      decide
  rw [samplePaired, Sparse.overwrite_of_notMem (hout _ _ (Or.inr rfl)),
    Sparse.overwrite_of_notMem (hout _ _ (Or.inl rfl)), sample_byte _ (by decide)]

/-- Where the code of a pair takes the sample: eight bytes of zeros and eight more, or, with the top
bit set, a load. -/
private theorem sample_ldpStp (op imm : BitVec 32) (hlow : op.getLsbD 30 = false) :
    ∃ m₁ bad, Semantics.integer.runChunks (ldpStpChunks op imm) sampleMachine = some m₁ ∧
      Represents sampleHome m₁ bad ∧
      (op.getLsbD 31 = true → bad.mem = sampleGuest.mem) ∧
      (op.getLsbD 31 = false → bad.regs = sampleGuest.regs ∧
        bad.mem (sampleBase + (imm + 8).signExtend 64 + BitVec.ofNat 64 7) = some 0) := by
  have hbytes : ∀ x : BitVec 32, sampleGuest.mem.load (sampleBase + x.signExtend 64) 8 =
      some (List.replicate 8 0xff) := by
    intro x
    have hload := sample_load x (i := 0) (n := 8) (by decide)
    rwa [BitVec.add_zero] at hload
  obtain ⟨m₁, hfirst, hrep₁, hbase, hother₁⟩ :=
    sample_represents.loadSlot (armReg op 5) rax true (by decide)
  have hbase : m₁.regs 0 = sampleBase := hbase
  rw [ldpStpChunks, hlow]
  cases op.getLsbD 31 with
  | true =>
    have hload : ∀ x : BitVec 32, ∀ g : A64.State, g.mem = sampleGuest.mem →
        g.load (sampleBase + x.signExtend 64) 8 = some (leNat (List.replicate 8 0xff)) := by
      intro x g hg
      rw [A64.State.load, hg, hbytes]
      rfl
    have hv₁ := hload imm sampleGuest rfl
    rw [← hbase] at hv₁
    obtain ⟨m₂, hsecond, hrep₂, -, hother₂⟩ := hrep₁.loadGuest r11 (by decide) hv₁
    obtain ⟨m₃, hthird, hrep₃, hregs₃⟩ :=
      hrep₂.storeReg (armReg op 0) (x := r11) (w := false) rfl
    have hbase₃ : m₃.regs 0 = sampleBase := by
      rw [hregs₃, hother₂ 0 (by decide), hbase]
    have hv₃ := hload (imm + 8) _ rfl
    rw [← hbase₃] at hv₃
    obtain ⟨m₄, hfourth, hrep₄, -, -⟩ := hrep₃.loadGuest r11 (by decide) hv₃
    obtain ⟨m₅, hfifth, hrep₅, -⟩ := hrep₄.storeReg (armReg op 10) (x := r11) (w := false) rfl
    refine ⟨m₅, _, ?_, hrep₅, fun _ ↦ rfl, fun hne ↦ by cases hne⟩
    rw [if_pos rfl, hfirst, hsecond, hthird, hfourth, hfifth]
    rfl
  | false =>
    have hreg : loadedReg r11 false ≠ 5 := by decide
    have hnz : (0 : Gpr) ≠ loadedReg r11 false := by decide
    have hnr : toGpr r11 ≠ loadedReg r11 false := by decide
    obtain ⟨m₂, hsecond, hrep₂, -, hother₂⟩ := hrep₁.loadSlot (armReg op 0) r11 false hreg
    have hzero₂ : m₂.regs (toGpr r11) = 0 := (hother₂ _ hnr).trans (hother₁ _ (by decide))
    have hmem₂ : sampleGuest.mem.store (m₂.regs 0 + imm.signExtend 64)
        (Machine.bytes (m₂.regs (toGpr r11)) 8) = some (sampleGuest.mem.overwrite
          (sampleBase + imm.signExtend 64) (Machine.bytes 0 8)) := by
      rw [hother₂ 0 hnz, hbase, hzero₂, Sparse.store, Machine.length_bytes, hbytes]
      rfl
    obtain ⟨m₃, hthird, hrep₃, hregs₃⟩ := hrep₂.storeGuest hmem₂
    obtain ⟨m₄, hfourth, hrep₄, -, hother₄⟩ := hrep₃.loadSlot (armReg op 10) r11 false hreg
    have hmapped : ∃ bs, (sampleGuest.mem.overwrite (sampleBase + imm.signExtend 64)
        (Machine.bytes 0 8)).load (sampleBase + (imm + 8).signExtend 64) 8 = some bs := by
      rw [Sparse.exists_load_iff]
      intro i hi
      rw [Sparse.overwrite, sample_byte _ (by omega), Option.isSome_or]
      exact Bool.or_true _
    obtain ⟨bs, hbs⟩ := hmapped
    have hmem₄ : Sparse.store (sampleGuest.mem.overwrite (sampleBase + imm.signExtend 64)
        (Machine.bytes 0 8)) (m₄.regs 0 + (imm + 8).signExtend 64)
        (Machine.bytes (m₄.regs (toGpr r11)) 8) = some ((sampleGuest.mem.overwrite
          (sampleBase + imm.signExtend 64) (Machine.bytes 0 8)).overwrite
            (sampleBase + (imm + 8).signExtend 64) (Machine.bytes 0 8)) := by
      rw [hother₄ 0 hnz, hother₄ _ hnr, hregs₃, hother₂ 0 hnz, hbase, hzero₂, Sparse.store,
        Machine.length_bytes, hbs]
      rfl
    obtain ⟨m₅, hfifth, hrep₅, -⟩ := hrep₄.storeGuest hmem₄
    refine ⟨m₅, _, ?_, hrep₅, (fun hne ↦ by cases hne), fun _ ↦ ⟨rfl, ?_⟩⟩
    · rw [if_neg Bool.false_ne_true, hfirst, hsecond, hthird, hfourth, hfifth]
      rfl
    · show Sparse.overwrite _ _ _ _ = _
      rw [Sparse.overwrite_at (by rw [Machine.length_bytes]; decide) (by decide),
        Machine.getElem?_bytes _ (by decide)]
      rfl

end Sample

section Exact

variable {env : Env} {t : TranslateCtx} {op : BitVec 32} {k : LoadStore}

theorem emittedFor_single {load : Bool}
    (htype : (decode op).instrType = if load then .ldr else .str) :
    emittedFor env t op = translateLdrStr op (decode op).imm := by
  apply emittedFor_straight
  rw [htype]
  cases load <;> rfl

theorem emittedFor_pair (htype : (decode op).instrType = .stp) :
    emittedFor env t op = translateLdpStp op (decode op).imm := by
  apply emittedFor_straight
  rw [htype]
  rfl

/-- The step of a single access. -/
theorem step_single (hk : k = .unscaled ∨ k = .unsignedOffset) {o : MemOp} {x : BitVec 32}
    (ho : k.operation op = some o) (hx : k.offset op = some x) (g : A64.State) :
    k.step op g = o.exec g (g.regs (regAt op 5) + x.signExtend 64) (regAt op 0) (regAt op 10) := by
  rw [LoadStore.step, ho, hx]
  rcases hk with rfl | rfl <;> rfl

theorem operation_single (hk : k = .unscaled ∨ k = .unsignedOffset) :
    k.operation op = LoadStore.single (op.extractLsb' 30 2) (op.getLsbD 26) (op.extractLsb' 22 2) := by
  rcases hk with rfl | rfl <;> rfl

/-- The single accesses that are not of eight bytes, of a vector register or of the zero register
leave another state. -/
theorem single_fails (hk : k = .unscaled ∨ k = .unsignedOffset) (h : k.diagram.Matches op)
    (hsome : (k.operation op).isSome) (hnot : ¬ FootprintExact k op) : ¬ AccessExact env t op := by
  obtain ⟨htype, himm⟩ := decode_single hk h
  have hroute : (decode op).instrType.accesses = true := by
    rw [htype]
    split <;> rfl
  have hload : (op.extractLsb' 22 2).getLsbD 0 = op.getLsbD 22 :=
    (bit_of_field 22 2 0 (by decide)).symm
  have hshape : ¬ (op.getLsbD 26 = false ∧ op.extractLsb' 30 2 = 3 ∧ regAt op 0 ≠ 31) :=
    fun hall ↦ hnot ⟨hk, hall.1, hall.2.1, hall.2.2⟩
  obtain ⟨o, ho⟩ := Option.isSome_iff_exists.mp hsome
  obtain ⟨x, hx⟩ : ∃ x, k.offset op = some x := by
    rcases hk with rfl | rfl <;> exact ⟨_, rfl⟩
  have hsingle := ho
  rw [operation_single hk] at hsingle
  obtain ⟨g', hg', hregs, hmem⟩ := sample_exec (regAt op 10) hsingle hshape x
  rw [hload] at hregs hmem
  obtain ⟨m₁, bad, hrun, hrep, hbadRegs, hbadMem⟩ := sample_ldrStr op (decode op).imm
  apply not_accessExact h hroute _ (sequential_ldrStr op (decode op).imm) hrun hrep
    ((step_single hk ho hx sampleGuest).trans hg')
  · cases hbit : op.getLsbD 22 with
    | true =>
      apply Or.inl
      intro heq
      exact hregs hbit (heq ▸ hbadRegs hbit)
    | false =>
      apply Or.inr
      intro heq
      refine hmem hbit (decode op).imm (fun hgeneral ↦ ?_) (heq ▸ hbadMem hbit)
      exact Option.some.inj ((himm hgeneral).symm.trans hx)
  · rw [emittedFor_single htype, translateLdrStr_flatten]

/-- The step of a pair store with write-back. -/
theorem step_pair (hk : k = .pairPost ∨ k = .pairPre) {n : Nat} {x : BitVec 32}
    (ho : k.operation op = some (.pair false n)) (hx : k.offset op = some x) (g : A64.State) :
    k.step op g = ((MemOp.pair false n).exec g
      (g.regs (regAt op 5) + (if k = .pairPre then x else 0).signExtend 64) (regAt op 0)
      (regAt op 10)).map fun s ↦ s.setBase (regAt op 5) (g.regs (regAt op 5) + x.signExtend 64) := by
  rw [LoadStore.step, ho, hx]
  rcases hk with rfl | rfl
  · have hzero : (0 : BitVec 32).signExtend 64 = 0#64 := rfl
    rw [if_neg (by decide), hzero, BitVec.add_zero]
    rfl
  · rfl

/-- The fields of the pairs that are translated. -/
theorem pair_fields {c : BitVec 32} (hc : c = 0x28800000 ∨ c = 0x29800000)
    (hm : Diagram.Matches ⟨0x7fc00000, c⟩ op) (hk : k = .pairPost ∨ k = .pairPre) :
    op.getLsbD 30 = false ∧
      k.operation op = some (.pair false (if op.getLsbD 31 then 8 else 4)) ∧
      ∃ x, k.offset op = some x ∧ (op.getLsbD 31 = false → x = (decode op).imm) := by
  have hlow : op.getLsbD 30 = false := by
    rcases hc with rfl | rfl <;> exact hm.bit_false rfl rfl
  have hgeneral : op.getLsbD 26 = false := by
    rcases hc with rfl | rfl <;> exact hm.bit_false rfl rfl
  have hstore : op.getLsbD 22 = false := by
    rcases hc with rfl | rfl <;> exact hm.bit_false rfl rfl
  have hfield : (op.extractLsb' 30 2).getLsbD 0 = false := by
    rw [← bit_of_field 30 2 0 (by decide)]
    exact hlow
  have htop : op.getLsbD 31 = (op.extractLsb' 30 2).getLsbD 1 := bit_of_field 30 2 1 (by decide)
  have hforms : ∀ opc : BitVec 2, opc.getLsbD 0 = false →
      LoadStore.pairOf opc false false = some (.pair false (if opc.getLsbD 1 then 8 else 4)) ∧
        (opc.getLsbD 1 = false → LoadStore.pairScale opc false = 2) := by
    decide
  obtain ⟨hop, hscale⟩ := hforms _ hfield
  have hoperation : k.operation op =
      LoadStore.pairOf (op.extractLsb' 30 2) (op.getLsbD 26) (op.getLsbD 22) := by
    rcases hk with rfl | rfl <;> rfl
  refine ⟨hlow, ?_, (op.extractLsb' 15 7).signExtend 32 <<<
    LoadStore.pairScale (op.extractLsb' 30 2) (op.getLsbD 26), ?_, fun hsmall ↦ ?_⟩
  · rw [hoperation, hgeneral, hstore, hop, htop]
  · rcases hk with rfl | rfl <;> rfl
  · rw [hgeneral, hscale (htop ▸ hsmall), (decode_pair hc hm).2.2]

/-- A pair leaves another state: the elements are stored eight bytes apart, or not at all, and the
base stays. -/
theorem pair_fails {c : BitVec 32} (hc : c = 0x28800000 ∨ c = 0x29800000)
    (hm : Diagram.Matches ⟨0x7fc00000, c⟩ op) (h : k.diagram.Matches op)
    (hk : k = .pairPost ∨ k = .pairPre) : ¬ AccessExact env t op := by
  have htype := (decode_pair hc hm).1
  have hroute : (decode op).instrType.accesses = true := by
    rw [htype]
    rfl
  obtain ⟨hlow, ho, x, hx, himm⟩ := pair_fields hc hm hk
  obtain ⟨m₁, bad, hrun, hrep, hloads, hstores⟩ := sample_ldpStp op (decode op).imm hlow
  have hcode : (emittedFor env t op).flatten = chunkBytes (ldpStpChunks op (decode op).imm) := by
    rw [emittedFor_pair htype, translateLdpStp_flatten]
  have hstep : ∀ n ≤ 8, k.operation op = some (.pair false n) → k.step op sampleGuest = some
      (A64.State.setBase { sampleGuest with
        mem := samplePaired n (if k = .pairPre then x else 0) (regAt op 0) (regAt op 10) }
        (regAt op 5) (sampleBase + x.signExtend 64)) := by
    intro n hn hop
    rw [step_pair hk hop hx]
    exact congrArg (Option.map _) (sample_pair hn _ _ _)
  cases htop : op.getLsbD 31 with
  | true =>
    rw [htop, if_pos rfl] at ho
    apply not_accessExact h hroute hcode (sequential_ldpStp op _) hrun hrep (hstep 8 (by decide) ho)
    apply Or.inr
    intro heq
    have hbyte := congrFun heq (sampleBase + (if k = .pairPre then x else 0).signExtend 64 +
      BitVec.ofNat 64 0)
    rw [hloads htop, sample_byte _ (by decide)] at hbyte
    exact absurd (hbyte.trans (samplePaired_first _ _ _)) (by decide)
  | false =>
    rw [htop, if_neg Bool.false_ne_true] at ho
    apply not_accessExact h hroute hcode (sequential_ldpStp op _) hrun hrep (hstep 4 (by decide) ho)
    obtain ⟨hregs, hlast⟩ := hstores htop
    by_cases hoffset : x = 0
    · -- the last of the bytes behind the access is not written
      apply Or.inr
      intro heq
      rw [← himm htop, hoffset, heq, hoffset, ite_self] at hlast
      exact absurd (hlast.symm.trans (samplePaired_behind (regAt op 0) (regAt op 10))) (by decide)
    · -- the base is updated
      apply Or.inl
      intro heq
      have hrn := congrFun heq (regAt op 5)
      rw [hregs] at hrn
      change sampleBase = (if _ then sampleBase + x.signExtend 64 else _) at hrn
      rw [if_pos rfl, BitVec.self_eq_add_right] at hrn
      apply hoffset
      apply BitVec.eq_of_toInt_eq
      rw [← BitVec.toInt_signExtend_of_le (v := 64) (by decide), hrn]
      rfl

/-- The words that have a class and are translated as accesses. -/
theorem routed_class (h : k.diagram.Matches op) (hroute : (decode op).instrType.accesses = true) :
    (k = .unscaled ∨ k = .unsignedOffset) ∨
      (k = .pairPost ∨ k = .pairPre) ∧
        ∃ c, (c = 0x28800000 ∨ c = 0x29800000) ∧ Diagram.Matches ⟨0x7fc00000, c⟩ op := by
  have htype : (decode op).instrType ≠ .unknown ∧ (decode op).instrType ≠ .ldrLiteral ∧
      (decode op).instrType ≠ .prfm := by
    refine ⟨?_, ?_, ?_⟩ <;>
      intro he <;>
      rw [he] at hroute <;>
      cases hroute
  rcases decode_access (LoadStore.group k h) htype with hm | hm | ⟨c, hc, hm⟩
  · apply Or.inl
    cases k <;> first
      | exact Or.inl rfl
      | exact absurd h (hm.conflict (by decide))
  · apply Or.inl
    cases k <;> first
      | exact Or.inr rfl
      | exact absurd h (hm.conflict (by decide))
  · refine Or.inr ⟨?_, c, hc, hm⟩
    rcases hc with rfl | rfl <;> cases k <;> first
      | exact Or.inl rfl
      | exact Or.inr rfl
      | exact absurd h (hm.conflict (by decide))

/-- A load or store has its footprint exactly when it is a single access of eight bytes with a
general register that is not the zero register, and leaves its base alone. -/
theorem accessExact_iff (env : Env) (t : TranslateCtx) (op : BitVec 32) :
    AccessExact env t op ↔ ∀ k : LoadStore, k.diagram.Matches op →
      (decode op).instrType.accesses = true → (k.operation op).isSome → FootprintExact k op := by
  constructor
  · intro h k hk hroute hsome
    by_contra hnot
    rcases routed_class hk hroute with hsingle | ⟨hpair, c, hc, hm⟩
    · exact single_fails hsingle hk hsome hnot h
    · exact pair_fails hc hm hk hpair h
  · intro h k hk hroute code home m g g' hat hrep hstep
    obtain ⟨o, ho, hrest⟩ := Option.bind_eq_some_iff.mp hstep
    obtain ⟨x, hx, -⟩ := Option.bind_eq_some_iff.mp hrest
    have hexact := h k hk hroute (Option.isSome_iff_exists.mpr ⟨o, ho⟩)
    obtain ⟨htype, himm⟩ := decode_single hexact.single hk
    have hload : (op.extractLsb' 22 2).getLsbD 0 = op.getLsbD 22 :=
      (bit_of_field 22 2 0 (by decide)).symm
    have hoperation : o = .general (op.getLsbD 22) 8 := by
      have hsingle := ho
      rw [operation_single hexact.single] at hsingle
      rcases single_forms hsingle with ⟨hv, -⟩ | ⟨-, ho'⟩ | ⟨-, hsize, -⟩
      · rw [hexact.general] at hv
        cases hv
      · rw [ho', hload, hexact.size]
        rfl
      · exact absurd hexact.size hsize
    rw [step_single hexact.single ho hx, hoperation,
      Option.some.inj (hx.symm.trans (himm hexact.general))] at hstep
    rw [emittedFor_single htype, translateLdrStr_flatten] at hat ⊢
    obtain ⟨m', hrun, hrep'⟩ := single_carries hexact.size hexact.target hrep hstep
    have hseq := sequential_ldrStr op (decode op).imm
    have hsteps := Semantics.steps_chunks hseq hat
    rw [hrun] at hsteps
    exact ⟨m', ⟨_, hsteps⟩, Semantics.runChunks_pos hseq hrun, hrep'⟩

/-- `LDRB W0, [X1]` stores four bytes of the eight it has loaded. -/
theorem ldrb_loads_wide :
    ¬ AccessExact Env.default (startCtx Stack.zero (Block.ofWords 0 [0x39400020]) 0) 0x39400020 := by
  apply single_fails (Or.inr rfl) (by decide) (by decide)
  intro h
  have hsize := h.size
  revert hsize
  decide

end Exact

end Arm2x86.Translate
