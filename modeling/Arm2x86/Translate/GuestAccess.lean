import Arm2x86.A64.Access
import Arm2x86.Translate.HomeAccess
import Arm2x86.Translate.OperationAgreement

/-!
# Accesses to guest memory

The state of a guest in a machine, the accesses through `RAX` as instructions, and the code of
`translate_ldr_str` and `translate_ldp_stp` (`modules/arm2x86_translate64.c:1055`) as such
instructions.
-/

namespace Arm2x86.Translate

open X86

/-- The state of a guest in a machine: its registers are in the home, and its memory is what is
mapped outside. -/
structure Represents (home : BitVec 64) (m : Machine) (g : A64.State) : Prop where
  base : m.regs 5 = home
  slots : ∀ r, slotAt home r m = some (g.regs (BitVec.ofFin r))
  vectors : ∀ v < 16, g.vectors v = m.vectors (v.setWidth 4)
  guest : ∀ a ∉ homeRegion home, m.mem a = g.mem a
  outside : ∀ a ∈ homeRegion home, g.mem a = none

namespace Represents

variable {home : BitVec 64} {m m' : Machine} {g : A64.State} {a : BitVec 64} {n : Nat}
  {bs : List Byte}

theorem of_eq (h : Represents home m g) (hregs : m'.regs 5 = m.regs 5) (hmem : m'.mem = m.mem)
    (hvectors : m'.vectors = m.vectors) : Represents home m' g where
  base := hregs.trans h.base
  slots r := by
    rw [← h.slots r]
    apply slotAt_congr
    intro i _
    rw [hmem]
  vectors := by
    rw [hvectors]
    exact h.vectors
  guest := by
    rw [hmem]
    exact h.guest
  outside := h.outside

theorem setReg (h : Represents home m g) {x : Gpr} (hx : x ≠ 5) (v : BitVec 64) :
    Represents home (m.setReg x v) g :=
  h.of_eq (if_neg (Ne.symm hx)) rfl rfl

theorem pos (h : Represents home m g) (p : Nat) : Represents home { m with pos := p } g :=
  h.of_eq rfl rfl rfl

/-- What the guest can access is not in the home. -/
theorem notMem_home (h : Represents home m g) (ha : (g.mem a).isSome) : a ∉ homeRegion home := by
  intro hin
  rw [h.outside a hin] at ha
  cases ha

/-- What the guest loads is what the machine loads. -/
theorem load (h : Represents home m g) (hload : g.mem.load a n = some bs) :
    Sparse.load m.mem a n = some bs := by
  rw [← hload]
  apply Sparse.load_congr
  intro i hi
  exact h.guest _ (h.notMem_home (Sparse.exists_load_iff.mp ⟨bs, hload⟩ i hi))

/-- What the guest stores is what the machine stores. -/
theorem store (h : Represents home m g) {mem : Sparse} (hstore : g.mem.store a bs = some mem) :
    ∃ m', m.store a bs = some m' ∧ m'.regs = m.regs ∧ Represents home m' { g with mem } := by
  obtain ⟨old, hload, rfl⟩ := Option.map_eq_some_iff.mp hstore
  have hout : ∀ q ∈ homeRegion home, q ∉ (⟨a, bs.length⟩ : Region) := by
    intro q hq hin
    rw [Region.mem_iff] at hin
    have hmapped := Sparse.exists_load_iff.mp ⟨old, hload⟩ _ hin
    rw [BitVec.ofNat_toNat, BitVec.setWidth_eq, BitVec.add_comm, BitVec.sub_add_cancel] at hmapped
    exact h.notMem_home hmapped hq
  exists { m with mem := Sparse.overwrite m.mem a bs }
  refine ⟨?_, rfl, h.base, fun r ↦ ?_, h.vectors, fun q hq ↦ ?_, fun q hq ↦ ?_⟩
  · rw [Machine.store_eq, Sparse.store, h.load hload]
    rfl
  · rw [← h.slots r]
    apply slotAt_congr
    intro i hi
    exact Sparse.overwrite_of_notMem (hout _ (slot_mem_home home r hi))
  · show (bs[(q - a).toNat]?).or (m.mem q) = (bs[(q - a).toNat]?).or (g.mem q)
    rw [h.guest q hq]
  · exact (Sparse.overwrite_of_notMem (hout q hq)).trans (h.outside q hq)

/-- A slot that is stored to is a register that is set, with what a short store leaves of it. -/
theorem storeSlot (h : Represents home m g) (r : ArmReg) (w : Bool) (v : BitVec 64)
    (hmem : m'.mem = storedMem m home r w v) (hregs : m'.regs 5 = m.regs 5)
    (hvectors : m'.vectors = m.vectors) :
    Represents home m' (g.setBase (BitVec.ofFin r) (merge w (g.regs (BitVec.ofFin r)) v)) where
  base := hregs.trans h.base
  slots r' := by
    rw [slotAt_storedMem hmem (h.slots r), h.slots r']
    show (if r' = r then some (merge w (g.regs (BitVec.ofFin r)) v)
        else some (g.regs (BitVec.ofFin r'))) =
      some (if (BitVec.ofFin r' : A64.Reg) = BitVec.ofFin r then merge w (g.regs (BitVec.ofFin r)) v
        else g.regs (BitVec.ofFin r'))
    by_cases hr : r' = r
    · rw [if_pos hr, if_pos (congrArg BitVec.ofFin hr)]
    · rw [if_neg hr, if_neg fun he ↦ hr (BitVec.ofFin.inj he)]
  vectors := by
    rw [hvectors]
    exact h.vectors
  guest q hq := by
    rw [hmem, storedMem_of_notMem hq]
    exact h.guest q hq
  outside := h.outside

/-- A machine has one guest. -/
theorem unique (h : Represents home m g) {g' : A64.State} (h' : Represents home m g') :
    g.regs = g'.regs ∧ g.mem = g'.mem := by
  constructor
  · funext r
    exact Option.some.inj ((h.slots r.toFin).symm.trans (h'.slots r.toFin))
  · funext a
    by_cases ha : a ∈ homeRegion home
    · rw [h.outside a ha, h'.outside a ha]
    · rw [← h.guest a ha, h'.guest a ha]

end Represents

section Chunks

/-- A load from guest memory. -/
def guestLoad (reg : Byte) (imm : BitVec 32) : Chunk where
  bytes := raxAccess [rexR reg rax, 0x8b] reg imm
  instr := .mov .b64 (.reg (toGpr reg)) (.mem (some 0) none (imm.signExtend 64))
  decodes rest := (decode_raxAccess reg imm rest).1

/-- A store to guest memory. -/
def guestStore (reg : Byte) (imm : BitVec 32) : Chunk where
  bytes := raxAccess [rexR reg rax, 0x89] reg imm
  instr := .mov .b64 (.mem (some 0) none (imm.signExtend 64)) (.reg (toGpr reg))
  decodes rest := (decode_raxAccess reg imm rest).2

/-- The instructions of `translate_ldr_str`. -/
def ldrStrChunks (op imm : BitVec 32) : List Chunk :=
  let rt := armReg op 0
  let w := op.extractLsb' 30 2 == (3 : BitVec 2)
  loadChunk (armReg op 5) rax true ::
    if op.getLsbD 22 then [guestLoad rax imm, storeChunk rax rt w]
    else [loadChunk rt r11 w, guestStore r11 imm]

/-- The instructions of `translate_ldp_stp`. -/
def ldpStpChunks (op imm : BitVec 32) : List Chunk :=
  let rt := armReg op 0
  let rt2 := armReg op 10
  let w := op.getLsbD 30
  loadChunk (armReg op 5) rax true ::
    if op.getLsbD 31 then
      [guestLoad r11 imm, storeChunk r11 rt w, guestLoad r11 (imm + 8), storeChunk r11 rt2 w]
    else
      [loadChunk rt r11 w, guestStore r11 imm, loadChunk rt2 r11 w, guestStore r11 (imm + 8)]

theorem flatten_map_bytes (cs : List Chunk) : (cs.map Chunk.bytes).flatten = chunkBytes cs := rfl

theorem translateLdrStr_flatten (op imm : BitVec 32) :
    (translateLdrStr op imm).flatten = chunkBytes (ldrStrChunks op imm) := by
  rw [← flatten_map_bytes, ldrStrChunks, List.map_cons, apply_ite (List.map Chunk.bytes)]
  rfl

theorem translateLdpStp_flatten (op imm : BitVec 32) :
    (translateLdpStp op imm).flatten = chunkBytes (ldpStpChunks op imm) := by
  rw [← flatten_map_bytes, ldpStpChunks, List.map_cons, apply_ite (List.map Chunk.bytes)]
  rfl

end Chunks

section Effects

variable {m m' : Machine} {r : ArmReg} {v : BitVec 64} {bs : List Byte}

theorem exec_mov (w : Bool) (dst src : Loc) (m : Machine) :
    Semantics.integer.exec (.mov (opSizeOf w) dst src) m = movAt w dst src m := rfl

theorem exec_loadChunk (x : Byte) (w : Bool) (h : slotAt (m.regs 5) r m = some v) :
    Semantics.integer.exec (loadChunk r x w).instr m =
      some (m.setReg (loadedReg x w) (cut w v)) := by
  rw [loadChunk, exec_mov, movAt_load w _ h]

/-- The store of a register without an extension bit goes through `RBP`. -/
theorem exec_storeChunk {x : Byte} {w : Bool} (hx : (w && decide (8 ≤ x)) = false)
    (h : ∀ i < 8, (m.mem (slotAddr (m.regs 5) r + BitVec.ofNat 64 i)).isSome) :
    Semantics.integer.exec (storeChunk x r w).instr m =
      some { m with
        mem := storedMem m (m.regs 5) r w (cut w (m.regs (gpr false (x.setWidth 3)))) } := by
  rw [storeChunk, exec_mov, storeLoc, hx]
  exact movAt_store w _ h

theorem exec_guestLoad {reg : Byte} {imm : BitVec 32}
    (h : Sparse.load m.mem (m.regs 0 + imm.signExtend 64) 8 = some bs) :
    Semantics.integer.exec (guestLoad reg imm).instr m =
      some (m.setReg (toGpr reg) (Machine.value bs)) := by
  have haddress : m.address (.mem (some 0) none (imm.signExtend 64)) =
      some (m.regs 0 + imm.signExtend 64) := by
    show some (m.regs 0 + 0#64 + imm.signExtend 64) = _
    rw [BitVec.add_zero]
  have hread : m.read64 (.mem (some 0) none (imm.signExtend 64)) = some (Machine.value bs) := by
    show (m.address (.mem (some 0) none (imm.signExtend 64))).bind
      (fun a ↦ (m.load a 8).bind fun bs ↦ some (Machine.value bs)) = _
    rw [haddress, Option.bind_some, Machine.load_eq, h]
    rfl
  show (m.read64 (.mem (some 0) none (imm.signExtend 64))).bind _ = _
  rw [hread]
  rfl

theorem exec_guestStore {reg : Byte} {imm : BitVec 32}
    (h : m.store (m.regs 0 + imm.signExtend 64) (Machine.bytes (m.regs (toGpr reg)) 8) = some m') :
    Semantics.integer.exec (guestStore reg imm).instr m = some m' := by
  have haddress : m.address (.mem (some 0) none (imm.signExtend 64)) =
      some (m.regs 0 + imm.signExtend 64) := by
    show some (m.regs 0 + 0#64 + imm.signExtend 64) = _
    rw [BitVec.add_zero]
  show (m.address (.mem (some 0) none (imm.signExtend 64))).bind
    (fun a ↦ m.store a (Machine.bytes (m.regs (toGpr reg)) 8)) = _
  rw [haddress, Option.bind_some, h]

/-- No `mov` is a jump. -/
theorem sequential_mov (w : Bool) (dst src : Loc) :
    Semantics.integer.Sequential (.mov (opSizeOf w) dst src) := by
  intro m m' h
  have hstore : ∀ {a bs}, m.store a bs = some m' → m'.pos = m.pos := by
    intro a bs h
    rw [Machine.store_eq] at h
    obtain ⟨mem, -, rfl⟩ := Option.map_eq_some_iff.mp h
    rfl
  obtain ⟨v, -, hwrite⟩ := Option.bind_eq_some_iff.mp h
  cases w with
  | true => exact Machine.write64_pos hwrite
  | false =>
    cases dst with
    | reg r =>
      rw [← Option.some.inj hwrite]
      rfl
    | high => cases hwrite
    | mem base index disp =>
      change m.store _ (Machine.bytes v 4) = some m' at hwrite
      exact hstore hwrite
    | rip disp =>
      change m.store _ (Machine.bytes v 4) = some m' at hwrite
      exact hstore hwrite

theorem sequential_ldrStr (op imm : BitVec 32) :
    ∀ c ∈ ldrStrChunks op imm, Semantics.integer.Sequential c.instr := by
  unfold ldrStrChunks
  cases op.getLsbD 22 <;>
    simp only [Bool.false_eq_true, if_false, if_true, List.forall_mem_cons, List.not_mem_nil,
      false_implies, implies_true, and_true]
  · exact ⟨sequential_mov _ _ _, sequential_mov _ _ _, sequential_mov true _ _⟩
  · exact ⟨sequential_mov _ _ _, sequential_mov true _ _, sequential_mov _ _ _⟩

theorem sequential_ldpStp (op imm : BitVec 32) :
    ∀ c ∈ ldpStpChunks op imm, Semantics.integer.Sequential c.instr := by
  unfold ldpStpChunks
  cases op.getLsbD 31 <;>
    simp only [Bool.false_eq_true, if_false, if_true, List.forall_mem_cons, List.not_mem_nil,
      false_implies, implies_true, and_true]
  · exact ⟨sequential_mov _ _ _, sequential_mov _ _ _, sequential_mov true _ _,
      sequential_mov _ _ _, sequential_mov true _ _⟩
  · exact ⟨sequential_mov _ _ _, sequential_mov true _ _, sequential_mov _ _ _,
      sequential_mov true _ _, sequential_mov _ _ _⟩

end Effects

end Arm2x86.Translate
