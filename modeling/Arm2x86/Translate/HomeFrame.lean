import Arm2x86.Translate.HomeAccess
import Arm2x86.X86.Passes

/-!
# Short stores to the home

Code whose stores are all 32-bit stores to the register home leaves the upper halves of the slots.
Such code is put together from the instructions of the translators.
-/

namespace Arm2x86.Translate

open X86

/-- The upper halves of the slots are kept; all memory is mapped, and `RBP` points at the home. -/
def homeFrame (home : BitVec 64) : Frame where
  Ready m := m.regs 5 = home ∧ ∀ a, (m.mem a).isSome
  Keeps m m' := ∀ (r : ArmReg) (i : Nat), 4 ≤ i → i < 8 →
    m'.mem (slotAddr home r + BitVec.ofNat 64 i) = m.mem (slotAddr home r + BitVec.ofNat 64 i)
  ready_pos _ h := h
  refl _ _ _ _ _ _ := rfl
  trans h h' r i hi h8 := (h' r i hi h8).trans (h r i hi h8)

variable {undef : Instr → Machine → Status} {rest : Instr → Machine → Option Machine}
  {home : BitVec 64}

section Operands

variable {m : Machine}

/-- Where all memory is mapped an operand can be read. -/
theorem exists_fetch (hm : ∀ a, (m.mem a).isSome) (size : Size) (loc : Loc)
    (hloc : ∀ r, loc ≠ .high r) : ∃ v, m.fetch size loc = some v := by
  have hvalue : ∀ loc, (∃ a, m.address loc = some a) → ∀ n, ∃ v, ((m.address loc).bind fun a ↦
      (m.load a n).bind fun bs ↦ some (Machine.value bs)) = some v := by
    rintro loc ⟨a, ha⟩ n
    obtain ⟨bs, hbs⟩ := Sparse.exists_load_iff.mpr fun i (_ : i < n) ↦ hm (a + BitVec.ofNat 64 i)
    exists Machine.value bs
    rw [ha, Option.bind_some, Machine.load_eq, hbs]
    rfl
  cases loc with
  | reg r => cases size <;> exact ⟨_, rfl⟩
  | high r => exact absurd rfl (hloc r)
  | mem base index disp =>
    cases size with
    | b8 => exact hvalue (.mem base index disp) ⟨_, rfl⟩ 1
    | b16 => exact hvalue (.mem base index disp) ⟨_, rfl⟩ 2
    | b32 => exact hvalue (.mem base index disp) ⟨_, rfl⟩ 4
    | b64 => exact hvalue (.mem base index disp) ⟨_, rfl⟩ 8
  | rip disp =>
    cases size with
    | b8 => exact hvalue (.rip disp) ⟨_, rfl⟩ 1
    | b16 => exact hvalue (.rip disp) ⟨_, rfl⟩ 2
    | b32 => exact hvalue (.rip disp) ⟨_, rfl⟩ 4
    | b64 => exact hvalue (.rip disp) ⟨_, rfl⟩ 8

/-- A register can be written. -/
theorem exists_put (m : Machine) (size : Size) (v : BitVec 64) (r : Gpr) :
    ∃ v', m.put size v (.reg r) = some (m.setReg r v') := by
  cases size <;> exact ⟨_, rfl⟩

end Operands

section Instructions

/-- An instruction that changes only one register and the flags. -/
def RegOnly (sem : Semantics) (r : Gpr) (i : Instr) : Prop :=
  ∀ m, (∀ a, (m.mem a).isSome) → ∃ m', sem.exec i m = some m' ∧ m'.pos = m.pos ∧ m'.mem = m.mem ∧
    ∀ r' ≠ r, m'.regs r' = m.regs r'

variable {r : Gpr} {src : Loc} {size : Size}

theorem passable_of_regOnly {sem : Semantics} {i : Instr} (h : RegOnly sem r i) (hr : r ≠ 5) :
    Passable sem (homeFrame home) i := by
  intro m hm
  obtain ⟨m', hexec, hpos, hmem, hregs⟩ := h m hm.2
  refine ⟨m', hexec, hpos, ⟨(hregs 5 hr.symm).trans hm.1, ?_⟩, fun _ _ _ _ ↦ ?_⟩
  · rw [hmem]
    exact hm.2
  · rw [hmem]

/-- A result in a register. -/
theorem exists_result (m : Machine) (r : Gpr) (size : Size) (v : BitVec 64) :
    ∃ m', m.put size v (.reg r) = some m' ∧ m'.pos = m.pos ∧ m'.mem = m.mem ∧
      ∀ r' ≠ r, m'.regs r' = m.regs r' := by
  obtain ⟨v', hv'⟩ := exists_put m size v r
  exact ⟨_, hv', rfl, rfl, fun _ hr ↦ if_neg hr⟩

/-- A result in a register, with its flags. -/
theorem exists_resultStatus (m : Machine) (r : Gpr) (size : Size) (v : BitVec size.bits)
    (s : Status) : ∃ m', m.putStatus size v s (.reg r) = some m' ∧ m'.pos = m.pos ∧
      m'.mem = m.mem ∧ ∀ r' ≠ r, m'.regs r' = m.regs r' := by
  obtain ⟨m', hput, hpos, hmem, hregs⟩ := exists_result m r size (v.setWidth 64)
  exact ⟨_, congrArg (Option.map _) hput, hpos, hmem, hregs⟩

theorem regOnly_mov (hsrc : ∀ x, src ≠ .high x) :
    RegOnly (Semantics.core undef rest) r (.mov size (.reg r) src) := by
  intro m hm
  obtain ⟨v, hv⟩ := exists_fetch hm size _ hsrc
  show ∃ m', (m.fetch size src).bind _ = _ ∧ _
  rw [hv]
  exact exists_result m r size v

theorem regOnly_movImm (imm : BitVec 64) :
    RegOnly (Semantics.core undef rest) r (.movImm size (.reg r) imm) :=
  fun m _ ↦ exists_result m r size imm

theorem exists_execAlu {m : Machine} (hm : ∀ a, (m.mem a).isSome) (u : Status) (op : AluOp)
    (size : Size) (b : BitVec 64) :
    ∃ m', m.execAlu u op size (.reg r) b = some m' ∧ m'.pos = m.pos ∧ m'.mem = m.mem ∧
      ∀ r' ≠ r, m'.regs r' = m.regs r' := by
  obtain ⟨a, ha⟩ := exists_fetch hm size (.reg r) nofun
  rw [Machine.execAlu, ha]
  show ∃ m', (if op = .cmp then _ else _) = _ ∧ _
  split
  · exact ⟨_, rfl, rfl, rfl, fun _ _ ↦ rfl⟩
  · exact exists_resultStatus m r size _ _

theorem regOnly_alu (op : AluOp) (hsrc : ∀ x, src ≠ .high x) :
    RegOnly (Semantics.core undef rest) r (.alu op size (.reg r) src) := by
  intro m hm
  obtain ⟨b, hb⟩ := exists_fetch hm size _ hsrc
  show ∃ m', (m.fetch size src).bind _ = _ ∧ _
  rw [hb]
  exact exists_execAlu hm _ op size b

theorem regOnly_aluImm (op : AluOp) (imm : BitVec 64) :
    RegOnly (Semantics.core undef rest) r (.aluImm op size (.reg r) imm) :=
  fun _ hm ↦ exists_execAlu hm _ op size imm

theorem regOnly_test (a b : Gpr) :
    RegOnly (Semantics.core undef rest) r (.test size (.reg a) (.reg b)) := by
  intro m hm
  obtain ⟨v, hv⟩ := exists_fetch hm size (.reg a) nofun
  obtain ⟨v', hv'⟩ := exists_fetch hm size (.reg b) nofun
  show ∃ m', (m.fetch size (.reg b)).bind _ = _ ∧ _
  rw [hv', Option.bind_some, Machine.execTest, hv]
  exact ⟨_, rfl, rfl, rfl, fun _ _ ↦ rfl⟩

theorem regOnly_extend (signed : Bool) (srcSize : Size) (hsrc : ∀ x, src ≠ .high x) :
    RegOnly (Semantics.core undef rest) r (.extend signed size srcSize r src) := by
  intro m hm
  obtain ⟨v, hv⟩ := exists_fetch hm srcSize _ hsrc
  show ∃ m', (m.fetch srcSize src).bind _ = _ ∧ _
  rw [hv]
  exact exists_result m r size _

theorem regOnly_not : RegOnly (Semantics.core undef rest) r (.not size (.reg r)) := by
  intro m hm
  obtain ⟨v, hv⟩ := exists_fetch hm size (.reg r) nofun
  show ∃ m', (m.fetch size (.reg r)).bind _ = _ ∧ _
  rw [hv]
  exact exists_result m r size _

theorem regOnly_neg : RegOnly (Semantics.core undef rest) r (.neg size (.reg r)) := by
  intro m hm
  obtain ⟨v, hv⟩ := exists_fetch hm size (.reg r) nofun
  show ∃ m', (m.fetch size (.reg r)).bind _ = _ ∧ _
  rw [hv]
  exact exists_resultStatus m r size _ _

theorem regOnly_imul (hsrc : ∀ x, src ≠ .high x) :
    RegOnly (Semantics.core undef rest) r (.imul size r src) := by
  intro m hm
  obtain ⟨v, hv⟩ := exists_fetch hm size _ hsrc
  show ∃ m', (m.fetch size src).bind _ = _ ∧ _
  rw [hv]
  exact exists_resultStatus m r size _ _

theorem regOnly_shift {op : ShiftOp} (hop : op ≠ .rcl ∧ op ≠ .rcr) (count : Byte) :
    RegOnly (Semantics.core undef rest) r (.shift op size (.reg r) count) := by
  intro m hm
  obtain ⟨v, hv⟩ := exists_fetch hm size (.reg r) nofun
  have hexec : (Semantics.core undef rest).exec (.shift op size (.reg r) count) m =
      m.execShift (undef (.shift op size (.reg r) count) m) op size (.reg r) count := by
    cases op <;> first
      | rfl
      | exact absurd rfl hop.1
      | exact absurd rfl hop.2
  have hrun : ∀ (old u : Status) (a : BitVec size.bits) (n : Nat), ∃ p, op.run old u a n = some p := by
    intro old u a n
    cases op <;> first
      | exact ⟨_, rfl⟩
      | exact absurd rfl hop.1
      | exact absurd rfl hop.2
  rw [hexec, Machine.execShift, hv]
  show ∃ m', (if count.toNat % (if size = .b64 then 64 else 32) = 0 then m.put size v (.reg r)
    else _) = _ ∧ _
  generalize count.toNat % (if size = .b64 then 64 else 32) = n
  split
  · exact exists_result m r size v
  · obtain ⟨p, hp⟩ := hrun m.status (undef (.shift op size (.reg r) count) m) (size.cut v) n
    rw [hp]
    exact exists_resultStatus m r size p.1 p.2

theorem regOnly_lea (base index disp) :
    RegOnly (Semantics.core undef rest) r (.lea size r (.mem base index disp)) :=
  fun m _ ↦ exists_result m r size _

theorem regOnly_setcc (cc : BitVec 4) :
    RegOnly (Semantics.core undef rest) r (.setcc cc (.reg r)) :=
  fun m _ ↦ exists_result m r .b8 _

theorem regOnly_nop : RegOnly (Semantics.core undef rest) r .nop :=
  fun m _ ↦ ⟨m, rfl, rfl, rfl, fun _ _ ↦ rfl⟩

/-- A vector instruction, where the machine takes no notice of it. -/
theorem regOnly_vector (hrest : ∀ m, rest .vector m = some m) :
    RegOnly (Semantics.core undef rest) r .vector :=
  fun m _ ↦ ⟨m, hrest m, rfl, rfl, fun _ _ ↦ rfl⟩

end Instructions

section Code

theorem passes_load (r : ArmReg) {x : Byte} {w : Bool} (hx : loadedReg x w ≠ 5) :
    Passes (Semantics.core undef rest) (homeFrame home) (emitLoadArmReg r x w) := by
  apply passes_chunk (loadChunk r x w)
  exact passable_of_regOnly (regOnly_mov nofun) hx

/-- A short store to a slot. -/
theorem passes_store32 (x : Byte) (r : ArmReg) :
    Passes (Semantics.core undef rest) (homeFrame home) (emitStoreArmReg x r false) := by
  apply passes_chunk (storeChunk x r false)
  rintro m ⟨hbase, hmapped⟩
  have hexec : (Semantics.core undef rest).exec (storeChunk x r false).instr m =
      some { m with
        mem := storedMem m (m.regs 5) r false (cut false (m.regs (gpr false (x.setWidth 3)))) } := by
    rw [← movAt_store false _ fun i _ ↦ hmapped _]
    have hmov : ∀ dst src, (Semantics.core undef rest).exec (.mov .b32 dst src) m =
        movAt false dst src m := fun _ _ ↦ rfl
    have hslot : storeLoc x r false = .mem (some 5) none (BitVec.ofNat 64 (8 * r)) := by
      rw [storeLoc, Bool.false_and]
      rfl
    rw [← hslot]
    exact hmov _ _
  refine ⟨_, hexec, rfl, ⟨hbase, fun a ↦ ?_⟩, ?_⟩
  · show Option.isSome (Sparse.overwrite m.mem _ _ a) = true
    rw [Sparse.overwrite, Option.isSome_or, hmapped a, Bool.or_true]
  · intro r' i hi h8
    apply Sparse.overwrite_of_notMem
    rw [Machine.length_bytes, hbase]
    by_cases hr : r' = r
    · rw [hr, Region.mem_iff, BitVec.add_comm, BitVec.add_sub_cancel, BitVec.toNat_ofNat]
      show ¬ i % 2 ^ 64 < 4
      omega
    · exact slot_notMem_slot home hr h8 (by decide)

/-- Code of the translators that keeps the upper halves of the slots. -/
def KeepsUpper (undef : Instr → Machine → Status) (rest : Instr → Machine → Option Machine)
    (code : List Code) : Prop :=
  ∀ home, Passes (Semantics.core undef rest) (homeFrame home) code.flatten

variable {code code' : List Code} {c : Code}

theorem keepsUpper_nil : KeepsUpper undef rest [] := fun _ ↦ passes_nil

theorem KeepsUpper.append (h : KeepsUpper undef rest code) (h' : KeepsUpper undef rest code') :
    KeepsUpper undef rest (code ++ code') := by
  intro home
  rw [List.flatten_append]
  exact (h home).append (h' home)

theorem KeepsUpper.cons (h : KeepsUpper undef rest [c]) (h' : KeepsUpper undef rest code) :
    KeepsUpper undef rest (c :: code) := h.append h'

theorem keepsUpper_instr {i : Instr} {r : Gpr} (hdec : ∀ tail, X86.decode (c ++ tail) = some (i, tail))
    (h : RegOnly (Semantics.core undef rest) r i) (hr : r ≠ 5) : KeepsUpper undef rest [c] := by
  intro home
  rw [List.flatten_singleton]
  exact passes_decode hdec (passable_of_regOnly h hr)

theorem keepsUpper_load (r : ArmReg) {x : Byte} {w : Bool} (hx : loadedReg x w ≠ 5) :
    KeepsUpper undef rest [emitLoadArmReg r x w] := by
  intro home
  rw [List.flatten_singleton]
  exact passes_load r hx

theorem keepsUpper_load_rax (r : ArmReg) (w : Bool) :
    KeepsUpper undef rest [emitLoadArmReg r rax w] :=
  keepsUpper_load r (by cases w <;> decide)

theorem keepsUpper_load_r11 (r : ArmReg) (w : Bool) :
    KeepsUpper undef rest [emitLoadArmReg r r11 w] :=
  keepsUpper_load r (by cases w <;> decide)

theorem keepsUpper_store (x : Byte) (r : ArmReg) :
    KeepsUpper undef rest [emitStoreArmReg x r false] := by
  intro home
  rw [List.flatten_singleton]
  exact passes_store32 x r

theorem keepsUpper_viaRax (rn rd : ArmReg) (h : KeepsUpper undef rest code) :
    KeepsUpper undef rest (viaRax rn rd false code) :=
  (keepsUpper_load_rax rn false).cons (h.append (keepsUpper_store rax rd))

theorem keepsUpper_loadPair (rn rm : ArmReg) (w : Bool) :
    KeepsUpper undef rest (loadPair rn rm w) :=
  (keepsUpper_load_rax rn w).cons (keepsUpper_load_r11 rm w)

theorem keepsUpper_viaRaxR11 (rn rm rd : ArmReg) (h : KeepsUpper undef rest code) :
    KeepsUpper undef rest (viaRaxR11 rn rm rd false code) :=
  ((keepsUpper_loadPair rn rm false).append h).append (keepsUpper_store rax rd)

theorem keepsUpper_jccOver {opcode : Byte} (hop : opcode &&& 0xf0 = 0x80)
    (hlen : code.flatten.length < 2 ^ 31) (h : KeepsUpper undef rest code) :
    KeepsUpper undef rest (jccOver opcode code) :=
  fun home ↦ (h home).jccOver hop hlen

end Code

end Arm2x86.Translate
