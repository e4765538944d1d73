import Arm2x86.Arm32.Conditions
import Arm2x86.X86.Validity

/-!
# Loads and stores of several registers

`translate_arm32_ldm_stm` against what the instructions do to the registers and the memory of a guest
of 32 bits, with the memory that the emitted code touches on the way.
-/

namespace Arm2x86.X86

section Accesses

/-- The operands of an instruction with their sizes. Those of vector instructions are not kept by
the decoder. -/
def Instr.operands : Instr → List (Size × Loc)
  | .alu _ size dst src | .mov size dst src | .test size dst src => [(size, dst), (size, src)]
  | .aluImm _ size dst _ | .movImm size dst _ | .testImm size dst _ | .not size dst | .neg size dst
  | .shift _ size dst _ | .incDec _ size dst | .bitTest size dst _ | .xchg size dst _
  | .xadd size dst _ | .cmpxchg size dst _ => [(size, dst)]
  | .mulWide _ size src | .divWide _ size src | .imul size _ src | .countZeros size _ src
  | .cmov _ size _ src | .crc32 size _ src | .extend _ _ size _ src => [(size, src)]
  | .setcc _ dst => [(.b8, dst)]
  | .jmpLoc target | .callLoc target => [(.b64, target)]
  | _ => []

/-- Where an instruction that uses the stack reads or writes it. -/
def Instr.stackAccess (m : Machine) : Instr → List (BitVec 64 × Nat)
  | .push _ | .pushf | .call _ | .callLoc _ => [(m.regs 4 - 8, 8)]
  | .pop _ | .popf | .ret => [(m.regs 4, 8)]
  | .leave => [(m.regs 5, 8)]
  | _ => []

/-- The memory that an instruction touches: addresses, and numbers of bytes. -/
def Instr.accesses (i : Instr) (m : Machine) : List (BitVec 64 × Nat) :=
  (i.operands.filterMap fun (size, loc) ↦ (m.address loc).map fun a ↦ (a, size.bits / 8)) ++
    i.stackAccess m

/-- The memory that some instructions of the code touch. -/
def Semantics.accesses (sem : Semantics) (code : List Byte) : Nat → Machine → List (BitVec 64 × Nat)
  | 0, _ => []
  | n + 1, m =>
    let bs := code.drop m.pos
    match decode bs with
    | none => []
    | some (i, rest) =>
      let m₁ := { m with pos := m.pos + (bs.length - rest.length) }
      i.accesses m₁ ++ (sem.exec i m₁).elim [] (sem.accesses code n)

theorem Semantics.accesses_of_decode (sem : Semantics) {code bs : List Byte} {n : Nat} {m : Machine}
    {i : Instr} (hdec : decode (code.drop m.pos) = some (i, bs)) :
    let m₁ := { m with pos := m.pos + ((code.drop m.pos).length - bs.length) }
    sem.accesses code (n + 1) m = i.accesses m₁ ++ (sem.exec i m₁).elim [] (sem.accesses code n) := by
  rw [Semantics.accesses, hdec]

/-- An instruction that touches no memory. -/
theorem Semantics.accesses_one (sem : Semantics) {code bs : List Byte} {m : Machine} {i : Instr}
    (hdec : decode (code.drop m.pos) = some (i, bs)) (h : ∀ m, i.accesses m = []) :
    sem.accesses code 1 m = [] := by
  rw [sem.accesses_of_decode hdec, h, List.nil_append]
  cases sem.exec i { m with pos := m.pos + ((code.drop m.pos).length - bs.length) } <;> rfl

end Accesses

end Arm2x86.X86

namespace Arm2x86.Arm32

open X86

section Architecture

/-- The registers and the memory of a guest. -/
structure State where
  regs : BitVec 4 → BitVec 32
  mem : BitVec 32 → Option Byte

namespace State

variable (s : State)

def setReg (r : BitVec 4) (v : BitVec 32) : State :=
  { s with regs := fun r' ↦ if r' = r then v else s.regs r' }

/-- A word of memory. -/
def load (a : BitVec 32) : Option (BitVec 32) := do
  let b₀ ← s.mem a
  let b₁ ← s.mem (a + 1)
  let b₂ ← s.mem (a + 2)
  let b₃ ← s.mem (a + 3)
  return b₃ ++ b₂ ++ b₁ ++ b₀

/-- A word to memory that is mapped. -/
def store (a v : BitVec 32) : Option State :=
  (s.load a).map fun _ ↦ { s with mem := fun q ↦ ((imm32 v)[(q - a).toNat]?).or (s.mem q) }

end State

/-- The registers of a list in ascending order. -/
def listed (op : BitVec 32) : List (BitVec 4) :=
  registers.filter fun r ↦ (op.extractLsb' 0 16).getLsbD r.toNat

/-- The bytes that are transferred. -/
def span (op : BitVec 32) : BitVec 32 := BitVec.ofNat 32 (4 * (listed op).length)

/-- The lowest address, by bits 24 (before) and 23 (up). -/
def startAddress (op base : BitVec 32) : BitVec 32 :=
  if op.getLsbD 23 then
    if op.getLsbD 24 then base + 4 else base
  else
    if op.getLsbD 24 then base - span op else base - span op + 4

/-- The addresses of the words, one for each register. -/
def addresses (op base : BitVec 32) : List (BitVec 32) :=
  (List.range (listed op).length).map fun i ↦ startAddress op base + BitVec.ofNat 32 (4 * i)

/-- The transfers one after the other. What is stored is the registers of the state in front of
them. -/
def transfer (isLoad : Bool) (regs : BitVec 4 → BitVec 32) :
    List (BitVec 4 × BitVec 32) → State → Option State
  | [], s => some s
  | (r, a) :: rest, s => do
    let s' ← if isLoad then (s.load a).map (s.setReg r) else s.store a (regs r)
    transfer isLoad regs rest s'

/-- What a load or store of several registers does. -/
def multipleStep (op : BitVec 32) (s : State) : Option State := do
  let rn := op.extractLsb' 16 4
  let base := s.regs rn
  let s' ← transfer (op.getLsbD 20) s.regs ((listed op).zip (addresses op base)) s
  return if op.getLsbD 21 then
      s'.setReg rn (if op.getLsbD 23 then base + span op else base - span op)
    else s'

end Architecture

section Translation

/-- A machine that holds a guest: each register in the lower half of its host register, with zeros
above it, and the memory at the lowest addresses. -/
structure Represents (m : Machine) (s : State) : Prop where
  regs : ∀ r, m.regs (toGpr (mapRegisterArm32 r)) = (s.regs r).setWidth 64
  mem : ∀ a : BitVec 32, m.mem (a.setWidth 64) = s.mem a

variable (undef : Instr → Machine → Status) (rest : Instr → Machine → Option Machine)

/-- What the code of a load or store of several registers has to do, from every state in which the
instruction succeeds: it comes to its end in the state behind the instruction, and on the way it
touches the four bytes of each word in ascending order and nothing else. -/
structure TransfersMultiple (op : BitVec 32) : Prop where
  valid : Valid (translateArm32LdmStm op)
  run : ∀ m s s', Represents m s → multipleStep op s = some s' →
    ∃ n m', (Semantics.core undef rest).steps (translateArm32LdmStm op) n { m with pos := 0 } = some m' ∧
      m'.pos = (translateArm32LdmStm op).length ∧ Represents m' s' ∧
      (Semantics.core undef rest).accesses (translateArm32LdmStm op) n { m with pos := 0 } =
        (addresses op (s.regs (op.extractLsb' 16 4))).map fun a ↦ (a.setWidth 64, 4)

end Translation

section FirstMove

variable {isLoad : Bool} {xr xrn : Byte} {offset : BitVec 32}

/-- The operand behind a `sib` byte without an index has a base or a displacement. -/
theorem takeRm_noIndex {p : Prefixes} (hx : p.x = false) (reg base : Byte) (offset : BitVec 32)
    (tail : List Byte) : ∃ b disp bs,
      takeRm p .b64 (modrm 0 reg 4 :: sib 0 4 base :: (imm32 offset ++ tail)) =
        some (.mem b none disp, bs) := by
  have hindex : gpr p.x ((sib 0 4 base).extractLsb' 3 3) = 4 := by
    rw [hx, sib, ← modrm, modrm_reg]
    rfl
  have hsib : takeRm p .b64 (modrm 0 reg 4 :: sib 0 4 base :: (imm32 offset ++ tail)) =
      takeSib p 0 (sib 0 4 base :: (imm32 offset ++ tail)) := by
    rw [takeRm]
    simp
  rw [hsib, takeSib]
  simp only [hindex, beq_self_eq_true, if_true]
  split
  · rw [take32_imm32]
    exact ⟨_, _, _, rfl⟩
  · exact ⟨_, _, _, rfl⟩

/-- A move is one of eight bytes. -/
theorem decode_multipleMove (isLoad : Bool) (xr xrn : Byte) (offset : BitVec 32) (tail : List Byte) :
    ∃ dst src bs,
    decode (multipleMove isLoad xr xrn offset ++ tail) = some (.mov .b64 dst src, bs) ∧
      ∀ m, ∃ a, (Instr.mov .b64 dst src).accesses m = [(a, 8)] := by
  have hx : (rexPrefixes xr xrn).x = false := by
    have hmem := rexR_mem xr xrn
    simp only [List.mem_cons, List.not_mem_nil, or_false] at hmem
    rcases hmem with h | h | h | h <;> rw [rexPrefixes, h] <;> rfl
  obtain ⟨b, disp, bs, hrm⟩ := takeRm_noIndex hx (xr &&& 7) (xrn &&& 7) offset tail
  have hcode : multipleMove isLoad xr xrn offset ++ tail = rexR xr xrn ::
      (if isLoad then 0x8b else 0x89) ::
        (modrm 0 (xr &&& 7) 4 :: sib 0 4 (xrn &&& 7) :: (imm32 offset ++ tail)) := rfl
  rw [hcode]
  simp only [BitVec.ofNat_eq_ofNat] at hrm
  cases isLoad
  · refine ⟨.mem b none disp, .reg (toGpr xr), bs, ?_, fun m ↦ ⟨_, rfl⟩⟩
    unfold decode
    rw [takePrefixes_rexR _ _ rfl]
    simp [decodeOpcode, opSize, hrm, X86.regAt, takeReg]
  · refine ⟨.reg (toGpr xr), .mem b none disp, bs, ?_, fun m ↦ ⟨_, rfl⟩⟩
    unfold decode
    rw [takePrefixes_rexR _ _ rfl]
    simp [decodeOpcode, opSize, hrm, X86.regAt, takeReg]

/-- Code that starts with a move and comes to an end touches eight bytes first. -/
theorem accesses_multipleMove {sem : Semantics} {code tail : List Byte} {m m' : Machine} {n : Nat}
    (hcode : code = multipleMove isLoad xr xrn offset ++ tail) (hpos : m.pos = 0)
    (hsteps : sem.steps code n m = some m') (hend : m'.pos = code.length) :
    ∃ a more, sem.accesses code n m = (a, 8) :: more := by
  obtain ⟨dst, src, bs, hdec, haccess⟩ := decode_multipleMove isLoad xr xrn offset tail
  cases n with
  | zero =>
    have hlen : 0 < code.length := by simp [hcode, multipleMove]
    cases hsteps
    omega
  | succ n =>
    have hdec' : decode (code.drop m.pos) = some (.mov .b64 dst src, bs) := by
      rw [hpos, List.drop_zero, hcode, hdec]
    obtain ⟨a, ha⟩ := haccess { m with pos := m.pos + ((code.drop m.pos).length - bs.length) }
    exact ⟨a, _, (sem.accesses_of_decode hdec').trans (congrArg (· ++ _) ha)⟩

end FirstMove

section Lists

variable {op : BitVec 32}

theorem listed_eq_nil_iff : listed op = [] ↔ op.extractLsb' 0 16 = 0 := by
  rw [regList_eq_zero_iff, listed, List.filter_eq_nil_iff]
  simp

/-- Where all memory is mapped the transfers succeed. -/
theorem exists_transfer (isLoad : Bool) (regs : BitVec 4 → BitVec 32)
    (rs : List (BitVec 4 × BitVec 32)) (s : State) (h : ∀ q, (s.mem q).isSome) :
    ∃ s', transfer isLoad regs rs s = some s' := by
  induction rs generalizing s with
  | nil => exact ⟨s, rfl⟩
  | cons ra rs ih =>
    obtain ⟨r, a⟩ := ra
    have hload : ∃ v, s.load a = some v := by
      obtain ⟨b₀, h₀⟩ := Option.isSome_iff_exists.mp (h a)
      obtain ⟨b₁, h₁⟩ := Option.isSome_iff_exists.mp (h (a + 1))
      obtain ⟨b₂, h₂⟩ := Option.isSome_iff_exists.mp (h (a + 2))
      obtain ⟨b₃, h₃⟩ := Option.isSome_iff_exists.mp (h (a + 3))
      exists b₃ ++ b₂ ++ b₁ ++ b₀
      rw [State.load, h₀, h₁, h₂, h₃]
      rfl
    obtain ⟨v, hv⟩ := hload
    cases isLoad with
    | true =>
      obtain ⟨s', hs'⟩ := ih (s.setReg r v) h
      exact ⟨s', by simpa [transfer, hv] using hs'⟩
    | false =>
      let s₁ : State := { s with mem := fun q ↦ ((imm32 (regs r))[(q - a).toNat]?).or (s.mem q) }
      have hstore : s.store a (regs r) = some s₁ := by
        rw [State.store, hv]
        rfl
      have hmapped : ∀ q, (s₁.mem q).isSome := by
        intro q
        simp [s₁, h q]
      obtain ⟨s', hs'⟩ := ih s₁ hmapped
      exists s'
      rw [transfer, if_neg Bool.false_ne_true, hstore]
      exact hs'

end Lists

section Exactness

variable (undef : Instr → Machine → Status) (rest : Instr → Machine → Option Machine)
variable {op : BitVec 32}

/-- A guest of zeros with all memory mapped. -/
def zeroGuest : State := ⟨fun _ ↦ 0, fun _ ↦ some 0⟩

def zeroHost : Machine := ⟨fun _ ↦ 0, 0, fun _ ↦ 0, fun _ ↦ some 0, 0, 0⟩

theorem represents_zero : Represents zeroHost zeroGuest := ⟨fun _ ↦ rfl, fun _ ↦ rfl⟩

/-- The code of a list that is not empty starts with a move at the base. -/
theorem translateArm32LdmStm_starts (h : op.extractLsb' 0 16 ≠ 0) :
    ∃ r tail, translateArm32LdmStm op = multipleMove (op.getLsbD 20) (mapRegisterArm32 r)
      (mapRegisterArm32 (op.extractLsb' 16 4)) 0 ++ tail := by
  have hlist : ∃ r ∈ registers, (op.extractLsb' 0 16).getLsbD r.toNat = true := by
    simpa using mt regList_eq_zero_iff.mpr h
  have hloop : ∃ r tail, (multipleLoop (op.getLsbD 20) (mapRegisterArm32 (op.extractLsb' 16 4))
      (op.extractLsb' 0 16) registers 0).1 = multipleMove (op.getLsbD 20) (mapRegisterArm32 r)
        (mapRegisterArm32 (op.extractLsb' 16 4)) 0 ++ tail := multipleLoop_of_some hlist
  obtain ⟨r, tail, htail⟩ := hloop
  rw [translateArm32LdmStm]
  dsimp only
  rw [htail, List.append_assoc]
  exact ⟨r, _, rfl⟩

/-- The first access of a list that is not empty has eight bytes. -/
theorem not_transfersMultiple (h : op.extractLsb' 0 16 ≠ 0) : ¬ TransfersMultiple undef rest op := by
  intro htransfers
  obtain ⟨s₁, hs₁⟩ := exists_transfer (op.getLsbD 20) zeroGuest.regs
    ((listed op).zip (addresses op (zeroGuest.regs (op.extractLsb' 16 4)))) zeroGuest (fun _ ↦ rfl)
  obtain ⟨n, m', hsteps, hend, -, haccesses⟩ := htransfers.run zeroHost zeroGuest _ represents_zero
    (by rw [multipleStep, hs₁]; rfl)
  obtain ⟨r, tail, hcode⟩ := translateArm32LdmStm_starts h
  obtain ⟨a, more, hfirst⟩ := accesses_multipleMove hcode rfl hsteps hend
  have hmem : (a, 8) ∈ (addresses op (zeroGuest.regs (op.extractLsb' 16 4))).map
      fun a ↦ (a.setWidth 64, 4) := by
    rw [← haccesses, hfirst]
    exact List.mem_cons_self
  obtain ⟨b, -, hb⟩ := List.mem_map.mp hmem
  have hwidth : 4 = 8 := congrArg Prod.snd hb
  cases hwidth

/-- The update by nothing. The prefix has no bit for the register. -/
theorem decode_addR64Imm8_zero (r : BitVec 4) (tail : List Byte) :
    decode (addR64Imm8 (mapRegisterArm32 r) 0 ++ tail) =
      some (.aluImm .add .b32 (.reg (gpr false ((mapRegisterArm32 r).setWidth 3))) 0, tail) := by
  have hrex : ∀ r, rexRm 1 (mapRegisterArm32 r >>> 3) = 0x40 := by decide
  rw [addR64Imm8, hrex, decode]
  simp only [List.cons_append, List.nil_append]
  rw [takePrefixes_rex _ rfl, takePrefixes_opcode rfl]
  simp [decodeOpcode, takeRm, takeExt, opSize, Prefixes.size, Prefixes.w, Prefixes.b, Prefixes.none,
    take8, aluOp, and_seven_field]

/-- Every host register holds a guest register. -/
theorem exists_mapRegisterArm32 (g : Gpr) : ∃ r, toGpr (mapRegisterArm32 r) = g := by
  have key : ∀ g : Gpr, ∃ r, toGpr (mapRegisterArm32 r) = g := by decide
  exact key g

/-- Adding nothing to the lower half of a register of a guest. -/
theorem exec_addNothing {m : Machine} {s : State} (h : Represents m s) (g : Gpr) :
    ∃ m', (Semantics.core undef rest).exec (.aluImm .add .b32 (.reg g) 0) m = some m' ∧
      m'.pos = m.pos ∧ Represents m' s := by
  obtain ⟨r, hr⟩ := exists_mapRegisterArm32 g
  have hlow : ((m.regs g).setWidth 32).setWidth 64 = m.regs g := by
    rw [← hr, h.regs r]
    simp
  refine ⟨_, rfl, rfl, fun r' ↦ ?_, h.mem⟩
  rw [Machine.regs_setStatus, Machine.regs_setReg]
  split
  · next heq =>
    have hsum : (((m.regs g).setWidth 32).setWidth 64).setWidth 32 + 0#32 = (m.regs g).setWidth 32 := by
      rw [hlow, BitVec.add_zero]
    rw [← h.regs r', heq]
    show (((((m.regs g).setWidth 32).setWidth 64).setWidth 32 + 0#32).setWidth 64 |>.setWidth 32
      |>.setWidth 64) = m.regs g
    rw [hsum, hlow, hlow]
  · exact h.regs r'

theorem multipleStep_of_empty (h : op.extractLsb' 0 16 = 0) (s : State) :
    multipleStep op s = some s := by
  have hnil : listed op = [] := listed_eq_nil_iff.mpr h
  have hspan : span op = 0 := by rw [span, hnil]; rfl
  have hself : s.setReg (op.extractLsb' 16 4) (s.regs (op.extractLsb' 16 4)) = s := by
    rw [State.setReg]
    congr 1
    ext r : 1
    split
    · next hr => rw [hr]
    · rfl
  rw [multipleStep, hnil, hspan]
  simp [transfer, hself]

theorem transfersMultiple_of_empty (h : op.extractLsb' 0 16 = 0) :
    TransfersMultiple undef rest op := by
  have hcode : translateArm32LdmStm op = [] ∨
      translateArm32LdmStm op = addR64Imm8 (mapRegisterArm32 (op.extractLsb' 16 4)) 0 := by
    rw [translateArm32LdmStm, multipleLoop_of_none (regList_eq_zero_iff.mp h)]
    dsimp only
    split
    · exact .inr rfl
    · exact .inl rfl
  have hnone : ∀ base, addresses op base = [] := by
    intro base
    rw [addresses, listed_eq_nil_iff.mpr h]
    rfl
  constructor
  · rcases hcode with hcode | hcode
    · rw [hcode]
      rfl
    · have hdec := decode_addR64Imm8_zero (op.extractLsb' 16 4) []
      rw [List.append_nil] at hdec
      have hlocked : ∀ r, locked (addR64Imm8 (mapRegisterArm32 r) 0) = false := by decide
      rw [hcode, Valid]
      show valid 4 _ = true
      rw [valid, hdec, hlocked]
      rfl
  · intro m s s' hrep hstep
    rw [multipleStep_of_empty h, Option.some_inj] at hstep
    subst hstep
    rw [hnone]
    rcases hcode with hcode | hcode
    · rw [hcode]
      exact ⟨0, _, rfl, rfl, ⟨hrep.regs, hrep.mem⟩, rfl⟩
    · have hdec := decode_addR64Imm8_zero (op.extractLsb' 16 4)
      have hstep : (Semantics.core undef rest).step _ { m with pos := 0 } = _ :=
        Semantics.step_chunk ⟨_, _, hdec⟩ (at_self _)
      obtain ⟨m', hexec, hpos, hrep'⟩ := exec_addNothing undef rest
        (m := { m with pos := 4 }) ⟨hrep.regs, hrep.mem⟩
        (gpr false ((mapRegisterArm32 (op.extractLsb' 16 4)).setWidth 3))
      rw [hcode]
      refine ⟨1, m', ?_, hpos, hrep', ?_⟩
      · rw [Semantics.steps, hstep.trans hexec]
        rfl
      · have hdec' := hdec []
        rw [List.append_nil] at hdec'
        exact Semantics.accesses_one _ (m := { m with pos := 0 }) hdec' fun _ ↦ rfl

/-- Only where there is nothing to transfer does the code do what it has to. -/
theorem transfersMultiple_iff (op : BitVec 32) :
    TransfersMultiple undef rest op ↔ op.extractLsb' 0 16 = 0 := by
  constructor
  · intro h
    by_contra hne
    exact not_transfersMultiple undef rest hne h
  · exact transfersMultiple_of_empty undef rest

/-- `ldmia r0, {r1, r2}`. -/
theorem ldmia_not_transferred :
    ¬ TransfersMultiple (fun _ m ↦ m.status) (fun _ _ ↦ none) 0xe8900006 :=
  not_transfersMultiple _ _ (by decide)

end Exactness

end Arm2x86.Arm32
