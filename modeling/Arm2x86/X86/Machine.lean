import Arm2x86.X86.Isa

/-!
# An x86-64 machine

General registers, flags, vector registers and byte memory, of which an address that is not mapped
has no contents. The code that runs is read-only and kept apart, so a store to it faults like one to
unmapped memory. What an instruction does is a parameter of the machine, with the documented
behaviour of the 64-bit `mov`; an interpreter of the integer instructions without control flow is
one such parameter.
-/

namespace Arm2x86.X86

/-- A state. `pos` is the offset of the next instruction from the start of the code at `codeBase`. -/
structure Machine where
  regs : Gpr → BitVec 64
  flags : BitVec 64
  vectors : BitVec 4 → BitVec 128
  mem : BitVec 64 → Option Byte
  codeBase : BitVec 64
  pos : Nat

namespace Machine

variable (m : Machine)

/-- The `n` bytes from an address on, unless one is not mapped. -/
def load (a : BitVec 64) (n : Nat) : Option (List Byte) :=
  (List.range n).mapM fun i ↦ m.mem (a + BitVec.ofNat 64 i)

/-- The bytes from an address on are replaced, unless one is not mapped. -/
def store (a : BitVec 64) (bs : List Byte) : Option Machine := do
  let _ ← m.load a bs.length
  return { m with mem := fun q ↦ (bs[(q - a).toNat]?).or (m.mem q) }

/-- The value of little-endian bytes. -/
def value : List Byte → BitVec 64
  | [] => 0
  | b :: bs => (value bs <<< 8) ||| b.setWidth 64

/-- The `n` low bytes of a value. -/
def bytes (v : BitVec 64) (n : Nat) : List Byte := (List.range n).map fun i ↦ v.extractLsb' (8 * i) 8

/-- The address of a memory operand. Displacements from `RIP` count from the next instruction. -/
def address : Loc → Option (BitVec 64)
  | .mem base index disp =>
    some ((base.elim 0 m.regs) + (index.elim 0 fun (r, scale) ↦ m.regs r <<< scale.toNat) + disp)
  | .rip disp => some (m.codeBase + BitVec.ofNat 64 m.pos + disp)
  | _ => none

def setReg (r : Gpr) (v : BitVec 64) : Machine :=
  { m with regs := fun r' ↦ if r' = r then v else m.regs r' }

/-- A 64-bit operand. -/
def read64 : Loc → Option (BitVec 64)
  | .reg r => some (m.regs r)
  | .high _ => none
  | loc => do return value (← m.load (← m.address loc) 8)

/-- A 64-bit result. -/
def write64 (v : BitVec 64) : Loc → Option Machine
  | .reg r => some (m.setReg r v)
  | .high _ => none
  | loc => do m.store (← m.address loc) (bytes v 8)

/-- The 64-bit `mov`. -/
def mov (dst src : Loc) : Option Machine := (m.read64 src).bind fun v ↦ m.write64 v dst

/-- A 32-bit operand, with zeros above it. -/
def read32 : Loc → Option (BitVec 64)
  | .reg r => some ((m.regs r).setWidth 32 |>.setWidth 64)
  | .high _ => none
  | loc => do return value (← m.load (← m.address loc) 4)

/-- A 32-bit result; in a register it clears the upper half. -/
def write32 (v : BitVec 64) : Loc → Option Machine
  | .reg r => some (m.setReg r (v.setWidth 32 |>.setWidth 64))
  | .high _ => none
  | loc => do m.store (← m.address loc) (bytes v 4)

/-- An operand of one of the two full sizes. -/
def read (size : Size) (loc : Loc) : Option (BitVec 64) :=
  match size with
  | .b64 => m.read64 loc
  | .b32 => m.read32 loc
  | _ => none

/-- A result of one of the two full sizes. -/
def write (size : Size) (v : BitVec 64) (loc : Loc) : Option Machine :=
  match size with
  | .b64 => m.write64 v loc
  | .b32 => m.write32 v loc
  | _ => none

end Machine

/-- What instructions do to a state whose position is behind them already. -/
structure Semantics where
  exec : Instr → Machine → Option Machine
  mov : ∀ dst src m, exec (.mov .b64 dst src) m = m.mov dst src

/-- The arithmetic without carries. -/
def AluOp.apply : AluOp → BitVec 64 → BitVec 64 → Option (BitVec 64)
  | .add, a, b => some (a + b)
  | .or, a, b => some (a ||| b)
  | .and, a, b => some (a &&& b)
  | .sub, a, b => some (a - b)
  | .xor, a, b => some (a ^^^ b)
  | _, _, _ => none

/-- The integer instructions without control flow. None of them reads the flags, so what they leave
in the flags is not computed. -/
def Semantics.integer : Semantics where
  exec i m :=
    match i with
    | .mov size dst src => do m.write size (← m.read size src) dst
    | .movImm size dst imm => m.write size imm dst
    | .alu op size dst src => do m.write size (← op.apply (← m.read size dst) (← m.read size src)) dst
    | .aluImm op size dst imm => do m.write size (← op.apply (← m.read size dst) imm) dst
    | .not size dst => do m.write size (~~~ (← m.read size dst)) dst
    | .imul size dst src => do m.write size (m.regs dst * (← m.read size src)) (.reg dst)
    | .nop => some m
    | _ => none
  mov _ _ _ := rfl

/-- One instruction of the code. -/
def Semantics.step (sem : Semantics) (code : List Byte) (m : Machine) : Option Machine := do
  let bs := code.drop m.pos
  let (i, rest) ← decode bs
  sem.exec i { m with pos := m.pos + (bs.length - rest.length) }

/-- Some instructions of the code. -/
def Semantics.steps (sem : Semantics) (code : List Byte) : Nat → Machine → Option Machine
  | 0, m => some m
  | n + 1, m => (sem.step code m).bind (sem.steps code n)

theorem Semantics.steps_add (sem : Semantics) (code : List Byte) (n k : Nat) (m : Machine) :
    sem.steps code (n + k) m = (sem.steps code n m).bind (sem.steps code k) := by
  induction n generalizing m with
  | zero =>
    rw [Nat.zero_add]
    rfl
  | succ n ih =>
    rw [Nat.succ_add, steps, steps]
    cases sem.step code m with
    | none => rfl
    | some m' => exact ih m'

/-- An instruction at the position of a state. -/
theorem Semantics.step_of_decode (sem : Semantics) {code chunk rest : List Byte} {i : Instr}
    {m : Machine} (hcode : code.drop m.pos = chunk ++ rest)
    (hdec : decode (chunk ++ rest) = some (i, rest)) :
    sem.step code m = sem.exec i { m with pos := m.pos + chunk.length } := by
  have hlen : (chunk ++ rest).length - rest.length = chunk.length := by
    rw [List.length_append, Nat.add_sub_cancel]
  simp only [step, hcode, hdec, Option.bind_eq_bind, Option.bind_some, hlen]

theorem Machine.write64_pos {m m' : Machine} {v : BitVec 64} {dst : Loc}
    (h : m.write64 v dst = some m') : m'.pos = m.pos := by
  have hstore : ∀ {a bs}, m.store a bs = some m' → m'.pos = m.pos := by
    intro a bs h
    obtain ⟨_, -, h⟩ := Option.bind_eq_some_iff.mp h
    rw [← Option.some.inj h]
  cases dst with
  | reg r =>
    rw [← Option.some.inj h]
    rfl
  | high => cases h
  | mem base index disp =>
    change m.store _ (bytes v 8) = some m' at h
    exact hstore h
  | rip disp =>
    change m.store _ (bytes v 8) = some m' at h
    exact hstore h

/-- A 64-bit `mov` with its bytes. -/
structure MovCode where
  bytes : List Byte
  dst : Loc
  src : Loc

/-- Straight code of 64-bit `mov`s. -/
def runMovs : List MovCode → Machine → Option Machine
  | [], m => some m
  | c :: cs, m => ({ m with pos := m.pos + c.bytes.length }.mov c.dst c.src).bind (runMovs cs)

/-- Such code runs as its `mov`s do, whatever the other instructions do. -/
theorem Semantics.steps_movs (sem : Semantics) {code rest : List Byte} {movs : List MovCode}
    (hdec : ∀ c ∈ movs, ∀ rest, decode (c.bytes ++ rest) = some (.mov .b64 c.dst c.src, rest))
    {m : Machine} (hcode : code.drop m.pos = movs.flatMap MovCode.bytes ++ rest) :
    sem.steps code movs.length m = runMovs movs m := by
  induction movs generalizing m with
  | nil => rfl
  | cons c cs ih =>
    rw [List.forall_mem_cons] at hdec
    rw [List.flatMap_cons, List.append_assoc] at hcode
    have hstep := sem.step_of_decode hcode (hdec.1 _)
    rw [sem.mov] at hstep
    rw [List.length_cons, steps, runMovs, hstep]
    cases hmov : { m with pos := m.pos + c.bytes.length }.mov c.dst c.src with
    | none => rfl
    | some m' =>
      apply ih hdec.2
      obtain ⟨v, -, hwrite⟩ := Option.bind_eq_some_iff.mp hmov
      rw [Machine.write64_pos hwrite]
      show code.drop (m.pos + c.bytes.length) = _
      rw [← List.drop_drop, hcode, List.drop_left]

/-- The position behind such code. -/
theorem runMovs_pos {movs : List MovCode} {m m' : Machine} (h : runMovs movs m = some m') :
    m'.pos = m.pos + (movs.flatMap MovCode.bytes).length := by
  induction movs generalizing m with
  | nil =>
    rw [← Option.some.inj h]
    rfl
  | cons c cs ih =>
    obtain ⟨m₁, hmov, hrun⟩ := Option.bind_eq_some_iff.mp h
    obtain ⟨v, -, hwrite⟩ := Option.bind_eq_some_iff.mp hmov
    rw [ih hrun, Machine.write64_pos hwrite, List.flatMap_cons, List.length_append, Nat.add_assoc]

/-- A part of such code runs as its own `mov`s do. -/
theorem Semantics.steps_movs_take (sem : Semantics) {code rest : List Byte} {movs : List MovCode}
    (hdec : ∀ c ∈ movs, ∀ rest, decode (c.bytes ++ rest) = some (.mov .b64 c.dst c.src, rest))
    {m : Machine} (hcode : code.drop m.pos = movs.flatMap MovCode.bytes ++ rest) {n : Nat}
    (hn : n ≤ movs.length) : sem.steps code n m = runMovs (movs.take n) m := by
  have hsplit : code.drop m.pos =
      (movs.take n).flatMap MovCode.bytes ++ ((movs.drop n).flatMap MovCode.bytes ++ rest) := by
    rw [hcode, ← List.append_assoc, ← List.flatMap_append, List.take_append_drop]
  have hrun := sem.steps_movs (fun c hc ↦ hdec c (List.mem_of_mem_take hc)) hsplit
  rwa [List.length_take, Nat.min_eq_left hn] at hrun

/-- Whether an operand is the same wherever the code is. -/
def Loc.absolute : Loc → Bool
  | .rip _ => false
  | _ => true

theorem Machine.mov_codeBase (m : Machine) (base : BitVec 64) {dst src : Loc} (hdst : dst.absolute)
    (hsrc : src.absolute) :
    { m with codeBase := base }.mov dst src =
      (m.mov dst src).map fun m' ↦ { m' with codeBase := base } := by
  have hread : { m with codeBase := base }.read64 src = m.read64 src := by
    cases src with
    | rip disp => cases hsrc
    | _ => rfl
  have hwrite : ∀ v, { m with codeBase := base }.write64 v dst =
      (m.write64 v dst).map fun m' ↦ { m' with codeBase := base } := by
    intro v
    cases dst with
    | reg r => rfl
    | high r => rfl
    | mem base' index disp =>
      show (Option.bind (m.load _ _) _) = (Option.bind (m.load _ _) _).map _
      cases m.load _ _ <;> rfl
    | rip disp => cases hdst
  rw [mov, mov, hread]
  cases m.read64 src with
  | none => rfl
  | some v => exact hwrite v

/-- Code without addresses relative to `RIP` runs the same at every address. -/
theorem runMovs_codeBase {movs : List MovCode} (h : ∀ c ∈ movs, c.dst.absolute ∧ c.src.absolute)
    (m : Machine) (base : BitVec 64) :
    runMovs movs { m with codeBase := base } =
      (runMovs movs m).map fun m' ↦ { m' with codeBase := base } := by
  induction movs generalizing m with
  | nil => rfl
  | cons c cs ih =>
    rw [List.forall_mem_cons] at h
    have hmov := { m with pos := m.pos + c.bytes.length }.mov_codeBase base h.1.1 h.1.2
    rw [runMovs, runMovs]
    simp only [] at hmov ⊢
    rw [hmov]
    cases { m with pos := m.pos + c.bytes.length }.mov c.dst c.src with
    | none => rfl
    | some m' => exact ih h.2 m'

end Arm2x86.X86
