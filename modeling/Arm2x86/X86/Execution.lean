import Arm2x86.Base.Sparse
import Arm2x86.X86.Machine
import Arm2x86.X86.Status

/-!
# Integer instructions

An interpreter of the integer instructions with their flags and with control flow inside of the code.
What the architecture leaves undefined in the flags is a parameter, and what the instructions
outside of it do is another: the vector instructions, the counts of zeros, the checksum, the
rotations through the carry and the calls into the system.
-/

/-!
## Operands in memory

The loads and stores of the machine as those of a memory with holes, and its little-endian values as
numbers.
-/

namespace Arm2x86.X86.Machine

variable (m : Machine)

theorem load_eq (a : BitVec 64) (n : Nat) : m.load a n = Sparse.load m.mem a n := rfl

theorem store_eq (a : BitVec 64) (bs : List Byte) :
    m.store a bs = (Sparse.store m.mem a bs).map fun mem ↦ { m with mem } := by
  rw [store, Sparse.store, Option.map_map]
  exact (Option.map_eq_bind ..).symm

/-- The value of little-endian bytes, modulo the width of a register. -/
theorem value_eq (bs : List Byte) : value bs = BitVec.ofNat 64 (leNat bs) := by
  induction bs with
  | nil => rfl
  | cons b bs ih =>
    apply BitVec.eq_of_toNat_eq
    have hb : b.toNat < 2 ^ 8 := b.isLt
    rw [value, ih, leNat, BitVec.toNat_or, BitVec.toNat_shiftLeft, BitVec.toNat_setWidth,
      BitVec.toNat_ofNat, BitVec.toNat_ofNat, Nat.shiftLeft_eq]
    have hhigh : leNat bs % 2 ^ 64 * 2 ^ 8 % 2 ^ 64 = (leNat bs % 2 ^ 56) <<< 8 := by
      rw [Nat.shiftLeft_eq]
      omega
    have hlow : b.toNat % 2 ^ 64 = b.toNat := by omega
    rw [hhigh, hlow, ← Nat.shiftLeft_add_eq_or_of_lt hb, Nat.shiftLeft_eq]
    omega

/-- The low bytes of a value. -/
theorem bytes_eq (v : BitVec 64) (n : Nat) : bytes v n = leBytes n v.toNat := by
  have hmap : ∀ k x, leBytes k x = (List.range k).map fun i ↦ BitVec.ofNat 8 (x / 256 ^ i) := by
    intro k
    induction k with
    | zero => exact fun _ ↦ rfl
    | succ k ih =>
      intro x
      rw [leBytes, ih, List.range_succ_eq_map, List.map_cons, List.map_map, Nat.pow_zero,
        Nat.div_one]
      congr 1
      apply List.map_congr_left
      intro i _
      rw [Function.comp_apply, Nat.div_div_eq_div_mul, Nat.pow_succ']
  rw [hmap, bytes]
  apply List.map_congr_left
  intro i _
  rw [BitVec.extractLsb', Nat.shiftRight_eq_div_pow, Nat.pow_mul]

@[simp] theorem length_bytes (v : BitVec 64) (n : Nat) : (bytes v n).length = n := by
  rw [bytes_eq, length_leBytes]

theorem getElem?_bytes (v : BitVec 64) {i n : Nat} (h : i < n) :
    (bytes v n)[i]? = some (v.extractLsb' (8 * i) 8) := by
  rw [bytes, List.getElem?_map, List.getElem?_range h]
  rfl

/-- A value from its eight bytes. -/
theorem value_bytes (v : BitVec 64) : value (bytes v 8) = v := by
  rw [value_eq, bytes_eq, leNat_leBytes v.isLt, BitVec.ofNat_toNat, BitVec.setWidth_eq]

/-- The low word of a value from its first four bytes. -/
theorem value_bytes_four (v : BitVec 64) : value (bytes v 4) = (v.setWidth 32).setWidth 64 := by
  have hpow : 256 ^ 4 = 2 ^ 32 := rfl
  apply BitVec.eq_of_toNat_eq
  rw [value_eq, bytes_eq, leNat_leBytes_mod, BitVec.toNat_ofNat, BitVec.toNat_setWidth,
    BitVec.toNat_setWidth, hpow]

end Arm2x86.X86.Machine

namespace Arm2x86.X86

/-- The width of an operand. -/
def Size.bits : Size → Nat
  | .b8 => 8
  | .b16 => 16
  | .b32 => 32
  | .b64 => 64

/-- A value at the width of an operand. -/
def Size.cut (size : Size) (v : BitVec 64) : BitVec size.bits := v.setWidth size.bits

namespace Machine

variable (m : Machine)

/-- A 16-bit operand. -/
def read16 : Loc → Option (BitVec 64)
  | .reg r => some ((m.regs r).setWidth 16 |>.setWidth 64)
  | .high _ => none
  | loc => do return value (← m.load (← m.address loc) 2)

/-- An 8-bit operand. -/
def read8 : Loc → Option (BitVec 64)
  | .reg r => some ((m.regs r).setWidth 8 |>.setWidth 64)
  | .high r => some ((m.regs (r.setWidth 4)).extractLsb' 8 8 |>.setWidth 64)
  | loc => do return value (← m.load (← m.address loc) 1)

/-- A 16-bit result, which leaves the rest of a register. -/
def write16 (v : BitVec 64) : Loc → Option Machine
  | .reg r => some (m.setReg r ((m.regs r).extractLsb' 16 48 ++ v.setWidth 16))
  | .high _ => none
  | loc => do m.store (← m.address loc) (bytes v 2)

/-- An 8-bit result, which leaves the rest of a register. -/
def write8 (v : BitVec 64) : Loc → Option Machine
  | .reg r => some (m.setReg r ((m.regs r).extractLsb' 8 56 ++ v.setWidth 8))
  | .high r =>
    let old := m.regs (r.setWidth 4)
    some (m.setReg (r.setWidth 4) (old.extractLsb' 16 48 ++ v.setWidth 8 ++ old.setWidth 8))
  | loc => do m.store (← m.address loc) (bytes v 1)

/-- An operand, with zeros above it. -/
def fetch (size : Size) (loc : Loc) : Option (BitVec 64) :=
  match size with
  | .b8 => m.read8 loc
  | .b16 => m.read16 loc
  | .b32 => m.read32 loc
  | .b64 => m.read64 loc

/-- A result. -/
def put (size : Size) (v : BitVec 64) (loc : Loc) : Option Machine :=
  match size with
  | .b8 => m.write8 v loc
  | .b16 => m.write16 v loc
  | .b32 => m.write32 v loc
  | .b64 => m.write64 v loc

def status : Status := .ofBits m.flags

def setStatus (s : Status) : Machine := { m with flags := m.flags &&& ~~~ Status.mask ||| s.bits }

@[simp] theorem status_setStatus (s : Status) : (m.setStatus s).status = s :=
  Status.ofBits_set m.flags s

@[simp] theorem regs_setStatus (s : Status) : (m.setStatus s).regs = m.regs := rfl

@[simp] theorem mem_setStatus (s : Status) : (m.setStatus s).mem = m.mem := rfl

@[simp] theorem pos_setStatus (s : Status) : (m.setStatus s).pos = m.pos := rfl

@[simp] theorem status_setReg (r : Gpr) (v : BitVec 64) : (m.setReg r v).status = m.status := rfl

@[simp] theorem mem_setReg (r : Gpr) (v : BitVec 64) : (m.setReg r v).mem = m.mem := rfl

@[simp] theorem pos_setReg (r : Gpr) (v : BitVec 64) : (m.setReg r v).pos = m.pos := rfl

@[simp] theorem regs_setReg (r r' : Gpr) (v : BitVec 64) :
    (m.setReg r v).regs r' = if r' = r then v else m.regs r' := rfl

/-- A register that keeps its value. -/
theorem setReg_self (r : Gpr) : m.setReg r (m.regs r) = m := by
  have hregs : (fun r' ↦ if r' = r then m.regs r else m.regs r') = m.regs := by
    funext r'
    split
    · next h => rw [h]
    · rfl
  rw [setReg, hregs]

/-- The last of two values. -/
theorem setReg_setReg (r : Gpr) (v w : BitVec 64) : (m.setReg r v).setReg r w = m.setReg r w := by
  have hregs : ∀ r', ((m.setReg r v).setReg r w).regs r' = (m.setReg r w).regs r' := by
    intro r'
    by_cases h : r' = r <;> simp [h]
  rw [setReg, setReg]
  congr 1
  exact funext hregs

theorem setReg_comm {r r' : Gpr} (h : r ≠ r') (v w : BitVec 64) :
    (m.setReg r v).setReg r' w = (m.setReg r' w).setReg r v := by
  have hregs : ∀ q, ((m.setReg r v).setReg r' w).regs q = ((m.setReg r' w).setReg r v).regs q := by
    intro q
    by_cases hq : q = r
    · subst hq
      simp [h]
    · simp [hq]
  rw [setReg, setReg]
  congr 1
  exact funext hregs

/-- A result with its flags. -/
def putStatus (size : Size) (v : BitVec size.bits) (s : Status) (loc : Loc) : Option Machine :=
  (m.put size (v.setWidth 64) loc).map fun m' ↦ m'.setStatus s

/-- To an address. Behind the code nothing is executed. -/
def goto (a : BitVec 64) : Machine := { m with pos := (a - m.codeBase).toNat }

/-- By a displacement from the next instruction, not in front of the code. -/
def jump (rel : BitVec 64) : Option Machine :=
  if 0 ≤ m.pos + rel.toInt then some { m with pos := (m.pos + rel.toInt).toNat } else none

/-- The address of the next instruction. -/
def next : BitVec 64 := m.codeBase + BitVec.ofNat 64 m.pos

/-- A value onto the stack. -/
def pushed (v : BitVec 64) : Option Machine :=
  (m.store (m.regs 4 - 8) (bytes v 8)).map fun m' ↦ m'.setReg 4 (m.regs 4 - 8)

/-- The value on top of the stack, and what is left. -/
def popped : Option (BitVec 64 × Machine) := do
  let bs ← m.load (m.regs 4) 8
  return (value bs, m.setReg 4 (m.regs 4 + 8))

/-- The bits of the flags register that a user program pushes and sets. -/
def pushedFlags : BitVec 64 := 0xfcffff

def poppedFlags : BitVec 64 := 0x244dd5

section Instructions

variable (undef : Status)

def execAlu (op : AluOp) (size : Size) (dst : Loc) (b : BitVec 64) : Option Machine := do
  let a ← m.fetch size dst
  let (r, s) := op.run m.status.carry undef (size.cut a) (size.cut b)
  if op = .cmp then return m.setStatus s else m.putStatus size r s dst

def execTest (size : Size) (a : Loc) (b : BitVec 64) : Option Machine := do
  let a ← m.fetch size a
  return m.setStatus (.ofLogic (size.cut a &&& size.cut b) undef)

def execExtend (signed : Bool) (size srcSize : Size) (dst : Gpr) (src : Loc) : Option Machine := do
  let v ← m.fetch srcSize src
  m.put size (if signed then (srcSize.cut v).signExtend 64 else v) (.reg dst)

def execNeg (size : Size) (dst : Loc) : Option Machine := do
  let a ← m.fetch size dst
  m.putStatus size (- size.cut a) (.ofSub 0 (size.cut a) false) dst

def execMulWide (signed : Bool) (size : Size) (src : Loc) : Option Machine := do
  let a := size.cut (m.regs 0)
  let b := size.cut (← m.fetch size src)
  let n := size.bits
  let product : BitVec (n + n) :=
    if signed then a.signExtend (n + n) * b.signExtend (n + n)
    else a.setWidth (n + n) * b.setWidth (n + n)
  let lo : BitVec n := product.setWidth n
  let fits := if signed then lo.signExtend (n + n) == product else lo.setWidth (n + n) == product
  let s := Status.ofMul (!fits) undef
  if size = .b8 then
    return (← m.put .b16 (product.setWidth 64) (.reg 0)).setStatus s
  else
    let m' ← m.put size (lo.setWidth 64) (.reg 0)
    return (← m'.put size ((product.extractLsb' n n).setWidth 64) (.reg 2)).setStatus s

/-- The divisions fault on a zero divisor and on a quotient that is too large. -/
def execDivWide (signed : Bool) (size : Size) (src : Loc) : Option Machine := do
  let n := size.bits
  let divisor := size.cut (← m.fetch size src)
  let hi : BitVec n :=
    if size = .b8 then ((m.regs 0).extractLsb' 8 8).setWidth n else size.cut (m.regs 2)
  let dividend : BitVec (n + n) := hi ++ size.cut (m.regs 0)
  let quotient := if signed then dividend.toInt.tdiv divisor.toInt
    else dividend.toNat / divisor.toNat
  let remainder := if signed then dividend.toInt.tmod divisor.toInt
    else dividend.toNat % divisor.toNat
  let fits := if signed then (BitVec.ofInt n quotient).toInt = quotient
    else (BitVec.ofInt n quotient).toNat = quotient
  if divisor = 0 ∨ ¬ fits then none
  else
    let m' ← m.put size (BitVec.ofInt 64 quotient) (.reg 0)
    let m' ← m'.put size (BitVec.ofInt 64 remainder) (if size = .b8 then .high 0 else .reg 2)
    return m'.setStatus undef

def execImul (size : Size) (dst : Gpr) (src : Loc) : Option Machine := do
  let a := size.cut (m.regs dst)
  let b := size.cut (← m.fetch size src)
  m.putStatus size (a * b) (.ofMul (decide ((a * b).toInt ≠ a.toInt * b.toInt)) undef) (.reg dst)

/-- A shift. The count is taken modulo 32 or 64, and a zero count leaves the flags. -/
def execShift (op : ShiftOp) (size : Size) (dst : Loc) (count : Byte) : Option Machine := do
  let v ← m.fetch size dst
  let count := count.toNat % (if size = .b64 then 64 else 32)
  if count = 0 then m.put size v dst
  else
    let (r, s) ← op.run m.status undef (size.cut v) count
    m.putStatus size r s dst

def execIncDec (dec : Bool) (size : Size) (dst : Loc) : Option Machine := do
  let a := size.cut (← m.fetch size dst)
  let s := if dec then Status.ofSub a 1 false else Status.ofAdd a 1 false
  m.putStatus size (if dec then a - 1 else a + 1) (.keepCarry m.status s) dst

def execBitTest (size : Size) (src : Loc) (bit : Byte) : Option Machine := do
  let v ← m.fetch size src
  return m.setStatus (.ofBitTest m.status (v.getLsbD (bit.toNat % size.bits)) undef)

def execXchg (size : Size) (dst : Loc) (src : Gpr) : Option Machine := do
  let v ← m.fetch size dst
  (← m.put size (m.regs src) dst).put size v (.reg src)

/-- An exchange with the sum. Where both operands are one register it holds the sum. -/
def execXadd (size : Size) (dst : Loc) (src : Gpr) : Option Machine := do
  let a ← m.fetch size dst
  let b := size.cut (m.regs src)
  let s := Status.ofAdd (size.cut a) b false
  let m' ← m.putStatus size (size.cut a + b) s dst
  if dst = .reg src then return m' else m'.put size a (.reg src)

def execCmpxchg (size : Size) (dst : Loc) (src : Gpr) : Option Machine := do
  let a := size.cut (m.regs 0)
  let d ← m.fetch size dst
  let m' := m.setStatus (.ofSub a (size.cut d) false)
  if a = size.cut d then m'.put size (m.regs src) dst else m'.put size d (.reg 0)

/-- The bytes of a register in the other order; undefined at the other widths. -/
def execBswap (size : Size) (dst : Gpr) : Option Machine :=
  match size with
  | .b64 => m.put .b64 (value (bytes (m.regs dst) 8).reverse) (.reg dst)
  | .b32 => m.put .b32 (value (bytes (m.regs dst) 4).reverse) (.reg dst)
  | _ => none

def execSignToRdx (size : Size) : Option Machine :=
  m.put size (if (size.cut (m.regs 0)).msb then BitVec.allOnes 64 else 0) (.reg 2)

def execWidenRax (size : Size) : Option Machine :=
  match size with
  | .b64 => m.put .b64 (((m.regs 0).setWidth 32).signExtend 64) (.reg 0)
  | .b32 => m.put .b32 (((m.regs 0).setWidth 16).signExtend 64) (.reg 0)
  | _ => m.put .b16 (((m.regs 0).setWidth 8).signExtend 64) (.reg 0)

def execPopf : Option Machine := do
  let (v, m') ← m.popped
  return { m' with flags := m.flags &&& ~~~ poppedFlags ||| v &&& poppedFlags }

end Instructions

theorem fetch_reg64 (r : Gpr) : m.fetch .b64 (.reg r) = some (m.regs r) := rfl

end Machine

/-- The integer instructions, with what the architecture leaves undefined in the flags and what the
other instructions do. -/
def Semantics.core (undef : Instr → Machine → Status) (rest : Instr → Machine → Option Machine) :
    Semantics where
  exec i m :=
    match i with
    | .alu op size dst src => do m.execAlu (undef i m) op size dst (← m.fetch size src)
    | .aluImm op size dst imm => m.execAlu (undef i m) op size dst imm
    | .mov size dst src => do m.put size (← m.fetch size src) dst
    | .movImm size dst imm => m.put size imm dst
    | .extend signed size srcSize dst src => m.execExtend signed size srcSize dst src
    | .test size a b => do m.execTest (undef i m) size a (← m.fetch size b)
    | .testImm size a imm => m.execTest (undef i m) size a imm
    | .not size dst => do m.put size (~~~ (← m.fetch size dst)) dst
    | .neg size dst => m.execNeg size dst
    | .mulWide signed size src => m.execMulWide (undef i m) signed size src
    | .divWide signed size src => m.execDivWide (undef i m) signed size src
    | .imul size dst src => m.execImul (undef i m) size dst src
    | .shift .rcl _ _ _ | .shift .rcr _ _ _ => rest i m
    | .shift op size dst count => m.execShift (undef i m) op size dst count
    | .incDec dec size dst => m.execIncDec dec size dst
    | .bitTest size src bit => m.execBitTest (undef i m) size src bit
    | .lea size dst src => do m.put size (← m.address src) (.reg dst)
    | .xchg size dst src => m.execXchg size dst src
    | .xadd size dst src => m.execXadd size dst src
    | .cmpxchg size dst src => m.execCmpxchg size dst src
    | .bswap size dst => m.execBswap size dst
    | .setcc cc dst => m.put .b8 (if m.status.holds cc then 1 else 0) dst
    | .cmov cc size dst src => do
      let v ← m.fetch size src
      m.put size (if m.status.holds cc then v else m.regs dst) (.reg dst)
    | .signToRdx size => m.execSignToRdx size
    | .widenRax size => m.execWidenRax size
    | .push src => m.pushed (m.regs src)
    | .pop dst => m.popped.map fun (v, m') ↦ m'.setReg dst v
    | .pushf => m.pushed (m.flags &&& Machine.pushedFlags)
    | .popf => m.execPopf
    | .leave => (m.setReg 4 (m.regs 5)).popped.map fun (v, m') ↦ m'.setReg 5 v
    | .jcc cc rel => if m.status.holds cc then m.jump rel else some m
    | .jmp rel => m.jump rel
    | .call rel => do (← m.pushed m.next).jump rel
    | .jmpLoc target => (m.fetch .b64 target).map m.goto
    | .callLoc target => do
      let a ← m.fetch .b64 target
      return (← m.pushed m.next).goto a
    | .ret => m.popped.map fun (v, m') ↦ m'.goto v
    | .nop => some m
    | .trap => none
    | .countZeros .. | .crc32 .. | .syscall | .rdtsc | .vector | .vectorTo _ => rest i m
  mov _ _ _ := rfl

end Arm2x86.X86
