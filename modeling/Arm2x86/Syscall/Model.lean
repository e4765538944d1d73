import Mathlib.Data.Fin.VecNotation
import Mathlib.Data.Fintype.Pi
import Arm2x86.Base.Memory
import Arm2x86.Syscall.Table

/-!
# Translated system calls

`translate_syscall_number` and `do_translated_syscall` of `modules/arm2x86_syscall.c` (lines
430–456 and 2605–2822). The host kernel, and the registers and stack slots that the compiler
chooses, are parameters.
-/

namespace Arm2x86.Syscall

/-! ## The number -/

/-- `SYSCALL_TABLE_MAX_NR`. -/
def syscallTableMaxNr : Nat := 1024

/-- A row of the table entered in the lookup array. -/
def enterRow (lookup : List Int) (row : SyscallMap) : List Int :=
  if 0 ≤ row.arm64Nr ∧ row.arm64Nr < syscallTableMaxNr then
    lookup.set row.arm64Nr.toNat row.x86Nr
  else lookup

/-- `init_syscall_lookup`: the array `g_syscall_lookup` that it leaves. -/
def initSyscallLookup : List Int :=
  syscallTable.foldl enterRow (List.replicate syscallTableMaxNr (-1))

/-- `translate_syscall_number`. -/
def translateSyscallNumber (arm64Nr : Int) : Int :=
  if 0 ≤ arm64Nr ∧ arm64Nr < syscallTableMaxNr then
    initSyscallLookup.getD arm64Nr.toNat (-1)
  else -1

/-! ## The host -/

/-- The six arguments of a call: on the host RDI, RSI, RDX, R10, R8 and R9. -/
abbrev Args := Fin 6 → BitVec 64

instance neZeroArgs : NeZero 6 := ⟨by decide⟩

/-- A `syscall` instruction: the number in EAX and the argument registers. -/
structure HostCall where
  nr : Int
  args : Args
deriving DecidableEq

/-- What the source does not fix. -/
structure Host where
  /-- The result of a call and the memory after it. -/
  kernel : HostCall → Memory → BitVec 64 × Memory
  /-- What the argument registers hold at the n-th call where no operand names them. -/
  spare : Nat → Args
  /-- Where the buffer for the host's structure lies on the stack. -/
  frame : BitVec 64
  /-- Where `arm_sa` lies on the stack. -/
  armSa : BitVec 64

/-- The memory, `g_tls_base`, and the host calls made so far. -/
structure State where
  mem : Memory
  tlsBase : BitVec 64
  calls : List HostCall

/-- A `syscall` instruction. -/
def State.syscall (host : Host) (s : State) (nr : Int) (args : Args) : BitVec 64 × State :=
  ((host.kernel ⟨nr, args⟩ s.mem).1,
    { s with mem := (host.kernel ⟨nr, args⟩ s.mem).2, calls := s.calls ++ [⟨nr, args⟩] })

/-- The argument registers where only RDI, RSI and RDX are named: an operand `"r"` may be in any
other register. -/
def State.registers (host : Host) (s : State) (rdi rsi rdx : BitVec 64) : Args :=
  ![rdi, rsi, rdx, host.spare s.calls.length 3, host.spare s.calls.length 4,
    host.spare s.calls.length 5]

/-! ## The structures -/

/-- A field of a structure, and what of its value is kept when it is assigned. -/
structure Field where
  offset : Nat
  size : Nat
  keep : Nat → Nat := id

/-- The assignment of a field from one structure to another. -/
def copyField (dst src : BitVec 64) (mem : Memory) (f : Field) : Memory :=
  mem.write (dst + BitVec.ofNat 64 f.offset)
    (leBytes f.size (f.keep (leNat (mem.read (src + BitVec.ofNat 64 f.offset) f.size))))

/-- The assignments of some fields, one after the other. -/
def copyFields (fields : List Field) (dst src : BitVec 64) (mem : Memory) : Memory :=
  fields.foldl (copyField dst src) mem

/-- `(uint32_t)`, and `(int32_t)` widened to 64 bits. -/
def lowHalf (n : Nat) : Nat := n % 2 ^ 32
def lowHalfSigned (n : Nat) : Nat := ((BitVec.ofNat 32 n).signExtend 64).toNat

/-- The assignments of `do_translated_syscall` to an `arm2x86_arm64_stat`, which has the layout of
`arm2x86_x86_64_stat`: device, inode, mode, links, owner, group, device number, size, block size,
blocks and the three times. -/
def statFields : List Field :=
  [⟨0, 8, id⟩, ⟨8, 8, id⟩, ⟨24, 4, id⟩, ⟨16, 8, lowHalf⟩, ⟨28, 4, id⟩, ⟨32, 4, id⟩, ⟨40, 8, id⟩,
    ⟨48, 8, id⟩, ⟨56, 8, lowHalfSigned⟩, ⟨64, 8, id⟩, ⟨72, 8, id⟩, ⟨80, 8, id⟩, ⟨88, 8, id⟩,
    ⟨96, 8, id⟩, ⟨104, 8, id⟩, ⟨112, 8, id⟩]

/-- `sizeof` of both `stat` structures. -/
def statSize : Nat := 144

/-- `translate_sigaction_arm64_to_x86`: handler, flags, restorer and the first word of the mask. -/
def sigactionFields : List Field := [⟨0, 8, id⟩, ⟨8, 8, id⟩, ⟨16, 8, id⟩, ⟨24, 8, id⟩]

/-- `sizeof` of both `sigaction` structures. -/
def sigactionSize : Nat := 152

/-- `sizeof(stack_buf)`. -/
def frameSize : Nat := 256

/-! ## The calls -/

/-- `(int)result`, as the caller sees it in a 64-bit register. -/
def truncated (result : BitVec 64) : BitVec 64 := (result.setWidth 32).signExtend 64

/-- `-ENOSYS`. -/
def negEnosys : BitVec 64 := -38#64

/-- `CLONE_SETTLS`. -/
def cloneSettls : BitVec 64 := 0x80000#64

/-- `arch_prctl(ARCH_SET_FS, value)` of the C library. -/
def archSetFs (host : Host) (s : State) (value : BitVec 64) : State :=
  (s.syscall host 158 (s.registers host 0x1002#64 value (host.spare s.calls.length 2))).2

/-- `arm2x86_msr_tpidr_el0`, `arm2x86_syscall.c:525`. -/
def msrTpidrEl0 (host : Host) (s : State) (value : BitVec 64) : State :=
  archSetFs host { s with tlsBase := value } value

/-- The call as it is, under the translated number. -/
def plainCall (host : Host) (s : State) (x86Nr : Int) (a : Args) : BitVec 64 × State :=
  let r := s.syscall host x86Nr (s.registers host (a 0) (a 1) (a 2))
  (truncated r.1, r.2)

/-- The case of `fstat` and `newfstatat`: the second argument is the buffer. -/
def statCall (host : Host) (s : State) (x86Nr : Int) (a : Args) : BitVec 64 × State :=
  let r := s.syscall host x86Nr (s.registers host (a 0) host.frame (a 2))
  if r.1 = 0 then
    (truncated r.1, { r.2 with mem := copyFields statFields (a 1) host.frame r.2.mem })
  else (truncated r.1, r.2)

/-- The memory when `rt_sigaction` is called: the guest's structure in `arm_sa`, and translated. -/
def sigactionMemory (host : Host) (mem : Memory) (act : BitVec 64) : Memory :=
  copyFields sigactionFields host.frame host.armSa
    (mem.write host.armSa (mem.read act sigactionSize))

/-- The case of `rt_sigaction`. -/
def sigactionCall (host : Host) (s : State) (x86Nr : Int) (a : Args) : BitVec 64 × State :=
  let s' := { s with mem := sigactionMemory host s.mem (a 1) }
  let r := s'.syscall host x86Nr (s'.registers host (a 0) host.frame 0)
  (truncated r.1, r.2)

/-- The flags that the case of `clone` passes on: an `int`, with which the upper half of the
register is not fixed. -/
def cloneFlags (upper : BitVec 64) (flags : BitVec 64) : BitVec 64 :=
  (upper.extractLsb' 32 32) ++
    (if flags &&& cloneSettls ≠ 0 then flags &&& ~~~cloneSettls else flags).setWidth 32

/-- The case of `clone`. The last `syscall` has `ARCH_SET_FS` for its number. -/
def cloneCall (host : Host) (s : State) (x86Nr : Int) (a : Args) : BitVec 64 × State :=
  let flags := cloneFlags (host.spare s.calls.length 0) (a 0)
  let r := s.syscall host x86Nr (s.registers host flags (a 1) (a 2))
  if r.1 = 0 ∧ a 0 &&& cloneSettls ≠ 0 then
    let s' := msrTpidrEl0 host r.2 (a 4)
    (truncated r.1, (s'.syscall host 0x1002 (s'.registers host (a 4)
      (host.spare s'.calls.length 1) (host.spare s'.calls.length 2))).2)
  else (truncated r.1, r.2)

/-- `do_translated_syscall`. The calls 20 to 22 do what any other call does. -/
def doTranslatedSyscall (host : Host) (s : State) (arm64Nr : Int) (a : Args) :
    BitVec 64 × State :=
  let x86Nr := translateSyscallNumber arm64Nr
  if x86Nr < 0 then (negEnosys, s)
  else if arm64Nr = 80 ∨ arm64Nr = 79 then statCall host s x86Nr a
  else if arm64Nr = 128 ∧ a 1 ≠ 0 ∧ a 2 = 0 then sigactionCall host s x86Nr a
  else if arm64Nr = 220 then cloneCall host s x86Nr a
  else plainCall host s x86Nr a

end Arm2x86.Syscall
