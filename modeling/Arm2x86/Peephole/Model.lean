import Arm2x86.Base.Rewriting
import Arm2x86.X86.Emit

/-!
# The peephole optimizer

`arm2x86_peephole_optimize`, `modules/arm2x86_peephole.c:394`, and its rules, over a buffer with whatever
is in front of and behind it. A rule looks at bytes from an index on; what it has looked at is kept
beside its result, as short-circuiting decides it. Offsets and the length are those of one buffer and do
not wrap around; the lengths passed to `memmove` do.
-/

namespace Arm2x86.Peephole

open X86

/-- A look at the bytes from a place on: a result, and the end of the farthest byte read. -/
structure Look (α : Type) where
  run : (Nat → Byte) → α × Nat

instance : Monad Look where
  pure a := ⟨fun _ ↦ (a, 0)⟩
  bind x f := ⟨fun p ↦ (((f (x.run p).1).run p).1, max (x.run p).2 ((f (x.run p).1).run p).2)⟩

/-- One byte. -/
abbrev byte (i : Nat) : Look Byte := ⟨fun p ↦ (p i, i + 1)⟩

/-- A little-endian word of some bytes. -/
def word (i n : Nat) : Look Nat :=
  ⟨fun p ↦ (leNat ((List.range n).map fun k ↦ p (i + k)), i + n)⟩

/-- The same look from a later place, at which it reads at least one byte. -/
def later {α : Type} (n : Nat) (look : Look α) : Look α :=
  ⟨fun p ↦ ((look.run fun i ↦ p (n + i)).1, n + (look.run fun i ↦ p (n + i)).2)⟩

section Patterns

/-- `is_rex_w`. -/
def isRexW (b : Byte) : Bool := b &&& 0xf8 == 0x48

/-- The prefixes that several patterns list. -/
def isRex (b : Byte) : Bool := b == 0x48 || b == 0x49 || b == 0x4c || b == 0x4d

/-- The register fields of a ModRM byte, with the bits of a prefix. -/
def rmField (rex modrm : Byte) : Byte := modrm &&& 7 ||| if rex &&& 0x04 != 0 then 8 else 0

def regField (rex modrm : Byte) : Byte := modrm >>> 3 &&& 7 ||| if rex &&& 0x01 != 0 then 8 else 0

/-- A ModRM byte in register mode with an opcode extension. -/
def isExtension (ext modrm : Byte) : Bool := modrm >>> 6 == 3 && modrm >>> 3 &&& 7 == ext

/-- `is_mov_imm64`. -/
def isMovImm64 : Look Bool := do
  if (← byte 0) == 0x48 then return (← byte 1) &&& 0xf8 == 0xb8 else return false

/-- `is_mov_reg`: the two registers. -/
def isMovReg : Look (Option (Byte × Byte)) := do
  let p0 ← byte 0
  if isRex p0 then
    if (← byte 1) == 0x89 then
      let modrm ← byte 2
      if modrm >>> 6 == 3 then return some (rmField p0 modrm, regField p0 modrm) else return none
    else return none
  else if p0 == 0x89 then
    let modrm ← byte 1
    if modrm >>> 6 == 3 then return some (modrm &&& 7, modrm >>> 3 &&& 7) else return none
  else return none

/-- `is_xor_zero`: the register. -/
def isXorZero : Look (Option Byte) := do
  let p0 ← byte 0
  if p0 == 0x48 then
    if (← byte 1) == 0x31 then
      let modrm ← byte 2
      if modrm >>> 6 == 3 && modrm &&& 7 == modrm >>> 3 &&& 7 &&
          rmField p0 modrm == regField p0 modrm then
        return some (rmField p0 modrm)
      else return none
    else return none
  else if p0 == 0x31 then
    let modrm ← byte 1
    if modrm >>> 6 == 3 && modrm &&& 7 == modrm >>> 3 &&& 7 then return some (modrm &&& 7)
    else return none
  else return none

/-- The second test of `is_mov_zero`. -/
def isMovZero64 : Look (Option Byte) := do
  let p0 ← byte 0
  if p0 == 0x48 then
    let p1 ← byte 1
    if p1 &&& 0xf8 == 0xb8 then
      if (← word 2 8) == 0 then return some (p1 &&& 7 ||| if p0 &&& 0x04 != 0 then 8 else 0)
      else return none
    else return none
  else return none

/-- The third test of `is_mov_zero`. -/
def isMovZero32 : Look (Option Byte) := do
  let p0 ← byte 0
  if p0 &&& 0xf8 == 0xb8 && !isRexW p0 then
    if (← word 1 4) == 0 then return some (p0 &&& 7) else return none
  else return none

/-- `is_mov_zero`: the register. -/
def isMovZero : Look (Option Byte) := do
  match ← isXorZero with
  | some reg => return some reg
  | none =>
    match ← isMovZero64 with
    | some reg => return some reg
    | none => isMovZero32

/-- `is_add_imm8`: the register and the immediate. -/
def isAddImm8 : Look (Option (Byte × Byte)) := do
  let p0 ← byte 0
  if p0 == 0x48 then
    if (← byte 1) == 0x83 then
      let modrm ← byte 2
      if isExtension 0 modrm then
        return some (rmField p0 modrm, ← byte 3)
      else return none
    else return none
  else if p0 == 0x83 then
    let modrm ← byte 1
    if isExtension 0 modrm then return some (modrm &&& 7, ← byte 2)
    else return none
  else return none

/-- `get_instr_len`, where a prefix is in front. -/
def rexInstrLen : Look (Option Nat) := do
  let p0 ← byte 0
  if isRex p0 then
    let p1 ← byte 1
    if p1 &&& 0xf8 == 0xb8 then return some 10
    else if p1 == 0x89 || p1 == 0x8b || p1 == 0x01 || p1 == 0x29 || p1 == 0x21 || p1 == 0x09 ||
        p1 == 0x31 || p1 == 0x33 || p1 == 0x39 || p1 == 0x3b || p1 == 0x85 then
      return some (3 + (p0 &&& 1).toNat)
    else if p1 == 0x83 then return some 4
    else if p1 == 0x81 then return some 7
    else return none
  else return none

/-- `get_instr_len`, where no prefix decides. The sum in the last test is compared as a whole. -/
def plainInstrLen : Look Nat := do
  let p0 ← byte 0
  if p0 &&& 0xf8 == 0xb8 then return 5
  else if p0 &&& 0xf8 == 0xb0 then return 2
  else if p0 == 0x90 then return 1
  else if p0 == 0xc3 then return 1
  else if p0 == 0x0f then return 2 + if 0x80 ≤ (← byte 1) then 4 else 0
  else if p0 == 0xe9 || p0 == 0xe8 then return 5
  else if p0 == 0xeb then return 2
  else if p0 == 0xc7 then return if 2 + ((← byte 1) &&& 0xf8).toNat == 0xc0 then 6 else 7
  else return 1

/-- `get_instr_len`. -/
def getInstrLen : Look Nat := do
  match ← rexInstrLen with
  | some len => return len
  | none => plainInstrLen

end Patterns

section Rules

/-- What a rule does from its index on: it writes some bytes, and moves the code from `src` on down to
`dst`. -/
structure Rewrite where
  pos : Nat
  bytes : List Byte
  dst : Nat
  src : Nat
  shrinks : dst < src

/-- The length that `optimize_mov_zero` takes a move to have. -/
def movLen (p0 : Byte) : Nat := if p0 == 0x48 then 10 else 5

theorem movLen_ge (p0 : Byte) : 5 ≤ movLen p0 := by
  unfold movLen
  split <;> omega

/-- The length that `optimize_xor_mov` takes a zeroing to have. -/
def xorLen (reg : Byte) : Nat := if 8 ≤ reg then 3 else 2

theorem xorLen_pos (reg : Byte) : 0 < xorLen reg := by
  unfold xorLen
  split <;> omega

/-- The length that `optimize_redundant_mov` takes a move to have. -/
def movRegLen (p0 : Byte) : Nat := if p0 == 0x48 then 3 else 2

theorem movRegLen_pos (p0 : Byte) : 0 < movRegLen p0 := by
  unfold movRegLen
  split <;> omega

/-- `optimize_mov_zero`. -/
def optimizeMovZero : Look (Option Rewrite) := do
  match ← isMovZero with
  | some reg =>
    let p0 ← byte 0
    have hlen := movLen_ge p0
    if 8 ≤ reg then return some ⟨0, [0x41, 0x31, 0xc0 ||| reg], 3, movLen p0, by omega⟩
    else return some ⟨0, [0x31, 0xc0 ||| reg], 2, movLen p0, by omega⟩
  | none => return none

/-- `optimize_mov_add`. -/
def optimizeMovAdd : Look (Option Rewrite) := do
  if ← isMovImm64 then
    let reg := (← byte 1) &&& 7
    let imm := BitVec.ofNat 64 (← word 2 8)
    match ← later 10 isAddImm8 with
    | some (reg', imm') =>
      if reg' == reg then
        return some ⟨1, (0xb8 ||| reg) :: imm64 (imm + imm'.signExtend 64), 10, 14, by decide⟩
      else return none
    | none => return none
  else return none

/-- `optimize_xor_mov`. -/
def optimizeXorMov : Look (Option Rewrite) := do
  match ← isXorZero with
  | some reg =>
    if ← later (xorLen reg) isMovImm64 then
      if (← byte (xorLen reg + 1)) &&& 7 == reg then
        return some ⟨0, [], 0, xorLen reg, xorLen_pos reg⟩
      else return none
    else return none
  | none => return none

/-- `optimize_add_zero`. -/
def optimizeAddZero : Look (Option Rewrite) := do
  match ← isAddImm8 with
  | some (_, imm) => return if imm == 0 then some ⟨0, [], 0, 4, by decide⟩ else none
  | none => return none

/-- `optimize_sub_zero`. -/
def optimizeSubZero : Look (Option Rewrite) := do
  if (← byte 0) == 0x48 then
    if (← byte 1) == 0x83 then
      let modrm ← byte 2
      if isExtension 5 modrm then
        return if (← byte 3) == 0 then some ⟨0, [], 0, 4, by decide⟩ else none
      else return none
    else return none
  else return none

/-- `optimize_cmp_zero`. -/
def optimizeCmpZero : Look (Option Rewrite) := do
  let p0 ← byte 0
  if p0 == 0x48 then
    if (← byte 1) == 0x81 then
      let modrm ← byte 2
      if isExtension 7 modrm then
        if (← word 3 4) == 0 then
          let reg := rmField p0 modrm
          if 8 ≤ reg then return some ⟨0, [0x41, 0x85, 0xc0 ||| reg], 3, 7, by decide⟩
          else return some ⟨0, [0x85, 0xc0 ||| reg], 2, 7, by decide⟩
        else return none
      else return none
    else return none
  else return none

/-- `optimize_redundant_mov`. -/
def optimizeRedundantMov : Look (Option Rewrite) := do
  match ← isMovReg with
  | some (dest, src) =>
    if dest == src then
      let p0 ← byte 0
      return some ⟨0, [], 0, movRegLen p0, movRegLen_pos p0⟩
    else return none
  | none => return none

/-- The rules in the order in which they are tried. -/
def rules : List (Look (Option Rewrite)) :=
  [optimizeMovZero, optimizeXorMov, optimizeAddZero, optimizeSubZero, optimizeCmpZero,
    optimizeRedundantMov, optimizeMovAdd, optimizeXorMov]

/-- The first of some rules that matches. -/
def firstRule : List (Look (Option Rewrite)) → Look (Option Rewrite)
  | [] => return none
  | rule :: rest => do
    match ← rule with
    | some r => return some r
    | none => firstRule rest

end Rules

section Loop

/-- The buffer with what is behind it, the length it is passed with, the index, the end of the farthest
byte that has been accessed, the bytes that have been removed, and the count of rewrites. -/
structure State where
  mem : Nat → Byte
  size : Nat
  idx : Nat
  reach : Nat
  removed : Nat
  optimized : Nat

/-- The bytes from an index on. -/
def suffix (mem : Nat → Byte) (i : Nat) : Nat → Byte := fun k ↦ mem (i + k)

/-- The end of an access to some bytes. -/
def accessEnd (start len : Nat) : Nat := if len = 0 then 0 else start + len

/-- The bytes of a rewrite and the `memmove` behind them. The rules take what they remove off the pointer
to the length, not off the length. -/
def State.rewrite (s : State) (r : Rewrite) : State :=
  let count := sizeSub (sizeSub s.size s.idx) r.src
  let written := Rewriting.overwrite s.mem (s.idx + r.pos) r.bytes
  let dst := s.idx + r.dst
  let src := s.idx + r.src
  { s with
    mem := fun i ↦ if dst ≤ i ∧ i < dst + count then written (src + (i - dst)) else written i
    reach := max s.reach (max (accessEnd (s.idx + r.pos) r.bytes.length)
      (max (accessEnd src count) (accessEnd dst count)))
    removed := s.removed + (r.src - r.dst)
    optimized := s.optimized + 1 }

/-- One turn of the loop of `arm2x86_peephole_optimize`. -/
def State.step (s : State) : State :=
  let p := suffix s.mem s.idx
  let (rule, n) := (firstRule rules).run p
  let s := { s with reach := max s.reach (s.idx + n) }
  match rule with
  | some r => s.rewrite r
  | none => { s with idx := s.idx + (getInstrLen.run p).1, reach := max s.reach (s.idx + (getInstrLen.run p).2) }

/-- The loop, for some turns at most. -/
def run : Nat → State → Option State
  | 0, s => if s.idx < s.size then none else some s
  | fuel + 1, s => if s.idx < s.size then run fuel s.step else some s

/-- `arm2x86_peephole_optimize`, with the state that it ends in. -/
def peepholeOptimize (fuel : Nat) (mem : Nat → Byte) (size : Nat) : Option State :=
  run fuel ⟨mem, size, 0, 0, 0, 0⟩

end Loop

end Arm2x86.Peephole
