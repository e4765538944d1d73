import Arm2x86.Base.Rewriting
import Arm2x86.X86.RexW

/-!
# The optimizations of hot blocks

The passes of `modules/arm2x86_hotblock.c` and `hotblock_apply_optimizations`. A pass is given the bytes
from a pointer on, of which it takes some number as the code; it looks at bytes behind them, too. Each
loop of the source is one pass over indices from the start of the code.
-/

namespace Arm2x86.Hotblock

open Rewriting X86

/-- Code that a pass is given. -/
structure Source where
  bytes : Nat → Byte
  size : Nat

namespace Source

variable (s : Source)

/-- `memcpy` of some bytes of the source, with the move of the cursor. -/
def memcpy (i n advance : Nat) : Emit Byte := ⟨slice s.bytes i n, advance⟩

/-- A little-endian word of the source. -/
def word32 (i : Nat) : BitVec 32 := s.bytes (i + 3) ++ s.bytes (i + 2) ++ s.bytes (i + 1) ++ s.bytes i

def word64 (i : Nat) : BitVec 64 := s.word32 (i + 4) ++ s.word32 i

/-- `*dst++ = *src++`. -/
def copyByte (i : Nat) : Turn Byte := ⟨[⟨[s.bytes i], 1⟩], 1, 0, Nat.one_pos⟩

end Source

/-- Bytes stored one by one with `*dst++`. -/
def store (bs : List Byte) : Emit Byte := ⟨bs, bs.length⟩

section ConstantPropagation

/-- `reg_is_const` and `reg_constants`. -/
abbrev Facts := BitVec 3 → Option (BitVec 64)

def Facts.set (f : Facts) (r : BitVec 3) (v : BitVec 64) : Facts := fun r' ↦ if r' = r then some v else f r'

/-- A move of a constant into a register in place of an instruction. -/
def constantTurn (reg : BitVec 3) (result : BitVec 64) (len : Nat) (h : 0 < len) : Turn Byte :=
  ⟨[store [0x48, 0xb8 + reg.setWidth 8], ⟨imm64 result, 8⟩], len, 1, h⟩

variable (s : Source) (facts : Facts) (src : Nat)

/-- `MOV imm64, REG`. -/
def movImm64At : Option (BitVec 3) :=
  if s.bytes src = 0x48 ∧ 0xb8 ≤ s.bytes (src + 1) ∧ s.bytes (src + 1) ≤ 0xbf then
    some ((s.bytes (src + 1) - 0xb8).setWidth 3)
  else none

/-- `XOR REG, REG`. -/
def xorZeroAt : Option (BitVec 3) :=
  let modrm := s.bytes (src + 2)
  if s.bytes src = 0x48 ∧ s.bytes (src + 1) = 0x31 ∧ modField modrm = 3 ∧ regField modrm = rmField modrm
  then some (regField modrm)
  else none

/-- `ADD REG1, REG2`: the fields of its ModRM byte, with the constants. -/
def addConstAt : Option (BitVec 3 × BitVec 64 × BitVec 64) :=
  let modrm := s.bytes (src + 2)
  if s.bytes src = 0x48 ∧ s.bytes (src + 1) = 0x01 ∧ modField modrm = 3 then
    match facts (regField modrm), facts (rmField modrm) with
    | some a, some b => some (regField modrm, a, b)
    | _, _ => none
  else none

/-- `AND REG, imm32`: the register with its constant and the immediate. -/
def andConstAt : Option (BitVec 3 × BitVec 64 × BitVec 32) :=
  if s.bytes src = 0x48 ∧ s.bytes (src + 1) = 0x81 ∧ s.bytes (src + 2) &&& 0xf8 = 0xe0 then
    (facts (rmField (s.bytes (src + 2)))).map fun a ↦
      (rmField (s.bytes (src + 2)), a, s.word32 (src + 3))
  else none

/-- What is known behind the test for `XOR`. -/
def zeroed : Facts := (xorZeroAt s src).elim facts fun reg ↦ facts.set reg 0

/-- One turn of `optimize_constant_propagation`. -/
def constantPropagationTurn : Turn Byte × Facts :=
  match movImm64At s src with
  | some reg => (⟨[s.memcpy src 10 10], 10, 1, by decide⟩, facts.set reg (s.word64 (src + 2)))
  | none =>
    let facts := zeroed s facts src
    let hits := if (xorZeroAt s src).isSome then 1 else 0
    match addConstAt s facts src with
    | some (reg, a, b) => (constantTurn reg (a + b) 3 (by decide), facts.set reg (a + b))
    | none =>
      match andConstAt s facts src with
      | some (reg, a, imm) =>
        (constantTurn reg (a &&& imm.setWidth 64) 7 (by decide), facts.set reg (a &&& imm.setWidth 64))
      | none => ({ s.copyByte src with hits }, facts)

/-- `optimize_constant_propagation`. -/
def optimizeConstantPropagation (buf : Nat → Byte) : Output Byte :=
  rewrite (constantPropagationTurn s) (fun _ ↦ none) s.size buf

end ConstantPropagation

section DeadCode

variable (s : Source) (src : Nat)

/-- `MOV REG, REG`. The two tests of the mode field exclude each other. -/
def deadMov : Bool :=
  let modrm := s.bytes (src + 2)
  s.bytes src = 0x48 ∧ s.bytes (src + 1) = 0x89 ∧ modrm < 0xc0 ∧
    modField modrm = 3 ∧ regField modrm = rmField modrm

/-- `NOP`. -/
def deadNop : Bool := s.bytes src = 0x90

/-- `LEA REG, [REG]`. -/
def deadLea : Bool :=
  s.bytes src = 0x48 ∧ s.bytes (src + 1) = 0x8d ∧ s.bytes (src + 2) = 0x04 ∧
    s.bytes (src + 3) &&& 0xc7 = 0x05

/-- `TEST REG, REG` with something other than `0F` behind it. -/
def deadTest : Bool :=
  let modrm := s.bytes (src + 2)
  s.bytes src = 0x48 ∧ s.bytes (src + 1) = 0x85 ∧ modField modrm = 3 ∧
    regField modrm = rmField modrm ∧ src + 3 < s.size ∧ s.bytes (src + 3) ≠ 0x0f

theorem deadLea_pos : 0 < 4 := by decide

/-- One turn of `optimize_dead_code_elimination`. A later test takes the place of an earlier one. -/
def deadCodeTurn : Turn Byte :=
  if deadTest s src then ⟨[], 3, 1, by decide⟩
  else if deadLea s src then ⟨[], 4, 1, deadLea_pos⟩
  else if deadNop s src then ⟨[], 1, 1, by decide⟩
  else if deadMov s src then ⟨[], 3, 1, by decide⟩
  else s.copyByte src

/-- `optimize_dead_code_elimination`. -/
def optimizeDeadCodeElimination (buf : Nat → Byte) : Output Byte :=
  rewrite (fun (_ : Unit) src ↦ (deadCodeTurn s src, ())) () s.size buf

end DeadCode

section Fusion

/-- The four patterns that are fused. -/
inductive Fusion where
  | cmpJe
  | subSbb
  | andJcc
  | cmpSetcc
deriving DecidableEq

variable (s : Source) (src : Nat)

/-- Whether a pattern is found at an index. -/
def Fusion.found : Fusion → Bool
  | .cmpJe =>
    s.bytes src = 0x48 ∧ s.bytes (src + 1) = 0x81 ∧ s.bytes (src + 2) = 0xf8 ∧
      src + 7 < s.size ∧ s.bytes (src + 7) = 0x0f ∧ s.bytes (src + 8) = 0x84
  | .subSbb =>
    let modrm := s.bytes (src + 2)
    let modrm2 := s.bytes (src + 5)
    s.bytes src = 0x48 ∧ s.bytes (src + 1) = 0x29 ∧ modField modrm = 3 ∧
      regField modrm = rmField modrm ∧ src + 5 < s.size ∧
      s.bytes (src + 3) = 0x48 ∧ s.bytes (src + 4) = 0x19 ∧ modField modrm2 = 3 ∧
      regField modrm2 = rmField modrm2
  | .andJcc =>
    s.bytes src = 0x48 ∧ s.bytes (src + 1) = 0x81 ∧ s.bytes (src + 2) &&& 0xf8 = 0xe0 ∧
      src + 7 < s.size ∧ s.bytes (src + 7) = 0x0f ∧
      (s.bytes (src + 8) = 0x84 ∨ s.bytes (src + 8) = 0x85)
  | .cmpSetcc =>
    s.bytes src = 0x48 ∧ s.bytes (src + 1) = 0x39 ∧ src + 5 < s.size ∧
      s.bytes (src + 3) = 0x0f ∧ 0x90 ≤ s.bytes (src + 4) ∧ s.bytes (src + 4) ≤ 0x9f

/-- The length of a pattern. -/
def Fusion.len : Fusion → Nat
  | .cmpJe | .andJcc => 13
  | .subSbb | .cmpSetcc => 6

/-- What is written for a pattern. -/
def Fusion.emits : Fusion → List (Emit Byte)
  | .cmpJe => [store [0x48, 0x85, 0xc0, 0x0f, 0x84], s.memcpy (src + 9) 4 4]
  | .subSbb => [store [0x48, 0x31, s.bytes (src + 2), 0x48, 0x19, s.bytes (src + 5)]]
  | .andJcc =>
    [store [0x48, 0xf7, 0xc0 ||| s.bytes (src + 2) &&& 7], s.memcpy (src + 3) 4 4,
      store [0x0f, s.bytes (src + 8)], s.memcpy (src + 9) 4 4]
  | .cmpSetcc => [store (slice s.bytes src 6)]

/-- The pattern that is fused at an index, where it is far enough from the end. -/
def fusionAt : Option Fusion :=
  if src + 5 < s.size then
    [Fusion.cmpJe, .subSbb, .andJcc, .cmpSetcc].find? fun f ↦ f.found s src
  else none

/-- One turn of `optimize_instruction_fusion`. -/
def fusionTurn : Turn Byte :=
  match fusionAt s src with
  | some f => ⟨f.emits s src, f.len, 1, by cases f <;> decide⟩
  | none => s.copyByte src

/-- `optimize_instruction_fusion`. -/
def optimizeInstructionFusion (buf : Nat → Byte) : Output Byte :=
  rewrite (fun (_ : Unit) src ↦ (fusionTurn s src, ())) () s.size buf

end Fusion

section Unrolling

variable (s : Source) (src : Nat)

/-- The length of what is in front of the first byte that is the opcode of `LOOP`, from an index on. -/
def findLoop (start : Nat) : Option Nat :=
  (List.range (s.size - 2 - start)).find? fun k ↦ s.bytes (start + k) = 0xe2

/-- `has_control_flow`. -/
def hasControlFlow (start len : Nat) : Bool :=
  (List.range len).any fun i ↦
    let byte := s.bytes (start + i)
    (byte = 0x0f ∧ i + 1 < len ∧ 0x80 ≤ s.bytes (start + i + 1) ∧ s.bytes (start + i + 1) ≤ 0x8f) ∨
      byte = 0xe8 ∨ byte = 0xc3 ∨ byte = 0xc2

/-- `has_cf`. -/
def hasCf (start len : Nat) : Bool :=
  (List.range (min len 256)).any fun i ↦
    let byte := s.bytes (start + i)
    byte = 0xe8 ∨ byte = 0xc3 ∨ byte = 0xc2

/-- Copies of a loop's body. -/
def copies (n start body : Nat) : List (Emit Byte) := List.replicate n (s.memcpy start body body)

/-- `LOOP`, with a negative displacement of which a byte is kept. -/
def loopBack (back : Nat) : Emit Byte := store [0xe2, BitVec.ofInt 8 (-(back : Int))]

/-- `MOV ECX, remaining`, a loop's body and `LOOP`. -/
def remainingLoop (remaining : BitVec 32) (start body : Nat) : List (Emit Byte) :=
  [store [0xb9], ⟨imm32 remaining, 4⟩, s.memcpy start body body, loopBack (body + 5)]

/-- `MOV AL, remaining`, `MOVZX ECX, AL`, a loop's body and `LOOP`. -/
def remainingLoop8 (remaining : Byte) (start body : Nat) : List (Emit Byte) :=
  [store [0xb0, remaining, 0x0f, 0xb6, 0xc8], s.memcpy start body body, loopBack (body + 8)]

/-- What is written for a loop that counts in 32 bits, when it is unrolled. -/
def unrolled (n : BitVec 32) (start body : Nat) : Option (List (Emit Byte)) :=
  if n ≤ 8 then if n.toNat * body < 1024 then some (copies s n.toNat start body) else none
  else if n ≤ 32 then
    if 8 * body + 7 < 2048 then some (copies s 8 start body ++ remainingLoop s (n - 8) start body)
    else none
  else if n ≤ 64 then
    if 4 * body + 7 < 2048 then some (copies s 4 start body ++ remainingLoop s (n - 4) start body)
    else none
  else none

/-- What is written for a loop that counts in 8 bits, when it is unrolled. -/
def unrolled8 (n : Byte) (start body : Nat) : Option (List (Emit Byte)) :=
  if n ≤ 8 then some (copies s n.toNat start body)
  else if n ≤ 32 then some (copies s 8 start body ++ remainingLoop8 s (n - 8) start body)
  else none

theorem movEcx_pos (body : Nat) : 0 < 5 + body + 2 := by omega

theorem xorEcx_pos (body : Nat) : 0 < 4 + body + 2 := by omega

/-- Pattern 1, `MOV ECX, imm32`: the turn, unless the other patterns are tried. -/
def unrollMovEcx : Option (Turn Byte) :=
  if s.bytes src = 0xb9 then
    let n := s.word32 (src + 1)
    match findLoop s (src + 5) with
    | none => some (s.copyByte src)
    | some body =>
      if n = 0 then some ⟨[], 5 + body + 2, 1, movEcx_pos body⟩
      else if body = 0 then some (s.copyByte src)
      else if hasControlFlow s (src + 5) body then some (s.copyByte src)
      else (unrolled s n (src + 5) body).map fun emits ↦ ⟨emits, 5 + body + 2, 1, movEcx_pos body⟩
  else none

/-- Pattern 2, `XOR ECX, ECX` and the byte `B0`: the turn, unless the other patterns are tried. -/
def unrollXorEcx : Option (Turn Byte) :=
  if s.bytes src = 0x31 ∧ s.bytes (src + 1) = 0xc9 ∧ s.bytes (src + 2) = 0xb0 then
    match findLoop s (src + 4) with
    | none => none
    | some body =>
      if body = 0 then none
      else if hasCf s (src + 4) body then none
      else
        (unrolled8 s (s.bytes (src + 3)) (src + 4) body).map fun emits ↦
          ⟨emits, 4 + body + 2, 1, xorEcx_pos body⟩
  else none

/-- One turn of `optimize_loop_unrolling`. The other three patterns look at the code and do nothing. -/
def unrollTurn : Turn Byte :=
  if src + 10 < s.size then
    match unrollMovEcx s src with
    | some t => t
    | none =>
      match unrollXorEcx s src with
      | some t => t
      | none => s.copyByte src
  else s.copyByte src

/-- `optimize_loop_unrolling`. -/
def optimizeLoopUnrolling (buf : Nat → Byte) : Output Byte :=
  rewrite (fun (_ : Unit) src ↦ (unrollTurn s src, ())) () s.size buf

end Unrolling

section Pipeline

/-- What the phases leave: what each pass has written that was run, the code behind the last of them,
and `total_optimizations`. -/
structure Optimized where
  outputs : List (Output Byte)
  code : Source
  total : Nat

/-- One phase with its buffer, unless `malloc` gives none. The output is gone on with if something has
been optimized. -/
def Optimized.phase (o : Optimized) (pass : Source → (Nat → Byte) → Output Byte) :
    Option (Nat → Byte) → Optimized
  | none => o
  | some buf =>
    let out := pass o.code buf
    if 0 < out.hits then ⟨o.outputs ++ [out], ⟨out.buf, out.dst⟩, o.total + out.hits⟩
    else { o with outputs := o.outputs ++ [out] }

/-- `buffer_size`. -/
def bufferSize : Nat := 256 * 64

/-- The phases of `hotblock_apply_optimizations`, with the bytes from `x86_entry` on and what is in the
buffers. -/
def applyOptimizations (entry : Nat → Byte) (buf₁ buf₂ buf₃ buf₄ : Option (Nat → Byte)) : Optimized :=
  (((Optimized.mk [] ⟨entry, 256⟩ 0).phase optimizeDeadCodeElimination buf₁
    |>.phase optimizeConstantPropagation buf₂).phase optimizeInstructionFusion buf₃).phase
      optimizeLoopUnrolling buf₄

end Pipeline

end Arm2x86.Hotblock
