import Arm2x86.Base.Bytes

/-!
# The translation runtime

`modules/arm2x86_dbt.c`: a table of translated blocks under one mutex, the code cache they lie
in, and the check for guest code that changed since its translation. The mutex is not recursive:
a result `none` of the `Option` monad is a call that waits for a lock its own thread holds. Guest
memory and the code cache are byte maps; a code pointer is an offset into the code cache, whose
end the translators are assumed not to cross. The three translators are parameters; what they
read beside the guest code (settings of the context, the host's stack) is a value of `E`.
-/

namespace Arm2x86.Dbt

/-- Guest addresses, `uint64_t`. -/
abbrev Addr := BitVec 64

/-- `DBT_CACHE_SIZE`. -/
def cacheSize : Nat := 1024

/-- `DBT_CODE_CACHE_SIZE`. -/
def codeCacheSize : Nat := 64 * 1024 * 1024

/-- `Arm2x86Mode`, `arm2x86.h:668`. -/
inductive Mode where
  | arm64
  | arm32
  | thumb
  | auto
deriving DecidableEq, Repr

/-- `DBTBlockInternal`, `modules/arm2x86_dbt.c:11`, with the saved guest code by value. -/
structure Block where
  armPc : Addr
  x86Entry : Option Nat
  blockSize : BitVec 32
  hitCount : BitVec 32
  originalCode : Option (List Byte)
  originalSize : Nat
deriving DecidableEq

/-- An entry of the zeroed table. -/
def Block.zero : Block := ⟨0#64, none, 0#32, 0#32, none, 0⟩

/-- The globals of the runtime, guest memory, and the mode of every context. `cache` is indexed
below `count`, and `mapped` tells whether `dbt_init` got the code cache. -/
structure State where
  locked : Bool
  cache : Nat → Block
  count : Nat
  mapped : Bool
  cacheUsed : Nat
  code : Nat → Byte
  memory : Addr → Byte
  mode : Nat → Mode

/-- A block translator: from its surroundings, the guest address, the place in the code cache and
the guest bytes to the code written there, on failure what was written until then. The code of a
block is shorter than 4 GiB. -/
structure Converter (E : Type) where
  run : E → Addr → Nat → List Byte → Except (List Byte) (List Byte)
  short : ∀ env armPc blockMem armCode x86, run env armPc blockMem armCode = .ok x86 →
    x86.length < 2 ^ 32

/-- `arm2x86_convert_block`, `arm2x86_convert_block_arm32` and `arm2x86_convert_block_thumb`. -/
structure Converters (E : Type) where
  arm64 : Converter E
  arm32 : Converter E
  thumb : Converter E

variable {E : Type}

/-- The translator of a mode. -/
def Converters.convert (conv : Converters E) : Mode → Converter E
  | .arm32 => conv.arm32
  | .thumb => conv.thumb
  | _ => conv.arm64

/-- The guest code of a block that is saved, `64 * 4` bytes. -/
def armSize : Nat := 64 * 4

/-- The guest code a translator is given. -/
def sourceSize : Mode → Nat
  | .thumb => armSize * 2
  | _ => armSize

/-- `n` bytes of guest memory. -/
def readMemory (memory : Addr → Byte) (addr : Addr) (n : Nat) : List Byte :=
  (List.range n).map fun i ↦ memory (addr + BitVec.ofNat 64 i)

/-- The bytes `bs` written at an offset of the code cache. -/
def writeCode (code : Nat → Byte) (offset : Nat) (bs : List Byte) : Nat → Byte :=
  fun i ↦ if offset ≤ i then bs[i - offset]?.getD (code i) else code i

/-- `dbt_check_smc`, `modules/arm2x86_dbt.c:28`. -/
def dbtCheckSmc (memory : Addr → Byte) (block : Block) : Bool :=
  match block.originalCode, block.x86Entry with
  | some original, some _ =>
    (List.range ((block.originalSize + 3) / 4)).any fun k ↦
      leNat (readMemory memory (block.armPc + BitVec.ofNat 64 (4 * k)) 4) ≠
        leNat ((original.drop (4 * k)).take 4)
  | _, _ => false

namespace State

/-- `pthread_mutex_lock(&g_dbt_mutex)`. -/
def lock (s : State) : Option State :=
  if s.locked then none else some { s with locked := true }

/-- `pthread_mutex_unlock(&g_dbt_mutex)`. -/
def unlock (s : State) : State := { s with locked := false }

/-- `g_dbt_cache[i] = block`. -/
def setBlock (s : State) (i : Nat) (block : Block) : State :=
  { s with cache := fun j ↦ if j = i then block else s.cache j }

/-- The first block of the table with the address. -/
def findBlock (s : State) (armPc : Addr) : Option Nat :=
  (List.range s.count).find? fun i ↦ (s.cache i).armPc = armPc

end State

/-- What `dbt_invalidate_block` leaves of a block. -/
def Block.invalidated (b : Block) : Block :=
  { b with armPc := 0#64, x86Entry := none, originalCode := none }

/-- `dbt_invalidate_block`, `modules/arm2x86_dbt.c:46`; its parameter is an `uint32_t`. -/
def dbtInvalidateBlock (armPc : BitVec 32) (s : State) : Option State := do
  let s ← s.lock
  let s := match s.findBlock (armPc.setWidth 64) with
    | none => s
    | some i => s.setBlock i (s.cache i).invalidated
  return s.unlock

/-- `dbt_flush_cache`, `modules/arm2x86_dbt.c:62`. -/
def dbtFlushCache (s : State) : Option State := do
  let s ← s.lock
  let cleared : State := { s with
    cache := fun i ↦
      if i < s.count then { (s.cache i).invalidated with hitCount := 0#32 } else s.cache i
    count := 0
    cacheUsed := 0 }
  return cleared.unlock

/-- `dbt_lookup`, `modules/arm2x86_dbt.c:78`, with the index of the block it returns. -/
def dbtLookup (armPc : Addr) (s : State) : Option (Option Nat × State) := do
  let s ← s.lock
  match s.findBlock armPc with
  | none => return (none, s.unlock)
  | some i =>
    if dbtCheckSmc s.memory (s.cache i) then
      let s ← dbtInvalidateBlock (armPc.setWidth 32) s
      return (none, s.unlock)
    else
      let block := s.cache i
      let s := s.setBlock i { block with hitCount := block.hitCount + 1 }
      return (some i, s.unlock)

/-- The index that `dbt_insert` evicts: the first of those with the fewest hits. -/
def leastHits (cache : Nat → Block) : Nat → Nat
  | 0 => 0
  | i + 1 =>
    let lru := leastHits cache i
    if (cache i).hitCount.slt (cache lru).hitCount then i else lru

/-- `dbt_insert`, `modules/arm2x86_dbt.c:101`. -/
def dbtInsert (armPc : Addr) (x86Entry : Nat) (blockSize : BitVec 32) (originalCode : List Byte)
    (originalSize : Nat) (s : State) : Option State := do
  let s ← s.lock
  let block : Block :=
    ⟨armPc, some x86Entry, blockSize, 0#32, some originalCode, originalSize⟩
  if s.count ≥ cacheSize then return (s.setBlock (leastHits s.cache s.count) block).unlock
  else return { s.setBlock s.count block with count := s.count + 1 }.unlock

/-- `dbt_translate_block`, `modules/arm2x86_dbt.c:183`, with the block and its size; `alloc`
tells whether the allocations of the call succeed. -/
def dbtTranslateBlock (conv : Converters E) (ctx : Nat) (armPc : Addr) (env : E) (alloc : Bool)
    (s : State) : Option (Option (Nat × Nat) × State) := do
  let (cached, s) ← dbtLookup armPc s
  match cached with
  | some i =>
    let block := s.cache i
    return (block.x86Entry.map fun entry ↦ (entry, block.blockSize.toNat), s)
  | none =>
    if s.mapped = false ∨ s.cacheUsed + 4096 > codeCacheSize then return (none, s)
    else if alloc = false then return (none, s)
    else
      let blockMem := s.cacheUsed
      let originalCopy := readMemory s.memory armPc armSize
      let mode := s.mode ctx
      let armCode := readMemory s.memory armPc (sourceSize mode)
      match (conv.convert mode).run env armPc blockMem armCode with
      | .error written => return (none, { s with code := writeCode s.code blockMem written })
      | .ok x86 =>
        let s := { s with code := writeCode s.code blockMem x86 }
        let s ← dbtInsert armPc blockMem (BitVec.ofNat 32 x86.length) originalCopy armSize s
        let s := { s with cacheUsed := s.cacheUsed + (x86.length + 15) / 16 * 16 }
        return (some (blockMem, x86.length), s)

/-- `dbt_init`, `modules/arm2x86_dbt.c:160`, in a process with the given memory and contexts. -/
def dbtInit (mapped : Bool) (code : Nat → Byte) (memory : Addr → Byte) (mode : Nat → Mode) :
    State where
  locked := false
  cache := fun _ ↦ Block.zero
  count := 0
  mapped := mapped
  cacheUsed := 0
  code := code
  memory := memory
  mode := mode

/-- What can happen to the runtime: a byte of guest memory is written, or one of the calls. -/
inductive Op (E : Type) where
  | write (addr : Addr) (value : Byte)
  | setMode (ctx : Nat) (mode : Mode)
  | invalidateBlock (armPc : Addr)
  | flushCache
  | translateBlock (ctx : Nat) (armPc : Addr) (env : E) (alloc : Bool)

/-- One step, with the block a translation returns. -/
def Op.exec (conv : Converters E) (op : Op E) (s : State) :
    Option (Option (Nat × Nat) × State) :=
  match op with
  | .write addr value =>
    some (none, { s with memory := fun a ↦ if a = addr then value else s.memory a })
  | .setMode ctx mode =>
    some (none, { s with mode := fun c ↦ if c = ctx then mode else s.mode c })
  | .invalidateBlock armPc => do
    -- the argument is truncated to the parameter's type
    let s ← dbtInvalidateBlock (armPc.setWidth 32) s
    return (none, s)
  | .flushCache => do
    let s ← dbtFlushCache s
    return (none, s)
  | .translateBlock ctx armPc env alloc => dbtTranslateBlock conv ctx armPc env alloc s

/-- The steps of a run, each with the state before it. -/
def stepsOf (conv : Converters E) : List (Op E) → State → List (Op E × State)
  | [], _ => []
  | op :: ops, s =>
    (op, s) :: match op.exec conv s with
      | none => []
      | some (_, s') => stepsOf conv ops s'

end Arm2x86.Dbt
