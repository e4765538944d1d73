import Arm2x86.Easy.Model

/-!
# Batches on an instance

`arm2x86_translate_batch` and the workers of `arm2x86_translate_batch_parallel`
(`modules/arm2x86_easy.c:933`) go through the same steps for every block; only the flags of their
cache entries differ. A worker is a program counter with its local variables, one step is one call
into the tables or the system, and a run may take the steps of several workers in any order.
-/

namespace Arm2x86.Easy

open Tcache

/-- `arm2x86_code_block_t`, with the guest code; `output` tells whether there is a place for the
result. -/
structure CodeBlock where
  armCode : Addr
  code : List Byte
  address : Addr
  output : Bool

/-- The key of a block in the cache. -/
def CodeBlock.key (b : CodeBlock) : Addr := if b.address ≠ 0#64 then b.address else b.armCode

/-- The test for the blocks that are skipped. -/
def CodeBlock.valid (b : CodeBlock) : Bool := b.armCode != 0#64 && !b.code.isEmpty && b.output

/-- The next call of a worker, with the pointers it holds. -/
inductive Phase where
  | lookupCache
  | lookupHash
  | lookupPcache
  | mapCached (cachedCode : Addr)
  | freeCopied (cachedCode x86Code : Addr) (size : Nat)
  | insertCached (cachedCode x86Code : Addr) (size : Nat)
  | hashCached (cachedCode x86Code : Addr) (size : Nat)
  | freeCached (cachedCode : Addr) (x86Code : Option Addr)
  | convert
  | hashConverted (x86Code : Addr) (size : Nat)
  | insertConverted (x86Code : Addr) (size : Nat)
deriving DecidableEq, Repr

/-- A worker with the blocks it has left. `owned` are the flags of its cache entries: not set by
`arm2x86_translate_batch`, both set by `translate_batch_worker`. -/
structure Worker where
  owned : Bool
  blocks : List CodeBlock
  phase : Phase

/-- The step of a worker on the block at hand: its next phase, or none when the block is done. -/
def Phase.step (phase : Phase) (owned : Bool) (b : CodeBlock) (s : Instance) (ans : Answers) :
    Option (Option Phase × Instance) :=
  match phase with
  | .lookupCache =>
    if b.valid then do
      let (hit, s) ← s.tcacheLookup b.key
      return (if hit.isSome then none else some .lookupHash, s)
    else some (none, s)
  | .lookupHash =>
    some (if (s.codeHashLookup (codeHash b.code)).isSome then none else some .lookupPcache, s)
  | .lookupPcache =>
    match s.pcache, ans.pcache, ans.buffer.place s.regions with
    | true, some code, some buf => some (some (.mapCached buf), s.occupy buf code)
    | _, _, _ => some (some .convert, s)
  | .mapCached buf =>
    match ans.copy.place s.regions with
    | some exec =>
      let code := (s.regions buf).getD []
      some (some (.freeCopied buf exec code.length), s.occupy exec code)
    | none => some (some (.freeCached buf none), s)
  | .freeCopied buf exec size => some (some (.insertCached buf exec size), s.release buf)
  | .insertCached buf exec size => do
    let s ← s.tcacheInsert b.key exec size owned ans.entry
    return (some (.hashCached buf exec size), s)
  | .hashCached buf exec size =>
    some (some (.freeCached buf (some exec)),
      s.codeHashInsert (codeHash b.code) exec size ans.hashEntry)
  -- reached behind the copy, too, which has freed the buffer already
  | .freeCached buf exec => some (if exec.isSome then none else some .convert, s.release buf)
  | .convert =>
    match ans.code.place s.regions with
    | none => some (none, s)
    | some a =>
      match ans.convert b.armCode b.code a with
      | none => some (none, s)
      | some x86 => some (some (.hashConverted a x86.length), s.occupy a x86)
  | .hashConverted a size =>
    some (some (.insertConverted a size),
      s.codeHashInsert (codeHash b.code) a size ans.hashEntry)
  | .insertConverted a size => do
    let s ← s.tcacheInsert b.key a size owned ans.entry
    return (none, s)

/-- The step of a worker: the loop over its blocks. -/
def Worker.step (w : Worker) (s : Instance) (ans : Answers) : Option (Worker × Instance) :=
  match w.blocks with
  | [] => some (w, s)
  | b :: rest => do
    let (next, s) ← w.phase.step w.owned b s ans
    match next with
    | some phase => return ({ w with phase }, s)
    | none => return ({ w with blocks := rest, phase := .lookupCache }, s)

/-- An instance and the workers on it. -/
structure System where
  inst : Instance
  workers : List Worker

inductive Event where
  | translateEasy (armCode : Addr) (code : List Byte) (ans : Answers)
  /-- `arm2x86_translate_batch` begins -/
  | translateBatch (blocks : List CodeBlock)
  /-- `arm2x86_translate_batch_parallel` starts its workers, each with its part of the batch -/
  | translateBatchParallel (parts : List (List CodeBlock))
  /-- the next step of a worker -/
  | step (worker : Nat) (ans : Answers)
  | loadAotModule (baseAddr : Addr) (code : List Byte) (complete : Bool) (ans : Answers)
  | invalidateEasy

/-- A worker at the start of its loop. -/
def Worker.start (owned : Bool) (blocks : List CodeBlock) : Worker := ⟨owned, blocks, .lookupCache⟩

/-- One event. -/
def Event.exec : Event → System → Option System
  | .translateEasy armCode code ans, sys => do
    let (_, inst) ← sys.inst.translateEasy armCode code ans
    return { sys with inst }
  | .translateBatch blocks, sys =>
    some { sys with workers := sys.workers ++ [Worker.start false blocks] }
  | .translateBatchParallel parts, sys =>
    some { sys with workers := sys.workers ++ parts.map (Worker.start true) }
  | .step worker ans, sys =>
    match sys.workers[worker]? with
    | none => some sys
    | some w => do
      let (w, inst) ← w.step sys.inst ans
      return { inst, workers := sys.workers.set worker w }
  | .loadAotModule baseAddr code complete ans, sys => do
    let inst ← sys.inst.loadAotModule baseAddr code complete ans
    return { sys with inst }
  | .invalidateEasy, sys => do
    let inst ← sys.inst.invalidateEasy
    return { sys with inst }

/-- The states of a run. -/
def statesOf : List Event → System → List System
  | [], sys => [sys]
  | event :: events, sys =>
    sys :: match event.exec sys with
      | none => []
      | some sys' => statesOf events sys'

/-- The events of a run, each with the state before it. -/
def stepsOf : List Event → System → List (Event × System)
  | [], _ => []
  | event :: events, sys =>
    (event, sys) :: match event.exec sys with
      | none => []
      | some sys' => stepsOf events sys'

end Arm2x86.Easy
