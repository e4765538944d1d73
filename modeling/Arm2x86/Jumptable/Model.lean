import Arm2x86.Base.Memory

/-!
# Jump table

The table of `modules/arm2x86_jumptable.c`. A target is kept twice: in the entry of its guest
address, and in the machine code of the stub that jumps there.
-/

namespace Arm2x86.Jumptable

/-- An address: of the guest in a key, of the host elsewhere. Zero is NULL. -/
abbrev Addr := BitVec 64

/-- `JumpTableEntry`, `arm2x86_jumptable.h:11`. -/
structure Entry where
  armAddr : Addr
  x86Stub : Addr
  x86Target : Addr
  hitCount : BitVec 32
  isPatched : Bool
deriving DecidableEq

/-- An entry that was never used. -/
def Entry.zero : Entry := ⟨0, 0, 0, 0, false⟩

/-- `JumpTable`, `arm2x86_jumptable.h:22`. The entries are those below `count`; the others have
never been used. -/
structure JumpTable where
  entries : List Entry
  capacity : Nat
  codeMemory : Addr
  memoryUsed : Nat
  memoryCapacity : Nat
deriving DecidableEq

/-- A table and the memory its stubs are in. -/
structure State where
  table : JumpTable
  mem : Memory

/-- `JUMP_TABLE_SIZE`. -/
def jumpTableSize : Nat := 4096

/-- `STUB_SIZE_INDIRECT`. -/
def stubSize : Nat := 14

/-- `jumptable_init`, `arm2x86_jumptable.c:35`; `code` is what `mmap` returns. -/
def init (code : Option Addr) (mem : Memory) : Option State :=
  match code with
  | none => none
  | some codeMemory =>
    some ⟨{ entries := [], capacity := jumpTableSize, codeMemory, memoryUsed := 0,
            memoryCapacity := 1024 * 1024 }, mem⟩

/-- `jumptable_lookup`, `arm2x86_jumptable.c:71`: the index of the entry, which counts the hit. -/
def lookup (jt : JumpTable) (armAddr : Addr) : Option Nat × JumpTable :=
  match jt.entries.findIdx? fun e ↦ e.armAddr = armAddr with
  | none => (none, jt)
  | some i =>
    (some i, { jt with
      entries := jt.entries.modify i fun e ↦ { e with hitCount := e.hitCount + 1 } })

/-- The loop of `jumptable_create_entry` over the entries from index `i` on: the index of the
first entry with the fewest hits, given that of the entries before. -/
def leastHit (lruIdx : Nat) (minHits : BitVec 32) : Nat → List Entry → Nat
  | _, [] => lruIdx
  | i, e :: rest =>
    if e.hitCount < minHits then leastHit i e.hitCount (i + 1) rest
    else leastHit lruIdx minHits (i + 1) rest

/-- The index of the entry that is used again when the table is full. -/
def lruIndex (entries : List Entry) : Nat :=
  leastHit 0 (entries.headD .zero).hitCount 1 (entries.drop 1)

/-- `jmp [rip+0]` and the target. -/
def stubCode (target : Addr) : List Byte :=
  [0xff, 0x25, 0x00, 0x00, 0x00, 0x00] ++ leBytes 8 target.toNat

/-- The entry that a new guest address gets: the least hit one of a full table, and one that was
never used otherwise. -/
def takeEntry (jt : JumpTable) : Nat × JumpTable :=
  if jt.entries.length ≥ jt.capacity then (lruIndex jt.entries, jt)
  else (jt.entries.length, { jt with entries := jt.entries ++ [.zero] })

/-- `jumptable_create_entry`, `arm2x86_jumptable.c:85`. The entry is filled before the memory for
its stub is known to suffice. -/
def createEntry (s : State) (armAddr x86Target : Addr) : Option Nat × State :=
  if x86Target = 0 then (none, s)
  else
    match lookup s.table armAddr with
    | (some i, jt) =>
      (some i, { s with table := { jt with
        entries := jt.entries.modify i fun e ↦ { e with x86Target } } })
    | (none, jt) =>
      let (i, jt) := takeEntry jt
      let jt := { jt with
        entries := jt.entries.modify i fun e ↦
          { e with armAddr, x86Target, hitCount := 0, isPatched := false } }
      if jt.memoryUsed + stubSize > jt.memoryCapacity then (none, { s with table := jt })
      else
        let stub := jt.codeMemory + BitVec.ofNat 64 jt.memoryUsed
        (some i, {
          table := { jt with
            entries := jt.entries.modify i fun e ↦ { e with x86Stub := stub }
            memoryUsed := jt.memoryUsed + stubSize }
          mem := s.mem.write stub (stubCode x86Target) })

/-- `jumptable_patch_entry`, `arm2x86_jumptable.c:160`, for the entry of an index; no entry is a
NULL pointer. -/
def patchEntry (s : State) (i : Nat) (newX86Target : Addr) : Int × State :=
  match s.table.entries[i]? with
  | none => (-1, s)
  | some entry =>
    if entry.x86Stub = 0 ∨ newX86Target = 0 then (-1, s)
    else
      (0, {
        table := { s.table with
          entries := s.table.entries.modify i fun e ↦
            { e with x86Target := newX86Target, isPatched := true } }
        mem := s.mem.write (entry.x86Stub + 6) (leBytes 8 newX86Target.toNat) })

/-- The table behind `jumptable_init`, also where its `mmap` fails. -/
def initTable (code : Option Addr) : JumpTable :=
  { entries := [], capacity := jumpTableSize, codeMemory := code.getD 0, memoryUsed := 0,
    memoryCapacity := 1024 * 1024 }

/-- The table, set up first when it has no memory; `code` is what `mmap` returns. -/
def setUp (s : State) (code : Option Addr) : State :=
  if s.table.codeMemory = 0 then { s with table := initTable code } else s

/-- What `nb_getTrampolineWithJumps` returns, if it does not read a stub through a NULL entry. -/
inductive Trampoline where
  | null
  | stub (x86Stub : Addr)
  | nullRead
deriving DecidableEq

/-- `nb_getTrampolineWithJumps`, `arm2x86_jumptable.c:199`; `sym` is the symbol that it finds. -/
def getTrampolineWithJumps (s : State) (handle name sym : Addr) (code : Option Addr) :
    Trampoline × State :=
  if handle = 0 ∨ name = 0 ∨ sym = 0 then (.null, s)
  else
    let s := setUp s code
    match lookup s.table sym with
    | (some i, jt) => (.stub (jt.entries.getD i .zero).x86Stub, { s with table := jt })
    | (none, jt) =>
      match createEntry { s with table := jt } sym sym with
      | (some i, s) => (.stub (s.table.entries.getD i .zero).x86Stub, s)
      | (none, s) => (.nullRead, s)

/-- A call on a table. -/
inductive Call where
  | lookup (armAddr : Addr)
  | create (armAddr x86Target : Addr)
  | patch (i : Nat) (newX86Target : Addr)

def Call.run (s : State) : Call → State
  | .lookup armAddr => { s with table := (Jumptable.lookup s.table armAddr).2 }
  | .create armAddr x86Target => (createEntry s armAddr x86Target).2
  | .patch i newX86Target => (patchEntry s i newX86Target).2

/-- The memory that holds the stubs. -/
def JumpTable.code (jt : JumpTable) : Region := ⟨jt.codeMemory, jt.memoryCapacity⟩

/-- The memory of an entry's stub. -/
def Entry.stub (e : Entry) : Region := ⟨e.x86Stub, stubSize⟩

/-- Every entry has a stub of its own that jumps to the entry's target. -/
structure Coherent (s : State) : Prop where
  nonnull : ∀ e ∈ s.table.entries, e.x86Stub ≠ 0
  inside : ∀ e ∈ s.table.entries, ∀ p ∈ e.stub, p ∈ s.table.code
  code : ∀ e ∈ s.table.entries, s.mem.read e.x86Stub stubSize = stubCode e.x86Target
  disjoint : ∀ i j : Nat, i ≠ j → ∀ d e : Entry, s.table.entries[i]? = some d →
    s.table.entries[j]? = some e → ∀ p ∈ d.stub, p ∉ e.stub

end Arm2x86.Jumptable
