import Arm2x86.Base.Diagrams
import Arm2x86.Translate.Memory
import Arm2x86.Translate.Requests
import Arm2x86.Translate.StackRuns
import Arm2x86.X86.Contention
import Arm2x86.X86.Validity

/-!
# Atomic accesses

`translate_ldclr`, `translate_ldeor` and `translate_ldset` (`modules/arm2x86_translate64.c:3569`), which
nothing calls, and with the exclusives, `translate_cas` and `translate_ldadd` (`:3431`) what they are for:
to do an update of a location in one instruction, whatever other agents store to it.
-/

namespace Arm2x86.Translate

open X86

/-- The fetching operations with a loop. -/
inductive LoopOp where
  | clr
  | eor
  | set
deriving DecidableEq, Repr

namespace LoopOp

/-- The words of an operation, at both widths. -/
def diagram : LoopOp → Diagram 32
  | clr => ⟨0xbf20fc00, 0xb8201000⟩
  | eor => ⟨0xbf20fc00, 0xb8202000⟩
  | set => ⟨0xbf20fc00, 0xb8203000⟩

/-- What an operation puts in the place of the old value. -/
def value (k : LoopOp) (old x : BitVec 64) : BitVec 64 :=
  match k with
  | clr => old &&& ~~~ x
  | eor => old ^^^ x
  | set => old ||| x

end LoopOp

/-- The loop of `translate_ldclr`, `translate_ldeor` and `translate_ldset`. The distance of the jump back
is measured in front of the jump. -/
def fetchLoop (combine : Byte → Byte → Code) (op : BitVec 32) : List Code :=
  let body : List Code :=
    [[rex true 0 (rcx >>> 3) (rax >>> 3), 0x8b, modrm 0 (rcx &&& 7) (rax &&& 7)],
      movR64R64 r11 rcx, combine r11 rdx, movR64R64 rax rcx,
      [0xf0, rex true 0 (r11 >>> 3) (rax >>> 3), 0x0f, 0xb1, modrm 0 (r11 &&& 7) (rax &&& 7)]]
  [emitLoadArmReg (armReg op 5) rax true, emitLoadArmReg (armReg op 16) rdx (is64 op), [0x50], [0x51]] ++
    body ++ [[0x75, - BitVec.ofNat 8 body.flatten.length],
      emitStoreArmReg rcx (armReg op 0) (is64 op), [0x59], [0x58]]

def translateLdclr (op : BitVec 32) : List Code := fetchLoop andR64R64 op
def translateLdeor (op : BitVec 32) : List Code := fetchLoop xorR64R64 op
def translateLdset (op : BitVec 32) : List Code := fetchLoop orR64R64 op

/-- The code of an operation. -/
def LoopOp.code : LoopOp → BitVec 32 → List Code
  | clr => translateLdclr
  | eor => translateLdeor
  | set => translateLdset

section Statements

/-- Where an access to a location begins: the location is aligned and mapped, there is room on the
stack, and neither they nor the home overlap. -/
structure AccessStart (m : Machine) (slots : ArmReg → BitVec 64) (a : BitVec 64) (n : Nat) : Prop where
  pos : m.pos = 0
  slots : Slots m slots
  aligned : a.toNat % n = 0
  location : ∀ i < n, (m.mem (a + BitVec.ofNat 64 i)).isSome ∧
    a + BitVec.ofNat 64 i ∉ homeRegion (m.regs 5)
  room : ∀ i < 64, (m.mem (m.regs 4 - 64 + BitVec.ofNat 64 i)).isSome ∧
    m.regs 4 - 64 + BitVec.ofNat 64 i ∉ homeRegion (m.regs 5) ∧
      m.regs 4 - 64 + BitVec.ofNat 64 i ∉ (⟨a, n⟩ : Region)

/-- The width of an access in its word. -/
def accessWidth (op : BitVec 32) : Bool := op.getLsbD 30

/-- The stack is balanced, and one register has the value that was at the location. -/
structure Fetched (m : Machine) (slots : ArmReg → BitVec 64) (rd : ArmReg) (w : Bool) (old : BitVec 64)
    (m' : Machine) : Prop where
  stack : m'.regs 4 = m.regs 4
  slots : ∃ slots', Slots m' slots' ∧ SetsLow w slots rd old slots'

/-- The other guest registers that are cached keep their values. -/
def KeepsCached (m : Machine) (rd : ArmReg) (m' : Machine) : Prop :=
  ∀ alloc : Alloc, alloc.Drawn → ∀ r x, alloc.held r = some x → r ≠ rd →
    m'.regs (toGpr x) = m.regs (toGpr x)

variable (sem : Semantics)

/-- The loop updates the location at once and leaves the old value, and nothing else. -/
def LoopOp.Correct (k : LoopOp) (op : BitVec 32) : Prop :=
  ∀ m slots, AccessStart m slots (slots (armReg op 5)) (widthBytes (accessWidth op)) →
    sem.Atomically (k.code op).flatten (slots (armReg op 5)) (widthBytes (accessWidth op))
      (fun old ↦ k.value old (operand slots (armReg op 16))) m fun old m' ↦
        Fetched m slots (armReg op 0) (accessWidth op) old m' ∧ KeepsCached m (armReg op 0) m'

/-- The location keeps its bytes from one time of a run to another. -/
def Unchanged (code : List Byte) (a : BitVec 64) (n : Nat) (es : List Event) (m : Machine)
    (i j : Nat) : Prop :=
  ∀ k m₁ m₂, i ≤ k → k ≤ j → sem.contend code a (es.take i) m = some m₁ →
    sem.contend code a (es.take k) m = some m₂ → m₂.load a n = m₁.load a n

/-- What a load and a store exclusive leave at the end of a run: the value `v` that the location had at
the time `i` in the register of the load, and a status. With 0 the location has not changed until the
instruction that stores, and with 1 nothing is stored and it has. -/
def ExclusiveEnd (code : List Byte) (op op' : BitVec 32) (slots : ArmReg → BitVec 64) (es : List Event)
    (m m' : Machine) : Prop :=
  let a := slots (armReg op 5)
  let n := widthBytes (accessWidth op)
  m'.regs 4 = m.regs 4 ∧ ∃ i v m₁ loaded slots', sem.contend code a (es.take i) m = some m₁ ∧
    m₁.load a n = some (Machine.bytes v n) ∧ SetsLow (accessWidth op) slots (armReg op 0) v loaded ∧
      Slots m' slots' ∧
    ((SetsLow false loaded (armReg op' 16) 0 slots' ∧ ∃ j m₂ m₃, sem.OwnStep code a es m j m₂ m₃ ∧
        Unchanged sem code a n es m i j ∧
        m₃.load a n = some (Machine.bytes (operand loaded (armReg op' 0)) n) ∧
        ∀ k m₄ m₅, k ≠ j → sem.OwnStep code a es m k m₄ m₅ → m₅.load a n = m₄.load a n) ∨
      (SetsLow false loaded (armReg op' 16) 1 slots' ∧ (∃ j, ¬ Unchanged sem code a n es m i j) ∧
        ∀ k m₄ m₅, sem.OwnStep code a es m k m₄ m₅ → m₅.load a n = m₄.load a n))

/-- The other atomic accesses: a load and a store exclusive, a compare and swap, and a fetching
addition. -/
inductive AtomicAccess where
  | exclusives (ldaxr stlxr : BitVec 32)
  | cas (op : BitVec 32)
  | ldadd (op : BitVec 32)

namespace AtomicAccess

/-- The words, at both widths. A pair has one base register and one width. -/
def IsWord : AtomicAccess → Prop
  | exclusives op op' => Diagram.Matches ⟨0xbffffc00, 0x885ffc00⟩ op ∧
      Diagram.Matches ⟨0xbfe0fc00, 0x8800fc00⟩ op' ∧ armReg op 5 = armReg op' 5 ∧
        accessWidth op = accessWidth op'
  | cas op => Diagram.Matches ⟨0xbfa07c00, 0x88a07c00⟩ op
  | ldadd op => Diagram.Matches ⟨0xbf20fc00, 0xb8200000⟩ op

def code : AtomicAccess → List Code
  | exclusives op op' => translateLdaxr op ++ translateStlxr op'
  | cas op => translateCas op
  | ldadd op => translateLdadd op

/-- What the access does from a state, whatever other agents store to the location. -/
def Performs (k : AtomicAccess) (m : Machine) (slots : ArmReg → BitVec 64) : Prop :=
  match k with
  | exclusives op op' =>
    let a := slots (armReg op 5)
    let n := widthBytes (accessWidth op)
    AccessStart m slots a n → ∀ es m', (∀ bytes, .other bytes ∈ es → bytes.length = n) →
      sem.contend k.code.flatten a es m = some m' →
      (∃ m'', sem.Runs k.code.flatten m' m'' ∧ m''.pos = k.code.flatten.length) ∧
        (m'.pos = k.code.flatten.length → ExclusiveEnd sem k.code.flatten op op' slots es m m')
  | cas op =>
    let w := accessWidth op
    AccessStart m slots (slots (armReg op 5)) (widthBytes w) →
      sem.Atomically k.code.flatten (slots (armReg op 5)) (widthBytes w)
        (fun old ↦ if cut w old = cut w (operand slots (armReg op 16))
          then operand slots (armReg op 0) else old) m (Fetched m slots (armReg op 16) w)
  | ldadd op =>
    let w := accessWidth op
    AccessStart m slots (slots (armReg op 5)) (widthBytes w) →
      sem.Atomically k.code.flatten (slots (armReg op 5)) (widthBytes w)
        (fun old ↦ old + operand slots (armReg op 16)) m (Fetched m slots (armReg op 0) w)

/-- The code is valid and performs the access from every state. -/
structure Correct (k : AtomicAccess) : Prop where
  valid : Valid k.code.flatten
  performs : ∀ m slots, k.Performs sem m slots

end AtomicAccess

end Statements

section Locations

variable {x y : BitVec 64} {n : Nat}

/-- The low bytes of a value that is loaded. -/
private theorem load_bytes_le {mem : Sparse} {a : BitVec 64} (hn : n ≤ 8)
    (h : Sparse.load mem a 8 = some (Machine.bytes x 8)) :
    Sparse.load mem a n = some (Machine.bytes x n) := by
  rw [Sparse.load_eq_some_iff] at h ⊢
  refine ⟨Machine.length_bytes x n, fun i hi ↦ ?_⟩
  have h8 : i < 8 := by omega
  rw [h.2 i h8, Machine.getElem?_bytes x h8, Machine.getElem?_bytes x hi]

/-- Four bytes at least tell the low half. -/
private theorem low_of_bytes (hn : 4 ≤ n) (h : Machine.bytes x n = Machine.bytes y n) :
    x.setWidth 32 = y.setWidth 32 := by
  have htake : ∀ z : BitVec 64, (Machine.bytes z n).take 4 = Machine.bytes z 4 := by
    intro z
    rw [Machine.bytes, Machine.bytes, ← List.map_take, List.take_range, Nat.min_eq_left hn]
  have hfour : Machine.bytes x 4 = Machine.bytes y 4 := by
    rw [← htake, ← htake, h]
  have hvalue := congrArg Machine.value hfour
  rw [Machine.value_bytes_four, Machine.value_bytes_four] at hvalue
  have hlow := congrArg (BitVec.setWidth 32) hvalue
  simpa using hlow

theorem widthBytes_bounds (w : Bool) : 4 ≤ widthBytes w ∧ widthBytes w ≤ 8 := by
  cases w <;> decide

end Locations

section Instructions

variable (undef : Instr → Machine → Status) (rest : Instr → Machine → Option Machine) {v : Values}

/-- The operation of a loop goes to `RDX`. -/
private theorem exists_combine (k : LoopOp) : ∃ (combine : Byte → Byte → Code) (f : Values → Values),
    k.code = fetchLoop combine ∧ Computes (Semantics.core undef rest) (combine r11 rdx) f ∧
      ∀ v, ∃ x, f v = v.setReg 2 x := by
  cases k with
  | clr =>
    refine ⟨andR64R64, fun v ↦ v.setReg 2 (v.regs 2 &&& v.regs 11), rfl, ?_, fun v ↦ ⟨_, rfl⟩⟩
    apply computes_instr (decode_regReg r11 rdx · (by decide))
    intro m v hv
    have hexec : (Semantics.core undef rest).exec (.alu .and .b64 (.reg 2) (.reg 11)) m =
        some ((m.setReg 2 (((m.regs 2).setWidth 64 &&& (m.regs 11).setWidth 64).setWidth 64)).setStatus
          (.ofLogic ((m.regs 2).setWidth 64 &&& (m.regs 11).setWidth 64)
            (undef (.alu .and .b64 (.reg 2) (.reg 11)) m))) := rfl
    rw [BitVec.setWidth_eq, BitVec.setWidth_eq, BitVec.setWidth_eq, hv.regs] at hexec
    exact ⟨_, hexec, rfl, (hv.setReg (by decide) _).setStatus _⟩
  | eor =>
    refine ⟨xorR64R64, fun v ↦ v.setReg 2 (v.regs 2 ^^^ v.regs 11), rfl, ?_, fun v ↦ ⟨_, rfl⟩⟩
    apply computes_instr (decode_regReg r11 rdx · (by decide))
    intro m v hv
    have hexec : (Semantics.core undef rest).exec (.alu .xor .b64 (.reg 2) (.reg 11)) m =
        some ((m.setReg 2 (((m.regs 2).setWidth 64 ^^^ (m.regs 11).setWidth 64).setWidth 64)).setStatus
          (.ofLogic ((m.regs 2).setWidth 64 ^^^ (m.regs 11).setWidth 64)
            (undef (.alu .xor .b64 (.reg 2) (.reg 11)) m))) := rfl
    rw [BitVec.setWidth_eq, BitVec.setWidth_eq, BitVec.setWidth_eq, hv.regs] at hexec
    exact ⟨_, hexec, rfl, (hv.setReg (by decide) _).setStatus _⟩
  | set =>
    refine ⟨orR64R64, fun v ↦ v.setReg 2 (v.regs 2 ||| v.regs 11), rfl, ?_, fun v ↦ ⟨_, rfl⟩⟩
    apply computes_instr (decode_regReg r11 rdx · (by decide))
    intro m v hv
    have hexec : (Semantics.core undef rest).exec (.alu .or .b64 (.reg 2) (.reg 11)) m =
        some ((m.setReg 2 (((m.regs 2).setWidth 64 ||| (m.regs 11).setWidth 64).setWidth 64)).setStatus
          (.ofLogic ((m.regs 2).setWidth 64 ||| (m.regs 11).setWidth 64)
            (undef (.alu .or .b64 (.reg 2) (.reg 11)) m))) := rfl
    rw [BitVec.setWidth_eq, BitVec.setWidth_eq, BitVec.setWidth_eq, hv.regs] at hexec
    exact ⟨_, hexec, rfl, (hv.setReg (by decide) _).setStatus _⟩

/-- A compare and exchange where `RAX` has the value that it points to. -/
private theorem exec_cmpxchg {m : Machine} (hv : v.Of m) (hb : v.Beside (v.regs 0 + 0) 8)
    (hload : Sparse.load v.mem (v.regs 0 + 0) 8 = some (Machine.bytes (v.regs 0) 8)) :
    ∃ m', (Semantics.core undef rest).exec (.cmpxchg .b64 (.mem (some 0) none 0) 3) m = some m' ∧
      (v.put (v.regs 0 + 0) (Machine.bytes (v.regs 3) 8)).Of m' := by
  let s : Status := .ofSub (Size.b64.cut (m.regs 0)) (Size.b64.cut (v.regs 0)) false
  obtain ⟨m', hstore, -, hv'⟩ :=
    (hv.setStatus s).put (Machine.length_bytes (v.regs 3) 8) hb
  refine ⟨m', ?_, hv'⟩
  have hfetch : m.fetch .b64 (.mem (some 0) none 0) = some (v.regs 0) :=
    hv.read64_base hb.outside hload
  show m.execCmpxchg .b64 (.mem (some 0) none 0) 3 = _
  rw [Machine.execCmpxchg, hfetch]
  show (if Size.b64.cut (m.regs 0) = Size.b64.cut (v.regs 0) then _ else _) = some m'
  rw [if_pos (by rw [hv.regs])]
  show (m.setStatus s).write64 (m.regs 3) (.mem (some 0) none 0) = some m'
  rw [write64_base, Machine.regs_setStatus, hv.regs, hstore]

/-- An exchange with the sum, of `RBX` where `RAX` points. -/
private theorem exec_xadd {m : Machine} {x : BitVec 64} (hv : v.Of m) (hb : v.Beside (v.regs 0 + 0) 8)
    (hload : Sparse.load v.mem (v.regs 0 + 0) 8 = some (Machine.bytes x 8)) :
    ∃ m', (Semantics.core undef rest).exec (.xadd .b64 (.mem (some 0) none 0) 3) m = some m' ∧
      ((v.put (v.regs 0 + 0) (Machine.bytes (x + v.regs 3) 8)).setReg 3 x).Of m' := by
  let s : Status := .ofAdd (Size.b64.cut x) (Size.b64.cut (m.regs 3)) false
  obtain ⟨m', hstore, -, hv'⟩ := hv.put (Machine.length_bytes (x + v.regs 3) 8) hb
  have hthree : (3 : Gpr) ≠ 5 := by decide
  refine ⟨(m'.setStatus s).setReg 3 x, ?_, (hv'.setStatus s).setReg hthree x⟩
  have hfetch : m.fetch .b64 (.mem (some 0) none 0) = some x := hv.read64_base hb.outside hload
  have hsum : (Size.b64.cut x + Size.b64.cut (m.regs 3)).setWidth 64 = x + v.regs 3 := by
    show ((x.setWidth 64) + ((m.regs 3).setWidth 64)).setWidth 64 = _
    rw [BitVec.setWidth_eq, BitVec.setWidth_eq, BitVec.setWidth_eq, hv.regs]
  have hput : m.put .b64 (x + v.regs 3) (.mem (some 0) none 0) = some m' := by
    show m.write64 (x + v.regs 3) (.mem (some 0) none 0) = some m'
    rw [write64_base, hv.regs, hstore]
  show m.execXadd .b64 (.mem (some 0) none 0) 3 = _
  rw [Machine.execXadd, hfetch]
  show ((m.put .b64 ((Size.b64.cut x + Size.b64.cut (m.regs 3)).setWidth 64) (.mem (some 0) none 0)).map
    _).bind _ = _
  rw [hsum, hput]
  rfl

end Instructions

section Refutations

variable (undef : Instr → Machine → Status) (rest : Instr → Machine → Option Machine)

/-- All guest registers point to a location that has its own address. `RBX` has 1. -/
private def ownAddress : Values where
  slots _ := 0x5000
  regs g := if g = 5 then 0x10000 else if g = 4 then 0x8000 else if g = 3 then 1 else 0
  mem := Sparse.overwrite (fun q ↦ if q ∈ (⟨0x7fc0, 64⟩ : Region) then some 0 else none) 0x5000
    (Machine.bytes 0x5000 8)

private theorem ownAddress_location : ownAddress.Beside 0x5000 8 :=
  ⟨by decide +kernel, by decide +kernel⟩

private theorem ownAddress_room : ownAddress.Beside 0x7fc0 64 :=
  ⟨by decide +kernel, by decide +kernel⟩

private theorem ownAddress_load :
    Sparse.load ownAddress.mem 0x5000 8 = some (Machine.bytes 0x5000 8) :=
  Sparse.load_overwrite (by decide)

private theorem ownAddress_apart : ∀ i < 64,
    (0x7fc0 : BitVec 64) + BitVec.ofNat 64 i ∉ (⟨0x5000, 8⟩ : Region) := by
  decide +kernel

private theorem ownAddress_start (w : Bool) : AccessStart (machineOf ownAddress) (fun _ ↦ 0x5000) 0x5000
    (widthBytes w) where
  pos := rfl
  slots := (machineOf_of ownAddress).slots
  aligned := by cases w <;> decide
  location := by
    intro i hi
    have h8 : i < 8 := Nat.lt_of_lt_of_le hi (widthBytes_bounds w).2
    have hout := ownAddress_location.outside i h8
    refine ⟨?_, hout⟩
    rw [(machineOf_of ownAddress).mem _ hout]
    exact ownAddress_location.mapped i h8
  room := by
    intro i hi
    have hout := ownAddress_room.outside i hi
    refine ⟨?_, hout, fun hmem ↦ ?_⟩
    · have hmem := (machineOf_of ownAddress).mem _ hout
      have hmapped := ownAddress_room.mapped i hi
      rw [← hmem] at hmapped
      exact hmapped
    · exact ownAddress_apart i hi (Nat.lt_of_lt_of_le hmem (widthBytes_bounds w).2)

/-- `RAX` points to the location, which has its own address, and the stack has room. -/
private structure Holding (v : Values) : Prop where
  rax : v.regs 0 = 0x5000
  rbx : v.regs 3 = 1
  location : v.Beside 0x5000 8
  room : v.Beside 0x7fc0 64
  load : Sparse.load v.mem 0x5000 8 = some (Machine.bytes 0x5000 8)

private theorem holding_start : Holding (ownAddress.setReg 0 0x5000) where
  rax := rfl
  rbx := rfl
  location := ownAddress_location.setReg (by decide) _
  room := ownAddress_room.setReg (by decide) _
  load := ownAddress_load

private theorem Holding.setReg {v : Values} (h : Holding v) (g : Gpr) (hg : g ≠ 0 ∧ g ≠ 3 ∧ g ≠ 5)
    (x : BitVec 64) : Holding (v.setReg g x) where
  rax := (if_neg (Ne.symm hg.1)).trans h.rax
  rbx := (if_neg (Ne.symm hg.2.1)).trans h.rbx
  location := h.location.setReg hg.2.2 x
  room := h.room.setReg hg.2.2 x
  load := h.load

private theorem Holding.put {v : Values} (h : Holding v) {i : Nat} (hi : i + 8 ≤ 64) (x : BitVec 64) :
    Holding (v.put (0x7fc0 + BitVec.ofNat 64 i) (Machine.bytes x 8)) where
  rax := h.rax
  rbx := h.rbx
  location := h.location.put _ _
  room := h.room.put _ _
  load := by
    refine Eq.trans (Sparse.load_overwrite_of_notMem fun j hj hmem ↦ ?_) h.load
    have hkey : ∀ i < 57, ∀ j < 8, (0x5000 : BitVec 64) + BitVec.ofNat 64 j ∉
        (⟨0x7fc0 + BitVec.ofNat 64 i, 8⟩ : Region) := by
      decide +kernel
    exact hkey i (by omega) j hj hmem

/-- Some code comes to such values with a number of bytes of room left. -/
private def Holds (frag : List Byte) (i : Nat) : Prop :=
  ∃ v, Takes (Semantics.core undef rest) frag ownAddress v ∧ Holding v ∧
    v.regs 4 = 0x7fc0 + BitVec.ofNat 64 i

variable {undef rest} {frag : List Byte} {i : Nat}

private theorem Holds.setReg (h : Holds undef rest frag i) (frag' : List Byte) (g : Gpr)
    (hg : g ≠ 4 ∧ g ≠ 0 ∧ g ≠ 3 ∧ g ≠ 5)
    (h' : ∀ v, Holding v → ∃ x, Takes (Semantics.core undef rest) frag' v (v.setReg g x)) :
    Holds undef rest (frag ++ frag') i := by
  obtain ⟨v, htakes, hv, hsp⟩ := h
  obtain ⟨x, htakes'⟩ := h' v hv
  exact ⟨_, htakes.append htakes', hv.setReg g hg.2 x, (if_neg (Ne.symm hg.1)).trans hsp⟩

private theorem Holds.push (h : Holds undef rest frag (i + 8)) (hi : i + 8 ≤ 64) (frag' : List Byte)
    (g : Gpr) (hdec : ∀ tail, X86.decode (frag' ++ tail) = some (.push g, tail)) :
    Holds undef rest (frag ++ frag') i := by
  obtain ⟨v, htakes, hv, hsp⟩ := h
  have htop : v.regs 4 - 8 = 0x7fc0 + BitVec.ofNat 64 i := by
    rw [hsp, BitVec.ofNat_add, ← BitVec.add_assoc]
    exact BitVec.add_sub_cancel _ _
  have hbeside : v.Beside (v.regs 4 - 8) 8 := by
    rw [htop]
    exact hv.room.part (by omega)
  have htakes' := takes_push undef rest hbeside hdec
  rw [htop] at htakes'
  refine ⟨_, htakes.append htakes', ?_, Values.regs_setReg_self _ _ _⟩
  exact (hv.put (by omega) (v.regs g)).setReg 4 (by decide) _

/-- The next instruction, with what it leaves at the location. -/
private theorem Holds.step (h : Holds undef rest frag i) (bytes : List Byte) (j : Instr)
    {code tail : List Byte} {x : BitVec 64} (hcode : code = frag ++ (bytes ++ tail))
    (hdec : ∀ tail, X86.decode (bytes ++ tail) = some (j, tail))
    (hexec : ∀ m v, v.Of m → Holding v → ∃ m', (Semantics.core undef rest).exec j m = some m' ∧
      m'.load 0x5000 8 = some (Machine.bytes x 8)) :
    ∃ m₁ m₂, (Semantics.core undef rest).Runs code (machineOf ownAddress) m₁ ∧
      (Semantics.core undef rest).step code m₁ = some m₂ ∧
      m₁.load 0x5000 8 = some (Machine.bytes 0x5000 8) ∧
      m₂.load 0x5000 8 = some (Machine.bytes x 8) := by
  obtain ⟨v, htakes, hv, -⟩ := h
  have hat : At code 0 (frag ++ (bytes ++ tail)) := by
    rw [hcode]
    exact at_self _
  obtain ⟨m₁, hrun, hpos, hv₁⟩ := htakes code _ (machineOf_of ownAddress) hat.left
  have hat₁ : At code m₁.pos bytes := by
    rw [hpos]
    exact hat.right.left
  obtain ⟨m₂, hexec₂, hload₂⟩ := hexec _ v (hv₁.at (m₁.pos + bytes.length)) hv
  refine ⟨m₁, m₂, hrun, ?_, ?_, hload₂⟩
  · rw [Semantics.step_chunk ⟨bytes, j, hdec⟩ hat₁]
    exact hexec₂
  · rw [hv₁.load hv.location.outside]
    exact hv.load

/-- The loop comes to the exchange and stores `RBX`. -/
private theorem loop_step (k : LoopOp) (op : BitVec 32) : ∃ m₁ m₂,
    (Semantics.core undef rest).Runs (k.code op).flatten (machineOf ownAddress) m₁ ∧
      (Semantics.core undef rest).step (k.code op).flatten m₁ = some m₂ ∧
      m₁.load 0x5000 8 = some (Machine.bytes 0x5000 8) ∧
      m₂.load 0x5000 8 = some (Machine.bytes 1 8) := by
  obtain ⟨combine, f, hcode, hcombine, hf⟩ := exists_combine undef rest k
  have hloaded : loadedReg rdx (is64 op) = 2 := by cases is64 op <;> rfl
  have haddr : Holds undef rest (emitLoadArmReg (armReg op 5) rax true) 64 :=
    ⟨_, (computes_load undef rest (armReg op 5) (by decide)).takes ownAddress, holding_start, rfl⟩
  have hoperand := haddr.setReg (emitLoadArmReg (armReg op 16) rdx (is64 op)) 2 (by decide) fun v hv ↦ by
    have hload := (computes_load undef rest (armReg op 16) (by rw [hloaded]; decide)).takes v
    rw [hloaded] at hload
    exact ⟨_, hload⟩
  have hpush := hoperand.push (i := 56) (by decide) [0x50] 0 fun _ ↦ decode_prefixes rfl rfl
  have hpushes := hpush.push (i := 48) (by decide) [0x51] 1 fun _ ↦ decode_prefixes rfl rfl
  have hload := hpushes.setReg [rex true 0 (rcx >>> 3) (rax >>> 3), 0x8b, modrm 0 (rcx &&& 7) (rax &&& 7)] 1
      (by decide) fun v hv ↦ by
    have haddr : v.regs 0 + 0 = 0x5000 := by rw [hv.rax]; rfl
    have hout : ∀ i < 8, v.regs 0 + 0 + BitVec.ofNat 64 i ∉ homeRegion (v.regs 5) := by
      rw [haddr]
      exact hv.location.outside
    have hfrom : Sparse.load v.mem (v.regs 0 + 0) 8 = some (Machine.bytes 0x5000 8) := by
      rw [haddr]
      exact hv.load
    exact ⟨_, takes_movLoad undef rest (by decide) hout hfrom fun _ ↦ decode_prefixes rfl rfl⟩
  have hcopy := hload.setReg (movR64R64 r11 rcx) 1 (by decide) fun v hv ↦
    ⟨_, (computes_movReg undef rest (by decide) (decode_movR64R64 r11 rcx)).takes v⟩
  have hcombined := hcopy.setReg (combine r11 rdx) 2 (by decide) fun v hv ↦ by
    obtain ⟨x, hx⟩ := hf v
    exact ⟨x, hx ▸ hcombine.takes v⟩
  have hcomparand := hcombined.setReg (movR64R64 rax rcx) 1 (by decide) fun v hv ↦
    ⟨_, (computes_movReg undef rest (by decide) (decode_movR64R64 rax rcx)).takes v⟩
  apply hcomparand.step [0xf0, rex true 0 (r11 >>> 3) (rax >>> 3), 0x0f, 0xb1,
    modrm 0 (r11 &&& 7) (rax &&& 7)] (.cmpxchg .b64 (.mem (some 0) none 0) 3)
  · rw [hcode, fetchLoop]
    simp only [List.flatten_append, List.flatten_cons, List.append_assoc]
    rfl
  · exact fun _ ↦ decode_prefixes rfl rfl
  · intro m v hm hv
    have haddr : v.regs 0 + 0 = 0x5000 := by rw [hv.rax]; rfl
    have hbeside : v.Beside (v.regs 0 + 0) 8 := by
      rw [haddr]
      exact hv.location
    have hfrom : Sparse.load v.mem (v.regs 0 + 0) 8 = some (Machine.bytes (v.regs 0) 8) := by
      rw [haddr, hv.rax]
      exact hv.load
    obtain ⟨m', hexec, hm'⟩ := exec_cmpxchg undef rest hm hbeside hfrom
    refine ⟨m', hexec, ?_⟩
    rw [haddr, hv.rbx] at hm'
    rw [hm'.load hv.location.outside]
    exact Sparse.load_overwrite (by decide)

/-- The fetching addition comes to the exchange and adds `RBX`. -/
private theorem ldadd_step {op : BitVec 32} (h : is64 op = true) : ∃ m₁ m₂,
    (Semantics.core undef rest).Runs (translateLdadd op).flatten (machineOf ownAddress) m₁ ∧
      (Semantics.core undef rest).step (translateLdadd op).flatten m₁ = some m₂ ∧
      m₁.load 0x5000 8 = some (Machine.bytes 0x5000 8) ∧
      m₂.load 0x5000 8 = some (Machine.bytes 0x5001 8) := by
  have haddr : Holds undef rest (emitLoadArmReg (armReg op 5) rax true) 64 :=
    ⟨_, (computes_load undef rest (armReg op 5) (by decide)).takes ownAddress, holding_start, rfl⟩
  have hoperand := haddr.setReg (emitLoadArmReg (armReg op 16) r11 true) 11 (by decide) fun v hv ↦
    ⟨_, (computes_load undef rest (armReg op 16) (by decide)).takes v⟩
  apply hoperand.step [0xf0, rex true 0 (r11 >>> 3) (rax >>> 3), 0x0f, 0xc1,
    modrm 0 (r11 &&& 7) (rax &&& 7)] (.xadd .b64 (.mem (some 0) none 0) 3)
  · rw [translateLdadd, h]
    simp only [List.flatten_cons, List.append_assoc]
    rfl
  · exact fun _ ↦ decode_prefixes rfl rfl
  · intro m v hm hv
    have haddr : v.regs 0 + 0 = 0x5000 := by rw [hv.rax]; rfl
    have hbeside : v.Beside (v.regs 0 + 0) 8 := by
      rw [haddr]
      exact hv.location
    have hfrom : Sparse.load v.mem (v.regs 0 + 0) 8 = some (Machine.bytes 0x5000 8) := by
      rw [haddr]
      exact hv.load
    obtain ⟨m', hexec, hm'⟩ := exec_xadd undef rest hm hbeside hfrom
    refine ⟨m', hexec, ?_⟩
    rw [haddr, hv.rbx] at hm'
    rw [hm'.load (hv.location.setReg (by decide) _).outside]
    exact Sparse.load_overwrite (by decide)

/-- What is not an update of the location, in its low half. -/
private theorem not_atomically {code : List Byte} {w : Bool} {f : BitVec 64 → BitVec 64}
    {post : BitVec 64 → Machine → Prop} {x : BitVec 64}
    (hrun : ∃ m₁ m₂, (Semantics.core undef rest).Runs code (machineOf ownAddress) m₁ ∧
      (Semantics.core undef rest).step code m₁ = some m₂ ∧
      m₁.load 0x5000 8 = some (Machine.bytes 0x5000 8) ∧ m₂.load 0x5000 8 = some (Machine.bytes x 8))
    (hx : x.setWidth 32 ≠ (0x5000 : BitVec 64).setWidth 32)
    (hf : ∀ old : BitVec 64, old.setWidth 32 = (0x5000 : BitVec 64).setWidth 32 →
      (f old).setWidth 32 ≠ x.setWidth 32) :
    ¬ (Semantics.core undef rest).Atomically code 0x5000 (widthBytes w) f (machineOf ownAddress) post := by
  intro h
  obtain ⟨m₁, m₂, hrun, hstep, hload₁, hload₂⟩ := hrun
  obtain ⟨h4, h8⟩ := widthBytes_bounds w
  have hold : m₁.load 0x5000 (widthBytes w) = some (Machine.bytes 0x5000 (widthBytes w)) :=
    load_bytes_le h8 hload₁
  have hnew : m₂.load 0x5000 (widthBytes w) = some (Machine.bytes x (widthBytes w)) :=
    load_bytes_le h8 hload₂
  rcases h.step hrun hstep with hleaves | ⟨old, hbefore, hafter⟩
  · rw [hold, hnew] at hleaves
    exact hx (low_of_bytes h4 (Option.some.inj hleaves))
  · rw [hold] at hbefore
    rw [hnew] at hafter
    exact hf old (low_of_bytes h4 (Option.some.inj hbefore)).symm
      (low_of_bytes h4 (Option.some.inj hafter)).symm

private theorem operand_ownAddress (r : ArmReg) :
    operand (fun _ ↦ 0x5000) r = 0 ∨ operand (fun _ ↦ 0x5000) r = 0x5000 := by
  rw [operand]
  split
  · exact Or.inl rfl
  · exact Or.inr rfl

/-- The loop stores `RBX`. -/
private theorem loop_missed (k : LoopOp) (op : BitVec 32) (w : Bool) (post : BitVec 64 → Machine → Prop) :
    ¬ (Semantics.core undef rest).Atomically (k.code op).flatten 0x5000 (widthBytes w)
      (fun old ↦ k.value old (operand (fun _ ↦ 0x5000) (armReg op 16))) (machineOf ownAddress) post := by
  apply not_atomically (loop_step k op) (by decide)
  intro old hold
  have hone : (1 : BitVec 64).setWidth 32 = 1 := rfl
  rw [hone]
  have hoperand := operand_ownAddress (armReg op 16)
  cases k with
  | clr =>
    rw [LoopOp.value, BitVec.setWidth_and, hold]
    rcases hoperand with hx | hx <;> rw [hx] <;> decide
  | eor =>
    rw [LoopOp.value, BitVec.setWidth_xor, hold]
    rcases hoperand with hx | hx <;> rw [hx] <;> decide
  | set =>
    rw [LoopOp.value, BitVec.setWidth_or, hold]
    rcases hoperand with hx | hx <;> rw [hx] <;> decide

private theorem ldadd_missed {op : BitVec 32} (h : is64 op = true) (w : Bool)
    (post : BitVec 64 → Machine → Prop) :
    ¬ (Semantics.core undef rest).Atomically (translateLdadd op).flatten 0x5000 (widthBytes w)
      (fun old ↦ old + operand (fun _ ↦ 0x5000) (armReg op 16)) (machineOf ownAddress) post := by
  apply not_atomically (ldadd_step h) (by decide)
  intro old hold
  have hsum : ∀ y : BitVec 64, (old + y).setWidth 32 = old.setWidth 32 + y.setWidth 32 :=
    fun y ↦ BitVec.setWidth_add old y (by decide)
  rw [hsum, hold]
  rcases operand_ownAddress (armReg op 16) with hx | hx <;> rw [hx] <;> decide

/-- `LOCK` in front of a move to a register. -/
private theorem not_valid_lock {code : List Byte} (cs : List Chunk) (c : Chunk) {tail : List Byte}
    (hkind : c.instr.lockable = false) (hcode : code = chunkBytes cs ++ (0xf0 :: c.bytes ++ tail)) :
    ¬ Valid code := by
  have hdec : ∀ rest, X86.decode (0xf0 :: c.bytes ++ rest) = some (c.instr, rest) := fun rest ↦
    (rfl : X86.decode (0xf0 :: (c.bytes ++ rest)) = X86.decode (c.bytes ++ rest)).trans (c.decodes rest)
  rw [hcode]
  exact not_valid_of_locked (c := ⟨0xf0 :: c.bytes, c.instr, hdec⟩) rfl hkind

private theorem not_valid_exclusives (op op' : BitVec 32) :
    ¬ Valid (AtomicAccess.exclusives op op').code.flatten := by
  have hdec : ∀ tail, X86.decode ([rexR 0 rax, 0x8b, modrm 0 (r11 &&& 7) (rax &&& 7)] ++ tail) =
      some (.mov .b64 (.reg 3) (.mem (some 0) none 0), tail) :=
    fun _ ↦ decode_prefixes rfl rfl
  apply not_valid_lock [loadChunk (armReg op 5) rax true] ⟨_, _, hdec⟩ rfl
  rw [AtomicAccess.code, translateLdaxr, chunkBytes]
  simp only [List.flatten_cons, List.flatMap_cons, List.flatMap_nil,
    List.append_assoc, List.nil_append, List.cons_append]
  rfl

private theorem not_valid_cas (op : BitVec 32) : ¬ Valid (AtomicAccess.cas op).code.flatten := by
  have hpush : ∀ tail, X86.decode ([0x50] ++ tail) = some (.push 0, tail) :=
    fun _ ↦ decode_prefixes rfl rfl
  apply not_valid_lock [loadChunk (armReg op 5) rax true, loadChunk (armReg op 0) r11 (is64 op),
    ⟨_, _, hpush⟩, ⟨_, _, decode_movR64R64 rax r11⟩] (loadChunk (armReg op 16) r11 (is64 op)) rfl
  rw [AtomicAccess.code, translateCas, chunkBytes]
  simp only [List.flatten_cons, List.flatMap_cons, List.flatMap_nil, List.append_assoc,
    List.nil_append]
  rfl

end Refutations

section Results

variable (undef : Instr → Machine → Status) (rest : Instr → Machine → Option Machine)

/-- No loop is an atomic update: on a location that has its own address it stores `RBX`. -/
theorem loop_never (k : LoopOp) (op : BitVec 32) : ¬ k.Correct (Semantics.core undef rest) op :=
  fun h ↦ loop_missed k op (accessWidth op) _
    (h _ (fun _ ↦ 0x5000) (ownAddress_start (accessWidth op)))

/-- LDCLR X2, X0, [X1]. -/
theorem ldclr_missed : LoopOp.clr.diagram.Matches 0xf8221020 ∧
    ¬ LoopOp.clr.Correct (Semantics.core (fun _ m ↦ m.status) fun _ _ ↦ none) 0xf8221020 := by
  refine ⟨by decide, fun h ↦ ?_⟩
  exact loop_missed .clr 0xf8221020 true _ (h _ (fun _ ↦ 0x5000) (ownAddress_start true))

/-- None of the other accesses is one either. The pairs and the compare and swaps are no code, since
`LOCK` stands in front of a load, and the fetching addition adds `RBX`. -/
theorem atomicAccess_never {k : AtomicAccess} (h : k.IsWord) :
    ¬ k.Correct (Semantics.core undef rest) := by
  intro hk
  cases k with
  | exclusives op op' => exact not_valid_exclusives op op' hk.valid
  | cas op => exact not_valid_cas op hk.valid
  | ldadd op =>
    have hw : is64 op = true := Diagram.Matches.getLsbD h (by decide)
    exact ldadd_missed hw (accessWidth op) _
      (hk.performs _ (fun _ ↦ 0x5000) (ownAddress_start (accessWidth op)))

/-- LDADD X2, X0, [X1], and the others in the same registers. -/
theorem atomicAccess_ldadd :
    ¬ (AtomicAccess.exclusives 0x885ffc20 0x8803fc22).Correct
        (Semantics.core (fun _ m ↦ m.status) fun _ _ ↦ none) ∧
      ¬ (AtomicAccess.cas 0x88a27c20).Correct (Semantics.core (fun _ m ↦ m.status) fun _ _ ↦ none) ∧
      ¬ (AtomicAccess.ldadd 0xf8220020).Correct
        (Semantics.core (fun _ m ↦ m.status) fun _ _ ↦ none) :=
  ⟨atomicAccess_never _ _ (by unfold AtomicAccess.IsWord; decide),
    atomicAccess_never _ _ (by unfold AtomicAccess.IsWord; decide),
    atomicAccess_never _ _ (by unfold AtomicAccess.IsWord; decide)⟩

/-- CAS W2, W0, [X1]. -/
theorem cas_missed : (AtomicAccess.cas 0x88a27c20).IsWord ∧
    ¬ (AtomicAccess.cas 0x88a27c20).Correct (Semantics.core (fun _ m ↦ m.status) fun _ _ ↦ none) :=
  ⟨by unfold AtomicAccess.IsWord; decide, fun h ↦ not_valid_cas _ h.valid⟩

end Results

end Arm2x86.Translate
