import Mathlib.Data.Nat.Basic
import Mathlib.Logic.Function.Basic
import Arm2x86.Base.Memory

/-!
# Capture of RegisterNatives

`arm2x86_intercept_register_natives` of `modules/arm2x86_jni_capture.c`. One loop over the methods fills
the table of the module that is being loaded, a second one the list of all methods. Memory is never
refused; strings are without the zero that ends them, and NULL is no string.
-/

namespace Arm2x86.Jni

/-- An address of the host; zero is NULL. -/
abbrev Addr := BitVec 64

/-- `JNINativeMethod`. -/
structure NativeMethod where
  name : Option (List Byte)
  signature : Option (List Byte)
  fnPtr : Addr
deriving DecidableEq

/-- `NativeMethodRegistration`, and `CapturedMethod` without its link. -/
structure MethodRecord where
  className : Option (List Byte)
  methodName : Option (List Byte)
  signature : Option (List Byte)
  fnPtr : Addr
  armOffset : BitVec 64
deriving DecidableEq

/-- `native_methods` of an `ElfModule`, below `native_method_count`, and `native_method_capacity`. -/
structure NativeTable where
  methods : List MethodRecord
  capacity : Nat
deriving DecidableEq

/-- A module as it is at a call; `id` stands for the pointer. Its mapping does not go around the end of the
address space. -/
structure LoadedModule where
  id : Nat
  memory : Addr
  mappedSize : Nat
  fits : memory.toNat + mappedSize ≤ 2 ^ 64

/-- A call of `arm2x86_intercept_register_natives`, with `g_current_loading_module`. -/
structure Intercept where
  mod : Option LoadedModule
  methods : Nat → NativeMethod
  nMethods : BitVec 32

/-- The methods that the loops go over. -/
def Intercept.entries (c : Intercept) : List NativeMethod :=
  (List.range c.nMethods.toInt.toNat).map c.methods

/-- `g_captured_methods`, `g_captured_count` and the tables of the modules. -/
structure State where
  captured : List MethodRecord
  count : BitVec 32
  tables : Nat → NativeTable

/-- Where a call has no defined end: `prev_tail` is dereferenced when it is NULL, or an `int` overflows. -/
inductive Fault where
  | nullTail
  | overflow
deriving DecidableEq

/-- `new_cap`. -/
def newCapacity (capacity : Nat) : Except Fault Nat :=
  if capacity = 0 then .ok 16
  else if capacity * 2 < 2 ^ 31 then .ok (capacity * 2)
  else .error .overflow

/-- The table with room for one more method. -/
def NativeTable.grow (t : NativeTable) : Except Fault NativeTable :=
  if t.methods.length ≥ t.capacity then
    (newCapacity t.capacity).map fun capacity ↦ { t with capacity }
  else .ok t

/-- `offset`, when it is within the module. -/
def LoadedModule.offset (mod : LoadedModule) (fnPtr : Addr) : Option (BitVec 64) :=
  if fnPtr ≠ 0 ∧ mod.memory ≠ 0 ∧ (fnPtr - mod.memory).toNat < mod.mappedSize then some (fnPtr - mod.memory)
  else none

/-- The first loop, for one method. -/
def register (mod : LoadedModule) (t : NativeTable) (e : NativeMethod) : Except Fault NativeTable :=
  match mod.offset e.fnPtr with
  | none => .ok t
  | some offset =>
    t.grow.map fun t ↦
      if t.methods.length < t.capacity then
        { t with methods := t.methods ++ [⟨none, e.name, e.signature, e.fnPtr, offset⟩] }
      else t

/-- The list while the second loop goes on; `prevTail` is the index of a method in it. -/
structure Chain where
  captured : List MethodRecord
  count : BitVec 32
  prevTail : Option Nat

/-- The second loop, for one method. -/
def capture (mod : Option LoadedModule) (l : Chain) (e : NativeMethod) : Except Fault Chain :=
  let armOffset :=
    match mod with
    | some mod => if e.fnPtr ≠ 0 then e.fnPtr - mod.memory else 0
    | none => 0
  let cm : MethodRecord := ⟨none, e.name, e.signature, e.fnPtr, armOffset⟩
  if l.captured = [] then .ok ⟨[cm], l.count + 1, some 0⟩
  else
    match l.prevTail with
    | none => .error .nullTail
    | some i => .ok ⟨l.captured.take (i + 1) ++ [cm], l.count + 1, some (i + 1)⟩

/-- The tables behind the first loop. -/
def registerAll (c : Intercept) (tables : Nat → NativeTable) : Except Fault (Nat → NativeTable) :=
  match c.mod with
  | none => .ok tables
  | some mod => (c.entries.foldlM (register mod) (tables mod.id)).map fun t ↦ Function.update tables mod.id t

/-- `arm2x86_intercept_register_natives`, `arm2x86_jni_capture.c:34`. -/
def interceptRegisterNatives (s : State) (c : Intercept) : Except Fault State := do
  let tables ← registerAll c s.tables
  let l ← c.entries.foldlM (capture c.mod) ⟨s.captured, s.count, none⟩
  return ⟨l.captured, l.count, tables⟩

/-- `arm2x86_free_captured_methods`, `arm2x86_jni_capture.c:157`. -/
def freeCapturedMethods (s : State) : State := { s with captured := [], count := 0 }

/-- A call of one of the two. -/
inductive Action where
  | intercept (c : Intercept)
  | free

def act (s : State) : Action → Except Fault State
  | .intercept c => interceptRegisterNatives s c
  | .free => .ok (freeCapturedMethods s)

/-- Before the first call. -/
def start : State := ⟨[], 0, fun _ ↦ ⟨[], 0⟩⟩

/-- The state after some calls. -/
def runCalls (as : List Action) : Except Fault State := as.foldlM act start

end Arm2x86.Jni
