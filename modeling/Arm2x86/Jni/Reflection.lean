import Arm2x86.Jni.Capture
import Arm2x86.Jni.Descriptors

/-!
# The reflection cache

`arm2x86_jni_reflect_and_call` of `modules/arm2x86_syscall.c`, up to the call of the method. What it gets
from elsewhere is part of a call: the functions that there are in the table of the JNI environment, what
they return when they are asked, and whether there is memory.
-/

namespace Arm2x86.Jni

/-- `JavaReflectionCache`, without the fields. The IDs are those below `method_count`; without memory for
them `cached_methods` is NULL. -/
structure CacheEntry where
  className : List Byte
  classObject : Addr
  cachedMethods : Option (List Addr)
deriving DecidableEq

/-- A cleared entry. -/
def CacheEntry.zero : CacheEntry := ⟨[], 0, none⟩

/-- `g_reflection_cache`, below `g_reflection_cache_count`, and `g_reflection_cache_max`; it is NULL until
it is allocated. -/
structure ReflectionCache where
  allocated : Bool
  entries : List CacheEntry
  max : Nat
deriving DecidableEq

/-- A call of `arm2x86_jni_reflect_and_call`. A signature can end within an array, and is read on then;
`behind` is what that comes to. -/
structure ReflectCall where
  jniEnv : Addr
  className : Option (List Byte)
  methodName : Option (List Byte)
  signature : Option (List Byte)
  isStatic : Bool
  functions : Option (Nat → Bool)
  findClass : Addr
  getMethodId : Addr
  behind : Option MethodSignature
  calloc : Bool
  realloc : Bool
  malloc : Bool

/-- What happens in a call: what `FindClass` returns, the class that is asked for the method with the ID
that it returns, the function of the table that is called with a method ID, and the result. -/
structure Trace where
  found : Option Addr
  got : Option (Addr × Addr)
  called : Option (Nat × Addr)
  result : Int
deriving DecidableEq

/-- The early end of a call. -/
def Trace.failed : Trace := ⟨none, none, none, -1⟩

/-- `arm2x86_jni_init_reflection`, `arm2x86_syscall.c:2862`. -/
def initReflection (s : ReflectionCache) (calloc : Bool) : Option ReflectionCache :=
  if s.allocated then some s
  else if calloc then some { s with allocated := true, entries := [] }
  else none

/-- The index of the entry for a class. -/
def lookupClass (s : ReflectionCache) (className : List Byte) : Option Nat :=
  s.entries.findIdx? fun e ↦ e.className = className

/-- `find_reflection_cache`, `arm2x86_syscall.c:2874`. -/
def findReflectionCache (s : ReflectionCache) (className : List Byte) (realloc : Bool) :
    Option (Nat × ReflectionCache) :=
  match lookupClass s className with
  | some i => some (i, s)
  | none =>
    let grown :=
      if s.entries.length ≥ s.max then if realloc then some { s with max := s.max * 2 } else none
      else some s
    grown.map fun s ↦ (s.entries.length, { s with
      entries := s.entries ++ [{ CacheEntry.zero with className := className.take 511 }] })

/-- The hash of the name of a method; a `char` has a sign. -/
def methodHash (name : List Byte) : BitVec 32 := name.foldl (fun hash b ↦ hash * 31 + b.signExtend 32) 0

/-- The hash as an ID. -/
def hashId (name : List Byte) : Addr := (methodHash name).setWidth 64

/-- The IDs that are cached for a class. -/
def CacheEntry.ids (e : CacheEntry) : List Addr := e.cachedMethods.getD []

/-- The cached ID that is taken for a method, or NULL. -/
def cachedId (e : CacheEntry) (methodName : List Byte) : Addr :=
  (e.ids.find? fun id ↦ id = hashId methodName).getD 0

/-- The entry with a further ID, if there is room for it. -/
def CacheEntry.cache (e : CacheEntry) (id : Addr) (malloc : Bool) : CacheEntry :=
  match e.cachedMethods with
  | none => if malloc then { e with cachedMethods := some [id] } else e
  | some ids => if ids.length < 64 then { e with cachedMethods := some (ids ++ [id]) } else e

/-- The signature, where there is one; nothing if it cannot be parsed. -/
def ReflectCall.parsed (c : ReflectCall) : Option (Option MethodSignature) :=
  match c.signature with
  | none => some none
  | some sig =>
    match parseMethodSignature (some sig) with
    | .ok m => some (some m)
    | .error .refused => none
    | .error .overrun => c.behind.map some

/-- `FIND_CLASS_IDX`. -/
def findClassIdx : Nat := 2

/-- `GET_STATIC_METHOD_ID_IDX` and `GET_METHOD_ID_IDX`. -/
def getIdIdx (isStatic : Bool) : Nat := if isStatic then 109 else 29

/-- The function that calls a method of a return type. -/
def callIdx (isStatic : Bool) (returnType : List Byte) : Nat :=
  if isStatic then
    if returnType = [0x49] then 125
    else if returnType = [0x56] then 137
    else if returnType ∈ [[0x5a], [0x42], [0x43], [0x53]] then 125
    else 110
  else
    if returnType = [0x49] then 45
    else if returnType = [0x56] then 57
    else if returnType = [0x5a] then 33
    else 30

/-- The end of a call, with the ID of the method. -/
def callMethod (functions : Nat → Bool) (isStatic : Bool) (parsed : Option MethodSignature) (id : Addr)
    (t : Trace) : Trace :=
  match parsed with
  | none => { t with result := 0 }
  | some m =>
    if functions (callIdx isStatic m.returnType) then
      { t with called := some (callIdx isStatic m.returnType, id), result := 0 }
    else t

/-- The part of a call behind `FindClass`, on an entry with its class. -/
def withClass (functions : Nat → Bool) (c : ReflectCall) (methodName : List Byte) (e : CacheEntry) (t : Trace) :
    CacheEntry × Trace :=
  match c.parsed with
  | none => (e, t)
  | some parsed =>
    if cachedId e methodName ≠ 0 then
      (e, callMethod functions c.isStatic parsed (cachedId e methodName) t)
    else if functions (getIdIdx c.isStatic) then
      let t := { t with got := some (e.classObject, c.getMethodId) }
      if c.getMethodId = 0 then (e, t)
      else (e.cache c.getMethodId c.malloc, callMethod functions c.isStatic parsed c.getMethodId t)
    else (e, t)

/-- What a call does with the entry of its class. -/
def useEntry (functions : Nat → Bool) (c : ReflectCall) (methodName : List Byte) (e : CacheEntry) :
    CacheEntry × Trace :=
  if e.classObject = 0 then
    if functions findClassIdx then
      let t := { Trace.failed with found := some c.findClass }
      if c.findClass = 0 then (e, t)
      else withClass functions c methodName { e with classObject := c.findClass } t
    else (e, Trace.failed)
  else withClass functions c methodName e Trace.failed

/-- `arm2x86_jni_reflect_and_call`, `arm2x86_syscall.c:3005`. -/
def reflectAndCall (s : ReflectionCache) (c : ReflectCall) : ReflectionCache × Trace :=
  match c.className, c.methodName with
  | some className, some methodName =>
    if c.jniEnv = 0 then (s, Trace.failed)
    else
      match initReflection s c.calloc with
      | none => (s, Trace.failed)
      | some s =>
        match findReflectionCache s className c.realloc with
        | none => (s, Trace.failed)
        | some (i, s) =>
          match c.functions with
          | none => (s, Trace.failed)
          | some functions =>
            let (e, t) := useEntry functions c methodName (s.entries.getD i .zero)
            ({ s with entries := s.entries.set i e }, t)
  | _, _ => (s, Trace.failed)

/-- The cache behind some calls. -/
def runReflect (cs : List ReflectCall) : ReflectionCache :=
  cs.foldl (fun s c ↦ (reflectAndCall s c).1) ⟨false, [], 256⟩

end Arm2x86.Jni
