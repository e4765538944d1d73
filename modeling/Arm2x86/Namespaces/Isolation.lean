import Arm2x86.Base.Memory
import Arm2x86.Base.Strings

/-!
# Namespaces for libraries

`arm2x86_load_library_in_namespace` of `modules/arm2x86_syscall.c` and what it asks a namespace. Strings
are without the zero that ends them; a NULL pointer is no string and no namespace.

A namespace lists directories. A path that starts with one of them as a string need not be inside of it:
it may go on with other characters than a slash, or come out of it again.
-/

namespace Arm2x86.Namespaces

open Strings

/-- `Arm2x86NamespaceType`. -/
inductive NamespaceType where
  | nsPublic
  | nsIsolated
  | nsShared
deriving DecidableEq

/-- `Arm2x86Namespace`, `arm2x86.h:957`. -/
structure Namespace where
  name : List Byte
  type : NamespaceType
  permittedPaths : Option (List Byte)
  allowedLibs : List (BitVec 64)
  maxAllowed : Nat
deriving DecidableEq

def colon : Byte := 0x3a

def slash : Byte := 0x2f

def dot : Byte := 0x2e

/-- The loop of `namespace_permits_path` over the tokens. -/
def anyPrefix (path permitted : List Byte) : Bool :=
  (tokens colon permitted).any fun token ↦ sameUpTo path token token.length

/-- `namespace_permits_path`, `arm2x86_syscall.c:1806`; `copied` says whether `strdup` has memory. -/
def namespacePermitsPath (copied : Bool) (path : Option (List Byte)) (ns : Option Namespace) : Bool :=
  match ns.bind Namespace.permittedPaths with
  | none => true
  | some permitted =>
    match path with
    | none => false
    | some path => copied && anyPrefix path permitted

/-- What is passed to `NativeBridgeLoadLibrary`, with the namespace that is the current one then. -/
structure Request where
  libpath : List Byte
  flag : Int
  current : Namespace

/-- What `arm2x86_load_library_in_namespace` leaves: the handle, of which 0 is NULL, the loads, the
namespace, and the library and the namespace that `set_error` names for `ARM2X86_ERR_LOAD_FAIL`. -/
structure Loaded where
  handle : BitVec 64
  requests : List Request
  ns : Option Namespace
  error : Option (List Byte × List Byte)

/-- `arm2x86_add_lib_to_namespace`; `grown` says whether `realloc` has memory. -/
def addLibToNamespace (grown : Bool) (handle : BitVec 64) (ns : Namespace) : Namespace :=
  if ns.maxAllowed ≤ ns.allowedLibs.length ∧ ¬ grown then ns
  else
    { ns with
      allowedLibs := ns.allowedLibs ++ [handle]
      maxAllowed := if ns.maxAllowed ≤ ns.allowedLibs.length then ns.maxAllowed * 2 else ns.maxAllowed }

/-- `arm2x86_load_library_in_namespace`, `arm2x86_syscall.c:1832`; `load` is what
`NativeBridgeLoadLibrary` returns, and `current` is `g_current_namespace`. -/
def loadLibraryInNamespace (copied grown : Bool) (load : Request → BitVec 64) (current : Namespace)
    (libpath : Option (List Byte)) (flag : Int) (ns : Option Namespace) : Loaded :=
  match libpath with
  | none => ⟨0, [], ns, none⟩
  | some path =>
    let refused := ns.any fun n ↦
      n.type = .nsIsolated && !namespacePermitsPath copied libpath ns
    if refused then ⟨0, [], ns, ns.map fun n ↦ (path, n.name)⟩
    else
      let request : Request := ⟨path, flag, ns.getD current⟩
      let handle := load request
      ⟨handle, [request], if handle = 0 then ns else ns.map (addLibToNamespace grown handle), none⟩

/-! ## Isolation -/

/-- Whether the components of a path lead out of the directory that they start in, some levels up. -/
def leaves : Nat → List (List Byte) → Bool
  | _, [] => false
  | depth, c :: cs =>
    if c = [dot, dot] then
      match depth with
      | 0 => true
      | depth + 1 => leaves depth cs
    else if c = [] ∨ c = [dot] then leaves depth cs
    else leaves (depth + 1) cs

/-- A directory or a path in it. -/
def Inside (dir path : List Byte) : Prop :=
  path = dir ∨ ∃ rest, path = dir ++ slash :: rest ∧ leaves 0 (rest.splitOn slash) = false

/-- A directory of a list. -/
def Listed (permitted dir : List Byte) : Prop := dir ≠ [] ∧ dir ∈ permitted.splitOn colon

/-- A path in a directory of a list. -/
def Permitted (permitted path : List Byte) : Prop := ∃ dir, Listed permitted dir ∧ Inside dir path

/-- The namespace permits the paths in its directories, and nothing else is loaded into it if it is
isolated. -/
def IsolationRight (copied : Bool) (ns : Namespace) (permitted path : List Byte) : Prop :=
  (namespacePermitsPath copied (some path) (some { ns with permittedPaths := some permitted }) = true ↔
    Permitted permitted path) ∧
  (ns.type = .nsIsolated → ¬ Permitted permitted path → ∀ grown load current flag,
    (loadLibraryInNamespace copied grown load current (some path) flag
      (some { ns with permittedPaths := some permitted })).requests = [])

variable {copied : Bool} {ns : Namespace} {permitted path : List Byte}

theorem anyPrefix_iff : anyPrefix path permitted = true ↔ ∃ dir, Listed permitted dir ∧ dir <+: path := by
  rw [anyPrefix, List.any_eq_true]
  constructor
  · rintro ⟨dir, hdir, hsame⟩
    exact ⟨dir, mem_tokens.mp hdir, sameUpTo_length.mp hsame⟩
  · rintro ⟨dir, hlisted, hprefix⟩
    exact ⟨dir, mem_tokens.mpr hlisted, sameUpTo_length.mpr hprefix⟩

theorem Inside.starts {dir : List Byte} (h : Inside dir path) : dir <+: path := by
  rcases h with rfl | ⟨rest, rfl, -⟩
  · exact List.prefix_rfl
  · exact List.prefix_append _ _

theorem Permitted.starts (h : Permitted permitted path) :
    ∃ dir, Listed permitted dir ∧ dir <+: path := by
  obtain ⟨dir, hlisted, hinside⟩ := h
  exact ⟨dir, hlisted, hinside.starts⟩

theorem namespacePermitsPath_iff :
    namespacePermitsPath copied (some path) (some { ns with permittedPaths := some permitted }) = true ↔
      copied = true ∧ ∃ dir, Listed permitted dir ∧ dir <+: path := by
  rw [← anyPrefix_iff, ← Bool.and_eq_true]
  rfl

/-- An isolated namespace loads what it permits. -/
theorem requests_eq_nil (htype : ns.type = .nsIsolated) {path : List Byte} {grown : Bool}
    {load : Request → BitVec 64} {current : Namespace} {flag : Int}
    (h : namespacePermitsPath copied (some path) (some ns) = false) :
    (loadLibraryInNamespace copied grown load current (some path) flag (some ns)).requests = [] := by
  have hrefused : ((some ns).any fun n ↦
      n.type = .nsIsolated && !namespacePermitsPath copied (some path) (some ns)) = true := by
    simp [htype, h]
  rw [loadLibraryInNamespace, if_pos hrefused]

/-- A namespace isolates exactly those paths that start with one of its directories only where they are
in one. -/
theorem isolationRight_iff (copied : Bool) (ns : Namespace) (permitted path : List Byte) :
    IsolationRight copied ns permitted path ↔
      if copied then (∃ dir, Listed permitted dir ∧ dir <+: path) → Permitted permitted path
      else ¬ Permitted permitted path := by
  rw [IsolationRight, namespacePermitsPath_iff]
  cases copied with
  | false =>
    rw [if_neg Bool.false_ne_true]
    constructor
    · intro h hpermitted
      exact Bool.false_ne_true (h.1.mpr hpermitted).1
    · intro h
      refine ⟨iff_of_false (fun hp ↦ Bool.false_ne_true hp.1) h, fun htype _ grown load current flag ↦ ?_⟩
      have htype' : { ns with permittedPaths := some permitted }.type = .nsIsolated := htype
      exact requests_eq_nil htype' rfl
  | true =>
    rw [if_pos rfl]
    constructor
    · intro h hstarts
      exact h.1.mp ⟨rfl, hstarts⟩
    · intro h
      refine ⟨⟨fun hp ↦ h hp.2, fun hp ↦ ⟨rfl, hp.starts⟩⟩, fun htype hnot grown load current flag ↦ ?_⟩
      have htype' : { ns with permittedPaths := some permitted }.type = .nsIsolated := htype
      apply requests_eq_nil htype'
      rw [← Bool.not_eq_true, namespacePermitsPath_iff]
      exact fun hp ↦ hnot (h hp.2)

/-- `/a`. -/
def dirA : List Byte := [0x2f, 0x61]

/-- `/a_evil/x`. -/
def evilPath : List Byte := [0x2f, 0x61, 0x5f, 0x65, 0x76, 0x69, 0x6c, 0x2f, 0x78]

/-- An isolated namespace without libraries. -/
def isolated : Namespace := ⟨[], .nsIsolated, none, [], 64⟩

/-- A sibling of the one directory is permitted. -/
theorem sibling_not_right : ¬ IsolationRight true isolated dirA evilPath := by
  rw [isolationRight_iff, if_pos rfl]
  intro h
  have hlisted : Listed dirA dirA := ⟨by decide, by decide⟩
  obtain ⟨dir, ⟨-, hdir⟩, hinside⟩ := h ⟨dirA, hlisted, by decide⟩
  have hsplit : dirA.splitOn colon = [dirA] := by decide
  rw [hsplit, List.mem_singleton] at hdir
  subst hdir
  rcases hinside with heq | ⟨rest, heq, -⟩
  · exact absurd heq (by decide)
  · have hthird : some (0x5f : Byte) = some slash := congrArg (fun s : List Byte ↦ s[2]?) heq
    exact absurd hthird (by decide)

end Arm2x86.Namespaces
