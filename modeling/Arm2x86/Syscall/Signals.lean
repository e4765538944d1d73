import Arm2x86.Base.Heap
import Arm2x86.Base.Links

/-!
# Signal handlers

`modules/arm2x86_signal.c`. The library installs a handler of its own for each of five signals. It follows
the chain of the handlers that were registered for the signal, the latest first, and then calls what was
installed before. A handler may itself register and remove handlers, so the chain changes while it is
followed. The chains are compared with a registry, in which a registration has a number and a signal asks
the numbers in falling order.
-/

namespace Arm2x86.Signal

open Links

/-- A `SignalHandlerFunc`; `0` is null. -/
abbrev Handler := Nat

/-- `SIGNAL_MAX_TYPE` -/
def signalMaxType : Nat := 5

/-- `signal_numbers`: `SIGSEGV`, `SIGILL`, `SIGBUS`, `SIGTRAP`, `SIGFPE`. -/
def signalNumbers : List Nat := [11, 4, 7, 5, 8]

def signalNumber (type : Nat) : Nat := signalNumbers.getD type 0

/-- What the host installs for a signal. -/
inductive HostAction where
  | dfl
  | ign
  | handler (f : Handler)
deriving DecidableEq

/-- What is installed for a signal. -/
inductive Action where
  | host (a : HostAction)
  /-- `internal_handlers[type]` -/
  | internal (type : Nat)
deriving DecidableEq

/-- What a signal comes to: the handlers that are called, and the end of the process. -/
inductive Entry where
  | user (f : Handler)
  | original (a : Action)
  | exit (status : Nat)

/-- What the chains and the registry have in common. -/
structure Control where
  gSignalInitialized : Bool
  gOriginalHandlers : Nat → Action
  /-- The action of each signal number. -/
  installed : Nat → Action
  /-- The number of nodes that were allocated so far. -/
  count : Nat
  log : List Entry
  exited : Bool

namespace Control

def enter (c : Control) (e : Entry) : Control := { c with log := c.log ++ [e] }

/-- `sigaction` -/
def sigaction (c : Control) (signum : Nat) (a : Action) : Control :=
  { c with installed := fun n ↦ if n = signum then a else c.installed n }

/-- A turn of the loop of `signal_handler_init`. -/
def install (c : Control) (type : Nat) : Control :=
  { c with gOriginalHandlers := fun t ↦
      if t = type then c.installed (signalNumber type) else c.gOriginalHandlers t }.sigaction
    (signalNumber type) (.internal type)

/-- `signal_handler_init`, `modules/arm2x86_signal.c:52`. -/
def signalHandlerInit (c : Control) : Control :=
  if c.gSignalInitialized then c
  else { (List.range signalMaxType).foldl install c with gSignalInitialized := true }

theorem count_installs (types : List Nat) (c : Control) : (types.foldl install c).count = c.count := by
  induction types generalizing c with
  | nil => rfl
  | cons type types ih => exact ih (c.install type)

theorem count_signalHandlerInit (c : Control) : c.signalHandlerInit.count = c.count := by
  unfold signalHandlerInit
  split
  · rfl
  · exact count_installs _ c

/-- The end of the process in the handler of a signal without an original one. -/
def exit (c : Control) (type : Nat) : Control :=
  { (c.sigaction (signalNumber type) (.host .dfl)).enter (.exit (128 + signalNumber type)) with exited := true }

end Control

/-- A call of one of the functions, with the result of its allocation. -/
inductive Call where
  | init
  | fini
  | register (type : Int) (handler : Handler) (calloc : Bool)
  | unregister (type : Int) (handler : Handler)

/-- A call, an action that the host installs, or a signal. -/
inductive Event where
  | call (c : Call)
  | hostAction (signum : Nat) (a : HostAction)
  | signal (type : Nat) (inCodeCache : Bool)

/-! ## The chains -/

/-- The accesses that go wrong: to a node that was freed, or without an end. -/
inductive Fault where
  | freed
  | endless

/-- `SignalHandlerNode`. A node is named by its allocation, also when its address is used again. -/
structure SignalHandlerNode where
  handler : Handler
  next : Option Ptr
  isInternal : Bool

structure Signals extends Control where
  heap : Heap SignalHandlerNode
  gUserHandlers : Nat → Option Ptr

namespace Signals

def read (heap : Heap SignalHandlerNode) (p : Ptr) : Except Fault SignalHandlerNode :=
  match heap[p]? with
  | some node => .ok node
  | none => .error .freed

/-- The loop of `signal_handler_fini` over the nodes of a chain. -/
def freeNodes : Nat → Option Ptr → Heap SignalHandlerNode → Except Fault (Heap SignalHandlerNode)
  | _, none, heap => .ok heap
  | 0, some _, _ => .error .endless
  | fuel + 1, some node, heap => do
    let next := (← read heap node).next
    freeNodes fuel next (heap.erase node)

/-- A turn of the loop of `signal_handler_fini`. -/
def finiType (s : Signals) (type : Nat) : Except Fault Signals := do
  let c := s.sigaction (signalNumber type) (s.gOriginalHandlers type)
  let heap ← freeNodes s.count (s.gUserHandlers type) s.heap
  return { toControl := c, heap, gUserHandlers := fun t ↦ if t = type then none else s.gUserHandlers t }

/-- `signal_handler_fini`, `modules/arm2x86_signal.c:79`. -/
def signalHandlerFini (s : Signals) : Except Fault Signals := do
  if s.gSignalInitialized = false then return s
  let s ← (List.range signalMaxType).foldlM finiType s
  return { s with gSignalInitialized := false }

/-- A new node in front of a chain. -/
def push (s : Signals) (type : Nat) (handler : Handler) : Signals :=
  { s with
    count := s.count + 1
    heap := s.heap.insert s.count ⟨handler, s.gUserHandlers type, false⟩
    gUserHandlers := fun t ↦ if t = type then some s.count else s.gUserHandlers t }

/-- `signal_register_user_handler`, `modules/arm2x86_signal.c:100`. -/
def signalRegisterUserHandler (s : Signals) (type : Int) (handler : Handler) (calloc : Bool) : Signals :=
  if type < 0 ∨ type ≥ signalMaxType then s
  else if handler = 0 then s
  else if calloc = false then s
  else s.push type.toNat handler

/-- `*pp`, where `pp` points to the head of a chain or to the link of a node. -/
def target (s : Signals) (type : Nat) : Option Ptr → Except Fault (Option Ptr)
  | none => .ok (s.gUserHandlers type)
  | some prev => do return (← read s.heap prev).next

/-- `*pp = next` -/
def redirect (s : Signals) (type : Nat) (pp next : Option Ptr) : Except Fault Signals :=
  match pp with
  | none => .ok { s with gUserHandlers := fun t ↦ if t = type then next else s.gUserHandlers t }
  | some prev => do
    let node ← read s.heap prev
    return { s with heap := s.heap.insert prev { node with next } }

/-- The loop of `signal_unregister_user_handler`. -/
def removeNode (type : Nat) (handler : Handler) : Nat → Option Ptr → Signals → Except Fault Signals
  | 0, pp, s => do
    match ← s.target type pp with
    | none => return s
    | some _ => .error .endless
  | fuel + 1, pp, s => do
    match ← s.target type pp with
    | none => return s
    | some p =>
      let node ← read s.heap p
      if node.handler = handler then
        let s ← s.redirect type pp node.next
        return { s with heap := s.heap.erase p }
      else removeNode type handler fuel (some p) s

/-- `signal_unregister_user_handler`, `modules/arm2x86_signal.c:118`. -/
def signalUnregisterUserHandler (s : Signals) (type : Int) (handler : Handler) : Except Fault Signals :=
  if type < 0 ∨ type ≥ signalMaxType then return s
  else removeNode type.toNat handler s.count none s

def exec (s : Signals) : Call → Except Fault Signals
  | .init => return { s with toControl := s.signalHandlerInit }
  | .fini => s.signalHandlerFini
  | .register type handler calloc => return s.signalRegisterUserHandler type handler calloc
  | .unregister type handler => s.signalUnregisterUserHandler type handler

/-- A handler that is called, with the calls it makes. -/
def invoke (script : Handler → List Call) (f : Handler) (s : Signals) : Except Fault Signals :=
  (script f).foldlM exec s

/-- The loop of the handlers over a chain. -/
def follow (script : Handler → List Call) (skip : SignalHandlerNode → Bool) :
    Nat → Option Ptr → Signals → Except Fault Signals
  | _, none, s => return s
  | 0, some _, _ => .error .endless
  | fuel + 1, some p, s => do
    let node ← read s.heap p
    let s ← if skip node then pure s
      else invoke script node.handler { s with toControl := s.enter (.user node.handler) }
    follow script skip fuel (← read s.heap p).next s

/-- The call of the original handler. `SIG_IGN` is called like one, at the address 1. -/
def callOriginal (script : Handler → List Call) (type : Nat) (s : Signals) : Except Fault Signals :=
  match s.gOriginalHandlers type with
  | .host .dfl => return { s with toControl := s.exit type }
  | .host (.handler f) => invoke script f { s with toControl := s.enter (.original (.host (.handler f))) }
  | a => return { s with toControl := { s.enter (.original a) with exited := true } }

/-- The body of a handler. -/
def handleChain (script : Handler → List Call) (skip : SignalHandlerNode → Bool) (type : Nat) (s : Signals) :
    Except Fault Signals := do
  let s ← follow script skip s.count (s.gUserHandlers type) s
  callOriginal script type s

/-- `segv_handler`, `modules/arm2x86_signal.c:158`. Only this one looks at the nodes. -/
def segvHandler (script : Handler → List Call) (inCodeCache : Bool) (s : Signals) : Except Fault Signals :=
  if inCodeCache then handleChain script (fun node ↦ node.isInternal || node.handler = 0) 0 s
  else callOriginal script 0 s

/-- `ill_handler` -/
def illHandler (script : Handler → List Call) : Signals → Except Fault Signals :=
  handleChain script (fun _ ↦ false) 1

/-- `bus_handler` -/
def busHandler (script : Handler → List Call) : Signals → Except Fault Signals :=
  handleChain script (fun _ ↦ false) 2

/-- `trap_handler` -/
def trapHandler (script : Handler → List Call) : Signals → Except Fault Signals :=
  handleChain script (fun _ ↦ false) 3

/-- `fpe_handler` -/
def fpeHandler (script : Handler → List Call) : Signals → Except Fault Signals :=
  handleChain script (fun _ ↦ false) 4

/-- `internal_handlers` -/
def internalHandler (script : Handler → List Call) (type : Nat) (inCodeCache : Bool) :
    Signals → Except Fault Signals :=
  match type with
  | 0 => segvHandler script inCodeCache
  | 1 => illHandler script
  | 2 => busHandler script
  | 3 => trapHandler script
  | _ => fpeHandler script

def step (script : Handler → List Call) (s : Signals) (e : Event) : Except Fault Signals :=
  if s.exited then return s
  else
    match e with
    | .call c => s.exec c
    | .hostAction signum a => return { s with toControl := s.sigaction signum (.host a) }
    | .signal type inCodeCache =>
      if type < signalMaxType ∧ s.installed (signalNumber type) = .internal type then
        internalHandler script type inCodeCache s
      else return s

end Signals

/-! ## The registry -/

/-- The registrations of each type, the latest first, with their numbers. -/
structure Registry extends Control where
  chains : Nat → List (Nat × Handler)

namespace Registry

def setChain (r : Registry) (type : Nat) (l : List (Nat × Handler)) : Registry :=
  { r with chains := fun t ↦ if t = type then l else r.chains t }

def finiType (r : Registry) (type : Nat) : Registry :=
  { r.setChain type [] with toControl := r.sigaction (signalNumber type) (r.gOriginalHandlers type) }

def push (r : Registry) (type : Nat) (handler : Handler) : Registry :=
  { r.setChain type ((r.count, handler) :: r.chains type) with count := r.count + 1 }

def remove (r : Registry) (type : Nat) (handler : Handler) : Registry :=
  r.setChain type ((r.chains type).eraseP fun x ↦ x.2 = handler)

def exec (r : Registry) : Call → Registry
  | .init => { r with toControl := r.signalHandlerInit }
  | .fini =>
    if r.gSignalInitialized = false then r
    else { (List.range signalMaxType).foldl finiType r with gSignalInitialized := false }
  | .register type handler calloc =>
    if type < 0 ∨ type ≥ signalMaxType then r
    else if handler = 0 ∨ calloc = false then r
    else r.push type.toNat handler
  | .unregister type handler =>
    if type < 0 ∨ type ≥ signalMaxType then r
    else r.remove type.toNat handler

def invoke (script : Handler → List Call) (f : Handler) (r : Registry) : Registry := (script f).foldl exec r

/-- The registrations below a number, the later ones first. Each has to be there still when its handler
returns. -/
def follow (script : Handler → List Call) (type : Nat) : Nat → Registry → Option Registry
  | 0, r => some r
  | id + 1, r =>
    match (r.chains type).lookup id with
    | none => follow script type id r
    | some f =>
      let r := invoke script f { r with toControl := r.enter (.user f) }
      if (r.chains type).lookup id = none then none else follow script type id r

def callOriginal (script : Handler → List Call) (type : Nat) (r : Registry) : Registry :=
  match r.gOriginalHandlers type with
  | .host .dfl => { r with toControl := r.exit type }
  | .host (.handler f) => invoke script f { r with toControl := r.enter (.original (.host (.handler f))) }
  | a => { r with toControl := { r.enter (.original a) with exited := true } }

def internalHandler (script : Handler → List Call) (type : Nat) (inCodeCache : Bool) (r : Registry) :
    Option Registry :=
  if type = 0 ∧ inCodeCache = false then some (callOriginal script type r)
  else (follow script type r.count r).map (callOriginal script type)

def step (script : Handler → List Call) (r : Registry) (e : Event) : Option Registry :=
  if r.exited then some r
  else
    match e with
    | .call c => some (r.exec c)
    | .hostAction signum a => some { r with toControl := r.sigaction signum (.host a) }
    | .signal type inCodeCache =>
      if type < signalMaxType ∧ r.installed (signalNumber type) = .internal type then
        internalHandler script type inCodeCache r
      else some r

end Registry

/-! ## The nodes of a registry -/

/-- The `next` field. -/
def Signals.link (s : Signals) (p : Ptr) : Option (Option Ptr) := s.heap[p]?.map SignalHandlerNode.next

/-- The chains have the registrations of a registry, and no node is allocated that is not on one. -/
structure Refines (s : Signals) (r : Registry) : Prop where
  control : s.toControl = r.toControl
  chain : ∀ t, Chain s.link (s.gUserHandlers t) ((r.chains t).map Prod.fst)
  nodes : ∀ t, ∀ x ∈ r.chains t, s.heap[x.1]?.map (fun n ↦ (n.handler, n.isInternal)) = some (x.2, false)
  falling : ∀ t, ((r.chains t).map Prod.fst).Pairwise (· > ·)
  numbered : ∀ t, ∀ x ∈ r.chains t, x.1 < r.count ∧ x.2 ≠ 0
  apart : ∀ t u, ∀ x ∈ r.chains t, ∀ y ∈ r.chains u, x.1 = y.1 → t = u
  allocated : ∀ p, s.heap[p]?.isSome → ∃ t, ∃ x ∈ r.chains t, x.1 = p

section Nodes

variable {s : Signals} {r : Registry} {type : Nat} {kept rest : List (Nat × Handler)} {x : Nat × Handler}

theorem Refines.node (h : Refines s r) (hsplit : r.chains type = kept ++ x :: rest) :
    s.heap[x.1]? = some ⟨x.2, (rest.map Prod.fst).head?, false⟩ := by
  have hchain := h.chain type
  rw [hsplit, List.map_append, List.map_cons] at hchain
  have hlink := hchain.field_eq
  obtain ⟨node, hnode, hfields⟩ := Option.map_eq_some_iff.mp (h.nodes type x (by simp [hsplit]))
  rw [Signals.link, hnode, Option.map_some, Option.some.injEq] at hlink
  obtain ⟨handler, next, isInternal⟩ := node
  obtain ⟨rfl, rfl⟩ := Prod.mk.inj hfields
  rw [hnode, ← hlink]

theorem Refines.read_node (h : Refines s r) (hsplit : r.chains type = kept ++ x :: rest) :
    Signals.read s.heap x.1 = .ok ⟨x.2, (rest.map Prod.fst).head?, false⟩ := by
  rw [Signals.read, h.node hsplit]

/-- A change of what both have in common. -/
theorem Refines.withControl (h : Refines s r) {c : Control} (hcount : c.count = r.count) :
    Refines { s with toControl := c } { r with toControl := c } where
  control := rfl
  chain := h.chain
  nodes := h.nodes
  falling := h.falling
  numbered t x hx := by
    rw [hcount]
    exact h.numbered t x hx
  apart := h.apart
  allocated := h.allocated

/-- The number of the next node is not in use. -/
theorem Refines.fresh (h : Refines s r) : s.heap[s.count]? = none := by
  cases hnode : s.heap[s.count]? with
  | none => rfl
  | some node =>
    obtain ⟨t, x, hx, hcount⟩ := h.allocated s.count (by rw [hnode]; rfl)
    have hlt := (h.numbered t x hx).1
    rw [hcount, h.control] at hlt
    omega

theorem Registry.setChain_self (r : Registry) (type : Nat) : r.setChain type (r.chains type) = r := by
  obtain ⟨c, chains⟩ := r
  simp only [Registry.setChain, Registry.mk.injEq, true_and]
  funext t
  by_cases ht : t = type
  · rw [if_pos ht, ht]
  · rw [if_neg ht]

/-! ## The calls -/

theorem Refines.push (h : Refines s r) (type : Nat) {handler : Handler} (hhandler : handler ≠ 0) :
    Refines (s.push type handler) (r.push type handler) := by
  have hcount : s.count = r.count := by rw [h.control]
  have hold : ∀ t, ∀ x ∈ r.chains t, s.count ≠ x.1 := by
    intro t x hx heq
    have hlt := (h.numbered t x hx).1
    omega
  have hself : (r.push type handler).chains type = (r.count, handler) :: r.chains type := if_pos rfl
  have hother : ∀ t, t ≠ type → (r.push type handler).chains t = r.chains t := fun t ht ↦ if_neg ht
  have hnode : (s.push type handler).heap[s.count]? = some ⟨handler, s.gUserHandlers type, false⟩ :=
    (Heap.getElem?_insert ..).trans (if_pos rfl)
  have hframe : ∀ p, s.count ≠ p → (s.push type handler).heap[p]? = s.heap[p]? := fun p hp ↦
    (Heap.getElem?_insert ..).trans (if_neg hp)
  have hlink : ∀ t, ∀ p ∈ (r.chains t).map Prod.fst, (s.push type handler).link p = s.link p := by
    intro t p hp
    obtain ⟨x, hx, rfl⟩ := List.mem_map.mp hp
    rw [Signals.link, Signals.link, hframe x.1 (hold t x hx)]
  -- a registration is the new one or one that was there
  have hmem : ∀ t, ∀ x ∈ (r.push type handler).chains t,
      (t = type ∧ x = (r.count, handler)) ∨ x ∈ r.chains t := by
    intro t x hx
    by_cases ht : t = type
    · rw [ht, hself, List.mem_cons] at hx
      rw [ht]
      exact hx.imp_left fun hx ↦ ⟨rfl, hx⟩
    · rw [hother t ht] at hx
      exact .inr hx
  constructor
  · simp only [Signals.push, Registry.push, Registry.setChain, h.control]
  · intro t
    by_cases ht : t = type
    · rw [ht, hself, List.map_cons, ← hcount]
      have hhead : (s.push type handler).gUserHandlers type = some s.count := if_pos rfl
      rw [hhead]
      apply (h.chain type).push
      · rw [Signals.link, hnode]
        rfl
      · exact hlink type
    · have hhead : (s.push type handler).gUserHandlers t = s.gUserHandlers t := if_neg ht
      rw [hother t ht, hhead]
      exact Seg.congr (h.chain t) (hlink t)
  · intro t x hx
    rcases hmem t x hx with ⟨-, rfl⟩ | hx
    · rw [← hcount, hnode]
      rfl
    · rw [hframe x.1 (hold t x hx)]
      exact h.nodes t x hx
  · intro t
    by_cases ht : t = type
    · rw [ht, hself, List.map_cons, List.pairwise_cons]
      refine ⟨?_, h.falling type⟩
      intro p hp
      obtain ⟨x, hx, rfl⟩ := List.mem_map.mp hp
      exact (h.numbered type x hx).1
    · rw [hother t ht]
      exact h.falling t
  · intro t x hx
    have hnext : (r.push type handler).count = r.count + 1 := rfl
    rw [hnext]
    rcases hmem t x hx with ⟨-, rfl⟩ | hx
    · exact ⟨Nat.lt_succ_self _, hhandler⟩
    · obtain ⟨hlt, hne⟩ := h.numbered t x hx
      exact ⟨by omega, hne⟩
  · intro t u x hx y hy hxy
    rcases hmem t x hx with ⟨ht, hnew⟩ | hxold
    · rcases hmem u y hy with ⟨hu, -⟩ | hyold
      · rw [ht, hu]
      · rw [hnew] at hxy
        exact absurd (hcount.trans hxy) (hold u y hyold)
    · rcases hmem u y hy with ⟨-, hnew⟩ | hyold
      · rw [hnew] at hxy
        exact absurd (hcount.trans hxy.symm) (hold t x hxold)
      · exact h.apart t u x hxold y hyold hxy
  · intro p hp
    by_cases hnew : s.count = p
    · refine ⟨type, (r.count, handler), ?_, ?_⟩
      · rw [hself]
        exact List.mem_cons_self
      · rw [← hnew, hcount]
    · rw [hframe p hnew] at hp
      obtain ⟨t, x, hx, hxp⟩ := h.allocated p hp
      refine ⟨t, x, ?_, hxp⟩
      by_cases ht : t = type
      · rw [ht] at hx
        rw [ht, hself]
        exact List.mem_cons_of_mem _ hx
      · rwa [hother t ht]

theorem Refines.register (h : Refines s r) (type : Int) (handler : Handler) (calloc : Bool) :
    Refines (s.signalRegisterUserHandler type handler calloc) (r.exec (.register type handler calloc)) := by
  simp only [Signals.signalRegisterUserHandler, Registry.exec]
  by_cases htype : type < 0 ∨ type ≥ signalMaxType
  · rwa [if_pos htype, if_pos htype]
  · rw [if_neg htype, if_neg htype]
    by_cases hnull : handler = 0
    · rwa [if_pos hnull, if_pos (.inl hnull)]
    · rw [if_neg hnull]
      cases calloc with
      | false => rwa [if_pos rfl, if_pos (.inr rfl)]
      | true =>
        rw [if_neg (by decide), if_neg (by simp [hnull])]
        exact h.push type.toNat hnull

/-- The loop frees the nodes of a chain. -/
theorem freeNodes_chain {heap : Heap SignalHandlerNode} {p : Option Ptr} {ids : List Ptr} {fuel : Nat}
    (hchain : Chain (fun p ↦ heap[p]?.map SignalHandlerNode.next) p ids) (hnodup : ids.Nodup)
    (hfuel : ids.length ≤ fuel) :
    ∃ heap', Signals.freeNodes fuel p heap = .ok heap' ∧
      ∀ q, heap'[q]? = if q ∈ ids then none else heap[q]? := by
  induction ids generalizing heap p fuel with
  | nil =>
    obtain rfl : p = none := hchain
    refine ⟨heap, ?_, by simp⟩
    cases fuel <;> rfl
  | cons x ids ih =>
    obtain ⟨rfl, next, hlink, hrest⟩ := hchain
    obtain ⟨node, hnode, rfl⟩ := Option.map_eq_some_iff.mp hlink
    obtain ⟨hx, hnodup⟩ := List.nodup_cons.mp hnodup
    obtain ⟨fuel, rfl⟩ := Nat.exists_eq_succ_of_ne_zero (n := fuel) (by simp at hfuel; omega)
    have herased : Chain (fun p ↦ (heap.erase x)[p]?.map SignalHandlerNode.next) node.next ids := by
      apply Seg.congr hrest
      intro q hq
      have hne : x ≠ q := by
        rintro rfl
        exact hx hq
      simp only [Heap.getElem?_erase, if_neg hne]
    obtain ⟨heap', hfree, hheap⟩ := ih herased hnodup (by simp at hfuel; omega)
    refine ⟨heap', ?_, ?_⟩
    · simp only [Signals.freeNodes, Signals.read, hnode]
      exact hfree
    · intro q
      rw [hheap q, Heap.getElem?_erase]
      by_cases hqx : x = q
      · simp [hqx]
      · simp [hqx, Ne.symm hqx]

theorem Refines.nodup (h : Refines s r) (t : Nat) : ((r.chains t).map Prod.fst).Nodup := (h.chain t).nodup

theorem Refines.length_le (h : Refines s r) (t : Nat) : (r.chains t).length ≤ s.count := by
  rw [← List.length_map Prod.fst]
  apply length_le_of_nodup_lt (h.nodup t)
  intro p hp
  obtain ⟨x, hx, rfl⟩ := List.mem_map.mp hp
  have hlt := (h.numbered t x hx).1
  rwa [← h.control] at hlt

/-- A chain of which some registrations are left, with their nodes and those of the other chains. -/
theorem Refines.of_sublist (h : Refines s r) {l : List (Nat × Handler)} (hl : l.Sublist (r.chains type))
    {s' : Signals} (hcount : s'.count = r.count)
    (hchain : ∀ t, Chain s'.link (s'.gUserHandlers t) (((r.setChain type l).chains t).map Prod.fst))
    (hnodes : ∀ t, ∀ y ∈ (r.setChain type l).chains t,
      s'.heap[y.1]?.map (fun n ↦ (n.handler, n.isInternal)) = some (y.2, false))
    (hallocated : ∀ p, s'.heap[p]?.isSome → s.heap[p]?.isSome ∧ ∀ y ∈ r.chains type, y.1 = p → y ∈ l) :
    Refines s' { r.setChain type l with toControl := s'.toControl } := by
  have hself : (r.setChain type l).chains type = l := if_pos rfl
  have hother : ∀ t, t ≠ type → (r.setChain type l).chains t = r.chains t := fun t ht ↦ if_neg ht
  have hold : ∀ t, ∀ y ∈ (r.setChain type l).chains t, y ∈ r.chains t := by
    intro t y hy
    by_cases ht : t = type
    · rw [ht, hself] at hy
      rw [ht]
      exact hl.subset hy
    · rwa [hother t ht] at hy
  constructor
  · rfl
  · exact hchain
  · exact hnodes
  · intro t
    dsimp only
    by_cases ht : t = type
    · rw [ht, hself]
      exact (h.falling type).sublist (hl.map Prod.fst)
    · rw [hother t ht]
      exact h.falling t
  · intro t y hy
    dsimp only
    rw [hcount]
    exact h.numbered t y (hold t y hy)
  · intro t u y hy z hz
    exact h.apart t u y (hold t y hy) z (hold u z hz)
  · intro p hp
    obtain ⟨hp', hleft⟩ := hallocated p hp
    obtain ⟨t, y, hy, hyp⟩ := h.allocated p hp'
    refine ⟨t, y, ?_, hyp⟩
    dsimp only
    by_cases ht : t = type
    · rw [ht] at hy
      rw [ht, hself]
      exact hleft y hy hyp
    · rwa [hother t ht]

/-- The nodes of one chain are taken away. -/
theorem Refines.finiType (h : Refines s r) (type : Nat) :
    ∃ s', s.finiType type = .ok s' ∧ Refines s' (r.finiType type) := by
  have hlength : ((r.chains type).map Prod.fst).length ≤ s.count := by
    rw [List.length_map]
    exact h.length_le type
  obtain ⟨heap, hfree, hheap⟩ := freeNodes_chain (h.chain type) (h.nodup type) hlength
  have hself : (r.setChain type []).chains type = [] := if_pos rfl
  have hother : ∀ t, t ≠ type → (r.setChain type []).chains t = r.chains t := fun t ht ↦ if_neg ht
  have hframe : ∀ t, t ≠ type → ∀ x ∈ r.chains t, heap[x.1]? = s.heap[x.1]? := by
    intro t ht x hx
    rw [hheap, if_neg]
    intro hp
    obtain ⟨y, hy, hyx⟩ := List.mem_map.mp hp
    exact ht (h.apart t type x hx y hy hyx.symm)
  refine ⟨_, by rw [Signals.finiType, hfree]; rfl, ?_⟩
  rw [Registry.finiType, ← h.control]
  apply h.of_sublist (List.nil_sublist _)
  · rw [h.control]
    rfl
  · intro t
    by_cases ht : t = type
    · rw [ht, hself]
      exact if_pos rfl
    · rw [hother t ht]
      have hhead : (if t = type then none else s.gUserHandlers t) = s.gUserHandlers t := if_neg ht
      dsimp only
      rw [hhead]
      apply Seg.congr (h.chain t)
      intro p hp
      obtain ⟨x, hx, rfl⟩ := List.mem_map.mp hp
      rw [Signals.link, Signals.link, hframe t ht x hx]
  · intro t x hx
    by_cases ht : t = type
    · rw [ht, hself] at hx
      cases hx
    · rw [hother t ht] at hx
      dsimp only
      rw [hframe t ht x hx]
      exact h.nodes t x hx
  · intro p hp
    dsimp only at hp
    rw [hheap] at hp
    split at hp
    · cases hp
    · next hout =>
      refine ⟨hp, ?_⟩
      rintro y hy rfl
      exact absurd (List.mem_map_of_mem hy) hout

theorem Refines.finiTypes (h : Refines s r) (types : List Nat) :
    ∃ s', types.foldlM Signals.finiType s = .ok s' ∧ Refines s' (types.foldl Registry.finiType r) := by
  induction types generalizing s r with
  | nil => exact ⟨s, rfl, h⟩
  | cons type types ih =>
    obtain ⟨s₁, hone, h₁⟩ := h.finiType type
    obtain ⟨s', hrest, h'⟩ := ih h₁
    refine ⟨s', ?_, h'⟩
    rw [List.foldlM_cons, hone]
    exact hrest

theorem Refines.fini (h : Refines s r) :
    ∃ s', s.signalHandlerFini = .ok s' ∧ Refines s' (r.exec .fini) := by
  simp only [Signals.signalHandlerFini, Registry.exec, h.control]
  by_cases hinit : r.gSignalInitialized = false
  · rw [if_pos hinit, if_pos hinit]
    exact ⟨s, rfl, h⟩
  · rw [if_neg hinit, if_neg hinit]
    obtain ⟨s', hall, h'⟩ := h.finiTypes (List.range signalMaxType)
    refine ⟨{ s' with gSignalInitialized := false }, ?_, ?_⟩
    · rw [hall]
      rfl
    · have hend := h'.withControl (c := { s'.toControl with gSignalInitialized := false })
        (by rw [← h'.control])
      rw [← h'.control]
      exact hend

/-- The pointer to the rest of a chain. -/
theorem Refines.target (h : Refines s r) (hsplit : r.chains type = kept ++ rest) :
    s.target type (kept.map Prod.fst).getLast? = .ok (rest.map Prod.fst).head? := by
  rcases List.eq_nil_or_concat' kept with rfl | ⟨front, last, rfl⟩
  · have hhead := (h.chain type).eq_head?
    rw [hsplit] at hhead
    simp [Signals.target, hhead]
  · have hend : r.chains type = front ++ last :: rest := by simp [hsplit]
    have hlast : ((front ++ [last]).map Prod.fst).getLast? = some last.1 := by simp
    rw [hlast, Signals.target, h.read_node hend]
    rfl

/-- What is left when a node is unlinked and freed. -/
theorem Refines.of_unlinked (h : Refines s r) (hsplit : r.chains type = kept ++ x :: rest) {s' : Signals}
    (hcontrol : s'.toControl = s.toControl)
    (hhead : ∀ t, s'.gUserHandlers t =
      if t = type ∧ kept.map Prod.fst = [] then (rest.map Prod.fst).head? else s.gUserHandlers t)
    (hfreed : s'.heap[x.1]? = none)
    (hheap : ∀ p, p ≠ x.1 → s'.heap[p]? = s.heap[p]?.map fun node ↦
      if (kept.map Prod.fst).getLast? = some p then { node with next := (rest.map Prod.fst).head? } else node) :
    Refines s' (r.setChain type (kept ++ rest)) := by
  have hself : (r.setChain type (kept ++ rest)).chains type = kept ++ rest := if_pos rfl
  have hother : ∀ t, t ≠ type → (r.setChain type (kept ++ rest)).chains t = r.chains t := fun t ht ↦ if_neg ht
  have hchain := h.chain type
  have hnodup := h.nodup type
  rw [hsplit, List.map_append, List.map_cons] at hchain hnodup
  obtain ⟨hout, hnodup⟩ := List.nodup_cons.mp (List.nodup_middle.mp hnodup)
  have hsub : (kept ++ rest).Sublist (r.chains type) := by
    rw [hsplit]
    exact List.Sublist.append (List.Sublist.refl _) (List.sublist_cons_self _ _)
  -- the registrations that stay are at other nodes
  have hstays : ∀ t, ∀ y ∈ (r.setChain type (kept ++ rest)).chains t, y ∈ r.chains t ∧ y.1 ≠ x.1 := by
    intro t y hy
    by_cases ht : t = type
    · rw [ht, hself] at hy
      rw [ht]
      refine ⟨hsub.subset hy, fun hyx ↦ hout ?_⟩
      rw [← List.map_append, ← hyx]
      exact List.mem_map_of_mem hy
    · rw [hother t ht] at hy
      refine ⟨hy, fun hyx ↦ ht ?_⟩
      exact h.apart t type y hy x (by simp [hsplit]) hyx
  have hleft : Refines s' { r.setChain type (kept ++ rest) with toControl := s'.toControl } := by
    apply h.of_sublist hsub
    · rw [hcontrol, h.control]
    · intro t
      by_cases ht : t = type
      · rw [ht, hself, List.map_append]
        apply hchain.remove hnodup
        · rw [hhead]
          simp
        · intro p hp
          have hne : p ≠ x.1 := by
            rintro rfl
            exact hout hp
          have hsome : (s.link p).isSome := by
            apply Seg.allocated hchain
            simp only [List.mem_append, List.mem_cons] at hp ⊢
            tauto
          obtain ⟨next, hnext⟩ := Option.isSome_iff_exists.mp hsome
          obtain ⟨node, hnode, -⟩ := Option.map_eq_some_iff.mp hnext
          rw [Signals.link, Signals.link, hheap p hne, hnode]
          simp only [Option.map_some]
          split <;> rfl
      · rw [hother t ht, hhead, if_neg fun hand ↦ ht hand.1]
        apply Seg.congr (h.chain t)
        intro p hp
        obtain ⟨y, hy, rfl⟩ := List.mem_map.mp hp
        have hy' : y ∈ (r.setChain type (kept ++ rest)).chains t := by rwa [hother t ht]
        have hlast : (kept.map Prod.fst).getLast? ≠ some y.1 := by
          intro hlast
          obtain ⟨z, hz, hzy⟩ := List.mem_map.mp (List.mem_of_getLast? hlast)
          exact ht (h.apart t type y hy z (by simp [hsplit, hz]) hzy.symm)
        rw [Signals.link, Signals.link, hheap y.1 (hstays t y hy').2]
        simp only [if_neg hlast]
        simp
    · intro t y hy
      obtain ⟨hmem, hne⟩ := hstays t y hy
      rw [hheap y.1 hne, ← h.nodes t y hmem, Option.map_map]
      congr 1
      funext node
      dsimp only [Function.comp_apply]
      split <;> rfl
    · intro p hp
      by_cases hpx : p = x.1
      · rw [hpx, hfreed] at hp
        cases hp
      · rw [hheap p hpx, Option.isSome_map] at hp
        refine ⟨hp, ?_⟩
        rintro y hy rfl
        rw [hsplit] at hy
        simp only [List.mem_append, List.mem_cons] at hy ⊢
        rcases hy with hy | rfl | hy
        · exact .inl hy
        · exact absurd rfl hpx
        · exact .inr hy
  rw [hcontrol, h.control] at hleft
  exact hleft

/-- A node that is unlinked and freed. -/
theorem Refines.unlink (h : Refines s r) (hsplit : r.chains type = kept ++ x :: rest) :
    ∃ s₁, s.redirect type (kept.map Prod.fst).getLast? (rest.map Prod.fst).head? = .ok s₁ ∧
      Refines { s₁ with heap := s₁.heap.erase x.1 } (r.setChain type (kept ++ rest)) := by
  have hfreed : ∀ heap : Heap SignalHandlerNode, (heap.erase x.1)[x.1]? = none := fun heap ↦
    (Heap.getElem?_erase heap x.1 x.1).trans (if_pos rfl)
  rcases List.eq_nil_or_concat' kept with rfl | ⟨front, last, rfl⟩
  · refine ⟨_, rfl, h.of_unlinked hsplit rfl ?_ (hfreed _) ?_⟩
    · simp
    · intro p hp
      rw [Heap.getElem?_erase, if_neg (Ne.symm hp)]
      simp
  · have hend : r.chains type = front ++ last :: x :: rest := by simp [hsplit]
    have hlast : ((front ++ [last]).map Prod.fst).getLast? = some last.1 := by simp
    have hredirect : s.redirect type (some last.1) (rest.map Prod.fst).head? = .ok { s with
        heap := s.heap.insert last.1 ⟨last.2, (rest.map Prod.fst).head?, false⟩ } := by
      rw [Signals.redirect, h.read_node hend]
      rfl
    refine ⟨{ s with heap := s.heap.insert last.1 ⟨last.2, (rest.map Prod.fst).head?, false⟩ },
      by rw [hlast, hredirect], h.of_unlinked hsplit rfl ?_ (hfreed _) ?_⟩
    · simp
    · intro p hp
      rw [Heap.getElem?_erase, if_neg (Ne.symm hp), Heap.getElem?_insert, hlast]
      by_cases hpl : last.1 = p
      · rw [if_pos hpl, ← hpl, h.node hend]
        simp
      · simp [hpl]

/-- The loop takes off the first node of a handler. -/
theorem Refines.removeNode (h : Refines s r) {handler : Handler} {fuel : Nat}
    (hsplit : r.chains type = kept ++ rest) (hkept : ∀ x ∈ kept, x.2 ≠ handler)
    (hfuel : rest.length ≤ fuel) :
    ∃ s', Signals.removeNode type handler fuel (kept.map Prod.fst).getLast? s = .ok s' ∧
      Refines s' (r.setChain type (kept ++ rest.eraseP fun x ↦ x.2 = handler)) := by
  induction rest generalizing kept fuel with
  | nil =>
    refine ⟨s, ?_, ?_⟩
    · cases fuel <;> rw [Signals.removeNode, h.target hsplit] <;> rfl
    · rw [List.eraseP_nil, ← hsplit, r.setChain_self]
      exact h
  | cons x rest ih =>
    obtain ⟨fuel, rfl⟩ := Nat.exists_eq_succ_of_ne_zero (n := fuel) (by simp at hfuel; omega)
    have hread := h.read_node hsplit
    have htarget : s.target type (kept.map Prod.fst).getLast? = .ok (some x.1) := h.target hsplit
    by_cases hx : x.2 = handler
    · obtain ⟨s₁, hredirect, hs'⟩ := h.unlink hsplit
      rw [List.eraseP_cons_of_pos (by simpa using hx)]
      refine ⟨_, ?_, hs'⟩
      simp only [Signals.removeNode, htarget, hread, hredirect, bind, Except.bind, if_pos hx]
      rfl
    · have hnext : r.chains type = (kept ++ [x]) ++ rest := by simp [hsplit]
      have hkept' : ∀ y ∈ kept ++ [x], y.2 ≠ handler := by
        intro y hy
        rcases List.mem_append.mp hy with hy | hy
        · exact hkept y hy
        · rwa [List.mem_singleton.mp hy]
      obtain ⟨s', hremove, hs'⟩ := ih hnext hkept' (Nat.le_of_succ_le_succ hfuel)
      have hlast : ((kept ++ [x]).map Prod.fst).getLast? = some x.1 := by simp
      refine ⟨s', ?_, ?_⟩
      · rw [hlast] at hremove
        simp only [Signals.removeNode, htarget, hread, bind, Except.bind, if_neg hx]
        exact hremove
      · rw [List.eraseP_cons_of_neg (by simpa using hx)]
        simpa using hs'

theorem Refines.unregister (h : Refines s r) (type : Int) (handler : Handler) :
    ∃ s', s.signalUnregisterUserHandler type handler = .ok s' ∧
      Refines s' (r.exec (.unregister type handler)) := by
  simp only [Signals.signalUnregisterUserHandler, Registry.exec]
  by_cases htype : type < 0 ∨ type ≥ signalMaxType
  · rw [if_pos htype, if_pos htype]
    exact ⟨s, rfl, h⟩
  · rw [if_neg htype, if_neg htype]
    have hnone : ∀ x ∈ ([] : List (Nat × Handler)), x.2 ≠ handler := by simp
    exact h.removeNode rfl hnone (h.length_le type.toNat)

theorem Refines.init (h : Refines s r) :
    Refines { s with toControl := s.signalHandlerInit } (r.exec .init) := by
  rw [Registry.exec, h.control]
  exact h.withControl r.count_signalHandlerInit

/-- A call ends, and does to the chains what it does to the registry. -/
theorem Refines.exec (h : Refines s r) (c : Call) :
    ∃ s', s.exec c = .ok s' ∧ Refines s' (r.exec c) := by
  cases c with
  | init => exact ⟨_, rfl, h.init⟩
  | fini => exact h.fini
  | register type handler calloc => exact ⟨_, rfl, h.register type handler calloc⟩
  | unregister type handler => exact h.unregister type handler

theorem Refines.invoke (h : Refines s r) (script : Handler → List Call) (f : Handler) :
    ∃ s', s.invoke script f = .ok s' ∧ Refines s' (r.invoke script f) := by
  unfold Signals.invoke Registry.invoke
  induction script f generalizing s r with
  | nil => exact ⟨s, rfl, h⟩
  | cons c calls ih =>
    obtain ⟨s₁, hone, h₁⟩ := h.exec c
    obtain ⟨s', hrest, h'⟩ := ih h₁
    refine ⟨s', ?_, h'⟩
    rw [List.foldlM_cons, hone]
    exact hrest

/-! ## Signals -/

/-- The registrations of the second registry are in the first one, or newer than it. -/
structure Later (r r' : Registry) : Prop where
  count : r.count ≤ r'.count
  old : ∀ t, ∀ x ∈ r'.chains t, x ∈ r.chains t ∨ r.count ≤ x.1

theorem Later.refl (r : Registry) : Later r r := ⟨Nat.le_refl _, fun _ _ hx ↦ .inl hx⟩

theorem Later.trans {r₁ r₂ r₃ : Registry} (h : Later r₁ r₂) (h' : Later r₂ r₃) : Later r₁ r₃ := by
  refine ⟨Nat.le_trans h.count h'.count, fun t x hx ↦ ?_⟩
  rcases h'.old t x hx with hx | hx
  · exact h.old t x hx
  · exact .inr (Nat.le_trans h.count hx)

theorem Later.foldl {α : Type} {f : Registry → α → Registry} (hf : ∀ r a, Later r (f r a)) (l : List α)
    (r : Registry) : Later r (l.foldl f r) := by
  induction l generalizing r with
  | nil => exact .refl r
  | cons a l ih => exact (hf r a).trans (ih (f r a))

/-- A chain of which some registrations are left. -/
theorem later_setChain (r : Registry) (type : Nat) {l : List (Nat × Handler)}
    (hl : ∀ x ∈ l, x ∈ r.chains type) :
    Later r (r.setChain type l) := by
  refine ⟨Nat.le_refl _, fun t x hx ↦ .inl ?_⟩
  simp only [Registry.setChain] at hx
  split at hx
  · next ht =>
    rw [ht]
    exact hl x hx
  · exact hx

theorem later_push (r : Registry) (type : Nat) (handler : Handler) : Later r (r.push type handler) := by
  refine ⟨Nat.le_succ _, fun t x hx ↦ ?_⟩
  simp only [Registry.push, Registry.setChain] at hx
  split at hx
  · next ht =>
    rw [List.mem_cons] at hx
    rcases hx with rfl | hx
    · exact .inr (Nat.le_refl _)
    · exact .inl (ht ▸ hx)
  · exact .inl hx

theorem later_finiType (r : Registry) (type : Nat) : Later r (r.finiType type) := by
  obtain ⟨hcount, hold⟩ := later_setChain r type (l := []) (by simp)
  exact ⟨hcount, hold⟩

theorem later_init (r : Registry) : Later r (r.exec .init) := by
  refine ⟨?_, fun t x hx ↦ .inl hx⟩
  rw [Registry.exec]
  exact Nat.le_of_eq r.count_signalHandlerInit.symm

theorem later_exec (r : Registry) (c : Call) : Later r (r.exec c) := by
  cases c with
  | init => exact later_init r
  | fini =>
    rw [Registry.exec]
    split
    · exact .refl r
    · obtain ⟨hcount, hold⟩ := Later.foldl later_finiType (List.range signalMaxType) r
      exact ⟨hcount, hold⟩
  | register type handler calloc =>
    rw [Registry.exec]
    split
    · exact .refl r
    · split
      · exact .refl r
      · exact later_push r type.toNat handler
  | unregister type handler =>
    rw [Registry.exec]
    split
    · exact .refl r
    · exact later_setChain r type.toNat fun x hx ↦ List.mem_of_mem_eraseP hx

theorem later_invoke (script : Handler → List Call) (f : Handler) (r : Registry) :
    Later r (r.invoke script f) :=
  Later.foldl later_exec (script f) r

/-- The chains have gone wrong exactly when the registry has. -/
def Simulates : Except Fault Signals → Option Registry → Prop
  | .ok s, some r => Refines s r
  | .error .freed, none => True
  | _, _ => False

/-- The first number below a bound in a chain whose numbers fall. -/
theorem find_below {ids front back : List Nat} {id : Nat} (hsplit : ids = front ++ id :: back)
    (hfalling : ids.Pairwise (· > ·)) :
    ids.find? (· < id + 1) = some id ∧ ids.find? (· < id) = back.head? := by
  rw [hsplit, List.pairwise_append] at hfalling
  obtain ⟨-, hback, hcross⟩ := hfalling
  rw [List.pairwise_cons] at hback
  have hfront : ∀ p ∈ front, id < p := fun p hp ↦ hcross p hp id List.mem_cons_self
  constructor
  · rw [hsplit, List.find?_append, List.find?_eq_none.mpr]
    · simp
    · intro p hp
      have hlt := hfront p hp
      simp
      omega
  · rw [hsplit, List.find?_append, List.find?_eq_none.mpr]
    · cases back with
      | nil => simp
      | cons q back =>
        have hlt := hback.1 q List.mem_cons_self
        simp [hlt]
    · intro p hp
      have hlt := hfront p hp
      simp
      omega

theorem find_skip {ids : List Nat} {id : Nat} (hid : id ∉ ids) :
    ids.find? (· < id + 1) = ids.find? (· < id) := by
  induction ids with
  | nil => rfl
  | cons p ids ih =>
    rw [List.mem_cons, not_or] at hid
    have hiff : p < id + 1 ↔ p < id := by omega
    simp only [List.find?_cons, hiff, ih hid.2]

/-- A registration that is gone later on has its node freed. -/
theorem Refines.freed (h : Refines s r) {s' : Signals} {r' : Registry} (h' : Refines s' r') (hlater : Later r r')
    {f : Handler} {id : Nat} (hmem : (id, f) ∈ r.chains type) (hgone : (r'.chains type).lookup id = none) :
    s'.heap[id]? = none := by
  cases hnode : s'.heap[id]? with
  | none => rfl
  | some node =>
    obtain ⟨t, x, hx, hxid⟩ := h'.allocated id (by rw [hnode]; rfl)
    rcases hlater.old t x hx with hold | hnew
    · have ht : t = type := h.apart t type x hold (id, f) hmem hxid
      rw [ht] at hx
      have hne := List.lookup_eq_none_iff.mp hgone x hx
      simp [hxid] at hne
    · have hlt : id < r.count := (h.numbered type (id, f) hmem).1
      omega

/-- The loop over a chain asks the registrations below a number. -/
theorem Refines.follow (h : Refines s r) (script : Handler → List Call) {skip : SignalHandlerNode → Bool}
    (hskip : ∀ f next, f ≠ 0 → skip ⟨f, next, false⟩ = false) (type id : Nat) {fuel : Nat}
    (hfuel : id ≤ fuel) :
    Simulates (Signals.follow script skip fuel (((r.chains type).map Prod.fst).find? (· < id)) s)
      (Registry.follow script type id r) := by
  induction id generalizing s r fuel with
  | zero =>
    have hnone : ((r.chains type).map Prod.fst).find? (· < 0) = none := by simp
    rw [hnone]
    cases fuel <;> exact h
  | succ id ih =>
    obtain ⟨fuel, rfl⟩ := Nat.exists_eq_succ_of_ne_zero (n := fuel) (by omega)
    rw [Registry.follow]
    cases hlookup : (r.chains type).lookup id with
    | none =>
      rw [find_skip]
      · exact ih h (by omega)
      · intro hid
        obtain ⟨x, hx, hxid⟩ := List.mem_map.mp hid
        have hne := List.lookup_eq_none_iff.mp hlookup x hx
        simp [hxid] at hne
    | some f =>
      obtain ⟨front, back, hsplit, -⟩ := List.lookup_eq_some_iff.mp hlookup
      have hids : (r.chains type).map Prod.fst = front.map Prod.fst ++ id :: back.map Prod.fst := by
        rw [hsplit, List.map_append, List.map_cons]
      have hmem : (id, f) ∈ r.chains type := by simp [hsplit]
      have hread := h.read_node hsplit
      have hf : f ≠ 0 := (h.numbered type (id, f) hmem).2
      have hentered : Refines { s with toControl := s.enter (.user f) }
          { r with toControl := r.enter (.user f) } := by
        rw [h.control]
        exact h.withControl rfl
      have hlater : Later r (Registry.invoke script f { r with toControl := r.enter (.user f) }) := by
        obtain ⟨hcount, hold⟩ := later_invoke script f { r with toControl := r.enter (.user f) }
        exact ⟨hcount, hold⟩
      obtain ⟨s', hinvoke, hs'⟩ := hentered.invoke script f
      rw [(find_below hids (h.falling type)).1]
      simp only [Signals.follow, hread, bind, Except.bind, hskip f _ hf, Bool.false_eq_true, if_false, hinvoke]
      generalize Registry.invoke script f { r with toControl := r.enter (.user f) } = r₁ at hs' hlater ⊢
      cases hstill : (r₁.chains type).lookup id with
      | none =>
        rw [if_pos rfl, Signals.read, h.freed hs' hlater hmem hstill]
        exact trivial
      | some f' =>
        obtain ⟨front', back', hsplit', -⟩ := List.lookup_eq_some_iff.mp hstill
        have hids' : (r₁.chains type).map Prod.fst = front'.map Prod.fst ++ id :: back'.map Prod.fst := by
          rw [hsplit', List.map_append, List.map_cons]
        have hrest := ih hs' (Nat.le_of_succ_le_succ hfuel)
        rw [(find_below hids' (hs'.falling type)).2] at hrest
        rw [if_neg (by simp), hs'.read_node hsplit']
        exact hrest

theorem Refines.callOriginal (h : Refines s r) (script : Handler → List Call) (type : Nat) :
    Simulates (s.callOriginal script type) (some (r.callOriginal script type)) := by
  have hentered : ∀ e, Refines { s with toControl := s.enter e } { r with toControl := r.enter e } := by
    intro e
    rw [h.control]
    exact h.withControl rfl
  have horiginal : s.gOriginalHandlers type = r.gOriginalHandlers type := by rw [h.control]
  unfold Signals.callOriginal Registry.callOriginal
  rw [horiginal]
  split
  · rw [h.control]
    exact h.withControl rfl
  · next f _ =>
    obtain ⟨s', hok, hs'⟩ := (hentered (.original (.host (.handler f)))).invoke script f
    rw [hok]
    exact hs'
  · rw [h.control]
    exact h.withControl rfl

theorem Simulates.bind {x : Except Fault Signals} {y : Option Registry} {f : Signals → Except Fault Signals}
    {g : Registry → Option Registry} (h : Simulates x y) (hfg : ∀ s r, Refines s r → Simulates (f s) (g r)) :
    Simulates (x.bind f) (y.bind g) := by
  cases x with
  | ok s =>
    cases y with
    | some r => exact hfg s r h
    | none => cases h
  | error fault =>
    cases y with
    | some r => cases fault <;> cases h
    | none => exact h

theorem Refines.handleChain (h : Refines s r) (script : Handler → List Call) {skip : SignalHandlerNode → Bool}
    (hskip : ∀ f next, f ≠ 0 → skip ⟨f, next, false⟩ = false) (type : Nat) :
    Simulates (s.handleChain script skip type)
      ((r.follow script type r.count).map (Registry.callOriginal script type)) := by
  -- the head of a chain is its first registration, whose number is below the count
  have hhead : s.gUserHandlers type = ((r.chains type).map Prod.fst).find? (· < r.count) := by
    rw [(h.chain type).eq_head?]
    cases hchain : r.chains type with
    | nil => rfl
    | cons x rest =>
      have hlt := (h.numbered type x (by simp [hchain])).1
      simp [hlt]
  have hcount : s.count = r.count := by rw [h.control]
  have hfollow := h.follow script hskip type r.count (Nat.le_refl r.count)
  rw [← hhead] at hfollow
  rw [Signals.handleChain, hcount, Option.map_eq_bind]
  exact hfollow.bind fun s r h ↦ h.callOriginal script type

/-- What a signal does to the chains it does to the registry. -/
theorem Refines.internalHandler (h : Refines s r) (script : Handler → List Call) {type : Nat}
    (htype : type < signalMaxType) (inCodeCache : Bool) :
    Simulates (s.internalHandler script type inCodeCache) (r.internalHandler script type inCodeCache) := by
  have hchain : ∀ t, t ≠ 0 → Simulates (s.handleChain script (fun _ ↦ false) t)
      (r.internalHandler script t inCodeCache) := by
    intro t ht
    rw [Registry.internalHandler, if_neg fun hzero ↦ ht hzero.1]
    exact h.handleChain script (fun _ _ _ ↦ rfl) t
  match type, htype with
  | 0, _ =>
    rw [Signals.internalHandler, Signals.segvHandler, Registry.internalHandler]
    cases inCodeCache with
    | false => exact h.callOriginal script 0
    | true => exact h.handleChain script (fun f _ hf ↦ decide_eq_false hf) 0
  | 1, _ => exact hchain 1 (by decide)
  | 2, _ => exact hchain 2 (by decide)
  | 3, _ => exact hchain 3 (by decide)
  | 4, _ => exact hchain 4 (by decide)

theorem Refines.step (h : Refines s r) (script : Handler → List Call) (e : Event) :
    Simulates (s.step script e) (r.step script e) := by
  unfold Signals.step Registry.step
  have hexited : s.exited = r.exited := by rw [h.control]
  have hinstalled : s.installed = r.installed := by rw [h.control]
  rw [hexited]
  split
  · exact h
  · cases e with
    | call c =>
      obtain ⟨s', hok, hs'⟩ := h.exec c
      dsimp only
      rw [hok]
      exact hs'
    | hostAction signum a =>
      dsimp only
      rw [h.control]
      exact h.withControl rfl
    | signal type inCodeCache =>
      dsimp only
      rw [hinstalled]
      split
      · next htype => exact h.internalHandler script htype.1 inCodeCache
      · exact h

/-- The run lemma. -/
theorem Refines.run (h : Refines s r) (script : Handler → List Call) (events : List Event) :
    Simulates (events.foldlM (Signals.step script) s) (events.foldlM (Registry.step script) r) := by
  induction events generalizing s r with
  | nil => exact h
  | cons e events ih =>
    rw [List.foldlM_cons, List.foldlM_cons]
    exact (h.step script e).bind fun s r h ↦ ih h

/-- A registration stays when its handler is not removed. -/
theorem Registry.mem_exec {r : Registry} {type id : Nat} {f : Handler} {c : Call}
    (hmem : (id, f) ∈ r.chains type) (hfini : c ≠ .fini) (hremove : ∀ t, c ≠ .unregister t f) :
    (id, f) ∈ (r.exec c).chains type := by
  cases c with
  | init => exact hmem
  | fini => exact absurd rfl hfini
  | register t handler calloc =>
    rw [Registry.exec]
    split
    · exact hmem
    · split
      · exact hmem
      · simp only [Registry.push, Registry.setChain]
        split
        · next ht => exact List.mem_cons_of_mem _ (ht ▸ hmem)
        · exact hmem
  | unregister t handler =>
    have hne : f ≠ handler := by
      rintro rfl
      exact hremove t rfl
    rw [Registry.exec]
    split
    · exact hmem
    · simp only [Registry.remove, Registry.setChain]
      split
      · next ht =>
        rw [List.mem_eraseP_of_neg (by simpa using hne)]
        exact ht ▸ hmem
      · exact hmem

/-- The script of a handler that neither removes the handler nor takes all chains away. -/
def SparesItself (script : Handler → List Call) : Prop :=
  ∀ f, ∀ c ∈ script f, c ≠ .fini ∧ ∀ type, c ≠ .unregister type f

theorem Registry.mem_invoke {script : Handler → List Call} (hscript : SparesItself script) {type id : Nat}
    {f : Handler} (hmem : (id, f) ∈ r.chains type) : (id, f) ∈ (r.invoke script f).chains type := by
  have hcalls := hscript f
  unfold Registry.invoke
  generalize script f = calls at hcalls
  induction calls generalizing r with
  | nil => exact hmem
  | cons c calls ih =>
    rw [List.forall_mem_cons] at hcalls
    exact ih (Registry.mem_exec hmem hcalls.1.1 hcalls.1.2) hcalls.2

theorem Registry.follow_isSome {script : Handler → List Call} (hscript : SparesItself script) (type id : Nat)
    (r : Registry) : (r.follow script type id).isSome := by
  induction id generalizing r with
  | zero => rfl
  | succ id ih =>
    rw [Registry.follow]
    cases hlookup : (r.chains type).lookup id with
    | none => exact ih r
    | some f =>
      obtain ⟨front, back, hsplit, -⟩ := List.lookup_eq_some_iff.mp hlookup
      have hmem : (id, f) ∈ r.chains type := by simp [hsplit]
      have hstill := Registry.mem_invoke (r := { r with toControl := r.enter (.user f) }) hscript hmem
      dsimp only
      rw [if_neg]
      · exact ih _
      · intro hgone
        have hne := List.lookup_eq_none_iff.mp hgone _ hstill
        simp at hne

theorem Registry.run_isSome {script : Handler → List Call} (hscript : SparesItself script)
    (events : List Event) (r : Registry) : (events.foldlM (Registry.step script) r).isSome := by
  induction events generalizing r with
  | nil => rfl
  | cons e events ih =>
    have hstep : (r.step script e).isSome := by
      unfold Registry.step
      split
      · rfl
      · cases e with
        | call c => rfl
        | hostAction signum a => rfl
        | signal type inCodeCache =>
          dsimp only
          split
          · unfold Registry.internalHandler
            split
            · rfl
            · rw [Option.isSome_map]
              exact Registry.follow_isSome hscript type r.count r
          · rfl
    obtain ⟨r', hr'⟩ := Option.isSome_iff_exists.mp hstep
    rw [List.foldlM_cons, hr']
    exact ih r'

end Nodes

/-! ## What the host installs -/

/-- A signal that the library has a handler for. -/
def Control.Taken (c : Control) (signum : Nat) : Prop :=
  c.gSignalInitialized = true ∧ signum ∈ signalNumbers

instance (c : Control) (signum : Nat) : Decidable (c.Taken signum) := inferInstanceAs (Decidable (_ ∧ _))

/-- The action of the host for a signal, which may be kept behind the one of the library. -/
def Control.behind (c : Control) (signum : Nat) : Action :=
  if c.Taken signum then c.gOriginalHandlers (signalNumbers.idxOf signum) else c.installed signum

section Host

variable {r r' : Registry}

theorem mem_signalNumbers {n : Nat} (h : n ∈ signalNumbers) : n = 11 ∨ n = 4 ∨ n = 7 ∨ n = 5 ∨ n = 8 := by
  simpa [signalNumbers] using h

theorem ne_signalNumber {n : Nat} (h : n ∉ signalNumbers) :
    n ≠ 11 ∧ n ≠ 4 ∧ n ≠ 7 ∧ n ≠ 5 ∧ n ≠ 8 := by
  simpa [signalNumbers] using h

theorem behind_init (c : Control) : c.signalHandlerInit.behind = c.behind := by
  unfold Control.signalHandlerInit
  split
  · rfl
  · next hinit =>
    funext n
    have hfree : c.behind n = c.installed n := if_neg fun htaken ↦ hinit htaken.1
    rw [hfree]
    by_cases hn : n ∈ signalNumbers
    · have htaken : ({ (List.range signalMaxType).foldl Control.install c with gSignalInitialized := true } :
          Control).Taken n := ⟨rfl, hn⟩
      rw [Control.behind, if_pos htaken]
      rcases mem_signalNumbers hn with rfl | rfl | rfl | rfl | rfl <;> rfl
    · have htaken : ¬ ({ (List.range signalMaxType).foldl Control.install c with gSignalInitialized := true } :
          Control).Taken n := fun htaken ↦ hn htaken.2
      obtain ⟨h11, h4, h7, h5, h8⟩ := ne_signalNumber hn
      rw [Control.behind, if_neg htaken]
      simp [signalMaxType, List.range, List.range.loop, Control.install, Control.sigaction, signalNumber,
        signalNumbers, h11, h4, h7, h5, h8]

/-- A turn of the loop of `signal_handler_fini`. -/
def Control.restore (c : Control) (type : Nat) : Control :=
  c.sigaction (signalNumber type) (c.gOriginalHandlers type)

theorem control_finiTypes (types : List Nat) (r : Registry) :
    (types.foldl Registry.finiType r).toControl = types.foldl Control.restore r.toControl := by
  induction types generalizing r with
  | nil => rfl
  | cons type types ih => exact ih (r.finiType type)

theorem behind_restores (c : Control) (hinit : c.gSignalInitialized = true) :
    ({ (List.range signalMaxType).foldl Control.restore c with gSignalInitialized := false } : Control).behind =
      c.behind := by
  funext n
  have hfree : ¬ ({ (List.range signalMaxType).foldl Control.restore c with gSignalInitialized := false } :
      Control).Taken n := fun htaken ↦ Bool.noConfusion htaken.1
  rw [Control.behind, if_neg hfree]
  by_cases hn : n ∈ signalNumbers
  · have htaken : c.Taken n := ⟨hinit, hn⟩
    rw [Control.behind, if_pos htaken]
    rcases mem_signalNumbers hn with rfl | rfl | rfl | rfl | rfl <;> rfl
  · have htaken : ¬ c.Taken n := fun htaken ↦ hn htaken.2
    obtain ⟨h11, h4, h7, h5, h8⟩ := ne_signalNumber hn
    rw [Control.behind, if_neg htaken]
    simp [signalMaxType, List.range, List.range.loop, Control.restore, Control.sigaction, signalNumber,
      signalNumbers, h11, h4, h7, h5, h8]

/-- No call of the library changes what the host has installed, or ends the process. -/
theorem behind_exec (r : Registry) (c : Call) :
    (r.exec c).behind = r.behind ∧ (r.exec c).exited = r.exited := by
  cases c with
  | init =>
    refine ⟨behind_init r.toControl, ?_⟩
    rw [Registry.exec]
    dsimp only
    unfold Control.signalHandlerInit
    split <;> rfl
  | fini =>
    rw [Registry.exec]
    split
    · exact ⟨rfl, rfl⟩
    · next hinit =>
      rw [Bool.not_eq_false] at hinit
      have hcontrol := control_finiTypes (List.range signalMaxType) r
      have hbehind := behind_restores r.toControl hinit
      rw [← hcontrol] at hbehind
      exact ⟨hbehind, (congrArg Control.exited hcontrol).trans rfl⟩
  | register type handler calloc =>
    rw [Registry.exec]
    split
    · exact ⟨rfl, rfl⟩
    · split <;> exact ⟨rfl, rfl⟩
  | unregister type handler =>
    rw [Registry.exec]
    split <;> exact ⟨rfl, rfl⟩

theorem behind_invoke (script : Handler → List Call) (f : Handler) (r : Registry) :
    (r.invoke script f).behind = r.behind ∧ (r.invoke script f).exited = r.exited := by
  unfold Registry.invoke
  induction script f generalizing r with
  | nil => exact ⟨rfl, rfl⟩
  | cons c calls ih =>
    obtain ⟨hbehind, hexited⟩ := behind_exec r c
    rw [List.foldl_cons, (ih (r.exec c)).1, (ih (r.exec c)).2]
    exact ⟨hbehind, hexited⟩

theorem behind_follow {script : Handler → List Call} {type id : Nat}
    (h : Registry.follow script type id r = some r') : r'.behind = r.behind ∧ r'.exited = r.exited := by
  induction id generalizing r with
  | zero => rw [← Option.some.inj h]; exact ⟨rfl, rfl⟩
  | succ id ih =>
    rw [Registry.follow] at h
    cases hlookup : (r.chains type).lookup id with
    | none =>
      rw [hlookup] at h
      exact ih h
    | some f =>
      rw [hlookup] at h
      dsimp only at h
      split at h
      · cases h
      · obtain ⟨hbehind, hexited⟩ := behind_invoke script f { r with toControl := r.enter (.user f) }
        obtain ⟨hrest, hrest'⟩ := ih h
        exact ⟨hrest.trans hbehind, hrest'.trans hexited⟩

theorem behind_callOriginal (script : Handler → List Call) (type : Nat)
    (h : (r.callOriginal script type).exited = false) :
    (r.callOriginal script type).behind = r.behind ∧ r.exited = false := by
  unfold Registry.callOriginal at h ⊢
  split at h
  · cases h
  · next f hf =>
    obtain ⟨hbehind, hexited⟩ :=
      behind_invoke script f { r with toControl := r.enter (.original (.host (.handler f))) }
    exact ⟨hbehind, hexited.symm.trans h⟩
  · cases h

/-- What the host installs that is not lost: an action for a signal that is not taken. -/
def Event.keeps (e : Event) (c : Control) : Option (Nat × HostAction) :=
  match e with
  | .hostAction signum a => if c.Taken signum then none else some (signum, a)
  | _ => none

/-- The actions with another one for a signal. -/
def withAction (installed : Nat → Action) (x : Nat × HostAction) (signum : Nat) : Action :=
  if signum = x.1 then .host x.2 else installed signum

theorem behind_hostAction (c : Control) (signum : Nat) (a : HostAction) :
    (c.sigaction signum (.host a)).behind =
      ((Event.hostAction signum a).keeps c).toList.foldl withAction c.behind := by
  funext n
  have hnew : (c.sigaction signum (.host a)).behind n =
      if c.Taken n then c.gOriginalHandlers (signalNumbers.idxOf n)
      else if n = signum then .host a else c.installed n := rfl
  have hold : c.behind n =
      if c.Taken n then c.gOriginalHandlers (signalNumbers.idxOf n) else c.installed n := rfl
  have hkeeps : (Event.hostAction signum a).keeps c = if c.Taken signum then none else some (signum, a) := rfl
  rw [hkeeps, hnew]
  by_cases hsignum : c.Taken signum
  · rw [if_pos hsignum, Option.toList_none, List.foldl_nil, hold]
    by_cases hn : c.Taken n
    · rw [if_pos hn, if_pos hn]
    · have hne : n ≠ signum := by
        rintro rfl
        exact hn hsignum
      rw [if_neg hn, if_neg hn, if_neg hne]
  · rw [if_neg hsignum, Option.toList_some, List.foldl_cons, List.foldl_nil, withAction, hold]
    by_cases hn : c.Taken n
    · have hne : n ≠ signum := by
        rintro rfl
        exact hsignum hn
      rw [if_pos hn, if_pos hn, if_neg hne]
    · rw [if_neg hn, if_neg hn]

/-- A step of a process that goes on. -/
theorem behind_step {script : Handler → List Call} {e : Event} (h : r.step script e = some r')
    (halive : r'.exited = false) :
    r'.behind = (e.keeps r.toControl).toList.foldl withAction r.behind ∧ r.exited = false := by
  unfold Registry.step at h
  split at h
  · next hexited =>
    rw [← Option.some.inj h, hexited] at halive
    cases halive
  · next hexited =>
    rw [Bool.not_eq_true] at hexited
    refine ⟨?_, hexited⟩
    cases e with
    | call c =>
      rw [← Option.some.inj h]
      exact (behind_exec r c).1
    | hostAction signum a =>
      rw [← Option.some.inj h]
      exact behind_hostAction r.toControl signum a
    | signal type inCodeCache =>
      dsimp only at h
      split at h
      · unfold Registry.internalHandler at h
        split at h
        · rw [← Option.some.inj h] at halive ⊢
          exact (behind_callOriginal script type halive).1
        · obtain ⟨r₁, hfollow, hcall⟩ := Option.map_eq_some_iff.mp h
          rw [← hcall] at halive ⊢
          exact (behind_callOriginal script type halive).1.trans (behind_follow hfollow).1
      · rw [← Option.some.inj h]
        rfl

end Host

/-! ## Runs -/

section Runs

/-- No handler of the library is installed, and none is registered. -/
def Control.start (host : Nat → HostAction) : Control where
  gSignalInitialized := false
  gOriginalHandlers _ := .host .dfl
  installed n := .host (host n)
  count := 0
  log := []
  exited := false

def Signals.start (host : Nat → HostAction) : Signals :=
  { Control.start host with heap := ∅, gUserHandlers := fun _ ↦ none }

def Registry.start (host : Nat → HostAction) : Registry := { Control.start host with chains := fun _ ↦ [] }

theorem start_refines (host : Nat → HostAction) : Refines (Signals.start host) (Registry.start host) where
  control := rfl
  chain _ := rfl
  nodes _ _ hx := by cases hx
  falling _ := List.Pairwise.nil
  numbered _ _ hx := by cases hx
  apart _ _ _ hx := by cases hx
  allocated p hp := by simp [Signals.start] at hp

/-- Handler 2 removes handler 1. -/
private def removesOther (f : Handler) : List Call := if f = 2 then [.unregister 1 1] else []

/-- The actions of the host in a run that are not lost. -/
def keptActions (script : Handler → List Call) : List Event → Signals → List (Nat × HostAction)
  | [], _ => []
  | e :: events, s =>
    (e.keeps s.toControl).toList ++
      match s.step script e with
      | .ok s' => keptActions script events s'
      | .error _ => []

theorem behind_run {script : Handler → List Call} (events : List Event) {s s' : Signals} {r : Registry}
    (h : Refines s r) (hrun : events.foldlM (Signals.step script) s = .ok s') (halive : s'.exited = false) :
    s'.behind = (keptActions script events s).foldl withAction s.behind ∧ s.exited = false := by
  induction events generalizing s r with
  | nil =>
    obtain rfl : s = s' := Except.ok.inj hrun
    exact ⟨rfl, halive⟩
  | cons e events ih =>
    rw [List.foldlM_cons] at hrun
    have hsim := h.step script e
    cases hstep : s.step script e with
    | error fault =>
      rw [hstep] at hrun
      cases hrun
    | ok s₁ =>
      rw [hstep] at hrun hsim
      cases hstep' : r.step script e with
      | none =>
        rw [hstep'] at hsim
        cases hsim
      | some r₁ =>
        rw [hstep'] at hsim
        have h₁ : Refines s₁ r₁ := hsim
        obtain ⟨hrest, halive₁⟩ := ih h₁ hrun
        rw [h₁.control] at hrest halive₁
        obtain ⟨hone, halive₀⟩ := behind_step hstep' halive₁
        rw [← h.control] at hone halive₀
        refine ⟨?_, halive₀⟩
        rw [keptActions, hstep, List.foldl_append, ← hone]
        exact hrest

end Runs

end Arm2x86.Signal
