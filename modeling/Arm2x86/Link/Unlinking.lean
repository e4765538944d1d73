import Arm2x86.Tcache.Invariant
import Arm2x86.Tcache.PatchFrame
import Arm2x86.Translate.Jumps

/-!
# Unlinking evicted blocks

Block translations and cache insertions on one code memory. `emit_direct_jump_or_call` registers a
jump under the host address it goes to (`modules/arm2x86_translate64.c:209`), an eviction looks for
jumps under the guest address of the evicted block (`modules/arm2x86_tcache.c:285`), so the patch
finds nothing. Evicted code has no jumps into it from outside as long as every block jumps within
its own output and every cached range of code is made of whole blocks.
-/

/-!
## The cache with its list of jumps

One translation cache, the global list of direct jumps and the memory that holds the translated
code. An insertion runs the patches of its evictions on the list and the memory.
-/

namespace Arm2x86.Link

open Tcache

/-- The cache, the global list of jumps and the memory that holds the translated code. -/
structure System where
  cache : Cache
  jumpTargets : List JumpTarget
  mem : Memory

/-- A system with a new cache and no jumps, over any memory. -/
def create (size buckets : Nat) (mem : Memory) : System := ⟨tcacheCreate size buckets, [], mem⟩

namespace System

variable (dispatcherLookup : Addr)

/-- The system behind a change of the cache and the patches among its effects. Released code is
not written to, so it stays as it is in memory. -/
def patched (s : System) (cache : Cache) (fx : List Effect) : System :=
  let (jumpTargets, mem) := patchEvicted dispatcherLookup fx (s.jumpTargets, s.mem)
  { cache, jumpTargets, mem }

/-- `arm2x86_tcache_insert_ex`. -/
def insertEx (s : System) (armAddr x86Code : Addr) (x86Size : Nat) (owned mmap : Bool)
    (alloc : Heap.Allocator Entry) : Option System := do
  let (_, cache, fx) ← tcacheInsertEx s.cache armAddr x86Code x86Size owned mmap alloc
  return s.patched dispatcherLookup cache fx

end System

end Arm2x86.Link

namespace Arm2x86.Link

open Tcache Translate

inductive Op where
  /-- `arm2x86_convert_block` into a buffer -/
  | translate (env : Env) (stack : Stack) (blk : Block) (x86Base : Addr)
  /-- `arm2x86_tcache_insert_ex` -/
  | insertEx (armAddr x86Code : Addr) (x86Size : Nat) (owned mmap : Bool)
      (alloc : Heap.Allocator Entry)

/-- The output of a translation. -/
def outputRegion (env : Env) (stack : Stack) (blk : Block) (x86Base : Addr) : Region :=
  ⟨x86Base, (convertBlockBytes env stack blk x86Base).length⟩

variable (dispatcherLookup : Addr)

/-- One call. -/
def Op.exec : Op → System → Option System
  | .translate env stack blk x86Base, s =>
    some { s with
      jumpTargets := (convertBlock env stack blk x86Base).jumpTargets ++ s.jumpTargets
      mem := s.mem.write x86Base (convertBlockBytes env stack blk x86Base) }
  | .insertEx armAddr x86Code x86Size owned mmap alloc, s =>
    s.insertEx dispatcherLookup armAddr x86Code x86Size owned mmap alloc

/-- The calls of a run, each with the state before and after it. -/
def stepsOf : List Op → System → List (Op × System × System)
  | [], _ => []
  | op :: ops, s =>
    match op.exec dispatcherLookup s with
    | none => []
    | some s' => (op, s, s') :: stepsOf ops s'

/-- Where the jump or call at an address transfers control: the direct forms, and the indirect
ones through a word in memory. -/
def jumpDest (mem : Memory) (p : Addr) : Option Addr :=
  if mem p = 0xe8 ∨ mem p = 0xe9 then
    some (p + 5 + (readLe32 mem (p + 1)).signExtend 64)
  else if mem p = 0xff ∧ (mem (p + 1) = 0x15 ∨ mem (p + 1) = 0x25) then
    let slot := p + 6 + (readLe32 mem (p + 2)).signExtend 64
    some (readLe32 mem (slot + 4) ++ readLe32 mem slot)
  else none

/-- An insertion evicts an entry: its eviction loop leaves the entry's pointer unallocated. -/
def Evicts (c : Cache) (x86Code : Addr) (x86Size : Nat) (p : Ptr) : Prop :=
  x86Code ≠ 0#64 ∧ c.heap[p]?.isSome ∧
    ∃ c' fx, evictLoop c.bucketCount x86Size (c.heap.size + 1) c = some (c', fx) ∧
      c'.heap[p]? = none

/-- Behind an insertion no registered jump outside the code of an entry it evicted leads into
that code. -/
def Op.Unlinks (op : Op) (s s' : System) : Prop :=
  match op with
  | .translate .. => True
  | .insertEx _ x86Code x86Size _ _ _ =>
    ∀ (p : Ptr) (e : Entry), Evicts s.cache x86Code x86Size p → s.cache.heap[p]? = some e →
      ∀ jt ∈ s.jumpTargets, jt.jmpInstruction ∉ e.code →
        ∀ dest, jumpDest s'.mem jt.jmpInstruction = some dest → dest ∉ e.code

/-- A translation stays within itself: nothing left over in the map leads its branches out of its
output, which a 32-bit displacement spans, and the output overwrites no registered jump, lies in
or apart from the code of every entry and holds no guest address of one. -/
structure StaysWithin (s : System) (stack : Stack) (blk : Block) (out : Region) : Prop where
  spans : out.size < 2 ^ 31
  within : ∀ p, Leftover stack blk p → p ∈ out
  apart : ∀ jt ∈ s.jumpTargets, ∀ i < 5, jt.jmpInstruction + BitVec.ofNat 64 i ∉ out
  whole : ∀ (p : Ptr) (e : Entry), s.cache.heap[p]? = some e →
    (∀ q ∈ out, q ∈ e.code) ∨ ∀ q ∈ out, q ∉ e.code
  foreign : ∀ (p : Ptr) (e : Entry), s.cache.heap[p]? = some e → e.armAddr ∉ out

/-- The inserted code encloses the jumps into it, and no jump is registered under its guest
address. -/
structure Encloses (s : System) (armAddr : Addr) (code : Region) : Prop where
  closed : ∀ jt ∈ s.jumpTargets, jt.targetArmAddr ∈ code → jt.jmpInstruction ∈ code
  foreign : ∀ jt ∈ s.jumpTargets, jt.targetArmAddr ≠ armAddr

instance (s : System) (armAddr : Addr) (code : Region) : Decidable (Encloses s armAddr code) :=
  decidable_of_iff
    ((∀ jt ∈ s.jumpTargets, jt.targetArmAddr ∈ code → jt.jmpInstruction ∈ code) ∧
      ∀ jt ∈ s.jumpTargets, jt.targetArmAddr ≠ armAddr)
    ⟨fun h ↦ ⟨h.1, h.2⟩, fun h ↦ ⟨h.closed, h.foreign⟩⟩

/-- The condition on a call and the state before it. -/
def Op.Contained (op : Op) (s : System) : Prop :=
  match op with
  | .translate env stack blk x86Base =>
    StaysWithin s stack blk (outputRegion env stack blk x86Base)
  | .insertEx armAddr x86Code x86Size _ _ _ => Encloses s armAddr ⟨x86Code, x86Size⟩

section Jump

variable {mem : Memory} {jt : JumpTarget}

/-- A displacement between two offsets below two gibibytes survives its truncation. -/
private theorem signExtend_setWidth_sub {base : BitVec 64} {m n : Nat} (hm : m < 2 ^ 31)
    (hn : n < 2 ^ 31) :
    (((base + BitVec.ofNat 64 m) - (base + BitVec.ofNat 64 n)).setWidth 32).signExtend 64 =
      (base + BitVec.ofNat 64 m) - (base + BitVec.ofNat 64 n) := by
  have hsub : (base + BitVec.ofNat 64 m) - (base + BitVec.ofNat 64 n) =
      BitVec.ofInt 64 ((m : Int) - n) := by
    apply BitVec.eq_of_toNat_eq
    rw [BitVec.toNat_ofInt]
    simp only [BitVec.toNat_sub, BitVec.toNat_add, BitVec.toNat_ofNat]
    omega
  have hlow : (BitVec.ofInt 64 ((m : Int) - n)).setWidth 32 = BitVec.ofInt 32 ((m : Int) - n) := by
    apply BitVec.eq_of_toNat_eq
    rw [BitVec.toNat_setWidth, BitVec.toNat_ofInt, BitVec.toNat_ofInt]
    omega
  rw [hsub, hlow]
  apply BitVec.eq_of_toInt_eq
  rw [BitVec.toInt_signExtend, BitVec.toInt_ofInt, BitVec.toInt_ofInt]
  have hword : ((m : Int) - n).bmod (2 ^ 32) = m - n := by
    apply Int.bmod_eq_of_le <;> omega
  have hquad : ((m : Int) - n).bmod (2 ^ 64) = m - n := by
    apply Int.bmod_eq_of_le <;> omega
  show (((m : Int) - n).bmod (2 ^ 32)).bmod (2 ^ 32) = _
  rw [hword, hword, hquad]

/-- The bytes of a registered jump, read back from memory, lead to its target. -/
theorem jumpDest_of_read (hread : mem.read jt.jmpInstruction 5 = jumpCode jt)
    (hreach : ((jt.targetArmAddr - (jt.jmpInstruction + 5)).setWidth 32).signExtend 64 =
      jt.targetArmAddr - (jt.jmpInstruction + 5)) :
    jumpDest mem jt.jmpInstruction = some jt.targetArmAddr := by
  simp only [Memory.read, jumpCode, X86.imm32, List.cons.injEq, and_true] at hread
  obtain ⟨hop, h0, h1, h2, h3⟩ := hread
  have hrel : readLe32 mem (jt.jmpInstruction + 1) =
      (jt.targetArmAddr - (jt.jmpInstruction + 5)).setWidth 32 := by
    simp only [BitVec.add_assoc, BitVec.reduceAdd] at h1 h2 h3
    simp only [readLe32, BitVec.add_assoc, BitVec.reduceAdd, BitVec.ofNat_eq_ofNat]
    rw [h0, h1, h2, h3]
    exact X86.append_imm32 _
  have hdirect : mem jt.jmpInstruction = 0xe8 ∨ mem jt.jmpInstruction = 0xe9 := by
    rw [hop]
    cases jt.isCall
    · exact .inr rfl
    · exact .inl rfl
  rw [jumpDest, if_pos hdirect, hrel, hreach, BitVec.add_comm, BitVec.sub_add_cancel]

end Jump

/-- What contained calls keep: every registered jump stands in memory, within the code of every
entry it leads into, and is not registered under the guest address of one. -/
structure Linked (s : System) : Prop where
  intact : ∀ jt ∈ s.jumpTargets, s.mem.read jt.jmpInstruction 5 = jumpCode jt
  reach : ∀ jt ∈ s.jumpTargets,
    ((jt.targetArmAddr - (jt.jmpInstruction + 5)).setWidth 32).signExtend 64 =
      jt.targetArmAddr - (jt.jmpInstruction + 5)
  closed : ∀ jt ∈ s.jumpTargets, ∀ (p : Ptr) (e : Entry), s.cache.heap[p]? = some e →
    jt.targetArmAddr ∈ e.code → jt.jmpInstruction ∈ e.code
  foreign : ∀ jt ∈ s.jumpTargets, ∀ (p : Ptr) (e : Entry), s.cache.heap[p]? = some e →
    jt.targetArmAddr ≠ e.armAddr

section Step

variable (dispatcherLookup : Addr) {s : System} {lru chained : List Ptr}

/-- The jumps of a translation that stays within itself. -/
theorem StaysWithin.jump {env : Env} {stack : Stack} {blk : Block} {x86Base : Addr}
    (h : StaysWithin s stack blk (outputRegion env stack blk x86Base)) {jt : JumpTarget}
    (hjt : jt ∈ (convertBlock env stack blk x86Base).jumpTargets) :
    (s.mem.write x86Base (convertBlockBytes env stack blk x86Base)).read jt.jmpInstruction 5 =
        jumpCode jt ∧
      ((jt.targetArmAddr - (jt.jmpInstruction + 5)).setWidth 32).signExtend 64 =
        jt.targetArmAddr - (jt.jmpInstruction + 5) ∧
      jt.targetArmAddr ∈ outputRegion env stack blk x86Base ∧
      jt.jmpInstruction ∈ outputRegion env stack blk x86Base := by
  obtain ⟨before, ⟨hloc, xs, ys, hout, hxs⟩, htarget⟩ :=
    (convertBlock_tracked env stack blk x86Base).jumps jt hjt
  change convertBlockBytes env stack blk x86Base = _ at hout
  have hfive : (jumpCode jt).length = 5 := rfl
  have hsize : before + 5 ≤ (convertBlockBytes env stack blk x86Base).length := by
    rw [hout, List.length_append, List.length_append, hfive]
    omega
  have hspan : (convertBlockBytes env stack blk x86Base).length < 2 ^ 31 := h.spans
  -- the target as an offset into the output
  obtain ⟨n, hn, hoff⟩ : ∃ n < (convertBlockBytes env stack blk x86Base).length,
      jt.targetArmAddr = x86Base + BitVec.ofNat 64 n := by
    rcases htarget with ⟨n, hn, hoff⟩ | hleft
    · exact ⟨n, by omega, hoff⟩
    · refine ⟨(jt.targetArmAddr - x86Base).toNat, h.within _ hleft, ?_⟩
      rw [BitVec.ofNat_toNat, BitVec.setWidth_eq, BitVec.add_comm, BitVec.sub_add_cancel]
  refine ⟨?_, ?_, ?_, ?_⟩
  · rw [hout, hloc, ← hxs]
    apply Memory.read_write_middle
    rw [List.length_append, hxs, hfive]
    omega
  · have hnext : x86Base + BitVec.ofNat 64 before + 5 = x86Base + BitVec.ofNat 64 (before + 5) := by
      rw [BitVec.ofNat_add, BitVec.add_assoc]
      rfl
    rw [hoff, hloc, hnext]
    exact signExtend_setWidth_sub (by omega) (by omega)
  · rw [hoff]
    exact Region.start_add_mem hn
  · rw [hloc]
    exact Region.start_add_mem (by omega)

theorem Linked.translate {env : Env} {stack : Stack} {blk : Block} {x86Base : Addr}
    (hl : Linked s) (h : StaysWithin s stack blk (outputRegion env stack blk x86Base)) :
    Linked { s with
      jumpTargets := (convertBlock env stack blk x86Base).jumpTargets ++ s.jumpTargets
      mem := s.mem.write x86Base (convertBlockBytes env stack blk x86Base) } where
  intact jt hjt := by
    rcases List.mem_append.mp hjt with hnew | hold
    · exact (h.jump hnew).1
    · rw [Memory.read_write_of_notMem (h.apart jt hold)]
      exact hl.intact jt hold
  reach jt hjt := by
    rcases List.mem_append.mp hjt with hnew | hold
    · exact (h.jump hnew).2.1
    · exact hl.reach jt hold
  closed jt hjt p e he := by
    rcases List.mem_append.mp hjt with hnew | hold
    · obtain ⟨-, -, htarget, hjmp⟩ := h.jump hnew
      intro hin
      rcases h.whole p e he with hsub | hapart
      · exact hsub _ hjmp
      · exact absurd hin (hapart _ htarget)
    · exact hl.closed jt hold p e he
  foreign jt hjt p e he := by
    rcases List.mem_append.mp hjt with hnew | hold
    · obtain ⟨-, -, htarget, -⟩ := h.jump hnew
      intro heq
      rw [heq] at htarget
      exact h.foreign p e he htarget
    · exact hl.foreign jt hold p e he

/-- An insertion into a linked system patches nothing. -/
theorem Linked.patchEvicted_eq (hl : Linked s) {fx : List Effect}
    (hfx : ∀ a ∈ evicted fx, ∃ (p : Ptr) (e : Entry), s.cache.heap[p]? = some e ∧ e.armAddr = a) :
    patchEvicted dispatcherLookup fx (s.jumpTargets, s.mem) = (s.jumpTargets, s.mem) := by
  apply patchEvicted_of_absent
  intro a ha jt hjt
  have hmem : a ∈ evicted fx := List.mem_filterMap.mpr ⟨_, ha, rfl⟩
  obtain ⟨p, e, he, rfl⟩ := hfx a hmem
  exact hl.foreign jt hjt p e he

/-- Every call returns. -/
theorem Op.exec_total (hrep : Represents s.cache lru chained) (op : Op) :
    ∃ s' lru' chained', op.exec dispatcherLookup s = some s' ∧
      Represents s'.cache lru' chained' := by
  cases op with
  | translate env stack blk x86Base => exact ⟨_, lru, chained, rfl, hrep⟩
  | insertEx armAddr x86Code x86Size owned mmap alloc =>
    obtain ⟨st, c', fx, lru', chained', hrun, hrep', -⟩ :=
      tcacheInsertEx_entries hrep armAddr x86Code x86Size owned mmap alloc
    refine ⟨s.patched dispatcherLookup c' fx, lru', chained', ?_, hrep'⟩
    simp only [Op.exec, System.insertEx, hrun, Option.bind_eq_bind, Option.bind_some]
    rfl

/-- One contained call on a linked system. -/
theorem Op.exec_linked (hrep : Represents s.cache lru chained) (hl : Linked s) {op : Op}
    (hop : op.Contained s) {s' : System} (hexec : op.exec dispatcherLookup s = some s') :
    Linked s' ∧ op.Unlinks s s' := by
  cases op with
  | translate env stack blk x86Base =>
    obtain rfl := Option.some.inj hexec
    exact ⟨hl.translate hop, trivial⟩
  | insertEx armAddr x86Code x86Size owned mmap alloc =>
    obtain ⟨st, c', fx, -, -, hrun, -, hfx, hentries⟩ :=
      tcacheInsertEx_entries hrep armAddr x86Code x86Size owned mmap alloc
    have hpatch := hl.patchEvicted_eq dispatcherLookup hfx
    simp only [Op.exec, System.insertEx, hrun, Option.bind_eq_bind, Option.bind_some,
      System.patched, hpatch] at hexec
    obtain rfl := Option.some.inj hexec
    constructor
    · have hinherit : ∀ (q : Ptr) (e' : Entry), c'.heap[q]? = some e' → ∀ jt ∈ s.jumpTargets,
          (jt.targetArmAddr ∈ e'.code → jt.jmpInstruction ∈ e'.code) ∧
            jt.targetArmAddr ≠ e'.armAddr := by
        intro q e' he' jt hjt
        rcases hentries q e' he' with hnew | ⟨p, e, he, hitem⟩
        · obtain ⟨rfl, rfl, rfl⟩ := Item.mk.inj hnew
          exact ⟨hop.closed jt hjt, hop.foreign jt hjt⟩
        · obtain ⟨haddr, hcode, hsize⟩ := Item.mk.inj hitem
          rw [Entry.code, ← hcode, ← hsize, ← haddr]
          exact ⟨hl.closed jt hjt p e he, hl.foreign jt hjt p e he⟩
      exact ⟨hl.intact, hl.reach, fun jt hjt q e' he' ↦ (hinherit q e' he' jt hjt).1,
        fun jt hjt q e' he' ↦ (hinherit q e' he' jt hjt).2⟩
    · intro p e _ he jt hjt hout dest hdest hin
      rw [jumpDest_of_read (hl.intact jt hjt) (hl.reach jt hjt)] at hdest
      obtain rfl := Option.some.inj hdest
      exact hout (hl.closed jt hjt p e he hin)

theorem length_stepsOf (ops : List Op) (hrep : Represents s.cache lru chained) :
    (stepsOf dispatcherLookup ops s).length = ops.length := by
  induction ops generalizing s lru chained with
  | nil => rfl
  | cons op ops ih =>
    obtain ⟨s', lru', chained', hexec, hrep'⟩ := op.exec_total dispatcherLookup hrep
    simp only [stepsOf, hexec, List.length_cons, ih hrep']

/-- Along a run of contained calls every insertion unlinks what it evicts. -/
theorem stepsOf_unlinks (ops : List Op) (hrep : Represents s.cache lru chained) (hl : Linked s)
    (hops : ∀ step ∈ stepsOf dispatcherLookup ops s, step.1.Contained step.2.1) :
    ∀ step ∈ stepsOf dispatcherLookup ops s, step.1.Unlinks step.2.1 step.2.2 := by
  induction ops generalizing s lru chained with
  | nil => exact fun _ hstep ↦ nomatch hstep
  | cons op ops ih =>
    obtain ⟨s', lru', chained', hexec, hrep'⟩ := op.exec_total dispatcherLookup hrep
    simp only [stepsOf, hexec, List.forall_mem_cons] at hops ⊢
    obtain ⟨hl', hunlink⟩ := Op.exec_linked dispatcherLookup hrep hl hops.1 hexec
    exact ⟨hunlink, ih hrep' hl' hops.2⟩

end Step

/-- The test of an insertion's condition. -/
private def Op.encloses : Op → System → Bool
  | .translate .., _ => false
  | .insertEx armAddr x86Code x86Size _ _ _, s => decide (Encloses s armAddr ⟨x86Code, x86Size⟩)

private theorem contained_of_all_encloses {steps : List (Op × System × System)}
    (h : steps.all (fun step ↦ step.1.encloses step.2.1) = true) :
    ∀ step ∈ steps, step.1.Contained step.2.1 := by
  intro step hstep
  have henclosed := List.all_eq_true.mp h step hstep
  obtain ⟨op, s, s'⟩ := step
  cases op with
  | translate env stack blk x86Base => cases henclosed
  | insertEx armAddr x86Code x86Size owned mmap alloc =>
    show Encloses s armAddr ⟨x86Code, x86Size⟩
    exact of_decide_eq_true henclosed

/-- The test for an insertion that evicts an entry and leaves a jump into it. -/
private def Op.leavesJump (p : Ptr) (s s' : System) : Op → Bool
  | .translate .. => false
  | .insertEx _ x86Code x86Size _ _ _ =>
    match s.cache.heap[p]?,
      evictLoop s.cache.bucketCount x86Size (s.cache.heap.size + 1) s.cache with
    | some e, some (c', _) =>
      x86Code != 0 && c'.heap[p]? == none && s.jumpTargets.any fun jt ↦
        decide (jt.jmpInstruction ∉ e.code) &&
          (jumpDest s'.mem jt.jmpInstruction).any fun dest ↦ decide (dest ∈ e.code)
    | _, _ => false

private theorem not_unlinks_of_leavesJump {p : Ptr} {s s' : System} {op : Op}
    (h : op.leavesJump p s s' = true) : ¬ op.Unlinks s s' := by
  intro hun
  cases op with
  | translate env stack blk x86Base => cases h
  | insertEx armAddr x86Code x86Size owned mmap alloc =>
    simp only [Op.leavesJump] at h
    split at h
    · next e c' fx he hloop =>
      simp only [Bool.and_eq_true, bne_iff_ne, beq_iff_eq, List.any_eq_true, Option.any_eq_true,
        decide_eq_true_eq] at h
      obtain ⟨⟨hcode, hgone⟩, jt, hjt, hout, dest, hdest, hin⟩ := h
      exact hun p e ⟨hcode, by simp [he], c', fx, hloop, hgone⟩ he jt hjt hout dest hdest hin
    · cases h

/-- In a run whose calls are all contained, no insertion leaves a registered jump into the code it
evicted. -/
theorem link_run_unlinks (dispatcherLookup : Addr) (size buckets : Nat) (mem : Memory)
    (ops : List Op)
    (hops : ∀ step ∈ stepsOf dispatcherLookup ops (create size buckets mem),
      step.1.Contained step.2.1) :
    (stepsOf dispatcherLookup ops (create size buckets mem)).length = ops.length ∧
      ∀ step ∈ stepsOf dispatcherLookup ops (create size buckets mem),
        step.1.Unlinks step.2.1 step.2.2 := by
  have hrep := tcacheCreate_represents size buckets
  have hl : Linked (create size buckets mem) := ⟨nofun, nofun, nofun, nofun⟩
  exact ⟨length_stepsOf dispatcherLookup ops hrep, stepsOf_unlinks dispatcherLookup ops hrep hl hops⟩

/-- A block that branches to itself is cached and then evicted. -/
theorem link_run_unlinks_loop :
    (stepsOf 0x700000 [.translate .default .zero (.ofWords 0x1000 [0x14000000]) 0x500000,
        .insertEx 0x1000 0x500000 90 true true (.at Entry 1),
        .insertEx 0x2000 0x600000 90 true true (.at Entry 2)] (create 100 1 fun _ ↦ 0)).length = 3 ∧
    ∀ step ∈ stepsOf 0x700000 [.translate .default .zero (.ofWords 0x1000 [0x14000000]) 0x500000,
        .insertEx 0x1000 0x500000 90 true true (.at Entry 1),
        .insertEx 0x2000 0x600000 90 true true (.at Entry 2)] (create 100 1 fun _ ↦ 0),
      step.1.Unlinks step.2.1 step.2.2 := by
  apply link_run_unlinks 0x700000 100 1 (fun _ ↦ 0)
  rw [stepsOf]
  simp only [Op.exec]
  rw [List.forall_mem_cons]
  constructor
  · refine ⟨by decide +kernel, ?_, nofun, ?_, ?_⟩
    · rintro p ⟨k, i, off, -, -, hi, -⟩
      exact absurd hi (by simp [Stack.zero])
    · intro p e he
      simp [create, tcacheCreate] at he
    · intro p e he
      simp [create, tcacheCreate] at he
  · exact contained_of_all_encloses (by decide +kernel)

/-- The second block branches to the first, which the map left over from its translation still
names; the first is evicted, and the jump stays. -/
theorem link_run_not_unlinks :
    ¬ ∀ (dispatcherLookup : Addr) (size buckets : Nat) (mem : Memory) (ops : List Op),
      ∀ step ∈ stepsOf dispatcherLookup ops (create size buckets mem),
        step.1.Unlinks step.2.1 step.2.2 := by
  intro hall
  let first : Block := .ofWords 0x1000 [0xd65f03c0]
  let second : Block := .ofWords 0x2000 [0x17fffc00]
  let t := convertBlock .default .zero first 0x500000
  let leftover : Stack := ⟨t.pcMap, t.pcMapCount, fun _ ↦ {}⟩
  have hrun := hall 0x700000 100 1 (fun _ ↦ 0) [.translate .default .zero first 0x500000,
    .insertEx 0x1000 0x500000 85 true true (.at Entry 1),
    .translate .default leftover second 0x600000,
    .insertEx 0x2000 0x600000 90 true true (.at Entry 2)]
  have hlast : (stepsOf 0x700000 [.translate .default .zero first 0x500000,
    .insertEx 0x1000 0x500000 85 true true (.at Entry 1),
    .translate .default leftover second 0x600000,
    .insertEx 0x2000 0x600000 90 true true (.at Entry 2)] (create 100 1 fun _ ↦ 0)).any
      (fun step ↦ step.1.leavesJump 1 step.2.1 step.2.2) = true := by
    decide +kernel
  obtain ⟨step, hstep, hleft⟩ := List.any_eq_true.mp hlast
  exact not_unlinks_of_leavesJump hleft (hrun step hstep)

end Arm2x86.Link
