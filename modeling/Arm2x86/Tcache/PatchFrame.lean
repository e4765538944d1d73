import Arm2x86.Base.Memory
import Arm2x86.Tcache.Model
import Arm2x86.X86.Emit

/-!
# What the patch of an evicted block overwrites

The patch puts fourteen bytes over each jump of five. The other nine go over whatever follows the
jump, so nothing else changes exactly when these nine bytes are there already, or are within the
jumps that are patched.
-/

/-!
## Direct jumps between translated blocks

`modules/arm2x86_tcache.c:6`: the global list of the direct jumps and calls in translated code,
and the two functions that overwrite those to a given block. The list is kept newest first; the
mutex around every function is left out.
-/

namespace Arm2x86.Tcache

open X86

/-- `jump_target_t`. -/
structure JumpTarget where
  targetArmAddr : Addr
  jmpInstruction : Addr
  isCall : Bool
deriving DecidableEq, Repr

/-- `tcache_register_jump_target`, `modules/arm2x86_tcache.c:18`, when its allocation succeeds. -/
def tcacheRegisterJumpTarget (jumpTargets : List JumpTarget) (targetArmAddr jmpInstruction : Addr)
    (isCall : Bool) : List JumpTarget :=
  ⟨targetArmAddr, jmpInstruction, isCall⟩ :: jumpTargets

/-- The walk `while (jt)` of both functions: every jump to an address is overwritten and taken
off the list. -/
def rewriteJumps (code : JumpTarget → List Byte) (armAddr : Addr) :
    List JumpTarget → Memory → List JumpTarget × Memory
  | [], mem => ([], mem)
  | jt :: rest, mem =>
    if jt.targetArmAddr = armAddr then
      rewriteJumps code armAddr rest (mem.write jt.jmpInstruction (code jt))
    else
      let (kept, mem) := rewriteJumps code armAddr rest mem
      (jt :: kept, mem)

/-- `call [rip+0]` or `jmp [rip+0]` and the address of `dispatcher_lookup`: fourteen bytes over
the five of a direct jump. -/
def dispatchCode (dispatcherLookup : Addr) (jt : JumpTarget) : List Byte :=
  0xff :: (if jt.isCall then 0x15 else 0x25) :: (imm32 0 ++ imm64 dispatcherLookup)

/-- `tcache_patch_evicted_block`, `modules/arm2x86_tcache.c:38`. -/
def tcachePatchEvictedBlock (dispatcherLookup evictedArmAddr : Addr) :
    List JumpTarget → Memory → List JumpTarget × Memory :=
  rewriteJumps (dispatchCode dispatcherLookup) evictedArmAddr

/-- `tcache_invalidate_jumps_to`, `modules/arm2x86_tcache.c:84`: `ud2` over each jump. -/
def tcacheInvalidateJumpsTo (evictedArmAddr : Addr) :
    List JumpTarget → Memory → List JumpTarget × Memory :=
  rewriteJumps (fun _ ↦ [0x0f, 0x0b]) evictedArmAddr

/-- The memory an entry's code takes. -/
def Entry.code (e : Entry) : Region := ⟨e.x86Code, e.x86Size⟩

/-- The calls of `tcache_patch_evicted_block` among the effects of an insertion, in order. -/
def patchEvicted (dispatcherLookup : Addr) :
    List Effect → List JumpTarget × Memory → List JumpTarget × Memory
  | [], s => s
  | .patchEvictedBlock armAddr :: fx, s =>
    patchEvicted dispatcherLookup fx (tcachePatchEvictedBlock dispatcherLookup armAddr s.1 s.2)
  | _ :: fx, s => patchEvicted dispatcherLookup fx s

variable {code : JumpTarget → List Byte} {armAddr dispatcherLookup : Addr}

/-- The walk takes the jumps to its address off the list and no others. -/
@[simp] theorem rewriteJumps_fst (jts : List JumpTarget) (mem : Memory) :
    (rewriteJumps code armAddr jts mem).1 = jts.filter fun jt ↦ jt.targetArmAddr ≠ armAddr := by
  induction jts generalizing mem with
  | nil => rfl
  | cons jt jts ih =>
    rw [rewriteJumps]
    split
    · next heq => rw [ih, List.filter_cons_of_neg (by simp [heq])]
    · next hne =>
      rw [List.filter_cons_of_pos (by simp [hne])]
      exact congrArg (jt :: ·) (ih mem)

/-- Without a jump to its address the walk writes nothing. -/
theorem rewriteJumps_of_absent {jts : List JumpTarget}
    (h : ∀ jt ∈ jts, jt.targetArmAddr ≠ armAddr) (mem : Memory) :
    rewriteJumps code armAddr jts mem = (jts, mem) := by
  induction jts with
  | nil => rfl
  | cons jt jts ih =>
    rw [List.forall_mem_cons] at h
    rw [rewriteJumps, if_neg h.1, ih h.2]

/-- Evictions to which no jump is registered write nothing. -/
theorem patchEvicted_of_absent {fx : List Effect} {jts : List JumpTarget}
    (h : ∀ a, .patchEvictedBlock a ∈ fx → ∀ jt ∈ jts, jt.targetArmAddr ≠ a) (mem : Memory) :
    patchEvicted dispatcherLookup fx (jts, mem) = (jts, mem) := by
  induction fx with
  | nil => rfl
  | cons f fx ih =>
    have hrest := ih fun a ha ↦ h a (List.mem_cons_of_mem _ ha)
    cases f with
    | patchEvictedBlock a =>
      rw [patchEvicted, tcachePatchEvictedBlock,
        rewriteJumps_of_absent (h a List.mem_cons_self)]
      exact hrest
    | munmap code size => exact hrest
    | free code => exact hrest

end Arm2x86.Tcache

namespace Arm2x86.Tcache

open X86

section Overwriting

/-- Byte strings written to their addresses in order. -/
def writeAll (mem : Memory) (ws : List (Addr × List Byte)) : Memory :=
  ws.foldl (fun mem w ↦ mem.write w.1 w.2) mem

/-- The addresses of a write. -/
def written (w : Addr × List Byte) : Region := ⟨w.1, w.2.length⟩

/-- Every byte that a write leaves, outside of some regions, was in the memory before. -/
def Redundant (mem : Memory) (own : Addr → Prop) : List (Addr × List Byte) → Prop
  | [] => True
  | w :: ws =>
    (∀ q, q ∈ written w → ¬ own q → (∀ v ∈ ws, q ∉ written v) → mem.write w.1 w.2 q = mem q) ∧
      Redundant mem own ws

variable {mem mem' : Memory} {ws : List (Addr × List Byte)} {q : Addr}

theorem writeAll_of_notMem (h : ∀ w ∈ ws, q ∉ written w) : writeAll mem ws q = mem q := by
  induction ws generalizing mem with
  | nil => rfl
  | cons w ws ih =>
    rw [List.forall_mem_cons] at h
    exact (ih h.2).trans (Memory.write_of_notMem h.1)

/-- A byte that is written does not depend on what was there. -/
theorem writeAll_congr (h : ∃ w ∈ ws, q ∈ written w) : writeAll mem ws q = writeAll mem' ws q := by
  induction ws generalizing mem mem' with
  | nil => simp at h
  | cons w ws ih =>
    by_cases hlater : ∃ v ∈ ws, q ∈ written v
    · exact ih hlater
    · have hnone : ∀ v ∈ ws, q ∉ written v := by simpa using hlater
      have hw : q ∈ written w := by simpa [hlater] using h
      have hlast : ∀ m : Memory, writeAll m (w :: ws) q = m.write w.1 w.2 q :=
        fun m ↦ writeAll_of_notMem hnone
      have hlt : (q - w.1).toNat < w.2.length := hw
      rw [hlast, hlast, Memory.write, Memory.write, List.getElem?_eq_getElem hlt]
      rfl

/-- Writes leave what is outside of some regions exactly when the bytes they leave there are no
others than before. -/
theorem writeAll_frame_iff {own : Addr → Prop} :
    (∀ q, ¬ own q → writeAll mem ws q = mem q) ↔ Redundant mem own ws := by
  induction ws with
  | nil => exact ⟨fun _ ↦ trivial, fun _ _ _ ↦ rfl⟩
  | cons w ws ih =>
    rw [Redundant, ← ih]
    constructor
    · intro h
      constructor
      · intro q _ hown hlast
        rw [← h q hown]
        exact (writeAll_of_notMem hlast).symm
      · intro q hown
        by_cases hlater : ∃ v ∈ ws, q ∈ written v
        · rw [← h q hown]
          exact writeAll_congr hlater
        · exact writeAll_of_notMem (by simpa using hlater)
    · rintro ⟨hfirst, hrest⟩ q hown
      by_cases hlater : ∃ v ∈ ws, q ∈ written v
      · rw [← hrest q hown]
        exact writeAll_congr hlater
      · have hnone : ∀ v ∈ ws, q ∉ written v := by simpa using hlater
        have hlast : writeAll mem (w :: ws) q = mem.write w.1 w.2 q := writeAll_of_notMem hnone
        rw [hlast]
        by_cases hw : q ∈ written w
        · exact hfirst q hw hown hnone
        · exact Memory.write_of_notMem hw

theorem redundant_of_same {own : Addr → Prop} (h : ∀ w ∈ ws, mem.write w.1 w.2 = mem) :
    Redundant mem own ws := by
  induction ws with
  | nil => trivial
  | cons w ws ih =>
    rw [List.forall_mem_cons] at h
    exact ⟨fun q _ _ _ ↦ congrFun h.1 q, ih h.2⟩

/-- What writes leave is some memory if and only if they change nothing in that one, and it is as before
where they do not write. -/
theorem writeAll_eq_iff : writeAll mem ws = mem' ↔ Redundant mem' (fun _ ↦ False) ws ∧
    ∀ q, (∀ w ∈ ws, q ∉ written w) → mem q = mem' q := by
  rw [← writeAll_frame_iff]
  constructor
  · rintro rfl
    refine ⟨fun q _ ↦ ?_, fun q hq ↦ (writeAll_of_notMem hq).symm⟩
    by_cases hq : ∃ w ∈ ws, q ∈ written w
    · exact writeAll_congr hq
    · exact writeAll_of_notMem (by simpa using hq)
  · rintro ⟨hsame, houtside⟩
    funext q
    by_cases hq : ∃ w ∈ ws, q ∈ written w
    · rw [writeAll_congr hq]
      exact hsame q not_false
    · have hnone : ∀ w ∈ ws, q ∉ written w := by simpa using hq
      rw [writeAll_of_notMem hnone]
      exact houtside q hnone

end Overwriting

section Patch

/-- The direct jump itself, `JMP rel32` or `CALL rel32`. -/
def JumpTarget.jump (jt : JumpTarget) : Region := ⟨jt.jmpInstruction, 5⟩

/-- What the patch of the jump overwrites. -/
def JumpTarget.stub (jt : JumpTarget) : Region := ⟨jt.jmpInstruction, 14⟩

variable (dispatcherLookup armAddr : Addr) (jumpTargets : List JumpTarget) (mem : Memory)

/-- The jumps that are recorded with an address. -/
def recordedWith : List JumpTarget := jumpTargets.filter fun jt ↦ jt.targetArmAddr = armAddr

/-- Only the jumps that are recorded with the address are changed. -/
def PatchesJumpsOnly : Prop :=
  ∀ q, (∀ jt ∈ recordedWith armAddr jumpTargets, q ∉ jt.jump) →
    (tcachePatchEvictedBlock dispatcherLookup armAddr jumpTargets mem).2 q = mem q

/-- The last nine bytes of a stub. -/
def stubTail : List Byte := 0 :: imm64 dispatcherLookup

/-- Behind each of some jumps, and outside of `jumps` and of the stubs that come later, there are the
last bytes of a stub. -/
def TailsThere (jumps : List JumpTarget) : List JumpTarget → Prop
  | [] => True
  | jt :: rest =>
    (∀ k b, (stubTail dispatcherLookup)[k]? = some b →
      let q := jt.jmpInstruction + BitVec.ofNat 64 (5 + k)
      (∀ j ∈ jumps, q ∉ j.jump) → (∀ j ∈ rest, q ∉ j.stub) → mem q = b) ∧
    TailsThere jumps rest

variable {dispatcherLookup armAddr jumpTargets mem}

/-- The patch writes its stubs in the order of the list. -/
theorem rewriteJumps_snd (code : JumpTarget → List Byte) :
    (rewriteJumps code armAddr jumpTargets mem).2 =
      writeAll mem ((recordedWith armAddr jumpTargets).map fun jt ↦ (jt.jmpInstruction, code jt)) := by
  unfold recordedWith
  induction jumpTargets generalizing mem with
  | nil => rfl
  | cons jt jts ih =>
    rw [rewriteJumps]
    split
    · next heq =>
      rw [ih, List.filter_cons_of_pos (by simpa using heq)]
      rfl
    · next hne =>
      rw [List.filter_cons_of_neg (by simpa using hne)]
      exact ih

theorem dispatchCode_eq (dispatcherLookup : Addr) (jt : JumpTarget) :
    ∃ head : List Byte, head.length = 5 ∧
      dispatchCode dispatcherLookup jt = head ++ stubTail dispatcherLookup :=
  ⟨[0xff, if jt.isCall then 0x15 else 0x25, 0, 0, 0], rfl, rfl⟩

/-- The bytes of a stub are those of the jump and the nine behind it. -/
theorem redundant_iff_tailsThere {jumps jts : List JumpTarget} (hsub : ∀ jt ∈ jts, jt ∈ jumps) :
    Redundant mem (fun q ↦ ∃ jt ∈ jumps, q ∈ jt.jump)
        (jts.map fun jt ↦ (jt.jmpInstruction, dispatchCode dispatcherLookup jt)) ↔
      TailsThere dispatcherLookup mem jumps jts := by
  induction jts with
  | nil => exact Iff.rfl
  | cons jt jts ih =>
    rw [List.forall_mem_cons] at hsub
    obtain ⟨head, hhead, hcode⟩ := dispatchCode_eq dispatcherLookup jt
    rw [List.map_cons, Redundant, TailsThere, ih hsub.2]
    apply and_congr_left
    intro _
    have hlen : ∀ j : JumpTarget, (dispatchCode dispatcherLookup j).length = 14 := fun _ ↦ rfl
    have htail : (stubTail dispatcherLookup).length = 9 := rfl
    have hlater : ∀ q, (∀ v ∈ jts.map fun jt ↦ (jt.jmpInstruction, dispatchCode dispatcherLookup jt),
        q ∉ written v) ↔ ∀ j ∈ jts, q ∉ j.stub := by
      intro q
      rw [List.forall_mem_map]
      rfl
    have hbyte : ∀ k b, (stubTail dispatcherLookup)[k]? = some b →
        mem.write jt.jmpInstruction (dispatchCode dispatcherLookup jt)
          (jt.jmpInstruction + BitVec.ofNat 64 (5 + k)) = b := by
      intro k b hb
      obtain ⟨hk, -⟩ := List.getElem?_eq_some_iff.mp hb
      apply Memory.write_at
      · omega
      · rw [hcode, List.getElem?_append_right (by omega), hhead, Nat.add_sub_cancel_left]
        exact hb
    constructor
    · intro h k b hb q hown hlast
      obtain ⟨hk, -⟩ := List.getElem?_eq_some_iff.mp hb
      have hq : q ∈ written (jt.jmpInstruction, dispatchCode dispatcherLookup jt) := by
        apply Region.start_add_mem
        rw [hlen]
        omega
      have hsame := h q hq (by simpa using hown) ((hlater q).mpr hlast)
      exact hsame.symm.trans (hbyte k b hb)
    · intro h q hq hown hlast
      have hoff : (q - jt.jmpInstruction).toNat < 14 := hq
      have hbehind : ¬ (q - jt.jmpInstruction).toNat < 5 := fun hjump ↦ hown ⟨jt, hsub.1, hjump⟩
      have hk : (q - jt.jmpInstruction).toNat - 5 < (stubTail dispatcherLookup).length := by omega
      have hb := List.getElem?_eq_getElem hk
      have hq' : jt.jmpInstruction + BitVec.ofNat 64 (5 + ((q - jt.jmpInstruction).toNat - 5)) = q := by
        rw [Nat.add_sub_cancel' (Nat.not_lt.mp hbehind), BitVec.ofNat_toNat, BitVec.setWidth_eq,
          BitVec.add_comm, BitVec.sub_add_cancel]
      have hthere := h _ _ hb
      have hwrite := hbyte _ _ hb
      dsimp only at hthere
      rw [hq'] at hthere hwrite
      rw [hwrite]
      exact (hthere (by simpa using hown) ((hlater q).mp hlast)).symm

/-- The patch of an evicted block changes nothing but the jumps to it when the last nine bytes of each
stub are there already. -/
theorem patchesJumpsOnly_iff (dispatcherLookup armAddr : Addr) (jumpTargets : List JumpTarget)
    (mem : Memory) :
    PatchesJumpsOnly dispatcherLookup armAddr jumpTargets mem ↔
      TailsThere dispatcherLookup mem (recordedWith armAddr jumpTargets)
        (recordedWith armAddr jumpTargets) := by
  rw [← redundant_iff_tailsThere fun _ h ↦ h, ← writeAll_frame_iff, ← rewriteJumps_snd]
  unfold PatchesJumpsOnly
  simp only [not_exists, not_and]
  rfl

/-- One jump at address 0 in memory that is zero, with the dispatcher at address 1: the byte at 6
becomes the first one of that address. -/
theorem next_instruction_overwritten :
    ¬ PatchesJumpsOnly 1 0x400000 [⟨0x400000, 0, false⟩] fun _ ↦ 0 := by
  intro h
  have hsix := h 6 (by decide)
  revert hsix
  decide

end Patch

end Arm2x86.Tcache
