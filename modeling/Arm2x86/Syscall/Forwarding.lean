import Mathlib.Data.BitVec
import Arm2x86.Syscall.Model

/-!
# Where system calls go

A forwarded call reaches the kernel under its own number. The table of the source gives every
number itself, and the two kernels agree on no number that the table has.
-/

namespace Arm2x86.Syscall

/-! ## The number of the host call -/

/-- A slot that no row enters keeps its content, and rows that map a number to itself enter
nothing else. -/
private theorem getD_foldl_enterRow {rows : List SyscallMap}
    (hsame : ∀ row ∈ rows, row.x86Nr = row.arm64Nr) (lookup : List Int) (n : Nat) :
    (rows.foldl enterRow lookup).getD n (-1) = lookup.getD n (-1) ∨
      (rows.foldl enterRow lookup).getD n (-1) = n ∧ ∃ row ∈ rows, row.arm64Nr = n := by
  induction rows generalizing lookup with
  | nil => exact Or.inl rfl
  | cons row rows ih =>
    have hrows := ih (fun r hr ↦ hsame r (List.mem_cons_of_mem row hr)) (enterRow lookup row)
    have hrow := hsame row List.mem_cons_self
    rw [List.foldl_cons]
    rcases hrows with hkept | ⟨hn, r, hr, hrn⟩
    · rw [hkept, enterRow]
      split
      · next hin =>
        by_cases hat : row.arm64Nr.toNat = n ∧ n < lookup.length
        · right
          have hnr : row.arm64Nr = n := by omega
          constructor
          · rw [List.getD_eq_getElem?_getD, ← hat.1, List.getElem?_set_self (by omega),
              Option.getD_some, hrow]
            omega
          · exact ⟨row, List.mem_cons_self, hnr⟩
        · left
          rw [List.getD_eq_getElem?_getD, List.getD_eq_getElem?_getD]
          by_cases hne : row.arm64Nr.toNat = n
          · rw [List.getElem?_eq_none (by rw [List.length_set]; omega),
              List.getElem?_eq_none (by omega)]
          · rw [List.getElem?_set_ne hne]
      · exact Or.inl rfl
    · exact Or.inr ⟨hn, r, List.mem_cons_of_mem row hr, hrn⟩

private theorem syscallTable_same : ∀ row ∈ syscallTable, row.x86Nr = row.arm64Nr := by
  decide +kernel

private theorem syscallTable_lt : ∀ row ∈ syscallTable, row.arm64Nr < 306 := by
  decide +kernel

/-- A number is translated to itself or not at all, and from 306 on not at all. -/
theorem translateSyscallNumber_cases (n : Int) :
    translateSyscallNumber n = -1 ∨ translateSyscallNumber n = n ∧ 0 ≤ n ∧ n < 306 := by
  rw [translateSyscallNumber]
  split
  · next hin =>
    rcases getD_foldl_enterRow syscallTable_same (List.replicate syscallTableMaxNr (-1))
        n.toNat with hkept | ⟨hn, row, hrow, hnr⟩
    · left
      rw [initSyscallLookup, hkept, List.getD_eq_getElem?_getD, List.getElem?_replicate]
      split <;> rfl
    · right
      have hlt := syscallTable_lt row hrow
      refine ⟨?_, ?_, ?_⟩
      · rw [initSyscallLookup, hn]
        omega
      · omega
      · omega
  · exact Or.inl rfl

/-- No call of both kernels is entered in the table under its number on the host. -/
theorem uapi_ne : ∀ c ∈ uapi, c.arm64 ≠ c.x86 ∨ 306 ≤ c.arm64 := by
  decide +kernel

/-! ## What the function does -/

section

variable {host : Host} {fields : List Field} {dst src q : BitVec 64}

/-- An assignment of fields changes nothing outside of the structure. -/
theorem copyFields_of_notMem (size : Nat) (hsize : size ≤ 2 ^ 64)
    (hfields : ∀ f ∈ fields, f.offset + f.size ≤ size) (hq : q ∉ (⟨dst, size⟩ : Region))
    (mem : Memory) : copyFields fields dst src mem q = mem q := by
  rw [copyFields]
  induction fields generalizing mem with
  | nil => rfl
  | cons f fields ih =>
    have hf := hfields f List.mem_cons_self
    rw [List.foldl_cons, ih fun f hf ↦ hfields f (List.mem_cons_of_mem _ hf), copyField]
    apply Memory.write_of_notMem
    intro hin
    apply hq
    have hwhole := (Region.mem_append (p := dst) (q := q) (m := f.offset) (n := f.size)
      (by omega)).mpr (Or.inr (by rwa [length_leBytes] at hin))
    rw [Region.mem_iff] at hwhole ⊢
    exact Nat.lt_of_lt_of_le hwhole hf

/-- The stack of the function. -/
def OnStack (host : Host) (q : BitVec 64) : Prop :=
  q ∈ (⟨host.frame, frameSize⟩ : Region) ∨ q ∈ (⟨host.armSa, sigactionSize⟩ : Region)

private theorem sigactionMemory_of_notOnStack {mem : Memory} {act : BitVec 64}
    (hq : ¬ OnStack host q) : sigactionMemory host mem act q = mem q := by
  rw [OnStack, not_or] at hq
  rw [sigactionMemory, copyFields_of_notMem frameSize (by decide) (by decide) hq.1]
  apply Memory.write_of_notMem
  rw [Memory.length_read]
  exact hq.2

end

/-- What a call that has a number does: the first host call and the memory it is made in, the
result, and what is written after it. -/
structure Performs (host : Host) (s : State) (arm64Nr : Int) (a : Args)
    (call : HostCall) (after : List HostCall) (mem : Memory) : Prop where
  calls : (doTranslatedSyscall host s arm64Nr a).2.calls = s.calls ++ call :: after
  nr : call.nr = translateSyscallNumber arm64Nr
  untouched : ∀ q, ¬ OnStack host q → mem q = s.mem q
  result : (doTranslatedSyscall host s arm64Nr a).1 = truncated (host.kernel call mem).1
  single : arm64Nr ≠ 220 → after = []
  written : after = [] → ∀ q, (arm64Nr = 80 ∨ arm64Nr = 79 → q ∉ (⟨a 1, statSize⟩ : Region)) →
    (doTranslatedSyscall host s arm64Nr a).2.mem q = (host.kernel call mem).2 q

section

variable (host : Host) (s : State) (n : Int) (a : Args)

private theorem performs_stat (h : 0 ≤ translateSyscallNumber n) (hn : n = 80 ∨ n = 79) :
    ∃ call mem, Performs host s n a call [] mem := by
  refine ⟨⟨translateSyscallNumber n, s.registers host (a 0) host.frame (a 2)⟩, s.mem, ?_⟩
  have hrun : doTranslatedSyscall host s n a = statCall host s (translateSyscallNumber n) a := by
    rw [doTranslatedSyscall, if_neg (Int.not_lt.mpr h), if_pos hn]
  refine { calls := ?_, nr := rfl, untouched := fun q _ ↦ rfl, result := ?_, single := fun _ ↦ rfl,
           written := ?_ }
  · rw [hrun, statCall]
    dsimp only
    split <;> rfl
  · rw [hrun, statCall]
    dsimp only
    split <;> rfl
  · intro _ q hq
    rw [hrun, statCall]
    dsimp only
    split
    · apply copyFields_of_notMem statSize (by decide) (by decide)
      exact hq hn
    · rfl

private theorem performs_sigaction (h : 0 ≤ translateSyscallNumber n) (hn : n = 128)
    (hact : a 1 ≠ 0 ∧ a 2 = 0) : ∃ call mem, Performs host s n a call [] mem := by
  let s' : State := { s with mem := sigactionMemory host s.mem (a 1) }
  refine ⟨⟨translateSyscallNumber n, s'.registers host (a 0) host.frame 0⟩, s'.mem, ?_⟩
  have hrun : doTranslatedSyscall host s n a =
      sigactionCall host s (translateSyscallNumber n) a := by
    rw [doTranslatedSyscall, if_neg (Int.not_lt.mpr h), if_neg (by omega), if_pos ⟨hn, hact⟩]
  refine { calls := ?_, nr := rfl, untouched := ?_, result := ?_, single := fun _ ↦ rfl,
           written := ?_ }
  · rw [hrun]
    rfl
  · intro q hq
    exact sigactionMemory_of_notOnStack hq
  · rw [hrun]
    rfl
  · intro _ q _
    rw [hrun]
    rfl

private theorem performs_clone (h : 0 ≤ translateSyscallNumber n) (hn : n = 220) :
    ∃ call after mem, Performs host s n a call after mem := by
  let flags := cloneFlags (host.spare s.calls.length 0) (a 0)
  let call : HostCall := ⟨translateSyscallNumber n, s.registers host flags (a 1) (a 2)⟩
  have hrun : doTranslatedSyscall host s n a =
      cloneCall host s (translateSyscallNumber n) a := by
    rw [doTranslatedSyscall, if_neg (Int.not_lt.mpr h), if_neg (by omega), if_neg (by omega),
      if_pos hn]
  by_cases hchild : (host.kernel call s.mem).1 = 0 ∧ a 0 &&& cloneSettls ≠ 0
  · have hset : cloneCall host s (translateSyscallNumber n) a =
        (truncated (host.kernel call s.mem).1, _) := if_pos hchild
    obtain ⟨first, second, hcalls⟩ : ∃ first second : HostCall,
        (cloneCall host s (translateSyscallNumber n) a).2.calls =
          s.calls ++ call :: [first, second] := by
      rw [hset]
      simp only [msrTpidrEl0, archSetFs, State.syscall, List.append_assoc, List.cons_append,
        List.nil_append]
      exact ⟨_, _, rfl⟩
    refine ⟨call, [first, second], s.mem, ?_⟩
    refine { calls := ?_, nr := rfl, untouched := fun q _ ↦ rfl, result := ?_,
             single := fun hne ↦ absurd hn hne, written := fun hnil ↦ by cases hnil }
    · rw [hrun, hcalls]
    · rw [hrun, hset]
  · have hplain : cloneCall host s (translateSyscallNumber n) a =
        (truncated (host.kernel call s.mem).1, _) := if_neg hchild
    refine ⟨call, [], s.mem, ?_⟩
    refine { calls := ?_, nr := rfl, untouched := fun q _ ↦ rfl, result := ?_, single := fun _ ↦ rfl,
             written := fun _ q _ ↦ ?_ }
    · rw [hrun, hplain]
      rfl
    · rw [hrun, hplain]
    · rw [hrun, hplain]
      rfl

/-- Either nothing is called and `-ENOSYS` is the answer, or the host call has the translated
number. -/
theorem doTranslatedSyscall_performs :
    translateSyscallNumber n < 0 ∧ doTranslatedSyscall host s n a = (negEnosys, s) ∨
      ∃ call after mem, Performs host s n a call after mem := by
  by_cases hnr : translateSyscallNumber n < 0
  · left
    rw [doTranslatedSyscall, if_pos hnr]
    exact ⟨hnr, rfl⟩
  · right
    have h := Int.not_lt.mp hnr
    by_cases hstat : n = 80 ∨ n = 79
    · obtain ⟨call, mem, hperforms⟩ := performs_stat host s n a h hstat
      exact ⟨call, [], mem, hperforms⟩
    by_cases hsig : n = 128 ∧ a 1 ≠ 0 ∧ a 2 = 0
    · obtain ⟨call, mem, hperforms⟩ := performs_sigaction host s n a h hsig.1 hsig.2
      exact ⟨call, [], mem, hperforms⟩
    by_cases hclone : n = 220
    · exact performs_clone host s n a h hclone
    · have hrun : doTranslatedSyscall host s n a =
          plainCall host s (translateSyscallNumber n) a := by
        rw [doTranslatedSyscall, if_neg hnr, if_neg hstat, if_neg hsig, if_neg hclone]
      refine ⟨⟨translateSyscallNumber n, s.registers host (a 0) (a 1) (a 2)⟩, [], s.mem, ?_⟩
      refine { calls := ?_, nr := rfl, untouched := fun q _ ↦ rfl, result := ?_,
               single := fun _ ↦ rfl, written := fun _ q _ ↦ ?_ }
      · rw [hrun]
        rfl
      · rw [hrun]
        rfl
      · rw [hrun]
        rfl

end

/-! ## Forwarding -/

namespace Call

/-- The arguments in the order of the host: it has the last two of `clone` the other way round. -/
def hostArgs (c : Call) (a : Args) : Args :=
  if c.name = "clone" then ![a 0, a 1, a 2, a 4, a 3, a 5] else a

/-- The arguments that point to a structure with a layout of its own on each side. -/
def translated (c : Call) : List (Fin 6) :=
  if c.name = "fstat" then [1]
  else if c.name = "newfstatat" then [2]
  else if c.name = "rt_sigaction" then [1, 2]
  else []

/-- The guest's buffer for such a structure that the call fills. -/
def buffer (c : Call) (a : Args) : Region :=
  if c.name = "fstat" then ⟨a 1, statSize⟩
  else if c.name = "newfstatat" then ⟨a 2, statSize⟩
  else if c.name = "rt_sigaction" then ⟨a 2, sigactionSize⟩
  else ⟨0, 0⟩

end Call

/-- The call is the host's call of the same name: its number, its arguments, the guest's memory
as it is, the kernel's whole result, and no writes but to the buffer. Only a `clone` that sets the
thread register may make another host call. -/
structure ForwardsAs (host : Host) (s : State) (c : Call) (a : Args)
    (call : HostCall) (after : List HostCall) (mem : Memory) : Prop where
  calls : (doTranslatedSyscall host s c.arm64 a).2.calls = s.calls ++ call :: after
  nr : call.nr = c.x86
  args : ∀ i, i ∉ c.translated → call.args i = c.hostArgs a i
  untouched : ∀ q, ¬ OnStack host q → mem q = s.mem q
  result : (doTranslatedSyscall host s c.arm64 a).1 = (host.kernel call mem).1
  single : c.name ≠ "clone" → after = []
  written : after = [] → ∀ q, q ∉ c.buffer a → ¬ OnStack host q →
    (doTranslatedSyscall host s c.arm64 a).2.mem q = (host.kernel call mem).2 q

def Forwards (host : Host) (s : State) (c : Call) (a : Args) : Prop :=
  ∃ call after mem, ForwardsAs host s c a call after mem

/-- `getpid` is 172 on the guest and 39 on the host. -/
def getpid : Call := ⟨"getpid", 172, 39⟩

/-- A kernel that answers 1 and writes nothing. -/
def quietHost : Host where
  kernel := fun _ mem ↦ (1, mem)
  spare := fun _ _ ↦ 0
  frame := 0x7000#64
  armSa := 0x7100#64

/-- A state before any host call. -/
def freshState : State := ⟨fun _ ↦ 0#8, 0, []⟩

end Arm2x86.Syscall
