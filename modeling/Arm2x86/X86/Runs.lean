import Arm2x86.X86.Execution

/-!
# Runs through code

Code that stands at an offset, instructions with their bytes, and runs through them one after the
other. A run that has come to the end of all code stops there.
-/

namespace Arm2x86.X86

/-- Some bytes stand at an offset of the code. -/
def At (code : List Byte) (pos : Nat) (bytes : List Byte) : Prop := bytes <+: code.drop pos

theorem At.left {code xs ys : List Byte} {pos : Nat} (h : At code pos (xs ++ ys)) : At code pos xs :=
  (List.prefix_append xs ys).trans h

theorem At.right {code xs ys : List Byte} {pos : Nat} (h : At code pos (xs ++ ys)) :
    At code (pos + xs.length) ys := by
  obtain ⟨rest, hrest⟩ := h
  rw [List.append_assoc] at hrest
  exists rest
  rw [← List.drop_drop, ← hrest, List.drop_left]

theorem at_self (code : List Byte) : At code 0 code := List.prefix_rfl

/-- An instruction with its bytes. -/
structure Chunk where
  bytes : List Byte
  instr : Instr
  decodes : ∀ rest, decode (bytes ++ rest) = some (instr, rest)

/-- The bytes of some instructions. -/
def chunkBytes (cs : List Chunk) : List Byte := cs.flatMap Chunk.bytes

namespace Semantics

variable (sem : Semantics) {code : List Byte} {m m' m'' : Machine}

/-- One state comes to another. -/
def Runs (code : List Byte) (m m' : Machine) : Prop := ∃ n, sem.steps code n m = some m'

variable {sem}

theorem Runs.refl : sem.Runs code m m := ⟨0, rfl⟩

theorem Runs.trans (h : sem.Runs code m m') (h' : sem.Runs code m' m'') : sem.Runs code m m'' := by
  obtain ⟨n, hn⟩ := h
  obtain ⟨k, hk⟩ := h'
  exists n + k
  rw [sem.steps_add, hn]
  exact hk

/-- An instruction that stands at the position of a state. -/
theorem step_chunk (c : Chunk) (h : At code m.pos c.bytes) :
    sem.step code m = sem.exec c.instr { m with pos := m.pos + c.bytes.length } := by
  obtain ⟨rest, hrest⟩ := h
  exact sem.step_of_decode hrest.symm (c.decodes rest)

theorem runs_chunk {c : Chunk} (h : At code m.pos c.bytes)
    (hexec : sem.exec c.instr { m with pos := m.pos + c.bytes.length } = some m') :
    sem.Runs code m m' := by
  exists 1
  rw [steps, step_chunk c h, hexec]
  rfl

variable (sem)

/-- What some instructions do one after the other. -/
def runChunks : List Chunk → Machine → Option Machine
  | [], m => some m
  | c :: cs, m => (sem.exec c.instr { m with pos := m.pos + c.bytes.length }).bind (runChunks cs)

/-- An instruction that goes on with the next one. -/
def Sequential (i : Instr) : Prop := ∀ m m', sem.exec i m = some m' → m'.pos = m.pos

variable {sem}

/-- Straight code runs as its instructions do. -/
theorem steps_chunks {cs : List Chunk} (hseq : ∀ c ∈ cs, sem.Sequential c.instr)
    (h : At code m.pos (chunkBytes cs)) : sem.steps code cs.length m = sem.runChunks cs m := by
  induction cs generalizing m with
  | nil => rfl
  | cons c cs ih =>
    rw [List.forall_mem_cons] at hseq
    rw [chunkBytes, List.flatMap_cons] at h
    rw [List.length_cons, steps, runChunks, step_chunk c h.left]
    cases hexec : sem.exec c.instr { m with pos := m.pos + c.bytes.length } with
    | none => rfl
    | some m' =>
      apply ih hseq.2
      rw [hseq.1 _ _ hexec]
      exact h.right

theorem runChunks_pos {cs : List Chunk} (hseq : ∀ c ∈ cs, sem.Sequential c.instr)
    (h : sem.runChunks cs m = some m') : m'.pos = m.pos + (chunkBytes cs).length := by
  induction cs generalizing m with
  | nil =>
    rw [← Option.some.inj h]
    rfl
  | cons c cs ih =>
    rw [List.forall_mem_cons] at hseq
    obtain ⟨m₁, hexec, hrun⟩ := Option.bind_eq_some_iff.mp h
    rw [ih hseq.2 hrun, hseq.1 _ _ hexec, chunkBytes, chunkBytes, List.flatMap_cons,
      List.length_append, Nat.add_assoc]

/-- Behind the last byte no instruction is decoded. -/
theorem step_end (h : m.pos = code.length) : sem.step code m = none := by
  rw [step, h, List.drop_length]
  rfl

/-- There is one state in which the end of the code is reached. -/
theorem runs_end_unique (h : sem.Runs code m m') (hpos : m'.pos = code.length)
    (h' : sem.Runs code m m'') (hpos' : m''.pos = code.length) : m'' = m' := by
  obtain ⟨n, hn⟩ := h
  obtain ⟨k, hk⟩ := h'
  have hstop : ∀ {m₁ : Machine}, m₁.pos = code.length → ∀ j, sem.steps code (j + 1) m₁ = none := by
    intro m₁ hend j
    rw [steps, step_end hend]
    rfl
  rcases Nat.lt_trichotomy n k with hlt | rfl | hgt
  · obtain ⟨j, rfl⟩ := Nat.exists_eq_add_of_lt hlt
    rw [Nat.add_assoc, sem.steps_add, hn, Option.bind_some, hstop hpos] at hk
    cases hk
  · exact Option.some.inj (hk.symm.trans hn)
  · obtain ⟨j, rfl⟩ := Nat.exists_eq_add_of_lt hgt
    rw [Nat.add_assoc, sem.steps_add, hk, Option.bind_some, hstop hpos'] at hn
    cases hn

end Semantics

/-! ## Straight code

Where the next instruction stands tells how many of the instructions have been done, so that a run of
straight code comes to each of them once. -/

namespace Semantics

variable {sem : Semantics} {code : List Byte} {m m' m'' : Machine} {cs : List Chunk}

theorem chunkBytes_append (cs ds : List Chunk) : chunkBytes (cs ++ ds) = chunkBytes cs ++ chunkBytes ds :=
  List.flatMap_append

/-- A state of a run is behind some of the instructions and in front of the others. -/
theorem Runs.straight (hrun : sem.Runs code m m') (hseq : ∀ c ∈ cs, sem.Sequential c.instr)
    (hat : At code m.pos (chunkBytes cs)) (hend : m.pos + (chunkBytes cs).length = code.length) :
    ∃ k ≤ cs.length, sem.steps code k m = some m' ∧ At code m'.pos (chunkBytes (cs.drop k)) ∧
      m'.pos + (chunkBytes (cs.drop k)).length = code.length := by
  obtain ⟨k, hk⟩ := hrun
  have hsplit : ∀ n, chunkBytes cs = chunkBytes (cs.take n) ++ chunkBytes (cs.drop n) := by
    intro n
    rw [← chunkBytes_append, List.take_append_drop]
  have hseqTake : ∀ n, ∀ c ∈ cs.take n, sem.Sequential c.instr :=
    fun n c hc ↦ hseq c (List.mem_of_mem_take hc)
  have htake : ∀ n ≤ cs.length, sem.steps code n m = sem.runChunks (cs.take n) m := by
    intro n hn
    have hfront := hat
    rw [hsplit n] at hfront
    have hsteps := steps_chunks (hseqTake n) hfront.left
    rwa [List.length_take, Nat.min_eq_left hn] at hsteps
  rcases Nat.lt_or_ge cs.length k with hgt | hle
  · -- behind the last instruction there is no further step
    obtain ⟨j, rfl⟩ := Nat.exists_eq_add_of_lt hgt
    rw [Nat.add_assoc, sem.steps_add] at hk
    obtain ⟨e, he, hnext⟩ := Option.bind_eq_some_iff.mp hk
    have hpos := runChunks_pos (hseqTake cs.length) ((htake _ (Nat.le_refl _)).symm.trans he)
    rw [List.take_length, hend] at hpos
    rw [steps, step_end hpos] at hnext
    cases hnext
  · have hpos : m'.pos = m.pos + (chunkBytes (cs.take k)).length :=
      runChunks_pos (hseqTake k) ((htake k hle).symm.trans hk)
    rw [hsplit k] at hat hend
    refine ⟨k, hle, hk, ?_, ?_⟩
    · rw [hpos]
      exact hat.right
    · rw [hpos, ← hend, List.length_append, Nat.add_assoc]

/-- The run comes once to the only instruction of a kind. -/
theorem Runs.unique (hrun : sem.Runs code m m') (hrun' : sem.Runs code m m'')
    (hseq : ∀ c ∈ cs, sem.Sequential c.instr) (hat : At code m.pos (chunkBytes cs))
    (hend : m.pos + (chunkBytes cs).length = code.length) {i : Instr} {n : Nat}
    (honce : ∀ k (h : k < cs.length), cs[k].instr = i → k = n)
    (hnext : ∃ rest, decode (code.drop m'.pos) = some (i, rest))
    (hnext' : ∃ rest, decode (code.drop m''.pos) = some (i, rest)) : m' = m'' := by
  have hcount : ∀ {e : Machine}, sem.Runs code m e → (∃ rest, decode (code.drop e.pos) = some (i, rest)) →
      sem.steps code n m = some e := by
    intro e he hi
    obtain ⟨rest, hrest⟩ := hi
    obtain ⟨k, hk, hsteps, hate, hlast⟩ := he.straight hseq hat hend
    rcases Nat.lt_or_eq_of_le hk with hlt | heq
    · rw [List.drop_eq_getElem_cons hlt] at hate
      obtain ⟨tail, htail⟩ := hate
      rw [chunkBytes, List.flatMap_cons, List.append_assoc] at htail
      rw [← htail, cs[k].decodes] at hrest
      have hkind : cs[k].instr = i := (Prod.mk.inj (Option.some.inj hrest)).1
      rwa [honce k hlt hkind] at hsteps
    · rw [heq, List.drop_length] at hlast
      have hend : e.pos = code.length := hlast
      rw [hend, List.drop_length] at hrest
      cases hrest
  exact Option.some.inj ((hcount hrun hnext).symm.trans (hcount hrun' hnext'))

end Semantics

end Arm2x86.X86
