import Arm2x86.X86.Runs

/-!
# Valid code

Code of which every byte belongs to an instruction, with the one rule about prefixes that the decoder
leaves open: `LOCK` stands in front of a read, modification and write of memory only, and elsewhere it
raises an exception.
-/

namespace Arm2x86.X86

/-- Whether an operand is in memory. -/
def Loc.inMemory : Loc → Bool
  | .reg _ | .high _ => false
  | .mem .. | .rip _ => true

/-- The instructions that take the `LOCK` prefix. -/
def Instr.lockable : Instr → Bool
  | .alu op _ dst _ | .aluImm op _ dst _ => op != .cmp && dst.inMemory
  | .not _ dst | .neg _ dst | .incDec _ _ dst => dst.inMemory
  | .xchg _ dst _ | .xadd _ dst _ | .cmpxchg _ dst _ => dst.inMemory
  | _ => false

/-- Whether `LOCK` is among the prefixes at the head of some bytes. -/
def locked : List Byte → Bool
  | [] => false
  | c :: cs =>
    if c == 0xf0 then true
    else if c == 0x66 || c == 0xf3 || c == 0xf2 || c &&& 0xf0 == 0x40 then locked cs
    else false

/-- Whether all bytes belong to instructions. The fuel bounds their number. -/
def valid : Nat → List Byte → Bool
  | 0, bs => bs.isEmpty
  | fuel + 1, bs => bs.isEmpty ||
    match decode bs with
    | none => false
    | some (i, rest) => (!locked bs || i.lockable) && valid fuel rest

/-- Some code is a sequence of instructions. None of them is empty. -/
def Valid (code : List Byte) : Prop := valid code.length code = true

theorem Chunk.bytes_ne_nil (c : Chunk) : c.bytes ≠ [] := by
  intro h
  have hdec := c.decodes []
  rw [h] at hdec
  cases hdec

/-- An instruction in front of valid code. -/
theorem valid_chunk {c : Chunk} {fuel : Nat} {tail : List Byte}
    (h : valid (fuel + 1) (c.bytes ++ tail) = true) :
    (locked (c.bytes ++ tail) = true → c.instr.lockable = true) ∧ valid fuel tail = true := by
  have hne : (c.bytes ++ tail).isEmpty = false := by
    rw [List.isEmpty_eq_false_iff]
    exact List.append_ne_nil_of_left_ne_nil c.bytes_ne_nil tail
  rw [valid, hne, Bool.false_or, c.decodes, Bool.and_eq_true, Bool.or_eq_true, Bool.not_eq_true'] at h
  refine ⟨fun hlock ↦ h.1.resolve_left ?_, h.2⟩
  rw [hlock]
  decide

/-- There are at least as many bytes as instructions. -/
theorem length_le_chunkBytes (cs : List Chunk) : cs.length ≤ (chunkBytes cs).length := by
  induction cs with
  | nil => exact Nat.le_refl 0
  | cons c cs ih =>
    have hc := List.length_pos_iff.mpr c.bytes_ne_nil
    rw [chunkBytes, List.flatMap_cons, List.length_append, List.length_cons]
    rw [chunkBytes] at ih
    omega

/-- A `LOCK` prefix that stands behind some instructions, in front of one that does not take it. -/
theorem not_valid_of_locked {cs : List Chunk} {c : Chunk} {tail : List Byte}
    (hlock : locked (c.bytes ++ tail) = true) (hkind : c.instr.lockable = false) :
    ¬ Valid (chunkBytes cs ++ (c.bytes ++ tail)) := by
  have hall : ∀ fuel, cs.length < fuel → valid fuel (chunkBytes cs ++ (c.bytes ++ tail)) ≠ true := by
    induction cs with
    | nil =>
      intro fuel hfuel h
      obtain ⟨n, rfl⟩ := Nat.exists_eq_succ_of_ne_zero (Nat.ne_of_gt hfuel)
      have htakes := (valid_chunk h).1 hlock
      rw [hkind] at htakes
      cases htakes
    | cons d ds ih =>
      intro fuel hfuel h
      obtain ⟨n, rfl⟩ := Nat.exists_eq_succ_of_ne_zero (Nat.ne_of_gt (Nat.zero_lt_of_lt hfuel))
      rw [chunkBytes, List.flatMap_cons, List.append_assoc] at h
      exact ih n (Nat.lt_of_succ_lt_succ hfuel) (valid_chunk h).2
  apply hall
  have hcs := length_le_chunkBytes cs
  have hc := List.length_pos_iff.mpr c.bytes_ne_nil
  rw [List.length_append, List.length_append]
  omega

end Arm2x86.X86
