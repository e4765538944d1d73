import Arm2x86.Translate.HomeAccess
import Arm2x86.X86.RoundTrip
import Arm2x86.X86.Transforms

/-!
# Two-operand combinations

The instructions that `translate_add_sub` and `translate_logical` end with
(`modules/arm2x86_translate64.c:925`, `:963`), as functions of the host registers. `mov_r64_r64` and the
operations write the register that is given as their source.
-/

namespace Arm2x86.A64

/-- What the two translators compute. -/
inductive Combination where
  | add
  | sub
  | and
  | bic
  | orr
  | orn
deriving DecidableEq, Repr

def Combination.value : Combination → BitVec 64 → BitVec 64 → BitVec 64
  | add, x, y => x + y
  | sub, x, y => x - y
  | and, x, y => x &&& y
  | bic, x, y => x &&& ~~~ y
  | orr, x, y => x ||| y
  | orn, x, y => x ||| ~~~ y

/-- What the operation of a combination makes of the register it writes and of the other one. -/
def Combination.combined (k : Combination) (y x : BitVec 64) : BitVec 64 :=
  match k with
  | .add => y + x
  | .sub => y - x
  | .and | .bic => y &&& x
  | .orr | .orn => y ||| x

def Combination.complements : Combination → Bool
  | .bic | .orn => true
  | _ => false

/-- The register it writes, behind the complement. -/
def Combination.flipped (k : Combination) (y : BitVec 64) : BitVec 64 :=
  if k.complements then ~~~ y else y

end Arm2x86.A64

namespace Arm2x86.Translate

open X86

section Codes

/-- The instructions of a combination. -/
def combinationCode (k : A64.Combination) (d m : Byte) : List Code :=
  match k with
  | .add => [addR64R64 d m]
  | .sub => [subR64R64 d m]
  | .and => [andR64R64 d m]
  | .bic => [notR64 m, andR64R64 d m]
  | .orr => [orR64R64 d m]
  | .orn => [notR64 m, orR64R64 d m]

/-- The copy of the first source. -/
def copyCode (d n : Byte) : List Code := if d == n then [] else [movR64R64 d n]

end Codes

section Arithmetic

variable (undef : Instr → Machine → Status) (rest : Instr → Machine → Option Machine)

/-- The registers behind the code of a combination. -/
def combinedRegs (k : A64.Combination) (d s : Gpr) (regs : Gpr → BitVec 64) : Gpr → BitVec 64 :=
  let regs' := if k.complements then Function.update regs s (~~~ regs s) else regs
  Function.update regs' s (k.combined (regs' s) (regs' d))

theorem combinedRegs_other (k : A64.Combination) (d : Gpr) {s g : Gpr} (h : g ≠ s)
    (regs : Gpr → BitVec 64) : combinedRegs k d s regs g = regs g := by
  rw [combinedRegs, Function.update_of_ne h]
  split
  · exact Function.update_of_ne h _ _
  · rfl

theorem combinedRegs_self (k : A64.Combination) (d s : Gpr) (regs : Gpr → BitVec 64) :
    combinedRegs k d s regs s =
      k.combined (k.flipped (regs s)) (if d = s then k.flipped (regs s) else regs d) := by
  rw [combinedRegs, Function.update_self, A64.Combination.flipped]
  by_cases hk : k.complements
  · rw [if_pos hk, if_pos hk, Function.update_self, Function.update_apply]
  · rw [if_neg hk, if_neg hk]
    split
    · next h => rw [h]
    · rfl

theorem alters_mov (d s : Byte) : Alters (Semantics.core undef rest) 1 (movR64R64 d s)
    fun regs ↦ Function.update regs (toGpr s) (regs (toGpr d)) := by
  apply alters_instr (decode_movR64R64 d s)
  intro m
  exact ⟨_, rfl, rfl, regs_setReg_update m _ _⟩

theorem alters_not (s : Byte) : Alters (Semantics.core undef rest) 1 (notR64 s)
    fun regs ↦ Function.update regs (toGpr s) (~~~ regs (toGpr s)) := by
  apply alters_instr fun tail ↦ decode_notR64 tail s
  intro m
  have hexec : (Semantics.core undef rest).exec (.not .b64 (.reg (toGpr s))) m =
      some (m.setReg (toGpr s) ((~~~ (m.regs (toGpr s)).setWidth 64).setWidth 64)) := rfl
  rw [BitVec.setWidth_eq, BitVec.setWidth_eq] at hexec
  exact ⟨_, hexec, rfl, regs_setReg_update m _ _⟩

theorem alters_combined {opcode : Byte} (hmem : opcode ∈ aluOpcodes) (k : A64.Combination)
    (hop : (aluOp (opcode.extractLsb' 3 3), k) ∈ [(AluOp.add, A64.Combination.add), (.sub, .sub),
      (.and, .and), (.and, .bic), (.or, .orr), (.or, .orn)]) (d s : Byte) :
    Alters (Semantics.core undef rest) 1 (regReg opcode d s)
      fun regs ↦ Function.update regs (toGpr s) (k.combined (regs (toGpr s)) (regs (toGpr d))) := by
  apply alters_instr (decode_regReg d s · hmem)
  intro m
  generalize aluOp (opcode.extractLsb' 3 3) = operation at hop
  have hexec : ∃ st, (Semantics.core undef rest).exec
      (.alu operation .b64 (.reg (toGpr s)) (.reg (toGpr d))) m =
        some ((m.setReg (toGpr s) ((k.combined ((m.regs (toGpr s)).setWidth 64)
          ((m.regs (toGpr d)).setWidth 64)).setWidth 64)).setStatus st) := by
    simp only [List.mem_cons, Prod.mk.injEq, List.not_mem_nil, or_false] at hop
    rcases hop with ⟨rfl, rfl⟩ | ⟨rfl, rfl⟩ | ⟨rfl, rfl⟩ | ⟨rfl, rfl⟩ | ⟨rfl, rfl⟩ | ⟨rfl, rfl⟩ <;>
      exact ⟨_, rfl⟩
  obtain ⟨st, hexec⟩ := hexec
  rw [BitVec.setWidth_eq, BitVec.setWidth_eq, BitVec.setWidth_eq] at hexec
  exact ⟨_, hexec, rfl, regs_setReg_update m _ _⟩

theorem alters_combination (k : A64.Combination) (d s : Byte) :
    Alters (Semantics.core undef rest) (combinationCode k d s).length (combinationCode k d s).flatten
      (combinedRegs k (toGpr d) (toGpr s)) := by
  have hone : ∀ (opcode : Byte) (k : A64.Combination), opcode ∈ aluOpcodes →
      (aluOp (opcode.extractLsb' 3 3), k) ∈ [(AluOp.add, A64.Combination.add), (.sub, .sub),
        (.and, .and), (.and, .bic), (.or, .orr), (.or, .orn)] →
        Alters (Semantics.core undef rest) 1 [regReg opcode d s].flatten fun regs ↦
          Function.update regs (toGpr s) (k.combined (regs (toGpr s)) (regs (toGpr d))) :=
    fun _ k hmem hop ↦ (alters_combined undef rest hmem k hop d s).append alters_nil
  cases k with
  | add => exact hone 0x01 .add (by decide) (by decide)
  | sub => exact hone 0x29 .sub (by decide) (by decide)
  | and => exact hone 0x21 .and (by decide) (by decide)
  | orr => exact hone 0x09 .orr (by decide) (by decide)
  | bic => exact (alters_not undef rest s).append (hone 0x21 .bic (by decide) (by decide))
  | orn => exact (alters_not undef rest s).append (hone 0x09 .orn (by decide) (by decide))

/-- The registers behind the copy. -/
def copiedRegs (d n : Byte) (regs : Gpr → BitVec 64) : Gpr → BitVec 64 :=
  if d = n then regs else Function.update regs (toGpr n) (regs (toGpr d))

theorem copiedRegs_other (d : Byte) {n : Byte} {g : Gpr} (h : g ≠ toGpr n) (regs : Gpr → BitVec 64) :
    copiedRegs d n regs g = regs g := by
  rw [copiedRegs]
  split
  · rfl
  · exact Function.update_of_ne h _ _

/-- The first source has what the destination has. -/
theorem copiedRegs_source (d n : Byte) (regs : Gpr → BitVec 64) :
    copiedRegs d n regs (toGpr n) = regs (toGpr d) := by
  rw [copiedRegs]
  split
  · next h => rw [h]
  · exact Function.update_self _ _ _

theorem copiedRegs_dest (d n : Byte) (regs : Gpr → BitVec 64) :
    copiedRegs d n regs (toGpr d) = regs (toGpr d) := by
  by_cases h : toGpr d = toGpr n
  · rw [h, copiedRegs_source, h]
  · exact copiedRegs_other d h regs

theorem alters_copy (d n : Byte) :
    Alters (Semantics.core undef rest) (copyCode d n).length (copyCode d n).flatten (copiedRegs d n) := by
  by_cases h : d = n
  · subst h
    have hcode : copyCode d d = [] := if_pos (beq_self_eq_true d)
    have hregs : copiedRegs d d = id := by
      funext regs
      exact if_pos rfl
    rw [hcode, hregs]
    exact alters_nil
  · have hcode : copyCode d n = [movR64R64 d n] := if_neg (beq_false_of_ne h ▸ Bool.false_ne_true)
    have hregs : copiedRegs d n = fun regs ↦ Function.update regs (toGpr n) (regs (toGpr d)) := by
      funext regs
      exact if_neg h
    rw [hcode, hregs]
    exact (alters_mov undef rest d n).append alters_nil

end Arithmetic

section Widths

private theorem low_cut (v : BitVec 64) : (cut false v).setWidth 32 = v.setWidth 32 := by
  have hlow := BitVec.setWidth_setWidth_of_le (v.setWidth 32) (by decide : 32 ≤ 64)
  rwa [BitVec.setWidth_eq] at hlow

theorem cut_congr_combined (k : A64.Combination) {w : Bool} {x x' y y' : BitVec 64} (hx : cut w x = cut w x')
    (hy : cut w y = cut w y') : cut w (k.combined y x) = cut w (k.combined y' x') := by
  cases w with
  | true =>
    have hself : ∀ v : BitVec 64, cut true v = v := fun _ ↦ rfl
    rw [hself, hself] at hx hy
    rw [hx, hy]
  | false =>
    have hlow : ∀ v v' : BitVec 64, cut false v = cut false v' ↔ v.setWidth 32 = v'.setWidth 32 := by
      intro v v'
      constructor
      · intro h
        rw [← low_cut v, h, low_cut]
      · intro h
        exact congrArg (BitVec.setWidth 64) h
    rw [hlow] at hx hy ⊢
    cases k <;> simp only [A64.Combination.combined, BitVec.setWidth_and, BitVec.setWidth_or]
    · rw [BitVec.setWidth_add _ _ (by decide), BitVec.setWidth_add _ _ (by decide), hx, hy]
    · rw [BitVec.sub_eq_add_neg, BitVec.sub_eq_add_neg, BitVec.setWidth_add _ _ (by decide),
        BitVec.setWidth_add _ _ (by decide), BitVec.setWidth_neg_of_le (by decide),
        BitVec.setWidth_neg_of_le (by decide), hx, hy]
    · rw [hx, hy]
    · rw [hx, hy]
    · rw [hx, hy]
    · rw [hx, hy]

theorem cut_congr_flipped (k : A64.Combination) {w : Bool} {y y' : BitVec 64} (hy : cut w y = cut w y') :
    cut w (k.flipped y) = cut w (k.flipped y') := by
  rw [A64.Combination.flipped, A64.Combination.flipped]
  split
  · cases w with
    | true => exact congrArg (~~~ ·) hy
    | false =>
      have hnot : ∀ v : BitVec 64, cut false (~~~ v) = (~~~ (cut false v).setWidth 32).setWidth 64 := by
        intro v
        have hlow : (~~~ v).setWidth 32 = ~~~ v.setWidth 32 := BitVec.setWidth_not (by decide)
        rw [low_cut, ← hlow]
        rfl
      rw [hnot, hnot, hy]
  · exact hy

theorem combined_self_ne (k : A64.Combination) (hk : k ≠ .and ∧ k ≠ .orr) (w : Bool)
    (u : BitVec 64) : cut w (k.combined (k.flipped u) u) ≠ cut w 1 := by
  intro he
  have hbit : ∀ v : BitVec 64, (cut w v).getLsbD 0 = v.getLsbD 0 := by
    intro v
    cases w with
    | true => rfl
    | false => simp [cut]
  have hlow : (cut w (k.combined (k.flipped u) u)).getLsbD 0 = (cut w 1).getLsbD 0 := by
    rw [he]
  rw [hbit, hbit] at hlow
  cases k with
  | add =>
    have hdouble : (u + u).getLsbD 0 = false := by
      rw [BitVec.getLsbD_add (by decide)]
      simp
    have hsum : (u + u).getLsbD 0 = true := hlow
    rw [hdouble] at hsum
    cases hsum
  | sub =>
    have hdiff : (u - u).getLsbD 0 = true := hlow
    rw [BitVec.sub_self] at hdiff
    cases hdiff
  | and => exact hk.1 rfl
  | bic =>
    have hmeet : (~~~ u &&& u).getLsbD 0 = true := hlow
    simp at hmeet
  | orr => exact hk.2 rfl
  | orn =>
    have hjoin : ~~~ u ||| u = BitVec.allOnes 64 := by
      ext i hi
      simp
    have hvalue : A64.Combination.orn.combined (A64.Combination.orn.flipped u) u = BitVec.allOnes 64 := hjoin
    rw [hvalue] at he
    revert he
    cases w <;> decide

end Widths

end Arm2x86.Translate
