import Arm2x86.Arm32.Conditions
import Arm2x86.Thumb.Segmentation
import Arm2x86.Translate.OutputBound

/-!
# How long a 32-bit translation gets

The greatest lengths that `arm2x86_convert_block_arm32` and `arm2x86_convert_block_thumb` put out.
Neither stops at a number of instructions, so they grow with the block: by the 255 registers that a
`VPUSH` can name, and by the eight of a `PUSH`.
-/

namespace Arm2x86

open X86

namespace Arm32

theorem length_condPrologue_le (cond : BitVec 4) (n : Nat) : (condPrologue cond n).length ≤ 6 := by
  unfold condPrologue
  split_ifs <;> simp [imm32]

theorem length_body_le (op : BitVec 32) : (body op).length ≤ 2295 := by
  by_cases h : dispatch op = .ldmStm
  · have hlen : (translateArm32LdmStm op).length ≤ 132 := length_translateArm32LdmStm_le
    rw [body_of_ldmStm h]
    omega
  · by_cases h' : dispatch op = .vpushVpop
    · have hcount := (op.extractLsb' 0 8).isLt
      rw [body_of_vpushVpop h', length_translateArm32VpushVpop]
      omega
    · have hlen := length_body_of_single h h'
      omega

theorem length_translateWord_le (op : BitVec 32) : (translateWord op).length ≤ 2301 := by
  have hcond := length_condPrologue_le (getCond op) (body op).length
  have hbody := length_body_le op
  rw [translateWord, List.length_append, prologue]
  omega

/-- `VPOPEQ` of 255 registers. -/
theorem length_translateWord_vpop : (translateWord 0x0d2000ff).length = 2301 := by
  have hdispatch : dispatch 0x0d2000ff = .vpushVpop := by decide
  have hbody : (body 0x0d2000ff).length = 2295 := by
    rw [body_of_vpushVpop hdispatch, length_translateArm32VpushVpop]
    rfl
  have hcond : ∀ n, (condPrologue (getCond 0x0d2000ff) n).length = 6 := fun n ↦ rfl
  rw [translateWord, List.length_append, prologue, hcond, hbody]

theorem length_convertWords_le (blk : Translate.Block) (n : Nat) :
    (convertWords blk n).length ≤ 2301 * n := by
  induction n with
  | zero => exact Nat.le_refl 0
  | succ n ih =>
    have hword := length_translateWord_le (blk.word n)
    rw [convertWords_succ, List.length_append]
    omega

theorem length_convertWords_repeating (m n : Nat) :
    (convertWords (Translate.Block.repeating 0x0d2000ff m) n).length = 2301 * n := by
  induction n with
  | zero => rfl
  | succ n ih =>
    rw [convertWords_succ, List.length_append, ih, Translate.repeating_word,
      length_translateWord_vpop]
    omega

/-- The greatest length of the translation of `n` bytes of ARM code. -/
theorem isGreatest_length_convertBlockArm32 (n : Nat) :
    IsGreatest {l | ∃ blk : Translate.Block, blk.size = n ∧ (convertBlockArm32 blk).length = l}
      (2301 * wordCount n) := by
  constructor
  · exact ⟨Translate.Block.repeating 0x0d2000ff n, rfl, length_convertWords_repeating n _⟩
  · rintro l ⟨blk, rfl, rfl⟩
    exact length_convertWords_le blk _

end Arm32

namespace Thumb

open Arm32 (regAt mapRegisterArm32 registers)

section Narrow

variable (op16 : BitVec 16)

theorem length_stackList_le (opcode ext : Byte) (order : List Nat) :
    (stackList opcode ext op16 order).length ≤ 4 * (order.filter ((op16 &&& 0xff).getLsbD ·)).length := by
  induction order with
  | nil => exact Nat.le_refl 0
  | cons r order ih =>
    rw [stackList] at ih ⊢
    rw [List.flatMap_cons, List.length_append, List.filter_cons]
    split
    · simp only [List.length_cons, List.length_nil]
      omega
    · rw [List.length_nil, Nat.zero_add]
      exact ih

/-- The list of registers has eight bits. -/
theorem length_listed_le :
    ((List.range 16).filter ((op16 &&& 0xff).getLsbD ·)).length ≤ 8 := by
  have hlow : ∀ r ∈ List.range 16, (op16 &&& 0xff).getLsbD r = true → r ∈ List.range 8 := by
    intro r hr hbit
    rw [List.mem_range] at hr ⊢
    by_contra hge
    have hmask : (0xff : BitVec 16).getLsbD r = false := by
      have key : ∀ r : Fin 16, 8 ≤ r.val → (0xff : BitVec 16).getLsbD r = false := by decide
      exact key ⟨r, hr⟩ (by simpa using hge)
    rw [BitVec.getLsbD_and, hmask, Bool.and_false] at hbit
    cases hbit
  have hsub : (List.range 16).filter ((op16 &&& 0xff).getLsbD ·) ⊆ List.range 8 := by
    intro r hr
    rw [List.mem_filter] at hr
    exact hlow r hr.1 hr.2
  have hnodup : ((List.range 16).filter ((op16 &&& 0xff).getLsbD ·)).Nodup :=
    List.nodup_range.filter _
  exact (List.subperm_of_subset hnodup hsub).length_le.trans (by simp)

theorem length_byteAccess_le : (byteAccess op16).length ≤ 32 := by
  unfold byteAccess
  dsimp only
  split <;> simp

/-- A chain of tests, one code after the other. -/
theorem length_ite_fst_le {p : Prop} [Decidable p] {t u : List Byte × Nat} {n : Nat}
    (hthen : t.1.length ≤ n) (helse : u.1.length ≤ n) : (if p then t else u).1.length ≤ n := by
  split
  · exact hthen
  · exact helse

theorem length_translateThumb16_le : (translateThumb16 op16).1.length ≤ 32 := by
  have hpush : (stackList 0xff 6 op16 (List.range 16).reverse).length ≤ 32 := by
    have hlen := length_stackList_le op16 0xff 6 (List.range 16).reverse
    have hlisted := length_listed_le op16
    rw [List.filter_reverse, List.length_reverse] at hlen
    omega
  have hpop : (stackList 0x8f 0 op16 (List.range 16)).length ≤ 32 := by
    have hlen := length_stackList_le op16 0x8f 0 (List.range 16)
    have hlisted := length_listed_le op16
    omega
  unfold translateThumb16
  repeat' apply length_ite_fst_le
  all_goals first
    | exact hpush
    | exact hpop
    | exact length_byteAccess_le op16
    | simp [immediateByte, wordAccess, emitJmp, emitSyscall]
  split_ifs <;> simp [emitCallReg, emitJmpReg]

end Narrow

section Wide

variable (op32 : BitVec 32) (opcode x y : Byte)

theorem length_wordDisp_le (disp : BitVec 32) : (wordDisp opcode x y disp).length ≤ 7 :=
  Nat.add_le_add_right (Translate.length_emitModrmDisp_le _ _ disp) 2

/-- A small displacement takes a byte. -/
theorem length_wordDisp_small_le {disp : BitVec 32} (h : disp.toNat < 128) :
    (wordDisp opcode x y disp).length ≤ 4 := by
  have hsmall : ((-128#32).sle disp && disp.sle 127#32) = true := by
    have hint : disp.toInt = disp.toNat := BitVec.toInt_eq_toNat_of_lt (by omega)
    rw [Bool.and_eq_true, BitVec.sle, BitVec.sle, hint]
    exact ⟨by simp, by simp; omega⟩
  rw [wordDisp, emitModrmDisp, hsmall]
  simp only [List.length_cons, Translate.length_ite, if_true, List.length_nil]
  split_ifs <;> omega

theorem length_multipleLoop_le (regList : BitVec 16) (rs : List (BitVec 4)) (offset : BitVec 32)
    (h : offset.toNat + 8 * rs.length ≤ 128) :
    (multipleLoop opcode x regList rs offset).1.length ≤ 4 * rs.length := by
  induction rs generalizing offset with
  | nil => exact Nat.le_refl 0
  | cons r rs ih =>
    rw [List.length_cons] at h ⊢
    rw [multipleLoop]
    split
    · have hnext : (offset + 8).toNat = offset.toNat + 8 := by
        rw [BitVec.toNat_add]
        exact Nat.mod_eq_of_lt (by change offset.toNat + 8 < 2 ^ 32; omega)
      have hrest := ih (offset + 8) (by omega)
      have hfirst := length_wordDisp_small_le opcode (mapRegisterArm32 r) x (show offset.toNat < 128 by omega)
      simp only [List.length_append]
      omega
    · have hrest := ih offset (by omega)
      omega

/-- The branches of `LDMIA` and `STMIA` are reached without the bit for the write-back. -/
theorem length_accessMultiple_le (h : op32.getLsbD 21 = false) :
    (accessMultiple opcode op32).length ≤ 64 := by
  have hloop := length_multipleLoop_le opcode (regAt op32 16) (op32.extractLsb' 0 16) registers 0
    (by decide)
  have hcount : registers.length = 16 := by decide
  rw [hcount] at hloop
  unfold accessMultiple
  dsimp only
  rw [h, List.length_append]
  simp only [Bool.false_eq_true, if_false, List.length_nil]
  omega

theorem length_group81 (pre ext : Byte) (imm : BitVec 32) : (group81 pre ext x imm).length = 7 := rfl

theorem length_moveImm32 (pre : Byte) (imm : BitVec 32) : (moveImm32 pre x imm).length = 6 := rfl

theorem length_shiftBy (pre ext amount : Byte) : (shiftBy pre ext x amount).length = 4 := rfl

theorem length_clampTo (cmov : Byte) (bound : BitVec 32) : (clampTo cmov x bound).length = 20 := rfl

theorem length_branchWide_le : (branchWide op32).length ≤ 64 := by
  unfold branchWide
  dsimp only
  split_ifs <;> simp [emitCall, emitJmp]

theorem length_bitFieldInsert_le : (bitFieldInsert op32).length ≤ 64 := by
  unfold bitFieldInsert
  dsimp only
  split
  · simp
  · simp [length_moveImm32, length_shiftBy]

theorem length_bitFieldClear_le : (bitFieldClear op32).length ≤ 64 := by
  unfold bitFieldClear
  dsimp only
  split
  · simp
  · simp [length_group81]

theorem length_signedExtract_le : (signedExtract op32).length ≤ 64 := by
  unfold signedExtract
  dsimp only
  split_ifs <;> simp [length_shiftBy]

theorem length_unsignedExtract_le (shl : Int → BitVec 64) : (unsignedExtract shl op32).length ≤ 64 := by
  unfold unsignedExtract
  dsimp only
  split_ifs <;> simp [length_shiftBy, length_group81]

theorem length_accessImm12_le : (accessImm12 opcode op32).length ≤ 64 :=
  (length_wordDisp_le _ _ _ _).trans (by omega)

theorem length_accessDual_le : (accessDual opcode op32).length ≤ 64 := by
  have hfirst := length_wordDisp_le opcode (regAt op32 0) (regAt op32 16)
    ((op32.extractLsb' 4 8).setWidth 32 * 4)
  have hsecond := length_wordDisp_le opcode (regAt op32 12) (regAt op32 16)
    ((op32.extractLsb' 4 8).setWidth 32 * 4 + 4)
  rw [accessDual, List.length_append]
  omega

/-- A chain of tests, one translation after the other. -/
theorem length_ite_code_le {p : Prop} [Decidable p] {t u : Translated} {n : Nat}
    (hthen : p → t.code.length ≤ n) (helse : ¬ p → u.code.length ≤ n) :
    (if p then t else u).code.length ≤ n := by
  split
  · next h => exact hthen h
  · next h => exact helse h

theorem length_translateThumb32_le (shl : Int → BitVec 64) (it : ItState) :
    (translateThumb32 shl it op32).code.length ≤ 64 := by
  have hwriteback : ∀ v, op32 &&& 0xfff00000 = v → v.getLsbD 21 = false → op32.getLsbD 21 = false := by
    rintro v rfl h
    simpa using h
  unfold translateThumb32
  repeat' apply length_ite_code_le <;> intro _
  all_goals dsimp only
  all_goals first
    | with_reducible exact length_accessMultiple_le op32 _ (hwriteback _ ‹_› (by decide))
    | with_reducible exact length_accessImm12_le op32 _
    | with_reducible exact length_branchWide_le op32
    | with_reducible exact length_accessDual_le op32 _
    | with_reducible exact length_bitFieldInsert_le op32
    | with_reducible exact length_bitFieldClear_le op32
    | with_reducible exact length_signedExtract_le op32
    | with_reducible exact length_unsignedExtract_le op32 shl
    | exact Nat.le_of_ble_eq_true rfl

end Wide

section Stream

theorem length_code_le (shl : Int → BitVec 64) (u : Segment) : (u.code shl).length ≤ 16 * u.size := by
  cases u with
  | narrow h => exact length_translateThumb16_le h
  | wide h h' => exact length_translateThumb32_le (h ++ h') shl .reset
  | truncated h => exact Nat.le_of_ble_eq_true rfl

/-- What the driver puts out, by the units of the stream. -/
theorem convertBlockThumb_out (shl : Int → BitVec 64) (buf : List Byte) :
    (convertBlockThumb shl buf).map Driver.out = some ((segments buf).flatMap (Segment.code shl)) := by
  have hcount := two_mul_length_segments_le buf
  rw [convertBlockThumb, Driver.start, loop_segments shl rfl (by rw [List.drop_zero]; omega) []]
  rfl

theorem length_flatMap_code_le (shl : Int → BitVec 64) (us : List Segment) :
    (us.flatMap (Segment.code shl)).length ≤ 16 * (us.map Segment.size).sum := by
  induction us with
  | nil => exact Nat.le_refl 0
  | cons u us ih =>
    have hfirst := length_code_le shl u
    rw [List.flatMap_cons, List.length_append, List.map_cons, List.sum_cons]
    omega

/-- The units take an even number of bytes. -/
theorem sum_size_le (bs : List Byte) : ((segments bs).map Segment.size).sum ≤ 2 * (bs.length / 2) := by
  fun_induction segments bs with
  | case1 b₀ b₁ b₂ b₃ bs hwide ih =>
    simp only [List.map_cons, List.sum_cons, Segment.size, List.length_cons]
    omega
  | case2 b₀ b₁ b₂ b₃ bs hnarrow ih =>
    simp only [List.map_cons, List.sum_cons, Segment.size, List.length_cons] at ih ⊢
    omega
  | case3 b₀ b₁ bs h =>
    simp only [List.map_cons, List.map_nil, List.sum_cons, List.sum_nil, List.length_cons]
    split <;> simp only [Segment.size] <;> omega
  | case4 => exact Nat.zero_le _

/-- `PUSH` of eight registers, over and over. -/
def pushes : Nat → List Byte
  | 0 => []
  | 1 => [0xff]
  | n + 2 => 0xff :: 0xb4 :: pushes n

theorem length_pushes (n : Nat) : (pushes n).length = n := by
  fun_induction pushes n with
  | case1 => rfl
  | case2 => rfl
  | case3 n ih => simp [ih]

theorem length_segments_pushes (shl : Int → BitVec 64) (n : Nat) :
    ((segments (pushes n)).flatMap (Segment.code shl)).length = 32 * (n / 2) := by
  have hpush : (translateThumb16 0xb4ff).1.length = 32 := by decide
  fun_induction pushes n with
  | case1 => rfl
  | case2 => rfl
  | case3 n ih =>
    have hsegments : segments (0xff :: 0xb4 :: pushes n) = .narrow 0xb4ff :: segments (pushes n) := by
      match n with
      | 0 => rfl
      | 1 => rfl
      | n + 2 => rfl
    rw [hsegments, List.flatMap_cons, List.length_append, Segment.code, hpush, ih]
    omega

theorem length_convertBlockThumb_le {shl : Int → BitVec 64} {buf : List Byte} {d : Driver}
    (h : convertBlockThumb shl buf = some d) : d.out.length ≤ 32 * (buf.length / 2) := by
  have hout := convertBlockThumb_out shl buf
  rw [h, Option.map_some, Option.some.injEq] at hout
  have hcode := length_flatMap_code_le shl (segments buf)
  have hsize := sum_size_le buf
  rw [hout]
  omega

/-- The greatest length of the translation of `n` bytes of Thumb code. -/
theorem isGreatest_length_convertBlockThumb (shl : Int → BitVec 64) (n : Nat) :
    IsGreatest {l | ∃ buf d, buf.length = n ∧ convertBlockThumb shl buf = some d ∧ d.out.length = l}
      (32 * (n / 2)) := by
  constructor
  · obtain ⟨d, hd, hout⟩ := Option.map_eq_some_iff.mp (convertBlockThumb_out shl (pushes n))
    exact ⟨pushes n, d, length_pushes n, hd, hout ▸ length_segments_pushes shl n⟩
  · rintro l ⟨buf, d, rfl, hd, rfl⟩
    exact length_convertBlockThumb_le hd

end Stream

end Thumb

end Arm2x86
