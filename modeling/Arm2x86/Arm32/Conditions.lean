import Arm2x86.Arm32.Model
import Arm2x86.Translate.ConditionalSelect

/-!
# Conditional execution of 32-bit words

What the jump in front of a body does with the condition of the word. The carry of the guest is kept
the other way round in the carry of the host, as the table of the conditions has it.
-/

namespace Arm2x86.X86.Semantics

variable {sem : Semantics} {code : List Byte} {lo hi : Nat} {m m' m'' : Machine}

/-- Control goes from one state through a part of the code, and comes to the other when it leaves
that part. -/
def Leaves (sem : Semantics) (code : List Byte) (lo hi : Nat) (m m' : Machine) : Prop :=
  ∃ n, sem.steps code n m = some m' ∧ ¬ (lo ≤ m'.pos ∧ m'.pos < hi) ∧
    ∀ k < n, ∃ mk, sem.steps code k m = some mk ∧ lo ≤ mk.pos ∧ mk.pos < hi

theorem leaves_refl (h : ¬ (lo ≤ m.pos ∧ m.pos < hi)) : sem.Leaves code lo hi m m :=
  ⟨0, rfl, h, fun _ hk ↦ absurd hk (Nat.not_lt_zero _)⟩

theorem leaves_step (hin : lo ≤ m.pos ∧ m.pos < hi) (hstep : sem.step code m = some m')
    (hout : ¬ (lo ≤ m'.pos ∧ m'.pos < hi)) : sem.Leaves code lo hi m m' := by
  exists 1
  refine ⟨by rw [steps, hstep]; rfl, hout, fun k hk ↦ ⟨m, ?_, hin⟩⟩
  rw [Nat.lt_one_iff.mp hk]
  rfl

/-- There is one state in which a part of the code is left. -/
theorem Leaves.unique (h : sem.Leaves code lo hi m m') (h' : sem.Leaves code lo hi m m'') :
    m'' = m' := by
  obtain ⟨n, hn, hout, hbefore⟩ := h
  obtain ⟨k, hk, hout', hbefore'⟩ := h'
  rcases Nat.lt_trichotomy n k with hlt | rfl | hgt
  · obtain ⟨mk, hmk, hin⟩ := hbefore' n hlt
    rw [hn] at hmk
    cases hmk
    exact absurd hin hout
  · exact Option.some.inj (hk.symm.trans hn)
  · obtain ⟨mk, hmk, hin⟩ := hbefore k hgt
    rw [hk] at hmk
    cases hmk
    exact absurd hin hout'

end Arm2x86.X86.Semantics

namespace Arm2x86.Arm32

open X86

section Bodies

variable {op : BitVec 32} {isLoad : Bool} {xrn : Byte} {regList : BitVec 16}

theorem multipleLoop_of_none {rs : List (BitVec 4)} {offset : BitVec 32}
    (h : ∀ r ∈ rs, regList.getLsbD r.toNat = false) :
    multipleLoop isLoad xrn regList rs offset = ([], offset) := by
  induction rs with
  | nil => rfl
  | cons r rs ih =>
    rw [List.forall_mem_cons] at h
    rw [multipleLoop, if_neg (by simp [h.1]), ih h.2]

/-- A listed register is moved first, whichever come in front of it. -/
theorem multipleLoop_of_some {rs : List (BitVec 4)} {offset : BitVec 32}
    (h : ∃ r ∈ rs, regList.getLsbD r.toNat = true) :
    ∃ r tail, (multipleLoop isLoad xrn regList rs offset).1 =
      multipleMove isLoad (mapRegisterArm32 r) xrn offset ++ tail := by
  induction rs with
  | nil =>
    obtain ⟨r, hr, -⟩ := h
    cases hr
  | cons r rs ih =>
    by_cases hr : regList.getLsbD r.toNat = true
    · rw [multipleLoop, if_pos hr]
      exact ⟨r, _, rfl⟩
    · rw [multipleLoop, if_neg hr]
      apply ih
      simpa [hr] using h

theorem multipleLoop_eq_nil_iff {rs : List (BitVec 4)} {offset : BitVec 32} :
    (multipleLoop isLoad xrn regList rs offset).1 = [] ↔
      ∀ r ∈ rs, regList.getLsbD r.toNat = false := by
  constructor
  · intro hnil
    by_contra hsome
    obtain ⟨r, tail, htail⟩ := multipleLoop_of_some (by simpa using hsome)
    rw [htail] at hnil
    cases hnil
  · intro h
    rw [multipleLoop_of_none h]

theorem length_multipleLoop_le (rs : List (BitVec 4)) (offset : BitVec 32) :
    (multipleLoop isLoad xrn regList rs offset).1.length ≤ 8 * rs.length := by
  induction rs generalizing offset with
  | nil => rfl
  | cons r rs ih =>
    rw [multipleLoop]
    split
    · have := ih (offset + 4)
      simp only [List.length_append, List.length_cons, multipleMove, imm32, List.length_nil]
      omega
    · have := ih offset
      rw [List.length_cons]
      omega

/-- No register is listed. -/
theorem regList_eq_zero_iff :
    regList = 0 ↔ ∀ r ∈ registers, regList.getLsbD r.toNat = false := by
  constructor
  · rintro rfl r -
    exact BitVec.getLsbD_zero
  · intro h
    apply BitVec.eq_of_getLsbD_eq
    intro i hi
    have hmem : BitVec.ofNat 4 i ∈ registers := List.mem_map_of_mem (List.mem_range.mpr hi)
    have hbit := h _ hmem
    rw [BitVec.toNat_ofNat, Nat.mod_eq_of_lt hi] at hbit
    exact hbit.trans BitVec.getLsbD_zero.symm

theorem translateArm32LdmStm_eq_nil_iff : translateArm32LdmStm op = [] ↔
    op.extractLsb' 0 16 = 0 ∧ (op.getLsbD 21 = false ∨ op.extractLsb' 16 4 = 15) := by
  have hupdate : ∀ xrn imm, (if op.getLsbD 21 && op.extractLsb' 16 4 != 15 then
      addR64Imm8 xrn imm else []) = [] ↔ op.getLsbD 21 = false ∨ op.extractLsb' 16 4 = 15 := by
    intro xrn imm
    cases op.getLsbD 21 <;> by_cases h : op.extractLsb' 16 4 = 15 <;> simp [h, addR64Imm8]
  rw [translateArm32LdmStm, List.append_eq_nil_iff, multipleLoop_eq_nil_iff, hupdate,
    ← regList_eq_zero_iff]

/-- The words without a body: an empty register list without an update of the base, and no register
to push or pop. -/
def Bodiless (op : BitVec 32) : Prop :=
  (op &&& 0x0e000000 = 0x08000000 ∧ op.extractLsb' 0 16 = 0 ∧
      (op.getLsbD 21 = false ∨ op.extractLsb' 16 4 = 15)) ∨
    op &&& 0x0ff000ff = 0x0c900000

instance (op : BitVec 32) : Decidable (Bodiless op) := by
  unfold Bodiless
  infer_instance

theorem dispatch_eq_ldmStm_iff : dispatch op = .ldmStm ↔ op &&& 0x0e000000 = 0x08000000 := by
  constructor
  · intro h
    unfold dispatch at h
    split_ifs at h
    assumption
  · intro h
    have hclass : Diagram.Matches ⟨0x0e000000, 0x08000000⟩ op := h
    have hfirst : ¬ Diagram.Matches ⟨0x0c000000, 0⟩ op := hclass.conflict (by decide)
    have hword : op &&& 0x0e000000 ≠ 0x04000000 := by
      rw [h]
      decide
    rw [dispatch, if_neg (fun hand ↦ hfirst hand.1), if_neg hword, if_pos h]

/-- Of the pushes and pops, only one class of words can have a count of zero: in the other class the
words with bit 4 clear are taken for loads and stores. -/
theorem dispatch_vpushVpop_iff : dispatch op = .vpushVpop ∧ op &&& 0xff = 0 ↔
    op &&& 0x0ff000ff = 0x0c900000 := by
  constructor
  · rintro ⟨h, hcount⟩
    have hlow : Diagram.Matches ⟨0xff, 0⟩ op := hcount
    have hbit : Diagram.Matches ⟨0x10, 0⟩ op := hlow.covered (by decide) (by decide)
    unfold dispatch at h
    split_ifs at h
    rename_i hmem hpush
    rcases hpush with hpush | hpush
    · have hword : Diagram.Matches ⟨0x0ff00000, 0x0d200000⟩ op := hpush
      have hload : Diagram.Matches ⟨0x0f000010, 0x0d000000⟩ op :=
        (hword.both hbit).covered (by decide) (by decide)
      exact absurd (.inl hload) hmem
    · have hword : Diagram.Matches ⟨0x0ff00000, 0x0c900000⟩ op := hpush
      exact hword.both hlow
  · intro h
    have hword : Diagram.Matches ⟨0x0ff000ff, 0x0c900000⟩ op := h
    have hpush : Diagram.Matches ⟨0x0ff00000, 0x0c900000⟩ op := hword.covered (by decide) (by decide)
    have hlow : Diagram.Matches ⟨0xff, 0⟩ op := hword.covered (by decide) (by decide)
    have fails : ∀ d : Diagram 32, 0x0c900000 &&& d.mask ≠ d.bits &&& 0x0ff000ff →
        ¬ op &&& d.mask = d.bits := fun d ↦ hword.conflict
    have h1 : op &&& 0x0c000000 ≠ 0 := fails ⟨_, _⟩ (by decide)
    have h2 : op &&& 0x0e000000 ≠ 0x04000000 := fails ⟨_, _⟩ (by decide)
    have h3 : op &&& 0x0e000000 ≠ 0x08000000 := fails ⟨_, _⟩ (by decide)
    have h4 : op &&& 0x0e000000 ≠ 0x0a000000 := fails ⟨_, _⟩ (by decide)
    have h5 : op &&& 0x0f000000 ≠ 0x0e000000 := fails ⟨_, _⟩ (by decide)
    have h6 : op &&& 0x0f000010 ≠ 0x0d000000 := fails ⟨_, _⟩ (by decide)
    have h7 : op &&& 0x0f000010 ≠ 0x0c000010 := fails ⟨_, _⟩ (by decide)
    refine ⟨?_, hlow⟩
    rw [dispatch, if_neg (fun hand ↦ h1 hand.1), if_neg h2, if_neg h3, if_neg h4,
      if_neg (fun hand ↦ h5 hand.1), if_neg (not_or.mpr ⟨h6, h7⟩), if_pos (.inr hpush)]

theorem vpushVpopOne_ne_nil (isPush : Bool) (xvd size : Byte) :
    vpushVpopOne isPush xvd size ≠ [] := by
  cases isPush <;> simp [vpushVpopOne]

theorem length_vpushVpopOne (isPush : Bool) (xvd size : Byte) :
    (vpushVpopOne isPush xvd size).length = 9 := by
  cases isPush <;> rfl

theorem translateArm32VpushVpop_eq_nil_iff : translateArm32VpushVpop op = [] ↔ op &&& 0xff = 0 := by
  have hcount : (op.extractLsb' 0 8).toNat = 0 ↔ op &&& 0xff = 0 := by
    rw [← BitVec.toNat_inj, BitVec.extractLsb'_toNat, BitVec.toNat_and]
    show _ ↔ op.toNat &&& (2 ^ 8 - 1) = 0
    rw [Nat.and_two_pow_sub_one_eq_mod, Nat.shiftRight_zero]
  rw [← hcount]
  simp only [translateArm32VpushVpop, List.flatMap_eq_nil_iff, List.mem_range]
  constructor
  · intro h
    by_contra hpos
    exact vpushVpopOne_ne_nil _ _ _ (h 0 (by omega))
  · intro h i hi
    omega

theorem length_translateArm32VpushVpop :
    (translateArm32VpushVpop op).length = 9 * (op.extractLsb' 0 8).toNat := by
  simp [translateArm32VpushVpop, length_vpushVpopOne, Nat.mul_comm]

theorem length_translateArm32LdmStm_le : (translateArm32LdmStm op).length ≤ 132 := by
  have hloop : ∀ xrn, (multipleLoop (op.getLsbD 20) xrn (op.extractLsb' 0 16) registers 0).1.length ≤
      128 := fun xrn ↦ length_multipleLoop_le registers 0
  have hupdate : ∀ xrn imm, (if op.getLsbD 21 && op.extractLsb' 16 4 != 15 then
      addR64Imm8 xrn imm else []).length ≤ 4 := by
    intro xrn imm
    split <;> simp [addR64Imm8]
  rw [translateArm32LdmStm, List.length_append]
  exact Nat.add_le_add (hloop _) (hupdate _ _)

theorem length_translateArm32Dp :
    0 < (translateArm32Dp op).length ∧ (translateArm32Dp op).length ≤ 64 := by
  unfold translateArm32Dp translateArm32DpImm translateArm32DpReg
  dsimp only
  split
  · split <;> simp [movR64R64, addR64R64, andR64R64, xorR64R64, regReg, cmpR64Imm32, imm32, imm64,
      movR64Imm, bic, notR64, unaryR64]
  · split <;> simp [movR64R64, addR64R64, subR64R64, andR64R64, regReg, cmpR64R64, adcR64R64,
      sbbR64R64, bic, notR64, negR64, unaryR64]

theorem length_translateArm32Vfp :
    0 < (translateArm32Vfp op).length ∧ (translateArm32Vfp op).length ≤ 64 := by
  unfold translateArm32Vfp
  dsimp only
  split <;> simp [scalar]

theorem length_translateArm32Ldst :
    0 < (translateArm32Ldst op).length ∧ (translateArm32Ldst op).length ≤ 64 := by
  unfold translateArm32Ldst
  dsimp only
  split_ifs <;> simp [imm32]

theorem length_translateArm32Mul (isMla : Bool) :
    0 < (translateArm32Mul op isMla).length ∧ (translateArm32Mul op isMla).length ≤ 64 := by
  cases isMla <;> simp [translateArm32Mul, movR64R64, addR64R64, imulR64R64, regReg]

theorem length_translateArm32Branch :
    0 < (translateArm32Branch op).length ∧ (translateArm32Branch op).length ≤ 64 := by
  unfold translateArm32Branch
  dsimp only
  split_ifs <;> simp [emitCall, emitJmp, imm32]

theorem length_translateArm32Bx (isBlx : Bool) :
    0 < (translateArm32Bx op isBlx).length ∧ (translateArm32Bx op isBlx).length ≤ 64 := by
  cases isBlx <;> simp [translateArm32Bx, emitCallReg, emitJmpReg]

/-- The classes that do not go through a list of registers have a body of a few bytes. -/
theorem length_body_of_single (h : dispatch op ≠ .ldmStm) (h' : dispatch op ≠ .vpushVpop) :
    0 < (body op).length ∧ (body op).length ≤ 64 := by
  unfold body
  cases hclass : dispatch op with
  | mul => exact length_translateArm32Mul _
  | dp => exact length_translateArm32Dp
  | ldst => exact length_translateArm32Ldst
  | ldmStm => exact absurd hclass h
  | branch => exact length_translateArm32Branch
  | vfma => simp [translateArm32Vfma, fused, scalar]
  | vfms => simp [translateArm32Vfms, fused, scalar]
  | vfp => exact length_translateArm32Vfp
  | vldrVstr => simp [translateArm32VldrVstr]
  | vpushVpop => exact absurd hclass h'
  | bx => exact length_translateArm32Bx _
  | svc => simp [emitSyscall]
  | other => simp

theorem body_of_ldmStm (h : dispatch op = .ldmStm) : body op = translateArm32LdmStm op := by
  rw [body, h]

theorem body_of_vpushVpop (h : dispatch op = .vpushVpop) : body op = translateArm32VpushVpop op := by
  rw [body, h]

theorem length_body_lt (op : BitVec 32) : (body op).length < 2 ^ 12 := by
  by_cases h : dispatch op = .ldmStm
  · have hlen : (translateArm32LdmStm op).length ≤ 132 := length_translateArm32LdmStm_le
    rw [body_of_ldmStm h]
    omega
  · by_cases h' : dispatch op = .vpushVpop
    · have hcount := (op.extractLsb' 0 8).isLt
      rw [body_of_vpushVpop h', length_translateArm32VpushVpop]
      omega
    · have hlen := length_body_of_single h h'
      omega

theorem body_eq_nil_iff : body op = [] ↔ Bodiless op := by
  rw [Bodiless, ← dispatch_eq_ldmStm_iff, ← dispatch_vpushVpop_iff]
  by_cases h : dispatch op = .ldmStm
  · simp [body_of_ldmStm h, translateArm32LdmStm_eq_nil_iff, h]
  · by_cases h' : dispatch op = .vpushVpop
    · simp [body_of_vpushVpop h', translateArm32VpushVpop_eq_nil_iff, h']
    · have hlen := (length_body_of_single h h').1
      simp [List.ne_nil_of_length_pos hlen, h, h']

end Bodies

section Blocks

variable {blk : Translate.Block}

/-- The offset of the code of a word. -/
def wordStart (blk : Translate.Block) (k : Nat) : Nat := (convertWords blk k).length

/-- The offset of the body of a word. -/
def bodyStart (blk : Translate.Block) (k : Nat) : Nat :=
  wordStart blk k + (prologue (blk.word k)).length

theorem convertWords_succ (blk : Translate.Block) (k : Nat) :
    convertWords blk (k + 1) = convertWords blk k ++ translateWord (blk.word k) := by
  simp [convertWords, List.range_succ]

/-- The code of a word ends where that of the next one starts. -/
theorem wordStart_succ (blk : Translate.Block) (k : Nat) :
    wordStart blk (k + 1) = bodyStart blk k + (body (blk.word k)).length := by
  simp [wordStart, bodyStart, convertWords_succ, translateWord, Nat.add_assoc]

theorem convertWords_prefix {k n : Nat} (h : k ≤ n) : convertWords blk k <+: convertWords blk n := by
  induction n, h using Nat.le_induction with
  | base => exact List.prefix_rfl
  | succ n _ ih =>
    rw [convertWords_succ]
    exact ih.trans (List.prefix_append _ _)

/-- The code of a word stands at its offset. -/
theorem at_wordStart {k : Nat} (h : k < wordCount blk.size) :
    At (convertBlockArm32 blk) (wordStart blk k) (translateWord (blk.word k)) := by
  have hprefix : convertWords blk (k + 1) <+: convertWords blk (wordCount blk.size) :=
    convertWords_prefix (Nat.succ_le_of_lt h)
  obtain ⟨tail, htail⟩ := hprefix
  rw [convertWords_succ, List.append_assoc] at htail
  exists tail
  rw [convertBlockArm32, ← htail, wordStart, List.drop_left]

end Blocks

section Control

variable (undef : Instr → Machine → Status) (rest : Instr → Machine → Option Machine)

/-- Whether the condition of a word holds. -/
def condHolds (cond : BitVec 4) (f : A64.Nzcv) : Bool := cond != condNv && A64.condHolds cond f

@[simp] theorem condHolds_condAl (f : A64.Nzcv) : condHolds condAl f = true := by
  have hal : ¬ (14 : BitVec 4) < 14 := by decide
  exact Translate.condHolds_always hal f

@[simp] theorem condHolds_condNv (f : A64.Nzcv) : condHolds condNv f = false := rfl

theorem condHolds_of_lt {cond : BitVec 4} (h : cond ≠ condNv) (f : A64.Nzcv) :
    condHolds cond f = A64.condHolds cond f := by
  rw [condHolds, bne_iff_ne.mpr h, Bool.true_and]

/-- Where control comes to behind the prologue: to the body under the conditions that are not
tested, and under the others if the condition fails. -/
def prologueTarget (blk : Translate.Block) (k : Nat) (m : Machine) : Nat :=
  if getCond (blk.word k) < condAl ∧
      A64.condHolds (getCond (blk.word k)) (Translate.nzcvOf m.status) then wordStart blk (k + 1)
  else bodyStart blk k

theorem cond_cases (cond : BitVec 4) :
    cond = condAl ∨ cond = condNv ∨ cond < condAl ∧ cond ≠ condAl ∧ cond ≠ condNv := by
  have key : ∀ c : BitVec 4, c = condAl ∨ c = condNv ∨ c < condAl ∧ c ≠ condAl ∧ c ≠ condNv := by
    decide
  exact key cond

/-- The conditions that are tested hold together on both sides. -/
theorem holds_arm32ToX86Cond {cond : BitVec 4} (h : cond < condAl) (s : Status) :
    s.holds ((arm32ToX86Cond cond).extractLsb' 0 4) = A64.condHolds cond (Translate.nzcvOf s) := by
  have htable : ∀ c : BitVec 4, c < condAl → arm32ToX86Cond c = Translate.arm64ToX86Cond c := by
    decide
  rw [htable cond h]
  exact Translate.holds_hostCond h s

theorem arm32ToX86Cond_jcc {cond : BitVec 4} (h : cond < condAl) :
    arm32ToX86Cond cond &&& 0xf0 = 0x80 := by
  have key : ∀ c : BitVec 4, c < condAl → arm32ToX86Cond c &&& 0xf0 = 0x80 := by decide
  exact key cond h

theorem leaves_prologue (blk : Translate.Block) {k : Nat} (h : k < wordCount blk.size) (m : Machine) :
    (Semantics.core undef rest).Leaves (convertBlockArm32 blk) (wordStart blk k) (bodyStart blk k)
      { m with pos := wordStart blk k } { m with pos := prologueTarget blk k m } := by
  have hat := (at_wordStart h).left
  have hnext := wordStart_succ blk k
  rcases cond_cases (getCond (blk.word k)) with hcond | hcond | ⟨hcond, hal, hnv⟩
  · have hempty : prologue (blk.word k) = [] := by rw [prologue, condPrologue, if_pos hcond]
    have htarget : prologueTarget blk k m = wordStart blk k := by
      rw [prologueTarget, hcond, if_neg (fun hand ↦ absurd hand.1 (by decide)), bodyStart, hempty]
      rfl
    rw [htarget]
    apply Semantics.leaves_refl
    rw [bodyStart, hempty]
    simp
  · have hnop : prologue (blk.word k) = [0x90] := by
      rw [prologue, condPrologue, if_neg (by rw [hcond]; decide), if_pos hcond]
    have htarget : prologueTarget blk k m = wordStart blk k + 1 := by
      rw [prologueTarget, hcond, if_neg (fun hand ↦ absurd hand.1 (by decide)), bodyStart, hnop]
      rfl
    rw [hnop] at hat
    rw [htarget]
    apply Semantics.leaves_step
    · simp [bodyStart, hnop]
    · exact Semantics.step_chunk ⟨[0x90], .nop, fun _ ↦ rfl⟩ hat
    · simp [bodyStart, hnop]
  · have hjcc : prologue (blk.word k) = 0x0f :: arm32ToX86Cond (getCond (blk.word k)) ::
        imm32 (BitVec.ofNat 32 (body (blk.word k)).length) := by
      rw [prologue, condPrologue, if_neg hal, if_neg hnv]
    have hbody : bodyStart blk k = wordStart blk k + 6 := by rw [bodyStart, hjcc]; rfl
    have hlen : (body (blk.word k)).length < 2 ^ 31 :=
      (length_body_lt _).trans (by decide)
    rw [hjcc] at hat
    have hstep := step_jcc undef rest (m := { m with pos := wordStart blk k })
      (arm32ToX86Cond_jcc hcond) hlen hat
    have htarget : prologueTarget blk k m = wordStart blk k + 6 +
        if m.status.holds ((arm32ToX86Cond (getCond (blk.word k))).extractLsb' 0 4) then
          (body (blk.word k)).length else 0 := by
      rw [prologueTarget, holds_arm32ToX86Cond hcond]
      cases A64.condHolds (getCond (blk.word k)) (Translate.nzcvOf m.status) <;>
        simp [hcond, hnext, hbody]
    rw [htarget]
    apply Semantics.leaves_step
    · simp [hbody]
    · exact hstep
    · simp [hbody]

/-- The body of a word is executed exactly when its condition holds: from the start of the word
control comes through the prologue to the body if the condition holds, and to the code of the next
word if it does not, and nothing else has changed by then. -/
def ExecutesConditionally (blk : Translate.Block) (k : Nat) (m : Machine) : Prop :=
  (Semantics.core undef rest).Leaves (convertBlockArm32 blk) (wordStart blk k) (bodyStart blk k)
    { m with pos := wordStart blk k }
    { m with pos :=
        if condHolds (getCond (blk.word k)) (Translate.nzcvOf m.status) then bodyStart blk k
        else wordStart blk (k + 1) }

/-- Control comes to one place only, so the property says which place that is. -/
theorem executesConditionally_iff_target (blk : Translate.Block) {k : Nat}
    (hk : k < wordCount blk.size) (m : Machine) : ExecutesConditionally undef rest blk k m ↔
      prologueTarget blk k m =
        if condHolds (getCond (blk.word k)) (Translate.nzcvOf m.status) then bodyStart blk k
        else wordStart blk (k + 1) := by
  have hleaves := leaves_prologue undef rest blk hk m
  constructor
  · intro h
    exact congrArg Machine.pos (h.unique hleaves)
  · intro h
    rw [ExecutesConditionally, ← h]
    exact hleaves

end Control

end Arm2x86.Arm32
