import Arm2x86.Peephole.Meaning

/-!
# Which rewrites are right

Each rule with what it finds, what it puts there, and when that is right.
-/

namespace Arm2x86.Peephole

open X86 Rewriting

section Bytes

variable {b : Byte}

theorem and_seven (b : Byte) : b &&& 7 = (X86.rmField b).setWidth 8 := by
  revert b
  decide

theorem rmField_48 (b : Byte) : rmField 0x48 b = (X86.rmField b).setWidth 8 := by
  revert b
  decide

theorem not_high (f : BitVec 3) : ¬ (8 : Byte) ≤ f.setWidth 8 := by
  revert f
  decide

theorem field_inj {f f' : BitVec 3} (h : (f.setWidth 8 : Byte) = f'.setWidth 8) : f = f' := by
  revert f f'
  decide

theorem lowGpr_inj {f f' : BitVec 3} (h : lowGpr f = lowGpr f') : f = f' := by
  revert f f'
  decide

theorem eq_movOpcode (h : b &&& 0xf8#8 = 0xb8#8) : b = 0xb8 + (X86.rmField b).setWidth 8 := by
  revert b
  decide

theorem movOpcode_eq_iff (h : b &&& 0xf8#8 = 0xb8#8) : X86.rmField b = 0 ↔ b = 0xb8 := by
  revert b
  decide

/-- The ModRM byte that is written for a register. -/
theorem modrm_fields (f : BitVec 3) : modField (0xc0 ||| f.setWidth 8) = 3 ∧
    X86.regField (0xc0 ||| f.setWidth 8) = 0 ∧ X86.rmField (0xc0 ||| f.setWidth 8) = f := by
  revert f
  decide

theorem extension_fields {ext : BitVec 3} (h : isExtension (ext.setWidth 8) b = true) :
    modField b = 3 ∧ X86.regField b = ext := by
  revert ext b
  decide

theorem selfMode_fields (h : (b >>> 6 == 3 && b &&& 7 == b >>> 3 &&& 7) = true) :
    modField b = 3 ∧ X86.regField b = X86.rmField b := by
  revert b
  decide

theorem imm64_leNat {bs : List Byte} (h : bs.length = 8) : imm64 (BitVec.ofNat 64 (leNat bs)) = bs := by
  have hbytes : ∀ n, imm64 (BitVec.ofNat 64 n) = leBytes 8 n := by
    intro n
    simp only [imm64, leBytes, List.cons.injEq, and_true]
    refine ⟨?_, ?_, ?_, ?_, ?_, ?_, ?_, ?_⟩ <;>
    · apply BitVec.eq_of_toNat_eq
      simp only [BitVec.extractLsb'_toNat, BitVec.toNat_ofNat, Nat.shiftRight_eq_div_pow]
      omega
  rw [hbytes, ← h, leBytes_leNat]

theorem imm32_leNat {bs : List Byte} (h : bs.length = 4) : imm32 (BitVec.ofNat 32 (leNat bs)) = bs := by
  have hbytes : ∀ n, imm32 (BitVec.ofNat 32 n) = leBytes 4 n := by
    intro n
    simp only [imm32, leBytes, List.cons.injEq, and_true]
    refine ⟨?_, ?_, ?_, ?_⟩ <;>
    · apply BitVec.eq_of_toNat_eq
      simp only [BitVec.extractLsb'_toNat, BitVec.toNat_ofNat, Nat.shiftRight_eq_div_pow]
      omega
  rw [hbytes, ← h, leBytes_leNat]

end Bytes

section Matches

variable {p : Nat → Byte} {reg imm : Byte}

theorem isXorZero_some (h : (isXorZero.run p).1 = some reg) :
    ∃ b, modField b = 3 ∧ X86.regField b = X86.rmField b ∧ reg = (X86.rmField b).setWidth 8 ∧
      (p 0 = 0x48 ∧ p 1 = 0x31 ∧ p 2 = b ∨ p 0 = 0x31 ∧ p 1 = b) := by
  unfold isXorZero at h
  simp only [run_bind, run_ite, run_pure, apply_ite Prod.fst] at h
  split_ifs at h with h48 h31 hself h31 hself
  · have h48 := beq_iff_eq.mp h48
    obtain ⟨hmod, hreg⟩ := selfMode_fields (Bool.and_eq_true_iff.mp hself).1
    refine ⟨p 2, hmod, hreg, ?_, Or.inl ⟨h48, beq_iff_eq.mp h31, rfl⟩⟩
    rw [← Option.some.inj h, h48, rmField_48]
  · obtain ⟨hmod, hreg⟩ := selfMode_fields hself
    refine ⟨p 1, hmod, hreg, ?_, Or.inr ⟨beq_iff_eq.mp h31, rfl⟩⟩
    rw [← Option.some.inj h, and_seven]

theorem isMovZero_some (h : (isMovZero.run p).1 = some reg) :
    (isXorZero.run p).1 = some reg ∨
      (p 0 = 0x48 ∧ p 1 &&& 0xf8 = 0xb8 ∧ leNat (slice p 2 8) = 0 ∧
        reg = (X86.rmField (p 1)).setWidth 8) ∨
      p 0 &&& 0xf8 = 0xb8 ∧ leNat (slice p 1 4) = 0 ∧ reg = (X86.rmField (p 0)).setWidth 8 := by
  unfold isMovZero at h
  rw [run_bind] at h
  cases hxor : (isXorZero.run p).1 with
  | some reg' =>
    rw [hxor] at h
    exact Or.inl h
  | none =>
    rw [hxor] at h
    right
    simp only [run_bind] at h
    cases h64 : (isMovZero64.run p).1 with
    | some reg' =>
      rw [h64] at h
      obtain rfl := Option.some.inj h
      left
      unfold isMovZero64 at h64
      simp only [run_bind, run_ite, run_pure, apply_ite Prod.fst] at h64
      split_ifs at h64 with h48 hb8 hzero hrex
      · rw [beq_iff_eq.mp h48] at hrex
        cases hrex
      · refine ⟨beq_iff_eq.mp h48, beq_iff_eq.mp hb8, beq_iff_eq.mp hzero, ?_⟩
        rw [← Option.some.inj h64, and_seven]
        exact BitVec.or_zero
    | none =>
      rw [h64] at h
      right
      unfold isMovZero32 at h
      simp only [run_bind, run_ite, run_pure, apply_ite Prod.fst] at h
      split_ifs at h with hb8 hzero
      refine ⟨beq_iff_eq.mp (Bool.and_eq_true_iff.mp hb8).1, beq_iff_eq.mp hzero, ?_⟩
      rw [← Option.some.inj h, and_seven]

theorem isMovImm64_true (h : (isMovImm64.run p).1 = true) : p 0 = 0x48 ∧ p 1 &&& 0xf8 = 0xb8 := by
  unfold isMovImm64 at h
  simp only [run_bind, run_ite, run_pure, apply_ite Prod.fst] at h
  split_ifs at h with h48
  exact ⟨beq_iff_eq.mp h48, beq_iff_eq.mp h⟩

theorem isAddImm8_some (h : (isAddImm8.run p).1 = some (reg, imm)) :
    ∃ b, modField b = 3 ∧ X86.regField b = 0 ∧ reg = (X86.rmField b).setWidth 8 ∧
      (p 0 = 0x48 ∧ p 1 = 0x83 ∧ p 2 = b ∧ p 3 = imm ∨ p 0 = 0x83 ∧ p 1 = b ∧ p 2 = imm) := by
  unfold isAddImm8 at h
  simp only [run_bind, run_ite, run_pure, apply_ite Prod.fst] at h
  split_ifs at h with h48 h83 hext h83 hext
  · have h48 := beq_iff_eq.mp h48
    obtain ⟨hmod, hreg⟩ := @extension_fields _ 0 hext
    obtain ⟨rfl, rfl⟩ := Prod.mk.inj (Option.some.inj h)
    refine ⟨p 2, hmod, hreg, ?_, Or.inl ⟨h48, beq_iff_eq.mp h83, rfl, rfl⟩⟩
    rw [h48, rmField_48]
  · obtain ⟨hmod, hreg⟩ := @extension_fields _ 0 hext
    obtain ⟨rfl, rfl⟩ := Prod.mk.inj (Option.some.inj h)
    exact ⟨p 1, hmod, hreg, and_seven _, Or.inr ⟨beq_iff_eq.mp h83, rfl, rfl⟩⟩

theorem isMovReg_some (h : (isMovReg.run p).1 = some (reg, reg)) :
    (∃ b, modField b = 3 ∧ X86.regField b = X86.rmField b ∧
      (p 0 = 0x48 ∧ p 1 = 0x89 ∧ p 2 = b ∨ p 0 = 0x89 ∧ p 1 = b)) ∨
      (p 0 = 0x49 ∨ p 0 = 0x4c ∨ p 0 = 0x4d) ∧ p 1 = 0x89 := by
  have hself : ∀ b : Byte, b >>> 6 = 3 → b &&& 7 = b >>> 3 &&& 7 →
      modField b = 3 ∧ X86.regField b = X86.rmField b := by decide
  have h48 : ∀ b : Byte, regField 0x48 b = b >>> 3 &&& 7 ∧ rmField 0x48 b = b &&& 7 := by decide
  unfold isMovReg at h
  simp only [run_bind, run_ite, run_pure, apply_ite Prod.fst] at h
  split_ifs at h with hrex h89 hmod h89 hmod
  · by_cases hp : p 0 = 0x48
    · obtain ⟨hrm, hreg⟩ := Prod.mk.inj (Option.some.inj h)
      have heq := hrm.trans hreg.symm
      rw [hp, (h48 _).1, (h48 _).2] at heq
      obtain ⟨hmode, hfields⟩ := hself _ (beq_iff_eq.mp hmod) heq
      exact Or.inl ⟨p 2, hmode, hfields, Or.inl ⟨hp, beq_iff_eq.mp h89, rfl⟩⟩
    · right
      have hall : p 0 = 0x48 ∨ p 0 = 0x49 ∨ p 0 = 0x4c ∨ p 0 = 0x4d := by
        simpa [isRex, or_assoc] using hrex
      exact ⟨hall.resolve_left hp, beq_iff_eq.mp h89⟩
  · obtain ⟨hrm, hreg⟩ := Prod.mk.inj (Option.some.inj h)
    obtain ⟨hmode, hfields⟩ := hself _ (beq_iff_eq.mp hmod) (hrm.trans hreg.symm)
    exact Or.inl ⟨p 1, hmode, hfields, Or.inr ⟨beq_iff_eq.mp h89, rfl⟩⟩

end Matches

section Instructions

variable {b : Byte}

/-- The instructions that the rules find and write, on the registers of a ModRM byte or of an opcode. -/
def movImm64Chunk (f : BitVec 3) (v : BitVec 64) : Chunk :=
  ⟨0x48 :: (0xb8 + f.setWidth 8) :: imm64 v, .movImm .b64 (.reg (lowGpr f)) v,
    fun _ ↦ decode_movImm64 f v⟩

def movImm32Chunk (f : BitVec 3) (v : BitVec 32) : Chunk :=
  ⟨(0xb8 + f.setWidth 8) :: imm32 v, .movImm .b32 (.reg (lowGpr f)) (v.signExtend 64),
    fun _ ↦ decode_plainMovImm f v⟩

def xor64Chunk (hmod : modField b = 3) : Chunk :=
  ⟨[0x48, 0x31, b], _, fun _ ↦ decode_row (by decide) hmod⟩

def xor32Chunk (hmod : modField b = 3) : Chunk :=
  ⟨[0x31, b], .alu .xor .b32 (.reg (lowGpr (X86.rmField b))) (.reg (lowGpr (X86.regField b))),
    fun _ ↦ decode_plainXor hmod⟩

def test32Chunk (hmod : modField b = 3) : Chunk :=
  ⟨[0x85, b], .test .b32 (.reg (lowGpr (X86.rmField b))) (.reg (lowGpr (X86.regField b))),
    fun _ ↦ decode_plainTest hmod⟩

def mov64Chunk (hmod : modField b = 3) : Chunk :=
  ⟨[0x48, 0x89, b], .mov .b64 (.reg (lowGpr (X86.rmField b))) (.reg (lowGpr (X86.regField b))),
    fun _ ↦ decode_mov hmod⟩

def mov32Chunk (hmod : modField b = 3) : Chunk :=
  ⟨[0x89, b], .mov .b32 (.reg (lowGpr (X86.rmField b))) (.reg (lowGpr (X86.regField b))),
    fun _ ↦ decode_plainMov hmod⟩

def aluImm8Chunk (hmod : modField b = 3) (imm : Byte) : Chunk :=
  ⟨[0x48, 0x83, b, imm],
    .aluImm (aluOp (X86.regField b)) .b64 (.reg (lowGpr (X86.rmField b))) (imm.signExtend 64),
    fun _ ↦ decode_aluImm8 hmod imm⟩

def plainAluImm8Chunk (hmod : modField b = 3) (imm : Byte) : Chunk :=
  ⟨[0x83, b, imm],
    .aluImm (aluOp (X86.regField b)) .b32 (.reg (lowGpr (X86.rmField b))) (imm.signExtend 64),
    fun _ ↦ decode_plainAluImm8 hmod imm⟩

def aluImm32Chunk (hmod : modField b = 3) (imm : BitVec 32) : Chunk :=
  ⟨0x48 :: 0x81 :: b :: imm32 imm,
    .aluImm (aluOp (X86.regField b)) .b64 (.reg (lowGpr (X86.rmField b))) (imm.signExtend 64),
    fun _ ↦ decode_aluImm32 hmod imm⟩

end Instructions

section Rules

variable {p : Nat → Byte} {r : Rewrite} {ccs : Set (BitVec 4)}

theorem slice_one (p : Nat → Byte) (i : Nat) : slice p i 1 = [p i] := rfl

theorem movImm64_bytes {i : Nat} (h : p i = 0x48) (hop : p (i + 1) &&& 0xf8 = 0xb8) :
    chunkBytes [movImm64Chunk (X86.rmField (p (i + 1))) (.ofNat 64 (leNat (slice p (i + 2) 8)))] =
      slice p i 10 := by
  have hbytes : imm64 (.ofNat 64 (leNat (slice p (i + 2) 8))) = slice p (i + 2) 8 := imm64_leNat length_slice
  have hslice : slice p i 10 = p i :: p (i + 1) :: slice p (i + 2) 8 := by rw [slice_succ, slice_succ]
  show 0x48 :: (0xb8 + (X86.rmField (p (i + 1))).setWidth 8) :: imm64 _ = _
  rw [hbytes, ← eq_movOpcode hop, hslice, h]

theorem movImm32_bytes {i : Nat} (hop : p i &&& 0xf8 = 0xb8) :
    chunkBytes [movImm32Chunk (X86.rmField (p i)) (.ofNat 32 (leNat (slice p (i + 1) 4)))] = slice p i 5 := by
  have hbytes : imm32 (.ofNat 32 (leNat (slice p (i + 1) 4))) = slice p (i + 1) 4 := imm32_leNat length_slice
  have hslice : slice p i 5 = p i :: slice p (i + 1) 4 := slice_succ
  show (0xb8 + (X86.rmField (p i)).setWidth 8) :: imm32 _ = _
  rw [hbytes, ← eq_movOpcode hop, hslice]

/-- A register that is moved zero, and the instruction that is written for it. -/
theorem zeroing_iff {f : BitVec 3} {old new : List Chunk}
    (hold : Leaves old ⟨fun g ↦ Function.update g (lowGpr f) 0, fun _ ↦ none⟩)
    (hnew : Leaves new ⟨fun g ↦ Function.update g (lowGpr f) ((low g (lowGpr f) ^^^ low g (lowGpr 0)).setWidth 64),
      fun g ↦ some (.ofLogic (low g (lowGpr f) ^^^ low g (lowGpr 0)) (.ofBits 0))⟩) :
    Preserves ccs old new ↔ f = 0 ∧ ccs = ∅ := by
  rw [preserves_iff hold hnew]
  constructor
  · intro hall
    constructor
    · by_contra hf
      -- the accumulator holds one
      have hregs := congrFun (hall (fun q ↦ if q = lowGpr 0 then 1 else 0) (.ofBits 0)).1 (lowGpr f)
      simp only [low, Function.update_self, if_neg fun h ↦ hf (lowGpr_inj h), if_pos] at hregs
      exact absurd hregs (by decide)
    · apply @eq_empty_of_fixed ccs (.ofLogic (0 ^^^ 0 : BitVec 32) (.ofBits 0))
      intro s cc hcc f hf
      exact ((hall (fun _ ↦ 0) s).2 cc hcc f hf).symm
  · rintro ⟨rfl, rfl⟩ g s
    refine ⟨?_, fun cc hcc ↦ absurd hcc (Set.notMem_empty cc)⟩
    simp

/-- What is written for the register of a ModRM byte is read back there. -/
theorem slice_written (p : Nat → Byte) (xs : List Byte) : slice (overwrite p 0 xs) 0 xs.length = xs := by
  have h := @slice_overwrite _ p 0 xs
  rwa [Nat.zero_add] at h

theorem optimizeMovZero_some (h : (optimizeMovZero.run p).1 = some r) :
    ∃ f : BitVec 3, (isMovZero.run p).1 = some (f.setWidth 8) ∧ r.pos = 0 ∧
      r.bytes = [0x31, 0xc0 ||| f.setWidth 8] ∧ r.dst = 2 ∧ r.src = movLen (p 0) := by
  unfold optimizeMovZero at h
  rw [run_bind] at h
  cases hzero : (isMovZero.run p).1 with
  | none =>
    rw [hzero] at h
    cases h
  | some reg =>
    rw [hzero] at h
    have hlow : ∃ f : BitVec 3, reg = f.setWidth 8 := by
      rcases isMovZero_some hzero with hxor | ⟨-, -, -, hreg⟩ | ⟨-, -, hreg⟩
      · obtain ⟨b, -, -, hreg, -⟩ := isXorZero_some hxor
        exact ⟨_, hreg⟩
      · exact ⟨_, hreg⟩
      · exact ⟨_, hreg⟩
    obtain ⟨f, rfl⟩ := hlow
    simp only [run_bind, run_pure, if_neg (not_high f), Option.some.injEq] at h
    rw [← h]
    exact ⟨f, rfl, rfl, rfl, rfl, rfl⟩

theorem movZero_iff (h : (optimizeMovZero.run p).1 = some r) :
    RuleRight .movZero p ccs ↔ Rule.Exact .movZero p ccs := by
  have hmatch : (Rule.movZero.look.run p).1 = some r := h
  obtain ⟨f, hzero, hpos, hbytes, hdst, hsrc⟩ := optimizeMovZero_some h
  obtain ⟨hmod, hreg, hrm⟩ := modrm_fields f
  have hnew : chunkBytes [xor32Chunk hmod] = slice (overwrite p r.pos r.bytes) 0 r.dst := by
    rw [hpos, hbytes, hdst]
    exact (slice_written p _).symm
  have hxor32 := @leaves_xor32 (xor32Chunk hmod) _ _ rfl
  rw [hreg, hrm] at hxor32
  rcases isMovZero_some hzero with hxor | ⟨hp, hop, himm, hf⟩ | ⟨hop, himm, hf⟩
  · -- an exclusive or is shorter than a move
    obtain ⟨b, hmode, hself, -, ⟨h0, h1, h2⟩ | ⟨h0, h1⟩⟩ := isXorZero_some hxor
    · apply iff_of_false
      · apply @not_ruleRight_of_length _ _ _ _ hmatch [xor64Chunk hmode] 3 rfl
        · show [0x48, 0x31, b] = [p 0, p 1, p 2]
          rw [h0, h1, h2]
        · rw [hsrc, h0]
          decide
      · rintro ⟨h | ⟨-, h⟩, -⟩
        · exact absurd (h0.symm.trans h) (by decide)
        · exact absurd (h1.symm.trans h) (by decide)
    · apply iff_of_false
      · apply @not_ruleRight_of_length _ _ _ _ hmatch [xor32Chunk hmode] 2 rfl
        · show [0x31, b] = [p 0, p 1]
          rw [h0, h1]
        · rw [hsrc, h0]
          decide
      · rintro ⟨h | ⟨h, -⟩, -⟩ <;> exact absurd (h0.symm.trans h) (by decide)
  · obtain rfl := field_inj hf
    have hold := movImm64_bytes hp hop
    rw [himm] at hold
    have hlen : r.src = 10 := by
      rw [hsrc, hp]
      rfl
    rw [ruleRight_iff_preserves hmatch rfl rfl (hlen ▸ hold) hnew,
      zeroing_iff (leaves_movImm64 rfl) hxor32, movOpcode_eq_iff hop]
    have hne : (0x48 : Byte) ≠ 0xb8 := by decide
    show _ ↔ (p 0 = 0xb8 ∨ p 0 = 0x48 ∧ _) ∧ _
    simp only [hp, hne, true_and, false_or]
  · obtain rfl := field_inj hf
    have hold : chunkBytes [movImm32Chunk (X86.rmField (p 0)) 0] = slice p 0 5 := by
      have hbytes := movImm32_bytes hop
      rwa [himm] at hbytes
    have hne : p 0 ≠ 0x48 := by
      intro hp
      rw [hp] at hop
      exact absurd hop (by decide)
    have hlen : r.src = 5 := by
      rw [hsrc]
      exact if_neg fun h ↦ hne (beq_iff_eq.mp h)
    have hmov : Leaves [movImm32Chunk (X86.rmField (p 0)) 0]
        ⟨fun g ↦ Function.update g (lowGpr (X86.rmField (p 0))) 0, fun _ ↦ none⟩ :=
      @leaves_movImm32 (movImm32Chunk (X86.rmField (p 0)) 0) _ 0 rfl
    rw [ruleRight_iff_preserves hmatch rfl rfl (hlen ▸ hold) hnew, zeroing_iff hmov hxor32,
      movOpcode_eq_iff hop]
    show _ ↔ (_ ∨ p 0 = 0x48 ∧ _) ∧ _
    simp only [hne, false_and, or_false]

theorem xorLen_low (f : BitVec 3) : xorLen (f.setWidth 8) = 2 := if_neg (not_high f)

theorem xorMov_iff (h : (optimizeXorMov.run p).1 = some r) :
    RuleRight .xorMov p ccs ↔ Rule.Exact .xorMov p ccs := by
  have hmatch : (Rule.xorMov.look.run p).1 = some r := h
  unfold optimizeXorMov at h
  rw [run_bind] at h
  cases hzero : (isXorZero.run p).1 with
  | none =>
    rw [hzero] at h
    cases h
  | some reg =>
    rw [hzero] at h
    obtain ⟨b, hmod, hself, rfl, hp⟩ := isXorZero_some hzero
    simp only [run_bind, run_ite, run_pure, xorLen_low, apply_ite Prod.fst] at h
    split_ifs at h with hmov hreg
    obtain ⟨h2, h3⟩ := isMovImm64_true hmov
    have hmode : ∀ b : Byte, modField b = 3 → b ≠ 0x48 := by decide
    rcases hp with ⟨-, -, hb⟩ | ⟨h0, h1⟩
    · -- the move cannot start in the ModRM byte
      exact absurd h2 (hb ▸ hmode b hmod)
    · obtain rfl := Option.some.inj h
      have hf : X86.rmField b = X86.rmField (p 3) := by
        apply field_inj
        rw [← and_seven (p 3)]
        exact (beq_iff_eq.mp hreg).symm
      have hmov := movImm64_bytes h2 h3
      let x : Replacement .xorMov p ⟨0, [], 0, 2, by decide⟩ :=
        ⟨[xor32Chunk hmod], [movImm64Chunk (X86.rmField (p 3)) (.ofNat 64 (leNat (slice p 4 8)))], [],
          rfl, rfl, by
            show [0x31, b] = [p 0, p 1]
            rw [h0, h1], hmov, rfl⟩
      have hxor := @leaves_xor32 (xor32Chunk hmod) _ _ rfl
      have hkeep := @leaves_movImm64 (movImm64Chunk (X86.rmField (p 3)) (.ofNat 64 (leNat (slice p 4 8)))) _ _ rfl
      rw [hf] at hxor
      rw [ruleRight_of_match hmatch x]
      apply preserves_dropped (hxor.append hkeep) hkeep
      · funext g
        exact (Function.update_idem _ _ g).symm
      · exact fun g ↦ ⟨_, rfl⟩
      · exact fun g ↦ rfl

/-- An addition or a subtraction of zero that is dropped. -/
theorem aluZero_iff {op : AluOp} {c : Chunk} {q : Gpr} (hop : op = .add ∨ op = .sub)
    (hc : c.instr = .aluImm op .b64 (.reg q) 0) : Preserves ccs [c] [] ↔ ccs = ∅ := by
  have hleaves := leaves_aluImm64 (by rcases hop with rfl | rfl <;> decide)
    (by rcases hop with rfl | rfl <;> decide) hc
  apply preserves_dropped hleaves leaves_nil
  · funext g
    rcases hop with rfl | rfl
    · show g = Function.update g q (g q + 0)
      simp
    · show g = Function.update g q (g q - 0)
      simp
  · exact fun g ↦ ⟨_, rfl⟩
  · exact fun g ↦ rfl

theorem addZero_iff (h : (optimizeAddZero.run p).1 = some r) :
    RuleRight .addZero p ccs ↔ Rule.Exact .addZero p ccs := by
  have hmatch : (Rule.addZero.look.run p).1 = some r := h
  unfold optimizeAddZero at h
  rw [run_bind] at h
  cases hadd : (isAddImm8.run p).1 with
  | none =>
    rw [hadd] at h
    cases h
  | some regs =>
    rw [hadd] at h
    obtain ⟨reg, imm⟩ := regs
    simp only [run_pure] at h
    split_ifs at h with himm
    obtain rfl := Option.some.inj h
    obtain ⟨b, hmod, hext, -, ⟨h0, h1, h2, h3⟩ | ⟨h0, h1, h2⟩⟩ := isAddImm8_some hadd
    · have hold : chunkBytes [aluImm8Chunk hmod imm] = slice p 0 4 := by
        show [0x48, 0x83, b, imm] = [p 0, p 1, p 2, p 3]
        rw [h0, h1, h2, h3]
      rw [@ruleRight_iff_preserves _ _ _ _ hmatch rfl _ [] rfl hold rfl, aluZero_iff (Or.inl rfl)]
      · exact ⟨fun h ↦ ⟨h0, h⟩, And.right⟩
      · show Instr.aluImm (aluOp (X86.regField b)) .b64 _ (imm.signExtend 64) = _
        rw [hext, beq_iff_eq.mp himm]
        rfl
    · -- without a prefix it is a byte shorter
      apply iff_of_false
      · apply @not_ruleRight_of_length _ _ _ _ hmatch [plainAluImm8Chunk hmod imm] 3 rfl
        · show [0x83, b, imm] = [p 0, p 1, p 2]
          rw [h0, h1, h2]
        · decide
      · rintro ⟨h, -⟩
        exact absurd (h0.symm.trans h) (by decide)

theorem subZero_iff (h : (optimizeSubZero.run p).1 = some r) :
    RuleRight .subZero p ccs ↔ Rule.Exact .subZero p ccs := by
  have hmatch : (Rule.subZero.look.run p).1 = some r := h
  unfold optimizeSubZero at h
  simp only [run_bind, run_ite, run_pure, apply_ite Prod.fst] at h
  split_ifs at h with h0 h1 hext himm
  obtain rfl := Option.some.inj h
  obtain ⟨hmod, hreg⟩ := @extension_fields _ 5 hext
  have hold : chunkBytes [aluImm8Chunk hmod 0] = slice p 0 4 := by
    show [0x48, 0x83, p 2, 0] = [p 0, p 1, p 2, p 3]
    rw [beq_iff_eq.mp h0, beq_iff_eq.mp h1, beq_iff_eq.mp himm]
  rw [@ruleRight_iff_preserves _ _ _ _ hmatch rfl _ [] rfl hold rfl, aluZero_iff (Or.inr rfl)]
  · rfl
  · show Instr.aluImm (aluOp (X86.regField (p 2))) .b64 _ _ = _
    rw [hreg]
    rfl

theorem optimizeRedundantMov_some (h : (optimizeRedundantMov.run p).1 = some r) :
    ∃ reg, (isMovReg.run p).1 = some (reg, reg) ∧ r.pos = 0 ∧ r.bytes = [] ∧ r.dst = 0 ∧
      r.src = movRegLen (p 0) := by
  unfold optimizeRedundantMov at h
  rw [run_bind] at h
  cases hmov : (isMovReg.run p).1 with
  | none =>
    rw [hmov] at h
    cases h
  | some regs =>
    rw [hmov] at h
    obtain ⟨dest, src⟩ := regs
    simp only [run_bind, run_ite, run_pure, apply_ite Prod.fst] at h
    split_ifs at h with heq
    obtain rfl := beq_iff_eq.mp heq
    rw [← Option.some.inj h]
    exact ⟨dest, rfl, rfl, rfl, rfl, rfl⟩

theorem redundantMov_iff (h : (optimizeRedundantMov.run p).1 = some r) :
    RuleRight .redundantMov p ccs ↔ Rule.Exact .redundantMov p ccs := by
  have hmatch : (Rule.redundantMov.look.run p).1 = some r := h
  obtain ⟨reg, hmov, hpos, hnone, hdst, hsrc⟩ := optimizeRedundantMov_some h
  rcases isMovReg_some hmov with ⟨b, hmod, hself, ⟨h0, h1, h2⟩ | ⟨h0, h1⟩⟩ | ⟨h0, h1⟩
  · have hlen : r.src = 3 := by
      rw [hsrc, h0]
      rfl
    have hold : chunkBytes [mov64Chunk hmod] = slice p 0 r.src := by
      rw [hlen]
      show [0x48, 0x89, b] = [p 0, p 1, p 2]
      rw [h0, h1, h2]
    have hleaves := @leaves_mov64 (mov64Chunk hmod) _ _ rfl
    rw [@ruleRight_iff_preserves _ _ _ _ hmatch rfl _ [] rfl hold (by rw [hdst]; rfl),
      preserves_iff hleaves leaves_nil, hself]
    apply iff_of_true _ h0
    intro g s
    exact ⟨(Function.update_eq_self _ g).symm, fun _ _ _ _ ↦ rfl⟩
  · have hlen : r.src = 2 := by
      rw [hsrc, h0]
      rfl
    have hold : chunkBytes [mov32Chunk hmod] = slice p 0 r.src := by
      rw [hlen]
      show [0x89, b] = [p 0, p 1]
      rw [h0, h1]
    have hleaves := @leaves_mov32 (mov32Chunk hmod) _ _ rfl
    rw [@ruleRight_iff_preserves _ _ _ _ hmatch rfl _ [] rfl hold (by rw [hdst]; rfl),
      preserves_iff hleaves leaves_nil, hself]
    apply iff_of_false
    · -- the move clears the upper half of the register
      intro hall
      have hregs := congrFun (hall (fun _ ↦ 0x100000000) (.ofBits 0)).1 (lowGpr (X86.rmField b))
      simp only [id, low, Function.update_self] at hregs
      exact absurd hregs (by decide)
    · intro h
      exact absurd (h0.symm.trans h) (by decide)
  · have hne : p 0 ≠ 0x48 := by rcases h0 with h0 | h0 | h0 <;> rw [h0] <;> decide
    have hlen : r.src = 2 := by
      rw [hsrc]
      exact if_neg fun h ↦ hne (beq_iff_eq.mp h)
    refine iff_of_false (not_ruleRight_of_undecoded hmatch rfl ?_) hne
    -- two bytes of the three are no instruction
    rw [hlen]
    show decode [p 0, p 1] = none
    rw [h1]
    rcases h0 with h0 | h0 | h0 <;> rw [h0] <;> rfl

/-- A comparison with zero and the test of the lower half of the register with that of the accumulator
leave some of the flags the same, and only these. -/
theorem cmpZero_flag_iff {q : Gpr} {u : Status} {f : Flag} (hf : f ≠ .adjust) :
    (∀ g : Gpr → BitVec 64, (Status.ofLogic (low g q &&& low g (lowGpr 0)) u).flag f =
      (Status.ofSub (g q) 0 false).flag f) ↔ f = .carry ∨ f = .overflow ∨ q = lowGpr 0 ∧ f = .parity := by
  have hsub : ∀ a : BitVec 64, a - 0 - (BitVec.ofBool false).setWidth 64 = a := by simp
  constructor
  · intro hall
    cases f with
    | carry => exact Or.inl rfl
    | overflow => exact Or.inr (Or.inl rfl)
    | adjust => exact absurd rfl hf
    | zero =>
      have h := hall fun _ ↦ 0x100000000
      simp [Status.flag, Status.ofLogic, Status.ofSub, Status.ofResult, low] at h
    | sign =>
      have h := hall fun _ ↦ 0x8000000000000000
      simp [Status.flag, Status.ofLogic, Status.ofSub, Status.ofResult, low] at h
      exact absurd h (by decide)
    | parity =>
      by_cases hq : q = lowGpr 0
      · exact Or.inr (Or.inr ⟨hq, rfl⟩)
      · have h := hall fun r ↦ if r = q then 1 else 0
        simp only [Status.flag, Status.ofLogic, Status.ofSub, Status.ofResult, low, if_pos,
          if_neg (Ne.symm hq)] at h
        exact absurd h (by decide)
  · rintro (rfl | rfl | ⟨rfl, rfl⟩) g
    · simp [Status.flag, Status.ofLogic, Status.ofSub, Status.ofResult]
    · simp [Status.flag, Status.ofLogic, Status.ofSub, Status.ofResult]
    · show (_ % 2 == 0) = (_ % 2 == 0)
      rw [hsub, BitVec.and_self]
      congr 2
      apply List.countP_congr
      intro i hi
      rw [low, BitVec.getLsbD_setWidth]
      have := List.mem_range.mp hi
      simp
      omega

theorem cmpZero_iff (h : (optimizeCmpZero.run p).1 = some r) :
    RuleRight .cmpZero p ccs ↔ Rule.Exact .cmpZero p ccs := by
  have hmatch : (Rule.cmpZero.look.run p).1 = some r := h
  unfold optimizeCmpZero at h
  simp only [run_bind, run_ite, run_pure, apply_ite Prod.fst] at h
  split_ifs at h with h0 h1 hext himm hhigh
  · rw [beq_iff_eq.mp h0, rmField_48] at hhigh
    exact absurd hhigh (not_high _)
  · obtain rfl := Option.some.inj h
    have hrm : rmField (p 0) (p 2) = (X86.rmField (p 2)).setWidth 8 := by
      rw [beq_iff_eq.mp h0, rmField_48]
    obtain ⟨hmod, hreg⟩ := @extension_fields _ 7 hext
    obtain ⟨hmod', hreg', hrm'⟩ := modrm_fields (X86.rmField (p 2))
    have hzero : imm32 0 = slice p 3 4 := by
      have hbytes : imm32 (.ofNat 32 (leNat (slice p 3 4))) = slice p 3 4 := imm32_leNat length_slice
      have himm : leNat (slice p 3 4) = 0 := beq_iff_eq.mp himm
      rwa [himm] at hbytes
    have hold : chunkBytes [aluImm32Chunk hmod 0] = slice p 0 7 := by
      show 0x48 :: 0x81 :: p 2 :: imm32 0 = p 0 :: p 1 :: p 2 :: slice p 3 4
      rw [beq_iff_eq.mp h0, beq_iff_eq.mp h1, hzero]
    have hnew : chunkBytes [test32Chunk hmod'] =
        slice (overwrite p 0 [0x85, 0xc0 ||| rmField (p 0) (p 2)]) 0 2 := by
      rw [hrm]
      exact (slice_written p _).symm
    have hcmp := @leaves_aluImm64 (aluImm32Chunk hmod 0) (lowGpr (X86.rmField (p 2))) .cmp 0 (by decide)
      (by decide) (by
        show Instr.aluImm (aluOp (X86.regField (p 2))) .b64 _ _ = _
        rw [hreg]
        rfl)
    have htest := @leaves_test32 (test32Chunk hmod') _ _ rfl
    rw [hreg', hrm'] at htest
    have hacc : ∀ b : Byte, modField b = 3 → X86.regField b = 7 →
        (lowGpr (X86.rmField b) = lowGpr 0 ↔ b = 0xf8) := by decide
    rw [ruleRight_iff_preserves hmatch rfl rfl hold hnew, preserves_iff hcmp htest]
    constructor
    · intro hall cc hcc f hf
      rw [← hacc _ hmod hreg, ← cmpZero_flag_iff fun h ↦ ne_adjust hf h]
      exact fun g ↦ (hall g (.ofBits 0)).2 cc hcc f hf
    · intro hall g s
      refine ⟨rfl, fun cc hcc f hf ↦ ?_⟩
      have hflag := hall cc hcc f hf
      rw [← hacc _ hmod hreg] at hflag
      exact (cmpZero_flag_iff fun h ↦ ne_adjust hf h).mpr hflag g

theorem optimizeMovAdd_some (h : (optimizeMovAdd.run p).1 = some r) :
    ∃ b imm, p 0 = 0x48 ∧ p 1 &&& 0xf8 = 0xb8 ∧ modField b = 3 ∧ X86.regField b = 0 ∧
      X86.rmField b = X86.rmField (p 1) ∧
      (p 10 = 0x48 ∧ p 11 = 0x83 ∧ p 12 = b ∧ p 13 = imm ∨ p 10 = 0x83 ∧ p 11 = b ∧ p 12 = imm) ∧
      r.pos = 1 ∧ r.bytes = (0xb8 ||| (X86.rmField (p 1)).setWidth 8) ::
        imm64 (.ofNat 64 (leNat (slice p 2 8)) + imm.signExtend 64) ∧ r.dst = 10 ∧ r.src = 14 := by
  unfold optimizeMovAdd at h
  simp only [run_bind, run_ite, run_pure, apply_ite Prod.fst] at h
  split_ifs at h with hmov
  obtain ⟨h0, h1⟩ := isMovImm64_true hmov
  cases hadd : ((later 10 isAddImm8).run p).1 with
  | none =>
    rw [hadd] at h
    cases h
  | some regs =>
    rw [hadd] at h
    obtain ⟨reg, imm⟩ := regs
    simp only [run_ite, run_pure, apply_ite Prod.fst] at h
    split_ifs at h with hreg
    obtain ⟨b, hmod, hext, hrm, hadds⟩ := isAddImm8_some hadd
    have hf : X86.rmField b = X86.rmField (p 1) := by
      apply field_inj
      rw [← hrm, ← and_seven (p 1)]
      exact beq_iff_eq.mp hreg
    refine ⟨b, imm, h0, h1, hmod, hext, hf, hadds, ?_⟩
    rw [← Option.some.inj h, ← and_seven]
    exact ⟨rfl, rfl, rfl, rfl⟩

theorem movAdd_iff (h : (optimizeMovAdd.run p).1 = some r) :
    RuleRight .movAdd p ccs ↔ Rule.Exact .movAdd p ccs := by
  have hmatch : (Rule.movAdd.look.run p).1 = some r := h
  obtain ⟨b, imm, h0, h1, hmod, hext, hf, hadds, hpos, hbytes, hdst, hsrc⟩ := optimizeMovAdd_some h
  have hmov := movImm64_bytes h0 h1
  have hpair : ∀ (c d : Chunk) (n : Nat), chunkBytes [c] = slice p 0 10 → chunkBytes [d] = slice p 10 n →
      chunkBytes [c, d] = slice p 0 (10 + n) := by
    intro c d n hc hd
    rw [slice_append, Nat.zero_add, ← hc, ← hd]
    exact @List.flatMap_append _ _ [c] [d] _
  rcases hadds with ⟨h10, h11, h12, h13⟩ | ⟨h10, h11, h12⟩
  · have hadd : chunkBytes [aluImm8Chunk hmod imm] = slice p 10 4 := by
      show [0x48, 0x83, b, imm] = [p 10, p 11, p 12, p 13]
      rw [h10, h11, h12, h13]
    have hold : _ = slice p 0 14 := hpair _ (aluImm8Chunk hmod imm) 4 hmov hadd
    generalize BitVec.ofNat 64 (leNat (slice p 2 8)) = v at hbytes hold
    have hnew : chunkBytes [movImm64Chunk (X86.rmField (p 1)) (v + imm.signExtend 64)] =
        slice (overwrite p r.pos r.bytes) 0 r.dst := by
      have hwritten := @slice_overwrite _ p 1 ((0xb8 ||| (X86.rmField (p 1)).setWidth 8) ::
        imm64 (v + imm.signExtend 64))
      have hopcode : ∀ f : BitVec 3, (0xb8 ||| f.setWidth 8 : Byte) = 0xb8 + f.setWidth 8 := by decide
      rw [hpos, hbytes, hdst]
      refine Eq.trans ?_ hwritten.symm
      rw [slice_one, h0, hopcode]
      rfl
    have hmoved := @leaves_movImm64 (movImm64Chunk (X86.rmField (p 1)) v) _ _ rfl
    have hadded := @leaves_aluImm64 (aluImm8Chunk hmod imm) (lowGpr (X86.rmField b)) .add
      (imm.signExtend 64) (by decide) (by decide) (by
        show Instr.aluImm (aluOp (X86.regField b)) .b64 _ _ = _
        rw [hext]
        rfl)
    have hkept := @leaves_movImm64 (movImm64Chunk (X86.rmField (p 1)) (v + imm.signExtend 64)) _ _ rfl
    rw [hf] at hadded
    rw [← hsrc] at hold
    rw [@ruleRight_iff_preserves _ _ _ _ hmatch rfl [_, _] _ rfl hold hnew]
    show Preserves ccs ([_] ++ [_]) _ ↔ _
    rw [preserves_dropped (hmoved.append hadded) hkept]
    · exact ⟨fun h ↦ ⟨h10, h⟩, And.right⟩
    · funext g
      show _ = Function.update (Function.update g _ v) _ (Function.update g _ v _ + _)
      rw [Function.update_idem, Function.update_self]
    · exact fun g ↦ ⟨_, rfl⟩
    · exact fun g ↦ rfl
  · -- without a prefix the addition is a byte shorter
    apply iff_of_false
    · apply not_ruleRight_of_length hmatch rfl (hpair _ (plainAluImm8Chunk hmod imm) 3 hmov ?_)
      · rw [hsrc]
        decide
      · show [0x83, b, imm] = [p 10, p 11, p 12]
        rw [h10, h11, h12]
    · rintro ⟨h, -⟩
      exact absurd (h10.symm.trans h) (by decide)

/-- A match of a rule is right exactly at the bytes and for the conditions that it allows for. -/
theorem ruleRight_iff (rule : Rule) (p : Nat → Byte) (ccs : Set (BitVec 4)) :
    RuleRight rule p ccs ↔ ((rule.look.run p).1.isSome = true → rule.Exact p ccs) := by
  cases h : (rule.look.run p).1 with
  | none =>
    apply iff_of_true
    · intro r hr
      rw [h] at hr
      cases hr
    · intro hsome
      cases hsome
  | some r =>
    have key : RuleRight rule p ccs ↔ rule.Exact p ccs := by
      cases rule with
      | movZero => exact movZero_iff h
      | xorMov => exact xorMov_iff h
      | addZero => exact addZero_iff h
      | subZero => exact subZero_iff h
      | cmpZero => exact cmpZero_iff h
      | redundantMov => exact redundantMov_iff h
      | movAdd => exact movAdd_iff h
    rw [key]
    exact ⟨fun hexact _ ↦ hexact, fun hexact ↦ hexact rfl⟩

/-- `MOV RCX, 0` becomes `XOR ECX, EAX`. -/
theorem movZero_rcx_not_right : ¬ RuleRight .movZero (fun i ↦ [0x48, 0xb9].getD i 0) ∅ := by
  have hmatch : (optimizeMovZero.run fun i ↦ [0x48, 0xb9].getD i 0).1.isSome = true := by decide
  obtain ⟨r, hr⟩ := Option.isSome_iff_exists.mp hmatch
  rw [movZero_iff hr]
  rintro ⟨h | ⟨-, h⟩, -⟩ <;> exact absurd h (by decide)

end Rules

end Arm2x86.Peephole
