import Arm2x86.X86.Flags
import Arm2x86.X86.Pairs
import Arm2x86.X86.Validity

/-!
# Instructions on the low registers

More instructions with a ModRM byte in register mode, behind the byte `48` and without a prefix. That
there is only one sequence of instructions for some bytes, and what such sequences leave in the registers
and in the flags.
-/

namespace Arm2x86.X86

section Decoding

variable {modrm : Byte} {rest : List Byte}

theorem takeRm_plain (hmod : modField modrm = 3) :
    takeRm .none .b32 (modrm :: rest) = some (.reg (lowGpr (rmField modrm)), rest) := by
  have hmode : modrm.extractLsb' 6 2 = 3#2 := hmod
  simp [takeRm, hmode]
  rfl

/-- The arithmetic with a byte. -/
theorem decode_aluImm8 (hmod : modField modrm = 3) (imm : Byte) :
    decode (0x48 :: 0x83 :: modrm :: imm :: rest) =
      some (.aluImm (aluOp (regField modrm)) .b64 (.reg (lowGpr (rmField modrm)))
        (imm.signExtend 64), rest) := by
  have hsize : opSize rexW 0x83#8 = .b64 := rfl
  rw [decode, takePrefixes_48 rfl]
  simp [decodeOpcode, hsize, takeRm_registerMode hmod, take8, takeExt]
  rfl

theorem decode_plainAluImm8 (hmod : modField modrm = 3) (imm : Byte) :
    decode (0x83 :: modrm :: imm :: rest) =
      some (.aluImm (aluOp (regField modrm)) .b32 (.reg (lowGpr (rmField modrm)))
        (imm.signExtend 64), rest) := by
  have hsize : opSize .none 0x83#8 = .b32 := rfl
  rw [decode, takePrefixes_opcode rfl]
  simp [decodeOpcode, hsize, takeRm_plain hmod, take8, takeExt]
  rfl

/-- The move between registers. -/
theorem decode_mov (hmod : modField modrm = 3) :
    decode (0x48 :: 0x89 :: modrm :: rest) =
      some (.mov .b64 (.reg (lowGpr (rmField modrm))) (.reg (lowGpr (regField modrm))), rest) := by
  have hsize : opSize rexW 0x89#8 = .b64 := rfl
  rw [decode, takePrefixes_48 rfl]
  simp [decodeOpcode, hsize, takeRm_registerMode hmod]
  rfl

theorem decode_plainMov (hmod : modField modrm = 3) :
    decode (0x89 :: modrm :: rest) =
      some (.mov .b32 (.reg (lowGpr (rmField modrm))) (.reg (lowGpr (regField modrm))), rest) := by
  have hsize : opSize .none 0x89#8 = .b32 := rfl
  rw [decode, takePrefixes_opcode rfl]
  simp [decodeOpcode, hsize, takeRm_plain hmod]
  rfl

theorem decode_plainXor (hmod : modField modrm = 3) :
    decode (0x31 :: modrm :: rest) =
      some (.alu .xor .b32 (.reg (lowGpr (rmField modrm))) (.reg (lowGpr (regField modrm))), rest) := by
  have hsize : opSize .none 0x31#8 = .b32 := rfl
  rw [decode, takePrefixes_opcode rfl]
  simp [decodeOpcode, hsize, takeRm_plain hmod]
  exact ⟨rfl, rfl⟩

theorem decode_plainTest (hmod : modField modrm = 3) :
    decode (0x85 :: modrm :: rest) =
      some (.test .b32 (.reg (lowGpr (rmField modrm))) (.reg (lowGpr (regField modrm))), rest) := by
  have hsize : opSize .none 0x85#8 = .b32 := rfl
  rw [decode, takePrefixes_opcode rfl]
  simp [decodeOpcode, hsize, takeRm_plain hmod]
  rfl

/-- The move of a constant of 32 bits. -/
theorem decode_plainMovImm (r : BitVec 3) (v : BitVec 32) :
    decode ((0xb8 + r.setWidth 8) :: (imm32 v ++ rest)) =
      some (.movImm .b32 (.reg (lowGpr r)) (v.signExtend 64), rest) := by
  have hsize : Prefixes.none.size = .b32 := rfl
  have hop : ∀ r : BitVec 3, isOpcode (0xb8 + r.setWidth 8) = true := by decide
  have hall : ∀ r : BitVec 3, r = 0 ∨ r = 1 ∨ r = 2 ∨ r = 3 ∨ r = 4 ∨ r = 5 ∨ r = 6 ∨ r = 7 := by decide
  rw [decode, takePrefixes_opcode (hop r)]
  rcases hall r with rfl | rfl | rfl | rfl | rfl | rfl | rfl | rfl <;>
  · simp [decodeOpcode, takeImm, hsize, take32_imm32]
    rfl

end Decoding

section Chunks

theorem Chunk.ext_fields {c d : Chunk} (hbytes : c.bytes = d.bytes) (hinstr : c.instr = d.instr) : c = d := by
  cases c
  cases d
  cases hbytes
  cases hinstr
  rfl

/-- Only one instruction starts with some bytes. -/
theorem Chunk.eq_of_prefix {c d : Chunk} {xs : List Byte} (hc : c.bytes <+: xs) (hd : d.bytes <+: xs) :
    c = d := by
  obtain ⟨t, ht⟩ := hc
  obtain ⟨t', ht'⟩ := hd
  have hdec := c.decodes t
  have hdec' := d.decodes t'
  rw [ht] at hdec
  rw [ht', hdec] at hdec'
  obtain ⟨hinstr, rfl⟩ := Prod.mk.inj (Option.some.inj hdec')
  exact c.ext_fields (List.append_cancel_right (ht.trans ht'.symm)) hinstr

/-- Sequences of instructions with the same bytes are the same. -/
theorem chunkBytes_inj {cs ds : List Chunk} (h : chunkBytes cs = chunkBytes ds) : cs = ds := by
  induction cs generalizing ds with
  | nil =>
    cases ds with
    | nil => rfl
    | cons d ds =>
      rw [chunkBytes, chunkBytes, List.flatMap_nil, List.flatMap_cons] at h
      exact absurd (List.append_eq_nil_iff.mp h.symm).1 d.bytes_ne_nil
  | cons c cs ih =>
    cases ds with
    | nil =>
      rw [chunkBytes, chunkBytes, List.flatMap_nil, List.flatMap_cons] at h
      exact absurd (List.append_eq_nil_iff.mp h).1 c.bytes_ne_nil
    | cons d ds =>
      rw [chunkBytes, chunkBytes, List.flatMap_cons, List.flatMap_cons] at h
      have hd : d.bytes <+: c.bytes ++ cs.flatMap Chunk.bytes := by
        rw [h]
        exact List.prefix_append _ _
      obtain rfl := Chunk.eq_of_prefix (List.prefix_append c.bytes (cs.flatMap Chunk.bytes)) hd
      rw [ih (List.append_cancel_left h)]

end Chunks

section Outcomes

/-- What some instructions leave in the registers, and in the flags if they set them. -/
structure Outcome where
  regs : (Gpr → BitVec 64) → Gpr → BitVec 64
  flags : (Gpr → BitVec 64) → Option Status

/-- The lower half of a register. -/
def low (g : Gpr → BitVec 64) (r : Gpr) : BitVec 32 := (g r).setWidth 32

/-- Some instructions leave an outcome behind every state. The adjust flag is left open. -/
def Leaves (cs : List Chunk) (o : Outcome) : Prop :=
  ∀ undef rest m, ∃ m₁, (Semantics.core undef rest).runChunks cs m = some m₁ ∧
    m₁.regs = o.regs m.regs ∧ Status.Agree {.adjust} ((o.flags m.regs).getD m.status) m₁.status

variable {cs ds : List Chunk} {o o' : Outcome} {c : Chunk} {r r' : Gpr}

theorem leaves_nil : Leaves [] ⟨id, fun _ ↦ none⟩ := fun _ _ m ↦ ⟨m, rfl, rfl, .refl _ _⟩

theorem Leaves.append (hcs : Leaves cs o) (hds : Leaves ds o') :
    Leaves (cs ++ ds) ⟨o'.regs ∘ o.regs, fun g ↦ (o'.flags (o.regs g)).or (o.flags g)⟩ := by
  intro undef rest m
  obtain ⟨m₁, hrun, hregs, hflags⟩ := hcs undef rest m
  obtain ⟨m₂, hrun', hregs', hflags'⟩ := hds undef rest m₁
  have happend : ∀ (cs : List Chunk) (m : Machine), (Semantics.core undef rest).runChunks (cs ++ ds) m =
      ((Semantics.core undef rest).runChunks cs m).bind ((Semantics.core undef rest).runChunks ds) := by
    intro cs
    induction cs with
    | nil => exact fun _ ↦ rfl
    | cons c cs ih =>
      intro m
      rw [List.cons_append, Semantics.runChunks, Semantics.runChunks]
      cases (Semantics.core undef rest).exec c.instr { m with pos := m.pos + c.bytes.length } with
      | none => rfl
      | some m' => exact ih m'
  refine ⟨m₂, ?_, ?_, ?_⟩
  · rw [happend, hrun]
    exact hrun'
  · rw [hregs', hregs]
    rfl
  · rw [hregs] at hflags'
    show Status.Agree _ (((o'.flags (o.regs m.regs)).or (o.flags m.regs)).getD m.status) m₂.status
    cases hset : o'.flags (o.regs m.regs) with
    | none =>
      rw [hset] at hflags'
      exact fun f hf ↦ (hflags' f hf).trans (hflags f hf)
    | some t =>
      rw [hset] at hflags'
      exact hflags'

/-- What one instruction leaves. -/
theorem leaves_chunk (h : ∀ undef rest m, ∃ m₁, (Semantics.core undef rest).exec c.instr m = some m₁ ∧
    m₁.regs = o.regs m.regs ∧ Status.Agree {.adjust} ((o.flags m.regs).getD m.status) m₁.status) :
    Leaves [c] o := by
  intro undef rest m
  obtain ⟨m₁, hexec, hregs, hflags⟩ := h undef rest (m.past c.bytes.length)
  refine ⟨m₁, ?_, hregs, hflags⟩
  show ((Semantics.core undef rest).exec c.instr (m.past c.bytes.length)).bind _ = _
  rw [hexec]
  rfl

theorem regs_setReg_eq (m : Machine) (r : Gpr) (v : BitVec 64) :
    (m.setReg r v).regs = Function.update m.regs r v := by
  funext r'
  rw [Machine.regs_setReg, Function.update_apply]

theorem leaves_movImm64 {v : BitVec 64} (hc : c.instr = .movImm .b64 (.reg r) v) :
    Leaves [c] ⟨fun g ↦ Function.update g r v, fun _ ↦ none⟩ := by
  apply leaves_chunk
  intro undef rest m
  rw [hc]
  exact ⟨_, rfl, regs_setReg_eq m r v, .refl _ _⟩

theorem leaves_movImm32 {v : BitVec 64} (hc : c.instr = .movImm .b32 (.reg r) v) :
    Leaves [c] ⟨fun g ↦ Function.update g r ((v.setWidth 32).setWidth 64), fun _ ↦ none⟩ := by
  apply leaves_chunk
  intro undef rest m
  rw [hc]
  exact ⟨_, rfl, regs_setReg_eq m r _, .refl _ _⟩

theorem leaves_mov64 (hc : c.instr = .mov .b64 (.reg r) (.reg r')) :
    Leaves [c] ⟨fun g ↦ Function.update g r (g r'), fun _ ↦ none⟩ := by
  apply leaves_chunk
  intro undef rest m
  rw [hc]
  exact ⟨_, rfl, regs_setReg_eq m r _, .refl _ _⟩

theorem setWidth_low (v : BitVec 32) : (v.setWidth 64).setWidth 32 = v := by
  rw [BitVec.setWidth_setWidth_of_le _ (by decide), BitVec.setWidth_eq]

theorem leaves_mov32 (hc : c.instr = .mov .b32 (.reg r) (.reg r')) :
    Leaves [c] ⟨fun g ↦ Function.update g r ((low g r').setWidth 64), fun _ ↦ none⟩ := by
  apply leaves_chunk
  intro undef rest m
  rw [hc]
  refine ⟨_, rfl, ?_, .refl _ _⟩
  show (m.setReg r ((((low m.regs r').setWidth 64).setWidth 32).setWidth 64)).regs = _
  rw [setWidth_low, regs_setReg_eq]

theorem agree_ofLogic {n : Nat} (v : BitVec n) (u u' : Status) :
    Status.Agree {.adjust} (.ofLogic v u) (.ofLogic v u') := by
  intro f hf
  cases f with
  | adjust => exact absurd rfl hf
  | _ => rfl

theorem leaves_xor32 (hc : c.instr = .alu .xor .b32 (.reg r) (.reg r')) :
    Leaves [c] ⟨fun g ↦ Function.update g r ((low g r ^^^ low g r').setWidth 64),
      fun g ↦ some (.ofLogic (low g r ^^^ low g r') (.ofBits 0))⟩ := by
  apply leaves_chunk
  intro undef rest m
  rw [hc]
  have hcut : ∀ r : Gpr, Size.cut .b32 ((low m.regs r).setWidth 64) = low m.regs r :=
    fun r ↦ setWidth_low (low m.regs r)
  have hexec : (Semantics.core undef rest).exec (.alu .xor .b32 (.reg r) (.reg r')) m =
      some ((m.setReg r ((((Size.cut .b32 ((low m.regs r).setWidth 64) ^^^
        Size.cut .b32 ((low m.regs r').setWidth 64)).setWidth 64).setWidth 32).setWidth 64)).setStatus
          (.ofLogic (Size.cut .b32 ((low m.regs r).setWidth 64) ^^^
            Size.cut .b32 ((low m.regs r').setWidth 64))
              (undef (.alu .xor .b32 (.reg r) (.reg r')) m))) := rfl
  rw [hcut, hcut] at hexec
  refine ⟨_, hexec, ?_, ?_⟩
  · rw [Machine.regs_setStatus, regs_setReg_eq]
    exact congrArg (fun v : BitVec 32 ↦ Function.update m.regs r (v.setWidth 64)) (setWidth_low _)
  · rw [Machine.status_setStatus]
    exact agree_ofLogic _ _ _

theorem leaves_test32 (hc : c.instr = .test .b32 (.reg r) (.reg r')) :
    Leaves [c] ⟨id, fun g ↦ some (.ofLogic (low g r &&& low g r') (.ofBits 0))⟩ := by
  apply leaves_chunk
  intro undef rest m
  rw [hc]
  have hcut : ∀ r : Gpr, Size.cut .b32 ((low m.regs r).setWidth 64) = low m.regs r :=
    fun r ↦ setWidth_low (low m.regs r)
  have hexec : (Semantics.core undef rest).exec (.test .b32 (.reg r) (.reg r')) m =
      some (m.setStatus (.ofLogic (Size.cut .b32 ((low m.regs r).setWidth 64) &&&
        Size.cut .b32 ((low m.regs r').setWidth 64)) (undef (.test .b32 (.reg r) (.reg r')) m))) := rfl
  rw [hcut, hcut] at hexec
  refine ⟨_, hexec, rfl, ?_⟩
  rw [Machine.status_setStatus]
  exact agree_ofLogic _ _ _

theorem leaves_aluImm64 {op : AluOp} {b : BitVec 64} (hadc : op ≠ .adc) (hsbb : op ≠ .sbb)
    (hc : c.instr = .aluImm op .b64 (.reg r) b) :
    Leaves [c] ⟨fun g ↦ if op = .cmp then g else Function.update g r (op.run false (.ofBits 0) (g r) b).1,
      fun g ↦ some (op.run false (.ofBits 0) (g r) b).2⟩ := by
  apply leaves_chunk
  intro undef rest m
  rw [hc]
  obtain ⟨hresult, hagree⟩ := run_agree hadc hsbb (m.regs r) b false m.status.carry (.ofBits 0)
    (undef (.aluImm op .b64 (.reg r) b) m)
  refine ⟨m.arith (undef (.aluImm op .b64 (.reg r) b) m) op r b, execAlu_reg64, ?_, ?_⟩
  · rw [Machine.arith, Machine.regs_setStatus, hresult]
    by_cases hcmp : op = .cmp
    · rw [if_pos hcmp]
      exact (if_pos hcmp).symm
    · rw [if_neg hcmp, regs_setReg_eq]
      exact (if_neg hcmp).symm
  · rw [Machine.arith, Machine.status_setStatus]
    exact hagree

end Outcomes

end Arm2x86.X86
