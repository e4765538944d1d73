import Arm2x86.Base.Memory
import Arm2x86.Translate.Jumps

/-!
# Translation ahead of time

`arm2x86_aot_translate`, `modules/arm2x86_easy.c:1206`, passes a whole file to the converter of basic
blocks, and writes what comes back behind a header with the size of the file. The converter stops
behind the first branch and after 64 instructions.
-/

namespace Arm2x86.Easy

open Translate

section Stretches

/-- What one turn of the loop of `arm2x86_convert_block` emits: the translation of an instruction. -/
structure Stretch where
  instr : Nat
  items : List Item

/-- The bytes of a stretch. -/
def Stretch.bytes (s : Stretch) : List Byte := s.items.flatMap Item.bytes

variable (env : Env) (stack : Stack) (blk : Block)

/-- The loop together with what its turns emit. -/
def emittingLoop : Nat → Nat → TranslateCtx → TranslateCtx × List Stretch
  | 0, _, t => (t, [])
  | fuel + 1, k, t =>
    if 4 * k < blk.size then
      let t' := translateStep env stack blk k t
      let stretch := ⟨k, t'.out.drop t.out.length⟩
      if isBlockTerminator (blk.decoded stack k).instrType then (t'.batchStore, [stretch])
      else
        let (t', stretches) := emittingLoop fuel (k + 1) t'
        (t', stretch :: stretches)
    else
      (t, [])

/-- The translations in the output of `arm2x86_convert_block`. -/
def stretches (x86Base : BitVec 64) : List Stretch :=
  (emittingLoop env stack blk maxInstructions 0 (startCtx stack blk x86Base)).2

variable {env stack blk}

/-- It is the loop of the model. -/
theorem emittingLoop_fst (fuel k : Nat) (t : TranslateCtx) :
    (emittingLoop env stack blk fuel k t).1 = convertLoop env stack blk fuel k t := by
  induction fuel generalizing k t with
  | zero => rfl
  | succ fuel ih =>
    unfold emittingLoop convertLoop
    dsimp only
    split
    · split
      · rfl
      · exact ih _ _
    · rfl

/-- The stretches follow each other in the output. -/
theorem emittingLoop_out (fuel k : Nat) (t : TranslateCtx) :
    t.out ++ (emittingLoop env stack blk fuel k t).2.flatMap Stretch.items <+:
      (emittingLoop env stack blk fuel k t).1.out := by
  induction fuel generalizing k t with
  | zero => simp [emittingLoop]
  | succ fuel ih =>
    have hstep : t.out <+: (translateStep env stack blk k t).out := out_prefix_translateOne t _ _ _ _
    have hstretch : t.out ++ (translateStep env stack blk k t).out.drop t.out.length =
        (translateStep env stack blk k t).out := List.prefix_iff_eq_append.mp hstep
    unfold emittingLoop
    dsimp only
    split
    · split
      · rw [List.flatMap_singleton, hstretch]
        exact out_prefix_batchStore _
      · rw [List.flatMap_cons, ← List.append_assoc, hstretch]
        exact ih _ _
    · simp

/-- The loop comes to an instruction unless it stops before. -/
theorem mem_emittingLoop_iff (fuel k : Nat) (t : TranslateCtx) (m : Nat) :
    m ∈ (emittingLoop env stack blk fuel k t).2.map Stretch.instr ↔
      k ≤ m ∧ m < k + fuel ∧ 4 * m < blk.size ∧
        ∀ j, k ≤ j → j < m → isBlockTerminator (blk.decoded stack j).instrType = false := by
  induction fuel generalizing k t with
  | zero =>
    constructor
    · exact fun hmem ↦ absurd hmem List.not_mem_nil
    · intro h
      omega
  | succ fuel ih =>
    unfold emittingLoop
    dsimp only
    split
    · next hk =>
      split
      · next hterm =>
        rw [List.map_singleton, List.mem_singleton]
        dsimp only
        constructor
        · rintro rfl
          exact ⟨Nat.le_refl m, Nat.lt_add_of_pos_right (Nat.succ_pos fuel), hk,
            fun j hj hlt ↦ absurd hj (Nat.not_le.mpr hlt)⟩
        · rintro ⟨hle, _, _, hnone⟩
          by_contra hne
          have hlt : k < m := by omega
          rw [hnone k (Nat.le_refl k) hlt] at hterm
          cases hterm
      · next hterm =>
        rw [List.map_cons, List.mem_cons, ih]
        dsimp only
        constructor
        · rintro (rfl | ⟨hle, hlt, hsize, hnone⟩)
          · exact ⟨Nat.le_refl m, Nat.lt_add_of_pos_right (Nat.succ_pos fuel), hk,
              fun j hj hlt ↦ absurd hj (Nat.not_le.mpr hlt)⟩
          · refine ⟨by omega, by omega, hsize, ?_⟩
            intro j hj hlt
            rcases Nat.eq_or_lt_of_le hj with rfl | hj
            · exact Bool.eq_false_iff.mpr hterm
            · exact hnone j hj hlt
        · rintro ⟨hle, hlt, hsize, hnone⟩
          rcases Nat.eq_or_lt_of_le hle with rfl | hle
          · exact .inl rfl
          · exact .inr ⟨hle, by omega, hsize, fun j hj hlt ↦ hnone j (by omega) hlt⟩
    · next hk =>
      constructor
      · exact fun hmem ↦ absurd hmem List.not_mem_nil
      · rintro ⟨hle, _, hsize, _⟩
        omega

/-- The instructions that are translated. -/
theorem mem_stretches_iff {x86Base : BitVec 64} (m : Nat) :
    (∃ s ∈ stretches env stack blk x86Base, s.instr = m) ↔
      m < maxInstructions ∧ 4 * m < blk.size ∧
        ∀ j, j < m → isBlockTerminator (blk.decoded stack j).instrType = false := by
  have hloop := @mem_emittingLoop_iff env stack blk maxInstructions 0 (startCtx stack blk x86Base) m
  rw [List.mem_map, Nat.zero_add] at hloop
  rw [stretches, hloop]
  simp only [Nat.zero_le, true_implies, true_and]

/-- Every stretch is in the output. -/
theorem bytes_infix {x86Base : BitVec 64} {s : Stretch} (hs : s ∈ stretches env stack blk x86Base) :
    s.bytes <:+: convertBlockBytes env stack blk x86Base := by
  have hloop := @emittingLoop_out env stack blk maxInstructions 0 (startCtx stack blk x86Base)
  rw [emittingLoop_fst] at hloop
  have hout : (startCtx stack blk x86Base).out ++
      (stretches env stack blk x86Base).flatMap Stretch.items <+:
        (convertBlock env stack blk x86Base).out :=
    hloop.trans ((out_prefix_batchStore _).trans (out_prefix_emit _ _))
  have hitems : s.items <:+: (convertBlock env stack blk x86Base).out := by
    obtain ⟨before, behind, hsplit⟩ := List.append_of_mem hs
    obtain ⟨rest, hrest⟩ := hout
    rw [hsplit, List.flatMap_append, List.flatMap_cons] at hrest
    refine ⟨(startCtx stack blk x86Base).out ++ before.flatMap Stretch.items,
      behind.flatMap Stretch.items ++ rest, ?_⟩
    rw [← hrest]
    simp only [List.append_assoc]
  obtain ⟨before, behind, hsplit⟩ := hitems
  refine ⟨before.flatMap Item.bytes, behind.flatMap Item.bytes, ?_⟩
  rw [convertBlockBytes, ← hsplit, List.flatMap_append, List.flatMap_append]
  rfl

end Stretches

section Aot

/-- `arm2x86_aot_config_t`: the fields that are written to the header. -/
structure AotConfig where
  sourceArch : BitVec 32
  baseAddress : BitVec 64

/-- The output file. -/
structure AotFile where
  magic : BitVec 32
  version : BitVec 32
  arch : BitVec 32
  armSize : Nat
  x86Size : Nat
  baseAddr : BitVec 64
  code : List Byte

/-- What a call meets: the buffer for the file, the memory around it, the mapping for the code, what
the translator depends on besides, and whether `mprotect` and the opening of the output succeed. -/
structure AotAnswers where
  buffer : Option (BitVec 64)
  memory : Memory
  mapping : Option (BitVec 64)
  env : Env
  stack : Stack
  mprotect : Bool
  output : Bool

/-- The file in its buffer. -/
def aotBlock (ans : AotAnswers) (file : List Byte) (buffer : BitVec 64) : Block where
  mem := ans.memory.write buffer file
  addr := buffer
  size := file.length

/-- `arm2x86_convert`, `modules/arm2x86_easy.c:1263` and `arm2x86.c:231`. -/
def convert (ans : AotAnswers) (blk : Block) : Option (List Byte) := do
  let mem ← ans.mapping
  let code := convertBlockBytes ans.env ans.stack blk mem
  guard (code.length ≠ 0 ∧ code.length ≤ blk.size / 4 * 16 + 4096)
  guard ans.mprotect
  return code

/-- `arm2x86_aot_translate` of a file; none where it does not return `ARM2X86_OK`. -/
def aotTranslate (config : AotConfig) (file : List Byte) (ans : AotAnswers) : Option AotFile := do
  guard (0 < file.length)
  let buffer ← ans.buffer
  let code ← convert ans (aotBlock ans file buffer)
  guard ans.output
  return {
    magic := 0x00544f41
    version := 1
    arch := config.sourceArch
    armSize := file.length
    x86Size := code.length
    baseAddr := config.baseAddress
    code }

/-- The code of an output file contains the translation of an instruction of the input. -/
def AotFile.Translates (out : AotFile) (ans : AotAnswers) (file : List Byte) (k : Nat) : Prop :=
  ∃ buffer mem, ans.buffer = some buffer ∧ ans.mapping = some mem ∧
    ∃ s ∈ stretches ans.env ans.stack (aotBlock ans file buffer) mem,
      s.instr = k ∧ s.bytes <:+: out.code

/-- There are 64 instructions at most, and none but the last is a branch. -/
def OneBlock (ans : AotAnswers) (file : List Byte) : Prop :=
  file.length / 4 ≤ maxInstructions ∧
    ∀ buffer k, ans.buffer = some buffer → 4 * (k + 1) + 4 ≤ file.length →
      isBlockTerminator ((aotBlock ans file buffer).decoded ans.stack k).instrType = false

variable {config : AotConfig} {file : List Byte} {ans : AotAnswers} {out : AotFile}

/-- What a call that returns `ARM2X86_OK` has met and written. -/
theorem aotTranslate_eq_some (h : aotTranslate config file ans = some out) :
    ∃ buffer mem, ans.buffer = some buffer ∧ ans.mapping = some mem ∧ out.armSize = file.length ∧
      out.code = convertBlockBytes ans.env ans.stack (aotBlock ans file buffer) mem := by
  unfold aotTranslate convert at h
  simp only [Option.bind_eq_bind, Option.bind_eq_some_iff, Option.pure_def, Option.some.injEq] at h
  obtain ⟨-, -, buffer, hbuffer, code, ⟨mem, hmem, -, -, -, -, rfl⟩, -, -, rfl⟩ := h
  exact ⟨buffer, mem, hbuffer, hmem, rfl, rfl⟩

/-- The instructions that the written code has. -/
theorem translates_iff (h : aotTranslate config file ans = some out) {buffer : BitVec 64}
    (hbuffer : ans.buffer = some buffer) (k : Nat) :
    out.Translates ans file k ↔ k < maxInstructions ∧ 4 * k < file.length ∧
      ∀ j, j < k →
        isBlockTerminator ((aotBlock ans file buffer).decoded ans.stack j).instrType = false := by
  obtain ⟨_, mem, hbuffer', hmem, -, hcode⟩ := aotTranslate_eq_some h
  rw [hbuffer, Option.some.injEq] at hbuffer'
  subst hbuffer'
  have hsize : (aotBlock ans file buffer).size = file.length := rfl
  rw [← hsize, ← mem_stretches_iff k]
  constructor
  · rintro ⟨_, _, hbuffer', hmem', s, hs, hk, -⟩
    rw [hbuffer, Option.some.injEq] at hbuffer'
    rw [hmem, Option.some.injEq] at hmem'
    subst hbuffer' hmem'
    exact ⟨s, hs, hk⟩
  · rintro ⟨s, hs, hk⟩
    exact ⟨buffer, mem, hbuffer, hmem, s, hs, hk, hcode ▸ bytes_infix hs⟩

/-- What is written for a file has all of its instructions when the file is one basic block. -/
theorem aotTranslate_complete_iff (h : aotTranslate config file ans = some out) :
    (out.armSize = file.length ∧ ∀ k, 4 * k + 4 ≤ file.length → out.Translates ans file k) ↔
      OneBlock ans file := by
  obtain ⟨buffer, -, hbuffer, -, hsize, -⟩ := aotTranslate_eq_some h
  simp only [translates_iff h hbuffer, hsize, true_and, OneBlock, hbuffer, Option.some.injEq]
  constructor
  · intro hall
    constructor
    · by_contra hmany
      have hlast := hall 64 (by simp only [maxInstructions] at hmany; omega)
      exact absurd hlast.1 (by decide)
    · rintro _ k rfl hk
      exact (hall (k + 1) hk).2.2 k (Nat.lt_succ_self k)
  · rintro ⟨hfew, hnone⟩ k hk
    refine ⟨by omega, by omega, ?_⟩
    intro j hj
    exact hnone buffer j rfl (by omega)

/-- Everything succeeds. -/
def AotAnswers.ok : AotAnswers where
  buffer := some 0x1000
  memory _ := 0
  mapping := some 0x10000
  env := .default
  stack := .zero
  mprotect := true
  output := true

/-- A `RET`. -/
theorem aotTranslate_complete_ret :
    ∃ out, aotTranslate ⟨0, 0⟩ [0xc0, 0x03, 0x5f, 0xd6] .ok = some out ∧
      ((out.armSize = 4 ∧ ∀ k, 4 * k + 4 ≤ 4 → out.Translates .ok [0xc0, 0x03, 0x5f, 0xd6] k) ↔
        OneBlock .ok [0xc0, 0x03, 0x5f, 0xd6]) := by
  obtain ⟨out, hout⟩ := Option.isSome_iff_exists.mp
    (show (aotTranslate ⟨0, 0⟩ [0xc0, 0x03, 0x5f, 0xd6] .ok).isSome by decide +kernel)
  exact ⟨out, hout, aotTranslate_complete_iff hout⟩

/-- `RET` and `NOP`: the second is not translated. -/
theorem nop_left_out :
    ∃ out, aotTranslate ⟨0, 0⟩ [0xc0, 0x03, 0x5f, 0xd6, 0x1f, 0x20, 0x03, 0xd5] .ok = some out ∧
      ¬ (out.armSize = 8 ∧ ∀ k, 4 * k + 4 ≤ 8 →
        out.Translates .ok [0xc0, 0x03, 0x5f, 0xd6, 0x1f, 0x20, 0x03, 0xd5] k) := by
  obtain ⟨out, hout⟩ := Option.isSome_iff_exists.mp
    (show (aotTranslate ⟨0, 0⟩ [0xc0, 0x03, 0x5f, 0xd6, 0x1f, 0x20, 0x03, 0xd5] .ok).isSome by
      decide +kernel)
  refine ⟨out, hout, fun ⟨_, hall⟩ ↦ ?_⟩
  have hsecond := (translates_iff hout rfl 1).mp (hall 1 (Nat.le_refl 8))
  have hret := hsecond.2.2 0 Nat.zero_lt_one
  revert hret
  decide +kernel

end Aot

end Arm2x86.Easy
