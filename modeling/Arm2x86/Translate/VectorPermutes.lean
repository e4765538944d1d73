import Arm2x86.Translate.Vector
import Arm2x86.X86.Vectors

/-!
# Bitwise operations and permutations of vectors

What `neon_and` to `neon_mov` (`modules/arm2x86_neon.c:134`) leave in the vector registers. Operands are
encoded in three bits, so registers with the same number modulo 8 are one register, and nothing is
ever read from or written to the area for the upper ones. The instructions with two sources only get
one of them.
-/

namespace Arm2x86.A64

/-- The bitwise operations and permutations of vectors. -/
inductive Permute where
  | and
  | orr
  | eor
  | bsl
  | ext
  | mov
deriving DecidableEq, Repr

/-- What they leave in `Vd`, from its old value and the sources. `imm` is the first byte of `EXT`. -/
def Permute.result (d n m : BitVec 128) (imm : Byte) : Permute → BitVec 128
  | .and => n &&& m
  | .orr => n ||| m
  | .eor => n ^^^ m
  | .bsl => (d &&& n) ||| (~~~ d &&& m)
  | .ext => (m ++ n).extractLsb' (8 * imm.toNat) 128
  | .mov => n

end Arm2x86.A64

namespace Arm2x86.Translate

open X86
open A64 (Permute)

/-- `neon_mov` -/
def neonMov (dest src : Byte) : Code := vecOp [0x66, 0x0f, 0x7e] dest src

def translateNeonMov (op : BitVec 32) : List Code := [neonMov (vd op) (vn op)]

/-- The translator of an instruction. -/
def translatePermute (op : BitVec 32) : Permute → List Code
  | .and => translateNeonAnd op
  | .orr => translateNeonOrr op
  | .eor => translateNeonEor op
  | .bsl => translateNeonBsl op
  | .ext => translateNeonExt op
  | .mov => translateNeonMov op

section Statement

/-- The register that an operand for `V<r>` stands for. -/
def storage (r : BitVec 5) : Xmm := gpr false ((neonToXmm r &&& 7).setWidth 3)

/-- The values of the vector registers. -/
def VectorsHold (m : Machine) (v : BitVec 5 → BitVec 128) : Prop := ∀ r, m.vectors (storage r) = v r

/-- The instruction's result for some values. -/
def permuted (kind : Permute) (op : BitVec 32) (v : BitVec 5 → BitVec 128) : BitVec 128 :=
  kind.result (v (regAt op 0)) (v (regAt op 5)) (v (regAt op 16)) ((op.extractLsb' 11 4).setWidth 8)

/-- The registers can have these values, and from every such state the code comes to its end, with the
result in `Vd` and the others as before. -/
def PermutesRight (sem : Semantics) (kind : Permute) (op : BitVec 32) (v : BitVec 5 → BitVec 128) : Prop :=
  (∃ m, VectorsHold m v) ∧ ∀ m, m.pos = 0 → VectorsHold m v →
    ∃ m', sem.VecRuns (translatePermute op kind).flatten m m' ∧
      m'.pos = (translatePermute op kind).flatten.length ∧
      VectorsHold m' (Function.update v (regAt op 0) (permuted kind op v))

/-- When there is nothing to do: the result is in `Vd` already, and what is emitted leaves it. -/
def NothingToDo (op : BitVec 32) (v : BitVec 5 → BitVec 128) : Permute → Prop
  | .and => v (regAt op 5) &&& v (regAt op 16) = v (regAt op 0)
  | .orr => v (regAt op 5) ||| v (regAt op 16) = v (regAt op 0)
  | .eor => v (regAt op 16) = 0 ∧ v (regAt op 5) = v (regAt op 0)
  | .bsl => False
  | .ext =>
    let imm := (op.extractLsb' 11 4).setWidth 8
    alignVec (v (regAt op 16)) (v (regAt op 5)) imm = v (regAt op 0) ∧
      alignVec (v (regAt op 0)) (v (regAt op 16)) imm = v (regAt op 0)
  | .mov => v (regAt op 5) = v (regAt op 0)

end Statement

section Storage

variable {m : Machine} {v : BitVec 5 → BitVec 128}

theorem storage_low (r : BitVec 5) : storage (r &&& 7) = storage r := by
  have key : ∀ r, storage (r &&& 7) = storage r := by decide
  exact key r

/-- Every register shares its storage with another one. -/
theorem exists_shared (r : BitVec 5) : ∃ s, s ≠ r ∧ storage s = storage r := by
  have key : ∀ r : BitVec 5, r ^^^ 8 ≠ r ∧ storage (r ^^^ 8) = storage r := by decide
  exact ⟨r ^^^ 8, key r⟩

/-- Values of eight registers that can be in the others as well. -/
theorem exists_holds_iff : (∃ m, VectorsHold m v) ↔ ∀ r, v r = v (r &&& 7) := by
  constructor
  · rintro ⟨m, hm⟩ r
    rw [← hm r, ← hm (r &&& 7), storage_low]
  · intro h
    have hnumber : ∀ r, (storage r).setWidth 5 = r &&& 7 := by decide
    refine ⟨⟨fun _ ↦ 0, 0, fun x ↦ v (x.setWidth 5), fun _ ↦ none, 0, 0⟩, fun r ↦ ?_⟩
    show v ((storage r).setWidth 5) = v r
    rw [hnumber, ← h r]

/-- A value can be put into a register without a change of the others only if it is there already. -/
theorem holds_update_iff {m' : Machine} (hm : VectorsHold m v) (d : BitVec 5) (e : BitVec 128) :
    VectorsHold m' (Function.update v d e) ↔ e = v d ∧ VectorsHold m' v := by
  constructor
  · intro h
    obtain ⟨s, hs, hshared⟩ := exists_shared d
    have hsame : e = v d := by
      have hd := h d
      rw [Function.update_self] at hd
      have hv : v s = v d := by rw [← hm s, ← hm d, hshared]
      rw [← hd, ← hshared, h s, Function.update_of_ne hs, hv]
    rw [hsame, Function.update_eq_self] at h
    exact ⟨hsame, h⟩
  · rintro ⟨rfl, h⟩
    rwa [Function.update_eq_self]

end Storage

section OneInstruction

variable {sem : Semantics} {kind : Permute} {op : BitVec 32} {v : BitVec 5 → BitVec 128}

/-- Code of one instruction that computes `Vd` from its old value and `Vm`. -/
theorem permutesRight_iff {i : VecInstr} {f : BitVec 128 → BitVec 128 → BitVec 128}
    (hdec : decodeVec (translatePermute op kind).flatten = some (i, []))
    (hexec : ∀ m, ∃ m', i.exec m = some m' ∧ m'.pos = m.pos ∧
      m'.vectors = Function.update m.vectors (storage (regAt op 0))
        (f (m.vectors (storage (regAt op 0))) (m.vectors (storage (regAt op 16))))) :
    PermutesRight sem kind op v ↔ (∀ r, v r = v (r &&& 7)) ∧
      permuted kind op v = v (regAt op 0) ∧ f (v (regAt op 0)) (v (regAt op 16)) = v (regAt op 0) := by
  rw [PermutesRight, exists_holds_iff, and_congr_right_iff]
  intro hv
  obtain ⟨code, hcode⟩ : ∃ code, code = (translatePermute op kind).flatten := ⟨_, rfl⟩
  rw [← hcode] at hdec ⊢
  have hne : 0 ≠ code.length := by
    intro hlen
    rw [List.eq_nil_of_length_eq_zero hlen.symm] at hdec
    cases hdec
  have hstep : ∀ m : Machine, m.pos = 0 → VectorsHold m v → ∃ m', sem.vecStep code m = some m' ∧
      m'.pos = code.length ∧
      (VectorsHold m' v ↔ f (v (regAt op 0)) (v (regAt op 16)) = v (regAt op 0)) := by
    intro m hpos hm
    obtain ⟨m', hexec, hpos', hvec⟩ := hexec { m with pos := m.pos + code.length }
    have hcode : code.drop m.pos = code ++ [] := by rw [hpos, List.drop_zero, List.append_nil]
    rw [← List.append_nil code] at hdec
    refine ⟨m', ?_, ?_, ?_⟩
    · rw [Semantics.vecStep_of_decode hcode hdec]
      exact hexec
    · rw [hpos', hpos]
      exact Nat.zero_add _
    · have hm₀ : ∀ r, m.vectors (storage r) = v r := hm
      rw [hm₀, hm₀] at hvec
      constructor
      · intro h
        have hd := h (regAt op 0)
        rwa [hvec, Function.update_self] at hd
      · intro h r
        rw [hvec, h, ← hm₀, Function.update_eq_self, hm₀]
  constructor
  · intro h
    obtain ⟨m₀, hm₀⟩ := exists_holds_iff.mpr hv
    have hm : VectorsHold { m₀ with pos := 0 } v := hm₀
    obtain ⟨m', hrun, hend, hright⟩ := h _ rfl hm
    obtain ⟨m₁, hstep, hpos₁, hiff⟩ := hstep _ rfl hm
    obtain rfl := (Semantics.vecRuns_end_iff hstep hne hpos₁).mp ⟨hrun, hend⟩
    obtain ⟨hsame, hkept⟩ := (holds_update_iff hm _ _).mp hright
    exact ⟨hsame, hiff.mp hkept⟩
  · rintro ⟨hsame, hleft⟩ m hpos hm
    obtain ⟨m₁, hstep, hpos₁, hiff⟩ := hstep m hpos hm
    exact ⟨m₁, .single hstep, hpos₁, (holds_update_iff hm _ _).mpr ⟨hsame, hiff.mpr hleft⟩⟩

end OneInstruction

section Instructions

variable {sem : Semantics} (op : BitVec 32) {v : BitVec 5 → BitVec 128}

/-- An operation of two vector registers. -/
theorem decodeVec_combine {opcode : Byte} {f : VecOp} (h : combination opcode = some f) (x y : Byte) :
    decodeVec (vecOp [0x66, 0x0f, opcode] x y) =
      some (.combine f (gpr false ((x &&& 7).setWidth 3)) (.reg (gpr false ((y &&& 7).setWidth 3))),
        []) := by
  have hopcode : ∀ o : Byte, (combination o).isSome → o ≠ 0x3a#8 ∧ o ≠ 0x28#8 ∧
      o ≠ 0x29#8 ∧ o ≠ 0x6f#8 ∧ o ≠ 0x7e#8 ∧ o ≠ 0xc4#8 := by decide
  obtain ⟨h1, h2, h3, h4, h5, h6⟩ := hopcode opcode (by rw [h]; rfl)
  simp [vecOp, decodeVec, takePrefixes, decodeVec0F, takeRm_modrm3, takeReg, h1, h2, h3, h4, h5, h6, h,
    Prefixes.none, Prefixes.b, Prefixes.r]

/-- What such an operation leaves. -/
theorem permutesRight_combine {kind : Permute} {opcode : Byte} {f : VecOp}
    (hcode : translatePermute op kind = [vecOp [0x66, 0x0f, opcode] (vd op) (vm op)])
    (h : combination opcode = some f) :
    PermutesRight sem kind op v ↔ (∀ r, v r = v (r &&& 7)) ∧
      permuted kind op v = v (regAt op 0) ∧
        f.run (v (regAt op 0)) (v (regAt op 16)) = v (regAt op 0) := by
  apply permutesRight_iff
  · rw [hcode, List.flatten_singleton]
    exact decodeVec_combine h (vd op) (vm op)
  · exact fun m ↦ ⟨_, rfl, rfl, rfl⟩

theorem permutesRight_ext : PermutesRight sem .ext op v ↔
    (∀ r, v r = v (r &&& 7)) ∧ NothingToDo op v .ext := by
  apply permutesRight_iff (i := .align (storage (regAt op 0)) (.reg (storage (regAt op 16)))
    ((op.extractLsb' 11 4).setWidth 8))
    (f := fun d m ↦ alignVec d m ((op.extractLsb' 11 4).setWidth 8))
  · rw [translatePermute, translateNeonExt, List.flatten_singleton]
    simp [vecOp, decodeVec, takePrefixes, decodeVec0F, decodeVec0F3A, takeRm_modrm3, takeReg, take8,
      Prefixes.none, Prefixes.b, Prefixes.r, storage, vd, vm]
  · exact fun m ↦ ⟨_, rfl, rfl, rfl⟩

/-- The move is one to a general register. -/
theorem permutesRight_mov : PermutesRight sem .mov op v ↔
    (∀ r, v r = v (r &&& 7)) ∧ NothingToDo op v .mov := by
  rw [permutesRight_iff (i := .extract .b32 (.reg (storage (regAt op 5))) (storage (regAt op 0)) 0)
    (f := fun d _ ↦ d)]
  · rw [permuted, Permute.result, NothingToDo, and_iff_left rfl]
  · rw [translatePermute, translateNeonMov, List.flatten_singleton]
    simp [neonMov, vecOp, decodeVec, takePrefixes, decodeVec0F, takeRm_modrm3, takeReg, 
      Prefixes.none, Prefixes.b, Prefixes.r, Prefixes.w, storage, vd, vn]
  · intro m
    refine ⟨_, rfl, rfl, ?_⟩
    rw [Function.update_eq_self]
    rfl

variable (undef : Instr → Machine → Status) (rest : Instr → Machine → Option Machine)

/-- The first access to a slot of `BSL`, at an absolute address. -/
theorem decodeVec_slot (x : Byte) (tail : List Byte) :
    decodeVec (vecSlot [0x0f, 0x29] x 5 0x00 ++ tail) =
      some (.store (.mem none none 0) (gpr false ((x &&& 7).setWidth 3)), tail) := by
  have hrm : ∀ reg : Byte, (modrm 0 reg 4).extractLsb' 6 2 = 0 ∧ (modrm 0 reg 4).extractLsb' 0 3 = 4 := by
    decide
  have htake : takeRm .none .b64 (modrm 0 (x &&& 7) 4 :: sib 0 4 5 :: 0 :: 0 :: 0 :: 0 :: tail) =
      some (.mem none none 0, tail) := by
    rw [takeRm, (hrm _).1, (hrm _).2]
    rfl
  have hreg : takeReg .none (modrm 0 (x &&& 7) 4 :: sib 0 4 5 :: 0 :: 0 :: 0 :: 0 :: tail) =
      gpr false ((x &&& 7).setWidth 3) := by
    simp [takeReg, Prefixes.none, Prefixes.r]
  have hstore : decodeVec0F .none (0x29 :: modrm 0 (x &&& 7) 4 :: sib 0 4 5 :: 0 :: 0 :: 0 :: 0 :: tail) =
      some (.store (.mem none none 0) (gpr false ((x &&& 7).setWidth 3)), tail) := by
    rw [decodeVec0F, htake, hreg]
    rfl
  exact hstore

/-- That access faults where nothing is mapped. -/
theorem not_permutesRight_bsl : ¬ PermutesRight (Semantics.core undef rest) .bsl op v := by
  rintro ⟨⟨m₀, hm₀⟩, h⟩
  let m : Machine := { m₀ with mem := fun _ ↦ none, pos := 0 }
  obtain ⟨m', hrun, hend, -⟩ := h m rfl hm₀
  obtain ⟨tail, htail⟩ : ∃ tail, (translatePermute op .bsl).flatten =
      [0x48, 0x83, 0xec, 0x30] ++ (vecSlot [0x0f, 0x29] (vd op) 5 0x00 ++ tail) := ⟨_, rfl⟩
  rw [htail] at hrun hend
  obtain ⟨m₁, hstep₁, hpos₁, hmem₁⟩ : ∃ m₁, (Semantics.core undef rest).vecStep
      ([0x48, 0x83, 0xec, 0x30] ++ (vecSlot [0x0f, 0x29] (vd op) 5 0x00 ++ tail)) m = some m₁ ∧
      m₁.pos = 4 ∧ m₁.mem = fun _ ↦ none := by
    have hdec : ∀ tail, X86.decode ([0x48, 0x83, 0xec, 0x30] ++ tail) =
        some (.aluImm .sub .b64 (.reg 4) 0x30, tail) := fun _ ↦ decode_prefixes rfl rfl
    rw [Semantics.vecStep_of_none rfl, Semantics.step_of_decode _ rfl (hdec _)]
    exact ⟨_, rfl, rfl, rfl⟩
  have hstuck : (Semantics.core undef rest).vecStep
      ([0x48, 0x83, 0xec, 0x30] ++ (vecSlot [0x0f, 0x29] (vd op) 5 0x00 ++ tail)) m₁ = none := by
    rw [Semantics.vecStep_of_decode (by rw [hpos₁]; rfl) (decodeVec_slot (vd op) tail)]
    have hload : ∀ a, m₁.load a 16 = none := by
      intro a
      apply Sparse.load_eq_none (i := 0) (by decide)
      rw [hmem₁]
    have hstore : ∀ p bs, bs.length = 16 → { m₁ with pos := p }.store 0 bs = none := by
      intro p bs hbs
      have hnone : { m₁ with pos := p }.load 0 bs.length = none := by
        rw [hbs]
        exact hload 0
      rw [Machine.store, hnone]
      rfl
    exact hstore _ _ rfl
  rcases Semantics.vecRuns_of_step hstep₁ hrun with rfl | hrun
  · cases hend
  · rw [Semantics.vecRuns_of_stuck hstuck hrun, hpos₁] at hend
    cases hend

end Instructions

section Result

variable (undef : Instr → Machine → Status) (rest : Instr → Machine → Option Machine)

/-- The vector operations and permutations come out right when registers with the same number modulo 8
have the same value and there is nothing to do; a `BSL` never does. -/
theorem permutesRight_core_iff (kind : Permute) (op : BitVec 32) (v : BitVec 5 → BitVec 128) :
    PermutesRight (Semantics.core undef rest) kind op v ↔
      (∀ r, v r = v (r &&& 7)) ∧ NothingToDo op v kind := by
  cases kind with
  | and =>
    rw [permutesRight_combine (f := .and) op rfl rfl, and_congr_right_iff]
    intro _
    constructor
    · exact fun h ↦ h.1
    · intro h
      refine ⟨h, ?_⟩
      rw [← h]
      exact BitVec.and_assoc _ _ _ |>.trans (by rw [BitVec.and_self])
  | orr =>
    rw [permutesRight_combine (f := .or) op rfl rfl, and_congr_right_iff]
    intro _
    constructor
    · exact fun h ↦ h.1
    · intro h
      refine ⟨h, ?_⟩
      rw [← h]
      exact BitVec.or_assoc _ _ _ |>.trans (by rw [BitVec.or_self])
  | eor =>
    rw [permutesRight_combine (f := .xor) op rfl rfl, and_congr_right_iff]
    intro _
    show v (regAt op 5) ^^^ v (regAt op 16) = _ ∧ v (regAt op 0) ^^^ v (regAt op 16) = _ ↔ _
    constructor
    · rintro ⟨hresult, hleft⟩
      have hzero : v (regAt op 16) = 0 :=
        (BitVec.xor_right_inj (v (regAt op 0))).mp (hleft.trans BitVec.xor_zero.symm)
      rw [hzero] at hresult
      exact ⟨hzero, (BitVec.xor_zero).symm.trans hresult⟩
    · rintro ⟨hzero, hsame⟩
      rw [hzero, hsame]
      exact ⟨BitVec.xor_zero, BitVec.xor_zero⟩
  | bsl => exact iff_of_false (not_permutesRight_bsl op undef rest) fun h ↦ h.2
  | ext => exact permutesRight_ext op
  | mov => exact permutesRight_mov op

/-- `AND V0.16B, V1.16B, V2.16B` of ones leaves what is in `V0`. -/
theorem and_missed :
    ¬ PermutesRight (Semantics.core (fun _ m ↦ m.status) fun _ _ ↦ none) .and 0x4e221c20
      fun r ↦ if r &&& 7 = 0 then 0 else BitVec.allOnes 128 := by
  intro h
  have hresult := ((permutesRight_combine (f := .and) _ rfl rfl).mp h).2.1
  revert hresult
  decide

end Result

end Arm2x86.Translate
