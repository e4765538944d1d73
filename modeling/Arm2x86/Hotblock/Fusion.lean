import Arm2x86.Hotblock.Capacity
import Arm2x86.X86.Moved

/-!
# Instruction fusion

A pair of instructions and what it is fused into, from the same state, each in its own code. The pair is
kept exactly when its immediate makes the two results the same, and when as many bytes have been left
out in front of the target of its jump as in front of the instruction behind it.
-/

namespace Arm2x86.Hotblock

open Rewriting X86

section Statement

variable (s : Source)

/-- The bytes that a fused pair is shorter by. -/
def Fusion.cut : Fusion → Nat
  | .cmpJe => 4
  | _ => 0

/-- The indices that the pass comes to, with the number of bytes left out in front of them. -/
inductive Comes : Nat → Nat → Prop
  | start : Comes 0 0
  | copied {src r : Nat} (h : Comes src r) (hlt : src < s.size) (hnone : fusionAt s src = none) :
      Comes (src + 1) r
  | fused {src r : Nat} {f : Fusion} (h : Comes src r) (hlt : src < s.size)
      (hf : fusionAt s src = some f) : Comes (src + f.len) (r + f.cut)

/-- Where the pass comes to in its input and in its output. -/
abbrev FusionReached : Nat → Nat → Prop :=
  Reached (fun (_ : Unit) src ↦ (fusionTurn s src, ())) s.size () ()

variable (base base' : BitVec 64)

/-- An offset of the code and one of the output are the same target: within the code, the output has
there what the pass has made of what stands at the offset, and elsewhere they are the same address. -/
def SameTarget (p q : Int) : Prop :=
  if 0 ≤ p ∧ p < s.size then ∃ dst : Nat, FusionReached s p.toNat dst ∧ q = dst
  else base' + BitVec.ofInt 64 q = base + BitVec.ofInt 64 p

/-- The same branch to the same target. -/
def SameBranch (b b' : CondJump) : Prop :=
  b'.taken = b.taken ∧ (b.taken = true → SameTarget s base base' b.target b'.target)

/-- The same registers, memory and branch. -/
def SameEffect (e e' : Effect) : Prop :=
  e'.regs = e.regs ∧ e'.mem = e.mem ∧ Option.Rel (SameBranch s base base') e.branch e'.branch

/-- From each state, the two instructions at an index of the code do what those at an index of the output
do. -/
def FusedRight (sem : Semantics) (out : List Byte) (src dst : Nat) : Prop :=
  ∀ m : Machine, m.pos = src → m.codeBase = base →
    Option.Rel (SameEffect s base base') (pairEffect sem s.code m)
      (pairEffect sem out (m.moved dst base'))

/-- As many bytes are left out in front of a target within the code as in front of what follows the jump,
and the code has been moved by that many otherwise. -/
def TargetKept (r : Nat) (p : Int) : Prop :=
  if 0 ≤ p ∧ p < s.size then Comes s p.toNat r else base' = base + BitVec.ofNat 64 r

/-- When a pair is kept that stands behind `r` bytes that are left out. -/
def Fusion.Kept (src r : Nat) : Fusion → Prop
  | .subSbb | .cmpSetcc => True
  | .cmpJe =>
    s.word32 (src + 3) = 0 ∧
      TargetKept s base base' (r + 4) (src + 13 + (s.word32 (src + 9)).toInt)
  | .andJcc =>
    s.word32 (src + 3) = BitVec.allOnes 32 ∧
      TargetKept s base base' r (src + 13 + (s.word32 (src + 9)).toInt)

/-- A comparison and the instruction behind it are two instructions of three bytes. The other patterns
have the lengths of their instructions. -/
def Fusion.Pair (src : Nat) (f : Fusion) : Prop :=
  f = .cmpSetcc → ∃ c₁ c₂ : Chunk, c₁.bytes = slice s.bytes src 3 ∧ c₂.bytes = slice s.bytes (src + 3) 3

end Statement

section Places

variable {s : Source} {src dst r : Nat}

theorem length_items_fusionTurn {f : Fusion} (hf : fusionAt s src = some f) :
    (fusionTurn s src).len = f.len ∧ (fusionTurn s src).items.length + f.cut = f.len := by
  unfold fusionTurn
  rw [hf]
  cases f <;> simp [Turn.items, Fusion.emits, Fusion.len, Fusion.cut]

theorem fusionTurn_none (hf : fusionAt s src = none) : fusionTurn s src = s.copyByte src := by
  unfold fusionTurn
  rw [hf]

/-- The index in the output is the one in the input less what has been left out. -/
theorem Comes.reached (h : Comes s src r) : ∃ dst, FusionReached s src dst ∧ dst + r = src := by
  induction h with
  | start => exact ⟨0, .start, rfl⟩
  | @copied src r _ hlt hnone ih =>
    obtain ⟨dst, hreached, hdst⟩ := ih
    have hnext := hreached.turn hlt
    dsimp only at hnext
    rw [fusionTurn_none hnone] at hnext
    exact ⟨dst + 1, hnext, by omega⟩
  | @fused src r f _ hlt hf ih =>
    obtain ⟨dst, hreached, hdst⟩ := ih
    obtain ⟨hlen, hitems⟩ := length_items_fusionTurn hf
    have hnext := hreached.turn hlt
    dsimp only at hnext
    rw [hlen] at hnext
    exact ⟨_, hnext, by omega⟩

theorem Comes.of_reached {u : Unit}
    (h : Reached (fun (_ : Unit) src ↦ (fusionTurn s src, ())) s.size () u src dst) :
    ∃ r, Comes s src r ∧ dst + r = src := by
  induction h with
  | start => exact ⟨0, .start, rfl⟩
  | @turn _ src dst _ hlt ih =>
    obtain ⟨r, hcomes, hdst⟩ := ih
    cases hf : fusionAt s src with
    | none =>
      refine ⟨r, ?_, ?_⟩
      · dsimp only
        rw [fusionTurn_none hf]
        exact hcomes.copied hlt hf
      · dsimp only
        rw [fusionTurn_none hf]
        show dst + 1 + r = src + 1
        omega
    | some f =>
      obtain ⟨hlen, hitems⟩ := length_items_fusionTurn hf
      refine ⟨r + f.cut, ?_, ?_⟩
      · dsimp only
        rw [hlen]
        exact hcomes.fused hlt hf
      · dsimp only
        omega

/-- Behind a jump as many bytes are left out as in front of its target. -/
theorem sameTarget_iff {base base' : BitVec 64} {next dst r : Nat} {p q : Int} (hdst : dst + r = next)
    (hq : q - dst = p - next) : SameTarget s base base' p q ↔ TargetKept s base base' r p := by
  unfold SameTarget TargetKept
  split
  · next hp =>
    constructor
    · rintro ⟨dst', hreached, hq'⟩
      obtain ⟨r', hcomes, hdst'⟩ := Comes.of_reached hreached
      have hr : r' = r := by omega
      rwa [hr] at hcomes
    · intro hcomes
      obtain ⟨dst', hreached, hdst'⟩ := hcomes.reached
      exact ⟨dst', hreached, by omega⟩
  · have hofInt : BitVec.ofInt 64 p = BitVec.ofInt 64 q + BitVec.ofNat 64 r := by
      have hp : p = q + (r : Int) := by omega
      rw [hp, BitVec.ofInt_add, BitVec.ofInt_natCast]
    rw [hofInt, BitVec.add_comm (BitVec.ofInt 64 q), ← BitVec.add_assoc]
    exact BitVec.add_left_inj _

end Places

section Effects

variable {undef : Instr → Machine → Status} {rest : Instr → Machine → Option Machine}
  {code : List Byte} {m : Machine} {imm rel : BitVec 32} {modrm modrm2 op : Byte}

theorem zero_ofSub (a b : BitVec 64) : (Status.ofSub a b false).zero = (a - b == 0) := by
  show (a - b - 0#64 == 0) = _
  rw [BitVec.sub_zero]

/-- What a jump behind seven bytes is relative to. -/
theorem target_seven (pos : Nat) (rel : Int) : ((pos + 7 : Nat) : Int) + 6 + rel = pos + 13 + rel := by
  omega

/-- A comparison with an immediate and a jump on equality. -/
theorem effect_cmpJe
    (hat : At code m.pos ((0x48 :: 0x81 :: 0xf8 :: imm32 imm) ++ (0x0f :: 0x84 :: imm32 rel))) :
    pairEffect (.core undef rest) code m = some ⟨m.regs, m.mem,
      some ⟨m.regs 0 - imm.signExtend 64 == 0, m.pos + 13 + rel.toInt⟩⟩ := by
  have hdec : ∀ tail, decode ((0x48 :: 0x81 :: 0xf8 :: imm32 imm) ++ tail) =
      some (.aluImm .cmp .b64 (.reg 0) (imm.signExtend 64), tail) :=
    fun tail ↦ decode_aluImm32 rfl imm
  obtain ⟨u, hstep⟩ := step_aluImm64 hat.left hdec
  have htaken : (((m.past 7).arith u .cmp 0 (imm.signExtend 64)).status).holds 4 =
      (m.regs 0 - imm.signExtend 64 == 0) := by
    rw [holds_je, Machine.arith, Machine.status_setStatus]
    exact zero_ofSub _ _
  exact pairEffect_jcc hstep rfl hat.right rfl rfl htaken (target_seven _ _)

/-- A test of `RAX` and a jump on equality. -/
theorem effect_testJe
    (hat : At code m.pos ([0x48, 0x85, 0xc0] ++ (0x0f :: 0x84 :: imm32 rel))) :
    pairEffect (.core undef rest) code m = some ⟨m.regs, m.mem,
      some ⟨m.regs 0 == 0, m.pos + 9 + rel.toInt⟩⟩ := by
  have hdec : ∀ tail, decode ([0x48, 0x85, 0xc0] ++ tail) =
      some (.test .b64 (.reg 0) (.reg 0), tail) :=
    fun tail ↦ decode_test rfl
  obtain ⟨u, hstep⟩ := step_test64 hat.left hdec
  have htaken : (((m.past 3).tested u 0 (m.regs 0)).status).holds 4 = (m.regs 0 == 0) := by
    rw [holds_je, Machine.tested, Machine.status_setStatus]
    show (m.regs 0 &&& m.regs 0 == 0) = _
    rw [BitVec.and_self]
  have htarget : ((m.pos + 3 : Nat) : Int) + 6 + rel.toInt = m.pos + 9 + rel.toInt := by omega
  exact pairEffect_jcc hstep rfl hat.right rfl rfl htaken htarget

/-- A jump on whether the result of a logical operation is zero. -/
theorem holds_ofLogic {a : BitVec 64} {u : Status} {cc : BitVec 4} (hcc : cc = 4 ∨ cc = 5) :
    (Status.ofLogic a u).holds cc = ((a == 0) != cc.getLsbD 0) := by
  rcases hcc with rfl | rfl
  · rw [holds_je]
    exact (Bool.bne_false _).symm
  · rw [holds_jne]
    exact (Bool.bne_true _).symm

/-- The opcodes of `JZ` and `JNZ`. -/
theorem jz_or_jnz (hop : op = 0x84 ∨ op = 0x85) :
    op &&& 0xf0 = 0x80 ∧ (op.extractLsb' 0 4 = 4 ∨ op.extractLsb' 0 4 = 5) := by
  rcases hop with rfl | rfl <;> decide

/-- `AND` with an immediate and a jump on whether the result is zero. -/
theorem effect_andJcc (hop : op = 0x84 ∨ op = 0x85) (hmod : modField modrm = 3)
    (hext : regField modrm = 4)
    (hat : At code m.pos ((0x48 :: 0x81 :: modrm :: imm32 imm) ++ (0x0f :: op :: imm32 rel))) :
    let result := m.regs (lowGpr (rmField modrm)) &&& imm.signExtend 64
    pairEffect (.core undef rest) code m =
      some ⟨(m.setReg (lowGpr (rmField modrm)) result).regs, m.mem,
        some ⟨(result == 0) != (op.extractLsb' 0 4).getLsbD 0, m.pos + 13 + rel.toInt⟩⟩ := by
  have hdec : ∀ tail, decode ((0x48 :: 0x81 :: modrm :: imm32 imm) ++ tail) =
      some (.aluImm .and .b64 (.reg (lowGpr (rmField modrm))) (imm.signExtend 64), tail) := by
    intro tail
    have h := @decode_aluImm32 modrm tail hmod imm
    rw [hext] at h
    exact h
  obtain ⟨hrow, hcc⟩ := jz_or_jnz hop
  obtain ⟨u, hstep⟩ := step_aluImm64 hat.left hdec
  refine pairEffect_jcc hstep hrow hat.right rfl rfl ?_ (target_seven _ _)
  rw [Machine.arith, Machine.status_setStatus]
  exact holds_ofLogic hcc

/-- `TEST` with an immediate and a jump on whether the result is zero. -/
theorem effect_testJcc (hop : op = 0x84 ∨ op = 0x85) (hmod : modField modrm = 3)
    (hext : regField modrm = 0)
    (hat : At code m.pos ((0x48 :: 0xf7 :: modrm :: imm32 imm) ++ (0x0f :: op :: imm32 rel))) :
    let result := m.regs (lowGpr (rmField modrm)) &&& imm.signExtend 64
    pairEffect (.core undef rest) code m =
      some ⟨m.regs, m.mem,
        some ⟨(result == 0) != (op.extractLsb' 0 4).getLsbD 0, m.pos + 13 + rel.toInt⟩⟩ := by
  have hdec : ∀ tail, decode ((0x48 :: 0xf7 :: modrm :: imm32 imm) ++ tail) =
      some (.testImm .b64 (.reg (lowGpr (rmField modrm))) (imm.signExtend 64), tail) :=
    fun tail ↦ decode_testImm32 hmod hext imm
  obtain ⟨hrow, hcc⟩ := jz_or_jnz hop
  obtain ⟨u, hstep⟩ := step_testImm64 hat.left hdec
  refine pairEffect_jcc hstep hrow hat.right rfl rfl ?_ (target_seven _ _)
  rw [Machine.tested, Machine.status_setStatus]
  exact holds_ofLogic hcc

/-- A register less itself, or xor itself. -/
theorem arith_self {aop : AluOp} (haop : aop = .sub ∨ aop = .xor) (u : Status) (r : Gpr) :
    (m.arith u aop r (m.regs r)).regs = (m.setReg r 0).regs ∧
      (m.arith u aop r (m.regs r)).status.carry = false := by
  rcases haop with rfl | rfl
  · constructor
    · show (m.setReg r (m.regs r - m.regs r)).regs = _
      rw [BitVec.sub_self]
      rfl
    · rw [Machine.arith, Machine.status_setStatus]
      exact decide_eq_false (Nat.lt_irrefl _)
  · constructor
    · show (m.setReg r (m.regs r ^^^ m.regs r)).regs = _
      rw [BitVec.xor_self]
      rfl
    · rw [Machine.arith, Machine.status_setStatus]
      rfl

/-- A register less itself with a borrow that is clear. -/
theorem arith_sbb_self (u : Status) (r : Gpr) (hcarry : m.status.carry = false) :
    (m.arith u .sbb r (m.regs r)).regs = (m.setReg r 0).regs := by
  show (m.setReg r (m.regs r - m.regs r - (BitVec.ofBool m.status.carry).setWidth 64)).regs = _
  rw [hcarry, BitVec.sub_self]
  rfl

/-- A register that is cleared by `SUB` or by `XOR`. -/
theorem step_clear {aop : AluOp} (haop : aop = .sub ∨ aop = .xor) (hop : op &&& 0xc7 = 0x01)
    (hrow : aluOp (op.extractLsb' 3 3) = aop) (hmod : modField modrm = 3)
    (hreg : regField modrm = rmField modrm) (hat : At code m.pos [0x48, op, modrm]) :
    ∃ m₁, (Semantics.core undef rest).step code m = some m₁ ∧
      m₁.regs = (m.setReg (lowGpr (rmField modrm)) 0).regs ∧ m₁.status.carry = false ∧
      m₁.mem = m.mem ∧ m₁.pos = m.pos + 3 := by
  have hdec : ∀ tail, decode ([0x48, op, modrm] ++ tail) = some (.alu aop .b64
      (.reg (lowGpr (rmField modrm))) (.reg (lowGpr (rmField modrm))), tail) := by
    intro tail
    have h := @decode_row modrm tail op hop hmod
    rw [hrow, hreg] at h
    exact h
  obtain ⟨u, hstep⟩ := step_alu64 hat hdec
  obtain ⟨hregs, hcarry⟩ := @arith_self (m.past 3) aop haop u (lowGpr (rmField modrm))
  exact ⟨_, hstep, hregs, hcarry, Machine.mem_arith .., Machine.pos_arith ..⟩

/-- A register less itself with a borrow that is clear. -/
theorem step_sbb (hmod : modField modrm = 3) (hreg : regField modrm = rmField modrm)
    (hcarry : m.status.carry = false) (hat : At code m.pos [0x48, 0x19, modrm]) :
    ∃ m₁, (Semantics.core undef rest).step code m = some m₁ ∧
      m₁.regs = (m.setReg (lowGpr (rmField modrm)) 0).regs ∧ m₁.mem = m.mem := by
  have hdec : ∀ tail, decode ([0x48, 0x19, modrm] ++ tail) = some (.alu .sbb .b64
      (.reg (lowGpr (rmField modrm))) (.reg (lowGpr (rmField modrm))), tail) := by
    intro tail
    have h := @decode_row modrm tail 0x19 rfl hmod
    rw [hreg] at h
    exact h
  obtain ⟨u, hstep⟩ := step_alu64 hat hdec
  refine ⟨_, hstep, ?_, Machine.mem_arith ..⟩
  exact @arith_sbb_self (m.past 3) u (lowGpr (rmField modrm)) hcarry

/-- A register that is cleared, and another one less itself with the borrow. -/
theorem effect_clearSbb {aop : AluOp} (haop : aop = .sub ∨ aop = .xor) (hop : op &&& 0xc7 = 0x01)
    (hrow : aluOp (op.extractLsb' 3 3) = aop) (hmod : modField modrm = 3)
    (hreg : regField modrm = rmField modrm) (hmod2 : modField modrm2 = 3)
    (hreg2 : regField modrm2 = rmField modrm2)
    (hat : At code m.pos ([0x48, op, modrm] ++ [0x48, 0x19, modrm2])) :
    pairEffect (.core undef rest) code m =
      some ⟨((m.setReg (lowGpr (rmField modrm)) 0).setReg (lowGpr (rmField modrm2)) 0).regs, m.mem,
        none⟩ := by
  obtain ⟨m₁, hstep, hregs, hcarry, hmem, hpos⟩ :=
    @step_clear undef rest _ _ _ _ _ haop hop hrow hmod hreg hat.left
  have hsecond : At code m₁.pos [0x48, 0x19, modrm2] := by
    rw [hpos]
    exact hat.right
  obtain ⟨m₂, hstep₂, hregs₂, hmem₂⟩ := @step_sbb undef rest _ _ _ hmod2 hreg2 hcarry hsecond
  have hdec := fun tail ↦ @decode_row modrm2 tail 0x19 rfl hmod2
  rw [pairEffect_seq hstep hsecond hdec (by simp), hstep₂, Option.map_some, hregs₂, hmem₂, hmem]
  congr 2
  unfold Machine.setReg
  rw [hregs]
  rfl

theorem instr_cmp {c : Chunk} (hbytes : c.bytes = [0x48, 0x39, modrm]) :
    ∃ loc g, loc.Fixed ∧ c.instr = .alu .cmp .b64 loc (.reg g) := by
  have hdec := c.decodes []
  rw [List.append_nil, hbytes, decode, takePrefixes_48 rfl] at hdec
  have hsize : opSize rexW 0x39#8 = .b64 := rfl
  simp [decodeOpcode, hsize] at hdec
  obtain ⟨⟨loc, tail⟩, htake, hinstr⟩ := Option.bind_eq_some_iff.mp hdec
  obtain ⟨hinstr, -⟩ := Prod.mk.inj (Option.some.inj hinstr)
  exact ⟨loc, _, fixed_of_takeRm htake, hinstr.symm⟩

theorem instr_setcc {c : Chunk} (hbytes : c.bytes = [0x0f, op, modrm]) (hop : op &&& 0xf0 = 0x90) :
    ∃ loc cc, loc.Fixed ∧ c.instr = .setcc cc loc := by
  have hdec := c.decodes []
  have key : ∀ o : Byte, o &&& 0xf0#8 = 0x90#8 →
      o ≠ 0x05#8 ∧ o ≠ 0x31#8 ∧ o ≠ 0x38#8 ∧ o ≠ 0x3a#8 := by
    decide
  obtain ⟨h1, h2, h3, h4⟩ := key op hop
  have hrow : op &&& 0xf0#8 = 0x90#8 := hop
  rw [List.append_nil, hbytes, decode, takePrefixes_opcode rfl] at hdec
  simp [decodeOpcode, decode0F, h1, h2, h3, h4, hrow] at hdec
  obtain ⟨⟨loc, tail⟩, htake, hinstr⟩ := Option.bind_eq_some_iff.mp hdec
  obtain ⟨hinstr, -⟩ := Prod.mk.inj (Option.some.inj hinstr)
  exact ⟨loc, _, fixed_of_takeRm htake, hinstr.symm⟩

end Effects

section Patterns

variable {s : Source} {base base' : BitVec 64} {src dst r : Nat} {out : List Byte}
  {undef : Instr → Machine → Status} {rest : Instr → Machine → Option Machine}

theorem fusedRight_iff {sem : Semantics} {e e' : Machine → Effect}
    (hin : ∀ m, m.pos = src → pairEffect sem s.code m = some (e m))
    (hout : ∀ m, m.pos = dst → pairEffect sem out m = some (e' m)) :
    FusedRight s base base' sem out src dst ↔
      ∀ m, m.pos = src → m.codeBase = base →
        SameEffect s base base' (e m) (e' (m.moved dst base')) := by
  unfold FusedRight
  constructor
  · intro h m hpos hbase
    have hm := h m hpos hbase
    rwa [hin m hpos, hout _ rfl, Option.rel_some_some] at hm
  · intro h m hpos hbase
    rw [hin m hpos, hout _ rfl, Option.rel_some_some]
    exact h m hpos hbase

/-- A state with a value in all registers. -/
def uniform (v : BitVec 64) (src : Nat) (base : BitVec 64) : Machine where
  regs := fun _ ↦ v
  flags := 0
  vectors := fun _ ↦ 0
  mem := fun _ ↦ none
  codeBase := base
  pos := src

/-- The comparison with an immediate is the test when the immediate is zero. -/
theorem cmpJe_right_iff {imm rel : BitVec 32} (hdst : dst + r = src)
    (hin : At s.code src ((0x48 :: 0x81 :: 0xf8 :: imm32 imm) ++ (0x0f :: 0x84 :: imm32 rel)))
    (hout : At out dst ([0x48, 0x85, 0xc0] ++ (0x0f :: 0x84 :: imm32 rel))) :
    FusedRight s base base' (.core undef rest) out src dst ↔
      imm = 0 ∧ TargetKept s base base' (r + 4) (src + 13 + rel.toInt) := by
  have htarget : SameTarget s base base' (src + 13 + rel.toInt) (dst + 9 + rel.toInt) ↔
      TargetKept s base base' (r + 4) (src + 13 + rel.toInt) := by
    have hnext : dst + 9 + (r + 4) = src + 13 := by omega
    exact sameTarget_iff hnext (by omega)
  rw [← htarget, fusedRight_iff (fun m hm ↦ effect_cmpJe (hm ▸ hin))
    (fun m hm ↦ effect_testJe (hm ▸ hout))]
  constructor
  · intro h
    obtain ⟨-, -, hbranch⟩ := h (uniform 0 src base) rfl rfl
    rw [Option.rel_some_some] at hbranch
    obtain ⟨htaken, hsame⟩ := hbranch
    have hequal : (0#64 - imm.signExtend 64 == 0#64) = true := htaken.symm
    have hzero : imm.signExtend 64 = (0#32).signExtend 64 := by
      rw [beq_iff_eq, BitVec.zero_sub, BitVec.neg_eq_zero_iff] at hequal
      exact hequal
    exact ⟨signExtend_inj hzero, hsame hequal⟩
  · rintro ⟨rfl, hsame⟩ m hpos -
    refine ⟨rfl, rfl, Option.rel_some_some.mpr ⟨?_, fun _ ↦ ?_⟩⟩
    · show (m.regs 0 == 0) = (m.regs 0 - 0#64 == 0)
      rw [BitVec.sub_zero]
    · rw [hpos]
      exact hsame

/-- The conjunction with an immediate is the test when it changes nothing. -/
theorem andJcc_right_iff {imm rel : BitVec 32} {modrm modrm' op : Byte} (hdst : dst + r = src)
    (hop : op = 0x84 ∨ op = 0x85) (hmod : modField modrm = 3) (hext : regField modrm = 4)
    (hmod' : modField modrm' = 3) (hext' : regField modrm' = 0) (hrm : rmField modrm' = rmField modrm)
    (hin : At s.code src ((0x48 :: 0x81 :: modrm :: imm32 imm) ++ (0x0f :: op :: imm32 rel)))
    (hout : At out dst ((0x48 :: 0xf7 :: modrm' :: imm32 imm) ++ (0x0f :: op :: imm32 rel))) :
    FusedRight s base base' (.core undef rest) out src dst ↔
      imm = BitVec.allOnes 32 ∧ TargetKept s base base' r (src + 13 + rel.toInt) := by
  have htarget : SameTarget s base base' (src + 13 + rel.toInt) (dst + 13 + rel.toInt) ↔
      TargetKept s base base' r (src + 13 + rel.toInt) := by
    have hnext : dst + 13 + r = src + 13 := by omega
    exact sameTarget_iff hnext (by omega)
  rw [← htarget, fusedRight_iff (fun m hm ↦ effect_andJcc hop hmod hext (hm ▸ hin))
    (fun m hm ↦ effect_testJcc hop hmod' hext' (hm ▸ hout))]
  have hones : (BitVec.allOnes 32).signExtend 64 = BitVec.allOnes 64 := by decide
  constructor
  · intro h
    obtain ⟨hregs, -, hbranch⟩ := h (uniform (BitVec.allOnes 64) src base) rfl rfl
    have hvalue : BitVec.allOnes 64 = BitVec.allOnes 64 &&& imm.signExtend 64 := by
      have hreg := congrFun hregs (lowGpr (rmField modrm))
      dsimp only at hreg
      rw [Machine.regs_setReg, if_pos rfl] at hreg
      exact hreg
    have himm : imm = BitVec.allOnes 32 := by
      apply signExtend_inj
      rw [hones, hvalue, BitVec.allOnes_and]
    subst himm
    refine ⟨rfl, ?_⟩
    rcases hop with rfl | rfl
    · -- `JZ` is taken where the register is zero
      obtain ⟨-, -, hzero⟩ := h (uniform 0 src base) rfl rfl
      apply (Option.rel_some_some.mp hzero).2
      have hresult : (uniform 0 src base).regs (lowGpr (rmField modrm)) &&&
          (BitVec.allOnes 32).signExtend 64 = 0 := BitVec.zero_and
      dsimp only
      rw [hresult]
      rfl
    · apply (Option.rel_some_some.mp hbranch).2
      have hresult : (uniform (BitVec.allOnes 64) src base).regs (lowGpr (rmField modrm)) &&&
          (BitVec.allOnes 32).signExtend 64 = BitVec.allOnes 64 := by
        rw [hones]
        exact BitVec.and_self
      dsimp only
      rw [hresult]
      rfl
  · rintro ⟨rfl, hsame⟩ m hpos -
    have hresult : m.regs (lowGpr (rmField modrm)) &&& (BitVec.allOnes 32).signExtend 64 =
        m.regs (lowGpr (rmField modrm)) := by
      rw [hones, BitVec.and_allOnes]
    refine ⟨?_, rfl, Option.rel_some_some.mpr ⟨?_, fun _ ↦ ?_⟩⟩
    · funext g
      dsimp only
      rw [hresult, Machine.regs_setReg]
      split
      · next hg =>
        rw [hg]
        rfl
      · rfl
    · rw [hrm]
      rfl
    · dsimp only
      rw [hpos]
      exact hsame

/-- A cleared register and a borrow that is clear, by either instruction. -/
theorem subSbb_right {modrm modrm2 : Byte} (hmod : modField modrm = 3)
    (hreg : regField modrm = rmField modrm) (hmod2 : modField modrm2 = 3)
    (hreg2 : regField modrm2 = rmField modrm2)
    (hin : At s.code src ([0x48, 0x29, modrm] ++ [0x48, 0x19, modrm2]))
    (hout : At out dst ([0x48, 0x31, modrm] ++ [0x48, 0x19, modrm2])) :
    FusedRight s base base' (.core undef rest) out src dst := by
  rw [fusedRight_iff
    (fun m hm ↦ effect_clearSbb (Or.inl rfl) rfl rfl hmod hreg hmod2 hreg2 (hm ▸ hin))
    (fun m hm ↦ effect_clearSbb (Or.inr rfl) rfl rfl hmod hreg hmod2 hreg2 (hm ▸ hout))]
  exact fun m _ _ ↦ ⟨rfl, rfl, .none⟩

/-- Two instructions that do not look at where they are. -/
theorem movable_right {sem : Semantics} {c₁ c₂ : Chunk} (h₁ : Movable sem c₁.instr)
    (h₂ : Movable sem c₂.instr) (hjcc : ∀ cc rel, c₂.instr ≠ .jcc cc rel)
    (hin : At s.code src (c₁.bytes ++ c₂.bytes)) (hout : At out dst (c₁.bytes ++ c₂.bytes)) :
    FusedRight s base base' sem out src dst := by
  intro m hpos _
  rw [pairEffect_movable h₁ h₂ hjcc (hpos ▸ hin)]
  rw [pairEffect_movable h₁ h₂ hjcc (m := m.moved dst base') hout, h₁]
  cases sem.exec c₁.instr m with
  | none => exact .none
  | some m₁ =>
    show Option.Rel _ ((sem.exec c₂.instr m₁).map _) ((sem.exec c₂.instr (m₁.moved dst base')).map _)
    rw [h₂]
    cases sem.exec c₂.instr m₁ with
    | none => exact .none
    | some m₂ => exact .some ⟨rfl, rfl, .none⟩

end Patterns

section Windows

variable {s : Source} {src dst r : Nat} {f : Fusion} (buf : Nat → Byte)

/-- The output of the pass. -/
def fused (s : Source) (buf : Nat → Byte) : List Byte :=
  slice (optimizeInstructionFusion s buf).buf 0 (optimizeInstructionFusion s buf).dst

theorem at_code {k : Nat} (h : src + k ≤ s.size + 13) : At s.code src (slice s.bytes src k) :=
  slice_stands h

/-- What is written for a pair stands in the output. -/
theorem at_fused (h : FusionReached s src dst) (hlt : src < s.size) (hf : fusionAt s src = some f) :
    At (fused s buf) dst ((f.emits s src).flatMap Emit.items) := by
  have hstands := h.stands hlt
  have hitems : (fusionTurn s src).items = (f.emits s src).flatMap Emit.items := by
    unfold fusionTurn
    rw [hf]
    rfl
  dsimp only at hstands
  rw [hitems] at hstands
  unfold At fused optimizeInstructionFusion
  rwa [slice_rewrite fun _ src ↦ fusionTurn_exact s src]

theorem fusionAt_found (hf : fusionAt s src = some f) : src + 5 < s.size ∧ f.found s src = true := by
  unfold fusionAt at hf
  split at hf
  · next hlt => exact ⟨hlt, List.find?_some hf⟩
  · cases hf

/-- The code and the output of a pair that ends in a jump. -/
theorem slice_thirteen (s : Source) (src : Nat) :
    slice s.bytes src 13 = (s.bytes src :: s.bytes (src + 1) :: s.bytes (src + 2) ::
      imm32 (s.word32 (src + 3))) ++ (s.bytes (src + 7) :: s.bytes (src + 8) ::
      imm32 (s.word32 (src + 9))) := by
  rw [← slice_word32, ← slice_word32]
  rfl

theorem slice_six (s : Source) (src : Nat) :
    slice s.bytes src 6 = [s.bytes src, s.bytes (src + 1), s.bytes (src + 2)] ++
      [s.bytes (src + 3), s.bytes (src + 4), s.bytes (src + 5)] := rfl

end Windows

section Pass

/-- Each pair that the pass fuses takes the same branches to the same targets and leaves the same
registers. -/
def FusionRight (sem : Semantics) (s : Source) (buf : Nat → Byte) (base base' : BitVec 64) : Prop :=
  ∀ src r f, Comes s src r → fusionAt s src = some f → f.Pair s src →
    FusedRight s base base' sem (fused s buf) src (src - r)

section Pairs

variable {undef : Instr → Machine → Status} {rest : Instr → Machine → Option Machine} {s : Source}
  {base base' : BitVec 64} {out : List Byte} {src dst r : Nat}

theorem cmpJe_pair_iff (hdst : dst + r = src) (hlt : src + 5 < s.size)
    (hfound : Fusion.cmpJe.found s src = true)
    (hout : At out dst ((Fusion.cmpJe.emits s src).flatMap Emit.items)) :
    FusedRight s base base' (.core undef rest) out src dst ↔ Fusion.cmpJe.Kept s base base' src r := by
  simp only [Fusion.found, decide_eq_true_eq] at hfound
  obtain ⟨h0, h1, h2, -, h7, h8⟩ := hfound
  have hin : At s.code src (slice s.bytes src 13) := at_code (by omega)
  rw [slice_thirteen, h0, h1, h2, h7, h8] at hin
  have hitems : (Fusion.cmpJe.emits s src).flatMap Emit.items =
      [0x48, 0x85, 0xc0] ++ (0x0f :: 0x84 :: imm32 (s.word32 (src + 9))) := by
    rw [← slice_word32]
    rfl
  rw [hitems] at hout
  exact cmpJe_right_iff hdst hin hout

theorem subSbb_pair_right (hlt : src + 5 < s.size) (hfound : Fusion.subSbb.found s src = true)
    (hout : At out dst ((Fusion.subSbb.emits s src).flatMap Emit.items)) :
    FusedRight s base base' (.core undef rest) out src dst := by
  simp only [Fusion.found, decide_eq_true_eq] at hfound
  obtain ⟨h0, h1, hmod, hreg, -, h3, h4, hmod2, hreg2⟩ := hfound
  have hin : At s.code src (slice s.bytes src 6) := at_code (by omega)
  rw [slice_six, h0, h1, h3, h4] at hin
  exact subSbb_right hmod hreg hmod2 hreg2 hin hout

theorem andJcc_pair_iff (hdst : dst + r = src) (hlt : src + 5 < s.size)
    (hfound : Fusion.andJcc.found s src = true)
    (hout : At out dst ((Fusion.andJcc.emits s src).flatMap Emit.items)) :
    FusedRight s base base' (.core undef rest) out src dst ↔ Fusion.andJcc.Kept s base base' src r := by
  simp only [Fusion.found, decide_eq_true_eq] at hfound
  obtain ⟨h0, h1, h2, -, h7, h8⟩ := hfound
  have hfields : ∀ b : Byte, b &&& 0xf8 = 0xe0 → modField b = 3 ∧ regField b = 4 ∧
      modField (0xc0 ||| b &&& 7) = 3 ∧ regField (0xc0 ||| b &&& 7) = 0 ∧
      rmField (0xc0 ||| b &&& 7) = rmField b := by
    decide
  obtain ⟨hmod, hext, hmod', hext', hrm⟩ := hfields _ h2
  have hin : At s.code src (slice s.bytes src 13) := at_code (by omega)
  rw [slice_thirteen, h0, h1, h7] at hin
  have hitems : (Fusion.andJcc.emits s src).flatMap Emit.items =
      (0x48 :: 0xf7 :: (0xc0 ||| s.bytes (src + 2) &&& 7) :: imm32 (s.word32 (src + 3))) ++
        (0x0f :: s.bytes (src + 8) :: imm32 (s.word32 (src + 9))) := by
    rw [← slice_word32, ← slice_word32]
    rfl
  rw [hitems] at hout
  exact andJcc_right_iff hdst h8 hmod hext hmod' hext' hrm hin hout

theorem cmpSetcc_pair_right (hlt : src + 5 < s.size) (hfound : Fusion.cmpSetcc.found s src = true)
    (hpair : Fusion.cmpSetcc.Pair s src)
    (hout : At out dst ((Fusion.cmpSetcc.emits s src).flatMap Emit.items)) :
    FusedRight s base base' (.core undef rest) out src dst := by
  simp only [Fusion.found, decide_eq_true_eq] at hfound
  obtain ⟨h0, h1, -, h3, hlo, hhi⟩ := hfound
  obtain ⟨c₁, c₂, hbytes₁, hbytes₂⟩ := hpair rfl
  have hsplit : slice s.bytes src 6 = c₁.bytes ++ c₂.bytes := by
    rw [hbytes₁, hbytes₂]
    rfl
  have hin : At s.code src (slice s.bytes src 6) := at_code (by omega)
  have hitems : (Fusion.cmpSetcc.emits s src).flatMap Emit.items = slice s.bytes src 6 := by
    rfl
  rw [hitems, hsplit] at hout
  rw [hsplit] at hin
  have hcmp : c₁.bytes = [0x48, 0x39, s.bytes (src + 2)] := by
    rw [hbytes₁, ← h0, ← h1]
    rfl
  have hsetcc : c₂.bytes = [0x0f, s.bytes (src + 4), s.bytes (src + 5)] := by
    rw [hbytes₂, ← h3]
    rfl
  have hrow : ∀ b : Byte, 0x90 ≤ b → b ≤ 0x9f → b &&& 0xf0 = 0x90 := by decide
  obtain ⟨loc, g, hfixed, hinstr₁⟩ := instr_cmp hcmp
  obtain ⟨loc', cc, hfixed', hinstr₂⟩ := instr_setcc hsetcc (hrow _ hlo hhi)
  refine movable_right ?_ ?_ ?_ hin hout
  · rw [hinstr₁]
    exact movable_cmp hfixed
  · rw [hinstr₂]
    exact movable_setcc hfixed'
  · rw [hinstr₂]
    simp

end Pairs

/-- A pair is kept exactly when its immediate and its target allow it. -/
theorem fused_pair_iff (undef : Instr → Machine → Status) (rest : Instr → Machine → Option Machine)
    (s : Source) (buf : Nat → Byte) (base base' : BitVec 64) {src r : Nat} {f : Fusion}
    (hcomes : Comes s src r) (hf : fusionAt s src = some f) (hpair : f.Pair s src) :
    FusedRight s base base' (.core undef rest) (fused s buf) src (src - r) ↔
      f.Kept s base base' src r := by
  obtain ⟨dst, hreached, hdst⟩ := hcomes.reached
  obtain ⟨hlt, hfound⟩ := fusionAt_found hf
  have hout := at_fused buf hreached (by omega) hf
  have hsub : src - r = dst := by omega
  rw [hsub]
  cases f with
  | cmpJe => exact cmpJe_pair_iff hdst hlt hfound hout
  | subSbb => exact iff_of_true (subSbb_pair_right hlt hfound hout) trivial
  | andJcc => exact andJcc_pair_iff hdst hlt hfound hout
  | cmpSetcc => exact iff_of_true (cmpSetcc_pair_right hlt hfound hpair hout) trivial

/-- `CMP RAX, 5` and `JE`, with zeros behind them. -/
def cmpFiveJe : Source where
  bytes := fun i ↦ [0x48, 0x81, 0xf8, 5, 0, 0, 0, 0x0f, 0x84].getD i 0
  size := 14

end Pass

end Arm2x86.Hotblock
