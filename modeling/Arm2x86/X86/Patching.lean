import Arm2x86.X86.RoundTrip
import Mathlib.Data.BitVec

/-!
# Patched branches

`patch_rel32` (`modules/arm2x86_emit.c:511`) behind `emit_jmp`, `emit_call` and `emit_jcc`, and
`patch_jmp_target` (`modules/arm2x86_translate64.c:172`). The patch writes a displacement at the
position it is given, and only `emit_jcc` returns that of its displacement.
-/

namespace Arm2x86.X86

/-- `patch_rel32` at a position of the code at `base`. -/
def patchRel32 (base : BitVec 64) (code : List Byte) (pos : Nat) (target : BitVec 64) : List Byte :=
  let loc := base + BitVec.ofNat 64 pos
  if loc == 0 then code
  else code.take pos ++ imm32 ((target - loc - 4).setWidth 32) ++ code.drop (pos + 4)

/-- `patch_jmp_target`. -/
def patchJmpTarget (base : BitVec 64) (code : List Byte) (pos : Nat) (target : BitVec 64) :
    List Byte :=
  let loc := base + BitVec.ofNat 64 pos
  if loc == 0 || target == 0 then code
  else code.take (pos + 1) ++ imm32 ((target - (loc + 5)).setWidth 32) ++ code.drop (pos + 5)

/-- The branches that are patched; `emit_jcc` gets the second opcode byte of its condition. -/
inductive Branch where
  | jmp
  | call
  | jcc (cc : BitVec 4)
deriving DecidableEq, Repr

namespace Branch

/-- The bytes of a branch, and the position in them that its helper returns. -/
def emit (b : Branch) (offset : BitVec 32) : List Byte × Nat :=
  match b with
  | .jmp => emitJmp offset
  | .call => emitCall offset
  | .jcc cc => emitJcc (0x80 ||| cc.setWidth 8) offset

def opcode (b : Branch) : List Byte :=
  match b with
  | .jmp => [0xe9]
  | .call => [0xe8]
  | .jcc cc => [0x0f, 0x80 ||| cc.setWidth 8]

/-- The branch as an instruction. -/
def instr (b : Branch) (rel : BitVec 64) : Instr :=
  match b with
  | .jmp => .jmp rel
  | .call => .call rel
  | .jcc cc => .jcc cc rel

/-- The number of bytes of a branch. -/
def size (b : Branch) : Nat := b.opcode.length + 4

/-- The displacement that takes a branch at a position of the code at `base` to a target. -/
def distance (b : Branch) (base : BitVec 64) (pos : Nat) (target : BitVec 64) : BitVec 64 :=
  target - (base + BitVec.ofNat 64 (pos + b.size))

/-- A branch stands at a position and goes to a target, with its opcode bytes. -/
structure GoesTo (b : Branch) (base : BitVec 64) (code : List Byte) (pos : Nat)
    (target : BitVec 64) : Prop where
  intact : b.opcode <+: code.drop pos
  arrives : decode (code.drop pos) =
    some (b.instr (b.distance base pos target), code.drop (pos + b.size))

/-- When a branch survives its patch: always with a returned displacement; with a returned opcode
when the new displacement, one further, has the opcode for its first byte and its other bytes go on
as they have to. -/
def Patchable (b : Branch) (offset : BitVec 32) (distance : BitVec 64) : Prop :=
  match b with
  | .jmp => distance = 0xffffffffe8e8e8e8 ∧ (offset - 5).extractLsb' 24 8 = 0xe8
  | .call => distance = 0xffffffffe7e7e7e7 ∧ (offset - 5).extractLsb' 24 8 = 0xe7
  | .jcc _ => True

end Branch

/-- A displacement of 32 bits reaches a target. -/
def Near (distance : BitVec 64) : Prop := (distance.setWidth 32).signExtend 64 = distance

section Words

variable {a b c d a' b' c' d' : Byte}

/-- A word from its bytes, least significant first. -/
def leWord (a b c d : Byte) : BitVec 32 := d ++ c ++ b ++ a

private theorem toNat_leWord (a b c d : Byte) :
    (leWord a b c d).toNat = d.toNat * 2 ^ 24 + c.toNat * 2 ^ 16 + b.toNat * 2 ^ 8 + a.toNat := by
  rw [leWord, BitVec.toNat_append, BitVec.toNat_append, BitVec.toNat_append,
    ← Nat.shiftLeft_add_eq_or_of_lt a.isLt, ← Nat.shiftLeft_add_eq_or_of_lt b.isLt,
    ← Nat.shiftLeft_add_eq_or_of_lt c.isLt]
  simp only [Nat.shiftLeft_eq]
  omega

theorem leWord_inj (h : leWord a b c d = leWord a' b' c' d') :
    a = a' ∧ b = b' ∧ c = c' ∧ d = d' := by
  have hnat := congrArg BitVec.toNat h
  rw [toNat_leWord, toNat_leWord] at hnat
  have ha := a.isLt
  have hb := b.isLt
  have hc := c.isLt
  have ha' := a'.isLt
  have hb' := b'.isLt
  have hc' := c'.isLt
  simp only [← BitVec.toNat_inj]
  omega

theorem exists_leWord (v : BitVec 32) : ∃ a b c d, v = leWord a b c d :=
  ⟨_, _, _, _, (append_imm32 v).symm⟩

theorem imm32_leWord (a b c d : Byte) : imm32 (leWord a b c d) = [a, b, c, d] := by
  obtain ⟨ha, hb, hc, hd⟩ := leWord_inj (append_imm32 (leWord a b c d))
  rw [imm32, ha, hb, hc, hd]

/-- The next word, when the low byte does not wrap. -/
theorem leWord_succ (ha : a ≠ 0xff) (b c d : Byte) :
    leWord a b c d + 1 = leWord (a + 1) b c d := by
  have hne : a.toNat ≠ 255 := fun h ↦ ha (BitVec.eq_of_toNat_eq h)
  have hlt := a.isLt
  have hb := b.isLt
  have hc := c.isLt
  have hd := d.isLt
  have hlow : (a + 1).toNat = a.toNat + 1 := by
    rw [BitVec.toNat_add]
    exact Nat.mod_eq_of_lt (show a.toNat + 1 < 256 by omega)
  apply BitVec.eq_of_toNat_eq
  rw [BitVec.toNat_add, toNat_leWord, toNat_leWord, hlow]
  simp only [BitVec.ofNat_eq_ofNat, BitVec.toNat_ofNat]
  omega

/-- The low byte of the next word. -/
theorem low_leWord_succ (a b c d : Byte) : (leWord a b c d + 1).extractLsb' 0 8 = a + 1 := by
  apply BitVec.eq_of_toNat_eq
  rw [BitVec.extractLsb'_toNat, BitVec.toNat_add, BitVec.toNat_add, toNat_leWord]
  simp only [BitVec.ofNat_eq_ofNat, BitVec.toNat_ofNat, Nat.shiftRight_zero]
  omega

end Words

section Bytes

/-- A branch with a displacement, decoded. -/
theorem Branch.decode_instr (b : Branch) (rel : BitVec 32) (rest : List Byte) :
    decode (b.opcode ++ imm32 rel ++ rest) = some (b.instr (rel.signExtend 64), rest) := by
  cases b with
  | jmp => exact decode_jmp rel rest
  | call =>
    show decode (0xe8 :: (imm32 rel ++ rest)) = _
    rw [decode, takePrefixes_opcode rfl]
    simp [decodeOpcode, take32_imm32, Branch.instr]
  | jcc cc =>
    have key : ∀ cc : BitVec 4, (0x80 ||| cc.setWidth 8 : Byte) &&& 0xf0 = 0x80 ∧
        (0x80 ||| cc.setWidth 8 : Byte).extractLsb' 0 4 = cc := by
      decide
    have hdec := decode_jcc rel rest (key cc).1
    rw [(key cc).2] at hdec
    exact hdec

theorem Branch.instr_inj (b : Branch) {rel rel' : BitVec 64} (h : b.instr rel = b.instr rel') :
    rel = rel' := by
  cases b with
  | jmp => exact Instr.jmp.inj h
  | call => exact Instr.call.inj h
  | jcc cc => exact (Instr.jcc.inj h).2

/-- Four bytes of some code replaced. -/
theorem replace_four (pre old new post : List Byte) (hold : old.length = 4) :
    (pre ++ old ++ post).take pre.length ++ new ++ (pre ++ old ++ post).drop (pre.length + 4) =
      pre ++ new ++ post := by
  have hlen : pre.length + 4 = (pre ++ old).length := by rw [List.length_append, hold]
  rw [hlen, List.drop_left, List.append_assoc pre old post, List.take_left]

variable {base target : BitVec 64} {pre post : List Byte}

/-- What `patch_rel32` writes, from the displacement of the branch. -/
theorem patchRel32_eq {old : List Byte} (hold : old.length = 4)
    (hloc : base + BitVec.ofNat 64 pre.length ≠ 0) :
    patchRel32 base (pre ++ old ++ post) pre.length target =
      pre ++ imm32 ((target - (base + BitVec.ofNat 64 (pre.length + 4))).setWidth 32) ++ post := by
  have hnext : target - (base + BitVec.ofNat 64 pre.length) - 4 =
      target - (base + BitVec.ofNat 64 (pre.length + 4)) := by
    rw [BitVec.ofNat_add, ← BitVec.add_assoc]
    exact (sub_add_eq_sub_sub target _ 4#64).symm
  unfold patchRel32
  simp only [beq_iff_eq, hloc, if_false]
  rw [hnext, replace_four pre old _ post hold]

/-- A branch with its displacement stands where it has to. -/
theorem Branch.goesTo_of_distance (b : Branch) {rel : BitVec 32}
    (h : rel.signExtend 64 = b.distance base pre.length target) :
    b.GoesTo base (pre ++ (b.opcode ++ imm32 rel ++ post)) pre.length target := by
  have hlen : (b.opcode ++ imm32 rel).length = b.size := by
    rw [List.length_append]
    rfl
  refine ⟨?_, ?_⟩
  · rw [List.drop_left, List.append_assoc]
    exact List.prefix_append _ _
  · rw [List.drop_left, ← List.drop_drop, List.drop_left, ← hlen, List.drop_left, ← h]
    exact b.decode_instr rel post

/-- A branch that goes to a target has the displacement to it, which reaches. -/
theorem Branch.GoesTo.bytes {b : Branch} {code : List Byte} {pos : Nat} (h : b.GoesTo base code pos target)
    (hlen : pos + b.size ≤ code.length) : Near (b.distance base pos target) ∧
      b.opcode ++ imm32 ((b.distance base pos target).setWidth 32) <+: code.drop pos := by
  obtain ⟨rest, hrest⟩ := h.intact
  have hrestLen : 4 ≤ rest.length := by
    have hdrop := congrArg List.length hrest
    rw [List.length_append, List.length_drop] at hdrop
    rw [Branch.size] at hlen
    omega
  obtain ⟨w₀, w₁, w₂, w₃, post, rfl⟩ : ∃ w₀ w₁ w₂ w₃ post, rest = w₀ :: w₁ :: w₂ :: w₃ :: post := by
    match rest, hrestLen with
    | w₀ :: w₁ :: w₂ :: w₃ :: post, _ => exact ⟨w₀, w₁, w₂, w₃, post, rfl⟩
  have hcode : code.drop pos = b.opcode ++ imm32 (leWord w₀ w₁ w₂ w₃) ++ post := by
    rw [← hrest, imm32_leWord, List.append_assoc]
    rfl
  have hrel : (leWord w₀ w₁ w₂ w₃).signExtend 64 = b.distance base pos target := by
    have harrives := h.arrives
    rw [hcode, b.decode_instr] at harrives
    exact b.instr_inj (Prod.mk.inj (Option.some.inj harrives)).1
  have hword : (b.distance base pos target).setWidth 32 = leWord w₀ w₁ w₂ w₃ := by
    rw [← hrel]
    ext i hi
    have hwide : i < 64 := by omega
    rw [BitVec.getElem_setWidth, BitVec.getLsbD_signExtend, if_pos hi, decide_eq_true hwide,
      Bool.true_and, BitVec.getLsbD_eq_getElem hi]
  rw [Near, hword, hcode]
  exact ⟨hrel, List.prefix_append _ _⟩

end Bytes

section Opcodes

variable {base target : BitVec 64} {pre post : List Byte}

/-- A patch over the opcode: the four bytes of the displacement, one further, and what was left of
the old one. -/
theorem patchRel32_opcode (b : Branch) {e : Byte} (hop : b.opcode = [e + 1]) (v : BitVec 32)
    (hloc : base + BitVec.ofNat 64 pre.length ≠ 0) :
    patchRel32 base (pre ++ (b.opcode ++ imm32 v) ++ post) pre.length target =
      pre ++ (imm32 ((b.distance base pre.length target).setWidth 32 + 1) ++
        v.extractLsb' 24 8 :: post) := by
  have hcode : pre ++ (b.opcode ++ imm32 v) ++ post =
      pre ++ [e + 1, v.extractLsb' 0 8, v.extractLsb' 8 8, v.extractLsb' 16 8] ++
        (v.extractLsb' 24 8 :: post) := by
    rw [hop, imm32]
    simp
  have hnext : target - (base + BitVec.ofNat 64 (pre.length + 4)) =
      b.distance base pre.length target + 1 := by
    have hsize : b.size = 4 + 1 := by rw [Branch.size, hop]; rfl
    have hsum : base + BitVec.ofNat 64 (pre.length + (4 + 1)) =
        base + BitVec.ofNat 64 (pre.length + 4) + 1 := by
      rw [← Nat.add_assoc, BitVec.ofNat_add (pre.length + 4) 1, ← BitVec.add_assoc]
      rfl
    rw [Branch.distance, hsize, hsum, sub_add_eq_sub_sub _ _ (1 : BitVec 64), sub_add_cancel]
  rw [hcode, patchRel32_eq rfl hloc, hnext, BitVec.setWidth_add _ _ (by decide),
    List.append_assoc]
  rfl

/-- When such a branch goes to its target. -/
theorem Branch.goesTo_opcode_iff (b : Branch) {e o : Byte} (hop : b.opcode = [e + 1])
    (he : e ≠ 0xff) (hnear : Near (b.distance base pre.length target)) :
    b.GoesTo base
        (pre ++ (imm32 ((b.distance base pre.length target).setWidth 32 + 1) ++ o :: post))
        pre.length target ↔
      b.distance base pre.length target = (leWord e e e e).signExtend 64 ∧ o = e := by
  have hsize : b.size = 5 := by rw [Branch.size, hop]; rfl
  obtain ⟨w₀, w₁, w₂, w₃, hword⟩ := exists_leWord ((b.distance base pre.length target).setWidth 32)
  rw [Near, hword] at hnear
  rw [hword]
  constructor
  · rintro ⟨hintact, harrives⟩
    rw [List.drop_left, hop] at hintact
    have hlow : e + 1 = w₀ + 1 := by
      rw [← low_leWord_succ w₀ w₁ w₂ w₃]
      exact (List.cons_prefix_cons.mp hintact).1
    obtain rfl : e = w₀ := add_right_cancel hlow
    rw [leWord_succ he, imm32_leWord, List.drop_left] at harrives
    have hdec := b.decode_instr (leWord w₁ w₂ w₃ o) post
    rw [hop, imm32_leWord] at hdec
    have hrel := b.instr_inj (Prod.mk.inj (Option.some.inj (hdec.symm.trans harrives))).1
    rw [← hnear] at hrel
    obtain ⟨rfl, rfl, rfl, rfl⟩ := leWord_inj (signExtend_inj hrel)
    exact ⟨hnear.symm, rfl⟩
  · rintro ⟨hdist, ho⟩
    rw [hdist] at hnear
    have hbytes : imm32 (leWord w₀ w₁ w₂ w₃ + 1) ++ o :: post =
        b.opcode ++ imm32 (leWord e e e e) ++ post := by
      rw [signExtend_inj hnear, leWord_succ he, imm32_leWord, imm32_leWord, hop, ho]
      rfl
    rw [hbytes]
    exact b.goesTo_of_distance hdist.symm

end Opcodes

section Patches

variable {base target : BitVec 64} {pre post : List Byte}

/-- The code with a branch after `patch_rel32` got the position its helper returned. -/
def Branch.patched (b : Branch) (offset : BitVec 32) (base : BitVec 64) (pre post : List Byte)
    (target : BitVec 64) : List Byte :=
  patchRel32 base (pre ++ (b.emit offset).1 ++ post) (pre.length + (b.emit offset).2) target

/-- A returned displacement is the one the branch has. -/
theorem goesTo_patched_jcc (cc : BitVec 4) (offset : BitVec 32)
    (hloc : base + BitVec.ofNat 64 (pre.length + 2) ≠ 0)
    (hnear : Near ((Branch.jcc cc).distance base pre.length target)) :
    (Branch.jcc cc).GoesTo base ((Branch.jcc cc).patched offset base pre post target) pre.length
      target := by
  have hlen : (pre ++ (Branch.jcc cc).opcode).length = pre.length + 2 := by
    rw [List.length_append]
    rfl
  have hcode : pre ++ ((Branch.jcc cc).emit offset).1 ++ post =
      (pre ++ (Branch.jcc cc).opcode) ++ imm32 (offset - 6) ++ post := by
    rw [List.append_assoc pre _ (imm32 (offset - 6))]
    rfl
  have hpatch : (Branch.jcc cc).patched offset base pre post target =
      pre ++ ((Branch.jcc cc).opcode ++
        imm32 (((Branch.jcc cc).distance base pre.length target).setWidth 32) ++ post) := by
    show patchRel32 base _ (pre.length + 2) target = _
    rw [hcode, ← hlen, patchRel32_eq rfl (by rwa [hlen]), hlen, Nat.add_assoc, List.append_assoc,
      List.append_assoc, List.append_assoc]
    rfl
  rw [hpatch]
  exact (Branch.jcc cc).goesTo_of_distance hnear

/-- A returned opcode is written over. -/
theorem goesTo_patched_opcode_iff (b : Branch) {e : Byte} (hop : b.opcode = [e + 1])
    (he : e ≠ 0xff) {offset : BitVec 32} (hemit : b.emit offset = (b.opcode ++ imm32 (offset - 5), 0))
    (hloc : base + BitVec.ofNat 64 pre.length ≠ 0)
    (hnear : Near (b.distance base pre.length target)) :
    b.GoesTo base (b.patched offset base pre post target) pre.length target ↔
      b.distance base pre.length target = (leWord e e e e).signExtend 64 ∧
        (offset - 5).extractLsb' 24 8 = e := by
  rw [Branch.patched, hemit, Nat.add_zero, patchRel32_opcode b hop _ hloc]
  exact b.goesTo_opcode_iff hop he hnear

theorem goesTo_patched_iff (b : Branch) (offset : BitVec 32)
    (hloc : ∀ i < b.size, base + BitVec.ofNat 64 (pre.length + i) ≠ 0)
    (hnear : Near (b.distance base pre.length target)) :
    b.GoesTo base (b.patched offset base pre post target) pre.length target ↔
      b.Patchable offset (b.distance base pre.length target) := by
  cases b with
  | jmp =>
    have hstart := hloc 0 (by decide)
    rw [Nat.add_zero] at hstart
    exact goesTo_patched_opcode_iff .jmp (e := 0xe8) rfl (by decide) rfl hstart hnear
  | call =>
    have hstart := hloc 0 (by decide)
    rw [Nat.add_zero] at hstart
    exact goesTo_patched_opcode_iff .call (e := 0xe7) rfl (by decide) rfl hstart hnear
  | jcc cc =>
    exact iff_of_true (goesTo_patched_jcc cc offset (hloc 2 (by decide : 2 < 6)) hnear) trivial

/-- `patch_jmp_target` keeps the opcode; it does nothing for the null pointer. -/
theorem goesTo_patchJmpTarget_iff (v : BitVec 32)
    (hloc : base + BitVec.ofNat 64 pre.length ≠ 0)
    (hnear : Near (Branch.jmp.distance base pre.length target)) :
    Branch.jmp.GoesTo base (patchJmpTarget base (pre ++ (0xe9 :: imm32 v) ++ post) pre.length target)
        pre.length target ↔
      target ≠ 0 ∨ v.signExtend 64 = Branch.jmp.distance base pre.length target := by
  by_cases htarget : target = 0
  · have hcode : patchJmpTarget base (pre ++ (0xe9 :: imm32 v) ++ post) pre.length target =
        pre ++ (Branch.jmp.opcode ++ imm32 v ++ post) := by
      unfold patchJmpTarget
      simp only [htarget, beq_self_eq_true, Bool.or_true, if_true]
      rw [List.append_assoc]
      rfl
    rw [hcode]
    constructor
    · intro h
      have harrives := h.arrives
      rw [List.drop_left, Branch.jmp.decode_instr] at harrives
      exact Or.inr (Branch.jmp.instr_inj (Prod.mk.inj (Option.some.inj harrives)).1)
    · intro h
      exact Branch.jmp.goesTo_of_distance (h.resolve_left (not_not_intro htarget))
  · have hlen : (pre ++ [(0xe9 : Byte)]).length = pre.length + 1 := List.length_append
    have hcode : pre ++ (0xe9 :: imm32 v) ++ post = (pre ++ [0xe9]) ++ imm32 v ++ post := by
      rw [List.append_assoc pre [(0xe9 : Byte)] (imm32 v)]
      rfl
    have hnext : base + BitVec.ofNat 64 pre.length + 5 = base + BitVec.ofNat 64 (pre.length + 5) := by
      rw [BitVec.ofNat_add, ← BitVec.add_assoc]
      rfl
    have hpatch : patchJmpTarget base (pre ++ (0xe9 :: imm32 v) ++ post) pre.length target =
        pre ++ (Branch.jmp.opcode ++
          imm32 ((Branch.jmp.distance base pre.length target).setWidth 32) ++ post) := by
      have hreplace := replace_four (pre ++ [0xe9]) (imm32 v)
        (imm32 ((Branch.jmp.distance base pre.length target).setWidth 32)) post rfl
      rw [hlen] at hreplace
      unfold patchJmpTarget
      simp only [beq_iff_eq, htarget, hloc, if_false, Bool.or_eq_true, or_self]
      rw [hcode, hnext]
      refine hreplace.trans ?_
      rw [List.append_assoc, List.append_assoc, List.append_assoc]
      rfl
    rw [hpatch]
    exact iff_of_true (Branch.jmp.goesTo_of_distance hnear) (Or.inl htarget)

/-- A patched branch keeps its opcode and goes to its target when its helper returns a displacement,
otherwise where the bytes coincide; a patched jump does so for every target but the null pointer. -/
theorem patching_iff (b : Branch) (offset : BitVec 32)
    (hloc : ∀ i < b.size, base + BitVec.ofNat 64 (pre.length + i) ≠ 0)
    (hnear : Near (b.distance base pre.length target)) :
    (b.GoesTo base (b.patched offset base pre post target) pre.length target ↔
        b.Patchable offset (b.distance base pre.length target)) ∧
      (b = .jmp →
        (b.GoesTo base (patchJmpTarget base (pre ++ (b.emit offset).1 ++ post) pre.length target)
            pre.length target ↔
          target ≠ 0 ∨ (offset - 5).signExtend 64 = b.distance base pre.length target)) := by
  refine ⟨goesTo_patched_iff b offset hloc hnear, ?_⟩
  rintro rfl
  have hstart := hloc 0 (by decide)
  rw [Nat.add_zero] at hstart
  exact goesTo_patchJmpTarget_iff (offset - 5) hstart hnear

/-- A jump on `NE` behind a return, patched to the address `0x1010`. -/
theorem patching_jne :
    (Branch.jcc 5).GoesTo 0x1000 ((Branch.jcc 5).patched 0 0x1000 [0xc3] [] 0x1010) 1 0x1010 := by
  have hnear : Near ((Branch.jcc 5).distance 0x1000 [(0xc3 : Byte)].length 0x1010) := rfl
  exact (patching_iff (.jcc 5) 0 (by decide) hnear).1.mpr trivial

/-- A jump patched to the address `0x1010` has lost its opcode. -/
theorem patched_jmp_lost : ¬ Branch.jmp.GoesTo 0x1000 (Branch.jmp.patched 0 0x1000 [] [] 0x1010) 0
    0x1010 := by
  intro h
  exact absurd h.intact (by decide)

end Patches

end Arm2x86.X86
