import Arm2x86.Tcache.PatchFrame
import Arm2x86.X86.Patching

/-!
# Chaining of translated blocks

`chain_blocks`, `modules/arm2x86_syscall.c:1051`. It goes through the code of a block byte by byte,
whatever instruction a byte belongs to, and the guest address it is given is not looked at. A byte is
looked at after all patches in front of it, so the places that are patched are those that read as
jumps in the code it leaves.
-/

namespace Arm2x86.Chaining

open Tcache X86

section Code

/-- The size of the jump that the bytes at a place read as, with `n` bytes up to the end. -/
def jumpSize (mem : Memory) (n : Nat) (p : Addr) : Option Nat :=
  if mem p = 0xe9 ∧ 5 ≤ n then some 5
  else if mem p = 0x0f ∧ 6 ≤ n ∧ 0x80 ≤ mem (p + 1) ∧ mem (p + 1) ≤ 0x8f then some 6
  else none

/-- What is written for such a jump, unless it goes to the null pointer or cannot reach the target. -/
def patchOf (target : Addr) (mem : Memory) (p : Addr) (size : Nat) : Option (Addr × List Byte) :=
  let next := p + BitVec.ofNat 64 size
  let patchLoc := p + BitVec.ofNat 64 (size - 4)
  let rel := BitVec.ofNat 32 (leNat (mem.read patchLoc 4))
  let jmpTarget := next + rel.signExtend 64
  let newRel := target - next
  if jmpTarget ≠ 0 ∧ -2 ^ 31 ≤ newRel.toInt ∧ newRel.toInt ≤ 2 ^ 31 - 1 then
    some (patchLoc, imm32 (newRel.setWidth 32))
  else none

/-- The loop of `chain_blocks`, with the number of bytes up to the end. -/
def chainLoop (target : Addr) : Nat → Addr → Memory → Memory
  | 0, _, mem => mem
  | n + 1, p, mem =>
    match (jumpSize mem (n + 1) p).bind (patchOf target mem p) with
    | none => chainLoop target n (p + 1) mem
    | some patch => chainLoop target n (p + 1) (mem.write patch.1 patch.2)

/-- `chain_blocks`; `enabled` is `g_block_chaining_enabled`. -/
def chainBlocks (enabled : Bool) (x86Block : Addr) (x86Size : Nat) (_exitArmPc targetX86 : Addr)
    (mem : Memory) : Int × Memory :=
  if enabled = false ∨ x86Block = 0 ∨ targetX86 = 0 then (-1, mem)
  else (0, chainLoop targetX86 x86Size x86Block mem)

end Code

section Scan

/-- The patches of a scan that takes the opcodes from some memory. -/
def patches (target : Addr) (opcodes : Memory → Memory) : Nat → Addr → Memory → List (Addr × List Byte)
  | 0, _, _ => []
  | n + 1, p, mem =>
    match (jumpSize (opcodes mem) (n + 1) p).bind (patchOf target mem p) with
    | none => patches target opcodes n (p + 1) mem
    | some patch => patch :: patches target opcodes n (p + 1) (mem.write patch.1 patch.2)

variable {target p q : Addr} {mem mem' : Memory} {opcodes : Memory → Memory} {n size : Nat}

theorem chainLoop_eq : chainLoop target n p mem = writeAll mem (patches target id n p mem) := by
  induction n generalizing p mem with
  | zero => rfl
  | succ n ih =>
    rw [chainLoop, patches, id_eq]
    split
    · exact ih
    · exact ih

theorem jumpSize_eq_some (h : jumpSize mem n p = some size) :
    (size = 5 ∧ mem p = 0xe9 ∧ 5 ≤ n) ∨ (size = 6 ∧ mem p = 0x0f ∧ 6 ≤ n) := by
  unfold jumpSize at h
  split_ifs at h with hjmp hjcc
  · exact Or.inl ⟨(Option.some.inj h).symm, hjmp⟩
  · exact Or.inr ⟨(Option.some.inj h).symm, hjcc.1, hjcc.2.1⟩

/-- What a place reads as depends on its byte, and on the next one behind the first byte of a `Jcc`. -/
theorem jumpSize_congr (hfirst : mem p = mem' p) (hsecond : mem p = 0x0f → mem (p + 1) = mem' (p + 1)) :
    jumpSize mem n p = jumpSize mem' n p := by
  by_cases hjcc : mem p = 0x0f
  · rw [jumpSize, jumpSize, ← hfirst, ← hsecond hjcc]
  · have hjcc' : mem' p ≠ 0x0f := hfirst ▸ hjcc
    simp only [jumpSize, hjcc', hfirst, false_and, if_false]

theorem patchOf_eq_some {patch : Addr × List Byte} (h : patchOf target mem p size = some patch) :
    patch.1 = p + BitVec.ofNat 64 (size - 4) ∧ patch.2.length = 4 := by
  obtain ⟨-, h⟩ := Option.ite_none_right_eq_some.mp h
  rw [← Option.some.inj h]
  exact ⟨rfl, rfl⟩

/-- The bytes of a place that is patched, from the last one of its opcode on. -/
theorem patched_region {patch : Addr × List Byte} (hn : n ≤ 2 ^ 64)
    (h : (jumpSize mem' n p).bind (patchOf target mem p) = some patch) (hq : q ∈ written patch) :
    0 < (q - p).toNat ∧ (q - p).toNat < n ∧ (mem' p = 0x0f → 1 < (q - p).toNat) := by
  obtain ⟨size, hsize, hpatch⟩ := Option.bind_eq_some_iff.mp h
  obtain ⟨hloc, hlen⟩ := patchOf_eq_some hpatch
  have hq : (q - (p + BitVec.ofNat 64 (size - 4))).toNat < 4 := by
    rw [← hloc, ← hlen]
    exact hq
  rcases jumpSize_eq_some hsize with ⟨rfl, hop, hle⟩ | ⟨rfl, hop, hle⟩
  · refine ⟨by bv_omega, by bv_omega, fun hjcc ↦ ?_⟩
    rw [hop] at hjcc
    exact absurd hjcc (by decide)
  · exact ⟨by bv_omega, by bv_omega, fun _ ↦ by bv_omega⟩

/-- The patches of a scan stay within what it goes through, behind the first byte. -/
theorem patches_region (hn : n ≤ 2 ^ 64) {patch : Addr × List Byte}
    (hpatch : patch ∈ patches target opcodes n p mem) (hq : q ∈ written patch) :
    0 < (q - p).toNat ∧ (q - p).toNat < n := by
  induction n generalizing p mem with
  | zero => cases hpatch
  | succ n ih =>
    have hrest : ∀ {m : Memory}, patch ∈ patches target opcodes n (p + 1) m →
        0 < (q - p).toNat ∧ (q - p).toNat < n + 1 := by
      intro m hmem
      have hlater := ih (by omega) hmem
      have hoff : (q - (p + 1)).toNat = ((q - p).toNat + (2 ^ 64 - 1)) % 2 ^ 64 := by bv_omega
      have hlt := (q - p).isLt
      omega
    rw [patches] at hpatch
    split at hpatch
    · exact hrest hpatch
    · next first hfirst =>
      rcases List.mem_cons.mp hpatch with rfl | hpatch
      · obtain ⟨hpos, hlt, -⟩ := patched_region hn hfirst hq
        exact ⟨hpos, hlt⟩
      · exact hrest hpatch

/-- A place reads in the memory that a scan leaves as it reads when the scan comes to it. -/
theorem jumpSize_final (hn : n + 1 < 2 ^ 64) (hmem : writeAll mem (patches target opcodes (n + 1) p mem) = mem')
    (hopcodes : opcodes mem = mem ∨ opcodes mem = mem') :
    jumpSize mem (n + 1) p = jumpSize mem' (n + 1) p := by
  have hfirst : mem' p = mem p := by
    rw [← hmem]
    apply writeAll_of_notMem
    intro patch hpatch hq
    have hpos := (patches_region (Nat.le_of_lt hn) hpatch hq).1
    rw [BitVec.sub_self] at hpos
    exact absurd hpos (Nat.lt_irrefl 0)
  refine jumpSize_congr hfirst.symm fun hjcc ↦ ?_
  have hread : opcodes mem p = 0x0f := by
    rcases hopcodes with h | h
    · rw [h, hjcc]
    · rw [h, hfirst, hjcc]
  have hnext : (p + 1 - p).toNat = 1 := by bv_omega
  have hlater : ∀ {m : Memory} {patch : Addr × List Byte},
      patch ∈ patches target opcodes n (p + 1) m → p + 1 ∉ written patch := by
    intro m patch hpatch hq
    have hpos := (patches_region (by omega) hpatch hq).1
    rw [BitVec.sub_self] at hpos
    exact absurd hpos (Nat.lt_irrefl 0)
  rw [← hmem]
  symm
  apply writeAll_of_notMem
  intro patch hpatch hq
  rw [patches] at hpatch
  split at hpatch
  · exact hlater hpatch hq
  · next first hfirst =>
    rcases List.mem_cons.mp hpatch with rfl | hpatch
    · have hbehind := (patched_region (Nat.le_of_lt hn) hfirst hq).2.2 hread
      rw [hnext] at hbehind
      exact absurd hbehind (Nat.lt_irrefl 1)
    · exact hlater hpatch hq

/-- A scan leaves some memory if and only if it does so with the opcodes of that memory. -/
theorem writeAll_patches_iff (hn : n < 2 ^ 64) :
    writeAll mem (patches target id n p mem) = mem' ↔
      writeAll mem (patches target (fun _ ↦ mem') n p mem) = mem' := by
  induction n generalizing p mem with
  | zero => exact Iff.rfl
  | succ n ih =>
    by_cases hsize : jumpSize mem (n + 1) p = jumpSize mem' (n + 1) p
    · rw [patches, patches, id_eq, hsize]
      split
      · exact ih (by omega)
      · exact ih (by omega)
    · constructor
      · exact fun h ↦ absurd (jumpSize_final hn h (Or.inl rfl)) hsize
      · exact fun h ↦ absurd (jumpSize_final hn h (Or.inr rfl)) hsize

end Scan

section Blocks

/-- `JMP`, or `Jcc` on a condition. -/
def jumpOf : Option (BitVec 4) → Branch
  | none => .jmp
  | some cc => .jcc cc

/-- The instructions of a block: jumps with a displacement of 32 bits, which stay in the block or exit
to a guest address, and others. -/
inductive Piece where
  | jump (cc : Option (BitVec 4)) (rel : BitVec 32) (exit : Option Addr)
  | other (bytes : List Byte)

namespace Piece

def bytes : Piece → List Byte
  | .jump cc rel _ => (jumpOf cc).opcode ++ imm32 rel
  | .other bs => bs

/-- The instruction at an offset of the code at `base`, with the displacement to a target if it is a
jump that exits to a guest address. -/
def retarget (exitArmPc base target : Addr) (pos : Nat) : Piece → Piece
  | .jump cc rel exit =>
    if exit = some exitArmPc then
      .jump cc (((jumpOf cc).distance base pos target).setWidth 32) exit
    else .jump cc rel exit
  | .other bs => .other bs

end Piece

/-- The code of some instructions. -/
def codeOf (ps : List Piece) : List Byte := ps.flatMap Piece.bytes

/-- The instructions from an offset on, with their exits retargeted. -/
def retargeted (exitArmPc base target : Addr) : Nat → List Piece → List Piece
  | _, [] => []
  | pos, x :: xs =>
    x.retarget exitArmPc base target pos :: retargeted exitArmPc base target (pos + x.bytes.length) xs

/-- A translated block. -/
structure Block where
  pieces : List Piece
  fits : (codeOf pieces).length < 2 ^ 64

namespace Block

variable (blk : Block)

def code : List Byte := codeOf blk.pieces

/-- A jump at an offset exits to a guest address. -/
def ExitsAt (armPc : Addr) (pos : Nat) (b : Branch) : Prop :=
  ∃ front cc rel back, blk.pieces = front ++ .jump cc rel (some armPc) :: back ∧
    pos = (codeOf front).length ∧ b = jumpOf cc

/-- The code with its exits to a guest address going to a target. -/
def chainedCode (exitArmPc base target : Addr) : List Byte :=
  codeOf (retargeted exitArmPc base target 0 blk.pieces)

end Block

/-- The displacement of a jump at an offset. -/
def displacement (base : Addr) (pos : Nat) (b : Branch) : Region :=
  ⟨base + BitVec.ofNat 64 (pos + b.opcode.length), 4⟩

variable (enabled : Bool) (mem : Memory) (x86Block : Addr) (blk : Block) (exitArmPc target : Addr)

/-- The memory with a block at an address. -/
def before : Memory := mem.write x86Block blk.code

/-- The memory that `chain_blocks` leaves. -/
def after : Memory :=
  (chainBlocks enabled x86Block blk.code.length exitArmPc target (before mem x86Block blk)).2

/-- The memory with the exits of the block to the guest address chained, and nothing else. -/
def chained : Memory := mem.write x86Block (blk.chainedCode exitArmPc x86Block target)

/-- Only the displacements of the jumps that exit to the guest address change, these jumps reach the
target, and the other instructions stay. -/
structure ChainRight : Prop where
  frame : ∀ q, (∀ pos b, blk.ExitsAt exitArmPc pos b → q ∉ displacement x86Block pos b) →
    after enabled mem x86Block blk exitArmPc target q = before mem x86Block blk q
  reach : ∀ pos b, blk.ExitsAt exitArmPc pos b →
    b.GoesTo x86Block
      ((after enabled mem x86Block blk exitArmPc target).read x86Block blk.code.length) pos target
  kept : ∀ front x back, blk.pieces = front ++ x :: back →
    (∀ cc rel, x ≠ .jump cc rel (some exitArmPc)) →
      (after enabled mem x86Block blk exitArmPc target).read
        (x86Block + BitVec.ofNat 64 (codeOf front).length) x.bytes.length = x.bytes

/-- The patches at the places that read as jumps in the chained code. -/
def places : List (Addr × List Byte) :=
  if enabled = false ∨ x86Block = 0 ∨ target = 0 then []
  else patches target (fun _ ↦ chained mem x86Block blk exitArmPc target) blk.code.length x86Block
    (before mem x86Block blk)

/-- The target is near, what those patches leave is in the chained code anyway, and what they leave
alone is as in the chained code. -/
structure Chainable : Prop where
  near : ∀ pos b, blk.ExitsAt exitArmPc pos b → Near (b.distance x86Block pos target)
  redundant : Redundant (chained mem x86Block blk exitArmPc target) (fun _ ↦ False)
    (places enabled mem x86Block blk exitArmPc target)
  rest : ∀ q, (∀ patch ∈ places enabled mem x86Block blk exitArmPc target, q ∉ written patch) →
    before mem x86Block blk q = chained mem x86Block blk exitArmPc target q

end Blocks

section Retargeting

variable {exitArmPc base target : Addr} {pos : Nat} {x : Piece} {ps front back : List Piece}

@[simp] theorem length_retarget :
    (x.retarget exitArmPc base target pos).bytes.length = x.bytes.length := by
  cases x with
  | jump cc rel exit =>
    rw [Piece.retarget]
    split
    · rw [Piece.bytes, Piece.bytes, List.length_append, List.length_append]
      rfl
    · rfl
  | other bs => rfl

theorem codeOf_append (ps qs : List Piece) : codeOf (ps ++ qs) = codeOf ps ++ codeOf qs :=
  List.flatMap_append

theorem codeOf_cons (x : Piece) (ps : List Piece) : codeOf (x :: ps) = x.bytes ++ codeOf ps :=
  List.flatMap_cons

theorem length_codeOf_retargeted : (codeOf (retargeted exitArmPc base target pos ps)).length =
    (codeOf ps).length := by
  induction ps generalizing pos with
  | nil => rfl
  | cons x ps ih =>
    rw [retargeted, codeOf_cons, codeOf_cons, List.length_append, List.length_append,
      length_retarget, ih]

theorem retargeted_append : retargeted exitArmPc base target pos (front ++ back) =
    retargeted exitArmPc base target pos front ++
      retargeted exitArmPc base target (pos + (codeOf front).length) back := by
  induction front generalizing pos with
  | nil => rfl
  | cons x front ih =>
    rw [List.cons_append, retargeted, retargeted, ih, codeOf_cons, List.length_append, Nat.add_assoc,
      List.cons_append]

/-- An instruction in the chained code. -/
theorem chainedCode_eq {blk : Block} (h : blk.pieces = front ++ x :: back) :
    ∃ pre post, pre.length = (codeOf front).length ∧ blk.chainedCode exitArmPc base target =
      pre ++ (x.retarget exitArmPc base target (codeOf front).length).bytes ++ post := by
  refine ⟨codeOf (retargeted exitArmPc base target 0 front),
    codeOf (retargeted exitArmPc base target ((codeOf front).length + x.bytes.length) back),
    length_codeOf_retargeted, ?_⟩
  rw [Block.chainedCode, h, retargeted_append, codeOf_append, retargeted, codeOf_cons, Nat.zero_add,
    ← List.append_assoc]

/-- Outside of the displacements of the exits the chained code is the code. -/
theorem getElem?_retargeted {k : Nat} (h : ∀ front cc rel back,
    ps = front ++ .jump cc rel (some exitArmPc) :: back →
      ¬ ((codeOf front).length + (jumpOf cc).opcode.length ≤ k ∧
        k < (codeOf front).length + (jumpOf cc).opcode.length + 4)) :
    (codeOf (retargeted exitArmPc base target pos ps))[k]? = (codeOf ps)[k]? := by
  induction ps generalizing pos k with
  | nil => rfl
  | cons x ps ih =>
    rw [retargeted, codeOf_cons, codeOf_cons]
    rcases Nat.lt_or_ge k x.bytes.length with hlt | hge
    · rw [List.getElem?_append_left (by rwa [length_retarget]), List.getElem?_append_left hlt]
      cases x with
      | jump cc rel exit =>
        rw [Piece.retarget]
        split
        · next hexit =>
          subst hexit
          have hout := h [] cc rel ps rfl
          have hlen : (Piece.jump cc rel (some exitArmPc)).bytes.length =
              (jumpOf cc).opcode.length + 4 := List.length_append
          have hop : k < (jumpOf cc).opcode.length := by
            rw [codeOf, List.flatMap_nil, List.length_nil] at hout
            omega
          rw [Piece.bytes, Piece.bytes, List.getElem?_append_left hop, List.getElem?_append_left hop]
        · rfl
      | other bs => rfl
    · rw [List.getElem?_append_right (by rwa [length_retarget]), List.getElem?_append_right hge,
        length_retarget]
      apply ih
      intro front cc rel back hps hin
      apply h (x :: front) cc rel back (by rw [hps, List.cons_append])
      rw [codeOf_cons, List.length_append]
      omega

end Retargeting

section Right

variable {enabled : Bool} {mem : Memory} {x86Block exitArmPc target q : Addr} {blk : Block} {pos : Nat}
  {b : Branch}

/-- What the test of `new_rel` says. -/
theorem near_iff (d : BitVec 64) : -2 ^ 31 ≤ d.toInt ∧ d.toInt ≤ 2 ^ 31 - 1 ↔ Near d := by
  have hlow : ((d.setWidth 32).signExtend 64).toInt = d.toInt.bmod (2 ^ 32) := by
    rw [BitVec.toInt_signExtend_of_le (by decide), BitVec.toInt_setWidth, BitVec.toInt_eq_toNat_bmod,
      Int.bmod_bmod_of_dvd (by decide)]
  rw [Near, ← BitVec.toInt_inj, hlow]
  constructor
  · rintro ⟨hge, hle⟩
    exact Int.bmod_eq_of_le (by omega) (by omega)
  · intro heq
    have hge := Int.le_bmod (x := d.toInt) (m := 2 ^ 32) (by decide)
    have hlt := Int.bmod_lt (x := d.toInt) (m := 2 ^ 32) (by decide)
    omega

theorem chained_length : (blk.chainedCode exitArmPc x86Block target).length = blk.code.length :=
  length_codeOf_retargeted

/-- A jump lies within its block. -/
theorem Block.ExitsAt.le (h : blk.ExitsAt exitArmPc pos b) : pos + b.size ≤ blk.code.length := by
  obtain ⟨front, cc, rel, back, hpieces, rfl, rfl⟩ := h
  rw [Block.code, hpieces, codeOf_append, codeOf_cons, List.length_append, List.length_append]
  have hsize : (Piece.jump cc rel (some exitArmPc)).bytes.length = (jumpOf cc).size := List.length_append
  omega

/-- A jump that exits in the chained code. -/
theorem Block.ExitsAt.chainedCode (h : blk.ExitsAt exitArmPc pos b) :
    ∃ pre post, pre.length = pos ∧ blk.chainedCode exitArmPc x86Block target =
      pre ++ (b.opcode ++ imm32 ((b.distance x86Block pos target).setWidth 32) ++ post) := by
  obtain ⟨front, cc, rel, back, hpieces, rfl, rfl⟩ := h
  obtain ⟨pre, post, hpre, hcode⟩ :=
    @chainedCode_eq exitArmPc x86Block target _ _ _ _ hpieces
  refine ⟨pre, post, hpre, ?_⟩
  rw [hcode, Piece.retarget, if_pos rfl, List.append_assoc]
  rfl

theorem mem_displacement (hle : pos + b.size ≤ blk.code.length) :
    q ∈ displacement x86Block pos b ↔ pos + b.opcode.length ≤ (q - x86Block).toNat ∧
      (q - x86Block).toNat < pos + b.opcode.length + 4 := by
  have hfits := blk.fits
  have hlt := (q - x86Block).isLt
  have hcode : (codeOf blk.pieces).length = blk.code.length := rfl
  rw [Branch.size] at hle
  generalize hd : pos + b.opcode.length = d
  rw [displacement, hd, Region.mem_iff]
  show (q - (x86Block + BitVec.ofNat 64 d)).toNat < 4 ↔ _
  rw [Region.toNat_sub_add]
  omega

/-- Outside of the displacements of the exits the chained memory is the one before. -/
theorem chained_eq_before
    (h : ∀ pos b, blk.ExitsAt exitArmPc pos b → q ∉ displacement x86Block pos b) :
    chained mem x86Block blk exitArmPc target q = before mem x86Block blk q := by
  have hbyte : (blk.chainedCode exitArmPc x86Block target)[(q - x86Block).toNat]? =
      blk.code[(q - x86Block).toNat]? := by
    apply getElem?_retargeted
    intro front cc rel back hpieces hin
    have hexit : blk.ExitsAt exitArmPc (codeOf front).length (jumpOf cc) :=
      ⟨front, cc, rel, back, hpieces, rfl, rfl⟩
    exact h _ _ hexit ((mem_displacement hexit.le).mpr hin)
  rw [chained, before, Memory.write, Memory.write, hbyte]

/-- The displacement of a jump that goes to the target is that of the chained code. -/
theorem eq_chained_of_goesTo {m : Memory} (hexit : blk.ExitsAt exitArmPc pos b)
    (hgoes : b.GoesTo x86Block (m.read x86Block blk.code.length) pos target)
    (hq : q ∈ displacement x86Block pos b) :
    m q = chained mem x86Block blk exitArmPc target q := by
  have hfits : blk.code.length < 2 ^ 64 := blk.fits
  have hle := hexit.le
  obtain ⟨hfrom, hto⟩ := (mem_displacement hle).mp hq
  obtain ⟨-, rest, hrest⟩ := hgoes.bytes (by rwa [Memory.length_read])
  obtain ⟨pre, post, hpre, hcode⟩ := @Block.ExitsAt.chainedCode x86Block exitArmPc target _ _ _ hexit
  generalize hjump : b.opcode ++ imm32 ((b.distance x86Block pos target).setWidth 32) = jump at *
  have hsize : jump.length = b.opcode.length + 4 := by
    rw [← hjump, List.length_append]
    rfl
  generalize hk : (q - x86Block).toNat = k at *
  have hqk : x86Block + BitVec.ofNat 64 k = q := by
    rw [← hk, BitVec.ofNat_toNat, BitVec.setWidth_eq, BitVec.add_comm, BitVec.sub_add_cancel]
  rw [Branch.size] at hle
  have hread : some (m q) = jump[k - pos]? := by
    have hdrop : (m.read x86Block blk.code.length)[k]? = (jump ++ rest)[k - pos]? := by
      rw [hrest, List.getElem?_drop]
      congr 1
      omega
    rw [Memory.getElem?_read m x86Block (by omega), hqk, List.getElem?_append_left (by omega)] at hdrop
    exact hdrop
  have hchained : (blk.chainedCode exitArmPc x86Block target)[k]? = jump[k - pos]? := by
    rw [hcode, List.getElem?_append_right (by omega), hpre, List.getElem?_append_left (by omega)]
  rw [chained, Memory.write, hk, hchained, ← hread, Option.getD_some]

theorem ChainRight.near (h : ChainRight enabled mem x86Block blk exitArmPc target)
    (hexit : blk.ExitsAt exitArmPc pos b) : Near (b.distance x86Block pos target) := by
  refine ((h.reach pos b hexit).bytes ?_).1
  rw [Memory.length_read]
  exact hexit.le

/-- A call that is right leaves the chained memory. -/
theorem ChainRight.after_eq (h : ChainRight enabled mem x86Block blk exitArmPc target) :
    after enabled mem x86Block blk exitArmPc target = chained mem x86Block blk exitArmPc target := by
  funext q
  by_cases hq : ∃ pos b, blk.ExitsAt exitArmPc pos b ∧ q ∈ displacement x86Block pos b
  · obtain ⟨pos, b, hexit, hq⟩ := hq
    exact eq_chained_of_goesTo hexit (h.reach pos b hexit) hq
  · have hout : ∀ pos b, blk.ExitsAt exitArmPc pos b → q ∉ displacement x86Block pos b :=
      fun pos b hexit hin ↦ hq ⟨pos, b, hexit, hin⟩
    rw [h.frame q hout, chained_eq_before hout]

theorem read_chained : (chained mem x86Block blk exitArmPc target).read x86Block blk.code.length =
    blk.chainedCode exitArmPc x86Block target := by
  have hfits : blk.code.length < 2 ^ 64 := blk.fits
  rw [← @chained_length x86Block exitArmPc target, chained]
  apply Memory.read_write
  rw [chained_length]
  exact Nat.le_of_lt hfits

/-- A call that leaves the chained memory is right, where the target is near. -/
theorem chainRight_of_after
    (hnear : ∀ pos b, blk.ExitsAt exitArmPc pos b → Near (b.distance x86Block pos target))
    (hafter : after enabled mem x86Block blk exitArmPc target =
      chained mem x86Block blk exitArmPc target) :
    ChainRight enabled mem x86Block blk exitArmPc target := by
  constructor
  · intro q hout
    rw [hafter, chained_eq_before hout]
  · intro pos b hexit
    obtain ⟨pre, post, rfl, hcode⟩ := @Block.ExitsAt.chainedCode x86Block exitArmPc target _ _ _ hexit
    rw [hafter, read_chained, hcode]
    exact b.goesTo_of_distance (hnear _ _ hexit)
  · intro front x back hpieces hx
    have hfits : blk.code.length < 2 ^ 64 := blk.fits
    obtain ⟨pre, post, hpre, hcode⟩ := @chainedCode_eq exitArmPc x86Block target _ _ _ _ hpieces
    have hsame : x.retarget exitArmPc x86Block target (codeOf front).length = x := by
      cases x with
      | jump cc rel exit =>
        rw [Piece.retarget, if_neg]
        rintro rfl
        exact hx cc rel rfl
      | other bs => rfl
    have hlen := congrArg List.length hcode
    rw [chained_length, hsame, List.length_append] at hlen
    rw [hafter, chained, hcode, hsame, ← hpre]
    exact Memory.read_write_middle pre x.bytes post (by omega)

/-- A call changes only the displacements of the jumps that exit to the guest address, and makes them
reach the target, if and only if the target is near and no patch at a place that reads as a jump in the
chained code shows. -/
theorem chainRight_iff (enabled : Bool) (mem : Memory) (x86Block : Addr) (blk : Block)
    (exitArmPc target : Addr) : ChainRight enabled mem x86Block blk exitArmPc target ↔
      Chainable enabled mem x86Block blk exitArmPc target := by
  have hafter : after enabled mem x86Block blk exitArmPc target =
      chained mem x86Block blk exitArmPc target ↔
        writeAll (before mem x86Block blk) (places enabled mem x86Block blk exitArmPc target) =
          chained mem x86Block blk exitArmPc target := by
    unfold after chainBlocks places
    split
    · exact Iff.rfl
    · rw [chainLoop_eq]
      exact writeAll_patches_iff blk.fits
  rw [writeAll_eq_iff] at hafter
  constructor
  · intro h
    obtain ⟨hredundant, hrest⟩ := hafter.mp h.after_eq
    exact ⟨fun pos b hexit ↦ h.near hexit, hredundant, hrest⟩
  · intro h
    exact chainRight_of_after h.near (hafter.mpr ⟨h.redundant, h.rest⟩)

/-! ## Blocks in which nothing else reads as a jump -/

theorem exists_place {opcodes : Memory → Memory} {p : Addr} {n : Nat} {patch : Addr × List Byte}
    (h : patch ∈ patches target opcodes n p mem) : ∃ k < n, ∃ m size,
      jumpSize (opcodes m) (n - k) (p + BitVec.ofNat 64 k) = some size ∧
        patchOf target m (p + BitVec.ofNat 64 k) size = some patch := by
  induction n generalizing p mem with
  | zero => cases h
  | succ n ih =>
    have hrest : ∀ {m : Memory}, patch ∈ patches target opcodes n (p + 1) m → ∃ k < n + 1, ∃ m size,
        jumpSize (opcodes m) (n + 1 - k) (p + BitVec.ofNat 64 k) = some size ∧
          patchOf target m (p + BitVec.ofNat 64 k) size = some patch := by
      intro m hmem
      obtain ⟨k, hk, m, size, hsize, hpatch⟩ := ih hmem
      have hnext : p + 1 + BitVec.ofNat 64 k = p + BitVec.ofNat 64 (k + 1) := Memory.next_add p k
      rw [hnext] at hsize hpatch
      exact ⟨k + 1, Nat.succ_lt_succ hk, m, size, by rwa [Nat.add_sub_add_right], hpatch⟩
    rw [patches] at h
    split at h
    · exact hrest h
    · next first hfirst =>
      rcases List.mem_cons.mp h with rfl | h
      · obtain ⟨size, hsize, hpatch⟩ := Option.bind_eq_some_iff.mp hfirst
        exact ⟨0, Nat.succ_pos n, mem, size, by simpa using hsize, by simpa using hpatch⟩
      · exact hrest h

theorem mem_patches {m : Memory} {p : Addr} {n k size : Nat} {patch : Addr × List Byte} (hk : k < n)
    (hsize : jumpSize m (n - k) (p + BitVec.ofNat 64 k) = some size)
    (hpatch : ∀ mem, patchOf target mem (p + BitVec.ofNat 64 k) size = some patch) :
    patch ∈ patches target (fun _ ↦ m) n p mem := by
  induction n generalizing p mem k with
  | zero => cases hk
  | succ n ih =>
    rw [patches]
    cases k with
    | zero =>
      have hfirst : (jumpSize m (n + 1) p).bind (patchOf target mem p) = some patch := by
        rw [Nat.sub_zero, BitVec.add_zero] at hsize
        rw [hsize, ← hpatch mem, BitVec.add_zero]
        rfl
      rw [hfirst]
      exact List.mem_cons_self
    | succ k =>
      have hnext : p + 1 + BitVec.ofNat 64 k = p + BitVec.ofNat 64 (k + 1) := Memory.next_add p k
      rw [Nat.add_sub_add_right, ← hnext] at hsize
      rw [← hnext] at hpatch
      split
      · exact ih (Nat.lt_of_succ_lt_succ hk) hsize hpatch
      · exact List.mem_cons_of_mem _ (ih (Nat.lt_of_succ_lt_succ hk) hsize hpatch)

/-- A jump that exits reads as a jump in the chained code. -/
theorem Block.ExitsAt.jumpSize_eq (h : blk.ExitsAt exitArmPc pos b) :
    jumpSize (chained mem x86Block blk exitArmPc target) (blk.code.length - pos)
      (x86Block + BitVec.ofNat 64 pos) = some b.size := by
  have hfits : blk.code.length < 2 ^ 64 := blk.fits
  have hle := h.le
  obtain ⟨pre, post, hpre, hcode⟩ := @Block.ExitsAt.chainedCode x86Block exitArmPc target _ _ _ h
  have hbyte : ∀ k o, b.opcode[k]? = some o →
      chained mem x86Block blk exitArmPc target (x86Block + BitVec.ofNat 64 (pos + k)) = o := by
    intro k o ho
    have hk : k < b.opcode.length := (List.getElem?_eq_some_iff.mp ho).1
    apply Memory.write_at
    · rw [Branch.size] at hle
      omega
    · rw [hcode, List.getElem?_append_right (by omega), hpre, Nat.add_sub_cancel_left,
        List.append_assoc, List.getElem?_append_left hk, ho]
  obtain ⟨-, cc, -, -, -, -, rfl⟩ := h
  cases cc with
  | none =>
    have hfirst := hbyte 0 0xe9 rfl
    rw [Nat.add_zero] at hfirst
    have hsize : 5 ≤ blk.code.length - pos := Nat.le_sub_of_add_le' hle
    exact if_pos ⟨hfirst, hsize⟩
  | some cc =>
    have hfirst := hbyte 0 0x0f rfl
    have hsecond : chained mem x86Block blk exitArmPc target (x86Block + BitVec.ofNat 64 pos + 1) =
        0x80 ||| cc.setWidth 8 := by
      have hone := hbyte 1 (0x80 ||| cc.setWidth 8) rfl
      rwa [BitVec.ofNat_add, ← BitVec.add_assoc] at hone
    rw [Nat.add_zero] at hfirst
    have hsize : 6 ≤ blk.code.length - pos := Nat.le_sub_of_add_le' hle
    have hrange : ∀ cc : BitVec 4, (0x80 : Byte) ≤ 0x80 ||| cc.setWidth 8 ∧
        0x80 ||| cc.setWidth 8 ≤ (0x8f : Byte) := by
      decide
    rw [jumpSize, if_neg (by rw [hfirst]; exact fun h ↦ absurd h.1 (by decide)),
      if_pos ⟨hfirst, hsize, by rw [hsecond]; exact hrange cc⟩]
    rfl

/-- The displacement of such a jump is the one to the target. -/
theorem Block.ExitsAt.read_displacement (h : blk.ExitsAt exitArmPc pos b) :
    (chained mem x86Block blk exitArmPc target).read
        (x86Block + BitVec.ofNat 64 (pos + b.opcode.length)) 4 =
      imm32 ((b.distance x86Block pos target).setWidth 32) := by
  have hfits : blk.code.length < 2 ^ 64 := blk.fits
  have hle := h.le
  rw [Branch.size] at hle
  obtain ⟨pre, post, hpre, hcode⟩ := @Block.ExitsAt.chainedCode x86Block exitArmPc target _ _ _ h
  rw [← List.append_assoc, ← List.append_assoc] at hcode
  rw [chained, hcode, ← hpre, ← List.length_append]
  apply Memory.read_write_middle (pre ++ b.opcode) (imm32 _) post
  rw [List.length_append, List.length_append, hpre]
  exact Nat.le_trans hle (Nat.le_of_lt hfits)

/-- What is written at a jump that exits. -/
def exitPatch (x86Block target : Addr) (pos : Nat) (b : Branch) : Addr × List Byte :=
  (x86Block + BitVec.ofNat 64 (pos + b.opcode.length), imm32 ((b.distance x86Block pos target).setWidth 32))

theorem patchOf_eq_exitPatch (m : Memory) (hnear : Near (b.distance x86Block pos target))
    (hfar : ∀ rel : BitVec 32, x86Block + BitVec.ofNat 64 (pos + b.size) + rel.signExtend 64 ≠ 0) :
    patchOf target m (x86Block + BitVec.ofNat 64 pos) b.size = some (exitPatch x86Block target pos b) := by
  have hloc : x86Block + BitVec.ofNat 64 pos + BitVec.ofNat 64 (b.size - 4) =
      x86Block + BitVec.ofNat 64 (pos + b.opcode.length) := by
    rw [Branch.size, Nat.add_sub_cancel, BitVec.ofNat_add, BitVec.add_assoc]
  have hnext : x86Block + BitVec.ofNat 64 pos + BitVec.ofNat 64 b.size =
      x86Block + BitVec.ofNat 64 (pos + b.size) := by
    rw [BitVec.ofNat_add, BitVec.add_assoc]
  unfold patchOf
  rw [hloc, hnext]
  exact if_pos ⟨hfar _, (near_iff _).mpr hnear⟩

/-- A block in which only the jumps that exit to the guest address read as jumps is chained. -/
theorem chainable_of_exits (hblock : x86Block ≠ 0) (htarget : target ≠ 0)
    (hnear : ∀ pos b, blk.ExitsAt exitArmPc pos b → Near (b.distance x86Block pos target))
    (hfar : ∀ k ≤ blk.code.length, ∀ rel : BitVec 32,
      x86Block + BitVec.ofNat 64 k + rel.signExtend 64 ≠ 0)
    (honly : ∀ k < blk.code.length, ∀ size, jumpSize (chained mem x86Block blk exitArmPc target)
      (blk.code.length - k) (x86Block + BitVec.ofNat 64 k) = some size →
        ∃ b, blk.ExitsAt exitArmPc k b) :
    Chainable true mem x86Block blk exitArmPc target := by
  have hplaces : places true mem x86Block blk exitArmPc target =
      patches target (fun _ ↦ chained mem x86Block blk exitArmPc target) blk.code.length x86Block
        (before mem x86Block blk) := by
    apply if_neg
    rintro (hoff | hnull | hnull)
    · cases hoff
    · exact hblock hnull
    · exact htarget hnull
  have hpatch {pos : Nat} {b : Branch} (hexit : blk.ExitsAt exitArmPc pos b) (m : Memory) :=
    patchOf_eq_exitPatch m (hnear pos b hexit) (hfar _ hexit.le)
  refine ⟨hnear, ?_, fun q hq ↦ ?_⟩
  · apply redundant_of_same
    intro patch hmem
    rw [hplaces] at hmem
    obtain ⟨k, hk, m, size, hsize, heq⟩ := exists_place hmem
    obtain ⟨b, hexit⟩ := honly k hk size hsize
    rw [hexit.jumpSize_eq] at hsize
    rw [← Option.some.inj hsize, hpatch hexit] at heq
    rw [← Option.some.inj heq, exitPatch, ← hexit.read_displacement]
    exact Memory.write_read _ _ 4
  · symm
    apply chained_eq_before
    intro pos b hexit hin
    have hlt : pos < blk.code.length := by
      have hle := hexit.le
      rw [Branch.size] at hle
      omega
    have hmem : exitPatch x86Block target pos b ∈ places true mem x86Block blk exitArmPc target := by
      rw [hplaces]
      exact mem_patches hlt hexit.jumpSize_eq (hpatch hexit)
    exact hq _ hmem hin

/-- Two jumps that exit to the guest addresses `0x1000` and `0x2000`. -/
def twoExits : Block := ⟨[.jump none 0x100 (some 0x1000), .jump none 0x200 (some 0x2000)], by decide⟩

/-- The other exit goes to the target too. -/
theorem twoExits_not_right : ¬ ChainRight true (fun _ ↦ 0) 0x400000 twoExits 0x1000 0x400800 := by
  intro h
  have hkept := h.kept [.jump none 0x100 (some 0x1000)] (.jump none 0x200 (some 0x2000)) [] rfl
    (fun cc rel heq ↦ by cases heq)
  revert hkept
  decide +kernel

end Right

end Arm2x86.Chaining
