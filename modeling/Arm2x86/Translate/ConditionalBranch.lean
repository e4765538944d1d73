import Arm2x86.Translate.ConditionalSelect
import Arm2x86.Translate.DecodeBranch
import Arm2x86.Translate.Jumps

/-!
# Conditional branches

`translate_b_cond`, `translate_cbz_cbnz` and `translate_tbz_tbnz` (`modules/arm2x86_translate64.c:755`)
against the branches of the instructions. The offset of the inverted jump is written over its opcode,
which leaves additions to where `RAX` points.
-/

namespace Arm2x86.A64

/-- Whether a branch is taken, from the tested register and the flags. -/
def Branch.taken (k : A64.Branch) (op : BitVec 32) (v : BitVec 64) (f : Nzcv) : Bool :=
  let zero := if op.getLsbD 31 then v == 0 else v.setWidth 32 == 0
  let bit := v.getLsbD (op.extractLsb' 31 1 ++ op.extractLsb' 19 5).toNat
  match k with
  | bCond => condHolds (op.extractLsb' 0 4) f
  | cbz => zero
  | cbnz => !zero
  | tbz => !bit
  | tbnz => bit
  | b | bl | br | blr | ret => true

end Arm2x86.A64

namespace Arm2x86.Translate

open X86
open A64 (Branch)

/-- The translators. -/
def branchCode (t : TranslateCtx) (k : A64.Branch) (op : BitVec 32) : TranslateCtx :=
  match k with
  | .b => t.translateB op
  | .bl => t.translateBl op
  | .bCond => t.translateBCond op
  | .cbz => t.translateCbzCbnz op false
  | .cbnz => t.translateCbzCbnz op true
  | .tbz => t.translateTbzTbnz op false
  | .tbnz => t.translateTbzTbnz op true
  | .br => t.translateBr op
  | .blr => t.translateBlr op
  | .ret => t.translateRet op

/-- Code at an address that leads to the code of a guest address: a direct jump where that has been
translated in this block, and a stub with the guest address otherwise. -/
def LeadsTo (t : TranslateCtx) (p : BitVec 64) (code : List Byte) (target : BitVec 64) : Prop :=
  if t.pcMapLookup target ≠ 0 then
    ∃ rel : BitVec 32, code = 0xe9 :: imm32 rel ∧
      p + 5 + rel.signExtend 64 = t.pcMapLookup target
  else
    code = 0xff :: 0x25 :: imm32 0 ++ imm64 target

/-- What a branch emits ends with code that leads to the target. From every state it comes there
when the branch is taken and to the bytes that follow otherwise. -/
def Branches (sem : Semantics) (t : TranslateCtx) (k : A64.Branch) (op : BitVec 32)
    (target : BitVec 64) : Prop :=
  let t' := branchCode t k op
  ∃ front jump, t'.bytes = t.bytes ++ (front ++ jump) ∧
    LeadsTo t' (t.x86Cur + BitVec.ofNat 64 front.length) jump target ∧
    ∀ m slots, m.pos = t.bytes.length → m.codeBase = t.x86Base → Slots m slots →
      Reaches sem t'.bytes m fun m' ↦ m'.pos = t.bytes.length + front.length +
        if k.taken op (operand slots (armReg op 0)) (nzcvOf m.status) then 0 else jump.length

section Stuck

variable {undef : Instr → Machine → Status} {rest : Instr → Machine → Option Machine}
variable {t : TranslateCtx} {k : A64.Branch} {op : BitVec 32} {emitted : List Byte}

/-- Code that leads somewhere is a jump. -/
theorem LeadsTo.head {t : TranslateCtx} {p target : BitVec 64} {code : List Byte}
    (h : LeadsTo t p code target) : code.head? = some 0xe9 ∨ code.head? = some 0xff := by
  unfold LeadsTo at h
  split at h
  · obtain ⟨rel, rfl, -⟩ := h
    exact Or.inl rfl
  · rw [h]
    exact Or.inr rfl

/-- All that a state comes to is in front of other code than a jump. -/
def Astray (sem : Semantics) (t : TranslateCtx) (emitted : List Byte) (m : Machine) : Prop :=
  ∀ m', sem.Runs (t.bytes ++ emitted) m m' → ∃ b tail, At (t.bytes ++ emitted) m'.pos (b :: tail) ∧
    b ≠ 0xe9 ∧ b ≠ 0xff

theorem Astray.of_stuck {sem : Semantics} {m : Machine} {b : Byte} {bs : List Byte}
    (hat : At (t.bytes ++ emitted) m.pos (b :: bs)) (hb : b ≠ 0xe9 ∧ b ≠ 0xff) (hstuck : sem.step (t.bytes ++ emitted) m = none) :
    Astray sem t emitted m := by
  intro m' hrun
  rw [runs_of_stuck hstuck hrun]
  exact ⟨b, bs, hat, hb⟩

theorem Astray.of_step {sem : Semantics} {m m₁ : Machine} {b : Byte} {bs : List Byte}
    (hat : At (t.bytes ++ emitted) m.pos (b :: bs)) (hb : b ≠ 0xe9 ∧ b ≠ 0xff) (hstep : sem.step (t.bytes ++ emitted) m = some m₁)
    (h : Astray sem t emitted m₁) : Astray sem t emitted m := by
  intro m' hrun
  rcases runs_of_step hstep hrun with rfl | hrun'
  · exact ⟨b, bs, hat, hb⟩
  · exact h m' hrun'

/-- A state that goes astray is not taken to the target and not to the end. -/
theorem not_branches_of_astray {sem : Semantics} {target : BitVec 64} {m : Machine}
    {slots : ArmReg → BitVec 64} (hbytes : (branchCode t k op).bytes = t.bytes ++ emitted)
    (hpos : m.pos = t.bytes.length) (hbase : m.codeBase = t.x86Base) (hslots : Slots m slots)
    (h : Astray sem t emitted m) : ¬ Branches sem t k op target := by
  rintro ⟨front, jump, hsplit, hleads, hrun⟩
  rw [hbytes] at hsplit
  have hemitted : emitted = front ++ jump := List.append_cancel_left hsplit
  obtain ⟨m', hruns, hend⟩ := hrun m slots hpos hbase hslots
  rw [hbytes] at hruns
  obtain ⟨b, tail, hat, hb⟩ := h m' hruns
  rw [hemitted] at hat
  split at hend
  · have hdrop : (t.bytes ++ (front ++ jump)).drop m'.pos = jump := by
      rw [hend, Nat.add_zero, ← List.drop_drop, List.drop_left, List.drop_left]
    obtain ⟨rest', hjump⟩ := hat
    rw [hdrop] at hjump
    have hhead := hleads.head
    rw [← hjump] at hhead
    simp only [List.cons_append, List.head?_cons, Option.some.injEq] at hhead
    exact hhead.elim hb.1 hb.2
  · have hlt := hat.pos_lt
    rw [hend, List.length_append, List.length_append] at hlt
    omega

variable (op)

/-- A state in front of a branch, with zeros in the registers and nothing mapped but the home. -/
def zeroState (home : BitVec 64) (t : TranslateCtx) : Machine :=
  { homeMachine home (fun _ ↦ 0) (fun _ ↦ 0) (.ofBits 0) with
    codeBase := t.x86Base
    pos := t.bytes.length }

theorem slots_zeroState (home : BitVec 64) (t : TranslateCtx) :
    Slots (zeroState home t) fun _ ↦ 0 := by
  have hslots : Slots (homeMachine home (fun _ ↦ 0) (fun _ ↦ 0) (.ofBits 0)) fun _ ↦ 0 :=
    slots_homeMachine
  exact hslots.of_eq rfl rfl

/-- The patched jump adds to where `RAX` points. -/
theorem astray_patched {opcode : Byte} {jump : List Byte} {m : Machine}
    (hat : At (t.bytes ++ emitted) m.pos (TranslateCtx.patchedJcc opcode ++ jump))
    (hmem : m.mem (m.regs 0) = none) : Astray (Semantics.core undef rest) t emitted m := by
  have hdec : ∀ tail, X86.decode ([0x02, 0x00] ++ tail) =
      some (.alu .add .b8 (.reg 0) (.mem (some 0) none 0), tail) :=
    fun _ ↦ decode_prefixes rfl rfl
  have hat' : At (t.bytes ++ emitted) m.pos ([0x02, 0x00] ++ ([0, 0, 0, 0] ++ jump)) := hat
  exact Astray.of_stuck (b := 0x02) hat (by decide)
    (step_unmapped (Or.inl rfl) hdec hat'.left hmem)

/-- An instruction between the load of the tested register and the patched jump leaves `RAX`. -/
theorem astray_loaded {opcode : Byte} {r : ArmReg} {test jump : List Byte} {i : Instr}
    (hemitted : emitted = emitLoadArmReg r rax true ++ (test ++ (TranslateCtx.patchedJcc opcode ++ jump)))
    (hhead : test.head? = some 0x48) (hdec : ∀ tail, X86.decode (test ++ tail) = some (i, tail))
    (hexec : ∀ m, ∃ s : Status, (Semantics.core undef rest).exec i m = some (m.setStatus s)) :
    Astray (Semantics.core undef rest) t emitted (zeroState 0x1000 t) := by
  have hat : At (t.bytes ++ emitted) (zeroState 0x1000 t).pos
      (emitLoadArmReg r rax true ++ (test ++ (TranslateCtx.patchedJcc opcode ++ jump))) := by
    rw [← hemitted]
    show emitted <+: (t.bytes ++ emitted).drop t.bytes.length
    rw [List.drop_left]
  have hload : (Semantics.core undef rest).step (t.bytes ++ emitted) (zeroState 0x1000 t) = some _ :=
    step_load hat.left (slots_zeroState _ t r)
  apply Astray.of_step hat (by decide) hload
  obtain ⟨s, hs⟩ := hexec _
  let m₁ := { zeroState 0x1000 t with
    pos := (zeroState 0x1000 t).pos + (emitLoadArmReg r rax true).length }.setReg
      (loadedReg rax true) (cut true 0)
  have htest : (Semantics.core undef rest).step (t.bytes ++ emitted) m₁ = _ :=
    Semantics.step_chunk ⟨test, i, hdec⟩ hat.right.left
  obtain ⟨tail, htail⟩ : ∃ tail, test = 0x48 :: tail := List.head?_eq_some_iff.mp hhead
  have hat₁ := hat.right
  rw [htail] at hat₁
  apply Astray.of_step (b := 0x48) hat₁ (by decide) (htest.trans hs)
  apply astray_patched hat.right.right
  show homeMem 0x1000 (fun _ ↦ 0) (cut true 0) = none
  apply homeMem_of_notMem
  rw [homeRegion, Region.mem_iff]
  decide

end Stuck

section Jump

variable {t : TranslateCtx} {p a target : BitVec 64} {code : List Byte}

/-- The bytes of a jump to a guest address. -/
def exitBytes (t : TranslateCtx) (a : BitVec 64) : List Byte :=
  if t.pcMapLookup a ≠ 0 then 0xe9 :: imm32 ((t.pcMapLookup a - (t.x86Cur + 5)).setWidth 32)
  else if a = 0 then 0xe9 :: imm32 0
  else 0xff :: 0x25 :: imm32 0 ++ imm64 a

theorem exit_branchTo (t : TranslateCtx) (a : BitVec 64) :
    (t.branchTo a false).bytes = t.bytes ++ exitBytes t a := by
  have hitems : ∀ (u : TranslateCtx) items, (u.emitItems items).bytes =
      u.bytes ++ items.flatMap Item.bytes := TranslateCtx.bytes_emitItems
  unfold TranslateCtx.branchTo exitBytes TranslateCtx.emitDispatchStub
  by_cases h : t.pcMapLookup a = 0
  · rw [if_neg (by simp [h]), if_neg (not_not.mpr h)]
    by_cases ha : a = 0
    · rw [if_pos (beq_iff_eq.mpr ha), if_pos ha]
      exact hitems _ _
    · rw [if_neg (fun he ↦ ha (beq_iff_eq.mp he)), if_neg ha]
      exact hitems _ _
  · rw [if_pos (bne_iff_ne.mpr h), if_pos h]
    exact hitems _ _

@[simp] theorem pcMapLookup_branchTo (t : TranslateCtx) (a b : BitVec 64) :
    (t.branchTo a false).pcMapLookup b = t.pcMapLookup b := by
  unfold TranslateCtx.branchTo TranslateCtx.emitDispatchStub
  split
  · rfl
  · split <;> rfl

theorem bytes_emit_pcMapAdd (t : TranslateCtx) (code : List Code) :
    (t.pcMapAdd.emit code).bytes = t.bytes ++ code.flatten := by
  have hflat : (code.map Item.code).flatMap Item.bytes = code.flatten := by
    rw [List.flatMap_map]
    exact List.flatMap_id
  rw [TranslateCtx.emit, TranslateCtx.bytes_emitItems, TranslateCtx.bytes_pcMapAdd, hflat]

theorem LeadsTo.length (h : LeadsTo t p code target) : code.length = 5 ∨ code.length = 14 := by
  unfold LeadsTo at h
  split at h
  · obtain ⟨rel, rfl, -⟩ := h
    exact Or.inl rfl
  · rw [h]
    exact Or.inr rfl

theorem imm64_inj {v v' : BitVec 64} (h : imm64 v = imm64 v') : v = v' := by
  rw [← Machine.value_bytes v, ← Machine.value_bytes v']
  exact congrArg Machine.value h

/-- The stub reads the address it goes to from behind itself. -/
theorem step_stub {undef : Instr → Machine → Status} {rest : Instr → Machine → Option Machine}
    {whole tail : List Byte} {m : Machine} (hat : At whole m.pos (0xff :: 0x25 :: imm32 0 ++ tail))
    (hmem : m.mem (m.codeBase + BitVec.ofNat 64 (m.pos + 6)) = none) :
    (Semantics.core undef rest).step whole m = none := by
  have hdec : ∀ tail, X86.decode (0xff :: 0x25 :: imm32 0 ++ tail) = some (.jmpLoc (.rip 0), tail) :=
    fun _ ↦ decode_prefixes rfl rfl
  have hload : Sparse.load m.mem (m.codeBase + BitVec.ofNat 64 (m.pos + 6) + 0) 8 = none := by
    have haddr : ∀ a : BitVec 64, a + 0 + BitVec.ofNat 64 0 = a := by simp
    apply Sparse.load_eq_none (by decide : 0 < 8)
    rw [haddr, hmem]
  rw [Semantics.step_chunk ⟨_, _, hdec⟩ hat.left]
  exact congrArg (Option.map _) (congrArg (Option.bind · fun bs ↦ some (Machine.value bs)) hload)

end Jump

section Always

variable (undef : Instr → Machine → Status) (rest : Instr → Machine → Option Machine)
variable {t : TranslateCtx} {k : A64.Branch} {op : BitVec 32}

/-- The target of `B.cond`. -/
def bCondTarget (t : TranslateCtx) (op : BitVec 32) : BitVec 64 :=
  t.target ((op.extractLsb' 5 19 ++ 0#2).signExtend 32)

/-- The target with the offset halved and cut. -/
def halvedTarget (t : TranslateCtx) (op : BitVec 32) : BitVec 64 :=
  t.target (((op.extractLsb' 5 19 &&& ~~~1) <<< 1).signExtend 32)

/-- When a jump to the halved target leads to the target: where the target has not been translated
for two offsets, and where it has, for those targets whose host address is reached. -/
def Lands (t : TranslateCtx) (op : BitVec 32) : Prop :=
  let rip := t.x86Cur + 5
  let host := t.pcMapLookup (halvedTarget t op)
  if t.pcMapLookup (bCondTarget t op) ≠ 0 then
    if host ≠ 0 then
      rip + ((host - rip).setWidth 32).signExtend 64 = t.pcMapLookup (bCondTarget t op)
    else halvedTarget t op = 0 ∧ rip = t.pcMapLookup (bCondTarget t op)
  else
    (op.extractLsb' 5 19 = 0 ∨ op.extractLsb' 5 19 = -1) ∧ bCondTarget t op ≠ 0

theorem halvedTarget_eq_iff : halvedTarget t op = bCondTarget t op ↔
    op.extractLsb' 5 19 = 0 ∨ op.extractLsb' 5 19 = -1 := by
  rw [← halved_eq_iff]
  constructor
  · intro h
    exact signExtend_inj (add_left_cancel h)
  · intro h
    rw [halvedTarget, h, bCondTarget]

theorem leadsTo_exitBytes_iff :
    LeadsTo t t.x86Cur (exitBytes t (halvedTarget t op)) (bCondTarget t op) ↔ Lands t op := by
  have hrip : ∀ rel : BitVec 32, (∃ rel' : BitVec 32, (0xe9 :: imm32 rel : List Byte) =
      0xe9 :: imm32 rel' ∧ t.x86Cur + 5 + rel'.signExtend 64 = t.pcMapLookup (bCondTarget t op)) ↔
      t.x86Cur + 5 + rel.signExtend 64 = t.pcMapLookup (bCondTarget t op) := by
    intro rel
    constructor
    · rintro ⟨rel', hrel, he⟩
      rwa [imm32_inj (List.cons.inj hrel).2]
    · exact fun he ↦ ⟨rel, rfl, he⟩
  unfold LeadsTo Lands exitBytes
  dsimp only
  by_cases htarget : t.pcMapLookup (bCondTarget t op) = 0
  · rw [if_neg (not_not.mpr htarget), if_neg (not_not.mpr htarget), ← halvedTarget_eq_iff (t := t)]
    by_cases hhost : t.pcMapLookup (halvedTarget t op) = 0
    · rw [if_neg (not_not.mpr hhost)]
      by_cases hzero : halvedTarget t op = 0
      · rw [if_pos hzero]
        constructor
        · intro hjump
          cases hjump
        · rintro ⟨hsame, hne⟩
          exact absurd (hsame.symm.trans hzero) hne
      · rw [if_neg hzero]
        constructor
        · intro hjump
          have hsame := imm64_inj (List.append_cancel_left hjump)
          exact ⟨hsame, hsame ▸ hzero⟩
        · rintro ⟨hsame, -⟩
          rw [hsame]
    · rw [if_pos hhost]
      constructor
      · intro hjump
        cases hjump
      · rintro ⟨hsame, -⟩
        rw [hsame] at hhost
        exact absurd htarget hhost
  · rw [if_pos htarget, if_pos htarget]
    by_cases hhost : t.pcMapLookup (halvedTarget t op) = 0
    · rw [if_neg (not_not.mpr hhost), if_neg (not_not.mpr hhost)]
      by_cases hzero : halvedTarget t op = 0
      · rw [if_pos hzero, hrip]
        have hself : t.x86Cur + 5 + (0 : BitVec 32).signExtend 64 = t.x86Cur + 5 := BitVec.add_zero _
        rw [hself]
        exact (and_iff_right hzero).symm
      · rw [if_neg hzero]
        constructor
        · rintro ⟨rel, hrel, -⟩
          cases hrel
        · exact fun he ↦ absurd he.1 hzero
    · rw [if_pos hhost, if_pos hhost, hrip]

theorem bCond_always (h : ¬ op.extractLsb' 0 4 < 14#4) :
    branchCode t .bCond op = t.pcMapAdd.branchTo (halvedTarget t op) false := by
  have key : ∀ c : BitVec 4, ¬ c < 14 → arm64ToX86Cond c = 0 := by decide
  show t.translateBCond op = _
  rw [TranslateCtx.translateBCond, key _ h, signExtend64_bCond]
  rfl

theorem leadsTo_branchTo_iff {p a b : BitVec 64} {code : List Byte} :
    LeadsTo (t.branchTo a false) p code b ↔ LeadsTo t p code b := by
  rw [LeadsTo, LeadsTo, pcMapLookup_branchTo]

theorem target_pcMapAdd (t : TranslateCtx) (off : BitVec 32) :
    t.pcMapAdd.target off = t.target off := by
  unfold TranslateCtx.pcMapAdd
  split <;> rfl

theorem x86Cur_pcMapAdd (t : TranslateCtx) : t.pcMapAdd.x86Cur = t.x86Cur := by
  unfold TranslateCtx.pcMapAdd
  split <;> rfl

/-- From a state with nothing mapped behind the stub it gets stuck in front of it. -/
theorem stuck_stub {a : BitVec 64} : (Semantics.core undef rest).step
    (t.bytes ++ (0xff :: 0x25 :: imm32 0 ++ imm64 a)) (zeroState (t.x86Cur + 0x1000) t) = none := by
  have hat : At (t.bytes ++ (0xff :: 0x25 :: imm32 0 ++ imm64 a))
      (zeroState (t.x86Cur + 0x1000) t).pos (0xff :: 0x25 :: imm32 0 ++ imm64 a) := by
    show _ <+: List.drop t.bytes.length _
    rw [List.drop_left]
  apply step_stub hat
  show homeMem (t.x86Cur + 0x1000) (fun _ ↦ 0)
    (t.x86Base + BitVec.ofNat 64 (t.bytes.length + 6)) = none
  apply homeMem_of_notMem
  have hself : t.x86Base + BitVec.ofNat 64 (t.bytes.length + 6) = t.x86Cur + 6 := by
    rw [BitVec.ofNat_add, ← BitVec.add_assoc]
    rfl
  have hoff : t.x86Cur + 6 - (t.x86Cur + 0x1000) = (6 : BitVec 64) - 0x1000 :=
    add_sub_add_left_eq_sub _ _ _
  rw [hself, homeRegion, Region.mem_iff]
  dsimp only
  rw [hoff]
  decide

theorem branches_always_iff (h : ¬ op.extractLsb' 0 4 < 14#4) :
    Branches (Semantics.core undef rest) t .bCond op (bCondTarget t op) ↔ Lands t.pcMapAdd op := by
  have hcode := bCond_always (t := t) h
  have hbytes : (branchCode t .bCond op).bytes =
      t.bytes ++ exitBytes t.pcMapAdd (halvedTarget t op) := by
    rw [hcode, exit_branchTo, TranslateCtx.bytes_pcMapAdd]
  have htaken : ∀ v f, Branch.bCond.taken op v f = true := fun _ f ↦ condHolds_always h f
  have hleads : LeadsTo (branchCode t .bCond op) (t.x86Cur + BitVec.ofNat 64 0)
      (exitBytes t.pcMapAdd (halvedTarget t op)) (bCondTarget t op) ↔ Lands t.pcMapAdd op := by
    have htargets : halvedTarget t.pcMapAdd op = halvedTarget t op ∧
        bCondTarget t.pcMapAdd op = bCondTarget t op := ⟨target_pcMapAdd t _, target_pcMapAdd t _⟩
    rw [hcode, leadsTo_branchTo_iff, ← leadsTo_exitBytes_iff, x86Cur_pcMapAdd, BitVec.add_zero,
      htargets.1, htargets.2]
  rw [← hleads]
  unfold Branches
  dsimp only
  rw [hbytes]
  constructor
  · rintro ⟨front, jump, hsplit, hjump, hrun⟩
    have hemitted := List.append_cancel_left hsplit
    have hfront : front = [] := by
      have hlen := congrArg List.length hemitted
      rw [List.length_append] at hlen
      rw [← List.length_eq_zero_iff]
      by_cases hstub : exitBytes t.pcMapAdd (halvedTarget t op) =
          0xff :: 0x25 :: imm32 0 ++ imm64 (halvedTarget t op)
      · rw [hstub] at hrun
        obtain ⟨m', hruns, hend⟩ := hrun _ _ rfl rfl (slots_zeroState (t.x86Cur + 0x1000) t)
        rw [runs_of_stuck (stuck_stub undef rest) hruns, htaken, if_pos rfl] at hend
        have hpos : t.bytes.length = t.bytes.length + front.length + 0 := hend
        omega
      · have hfive : (exitBytes t.pcMapAdd (halvedTarget t op)).length = 5 := by
          unfold exitBytes at hstub ⊢
          split
          · rfl
          · next hhost =>
            rw [if_neg hhost] at hstub
            split
            · rfl
            · next hzero =>
              rw [if_neg hzero] at hstub
              exact absurd rfl hstub
        have hjumpLen := hjump.length
        omega
    rw [hfront, List.nil_append] at hemitted
    rw [hfront, ← hemitted] at hjump
    exact hjump
  · intro hjump
    refine ⟨[], _, rfl, hjump, fun m slots hpos _ _ ↦ ?_⟩
    apply reaches_here
    rw [htaken, if_pos rfl, hpos]
    rfl

theorem not_branches_bCond (h : op.extractLsb' 0 4 < 14#4) (target : BitVec 64) :
    ¬ Branches (Semantics.core undef rest) t .bCond op target := by
  have key : ∀ c : BitVec 4, c < 14 → arm64ToX86Cond c ≠ 0 ∧ arm64ToX86Cond c ≠ 0xff := by decide
  obtain ⟨hzero, hff⟩ := key _ h
  have hcode : branchCode t .bCond op =
      (t.pcMapAdd.emit [TranslateCtx.patchedJcc (arm64ToX86Cond (op.extractLsb' 0 4) ^^^ 1)]).branchTo
        (halvedTarget t op) false := by
    show t.translateBCond op = _
    rw [TranslateCtx.translateBCond, signExtend64_bCond]
    show (if _ then _ else if _ then _ else _) = _
    rw [if_neg (fun he ↦ hzero (beq_iff_eq.mp he)), if_neg (fun he ↦ hff (beq_iff_eq.mp he))]
    rfl
  have hbytes := congrArg TranslateCtx.bytes hcode
  rw [exit_branchTo, bytes_emit_pcMapAdd, List.append_assoc, List.flatten_singleton] at hbytes
  apply not_branches_of_astray hbytes rfl rfl (slots_zeroState 0x1000 t)
  apply astray_patched
  · show _ <+: List.drop t.bytes.length _
    rw [List.drop_left]
  · show homeMem 0x1000 (fun _ ↦ 0) 0 = none
    exact homeMem_of_notMem (by decide)

/-- The compare and test branches. -/
theorem not_branches_test (hk : k = .cbz ∨ k = .cbnz ∨ k = .tbz ∨ k = .tbnz)
    (target : BitVec 64) : ¬ Branches (Semantics.core undef rest) t k op target := by
  have htestRax : ∀ tail, X86.decode (testR64R64 rax rax ++ tail) =
      some (.test .b64 (.reg 0) (.reg 0), tail) := fun _ ↦ decode_prefixes rfl rfl
  have hbt : ∀ (bit : Byte) tail, X86.decode ([rexR rax rax, 0x0f, 0xba, modrm 3 4 (rax &&& 7), bit] ++ tail) =
      some (.bitTest .b64 (.reg 0) bit, tail) := fun _ _ ↦ decode_prefixes rfl rfl
  have hstart : ∀ {test : List Byte} {opcode : Byte} {i : Instr} (a : BitVec 64),
      branchCode t k op = (t.pcMapAdd.emit [emitLoadArmReg (armReg op 5) rax true, test,
        TranslateCtx.patchedJcc opcode]).branchTo a false →
      test.head? = some 0x48 → (∀ tail, X86.decode (test ++ tail) = some (i, tail)) →
      (∀ m, ∃ s : Status, (Semantics.core undef rest).exec i m = some (m.setStatus s)) →
      ¬ Branches (Semantics.core undef rest) t k op target := by
    intro test opcode i a hcode hhead hdec hexec
    have hbytes := congrArg TranslateCtx.bytes hcode
    rw [exit_branchTo, bytes_emit_pcMapAdd, List.append_assoc] at hbytes
    apply not_branches_of_astray hbytes rfl rfl (slots_zeroState 0x1000 t)
    simp only [List.flatten_cons, List.flatten_nil, List.append_assoc, List.nil_append] at hbytes ⊢
    exact astray_loaded rfl hhead hdec hexec
  have hzero : ∀ (m : Machine), ∃ s : Status,
      (Semantics.core undef rest).exec (.test .b64 (.reg 0) (.reg 0)) m = some (m.setStatus s) :=
    fun m ↦ ⟨_, rfl⟩
  have hbit : ∀ (bit : Byte) (m : Machine), ∃ s : Status,
      (Semantics.core undef rest).exec (.bitTest .b64 (.reg 0) bit) m = some (m.setStatus s) :=
    fun bit m ↦ ⟨_, rfl⟩
  rcases hk with rfl | rfl | rfl | rfl
  · exact hstart _ rfl rfl htestRax hzero
  · exact hstart _ rfl rfl htestRax hzero
  · exact hstart _ rfl rfl (hbt _) (hbit _)
  · exact hstart _ rfl rfl (hbt _) (hbit _)

end Always

section Conditional

/-- The target of a branch to a label. -/
def branchTarget (t : TranslateCtx) (k : A64.Branch) (op : BitVec 32) : BitVec 64 :=
  t.target ((k.offset op).getD 0)

/-- `CBZ X0` to the instruction after the next one. -/
theorem cbz_x0_missed :
    let t := startCtx Stack.zero (Block.ofWords 0x1000 [0xb4000040]) 0x400000
    ¬ Branches (Semantics.core (fun _ m ↦ m.status) fun _ _ ↦ none) t .cbz 0xb4000040
      (branchTarget t .cbz 0xb4000040) :=
  not_branches_test _ _ (Or.inl rfl) _

/-- `B.cond` is right for the condition that always holds, where its jump lands, and the compare and
test branches never are. -/
theorem conditionalBranch_iff (undef : Instr → Machine → Status)
    (rest : Instr → Machine → Option Machine) (t : TranslateCtx) (op : BitVec 32) :
    let right := fun k ↦ Branches (Semantics.core undef rest) t k op (branchTarget t k op)
    (right .bCond ↔ ¬ op.extractLsb' 0 4 < 14#4 ∧ Lands t.pcMapAdd op) ∧
      ¬ right .cbz ∧ ¬ right .cbnz ∧ ¬ right .tbz ∧ ¬ right .tbnz := by
  have htest : ∀ k, (k = .cbz ∨ k = .cbnz ∨ k = .tbz ∨ k = .tbnz) →
      ¬ Branches (Semantics.core undef rest) t k op (branchTarget t k op) :=
    fun k hk ↦ not_branches_test undef rest hk (branchTarget t k op)
  refine ⟨?_, htest .cbz (by decide), htest .cbnz (by decide), htest .tbz (by decide),
    htest .tbnz (by decide)⟩
  by_cases h : op.extractLsb' 0 4 < 14#4
  · exact iff_of_false (not_branches_bCond undef rest h _) (fun he ↦ he.1 h)
  · exact (branches_always_iff undef rest h).trans (and_iff_right h).symm

end Conditional

end Arm2x86.Translate
