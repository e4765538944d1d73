import Arm2x86.Translate.SlotRuns

/-!
# Division

`translate_div` (`modules/arm2x86_translate64.c:1300`) against the quotients of the instructions. The
patch for the jump over the zero case overwrites its opcode, and the 32-bit form divides by what is
in `R11` already.
-/

namespace Arm2x86.A64

/-- The quotient of a division: truncated, zero for a zero divisor, the smallest integer where it
does not fit, and zero-extended. -/
def divide (signed w : Bool) (a b : BitVec 64) : BitVec 64 :=
  if w then if signed then a.sdiv b else a / b
  else
    let a := a.setWidth 32
    let b := b.setWidth 32
    (if signed then a.sdiv b else a / b).setWidth 64

theorem divide_zero (signed w : Bool) (a : BitVec 64) : divide signed w a 0 = 0 := by
  cases signed <;> cases w <;> simp [divide]

end Arm2x86.A64

namespace Arm2x86.Translate

open X86

section Rules

variable (undef : Instr → Machine → Status) (rest : Instr → Machine → Option Machine)

/-- `test r11, r11` -/
theorem does_testR11 : Does (Semantics.core undef rest) (testR64R64 r11 r11)
    fun v ↦ { v with status := .ofLogic (v.regs 11) (.ofBits 0) } := by
  have hdec : ∀ tail, X86.decode (testR64R64 r11 r11 ++ tail) =
      some (.test .b64 (.reg 11) (.reg 11), tail) :=
    fun _ ↦ decode_prefixes rfl rfl
  apply does_instr hdec
  intro m v hv
  have hexec : (Semantics.core undef rest).exec (.test .b64 (.reg 11) (.reg 11)) m =
      some (m.setStatus (.ofLogic ((m.regs 11).setWidth 64 &&& (m.regs 11).setWidth 64)
        (undef (.test .b64 (.reg 11) (.reg 11)) m))) := rfl
  rw [BitVec.setWidth_eq, BitVec.and_self, hv.regs] at hexec
  exact ⟨_, hexec, rfl, hv.setStatus rfl⟩

/-- A register from itself. -/
theorem does_xorSelf {r : Byte} {g : Gpr} (hg : g ≠ 5)
    (hdec : ∀ tail, X86.decode (xorR64R64 r r ++ tail) =
      some (.alu .xor .b64 (.reg g) (.reg g), tail)) :
    Does (Semantics.core undef rest) (xorR64R64 r r)
      fun v ↦ { v.setReg g 0 with status := .ofLogic 0#64 (.ofBits 0) } := by
  apply does_instr hdec
  intro m v hv
  have hexec : (Semantics.core undef rest).exec (.alu .xor .b64 (.reg g) (.reg g)) m =
      some ((m.setReg g (((m.regs g).setWidth 64 ^^^ (m.regs g).setWidth 64).setWidth 64)).setStatus
        (.ofLogic ((m.regs g).setWidth 64 ^^^ (m.regs g).setWidth 64)
          (undef (.alu .xor .b64 (.reg g) (.reg g)) m))) := rfl
  rw [BitVec.setWidth_eq, BitVec.xor_self] at hexec
  exact ⟨_, hexec, rfl, (hv.setReg hg 0).setStatus rfl⟩

theorem does_xorRax : Does (Semantics.core undef rest) (xorR64R64 rax rax)
    fun v ↦ { v.setReg 0 0 with status := .ofLogic 0#64 (.ofBits 0) } :=
  does_xorSelf undef rest (by decide) fun _ ↦ decode_prefixes rfl rfl

/-- The upper half of the dividend. -/
def dividendHigh (signed : Bool) (a : BitVec 64) : BitVec 64 :=
  if signed && a.msb then BitVec.allOnes 64 else 0

/-- The upper half is the sign of `RAX` or zero. -/
theorem does_dividendHigh (signed : Bool) : ∃ f, Does (Semantics.core undef rest)
      (if signed then emitCqo else xorR64R64 rdx rdx) f ∧
    ∀ v : View, (f v).slots = v.slots ∧ (f v).mem = v.mem ∧ ∀ g,
      (f v).regs g = if g = 2 then dividendHigh signed (v.regs 0) else v.regs g := by
  cases signed with
  | false =>
    have hdec : ∀ tail, X86.decode (xorR64R64 rdx rdx ++ tail) =
        some (.alu .xor .b64 (.reg 2) (.reg 2), tail) := fun _ ↦ decode_prefixes rfl rfl
    exact ⟨_, does_xorSelf undef rest (by decide) hdec, fun v ↦ ⟨rfl, rfl, fun g ↦ rfl⟩⟩
  | true =>
    have hdec : ∀ tail, X86.decode (emitCqo ++ tail) = some (.signToRdx .b64, tail) :=
      fun _ ↦ decode_prefixes rfl rfl
    refine ⟨fun v ↦ v.setReg 2 (dividendHigh true (v.regs 0)), does_instr hdec ?_,
      fun v ↦ ⟨rfl, rfl, fun g ↦ rfl⟩⟩
    intro m v hv
    have hexec : (Semantics.core undef rest).exec (.signToRdx .b64) m =
        some (m.setReg 2 (if ((m.regs 0).setWidth 64).msb then BitVec.allOnes 64 else 0)) := rfl
    rw [BitVec.setWidth_eq, hv.regs] at hexec
    exact ⟨_, hexec, rfl, hv.setReg (by decide) _⟩

/-- The quotient as an integer. -/
def quotient (signed : Bool) (hi lo divisor : BitVec 64) : Int :=
  if signed then (hi ++ lo).toInt.tdiv divisor.toInt else (hi ++ lo).toNat / divisor.toNat

/-- A division that does not fault leaves the quotient in `RAX`. -/
theorem exec_div {signed : Bool} {m m' : Machine}
    (h : (Semantics.core undef rest).exec (.divWide signed .b64 (.reg 11)) m = some m') :
    m'.regs 0 = BitVec.ofInt 64 (quotient signed (m.regs 2) (m.regs 0) (m.regs 11)) ∧
      m'.regs 5 = m.regs 5 ∧ m'.mem = m.mem ∧ m'.pos = m.pos := by
  have hcut : ∀ v : BitVec 64, Size.b64.cut v = v := fun v ↦ BitVec.setWidth_eq v
  cases signed with
  | false =>
    change (if _ then none else _) = some m' at h
    rw [Option.ite_none_left_eq_some] at h
    rw [← Option.some.inj h.2]
    refine ⟨?_, rfl, rfl, rfl⟩
    show BitVec.ofInt 64 ((Size.b64.cut (m.regs 2) ++ Size.b64.cut (m.regs 0)).toNat /
      (Size.b64.cut (m.regs 11)).toNat) = _
    rw [hcut, hcut, hcut]
    rfl
  | true =>
    change (if _ then none else _) = some m' at h
    rw [Option.ite_none_left_eq_some] at h
    rw [← Option.some.inj h.2]
    refine ⟨?_, rfl, rfl, rfl⟩
    show BitVec.ofInt 64 ((Size.b64.cut (m.regs 2) ++ Size.b64.cut (m.regs 0)).toInt.tdiv
      (Size.b64.cut (m.regs 11)).toInt) = _
    rw [hcut, hcut, hcut]
    rfl

end Rules

section Stuck

variable {undef : Instr → Machine → Status} {rest : Instr → Machine → Option Machine}

/-- The bytes over the opcode of the second jump. -/
def overwritten (w : Bool) : List Byte := [if w then 0x0b else 0x0a, 0, 0, 0, 0xff]

/-- They read from where `RAX` points. -/
theorem step_overwritten {whole : List Byte} {m : Machine} (w : Bool)
    (hat : At whole m.pos (overwritten w)) (hmem : m.mem (m.regs 0) = none) :
    (Semantics.core undef rest).step whole m = none := by
  cases w with
  | false =>
    have hdec : ∀ tail, X86.decode ([0x0a, 0x00] ++ tail) =
        some (.alu .or .b8 (.reg 0) (.mem (some 0) none 0), tail) :=
      fun _ ↦ decode_prefixes rfl rfl
    have hat' : At whole m.pos ([0x0a, 0x00] ++ [0, 0, 0xff]) := hat
    exact step_unmapped (Or.inl rfl) hdec hat'.left hmem
  | true =>
    have hdec : ∀ tail, X86.decode ([0x0b, 0x00] ++ tail) =
        some (.alu .or .b32 (.reg 0) (.mem (some 0) none 0), tail) :=
      fun _ ↦ decode_prefixes rfl rfl
    have hat' : At whole m.pos ([0x0b, 0x00] ++ [0, 0, 0xff]) := hat
    exact step_unmapped (Or.inr rfl) hdec hat'.left hmem

end Stuck

section Paths

variable (op : BitVec 32)

/-- The code up to the jump on a zero divisor. -/
def compareZero (op : BitVec 32) : List Code :=
  loadPair (armReg op 5) (armReg op 16) (is64 op) ++ [testR64R64 r11 r11]

/-- The path of a zero divisor. -/
def zeroPath (op : BitVec 32) : List Code :=
  [xorR64R64 rax rax, emitStoreArmReg rax (armReg op 0) (is64 op)]

/-- The other path. -/
def dividePath (op : BitVec 32) : List Code :=
  let signed := !op.getLsbD 11
  [if signed then emitCqo else xorR64R64 rdx rdx, if signed then idivR64 r11 else divR64 r11,
    emitStoreArmReg rax (armReg op 0) (is64 op), overwritten (is64 op)]

theorem translateDiv_flatten : (translateDiv op).flatten = (compareZero op).flatten ++
    ((0x0f :: 0x84 :: imm32 (byteCount (dividePath op))) ++
      ((dividePath op).flatten ++ (zeroPath op).flatten)) := by
  have hover : imm32 (byteCount (zeroPath op) + 1) ++ [0xff] = overwritten (is64 op) := by
    rw [zeroPath]
    cases is64 op with
    | false =>
      have hlen : [xorR64R64 rax rax, emitStoreArmReg rax (armReg op 0) false].flatten.length = 9 :=
        rfl
      rw [byteCount, hlen]
      decide
    | true =>
      have hlen : [xorR64R64 rax rax, emitStoreArmReg rax (armReg op 0) true].flatten.length = 10 :=
        rfl
      rw [byteCount, hlen]
      decide
  rw [dividePath, ← hover]
  simp [translateDiv, compareZero, jccOver, zeroPath]

theorem dividePath_length : (dividePath op).flatten.length < 2 ^ 31 := by
  rw [dividePath]
  cases op.getLsbD 11 <;> cases is64 op <;> exact Nat.le_of_ble_eq_true rfl

end Paths

section Runs

variable (undef : Instr → Machine → Status) (rest : Instr → Machine → Option Machine)
variable (op : BitVec 32) {slots : ArmReg → BitVec 64} {m : Machine}

/-- The registers in front of the jump. -/
theorem does_compareZero : ∃ f, Does (Semantics.core undef rest) (compareZero op).flatten f ∧
    ∀ v : View, (f v).slots = v.slots ∧ (f v).mem = v.mem ∧
      (f v).regs 0 = cut (is64 op) (v.slots (armReg op 5)) ∧
      (f v).regs 5 = v.regs 5 ∧
      (f v).regs 11 = (if is64 op then v.slots (armReg op 16) else v.regs 11) ∧
      (f v).status.zero = ((f v).regs 11 == 0) := by
  have hrax : loadedReg rax (is64 op) = 0 := by cases is64 op <;> rfl
  have hloaded : loadedReg r11 (is64 op) = if is64 op then 11 else 3 := by cases is64 op <;> rfl
  have hne : loadedReg rax (is64 op) ≠ 5 ∧ loadedReg r11 (is64 op) ≠ 5 := by
    cases is64 op <;> decide
  have hdoes := (does_load undef rest (armReg op 5) hne.1).append
    ((does_load undef rest (armReg op 16) hne.2).append
      ((does_testR11 undef rest).append does_nil))
  refine ⟨_, hdoes, fun v ↦ ⟨rfl, rfl, ?_, ?_, ?_, rfl⟩⟩
  · show (if 0 = loadedReg r11 (is64 op) then _ else if 0 = loadedReg rax (is64 op) then _ else _) = _
    rw [hrax, hloaded]
    cases is64 op <;> rfl
  · show (if 5 = loadedReg r11 (is64 op) then _ else if 5 = loadedReg rax (is64 op) then _ else _) = _
    rw [if_neg (Ne.symm hne.2), if_neg (Ne.symm hne.1)]
  · show (if 11 = loadedReg r11 (is64 op) then _ else if 11 = loadedReg rax (is64 op) then _ else _) = _
    rw [hrax, hloaded]
    cases is64 op <;> rfl

/-- Behind the jump the operands are loaded. -/
theorem runs_jump {v : View} (hpos : m.pos = 0) (hv : v.Of m) :
    ∃ (v' : View) (m' : Machine), (Semantics.core undef rest).Runs (translateDiv op).flatten m m' ∧
      v'.Of m' ∧ v'.slots = v.slots ∧ v'.mem = v.mem ∧ v'.regs 5 = v.regs 5 ∧
      v'.regs 0 = cut (is64 op) (v.slots (armReg op 5)) ∧
      v'.regs 11 = (if is64 op then v.slots (armReg op 16) else v.regs 11) ∧
      At (translateDiv op).flatten m'.pos
        ((if v'.regs 11 = 0 then [] else (dividePath op).flatten) ++ (zeroPath op).flatten) ∧
      m'.pos + ((if v'.regs 11 = 0 then [] else (dividePath op).flatten) ++
        (zeroPath op).flatten).length = (translateDiv op).flatten.length := by
  obtain ⟨f, hf, hview⟩ := does_compareZero undef rest op
  obtain ⟨hslots, hmem, h0, h5, h11, hzero⟩ := hview v
  have hat : At (translateDiv op).flatten m.pos ((compareZero op).flatten ++
      ((0x0f :: 0x84 :: imm32 (byteCount (dividePath op))) ++
        ((dividePath op).flatten ++ (zeroPath op).flatten))) := by
    rw [← translateDiv_flatten, hpos]
    exact at_self _
  obtain ⟨m₁, hrun, hpos₁, hv₁⟩ := hf _ m v hv hat.left
  have hat₁ := hat.right
  rw [← hpos₁] at hat₁
  have hcc : (0x84 : Byte) &&& 0xf0 = 0x80 := rfl
  have hjcc := runs_jcc undef rest hcc (dividePath_length op) hat₁.left
  have hholds : ∀ s : Status, s.holds ((0x84 : Byte).extractLsb' 0 4) = s.zero :=
    fun s ↦ Bool.bne_false s.zero
  rw [hv₁.holds, hholds, hzero] at hjcc
  refine ⟨f v, _, hrun.trans hjcc, hv₁.at _, hslots, hmem, h5, h0, h11, ?_⟩
  have hlen : (translateDiv op).flatten.length =
      m₁.pos + (6 + ((dividePath op).flatten.length + (zeroPath op).flatten.length)) := by
    rw [hpos₁, hpos, Nat.zero_add]
    conv_lhs => rw [translateDiv_flatten]
    rw [List.length_append, List.length_append, List.length_append]
    rfl
  by_cases hdivisor : (f v).regs 11 = 0
  · rw [if_pos hdivisor, if_pos (beq_iff_eq.mpr hdivisor)]
    refine ⟨hat₁.right.right, ?_⟩
    rw [List.nil_append, hlen]
    dsimp only
    omega
  · rw [if_neg hdivisor, if_neg (fun he ↦ hdivisor (beq_iff_eq.mp he))]
    refine ⟨hat₁.right, ?_⟩
    rw [List.length_append, hlen]
    dsimp only
    omega

end Runs

section Division

/-- From every state with some values of the registers the code comes to its end, with the quotient
in `Rd` and the other registers as before. The division is signed by bit 10. -/
def DividesRight (sem : Semantics) (op : BitVec 32) (slots : ArmReg → BitVec 64) : Prop :=
  ∀ m, m.pos = 0 → Slots m slots → Reaches sem (translateDiv op).flatten m fun m' ↦
    m'.pos = (translateDiv op).flatten.length ∧ ∃ slots', Slots m' slots' ∧
      SetsReg (is64 op) slots (armReg op 0)
        (A64.divide (op.getLsbD 10) (is64 op) (operand slots (armReg op 5))
          (operand slots (armReg op 16))) slots'

variable (undef : Instr → Machine → Status) (rest : Instr → Machine → Option Machine)
variable {op : BitVec 32} {slots : ArmReg → BitVec 64}

/-- A zero divisor leaves zero in the slot of `Rd`. -/
theorem runs_zero (hw : is64 op = true) (hzero : slots (armReg op 16) = 0) {m : Machine}
    (hpos : m.pos = 0) (hslots : Slots m slots) :
    ∃ m', (Semantics.core undef rest).Runs (translateDiv op).flatten m m' ∧
      m'.pos = (translateDiv op).flatten.length ∧
      Slots m' (Function.update slots (armReg op 0) 0) := by
  have hv : View.Of ⟨slots, m.regs, m.status, m.mem⟩ m := ⟨hslots, rfl, rfl, fun _ _ ↦ rfl⟩
  obtain ⟨v, m₁, hrun, hv₁, hsame, -, -, -, h11, hat, hend⟩ :=
    runs_jump undef rest op hpos hv
  have hdivisor : v.regs 11 = 0 := by
    rw [h11, hw]
    exact hzero
  rw [hdivisor, if_pos rfl, List.nil_append] at hat hend
  have hpath := (does_xorRax undef rest).append
    ((does_store undef rest (armReg op 0) (x := rax) (by decide) (is64 op)).append does_nil)
  obtain ⟨m₂, hrun₂, hpos₂, hv₂⟩ := hpath _ m₁ v hv₁ hat
  refine ⟨m₂, hrun.trans hrun₂, hpos₂.trans hend, ?_⟩
  · have hslots₂ := hv₂.slots
    have hstored : Function.update v.slots (armReg op 0)
        (merge (is64 op) (v.slots (armReg op 0)) (cut (is64 op) 0)) =
        Function.update slots (armReg op 0) 0 := by
      rw [hw, hsame]
      rfl
    rw [← hstored]
    exact hslots₂

/-- With another divisor, or with one that is not loaded, there is a state from which the code gets
stuck: in the division or behind it. -/
theorem exists_stuck (h : is64 op = false ∨ slots (armReg op 16) ≠ 0) :
    ∃ m, m.pos = 0 ∧ Slots m slots ∧ ∀ Q : Machine → Prop,
      ¬ Reaches (Semantics.core undef rest) (translateDiv op).flatten m fun m' ↦
        m'.pos = (translateDiv op).flatten.length ∧ Q m' := by
  let signed := !op.getLsbD 11
  let a := cut (is64 op) (slots (armReg op 5))
  let d := if is64 op then slots (armReg op 16) else 1
  -- the home is where the quotient does not point to
  let q := BitVec.ofInt 64 (quotient signed (dividendHigh signed a) a d)
  have hd : d ≠ 0 := by
    show (if is64 op then slots (armReg op 16) else 1) ≠ 0
    cases hw : is64 op with
    | false => exact (by decide : (1 : BitVec 64) ≠ 0)
    | true => exact h.resolve_left (by rw [hw]; decide)
  have hv := exists_view (q + 0x1000) slots (fun _ ↦ 1) (.ofBits 0)
  refine ⟨_, rfl, hv.slots, fun Q ↦ ?_⟩
  obtain ⟨v₁, m₁, hrun₁, hv₁, hslots₁, hmem₁, h5, h0, h11, hat, -⟩ :=
    runs_jump undef rest op rfl hv
  have hdivisor : v₁.regs 11 = d := h11
  rw [hdivisor, if_neg hd] at hat
  obtain ⟨f, hf, hview⟩ := does_dividendHigh undef rest signed
  obtain ⟨hslots₂, hmem₂, hregs₂⟩ := hview v₁
  have hat₁ : At (translateDiv op).flatten m₁.pos
      ((if signed then emitCqo else xorR64R64 rdx rdx) ++
        ((if signed then idivR64 r11 else divR64 r11) ++
          (emitStoreArmReg rax (armReg op 0) (is64 op) ++ (overwritten (is64 op) ++ [])))) := by
    exact hat.left
  obtain ⟨m₂, hrun₂, hpos₂, hv₂⟩ := hf _ m₁ v₁ hv₁ hat₁.left
  have hat₂ := hat₁.right
  rw [← hpos₂] at hat₂
  have hdec : ∀ tail, X86.decode ((if signed then idivR64 r11 else divR64 r11) ++ tail) =
      some (.divWide signed .b64 (.reg 11), tail) := by
    cases signed <;> exact fun _ ↦ decode_prefixes rfl rfl
  let divided : Machine :=
    { m₂ with pos := m₂.pos + (if signed then idivR64 r11 else divR64 r11).length }
  have hpos : ∀ {pos : Nat} {b : Byte} {bs : List Byte},
      At (translateDiv op).flatten pos (b :: bs) → pos ≠ (translateDiv op).flatten.length :=
    fun hb ↦ Nat.ne_of_lt hb.pos_lt
  cases hexec : (Semantics.core undef rest).exec (.divWide signed .b64 (.reg 11)) divided with
  | none =>
    apply not_reaches_end (hrun₁.trans hrun₂)
    · rw [Semantics.step_chunk ⟨_, _, hdec⟩ hat₂.left]
      exact hexec
    · have hlt := hat₂.left
      cases hs : signed with
      | false =>
        rw [hs] at hlt
        exact hpos hlt
      | true =>
        rw [hs] at hlt
        exact hpos hlt
  | some m₃ =>
    obtain ⟨hq, hbase, hmem₃, hpos₃⟩ := exec_div undef rest hexec
    have hregs : ∀ g, divided.regs g =
        if g = 2 then dividendHigh signed (v₁.regs 0) else v₁.regs g := by
      intro g
      rw [← hregs₂ g, ← hv₂.regs]
    have hquotient : m₃.regs 0 = q := by
      rw [hq, hregs, hregs, hregs, if_pos rfl, if_neg (by decide), if_neg (by decide), hdivisor, h0]
    have hhome : m₃.regs 5 = q + 0x1000 := by
      rw [hbase, hregs, if_neg (by decide), h5]
      rfl
    have hv₃ : View.Of ⟨slots, m₃.regs, m₃.status, fun _ ↦ none⟩ m₃ := by
      refine ⟨?_, rfl, rfl, fun a ha ↦ ?_⟩
      · have hslots₃ := hv₂.slots.of_eq hbase hmem₃
        rwa [hslots₂, hslots₁] at hslots₃
      · rw [hmem₃]
        rw [hbase] at ha
        exact (hv₂.mem a ha).trans (congrFun (hmem₂.trans hmem₁) a)
    have hat₃ := hat₂.right
    have hrun₃ := Semantics.runs_chunk (c := ⟨_, _, hdec⟩) hat₂.left hexec
    have hpos₃' : m₃.pos = m₂.pos + (if signed then idivR64 r11 else divR64 r11).length := hpos₃
    rw [← hpos₃'] at hat₃
    obtain ⟨m₄, hrun₄, hpos₄, hv₄⟩ :=
      does_store undef rest (armReg op 0) (x := rax) (by decide) (is64 op) _ m₃ _ hv₃ hat₃.left
    have hat₄ := hat₃.right
    rw [← hpos₄] at hat₄
    apply not_reaches_end (hrun₁.trans (hrun₂.trans (hrun₃.trans hrun₄)))
    · apply step_overwritten (is64 op) hat₄.left
      have hregs₄ : m₄.regs = m₃.regs := hv₄.regs
      apply hv₄.mem
      rw [hregs₄, hquotient, hhome, homeRegion, Region.mem_iff]
      have hoff : q - (q + 0x1000) = - 0x1000#64 := by
        rw [sub_add_eq_sub_sub, sub_self, zero_sub]
        rfl
      dsimp only
      rw [hoff]
      decide
    · exact hpos hat₄.left

/-- `UDIV X0, X1, X2` by one. -/
theorem udiv_one_missed :
    ¬ DividesRight (Semantics.core (fun _ m ↦ m.status) fun _ _ ↦ none) 0x9ac20820 fun _ ↦ 1 := by
  intro h
  let ones : ArmReg → BitVec 64 := fun _ ↦ 1
  have hdivisor : is64 0x9ac20820 = false ∨ ones (armReg 0x9ac20820 16) ≠ 0 := Or.inr (by decide)
  obtain ⟨m, hpos, hslots, hstuck⟩ := exists_stuck (fun _ m ↦ m.status) (fun _ _ ↦ none) hdivisor
  exact hstuck _ (h m hpos hslots)

/-- A division comes out right in the 64-bit forms, for a zero divisor; the zero is written over the
stack pointer where `Rd` is the zero register. -/
theorem dividesRight_iff (op : BitVec 32) (slots : ArmReg → BitVec 64) :
    DividesRight (Semantics.core undef rest) op slots ↔
      is64 op = true ∧ slots (armReg op 16) = 0 ∧ (armReg op 0 = 31 → slots 31 = 0) := by
  constructor
  · intro h
    have hzero : is64 op = true ∧ slots (armReg op 16) = 0 := by
      by_contra hne
      rw [not_and_or, Bool.not_eq_true] at hne
      obtain ⟨m, hpos, hslots, hstuck⟩ := exists_stuck undef rest hne
      exact hstuck _ (h m hpos hslots)
    refine ⟨hzero.1, hzero.2, fun hrd ↦ ?_⟩
    have hv := exists_view 0 slots (fun _ ↦ 0) (.ofBits 0)
    obtain ⟨m₁, hrun₁, hend₁, hslots₁⟩ := runs_zero undef rest hzero.1 hzero.2 rfl hv.slots
    obtain ⟨m₂, hrun₂, hend₂, slots₂, hslots₂, hright⟩ := h _ rfl hv.slots
    rw [Semantics.runs_end_unique hrun₁ hend₁ hrun₂ hend₂] at hslots₂
    have hslot := hright 31
    rw [← hslots₁.unique hslots₂, hrd, Function.update_self, if_neg (fun h ↦ h.2 rfl)] at hslot
    exact hslot.symm
  · rintro ⟨hw, hzero, hrd⟩ m hpos hslots
    obtain ⟨m', hrun, hend, hslots'⟩ := runs_zero undef rest hw hzero hpos hslots
    refine ⟨m', hrun, hend, _, hslots', fun r ↦ ?_⟩
    have hdivisor : operand slots (armReg op 16) = 0 := by
      rw [operand, hzero, ite_self]
    rw [hdivisor, A64.divide_zero, hw, Function.update_apply]
    by_cases hr : r = armReg op 0
    · rw [if_pos hr]
      by_cases h31 : r = 31
      · rw [if_neg (fun h ↦ h.2 h31), h31, hrd (hr.symm.trans h31)]
      · rw [if_pos ⟨hr, h31⟩]
        rfl
    · rw [if_neg hr, if_neg (fun h ↦ hr h.1)]

end Division

end Arm2x86.Translate
