import Arm2x86.Translate.ValueRuns

/-!
# Constants to the register home

The two `mov`s of an immediate by which `translate_mov_imm` and `translate_adr_adrp`
(`modules/arm2x86_translate64.c:1094`) write a constant to a slot. Each of them writes eight bytes, so
the second one, four bytes behind the first, reaches into the next slot.
-/

namespace Arm2x86.Translate

open X86

section Straddling

variable {m m' : Machine} {slots : ArmReg → BitVec 64} {r : ArmReg}

/-- Slots by their bytes. -/
theorem slots_iff_bytes : Slots m slots ↔ ∀ r, ∀ i < 8,
    m.mem (slotAddr (m.regs 5) r + BitVec.ofNat 64 i) = some ((slots r).extractLsb' (8 * i) 8) := by
  constructor
  · intro h r i hi
    rw [(Sparse.load_eq_some_iff.mp (load_of_slotAt (h r))).2 i hi, Machine.getElem?_bytes _ hi]
  · intro h r
    have hload : Sparse.load m.mem (slotAddr (m.regs 5) r) 8 = some (Machine.bytes (slots r) 8) := by
      apply Sparse.load_eq_some_iff.mpr
      apply And.intro (Machine.length_bytes _ 8)
      intro i hi
      rw [h r i hi, Machine.getElem?_bytes _ hi]
    rw [slotAt_eq, hload, Option.map_some, Machine.value_bytes]

/-- The home is mapped. -/
theorem Slots.isSome (h : Slots m slots) {a : BitVec 64} (ha : a ∈ homeRegion (m.regs 5)) :
    (m.mem a).isSome := by
  have hlt : (a - m.regs 5).toNat < 256 := ha
  have haddr : slotAddr (m.regs 5) (Fin.ofNat 32 ((a - m.regs 5).toNat / 8)) +
      BitVec.ofNat 64 ((a - m.regs 5).toNat % 8) = a := by
    have hsum : 8 * ((a - m.regs 5).toNat / 8 % 32) + (a - m.regs 5).toNat % 8 =
        (a - m.regs 5).toNat := by
      omega
    rw [slotAddr, Fin.val_ofNat, BitVec.add_assoc, ← BitVec.ofNat_add, hsum, BitVec.ofNat_toNat,
      BitVec.setWidth_eq, BitVec.add_comm, BitVec.sub_add_cancel]
  have hslot := isSome_of_slotAt (h (Fin.ofNat 32 ((a - m.regs 5).toNat / 8)))
    (Nat.mod_lt (a - m.regs 5).toNat (by decide : 0 < 8))
  rwa [haddr] at hslot

/-- Eight bytes over the high half of a slot and the low half of the next one. -/
def straddle (slots : ArmReg → BitVec 64) (r : ArmReg) (x : BitVec 64) : ArmReg → BitVec 64 :=
  Function.update
    (Function.update slots r (x.extractLsb' 0 32 ++ (slots r).extractLsb' 0 32)) (r + 1)
    ((slots (r + 1)).extractLsb' 32 32 ++ x.extractLsb' 32 32)

/-- A byte of two words. -/
private theorem byte_append (a b : BitVec 32) {i : Nat} (hi : i < 8) :
    (a ++ b).extractLsb' (8 * i) 8 =
      if i < 4 then b.extractLsb' (8 * i) 8 else a.extractLsb' (8 * (i - 4)) 8 := by
  ext j hj
  rw [BitVec.getElem_extractLsb', BitVec.getLsbD_append]
  by_cases h4 : i < 4
  · have hlow : 8 * i + j < 32 := by omega
    simp [h4, hlow]
  · have hlow : ¬ 8 * i + j < 32 := by omega
    have hsub : 8 * i + j - 32 = 8 * (i - 4) + j := by omega
    simp [h4, hlow, hsub]

private theorem byte_half (x : BitVec 64) (k i : Nat) (hi : i < 4) :
    (x.extractLsb' (32 * k) 32).extractLsb' (8 * i) 8 = x.extractLsb' (8 * (4 * k + i)) 8 := by
  ext j hj
  have hlow : 8 * i + j < 32 := by omega
  have hsum : 32 * k + (8 * i + j) = 8 * (4 * k + i) + j := by omega
  simp [hlow, hsum]

/-- What such a store leaves in the slots. -/
theorem Slots.straddle (h : Slots m slots) (hr : r ≠ 31) (x : BitVec 64) (hbase : m'.regs 5 = m.regs 5)
    (hmem : m'.mem = Sparse.overwrite m.mem (slotAddr (m.regs 5) r + 4) (Machine.bytes x 8)) :
    Slots m' (straddle slots r x) := by
  have hlt := r.isLt
  have hne31 : (r : Nat) ≠ 31 := fun he ↦ hr (Fin.ext he)
  have hnext : ((r + 1 : ArmReg) : Nat) = r + 1 := by
    rw [Fin.val_add]
    exact Nat.mod_eq_of_lt (by omega)
  have hbytes := slots_iff_bytes.mp h
  apply slots_iff_bytes.mpr
  intro r' i hi
  have hlt' := r'.isLt
  have hoff : (slotAddr (m.regs 5) r' + BitVec.ofNat 64 i - (slotAddr (m.regs 5) r + 4)).toNat =
      (8 * r' + i + (2 ^ 64 - (8 * r + 4))) % 2 ^ 64 := by
    have hfour : slotAddr (m.regs 5) r + 4 = m.regs 5 + BitVec.ofNat 64 (8 * r + 4) := by
      rw [slotAddr, BitVec.add_assoc, BitVec.ofNat_add]
      rfl
    rw [hfour, slotAddr, BitVec.add_assoc, ← BitVec.ofNat_add, toNat_sub_slot _ _ _ (by omega),
      BitVec.toNat_ofNat]
    omega
  have hbyte : m'.mem (slotAddr (m.regs 5) r' + BitVec.ofNat 64 i) =
      ((Machine.bytes x 8)[(8 * r' + i + (2 ^ 64 - (8 * r + 4))) % 2 ^ 64]?).or
        (some ((slots r').extractLsb' (8 * i) 8)) := by
    rw [hmem, Sparse.overwrite, hoff, hbytes r' i hi]
  rw [hbase, hbyte, Translate.straddle]
  by_cases hrn : r' = r + 1
  · have hval : (r' : Nat) = r + 1 := by rw [hrn, hnext]
    rw [hrn, Function.update_self, byte_append _ _ hi]
    by_cases h4 : i < 4
    · have hpos : (8 * (r + 1 : Nat) + i + (2 ^ 64 - (8 * r + 4))) % 2 ^ 64 = 4 * 1 + i := by omega
      rw [hnext, hpos, Machine.getElem?_bytes x (by omega), if_pos h4, ← byte_half x 1 i h4]
      rfl
    · have hpos : 8 ≤ (8 * (r + 1 : Nat) + i + (2 ^ 64 - (8 * r + 4))) % 2 ^ 64 := by omega
      have hsum : 4 * 1 + (i - 4) = i := by omega
      have hhalf := byte_half (slots (r + 1)) 1 (i - 4) (by omega)
      rw [hsum] at hhalf
      rw [hnext, List.getElem?_eq_none (by rwa [Machine.length_bytes]), Option.none_or, if_neg h4]
      exact congrArg some hhalf.symm
  · rw [Function.update_of_ne hrn]
    by_cases hrr : r' = r
    · rw [hrr, Function.update_self, byte_append _ _ hi]
      by_cases h4 : i < 4
      · have hpos : 8 ≤ (8 * (r : Nat) + i + (2 ^ 64 - (8 * r + 4))) % 2 ^ 64 := by omega
        have hhalf := byte_half (slots r) 0 i h4
        rw [Nat.mul_zero, Nat.zero_add] at hhalf
        rw [List.getElem?_eq_none (by rwa [Machine.length_bytes]), Option.none_or, if_pos h4]
        exact congrArg some hhalf.symm
      · have hpos : (8 * (r : Nat) + i + (2 ^ 64 - (8 * r + 4))) % 2 ^ 64 = i - 4 := by omega
        have hhalf := byte_half x 0 (i - 4) (by omega)
        rw [Nat.mul_zero, Nat.zero_add] at hhalf
        rw [hpos, Machine.getElem?_bytes x (by omega), if_neg h4]
        exact congrArg some hhalf.symm
    · have hval : (r' : Nat) ≠ r := fun he ↦ hrr (Fin.ext he)
      have hval' : (r' : Nat) ≠ r + 1 := fun he ↦ hrn (Fin.ext (he.trans hnext.symm))
      have hpos : 8 ≤ (8 * (r' : Nat) + i + (2 ^ 64 - (8 * r + 4))) % 2 ^ 64 := by omega
      rw [Function.update_of_ne hrr, List.getElem?_eq_none (by rwa [Machine.length_bytes]),
        Option.none_or]

end Straddling

section Stores

variable (undef : Instr → Machine → Status) (rest : Instr → Machine → Option Machine)

theorem decode_movSlotImm (offset imm : BitVec 32) (tail : List Byte) :
    X86.decode (movSlotImm [rexRm 0 0, 0x48] offset imm ++ tail) =
      some (.movImm .b64 (.mem (some 5) none (offset.signExtend 64)) (imm.signExtend 64), tail) := by
  have hcode : movSlotImm [rexRm 0 0, 0x48] offset imm ++ tail =
      rexRm 0 0 :: 0x48 :: 0xc7 :: modrm 2 0 5 :: (imm32 offset ++ (imm32 imm ++ tail)) := by
    simp [movSlotImm]
  have htake : takeImm .b64 (imm32 imm ++ tail) = some (imm.signExtend 64, tail) :=
    take32_imm32 imm tail
  have hprefixes : takePrefixes .none
      (rexRm 0 0 :: 0x48 :: 0xc7 :: modrm 2 0 5 :: (imm32 offset ++ (imm32 imm ++ tail))) =
        ({ Prefixes.none with rex := some 0x48 },
          0xc7 :: modrm 2 0 5 :: (imm32 offset ++ (imm32 imm ++ tail))) := rfl
  rw [hcode]
  apply decode_prefixes hprefixes
  simp [decodeOpcode, takeRm_disp32, htake, takeExt, opSize, Prefixes.size, Prefixes.w, Prefixes.b,
    Prefixes.none, gpr]

/-- Eight bytes to an address in the home. -/
private theorem exec_movSlotImm {m : Machine} {x off : BitVec 64} (h : ∀ i < 8,
    (m.mem (m.regs 5 + off + BitVec.ofNat 64 i)).isSome) :
    (Semantics.core undef rest).exec (.movImm .b64 (.mem (some 5) none off) x) m =
      some { m with mem := Sparse.overwrite m.mem (m.regs 5 + off) (Machine.bytes x 8) } := by
  have hexec : (Semantics.core undef rest).exec (.movImm .b64 (.mem (some 5) none off) x) m =
      m.store (m.regs 5 + 0 + off) (Machine.bytes x 8) := rfl
  obtain ⟨bs, hbs⟩ := Sparse.exists_load_iff.mpr h
  have hzero : m.regs 5 + 0 + off = m.regs 5 + off := congrArg (· + off) (BitVec.add_zero _)
  rw [hexec, hzero, Machine.store_eq, Sparse.store, Machine.length_bytes, hbs]
  rfl

/-- And to an address behind it. -/
theorem exec_movSlotImm_none {m : Machine} {x off : BitVec 64} {i : Nat} (hi : i < 8)
    (h : m.mem (m.regs 5 + off + BitVec.ofNat 64 i) = none) :
    (Semantics.core undef rest).exec (.movImm .b64 (.mem (some 5) none off) x) m = none := by
  have hexec : (Semantics.core undef rest).exec (.movImm .b64 (.mem (some 5) none off) x) m =
      m.store (m.regs 5 + 0 + off) (Machine.bytes x 8) := rfl
  have hzero : m.regs 5 + 0 + off = m.regs 5 + off := congrArg (· + off) (BitVec.add_zero _)
  rw [hexec, hzero, Machine.store_eq, Sparse.store, Machine.length_bytes, Sparse.load_eq_none hi h]
  rfl

theorem computes_movSlotImm (r : ArmReg) (imm : BitVec 32) :
    Computes (Semantics.core undef rest) (movSlotImm [rexRm 0 0, 0x48] (armRegOffset r) imm)
      fun v ↦ v.store r true (imm.signExtend 64) := by
  apply computes_instr (decode_movSlotImm _ _)
  intro m v hv
  have hmapped : ∀ i < 8, (m.mem (m.regs 5 + BitVec.ofNat 64 (8 * r) + BitVec.ofNat 64 i)).isSome :=
    fun i hi ↦ isSome_of_slotAt (hv.slots r) hi
  have hkept : ∀ a ∉ homeRegion (m.regs 5), storedMem m (m.regs 5) r true (imm.signExtend 64) a = v.mem a :=
    fun a ha ↦ (storedMem_of_notMem ha true).trans (hv.mem a ha)
  rw [armRegOffset_signExtend, exec_movSlotImm undef rest hmapped]
  exact ⟨_, rfl, rfl, hv.slots.store r true (imm.signExtend 64) m.pos, hv.regs, hkept⟩

private theorem armRegOffset_high : ∀ r : ArmReg,
    (armRegOffset r + 4).signExtend 64 = BitVec.ofNat 64 (8 * r) + 4 := by
  decide

/-- Where the store straddles. -/
theorem computes_movSlotImm_high {r : ArmReg} (hr : r ≠ 31) (imm : BitVec 32) :
    Computes (Semantics.core undef rest) (movSlotImm [rexRm 0 0, 0x48] (armRegOffset r + 4) imm)
      fun v ↦ { v with slots := straddle v.slots r (imm.signExtend 64) } := by
  apply computes_instr (decode_movSlotImm _ _)
  intro m v hv
  have hlt := r.isLt
  have hne : (r : Nat) ≠ 31 := fun he ↦ hr (Fin.ext he)
  have hhome : ∀ i < 8, m.regs 5 + (BitVec.ofNat 64 (8 * r) + 4) + BitVec.ofNat 64 i =
      m.regs 5 + BitVec.ofNat 64 (8 * r + 4 + i) := by
    intro i hi
    rw [BitVec.ofNat_add, BitVec.ofNat_add, BitVec.add_assoc]
    rfl
  have hmem : ∀ i < 8, m.regs 5 + BitVec.ofNat 64 (8 * r + 4 + i) ∈ homeRegion (m.regs 5) :=
    fun i hi ↦ Region.start_add_mem (by omega)
  rw [armRegOffset_high,
    exec_movSlotImm undef rest fun i hi ↦ hhome i hi ▸ hv.slots.isSome (hmem i hi)]
  refine ⟨_, rfl, rfl, ?_, hv.regs, fun a ha ↦ ?_⟩
  · exact hv.slots.straddle hr _ rfl (congrArg (Sparse.overwrite m.mem · _) (BitVec.add_assoc _ _ _).symm)
  · rw [← hv.mem a ha]
    apply Sparse.overwrite_of_notMem
    intro hin
    apply ha
    rw [Region.mem_iff, Machine.length_bytes] at hin
    have hoff := hmem _ hin
    rwa [← hhome _ hin, BitVec.ofNat_toNat, BitVec.setWidth_eq, BitVec.add_comm,
      BitVec.sub_add_cancel] at hoff

/-- The slots behind a constant. -/
def withConstant (slots : ArmReg → BitVec 64) (r : ArmReg) (c : BitVec 64) : ArmReg → BitVec 64 :=
  let low := Function.update slots r ((lo32 c).signExtend 64)
  if hi32 c = 0 then low else straddle low r ((hi32 c).signExtend 64)

theorem computes_movSlot {r : ArmReg} {c : BitVec 64} (h : r = 31 → hi32 c = 0) :
    Computes (Semantics.core undef rest) (movSlot [rexRm 0 0, 0x48] r c).flatten
      fun v ↦ { v with slots := withConstant v.slots r c } := by
  have hlow := computes_movSlotImm undef rest r (lo32 c)
  by_cases hhi : hi32 c = 0
  · have hcode : (movSlot [rexRm 0 0, 0x48] r c).flatten =
        movSlotImm [rexRm 0 0, 0x48] (armRegOffset r) (lo32 c) ++ [] := by
      rw [movSlot, hhi]
      rfl
    have hslots : ∀ slots, withConstant slots r c = Function.update slots r ((lo32 c).signExtend 64) :=
      fun _ ↦ if_pos hhi
    rw [hcode]
    simp only [hslots]
    exact hlow.append computes_nil
  · have hcode : (movSlot [rexRm 0 0, 0x48] r c).flatten =
        movSlotImm [rexRm 0 0, 0x48] (armRegOffset r) (lo32 c) ++
          (movSlotImm [rexRm 0 0, 0x48] (armRegOffset r + 4) (hi32 c) ++ []) := by
      rw [movSlot, if_pos (bne_iff_ne.mpr hhi)]
      rfl
    have hslots : ∀ slots, withConstant slots r c = straddle
        (Function.update slots r ((lo32 c).signExtend 64)) r ((hi32 c).signExtend 64) :=
      fun _ ↦ if_neg hhi
    rw [hcode]
    simp only [hslots]
    exact hlow.append
      ((computes_movSlotImm_high undef rest (fun hr ↦ hhi (h hr)) (hi32 c)).append computes_nil)

end Stores

section Values

variable (slots : ArmReg → BitVec 64) (r : ArmReg) (c : BitVec 64)

theorem hi32_eq_zero_iff : hi32 c = 0 ↔ c < 0x100000000 := by
  have hlt := c.isLt
  have hval : (hi32 c).toNat = c.toNat / 2 ^ 32 % 2 ^ 32 := by
    rw [hi32, BitVec.extractLsb'_toNat, Nat.shiftRight_eq_div_pow]
  have hbound : (0x100000000 : BitVec 64).toNat = 2 ^ 32 := rfl
  have hzero : (0 : BitVec 32).toNat = 0 := rfl
  rw [← BitVec.toNat_inj, hval, BitVec.lt_def, hbound, hzero]
  omega

private theorem extract_signExtend (x : BitVec 32) : (x.signExtend 64).extractLsb' 0 32 = x := by
  ext i hi
  simp [BitVec.getLsbD_signExtend, hi]
  intro h
  omega

private theorem halves (c : BitVec 64) : hi32 c ++ lo32 c = c := by
  have hlow : lo32 c = c.extractLsb' 0 32 := by
    ext i hi
    simp [lo32]
  rw [hi32, hlow, BitVec.extractLsb'_append_extractLsb'_eq_extractLsb' (by decide)]
  simp

/-- A low half is the whole value, sign-extended. -/
theorem signExtend_lo32_iff {c : BitVec 64} (h : hi32 c = 0) :
    (lo32 c).signExtend 64 = c ↔ c < 0x80000000 := by
  have hlt := (hi32_eq_zero_iff c).mp h
  have hbound : (0x100000000 : BitVec 64).toNat = 2 ^ 32 := rfl
  have hhalf : (0x80000000 : BitVec 64).toNat = 2 ^ 31 := rfl
  have hlow : (lo32 c).toNat = c.toNat := by
    rw [BitVec.lt_def, hbound] at hlt
    rw [lo32, BitVec.toNat_setWidth, Nat.mod_eq_of_lt hlt]
  rw [← BitVec.toNat_inj, BitVec.toNat_signExtend, BitVec.toNat_setWidth, BitVec.msb_eq_decide, hlow,
    Nat.mod_eq_of_lt c.isLt]
  simp only [BitVec.lt_def, hhalf, decide_eq_true_eq]
  split <;> omega

/-- The value that a constant leaves in its slot: the low half alone is sign-extended. -/
theorem withConstant_self_iff : withConstant slots r c r = c ↔ c < 0x80000000 ∨ 0x100000000 ≤ c := by
  rw [withConstant]
  by_cases hhi : hi32 c = 0
  · have hge : ¬ 0x100000000 ≤ c := BitVec.not_le.mpr ((hi32_eq_zero_iff c).mp hhi)
    rw [if_pos hhi, Function.update_self, signExtend_lo32_iff hhi]
    exact ⟨Or.inl, fun h ↦ h.resolve_right hge⟩
  · have hge : 0x100000000 ≤ c := by
      rw [hi32_eq_zero_iff] at hhi
      exact BitVec.not_lt.mp hhi
    have hne : r + 1 ≠ r := by
      have key : ∀ r : ArmReg, r + 1 ≠ r := by decide
      exact key r
    rw [if_neg hhi, straddle, Function.update_of_ne hne.symm, Function.update_self, Function.update_self,
      extract_signExtend, extract_signExtend, halves]
    exact iff_of_true rfl (Or.inr hge)

/-- The low half is right in any case. -/
theorem lo32_withConstant : lo32 (withConstant slots r c r) = lo32 c := by
  have hne : r ≠ r + 1 := by
    have key : ∀ r : ArmReg, r ≠ r + 1 := by decide
    exact key r
  have hlow : ∀ x : BitVec 64, lo32 x = x.extractLsb' 0 32 := by
    intro x
    ext i hi
    simp [lo32]
  rw [withConstant]
  split
  · rw [Function.update_self, hlow, extract_signExtend]
  · rw [straddle, Function.update_of_ne hne, Function.update_self, Function.update_self,
      extract_signExtend, extract_signExtend]
    exact BitVec.setWidth_append_eq_right

theorem withConstant_eq (slots slots' : ArmReg → BitVec 64) :
    withConstant slots r c r = withConstant slots' r c r := by
  have hne : r ≠ r + 1 := by
    have key : ∀ r : ArmReg, r ≠ r + 1 := by decide
    exact key r
  rw [withConstant, withConstant]
  split
  · rw [Function.update_self, Function.update_self]
  · rw [straddle, straddle, Function.update_of_ne hne, Function.update_of_ne hne]
    simp only [Function.update_self]

/-- The next slot keeps its value only where the high half is not written. -/
theorem withConstant_next (h : hi32 c ≠ 0) : ∃ slots : ArmReg → BitVec 64,
    withConstant slots r c (r + 1) ≠ slots (r + 1) := by
  have hne : r + 1 ≠ r := by
    have key : ∀ r : ArmReg, r + 1 ≠ r := by decide
    exact key r
  have hput : ∀ slots : ArmReg → BitVec 64, withConstant slots r c (r + 1) =
      (slots (r + 1)).extractLsb' 32 32 ++ ((hi32 c).signExtend 64).extractLsb' 32 32 := by
    intro slots
    rw [withConstant, if_neg h, straddle, Function.update_self, Function.update_of_ne hne]
  by_contra hall
  have hkeep : ∀ x : BitVec 64,
      x.extractLsb' 32 32 ++ ((hi32 c).signExtend 64).extractLsb' 32 32 = x := by
    intro x
    by_contra hx
    exact hall ⟨fun _ ↦ x, fun he ↦ hx ((hput fun _ ↦ x).symm.trans he)⟩
  have hone := hkeep 1
  have htwo := hkeep 2
  have hsame : (1 : BitVec 64).extractLsb' 32 32 = (2 : BitVec 64).extractLsb' 32 32 := by decide
  rw [hsame, htwo] at hone
  exact absurd hone (by decide)

end Values

section Results

variable (undef : Instr → Machine → Status) (rest : Instr → Machine → Option Machine)
variable {r : ArmReg} {c want : BitVec 64}

/-- The high half of the last slot reaches out of the home. -/
theorem not_leavesRegs_movSlot {pre : (ArmReg → BitVec 64) → (Gpr → BitVec 64) → Prop}
    {post : (ArmReg → BitVec 64) → (ArmReg → BitVec 64) → (Gpr → BitVec 64) → Prop} (hhi : hi32 c ≠ 0)
    (slots : ArmReg → BitVec 64) (regs : Gpr → BitVec 64) (hpre : pre slots regs) :
    ¬ LeavesRegs (Semantics.core undef rest) (movSlot [rexRm 0 0, 0x48] 31 c) pre post := by
  have hcode : movSlot [rexRm 0 0, 0x48] 31 c =
      movSlotImm [rexRm 0 0, 0x48] (armRegOffset 31) (lo32 c) ::
        movSlotImm [rexRm 0 0, 0x48] (armRegOffset 31 + 4) (hi32 c) :: [] := by
    rw [movSlot, if_pos (bne_iff_ne.mpr hhi)]
  rw [hcode]
  apply not_leavesRegs (computes_movSlotImm undef rest _ _) (decode_movSlotImm _ _) (by simp [movSlotImm])
    slots regs hpre
  intro m hm
  have hout : m.regs 5 + (armRegOffset 31 + 4).signExtend 64 + BitVec.ofNat 64 4 ∉
      homeRegion (m.regs 5) := by
    have hoff : (armRegOffset 31 + 4).signExtend 64 + BitVec.ofNat 64 4 = 256 := by decide
    rw [BitVec.add_assoc, hoff, Region.mem_iff, homeRegion, BitVec.add_comm, BitVec.add_sub_cancel]
    exact Nat.lt_irrefl 256
  exact exec_movSlotImm_none undef rest (by decide : 4 < 8) (hm.mem _ hout)

/-- A constant gets to its slot, and to no other, where its sign-extended low half is all of it. -/
theorem leavesRegs_movSlot_iff :
    LeavesRegs (Semantics.core undef rest) (movSlot [rexRm 0 0, 0x48] r c) (fun _ _ ↦ True)
        (fun slots slots' _ ↦ SetsReg true slots r want slots') ↔
      r ≠ 31 ∧ hi32 c = 0 ∧ (lo32 c).signExtend 64 = want := by
  by_cases hmapped : r = 31 ∧ hi32 c ≠ 0
  · rw [hmapped.1]
    exact iff_of_false (not_leavesRegs_movSlot undef rest hmapped.2 (fun _ ↦ 0) (fun _ ↦ 0) trivial)
      fun h ↦ h.1 rfl
  have hcode := computes_movSlot undef rest fun hr ↦ not_not.mp fun hhi ↦ hmapped ⟨hr, hhi⟩
  rw [leavesRegs_iff hcode (fun slots _ ↦ withConstant slots r c) (fun _ regs ↦ regs) (fun _ ↦ rfl)
    fun _ ↦ rfl]
  constructor
  · intro h
    have hset := fun slots ↦ h slots (fun _ ↦ 0) trivial
    have hlow : hi32 c = 0 → ∀ slots, withConstant slots r c r = (lo32 c).signExtend 64 := by
      intro hhi slots
      rw [withConstant, if_pos hhi, Function.update_self]
    by_cases hr : r = 31
    · have hhi : hi32 c = 0 := not_not.mp fun hhi ↦ hmapped ⟨hr, hhi⟩
      have hkept : ∀ slots : ArmReg → BitVec 64, (lo32 c).signExtend 64 = slots r := by
        intro slots
        have hslot := hset slots r
        rwa [if_neg fun h ↦ h.2 hr, hlow hhi] at hslot
      exact absurd ((hkept fun _ ↦ 0).symm.trans (hkept fun _ ↦ 1)) (by decide)
    · have hhi : hi32 c = 0 := by
        by_contra hhi
        have hne : r + 1 ≠ r := by
          have key : ∀ r : ArmReg, r + 1 ≠ r := by decide
          exact key r
        obtain ⟨slots, hnext⟩ := withConstant_next r c hhi
        have hslot := hset slots (r + 1)
        rw [if_neg fun h ↦ hne h.1] at hslot
        exact hnext hslot
      have hslot := hset (fun _ ↦ 0) r
      rw [if_pos ⟨rfl, hr⟩, hlow hhi] at hslot
      exact ⟨hr, hhi, hslot⟩
  · rintro ⟨hr, hhi, hlow⟩ slots regs - r'
    rw [withConstant, if_pos hhi, hlow, Function.update_apply]
    by_cases hr' : r' = r
    · rw [if_pos hr', if_pos ⟨hr', hr' ▸ hr⟩]
      rfl
    · rw [if_neg hr', if_neg fun h ↦ hr' h.1]

end Results

end Arm2x86.Translate
