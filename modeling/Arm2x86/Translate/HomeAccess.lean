import Arm2x86.Translate.StraightLine
import Arm2x86.X86.Runs

/-!
# Accesses to the register home

`emit_load_arm_reg` and `emit_store_arm_reg` (`modules/arm2x86_translate64.c:43`) as instructions, and
what they do to the slots. The load without a prefix has no high registers, and the 64-bit store of
a high register goes through `R13`.
-/

namespace Arm2x86.Translate

open X86

section Slots

variable {home : BitVec 64} {r r' : ArmReg} {m m' : Machine} {v : BitVec 64}

/-- The address of a slot. -/
def slotAddr (home : BitVec 64) (r : ArmReg) : BitVec 64 := home + BitVec.ofNat 64 (8 * r)

/-- The 256 bytes of the register home. -/
def homeRegion (home : BitVec 64) : Region := ⟨home, 256⟩

theorem toNat_sub_slot (home a : BitVec 64) (k : Nat) (hk : k < 2 ^ 64) :
    (home + a - (home + BitVec.ofNat 64 k)).toNat = (a.toNat + (2 ^ 64 - k)) % 2 ^ 64 := by
  have hsub : home + a - (home + BitVec.ofNat 64 k) = a - BitVec.ofNat 64 k :=
    add_sub_add_left_eq_sub a _ home
  rw [hsub, BitVec.toNat_sub, BitVec.toNat_ofNat, Nat.mod_eq_of_lt hk, Nat.add_comm]

/-- A byte of a slot is in the home. -/
theorem slot_mem_home (home : BitVec 64) (r : ArmReg) {i : Nat} (hi : i < 8) :
    slotAddr home r + BitVec.ofNat 64 i ∈ homeRegion home := by
  have hr := r.isLt
  rw [slotAddr, BitVec.add_assoc, ← BitVec.ofNat_add]
  exact Region.start_add_mem (by omega)

/-- A byte of a slot is in no other slot. -/
theorem slot_notMem_slot (home : BitVec 64) (h : r' ≠ r) {i n : Nat} (hi : i < 8) (hn : n ≤ 8) :
    slotAddr home r' + BitVec.ofNat 64 i ∉ (⟨slotAddr home r, n⟩ : Region) := by
  have hr := r.isLt
  have hr' := r'.isLt
  have hne : (r' : Nat) ≠ r := fun he ↦ h (Fin.ext he)
  rw [Region.mem_iff, slotAddr, BitVec.add_assoc, ← BitVec.ofNat_add]
  simp only [slotAddr]
  rw [toNat_sub_slot _ _ _ (by omega), BitVec.toNat_ofNat]
  omega

theorem slotAt_eq (home : BitVec 64) (r : ArmReg) (m : Machine) :
    slotAt home r m = (Sparse.load m.mem (slotAddr home r) 8).map Machine.value := rfl

/-- A slot whose bytes are the same has the same value. -/
theorem slotAt_congr (h : ∀ i < 8, m'.mem (slotAddr home r + BitVec.ofNat 64 i) =
    m.mem (slotAddr home r + BitVec.ofNat 64 i)) : slotAt home r m' = slotAt home r m := by
  rw [slotAt_eq, slotAt_eq, Sparse.load_congr h]

/-- A slot with a value has its bytes. -/
theorem load_of_slotAt (h : slotAt home r m = some v) :
    Sparse.load m.mem (slotAddr home r) 8 = some (Machine.bytes v 8) := by
  rw [slotAt_eq] at h
  obtain ⟨bs, hload, hvalue⟩ := Option.map_eq_some_iff.mp h
  have hlen := Sparse.length_of_load hload
  have hlt := leNat_lt bs
  rw [hlen] at hlt
  rw [hload, ← hvalue, Machine.value_eq, Machine.bytes_eq, BitVec.toNat_ofNat,
    Nat.mod_eq_of_lt (by simpa using hlt), ← hlen, leBytes_leNat]

/-- A slot with a value is mapped. -/
theorem isSome_of_slotAt (h : slotAt home r m = some v) {i : Nat} (hi : i < 8) :
    (m.mem (slotAddr home r + BitVec.ofNat 64 i)).isSome :=
  Sparse.exists_load_iff.mp ⟨_, load_of_slotAt h⟩ i hi

end Slots

section Instructions

/-- The operand size of a width flag. -/
def opSizeOf (w : Bool) : Size := if w then .b64 else .b32

/-- The bytes an access of a width takes. -/
def widthBytes (w : Bool) : Nat := if w then 8 else 4

/-- A value at a width. -/
def cut (w : Bool) (v : BitVec 64) : BitVec 64 := if w then v else (v.setWidth 32).setWidth 64

/-- The host register that a load from the home reaches. -/
def loadedReg (x : Byte) (w : Bool) : Gpr := gpr (w && 8 ≤ x) (x.setWidth 3)

/-- The slot that a store to the home reaches, by its base. -/
def storeLoc (x : Byte) (r : ArmReg) (w : Bool) : Loc :=
  .mem (some (gpr (w && 8 ≤ x) 5)) none (BitVec.ofNat 64 (8 * r))

theorem armRegOffset_signExtend : ∀ r : ArmReg,
    (armRegOffset r).signExtend 64 = BitVec.ofNat 64 (8 * r) := by
  decide

private theorem setWidth_low (x : Byte) : (x &&& 7).setWidth 3 = x.setWidth 3 := by
  have key : ∀ x : Byte, (x &&& 7).setWidth 3 = x.setWidth 3 := by decide
  exact key x

/-- `emit_load_arm_reg` as an instruction. -/
def loadChunk (r : ArmReg) (x : Byte) (w : Bool) : Chunk where
  bytes := emitLoadArmReg r x w
  instr := .mov (opSizeOf w) (.reg (loadedReg x w)) (.mem (some 5) none (BitVec.ofNat 64 (8 * r)))
  decodes := by
    intro rest
    rw [← armRegOffset_signExtend, loadedReg, emitLoadArmReg, ← setWidth_low x]
    cases w with
    | false => exact decode_load32 (x &&& 7) (armRegOffset r) rest
    | true =>
      rw [if_pos rfl, Bool.true_and]
      by_cases h8 : 8 ≤ x
      · rw [if_pos h8, decide_eq_true h8]
        exact decode_loadDisp (x &&& 7) (armRegOffset r) rest (by decide)
      · rw [if_neg h8, decide_eq_false h8]
        exact decode_loadDisp (x &&& 7) (armRegOffset r) rest (by decide)

/-- `emit_store_arm_reg` as an instruction. -/
def storeChunk (x : Byte) (r : ArmReg) (w : Bool) : Chunk where
  bytes := emitStoreArmReg x r w
  instr := .mov (opSizeOf w) (storeLoc x r w) (.reg (gpr false (x.setWidth 3)))
  decodes := by
    intro rest
    rw [storeLoc, ← armRegOffset_signExtend, emitStoreArmReg, ← setWidth_low x]
    cases w with
    | false =>
      have hbase : gpr false 5 = 5 := rfl
      rw [Bool.false_and, hbase]
      exact decode_store32 (x &&& 7) (armRegOffset r) rest
    | true =>
      rw [if_pos rfl, Bool.true_and]
      by_cases h8 : 8 ≤ x
      · rw [if_pos h8, decide_eq_true h8]
        exact decode_storeDisp (x &&& 7) (armRegOffset r) rest (by decide)
      · rw [if_neg h8, decide_eq_false h8]
        exact decode_storeDisp (x &&& 7) (armRegOffset r) rest (by decide)

end Instructions

section Effects

variable {home : BitVec 64} {r r' : ArmReg} {m m' : Machine} {v : BitVec 64}

/-- The `mov` of a width. -/
def movAt (w : Bool) (dst src : Loc) (m : Machine) : Option Machine :=
  (m.read (opSizeOf w) src).bind fun v ↦ m.write (opSizeOf w) v dst

/-- The value of a register at a width. -/
theorem read_reg (w : Bool) (x : Gpr) (m : Machine) :
    m.read (opSizeOf w) (.reg x) = some (cut w (m.regs x)) := by
  cases w <;> rfl

theorem address_slot (m : Machine) (r : ArmReg) :
    m.address (.mem (some 5) none (BitVec.ofNat 64 (8 * r))) = some (slotAddr (m.regs 5) r) := by
  show some (m.regs 5 + 0#64 + BitVec.ofNat 64 (8 * r)) = _
  rw [BitVec.add_zero]
  rfl

/-- A slot as an operand. -/
theorem read_slot (w : Bool) (h : slotAt (m.regs 5) r m = some v) :
    m.read (opSizeOf w) (.mem (some 5) none (BitVec.ofNat 64 (8 * r))) = some (cut w v) := by
  have hload := load_of_slotAt h
  cases w with
  | false =>
    have hfour : Sparse.load m.mem (slotAddr (m.regs 5) r) 4 = some (Machine.bytes v 4) := by
      rw [Sparse.load_eq_some_iff] at hload ⊢
      refine ⟨Machine.length_bytes v 4, fun i hi ↦ ?_⟩
      rw [hload.2 i (by omega), Machine.getElem?_bytes v (by omega), Machine.getElem?_bytes v hi]
    show (m.address (.mem (some 5) none (BitVec.ofNat 64 (8 * r)))).bind
      (fun a ↦ (m.load a 4).bind fun bs ↦ some (Machine.value bs)) = _
    rw [address_slot, Option.bind_some, Machine.load_eq, hfour, Option.bind_some,
      Machine.value_bytes_four]
    rfl
  | true =>
    show (m.address (.mem (some 5) none (BitVec.ofNat 64 (8 * r)))).bind
      (fun a ↦ (m.load a 8).bind fun bs ↦ some (Machine.value bs)) = _
    rw [address_slot, Option.bind_some, Machine.load_eq, hload, Option.bind_some,
      Machine.value_bytes]
    rfl

theorem cut_cut (w : Bool) (v : BitVec 64) : cut w (cut w v) = cut w v := by
  cases w
  · apply BitVec.eq_of_toNat_eq
    show (((v.setWidth 32).setWidth 64).setWidth 32 |>.setWidth 64).toNat = _
    rw [cut, if_neg Bool.false_ne_true]
    simp only [BitVec.toNat_setWidth]
    omega
  · rfl

theorem write_reg (w : Bool) (x : Gpr) (v : BitVec 64) (m : Machine) :
    m.write (opSizeOf w) v (.reg x) = some (m.setReg x (cut w v)) := by
  cases w <;> rfl

/-- A load from the home. -/
theorem movAt_load (w : Bool) (x : Gpr) (h : slotAt (m.regs 5) r m = some v) :
    movAt w (.reg x) (.mem (some 5) none (BitVec.ofNat 64 (8 * r))) m =
      some (m.setReg x (cut w v)) := by
  rw [movAt, read_slot w h, Option.bind_some, write_reg, cut_cut]

/-- The memory behind a store to a slot. -/
def storedMem (m : Machine) (home : BitVec 64) (r : ArmReg) (w : Bool) (v : BitVec 64) : Sparse :=
  Sparse.overwrite m.mem (slotAddr home r) (Machine.bytes v (widthBytes w))

/-- A store to the home through `RBP`. -/
theorem movAt_store (w : Bool) (x : Gpr)
    (h : ∀ i < 8, (m.mem (slotAddr (m.regs 5) r + BitVec.ofNat 64 i)).isSome) :
    movAt w (.mem (some 5) none (BitVec.ofNat 64 (8 * r))) (.reg x) m =
      some { m with mem := storedMem m (m.regs 5) r w (cut w (m.regs x)) } := by
  have hstore : ∀ n ≤ 8, m.store (slotAddr (m.regs 5) r) (Machine.bytes (cut w (m.regs x)) n) =
      some { m with
        mem := Sparse.overwrite m.mem (slotAddr (m.regs 5) r)
          (Machine.bytes (cut w (m.regs x)) n) } := by
    intro n hn
    obtain ⟨bs, hbs⟩ := Sparse.exists_load_iff.mpr fun i (hi : i < n) ↦ h i (by omega)
    rw [Machine.store_eq, Sparse.store, Machine.length_bytes, hbs]
    rfl
  rw [movAt, read_reg, Option.bind_some]
  cases w with
  | false =>
    show (m.address (.mem (some 5) none (BitVec.ofNat 64 (8 * r)))).bind
      (fun a ↦ m.store a (Machine.bytes (cut false (m.regs x)) 4)) = _
    rw [address_slot, Option.bind_some, hstore 4 (by decide)]
    rfl
  | true =>
    show (m.address (.mem (some 5) none (BitVec.ofNat 64 (8 * r)))).bind
      (fun a ↦ m.store a (Machine.bytes (cut true (m.regs x)) 8)) = _
    rw [address_slot, Option.bind_some, hstore 8 (by decide)]
    rfl

/-- What a store of a width leaves of an old value. -/
def merge (w : Bool) (old v : BitVec 64) : BitVec 64 :=
  if w then v else old.extractLsb' 32 32 ++ v.extractLsb' 0 32

private theorem getLsbD_merge (old v : BitVec 64) (k : Nat) :
    (merge false old v).getLsbD k =
      if k < 32 then (v.extractLsb' 0 32).getLsbD k else (old.extractLsb' 32 32).getLsbD (k - 32) :=
  BitVec.getLsbD_append

theorem merge_low (w : Bool) (old v : BitVec 64) {i : Nat} (hi : i < widthBytes w) :
    (merge w old v).extractLsb' (8 * i) 8 = v.extractLsb' (8 * i) 8 := by
  cases w with
  | true => rfl
  | false =>
    have hi : i < 4 := hi
    ext j hj
    have hlow : 8 * i + j < 32 := by omega
    rw [BitVec.getElem_extractLsb', BitVec.getElem_extractLsb', getLsbD_merge, if_pos hlow]
    simp [hlow]

theorem merge_high (w : Bool) (old v : BitVec 64) {i : Nat} (hi : widthBytes w ≤ i) (h8 : i < 8) :
    (merge w old v).extractLsb' (8 * i) 8 = old.extractLsb' (8 * i) 8 := by
  cases w with
  | true => exact absurd h8 (Nat.not_lt.mpr hi)
  | false =>
    have hi : 4 ≤ i := hi
    ext j hj
    have hlow : ¬ 8 * i + j < 32 := by omega
    have hhigh : 8 * i + j - 32 < 32 := by omega
    have hsum : 32 + (8 * i + j - 32) = 8 * i + j := by omega
    rw [BitVec.getElem_extractLsb', BitVec.getElem_extractLsb', getLsbD_merge, if_neg hlow]
    simp [hhigh, hsum]

/-- What a store to a slot leaves in the slots. -/
theorem slotAt_storedMem {w : Bool} {old : BitVec 64} (h : m'.mem = storedMem m home r w v)
    (hold : slotAt home r m = some old) (r' : ArmReg) :
    slotAt home r' m' = if r' = r then some (merge w old v) else slotAt home r' m := by
  have hw : widthBytes w ≤ 8 := by cases w <;> decide
  split
  · next he =>
    have hload : Sparse.load m'.mem (slotAddr home r) 8 =
        some (Machine.bytes (merge w old v) 8) := by
      rw [Sparse.load_eq_some_iff]
      refine ⟨Machine.length_bytes _ 8, fun i hi ↦ ?_⟩
      rw [Machine.getElem?_bytes _ hi, h, storedMem]
      by_cases hlow : i < widthBytes w
      · rw [Sparse.overwrite_at (by rwa [Machine.length_bytes]) (by omega),
          Machine.getElem?_bytes v hlow, merge_low w old v hlow]
      · have hout : slotAddr home r + BitVec.ofNat 64 i ∉
            (⟨slotAddr home r, (Machine.bytes v (widthBytes w)).length⟩ : Region) := by
          rw [Region.mem_iff, BitVec.add_comm, BitVec.add_sub_cancel, BitVec.toNat_ofNat,
            Machine.length_bytes]
          dsimp only
          omega
        have hbyte := (Sparse.load_eq_some_iff.mp (load_of_slotAt hold)).2 i hi
        rw [Sparse.overwrite_of_notMem hout, hbyte, Machine.getElem?_bytes _ hi,
          merge_high w old v (Nat.not_lt.mp hlow) hi]
    rw [slotAt_eq, he, hload, Option.map_some, Machine.value_bytes]
  · next hne =>
    apply slotAt_congr
    intro i hi
    rw [h]
    apply Sparse.overwrite_of_notMem
    rw [Machine.length_bytes]
    exact slot_notMem_slot home hne hi hw

/-- What is outside of the home is left alone. -/
theorem storedMem_of_notMem {a : BitVec 64} (h : a ∉ homeRegion home) (w : Bool) :
    storedMem m home r w v a = m.mem a := by
  apply Sparse.overwrite_of_notMem
  intro ha
  apply h
  rw [Region.mem_iff, Machine.length_bytes] at ha
  have hw : widthBytes w ≤ 8 := by cases w <;> decide
  have hoff := slot_mem_home home r (Nat.lt_of_lt_of_le ha hw)
  rw [BitVec.ofNat_toNat, BitVec.setWidth_eq, BitVec.add_comm, BitVec.sub_add_cancel] at hoff
  exact hoff

end Effects

end Arm2x86.Translate
