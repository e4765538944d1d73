import Arm2x86.X86.Machine
import Arm2x86.X86.RoundTrip
import Mathlib.Data.BitVec

/-!
# Memory operands, read back

`emit_modrm_disp` and `emit_modrm_sib_disp` (`modules/arm2x86_emit.c:62`) behind the prefixes of their
callers. The first has no `sib` byte for the bases whose number ends in 4, and both take a zero
displacement of `R13` for one that needs no bytes.
-/

namespace Arm2x86.X86

/-- Operand bytes behind some prefixes that stand for an address, whatever follows them. -/
def Addresses (p : Prefixes) (bytes : List Byte) (a : Machine → BitVec 64) : Prop :=
  ∀ rest size, ∃ loc, takeRm p size (bytes ++ rest) = some (loc, rest) ∧
    ∀ m, m.address loc = some (a m)

/-- `base + disp`. -/
def baseDisp (base : Byte) (disp : BitVec 32) (m : Machine) : BitVec 64 :=
  m.regs (toGpr base) + disp.signExtend 64

/-- `base + index * 2^scale + disp`. -/
def baseIndexDisp (base index scale : Byte) (disp : BitVec 32) (m : Machine) : BitVec 64 :=
  m.regs (toGpr base) + m.regs (toGpr index) * BitVec.ofNat 64 (2 ^ scale.toNat) +
    disp.signExtend 64

section Prefix

/-- How the callers of `emit_modrm_disp` build the prefixes in front of it. -/
inductive DispCaller where
  /-- the 64-bit loads and stores, of A64 and of Thumb-2 -/
  | access
  /-- the loads and stores of bytes and halfwords, with a constant for the register -/
  | narrow
  /-- the store of halfwords, whose operand-size prefix stands behind the other one -/
  | halfStore
  /-- `translate_prfm` -/
  | prefetch
  /-- `emit_lock_cmpxchg_mem` -/
  | lockCmpxchg
  /-- `emit_lock_xadd_mem` -/
  | lockXadd
deriving DecidableEq, Repr

/-- The prefix bytes of a caller. -/
def DispCaller.bytes (c : DispCaller) (reg base : Byte) : List Byte :=
  match c with
  | .access => [rexR reg base]
  | .narrow => [rexR 0 base]
  | .halfStore => [rexR 0 base, 0x66]
  | .prefetch => [rex true 0 0 (reg >>> 3)]
  | .lockCmpxchg => [0xf0, rexR 0 reg]
  | .lockXadd => [0xf0, rexR reg 0]

/-- The prefixes of a caller. -/
def DispCaller.prefixes (c : DispCaller) (reg base : Byte) : Prefixes :=
  (takePrefixes .none (c.bytes reg base)).1

/-- The two helpers with a lock are their prefixes, a two-byte opcode and the operand. -/
theorem emitLockMem_eq (reg base : Byte) (disp : BitVec 32) :
    emitLockCmpxchgMem reg base disp =
        DispCaller.lockCmpxchg.bytes reg base ++
          0x0f :: 0xb1 :: emitModrmDisp (reg &&& 7) base disp ∧
      emitLockXaddMem reg base disp =
        DispCaller.lockXadd.bytes reg base ++
          0x0f :: 0xc1 :: emitModrmDisp (reg &&& 7) base disp :=
  ⟨rfl, rfl⟩

/-- In front of an opcode a caller's prefixes are taken as a whole. -/
theorem DispCaller.takePrefixes_bytes (c : DispCaller) (reg base : Byte) {op : Byte}
    (hop : isOpcode op) (bs : List Byte) :
    takePrefixes .none (c.bytes reg base ++ op :: bs) = (c.prefixes reg base, op :: bs) := by
  have hlock : ∀ bs, takePrefixes .none (0xf0 :: bs) = takePrefixes .none bs := fun _ ↦ rfl
  have hsize : ∀ p bs, takePrefixes p (0x66 :: bs) =
      takePrefixes { p with opsize := true, rex := none } bs := fun _ _ ↦ rfl
  cases c <;> simp only [DispCaller.prefixes, DispCaller.bytes, List.cons_append, List.nil_append,
    hlock, hsize, takePrefixes_rex _ (rex_row _ _ _ _), rexR, takePrefixes_opcode hop] <;> rfl

/-- Whether the base bit of a caller is that of the base. -/
def DispCaller.ExtendsBase (c : DispCaller) (reg base : Byte) : Prop :=
  match c with
  | .access | .narrow => True
  | .halfStore | .lockXadd => base < 8
  | .prefetch | .lockCmpxchg => 8 ≤ reg ↔ 8 ≤ base

/-- The prefixes of the 64-bit form with the bits of a register, an index and a base. -/
def sibPrefixes (reg index base : Byte) : Prefixes :=
  (takePrefixes .none [rex true (reg >>> 3) (index >>> 3) (base >>> 3)]).1

private theorem prefixes_b_low (c : DispCaller) : ∀ reg base : BitVec 4,
    (c.prefixes (reg.setWidth 8) (base.setWidth 8)).b = (base.setWidth 8 : Byte).getLsbD 3 ↔
      c.ExtendsBase (reg.setWidth 8) (base.setWidth 8) := by
  cases c <;> (simp only [DispCaller.ExtendsBase]; decide)

theorem DispCaller.prefixes_b (c : DispCaller) {reg base : Byte} (hreg : reg < 16)
    (hbase : base < 16) :
    (c.prefixes reg base).b = base.getLsbD 3 ↔ c.ExtendsBase reg base := by
  rw [eq_setWidth_of_lt hreg, eq_setWidth_of_lt hbase]
  exact prefixes_b_low c _ _

private theorem sibPrefixes_low : ∀ reg index base : BitVec 1,
    let p := (takePrefixes .none
      [rex true (reg.setWidth 8) (index.setWidth 8) (base.setWidth 8)]).1
    p.x = index.getLsbD 0 ∧ p.b = base.getLsbD 0 := by
  decide

theorem sibPrefixes_bits {reg index base : Byte} (hreg : reg < 16) (hindex : index < 16)
    (hbase : base < 16) :
    (sibPrefixes reg index base).x = index.getLsbD 3 ∧
      (sibPrefixes reg index base).b = base.getLsbD 3 := by
  have key : ∀ x : Byte, x < 16 → ∃ c : BitVec 1, x >>> 3 = c.setWidth 8 ∧
      c.getLsbD 0 = x.getLsbD 3 := by
    decide
  obtain ⟨c, hc, -⟩ := key reg hreg
  obtain ⟨d, hd, hdbit⟩ := key index hindex
  obtain ⟨e, he, hebit⟩ := key base hbase
  rw [sibPrefixes, hc, hd, he, ← hdbit, ← hebit]
  exact sibPrefixes_low c d e

end Prefix

section Base

variable {p : Prefixes} {size : Size} {reg base : Byte} {disp : BitVec 32}

private theorem low_eq_four : ∀ x : Byte, x.setWidth 3 = 4#3 ↔ x &&& 7 = 4 := by decide

private theorem low_eq_five : ∀ x : Byte, x < 16 → x.setWidth 3 = 5#3 → x ≠ rbp → x = 13 := by
  decide

/-- A base without a `sib` byte and with the displacement it needs. -/
theorem takeRm_baseDisp (p : Prefixes) (size : Size) (reg : Byte) (hbase : base < 16)
    (hsib : base &&& 7 ≠ 4) (hdisp : base = 13 → disp ≠ 0) (rest : List Byte) :
    takeRm p size (emitModrmDisp reg base disp ++ rest) =
      some (.mem (some (gpr p.b (base.setWidth 3))) none (disp.signExtend 64), rest) := by
  have hrm : base.setWidth 3 ≠ 4#3 := (low_eq_four base).not.mpr hsib
  unfold emitModrmDisp
  split
  · next h =>
    rw [Bool.and_eq_true, beq_iff_eq, bne_iff_ne] at h
    have hrip : base.setWidth 3 ≠ 5#3 :=
      fun h5 ↦ hdisp (low_eq_five base hbase h5 h.2) h.1
    simp [takeRm, takeDisp, and_seven_field, hrm, hrip, h.1]
  · split
    · next h =>
      rw [Bool.and_eq_true] at h
      simp [takeRm, takeDisp, take8, and_seven_field, hrm, signExtend_low8 h.1 h.2]
    · have htake : takeDisp 2#2 (imm32 disp ++ rest) = some (disp.signExtend 64, rest) :=
        take32_imm32 disp rest
      simp [takeRm, and_seven_field, hrm, htake]

/-- The other operands take bytes from behind them. -/
theorem takeRm_baseDisp_short (p : Prefixes) (size : Size) (reg : Byte)
    (h : base &&& 7 = 4 ∨ base = 13 ∧ disp = 0) :
    takeRm p size (emitModrmDisp reg base disp) = none := by
  rcases h with hsib | ⟨rfl, rfl⟩
  · have hrm : base.setWidth 3 = 4#3 := (low_eq_four base).mpr hsib
    unfold emitModrmDisp
    split
    · simp [takeRm, takeSib, and_seven_field, hrm]
    · split
      · simp [takeRm, takeSib, takeDisp, take8, and_seven_field, hrm]
      · simp [takeRm, takeSib, takeDisp, take32, imm32, and_seven_field, hrm]
  · simp [emitModrmDisp, rbp, takeRm, take32]

/-- A state in which one register is told from the others. -/
private def single (r : Gpr) : Machine where
  regs g := if g = r then 1 else 0
  flags := 0
  vectors _ := 0
  mem _ := none
  codeBase := 0
  pos := 0

private theorem single_injective {r r' : Gpr} (h : (single r).regs r' = (single r).regs r) :
    r' = r := by
  by_contra hne
  simp only [single, if_neg hne, if_true] at h
  exact absurd h (by decide)

private theorem gpr_eq_iff (ext : Bool) (x : Byte) :
    gpr ext (x.setWidth 3) = toGpr x ↔ ext = x.getLsbD 3 := by
  have key : ∀ (ext : Bool) (x : Byte), gpr ext (x.setWidth 3) = toGpr x ↔ ext = x.getLsbD 3 := by
    decide
  exact key ext x

theorem address_base (m : Machine) (g : Gpr) (d : BitVec 64) :
    m.address (.mem (some g) none d) = some (m.regs g + d) := by
  show some (m.regs g + 0#64 + d) = _
  rw [BitVec.add_zero]

theorem addresses_baseDisp_iff (hbase : base < 16) :
    Addresses p (emitModrmDisp reg base disp) (baseDisp base disp) ↔
      p.b = base.getLsbD 3 ∧ base &&& 7 ≠ 4 ∧ (base = 13 → disp ≠ 0) := by
  constructor
  · intro h
    have hplain : ¬ (base &&& 7 = 4 ∨ base = 13 ∧ disp = 0) := by
      intro hshort
      obtain ⟨loc, htake, -⟩ := h [] .b64
      rw [List.append_nil, takeRm_baseDisp_short p .b64 reg hshort] at htake
      cases htake
    rw [not_or, not_and] at hplain
    refine ⟨?_, hplain⟩
    obtain ⟨loc, htake, haddress⟩ := h [] .b64
    rw [takeRm_baseDisp p .b64 reg hbase hplain.1 hplain.2] at htake
    obtain ⟨rfl, -⟩ := Prod.mk.inj (Option.some.inj htake)
    have hsum := haddress (single (toGpr base))
    rw [address_base, Option.some_inj, baseDisp, add_left_inj] at hsum
    exact (gpr_eq_iff p.b base).mp (single_injective hsum)
  · rintro ⟨hbit, hsib, hdisp⟩ rest size
    refine ⟨_, takeRm_baseDisp p size reg hbase hsib hdisp rest, fun m ↦ ?_⟩
    rw [address_base, (gpr_eq_iff p.b base).mpr hbit, baseDisp]

end Base

section Index

variable {p : Prefixes} {size : Size} {reg base index scale : Byte} {disp : BitVec 32}

private theorem sib_fields (scale index base : Byte) :
    (sib scale index base).extractLsb' 6 2 = scale.setWidth 2 ∧
      (sib scale index base).extractLsb' 3 3 = index.setWidth 3 ∧
      (sib scale index base).extractLsb' 0 3 = base.setWidth 3 := modrm_fields scale index base

/-- The operand behind a `sib` byte with an index. -/
private theorem takeSib_index {mod : BitVec 2} (hx : gpr p.x (index.setWidth 3) ≠ 4)
    (h : ¬ (base.setWidth 3 = 5#3 ∧ mod = 0)) {bs rest : List Byte} {d : BitVec 64}
    (hdisp : takeDisp mod bs = some (d, rest)) :
    takeSib p mod (sib scale index base :: bs) =
      some (.mem (some (gpr p.b (base.setWidth 3)))
        (some (gpr p.x (index.setWidth 3), scale.setWidth 2)) d, rest) := by
  obtain ⟨hscale, hindex, hbase⟩ := sib_fields scale index base
  have hne : (gpr p.x (index.setWidth 3) == 4) = false := beq_eq_false_iff_ne.mpr hx
  have hform : (base.setWidth 3 == 5 && mod == 0) = false := by
    rw [Bool.and_eq_false_iff, beq_eq_false_iff_ne, beq_eq_false_iff_ne]
    exact Decidable.not_and_iff_or_not.mp h
  rw [takeSib]
  simp only [hscale, hindex, hbase, hne, hform, hdisp]
  rfl

private theorem takeRm_sib (p : Prefixes) (size : Size) {mod : Byte} (hmod : mod.setWidth 2 ≠ 3#2)
    (reg : Byte) (bs : List Byte) :
    takeRm p size (modrm mod reg 4 :: bs) = takeSib p (mod.setWidth 2) bs := by
  have hfour : BitVec.setWidth 3 (4 : Byte) = 4#3 := rfl
  rw [takeRm]
  simp only [modrm_mod, modrm_rm, hfour, beq_iff_eq]
  exact (if_neg hmod).trans (if_pos rfl)

/-- A scaled index with any base, but for a base of `R13` with a displacement of zero. -/
theorem takeRm_baseIndexDisp (p : Prefixes) (size : Size) (reg scale : Byte) (hbase : base < 16)
    (hindex : gpr p.x (index.setWidth 3) ≠ 4) (hdisp : base = 13 → disp ≠ 0) (rest : List Byte) :
    takeRm p size (emitModrmSibDisp reg base index scale disp ++ rest) =
      some (.mem (some (gpr p.b (base.setWidth 3)))
        (some (gpr p.x (index.setWidth 3), scale.setWidth 2)) (disp.signExtend 64), rest) := by
  unfold emitModrmSibDisp
  split
  · next h =>
    rw [Bool.and_eq_true, Bool.and_eq_true, beq_iff_eq, bne_iff_ne] at h
    have hform : ¬ (base.setWidth 3 = 5#3 ∧ BitVec.setWidth 2 (0 : Byte) = 0) := by
      rintro ⟨h5, -⟩
      exact hdisp (low_eq_five base hbase h5 h.1.2) h.1.1
    have htake : takeDisp (BitVec.setWidth 2 (0 : Byte)) rest = some (disp.signExtend 64, rest) := by
      rw [h.1.1]
      rfl
    rw [List.cons_append, List.cons_append, List.nil_append, takeRm_sib p size (by decide),
      takeSib_index hindex hform htake]
  · split
    · next h =>
      rw [Bool.and_eq_true] at h
      have hform : ¬ (base.setWidth 3 = 5#3 ∧ BitVec.setWidth 2 (1 : Byte) = 0) :=
        fun hc ↦ absurd hc.2 (by decide)
      have htake : takeDisp (BitVec.setWidth 2 (1 : Byte)) (disp.extractLsb' 0 8 :: rest) =
          some (disp.signExtend 64, rest) := by
        rw [← signExtend_low8 h.1 h.2]
        rfl
      rw [List.cons_append, List.cons_append, List.cons_append, List.nil_append,
        takeRm_sib p size (by decide), takeSib_index hindex hform htake]
    · have hform : ¬ (base.setWidth 3 = 5#3 ∧ BitVec.setWidth 2 (2 : Byte) = 0) :=
        fun hc ↦ absurd hc.2 (by decide)
      have htake : takeDisp (BitVec.setWidth 2 (2 : Byte)) (imm32 disp ++ rest) =
          some (disp.signExtend 64, rest) := take32_imm32 disp rest
      rw [List.cons_append, List.cons_append, takeRm_sib p size (by decide),
        takeSib_index hindex hform htake]

private theorem shiftLeft_scale (v : BitVec 64) {scale : Byte} (h : scale < 4) :
    v <<< (scale.setWidth 2).toNat = v * BitVec.ofNat 64 (2 ^ scale.toNat) := by
  have hlow : (scale.setWidth 2).toNat = scale.toNat := by
    have key : ∀ s : Byte, s < 4 → (s.setWidth 2).toNat = s.toNat := by decide
    exact key scale h
  apply BitVec.eq_of_toNat_eq
  rw [hlow, BitVec.toNat_shiftLeft, BitVec.toNat_mul, BitVec.toNat_ofNat, Nat.shiftLeft_eq,
    Nat.mul_mod_mod]

theorem addresses_baseIndexDisp_iff (hbase : base < 16) (hindex : index ≠ rsp) (hindex16 : index < 16)
    (hscale : scale < 4) (hx : p.x = index.getLsbD 3) (hb : p.b = base.getLsbD 3) :
    Addresses p (emitModrmSibDisp reg base index scale disp) (baseIndexDisp base index scale disp) ↔
      (base = 13 → disp ≠ 0) := by
  have hgpr : gpr p.x (index.setWidth 3) = toGpr index := (gpr_eq_iff p.x index).mpr hx
  have hne : gpr p.x (index.setWidth 3) ≠ 4 := by
    rw [hgpr]
    have key : ∀ x : Byte, x < 16 → x ≠ rsp → toGpr x ≠ 4 := by decide
    exact key index hindex16 hindex
  constructor
  · intro h hr13 hzero
    obtain ⟨loc, htake, -⟩ := h [] .b64
    have hnone : takeSib p 0 [sib scale index 13] = none := by
      rw [takeSib]
      simp only [(sib_fields scale index 13).2.2]
      rfl
    have hbytes : emitModrmSibDisp reg 13 index scale 0 ++ [] =
        [modrm 0 reg 4, sib scale index 13] := by
      rw [List.append_nil, emitModrmSibDisp, if_pos (by decide)]
    have hmod : BitVec.setWidth 2 (0 : Byte) = 0 := rfl
    rw [hr13, hzero, hbytes, takeRm_sib p .b64 (by decide), hmod, hnone] at htake
    cases htake
  · intro hdisp rest size
    refine ⟨_, takeRm_baseIndexDisp p size reg scale hbase hne hdisp rest, fun m ↦ ?_⟩
    rw [hgpr, (gpr_eq_iff p.b base).mpr hb, baseIndexDisp, ← shiftLeft_scale _ hscale]
    rfl

end Index

/-- The operand is the base and the displacement for the callers that extend the base, unless the
base needs a `sib` byte or is `R13` without a displacement; with an index only the latter is wrong. -/
theorem memoryOperands_iff {reg base : Byte} (hreg : reg < 16) (hbase : base < 16)
    (disp : BitVec 32) :
    (∀ c : DispCaller,
      Addresses (c.prefixes reg base) (emitModrmDisp (reg &&& 7) base disp) (baseDisp base disp) ↔
        c.ExtendsBase reg base ∧ base &&& 7 ≠ 4 ∧ (base = 13 → disp ≠ 0)) ∧
      ∀ index scale, index < 16 → index ≠ rsp → scale < 4 →
        (Addresses (sibPrefixes reg index base) (emitModrmSibDisp reg base index scale disp)
            (baseIndexDisp base index scale disp) ↔
          (base = 13 → disp ≠ 0)) := by
  constructor
  · intro c
    rw [addresses_baseDisp_iff hbase, c.prefixes_b hreg hbase]
  · intro index scale hindex hrsp hscale
    obtain ⟨hx, hb⟩ := sibPrefixes_bits hreg hindex hbase
    exact addresses_baseIndexDisp_iff hbase hrsp hindex hscale hx hb

/-- `[R8 + 16]` is an operand of the Thumb-2 loads, and not of the locked exchange with `RAX`. -/
theorem memoryOperands_r8 :
    Addresses (DispCaller.access.prefixes rax r8) (emitModrmDisp (rax &&& 7) r8 16)
        (baseDisp r8 16) ∧
      ¬ Addresses (DispCaller.lockCmpxchg.prefixes rax r8) (emitModrmDisp (rax &&& 7) r8 16)
        (baseDisp r8 16) :=
  ⟨((memoryOperands_iff (by decide) (by decide) 16).1 .access).mpr
      ⟨trivial, by decide, by decide⟩,
    ((memoryOperands_iff (by decide) (by decide) 16).1 .lockCmpxchg).not.mpr
      fun h ↦ absurd (h.1.mpr (by decide)) (by decide)⟩

/-- Behind the base `RSP` stands no `sib` byte, so the displacement is taken for one. -/
theorem operand_rsp_missed :
    ¬ Addresses (DispCaller.access.prefixes rax rsp) (emitModrmDisp (rax &&& 7) rsp 8)
      (baseDisp rsp 8) := by
  intro h
  exact ((addresses_baseDisp_iff (by decide)).mp h).2.1 rfl

end Arm2x86.X86
