import Arm2x86.A64.LoadStore
import Arm2x86.Translate.DecodeMasks

/-!
# Decoded loads and stores

What `decode_loadstore` makes of the loads and stores of A64. Most classes are left unknown. Of the
single accesses the decoder sees neither the register file nor the narrow sizes nor the sign
extension, it takes a direction bit from the middle of the offset of a literal, and of the pairs it
knows only the stores with write-back, both sizes as the small one.
-/

namespace Arm2x86.Translate

open A64 (LoadStore MemOp)

/-- The operation that the kind and the width of a decoded instruction name. -/
def namedAccess (d : DecodedInstruction) : Option MemOp :=
  let bytes := if d.is64bit then 8 else 4
  match d.instrType with
  | .ldr => some (.general true bytes)
  | .str => some (.general false bytes)
  | .ldrh => some (.general true 2)
  | .strh => some (.general false 2)
  | .ldrb => some (.general true 1)
  | .strb => some (.general false 1)
  | .ldrsb => some (.signed 1 d.is64bit)
  | .ldrsh => some (.signed 2 d.is64bit)
  | .ldrsw => some (.signed 4 true)
  | .ldrLiteral => some (.literal bytes)
  | .prfm => some .literalPrefetch
  | .ldp => some (.pair true bytes)
  | .stp => some (.pair false bytes)
  | .ldaxr => some (.exclusive true true bytes)
  | .stlxr => some (.exclusive false true bytes)
  | .cas => some (.compareAndSwap bytes)
  | .ldadd => some (.atomic 0 bytes)
  | .ldrSimd => some (.struct true)
  | .strSimd => some (.struct false)
  | _ => none

/-- A decoded instruction is unknown or names an operation with its offset. -/
def Names (d : DecodedInstruction) (o : MemOp) (offset : Option (BitVec 32)) : Prop :=
  d.instrType = .unknown ∨ namedAccess d = some o ∧ ∀ x ∈ offset, d.imm = x

/-- A load or store is decoded to the operation it is or to no operation. -/
def LoadStoreDecoded (op : BitVec 32) (d : DecodedInstruction) : Prop :=
  ∀ k : LoadStore, k.diagram.Matches op → ∀ o ∈ k.operation op, Names d o (k.offset op)

/-- When a load or store of a class is decoded as it should be. -/
def loadStoreExact (k : LoadStore) (op : BitVec 32) : Prop :=
  let size := op.extractLsb' 30 2
  match k with
  | .unscaled => op.getLsbD 26 = false ∧ size = 3
  | .unsignedOffset =>
    op.getLsbD 26 = false ∧ (size = 3 ∨ size = 2 ∧ op.getLsbD 23 = false)
  | .literal => op.getLsbD 26 = false → op.getLsbD 31 = false → op.getLsbD 22 = true
  | .pairPost => ¬ Diagram.Matches ⟨0xffc00000, 0xa8800000⟩ op
  | .pairPre => ¬ Diagram.Matches ⟨0xffc00000, 0xa9800000⟩ op
  | _ => True

variable {op : BitVec 32}

section Group

/-- The words of the load and store group reach `decode_loadstore`. -/
theorem decode_loadStore (h : Diagram.Matches ⟨0x0a000000, 0x08000000⟩ op) :
    decode op = decodeLoadstore op := by
  simp (disch := decide) only [decode, decodeRest, maskEq_conflict h, maskEq_covered h,
    beq_conflict h, Bool.or_false, Bool.true_or, Bool.false_eq_true, if_false, if_true,
    Option.getD_none]

theorem LoadStore.group (k : LoadStore) (h : k.diagram.Matches op) :
    Diagram.Matches ⟨0x0a000000, 0x08000000⟩ op := by
  cases k <;> exact h.covered rfl rfl

end Group

section Names

variable {d : DecodedInstruction} {o : MemOp} {x : Option (BitVec 32)}

theorem names_unknown (h : d.instrType = .unknown) : Names d o x :=
  Or.inl h

/-- What the two kinds of a single access name. -/
theorem names_single {load : Bool} (h : d.instrType = if load then .ldr else .str) :
    Names d o x ↔ some (MemOp.general load (if d.is64bit then 8 else 4)) = some o ∧
      ∀ y ∈ x, d.imm = y := by
  cases load <;> simp [Names, namedAccess, h]

/-- What the two kinds of a literal name. -/
theorem names_literal {load : Bool} (h : d.instrType = if load then .ldrLiteral else .prfm) :
    Names d o x ↔ some (if load then MemOp.literal (if d.is64bit then 8 else 4)
      else .literalPrefetch) = some o ∧ ∀ y ∈ x, d.imm = y := by
  cases load <;> simp [Names, namedAccess, h]

end Names

section Single

/-- The general accesses of eight bytes are the only single ones whose width the top bit tells. -/
private theorem single_of_top : ∀ (size : BitVec 2) (v : Bool) (opc : BitVec 2),
    LoadStore.single size v opc ≠ none →
    (some (MemOp.general (opc.getLsbD 0) (if size.getLsbD 1 then 8 else 4)) =
        LoadStore.single size v opc ↔
      v = false ∧ size = 3) := by
  decide

private theorem single_of_size : ∀ (size : BitVec 2) (v : Bool) (opc : BitVec 2),
    LoadStore.single size v opc ≠ none →
    (some (MemOp.general (opc.getLsbD 0) (if size == 3 then 8 else 4)) =
        LoadStore.single size v opc ↔
      v = false ∧ (size = 3 ∨ size = 2 ∧ opc.getLsbD 1 = false)) := by
  decide

/-- The kind and the offset of a single access. -/
theorem decode_single {k : LoadStore} (hk : k = .unscaled ∨ k = .unsignedOffset)
    (h : k.diagram.Matches op) :
    (decode op).instrType = (if op.getLsbD 22 then .ldr else .str) ∧
      (op.getLsbD 26 = false → k.offset op = some (decode op).imm) := by
  rw [decode_loadStore (LoadStore.group _ h)]
  rcases hk with rfl | rfl
  · simp (disch := decide) only [decodeLoadstore, maskEq_covered h, if_true, signExtend64_field]
    exact ⟨trivial, fun _ ↦ rfl⟩
  · simp (disch := decide) only [decodeLoadstore, maskEq_conflict h, maskEq_covered h,
      Bool.false_eq_true, if_false, if_true]
    refine ⟨trivial, fun hgeneral ↦ ?_⟩
    simp only [LoadStore.offset, LoadStore.scale, hgeneral, Bool.false_eq_true, false_and, if_false]

theorem unscaled_iff {o : MemOp} (h : LoadStore.unscaled.diagram.Matches op)
    (ho : LoadStore.unscaled.operation op = some o) :
    Names (decode op) o (LoadStore.unscaled.offset op) ↔ loadStoreExact .unscaled op := by
  have htop : op.getLsbD 31 = (op.extractLsb' 30 2).getLsbD 1 := bit_of_field 30 2 1 (by decide)
  have hload : op.getLsbD 22 = (op.extractLsb' 22 2).getLsbD 0 := bit_of_field 22 2 0 (by decide)
  rw [decode_loadStore (LoadStore.group _ h)]
  simp (disch := decide) only [decodeLoadstore, maskEq_covered h, if_true, signExtend64_field]
  simp only [LoadStore.operation] at ho
  have hoffset : ∀ y ∈ LoadStore.unscaled.offset op,
      (op.extractLsb' 12 9).signExtend 32 = y := by
    intro y hy
    exact Option.some.inj hy
  rw [names_single rfl, and_iff_left hoffset, ← ho, htop, hload]
  exact single_of_top _ _ _ (by rw [ho]; exact Option.some_ne_none o)

theorem unsignedOffset_iff {o : MemOp} (h : LoadStore.unsignedOffset.diagram.Matches op)
    (ho : LoadStore.unsignedOffset.operation op = some o) :
    Names (decode op) o (LoadStore.unsignedOffset.offset op) ↔
      loadStoreExact .unsignedOffset op := by
  have hhigh : op.getLsbD 23 = (op.extractLsb' 22 2).getLsbD 1 := bit_of_field 22 2 1 (by decide)
  have hload : op.getLsbD 22 = (op.extractLsb' 22 2).getLsbD 0 := bit_of_field 22 2 0 (by decide)
  simp only [LoadStore.operation] at ho
  have hsome : LoadStore.single (op.extractLsb' 30 2) (op.getLsbD 26) (op.extractLsb' 22 2) ≠
      none := by
    rw [ho]
    exact Option.some_ne_none o
  have hkey := single_of_size _ _ _ hsome
  rw [ho] at hkey
  rw [decode_loadStore (LoadStore.group _ h)]
  simp (disch := decide) only [decodeLoadstore, maskEq_conflict h, maskEq_covered h,
    Bool.false_eq_true, if_false, if_true]
  simp only [loadStoreExact, hhigh]
  rw [← hkey]
  rw [names_single rfl]
  constructor
  · intro hnames
    rw [← hload]
    exact hnames.1
  · intro hop
    refine ⟨by rw [hload]; exact hop, ?_⟩
    -- the scale is the size but for the vector registers
    have hgeneral : op.getLsbD 26 = false := (hkey.mp hop).1
    intro y hy
    simp only [LoadStore.offset, LoadStore.scale, hgeneral, Bool.false_eq_true, false_and,
      if_false] at hy
    exact Option.some.inj hy

end Single

section Literal

private theorem literal_table : ∀ (opc : BitVec 2) (load : Bool),
    opc.getLsbD 1 = false →
    (some (if load then MemOp.literal (if opc.getLsbD 0 then 8 else 4) else .literalPrefetch) =
      LoadStore.literalOf opc false ↔ load = true) := by
  decide

theorem literal_iff {o : MemOp} (h : LoadStore.literal.diagram.Matches op)
    (ho : LoadStore.literal.operation op = some o) :
    Names (decode op) o (LoadStore.literal.offset op) ↔ loadStoreExact .literal op := by
  rw [decode_loadStore (LoadStore.group _ h)]
  by_cases hmask : maskEq op 0xbf000000 0x18000000 = true
  · -- a general register, of four or eight bytes
    have hclass := maskEq_iff.mp hmask
    have htop : (op.extractLsb' 30 2).getLsbD 1 = false :=
      (bit_of_field 30 2 1 (by decide)).symm.trans (hclass.bit_false (by decide) (by decide))
    have hwidth : op.getLsbD 30 = (op.extractLsb' 30 2).getLsbD 0 :=
      bit_of_field 30 2 0 (by decide)
    have hgeneral : op.getLsbD 26 = false := hclass.bit_false (by decide) (by decide)
    have hoffset : ∀ y ∈ LoadStore.literal.offset op,
        (op.extractLsb' 5 19 ++ 0#2).signExtend 32 = y := by
      intro y hy
      exact Option.some.inj hy
    simp (disch := decide) only [decodeLoadstore, maskEq_conflict h, hmask,
      Bool.false_eq_true, if_false, if_true, signExtend64_scaled]
    simp only [LoadStore.operation, hgeneral] at ho
    rw [names_literal rfl, and_iff_left hoffset, ← ho, hwidth, literal_table _ _ htop]
    simp only [loadStoreExact, hgeneral, forall_const, hclass.bit_false (i := 31) rfl rfl]
  · -- the tests leave the other literals unknown
    have hexact : loadStoreExact .literal op := by
      intro hv htop
      have hbits : Diagram.Matches ⟨0xbf000000, 0x18000000⟩ op :=
        ((h.bit 26 false hv).bit 31 false htop).covered rfl rfl
      exact absurd (maskEq_iff.mpr hbits) hmask
    rw [iff_true_right hexact]
    apply names_unknown
    simp (disch := decide) only [decodeLoadstore, maskEq_conflict h, hmask, Bool.or_false,
      Bool.false_eq_true, if_false]

end Literal

section Pairs

private theorem pair_table : ∀ opc : BitVec 2, opc.getLsbD 0 = false →
    (opc == 3) = false ∧
      (some (MemOp.pair false 4) = LoadStore.pairOf opc false false ↔ opc.getLsbD 1 = false) ∧
      (opc.getLsbD 1 = false → LoadStore.pairScale opc false = 2) := by
  decide

/-- A pair store that passes the last test has the small size, whatever its size is. -/
private theorem names_pairStore {d : DecodedInstruction} {o : MemOp}
    (htype : d.instrType = .stp) (h64 : d.is64bit = (op.extractLsb' 30 2 == 3))
    (himm : d.imm = signExtend64 (fieldAt op 15 7) 7 <<<
      (if op.extractLsb' 30 2 == 3 then 3 else 2 : Nat))
    (hlow : op.getLsbD 30 = false)
    (ho : LoadStore.pairOf (op.extractLsb' 30 2) false false = some o) :
    Names d o (some ((op.extractLsb' 15 7).signExtend 32 <<<
        LoadStore.pairScale (op.extractLsb' 30 2) false)) ↔ op.getLsbD 31 = false := by
  have hfield : (op.extractLsb' 30 2).getLsbD 0 = false :=
    (bit_of_field 30 2 0 (by decide)).symm.trans hlow
  have htop : op.getLsbD 31 = (op.extractLsb' 30 2).getLsbD 1 := bit_of_field 30 2 1 (by decide)
  obtain ⟨h3, hop, hscale⟩ := pair_table _ hfield
  have hnames : ∀ x, Names d o x ↔ some (MemOp.pair false 4) = some o ∧ ∀ y ∈ x, d.imm = y := by
    intro x
    have h32 : d.is64bit = false := h64.trans h3
    simp [Names, namedAccess, htype, h32]
  rw [hnames, ← ho, hop, ← htop, and_iff_left_iff_imp]
  intro hsmall y hy
  rw [himm, h3, ← Option.some.inj hy, hscale (htop ▸ hsmall), signExtend64_field _ (by decide)
    (by decide)]
  rfl

/-- The pairs that pass the last test are stores of the small size. -/
theorem decode_pair {c : BitVec 32} (hc : c = 0x28800000 ∨ c = 0x29800000)
    (h : Diagram.Matches ⟨0x7fc00000, c⟩ op) :
    (decode op).instrType = .stp ∧ (decode op).is64bit = false ∧
      (decode op).imm = (op.extractLsb' 15 7).signExtend 32 <<< 2 := by
  have hgroup : Diagram.Matches ⟨0x0a000000, 0x08000000⟩ op := by
    rcases hc with rfl | rfl <;> exact h.covered rfl rfl
  have hstore : op.getLsbD 22 = false := by
    rcases hc with rfl | rfl <;> exact h.bit_false rfl rfl
  have hlow : (op.extractLsb' 30 2).getLsbD 0 = false := by
    rw [← bit_of_field 30 2 0 (by decide)]
    rcases hc with rfl | rfl <;> exact h.bit_false rfl rfl
  have hsize : (op.extractLsb' 30 2 == 3) = false := (pair_table _ hlow).1
  rw [decode_loadStore hgroup]
  rcases hc with rfl | rfl <;>
    simp (disch := decide) only [decodeLoadstore, maskEq_conflict h, maskEq_covered h, hstore,
      hsize, signExtend64_field, Bool.or_true, Bool.true_or, Bool.false_eq_true, if_false, if_true,
      and_self]

/-- Of the pairs with write-back, only the stores of eight bytes come out wrong. -/
private theorem names_pair {c : BitVec 32} {o : MemOp} (hc : c = 0x28800000 ∨ c = 0x29800000)
    (h : Diagram.Matches ⟨0x3b800000, c⟩ op)
    (ho : LoadStore.pairOf (op.extractLsb' 30 2) (op.getLsbD 26) (op.getLsbD 22) = some o) :
    Names (decodeLoadstore op) o (some ((op.extractLsb' 15 7).signExtend 32 <<<
        LoadStore.pairScale (op.extractLsb' 30 2) (op.getLsbD 26))) ↔
      ¬ Diagram.Matches ⟨0xffc00000, c ||| 0x80000000⟩ op := by
  by_cases hmask : maskEq op 0x7fc00000 c = true
  · have hclass := maskEq_iff.mp hmask
    have hgeneral : op.getLsbD 26 = false := by
      rcases hc with rfl | rfl <;> exact hclass.bit_false rfl rfl
    have hstore : op.getLsbD 22 = false := by
      rcases hc with rfl | rfl <;> exact hclass.bit_false rfl rfl
    have hlow : op.getLsbD 30 = false := by
      rcases hc with rfl | rfl <;> exact hclass.bit_false rfl rfl
    have hexact : ¬ Diagram.Matches ⟨0xffc00000, c ||| 0x80000000⟩ op ↔
        op.getLsbD 31 = false := by
      constructor
      · intro hne
        by_contra htop
        have hbit := hclass.bit 31 true (eq_true_of_ne_false htop)
        apply hne
        rcases hc with rfl | rfl <;> exact hbit.covered rfl rfl
      · intro htop hx
        have hbit : op.getLsbD 31 = true := by
          rcases hc with rfl | rfl <;> exact hx.bit_true rfl rfl
        rw [htop] at hbit
        cases hbit
    rw [hgeneral, hstore] at ho
    rw [hgeneral, hexact]
    refine names_pairStore ?_ ?_ ?_ hlow ho
    all_goals
      rcases hc with rfl | rfl <;>
        simp (disch := decide) only [decodeLoadstore, maskEq_conflict h, hmask, hstore,
          Bool.or_false, Bool.false_or, Bool.false_eq_true, if_false, if_true]
  · rw [iff_true_right]
    · apply names_unknown
      rcases hc with rfl | rfl <;>
        simp (disch := decide) only [decodeLoadstore, maskEq_conflict h, hmask, Bool.or_false,
          Bool.false_eq_true, if_false]
    · intro hx
      apply hmask
      rw [maskEq_iff]
      rcases hc with rfl | rfl <;> exact hx.covered rfl rfl

end Pairs

section Others

/-- The accesses that no test of the decoder is for. -/
theorem unknown_of_class {k : LoadStore} (h : k.diagram.Matches op)
    (hk : k ≠ .unscaled ∧ k ≠ .unsignedOffset ∧ k ≠ .literal ∧ k ≠ .pairPost ∧ k ≠ .pairPre) :
    (decodeLoadstore op).instrType = .unknown := by
  obtain ⟨h1, h2, h3, h4, h5⟩ := hk
  cases k <;> first
    | contradiction
    | simp (disch := decide) only [decodeLoadstore, maskEq_conflict h, Bool.or_false,
        Bool.false_eq_true, if_false]

/-- The words that are decoded as single or paired accesses. -/
theorem decode_access (h : Diagram.Matches ⟨0x0a000000, 0x08000000⟩ op)
    (htype : (decode op).instrType ≠ .unknown ∧ (decode op).instrType ≠ .ldrLiteral ∧
      (decode op).instrType ≠ .prfm) :
    LoadStore.unscaled.diagram.Matches op ∨ LoadStore.unsignedOffset.diagram.Matches op ∨
      ∃ c, (c = 0x28800000 ∨ c = 0x29800000) ∧ Diagram.Matches ⟨0x7fc00000, c⟩ op := by
  rw [decode_loadStore h] at htype
  by_contra hnone
  rw [not_or, not_or, not_exists] at hnone
  have hpost := mt maskEq_iff.mp fun hm ↦ hnone.2.2 0x28800000 ⟨Or.inl rfl, hm⟩
  have hpre := mt maskEq_iff.mp fun hm ↦ hnone.2.2 0x29800000 ⟨Or.inr rfl, hm⟩
  have hunscaled := mt maskEq_iff.mp hnone.1
  have hunsigned := mt maskEq_iff.mp hnone.2.1
  rw [Bool.not_eq_true] at hpost hpre hunscaled hunsigned
  revert htype
  simp only [decodeLoadstore, hpost, hpre, hunscaled, hunsigned, Bool.or_false, Bool.false_eq_true,
    if_false]
  rintro ⟨hunknown, hliteral, hprfm⟩
  split at hunknown
  · next hmask =>
    simp only [hmask, if_true] at hliteral hprfm
    cases hload : op.getLsbD 22 <;> rw [hload] at hliteral hprfm
    · exact hprfm rfl
    · exact hliteral rfl
  · exact hunknown rfl

/-- The words of a class that are decoded as they should be. -/
theorem names_iff {k : LoadStore} {o : MemOp} (h : k.diagram.Matches op)
    (ho : k.operation op = some o) :
    Names (decode op) o (k.offset op) ↔ loadStoreExact k op := by
  have hdecode := decode_loadStore (LoadStore.group k h)
  cases k with
  | unscaled => exact unscaled_iff h ho
  | unsignedOffset => exact unsignedOffset_iff h ho
  | literal => exact literal_iff h ho
  | pairPost =>
    rw [hdecode]
    exact names_pair (Or.inl rfl) h ho
  | pairPre =>
    rw [hdecode]
    exact names_pair (Or.inr rfl) h ho
  | _ =>
    rw [hdecode]
    exact iff_of_true (names_unknown (unknown_of_class h (by decide))) trivial

/-- A load or store is decoded as it should be exactly when its class and its fields are of the few
that are. -/
theorem loadStoreDecoded_iff (op : BitVec 32) :
    LoadStoreDecoded op (decode op) ↔
      ∀ k : LoadStore, k.diagram.Matches op → (k.operation op).isSome → loadStoreExact k op := by
  constructor
  · intro h k hk hsome
    obtain ⟨o, ho⟩ := Option.isSome_iff_exists.mp hsome
    exact (names_iff hk ho).mp (h k hk o ho)
  · intro h k hk o ho
    exact (names_iff hk ho).mpr (h k hk (Option.isSome_iff_exists.mpr ⟨o, ho⟩))

/-- `LDRB W0, [X1]` is decoded as a load of four bytes. -/
theorem ldrb_decoded_wide : ¬ LoadStoreDecoded 0x39400020 (decode 0x39400020) := by
  intro h
  have hnames := h .unsignedOffset (by decide) _ rfl
  rw [Names] at hnames
  revert hnames
  decide

end Others

end Arm2x86.Translate
