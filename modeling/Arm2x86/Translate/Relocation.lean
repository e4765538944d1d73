import Arm2x86.Translate.Jumps

/-!
# Translations of code at another address

The output of `arm2x86_convert_block` depends on the address of the block through link values,
`ADR`, literal loads and dispatch stubs for branches out of the block. A block without these has
the same translation wherever it stands.
-/

namespace Arm2x86.Translate

open X86

/-- The translators that write the address of their instruction, or one derived from it, into the
output. -/
def usesAddress : InstrType → Bool
  | .bl | .blr | .adr | .adrp | .ldrLiteral => true
  | _ => false

namespace TranslateCtx

variable (d : BitVec 64) (t : TranslateCtx)

/-- The context of the same translation `d` further on in guest memory. -/
def move : TranslateCtx :=
  { t with
    arm64Cur := t.arm64Cur + d
    pcMap := fun i ↦ ⟨(t.pcMap i).armPc + d, (t.pcMap i).x86Pc⟩ }

theorem move_pcMapAdd : t.pcMapAdd.move d = (t.move d).pcMapAdd := by
  unfold pcMapAdd
  show (if _ then _ else t).move d = if t.pcMapCount < 256 then _ else t.move d
  split
  · show TranslateCtx.mk _ _ _ _ _ _ _ = TranslateCtx.mk _ _ _ _ _ _ _
    congr 1
    ext i : 1
    by_cases hi : i = t.pcMapCount
    · simp [hi, move, x86Cur]
    · simp [move, Function.update_of_ne hi]
  · rfl

theorem move_zero : t.move 0#64 = t := by
  simp [move]

theorem pcMapLookup_move (a : BitVec 64) : (t.move d).pcMapLookup (a + d) = t.pcMapLookup a := by
  have hsame : (fun i : Nat ↦ ((t.move d).pcMap i).armPc == a + d) =
      fun i : Nat ↦ (t.pcMap i).armPc == a := by
    ext i
    show ((t.pcMap i).armPc + d == a + d) = _
    rw [Bool.eq_iff_iff, beq_iff_eq, beq_iff_eq, BitVec.add_left_inj]
  unfold pcMapLookup
  rw [hsame]
  rfl

theorem target_move (off : BitVec 32) : (t.move d).target off = t.target off + d := by
  show t.arm64Cur + d + _ = t.arm64Cur + _ + d
  rw [BitVec.add_assoc, BitVec.add_comm d, BitVec.add_assoc]

theorem move_record (type : InstrType) (op : BitVec 32) :
    (t.record type op).move d = (t.move d).record type op := by
  unfold record
  split
  · exact move_pcMapAdd d t
  · rfl

/-- A branch to an address of the map. -/
theorem branchTo_move {a : BitVec 64} (h : t.pcMapLookup a ≠ 0) (isCall : Bool) :
    (t.move d).branchTo (a + d) isCall = (t.branchTo a isCall).move d := by
  unfold branchTo
  rw [pcMapLookup_move, if_pos (by simpa using h), if_pos (by simpa using h)]
  rfl

/-- A translator that does not use the address of its instruction, and whose branch is direct. -/
theorem translateOne_move (env : Env) {type : InstrType} (op imm : BitVec 32)
    (huses : usesAddress type = false)
    (hdirect : ∀ off, branchOffset type op = some off →
      (t.record type op).pcMapLookup (t.target off) ≠ 0) :
    translateOne env (t.move d) type op imm = (translateOne env t type op imm).move d := by
  have hnone : ∀ u : TranslateCtx, u.addressCode type op = [] := by
    intro u
    cases type <;> first | rfl | cases huses
  apply translateOne_rel (R := fun u u' ↦ u' = u.move d) env t (t.move d) type op imm
  case hitems =>
    rintro u _ items rfl
    rfl
  case halloc =>
    rintro u _ alloc rfl
    rfl
  case hsame => rfl
  case haddress =>
    rintro u _ rfl
    rw [hnone, hnone]
    rfl
  case hbranch =>
    rintro u _ off isCall hoff hlookup rfl
    rw [target_move]
    apply branchTo_move
    rw [hlookup]
    exact hdirect off hoff
  case h => exact (move_record d t type op).symm

end TranslateCtx

/-- The same leftovers `d` further on. -/
def Stack.move (d : BitVec 64) (stack : Stack) : Stack :=
  { stack with pcMap := fun i ↦ ⟨(stack.pcMap i).armPc + d, (stack.pcMap i).x86Pc⟩ }

namespace Block

variable (stack : Stack) (blk : Block)

/-- The instructions that the loop comes to. -/
def Visits (k : Nat) : Prop :=
  k < maxInstructions ∧ 4 * k < blk.size ∧
    ∀ j < k, isBlockTerminator (blk.decoded stack j).instrType = false

/-- Two blocks of which the loop sees the same instructions. -/
structure Alike (blk' : Block) : Prop where
  visits : ∀ k, blk'.Visits stack k ↔ blk.Visits stack k
  instructions : ∀ k, blk.Visits stack k →
    blk'.word k = blk.word k ∧ blk'.decoded stack k = blk.decoded stack k

/-- The recorded instructions of a block, to which a branch is direct. -/
def Inside (k : Nat) (target : BitVec 64) : Prop :=
  ∃ j ≤ k, blk.pc j = target ∧ recordsAddress (blk.decoded stack j).instrType (blk.word j) = true

/-- A block whose translation holds no address: it uses none, and branches inside only, into a map
without leftovers and code that does not wrap around. -/
def Movable (env : Env) (x86Base : BitVec 64) : Prop :=
  ∀ k, blk.Visits stack k → usesAddress (blk.decoded stack k).instrType = false ∧
    ∀ off, branchOffset (blk.decoded stack k).instrType (blk.word k) = some off →
      blk.Inside stack k (blk.pc k + off.signExtend 64) ∧ stack.pcMapCount = 0 ∧ x86Base ≠ 0 ∧
        x86Base.toNat + (convertBlockBytes env stack blk x86Base).length < 2 ^ 64

end Block

/-- A translator leaves the map as it is behind the record of its address. -/
theorem translateOne_pcMap (env : Env) (t : TranslateCtx) (type : InstrType) (op imm : BitVec 32) :
    (translateOne env t type op imm).pcMap = (t.record type op).pcMap ∧
      (translateOne env t type op imm).pcMapCount = (t.record type op).pcMapCount := by
  apply TranslateCtx.translateOne_rel (R := fun u _ ↦ u.pcMap = (t.record type op).pcMap ∧
    u.pcMapCount = (t.record type op).pcMapCount) env t t
  case hitems => exact fun u _ items hu ↦ hu
  case halloc => exact fun u _ alloc hu ↦ hu
  case hsame => rfl
  case haddress => exact fun u _ hu ↦ hu
  case hbranch =>
    intro u _ off isCall _ _ hu
    unfold TranslateCtx.branchTo
    split
    · exact hu
    · unfold TranslateCtx.emitDispatchStub
      split
      · exact hu
      · exact hu
  case h => exact ⟨rfl, rfl⟩

/-- A map that was empty at the start holds the recorded instructions before instruction `k`. -/
structure Recorded (stack : Stack) (blk : Block) (k : Nat) (t : TranslateCtx) : Prop where
  nonneg : 0 ≤ t.pcMapCount
  count : t.pcMapCount ≤ k
  holds : ∀ j < k, recordsAddress (blk.decoded stack j).instrType (blk.word j) = true →
    ∃ i : Nat, i < t.pcMapCount ∧ (t.pcMap i).armPc = blk.pc j

theorem TranslateCtx.bytes_record (t : TranslateCtx) (type : InstrType) (op : BitVec 32) :
    (t.record type op).bytes = t.bytes := by
  unfold record
  split
  · exact bytes_pcMapAdd t
  · rfl

theorem Tracked.record {stack : Stack} {blk : Block} {x86Base : BitVec 64} {t : TranslateCtx}
    (h : Tracked stack blk x86Base t) (type : InstrType) (op : BitVec 32) :
    Tracked stack blk x86Base (t.record type op) := by
  unfold TranslateCtx.record
  split
  · exact h.pcMapAdd
  · exact h

namespace Recorded

variable {stack : Stack} {blk : Block} {k : Nat} {t : TranslateCtx}

theorem record (h : Recorded stack blk k t) (hk : k < maxInstructions) (hcur : t.arm64Cur = blk.pc k) :
    Recorded stack blk (k + 1) (t.record (blk.decoded stack k).instrType (blk.word k)) := by
  have hcount := h.count
  have hnonneg := h.nonneg
  unfold TranslateCtx.record
  split
  · have hroom : t.pcMapCount < 256 := by
      unfold maxInstructions at hk
      omega
    unfold TranslateCtx.pcMapAdd
    rw [if_pos hroom]
    refine ⟨by dsimp only; omega, by dsimp only; omega, fun j hj hrec ↦ ?_⟩
    dsimp only
    rcases Nat.lt_succ_iff_lt_or_eq.mp hj with hj | rfl
    · obtain ⟨i, hi, harm⟩ := h.holds j hj hrec
      refine ⟨i, by omega, ?_⟩
      rw [Function.update_of_ne (by omega), harm]
    · refine ⟨t.pcMapCount.toNat, by omega, ?_⟩
      rw [Int.toNat_of_nonneg hnonneg, Function.update_self, hcur]
  · next hnot =>
    refine ⟨hnonneg, by omega, fun j hj hrec ↦ ?_⟩
    rcases Nat.lt_succ_iff_lt_or_eq.mp hj with hj | rfl
    · exact h.holds j hj hrec
    · exact absurd hrec hnot

/-- A branch inside finds its target. -/
theorem pcMapLookup_ne_zero {u : TranslateCtx} {x86Base target : BitVec 64}
    (h : Recorded stack blk (k + 1) u) (htracked : Tracked stack blk x86Base u)
    (hin : blk.Inside stack k target) (hclean : stack.pcMapCount = 0) (hbase : x86Base ≠ 0)
    (hfits : x86Base.toNat + u.bytes.length < 2 ^ 64) : u.pcMapLookup target ≠ 0 := by
  obtain ⟨j, hj, hpc, hrec⟩ := hin
  obtain ⟨i, hi, harm⟩ := h.holds j (by omega) hrec
  unfold TranslateCtx.pcMapLookup
  cases hfind : (List.range u.pcMapCount.toNat).find? fun i : Nat ↦ (u.pcMap i).armPc == target with
  | none =>
    have hmiss := List.find?_eq_none.mp hfind i (List.mem_range.mpr (by omega))
    rw [harm, hpc] at hmiss
    exact absurd (beq_self_eq_true target) hmiss
  | some i₀ =>
    have hi₀ := List.mem_range.mp (List.mem_of_find?_eq_some hfind)
    rcases htracked.map i₀ (by omega) with ⟨hlt, -⟩ | ⟨n, hn, hx86⟩
    · omega
    · show (u.pcMap i₀).x86Pc ≠ 0
      rw [hx86]
      intro hzero
      have hnat := congrArg BitVec.toNat hzero
      have hpos : x86Base.toNat ≠ 0 := fun hz ↦ hbase (BitVec.eq_of_toNat_eq hz)
      rw [BitVec.toNat_add, BitVec.toNat_ofNat, Nat.mod_eq_of_lt (a := n) (by omega),
        Nat.mod_eq_of_lt (by omega)] at hnat
      change x86Base.toNat + n = 0 at hnat
      omega

end Recorded

section Moving

variable {env : Env} {stack : Stack} {blk blk' : Block} {x86Base : BitVec 64}

private theorem pc_moved (blk blk' : Block) (k : Nat) : blk'.pc k = blk.pc k + (blk'.addr - blk.addr) := by
  unfold Block.pc
  rw [BitVec.add_assoc, BitVec.add_comm _ (blk'.addr - blk.addr), ← BitVec.add_assoc,
    BitVec.add_comm blk.addr, BitVec.sub_add_cancel]

private theorem length_bytes_le {t u : TranslateCtx} (h : t.out <+: u.out) :
    t.bytes.length ≤ u.bytes.length := by
  obtain ⟨items, hout⟩ := h
  rw [TranslateCtx.bytes, TranslateCtx.bytes, ← hout, List.flatMap_append, List.length_append]
  omega

/-- One turn of the loop on the moved block. -/
theorem translateStep_move {k : Nat} {t : TranslateCtx} (halike : blk.Alike stack blk')
    (hmove : blk'.addr = blk.addr ∨ blk.Movable stack env x86Base) (hvisit : blk.Visits stack k)
    (hcur : t.arm64Cur = blk.pc k) (htracked : Tracked stack blk x86Base t)
    (hrecorded : stack.pcMapCount = 0 → Recorded stack blk k t)
    (hlen : t.bytes.length ≤ (convertBlockBytes env stack blk x86Base).length) :
    translateStep env (stack.move (blk'.addr - blk.addr)) blk' k (t.move (blk'.addr - blk.addr)) =
      (translateStep env stack blk k t).move (blk'.addr - blk.addr) := by
  obtain ⟨hword, hdec⟩ := halike.instructions k hvisit
  have hdec' : blk'.decoded (stack.move (blk'.addr - blk.addr)) k = blk.decoded stack k := hdec
  have hone : translateOne env (t.move (blk'.addr - blk.addr)) (blk.decoded stack k).instrType
      (blk.word k) (blk.decoded stack k).imm =
      (translateOne env t (blk.decoded stack k).instrType (blk.word k)
        (blk.decoded stack k).imm).move (blk'.addr - blk.addr) := by
    rcases hmove with hsame | hmove
    · rw [hsame, BitVec.sub_self, TranslateCtx.move_zero, TranslateCtx.move_zero]
    · obtain ⟨huses, hinside⟩ := hmove k hvisit
      apply t.translateOne_move (blk'.addr - blk.addr) env (blk.word k) _ huses
      intro off hoff
      obtain ⟨hin, hclean, hbase, hfits⟩ := hinside off hoff
      have hrec := (hrecorded hclean).record hvisit.1 hcur
      rw [TranslateCtx.target, hcur]
      apply hrec.pcMapLookup_ne_zero (htracked.record _ _) hin hclean hbase
      rw [t.bytes_record]
      omega
  unfold translateStep
  dsimp only
  rw [hdec', hword, pc_moved blk blk', hone]
  rfl

/-- The loop on the moved block. -/
theorem convertLoop_move {fuel k : Nat} {t : TranslateCtx} (halike : blk.Alike stack blk')
    (hmove : blk'.addr = blk.addr ∨ blk.Movable stack env x86Base) (hfuel : fuel + k = maxInstructions)
    (hgoes : ∀ j < k, 4 * j < blk.size ∧ isBlockTerminator (blk.decoded stack j).instrType = false)
    (hcur : t.arm64Cur = blk.pc k) (htracked : Tracked stack blk x86Base t)
    (hrecorded : stack.pcMapCount = 0 → Recorded stack blk k t)
    (hlen : (convertLoop env stack blk fuel k t).bytes.length ≤
      (convertBlockBytes env stack blk x86Base).length) :
    convertLoop env (stack.move (blk'.addr - blk.addr)) blk' fuel k (t.move (blk'.addr - blk.addr)) =
      (convertLoop env stack blk fuel k t).move (blk'.addr - blk.addr) := by
  induction fuel generalizing k t with
  | zero => rfl
  | succ fuel ih =>
    have hk : k < maxInstructions := by omega
    have hgoes' : ∀ j < k, isBlockTerminator (blk'.decoded stack j).instrType = false := by
      intro j hj
      have hvisit : blk.Visits stack j :=
        ⟨by omega, (hgoes j hj).1, fun i hi ↦ (hgoes i (by omega)).2⟩
      rw [(halike.instructions j hvisit).2]
      exact (hgoes j hj).2
    have hsize : 4 * k < blk'.size ↔ 4 * k < blk.size :=
      ⟨fun hin ↦ ((halike.visits k).mp ⟨hk, hin, hgoes'⟩).2.1,
        fun hin ↦ ((halike.visits k).mpr ⟨hk, hin, fun j hj ↦ (hgoes j hj).2⟩).2.1⟩
    have htlen : t.bytes.length ≤ (convertBlockBytes env stack blk x86Base).length :=
      (length_bytes_le (out_prefix_convertLoop t env stack blk (fuel + 1) k)).trans hlen
    unfold convertLoop at hlen ⊢
    by_cases hin : 4 * k < blk.size
    · have hvisit : blk.Visits stack k := ⟨hk, hin, fun j hj ↦ (hgoes j hj).2⟩
      have hdec : blk'.decoded (stack.move (blk'.addr - blk.addr)) k = blk.decoded stack k :=
        (halike.instructions k hvisit).2
      have hstep := translateStep_move halike hmove hvisit hcur htracked hrecorded htlen
      rw [if_pos hin] at hlen ⊢
      rw [if_pos (hsize.mpr hin)]
      dsimp only at hlen ⊢
      rw [hdec, hstep]
      split
      · rfl
      · next hterm =>
        rw [if_neg hterm] at hlen
        refine ih (by omega) (fun j hj ↦ ?_) rfl (htracked.translateStep env hin hcur)
          (fun hclean ↦ ?_) hlen
        · rcases Nat.lt_succ_iff_lt_or_eq.mp hj with hj | rfl
          · exact hgoes j hj
          · exact ⟨hin, Bool.not_eq_true _ ▸ hterm⟩
        · have hrec := (hrecorded hclean).record hk hcur
          obtain ⟨hmap, hcount⟩ := translateOne_pcMap env t (blk.decoded stack k).instrType
            (blk.word k) (blk.decoded stack k).imm
          refine ⟨hcount ▸ hrec.nonneg, hcount ▸ hrec.count, fun j hj hr ↦ ?_⟩
          show ∃ i : Nat, i < (translateOne ..).pcMapCount ∧ ((translateOne ..).pcMap i).armPc = _
          rw [hmap, hcount]
          exact hrec.holds j hj hr
    · rw [if_neg hin, if_neg (mt hsize.mp hin)]

/-- Blocks of the same instructions have the same translation at one address, and everywhere if it
holds no address. -/
theorem convertBlockBytes_alike (env : Env) (x86Base : BitVec 64) (halike : blk.Alike stack blk')
    (hmove : blk'.addr = blk.addr ∨ blk.Movable stack env x86Base) :
    convertBlockBytes env (stack.move (blk'.addr - blk.addr)) blk' x86Base =
      convertBlockBytes env stack blk x86Base := by
  have hstart : startCtx (stack.move (blk'.addr - blk.addr)) blk' x86Base =
      (startCtx stack blk x86Base).move (blk'.addr - blk.addr) := by
    have haddr : blk'.addr = blk.addr + (blk'.addr - blk.addr) := by
      rw [BitVec.add_comm, BitVec.sub_add_cancel]
    unfold startCtx TranslateCtx.move Stack.move
    rw [← haddr]
  have hgrows : (convertLoop env stack blk maxInstructions 0 (startCtx stack blk x86Base)).out <+:
      (convertBlock env stack blk x86Base).out :=
    (out_prefix_batchStore _).trans (out_prefix_emit _ _)
  have hloop : convertLoop env (stack.move (blk'.addr - blk.addr)) blk' maxInstructions 0
      ((startCtx stack blk x86Base).move (blk'.addr - blk.addr)) =
      (convertLoop env stack blk maxInstructions 0 (startCtx stack blk x86Base)).move
        (blk'.addr - blk.addr) := by
    apply convertLoop_move halike hmove rfl
    case hgoes => exact fun j hj ↦ absurd hj (Nat.not_lt_zero j)
    case hcur => simp [startCtx, Block.pc]
    case htracked => exact tracked_startCtx stack blk x86Base
    case hrecorded => exact fun hclean ↦ ⟨hclean.ge, hclean.le, fun j hj ↦ absurd hj (Nat.not_lt_zero j)⟩
    case hlen => exact length_bytes_le hgrows
  unfold convertBlockBytes convertBlock
  rw [hstart, hloop]
  rfl

end Moving

end Arm2x86.Translate
