import Arm2x86.Translate.SlotRuns
import Arm2x86.Translate.BaseRegister

/-!
# Requests for registers

`reg_alloc_get_reg` (`modules/arm2x86_translate64.c:351`) for a guest register that is not cached: the
register it takes, the write-back of its holder and the load, and what they do to a machine. A write-back
of a high register goes through `R13`.
-/

namespace Arm2x86.Translate

open X86 Alloc

section Requests

variable {a : Alloc} {r j : ArmReg} {w d : Bool}

/-- The host register that the next request takes. -/
def Alloc.nextReg (a : Alloc) : Byte :=
  if a.freeRegCount = 0 then
    match spillIdx a with
    | none => rax
    | some i => (a.regAlloc i).x86Reg
  else a.freeRegs (a.freeRegCount - 1)

/-- The write-back in front of the load. -/
def Alloc.writeBack (a : Alloc) : List Code :=
  if a.freeRegCount = 0 then
    match spillIdx a with
    | none => []
    | some i => storeIfDirty a i
  else []

/-- A request for a register that is not cached. -/
theorem regAllocGetReg_uncached (h : a.WellFormed) (hr : ¬ a.cached r) :
    (regAllocGetReg a r w d).2.x86Reg = a.nextReg ∧
      (regAllocGetReg a r w d).2.code = a.writeBack ++ [emitLoadArmReg r a.nextReg w] ∧
        ∀ j, (regAllocGetReg a r w d).1.held j = if j = r then some a.nextReg
          else if a.held j = some a.nextReg then none else a.held j := by
  rcases regAllocGetReg_cases h r w d with ⟨hc, -⟩ | ⟨b, x, -, hpos, hx, rfl, rfl, he⟩ |
    ⟨i, -, hc, hi, hci, he⟩
  · exact absurd hc hr
  · have hne : ¬ a.freeRegCount = 0 := by omega
    have hnext : a.nextReg = a.freeRegs (a.freeRegCount - 1) := if_neg hne
    have hback : a.writeBack = [] := if_neg hne
    rw [he, hnext, hback]
    refine ⟨rfl, rfl, fun j ↦ ?_⟩
    rw [held_place hx, Function.update_apply]
    by_cases hj : j = r
    · rw [if_pos hj, if_pos hj]
    · have hfree : a.held j ≠ some (a.freeRegs (a.freeRegCount - 1)) := by
        intro hheld
        apply h.exclusive.disjoint hheld
        rw [freeStack_pop hpos]
        exact List.mem_append_right _ List.mem_cons_self
      rw [if_neg hj, if_neg hj, if_neg hfree]
      rfl
  · have hnext : a.nextReg = (a.regAlloc i).x86Reg := by
      rw [nextReg, if_pos hc, hi]
    have hback : a.writeBack = storeIfDirty a i := by
      rw [writeBack, if_pos hc, hi]
    have hx : (a.regAlloc i).x86Reg ≠ noReg := by simpa [Alloc.cached] using hci
    have hheld : a.held i = some (a.regAlloc i).x86Reg := held_eq_some_iff.mpr ⟨rfl, hx⟩
    rw [he, hnext, hback]
    refine ⟨rfl, rfl, fun j ↦ ?_⟩
    rw [held_place hx, Function.update_apply]
    by_cases hj : j = r
    · rw [if_pos hj, if_pos hj]
    · rw [if_neg hj, if_neg hj]
      have hevict : (a.evict i).held = Function.update a.held i none :=
        held_setX86Reg_noReg (a := a) (r := i)
      rw [hevict, Function.update_apply]
      by_cases hji : j = i
      · rw [if_pos hji, hji, if_pos hheld]
      · have hother : a.held j ≠ some (a.regAlloc i).x86Reg :=
          fun hj ↦ hji (h.exclusive.unique hj hheld)
        rw [if_neg hji, if_neg hother]

theorem regAllocGetReg_held (hr : a.cached r) : (regAllocGetReg a r w d).1.held = a.held ∧
    (regAllocGetReg a r w d).2.code = [] ∧ a.held r = some (regAllocGetReg a r w d).2.x86Reg := by
  have hreq : regAllocGetReg a r w d =
      (if d then a.setDirty r true else a, ⟨(a.regAlloc r).x86Reg, [], .cached⟩) := by
    rw [regAllocGetReg, if_pos hr]
  rw [hreq]
  refine ⟨?_, rfl, ?_⟩
  · cases d
    · rfl
    · exact held_setDirty true
  · exact held_eq_some_iff.mpr ⟨rfl, (cached_iff a r).mp hr⟩

/-- What a request returns is assigned. -/
theorem regAllocGetReg_assigned (h : a.WellFormed) :
    (regAllocGetReg a r w d).1.held r = some (regAllocGetReg a r w d).2.x86Reg := by
  by_cases hr : a.cached r
  · obtain ⟨hheld, -, hreg⟩ := regAllocGetReg_held (w := w) (d := d) hr
    rw [hheld, hreg]
  · obtain ⟨hreg, -, hheld⟩ := regAllocGetReg_uncached (w := w) (d := d) h hr
    rw [hheld, if_pos rfl, hreg]

theorem regAllocEmitBatchStore_held (a : Alloc) (live : List ArmReg) :
    (regAllocEmitBatchStore a live).1.held = a.held := by
  induction live generalizing a with
  | nil => rfl
  | cons r rs ih =>
    unfold regAllocEmitBatchStore
    split
    · have hrest := ih (a.setDirty r false)
      rwa [held_setDirty] at hrest
    · exact ih a

/-- All registers are those of the pool and `RBP`. -/
structure Alloc.Drawn (a : Alloc) : Prop where
  wellFormed : a.WellFormed
  free : ∀ x ∈ a.freeStack, x ∈ homeRegs
  held : ∀ j x, a.held j = some x → x ∈ homeRegs

theorem Alloc.Drawn.nextReg_mem (h : a.Drawn) : a.nextReg ∈ homeRegs := by
  rw [nextReg]
  by_cases hc : a.freeRegCount = 0
  · obtain ⟨i, hi, hci, -⟩ := spillIdx_spec h.wellFormed
    rw [if_pos hc, hi]
    exact h.held i _ (held_eq_some_iff.mpr ⟨rfl, (cached_iff a i).mp hci⟩)
  · rw [if_neg hc]
    apply h.free
    have hnonneg := h.wellFormed.count_nonneg
    rw [freeStack_pop (by omega)]
    exact List.mem_append_right _ List.mem_cons_self

theorem Alloc.Drawn.getReg (h : a.Drawn) (r : ArmReg) (w d : Bool) :
    (regAllocGetReg a r w d).1.Drawn := by
  refine ⟨regAllocGetReg_wellFormed h.wellFormed r w d, fun x hx ↦ ?_, fun j x hx ↦ ?_⟩
  · exact h.free x (AllocOp.mem_freeStack h.wellFormed (.getReg r w d) hx)
  · by_cases hr : a.cached r
    · rw [(regAllocGetReg_held hr).1] at hx
      exact h.held j x hx
    · rw [(regAllocGetReg_uncached h.wellFormed hr).2.2 j] at hx
      split at hx
      · obtain rfl := Option.some.inj hx
        exact h.nextReg_mem
      · split at hx
        · cases hx
        · exact h.held j x hx

theorem AllocOp.step_drawn (h : a.Drawn) (op : AllocOp) : (op.step a).Drawn := by
  cases op with
  | getReg r w d => exact h.getReg r w d
  | takeFor r w =>
    refine ⟨AllocOp.step_wellFormed h.wellFormed _,
      fun x hx ↦ h.free x (AllocOp.mem_freeStack h.wellFormed _ hx), fun j x hx ↦ ?_⟩
    rw [AllocOp.step, regAllocTakeFor] at hx
    rcases regAllocGetFree_cases h.wellFormed with ⟨-, hfree⟩ | ⟨hpos, hne, hfree⟩
    · simp only [hfree, bne_self_eq_false, Bool.false_eq_true, if_false] at hx
      exact h.held j x hx
    · simp only [hfree, bne_iff_ne, ne_eq, hne, not_false_eq_true, if_true, held_setDirty,
        held_assign hne, Function.update_apply] at hx
      split at hx
      · obtain rfl := Option.some.inj hx
        apply h.free
        rw [freeStack_pop hpos]
        exact List.mem_append_right _ List.mem_cons_self
      · exact h.held j x hx
  | batchStore live =>
    refine ⟨AllocOp.step_wellFormed h.wellFormed _,
      fun x hx ↦ h.free x (AllocOp.mem_freeStack h.wellFormed _ hx), fun j x hx ↦ ?_⟩
    rw [AllocOp.step, regAllocEmitBatchStore_held] at hx
    exact h.held j x hx

theorem allocRun_drawn (ops : List AllocOp) : (allocRun regAllocStart ops).Drawn := by
  have key : ∀ a : Alloc, a.Drawn → (allocRun a ops).Drawn := by
    induction ops with
    | nil => exact fun _ h ↦ h
    | cons op ops ih => exact fun a h ↦ ih _ (op.step_drawn h)
  apply key
  refine ⟨regAllocStart_wellFormed, fun x hx ↦ List.mem_cons_of_mem _ (allocRun_free_mem [] hx), ?_⟩
  intro j x hx
  have hstart : ∀ j, regAllocStart.held j = if j = 29 then some rbp else none := by decide
  rw [hstart] at hx
  split at hx
  · obtain rfl := Option.some.inj hx
    exact List.mem_cons_self
  · cases hx

/-- The write-back, if there is one, does not go through `R13`. -/
def Alloc.WritesBack (a : Alloc) : Prop := ∀ i, a.freeRegCount = 0 → spillIdx a = some i →
  (a.regAlloc i).dirty = true → (a.regAlloc i).is64bit = true → a.nextReg < 8

end Requests

section Runs

variable {undef : Instr → Machine → Status} {rest : Instr → Machine → Option Machine}
variable {a : Alloc} {r : ArmReg} {w : Bool} {code : List Byte} {m : Machine}
variable {slots : ArmReg → BitVec 64}

theorem reaches_iff_of_step {sem : Semantics} {m₁ : Machine} {Q : Machine → Prop}
    (hstep : sem.step code m = some m₁) (hm : ¬ Q m) : Reaches sem code m Q ↔ Reaches sem code m₁ Q := by
  constructor
  · rintro ⟨m', hrun, hq⟩
    rcases runs_of_step hstep hrun with rfl | hrun'
    · exact absurd hq hm
    · exact ⟨m', hrun', hq⟩
  · exact reaches_of_step hstep

theorem Alloc.writeBack_cases (ha : a.Drawn) : a.writeBack = [] ∨ ∃ i, a.freeRegCount = 0 ∧
    spillIdx a = some i ∧ a.cached i ∧ (a.regAlloc i).dirty = true ∧ a.nextReg = (a.regAlloc i).x86Reg ∧
      a.writeBack = [emitStoreArmReg a.nextReg i (a.regAlloc i).is64bit] := by
  by_cases hc : a.freeRegCount = 0
  · obtain ⟨i, hi, hci, -⟩ := spillIdx_spec ha.wellFormed
    have hnext : a.nextReg = (a.regAlloc i).x86Reg := by
      rw [nextReg, if_pos hc, hi]
    rw [writeBack, if_pos hc, hi]
    by_cases hd : (a.regAlloc i).dirty = true
    · refine Or.inr ⟨i, hc, rfl, hci, hd, hnext, ?_⟩
      rw [hnext]
      exact if_pos hd
    · exact Or.inl (if_neg hd)
  · exact Or.inl (if_neg hc)

/-- What a request leaves: the register of the load, and the slots but for the one of the victim. -/
structure Requested (a : Alloc) (r : ArmReg) (w : Bool) (slots : ArmReg → BitVec 64) (m m' : Machine) :
    Prop where
  pos : m'.pos = m.pos + (a.writeBack ++ [emitLoadArmReg r a.nextReg w]).flatten.length
  regs : m'.regs = Function.update m.regs (loadedReg a.nextReg w) (cut w (slots r))
  mem : ∀ p, p ∉ homeRegion (m.regs 5) → m'.mem p = m.mem p
  slots : loadedReg a.nextReg w ≠ 5 → ∃ slots', Slots m' slots' ∧ ∀ j, slots' j = slots j ∨
    a.cached j ∧ ∃ w' x, x ∈ homeRegs ∧
      slots' j = merge w' (slots j) (cut w' (m.regs (gpr false (x.setWidth 3))))

private theorem requested_load {m₁ : Machine} {slots₁ : ArmReg → BitVec 64}
    (hm : Slots m₁ slots₁) (hregs : m₁.regs = m.regs) (hr : slots₁ r = slots r)
    (hlen : m₁.pos + (emitLoadArmReg r a.nextReg w).length =
      m.pos + (a.writeBack ++ [emitLoadArmReg r a.nextReg w]).flatten.length)
    (hmem : ∀ p, p ∉ homeRegion (m.regs 5) → m₁.mem p = m.mem p)
    (hslots : ∀ j, slots₁ j = slots j ∨ a.cached j ∧ ∃ w' x, x ∈ homeRegs ∧
      slots₁ j = merge w' (slots j) (cut w' (m.regs (gpr false (x.setWidth 3))))) :
    Requested a r w slots m
      ({ m₁ with pos := m₁.pos + (emitLoadArmReg r a.nextReg w).length }.setReg (loadedReg a.nextReg w)
        (cut w (slots₁ r))) where
  pos := hlen
  regs := by
    rw [regs_setReg_update, hr]
    exact congrArg (Function.update · _ _) hregs
  mem := hmem
  slots h5 := ⟨slots₁, (hm.at _).setReg h5 _, hslots⟩

variable (undef rest) in
theorem request_iff (ha : a.Drawn) (hr : ¬ a.cached r) (hm : Slots m slots) (hback : a.WritesBack)
    (hat : At code m.pos (a.writeBack ++ [emitLoadArmReg r a.nextReg w]).flatten) :
    ∃ m', Requested a r w slots m m' ∧ ∀ Q : Machine → Prop, (∀ m₁, Q m₁ → m'.pos ≤ m₁.pos) →
      (Reaches (Semantics.core undef rest) code m Q ↔ Reaches (Semantics.core undef rest) code m' Q) := by
  have hload : 0 < (emitLoadArmReg r a.nextReg w).length := by
    rw [emitLoadArmReg, List.length_append, List.length_cons]
    omega
  rcases Alloc.writeBack_cases ha with hnone | ⟨i, hc, hi, hci, hd, hnext, hsome⟩
  · rw [hnone, List.nil_append, List.flatten_cons, List.flatten_nil, List.append_nil] at hat
    have hlen : m.pos + (emitLoadArmReg r a.nextReg w).length =
        m.pos + (a.writeBack ++ [emitLoadArmReg r a.nextReg w]).flatten.length := by
      rw [hnone, List.nil_append, List.flatten_cons, List.flatten_nil, List.append_nil]
    refine ⟨_, requested_load hm rfl rfl hlen (fun _ _ ↦ rfl) (fun _ ↦ Or.inl rfl), fun Q hQ ↦ ?_⟩
    apply reaches_iff_of_step (step_load hat (hm r))
    intro hq
    have hle := hQ m hq
    rw [Machine.pos_setReg] at hle
    dsimp only at hle
    omega
  · have hx : ((a.regAlloc i).is64bit && decide (8 ≤ a.nextReg)) = false := by
      cases hw : (a.regAlloc i).is64bit with
      | false => rfl
      | true =>
        rw [Bool.true_and, decide_eq_false_iff_not, BitVec.not_le]
        exact hback i hc hi hd hw
    generalize (a.regAlloc i).is64bit = w' at hx hsome
    rw [hsome, List.cons_append, List.nil_append, List.flatten_cons, List.flatten_cons, List.flatten_nil,
      List.append_nil] at hat
    obtain ⟨m₁, hm₁⟩ : ∃ m₁ : Machine, { m with
      pos := m.pos + (emitStoreArmReg a.nextReg i w').length
      mem := storedMem m (m.regs 5) i w' (cut w' (m.regs (gpr false (a.nextReg.setWidth 3)))) } = m₁ :=
      ⟨_, rfl⟩
    have hstep : (Semantics.core undef rest).step code m = some m₁ :=
      hm₁ ▸ step_store_slot hx hat.left (hm i)
    have hstored : Slots m₁ (Function.update slots i (merge w' (slots i)
        (cut w' (m.regs (gpr false (a.nextReg.setWidth 3)))))) :=
      hm₁ ▸ hm.store i w' _ _
    have hpos₁ : m₁.pos = m.pos + (emitStoreArmReg a.nextReg i w').length := by
      rw [← hm₁]
    have hregs₁ : m₁.regs = m.regs := by
      rw [← hm₁]
    have hlen : m₁.pos + (emitLoadArmReg r a.nextReg w).length =
        m.pos + (a.writeBack ++ [emitLoadArmReg r a.nextReg w]).flatten.length := by
      rw [hsome, List.cons_append, List.nil_append, List.flatten_cons, List.flatten_cons,
        List.flatten_nil, List.append_nil, List.length_append, hpos₁, Nat.add_assoc]
    have hri : r ≠ i := fun he ↦ hr (he ▸ hci)
    have hmem : ∀ p, p ∉ homeRegion (m.regs 5) → m₁.mem p = m.mem p := by
      intro p hp
      rw [← hm₁]
      exact storedMem_of_notMem hp w'
    have hat₁ : At code m₁.pos (emitLoadArmReg r a.nextReg w) := by
      rw [hpos₁]
      exact hat.right
    refine ⟨_, requested_load hstored hregs₁ (Function.update_of_ne hri _ _) hlen hmem fun j ↦ ?_,
      fun Q hQ ↦ ?_⟩
    · by_cases hj : j = i
      · rw [hj, Function.update_self]
        exact Or.inr ⟨hci, w', a.nextReg, ha.nextReg_mem, rfl⟩
      · exact Or.inl (Function.update_of_ne hj _ _)
    · rw [Machine.pos_setReg] at hQ
      rw [reaches_iff_of_step hstep, reaches_iff_of_step (step_load hat₁ (hstored r))]
      · intro hq
        have hle := hQ m₁ hq
        dsimp only at hle
        omega
      · intro hq
        have hle := hQ m hq
        dsimp only at hle
        omega

/-- Where nothing is at `R13`, another write-back is not survived. -/
theorem WritesBack.of_reaches (ha : a.Drawn) {Q : Machine → Prop} (hQ : ∀ m₁, Q m₁ → m.pos < m₁.pos)
    (hreach : Reaches (Semantics.core undef rest) code m Q) (h13 : ∀ j, m.mem (slotAddr (m.regs 13) j) = none)
    (hat : At code m.pos (a.writeBack ++ [emitLoadArmReg r a.nextReg w]).flatten) : a.WritesBack := by
  intro i hc hi hd hw
  by_contra hx
  rcases Alloc.writeBack_cases ha with hnone | ⟨j, -, hj, -, -, -, hsome⟩
  · rw [writeBack, if_pos hc, hi] at hnone
    have hstore : storeIfDirty a i = [emitStoreArmReg (a.regAlloc i).x86Reg i (a.regAlloc i).is64bit] :=
      if_pos hd
    dsimp only at hnone
    rw [hstore] at hnone
    cases hnone
  · obtain rfl := Option.some.inj (hi.symm.trans hj)
    rw [hsome, hw, List.cons_append, List.nil_append, List.flatten_cons] at hat
    have hstuck : (Semantics.core undef rest).step code m = none :=
      step_store_unmapped (BitVec.not_lt.mp hx) hat.left (h13 i)
    obtain ⟨m', hrun, hq⟩ := hreach
    rw [runs_of_stuck hstuck hrun] at hq
    exact Nat.lt_irrefl _ (hQ m hq)

/-- Where nothing is mapped, the home cannot be read. -/
theorem step_load_unmapped {x : Byte} (hat : At code m.pos (emitLoadArmReg r x w))
    (hmem : m.mem (slotAddr (m.regs 5) r) = none) : (Semantics.core undef rest).step code m = none := by
  have hbytes : 0 < widthBytes w := by cases w <;> decide
  have hload : Sparse.load m.mem (slotAddr (m.regs 5) r) (widthBytes w) = none := by
    apply Sparse.load_eq_none hbytes
    rwa [BitVec.add_zero]
  have hread : ∀ m : Machine, m.read (opSizeOf w) (.mem (some 5) none (BitVec.ofNat 64 (8 * r))) =
      (m.address (.mem (some 5) none (BitVec.ofNat 64 (8 * r)))).bind
        fun a ↦ (m.load a (widthBytes w)).bind fun bs ↦ some (Machine.value bs) := by
    intro m
    cases w <;> rfl
  have hnone : movAt w (.reg (loadedReg x w)) (.mem (some 5) none (BitVec.ofNat 64 (8 * r)))
      { m with pos := m.pos + (emitLoadArmReg r x w).length } = none := by
    rw [movAt, hread, address_slot, Option.bind_some, Machine.load_eq, hload]
    rfl
  rw [Semantics.step_chunk (loadChunk r x w) hat]
  exact (core_mov w _ _ _).trans hnone

/-- Nor written. -/
theorem step_store_slot_unmapped {x : Byte} (hx : (w && decide (8 ≤ x)) = false)
    (hat : At code m.pos (emitStoreArmReg x r w)) (hmem : m.mem (slotAddr (m.regs 5) r) = none) :
    (Semantics.core undef rest).step code m = none := by
  have hbytes : 0 < widthBytes w := by cases w <;> decide
  have hload : Sparse.load m.mem (slotAddr (m.regs 5) r) (widthBytes w) = none := by
    apply Sparse.load_eq_none hbytes
    rwa [BitVec.add_zero]
  have hwrite : ∀ (m : Machine) v, m.write (opSizeOf w) v (.mem (some 5) none (BitVec.ofNat 64 (8 * r))) =
      (m.address (.mem (some 5) none (BitVec.ofNat 64 (8 * r)))).bind
        fun a ↦ m.store a (Machine.bytes v (widthBytes w)) := by
    intro m v
    cases w <;> rfl
  rw [step_store hat, storeLoc, hx, movAt, read_reg, Option.bind_some]
  refine (hwrite _ _).trans ?_
  rw [address_slot, Option.bind_some, Machine.store_eq, Sparse.store, Machine.length_bytes, hload]
  rfl

/-- A request where the home is not. -/
theorem not_reaches_request (ha : a.Drawn) {Q : Machine → Prop} (hQ : ∀ m₁, Q m₁ → m.pos < m₁.pos)
    (h5 : ∀ j, m.mem (slotAddr (m.regs 5) j) = none) (h13 : ∀ j, m.mem (slotAddr (m.regs 13) j) = none)
    (hat : At code m.pos (a.writeBack ++ [emitLoadArmReg r a.nextReg w]).flatten) :
    ¬ Reaches (Semantics.core undef rest) code m Q := by
  have hstuck : (Semantics.core undef rest).step code m = none := by
    rcases Alloc.writeBack_cases ha with hnone | ⟨i, -, -, -, -, -, hsome⟩
    · rw [hnone, List.nil_append, List.flatten_cons] at hat
      exact step_load_unmapped hat.left (h5 r)
    · rw [hsome, List.cons_append, List.nil_append, List.flatten_cons] at hat
      generalize (a.regAlloc i).is64bit = w' at hat
      by_cases hx : (w' && decide (8 ≤ a.nextReg)) = false
      · exact step_store_slot_unmapped hx hat.left (h5 i)
      · rw [Bool.not_eq_false, Bool.and_eq_true, decide_eq_true_eq] at hx
        rw [hx.1] at hat
        exact step_store_unmapped hx.2 hat.left (h13 i)
  rintro ⟨m', hrun, hq⟩
  rw [runs_of_stuck hstuck hrun] at hq
  exact Nat.lt_irrefl _ (hQ m hq)

end Runs

end Arm2x86.Translate
