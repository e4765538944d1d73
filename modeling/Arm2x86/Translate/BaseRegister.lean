import Arm2x86.Translate.Exclusive
import Arm2x86.Translate.WritesVector

/-!
# The base of the register home

`RBP` is the base of every access to the register home, and the register `X29` is pinned to. A
block leaves it alone behind its prologue exactly as long as the allocator is not asked for a
register while `X29` is the one to spill, no two-operand instruction uses `X29` as a source that
the emitted code overwrites, and no vector instruction with a misspelt encoding names it.
-/

namespace Arm2x86.Translate

open X86 Alloc

section Pinned

variable {a : Alloc} {r : ArmReg}

/-- Whether `X29` is cached in `RBP`. -/
def Alloc.inRbp (a : Alloc) : Bool := (a.regAlloc 29).x86Reg == rbp

/-- The host registers the allocator deals with. -/
def hostRegs : List Byte := rbp :: regAllocMap

/-- As long as `RBP` has not been handed on: it is not in the pool, and only `X29` has it. -/
structure Alloc.Pinned (a : Alloc) : Prop where
  wellFormed : a.WellFormed
  free_mem : ∀ x ∈ a.freeStack, x ∈ regAllocMap
  held_mem : ∀ r, a.cached r → (a.regAlloc r).x86Reg ∈ regAllocMap ∨
    r = 29 ∧ (a.regAlloc r).x86Reg = rbp

/-- Whether a request evicts `X29` from `RBP`: the requested register is not cached, nothing is
free, and `X29` is the first cached register of least priority. -/
def evictsBase (a : Alloc) (r : ArmReg) : Bool :=
  !a.cached r && a.freeRegCount == 0 && a.inRbp &&
    ([24, 25, 26, 27, 28] : List ArmReg).all fun j ↦ !a.cached j

theorem rbp_notMem_regAllocMap : rbp ∉ regAllocMap := by decide

theorem Alloc.Pinned.hostReg (h : a.Pinned) (hr : a.cached r) : (a.regAlloc r).x86Reg ∈ hostRegs := by
  rcases h.held_mem r hr with hx | ⟨-, hx⟩
  · exact List.mem_cons_of_mem _ hx
  · exact hx ▸ List.mem_cons_self

theorem Alloc.Pinned.eq_rbp_iff (h : a.Pinned) (hr : a.cached r) :
    (a.regAlloc r).x86Reg = rbp ↔ r = 29 ∧ a.inRbp := by
  constructor
  · intro hx
    rcases h.held_mem r hr with hmem | ⟨rfl, -⟩
    · exact absurd (hx ▸ hmem) rbp_notMem_regAllocMap
    · exact ⟨rfl, by simpa [inRbp] using hx⟩
  · rintro ⟨rfl, hx⟩
    simpa [inRbp] using hx

/-- The victim of a spill is `X29` exactly when it is cached and none of `X24` to `X28` is. -/
theorem spillIdx_eq_29_iff (h : a.WellFormed) {i : ArmReg} (hi : spillIdx a = some i)
    (h29 : a.cached 29) :
    i = 29 ↔ ([24, 25, 26, 27, 28] : List ArmReg).all fun j ↦ !a.cached j := by
  obtain ⟨k, hk, hci, hmin, hfirst⟩ := spillIdx_spec h
  obtain rfl : k = i := Option.some.inj (hk.symm.trans hi)
  have hprio : ∀ j ∈ ([24, 25, 26, 27, 28] : List ArmReg), j < 29 ∧ armRegPriority j = 30 := by
    decide
  have hlow : ∀ j : ArmReg, armRegPriority j ≤ 30 → j ≤ 29 →
      j ∈ ([24, 25, 26, 27, 28] : List ArmReg) ∨ j = 29 := by decide
  rw [List.all_eq_true]
  constructor
  · rintro rfl j hj
    by_contra hcj
    have hlt := hfirst j (hprio j hj).1 (by simpa using hcj)
    rw [(hprio j hj).2] at hlt
    exact absurd hlt (by decide)
  · intro hnone
    have hle := hmin 29 h29
    have h29k : k ≤ 29 := by
      by_contra hgt
      have hleast : ∀ j : ArmReg, armRegPriority 29 ≤ armRegPriority j := by decide
      exact absurd (hfirst 29 (Fin.not_le.mp hgt) h29) (Nat.not_lt.mpr (hleast k))
    rcases hlow k hle h29k with hmem | rfl
    · exact absurd hci (by simpa using hnone k hmem)
    · rfl

/-- A load into a register of the pool. -/
theorem writesRbp_load_pool (r : ArmReg) {x : Byte} (hx : x ∈ regAllocMap) (w : Bool) :
    writesRbp (emitLoadArmReg r x w) = false := by
  simp only [regAllocMap, List.mem_cons, List.not_mem_nil, or_false] at hx
  rcases hx with rfl | rfl | rfl | rfl | rfl | rfl | rfl | rfl | rfl <;> cases w <;> rfl

/-- A store to the register home. -/
theorem writesRbp_store_host (r : ArmReg) {x : Byte} (hx : x ∈ hostRegs) (w : Bool) :
    writesRbp (emitStoreArmReg x r w) = false := by
  simp only [hostRegs, regAllocMap, List.mem_cons, List.not_mem_nil, or_false] at hx
  rcases hx with rfl | rfl | rfl | rfl | rfl | rfl | rfl | rfl | rfl | rfl <;> cases w <;> rfl

theorem writesRbp_load_rbp (r : ArmReg) (w : Bool) : writesRbp (emitLoadArmReg r rbp w) = true := by
  cases w <;> rfl

theorem keeps_storeIfDirty (h : a.Pinned) (hr : a.cached r) : keeps (storeIfDirty a r) := by
  unfold storeIfDirty
  split
  · simp [writesRbp_store_host _ (h.hostReg hr)]
  · rfl

@[simp] theorem x86Reg_setDirty (a : Alloc) (r j : ArmReg) (d : Bool) :
    ((a.setDirty r d).regAlloc j).x86Reg = (a.regAlloc j).x86Reg := by
  by_cases h : j = r
  · subst h
    simp [Alloc.setDirty]
  · simp [Alloc.setDirty, h]

theorem cached_iff (a : Alloc) (r : ArmReg) : a.cached r ↔ (a.regAlloc r).x86Reg ≠ noReg := by
  simp [Alloc.cached]

theorem Alloc.Pinned.setDirty (h : a.Pinned) (r : ArmReg) (d : Bool) : (a.setDirty r d).Pinned := by
  refine ⟨h.wellFormed.setDirty r d, h.free_mem, fun j hj ↦ ?_⟩
  rw [cached_iff, x86Reg_setDirty, ← cached_iff] at hj
  rw [x86Reg_setDirty]
  exact h.held_mem j hj

theorem x86Reg_place (a : Alloc) (r j : ArmReg) (x : Byte) (w d : Bool) :
    ((regAllocPlace a r x w d).1.regAlloc j).x86Reg = if j = r then x else (a.regAlloc j).x86Reg := by
  have hassign : ((regAllocAssign a r x w).regAlloc j).x86Reg =
      if j = r then x else (a.regAlloc j).x86Reg := by
    by_cases h : j = r <;> simp [regAllocAssign, h]
  unfold regAllocPlace
  cases d
  · exact hassign
  · exact (x86Reg_setDirty _ _ _ _).trans hassign

theorem x86Reg_evict (a : Alloc) (i j : ArmReg) :
    ((a.evict i).regAlloc j).x86Reg = if j = i then noReg else (a.regAlloc j).x86Reg := by
  by_cases h : j = i
  · subst h
    simp [Alloc.evict, Alloc.setX86Reg]
  · simp [Alloc.evict, Alloc.setX86Reg, h]

/-- `X29` is in `RBP` only while it is cached. -/
theorem inRbp_eq_false_of_not_cached (h : ¬ a.cached 29) : a.inRbp = false := by
  rw [cached_iff, not_not] at h
  unfold Alloc.inRbp
  rw [h]
  rfl

/-- Giving a register of the pool to a guest register that has none. -/
theorem pinned_place {b : Alloc} {x : Byte} {w d : Bool}
    (hwf : (regAllocPlace b r x w d).1.WellFormed) (hx : x ∈ regAllocMap)
    (hfree : ∀ y ∈ b.freeStack, y ∈ regAllocMap)
    (hheld : ∀ j, b.cached j → (b.regAlloc j).x86Reg ∈ regAllocMap ∨
      j = 29 ∧ (b.regAlloc j).x86Reg = rbp) (hr : ¬ a.cached r) (hin : b.inRbp = a.inRbp) :
    (regAllocPlace b r x w d).1.Pinned ∧ (regAllocPlace b r x w d).1.inRbp = a.inRbp := by
  refine ⟨⟨hwf, fun y hy ↦ hfree y (by rwa [freeStack_place] at hy), fun j hj ↦ ?_⟩, ?_⟩
  · rw [x86Reg_place]
    by_cases hjr : j = r
    · rw [if_pos hjr]
      exact Or.inl hx
    · rw [cached_iff, x86Reg_place, if_neg hjr, ← cached_iff] at hj
      rw [if_neg hjr]
      exact hheld j hj
  · by_cases hr29 : r = 29
    · have hne : x ≠ rbp := fun he ↦ rbp_notMem_regAllocMap (he ▸ hx)
      rw [hr29] at hr
      rw [inRbp_eq_false_of_not_cached hr, Alloc.inRbp, x86Reg_place, if_pos hr29.symm]
      exact beq_false_of_ne hne
    · rw [← hin, Alloc.inRbp, x86Reg_place, if_neg fun he ↦ hr29 he.symm, Alloc.inRbp]

/-- The victim of a spill that does not evict `X29` from `RBP` gives up a register of the pool. -/
theorem victim_mem (h : a.Pinned) (hev : evictsBase a r = false) (hr : ¬ a.cached r)
    (hc : a.freeRegCount = 0) {i : ArmReg} (hi : spillIdx a = some i) (hci : a.cached i) :
    (a.regAlloc i).x86Reg ∈ regAllocMap := by
  rcases h.held_mem i hci with hmem | ⟨rfl, hx⟩
  · exact hmem
  · have hnone := (spillIdx_eq_29_iff h.wellFormed hi hci).mp rfl
    have hin : a.inRbp := by simpa [Alloc.inRbp] using hx
    simp [evictsBase, hr, hc, hin, hnone] at hev

private theorem pool_eq_rbp_iff {x : Byte} (hx : x ∈ regAllocMap) (hr : ¬ a.cached r) :
    x = rbp ↔ r = 29 ∧ a.inRbp := by
  constructor
  · rintro rfl
    exact absurd hx rbp_notMem_regAllocMap
  · rintro ⟨rfl, hin⟩
    rw [inRbp_eq_false_of_not_cached hr] at hin
    cases hin

/-- A request that does not evict `X29` from `RBP` keeps it pinned, emits no write to `RBP`, and
returns `RBP` only for `X29`. -/
theorem regAllocGetReg_pinned (h : a.Pinned) (hev : evictsBase a r = false) (w d : Bool) :
    let p := regAllocGetReg a r w d
    p.1.Pinned ∧ p.1.inRbp = a.inRbp ∧ keeps p.2.code ∧ p.2.x86Reg ∈ hostRegs ∧
      (p.2.x86Reg = rbp ↔ r = 29 ∧ a.inRbp) := by
  have hwf := regAllocGetReg_wellFormed h.wellFormed r w d
  rcases regAllocGetReg_cases h.wellFormed r w d with ⟨hr, he⟩ | ⟨b, x, hr, hpos, hx, rfl, rfl, he⟩ |
    ⟨i, hr, hc, hi, hci, he⟩
  · rw [he] at hwf ⊢
    refine ⟨?_, ?_, rfl, h.hostReg hr, h.eq_rbp_iff hr⟩
    · cases d
      · exact h
      · exact h.setDirty r true
    · cases d <;> simp [Alloc.inRbp]
  · rw [he] at hwf ⊢
    have hmem : a.freeRegs (a.freeRegCount - 1) ∈ regAllocMap :=
      h.free_mem _ (by rw [freeStack_pop hpos]; simp)
    obtain ⟨hp, hin⟩ := pinned_place (a := a) hwf hmem
      (fun y hy ↦ h.free_mem y (by rw [freeStack_pop hpos]; exact List.mem_append_left _ hy))
      h.held_mem hr rfl
    refine ⟨hp, hin, by simp [writesRbp_load_pool r hmem], List.mem_cons_of_mem _ hmem, ?_⟩
    exact pool_eq_rbp_iff hmem hr
  · rw [he] at hwf ⊢
    have hmem := victim_mem h hev hr hc hi hci
    have hne : ∀ {j}, (a.evict i).cached j → j ≠ i := by
      rintro j hj rfl
      exact (cached_iff _ _).mp hj ((x86Reg_evict a j j).trans (if_pos rfl))
    have hheld : ∀ j, (a.evict i).cached j → ((a.evict i).regAlloc j).x86Reg ∈ regAllocMap ∨
        j = 29 ∧ ((a.evict i).regAlloc j).x86Reg = rbp := by
      intro j hj
      have hji := hne hj
      rw [cached_iff, x86Reg_evict, if_neg hji, ← cached_iff] at hj
      rw [x86Reg_evict, if_neg hji]
      exact h.held_mem j hj
    have hin : (a.evict i).inRbp = a.inRbp := by
      unfold Alloc.inRbp
      rw [x86Reg_evict]
      split
      · next h29 =>
        have hx : (a.regAlloc 29).x86Reg ≠ rbp := fun hx ↦ rbp_notMem_regAllocMap (hx ▸ h29 ▸ hmem)
        rw [beq_false_of_ne hx]
        rfl
      · rfl
    obtain ⟨hp, hin⟩ := pinned_place (a := a) hwf hmem
      (by simp [Alloc.freeStack, Alloc.evict, Alloc.setX86Reg, hc]) hheld hr hin
    refine ⟨hp, hin, ?_, List.mem_cons_of_mem _ hmem, pool_eq_rbp_iff hmem hr⟩
    rw [keeps_append, keeps_storeIfDirty h hci]
    simp [writesRbp_load_pool r hmem]

/-- The load of `X29` behind the prologue. -/
def reload : Code := emitLoadArmReg 29 rbp true

/-- An instruction that writes `RBP` and is not the load behind the prologue. -/
def Clobbers (c : Code) : Prop := writesRbp c ∧ c ≠ reload

/-- A request that evicts `X29` from `RBP` loads another guest register into it. -/
theorem regAllocGetReg_evicts (h : a.Pinned) (hev : evictsBase a r) (w d : Bool) :
    ∃ c ∈ (regAllocGetReg a r w d).2.code, Clobbers c := by
  simp only [evictsBase, Bool.and_eq_true, Bool.not_eq_true', beq_iff_eq] at hev
  obtain ⟨⟨⟨hr, hc⟩, hin⟩, hnone⟩ := hev
  have hx : (a.regAlloc 29).x86Reg = rbp := by simpa [Alloc.inRbp] using hin
  have h29 : a.cached 29 := by
    rw [cached_iff, hx]
    decide
  have hne : ∀ r : ArmReg, r ≠ 29 → ∀ w, emitLoadArmReg r rbp w ≠ reload := by decide
  rcases regAllocGetReg_cases h.wellFormed r w d with ⟨hr', -⟩ | ⟨b, x, -, hpos, -⟩ |
    ⟨i, -, -, hi, -, he⟩
  · rw [hr] at hr'
    cases hr'
  · omega
  · obtain rfl := (spillIdx_eq_29_iff h.wellFormed hi h29).mpr hnone
    refine ⟨emitLoadArmReg r rbp w, ?_, writesRbp_load_rbp r w, hne r ?_ w⟩
    · rw [he, hx]
      exact List.mem_append_right _ List.mem_cons_self
    · rintro rfl
      rw [hr] at h29
      cases h29

/-- The allocator calls of `translate_mov_imm`: `MOVZ` of `X29` takes it out of `RBP`, which then
belongs to no guest register. -/
theorem regAllocTakeFor_pinned (h : a.Pinned) (rd : ArmReg) (w : Bool) :
    (regAllocTakeFor a rd w).1.Pinned ∧
      ((regAllocTakeFor a rd w).2 = noReg ∨ (regAllocTakeFor a rd w).2 ∈ regAllocMap) := by
  have hwf := regAllocTakeFor_wellFormed h.wellFormed rd w
  unfold regAllocTakeFor at hwf ⊢
  rcases regAllocGetFree_cases h.wellFormed with ⟨-, hfree⟩ | ⟨hpos, hne, hfree⟩
  · simp only [hfree, bne_self_eq_false, Bool.false_eq_true, if_false]
    exact ⟨h, Or.inl trivial⟩
  · have hmem : a.freeRegs (a.freeRegCount - 1) ∈ regAllocMap :=
      h.free_mem _ (by rw [freeStack_pop hpos]; simp)
    simp only [hfree, bne_iff_ne, ne_eq, hne, not_false_eq_true, if_true] at hwf ⊢
    refine ⟨⟨hwf, fun y hy ↦ h.free_mem y ?_, fun j hj ↦ ?_⟩, Or.inr hmem⟩
    · rw [freeStack_pop hpos]
      exact List.mem_append_left _ hy
    · rw [cached_iff, x86Reg_setDirty] at hj
      rw [x86Reg_setDirty]
      by_cases hjr : j = rd
      · subst hjr
        simp [regAllocAssign, hmem]
      · simp only [regAllocAssign, Function.update_of_ne hjr] at hj ⊢
        exact h.held_mem j ((cached_iff a j).mpr hj)

/-- Batch stores keep `RBP`. -/
theorem regAllocEmitBatchStore_pinned (h : a.Pinned) (live : List ArmReg) :
    (regAllocEmitBatchStore a live).1.Pinned ∧ keeps (regAllocEmitBatchStore a live).2 := by
  induction live generalizing a with
  | nil => exact ⟨h, rfl⟩
  | cons r rs ih =>
    unfold regAllocEmitBatchStore
    split
    · next hr =>
      rw [Bool.and_eq_true] at hr
      have hd := h.setDirty r false
      refine ⟨(ih hd).1, ?_⟩
      rw [keeps_append, keeps_storeIfDirty h hr.1, (ih hd).2]
      rfl
    · exact ih h

end Pinned

section Operations

variable {a : Alloc} {op : BitVec 32}

/-- The helpers put the destination in the `reg` field of an opcode that writes `rm`, so it is the
source that is written. -/
theorem writesRbp_regReg {opcode dest src : Byte} (h : opcode = 0x89 ∨ opcode ∈ aluOpcodes)
    (hs : src ∈ hostRegs) : writesRbp (regReg opcode dest src) = (src == rbp) := by
  have key : ∀ s ∈ hostRegs, [toGpr s].contains 5 = (s == rbp) := by decide
  rw [← key src hs]
  rcases h with rfl | h
  · have hd := decode_movR64R64 dest src []
    rw [List.append_nil] at hd
    exact writesRbp_of_decode hd
  · have hne : ∀ o ∈ aluOpcodes, aluOp (o.extractLsb' 3 3) ≠ .cmp := by decide
    have hd := decode_regReg dest src [] h
    rw [List.append_nil] at hd
    rw [writesRbp_of_decode hd, Instr.dests, if_neg (hne opcode h)]
    rfl

theorem writesRbp_notR64 {reg : Byte} (h : reg ∈ hostRegs) :
    writesRbp (notR64 reg) = (reg == rbp) := by
  have key : ∀ x ∈ hostRegs, [toGpr x].contains 5 = (x == rbp) := by decide
  have hd := decode_notR64 [] reg
  rw [List.append_nil] at hd
  rw [← key reg h]
  exact writesRbp_of_decode hd

/-- Whether an addition, subtraction or logical instruction leaves `RBP` alone: none of its
requests evicts `X29` from it, and `X29` in it is not a source the code overwrites. -/
def keepsBaseAlu (a : Alloc) (op : BitVec 32) : Bool :=
  let w := is64 op
  let rn := armReg op 5
  let rm := armReg op 16
  let rd := armReg op 0
  let a₁ := (regAllocGetReg a rn w false).1
  let a₂ := (regAllocGetReg a₁ rm w false).1
  !evictsBase a rn && !evictsBase a₁ rm && !evictsBase a₂ rd &&
    !(a.inRbp && (rm == 29 || rn == 29 && rd != 29))

/-- The body of the two allocating translators: three requests, a copy of the first source unless
it is the destination, and some instructions on the destination and the second source. -/
def allocatingAlu (combine : Byte → Byte → List Code) (a : Alloc) (op : BitVec 32) :
    Alloc × List Code :=
  let w := is64 op
  let (a, rn) := regAllocGetReg a (armReg op 5) w false
  let (a, rm) := regAllocGetReg a (armReg op 16) w false
  let (a, rd) := regAllocGetReg a (armReg op 0) w true
  (a, rn.code ++ rm.code ++ rd.code ++
    ((if rd.x86Reg == rn.x86Reg then [] else [movR64R64 rd.x86Reg rn.x86Reg]) ++
      combine rd.x86Reg rm.x86Reg))

/-- Some code keeps `RBP`, or one of its instructions clobbers it. -/
def Verdict (b : Bool) (code : List Code) : Prop :=
  (b → keeps code) ∧ (b = false → ∃ c ∈ code, Clobbers c)

/-- Code without the load behind the prologue either keeps `RBP` or clobbers it. -/
theorem verdict_of_notMem {b : Bool} {code : List Code} (h : keeps code = b) (hne : reload ∉ code) :
    Verdict b code := by
  refine ⟨fun hb ↦ h.trans hb, fun hb ↦ ?_⟩
  rw [hb] at h
  simp only [keeps, List.all_eq_false, Bool.not_eq_true, Bool.not_eq_false'] at h
  obtain ⟨c, hc, hw⟩ := h
  exact ⟨c, hc, hw, fun he ↦ hne (he ▸ hc)⟩

theorem reload_eq : reload = [0x48, 0x8b, 0xad, 0xe8, 0x00, 0x00, 0x00] := by decide

theorem clobbers_movR64R64 (d : Byte) : Clobbers (movR64R64 d rbp) :=
  ⟨writesRbp_regReg (Or.inl rfl) (by decide), fun h ↦ nomatch congrArg List.length h⟩

/-- What the last instructions of the allocating translators do to `RBP`. -/
def CombineSpec (combine : Byte → Byte → List Code) : Prop :=
  ∀ d m, m ∈ hostRegs → Verdict (m != rbp) (combine d m)

/-- The instructions behind the requests of the allocating translators, by the guest registers
whose host registers they name. -/
private theorem verdict_operands {combine : Byte → Byte → List Code} (hcomb : CombineSpec combine)
    {rn rm rd : ArmReg} {xn xm xd : Byte} {inRbp : Bool} (hxn : xn ∈ hostRegs)
    (hxm : xm ∈ hostRegs) (hn : xn = rbp ↔ rn = 29 ∧ inRbp) (hm : xm = rbp ↔ rm = 29 ∧ inRbp)
    (hd : xd = rbp ↔ rd = 29 ∧ inRbp) :
    Verdict (!(inRbp && (rm == 29 || rn == 29 && rd != 29)))
      ((if xd == xn then [] else [movR64R64 xd xn]) ++ combine xd xm) := by
  by_cases h₁ : xm = rbp
  · -- the second source is overwritten
    obtain ⟨hrm, hin⟩ := hm.mp h₁
    obtain ⟨c, hc, hcl⟩ := (hcomb xd xm hxm).2 (by simp [h₁])
    exact ⟨by simp [hrm, hin], fun _ ↦ ⟨c, List.mem_append_right _ hc, hcl⟩⟩
  · have hkeeps : keeps (combine xd xm) := (hcomb xd xm hxm).1 (by simpa using h₁)
    by_cases h₂ : xn = rbp ∧ xd ≠ xn
    · -- the copy overwrites the first source
      obtain ⟨rfl, hne⟩ := h₂
      obtain ⟨hrn, hin⟩ := hn.mp rfl
      have hrd : rd ≠ 29 := fun hrd ↦ hne (hd.mpr ⟨hrd, hin⟩)
      refine ⟨by simp [hrn, hin, hrd], fun _ ↦ ⟨movR64R64 xd rbp, ?_, clobbers_movR64R64 xd⟩⟩
      simp [hne]
    · have hmov : keeps (if xd == xn then [] else [movR64R64 xd xn]) := by
        split
        · rfl
        · next hne =>
          have hxr : xn ≠ rbp := fun hx ↦ h₂ ⟨hx, by simpa using hne⟩
          rw [keeps_cons, movR64R64, writesRbp_regReg (Or.inl rfl) hxn, beq_false_of_ne hxr]
          rfl
      refine ⟨fun _ ↦ by rw [keeps_append, hmov, hkeeps]; rfl, fun hb ↦ ?_⟩
      simp only [Bool.not_eq_false', Bool.and_eq_true, Bool.or_eq_true, beq_iff_eq, bne_iff_ne] at hb
      obtain ⟨hin, hrm | ⟨hrn, hrd⟩⟩ := hb
      · exact absurd (hm.mpr ⟨hrm, hin⟩) h₁
      · have hx := hn.mpr ⟨hrn, hin⟩
        refine absurd ⟨hx, fun he ↦ hrd ?_⟩ h₂
        exact (hd.mp (he.trans hx)).1

private theorem exists_append_left {code code' : List Code} (h : ∃ c ∈ code, Clobbers c) :
    ∃ c ∈ code ++ code', Clobbers c := by
  obtain ⟨c, hc, hcl⟩ := h
  exact ⟨c, List.mem_append_left _ hc, hcl⟩

private theorem exists_append_right {code code' : List Code} (h : ∃ c ∈ code', Clobbers c) :
    ∃ c ∈ code ++ code', Clobbers c := by
  obtain ⟨c, hc, hcl⟩ := h
  exact ⟨c, List.mem_append_right _ hc, hcl⟩

/-- The allocating translators keep `RBP` as far as the condition says, and keep it pinned then. -/
theorem allocatingAlu_verdict {combine : Byte → Byte → List Code} (hcomb : CombineSpec combine)
    (h : a.Pinned) (op : BitVec 32) :
    Verdict (keepsBaseAlu a op) (allocatingAlu combine a op).2 ∧
      (keepsBaseAlu a op → (allocatingAlu combine a op).1.Pinned) := by
  unfold keepsBaseAlu allocatingAlu
  generalize is64 op = w
  by_cases hn : evictsBase a (armReg op 5)
  · have hev := regAllocGetReg_evicts h hn w false
    simp only [hn, Bool.not_true, Bool.false_and, Bool.false_eq_true, false_implies, and_true]
    refine ⟨nofun, fun _ ↦ ?_⟩
    exact exists_append_left (exists_append_left (exists_append_left hev))
  rw [Bool.not_eq_true] at hn
  obtain ⟨h₁, hin₁, hcode₁, hmem₁, hiff₁⟩ := regAllocGetReg_pinned h hn w false
  by_cases hm : evictsBase (regAllocGetReg a (armReg op 5) w false).1 (armReg op 16)
  · have hev := regAllocGetReg_evicts h₁ hm w false
    simp only [hn, hm, Bool.not_true, Bool.and_false, Bool.false_and, Bool.false_eq_true,
      false_implies, and_true]
    refine ⟨nofun, fun _ ↦ ?_⟩
    exact exists_append_left (exists_append_left (exists_append_right hev))
  rw [Bool.not_eq_true] at hm
  obtain ⟨h₂, hin₂, hcode₂, hmem₂, hiff₂⟩ := regAllocGetReg_pinned h₁ hm w false
  by_cases hd : evictsBase
      (regAllocGetReg (regAllocGetReg a (armReg op 5) w false).1 (armReg op 16) w false).1
      (armReg op 0)
  · have hev := regAllocGetReg_evicts h₂ hd w true
    simp only [hn, hm, hd, Bool.not_true, Bool.and_false, Bool.false_and, Bool.false_eq_true,
      false_implies, and_true]
    refine ⟨nofun, fun _ ↦ ?_⟩
    exact exists_append_left (exists_append_right hev)
  rw [Bool.not_eq_true] at hd
  obtain ⟨h₃, -, hcode₃, hmem₃, hiff₃⟩ := regAllocGetReg_pinned h₂ hd w true
  rw [hin₁] at hiff₂
  rw [hin₂, hin₁] at hiff₃
  obtain ⟨hkeep, hclob⟩ := verdict_operands hcomb hmem₁ hmem₂ hiff₁ hiff₂ hiff₃
  simp only [hn, hm, hd, Bool.not_false, Bool.true_and]
  refine ⟨⟨fun hb ↦ ?_, fun hb ↦ exists_append_right (hclob hb)⟩, fun _ ↦ h₃⟩
  rw [keeps_append, keeps_append, keeps_append, hcode₁, hcode₂, hcode₃, hkeep hb]
  rfl

theorem combineSpec_singleton {opcode : Byte} (h : opcode ∈ aluOpcodes) :
    CombineSpec fun d m ↦ [regReg opcode d m] := by
  intro d m hm
  refine verdict_of_notMem ?_ (by simp [regReg, reload_eq])
  rw [keeps_cons, writesRbp_regReg (Or.inr h) hm]
  exact Bool.and_true _

/-- The complement overwrites the second source as the operation behind it does. -/
theorem combineSpec_complement {opcode : Byte} (h : opcode ∈ aluOpcodes) :
    CombineSpec fun d m ↦ [notR64 m, regReg opcode d m] := by
  intro d m hm
  refine verdict_of_notMem ?_ (by simp [regReg, notR64, unaryR64, reload_eq])
  rw [keeps_cons, keeps_cons, writesRbp_regReg (Or.inr h) hm, writesRbp_notR64 hm, keeps_nil,
    Bool.and_true, Bool.and_self]
  rfl

theorem translateAddSub_eq (isSub : Bool) :
    translateAddSub a op isSub =
      allocatingAlu (fun d m ↦ [regReg (if isSub then 0x29 else 0x01) d m]) a op := by
  unfold translateAddSub allocatingAlu
  cases isSub <;>
  · dsimp only
    split <;> simp_all [addR64R64, subR64R64]

/-- The operations of `translate_logical`. -/
def logicalCombine (opcode : BitVec 2) (d m : Byte) : List Code :=
  if opcode == 0 then [andR64R64 d m]
  else if opcode == 1 then [notR64 m, andR64R64 d m]
  else if opcode == 2 then [orR64R64 d m]
  else [notR64 m, orR64R64 d m]

theorem translateLogical_eq :
    translateLogical a op = allocatingAlu (logicalCombine (op.extractLsb' 29 2)) a op := by
  unfold translateLogical allocatingAlu logicalCombine
  dsimp only
  rw [List.append_assoc]
  congr 3
  simp only [bne, Bool.not_eq_true']
  split <;> simp_all

theorem combineSpec_logical (opcode : BitVec 2) : CombineSpec (logicalCombine opcode) := by
  unfold logicalCombine
  split
  · exact combineSpec_singleton (by decide)
  · split
    · exact combineSpec_complement (by decide)
    · split
      · exact combineSpec_singleton (by decide)
      · exact combineSpec_complement (by decide)

theorem keeps_translateMovk (shift : Nat) : keeps (translateMovk op shift) := by
  simp only [translateMovk, keeps_viaRax]
  split <;> split <;> rfl

theorem keeps_movSlot {pre : List Byte} (h : pre = [rexRm 0 0, 0x48] ∨ pre = [rexRm 0 0]) (r : ArmReg)
    (v : BitVec 64) : keeps (movSlot pre r v) := by
  unfold movSlot
  rcases h with rfl | rfl <;> split <;> rfl

/-- `MOVZ`, `MOVN` and `MOVK` never write `RBP`, not even for `X29`. -/
theorem translateMovImm_pinned (h : a.Pinned) (op : BitVec 32) :
    (translateMovImm a op).1.Pinned ∧ keeps (translateMovImm a op).2 := by
  obtain ⟨hp, hx⟩ := regAllocTakeFor_pinned h (armReg op 0) (is64 op)
  simp only [translateMovImm]
  split
  · exact ⟨h, keeps_translateMovk _⟩
  · refine ⟨hp, ?_⟩
    dsimp only
    generalize regAllocTakeFor a (armReg op 0) (is64 op) = p at hx ⊢
    split
    · next hne =>
      have hmem := hx.resolve_left (by simpa using hne)
      rw [keeps_cons, keeps_cons, writesRbp_store_host _ (List.mem_cons_of_mem _ hmem)]
      simp only [regAllocMap, List.mem_cons, List.not_mem_nil, or_false] at hmem
      rcases hmem with h | h | h | h | h | h | h | h | h <;> rw [h] <;> rfl
    · exact keeps_movSlot (Or.inl rfl) _ _

end Operations

end Arm2x86.Translate
