import Arm2x86.Base.History
import Mathlib.Data.BitVec
import Mathlib.Data.List.Induction

/-!
# The profile of hot blocks

`arm2x86_profile_record_hit`, `arm2x86_profile_check` and `arm2x86_retranslate_hot_block` of
`modules/arm2x86_syscall.c:1235`, each under one lock. The table has room for the first 256 addresses
that are hit, and its counters wrap round.
-/

namespace Arm2x86.Syscall.Profile

/-- `MAX_HOT_BLOCKS`. -/
def maxHotBlocks : Nat := 256

/-- `ARM2X86_HOT_THRESHOLD`. -/
def hotThreshold : BitVec 32 := 100

/-- `HotBlockInfo`, `arm2x86.h:938`. Nothing reads or writes its `x86_entry`. -/
structure HotBlockInfo where
  armPc : BitVec 64
  hitCount : BitVec 32
  retranslated : Bool
  flags : BitVec 32
deriving DecidableEq

/-- The table up to `g_hot_block_count`. -/
abbrev Table := List HotBlockInfo

/-- `arm2x86_profile_record_hit`. -/
def recordHit (t : Table) (armPc : BitVec 64) : Table :=
  match t.findIdx? fun b ↦ b.armPc = armPc with
  | some i => t.modify i fun b ↦ { b with hitCount := b.hitCount + 1 }
  | none => if t.length < maxHotBlocks then t ++ [⟨armPc, 1, false, 0⟩] else t

/-- A block is hot and was not translated again. -/
def HotBlockInfo.isDue (b : HotBlockInfo) : Bool := b.hitCount > hotThreshold && !b.retranslated

/-- `arm2x86_profile_check`. -/
def profileCheck (t : Table) (armPc : BitVec 64) : Bool :=
  (t.find? fun b ↦ b.armPc = armPc).any HotBlockInfo.isDue

/-- `arm2x86_retranslate_hot_block`: the table, and the address and the hits that it reports. -/
def retranslateHotBlock (t : Table) (armPc : BitVec 64) (ctx : Bool) :
    Table × Option (BitVec 64 × BitVec 32) :=
  if ctx then
    match t.findIdx? fun b ↦ b.armPc = armPc && b.isDue with
    | some i =>
      (t.modify i fun b ↦ { b with retranslated := true, flags := b.flags ||| 1 },
        t[i]?.map fun b ↦ (armPc, b.hitCount))
    | none => (t, none)
  else (t, none)

/-! ## Histories -/

/-- A call of one of the functions. Every order of the calls of the threads is such a list. -/
inductive Call
  | recordHit (armPc : BitVec 64)
  | check (armPc : BitVec 64)
  | retranslate (armPc : BitVec 64) (ctx : Bool)
deriving DecidableEq

/-- The table with what was reported, the last report last. -/
structure State where
  table : Table
  reports : List (BitVec 64 × BitVec 32)

def State.step (s : State) : Call → State
  | .recordHit armPc => { s with table := recordHit s.table armPc }
  | .check _ => s
  | .retranslate armPc ctx =>
    let (table, report) := retranslateHotBlock s.table armPc ctx
    ⟨table, s.reports ++ report.toList⟩

/-- The state after some calls. -/
def run (calls : List Call) : State := calls.foldl State.step ⟨[], []⟩

/-- The addresses that were hit, in order. -/
def hitPcs (calls : List Call) : List (BitVec 64) :=
  calls.filterMap fun
    | .recordHit armPc => some armPc
    | _ => none

/-- How often an address was hit. -/
def hits (calls : List Call) (armPc : BitVec 64) : Nat := (hitPcs calls).count armPc

/-- The addresses that the table has room for. -/
def tracked (calls : List Call) : List (BitVec 64) := History.firsts maxHotBlocks (hitPcs calls)

/-- The counter of a tracked address is above the threshold. -/
def Hot (calls : List Call) (armPc : BitVec 64) : Prop :=
  armPc ∈ tracked calls ∧ 100 < hits calls armPc % 2 ^ 32

/-- An address was hot when it was asked to be translated again. -/
def Marked (calls : List Call) (armPc : BitVec 64) : Prop :=
  ∃ before after, calls = before ++ .retranslate armPc true :: after ∧ Hot before armPc

/-- What the table says after some calls. -/
structure Profiles (calls : List Call) : Prop where
  /-- A block is due while its counter is above the threshold, until it is marked. -/
  check : ∀ pc, profileCheck (run calls).table pc = true ↔ Hot calls pc ∧ ¬ Marked calls pc
  /-- Every marked block is reported, and no block twice. -/
  reported : ∀ pc, pc ∈ (run calls).reports.map Prod.fst ↔ Marked calls pc
  once : ((run calls).reports.map Prod.fst).Nodup
  /-- The table never has more blocks than it has room for. -/
  bounded : (run calls).table.length ≤ maxHotBlocks

open Classical in
/-- What the calls leave of an address. -/
noncomputable def entry (calls : List Call) (armPc : BitVec 64) : HotBlockInfo where
  armPc := armPc
  hitCount := BitVec.ofNat 32 (hits calls armPc)
  retranslated := decide (Marked calls armPc)
  flags := if Marked calls armPc then 1 else 0

/-- What every call keeps: the table is that of the calls, and so is what was reported. -/
structure Inv (calls : List Call) (s : State) : Prop where
  table : s.table = (tracked calls).map (entry calls)
  reported : ∀ pc, pc ∈ s.reports.map Prod.fst ↔ Marked calls pc
  once : (s.reports.map Prod.fst).Nodup

variable {calls : List Call} {s : State} {pc pc' : BitVec 64}

theorem run_concat (calls : List Call) (c : Call) : run (calls ++ [c]) = (run calls).step c := by
  rw [run, List.foldl_append]
  rfl

theorem nodup_tracked (calls : List Call) : (tracked calls).Nodup := History.nodup_firsts _ _

theorem length_tracked_le (calls : List Call) : (tracked calls).length ≤ maxHotBlocks :=
  List.length_take_le _ _

section Concat

variable (calls : List Call)

theorem hitPcs_concat (c : Call) : hitPcs (calls ++ [c]) = hitPcs calls ++ hitPcs [c] :=
  List.filterMap_append

theorem hits_recordHit : hits (calls ++ [.recordHit pc]) pc' =
    hits calls pc' + if pc = pc' then 1 else 0 := by
  have hlast : hitPcs [.recordHit pc] = [pc] := rfl
  rw [hits, hitPcs_concat, List.count_append, hlast, List.count_singleton, ← hits]
  simp

theorem marked_concat (c : Call) : Marked (calls ++ [c]) pc ↔
    Marked calls pc ∨ c = .retranslate pc true ∧ Hot calls pc := by
  constructor
  · rintro ⟨before, after, heq, hhot⟩
    rcases List.eq_nil_or_concat' after with rfl | ⟨after, d, rfl⟩
    · obtain ⟨rfl, hlast⟩ := List.append_inj' heq rfl
      exact .inr ⟨List.singleton_inj.mp hlast, hhot⟩
    · rw [← List.cons_append, ← List.append_assoc] at heq
      exact .inl ⟨before, after, (List.append_inj' heq rfl).1, hhot⟩
  · rintro (⟨before, after, rfl, hhot⟩ | ⟨rfl, hhot⟩)
    · exact ⟨before, after ++ [c], by rw [List.append_assoc, List.cons_append], hhot⟩
    · exact ⟨calls, [], rfl, hhot⟩

/-- Only a call for another translation marks an address. -/
theorem marked_concat_other {c : Call} (hc : ∀ pc, c ≠ .retranslate pc true) :
    Marked (calls ++ [c]) pc ↔ Marked calls pc := by
  rw [marked_concat]
  exact or_iff_left fun h ↦ hc pc h.1

end Concat

theorem isDue_entry (calls : List Call) (pc : BitVec 64) :
    (entry calls pc).isDue = true ↔ 100 < hits calls pc % 2 ^ 32 ∧ ¬ Marked calls pc := by
  have hcount : BitVec.ofNat 32 (hits calls pc) > hotThreshold ↔ 100 < hits calls pc % 2 ^ 32 := by
    rw [gt_iff_lt, BitVec.lt_def, BitVec.toNat_ofNat]
    rfl
  rw [HotBlockInfo.isDue, entry, Bool.and_eq_true, decide_eq_true_iff, hcount]
  simp

/-- An address that was hit is tracked while there is room. -/
theorem hits_eq_zero (hroom : (tracked calls).length < maxHotBlocks) (hpc : pc ∉ tracked calls) :
    hits calls pc = 0 := by
  have hall : tracked calls = (hitPcs calls).eraseDups := by
    apply List.take_of_length_le
    rw [tracked, History.firsts, List.length_take] at hroom
    omega
  rw [hall, List.mem_eraseDups] at hpc
  exact List.count_eq_zero.mpr hpc

theorem Marked.hit (h : Marked calls pc) : hits calls pc ≠ 0 := by
  obtain ⟨before, after, rfl, hhot⟩ := h
  have hmem := History.mem_of_mem_firsts hhot.1
  rw [hits, hitPcs, List.filterMap_append, List.count_append]
  have hpos := List.count_pos_iff.mpr hmem
  rw [hitPcs] at hpos
  omega

theorem tracked_recordHit (calls : List Call) (pc : BitVec 64) : tracked (calls ++ [.recordHit pc]) =
    if pc ∈ tracked calls ∨ maxHotBlocks ≤ (tracked calls).length then tracked calls
    else tracked calls ++ [pc] := by
  rw [tracked, hitPcs_concat]
  exact History.firsts_concat maxHotBlocks (hitPcs calls) pc

/-- An entry depends on the hits and on the mark. -/
theorem entry_congr {calls' : List Call} (hhits : hits calls' pc = hits calls pc)
    (hmarked : Marked calls' pc ↔ Marked calls pc) : entry calls' pc = entry calls pc := by
  have hmark : Marked calls' pc = Marked calls pc := propext hmarked
  rw [entry, entry, hhits, hmark]

theorem entry_recordHit_of_ne (calls : List Call) (h : pc' ≠ pc) :
    entry (calls ++ [.recordHit pc]) pc' = entry calls pc' := by
  apply entry_congr
  · rw [hits_recordHit, if_neg h.symm, Nat.add_zero]
  · exact marked_concat_other calls fun _ ↦ Call.noConfusion

theorem entry_recordHit_self (calls : List Call) (pc : BitVec 64) : entry (calls ++ [.recordHit pc]) pc =
    { entry calls pc with hitCount := (entry calls pc).hitCount + 1 } := by
  have hmarked : Marked (calls ++ [.recordHit pc]) pc = Marked calls pc :=
    propext (marked_concat_other calls fun _ ↦ Call.noConfusion)
  have hcount : BitVec.ofNat 32 (hits calls pc + 1) = BitVec.ofNat 32 (hits calls pc) + 1 :=
    BitVec.ofNat_add _ _
  rw [entry, entry, hits_recordHit, if_pos rfl, hcount, hmarked]

theorem findIdx?_table (hinv : Inv calls s) (q : HotBlockInfo → Bool) :
    s.table.findIdx? q = (tracked calls).findIdx? fun pc ↦ q (entry calls pc) := by
  rw [hinv.table, List.findIdx?_map]
  rfl

theorem Inv.recordHit (h : Inv calls s) (pc : BitVec 64) :
    Inv (calls ++ [.recordHit pc]) { s with table := recordHit s.table pc } := by
  have hmarked : ∀ pc', Marked (calls ++ [.recordHit pc]) pc' ↔ Marked calls pc' := fun pc' ↦
    marked_concat_other calls fun _ ↦ Call.noConfusion
  refine ⟨?_, fun pc' ↦ (h.reported pc').trans (hmarked pc').symm, h.once⟩
  have hlength : s.table.length = (tracked calls).length := by rw [h.table, List.length_map]
  have hfind := findIdx?_table h fun b ↦ b.armPc = pc
  show Profile.recordHit s.table pc = _
  unfold Profile.recordHit
  rw [tracked_recordHit]
  split
  · next i hi =>
    rw [hfind, List.findIdx?_eq_some_iff_getElem] at hi
    obtain ⟨hlt, hat, -⟩ := hi
    have hpc : (tracked calls)[i] = pc := of_decide_eq_true hat
    rw [if_pos (Or.inl (hpc ▸ List.getElem_mem hlt)), h.table]
    exact History.map_modify (nodup_tracked calls) (hpc ▸ List.getElem?_eq_getElem hlt)
      (entry_recordHit_self calls pc) fun _ hne ↦ entry_recordHit_of_ne calls hne
  · next hnone =>
    rw [hfind, List.findIdx?_eq_none_iff] at hnone
    have hpc : pc ∉ tracked calls := fun hmem ↦ absurd (hnone pc hmem) (by simp [entry])
    have hothers : (tracked calls).map (entry (calls ++ [.recordHit pc])) =
        (tracked calls).map (entry calls) :=
      List.map_congr_left fun pc' hpc' ↦ entry_recordHit_of_ne calls fun heq ↦ hpc (heq ▸ hpc')
    rw [hlength]
    by_cases hroom : (tracked calls).length < maxHotBlocks
    · have hzero := hits_eq_zero hroom hpc
      have hunmarked : ¬ Marked calls pc := fun hm ↦ hm.hit hzero
      rw [if_pos hroom, if_neg (by rintro (hin | hle); exacts [hpc hin, by omega]), List.map_append,
        hothers, h.table, List.map_singleton, entry_recordHit_self]
      simp [entry, hzero, hunmarked]
    · rw [if_neg hroom, if_pos (Or.inr (by omega)), hothers, h.table]

/-- A call that hits nothing leaves the addresses and their counters. -/
theorem tracked_concat_other (calls : List Call) {c : Call} (hc : hitPcs [c] = []) :
    tracked (calls ++ [c]) = tracked calls ∧ ∀ pc, hits (calls ++ [c]) pc = hits calls pc := by
  have hpcs : hitPcs (calls ++ [c]) = hitPcs calls := by rw [hitPcs_concat, hc, List.append_nil]
  constructor
  · rw [tracked, hpcs, tracked]
  · intro pc
    rw [hits, hpcs, hits]

/-- A call that neither hits nor marks an address leaves the state. -/
theorem Inv.same (h : Inv calls s) {c : Call} (hc : hitPcs [c] = [])
    (hmarked : ∀ pc, Marked (calls ++ [c]) pc ↔ Marked calls pc) : Inv (calls ++ [c]) s := by
  obtain ⟨htracked, hhits⟩ := tracked_concat_other calls hc
  refine ⟨?_, fun pc ↦ (h.reported pc).trans (hmarked pc).symm, h.once⟩
  rw [htracked, h.table]
  exact List.map_congr_left fun pc _ ↦ (entry_congr (hhits pc) (hmarked pc)).symm

theorem Inv.retranslate (h : Inv calls s) (pc : BitVec 64) (ctx : Bool) :
    Inv (calls ++ [.retranslate pc ctx]) (s.step (.retranslate pc ctx)) := by
  cases ctx with
  | false =>
    have hsame := h.same (c := .retranslate pc false) rfl fun pc' ↦
      marked_concat_other calls fun _ heq ↦ by cases heq
    simpa [State.step, retranslateHotBlock] using hsame
  | true =>
    have hfind := findIdx?_table h fun b ↦ b.armPc = pc && b.isDue
    rw [State.step, retranslateHotBlock, if_pos rfl]
    cases hi : s.table.findIdx? fun b ↦ b.armPc = pc && b.isDue with
    | none =>
      rw [hi, eq_comm, List.findIdx?_eq_none_iff] at hfind
      have hsame := h.same (c := .retranslate pc true) rfl fun pc' ↦ by
        rw [marked_concat]
        apply or_iff_left_of_imp
        rintro ⟨heq, htracked, hhot⟩
        obtain ⟨rfl, -⟩ := Call.retranslate.inj heq
        by_contra hunmarked
        have hdue := (isDue_entry calls pc).mpr ⟨hhot, hunmarked⟩
        exact absurd (hfind pc htracked) (by simp [hdue]; rfl)
      simpa using hsame
    | some i =>
      rw [hi, eq_comm, List.findIdx?_eq_some_iff_getElem] at hfind
      obtain ⟨hlt, hat, -⟩ := hfind
      rw [Bool.and_eq_true, decide_eq_true_iff] at hat
      obtain ⟨hpc, hdue⟩ := hat
      have hpc : (tracked calls)[i] = pc := hpc
      rw [hpc, isDue_entry] at hdue
      have hhot : Hot calls pc := ⟨hpc ▸ List.getElem_mem hlt, hdue.1⟩
      have hmarked : ∀ pc', Marked (calls ++ [.retranslate pc true]) pc' ↔ Marked calls pc' ∨ pc' = pc := by
        intro pc'
        rw [marked_concat]
        apply or_congr_right
        constructor
        · rintro ⟨heq, -⟩
          exact (Call.retranslate.inj heq).1.symm
        · rintro rfl
          exact ⟨rfl, hhot⟩
      have hnone : hitPcs [.retranslate pc true] = [] := rfl
      obtain ⟨htracked, hhits⟩ := tracked_concat_other calls hnone
      have hreport : s.table[i]?.map (fun b ↦ (pc, b.hitCount)) =
          some (pc, (entry calls pc).hitCount) := by
        rw [h.table, List.getElem?_map, List.getElem?_eq_getElem hlt, hpc]
        rfl
      dsimp only
      rw [hreport]
      refine ⟨?_, ?_, ?_⟩
      · rw [htracked, h.table]
        apply History.map_modify (nodup_tracked calls) (hpc ▸ List.getElem?_eq_getElem hlt)
        · simp [entry, hhits, hmarked, hdue.2]
        · intro pc' hne
          exact entry_congr (hhits pc') ((hmarked pc').trans (or_iff_left hne))
      · intro pc'
        rw [hmarked, ← h.reported]
        simp
      · simp only [Option.toList_some, List.map_append, List.map_singleton]
        have hnew : pc ∉ s.reports.map Prod.fst := fun hin ↦ hdue.2 ((h.reported pc).mp hin)
        exact List.nodup_append.mpr ⟨h.once, List.nodup_singleton pc, fun a ha b hb ↦
          fun heq ↦ hnew (List.mem_singleton.mp hb ▸ heq ▸ ha)⟩

theorem inv_run (calls : List Call) : Inv calls (run calls) := by
  induction calls using List.reverseRecOn with
  | nil =>
    refine ⟨rfl, fun pc ↦ iff_of_false List.not_mem_nil ?_, List.nodup_nil⟩
    rintro ⟨before, after, heq, -⟩
    simp at heq
  | append_singleton calls c ih =>
    rw [run_concat]
    cases c with
    | recordHit pc => exact ih.recordHit pc
    | check pc => exact ih.same rfl fun pc' ↦ marked_concat_other calls fun _ ↦ Call.noConfusion
    | retranslate pc ctx => exact ih.retranslate pc ctx

theorem Inv.profileCheck_iff (h : Inv calls s) (pc : BitVec 64) :
    profileCheck s.table pc = true ↔ Hot calls pc ∧ ¬ Marked calls pc := by
  rw [profileCheck, h.table, List.find?_map]
  cases hfind : (tracked calls).find? ((fun b : HotBlockInfo ↦ decide (b.armPc = pc)) ∘ entry calls) with
  | none =>
    have hpc : pc ∉ tracked calls := fun hmem ↦
      absurd (List.find?_eq_none.mp hfind pc hmem) (by simp [entry])
    exact iff_of_false Bool.false_ne_true fun hhot ↦ hpc hhot.1.1
  | some q =>
    have hfound := List.find?_some hfind
    obtain rfl : q = pc := of_decide_eq_true hfound
    have hmem := List.mem_of_find?_eq_some hfind
    rw [Option.map_some, Option.any_some, isDue_entry]
    constructor
    · rintro ⟨hcount, hunmarked⟩
      exact ⟨⟨hmem, hcount⟩, hunmarked⟩
    · rintro ⟨⟨-, hcount⟩, hunmarked⟩
      exact ⟨hcount, hunmarked⟩

/-- In every order of the calls the table profiles the first addresses that are hit, and a hot block is
asked for once. -/
theorem profiles_run (calls : List Call) : Profiles calls := by
  have hinv := inv_run calls
  refine ⟨hinv.profileCheck_iff, hinv.reported, hinv.once, ?_⟩
  rw [hinv.table, List.length_map]
  exact length_tracked_le calls

end Arm2x86.Syscall.Profile
