import Arm2x86.Peephole.Bounds
import Arm2x86.X86.LowRegisters

/-!
# What the peephole rules mean

A rule puts some instructions in the place of others. That is right when those that it finds are there
as a whole, and when both leave the same in the registers and in the flags that jumps on conditions
behind them look at.
-/

namespace Arm2x86.Peephole

open X86 Rewriting

/-- The rules by their names. -/
inductive Rule where
  | movZero
  | xorMov
  | addZero
  | subZero
  | cmpZero
  | redundantMov
  | movAdd
deriving DecidableEq, Repr

namespace Rule

def look : Rule → Look (Option Rewrite)
  | movZero => optimizeMovZero
  | xorMov => optimizeXorMov
  | addZero => optimizeAddZero
  | subZero => optimizeSubZero
  | cmpZero => optimizeCmpZero
  | redundantMov => optimizeRedundantMov
  | movAdd => optimizeMovAdd

/-- How many instructions a rule replaces. -/
def replaced : Rule → Nat
  | movAdd => 2
  | _ => 1

/-- How many it looks at behind them and keeps. -/
def kept : Rule → Nat
  | xorMov => 1
  | _ => 0

end Rule

section Flags

/-- The flags that a condition looks at. -/
def reads (cc : BitVec 4) : List Flag :=
  match (cc.extractLsb' 1 3).toNat with
  | 0 => [.overflow]
  | 1 => [.carry]
  | 2 => [.zero]
  | 3 => [.carry, .zero]
  | 4 => [.sign]
  | 5 => [.parity]
  | 6 => [.sign, .overflow]
  | _ => [.zero, .sign, .overflow]

variable {cc : BitVec 4} {ccs : Set (BitVec 4)} {s s' : Status} {f : Flag}

theorem holds_congr (h : ∀ f ∈ reads cc, s'.flag f = s.flag f) : s'.holds cc = s.holds cc := by
  unfold reads at h
  unfold Status.holds
  generalize (cc.extractLsb' 1 3).toNat = k at h ⊢
  rcases k with _ | _ | _ | _ | _ | _ | _ | k <;>
  · simp only [List.forall_mem_cons, Status.flag] at h
    simp only [h]

/-- The adjust flag is looked at by no condition. -/
theorem ne_adjust (h : f ∈ reads cc) : f ∉ ({.adjust} : Set Flag) := by
  rintro rfl
  revert cc
  decide

theorem exists_mem_reads (cc : BitVec 4) : ∃ f, f ∈ reads cc := by
  apply List.exists_mem_of_ne_nil
  revert cc
  decide

/-- Conditions do not look at flags that keep one value whatever they are. -/
theorem eq_empty_of_fixed {t : Status}
    (h : ∀ s : Status, ∀ cc ∈ ccs, ∀ f ∈ reads cc, s.flag f = t.flag f) : ccs = ∅ := by
  rw [Set.eq_empty_iff_forall_notMem]
  intro cc hcc
  obtain ⟨f, hf⟩ := exists_mem_reads cc
  have hset := h ⟨true, true, true, true, true, true⟩ cc hcc f hf
  have hclear := h ⟨false, false, false, false, false, false⟩ cc hcc f hf
  rw [← hclear] at hset
  cases f <;> cases hset

end Flags

section Meaning

/-- Some instructions leave what others do, where conditions are looked at behind them. -/
def Preserves (ccs : Set (BitVec 4)) (before after : List Chunk) : Prop :=
  ∀ undef rest m, ∃ m₁ m₂, (Semantics.core undef rest).runChunks before m = some m₁ ∧
    (Semantics.core undef rest).runChunks after m = some m₂ ∧ m₂.regs = m₁.regs ∧
      ∀ cc ∈ ccs, ∀ f ∈ reads cc, m₂.status.flag f = m₁.status.flag f

/-- The instructions that a rewrite takes away, those that the rule has looked at behind them, and those
that the rewrite puts there. -/
structure Replacement (rule : Rule) (p : Nat → Byte) (r : Rewrite) where
  old : List Chunk
  kept : List Chunk
  new : List Chunk
  length_old : old.length = rule.replaced
  length_kept : kept.length = rule.kept
  bytes_old : chunkBytes old = slice p 0 r.src
  bytes_kept : chunkBytes kept = slice p r.src (chunkBytes kept).length
  bytes_new : chunkBytes new = slice (overwrite p r.pos r.bytes) 0 r.dst

/-- What a rule does at some bytes is right. -/
def RuleRight (rule : Rule) (p : Nat → Byte) (ccs : Set (BitVec 4)) : Prop :=
  ∀ r, (rule.look.run p).1 = some r →
    ∃ x : Replacement rule p r, Preserves ccs (x.old ++ x.kept) (x.new ++ x.kept)

/-- The bytes and the conditions for which a match is right. -/
def Rule.Exact (rule : Rule) (p : Nat → Byte) (ccs : Set (BitVec 4)) : Prop :=
  match rule with
  | movZero => (p 0 = 0xb8 ∨ p 0 = 0x48 ∧ p 1 = 0xb8) ∧ ccs = ∅
  | xorMov | subZero => ccs = ∅
  | addZero => p 0 = 0x48 ∧ ccs = ∅
  | cmpZero => ∀ cc ∈ ccs, ∀ f ∈ reads cc, f = .carry ∨ f = .overflow ∨ p 2 = 0xf8 ∧ f = .parity
  | redundantMov => p 0 = 0x48
  | movAdd => p 10 = 0x48 ∧ ccs = ∅

variable {rule : Rule} {p : Nat → Byte} {r : Rewrite} {ccs : Set (BitVec 4)} {before after : List Chunk}
  {o o' : Outcome}

theorem preserves_iff (h : Leaves before o) (h' : Leaves after o') :
    Preserves ccs before after ↔ ∀ g s, o'.regs g = o.regs g ∧ ∀ cc ∈ ccs, ∀ f ∈ reads cc,
      ((o'.flags g).getD s).flag f = ((o.flags g).getD s).flag f := by
  constructor
  · intro hpres g s
    -- a state with these registers and flags
    let m₀ : Machine := ⟨g, 0, fun _ ↦ 0, fun _ ↦ none, 0, 0⟩
    let m := m₀.setStatus s
    have hstatus : m.status = s := m₀.status_setStatus s
    let undef : Instr → Machine → Status := fun _ _ ↦ .ofBits 0
    let rest : Instr → Machine → Option Machine := fun _ _ ↦ none
    obtain ⟨m₁, m₂, hrun, hrun', hregs, hflags⟩ := hpres undef rest m
    obtain ⟨m₁', hleaves, hr, hf⟩ := h undef rest m
    obtain ⟨m₂', hleaves', hr', hf'⟩ := h' undef rest m
    obtain rfl := Option.some.inj (hrun.symm.trans hleaves)
    obtain rfl := Option.some.inj (hrun'.symm.trans hleaves')
    rw [hstatus] at hf hf'
    refine ⟨(hr'.symm.trans hregs).trans hr, fun cc hcc f hmem ↦ ?_⟩
    exact ((hf' f (ne_adjust hmem)).symm.trans (hflags cc hcc f hmem)).trans (hf f (ne_adjust hmem))
  · intro hall undef rest m
    obtain ⟨m₁, hleaves, hr, hf⟩ := h undef rest m
    obtain ⟨m₂, hleaves', hr', hf'⟩ := h' undef rest m
    obtain ⟨hregs, hflags⟩ := hall m.regs m.status
    refine ⟨m₁, m₂, hleaves, hleaves', (hr'.trans hregs).trans hr.symm, fun cc hcc f hmem ↦ ?_⟩
    exact ((hf' f (ne_adjust hmem)).trans (hflags cc hcc f hmem)).trans (hf f (ne_adjust hmem)).symm

/-- Where the flags are not set any more, no condition may look at them. -/
theorem preserves_dropped (h : Leaves before o) (h' : Leaves after o') (hregs : o'.regs = o.regs)
    (hset : ∀ g, ∃ t, o.flags g = some t) (hkeep : ∀ g, o'.flags g = none) :
    Preserves ccs before after ↔ ccs = ∅ := by
  rw [preserves_iff h h', hregs]
  constructor
  · intro hall
    obtain ⟨t, ht⟩ := hset fun _ ↦ 0
    apply @eq_empty_of_fixed ccs t
    intro s cc hcc f hf
    have hflag := (hall (fun _ ↦ 0) s).2 cc hcc f hf
    rwa [ht, hkeep] at hflag
  · rintro rfl g s
    exact ⟨rfl, fun cc hcc ↦ absurd hcc (Set.notMem_empty cc)⟩

/-- Instructions are determined by their number and the bytes that they start. -/
theorem eq_of_prefix {cs ds : List Chunk} (xs : List Byte) (hlen : cs.length = ds.length)
    (hcs : chunkBytes cs <+: xs) (hds : chunkBytes ds <+: xs) : cs = ds := by
  induction cs generalizing ds xs with
  | nil => exact (List.length_eq_zero_iff.mp hlen.symm).symm
  | cons c cs ih =>
    cases ds with
    | nil => cases hlen
    | cons d ds =>
      rw [chunkBytes, List.flatMap_cons] at hcs hds
      obtain rfl := Chunk.eq_of_prefix ((List.prefix_append _ _).trans hcs)
        ((List.prefix_append _ _).trans hds)
      obtain ⟨t, rfl⟩ := hcs
      rw [List.append_assoc, List.prefix_append_right_inj] at hds
      rw [ih _ (Nat.succ.inj hlen) (List.prefix_append _ t) hds]

theorem slice_prefix (p : Nat → Byte) (i : Nat) {n k : Nat} (h : n ≤ k) : slice p i n <+: slice p i k := by
  obtain ⟨j, rfl⟩ := Nat.exists_eq_add_of_le h
  rw [slice_append]
  exact List.prefix_append _ _

theorem old_eq (x : Replacement rule p r) {ds : List Chunk} {n : Nat} (hlen : ds.length = rule.replaced)
    (hbytes : chunkBytes ds = slice p 0 n) : x.old = ds := by
  apply eq_of_prefix (slice p 0 (max r.src n)) (x.length_old.trans hlen.symm)
  · rw [x.bytes_old]
    exact slice_prefix p 0 (Nat.le_max_left ..)
  · rw [hbytes]
    exact slice_prefix p 0 (Nat.le_max_right ..)

/-- There is one reading of a match. -/
theorem replacement_eq (x y : Replacement rule p r) : x = y := by
  have hold := old_eq x y.length_old y.bytes_old
  have hkept : x.kept = y.kept := by
    apply eq_of_prefix (slice p r.src (max (chunkBytes x.kept).length (chunkBytes y.kept).length))
      (x.length_kept.trans y.length_kept.symm)
    · rw [x.bytes_kept]
      exact slice_prefix p _ (by simp)
    · rw [y.bytes_kept]
      exact slice_prefix p _ (by simp)
  have hnew := chunkBytes_inj (x.bytes_new.trans y.bytes_new.symm)
  cases x
  cases y
  cases hold
  cases hkept
  cases hnew
  rfl

theorem ruleRight_of_match (h : (rule.look.run p).1 = some r) (x : Replacement rule p r) :
    RuleRight rule p ccs ↔ Preserves ccs (x.old ++ x.kept) (x.new ++ x.kept) := by
  constructor
  · intro hright
    obtain ⟨y, hy⟩ := hright r h
    rwa [replacement_eq x y]
  · intro hx r' h'
    obtain rfl := Option.some.inj (h.symm.trans h')
    exact ⟨x, hx⟩

/-- A match behind which nothing is kept. -/
theorem ruleRight_iff_preserves (h : (rule.look.run p).1 = some r) (hkept : rule.kept = 0)
    {old new : List Chunk} (hlen : old.length = rule.replaced) (hold : chunkBytes old = slice p 0 r.src)
    (hnew : chunkBytes new = slice (overwrite p r.pos r.bytes) 0 r.dst) :
    RuleRight rule p ccs ↔ Preserves ccs old new := by
  have hright := @ruleRight_of_match _ _ _ ccs h ⟨old, [], new, hlen, hkept.symm, hold, rfl, hnew⟩
  rwa [List.append_nil, List.append_nil] at hright

/-- A match of instructions that are not as long as the rule takes them to be. -/
theorem not_ruleRight_of_length (h : (rule.look.run p).1 = some r) {ds : List Chunk} {n : Nat}
    (hlen : ds.length = rule.replaced) (hbytes : chunkBytes ds = slice p 0 n) (hne : n ≠ r.src) :
    ¬ RuleRight rule p ccs := by
  intro hright
  obtain ⟨x, -⟩ := hright r h
  have hold := x.bytes_old
  rw [old_eq x hlen hbytes, hbytes] at hold
  exact hne (by simpa using congrArg List.length hold)

/-- A match of one instruction whose bytes are none. -/
theorem not_ruleRight_of_undecoded (h : (rule.look.run p).1 = some r) (hone : rule.replaced = 1)
    (hundecoded : decode (slice p 0 r.src) = none) : ¬ RuleRight rule p ccs := by
  intro hright
  obtain ⟨x, -⟩ := hright r h
  have hold := x.bytes_old
  obtain ⟨c, hc⟩ := List.length_eq_one_iff.mp (x.length_old.trans hone)
  rw [hc] at hold
  have hbytes : c.bytes ++ [] = slice p 0 r.src := hold
  have hdec := c.decodes []
  rw [hbytes, hundecoded] at hdec
  cases hdec

/-- Behind a rewrite the new instructions stand in the code, and those that are kept. -/
theorem slice_mem_rewrite {s : State} (x : Replacement rule (suffix s.mem s.idx) r)
    (hwritten : r.pos + r.bytes.length ≤ r.dst) (hsize : s.size < 2 ^ 64)
    (hfits : s.idx + r.src + (chunkBytes x.kept).length ≤ s.size) :
    slice (s.rewrite r).mem s.idx (r.dst + (chunkBytes x.kept).length) = chunkBytes (x.new ++ x.kept) := by
  have hcount : sizeSub (sizeSub s.size s.idx) r.src = s.size - s.idx - r.src := by
    unfold sizeSub
    omega
  have hshrinks := r.shrinks
  have happend : chunkBytes (x.new ++ x.kept) = chunkBytes x.new ++ chunkBytes x.kept :=
    List.flatMap_append
  rw [happend, slice_append, x.bytes_new, x.bytes_kept]
  congr 1
  · apply List.map_congr_left
    intro k hk
    have hk := List.mem_range.mp hk
    simp only [State.rewrite, overwrite, suffix]
    rw [if_neg (by omega), Nat.zero_add]
    by_cases hpos : r.pos ≤ k
    · rw [if_pos hpos, if_pos (by omega), Nat.add_sub_add_left]
    · rw [if_neg hpos, if_neg (by omega)]
  · rw [length_slice]
    apply List.map_congr_left
    intro k hk
    have hk := List.mem_range.mp hk
    have hlast : s.idx + r.src + (s.idx + r.dst + k - (s.idx + r.dst)) = s.idx + (r.src + k) := by omega
    simp only [State.rewrite, overwrite, suffix, hcount, hlast]
    rw [if_pos (by omega), if_pos (by omega), List.getElem?_eq_none (by omega), Option.getD_none]

end Meaning

end Arm2x86.Peephole
