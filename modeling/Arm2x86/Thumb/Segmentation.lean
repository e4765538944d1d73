import Arm2x86.Base.Diagrams
import Arm2x86.Thumb.Model

/-!
# Segmentation of Thumb streams

A stream of Thumb instructions is a sequence of units of one or two halfwords. The driver of the
translator goes through the units of its buffer in order, and no IT block is ever open on the way: the
halfword of an IT instruction does not start a wide unit, and only wide units open one.
-/

namespace Arm2x86.Thumb

open X86 Arm32

section Units

/-- A unit of a stream. A wide one that does not fit any more is cut off after its first halfword. -/
inductive Segment where
  | narrow (h : BitVec 16)
  | wide (h h' : BitVec 16)
  | truncated (h : BitVec 16)
deriving DecidableEq, Repr

/-- The halfwords that start a wide unit, by their five highest bits. -/
def isWide (h : BitVec 16) : Bool :=
  h.extractLsb' 11 5 == 0b11101 || h.extractLsb' 11 5 == 0b11110 || h.extractLsb' 11 5 == 0b11111

/-- The units of a stream. Less than two bytes are left at its end. -/
def segments : List Byte → List Segment
  | b₀ :: b₁ :: b₂ :: b₃ :: bs =>
    if isWide (b₁ ++ b₀) then .wide (b₁ ++ b₀) (b₃ ++ b₂) :: segments bs
    else .narrow (b₁ ++ b₀) :: segments (b₂ :: b₃ :: bs)
  | b₀ :: b₁ :: _ => [if isWide (b₁ ++ b₀) then .truncated (b₁ ++ b₀) else .narrow (b₁ ++ b₀)]
  | _ => []

namespace Segment

def size : Segment → Nat
  | narrow _ | truncated _ => 2
  | wide _ _ => 4

/-- A halfword, least significant byte first. -/
def halfword (h : BitVec 16) : List Byte := [h.extractLsb' 0 8, h.extractLsb' 8 8]

def bytes : Segment → List Byte
  | narrow h | truncated h => halfword h
  | wide h h' => halfword h ++ halfword h'

/-- The translation of a unit on its own. -/
def code (shl : Int → BitVec 64) : Segment → List Byte
  | narrow h => (translateThumb16 h).1
  | wide h h' => (translateThumb32 shl .reset (h ++ h')).code
  | truncated _ => [0x90]

theorem length_bytes (u : Segment) : u.bytes.length = u.size := by cases u <;> rfl

end Segment

theorem halfword_append (b₀ b₁ : Byte) : Segment.halfword (b₁ ++ b₀) = [b₀, b₁] := by
  have hlow : (b₁ ++ b₀).extractLsb' 0 8 = b₀ := BitVec.extractLsb'_append_eq_right
  have hhigh : (b₁ ++ b₀).extractLsb' 8 8 = b₁ := BitVec.extractLsb'_append_eq_left
  rw [Segment.halfword, hlow, hhigh]

/-- The units are the stream, up to what is left at its end. -/
theorem segments_bytes (bs : List Byte) :
    ∃ tail, (segments bs).flatMap Segment.bytes ++ tail = bs ∧ tail.length < 2 := by
  fun_induction segments bs with
  | case1 b₀ b₁ b₂ b₃ bs hwide ih =>
    obtain ⟨tail, htail, hlen⟩ := ih
    exists tail
    simp [Segment.bytes, halfword_append, htail, hlen]
  | case2 b₀ b₁ b₂ b₃ bs hnarrow ih =>
    obtain ⟨tail, htail, hlen⟩ := ih
    exists tail
    simp [Segment.bytes, halfword_append, htail, hlen]
  | case3 b₀ b₁ bs hshort =>
    exists bs
    constructor
    · split <;> simp [Segment.bytes, halfword_append]
    · match bs with
      | [] | [_] => simp
      | b₂ :: b₃ :: bs => exact absurd rfl (hshort b₂ b₃ bs)
  | case4 bs hlong hshort =>
    exists bs
    constructor
    · rfl
    · match bs with
      | [] | [_] => simp
      | b₀ :: b₁ :: bs => exact absurd rfl (hshort b₀ b₁ bs)

/-- There is a unit wherever two bytes are left. -/
theorem segments_ne_nil_iff (bs : List Byte) : segments bs ≠ [] ↔ 2 ≤ bs.length := by
  match bs with
  | [] | [_] => simp [segments]
  | [_, _] | [_, _, _] => simp [segments]
  | _ :: _ :: _ :: _ :: _ =>
    rw [segments]
    split <;> simp

/-- Every unit has two bytes at least. -/
theorem two_mul_length_segments_le (bs : List Byte) : 2 * (segments bs).length ≤ bs.length := by
  fun_induction segments bs with
  | case1 b₀ b₁ b₂ b₃ bs _ ih =>
    simp only [List.length_cons]
    omega
  | case2 b₀ b₁ b₂ b₃ bs _ ih =>
    simp only [List.length_cons] at ih ⊢
    omega
  | case3 => simp
  | case4 => simp

end Units

section Translators

theorem translateThumb16_advance (h : BitVec 16) : (translateThumb16 h).2 = 2 := by
  simp only [translateThumb16, apply_ite Prod.snd, ite_self]

theorem translateThumb32_advance (shl : Int → BitVec 64) (it : ItState) (op32 : BitVec 32) :
    (translateThumb32 shl it op32).advance = 4 := by
  simp only [translateThumb32, apply_ite Translated.advance, ite_self]

/-- The five highest bits of a halfword, in their place. -/
theorem and_highest (h : BitVec 16) : h &&& (0xf800 : BitVec 16) =
    (h.extractLsb' 11 5).setWidth 16 <<< 11 :=
  Diagram.matches_field (rfl : h.extractLsb' 11 5 = _)

/-- The prefix test is the rule of the architecture. -/
theorem isThumb2Prefix_eq (h : BitVec 16) : isThumb2Prefix h = isWide h := by
  have hmask : h &&& 0xe800 = h &&& 0xf800 &&& 0xe800 := by
    rw [BitVec.and_assoc]
    rfl
  have key : ∀ f : BitVec 5, ((f.setWidth 16 <<< 11) &&& (0xe800 : BitVec 16) == (0xe800 : BitVec 16) ||
      f.setWidth 16 <<< 11 == (0xf000 : BitVec 16)) = (f == 0b11101 || f == 0b11110 || f == 0b11111) := by
    decide
  rw [isThumb2Prefix, hmask, and_highest]
  exact key _

theorem translateThumb32_it_of_ne (shl : Int → BitVec 64) (it : ItState) {op32 : BitVec 32}
    (h : op32 &&& 0xff00ff00 ≠ 0xbf000000) : (translateThumb32 shl it op32).it = it := by
  simp only [translateThumb32, apply_ite Translated.it, if_neg h, ite_self]

/-- The words that open an IT block do not start a wide unit. -/
theorem translateThumb32_it (shl : Int → BitVec 64) (it : ItState) {h : BitVec 16} (hwide : isWide h)
    (h' : BitVec 16) : (translateThumb32 shl it (h ++ h')).it = it := by
  apply translateThumb32_it_of_ne
  intro hit
  have hfield : (h ++ h').extractLsb' 27 5 = 0b10111 :=
    Diagram.Matches.extractLsb' (d := ⟨0xff00ff00, 0xbf000000⟩) hit rfl
  rw [BitVec.extractLsb'_append_eq_of_le (by decide)] at hfield
  rw [isWide, hfield] at hwide
  exact absurd hwide (by decide)

end Translators

section Turns

variable (shl : Int → BitVec 64) {buf : List Byte} {src : Nat}

/-- Outside an IT block nothing changes its state. -/
theorem advanceItState_reset : advanceItState .reset = .reset := rfl

theorem endIf_reset (b : Bool) : ItState.reset.endIf b = .reset := by cases b <;> rfl

theorem readLe16_of_drop {b₀ b₁ : Byte} {bs : List Byte} (h : buf.drop src = b₀ :: b₁ :: bs) :
    readLe16 buf src = some (b₁ ++ b₀) := by
  have h₀ : buf[src]? = some b₀ := by
    rw [← Nat.add_zero src, ← List.getElem?_drop, h]
    rfl
  have h₁ : buf[src + 1]? = some b₁ := by
    rw [← List.getElem?_drop, h]
    rfl
  rw [readLe16, h₀, h₁]
  rfl

variable {h h' : BitVec 16}

theorem step_wide (hread : readLe16 buf src = some h) (hread' : readLe16 buf (src + 2) = some h')
    (hwide : isWide h = true) (hfit : src + 4 ≤ buf.length) (out : List Byte) :
    step shl buf ⟨src, .reset, out⟩ =
      some ⟨src + 4, .reset, out ++ (Segment.wide h h').code shl⟩ := by
  have hbranch : (isThumb2Prefix h && decide (src + 4 ≤ buf.length)) = true := by
    rw [isThumb2Prefix_eq, hwide, decide_eq_true hfit]
    rfl
  simp only [step, hread, hread', Option.bind_eq_bind, Option.bind_some, if_pos hbranch, endIf_reset,
    translateThumb32_it shl .reset hwide, translateThumb32_advance, advanceItState_reset]
  rfl

theorem step_narrow (hread : readLe16 buf src = some h) (hnarrow : isWide h = false)
    (out : List Byte) : step shl buf ⟨src, .reset, out⟩ =
      some ⟨src + 2, .reset, out ++ (Segment.narrow h).code shl⟩ := by
  have hprefix : isThumb2Prefix h = false := (isThumb2Prefix_eq h).trans hnarrow
  simp only [step, hread, Option.bind_eq_bind, Option.bind_some, hprefix, Bool.false_and,
    Bool.false_eq_true, if_false, endIf_reset, translateThumb16_advance, advanceItState_reset]
  rfl

theorem step_truncated (hread : readLe16 buf src = some h) (hwide : isWide h = true)
    (hfit : ¬ src + 4 ≤ buf.length) (out : List Byte) : step shl buf ⟨src, .reset, out⟩ =
      some ⟨src + 2, .reset, out ++ (Segment.truncated h).code shl⟩ := by
  have hprefix : isThumb2Prefix h = true := (isThumb2Prefix_eq h).trans hwide
  simp only [step, hread, Option.bind_eq_bind, Option.bind_some, hprefix, hfit, decide_false,
    Bool.and_false, Bool.false_eq_true, if_false, if_true, endIf_reset, advanceItState_reset]
  rfl

/-- The rule of the architecture for the unit at an offset. -/
theorem segments_cases {u : Segment} {us : List Segment} (hu : segments (buf.drop src) = u :: us) :
    (∃ h h', readLe16 buf src = some h ∧ readLe16 buf (src + 2) = some h' ∧ isWide h = true ∧
        src + 4 ≤ buf.length ∧ u = .wide h h') ∨
      (∃ h, readLe16 buf src = some h ∧ isWide h = false ∧ u = .narrow h) ∨
      ∃ h, readLe16 buf src = some h ∧ isWide h = true ∧ ¬ src + 4 ≤ buf.length ∧
        u = .truncated h := by
  have hlen : buf.length - src = (buf.drop src).length := List.length_drop.symm
  match hrest : buf.drop src with
  | [] | [_] => simp [hrest, segments] at hu
  | [b₀, b₁] | [b₀, b₁, b₂] =>
    have hread := readLe16_of_drop hrest
    have hfit : ¬ src + 4 ≤ buf.length := by
      rw [hrest] at hlen
      simp only [List.length_cons, List.length_nil] at hlen
      omega
    rw [hrest, segments, List.cons_eq_cons] at hu
    · cases hwide : isWide (b₁ ++ b₀) with
      | true =>
        rw [if_pos hwide] at hu
        exact .inr (.inr ⟨_, hread, hwide, hfit, hu.1.symm⟩)
      | false =>
        rw [hwide, if_neg Bool.false_ne_true] at hu
        exact .inr (.inl ⟨_, hread, hwide, hu.1.symm⟩)
    · simp
  | b₀ :: b₁ :: b₂ :: b₃ :: bs =>
    have hread := readLe16_of_drop hrest
    have hread' : readLe16 buf (src + 2) = some (b₃ ++ b₂) := by
      apply readLe16_of_drop
      rw [← List.drop_drop, hrest]
      rfl
    have hfit : src + 4 ≤ buf.length := by
      rw [hrest] at hlen
      simp only [List.length_cons] at hlen
      omega
    rw [hrest, segments] at hu
    cases hwide : isWide (b₁ ++ b₀) with
    | true =>
      rw [if_pos hwide, List.cons_eq_cons] at hu
      exact .inl ⟨_, _, hread, hread', hwide, hfit, hu.1.symm⟩
    | false =>
      rw [hwide, if_neg Bool.false_ne_true, List.cons_eq_cons] at hu
      exact .inr (.inl ⟨_, hread, hwide, hu.1.symm⟩)

/-- Behind a unit the stream goes on with the next ones. -/
theorem segments_drop {u : Segment} {us : List Segment} {bs : List Byte} (hu : segments bs = u :: us) :
    segments (bs.drop u.size) = us := by
  match bs with
  | [] | [_] => simp [segments] at hu
  | [b₀, b₁] | [b₀, b₁, b₂] =>
    rw [segments, List.cons_eq_cons] at hu
    · obtain ⟨rfl, rfl⟩ := hu
      split <;> rfl
    · simp
  | b₀ :: b₁ :: b₂ :: b₃ :: bs =>
    rw [segments] at hu
    split at hu <;> · cases hu; rfl

/-- One turn of the loop goes through one unit. -/
theorem step_segment {u : Segment} {us : List Segment} (hu : segments (buf.drop src) = u :: us)
    (out : List Byte) :
    step shl buf ⟨src, .reset, out⟩ = some ⟨src + u.size, .reset, out ++ u.code shl⟩ := by
  rcases segments_cases hu with ⟨h, h', hread, hread', hwide, hfit, rfl⟩ | ⟨h, hread, hnarrow, rfl⟩ |
    ⟨h, hread, hwide, hfit, rfl⟩
  · exact step_wide shl hread hread' hwide hfit out
  · exact step_narrow shl hread hnarrow out
  · exact step_truncated shl hread hwide hfit out

/-- The loop goes on exactly while there is a unit. -/
theorem continues_iff (d : Driver) : d.continues buf = true ↔ segments (buf.drop d.src) ≠ [] := by
  rw [segments_ne_nil_iff, List.length_drop, Driver.continues, decide_eq_true_iff]
  omega

end Turns

section Runs

variable (shl : Int → BitVec 64) {buf : List Byte}

/-- The offset behind the first units. -/
def offset (buf : List Byte) (k : Nat) : Nat := (((segments buf).take k).map Segment.size).sum

/-- The state of the driver after a number of turns. -/
def after (shl : Int → BitVec 64) (buf : List Byte) : Nat → Option Driver
  | 0 => some .start
  | k + 1 => (after shl buf k).bind (step shl buf)

theorem take_segments_succ {k : Nat} (hk : k < (segments buf).length) :
    (segments buf).take (k + 1) = (segments buf).take k ++ [(segments buf)[k]] :=
  (List.take_append_getElem hk).symm

theorem offset_succ {k : Nat} (hk : k < (segments buf).length) :
    offset buf (k + 1) = offset buf k + (segments buf)[k].size := by
  rw [offset, take_segments_succ hk, List.map_append, List.sum_append]
  rfl

/-- The units from an offset between two of them on. -/
theorem segments_offset {k : Nat} (hk : k ≤ (segments buf).length) :
    segments (buf.drop (offset buf k)) = (segments buf).drop k := by
  induction k with
  | zero => rfl
  | succ k ih =>
    have hrest := ih (Nat.le_of_succ_le hk)
    rw [List.drop_eq_getElem_cons hk] at hrest
    rw [offset_succ hk, ← List.drop_drop]
    exact segments_drop hrest

/-- After some turns the driver is behind as many units, has translated each of them once, and no
IT block is open. -/
theorem after_eq {k : Nat} (hk : k ≤ (segments buf).length) : after shl buf k =
    some ⟨offset buf k, .reset, ((segments buf).take k).flatMap (Segment.code shl)⟩ := by
  induction k with
  | zero => rfl
  | succ k ih =>
    have hrest := segments_offset (Nat.le_of_succ_le hk)
    rw [List.drop_eq_getElem_cons hk] at hrest
    rw [after, ih (Nat.le_of_succ_le hk), Option.bind_some, step_segment shl hrest, offset_succ hk,
      take_segments_succ hk, List.flatMap_append, List.flatMap_singleton]

/-- The loop comes to its end behind the last unit. -/
theorem loop_segments {us : List Segment} {src fuel : Nat} (hus : segments (buf.drop src) = us)
    (hfuel : us.length < fuel) (out : List Byte) : loop shl buf fuel ⟨src, .reset, out⟩ =
      some ⟨src + (us.map Segment.size).sum, .reset, out ++ us.flatMap (Segment.code shl)⟩ := by
  induction us generalizing src fuel out with
  | nil =>
    obtain ⟨fuel, rfl⟩ := Nat.exists_eq_add_of_lt hfuel
    have hend : ¬ Driver.continues buf ⟨src, .reset, out⟩ = true := by
      rw [continues_iff]
      simpa using hus
    simp [loop, hend]
  | cons u us ih =>
    obtain ⟨fuel, rfl⟩ := Nat.exists_eq_add_of_lt hfuel
    have hgo : Driver.continues buf ⟨src, .reset, out⟩ = true := by
      rw [continues_iff, hus]
      exact List.cons_ne_nil u us
    have hnext := segments_drop hus
    rw [List.drop_drop] at hnext
    rw [loop, if_pos hgo, step_segment shl hus, Option.bind_some, ih hnext (by simp; omega)]
    simp [Nat.add_assoc]

/-- The rule of the architecture for the unit at an offset: the five highest bits of its first
halfword say whether it is wide, and a wide one that does not fit is cut off. -/
def Rule (buf : List Byte) (src : Nat) (u : Segment) : Prop :=
  ∃ h, readLe16 buf src = some h ∧
    if isWide h then
      if src + 4 ≤ buf.length then ∃ h', readLe16 buf (src + 2) = some h' ∧ u = .wide h h'
      else u = .truncated h
    else u = .narrow h

theorem rule_of_segments {src : Nat} {u : Segment} {us : List Segment}
    (hu : segments (buf.drop src) = u :: us) : Rule buf src u := by
  rcases segments_cases hu with ⟨h, h', hread, hread', hwide, hfit, rfl⟩ | ⟨h, hread, hnarrow, rfl⟩ |
    ⟨h, hread, hwide, hfit, rfl⟩
  · exact ⟨h, hread, by rw [if_pos hwide, if_pos hfit]; exact ⟨h', hread', rfl⟩⟩
  · exact ⟨h, hread, by rw [hnarrow]; rfl⟩
  · exact ⟨h, hread, by rw [if_pos hwide, if_neg hfit]⟩

/-- The driver goes through the units of its buffer. All its reads are inside, each unit follows the
rule at its offset, the units are the bytes in front of the offset the driver comes to, of which less
than two are left, and the output is the translation of each unit, in order. -/
theorem convertBlockThumb_segments (shl : Int → BitVec 64) (buf : List Byte) :
    ∃ d, convertBlockThumb shl buf = some d ∧
      (∀ k (hk : k < (segments buf).length), Rule buf (offset buf k) (segments buf)[k]) ∧
      (segments buf).flatMap Segment.bytes = buf.take d.src ∧
      d.src ≤ buf.length ∧ buf.length < d.src + 2 ∧
      d.out = (segments buf).flatMap (Segment.code shl) := by
  have hcount := two_mul_length_segments_le buf
  obtain ⟨tail, htail, hshort⟩ := segments_bytes buf
  have hsize : ((segments buf).flatMap Segment.bytes).length = ((segments buf).map Segment.size).sum := by
    simp [List.length_flatMap, Segment.length_bytes]
  have hlen := congrArg List.length htail
  rw [List.length_append, hsize] at hlen
  have hfuel : (segments buf).length < buf.length + 1 := by omega
  have hrun : convertBlockThumb shl buf = some ⟨0 + ((segments buf).map Segment.size).sum, .reset,
      [] ++ (segments buf).flatMap (Segment.code shl)⟩ := loop_segments shl rfl hfuel []
  rw [Nat.zero_add, List.nil_append] at hrun
  refine ⟨_, hrun, fun k hk ↦ ?_, ?_, ?_, ?_, rfl⟩
  · have hrest := segments_offset (Nat.le_of_lt hk)
    rw [List.drop_eq_getElem_cons hk] at hrest
    exact rule_of_segments hrest
  · rw [← hsize]
    nth_rewrite 4 [← htail]
    rw [List.take_left]
  · dsimp only
    omega
  · dsimp only
    omega

end Runs

end Arm2x86.Thumb
