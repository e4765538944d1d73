import Arm2x86.Base.Links
import Arm2x86.Base.Walks

/-!
# Buckets of chained indices

A hash table over the entries of another one: an array of buckets and an array of links, both of
which hold indices. The index 0 ends a chain. An entry is put in front of its bucket, so entries that
come in ascending order are met in descending order.
-/

namespace Arm2x86

open Links Walks

/-- The two arrays. -/
structure Buckets (w : Nat) where
  bucket : List (BitVec w)
  chain : List (BitVec w)
deriving DecidableEq, Repr

namespace Buckets

variable {w : Nat}

/-- Buckets without entries, with room for links. -/
def empty (w nbucket nchain : Nat) : Buckets w :=
  ⟨List.replicate nbucket 0, List.replicate nchain 0⟩

/-- The first index of a bucket. -/
def first (t : Buckets w) (b : Nat) : BitVec w := t.bucket.getD b 0

/-- The index behind an index. -/
def next (t : Buckets w) (i : BitVec w) : BitVec w := t.chain.getD i.toNat 0

/-- An entry is put in front of a bucket. -/
def insert (t : Buckets w) (b : Nat) (i : BitVec w) : Buckets w :=
  ⟨t.bucket.set b i, t.chain.set i.toNat (t.first b)⟩

/-- Entries are put in front of their buckets, one after the other. -/
def insertAll (slot : BitVec w → Nat) (t : Buckets w) (is : List (BitVec w)) : Buckets w :=
  is.foldl (fun t i ↦ t.insert (slot i) i) t

/-- An index as a pointer. -/
def pointer (i : BitVec w) : Option (BitVec w) := if i = 0 then none else some i

/-- The links as pointers. -/
def link (t : Buckets w) (i : BitVec w) : Option (Option (BitVec w)) := some (pointer (t.next i))

/-- The indices that are met from an index on. -/
def Lists (t : Buckets w) (i : BitVec w) (is : List (BitVec w)) : Prop :=
  Chain t.link (pointer i) is

variable {t : Buckets w} {slot : BitVec w → Nat} {i j : BitVec w} {is : List (BitVec w)} {b : Nat}

theorem pointer_of_ne (h : i ≠ 0) : pointer i = some i := if_neg h

theorem zero_lt_of_ne (h : i ≠ 0) : 0 < i := by
  rw [BitVec.lt_def]
  exact Nat.pos_of_ne_zero fun hzero ↦ h (BitVec.eq_of_toNat_eq hzero)

theorem first_empty {nbucket nchain : Nat} : (empty w nbucket nchain).first b = 0 := by
  simp [first, empty, List.getD_eq_getElem?_getD, List.getElem?_replicate]
  split <;> rfl

theorem next_empty {nbucket nchain : Nat} : (empty w nbucket nchain).next i = 0 := by
  simp [next, empty, List.getD_eq_getElem?_getD, List.getElem?_replicate]
  split <;> rfl

theorem first_insert (hb : b < t.bucket.length) (b' : Nat) :
    (t.insert b i).first b' = if b' = b then i else t.first b' := by
  by_cases h : b' = b
  · subst h
    simp [first, insert, hb]
  · simp [first, insert, h, List.getElem?_set_ne (Ne.symm h)]

theorem next_insert (hi : i.toNat < t.chain.length) (j : BitVec w) :
    (t.insert b i).next j = if j = i then t.first b else t.next j := by
  by_cases h : j = i
  · subst h
    simp [next, insert, hi]
  · have hne : i.toNat ≠ j.toNat := fun heq ↦ h (BitVec.eq_of_toNat_eq heq.symm)
    simp [next, insert, h, List.getElem?_set_ne hne]

@[simp] theorem length_bucket_insert : (t.insert b i).bucket.length = t.bucket.length :=
  List.length_set

@[simp] theorem length_chain_insert : (t.insert b i).chain.length = t.chain.length :=
  List.length_set

/-- What has been put into a table of some size, in its order. -/
structure Holds (slot : BitVec w → Nat) (nbucket nchain : Nat) (t : Buckets w)
    (done : List (BitVec w)) : Prop where
  bucket : t.bucket.length = nbucket
  chain : t.chain.length = nchain
  lists : ∀ b < nbucket, t.Lists (t.first b) (done.filter (slot · = b)).reverse
  unlinked : ∀ i, i ∉ done → t.next i = 0

theorem holds_empty (slot : BitVec w → Nat) (nbucket nchain : Nat) :
    (empty w nbucket nchain).Holds slot nbucket nchain [] := by
  refine ⟨List.length_replicate, List.length_replicate, fun b _ ↦ ?_, fun i _ ↦ next_empty⟩
  rw [Lists, first_empty]
  rfl

variable {nbucket nchain : Nat} {done : List (BitVec w)}

/-- A new entry goes in front of the chain of its bucket and leaves the other chains. -/
theorem Holds.insert (h : t.Holds slot nbucket nchain done) (hi : i ≠ 0) (hnew : i ∉ done)
    (hchain : i.toNat < nchain) (hslot : slot i < nbucket) :
    (t.insert (slot i) i).Holds slot nbucket nchain (done ++ [i]) := by
  have hb : slot i < t.bucket.length := h.bucket ▸ hslot
  have hc : i.toNat < t.chain.length := h.chain ▸ hchain
  refine ⟨length_bucket_insert.trans h.bucket, length_chain_insert.trans h.chain, ?_, ?_⟩
  · intro b hlt
    have hold : ∀ j ∈ (done.filter (slot · = b)).reverse,
        (t.insert (slot i) i).link j = t.link j := by
      intro j hj
      have hne : j ≠ i := by
        rintro rfl
        exact hnew (List.mem_of_mem_filter (List.mem_reverse.mp hj))
      rw [link, link, next_insert hc, if_neg hne]
    rw [Lists, first_insert hb, List.filter_append, List.reverse_append]
    by_cases hbi : b = slot i
    · subst hbi
      have hnext : (t.insert (slot i) i).link i = some (pointer (t.first (slot i))) := by
        rw [link, next_insert hc, if_pos rfl]
      rw [if_pos rfl, pointer_of_ne hi, List.filter_singleton, decide_eq_true rfl]
      exact (h.lists _ hlt).push hnext hold
    · rw [if_neg hbi, List.filter_singleton, decide_eq_false (Ne.symm hbi)]
      exact Seg.congr (h.lists b hlt) hold
  · intro j hj
    rw [List.mem_append, List.mem_singleton, not_or] at hj
    rw [next_insert hc, if_neg hj.2]
    exact h.unlinked j hj.1

/-- Entries that are new, one after the other. -/
theorem Holds.insertAll (h : t.Holds slot nbucket nchain done) (hnodup : (done ++ is).Nodup)
    (his : ∀ i ∈ is, i ≠ 0 ∧ i.toNat < nchain ∧ slot i < nbucket) :
    (t.insertAll slot is).Holds slot nbucket nchain (done ++ is) := by
  induction is generalizing t done with
  | nil => rwa [List.append_nil]
  | cons i is ih =>
    rw [List.forall_mem_cons] at his
    obtain ⟨⟨hzero, hchain, hslot⟩, his⟩ := his
    have hnew : i ∉ done := by
      intro hi
      exact (List.nodup_append.mp hnodup).2.2 i hi i List.mem_cons_self rfl
    rw [List.append_cons] at hnodup ⊢
    exact ih (h.insert hzero hnew hchain hslot) hnodup his

/-- Entries in ascending order are linked downwards. -/
theorem Holds.next_lt (h : t.Holds slot nbucket nchain done) (hsorted : done.Pairwise (· < ·))
    (hslot : ∀ i ∈ done, slot i < nbucket) (hi : i ≠ 0) : t.next i < i := by
  by_cases hmem : i ∈ done
  · have hlist := h.lists (slot i) (hslot i hmem)
    have hin : i ∈ (done.filter (slot · = slot i)).reverse := by
      rw [List.mem_reverse, List.mem_filter]
      exact ⟨hmem, decide_eq_true rfl⟩
    obtain ⟨front, back, hsplit⟩ := List.append_of_mem hin
    have hdescending : (front ++ i :: back).Pairwise (· > ·) := by
      rw [← hsplit, List.pairwise_reverse]
      exact hsorted.filter _
    rw [Lists, hsplit] at hlist
    have hfield : pointer (t.next i) = back.head? := Option.some.inj hlist.field_eq
    by_cases hzero : t.next i = 0
    · rw [hzero]
      exact zero_lt_of_ne hi
    · rw [pointer_of_ne hzero] at hfield
      have hback : t.next i ∈ back := List.mem_of_head? hfield.symm
      exact List.rel_of_pairwise_cons (List.pairwise_append.mp hdescending).2.1 hback
  · rw [h.unlinked i hmem]
    exact zero_lt_of_ne hi

/-- A walk along a chain goes up to the first index that it stops at, or to the end. -/
theorem Lists.follow (h : t.Lists i is) {stop : BitVec w → Bool} (hzero : stop 0 = true) :
    follow t.next stop (is.length + 1) i =
      some (is.takeWhile (! stop ·), (is.find? stop).getD 0) := by
  induction is generalizing i with
  | nil =>
    have hi : i = 0 := by
      by_contra hne
      rw [Lists, pointer_of_ne hne] at h
      cases h
    subst hi
    exact follow_of_stop hzero
  | cons j is ih =>
    obtain ⟨hj, q, hlink, hrest⟩ := h
    have hi : i = j := by
      by_cases hne : i = 0
      · rw [hne, pointer, if_pos rfl] at hj
        cases hj
      · rw [pointer_of_ne hne] at hj
        exact Option.some.inj hj
    subst hi
    have hrest : t.Lists (t.next i) is := by
      rw [← Option.some.inj hlink] at hrest
      exact hrest
    cases hstop : stop i with
    | true =>
      rw [follow_of_stop hstop, List.takeWhile_cons_of_neg (by simp [hstop]),
        List.find?_cons_of_pos hstop]
      rfl
    | false =>
      rw [List.length_cons, follow_of_go hstop, ih hrest,
        List.takeWhile_cons_of_pos (by simp [hstop]), List.find?_cons_of_neg (by simp [hstop])]
      rfl

end Buckets

end Arm2x86
