import Arm2x86.Base.Stepping
import Arm2x86.Pageprot.Records

/-!
# Tracking the protection of pages

The records agree with the protection that the last successful call gave to each page as long as
every call leaves them in agreement: a call of `mprotect` has to succeed and to stay in the page
it records, and a fault may only unlock a page that is executable already.
-/

namespace Arm2x86.Pageprot

/-- The bits of a protection that reading, writing and executing depend on. -/
def rwx (prot : BitVec 8) : BitVec 3 := prot.setWidth 3

/-- The records, and the protection that the last successful call covering a page has given to
it. -/
structure World where
  protector : PageProtector
  set : Addr → Option (BitVec 3)

/-- The protection given by a successful call. -/
def World.cover (w : World) (addr length : BitVec 64) (prot : BitVec 3) :
    Addr → Option (BitVec 3) :=
  fun page ↦ if Covers addr length page then some prot else w.set page

/-- A call and what the real `mmap` or `mprotect` in it answers. -/
inductive Call where
  | mmap (result : Option Addr) (length : BitVec 64) (prot : BitVec 32)
  | mprotect (addr : Addr) (length : BitVec 64) (prot : BitVec 32) (succeeds : Bool)
  | handleFault (faultAddr : Addr) (succeeds : Bool)

/-- A fault that is handled sets the page readable, writable and executable, when the real
`mprotect` succeeds. -/
def World.step (w : World) : Call → World
  | .mmap none length prot => { w with protector := pageProtectMmap w.protector none length prot }
  | .mmap (some addr) length prot =>
    { protector := pageProtectMmap w.protector (some addr) length prot
      set := w.cover addr length (rwx (prot.setWidth 8)) }
  | .mprotect addr length prot succeeds =>
    { protector := pageProtectMprotect w.protector addr prot
      set := if succeeds then w.cover addr length (rwx (prot.setWidth 8)) else w.set }
  | .handleFault faultAddr succeeds =>
    { protector := (pageProtectHandleFault w.protector faultAddr).2
      set := if (pageProtectHandleFault w.protector faultAddr).1 = 0 ∧ succeeds then
          w.cover (pageAlignDown faultAddr) 4096 0b111
        else w.set }

/-- A call that fails, or in which the real `mprotect` fails. -/
def World.Fails (w : World) : Call → Prop
  | .mmap result _ _ => result = none
  | .mprotect _ _ _ succeeds => succeeds = false
  | .handleFault faultAddr succeeds =>
    (pageProtectHandleFault w.protector faultAddr).1 ≠ 0 ∨ succeeds = false

/-- One record per page, with the protection that the last successful call has given to it. -/
structure Tracks (w : World) : Prop where
  nodup : (w.protector.pages.map (·.pageAddr)).Nodup
  agrees : ∀ page prot, w.set page = some prot →
    (recorded w.protector.pages page).map rwx = some prot

/-- The call leaves the records in agreement with the pages, and as they are when it fails. -/
def Tracked (w : World) (call : Call) : Prop :=
  Tracks (w.step call) ∧ (w.Fails call →
    ∀ page, recorded (w.step call).protector.pages page = recorded w.protector.pages page)

/-- The ranges for which the real calls succeed consist of whole pages of user memory. -/
def Call.Legal : Call → Prop
  | .mmap (some addr) length _ =>
    pageAlignDown addr = addr ∧ 0 < length.toNat ∧ addr.toNat + length.toNat ≤ 2 ^ 63
  | .mprotect addr length _ true =>
    pageAlignDown addr = addr ∧ addr.toNat + length.toNat ≤ 2 ^ 63
  | _ => True

/-- The pages that a call is about. -/
def Call.Touches : Call → Addr → Prop
  | .mmap (some addr) length _, page => Covers addr length page
  | .mprotect addr length _ _, page => Covers addr length page ∨ page = pageAlignDown addr
  | _, _ => False

/-- A call that leaves the records in agreement with the pages: what the real call changes is what
the records say, before the call or after it. -/
def Safe (w : World) : Call → Prop
  | .mmap none _ _ => True
  | .mmap (some addr) _ _ => addr ≠ 0
  | .mprotect addr length prot true =>
    (0 < length.toNat → addr ≠ 0) ∧
    (∀ page, Covers addr length page → page ≠ addr →
      (recorded w.protector.pages page).map rwx = some (rwx (prot.setWidth 8))) ∧
    (length.toNat = 0 → addr = 0 ∨
      ∀ old, w.set addr = some old → old = rwx (prot.setWidth 8))
  | .mprotect addr _ prot false =>
    ¬ Recordable (pageAlignDown addr) ∨
      recorded w.protector.pages (pageAlignDown addr) = some (prot.setWidth 8)
  | .handleFault faultAddr succeeds =>
    ∀ prot, recorded w.protector.pages (pageAlignDown faultAddr) = some prot → locked prot →
      succeeds = true ∧ prot &&& protExec ≠ 0

/-- What holds between two calls, on the pages of a set. -/
structure Inv (S : Finset Addr) (w : World) : Prop where
  tracks : Tracks w
  subset : ∀ p ∈ w.protector.pages.map (·.pageAddr), p ∈ S
  recordable : ∀ p ∈ w.protector.pages.map (·.pageAddr), Recordable p

/-- A call that is possible, on the pages of a set. -/
def Allowed (S : Finset Addr) (call : Call) : Prop :=
  call.Legal ∧ ∀ page, call.Touches page → page ∈ S

variable {S : Finset Addr} {w : World} {addr length : BitVec 64}

theorem Inv.fits (h : Inv S w) : Fits S w.protector.pages := ⟨h.tracks.nodup, h.subset⟩

/-- Page zero has no record. -/
theorem Inv.recorded_zero (h : Inv S w) : recorded w.protector.pages 0 = none := by
  rw [← Option.not_isSome_iff_eq_none, recorded_isSome_iff]
  intro hzero
  exact (h.recordable 0 hzero).1 rfl

/-- The invariant after the records of some pages have been set to one protection. -/
theorem Inv.mk_of_recorded (h : Inv S w) {w' : World} {P : Addr → Prop} [DecidablePred P]
    (hfits : Fits S w'.protector.pages)
    (hrecorded : ∀ q, recorded w'.protector.pages q =
      if P q then some prot else recorded w.protector.pages q)
    (hP : ∀ q, P q → Recordable q) (htracks : Tracks w') : Inv S w' := by
  refine ⟨htracks, hfits.subset, ?_⟩
  intro q hq
  rw [← recorded_isSome_iff, hrecorded q] at hq
  by_cases hPq : P q
  · exact hP q hPq
  · rw [if_neg hPq] at hq
    exact h.recordable q (recorded_isSome_iff.mp hq)

/-- A successful `mmap` records every page of the mapping. -/
theorem Inv.mmap (h : Inv S w) (hS : S.card < pageTrackMax) {prot : BitVec 32}
    (hcall : Allowed S (.mmap (some addr) length prot)) :
    (Safe w (.mmap (some addr) length prot) → Inv S (w.step (.mmap (some addr) length prot))) ∧
      (Tracked w (.mmap (some addr) length prot) ↔ Safe w (.mmap (some addr) length prot)) := by
  obtain ⟨⟨haligned, hpos, hsmall⟩, htouches⟩ := hcall
  have hdown := toNat_pageAlignDown addr
  rw [haligned] at hdown
  have hgood : addr ≠ 0 → Inv S (w.step (.mmap (some addr) length prot)) := by
    intro hnull
    obtain ⟨hfits, hadd⟩ := pageProtectAdd_spec hS (prot.setWidth 8) h.fits hnull haligned hpos
      (by omega) htouches
    refine h.mk_of_recorded hfits hadd ?_ ⟨hfits.nodup, ?_⟩
    · rintro q ⟨hq, _, hbelow, habove⟩
      have hdownq := toNat_pageAlignDown q
      rw [hq] at hdownq
      have hne : addr.toNat ≠ 0 := fun hz ↦ hnull (BitVec.eq_of_toNat_eq hz)
      refine ⟨?_, by omega⟩
      rintro rfl
      have hzero : (0 : Addr).toNat = 0 := rfl
      omega
    · intro page b hset
      show (recorded (pageProtectAdd _ _ _ _).2.pages page).map rwx = some b
      change w.cover addr length _ page = some b at hset
      rw [World.cover] at hset
      rw [hadd page]
      by_cases hpage : Covers addr length page
      · rw [if_pos hpage] at hset ⊢
        exact hset
      · rw [if_neg hpage] at hset ⊢
        exact h.tracks.agrees page b hset
  refine ⟨hgood, ?_, ?_⟩
  · rintro ⟨htracks, _⟩ hnull
    -- page zero is covered, and never recorded
    subst hnull
    have hcovers : Covers 0 length 0 := ⟨by decide, hpos, by simpa using hpos, by decide⟩
    have hset : (w.step (.mmap (some 0) length prot)).set 0 =
        some (rwx (prot.setWidth 8)) := if_pos hcovers
    have hrecord := htracks.agrees 0 _ hset
    have hsame : (w.step (.mmap (some 0) length prot)).protector = w.protector :=
      congrArg Prod.snd (if_pos (Or.inl rfl))
    rw [hsame, h.recorded_zero] at hrecord
    cases hrecord
  · intro hsafe
    refine ⟨(hgood hsafe).tracks, ?_⟩
    intro hfails
    cases hfails

/-- The records behind an `mprotect` that the real call allows. -/
theorem Inv.recorded_mprotect (h : Inv S w) (hS : S.card < pageTrackMax) {prot : BitVec 32}
    (hcall : Allowed S (.mprotect addr length prot true)) :
    Fits S (pageProtectModify w.protector addr (prot.setWidth 8)).2.pages ∧
      ∀ page, recorded (pageProtectModify w.protector addr (prot.setWidth 8)).2.pages page =
        if page = addr ∧ Recordable page then some (prot.setWidth 8)
        else recorded w.protector.pages page := by
  have hpage : pageAlignDown addr ∈ S := hcall.2 _ (Or.inr rfl)
  obtain ⟨hfits, hmodify⟩ := pageProtectModify_spec hS (prot.setWidth 8) h.fits h.recordable hpage
  rw [hcall.1.1] at hmodify
  exact ⟨hfits, hmodify⟩

theorem covers_self (haligned : pageAlignDown addr = addr) (hpos : 0 < length.toNat) :
    Covers addr length addr :=
  ⟨haligned, hpos, by omega, by omega⟩

theorem recordable_of_aligned (haligned : pageAlignDown addr = addr)
    (hsmall : addr.toNat + length.toNat ≤ 2 ^ 63) (hnull : addr ≠ 0) : Recordable addr := by
  have hdown := toNat_pageAlignDown addr
  rw [haligned] at hdown
  exact ⟨hnull, by omega⟩

/-- Where the records agree behind an `mprotect`, its range was that of one page, or agreed before. -/
theorem Inv.safe_of_tracks_mprotect (h : Inv S w) (hS : S.card < pageTrackMax) {prot : BitVec 32}
    (hcall : Allowed S (.mprotect addr length prot true))
    (htracks : Tracks (w.step (.mprotect addr length prot true))) :
    Safe w (.mprotect addr length prot true) := by
  obtain ⟨-, hmodify⟩ := h.recorded_mprotect hS hcall
  obtain ⟨haligned, hsmall⟩ := hcall.1
  have hagrees : ∀ page b, w.cover addr length (rwx (prot.setWidth 8)) page = some b →
      (recorded (pageProtectModify w.protector addr (prot.setWidth 8)).2.pages page).map
        rwx = some b := htracks.agrees
  refine ⟨?_, ?_, ?_⟩
  · intro hpos hnull
    have hzero := hagrees addr _ (if_pos (covers_self haligned hpos))
    rw [hmodify addr, if_neg fun hboth ↦ hboth.2.1 hnull, hnull, h.recorded_zero] at hzero
    cases hzero
  · intro page hcovers hne
    have hother := hagrees page _ (if_pos hcovers)
    rwa [hmodify page, if_neg fun hboth ↦ hne hboth.1] at hother
  · intro hzero
    by_cases hnull : addr = 0
    · exact Or.inl hnull
    · refine Or.inr ?_
      intro old hold
      have hempty : ¬ Covers addr length addr := fun hcovers ↦ absurd hcovers.2.1 (by omega)
      have hsame := hagrees addr old ((if_neg hempty).trans hold)
      rw [hmodify addr, if_pos ⟨rfl, recordable_of_aligned haligned hsmall hnull⟩] at hsame
      exact (Option.some.inj hsame).symm

theorem Inv.tracks_mprotect (h : Inv S w) (hS : S.card < pageTrackMax) {prot : BitVec 32}
    (hcall : Allowed S (.mprotect addr length prot true))
    (hsafe : Safe w (.mprotect addr length prot true)) :
    Tracks (w.step (.mprotect addr length prot true)) := by
  obtain ⟨hfits, hmodify⟩ := h.recorded_mprotect hS hcall
  obtain ⟨haligned, hsmall⟩ := hcall.1
  obtain ⟨hnull, hothers, hzero⟩ := hsafe
  refine ⟨hfits.nodup, ?_⟩
  intro page b hset
  change w.cover addr length (rwx (prot.setWidth 8)) page = some b at hset
  show (recorded (pageProtectModify w.protector addr (prot.setWidth 8)).2.pages page).map
    rwx = some b
  rw [World.cover] at hset
  rw [hmodify page]
  by_cases hcovers : Covers addr length page
  · rw [if_pos hcovers] at hset
    by_cases hfirst : page = addr
    · subst hfirst
      rw [if_pos ⟨rfl, recordable_of_aligned haligned hsmall (hnull hcovers.2.1)⟩]
      exact hset
    · rw [if_neg fun hboth ↦ hfirst hboth.1, hothers page hcovers hfirst]
      exact hset
  · rw [if_neg hcovers] at hset
    by_cases hfirst : page = addr ∧ Recordable page
    · obtain ⟨rfl, hfirst⟩ := hfirst
      have hlength : length.toNat = 0 := by
        by_contra hne
        exact hcovers (covers_self haligned (Nat.pos_of_ne_zero hne))
      have hold := (hzero hlength).resolve_left hfirst.1 b hset
      rw [if_pos ⟨rfl, hfirst⟩, hold]
      rfl
    · rw [if_neg hfirst]
      exact h.tracks.agrees page b hset

/-- A successful `mprotect` records only the page of its address. -/
theorem Inv.mprotect_true (h : Inv S w) (hS : S.card < pageTrackMax) {prot : BitVec 32}
    (hcall : Allowed S (.mprotect addr length prot true)) :
    (Safe w (.mprotect addr length prot true) →
      Inv S (w.step (.mprotect addr length prot true))) ∧
      (Tracked w (.mprotect addr length prot true) ↔
        Safe w (.mprotect addr length prot true)) := by
  obtain ⟨hfits, hmodify⟩ := h.recorded_mprotect hS hcall
  have htracks := @Inv.tracks_mprotect S w addr length h hS prot hcall
  refine ⟨?_, ?_, ?_⟩
  · intro hsafe
    exact h.mk_of_recorded hfits hmodify (fun _ hq ↦ hq.2) (htracks hsafe)
  · exact fun htracked ↦ h.safe_of_tracks_mprotect hS hcall htracked.1
  · intro hsafe
    refine ⟨htracks hsafe, fun hfails ↦ ?_⟩
    cases hfails

/-- An `mprotect` that fails has changed the record of a page all the same. -/
theorem Inv.mprotect_false (h : Inv S w) (hS : S.card < pageTrackMax) {prot : BitVec 32}
    (hcall : Allowed S (.mprotect addr length prot false)) :
    (Safe w (.mprotect addr length prot false) →
      Inv S (w.step (.mprotect addr length prot false))) ∧
      (Tracked w (.mprotect addr length prot false) ↔
        Safe w (.mprotect addr length prot false)) := by
  have hpage : pageAlignDown addr ∈ S := hcall.2 _ (Or.inr rfl)
  obtain ⟨hfits, hmodify⟩ := pageProtectModify_spec hS (prot.setWidth 8) h.fits
    h.recordable hpage
  have hsame : Safe w (.mprotect addr length prot false) → ∀ page,
      recorded (w.step (.mprotect addr length prot false)).protector.pages page =
        recorded w.protector.pages page := by
    intro hsafe page
    refine (hmodify page).trans ?_
    by_cases hfirst : page = pageAlignDown addr ∧ Recordable page
    · rw [if_pos hfirst, hfirst.1]
      exact (hsafe.resolve_left (fun hnot ↦ hnot (hfirst.1 ▸ hfirst.2))).symm
    · rw [if_neg hfirst]
  have htracks : Safe w (.mprotect addr length prot false) →
      Tracks (w.step (.mprotect addr length prot false)) := by
    intro hsafe
    refine ⟨hfits.nodup, ?_⟩
    intro page b hset
    rw [hsame hsafe page]
    exact h.tracks.agrees page b hset
  refine ⟨?_, ?_, ?_⟩
  · intro hsafe
    exact h.mk_of_recorded hfits hmodify (fun _ hq ↦ hq.2) (htracks hsafe)
  · rintro ⟨_, hfails⟩
    by_cases hrecordable : Recordable (pageAlignDown addr)
    · refine Or.inr ?_
      have hkept := hfails rfl (pageAlignDown addr)
      rw [← hkept]
      exact (hmodify _).trans (if_pos ⟨rfl, hrecordable⟩)
    · exact Or.inl hrecordable
  · intro hsafe
    exact ⟨htracks hsafe, fun _ ↦ hsame hsafe⟩

/-- Unlocking makes a page readable, writable and executable only when it was executable. -/
theorem rwx_unlock {prot : BitVec 8} (hlocked : locked prot) :
    rwx (prot ||| protWrite) = 0b111 ↔ prot &&& protExec ≠ 0 := by
  revert prot
  unfold locked rwx protRead protWrite protExec
  decide +kernel

/-- Unlocking changes a protection. -/
theorem unlock_ne {prot : BitVec 8} (hlocked : locked prot) : prot ||| protWrite ≠ prot := by
  revert prot
  unfold locked protRead protWrite
  decide +kernel

/-- The answer to a fault. -/
theorem handleFault_fst (pp : PageProtector) (faultAddr : Addr) :
    (pageProtectHandleFault pp faultAddr).1 = 0 ↔
      (faultLoop (pageAlignDown faultAddr) pp.pages).1 = true := by
  unfold pageProtectHandleFault
  cases faultLoop (pageAlignDown faultAddr) pp.pages with
  | mk handled pages => cases handled <;> simp

theorem handleFault_snd (pp : PageProtector) (faultAddr : Addr) :
    (pageProtectHandleFault pp faultAddr).2 =
      ⟨(faultLoop (pageAlignDown faultAddr) pp.pages).2⟩ := rfl

section Fault

variable {faultAddr : Addr} {succeeds : Bool}

theorem step_handleFault (w : World) (faultAddr : Addr) (succeeds : Bool) :
    w.step (.handleFault faultAddr succeeds) =
      { protector := ⟨(faultLoop (pageAlignDown faultAddr) w.protector.pages).2⟩
        set := if (faultLoop (pageAlignDown faultAddr) w.protector.pages).1 = true ∧ succeeds = true then
            w.cover (pageAlignDown faultAddr) 4096 0b111
          else w.set } := by
  simp only [World.step, handleFault_fst, handleFault_snd]

theorem fails_handleFault : w.Fails (.handleFault faultAddr succeeds) ↔
    (faultLoop (pageAlignDown faultAddr) w.protector.pages).1 = false ∨ succeeds = false := by
  simp only [World.Fails, ne_eq, handleFault_fst, Bool.not_eq_true]

/-- A fault in a page that is not locked changes nothing. -/
theorem Inv.handleFault_ignored (h : Inv S w)
    (hloop : (faultLoop (pageAlignDown faultAddr) w.protector.pages).1 = false) :
    Inv S (w.step (.handleFault faultAddr succeeds)) ∧ Tracked w (.handleFault faultAddr succeeds) ∧
      Safe w (.handleFault faultAddr succeeds) := by
  obtain ⟨hhandled, hrecorded⟩ := faultLoop_spec (pageAlignDown faultAddr) h.tracks.nodup
  rw [hloop] at hhandled hrecorded
  have hmap : (faultLoop (pageAlignDown faultAddr) w.protector.pages).2.map (·.pageAddr) =
      w.protector.pages.map (·.pageAddr) := map_faultLoop
  have hsame : ∀ q, recorded (faultLoop (pageAlignDown faultAddr) w.protector.pages).2 q =
      recorded w.protector.pages q := by
    intro q
    rw [hrecorded q, if_neg fun hboth ↦ absurd hboth.1 Bool.false_ne_true]
  have hset : (if false = true ∧ succeeds = true then w.cover (pageAlignDown faultAddr) 4096 0b111
      else w.set) = w.set := if_neg fun hboth ↦ absurd hboth.1 Bool.false_ne_true
  have htracks : Tracks ⟨⟨(faultLoop (pageAlignDown faultAddr) w.protector.pages).2⟩, w.set⟩ := by
    refine ⟨hmap.symm ▸ h.tracks.nodup, ?_⟩
    intro q b hq
    rw [hsame q]
    exact h.tracks.agrees q b hq
  rw [Tracked, step_handleFault, hloop, hset]
  refine ⟨⟨htracks, hmap.symm ▸ h.subset, hmap.symm ▸ h.recordable⟩, ⟨htracks, fun _ ↦ hsame⟩, ?_⟩
  intro prot hprot hlocked
  exact absurd (hhandled.mpr ⟨prot, hprot, hlocked⟩) Bool.false_ne_true

/-- What is to be asked of a fault in a locked page. -/
theorem safe_handleFault_iff {prot : BitVec 8}
    (hprot : recorded w.protector.pages (pageAlignDown faultAddr) = some prot) (hlocked : locked prot) :
    Safe w (.handleFault faultAddr succeeds) ↔ succeeds = true ∧ prot &&& protExec ≠ 0 := by
  constructor
  · intro hall
    exact hall prot hprot hlocked
  · rintro hgood prot' hprot' _
    rw [hprot] at hprot'
    cases hprot'
    exact hgood

/-- A fault in a locked page unlocks it. -/
theorem Inv.handleFault_unlocks (h : Inv S w) {prot : BitVec 8}
    (hprot : recorded w.protector.pages (pageAlignDown faultAddr) = some prot) (hlocked : locked prot) :
    (Safe w (.handleFault faultAddr succeeds) → Inv S (w.step (.handleFault faultAddr succeeds))) ∧
      (Tracked w (.handleFault faultAddr succeeds) ↔ Safe w (.handleFault faultAddr succeeds)) := by
  rw [Tracked, fails_handleFault, step_handleFault, safe_handleFault_iff hprot hlocked]
  have hidem := pageAlignDown_idem faultAddr
  generalize pageAlignDown faultAddr = page at hprot hidem ⊢
  obtain ⟨hhandled, hrecorded⟩ := faultLoop_spec page h.tracks.nodup
  have hloop := hhandled.mpr ⟨prot, hprot, hlocked⟩
  have hmap : (faultLoop page w.protector.pages).2.map (·.pageAddr) =
      w.protector.pages.map (·.pageAddr) := map_faultLoop
  rw [hloop] at hrecorded ⊢
  have hself : recorded (faultLoop page w.protector.pages).2 page = some (prot ||| protWrite) := by
    rw [hrecorded page, if_pos ⟨rfl, rfl⟩, hprot]
    rfl
  have hcovers : ∀ q, Covers page 4096 q ↔ q = page := fun q ↦ covers_page hidem
  have htracks : succeeds = true ∧ prot &&& protExec ≠ 0 →
      Tracks ⟨⟨(faultLoop page w.protector.pages).2⟩,
        if true = true ∧ succeeds = true then w.cover page 4096 0b111 else w.set⟩ := by
    rintro ⟨hsucceeds, hexec⟩
    refine ⟨hmap.symm ▸ h.tracks.nodup, ?_⟩
    intro q b hset
    rw [if_pos ⟨rfl, hsucceeds⟩] at hset
    change (if Covers page 4096 q then some 0b111 else w.set q) = some b at hset
    by_cases hq : q = page
    · subst hq
      rw [if_pos ((hcovers q).mpr rfl)] at hset
      rw [hself, ← hset]
      exact congrArg some ((rwx_unlock hlocked).mpr hexec)
    · rw [if_neg (mt (hcovers q).mp hq)] at hset
      rw [hrecorded q, if_neg fun hboth ↦ hq hboth.2]
      exact h.tracks.agrees q b hset
  refine ⟨fun hgood ↦ ⟨htracks hgood, hmap.symm ▸ h.subset, hmap.symm ▸ h.recordable⟩, ?_, ?_⟩
  · rintro ⟨hbroken, hkept⟩
    have hsucceeds : succeeds = true := by
      by_contra hnot
      have hsame := hkept (Or.inr (Bool.eq_false_iff.mpr hnot)) page
      rw [hself, hprot] at hsame
      exact unlock_ne hlocked (Option.some.inj hsame)
    refine ⟨hsucceeds, ?_⟩
    have hset := hbroken.agrees page 0b111
      (by rw [if_pos ⟨rfl, hsucceeds⟩]; exact if_pos ((hcovers page).mpr rfl))
    rw [hself] at hset
    exact (rwx_unlock hlocked).mp (Option.some.inj hset)
  · intro hgood
    refine ⟨htracks hgood, ?_⟩
    rintro (hnot | hnot)
    · cases hnot
    · rw [hgood.1] at hnot
      cases hnot

/-- A fault records that its page is writable, when it was read-only. -/
theorem Inv.handleFault (h : Inv S w) :
    (Safe w (.handleFault faultAddr succeeds) →
      Inv S (w.step (.handleFault faultAddr succeeds))) ∧
      (Tracked w (.handleFault faultAddr succeeds) ↔
        Safe w (.handleFault faultAddr succeeds)) := by
  obtain ⟨hhandled, -⟩ := faultLoop_spec (pageAlignDown faultAddr) h.tracks.nodup
  cases hloop : (faultLoop (pageAlignDown faultAddr) w.protector.pages).1 with
  | false =>
    obtain ⟨hinv, htracked, hsafe⟩ := @Inv.handleFault_ignored S w faultAddr succeeds h hloop
    exact ⟨fun _ ↦ hinv, iff_of_true htracked hsafe⟩
  | true =>
    obtain ⟨prot, hprot, hlocked⟩ := hhandled.mp hloop
    exact h.handleFault_unlocks hprot hlocked

end Fault

/-- A call from a state of the invariant. -/
theorem Inv.step (h : Inv S w) (hS : S.card < pageTrackMax) {call : Call}
    (hcall : Allowed S call) :
    (Safe w call → Inv S (w.step call)) ∧ (Tracked w call ↔ Safe w call) := by
  match call, hcall with
  | .mmap none length prot, _ =>
    refine ⟨fun _ ↦ h, fun _ ↦ trivial, fun _ ↦ ⟨h.tracks, fun _ _ ↦ rfl⟩⟩
  | .mmap (some addr) length prot, hcall => exact h.mmap hS hcall
  | .mprotect addr length prot true, hcall => exact h.mprotect_true hS hcall
  | .mprotect addr length prot false, hcall => exact h.mprotect_false hS hcall
  | .handleFault faultAddr succeeds, _ => exact h.handleFault

/-- No page is recorded, and none has been given a protection. -/
def World.initial : World := ⟨⟨[]⟩, fun _ ↦ none⟩

theorem initial_inv (S : Finset Addr) : Inv S .initial := by
  refine ⟨⟨List.nodup_nil, ?_⟩, ?_, ?_⟩
  · intro page prot hset
    cases hset
  · intro p hp
    cases hp
  · intro p hp
    cases hp

/-- On fewer pages than the table has records, every call of a run leaves one record per page with
the protection that the last successful call has given to it, and no record changed by a call
that fails, exactly when every call is safe. -/
theorem run_tracked_iff (hS : S.card < pageTrackMax) {calls : List Call}
    (hcalls : ∀ call ∈ calls, Allowed S call) :
    (∀ done call, done ++ [call] <+: calls → Tracked (done.foldl World.step .initial) call) ↔
      ∀ done call, done ++ [call] <+: calls → Safe (done.foldl World.step .initial) call := by
  rw [← Stepping.each_iff, ← Stepping.each_iff]
  exact Stepping.each_congr (fun _ _ h hcall ↦ (h.step hS hcall).1)
    (fun _ _ h hcall ↦ (h.step hS hcall).2) (initial_inv S) hcalls

/-- A page that is mapped, made read-only but executable, and unlocked by a fault. -/
private def lockAndFault : List Call :=
  [.mmap (some 0x10000) 4096 3, .mprotect 0x10000 4096 5 true, .mmap none 4096 3,
    .handleFault 0x10008 true]

theorem run_tracked_page :
    (∀ call ∈ lockAndFault, Allowed {0x10000} call) ∧ ∀ done call,
      done ++ [call] <+: lockAndFault → Tracked (done.foldl World.step .initial) call := by
  have hpage : pageAlignDown 0x10000 = 0x10000 := by decide
  have honly : ∀ q, Covers 0x10000 4096 q → q ∈ ({0x10000} : Finset Addr) :=
    fun q hq ↦ Finset.mem_singleton.mpr ((covers_page hpage).mp hq)
  have hcalls : ∀ call ∈ lockAndFault, Allowed {0x10000} call := by
    intro call hcall
    simp only [lockAndFault, List.mem_cons, List.not_mem_nil, or_false] at hcall
    rcases hcall with rfl | rfl | rfl | rfl
    · exact ⟨⟨hpage, by decide, by decide⟩, honly⟩
    · refine ⟨⟨hpage, by decide⟩, ?_⟩
      rintro q (hq | hq)
      · exact honly q hq
      · exact Finset.mem_singleton.mpr (hq.trans hpage)
    · exact ⟨trivial, fun _ htouch ↦ htouch.elim⟩
    · exact ⟨trivial, fun _ htouch ↦ htouch.elim⟩
  refine ⟨hcalls,
    (run_tracked_iff (by decide) hcalls).mpr (Stepping.each_iff.mp ⟨?_, ⟨?_, ?_, ?_⟩, ?_, ?_, ?_⟩)⟩
  · show (0x10000 : Addr) ≠ 0
    decide
  · intro _
    decide
  · intro q hq hne
    exact absurd ((covers_page hpage).mp hq) hne
  · intro hzero
    exact absurd hzero (by decide)
  · trivial
  · intro prot hprot _
    refine ⟨rfl, ?_⟩
    have hfive : some prot = some 5 := hprot.symm.trans (by decide +kernel)
    rw [Option.some.inj hfive]
    decide
  · trivial

/-- Two pages made read-only by one call: the record of the second one is left behind. -/
theorem mprotect_two_pages :
    (∀ call ∈ [Call.mmap (some 0x10000) 0x2000 3, .mprotect 0x10000 0x2000 1 true], call.Legal) ∧
      ¬ ∀ done call,
        done ++ [call] <+: [Call.mmap (some 0x10000) 0x2000 3, .mprotect 0x10000 0x2000 1 true] →
          Tracked (done.foldl World.step .initial) call := by
  refine ⟨?_, ?_⟩
  · intro call hcall
    simp only [List.mem_cons, List.not_mem_nil, or_false] at hcall
    rcases hcall with rfl | rfl
    · exact ⟨by decide, by decide, by decide⟩
    · exact ⟨by decide, by decide⟩
  · intro hall
    have hlast := hall [Call.mmap (some 0x10000) 0x2000 3] (.mprotect 0x10000 0x2000 1 true)
      List.prefix_rfl
    have hsecond := hlast.1.agrees 0x11000 1 (by decide +kernel)
    revert hsecond
    decide +kernel

end Arm2x86.Pageprot
