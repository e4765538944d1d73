import Arm2x86.Base.Bytes
import Mathlib.Data.Finset.Card

/-!
# Page records

What is recorded for a page after each of the operations on the records, for tables with room for
all the pages they are used on.
-/

/-!
## Page protection

The page records of `modules/arm2x86_pageprot.c` and the three calls that change them. What the
real `mmap` and `mprotect` answer is part of a call.
-/

namespace Arm2x86.Pageprot

abbrev Addr := BitVec 64

/-- `PAGE_PROT_READ`, `PAGE_PROT_WRITE` and `PAGE_PROT_EXEC`, which are also `PROT_READ`,
`PROT_WRITE` and `PROT_EXEC`. -/
def protRead : BitVec 8 := 0x1#8
def protWrite : BitVec 8 := 0x2#8
def protExec : BitVec 8 := 0x4#8

/-- `PageState`, `arm2x86_pageprot.h:16`. -/
structure PageState where
  pageAddr : Addr
  prot : BitVec 8
  isWatched : Bool
  faultCount : BitVec 32
deriving DecidableEq

/-- `PAGE_TRACK_MAX`. -/
def pageTrackMax : Nat := 65536

/-- `PageProtector`, `arm2x86_pageprot.h:26`: the records below `count`. -/
structure PageProtector where
  pages : List PageState
deriving DecidableEq

/-- `PAGE_ALIGN_DOWN`: the mask is an `int` and is sign-extended. -/
def pageAlignDown (addr : Addr) : Addr := addr &&& ~~~0xFFF#64

/-- `PAGE_ALIGN_UP`. -/
def pageAlignUp (addr : Addr) : Addr := (addr + 4096 - 1) &&& ~~~0xFFF#64

/-- The first record of a page. -/
def find (pages : List PageState) (page : Addr) : Option PageState :=
  pages.find? fun ps ↦ ps.pageAddr = page

/-- The records with another protection in the first record of a page. -/
def setProt (page : Addr) (prot : BitVec 8) : List PageState → List PageState
  | [] => []
  | ps :: rest =>
    if ps.pageAddr = page then { ps with prot } :: rest else ps :: setProt page prot rest

/-- What the loop of `page_protect_add` does for a page. -/
def addPage (pages : List PageState) (page : Addr) (prot : BitVec 8) : List PageState :=
  if (find pages page).isSome then setProt page prot pages
  else pages ++ [{ pageAddr := page, prot, isWatched := true, faultCount := 0 }]

/-- The loop of `page_protect_add` over `n` more pages; it ends early when the records are full. -/
def addPages (prot : BitVec 8) : Nat → Addr → List PageState → List PageState
  | 0, _, pages => pages
  | n + 1, page, pages =>
    if pages.length ≥ pageTrackMax then pages
    else addPages prot n (page + 4096) (addPage pages page prot)

/-- `page_protect_add`, `arm2x86_pageprot.c:34`. -/
def pageProtectAdd (pp : PageProtector) (addr size : BitVec 64) (prot : BitVec 8) :
    Int × PageProtector :=
  if addr = 0 ∨ size = 0 then (-1, pp)
  else if pp.pages.length ≥ pageTrackMax then (-1, pp)
  else
    let start := pageAlignDown addr
    let stop := pageAlignUp (addr + size)
    let n := if start < stop then (stop - start).toNat / 4096 else 0
    (0, ⟨addPages prot n start pp.pages⟩)

/-- `page_protect_modify`, `arm2x86_pageprot.c:75`. -/
def pageProtectModify (pp : PageProtector) (addr : Addr) (newProt : BitVec 8) :
    Int × PageProtector :=
  let page := pageAlignDown addr
  if (find pp.pages page).isSome then (0, ⟨setProt page newProt pp.pages⟩)
  else pageProtectAdd pp page 4096 newProt

/-- A protection with which a write fault makes the page writable. -/
def locked (prot : BitVec 8) : Prop := prot &&& protRead ≠ 0 ∧ prot &&& protWrite = 0

instance (prot : BitVec 8) : Decidable (locked prot) := inferInstanceAs (Decidable (_ ∧ _))

/-- A record with one more fault. -/
def PageState.counted (ps : PageState) : PageState := { ps with faultCount := ps.faultCount + 1 }

/-- A record whose page has been made writable. -/
def PageState.unlocked (ps : PageState) : PageState := { ps with prot := ps.prot ||| protWrite }

/-- The loop of `page_protect_handle_fault`: whether it makes the page writable, and the records
after it. It goes on after a record that it leaves locked. -/
def faultLoop (page : Addr) : List PageState → Bool × List PageState
  | [] => (false, [])
  | ps :: rest =>
    if ps.pageAddr = page then
      if locked ps.counted.prot then (true, ps.counted.unlocked :: rest)
      else ((faultLoop page rest).1, ps.counted :: (faultLoop page rest).2)
    else ((faultLoop page rest).1, ps :: (faultLoop page rest).2)

/-- `page_protect_handle_fault`, `arm2x86_pageprot.c:120`. When it handles the fault, it asks the
real `mprotect` to make the page readable, writable and executable, and does not look at the
answer. -/
def pageProtectHandleFault (pp : PageProtector) (faultAddr : Addr) : Int × PageProtector :=
  let (handled, pages) := faultLoop (pageAlignDown faultAddr) pp.pages
  (if handled then 0 else -1, ⟨pages⟩)

/-- `page_protect_mmap`, `arm2x86_pageprot.c:155`; `result` is the answer of the real `mmap`. -/
def pageProtectMmap (pp : PageProtector) (result : Option Addr) (length : BitVec 64)
    (prot : BitVec 32) : PageProtector :=
  match result with
  | none => pp
  | some addr => (pageProtectAdd pp addr length (prot.setWidth 8)).2

/-- `page_protect_mprotect`, `arm2x86_pageprot.c:170`: the records change before the real
`mprotect` is asked, and only those of the first page. -/
def pageProtectMprotect (pp : PageProtector) (addr : Addr) (prot : BitVec 32) : PageProtector :=
  (pageProtectModify pp addr (prot.setWidth 8)).2

end Arm2x86.Pageprot

namespace Arm2x86.Pageprot

variable {pages : List PageState} {page p q : Addr} {prot : BitVec 8} {ps : PageState}

/-- The protection recorded for a page. -/
def recorded (pages : List PageState) (page : Addr) : Option (BitVec 8) :=
  (find pages page).map fun ps ↦ ps.prot

@[simp] theorem recorded_nil : recorded [] page = none := rfl

theorem recorded_cons : recorded (ps :: pages) page =
    if ps.pageAddr = page then some ps.prot else recorded pages page := by
  unfold recorded find
  rw [List.find?_cons]
  by_cases h : ps.pageAddr = page <;> simp [h]

/-- A page is recorded when one of the records is about it. -/
theorem recorded_isSome_iff : (recorded pages page).isSome ↔ page ∈ pages.map (·.pageAddr) := by
  induction pages with
  | nil => simp
  | cons ps pages ih =>
    rw [recorded_cons, List.map_cons, List.mem_cons]
    by_cases h : ps.pageAddr = page
    · simp [h]
    · rw [if_neg h, ih]
      exact (or_iff_right (Ne.symm h)).symm

theorem find_isSome_iff : (find pages page).isSome ↔ page ∈ pages.map (·.pageAddr) := by
  rw [← recorded_isSome_iff, recorded, Option.isSome_map]

theorem recorded_append : recorded (pages ++ [ps]) page =
    (recorded pages page).or (if ps.pageAddr = page then some ps.prot else none) := by
  induction pages with
  | nil => simp [recorded_cons]
  | cons d pages ih =>
    rw [List.cons_append, recorded_cons, recorded_cons, ih]
    by_cases h : d.pageAddr = page <;> simp [h]

/-- Another protection leaves the pages of the records. -/
@[simp] theorem map_setProt : (setProt page prot pages).map (·.pageAddr) =
    pages.map (·.pageAddr) := by
  induction pages with
  | nil => rfl
  | cons ps pages ih =>
    rw [setProt]
    split
    · rfl
    · rw [List.map_cons, List.map_cons, ih]

theorem recorded_setProt : recorded (setProt page prot pages) q =
    if q = page then (recorded pages page).map fun _ ↦ prot else recorded pages q := by
  induction pages with
  | nil => simp [setProt]
  | cons ps pages ih =>
    rw [setProt]
    split
    · next h =>
      rw [recorded_cons, recorded_cons, recorded_cons, if_pos h, h]
      by_cases hq : q = page
      · simp [hq]
      · simp [hq, Ne.symm hq]
    · next h =>
      rw [recorded_cons, ih, recorded_cons, recorded_cons, if_neg h]
      by_cases hq : q = page
      · rw [if_pos hq, if_pos hq, hq, if_neg h]
      · rw [if_neg hq, if_neg hq]

/-- One more page is recorded, or one page is recorded otherwise. -/
theorem recorded_addPage : recorded (addPage pages page prot) q =
    if q = page then some prot else recorded pages q := by
  unfold addPage
  split
  · next h =>
    rw [recorded_setProt]
    split
    · obtain ⟨old, hold⟩ := Option.isSome_iff_exists.mp
        (recorded_isSome_iff.mpr (find_isSome_iff.mp h))
      rw [hold]
      rfl
    · rfl
  · next h =>
    have hnone : recorded pages page = none := by
      rw [← Option.not_isSome_iff_eq_none, recorded_isSome_iff, ← find_isSome_iff]
      exact h
    rw [recorded_append]
    by_cases hq : q = page
    · rw [hq, hnone]
      simp
    · simp [hq, Ne.symm hq]

/-- The pages recorded after a page was added. -/
theorem map_addPage : (addPage pages page prot).map (·.pageAddr) =
    if page ∈ pages.map (·.pageAddr) then pages.map (·.pageAddr)
    else pages.map (·.pageAddr) ++ [page] := by
  unfold addPage
  by_cases h : page ∈ pages.map (·.pageAddr)
  · rw [if_pos (find_isSome_iff.mpr h), if_pos h, map_setProt]
  · rw [if_neg (mt find_isSome_iff.mp h), if_neg h, List.map_append]
    rfl

/-- One record per page, for pages of a set that is small enough for the table. -/
structure Fits (S : Finset Addr) (pages : List PageState) : Prop where
  nodup : (pages.map (·.pageAddr)).Nodup
  subset : ∀ p ∈ pages.map (·.pageAddr), p ∈ S

theorem Fits.length_le {S : Finset Addr} (h : Fits S pages) : pages.length ≤ S.card := by
  have hcard := Finset.card_le_card (s := (pages.map (·.pageAddr)).toFinset) (t := S) (by
    intro p hp
    exact h.subset p (List.mem_toFinset.mp hp))
  rwa [List.toFinset_card_of_nodup h.nodup, List.length_map] at hcard

theorem Fits.addPage {S : Finset Addr} (h : Fits S pages) (hpage : page ∈ S)
    (prot : BitVec 8) : Fits S (addPage pages page prot) := by
  by_cases hold : page ∈ pages.map (·.pageAddr)
  · have hmap : (Pageprot.addPage pages page prot).map (·.pageAddr) = pages.map (·.pageAddr) :=
      map_addPage.trans (if_pos hold)
    exact ⟨hmap ▸ h.nodup, hmap ▸ h.subset⟩
  · have hmap : (Pageprot.addPage pages page prot).map (·.pageAddr) =
        pages.map (·.pageAddr) ++ [page] := map_addPage.trans (if_neg hold)
    refine ⟨?_, ?_⟩
    · rw [hmap]
      exact h.nodup.append (List.nodup_singleton page) (by simpa using hold)
    · rw [hmap]
      intro p hp
      rcases List.mem_append.mp hp with hp | hp
      · exact h.subset p hp
      · rwa [List.mem_singleton.mp hp]

/-- The pages of the loop of `page_protect_add`. -/
def loopPages : Nat → Addr → List Addr
  | 0, _ => []
  | n + 1, page => page :: loopPages n (page + 4096)

/-- With room for all of its pages the loop records each of them. -/
theorem addPages_spec {S : Finset Addr} (hS : S.card < pageTrackMax) (prot : BitVec 8) {n : Nat}
    (h : Fits S pages) (hloop : ∀ p ∈ loopPages n page, p ∈ S) :
    Fits S (addPages prot n page pages) ∧ ∀ q, recorded (addPages prot n page pages) q =
      if q ∈ loopPages n page then some prot else recorded pages q := by
  induction n generalizing page pages with
  | zero =>
    refine ⟨h, ?_⟩
    intro q
    rw [addPages, loopPages, if_neg List.not_mem_nil]
  | succ n ih =>
    have hroom : ¬ pages.length ≥ pageTrackMax := by
      have hle := h.length_le
      omega
    have hfirst : page ∈ S := hloop page (List.mem_cons_self ..)
    obtain ⟨hfits, hrest⟩ := ih (h.addPage hfirst prot)
      (fun p hp ↦ hloop p (List.mem_cons_of_mem page hp))
    rw [addPages, if_neg hroom]
    refine ⟨hfits, ?_⟩
    intro q
    rw [hrest q, recorded_addPage, loopPages]
    by_cases hlater : q ∈ loopPages n (page + 4096)
    · rw [if_pos hlater, if_pos (List.mem_cons_of_mem page hlater)]
    · by_cases hq : q = page
      · rw [if_neg hlater, if_pos hq, if_pos (hq ▸ List.mem_cons_self ..)]
      · rw [if_neg hlater, if_neg hq, if_neg fun hmem ↦ (List.mem_cons.mp hmem).elim hq hlater]

/-- The start of the page of an address. -/
theorem toNat_pageAlignDown (addr : Addr) :
    (pageAlignDown addr).toNat = addr.toNat / 4096 * 4096 := by
  have hshift : pageAlignDown addr = (addr >>> 12) <<< 12 := by
    have hmask : ∀ i < 64, (0xFFF#64).getLsbD i = decide (i < 12) := by decide
    apply BitVec.eq_of_getLsbD_eq
    intro i hi
    rw [pageAlignDown, BitVec.getLsbD_and, BitVec.getLsbD_not, hmask i hi,
      BitVec.getLsbD_shiftLeft, BitVec.getLsbD_ushiftRight]
    by_cases hlow : i < 12
    · simp [hlow]
    · have hback : 12 + (i - 12) = i := by omega
      simp [hi, hlow, hback]
  have haddr := addr.isLt
  rw [hshift, BitVec.toNat_shiftLeft, BitVec.toNat_ushiftRight, Nat.shiftRight_eq_div_pow,
    Nat.shiftLeft_eq]
  omega

/-- A page and a range of addresses overlap. -/
def Covers (addr length page : BitVec 64) : Prop :=
  pageAlignDown page = page ∧ 0 < length.toNat ∧ page.toNat < addr.toNat + length.toNat ∧
    addr.toNat < page.toNat + 4096

instance (addr length page : BitVec 64) : Decidable (Covers addr length page) :=
  inferInstanceAs (Decidable (_ ∧ _))

theorem mem_loopPages {n : Nat} (hsmall : page.toNat + n * 4096 < 2 ^ 64) :
    q ∈ loopPages n page ↔ ∃ i < n, q.toNat = page.toNat + i * 4096 := by
  induction n generalizing page with
  | zero => simp [loopPages]
  | succ n ih =>
    have hnext : (page + 4096).toNat = page.toNat + 4096 := by
      rw [BitVec.toNat_add]
      show (page.toNat + 4096) % 2 ^ 64 = _
      omega
    rw [loopPages, List.mem_cons, ih (by omega), hnext]
    constructor
    · rintro (rfl | ⟨i, hi, hq⟩)
      · exact ⟨0, Nat.succ_pos n, by omega⟩
      · exact ⟨i + 1, by omega, by omega⟩
    · rintro ⟨i, hi, hq⟩
      cases i with
      | zero =>
        refine Or.inl (BitVec.eq_of_toNat_eq ?_)
        omega
      | succ i => exact Or.inr ⟨i, by omega, by omega⟩

/-- `page_protect_add` on a range that starts with a page. -/
theorem pageProtectAdd_spec {S : Finset Addr} (hS : S.card < pageTrackMax) (prot : BitVec 8)
    {pp : PageProtector} (h : Fits S pp.pages) {addr size : BitVec 64} (hnull : addr ≠ 0)
    (haligned : pageAlignDown addr = addr) (hsize : 0 < size.toNat)
    (hsmall : addr.toNat + size.toNat ≤ 2 ^ 64 - 4096) (hS' : ∀ p, Covers addr size p → p ∈ S) :
    Fits S (pageProtectAdd pp addr size prot).2.pages ∧
      ∀ q, recorded (pageProtectAdd pp addr size prot).2.pages q =
        if Covers addr size q then some prot else recorded pp.pages q := by
  have hroom : ¬ pp.pages.length ≥ pageTrackMax := by
    have hle := h.length_le
    omega
  have hzero : ¬ (addr = 0 ∨ size = 0) := by
    rintro (hz | hz)
    · exact hnull hz
    · rw [hz] at hsize
      exact absurd hsize (by decide)
  have hdown := toNat_pageAlignDown addr
  rw [haligned] at hdown
  have hup : (pageAlignUp (addr + size)).toNat = (addr.toNat + size.toNat + 4095) / 4096 * 4096 := by
    have hsum : (addr + size + 4096 - 1).toNat = addr.toNat + size.toNat + 4095 := by
      rw [BitVec.toNat_sub, BitVec.toNat_add, BitVec.toNat_add]
      show (2 ^ 64 - 1 + ((addr.toNat + size.toNat) % 2 ^ 64 + 4096) % 2 ^ 64) % 2 ^ 64 = _
      omega
    rw [pageAlignUp, ← hsum]
    exact toNat_pageAlignDown _
  have hless : addr < pageAlignUp (addr + size) := by
    rw [BitVec.lt_def, hup]
    omega
  have hcount : (pageAlignUp (addr + size) - addr).toNat / 4096 =
      (addr.toNat + size.toNat + 4095) / 4096 - addr.toNat / 4096 := by
    rw [BitVec.toNat_sub_of_le (Nat.le_of_lt hless), hup]
    omega
  have hpages : ∀ q, q ∈ loopPages ((addr.toNat + size.toNat + 4095) / 4096 - addr.toNat / 4096)
      addr ↔ Covers addr size q := by
    intro q
    rw [mem_loopPages (by omega)]
    have hq := toNat_pageAlignDown q
    constructor
    · rintro ⟨i, hi, hplace⟩
      refine ⟨BitVec.eq_of_toNat_eq ?_, hsize, ?_, ?_⟩
      · omega
      · omega
      · omega
    · rintro ⟨hpage, _, hbelow, habove⟩
      rw [hpage] at hq
      exact ⟨q.toNat / 4096 - addr.toNat / 4096, by omega, by omega⟩
  have hspec := addPages_spec hS prot h (fun p hp ↦ hS' p ((hpages p).mp hp))
  unfold pageProtectAdd
  rw [if_neg hzero, if_neg hroom, haligned]
  dsimp only
  rw [if_pos hless, hcount]
  refine ⟨hspec.1, ?_⟩
  intro q
  rw [hspec.2 q]
  by_cases hq : Covers addr size q
  · rw [if_pos ((hpages q).mpr hq), if_pos hq]
  · rw [if_neg (mt (hpages q).mp hq), if_neg hq]

theorem pageAlignDown_idem (addr : Addr) :
    pageAlignDown (pageAlignDown addr) = pageAlignDown addr := by
  apply BitVec.eq_of_toNat_eq
  rw [toNat_pageAlignDown, toNat_pageAlignDown]
  omega

/-- One page covers only itself. -/
theorem covers_page (hpage : pageAlignDown page = page) : Covers page 4096 q ↔ q = page := by
  have hdown := toNat_pageAlignDown page
  rw [hpage] at hdown
  have hsize : (4096 : BitVec 64).toNat = 4096 := rfl
  unfold Covers
  rw [hsize]
  constructor
  · rintro ⟨hq, _, hbelow, habove⟩
    have hdownq := toNat_pageAlignDown q
    rw [hq] at hdownq
    apply BitVec.eq_of_toNat_eq
    omega
  · rintro rfl
    exact ⟨hpage, by decide, by omega, by omega⟩

/-- A page that `page_protect_modify` can add: neither the first nor the last one. -/
def Recordable (page : Addr) : Prop := page ≠ 0 ∧ page.toNat + 4096 ≤ 2 ^ 64 - 4096

instance (page : Addr) : Decidable (Recordable page) := inferInstanceAs (Decidable (_ ∧ _))

/-- The first and the last page of the address space cannot be added. -/
theorem pageProtectAdd_of_not_recordable {pp : PageProtector}
    (hpage : pageAlignDown page = page) (h : ¬ Recordable page) :
    (pageProtectAdd pp page 4096 prot).2 = pp := by
  unfold pageProtectAdd
  split
  · rfl
  · next hzero =>
    split
    · rfl
    · have hdown := toNat_pageAlignDown page
      rw [hpage] at hdown
      have hlast : page.toNat = 2 ^ 64 - 4096 := by
        have hne : page ≠ 0 := fun hz ↦ hzero (Or.inl hz)
        have hlarge : ¬ page.toNat + 4096 ≤ 2 ^ 64 - 4096 := fun hle ↦ h ⟨hne, hle⟩
        have hlt := page.isLt
        omega
      have hwrap : page + 4096 = 0 := by
        apply BitVec.eq_of_toNat_eq
        rw [BitVec.toNat_add, hlast]
        rfl
      have hstop : pageAlignUp (page + 4096) = 0 := by
        rw [hwrap]
        decide
      rw [hpage, hstop]
      dsimp only
      have hnone : ¬ page < (0 : Addr) := BitVec.not_lt_zero
      rw [if_neg hnone]
      rfl

/-- `page_protect_modify` records the page of its address, when it can. -/
theorem pageProtectModify_spec {S : Finset Addr} (hS : S.card < pageTrackMax) (prot : BitVec 8)
    {pp : PageProtector} (h : Fits S pp.pages)
    (hold : ∀ p ∈ pp.pages.map (·.pageAddr), Recordable p)
    {addr : Addr} (haddr : pageAlignDown addr ∈ S) :
    Fits S (pageProtectModify pp addr prot).2.pages ∧
      ∀ q, recorded (pageProtectModify pp addr prot).2.pages q =
        if q = pageAlignDown addr ∧ Recordable q then some prot else recorded pp.pages q := by
  obtain ⟨page, hpage⟩ : ∃ page, page = pageAlignDown addr := ⟨_, rfl⟩
  have hidem : pageAlignDown page = page := by rw [hpage, pageAlignDown_idem]
  unfold pageProtectModify
  rw [← hpage] at haddr ⊢
  dsimp only
  by_cases hfound : page ∈ pp.pages.map (·.pageAddr)
  · rw [if_pos (find_isSome_iff.mpr hfound)]
    have hmap : (setProt page prot pp.pages).map (·.pageAddr) = pp.pages.map (·.pageAddr) :=
      map_setProt
    refine ⟨⟨hmap.symm ▸ h.nodup, hmap.symm ▸ h.subset⟩, ?_⟩
    intro q
    rw [recorded_setProt]
    by_cases hq : q = page
    · obtain ⟨old, hrecorded⟩ := Option.isSome_iff_exists.mp (recorded_isSome_iff.mpr hfound)
      rw [if_pos hq, if_pos ⟨hq, hq ▸ hold page hfound⟩, hrecorded]
      rfl
    · rw [if_neg hq, if_neg fun hboth ↦ hq hboth.1]
  · rw [if_neg (mt find_isSome_iff.mp hfound)]
    by_cases hrecordable : Recordable page
    · have hcovers : ∀ q, Covers page 4096 q ↔ q = page := fun q ↦ covers_page hidem
      obtain ⟨hfits, hadd⟩ := pageProtectAdd_spec hS prot h hrecordable.1 hidem
        (show 0 < (4096 : BitVec 64).toNat by decide) hrecordable.2
        (fun p hp ↦ (hcovers p).mp hp ▸ haddr)
      refine ⟨hfits, ?_⟩
      intro q
      rw [hadd q]
      by_cases hq : q = page
      · rw [if_pos ((hcovers q).mpr hq), if_pos ⟨hq, hq ▸ hrecordable⟩]
      · rw [if_neg (mt (hcovers q).mp hq), if_neg fun hboth ↦ hq hboth.1]
    · rw [pageProtectAdd_of_not_recordable hidem hrecordable]
      refine ⟨h, ?_⟩
      intro q
      have hneither : ¬ (q = page ∧ Recordable q) := by
        rintro ⟨rfl, hq⟩
        exact hrecordable hq
      rw [if_neg hneither]

/-- The pages of the records stay as they are in a fault. -/
@[simp] theorem map_faultLoop : (faultLoop page pages).2.map (·.pageAddr) =
    pages.map (·.pageAddr) := by
  induction pages with
  | nil => rfl
  | cons ps pages ih =>
    rw [faultLoop, List.map_cons, ← ih]
    split
    · split
      · rw [ih]
        rfl
      · rfl
    · rfl

/-- A fault on a page without a record does nothing. -/
theorem faultLoop_of_absent (h : page ∉ pages.map (·.pageAddr)) :
    faultLoop page pages = (false, pages) := by
  induction pages with
  | nil => rfl
  | cons ps pages ih =>
    rw [List.map_cons, List.mem_cons, not_or] at h
    rw [faultLoop, if_neg (Ne.symm h.1), ih h.2]

/-- What a fault does when there is one record per page. -/
theorem faultLoop_spec (page : Addr) (h : (pages.map (·.pageAddr)).Nodup) :
    ((faultLoop page pages).1 = true ↔ ∃ prot, recorded pages page = some prot ∧ locked prot) ∧
    ∀ q, recorded (faultLoop page pages).2 q =
      if (faultLoop page pages).1 = true ∧ q = page then
        (recorded pages page).map fun prot ↦ prot ||| protWrite
      else recorded pages q := by
  induction pages with
  | nil => simp [faultLoop]
  | cons ps pages ih =>
    rw [List.map_cons, List.nodup_cons] at h
    obtain ⟨hhandled, hrest⟩ := ih h.2
    rw [faultLoop]
    by_cases hps : ps.pageAddr = page
    · rw [if_pos hps]
      subst hps
      have hrecorded : recorded (ps :: pages) ps.pageAddr = some ps.prot := by
        rw [recorded_cons, if_pos rfl]
      by_cases hlocked : locked ps.prot
      · rw [if_pos (show locked ps.counted.prot from hlocked), hrecorded]
        refine ⟨⟨fun _ ↦ ⟨_, rfl, hlocked⟩, fun _ ↦ rfl⟩, ?_⟩
        intro q
        rw [recorded_cons, recorded_cons]
        show (if ps.pageAddr = q then some (ps.prot ||| protWrite) else recorded pages q) = _
        by_cases hq : q = ps.pageAddr
        · simp [hq]
        · simp [hq, Ne.symm hq]
      · rw [if_neg (show ¬ locked ps.counted.prot from hlocked), faultLoop_of_absent h.1, hrecorded]
        refine ⟨⟨fun hfalse ↦ absurd hfalse Bool.false_ne_true, ?_⟩, ?_⟩
        · rintro ⟨prot, hprot, hl⟩
          cases hprot
          exact absurd hl hlocked
        · intro q
          rw [if_neg (fun hboth ↦ absurd hboth.1 Bool.false_ne_true), recorded_cons, recorded_cons]
          rfl
    · rw [if_neg hps]
      have hrecorded : recorded (ps :: pages) page = recorded pages page := by
        rw [recorded_cons, if_neg hps]
      rw [hrecorded]
      refine ⟨hhandled, ?_⟩
      intro q
      rw [recorded_cons, recorded_cons, hrest q]
      by_cases hq : q = page
      · subst hq
        simp [hps]
      · simp [hq]

end Arm2x86.Pageprot
