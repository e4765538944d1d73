import Mathlib.Data.List.TakeWhile
import Arm2x86.Base.Bytes
import Arm2x86.Base.Strings

/-!
# The files of an add-on

What `nb_loadLibrary` and `simulate_jni_onload` read beside a library: its translation patches, which
take the place of translations in `nb_getTrampoline`, and its native methods, which
`arm2x86_lookup_native_method` finds. Both files are lines, read into an array of 1024; the text of a
file that is missing is empty. Memory is never refused.
-/

namespace Arm2x86.Addons

open Strings

/-- The lines as `fgets` reads them into `line`. -/
def fileLines (file : List Char) : List (List Char) := readLines '\n' 1022 file

/-- What the string functions see of a line. -/
def cString (s : List Char) : List Char := s.takeWhile (· ≠ Char.ofNat 0)

/-- A comment or an empty line. -/
def isSkipped (line : List Char) : Bool := line.head? = some '#' || line.head? = some '\n'

/-! ## Patches -/

/-- An entry of `patches`, `arm2x86.h:735`. -/
structure Patch where
  armOffset : BitVec 32
  x86Bytes : List Byte
deriving DecidableEq

/-- The delimiters of `strtok`. -/
def isDelimiter (c : Char) : Bool := c = ' ' || c = '\t' || c = '\n'

/-- The bytes of some tokens. A token without a digit leaves `byte` as it was before, `junk`. -/
def patchBytes (junk : Nat → Byte) (toks : List (List Char)) : List Byte :=
  toks.mapIdx fun i tok ↦ ((scanHex tok).map (·.setWidth 8)).getD (junk i)

/-- One turn of the loop over the patch file, `modules/arm2x86_nativebridge.c:98`. -/
def parsePatch (junk : Nat → Byte) (line : List Char) : Option Patch :=
  let line := cString line
  if isSkipped line then none
  else if ['0', 'x'].isPrefixOf line then
    (scanHex (line.drop 2)).bind fun armOff ↦
      match line.dropWhile (· ≠ ' ') with
      | [] => none
      | _ :: p =>
        let toks := words isDelimiter p
        if toks = [] then none else some ⟨armOff.setWidth 32, patchBytes junk toks⟩
  else none

/-- The patches of a file. -/
def loadPatches (junk : Nat → Nat → Byte) (file : List Char) : List Patch :=
  (fileLines file).zipIdx.filterMap fun x ↦ parsePatch (junk x.2) x.1

/-- What `nb_getTrampoline` needs of a module. -/
structure PatchedModule where
  memory : BitVec 64
  mappedSize : BitVec 64
  patches : List Patch

/-- The code at an address that `nb_getTrampoline` returns, with the bytes it wrote there. -/
structure Trampoline where
  code : BitVec 64
  written : Option (List Byte)
deriving DecidableEq

/-- `nb_getTrampoline`, `modules/arm2x86_nativebridge.c:202`, of a symbol that `ElfGetSymbol` finds at an
address. `mmap` answers with the new code, and `translate` is `dbt_translate_block`. -/
def getTrampoline (mmap : Nat → Option (BitVec 64)) (translate : BitVec 64 → Option (BitVec 64))
    (mod : PatchedModule) (sym : Option (BitVec 64)) : Option Trampoline :=
  sym.bind fun armPc ↦
    let offset := armPc - mod.memory
    match mod.patches.find? fun p ↦ p.armOffset.setWidth 64 = offset with
    | some p => (mmap p.x86Bytes.length).map fun code ↦ ⟨code, some p.x86Bytes⟩
    | none =>
      if offset ≥ mod.mappedSize then none
      else if armPc &&& 3 ≠ 0 then none
      else some ⟨(translate armPc).getD armPc, none⟩

section Format

/-- The digits of a byte behind the blanks in front of them. -/
structure ByteText where
  gap : List Char
  digits : List Char

/-- A line of a patch file: a patch, or a text that stands for none. -/
inductive PatchLine where
  | note (text : List Char)
  | patch (offset : List Char) (bytes : List ByteText) (trail : List Char)

/-- A blank of a line. -/
def isBlank (c : Char) : Bool := c = ' ' || c = '\t'

/-- A numeral of at most `n` digits. -/
structure Numeral (n : Nat) (digits : List Char) : Prop where
  ne : digits ≠ []
  hex : ∀ c ∈ digits, isHex c = true
  short : digits.length ≤ n

instance (n : Nat) : DecidablePred (Numeral n) := fun s ↦
  decidable_of_iff (s ≠ [] ∧ s.all isHex = true ∧ s.length ≤ n)
    ⟨fun h ↦ ⟨h.1, List.all_eq_true.mp h.2.1, h.2.2⟩, fun h ↦ ⟨h.ne, List.all_eq_true.mpr h.hex, h.short⟩⟩

structure ByteText.WellFormed (b : ByteText) : Prop where
  gap : b.gap ≠ []
  blank : ∀ c ∈ b.gap, isBlank c = true
  digits : Numeral 2 b.digits

instance : DecidablePred ByteText.WellFormed := fun b ↦
  decidable_of_iff (b.gap ≠ [] ∧ b.gap.all isBlank = true ∧ Numeral 2 b.digits)
    ⟨fun h ↦ ⟨h.1, List.all_eq_true.mp h.2.1, h.2.2⟩,
      fun h ↦ ⟨h.gap, List.all_eq_true.mpr h.blank, h.digits⟩⟩

def ByteText.chars (b : ByteText) : List Char := b.gap ++ b.digits

def ByteText.value (b : ByteText) : Byte := BitVec.ofNat 8 (hexNat b.digits)

namespace PatchLine

def chars : PatchLine → List Char
  | note text => text
  | patch offset bytes trail => '0' :: 'x' :: (offset ++ (bytes.flatMap ByteText.chars ++ trail))

/-- The patch of a line. -/
def denotes : PatchLine → Option Patch
  | note _ => none
  | patch offset bytes _ => some ⟨BitVec.ofNat 32 (hexNat offset), bytes.map ByteText.value⟩

/-- Notes do not begin like patches, and the offset of a patch and its bytes are apart, the first of them
by a space. -/
def Form : PatchLine → Prop
  | note text => '\n' ∉ text ∧ ¬ ['0', 'x'] <+: text
  | patch offset bytes trail => Numeral 8 offset ∧ (∀ b ∈ bytes, b.WellFormed) ∧
      (bytes.head?.bind fun b ↦ b.gap.head?) = some ' ' ∧ ∀ c ∈ trail, isBlank c = true

instance : DecidablePred Form
  | note _ => inferInstanceAs (Decidable (_ ∧ _))
  | patch offset bytes trail => decidable_of_iff (Numeral 8 offset ∧ (∀ b ∈ bytes, b.WellFormed) ∧
      (bytes.head?.bind fun b ↦ b.gap.head?) = some ' ' ∧ trail.all isBlank = true)
        (by rw [List.all_eq_true]; rfl)

/-- A line that fits into the array. -/
structure WellFormed (l : PatchLine) : Prop where
  short : l.chars.length ≤ 1022
  form : l.Form

instance : DecidablePred WellFormed := fun l ↦
  decidable_of_iff (l.chars.length ≤ 1022 ∧ l.Form) ⟨fun h ↦ ⟨h.1, h.2⟩, fun h ↦ ⟨h.short, h.form⟩⟩

end PatchLine

/-- The text of a patch file. A line end behind the last line makes one more that is empty. -/
def patchText (lines : List PatchLine) : List Char := ['\n'].intercalate (lines.map PatchLine.chars)

variable {junk : Nat → Byte} {ending s : List Char}

theorem cString_eq (h : ∀ c ∈ s, c ≠ Char.ofNat 0) : cString s = s := by
  rw [cString, List.takeWhile_eq_self_iff]
  exact fun c hc ↦ decide_eq_true (h c hc)

theorem isDelimiter_of_isBlank {c : Char} (h : isBlank c = true) : isDelimiter c = true := by
  rw [isDelimiter, Bool.or_eq_true]
  exact .inl h

theorem isDelimiter_of_isHex {c : Char} (h : isHex c = true) : isDelimiter c = false := by
  have hspace := ne_of_isHex h (show isHex ' ' = false by decide)
  have htab := ne_of_isHex h (show isHex '\t' = false by decide)
  have hline := ne_of_isHex h (show isHex '\n' = false by decide)
  simp [isDelimiter, hspace, htab, hline]

theorem ne_nul_of_isDelimiter {c : Char} (h : isDelimiter c = true) : c ≠ Char.ofNat 0 := by
  rintro rfl
  exact absurd h (by decide)

/-- The tokens of the bytes of a line. -/
theorem words_bytes {bytes : List ByteText} (hbytes : ∀ b ∈ bytes, b.WellFormed)
    (hs : ∀ c ∈ s, isDelimiter c = true) :
    words isDelimiter (bytes.flatMap ByteText.chars ++ s) = bytes.map ByteText.digits := by
  induction bytes with
  | nil =>
    have hall := words_gap hs []
    rwa [List.append_nil] at hall
  | cons b bytes ih =>
    rw [List.forall_mem_cons] at hbytes
    obtain ⟨hb, hrest⟩ := hbytes
    have hgap : ∀ c ∈ b.gap, isDelimiter c = true := fun c hc ↦ isDelimiter_of_isBlank (hb.blank c hc)
    have hdigits : ∀ c ∈ b.digits, isDelimiter c = false := fun c hc ↦ isDelimiter_of_isHex (hb.digits.hex c hc)
    rw [List.flatMap_cons, List.append_assoc, ByteText.chars, List.append_assoc, words_gap hgap,
      List.map_cons, ← ih hrest]
    have hdelimiter : ∀ c ∈ (bytes.flatMap ByteText.chars ++ s).head?, isDelimiter c = true := by
      cases bytes with
      | nil => exact fun c hc ↦ hs c (List.mem_of_mem_head? hc)
      | cons b' bytes =>
        have hb' := hrest b' List.mem_cons_self
        obtain ⟨a, gap, hgap'⟩ := List.exists_cons_of_ne_nil hb'.gap
        intro c hc
        rw [List.flatMap_cons, ByteText.chars, hgap'] at hc
        obtain rfl : a = c := Option.some.inj hc
        exact isDelimiter_of_isBlank (hb'.blank a (by rw [hgap']; exact List.mem_cons_self))
    cases htail : bytes.flatMap ByteText.chars ++ s with
    | nil =>
      rw [List.append_nil, words_last hdigits, if_neg hb.digits.ne]
      rfl
    | cons c tail =>
      rw [htail] at hdelimiter
      have hc := hdelimiter c rfl
      rw [words_word hb.digits.ne hdigits hc, words_cons_sep hc]

/-- The bytes of a patch, whatever `byte` was before. -/
theorem patchBytes_eq {bytes : List ByteText} (hbytes : ∀ b ∈ bytes, b.WellFormed) (junk : Nat → Byte) :
    patchBytes junk (bytes.map ByteText.digits) = bytes.map ByteText.value := by
  apply List.ext_getElem
  · simp [patchBytes]
  · intro i hi hi'
    have hlt : i < bytes.length := by simpa using hi'
    have hb := (hbytes _ (List.getElem_mem hlt)).digits
    have hvalue : hexNat bytes[i].digits < 2 ^ 64 := by
      have hbound := hexNat_lt bytes[i].digits
      have hpow : 16 ^ bytes[i].digits.length ≤ 16 ^ 2 := Nat.pow_le_pow_right (by decide) hb.short
      omega
    have hscan : scanHex (bytes[i].digits ++ []) = _ := scanHex_digits hb.ne hb.hex hvalue (by simp)
    rw [List.append_nil] at hscan
    simp only [patchBytes, List.getElem_mapIdx, List.getElem_map, hscan, Option.map_some,
      Option.getD_some, ByteText.value]
    exact BitVec.setWidth_ofNat_of_le (by decide) _

/-- A note is no patch. -/
theorem parsePatch_note {text : List Char} (h : (PatchLine.note text).WellFormed)
    (hending : ending = [] ∨ ending = ['\n']) : parsePatch junk (text ++ ending) = none := by
  have hnot : ¬ ['0', 'x'] <+: cString (text ++ ending) := by
    intro hstart
    have hwhole : ['0', 'x'] <+: text ++ ending := hstart.trans (List.takeWhile_prefix _)
    rcases hending with rfl | rfl
    · rw [List.append_nil] at hwhole
      exact h.form.2 hwhole
    · rcases List.prefix_concat_iff.mp hwhole with heq | hstart
      · have hmem : '\n' ∈ ['0', 'x'] := heq ▸ List.mem_append_right _ List.mem_cons_self
        exact absurd hmem (by decide)
      · exact h.form.2 hstart
  simp only [parsePatch]
  split
  · rfl
  · rw [if_neg (by rwa [List.isPrefixOf_iff_prefix])]

theorem parsePatch_patch {offset trail : List Char} {bytes : List ByteText}
    (h : (PatchLine.patch offset bytes trail).WellFormed) (hending : ending = [] ∨ ending = ['\n']) :
    parsePatch junk ((PatchLine.patch offset bytes trail).chars ++ ending) =
      some ⟨BitVec.ofNat 32 (hexNat offset), bytes.map ByteText.value⟩ := by
  obtain ⟨hoffset, hbytes, hfirst, htrail⟩ := h.form
  obtain ⟨b, hb, hspace⟩ := Option.bind_eq_some_iff.mp hfirst
  have hend : ∀ c ∈ trail ++ ending, isDelimiter c = true := by
    intro c hc
    rcases List.mem_append.mp hc with hc | hc
    · exact isDelimiter_of_isBlank (htrail c hc)
    · rcases hending with rfl | rfl
      · cases hc
      · rw [List.mem_singleton.mp hc]
        decide
  -- the space behind the offset
  obtain ⟨p, hp⟩ : ∃ p, bytes.flatMap ByteText.chars ++ (trail ++ ending) = ' ' :: p := by
    obtain ⟨bytes', rfl⟩ : ∃ bytes', bytes = b :: bytes' := List.head?_eq_some_iff.mp hb
    obtain ⟨gap, hgap⟩ := List.head?_eq_some_iff.mp hspace
    rw [List.flatMap_cons, ByteText.chars, hgap]
    exact ⟨_, rfl⟩
  have hline : (PatchLine.patch offset bytes trail).chars ++ ending = '0' :: 'x' :: (offset ++ ' ' :: p) := by
    rw [← hp, PatchLine.chars, List.cons_append, List.cons_append, List.append_assoc, List.append_assoc]
  -- nothing in the line ends it
  have hwhole : cString ('0' :: 'x' :: (offset ++ ' ' :: p)) = '0' :: 'x' :: (offset ++ ' ' :: p) := by
    have hoffsetNul : ∀ c ∈ offset, c ≠ Char.ofNat 0 := fun c hc ↦
      ne_of_isHex (hoffset.hex c hc) (by decide)
    have hpNul : ∀ c ∈ ' ' :: p, c ≠ Char.ofNat 0 := by
      intro c hc
      rw [← hp, List.mem_append, List.mem_flatMap] at hc
      rcases hc with ⟨b', hb', hc⟩ | hc
      · rcases List.mem_append.mp hc with hc | hc
        · exact ne_nul_of_isDelimiter (isDelimiter_of_isBlank ((hbytes b' hb').blank c hc))
        · exact ne_of_isHex ((hbytes b' hb').digits.hex c hc) (by decide)
      · exact ne_nul_of_isDelimiter (hend c hc)
    apply cString_eq
    intro c hc
    rcases List.mem_cons.mp hc with rfl | hc
    · decide
    rcases List.mem_cons.mp hc with rfl | hc
    · decide
    rcases List.mem_append.mp hc with hc | hc
    · exact hoffsetNul c hc
    · exact hpNul c hc
  have hvalue : hexNat offset < 2 ^ 64 := by
    have hbound := hexNat_lt offset
    have hpow : 16 ^ offset.length ≤ 16 ^ 8 := Nat.pow_le_pow_right (by decide) hoffset.short
    omega
  have hscan := scanHex_digits hoffset.ne hoffset.hex hvalue (show ∀ c ∈ (' ' :: p).head?, _ by
    intro c hc
    obtain rfl : ' ' = c := Option.some.inj hc
    decide)
  have hbehind : ('0' :: 'x' :: (offset ++ ' ' :: p)).dropWhile (· ≠ ' ') = ' ' :: p := by
    rw [List.dropWhile_cons_of_pos (by decide), List.dropWhile_cons_of_pos (by decide),
      List.dropWhile_append_of_pos fun c hc ↦ by
        simpa using ne_of_isHex (hoffset.hex c hc) (show isHex ' ' = false by decide),
      List.dropWhile_cons_of_neg (by decide)]
  have htoks : words isDelimiter p = bytes.map ByteText.digits := by
    rw [← words_bytes hbytes hend, hp, words_cons_sep (by decide)]
  have hne : bytes.map ByteText.digits ≠ [] := by
    rw [ne_eq, List.map_eq_nil_iff]
    rintro rfl
    cases hb
  rw [hline]
  simp only [parsePatch, hwhole]
  rw [if_neg (by simp [isSkipped]), if_pos (by rfl), List.drop_succ_cons, List.drop_succ_cons, List.drop_zero, hscan,
    Option.bind_some, hbehind]
  simp only [htoks, patchBytes_eq hbytes, if_neg hne]
  rw [BitVec.setWidth_ofNat_of_le (by decide)]

/-- A line is parsed as what it denotes, with a line end behind it or without one. -/
theorem parsePatch_eq {l : PatchLine} (h : l.WellFormed) (hending : ending = [] ∨ ending = ['\n']) :
    parsePatch junk (l.chars ++ ending) = l.denotes := by
  cases l with
  | note text => exact parsePatch_note h hending
  | patch offset bytes trail => exact parsePatch_patch h hending

theorem PatchLine.WellFormed.no_end {l : PatchLine} (h : l.WellFormed) : '\n' ∉ l.chars := by
  cases l with
  | note text => exact h.form.1
  | patch offset bytes trail =>
    obtain ⟨hoffset, hbytes, -, htrail⟩ := h.form
    intro hc
    simp only [chars, List.mem_cons, List.mem_append, List.mem_flatMap, ByteText.chars] at hc
    rcases hc with hc | hc | hc | ⟨b, hb, hc | hc⟩ | hc
    · exact absurd hc (by decide)
    · exact absurd hc (by decide)
    · exact absurd (hoffset.hex _ hc) (by decide)
    · exact absurd ((hbytes b hb).blank _ hc) (by decide)
    · exact absurd ((hbytes b hb).digits.hex _ hc) (by decide)
    · exact absurd (htrail _ hc) (by decide)

/-- The lines of a text are parsed one after the other. -/
theorem filterMap_fileLines {lines : List PatchLine} (h : ∀ l ∈ lines, l.WellFormed)
    (junk : Nat → Nat → Byte) (k : Nat) :
    ((fileLines (patchText lines)).zipIdx k).filterMap (fun x ↦ parsePatch (junk x.2) x.1) =
      lines.filterMap PatchLine.denotes := by
  induction lines generalizing k with
  | nil =>
    rw [patchText, List.map_nil, List.intercalate_nil, fileLines, readLines]
    rfl
  | cons l lines ih =>
    rw [List.forall_mem_cons] at h
    cases lines with
    | nil =>
      have hparse : parsePatch (junk k) (l.chars ++ []) = l.denotes := parsePatch_eq h.1 (.inl rfl)
      rw [List.append_nil] at hparse
      rw [patchText, List.map_singleton, List.intercalate_singleton, fileLines,
        readLines_last h.1.no_end h.1.short]
      split
      · next hnil =>
        have hnone : parsePatch (junk k) [] = none := by
          simp [parsePatch, cString, isSkipped]
        rw [hnil, hnone] at hparse
        rw [List.filterMap_cons, ← hparse]
        rfl
      · rw [List.zipIdx_singleton, List.filterMap_cons, List.filterMap_cons, hparse]
        rfl
    | cons l' lines =>
      have hparse : parsePatch (junk k) (l.chars ++ ['\n']) = l.denotes := parsePatch_eq h.1 (.inr rfl)
      have htext : patchText (l :: l' :: lines) = l.chars ++ '\n' :: patchText (l' :: lines) := by
        rw [patchText, List.map_cons, List.map_cons, List.intercalate_cons_cons, patchText,
          List.map_cons, List.append_assoc]
        rfl
      rw [htext, fileLines, readLines_line h.1.no_end h.1.short, List.zipIdx_cons, List.filterMap_cons,
        List.filterMap_cons, hparse]
      have hrest := ih h.2 (k + 1)
      rw [fileLines] at hrest
      rw [hrest]

/-- The bytes of the first patch of an offset. -/
def patchAt (offset : BitVec 64) : List PatchLine → Option (List Byte)
  | [] => none
  | .note _ :: lines => patchAt offset lines
  | .patch digits bytes _ :: lines =>
    if hexNat digits = offset.toNat then some (bytes.map ByteText.value) else patchAt offset lines

theorem find_patch {lines : List PatchLine} (h : ∀ l ∈ lines, l.WellFormed) (offset : BitVec 64) :
    ((lines.filterMap PatchLine.denotes).find? fun p ↦ p.armOffset.setWidth 64 = offset).map
      Patch.x86Bytes = patchAt offset lines := by
  induction lines with
  | nil => rfl
  | cons l lines ih =>
    rw [List.forall_mem_cons] at h
    cases l with
    | note text => exact ih h.2
    | patch digits bytes trail =>
      have hlt : hexNat digits < 2 ^ 32 := by
        have hbound := hexNat_lt digits
        have hpow : 16 ^ digits.length ≤ 16 ^ 8 := Nat.pow_le_pow_right (by decide) h.1.form.1.short
        omega
      have hiff : (BitVec.ofNat 32 (hexNat digits)).setWidth 64 = offset ↔ hexNat digits = offset.toNat := by
        rw [← BitVec.toNat_inj, BitVec.toNat_setWidth, BitVec.toNat_ofNat, Nat.mod_eq_of_lt hlt]
        omega
      rw [List.filterMap_cons, PatchLine.denotes, List.find?_cons, patchAt]
      by_cases heq : hexNat digits = offset.toNat
      · rw [if_pos heq, decide_eq_true (hiff.mpr heq)]
        rfl
      · rw [if_neg heq, decide_eq_false (mt hiff.mp heq)]
        exact ih h.2

end Format

end Arm2x86.Addons
