import Arm2x86.Reloc.Packed

/-!
# The format of packed relocations

The format above `apply_android_packed_relocs`: a header, and groups of relocations whose offsets
are deltas from one to the next across all groups. The function visits what has been written, so
far as the offsets pass its test.
-/

namespace Arm2x86.Reloc

open Elf (ElfModule field)
open Elf.ElfModule (wordSize)

/-! ## Sections -/

/-- Relocations of one type and addend. -/
structure Group where
  type : BitVec 64
  addend : BitVec 64
  offsets : List (BitVec 64)

def Group.visits (g : Group) : List Visit := g.offsets.map fun o ↦ ⟨o, g.type, g.addend⟩

/-- The relocations of some groups, in order. -/
def relocations (gs : List Group) : List Visit := gs.flatMap Group.visits

/-- Offsets behind another one. -/
def encodeDeltas : BitVec 64 → List (BitVec 64) → List Byte
  | _, [] => []
  | prev, o :: os => Leb128.encodeNat (o - prev).toNat ++ encodeDeltas o os

def encodeGroups : BitVec 64 → List Group → List Byte
  | _, [] => []
  | prev, g :: gs =>
    Leb128.encodeNat g.offsets.length ++ (Leb128.encodeNat g.type.toNat ++
      (Leb128.encodeInt g.addend.toInt ++
        (encodeDeltas prev g.offsets ++ encodeGroups (g.offsets.getLastD prev) gs)))

def encodeSection (relocSize : BitVec 64) (gs : List Group) : List Byte :=
  Leb128.encodeNat (relocations gs).length ++
    (Leb128.encodeNat relocSize.toNat ++ encodeGroups 0 gs)

/-- A module with these groups in its section, none of them empty, and none of the words they write
inside the section itself. -/
structure Encodes (m : ElfModule) (relocSize : BitVec 64) (gs : List Group) : Prop where
  section_eq : ∃ tags, moduleTags (packedClass m) m = some tags ∧ tags dtAndroidRel ≠ 0 ∧
    (tags dtAndroidRelSz).toNat = (encodeSection relocSize gs).length ∧
    m.mem.read (m.pointer (tags dtAndroidRel)) (encodeSection relocSize gs).length =
      encodeSection relocSize gs ∧
    ∀ v ∈ relocations gs, ∀ p ∈ wordRegion (packedClass m) m v,
      p ∉ (⟨m.pointer (tags dtAndroidRel), (encodeSection relocSize gs).length⟩ : Region)
  nonempty : ∀ g ∈ gs, g.offsets ≠ []

/-- `R_AARCH64_RELATIVE`. -/
def rAarch64Relative : BitVec 64 := 1027

/-- The relocations are visited in order, and a relative one leaves the load bias and its addend in
its word, unless a later one is written over it. -/
def Correct (m : ElfModule) (gs : List Group) : Prop :=
  ∃ s, applyAndroidPackedRelocs m = some s ∧ s.out.visits = relocations gs ∧
    (packedClass m = .elf64 → ∀ before v after, relocations gs = before ++ v :: after →
      v.type = rAarch64Relative →
      (∀ v' ∈ after, writesWord .elf64 m v' = true →
        ∀ p ∈ wordRegion .elf64 m v, p ∉ wordRegion .elf64 m v') →
      field s.out.mem (m.pointer v.offset) 0 8 = m.loadBias + v.addend)

/-! ## The unread bytes -/

variable {c : Elf.Class} {m : ElfModule} {relData : BitVec 64} {size : Nat}

/-- The bytes of the section from a position on. -/
structure Unread (relData : BitVec 64) (size : Nat) (mem : Memory) (pos : Nat)
    (bytes : List Byte) : Prop where
  length_eq : pos + bytes.length = size
  read_eq : mem.read (relData + BitVec.ofNat 64 pos) bytes.length = bytes

namespace Unread

variable {mem : Memory} {pos : Nat} {bs rest : List Byte}

theorem advance (h : Unread relData size mem pos (bs ++ rest)) :
    Unread relData size mem (pos + bs.length) rest := by
  have hread := h.read_eq
  have hlen := h.length_eq
  rw [List.length_append] at hread hlen
  rw [Memory.read_add] at hread
  have hrest := (List.append_inj hread (Memory.length_read _ _ _)).2
  rw [BitVec.add_assoc, ← BitVec.ofNat_add] at hrest
  exact ⟨by omega, hrest⟩

theorem number (hsize : size ≤ 2 ^ 64) (h : Unread relData size mem pos (bs ++ rest))
    (hsplit : Leb128.split (bs ++ rest) = some (bs, rest)) :
    reader relData mem pos = some bs := by
  have hlen := h.length_eq
  rw [List.length_append] at hlen
  rw [← h.read_eq] at hsplit
  exact Leb128.take_of_split hsplit (by omega)

theorem uleb (hsize : size ≤ 2 ^ 64) {v : BitVec 64}
    (h : Unread relData size mem pos (Leb128.encodeNat v.toNat ++ rest)) :
    decodeUleb128 (reader relData) mem pos = some (v, (Leb128.encodeNat v.toNat).length) := by
  rw [decodeUleb128, h.number hsize (Leb128.split_encodeNat _ _), Option.map_some,
    ulebValue_encodeNat]

theorem sleb (hsize : size ≤ 2 ^ 64) {v : BitVec 64}
    (h : Unread relData size mem pos (Leb128.encodeInt v.toInt ++ rest)) :
    decodeSleb128 (reader relData) mem pos = some (v, (Leb128.encodeInt v.toInt).length) := by
  rw [decodeSleb128, h.number hsize (Leb128.split_encodeInt _ _), Option.map_some,
    slebValue_encodeInt]

theorem lt (h : Unread relData size mem pos bs) (hbs : bs ≠ []) : pos < size := by
  have hlen := h.length_eq
  have hpos := List.length_pos_iff.mpr hbs
  omega

end Unread

/-! ## The words -/

/-- A relocation changes its own word only, and only if it is one that writes. -/
theorem perform_mem {out : Effects} {v : Visit} {p : BitVec 64}
    (h : writesWord c m v = true → p ∉ wordRegion c m v) :
    (perform c m out v).mem p = out.mem p := by
  rw [perform]
  dsimp only
  split
  · cases hword : newWord c m v (field out.mem (m.pointer v.offset) 0 (wordSize c)) with
    | none => rfl
    | some word =>
      have hwrites : writesWord c m v = true := by
        rw [← newWord_isSome v _, hword]
        rfl
      apply Memory.write_of_notMem
      rw [length_leBytes]
      exact h hwrites
  · rfl

theorem perform_visits (out : Effects) (v : Visit) :
    (perform c m out v).visits =
      out.visits ++ [v].filter fun v ↦ inRange m v.offset := by
  rw [perform]
  dsimp only
  split
  · next hin =>
    have hone : [v].filter (fun v ↦ inRange m v.offset) = [v] := by simp [hin]
    rw [hone]
    split
    · rfl
    · rfl
  · next hout =>
    have hnone : [v].filter (fun v ↦ inRange m v.offset) = [] := by simp [hout]
    rw [hnone, List.append_nil]

/-- Relocations one after the other. -/
def performAll (c : Elf.Class) (m : ElfModule) (out : Effects) (vs : List Visit) : Effects :=
  vs.foldl (perform c m) out

theorem performAll_append (out : Effects) (vs ws : List Visit) :
    performAll c m out (vs ++ ws) = performAll c m (performAll c m out vs) ws :=
  List.foldl_append

theorem performAll_visits (out : Effects) (vs : List Visit) :
    (performAll c m out vs).visits =
      out.visits ++ vs.filter fun v ↦ inRange m v.offset := by
  induction vs generalizing out with
  | nil => exact (List.append_nil _).symm
  | cons v vs ih =>
    have happ : v :: vs = [v] ++ vs := rfl
    rw [happ, List.filter_append, ← List.append_assoc, ← perform_visits, ← ih]
    rfl

theorem performAll_mem {out : Effects} {vs : List Visit} {p : BitVec 64}
    (h : ∀ v ∈ vs, writesWord c m v = true → p ∉ wordRegion c m v) :
    (performAll c m out vs).mem p = out.mem p := by
  induction vs generalizing out with
  | nil => rfl
  | cons v vs ih =>
    calc (performAll c m (perform c m out v) vs).mem p
        = (perform c m out v).mem p := ih fun w hw ↦ h w (List.mem_cons_of_mem v hw)
      _ = out.mem p := perform_mem (h v List.mem_cons_self)

/-- The word of a relative relocation, when nothing is written over it later. -/
theorem performAll_relative {out : Effects} {before after : List Visit} {v : Visit}
    (hin : inRange m v.offset = true) (htype : v.type = rAarch64Relative)
    (hafter : ∀ v' ∈ after, writesWord .elf64 m v' = true →
      ∀ p ∈ wordRegion .elf64 m v, p ∉ wordRegion .elf64 m v') :
    field (performAll .elf64 m out (before ++ v :: after)).mem (m.pointer v.offset) 0 8 =
      m.loadBias + v.addend := by
  have happ : before ++ v :: after = (before ++ [v]) ++ after := by simp
  rw [happ, performAll_append, performAll_append]
  generalize performAll .elf64 m out before = out
  have hlater : ∀ p ∈ wordRegion .elf64 m v,
      (performAll .elf64 m (perform .elf64 m out v) after).mem p =
        (perform .elf64 m out v).mem p := by
    intro p hp
    apply performAll_mem
    intro v' hv' hwrites
    exact hafter v' hv' hwrites p hp
  have hnew : ∀ old, newWord .elf64 m v old = some (m.loadBias + v.addend) := by
    intro old
    simp only [newWord, htype, rAarch64Relative]
    rw [if_neg]
    rintro (h | h | h)
    · exact absurd h (by decide)
    · exact absurd h (by decide)
    · exact absurd h.1 (by decide)
  have hmem : (perform .elf64 m out v).mem =
      out.mem.write (m.pointer v.offset) (leBytes 8 (m.loadBias + v.addend).toNat) := by
    rw [perform, if_pos hin]
    simp only [hnew]
    rfl
  have hword : field (perform .elf64 m out v).mem (m.pointer v.offset) 0 8 =
      m.loadBias + v.addend := by
    rw [hmem]
    exact field_write (BitVec.isLt _) (by decide)
  rw [← hword, field, field]
  congr 2
  apply Memory.read_congr
  intro i hi
  apply hlater
  rw [BitVec.add_zero]
  exact Region.start_add_mem hi

/-- The bytes of the section are not changed by relocations elsewhere. -/
theorem Unread.performAll {out : Effects} {pos : Nat} {bytes : List Byte} {vs : List Visit}
    (h : Unread relData size out.mem pos bytes)
    (hapart : ∀ v ∈ vs, ∀ p ∈ wordRegion c m v, p ∉ (⟨relData, size⟩ : Region)) :
    Unread relData size (performAll c m out vs).mem pos bytes := by
  have hlen := h.length_eq
  refine ⟨hlen, ?_⟩
  have hsame : (Reloc.performAll c m out vs).mem.read (relData + BitVec.ofNat 64 pos)
      bytes.length = out.mem.read (relData + BitVec.ofNat 64 pos) bytes.length := by
    apply Memory.read_congr
    intro i hi
    apply performAll_mem
    intro v hv hwrites hp
    apply hapart v hv _ hp
    rw [BitVec.add_assoc, ← BitVec.ofNat_add]
    exact Region.start_add_mem (by omega)
  rw [hsame, h.read_eq]

/-! ## The loops on a section -/

/-- One group: its offsets are visited, and the bytes behind them are next. -/
theorem relocLoop_encodeDeltas (hsize : size ≤ 2 ^ 64) {relocCount : Nat}
    {type addend : BitVec 64} {os : List (BitVec 64)} {rest : List Byte} {fuel : Nat} {s : Packed}
    (hs : Unread relData size s.out.mem s.pos (encodeDeltas s.currentOffset os ++ rest))
    (hfuel : os.length < fuel) (hcount : s.processed + os.length ≤ relocCount)
    (hapart : ∀ o ∈ os, ∀ p ∈ wordRegion c m ⟨o, type, addend⟩, p ∉ (⟨relData, size⟩ : Region)) :
    relocLoop c m (reader relData) size relocCount type addend fuel os.length s =
      some
        { out := performAll c m s.out (os.map fun o ↦ ⟨o, type, addend⟩)
          pos := s.pos + (encodeDeltas s.currentOffset os).length
          processed := s.processed + os.length
          currentOffset := os.getLastD s.currentOffset } := by
  induction os generalizing fuel s with
  | nil =>
    obtain ⟨fuel, rfl⟩ : ∃ n, fuel = n + 1 := ⟨fuel - 1, by omega⟩
    rw [relocLoop, List.length_nil, if_pos (.inl rfl)]
    rfl
  | cons o os ih =>
    obtain ⟨fuel, rfl⟩ : ∃ n, fuel = n + 1 := ⟨fuel - 1, by omega⟩
    rw [List.length_cons] at hfuel hcount
    rw [encodeDeltas, List.append_assoc] at hs
    have hlt : s.pos < size := by
      apply hs.lt
      intro hnil
      exact Leb128.encodeNat_ne_nil _ (List.append_eq_nil_iff.mp hnil).1
    have hoffset : s.currentOffset + (o - s.currentOffset) = o := by
      rw [BitVec.add_comm, BitVec.sub_add_cancel]
    have hgo : ¬ (os.length + 1 = 0 ∨ size ≤ s.pos ∨ relocCount ≤ s.processed) := by omega
    have hnext : Unread relData size (performAll c m s.out [⟨o, type, addend⟩]).mem
        (s.pos + (Leb128.encodeNat (o - s.currentOffset).toNat).length)
        (encodeDeltas o os ++ rest) := by
      apply hs.advance.performAll
      intro v hv
      rw [List.mem_singleton] at hv
      rw [hv]
      exact hapart o List.mem_cons_self
    rw [relocLoop, List.length_cons, if_neg hgo, hs.uleb hsize]
    show relocLoop c m (reader relData) size relocCount type addend fuel (os.length + 1 - 1) _ = _
    rw [Nat.add_sub_cancel, hoffset]
    have hcount' : s.processed + 1 + os.length ≤ relocCount := by omega
    rw [ih hnext (by omega) hcount' fun o' ho' ↦ hapart o' (List.mem_cons_of_mem o ho')]
    congr 2
    · rw [encodeDeltas, List.length_append, Nat.add_assoc]
    · exact Nat.add_right_comm _ _ _
    · rw [List.getLastD_cons]

theorem length_le_encodeDeltas (prev : BitVec 64) (os : List (BitVec 64)) :
    os.length ≤ (encodeDeltas prev os).length := by
  induction os generalizing prev with
  | nil => exact Nat.le_refl _
  | cons o os ih =>
    have hpos := List.length_pos_iff.mpr (Leb128.encodeNat_ne_nil (o - prev).toNat)
    have hrest := ih o
    rw [encodeDeltas, List.length_append, List.length_cons]
    omega

theorem length_le_encodeGroups (prev : BitVec 64) (gs : List Group) :
    gs.length ≤ (encodeGroups prev gs).length := by
  induction gs generalizing prev with
  | nil => exact Nat.le_refl _
  | cons g gs ih =>
    have hpos := List.length_pos_iff.mpr (Leb128.encodeNat_ne_nil g.offsets.length)
    have hrest := ih (g.offsets.getLastD prev)
    simp only [encodeGroups, List.length_append, List.length_cons]
    omega

theorem length_relocations_le (prev : BitVec 64) (gs : List Group) :
    (relocations gs).length ≤ (encodeGroups prev gs).length := by
  induction gs generalizing prev with
  | nil => exact Nat.le_refl _
  | cons g gs ih =>
    have hfirst := length_le_encodeDeltas prev g.offsets
    have hrest := ih (g.offsets.getLastD prev)
    rw [relocations] at hrest
    simp only [relocations, List.flatMap_cons, Group.visits, encodeGroups, List.length_append,
      List.length_map]
    omega

private theorem append_ne_nil {xs : List Byte} (h : xs ≠ []) (ys : List Byte) : xs ++ ys ≠ [] :=
  fun hnil ↦ h (List.append_eq_nil_iff.mp hnil).1

/-- The state behind a group. -/
def Packed.after (c : Elf.Class) (m : ElfModule) (g : Group) (s : Packed) : Packed :=
  { out := performAll c m s.out g.visits
    pos := s.pos + (Leb128.encodeNat g.offsets.length).length +
      (Leb128.encodeNat g.type.toNat).length + (Leb128.encodeInt g.addend.toInt).length +
      (encodeDeltas s.currentOffset g.offsets).length
    processed := s.processed + g.offsets.length
    currentOffset := g.offsets.getLastD s.currentOffset }

/-- A turn of the loop over the groups, and the bytes that are left. -/
theorem groupLoop_group (hsize : size < 2 ^ 64) {relocCount : Nat} {g : Group} {gs : List Group}
    {fuel : Nat} {s : Packed}
    (hs : Unread relData size s.out.mem s.pos (encodeGroups s.currentOffset (g :: gs)))
    (hcount : s.processed + g.offsets.length ≤ relocCount) (hnonempty : g.offsets ≠ [])
    (hapart : ∀ v ∈ g.visits, ∀ p ∈ wordRegion c m v, p ∉ (⟨relData, size⟩ : Region)) :
    groupLoop c m (reader relData) size relocCount (fuel + 1) s =
        groupLoop c m (reader relData) size relocCount fuel (s.after c m g) ∧
      Unread relData size (s.after c m g).out.mem (s.after c m g).pos
        (encodeGroups (s.after c m g).currentOffset gs) := by
  have hle := Nat.le_of_lt hsize
  have hg := List.length_pos_iff.mpr hnonempty
  have hdeltas := length_le_encodeDeltas s.currentOffset g.offsets
  have hnonnil : encodeDeltas s.currentOffset g.offsets ≠ [] :=
    List.length_pos_iff.mp (Nat.lt_of_lt_of_le hg hdeltas)
  rw [encodeGroups] at hs
  have htotal := hs.length_eq
  simp only [List.length_append] at htotal
  have hcountNat : (BitVec.ofNat 64 g.offsets.length).toNat = g.offsets.length := by
    rw [BitVec.toNat_ofNat]
    omega
  have hgo : ¬ (relocCount ≤ s.processed ∨ size ≤ s.pos) := by
    have hlt := hs.lt (append_ne_nil (Leb128.encodeNat_ne_nil _) _)
    omega
  have hzero : BitVec.ofNat 64 g.offsets.length ≠ 0 := by
    intro hzero
    rw [hzero] at hcountNat
    exact absurd hcountNat (Nat.ne_of_lt hg)
  -- the number of relocations, the type, the addend and the offsets of the group
  have htype := hs.advance
  have haddend := htype.advance
  have hoffsets := haddend.advance
  have hpos₁ := htype.lt (append_ne_nil (Leb128.encodeNat_ne_nil _) _)
  have hpos₂ := haddend.lt (append_ne_nil (Leb128.encodeInt_ne_nil _) _)
  have hpos₃ := hoffsets.lt (append_ne_nil hnonnil _)
  constructor
  · let t : Packed := ⟨s.out, s.pos + (Leb128.encodeNat g.offsets.length).length +
      (Leb128.encodeNat g.type.toNat).length + (Leb128.encodeInt g.addend.toInt).length,
      s.processed, s.currentOffset⟩
    have hloop := @relocLoop_encodeDeltas c m relData size hle relocCount g.type g.addend g.offsets
      _ (size + 1) t hoffsets (by omega) hcount fun o ho ↦ hapart _ (List.mem_map_of_mem ho)
    have hstop : ¬ (BitVec.ofNat 64 g.offsets.length = 0 ∨
        size ≤ s.pos + (Leb128.encodeNat g.offsets.length).length) := by
      rintro (hnone | hend)
      · exact hzero hnone
      · omega
    rw [← hcountNat] at hs
    rw [groupLoop, if_neg hgo, hs.uleb hle, hcountNat]
    simp only [Option.bind_eq_bind, Option.bind_some]
    rw [if_neg hstop, htype.uleb hle]
    simp only [Option.bind_some]
    rw [if_neg (Nat.not_le.mpr hpos₂), haddend.sleb hle]
    simp only [Option.bind_some]
    rw [if_neg (Nat.not_le.mpr hpos₃), hcountNat, hloop, Option.bind_some]
    rfl
  · exact hoffsets.advance.performAll hapart

/-- All groups. -/
theorem groupLoop_encodeGroups (hsize : size < 2 ^ 64) {relocCount : Nat} {gs : List Group}
    {fuel : Nat} {s : Packed}
    (hs : Unread relData size s.out.mem s.pos (encodeGroups s.currentOffset gs))
    (hfuel : gs.length < fuel) (hcount : s.processed + (relocations gs).length = relocCount)
    (hnonempty : ∀ g ∈ gs, g.offsets ≠ [])
    (hapart : ∀ v ∈ relocations gs, ∀ p ∈ wordRegion c m v, p ∉ (⟨relData, size⟩ : Region)) :
    ∃ s', groupLoop c m (reader relData) size relocCount fuel s = some s' ∧
      s'.out = performAll c m s.out (relocations gs) := by
  induction gs generalizing fuel s with
  | nil =>
    obtain ⟨fuel, rfl⟩ : ∃ n, fuel = n + 1 := ⟨fuel - 1, by omega⟩
    rw [groupLoop, if_pos (.inl (Nat.le_of_eq hcount.symm))]
    exact ⟨s, rfl, rfl⟩
  | cons g gs ih =>
    obtain ⟨fuel, rfl⟩ : ∃ n, fuel = n + 1 := ⟨fuel - 1, by omega⟩
    have hcons : relocations (g :: gs) = g.visits ++ relocations gs := rfl
    have hlen : g.visits.length = g.offsets.length := List.length_map _
    rw [hcons, List.length_append, hlen] at hcount
    rw [hcons] at hapart
    have hfits : s.processed + g.offsets.length ≤ relocCount := by omega
    obtain ⟨hturn, hnext⟩ := @groupLoop_group c m relData size hsize relocCount g gs fuel s hs hfits
      (hnonempty g List.mem_cons_self) fun v hv ↦ hapart v (List.mem_append_left _ hv)
    have hcount' : s.processed + g.offsets.length + (relocations gs).length = relocCount := by
      omega
    obtain ⟨s', hs', hout⟩ := ih hnext (Nat.lt_of_succ_lt_succ hfuel) hcount'
      (fun g' hg' ↦ hnonempty g' (List.mem_cons_of_mem g hg'))
      fun v hv ↦ hapart v (List.mem_append_right _ hv)
    refine ⟨s', hturn.trans hs', ?_⟩
    rw [hout, hcons, performAll_append]
    rfl

/-- The whole section. -/
theorem packedRelocs_encodeSection {relocSize : BitVec 64} {gs : List Group}
    (hlen : (encodeSection relocSize gs).length = size) (hsize : size < 2 ^ 64)
    (hread : m.mem.read relData size = encodeSection relocSize gs)
    (hnonempty : ∀ g ∈ gs, g.offsets ≠ [])
    (hapart : ∀ v ∈ relocations gs, ∀ p ∈ wordRegion c m v, p ∉ (⟨relData, size⟩ : Region)) :
    ∃ s, packedRelocs c m (reader relData) size = some s ∧
      s.out = performAll c m ⟨m.mem, [], []⟩ (relocations gs) := by
  have hle := Nat.le_of_lt hsize
  have hs : Unread relData size m.mem 0 (encodeSection relocSize gs) := by
    refine ⟨by omega, ?_⟩
    rw [BitVec.add_zero, hlen, hread]
  have hgroups := length_le_encodeGroups 0 gs
  have htotal := length_relocations_le 0 gs
  rw [encodeSection] at hs
  have hbytes := hs.length_eq
  simp only [List.length_append] at hbytes
  have hcountNat : (BitVec.ofNat 64 (relocations gs).length).toNat = (relocations gs).length := by
    rw [BitVec.toNat_ofNat]
    omega
  have hsecond := hs.advance
  have hthird := hsecond.advance
  rw [← hcountNat] at hs
  rw [packedRelocs, hs.uleb hle, hcountNat]
  simp only [Option.bind_eq_bind, Option.bind_some]
  rw [hsecond.uleb hle]
  simp only [Option.bind_some]
  split
  · next hstop =>
    -- no relocations at all
    have hnone : relocations gs = [] := by
      apply List.eq_nil_of_length_eq_zero
      rcases hstop with hzero | hend
      · rw [hzero] at hcountNat
        exact hcountNat.symm
      · omega
    rw [hnone]
    exact ⟨_, rfl, rfl⟩
  · rw [hcountNat]
    exact groupLoop_encodeGroups hsize hthird (by omega) (Nat.zero_add _) hnonempty hapart

private theorem two_le_length (relocSize : BitVec 64) (gs : List Group) :
    2 ≤ (encodeSection relocSize gs).length := by
  have hfirst := List.length_pos_iff.mpr (Leb128.encodeNat_ne_nil (relocations gs).length)
  have hsecond := List.length_pos_iff.mpr (Leb128.encodeNat_ne_nil relocSize.toNat)
  simp only [encodeSection, List.length_append]
  omega

/-- What the function does with groups of relocations. -/
theorem Encodes.run {relocSize : BitVec 64} {gs : List Group} (h : Encodes m relocSize gs) :
    ∃ s, applyAndroidPackedRelocs m = some s ∧
      s.out = performAll (packedClass m) m ⟨m.mem, [], []⟩ (relocations gs) := by
  obtain ⟨tags, htags, haddr, hlen, hread, hapart⟩ := h.section_eq
  have hlong := two_le_length relocSize gs
  have hgo : ¬ (tags dtAndroidRel = 0 ∨ (tags dtAndroidRelSz).toNat = 0 ∨
      (tags dtAndroidRelSz).toNat < 2) := by
    rintro (hzero | hshort)
    · exact haddr hzero
    · omega
  rw [← hlen] at hread hapart
  rw [applyAndroidPackedRelocs, applyPackedWith, htags]
  simp only [Option.bind_eq_bind, Option.bind_some]
  rw [if_neg hgo]
  exact packedRelocs_encodeSection hlen.symm (BitVec.isLt _) hread h.nonempty hapart

theorem correct_iff {relocSize : BitVec 64} {gs : List Group} (h : Encodes m relocSize gs) :
    Correct m gs ↔ ∀ v ∈ relocations gs, inRange m v.offset = true := by
  obtain ⟨s, hs, hout⟩ := h.run
  have hvisits : s.out.visits = (relocations gs).filter fun v ↦ inRange m v.offset := by
    rw [hout, performAll_visits]
    rfl
  constructor
  · rintro ⟨s', hs', hall, -⟩
    obtain rfl := Option.some.inj (hs.symm.trans hs')
    rw [hvisits] at hall
    exact List.filter_eq_self.mp hall
  · intro hall
    refine ⟨s, hs, hvisits.trans (List.filter_eq_self.mpr hall), ?_⟩
    intro hclass before v after hsplit htype hafter
    have hv : v ∈ relocations gs := by
      rw [hsplit]
      exact List.mem_append_right _ List.mem_cons_self
    rw [hout, hclass, hsplit]
    exact performAll_relative (hall v hv) htype hafter

/-- An image of 64 bits at 4096 with a section of packed relocations behind its headers. -/
def sampleImage (packed : List Byte) : ElfModule where
  mem p :=
    (([0x7f, 0x45, 0x4c, 0x46, 2] ++ List.replicate 27 0 ++ leBytes 8 64 ++ List.replicate 16 0 ++
      leBytes 2 1 ++ List.replicate 6 0 ++
      leBytes 4 2 ++ List.replicate 4 0 ++ leBytes 8 120 ++ List.replicate 40 0 ++
      leBytes 8 0x6ffffffa ++ leBytes 8 168 ++ leBytes 8 0x6ffffffb ++ leBytes 8 packed.length ++
      List.replicate 16 0 ++ packed : List Byte)[(p - 4096).toNat]?).getD 0
  written := []
  memory := 4096
  size := 4096
  mappedSize := 4096

/-- One relative relocation of the word at 184, eight bytes. -/
def samplePacked : List Byte := [1, 0, 1, 0x83, 8, 5, 0xb8, 1]

def sampleGroups : List Group := [⟨rAarch64Relative, 5, [184]⟩]

theorem samplePacked_eq : samplePacked = encodeSection 0 sampleGroups := by
  have h1 : Leb128.encodeNat 1 = [1] := by
    rw [Leb128.encodeNat]
    rfl
  have h0 : Leb128.encodeNat 0 = [0] := by
    rw [Leb128.encodeNat]
    rfl
  have htype : Leb128.encodeNat 1027 = [0x83, 8] := by
    rw [Leb128.encodeNat, Leb128.encodeNat]
    rfl
  have haddend : Leb128.encodeInt 5 = [5] := by
    rw [Leb128.encodeInt]
    rfl
  have hdelta : Leb128.encodeNat 184 = [0xb8, 1] := by
    rw [Leb128.encodeNat, Leb128.encodeNat]
    rfl
  show samplePacked = Leb128.encodeNat 1 ++ (Leb128.encodeNat 0 ++ (Leb128.encodeNat 1 ++
    (Leb128.encodeNat 1027 ++ (Leb128.encodeInt 5 ++ ((Leb128.encodeNat 184 ++ []) ++ [])))))
  rw [h1, h0, htype, haddend, hdelta]
  rfl

theorem sampleImage_encodes : Encodes (sampleImage samplePacked) 0 sampleGroups := by
  have hlen : (encodeSection 0 sampleGroups).length = 8 := by
    rw [← samplePacked_eq]
    rfl
  constructor
  · rw [hlen, ← samplePacked_eq]
    refine ⟨_, rfl, by decide +kernel, by decide +kernel, by decide +kernel, ?_⟩
    intro v hv p hp
    obtain rfl := List.mem_singleton.mp hv
    have hword : wordRegion (packedClass (sampleImage samplePacked)) (sampleImage samplePacked)
        ⟨184, rAarch64Relative, 5⟩ = ⟨4280, 8⟩ := by decide +kernel
    rw [hword, Region.mem_iff] at hp
    show ¬ (p - 4264).toNat < 8
    bv_omega
  · intro g hg
    obtain rfl := List.mem_singleton.mp hg
    exact List.cons_ne_nil _ _

end Arm2x86.Reloc
