import Arm2x86.Elf.Model

/-!
# The image of a file

What `ElfLoad` leaves in the mapping: the file itself, byte by byte, with zeros behind it. So a
segment is where its virtual addresses are only when the file reads the same there.
-/

namespace Arm2x86

namespace Elf

section Reading

variable {file : List Byte} {chunk : Nat → Nat} {base : BitVec 64} {writable : BitVec 64 → Bool}

theorem transferred_le (p : BitVec 64) (n : Nat) : transferred writable p n ≤ n := by
  induction n generalizing p with
  | zero => exact Nat.le_refl 0
  | succ n ih =>
    unfold transferred
    split
    · exact Nat.succ_le_succ (ih (p + 1))
    · exact Nat.zero_le _

/-- The file has been read up to a position. -/
structure ReadUpTo (file : List Byte) (base : BitVec 64) (mem : Memory) (pos : Nat) (w : Writes) :
    Prop where
  le : pos ≤ file.length
  mem : w.mem = mem.write base (file.take pos)
  written : ∀ p, (∃ r ∈ w.regions, p ∈ r) ↔ p ∈ (⟨base, pos⟩ : Region)

theorem ReadUpTo.start (mem : Memory) : ReadUpTo file base mem 0 ⟨mem, []⟩ := by
  refine ⟨Nat.zero_le _, ?_, ?_⟩
  · funext q
    simp [Memory.write]
  · intro p
    simp [Region.mem_iff]

/-- One `read`. -/
theorem ReadUpTo.step {mem : Memory} {pos n : Nat} {w : Writes} (hlen : file.length ≤ 2 ^ 64)
    (h : ReadUpTo file base mem pos w) (hn : pos + n ≤ file.length) :
    ReadUpTo file base mem (pos + n)
      (w.write (base + BitVec.ofNat 64 pos) ((file.drop pos).take n)) := by
  have hpos : (file.take pos).length = pos := List.length_take_of_le h.le
  have hchunk : ((file.drop pos).take n).length = n := by
    rw [List.length_take, List.length_drop]
    omega
  have hboth : file.take pos ++ (file.drop pos).take n = file.take (pos + n) := by
    rw [List.take_add]
  refine ⟨hn, ?_, ?_⟩
  · have hshort : (file.take pos ++ (file.drop pos).take n).length ≤ 2 ^ 64 := by
      rw [hboth, List.length_take]
      omega
    have happend := mem.write_append (p := base) (file.take pos) ((file.drop pos).take n) hshort
    rw [hpos, hboth] at happend
    rw [Writes.write, h.mem, happend]
  · intro p
    rw [Region.mem_append (by omega), ← h.written p]
    simp only [Writes.write, hchunk, List.mem_append, List.mem_singleton]
    constructor
    · rintro ⟨r, hr | rfl, hp⟩
      · exact Or.inl ⟨r, hr, hp⟩
      · exact Or.inr hp
    · rintro (⟨r, hr, hp⟩ | hp)
      · exact ⟨r, Or.inl hr, hp⟩
      · exact ⟨_, Or.inr rfl, hp⟩

/-- When the loop succeeds the whole file has been read. -/
theorem readLoop_readUpTo {mem : Memory} (hlen : file.length ≤ 2 ^ 64) {fuel pos : Nat}
    {w w' : Writes} (h : ReadUpTo file base mem pos w)
    (hloop : readLoop file chunk base writable fuel pos w = some w') :
    ReadUpTo file base mem file.length w' := by
  induction fuel generalizing pos w with
  | zero =>
    rw [readLoop, Option.ite_none_left_eq_some] at hloop
    have hpos : pos = file.length := Nat.le_antisymm h.le (Nat.not_lt.mp hloop.1)
    rw [← Option.some.inj hloop.2, ← hpos]
    exact h
  | succ fuel ih =>
    rw [readLoop] at hloop
    split at hloop
    · next hlt =>
      dsimp only at hloop
      rw [Option.ite_none_left_eq_some] at hloop
      refine ih (h.step hlen ?_) hloop.2
      have hle : transferred writable (base + BitVec.ofNat 64 pos)
          (min (chunk pos) (file.length - pos)) ≤ min (chunk pos) (file.length - pos) :=
        transferred_le _ _
      omega
    · next hge =>
      have hpos : pos = file.length := Nat.le_antisymm h.le (Nat.not_lt.mp hge)
      rw [← Option.some.inj hloop, ← hpos]
      exact h

end Reading

section Headers

variable {file : List Byte} {mem : Memory} {base : BitVec 64}

/-- The program headers of a file of the large class. -/
def headers (file : List Byte) : List ProgramHeader :=
  let ehdr := fileHeader .elf64 (fileMemory file) 0
  programHeaders .elf64 (fileMemory file) ehdr.phoff ehdr.phnum

/-- A well-formed file of the large class. -/
structure WellFormed (file : List Byte) : Prop where
  magic : (fileMemory file).read 0 4 = [0x7f, 0x45, 0x4c, 0x46]
  large : classOf (fileMemory file) 0 = some .elf64
  phentsize : field (fileMemory file) 0 54 2 = 56
  size : file.length < 2 ^ 63
  table : (fileHeader .elf64 (fileMemory file) 0).phoff.toNat +
    (fileHeader .elf64 (fileMemory file) 0).phnum * 56 ≤ file.length
  segments : ∀ ph ∈ loads (headers file), ph.filesz ≤ ph.memsz ∧
    ph.offset.toNat + ph.filesz.toNat ≤ file.length ∧ ph.vaddr.toNat + ph.memsz.toNat < 2 ^ 64
  ascending : (loads (headers file)).Pairwise fun a b ↦
    a.vaddr.toNat + a.memsz.toNat ≤ b.vaddr.toNat

/-- Memory holds a file from an address on. -/
def HoldsFile (mem : Memory) (base : BitVec 64) (file : List Byte) : Prop :=
  ∀ j < file.length, mem (base + BitVec.ofNat 64 j) = file.getD j 0

private theorem toNat_zero_add {j : Nat} (hj : j < 2 ^ 64) :
    ((0 : BitVec 64) + BitVec.ofNat 64 j).toNat = j := by
  rw [BitVec.toNat_add, BitVec.toNat_ofNat]
  show (0 + j % 2 ^ 64) % 2 ^ 64 = j
  omega

/-- A field of the file is read from where the file is. -/
theorem HoldsFile.field_eq (h : HoldsFile mem base file) (p : BitVec 64) {offset bytes : Nat}
    (hsize : file.length < 2 ^ 63) (hin : p.toNat + offset + bytes ≤ file.length) :
    field mem (base + p) offset bytes = field (fileMemory file) p offset bytes := by
  unfold field
  congr 2
  apply Memory.read_congr
  intro i hi
  have haddr : base + p + BitVec.ofNat 64 offset + BitVec.ofNat 64 i =
      base + BitVec.ofNat 64 (p.toNat + offset + i) := by
    rw [BitVec.ofNat_add, BitVec.ofNat_add, BitVec.ofNat_toNat, BitVec.setWidth_eq]
    simp only [BitVec.add_assoc]
  have hnat : (p + BitVec.ofNat 64 offset + BitVec.ofNat 64 i).toNat = p.toNat + offset + i := by
    simp only [BitVec.toNat_add, BitVec.toNat_ofNat]
    omega
  rw [haddr, h _ (by omega), fileMemory, hnat]

/-- So is the identification. -/
theorem HoldsFile.ident_eq (h : HoldsFile mem base file) (hlen : 5 ≤ file.length) :
    mem.read base 4 = (fileMemory file).read 0 4 ∧
      classOf mem base = classOf (fileMemory file) 0 := by
  have hident : ∀ j < 5, mem (base + BitVec.ofNat 64 j) =
      fileMemory file (0 + BitVec.ofNat 64 j) := by
    intro j hj
    rw [h j (by omega), fileMemory, toNat_zero_add (by omega)]
  refine ⟨Memory.read_congr fun i hi ↦ hident i (by omega), ?_⟩
  have hclass : mem (base + 4) = fileMemory file (0 + 4) := hident 4 (by decide)
  unfold classOf
  rw [hclass]

/-- The headers of the file are read from where the file is. -/
theorem HoldsFile.headers_eq (h : HoldsFile mem base file) (hfile : WellFormed file)
    (hlen : 4096 ≤ file.length) :
    let ehdr := fileHeader .elf64 mem base
    programHeaders .elf64 mem (base + ehdr.phoff) ehdr.phnum = headers file := by
  have hehdr : fileHeader .elf64 mem base = fileHeader .elf64 (fileMemory file) 0 := by
    have hfield : ∀ offset bytes, offset + bytes ≤ 4096 →
        field mem base offset bytes = field (fileMemory file) 0 offset bytes := by
      intro offset bytes hle
      have hin : (0 : BitVec 64).toNat + offset + bytes ≤ file.length := by
        simp
        omega
      rw [← h.field_eq 0 hfile.size hin]
      simp
    simp only [fileHeader, hfield 32 8 (by decide), hfield 56 2 (by decide)]
  dsimp only
  rw [hehdr]
  unfold headers programHeaders
  apply List.map_congr_left
  intro i hi
  have htable := hfile.table
  have hlt := List.mem_range.mp hi
  have hentry : (i + 1) * 56 ≤ (fileHeader .elf64 (fileMemory file) 0).phnum * 56 :=
    Nat.mul_le_mul_right 56 hlt
  generalize (fileHeader .elf64 (fileMemory file) 0).phoff = phoff at htable
  have hsize := hfile.size
  have hat : (phoff + BitVec.ofNat 64 (i * 56)).toNat = phoff.toNat + i * 56 := by
    simp only [BitVec.toNat_add, BitVec.toNat_ofNat]
    omega
  have hfield : ∀ offset bytes, offset + bytes ≤ 56 →
      field mem (base + phoff + BitVec.ofNat 64 (i * 56)) offset bytes =
        field (fileMemory file) (phoff + BitVec.ofNat 64 (i * 56)) offset bytes := by
    intro offset bytes hle
    rw [BitVec.add_assoc]
    apply h.field_eq _ hsize
    omega
  simp only [programHeader, Class.phdrSize, hfield 0 4 (by decide), hfield 8 8 (by decide),
    hfield 16 8 (by decide), hfield 32 8 (by decide), hfield 40 8 (by decide)]

/-- The first pass reads the headers of a well-formed file. -/
theorem firstPass_eq (hfile : WellFormed file) : firstPass file = headers file := by
  have htable := hfile.table
  have hsize := hfile.size
  have hphoff : (fileHeader .elf64 (fileMemory file) 0).phoff.toNat < 2 ^ 63 := by omega
  simp only [firstPass, headers, if_pos hphoff, Class.phdrSize]
  rw [if_pos (Or.inl htable)]

theorem mapSize_eq (hfile : WellFormed file) :
    mapSize file =
      if 0 < maxVaddr (headers file) then (maxVaddr (headers file)).toNat else file.length := by
  simp only [mapSize, hfile.large, if_true, firstPass_eq hfile]

/-- The end that is computed is behind every segment of the list. -/
private theorem le_foldl_end (l : List ProgramHeader) (m : BitVec 64) :
    let last := l.foldl
      (fun m ph ↦ if m < ph.vaddr + ph.memsz then ph.vaddr + ph.memsz else m) m
    m ≤ last ∧ ∀ ph ∈ l, ph.vaddr + ph.memsz ≤ last := by
  induction l generalizing m with
  | nil => exact ⟨BitVec.le_refl m, fun ph hph ↦ absurd hph List.not_mem_nil⟩
  | cons ph l ih =>
    obtain ⟨hstart, hrest⟩ := ih (if m < ph.vaddr + ph.memsz then ph.vaddr + ph.memsz else m)
    have hboth : m ≤ (if m < ph.vaddr + ph.memsz then ph.vaddr + ph.memsz else m) ∧
        ph.vaddr + ph.memsz ≤ (if m < ph.vaddr + ph.memsz then ph.vaddr + ph.memsz else m) := by
      split
      · next hlt => exact ⟨BitVec.le_of_lt hlt, BitVec.le_refl _⟩
      · next hge => exact ⟨BitVec.le_refl m, BitVec.not_lt.mp hge⟩
    refine ⟨BitVec.le_trans hboth.1 hstart, fun ph' hph' ↦ ?_⟩
    rcases List.mem_cons.mp hph' with rfl | hmem
    · exact BitVec.le_trans hboth.2 hstart
    · exact hrest ph' hmem

/-- No segment ends behind the end that is computed. -/
theorem le_maxVaddr {phdrs : List ProgramHeader} {ph : ProgramHeader} (h : ph ∈ loads phdrs)
    (hfits : ph.vaddr.toNat + ph.memsz.toNat < 2 ^ 64) :
    ph.vaddr.toNat + ph.memsz.toNat ≤ (maxVaddr phdrs).toNat := by
  have hle := (le_foldl_end (loads phdrs) 0).2 ph h
  rw [BitVec.le_def, BitVec.toNat_add, Nat.mod_eq_of_lt hfits] at hle
  exact hle

theorem loadBias_le {phdrs : List ProgramHeader}
    (hfits : ∀ ph ∈ loads phdrs, ph.vaddr.toNat + ph.memsz.toNat < 2 ^ 64) :
    (loadBias phdrs).toNat ≤ (maxVaddr phdrs).toNat := by
  unfold loadBias
  split
  · next ph hfind =>
    have hmem := List.mem_of_find?_eq_some hfind
    have hle := le_maxVaddr hmem (hfits ph hmem)
    omega
  · exact Nat.zero_le _

end Headers

section Modules

variable {file : List Byte} {m m' : ElfModule} {c : Class}

namespace ElfModule

/-- The fields that the dynamic section leaves alone. -/
structure SameImage (m m' : ElfModule) : Prop where
  mem : m'.mem = m.mem
  written : m'.written = m.written
  memory : m'.memory = m.memory
  mappedSize : m'.mappedSize = m.mappedSize
  loadBias : m'.loadBias = m.loadBias

theorem SameImage.refl (m : ElfModule) : SameImage m m := ⟨rfl, rfl, rfl, rfl, rfl⟩

theorem SameImage.trans {m'' : ElfModule} (h : SameImage m m') (h' : SameImage m' m'') :
    SameImage m m'' :=
  ⟨h'.mem.trans h.mem, h'.written.trans h.written, h'.memory.trans h.memory,
    h'.mappedSize.trans h.mappedSize, h'.loadBias.trans h.loadBias⟩

theorem dynEntry_sameImage (tag val : BitVec 64) : SameImage m (m.dynEntry c tag val) := by
  unfold dynEntry
  dsimp only
  repeat' split
  all_goals exact ⟨rfl, rfl, rfl, rfl, rfl⟩

theorem dynLoop_sameImage {fuel : Nat} {dyn : BitVec 64} (h : dynLoop c fuel dyn m = some m') :
    SameImage m m' := by
  induction fuel generalizing dyn m with
  | zero => cases h
  | succ fuel ih =>
    rw [dynLoop] at h
    split at h
    · rw [← Option.some.inj h]
      exact SameImage.refl m
    · exact (dynEntry_sameImage _ _).trans (ih h)

/-- The headers in the mapping give the load bias and change nothing of the image. -/
theorem readHeaders_sameImage (h : readHeaders c m = some m') :
    SameImage { m with
      loadBias := Elf.loadBias (programHeaders c m.mem (m.memory + (fileHeader c m.mem m.memory).phoff)
        (fileHeader c m.mem m.memory).phnum) } m' := by
  unfold readHeaders at h
  dsimp only at h
  split at h
  · exact dynLoop_sameImage h
  · rw [← Option.some.inj h]
    exact SameImage.refl _

end ElfModule

/-- What a load makes of a file. -/
structure Loaded (file : List Byte) (m : ElfModule) : Prop where
  holds : HoldsFile m.mem m.memory file
  zero : ∀ j, file.length ≤ j → j < m.mappedSize → m.mem (m.memory + BitVec.ofNat 64 j) = 0
  written : ∀ p, (∃ r ∈ m.written, p ∈ r) ↔ p ∈ (⟨m.memory, file.length⟩ : Region)
  mappedSize : m.mappedSize = mapSize file
  small : m.mappedSize ≤ 2 ^ 47
  loadBias : m.loadBias = loadBias (headers file)

/-- The memory after the file has been read into a mapping. -/
theorem ReadUpTo.holds {base : BitVec 64} {mem : Memory} {w : Writes}
    (hsize : file.length < 2 ^ 63) (h : ReadUpTo file base mem file.length w) :
    HoldsFile w.mem base file := by
  intro j hj
  rw [h.mem, List.take_length]
  apply Memory.write_at (by omega)
  rw [List.getElem?_eq_getElem hj, List.getD_eq_getElem?_getD, List.getElem?_eq_getElem hj,
    Option.getD_some]

theorem elfLoad_loaded {host : Host} (hfile : WellFormed file)
    (h : elfLoad host file = some m) : Loaded file m := by
  have hsize := hfile.size
  simp only [elfLoad, Option.bind_eq_bind, Option.bind_eq_some_iff, guard] at h
  obtain ⟨_, hguard, mapping, _, w, hread, _, _, h⟩ := h
  have hlen : 4096 ≤ file.length := by
    by_contra hshort
    rw [if_neg hshort] at hguard
    cases hguard
  have hupto := readLoop_readUpTo (by omega) (ReadUpTo.start mapping.mem) hread
  have hholds := hupto.holds hsize
  have hclass : classOf w.mem mapping.base = some .elf64 :=
    (hholds.ident_eq (by omega)).2.trans hfile.large
  rw [hclass] at h
  have hsame := ElfModule.readHeaders_sameImage h
  have hheaders := hholds.headers_eq hfile hlen
  have hfits := mapping.fits
  have hmem : m.mem = w.mem := hsame.mem
  have hbase : m.memory = mapping.base := hsame.memory
  have hmapped : m.mappedSize = mapSize file := hsame.mappedSize
  refine ⟨?_, ?_, ?_, hmapped, ?_, ?_⟩
  · rw [hmem, hbase]
    exact hholds
  · intro j hge hlt
    rw [hmapped] at hlt
    rw [hmem, hbase, hupto.mem, Memory.write_of_notMem]
    · exact mapping.zero _ (Region.start_add_mem hlt)
    · rw [BitVec.add_comm]
      simp only [Region.mem_iff, BitVec.add_sub_cancel, BitVec.toNat_ofNat, List.take_length]
      omega
  · intro p
    rw [hsame.written, hbase]
    exact hupto.written p
  · rw [hmapped]
    omega
  · rw [hsame.loadBias]
    exact congrArg loadBias hheaders

end Modules

section Law

variable {file : List Byte} {m : ElfModule}

/-- The byte of the image at a virtual address. -/
def ElfModule.HasByte (m : ElfModule) (v : BitVec 64) (b : Byte) : Prop :=
  m.pointer v ∈ (⟨m.memory, m.mappedSize⟩ : Region) ∧ m.mem (m.pointer v) = b

/-- The byte of a segment at an offset: a byte of the file, or zero behind those. -/
def segmentByte (file : List Byte) (ph : ProgramHeader) (k : Nat) : Byte :=
  if k < ph.filesz.toNat then file.getD (ph.offset.toNat + k) 0 else 0

/-- The segments are where their virtual addresses are, and nothing is written but the mapping. -/
structure ImageLaw (file : List Byte) (m : ElfModule) : Prop where
  segments : ∀ ph ∈ loads (headers file), ∀ k < ph.memsz.toNat,
    m.HasByte (ph.vaddr + BitVec.ofNat 64 k) (segmentByte file ph k)
  inside : ∀ r ∈ m.written, ∀ p ∈ r, p ∈ (⟨m.memory, m.mappedSize⟩ : Region)

/-- When the file is its own image: it fits before the end of the last segment, and at the virtual
addresses of every segment, counted from the load bias, it reads as the segment does. -/
def imageExact (file : List Byte) : Prop :=
  file.length ≤ mapSize file ∧
    ∀ ph ∈ loads (headers file), ∀ k < ph.memsz.toNat,
      (loadBias (headers file)).toNat ≤ ph.vaddr.toNat + k ∧
        file.getD (ph.vaddr.toNat + k - (loadBias (headers file)).toNat) 0 = segmentByte file ph k

/-- The image holds the file with zeros behind it. -/
theorem Loaded.mem_at (h : Loaded file m) {j : Nat} (hj : j < m.mappedSize) :
    m.mem (m.memory + BitVec.ofNat 64 j) = file.getD j 0 := by
  by_cases hin : j < file.length
  · exact h.holds j hin
  · have hend := Nat.not_lt.mp hin
    rw [h.zero j hend hj, List.getD_eq_getElem?_getD, List.getElem?_eq_none hend, Option.getD_none]

/-- Where a load keeps the byte at a virtual address. -/
theorem hasByte_iff (hfile : WellFormed file) (h : Loaded file m) {ph : ProgramHeader} {k : Nat}
    (hph : ph ∈ loads (headers file)) (hk : k < ph.memsz.toNat) (b : Byte) :
    m.HasByte (ph.vaddr + BitVec.ofNat 64 k) b ↔
      (loadBias (headers file)).toNat ≤ ph.vaddr.toNat + k ∧
        file.getD (ph.vaddr.toNat + k - (loadBias (headers file)).toNat) 0 = b := by
  have hfits := fun ph hph ↦ (hfile.segments ph hph).2.2
  have hend := le_maxVaddr hph (hfits ph hph)
  have hbias := loadBias_le hfits
  have hmapped : m.mappedSize = (maxVaddr (headers file)).toNat := by
    rw [h.mappedSize, mapSize_eq hfile, if_pos]
    show 0 < (maxVaddr (headers file)).toNat
    omega
  have hsmall := h.small
  have hpointer : m.pointer (ph.vaddr + BitVec.ofNat 64 k) =
      m.memory + (ph.vaddr + BitVec.ofNat 64 k - loadBias (headers file)) := by
    rw [ElfModule.pointer, h.loadBias]
    bv_omega
  have hoffset : (ph.vaddr + BitVec.ofNat 64 k - loadBias (headers file)).toNat =
      (ph.vaddr.toNat + k + (2 ^ 64 - (loadBias (headers file)).toNat)) % 2 ^ 64 := by
    have hsum := hfits ph hph
    simp only [BitVec.toNat_sub, BitVec.toNat_add, BitVec.toNat_ofNat]
    omega
  have hmem : m.pointer (ph.vaddr + BitVec.ofNat 64 k) ∈ (⟨m.memory, m.mappedSize⟩ : Region) ↔
      (loadBias (headers file)).toNat ≤ ph.vaddr.toNat + k := by
    have hsum := hfits ph hph
    rw [hpointer, BitVec.add_comm]
    simp only [Region.mem_iff, BitVec.add_sub_cancel, hoffset]
    omega
  rw [ElfModule.HasByte, hmem]
  refine and_congr_right fun hle ↦ ?_
  have hat : m.pointer (ph.vaddr + BitVec.ofNat 64 k) = m.memory +
      BitVec.ofNat 64 (ph.vaddr.toNat + k - (loadBias (headers file)).toNat) := by
    have hsum := hfits ph hph
    rw [hpointer]
    congr 1
    apply BitVec.eq_of_toNat_eq
    rw [hoffset, BitVec.toNat_ofNat]
    omega
  rw [hat, h.mem_at]
  have hsum := hfits ph hph
  omega

/-- The file is what is written. -/
theorem inside_iff (h : Loaded file m) :
    (∀ r ∈ m.written, ∀ p ∈ r, p ∈ (⟨m.memory, m.mappedSize⟩ : Region)) ↔
      file.length ≤ mapSize file := by
  rw [← h.mappedSize]
  constructor
  · intro hinside
    by_contra hlong
    have hlast : m.memory + BitVec.ofNat 64 m.mappedSize ∈ (⟨m.memory, file.length⟩ : Region) :=
      Region.start_add_mem (Nat.not_le.mp hlong)
    obtain ⟨r, hr, hp⟩ := (h.written _).mpr hlast
    have hout := hinside r hr _ hp
    have hsmall := h.small
    rw [BitVec.add_comm] at hout
    simp only [Region.mem_iff, BitVec.add_sub_cancel, BitVec.toNat_ofNat] at hout
    omega
  · intro hle r hr p hp
    have hin := (h.written p).mp ⟨r, hr, hp⟩
    rw [Region.mem_iff] at hin ⊢
    exact Nat.lt_of_lt_of_le hin hle

theorem Loaded.imageLaw_iff (hfile : WellFormed file) (h : Loaded file m) :
    ImageLaw file m ↔ imageExact file := by
  constructor
  · intro hlaw
    refine ⟨(inside_iff h).mp hlaw.inside, fun ph hph k hk ↦ ?_⟩
    exact (hasByte_iff hfile h hph hk _).mp (hlaw.segments ph hph k hk)
  · intro hexact
    refine ⟨fun ph hph k hk ↦ ?_, (inside_iff h).mpr hexact.1⟩
    exact (hasByte_iff hfile h hph hk _).mpr (hexact.2 ph hph k hk)

/-- A load of a well-formed file obeys the law of images exactly when the file is its own image. -/
theorem elfLoad_imageLaw_iff (host : Host) (file : List Byte) (m : ElfModule)
    (hfile : WellFormed file) (h : elfLoad host file = some m) :
    ImageLaw file m ↔ imageExact file :=
  (elfLoad_loaded hfile h).imageLaw_iff hfile

end Law

section Success

variable {file : List Byte} {chunk : Nat → Nat} {base : BitVec 64} {writable : BitVec 64 → Bool}

theorem transferred_pos {p : BitVec 64} {n : Nat} (hp : writable p = true) (hn : 0 < n) :
    0 < transferred writable p n := by
  obtain ⟨n, rfl⟩ := Nat.exists_eq_succ_of_ne_zero (Nat.pos_iff_ne_zero.mp hn)
  rw [transferred, if_pos hp]
  exact Nat.succ_pos _

/-- The loop ends with the file read when all of its bytes can be written. -/
theorem readLoop_isSome (hwritable : ∀ j < file.length, writable (base + BitVec.ofNat 64 j) = true)
    (hchunk : ∀ pos, 0 < chunk pos) {fuel pos : Nat} (w : Writes)
    (hfuel : file.length - pos ≤ fuel) :
    (readLoop file chunk base writable fuel pos w).isSome = true := by
  induction fuel generalizing pos w with
  | zero =>
    rw [readLoop, if_neg (by omega)]
    rfl
  | succ fuel ih =>
    rw [readLoop]
    split
    · next hlt =>
      have hpos := transferred_pos (n := min (chunk pos) (file.length - pos)) (hwritable pos hlt)
        (Nat.lt_min.mpr ⟨hchunk pos, Nat.sub_pos_of_lt hlt⟩)
      dsimp only
      rw [if_neg (Nat.pos_iff_ne_zero.mp hpos)]
      exact ih _ (by omega)
    · rfl

/-- A well-formed file that fits and has no dynamic section is loaded. -/
theorem elfLoad_isSome {host : Host} {mapping : Mapping (mapSize file)} (hfile : WellFormed file)
    (hlen : 4096 ≤ file.length) (hmap : host.mmap (mapSize file) = some mapping)
    (hchunk : ∀ pos, 0 < host.chunk pos) (hfits : file.length ≤ mapSize file)
    (hdynamic : (headers file).find? (·.type == ptDynamic) = none) :
    ∃ m, elfLoad host file = some m := by
  have hwritable : ∀ j < file.length,
      mapping.writable (mapping.base + BitVec.ofNat 64 j) = true := by
    intro j hj
    exact mapping.owned _ (Region.start_add_mem (Nat.lt_of_lt_of_le hj hfits))
  have hsome : (readLoop file host.chunk mapping.base mapping.writable file.length 0
      ⟨mapping.mem, []⟩).isSome = true :=
    readLoop_isSome hwritable hchunk _ (by omega)
  obtain ⟨w, hread⟩ := Option.isSome_iff_exists.mp hsome
  have hsize := hfile.size
  have hupto := readLoop_readUpTo (by omega) (ReadUpTo.start mapping.mem) hread
  have hholds := hupto.holds hsize
  have hident := hholds.ident_eq (by omega)
  have hheaders := hholds.headers_eq hfile hlen
  have hclass : classOf w.mem mapping.base = some .elf64 := hident.2.trans hfile.large
  have hmagic : w.mem.read mapping.base 4 = [0x7f, 0x45, 0x4c, 0x46] :=
    hident.1.trans hfile.magic
  have hload : elfLoad host file = ElfModule.readHeaders .elf64
      { mem := w.mem
        written := w.regions
        memory := mapping.base
        size := file.length
        mappedSize := mapSize file } := by
    simp only [elfLoad, guard, hlen, if_true, hmap, hread, hmagic, hclass, Option.bind_eq_bind,
      Option.pure_def, Option.bind_some]
  rw [hload]
  simp only [ElfModule.readHeaders, hheaders, hdynamic]
  exact ⟨_, rfl⟩

end Success

section Sample

/-- The headers of a file with one segment of a page that has 120 bytes of the file. -/
def sampleHeader : List Byte :=
  [0x7f, 0x45, 0x4c, 0x46, 2, 1, 1, 0] ++ leBytes 8 0 ++ leBytes 2 3 ++ leBytes 2 183 ++
    leBytes 4 1 ++ leBytes 8 0 ++ leBytes 8 64 ++ leBytes 8 0 ++ leBytes 4 0 ++ leBytes 2 64 ++
    leBytes 2 56 ++ leBytes 2 1 ++ leBytes 6 0 ++
    leBytes 4 1 ++ leBytes 4 6 ++ leBytes 8 0 ++ leBytes 8 0 ++ leBytes 8 0 ++ leBytes 8 120 ++
    leBytes 8 4096 ++ leBytes 8 4096

/-- The file, with a byte at its end that belongs to no segment. -/
def sampleFile (last : Byte) : List Byte := sampleHeader ++ (List.replicate 3975 0 ++ [last])

/-- A host with one large mapping. -/
def sampleHost : Host where
  mmap size :=
    if h : size ≤ 2 ^ 46 then
      some
        { base := 0x10000
          mem := fun _ ↦ 0
          writable := fun _ ↦ true
          fits := by
            show 0x10000 + size ≤ 2 ^ 47
            omega
          zero := fun _ _ ↦ rfl
          owned := fun _ _ ↦ rfl }
    else none
  chunk := fun _ ↦ 4096

private theorem length_sampleHeader : sampleHeader.length = 120 := by decide

theorem length_sampleFile (last : Byte) : (sampleFile last).length = 4096 := by
  rw [sampleFile, List.length_append, List.length_append, List.length_replicate,
    length_sampleHeader, List.length_singleton]

private theorem sampleFile_holds (last : Byte) :
    HoldsFile (fileMemory (sampleFile last)) 0 sampleHeader := by
  intro j hj
  have hlt : j < 120 := length_sampleHeader ▸ hj
  rw [fileMemory, toNat_zero_add (by omega), sampleFile, List.getD_eq_getElem?_getD,
    List.getElem?_append_left hj, List.getD_eq_getElem?_getD]

private theorem sampleFile_field (last : Byte) (p : BitVec 64) (offset bytes : Nat)
    (hin : p.toNat + offset + bytes ≤ 120) :
    field (fileMemory (sampleFile last)) p offset bytes =
      field (fileMemory sampleHeader) p offset bytes := by
  rw [← length_sampleHeader] at hin
  have hsize : sampleHeader.length < 2 ^ 63 := by
    rw [length_sampleHeader]
    decide
  rw [← (sampleFile_holds last).field_eq p hsize hin]
  congr 1
  bv_omega

private theorem headers_sampleFile (last : Byte) :
    fileHeader .elf64 (fileMemory (sampleFile last)) 0 = ⟨64, 1⟩ ∧
      headers (sampleFile last) = [⟨1, 0, 0, 120, 4096⟩] := by
  have hehdr : fileHeader .elf64 (fileMemory (sampleFile last)) 0 = ⟨64, 1⟩ := by
    simp only [fileHeader, sampleFile_field last 0 32 8 (by decide),
      sampleFile_field last 0 56 2 (by decide)]
    decide
  refine ⟨hehdr, ?_⟩
  simp only [headers, hehdr, programHeaders, Class.phdrSize, List.range_one, List.map_cons,
    List.map_nil, programHeader]
  rw [sampleFile_field last _ 0 4 (by decide), sampleFile_field last _ 8 8 (by decide),
    sampleFile_field last _ 16 8 (by decide), sampleFile_field last _ 32 8 (by decide),
    sampleFile_field last _ 40 8 (by decide)]
  decide

theorem sampleFile_wellFormed (last : Byte) : WellFormed (sampleFile last) := by
  obtain ⟨hehdr, hheaders⟩ := headers_sampleFile last
  have hlen := length_sampleFile last
  have hident := (sampleFile_holds last).ident_eq (by rw [length_sampleHeader]; decide)
  have hloads : loads (headers (sampleFile last)) = [⟨1, 0, 0, 120, 4096⟩] := by
    rw [hheaders]
    rfl
  refine ⟨hident.1.trans (by decide), hident.2.trans (by decide), ?_, ?_, ?_, ?_, ?_⟩
  · rw [sampleFile_field last 0 54 2 (by decide)]
    decide
  · rw [hlen]
    decide
  · rw [hehdr, hlen]
    decide
  · rw [hloads, hlen]
    decide
  · rw [hloads]
    exact List.pairwise_singleton _ _

private theorem mapSize_sampleFile (last : Byte) : mapSize (sampleFile last) = 4096 := by
  rw [mapSize_eq (sampleFile_wellFormed last), (headers_sampleFile last).2]
  rfl

private theorem sampleHost_mmap {size : Nat} (h : size ≤ 2 ^ 46) :
    ∃ mapping, sampleHost.mmap size = some mapping :=
  ⟨_, dif_pos h⟩

theorem sampleFile_loaded (last : Byte) : ∃ m, elfLoad sampleHost (sampleFile last) = some m := by
  have hsize : mapSize (sampleFile last) ≤ 2 ^ 46 := by
    rw [mapSize_sampleFile]
    decide
  obtain ⟨mapping, hmap⟩ := sampleHost_mmap hsize
  refine elfLoad_isSome (sampleFile_wellFormed last) ?_ hmap (fun _ ↦ Nat.succ_pos _) ?_ ?_
  · exact Nat.le_of_eq (length_sampleFile last).symm
  · exact Nat.le_of_eq ((length_sampleFile last).trans (mapSize_sampleFile last).symm)
  · rw [(headers_sampleFile last).2]
    rfl

/-- The file without the last byte is loaded as it should be or not, as the condition says. -/
theorem sampleFile_imageLaw_iff : ∃ m, elfLoad sampleHost (sampleFile 0) = some m ∧
    (ImageLaw (sampleFile 0) m ↔ imageExact (sampleFile 0)) := by
  obtain ⟨m, hm⟩ := sampleFile_loaded 0
  exact ⟨m, hm, elfLoad_imageLaw_iff sampleHost _ m (sampleFile_wellFormed 0) hm⟩

/-- The byte behind the bytes of the segment shows in its zeros. -/
theorem sampleFile_not_imageLaw : ∃ m, elfLoad sampleHost (sampleFile 1) = some m ∧
    WellFormed (sampleFile 1) ∧ ¬ ImageLaw (sampleFile 1) m := by
  obtain ⟨m, hm⟩ := sampleFile_loaded 1
  have hfile := sampleFile_wellFormed 1
  refine ⟨m, hm, hfile, fun hlaw ↦ ?_⟩
  have hexact := ((elfLoad_loaded hfile hm).imageLaw_iff hfile).mp hlaw
  have hheaders := (headers_sampleFile 1).2
  have hbyte := (hexact.2 ⟨1, 0, 0, 120, 4096⟩ (by rw [hheaders]; decide) 4095 (by decide)).2
  rw [hheaders] at hbyte
  have hlast : (sampleFile 1).getD 4095 0 = 1 := by
    have hheader : sampleHeader.length ≤ 4095 := by
      rw [length_sampleHeader]
      decide
    have hzeros : (List.replicate 3975 (0 : Byte)).length ≤ 4095 - 120 :=
      Nat.le_of_eq List.length_replicate
    rw [sampleFile, List.getD_eq_getElem?_getD, List.getElem?_append_right hheader,
      length_sampleHeader, List.getElem?_append_right hzeros, List.length_replicate]
    rfl
  have hzero : segmentByte (sampleFile 1) ⟨1, 0, 0, 120, 4096⟩ 4095 = 0 := rfl
  rw [hzero] at hbyte
  exact absurd (hlast.symm.trans hbyte) (by decide)

/-- The headers of a file with a segment of a page, which has the dynamic section behind the headers. -/
def dynamicHeader : List Byte :=
  [0x7f, 0x45, 0x4c, 0x46, 2, 1, 1, 0] ++ leBytes 8 0 ++ leBytes 2 3 ++ leBytes 2 183 ++
    leBytes 4 1 ++ leBytes 8 0 ++ leBytes 8 64 ++ leBytes 8 0 ++ leBytes 4 0 ++ leBytes 2 64 ++
    leBytes 2 56 ++ leBytes 2 2 ++ leBytes 6 0 ++
    leBytes 4 1 ++ leBytes 4 6 ++ leBytes 8 0 ++ leBytes 8 0 ++ leBytes 8 0 ++ leBytes 8 4096 ++
    leBytes 8 4096 ++ leBytes 8 4096 ++
    leBytes 4 2 ++ leBytes 4 6 ++ leBytes 8 176 ++ leBytes 8 176 ++ leBytes 8 176 ++ leBytes 8 64 ++
    leBytes 8 64 ++ leBytes 8 8

/-- A file of a page that starts with some bytes, and the memory behind its load. -/
def pageFile (head : List Byte) : List Byte := head ++ List.replicate (4096 - head.length) 0

def pageModule (head : List Byte) : ElfModule :=
  { mem := Memory.write (fun _ ↦ 0) 0x10000 head
    written := [⟨0x10000, 4096⟩]
    memory := 0x10000
    size := 4096
    mappedSize := 4096 }

theorem elfLoad_pageFile {head : List Byte} {c : Class} (hlen : head.length ≤ 4096)
    (hmap : mapSize (pageFile head) = 4096)
    (hmagic : (pageModule head).mem.read 0x10000 4 = [0x7f, 0x45, 0x4c, 0x46])
    (hclass : classOf (pageModule head).mem 0x10000 = some c) :
    elfLoad sampleHost (pageFile head) = ElfModule.readHeaders c (pageModule head) := by
  have hfile : (pageFile head).length = 4096 := by
    rw [pageFile, List.length_append, List.length_replicate]
    omega
  have hall : ∀ p n, transferred (fun _ ↦ true) p n = n := by
    intro p n
    induction n generalizing p with
    | zero => rfl
    | succ n ih => rw [transferred, if_pos rfl, ih]
  have hmem : Memory.write (fun _ ↦ 0) 0x10000 (pageFile head) = (pageModule head).mem := by
    funext q
    show ((pageFile head)[_]?).getD 0 = (head[_]?).getD 0
    by_cases hq : (q - 0x10000).toNat < head.length
    · rw [pageFile, List.getElem?_append_left hq]
    · rw [pageFile, List.getElem?_append_right (Nat.not_lt.mp hq), List.getElem?_replicate,
        List.getElem?_eq_none (Nat.not_lt.mp hq)]
      split <;> rfl
  have hread : readLoop (pageFile head) (fun _ ↦ 4096) 0x10000 (fun _ ↦ true) 4096 0 ⟨fun _ ↦ 0, []⟩ =
      some ⟨(pageModule head).mem, [⟨0x10000, 4096⟩]⟩ := by
    rw [readLoop, if_pos (by omega)]
    dsimp only
    rw [hall, hfile, Nat.sub_zero, Nat.min_self, if_neg (by decide), readLoop, hfile, if_neg (by decide),
      List.drop_zero, List.take_of_length_le (Nat.le_of_eq hfile), Writes.write, hfile,
      BitVec.add_zero, hmem]
    rfl
  have hhost : ∃ mapping, sampleHost.mmap (mapSize (pageFile head)) = some mapping ∧
      mapping.base = 0x10000 ∧ (mapping.mem = fun _ ↦ 0) ∧ mapping.writable = fun _ ↦ true := by
    have hsmall : mapSize (pageFile head) ≤ 2 ^ 46 := by
      rw [hmap]
      decide
    exact ⟨_, dif_pos hsmall, rfl, rfl, rfl⟩
  obtain ⟨mapping, hmapping, hbase, hzero, hwritable⟩ := hhost
  have hchunk : sampleHost.chunk = fun _ ↦ 4096 := rfl
  simp only [elfLoad, guard, hfile, Nat.le_refl, if_true, hmapping, hbase, hzero, hwritable, hchunk, hread,
    hmap, Option.bind_eq_bind, Option.pure_def, Option.bind_some]
  rw [if_pos hmagic, Option.bind_some, hclass]
  rfl

end Sample

end Elf

end Arm2x86
