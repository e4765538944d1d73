import Arm2x86.Easy.Aot
import Arm2x86.Easy.Transparency
import Arm2x86.Tcache.Newest
import Arm2x86.Translate.OutputBound

/-!
# Files of translated code

The file that `arm2x86_aot_translate`, `modules/arm2x86_easy.c:1206`, writes and
`arm2x86_load_aot_module`, `modules/arm2x86_easy.c:1306`, reads: a header of forty bytes and the code.
The writer does not look at what `fwrite` returns. The reader looks at the magic number and at the
size of the code, and at nothing else of the header but the address.
-/

namespace Arm2x86.Easy

open Tcache

/-- The values of `arm2x86_error_t` that `arm2x86_load_aot_module` returns. -/
inductive AotStatus
  | ok
  | errInvalidArgument
  | errOutOfMemory
  | errPermissionDenied
deriving DecidableEq

/-- The header; between the architecture and the sizes the compiler leaves four bytes. -/
structure AotHeader where
  magic : BitVec 32
  version : BitVec 32
  arch : BitVec 32
  padding : BitVec 32
  armSize : BitVec 64
  x86Size : BitVec 64
  baseAddr : BitVec 64
deriving DecidableEq

/-- `"AOT\0"`. -/
def aotMagic : BitVec 32 := 0x00544f41

/-- `sizeof(header)`. -/
def aotHeaderSize : Nat := 40

namespace AotHeader

/-- The memory of a header. -/
def encode (h : AotHeader) : List Byte :=
  leBytes 4 h.magic.toNat ++ (leBytes 4 h.version.toNat ++ (leBytes 4 h.arch.toNat ++
  (leBytes 4 h.padding.toNat ++ (leBytes 8 h.armSize.toNat ++ (leBytes 8 h.x86Size.toNat ++
  leBytes 8 h.baseAddr.toNat)))))

/-- The number in some bytes of a file. -/
def wordAt (w offset : Nat) (bs : List Byte) : BitVec w :=
  BitVec.ofNat w (leNat ((bs.drop offset).take (w / 8)))

/-- The header that `fread` fills from the first bytes of a file. -/
def decode (bs : List Byte) : AotHeader where
  magic := wordAt 32 0 bs
  version := wordAt 32 4 bs
  arch := wordAt 32 8 bs
  padding := wordAt 32 12 bs
  armSize := wordAt 64 16 bs
  x86Size := wordAt 64 24 bs
  baseAddr := wordAt 64 32 bs

end AotHeader

/-- The header of an output file. -/
def AotFile.header (out : AotFile) (padding : BitVec 32) : AotHeader where
  magic := out.magic
  version := out.version
  arch := out.arch
  padding := padding
  armSize := BitVec.ofNat 64 out.armSize
  x86Size := BitVec.ofNat 64 out.x86Size
  baseAddr := out.baseAddr

/-- The two calls of `fwrite`, `modules/arm2x86_easy.c:1296`. -/
def AotFile.bytes (out : AotFile) (padding : BitVec 32) : List Byte := (out.header padding).encode ++ out.code

/-- `arm2x86_load_aot_module`, with what `fopen` and `fread` give of the file. -/
def loadAotFile (s : Instance) (file : Option (List Byte)) (ans : Answers) :
    Option (AotStatus × Instance) :=
  match file with
  | none => some (.errPermissionDenied, s)
  | some bytes =>
    if bytes.length < aotHeaderSize then some (.errInvalidArgument, s)
    else
      let header := AotHeader.decode bytes
      if header.magic ≠ aotMagic then some (.errInvalidArgument, s)
      else
        let code := (bytes.drop aotHeaderSize).take header.x86Size.toNat
        let complete := decide (code.length = header.x86Size.toNat)
        let status :=
          if (ans.buffer.place s.regions).isNone then .errOutOfMemory
          else if complete then .ok else .errPermissionDenied
        (s.loadAotModule header.baseAddr code complete ans).map fun s' ↦ (status, s')

/-! ## The format -/

section Format

variable {w n : Nat} {pre rest : List Byte}

@[simp] theorem AotHeader.length_encode (h : AotHeader) : h.encode.length = aotHeaderSize := by
  simp [AotHeader.encode, aotHeaderSize]

/-- A number is read where it was written. -/
theorem AotHeader.wordAt_first (x : BitVec w) (hw : 256 ^ (w / 8) = 2 ^ w) (rest : List Byte) :
    AotHeader.wordAt w 0 (leBytes (w / 8) x.toNat ++ rest) = x := by
  have hlt : x.toNat < 256 ^ (w / 8) := hw ▸ x.isLt
  rw [AotHeader.wordAt, List.drop_zero, List.take_left' (length_leBytes _ _), leNat_leBytes hlt,
    BitVec.ofNat_toNat, BitVec.setWidth_eq]

/-- A number in front of another one. -/
theorem AotHeader.wordAt_skip (k x : Nat) (n : Nat) (rest : List Byte) :
    AotHeader.wordAt w (k + n) (leBytes k x ++ rest) = AotHeader.wordAt w n rest := by
  rw [AotHeader.wordAt, ← List.drop_drop, List.drop_left' (length_leBytes k x), AotHeader.wordAt]

/-- A header is read back from a file that starts with it. -/
theorem AotHeader.decode_encode (h : AotHeader) (rest : List Byte) :
    AotHeader.decode (h.encode ++ rest) = h := by
  obtain ⟨magic, version, arch, padding, armSize, x86Size, baseAddr⟩ := h
  simp only [AotHeader.decode, AotHeader.encode, AotHeader.mk.injEq, List.append_assoc]
  refine ⟨AotHeader.wordAt_first magic rfl _, ?_, ?_, ?_, ?_, ?_, ?_⟩
  · exact (AotHeader.wordAt_skip 4 _ 0 _).trans (AotHeader.wordAt_first version rfl _)
  · exact (AotHeader.wordAt_skip 4 _ 4 _).trans <| (AotHeader.wordAt_skip 4 _ 0 _).trans
      (AotHeader.wordAt_first arch rfl _)
  · exact (AotHeader.wordAt_skip 4 _ 8 _).trans <| (AotHeader.wordAt_skip 4 _ 4 _).trans <|
      (AotHeader.wordAt_skip 4 _ 0 _).trans (AotHeader.wordAt_first padding rfl _)
  · exact (AotHeader.wordAt_skip 4 _ 12 _).trans <| (AotHeader.wordAt_skip 4 _ 8 _).trans <|
      (AotHeader.wordAt_skip 4 _ 4 _).trans <| (AotHeader.wordAt_skip 4 _ 0 _).trans
        (AotHeader.wordAt_first armSize rfl _)
  · exact (AotHeader.wordAt_skip 4 _ 20 _).trans <| (AotHeader.wordAt_skip 4 _ 16 _).trans <|
      (AotHeader.wordAt_skip 4 _ 12 _).trans <| (AotHeader.wordAt_skip 4 _ 8 _).trans <|
        (AotHeader.wordAt_skip 8 _ 0 _).trans (AotHeader.wordAt_first x86Size rfl _)
  · exact (AotHeader.wordAt_skip 4 _ 28 _).trans <| (AotHeader.wordAt_skip 4 _ 24 _).trans <|
      (AotHeader.wordAt_skip 4 _ 20 _).trans <| (AotHeader.wordAt_skip 4 _ 16 _).trans <|
        (AotHeader.wordAt_skip 8 _ 8 _).trans <| (AotHeader.wordAt_skip 8 _ 0 _).trans
          (AotHeader.wordAt_first baseAddr rfl _)

/-- Where a reader of a file comes to depends on the bytes up to there. -/
theorem AotHeader.decode_take (bs : List Byte) (n : Nat) (hn : aotHeaderSize ≤ n) :
    AotHeader.decode (bs.take n) = AotHeader.decode bs := by
  have hword : ∀ w offset, offset + w / 8 ≤ aotHeaderSize →
      AotHeader.wordAt w offset (bs.take n) = AotHeader.wordAt w offset bs := by
    intro w offset hle
    rw [AotHeader.wordAt, AotHeader.wordAt, List.drop_take, List.take_take, Nat.min_eq_left (by omega)]
  simp only [AotHeader.decode, hword _ _ (by decide : 0 + 32 / 8 ≤ aotHeaderSize),
    hword _ _ (by decide : 4 + 32 / 8 ≤ aotHeaderSize), hword _ _ (by decide : 8 + 32 / 8 ≤ aotHeaderSize),
    hword _ _ (by decide : 12 + 32 / 8 ≤ aotHeaderSize), hword _ _ (by decide : 16 + 64 / 8 ≤ aotHeaderSize),
    hword _ _ (by decide : 24 + 64 / 8 ≤ aotHeaderSize), hword _ _ (by decide : 32 + 64 / 8 ≤ aotHeaderSize)]

end Format

section Loading

variable {out : AotFile} {s : Instance} {ans : Answers}

/-- A file with the magic number, and with as much code as its header says. -/
structure AotFile.WellFormed (out : AotFile) : Prop where
  magic : out.magic = aotMagic
  size : out.x86Size = out.code.length
  size_lt : out.code.length < 2 ^ 64

/-- What a load makes of the code of a file. -/
def aotLoaded (s : Instance) (out : AotFile) (ans : Answers) : Option (AotStatus × Instance) :=
  (s.loadAotModule out.baseAddr out.code true ans).map fun s' ↦
    (if (ans.buffer.place s.regions).isNone then .errOutOfMemory else .ok, s')

theorem AotFile.length_bytes (out : AotFile) (padding : BitVec 32) :
    (out.bytes padding).length = aotHeaderSize + out.code.length := by
  rw [AotFile.bytes, List.length_append, AotHeader.length_encode]

theorem AotFile.WellFormed.toNat_size (h : out.WellFormed) (padding : BitVec 32) :
    (out.header padding).x86Size.toNat = out.code.length := by
  rw [AotFile.header, h.size, BitVec.toNat_ofNat, Nat.mod_eq_of_lt h.size_lt]

/-- A whole file is loaded, whatever comes after it. -/
theorem loadAotFile_whole (h : out.WellFormed) (padding : BitVec 32) (rest : List Byte) (s : Instance)
    (ans : Answers) : loadAotFile s (some (out.bytes padding ++ rest)) ans = aotLoaded s out ans := by
  have hlength : ¬ (out.bytes padding ++ rest).length < aotHeaderSize := by
    rw [List.length_append, AotFile.length_bytes]
    omega
  have hmagic : (out.header padding).magic = aotMagic := h.magic
  simp only [loadAotFile, if_neg hlength]
  rw [AotFile.bytes, List.append_assoc, AotHeader.decode_encode]
  simp only [ne_eq, hmagic, not_true_eq_false, if_false, List.drop_left' (AotHeader.length_encode _),
    h.toNat_size, List.take_left, decide_true]
  rfl

/-- Of memory that is taken and given back nothing is left. -/
theorem loadAotModule_incomplete (s : Instance) (baseAddr : Addr) (code : List Byte) (ans : Answers) :
    s.loadAotModule baseAddr code false ans = some s := by
  unfold Instance.loadAotModule
  cases hbuf : ans.buffer.place s.regions with
  | none => rfl
  | some buf =>
    exact congrArg some (Instance.release_occupy (ans.buffer.fresh _ _ hbuf).2 code)

/-- A file that is cut is refused, and the instance stays as it was. -/
theorem loadAotFile_cut (h : out.WellFormed) (padding : BitVec 32) {n : Nat}
    (hn : n < (out.bytes padding).length) (s : Instance) (ans : Answers) :
    ∃ status, status ≠ .ok ∧ loadAotFile s (some ((out.bytes padding).take n)) ans = some (status, s) := by
  have hlength : ((out.bytes padding).take n).length = n := by
    rw [List.length_take]
    omega
  by_cases hheader : n < aotHeaderSize
  · refine ⟨.errInvalidArgument, by decide, ?_⟩
    rw [loadAotFile, hlength, if_pos hheader]
  · have hdecode := AotHeader.decode_take (out.bytes padding) n (Nat.not_lt.mp hheader)
    have hwhole : AotHeader.decode (out.bytes padding) = out.header padding := AotHeader.decode_encode _ _
    have hrest : ((out.bytes padding).take n).drop aotHeaderSize = out.code.take (n - aotHeaderSize) := by
      rw [List.drop_take, AotFile.bytes, List.drop_left' (AotHeader.length_encode _)]
    rw [AotFile.length_bytes] at hn
    have hshort : ((out.code.take (n - aotHeaderSize)).take out.code.length).length ≠ out.code.length := by
      rw [List.length_take, List.length_take]
      omega
    have hmagic : (out.header padding).magic = aotMagic := h.magic
    refine ⟨if (ans.buffer.place s.regions).isNone then .errOutOfMemory else .errPermissionDenied,
      by split <;> decide, ?_⟩
    simp only [loadAotFile, hlength, if_neg hheader, hdecode, hwhole, hmagic, hrest, h.toNat_size,
      decide_eq_false hshort, loadAotModule_incomplete, ne_eq, not_true_eq_false, if_false,
      Option.map_some, Bool.false_eq_true]

end Loading

/-! ## The code of a file is served -/

section Serving

variable {s : Instance} {u p as : List Addr} {a base buf : Addr} {x86 : List Byte} {ans : Answers}

/-- What a release leaves is as it was. -/
theorem regions_releaseAll (hlive : (s.releaseAll as).Live a) : (s.releaseAll as).regions a = s.regions a := by
  induction as generalizing s with
  | nil => rfl
  | cons b as ih =>
    have hrest : (s.releaseAll (b :: as)) = (s.release b).releaseAll as := rfl
    rw [hrest] at hlive ⊢
    rw [ih hlive]
    have hlive' : ((s.release b).regions a).isSome := by rw [← ih hlive]; exact hlive
    unfold Instance.release at hlive' ⊢
    split
    · next hb =>
      rw [if_pos hb] at hlive'
      by_cases hab : a = b
      · simp [hab] at hlive'
      · exact if_neg hab
    · rfl

/-- The entry of an insertion is the first that a lookup comes to. -/
theorem lookup_inserted {c c' : Cache} {fx : List Effect} {lru chained : List Ptr}
    (h : Represents c lru chained) (ha : a ≠ 0#64) {size : Nat} {alloc : Heap.Allocator Entry}
    (hrun : tcacheInsertEx c base a size false false alloc = some (.ok, c', fx)) :
    ∃ q c'', tcacheLookupInternal c' base = some (some q, c'') ∧ c''.codeAndSize (some q) = some (a, size) := by
  obtain ⟨st, c₁, fx₁, kept, dropped, lru', chained', hrun₁, hrep, -, -, -, -, -, hres⟩ :=
    tcacheInsertEx_spec h base ha size false false alloc
  obtain ⟨rfl, hrest⟩ := Prod.mk.inj (Option.some.inj (hrun₁.symm.trans hrun))
  obtain ⟨rfl, rfl⟩ := Prod.mk.inj hrest
  rcases hres with ⟨hst, -, -⟩ | ⟨q, -, rfl, rfl, hitem, -⟩
  · cases hst
  obtain ⟨r, c'', lru'', hlookup, hrep'', hdata, -, -⟩ := tcacheLookupInternal_spec hrep base
  have hfirst := tcacheLookupInternal_first hrep hlookup
  rw [atAddr, List.filter_cons_of_pos (by simp [hitem]), List.head?_cons] at hfirst
  subst hfirst
  obtain ⟨e, he⟩ := hrep.exists_entry (p := q) List.mem_cons_self
  obtain ⟨e'', he''⟩ : ∃ e'', c''.heap[q]? = some e'' := by
    rw [← Option.isSome_iff_exists, hdata.isSome, he]
    rfl
  have hitem'' : e''.item = ⟨base, a, size⟩ := by
    rw [← itemOf_entry he'', hdata.itemOf, hitem]
  refine ⟨q, c'', hlookup, ?_⟩
  simp only [Cache.codeAndSize, Option.bind_eq_bind, Option.bind_some, he'']
  exact congrArg some (Prod.ext (congrArg Item.x86Code hitem'') (congrArg Item.x86Size hitem''))

/-- A lookup that finds code answers a request. -/
theorem translateEasy_of_lookup {s' : Instance} {code : List Byte} (hbase : base ≠ 0#64) (hcode : code ≠ [])
    (h : s.tcacheLookup base = some (some a, s')) (ans : Answers) :
    s.translateEasy base code ans = some (some a, s') := by
  rw [Instance.translateEasy, if_neg (not_or.mpr ⟨hbase, hcode⟩), h]
  rfl

/-- Entering code in the code table changes neither the cache nor the memory. -/
theorem codeHashInsert_same (s : Instance) (hash : BitVec 64) (a : Addr) (size : Nat) (malloc : Bool) :
    (s.codeHashInsert hash a size malloc).cache = s.cache ∧
      (s.codeHashInsert hash a size malloc).regions = s.regions := by
  unfold Instance.codeHashInsert
  split <;> exact ⟨rfl, rfl⟩

/-- An insertion with memory for the entry: the cache that it leaves, and the memory of the code. -/
theorem Sound.inserted (h : Sound s u (a :: p)) (hcontents : s.regions a = some x86) {c' : Cache}
    {fx : List Effect}
    (hrun : tcacheInsertEx s.cache base a x86.length false false ans.entry = some (.ok, c', fx)) :
    ∃ s', s.tcacheInsert base a x86.length false ans.entry = some s' ∧ s'.cache = c' ∧
      s'.regions a = some x86 := by
  obtain ⟨s', hrun', -, -, hlive, -⟩ := h.tcacheInsert base x86.length false ans.entry
    fun howned ↦ absurd howned Bool.false_ne_true
  have hresult : s.tcacheInsert base a x86.length false ans.entry =
      some ({ s with cache := c' }.releaseAll (released fx)) := by
    simp only [Instance.tcacheInsert, hrun, Option.bind_eq_bind, Option.bind_some]
    rfl
  obtain rfl := Option.some.inj (hresult.symm.trans hrun')
  exact ⟨_, hrun', releaseAll_cache, (regions_releaseAll hlive).trans hcontents⟩

/-- After a load with memory for the entry, requests for the address get the code. -/
theorem Sound.serves_loadAotModule (h : Sound s u p) (x86 : List Byte) (hbase : base ≠ 0#64)
    (hbuf : ans.buffer.place s.regions = some buf)
    (hentry : ∃ c fx, tcacheInsertEx s.cache base buf x86.length false false ans.entry = some (.ok, c, fx)) :
    ∃ s', s.loadAotModule base x86 true ans = some s' ∧ ∀ code ans', code ≠ [] →
      ∃ s'', s'.translateEasy base code ans' = some (some buf, s'') ∧ s''.regions buf = some x86 := by
  obtain ⟨lru, chained, hrep⟩ := h.represented
  obtain ⟨c', fx, hinsert⟩ := hentry
  obtain ⟨hzero, -⟩ := ans.buffer.fresh _ _ hbuf
  have hoccupied : (s.occupy buf x86).regions buf = some x86 := if_pos rfl
  obtain ⟨s₂, hrun, hcache, hregions⟩ := (h.place hbuf x86).toPending.inserted hoccupied hinsert
  have hload : s.loadAotModule base x86 true ans =
      some (s₂.codeHashInsert (codeHash x86) buf x86.length ans.hashEntry) := by
    simp only [Instance.loadAotModule, hbuf, if_true, if_neg hbase, hrun, Option.bind_eq_bind,
      Option.bind_some]
    rfl
  refine ⟨_, hload, fun code ans' hcode ↦ ?_⟩
  obtain ⟨hcache', hregions'⟩ := codeHashInsert_same s₂ (codeHash x86) buf x86.length ans.hashEntry
  obtain ⟨q, c'', hlookup, hsize⟩ := lookup_inserted hrep hzero hinsert
  have hfound : (s₂.codeHashInsert (codeHash x86) buf x86.length ans.hashEntry).tcacheLookup base =
      some (some buf, { s₂.codeHashInsert (codeHash x86) buf x86.length ans.hashEntry with
        cache := c'' }) := by
    rw [Instance.tcacheLookup, hcache', hcache, hlookup]
    simp only [Option.bind_eq_bind, Option.bind_some, hsize]
    rfl
  refine ⟨_, translateEasy_of_lookup hbase hcode hfound ans', ?_⟩
  exact (congrFun hregions' buf).trans hregions

end Serving

/-! ## From one process to another -/

/-- What the instances that load a file make of it, when it was to be the whole of an output file. -/
structure RoundTrips (out : AotFile) (padding : BitVec 32) (file : List Byte) : Prop where
  /-- The whole is loaded, and what follows it is not looked at. -/
  accepted : file = out.bytes padding → ∀ s ans rest,
    loadAotFile s (some (file ++ rest)) ans = aotLoaded s out ans
  /-- A part of it is refused, and leaves the instance as it was. -/
  refused : file ≠ out.bytes padding → ∀ s ans, ∃ status, status ≠ .ok ∧
    loadAotFile s (some file) ans = some (status, s)

variable {config : AotConfig} {code : List Byte} {aot : AotAnswers} {out : AotFile}

/-- What is written is a file with the address that the caller asked for. -/
theorem aotTranslate_wellFormed (h : aotTranslate config code aot = some out) :
    out.WellFormed ∧ out.baseAddr = config.baseAddress := by
  obtain ⟨buffer, mem, -, -, -, hcode⟩ := aotTranslate_eq_some h
  have hbound := Translate.length_convertBlockBytes_le aot.env aot.stack (aotBlock aot code buffer) mem
  have hlt : out.code.length < 2 ^ 64 := by
    rw [hcode]
    unfold Translate.outputBound Translate.maxInstructions at hbound
    omega
  unfold aotTranslate at h
  simp only [Option.bind_eq_bind, Option.bind_eq_some_iff, Option.pure_def, Option.some.injEq] at h
  obtain ⟨_, _, _, _, _, _, _, _, rfl⟩ := h
  exact ⟨⟨rfl, rfl, hlt⟩, rfl⟩

/-- Of what a translation ahead of time has written the system may have taken any part: an instance
loads the whole of it, and refuses the rest. -/
theorem aotTranslate_roundTrips (h : aotTranslate config code aot = some out) (padding : BitVec 32)
    (n : Nat) : RoundTrips out padding ((out.bytes padding).take n) := by
  obtain ⟨hformed, -⟩ := aotTranslate_wellFormed h
  constructor
  · intro hwhole s ans rest
    rw [hwhole]
    exact loadAotFile_whole hformed padding rest s ans
  · intro hcut s ans
    have hn : n < (out.bytes padding).length := by
      by_contra hle
      exact hcut (List.take_of_length_le (Nat.not_lt.mp hle))
    exact loadAotFile_cut hformed padding hn s ans

/-- The file of a `RET` for `0x400000`. -/
private def retFile : AotFile :=
  (aotTranslate ⟨1, 0x400000⟩ (X86.imm32 0xd65f03c0) .ok).get (by decide +kernel)

private theorem aotTranslate_ret :
    aotTranslate ⟨1, 0x400000⟩ (X86.imm32 0xd65f03c0) .ok = some retFile :=
  (Option.some_get _).symm

theorem aotTranslate_roundTrips_ret : RoundTrips retFile 0 ((retFile.bytes 0).take 50) :=
  aotTranslate_roundTrips aotTranslate_ret 0 50

end Arm2x86.Easy
