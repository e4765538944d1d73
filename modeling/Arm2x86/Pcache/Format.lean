import Arm2x86.Base.Bytes

/-!
# Entry files of the persistent cache

The on-disk format of `modules/arm2x86_pcache.c`: a file per guest address, named by sixteen
hexadecimal digits, that starts with the 96-byte header of `include/arm2x86_pcache.h:63` and
goes on with the translated code. The header ends in a CRC-32 of its other bytes.
-/

namespace Arm2x86.Pcache

/-- A guest address. -/
abbrev Addr := BitVec 64

/-- A buffer of the C program: its length is a `size_t`. -/
structure Buffer where
  bytes : List Byte
  length_lt : bytes.length < 2 ^ 64

/-- The number of bytes of a buffer. -/
def Buffer.size (b : Buffer) : Nat := b.bytes.length

/-- One round of `init_crc32_table`, `modules/arm2x86_pcache.c:61`. -/
def crcRound (crc : BitVec 32) : BitVec 32 :=
  (crc >>> 1) ^^^ (if crc &&& 1#32 ≠ 0#32 then 0xEDB88320#32 else 0#32)

/-- `crc32_table[i]` after `init_crc32_table`. -/
def crc32Table (i : BitVec 32) : BitVec 32 := crcRound^[8] i

/-- `arm2x86_pcache_compute_hash`, `modules/arm2x86_pcache.c:74`. -/
def computeHash (data : List Byte) : BitVec 32 :=
  ~~~(data.foldl (fun crc b ↦
    crc32Table ((crc ^^^ b.setWidth 32) &&& 0xFF#32) ^^^ (crc >>> 8)) 0xFFFFFFFF#32)

/-- `arm2x86_pcache_entry_header_t`, `include/arm2x86_pcache.h:63`; the fourteen reserved
bytes are one number. -/
structure Header where
  magic : BitVec 32
  version : BitVec 32
  armAddr : BitVec 64
  armCodeHash : BitVec 32
  x86CodeHash : BitVec 32
  armCodeSize : BitVec 64
  x86CodeSize : BitVec 64
  compressedSize : BitVec 64
  timestamp : BitVec 64
  accessCount : BitVec 64
  lastAccessTime : BitVec 64
  flags : BitVec 32
  architecture : BitVec 8
  compression : BitVec 8
  reserved : BitVec 112
  checksum : BitVec 32
deriving DecidableEq

/-- `ARM2X86_PCACHE_MAGIC`. -/
def pcacheMagic : BitVec 32 := 0x5854504A#32

/-- `ARM2X86_PCACHE_VERSION`: major 1, minor 0, patch 0. -/
def pcacheVersion : BitVec 32 := 0x01000000#32

/-- `sizeof(arm2x86_pcache_entry_header_t)`. -/
def headerSize : Nat := 96

/-- The memory of a header without its checksum. -/
def Header.checked (h : Header) : List Byte :=
  leBytes 4 h.magic.toNat ++ (leBytes 4 h.version.toNat ++ (leBytes 8 h.armAddr.toNat ++
  (leBytes 4 h.armCodeHash.toNat ++ (leBytes 4 h.x86CodeHash.toNat ++
  (leBytes 8 h.armCodeSize.toNat ++ (leBytes 8 h.x86CodeSize.toNat ++
  (leBytes 8 h.compressedSize.toNat ++ (leBytes 8 h.timestamp.toNat ++
  (leBytes 8 h.accessCount.toNat ++ (leBytes 8 h.lastAccessTime.toNat ++
  (leBytes 4 h.flags.toNat ++ (leBytes 1 h.architecture.toNat ++
  (leBytes 1 h.compression.toNat ++ leBytes 14 h.reserved.toNat)))))))))))))

/-- The memory of a header, as `fwrite` puts it into a file. -/
def Header.encode (h : Header) : List Byte := h.checked ++ leBytes 4 h.checksum.toNat

/-- The next `k` bytes of a file as a number, and the bytes after them. -/
def takeWord (k : Nat) (bs : List Byte) : Nat × List Byte := (leNat (bs.take k), bs.drop k)

/-- The header that `fread` fills from the first bytes of a file. -/
def Header.decode (bs : List Byte) : Header :=
  let (magic, bs) := takeWord 4 bs
  let (version, bs) := takeWord 4 bs
  let (armAddr, bs) := takeWord 8 bs
  let (armCodeHash, bs) := takeWord 4 bs
  let (x86CodeHash, bs) := takeWord 4 bs
  let (armCodeSize, bs) := takeWord 8 bs
  let (x86CodeSize, bs) := takeWord 8 bs
  let (compressedSize, bs) := takeWord 8 bs
  let (timestamp, bs) := takeWord 8 bs
  let (accessCount, bs) := takeWord 8 bs
  let (lastAccessTime, bs) := takeWord 8 bs
  let (flags, bs) := takeWord 4 bs
  let (architecture, bs) := takeWord 1 bs
  let (compression, bs) := takeWord 1 bs
  let (reserved, bs) := takeWord 14 bs
  let (checksum, _) := takeWord 4 bs
  { magic := .ofNat 32 magic
    version := .ofNat 32 version
    armAddr := .ofNat 64 armAddr
    armCodeHash := .ofNat 32 armCodeHash
    x86CodeHash := .ofNat 32 x86CodeHash
    armCodeSize := .ofNat 64 armCodeSize
    x86CodeSize := .ofNat 64 x86CodeSize
    compressedSize := .ofNat 64 compressedSize
    timestamp := .ofNat 64 timestamp
    accessCount := .ofNat 64 accessCount
    lastAccessTime := .ofNat 64 lastAccessTime
    flags := .ofNat 32 flags
    architecture := .ofNat 8 architecture
    compression := .ofNat 8 compression
    reserved := .ofNat 112 reserved
    checksum := .ofNat 32 checksum }

/-- `compute_header_checksum`, `modules/arm2x86_pcache.c:165`. -/
def computeHeaderChecksum (h : Header) : BitVec 32 := computeHash h.checked

/-- `get_entry_filename`, `modules/arm2x86_pcache.c:158`: `"%016lx.jtx"`. -/
def getEntryFilename (armAddr : Addr) : String :=
  String.ofList (hexDigits 16 armAddr.toNat ++ ['.', 'j', 't', 'x'])

/-- The name of the temporary file of an entry, `modules/arm2x86_pcache.c:435`. -/
def tmpFilename (armAddr : Addr) : String :=
  String.ofList (['.', 't', 'm', 'p', '.'] ++ (getEntryFilename armAddr).toList)

private theorem takeWord_leBytes {k n : Nat} (h : n < 256 ^ k) (rest : List Byte) :
    takeWord k (leBytes k n ++ rest) = (n, rest) := by
  rw [takeWord, List.take_left' (length_leBytes k n), List.drop_left' (length_leBytes k n),
    leNat_leBytes h]

@[simp] theorem length_encode (h : Header) : h.encode.length = headerSize := by
  simp [Header.encode, Header.checked, headerSize]

/-- Reading a header back from a file that starts with it. -/
theorem decode_encode (h : Header) (rest : List Byte) :
    Header.decode (h.encode ++ rest) = h := by
  have hword {w k : Nat} (x : BitVec w) (hk : 256 ^ k = 2 ^ w) : x.toNat < 256 ^ k :=
    hk ▸ x.isLt
  simp only [Header.decode, Header.encode, Header.checked, List.append_assoc]
  rw [takeWord_leBytes (hword h.magic (by decide)), takeWord_leBytes (hword h.version (by decide)),
    takeWord_leBytes (hword h.armAddr (by decide)),
    takeWord_leBytes (hword h.armCodeHash (by decide)),
    takeWord_leBytes (hword h.x86CodeHash (by decide)),
    takeWord_leBytes (hword h.armCodeSize (by decide)),
    takeWord_leBytes (hword h.x86CodeSize (by decide)),
    takeWord_leBytes (hword h.compressedSize (by decide)),
    takeWord_leBytes (hword h.timestamp (by decide)),
    takeWord_leBytes (hword h.accessCount (by decide)),
    takeWord_leBytes (hword h.lastAccessTime (by decide)),
    takeWord_leBytes (hword h.flags (by decide)),
    takeWord_leBytes (hword h.architecture (by decide)),
    takeWord_leBytes (hword h.compression (by decide)),
    takeWord_leBytes (hword h.reserved (by decide)),
    takeWord_leBytes (hword h.checksum (by decide))]
  simp only [BitVec.ofNat_toNat, BitVec.setWidth_eq]

/-- Entry files of distinct addresses have distinct names. -/
theorem getEntryFilename_inj {a b : Addr} (h : getEntryFilename a = getEntryFilename b) :
    a = b := by
  have hl := congrArg String.toList h
  rw [getEntryFilename, getEntryFilename, String.toList_ofList, String.toList_ofList] at hl
  have hd := List.append_cancel_right hl
  have hpow : (2 : Nat) ^ 64 = 16 ^ 16 := by decide
  have hlt : ∀ x : Addr, x.toNat < 16 ^ 16 := fun x ↦ Nat.lt_of_lt_of_eq x.isLt hpow
  exact BitVec.eq_of_toNat_eq (hexDigits_inj (hlt a) (hlt b) hd)

/-- No temporary file has the name of an entry. -/
theorem tmpFilename_ne (a b : Addr) : tmpFilename a ≠ getEntryFilename b := by
  intro h
  have hl := congrArg (fun s : String ↦ s.toList.length) h
  simp only [tmpFilename, getEntryFilename, String.toList_ofList, List.length_append,
    length_hexDigits, List.length_cons, List.length_nil] at hl
  omega

end Arm2x86.Pcache
