import Arm2x86.Pcache.Model

/-!
# Lookups in the persistent cache

Exactly which entry files `arm2x86_pcache_lookup` returns code from, and what each call may do
to the files of the directory.
-/

namespace Arm2x86.Pcache

section dir

variable (d : Dir) (name name' : String) (file : File)

theorem getElem?_dir_insert :
    (d.insert name file)[name']? = if name = name' then some file else d[name']? := by
  rw [Std.ExtTreeMap.getElem?_insert]
  simp

theorem getElem?_dir_erase :
    (d.erase name)[name']? = if name = name' then none else d[name']? := by
  rw [Std.ExtTreeMap.getElem?_erase]
  simp

end dir

/-- The checks `arm2x86_pcache_lookup` makes on an entry file, `modules/arm2x86_pcache.c:319`. -/
structure Accepts (env : Env) (config : Config) (armCode : Buffer) (flags : BitVec 32)
    (bytes : List Byte) : Prop where
  header : headerSize ≤ bytes.length
  valid : validateHeader (Header.decode bytes) = .ok
  armHash : config.verifyHash = true →
    computeHash armCode.bytes = (Header.decode bytes).armCodeHash
  flags : (Header.decode bytes).flags = flags
  memory : env.malloc (Header.decode bytes).x86CodeSize.toNat = true
  body : (Header.decode bytes).x86CodeSize.toNat ≤ (bytes.drop headerSize).length

/-- The code an accepted entry file holds. -/
def storedCode (bytes : List Byte) : List Byte :=
  (bytes.drop headerSize).take (Header.decode bytes).x86CodeSize.toNat

/-- A lookup succeeds exactly on the entry files that pass its checks. -/
theorem pcacheLookup_ok_iff (env : Env) (c : Cache) (armAddr : Addr) (armCode : Buffer)
    (flags : BitVec 32) (r : List Byte × Nat) :
    (pcacheLookup env c armAddr armCode flags).1 = .ok r ↔
      c.config.enabled = true ∧ ∃ file, c.dir[getEntryFilename armAddr]? = some file ∧
        Accepts env c.config armCode flags file.bytes ∧
        r = (storedCode file.bytes, (Header.decode file.bytes).x86CodeSize.toNat) := by
  by_cases henabled : c.config.enabled = true
  swap
  · simp [pcacheLookup, henabled]
  cases hfile : c.dir[getEntryFilename armAddr]? with
  | none => simp [pcacheLookup, henabled, hfile]
  | some file =>
    have hiff : (∃ file', some file = some file' ∧ Accepts env c.config armCode flags file'.bytes ∧
        r = (storedCode file'.bytes, (Header.decode file'.bytes).x86CodeSize.toNat)) ↔
        Accepts env c.config armCode flags file.bytes ∧
          r = (storedCode file.bytes, (Header.decode file.bytes).x86CodeSize.toNat) := by
      simp
    rw [hiff]
    simp only [pcacheLookup, henabled, hfile, Bool.not_true, Bool.false_eq_true, if_false,
      true_and]
    by_cases hheader : file.bytes.length < headerSize
    · rw [if_pos hheader]
      refine ⟨by simp, fun h ↦ absurd h.1.header (Nat.not_le.mpr hheader)⟩
    rw [if_neg hheader]
    cases hvalid : validateHeader (Header.decode file.bytes)
    case ok =>
      dsimp only
      by_cases hhash : c.config.verifyHash = true ∧
          computeHash armCode.bytes ≠ (Header.decode file.bytes).armCodeHash
      · rw [if_pos hhash]
        exact ⟨by simp, fun h ↦ absurd (h.1.armHash hhash.1) hhash.2⟩
      rw [if_neg hhash]
      by_cases hflags : (Header.decode file.bytes).flags ≠ flags
      · rw [if_pos hflags]
        exact ⟨by simp, fun h ↦ absurd h.1.flags hflags⟩
      rw [if_neg hflags]
      cases hmem : env.malloc (Header.decode file.bytes).x86CodeSize.toNat with
      | false => exact ⟨by simp, fun h ↦ by simpa [hmem] using h.1.memory⟩
      | true =>
        simp only [Bool.not_true, Bool.false_eq_true, if_false]
        by_cases hbody : (file.bytes.drop headerSize).length <
            (Header.decode file.bytes).x86CodeSize.toNat
        · rw [if_pos hbody]
          exact ⟨by simp, fun h ↦ absurd h.1.body (Nat.not_le.mpr hbody)⟩
        rw [if_neg hbody]
        have haccepts : Accepts env c.config armCode flags file.bytes :=
          ⟨Nat.not_lt.mp hheader, hvalid, fun hv ↦ by_contra fun hne ↦ hhash ⟨hv, hne⟩,
            not_not.mp hflags, hmem, Nat.not_lt.mp hbody⟩
        simp only [Except.ok.injEq, storedCode]
        exact ⟨fun h ↦ ⟨haccepts, h.symm⟩, fun h ↦ h.2.symm⟩
    all_goals exact ⟨by simp, fun h ↦ by simpa [hvalid] using h.1.valid⟩

/-- A lookup leaves the files of other addresses alone, and removes its own only when the
looked-up code does not have the hash the header records. -/
theorem pcacheLookup_dir (env : Env) (c : Cache) (armAddr : Addr) (armCode : Buffer)
    (flags : BitVec 32) (name : String) :
    (((pcacheLookup env c armAddr armCode flags).2.dir[name]?).map File.bytes =
        (c.dir[name]?).map File.bytes ∨
      (name = getEntryFilename armAddr ∧ ∃ file, c.dir[name]? = some file ∧
        computeHash armCode.bytes ≠ (Header.decode file.bytes).armCodeHash)) ∧
    (pcacheLookup env c armAddr armCode flags).2.config = c.config := by
  unfold pcacheLookup
  dsimp only
  split
  · exact ⟨.inl rfl, rfl⟩
  split
  · exact ⟨.inl rfl, rfl⟩
  next file hfile =>
  split
  · exact ⟨.inl rfl, rfl⟩
  split
  · split
    · next hhash =>
      by_cases hname : getEntryFilename armAddr = name
      · subst hname
        refine ⟨.inr ⟨rfl, file, hfile, hhash.2⟩, ?_⟩
        unfold Cache.unlinkEntry
        split <;> rfl
      · unfold Cache.unlinkEntry
        split
        · refine ⟨.inl ?_, rfl⟩
          change (((c.dir.erase (getEntryFilename armAddr))[name]?).map File.bytes) = _
          rw [getElem?_dir_erase, if_neg hname]
        · exact ⟨.inl rfl, rfl⟩
    split
    · exact ⟨.inl rfl, rfl⟩
    split
    · exact ⟨.inl rfl, rfl⟩
    split
    · exact ⟨.inl rfl, rfl⟩
    · refine ⟨.inl ?_, rfl⟩
      change (((c.dir.insert (getEntryFilename armAddr) _)[name]?).map File.bytes) = _
      rw [getElem?_dir_insert]
      split
      · next hname =>
        rw [← hname, hfile]
        rfl
      · rfl
  · exact ⟨.inl rfl, rfl⟩

end Arm2x86.Pcache
