import Arm2x86.Jumptable.Coherence

/-!
# Failed creations

A creation fails when the memory for stubs has run out. It has put the new address into the table by
then, and its caller reads the stub of the entry it did not get.
-/

namespace Arm2x86.Jumptable

/-- A creation that fails leaves the table. -/
def CreateAtomic (s : State) (armAddr x86Target : Addr) : Prop :=
  (createEntry s armAddr x86Target).1 = none → (createEntry s armAddr x86Target).2.table = s.table

/-- No stub of a NULL entry is read. -/
def NoNullRead (s : State) (handle name sym : Addr) (code : Option Addr) : Prop :=
  (getTrampolineWithJumps s handle name sym code).1 ≠ .nullRead

/-- An address has an entry. -/
def JumpTable.Has (jt : JumpTable) (armAddr : Addr) : Prop := ∃ e ∈ jt.entries, e.armAddr = armAddr

/-- There is memory for another stub. -/
def JumpTable.Room (jt : JumpTable) : Prop := jt.memoryUsed + stubSize ≤ jt.memoryCapacity

section Creation

variable {s : State} {armAddr x86Target : Addr}

theorem lookup_fst_eq_none_iff {jt : JumpTable} :
    (Jumptable.lookup jt armAddr).1 = none ↔ ¬ jt.Has armAddr := by
  have hfind : (Jumptable.lookup jt armAddr).1 =
      jt.entries.findIdx? fun e ↦ e.armAddr = armAddr := by
    unfold Jumptable.lookup
    split
    · next h => exact h.symm
    · next h => exact h.symm
  rw [hfind, List.findIdx?_eq_none_iff, JumpTable.Has]
  constructor
  · rintro h ⟨e, he, heq⟩
    exact absurd heq (of_decide_eq_false (h e he))
  · intro h e he
    exact decide_eq_false fun heq ↦ h ⟨e, he, heq⟩

/-- The state of a creation for a new address, without and with memory for its stub. -/
theorem createEntry_new (htarget : x86Target ≠ 0) (hnew : ¬ s.table.Has armAddr) :
    createEntry s armAddr x86Target =
      let jt := (takeEntry s.table).2
      let i := (takeEntry s.table).1
      let filled := { jt with entries := jt.entries.modify i (fill armAddr x86Target) }
      if jt.memoryUsed + stubSize > jt.memoryCapacity then (none, { s with table := filled })
      else
        let stub := jt.codeMemory + BitVec.ofNat 64 jt.memoryUsed
        (some i, {
          table := { filled with
            entries := filled.entries.modify i fun e ↦ { e with x86Stub := stub }
            memoryUsed := jt.memoryUsed + stubSize }
          mem := s.mem.write stub (stubCode x86Target) }) := by
  rw [createEntry, if_neg htarget, lookup_none (lookup_fst_eq_none_iff.mpr hnew)]
  rfl

theorem createEntry_of_has (htarget : x86Target ≠ 0) (h : s.table.Has armAddr) :
    (createEntry s armAddr x86Target).1 ≠ none := by
  cases hlookup : (Jumptable.lookup s.table armAddr).1 with
  | none => exact absurd h (lookup_fst_eq_none_iff.mp hlookup)
  | some i =>
    rw [createEntry, if_neg htarget, (lookup_some hlookup).2]
    simp

theorem takeEntry_static (jt : JumpTable) :
    (takeEntry jt).2.memoryUsed = jt.memoryUsed ∧
      (takeEntry jt).2.memoryCapacity = jt.memoryCapacity ∧ (takeEntry jt).2.capacity = jt.capacity := by
  unfold takeEntry
  split
  · exact ⟨rfl, rfl, rfl⟩
  · exact ⟨rfl, rfl, rfl⟩

/-- Only a new address without memory for its stub makes a creation fail. -/
theorem createEntry_eq_none_iff :
    (createEntry s armAddr x86Target).1 = none ↔
      x86Target = 0 ∨ (¬ s.table.Has armAddr ∧ ¬ s.table.Room) := by
  by_cases htarget : x86Target = 0
  · rw [createEntry, if_pos htarget]
    exact iff_of_true rfl (.inl htarget)
  · by_cases hhas : s.table.Has armAddr
    · apply iff_of_false (createEntry_of_has htarget hhas)
      rintro (h | ⟨h, -⟩)
      · exact htarget h
      · exact h hhas
    · obtain ⟨hused, hcapacity, -⟩ := takeEntry_static s.table
      rw [createEntry_new htarget hhas]
      dsimp only
      rw [hused, hcapacity]
      by_cases hroom : s.table.Room
      · rw [if_neg (Nat.not_lt.mpr hroom)]
        apply iff_of_false (by simp)
        rintro (h | ⟨-, h⟩)
        · exact htarget h
        · exact h hroom
      · rw [if_pos (Nat.not_le.mp hroom)]
        exact iff_of_true rfl (.inr ⟨hhas, hroom⟩)

/-- A creation that fails for lack of memory has put the address into the table. -/
theorem has_of_exhausted (hcap : 0 < s.table.capacity) (htarget : x86Target ≠ 0)
    (hnew : ¬ s.table.Has armAddr) (hroom : ¬ s.table.Room) :
    (createEntry s armAddr x86Target).2.table.Has armAddr := by
  obtain ⟨hused, hcapacity, -⟩ := takeEntry_static s.table
  obtain ⟨⟨e, he, -⟩, -, -⟩ := takeEntry_spec hcap
  rw [createEntry_new htarget hnew]
  dsimp only
  rw [hused, hcapacity, if_pos (Nat.not_le.mp hroom)]
  refine ⟨fill armAddr x86Target e, ?_, rfl⟩
  apply List.mem_of_getElem? (i := (takeEntry s.table).1)
  rw [List.getElem?_modify_eq, he]
  rfl

theorem createAtomic_iff (hcap : 0 < s.table.capacity) :
    CreateAtomic s armAddr x86Target ↔ x86Target = 0 ∨ s.table.Has armAddr ∨ s.table.Room := by
  constructor
  · intro h
    by_contra hnot
    simp only [not_or] at hnot
    obtain ⟨htarget, hnew, hroom⟩ := hnot
    have hsame := h (createEntry_eq_none_iff.mpr (.inr ⟨hnew, hroom⟩))
    have hhas := has_of_exhausted hcap htarget hnew hroom
    rw [hsame] at hhas
    exact hnew hhas
  · intro h hnone
    rcases createEntry_eq_none_iff.mp hnone with htarget | ⟨hnew, hroom⟩
    · rw [createEntry, if_pos htarget]
    · rcases h with htarget | hhas | hroom'
      · rw [createEntry, if_pos htarget]
      · exact absurd hhas hnew
      · exact absurd hroom' hroom

end Creation

section Trampolines

variable {s : State} {handle name sym : Addr} {code : Option Addr}

theorem room_initTable (code : Option Addr) : (initTable code).Room := by
  show 0 + 14 ≤ 1024 * 1024
  decide

theorem nullRead_iff (hhandle : handle ≠ 0) (hname : name ≠ 0) (hsym : sym ≠ 0) :
    (getTrampolineWithJumps s handle name sym code).1 = .nullRead ↔
      ¬ (setUp s code).table.Has sym ∧ ¬ (setUp s code).table.Room := by
  have hargs : ¬ (handle = 0 ∨ name = 0 ∨ sym = 0) := not_or.mpr ⟨hhandle, not_or.mpr ⟨hname, hsym⟩⟩
  rw [getTrampolineWithJumps, if_neg hargs]
  dsimp only
  cases hlookup : (Jumptable.lookup (setUp s code).table sym).1 with
  | some i =>
    rw [(lookup_some hlookup).2]
    apply iff_of_false (by simp)
    rintro ⟨hnew, -⟩
    rw [lookup_fst_eq_none_iff.mpr hnew] at hlookup
    cases hlookup
  | none =>
    rw [lookup_none hlookup]
    dsimp only
    cases hcreate : createEntry (setUp s code) sym sym with
    | mk i s' =>
      have hfails := @createEntry_eq_none_iff (setUp s code) sym sym
      rw [hcreate] at hfails
      cases i with
      | none => exact iff_of_true rfl ((hfails.mp rfl).resolve_left hsym)
      | some i =>
        apply iff_of_false (by simp)
        intro hexhausted
        cases hfails.mpr (.inr hexhausted)

theorem noNullRead_iff :
    NoNullRead s handle name sym code ↔
      handle = 0 ∨ name = 0 ∨ sym = 0 ∨ s.table.codeMemory = 0 ∨ s.table.Has sym ∨ s.table.Room := by
  by_cases hnull : handle = 0 ∨ name = 0 ∨ sym = 0
  · rw [NoNullRead, getTrampolineWithJumps, if_pos hnull]
    apply iff_of_true (by simp)
    rcases hnull with h | h | h <;> simp [h]
  · simp only [not_or] at hnull
    obtain ⟨hhandle, hname, hsym⟩ := hnull
    rw [NoNullRead, Ne, nullRead_iff hhandle hname hsym]
    simp only [hhandle, hname, hsym, false_or]
    by_cases hmemory : s.table.codeMemory = 0
    · rw [setUp, if_pos hmemory]
      exact iff_of_true (fun h ↦ h.2 (room_initTable code)) (.inl hmemory)
    · rw [setUp, if_neg hmemory]
      simp only [hmemory, false_or]
      exact not_and_or.trans (or_congr not_not not_not)

/-- A failed creation leaves the table, and no NULL entry is read, exactly where the address is in the
table or there is memory for a stub, apart from the arguments that are refused first. -/
theorem creation_iff (s : State) (hcap : 0 < s.table.capacity)
    (armAddr x86Target handle name sym : Addr) (code : Option Addr) :
    (CreateAtomic s armAddr x86Target ↔ x86Target = 0 ∨ s.table.Has armAddr ∨ s.table.Room) ∧
    (NoNullRead s handle name sym code ↔
      handle = 0 ∨ name = 0 ∨ sym = 0 ∨ s.table.codeMemory = 0 ∨ s.table.Has sym ∨ s.table.Room) :=
  ⟨createAtomic_iff hcap, noNullRead_iff⟩

end Trampolines

section Exhaustion

/-- A table for which memory was mapped. -/
def mapped (mem : Memory) : State := ⟨initTable (some 0x10000), mem⟩

/-- The creation works in a table that was just set up. -/
theorem creation_mapped :
    CreateAtomic (mapped fun _ ↦ 0) 1 2 ∧ NoNullRead (mapped fun _ ↦ 0) 1 1 1 none := by
  have hcap : 0 < (mapped fun _ ↦ 0).table.capacity := by decide
  have hroom : (mapped fun _ ↦ 0).table.Room := room_initTable _
  have h := creation_iff (mapped fun _ ↦ 0) hcap 1 2 1 1 1 none
  exact ⟨h.1.mpr (.inr (.inr hroom)), h.2.mpr (.inr (.inr (.inr (.inr (.inr hroom)))))⟩

/-- The creations of the addresses from 1 on. -/
def creations (n : Nat) : List Call :=
  (List.range n).map fun k ↦ .create (BitVec.ofNat 64 (k + 1)) (BitVec.ofNat 64 (k + 1))

/-- The state behind some of them, as long as there is memory. -/
structure Created (n : Nat) (s : State) : Prop where
  capacity : s.table.capacity = jumpTableSize
  codeMemory : s.table.codeMemory = 0x10000
  memoryCapacity : s.table.memoryCapacity = 1024 * 1024
  memoryUsed : s.table.memoryUsed = stubSize * n
  armAddr : ∀ e ∈ s.table.entries, e.armAddr.toNat ≤ n

theorem Created.new {n : Nat} {s : State} (h : Created n s) (hn : n + 1 < 2 ^ 64) :
    ¬ s.table.Has (BitVec.ofNat 64 (n + 1)) := by
  rintro ⟨e, he, heq⟩
  have hle := h.armAddr e he
  rw [heq, BitVec.toNat_ofNat, Nat.mod_eq_of_lt hn] at hle
  omega

theorem mem_takeEntry {jt : JumpTable} {e : Entry} (h : e ∈ (takeEntry jt).2.entries) :
    e ∈ jt.entries ∨ e = .zero := by
  unfold takeEntry at h
  split at h
  · exact .inl h
  · rcases List.mem_append.mp h with h | h
    · exact .inl h
    · exact .inr (List.mem_singleton.mp h)

/-- What modifies one entry is seen in that one only. -/
theorem mem_modify {entries : List Entry} {i : Nat} {f : Entry → Entry} {e : Entry}
    (h : e ∈ entries.modify i f) : e ∈ entries ∨ ∃ d ∈ entries, e = f d := by
  obtain ⟨j, hj⟩ := List.mem_iff_getElem?.mp h
  rw [List.getElem?_modify] at hj
  split at hj
  · obtain ⟨d, hd, rfl⟩ := Option.map_eq_some_iff.mp hj
    exact .inr ⟨d, List.mem_of_getElem? hd, rfl⟩
  · have hsame : entries[j]? = some e := by simpa using hj
    exact .inl (List.mem_of_getElem? hsame)

theorem Created.step {n : Nat} {s : State} (h : Created n s) (hn : stubSize * (n + 1) ≤ 1024 * 1024) :
    Created (n + 1)
      (Call.run s (.create (BitVec.ofNat 64 (n + 1)) (BitVec.ofNat 64 (n + 1)))) := by
  have hsmall : n + 1 < 2 ^ 64 := by
    unfold stubSize at hn
    omega
  have hvalue : (BitVec.ofNat 64 (n + 1)).toNat = n + 1 := by
    rw [BitVec.toNat_ofNat, Nat.mod_eq_of_lt hsmall]
  have htarget : BitVec.ofNat 64 (n + 1) ≠ 0 := by
    intro hzero
    rw [hzero] at hvalue
    cases hvalue
  obtain ⟨hused, hcapacity, hsize⟩ := takeEntry_static s.table
  have hcode : (takeEntry s.table).2.codeMemory = s.table.codeMemory := by
    unfold takeEntry
    split <;> rfl
  have hroom : ¬ s.table.memoryUsed + stubSize > s.table.memoryCapacity := by
    rw [h.memoryUsed, h.memoryCapacity, ← Nat.mul_succ]
    exact Nat.not_lt.mpr hn
  rw [Call.run, createEntry_new htarget (h.new hsmall)]
  dsimp only
  rw [hused, hcapacity, if_neg hroom]
  refine ⟨hsize.trans h.capacity, hcode.trans h.codeMemory, h.memoryCapacity, ?_, ?_⟩
  · show s.table.memoryUsed + stubSize = stubSize * (n + 1)
    rw [h.memoryUsed, Nat.mul_succ]
  · have hentry : ∀ e ∈ (takeEntry s.table).2.entries, e.armAddr.toNat ≤ n + 1 := by
      intro e he
      rcases mem_takeEntry he with hold | rfl
      · exact Nat.le_succ_of_le (h.armAddr e hold)
      · exact Nat.zero_le _
    have hfill : ∀ e ∈ (takeEntry s.table).2.entries.modify (takeEntry s.table).1
        (fill (BitVec.ofNat 64 (n + 1)) (BitVec.ofNat 64 (n + 1))), e.armAddr.toNat ≤ n + 1 := by
      intro e he
      rcases mem_modify he with hold | ⟨d, -, rfl⟩
      · exact hentry e hold
      · exact Nat.le_of_eq hvalue
    intro e he
    rcases mem_modify he with hold | ⟨d, hd, rfl⟩
    · exact hfill e hold
    · exact hfill d hd

theorem created (mem : Memory) {n : Nat} (hn : stubSize * n ≤ 1024 * 1024) :
    Created n ((creations n).foldl Call.run (mapped mem)) := by
  induction n with
  | zero => exact ⟨rfl, rfl, rfl, rfl, fun e he ↦ absurd he List.not_mem_nil⟩
  | succ n ih =>
    have hstep := (ih (by rw [Nat.mul_succ] at hn; omega)).step hn
    rw [creations, List.range_succ, List.map_append, List.foldl_append]
    exact hstep

/-- Behind 74898 creations the next one fails, changes the table, and makes its caller read a stub
through NULL. -/
theorem creation_not_atomic :
    let s := (creations 74898).foldl Call.run (mapped fun _ ↦ 0)
    ¬ CreateAtomic s 74899 1 ∧ ¬ NoNullRead s 1 1 74899 none := by
  intro s
  have h : Created 74898 s := created _ (by decide)
  have hnew : ¬ s.table.Has 74899 := h.new (by decide)
  have hroom : ¬ s.table.Room := by
    rw [JumpTable.Room, h.memoryUsed, h.memoryCapacity]
    decide
  have hcap : 0 < s.table.capacity := by
    rw [h.capacity]
    decide
  have hmemory : s.table.codeMemory ≠ 0 := by
    rw [h.codeMemory]
    decide
  rw [createAtomic_iff hcap, noNullRead_iff]
  constructor
  · rintro (hzero | hhas | hfits)
    · exact absurd hzero (by decide)
    · exact hnew hhas
    · exact hroom hfits
  · rintro (hzero | hzero | hzero | hzero | hhas | hfits)
    · exact absurd hzero (by decide)
    · exact absurd hzero (by decide)
    · exact absurd hzero (by decide)
    · exact hmemory hzero
    · exact hnew hhas
    · exact hroom hfits

end Exhaustion

end Arm2x86.Jumptable
