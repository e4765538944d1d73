import Arm2x86.Base.Stepping
import Arm2x86.Jumptable.Model

/-!
# Coherence of the stubs

Stubs are cut from their memory in the order of the calls and never given back, so the stubs of
distinct entries never overlap. The code of a stub agrees with the target of its entry as long as
no call gives an entry a target without writing the stub: a creation does so when its address is
in the table already, and when the memory for stubs has run out.
-/

namespace Arm2x86.Jumptable

/-- The memory for the stubs is mapped, and below the end of the address space. -/
structure Mapped (base : Addr) : Prop where
  base_ne : base ≠ 0
  fits : base.toNat + 1024 * 1024 ≤ 2 ^ 64

/-- Where the stub of an entry starts within the memory for stubs. -/
def offset (base : Addr) (e : Entry) : Nat := (e.x86Stub - base).toNat

/-- The stubs of two entries, one after the other. -/
def Apart (base : Addr) (d e : Entry) : Prop :=
  offset base d + stubSize ≤ offset base e ∨ offset base e + stubSize ≤ offset base d

/-- What holds of a table in use between two calls. -/
structure Inv (base : Addr) (s : State) : Prop where
  mapped : Mapped base
  base_eq : s.table.codeMemory = base
  capacity_eq : s.table.memoryCapacity = 1024 * 1024
  size_eq : s.table.capacity = jumpTableSize
  used_le : s.table.memoryUsed ≤ 1024 * 1024
  below : ∀ (i : Nat) (e : Entry), s.table.entries[i]? = some e → offset base e + stubSize ≤ s.table.memoryUsed
  code : ∀ (i : Nat) (e : Entry), s.table.entries[i]? = some e →
    s.mem.read e.x86Stub stubSize = stubCode e.x86Target
  apart : ∀ (i j : Nat) (d e : Entry), i ≠ j → s.table.entries[i]? = some d → s.table.entries[j]? = some e →
    Apart base d e

variable {base : Addr} {s : State} {d e : Entry} {p : Addr}

@[simp] theorem length_stubCode (target : Addr) : (stubCode target).length = stubSize := by
  simp [stubCode, stubSize]

theorem stubCode_inj {a b : Addr} (h : stubCode a = stubCode b) : a = b := by
  have hbytes := List.append_cancel_left h
  apply BitVec.eq_of_toNat_eq
  rw [← leNat_leBytes (k := 8) a.isLt, ← leNat_leBytes (k := 8) b.isLt, hbytes]

/-- The place of an address of a stub within the memory for stubs. -/
theorem offset_of_mem (hsmall : offset base e + stubSize ≤ 2 ^ 64) (hp : p ∈ e.stub) :
    (p - base).toNat = offset base e + (p - e.x86Stub).toNat := by
  have hoff : (p - e.x86Stub).toNat < stubSize := hp
  have hsum : p - base = (e.x86Stub - base) + (p - e.x86Stub) := by bv_omega
  unfold offset at *
  rw [hsum, BitVec.toNat_add, Nat.mod_eq_of_lt (by omega)]

/-- Stubs that start apart have no address in common. -/
theorem Apart.notMem (h : Apart base d e) (hd : offset base d + stubSize ≤ 1024 * 1024)
    (he : offset base e + stubSize ≤ 1024 * 1024) (hp : p ∈ d.stub) : p ∉ e.stub := by
  intro hpe
  have hfirst : (p - base).toNat = offset base d + (p - d.x86Stub).toNat :=
    offset_of_mem (by omega) hp
  have hsecond : (p - base).toNat = offset base e + (p - e.x86Stub).toNat :=
    offset_of_mem (by omega) hpe
  have hoffd : (p - d.x86Stub).toNat < stubSize := hp
  have hoffe : (p - e.x86Stub).toNat < stubSize := hpe
  unfold Apart at h
  omega

theorem Apart.symm (h : Apart base d e) : Apart base e d := Or.symm h

/-- The invariant says more than that the table is coherent. -/
theorem Inv.coherent (h : Inv base s) : Coherent s := by
  have hused := h.used_le
  refine {
    nonnull := ?_
    inside := ?_
    code := ?_
    disjoint := ?_ }
  · intro e he hnull
    obtain ⟨i, hi⟩ := List.mem_iff_getElem?.mp he
    have hbelow := h.below i e hi
    have hfits := h.mapped.fits
    have hpos : 0 < base.toNat := by
      apply Nat.pos_of_ne_zero
      intro hzero
      exact h.mapped.base_ne (BitVec.eq_of_toNat_eq hzero)
    unfold offset at hbelow
    rw [hnull, BitVec.toNat_sub] at hbelow
    change (2 ^ 64 - base.toNat + 0) % 2 ^ 64 + stubSize ≤ _ at hbelow
    unfold stubSize at hbelow
    omega
  · intro e he p hp
    obtain ⟨i, hi⟩ := List.mem_iff_getElem?.mp he
    have hbelow := h.below i e hi
    have hoff : (p - e.x86Stub).toNat < stubSize := hp
    rw [Region.mem_iff]
    show (p - s.table.codeMemory).toNat < s.table.memoryCapacity
    rw [h.base_eq, h.capacity_eq, offset_of_mem (by omega) hp]
    omega
  · intro e he
    obtain ⟨i, hi⟩ := List.mem_iff_getElem?.mp he
    exact h.code i e hi
  · intro i j hij d e hd he p hp
    have hbelowd := h.below i d hd
    have hbelowe := h.below j e he
    exact (h.apart i j d e hij hd he).notMem (by omega) (by omega) hp

/-- The invariant after one entry has been written: it says what is asked of that entry and of the
memory, and that nothing else has changed. -/
theorem Inv.replace (h : Inv base s) {s' : State} {i : Nat}
    (hstatic : s'.table.codeMemory = s.table.codeMemory ∧
      s'.table.memoryCapacity = s.table.memoryCapacity ∧ s'.table.capacity = s.table.capacity)
    (hless : s.table.memoryUsed ≤ s'.table.memoryUsed)
    (hused : s'.table.memoryUsed ≤ 1024 * 1024)
    (hentries : ∀ (j : Nat) (d : Entry), s'.table.entries[j]? = some d →
      (j = i ∧ d = e) ∨ (j ≠ i ∧ s.table.entries[j]? = some d))
    (hbelow : offset base e + stubSize ≤ s'.table.memoryUsed)
    (hcode : s'.mem.read e.x86Stub stubSize = stubCode e.x86Target)
    (hothers : ∀ (j : Nat) (d : Entry), j ≠ i → s.table.entries[j]? = some d →
      Apart base e d ∧ s'.mem.read d.x86Stub stubSize = s.mem.read d.x86Stub stubSize) :
    Inv base s' := by
  refine {
    mapped := h.mapped
    base_eq := hstatic.1.trans h.base_eq
    capacity_eq := hstatic.2.1.trans h.capacity_eq
    size_eq := hstatic.2.2.trans h.size_eq
    used_le := hused
    below := ?_
    code := ?_
    apart := ?_ }
  · intro j d hd
    rcases hentries j d hd with ⟨rfl, rfl⟩ | ⟨_, hold⟩
    · exact hbelow
    · exact Nat.le_trans (h.below j d hold) hless
  · intro j d hd
    rcases hentries j d hd with ⟨rfl, rfl⟩ | ⟨hne, hold⟩
    · exact hcode
    · rw [(hothers j d hne hold).2]
      exact h.code j d hold
  · intro j k c d hjk hc hd
    rcases hentries j c hc with ⟨rfl, rfl⟩ | ⟨hnej, holdj⟩
    · rcases hentries k d hd with ⟨rfl, rfl⟩ | ⟨hnek, holdk⟩
      · exact absurd rfl hjk
      · exact (hothers k d hnek holdk).1
    · rcases hentries k d hd with ⟨rfl, rfl⟩ | ⟨hnek, holdk⟩
      · exact (hothers j c hnej holdj).1.symm
      · exact h.apart j k c d hjk holdj holdk

/-- The entries after one of them was modified. -/
theorem getElem?_modify_cases {entries : List Entry} {i j : Nat} {f : Entry → Entry}
    (he : entries[i]? = some e) (hd : (entries.modify i f)[j]? = some d) :
    (j = i ∧ d = f e) ∨ (j ≠ i ∧ entries[j]? = some d) := by
  rw [List.getElem?_modify] at hd
  by_cases hij : j = i
  · subst hij
    rw [he] at hd
    refine Or.inl ⟨rfl, ?_⟩
    simpa using hd.symm
  · refine Or.inr ⟨hij, ?_⟩
    simpa [Ne.symm hij] using hd

/-- A change of an entry that keeps its stub and its target. -/
theorem Inv.touch (h : Inv base s) {i : Nat} {f : Entry → Entry}
    (hf : ∀ e : Entry, s.table.entries[i]? = some e →
      (f e).x86Stub = e.x86Stub ∧ (f e).x86Target = e.x86Target) :
    Inv base { s with table := { s.table with entries := s.table.entries.modify i f } } := by
  cases he : s.table.entries[i]? with
  | none =>
    have hsame : s.table.entries.modify i f = s.table.entries := by
      apply List.ext_getElem?
      intro j
      rw [List.getElem?_modify]
      by_cases hij : i = j
      · subst hij
        rw [he]
        rfl
      · simp [hij]
    rw [hsame]
    exact h
  | some e =>
    obtain ⟨hstub, htarget⟩ := hf e he
    have hoff : offset base (f e) = offset base e := by rw [offset, hstub, offset]
    apply h.replace (i := i) (e := f e)
    · exact ⟨rfl, rfl, rfl⟩
    · exact Nat.le_refl _
    · exact h.used_le
    · intro j d hd
      exact getElem?_modify_cases he hd
    · rw [hoff]
      exact h.below i e he
    · rw [hstub, htarget]
      exact h.code i e he
    · intro j d hne hd
      refine ⟨?_, rfl⟩
      unfold Apart
      rw [hoff]
      exact h.apart i j e d hne.symm he hd

/-- What a hit changes. -/
theorem Inv.lookup (h : Inv base s) (armAddr : Addr) :
    Inv base { s with table := (lookup s.table armAddr).2 } := by
  unfold Jumptable.lookup
  split
  · exact h
  · exact h.touch (fun _ _ ↦ ⟨rfl, rfl⟩)

/-- A write into one stub is not seen in another one. -/
theorem Apart.read_write (h : Apart base e d) (hd : offset base d + stubSize ≤ 1024 * 1024)
    (he : offset base e + stubSize ≤ 1024 * 1024) {q : Addr} {bs : List Byte} {mem : Memory}
    (hinside : ∀ p ∈ (⟨q, bs.length⟩ : Region), p ∈ e.stub) :
    (mem.write q bs).read d.x86Stub stubSize = mem.read d.x86Stub stubSize := by
  apply Memory.read_write_of_notMem
  intro i hi hmem
  have hpd : d.x86Stub + BitVec.ofNat 64 i ∈ d.stub := Region.start_add_mem hi
  exact h.symm.notMem hd he hpd (hinside _ hmem)

/-- The target in a stub's code. -/
theorem target_mem_stub {q p : Addr} (hp : p ∈ (⟨q + 6, 8⟩ : Region)) :
    p ∈ (⟨q, stubSize⟩ : Region) := by
  have hsplit := Region.mem_append (p := q) (q := p) (m := 6) (n := 8) (by decide)
  exact hsplit.mpr (Or.inr hp)

/-- A new target written over the one in a stub. -/
theorem read_patched {mem : Memory} {q old new : Addr} (h : mem.read q stubSize = stubCode old) :
    (mem.write (q + 6) (leBytes 8 new.toNat)).read q stubSize = stubCode new := by
  have hold : mem.read q 6 ++ mem.read (q + 6) 8 = stubCode old := by
    rw [← h]
    exact (Memory.read_add mem q 6 8).symm
  have hhead : mem.read q 6 = [0xff, 0x25, 0x00, 0x00, 0x00, 0x00] :=
    (List.append_inj hold (Memory.length_read mem q 6)).1
  have hbefore : (mem.write (q + 6) (leBytes 8 new.toNat)).read q 6 = mem.read q 6 := by
    apply Memory.read_write_of_notMem
    intro i hi hmem
    rw [length_leBytes, Region.mem_iff] at hmem
    have hoff : (q + BitVec.ofNat 64 i - (q + 6)).toNat = 2 ^ 64 - 6 + i := by
      have hq : q + BitVec.ofNat 64 i - (q + 6) = BitVec.ofNat 64 i - 6 := by bv_omega
      rw [hq, BitVec.toNat_sub, BitVec.toNat_ofNat]
      show (2 ^ 64 - 6 + i % 2 ^ 64) % 2 ^ 64 = _
      omega
    rw [hoff] at hmem
    change 2 ^ 64 - 6 + i < 8 at hmem
    omega
  have htarget : (mem.write (q + 6) (leBytes 8 new.toNat)).read (q + 6) 8 =
      leBytes 8 new.toNat := by
    have hlength : (leBytes 8 new.toNat).length ≤ 2 ^ 64 := by
      rw [length_leBytes]
      decide
    have hread := mem.read_write (q + 6) hlength
    rwa [length_leBytes] at hread
  show Memory.read _ q (6 + 8) = _
  rw [Memory.read_add, hbefore, hhead]
  exact congrArg _ htarget

/-- A patch writes the target in both places. -/
theorem Inv.patch (h : Inv base s) (i : Nat) (target : Addr) :
    Inv base (patchEntry s i target).2 := by
  unfold patchEntry
  split
  · exact h
  · next e he =>
    split
    · exact h
    · have hused := h.used_le
      have hbelow := h.below i e he
      apply h.replace (i := i) (e := { e with x86Target := target, isPatched := true })
      · exact ⟨rfl, rfl, rfl⟩
      · exact Nat.le_refl _
      · exact hused
      · intro j d hd
        exact getElem?_modify_cases he hd
      · exact hbelow
      · exact read_patched (h.code i e he)
      · intro j d hne hd
        have hapart : Apart base e d := h.apart i j e d hne.symm he hd
        refine ⟨hapart, ?_⟩
        have hbelow' := h.below j d hd
        apply hapart.read_write (by omega) (by omega)
        intro p hp
        rw [length_leBytes] at hp
        exact target_mem_stub hp

/-- The loop over the hits returns an index it has seen. -/
theorem leastHit_lt {rest : List Entry} {lruIdx i : Nat} {minHits : BitVec 32} (h : lruIdx < i) :
    leastHit lruIdx minHits i rest < i + rest.length := by
  induction rest generalizing lruIdx i minHits with
  | nil => exact h
  | cons e rest ih =>
    rw [leastHit, List.length_cons]
    split
    · have hstep : leastHit i e.hitCount (i + 1) rest < i + 1 + rest.length := ih (by omega)
      omega
    · have hstep : leastHit lruIdx minHits (i + 1) rest < i + 1 + rest.length := ih (by omega)
      omega

theorem lruIndex_lt {entries : List Entry} (h : 0 < entries.length) :
    lruIndex entries < entries.length := by
  have hstep : lruIndex entries < 1 + (entries.drop 1).length := leastHit_lt (by omega)
  rw [List.length_drop] at hstep
  omega

/-- What an entry is once a new guest address has been put into it. -/
def fill (armAddr x86Target : Addr) (e : Entry) : Entry :=
  { e with armAddr, x86Target, hitCount := 0, isPatched := false }

/-- The entry for a new guest address is one of the table after `takeEntry`, which leaves the
other ones alone. -/
theorem takeEntry_spec {jt : JumpTable} (hcap : 0 < jt.capacity) :
    (∃ e, (takeEntry jt).2.entries[(takeEntry jt).1]? = some e ∧
      (jt.entries.length < jt.capacity → e = .zero)) ∧
    (∀ j d, j ≠ (takeEntry jt).1 → (takeEntry jt).2.entries[j]? = some d →
      jt.entries[j]? = some d) ∧
    (takeEntry jt).2 = { jt with entries := (takeEntry jt).2.entries } := by
  unfold takeEntry
  split
  · next hfull =>
    have hlt : lruIndex jt.entries < jt.entries.length := lruIndex_lt (by omega)
    refine ⟨⟨_, List.getElem?_eq_getElem hlt, ?_⟩, fun _ _ _ hd ↦ hd, rfl⟩
    intro hless
    omega
  · refine ⟨⟨.zero, by simp, fun _ ↦ rfl⟩, ?_, rfl⟩
    intro j d hne hd
    change (jt.entries ++ [Entry.zero])[j]? = some d at hd
    change j ≠ jt.entries.length at hne
    rcases Nat.lt_or_gt_of_ne hne with hlt | hgt
    · rwa [List.getElem?_append_left hlt] at hd
    · have hout : (jt.entries ++ [Entry.zero]).length ≤ j := by
        rw [List.length_append, List.length_singleton]
        omega
      rw [List.getElem?_eq_none hout] at hd
      cases hd

/-- A stub whose code has another target than its entry. -/
theorem not_coherent_of_stale {i : Nat} {old : Addr} (he : s.table.entries[i]? = some e)
    (hcode : s.mem.read e.x86Stub stubSize = stubCode old) (hne : old ≠ e.x86Target) :
    ¬ Coherent s := by
  intro h
  have hnew := h.code e (List.mem_of_getElem? he)
  rw [hcode] at hnew
  exact hne (stubCode_inj hnew)

/-- An address that is not in the table changes nothing. -/
theorem lookup_none {jt : JumpTable} {armAddr : Addr} (h : (Jumptable.lookup jt armAddr).1 = none) :
    Jumptable.lookup jt armAddr = (none, jt) := by
  unfold Jumptable.lookup at h ⊢
  split at h
  · rfl
  · cases h

/-- The entry of an address that is in the table, and the table after the hit. -/
theorem lookup_some {jt : JumpTable} {armAddr : Addr} {i : Nat}
    (h : (Jumptable.lookup jt armAddr).1 = some i) :
    i < jt.entries.length ∧ Jumptable.lookup jt armAddr = (some i, { jt with
      entries := jt.entries.modify i fun e ↦ { e with hitCount := e.hitCount + 1 } }) := by
  unfold Jumptable.lookup at h ⊢
  split at h
  · cases h
  · next j hj =>
    cases h
    exact ⟨(List.findIdx?_eq_some_iff_getElem.mp hj).1, rfl⟩

/-- With memory left, a new guest address gets a stub of its own. -/
theorem Inv.create_room (h : Inv base s) {armAddr x86Target : Addr} (htarget : x86Target ≠ 0)
    (hnew : (Jumptable.lookup s.table armAddr).1 = none)
    (hroom : s.table.memoryUsed + stubSize ≤ s.table.memoryCapacity) :
    Inv base (createEntry s armAddr x86Target).2 := by
  have hcap : 0 < s.table.capacity := by
    rw [h.size_eq]
    decide
  obtain ⟨⟨e, he, _⟩, hothers, hstatic⟩ := takeEntry_spec hcap
  have hused := h.capacity_eq ▸ hroom
  obtain ⟨i, hi⟩ : ∃ i, i = (takeEntry s.table).1 := ⟨_, rfl⟩
  obtain ⟨jt, hjt⟩ : ∃ jt, jt = (takeEntry s.table).2 := ⟨_, rfl⟩
  rw [← hi, ← hjt] at he hothers
  rw [← hjt] at hstatic
  have hmemory : jt.memoryUsed = s.table.memoryUsed ∧ jt.memoryCapacity = s.table.memoryCapacity ∧
      jt.codeMemory = s.table.codeMemory ∧ jt.capacity = s.table.capacity := by
    rw [hstatic]
    exact ⟨rfl, rfl, rfl, rfl⟩
  unfold createEntry
  rw [if_neg htarget, lookup_none hnew]
  dsimp only
  rw [← hi, ← hjt, hmemory.1, hmemory.2.1, if_neg (by omega), hmemory.2.2.1, h.base_eq]
  have hfilled : (jt.entries.modify i (fill armAddr x86Target))[i]? =
      some (fill armAddr x86Target e) := by
    rw [List.getElem?_modify_eq, he]
    rfl
  have hoff : offset base { fill armAddr x86Target e with
      x86Stub := base + BitVec.ofNat 64 s.table.memoryUsed } = s.table.memoryUsed := by
    unfold offset
    rw [BitVec.add_comm, BitVec.add_sub_cancel, BitVec.toNat_ofNat]
    exact Nat.mod_eq_of_lt (by omega)
  apply h.replace (i := i) (e := { fill armAddr x86Target e with
      x86Stub := base + BitVec.ofNat 64 s.table.memoryUsed })
  · exact ⟨h.base_eq.symm, rfl, hmemory.2.2.2⟩
  · exact Nat.le_add_right _ _
  · exact hused
  · intro j d hd
    rcases getElem?_modify_cases hfilled hd with hsame | ⟨hne, hd⟩
    · exact Or.inl hsame
    · rcases getElem?_modify_cases he hd with ⟨hsame, _⟩ | ⟨_, hd⟩
      · exact absurd hsame hne
      · exact Or.inr ⟨hne, hothers j d hne hd⟩
  · exact Nat.le_of_eq (congrArg (· + stubSize) hoff)
  · have hlength : (stubCode x86Target).length ≤ 2 ^ 64 := by
      rw [length_stubCode]
      decide
    have hread := s.mem.read_write (base + BitVec.ofNat 64 s.table.memoryUsed) hlength
    rwa [length_stubCode] at hread
  · intro j d hne hd
    have hbelow := h.below j d hd
    have hapart : Apart base { fill armAddr x86Target e with
        x86Stub := base + BitVec.ofNat 64 s.table.memoryUsed } d := by
      unfold Apart
      rw [hoff]
      exact Or.inr hbelow
    refine ⟨hapart, ?_⟩
    apply hapart.read_write (by omega) (by rw [hoff]; omega)
    intro p hp
    rwa [length_stubCode] at hp

/-- Without memory left, the entry for a new guest address is filled all the same. -/
theorem createEntry_exhausted (h : Inv base s) {armAddr x86Target : Addr}
    (htarget : x86Target ≠ 0) (hnew : (Jumptable.lookup s.table armAddr).1 = none)
    (hfull : ¬ s.table.memoryUsed + stubSize ≤ s.table.memoryCapacity) :
    (createEntry s armAddr x86Target).2 = { s with table := { s.table with
      entries := (takeEntry s.table).2.entries.modify (takeEntry s.table).1
        (fill armAddr x86Target) } } := by
  have hcap : 0 < s.table.capacity := by
    rw [h.size_eq]
    decide
  have hstatic := (takeEntry_spec hcap).2.2
  obtain ⟨jt, hjt⟩ : ∃ jt, jt = (takeEntry s.table).2 := ⟨_, rfl⟩
  rw [← hjt] at hstatic
  unfold createEntry
  rw [if_neg htarget, lookup_none hnew]
  dsimp only
  rw [← hjt, hstatic]
  exact congrArg Prod.snd (if_pos (Nat.lt_of_not_le hfull))

/-- A creation that gives no entry another target than the one in the code of its stub. -/
def SafeCreate (s : State) (armAddr x86Target : Addr) : Prop :=
  x86Target = 0 ∨
    match (Jumptable.lookup s.table armAddr).1 with
    | some i => ∃ e, s.table.entries[i]? = some e ∧ e.x86Target = x86Target
    | none => s.table.memoryUsed + stubSize ≤ s.table.memoryCapacity ∨
      s.table.capacity ≤ s.table.entries.length ∧
        ∃ e, s.table.entries[lruIndex s.table.entries]? = some e ∧ e.x86Target = x86Target

/-- A call that leaves every stub in agreement with its entry. -/
def Safe (s : State) : Call → Prop
  | .lookup _ => True
  | .patch _ _ => True
  | .create armAddr x86Target => SafeCreate s armAddr x86Target

/-- A creation for an address that is in the table already. -/
theorem Inv.create_existing (h : Inv base s) {armAddr x86Target : Addr} {i : Nat}
    (htarget : x86Target ≠ 0) (hold : (Jumptable.lookup s.table armAddr).1 = some i) :
    ∃ e, s.table.entries[i]? = some e ∧
      (e.x86Target = x86Target → Inv base (createEntry s armAddr x86Target).2) ∧
      (e.x86Target ≠ x86Target → ¬ Coherent (createEntry s armAddr x86Target).2) := by
  obtain ⟨hi, hlookup⟩ := lookup_some hold
  refine ⟨_, List.getElem?_eq_getElem hi, ?_, ?_⟩
  · intro hsame
    have hhit := h.lookup armAddr
    unfold createEntry
    rw [hlookup] at hhit ⊢
    rw [if_neg htarget]
    apply hhit.touch
    intro e he
    refine ⟨rfl, ?_⟩
    change (s.table.entries.modify i _)[i]? = some e at he
    rw [List.getElem?_modify_eq, List.getElem?_eq_getElem hi] at he
    cases he
    exact hsame.symm
  · intro hother
    have hcode := h.code i _ (List.getElem?_eq_getElem hi)
    unfold createEntry
    rw [hlookup, if_neg htarget]
    apply not_coherent_of_stale (i := i) (e := { s.table.entries[i] with
      hitCount := s.table.entries[i].hitCount + 1, x86Target })
    · show ((s.table.entries.modify i _).modify i _)[i]? = _
      rw [List.getElem?_modify_eq, List.getElem?_modify_eq, List.getElem?_eq_getElem hi]
      rfl
    · exact hcode
    · exact hother

/-- A creation for a new address when the memory for stubs has run out. -/
theorem Inv.create_exhausted (h : Inv base s) {armAddr x86Target : Addr}
    (htarget : x86Target ≠ 0) (hnew : (Jumptable.lookup s.table armAddr).1 = none)
    (hexhausted : ¬ s.table.memoryUsed + stubSize ≤ s.table.memoryCapacity) :
    (s.table.entries.length < s.table.capacity →
      ¬ Coherent (createEntry s armAddr x86Target).2) ∧
    (s.table.capacity ≤ s.table.entries.length →
      ∃ e, s.table.entries[lruIndex s.table.entries]? = some e ∧
        (e.x86Target = x86Target → Inv base (createEntry s armAddr x86Target).2) ∧
        (e.x86Target ≠ x86Target → ¬ Coherent (createEntry s armAddr x86Target).2)) := by
  have hcap : 0 < s.table.capacity := by
    rw [h.size_eq]
    decide
  rw [createEntry_exhausted h htarget hnew hexhausted]
  refine ⟨?_, ?_⟩
  · -- an entry that was never used has no stub
    intro hless hcoherent
    obtain ⟨⟨e, he, hzero⟩, _⟩ := takeEntry_spec hcap
    rw [hzero hless] at he
    have hfilled : ((takeEntry s.table).2.entries.modify (takeEntry s.table).1
        (fill armAddr x86Target))[(takeEntry s.table).1]? =
        some (fill armAddr x86Target .zero) := by
      rw [List.getElem?_modify_eq, he]
      rfl
    exact hcoherent.nonnull _ (List.mem_of_getElem? hfilled) rfl
  · -- an entry that is used again keeps its stub
    intro hfull
    have htake : takeEntry s.table = (lruIndex s.table.entries, s.table) := if_pos hfull
    have hlt : lruIndex s.table.entries < s.table.entries.length := lruIndex_lt (by omega)
    have hlru := List.getElem?_eq_getElem hlt
    have hcode := h.code _ _ hlru
    rw [htake]
    refine ⟨_, hlru, ?_, ?_⟩
    · intro hsame
      apply h.touch
      intro e he
      rw [hlru] at he
      cases he
      exact ⟨rfl, hsame.symm⟩
    · intro hother
      apply not_coherent_of_stale (i := lruIndex s.table.entries)
        (e := fill armAddr x86Target s.table.entries[lruIndex s.table.entries])
      · show (s.table.entries.modify _ _)[_]? = _
        rw [List.getElem?_modify_eq, hlru]
        rfl
      · exact hcode
      · exact hother

/-- A creation keeps the invariant when it is safe, and makes the table incoherent when not. -/
theorem Inv.create (h : Inv base s) (armAddr x86Target : Addr) :
    (SafeCreate s armAddr x86Target → Inv base (createEntry s armAddr x86Target).2) ∧
      (¬ SafeCreate s armAddr x86Target →
        ¬ Coherent (createEntry s armAddr x86Target).2) := by
  unfold SafeCreate
  by_cases htarget : x86Target = 0
  · have hsame : createEntry s armAddr x86Target = (none, s) := if_pos htarget
    rw [hsame]
    exact ⟨fun _ ↦ h, fun hunsafe ↦ absurd (Or.inl htarget) hunsafe⟩
  cases hlookup : (Jumptable.lookup s.table armAddr).1 with
  | some i =>
    obtain ⟨e, he, hgood, hbad⟩ := h.create_existing htarget hlookup
    refine ⟨?_, ?_⟩
    · rintro (hnull | ⟨d, hd, hsame⟩)
      · exact absurd hnull htarget
      · rw [he] at hd
        cases hd
        exact hgood hsame
    · intro hunsafe
      apply hbad
      intro hsame
      exact hunsafe (Or.inr ⟨e, he, hsame⟩)
  | none =>
    by_cases hroom : s.table.memoryUsed + stubSize ≤ s.table.memoryCapacity
    · refine ⟨fun _ ↦ h.create_room htarget hlookup hroom, ?_⟩
      intro hunsafe
      exact absurd (Or.inr (Or.inl hroom)) hunsafe
    obtain ⟨hless, hfull⟩ := h.create_exhausted htarget hlookup hroom
    rcases Nat.lt_or_ge s.table.entries.length s.table.capacity with hlt | hge
    · refine ⟨?_, fun _ ↦ hless hlt⟩
      rintro (hnull | hroom' | ⟨hge, _⟩)
      · exact absurd hnull htarget
      · exact absurd hroom' hroom
      · omega
    · obtain ⟨e, he, hgood, hbad⟩ := hfull hge
      refine ⟨?_, ?_⟩
      · rintro (hnull | hroom' | ⟨_, d, hd, hsame⟩)
        · exact absurd hnull htarget
        · exact absurd hroom' hroom
        · rw [he] at hd
          cases hd
          exact hgood hsame
      · intro hunsafe
        apply hbad
        intro hsame
        exact hunsafe (Or.inr (Or.inr ⟨hge, e, he, hsame⟩))

/-- A call keeps the invariant when it is safe, and makes the table incoherent when not. -/
theorem Inv.step (h : Inv base s) (call : Call) :
    (Safe s call → Inv base (call.run s)) ∧ (¬ Safe s call → ¬ Coherent (call.run s)) := by
  cases call with
  | lookup armAddr => exact ⟨fun _ ↦ h.lookup armAddr, fun hunsafe ↦ absurd trivial hunsafe⟩
  | patch i target => exact ⟨fun _ ↦ h.patch i target, fun hunsafe ↦ absurd trivial hunsafe⟩
  | create armAddr x86Target => exact h.create armAddr x86Target

theorem init_inv {mem : Memory} (hbase : Mapped base) (h : init (some base) mem = some s) :
    Inv base s := by
  cases h
  refine {
    mapped := hbase
    base_eq := rfl
    capacity_eq := rfl
    size_eq := rfl
    used_le := Nat.zero_le _
    below := ?_
    code := ?_
    apart := ?_ }
  · intro i e he
    cases he
  · intro i e he
    cases he
  · intro i j d e _ hd
    cases hd

/-- From a state of the invariant a call leaves the table coherent exactly when it is safe. -/
theorem Inv.step_coherent_iff (h : Inv base s) (call : Call) :
    Coherent (call.run s) ↔ Safe s call := by
  obtain ⟨hsafe, hunsafe⟩ := h.step call
  constructor
  · intro hcoherent
    by_contra hnot
    exact hunsafe hnot hcoherent
  · intro hcall
    exact (hsafe hcall).coherent

/-- On an initialised table, in every state of a run of calls every entry has a stub of its own
with its target in it, exactly when every creation is for a new address with stub memory left, or
gives an entry the target its stub has. -/
theorem run_coherent_iff {mem : Memory} (hbase : Mapped base)
    (h : init (some base) mem = some s) (calls : List Call) :
    (∀ done, done <+: calls → Coherent (done.foldl Call.run s)) ↔
      Stepping.Each Call.run Safe s calls := by
  have hinv := init_inv hbase h
  have hkeep : ∀ s call, Inv base s → True → Safe s call → Inv base (Call.run s call) :=
    fun s call hs _ hcall ↦ (hs.step call).1 hcall
  have hexact : ∀ s call, Inv base s → True → (Coherent (Call.run s call) ↔ Safe s call) :=
    fun s call hs _ ↦ hs.step_coherent_iff call
  rw [Stepping.forall_prefix_iff,
    Stepping.each_congr hkeep hexact hinv fun _ _ ↦ trivial]
  exact and_iff_right hinv.coherent

/-- The first state of a table with its stubs at `0x10000`. -/
private def fresh : State :=
  ⟨{ entries := [], capacity := 4096, codeMemory := 0x10000, memoryUsed := 0,
     memoryCapacity := 1024 * 1024 }, fun _ ↦ 0⟩

/-- Two entries, the first of which is looked up and patched. -/
theorem run_coherent_two :
    init (some 0x10000) (fun _ ↦ 0) = some fresh ∧
      ∀ done, done <+: [Call.create 0x1000 0x500000, .create 0x2000 0x600000, .lookup 0x1000,
        .patch 0 0x700000] → Coherent (done.foldl Call.run fresh) :=
  ⟨rfl, (run_coherent_iff ⟨by decide, by decide⟩ rfl _).mpr
    ⟨Or.inr (Or.inl (by decide)), Or.inr (Or.inl (by decide)), trivial, trivial, trivial⟩⟩

/-- A second creation for one address moves its entry and leaves the stub behind. -/
theorem create_twice_stale : ∃ s, init (some 0x10000) (fun _ ↦ 0) = some s ∧
    ¬ Coherent ([Call.create 0x1000 0x500000, .create 0x1000 0x600000].foldl Call.run s) := by
  refine ⟨_, rfl, ?_⟩
  have hentry : ([Call.create 0x1000 0x500000, .create 0x1000 0x600000].foldl Call.run
      fresh).table.entries[0]? = some ⟨0x1000, 0x10000, 0x600000, 1, false⟩ := by decide
  have hstub : ([Call.create 0x1000 0x500000, .create 0x1000 0x600000].foldl Call.run
      fresh).mem.read 0x10000 stubSize = stubCode 0x500000 := by decide +kernel
  exact not_coherent_of_stale hentry hstub (by decide)

end Arm2x86.Jumptable
