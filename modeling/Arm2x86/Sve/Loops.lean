import Arm2x86.X86.Emit
import Arm2x86.X86.Loops
import Arm2x86.X86.Passes
import Arm2x86.X86.Stack

/-!
# Runs of the loops

Where the loops of the scalable vectors jump to, and how they run. The displacement is taken one byte
too early, so that `loop` jumps behind the first byte of the body. In the loads and stores that byte
is a prefix and the rest is an instruction still; an operation is not one to begin with.
-/

/-!
## Scalable vectors

`modules/arm2x86_sve.c`: the code that stands for one operation on scalable vectors, or for a load or a
store of one. Without wide registers it is a loop over chunks of 128 bits.
-/

namespace Arm2x86.Sve

open X86

/-- `SVEMapStrategy` -/
inductive SveMapStrategy where
  | auto
  | zmm
  | ymm
  | xmm
deriving DecidableEq, Repr

/-- `SVEContext`: what the translators read of it. -/
structure SveContext where
  vl : BitVec 32
  mapStrategy : SveMapStrategy
deriving DecidableEq, Repr

/-- `g_has_avx512` and `g_sve_initialized` -/
structure Globals where
  hasAvx512 : Bool
  initialized : Bool
deriving DecidableEq, Repr

/-- `sve_get_zreg_mapping`: the switch over the strategies has the same result in all its cases. -/
def sveGetZregMapping (zreg : Byte) : Byte := zreg % 16

/-- Whether an operation is done at once in wide registers. -/
def wide (g : Globals) (ctx : SveContext) : Bool :=
  g.hasAvx512 && decide (256 ≤ ctx.vl) && ctx.mapStrategy != .xmm

/-- `sve_get_vex_prefix`, without the bit that no caller uses. -/
def sveGetVexPrefix (g : Globals) (ctx : SveContext) : Byte × Byte :=
  if g.hasAvx512 && decide (512 ≤ ctx.vl) && ctx.mapStrategy == .zmm then (0x62, 0xf1)
  else if wide g ctx then (0xc5, 0xfd)
  else (0x66, 0x0f)

/-- The number of chunks, from 1 to 16. -/
def iterations (ctx : SveContext) : BitVec 32 :=
  let n := ctx.vl / 128
  let n := if n == 0 then 1 else n
  if 16 < n then 16 else n

/-- Code with a loop: what is in front of `loop_start`, what is repeated, and what is behind the loop. -/
structure Loop where
  before : List Byte
  body : List Byte
  after : List Byte
deriving DecidableEq, Repr

namespace Loop

variable (l : Loop)

/-- `loop_start`, from the start of the code. -/
def start : Nat := l.before.length

/-- The displacement. It is measured when the opcode of `loop` is there, but not its operand. -/
def displacement : Byte :=
  let loopOffset : Int := (l.body ++ [0xe2]).length
  BitVec.ofInt 8 (-loopOffset)

def code : List Byte := l.before ++ l.body ++ [0xe2, l.displacement] ++ l.after

end Loop

/-- What a translator emits. -/
inductive Emitted where
  | straight (code : List Byte)
  | loop (l : Loop)
deriving DecidableEq, Repr

/-- The loop of an operation. -/
def operationLoop (prefix1 prefix2 sseOpcode xzd xzm : Byte) (count : BitVec 32) : Loop where
  -- push rcx; push rdx; mov ecx, iterations; xor rdx, rdx
  before := [0x51, 0x52, 0xb9] ++ imm32 count ++ [0x48, 0x31, 0xd2]
  -- the operation; inc rdx
  body := prefix1 :: (if prefix2 == 0 then [] else [prefix2]) ++
    [0x0f, sseOpcode, 0xc0 ||| (xzd <<< 3) ||| xzm] ++ [0x48, 0xff, 0xc2]
  -- pop rdx; pop rcx
  after := [0x5a, 0x59]

/-- `emit_sve_loop` -/
def emitSveLoop (g : Globals) (ctx : SveContext) (zd _zn zm sseOpcode avxOpcode : Byte) : Emitted :=
  let xzd := sveGetZregMapping zd
  let xzm := sveGetZregMapping zm
  let (prefix1, prefix2) := sveGetVexPrefix g ctx
  let modrm : Byte := 0xc0 ||| ((xzd &&& 7) <<< 3) ||| (xzm &&& 7)
  if wide g ctx then
    if 512 ≤ ctx.vl ∧ ctx.mapStrategy = .zmm then
      .straight [0x62, 0xf1, 0x75, 0x30, avxOpcode, modrm]
    else
      .straight [0xc5, 0xfd, avxOpcode, modrm]
  else
    .loop (operationLoop prefix1 prefix2 sseOpcode xzd xzm (iterations ctx))

/-- The loop of the load and of the store, which differ in an opcode. -/
def transferLoop (opcode : Byte) (ctx : SveContext) (zt rn : Byte) : Loop where
  -- push rcx; push rdx; push rax; mov ecx, iterations; xor rdx, rdx
  before := [0x51, 0x52, 0x50, 0xb9] ++ imm32 (iterations ctx) ++ [0x48, 0x31, 0xd2]
  -- the transfer, with the base register where the index belongs; inc rdx
  body := [0x66, 0x0f, opcode, modrm 0 (sveGetZregMapping zt) 4, sib 1 (rn &&& 0xf) rdx] ++
    [0x48, 0xff, 0xc2]
  -- pop rax; pop rdx; pop rcx
  after := [0x58, 0x5a, 0x59]

/-- `sve_translate_ld1` -/
def sveTranslateLd1 (g : Globals) (ctx : SveContext) (zt rn : Byte) : Option Emitted :=
  if g.initialized then some (.loop (transferLoop 0x10 ctx zt rn)) else none

/-- `sve_translate_st1` -/
def sveTranslateSt1 (g : Globals) (ctx : SveContext) (zt rn : Byte) : Option Emitted :=
  if g.initialized then some (.loop (transferLoop 0x11 ctx zt rn)) else none

end Arm2x86.Sve

namespace Arm2x86.Sve

open X86

variable (undef : Instr → Machine → Status) (rest : Instr → Machine → Option Machine)

section Statement

/-- The vector instructions go on with the next one, and they leave the general registers and some
bytes of memory. -/
def VectorsKeep (a : BitVec 64) (n : Nat) : Prop :=
  ∀ m, ∃ m', rest .vector m = some m' ∧ m'.regs = m.regs ∧ m'.pos = m.pos ∧
    ∀ i < n, m'.mem (a + BitVec.ofNat 64 i) = m.mem (a + BitVec.ofNat 64 i)

/-- The registers that a loop uses for itself: `RAX`, `RCX`, `RDX`, `RSP`. -/
def scratch : List Gpr := [0, 1, 2, 4]

/-- A loop jumps back to its start, and it runs through its body some times and keeps the registers
that it uses, where the stack has room and is not written by the vector instructions. -/
structure LoopCorrect (count : Nat) (l : Loop) : Prop where
  target : ∀ m : Machine, m.pos = l.start + l.body.length → m.regs 1 ≠ 1 →
    ∃ d m', loopAt l.code m.pos = some d ∧ { m with pos := m.pos + 2 }.execLoop d = some m' ∧
      m'.pos = l.start
  laps : ∀ m : Machine, m.pos = 0 → m.Room 24 → VectorsKeep rest (m.regs 4 - 24) 24 →
    ∃ m', Laps (Semantics.core undef rest) l.code count m m' ∧ m'.pos = l.code.length ∧
      ∀ r ∈ scratch, m'.regs r = m.regs r

/-- A translator has emitted such a loop, for the chunks of the vector length. -/
def Correct (ctx : SveContext) (emitted : Option Emitted) : Prop :=
  ∃ l, emitted = some (.loop l) ∧ LoopCorrect undef rest (ctx.vl.toNat / 128) l

end Statement

section Target

variable {l : Loop}

theorem at_parts (l : Loop) : At l.code 0 l.before ∧ At l.code l.start l.body ∧
    loopAt l.code (l.start + l.body.length) = some l.displacement ∧
      At l.code (l.start + l.body.length + 2) l.after := by
  have hat : At l.code 0 (l.before ++ (l.body ++ ([0xe2, l.displacement] ++ l.after))) := by
    rw [Loop.code, List.append_assoc, List.append_assoc]
    exact at_self _
  have hbody := hat.right
  rw [Nat.zero_add] at hbody
  exact ⟨hat.left, hbody.left, loopAt_of_at hbody.right, hbody.right.right⟩

theorem displacement_toInt (h : l.body.length < 128) :
    (l.displacement.signExtend 64).toInt = -(l.body.length + 1 : Nat) := by
  rw [BitVec.toInt_signExtend_of_le (by decide), Loop.displacement, List.length_append,
    BitVec.toInt_ofInt, Int.bmod_eq_of_le] <;> simp <;> omega

/-- `loop` jumps to the second byte of the body. -/
theorem execLoop_code {m : Machine} (h : l.body.length < 128) (hpos : m.pos = l.start + l.body.length)
    (hrcx : m.regs 1 ≠ 1) : { m with pos := m.pos + 2 }.execLoop l.displacement =
      some { m.setReg 1 (m.regs 1 - 1) with pos := l.start + 1 } := by
  apply execLoop_of_ne (m := { m with pos := m.pos + 2 }) hrcx
  show ((m.pos + 2 : Nat) : Int) + _ = _
  rw [displacement_toInt h, hpos]
  omega

/-- A state with any position and any count. -/
private def anywhere (pos : Nat) : Machine where
  regs _ := 0
  flags := 0
  vectors _ := 0
  mem _ := none
  codeBase := 0
  pos := pos

theorem not_loopCorrect (h : l.body.length < 128) (count : Nat) :
    ¬ LoopCorrect undef rest count l := by
  intro hcorrect
  have hrcx : (anywhere (l.start + l.body.length)).regs 1 ≠ 1 := by
    show (0 : BitVec 64) ≠ 1
    decide
  obtain ⟨d, m', hat, hexec, hpos⟩ := hcorrect.target _ rfl hrcx
  have hat' : some l.displacement = some d := (at_parts l).2.2.1.symm.trans hat
  obtain rfl := Option.some.inj hat'
  rw [execLoop_code h rfl hrcx] at hexec
  obtain rfl := Option.some.inj hexec
  exact Nat.succ_ne_self l.start hpos

end Target

section Bodies

variable {opcode : Byte} {ctx : SveContext}

private theorem decode_movEcx (v : BitVec 32) (tail : List Byte) :
    decode (0xb9 :: imm32 v ++ tail) = some (.movImm .b32 (.reg 1) (v.signExtend 64), tail) := by
  have htake : takeImm .b32 (imm32 v ++ tail) = some (v.signExtend 64, tail) := take32_imm32 v tail
  rw [List.cons_append, decode, takePrefixes_opcode rfl]
  simp [decodeOpcode, htake, Prefixes.none, Prefixes.w, Prefixes.size, gpr]
  rfl

def pushRax : Chunk := ⟨[0x50], .push 0, fun _ ↦ decode_prefixes rfl rfl⟩

def pushRcx : Chunk := ⟨[0x51], .push 1, fun _ ↦ decode_prefixes rfl rfl⟩

def pushRdx : Chunk := ⟨[0x52], .push 2, fun _ ↦ decode_prefixes rfl rfl⟩

def popRax : Chunk := ⟨[0x58], .pop 0, fun _ ↦ decode_prefixes rfl rfl⟩

def popRcx : Chunk := ⟨[0x59], .pop 1, fun _ ↦ decode_prefixes rfl rfl⟩

def popRdx : Chunk := ⟨[0x5a], .pop 2, fun _ ↦ decode_prefixes rfl rfl⟩

def movEcx (v : BitVec 32) : Chunk := ⟨0xb9 :: imm32 v, _, decode_movEcx v⟩

def xorRdx : Chunk :=
  ⟨[0x48, 0x31, 0xd2], .alu .xor .b64 (.reg 2) (.reg 2), fun _ ↦ decode_prefixes rfl rfl⟩

def incRdx : Chunk :=
  ⟨[0x48, 0xff, 0xc2], .incDec false .b64 (.reg 2), fun _ ↦ decode_prefixes rfl rfl⟩

theorem length_transferLoop (opcode : Byte) (ctx : SveContext) (zt rn : Byte) :
    (transferLoop opcode ctx zt rn).body.length < 128 := by
  show 8 < 128
  decide

theorem length_operationLoop (prefix1 prefix2 sseOpcode xzd xzm : Byte) (count : BitVec 32) :
    (operationLoop prefix1 prefix2 sseOpcode xzd xzm count).body.length < 128 := by
  rw [operationLoop]
  split <;> simp

private theorem decode0F_transfer (h : opcode = 0x10 ∨ opcode = 0x11) (p : Prefixes) (bs : List Byte) :
    decode0F p (opcode :: bs) = (takeRm p .b64 bs).bind fun (_, bs') ↦ some (.vector, bs') := by
  rcases h with rfl | rfl <;> rfl

/-- The operand of a transfer: its base is the count of the chunks, and its index the base register. -/
theorem takeRm_transfer (p : Prefixes) (x y : Byte) (tail : List Byte) :
    ∃ loc, takeRm p .b64 (modrm 0 x 4 :: sib 1 y rdx :: tail) = some (loc, tail) := by
  have hmod : ∀ x, (modrm 0 x 4).extractLsb' 6 2 = 0 := by decide
  have hrm : ∀ x, (modrm 0 x 4).extractLsb' 0 3 = 4 := by decide
  have hbase : ∀ y, (sib 1 y rdx).extractLsb' 0 3 = 2 := by decide
  have hsib : ∃ loc, takeSib p 0 (sib 1 y rdx :: tail) = some (loc, tail) := by
    rw [takeSib, hbase]
    exact ⟨_, rfl⟩
  rw [takeRm, hmod, hrm]
  exact hsib

/-- A transfer with its prefix or without it. -/
theorem decode_transfer (h : opcode = 0x10 ∨ opcode = 0x11) {pre : List Byte}
    (hpre : pre = [0x66] ∨ pre = []) (x y : Byte) (tail : List Byte) :
    decode (pre ++ [0x0f, opcode, modrm 0 x 4, sib 1 y rdx] ++ tail) = some (.vector, tail) := by
  have hdec : ∀ p, decodeOpcode p (0x0f :: opcode :: modrm 0 x 4 :: sib 1 y rdx :: tail) =
      some (.vector, tail) := by
    intro p
    obtain ⟨loc, hloc⟩ := takeRm_transfer p x y tail
    show decode0F p (opcode :: _) = _
    rw [decode0F_transfer h, hloc]
    rfl
  rcases hpre with rfl | rfl
  · exact decode_prefixes rfl (hdec _)
  · exact decode_prefixes rfl (hdec _)

/-- What stands at the start of the body of an operation is not an instruction. -/
theorem decode_operation (sseOpcode x : Byte) (tail : List Byte) :
    decode ([0x66, 0x0f, 0x0f, sseOpcode, x] ++ tail) = none := rfl

end Bodies

section Parts

variable {undef rest} {m₀ : Machine} {vs : List (BitVec 64)} {a : BitVec 64}

/-- Values on the stack and the counter, as code inside of the loop leaves them. -/
def counting (m₀ : Machine) (vs : List (BitVec 64)) : Frame where
  Ready m := Saved m₀ m vs
  Keeps m m' := m'.regs 1 = m.regs 1
  ready_pos p h := h.setPos p
  refl _ _ := rfl
  trans h h' := h'.trans h

theorem passes_vector {frag : List Byte} (hdec : ∀ tail, decode (frag ++ tail) = some (.vector, tail))
    {n : Nat} (hn : 8 * vs.length = n) (hkeep : VectorsKeep rest (m₀.regs 4 - BitVec.ofNat 64 n) n) :
    Passes (Semantics.core undef rest) (counting m₀ vs) frag := by
  subst hn
  apply passes_decode hdec
  intro m hm
  obtain ⟨m', hexec, hregs, hpos, hmem⟩ := hkeep m
  have htop : m₀.regs 4 - BitVec.ofNat 64 (8 * vs.length) = m.regs 4 := by
    rw [← hm.top, BitVec.add_sub_cancel]
  rw [htop] at hmem
  exact ⟨m', hexec, hpos, hm.congr (congrFun hregs 4) hmem, congrFun hregs 1⟩

theorem passes_incRdx : Passes (Semantics.core undef rest) (counting m₀ vs) incRdx.bytes :=
  passes_chunk incRdx fun _ hm ↦ ⟨_, rfl, rfl, hm.congr rfl fun _ _ ↦ rfl, rfl⟩

theorem passes_xorRdx : Passes (Semantics.core undef rest) (counting m₀ vs) xorRdx.bytes :=
  passes_chunk xorRdx fun _ hm ↦ ⟨_, rfl, rfl, hm.congr rfl fun _ _ ↦ rfl, rfl⟩

end Parts

section Transfers

variable {undef rest} {opcode : Byte} {ctx : SveContext} {m : Machine}

theorem runs_movEcx {whole : List Byte} {m₀ : Machine} {vs : List (BitVec 64)} (v : BitVec 32)
    (h : Saved m₀ m vs) (hat : At whole m.pos (movEcx v).bytes) :
    ∃ m', (Semantics.core undef rest).Runs whole m m' ∧ Saved m₀ m' vs ∧
      m'.pos = m.pos + (movEcx v).bytes.length ∧ m'.regs 1 = v.setWidth 64 := by
  refine ⟨_, Semantics.runs_chunk hat rfl, ?_, rfl, ?_⟩
  · exact (h.setPos _).setReg (g := 1) (by decide) _
  · show ((v.signExtend 64).setWidth 32).setWidth 64 = v.setWidth 64
    ext i hi
    by_cases hlow : i < 32
    · simp [hlow, hi, BitVec.getElem_signExtend]
    · simp [hlow, BitVec.getLsbD_of_ge v i (by omega)]

/-- The vector lengths that the module supports. -/
def SveContext.Supported (ctx : SveContext) : Prop :=
  128 ≤ ctx.vl.toNat ∧ ctx.vl.toNat ≤ 2048 ∧ 128 ∣ ctx.vl.toNat

theorem iterations_eq (h : ctx.Supported) :
    (iterations ctx).setWidth 64 = BitVec.ofNat 64 (ctx.vl.toNat / 128) := by
  obtain ⟨hmin, hmax, -⟩ := h
  have hdiv : (ctx.vl / 128).toNat = ctx.vl.toNat / 128 := BitVec.toNat_udiv
  have hpos : ((ctx.vl / 128 == 0) = true) = False := by
    rw [beq_iff_eq, ← BitVec.toNat_inj, hdiv]
    show (ctx.vl.toNat / 128 = 0) = False
    rw [eq_iff_iff, iff_false]
    omega
  have hle : ¬ 16 < ctx.vl / 128 := by
    rw [BitVec.lt_def, hdiv]
    show ¬ 16 < ctx.vl.toNat / 128
    omega
  apply BitVec.eq_of_toNat_eq
  rw [iterations, if_neg (of_eq_false hpos), if_neg hle, BitVec.toNat_setWidth, hdiv,
    BitVec.toNat_ofNat]

variable (undef rest) in
/-- In front of the loop the registers are on the stack and the counter is set. -/
theorem runs_before {whole : List Byte} (v : BitVec 32) (hroom : m.Room 24)
    (hat : At whole m.pos (pushRcx.bytes ++ (pushRdx.bytes ++ (pushRax.bytes ++
      ((movEcx v).bytes ++ xorRdx.bytes))))) :
    ∃ m', (Semantics.core undef rest).Runs whole m m' ∧ m'.pos = m.pos + 11 ∧
      Saved m m' [m.regs 0, m.regs 2, m.regs 1] ∧ m'.regs 1 = v.setWidth 64 := by
  obtain ⟨m₁, hrun₁, hsaved₁, hpos₁, hregs₁, hroom₁⟩ :=
    (Saved.nil m).runs_push (c := pushRcx) (n := 16) rfl hat.left (by simp) hroom
  replace hat := hat.right
  rw [← hpos₁] at hat
  obtain ⟨m₂, hrun₂, hsaved₂, hpos₂, hregs₂, hroom₂⟩ :=
    hsaved₁.runs_push (c := pushRdx) (n := 8) rfl hat.left (by simp) hroom₁
  replace hat := hat.right
  rw [← hpos₂] at hat
  obtain ⟨m₃, hrun₃, hsaved₃, hpos₃, hregs₃, -⟩ :=
    hsaved₂.runs_push (c := pushRax) (n := 0) rfl hat.left (by simp) hroom₂
  replace hat := hat.right
  rw [← hpos₃] at hat
  obtain ⟨m₄, hrun₄, hsaved₄, hpos₄, hcount⟩ := runs_movEcx v hsaved₃ hat.left
  replace hat := hat.right
  rw [← hpos₄] at hat
  obtain ⟨m', hrun, hpos, hsaved, hkeep⟩ := passes_xorRdx whole m₄ hsaved₄ hat
  refine ⟨m', (((hrun₁.trans hrun₂).trans hrun₃).trans hrun₄).trans hrun, ?_, ?_, ?_⟩
  · rw [hpos, hpos₄, hpos₃, hpos₂, hpos₁]
    rfl
  · rw [hregs₂ 0 (by decide), hregs₁ 0 (by decide), hregs₁ 2 (by decide)] at hsaved
    exact hsaved
  · exact hkeep.trans hcount

/-- Behind the loop they are back. -/
theorem runs_after {whole : List Byte} {m₀ : Machine}
    (h : Saved m₀ m [m₀.regs 0, m₀.regs 2, m₀.regs 1])
    (hat : At whole m.pos (popRax.bytes ++ (popRdx.bytes ++ popRcx.bytes))) :
    ∃ m', (Semantics.core undef rest).Runs whole m m' ∧ m'.pos = m.pos + 3 ∧
      ∀ r ∈ scratch, m'.regs r = m₀.regs r := by
  obtain ⟨m₁, hrun₁, hsaved₁, hpos₁, hrax₁, -⟩ :=
    h.runs_pop (c := popRax) rfl (by decide) hat.left
  replace hat := hat.right
  rw [← hpos₁] at hat
  obtain ⟨m₂, hrun₂, hsaved₂, hpos₂, hrdx₂, hregs₂⟩ :=
    hsaved₁.runs_pop (c := popRdx) rfl (by decide) hat.left
  replace hat := hat.right
  rw [← hpos₂] at hat
  obtain ⟨m₃, hrun₃, hsaved₃, hpos₃, hrcx₃, hregs₃⟩ :=
    hsaved₂.runs_pop (c := popRcx) rfl (by decide) hat
  refine ⟨m₃, (hrun₁.trans hrun₂).trans hrun₃, ?_, ?_⟩
  · rw [hpos₃, hpos₂, hpos₁]
    rfl
  · intro r hr
    simp only [scratch, List.mem_cons, List.not_mem_nil, or_false] at hr
    rcases hr with rfl | rfl | rfl | rfl
    · rw [hregs₃ 0 (by decide) (by decide), hregs₂ 0 (by decide) (by decide), hrax₁]
    · exact hrcx₃
    · rw [hregs₃ 2 (by decide) (by decide), hrdx₂]
    · exact (BitVec.add_zero _).symm.trans hsaved₃.top

variable (undef) in
/-- The body of a transfer, with its first byte or without it. -/
theorem passes_transfer {pre : List Byte} {vs : List (BitVec 64)} (hop : opcode = 0x10 ∨ opcode = 0x11)
    (hpre : pre = [0x66] ∨ pre = []) (hvs : 8 * vs.length = 24) (zt rn : Byte)
    (hkeep : VectorsKeep rest (m.regs 4 - 24) 24) :
    Passes (Semantics.core undef rest) (counting m vs)
      (pre ++ [0x0f, opcode, modrm 0 zt 4, sib 1 rn rdx] ++ incRdx.bytes) := by
  apply Passes.append
  · have hdec := decode_transfer hop hpre zt rn
    exact passes_vector hdec hvs hkeep
  · exact passes_incRdx

/-- The loads and the stores run through their chunks, and they keep the registers. -/
theorem laps_transferLoop (hop : opcode = 0x10 ∨ opcode = 0x11) (hctx : ctx.Supported) (zt rn : Byte)
    (hpos : m.pos = 0) (hroom : m.Room 24) (hkeep : VectorsKeep rest (m.regs 4 - 24) 24) :
    ∃ m', Laps (Semantics.core undef rest) (transferLoop opcode ctx zt rn).code (ctx.vl.toNat / 128)
        m m' ∧ m'.pos = (transferLoop opcode ctx zt rn).code.length ∧
      ∀ r ∈ scratch, m'.regs r = m.regs r := by
  obtain ⟨l, hl⟩ : ∃ l, l = transferLoop opcode ctx zt rn := ⟨_, rfl⟩
  rw [← hl]
  obtain ⟨hbefore, hbody, hloop, hafter⟩ := at_parts l
  have hstart : l.start = 11 := by rw [hl]; rfl
  have hlen : l.body.length = 8 := by rw [hl]; rfl
  have hfront : l.before = pushRcx.bytes ++ (pushRdx.bytes ++ (pushRax.bytes ++
      ((movEcx (iterations ctx)).bytes ++ xorRdx.bytes))) := by rw [hl]; rfl
  have hmiddle : l.body = [0x66] ++ ([] ++ [0x0f, opcode, modrm 0 (sveGetZregMapping zt) 4,
      sib 1 (rn &&& 0xf) rdx] ++ incRdx.bytes) := by rw [hl]; rfl
  have hback : l.after = popRax.bytes ++ (popRdx.bytes ++ popRcx.bytes) := by rw [hl]; rfl
  rw [hfront, ← hpos] at hbefore
  rw [hback] at hafter
  obtain ⟨m₁, hrun₁, hpos₁, hsaved₁, hcount₁⟩ :=
    runs_before undef rest (iterations ctx) hroom hbefore
  rw [hpos, Nat.zero_add, ← hstart] at hpos₁
  -- the first lap, from the start of the body
  have hat₁ : At l.code m₁.pos l.body := hpos₁ ▸ hbody
  rw [hmiddle] at hat₁
  obtain ⟨m₂, hrun₂, hpos₂, hsaved₂, hcount₂⟩ :=
    passes_transfer undef hop (.inl rfl) rfl (sveGetZregMapping zt) (rn &&& 0xf) hkeep
      l.code m₁ hsaved₁ hat₁
  -- the laps behind it, from the second byte of the body
  have hlap : ∀ m', Saved m m' [m.regs 0, m.regs 2, m.regs 1] → m'.pos = l.start + 1 →
      ∃ m'', Laps (Semantics.core undef rest) l.code 0 m' m'' ∧
        m''.pos = l.start + l.body.length ∧ m''.regs 1 = m'.regs 1 ∧
          Saved m m'' [m.regs 0, m.regs 2, m.regs 1] := by
    intro m' hm' hpos'
    rw [hmiddle, ← hpos₁] at hbody
    have hat' := hbody.right
    rw [hpos₁] at hat'
    obtain ⟨m'', hrun, hpos'', hsaved, hcount⟩ :=
      passes_transfer undef hop (.inr rfl) rfl (sveGetZregMapping zt) (rn &&& 0xf) hkeep
        l.code m' hm' (hpos' ▸ hat')
    refine ⟨m'', .of_runs hrun, ?_, hcount, hsaved⟩
    rw [hpos'', hpos', hlen]
    rfl
  obtain ⟨k, hk⟩ : ∃ k, ctx.vl.toNat / 128 = k + 1 := by
    obtain ⟨hmin, -, -⟩ := hctx
    exact ⟨ctx.vl.toNat / 128 - 1, by omega⟩
  have hsmall : k + 1 < 2 ^ 64 := by
    have := ctx.vl.isLt
    omega
  have htarget : ((l.start + l.body.length : Nat) : Int) + 2 + (l.displacement.signExtend 64).toInt =
      (l.start + 1 : Nat) := by
    rw [displacement_toInt (by omega)]
    omega
  obtain ⟨m₃, hlaps, hpos₃, hsaved₃⟩ := Laps.countdown hloop htarget
    (fun m' v p h ↦ (h.setReg (g := 1) (by decide) v).setPos p) hlap hsmall hsaved₂
    (by rw [hpos₂, hpos₁, hlen]; rfl)
    (by rw [hcount₂, hcount₁, iterations_eq hctx, hk])
  obtain ⟨m₄, hrun₄, hpos₄, hregs⟩ := runs_after hsaved₃ (hpos₃ ▸ hafter)
  refine ⟨m₄, ?_, ?_, hregs⟩
  · have hall := ((Laps.of_runs (hrun₁.trans hrun₂)).trans hlaps).trans (Laps.of_runs hrun₄)
    rwa [Nat.zero_add, Nat.add_zero, ← hk] at hall
  · rw [hpos₄, hpos₃, hstart, hlen, hl]
    rfl

end Transfers

section Operations

variable {undef rest} {g : Globals} {ctx : SveContext}

theorem sequential_push (r : Gpr) : (Semantics.core undef rest).Sequential (.push r) :=
  fun _ _ h ↦ Machine.pushed_pos h

/-- What is in front of the loop of an operation. -/
private def operationFront (count : BitVec 32) : List Chunk := [pushRcx, pushRdx, movEcx count, xorRdx]

private theorem sequential_operationFront (count : BitVec 32) :
    ∀ c ∈ operationFront count, (Semantics.core undef rest).Sequential c.instr := by
  intro c hc
  simp only [operationFront, List.mem_cons, List.not_mem_nil, or_false] at hc
  rcases hc with rfl | rfl | rfl | rfl
  · exact sequential_push 1
  · exact sequential_push 2
  · intro m m' h
    rw [← Option.some.inj h]
    rfl
  · intro m m' h
    rw [← Option.some.inj h]
    rfl

theorem sveGetVexPrefix_narrow (hwide : wide g ctx = false) : sveGetVexPrefix g ctx = (0x66, 0x0f) := by
  have hevex : (g.hasAvx512 && decide (512 ≤ ctx.vl) && ctx.mapStrategy == .zmm) = false := by
    rw [Bool.eq_false_iff]
    intro h
    rw [Bool.and_eq_true, Bool.and_eq_true, decide_eq_true_eq, beq_iff_eq] at h
    obtain ⟨⟨havx, hvl⟩, hzmm⟩ := h
    have hvl' : 256 ≤ ctx.vl := BitVec.le_trans (by decide) hvl
    rw [wide, havx, hzmm, decide_eq_true hvl'] at hwide
    cases hwide
  rw [sveGetVexPrefix, hevex, hwide]
  rfl

/-- The loop of an operation gets stuck at its start. -/
theorem operation_stuck (hwide : wide g ctx = false) (zd zn zm sseOpcode avxOpcode : Byte) :
    ∃ l, emitSveLoop g ctx zd zn zm sseOpcode avxOpcode = .loop l ∧
      ∀ n (m m' : Machine), m.pos = 0 → Laps (Semantics.core undef rest) l.code n m m' →
        m'.pos ≤ l.start := by
  let xzd := sveGetZregMapping zd
  let xzm := sveGetZregMapping zm
  refine ⟨operationLoop 0x66 0x0f sseOpcode xzd xzm (iterations ctx), ?_, ?_⟩
  · rw [emitSveLoop, sveGetVexPrefix_narrow hwide, hwide]
    rfl
  · intro n m m' hpos hlaps
    obtain ⟨hbefore, hbody, -, -⟩ := at_parts (operationLoop 0x66 0x0f sseOpcode xzd xzm (iterations ctx))
    obtain ⟨tail, htail⟩ := hbody
    apply Laps.pos_le_of_stuck (sequential_operationFront (iterations ctx)) hbefore ?_ ?_ hpos hlaps
    · exact (congrArg decode htail).symm.trans (decode_operation sseOpcode _ _)
    · show loopAt _ (operationLoop 0x66 0x0f sseOpcode xzd xzm (iterations ctx)).start = none
      rw [loopAt, ← htail]
      rfl

end Operations

section Result

variable {g : Globals} {ctx : SveContext}

private theorem not_correct_operation (zd zn zm sseOpcode avxOpcode : Byte) :
    ¬ Correct undef rest ctx (some (emitSveLoop g ctx zd zn zm sseOpcode avxOpcode)) := by
  rintro ⟨l, hl, hcorrect⟩
  have hemit := Option.some.inj hl
  cases hwide : wide g ctx with
  | true =>
    -- no loop in wide registers
    rw [emitSveLoop, hwide] at hemit
    simp only [if_true] at hemit
    split at hemit <;> cases hemit
  | false =>
    rw [emitSveLoop, hwide] at hemit
    obtain rfl := Emitted.loop.inj hemit
    exact not_loopCorrect undef rest (length_operationLoop ..) _ hcorrect

private theorem not_correct_transfer (opcode zt rn : Byte) :
    ¬ Correct undef rest ctx
      (if g.initialized then some (.loop (transferLoop opcode ctx zt rn)) else none) := by
  rintro ⟨l, hl, hcorrect⟩
  split at hl
  · obtain rfl := Emitted.loop.inj (Option.some.inj hl)
    exact not_loopCorrect undef rest (length_transferLoop ..) _ hcorrect
  · cases hl

/-- No loop of the translators jumps to its start. -/
theorem loops_never_correct (g : Globals) (ctx : SveContext) :
    (∀ zd zn zm sseOpcode avxOpcode,
        ¬ Correct undef rest ctx (some (emitSveLoop g ctx zd zn zm sseOpcode avxOpcode))) ∧
      (∀ zt rn, ¬ Correct undef rest ctx (sveTranslateLd1 g ctx zt rn)) ∧
        ∀ zt rn, ¬ Correct undef rest ctx (sveTranslateSt1 g ctx zt rn) :=
  ⟨not_correct_operation undef rest, not_correct_transfer undef rest 0x10,
    not_correct_transfer undef rest 0x11⟩

/-- `LD1` with vectors of 256 bits: the loop starts at 11, and `loop` jumps to 12. -/
theorem ld1_not_correct :
    ¬ Correct (fun _ _ ↦ .ofBits 0) (fun _ m ↦ some m) ⟨256, .xmm⟩
      (sveTranslateLd1 ⟨false, true⟩ ⟨256, .xmm⟩ 0 0) :=
  not_correct_transfer _ _ 0x10 0 0

end Result

end Arm2x86.Sve
