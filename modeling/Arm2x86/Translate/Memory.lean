import Arm2x86.Translate.Integer

/-!
# Memory and system translators

Loads and stores, prefetches, atomics, barriers, hints and system instructions of
`modules/arm2x86_translate64.c`. Nothing here goes through the register allocator.
-/

namespace Arm2x86.Translate

open X86

/-- What the translation depends on besides the guest code: the context's ordering flag, the
thread's vector flag, the addresses of two runtime helpers and the value the host's shift by a
negative count gives `translate_fmov_imm`. -/
structure Env where
  strictMemoryOrdering : Bool
  simdEnabled : Bool
  mrsTpidrEl0 : BitVec 64
  mrsTpidrroEl0 : BitVec 64
  msrTpidrEl0 : BitVec 64
  fmovNegative : BitVec 32 → BitVec 64

/-- The default flags, with the addresses left at zero. -/
def Env.default : Env := ⟨false, true, 0, 0, 0, fun _ ↦ 0⟩

/-- An access through `RAX` with a displacement. -/
def raxAccess (pre : List Byte) (reg : Byte) (imm : BitVec 32) : Code :=
  pre ++ emitModrmDisp (reg &&& 7) rax imm

/-- `translate_ldr_str`: all sizes use the same 64-bit access. -/
def translateLdrStr (op : BitVec 32) (imm : BitVec 32) : List Code :=
  let rt := armReg op 0
  let w := op.extractLsb' 30 2 == (3 : BitVec 2)
  emitLoadArmReg (armReg op 5) rax true ::
    if op.getLsbD 22 then
      [raxAccess [rexR rax rax, 0x8b] rax imm, emitStoreArmReg rax rt w]
    else
      [emitLoadArmReg rt r11 w, raxAccess [rexR r11 rax, 0x89] r11 imm]

/-- `translate_ldp_stp`: the second register is always eight bytes above. -/
def translateLdpStp (op : BitVec 32) (imm : BitVec 32) : List Code :=
  let rt := armReg op 0
  let rt2 := armReg op 10
  let w := op.getLsbD 30
  emitLoadArmReg (armReg op 5) rax true ::
    if op.getLsbD 31 then
      [raxAccess [rexR r11 rax, 0x8b] r11 imm, emitStoreArmReg r11 rt w,
        raxAccess [rexR r11 rax, 0x8b] r11 (imm + 8), emitStoreArmReg r11 rt2 w]
    else
      [emitLoadArmReg rt r11 w, raxAccess [rexR r11 rax, 0x89] r11 imm,
        emitLoadArmReg rt2 r11 w, raxAccess [rexR r11 rax, 0x89] r11 (imm + 8)]

/-- `translate_ldr_literal`: the address is the guest address of the literal. -/
def translateLdrLiteral (arm64Cur : BitVec 64) (op : BitVec 32) : List Code :=
  let w := op.getLsbD 30
  let imm := signExtend64 (fieldAt op 5 20 <<< 2) 21
  [movR64Imm rax (arm64Cur + imm.signExtend 64),
    (if w then [rexR 1 (r11 >>> 3)] else []) ++ [0x8b, modrm 0 (r11 &&& 7) (rax &&& 7)],
    emitStoreArmReg r11 (armReg op 0) w]

/-- The 12-bit immediate the byte and halfword translators read from the low bits. -/
def imm12 (op : BitVec 32) : BitVec 32 := (op.extractLsb' 0 12).setWidth 32

/-- The narrow loads: an extending load into the register numbered like `R11` and a store of
`R11`. -/
def narrowLoad (pre : List Byte) (w : Bool) (op : BitVec 32) : List Code :=
  [emitLoadArmReg (armReg op 5) rax true, raxAccess pre r11 (imm12 op),
    emitStoreArmReg r11 (armReg op 0) w]

/-- The narrow stores. -/
def narrowStore (pre : List Byte) (op : BitVec 32) : List Code :=
  [emitLoadArmReg (armReg op 5) rax true, emitLoadArmReg (armReg op 0) r11 false,
    raxAccess pre r11 (imm12 op)]

def translateLdrb (op : BitVec 32) : List Code := narrowLoad [rexR 0 rax, 0x0f, 0xb6] (is64 op) op
def translateStrb (op : BitVec 32) : List Code := narrowStore [rexR 0 rax, 0x88] op
def translateLdrh (op : BitVec 32) : List Code := narrowLoad [rexR 0 rax, 0x0f, 0xb7] (is64 op) op
def translateStrh (op : BitVec 32) : List Code := narrowStore [rexR 0 rax, 0x66, 0x89] op
def translateLdrsb (op : BitVec 32) : List Code := narrowLoad [rexR 1 rax, 0x0f, 0xbe] (is64 op) op
def translateLdrsh (op : BitVec 32) : List Code := narrowLoad [rexR 1 rax, 0x0f, 0xbf] (is64 op) op
def translateLdrsw (op : BitVec 32) : List Code := narrowLoad [rexR 1 rax, 0x63] true op

/-- `translate_prfm` -/
def translatePrfm (op : BitVec 32) : List Code :=
  let kind : BitVec 2 := op.extractLsb' 3 2
  let target := (op.extractLsb' 0 3).toNat
  let imm : BitVec 32 := (op.extractLsb' 10 9).signExtend 32
  let base := if imm != 0 then r11 else rax
  let hint : Byte := if target ≤ 1 then 0 else if target ≤ 3 then 1 else if target ≤ 5 then 2 else 3
  emitLoadArmReg (armReg op 5) rax true ::
    (if imm != 0 then [raxAccess [rex true 0 0 (r11 >>> 3), 0x8d] r11 imm] else []) ++
    (if kind == 0 || kind == 2 then [[0x0f, 0x18, modrm 0 hint (base &&& 7)]]
    else if kind == 1 then [[0x0f, 0x18, modrm 0 0 (base &&& 7)]]
    else [[0x90]])

/-- `translate_ldaxr` -/
def translateLdaxr (op : BitVec 32) : List Code :=
  [emitLoadArmReg (armReg op 5) rax true,
    [0xf0, rexR 0 rax, 0x8b, modrm 0 (r11 &&& 7) (rax &&& 7)],
    emitStoreArmReg r11 (armReg op 0) (op.getLsbD 30)]

/-- `translate_stlxr` -/
def translateStlxr (op : BitVec 32) : List Code :=
  let w := op.getLsbD 30
  [emitLoadArmReg (armReg op 5) rax true, emitLoadArmReg (armReg op 16) r11 w,
    [0xf0, rex w (r11 >>> 3) 0 (rax >>> 3), 0x0f, 0xb1, modrm 0 (r11 &&& 7) (rax &&& 7)],
    [0x0f, 0x95, modrm 3 0 (rax &&& 7)]] ++
    (if w then [] else [movzxR64R8 rax rax]) ++ [emitStoreArmReg rax (armReg op 0) true]

/-- `translate_cas`: the lock prefix is emitted in front of a load. -/
def translateCas (op : BitVec 32) : List Code :=
  let w := is64 op
  [emitLoadArmReg (armReg op 5) rax true, emitLoadArmReg (armReg op 0) r11 w, [0x50],
    movR64R64 rax r11, 0xf0 :: emitLoadArmReg (armReg op 16) r11 w,
    [rex true (r11 >>> 3) 0 (rax >>> 3), 0x0f, 0xb1, modrm 0 (r11 &&& 7) (rax &&& 7)],
    [0x58], [0x58], emitStoreArmReg rax (armReg op 0) w]

/-- `translate_ldadd` -/
def translateLdadd (op : BitVec 32) : List Code :=
  let w := is64 op
  [emitLoadArmReg (armReg op 5) rax true, emitLoadArmReg (armReg op 16) r11 w,
    [0xf0, rex true 0 (r11 >>> 3) (rax >>> 3), 0x0f, 0xc1, modrm 0 (r11 &&& 7) (rax &&& 7)],
    emitStoreArmReg r11 (armReg op 0) w]

/-- `translate_dmb_dsb_isb` -/
def translateDmbDsbIsb (env : Env) (op : BitVec 32) : List Code :=
  if env.strictMemoryOrdering then
    [if op == 0xd50330bf || op == 0xd503309f then emitMfence else emitLfence]
  else
    [[0xf0, 0x83, 0x04, 0x24, 0x00]]

/-- `translate_svc`: the arguments go through the stack. -/
def translateSvc : List Code :=
  [[0x48, 0x81, 0xec, 64, 0, 0, 0],
    emitLoadArmReg 8 r11 true, [0x4c, 0x89, 0x04, 0x24],
    emitLoadArmReg 0 rax true, [0x48, 0x89, 0x44, 0x24, 0x08],
    emitLoadArmReg 1 rdi true, [0x48, 0x89, 0x7c, 0x24, 0x10],
    emitLoadArmReg 2 rsi true, [0x48, 0x89, 0x74, 0x24, 0x18],
    emitLoadArmReg 3 rdx true, [0x48, 0x89, 0x54, 0x24, 0x20],
    emitLoadArmReg 4 r8 true, [0x4c, 0x89, 0x44, 0x24, 0x28],
    emitLoadArmReg 5 r9 true, [0x4c, 0x89, 0x4c, 0x24, 0x30],
    [0x4c, 0x8b, 0x04, 0x24], [0x49, 0x89, 0xc0],
    [0x48, 0x8b, 0x44, 0x24, 0x08], [0x48, 0x89, 0xc7],
    [0x48, 0x8b, 0x74, 0x24, 0x10],
    [0x48, 0x8b, 0x74, 0x24, 0x18],
    [0x48, 0x8b, 0x54, 0x24, 0x20], [0x4c, 0x89, 0xd2],
    [0x4c, 0x8b, 0x44, 0x24, 0x28],
    [0x4c, 0x8b, 0x4c, 0x24, 0x30],
    emitSyscall, [0x48, 0x81, 0xc4, 64, 0, 0, 0], emitStoreArmReg rax 0 true]

/-- The system register number `translate_mrs` and `translate_msr` switch on: 17 bits, while the
cases of their switches are whole instruction words. -/
def sysreg (op : BitVec 32) : BitVec 64 :=
  (fieldAt op 19 3 <<< 14) ||| (fieldAt op 16 3 <<< 11) ||| (fieldAt op 12 4 <<< 7) |||
    (fieldAt op 8 4 <<< 3) ||| fieldAt op 5 3

/-- `translate_mrs` -/
def translateMrs (env : Env) (op : BitVec 32) : List Code :=
  let rt := armReg op 0
  if sysreg op == 0xd530001f then
    [[0x50 + 0], [0x50 + 1], [0x50 + 2], [0x50 + 8], [0x50 + 9],
      0x48 :: 0xb8 :: imm64 env.mrsTpidrEl0, [0xff, 0xd0], emitStoreArmReg rax rt true,
      [0x58 + 9], [0x58 + 8], [0x58 + 2], [0x58 + 1], [0x58 + 0]]
  else if sysreg op == 0xd530002f then
    [[0x50], 0x48 :: 0xb8 :: imm64 env.mrsTpidrroEl0, [0xff, 0xd0], emitStoreArmReg rax rt true,
      [0x58]]
  else if sysreg op == 0xd5304000 then
    [[0x9c], [0x58], emitStoreArmReg rax rt true]
  else if sysreg op == 0xd5304001 then
    [movR64Imm rax 0x1f80, emitStoreArmReg rax rt true]
  else if sysreg op == 0xd5304002 then
    [xorR64R64 rax rax, emitStoreArmReg rax rt true]
  else if sysreg op == 0xd5300000 then
    [[0x0f, 0x31], shlR64Imm8 rdx 32, orR64R64 rdx rax, emitStoreArmReg rdx rt true]
  else
    [xorR64R64 rax rax, emitStoreArmReg rax rt true]

/-- What an emission step leaves in the output: instructions, or data among them. -/
inductive Item where
  | code (bytes : Code)
  | data (bytes : List Byte)
deriving DecidableEq, Repr

/-- The bytes of an item. -/
def Item.bytes : Item → List Byte
  | .code bytes | .data bytes => bytes

/-- `translate_msr` -/
def translateMsr (env : Env) (op : BitVec 32) : List Item :=
  let rt := armReg op 0
  if sysreg op == 0xd510001f then
    ([[0x50], [0x51], [0x52], [0x57], [0x56], [0x53], emitLoadArmReg rt rdi true,
      [0xff, 0x15, 0x00, 0x00, 0x00, 0x00]] : List Code).map .code ++
      .data (imm64 env.msrTpidrEl0) ::
      ([[0x5b], [0x5e], [0x5f], [0x5a], [0x59], [0x58]] : List Code).map .code
  else if sysreg op == 0xd5104000 then
    ([emitLoadArmReg rt rax true, [0x50], [0x9d]] : List Code).map .code
  else if sysreg op == 0xd5104001 then
    ([emitLoadArmReg rt rax true, [0x0f, 0xae, modrm 3 3 (rax &&& 7)]] : List Code).map .code
  else
    []

/-- `translate_hint` -/
def translateHint (op : BitVec 32) : List Code :=
  let crm : BitVec 4 := op.extractLsb' 8 4
  let op2 : BitVec 3 := op.extractLsb' 5 3
  if crm == 0 then
    if op2 == 1 || op2 == 2 || op2 == 3 then [[0xf3, 0x90]] else [[0x90]]
  else if crm == 1 then
    if op2 == 0 then [[0xcc]] else [[0x90]]
  else if crm == 2 then [[0x0f, 0xae, 0xe8]]
  else [[0x90]]

def translateBrk : List Code := [[0xcc]]
def translateHlt : List Code := [[0xf4]]

/-- `translate_eret` -/
def translateEret : List Code := [emitLoadArmReg 30 rax true, [0xff, modrm 3 4 (rax &&& 7)]]

end Arm2x86.Translate
