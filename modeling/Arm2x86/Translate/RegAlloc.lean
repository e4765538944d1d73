import Arm2x86.X86.Emit
import Mathlib.Logic.Function.Basic
import Mathlib.Data.List.FinRange

/-!
# The register allocator

`modules/arm2x86_translate64.c:307`: guest registers live in the register home, 32 slots of eight
bytes behind `RBP`, and are cached in host registers taken from a stack of free ones. Each
function returns the new allocator with the code it emits, one byte list an instruction.
-/

namespace Arm2x86.Translate

open X86

/-- Guest register numbers, the index of `reg_alloc`. -/
abbrev ArmReg := Fin 32

instance neZeroRegs : NeZero 32 := ⟨by decide⟩

/-- The bytes of one emitted instruction. -/
abbrev Code := List Byte

/-- `0xff`, the host register of a guest register that is in memory. -/
def noReg : Byte := 0xff

/-- `REG_ALLOC_COUNT`. -/
def regAllocCount : Int := 9

/-- `reg_alloc_map`. -/
def regAllocMap : List Byte := [rax, rcx, rdx, rsi, rdi, r8, r9, r10, r11]

/-- `arm_reg_priority`. -/
def armRegPriority (r : ArmReg) : Nat :=
  [100, 100, 90, 90, 80, 80, 70, 70, 60, 50, 50, 50, 50, 50, 50, 50,
    40, 40, 40, 40, 40, 40, 40, 40, 30, 30, 30, 30, 30, 30, 30, 30].getD r 0

/-- `ARM_REG_OFFSET`. -/
def armRegOffset (r : ArmReg) : BitVec 32 := BitVec.ofNat 32 (r * 8)

/-- `emit_load_arm_reg`: `mov x86_reg, [rbp + offset]`. The 32-bit form has no prefix at all. -/
def emitLoadArmReg (armReg : ArmReg) (x86Reg : Byte) (is64bit : Bool) : Code :=
  (if is64bit then [if 8 ≤ x86Reg then 0x48 ||| 0x04 else 0x48] else []) ++
    0x8b :: modrm 2 (x86Reg &&& 7) 5 :: imm32 (armRegOffset armReg)

/-- `emit_store_arm_reg`: `mov [rbp + offset], x86_reg`. The prefix extends the base and not the
register. -/
def emitStoreArmReg (x86Reg : Byte) (armReg : ArmReg) (is64bit : Bool) : Code :=
  (if is64bit then [if 8 ≤ x86Reg then 0x48 ||| 0x01 else 0x48] else []) ++
    0x89 :: modrm 2 (x86Reg &&& 7) 5 :: imm32 (armRegOffset armReg)

/-- `RegAllocEntry`, the fields the allocator reads. -/
structure RegAllocEntry where
  x86Reg : Byte
  dirty : Bool
  is64bit : Bool
deriving DecidableEq, Repr

/-- The allocator's part of `TranslateCtx`. `freeRegs` is the array, of which the first
`freeRegCount` elements are the stack. -/
structure Alloc where
  regAlloc : ArmReg → RegAllocEntry
  freeRegs : Int → Byte
  freeRegCount : Int

namespace Alloc

/-- Whether a guest register is cached. -/
def cached (a : Alloc) (r : ArmReg) : Bool := (a.regAlloc r).x86Reg != noReg

/-- `reg_alloc[r].x86_reg = x`. -/
def setX86Reg (a : Alloc) (r : ArmReg) (x : Byte) : Alloc :=
  { a with regAlloc := Function.update a.regAlloc r { a.regAlloc r with x86Reg := x } }

/-- `reg_alloc[r].dirty = d`. -/
def setDirty (a : Alloc) (r : ArmReg) (d : Bool) : Alloc :=
  { a with regAlloc := Function.update a.regAlloc r { a.regAlloc r with dirty := d } }

end Alloc

/-- `reg_alloc_init`. -/
def regAllocInit : Alloc where
  regAlloc := fun _ ↦ { x86Reg := noReg, dirty := false, is64bit := true }
  freeRegs := fun i ↦ regAllocMap.getD i.toNat noReg
  freeRegCount := regAllocCount

/-- `reg_alloc_get_free`. -/
def regAllocGetFree (a : Alloc) : Alloc × Byte :=
  if a.freeRegCount == 0 then
    (a, noReg)
  else
    ({ a with freeRegCount := a.freeRegCount - 1 }, a.freeRegs (a.freeRegCount - 1))

/-- `reg_alloc_free`. -/
def regAllocFree (a : Alloc) (x86Reg : Byte) : Alloc :=
  if a.freeRegCount < regAllocCount then
    { a with
      freeRegs := Function.update a.freeRegs a.freeRegCount x86Reg
      freeRegCount := a.freeRegCount + 1 }
  else
    a

/-- `reg_alloc_assign`. -/
def regAllocAssign (a : Alloc) (armReg : ArmReg) (x86Reg : Byte) (is64bit : Bool) : Alloc :=
  { a with regAlloc := Function.update a.regAlloc armReg { x86Reg, dirty := false, is64bit } }

/-- The scan of `reg_alloc_get_reg` for the cached register of least priority, the first of
them. -/
def spillIdx (a : Alloc) : Option ArmReg :=
  ((List.finRange 32).foldl (fun (best : Option ArmReg × Nat) i ↦
    if a.cached i && armRegPriority i < best.2 then (some i, armRegPriority i) else best)
    (none, 255)).1

/-- The way `reg_alloc_get_reg` went. -/
inductive GetRegPath where
  | cached
  | allocated
  | spilled
  | fallback
deriving DecidableEq, Repr

/-- What `reg_alloc_get_reg` returns and emits. -/
structure GetReg where
  x86Reg : Byte
  code : List Code
  path : GetRegPath

/-- The end of both allocating branches: assign, load, and mark. -/
def regAllocPlace (a : Alloc) (armReg : ArmReg) (x86Reg : Byte) (is64bit markDirty : Bool) :
    Alloc × Code :=
  let a := regAllocAssign a armReg x86Reg is64bit
  (if markDirty then a.setDirty armReg true else a, emitLoadArmReg armReg x86Reg is64bit)

/-- `reg_alloc_get_reg`. -/
def regAllocGetReg (a : Alloc) (armReg : ArmReg) (is64bit markDirty : Bool) : Alloc × GetReg :=
  if a.cached armReg then
    (if markDirty then a.setDirty armReg true else a,
      ⟨(a.regAlloc armReg).x86Reg, [], .cached⟩)
  else
    let (a, x86Reg) := regAllocGetFree a
    if x86Reg != noReg then
      let (a, load) := regAllocPlace a armReg x86Reg is64bit markDirty
      (a, ⟨x86Reg, [load], .allocated⟩)
    else
      match spillIdx a with
      | none => (a, ⟨rax, [], .fallback⟩)
      | some i =>
        let spilled := a.regAlloc i
        let store := if spilled.dirty then [emitStoreArmReg spilled.x86Reg i spilled.is64bit] else []
        let a := regAllocFree (a.setX86Reg i noReg) spilled.x86Reg
        let (a, x86Reg) := regAllocGetFree a
        if x86Reg != noReg then
          let (a, load) := regAllocPlace a armReg x86Reg is64bit markDirty
          (a, ⟨x86Reg, store ++ [load], .spilled⟩)
        else
          (a, ⟨rax, store, .fallback⟩)

/-- The store a dirty guest register needs. -/
def storeIfDirty (a : Alloc) (r : ArmReg) : List Code :=
  if (a.regAlloc r).dirty then
    [emitStoreArmReg (a.regAlloc r).x86Reg r (a.regAlloc r).is64bit]
  else
    []

/-- The first half of `reg_alloc_ensure_fixed`: the first other guest register found in the
wanted host register is written back and evicted. -/
def evictFrom (a : Alloc) (armReg : ArmReg) (x86Reg : Byte) : Alloc × List Code :=
  match (List.finRange 32).find? fun i ↦ (a.regAlloc i).x86Reg == x86Reg && i != armReg with
  | none => (a, [])
  | some i => (regAllocFree (a.setX86Reg i noReg) x86Reg, storeIfDirty a i)

/-- `reg_alloc_ensure_fixed`. The width it is called with is not used. -/
def regAllocEnsureFixed (a : Alloc) (armReg : ArmReg) (x86Reg : Byte) : Alloc × List Code :=
  if (a.regAlloc armReg).x86Reg == x86Reg then
    (a, [])
  else
    let (a, evicted) := evictFrom a armReg x86Reg
    let (a, released) :=
      if a.cached armReg then
        (regAllocFree a (a.regAlloc armReg).x86Reg, storeIfDirty a armReg)
      else
        (a, [])
    (regAllocAssign a armReg x86Reg true,
      evicted ++ released ++ [emitLoadArmReg armReg x86Reg true])

/-- `reg_alloc_setup_calling_convention`: `X29` is kept in `RBP`. -/
def regAllocSetupCallingConvention (a : Alloc) : Alloc × List Code := regAllocEnsureFixed a 29 rbp

/-- `reg_alloc_emit_batch_store`. -/
def regAllocEmitBatchStore (a : Alloc) : List ArmReg → Alloc × List Code
  | [] => (a, [])
  | r :: rs =>
    if a.cached r && (a.regAlloc r).dirty then
      let (a', code) := regAllocEmitBatchStore (a.setDirty r false) rs
      (a', storeIfDirty a r ++ code)
    else
      regAllocEmitBatchStore a rs

/-- `reg_alloc_compute_live_out`: the cached ones among `X0` to `X7`. -/
def regAllocComputeLiveOut (a : Alloc) : List ArmReg :=
  ([0, 1, 2, 3, 4, 5, 6, 7] : List ArmReg).filter a.cached

/-- The allocator calls of `translate_mov_imm`: a free register is assigned to the destination,
whatever the destination was assigned to before, and marked dirty. -/
def regAllocTakeFor (a : Alloc) (rd : ArmReg) (is64bit : Bool) : Alloc × Byte :=
  let (a, x86Reg) := regAllocGetFree a
  if x86Reg != noReg then
    ((regAllocAssign a rd x86Reg is64bit).setDirty rd true, x86Reg)
  else
    (a, x86Reg)

end Arm2x86.Translate
