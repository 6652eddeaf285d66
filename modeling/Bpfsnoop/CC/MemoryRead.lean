/-
Bpfsnoop.CC.MemoryRead — the code that walks a chain of offsets.

`accessOffset` is one step of a chain. The three read modes each have
their own loop over the steps: `probeReadOffsets`, `directReadOffsets`,
`coreReadOffsets`. A Go loop over `offsets` with an index is a recursion
over the list here; the last step is the one with nothing behind it.
-/
import Bpfsnoop.CC.Compiler

namespace Bpfsnoop.CC

open Ebpf Btf Reg

/-- `accessOffset`. -/
structure AccessOffset where
  btf : BtfType
  prev : Option BtfType
  offset : Word
  address : Bool
  inArray : Bool := false
  deriving DecidableEq, Repr

def allAddress (offsets : List AccessOffset) : Bool := offsets.all (·.address)

/-! ## Questions about types -/

/-- `getPointerTypeID`: by identity, else the first struct or union of
the name in the spec. -/
def getPointerTypeID (spec : Spec) (t : BtfType) : Except GoError Nat :=
  match spec.typeID t with
  | some id => .ok id
  | none =>
    let typeName := match t with
      | .struct name _ => name
      | .union name _ => name
      | _ => ""
    let sameName : BtfType → Bool
      | .struct name _ => name = typeName
      | .union name _ => name = typeName
      | _ => false
    match spec.all.find? sameName with
    | some val =>
      match spec.typeID val with
      | some id => .ok id
      | none => .error (.errorf "type %s: not found in spec" [.type val])
    | none => .error (.wrapf "failed to find pointer type for %v: %w" [.type t] .btfNotFound)

/-- `canRdonlyCast`: the type id to cast to, if `t` is a pointer to a
struct or union. -/
def canRdonlyCast (spec : Spec) (t : Option BtfType) : Except GoError (Option Nat) :=
  match t.bind pointerTarget? with
  | none => .ok none
  | some target =>
    match underlyingType target with
    | .struct name ref => (getPointerTypeID spec (.struct name ref)).map some
    | .union name ref => (getPointerTypeID spec (.union name ref)).map some
    | _ => .ok none

/-- `canReadByRdonlyCast`. -/
def canReadByRdonlyCast (t : BtfType) : Bool :=
  match underlyingType t with
  | .pointer _ | .int .. | .enum .. => true
  | _ => false

/-- `sizeof`: the load size for a type, 8 bytes when no load has its
size. -/
def loadSize (heap : Heap) (t : BtfType) : Except GoError Size :=
  match sizeof heap t with
  | none => .error (.errorf "failed to get size of %v: %w" [.type t])
  | some 1 => .ok .byte
  | some 2 => .ok .half
  | some 4 => .ok .word
  | some _ => .ok .dword

/-! ## Direct reads -/

/-- `directReadOffsets`; `labelExitUsed` is left as it is. -/
def directReadOffsets (c : Compiler) (reg : Reg) : List AccessOffset → CodeM Unit
  | [] => pure ()
  | o :: rest => do
    if o.address then
      if o.offset ≠ 0 then
        emit [Asm.addImm reg (int32 o.offset)]
    else
      emit [Asm.loadMem reg reg (int16 o.offset) .dword]
      if rest ≠ [] then
        emit [Asm.jeqImm reg 0 c.labelExit]
    directReadOffsets c reg rest

/-! ## Probe reads -/

/-- The loop of `probeReadOffsets`, on `r3`. -/
def probeReadLoop (c : Compiler) (reg : Reg) : List AccessOffset → CodeM Unit
  | [] => pure ()
  | o :: rest => do
    if o.offset ≠ 0 then
      emit [Asm.addImm R3 (int32 o.offset)]
    if o.address then
      if rest = [] ∧ reg ≠ R3 then
        emit [Asm.movReg reg R3]
    else
      emit [Asm.movImm R2 8, Asm.movReg R1 RFP, Asm.addImm R1 (-8), Op.call .probeReadKernel]
      if rest ≠ [] then
        useLabelExit
        emit [Asm.loadMem R3 RFP (-8) .dword, Asm.jeqImm R3 0 c.labelExit]
      else
        emit [Asm.loadMem reg RFP (-8) .dword]
    probeReadLoop c reg rest

/-- `probeReadOffsets`, which `offset2insns` calls on a chain with a load
in it. -/
def probeReadOffsets (c : Compiler) (offsets : List AccessOffset) (reg : Reg) : CodeM Unit := do
  if allAddress offsets then
    emit (offsets.map fun o => Asm.addImm reg (int32 o.offset))
  else
    pushUsedCallerSavedRegs c
    if reg ≠ R3 then
      emit [Asm.movReg R3 reg]
    probeReadLoop c reg offsets
    popUsedCallerSavedRegs c

/-! ## CO-RE reads -/

/-- `coreReadByProbeRead`. The offset of the step is not among the
instructions. -/
def coreReadByProbeRead (reg : Reg) (lastIdx : Bool) : CodeM Unit :=
  let immReg := R1
  let resReg := if lastIdx ∧ reg ≠ immReg then reg else immReg
  emit [Asm.movReg R3 immReg, Asm.movImm R2 8, Asm.movReg R1 RFP, Asm.addImm R1 (-8),
    Op.call .probeReadKernel, Asm.loadMem resReg RFP (-8) .dword]

/-- The loop of `coreReadOffsets`, on `r1`. -/
def coreReadLoop (c : Compiler) (reg : Reg) : List AccessOffset → CodeM Unit
  | [] => pure ()
  | o :: rest => do
    if o.address then
      if o.offset ≠ 0 then
        emit [Asm.addImm R1 (int32 o.offset)]
      if rest = [] ∧ reg ≠ R1 then
        emit [Asm.movReg reg R1]
    else
      match ← wrapping "failed to check if %v can be bpf_rdonly_cast"
          (lift (canRdonlyCast c.btfSpec o.prev)) with
      | none => coreReadByProbeRead reg (rest = [])
      | some typID =>
        let size ← wrapping "failed to get size of btf type %v" (lift (loadSize c.heap o.btf))
        if !canReadByRdonlyCast o.btf || o.inArray then
          coreReadByProbeRead reg (rest = [])
        else if rest ≠ [] then
          emit [Asm.movImm R2 (int32 (BitVec.ofNat 64 typID)), Op.callKfunc c.rdonlyCastTypeID,
            Asm.loadMem R1 R0 (int16 o.offset) size, Asm.jeqImm R1 0 c.labelExit]
          useLabelExit
        else
          emit [Asm.movImm R2 (int32 (BitVec.ofNat 64 typID)), Op.callKfunc c.rdonlyCastTypeID,
            Asm.loadMem reg R0 (int16 o.offset) size]
    coreReadLoop c reg rest

/-- `regsNr` of `coreReadOffsets`. -/
def coreRegsNr (c : Compiler) : Nat := if c.rdonlyCastFastcall then 2 else 5

/-- `coreReadOffsets`. -/
def coreReadOffsets (c : Compiler) (offsets : List AccessOffset) (reg : Reg) : CodeM Unit := do
  pushUsedCallerSavedRegsN c (coreRegsNr c)
  if reg ≠ R1 then
    emit [Asm.movReg R1 reg]
  coreReadLoop c reg offsets
  popUsedCallerSavedRegsN c (coreRegsNr c)

/-! ## The dispatch, and the adjustment of the result -/

/-- `offset2insns`. -/
def offset2insns (c : Compiler) (offsets : List AccessOffset) (reg : Reg) : CodeM Unit :=
  if offsets = [] then pure ()
  else if allAddress offsets then
    emit (offsets.map fun o => Asm.addImm reg (int32 o.offset))
  else
    match c.memMode with
    | .coreRead => coreReadOffsets c offsets reg
    | .directRead => directReadOffsets c reg offsets
    | .probeRead => probeReadOffsets c offsets reg

/-- `isMemberBitfield`. -/
def isMemberBitfield (member : Option Member) : Bool :=
  match member with
  | some m => m.bitfieldSize ≠ 0
  | none => false

/-- The mask of `bitfield2insns`, a `uint64`: a shift by 64 or more gives
0, and the mask is then all ones. -/
def bitfieldMask (member : Member) : Word := (1 : Word) <<< member.bitfieldSize - 1

/-- `bitfield2insns`. -/
def bitfield2insns (member : Member) (reg : Reg) : List Op :=
  let delta := BitVec.ofNat 64 (member.offset % 8)
  (if delta ≠ 0 then [Asm.rshImm reg (int32 delta)] else [])
    ++ [Asm.andImm reg (int32 (bitfieldMask member))]

/-- `adjustRegisterBitwise` on a register value of type `t`; the error it
returns for other sizes is ignored by its caller. -/
def adjustRegisterBitwise (heap : Heap) (t : BtfType) (reg : Reg) : List Op :=
  match sizeof heap t with
  | some 1 => [Asm.andImm reg 0xFF]
  | some 2 => [Asm.andImm reg 0xFFFF]
  | some 4 => [Asm.lshImm reg 32, Asm.rshImm reg 32]
  | _ => []

end Bpfsnoop.CC
