/-
Bpfsnoop.Trace.FuncArgs — the arguments of a traced function in its record.

`getFuncParams` classifies the parameters of a prototype, one entry for
each argument register. `genOutputFuncArgs` generates the subprogram
`output_fn_args(args, buff, retval)`, which writes the arguments behind
the header of the record; `outputFnArgs` reads them back in user space.
Each of the two walks the entries with an offset of its own.

`mybtf.IsConstCharPtr` is a parameter. The `FuncParamFlags` of Go embed
`ParamFlags`; the fields are flat here. A Go string is its bytes.
-/
import Bpfsnoop.CC.Compiler
import Bpfsnoop.Ebpf.Memory

namespace Bpfsnoop.Trace

open Ebpf Btf Reg CC

/-! ## Classification -/

/-- `btf.FuncProto`. -/
structure FuncProto where
  params : List FuncParam
  ret : BtfType

/-- `FuncParamFlags`. -/
structure FuncParamFlags where
  isNumberPtr : Bool := false
  isStr : Bool := false
  partOfPrevParam : Bool := false
  deriving DecidableEq, Repr

/-- `btfx.IsNumberPointer`. -/
def isNumberPointer (t : BtfType) : Bool :=
  match (pointerTarget? t).map underlyingType with
  | some (.int ..) | some (.enum ..) => true
  | _ => false

section Classify

variable (heap : Heap) (isConstCharPtr : BtfType → Bool)

/-- The loop of `getFuncParams`; only one string is allowed. -/
def classifyParams (strUsed : Bool) : List FuncParam → Except GoError (List FuncParamFlags)
  | [] => .ok []
  | p :: ps =>
    let v := isConstCharPtr p.type
    match sizeof heap p.type with
    | none => .error (.errorf "failed to get size of type %v: %w" [.type p.type])
    | some size =>
      if size > 16 then
        .error (.errorf "size of type %v is too large: %d" [.type p.type, .num (BitVec.ofNat 64 size)])
      else
        let slots : List FuncParamFlags :=
          -- a struct argument occupies two registers
          if size > 8 then [{}, { partOfPrevParam := true }]
          else [{ isNumberPtr := isNumberPointer p.type, isStr := v && !strUsed }]
        (classifyParams (strUsed || v) ps).map (slots ++ ·)

/-- `getFuncParams`. -/
def getFuncParams (proto : FuncProto) : Except GoError (List FuncParamFlags × FuncParamFlags) :=
  match classifyParams heap isConstCharPtr false proto.params with
  | .error e => .error e
  | .ok params =>
    .ok (params, { isNumberPtr := isNumberPointer proto.ret, isStr := isConstCharPtr proto.ret })

end Classify

/-! ## The encoder -/

def maxOutputStrLen : Nat := 64

abbrev regArg : Reg := R3
abbrev regArgs : Reg := R6
abbrev regBuff : Reg := R7
abbrev regRet : Reg := R8

/-- What one value takes in the buffer. -/
def FuncParamFlags.size (prm : FuncParamFlags) : Nat :=
  if prm.isStr then maxOutputStrLen else if prm.isNumberPtr then 16 else 8

/-- The code that outputs the value in `reg` at `offset`. `toArg` moves the
value to `r3` where it is not there already. -/
def outputValue (reg : Reg) (toArg : List Insn) (offset : Nat) (prm : FuncParamFlags) : List Insn :=
  let storeAt (offset : Nat) : List Insn :=
    [Asm.storeMem regBuff (int16 (BitVec.ofNat 64 offset)) reg .dword]
  let toBuff : List Insn := [Asm.movImm R2 (BitVec.ofNat 64 maxOutputStrLen), Asm.movReg R1 regBuff]
  let advance : List Insn := [Asm.addImm R1 (int32 (BitVec.ofNat 64 offset))]
  let readStr : List Insn := [Op.call .probeReadKernelStr]
  let readNumber : List Insn := [Asm.movImm R2 8, Asm.movReg R1 RFP, Asm.addImm R1 (-8),
    Op.call .probeReadKernel, Asm.loadMem reg RFP (-8) .dword]
  if prm.isStr then
    toArg ++ toBuff ++ (if offset ≠ 0 then advance else []) ++ readStr
  else if prm.isNumberPtr then storeAt offset ++ toArg ++ readNumber ++ storeAt (offset + 8)
  else storeAt offset

/-- One parameter. -/
def outputParam (i offset : Nat) (prm : FuncParamFlags) : List Insn :=
  (Asm.loadMem regArg regArgs (int16 (BitVec.ofNat 64 (i * 8))) .dword : Insn) ::
    outputValue regArg [] offset prm

/-- The loop of `genOutputFuncArgs`: the code of the parameters from the
`i`-th on, and the offset behind them. -/
def outputParams (i offset : Nat) : List FuncParamFlags → List Insn × Nat
  | [] => ([], offset)
  | prm :: prms =>
    let (insns, size) := outputParams (i + 1) (offset + prm.size) prms
    (outputParam i offset prm ++ insns, size)

/-- The return value. -/
def outputRetval (offset : Nat) (ret : FuncParamFlags) : List Insn :=
  outputValue regRet [Asm.movReg R3 regRet] offset ret

def backupRegs : List Insn := [Asm.movReg regArgs R1, Asm.movReg regBuff R2, Asm.movReg regRet R3]

/-- `genOutputFuncArgs`: the code of `output_fn_args` and the size of what
it writes. -/
def genOutputFuncArgs (prms : List FuncParamFlags) (ret : FuncParamFlags) (withRetval : Bool) :
    List Insn × Nat :=
  let (insns, offset) := outputParams 0 0 prms
  if withRetval then
    (backupRegs ++ insns ++ outputRetval offset ret ++ [{ op := .exit }], offset + ret.size)
  else (backupRegs ++ insns ++ [{ op := .exit }], offset)

/-- The size `injectOutputFuncArgs` returns; it leaves `output_fn_args` an
empty stub when there is nothing to output. -/
def injectOutputFuncArgs (prms : List FuncParamFlags) (ret : FuncParamFlags) (withRetval : Bool) :
    Nat :=
  if prms.length = 0 ∧ !withRetval then 0 else (genOutputFuncArgs prms ret withRetval).2

/-! ## The decoder -/

/-- `getU64`, which reads eight bytes and checks that there is one. What
lies behind a shorter slice is not modelled. -/
def getU64 (data : List Byte) : Except GoError Word :=
  if data.length < 8 then .error (.panic "index out of range")
  else .ok (loadLE (fun a => data.getD a.toNat 0) 0 8)

/-- `readUint64`. -/
def readUint64 (data : List Byte) : Except GoError (Word × List Byte) := do
  return (← getU64 data, data.drop 8)

/-- `strx.NullTerminated`. -/
def nullTerminated (b : List Byte) : List Byte := b.takeWhile (· ≠ 0)

/-- A Go string of bytes. -/
def goString (bs : List Byte) : String := String.ofList (bs.map fun b => Char.ofNat b.toNat)

/-- `readStr`. -/
def readStr (data : List Byte) : Except GoError (List Byte × List Byte) :=
  if data.length < maxOutputStrLen then .error (.panic "slice bounds out of range")
  else .ok (nullTerminated (data.take maxOutputStrLen), data.drop maxOutputStrLen)

/-- What is printed of a parameter: `arg`, `argVal`, `valNext`, `argStr`. -/
structure ParamValue where
  arg : Word := 0
  argVal : Word := 0
  valNext : Word := 0
  argStr : List Byte := []
  deriving DecidableEq

/-- One round of `outputFnArgs`, on an entry that is no second register. -/
def outputFnArg (i : Nat) (lastIdx : Int) (param : FuncParamFlags) (data : List Byte) :
    Except GoError (ParamValue × List Byte) := do
  let (value, data) ←
    if param.isStr then do
      let (argStr, data) ← readStr data
      pure ({ argStr := argStr : ParamValue }, data)
    else do
      let (arg, data) ← readUint64 data
      if param.isNumberPtr then do
        let (argVal, data) ← readUint64 data
        pure ({ arg := arg, argVal := argVal : ParamValue }, data)
      else pure ({ arg := arg : ParamValue }, data)
  if (i : Int) < lastIdx then do
    let valNext ← getU64 data
    pure ({ value with valNext := valNext }, data)
  else pure (value, data)

/-- The loop of `outputFnArgs` over the entries, from the `i`-th on; what
is printed of each parameter, and the data behind. -/
def outputFnArgsLoop (lastIdx : Int) (i : Nat) (data : List Byte) :
    List FuncParamFlags → Except GoError (List ParamValue × List Byte)
  | [] => .ok ([], data)
  | param :: params => do
    -- the register of a second half is not consumed
    if param.partOfPrevParam then outputFnArgsLoop lastIdx (i + 1) data params
    else do
      let (value, data) ← outputFnArg i lastIdx param data
      let (values, data) ← outputFnArgsLoop lastIdx (i + 1) data params
      pure (value :: values, data)

/-- What is printed of a return value: the action of an XDP or TC program,
else `num1`, `num2` and the string. -/
inductive RetValue where
  | action (code : BitVec 32)
  | value (num1 num2 : Word) (str : List Byte)
  deriving DecidableEq

/-- `outputFnRetval`, with the prototype known. -/
def outputFnRetval (isAction : Bool) (str : List Byte) (data : List Byte) : Except GoError RetValue :=
  let b := fun a : Word => (data.take 24).getD a.toNat 0
  if isAction then
    if data.length < 4 then .error (.panic "index out of range")
    else .ok (.action ((loadLE b 0 4).setWidth 32))
  else .ok (.value (loadLE b 0 8) (loadLE b 8 8) str)

/-- `outputFnArgs` on the data of the arguments: `nParams` parameters in
the prototype, `slots` as `getFuncParams` gives them. `isAction` tells an
XDP or TC program. -/
def outputFnArgs (nParams : Nat) (slots : List FuncParamFlags) (ret : FuncParamFlags) (isAction : Bool)
    (withRetval : Bool) (data : List Byte) : Except GoError (List ParamValue × Option RetValue) := do
  let (values, data) ← outputFnArgsLoop ((nParams : Int) - 1) 0 data slots
  if !withRetval then pure (values, none)
  else do
    let retStr ← if ret.isStr then (·.1) <$> readStr data else pure []
    let retval ← outputFnRetval isAction retStr data
    pure (values, some retval)

/-! ## The code and its size -/

theorem outputParams_cons_fst (i offset : Nat) (prm : FuncParamFlags) (prms : List FuncParamFlags) :
    (outputParams i offset (prm :: prms)).1 =
      outputParam i offset prm ++ (outputParams (i + 1) (offset + prm.size) prms).1 := rfl

theorem genOutputFuncArgs_fst (prms : List FuncParamFlags) (ret : FuncParamFlags) (withRetval : Bool) :
    (genOutputFuncArgs prms ret withRetval).1 = backupRegs ++ (outputParams 0 0 prms).1 ++
      ((if withRetval then outputRetval (outputParams 0 0 prms).2 ret else []) ++ [{ op := .exit }]) := by
  cases withRetval <;> simp [genOutputFuncArgs]

@[simp] theorem outputParams_snd (prms : List FuncParamFlags) (i offset : Nat) :
    (outputParams i offset prms).2 = offset + (prms.map FuncParamFlags.size).sum := by
  induction prms generalizing i offset with
  | nil => rfl
  | cons prm prms ih =>
    rw [outputParams]
    simp only [ih, List.map_cons, List.sum_cons]
    omega

/-- The size is the sum of the sizes of the values. -/
theorem genOutputFuncArgs_snd (prms : List FuncParamFlags) (ret : FuncParamFlags) (withRetval : Bool) :
    (genOutputFuncArgs prms ret withRetval).2 =
      (prms.map FuncParamFlags.size).sum + if withRetval then ret.size else 0 := by
  cases withRetval <;> simp [genOutputFuncArgs]

theorem FuncParamFlags.size_le (prm : FuncParamFlags) : prm.size ≤ 64 := by
  unfold FuncParamFlags.size maxOutputStrLen
  split
  · exact Nat.le_refl 64
  · split <;> decide

/-- `injectOutputFuncArgs` returns the size, also of the empty stub. -/
theorem injectOutputFuncArgs_eq (prms : List FuncParamFlags) (ret : FuncParamFlags)
    (withRetval : Bool) :
    injectOutputFuncArgs prms ret withRetval = (genOutputFuncArgs prms ret withRetval).2 := by
  unfold injectOutputFuncArgs
  split
  · rename_i h
    obtain ⟨hlen, hret⟩ := h
    rw [List.length_eq_zero_iff] at hlen
    rw [Bool.not_eq_true'] at hret
    simp [genOutputFuncArgs_snd, hlen, hret]
  · rfl

end Bpfsnoop.Trace
