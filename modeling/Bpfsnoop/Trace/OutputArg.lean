/-
Bpfsnoop.Trace.OutputArg — the output arguments of a traced function.

An output argument is an expression whose value goes into the record.
`funcArgumentOutput.compile` puts the code that writes the value behind
the code of the expression, and behind that the byte that tells whether a
NULL pointer was met: 0 where the code falls through, 1 behind the exit
label. `matchParams` compiles the arguments one after the other, each
with a label and a place in the buffer of its own.

Go keeps the kind of an argument in a boolean for each; here it is the
`type` of the evaluated expression. `mybtf.IsConstCharPtr` and
`mybtf.IsCharArray` are parameters, and so is `cc.ExtractVarNames`.
-/
import Bpfsnoop.CC.EvalExpr
import Bpfsnoop.Trace.FuncArgs

namespace Bpfsnoop.Trace

open Ebpf Btf Reg CC

abbrev outputArgRegArgs : Reg := R9
abbrev outputArgRegBuff : Reg := R8

def argOutputStackOff : Word := 16

/-- `funcArgumentOutput`. -/
structure FuncArgumentOutput where
  expr : String
  vars : List String := []
  t : Option BtfType := none
  mem : Option Member := none
  insn : List Insn := []
  size : Word := 0
  trueDataSize : Word := 0
  isNumPtr : Bool := false
  isStr : Bool := false
  /-- `isDeref`, `isBuf`, `isString` and so on. -/
  type : EvalResultType := .default
  pktType : String := ""
  addrType : String := ""
  portType : String := ""
  intType : String := ""

/-! ## The code behind an expression -/

/-- Move the value to `r3`. -/
def moveToR3 (reg : Reg) : List Insn := if reg ≠ R3 then [Asm.movReg R3 reg] else []

/-- Read `size` bytes behind `r3` into the buffer at `offset`. -/
def readToBuff (fn : Helper) (offset size : Word) : List Insn :=
  if offset ≠ 0 then
    [Asm.movImm R2 (int32 size), Asm.movReg R1 outputArgRegBuff, Asm.addImm R1 (int32 offset),
      Op.call fn]
  else [Asm.movImm R2 (int32 size), Asm.movReg R1 outputArgRegBuff, Op.call fn]

/-- `genDerefInsns`: the code and the offset behind the value. -/
def genDerefInsns (res : EvalResult) (offset size : Word) (labelExit : String) : List Insn × Word :=
  ((Asm.jeqImm res.reg 0 labelExit : Insn) :: moveToR3 res.reg
    ++ readToBuff .probeReadKernel offset size, offset + size)

/-- `genBufInsns`. -/
def genBufInsns (res : EvalResult) (offset : Word) (labelExit : String) : List Insn × Word :=
  ((Asm.jeqImm res.reg 0 labelExit : Insn)
    :: (if res.off ≠ 0 then [(Asm.addImm res.reg (int32 res.off) : Insn)] else [])
    ++ moveToR3 res.reg
    ++ readToBuff (if res.type = .string then .probeReadKernelStr else .probeReadKernel) offset res.size,
    offset + res.size)

/-- The number behind a number pointer, 0 where it is NULL. -/
def readNumber (offset : Word) : List Insn :=
  [jmpOff .eq R3 0 5, Asm.movImm R2 8, Asm.movReg R1 outputArgRegBuff, Asm.addImm R1 (int32 offset),
    Op.call .probeReadKernel, ja 1, Asm.storeMem outputArgRegBuff (int16 offset) R3 .dword]

/-- What `genDefaultInsns` gives: its code, the offset behind the value,
and `res.LabelUsed`. -/
structure Generated where
  insns : List Insn
  offset : Word
  labelUsed : Bool

/-- `genDefaultInsns`. -/
def genDefaultInsns (isCharArray : BtfType → Bool) (arg : FuncArgumentOutput) (res : EvalResult)
    (btf : BtfType) (offset : Word) (size : Nat) (labelExit : String) : Except GoError Generated :=
  if !arg.isStr then
    if size = 0 ∨ size > 8 ∨ (res.mem.any fun m => m.bitfieldSize > 64) then
      .error (.errorf "invalid size of btf type %v: %d" [.type btf, .num (BitVec.ofNat 64 size)])
    else
      let store : Insn := Asm.storeMem outputArgRegBuff (int16 offset) res.reg .dword
      if arg.isNumPtr then
        .ok ⟨store :: moveToR3 res.reg ++ readNumber (offset + 8), offset + 16, res.labelUsed⟩
      else .ok ⟨[store], offset + 8, res.labelUsed⟩
  else
    let readStr (strSize : Word) : List Insn :=
      moveToR3 res.reg ++ readToBuff .probeReadKernelStr offset strSize
    if isCharArray btf then
      match underlyingType btf with
      | .array _ nelems =>
        let strSize := BitVec.ofNat 64 nelems
        .ok ⟨readStr strSize, offset + strSize, res.labelUsed⟩
      | _ => .error (.panic "invalid memory address or nil pointer dereference")
    else
      let strSize := BitVec.ofNat 64 maxOutputStrLen
      .ok ⟨(Asm.jeqImm res.reg 0 labelExit : Insn) :: readStr strSize, offset + strSize, true⟩

/-- The exception byte at `offset`. -/
def exceptionCode (offset : Word) (labelExit : String) (labelUsed : Bool) : List Insn :=
  if labelUsed then
    [Asm.movImm R0 0, ja 1, (Asm.movImm R0 1 : Insn).withSymbol labelExit,
      Asm.storeMem outputArgRegBuff (int16 offset) R0 .byte]
  else [Asm.movImm R0 0, Asm.storeMem outputArgRegBuff (int16 offset) R0 .byte]

section Compile

variable (parseExpr : String → Except GoError Expr) (isConstCharPtr isCharArray : BtfType → Bool)
  (heap : Heap) (forceProbeReadKernel : Bool)

/-- The switch over the kind of an evaluated expression. -/
def genInsnsOf (arg : FuncArgumentOutput) (res : EvalResult) (btf : BtfType) (offset : Word) (size : Nat)
    (labelExit : String) : Except GoError Generated :=
  match res.type with
  | .deref =>
    let (insns, offset) := genDerefInsns res offset (BitVec.ofNat 64 size) labelExit
    .ok ⟨insns, offset, true⟩
  | .buf | .string | .pkt | .addr | .port | .slice | .hex | .int =>
    let (insns, offset) := genBufInsns res offset labelExit
    .ok ⟨insns, offset, true⟩
  | .default | .hist | .tdigest => genDefaultInsns isCharArray arg res btf offset size labelExit

/-- The argument with what the evaluated expression says. -/
def FuncArgumentOutput.evaluated (arg : FuncArgumentOutput) (res : EvalResult) (btf : BtfType) :
    FuncArgumentOutput :=
  { arg with
    t := some btf
    mem := res.mem
    isNumPtr := isNumberPointer btf
    isStr := isConstCharPtr btf || isCharArray btf
    type := res.type
    pktType := res.pkt
    addrType := res.addr
    portType := res.port
    intType := res.int }

/-- `funcArgumentOutput.compile` behind `CompileEvalExpr`: the argument
with its code, and the offset behind it. -/
def writeResult (arg : FuncArgumentOutput) (res : EvalResult) (offset : Word) (labelExit : String) :
    Except GoError (FuncArgumentOutput × Word) :=
  match res.btf with
  | none => .error (.errorf "failed to get size of btf type %v: %w" [])
  | some btf =>
    match sizeof heap btf with
    | none => .error (.errorf "failed to get size of btf type %v: %w" [.type btf])
    | some size =>
      let arg := arg.evaluated isConstCharPtr isCharArray res btf
      match genInsnsOf isCharArray arg res btf offset size labelExit with
      | .error e => .error (.wrapf "failed to generate insns: %w" [] e)
      | .ok gen =>
        .ok ({ arg with
          insn := res.insns ++ gen.insns ++ exceptionCode gen.offset labelExit gen.labelUsed
          trueDataSize := gen.offset - offset
          size := gen.offset + 1 - offset }, gen.offset + 1)

/-- What `compile` did behind a successful `CompileEvalExpr`. -/
theorem writeResult_ok {arg out : FuncArgumentOutput} {res : EvalResult} {offset offset' : Word}
    {labelExit : String}
    (h : writeResult isConstCharPtr isCharArray heap arg res offset labelExit = .ok (out, offset')) :
    ∃ btf size gen, res.btf = some btf ∧ sizeof heap btf = some size ∧
      genInsnsOf isCharArray (arg.evaluated isConstCharPtr isCharArray res btf) res btf offset size labelExit
        = .ok gen ∧
      out = { arg.evaluated isConstCharPtr isCharArray res btf with
        insn := res.insns ++ gen.insns ++ exceptionCode gen.offset labelExit gen.labelUsed
        trueDataSize := gen.offset - offset
        size := gen.offset + 1 - offset } ∧
      offset' = gen.offset + 1 := by
  unfold writeResult at h
  split at h
  · cases h
  rename_i btf hbtf
  split at h
  · cases h
  rename_i size hsize
  dsimp only at h
  split at h
  · cases h
  rename_i gen hgen
  cases h
  exact ⟨btf, size, gen, hbtf, hsize, hgen, rfl, rfl⟩

/-- The read mode: casts where the kernel has them, unless probe reads
are forced. -/
def readMode (spec : Spec) : MemoryReadMode :=
  if forceProbeReadKernel then .probeRead
  else
    match spec.anyTypeByName kfuncBpfRdonlyCast with
    | .ok _ => .coreRead
    | .error _ => .probeRead

/-- The options of `compile` for `CompileEvalExpr`. -/
def FuncArgumentOutput.options (arg : FuncArgumentOutput) (params : List FuncParam) (krnl spec : Spec)
    (force : Bool) (labelExit : String) : CompileExprOptions :=
  { expr := arg.expr
    params
    spec := some spec
    kernel := some krnl
    labelExit
    reservedStack := argOutputStackOff
    usedRegisters := [outputArgRegBuff, outputArgRegArgs]
    memoryReadMode := readMode forceProbeReadKernel spec
    memoryReadForce := force
    heap }

/-- `funcArgumentOutput.compile`. -/
def FuncArgumentOutput.compile (arg : FuncArgumentOutput) (params : List FuncParam) (krnl spec : Spec)
    (offset : Word) (force : Bool) (labelExit : String) : Except GoError (FuncArgumentOutput × Word) :=
  match compileEvalExpr parseExpr (arg.options heap forceProbeReadKernel params krnl spec force labelExit) with
  | .error e => .error (.wrapf "failed to compile expr '%s': %w" [.text arg.expr] e)
  | .ok res => writeResult isConstCharPtr isCharArray heap arg res offset labelExit

theorem compile_ok {arg out : FuncArgumentOutput} {params : List FuncParam} {krnl spec : Spec}
    {offset offset' : Word} {force : Bool} {labelExit : String}
    (h : arg.compile parseExpr isConstCharPtr isCharArray heap forceProbeReadKernel params krnl spec offset
      force labelExit = .ok (out, offset')) :
    ∃ res, compileEvalExpr parseExpr (arg.options heap forceProbeReadKernel params krnl spec force labelExit)
        = .ok res ∧
      writeResult isConstCharPtr isCharArray heap arg res offset labelExit = .ok (out, offset') := by
  unfold FuncArgumentOutput.compile at h
  split at h
  · cases h
  rename_i res hres
  exact ⟨res, hres, h⟩

/-! ## The arguments of a function -/

/-- `match`. -/
def FuncArgumentOutput.matches (arg : FuncArgumentOutput) (params : List FuncParam) : Bool :=
  params.any fun p => arg.vars.contains p.name

/-- `genExitLabel`. -/
def genExitLabel (labelCnt : Nat) : String := "__output_arg_fail_" ++ toString labelCnt

/-- The loop of `matchParams`, from the label count and the offset on:
the arguments the function has, the size of their data, and the label
count behind. -/
def matchParams (params : List FuncParam) (krnl spec : Spec) (labelCnt : Nat) (offset : Word) :
    List FuncArgumentOutput → Except GoError (List FuncArgumentOutput × Word × Nat)
  | [] => .ok ([], offset, labelCnt)
  | a :: rest =>
    if !a.matches params then matchParams params krnl spec labelCnt offset rest
    else
      match a.compile parseExpr isConstCharPtr isCharArray heap forceProbeReadKernel params krnl spec
        offset false (genExitLabel labelCnt) with
      | .error e => .error (.wrapf "failed to compile expr '%s': %w" [.text a.expr] e)
      | .ok (a, offset) =>
        match matchParams params krnl spec (labelCnt + 1) offset rest with
        | .error e => .error e
        | .ok (args, size, cnt) => .ok (a :: args, size, cnt)

end Compile

/-- `genInsns`: the subprogram `output_arg`. -/
def genInsns (args : List FuncArgumentOutput) : List Insn :=
  ([Asm.movReg R9 R1, Asm.movReg R8 R2] : List Op).map (↑) ++ args.flatMap (·.insn)
    ++ [{ op := .exit }]

end Bpfsnoop.Trace
