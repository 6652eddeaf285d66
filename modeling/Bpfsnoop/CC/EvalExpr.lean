/-
Bpfsnoop.CC.EvalExpr — `CompileEvalExpr`, the compiler of output
expressions.

An output expression is a plain expression, a dereference `*e`, or a call
of one of the output functions: `buf`, `str`, `pkt`, the addresses, the
integers, the histograms. `compileFuncCall` reads the call before its
first argument is compiled, `postCheckFuncCall` checks the type of that
argument afterwards.
-/
import Bpfsnoop.CC.Filter

namespace Bpfsnoop.CC

open Ebpf Btf Reg

/-! ## Function calls -/

inductive EvalResultType where
  | default | deref | buf | string | pkt | addr | port | slice | hex | int | hist | tdigest
  deriving DecidableEq, Repr

/-- `funcCallValue`. -/
structure FuncCallValue where
  typ : EvalResultType := .default
  expr : Expr
  dataOffset : Word := 0
  dataSize : Word := 0
  pkt : String := ""
  addr : String := ""
  port : String := ""

/-- `parseExprNumber`. -/
def parseExprNumber (expr : Expr) : Except GoError Word :=
  match expr.numberText? with
  | none => .error (.errorf "expected a number expression, got %s" [.text expr.op])
  | some text =>
    match parseNumber text with
    | .error e => .error (.wrapf "failed to parse number: %w" [] e)
    | .ok num => .ok num

/-- A numeric argument of a call, by its place. -/
def numberArgument (fnName place : String) (expr : Expr) : Except GoError Word :=
  match parseExprNumber expr with
  | .error e =>
    .error (.wrapf ("%s() " ++ place ++ " argument must be a number: %w") [.text fnName] e)
  | .ok num => .ok num

/-- The check of `dataSize` of the functions that take one. -/
def checkSize (fnName : String) (val : FuncCallValue) : Except GoError FuncCallValue :=
  if val.dataSize.sle 0 then
    .error (.errorf "%s() size must be greater than 0" [.text fnName])
  else .ok val

/-- `case "buf", "slice", "hex"`. -/
def bufCall (fnName : String) (list : List Expr) (val : FuncCallValue) :
    Except GoError FuncCallValue := do
  let typ : EvalResultType :=
    if fnName = "slice" then .slice else if fnName = "hex" then .hex else .buf
  match list with
  | [_, second] =>
    let dataSize ← numberArgument fnName "second" second
    checkSize fnName { val with dataSize, typ }
  | [_, second, third] =>
    let dataOffset ← numberArgument fnName "second" second
    let dataSize ← numberArgument fnName "third" third
    checkSize fnName { val with dataOffset, dataSize, typ }
  | _ => throw (.errorf "%s() must have 2 or 3 arguments" [.text fnName])

/-- `case "str"`; the size -1 stands for the size of the type. -/
def strCall (fnName : String) (list : List Expr) (val : FuncCallValue) :
    Except GoError FuncCallValue := do
  match list with
  | [_] => return { val with dataSize := -1, typ := .string }
  | [_, second] =>
    let dataSize ← numberArgument fnName "second" second
    checkSize fnName { val with dataSize, typ := .string }
  | _ => throw (.errorf "%s() must have 1 or 2 arguments" [.text fnName])

def allowedPktTypes : List String := ["eth", "ip", "ip4", "ip6", "icmp", "icmp6", "tcp", "udp"]

/-- A packet type, given by name. -/
def pktTypeArgument (fnName place pktType : String) : Except GoError String :=
  if pktType ∈ allowedPktTypes then .ok pktType
  else .error (.errorf ("%s() " ++ place ++ " argument as pkt type must be one of %v") [.text fnName])

/-- `case "pkt"`. -/
def pktCall (fnName : String) (list : List Expr) (val : FuncCallValue) :
    Except GoError FuncCallValue := do
  match list with
  | [_, second] =>
    let dataSize ← numberArgument fnName "second" second
    checkSize fnName { val with dataSize, pkt := "eth", typ := .pkt }
  | [_, second, third] =>
    let num ← numberArgument fnName "second" second
    match third with
    | .name text =>
      let pkt ← pktTypeArgument fnName "third" text
      checkSize fnName { val with dataSize := num, pkt, typ := .pkt }
    | .number text =>
      match parseNumber text with
      | .error e => throw (.wrapf "%s() third argument must be a number: %w" [.text fnName] e)
      | .ok dataSize =>
        checkSize fnName { val with dataOffset := num, dataSize, pkt := "eth", typ := .pkt }
    | _ => throw (.errorf "%s() third argument must be pkt type or a number" [.text fnName])
  | [_, second, third, fourth] =>
    let dataOffset ← numberArgument fnName "second" second
    let dataSize ← numberArgument fnName "third" third
    match fourth with
    | .name text =>
      let pkt ← pktTypeArgument fnName "fourth" text
      checkSize fnName { val with dataOffset, dataSize, pkt, typ := .pkt }
    | _ => throw (.errorf "%s() fourth argument must be pkt type" [.text fnName])
  | _ => throw (.errorf "%s() must have 2, 3 or 4 arguments" [.text fnName])

/-- The optional offset of the functions whose size their name says. -/
def offsetArgument (fnName : String) (list : List Expr) : Except GoError Word :=
  match list with
  | [_] => .ok 0
  | [_, second] => numberArgument fnName "second" second
  | _ => .error (.errorf "%s() must have 1 or 2 arguments" [.text fnName])

/-- The address and port functions with their sizes. -/
def addrSizes : List (String × Word) :=
  [("eth", 6), ("eth2", 12), ("ip4", 4), ("ip42", 8), ("ip6", 16), ("ip62", 32),
    ("port", 2), ("port2", 4)]

/-- The integer functions with their sizes. -/
def intSizes : List (String × Word) :=
  [("u8", 1), ("u16", 2), ("u32", 4), ("u64", 8), ("s8", 1), ("s16", 2), ("s32", 4), ("s64", 8),
    ("le16", 2), ("le32", 4), ("le64", 8), ("be16", 2), ("be32", 4), ("be64", 8)]

/-- `expr.List[0]`. -/
def firstArgument (list : List Expr) : Except GoError Expr :=
  match list with
  | [] => .error (.panic "index out of range")
  | expr :: _ => .ok expr

/-- `compileFuncCall`, of the call `fnName(list)`. -/
def compileFuncCall (fnName : String) (list : List Expr) : Except GoError FuncCallValue := do
  let expr ← firstArgument list
  let val : FuncCallValue := { expr }
  if fnName = "buf" ∨ fnName = "slice" ∨ fnName = "hex" then
    bufCall fnName list val
  else if fnName = "str" then
    strCall fnName list val
  else if fnName = "pkt" then
    pktCall fnName list val
  else
    match addrSizes.lookup fnName with
    | some dataSize =>
      let dataOffset ← offsetArgument fnName list
      if fnName = "port" ∨ fnName = "port2" then
        return { val with dataOffset, dataSize, port := fnName, typ := .port }
      else
        return { val with dataOffset, dataSize, addr := fnName, typ := .addr }
    | none =>
      match intSizes.lookup fnName with
      | some dataSize =>
        let dataOffset ← offsetArgument fnName list
        return { val with dataOffset, dataSize, typ := .int }
      | none =>
        if fnName = "hist" ∨ fnName = "tdigest" then
          match list with
          | [_] =>
            return { val with dataSize := 8, typ := if fnName = "tdigest" then .tdigest else .hist }
          | _ => throw (.errorf "%s() must have 1 argument" [.text fnName])
        else
          throw (.errorf "unknown function call: %s" [.text fnName])

/-! ## The check behind the compilation -/

/-- `EvalResult`. -/
structure EvalResult where
  insns : List Insn := []
  reg : Reg := R0
  btf : Option BtfType := none
  mem : Option Member := none
  type : EvalResultType
  size : Word := 0
  off : Word := 0
  pkt : String
  addr : String
  port : String
  int : String := ""
  labelUsed : Bool := false

/-- What a pointer or an array, given as underlying type, holds. -/
def pointee? (t : Option BtfType) : Option BtfType :=
  match t with
  | some (.pointer target) => some target
  | some (.array type _) => some type
  | _ => none

/-- The text of the checks of a pointer or an array. -/
def notPointee : String := "disallow non-\x7bpointer,array\x7d type %v for %s()"

/-- `postCheckFuncCall`. -/
def postCheckFuncCall (heap : Heap) (res : EvalResult) (val : EvalValue)
    (dataOffset dataSize : Word) (fnName : String) : Except GoError EvalResult :=
  let t := val.btf.map underlyingType
  if res.type ≠ .default ∧ isMemberBitfield val.mem then
    .error (.errorf "disallow member bitfield for %s()" [.text fnName])
  else
    match res.type with
    | .deref =>
      match t with
      | some (.pointer target) =>
        if sizeofD heap target = 0 then
          .error (.errorf "disallow zero size type %v for pointer dereference" [.type target])
        else
          .ok { res with btf := some target, size := BitVec.ofNat 64 (sizeofD heap target) }
      | _ => .error (.errorf "disallow non-pointer type %v for pointer dereference" [.type t])
    | .buf | .hex =>
      match pointee? t with
      | some _ => .ok { res with off := dataOffset, size := dataSize, btf := t }
      | none => .error (.errorf notPointee [.type t, .text fnName])
    | .string =>
      match t with
      | some (.pointer _) =>
        .ok { res with size := if dataSize = -1 then 64 else dataSize, btf := t }
      | some (.array type nelems) =>
        if dataSize = -1 then
          if sizeofD heap type ≠ 1 then
            .error (.errorf "disallow non-1-byte-size type %v for %s()" [.type type, .text fnName])
          else .ok { res with size := BitVec.ofNat 64 nelems, btf := t }
        else .ok { res with size := dataSize, btf := t }
      | _ => .error (.errorf notPointee [.type t, .text fnName])
    | .pkt | .addr | .port =>
      match t with
      | some (.pointer _) => .ok { res with off := dataOffset, size := dataSize, btf := t }
      | _ => .error (.errorf "disallow non-pointer type %v for %s()" [.type t, .text fnName])
    | .slice =>
      match pointee? t with
      | some elem =>
        let size := BitVec.ofNat 64 (sizeofD heap elem)
        if size = 0 then
          .error (.errorf "disallow zero size type %v for %s()" [.type elem, .text fnName])
        else .ok { res with btf := some elem, off := dataOffset * size, size := dataSize * size }
      | none => .error (.errorf notPointee [.type t, .text fnName])
    | .int =>
      match pointee? t with
      | some _ => .ok { res with btf := t, off := dataOffset, size := dataSize, int := fnName }
      | none => .error (.errorf notPointee [.type t, .text fnName])
    | .hist | .tdigest =>
      match t with
      | some (.int name size encoding) =>
        .ok { res with btf := some (.int name size encoding), off := 0, size := BitVec.ofNat 64 size }
      | _ => .error (.errorf "disallow non-int type %v for %s()" [.type t, .text fnName])
    | .default => .ok { res with btf := val.btf, mem := val.mem }

/-! ## `CompileEvalExpr` -/

/-- The expression to evaluate and the call around it: the switch over
the operator at the top. -/
def evaluating (e : Expr) : Except GoError (FuncCallValue × String) :=
  match e with
  | .un .indir left => .ok ({ typ := .deref, expr := left }, "")
  | .call (.name fnName) list =>
    match compileFuncCall fnName list with
    | .error err => .error (.wrapf "failed to compile function call: %w" [] err)
    | .ok val => .ok (val, fnName)
  | .call _ _ => .error (.errorf "function call must have a constant name" [])
  | e => .ok ({ expr := e }, "")

/-- `MarkUsed` of every register of the list. -/
def markAllUsed (regs : List Reg) (ra : RegisterAllocator) : Except GoError RegisterAllocator :=
  regs.foldlM (fun ra reg => ra.markUsed reg) ra

/-- `CompileEvalExpr`, behind the parser. -/
def compileEval (c : Compiler) (opts : CompileExprOptions) (e : Expr) :
    Except GoError EvalResult := do
  let ra ← markAllUsed opts.usedRegisters .empty
  let (call, fnName) ← evaluating e
  match eval c call.expr { regalloc := ra, insns := [], labelExitUsed := false } with
  | .error err => throw (.wrapf "failed to evaluate expression: %w" [] err)
  | .ok (val, g) =>
    if val.typ = .num ∧ !opts.memoryReadForce then
      throw (.errorf "disallow constant value (%d) expression: '%s'" [.num val.num, .text opts.expr])
    let res : EvalResult :=
      { type := call.typ, pkt := call.pkt, addr := call.addr, port := call.port }
    let res ← postCheckFuncCall c.heap res val call.dataOffset call.dataSize fnName
    return { res with insns := g.insns, reg := val.reg, labelUsed := g.labelExitUsed }

/-- What a successful `CompileEvalExpr` did. -/
theorem compileEval_ok {c : Compiler} {opts : CompileExprOptions} {e : Expr} {res : EvalResult}
    (h : compileEval c opts e = .ok res) : ∃ ra call fnName val g checked,
      markAllUsed opts.usedRegisters .empty = .ok ra ∧ evaluating e = .ok (call, fnName) ∧
      eval c call.expr { regalloc := ra, insns := [], labelExitUsed := false } = .ok (val, g) ∧
      (val.typ = .num → opts.memoryReadForce = true) ∧
      postCheckFuncCall c.heap { type := call.typ, pkt := call.pkt, addr := call.addr, port := call.port } val
        call.dataOffset call.dataSize fnName = .ok checked ∧
      res = { checked with insns := g.insns, reg := val.reg, labelUsed := g.labelExitUsed } := by
  unfold compileEval at h
  simp only [bind, Except.bind] at h
  split at h
  · cases h
  rename_i ra hra
  split at h
  · cases h
  rename_i p hp
  obtain ⟨call, fnName⟩ := p
  dsimp only at h
  split at h
  · cases h
  rename_i val g heval
  split at h
  · cases h
  rename_i hnum
  split at h
  · cases h
  rename_i checked hcheck
  cases h
  exact ⟨ra, call, fnName, val, g, checked, hra, hp, heval, by simpa using hnum, hcheck, rfl⟩

/-- `CompileEvalExpr`. -/
def compileEvalExpr (parseExpr : String → Except GoError Expr) (opts : CompileExprOptions) :
    Except GoError EvalResult :=
  match newCompiler opts with
  | .error e => .error (.wrapf "failed to create compiler: %w" [] e)
  | .ok c =>
    match parseExpr opts.expr with
    | .error e => .error (.wrapf "failed to parse expression: %w" [] e)
    | .ok e => compileEval c opts e

end Bpfsnoop.CC
