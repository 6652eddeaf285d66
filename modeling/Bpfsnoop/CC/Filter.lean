/-
Bpfsnoop.CC.Filter — `newCompiler`, `compile` and `CompileFilterExpr`.

The expression parser is a parameter (`parseExpr`): every statement about
a filter is about the syntax tree it yields.
-/
import Bpfsnoop.CC.Eval

namespace Bpfsnoop.CC

open Ebpf Btf Reg

/-- `CompileExprOptions`; `heap` is the memory the BTF types live in. -/
structure CompileExprOptions where
  expr : String
  params : List FuncParam
  spec : Option Spec
  kernel : Option Spec
  labelExit : String
  reservedStack : Word
  usedRegisters : List Reg
  memoryReadMode : MemoryReadMode
  /-- The `MemoryReadFlagForce` bit of the flags. -/
  memoryReadForce : Bool
  heap : Heap

def kfuncBpfRdonlyCast : String := "bpf_rdonly_cast"
def kfuncFastcall : String := "bpf_fastcall"

/-- `reservedStack`, at least 8 and a multiple of 8. -/
def alignStack (reserved : Word) : Word :=
  if reserved.sle 0 then 8 else (reserved + 7) &&& (-8)

/-- The kfunc of `newCompiler`: its type id and whether it is fastcall.
A kernel without it leaves both at their zero values. -/
def findRdonlyCast (kernel : Spec) : Except GoError (Nat × Bool) :=
  match kernel.anyTypeByName kfuncBpfRdonlyCast with
  | .error .notFound => .ok (0, false)
  | .error e =>
    .error (.wrapf "failed to find kfunc %s: %w" [.text kfuncBpfRdonlyCast] (.lookup e))
  | .ok (.func name tags) =>
    match kernel.typeID (.func name tags) with
    | none => .error (.errorf "failed to get type ID for kfunc %s: %w" [.text kfuncBpfRdonlyCast])
    | some id => .ok (id, tags.contains kfuncFastcall)
  | .ok _ => .error (.errorf "%s should be a function" [.text kfuncBpfRdonlyCast])

/-- `newCompiler`, without the fields that compiling changes. -/
def newCompiler (opts : CompileExprOptions) : Except GoError Compiler :=
  if opts.expr = "" ∨ opts.labelExit = "" then
    .error (.errorf "expression and label exit cannot be empty" [])
  else
    match opts.spec, opts.kernel with
    | some spec, some kernel =>
      match findRdonlyCast kernel with
      | .error e => .error e
      | .ok (id, fastcall) => .ok
        { heap := opts.heap
          vars := opts.params.map (·.name)
          btfs := opts.params.map (·.type)
          btfSpec := spec
          krnlSpec := kernel
          labelExit := opts.labelExit
          reservedStack := alignStack opts.reservedStack
          memMode := opts.memoryReadMode
          rdonlyCastTypeID := id
          rdonlyCastFastcall := fastcall }
    | _, _ => .error (.errorf "btf spec cannot be empty" [])

/-- What a successful `newCompiler` took from its options. -/
theorem newCompiler_ok {opts : CompileExprOptions} {c : Compiler} (h : newCompiler opts = .ok c) :
    ∃ spec kernel id fastcall, opts.spec = some spec ∧ opts.kernel = some kernel ∧
      findRdonlyCast kernel = .ok (id, fastcall) ∧
      c = { heap := opts.heap
            vars := opts.params.map (·.name)
            btfs := opts.params.map (·.type)
            btfSpec := spec
            krnlSpec := kernel
            labelExit := opts.labelExit
            reservedStack := alignStack opts.reservedStack
            memMode := opts.memoryReadMode
            rdonlyCastTypeID := id
            rdonlyCastFastcall := fastcall } := by
  unfold newCompiler at h
  split at h
  · cases h
  split at h
  · rename_i spec kernel hspec hkernel
    split at h
    · cases h
    · rename_i id fastcall hfind
      cases h
      exact ⟨spec, kernel, id, fastcall, hspec, hkernel, hfind, rfl⟩
  · cases h

/-- The operators `compile` takes at the top. -/
def supportedOp : Expr → Bool
  | .bin .andAnd .. | .bin .eqEq .. | .bin .gt .. | .bin .gtEq .. | .bin .lt .. | .bin .ltEq ..
  | .un .not _ | .bin .notEq .. | .bin .orOr .. => true
  | _ => false

/-- `insns[len(insns)-1] = insns[len(insns)-1].WithSymbol(label)`. -/
def markLast (label : String) : List Insn → List Insn
  | [] => []
  | [i] => [i.withSymbol label]
  | i :: is => i :: markLast label is

/-- Attach the exit label to the last instruction, if it is used. -/
def attachLabelExit (label : String) : CodeM Unit := fun g =>
  .ok ((), if g.labelExitUsed then { g with insns := markLast label g.insns } else g)

/-- `compile`, behind the parser. -/
def compile (c : Compiler) (expr : String) (e : Expr) : CodeM Unit := do
  if !supportedOp e then
    fail (.errorf "top op '%s' of expression must be one of %v" [.text e.op])
  let val ← wrapping "failed to evaluate expression" (eval c e)
  if val.typ = .num then
    fail (.errorf "disallow constant value (%d) expression: '%s'" [.num val.num, .text expr])
  attachLabelExit c.labelExit
  if val.reg ≠ R0 then
    emit [Asm.movReg R0 val.reg]

/-- The state in which a filter is compiled: the arguments are in `r9`. -/
def filterGen : Gen :=
  { regalloc := ⟨Function.update RegisterAllocator.empty.registers R9 true⟩
    insns := [Asm.movReg argsReg R1]
    labelExitUsed := false }

/-- `CompileFilterExpr`. -/
def compileFilterExpr (parseExpr : String → Except GoError Expr) (opts : CompileExprOptions) :
    Except GoError (List Insn) :=
  match newCompiler opts with
  | .error e => .error (.wrapf "failed to create compiler: %w" [] e)
  | .ok c =>
    match parseExpr opts.expr with
    | .error e => .error (.wrapf "failed to parse expression: %w" [] e)
    | .ok e =>
      match compile c opts.expr e filterGen with
      | .error e => .error e
      | .ok ((), g) => .ok (g.insns ++ [{ op := .exit }])

end Bpfsnoop.CC
