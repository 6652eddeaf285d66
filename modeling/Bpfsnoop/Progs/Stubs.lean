/-
Bpfsnoop.Progs.Stubs — subprograms of a program, replaced and removed.

The programs come with stubs: subprograms that are replaced by generated
code (`injectInsns`) or removed, with all calls to them (`__clearSubprog`).
A program is a flat list of instructions; a subprogram begins at the
instruction that carries its symbol and is taken to end in front of the
next instruction with a symbol. Of the metadata of an instruction only the
symbol it carries and the one it refers to are read.
-/
import Bpfsnoop.Trace.OutputArg

namespace Bpfsnoop.Progs

open Ebpf Reg CC Trace

variable {α : Type}

/-! ## The code -/

/-- `asm.Instruction`. The operation, with its operands, is any type. An
instruction without a symbol or a reference has an empty one. -/
structure Instruction (α : Type) where
  op : α
  symbol : String
  reference : String
  deriving DecidableEq, Repr

/-- `Instruction.WithMetadata`. -/
def Instruction.withMetadata (i metadata : Instruction α) : Instruction α := { metadata with op := i.op }

def Instruction.withSymbol (i : Instruction α) (symbol : String) : Instruction α := { i with symbol := symbol }

def findStartIndex (prog : List (Instruction α)) (stub : String) : Option Nat :=
  prog.findIdx? fun i => i.symbol = stub

/-- The scan starts behind `start` and stops at a symbol or at the end. -/
def findEndIndex (prog : List (Instruction α)) (start : Nat) : Nat :=
  let idx := start + 1 + (prog.drop (start + 1)).findIdx fun i => i.symbol ≠ ""
  idx - 1

/-- The first instruction that is injected gets the metadata of the stub. -/
def withStubMetadata (stub : Option (Instruction α)) : List (Instruction α) → List (Instruction α)
  | [] => []
  | i :: insns =>
    match stub with
    | none => i :: insns
    | some metadata => i.withMetadata metadata :: insns

def injectInsns (prog : List (Instruction α)) (stub : String) (insns : List (Instruction α)) :
    List (Instruction α) :=
  match findStartIndex prog stub with
  | none => prog
  | some injIdx =>
    let endIdx := findEndIndex prog injIdx
    prog.take injIdx ++ (withStubMetadata prog[injIdx]? insns ++ prog.drop (endIdx + 1))

/-- `__clearSubprog`. `movR0` is `asm.Mov.Imm(asm.R0, int32(b2i(_)))`. -/
def clearSubprog (movR0 : Bool → α) (prog : List (Instruction α)) (stub : String) (isFilter : Bool) :
    List (Instruction α) :=
  (injectInsns prog stub []).map fun i =>
    if i.reference = stub then { op := movR0 isFilter, symbol := "", reference := "" } else i

/-! ## Generated bodies -/

/-- The code that is injected: not empty, and its first instruction neither
carries a symbol nor refers to one. -/
structure Body (α : Type) where
  first : Instruction α
  rest : List (Instruction α)
  symbol : first.symbol = ""
  reference : first.reference = ""

def Body.insns (b : Body α) : List (Instruction α) := b.first :: b.rest

/-- An instruction of the generators, as the injection sees it. -/
def ofInsn (i : Insn) : Instruction Op :=
  { op := i.op, symbol := i.symbol.getD "", reference := i.op.label?.getD "" }

/-- The subprogram `output_arg`. -/
def outputArgBody (args : List FuncArgumentOutput) : Body Op where
  first := ofInsn (Asm.movReg R9 R1 : Insn)
  rest := (((Asm.movReg R8 R2 : Insn) :: args.flatMap (·.insn)) ++ [(Op.exit : Insn)]).map ofInsn
  symbol := rfl
  reference := rfl

/-- The generated code of output arguments is a body. -/
theorem outputArgBody_insns (args : List FuncArgumentOutput) :
    (outputArgBody args).insns = (genInsns args).map ofInsn := by
  simp [outputArgBody, Body.insns, genInsns]

/-! ## Runs -/

/-- An operation on a stub. -/
inductive StubOp (α : Type) where
  | inject (stub : String) (body : Body α)
  | clear (stub : String) (isFilter : Bool)

def StubOp.stub : StubOp α → String
  | .inject stub _ => stub
  | .clear stub _ => stub

def StubOp.apply (movR0 : Bool → α) (prog : List (Instruction α)) : StubOp α → List (Instruction α)
  | .inject stub body => injectInsns prog stub body.insns
  | .clear stub isFilter => clearSubprog movR0 prog stub isFilter

def runOps (movR0 : Bool → α) (prog : List (Instruction α)) (ops : List (StubOp α)) : List (Instruction α) :=
  ops.foldl (StubOp.apply movR0) prog

/-! ## Programs of subprograms -/

/-- A subprogram: only its first instruction carries a symbol. -/
structure Subprog (α : Type) where
  head : Instruction α
  rest : List (Instruction α)
  named : head.symbol ≠ ""
  plain : ∀ i ∈ rest, i.symbol = ""

namespace Subprog

def name (u : Subprog α) : String := u.head.symbol

def insns (u : Subprog α) : List (Instruction α) := u.head :: u.rest

end Subprog

/-- The instructions of a program. -/
def flat (prog : List (Subprog α)) : List (Instruction α) := prog.flatMap (·.insns)

/-- The subprograms have names of their own, and no label inside a body is
one of `names`, the names of subprograms and stubs. -/
structure Fits (names : Set String) (prog : List (Subprog α)) (ops : List (StubOp α)) : Prop where
  nodup : (prog.map (·.name)).Nodup
  progs : ∀ u ∈ prog, u.name ∈ names
  stubs : ∀ op ∈ ops, op.stub ∈ names
  labels : ∀ stub body, .inject stub body ∈ ops → ∀ i ∈ body.rest, i.symbol ∉ names
  nonempty : "" ∉ names

/-! ## What should come out -/

/-- The constant of the first `clear` of the stub. -/
def cleared (ops : List (StubOp α)) (stub : String) : Option Bool :=
  ops.findSome? fun
    | .clear s isFilter => if s = stub then some isFilter else none
    | .inject .. => none

/-- The body of the last `inject` of the stub. -/
def lastBody (ops : List (StubOp α)) (stub : String) : Option (Body α) :=
  ops.reverse.findSome? fun
    | .inject s body => if s = stub then some body else none
    | .clear .. => none

/-- The code of a subprogram that is not removed. -/
def finalCode (ops : List (StubOp α)) (u : Subprog α) : List (Instruction α) :=
  match lastBody ops u.name with
  | none => u.insns
  | some body => body.first.withSymbol u.name :: body.rest

/-- A call of a stub that was removed is its constant result. -/
def resolve (movR0 : Bool → α) (ops : List (StubOp α)) (i : Instruction α) : Instruction α :=
  match cleared ops i.reference with
  | none => i
  | some isFilter => { op := movR0 isFilter, symbol := i.symbol, reference := "" }

/-- The code of a subprogram behind the operations, with calls resolved. -/
def standing (movR0 : Bool → α) (ops : List (StubOp α)) (u : Subprog α) : List (Instruction α) :=
  (finalCode ops u).map (resolve movR0 ops)

/-- The subprograms that are left. -/
def alive (prog : List (Subprog α)) (ops : List (StubOp α)) : List (Subprog α) :=
  prog.filter fun u => cleared ops u.name = none

/-- **The program behind the operations**: each subprogram in its place,
with the last body injected into it, if there is one, and without those
that were removed. -/
def expected (movR0 : Bool → α) (prog : List (Subprog α)) (ops : List (StubOp α)) : List (Instruction α) :=
  (alive prog ops).flatMap (standing movR0 ops)

/-! ## The condition -/

/-- No instruction but the first carries a symbol. -/
def Whole (code : List (Instruction α)) : Prop := ∀ i ∈ code.tail, i.symbol = ""

/-- What an operation needs, behind the operations `ops`. The subprogram
that is replaced or removed has no label inside, and the first instruction
of one that is replaced is no call; what is injected calls no stub that was
removed, and no instruction with a symbol is a call of a stub that is being
removed. -/
def Clean (movR0 : Bool → α) (prog : List (Subprog α)) (ops : List (StubOp α)) : StubOp α → Prop
  | .inject stub body => ∀ u ∈ alive prog ops, u.name = stub → Whole (standing movR0 ops u) ∧
      (∀ i ∈ (standing movR0 ops u).head?, i.reference = "") ∧
      ∀ i ∈ body.rest, cleared ops i.reference = none
  | .clear stub _ => cleared ops stub = none →
      (∀ u ∈ alive prog ops, u.name = stub → Whole (standing movR0 ops u)) ∧
      ∀ u ∈ alive prog ops, u.name ≠ stub → ∀ i ∈ standing movR0 ops u, i.reference = stub → i.symbol = ""

end Bpfsnoop.Progs
