/-
Bpfsnoop.Trace.ParamMatch — which functions an expression belongs to.

A filter or an output argument is tried on every traced function. It
belongs to a function that has a parameter with the name of one of the
names of the expression, whatever the compiler takes that name for.

`matched_iff` says when that is right: some parameter is a variable of the
expression, or none is named like a function, a packet type or a constant
in it.
-/
import Bpfsnoop.CC.Variables
import Bpfsnoop.Lib.Text
import Bpfsnoop.Trace.OutputArg

namespace Bpfsnoop.Trace

open Ebpf Btf Reg CC Lib

/-! ## The names of an argument -/

/-- `funcArgument`. -/
structure FuncArgument where
  expr : String
  vars : List String

section Prepare

variable (parseExpr : String → Except GoError Expr)

/-- `prepareFuncArgument`. -/
def prepareFuncArgument (expr : String) : Except GoError FuncArgument :=
  match extractVarNames parseExpr expr with
  | .error e => .error (.wrapf "failed to extract var names from %s: %w" [.text expr] e)
  | .ok vars =>
    if vars = [] then .error (.errorf "'%s' has no var names" [.text expr])
    else .ok { expr, vars }

/-- `prepareArgOutput`. -/
def prepareArgOutput (expr : String) : Except GoError FuncArgumentOutput :=
  let arg : FuncArgumentOutput := { expr := trimSpace expr }
  match extractVarNames parseExpr arg.expr with
  | .error e => .error (.wrapf "failed to extract var names from '%s': %w" [.text arg.expr] e)
  | .ok vars =>
    if vars = [] then .error (.errorf "'%s' has no var names" [.text arg.expr])
    else .ok { arg with vars := vars }

end Prepare

/-- `funcArgument.matchParams`. -/
def FuncArgument.matchParams (arg : FuncArgument) (params : List FuncParam) : Bool :=
  params.any fun p => arg.vars.contains p.name

/-! ## When the match is right -/

/-- A parameter is a variable of the expression. -/
def LoadsParam (e : Expr) (params : List FuncParam) : Prop := ∃ p ∈ params, p.name ∈ e.loaded

/-- A parameter has the name of a function, a packet type or a constant of
the expression. -/
def NamedLikeBuiltin (e : Expr) (params : List FuncParam) : Prop := ∃ p ∈ params, p.name ∈ e.builtins

section Match

variable {parseExpr : String → Except GoError Expr} {expr : String} {e : Expr}

/-- What the names of an expression match. -/
theorem any_contains_iff (hacc : Accepted e) {vars : List String} (hparse : parseExpr expr = .ok e)
    (hvars : extractVarNames parseExpr expr = .ok vars) (params : List FuncParam) :
    (params.any fun p => vars.contains p.name) = true ↔ LoadsParam e params ∨ NamedLikeBuiltin e params := by
  simp only [List.any_eq_true, List.contains_iff_mem, mem_extractVarNames hparse hvars, names_iff hacc,
    and_or_left, exists_or, LoadsParam, NamedLikeBuiltin]

/-- **The attribution of an expression**: it is matched with a function
exactly if a parameter is a variable of it, if and only if there is such a
parameter or none has the name of something built in. -/
theorem matched_iff (hacc : Accepted e) (params : List FuncParam) :
    (∀ arg, prepareFuncArgument parseExpr expr = .ok arg → parseExpr arg.expr = .ok e →
      ((arg.matchParams params = true ↔ LoadsParam e params) ↔
        (LoadsParam e params ∨ ¬ NamedLikeBuiltin e params))) ∧
    (∀ arg, prepareArgOutput parseExpr expr = .ok arg → parseExpr arg.expr = .ok e →
      ((arg.matches params = true ↔ LoadsParam e params) ↔
        (LoadsParam e params ∨ ¬ NamedLikeBuiltin e params))) := by
  constructor
  · intro arg hprep hparse
    unfold prepareFuncArgument at hprep
    split at hprep
    · cases hprep
    · rename_i vars hvars
      split at hprep <;> cases hprep
      rw [FuncArgument.matchParams, any_contains_iff hacc hparse hvars]
      tauto
  · intro arg hprep hparse
    unfold prepareArgOutput at hprep
    dsimp only at hprep
    split at hprep
    · cases hprep
    · rename_i vars hvars
      split at hprep <;> cases hprep
      rw [FuncArgumentOutput.matches, any_contains_iff hacc hparse hvars]
      tauto

end Match

/-! ### A parameter with the name of a function -/

/-- `struct sk_buff { ...; unsigned char *data; }`. -/
def skbHeap : Heap := fun _ =>
  { size := 8
    findMember := fun name =>
      if name = "data" then some (⟨"data", .pointer (.int "unsigned char" 1 .unsigned), 0, 0⟩, 0) else none }

/-- `buf(skb->data, 16)`. -/
def bufOfData : Expr := .call (.name "buf") [.arrow (.name "skb") "data", .number "16"]

/-- The compiler for a function with these parameters. -/
def compilerFor (params : List FuncParam) : Compiler :=
  { Compiler.empty .probeRead with
    heap := skbHeap
    vars := params.map (·.name)
    btfs := params.map (·.type) }

def optionsFor (params : List FuncParam) : CompileExprOptions :=
  { expr := "buf(skb->data, 16)", params, spec := none, kernel := none, labelExit := "exit", reservedStack := 16,
    usedRegisters := [outputArgRegBuff, outputArgRegArgs], memoryReadMode := .probeRead, memoryReadForce := false,
    heap := skbHeap }

/-- A function of `struct sk_buff *skb`. -/
def skbParams : List FuncParam := [⟨"skb", .pointer (.struct "sk_buff" 0)⟩]

/-- A function of `char *buf`. -/
def bufParams : List FuncParam := [⟨"buf", .pointer (.int "char" 1 .signed)⟩]

theorem accepted_bufOfData : Accepted bufOfData := by
  have hok : (compileEval (compilerFor skbParams) (optionsFor skbParams) bufOfData).isOk = true := by rfl
  cases h : compileEval (compilerFor skbParams) (optionsFor skbParams) bufOfData with
  | error e => simp [h, Except.isOk, Except.toBool] at hok
  | ok res => exact .output _ _ res h

/-- The expression is matched with the function of `buf`, loads none of its
parameters, and does not compile for it. -/
theorem buf_matches_buf : ∃ arg, prepareArgOutput (fun _ => .ok bufOfData) "buf(skb->data, 16)" = .ok arg ∧
    Accepted bufOfData ∧ arg.matches bufParams = true ∧ ¬ LoadsParam bufOfData bufParams ∧
    (compileEval (compilerFor bufParams) (optionsFor bufParams) bufOfData).isOk = false := by
  have hprep : prepareArgOutput (fun _ => .ok bufOfData) "buf(skb->data, 16)" = .ok
      { expr := trimSpace "buf(skb->data, 16)", vars := ["buf", "skb"] } := by rfl
  refine ⟨_, hprep, accepted_bufOfData, by rfl, ?_, by rfl⟩
  rintro ⟨p, hp, hmem⟩
  obtain rfl := List.mem_singleton.mp hp
  exact absurd hmem (by decide)

/-- For the function of `skb` it is right. -/
theorem skb_matches_skb : ∃ arg, prepareArgOutput (fun _ => .ok bufOfData) "buf(skb->data, 16)" = .ok arg ∧
    ((arg.matches skbParams = true ↔ LoadsParam bufOfData skbParams) ↔
      (LoadsParam bufOfData skbParams ∨ ¬ NamedLikeBuiltin bufOfData skbParams)) := by
  have hprep : prepareArgOutput (fun _ => .ok bufOfData) "buf(skb->data, 16)" = .ok
      { expr := trimSpace "buf(skb->data, 16)", vars := ["buf", "skb"] } := by rfl
  exact ⟨_, hprep, (matched_iff accepted_bufOfData skbParams).2 _ hprep rfl⟩

end Bpfsnoop.Trace
