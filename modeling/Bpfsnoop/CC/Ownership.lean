/-
Bpfsnoop.CC.Ownership — who owns a register while an expression is
compiled.

Every call of `eval` takes steps: it applies an operator to the values of
its operands, it reads memory, it chooses between the arms of `?:`.
`evalSteps` lists them in their order, each with the state before and
behind it. A step owns the registers of its operands; `Step.Harmless`
says that it neither frees nor overwrites any other register in use, and
leaves the register of its result in use. `OwnsResult` is what a call
owes as a whole.

`Step.Fine` is the condition, on the state before a step.
-/
import Bpfsnoop.CC.LiveRegisters
import Bpfsnoop.CC.Settlement
import Bpfsnoop.CC.EvalSemantics

namespace Bpfsnoop.CC

open Ebpf Btf Reg

/-! ## Steps -/

inductive StepKind where
  /-- An operator, a cast, a constant or a parameter. -/
  | operator (operands : List EvalValue)
  /-- `access` on the chain of a memory access. -/
  | read (res : AccessResult)
  /-- `?:` on the condition and the two arms. -/
  | cond (v l r : EvalValue)

structure Step where
  kind : StepKind
  result : EvalValue
  before : Gen
  after : Gen

/-- The registers of the operands. -/
def Step.Held (t : Step) (q : Reg) : Prop :=
  match t.kind with
  | .operator operands => ∃ v ∈ operands, v.Holds q
  | .read res => res.idx = none ∧ res.reg = q
  | .cond v l r => v.Holds q ∨ l.Holds q ∨ r.Holds q

/-- The step `m`, taken in state `g`. -/
def stepOf (kind : StepKind) (m : CodeM EvalValue) (g : Gen) : List Step :=
  match m g with
  | .error _ => []
  | .ok (v, g') => [⟨kind, v, g, g'⟩]

/-- The steps of what is compiled behind `m`. -/
def stepsAfter {α : Type} (m : CodeM α) (g : Gen) (k : α → Gen → List Step) : List Step :=
  match m g with
  | .error _ => []
  | .ok (a, g') => k a g'

/-- The operator function of a unary operator. -/
def unaryOp : UnOp → Option (EvalValue → CodeM EvalValue)
  | .minus => some minus
  | .not => some not
  | .preDec => some preDec
  | .preInc => some preInc
  | .twid => some twid
  | _ => none

section Steps

variable (c : Compiler)

/-- The read of an access expression. -/
def readSteps (e : Expr) (g : Gen) : List Step :=
  stepsAfter (accessMemory c e) g fun res g => stepOf (.read res) (access c res) g

mutual

def accessSteps : Expr → Gen → List Step
  | .un .paren left, g => accessSteps left g
  | .un .addr left, g => accessSteps left g
  | .un .indir left, g => accessSteps left g
  | .bin .and left right, g =>
    evalSteps left g ++ stepsAfter (eval c left) g fun l g =>
      evalSteps right g ++ stepsAfter (eval c right) g fun r g =>
        stepOf (.operator [l, r]) (and c.heap l r) g
  | .bin .or left right, g =>
    evalSteps left g ++ stepsAfter (eval c left) g fun l g =>
      evalSteps right g ++ stepsAfter (eval c right) g fun r g =>
        stepOf (.operator [l, r]) (or c.heap l r) g
  | .bin .add left right, g =>
    match left.numberText? with
    | some _ => accessSteps right g
    | none => accessSteps left g
  | .bin .sub left _, g => accessSteps left g
  | .cast _ left, g => accessSteps left g
  | .dot left _, g => accessSteps left g
  | .arrow left _, g => accessSteps left g
  | .index left _, g => accessSteps left g
  | _, _ => []

/-- The steps of a call of `eval`. -/
def evalSteps : Expr → Gen → List Step
  | .dot left text, g => accessSteps left g ++ readSteps c (.dot left text) g
  | .arrow left text, g => accessSteps left g ++ readSteps c (.arrow left text) g
  | .index left right, g => accessSteps left g ++ readSteps c (.index left right) g
  | .un .addr left, g => accessSteps left g ++ readSteps c (.un .addr left) g
  | .un .indir left, g => accessSteps left g ++ readSteps c (.un .indir left) g
  | .un op left, g =>
    evalSteps left g ++ match unaryOp op with
      | some f => stepsAfter (eval c left) g fun v g => stepOf (.operator [v]) (f v) g
      | none => []
  | .bin op left right, g =>
    evalSteps left g ++ stepsAfter (eval c left) g fun l g =>
      evalSteps right g ++ stepsAfter (eval c right) g fun r g =>
        stepOf (.operator [l, r]) (binary c.heap op l r) g
  | .cast type left, g =>
    evalSteps left g ++ stepsAfter (eval c left) g fun v g =>
      stepOf (.operator [v])
        (if v.typ = .num then castNumber c type { v with typ := .regBtf } else cast c type v) g
  | .cond e left right, g =>
    evalSteps e g ++ stepsAfter (eval c e) g fun v g =>
      evalSteps left g ++ stepsAfter (eval c left) g fun l g =>
        evalSteps right g ++ stepsAfter (eval c right) g fun r g =>
          stepOf (.cond v l r) (cond v l r) g
  | .name text, g => stepOf (.operator []) (evalName c text) g
  | .number _, _ => []
  | _, _ => []

end

variable {c} {op : BinOp} {left right : Expr} {l r : EvalValue} {g g₁ g₂ : Gen}

/-- An operator on two operands is one step behind theirs. -/
theorem evalSteps_bin (hl : eval c left g = .ok (l, g₁)) (hr : eval c right g₁ = .ok (r, g₂)) :
    evalSteps c (.bin op left right) g = (evalSteps c left g ++ evalSteps c right g₁)
      ++ stepOf (.operator [l, r]) (binary c.heap op l r) g₂ := by
  simp only [evalSteps, stepsAfter, hl, hr, List.append_assoc]

end Steps

/-! ## What a step and a call owe -/

/-- The step frees and overwrites no register in use that is not its own,
and its result is in use behind it. -/
structure Step.Harmless (c : Compiler) (t : Step) : Prop where
  keeps : ∀ q, t.before.regalloc.registers q = true → ¬ t.Held q → t.after.regalloc.registers q = true
  owns : ∀ q, t.result.Holds q → t.after.regalloc.registers q = true
  spares : ∃ frag, t.after.insns = t.before.insns ++ frag ∧
    ∀ (K : Kernel) (s s' : State), K.fastcall = c.rdonlyCastFastcall →
      exec K frag .run s = .cont .run s' → ∀ q, t.before.regalloc.registers q = true → ¬ t.Held q →
        s'.regs q = s.regs q

/-- A call of `eval` on `e` from `g`, which returned `v` in state `g'`:
the register of `v` was free and is the only one in use that was not in
use before, none was given back, and every step was harmless. -/
structure OwnsResult (c : Compiler) (e : Expr) (g : Gen) (v : EvalValue) (g' : Gen) : Prop where
  registers : ∀ q, g'.regalloc.registers q = true ↔ g.regalloc.registers q = true ∨ v.Holds q
  fresh : ∀ q, v.Holds q → g.regalloc.registers q = false
  steps : ∀ t ∈ evalSteps c e g, t.Harmless c

/-! ## The condition -/

/-- Behind a read into `reg`, every other register in use that a call of
the chain destroys is loaded back. -/
def SparesOthers (c : Compiler) (ra : RegisterAllocator) (offsets : List AccessOffset) (reg : Reg) :
    Prop :=
  ∀ q, ra.isUsed q = true → q ≠ reg → chainDestroys c offsets q = true →
    restored c ra offsets q = true

/-- The registers a step does not own are spared. A read spares them if
those that its calls destroy are loaded back. A `?:` that is compiled
works on `r0` where it meets a name nobody declared: then `r0` must be
free, or belong to an arm. -/
def Step.Spares (c : Compiler) (t : Step) : Prop :=
  match t.kind with
  | .operator _ => True
  | .read res =>
    match res.idx with
    | some _ => ∀ reg ra, t.before.regalloc.alloc = .ok (reg, ra) → SparesOthers c ra res.offsets reg
    | none => SparesOthers c t.before.regalloc res.offsets res.reg
  | .cond v l r => v.typ = .num ∨ (v.Resolved ∧ l.Resolved ∧ r.Resolved) ∨
      t.before.regalloc.registers R0 = false ∨ l.Holds R0 ∨ r.Holds R0

/-- The arm that a constant condition drops holds no register. -/
def Step.DropsNothing (t : Step) : Prop :=
  match t.kind with
  | .cond v l r => v.typ = .num → (if v.num = 0 then l else r).typ ≠ .regBtf
  | _ => True

def Step.Fine (c : Compiler) (t : Step) : Prop := t.Spares c ∧ t.DropsNothing

end Bpfsnoop.CC
