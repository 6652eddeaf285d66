/-
Bpfsnoop.CC.Eval — `accessMemory` and `eval`, and the compilation of a
filter expression.

The two functions call each other. Where `accessMemory` meets `&` or `|`
it evaluates the whole node with `eval`; the And and Or cases of `eval`
are repeated there so that the recursion is structural, and
`accessMemory_and` and `accessMemory_or` state the form of the source.
-/
import Bpfsnoop.CC.Access

namespace Bpfsnoop.CC

open Ebpf Btf Reg

/-- `expr.Op == cc.Number`: the literal. -/
def Expr.numberText? : Expr → Option String
  | .number t => some t
  | _ => none

/-- The operator functions, by operator. -/
def binary (heap : Heap) : BinOp → EvalValue → EvalValue → CodeM EvalValue
  | .add => add heap
  | .and => and heap
  | .andAnd => andand heap
  | .div => div heap
  | .eqEq => eqeq heap
  | .gt => gt heap
  | .gtEq => gteq heap
  | .lsh => lsh heap
  | .lt => lt heap
  | .ltEq => lteq heap
  | .mod => mod heap
  | .mul => mul heap
  | .notEq => noteq heap
  | .or => or heap
  | .orOr => oror heap
  | .rsh => rsh heap
  | .sub => sub heap
  | .xor => xor heap

/-- `cc.Name` of `eval`. -/
def evalName (c : Compiler) (text : String) : CodeM EvalValue :=
  if text = "NULL" ∨ text = "false" then
    return { typ := .num, num := 0 }
  else if text = "true" then
    return { typ := .num, num := 1 }
  else
    match c.vars.idxOf? text with
    | none => return { typ := .enumMaybe, name := text }
    | some idx => do
      let reg ← alloc
      emitLoadArg idx reg
      return { typ := .regBtf, reg := reg, btf := c.btfs[idx]? }

/-- `cast`. -/
def cast (c : Compiler) (type : CType) (val : EvalValue) : CodeM EvalValue := do
  let typ ← wrapping "failed to convert cc type to btf type" (lift (cc2btf c type))
  return { val with btf := some typ }

/-- `castNumber`. -/
def castNumber (c : Compiler) (type : CType) (val : EvalValue) : CodeM EvalValue := do
  let val ← wrapping "failed to cast value" (cast c type val)
  let reg ← wrapping "failed to allocate register for cast" alloc
  emit [Asm.movImm reg val.num]
  return { val with reg := reg }

/-- A literal of an access expression. -/
def accessNumber (what : String) (text : String) : CodeM Word :=
  wrapping ("failed to parse number of " ++ what) (lift (parseNumber text))

mutual

def accessMemory (c : Compiler) : Expr → CodeM AccessResult
  | .name text => lift (accessName c text)
  | .un .paren left => accessMemory c left
  | .un .addr left => do
    let res ← wrapping "failed to access memory for addr" (accessMemory c left)
    lift (accessAddr left.text res)
  | .un .indir left => do
    let res ← wrapping "failed to access memory for indir" (accessMemory c left)
    lift (accessIndir res)
  | .bin .and left right => do
    let val ← wrapping "failed to evaluate bitwise operation" do
      let l ← wrapping "failed to evaluate left operand" (eval c left)
      let r ← wrapping "failed to evaluate right operand" (eval c right)
      and c.heap l r
    lift (accessComputed val)
  | .bin .or left right => do
    let val ← wrapping "failed to evaluate bitwise operation" do
      let l ← wrapping "failed to evaluate left operand" (eval c left)
      let r ← wrapping "failed to evaluate right operand" (eval c right)
      or c.heap l r
    lift (accessComputed val)
  | .bin .add left right =>
    match left.numberText?, right.numberText? with
    | some text, _ => do
      let num ← accessNumber "add.left" text
      let res ← wrapping "failed to parse right of add" (accessMemory c right)
      lift (accessAdd c.heap num res)
    | none, some text => do
      let num ← accessNumber "add.right" text
      let res ← wrapping "failed to parse left of add" (accessMemory c left)
      lift (accessAdd c.heap num res)
    | none, none => fail (.errorf "number is required for add" [])
  | .bin .sub left right =>
    match right.numberText? with
    | none => fail (.errorf "sub.right must be number" [])
    | some text => do
      let num ← accessNumber "sub.right" text
      let res ← wrapping "failed to parse sub.left" (accessMemory c left)
      lift (accessSub c.heap num res)
  | .cast type left => do
    let res ←
      match left.numberText? with
      | some text => do
        let n ← wrapping "failed to parse number for cast" (lift (parseUnsigned text.toList))
        pure { uptr := n }
      | none => wrapping "failed to access memory for cast" (accessMemory c left)
    lift (accessCast c type res)
  | .dot left text => do
    let res ← accessMemory c left
    lift (accessMember c.heap left.text text res)
  | .arrow left text => do
    let res ← accessMemory c left
    lift (accessMember c.heap left.text text res)
  | .index left right => do
    let res ← wrapping "failed to access memory for index" (accessMemory c left)
    lift (accessIndex c.heap right res)
  | e => fail (.errorf "unsupported expression op %s" [.text e.op])

def eval (c : Compiler) : Expr → CodeM EvalValue
  | .dot left text => do
    let res ← do
      let res ← accessMemory c left
      lift (accessMember c.heap left.text text res)
    access c res
  | .arrow left text => do
    let res ← do
      let res ← accessMemory c left
      lift (accessMember c.heap left.text text res)
    access c res
  | .index left right => do
    let res ← do
      let res ← wrapping "failed to access memory for index" (accessMemory c left)
      lift (accessIndex c.heap right res)
    access c res
  | .un .addr left => do
    let res ← do
      let res ← wrapping "failed to access memory for addr" (accessMemory c left)
      lift (accessAddr left.text res)
    access c res
  | .un .indir left => do
    let res ← do
      let res ← wrapping "failed to access memory for indir" (accessMemory c left)
      lift (accessIndir res)
    access c res
  | .bin op left right => do
    let l ← wrapping "failed to evaluate left operand" (eval c left)
    let r ← wrapping "failed to evaluate right operand" (eval c right)
    binary c.heap op l r
  | .cast type left => do
    let val ← wrapping "failed to evaluate cast operand" (eval c left)
    if val.typ = .num then
      castNumber c type { val with typ := .regBtf }
    else
      cast c type val
  | .cond e left right => do
    let v ← wrapping "failed to evaluate cond operand" (eval c e)
    let l ← wrapping "failed to evaluate true operand" (eval c left)
    let r ← wrapping "failed to evaluate false operand" (eval c right)
    cond v l r
  | .name text => evalName c text
  | .number text => do
    let num ← wrapping "failed to parse number" (lift (parseNumber text))
    return { typ := .num, num := num }
  | .un .paren left => eval c left
  | .un .plus left => eval c left
  | .un .minus left => do
    let v ← wrapping "failed to evaluate operand" (eval c left)
    minus v
  | .un .not left => do
    let v ← wrapping "failed to evaluate operand" (eval c left)
    not v
  | .un .preDec left => do
    let v ← wrapping "failed to evaluate operand" (eval c left)
    preDec v
  | .un .preInc left => do
    let v ← wrapping "failed to evaluate operand" (eval c left)
    preInc v
  | .un .twid left => do
    let v ← wrapping "failed to evaluate operand" (eval c left)
    twid v
  | e => fail (.errorf "unsupported operator: %s" [.text e.op])

end

/-! ## The form of the source -/

theorem accessMemory_and (c : Compiler) (l r : Expr) :
    accessMemory c (.bin .and l r) = (do
      let val ← wrapping "failed to evaluate bitwise operation" (eval c (.bin .and l r))
      lift (accessComputed val)) := rfl

theorem accessMemory_or (c : Compiler) (l r : Expr) :
    accessMemory c (.bin .or l r) = (do
      let val ← wrapping "failed to evaluate bitwise operation" (eval c (.bin .or l r))
      lift (accessComputed val)) := rfl

/-- The nodes that `eval` hands to `access`. -/
def Expr.isAccess : Expr → Bool
  | .dot .. | .arrow .. | .index .. | .un .addr _ | .un .indir _ => true
  | _ => false

theorem eval_access (c : Compiler) {e : Expr} (h : e.isAccess) :
    eval c e = (do let res ← accessMemory c e; access c res) := by
  cases e with
  | dot => simp only [eval, accessMemory, bind_assoc]
  | arrow => simp only [eval, accessMemory, bind_assoc]
  | index => simp only [eval, accessMemory, bind_assoc]
  | un op => cases op <;> simp [Expr.isAccess] at h <;> simp only [eval, accessMemory, bind_assoc]
  | _ => simp [Expr.isAccess] at h

/-! ## What a cast did -/

section Casts

variable {c : Compiler} {type : CType} {left : Expr} {t : BtfType} {u v : EvalValue} {g g₁ g' : Gen}

/-- A cast that compiles has an operand and a type. -/
theorem eval_cast_operand (h : eval c (.cast type left) g = .ok (v, g')) : ∃ u g₁, eval c left g = .ok (u, g₁) := by
  simp only [eval, bind_eq_ok, wrapping_eq_ok] at h
  obtain ⟨u, g₁, hleft, -⟩ := h
  exact ⟨u, g₁, hleft⟩

theorem eval_cast_type (h : eval c (.cast type left) g = .ok (v, g')) : ∃ t, cc2btf c type = .ok t := by
  simp only [eval, castNumber, cast, bind_eq_ok] at h
  obtain ⟨u, g₁, -, h⟩ := h
  split at h
  all_goals
    simp only [bind_eq_ok, wrapping_eq_ok, lift_eq_ok] at h
    grind

/-- What `eval` does for a cast, behind its operand. -/
theorem eval_cast (hu : eval c left g = .ok (u, g₁)) (ht : cc2btf c type = .ok t)
    (h : eval c (.cast type left) g = .ok (v, g')) :
    (u.typ = .num ∧ v.typ = .regBtf ∧ v.btf = some t ∧ v.mem = u.mem ∧
      g'.insns = g₁.insns ++ [(Asm.movImm v.reg u.num : Insn)] ∧ g'.labelExitUsed = g₁.labelExitUsed) ∨
    (u.typ ≠ .num ∧ v = { u with btf := some t } ∧ g' = g₁) := by
  simp only [eval, bind_eq_ok, wrapping_eq_ok, hu, Except.ok.injEq, Prod.mk.injEq] at h
  obtain ⟨_, _, ⟨rfl, rfl⟩, h⟩ := h
  by_cases hnum : u.typ = .num
  · simp only [hnum, if_true, castNumber, cast, bind_eq_ok, wrapping_eq_ok, lift_eq_ok, alloc_eq_ok,
      emit_eq_ok, pure_eq_ok, ht, Except.ok.injEq] at h
    obtain ⟨_, _, ⟨_, _, ⟨rfl, rfl⟩, rfl, rfl⟩, reg, _, ⟨ra, -, rfl⟩, _, _, rfl, rfl, rfl⟩ := h
    exact .inl ⟨hnum, rfl, rfl, rfl, rfl, rfl⟩
  · simp only [hnum, if_false, cast, bind_eq_ok, wrapping_eq_ok, lift_eq_ok, pure_eq_ok, ht,
      Except.ok.injEq] at h
    obtain ⟨_, _, ⟨rfl, rfl⟩, rfl, rfl⟩ := h
    exact .inr ⟨hnum, rfl, rfl⟩

end Casts

end Bpfsnoop.CC
