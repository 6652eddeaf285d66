/-
Bpfsnoop.CC.Semantics — what the operators mean on run-time values.

A `Val` is an operand at run time: an `EvalValue` with the content of its
register in place of the register. `binSem`, `unSem` and `condSem` give
the value of the result for each operator, shape by shape, as the emitted
code computes it; nothing here says that this is what C computes.

An evaluation stops early in two ways: `exit`, a jump to the exit label,
and `undefined`, where the compiler refuses or would go on with a name it
could not resolve.
-/
import Bpfsnoop.CC.Eval
import Bpfsnoop.Ebpf.Forward

namespace Bpfsnoop.CC

open Ebpf Btf Reg

/-- An operand at run time. -/
structure Val where
  typ : EvalValueType
  word : Word := 0
  name : String := ""
  btf : Option BtfType := none
  mem : Option Member := none
  deriving DecidableEq, Repr

inductive Stop where
  | exit
  | undefined
  deriving DecidableEq, Repr

abbrev SemM := Except Stop

/-- The operand `v` stands for when the registers hold `regs`. -/
def EvalValue.at (v : EvalValue) (regs : Reg → Word) : Val :=
  { typ := v.typ
    word := if v.typ = .regBtf then regs v.reg else v.num
    name := v.name, btf := v.btf, mem := v.mem }

/-- The operand a run-time value comes from, as far as its type goes. -/
def Val.ref (v : Val) : EvalValue :=
  { typ := v.typ, name := v.name, btf := v.btf, mem := v.mem }

/-- A constant that meets `b`; a register keeps its content. -/
def Val.adjust (heap : Heap) (a b : Val) : Val :=
  if a.typ = .regBtf then a else { a with word := adjustNum heap a.word b.ref }

/-- A name that meets the enum type of `b`. -/
def Val.resolve (heap : Heap) (a b : Val) : SemM Val :=
  match extractEnum b.btf a.name with
  | .ok num => .ok { a with word := adjustNum heap num b.ref, typ := .num }
  | .error _ => .error .undefined

/-- `preHandleBinaryOp` at run time. -/
def preVal (heap : Heap) (a b : Val) : SemM (Val × Val) :=
  if a.typ = .regBtf ∧ !canCalculate a.btf then .error .undefined
  else if b.typ = .regBtf ∧ !canCalculate b.btf then .error .undefined
  else if a.typ = .enumMaybe ∧ b.typ = .regBtf then do
    return (← a.resolve heap b, b)
  else if a.typ = .regBtf ∧ b.typ = .enumMaybe then do
    return (a, ← b.resolve heap a)
  else .ok (a.adjust heap b, b.adjust heap (a.adjust heap b))

/-! ## The operators, by the shapes of their operands -/

section Operators

variable (heap : Heap)

/-- A value with another content. -/
def Val.set (v : Val) (w : Word) : Val := { v with word := w }

/-- The result of dividing or shifting a constant by a register: a
register value of that register's type. -/
def Val.fresh (b : Val) (w : Word) : Val := { typ := .regBtf, word := w, btf := b.btf }

def addConstSem (n : Word) (v : Val) : SemM Val :=
  if n = 0 then .ok v
  else
    match v.btf.map underlyingType with
    | some (.pointer target) =>
      if isVoid target then .ok (v.set (v.word + int32 n))
      else if sizeofD heap target = 0 then .error .undefined
      else .ok (v.set (v.word + scaled n (sizeofD heap target)))
    | some (.array type _) =>
      if sizeofD heap type = 0 then .error .undefined
      else .ok (v.set (v.word + scaled n (sizeofD heap type)))
    | _ => .ok (v.set (v.word + int32 n))

/-- The right operand of `+` and `-` on two registers, scaled by the
element size of the left one's type. -/
def scaleBy (a b : Val) : Word :=
  if elemSize heap a.btf ≠ 0 then b.word * int32 (BitVec.ofNat 64 (elemSize heap a.btf))
  else b.word

def subConstSem (a : Val) (n : Word) : SemM Val :=
  if n = 0 then .ok a
  else
    match a.btf.map underlyingType with
    | some (.pointer target) =>
      if sizeofD heap target = 0 then .ok (a.set (a.word - int32 n))
      else .ok (a.set (a.word - scaled n (sizeofD heap target)))
    | some (.array type _) =>
      if sizeofD heap type = 0 then .error .undefined
      else .ok (a.set (a.word - scaled n (sizeofD heap type)))
    | _ => .ok (a.set (a.word - int32 n))

/-- The content of the register an operator leaves behind: `nn` on two
constants, `rr` on two registers, `nr` and `rn` on one of each. -/
def shaped (a b : Val) (nn rr nr rn : SemM Val) : SemM Val :=
  match a.typ, b.typ with
  | .num, .num => nn
  | .regBtf, .regBtf => rr
  | .num, .regBtf => nr
  | .regBtf, .num => rn
  | _, _ => .error .undefined

def orLikeSem (fold : Word → Word → Word) (a b : Val) : SemM Val :=
  shaped a b
    (.ok (a.set (fold a.word b.word)))
    (.ok (a.set (fold a.word b.word)))
    (.ok (if a.word = 0 then a else b.set (fold b.word (int32 a.word))))
    (.ok (if b.word = 0 then b else a.set (fold a.word (int32 b.word))))

def compareSem (fold : Word → Word → Bool) (inverse : JumpOp) (a b : Val) : SemM Val :=
  shaped a b
    (.ok (a.set (bool2int (fold a.word b.word))))
    (.ok (a.set (bool2int (!inverse.eval a.word b.word))))
    (.ok (b.set (bool2int (!inverse.eval b.word (int32 a.word)))))
    (.ok (a.set (bool2int (!inverse.eval a.word (int32 b.word)))))

/-- `mul` of a constant and a register. -/
def mulConstSem (n v : Val) : Val :=
  if n.word = 0 then n else if n.word = 1 then v else v.set (v.word * int32 n.word)

def shiftSem (fold : Word → Nat → Word) (op : AluOp) (a b : Val) : SemM Val :=
  shaped a b
    (match shiftCount b.word with
      | .ok n => .ok (a.set (fold a.word n))
      | .error _ => .error .undefined)
    (.ok (a.set (op.eval a.word b.word)))
    (.ok (if a.word = 0 then a else b.fresh (op.eval (int32 a.word) b.word)))
    (if b.word.slt 0 then .error .undefined
      else .ok (if b.word = 0 then a else a.set (op.eval a.word (int32 b.word))))

/-- The result of a binary operator on operands that went through
`preVal`. -/
def opSem (op : BinOp) (a b : Val) : SemM Val :=
  match op with
  | .add =>
    shaped a b (.ok (a.set (a.word + b.word))) (.ok (a.set (a.word + scaleBy heap a b)))
      (addConstSem heap a.word b) (addConstSem heap b.word a)
  | .sub =>
    shaped a b (.ok (a.set (a.word - b.word))) (.ok (a.set (a.word - scaleBy heap a b)))
      (if isIntOrEnum b.btf then
        .ok (b.set (if a.word = 0 then -b.word else b.word - int32 a.word))
      else .error .undefined)
      (subConstSem heap a b.word)
  | .and =>
    shaped a b (.ok (a.set (a.word &&& b.word))) (.ok (a.set (a.word &&& b.word)))
      (.ok (b.set (b.word &&& int32 a.word))) (.ok (a.set (a.word &&& int32 b.word)))
  | .or => orLikeSem (· ||| ·) a b
  | .xor => orLikeSem (· ^^^ ·) a b
  | .andAnd =>
    shaped a b (.ok (a.set (bool2int (a.word ≠ 0 && b.word ≠ 0))))
      (.ok (a.set (bool2int (a.word ≠ 0 && b.word ≠ 0))))
      (.ok (if a.word = 0 then a else b.set (bool2int (b.word ≠ 0))))
      (.ok (if b.word = 0 then b else a.set (bool2int (a.word ≠ 0))))
  | .orOr =>
    shaped a b (.ok (a.set (bool2int (a.word ≠ 0 || b.word ≠ 0))))
      (.ok (a.set (bool2int (a.word ≠ 0 || b.word ≠ 0))))
      (.ok (if a.word ≠ 0 then a.set 1 else b.set (bool2int (b.word ≠ 0))))
      (.ok (if b.word ≠ 0 then b.set 1 else a.set (bool2int (a.word ≠ 0))))
  | .eqEq => compareSem (· == ·) .ne a b
  | .notEq => compareSem (· != ·) .eq a b
  | .gt => compareSem (fun a b => b.slt a) .le a b
  | .gtEq => compareSem (fun a b => b.sle a) .lt a b
  | .lt => compareSem BitVec.slt .ge a b
  | .ltEq => compareSem BitVec.sle .gt a b
  | .mul =>
    shaped a b (.ok (a.set (a.word * b.word))) (.ok (a.set (a.word * b.word)))
      (.ok (mulConstSem a b)) (.ok (mulConstSem b a))
  | .div =>
    if b.typ = .num ∧ b.word = 0 then .error .undefined
    -- the guard on a zero divisor skips the wrong branch: with a register
    -- divisor the division is reached only when the divisor is zero
    else shaped a b (.ok (a.set (a.word.sdiv b.word))) (.ok (a.set 0)) (.ok (b.fresh 0))
      (.ok (a.set (AluOp.div.eval a.word (int32 b.word))))
  | .mod =>
    if b.typ = .num ∧ b.word = 0 then .error .undefined
    else shaped a b (.ok (a.set (a.word.srem b.word))) (.ok (a.set (AluOp.mod.eval a.word b.word)))
      (.ok (if a.word = 0 then a else b.fresh (AluOp.mod.eval (int32 a.word) b.word)))
      (.ok (a.set (if b.word = 1 then 0 else AluOp.mod.eval a.word (int32 b.word))))
  | .lsh => shiftSem (· <<< ·) .lsh a b
  | .rsh => shiftSem BitVec.sshiftRight .rsh a b

/-- A binary operator on run-time values. -/
def binSem (op : BinOp) (a b : Val) : SemM Val := do
  let (a, b) ← preVal heap a b
  opSem heap op a b

end Operators

/-- `unary` at run time: `fold` on a constant, `code` on a register. -/
def unarySem (fold code : Word → Word) (v : Val) : SemM Val :=
  match v.typ with
  | .num => .ok (v.set (fold v.word))
  | .regBtf => if canCalculate v.btf then .ok (v.set (code v.word)) else .error .undefined
  | _ => .error .undefined

/-- The unary operators that `eval` compiles to code. -/
def unSem (op : UnOp) (v : Val) : SemM Val :=
  match op with
  | .minus =>
    match v.typ with
    | .num | .regBtf => .ok (v.set (-v.word))
    | _ => .error .undefined
  | .not => unarySem (fun n => bool2int (n = 0)) (fun n => bool2int (n = 0)) v
  | .twid => unarySem (~~~ ·) (· ^^^ int32 (-1)) v
  | .preDec => unarySem (· - 1) (· - int32 1) v
  | .preInc => unarySem (· + 1) (· + int32 1) v
  | .paren | .plus => .ok v
  | .addr | .indir => .error .undefined

/-- Whether `cond` accepts an operand. -/
def Val.condOk (v : Val) : Bool := v.typ ≠ .regBtf || canCalculate v.btf

/-- The word an arm moves into the register of the condition. -/
def Val.armWord (v : Val) : Word := if v.typ = .num then int32 v.word else v.word

/-- The conditional operator. The result carries the type of the
condition. A name in one of the three places is not resolved: the code
then reads and frees `r0`, and no value is given. -/
def condSem (c l r : Val) : SemM Val :=
  if !(c.condOk && l.condOk && r.condOk) then .error .undefined
  else if c.typ = .num then .ok (if c.word = 0 then r else l)
  else if c.typ = .regBtf ∧ (l.typ = .num ∨ l.typ = .regBtf) ∧ (r.typ = .num ∨ r.typ = .regBtf) then
    .ok (c.set (if c.word = 0 then r.armWord else l.armWord))
  else .error .undefined

end Bpfsnoop.CC
