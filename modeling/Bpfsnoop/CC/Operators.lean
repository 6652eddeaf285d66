/-
Bpfsnoop.CC.Operators — the operator functions of the expression compiler.

`EvalValue` is a compiled operand: a constant, a register with a type, or
a name that may turn out to be an enum constant. Every operator takes its
operands in that form, emits code, frees what it consumed and returns the
operand that holds the result.

The six comparisons are one definition with parameters (`compare`), and
so are `or` and `xor` (`orLike`); each keeps its own name below.
-/
import Bpfsnoop.CC.MemoryRead

namespace Bpfsnoop.CC

open Ebpf Btf Reg

/-! ## Compiled operands -/

inductive EvalValueType where
  | unspec | num | regBtf | enumMaybe
  deriving DecidableEq, Repr

/-- `evalValue`. -/
structure EvalValue where
  typ : EvalValueType
  reg : Reg := R0
  num : Word := 0
  name : String := ""
  btf : Option BtfType := none
  mem : Option Member := none
  deriving DecidableEq, Repr

/-- `bool2int`. -/
def bool2int (b : Bool) : Word := if b then 1 else 0

/-- `canCalculate`. -/
def canCalculate (t : Option BtfType) : Bool :=
  match t.map underlyingType with
  | some (.int ..) | some (.enum ..) | some (.pointer _) | some (.array ..) => true
  | _ => false

/-- `emitReg2bool`: entered at the front it sets `reg` to 1, entered at
its last instruction to 0. -/
def reg2bool (reg : Reg) : List Insn :=
  [Asm.movImm reg 1, ja 1, Op.alu .xor reg (.reg reg)]

/-- `extractEnum`. -/
def extractEnum (typ : Option BtfType) (enum : String) : Except GoError Word :=
  match typ.map underlyingType with
  | some (.enum _ _ _ values) =>
    match values.find? fun v => v.1 = enum with
    | some v => .ok v.2
    | none => .error (.errorf "enum '%s' not found in type %v" [.text enum, .type typ])
  | _ => .error (.errorf "type %v is not an enum for '%s'" [.type typ, .text enum])

/-- `btf.Sizeof` of a type that may be nil, 0 when it fails. -/
def sizeofOpt (heap : Heap) (t : Option BtfType) : Nat := (t.bind (sizeof heap)).getD 0

/-- `adjustNum`: a constant cut to the width of the register it meets. -/
def adjustNum (heap : Heap) (num : Word) (ref : EvalValue) : Word :=
  if ref.typ ≠ .regBtf then num
  else
    match ref.mem with
    | some m =>
      if m.bitfieldSize ≠ 0 then num &&& bitfieldMask m else bySize
    | none => bySize
where
  bySize : Word :=
    match sizeofOpt heap ref.btf with
    | 1 => num &&& 0xFF
    | 2 => num &&& 0xFFFF
    | 4 => num &&& 0xFFFFFFFF
    | _ => num

/-- `preHandleBinaryOp`. -/
def preHandleBinaryOp (heap : Heap) (a b : EvalValue) :
    Except GoError (EvalValue × EvalValue) :=
  if a.typ = .regBtf ∧ !canCalculate a.btf then
    .error (.errorf "disallow type %v for binary op" [.type a.btf])
  else if b.typ = .regBtf ∧ !canCalculate b.btf then
    .error (.errorf "disallow type %v for binary op" [.type b.btf])
  else if a.typ = .enumMaybe ∧ b.typ = .regBtf then
    match extractEnum b.btf a.name with
    | .ok num => .ok ({ a with num := adjustNum heap num b, typ := .num }, b)
    | .error e => .error (.wrapf "failed to extract enum: %w" [] e)
  else if a.typ = .regBtf ∧ b.typ = .enumMaybe then
    match extractEnum a.btf b.name with
    | .ok num => .ok (a, { b with num := adjustNum heap num a, typ := .num })
    | .error e => .error (.wrapf "failed to extract enum: %w" [] e)
  else
    let a := { a with num := adjustNum heap a.num b }
    .ok (a, { b with num := adjustNum heap b.num a })

variable (heap : Heap)

/-! ## Addition and subtraction -/

/-- The element size of a pointer or an array, 0 for anything else. -/
def elemSize (t : Option BtfType) : Nat :=
  match t.map underlyingType with
  | some (.pointer target) => sizeofD heap target
  | some (.array type _) => sizeofD heap type
  | _ => 0

/-- `int32(num) * int32(size)`. -/
def scaled (num : Word) (size : Nat) : Word :=
  (num.setWidth 32 * BitVec.ofNat 32 size).signExtend 64

/-- `add` of a register and a constant, in the two orders. -/
def addConst (num : Word) (v : EvalValue) : CodeM EvalValue := do
  if num = 0 then
    return v
  match v.btf.map underlyingType with
  | some (.pointer target) =>
    if isVoid target then
      emit [Asm.addImm v.reg (int32 num)]
    else
      let size := sizeofD heap target
      if size = 0 then
        free v.reg
        fail (.errorf "disallow type %v for add" [.type v.btf])
      emit [Asm.addImm v.reg (scaled num size)]
  | some (.array type _) =>
    let size := sizeofD heap type
    if size = 0 then
      free v.reg
      fail (.errorf "disallow type %v for add" [.type v.btf])
    emit [Asm.addImm v.reg (scaled num size)]
  | _ => emit [Asm.addImm v.reg (int32 num)]
  return v

def add (left right : EvalValue) : CodeM EvalValue := do
  let (left, right) ← lift (preHandleBinaryOp heap left right)
  match left.typ, right.typ with
  | .num, .num => return { left with num := left.num + right.num }
  | .regBtf, .regBtf =>
    let size := elemSize heap left.btf
    if size ≠ 0 then
      emit [Op.alu .mul right.reg (.imm (int32 (BitVec.ofNat 64 size)))]
    emit [Op.alu .add left.reg (.reg right.reg)]
    free right.reg
    return left
  | .num, .regBtf => addConst heap left.num right
  | .regBtf, .num => addConst heap right.num left
  | _, _ => fail .notImplemented

/-- `case *btf.Int, *btf.Enum` on the underlying type. -/
def isIntOrEnum (t : Option BtfType) : Bool :=
  match t.map underlyingType with
  | some (.int ..) | some (.enum ..) => true
  | _ => false

def sub (left right : EvalValue) : CodeM EvalValue := do
  let (left, right) ← lift (preHandleBinaryOp heap left right)
  match left.typ, right.typ with
  | .num, .num => return { left with num := left.num - right.num }
  | .num, .regBtf =>
    if isIntOrEnum right.btf then
      if left.num = 0 then
        emit [Op.alu .neg right.reg (.reg right.reg)]
        return right
      emit [Op.alu .sub right.reg (.imm (int32 left.num))]
      return right
    else
      free right.reg
      fail (.errorf "disallow type %v for sub" [.type right.btf])
  | .regBtf, .num =>
    if right.num = 0 then
      return left
    match left.btf.map underlyingType with
    | some (.pointer target) =>
      let size := sizeofD heap target
      if size = 0 then
        emit [Op.alu .sub left.reg (.imm (int32 right.num))]
      else
        emit [Op.alu .sub left.reg (.imm (scaled right.num size))]
    | some (.array type _) =>
      let size := sizeofD heap type
      if size = 0 then
        free left.reg
        fail (.errorf "disallow type %v for sub" [.type left.btf])
      emit [Op.alu .sub left.reg (.imm (scaled right.num size))]
    | _ => emit [Op.alu .sub left.reg (.imm (int32 right.num))]
    return left
  | .regBtf, .regBtf =>
    let size := elemSize heap left.btf
    if size ≠ 0 then
      emit [Op.alu .mul right.reg (.imm (int32 (BitVec.ofNat 64 size)))]
    emit [Op.alu .sub left.reg (.reg right.reg)]
    free right.reg
    return left
  | _, _ => fail .notImplemented

/-! ## Bitwise operators -/

def and (left right : EvalValue) : CodeM EvalValue := do
  let (left, right) ← lift (preHandleBinaryOp heap left right)
  match left.typ, right.typ with
  | .num, .num => return { left with num := left.num &&& right.num }
  | .regBtf, .regBtf =>
    emit [Op.alu .and left.reg (.reg right.reg)]
    free right.reg
    return left
  | .num, .regBtf =>
    emit [Op.alu .and right.reg (.imm (int32 left.num))]
    return right
  | .regBtf, .num =>
    emit [Op.alu .and left.reg (.imm (int32 right.num))]
    return left
  | _, _ => fail .notImplemented

/-- `or` and `xor`: the constant 0 frees the register and is returned in
its place. -/
def orLike (fold : Word → Word → Word) (op : AluOp) (left right : EvalValue) :
    CodeM EvalValue := do
  let (left, right) ← lift (preHandleBinaryOp heap left right)
  match left.typ, right.typ with
  | .num, .num => return { left with num := fold left.num right.num }
  | .regBtf, .regBtf =>
    emit [Op.alu op left.reg (.reg right.reg)]
    free right.reg
    return left
  | .num, .regBtf =>
    if left.num = 0 then
      free right.reg
      return left
    emit [Op.alu op right.reg (.imm (int32 left.num))]
    return right
  | .regBtf, .num =>
    if right.num = 0 then
      free left.reg
      return right
    emit [Op.alu op left.reg (.imm (int32 right.num))]
    return left
  | _, _ => fail .notImplemented

def or : EvalValue → EvalValue → CodeM EvalValue := orLike heap (· ||| ·) .or

def xor : EvalValue → EvalValue → CodeM EvalValue := orLike heap (· ^^^ ·) .xor

/-! ## Logical operators -/

def andand (left right : EvalValue) : CodeM EvalValue := do
  let (left, right) ← lift (preHandleBinaryOp heap left right)
  match left.typ, right.typ with
  | .num, .num => return { left with num := bool2int (left.num ≠ 0 && right.num ≠ 0) }
  | .regBtf, .regBtf =>
    emit [jmpOff .eq left.reg 0 3]
    emit [jmpOff .eq right.reg 0 2]
    emit (reg2bool left.reg)
    free right.reg
    return left
  | .num, .regBtf =>
    if left.num = 0 then
      free right.reg
      return left
    emit [jmpOff .eq right.reg 0 2]
    emit (reg2bool right.reg)
    return right
  | .regBtf, .num =>
    if right.num = 0 then
      free left.reg
      return right
    emit [jmpOff .eq left.reg 0 2]
    emit (reg2bool left.reg)
    return left
  | _, _ => fail .notImplemented

def oror (left right : EvalValue) : CodeM EvalValue := do
  let (left, right) ← lift (preHandleBinaryOp heap left right)
  match left.typ, right.typ with
  | .num, .num => return { left with num := bool2int (left.num ≠ 0 || right.num ≠ 0) }
  | .regBtf, .regBtf =>
    emit [jmpOff .ne left.reg 0 3]
    emit [jmpOff .ne right.reg 0 2]
    emit [Op.alu .xor left.reg (.reg left.reg)]
    emit [ja 1]
    emit [Asm.movImm left.reg 1]
    free right.reg
    return left
  | .num, .regBtf =>
    if left.num ≠ 0 then
      free right.reg
      return { left with num := 1 }
    emit [jmpOff .eq right.reg 0 2]
    emit (reg2bool right.reg)
    return right
  | .regBtf, .num =>
    if right.num ≠ 0 then
      free left.reg
      return { right with num := 1 }
    emit [jmpOff .eq left.reg 0 2]
    emit (reg2bool left.reg)
    return left
  | _, _ => fail .notImplemented

/-! ## Comparisons -/

/-- A comparison: `fold` on constants, and the jump taken when it does
not hold. The same jump serves both orders of register and constant. -/
def compare (fold : Word → Word → Bool) (inverse : JumpOp) (left right : EvalValue) :
    CodeM EvalValue := do
  let (left, right) ← lift (preHandleBinaryOp heap left right)
  match left.typ, right.typ with
  | .num, .num => return { left with num := bool2int (fold left.num right.num) }
  | .num, .regBtf =>
    emit [jmpOff inverse right.reg left.num 2]
    emit (reg2bool right.reg)
    return right
  | .regBtf, .num =>
    emit [jmpOff inverse left.reg right.num 2]
    emit (reg2bool left.reg)
    return left
  | .regBtf, .regBtf =>
    emit [jmpReg inverse left.reg right.reg 2]
    emit (reg2bool left.reg)
    free right.reg
    return left
  | _, _ => fail .notImplemented

def eqeq : EvalValue → EvalValue → CodeM EvalValue := compare heap (· == ·) .ne
def noteq : EvalValue → EvalValue → CodeM EvalValue := compare heap (· != ·) .eq
def gt : EvalValue → EvalValue → CodeM EvalValue := compare heap (fun a b => b.slt a) .le
def gteq : EvalValue → EvalValue → CodeM EvalValue := compare heap (fun a b => b.sle a) .lt
def lt : EvalValue → EvalValue → CodeM EvalValue := compare heap BitVec.slt .ge
def lteq : EvalValue → EvalValue → CodeM EvalValue := compare heap BitVec.sle .gt

/-! ## Multiplication, division, remainder -/

def mul (left right : EvalValue) : CodeM EvalValue := do
  let (left, right) ← lift (preHandleBinaryOp heap left right)
  match left.typ, right.typ with
  | .num, .num => return { left with num := left.num * right.num }
  | .regBtf, .regBtf =>
    emit [Op.alu .mul left.reg (.reg right.reg)]
    free right.reg
    return left
  | _, _ =>
    let (left, right) := if right.typ = .regBtf then (right, left) else (left, right)
    if left.typ = .regBtf ∧ right.typ = .num then
      if right.num = 0 then
        free left.reg
        return right
      if right.num = 1 then
        return left
      emit [Op.alu .mul left.reg (.imm (int32 right.num))]
      return left
    fail .notImplemented

def div (left right : EvalValue) : CodeM EvalValue := do
  let (left, right) ← lift (preHandleBinaryOp heap left right)
  if right.typ = .num ∧ right.num = 0 then
    fail (.errorf "division by zero" [])
  match left.typ, right.typ with
  | .num, .num => return { left with num := left.num.sdiv right.num }
  | .num, .regBtf =>
    let reg ← alloc
    emit [jmpOff .eq right.reg 0 2]
    emit [Asm.movImm reg 0]
    emit [ja 2]
    emit [Asm.movImm reg (int32 left.num)]
    emit [Op.alu .div reg (.reg right.reg)]
    free right.reg
    return { typ := .regBtf, reg := reg, btf := right.btf }
  | .regBtf, .num =>
    emit [Op.alu .div left.reg (.imm (int32 right.num))]
    return left
  | .regBtf, .regBtf =>
    emit [jmpOff .eq right.reg 0 2]
    emit [Asm.movImm left.reg 0]
    emit [ja 1]
    emit [Op.alu .div left.reg (.reg right.reg)]
    free right.reg
    return left
  | _, _ => fail .notImplemented

def mod (left right : EvalValue) : CodeM EvalValue := do
  let (left, right) ← lift (preHandleBinaryOp heap left right)
  if right.typ = .num ∧ right.num = 0 then
    fail (.errorf "mod by zero" [])
  match left.typ, right.typ with
  | .num, .num => return { left with num := left.num.srem right.num }
  | .num, .regBtf =>
    if left.num = 0 then
      free right.reg
      return left
    let reg ← alloc
    emit [Asm.movImm reg (int32 left.num)]
    emit [Op.alu .mod reg (.reg right.reg)]
    free right.reg
    return { typ := .regBtf, reg := reg, btf := right.btf }
  | .regBtf, .num =>
    if right.num = 1 then
      emit [Asm.movImm left.reg 0]
      return left
    emit [Op.alu .mod left.reg (.imm (int32 right.num))]
    return left
  | .regBtf, .regBtf =>
    emit [jmpOff .eq right.reg 0 1]
    emit [Op.alu .mod left.reg (.reg right.reg)]
    free right.reg
    return left
  | _, _ => fail .notImplemented

/-! ## Shifts -/

/-- A Go shift by an `int64` count panics on a negative one. -/
def shiftCount (n : Word) : Except GoError Nat :=
  if n.slt 0 then .error (.panic "negative shift amount") else .ok n.toNat

def lsh (left right : EvalValue) : CodeM EvalValue := do
  let (left, right) ← lift (preHandleBinaryOp heap left right)
  match left.typ, right.typ with
  | .num, .num =>
    let n ← lift (shiftCount right.num)
    return { left with num := left.num <<< n }
  | .num, .regBtf =>
    if left.num = 0 then
      free right.reg
      return left
    let reg ← alloc
    emit [Asm.movImm reg (int32 left.num)]
    emit [Op.alu .lsh reg (.reg right.reg)]
    free right.reg
    return { typ := .regBtf, reg := reg, btf := right.btf }
  | .regBtf, .num =>
    if right.num.slt 0 then
      fail (.errorf "shift count is negative" [])
    if right.num = 0 then
      return left
    emit [Op.alu .lsh left.reg (.imm (int32 right.num))]
    return left
  | .regBtf, .regBtf =>
    emit [jmpOff .le right.reg 0 1]
    emit [Op.alu .lsh left.reg (.reg right.reg)]
    free right.reg
    return left
  | _, _ => fail .notImplemented

def rsh (left right : EvalValue) : CodeM EvalValue := do
  let (left, right) ← lift (preHandleBinaryOp heap left right)
  match left.typ, right.typ with
  | .num, .num =>
    let n ← lift (shiftCount right.num)
    return { left with num := left.num.sshiftRight n }
  | .num, .regBtf =>
    if left.num = 0 then
      free right.reg
      return left
    let reg ← alloc
    emit [Asm.movImm reg (int32 left.num)]
    emit [Op.alu .rsh reg (.reg right.reg)]
    free right.reg
    return { typ := .regBtf, reg := reg, btf := right.btf }
  | .regBtf, .num =>
    if right.num.slt 0 then
      fail (.errorf "shift count is negative" [])
    if right.num = 0 then
      return left
    emit [Op.alu .rsh left.reg (.imm (int32 right.num))]
    return left
  | .regBtf, .regBtf =>
    emit [Op.alu .rsh left.reg (.reg right.reg)]
    free right.reg
    return left
  | _, _ => fail .notImplemented

/-! ## Unary operators -/

def minus (val : EvalValue) : CodeM EvalValue :=
  match val.typ with
  | .num => return { val with num := -val.num }
  | .regBtf => do
    emit [Op.alu .neg val.reg (.reg val.reg)]
    return val
  | _ => fail .notImplemented

/-- The shape of `not`, `twid`, `preDec` and `preInc`: `fold` on a
constant, `code` on a register whose type can be calculated with. -/
def unary (fold : Word → Word) (code : Reg → List Insn) (what : String) (val : EvalValue) :
    CodeM EvalValue :=
  match val.typ with
  | .num => return { val with num := fold val.num }
  | .regBtf => do
    if !canCalculate val.btf then
      free val.reg
      fail (.errorf ("disallow type %v for " ++ what) [.type val.btf])
    emit (code val.reg)
    return val
  | _ => fail .notImplemented

def not : EvalValue → CodeM EvalValue :=
  unary (fun n => bool2int (n = 0)) (fun r => jmpOff .ne r 0 2 :: reg2bool r) "not"

def twid : EvalValue → CodeM EvalValue :=
  unary (~~~ ·) (fun r => [Op.alu .xor r (.imm (-1))]) "twid"

def preDec : EvalValue → CodeM EvalValue :=
  unary (· - 1) (fun r => [Op.alu .sub r (.imm 1)]) "pre-decrement"

def preInc : EvalValue → CodeM EvalValue :=
  unary (· + 1) (fun r => [Op.alu .add r (.imm 1)]) "pre-increment"

/-! ## The conditional operator -/

/-- The code of one arm, moved into the register of the condition. An arm
that is neither a constant nor a register goes the way of a register. -/
def condArm (cond arm : EvalValue) : CodeM Unit := do
  if arm.typ = .num then
    emit [Asm.movImm cond.reg (int32 arm.num)]
  else
    emit [Asm.movReg cond.reg arm.reg]
    free arm.reg

/-- The type check of `cond` on each of its operands. -/
def condCheck (v : EvalValue) : CodeM Unit := do
  if v.typ = .regBtf ∧ !canCalculate v.btf then
    free v.reg
    fail (.errorf "disallow type %v for cond" [.type v.btf])

def cond (cond left right : EvalValue) : CodeM EvalValue := do
  condCheck cond
  condCheck left
  condCheck right
  if cond.typ = .num then
    return if cond.num = 0 then right else left
  emit [jmpOff .eq cond.reg 0 2]
  condArm cond left
  emit [ja 1]
  condArm cond right
  return cond

end Bpfsnoop.CC
