/-
Bpfsnoop.CC.Syntax — the expressions the compiler takes, and its errors.

`Expr` is the syntax tree of the C expression parser, one constructor for
each shape of node; an operator the compiler never handles is `other`.
`parseUnsigned` and `parseNumber` are `number.go`.
-/
import Bpfsnoop.Btf.Types

namespace Bpfsnoop.CC

open Ebpf Btf

/-! ## Errors -/

/-- An argument of a formatted error text. -/
inductive ErrArg where
  | text (s : String)
  | type (t : Option BtfType)
  | num (n : Word)
  deriving DecidableEq, Repr

/-- Go errors: the sentinels of `error.go` and `strconv`, `fmt.Errorf`
without and with a wrapped error, and a run-time panic. -/
inductive GoError where
  | notImplemented
  | registerNotEnough
  | varNotFound
  | btfNotFound
  | errSyntax
  | errRange
  | lookup (e : LookupError)
  | errorf (format : String) (args : List ErrArg)
  | wrapf (format : String) (args : List ErrArg) (err : GoError)
  | panic (text : String)
  deriving Repr

/-! ## Syntax trees -/

/-- The type of a cast: `cc.Type`, its kind and its spelling. -/
inductive CType where
  | struct (tag : String)
  | ptr (base : CType)
  | other (name : String)
  deriving DecidableEq, Repr

/-- `cc.Type.String`. -/
def CType.string : CType → String
  | .struct tag => "struct " ++ tag
  | .ptr base => base.string ++ "*"
  | .other name => name

inductive UnOp where
  | addr | indir | minus | not | paren | plus | preDec | preInc | twid
  deriving DecidableEq, Repr

inductive BinOp where
  | add | and | andAnd | div | eqEq | gt | gtEq | lsh | lt | ltEq | mod | mul | notEq
  | or | orOr | rsh | sub | xor
  deriving DecidableEq, Repr

/-- `cc.Expr`. -/
inductive Expr where
  | name (text : String)
  | number (text : String)
  | un (op : UnOp) (left : Expr)
  | bin (op : BinOp) (left right : Expr)
  | cond (cond left right : Expr)
  | cast (type : CType) (left : Expr)
  | dot (left : Expr) (text : String)
  | arrow (left : Expr) (text : String)
  | index (left right : Expr)
  | call (left : Expr) (list : List Expr)
  | other (op : String)

namespace Expr

/-- Structural induction; the arguments of a call are never compiled as
part of the call, so they carry no hypothesis. -/
@[induction_eliminator]
theorem induct {P : Expr → Prop}
    (name : ∀ text, P (.name text))
    (number : ∀ text, P (.number text))
    (un : ∀ op left, P left → P (.un op left))
    (bin : ∀ op left right, P left → P right → P (.bin op left right))
    (cond : ∀ cond left right, P cond → P left → P right → P (.cond cond left right))
    (cast : ∀ type left, P left → P (.cast type left))
    (dot : ∀ left text, P left → P (.dot left text))
    (arrow : ∀ left text, P left → P (.arrow left text))
    (index : ∀ left right, P left → P right → P (.index left right))
    (call : ∀ left list, P left → P (.call left list))
    (other : ∀ op, P (.other op)) : ∀ e, P e
  | .name t => name t
  | .number t => number t
  | .un op l => un op l (induct name number un bin cond cast dot arrow index call other l)
  | .bin op l r =>
      bin op l r (induct name number un bin cond cast dot arrow index call other l)
        (induct name number un bin cond cast dot arrow index call other r)
  | .cond c l r =>
      cond c l r (induct name number un bin cond cast dot arrow index call other c)
        (induct name number un bin cond cast dot arrow index call other l)
        (induct name number un bin cond cast dot arrow index call other r)
  | .cast t l => cast t l (induct name number un bin cond cast dot arrow index call other l)
  | .dot l t => dot l t (induct name number un bin cond cast dot arrow index call other l)
  | .arrow l t => arrow l t (induct name number un bin cond cast dot arrow index call other l)
  | .index l r =>
      index l r (induct name number un bin cond cast dot arrow index call other l)
        (induct name number un bin cond cast dot arrow index call other r)
  | .call l args => call l args (induct name number un bin cond cast dot arrow index call other l)
  | .other op => other op

/-! ### A subexpression is smaller -/

theorem lt_un (op : UnOp) (left : Expr) : sizeOf left < sizeOf (un op left) := by
  rw [un.sizeOf_spec]; omega

theorem left_lt_bin (op : BinOp) (left right : Expr) : sizeOf left < sizeOf (bin op left right) := by
  rw [bin.sizeOf_spec]; omega

theorem right_lt_bin (op : BinOp) (left right : Expr) : sizeOf right < sizeOf (bin op left right) := by
  rw [bin.sizeOf_spec]; omega

theorem cond_lt_cond (e left right : Expr) : sizeOf e < sizeOf (cond e left right) := by
  rw [cond.sizeOf_spec]; omega

theorem left_lt_cond (e left right : Expr) : sizeOf left < sizeOf (cond e left right) := by
  rw [cond.sizeOf_spec]; omega

theorem right_lt_cond (e left right : Expr) : sizeOf right < sizeOf (cond e left right) := by
  rw [cond.sizeOf_spec]; omega

theorem lt_cast (type : CType) (left : Expr) : sizeOf left < sizeOf (cast type left) := by
  rw [cast.sizeOf_spec]; omega

theorem lt_dot (left : Expr) (text : String) : sizeOf left < sizeOf (dot left text) := by
  rw [dot.sizeOf_spec]; omega

theorem lt_arrow (left : Expr) (text : String) : sizeOf left < sizeOf (arrow left text) := by
  rw [arrow.sizeOf_spec]; omega

theorem lt_index (left right : Expr) : sizeOf left < sizeOf (index left right) := by
  rw [index.sizeOf_spec]; omega

/-- `expr.Text`. -/
def text : Expr → String
  | .name t | .number t | .dot _ t | .arrow _ t => t
  | _ => ""

/-- The spelling of `expr.Op` in error texts. -/
def op : Expr → String
  | .name _ => "Name"
  | .number _ => "Number"
  | .un .addr _ => "Addr"
  | .un .indir _ => "Indir"
  | .un .minus _ => "Minus"
  | .un .not _ => "Not"
  | .un .paren _ => "Paren"
  | .un .plus _ => "Plus"
  | .un .preDec _ => "PreDec"
  | .un .preInc _ => "PreInc"
  | .un .twid _ => "Twid"
  | .bin .add .. => "Add"
  | .bin .and .. => "And"
  | .bin .andAnd .. => "AndAnd"
  | .bin .div .. => "Div"
  | .bin .eqEq .. => "EqEq"
  | .bin .gt .. => "Gt"
  | .bin .gtEq .. => "GtEq"
  | .bin .lsh .. => "Lsh"
  | .bin .lt .. => "Lt"
  | .bin .ltEq .. => "LtEq"
  | .bin .mod .. => "Mod"
  | .bin .mul .. => "Mul"
  | .bin .notEq .. => "NotEq"
  | .bin .or .. => "Or"
  | .bin .orOr .. => "OrOr"
  | .bin .rsh .. => "Rsh"
  | .bin .sub .. => "Sub"
  | .bin .xor .. => "Xor"
  | .cond .. => "Cond"
  | .cast .. => "Cast"
  | .dot .. => "Dot"
  | .arrow .. => "Arrow"
  | .index .. => "Index"
  | .call .. => "Call"
  | .other o => o

end Expr

/-! ## Numbers -/

/-- The value of a digit in a base up to 16. -/
def digit? (base : Nat) (c : Char) : Option Nat :=
  let d := if '0' ≤ c ∧ c ≤ '9' then c.toNat - '0'.toNat
    else if 'a' ≤ c ∧ c ≤ 'z' then c.toNat - 'a'.toNat + 10
    else if 'A' ≤ c ∧ c ≤ 'Z' then c.toNat - 'A'.toNat + 10
    else base
  if d < base then some d else none

/-- `strconv.ParseUint(text, base, 64)` for an explicit base. -/
def parseUint (base : Nat) (text : List Char) : Except GoError Word :=
  if text = [] then .error .errSyntax else go text 0
where
  go : List Char → Nat → Except GoError Word
    | [], n => if n < 2 ^ 64 then .ok (BitVec.ofNat 64 n) else .error .errRange
    | c :: cs, n =>
      match digit? base c with
      | some d => go cs (n * base + d)
      | none => .error .errSyntax

/-- The single quote. -/
def quote : Char := Char.ofNat 39

/-- `parseUnsigned`. -/
def parseUnsigned : List Char → Except GoError Word
  | '0' :: 'x' :: cs => parseUint 16 cs
  | '0' :: 'o' :: cs => parseUint 8 cs
  | '0' :: 'b' :: cs => parseUint 2 cs
  | '0' :: c :: cs => parseUint 8 (c :: cs)
  | c :: cs =>
    if c = quote then
      match cs with
      | [r, q] => if r.utf8Size = 1 ∧ q = quote then .ok (BitVec.ofNat 64 r.toNat) else .error .errSyntax
      | _ => .error .errSyntax
    else parseUint 10 (c :: cs)
  | [] => parseUint 10 []

/-- `parseNumber`: a sign, then `parseUnsigned`, as an `int64`. -/
def parseNumber (text : String) : Except GoError Word :=
  let cs := text.toList
  let isMinus := cs.head? = some '-'
  let cs := if isMinus then cs.tail else cs
  let cs := if cs.head? = some '+' then cs.tail else cs
  match parseUnsigned cs with
  | .error e => .error e
  | .ok n => .ok (if isMinus then -n else n)

example : parseNumber "-0x10" = .ok (-16) := rfl

end Bpfsnoop.CC
