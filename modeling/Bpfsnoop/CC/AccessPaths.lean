/-
Bpfsnoop.CC.AccessPaths — what an access path means in C.

A path starts at a parameter and goes on by `->`, `.`, `[n]`, `*`, `&`,
casts to pointers, and adding or subtracting a number. `cPath` follows it
with the rules of C: a path has a type, and stands for a place in memory or
for a value. A place that is used as a value is loaded, unless it is an
array or a function, which stand for their address (`CPath.value`); an
integer that is cast to a pointer is extended from its own width.

`accessMemory` builds a chain of steps for the path, and `follow` is what
the chain means. `Tracks` says how the chain that is built so far goes along
with the path.
-/
import Mathlib.Logic.Relation
import Bpfsnoop.CC.MemberComparison

namespace Bpfsnoop.CC

open Ebpf Btf Reg Lib

/-! ## Paths in C -/

def isFunction (t : BtfType) : Bool :=
  match underlyingType t with
  | .func .. | .funcProto => true
  | _ => false

/-- Arrays and functions stand for their address. -/
def decays (t : BtfType) : Bool := (arrayElem? t).isSome || isFunction t

/-- What C says of a path. -/
structure CPath where
  /-- The parameter it starts from. -/
  param : Nat
  type : BtfType
  /-- It stands for a place in memory. -/
  place : Bool
  /-- The member it ends with. -/
  mem : Option Member
  /-- The place, or else the value, in a memory and for a value of the
  parameter. -/
  word : (Word → Byte) → Word → Word

namespace CPath

/-- The path as a value. -/
def value (p : CPath) (m : Word → Byte) (w : Word) : Word :=
  if p.place && !decays p.type then loadLE m (p.word m w) 8 else p.word m w

/-- What the path points to: an array points to its elements. -/
def pointee? (p : CPath) : Option BtfType :=
  match pointerTarget? p.type with
  | some target => some target
  | none => if p.place then (arrayElem? p.type).filter (!isVoid ·) else none

/-- The path as an operand of a cast to a pointer. -/
def converted (p : CPath) (m : Word → Byte) (w : Word) : Word :=
  match p.place, field? p.type p.mem with
  | true, some f => BitVec.ofInt 64 (f.value m (p.word m w))
  | _, _ => p.value m w

/-- A member of the struct or union at `base`. -/
def member (heap : Heap) (text : String) (aggregate : BtfType) (base : (Word → Byte) → Word → Word) (p : CPath) :
    Option CPath :=
  match findMember heap aggregate text with
  | .ok (member, offset) =>
    some { p with
      type := member.type, place := true, mem := some member
      word := fun m w => base m w + BitVec.ofNat 64 offset }
  | .error _ => none

/-- `p->text`. -/
def arrow (heap : Heap) (text : String) (p : CPath) : Option CPath :=
  p.pointee?.bind fun target => p.member heap text target p.value

/-- `p.text`. -/
def dot (heap : Heap) (text : String) (p : CPath) : Option CPath :=
  if p.place then p.member heap text p.type p.word else none

/-- `p[n]`. -/
def index (heap : Heap) (n : Word) (p : CPath) : Option CPath :=
  p.pointee?.bind fun target =>
    if isVoid target then none
    else (sizeof heap target).map fun size =>
      { p with
        type := target, place := true, mem := none
        word := fun m w => p.value m w + n * BitVec.ofNat 64 size }

/-- `*p`. -/
def indir (p : CPath) : Option CPath :=
  p.pointee?.bind fun target =>
    if isVoid target then none else some { p with type := target, place := true, mem := none, word := p.value }

/-- `&p`. -/
def addr (p : CPath) : Option CPath :=
  if p.place && !isMemberBitfield p.mem then some { p with type := .pointer p.type, place := false, mem := none }
  else none

/-- A cast to the pointer type `t`, of a pointer, an array, a function or an
integer. -/
def cast (t : BtfType) (p : CPath) : Option CPath :=
  if (pointerTarget? t).isSome && (p.pointee?.isSome || (p.place && isFunction p.type) || (integer? p.type).isSome) then
    some { p with type := t, place := false, mem := none, word := p.converted }
  else none

/-- `p + n`; a `void *` moves by bytes. -/
def shift (heap : Heap) (n : Word) (p : CPath) : Option CPath :=
  p.pointee?.bind fun target =>
    (if isVoid target then some 1 else sizeof heap target).map fun size =>
      { p with
        type := .pointer target, place := false, mem := none
        word := fun m w => p.value m w + BitVec.ofNat 64 size * n }

/-! ### What a step does to the place -/

section Steps

variable {p p₀ : CPath} {heap : Heap} {n : Word}

theorem word_member {text : String} {t : BtfType} {base : (Word → Byte) → Word → Word}
    (h : p₀.member heap text t base = some p) : ∃ d, ∀ m w, p.word m w = base m w + d := by
  unfold member at h
  split at h
  · obtain rfl := Option.some.inj h
    exact ⟨_, fun _ _ => rfl⟩
  · cases h

theorem dot_inv {text : String} (h : p₀.dot heap text = some p) :
    p₀.place = true ∧ ∃ member offset, findMember heap p₀.type text = .ok (member, offset) ∧
      p = { p₀ with
        type := member.type, place := true, mem := some member
        word := fun m w => p₀.word m w + BitVec.ofNat 64 offset } := by
  unfold dot at h
  split at h
  · rename_i hp
    unfold member at h
    split at h
    · rename_i found offset hfind
      exact ⟨hp, found, offset, hfind, (Option.some.inj h).symm⟩
    · cases h
  · cases h

theorem word_index (h : p₀.index heap n = some p) : ∃ d, ∀ m w, p.word m w = p₀.value m w + d := by
  obtain ⟨target, -, h⟩ := Option.bind_eq_some_iff.mp h
  split at h
  · cases h
  · obtain ⟨size, -, rfl⟩ := Option.map_eq_some_iff.mp h
    exact ⟨_, fun _ _ => rfl⟩

theorem word_indir (h : p₀.indir = some p) : p.word = p₀.value := by
  obtain ⟨target, -, h⟩ := Option.bind_eq_some_iff.mp h
  split at h
  · cases h
  · obtain rfl := Option.some.inj h
    rfl

theorem place_addr (h : p₀.addr = some p) : p.place = false ∧ p.word = p₀.word ∧ p₀.place = true := by
  unfold addr at h
  split at h
  · rename_i hcond
    obtain rfl := Option.some.inj h
    exact ⟨rfl, rfl, (Bool.and_eq_true_iff.mp hcond).1⟩
  · cases h

theorem place_cast {t : BtfType} (h : p₀.cast t = some p) : p.place = false ∧ p.word = p₀.converted := by
  unfold cast at h
  split at h
  · obtain rfl := Option.some.inj h
    exact ⟨rfl, rfl⟩
  · cases h

theorem place_shift (h : p₀.shift heap n = some p) :
    p.place = false ∧ ∃ d, ∀ m w, p.word m w = p₀.value m w + d := by
  obtain ⟨target, -, h⟩ := Option.bind_eq_some_iff.mp h
  obtain ⟨size, -, rfl⟩ := Option.map_eq_some_iff.mp h
  exact ⟨rfl, _, fun _ _ => rfl⟩

end Steps

end CPath

/-- A number in a path. -/
def literal? (text : String) : Option Word := (parseNumber text).toOption

/-- **The path that an expression is in C**, if it is one. -/
def cPath (c : Compiler) : Expr → Option CPath
  | .name text => (c.vars.idxOf? text).map fun idx =>
      { param := idx, type := c.btfs.getD idx .void, place := false, mem := none, word := fun _ w => w }
  | .un .paren left => cPath c left
  | .un .addr left => (cPath c left).bind CPath.addr
  | .un .indir left => (cPath c left).bind CPath.indir
  | .arrow left text => (cPath c left).bind (CPath.arrow c.heap text)
  | .dot left text => (cPath c left).bind (CPath.dot c.heap text)
  | .index left (.number text) => (literal? text).bind fun n => (cPath c left).bind (CPath.index c.heap n)
  | .cast type left => (cc2btf c type).toOption.bind fun t => (cPath c left).bind (CPath.cast t)
  | .bin .add left right =>
    match left.numberText?, right.numberText? with
    | some text, _ => (literal? text).bind fun n => (cPath c right).bind (CPath.shift c.heap n)
    | none, some text => (literal? text).bind fun n => (cPath c left).bind (CPath.shift c.heap n)
    | none, none => none
  | .bin .sub left right =>
    match right.numberText? with
    | some text => (literal? text).bind fun n => (cPath c left).bind (CPath.shift c.heap (-n))
    | none => none
  | _ => none

/-! ## Chains -/

/-- What a chain of offsets means: add the offset, and load eight bytes
unless the step is an address. -/
def follow (m : Word → Byte) : List AccessOffset → Word → Word
  | [], w => w
  | o :: rest, w => follow m rest (if o.address then w + o.offset else loadLE m (w + o.offset) 8)

/-- The chain denotes the path: it starts from the parameter and leads to
the value, and the type is the type in C. -/
structure Denotes (p : CPath) (res : AccessResult) : Prop where
  param : res.idx = some p.param ∧ res.uptr = 0
  word : ∀ m w, follow m res.offsets w = p.value m w
  type : underlyingType res.btf = underlyingType p.type

/-- An operand of an expression. -/
inductive Expr.OperandOf : Expr → Expr → Prop
  | un (op : UnOp) (left : Expr) : OperandOf left (.un op left)
  | binLeft (op : BinOp) (left right : Expr) : OperandOf left (.bin op left right)
  | binRight (op : BinOp) (left right : Expr) : OperandOf right (.bin op left right)
  | cast (type : CType) (left : Expr) : OperandOf left (.cast type left)
  | dot (left : Expr) (text : String) : OperandOf left (.dot left text)
  | arrow (left : Expr) (text : String) : OperandOf left (.arrow left text)
  | index (left right : Expr) : OperandOf left (.index left right)

/-- A part of an expression: itself, an operand, or a part of one. -/
abbrev Expr.PartOf : Expr → Expr → Prop := Relation.ReflTransGen Expr.OperandOf

/-! ## Where chain and path part -/

/-- The place is reached by `[n]` or `*`. -/
def Expr.dereferences : Expr → Bool
  | .un .paren left => left.dereferences
  | .index .. | .un .indir _ => true
  | _ => false

/-- The chain loads a place that stands for its address: an array behind
`[n]` or `*`, where only a member is taken for an address, or a function. -/
def loadsAddress (c : Compiler) (e : Expr) : Bool :=
  match cPath c e with
  | some p => p.place && (((arrayElem? p.type).isSome && e.dereferences) || isFunction p.type)
  | none => false

/-- An integer in memory that does not fill the eight bytes from its place
on. -/
def cutsNumber (c : Compiler) (e : Expr) : Bool :=
  match cPath c e with
  | some p =>
    match p.place, field? p.type p.mem with
    | true, some f => !(f.shift = 0 ∧ 64 ≤ f.bits)
    | _, _ => false
  | none => false

/-- The steps on the way are those of C: no operand whose value is used is
loaded in place of its address, and none that is cast is a narrow integer. -/
def placed (c : Compiler) : Expr → Bool
  | .un .paren left | .un .addr left | .dot left _ => placed c left
  | .un .indir left | .arrow left _ | .index left _ | .bin .sub left _ => placed c left && !loadsAddress c left
  | .cast _ left => placed c left && !loadsAddress c left && !cutsNumber c left
  | .bin .add left right =>
    match left.numberText?, right.numberText? with
    | some _, _ => placed c right && !loadsAddress c right
    | none, some _ => placed c left && !loadsAddress c left
    | none, none => true
  | _ => true

/-- A number added to an array, or subtracted: the result keeps the type of
the array. -/
def keepsArray (c : Compiler) : Expr → Bool
  | .un .paren left => keepsArray c left
  | .bin .add left right =>
    match left.numberText?, right.numberText? with
    | some _, _ => isArray right || keepsArray c right
    | none, some _ => isArray left || keepsArray c left
    | none, none => false
  | .bin .sub left _ => isArray left || keepsArray c left
  | _ => false
where
  isArray (e : Expr) : Bool :=
    match cPath c e with
    | some p => p.place && (arrayElem? p.type).isSome
    | none => false

/-- The chain of the path is the one of C. -/
structure PathSound (c : Compiler) (e : Expr) : Prop where
  placed : placed c e = true
  value : loadsAddress c e = false
  type : keepsArray c e = false

instance (c : Compiler) (e : Expr) : Decidable (PathSound c e) :=
  decidable_of_iff (placed c e = true ∧ loadsAddress c e = false ∧ keepsArray c e = false)
    ⟨fun h => ⟨h.1, h.2.1, h.2.2⟩, fun h => ⟨h.placed, h.value, h.type⟩⟩

end Bpfsnoop.CC
