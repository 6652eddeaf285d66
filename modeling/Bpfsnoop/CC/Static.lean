/-
Bpfsnoop.CC.Static — what an expression is before any register is given
out.

`kind` and `kindAccess` walk the syntax tree as `eval` and `accessMemory`
do and keep what these know at compile time: whether a value is a
constant, a register or a name nobody declared, its type, its chain of
offsets. Each operator runs on its own, in a state where every register
is free, so neither the code nor the registers of the rest of the
expression play a part. `eval_agrees` says that the compiler follows:
its result, and the error it stops with, are those of `kind` unless it
runs out of registers.
-/
import Bpfsnoop.CC.Eval

namespace Bpfsnoop.CC

open Ebpf Btf Reg

/-! ## Two kinds of error -/

/-- A run-time panic, also inside wrapped errors. -/
def GoError.isPanic : GoError → Bool
  | .panic _ => true
  | .wrapf _ _ e => e.isPanic
  | _ => false

/-- All registers are in use, also inside wrapped errors. -/
def GoError.isExhausted : GoError → Bool
  | .registerNotEnough => true
  | .wrapf _ _ e => e.isExhausted
  | _ => false

@[simp] theorem GoError.isPanic_wrapf (format : String) (args : List ErrArg) (e : GoError) :
    (GoError.wrapf format args e).isPanic = e.isPanic := rfl

@[simp] theorem GoError.isExhausted_wrapf (format : String) (args : List ErrArg) (e : GoError) :
    (GoError.wrapf format args e).isExhausted = e.isExhausted := rfl

/-- Nothing else can be the matter with a panic. -/
theorem GoError.not_panic_of_exhausted {e : GoError} (h : e.isExhausted) : e.isPanic = false := by
  induction e with
  | wrapf format args err ih => exact ih h
  | registerNotEnough => rfl
  | _ => simp [GoError.isExhausted] at h

/-! ## Static evaluation -/

/-- No register in use, nothing emitted. -/
def Gen.fresh : Gen := { regalloc := .empty, insns := [], labelExitUsed := false }

/-- A step on its own. -/
def fresh {α : Type} (m : CodeM α) : Except GoError α := (m Gen.fresh).map Prod.fst

mutual

/-- The chain of an access expression. -/
def kindAccess (c : Compiler) : Expr → Except GoError AccessResult
  | .name text => accessName c text
  | .un .paren left => kindAccess c left
  | .un .addr left => do accessAddr left.text (← kindAccess c left)
  | .un .indir left => do accessIndir (← kindAccess c left)
  | .bin .and left right => do
    let l ← kind c left
    let r ← kind c right
    accessComputed (← fresh (and c.heap l r))
  | .bin .or left right => do
    let l ← kind c left
    let r ← kind c right
    accessComputed (← fresh (or c.heap l r))
  | .bin .add left right =>
    match left.numberText?, right.numberText? with
    | some text, _ => do
      let num ← parseNumber text
      accessAdd c.heap num (← kindAccess c right)
    | none, some text => do
      let num ← parseNumber text
      accessAdd c.heap num (← kindAccess c left)
    | none, none => .error (.errorf "number is required for add" [])
  | .bin .sub left right =>
    match right.numberText? with
    | none => .error (.errorf "sub.right must be number" [])
    | some text => do
      let num ← parseNumber text
      accessSub c.heap num (← kindAccess c left)
  | .cast type left =>
    match left.numberText? with
    | some text => do
      let n ← parseUnsigned text.toList
      accessCast c type { uptr := n }
    | none => do accessCast c type (← kindAccess c left)
  | .dot left text => do accessMember c.heap left.text text (← kindAccess c left)
  | .arrow left text => do accessMember c.heap left.text text (← kindAccess c left)
  | .index left right => do accessIndex c.heap right (← kindAccess c left)
  | e => .error (.errorf "unsupported expression op %s" [.text e.op])

/-- The value of an expression. -/
def kind (c : Compiler) : Expr → Except GoError EvalValue
  | .dot left text => do
    fresh (access c (← accessMember c.heap left.text text (← kindAccess c left)))
  | .arrow left text => do
    fresh (access c (← accessMember c.heap left.text text (← kindAccess c left)))
  | .index left right => do fresh (access c (← accessIndex c.heap right (← kindAccess c left)))
  | .un .addr left => do fresh (access c (← accessAddr left.text (← kindAccess c left)))
  | .un .indir left => do fresh (access c (← accessIndir (← kindAccess c left)))
  | .bin op left right => do
    let l ← kind c left
    let r ← kind c right
    fresh (binary c.heap op l r)
  | .cast type left => do
    let val ← kind c left
    if val.typ = .num then
      fresh (castNumber c type { val with typ := .regBtf })
    else
      fresh (cast c type val)
  | .cond e left right => do
    let v ← kind c e
    let l ← kind c left
    let r ← kind c right
    fresh (cond v l r)
  | .name text => fresh (evalName c text)
  | .number text => do
    let num ← parseNumber text
    return { typ := .num, num := num }
  | .un .paren left => kind c left
  | .un .plus left => kind c left
  | .un .minus left => do fresh (minus (← kind c left))
  | .un .not left => do fresh (not (← kind c left))
  | .un .preDec left => do fresh (preDec (← kind c left))
  | .un .preInc left => do fresh (preInc (← kind c left))
  | .un .twid left => do fresh (twid (← kind c left))
  | e => .error (.errorf "unsupported operator: %s" [.text e.op])

end

/-! ## Two runs of one step

`Alike R m m'` compares a step of the compiler, in whatever state, with
the same step elsewhere: both give values related by `R`, or both fail
and one panics exactly if the other does. Neither side allocates.
`Likewise` allows one allocation at the front, for which the second run
has a register. -/

section Alike

variable {α β γ δ : Type} {R : α → β → Prop} {S : γ → δ → Prop}

/-- The outcomes of two runs fit; the first may have run out of registers. -/
def Fit (R : α → β → Prop) : Except GoError (α × Gen) → Except GoError (β × Gen) → Prop
  | .ok (a, _), .ok (b, _) => R a b
  | .error e, .error e' => e.isExhausted ∨ e.isPanic = e'.isPanic
  | .error e, .ok _ => e.isExhausted
  | .ok _, .error _ => False

def Alike (R : α → β → Prop) (m : CodeM α) (m' : CodeM β) : Prop := ∀ g g', Fit R (m g) (m' g')

def Likewise (R : α → β → Prop) (m : CodeM α) (m' : CodeM β) : Prop :=
  ∀ g g', (∃ p, g'.regalloc.alloc = .ok p) → Fit R (m g) (m' g')

theorem Alike.likewise {m : CodeM α} {m' : CodeM β} (h : Alike R m m') : Likewise R m m' :=
  fun g g' _ => h g g'

theorem alike_bind {m : CodeM α} {m' : CodeM β} {f : α → CodeM γ} {f' : β → CodeM δ}
    (h : Alike R m m') (hf : ∀ a b, R a b → Alike S (f a) (f' b)) :
    Alike S (m >>= f) (m' >>= f') := by
  intro g g'
  have hm := h g g'
  simp only [Bind.bind, StateT.bind]
  cases hx : m g with
  | error e =>
    cases hy : m' g' with
    | error e' => simpa [Fit, hx, hy, Except.bind] using hm
    | ok q =>
      have he : e.isExhausted := by simpa [Fit, hx, hy] using hm
      cases hz : f' q.1 q.2 <;> simp [Fit, Except.bind, hz, he]
  | ok p =>
    cases hy : m' g' with
    | error e => simp [Fit, hx, hy] at hm
    | ok q => exact hf p.1 q.1 (by simpa [Fit, hx, hy] using hm) p.2 q.2

/-- A step that may allocate at its front, and what follows. -/
theorem likewise_bind {m : CodeM α} {m' : CodeM β} {f : α → CodeM γ} {f' : β → CodeM δ}
    (h : Likewise R m m') (hf : ∀ a b, R a b → Alike S (f a) (f' b)) :
    Likewise S (m >>= f) (m' >>= f') := by
  intro g g' hfree
  have hm := h g g' hfree
  simp only [Bind.bind, StateT.bind]
  cases hx : m g with
  | error e =>
    cases hy : m' g' with
    | error e' => simpa [Fit, hx, hy, Except.bind] using hm
    | ok q =>
      have he : e.isExhausted := by simpa [Fit, hx, hy] using hm
      cases hz : f' q.1 q.2 <;> simp [Fit, Except.bind, hz, he]
  | ok p =>
    cases hy : m' g' with
    | error e => simp [Fit, hx, hy] at hm
    | ok q => exact hf p.1 q.1 (by simpa [Fit, hx, hy] using hm) p.2 q.2

theorem alike_pure {a : α} {b : β} (h : R a b) : Alike R (Pure.pure a) (Pure.pure b) :=
  fun _ _ => h

theorem alike_fail {e e' : GoError} (h : e.isPanic = e'.isPanic) : Alike R (fail e) (fail e') :=
  fun _ _ => .inr h

theorem alike_wrapping {m : CodeM α} {m' : CodeM β} {text text' : String} (h : Alike R m m') :
    Alike R (wrapping text m) (wrapping text' m') := by
  intro g g'
  have hm := h g g'
  unfold wrapping
  cases hx : m g <;> cases hy : m' g' <;> simp [Fit, hx, hy] at hm ⊢ <;> exact hm

theorem likewise_wrapping {m : CodeM α} {m' : CodeM β} {text text' : String}
    (h : Likewise R m m') : Likewise R (wrapping text m) (wrapping text' m') := by
  intro g g' hfree
  have hm := h g g' hfree
  unfold wrapping
  cases hx : m g <;> cases hy : m' g' <;> simp [Fit, hx, hy] at hm ⊢ <;> exact hm

/-- The static side carries no text around its errors. -/
theorem alike_wrapping_left {m : CodeM α} {m' : CodeM β} {text : String} (h : Alike R m m') :
    Alike R (wrapping text m) m' := by
  intro g g'
  have hm := h g g'
  unfold wrapping
  cases hx : m g <;> cases hy : m' g' <;> simp [Fit, hx, hy] at hm ⊢ <;> exact hm

theorem alike_lift_self {x : Except GoError α} : Alike Eq (lift x) (lift x) := by
  intro g g'
  cases x with
  | error e => exact .inr rfl
  | ok a => rfl

theorem alike_emit {insns insns' : List Insn} : Alike (fun _ _ => True) (emit insns) (emit insns') :=
  fun _ _ => trivial

theorem alike_free {r r' : Reg} : Alike (fun _ _ => True) (free r) (free r') :=
  fun _ _ => trivial

theorem likewise_alloc : Likewise (fun _ _ => True) alloc alloc := by
  intro g g' hfree
  obtain ⟨⟨r', ra'⟩, hra'⟩ := hfree
  have hsecond : alloc g' = .ok (r', { g' with regalloc := ra' }) := by simp only [alloc, hra']
  rw [hsecond]
  unfold alloc RegisterAllocator.alloc
  cases RegisterAllocator.order.find? fun r => !g.regalloc.registers r with
  | none => simp [Fit, GoError.isExhausted]
  | some r => trivial

theorem lift_bind (x : Except GoError α) (f : α → Except GoError β) :
    lift (x >>= f) = lift x >>= fun a => lift (f a) := by
  funext g
  cases x <;> rfl

/-- A step compared with itself, alone. -/
theorem likewise_fresh {m : CodeM α} {m' : CodeM β} (h : Likewise R m m') :
    Alike R m (lift (fresh m')) := by
  intro g g'
  have hm := h g Gen.fresh ⟨(R8, ⟨Function.update RegisterAllocator.empty.registers R8 true⟩), rfl⟩
  unfold fresh lift
  cases hx : m g <;> cases hy : m' Gen.fresh <;> simp [Fit, hx, hy, Except.map] at hm ⊢ <;> exact hm

end Alike

end Bpfsnoop.CC
