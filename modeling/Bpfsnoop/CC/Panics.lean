/-
Bpfsnoop.CC.Panics — which steps of the expression compilers panic.

Of the steps on a chain, the two that call `prevBtf` panic, exactly where
the chain is bare (`accessShift_panics_iff`, `accessIndex_panics_iff`).
Of the operators, the shifts panic, on a constant by a negative constant
(`binary_panics_iff`). Everything else is `Calm`.
-/
import Bpfsnoop.CC.StaticTheorems

namespace Bpfsnoop.CC

open Ebpf Btf Reg

/-! ## Panics -/

section Panics

variable {α β : Type}

def Panics (x : Except GoError α) : Prop := ∃ e, x = .error e ∧ e.isPanic

/-- The compiler gave up because every register is in use. -/
def OutOfRegisters (x : Except GoError α) : Prop := ∃ e, x = .error e ∧ e.isExhausted

theorem except_bind_ok {x : Except GoError α} {f : α → Except GoError β} {b : β} :
    x >>= f = .ok b ↔ ∃ a, x = .ok a ∧ f a = .ok b := by
  cases x <;> simp [bind, Except.bind]

@[simp] theorem panics_ok (a : α) : Panics (.ok a : Except GoError α) ↔ False := by
  simp [Panics]

@[simp] theorem panics_pure (a : α) : Panics (pure a : Except GoError α) ↔ False := panics_ok a

@[simp] theorem panics_error (e : GoError) : Panics (.error e : Except GoError α) ↔ e.isPanic := by
  simp [Panics]

@[simp] theorem panics_throw (e : GoError) : Panics (throw e : Except GoError α) ↔ e.isPanic :=
  panics_error e

@[simp] theorem throw_eq_ok (e : GoError) (a : α) :
    (throw e : Except GoError α) = .ok a ↔ False := by
  simp [throw, throwThe, MonadExceptOf.throw]

@[simp] theorem panics_bind (x : Except GoError α) (f : α → Except GoError β) :
    Panics (x >>= f) ↔ Panics x ∨ ∃ a, x = .ok a ∧ Panics (f a) := by
  cases x with
  | error e => simp [bind, Except.bind]
  | ok a => simp [bind, Except.bind]

@[simp] theorem panics_map (x : Except GoError α) (f : α → β) : Panics (x.map f) ↔ Panics x := by
  cases x <;> simp [Except.map]

@[simp] theorem panics_fmap (x : Except GoError α) (f : α → β) : Panics (f <$> x) ↔ Panics x :=
  panics_map x f

@[simp] theorem isPanic_errorf (format : String) (args : List ErrArg) :
    (GoError.errorf format args).isPanic = false := rfl

@[simp] theorem isPanic_panic (text : String) : (GoError.panic text).isPanic = true := rfl

/-- What `Alike` says about panics. -/
theorem Alike.panics {R : α → β → Prop} {m : CodeM α} {x : Except GoError β}
    (h : Alike R m (lift x)) (g : Gen) :
    (Panics (m g) → Panics x) ∧ (Panics x → Panics (m g) ∨ OutOfRegisters (m g)) := by
  have hg := h g g
  constructor
  · rintro ⟨e, hm, he⟩
    cases x with
    | ok b =>
      have hex : e.isExhausted := by simpa [hm, lift, Fit] using hg
      rw [GoError.not_panic_of_exhausted hex] at he
      contradiction
    | error e' =>
      have hfit : e.isExhausted ∨ e.isPanic = e'.isPanic := by simpa [hm, lift, Fit] using hg
      cases hfit with
      | inl hex =>
        rw [GoError.not_panic_of_exhausted hex] at he
        contradiction
      | inr heq => exact ⟨e', rfl, heq ▸ he⟩
  · rintro ⟨e', hx, he'⟩
    subst hx
    cases hm : m g with
    | ok p => simp [hm, lift, Fit] at hg
    | error e =>
      have hfit : e.isExhausted ∨ e.isPanic = e'.isPanic := by simpa [hm, lift, Fit] using hg
      cases hfit with
      | inl hex => exact .inr ⟨e, rfl, hex⟩
      | inr heq => exact .inl ⟨e, rfl, heq ▸ he'⟩

end Panics

/-! ## Numbers -/

theorem parseUint_go_calm (base : Nat) (text : List Char) (n : Nat) :
    ¬Panics (parseUint.go base text n) := by
  induction text generalizing n with
  | nil => unfold parseUint.go; split <;> simp [GoError.isPanic]
  | cons ch cs ih =>
    unfold parseUint.go
    cases digit? base ch with
    | none => simp [GoError.isPanic]
    | some d => exact ih _

theorem parseUint_calm (base : Nat) (text : List Char) : ¬Panics (parseUint base text) := by
  unfold parseUint
  split
  · simp [GoError.isPanic]
  · exact parseUint_go_calm base text 0

theorem parseUnsigned_calm (text : List Char) : ¬Panics (parseUnsigned text) := by
  unfold parseUnsigned
  split
  · exact parseUint_calm _ _
  · exact parseUint_calm _ _
  · exact parseUint_calm _ _
  · exact parseUint_calm _ _
  · split
    · split
      · split <;> simp [GoError.isPanic]
      · simp [GoError.isPanic]
    · exact parseUint_calm _ _
  · exact parseUint_calm _ _

theorem parseNumber_calm (text : String) : ¬Panics (parseNumber text) := by
  unfold parseNumber
  dsimp only
  split
  · rename_i e h
    intro hp
    exact parseUnsigned_calm _ ⟨e, h, by simpa using hp⟩
  · simp

/-! ## Steps of an access expression -/

section Steps

variable (heap : Heap) (c : Compiler) (res : AccessResult)

/-- `lastIdx` points behind the offsets there are. -/
def AccessResult.bare (res : AccessResult) : Prop :=
  0 ≤ res.lastIdx ∧ res.offsets.length ≤ res.lastIdx.toNat

/-- **`prevBtf` panics where the last offset is not there.** -/
theorem prevBtf_panics_iff : Panics res.prevBtf ↔ res.bare := by
  unfold AccessResult.prevBtf AccessResult.bare
  split
  · rename_i hpos
    cases hget : res.offsets[res.lastIdx.toNat]? with
    | none => simpa [hpos] using hget
    | some o =>
      have hlt : res.lastIdx.toNat < res.offsets.length := (List.getElem?_eq_some_iff.mp hget).1
      simp [hlt]
  · rename_i hneg
    simp [hneg]

theorem accessName_calm (text : String) : ¬Panics (accessName c text) := by
  unfold accessName
  split <;> simp [GoError.isPanic]

theorem accessComputed_calm (val : EvalValue) : ¬Panics (accessComputed val) := by
  unfold accessComputed
  split <;> simp

theorem findMember_calm (t : BtfType) (text : String) : ¬Panics (findMember heap t text) := by
  unfold findMember
  split
  · simp
  · split <;> simp

theorem accessMember_calm (leftText text : String) :
    ¬Panics (accessMember heap leftText text res) := by
  unfold accessMember
  cases isMemberBitfield res.mem with
  | true => simp
  | false =>
    dsimp only
    cases hfind : findMember heap ((pointerTarget? res.btf).getD res.btf) text with
    | error e =>
      intro hp
      exact findMember_calm heap _ text ⟨e, hfind, by simpa [bind, Except.bind] using hp⟩
    | ok found =>
      obtain ⟨member, offset⟩ := found
      simp only [bind, Except.bind, pure, Except.pure]
      cases pointerTarget? res.btf with
      | some target => cases arrayElem? member.type <;> simp
      | none =>
        by_cases hnil : res.offsets = []
        · simp only [hnil]
          show ¬Panics (Except.error (GoError.errorf _ _))
          simp
        · simp only [hnil]
          cases arrayElem? member.type <;> simp

theorem accessAddr_calm (leftText : String) : ¬Panics (accessAddr leftText res) := by
  unfold accessAddr
  split <;> simp

theorem lookupType_calm (spec : Spec) (typeName : String) : ¬Panics (lookupType spec typeName) := by
  unfold lookupType
  split <;> simp [GoError.isPanic]

theorem findType_calm (name : String) : ¬Panics (findType c name) := by
  unfold findType
  split
  · simp
  · exact lookupType_calm _ _

theorem cc2btf_calm (type : CType) : ¬Panics (cc2btf c type) := by
  have hbase : ∀ t, ¬Panics (cc2btfBase c t) := by
    intro t
    unfold cc2btfBase
    split
    · simp only [panics_bind, not_or, not_exists, not_and]
      refine ⟨findType_calm c _, fun typ _ => ?_⟩
      split <;> simp
    · split
      · simp
      · exact lookupType_calm _ _
  unfold cc2btf
  split
  · simpa using hbase _
  · exact hbase _

theorem accessCast_calm (type : CType) : ¬Panics (accessCast c type res) := by
  unfold accessCast
  split
  · rename_i e h
    intro hp
    exact cc2btf_calm c type ⟨e, h, by simpa using hp⟩
  · split <;> simp

theorem accessIndir_calm : ¬Panics (accessIndir res) := by
  unfold accessIndir
  cases isMemberBitfield res.mem with
  | true => simp
  | false => cases pointerTarget? res.btf <;> simp

/-- The types `+` and `-` move an address of. -/
def shiftable (t : BtfType) : Bool :=
  match pointerTarget? t, arrayElem? t with
  | some target, _ => isVoid target || (sizeof heap target).isSome
  | none, some type => (sizeof heap type).isSome
  | none, none => false

/-- The types `[]` can be applied to. -/
def indexable (t : BtfType) : Bool :=
  match pointerTarget? t, arrayElem? t with
  | some target, _ => sizeofD heap target ≠ 0
  | none, some type => sizeofD heap type ≠ 0
  | none, none => false

/-- **An address step panics where its type is right and the chain is
bare.** -/
theorem accessShift_panics_iff (what kind : String) (num : Word) :
    Panics (accessShift heap what kind num res) ↔ shiftable heap res.btf ∧ res.bare := by
  rw [← prevBtf_panics_iff]
  unfold accessShift shiftable
  cases pointerTarget? res.btf with
  | some target =>
    cases hv : isVoid target with
    | true => simp [hv]
    | false =>
      cases hs : sizeof heap target with
      | none => simp [hv, sizeofOr, hs]
      | some size => simp [hv, sizeofOr, hs]
  | none =>
    cases arrayElem? res.btf with
    | none => simp
    | some type =>
      cases hs : sizeof heap type with
      | none => simp [sizeofOr, hs]
      | some size => simp [sizeofOr, hs]

theorem accessAdd_panics_iff (num : Word) :
    Panics (accessAdd heap num res) ↔
      isMemberBitfield res.mem = false ∧ num ≠ 0 ∧ shiftable heap res.btf ∧ res.bare := by
  unfold accessAdd
  cases isMemberBitfield res.mem with
  | true => simp
  | false =>
    by_cases hz : num = 0#64
    · simp [hz]
    · simpa [hz] using accessShift_panics_iff heap res "adding" "add" num

theorem accessSub_panics_iff (num : Word) :
    Panics (accessSub heap num res) ↔
      isMemberBitfield res.mem = false ∧ shiftable heap res.btf ∧ res.bare := by
  unfold accessSub
  cases isMemberBitfield res.mem with
  | true => simp
  | false => simpa using accessShift_panics_iff heap res "subing" "sub" (-num)

/-- **An index panics where its operand can be indexed and the chain is
bare.** -/
theorem accessIndex_panics_iff (right : Expr) :
    Panics (accessIndex heap right res) ↔
      isMemberBitfield res.mem = false ∧ (∃ text n, right = .number text ∧ parseNumber text = .ok n) ∧
        indexable heap res.btf ∧ res.bare := by
  rw [← prevBtf_panics_iff]
  unfold accessIndex indexable
  cases isMemberBitfield res.mem with
  | true => simp
  | false =>
    cases right with
    | number text =>
      have hcalm := parseNumber_calm text
      cases hn : parseNumber text with
      | error e =>
        have he : e.isPanic = false := by simpa [hn] using hcalm
        simp [hn, he]
      | ok n =>
        cases pointerTarget? res.btf with
        | some target =>
          by_cases hz : sizeofD heap target = 0
          · simp [hn, hz]
          · simp [hn, hz]
        | none =>
          cases arrayElem? res.btf with
          | none => simp [hn]
          | some type =>
            by_cases hz : sizeofD heap type = 0
            · simp [hn, hz]
            · simp [hn, hz]
    | _ => simp

end Steps

/-! ## Steps that emit code -/

/-- A step that does not panic, in any state. -/
def Calm {α : Type} (m : CodeM α) : Prop := ∀ g, ¬Panics (m g)

section Calm

variable {α β : Type}

/-- A step that always returns, whatever it emits. -/
theorem Silent.calm {m : CodeM α} (h : Silent m) : Calm m := by
  intro g
  obtain ⟨r, hr⟩ := h g
  simp [hr]

theorem calm_fail {e : GoError} (h : e.isPanic = false) : Calm (fail e : CodeM α) := by
  intro g
  simp [fail, h]

theorem calm_lift {x : Except GoError α} (h : ¬Panics x) : Calm (lift x) := by
  intro g
  cases x with
  | error e => simpa [lift] using h
  | ok a => simp [lift]

theorem calm_alloc : Calm alloc := by
  intro g
  unfold alloc RegisterAllocator.alloc
  cases RegisterAllocator.order.find? fun r => !g.regalloc.registers r with
  | none => simp [GoError.isPanic]
  | some r => simp

theorem Calm.bind {m : CodeM α} {f : α → CodeM β} (h : Calm m) (hf : ∀ a, Calm (f a)) :
    Calm (m >>= f) := by
  intro g
  have hm := h g
  simp only [Bind.bind, StateT.bind]
  cases hx : m g with
  | error e => simpa [hx, Except.bind] using hm
  | ok p => exact hf p.1 p.2

theorem Calm.wrapping {m : CodeM α} {text : String} (h : Calm m) : Calm (wrapping text m) := by
  intro g
  have hm := h g
  unfold CC.wrapping
  cases hx : m g with
  | error e => simpa [hx] using hm
  | ok p => simp

theorem calm_ite {p : Prop} [Decidable p] {m₁ m₂ : CodeM α} (h₁ : Calm m₁) (h₂ : Calm m₂) :
    Calm (if p then m₁ else m₂) := by
  by_cases hp : p
  · simpa only [hp, if_true] using h₁
  · simpa only [hp, if_false] using h₂

/-- A step whose error is wrapped, and what follows. -/
theorem panics_then {m : CodeM α} {f : α → CodeM β} {text : String} {g : Gen} (hf : ∀ a, Calm (f a)) :
    Panics ((CC.wrapping text m >>= f) g) ↔ Panics (m g) := by
  simp only [Bind.bind, StateT.bind, CC.wrapping]
  cases hx : m g with
  | error e => simp [Except.bind]
  | ok p => simpa [Except.bind] using hf p.1 p.2

theorem exhausted_then {m : CodeM α} {f : α → CodeM β} {text : String} {g : Gen}
    (h : OutOfRegisters (m g)) : OutOfRegisters ((CC.wrapping text m >>= f) g) := by
  obtain ⟨e, hm, he⟩ := h
  refine ⟨.wrapf (text ++ ": %w") [] e, ?_, he⟩
  simp only [Bind.bind, StateT.bind, CC.wrapping, hm, Except.bind]

theorem panics_fresh (m : CodeM α) : Panics (fresh m) ↔ Panics (m Gen.fresh) := by
  unfold fresh
  simp

theorem panics_fresh_lift (x : Except GoError α) (k : α → β) :
    Panics (fresh (lift x >>= fun a => pure (k a))) ↔ Panics x := by
  cases x with
  | error e =>
    rw [panics_fresh]
    simp [lift, Bind.bind, StateT.bind, Except.bind]
  | ok a =>
    rw [panics_fresh]
    show Panics (Except.ok (k a, Gen.fresh) : Except GoError (β × Gen)) ↔ _
    simp

theorem Calm.fresh {m : CodeM α} (h : Calm m) : ¬Panics (fresh m) :=
  fun hp => h _ ((panics_fresh m).mp hp)

end Calm

/-! ## Operators -/

section Operators

variable {heap : Heap} (l r : EvalValue)

theorem preHandle_calm : ¬Panics (preHandleBinaryOp heap l r) := by
  have henum : ∀ (t : Option BtfType) (name : String), ¬Panics (extractEnum t name) := by
    intro t name
    unfold extractEnum
    split
    · split <;> simp
    · simp
  unfold preHandleBinaryOp
  split
  · simp
  split
  · simp
  split
  · split
    · simp
    · rename_i e he
      exact fun hp => henum r.btf l.name ⟨e, he, by simpa using hp⟩
  split
  · split
    · simp
    · rename_i e he
      exact fun hp => henum l.btf r.name ⟨e, he, by simpa using hp⟩
  · simp

/-- The checks leave two constants alone. -/
theorem preHandle_nums (hl : l.typ = .num) (hr : r.typ = .num) :
    preHandleBinaryOp heap l r = .ok (l, r) := by
  obtain ⟨lt, lreg, lnum, lname, lbtf, lmem⟩ := l
  obtain ⟨rt, rreg, rnum, rname, rbtf, rmem⟩ := r
  subst hl hr
  rfl

/-- Two constants after the checks were constants before. -/
theorem preHandle_to_nums {l' r' : EvalValue} (h : preHandleBinaryOp heap l r = .ok (l', r'))
    (hl : l'.typ = .num) (hr : r'.typ = .num) : l.typ = .num ∧ r.typ = .num := by
  unfold preHandleBinaryOp at h
  split at h
  · simp at h
  split at h
  · simp at h
  split at h
  · rename_i h3
    split at h
    · simp only [Except.ok.injEq, Prod.mk.injEq] at h
      rw [← h.2, h3.2] at hr
      cases hr
    · simp at h
  split at h
  · rename_i h4
    split at h
    · simp only [Except.ok.injEq, Prod.mk.injEq] at h
      rw [← h.1, h4.1] at hl
      cases hl
    · simp at h
  · simp only [Except.ok.injEq, Prod.mk.injEq] at h
    rw [← h.1] at hl
    rw [← h.2] at hr
    exact ⟨hl, hr⟩

theorem calm_preHandle {f : EvalValue × EvalValue → CodeM EvalValue}
    (h : ∀ l r : EvalValue, Calm (f (l, r))) : Calm (lift (preHandleBinaryOp heap l r) >>= f) :=
  (calm_lift (preHandle_calm l r)).bind fun p => h p.1 p.2

theorem addConst_calm (num : Word) (v : EvalValue) : Calm (addConst heap num v) := by
  unfold addConst
  refine calm_ite (Silent.calm fun _ => ⟨_, rfl⟩) ?_
  rcases v.btf.map underlyingType with _ | t
  · exact Silent.calm fun _ => ⟨_, rfl⟩
  cases t with
  | pointer target =>
    exact calm_ite (Silent.calm fun _ => ⟨_, rfl⟩)
      (calm_ite (calm_fail rfl) (Silent.calm fun _ => ⟨_, rfl⟩))
  | array type n => exact calm_ite (calm_fail rfl) (Silent.calm fun _ => ⟨_, rfl⟩)
  | _ => exact Silent.calm fun _ => ⟨_, rfl⟩

theorem add_calm : Calm (add heap l r) := by
  refine calm_preHandle l r fun l r => ?_
  obtain ⟨lt, lreg, lnum, lname, lbtf, lmem⟩ := l
  obtain ⟨rt, rreg, rnum, rname, rbtf, rmem⟩ := r
  cases lt <;> cases rt <;>
    first
      | exact calm_fail rfl
      | exact addConst_calm _ _
      | exact Silent.calm fun _ => ⟨_, rfl⟩
      | exact calm_ite (Silent.calm fun _ => ⟨_, rfl⟩) (Silent.calm fun _ => ⟨_, rfl⟩)

theorem sub_calm : Calm (sub heap l r) := by
  refine calm_preHandle l r fun l r => ?_
  obtain ⟨lt, lreg, lnum, lname, lbtf, lmem⟩ := l
  obtain ⟨rt, rreg, rnum, rname, rbtf, rmem⟩ := r
  cases lt <;> cases rt
  case regBtf.num =>
    refine calm_ite (Silent.calm fun _ => ⟨_, rfl⟩) ?_
    rcases lbtf.map underlyingType with _ | t
    · exact Silent.calm fun _ => ⟨_, rfl⟩
    cases t with
    | pointer target => exact calm_ite (Silent.calm fun _ => ⟨_, rfl⟩) (Silent.calm fun _ => ⟨_, rfl⟩)
    | array type n => exact calm_ite (calm_fail rfl) (Silent.calm fun _ => ⟨_, rfl⟩)
    | _ => exact Silent.calm fun _ => ⟨_, rfl⟩
  all_goals
    first
      | exact calm_fail rfl
      | exact Silent.calm fun _ => ⟨_, rfl⟩
      | exact calm_ite (Silent.calm fun _ => ⟨_, rfl⟩) (Silent.calm fun _ => ⟨_, rfl⟩)
      | exact calm_ite (calm_ite (Silent.calm fun _ => ⟨_, rfl⟩) (Silent.calm fun _ => ⟨_, rfl⟩))
          (calm_fail rfl)

theorem mul_calm : Calm (mul heap l r) := by
  refine calm_preHandle l r fun l r => ?_
  obtain ⟨lt, lreg, lnum, lname, lbtf, lmem⟩ := l
  obtain ⟨rt, rreg, rnum, rname, rbtf, rmem⟩ := r
  cases lt <;> cases rt <;>
    first
      | exact calm_fail rfl
      | exact Silent.calm fun _ => ⟨_, rfl⟩
      | exact calm_ite (calm_ite (Silent.calm fun _ => ⟨_, rfl⟩)
          (calm_ite (Silent.calm fun _ => ⟨_, rfl⟩) (Silent.calm fun _ => ⟨_, rfl⟩))) (calm_fail rfl)

/-- `div` and `mod` reject the constant 0 before Go would divide by it. -/
theorem div_calm : Calm (div heap l r) := by
  refine calm_preHandle l r fun l r => calm_ite (calm_fail rfl) ?_
  obtain ⟨lt, lreg, lnum, lname, lbtf, lmem⟩ := l
  obtain ⟨rt, rreg, rnum, rname, rbtf, rmem⟩ := r
  cases lt <;> cases rt <;>
    first
      | exact calm_fail rfl
      | exact Silent.calm fun _ => ⟨_, rfl⟩
      | exact calm_alloc.bind fun _ => Silent.calm fun _ => ⟨_, rfl⟩

theorem mod_calm : Calm (mod heap l r) := by
  refine calm_preHandle l r fun l r => calm_ite (calm_fail rfl) ?_
  obtain ⟨lt, lreg, lnum, lname, lbtf, lmem⟩ := l
  obtain ⟨rt, rreg, rnum, rname, rbtf, rmem⟩ := r
  cases lt <;> cases rt <;>
    first
      | exact calm_fail rfl
      | exact Silent.calm fun _ => ⟨_, rfl⟩
      | exact calm_ite (Silent.calm fun _ => ⟨_, rfl⟩) (Silent.calm fun _ => ⟨_, rfl⟩)
      | exact calm_ite (Silent.calm fun _ => ⟨_, rfl⟩)
          (calm_alloc.bind fun _ => Silent.calm fun _ => ⟨_, rfl⟩)

/-- Every operator but the shifts. -/
theorem binary_calm (op : BinOp) (hl : op ≠ .lsh) (hr : op ≠ .rsh) : Calm (binary heap op l r) := by
  cases op with
  | lsh => contradiction
  | rsh => contradiction
  | add => exact add_calm l r
  | sub => exact sub_calm l r
  | mul => exact mul_calm l r
  | div => exact div_calm l r
  | mod => exact mod_calm l r
  | _ =>
    refine calm_preHandle l r fun l r => ?_
    obtain ⟨lt, lreg, lnum, lname, lbtf, lmem⟩ := l
    obtain ⟨rt, rreg, rnum, rname, rbtf, rmem⟩ := r
    cases lt <;> cases rt <;>
      first
        | exact calm_fail rfl
        | exact Silent.calm fun _ => ⟨_, rfl⟩
        | exact calm_ite (Silent.calm fun _ => ⟨_, rfl⟩) (Silent.calm fun _ => ⟨_, rfl⟩)

/-- The shift of a constant by a negative constant. -/
def negativeShift (l r : EvalValue) : Prop := l.typ = .num ∧ r.typ = .num ∧ r.num.slt 0

/-- A shift behind its checks: two constants go to the Go shift, the rest
does not panic. -/
theorem shift_panics_iff {f : EvalValue × EvalValue → CodeM EvalValue}
    (hcalm : ∀ l r : EvalValue, ¬(l.typ = .num ∧ r.typ = .num) → Calm (f (l, r)))
    (hnums : ∀ l r : EvalValue, l.typ = .num → r.typ = .num →
      (Panics (fresh (f (l, r))) ↔ r.num.slt 0)) :
    Panics (fresh (lift (preHandleBinaryOp heap l r) >>= f)) ↔ negativeShift l r := by
  by_cases hboth : l.typ = .num ∧ r.typ = .num
  · rw [preHandle_nums l r hboth.1 hboth.2]
    have hf : fresh (lift (.ok (l, r)) >>= f) = fresh (f (l, r)) := rfl
    rw [hf, hnums l r hboth.1 hboth.2, negativeShift]
    simp [hboth]
  · have hnone : Calm (lift (preHandleBinaryOp heap l r) >>= f) := by
      intro g
      cases hpre : preHandleBinaryOp heap l r with
      | error e =>
        intro hp
        exact preHandle_calm l r ⟨e, hpre, by simpa [lift, Bind.bind, StateT.bind, Except.bind] using hp⟩
      | ok p =>
        exact hcalm p.1 p.2 (fun h => hboth (preHandle_to_nums l r hpre h.1 h.2)) g
    constructor
    · exact fun hp => absurd hp hnone.fresh
    · exact fun h => absurd ⟨h.1, h.2.1⟩ hboth

theorem panics_shiftCount (n : Word) : Panics (shiftCount n) ↔ n.slt 0 := by
  unfold shiftCount
  split <;> simp_all

/-- **A shift panics on a constant by a negative constant, and nowhere
else.** -/
theorem lsh_panics_iff : Panics (fresh (lsh heap l r)) ↔ negativeShift l r := by
  refine shift_panics_iff l r (fun l r hnot => ?_) fun l r hl hr => ?_
  · obtain ⟨lt, lreg, lnum, lname, lbtf, lmem⟩ := l
    obtain ⟨rt, rreg, rnum, rname, rbtf, rmem⟩ := r
    cases lt <;> cases rt <;>
      first
        | exact absurd ⟨rfl, rfl⟩ hnot
        | exact calm_fail rfl
        | exact Silent.calm fun _ => ⟨_, rfl⟩
        | exact calm_ite (Silent.calm fun _ => ⟨_, rfl⟩)
            (calm_alloc.bind fun _ => Silent.calm fun _ => ⟨_, rfl⟩)
        | exact calm_ite (calm_fail rfl)
            (calm_ite (Silent.calm fun _ => ⟨_, rfl⟩) (Silent.calm fun _ => ⟨_, rfl⟩))
  · obtain ⟨lt, lreg, lnum, lname, lbtf, lmem⟩ := l
    obtain ⟨rt, rreg, rnum, rname, rbtf, rmem⟩ := r
    subst hl hr
    exact (panics_fresh_lift _ _).trans (panics_shiftCount rnum)

theorem rsh_panics_iff : Panics (fresh (rsh heap l r)) ↔ negativeShift l r := by
  refine shift_panics_iff l r (fun l r hnot => ?_) fun l r hl hr => ?_
  · obtain ⟨lt, lreg, lnum, lname, lbtf, lmem⟩ := l
    obtain ⟨rt, rreg, rnum, rname, rbtf, rmem⟩ := r
    cases lt <;> cases rt <;>
      first
        | exact absurd ⟨rfl, rfl⟩ hnot
        | exact calm_fail rfl
        | exact Silent.calm fun _ => ⟨_, rfl⟩
        | exact calm_ite (Silent.calm fun _ => ⟨_, rfl⟩)
            (calm_alloc.bind fun _ => Silent.calm fun _ => ⟨_, rfl⟩)
        | exact calm_ite (calm_fail rfl)
            (calm_ite (Silent.calm fun _ => ⟨_, rfl⟩) (Silent.calm fun _ => ⟨_, rfl⟩))
  · obtain ⟨lt, lreg, lnum, lname, lbtf, lmem⟩ := l
    obtain ⟨rt, rreg, rnum, rname, rbtf, rmem⟩ := r
    subst hl hr
    exact (panics_fresh_lift _ _).trans (panics_shiftCount rnum)

/-- **The binary operators: only a shift panics, and only on a constant by
a negative constant.** -/
theorem binary_panics_iff (op : BinOp) :
    Panics (fresh (binary heap op l r)) ↔ (op = .lsh ∨ op = .rsh) ∧ negativeShift l r := by
  by_cases hl : op = .lsh
  · subst hl
    show Panics (fresh (lsh heap l r)) ↔ _
    simpa using lsh_panics_iff l r
  by_cases hr : op = .rsh
  · subst hr
    show Panics (fresh (rsh heap l r)) ↔ _
    simpa using rsh_panics_iff l r
  · simpa [hl, hr] using (binary_calm l r op hl hr).fresh

/-! ### The other operators -/

theorem minus_calm (v : EvalValue) : Calm (minus v) := by
  obtain ⟨vt, vreg, vnum, vname, vbtf, vmem⟩ := v
  cases vt
  case num | regBtf => exact Silent.calm fun _ => ⟨_, rfl⟩
  all_goals exact calm_fail rfl

theorem unary_calm (fold : Word → Word) (code : Reg → List Insn) (what : String) (v : EvalValue) :
    Calm (unary fold code what v) := by
  obtain ⟨vt, vreg, vnum, vname, vbtf, vmem⟩ := v
  cases vt
  case num => exact Silent.calm fun _ => ⟨_, rfl⟩
  case regBtf => exact calm_ite (calm_fail rfl) (Silent.calm fun _ => ⟨_, rfl⟩)
  all_goals exact calm_fail rfl

theorem condCheck_calm (v : EvalValue) : Calm (condCheck v) :=
  calm_ite (calm_fail rfl) (Silent.calm fun _ => ⟨_, rfl⟩)

theorem cond_calm (v : EvalValue) : Calm (cond v l r) := by
  refine (condCheck_calm v).bind fun _ => (condCheck_calm l).bind fun _ =>
    (condCheck_calm r).bind fun _ => calm_ite (Silent.calm fun _ => ⟨_, rfl⟩) ?_
  have harm : ∀ w : EvalValue, Silent (condArm v w) := fun w =>
    silent_ite (silent_emit _) fun _ => ⟨_, rfl⟩
  exact Silent.calm ((silent_emit _).bind fun _ => (harm l).bind fun _ =>
    (silent_emit _).bind fun _ => (harm r).bind fun _ => silent_pure _)

end Operators

/-! ### Reads, casts and names -/

section Reads

variable (c : Compiler)

theorem getPointerTypeID_calm (spec : Spec) (t : BtfType) : ¬Panics (getPointerTypeID spec t) := by
  unfold getPointerTypeID
  split
  · simp
  · dsimp only
    split
    · split <;> simp
    · simp [GoError.isPanic]

theorem canRdonlyCast_calm (spec : Spec) (t : Option BtfType) : ¬Panics (canRdonlyCast spec t) := by
  unfold canRdonlyCast
  split
  · simp
  · split
    · simpa using getPointerTypeID_calm spec _
    · simpa using getPointerTypeID_calm spec _
    · simp

theorem loadSize_calm (heap : Heap) (t : BtfType) : ¬Panics (loadSize heap t) := by
  unfold loadSize
  split <;> simp

theorem coreReadLoop_calm (reg : Reg) (offsets : List AccessOffset) :
    Calm (coreReadLoop c reg offsets) := by
  induction offsets with
  | nil => exact Silent.calm fun _ => ⟨_, rfl⟩
  | cons o rest ih =>
    have hemit : ∀ is : List Insn, Calm (emit is >>= fun _ => coreReadLoop c reg rest) := fun is =>
      (silent_emit is).calm.bind fun _ => ih
    unfold coreReadLoop
    refine calm_ite (calm_ite ((silent_emit _).calm.bind fun _ => calm_ite (hemit _) ih)
      (calm_ite (hemit _) ih)) ?_
    refine (Calm.wrapping (calm_lift (canRdonlyCast_calm _ _))).bind fun id => ?_
    cases id with
    | none => exact hemit _
    | some typID =>
      refine (Calm.wrapping (calm_lift (loadSize_calm _ _))).bind fun size => ?_
      exact calm_ite (hemit _) (calm_ite ((silent_emit _).calm.bind fun _ =>
        silent_useLabelExit.calm.bind fun _ => ih) (hemit _))

theorem offset2insns_calm (offsets : List AccessOffset) (reg : Reg) :
    Calm (offset2insns c offsets reg) := by
  unfold offset2insns
  refine calm_ite (silent_pure _).calm (calm_ite (silent_emit _).calm ?_)
  cases c.memMode with
  | coreRead =>
    exact (silent_push c _).calm.bind fun _ => calm_ite
      ((silent_emit _).calm.bind fun _ => (coreReadLoop_calm c reg offsets).bind fun _ =>
        (silent_pop c _).calm)
      ((coreReadLoop_calm c reg offsets).bind fun _ => (silent_pop c _).calm)
  | directRead => exact (silent_direct c reg offsets).calm
  | probeRead => exact (silent_probe c offsets reg).calm

theorem accessTail_calm (res : AccessResult) (q : Reg) : Calm (accessTail c res q) := by
  refine (Calm.wrapping (offset2insns_calm c _ q)).bind fun _ => ?_
  cases res.mem with
  | none => exact Silent.calm fun _ => ⟨_, rfl⟩
  | some m => exact calm_ite (Silent.calm fun _ => ⟨_, rfl⟩) (Silent.calm fun _ => ⟨_, rfl⟩)

theorem access_calm (res : AccessResult) : Calm (access c res) := by
  have htail := accessTail_calm c res
  unfold access
  cases res.idx with
  | none => exact htail res.reg
  | some idx =>
    refine (Calm.wrapping calm_alloc).bind fun q => ?_
    exact calm_ite ((silent_emit _).calm.bind fun _ => htail q)
      ((silent_emit _).calm.bind fun _ => htail q)

theorem cast_calm (type : CType) (v : EvalValue) : Calm (cast c type v) :=
  (Calm.wrapping (calm_lift (cc2btf_calm c type))).bind fun _ => (silent_pure _).calm

theorem castNumber_calm (type : CType) (v : EvalValue) : Calm (castNumber c type v) :=
  (Calm.wrapping (cast_calm c type v)).bind fun _ => (Calm.wrapping calm_alloc).bind fun _ =>
    (silent_emit _).calm.bind fun _ => (silent_pure _).calm

theorem evalName_calm (text : String) : Calm (evalName c text) := by
  unfold evalName
  refine calm_ite (silent_pure _).calm (calm_ite (silent_pure _).calm ?_)
  cases c.vars.idxOf? text with
  | none => exact (silent_pure _).calm
  | some idx =>
    exact calm_alloc.bind fun _ => (silent_emit _).calm.bind fun _ => (silent_pure _).calm

end Reads

end Bpfsnoop.CC
