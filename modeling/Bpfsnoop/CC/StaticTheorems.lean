/-
Bpfsnoop.CC.StaticTheorems — the compiler follows the static evaluation.

Every operator, and every read, does the same whatever the registers of
its operands and the state it starts in (`binary_likewise`,
`access_likewise`); so `eval` and `accessMemory` give what `kind` and
`kindAccess` say (`eval_agrees`).
-/
import Bpfsnoop.CC.Static

namespace Bpfsnoop.CC

open Ebpf Btf Reg

/-! ## Values but for their register -/

/-- A value in another register. -/
def EvalValue.withReg (v : EvalValue) (reg : Reg) : EvalValue := { v with reg := reg }

/-- Two values that differ in their register at most. -/
def SameKind (v w : EvalValue) : Prop := w = v.withReg w.reg

theorem SameKind.mk (v : EvalValue) (reg : Reg) : SameKind v (v.withReg reg) := rfl

section WithReg

variable (v w : EvalValue) (a b : Reg)

@[simp] theorem withReg_typ : (v.withReg a).typ = v.typ := rfl
@[simp] theorem withReg_reg : (v.withReg a).reg = a := rfl
@[simp] theorem withReg_num : (v.withReg a).num = v.num := rfl
@[simp] theorem withReg_name : (v.withReg a).name = v.name := rfl
@[simp] theorem withReg_btf : (v.withReg a).btf = v.btf := rfl
@[simp] theorem withReg_mem : (v.withReg a).mem = v.mem := rfl

/-- The checks before a binary operator do not look at registers. -/
theorem preHandle_withReg (heap : Heap) :
    preHandleBinaryOp heap (v.withReg a) (w.withReg b) =
      (preHandleBinaryOp heap v w).map fun p => (p.1.withReg a, p.2.withReg b) := by
  obtain ⟨vt, vreg, vnum, vname, vbtf, vmem⟩ := v
  obtain ⟨wt, wreg, wnum, wname, wbtf, wmem⟩ := w
  show preHandleBinaryOp heap ⟨vt, a, vnum, vname, vbtf, vmem⟩ ⟨wt, b, wnum, wname, wbtf, wmem⟩ = _
  unfold preHandleBinaryOp
  by_cases h1 : vt = .regBtf ∧ (!canCalculate vbtf) = true
  · rw [if_pos h1, if_pos h1]; rfl
  rw [if_neg h1, if_neg h1]
  by_cases h2 : wt = .regBtf ∧ (!canCalculate wbtf) = true
  · rw [if_pos h2, if_pos h2]; rfl
  rw [if_neg h2, if_neg h2]
  by_cases h3 : vt = .enumMaybe ∧ wt = .regBtf
  · rw [if_pos h3, if_pos h3]
    dsimp only
    cases extractEnum wbtf vname <;> rfl
  rw [if_neg h3, if_neg h3]
  by_cases h4 : vt = .regBtf ∧ wt = .enumMaybe
  · rw [if_pos h4, if_pos h4]
    dsimp only
    cases extractEnum vbtf wname <;> rfl
  · rw [if_neg h4, if_neg h4]; rfl

end WithReg

/-! ## Steps under a condition -/

section Steps

variable {α β : Type} {R : α → β → Prop}

theorem alike_ite {p : Prop} [Decidable p] {m₁ m₂ : CodeM α} {m₁' m₂' : CodeM β}
    (h₁ : p → Alike R m₁ m₁') (h₂ : ¬p → Alike R m₂ m₂') :
    Alike R (if p then m₁ else m₂) (if p then m₁' else m₂') := by
  by_cases hp : p
  · simpa only [hp, if_true] using h₁ hp
  · simpa only [hp, if_false] using h₂ hp

theorem likewise_ite {p : Prop} [Decidable p] {m₁ m₂ : CodeM α} {m₁' m₂' : CodeM β}
    (h₁ : p → Likewise R m₁ m₁') (h₂ : ¬p → Likewise R m₂ m₂') :
    Likewise R (if p then m₁ else m₂) (if p then m₁' else m₂') := by
  by_cases hp : p
  · simpa only [hp, if_true] using h₁ hp
  · simpa only [hp, if_false] using h₂ hp

theorem alike_emit_then {is is' : List Insn} {m : CodeM α} {m' : CodeM β} (h : Alike R m m') :
    Alike R (emit is >>= fun _ => m) (emit is' >>= fun _ => m') :=
  alike_bind alike_emit fun _ _ _ => h

/-- Two runs may differ in whether they emit something. -/
theorem alike_emit_if {p q : Prop} [Decidable p] [Decidable q] {is is' : List Insn} {m : CodeM α}
    {m' : CodeM β} (h : Alike R m m') :
    Alike R (if p then emit is >>= fun _ => m else m) (if q then emit is' >>= fun _ => m' else m') := by
  intro g g'
  by_cases hp : p <;> by_cases hq : q <;> simp only [hp, hq, if_true, if_false] <;> exact h _ _

theorem likewise_alloc_then {f : Reg → CodeM α} {f' : Reg → CodeM β}
    (h : ∀ r r', Alike R (f r) (f' r')) : Likewise R (alloc >>= f) (alloc >>= f') :=
  likewise_bind likewise_alloc fun r r' _ => h r r'

/-- A binary operator behind its checks. -/
theorem likewise_preHandle {heap : Heap} {l r : EvalValue} {a b : Reg}
    {f f' : EvalValue × EvalValue → CodeM EvalValue}
    (h : ∀ l r : EvalValue, Likewise SameKind (f (l, r)) (f' (l.withReg a, r.withReg b))) :
    Likewise SameKind (lift (preHandleBinaryOp heap l r) >>= f)
      (lift (preHandleBinaryOp heap (l.withReg a) (r.withReg b)) >>= f') := by
  intro g g' hfree
  rw [preHandle_withReg]
  cases preHandleBinaryOp heap l r with
  | error e => exact .inr rfl
  | ok p => exact h p.1 p.2 g g' hfree

end Steps

/-! ## Operators -/

section Operators

variable {heap : Heap} (l r : EvalValue) (a b : Reg)

/-- Constants fold the same way, registers are only emitted. -/
theorem and_likewise :
    Likewise SameKind (and heap l r) (and heap (l.withReg a) (r.withReg b)) := by
  refine likewise_preHandle fun l r => ?_
  obtain ⟨lt, lreg, lnum, lname, lbtf, lmem⟩ := l
  obtain ⟨rt, rreg, rnum, rname, rbtf, rmem⟩ := r
  cases lt <;> cases rt <;> apply Alike.likewise <;>
    first
      | exact alike_fail rfl
      | exact alike_pure rfl

theorem compare_likewise (fold : Word → Word → Bool) (inverse : JumpOp) :
    Likewise SameKind (compare heap fold inverse l r)
      (compare heap fold inverse (l.withReg a) (r.withReg b)) := by
  refine likewise_preHandle fun l r => ?_
  obtain ⟨lt, lreg, lnum, lname, lbtf, lmem⟩ := l
  obtain ⟨rt, rreg, rnum, rname, rbtf, rmem⟩ := r
  cases lt <;> cases rt <;> apply Alike.likewise <;>
    first
      | exact alike_fail rfl
      | exact alike_pure rfl

theorem orLike_likewise (fold : Word → Word → Word) (op : AluOp) :
    Likewise SameKind (orLike heap fold op l r)
      (orLike heap fold op (l.withReg a) (r.withReg b)) := by
  refine likewise_preHandle fun l r => ?_
  obtain ⟨lt, lreg, lnum, lname, lbtf, lmem⟩ := l
  obtain ⟨rt, rreg, rnum, rname, rbtf, rmem⟩ := r
  cases lt <;> cases rt <;> apply Alike.likewise <;>
    first
      | exact alike_fail rfl
      | exact alike_pure rfl
      | exact alike_ite (fun _ => alike_pure rfl) fun _ => alike_pure rfl

theorem andand_likewise :
    Likewise SameKind (andand heap l r) (andand heap (l.withReg a) (r.withReg b)) := by
  refine likewise_preHandle fun l r => ?_
  obtain ⟨lt, lreg, lnum, lname, lbtf, lmem⟩ := l
  obtain ⟨rt, rreg, rnum, rname, rbtf, rmem⟩ := r
  cases lt <;> cases rt <;> apply Alike.likewise <;>
    first
      | exact alike_fail rfl
      | exact alike_pure rfl
      | exact alike_ite (fun _ => alike_pure rfl) fun _ => alike_pure rfl

theorem oror_likewise :
    Likewise SameKind (oror heap l r) (oror heap (l.withReg a) (r.withReg b)) := by
  refine likewise_preHandle fun l r => ?_
  obtain ⟨lt, lreg, lnum, lname, lbtf, lmem⟩ := l
  obtain ⟨rt, rreg, rnum, rname, rbtf, rmem⟩ := r
  cases lt <;> cases rt <;> apply Alike.likewise <;>
    first
      | exact alike_fail rfl
      | exact alike_pure rfl
      | exact alike_ite (fun _ => alike_pure rfl) fun _ => alike_pure rfl

theorem mul_likewise :
    Likewise SameKind (mul heap l r) (mul heap (l.withReg a) (r.withReg b)) := by
  refine likewise_preHandle fun l r => ?_
  obtain ⟨lt, lreg, lnum, lname, lbtf, lmem⟩ := l
  obtain ⟨rt, rreg, rnum, rname, rbtf, rmem⟩ := r
  cases lt <;> cases rt <;> apply Alike.likewise <;>
    first
      | exact alike_fail rfl
      | exact alike_pure rfl
      | exact alike_ite (fun _ => alike_ite (fun _ => alike_pure rfl) fun _ =>
          alike_ite (fun _ => alike_pure rfl) fun _ => alike_pure rfl) fun _ => alike_fail rfl

theorem div_likewise :
    Likewise SameKind (div heap l r) (div heap (l.withReg a) (r.withReg b)) := by
  refine likewise_preHandle fun l r => ?_
  obtain ⟨lt, lreg, lnum, lname, lbtf, lmem⟩ := l
  obtain ⟨rt, rreg, rnum, rname, rbtf, rmem⟩ := r
  refine likewise_ite (fun _ => (alike_fail rfl).likewise) fun _ => ?_
  cases lt <;> cases rt <;>
    first
      | exact (alike_fail rfl).likewise
      | exact (alike_pure rfl).likewise
      | exact likewise_alloc_then fun _ _ => alike_pure rfl

theorem mod_likewise :
    Likewise SameKind (mod heap l r) (mod heap (l.withReg a) (r.withReg b)) := by
  refine likewise_preHandle fun l r => ?_
  obtain ⟨lt, lreg, lnum, lname, lbtf, lmem⟩ := l
  obtain ⟨rt, rreg, rnum, rname, rbtf, rmem⟩ := r
  refine likewise_ite (fun _ => (alike_fail rfl).likewise) fun _ => ?_
  cases lt <;> cases rt <;>
    first
      | exact (alike_fail rfl).likewise
      | exact (alike_pure rfl).likewise
      | exact likewise_ite (fun _ => (alike_pure rfl).likewise) fun _ => (alike_pure rfl).likewise
      | exact likewise_ite (fun _ => (alike_pure rfl).likewise) fun _ =>
          likewise_alloc_then fun _ _ => alike_pure rfl

theorem lsh_likewise :
    Likewise SameKind (lsh heap l r) (lsh heap (l.withReg a) (r.withReg b)) := by
  refine likewise_preHandle fun l r => ?_
  obtain ⟨lt, lreg, lnum, lname, lbtf, lmem⟩ := l
  obtain ⟨rt, rreg, rnum, rname, rbtf, rmem⟩ := r
  cases lt <;> cases rt <;>
    first
      | exact (alike_fail rfl).likewise
      | exact (alike_pure rfl).likewise
      | exact (alike_bind alike_lift_self fun _ _ h => h ▸ alike_pure rfl).likewise
      | exact likewise_ite (fun _ => (alike_pure rfl).likewise) fun _ =>
          likewise_alloc_then fun _ _ => alike_pure rfl
      | exact Alike.likewise (alike_ite (fun _ => alike_fail rfl) fun _ =>
          alike_ite (fun _ => alike_pure rfl) fun _ => alike_pure rfl)

theorem rsh_likewise :
    Likewise SameKind (rsh heap l r) (rsh heap (l.withReg a) (r.withReg b)) := by
  refine likewise_preHandle fun l r => ?_
  obtain ⟨lt, lreg, lnum, lname, lbtf, lmem⟩ := l
  obtain ⟨rt, rreg, rnum, rname, rbtf, rmem⟩ := r
  cases lt <;> cases rt <;>
    first
      | exact (alike_fail rfl).likewise
      | exact (alike_pure rfl).likewise
      | exact (alike_bind alike_lift_self fun _ _ h => h ▸ alike_pure rfl).likewise
      | exact likewise_ite (fun _ => (alike_pure rfl).likewise) fun _ =>
          likewise_alloc_then fun _ _ => alike_pure rfl
      | exact Alike.likewise (alike_ite (fun _ => alike_fail rfl) fun _ =>
          alike_ite (fun _ => alike_pure rfl) fun _ => alike_pure rfl)

theorem addConst_alike (num : Word) (v : EvalValue) :
    Alike SameKind (addConst heap num v) (addConst heap num (v.withReg a)) := by
  unfold addConst
  refine alike_ite (fun _ => alike_pure rfl) fun _ => ?_
  simp only [withReg_btf]
  cases v.btf.map underlyingType with
  | none => exact alike_pure rfl
  | some t =>
    cases t with
    | pointer target =>
      exact alike_ite (fun _ => alike_pure rfl) fun _ =>
        alike_ite (fun _ => alike_fail rfl) fun _ => alike_pure rfl
    | array type n => exact alike_ite (fun _ => alike_fail rfl) fun _ => alike_pure rfl
    | _ => exact alike_pure rfl

theorem add_likewise :
    Likewise SameKind (add heap l r) (add heap (l.withReg a) (r.withReg b)) := by
  refine likewise_preHandle fun l r => ?_
  obtain ⟨lt, lreg, lnum, lname, lbtf, lmem⟩ := l
  obtain ⟨rt, rreg, rnum, rname, rbtf, rmem⟩ := r
  cases lt <;> cases rt <;> apply Alike.likewise <;>
    first
      | exact alike_fail rfl
      | exact alike_pure rfl
      | exact addConst_alike _ _ _
      | exact alike_ite (fun _ => alike_pure rfl) fun _ => alike_pure rfl

theorem sub_likewise :
    Likewise SameKind (sub heap l r) (sub heap (l.withReg a) (r.withReg b)) := by
  refine likewise_preHandle fun l r => Alike.likewise ?_
  obtain ⟨lt, lreg, lnum, lname, lbtf, lmem⟩ := l
  obtain ⟨rt, rreg, rnum, rname, rbtf, rmem⟩ := r
  cases lt <;> cases rt
  case regBtf.num =>
    refine alike_ite (fun _ => alike_pure rfl) fun _ => ?_
    simp only [withReg_btf]
    cases lbtf.map underlyingType with
    | none => exact alike_pure rfl
    | some t =>
      cases t with
      | pointer target => exact alike_ite (fun _ => alike_pure rfl) fun _ => alike_pure rfl
      | array type n => exact alike_ite (fun _ => alike_fail rfl) fun _ => alike_pure rfl
      | _ => exact alike_pure rfl
  all_goals
    first
      | exact alike_fail rfl
      | exact alike_pure rfl
      | exact alike_ite (fun _ => alike_pure rfl) fun _ => alike_pure rfl
      | exact alike_ite (fun _ => alike_ite (fun _ => alike_pure rfl) fun _ => alike_pure rfl)
          fun _ => alike_fail rfl

/-- **No binary operator looks at a register.** -/
theorem binary_likewise (op : BinOp) :
    Likewise SameKind (binary heap op l r) (binary heap op (l.withReg a) (r.withReg b)) := by
  cases op with
  | add => exact add_likewise l r a b
  | and => exact and_likewise l r a b
  | andAnd => exact andand_likewise l r a b
  | div => exact div_likewise l r a b
  | eqEq | lt | ltEq | notEq => exact compare_likewise l r a b _ _
  | gt => exact compare_likewise l r a b (fun x y => y.slt x) .le
  | gtEq => exact compare_likewise l r a b (fun x y => y.sle x) .lt
  | lsh => exact lsh_likewise l r a b
  | mod => exact mod_likewise l r a b
  | mul => exact mul_likewise l r a b
  | or | xor => exact orLike_likewise l r a b _ _
  | orOr => exact oror_likewise l r a b
  | rsh => exact rsh_likewise l r a b
  | sub => exact sub_likewise l r a b

theorem minus_alike (v : EvalValue) : Alike SameKind (minus v) (minus (v.withReg a)) := by
  obtain ⟨vt, vreg, vnum, vname, vbtf, vmem⟩ := v
  cases vt
  case num | regBtf => exact alike_pure rfl
  all_goals exact alike_fail rfl

theorem unary_alike (fold : Word → Word) (code : Reg → List Insn) (what : String) (v : EvalValue) :
    Alike SameKind (unary fold code what v) (unary fold code what (v.withReg a)) := by
  obtain ⟨vt, vreg, vnum, vname, vbtf, vmem⟩ := v
  cases vt
  case num => exact alike_pure rfl
  case regBtf => exact alike_ite (fun _ => alike_fail rfl) fun _ => alike_pure rfl
  all_goals exact alike_fail rfl

/-! ### The conditional operator -/

theorem condCheck_alike (v : EvalValue) :
    Alike (fun _ _ => True) (condCheck v) (condCheck (v.withReg a)) := by
  obtain ⟨vt, vreg, vnum, vname, vbtf, vmem⟩ := v
  exact alike_ite (fun _ => alike_fail rfl) fun _ => alike_pure trivial

theorem condArm_alike (v w : EvalValue) :
    Alike (fun _ _ => True) (condArm v w) (condArm (v.withReg a) (w.withReg b)) := by
  obtain ⟨wt, wreg, wnum, wname, wbtf, wmem⟩ := w
  exact alike_ite (fun _ => alike_emit) fun _ => alike_emit_then alike_free

theorem cond_alike (v : EvalValue) (c : Reg) :
    Alike SameKind (cond v l r) (cond (v.withReg c) (l.withReg a) (r.withReg b)) := by
  unfold cond
  refine alike_bind (condCheck_alike c v) fun _ _ _ => ?_
  refine alike_bind (condCheck_alike a l) fun _ _ _ => ?_
  refine alike_bind (condCheck_alike b r) fun _ _ _ => ?_
  obtain ⟨vt, vreg, vnum, vname, vbtf, vmem⟩ := v
  refine alike_ite (fun _ => alike_pure ?_) fun _ => ?_
  · by_cases hz : vnum = 0
    · simp only [withReg_num, hz, if_true]
      exact .mk r b
    · simp only [withReg_num, hz, if_false]
      exact .mk l a
  · refine alike_emit_then (alike_bind (condArm_alike c a _ l) fun _ _ _ => ?_)
    exact alike_emit_then (alike_bind (condArm_alike c b _ r) fun _ _ _ => alike_pure rfl)

end Operators

/-! ## Reads

The code of a read is emitted whatever the register; only the type
lookups of the core reads can fail, and they see the chain alone. -/

/-- A step that never fails. -/
def Silent {α : Type} (m : CodeM α) : Prop := ∀ g, ∃ r, m g = .ok r

section Silent

variable {α β : Type}

theorem silent_pure (a : α) : Silent (pure a) := fun g => ⟨(a, g), rfl⟩

theorem silent_emit (is : List Insn) : Silent (emit is) := fun _ => ⟨_, rfl⟩

theorem silent_useLabelExit : Silent useLabelExit := fun _ => ⟨_, rfl⟩

theorem Silent.bind {m : CodeM α} {f : α → CodeM β} (h : Silent m) (hf : ∀ a, Silent (f a)) :
    Silent (m >>= f) := by
  intro g
  obtain ⟨⟨a, g'⟩, hm⟩ := h g
  obtain ⟨r, hr⟩ := hf a g'
  exact ⟨r, by simp only [Bind.bind, StateT.bind, hm, Except.bind, hr]⟩

theorem silent_ite {p : Prop} [Decidable p] {m₁ m₂ : CodeM α} (h₁ : Silent m₁) (h₂ : Silent m₂) :
    Silent (if p then m₁ else m₂) := by
  by_cases hp : p
  · simpa only [hp, if_true] using h₁
  · simpa only [hp, if_false] using h₂

theorem Silent.alike {m : CodeM α} {m' : CodeM β} (h : Silent m) (h' : Silent m') :
    Alike (fun _ _ => True) m m' := by
  intro g g'
  obtain ⟨r, hr⟩ := h g
  obtain ⟨r', hr'⟩ := h' g'
  rw [hr, hr']
  trivial

theorem silent_getRegalloc : Silent getRegalloc := fun _ => ⟨_, rfl⟩

theorem silent_push (c : Compiler) (n : Nat) : Silent (pushUsedCallerSavedRegsN c n) :=
  silent_getRegalloc.bind fun _ =>
    silent_ite ((silent_emit _).bind fun _ => silent_emit _) (silent_emit _)

theorem silent_pop (c : Compiler) (n : Nat) : Silent (popUsedCallerSavedRegsN c n) :=
  silent_getRegalloc.bind fun _ =>
    (silent_emit _).bind fun _ => silent_ite (silent_emit _) (silent_pure _)

theorem silent_direct (c : Compiler) (reg : Reg) (offsets : List AccessOffset) :
    Silent (directReadOffsets c reg offsets) := by
  induction offsets with
  | nil => exact silent_pure _
  | cons o rest ih =>
    exact silent_ite (silent_ite ((silent_emit _).bind fun _ => ih) ih)
      ((silent_emit _).bind fun _ => silent_ite ((silent_emit _).bind fun _ => ih) ih)

theorem silent_probeLoop (c : Compiler) (reg : Reg) (offsets : List AccessOffset) :
    Silent (probeReadLoop c reg offsets) := by
  induction offsets with
  | nil => exact silent_pure _
  | cons o rest ih =>
    have hstep := silent_ite (p := o.address = true)
      (silent_ite (p := rest = [] ∧ reg ≠ R3) ((silent_emit [Asm.movReg reg R3]).bind fun _ => ih) ih)
      ((silent_emit [Asm.movImm R2 8, Asm.movReg R1 RFP, Asm.addImm R1 (-8), Op.call .probeReadKernel]).bind
        fun _ => silent_ite (p := rest ≠ [])
          (silent_useLabelExit.bind fun _ =>
            (silent_emit [Asm.loadMem R3 RFP (-8) .dword, Asm.jeqImm R3 0 c.labelExit]).bind fun _ => ih)
          ((silent_emit [Asm.loadMem reg RFP (-8) .dword]).bind fun _ => ih))
    exact silent_ite ((silent_emit _).bind fun _ => hstep) hstep

theorem silent_probe (c : Compiler) (offsets : List AccessOffset) (reg : Reg) :
    Silent (probeReadOffsets c offsets reg) :=
  silent_ite (silent_emit _) ((silent_push c 5).bind fun _ => silent_ite
    ((silent_emit _).bind fun _ => (silent_probeLoop c reg offsets).bind fun _ => silent_pop c 5)
    ((silent_probeLoop c reg offsets).bind fun _ => silent_pop c 5))

end Silent

section Reads

variable (c : Compiler) (reg reg' : Reg) (offsets : List AccessOffset)

/-- The loop of the core reads fails where the lookups of a step fail. -/
theorem coreReadLoop_alike :
    Alike (fun _ _ => True) (coreReadLoop c reg offsets) (coreReadLoop c reg' offsets) := by
  induction offsets with
  | nil => exact alike_pure trivial
  | cons o rest ih =>
    have hprobe : Alike (fun _ _ => True)
        (coreReadByProbeRead reg (rest = []) >>= fun _ => coreReadLoop c reg rest)
        (coreReadByProbeRead reg' (rest = []) >>= fun _ => coreReadLoop c reg' rest) :=
      alike_emit_then ih
    unfold coreReadLoop
    refine alike_ite (fun _ => ?_) fun _ => ?_
    · exact alike_ite (fun _ => alike_emit_then (alike_emit_if ih)) fun _ => alike_emit_if ih
    · refine alike_bind (alike_wrapping alike_lift_self) fun id _ hid => ?_
      subst hid
      cases id with
      | none => exact hprobe
      | some typID =>
        refine alike_bind (alike_wrapping alike_lift_self) fun size _ hsize => ?_
        subst hsize
        exact alike_ite (fun _ => hprobe) fun _ =>
          alike_ite (fun _ => alike_emit_then (alike_bind (silent_useLabelExit.alike silent_useLabelExit)
            fun _ _ _ => ih)) fun _ => alike_emit_then ih

theorem coreReadOffsets_alike :
    Alike (fun _ _ => True) (coreReadOffsets c offsets reg) (coreReadOffsets c offsets reg') := by
  unfold coreReadOffsets
  refine alike_bind ((silent_push c _).alike (silent_push c _)) fun _ _ _ => alike_emit_if ?_
  exact alike_bind (coreReadLoop_alike c reg reg' offsets) fun _ _ _ =>
    (silent_pop c _).alike (silent_pop c _)

theorem offset2insns_alike :
    Alike (fun _ _ => True) (offset2insns c offsets reg) (offset2insns c offsets reg') := by
  unfold offset2insns
  refine alike_ite (fun _ => alike_pure trivial) fun _ =>
    alike_ite (fun _ => alike_emit) fun _ => ?_
  cases c.memMode with
  | coreRead => exact coreReadOffsets_alike c reg reg' offsets
  | directRead => exact (silent_direct c reg offsets).alike (silent_direct c reg' offsets)
  | probeRead => exact (silent_probe c offsets reg).alike (silent_probe c offsets reg')

/-- What `access` does behind its base. -/
def accessTail (c : Compiler) (res : AccessResult) (q : Reg) : CodeM EvalValue := do
  wrapping "failed to convert offsets to instructions" (offset2insns c res.offsets q)
  match res.mem with
  | some m =>
    if isMemberBitfield res.mem then
      emit ((bitfield2insns m q).map (↑))
    else
      emit ((adjustRegisterBitwise c.heap res.btf q).map (↑))
  | none => emit ((adjustRegisterBitwise c.heap res.btf q).map (↑))
  return { typ := .regBtf, reg := q, btf := some res.btf, mem := res.mem }

theorem accessTail_alike (res : AccessResult) (q q' : Reg) :
    Alike SameKind (accessTail c res q) (accessTail c res q') := by
  unfold accessTail
  refine alike_bind (alike_wrapping (offset2insns_alike c q q' res.offsets)) fun _ _ _ => ?_
  cases res.mem with
  | none => exact alike_emit_then (alike_pure rfl)
  | some m =>
    exact alike_ite (fun _ => alike_emit_then (alike_pure rfl)) fun _ =>
      alike_emit_then (alike_pure rfl)

/-- **No read looks at its registers**: `access` on a chain, from any base. -/
theorem access_likewise (res : AccessResult) :
    Likewise SameKind (access c res) (access c (res.withBase res.idx reg')) := by
  have htail := accessTail_alike c res
  obtain ⟨idx, btf, mem, lastIdx, offsets, uptr, reg⟩ := res
  cases idx with
  | none => exact (htail reg reg').likewise
  | some idx =>
    refine likewise_bind (likewise_wrapping likewise_alloc) fun q q' _ => ?_
    exact alike_ite (fun _ => alike_emit_then (htail q q')) fun _ => alike_emit_then (htail q q')

theorem cast_alike (type : CType) (v : EvalValue) :
    Alike SameKind (cast c type v) (cast c type (v.withReg reg')) :=
  alike_bind (alike_wrapping alike_lift_self) fun _ _ h => h ▸ alike_pure rfl

theorem castNumber_likewise (type : CType) (v : EvalValue) :
    Likewise SameKind (castNumber c type v) (castNumber c type (v.withReg reg')) := by
  have hrest : ∀ t : BtfType, Likewise SameKind
      (do
        let q ← wrapping "failed to allocate register for cast" alloc
        emit [Asm.movImm q v.num]
        return ({ v with btf := some t, reg := q } : EvalValue))
      (do
        let q ← wrapping "failed to allocate register for cast" alloc
        emit [Asm.movImm q v.num]
        return ({ v.withReg reg' with btf := some t, reg := q } : EvalValue)) := fun t =>
    likewise_bind (likewise_wrapping likewise_alloc) fun _ _ _ => alike_emit_then (alike_pure rfl)
  intro g g' hfree
  have hcast : ∀ w : EvalValue, cast c type w = wrapping "failed to convert cc type to btf type"
      (lift (cc2btf c type)) >>= fun t => pure { w with btf := some t } := fun _ => rfl
  unfold castNumber
  rw [hcast, hcast]
  cases hx : cc2btf c type with
  | error e => exact .inr rfl
  | ok t => exact hrest t g g' hfree

theorem evalName_likewise (text : String) : Likewise SameKind (evalName c text) (evalName c text) := by
  unfold evalName
  refine likewise_ite (fun _ => (alike_pure rfl).likewise) fun _ =>
    likewise_ite (fun _ => (alike_pure rfl).likewise) fun _ => ?_
  cases c.vars.idxOf? text with
  | none => exact (alike_pure rfl).likewise
  | some idx => exact likewise_alloc_then fun _ _ => alike_emit_then (alike_pure rfl)

end Reads

/-! ## The recursion -/

section Recursion

/-- Two chains that differ in the register of their base at most. -/
def SameChain (res res' : AccessResult) : Prop := res' = res.withBase res.idx res'.reg

theorem SameChain.refl (res : AccessResult) : SameChain res res := rfl

variable {c : Compiler} {e left right : Expr}

/-- A step of an access expression, on the chain of its operand. -/
theorem alike_accessStep {f : AccessResult → Except GoError AccessResult} (hf : KeepsBase f)
    {res res' : AccessResult} (h : SameChain res res') :
    Alike SameChain (lift (f res)) (lift (f res')) := by
  rw [h, hf res res.idx res'.reg]
  intro g g'
  cases hx : f res with
  | error e => exact .inr rfl
  | ok x =>
    have hidx : x.idx = res.idx := (hf.base hx).1
    show x.withBase res.idx res'.reg = x.withBase x.idx _
    rw [hidx]
    rfl

theorem alike_access {m : CodeM AccessResult} {x : Except GoError AccessResult}
    {f : AccessResult → Except GoError AccessResult} (hf : KeepsBase f)
    (h : Alike SameChain m (lift x)) :
    Alike SameChain (m >>= fun res => lift (f res)) (lift (x >>= f)) := by
  rw [lift_bind]
  exact alike_bind h fun _ _ hres => alike_accessStep hf hres

/-- A computed base: the value of `&` or `|`. -/
theorem alike_computed {v w : EvalValue} (h : SameKind v w) :
    Alike SameChain (lift (accessComputed v)) (lift (accessComputed w)) := by
  rw [h]
  obtain ⟨vt, vreg, vnum, vname, vbtf, vmem⟩ := v
  cases vt
  case regBtf => exact alike_pure rfl
  all_goals exact alike_fail rfl

/-- What both functions say of an expression. -/
def Agrees (c : Compiler) (e : Expr) : Prop :=
  Alike SameChain (accessMemory c e) (lift (kindAccess c e)) ∧
    Alike SameKind (eval c e) (lift (kind c e))

theorem kind_access (h : e.isAccess) :
    kind c e = (do let res ← kindAccess c e; fresh (access c res)) := by
  cases e with
  | dot => simp only [kind, kindAccess, bind_assoc]
  | arrow => simp only [kind, kindAccess, bind_assoc]
  | index => simp only [kind, kindAccess, bind_assoc]
  | un op => cases op <;> simp [Expr.isAccess] at h <;> simp only [kind, kindAccess, bind_assoc]
  | _ => simp [Expr.isAccess] at h

/-- An access expression: the chain, then the read. -/
theorem Agrees.of_access (hacc : e.isAccess)
    (h : Alike SameChain (accessMemory c e) (lift (kindAccess c e))) : Agrees c e := by
  refine ⟨h, ?_⟩
  rw [eval_access c hacc, kind_access hacc, lift_bind]
  refine alike_bind h fun res res' hres => ?_
  rw [hres]
  exact likewise_fresh (access_likewise c _ res)

/-- Both operands, then an operator. -/
theorem alike_operands {f : EvalValue → EvalValue → CodeM EvalValue} {text text' : String}
    (hf : ∀ l r a b, Likewise SameKind (f l r) (f (l.withReg a) (r.withReg b)))
    (hl : Agrees c left) (hr : Agrees c right) :
    Alike SameKind
      (do
        let l ← wrapping text (eval c left)
        let r ← wrapping text' (eval c right)
        f l r)
      (lift (do
        let l ← kind c left
        let r ← kind c right
        fresh (f l r))) := by
  simp only [lift_bind]
  refine alike_bind (alike_wrapping_left hl.2) fun l l' hl => ?_
  refine alike_bind (alike_wrapping_left hr.2) fun r r' hr => ?_
  rw [hl, hr]
  exact likewise_fresh (hf _ _ _ _)

/-- One operand, then an operator. -/
theorem alike_operand {f f' : EvalValue → CodeM EvalValue} {text : String}
    (hf : ∀ v a, Likewise SameKind (f v) (f' (v.withReg a))) (hleft : Agrees c left) :
    Alike SameKind (wrapping text (eval c left) >>= f)
      (lift (kind c left >>= fun v => fresh (f' v))) := by
  rw [lift_bind]
  refine alike_bind (alike_wrapping_left hleft.2) fun v v' hv => ?_
  rw [hv]
  exact likewise_fresh (hf _ _)

theorem alike_lift_refl {α : Type} {R : α → α → Prop} (hR : ∀ a, R a a) (x : Except GoError α) :
    Alike R (lift x) (lift x) := by
  intro g g'
  cases x with
  | error e => exact .inr rfl
  | ok a => exact hR a

/-- An offset given as a literal, then the operand it applies to. -/
theorem alike_shift {f : Word → AccessResult → Except GoError AccessResult} {text what textOf : String}
    (hf : ∀ num, KeepsBase (f num)) (h : Alike SameChain (accessMemory c e) (lift (kindAccess c e))) :
    Alike SameChain
      (do
        let num ← accessNumber what text
        let res ← wrapping textOf (accessMemory c e)
        lift (f num res))
      (lift (do
        let num ← parseNumber text
        let res ← kindAccess c e
        f num res)) := by
  rw [lift_bind]
  refine alike_bind (alike_wrapping_left alike_lift_self) fun num num' hnum => ?_
  rw [← hnum]
  exact alike_access (hf num) (alike_wrapping_left h)

/-- `&` and `|` inside an access expression. -/
theorem alike_bitwise {f : EvalValue → EvalValue → CodeM EvalValue} {text textL textR : String}
    (hf : ∀ l r a b, Likewise SameKind (f l r) (f (l.withReg a) (r.withReg b)))
    (hl : Agrees c left) (hr : Agrees c right) :
    Alike SameChain
      (do
        let val ← wrapping text do
          let l ← wrapping textL (eval c left)
          let r ← wrapping textR (eval c right)
          f l r
        lift (accessComputed val))
      (lift (do
        let l ← kind c left
        let r ← kind c right
        let val ← fresh (f l r)
        accessComputed val)) := by
  have hassoc : (do
      let l ← kind c left
      let r ← kind c right
      let val ← fresh (f l r)
      accessComputed val) =
      (kind c left >>= fun l => kind c right >>= fun r => fresh (f l r)) >>= accessComputed := by
    simp only [bind_assoc]
  rw [hassoc, lift_bind]
  exact alike_bind (alike_wrapping_left (alike_operands hf hl hr)) fun _ _ hv => alike_computed hv

theorem accessMemory_bin_agrees (op : BinOp) (hl : Agrees c left) (hr : Agrees c right) :
    Alike SameChain (accessMemory c (.bin op left right)) (lift (kindAccess c (.bin op left right))) := by
  cases op
  case and => exact alike_bitwise (fun l r a b => and_likewise l r a b) hl hr
  case or => exact alike_bitwise (fun l r a b => orLike_likewise l r a b _ _) hl hr
  case add =>
    cases hlt : left.numberText? with
    | some text =>
      simp only [accessMemory, kindAccess, hlt]
      exact alike_shift (keepsBase_add c.heap) hr.1
    | none =>
      cases hrt : right.numberText? with
      | some text =>
        simp only [accessMemory, kindAccess, hlt, hrt]
        exact alike_shift (keepsBase_add c.heap) hl.1
      | none =>
        simp only [accessMemory, kindAccess, hlt, hrt]
        exact alike_fail rfl
  case sub =>
    cases hrt : right.numberText? with
    | some text =>
      simp only [accessMemory, kindAccess, hrt]
      exact alike_shift (keepsBase_sub c.heap) hl.1
    | none =>
      simp only [accessMemory, kindAccess, hrt]
      exact alike_fail rfl
  all_goals exact alike_fail rfl

theorem eval_un_agrees (op : UnOp) (h : Agrees c left) : Agrees c (.un op left) := by
  cases op with
  | addr => exact .of_access rfl (alike_access (keepsBase_addr left.text) (alike_wrapping_left h.1))
  | indir => exact .of_access rfl (alike_access keepsBase_indir (alike_wrapping_left h.1))
  | paren => exact h
  | plus => exact ⟨alike_fail rfl, h.2⟩
  | minus => exact ⟨alike_fail rfl, alike_operand (fun v a => (minus_alike a v).likewise) h⟩
  | not => exact ⟨alike_fail rfl, alike_operand (fun v a => (unary_alike a _ _ _ v).likewise) h⟩
  | preDec => exact ⟨alike_fail rfl, alike_operand (fun v a => (unary_alike a _ _ _ v).likewise) h⟩
  | preInc => exact ⟨alike_fail rfl, alike_operand (fun v a => (unary_alike a _ _ _ v).likewise) h⟩
  | twid => exact ⟨alike_fail rfl, alike_operand (fun v a => (unary_alike a _ _ _ v).likewise) h⟩

theorem eval_cast_agrees (type : CType) (h : Agrees c left) : Agrees c (.cast type left) := by
  constructor
  · cases hlt : left.numberText? with
    | some text =>
      simp only [accessMemory, kindAccess, hlt, lift_bind]
      refine alike_bind (alike_wrapping_left alike_lift_self) fun n n' hn => ?_
      rw [← hn]
      exact alike_lift_refl .refl _
    | none =>
      simp only [accessMemory, kindAccess, hlt]
      exact alike_access (keepsBase_cast c type) (alike_wrapping_left h.1)
  · simp only [eval, kind, lift_bind]
    refine alike_bind (alike_wrapping_left h.2) fun v v' hv => ?_
    rw [hv]
    obtain ⟨vt, vreg, vnum, vname, vbtf, vmem⟩ := v
    cases vt with
    | num => exact likewise_fresh (castNumber_likewise c _ type ⟨.regBtf, vreg, vnum, vname, vbtf, vmem⟩)
    | _ => exact likewise_fresh (cast_alike c _ type _).likewise

theorem eval_cond_agrees (he : Agrees c e) (hl : Agrees c left) (hr : Agrees c right) :
    Agrees c (.cond e left right) := by
  refine ⟨alike_fail rfl, ?_⟩
  simp only [eval, kind, lift_bind]
  refine alike_bind (alike_wrapping_left he.2) fun v v' hv => ?_
  refine alike_bind (alike_wrapping_left hl.2) fun l l' hl => ?_
  refine alike_bind (alike_wrapping_left hr.2) fun r r' hr => ?_
  rw [hv, hl, hr]
  exact likewise_fresh (cond_alike l r _ _ v _).likewise

/-- **The compiler follows the static evaluation.** -/
theorem eval_agrees (c : Compiler) (e : Expr) : Agrees c e := by
  induction e with
  | name text =>
    exact ⟨alike_lift_refl .refl _, likewise_fresh (evalName_likewise c text)⟩
  | number text =>
    refine ⟨alike_fail rfl, ?_⟩
    simp only [eval, kind, lift_bind]
    exact alike_bind (alike_wrapping_left alike_lift_self) fun _ _ h => h ▸ alike_pure rfl
  | un op left ih => exact eval_un_agrees op ih
  | bin op left right ihl ihr =>
    exact ⟨accessMemory_bin_agrees op ihl ihr,
      alike_operands (fun l r a b => binary_likewise l r a b op) ihl ihr⟩
  | cond e left right ihe ihl ihr => exact eval_cond_agrees ihe ihl ihr
  | cast type left ih => exact eval_cast_agrees type ih
  | dot left text ih =>
    exact .of_access rfl (alike_access (keepsBase_member c.heap left.text text) ih.1)
  | arrow left text ih =>
    exact .of_access rfl (alike_access (keepsBase_member c.heap left.text text) ih.1)
  | index left right ih _ =>
    exact .of_access rfl (alike_access (keepsBase_index c.heap right) (alike_wrapping_left ih.1))
  | call left list _ => exact ⟨alike_fail rfl, alike_fail rfl⟩
  | other op => exact ⟨alike_fail rfl, alike_fail rfl⟩

end Recursion

/-! ## What the compiler found is known statically -/

section Known

variable {c : Compiler} {e : Expr} {g g' : Gen}

theorem Alike.known {α β : Type} {R : α → β → Prop} {m : CodeM α} {x : Except GoError β} {a : α}
    (halike : Alike R m (lift x)) (h : m g = .ok (a, g')) : ∃ b, x = .ok b ∧ R a b := by
  have hfit := halike g Gen.fresh
  cases hx : x with
  | error err => simp [Fit, h, hx, lift] at hfit
  | ok b =>
    simp only [Fit, h, hx, lift] at hfit
    exact ⟨b, rfl, hfit⟩

theorem kind_of_eval {v : EvalValue} (h : eval c e g = .ok (v, g')) :
    ∃ u, kind c e = .ok u ∧ SameKind v u := (eval_agrees c e).2.known h

theorem kindAccess_of_accessMemory {res : AccessResult} (h : accessMemory c e g = .ok (res, g')) :
    ∃ res', kindAccess c e = .ok res' ∧ SameChain res res' := (eval_agrees c e).1.known h

end Known

end Bpfsnoop.CC
