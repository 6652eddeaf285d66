/-
Bpfsnoop.CC.ControlFlow — the relative jumps in the code of an expression.

Only operators emit relative jumps, and each of them stays inside its own
instructions or goes right behind them (`operator_inside`). Code that is
put together from the codes of operators and from pieces without relative
jumps (`Assembled`) inherits this.
-/
import Bpfsnoop.CC.OperatorTheorems
import Bpfsnoop.Ebpf.Jumps

namespace Bpfsnoop.CC

open Ebpf Btf Reg

/-! ## The code of one operator -/

/-- The operator functions, applied to operands. -/
inductive IsOperator (heap : Heap) : CodeM EvalValue → Prop
  | binary (op : BinOp) (l r : EvalValue) : IsOperator heap (binary heap op l r)
  | minus (v : EvalValue) : IsOperator heap (minus v)
  | not (v : EvalValue) : IsOperator heap (not v)
  | twid (v : EvalValue) : IsOperator heap (twid v)
  | preDec (v : EvalValue) : IsOperator heap (preDec v)
  | preInc (v : EvalValue) : IsOperator heap (preInc v)
  | cond (v l r : EvalValue) : IsOperator heap (cond v l r)

/-- What an operator emits between its call and its return. -/
def OperatorCode (heap : Heap) (own : List Op) : Prop :=
  ∃ m g v g' insns, IsOperator heap m ∧ m g = .ok (v, g') ∧ g'.insns = g.insns ++ insns ∧
    own = insns.map (·.op)

/-- Neither labels nor jumps to labels. -/
def plain (is : List Insn) : Bool := is.all fun i => i.symbol.isNone && i.op.label?.isNone

theorem plain_append (a b : List Insn) : plain (a ++ b) = (plain a && plain b) := by
  simp [plain]

/-- A step of an operator that has emitted `pre` already: at its end, the
relative jumps stay inside. -/
def StaysInside {α : Type} (pre : List Insn) (m : CodeM α) : Prop :=
  ∀ g r g', m g = .ok (r, g') → ∃ own, g'.insns = g.insns ++ own ∧
    jumpsInside ((pre ++ own).map (·.op)) ∧ plain own ∧ g'.labelExitUsed = g.labelExitUsed

section StaysInside

variable {α β : Type} {pre : List Insn}

theorem staysInside_pure {a : α} (h : jumpsInside (pre.map (·.op))) :
    StaysInside pre (pure a : CodeM α) := by
  intro g r g' hr
  obtain ⟨-, rfl⟩ := pure_eq_ok.mp hr
  exact ⟨[], by simp, by simpa using h, rfl, rfl⟩

theorem staysInside_fail {e : GoError} : StaysInside pre (fail e : CodeM α) := by
  intro g r g' hr
  exact absurd hr (by simp)

theorem staysInside_emit {is : List Insn} {m : CodeM α} (hplain : plain is)
    (h : StaysInside (pre ++ is) m) : StaysInside pre (emit is >>= fun _ => m) := by
  intro g r g' hr
  obtain ⟨_, g₁, he, hm⟩ := bind_eq_ok.mp hr
  obtain rfl := emit_eq_ok.mp he
  obtain ⟨own, hins, hclosed, hown, hlabel⟩ := h _ r g' hm
  refine ⟨is ++ own, by simpa using hins, by simpa using hclosed, ?_, hlabel⟩
  rw [plain_append, hplain, hown]
  rfl

/-- A step that leaves the code alone. -/
def Wordless (m : CodeM α) : Prop := ∀ g r g', m g = .ok (r, g') →
  g'.insns = g.insns ∧ g'.labelExitUsed = g.labelExitUsed

theorem staysInside_wordless {m : CodeM α} {f : α → CodeM β} (hm : Wordless m)
    (hf : ∀ a, StaysInside pre (f a)) : StaysInside pre (m >>= f) := by
  intro g r g' hr
  obtain ⟨a, g₁, ha, hr⟩ := bind_eq_ok.mp hr
  obtain ⟨hins, hlabel⟩ := hm g a g₁ ha
  obtain ⟨own, hins', hrest⟩ := hf a g₁ r g' hr
  rw [hins] at hins'
  rw [hlabel] at hrest
  exact ⟨own, hins', hrest⟩

theorem wordless_lift {x : Except GoError α} : Wordless (lift x) := by
  intro g r g' hr
  obtain ⟨-, rfl⟩ := lift_eq_ok.mp hr
  exact ⟨rfl, rfl⟩

theorem wordless_alloc : Wordless alloc := by
  intro g r g' hr
  obtain ⟨ra, -, rfl⟩ := alloc_eq_ok.mp hr
  exact ⟨rfl, rfl⟩

theorem wordless_free {q : Reg} : Wordless (free q) := by
  intro g r g' hr
  obtain rfl := free_eq_ok.mp hr
  exact ⟨rfl, rfl⟩

theorem staysInside_free {q : Reg} {m : CodeM α} (h : StaysInside pre m) :
    StaysInside pre (free q >>= fun _ => m) :=
  staysInside_wordless wordless_free fun _ => h

theorem staysInside_alloc {f : Reg → CodeM α} (h : ∀ q, StaysInside pre (f q)) :
    StaysInside pre (alloc >>= f) :=
  staysInside_wordless wordless_alloc h

theorem staysInside_fail_then {e : GoError} {f : β → CodeM α} :
    StaysInside pre (fail e >>= f) := by
  intro g r g' hr
  exact absurd hr (by simp)

theorem staysInside_ite {p : Prop} [Decidable p] {m₁ m₂ : CodeM α} (h₁ : StaysInside pre m₁)
    (h₂ : StaysInside pre m₂) : StaysInside pre (if p then m₁ else m₂) := by
  by_cases hp : p
  · simpa only [hp, if_true] using h₁
  · simpa only [hp, if_false] using h₂

end StaysInside

section Operators

variable {heap : Heap} (l r : EvalValue)

theorem and_inside : StaysInside [] (and heap l r) := by
  refine staysInside_wordless wordless_lift fun p => ?_
  obtain ⟨⟨lt, lreg, lnum, lname, lbtf, lmem⟩, ⟨rt, rreg, rnum, rname, rbtf, rmem⟩⟩ := p
  cases lt <;> cases rt <;>
    apply_rules [staysInside_fail, staysInside_fail_then, staysInside_emit, staysInside_free, staysInside_ite,
      staysInside_pure]

theorem andand_inside : StaysInside [] (andand heap l r) := by
  refine staysInside_wordless wordless_lift fun p => ?_
  obtain ⟨⟨lt, lreg, lnum, lname, lbtf, lmem⟩, ⟨rt, rreg, rnum, rname, rbtf, rmem⟩⟩ := p
  cases lt <;> cases rt <;>
    apply_rules [staysInside_fail, staysInside_fail_then, staysInside_emit, staysInside_free, staysInside_ite,
      staysInside_pure]

theorem oror_inside : StaysInside [] (oror heap l r) := by
  refine staysInside_wordless wordless_lift fun p => ?_
  obtain ⟨⟨lt, lreg, lnum, lname, lbtf, lmem⟩, ⟨rt, rreg, rnum, rname, rbtf, rmem⟩⟩ := p
  cases lt <;> cases rt <;>
    apply_rules [staysInside_fail, staysInside_fail_then, staysInside_emit, staysInside_free, staysInside_ite,
      staysInside_pure]

theorem mul_inside : StaysInside [] (mul heap l r) := by
  refine staysInside_wordless wordless_lift fun p => ?_
  obtain ⟨⟨lt, lreg, lnum, lname, lbtf, lmem⟩, ⟨rt, rreg, rnum, rname, rbtf, rmem⟩⟩ := p
  cases lt <;> cases rt <;>
    apply_rules [staysInside_fail, staysInside_fail_then, staysInside_emit, staysInside_free, staysInside_ite,
      staysInside_pure]

theorem orLike_inside (fold : Word → Word → Word) (op : AluOp) :
    StaysInside [] (orLike heap fold op l r) := by
  refine staysInside_wordless wordless_lift fun p => ?_
  obtain ⟨⟨lt, lreg, lnum, lname, lbtf, lmem⟩, ⟨rt, rreg, rnum, rname, rbtf, rmem⟩⟩ := p
  cases lt <;> cases rt <;>
    apply_rules [staysInside_fail, staysInside_fail_then, staysInside_emit, staysInside_free, staysInside_ite,
      staysInside_pure]

theorem compare_inside (fold : Word → Word → Bool) (inverse : JumpOp) :
    StaysInside [] (compare heap fold inverse l r) := by
  refine staysInside_wordless wordless_lift fun p => ?_
  obtain ⟨⟨lt, lreg, lnum, lname, lbtf, lmem⟩, ⟨rt, rreg, rnum, rname, rbtf, rmem⟩⟩ := p
  cases lt <;> cases rt <;>
    apply_rules [staysInside_fail, staysInside_fail_then, staysInside_emit, staysInside_free, staysInside_ite,
      staysInside_pure]

theorem div_inside : StaysInside [] (div heap l r) := by
  refine staysInside_wordless wordless_lift fun p => staysInside_ite staysInside_fail_then ?_
  obtain ⟨⟨lt, lreg, lnum, lname, lbtf, lmem⟩, ⟨rt, rreg, rnum, rname, rbtf, rmem⟩⟩ := p
  cases lt <;> cases rt
  case num.regBtf =>
    refine staysInside_alloc fun reg => ?_
    apply_rules [staysInside_fail, staysInside_fail_then, staysInside_emit, staysInside_free, staysInside_ite,
      staysInside_pure]
  all_goals
    apply_rules [staysInside_fail, staysInside_fail_then, staysInside_emit, staysInside_free, staysInside_ite,
      staysInside_pure]

theorem mod_inside : StaysInside [] (mod heap l r) := by
  refine staysInside_wordless wordless_lift fun p => staysInside_ite staysInside_fail_then ?_
  obtain ⟨⟨lt, lreg, lnum, lname, lbtf, lmem⟩, ⟨rt, rreg, rnum, rname, rbtf, rmem⟩⟩ := p
  cases lt <;> cases rt
  case num.regBtf =>
    refine staysInside_ite (staysInside_free (staysInside_pure rfl)) (staysInside_alloc fun reg => ?_)
    apply_rules [staysInside_fail, staysInside_fail_then, staysInside_emit, staysInside_free, staysInside_ite,
      staysInside_pure]
  all_goals
    apply_rules [staysInside_fail, staysInside_fail_then, staysInside_emit, staysInside_free, staysInside_ite,
      staysInside_pure]

theorem lsh_inside : StaysInside [] (lsh heap l r) := by
  refine staysInside_wordless wordless_lift fun p => ?_
  obtain ⟨⟨lt, lreg, lnum, lname, lbtf, lmem⟩, ⟨rt, rreg, rnum, rname, rbtf, rmem⟩⟩ := p
  cases lt <;> cases rt
  case num.num => exact staysInside_wordless wordless_lift fun n => staysInside_pure rfl
  case num.regBtf =>
    refine staysInside_ite (staysInside_free (staysInside_pure rfl)) (staysInside_alloc fun reg => ?_)
    apply_rules [staysInside_fail, staysInside_fail_then, staysInside_emit, staysInside_free, staysInside_ite,
      staysInside_pure]
  all_goals
    apply_rules [staysInside_fail, staysInside_fail_then, staysInside_emit, staysInside_free, staysInside_ite,
      staysInside_pure]

theorem rsh_inside : StaysInside [] (rsh heap l r) := by
  refine staysInside_wordless wordless_lift fun p => ?_
  obtain ⟨⟨lt, lreg, lnum, lname, lbtf, lmem⟩, ⟨rt, rreg, rnum, rname, rbtf, rmem⟩⟩ := p
  cases lt <;> cases rt
  case num.num => exact staysInside_wordless wordless_lift fun n => staysInside_pure rfl
  case num.regBtf =>
    refine staysInside_ite (staysInside_free (staysInside_pure rfl)) (staysInside_alloc fun reg => ?_)
    apply_rules [staysInside_fail, staysInside_fail_then, staysInside_emit, staysInside_free, staysInside_ite,
      staysInside_pure]
  all_goals
    apply_rules [staysInside_fail, staysInside_fail_then, staysInside_emit, staysInside_free, staysInside_ite,
      staysInside_pure]

theorem addConst_inside (num : Word) (v : EvalValue) : StaysInside [] (addConst heap num v) := by
  unfold addConst
  refine staysInside_ite (staysInside_pure rfl) ?_
  rcases v.btf.map underlyingType with _ | t
  · exact staysInside_emit rfl (staysInside_pure rfl)
  cases t <;>
    apply_rules [staysInside_fail, staysInside_fail_then, staysInside_emit, staysInside_free, staysInside_ite,
      staysInside_pure]

theorem add_inside : StaysInside [] (add heap l r) := by
  refine staysInside_wordless wordless_lift fun p => ?_
  obtain ⟨⟨lt, lreg, lnum, lname, lbtf, lmem⟩, ⟨rt, rreg, rnum, rname, rbtf, rmem⟩⟩ := p
  cases lt <;> cases rt
  case num.regBtf | regBtf.num => exact addConst_inside _ _
  all_goals
    apply_rules [staysInside_fail, staysInside_fail_then, staysInside_emit, staysInside_free, staysInside_ite,
      staysInside_pure]

theorem sub_inside : StaysInside [] (sub heap l r) := by
  refine staysInside_wordless wordless_lift fun p => ?_
  obtain ⟨⟨lt, lreg, lnum, lname, lbtf, lmem⟩, ⟨rt, rreg, rnum, rname, rbtf, rmem⟩⟩ := p
  cases lt <;> cases rt
  case regBtf.num =>
    refine staysInside_ite (staysInside_pure rfl) ?_
    rcases lbtf.map underlyingType with _ | t
    · exact staysInside_emit rfl (staysInside_pure rfl)
    cases t <;>
      apply_rules [staysInside_fail, staysInside_fail_then, staysInside_emit, staysInside_free, staysInside_ite,
      staysInside_pure]
  all_goals
    apply_rules [staysInside_fail, staysInside_fail_then, staysInside_emit, staysInside_free, staysInside_ite,
      staysInside_pure]

theorem binary_inside (op : BinOp) : StaysInside [] (binary heap op l r) := by
  cases op with
  | add => exact add_inside l r
  | and => exact and_inside l r
  | andAnd => exact andand_inside l r
  | div => exact div_inside l r
  | eqEq | lt | ltEq | notEq => exact compare_inside l r _ _
  | gt => exact compare_inside l r (fun a b => b.slt a) .le
  | gtEq => exact compare_inside l r (fun a b => b.sle a) .lt
  | lsh => exact lsh_inside l r
  | mod => exact mod_inside l r
  | mul => exact mul_inside l r
  | or | xor => exact orLike_inside l r _ _
  | orOr => exact oror_inside l r
  | rsh => exact rsh_inside l r
  | sub => exact sub_inside l r

theorem minus_inside (v : EvalValue) : StaysInside [] (minus v) := by
  obtain ⟨vt, vreg, vnum, vname, vbtf, vmem⟩ := v
  cases vt <;> apply_rules [staysInside_fail, staysInside_emit, staysInside_pure]

theorem unary_inside (fold : Word → Word) (code : Reg → List Insn) (what : String) (v : EvalValue)
    (hcode : ∀ reg, jumpsInside ((code reg).map (·.op)) ∧ plain (code reg)) :
    StaysInside [] (unary fold code what v) := by
  obtain ⟨vt, vreg, vnum, vname, vbtf, vmem⟩ := v
  cases vt with
  | num => exact staysInside_pure rfl
  | regBtf =>
    refine staysInside_ite (staysInside_free staysInside_fail_then) ?_
    exact staysInside_emit (hcode vreg).2 (staysInside_pure (hcode vreg).1)
  | _ => exact staysInside_fail

theorem wordless_condCheck (v : EvalValue) : Wordless (condCheck v) := by
  intro g u g' h
  obtain ⟨rfl, -⟩ := condCheck_ok h
  exact ⟨rfl, rfl⟩

theorem cond_inside (v : EvalValue) : StaysInside [] (cond v l r) := by
  refine staysInside_wordless (wordless_condCheck v) fun _ => ?_
  refine staysInside_wordless (wordless_condCheck l) fun _ => ?_
  refine staysInside_wordless (wordless_condCheck r) fun _ => ?_
  obtain ⟨vt, vreg, vnum, vname, vbtf, vmem⟩ := v
  refine staysInside_ite (staysInside_pure rfl) (staysInside_emit rfl ?_)
  -- each arm is one instruction, behind which a register is freed or not
  by_cases hl : l.typ = .num <;> by_cases hr : r.typ = .num <;>
    simp only [condArm, hl, hr, if_true, if_false, bind_assoc] <;>
    apply_rules [staysInside_emit, staysInside_free, staysInside_pure]

end Operators

/-! ## Code with operators in it -/

/-- Code put together from the codes of operators and pieces without
relative jumps. -/
inductive Assembled (heap : Heap) : List Op → Prop
  | straight {code : List Op} (h : ∀ op ∈ code, op.displacement? = none) : Assembled heap code
  | operator {code : List Op} (h : OperatorCode heap code) : Assembled heap code
  | append {a b : List Op} (ha : Assembled heap a) (hb : Assembled heap b) : Assembled heap (a ++ b)

theorem staysInside_of_operator {heap : Heap} {m : CodeM EvalValue} (h : IsOperator heap m) :
    StaysInside [] m := by
  cases h with
  | binary op l r => exact binary_inside l r op
  | minus v => exact minus_inside v
  | not v => exact unary_inside _ _ _ v fun reg => ⟨rfl, rfl⟩
  | twid v => exact unary_inside _ _ _ v fun reg => ⟨rfl, rfl⟩
  | preDec v => exact unary_inside _ _ _ v fun reg => ⟨rfl, rfl⟩
  | preInc v => exact unary_inside _ _ _ v fun reg => ⟨rfl, rfl⟩
  | cond v l r => exact cond_inside l r v

/-- **The jumps of an operator** land inside its own code or right behind
it. -/
theorem operator_inside {heap : Heap} {own : List Op} (h : OperatorCode heap own) :
    JumpsInside own := by
  obtain ⟨m, g, v, g', insns, hm, hok, hins, rfl⟩ := h
  obtain ⟨insns', hins', hclosed, -⟩ := staysInside_of_operator hm g v g' hok
  have hsame : insns' = insns := List.append_cancel_left (hins'.symm.trans hins)
  rw [← jumpsInside_iff, ← hsame]
  exact hclosed

theorem Assembled.inside {heap : Heap} {code : List Op} (h : Assembled heap code) :
    JumpsInside code := by
  induction h with
  | straight h => exact .of_none h
  | operator h => exact operator_inside h
  | append _ _ iha ihb => exact iha.append ihb

end Bpfsnoop.CC
