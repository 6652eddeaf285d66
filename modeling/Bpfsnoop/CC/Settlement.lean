/-
Bpfsnoop.CC.Settlement — which registers an operator gives back.

An operator function consumes the registers of its operands and produces
that of its result; every other register stays as it is. `Settles` says
this of a step that holds the registers `held`, and has a rule for each
way to build a step. It holds of every operator but the conditional one.
-/
import Bpfsnoop.CC.OperatorTheorems
import Bpfsnoop.CC.EvalSemantics

namespace Bpfsnoop.CC

open Ebpf Btf Reg

/-! ## Settling a step -/

/-- A register among those given out that is in use. -/
def Gen.Out (g : Gen) (q : Reg) : Prop := g.regalloc.registers q = true ∧ q ≤ R8

/-- Of the registers it holds, the step keeps that of its result alone.
The result is a constant or a register. -/
def Settles (held : Reg → Prop) (m : CodeM EvalValue) : Prop :=
  ∀ g v g', m g = .ok (v, g') → (∀ q, held q → g.Out q) → v.Resolved ∧ ∀ q,
    (g'.regalloc.registers q = true ↔ (g.regalloc.registers q = true ∧ ¬ held q) ∨ v.Holds q)

theorem free_registers (ra : RegisterAllocator) {r : Reg} (hr : r ≤ R8) (q : Reg) :
    (ra.free r).registers q = true ↔ ra.registers q = true ∧ q ≠ r := by
  by_cases hq : q = r
  · subst hq
    have hle : q ≤ R9 := hr.trans (by decide)
    simp [RegisterAllocator.free, hle]
  · simp [free_registers_of_ne hq, hq]

section Rules

variable {held : Reg → Prop} {m : CodeM EvalValue}

theorem settles_pure {v : EvalValue} (hv : v.Resolved) (h : ∀ q, held q ↔ v.Holds q) :
    Settles held (pure v) := by
  intro g v' g' hok howned
  obtain ⟨rfl, rfl⟩ := pure_eq_ok.mp hok
  refine ⟨hv, fun q => ?_⟩
  rw [← h q]
  constructor
  · intro hq
    exact or_iff_not_imp_right.mpr fun hn => ⟨hq, hn⟩
  · rintro (hq | hq)
    · exact hq.1
    · exact (howned q hq).1

theorem settles_fail {e : GoError} : Settles held (fail e) := by
  intro g v g' hok
  exact absurd hok (by simp)

theorem settles_fail_then {β : Type} {e : GoError} {f : β → CodeM EvalValue} :
    Settles held (fail e >>= f) := by
  intro g v g' hok
  exact absurd hok (by simp)

theorem settles_emit {is : List Insn} (h : Settles held m) : Settles held (emit is >>= fun _ => m) := by
  intro g v g' hok
  obtain ⟨_, g₁, he, hm⟩ := bind_eq_ok.mp hok
  obtain rfl := emit_eq_ok.mp he
  intro howned
  exact h { g with insns := g.insns ++ is } v g' hm howned

theorem settles_lift {α : Type} {x : Except GoError α} {f : α → CodeM EvalValue}
    (h : ∀ a, x = .ok a → Settles held (f a)) : Settles held (lift x >>= f) := by
  intro g v g' hok
  obtain ⟨a, g₁, hlift, hf⟩ := bind_eq_ok.mp hok
  obtain ⟨hx, rfl⟩ := lift_eq_ok.mp hlift
  exact h a hx g v g' hf

theorem settles_ite {p : Prop} [Decidable p] {m₁ m₂ : CodeM EvalValue} (h₁ : Settles held m₁)
    (h₂ : Settles held m₂) : Settles held (if p then m₁ else m₂) := by
  by_cases hp : p
  · simpa only [hp, if_true] using h₁
  · simpa only [hp, if_false] using h₂

/-- A register that is held is given back. -/
theorem settles_free {r : Reg} (hr : held r) (h : Settles (fun q => held q ∧ q ≠ r) m) :
    Settles held (free r >>= fun _ => m) := by
  intro g v g' hok howned
  obtain ⟨_, g₁, hf, hm⟩ := bind_eq_ok.mp hok
  obtain rfl := free_eq_ok.mp hf
  have hfree := free_registers g.regalloc (howned r hr).2
  obtain ⟨hv, hrest⟩ := h _ v g' hm fun q hq =>
    ⟨(hfree q).mpr ⟨(howned q hq.1).1, hq.2⟩, (howned q hq.1).2⟩
  refine ⟨hv, fun q => ?_⟩
  rw [hrest, hfree]
  by_cases hqr : q = r
  · subst hqr
    simp [hr]
  · simp [hqr]

/-- A register is taken, none of those held. -/
theorem settles_alloc {f : Reg → CodeM EvalValue}
    (h : ∀ r, ¬ held r → Settles (fun q => held q ∨ q = r) (f r)) : Settles held (alloc >>= f) := by
  intro g v g' hok howned
  obtain ⟨r, g₁, ha, hm⟩ := bind_eq_ok.mp hok
  obtain ⟨ra, halloc, rfl⟩ := alloc_eq_ok.mp ha
  obtain ⟨hunused, hle, rfl⟩ := RegisterAllocator.alloc_spec halloc
  have hr : ¬ held r := by
    intro hr
    rw [(howned r hr).1] at hunused
    exact absurd hunused (by decide)
  obtain ⟨hv, hrest⟩ := h r hr _ v g' hm fun q hq => by
    rcases hq with hq | rfl
    · have hqr : q ≠ r := fun heq => hr (heq ▸ hq)
      exact ⟨by simpa [hqr] using (howned q hq).1, (howned q hq).2⟩
    · exact ⟨by simp, hle⟩
  refine ⟨hv, fun q => ?_⟩
  rw [hrest]
  by_cases hqr : q = r
  · subst hqr
    simp [hunused]
  · simp [hqr]

theorem Settles.congr {held' : Reg → Prop} (hiff : ∀ q, held q ↔ held' q) (h : Settles held m) :
    Settles held' m := by
  have heq : held = held' := funext fun q => propext (hiff q)
  rwa [← heq]

end Rules

/-! ## The operators -/

/-- The registers of two operands. -/
def heldBy (l r : EvalValue) (q : Reg) : Prop := l.Holds q ∨ r.Holds q

section Operators

variable {heap : Heap} {l r : EvalValue}

/-- Every binary operator begins with `preHandleBinaryOp`. -/
theorem settles_binary {f : EvalValue × EvalValue → CodeM EvalValue} (hlr : Apart l r)
    (hf : ∀ l' r', Apart l' r' → Settles (heldBy l' r') (f (l', r'))) :
    Settles (heldBy l r) (lift (preHandleBinaryOp heap l r) >>= f) := by
  refine settles_lift fun p hpre => ?_
  obtain ⟨l', r'⟩ := p
  obtain ⟨-, hl, hr⟩ := preHandle_spec hpre
  refine (hf l' r' (hlr.of_holds hl hr)).congr fun q => ?_
  simp only [heldBy, hl, hr]

theorem and_settles (hlr : Apart l r) : Settles (heldBy l r) (and heap l r) := by
  refine settles_binary hlr fun l r hlr => ?_
  obtain ⟨lt, lreg, lnum, lname, lbtf, lmem⟩ := l
  obtain ⟨rt, rreg, rnum, rname, rbtf, rmem⟩ := r
  cases lt <;> cases rt <;>
    apply_rules [settles_fail, settles_fail_then, settles_emit, settles_free, settles_ite,
      settles_pure]
  all_goals grind [heldBy, EvalValue.Holds, EvalValue.Resolved, Apart]

theorem andand_settles (hlr : Apart l r) : Settles (heldBy l r) (andand heap l r) := by
  refine settles_binary hlr fun l r hlr => ?_
  obtain ⟨lt, lreg, lnum, lname, lbtf, lmem⟩ := l
  obtain ⟨rt, rreg, rnum, rname, rbtf, rmem⟩ := r
  cases lt <;> cases rt <;>
    apply_rules [settles_fail, settles_fail_then, settles_emit, settles_free, settles_ite,
      settles_pure]
  all_goals grind [heldBy, EvalValue.Holds, EvalValue.Resolved, Apart]

theorem oror_settles (hlr : Apart l r) : Settles (heldBy l r) (oror heap l r) := by
  refine settles_binary hlr fun l r hlr => ?_
  obtain ⟨lt, lreg, lnum, lname, lbtf, lmem⟩ := l
  obtain ⟨rt, rreg, rnum, rname, rbtf, rmem⟩ := r
  cases lt <;> cases rt <;>
    apply_rules [settles_fail, settles_fail_then, settles_emit, settles_free, settles_ite,
      settles_pure]
  all_goals grind [heldBy, EvalValue.Holds, EvalValue.Resolved, Apart]

theorem mul_settles (hlr : Apart l r) : Settles (heldBy l r) (mul heap l r) := by
  refine settles_binary hlr fun l r hlr => ?_
  obtain ⟨lt, lreg, lnum, lname, lbtf, lmem⟩ := l
  obtain ⟨rt, rreg, rnum, rname, rbtf, rmem⟩ := r
  cases lt <;> cases rt <;>
    apply_rules [settles_fail, settles_fail_then, settles_emit, settles_free, settles_ite,
      settles_pure]
  all_goals grind [heldBy, EvalValue.Holds, EvalValue.Resolved, Apart]

theorem orLike_settles (fold : Word → Word → Word) (op : AluOp) (hlr : Apart l r) : Settles (heldBy l r) (orLike heap fold op l r) := by
  refine settles_binary hlr fun l r hlr => ?_
  obtain ⟨lt, lreg, lnum, lname, lbtf, lmem⟩ := l
  obtain ⟨rt, rreg, rnum, rname, rbtf, rmem⟩ := r
  cases lt <;> cases rt <;>
    apply_rules [settles_fail, settles_fail_then, settles_emit, settles_free, settles_ite,
      settles_pure]
  all_goals grind [heldBy, EvalValue.Holds, EvalValue.Resolved, Apart]

theorem compare_settles (fold : Word → Word → Bool) (inverse : JumpOp) (hlr : Apart l r) : Settles (heldBy l r) (compare heap fold inverse l r) := by
  refine settles_binary hlr fun l r hlr => ?_
  obtain ⟨lt, lreg, lnum, lname, lbtf, lmem⟩ := l
  obtain ⟨rt, rreg, rnum, rname, rbtf, rmem⟩ := r
  cases lt <;> cases rt <;>
    apply_rules [settles_fail, settles_fail_then, settles_emit, settles_free, settles_ite,
      settles_pure]
  all_goals grind [heldBy, EvalValue.Holds, EvalValue.Resolved, Apart]

/-- A constant applied to a register: the result has a register of its
own, and that of the operand is given back. -/
theorem settles_replace {reg : Reg} (hl : l.typ ≠ .regBtf) (hr : r.typ = .regBtf)
    (hreg : ¬ heldBy l r reg) :
    Settles (fun q => heldBy l r q ∨ q = reg)
      (free r.reg >>= fun _ => pure { typ := .regBtf, reg := reg, btf := r.btf }) := by
  refine settles_free (Or.inl (Or.inr ⟨hr, rfl⟩)) (settles_pure (by simp [EvalValue.Resolved]) fun q => ?_)
  grind [heldBy, EvalValue.Holds]

theorem div_settles (hlr : Apart l r) : Settles (heldBy l r) (div heap l r) := by
  refine settles_binary hlr fun l r hlr => settles_ite settles_fail_then ?_
  obtain ⟨lt, lreg, lnum, lname, lbtf, lmem⟩ := l
  obtain ⟨rt, rreg, rnum, rname, rbtf, rmem⟩ := r
  cases lt <;> cases rt
  case num.regBtf =>
    refine settles_alloc fun reg hreg => ?_
    apply_rules [settles_emit]
    exact settles_replace (by simp) rfl hreg
  all_goals
    apply_rules [settles_fail, settles_fail_then, settles_emit, settles_free, settles_ite,
      settles_pure]
  all_goals grind [heldBy, EvalValue.Holds, EvalValue.Resolved, Apart]

theorem mod_settles (hlr : Apart l r) : Settles (heldBy l r) (mod heap l r) := by
  refine settles_binary hlr fun l r hlr => settles_ite settles_fail_then ?_
  obtain ⟨lt, lreg, lnum, lname, lbtf, lmem⟩ := l
  obtain ⟨rt, rreg, rnum, rname, rbtf, rmem⟩ := r
  cases lt <;> cases rt
  case num.regBtf =>
    refine settles_ite ?_ (settles_alloc fun reg hreg => ?_)
    · refine settles_free (Or.inr ⟨rfl, rfl⟩) (settles_pure (by simp [EvalValue.Resolved]) fun q => ?_)
      grind [heldBy, EvalValue.Holds]
    · apply_rules [settles_emit]
      exact settles_replace (by simp) rfl hreg
  all_goals
    apply_rules [settles_fail, settles_fail_then, settles_emit, settles_free, settles_ite,
      settles_pure]
  all_goals grind [heldBy, EvalValue.Holds, EvalValue.Resolved, Apart]

theorem lsh_settles (hlr : Apart l r) : Settles (heldBy l r) (lsh heap l r) := by
  refine settles_binary hlr fun l r hlr => ?_
  obtain ⟨lt, lreg, lnum, lname, lbtf, lmem⟩ := l
  obtain ⟨rt, rreg, rnum, rname, rbtf, rmem⟩ := r
  cases lt <;> cases rt
  case num.num =>
    refine settles_lift fun n _ => settles_pure (Or.inl rfl) fun q => ?_
    grind [heldBy, EvalValue.Holds]
  case num.regBtf =>
    refine settles_ite ?_ (settles_alloc fun reg hreg => ?_)
    · refine settles_free (Or.inr ⟨rfl, rfl⟩) (settles_pure (by simp [EvalValue.Resolved]) fun q => ?_)
      grind [heldBy, EvalValue.Holds]
    · apply_rules [settles_emit]
      exact settles_replace (by simp) rfl hreg
  all_goals
    apply_rules [settles_fail, settles_fail_then, settles_emit, settles_free, settles_ite,
      settles_pure]
  all_goals grind [heldBy, EvalValue.Holds, EvalValue.Resolved, Apart]

theorem rsh_settles (hlr : Apart l r) : Settles (heldBy l r) (rsh heap l r) := by
  refine settles_binary hlr fun l r hlr => ?_
  obtain ⟨lt, lreg, lnum, lname, lbtf, lmem⟩ := l
  obtain ⟨rt, rreg, rnum, rname, rbtf, rmem⟩ := r
  cases lt <;> cases rt
  case num.num =>
    refine settles_lift fun n _ => settles_pure (Or.inl rfl) fun q => ?_
    grind [heldBy, EvalValue.Holds]
  case num.regBtf =>
    refine settles_ite ?_ (settles_alloc fun reg hreg => ?_)
    · refine settles_free (Or.inr ⟨rfl, rfl⟩) (settles_pure (by simp [EvalValue.Resolved]) fun q => ?_)
      grind [heldBy, EvalValue.Holds]
    · apply_rules [settles_emit]
      exact settles_replace (by simp) rfl hreg
  all_goals
    apply_rules [settles_fail, settles_fail_then, settles_emit, settles_free, settles_ite,
      settles_pure]
  all_goals grind [heldBy, EvalValue.Holds, EvalValue.Resolved, Apart]

/-- A register and a constant: the register stays. -/
theorem addConst_settles (num : Word) (v : EvalValue) (hv : v.typ = .regBtf) :
    Settles v.Holds (addConst heap num v) := by
  unfold addConst
  have hpure : Settles v.Holds (pure v) := settles_pure (Or.inr hv) fun _ => Iff.rfl
  refine settles_ite hpure ?_
  have hfree : v.Holds v.reg := ⟨hv, rfl⟩
  rcases v.btf.map underlyingType with _ | t
  · exact settles_emit hpure
  cases t <;>
    apply_rules [settles_fail, settles_fail_then, settles_emit, settles_free, settles_ite]

theorem add_settles (hlr : Apart l r) : Settles (heldBy l r) (add heap l r) := by
  refine settles_binary hlr fun l r hlr => ?_
  obtain ⟨lt, lreg, lnum, lname, lbtf, lmem⟩ := l
  obtain ⟨rt, rreg, rnum, rname, rbtf, rmem⟩ := r
  cases lt <;> cases rt
  case num.regBtf =>
    refine (addConst_settles lnum ⟨.regBtf, rreg, rnum, rname, rbtf, rmem⟩ rfl).congr fun q => ?_
    simp [heldBy, EvalValue.Holds]
  case regBtf.num =>
    refine (addConst_settles rnum ⟨.regBtf, lreg, lnum, lname, lbtf, lmem⟩ rfl).congr fun q => ?_
    simp [heldBy, EvalValue.Holds]
  all_goals
    apply_rules [settles_fail, settles_fail_then, settles_emit, settles_free, settles_ite,
      settles_pure]
  all_goals grind [heldBy, EvalValue.Holds, EvalValue.Resolved, Apart]

theorem sub_settles (hlr : Apart l r) : Settles (heldBy l r) (sub heap l r) := by
  refine settles_binary hlr fun l r hlr => ?_
  obtain ⟨lt, lreg, lnum, lname, lbtf, lmem⟩ := l
  obtain ⟨rt, rreg, rnum, rname, rbtf, rmem⟩ := r
  cases lt <;> cases rt
  case regBtf.num =>
    have hone : ∀ q, heldBy ⟨.regBtf, lreg, lnum, lname, lbtf, lmem⟩
        ⟨.num, rreg, rnum, rname, rbtf, rmem⟩ q ↔
          EvalValue.Holds ⟨.regBtf, lreg, lnum, lname, lbtf, lmem⟩ q := by
      intro q
      simp [heldBy, EvalValue.Holds]
    have hpure := settles_pure (Or.inr rfl) hone
    refine settles_ite hpure ?_
    rcases lbtf.map underlyingType with _ | t
    · exact settles_emit hpure
    cases t <;>
      apply_rules [settles_fail, settles_fail_then, settles_emit, settles_free, settles_ite]
  all_goals
    apply_rules [settles_fail, settles_fail_then, settles_emit, settles_free, settles_ite,
      settles_pure]
  all_goals grind [heldBy, EvalValue.Holds, EvalValue.Resolved, Apart]

theorem binary_settles (op : BinOp) (hlr : Apart l r) : Settles (heldBy l r) (binary heap op l r) := by
  cases op with
  | add => exact add_settles hlr
  | and => exact and_settles hlr
  | andAnd => exact andand_settles hlr
  | div => exact div_settles hlr
  | eqEq => exact compare_settles _ _ hlr
  | gt => exact compare_settles (fun a b => b.slt a) .le hlr
  | gtEq => exact compare_settles (fun a b => b.sle a) .lt hlr
  | lsh => exact lsh_settles hlr
  | lt => exact compare_settles _ _ hlr
  | ltEq => exact compare_settles _ _ hlr
  | mod => exact mod_settles hlr
  | mul => exact mul_settles hlr
  | notEq => exact compare_settles _ _ hlr
  | or => exact orLike_settles _ _ hlr
  | orOr => exact oror_settles hlr
  | rsh => exact rsh_settles hlr
  | sub => exact sub_settles hlr
  | xor => exact orLike_settles _ _ hlr

theorem minus_settles (v : EvalValue) : Settles v.Holds (minus v) := by
  obtain ⟨vt, vreg, vnum, vname, vbtf, vmem⟩ := v
  cases vt <;> apply_rules [settles_fail, settles_emit, settles_pure]
  all_goals grind [EvalValue.Holds, EvalValue.Resolved]

theorem unary_settles (fold : Word → Word) (code : Reg → List Insn) (what : String) (v : EvalValue) :
    Settles v.Holds (unary fold code what v) := by
  obtain ⟨vt, vreg, vnum, vname, vbtf, vmem⟩ := v
  cases vt <;>
    apply_rules [settles_fail, settles_fail_then, settles_emit, settles_free, settles_ite,
      settles_pure]
  all_goals grind [EvalValue.Holds, EvalValue.Resolved]

theorem not_settles (v : EvalValue) : Settles v.Holds (not v) := unary_settles _ _ _ v

theorem twid_settles (v : EvalValue) : Settles v.Holds (twid v) := unary_settles _ _ _ v

theorem preDec_settles (v : EvalValue) : Settles v.Holds (preDec v) := unary_settles _ _ _ v

theorem preInc_settles (v : EvalValue) : Settles v.Holds (preInc v) := unary_settles _ _ _ v

end Operators

end Bpfsnoop.CC
