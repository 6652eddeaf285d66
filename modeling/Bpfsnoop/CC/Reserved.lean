/-
Bpfsnoop.CC.Reserved — the code of an expression leaves the reserved
registers and the record alone.

Where `r8` is in use from the start, nothing is computed in it or above:
the allocator gives out `r0` to `r8`, and a register is given back only
where an operand holds it. So an output argument finds the arguments in
`r9` and the record in `r8` whatever its expression does, also behind an
operand that no name stands for (`eval_reserves`).
-/
import Bpfsnoop.CC.ControlFlow
import Bpfsnoop.CC.ReadTheorems
import Bpfsnoop.CC.EvalTheorems
import Bpfsnoop.Ebpf.Keeps

namespace Bpfsnoop.CC

open Ebpf Btf Reg

/-! ## Operators compute in the registers below -/

/-- The step keeps `r8` in use, emits code below it and returns an operand
below it. -/
def Low (m : CodeM EvalValue) : Prop :=
  ∀ g v g', m g = .ok (v, g') → g.regalloc.registers R8 = true →
    g'.regalloc.registers R8 = true ∧ v.reg < R8 ∧
      ∃ own, g'.insns = g.insns ++ own ∧ ∀ i ∈ own, i.op.below R8 = true

section Rules

variable {α : Type} {m : CodeM EvalValue}

theorem low_pure {v : EvalValue} (hv : v.reg < R8) : Low (pure v) := by
  intro g v' g' h hused
  obtain ⟨rfl, rfl⟩ := pure_eq_ok.mp h
  exact ⟨hused, hv, [], by simp, by simp⟩

theorem low_fail {e : GoError} : Low (fail e) := by
  intro g v g' h
  exact absurd h (by simp)

theorem low_fail_then {e : GoError} {f : α → CodeM EvalValue} : Low (fail e >>= f) := by
  intro g v g' h
  exact absurd h (by simp)

theorem low_lift {x : Except GoError α} {f : α → CodeM EvalValue}
    (h : ∀ a, x = .ok a → Low (f a)) : Low (lift x >>= f) := by
  intro g v g' hok
  obtain ⟨a, g₁, hlift, hf⟩ := bind_eq_ok.mp hok
  obtain ⟨hx, rfl⟩ := lift_eq_ok.mp hlift
  exact h a hx g v g' hf

theorem low_emit {is : List Insn} (his : ∀ i ∈ is, i.op.below R8 = true) (h : Low m) :
    Low (emit is >>= fun _ => m) := by
  intro g v g' hok hused
  obtain ⟨_, g₁, he, hm⟩ := bind_eq_ok.mp hok
  obtain rfl := emit_eq_ok.mp he
  obtain ⟨hused', hv, own, hins, hown⟩ := h _ v g' hm hused
  refine ⟨hused', hv, is ++ own, by simpa using hins, fun i hi => ?_⟩
  rcases List.mem_append.mp hi with hi | hi
  · exact his i hi
  · exact hown i hi

theorem low_free {r : Reg} (hr : r < R8) (h : Low m) : Low (free r >>= fun _ => m) := by
  intro g v g' hok hused
  obtain ⟨_, g₁, hf, hm⟩ := bind_eq_ok.mp hok
  obtain rfl := free_eq_ok.mp hf
  have hrest := h _ v g' hm
  rw [free_registers_of_ne (Ne.symm (ne_of_lt hr))] at hrest
  exact hrest hused

theorem low_alloc {f : Reg → CodeM EvalValue} (h : ∀ r, r < R8 → Low (f r)) :
    Low (alloc >>= f) := by
  intro g v g' hok hused
  obtain ⟨r, g₁, ha, hm⟩ := bind_eq_ok.mp hok
  obtain ⟨ra, halloc, rfl⟩ := alloc_eq_ok.mp ha
  obtain ⟨hunused, hle, rfl⟩ := RegisterAllocator.alloc_spec halloc
  have hne : r ≠ R8 := by
    rintro rfl
    rw [hused] at hunused
    cases hunused
  have hrest := h r (lt_of_le_of_ne hle hne) _ v g' hm
  exact hrest (by simpa [Ne.symm hne] using hused)

theorem low_ite {p : Prop} [Decidable p] {m₁ m₂ : CodeM EvalValue} (h₁ : Low m₁) (h₂ : Low m₂) :
    Low (if p then m₁ else m₂) := by
  by_cases hp : p
  · simpa only [hp, if_true] using h₁
  · simpa only [hp, if_false] using h₂

end Rules

section Operators

variable {heap : Heap} {l r : EvalValue}

theorem preHandle_reg {l' r' : EvalValue} (h : preHandleBinaryOp heap l r = .ok (l', r')) :
    l'.reg = l.reg ∧ r'.reg = r.reg := by
  unfold preHandleBinaryOp at h
  repeat' split at h
  all_goals simp only [Except.ok.injEq, Prod.mk.injEq, reduceCtorEq] at h
  all_goals
    obtain ⟨rfl, rfl⟩ := h
    exact ⟨rfl, rfl⟩

/-- Every binary operator begins with `preHandleBinaryOp`. -/
theorem low_binary {f : EvalValue × EvalValue → CodeM EvalValue} (hl : l.reg < R8) (hr : r.reg < R8)
    (hf : ∀ l' r' : EvalValue, l'.reg < R8 → r'.reg < R8 → Low (f (l', r'))) :
    Low (lift (preHandleBinaryOp heap l r) >>= f) := by
  refine low_lift fun p hpre => ?_
  obtain ⟨l', r'⟩ := p
  obtain ⟨hl', hr'⟩ := preHandle_reg hpre
  exact hf l' r' (hl' ▸ hl) (hr' ▸ hr)

theorem and_low (hl : l.reg < R8) (hr : r.reg < R8) : Low (and heap l r) := by
  refine low_binary hl hr fun l r hl hr => ?_
  obtain ⟨lt, lreg, lnum, lname, lbtf, lmem⟩ := l
  obtain ⟨rt, rreg, rnum, rname, rbtf, rmem⟩ := r
  cases lt <;> cases rt <;>
    apply_rules [low_fail, low_fail_then, low_emit, low_free, low_ite, low_pure]
  all_goals simp_all [Op.below]

theorem andand_low (hl : l.reg < R8) (hr : r.reg < R8) : Low (andand heap l r) := by
  refine low_binary hl hr fun l r hl hr => ?_
  obtain ⟨lt, lreg, lnum, lname, lbtf, lmem⟩ := l
  obtain ⟨rt, rreg, rnum, rname, rbtf, rmem⟩ := r
  cases lt <;> cases rt <;>
    apply_rules [low_fail, low_fail_then, low_emit, low_free, low_ite, low_pure]
  all_goals simp_all [Op.below, reg2bool]

theorem oror_low (hl : l.reg < R8) (hr : r.reg < R8) : Low (oror heap l r) := by
  refine low_binary hl hr fun l r hl hr => ?_
  obtain ⟨lt, lreg, lnum, lname, lbtf, lmem⟩ := l
  obtain ⟨rt, rreg, rnum, rname, rbtf, rmem⟩ := r
  cases lt <;> cases rt <;>
    apply_rules [low_fail, low_fail_then, low_emit, low_free, low_ite, low_pure]
  all_goals simp_all [Op.below, reg2bool]

theorem mul_low (hl : l.reg < R8) (hr : r.reg < R8) : Low (mul heap l r) := by
  refine low_binary hl hr fun l r hl hr => ?_
  obtain ⟨lt, lreg, lnum, lname, lbtf, lmem⟩ := l
  obtain ⟨rt, rreg, rnum, rname, rbtf, rmem⟩ := r
  cases lt <;> cases rt <;>
    apply_rules [low_fail, low_fail_then, low_emit, low_free, low_ite, low_pure]
  all_goals simp_all [Op.below]

theorem orLike_low (fold : Word → Word → Word) (op : AluOp) (hl : l.reg < R8) (hr : r.reg < R8) :
    Low (orLike heap fold op l r) := by
  refine low_binary hl hr fun l r hl hr => ?_
  obtain ⟨lt, lreg, lnum, lname, lbtf, lmem⟩ := l
  obtain ⟨rt, rreg, rnum, rname, rbtf, rmem⟩ := r
  cases lt <;> cases rt <;>
    apply_rules [low_fail, low_fail_then, low_emit, low_free, low_ite, low_pure]
  all_goals simp_all [Op.below]

theorem compare_low (fold : Word → Word → Bool) (inverse : JumpOp) (hl : l.reg < R8)
    (hr : r.reg < R8) : Low (compare heap fold inverse l r) := by
  refine low_binary hl hr fun l r hl hr => ?_
  obtain ⟨lt, lreg, lnum, lname, lbtf, lmem⟩ := l
  obtain ⟨rt, rreg, rnum, rname, rbtf, rmem⟩ := r
  cases lt <;> cases rt <;>
    apply_rules [low_fail, low_fail_then, low_emit, low_free, low_ite, low_pure]
  all_goals simp_all [Op.below, reg2bool]

theorem div_low (hl : l.reg < R8) (hr : r.reg < R8) : Low (div heap l r) := by
  refine low_binary hl hr fun l r hl hr => low_ite low_fail_then ?_
  obtain ⟨lt, lreg, lnum, lname, lbtf, lmem⟩ := l
  obtain ⟨rt, rreg, rnum, rname, rbtf, rmem⟩ := r
  cases lt <;> cases rt
  case num.regBtf =>
    refine low_alloc fun reg hreg => ?_
    apply_rules [low_emit, low_free, low_pure]
    all_goals simp_all [Op.below]
  all_goals
    apply_rules [low_fail, low_fail_then, low_emit, low_free, low_ite, low_pure]
    all_goals simp_all [Op.below]

/-- The arms of `mod` and of the shifts on a constant and a register. -/
theorem replace_low {op : AluOp} {n : Word} (hl : l.reg < R8) (hr : r.reg < R8) :
    Low (if l.num = 0 then do free r.reg; return l
      else do
        let reg ← alloc
        emit [Asm.movImm reg n]
        emit [Op.alu op reg (.reg r.reg)]
        free r.reg
        return { typ := .regBtf, reg := reg, btf := r.btf }) := by
  refine low_ite (low_free hr (low_pure hl)) (low_alloc fun reg hreg => ?_)
  apply_rules [low_emit, low_free, low_pure]
  all_goals simp_all [Op.below]

theorem mod_low (hl : l.reg < R8) (hr : r.reg < R8) : Low (mod heap l r) := by
  refine low_binary hl hr fun l r hl hr => low_ite low_fail_then ?_
  obtain ⟨lt, lreg, lnum, lname, lbtf, lmem⟩ := l
  obtain ⟨rt, rreg, rnum, rname, rbtf, rmem⟩ := r
  cases lt <;> cases rt
  case num.regBtf => exact replace_low hl hr
  all_goals
    apply_rules [low_fail, low_fail_then, low_emit, low_free, low_ite, low_pure]
    all_goals simp_all [Op.below]

theorem lsh_low (hl : l.reg < R8) (hr : r.reg < R8) : Low (lsh heap l r) := by
  refine low_binary hl hr fun l r hl hr => ?_
  obtain ⟨lt, lreg, lnum, lname, lbtf, lmem⟩ := l
  obtain ⟨rt, rreg, rnum, rname, rbtf, rmem⟩ := r
  cases lt <;> cases rt
  case num.num => exact low_lift fun n _ => low_pure hl
  case num.regBtf => exact replace_low hl hr
  all_goals
    apply_rules [low_fail, low_fail_then, low_emit, low_free, low_ite, low_pure]
    all_goals simp_all [Op.below]

theorem rsh_low (hl : l.reg < R8) (hr : r.reg < R8) : Low (rsh heap l r) := by
  refine low_binary hl hr fun l r hl hr => ?_
  obtain ⟨lt, lreg, lnum, lname, lbtf, lmem⟩ := l
  obtain ⟨rt, rreg, rnum, rname, rbtf, rmem⟩ := r
  cases lt <;> cases rt
  case num.num => exact low_lift fun n _ => low_pure hl
  case num.regBtf => exact replace_low hl hr
  all_goals
    apply_rules [low_fail, low_fail_then, low_emit, low_free, low_ite, low_pure]
    all_goals simp_all [Op.below]

theorem addConst_low (num : Word) {v : EvalValue} (hv : v.reg < R8) : Low (addConst heap num v) := by
  unfold addConst
  refine low_ite (low_pure hv) ?_
  rcases v.btf.map underlyingType with _ | t
  · exact low_emit (by simpa [Op.below] using hv) (low_pure hv)
  cases t <;> apply_rules [low_fail, low_fail_then, low_emit, low_free, low_ite, low_pure]
  all_goals simpa [Op.below] using hv

theorem add_low (hl : l.reg < R8) (hr : r.reg < R8) : Low (add heap l r) := by
  refine low_binary hl hr fun l r hl hr => ?_
  obtain ⟨lt, lreg, lnum, lname, lbtf, lmem⟩ := l
  obtain ⟨rt, rreg, rnum, rname, rbtf, rmem⟩ := r
  cases lt <;> cases rt
  case num.regBtf => exact addConst_low _ hr
  case regBtf.num => exact addConst_low _ hl
  all_goals
    apply_rules [low_fail, low_fail_then, low_emit, low_free, low_ite, low_pure]
    all_goals simp_all [Op.below]

theorem sub_low (hl : l.reg < R8) (hr : r.reg < R8) : Low (sub heap l r) := by
  refine low_binary hl hr fun l r hl hr => ?_
  obtain ⟨lt, lreg, lnum, lname, lbtf, lmem⟩ := l
  obtain ⟨rt, rreg, rnum, rname, rbtf, rmem⟩ := r
  cases lt <;> cases rt
  case regBtf.num =>
    refine low_ite (low_pure hl) ?_
    rcases lbtf.map underlyingType with _ | t
    · exact low_emit (by simpa [Op.below] using hl) (low_pure hl)
    cases t <;> apply_rules [low_fail, low_fail_then, low_emit, low_free, low_ite, low_pure]
    all_goals simpa [Op.below] using hl
  all_goals
    apply_rules [low_fail, low_fail_then, low_emit, low_free, low_ite, low_pure]
    all_goals simp_all [Op.below]

theorem binary_low (op : BinOp) (hl : l.reg < R8) (hr : r.reg < R8) : Low (binary heap op l r) := by
  cases op with
  | add => exact add_low hl hr
  | and => exact and_low hl hr
  | andAnd => exact andand_low hl hr
  | div => exact div_low hl hr
  | eqEq | lt | ltEq | notEq => exact compare_low _ _ hl hr
  | gt => exact compare_low (fun a b => b.slt a) .le hl hr
  | gtEq => exact compare_low (fun a b => b.sle a) .lt hl hr
  | lsh => exact lsh_low hl hr
  | mod => exact mod_low hl hr
  | mul => exact mul_low hl hr
  | or | xor => exact orLike_low _ _ hl hr
  | orOr => exact oror_low hl hr
  | rsh => exact rsh_low hl hr
  | sub => exact sub_low hl hr

theorem minus_low {v : EvalValue} (hv : v.reg < R8) : Low (minus v) := by
  obtain ⟨vt, vreg, vnum, vname, vbtf, vmem⟩ := v
  cases vt <;> apply_rules [low_fail, low_emit, low_pure]
  simpa [Op.below] using hv

theorem unary_low (fold : Word → Word) (code : Reg → List Insn) (what : String) {v : EvalValue}
    (hv : v.reg < R8) (hcode : ∀ i ∈ code v.reg, i.op.below R8 = true) :
    Low (unary fold code what v) := by
  obtain ⟨vt, vreg, vnum, vname, vbtf, vmem⟩ := v
  cases vt <;> apply_rules [low_fail, low_fail_then, low_emit, low_free, low_ite, low_pure]

/-- The check of an operand of `?:` leaves the state alone. -/
theorem low_condCheck {v : EvalValue} {m : CodeM EvalValue} (h : Low m) :
    Low (condCheck v >>= fun _ => m) := by
  intro g w g' hok
  obtain ⟨_, g₁, hcheck, hm⟩ := bind_eq_ok.mp hok
  obtain ⟨rfl, -⟩ := condCheck_ok hcheck
  exact h g w g' hm

theorem low_condArm {v arm : EvalValue} {m : CodeM EvalValue} (hv : v.reg < R8) (harm : arm.reg < R8)
    (h : Low m) : Low (condArm v arm >>= fun _ => m) := by
  have hmove (src : Operand) : ∀ i ∈ [(Op.alu .mov v.reg src : Insn)], i.op.below R8 = true := by
    simpa [Op.below] using hv
  unfold condArm
  by_cases hnum : arm.typ = .num
  · simp only [hnum, if_true]
    exact low_emit (hmove _) h
  · simp only [hnum, if_false, bind_assoc]
    exact low_emit (hmove _) (low_free harm h)

theorem cond_low {v : EvalValue} (hv : v.reg < R8) (hl : l.reg < R8) (hr : r.reg < R8) :
    Low (cond v l r) := by
  refine low_condCheck (low_condCheck (low_condCheck (low_ite ?_ ?_)))
  · refine low_pure ?_
    split
    · exact hr
    · exact hl
  · refine low_emit (by simp [Op.below]) (low_condArm hv hl ?_)
    exact low_emit (by simp [Op.below]) (low_condArm hv hr (low_pure hv))

end Operators

/-! ## The code of a step -/

/-- From `g` on, code was emitted that falls through or goes to the exit
label, and keeps `r8`, everything above and the record. -/
structure Reserves (c : Compiler) (g g' : Gen) : Prop where
  used : g'.regalloc.registers R8 = true
  code : ∃ own, g'.insns = g.insns ++ own ∧ Unmarked own ∧
    ∀ K s, K.fastcall = c.rdonlyCastFastcall → ∃ m s', exec K own .run s = .cont m s' ∧
      (m = .run ∨ m = .seek c.labelExit) ∧ Keeps R8 s s'

namespace Reserves

variable {c : Compiler} {g g₁ g₂ : Gen}

theorem nothing (hused : g.regalloc.registers R8 = true) : Reserves c g g :=
  ⟨hused, [], by simp, by simp [Unmarked], fun _ s _ => ⟨.run, s, rfl, .inl rfl, Keeps.refl R8 s⟩⟩

theorem trans (h : Reserves c g g₁) (h' : Reserves c g₁ g₂) : Reserves c g g₂ := by
  obtain ⟨own, hins, hun, hcode⟩ := h.code
  obtain ⟨own', hins', hun', hcode'⟩ := h'.code
  refine ⟨h'.used, own ++ own', by rw [hins', hins, List.append_assoc], hun.append hun', ?_⟩
  intro K s hK
  obtain ⟨m, s₁, hexec, hm, hkeeps⟩ := hcode K s hK
  rcases hm with rfl | rfl
  · obtain ⟨m', s₂, hexec', hm', hkeeps'⟩ := hcode' K s₁ hK
    exact ⟨m', s₂, by rw [exec_append_of_run hexec, hexec'], hm', hkeeps.trans hkeeps'⟩
  · refine ⟨.seek c.labelExit, s₁, ?_, .inr rfl, hkeeps⟩
    rw [exec_append, hexec]
    exact exec_seek_of_unmarked hun' c.labelExit s₁

/-- Code below `r8` that jumps inside itself. -/
theorem below {own : List Insn} (hins : g₁.insns = g.insns ++ own)
    (hused : g₁.regalloc.registers R8 = true) (hun : Unmarked own)
    (hbelow : ∀ i ∈ own, i.op.below R8 = true) (hinside : jumpsInside (own.map (·.op)) = true) :
    Reserves c g g₁ := by
  refine ⟨hused, own, hins, hun, fun K s _ => ?_⟩
  obtain ⟨s', hexec, hkeeps⟩ := exec_below (K := K) hbelow hinside (Nat.zero_le _) s
  exact ⟨.run, s', hexec, .inl rfl, hkeeps⟩

/-- One instruction below `r8`. -/
theorem one {op : Op} (hins : g₁.insns = g.insns ++ [(op : Insn)])
    (hused : g₁.regalloc.registers R8 = true) (hbelow : op.below R8 = true)
    (hdisp : op.displacement? = none) : Reserves c g g₁ :=
  .below hins hused (by simp [Unmarked]) (by simpa using hbelow) (by simp [jumpsInside, hdisp])

theorem operator {m : CodeM EvalValue} {v : EvalValue} (hop : IsOperator c.heap m) (hlow : Low m)
    (h : m g = .ok (v, g₁)) (hused : g.regalloc.registers R8 = true) :
    v.reg < R8 ∧ Reserves c g g₁ := by
  obtain ⟨hused', hv, own, hins, hbelow⟩ := hlow g v g₁ h hused
  obtain ⟨own', hins', hinside, hplain, -⟩ := staysInside_of_operator hop g v g₁ h
  obtain rfl : own' = own := List.append_cancel_left (hins'.symm.trans hins)
  simp only [plain, List.all_eq_true, Bool.and_eq_true, Option.isNone_iff_eq_none] at hplain
  exact ⟨hv, .below hins hused' (fun i hi => (hplain i hi).1) hbelow hinside⟩

end Reserves

/-! ## Reads -/

section Reads

variable {c : Compiler} {res : AccessResult} {g g₁ g₂ : Gen} {reg : Reg} {v : EvalValue}

/-- What `Alloc` gives out while `r8` is in use. -/
theorem alloc_lt {ra ra' : RegisterAllocator} (h : ra.alloc = .ok (reg, ra'))
    (hused : ra.registers R8 = true) : reg < R8 ∧ ra'.registers R8 = true := by
  obtain ⟨hunused, hle, rfl⟩ := RegisterAllocator.alloc_spec h
  have hne : reg ≠ R8 := by
    rintro rfl
    rw [hused] at hunused
    cases hunused
  exact ⟨lt_of_le_of_ne hle hne, by simpa [Ne.symm hne] using hused⟩

theorem accessBase_reserves (h : accessBase res g = .ok (reg, g₁))
    (hused : g.regalloc.registers R8 = true) (hres : res.reg < R8) :
    reg < R8 ∧ Reserves c g g₁ := by
  cases hidx : res.idx with
  | none =>
    simp only [accessBase, hidx, pure_eq_ok] at h
    obtain ⟨rfl, rfl⟩ := h
    exact ⟨hres, .nothing hused⟩
  | some idx =>
    obtain ⟨ra, halloc, rfl⟩ := accessBase_inv hidx h
    obtain ⟨hreg, hused'⟩ := alloc_lt halloc hused
    refine ⟨hreg, .one rfl hused' ?_ ?_⟩
    · split <;> simpa [Op.below] using hreg
    · split <;> rfl

/-- A read destroys `r0` to `r5` and the target. -/
theorem chainCode_keeps (hfit : StackFits c) (hreg : reg < R8) (ra : RegisterAllocator)
    (offsets : List AccessOffset) (K : Kernel) (s : State) (hK : K.fastcall = c.rdonlyCastFastcall) :
    ∃ m s', exec K (chainCode c ra offsets reg) .run s = .cont m s' ∧
      (m = .run ∨ m = .seek c.labelExit) ∧ Keeps R8 s s' := by
  have hfp : reg ≠ RFP := by
    rintro rfl
    exact absurd hreg (by decide)
  have hhigh : ∀ q, R8 ≤ q → q ≠ reg ∧ R5 < q := by
    intro q hq
    refine ⟨?_, lt_of_lt_of_le (by decide) hq⟩
    rintro rfl
    exact absurd hreg (not_lt.mpr hq)
  obtain ⟨m, s', hexec, hout, -, hres⟩ := @exec_chainCode K c ra reg hK hfit hfp offsets s
  refine ⟨m, s', hexec, ?_⟩
  cases hsem : chainSem c K.mem offsets (s.regs reg) with
  | error e =>
    rw [hsem] at hres
    exact ⟨.inr hres.1, fun q hq => hres.2 q (hhigh q hq).1 (hhigh q hq).2, hout⟩
  | ok w =>
    rw [hsem] at hres
    refine ⟨.inl hres.1, fun q hq => ?_, hout⟩
    exact hres.2.2 q (hhigh q hq).1 (.inl (chainDestroys_high (hhigh q hq).2))

theorem access_reserves (hfit : StackFits c) (h : access c res g = .ok (v, g₂))
    (hused : g.regalloc.registers R8 = true) (hres : res.reg < R8) :
    v.reg < R8 ∧ Reserves c g g₂ := by
  rw [access_eq] at h
  simp only [bind_eq_ok, wrapping_eq_ok, emit_eq_ok, pure_eq_ok] at h
  obtain ⟨reg, g₁, hbase, _, g₃, hread, _, _, rfl, rfl, rfl⟩ := h
  obtain ⟨hreg, hbaseCode⟩ := accessBase_reserves (c := c) hbase hused hres
  have hchain := offset2insns_eq hread
  subst hchain
  refine ⟨hreg, hbaseCode.trans ⟨hbaseCode.used, chainCode c g₁.regalloc res.offsets reg
    ++ (keepCode c.heap res.btf res.mem reg).map (↑), List.append_assoc _ _ _,
    (unmarked_chainCode c g₁.regalloc res.offsets reg).append (unmarked_ops _), ?_⟩⟩
  intro K s hK
  obtain ⟨m, s₁, hexec, hm, hkeeps⟩ := chainCode_keeps hfit hreg g₁.regalloc res.offsets K s hK
  rcases hm with rfl | rfl
  · have hkept := exec_keepCode K c.heap res.btf res.mem reg s₁
    rw [← exec_append_of_run hexec] at hkept
    exact ⟨.run, _, hkept, .inl rfl, hkeeps.trans (keeps_set hreg _)⟩
  · refine ⟨.seek c.labelExit, s₁, ?_, .inr rfl, hkeeps⟩
    rw [exec_append, hexec]
    exact exec_seek_of_unmarked (unmarked_ops _) c.labelExit s₁

end Reads

/-! ## The induction -/

def AccessReserves (c : Compiler) (e : Expr) : Prop :=
  ∀ g res g', accessMemory c e g = .ok (res, g') → g.regalloc.registers R8 = true →
    res.reg < R8 ∧ Reserves c g g'

def EvalReserves (c : Compiler) (e : Expr) : Prop :=
  ∀ g v g', eval c e g = .ok (v, g') → g.regalloc.registers R8 = true →
    v.reg < R8 ∧ Reserves c g g'

section Nodes

variable {c : Compiler} {e left right : Expr}

theorem AccessReserves.of_node (hsteps : ∀ left, sizeOf left < sizeOf e → AccessReserves c left)
    (heval : ∀ op left right, e = .bin op left right → EvalReserves c e) : AccessReserves c e := by
  intro g res g' hok hused
  cases accessMemory_node hok with
  | start hgen hidx hreg _ _ =>
    subst hgen
    exact ⟨by rw [hreg]; decide, .nothing hused⟩
  | step left res₀ f hlt hleft hf hstep _ _ _ =>
    rw [(hf.base hstep).2]
    exact hsteps left hlt g res₀ g' hleft hused
  | computed op left right v he hval hres _ _ _ =>
    unfold accessComputed at hres
    split at hres
    · simp at hres
    simp only [Except.ok.injEq] at hres
    subst hres
    exact heval op left right he g v g' hval hused

theorem EvalReserves.of_access (hfit : StackFits c) (hacc : e.isAccess) (h : AccessReserves c e) :
    EvalReserves c e := by
  intro g v g' hok hused
  rw [eval_access c hacc, bind_eq_ok] at hok
  obtain ⟨res, g₁, hmem, haccess⟩ := hok
  obtain ⟨hres, hcode⟩ := h g res g₁ hmem hused
  obtain ⟨hv, hread⟩ := access_reserves hfit haccess hcode.used hres
  exact ⟨hv, hcode.trans hread⟩

theorem EvalReserves.bin (op : BinOp) (hl : EvalReserves c left) (hr : EvalReserves c right) :
    EvalReserves c (.bin op left right) := by
  intro g v g' hok hused
  simp only [eval, bind_eq_ok, wrapping_eq_ok] at hok
  obtain ⟨lv, g₁, hlok, rv, g₂, hrok, hop⟩ := hok
  obtain ⟨hlreg, hlcode⟩ := hl g lv g₁ hlok hused
  obtain ⟨hrreg, hrcode⟩ := hr g₁ rv g₂ hrok hlcode.used
  obtain ⟨hv, hcode⟩ := Reserves.operator (.binary op lv rv) (binary_low op hlreg hrreg) hop hrcode.used
  exact ⟨hv, (hlcode.trans hrcode).trans hcode⟩

theorem EvalReserves.cond (he : EvalReserves c e) (hl : EvalReserves c left)
    (hr : EvalReserves c right) : EvalReserves c (.cond e left right) := by
  intro g v g' hok hused
  simp only [eval, bind_eq_ok, wrapping_eq_ok] at hok
  obtain ⟨cv, g₁, hcok, lv, g₂, hlok, rv, g₃, hrok, hop⟩ := hok
  obtain ⟨hcreg, hccode⟩ := he g cv g₁ hcok hused
  obtain ⟨hlreg, hlcode⟩ := hl g₁ lv g₂ hlok hccode.used
  obtain ⟨hrreg, hrcode⟩ := hr g₂ rv g₃ hrok hlcode.used
  obtain ⟨hv, hcode⟩ := Reserves.operator (.cond cv lv rv) (cond_low hcreg hlreg hrreg) hop hrcode.used
  exact ⟨hv, ((hccode.trans hlcode).trans hrcode).trans hcode⟩

/-- A unary operator with code of its own. -/
theorem EvalReserves.unary {op : UnOp} {f : EvalValue → CodeM EvalValue} (hleft : EvalReserves c left)
    (hop : ∀ v, IsOperator c.heap (f v)) (hlow : ∀ v : EvalValue, v.reg < R8 → Low (f v))
    (heval : eval c (.un op left) = (do
      let v ← wrapping "failed to evaluate operand" (eval c left)
      f v)) : EvalReserves c (.un op left) := by
  intro g v g' hok hused
  rw [heval] at hok
  simp only [bind_eq_ok, wrapping_eq_ok] at hok
  obtain ⟨u, g₁, huok, hop'⟩ := hok
  obtain ⟨hureg, hucode⟩ := hleft g u g₁ huok hused
  obtain ⟨hv, hcode⟩ := Reserves.operator (hop u) (hlow u hureg) hop' hucode.used
  exact ⟨hv, hucode.trans hcode⟩

theorem EvalReserves.name (text : String) : EvalReserves c (.name text) := by
  intro g v g' hok hused
  simp only [eval, evalName] at hok
  split at hok
  · simp only [pure_eq_ok] at hok
    obtain ⟨rfl, rfl⟩ := hok
    exact ⟨by decide, .nothing hused⟩
  split at hok
  · simp only [pure_eq_ok] at hok
    obtain ⟨rfl, rfl⟩ := hok
    exact ⟨by decide, .nothing hused⟩
  cases hidx : c.vars.idxOf? text with
  | none =>
    simp only [hidx, pure_eq_ok] at hok
    obtain ⟨rfl, rfl⟩ := hok
    exact ⟨by show R0 < R8; decide, .nothing hused⟩
  | some idx =>
    simp only [hidx, emitLoadArg, bind_eq_ok, alloc_eq_ok, emit_eq_ok, pure_eq_ok] at hok
    obtain ⟨reg, _, ⟨ra, halloc, rfl⟩, _, _, rfl, rfl, rfl⟩ := hok
    obtain ⟨hreg, hused'⟩ := alloc_lt halloc hused
    exact ⟨hreg, .one rfl hused' (by simpa [Op.below] using hreg) rfl⟩

theorem EvalReserves.cast (type : CType) (hleft : EvalReserves c left) :
    EvalReserves c (.cast type left) := by
  intro g v g' hok hused
  simp only [eval, bind_eq_ok, wrapping_eq_ok] at hok
  obtain ⟨u, g₁, huok, hok⟩ := hok
  obtain ⟨hureg, hucode⟩ := hleft g u g₁ huok hused
  split at hok
  · simp only [castNumber, CC.cast, bind_eq_ok, wrapping_eq_ok, lift_eq_ok, pure_eq_ok, alloc_eq_ok,
      emit_eq_ok] at hok
    obtain ⟨_, _, ⟨_, _, ⟨-, rfl⟩, rfl, rfl⟩, reg, _, ⟨ra, halloc, rfl⟩, _, _, rfl, rfl, rfl⟩ := hok
    obtain ⟨hreg, hused'⟩ := alloc_lt halloc hucode.used
    refine ⟨hreg, hucode.trans (.one rfl hused' ?_ rfl)⟩
    simpa [Op.below] using hreg
  · simp only [CC.cast, bind_eq_ok, wrapping_eq_ok, lift_eq_ok, pure_eq_ok] at hok
    obtain ⟨_, _, ⟨-, rfl⟩, rfl, rfl⟩ := hok
    exact ⟨hureg, hucode⟩

end Nodes

theorem compile_reserves {c : Compiler} (hfit : StackFits c) (e : Expr) :
    AccessReserves c e ∧ EvalReserves c e := by
  induction hn : sizeOf e using Nat.strong_induction_on generalizing e with
  | _ n ih =>
  subst hn
  have hsub : ∀ left, sizeOf left < sizeOf e → AccessReserves c left ∧ EvalReserves c left :=
    fun left hlt => ih _ hlt left rfl
  have hbin : ∀ op left right, e = .bin op left right → EvalReserves c e := by
    intro op left right he
    subst he
    exact .bin op (hsub left (Expr.left_lt_bin ..)).2 (hsub right (Expr.right_lt_bin ..)).2
  have hacc : AccessReserves c e := .of_node (fun left hlt => (hsub left hlt).1) hbin
  refine ⟨hacc, ?_⟩
  cases e with
  | name text => exact .name text
  | number text =>
    intro g v g' hok hused
    simp only [eval, bind_eq_ok, wrapping_eq_ok, lift_eq_ok, pure_eq_ok] at hok
    obtain ⟨_, _, ⟨-, rfl⟩, rfl, rfl⟩ := hok
    exact ⟨by show R0 < R8; decide, .nothing hused⟩
  | un op left =>
    have hleft : EvalReserves c left := (hsub left (Expr.lt_un ..)).2
    cases op with
    | addr | indir => exact .of_access hfit rfl hacc
    | paren | plus =>
      intro g v g' hok hused
      simp only [eval] at hok
      exact hleft g v g' hok hused
    | minus => exact hleft.unary .minus (fun _ => minus_low) (by simp only [eval])
    | not =>
      refine hleft.unary .not (fun v hv => unary_low _ _ _ hv ?_) (by simp only [eval])
      simpa [Op.below, reg2bool] using hv
    | twid =>
      refine hleft.unary .twid (fun v hv => unary_low _ _ _ hv ?_) (by simp only [eval])
      simpa [Op.below] using hv
    | preDec =>
      refine hleft.unary .preDec (fun v hv => unary_low _ _ _ hv ?_) (by simp only [eval])
      simpa [Op.below] using hv
    | preInc =>
      refine hleft.unary .preInc (fun v hv => unary_low _ _ _ hv ?_) (by simp only [eval])
      simpa [Op.below] using hv
  | bin op left right => exact hbin op left right rfl
  | cond e left right =>
    exact .cond (hsub e (Expr.cond_lt_cond ..)).2 (hsub left (Expr.left_lt_cond ..)).2
      (hsub right (Expr.right_lt_cond ..)).2
  | cast type left => exact .cast type (hsub left (Expr.lt_cast ..)).2
  | dot left text => exact .of_access hfit rfl hacc
  | arrow left text => exact .of_access hfit rfl hacc
  | index left right => exact .of_access hfit rfl hacc
  | call left list => exact fun g v g' hok => by simp [eval] at hok
  | other op => exact fun g v g' hok => by simp [eval] at hok

/-- **The code of an expression** compiled while `r8` is in use computes in
the registers below, and leaves the record alone. -/
theorem eval_reserves {c : Compiler} (hfit : StackFits c) {e : Expr} {g g' : Gen} {v : EvalValue}
    (h : eval c e g = .ok (v, g')) (hused : g.regalloc.registers R8 = true) :
    v.reg < R8 ∧ Reserves c g g' := (compile_reserves hfit e).2 g v g' h hused

end Bpfsnoop.CC
