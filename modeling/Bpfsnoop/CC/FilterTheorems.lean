/-
Bpfsnoop.CC.FilterTheorems — what a compiled filter returns.

`filter_runs` closes the gap between the code of an expression and the
program around it: the arguments move to `r9`, the exit label goes on the
last instruction of the top operator, the result moves to `r0`.
`filter_registers` is the case of filters over parameters alone: they
return the value of the expression in unsigned 64-bit arithmetic.
-/
import Bpfsnoop.CC.Filter
import Bpfsnoop.CC.EvalTheorems

namespace Bpfsnoop.CC

open Ebpf Btf Reg

/-! ## The last instruction of the top operator -/

/-- What the top operator's last instruction does to its result: the
`mov` of `||` on two registers sets it to 1, every other operator ends in
the `xor` that clears it. -/
def lastOp (high : Bool) (d : Reg) : Op :=
  if high then Asm.movImm d 1 else Op.alu .xor d (.reg d)

/-- The binary operators `compile` takes at the top. -/
def BinOp.atTop : BinOp → Bool
  | .andAnd | .eqEq | .gt | .gtEq | .lt | .ltEq | .notEq | .orOr => true
  | _ => false

section Top

variable {heap : Heap} {l r v : EvalValue} {g g' : Gen}

theorem preHandle_typ {l' r' : EvalValue} (h : preHandleBinaryOp heap l r = .ok (l', r')) :
    (l'.typ = .regBtf ↔ l.typ = .regBtf) ∧ (r'.typ = .regBtf ↔ r.typ = .regBtf) := by
  obtain ⟨-, hl, hr⟩ := preHandle_spec h
  have hiff {a b : EvalValue} (h : ∀ q, a.Holds q ↔ b.Holds q) : a.typ = .regBtf ↔ b.typ = .regBtf :=
    ⟨fun ht => ((h a.reg).mp ⟨ht, rfl⟩).1, fun ht => ((h b.reg).mpr ⟨ht, rfl⟩).1⟩
  exact ⟨hiff hl, hiff hr⟩

theorem compare_last {fold : Word → Word → Bool} {inverse : JumpOp}
    (h : compare heap fold inverse l r g = .ok (v, g')) (hv : v.typ ≠ .num) :
    v.typ = .regBtf ∧ g'.insns.getLast? = some (lastOp false v.reg : Insn) := by
  unfold compare at h
  simp only [bind_eq_ok, lift_eq_ok] at h
  obtain ⟨⟨l', r'⟩, _, ⟨-, rfl⟩, h⟩ := h
  dsimp only at h
  cases hl : l'.typ <;> cases hr : r'.typ <;>
    simp only [hl, hr, bind_eq_ok, emit_eq_ok, free_eq_ok, pure_eq_ok, fail_eq_ok] at h
  case num.num =>
    obtain ⟨rfl, -⟩ := h
    exact absurd rfl hv
  case num.regBtf =>
    obtain ⟨_, _, rfl, _, _, rfl, rfl, rfl⟩ := h
    exact ⟨hr, by simp [reg2bool, lastOp]⟩
  case regBtf.num =>
    obtain ⟨_, _, rfl, _, _, rfl, rfl, rfl⟩ := h
    exact ⟨hl, by simp [reg2bool, lastOp]⟩
  case regBtf.regBtf =>
    obtain ⟨_, _, rfl, _, _, rfl, _, _, rfl, rfl, rfl⟩ := h
    exact ⟨hl, by simp [reg2bool, lastOp]⟩

theorem andand_last (h : andand heap l r g = .ok (v, g')) (hv : v.typ ≠ .num) :
    v.typ = .regBtf ∧ g'.insns.getLast? = some (lastOp false v.reg : Insn) := by
  unfold andand at h
  simp only [bind_eq_ok, lift_eq_ok] at h
  obtain ⟨⟨l', r'⟩, _, ⟨-, rfl⟩, h⟩ := h
  dsimp only at h
  cases hl : l'.typ <;> cases hr : r'.typ <;> simp only [hl, hr, fail_eq_ok] at h
  case num.num =>
    simp only [pure_eq_ok] at h
    obtain ⟨rfl, -⟩ := h
    exact absurd rfl hv
  case num.regBtf =>
    split at h
    · simp only [bind_eq_ok, free_eq_ok, pure_eq_ok] at h
      obtain ⟨_, _, rfl, rfl, rfl⟩ := h
      exact absurd hl hv
    · simp only [bind_eq_ok, emit_eq_ok, pure_eq_ok] at h
      obtain ⟨_, _, rfl, _, _, rfl, rfl, rfl⟩ := h
      exact ⟨hr, by simp [reg2bool, lastOp]⟩
  case regBtf.num =>
    split at h
    · simp only [bind_eq_ok, free_eq_ok, pure_eq_ok] at h
      obtain ⟨_, _, rfl, rfl, rfl⟩ := h
      exact absurd hr hv
    · simp only [bind_eq_ok, emit_eq_ok, pure_eq_ok] at h
      obtain ⟨_, _, rfl, _, _, rfl, rfl, rfl⟩ := h
      exact ⟨hl, by simp [reg2bool, lastOp]⟩
  case regBtf.regBtf =>
    simp only [bind_eq_ok, emit_eq_ok, free_eq_ok, pure_eq_ok] at h
    obtain ⟨_, _, rfl, _, _, rfl, _, _, rfl, _, _, rfl, rfl, rfl⟩ := h
    exact ⟨hl, by simp [reg2bool, lastOp]⟩

/-- `||` is the operator that may end in setting its result. -/
theorem oror_last (h : oror heap l r g = .ok (v, g')) (hv : v.typ ≠ .num) :
    v.typ = .regBtf ∧ g'.insns.getLast?
      = some (lastOp (l.typ = .regBtf ∧ r.typ = .regBtf) v.reg : Insn) := by
  unfold oror at h
  simp only [bind_eq_ok, lift_eq_ok] at h
  obtain ⟨⟨l', r'⟩, _, ⟨hpre, rfl⟩, h⟩ := h
  obtain ⟨hlt, hrt⟩ := preHandle_typ hpre
  simp only [← hlt, ← hrt]
  dsimp only at h
  cases hl : l'.typ <;> cases hr : r'.typ <;> simp only [hl, hr, fail_eq_ok] at h
  case num.num =>
    simp only [pure_eq_ok] at h
    obtain ⟨rfl, -⟩ := h
    exact absurd rfl hv
  case num.regBtf =>
    split at h
    · simp only [bind_eq_ok, free_eq_ok, pure_eq_ok] at h
      obtain ⟨_, _, rfl, rfl, rfl⟩ := h
      exact absurd rfl hv
    · simp only [bind_eq_ok, emit_eq_ok, pure_eq_ok] at h
      obtain ⟨_, _, rfl, _, _, rfl, rfl, rfl⟩ := h
      exact ⟨hr, by simp [reg2bool, lastOp]⟩
  case regBtf.num =>
    split at h
    · simp only [bind_eq_ok, free_eq_ok, pure_eq_ok] at h
      obtain ⟨_, _, rfl, rfl, rfl⟩ := h
      exact absurd rfl hv
    · simp only [bind_eq_ok, emit_eq_ok, pure_eq_ok] at h
      obtain ⟨_, _, rfl, _, _, rfl, rfl, rfl⟩ := h
      exact ⟨hl, by simp [reg2bool, lastOp]⟩
  case regBtf.regBtf =>
    simp only [bind_eq_ok, emit_eq_ok, free_eq_ok, pure_eq_ok] at h
    obtain ⟨_, _, rfl, _, _, rfl, _, _, rfl, _, _, rfl, _, _, rfl, _, _, rfl, rfl, rfl⟩ := h
    exact ⟨hl, by simp [lastOp]⟩

theorem not_last (h : not l g = .ok (v, g')) (hv : v.typ ≠ .num) :
    v.typ = .regBtf ∧ g'.insns.getLast? = some (lastOp false v.reg : Insn) := by
  unfold not unary at h
  cases hl : l.typ <;> simp only [hl, fail_eq_ok] at h
  case num =>
    simp only [pure_eq_ok] at h
    obtain ⟨rfl, -⟩ := h
    exact absurd rfl hv
  case regBtf =>
    cases hcalc : canCalculate l.btf with
    | false => simp [hcalc] at h
    | true =>
      simp only [hcalc, Bool.not_true, Bool.false_eq_true, if_false, bind_eq_ok, emit_eq_ok,
        pure_eq_ok] at h
      obtain ⟨_, _, rfl, rfl, rfl⟩ := h
      exact ⟨hl, by simp [reg2bool, lastOp]⟩

theorem binary_last {op : BinOp} (hop : op.atTop) (h : binary heap op l r g = .ok (v, g'))
    (hv : v.typ ≠ .num) : v.typ = .regBtf ∧ g'.insns.getLast?
      = some (lastOp (op = .orOr ∧ l.typ = .regBtf ∧ r.typ = .regBtf) v.reg : Insn) := by
  cases op <;> simp only [BinOp.atTop, Bool.false_eq_true] at hop
  case orOr => simpa using oror_last h hv
  case andAnd => exact andand_last h hv
  case gt => exact @compare_last heap l r v g g' (fun a b => b.slt a) .le h hv
  case gtEq => exact @compare_last heap l r v g g' (fun a b => b.sle a) .lt h hv
  all_goals exact compare_last h hv

end Top

/-- Whether a NULL exit of the filter ends in setting the result: the top
operator is `||` and both operands are in registers. -/
def leavesHigh (c : Compiler) (e : Expr) (g : Gen) : Bool :=
  match e with
  | .bin .orOr left right =>
    match eval c left g with
    | .ok (l, g') =>
      match eval c right g' with
      | .ok (r, _) => l.typ = .regBtf ∧ r.typ = .regBtf
      | .error _ => false
    | .error _ => false
  | _ => false

/-- **The last instruction of a filter's expression.** -/
theorem eval_last {c : Compiler} {e : Expr} {v : EvalValue} {g g' : Gen} (htop : supportedOp e)
    (h : eval c e g = .ok (v, g')) (hv : v.typ ≠ .num) :
    v.typ = .regBtf ∧ g'.insns.getLast? = some (lastOp (leavesHigh c e g) v.reg : Insn) := by
  cases e with
  | un op left =>
    cases op <;> simp only [supportedOp, Bool.false_eq_true] at htop
    simp only [eval, bind_eq_ok, wrapping_eq_ok] at h
    obtain ⟨l, g₁, -, h⟩ := h
    exact not_last h hv
  | bin op left right =>
    have hop : op.atTop := by
      cases op <;> simp only [supportedOp, Bool.false_eq_true] at htop <;> rfl
    simp only [eval, bind_eq_ok, wrapping_eq_ok] at h
    obtain ⟨l, g₁, hl, r, g₂, hr, h⟩ := h
    have hlast := binary_last hop h hv
    have hhigh : leavesHigh c (.bin op left right) g
        = decide (op = .orOr ∧ l.typ = .regBtf ∧ r.typ = .regBtf) := by
      cases op <;> simp [leavesHigh, hl, hr]
    rw [hhigh]
    exact hlast
  | _ => simp only [supportedOp, Bool.false_eq_true] at htop

/-! ## The exit label -/

theorem markLast_eq {l : String} : ∀ {is : List Insn} {i : Insn}, is.getLast? = some i →
    markLast l is = is.dropLast ++ [i.withSymbol l]
  | [], _, h => by simp at h
  | [j], i, h => by
      simp only [List.getLast?_singleton, Option.some.injEq] at h
      simp [markLast, h]
  | j :: k :: is, i, h => by
      have ih : markLast l (k :: is) = (k :: is).dropLast ++ [i.withSymbol l] :=
        markLast_eq (by simpa using h)
      simp [markLast, ih]

section Marked

variable {K : Kernel} {init : List Insn} {op : AluOp} {d : Reg} {src : Operand} {l : String}
  {s s' : State}

/-- Code that falls through does so whether or not its last instruction
carries a label. -/
theorem exec_marked_of_run
    (h : exec K (init ++ [(Op.alu op d src : Insn)]) .run s = .cont .run s') :
    exec K (init ++ [(Op.alu op d src : Insn).withSymbol l]) .run s = .cont .run s' := by
  rw [exec_append] at h ⊢
  cases hinit : exec K init .run s with
  | exit t => simp [hinit, Outcome.andThen] at h
  | stuck => simp [hinit, Outcome.andThen] at h
  | cont m t =>
    rw [hinit] at h
    cases m with
    | skip n => cases n <;> exact h
    | seek k => simp [Outcome.andThen, exec, Mode.over] at h

/-- A search for the label ends at that instruction. -/
theorem exec_marked_of_seek
    (h : exec K (init ++ [(Op.alu op d src : Insn)]) .run s = .cont (.seek l) s') :
    exec K (init ++ [(Op.alu op d src : Insn).withSymbol l]) .run s
      = .cont .run (s'.set d (op.eval (s'.regs d) (src.eval s'.regs))) := by
  rw [exec_append] at h ⊢
  cases hinit : exec K init .run s with
  | exit t => simp [hinit, Outcome.andThen] at h
  | stuck => simp [hinit, Outcome.andThen] at h
  | cont m t =>
    rw [hinit] at h
    cases m with
    | skip n =>
      cases n with
      | zero => simp [Outcome.andThen] at h
      | succ n => simp [Outcome.andThen] at h
    | seek k =>
      simp only [Outcome.andThen, exec, Mode.over, reduceCtorEq, if_false, Outcome.cont.injEq,
        Mode.seek.injEq] at h
      obtain ⟨rfl, rfl⟩ := h
      simp [Outcome.andThen, exec, Mode.over, Insn.withSymbol, Op.exec]

end Marked

/-! ## The program -/

/-- What `CompileFilterExpr` returns for the state behind `compile`. -/
def Gen.program (g : Gen) : List Insn := g.insns ++ [{ op := .exit }]

/-- The code behind the expression: the result moves to `r0`. -/
def resultCode (v : EvalValue) : List Insn :=
  (if v.reg ≠ R0 then [(Asm.movReg R0 v.reg : Insn)] else []) ++ [{ op := .exit }]

theorem exec_resultCode (K : Kernel) (v : EvalValue) (s : State) :
    ∃ s', exec K (resultCode v) .run s = .exit s' ∧ s'.regs R0 = s.regs v.reg ∧ s'.out = s.out ∧
      s'.stack = s.stack := by
  unfold resultCode
  split
  · exact ⟨s.set R0 (s.regs v.reg), rfl, by simp, rfl, rfl⟩
  · rename_i h
    exact ⟨s, rfl, by rw [not_not.mp h], rfl, rfl⟩

section Filter

variable {c : Compiler} {text : String} {e : Expr} {g : Gen} {u : Unit}

/-- What a successful `compile` did. -/
theorem compile_inv (h : compile c text e filterGen = .ok (u, g)) :
    ∃ v g₁, supportedOp e ∧ eval c e filterGen = .ok (v, g₁) ∧ v.typ ≠ .num ∧
      g.program = (if g₁.labelExitUsed then markLast c.labelExit g₁.insns else g₁.insns)
        ++ resultCode v := by
  unfold compile at h
  cases htop : supportedOp e with
  | false => simp [htop] at h
  | true =>
    simp only [htop, Bool.not_true, Bool.false_eq_true, if_false, bind_eq_ok, wrapping_eq_ok] at h
    obtain ⟨v, g₁, heval, h⟩ := h
    by_cases hnum : v.typ = .num
    · simp [hnum] at h
    · simp only [hnum, if_false, bind_eq_ok, attachLabelExit, Except.ok.injEq, Prod.mk.injEq] at h
      obtain ⟨_, g₂, ⟨-, hg₂⟩, h⟩ := h
      refine ⟨v, g₁, rfl, heval, hnum, ?_⟩
      have hins : g₂.insns = if g₁.labelExitUsed then markLast c.labelExit g₁.insns else g₁.insns := by
        rw [← hg₂]
        split <;> rfl
      unfold resultCode Gen.program
      rw [← hins]
      by_cases hr : v.reg = R0
      · simp only [hr, ne_eq, not_true_eq_false, if_false, pure_eq_ok, true_and] at h
        simp [hr, h]
      · simp only [hr, ne_eq, not_false_eq_true, if_true, emit_eq_ok] at h
        simp [hr, ← h]

/-- The parts of a compiled filter: the code of its expression ends in an
instruction on the result, which carries the exit label if that is used,
and the result moves to `r0`. -/
structure FilterShape (c : Compiler) (e : Expr) (g : Gen) (v : EvalValue) (g₁ : Gen)
    (init : List Insn) (op : AluOp) (src : Operand) : Prop where
  eval : eval c e filterGen = .ok (v, g₁)
  reg : v.typ = .regBtf
  insns : g₁.insns = init ++ [(Op.alu op v.reg src : Insn)]
  last : ∀ t : State, op.eval (t.regs v.reg) (src.eval t.regs)
    = if leavesHigh c e filterGen then 1 else 0
  program : g.program = (if g₁.labelExitUsed
      then init ++ [(Op.alu op v.reg src : Insn).withSymbol c.labelExit] else g₁.insns)
    ++ resultCode v

theorem compile_shape (h : compile c text e filterGen = .ok (u, g)) :
    ∃ v g₁ init op src, FilterShape c e g v g₁ init op src := by
  obtain ⟨v, g₁, htop, heval, hv, hprog⟩ := compile_inv h
  obtain ⟨hreg, hlast⟩ := eval_last htop heval hv
  have hinit : g₁.insns = g₁.insns.dropLast ++ [(lastOp (leavesHigh c e filterGen) v.reg : Insn)] :=
    (List.dropLast_append_getLast? _ (by rw [hlast]; rfl)).symm
  obtain ⟨op, src, hop, hzero⟩ : ∃ op src, lastOp (leavesHigh c e filterGen) v.reg = .alu op v.reg src ∧
      ∀ t : State, op.eval (t.regs v.reg) (src.eval t.regs)
        = if leavesHigh c e filterGen then 1 else 0 := by
    unfold lastOp
    split
    · exact ⟨.mov, .imm 1, rfl, fun t => by simp [AluOp.eval]⟩
    · exact ⟨.xor, .reg v.reg, rfl, fun t => by simp [AluOp.eval]⟩
  rw [hop] at hinit hlast
  exact ⟨v, g₁, _, op, src, heval, hreg, hinit, hzero, by rw [hprog, markLast_eq hlast]⟩

namespace FilterShape

variable {v : EvalValue} {g₁ : Gen} {init : List Insn} {op : AluOp} {src : Operand} {K : Kernel}
  {s t : State}

theorem forward (hshape : FilterShape c e g v g₁ init op src) (hun : Unmarked g₁.insns) :
    LabelsForward g.program := by
  rw [hshape.program]
  have hresult : ∀ i ∈ resultCode v, i.symbol = none ∧ i.op.label? = none := by
    intro i hi
    unfold resultCode at hi
    split at hi <;> simp at hi
    · rcases hi with rfl | rfl <;> exact ⟨rfl, rfl⟩
    · rw [hi]
      exact ⟨rfl, rfl⟩
  split
  · rw [List.append_assoc]
    refine labelsForward_of_split (fun i hi => hun i ?_) fun i hi => ?_
    · rw [hshape.insns]
      exact List.mem_append_left _ hi
    · rcases List.mem_append.mp hi with hi | hi
      · rw [List.mem_singleton.mp hi]
        rfl
      · exact (hresult i hi).2
  · have hsplit : LabelsForward ((g₁.insns ++ resultCode v) ++ []) := by
      refine labelsForward_of_split (fun i hi => ?_) (by simp)
      rcases List.mem_append.mp hi with hi | hi
      · exact hun i hi
      · exact (hresult i hi).1
    rwa [List.append_nil] at hsplit

/-- The program exits once its last instruction but the result's move is
behind. -/
theorem finish (hshape : FilterShape c e g v g₁ init op src) (hun : Unmarked g₁.insns)
    (h : exec K (if g₁.labelExitUsed then init ++ [(Op.alu op v.reg src : Insn).withSymbol c.labelExit]
      else g₁.insns) .run s = .cont .run t) :
    ∃ s', Exits K g.program s s' ∧ s'.regs R0 = t.regs v.reg ∧ s'.out = t.out := by
  obtain ⟨s', hexec, hr0, hout, -⟩ := exec_resultCode K v t
  refine ⟨s', exits_of_exec (hshape.forward hun) ?_, hr0, hout⟩
  rw [hshape.program, exec_append_of_run h, hexec]

/-- **A filter that computes its value returns it.** -/
theorem falls (hshape : FilterShape c e g v g₁ init op src) (hun : Unmarked g₁.insns)
    (h : exec K g₁.insns .run s = .cont .run t) :
    ∃ s', Exits K g.program s s' ∧ s'.regs R0 = t.regs v.reg ∧ s'.out = t.out := by
  refine hshape.finish hun ?_
  split
  · rw [hshape.insns] at h
    exact exec_marked_of_run h
  · exact h

/-- **A filter that leaves for the exit label** returns what its last
instruction makes of the result. -/
theorem leaves (hshape : FilterShape c e g v g₁ init op src) (hun : Unmarked g₁.insns)
    (hused : g₁.labelExitUsed = true) (h : exec K g₁.insns .run s = .cont (.seek c.labelExit) t) :
    ∃ s', Exits K g.program s s' ∧ s'.regs R0 = (if leavesHigh c e filterGen then 1 else 0) ∧
      s'.out = t.out := by
  rw [hshape.insns] at h
  have hmarked := exec_marked_of_seek h
  rw [hshape.last] at hmarked
  obtain ⟨s', hexits, hr0, hout⟩ := hshape.finish (s := s)
    (t := t.set v.reg (if leavesHigh c e filterGen then 1 else 0)) hun (by rw [if_pos hused]; exact hmarked)
  exact ⟨s', hexits, by rw [hr0, State.set_regs_self], hout⟩

/-- Where the label is not defined, such a filter does not exit. -/
theorem lost (hshape : FilterShape c e g v g₁ init op src) (hun : Unmarked g₁.insns)
    (hused : g₁.labelExitUsed = false) (h : exec K g₁.insns .run s = .cont (.seek c.labelExit) t)
    {s' : State} : ¬ Exits K g.program s s' := by
  have hresult : Unmarked (resultCode v) := by
    intro i hi
    unfold resultCode at hi
    split at hi <;> simp at hi
    · rcases hi with rfl | rfl <;> rfl
    · rw [hi]
  have hprog : g.program = g₁.insns ++ resultCode v := by rw [hshape.program, hused]; rfl
  have hsym : Unmarked g.program := by
    rw [hprog]
    exact hun.append hresult
  have hexec : exec K g.program .run s = .cont (.seek c.labelExit) t := by
    rw [hprog, exec_append, h]
    exact exec_seek_of_unmarked hresult c.labelExit t
  exact not_exits_of_exec hsym hexec

end FilterShape

/-- **What a filter returns.** With a value, the value; at a NULL exit,
what the last instruction of the top operator leaves. -/
theorem filter_runs (h : compile c text e filterGen = .ok (u, g))
    (hsafe : ∀ t ∈ evalSites c e filterGen, t.Safe c) (K : Kernel)
    (hK : K.fastcall = c.rdonlyCastFastcall) (s : State) :
    match evalSem c K.mem (s.regs R1) e with
    | .ok val => ∃ s', Exits K g.program s s' ∧ s'.regs R0 = val.word ∧ s'.out = s.out
    | .error .exit => c.memMode ≠ .directRead →
        ∃ s', Exits K g.program s s' ∧
          s'.regs R0 = (if leavesHigh c e filterGen then 1 else 0) ∧ s'.out = s.out
    | .error .undefined => False := by
  obtain ⟨v, g₁, init, op, src, hshape⟩ := compile_shape h
  obtain ⟨frag, hins, hun, -, hrun⟩ := ((compile_ok c e).2 filterGen v g₁ hshape.eval hsafe).code
  have hun₁ : Unmarked g₁.insns := by
    rw [hins]
    exact Unmarked.append (by simp [Unmarked, filterGen]) hun
  -- the arguments move to r9
  have hargs : ∀ m s', exec K frag .run (s.set R9 (s.regs R1)) = .cont m s' →
      exec K g₁.insns .run s = .cont m s' := by
    intro m s' hexec
    rw [hins]
    exact hexec
  have hr9 : (s.set R9 (s.regs R1)).regs R9 = s.regs R1 := State.set_regs_self _ _ _
  have hrun' := hrun K (s.set R9 (s.regs R1)) hK
  rw [hr9] at hrun'
  cases hsem : evalSem c K.mem (s.regs R1) e with
  | ok val =>
    rw [hsem] at hrun'
    obtain ⟨t, hexec, hout, -, hval⟩ := hrun'
    obtain ⟨s', hexits, hr0, hout'⟩ := hshape.falls hun₁ (hargs _ t hexec)
    exact ⟨s', hexits, by rw [hr0, hval, at_word_reg hshape.reg], hout'.trans hout⟩
  | error stop =>
    rw [hsem] at hrun'
    cases stop with
    | undefined => exact hrun'
    | exit =>
      intro hmode
      obtain ⟨hused, t, hexec, hout, -⟩ := hrun'
      obtain ⟨s', hexits, hr0, hout'⟩ := hshape.leaves hun₁ (hused hmode) (hargs _ t hexec)
      exact ⟨s', hexits, hr0, hout'.trans hout⟩

end Filter

/-! ## Filters over parameters

The expressions over parameters of an 8-byte unsigned type, and what they
mean in unsigned 64-bit arithmetic. -/

def ofBool (b : Bool) : Word := if b then 1 else 0

/-- A binary operator on unsigned 64-bit words: shift counts modulo 64,
`x % 0 = x`, comparisons and logical operators 0 or 1. -/
def BinOp.value : BinOp → Word → Word → Word
  | .add, a, b => a + b
  | .sub, a, b => a - b
  | .mul, a, b => a * b
  | .div, a, b => a / b
  | .mod, a, b => if b = 0 then a else a % b
  | .and, a, b => a &&& b
  | .or, a, b => a ||| b
  | .xor, a, b => a ^^^ b
  | .lsh, a, b => a <<< (b.toNat % 64)
  | .rsh, a, b => a >>> (b.toNat % 64)
  | .eqEq, a, b => ofBool (a = b)
  | .notEq, a, b => ofBool (a ≠ b)
  | .lt, a, b => ofBool (a < b)
  | .ltEq, a, b => ofBool (a ≤ b)
  | .gt, a, b => ofBool (b < a)
  | .gtEq, a, b => ofBool (b ≤ a)
  | .andAnd, a, b => ofBool (a ≠ 0 ∧ b ≠ 0)
  | .orOr, a, b => ofBool (a ≠ 0 ∨ b ≠ 0)

/-- The expression in unsigned 64-bit arithmetic; `env` gives the values
of the parameters. -/
def Expr.value (env : String → Word) : Expr → Word
  | .name text => env text
  | .un .not left => ofBool (left.value env = 0)
  | .un .twid left => ~~~ left.value env
  | .un _ left => left.value env
  | .bin op left right => op.value (left.value env) (right.value env)
  | .cond e left right => if e.value env ≠ 0 then left.value env else right.value env
  | _ => 0

/-- Built from names of parameters with parentheses, `~`, `!`, the binary
operators other than `/`, and `?:`. -/
def Expr.registerOnly (params : List String) : Expr → Bool
  | .name text => params.contains text
  | .un .paren left | .un .not left | .un .twid left => left.registerOnly params
  | .bin op left right => op ≠ .div && left.registerOnly params && right.registerOnly params
  | .cond e left right =>
    e.registerOnly params && left.registerOnly params && right.registerOnly params
  | _ => false

/-- An 8-byte unsigned integer type. -/
def isU64 (t : BtfType) : Bool :=
  match underlyingType t with
  | .int _ 8 .unsigned => true
  | _ => false

/-- A run-time value of such a type. -/
structure Val.U64 (v : Val) (w : Word) : Prop where
  typ : v.typ = .regBtf
  word : v.word = w
  btf : ∃ t, v.btf = some t ∧ isU64 t = true

namespace Val.U64

variable {v a b : Val} {x y w : Word}

theorem int (h : v.U64 w) : ∃ name, v.btf.map underlyingType = some (.int name 8 .unsigned) := by
  obtain ⟨t, ht, hu⟩ := h.btf
  unfold isU64 at hu
  split at hu
  · rename_i name heq
    exact ⟨name, by rw [ht, Option.map_some, heq]⟩
  · simp at hu

theorem calculable (h : v.U64 w) : canCalculate v.btf = true := by
  obtain ⟨name, hint⟩ := h.int
  simp [canCalculate, hint]

theorem set (h : v.U64 w) (x : Word) : (v.set x).U64 x := ⟨h.typ, rfl, h.btf⟩

/-- Two values of the type go through `preVal` unchanged. -/
theorem preVal (heap : Heap) (ha : a.U64 x) (hb : b.U64 y) : CC.preVal heap a b = .ok (a, b) := by
  simp [CC.preVal, ha.typ, hb.typ, ha.calculable, hb.calculable, Val.adjust]

/-- On them every operator but `/` is the one of unsigned arithmetic. -/
theorem binSem (heap : Heap) {op : BinOp} (hop : op ≠ .div) (ha : a.U64 x) (hb : b.U64 y) :
    ∃ v, CC.binSem heap op a b = .ok v ∧ v.U64 (op.value x y) := by
  refine ⟨a.set (op.value x y), ?_, ha.set _⟩
  have hscale : scaleBy heap a b = y := by
    obtain ⟨name, hint⟩ := ha.int
    simp [scaleBy, elemSize, hint, hb.word]
  have hpre := ha.preVal heap hb
  simp only [CC.binSem, hpre, bind, Except.bind]
  cases op <;> simp only [ne_eq, not_true_eq_false] at hop <;>
    simp [opSem, shaped, orLikeSem, compareSem, shiftSem, ha.typ, hb.typ, ha.word, hb.word, hscale,
      BinOp.value, ofBool, bool2int, AluOp.eval, JumpOp.eval]

theorem not (h : v.U64 w) : ∃ v', unSem .not v = .ok v' ∧ v'.U64 (ofBool (w = 0)) := by
  refine ⟨v.set (ofBool (w = 0)), ?_, h.set _⟩
  simp [unSem, unarySem, h.typ, h.calculable, h.word, ofBool, bool2int]

theorem twid (h : v.U64 w) : ∃ v', unSem .twid v = .ok v' ∧ v'.U64 (~~~ w) := by
  refine ⟨v.set (~~~ w), ?_, h.set _⟩
  have hones : w ^^^ int32 (-1) = ~~~ w := by
    have hall : int32 (-1) = BitVec.allOnes 64 := by decide
    rw [hall, BitVec.xor_allOnes]
  simp only [unSem, unarySem, h.typ, h.calculable, h.word, hones, if_true]

theorem cond {z : Word} (hv : v.U64 w) (ha : a.U64 x) (hb : b.U64 y) (hz : z = if w ≠ 0 then x else y) :
    ∃ v', condSem v a b = .ok v' ∧ v'.U64 z := by
  refine ⟨v.set z, ?_, hv.set _⟩
  by_cases hw : w = 0#64 <;>
    simp [condSem, Val.condOk, Val.armWord, hv.typ, ha.typ, hb.typ, hv.calculable, ha.calculable,
      hb.calculable, hv.word, ha.word, hb.word, hz, hw]

end Val.U64

/-- The parameters of a compiler are 8-byte unsigned integers, under names
that stand for parameters. -/
structure PlainParams (c : Compiler) : Prop where
  names : ∀ text ∈ c.vars, text ≠ "NULL" ∧ text ≠ "true" ∧ text ≠ "false"
  types : ∀ idx < c.vars.length, ∃ t, c.btfs[idx]? = some t ∧ isU64 t = true

section Registers

variable {c : Compiler} {e : Expr} {g g' : Gen} {v : EvalValue}

/-- The values of the parameters. -/
def paramEnv (c : Compiler) (m : Word → Byte) (args : Word) (text : String) : Word :=
  argWord m args (c.vars.idxOf text)

/-- **The meaning of a register-only expression** is its value. -/
theorem evalSem_registers (hc : PlainParams c) (m : Word → Byte) (args : Word) :
    ∀ {e : Expr}, e.registerOnly c.vars = true →
      ∃ v, evalSem c m args e = .ok v ∧ v.U64 (e.value (paramEnv c m args)) := by
  intro e
  induction e with
  | name text =>
    intro h
    have hmem : text ∈ c.vars := by simpa [Expr.registerOnly] using h
    obtain ⟨hnull, htrue, hfalse⟩ := hc.names text hmem
    have hidx : c.vars.idxOf? text = some (c.vars.idxOf text) := by
      exact List.findIdx?_eq_some_of_exists ⟨text, hmem, by simp⟩
    obtain ⟨t, ht, hu⟩ := hc.types _ (List.idxOf_lt_length_of_mem hmem)
    refine ⟨⟨.regBtf, argWord m args (c.vars.idxOf text), "", some t, none⟩, ?_, rfl, rfl, t, rfl, hu⟩
    simp [evalSem, nameValue, hnull, htrue, hfalse, hidx, ht]
  | un op left ih =>
    intro h
    cases op <;> simp only [Expr.registerOnly, Bool.false_eq_true] at h
    case paren =>
      obtain ⟨v, hv, hu⟩ := ih h
      refine ⟨v, ?_, hu⟩
      simp only [evalSem, hv]
      rfl
    case not =>
      obtain ⟨v, hv, hu⟩ := ih h
      simp only [evalSem, hv]
      exact hu.not
    case twid =>
      obtain ⟨v, hv, hu⟩ := ih h
      simp only [evalSem, hv]
      exact hu.twid
  | bin op left right ihl ihr =>
    intro h
    simp only [Expr.registerOnly, Bool.and_eq_true, decide_eq_true_eq] at h
    obtain ⟨a, ha, hau⟩ := ihl h.1.2
    obtain ⟨b, hb, hbu⟩ := ihr h.2
    simp only [evalSem, ha, hb]
    exact hau.binSem c.heap h.1.1 hbu
  | cond e left right ihe ihl ihr =>
    intro h
    simp only [Expr.registerOnly, Bool.and_eq_true] at h
    obtain ⟨v, hv, hvu⟩ := ihe h.1.1
    obtain ⟨a, ha, hau⟩ := ihl h.1.2
    obtain ⟨b, hb, hbu⟩ := ihr h.2
    simp only [evalSem, hv, ha, hb]
    exact hvu.cond hau hbu rfl
  | _ => intro h; simp only [Expr.registerOnly, Bool.false_eq_true] at h

theorem readFree_of_registerOnly {params : List String} :
    ∀ {e : Expr}, e.registerOnly params = true → e.readFree = true := by
  intro e
  induction e with
  | un op left ih =>
    intro h
    cases op <;> simp only [Expr.registerOnly, Bool.false_eq_true] at h <;> exact ih h
  | bin op left right ihl ihr =>
    intro h
    simp only [Expr.registerOnly, Bool.and_eq_true] at h
    simp only [Expr.readFree, ihl h.1.2, ihr h.2, Bool.and_self]
  | cond e left right ihe ihl ihr =>
    intro h
    simp only [Expr.registerOnly, Bool.and_eq_true] at h
    simp only [Expr.readFree, ihe h.1.1, ihl h.1.2, ihr h.2, Bool.and_self]
  | name text => intro _; rfl
  | _ => intro h; simp only [Expr.registerOnly, Bool.false_eq_true] at h

/-- Some machine on which a compiler's code runs. -/
def someKernel (c : Compiler) : Kernel :=
  { mem := fun _ => 0, clobber := fun _ _ => 0, fastcall := c.rdonlyCastFastcall }

/-- A register-only expression compiles to a register. -/
theorem typ_of_registerOnly (hc : PlainParams c) (he : e.registerOnly c.vars = true)
    (h : eval c e g = .ok (v, g')) (hsafe : ∀ t ∈ evalSites c e g, t.Safe c) : v.typ = .regBtf := by
  obtain ⟨frag, -, -, -, hrun⟩ := ((compile_ok c e).2 g v g' h hsafe).code
  have hrun' := hrun (someKernel c) ⟨fun _ => 0, fun _ => 0, fun _ => 0, 0⟩ rfl
  obtain ⟨val, hval, hu⟩ := evalSem_registers hc (someKernel c).mem 0 he
  rw [hval] at hrun'
  obtain ⟨s', -, -, -, hv⟩ := hrun'
  rw [← hu.typ, hv, at_typ]

/-- Its sites are safe. -/
theorem sites_registers (hc : PlainParams c) :
    ∀ {e : Expr} {g g' : Gen} {v : EvalValue}, e.registerOnly c.vars = true →
      eval c e g = .ok (v, g') → ∀ t ∈ evalSites c e g, t.Safe c := by
  intro e
  induction e with
  | name text =>
    intro g g' v _ _ t ht
    simp [evalSites] at ht
  | un op left ih =>
    intro g g' v he h t ht
    cases op <;> simp only [Expr.registerOnly, Bool.false_eq_true] at he
    case paren =>
      simp only [eval] at h
      exact ih he h t ht
    case not =>
      simp only [eval, bind_eq_ok, wrapping_eq_ok] at h
      obtain ⟨u, g₁, hu, -⟩ := h
      exact ih he hu t ht
    case twid =>
      simp only [eval, bind_eq_ok, wrapping_eq_ok] at h
      obtain ⟨u, g₁, hu, -⟩ := h
      exact ih he hu t ht
  | bin op left right ihl ihr =>
    intro g g' v he h t ht
    simp only [Expr.registerOnly, Bool.and_eq_true] at he
    simp only [eval, bind_eq_ok, wrapping_eq_ok] at h
    obtain ⟨l, g₁, hl, r, g₂, hr, -⟩ := h
    simp only [evalSites, sitesAfter, hl] at ht
    rcases List.mem_append.mp ht with ht | ht
    · exact ihl he.1.2 hl t ht
    · exact ihr he.2 hr t ht
  | cond e left right ihe ihl ihr =>
    intro g g' w he h t ht
    simp only [Expr.registerOnly, Bool.and_eq_true] at he
    simp only [eval, bind_eq_ok, wrapping_eq_ok] at h
    obtain ⟨v, g₁, hv, l, g₂, hl, r, g₃, hr, -⟩ := h
    simp only [evalSites, sitesAfter, hv, hl, hr, List.mem_append, List.mem_singleton] at ht
    rcases ht with ht | ht | ht | rfl
    · exact ihe he.1.1 hv t ht
    · exact ihl he.1.2 hl t ht
    · exact ihr he.2 hr t ht
    · -- all three operands are in registers
      exact .inr ⟨typ_of_registerOnly hc he.1.1 hv (ihe he.1.1 hv),
        .inr (typ_of_registerOnly hc he.1.2 hl (ihl he.1.2 hl)),
        .inr (typ_of_registerOnly hc he.2 hr (ihr he.2 hr))⟩
  | _ =>
    intro g g' v he
    simp only [Expr.registerOnly, Bool.false_eq_true] at he

end Registers

/-! ### Programs that write registers only -/

section QuietPrograms

variable {K K' : Kernel} {prog : List Insn}

theorem exec_op_quiet {op : Op} {s : State} (h : Quiet (op : Insn)) :
    (op.exec K s).1.stack = s.stack ∧ (op.exec K s).1.out = s.out := by
  cases op with
  | stx => exact h.elim
  | call => exact h.elim
  | callKfunc => exact h.elim
  | _ => exact ⟨rfl, rfl⟩

theorem exec_op_congr {op : Op} {s : State} (h : Quiet (op : Insn)) (hmem : K.mem = K'.mem) :
    op.exec K s = op.exec K' s := by
  cases op with
  | stx => exact h.elim
  | call => exact h.elim
  | callKfunc => exact h.elim
  | ldx => simp only [Op.exec, hmem]
  | _ => rfl

/-- Such a program leaves the stack and the record alone. -/
theorem run_quiet (h : ∀ i ∈ prog, Quiet i) : ∀ {n pc : Nat} {s s' : State},
    run K prog n pc s = some s' → s'.stack = s.stack ∧ s'.out = s.out := by
  intro n
  induction n with
  | zero =>
    intro pc s s' hrun
    simp [run] at hrun
  | succ n ih =>
    intro pc s s' hrun
    unfold run at hrun
    cases hget : prog[pc]? with
    | none => simp [hget] at hrun
    | some i =>
      have hq : Quiet i := h i (List.mem_of_getElem? hget)
      obtain ⟨hstack, hout⟩ := exec_op_quiet (K := K) (s := s) hq
      have hthen {pc' : Nat} {t : State} (ht : run K prog n pc' t = some s')
          (heq : (i.op.exec K s).1 = t) : s'.stack = s.stack ∧ s'.out = s.out := by
        obtain ⟨h₁, h₂⟩ := ih ht
        rw [← heq, hstack] at h₁
        rw [← heq, hout] at h₂
        exact ⟨h₁, h₂⟩
      simp only [hget] at hrun
      rcases hop : i.op.exec K s with ⟨t, _ | off | l | _⟩
      · simp only [hop] at hrun
        exact hthen hrun (by rw [hop])
      · simp only [hop] at hrun
        split at hrun
        · exact hthen hrun (by rw [hop])
        · simp at hrun
      · simp only [hop] at hrun
        split at hrun
        · exact hthen hrun (by rw [hop])
        · simp at hrun
      · simp only [hop, Option.some.injEq] at hrun
        rw [hop] at hstack hout
        exact hrun ▸ ⟨hstack, hout⟩

/-- Such a program depends on memory alone. -/
theorem run_congr (h : ∀ i ∈ prog, Quiet i) (hmem : K.mem = K'.mem) :
    ∀ (n pc : Nat) (s : State), run K prog n pc s = run K' prog n pc s := by
  intro n
  induction n with
  | zero => intro pc s; rfl
  | succ n ih =>
    intro pc s
    unfold run
    cases hget : prog[pc]? with
    | none => rfl
    | some i =>
      have hq : Quiet i := h i (List.mem_of_getElem? hget)
      simp only [exec_op_congr (s := s) hq hmem, ih]

end QuietPrograms

theorem quiet_markLast {l : String} : ∀ {is : List Insn}, (∀ i ∈ is, Quiet i) →
    ∀ i ∈ markLast l is, Quiet i
  | [], _, i, hi => by simp [markLast] at hi
  | [j], h, i, hi => by
      have hj : Quiet j := h j (by simp)
      rw [markLast, List.mem_singleton] at hi
      rw [hi]
      exact hj
  | j :: k :: is, h, i, hi => by
      rcases List.mem_cons.mp hi with rfl | hi
      · exact h i (by simp)
      · exact quiet_markLast (fun i hi => h i (List.mem_cons_of_mem j hi)) i hi

/-- A filter that reads no memory but the arguments writes none. -/
theorem filter_quiet {c : Compiler} {text : String} {e : Expr} {g : Gen} {u : Unit}
    (h : compile c text e filterGen = .ok (u, g)) (hsafe : ∀ t ∈ evalSites c e filterGen, t.Safe c)
    (he : e.readFree = true) : ∀ i ∈ g.program, Quiet i := by
  obtain ⟨v, g₁, htop, heval, hv, hprog⟩ := compile_inv h
  obtain ⟨frag, hins, -, hquiet, -⟩ := ((compile_ok c e).2 filterGen v g₁ heval hsafe).code
  have hbody : ∀ i ∈ g₁.insns, Quiet i := by
    intro i hi
    rw [hins] at hi
    rcases List.mem_append.mp hi with hi | hi
    · rw [List.mem_singleton.mp hi]
      trivial
    · exact hquiet he i hi
  intro i hi
  rw [hprog] at hi
  rcases List.mem_append.mp hi with hi | hi
  · split at hi
    · exact quiet_markLast hbody i hi
    · exact hbody i hi
  · unfold resultCode at hi
    split at hi <;> simp at hi
    · rcases hi with rfl | rfl <;> trivial
    · rw [hi]
      trivial

/-- An argument that the 16-bit displacement of the load reaches. -/
theorem argWord_eq {m : Word → Byte} {args : Word} {idx : Nat} (h : idx < 4096) :
    argWord m args idx = loadLE m (args + BitVec.ofNat 64 (8 * idx)) 8 := by
  have hnat : (BitVec.ofNat 64 (idx * 8)).toInt = idx * 8 := by
    rw [BitVec.toInt_eq_toNat_cond, BitVec.toNat_ofNat]
    split <;> omega
  have hfits : (int16 (BitVec.ofNat 64 (idx * 8))).signExtend 64 = BitVec.ofNat 64 (idx * 8) := by
    refine int16_of_fits ?_ ?_ <;> rw [hnat] <;> omega
  rw [argWord, hfits, Nat.mul_comm]

theorem newCompiler_params {opts : CompileExprOptions} {c : Compiler} (h : newCompiler opts = .ok c) :
    c.vars = opts.params.map (·.name) ∧ c.btfs = opts.params.map (·.type) := by
  obtain ⟨_, _, _, _, -, -, -, rfl⟩ := newCompiler_ok h
  exact ⟨rfl, rfl⟩

/-- **Filters over parameters are compiled correctly.** Whenever
`CompileFilterExpr` accepts a register-only expression over at most 12
parameters of 8-byte unsigned types, its program exits with the value of
the expression in `r0`, on any arguments, and writes no memory. -/
theorem filter_registers {parseExpr : String → Except GoError Expr} {opts : CompileExprOptions}
    {prog : List Insn} {e : Expr} (h : compileFilterExpr parseExpr opts = .ok prog)
    (hparse : parseExpr opts.expr = .ok e) (hlen : opts.params.length ≤ 12)
    (htypes : ∀ p ∈ opts.params, isU64 p.type = true)
    (hnames : ∀ p ∈ opts.params, p.name ≠ "NULL" ∧ p.name ≠ "true" ∧ p.name ≠ "false")
    (he : e.registerOnly (opts.params.map (·.name)) = true) (K : Kernel) (s : State) :
    ∃ s', Exits K prog s s' ∧
      s'.regs R0 = e.value (fun text => loadLE K.mem
        (s.regs R1 + BitVec.ofNat 64 (8 * (opts.params.map (·.name)).idxOf text)) 8) ∧
      s'.stack = s.stack ∧ s'.out = s.out := by
  unfold compileFilterExpr at h
  cases hc : newCompiler opts with
  | error err => simp [hc] at h
  | ok c =>
  simp only [hc, hparse] at h
  cases hg : compile c opts.expr e filterGen with
  | error err => simp [hg] at h
  | ok r =>
  obtain ⟨u, g⟩ := r
  simp only [hg, Except.ok.injEq] at h
  obtain ⟨hvars, hbtfs⟩ := newCompiler_params hc
  have hparams : PlainParams c := by
    refine ⟨fun text htext => ?_, fun idx hidx => ?_⟩
    · rw [hvars] at htext
      obtain ⟨p, hp, rfl⟩ := List.mem_map.mp htext
      exact hnames p hp
    · rw [hvars, List.length_map] at hidx
      exact ⟨opts.params[idx].type, by simp [hbtfs, hidx], htypes _ (List.getElem_mem hidx)⟩
  rw [← hvars] at he
  obtain ⟨v, g₁, -, heval, -, -⟩ := compile_inv hg
  have hsafe := sites_registers hparams he heval
  have hquiet := filter_quiet hg hsafe (readFree_of_registerOnly he)
  -- the program makes no call, so it runs the same with the kfunc of `c`
  obtain ⟨K', hK'⟩ : ∃ K' : Kernel, K' = { K with fastcall := c.rdonlyCastFastcall } := ⟨_, rfl⟩
  have hruns := filter_runs hg hsafe K' (by rw [hK']) s
  obtain ⟨val, hval, hu⟩ := evalSem_registers hparams K'.mem (s.regs R1) he
  rw [hval] at hruns
  obtain ⟨s', ⟨n, hn⟩, hr0, -⟩ := hruns
  have hmem : K.mem = K'.mem := by rw [hK']
  rw [← run_congr hquiet hmem] at hn
  have hprog : prog = g.program := h.symm
  refine ⟨s', ⟨n, hprog ▸ hn⟩, ?_, run_quiet hquiet hn⟩
  have henv : paramEnv c K'.mem (s.regs R1) = fun text => loadLE K.mem
      (s.regs R1 + BitVec.ofNat 64 (8 * (opts.params.map (·.name)).idxOf text)) 8 := by
    funext text
    have hle : (opts.params.map (·.name)).idxOf text ≤ 12 := by
      refine Nat.le_trans List.idxOf_le_length ?_
      simpa using hlen
    rw [paramEnv, hvars, argWord_eq (by omega), hmem]
  rw [hr0, hu.word, henv]

/-- `a + b > a`, over two parameters of type `u64`. -/
def overflowOptions : CompileExprOptions :=
  { expr := "a + b > a"
    params := [⟨"a", .int "u64" 8 .unsigned⟩, ⟨"b", .int "u64" 8 .unsigned⟩]
    spec := some (Compiler.empty .probeRead).btfSpec
    kernel := some (Compiler.empty .probeRead).krnlSpec
    labelExit := "exit"
    reservedStack := 0
    usedRegisters := []
    memoryReadMode := .probeRead
    memoryReadForce := false
    heap := (Compiler.empty .probeRead).heap }

def overflowExpr : Expr := .bin .gt (.bin .add (.name "a") (.name "b")) (.name "a")

theorem overflow_filter : ∃ prog,
    compileFilterExpr (fun _ => .ok overflowExpr) overflowOptions = .ok prog ∧
      ∀ K s, ∃ s', Exits K prog s s' ∧
        s'.regs R0 = overflowExpr.value (fun text => loadLE K.mem
          (s.regs R1 + BitVec.ofNat 64 (8 * (overflowOptions.params.map (·.name)).idxOf text)) 8) ∧
        s'.stack = s.stack ∧ s'.out = s.out :=
  ⟨_, rfl, @filter_registers (fun _ => .ok overflowExpr) overflowOptions _ overflowExpr rfl rfl
    (by decide) (by decide) (by decide) (by decide)⟩

end Bpfsnoop.CC
