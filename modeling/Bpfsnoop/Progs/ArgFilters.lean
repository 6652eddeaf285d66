/-
Bpfsnoop.Progs.ArgFilters — the argument filter of a tracing program.

Of the `--filter-arg` expressions the first one that names a parameter of
the function is compiled and takes the place of the stub `filter_arg`;
without one the stub is left to be cleared. `argFilter_spec` puts together
what the choice and the compiler do: which expression it is, and what the
code in the stub's place returns for every argument values and memory.
-/
import Bpfsnoop.CC.FilterTheorems
import Bpfsnoop.Trace.ParamMatch

namespace Bpfsnoop.Progs

open Ebpf Btf Reg CC Trace

/-- What an injection is made with: the kernel BTF, the BTF of the function
and the `--force-probe-read-kernel` flag. -/
structure FilterTarget where
  krnl : Spec
  spec : Spec
  params : List FuncParam
  heap : Heap
  forceProbeReadKernel : Bool

/-- The read mode: CO-RE where the kernel has `bpf_rdonly_cast`. -/
def FilterTarget.mode (t : FilterTarget) : MemoryReadMode :=
  if t.forceProbeReadKernel then .probeRead
  else
    match t.krnl.anyTypeByName kfuncBpfRdonlyCast with
    | .ok _ => .coreRead
    | .error _ => .probeRead

/-- The options that `funcArgument.inject` compiles with. -/
def FilterTarget.opts (t : FilterTarget) (arg : FuncArgument) : CompileExprOptions where
  expr := arg.expr
  params := t.params
  spec := some t.spec
  kernel := some t.krnl
  labelExit := "__label_cc_exit"
  reservedStack := 0
  usedRegisters := []
  memoryReadMode := t.mode
  memoryReadForce := false
  heap := t.heap

section Inject

variable (parseExpr : String → Except GoError Expr) (t : FilterTarget)

/-- `funcArgument.inject`, up to `injectInsns`. -/
def injectArg (arg : FuncArgument) : Except GoError (List Insn) :=
  match compileFilterExpr parseExpr (t.opts arg) with
  | .error e => .error (.wrapf "failed to compile expr '%s': %w" [.text arg.expr] e)
  | .ok insns => .ok insns

/-- The loop of `argumentFilter.inject`, from the `i`-th expression on;
`none` is `errSkipped`. -/
def injectFrom (i : Nat) : List FuncArgument → Except GoError (Option (Nat × List Insn))
  | [] => .ok none
  | arg :: args =>
    if !arg.matchParams t.params then injectFrom (i + 1) args
    else
      match injectArg parseExpr t arg with
      | .error e => .error e
      | .ok insns => .ok (some (i, insns))

/-- `argumentFilter.inject`. -/
def injectArgFilter (args : List FuncArgument) : Except GoError (Option (Nat × List Insn)) :=
  injectFrom parseExpr t 0 args

end Inject

section Spec

variable {parseExpr : String → Except GoError Expr} {t : FilterTarget}

/-- The `i`-th expression is the first that names a parameter. -/
structure FirstMatch (args : List FuncArgument) (params : List FuncParam) (i : Nat) (arg : FuncArgument) : Prop where
  at_i : args[i]? = some arg
  matches_i : arg.matchParams params = true
  before : ∀ j < i, ∀ other, args[j]? = some other → other.matchParams params = false

theorem FirstMatch.cons {args : List FuncArgument} {params : List FuncParam} {i : Nat} {arg skipped : FuncArgument}
    (h : FirstMatch args params i arg) (hskip : skipped.matchParams params = false) :
    FirstMatch (skipped :: args) params (i + 1) arg where
  at_i := h.at_i
  matches_i := h.matches_i
  before := by
    intro j hj other hother
    cases j with
    | zero =>
      simp only [List.getElem?_cons_zero, Option.some.injEq] at hother
      exact hother ▸ hskip
    | succ j => exact h.before j (by omega) other hother

/-- Which expression the loop compiles. -/
theorem injectFrom_spec (args : List FuncArgument) (i : Nat) :
    (injectFrom parseExpr t i args = .ok none ∧ ∀ arg ∈ args, arg.matchParams t.params = false) ∨
      ∃ j arg, FirstMatch args t.params j arg ∧
        injectFrom parseExpr t i args = (injectArg parseExpr t arg).map fun insns => some (i + j, insns) := by
  induction args generalizing i with
  | nil => exact .inl ⟨rfl, by simp⟩
  | cons arg args ih =>
    cases hmatch : arg.matchParams t.params with
    | false =>
      rcases ih (i + 1) with ⟨hnone, hall⟩ | ⟨j, arg', hfirst, hloop⟩
      · refine .inl ⟨by simpa [injectFrom, hmatch] using hnone, fun arg' hmem => ?_⟩
        rcases List.mem_cons.mp hmem with rfl | hmem
        · exact hmatch
        · exact hall arg' hmem
      · refine .inr ⟨j + 1, arg', hfirst.cons hmatch, ?_⟩
        simpa [injectFrom, hmatch, Nat.add_assoc, Nat.add_comm 1 j] using hloop
    | true =>
      refine .inr ⟨0, arg, ⟨rfl, hmatch, fun j hj => absurd hj (Nat.not_lt_zero j)⟩, ?_⟩
      simp only [injectFrom, hmatch, Bool.not_true, Bool.false_eq_true, if_false]
      cases injectArg parseExpr t arg <;> rfl

/-- The mode is none of direct reads: a NULL leaves for the exit label. -/
theorem FilterTarget.mode_ne (t : FilterTarget) : t.mode ≠ .directRead := by
  unfold FilterTarget.mode
  split
  · simp
  · split <;> simp

/-- What `insns` return for the filter `e`: the value of the expression, with
the operators as the emitted code has them, or what its top operator leaves
at a NULL. -/
def Filters (c : Compiler) (e : Expr) (insns : List Insn) : Prop :=
  ∀ K : Kernel, K.fastcall = c.rdonlyCastFastcall → ∀ s : State,
    (∃ val s', evalSem c K.mem (s.regs R1) e = .ok val ∧ Exits K insns s s' ∧ s'.regs R0 = val.word ∧ s'.out = s.out) ∨
    (∃ s', evalSem c K.mem (s.regs R1) e = .error .exit ∧ Exits K insns s s' ∧
      s'.regs R0 = (if leavesHigh c e filterGen then 1 else 0) ∧ s'.out = s.out)

/-- What is put in the place of the stub computes the expression, where the
memory reads keep the registers in use. -/
theorem injectArg_filters {arg : FuncArgument} {insns : List Insn} (hinject : injectArg parseExpr t arg = .ok insns) :
    ∃ c e, newCompiler (t.opts arg) = .ok c ∧ parseExpr arg.expr = .ok e ∧
      ((∀ site ∈ evalSites c e filterGen, site.Safe c) → Filters c e insns) := by
  unfold injectArg compileFilterExpr at hinject
  cases hc : newCompiler (t.opts arg) with
  | error err => simp [hc] at hinject
  | ok c =>
    cases he : parseExpr (t.opts arg).expr with
    | error err => simp [hc, he] at hinject
    | ok e =>
      cases hg : compile c (t.opts arg).expr e filterGen with
      | error err => simp [hc, he, hg] at hinject
      | ok r =>
        obtain ⟨u, g⟩ := r
        simp only [hc, he, hg, Except.ok.injEq] at hinject
        subst hinject
        refine ⟨c, e, rfl, he, fun hsafe K hK s => ?_⟩
        have hmode : c.memMode ≠ .directRead := by
          obtain ⟨_, _, _, _, _, _, _, rfl⟩ := newCompiler_ok hc
          exact t.mode_ne
        have hruns := filter_runs hg hsafe K hK s
        cases hsem : evalSem c K.mem (s.regs R1) e with
        | ok val =>
          rw [hsem] at hruns
          obtain ⟨s', hexits, hval, hout⟩ := hruns
          exact .inl ⟨val, s', rfl, hexits, hval, hout⟩
        | error stop =>
          rw [hsem] at hruns
          cases stop with
          | undefined => exact hruns.elim
          | exit =>
            obtain ⟨s', hexits, hval, hout⟩ := hruns hmode
            exact .inr ⟨s', rfl, hexits, hval, hout⟩

/-- **The filter of a function.** The stub is left alone exactly if no
expression names a parameter; else the first one that does is compiled, and
what takes the place of the stub returns what the emitted operators make of
that expression, for every argument values and every memory. -/
theorem argFilter_spec (parseExpr : String → Except GoError Expr) (t : FilterTarget) (args : List FuncArgument) :
    match injectArgFilter parseExpr t args with
    | .ok none => ∀ arg ∈ args, arg.matchParams t.params = false
    | .ok (some (i, insns)) => ∃ arg c e, FirstMatch args t.params i arg ∧ newCompiler (t.opts arg) = .ok c ∧
        parseExpr arg.expr = .ok e ∧ ((∀ site ∈ evalSites c e filterGen, site.Safe c) → Filters c e insns)
    | .error err => ∃ i arg, FirstMatch args t.params i arg ∧ injectArg parseExpr t arg = .error err := by
  unfold injectArgFilter
  rcases @injectFrom_spec parseExpr t args 0 with ⟨hnone, hall⟩ | ⟨i, arg, hfirst, hloop⟩
  · rw [hnone]
    exact hall
  · rw [hloop]
    cases hinject : injectArg parseExpr t arg with
    | error err => exact ⟨i, arg, hfirst, hinject⟩
    | ok insns =>
      obtain ⟨c, e, hc, he, hfilters⟩ := injectArg_filters hinject
      simp only [Except.map, Nat.zero_add]
      exact ⟨arg, c, e, hfirst, hc, he, hfilters⟩

end Spec

end Bpfsnoop.Progs
