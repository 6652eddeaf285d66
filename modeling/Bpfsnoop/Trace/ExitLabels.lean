/-
Bpfsnoop.Trace.ExitLabels — the jumps in filters and output arguments are
closed.

`writeResult` adds code of its own to that of an expression: reads of
strings and numbers, and the exception byte with the exit label in front
of it. `writeResult_label`: if the evaluated expression says that it used
the label whenever it did, the label is defined once, behind all jumps to
it. `generated_code_closed_iff` collects what holds of both compilers.
-/
import Bpfsnoop.CC.ExitLabel
import Bpfsnoop.CC.NullExit
import Bpfsnoop.Trace.OutputArg

namespace Bpfsnoop.Trace

open Ebpf Btf Reg CC

/-! ## The code behind an expression -/

/-- Code in which only the label is jumped to, and that only if `used`. -/
structure Closed (label : String) (used : Bool) (code : List Insn) : Prop where
  inside : jumpsInside (code.map (·.op))
  unmarked : Unmarked code
  label : References label code → used = true

section Closed

variable {label : String} {used : Bool} {a b : List Insn}

theorem Closed.append (ha : Closed label used a) (hb : Closed label used b) :
    Closed label used (a ++ b) where
  inside := by
    rw [List.map_append, jumpsInside_iff]
    exact ((jumpsInside_iff _).mp ha.inside).append ((jumpsInside_iff _).mp hb.inside)
  unmarked := ha.unmarked.append hb.unmarked
  label := by
    intro h
    rw [references_iff, labels_append, List.mem_append, ← references_iff, ← references_iff] at h
    exact h.elim ha.label hb.label

theorem Closed.mono {used' : Bool} (h : Closed label used a) (hu : used = true → used' = true) :
    Closed label used' a :=
  ⟨h.inside, h.unmarked, fun hr => hu (h.label hr)⟩

/-- Plain instructions: `h` is decided by evaluation. -/
theorem Closed.of_plain (hinside : jumpsInside (a.map (·.op))) (h : plain a) :
    Closed label used a := by
  simp only [plain, List.all_eq_true, Bool.and_eq_true, Option.isNone_iff_eq_none] at h
  refine ⟨hinside, fun i hi => (h i hi).1, ?_⟩
  rintro ⟨i, hi, hl⟩
  rw [(h i hi).2] at hl
  cases hl

theorem closed_moveToR3 (reg : Reg) : Closed label used (moveToR3 reg) := by
  unfold moveToR3
  split <;> exact .of_plain rfl rfl

theorem closed_readToBuff (fn : Helper) (offset size : Word) :
    Closed label used (readToBuff fn offset size) := by
  unfold readToBuff
  split <;> exact .of_plain rfl rfl

/-- The test for NULL. -/
theorem closed_test (reg : Reg) : Closed label true [(Asm.jeqImm reg 0 label : Insn)] :=
  ⟨rfl, by simp [Unmarked], fun _ => rfl⟩

theorem closed_deref (res : EvalResult) (offset size : Word) :
    Closed label true (genDerefInsns res offset size label).1 :=
  ((closed_test res.reg).append (closed_moveToR3 res.reg)).append (closed_readToBuff _ offset size)

theorem closed_buf (res : EvalResult) (offset : Word) :
    Closed label true (genBufInsns res offset label).1 := by
  have hoff : Closed label true
      (if res.off ≠ 0 then [(Asm.addImm res.reg (int32 res.off) : Insn)] else []) := by
    split <;> exact .of_plain rfl rfl
  exact (((closed_test res.reg).append hoff).append (closed_moveToR3 res.reg)).append
    (closed_readToBuff _ offset res.size)

/-- What `genDefaultInsns` emits, and that it keeps the record of `res`. -/
theorem closed_default {isCharArray : BtfType → Bool} {arg : FuncArgumentOutput} {res : EvalResult}
    {btf : BtfType} {offset : Word} {size : Nat} {gen : Generated}
    (h : genDefaultInsns isCharArray arg res btf offset size label = .ok gen) :
    Closed label gen.labelUsed gen.insns ∧ (res.labelUsed = true → gen.labelUsed = true) := by
  unfold genDefaultInsns at h
  split at h
  · split at h
    · simp at h
    simp only at h
    have hstore : Closed label res.labelUsed
        [(Asm.storeMem outputArgRegBuff (int16 offset) res.reg .dword : Insn)] := .of_plain rfl rfl
    split at h
    · simp only [Except.ok.injEq] at h
      subst h
      refine ⟨(hstore.append (closed_moveToR3 res.reg)).append (.of_plain ?_ rfl), id⟩
      -- the jump over the read goes to the last instruction
      simp [readNumber, jumpsInside, Op.displacement?]
    · simp only [Except.ok.injEq] at h
      subst h
      exact ⟨hstore, id⟩
  · have hread (strSize : Word) (used : Bool) : Closed label used
        (moveToR3 res.reg ++ readToBuff .probeReadKernelStr offset strSize) :=
      (closed_moveToR3 res.reg).append (closed_readToBuff _ offset strSize)
    split at h
    · split at h
      · simp only [Except.ok.injEq] at h
        subst h
        exact ⟨hread _ _, id⟩
      · simp at h
    · simp only [Except.ok.injEq] at h
      subst h
      exact ⟨(closed_test res.reg).append (hread _ true), fun _ => rfl⟩

theorem closed_genInsns {isCharArray : BtfType → Bool} {arg : FuncArgumentOutput} {res : EvalResult}
    {btf : BtfType} {offset : Word} {size : Nat} {gen : Generated}
    (h : genInsnsOf isCharArray arg res btf offset size label = .ok gen) :
    Closed label gen.labelUsed gen.insns ∧ (res.labelUsed = true → gen.labelUsed = true) := by
  unfold genInsnsOf at h
  split at h
  · simp only [Except.ok.injEq] at h
    subst h
    exact ⟨closed_deref res offset _, fun _ => rfl⟩
  all_goals first
    | exact closed_default h
    | simp only [Except.ok.injEq] at h
      subst h
      exact ⟨closed_buf res offset, fun _ => rfl⟩

/-! ## The exception byte -/

/-- The exception byte closes the code in front of it. -/
theorem exceptionCode_closes (offset : Word) (h : Closed label used a) :
    jumpsInside ((a ++ exceptionCode offset label used).map (·.op)) ∧
      (References label (a ++ exceptionCode offset label used) →
        LabelDefined label (a ++ exceptionCode offset label used)) := by
  constructor
  · rw [List.map_append, jumpsInside_iff]
    refine ((jumpsInside_iff _).mp h.inside).append ((jumpsInside_iff _).mp ?_)
    unfold exceptionCode
    split <;> rfl
  · intro href
    cases used with
    | true =>
      refine ⟨a ++ [(Asm.movImm R0 0 : Insn), (ja 1 : Insn)],
        (Asm.movImm R0 1 : Insn).withSymbol label,
        [(Asm.storeMem outputArgRegBuff (int16 offset) R0 .byte : Insn)], ?_, rfl, fun j hj => ?_,
        fun j hj => ?_⟩
      · simp [exceptionCode]
      · simp only [List.append_assoc, List.mem_append, List.mem_cons, List.not_mem_nil, or_false] at hj
        rcases hj with hj | (rfl | rfl) | rfl
        · rw [h.unmarked j hj]
          exact nofun
        all_goals exact nofun
      · simp only [List.mem_cons, List.not_mem_nil, or_false] at hj
        rcases hj with rfl | rfl <;> exact nofun
    | false =>
      rw [references_iff, labels_append, List.mem_append, ← references_iff] at href
      rcases href with href | href
      · cases h.label href
      · simp [exceptionCode, CC.Asm.movImm, labels, Op.label?] at href

end Closed

/-- **An output argument closes its code**, if the record of the
evaluated expression is right. -/
theorem writeResult_closed {isConstCharPtr isCharArray : BtfType → Bool} {heap : Heap}
    {arg arg' : FuncArgumentOutput} {res : EvalResult} {offset offset' : Word} {label : String}
    (hres : Closed label res.labelUsed res.insns)
    (h : writeResult isConstCharPtr isCharArray heap arg res offset label = .ok (arg', offset')) :
    JumpsInside (arg'.insn.map (·.op)) ∧
      (References label arg'.insn → LabelDefined label arg'.insn) := by
  obtain ⟨btf, size, gen, -, -, hgen, rfl, -⟩ := writeResult_ok _ _ _ h
  obtain ⟨hcode, hkeeps⟩ := closed_genInsns hgen
  obtain ⟨hinside, hlabel⟩ := exceptionCode_closes gen.offset ((hres.mono hkeeps).append hcode)
  exact ⟨(jumpsInside_iff _).mp hinside, hlabel⟩

/-! ## Both compilers -/

/-- The operands of a compilation: the compiler and the syntax tree. -/
structure Compiles (parseExpr : String → Except GoError Expr) (opts : CompileExprOptions)
    (c : Compiler) (e : Expr) : Prop where
  compiler : newCompiler opts = .ok c
  parse : parseExpr opts.expr = .ok e

section Compilers

variable {parseExpr : String → Except GoError Expr} {opts : CompileExprOptions} {c : Compiler} {e : Expr}

theorem filter_closed_iff (hc : Compiles parseExpr opts c e) {prog : List Insn}
    (h : compileFilterExpr parseExpr opts = .ok prog) :
    Assembled c.heap (prog.map (·.op)) ∧
      ((References opts.labelExit prog → LabelDefined opts.labelExit prog) ↔ ExitsRecorded c e) := by
  obtain ⟨hlabel, -⟩ := newCompiler_options hc.compiler
  simp only [compileFilterExpr, hc.compiler, hc.parse] at h
  split at h
  · simp at h
  rename_i g hg
  simp only [Except.ok.injEq] at h
  subst h
  rw [← hlabel]
  exact ⟨compile_assembled hg, compile_label_iff hg⟩

theorem compileEvalExpr_eq (hc : Compiles parseExpr opts c e) :
    compileEvalExpr parseExpr opts = compileEval c opts e := by
  simp only [compileEvalExpr, hc.compiler, hc.parse]

theorem eval_closed_iff (hc : Compiles parseExpr opts c e) {call : FuncCallValue} {fnName : String}
    {res : EvalResult} (hcall : evaluating e = .ok (call, fnName))
    (h : compileEvalExpr parseExpr opts = .ok res) :
    Assembled c.heap (res.insns.map (·.op)) ∧
      ((References opts.labelExit res.insns → res.labelUsed = true) ↔ ExitsRecorded c call.expr) := by
  obtain ⟨hlabel, -⟩ := newCompiler_options hc.compiler
  rw [compileEvalExpr_eq hc] at h
  rw [← hlabel]
  obtain ⟨call', fnName', hcall', hasm, -⟩ := compileEval_emits h
  exact ⟨hasm, compileEval_label_iff h hcall⟩

/-- The compilers of a successful `CompileEvalExpr`. -/
theorem compileEvalExpr_inv {res : EvalResult} (h : compileEvalExpr parseExpr opts = .ok res) :
    ∃ c e call fnName, Compiles parseExpr opts c e ∧ evaluating e = .ok (call, fnName) := by
  unfold compileEvalExpr at h
  split at h
  · simp at h
  rename_i c hc
  split at h
  · simp at h
  rename_i e he
  obtain ⟨call, fnName, hcall, -⟩ := compileEval_emits h
  exact ⟨c, e, call, fnName, ⟨hc, he⟩, hcall⟩

theorem evalResult_closed (hc : Compiles parseExpr opts c e) {call : FuncCallValue} {fnName : String}
    {res : EvalResult} (hcall : evaluating e = .ok (call, fnName)) (hrec : ExitsRecorded c call.expr)
    (h : compileEvalExpr parseExpr opts = .ok res) : Closed opts.labelExit res.labelUsed res.insns where
  inside := (jumpsInside_iff _).mpr (eval_closed_iff hc hcall h).1.inside
  unmarked := by
    rw [compileEvalExpr_eq hc] at h
    obtain ⟨_, _, -, -, hun, -⟩ := compileEval_emits h
    exact hun
  label := (eval_closed_iff hc hcall h).2.mpr hrec

theorem readMode_ne_direct (force : Bool) (spec : Spec) : readMode force spec ≠ .directRead := by
  unfold readMode
  cases force with
  | true => exact nofun
  | false => cases spec.anyTypeByName kfuncBpfRdonlyCast <;> exact nofun

/-- **`funcArgumentOutput.compile` defines its label**, whatever the
argument: it does not use direct reads. -/
theorem compile_closed {isConstCharPtr isCharArray : BtfType → Bool} {heap : Heap} {forceProbe force : Bool}
    {arg arg' : FuncArgumentOutput} {params : List FuncParam} {krnl spec : Spec} {offset offset' : Word}
    {label : String}
    (h : arg.compile parseExpr isConstCharPtr isCharArray heap forceProbe params krnl spec offset force
      label = .ok (arg', offset')) :
    JumpsInside (arg'.insn.map (·.op)) ∧
      (References label arg'.insn → LabelDefined label arg'.insn) := by
  obtain ⟨res, hres, h⟩ := compile_ok _ _ _ _ _ h
  obtain ⟨c, e, call, fnName, hc, hcall⟩ := compileEvalExpr_inv hres
  have hmode := (newCompiler_options hc.compiler).2
  have hrec : ExitsRecorded c call.expr := by
    intro hdirect
    exact absurd (hmode.symm.trans hdirect) (readMode_ne_direct forceProbe spec)
  exact writeResult_closed (evalResult_closed hc hcall hrec hres) h

end Compilers

/-- **The control flow of generated code.** The relative jumps of every
operator land in its own code or right behind it, and code is put
together from the codes of operators and straight pieces. A filter
defines the exit label behind all jumps to it, and an evaluated
expression says that it used the label, if and only if its jumps to the
label are recorded: the read mode is not direct, or no memory access goes
on behind a load. Output arguments, which have no direct reads, always
define their label. -/
theorem generated_code_closed_iff (heap : Heap) (parseExpr : String → Except GoError Expr) :
    (∀ own, OperatorCode heap own → JumpsInside own) ∧
    (∀ opts c e prog, Compiles parseExpr opts c e →
      compileFilterExpr parseExpr opts = .ok prog →
        Assembled c.heap (prog.map (·.op)) ∧
          ((References opts.labelExit prog → LabelDefined opts.labelExit prog) ↔ ExitsRecorded c e)) ∧
    (∀ opts c e call fnName res, Compiles parseExpr opts c e →
      evaluating e = .ok (call, fnName) → compileEvalExpr parseExpr opts = .ok res →
        Assembled c.heap (res.insns.map (·.op)) ∧
          ((References opts.labelExit res.insns → res.labelUsed = true) ↔
            ExitsRecorded c call.expr)) ∧
    (∀ isConstCharPtr isCharArray forceProbe params krnl spec offset force label
        (arg arg' : FuncArgumentOutput) (offset' : Word),
      arg.compile parseExpr isConstCharPtr isCharArray heap forceProbe params krnl spec offset force label
          = .ok (arg', offset') →
        JumpsInside (arg'.insn.map (·.op)) ∧
          (References label arg'.insn → LabelDefined label arg'.insn)) := by
  refine ⟨fun own => operator_inside, ?_, ?_, ?_⟩
  · intro opts c e prog hc h
    exact filter_closed_iff hc h
  · intro opts c e call fnName res hc hcall h
    exact eval_closed_iff hc hcall h
  · intros
    exact compile_closed ‹_›

/-! ### A direct read that goes on -/

/-- The parameters `u64 a, struct node *p`, in direct reads. -/
def nodeOptions : CompileExprOptions :=
  { expr := "p->next->val == 1"
    params := [⟨"a", .int "u64" 8 .unsigned⟩, ⟨"p", nodePointer⟩]
    spec := some (Compiler.empty .directRead).btfSpec
    kernel := some (Compiler.empty .directRead).krnlSpec
    labelExit := "exit"
    reservedStack := 8
    usedRegisters := []
    memoryReadMode := .directRead
    memoryReadForce := false
    heap := nodeHeap }

/-- The filter jumps to the exit label behind its first load, and nothing
carries that label. -/
theorem direct_filter_leaves_label_open : ∃ prog,
    compileFilterExpr (fun _ => .ok nextIsOne) nodeOptions = .ok prog ∧
      References "exit" prog ∧ ¬ LabelDefined "exit" prog := by
  have hok : (compile (nodeCompiler .directRead) nodeOptions.expr nextIsOne filterGen).isOk = true := by
    rfl
  obtain ⟨g, hg⟩ := exists_ok_of_isOk hok
  have hprog : compileFilterExpr (fun _ => .ok nextIsOne) nodeOptions = .ok g.program := by
    have hcompiler : newCompiler nodeOptions = .ok (nodeCompiler .directRead) := by rfl
    simp only [compileFilterExpr, hcompiler, hg, Gen.program]
  have hlost : ¬ ExitsRecorded (nodeCompiler .directRead) nextIsOne := by decide
  rw [← compile_label_iff hg] at hlost
  exact ⟨g.program, hprog, Classical.not_imp.mp hlost⟩

end Bpfsnoop.Trace
