/-
Bpfsnoop.Progs.FilteredRuns — the argument filter, from its text to the
events of a function.

The entry handler asks `filter(args, session_id)` first, and leaves without
session and record where it is refused; the exit handler asks nothing, but
finds a session only where the entry handler stored one. So in every
interleaving of the handlers, also where an element of the session map is
used again too early, both events of an invocation tell that the filter took
it, and with `Progs.ArgFilters` that the emitted code accepts its arguments
(`filtered_runs`).
-/
import Bpfsnoop.Progs.ArgFilters
import Bpfsnoop.Trace.Pipeline

namespace Bpfsnoop.Progs

open Ebpf Btf Reg CC Lib Trace Trace.EventLoop

/-! ## The system with a filter -/

section Machine

variable {ι ε : Type} [DecidableEq ι] [DecidableEq ε]

/-- One step of the system, where an entry handler stores its session and
submits its record only if the filter takes the invocation. Every step of a
handler may come, also one that takes an element which an exit handler is
still to read. -/
inductive FilteredStep (v : Variant) (inv : ι → Invocation) (pass : ι → Prop) : System ι ε → System ι ε → Prop where
  | handler {s a kernel} (hstep : Step v inv s.kernel a kernel)
      (hentered : ∀ i, exitsOf a = some i → s.entered i = true) (hpass : ∀ i e, a = .store i e → pass i) :
      FilteredStep v inv pass s { s with kernel := kernel, log := s.log ++ logged kernel a }
  | enter {s i} (hphase : s.kernel.phase i = .running) (hfirst : s.entered i = false) (hpass : pass i) :
      FilteredStep v inv pass s { s with entered := Function.update s.entered i true, log := s.log ++ [.entry i] }
  | skip {s i} (hphase : s.kernel.phase i = .running) (hfirst : s.entered i = false) :
      FilteredStep v inv pass s { s with entered := Function.update s.entered i true }
  | other {s} (r : EventLoop.Record) : FilteredStep v inv pass s { s with log := s.log ++ [.other r] }

end Machine

/-! ## What the filter took -/

section Taken

variable {ι ε : Type} {v : Variant} {inv : ι → Invocation} {pass : ι → Prop} {k k' : TraceState ι ε} {i : ι}

/-- An invocation in this phase, with or without a session, was taken. -/
def TakenIn (pass : Prop) (session : Bool) : Phase ε → Prop
  | .idle => True
  | .running => session = true → pass
  | .exiting .. => pass
  | .done event => event.isSome = true → pass

/-- The sessions and the exits under way are those of invocations that the
filter took. -/
structure Taken (inv : ι → Invocation) (pass : ι → Prop) (k : TraceState ι ε) : Prop where
  phases : ∀ i, TakenIn (pass i) (k.map.table (inv i).fp).isSome (k.phase i)
  held : Held inv k

namespace Taken

theorem init (value : ε → Nat → Word) : Taken inv pass (TraceState.init value : TraceState ι ε) where
  phases _ := trivial
  held := .init value

/-- No session is new. -/
theorem mono {p : Phase ε} {session session' : Bool} (h : TakenIn (pass i) session p)
    (hsession : p = .running → session' = true → session = true) : TakenIn (pass i) session' p := by
  cases p with
  | running => exact fun hsome => h (hsession rfl hsome)
  | _ => exact h

variable [DecidableEq ι]

/-- A step of `i` that leaves the map alone. -/
theorem goto (h : Taken inv pass k) {p : Phase ε} (hheld : Held inv (k.goto i p))
    (hp : TakenIn (pass i) (k.map.table (inv i).fp).isSome p) : Taken inv pass (k.goto i p) where
  phases j := by
    simp only [TraceState.goto, Function.update_apply]
    split
    · rename_i hji
      rw [hji]
      exact hp
    · exact h.phases j
  held := hheld

/-- **One step** of a handler. -/
theorem handler [DecidableEq ε] (h : Taken inv pass k) {a : Action ι ε} (hstep : Step v inv k a k')
    (hpass : ∀ i e, a = .store i e → pass i) : Taken inv pass k' := by
  have hheld := h.held.step hstep
  have hphases (i : ι) := h.phases i
  cases hstep with
  | refuse hphase hunused =>
    refine h.goto hheld fun hsome => ?_
    rw [h.held.none_of_unused hunused] at hsome
    cases hsome
  | @store j e hphase hunused hfree =>
    refine ⟨fun i => ?_, hheld⟩
    simp only [TraceState.store, Function.update_apply]
    split
    · rename_i hij
      exact fun _ => hpass i e (by rw [hij])
    · refine mono (hphases i) fun hrun hsome => ?_
      rwa [ElementMap.table_update_of_ne hfree] at hsome
      intro hfp
      have hactive := hunused i hfp
      rw [hrun] at hactive
      cases hactive
  | miss => exact h.goto hheld fun hsome => by cases hsome
  | @hit j e hphase hhit =>
    have hj := hphases j
    rw [hphase, hhit] at hj
    exact h.goto hheld (hj rfl)
  | @read j e deleted copied hphase =>
    have hj := hphases j
    rw [hphase] at hj
    exact h.goto hheld hj
  | @delete j e copied hphase =>
    have hj := hphases j
    rw [hphase] at hj
    refine ⟨fun i => ?_, hheld⟩
    simp only [TraceState.delete, Function.update_apply]
    split
    · rename_i hij
      rw [hij]
      exact hj
    · refine mono (hphases i) fun _ hsome => ?_
      by_cases hfp : (inv i).fp = (inv j).fp
      · rw [hfp, ElementMap.table_delete_self] at hsome
        cases hsome
      · rwa [ElementMap.table_delete_of_ne hfp] at hsome
  | @submit j e copied hphase =>
    have hj := hphases j
    rw [hphase] at hj
    exact h.goto hheld fun _ => hj
  | lose => exact h.goto hheld fun hsome => by cases hsome

end Taken

/-- The records too are those of invocations that the filter took. -/
structure TakenLog (inv : ι → Invocation) (pass : ι → Prop) (s : System ι ε) : Prop where
  kernel : Taken inv pass s.kernel
  entries : ∀ i, .entry i ∈ s.log → pass i
  exits : ∀ i event, .exit i event ∈ s.log → pass i

theorem TakenLog.init (value : ε → Nat → Word) : TakenLog inv pass (System.init value : System ι ε) where
  kernel := .init value
  entries _ h := by cases h
  exits _ _ h := by cases h

variable [DecidableEq ι] [DecidableEq ε] {s t : System ι ε}

theorem TakenLog.step (h : TakenLog inv pass s) (hstep : FilteredStep v inv pass s t) : TakenLog inv pass t := by
  cases hstep with
  | handler hstep _ hpass =>
    have hkernel := h.kernel.handler hstep hpass
    refine ⟨hkernel, fun i hmem => ?_, fun i event hmem => ?_⟩ <;> rcases List.mem_append.mp hmem with hmem | hmem
    · exact h.entries i hmem
    · obtain ⟨_, _, -, -, heq⟩ := mem_logged hmem
      cases heq
    · exact h.exits i event hmem
    · -- the exit handler is done with an event
      obtain ⟨_, _, -, hdone, heq⟩ := mem_logged hmem
      cases heq
      have hi := hkernel.phases i
      rw [hdone] at hi
      exact hi rfl
  | enter _ _ hpass =>
    refine ⟨h.kernel, fun j hmem => ?_, fun j event hmem => ?_⟩ <;> rcases List.mem_append.mp hmem with hmem | hmem
    · exact h.entries j hmem
    · rw [List.mem_singleton, LogEntry.entry.injEq] at hmem
      exact hmem ▸ hpass
    · exact h.exits j event hmem
    · simp at hmem
  | skip => exact ⟨h.kernel, h.entries, h.exits⟩
  | other r =>
    refine ⟨h.kernel, fun j hmem => ?_, fun j event hmem => ?_⟩ <;> rcases List.mem_append.mp hmem with hmem | hmem
    · exact h.entries j hmem
    · simp at hmem
    · exact h.exits j event hmem
    · simp at hmem

/-- Every run. -/
theorem TakenLog.of_run {value : ε → Nat → Word}
    (h : Relation.ReflTransGen (FilteredStep v inv pass) (System.init value) s) : TakenLog inv pass s :=
  reachable_invariant (TakenLog.init value) (fun _ _ hu hstep => hu.step hstep) h

/-- A record of an invocation tells that the filter took it. -/
theorem pass_of_logged {value : ε → Nat → Word}
    (hrun : Relation.ReflTransGen (FilteredStep v inv pass) (System.init value) s)
    (hlogged : .entry i ∈ s.log ∨ ∃ event, .exit i event ∈ s.log) : pass i := by
  have htaken := TakenLog.of_run hrun
  rcases hlogged with hentry | ⟨event, hexit⟩
  · exact htaken.entries i hentry
  · exact htaken.exits i event hexit

end Taken

/-! ## The expression -/

/-- A call of `filter_arg`: the kernel, and the registers with the arguments
behind `r1`. -/
structure FilterCall where
  kernel : Kernel
  state : State

/-- `filter_arg` returns true: its calls were cleared (`clearFilterArgSubprog`
leaves 1 in their place), or the code in the stub's place returns something
else than 0. -/
def ArgTaken (injected : Option (Nat × List Insn)) (call : FilterCall) : Prop :=
  match injected with
  | none => True
  | some (_, insns) => ∃ s', Exits call.kernel insns call.state s' ∧ s'.regs R0 ≠ 0

/-- The expression is true of the arguments, with the values that the emitted
code gives its operators (`evalSem`), or it met a NULL under an operator that
leaves 1 there. -/
def Accepts (c : Compiler) (e : Expr) (call : FilterCall) : Prop :=
  (∃ val, evalSem c call.kernel.mem (call.state.regs R1) e = .ok val ∧ val.word ≠ 0) ∨
    evalSem c call.kernel.mem (call.state.regs R1) e = .error .exit ∧ leavesHigh c e filterGen = true

theorem accepts_of_filters {c : Compiler} {e : Expr} {i : Nat} {insns : List Insn} {call : FilterCall}
    (h : Filters c e insns) (hfast : call.kernel.fastcall = c.rdonlyCastFastcall)
    (htaken : ArgTaken (some (i, insns)) call) : Accepts c e call := by
  obtain ⟨s', hexits, hne⟩ := htaken
  rcases h call.kernel hfast call.state with ⟨val, s'', hval, hexits', hret, -⟩ | ⟨s'', hnull, hexits', hret, -⟩
  · rw [hexits.unique hexits', hret] at hne
    exact .inl ⟨val, hval, hne⟩
  · rw [hexits.unique hexits', hret] at hne
    refine .inr ⟨hnull, ?_⟩
    by_contra hlow
    exact hne (if_neg hlow)

/-- **Only what the filter takes.** In every interleaving of the handlers,
an invocation with an entry or an exit in the ring buffer passes the packet
filter, and the first `--filter-arg` expression that names a parameter of the
function accepts its arguments, if there is one. -/
theorem filtered_runs {ι ε : Type} [DecidableEq ι] [DecidableEq ε] {v : Variant} {inv : ι → Invocation}
    {parseExpr : String → Except GoError Expr} {t : FilterTarget} {args : List FuncArgument}
    {injected : Option (Nat × List Insn)} (hinject : injectArgFilter parseExpr t args = .ok injected)
    (call : ι → FilterCall) (filterPkt : ι → Bool) {value : ε → Nat → Word} {s : System ι ε}
    (hrun : Relation.ReflTransGen
      (FilteredStep v inv fun i => ArgTaken injected (call i) ∧ filterPkt i = true) (System.init value) s)
    {i : ι} (hlogged : .entry i ∈ s.log ∨ ∃ event, .exit i event ∈ s.log) :
    filterPkt i = true ∧ ((∀ arg ∈ args, arg.matchParams t.params = false) ∨
      ∃ j arg c e, FirstMatch args t.params j arg ∧ newCompiler (t.opts arg) = .ok c ∧ parseExpr arg.expr = .ok e ∧
        ((∀ site ∈ evalSites c e filterGen, site.Safe c) → (call i).kernel.fastcall = c.rdonlyCastFastcall →
          Accepts c e (call i))) := by
  obtain ⟨htaken, hpkt⟩ := pass_of_logged hrun hlogged
  refine ⟨hpkt, ?_⟩
  rcases @injectFrom_spec parseExpr t args 0 with ⟨_, hall⟩ | ⟨j, arg, hfirst, hloop⟩
  · exact .inl hall
  · refine .inr ⟨j, arg, ?_⟩
    rw [injectArgFilter, hloop] at hinject
    cases hcode : injectArg parseExpr t arg with
    | error err => simp [hcode, Except.map] at hinject
    | ok insns =>
      obtain ⟨c, e, hc, he, hfilters⟩ := injectArg_filters hcode
      simp only [hcode, Except.map, Except.ok.injEq] at hinject
      subst hinject
      exact ⟨c, e, hfirst, hc, he, fun hsafe hfast => accepts_of_filters (hfilters hsafe) hfast htaken⟩

/-! `a + b > a`, for the one invocation of a function with two parameters,
0 and 1. -/

def overflowTarget : FilterTarget where
  krnl := (Compiler.empty .probeRead).krnlSpec
  spec := (Compiler.empty .probeRead).btfSpec
  params := overflowOptions.params
  heap := (Compiler.empty .probeRead).heap
  forceProbeReadKernel := true

def zeroOne : FilterCall where
  kernel := ⟨fun addr => if addr = 8 then 1 else 0, fun _ _ => 0, false⟩
  state := ⟨fun _ => 0, fun _ => 0, fun _ => 0, 0⟩

theorem zeroOne_taken : ∃ injected,
    injectArgFilter (fun _ => .ok overflowExpr) overflowTarget [⟨"a + b > a", ["a", "b"]⟩] = .ok injected ∧
      ArgTaken injected zeroOne :=
  ⟨_, rfl, _, ⟨11, rfl⟩, by decide⟩

/-- The entry handler's run, up to its record. -/
theorem oneInvocation_entered {pass : Unit → Prop} (hpass : pass ()) : ∃ s : System Unit Unit,
    Relation.ReflTransGen (FilteredStep .fentry oneInvocation pass) (System.init fun _ _ => 0) s ∧
      .entry () ∈ s.log := by
  have hfree : (TraceState.init fun _ _ => 0 : TraceState Unit Unit).map.Free () := fun _ h => by cases h
  have hstore : FilteredStep .fentry oneInvocation pass (System.init fun _ _ => 0 : System Unit Unit) _ :=
    .handler (Step.store (i := ()) rfl (fun _ _ => rfl) hfree) (by intro _ h; cases h) fun _ _ _ => hpass
  exact ⟨_, (Relation.ReflTransGen.single hstore).tail (.enter (i := ()) rfl rfl hpass), by simp⟩

theorem oneInvocation_filtered : ∃ arg c, newCompiler (overflowTarget.opts arg) = .ok c ∧
    Accepts c overflowExpr zeroOne := by
  obtain ⟨injected, hinject, htaken⟩ := zeroOne_taken
  obtain ⟨s, hrun, hmem⟩ := @oneInvocation_entered (fun _ => ArgTaken injected zeroOne ∧ true = true)
    ⟨htaken, rfl⟩
  rcases (filtered_runs hinject (fun _ => zeroOne) (fun _ => true) hrun (.inl hmem)).2 with
    hnone | ⟨j, arg, c, e, hfirst, hc, he, hacc⟩
  · exact absurd (hnone _ List.mem_cons_self) (by decide)
  · cases he
    obtain rfl : arg = ⟨"a + b > a", ["a", "b"]⟩ := by
      have hmem := List.mem_of_getElem? hfirst.at_i
      simpa using hmem
    refine ⟨_, c, hc, ?_⟩
    cases hc
    exact hacc (by decide) rfl

end Bpfsnoop.Progs
