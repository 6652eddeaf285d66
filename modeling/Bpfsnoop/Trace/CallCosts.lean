/-
Bpfsnoop.Trace.CallCosts — the costs that graph events print.

A graph event prints the time since the innermost open call of its session
began. Where the graph events between the entry and the exit of a call are
well nested themselves, that is, at the exit, the running time of the very
call (`call_cost`), however the events of other sessions come in between.
-/
import Bpfsnoop.Trace.EventLoopTheorems

namespace Bpfsnoop.Trace.EventLoop

open Ebpf Lib

variable {h : Helpers}

/-! ## The last entry is one -/

theorem LastEntry.unique {l mid mid' : List Record} {event event' : Event} {data data' : List Byte}
    {found found' : Answers} (hlast : LastEntry l event data found mid)
    (hlast' : LastEntry l event' data' found' mid') :
    event' = event ∧ data' = data ∧ found' = found ∧ mid' = mid := by
  induction l using List.reverseRecOn generalizing mid mid' with
  | nil =>
    obtain ⟨before, hsplit⟩ := hlast.split
    simp at hsplit
  | append_singleton l r ih =>
    rcases hlast.of_concat with ⟨rfl, rfl⟩ | ⟨front, rfl, hbody, hfront⟩
    · rcases hlast'.of_concat with ⟨rfl, heq⟩ | ⟨front', -, hbody', -⟩
      · simp only [Record.func.injEq] at heq
        exact ⟨heq.1.symm, heq.2.1.symm, heq.2.2.symm, rfl⟩
      · cases hbody'
    · rcases hlast'.of_concat with ⟨-, rfl⟩ | ⟨front', rfl, -, hfront'⟩
      · cases hbody
      · obtain ⟨rfl, rfl, rfl, rfl⟩ := ih hfront hfront'
        exact ⟨rfl, rfl, rfl, rfl⟩

theorem OpenSince.unique {pre mid mid' : List Record} {id : Word} {event event' : Event} {data data' : List Byte}
    {found found' : Answers} (hopen : OpenSince h pre id event data found mid)
    (hopen' : OpenSince h pre id event' data' found' mid') :
    event' = event ∧ data' = data ∧ found' = found ∧ mid' = mid :=
  (openSince_iff.mp hopen).unique (openSince_iff.mp hopen')

/-! ## Nested calls -/

/-- A graph event of a function in the graph. -/
def InGraph (h : Helpers) (event : GraphEvent) : Prop := (h.graphs event.funcIP).isSome = true

/-- Records whose graph events are well nested. -/
inductive Nested (h : Helpers) : List Record → Prop
  | nil : Nested h []
  | other {r rs} (hr : ∀ calls, nextCalls h calls r = calls) (hrs : Nested h rs) : Nested h (r :: rs)
  | call {enter leave : GraphEvent} {n n' data data' body rest} (henter : InGraph h enter) (hleave : InGraph h leave)
      (hbody : Nested h body) (hrest : Nested h rest) :
      Nested h (.graph false enter n data :: body ++ .graph true leave n' data' :: rest)

theorem openCalls_append (calls : List (BitVec 32)) (rs rs' : List Record) :
    openCalls h calls (rs ++ rs') = openCalls h (openCalls h calls rs) rs' := List.foldl_append

theorem openCalls_cons (calls : List (BitVec 32)) (r : Record) (rs : List Record) :
    openCalls h calls (r :: rs) = openCalls h (nextCalls h calls r) rs := rfl

theorem nextCalls_enter {event : GraphEvent} (hgraph : InGraph h event) (calls : List (BitVec 32)) (n : BitVec 16)
    (data : List Byte) : nextCalls h calls (.graph false event n data) = event.kernNs :: calls := by
  have hsome : (h.graphs event.funcIP).isNone = false := by simpa [InGraph] using hgraph
  simp [nextCalls, hsome]

theorem nextCalls_leave {event : GraphEvent} (hgraph : InGraph h event) (c c' : BitVec 32) (calls : List (BitVec 32))
    (n : BitVec 16) (data : List Byte) : nextCalls h (c' :: c :: calls) (.graph true event n data) = c :: calls := by
  have hsome : (h.graphs event.funcIP).isNone = false := by simpa [InGraph] using hgraph
  simp [nextCalls, hsome]

/-- **Well nested calls** leave the open calls as they were. -/
theorem Nested.openCalls {rs : List Record} (hrs : Nested h rs) (c : BitVec 32) (calls : List (BitVec 32)) :
    openCalls h (c :: calls) rs = c :: calls := by
  induction hrs generalizing c calls with
  | nil => rfl
  | other hr _ ih => rw [openCalls_cons, hr, ih]
  | call henter hleave _ _ ihbody ihrest =>
    rw [List.cons_append, openCalls_cons, nextCalls_enter henter, openCalls_append, ihbody, openCalls_cons,
      nextCalls_leave hleave, ihrest]

/-- A session of a graph tracee has an open call behind any records. -/
theorem openCalls_ne_nil {calls : List (BitVec 32)} (hcalls : calls ≠ []) (rs : List Record) :
    openCalls h calls rs ≠ [] := by
  induction rs generalizing calls with
  | nil => exact hcalls
  | cons r rs ih =>
    rw [openCalls_cons]
    apply ih
    cases r with
    | graph isExit event n data =>
      simp only [nextCalls]
      split
      · exact hcalls
      · split
        · split
          · exact hcalls
          · rename_i hlen
            intro htail
            have := congrArg List.length htail
            have hpos := List.length_pos_iff.mpr hcalls
            simp at this
            omega
        · simp
    | _ => exact hcalls

/-- The texts around the exit of a call. -/
theorem bodyTexts_leave {started c : BitVec 32} {calls : List (BitVec 32)} {before body after : List Record}
    {enter leave : GraphEvent} {n n' : BitVec 16} {data data' : List Byte} {graph : FuncGraph} {text : String}
    (henter : InGraph h enter) (hgraph : h.graphs leave.funcIP = some graph)
    (htext : graphInfo h graph true leave n' data' = .ok text) (hbody : Nested h body) :
    bodyTexts h started (c :: calls) (before ++ .graph false enter n data :: body ++ .graph true leave n' data' :: after) =
      bodyTexts h started (c :: calls) (before ++ .graph false enter n data :: body) ++
        graphText leave text (leave.kernNs - enter.kernNs) (leave.kernNs - started) ::
          bodyTexts h started (EventLoop.openCalls h (c :: calls) before) after := by
  obtain ⟨b, bs, hbefore⟩ := List.exists_cons_of_ne_nil (openCalls_ne_nil (h := h) (List.cons_ne_nil c calls) before)
  have hopen : EventLoop.openCalls h (c :: calls) (before ++ .graph false enter n data :: body) =
      enter.kernNs :: b :: bs := by
    rw [openCalls_append, hbefore, openCalls_cons, nextCalls_enter henter, hbody.openCalls]
  have hleave : InGraph h leave := by simp [InGraph, hgraph]
  rw [bodyTexts_append, hopen, bodyTexts, nextCalls_leave hleave, hbefore]
  simp [bodyText, hgraph, htext, Except.toOption]

/-! ## In a run -/

/-- A graph event that was handled has a text. -/
theorem graphInfo_of_handle {ss ss' : Sessions} {isExit : Bool} {event : GraphEvent} {n : BitVec 16} {data : List Byte}
    {w : Written} {graph : FuncGraph} (hgraph : h.graphs event.funcIP = some graph)
    (hok : handle h ss (.graph isExit event n data) = .ok (ss', w)) :
    ∃ text, graphInfo h graph isExit event n data = .ok text := by
  obtain ⟨ss'', hhandle, -⟩ := map_eq_ok.mp hok
  rw [handleGraph_eq_bind hgraph] at hhandle
  cases hinfo : graphInfo h graph isExit event n data with
  | error f =>
    rw [hinfo] at hhandle
    cases hhandle
  | ok text => exact ⟨text, rfl⟩

theorem graphInfo_of_run {records : List Record} {ss ss' : Sessions} {ws : List Written}
    (hrun : transcript (handle h) ss records = .ok (ss', ws)) {isExit : Bool} {event : GraphEvent} {n : BitVec 16}
    {data : List Byte} (hmem : .graph isExit event n data ∈ records) {graph : FuncGraph}
    (hgraph : h.graphs event.funcIP = some graph) : ∃ text, graphInfo h graph isExit event n data = .ok text := by
  obtain ⟨pre, post, rfl⟩ := List.append_of_mem hmem
  obtain ⟨u, ws₁, ws₂, -, hpost, -⟩ := transcript_append_ok.mp hrun
  obtain ⟨v, w, ws₃, hok, -, -⟩ := transcript_cons_ok.mp hpost
  exact graphInfo_of_handle hgraph hok

theorem OpenSince.mem {pre mid : List Record} {id : Word} {event : Event} {data : List Byte} {found : Answers}
    (hopen : OpenSince h pre id event data found mid) {r : Record} (hr : r ∈ mid) : r ∈ pre := by
  obtain ⟨before, since, rfl, -, -, rfl, -⟩ := hopen
  exact List.mem_append_right _ (List.mem_cons_of_mem _ (List.mem_of_mem_filter hr))

/-- **The cost of a call is its running time.** When the session of a graph
tracee is written, and the graph events between the entry and the exit of a
call in it are well nested, the text of the exit tells the time since the
entry, and the time since the session began, in nanoseconds modulo 2^32. It
stands behind the texts of the records before the exit. -/
theorem call_cost (h : Helpers) (limitEvents : BitVec 64) (reads : List Read) {i : Nat} {w : Written}
    (hw : (run h limitEvents reads).written[i]? = some w) (hout : w.outputEvent = true)
    {event : Event} {data : List Byte} {found : Answers} (hread : reads[i]? = some (.record (.func event data found)))
    (hsess : (getFuncInfo h event.funcIP none).requiredSession = true)
    {first : Event} {data₀ : List Byte} {found₀ : Answers} {before body after : List Record}
    {enter leave : GraphEvent} {n n' : BitVec 16} {data₁ data₂ : List Byte}
    (hopen : OpenSince h (recordsOf (reads.take i)) (event.sessID + 1) first data₀ found₀
      (before ++ .graph false enter n data₁ :: body ++ .graph true leave n' data₂ :: after))
    (hmode : (getFuncInfo h first.funcIP none).grphMode = true)
    (henter : InGraph h enter) (hleave : InGraph h leave) (hbody : Nested h body) :
    ∃ graph text opening closing, h.graphs leave.funcIP = some graph ∧
      graphInfo h graph true leave n' data₂ = .ok text ∧
      funcText h (getFuncInfo h first.funcIP none) first 0 data₀ found₀ = .ok opening ∧
      funcText h (getFuncInfo h event.funcIP none) event (event.kernNs - first.kernNs) data found = .ok closing ∧
      w.texts = opening :: (bodyTexts h first.kernNs [first.kernNs] (before ++ .graph false enter n data₁ :: body) ++
        graphText leave text (leave.kernNs - enter.kernNs) (leave.kernNs - first.kernNs) ::
          bodyTexts h first.kernNs (openCalls h [first.kernNs] before) after) ++ [closing, "\n"] := by
  obtain ⟨graph, hgraph⟩ := Option.isSome_iff_exists.mp hleave
  obtain ⟨ss, ws, ss', r, hrun, -, -⟩ := run_at hw
  obtain ⟨text, htext⟩ := graphInfo_of_run hrun (hopen.mem (r := .graph true leave n' data₂) (by simp)) hgraph
  obtain ⟨ss, ws, ss', r, hpre, hr, hok⟩ := run_at hw
  have hprints := handle_prints hpre hok
  obtain rfl : Record.func event data found = r := by simpa [hread] using hr
  cases hprints with
  | body hfunc => cases hfunc
  | plain hplain => rw [hsess] at hplain; cases hplain
  | exit _ _ hopen' _ hfirst hlast =>
    obtain ⟨rfl, rfl, rfl, rfl⟩ := hopen.unique hopen'
    refine ⟨graph, text, _, _, hgraph, htext, hfirst, hlast, ?_⟩
    rw [startCalls, if_pos hmode, bodyTexts_leave henter hgraph htext hbody]
  | _ => cases hout

/-! ## A graph -/

/-- A kernel function traced with its call graph, and a function it calls. -/
def graphFunc : KFunc := { tracedFunc with graph := true }

def callee : FuncGraph where
  kfunc := none
  bprog := none
  argsEnSz := 0
  argsExSz := 0

def graphHelpers : Helpers :=
  { tracedHelpers with kfuncs := fun _ => some graphFunc, graphs := fun _ => some callee }

def graphEvent (isExit : Bool) (kernNs : BitVec 32) (sessID : Word) (depth : BitVec 32) : Record :=
  .graph isExit ⟨kernNs, sessID, 4, 0, depth⟩ 0 []

/-- Session 7 makes a call that makes another; session 9 comes in between. -/
def nestedCalls : List Record :=
  [funcEvent eventTypeFuncEntry 1000 7 0, graphEvent false 1100 7 1, funcEvent eventTypeFuncEntry 1110 9 1,
    graphEvent false 1200 7 2, graphEvent false 1210 9 1, graphEvent true 1300 7 2, graphEvent true 1500 7 1,
    funcEvent eventTypeFuncExit 1600 6 0]

/-- The session 7 of the graph, up to its exit. -/
theorem nestedCalls_open : OpenSince graphHelpers (recordsOf ((nestedCalls.map Read.record).take 7)) 7
    ⟨eventTypeFuncEntry, 1000, 7, 0, 0, 1, "cat", -1⟩ [] ⟨"12:00:00", .ok "", .ok ""⟩
    ([] ++ graphEvent false 1100 7 1 :: [graphEvent false 1200 7 2, graphEvent true 1300 7 2] ++
      graphEvent true 1500 7 1 :: []) :=
  ⟨[], nestedCalls.tail.take 6, rfl, rfl, rfl, rfl, by simp [graphEvent, Record.isFunc]⟩

/-- The outer call ran for 400 ns, and ended 500 ns behind the entry: the
fifth text. -/
theorem nestedCalls_cost : ∃ w, (run graphHelpers 0 (nestedCalls.map Read.record)).written[7]? = some w ∧
    ∃ text, w.texts[4]? = some (graphText ⟨1500, 7, 4, 0, 1⟩ text 400 500) := by
  have hnested : Nested graphHelpers [graphEvent false 1200 7 2, graphEvent true 1300 7 2] :=
    Nested.call (h := graphHelpers) rfl rfl .nil .nil
  obtain ⟨w, hw, hout⟩ : ∃ w, (run graphHelpers 0 (nestedCalls.map Read.record)).written[7]? = some w ∧
      w.outputEvent = true := ⟨_, rfl, rfl⟩
  have hread : (nestedCalls.map Read.record)[7]? = some (.record (funcEvent eventTypeFuncExit 1600 6 0)) := rfl
  obtain ⟨graph, text, opening, closing, -, -, -, -, htexts⟩ := call_cost graphHelpers 0 (nestedCalls.map Read.record)
    hw hout hread rfl nestedCalls_open rfl rfl rfl hnested
  refine ⟨w, hw, text, ?_⟩
  rw [htexts]
  rfl

end Bpfsnoop.Trace.EventLoop
