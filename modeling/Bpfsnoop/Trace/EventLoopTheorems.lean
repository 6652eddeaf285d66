/-
Bpfsnoop.Trace.EventLoopTheorems — what `Run` writes, for every interleaving
of the sessions.

A record steps the session it belongs to and no other, so `handle` is a
keyed machine (`handle_eq_step`) and a run is the runs of its sessions side
by side. What a single session has kept is told by the records behind its
last entry event (`Kept`): the text of the entry, and then one text for each
instruction or graph event, whose cost is the time since the innermost open
call began. `Prints` says what a record is to write; every record of every
run writes that (`run_prints`).
-/
import Bpfsnoop.Trace.EventLoop
import Bpfsnoop.Trace.SessionTheorems

namespace Bpfsnoop.Trace.EventLoop

open Ebpf Lib

variable {h : Helpers} {id : Word}

/-! ## The session of a record -/

/-- The session a record belongs to. -/
def sessionOf (h : Helpers) : Record → Option Word
  | .insn event => some event.sessID
  | .graph _ event _ _ => some event.sessID
  | .short => none
  | .func event _ _ =>
    if (getFuncInfo h event.funcIP none).requiredSession then
      if event.type = eventTypeFuncEntry then some event.sessID else some (event.sessID + 1)
    else none

/-- What a record does to its session alone. -/
def cell (h : Helpers) (s : Option Session) (r : Record) : Except Fault (Option Session × Written) :=
  (handle h (fun _ => s) r).map fun (ss, w) => (ss ((sessionOf h r).getD 0), w)

/-- The sessions of `Run`, one beside the other. -/
def machine (h : Helpers) : Keyed Word (Option Session) Record Written Fault where
  key := sessionOf h
  cell := cell h
  free r := (handle h (fun _ => none) r).map (·.2)

theorem update_same (ss : Sessions) {s : Option Session} (heq : ss id = s) : Function.update ss id s = ss := by
  rw [← heq, Function.update_eq_self]

theorem outputInsnEvent_eq (ss : Sessions) (event : InsnEvent) : outputInsnEvent h ss event =
    Function.update ss event.sessID (outputInsnEvent h (fun _ => ss event.sessID) event event.sessID) := by
  unfold outputInsnEvent
  cases h.insns event.insnIP with
  | none => exact (update_same ss rfl).symm
  | some insn =>
    cases hs : ss event.sessID with
    | none => exact (update_same ss hs).symm
    | some sess => simp

theorem outputGraphEvent_eq (ss : Sessions) (event : GraphEvent) (fnInfo : String) (isEntry : Bool) :
    outputGraphEvent ss event fnInfo isEntry =
      (outputGraphEvent (fun _ => ss event.sessID) event fnInfo isEntry).map fun ss' =>
        Function.update ss event.sessID (ss' event.sessID) := by
  unfold outputGraphEvent
  cases hs : ss event.sessID with
  | none => simp [Except.map, update_same ss hs]
  | some sess => cases hlast : sess.lastTstamp <;> simp [Except.map, hlast]

theorem handleGraph_eq (ss : Sessions) (isExit : Bool) (event : GraphEvent) (length : BitVec 16)
    (data : List Byte) : handleGraph h ss isExit event length data =
      (handleGraph h (fun _ => ss event.sessID) isExit event length data).map fun ss' =>
        Function.update ss event.sessID (ss' event.sessID) := by
  unfold handleGraph
  cases h.graphs event.funcIP with
  | none => simp [Except.map, pure, Except.pure]
  | some graph =>
    cases cutData length.toNat data with
    | error f => rfl
    | ok cut =>
      cases hinfo : outputFuncInfo h (getFuncInfo h event.funcIP (some graph)) graph.argsEnSz graph.argsExSz
          isExit cut.1 with
      | error f => simp [bind, Except.bind, hinfo, Except.map]
      | ok text =>
        simp only [bind, Except.bind, hinfo]
        exact outputGraphEvent_eq ss event text.1 (!isExit)

theorem handleFunc_free (ss : Sessions) {event : Event} (hfree : (getFuncInfo h event.funcIP none).requiredSession = false)
    (data : List Byte) (found : Answers) : handleFunc h ss event data found =
      (handleFunc h (fun _ => none) event data found).map fun r => (ss, r.2) := by
  unfold handleFunc
  simp only [hfree, Bool.false_eq_true, if_false]
  cases funcText h (getFuncInfo h event.funcIP none) event 0 data found <;> rfl

theorem handleFunc_entry (ss : Sessions) {event : Event} (hsess : (getFuncInfo h event.funcIP none).requiredSession = true)
    (hentry : event.type = eventTypeFuncEntry) (data : List Byte) (found : Answers) :
    handleFunc h ss event data found =
      (funcText h (getFuncInfo h event.funcIP none) event 0 data found).map fun text =>
        (Function.update ss event.sessID (some ((Session.start event.kernNs
          (getFuncInfo h event.funcIP none).grphMode).keep text)), .none) := by
  unfold handleFunc
  simp only [hsess, hentry, if_true]
  cases funcText h (getFuncInfo h event.funcIP none) event 0 data found <;> rfl

theorem handleFunc_exit (ss : Sessions) {event : Event} (hsess : (getFuncInfo h event.funcIP none).requiredSession = true)
    (hexit : event.type ≠ eventTypeFuncEntry) (data : List Byte) (found : Answers) :
    handleFunc h ss event data found =
      (handleFunc h (fun _ => ss (event.sessID + 1)) event data found).map fun r =>
        (Function.update ss (event.sessID + 1) (r.1 (event.sessID + 1)), r.2) := by
  unfold handleFunc
  simp only [hsess, hexit, if_true, if_false]
  cases hs : ss (event.sessID + 1) with
  | none =>
    simp only [Except.map, pure, Except.pure]
    rw [update_same ss hs]
  | some sess =>
    simp only
    split
    · simp [Except.map, pure, Except.pure]
    · cases funcText h (getFuncInfo h event.funcIP none) event (event.kernNs - sess.started) data found with
      | error f => rfl
      | ok text => by_cases hret : event.type = eventTypeFuncExit <;> simp [bind, Except.bind, Except.map, pure, Except.pure, hret]

/-- **A record touches its own session only.** -/
theorem handle_eq_step (ss : Sessions) (r : Record) : handle h ss r = (machine h).step ss r := by
  cases r with
  | insn event =>
    simp only [Keyed.step, machine, sessionOf, cell, handle, Except.map, Option.getD_some]
    rw [outputInsnEvent_eq]
  | graph isExit event length data =>
    simp only [Keyed.step, machine, sessionOf, cell, handle, Option.getD_some]
    rw [handleGraph_eq]
    cases handleGraph h (fun _ => ss event.sessID) isExit event length data <;> rfl
  | short => rfl
  | func event data found =>
    simp only [Keyed.step, machine, sessionOf, cell, handle]
    cases hsess : (getFuncInfo h event.funcIP none).requiredSession with
    | false =>
      simp only [Bool.false_eq_true, if_false]
      rw [handleFunc_free ss hsess]
      cases handleFunc h (fun _ => none) event data found <;> rfl
    | true =>
      by_cases hentry : event.type = eventTypeFuncEntry
      · simp only [hentry, if_true, Option.getD_some]
        rw [handleFunc_entry ss hsess hentry, handleFunc_entry _ hsess hentry]
        cases funcText h (getFuncInfo h event.funcIP none) event 0 data found <;> simp [Except.map]
      · simp only [hentry, if_true, if_false, Option.getD_some]
        rw [handleFunc_exit ss hsess hentry]
        cases handleFunc h (fun _ => ss (event.sessID + 1)) event data found <;> rfl

/-! ## What one session keeps -/

/-- The text of the function in a graph event. -/
def graphInfo (h : Helpers) (graph : FuncGraph) (isExit : Bool) (event : GraphEvent) (length : BitVec 16)
    (data : List Byte) : Except Fault String := do
  let (data, _) ← cutData length.toNat data
  let (text, _) ← outputFuncInfo h (getFuncInfo h event.funcIP (some graph)) graph.argsEnSz graph.argsExSz isExit data
  return text

/-- The entry times of the open calls behind a record, the innermost first.
The last one is the entry time of the session, which no graph event ends. -/
def nextCalls (h : Helpers) (calls : List (BitVec 32)) : Record → List (BitVec 32)
  | .graph isExit event _ _ =>
    if (h.graphs event.funcIP).isNone then calls
    else if isExit then if calls.length = 1 then calls else calls.tail
    else event.kernNs :: calls
  | _ => calls

/-- The text of a record within a session that began at `started`: the cost
is the time since the innermost open call began. -/
def bodyText (h : Helpers) (started : BitVec 32) (calls : List (BitVec 32)) : Record → Option String
  | .insn event => (h.insns event.insnIP).map fun insn => insnText insn event (event.kernNs - started)
  | .graph isExit event length data =>
    (h.graphs event.funcIP).bind fun graph =>
      ((graphInfo h graph isExit event length data).toOption).map fun fnInfo =>
        graphText event fnInfo (event.kernNs - calls.headD 0) (event.kernNs - started)
  | _ => none

/-- The texts of the records within a session. -/
def bodyTexts (h : Helpers) (started : BitVec 32) : List (BitVec 32) → List Record → List String
  | _, [] => []
  | calls, r :: rs => (bodyText h started calls r).toList ++ bodyTexts h started (nextCalls h calls r) rs

/-- The open calls behind some records. -/
def openCalls (h : Helpers) (calls : List (BitVec 32)) (body : List Record) : List (BitVec 32) :=
  body.foldl (nextCalls h) calls

theorem bodyTexts_append (started : BitVec 32) (calls : List (BitVec 32)) (rs rs' : List Record) :
    bodyTexts h started calls (rs ++ rs') =
      bodyTexts h started calls rs ++ bodyTexts h started (openCalls h calls rs) rs' := by
  induction rs generalizing calls with
  | nil => rfl
  | cons r rs ih => simp [bodyTexts, openCalls, ih]

/-- The timestamps are the open calls. A session without timestamps has none. -/
structure Session.Calls (s : Session) (calls : List (BitVec 32)) : Prop where
  tstamps : s.tstamps = calls.reverse
  lastidx : s.lastidx = calls.length - 1

namespace Session.Calls

variable {s : Session} {calls : List (BitVec 32)}

theorem start (started : BitVec 32) (graph : Bool) :
    (Session.start started graph).Calls (if graph then [started] else []) := by
  cases graph
  · exact ⟨rfl, rfl⟩
  · exact ⟨rfl, rfl⟩

theorem lastTstamp (hcalls : s.Calls calls) : s.lastTstamp =
    match calls with
    | [] => .error .indexOutOfRange
    | c :: _ => .ok c := by
  unfold Trace.Session.lastTstamp
  rw [hcalls.tstamps, hcalls.lastidx]
  cases calls with
  | nil => rfl
  | cons c calls => simp

theorem push {c : BitVec 32} (hcalls : s.Calls (c :: calls)) (ts : BitVec 32) (outputs : List String) :
    ({ toSession := s.pushTstamp ts, outputs := outputs } : Session).Calls (ts :: c :: calls) where
  tstamps := by simp [Trace.Session.pushTstamp, hcalls.tstamps]
  lastidx := by simp [Trace.Session.pushTstamp, hcalls.lastidx]

theorem pop {c : BitVec 32} (hcalls : s.Calls (c :: calls)) (outputs : List String) :
    ({ toSession := s.popTstamp, outputs := outputs } : Session).Calls
      (if (c :: calls).length = 1 then c :: calls else calls) := by
  have hidx : s.lastidx = calls.length := hcalls.lastidx
  have hstamps := hcalls.tstamps
  cases calls with
  | nil => exact ⟨by simpa [Trace.Session.popTstamp, hidx] using hstamps, by simp [Trace.Session.popTstamp, hidx]⟩
  | cons c' calls =>
    have hpos : s.lastidx ≠ 0 := by simp [hidx]
    refine ⟨?_, ?_⟩
    · have hlen : (calls.reverse ++ [c']).length = s.lastidx := by simp [hidx]
      have hsplit : s.tstamps = calls.reverse ++ [c'] ++ [c] := by simp [hstamps]
      simp only [Trace.Session.popTstamp, if_neg hpos]
      rw [hsplit, ← hlen, List.take_left]
      simp
    · simp [Trace.Session.popTstamp, hidx]

end Session.Calls

/-- A function event. -/
def Record.isFunc : Record → Bool
  | .func .. => true
  | _ => false

theorem handleGraph_eq_bind {graph : FuncGraph} {event : GraphEvent} (hgraph : h.graphs event.funcIP = some graph)
    (ss : Sessions) (isExit : Bool) (length : BitVec 16) (data : List Byte) :
    handleGraph h ss isExit event length data =
      (graphInfo h graph isExit event length data).bind fun text => outputGraphEvent ss event text (!isExit) := by
  unfold handleGraph graphInfo
  simp only [hgraph, bind, Except.bind, pure, Except.pure]
  cases cutData length.toNat data with
  | error f => rfl
  | ok cut =>
    simp only
    cases outputFuncInfo h (getFuncInfo h event.funcIP (some graph)) graph.argsEnSz graph.argsExSz isExit cut.1 <;>
      rfl

/-- **A graph event** in its session. -/
theorem outputGraphEvent_calls {s : Session} {calls : List (BitVec 32)} (hcalls : s.Calls calls) {event : GraphEvent}
    {isExit : Bool} {text : String} {ss : Sessions}
    (hok : outputGraphEvent (fun _ => some s) event text (!isExit) = .ok ss) :
    ∃ t, ss event.sessID = some t ∧ t.started = s.started ∧
      t.Calls (if isExit then if calls.length = 1 then calls else calls.tail else event.kernNs :: calls) ∧
      t.outputs = s.outputs ++ [graphText event text (event.kernNs - calls.headD 0) (event.kernNs - s.started)] := by
  simp only [outputGraphEvent, hcalls.lastTstamp] at hok
  cases calls with
  | nil => cases hok
  | cons c calls =>
    simp only [Except.ok.injEq] at hok
    subst hok
    rw [Function.update_self]
    cases isExit with
    | true =>
      have hpop := hcalls.pop (s.outputs ++ [graphText event text (event.kernNs - c) (event.kernNs - s.started)])
      refine ⟨_, rfl, ?_, hpop, rfl⟩
      show (s.popTstamp).started = s.started
      unfold Trace.Session.popTstamp
      split <;> rfl
    | false =>
      exact ⟨_, rfl, rfl, hcalls.push event.kernNs _, rfl⟩

/-- **Within a session.** A record that is no function event writes
nothing, and leaves its text in the session. -/
theorem cell_body {s : Session} {s' : Option Session} {calls : List (BitVec 32)} {r : Record} {w : Written}
    (hbody : r.isFunc = false) (hcalls : s.Calls calls) (hok : cell h (some s) r = .ok (s', w)) :
    w = .none ∧ ∃ t, s' = some t ∧ t.started = s.started ∧ t.Calls (nextCalls h calls r) ∧
      t.outputs = s.outputs ++ (bodyText h s.started calls r).toList := by
  obtain ⟨⟨ss, w'⟩, hhandle, heq⟩ := map_eq_ok.mp hok
  simp only [Prod.mk.injEq] at heq
  obtain ⟨rfl, rfl⟩ := heq
  cases r with
  | insn event =>
    simp only [handle, Except.ok.injEq, Prod.mk.injEq] at hhandle
    obtain ⟨rfl, rfl⟩ := hhandle
    refine ⟨rfl, ?_⟩
    simp only [sessionOf, Option.getD_some, outputInsnEvent, bodyText]
    cases h.insns event.insnIP with
    | none => exact ⟨s, rfl, rfl, hcalls, by simp⟩
    | some insn => exact ⟨_, Function.update_self .., rfl, ⟨hcalls.tstamps, hcalls.lastidx⟩, rfl⟩
  | graph isExit event length data =>
    obtain ⟨ss', hgraph, heq⟩ := map_eq_ok.mp hhandle
    simp only [Prod.mk.injEq] at heq
    obtain ⟨rfl, rfl⟩ := heq
    refine ⟨rfl, ?_⟩
    simp only [sessionOf, Option.getD_some, nextCalls, bodyText]
    cases hg : h.graphs event.funcIP with
    | none =>
      simp only [handleGraph, hg, pure, Except.pure, Except.ok.injEq] at hgraph
      subst hgraph
      exact ⟨s, rfl, rfl, hcalls, by simp⟩
    | some graph =>
      rw [handleGraph_eq_bind hg] at hgraph
      cases hinfo : graphInfo h graph isExit event length data with
      | error f =>
        rw [hinfo] at hgraph
        cases hgraph
      | ok text =>
        rw [hinfo] at hgraph
        simpa [hinfo, Except.toOption] using outputGraphEvent_calls hcalls hgraph
  | short =>
    simp only [handle, Except.ok.injEq, Prod.mk.injEq] at hhandle
    obtain ⟨rfl, rfl⟩ := hhandle
    exact ⟨rfl, s, rfl, rfl, hcalls, by simp [bodyText]⟩
  | func event data found => cases hbody

/-- Without a session, a record that is no function event does nothing. -/
theorem cell_closed {s' : Option Session} {r : Record} {w : Written} (hbody : r.isFunc = false)
    (hok : cell h none r = .ok (s', w)) : w = .none ∧ s' = none := by
  obtain ⟨⟨ss, w'⟩, hhandle, heq⟩ := map_eq_ok.mp hok
  simp only [Prod.mk.injEq] at heq
  obtain ⟨rfl, rfl⟩ := heq
  cases r with
  | insn event =>
    simp only [handle, Except.ok.injEq, Prod.mk.injEq] at hhandle
    obtain ⟨rfl, rfl⟩ := hhandle
    refine ⟨rfl, ?_⟩
    unfold outputInsnEvent
    cases h.insns event.insnIP <;> rfl
  | graph isExit event length data =>
    obtain ⟨ss', hgraph, heq⟩ := map_eq_ok.mp hhandle
    simp only [Prod.mk.injEq] at heq
    obtain ⟨rfl, rfl⟩ := heq
    refine ⟨rfl, ?_⟩
    cases hg : h.graphs event.funcIP with
    | none =>
      simp only [handleGraph, hg, pure, Except.pure, Except.ok.injEq] at hgraph
      rw [← hgraph]
    | some graph =>
      rw [handleGraph_eq_bind hg] at hgraph
      cases hinfo : graphInfo h graph isExit event length data with
      | error f =>
        rw [hinfo] at hgraph
        cases hgraph
      | ok text =>
        rw [hinfo] at hgraph
        simp only [Except.bind, outputGraphEvent, Except.ok.injEq] at hgraph
        rw [← hgraph]
  | short =>
    simp only [handle, Except.ok.injEq, Prod.mk.injEq] at hhandle
    obtain ⟨rfl, rfl⟩ := hhandle
    exact ⟨rfl, rfl⟩
  | func event data found => cases hbody

/-- The open calls of a session behind its entry. -/
def startCalls (h : Helpers) (event : Event) : List (BitVec 32) :=
  if (getFuncInfo h event.funcIP none).grphMode then [event.kernNs] else []

/-- The entry record is a list's last function event. -/
structure LastEntry (l : List Record) (event : Event) (data : List Byte) (found : Answers) (mid : List Record) :
    Prop where
  split : ∃ before, l = before ++ .func event data found :: mid
  entry : event.type = eventTypeFuncEntry
  body : ∀ r ∈ mid, r.isFunc = false

/-- What a session has kept. -/
structure Kept (h : Helpers) (event : Event) (data : List Byte) (found : Answers) (mid : List Record) (s : Session) :
    Prop where
  started : s.started = event.kernNs
  calls : s.Calls (openCalls h (startCalls h event) mid)
  outputs : ∃ text, funcText h (getFuncInfo h event.funcIP none) event 0 data found = .ok text ∧
    s.outputs = text :: bodyTexts h event.kernNs (startCalls h event) mid

/-- The session behind its own records. -/
def SessionAfter (h : Helpers) (l : List Record) : Option Session → Prop
  | none => ∀ event data found mid, ¬ LastEntry l event data found mid
  | some s => ∃ event data found mid, LastEntry l event data found mid ∧ Kept h event data found mid s

theorem LastEntry.concat_body {l mid : List Record} {event : Event} {data : List Byte} {found : Answers} {r : Record}
    (hlast : LastEntry l event data found mid) (hbody : r.isFunc = false) :
    LastEntry (l ++ [r]) event data found (mid ++ [r]) where
  split := by
    obtain ⟨before, rfl⟩ := hlast.split
    exact ⟨before, by simp⟩
  entry := hlast.entry
  body r' hr' := by
    rcases List.mem_append.mp hr' with hmem | hmem
    · exact hlast.body r' hmem
    · rw [List.mem_singleton.mp hmem]
      exact hbody

/-- Behind a function event, the last entry is that event or none. -/
theorem LastEntry.of_concat {l mid : List Record} {event : Event} {data : List Byte} {found : Answers} {r : Record}
    (hlast : LastEntry (l ++ [r]) event data found mid) :
    (mid = [] ∧ r = .func event data found) ∨
      ∃ mid', mid = mid' ++ [r] ∧ r.isFunc = false ∧ LastEntry l event data found mid' := by
  obtain ⟨before, hsplit⟩ := hlast.split
  rcases List.eq_nil_or_concat mid with rfl | ⟨mid', r', rfl⟩
  · have := List.append_inj' hsplit rfl
    exact .inl ⟨rfl, by simpa using this.2⟩
  · rw [List.concat_eq_append] at hlast hsplit ⊢
    rw [← List.cons_append, ← List.append_assoc] at hsplit
    obtain ⟨hl, hr⟩ := List.append_inj' hsplit rfl
    simp only [List.cons.injEq, and_true] at hr
    subst hr
    refine .inr ⟨mid', rfl, hlast.body r (by simp), ⟨⟨before, hl⟩, hlast.entry, ?_⟩⟩
    intro r' hr'
    exact hlast.body r' (by simp [hr'])

/-- **An entry event** opens the session, and keeps its text there. -/
theorem cell_entry {s s' : Option Session} {event : Event} {data : List Byte} {found : Answers} {w : Written}
    (hsess : (getFuncInfo h event.funcIP none).requiredSession = true) (hentry : event.type = eventTypeFuncEntry)
    (hok : cell h s (.func event data found) = .ok (s', w)) :
    w = .none ∧ ∃ text, funcText h (getFuncInfo h event.funcIP none) event 0 data found = .ok text ∧
      s' = some ((Session.start event.kernNs (getFuncInfo h event.funcIP none).grphMode).keep text) := by
  obtain ⟨⟨ss, w'⟩, hhandle, heq⟩ := map_eq_ok.mp hok
  simp only [handle, handleFunc_entry _ hsess hentry] at hhandle
  obtain ⟨text, htext, hpair⟩ := map_eq_ok.mp hhandle
  simp only [Prod.mk.injEq] at hpair heq
  obtain ⟨rfl, rfl⟩ := hpair
  obtain ⟨rfl, rfl⟩ := heq
  refine ⟨rfl, text, htext, ?_⟩
  simp only [sessionOf, hsess, hentry, if_true, Option.getD_some, Function.update_self]

/-- What an exit event writes, by the session it finds. -/
def ExitWrites (h : Helpers) (event : Event) (data : List Byte) (found : Answers) (w : Written) :
    Option Session → Prop
  | none => w = .none
  | some sess =>
    if (((event.kernNs - sess.started).toNat : Nat) : Int) < h.runDelta then w = .none
    else ∃ text, funcText h (getFuncInfo h event.funcIP none) event (event.kernNs - sess.started) data found =
        .ok text ∧
      w = if event.type = eventTypeFuncExit then ⟨sess.outputs ++ [text, "\n"], true⟩ else .none

/-- **An exit event** closes the session, and writes what it has kept. -/
theorem cell_exit {s s' : Option Session} {event : Event} {data : List Byte} {found : Answers} {w : Written}
    (hsess : (getFuncInfo h event.funcIP none).requiredSession = true) (hexit : event.type ≠ eventTypeFuncEntry)
    (hok : cell h s (.func event data found) = .ok (s', w)) :
    s' = none ∧ ExitWrites h event data found w s := by
  obtain ⟨⟨ss, w'⟩, hhandle, heq⟩ := map_eq_ok.mp hok
  simp only [sessionOf, hsess, hexit, if_true, if_false, Option.getD_some, Prod.mk.injEq] at heq
  obtain ⟨rfl, rfl⟩ := heq
  simp only [handle, handleFunc, hsess, hexit, if_true, if_false] at hhandle
  cases s with
  | none =>
    simp only [pure, Except.pure, Except.ok.injEq, Prod.mk.injEq] at hhandle
    obtain ⟨rfl, rfl⟩ := hhandle
    exact ⟨rfl, rfl⟩
  | some sess =>
    unfold ExitWrites
    simp only at hhandle ⊢
    split at hhandle
    · rename_i hbrief
      simp only [pure, Except.pure, Except.ok.injEq, Prod.mk.injEq] at hhandle
      obtain ⟨rfl, rfl⟩ := hhandle
      exact ⟨Function.update_self .., by rw [if_pos hbrief]⟩
    · rename_i hlong
      rw [if_neg hlong]
      cases htext : funcText h (getFuncInfo h event.funcIP none) event (event.kernNs - sess.started) data found with
      | error f => simp [htext, bind, Except.bind] at hhandle
      | ok text =>
        simp only [htext, bind, Except.bind, pure, Except.pure] at hhandle
        split at hhandle
        · rename_i hret
          simp only [Except.ok.injEq, Prod.mk.injEq] at hhandle
          obtain ⟨rfl, rfl⟩ := hhandle
          refine ⟨Function.update_self .., text, rfl, ?_⟩
          rw [if_pos hret]
          simp [Session.keep]
        · rename_i hret
          simp only [Except.ok.injEq, Prod.mk.injEq] at hhandle
          obtain ⟨rfl, rfl⟩ := hhandle
          exact ⟨Function.update_self .., text, rfl, by rw [if_neg hret]⟩

/-- A function event with a session belongs to a tracee that needs one. -/
theorem requiredSession_of_sessionOf {event : Event} {data : List Byte} {found : Answers}
    (hid : sessionOf h (.func event data found) = some id) :
    (getFuncInfo h event.funcIP none).requiredSession = true := by
  by_contra hne
  simp [sessionOf, hne] at hid

theorem Kept.body {event : Event} {data : List Byte} {found : Answers} {mid : List Record} {s t : Session} {r : Record}
    (hkept : Kept h event data found mid s) (hstarted : t.started = s.started)
    (hcalls : t.Calls (nextCalls h (openCalls h (startCalls h event) mid) r))
    (houtputs : t.outputs = s.outputs ++ (bodyText h s.started (openCalls h (startCalls h event) mid) r).toList) :
    Kept h event data found (mid ++ [r]) t where
  started := hstarted.trans hkept.started
  calls := by simpa [openCalls] using hcalls
  outputs := by
    obtain ⟨text, htext, hout⟩ := hkept.outputs
    refine ⟨text, htext, ?_⟩
    rw [houtputs, hout, hkept.started, bodyTexts_append]
    simp [bodyTexts]

/-- **What a session has kept**, behind any records of it. -/
theorem session_after {l : List Record} {s : Option Session} {ws : List Written}
    (hmem : ∀ r ∈ l, sessionOf h r = some id) (hok : transcript (cell h) none l = .ok (s, ws)) :
    SessionAfter h l s := by
  induction l using List.reverseRecOn generalizing s ws with
  | nil =>
    simp only [transcript_nil, Except.ok.injEq, Prod.mk.injEq] at hok
    obtain ⟨rfl, rfl⟩ := hok
    intro event data found mid hlast
    obtain ⟨before, hsplit⟩ := hlast.split
    simp at hsplit
  | append_singleton l r ih =>
    obtain ⟨u, ws₁, _, hl, hr, rfl⟩ := transcript_append_ok.mp hok
    obtain ⟨w, hcell, rfl⟩ := transcript_singleton_ok.mp hr
    have hafter := ih (fun r' hr' => hmem r' (by simp [hr'])) hl
    cases hfunc : r.isFunc with
    | true =>
      cases r with
      | func event data found =>
        have hsess := requiredSession_of_sessionOf (hmem (.func event data found) (by simp))
        by_cases hentry : event.type = eventTypeFuncEntry
        · obtain ⟨rfl, text, htext, rfl⟩ := cell_entry hsess hentry hcell
          refine ⟨event, data, found, [], ⟨⟨l, rfl⟩, hentry, by simp⟩, rfl, ?_, text, htext, rfl⟩
          exact ⟨(Session.Calls.start _ _).tstamps, (Session.Calls.start _ _).lastidx⟩
        · obtain ⟨rfl, -⟩ := cell_exit hsess hentry hcell
          intro event' data' found' mid hlast
          rcases hlast.of_concat with ⟨-, heq⟩ | ⟨mid', -, hbody, -⟩
          · simp only [Record.func.injEq] at heq
            exact hentry (heq.1 ▸ hlast.entry)
          · cases hbody
      | _ => cases hfunc
    | false =>
      cases u with
      | none =>
        obtain ⟨-, rfl⟩ := cell_closed hfunc hcell
        intro event data found mid hlast
        rcases hlast.of_concat with ⟨-, rfl⟩ | ⟨mid', rfl, -, hlast'⟩
        · cases hfunc
        · exact hafter event data found mid' hlast'
      | some u =>
        obtain ⟨event, data, found, mid, hlast, hkept⟩ := hafter
        obtain ⟨-, t, rfl, hstarted, hcalls, houtputs⟩ := cell_body hfunc hkept.calls hcell
        exact ⟨event, data, found, mid ++ [r], hlast.concat_body hfunc, hkept.body hstarted hcalls houtputs⟩

/-! ## The sessions without their outputs -/

/-- The record as `Trace.Sessions` has it. -/
def Record.base? : Record → Option Trace.Record
  | .insn event => some (.insn event.sessID event.insnIP)
  | .graph isExit event _ _ => some (.graph isExit event)
  | .short => none
  | .func event _ _ =>
    some (.func ⟨event.type = eventTypeFuncEntry, event.kernNs, event.sessID, event.funcIP⟩)

def Helpers.base (h : Helpers) : Trace.Helpers where
  modes ip := (getFuncInfo h ip none).toFuncModes
  graphs ip := (h.graphs ip).isSome

def Sessions.base (ss : Sessions) : Trace.Sessions := fun id => (ss id).map (·.toSession)

theorem Sessions.base_update (ss : Sessions) (id : Word) (s : Option Session) :
    Sessions.base (Function.update ss id s) = Function.update (Sessions.base ss) id (s.map (·.toSession)) := by
  funext j
  by_cases hj : j = id
  · subst hj
    simp [Sessions.base]
  · simp [Sessions.base, Function.update_of_ne hj]

theorem outputGraphEvent_refines {ss ss' : Sessions} {event : GraphEvent} {text : String} {isEntry : Bool}
    (hok : outputGraphEvent ss event text isEntry = .ok ss') :
    ∃ out, Trace.outputGraphEvent ss.base event isEntry = .ok (ss'.base, out) := by
  unfold outputGraphEvent at hok
  cases hs : ss event.sessID with
  | none =>
    simp only [hs, Except.ok.injEq] at hok
    subst hok
    exact ⟨none, by simp [Trace.outputGraphEvent, Sessions.base, hs]⟩
  | some sess =>
    cases hlast : sess.lastTstamp with
    | error p => simp [hs, hlast] at hok
    | ok last =>
      simp only [hs, hlast, Except.ok.injEq] at hok
      subst hok
      refine ⟨some (event.kernNs - last, event.kernNs - sess.started), ?_⟩
      rw [Sessions.base_update]
      simp [Trace.outputGraphEvent, Sessions.base, hs, hlast, Session.keep]

/-- **The loop refines the sessions**: where a record is handled, its
sessions do what those of `Trace.Sessions` do. -/
theorem handle_refines {ss ss' : Sessions} {r : Record} {r' : Trace.Record} {w : Written} (hr : r.base? = some r')
    (hok : handle h ss r = .ok (ss', w)) : Trace.handle h.base ss.base r' = .ok ss'.base := by
  cases r with
  | insn event =>
    cases hr
    simp only [handle, Except.ok.injEq, Prod.mk.injEq] at hok
    obtain ⟨rfl, -⟩ := hok
    simp only [Trace.handle, outputInsnEvent, Except.ok.injEq]
    cases h.insns event.insnIP with
    | none => rfl
    | some insn =>
      cases hs : ss event.sessID with
      | none => rfl
      | some sess =>
        rw [Sessions.base_update]
        exact (Function.update_eq_self_iff.mpr (by simp [Sessions.base, hs, Session.keep])).symm
  | graph isExit event length data =>
    cases hr
    obtain ⟨ss'', hgraph, heq⟩ := map_eq_ok.mp hok
    simp only [Prod.mk.injEq] at heq
    obtain ⟨rfl, -⟩ := heq
    cases hg : h.graphs event.funcIP with
    | none =>
      simp only [handleGraph, hg, pure, Except.pure, Except.ok.injEq] at hgraph
      simp [Trace.handle, Helpers.base, hg, hgraph]
    | some graph =>
      rw [handleGraph_eq_bind hg] at hgraph
      cases hinfo : graphInfo h graph isExit event length data with
      | error f =>
        rw [hinfo] at hgraph
        cases hgraph
      | ok text =>
        rw [hinfo] at hgraph
        obtain ⟨out, hout⟩ := outputGraphEvent_refines hgraph
        simp [Trace.handle, Helpers.base, hg, hout, Except.map]
  | short => cases hr
  | func event data found =>
    cases hr
    rcases Bool.eq_false_or_eq_true (getFuncInfo h event.funcIP none).requiredSession with hsess | hsess
    · have hbase : (h.base.modes event.funcIP).requiredSession = true := hsess
      simp only [Trace.handle, hbase, if_true]
      by_cases hentry : event.type = eventTypeFuncEntry
      · simp only [handle, handleFunc_entry ss hsess hentry] at hok
        obtain ⟨text, -, heq⟩ := map_eq_ok.mp hok
        simp only [Prod.mk.injEq] at heq
        rw [← heq.1, Sessions.base_update, if_pos (decide_eq_true hentry)]
        rfl
      · have hkey : (machine h).key (.func event data found) = some (event.sessID + 1) := by
          simp [machine, sessionOf, hsess, hentry]
        obtain ⟨s, hcell, rfl⟩ := (Keyed.step_keyed hkey).mp (handle_eq_step ss _ ▸ hok)
        obtain ⟨rfl, -⟩ := cell_exit hsess hentry hcell
        rw [Sessions.base_update, if_neg (by simpa using hentry)]
        rfl
    · have hbase : (h.base.modes event.funcIP).requiredSession = false := hsess
      simp only [Trace.handle, hbase, Bool.false_eq_true, if_false]
      simp only [handle, handleFunc_free ss hsess] at hok
      obtain ⟨res, -, heq⟩ := map_eq_ok.mp hok
      simp only [Prod.mk.injEq] at heq
      rw [heq.1]

/-- The same for a run. -/
theorem run_refines {records : List Record} {ss : Sessions} {ws : List Written}
    (hrun : transcript (handle h) (fun _ => none) records = .ok (ss, ws)) :
    Trace.run h.base (records.filterMap Record.base?) = .ok ss.base := by
  induction records using List.reverseRecOn generalizing ss ws with
  | nil =>
    simp only [transcript_nil, Except.ok.injEq, Prod.mk.injEq] at hrun
    rw [← hrun.1]
    rfl
  | append_singleton records r ih =>
    obtain ⟨u, ws₁, _, hpre, hr, rfl⟩ := transcript_append_ok.mp hrun
    obtain ⟨w, hok, rfl⟩ := transcript_singleton_ok.mp hr
    have hrest := ih hpre
    rw [List.filterMap_append]
    cases hbase : r.base? with
    | none =>
      cases r with
      | short =>
        simp only [handle, Except.ok.injEq, Prod.mk.injEq] at hok
        rw [List.filterMap_cons_none hbase, ← hok.1]
        simpa using hrest
      | _ => cases hbase
    | some r' =>
      rw [List.filterMap_cons_some hbase]
      exact foldlM_concat_ok.mpr ⟨u.base, hrest, handle_refines hbase hok⟩

/-! ## What a record writes -/

/-- The session `id` is open behind `pre`: the last function event of it is
an entry event, and `mid` are the records of the session since. -/
def OpenSince (h : Helpers) (pre : List Record) (id : Word) (event : Event) (data : List Byte) (found : Answers)
    (mid : List Record) : Prop :=
  ∃ before since, pre = before ++ .func event data found :: since ∧
    sessionOf h (.func event data found) = some id ∧ event.type = eventTypeFuncEntry ∧
    mid = since.filter (fun r => sessionOf h r = some id) ∧ ∀ r ∈ mid, r.isFunc = false

/-- **What a record writes**, behind the records `pre`. -/
inductive Prints (h : Helpers) (pre : List Record) : Record → Written → Prop
  /-- Instruction and graph events write nothing. -/
  | body {r} (hbody : r.isFunc = false) : Prints h pre r .none
  /-- A tracee without session: the event writes its own text. -/
  | plain {event data found text} (hsess : (getFuncInfo h event.funcIP none).requiredSession = false)
      (htext : funcText h (getFuncInfo h event.funcIP none) event 0 data found = .ok text) :
      Prints h pre (.func event data found) ⟨[text ++ "\n"], true⟩
  | entry {event data found} (hsess : (getFuncInfo h event.funcIP none).requiredSession = true)
      (hentry : event.type = eventTypeFuncEntry) : Prints h pre (.func event data found) .none
  /-- The session is not open. -/
  | stray {event data found} (hsess : (getFuncInfo h event.funcIP none).requiredSession = true)
      (hexit : event.type ≠ eventTypeFuncEntry)
      (hclosed : ∀ first data' found' mid, ¬ OpenSince h pre (event.sessID + 1) first data' found' mid) :
      Prints h pre (.func event data found) .none
  /-- The session was shorter than the threshold, or the event is none that
  the programs emit. -/
  | dropped {event data found first data' found' mid}
      (hsess : (getFuncInfo h event.funcIP none).requiredSession = true)
      (hexit : event.type ≠ eventTypeFuncEntry)
      (hopen : OpenSince h pre (event.sessID + 1) first data' found' mid)
      (hdrop : (((event.kernNs - first.kernNs).toNat : Nat) : Int) < h.runDelta ∨ event.type ≠ eventTypeFuncExit) :
      Prints h pre (.func event data found) .none
  /-- The texts of the session: of its entry, of its records in their order,
  of the exit. -/
  | exit {event data found first data' found' mid opening closing}
      (hsess : (getFuncInfo h event.funcIP none).requiredSession = true)
      (hexit : event.type = eventTypeFuncExit)
      (hopen : OpenSince h pre (event.sessID + 1) first data' found' mid)
      (hlong : h.runDelta ≤ (((event.kernNs - first.kernNs).toNat : Nat) : Int))
      (hfirst : funcText h (getFuncInfo h first.funcIP none) first 0 data' found' = .ok opening)
      (hlast : funcText h (getFuncInfo h event.funcIP none) event (event.kernNs - first.kernNs) data found =
        .ok closing) :
      Prints h pre (.func event data found)
        ⟨opening :: bodyTexts h first.kernNs (startCalls h first) mid ++ [closing, "\n"], true⟩

/-- The last entry among the records of a session. -/
theorem openSince_iff {pre mid : List Record} {event : Event} {data : List Byte} {found : Answers} :
    OpenSince h pre id event data found mid ↔
      LastEntry (pre.filter fun r => sessionOf h r = some id) event data found mid := by
  constructor
  · rintro ⟨before, since, rfl, hid, hentry, rfl, hbody⟩
    refine ⟨⟨before.filter fun r => sessionOf h r = some id, ?_⟩, hentry, hbody⟩
    rw [List.filter_append, List.filter_cons_of_pos (by simpa using hid)]
  · rintro ⟨⟨before, hsplit⟩, hentry, hbody⟩
    obtain ⟨front, rest, rfl, hfront, hrest⟩ := List.filter_eq_append_iff.mp hsplit
    obtain ⟨skipped, since, rfl, hskip, hid, hsince⟩ := List.filter_eq_cons_iff.mp hrest
    exact ⟨front ++ skipped, since, by simp, by simpa using hid, hentry, hsince.symm, hbody⟩

/-- What the session `id` has kept behind any records. -/
theorem session_of_run {pre : List Record} {ss : Sessions} {ws : List Written}
    (hrun : transcript (handle h) (fun _ => none) pre = .ok (ss, ws)) (id : Word) :
    match ss id with
    | none => ∀ event data found mid, ¬ OpenSince h pre id event data found mid
    | some s => ∃ event data found mid, OpenSince h pre id event data found mid ∧ Kept h event data found mid s := by
  have hstep : handle h = (machine h).step := by
    funext ss r
    exact handle_eq_step ss r
  rw [hstep] at hrun
  have hcell := (machine h).transcript_cell id hrun
  have hmem : ∀ r ∈ (machine h).events id pre, sessionOf h r = some id := fun r hr =>
    of_decide_eq_true (List.mem_filter.mp hr).2
  have hafter := session_after hmem hcell
  simp only [openSince_iff]
  cases hs : ss id with
  | none => rw [hs] at hafter; exact hafter
  | some s => rw [hs] at hafter; exact hafter

/-- One record more. -/
theorem handle_prints {pre : List Record} {ss ss' : Sessions} {ws : List Written} {r : Record} {w : Written}
    (hrun : transcript (handle h) (fun _ => none) pre = .ok (ss, ws)) (hok : handle h ss r = .ok (ss', w)) :
    Prints h pre r w := by
  cases hfunc : r.isFunc with
  | false =>
    have hnone : w = .none := by
      cases r with
      | insn event => exact ((Prod.mk.injEq ..).mp (Except.ok.inj hok)).2.symm
      | graph isExit event length data =>
        obtain ⟨ss'', -, heq⟩ := map_eq_ok.mp hok
        exact ((Prod.mk.injEq ..).mp heq).2.symm
      | short => exact ((Prod.mk.injEq ..).mp (Except.ok.inj hok)).2.symm
      | func event data found => cases hfunc
    subst hnone
    exact .body hfunc
  | true =>
    cases r with
    | func event data found =>
      cases hsess : (getFuncInfo h event.funcIP none).requiredSession with
      | false =>
        simp only [handle, handleFunc, hsess, Bool.false_eq_true, if_false] at hok
        cases htext : funcText h (getFuncInfo h event.funcIP none) event 0 data found with
        | error f =>
          rw [htext] at hok
          cases hok
        | ok text =>
          simp only [htext, bind, Except.bind, pure, Except.pure, Except.ok.injEq, Prod.mk.injEq] at hok
          obtain ⟨-, rfl⟩ := hok
          exact .plain hsess htext
      | true =>
        have hid {k : Word} (hk : (machine h).key (.func event data found) = some k) :
            ∃ s, cell h (ss k) (.func event data found) = .ok (s, w) := by
          obtain ⟨s, hcell, -⟩ := (Keyed.step_keyed hk).mp (handle_eq_step ss _ ▸ hok)
          exact ⟨s, hcell⟩
        by_cases hentry : event.type = eventTypeFuncEntry
        · obtain ⟨s, hcell⟩ := hid (k := event.sessID) (by simp [machine, sessionOf, hsess, hentry])
          obtain ⟨rfl, -⟩ := cell_entry hsess hentry hcell
          exact .entry hsess hentry
        · obtain ⟨s, hcell⟩ := hid (k := event.sessID + 1) (by simp [machine, sessionOf, hsess, hentry])
          obtain ⟨-, hw⟩ := cell_exit hsess hentry hcell
          have hkept := session_of_run hrun (event.sessID + 1)
          cases hss : ss (event.sessID + 1) with
          | none =>
            rw [hss] at hkept hw
            obtain rfl : w = .none := hw
            exact .stray hsess hentry hkept
          | some sess =>
            rw [hss] at hkept hw
            obtain ⟨first, data', found', mid, hopen, hkept⟩ := hkept
            simp only [ExitWrites, hkept.started] at hw
            split at hw
            · rename_i hbrief
              subst hw
              exact .dropped hsess hentry hopen (.inl hbrief)
            · rename_i hlong
              obtain ⟨closing, hclosing, rfl⟩ := hw
              split
              · rename_i hret
                obtain ⟨opening, hopening, houtputs⟩ := hkept.outputs
                rw [houtputs]
                exact .exit hsess hret hopen (by omega) hopening hclosing
              · rename_i hret
                exact .dropped hsess hentry hopen (.inr hret)
    | _ => cases hfunc

/-! ## The loop -/

def Read.record? : Read → Option Record
  | .record r => some r
  | _ => none

/-- The records among the reads. -/
def recordsOf (reads : List Read) : List Record := reads.filterMap Read.record?

/-- The loop handles the records one after the other. -/
theorem loop_transcript (unlimited : Bool) (i : Int) (ss : Sessions) (reads : List Read) :
    ∃ records rest ss', reads = records.map Read.record ++ rest ∧
      transcript (handle h) ss records = .ok (ss', (loop h unlimited i ss reads).written) := by
  induction reads generalizing i ss with
  | nil => exact ⟨[], [], ss, rfl, rfl⟩
  | cons read rest ih =>
    unfold loop
    split
    · cases read with
      | closed => exact ⟨[], .closed :: rest, ss, rfl, rfl⟩
      | failed err => exact ⟨[], .failed err :: rest, ss, rfl, rfl⟩
      | record r =>
        simp only
        cases hok : handle h ss r with
        | error f => exact ⟨[], .record r :: rest, ss, rfl, rfl⟩
        | ok res =>
          obtain ⟨ss₁, w⟩ := res
          obtain ⟨records, rest', ss', rfl, hrun⟩ := ih (if w.outputEvent then i - 1 else i) ss₁
          exact ⟨r :: records, rest', ss', rfl, transcript_cons_ok.mpr ⟨ss₁, w, _, hok, hrun, rfl⟩⟩
    · exact ⟨[], read :: rest, ss, rfl, rfl⟩

theorem recordsOf_records (records : List Record) : recordsOf (records.map Read.record) = records := by
  rw [recordsOf, List.filterMap_map]
  exact List.filterMap_some

/-- The run up to a record that was handled. -/
theorem run_at {limitEvents : BitVec 64} {reads : List Read} {i : Nat} {w : Written}
    (hw : (run h limitEvents reads).written[i]? = some w) :
    ∃ ss ws ss' r, transcript (handle h) (fun _ => none) (recordsOf (reads.take i)) = .ok (ss, ws) ∧
      reads[i]? = some (.record r) ∧ handle h ss r = .ok (ss', w) := by
  obtain ⟨records, rest, ss', hreads, hrun⟩ :=
    loop_transcript (h := h) (limitEvents = 0) limitEvents.toInt (fun _ => none) reads
  have hlen : i < records.length := by
    rw [← transcript_length hrun]
    exact (List.getElem?_eq_some_iff.mp hw).1
  have hsplit : records = records.take i ++ records[i] :: records.drop (i + 1) := by
    rw [List.getElem_cons_drop, List.take_append_drop]
  rw [hsplit] at hrun
  obtain ⟨u, ws₁, ws₂, hpre, hpost, hws⟩ := transcript_append_ok.mp hrun
  obtain ⟨v, w', ws₃, hok, -, rfl⟩ := transcript_cons_ok.mp hpost
  have hpos : ws₁.length = i := by
    rw [transcript_length hpre, List.length_take, Nat.min_eq_left (Nat.le_of_lt hlen)]
  have heq : w' = w := by
    rw [run, hws, ← hpos, List.getElem?_append_right (Nat.le_refl _), Nat.sub_self] at hw
    simpa using hw
  subst heq
  have htake : reads.take i = (records.take i).map Read.record := by
    rw [hreads, List.take_append_of_le_length (by simpa using Nat.le_of_lt hlen), List.map_take]
  refine ⟨u, ws₁, v, records[i], ?_, ?_, hok⟩
  · rw [htake, recordsOf_records]
    exact hpre
  · rw [hreads, List.getElem?_append_left (by simpa using hlen), List.getElem?_map, List.getElem?_eq_getElem hlen]
    rfl

/-- **`Run` writes what `Prints` says**, record by record, for every
interleaving of the sessions, every limit and however it comes back. -/
theorem run_prints (h : Helpers) (limitEvents : BitVec 64) (reads : List Read) {i : Nat} {w : Written}
    (hw : (run h limitEvents reads).written[i]? = some w) :
    ∃ r, reads[i]? = some (.record r) ∧ Prints h (recordsOf (reads.take i)) r w := by
  obtain ⟨ss, ws, ss', r, hrun, hr, hok⟩ := run_at hw
  exact ⟨r, hr, handle_prints hrun hok⟩

/-! ## A run -/

/-- A kernel function traced at its entry, its exit and its instructions. -/
def tracedFunc : KFunc where
  name := "vfs_read"
  proto := none
  args := []
  params := []
  retParam := {}
  lbr := false
  stack := false
  graph := false
  both := true
  insn := true
  isTp := false

def tracedHelpers : Helpers where
  runDelta := 100
  progs _ := none
  ksyms _ := some "vfs_read"
  kfuncs _ := some tracedFunc
  insns _ := some ⟨"vfs_read+0x4", "nop"⟩
  graphs _ := none
  hex _ := ""
  render := ⟨fun _ _ _ => .ok "", fun _ => "", fun _ _ => .ok ""⟩

/-- A function event on CPU `cpu`. -/
def funcEvent (type : BitVec 16) (kernNs : BitVec 32) (sessID : Word) (cpu : BitVec 32) : Record :=
  .func ⟨type, kernNs, sessID, 0, cpu, 1, "cat", -1⟩ [] ⟨"12:00:00", .ok "", .ok ""⟩

/-- Two sessions, 7 and 9, one inside the other. -/
def twoSessions : List Record :=
  [funcEvent eventTypeFuncEntry 1000 7 0, funcEvent eventTypeFuncEntry 1010 9 1, .insn ⟨1020, 7, 4, 0⟩,
    .insn ⟨1030, 9, 4, 1⟩, funcEvent eventTypeFuncExit 1060 8 1, funcEvent eventTypeFuncExit 1200 6 0]

/-- The exit of session 7 writes its two texts and the one of its
instruction; the session 9 was too short. -/
theorem twoSessions_prints : ∃ w, w.texts.length = 4 ∧
    Prints tracedHelpers (recordsOf ((twoSessions.map Read.record).take 5))
      (funcEvent eventTypeFuncExit 1200 6 0) w := by
  obtain ⟨r, hr, hprints⟩ := run_prints tracedHelpers 0 (twoSessions.map Read.record) (i := 5) rfl
  cases hr
  exact ⟨_, rfl, hprints⟩

/-! ## Sessions apart, and limits -/

/-- What a run writes at the records of a session. -/
def writtenFor (h : Helpers) (id : Word) (limitEvents : BitVec 64) (reads : List Read) : List Written :=
  (machine h).answers id (recordsOf reads) (run h limitEvents reads).written

/-- **What is written for a session is its own affair.** Two runs with the same
records of a session write the same at them, as far as each gets, whatever
the other records, the limits and the outcomes. -/
theorem run_isolated {reads reads' : List Read} (limitEvents limitEvents' : BitVec 64)
    (hsame : (recordsOf reads).filter (fun r => sessionOf h r = some id) =
      (recordsOf reads').filter fun r => sessionOf h r = some id) :
    writtenFor h id limitEvents reads <+: writtenFor h id limitEvents' reads' ∨
      writtenFor h id limitEvents' reads' <+: writtenFor h id limitEvents reads := by
  obtain ⟨records, rest, ss, rfl, hok⟩ :=
    loop_transcript (h := h) (limitEvents = 0) limitEvents.toInt (fun _ => none) reads
  obtain ⟨records', rest', ss', rfl, hok'⟩ :=
    loop_transcript (h := h) (limitEvents' = 0) limitEvents'.toInt (fun _ => none) reads'
  have hstep : handle h = (machine h).step := by
    funext ss r
    exact handle_eq_step ss r
  have hsplit (records : List Record) (rest : List Read) :
      recordsOf (records.map Read.record ++ rest) = records ++ recordsOf rest := by
    rw [recordsOf, List.filterMap_append]
    exact congrArg (· ++ _) (recordsOf_records records)
  rw [hstep] at hok hok'
  rw [hsplit, hsplit] at hsame
  rw [writtenFor, writtenFor, hsplit, hsplit]
  exact Keyed.answers_comparable hsame hok hok'

/-- Session 7 alone, and beside session 9 with a limit of one output. -/
theorem twoSessions_isolated :
    writtenFor tracedHelpers 7 1 (twoSessions.map Read.record) <+:
        writtenFor tracedHelpers 7 0 ([funcEvent eventTypeFuncEntry 1000 7 0, .insn ⟨1020, 7, 4, 0⟩,
          funcEvent eventTypeFuncExit 1200 6 0].map Read.record) ∨
      writtenFor tracedHelpers 7 0 ([funcEvent eventTypeFuncEntry 1000 7 0, .insn ⟨1020, 7, 4, 0⟩,
          funcEvent eventTypeFuncExit 1200 6 0].map Read.record) <+:
        writtenFor tracedHelpers 7 1 (twoSessions.map Read.record) :=
  run_isolated 1 0 rfl

/-- How many records have written something. -/
def outputs (ws : List Written) : Nat := ws.countP (·.outputEvent)

/-- Without a limit the counter does not matter. -/
theorem loop_unlimited (i j : Int) (ss : Sessions) (reads : List Read) :
    loop h true i ss reads = loop h true j ss reads := by
  induction reads generalizing i j ss with
  | nil => rfl
  | cons read rest ih =>
    cases read with
    | record r =>
      simp only [loop, goesOn, Bool.true_or, if_true]
      cases handle h ss r with
      | error f => rfl
      | ok res => simp only [ih (if res.2.outputEvent then i - 1 else i) (if res.2.outputEvent then j - 1 else j)]
    | _ => rfl

/-- `cut` is `full` up to the `n`-th output. -/
structure CutAt (n : Nat) (full cut : Result) : Prop where
  outcome : cut.outcome = .finished
  outputs : outputs cut.written = n
  front : cut.written <+: full.written
  last : ∃ ws w, cut.written = ws ++ [w] ∧ w.outputEvent = true

theorem CutAt.cons {n : Nat} {full cut : Result} (hcut : CutAt n full cut) (w : Written) :
    CutAt (n + if w.outputEvent then 1 else 0) { full with written := w :: full.written }
      { cut with written := w :: cut.written } where
  outcome := hcut.outcome
  outputs := by rw [← hcut.outputs]; exact List.countP_cons ..
  front := List.cons_prefix_cons.mpr ⟨rfl, hcut.front⟩
  last := by
    obtain ⟨ws, w', heq, hout⟩ := hcut.last
    exact ⟨w :: ws, w', by simp [heq], hout⟩

/-- The limit is reached. -/
theorem loop_done (ss : Sessions) (reads : List Read) : loop h false (0 : Nat) ss reads = ⟨[], .finished⟩ := by
  cases reads <;> rfl

/-- The limited loop is the unlimited one, cut behind the last output. -/
theorem loop_limited {n : Nat} (hn : 0 < n) (ss : Sessions) (reads : List Read) :
    if n ≤ outputs (loop h true 0 ss reads).written then CutAt n (loop h true 0 ss reads) (loop h false n ss reads)
    else loop h false n ss reads = loop h true 0 ss reads := by
  induction reads generalizing n ss with
  | nil => simp [loop, goesOn, outputs, hn, Nat.not_le.mpr hn]
  | cons read rest ih =>
    have hgo : goesOn false n = true := by simp [goesOn, hn]
    cases read with
    | closed => simp [loop, goesOn, outputs, hn, Nat.not_le.mpr hn]
    | failed err => simp [loop, goesOn, outputs, hn, Nat.not_le.mpr hn]
    | record r =>
      cases hok : handle h ss r with
      | error f => simp [loop, goesOn, hok, outputs, hn, Nat.not_le.mpr hn]
      | ok res =>
        obtain ⟨ss₁, w⟩ := res
        have hfull : loop h true 0 ss (.record r :: rest) =
            { loop h true 0 ss₁ rest with written := w :: (loop h true 0 ss₁ rest).written } := by
          simp only [loop, goesOn, Bool.true_or, if_true, hok]
          rw [loop_unlimited _ 0]
        have hcount : outputs (loop h true 0 ss (.record r :: rest)).written =
            outputs (loop h true 0 ss₁ rest).written + if w.outputEvent then 1 else 0 := by
          rw [hfull]
          exact List.countP_cons ..
        have hcut (m : Nat) (hm : (m : Int) = if w.outputEvent then (n : Int) - 1 else n) :
            loop h false n ss (.record r :: rest) =
              { loop h false m ss₁ rest with written := w :: (loop h false m ss₁ rest).written } := by
          simp only [loop, hgo, if_true, hok, hm]
        rw [hcount]
        cases hout : w.outputEvent with
        | false =>
          have hrest := ih hn ss₁
          rw [hcut n (by simp [hout]), hfull]
          simp only [Bool.false_eq_true, if_false, Nat.add_zero]
          split
          · rename_i hle
            rw [if_pos hle] at hrest
            simpa [hout] using hrest.cons w
          · rename_i hle
            rw [if_neg hle] at hrest
            rw [hrest]
        | true =>
          obtain rfl | hn' : n = 1 ∨ 1 < n := by omega
          · rw [hcut 0 (by simp [hout]), loop_done, hfull, if_pos (by simp)]
            exact ⟨rfl, by simp [outputs, hout], by simp, [], w, rfl, hout⟩
          · have hrest := ih (n := n - 1) (by omega) ss₁
            rw [hcut (n - 1) (by simp only [hout, if_true]; omega), hfull]
            simp only [if_true]
            by_cases hle : n ≤ outputs (loop h true 0 ss₁ rest).written + 1
            · rw [if_pos (by omega)] at hrest
              have hcons := hrest.cons w
              rw [hout, if_pos rfl, Nat.sub_add_cancel hn] at hcons
              rw [if_pos hle]
              exact hcons
            · rw [if_neg (by omega)] at hrest
              rw [if_neg hle, hrest]

/-- **A limited run is the run cut behind its last output**: it writes what
the unlimited run writes, up to and with the `n`-th output, or all of it
where there are fewer. A limit from 2^63 on is negative, and lets nothing
pass. -/
theorem run_limited (h : Helpers) (limitEvents : BitVec 64) (hlimit : limitEvents ≠ 0) (reads : List Read) :
    if limitEvents.toInt < 0 then run h limitEvents reads = ⟨[], .finished⟩
    else if limitEvents.toNat ≤ outputs (run h 0 reads).written then
      CutAt limitEvents.toNat (run h 0 reads) (run h limitEvents reads)
    else run h limitEvents reads = run h 0 reads := by
  have hfalse : decide (limitEvents = 0) = false := decide_eq_false hlimit
  simp only [run, hfalse]
  split
  · rename_i hneg
    cases reads with
    | nil => simp [loop, goesOn, Int.not_lt.mpr (Int.le_of_lt hneg)]
    | cons read rest => simp [loop, goesOn, Int.not_lt.mpr (Int.le_of_lt hneg)]
  · rename_i hnonneg
    have hint : limitEvents.toInt = limitEvents.toNat := by
      rw [BitVec.toInt_eq_toNat_cond] at hnonneg ⊢
      omega
    have hpos : 0 < limitEvents.toNat := by
      rcases Nat.eq_zero_or_pos limitEvents.toNat with hzero | hpos
      · exact absurd (BitVec.eq_of_toNat_eq (by simpa using hzero)) hlimit
      · exact hpos
    rw [hint]
    exact loop_limited hpos (fun _ => none) reads

/-- One output of the two sessions is all there is. -/
theorem twoSessions_limited : CutAt 1 (run tracedHelpers 0 (twoSessions.map Read.record))
    (run tracedHelpers 1 (twoSessions.map Read.record)) :=
  run_limited tracedHelpers 1 (by decide) (twoSessions.map Read.record)

end Bpfsnoop.Trace.EventLoop
