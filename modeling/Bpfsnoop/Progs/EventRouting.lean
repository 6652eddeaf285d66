/-
Bpfsnoop.Progs.EventRouting — what `Run` makes of the events of the programs
that are attached.

Whether a function has both of its programs is decided by `traceFuncs`;
whether an event waits for the exit of its session is decided by `Run`, from
the flags of the function. `plan_routed` puts the two together: events that
are written one by one, events that come in pairs, and events that wait for
an exit that no program sends.
-/
import Bpfsnoop.Progs.TracingPlan
import Bpfsnoop.Trace.EventLoopTheorems

namespace Bpfsnoop.Progs

open Trace
open Ebpf (Word Byte)

/-! ## Functions that are traced -/

/-- The modes of a function behind `traceFuncs`. -/
def KFunc.modes (kprobe modeExit : Bool) (kf : KFunc) : FuncModes where
  insnMode := kf.insn
  grphMode := kf.flag.graph
  bothMode := (kf.traced kprobe modeExit).flag.both
  isTp := kf.isTp

/-- `Run` has the functions that were traced, and no program at their
addresses. -/
structure Deployed (h : EventLoop.Helpers) (kprobe modeExit : Bool) (kfuncs : KFuncs) : Prop where
  found : ∀ addr kf, kfuncs.lookup addr = some kf → ∃ fn, h.kfuncs addr = some fn ∧
    (⟨fn.insn, fn.graph, fn.both, fn.isTp⟩ : FuncModes) = kf.modes kprobe modeExit
  progs : ∀ addr kf, kfuncs.lookup addr = some kf → h.progs addr = none

/-- An event of the program of an attachment. -/
structure Attachment.Sends (a : Attachment) (event : EventLoop.Event) : Prop where
  funcIP : event.funcIP = a.funcIP
  type : event.type = if a.isEntry then EventLoop.eventTypeFuncEntry else EventLoop.eventTypeFuncExit

/-! ## Routes -/

/-- Where the events of a function go. -/
inductive Route where
  | alone | paired | silent
  deriving DecidableEq, Repr

/-- A function whose events wait for an exit has one, unless it is a
tracepoint or has a kprobe only. -/
def KFunc.route (kprobe modeExit : Bool) (kf : KFunc) : Route :=
  if !(kf.modes kprobe modeExit).requiredSession then .alone
  else if kf.isTp || (kprobe && !modeExit) then .silent
  else .paired

/-- What an event of the attachment `a` writes, behind the records `pre`. -/
def Routed (h : EventLoop.Helpers) (plan : List Attachment) (pre : List EventLoop.Record) (a : Attachment)
    (event : EventLoop.Event) (data : List Byte) (found : EventLoop.Answers) (w : EventLoop.Written) : Route → Prop
  | .alone => ∃ text, EventLoop.funcText h (EventLoop.getFuncInfo h event.funcIP none) event 0 data found = .ok text ∧
      w = ⟨[text ++ "\n"], true⟩
  | .silent => w = .none ∧ ∀ b ∈ plan, b.kf = a.kf → b.isEntry = true
  | .paired => (∃ b ∈ plan, b.kf = a.kf ∧ b.isEntry = !a.isEntry) ∧
      (w = .none ∨ a.isEntry = false ∧ ∃ first data' found' mid opening closing,
        EventLoop.OpenSince h pre (event.sessID + 1) first data' found' mid ∧
        w = ⟨opening :: EventLoop.bodyTexts h first.kernNs (EventLoop.startCalls h first) mid ++ [closing, "\n"], true⟩)

section Plan

variable {h : EventLoop.Helpers} {kprobe modeExit : Bool} {kfuncs : KFuncs} {a : Attachment} {event : EventLoop.Event}

/-- `Run` looks at the modes the function was traced with. -/
theorem Deployed.requiredSession (hdep : Deployed h kprobe modeExit kfuncs) (hplaced : Placed kfuncs)
    (ha : a ∈ traceFuncs kprobe modeExit kfuncs) (hip : event.funcIP = a.funcIP) :
    (EventLoop.getFuncInfo h event.funcIP none).requiredSession = (a.kf.modes kprobe modeExit).requiredSession := by
  obtain ⟨addr, haddr, -⟩ := mem_traceFuncs.mp ha
  have hat : event.funcIP = addr := by rw [hip, Attachment.funcIP, hplaced addr _ haddr]
  obtain ⟨fn, hfn, hmodes⟩ := hdep.found addr _ haddr
  have hprog := hdep.progs addr _ haddr
  rw [hat, ← hmodes]
  simp [EventLoop.getFuncInfo, hfn, hprog, EventLoop.Traced.view]

theorem route_paired (hroute : a.kf.route kprobe modeExit = .paired) :
    (a.kf.modes kprobe modeExit).requiredSession = true ∧ a.kf.isTp = false ∧ (kprobe = true → modeExit = true) := by
  unfold KFunc.route at hroute
  split_ifs at hroute with hsess hentry
  simp only [Bool.or_eq_true, Bool.and_eq_true, not_or, Bool.not_eq_true, Bool.not_eq_true'] at hsess hentry
  refine ⟨by simpa using hsess, hentry.1, fun hkprobe => ?_⟩
  simpa [hkprobe] using hentry.2

/-- The other program of a pair. -/
theorem paired_partner (ha : a ∈ traceFuncs kprobe modeExit kfuncs) (hroute : a.kf.route kprobe modeExit = .paired) :
    ∃ b ∈ traceFuncs kprobe modeExit kfuncs, b.kf = a.kf ∧ b.isEntry = !a.isEntry := by
  obtain ⟨addr, haddr, hof⟩ := mem_traceFuncs.mp ha
  obtain ⟨hsess, htp, hmode⟩ := route_paired hroute
  have hpair : ∀ isExit, ∃ b ∈ attachmentsOf kprobe modeExit a.kf, b.kf = a.kf ∧ b.isExit = isExit := by
    intro isExit
    cases kprobe with
    | true =>
      have hboth : attachmentsOf true modeExit a.kf =
          [⟨a.kf, true, false, a.kf.flag.stack⟩, ⟨a.kf, true, true, false⟩] := by
        simp [attachmentsOf, htp, hmode rfl]
      rw [hboth]
      cases isExit <;> simp
    | false =>
      have hboth : attachmentsOf false modeExit a.kf =
          [⟨a.kf, true, false, false⟩, ⟨a.kf, true, true, a.kf.flag.stack⟩] := by
        have hneeds : (a.kf.insn || a.kf.flag.graph || a.kf.flag.both) = true := by
          simpa [FuncModes.requiredSession, KFunc.modes, KFunc.traced, htp] using hsess
        simp only [attachmentsOf, htp, hneeds, Bool.false_eq_true, if_false, if_true, Bool.not_false]
      rw [hboth]
      cases isExit <;> simp
  obtain ⟨b, hb, hkf, hexit⟩ := hpair (!a.isExit)
  refine ⟨b, mem_traceFuncs.mpr ⟨addr, by rw [hkf]; exact haddr, by rw [hkf]; exact hb⟩, hkf, ?_⟩
  simp [Attachment.isEntry, Attachment.withRet, hkf, htp, hexit]

/-- No program at an exit. -/
theorem silent_entry (hroute : a.kf.route kprobe modeExit = .silent) {b : Attachment}
    (hb : b ∈ traceFuncs kprobe modeExit kfuncs) (hkf : b.kf = a.kf) : b.isEntry = true := by
  obtain ⟨-, -, hof⟩ := mem_traceFuncs.mp hb
  rw [hkf] at hof
  unfold KFunc.route at hroute
  split_ifs at hroute with hsess hentry
  rw [Attachment.isEntry, Attachment.withRet, hkf]
  rcases attachmentsOf_cases hof with ⟨-, ⟨htp, -⟩ | ⟨htp, hkprobe, -⟩ | ⟨htp, hkprobe, hboth, hexit⟩⟩
  · rw [htp]; rfl
  · simp [htp, hkprobe] at hentry
  · have hmode : modeExit = false := by simpa [htp, hkprobe] using hentry
    rw [hexit (by rw [hboth, hmode])]
    simp

/-- **Every event of an attached program is routed by the plan**, in every
run. Events of a function without session are written when they come, each
once; those of a pair wait for the exit that its other program sends; the
others are never written. -/
theorem plan_routed (hplaced : Placed kfuncs) (hdep : Deployed h kprobe modeExit kfuncs)
    (ha : a ∈ traceFuncs kprobe modeExit kfuncs) (limitEvents : BitVec 64) (reads : List EventLoop.Read) {i : Nat}
    {data : List Byte} {found : EventLoop.Answers} {w : EventLoop.Written} (hread : reads[i]? = some (.record (.func event data found)))
    (hsends : a.Sends event) (hw : (EventLoop.run h limitEvents reads).written[i]? = some w) :
    Routed h (traceFuncs kprobe modeExit kfuncs) (EventLoop.recordsOf (reads.take i)) a event data found w
      (a.kf.route kprobe modeExit) := by
  obtain ⟨ss, ws, ss', r, hrun, hr, hok⟩ := EventLoop.run_at hw
  obtain rfl : r = .func event data found := by
    rw [hread] at hr
    exact (EventLoop.Read.record.inj (Option.some.inj hr)).symm
  have hprints := EventLoop.handle_prints hrun hok
  have hmodes := hdep.requiredSession hplaced ha hsends.funcIP
  have hentry : event.type = EventLoop.eventTypeFuncEntry ↔ a.isEntry = true := by
    rw [hsends.type]
    cases a.isEntry <;> simp [EventLoop.eventTypeFuncEntry, EventLoop.eventTypeFuncExit]
  cases hroute : a.kf.route kprobe modeExit with
  | alone =>
    have hfree : (a.kf.modes kprobe modeExit).requiredSession = false := by
      unfold KFunc.route at hroute
      split_ifs at hroute with hsess
      simpa using hsess
    rw [hfree] at hmodes
    cases hprints with
    | plain _ htext => exact ⟨_, htext, rfl⟩
    | body hbody => cases hbody
    | _ => simp_all
  | silent =>
    refine ⟨?_, fun b hb hkf => silent_entry hroute hb hkf⟩
    have hin := hentry.mpr (silent_entry hroute ha rfl)
    have hsess : (a.kf.modes kprobe modeExit).requiredSession = true := by
      unfold KFunc.route at hroute
      split_ifs at hroute with hsess
      simpa using hsess
    rw [hsess] at hmodes
    cases hprints with
    | plain hfree => rw [hfree] at hmodes; cases hmodes
    | body => rfl
    | entry => rfl
    | stray => rfl
    | dropped => rfl
    | exit _ hexit => rw [hin] at hexit; cases hexit
  | paired =>
    refine ⟨paired_partner ha hroute, ?_⟩
    rw [(route_paired hroute).1] at hmodes
    cases hprints with
    | plain hfree => rw [hfree] at hmodes; cases hmodes
    | body => exact .inl rfl
    | entry => exact .inl rfl
    | stray => exact .inl rfl
    | dropped => exact .inl rfl
    | exit _ hexit hopen =>
      refine .inr ⟨?_, _, _, _, _, _, _, hopen, rfl⟩
      have hnot : ¬ event.type = EventLoop.eventTypeFuncEntry := by rw [hexit]; decide
      simpa [hentry] using hnot

end Plan

/-! ## A plan and a run -/

/-- `vfs_read`, traced at its instructions, at the address of the events. -/
def vfsReadPair : KFunc := { vfsRead.at 0 with insn := true, flag := { both := true } }

/-- The exit of the longer session is written with its other program. -/
theorem vfsReadPair_routed : ∃ w, Routed EventLoop.tracedHelpers (traceFuncs false false (.insert 0 vfsReadPair ∅))
    (EventLoop.recordsOf ((EventLoop.twoSessions.map EventLoop.Read.record).take 5)) ⟨vfsReadPair, true, true, false⟩
    ⟨EventLoop.eventTypeFuncExit, 1200, 6, 0, 0, 1, "cat", -1⟩ [] ⟨"12:00:00", .ok "", .ok ""⟩ w .paired := by
  have hlookup {addr : Word} {kf : KFunc} (h : (AList.insert 0 vfsReadPair ∅ : KFuncs).lookup addr = some kf) :
      addr = 0 ∧ kf = vfsReadPair := by
    by_cases haddr : addr = 0
    · subst haddr
      exact ⟨rfl, (Option.some.inj h).symm⟩
    · rw [AList.lookup_insert_ne haddr] at h
      cases h
  have hplaced : Placed (.insert 0 vfsReadPair ∅) := by
    intro addr kf h
    obtain ⟨rfl, rfl⟩ := hlookup h
    rfl
  have hdep : Deployed EventLoop.tracedHelpers false false (.insert 0 vfsReadPair ∅) :=
    ⟨fun addr kf h => ⟨_, rfl, by rw [(hlookup h).2]; rfl⟩, fun _ _ _ => rfl⟩
  exact ⟨_, plan_routed hplaced hdep (List.mem_cons_of_mem _ (List.mem_singleton.mpr rfl)) 0
    (EventLoop.twoSessions.map EventLoop.Read.record) (i := 5) rfl ⟨rfl, rfl⟩ rfl⟩

end Bpfsnoop.Progs
