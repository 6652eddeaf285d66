/-
Bpfsnoop.Trace.Pipeline — from the handlers on the CPUs to the text that is
written.

The handlers of `Trace.SessionMap` and the ring buffer they share. An entry
handler reserves its record when its session is stored, an exit handler when
it is done; a record may be lost, and other programs submit theirs in
between. Records are read in the order in which they were reserved, so the
log of the system is what `Run` of `Trace.EventLoop` handles. Where no
session's element is used again too early, an exit is then written with the
entry of its own invocation or not at all (`pipeline_pairs`).
-/
import Bpfsnoop.Trace.CallCosts
import Bpfsnoop.Trace.SessionMapTheorems

namespace Bpfsnoop.Trace.EventLoop

open Ebpf Lib

/-! ## The system -/

/-- A record of the ring buffer, and who submitted it. -/
inductive LogEntry (ι : Type) where
  | entry (i : ι)
  | exit (i : ι) (event : ExitEvent)
  | other (r : Record)

/-- `entered` is set when the entry handler of an invocation is behind its
record. -/
structure System (ι ε : Type) where
  kernel : TraceState ι ε
  entered : ι → Bool
  log : List (LogEntry ι)

section Machine

variable {ι ε : Type} [DecidableEq ι] [DecidableEq ε]

def System.init (value : ε → Nat → Word) : System ι ε where
  kernel := .init value
  entered _ := false
  log := []

/-- The step is one of an exit handler. -/
def exitsOf : Action ι ε → Option ι
  | .refuse _ | .store _ _ => none
  | .lookup i | .read i | .delete i | .submit i => some i

/-- What a handler's step leaves in the log: an exit handler that is done
with an event has submitted it. -/
def logged (s : TraceState ι ε) : Action ι ε → List (LogEntry ι)
  | .submit i =>
    match s.phase i with
    | .done (some event) => [.exit i event]
    | _ => []
  | _ => []

/-- One step of the system. The tracee runs, and reaches its exit, when its
entry handler has returned. No update takes an element that an exit handler
of fexit has deleted and is still to read. -/
inductive SystemStep (v : Variant) (inv : ι → Invocation) : System ι ε → System ι ε → Prop where
  | handler {s a kernel} (hstep : Step v inv s.kernel a kernel) (hkeeps : KeepsElements v s.kernel a)
      (hentered : ∀ i, exitsOf a = some i → s.entered i = true) :
      SystemStep v inv s { s with kernel := kernel, log := s.log ++ logged kernel a }
  /-- The entry handler submits its record. -/
  | enter {s i} (hphase : s.kernel.phase i = .running) (hfirst : s.entered i = false) :
      SystemStep v inv s { s with entered := Function.update s.entered i true, log := s.log ++ [.entry i] }
  /-- The filter refuses the event, or the ring buffer is full. -/
  | skip {s i} (hphase : s.kernel.phase i = .running) (hfirst : s.entered i = false) :
      SystemStep v inv s { s with entered := Function.update s.entered i true }
  /-- Another program submits a record. -/
  | other {s} (r : Record) : SystemStep v inv s { s with log := s.log ++ [.other r] }

end Machine

/-! ## The phases of a step -/

section Phases

variable {ι ε : Type} [DecidableEq ι] [DecidableEq ε] {v : Variant} {inv : ι → Invocation} {s t : TraceState ι ε}
  {a : Action ι ε}

/-- What a step does to the phase of an invocation: nothing, or it begins,
goes on with its exit, or ends it. -/
inductive PhaseStep : Action ι ε → ι → Phase ε → Phase ε → Prop where
  | stay {a i p} (hsubmit : a ≠ .submit i) : PhaseStep a i p p
  | begin {a i} (hsubmit : a ≠ .submit i) : PhaseStep a i .idle .running
  | leave {a i p e deleted copied} (hsubmit : a ≠ .submit i) (hexits : exitsOf a = some i)
      (hfrom : p = .running ∨ ∃ e' d c, p = .exiting e' d c) : PhaseStep a i p (.exiting e deleted copied)
  | miss {a i} (hsubmit : a ≠ .submit i) (hexits : exitsOf a = some i) : PhaseStep a i .running (.done none)
  | done {i e d c event} : PhaseStep (.submit i) i (.exiting e d c) (.done event)

theorem phaseStep_of_step (hstep : Step v inv s a t) (i : ι) : PhaseStep a i (s.phase i) (t.phase i) := by
  have hother {j : ι} (p : Phase ε) (hij : i ≠ j) (hsubmit : a ≠ .submit i) :
      PhaseStep a i (s.phase i) (Function.update s.phase j p i) := by
    rw [Function.update_of_ne hij]
    exact .stay hsubmit
  cases hstep with
  | @refuse j hphase =>
    by_cases hij : i = j
    · subst hij
      rw [hphase]
      simpa [TraceState.goto] using PhaseStep.begin (by simp)
    · exact hother _ hij (by simp)
  | @store j e hphase =>
    by_cases hij : i = j
    · subst hij
      rw [hphase]
      simpa [TraceState.store] using PhaseStep.begin (by simp)
    · exact hother _ hij (by simp)
  | @miss j hphase =>
    by_cases hij : i = j
    · subst hij
      rw [hphase]
      simpa [TraceState.goto] using PhaseStep.miss (by simp) rfl
    · exact hother _ hij (by simp)
  | @hit j e hphase =>
    by_cases hij : i = j
    · subst hij
      rw [hphase]
      simpa [TraceState.goto] using PhaseStep.leave (by simp) rfl (.inl rfl)
    · exact hother _ hij (by simp)
  | @read j e deleted copied hphase =>
    by_cases hij : i = j
    · subst hij
      rw [hphase]
      simpa [TraceState.goto] using PhaseStep.leave (by simp) rfl (.inr ⟨_, _, _, rfl⟩)
    · exact hother _ hij (by simp)
  | @delete j e copied hphase =>
    by_cases hij : i = j
    · subst hij
      rw [hphase]
      simpa [TraceState.delete] using PhaseStep.leave (by simp) rfl (.inr ⟨_, _, _, rfl⟩)
    · exact hother _ hij (by simp)
  | @submit j e copied hphase =>
    by_cases hij : i = j
    · subst hij
      rw [hphase]
      simpa [TraceState.goto] using PhaseStep.done
    · exact hother _ hij (by simp [Ne.symm hij])
  | @lose j e copied hphase =>
    by_cases hij : i = j
    · subst hij
      rw [hphase]
      simpa [TraceState.goto] using PhaseStep.done
    · exact hother _ hij (by simp [Ne.symm hij])

omit [DecidableEq ι] [DecidableEq ε] in
/-- An invocation that is done stays so. -/
theorem PhaseStep.keeps_done {i : ι} {p q : Phase ε} {event : Option ExitEvent} (h : PhaseStep a i p q)
    (hp : p = .done event) : q = .done event := by
  cases h with
  | stay => exact hp
  | leave _ _ hfrom =>
    rcases hfrom with rfl | ⟨e', d, c, rfl⟩
    · cases hp
    · cases hp
  | _ => cases hp

omit [DecidableEq ι] [DecidableEq ε] in
theorem PhaseStep.of_submit {i : ι} {p q : Phase ε} (h : PhaseStep (.submit i) i p q) :
    ∃ e d c, p = .exiting e d c := by
  cases h with
  | stay hsubmit => exact absurd rfl hsubmit
  | begin hsubmit => exact absurd rfl hsubmit
  | leave hsubmit => exact absurd rfl hsubmit
  | miss hsubmit => exact absurd rfl hsubmit
  | done => exact ⟨_, _, _, rfl⟩

end Phases

/-! ## The log of a run -/

section Log

variable {ι ε : Type} {v : Variant} {inv : ι → Invocation}

/-- An entry comes once, before the exit; an exit comes once. -/
def FreshIn {ι : Type} (log : List (LogEntry ι)) : LogEntry ι → Prop
  | .entry i => .entry i ∉ log ∧ ∀ event, .exit i event ∉ log
  | .exit i _ => ∀ event, .exit i event ∉ log
  | .other _ => True

/-- Every record of the log is new where it comes. -/
def InOrder {ι : Type} (log : List (LogEntry ι)) : Prop :=
  ∀ before x after, log = before ++ x :: after → FreshIn before x

theorem inOrder_concat {log : List (LogEntry ι)} {x : LogEntry ι} (hlog : InOrder log) (hx : FreshIn log x) :
    InOrder (log ++ [x]) := by
  intro before y after hsplit
  rcases List.eq_nil_or_concat after with rfl | ⟨after', z, rfl⟩
  · obtain ⟨rfl, hxy⟩ := List.append_inj' hsplit rfl
    rw [← (List.cons.inj hxy).1]
    exact hx
  · rw [List.concat_eq_append, ← List.cons_append, ← List.append_assoc] at hsplit
    exact hlog before y after' (List.append_inj' hsplit rfl).1

/-- The invariant of the system. -/
structure Ordered (v : Variant) (inv : ι → Invocation) (s : System ι ε) : Prop where
  kernel : Consistent v inv s.kernel
  entered : ∀ i, .entry i ∈ s.log → s.entered i = true
  exited : ∀ i event, .exit i event ∈ s.log → s.kernel.phase i = .done (some event)
  order : InOrder s.log

theorem Ordered.init (value : ε → Nat → Word) : Ordered v inv (System.init value : System ι ε) where
  kernel := .init value
  entered _ h := by cases h
  exited _ _ h := by cases h
  order before x after h := by
    have := congrArg List.length h
    simp [System.init] at this

theorem mem_logged {kernel : TraceState ι ε} {a : Action ι ε} {x : LogEntry ι} (h : x ∈ logged kernel a) :
    ∃ i event, a = .submit i ∧ kernel.phase i = .done (some event) ∧ x = .exit i event := by
  cases a with
  | submit i =>
    simp only [logged] at h
    split at h
    · rename_i event hdone
      exact ⟨i, event, rfl, hdone, List.mem_singleton.mp h⟩
    · cases h
  | _ => cases h

variable [DecidableEq ι] [DecidableEq ε] {s t : System ι ε}

theorem Ordered.step (hs : Ordered v inv s) (hstep : SystemStep v inv s t) : Ordered v inv t := by
  cases hstep with
  | @handler a kernel hstep hkeeps hentered =>
    have hphase := fun i => phaseStep_of_step hstep i
    refine ⟨hs.kernel.step hstep hkeeps, ?_, ?_, ?_⟩
    · intro i hmem
      rcases List.mem_append.mp hmem with hmem | hmem
      · exact hs.entered i hmem
      · obtain ⟨_, _, -, -, heq⟩ := mem_logged hmem
        cases heq
    · intro i event hmem
      rcases List.mem_append.mp hmem with hmem | hmem
      · exact (hphase i).keeps_done (hs.exited i event hmem)
      · obtain ⟨_, _, -, hdone, heq⟩ := mem_logged hmem
        cases heq
        exact hdone
    · rcases hlog : logged kernel a with _ | ⟨x, rest⟩
      · simpa [hlog] using hs.order
      · obtain ⟨i, event, rfl, hdone, rfl⟩ := mem_logged (hlog ▸ List.mem_cons_self : x ∈ logged kernel a)
        have hone : rest = [] := by simpa [logged, hdone] using hlog.symm
        subst hone
        refine inOrder_concat hs.order fun event' hmem => ?_
        obtain ⟨e, d, c, hexiting⟩ := (hphase i).of_submit
        rw [hs.exited i event' hmem] at hexiting
        cases hexiting
  | @enter i hphase hfirst =>
    refine ⟨hs.kernel, ?_, ?_, ?_⟩
    · intro j hmem
      by_cases hji : j = i
      · rw [hji]
        exact Function.update_self ..
      · refine (Function.update_of_ne hji ..).trans ?_
        rcases List.mem_append.mp hmem with hmem | hmem
        · exact hs.entered j hmem
        · simp only [List.mem_singleton, LogEntry.entry.injEq] at hmem
          exact absurd hmem hji
    · intro j event hmem
      rcases List.mem_append.mp hmem with hmem | hmem
      · exact hs.exited j event hmem
      · simp at hmem
    · refine inOrder_concat hs.order ⟨fun hmem => ?_, fun event hmem => ?_⟩
      · have := hs.entered i hmem
        rw [hfirst] at this
        cases this
      · have := hs.exited i event hmem
        rw [hphase] at this
        cases this
  | @skip i hphase hfirst =>
    refine ⟨hs.kernel, ?_, hs.exited, hs.order⟩
    intro j hmem
    by_cases hji : j = i
    · rw [hji]
      exact Function.update_self ..
    · exact (Function.update_of_ne hji ..).trans (hs.entered j hmem)
  | other r =>
    refine ⟨hs.kernel, ?_, ?_, inOrder_concat hs.order trivial⟩
    · intro i hmem
      rcases List.mem_append.mp hmem with hmem | hmem
      · exact hs.entered i hmem
      · simp at hmem
    · intro i event hmem
      rcases List.mem_append.mp hmem with hmem | hmem
      · exact hs.exited i event hmem
      · simp at hmem

/-- **Every run of the system** leaves a log in order. -/
theorem Ordered.of_run {value : ε → Nat → Word}
    (h : Relation.ReflTransGen (SystemStep v inv) (System.init value) s) : Ordered v inv s :=
  reachable_invariant (Ordered.init value) (fun _ _ hu hstep => hu.step hstep) h

end Log

/-! ## The records of the log -/

/-- A function event as its handler fills it in, but for the fields that
are those of the handler's session. -/
structure Submitted where
  event : Event
  data : List Byte
  found : Answers

section Records

variable {ι ε : Type}

/-- The event an entry handler submits. -/
def entryEvent (inv : ι → Invocation) (entries : ι → Submitted) (i : ι) : Event :=
  { (entries i).event with type := eventTypeFuncEntry, sessID := (inv i).sessionId }

/-- The event an exit handler submits. -/
def exitEventOf (exits : ι → Submitted) (i : ι) (event : ExitEvent) : Event :=
  { (exits i).event with type := eventTypeFuncExit, sessID := event.sessID }

/-- The record of an entry of the log. -/
def LogEntry.record (inv : ι → Invocation) (entries exits : ι → Submitted) : LogEntry ι → Record
  | .entry i => .func (entryEvent inv entries i) (entries i).data (entries i).found
  | .exit i event => .func (exitEventOf exits i event) (exits i).data (exits i).found
  | .other r => r

/-- User space knows the tracees: they need sessions. The records of other
programs are no function events of such tracees, and two invocations have
two sessions. -/
structure Traces (h : Helpers) (inv : ι → Invocation) (entries exits : ι → Submitted) (log : List (LogEntry ι)) :
    Prop where
  entry : ∀ i, (getFuncInfo h (entries i).event.funcIP none).requiredSession = true
  exit : ∀ i, (getFuncInfo h (exits i).event.funcIP none).requiredSession = true
  other : ∀ r, .other r ∈ log → r.isFunc = true → sessionOf h r = none
  apart : Function.Injective fun i => (inv i).sessionId

variable {v : Variant} {inv : ι → Invocation} {entries exits : ι → Submitted} {h : Helpers} {s : System ι ε}

/-- A function event of the session of an invocation is its entry or its
exit. -/
theorem Traces.func_of_session (ht : Traces h inv entries exits s.log) (hs : Ordered v inv s) {x : LogEntry ι}
    (hx : x ∈ s.log) (hfunc : (x.record inv entries exits).isFunc = true) {i : ι}
    (hid : sessionOf h (x.record inv entries exits) = some (inv i).sessionId) :
    x = .entry i ∨ ∃ event, x = .exit i event := by
  cases x with
  | entry j =>
    have hkey : (inv j).sessionId = (inv i).sessionId := by
      simpa [LogEntry.record, sessionOf, entryEvent, ht.entry j] using hid
    exact .inl (by rw [ht.apart hkey])
  | exit j event =>
    have hne : eventTypeFuncExit ≠ eventTypeFuncEntry := by decide
    have hkey : event.sessID + 1 = (inv i).sessionId := by
      simpa [LogEntry.record, sessionOf, exitEventOf, ht.exit j, hne] using hid
    rw [(hs.kernel.exitsPaired j event (hs.exited j event hx)).1, BitVec.sub_add_cancel] at hkey
    exact .inr ⟨event, by rw [ht.apart hkey]⟩
  | other r =>
    rw [LogEntry.record, ht.other r hx hfunc] at hid
    cases hid

/-! ## What is written -/

/-- The records of the log. -/
def records (inv : ι → Invocation) (entries exits : ι → Submitted) (log : List (LogEntry ι)) : List Record :=
  log.map (LogEntry.record inv entries exits)

/-- The session of an invocation is open where its entry is in the log and
its exit is not. -/
theorem Traces.openSince (ht : Traces h inv entries exits s.log) (hs : Ordered v inv s) (i : ι)
    (after : List (LogEntry ι)) {before since : List (LogEntry ι)} (hlog : s.log = before ++ .entry i :: since ++ after)
    (hopen : ∀ event, .exit i event ∉ since) :
    OpenSince h (records inv entries exits (before ++ .entry i :: since)) (inv i).sessionId
      (entryEvent inv entries i) (entries i).data (entries i).found
      ((records inv entries exits since).filter fun r => sessionOf h r = some (inv i).sessionId) := by
  refine ⟨records inv entries exits before, records inv entries exits since, by simp [records, LogEntry.record],
    ?_, rfl, rfl, ?_⟩
  · simp [sessionOf, entryEvent, ht.entry i]
  · intro r hr
    obtain ⟨hmem, hid⟩ := List.mem_filter.mp hr
    obtain ⟨x, hx, rfl⟩ := List.mem_map.mp hmem
    by_contra hfunc
    have hin : x ∈ s.log := by rw [hlog]; simp [hx]
    rcases ht.func_of_session hs hin (by simpa using hfunc) (of_decide_eq_true hid) with rfl | ⟨event, rfl⟩
    · obtain ⟨front, back, rfl⟩ := List.append_of_mem hx
      have hfresh := hs.order (before ++ .entry i :: front) (.entry i) (back ++ after) (by simp [hlog])
      exact hfresh.1 (by simp)
    · exact hopen event hx

/-- An open session is that of an entry in the log. -/
theorem Traces.of_openSince (ht : Traces h inv entries exits s.log) (hs : Ordered v inv s) {i : ι}
    {before after : List (LogEntry ι)} (hlog : s.log = before ++ after) {event : Event} {data : List Byte}
    {found : Answers} {mid : List Record}
    (hopen : OpenSince h (records inv entries exits before) (inv i).sessionId event data found mid) :
    .entry i ∈ before := by
  obtain ⟨front, since, hsplit, hid, hentry, -, -⟩ := hopen
  have hmem : Record.func event data found ∈ records inv entries exits before := by rw [hsplit]; simp
  obtain ⟨x, hx, heq⟩ := List.mem_map.mp hmem
  have hin : x ∈ s.log := by rw [hlog]; simp [hx]
  rcases ht.func_of_session hs hin (by rw [heq]; rfl) (by rw [heq]; exact hid) with rfl | ⟨ev, rfl⟩
  · exact hx
  · rw [LogEntry.record, Record.func.injEq] at heq
    rw [← heq.1] at hentry
    exact absurd hentry (by simp [exitEventOf, eventTypeFuncExit, eventTypeFuncEntry])

/-- What is written at the exit of an invocation: nothing, where its entry
was lost or it took less than the threshold; else the text of its entry,
those of the records of its session since, in their order, and the text of
the exit. -/
inductive WritesOwn (h : Helpers) (inv : ι → Invocation) (entries exits : ι → Submitted)
    (before : List (LogEntry ι)) (i : ι) (event : ExitEvent) : Written → Prop
  | lost (hlost : .entry i ∉ before) : WritesOwn h inv entries exits before i event .none
  | short (hentry : .entry i ∈ before)
      (hshort : ((((exits i).event.kernNs - (entries i).event.kernNs).toNat : Nat) : Int) < h.runDelta) :
      WritesOwn h inv entries exits before i event .none
  | own {front since opening closing} (hentry : before = front ++ .entry i :: since)
      (hfirst : funcText h (getFuncInfo h (entries i).event.funcIP none) (entryEvent inv entries i) 0
        (entries i).data (entries i).found = .ok opening)
      (hlast : funcText h (getFuncInfo h (exits i).event.funcIP none) (exitEventOf exits i event)
        ((exits i).event.kernNs - (entries i).event.kernNs) (exits i).data (exits i).found = .ok closing) :
      WritesOwn h inv entries exits before i event
        ⟨opening :: bodyTexts h (entries i).event.kernNs (startCalls h (entryEvent inv entries i))
            ((records inv entries exits since).filter fun r => sessionOf h r = some (inv i).sessionId) ++
          [closing, "\n"], true⟩

/-- **From the CPUs to the text.** In every interleaving of the handlers that
keeps the elements still to be read, whatever records are lost and whatever
programs of other tracees submit, `Run` writes at the exit of an invocation
what belongs to that invocation, if no two have one session id. -/
theorem pipeline_pairs [DecidableEq ι] [DecidableEq ε] {value : ε → Nat → Word}
    (hrun : Relation.ReflTransGen (SystemStep v inv) (System.init value) s)
    (ht : Traces h inv entries exits s.log) (limitEvents : BitVec 64) {before after : List (LogEntry ι)} {i : ι}
    {event : ExitEvent} (hlog : s.log = before ++ .exit i event :: after) {w : Written}
    (hw : (run h limitEvents ((records inv entries exits s.log).map Read.record)).written[before.length]? = some w) :
    WritesOwn h inv entries exits before i event w := by
  have hs := Ordered.of_run hrun
  have hin : .exit i event ∈ s.log := by rw [hlog]; simp
  have hkey : (exitEventOf exits i event).sessID + 1 = (inv i).sessionId := by
    have hid := (hs.kernel.exitsPaired i event (hs.exited i event hin)).1
    simp [exitEventOf, hid]
  have hfresh : ∀ event', .exit i event' ∉ before := hs.order before _ after hlog
  -- the session of the invocation, where its entry is in the log
  have hown {front since : List (LogEntry ι)} (hbefore : before = front ++ .entry i :: since) :=
    ht.openSince hs i (.exit i event :: after) (by rw [hlog, hbefore]) fun event' hmem =>
      hfresh event' (by rw [hbefore]; simp [hmem])
  obtain ⟨ss, ws, ss', r, hpre, hr, hok⟩ := run_at hw
  have hprints := handle_prints hpre hok
  have htake : recordsOf (((records inv entries exits s.log).map Read.record).take before.length) =
      records inv entries exits before := by
    rw [← List.map_take, recordsOf_records, hlog, records, ← List.map_take, List.take_left]
    rfl
  rw [htake] at hprints
  obtain rfl : Record.func (exitEventOf exits i event) (exits i).data (exits i).found = r := by
    rw [hlog] at hr
    simpa [records, LogEntry.record] using hr
  generalize hev : exitEventOf exits i event = ev at hprints
  cases hprints with
  | body hfunc => cases hfunc
  | plain hplain =>
    subst hev
    rw [exitEventOf, ht.exit i] at hplain
    cases hplain
  | entry _ hentry =>
    subst hev
    exact absurd hentry (by simp [exitEventOf, eventTypeFuncExit, eventTypeFuncEntry])
  | stray _ _ hclosed =>
    subst hev
    refine .lost fun hmem => ?_
    obtain ⟨front, since, hbefore⟩ := List.append_of_mem hmem
    rw [hkey] at hclosed
    exact hclosed _ _ _ _ (hbefore ▸ hown hbefore)
  | dropped _ _ hopen hdrop =>
    subst hev
    rw [hkey] at hopen
    have hmem := ht.of_openSince hs hlog hopen
    obtain ⟨front, since, hbefore⟩ := List.append_of_mem hmem
    obtain ⟨rfl, -⟩ := (hbefore ▸ hown hbefore).unique hopen
    rcases hdrop with hshort | hret
    · exact .short hmem hshort
    · exact absurd rfl hret
  | exit _ _ hopen hlong hfirst hlast =>
    subst hev
    rw [hkey] at hopen
    have hmem := ht.of_openSince hs hlog hopen
    obtain ⟨front, since, hbefore⟩ := List.append_of_mem hmem
    obtain ⟨rfl, rfl, rfl, rfl⟩ := (hbefore ▸ hown hbefore).unique hopen
    exact .own hbefore hfirst hlast

end Records

/-! ## One invocation -/

def oneInvocation : Unit → Invocation := fun _ => ⟨8, 1, []⟩

theorem oneInvocation_run : ∃ s : System Unit Unit,
    Relation.ReflTransGen (SystemStep .fentry oneInvocation) (System.init fun _ _ => 0) s ∧
      s.log = [.entry ()] ++ .exit () ⟨(oneInvocation ()).sessionId - 1, []⟩ :: [] := by
  have hfree : (TraceState.init fun _ _ => 0 : TraceState Unit Unit).map.Free () := fun _ h => by cases h
  have hstore : SystemStep .fentry oneInvocation (System.init fun _ _ => 0 : System Unit Unit) _ :=
    .handler (Step.store (i := ()) rfl (fun _ _ => rfl) hfree) (by intro _ _ _ _ _ h; cases h) (by intro _ h; cases h)
  have hstored := Relation.ReflTransGen.single hstore
  have hentered := hstored.tail (.enter (i := ()) rfl rfl)
  have hfound := hentered.tail
    (.handler (Step.hit (i := ()) (e := ()) rfl rfl) (by intro _ _ _ h; cases h) fun _ _ => rfl)
  have hdeleted := hfound.tail
    (.handler (Step.delete (i := ()) rfl (by intro h; cases h)) (by intro _ _ _ h; cases h) fun _ _ => rfl)
  have hread := hdeleted.tail
    (.handler (Step.read (i := ()) (e := ()) rfl Nat.one_pos fun _ => rfl) (by intro _ _ _ h; cases h) fun _ _ => rfl)
  have hsubmitted := hread.tail
    (.handler (Step.submit (i := ()) (e := ()) rfl rfl) (by intro _ _ _ h; cases h) fun _ _ => rfl)
  exact ⟨_, hsubmitted, rfl⟩

/-- What the handlers fill in: the exit comes 200 ns behind the entry. -/
def submitted (kernNs : BitVec 32) : Submitted where
  event := ⟨0, kernNs, 0, 0, 0, 1, "cat", -1⟩
  data := []
  found := ⟨"12:00:00", .ok "", .ok ""⟩

/-- The exit is written with the entry. -/
theorem oneInvocation_pairs : ∃ w,
    WritesOwn tracedHelpers oneInvocation (fun _ => submitted 1000) (fun _ => submitted 1200) [.entry ()] ()
      ⟨(oneInvocation ()).sessionId - 1, []⟩ w ∧ w.outputEvent = true := by
  obtain ⟨s, hrun, hlog⟩ := oneInvocation_run
  have ht : Traces tracedHelpers oneInvocation (fun _ => submitted 1000) (fun _ => submitted 1200) s.log :=
    ⟨fun _ => rfl, fun _ => rfl, by rw [hlog]; simp, fun _ _ _ => rfl⟩
  obtain ⟨w, hw, hout⟩ : ∃ w, (run tracedHelpers 0 ((records oneInvocation (fun _ => submitted 1000)
      (fun _ => submitted 1200) s.log).map Read.record)).written[1]? = some w ∧ w.outputEvent = true := by
    rw [hlog]
    exact ⟨_, rfl, rfl⟩
  exact ⟨w, pipeline_pairs hrun ht 0 hlog hw, hout⟩

end Bpfsnoop.Trace.EventLoop
