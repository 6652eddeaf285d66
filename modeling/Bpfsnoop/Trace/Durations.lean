/-
Bpfsnoop.Trace.Durations — the durations of sessions.

An event carries the low half of the kernel clock, and user space subtracts
such halves. The clocks of a run are its sessions in the kernel's own time;
the session map is what is left of them in 32 bits (`run_truncates`). So a
duration is exact if and only if it is under 2^32 nanoseconds
(`durations_exact_iff`).
-/
import Bpfsnoop.Lib.Runs
import Bpfsnoop.Trace.SessionTheorems
import Mathlib.Data.Option.Basic

namespace Bpfsnoop.Trace

open Ebpf

/-! ## What the kernel reports -/

/-- `evt->kernel_ts`. -/
def kernelTs (t : Word) : BitVec 32 := t.setWidth 32

/-- An event of the kernel, whose record gets the time. -/
inductive KernelEvent where
  | insn (sessID insnIP : Word)
  | graph (isExit : Bool) (sessID funcIP : Word) (cpu depth : BitVec 32)
  | func (entry : Bool) (sessID funcIP : Word)
  deriving DecidableEq, Repr

/-- The record of an event at time `t`. -/
def emit (t : Word) : KernelEvent → Record
  | .insn sessID insnIP => .insn sessID insnIP
  | .graph isExit sessID funcIP cpu depth =>
    .graph isExit
      { kernNs := kernelTs t, sessID := sessID, funcIP := funcIP, cpu := cpu, depth := depth }
  | .func entry sessID funcIP =>
    .func { entry := entry, kernNs := kernelTs t, sessID := sessID, funcIP := funcIP }

/-- `time.Duration` of a difference of timestamps. -/
def timeDuration (ns : BitVec 32) : BitVec 64 := ns.setWidth 64

/-- What `Run` computes at the exit event of a session: its duration, and
whether it drops the session. -/
def exitDuration (runDelta : BitVec 64) (ss : Sessions) (event : Event) :
    Option (BitVec 64 × Bool) :=
  match ss (event.sessID + 1) with
  | none => none
  | some sess =>
    let duration := timeDuration (event.kernNs - sess.started)
    some (duration, duration.slt runDelta)

/-! ## The clocks -/

/-- An open session in the kernel's time: when it was opened, and when the
functions of its graph that are running were entered, the last one first. -/
structure Clock where
  started : Word
  entries : List Word := []
  deriving DecidableEq, Repr

abbrev Clocks := Word → Option Clock

/-- What an event at time `t` does to the clocks. -/
def clockStep (h : Helpers) (clocks : Clocks) (t : Word) : KernelEvent → Clocks
  | .insn .. => clocks
  | .graph isExit sessID funcIP _ _ =>
    if h.graphs funcIP then
      match clocks sessID with
      | none => clocks
      | some c =>
        let entries := if isExit then c.entries.tail else t :: c.entries
        Function.update clocks sessID (some { c with entries := entries })
    else clocks
  | .func entry sessID funcIP =>
    if (h.modes funcIP).requiredSession then
      if entry then Function.update clocks sessID (some { started := t })
      else Function.update clocks (sessID + 1) none
    else clocks

/-- The clocks behind a list of events. -/
def clocksOf (h : Helpers) (events : List (Word × KernelEvent)) : Clocks :=
  events.foldl (fun clocks e => clockStep h clocks e.1 e.2) fun _ => none

/-- The times of the entry events that an exit event is paired with. -/
def entryTimes (h : Helpers) (clocks : Clocks) : KernelEvent → List Word
  | .func false sessID funcIP =>
    if (h.modes funcIP).requiredSession then ((clocks (sessID + 1)).map (·.started)).toList else []
  | .graph true sessID funcIP _ _ =>
    if h.graphs funcIP then
      match clocks sessID with
      | none => []
      | some c => c.started :: c.entries.head?.toList
    else []
  | _ => []

/-- The durations of an exit event at time `t` are those of the kernel's
clock, and so is the verdict of the threshold. -/
structure DurationsExact (h : Helpers) (runDelta : BitVec 64) (clocks : Clocks) (ss : Sessions)
    (t : Word) (ev : KernelEvent) : Prop where
  func : ∀ sessID funcIP c, ev = .func false sessID funcIP →
    (h.modes funcIP).requiredSession = true → clocks (sessID + 1) = some c → c.started ≤ t →
      ∃ duration dropped,
        exitDuration runDelta ss
            { entry := false, kernNs := kernelTs t, sessID := sessID, funcIP := funcIP } =
          some (duration, dropped) ∧
        duration.toInt = t.toNat - c.started.toNat ∧
        (dropped = true ↔ (t.toNat - c.started.toNat : Int) < runDelta.toInt)
  graph : ∀ sessID funcIP cpu depth c, ev = .graph true sessID funcIP cpu depth →
    h.graphs funcIP = true → clocks sessID = some c →
      ∃ ss' cost duration,
        outputGraphEvent ss
            { kernNs := kernelTs t, sessID := sessID, funcIP := funcIP, cpu := cpu, depth := depth }
            false = .ok (ss', some (cost, duration)) ∧
        (c.started ≤ t → (timeDuration duration).toInt = t.toNat - c.started.toNat) ∧
        ∀ t0, c.entries.head? = some t0 → t0 ≤ t →
          (timeDuration cost).toInt = t.toNat - t0.toNat

/-! ## The session map in 32 bits -/

/-- The session is what is left of the clock in 32 bits. -/
def Clock.Truncated (c : Clock) (s : Session) : Prop :=
  s.started = kernelTs c.started ∧
    (s.Plain ∧ c.entries = [] ∨
      s.tstamps = (c.started :: c.entries.reverse).map kernelTs ∧ s.lastidx = c.entries.length)

/-- The session map is what is left of the clocks. -/
def Truncates (clocks : Clocks) (ss : Sessions) : Prop :=
  ∀ id, Option.Rel Clock.Truncated (clocks id) (ss id)

theorem Truncates.update {clocks : Clocks} {ss : Sessions} (h : Truncates clocks ss) {id : Word}
    {c : Option Clock} {s : Option Session} (hrel : Option.Rel Clock.Truncated c s) :
    Truncates (Function.update clocks id c) (Function.update ss id s) := by
  intro id'
  by_cases hid : id' = id
  · subst hid
    simpa using hrel
  · simpa [Function.update_of_ne hid] using h id'

/-- The session behind a clock. -/
theorem Truncates.session {clocks : Clocks} {ss : Sessions} (h : Truncates clocks ss) {id : Word}
    {c : Clock} (hc : clocks id = some c) : ∃ s, ss id = some s ∧ c.Truncated s := by
  have hrel := h id
  rw [hc] at hrel
  cases hs : ss id with
  | none => rw [hs] at hrel; cases hrel
  | some s => rw [hs] at hrel; cases hrel with | some hrel => exact ⟨s, rfl, hrel⟩

theorem Truncates.no_session {clocks : Clocks} {ss : Sessions} (h : Truncates clocks ss) {id : Word}
    (hc : clocks id = none) : ss id = none := by
  have hrel := h id
  rw [hc] at hrel
  cases hs : ss id with
  | none => rfl
  | some s => rw [hs] at hrel; cases hrel

namespace Clock.Truncated

variable {c : Clock} {s : Session} {ts : BitVec 32}

/-- A session with a timestamp to read has all of them, and the last one is
the last entry's, or the session's own. -/
theorem lastTstamp (h : c.Truncated s) (hts : s.lastTstamp = .ok ts) :
    (s.tstamps = (c.started :: c.entries.reverse).map kernelTs ∧ s.lastidx = c.entries.length) ∧
      ts = kernelTs (c.entries.head?.getD c.started) := by
  obtain hplain | hall := h.2
  · rw [hplain.1.lastTstamp] at hts
    cases hts
  · refine ⟨hall, ?_⟩
    simp only [Session.lastTstamp, hall.1, hall.2] at hts
    cases hentries : c.entries with
    | nil => simpa [hentries, eq_comm] using hts
    | cons t0 rest => simpa [hentries, eq_comm] using hts

/-- An entry event of the graph. -/
theorem push (h : c.Truncated s) (hts : s.lastTstamp = .ok ts) (t : Word) :
    Truncated { c with entries := t :: c.entries } (s.pushTstamp (kernelTs t)) := by
  obtain ⟨hstamps, hidx⟩ := (h.lastTstamp hts).1
  exact ⟨h.1, .inr ⟨by simp [Session.pushTstamp, hstamps], by simp [Session.pushTstamp, hidx]⟩⟩

/-- An exit event of the graph. -/
theorem pop (h : c.Truncated s) (hts : s.lastTstamp = .ok ts) :
    Truncated { c with entries := c.entries.tail } s.popTstamp := by
  obtain ⟨hstamps, hidx⟩ := (h.lastTstamp hts).1
  cases hentries : c.entries with
  | nil =>
    rw [hentries] at hstamps hidx
    exact ⟨by simp [Session.popTstamp, hidx, h.1], .inr (by simp [Session.popTstamp, hidx, hstamps])⟩
  | cons t0 rest =>
    rw [hentries] at hstamps hidx
    refine ⟨by simp [Session.popTstamp, hidx, h.1], .inr ?_⟩
    simp [Session.popTstamp, hidx, hstamps]

end Clock.Truncated

/-- **One event keeps the session map in step with the clocks.** -/
theorem handle_truncates {h : Helpers} {clocks : Clocks} {ss ss' : Sessions} {t : Word}
    {ev : KernelEvent} (htrunc : Truncates clocks ss) (hok : handle h ss (emit t ev) = .ok ss') :
    Truncates (clockStep h clocks t ev) ss' := by
  cases ev with
  | insn sessID insnIP =>
    simp only [emit, handle, Except.ok.injEq] at hok
    exact hok ▸ htrunc
  | func entry sessID funcIP =>
    simp only [emit, handle, clockStep] at hok ⊢
    by_cases hreq : (h.modes funcIP).requiredSession = true
    · rw [if_pos hreq] at hok ⊢
      cases entry with
      | true =>
        simp only [if_true, Except.ok.injEq] at hok ⊢
        rw [← hok]
        refine htrunc.update (.some ⟨rfl, ?_⟩)
        cases (h.modes funcIP).grphMode with
        | true => exact .inr ⟨rfl, rfl⟩
        | false => exact .inl ⟨⟨rfl, rfl⟩, rfl⟩
      | false =>
        simp only [Bool.false_eq_true, if_false, Except.ok.injEq] at hok ⊢
        rw [← hok]
        exact htrunc.update .none
    · rw [if_neg hreq] at hok ⊢
      cases hok
      exact htrunc
  | graph isExit sessID funcIP cpu depth =>
    simp only [emit, handle, clockStep] at hok ⊢
    by_cases hgraph : h.graphs funcIP = true
    · rw [if_pos hgraph] at hok ⊢
      cases hc : clocks sessID with
      | none =>
        simp only [outputGraphEvent, htrunc.no_session hc, Except.map, Except.ok.injEq] at hok
        exact hok ▸ htrunc
      | some c =>
        obtain ⟨s, hs, hrel⟩ := htrunc.session hc
        simp only [outputGraphEvent, hs] at hok
        cases hts : s.lastTstamp with
        | error p => rw [hts] at hok; cases hok
        | ok ts =>
          rw [hts] at hok
          simp only [Except.map, Except.ok.injEq] at hok
          rw [← hok]
          cases isExit with
          | true => exact htrunc.update (.some (hrel.pop hts))
          | false => exact htrunc.update (.some (hrel.push hts t))
    · rw [if_neg hgraph] at hok ⊢
      cases hok
      exact htrunc

/-- The records of a list of events. -/
def recordsOf (events : List (Word × KernelEvent)) : List Record :=
  events.map fun e => emit e.1 e.2

/-- **The session map of a run is what is left of its clocks.** -/
theorem run_truncates {h : Helpers} {events : List (Word × KernelEvent)} {ss : Sessions}
    (hrun : run h (recordsOf events) = .ok ss) : Truncates (clocksOf h events) ss := by
  rw [run, recordsOf, List.foldlM_map] at hrun
  refine Lib.foldlM_invariant (I := fun events ss => Truncates (clocksOf h events) ss)
    (fun _ => .none) (fun pre u e ss htrunc hstep => ?_) hrun
  rw [clocksOf, List.foldl_append]
  exact handle_truncates htrunc hstep

/-! ## Durations -/

/-- **A difference of timestamps** is the difference of the times if and only
if that is under 2^32 nanoseconds. -/
theorem timeDuration_exact_iff {t t0 : Word} (hle : t0 ≤ t) :
    (timeDuration (kernelTs t - kernelTs t0)).toInt = t.toNat - t0.toNat ↔
      t.toNat - t0.toNat < 2 ^ 32 := by
  have hle' : t0.toNat ≤ t.toNat := hle
  have hdiff : (timeDuration (kernelTs t - kernelTs t0)).toNat = (t.toNat - t0.toNat) % 2 ^ 32 := by
    simp only [timeDuration, kernelTs, BitVec.toNat_setWidth, BitVec.toNat_sub]
    omega
  rw [BitVec.toInt_eq_toNat_of_lt (by rw [hdiff]; omega), hdiff]
  omega

/-- The threshold compares the duration that was computed. -/
theorem slt_iff_of_toInt_eq {duration runDelta : BitVec 64} {d : Int} (h : duration.toInt = d) :
    duration.slt runDelta = true ↔ d < runDelta.toInt := by
  rw [BitVec.slt, h, decide_eq_true_iff]

/-- The exit event of a tracee. -/
theorem exitDuration_eq {runDelta : BitVec 64} {clocks : Clocks} {ss : Sessions} {c : Clock}
    {event : Event} (htrunc : Truncates clocks ss) (hc : clocks (event.sessID + 1) = some c) :
    exitDuration runDelta ss event =
      some (timeDuration (event.kernNs - kernelTs c.started),
        (timeDuration (event.kernNs - kernelTs c.started)).slt runDelta) := by
  obtain ⟨s, hs, hrel⟩ := htrunc.session hc
  simp only [exitDuration, hs, hrel.1]

/-- The exit event of a function in the graph, where it does not panic. -/
theorem outputGraphEvent_eq {clocks : Clocks} {ss ss' : Sessions} {c : Clock} {event : GraphEvent}
    {isEntry : Bool} {x : Option (BitVec 32 × BitVec 32)} (htrunc : Truncates clocks ss)
    (hc : clocks event.sessID = some c) (hok : outputGraphEvent ss event isEntry = .ok (ss', x)) :
    x = some (event.kernNs - kernelTs (c.entries.head?.getD c.started),
      event.kernNs - kernelTs c.started) := by
  obtain ⟨s, hs, hrel⟩ := htrunc.session hc
  simp only [outputGraphEvent, hs] at hok
  cases hts : s.lastTstamp with
  | error p => rw [hts] at hok; cases hok
  | ok ts =>
    rw [hts] at hok
    simp only [Except.ok.injEq, Prod.mk.injEq] at hok
    rw [← hok.2, (hrel.lastTstamp hts).2, hrel.1]

/-- The exit event of a tracee is paired with the event that opened its
session. -/
theorem mem_entryTimes_func {h : Helpers} {clocks : Clocks} {sessID funcIP t0 : Word}
    (hreq : (h.modes funcIP).requiredSession = true) :
    t0 ∈ entryTimes h clocks (.func false sessID funcIP) ↔
      ∃ c, clocks (sessID + 1) = some c ∧ c.started = t0 := by
  rw [entryTimes, if_pos hreq, Option.mem_toList, Option.map_eq_some_iff]

/-- The exit event of a function in the graph is paired with the event that
opened the session and with the entry event of the function. -/
theorem mem_entryTimes_graph {h : Helpers} {clocks : Clocks} {sessID funcIP t0 : Word}
    {cpu depth : BitVec 32} (hgraph : h.graphs funcIP = true) :
    t0 ∈ entryTimes h clocks (.graph true sessID funcIP cpu depth) ↔
      ∃ c, clocks sessID = some c ∧ (c.started = t0 ∨ c.entries.head? = some t0) := by
  rw [entryTimes, if_pos hgraph]
  cases clocks sessID with
  | none => simp
  | some c => simp [eq_comm]

/-- **The durations of a run.** In a run of the kernel's events that does not
panic, the durations of the next event are those of the kernel's clock, and
the threshold drops the session exactly if its duration is below, if and only
if every entry event it is paired with is less than 2^32 nanoseconds old. -/
theorem durations_exact_iff {h : Helpers} {events : List (Word × KernelEvent)} {ss ss' : Sessions}
    {t : Word} {ev : KernelEvent} (runDelta : BitVec 64) (hrun : run h (recordsOf events) = .ok ss)
    (hev : handle h ss (emit t ev) = .ok ss') :
    DurationsExact h runDelta (clocksOf h events) ss t ev ↔
      ∀ t0 ∈ entryTimes h (clocksOf h events) ev, t0 ≤ t → t.toNat - t0.toNat < 2 ^ 32 := by
  have htrunc := run_truncates hrun
  constructor
  · intro hexact t0 ht0 hle
    cases ev with
    | insn sessID insnIP => simp [entryTimes] at ht0
    | func entry sessID funcIP =>
      cases entry with
      | true => simp [entryTimes] at ht0
      | false =>
        by_cases hreq : (h.modes funcIP).requiredSession = true
        · obtain ⟨c, hc, rfl⟩ := (mem_entryTimes_func hreq).mp ht0
          obtain ⟨duration, dropped, hexit, hdur, -⟩ := hexact.func sessID funcIP c rfl hreq hc hle
          rw [exitDuration_eq htrunc hc, Option.some.injEq, Prod.mk.injEq] at hexit
          rw [← hexit.1] at hdur
          exact (timeDuration_exact_iff hle).mp hdur
        · simp [entryTimes, hreq] at ht0
    | graph isExit sessID funcIP cpu depth =>
      cases isExit with
      | false => simp [entryTimes] at ht0
      | true =>
        by_cases hgraph : h.graphs funcIP = true
        · obtain ⟨c, hc, hpaired⟩ := (mem_entryTimes_graph hgraph).mp ht0
          obtain ⟨u, cost, duration, hout, hdur, hcost⟩ :=
            hexact.graph sessID funcIP cpu depth c rfl hgraph hc
          have hvals := outputGraphEvent_eq htrunc hc hout
          rw [Option.some.injEq, Prod.mk.injEq] at hvals
          obtain rfl | hentry := hpaired
          · rw [hvals.2] at hdur
            exact (timeDuration_exact_iff hle).mp (hdur hle)
          · have hcost := hcost t0 hentry hle
            rw [hvals.1, hentry] at hcost
            exact (timeDuration_exact_iff hle).mp hcost
        · simp [entryTimes, hgraph] at ht0
  · intro hshort
    constructor
    · intro sessID funcIP c hfunc hreq hc hle
      subst hfunc
      have hdur := (timeDuration_exact_iff hle).mpr
        (hshort c.started ((mem_entryTimes_func hreq).mpr ⟨c, hc, rfl⟩) hle)
      exact ⟨_, _, exitDuration_eq htrunc hc, hdur, slt_iff_of_toInt_eq hdur⟩
    · intro sessID funcIP cpu depth c hgr hgraph hc
      subst hgr
      simp only [emit, handle, if_pos hgraph, Bool.not_true] at hev
      cases hout : outputGraphEvent ss { kernNs := kernelTs t, sessID, funcIP, cpu, depth } false with
      | error p => rw [hout] at hev; cases hev
      | ok r =>
        have hout' : outputGraphEvent ss { kernNs := kernelTs t, sessID, funcIP, cpu, depth } false = .ok (r.1, r.2) :=
          hout
        have hvals := outputGraphEvent_eq htrunc hc hout'
        refine ⟨r.1, _, _, by rw [← hvals], fun hle => ?_, fun t0 hentry hle => ?_⟩
        · exact (timeDuration_exact_iff hle).mpr
            (hshort c.started ((mem_entryTimes_graph hgraph).mpr ⟨c, hc, .inl rfl⟩) hle)
        · rw [hentry]
          exact (timeDuration_exact_iff hle).mpr
            (hshort t0 ((mem_entryTimes_graph hgraph).mpr ⟨c, hc, .inr hentry⟩) hle)

/-! ### A long call -/

/-- Every tracee is in both mode. -/
def bothHelpers : Helpers :=
  { modes := fun _ => { bothMode := true }
    graphs := fun _ => false }

/-- The tracee at 1 is entered. -/
def enteredAtZero : List (Word × KernelEvent) := [(0, .func true 7 1)]

/-- The session of the tracee. -/
def openedAtZero : Sessions := Sessions.empty.add 7 0 false

/-- A call of five seconds is reported as 705 ms, and a threshold of one
second drops it. -/
theorem long_call_dropped :
    run bothHelpers (recordsOf enteredAtZero) = .ok openedAtZero ∧
      exitDuration 1000000000 openedAtZero
        { entry := false, kernNs := kernelTs 5000000000, sessID := 6, funcIP := 1 } =
          some (705032704, true) ∧
      ¬ DurationsExact bothHelpers 1000000000 (clocksOf bothHelpers enteredAtZero) openedAtZero
        5000000000 (.func false 6 1) := by
  have hdrop : exitDuration 1000000000 openedAtZero
      { entry := false, kernNs := kernelTs 5000000000, sessID := 6, funcIP := 1 } =
        some (705032704, true) := by decide
  refine ⟨rfl, hdrop, fun hexact => ?_⟩
  obtain ⟨duration, dropped, hexit, hdur, -⟩ := hexact.func 6 1 { started := 0 } rfl rfl rfl (by decide)
  rw [hdrop, Option.some.injEq, Prod.mk.injEq] at hexit
  rw [← hexit.1] at hdur
  exact absurd hdur (by decide)

/-- A call of one second is judged by that, and a threshold of two seconds
drops it. -/
theorem short_call_exact :
    exitDuration 2000000000 openedAtZero
        { entry := false, kernNs := kernelTs 1000000000, sessID := 6, funcIP := 1 } =
      some (1000000000, true) ∧
    DurationsExact bothHelpers 2000000000 (clocksOf bothHelpers enteredAtZero) openedAtZero 1000000000
      (.func false 6 1) := by
  refine ⟨by decide, (durations_exact_iff 2000000000 rfl rfl).mpr fun t0 ht0 _ => ?_⟩
  obtain ⟨c, hc, rfl⟩ := (mem_entryTimes_func rfl).mp ht0
  cases hc
  decide

end Bpfsnoop.Trace
