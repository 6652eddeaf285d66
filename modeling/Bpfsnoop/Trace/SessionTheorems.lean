/-
Bpfsnoop.Trace.SessionTheorems — when graph events are consumed safely.

Which sessions are open, and whether a graph tracee opened them, depends
on the function events alone (`openModes`). The invariant of a run is that
the session map follows them: a graph session has one timestamp more than
`lastidx`, any other session has none. So a graph event is safe exactly
when the session it finds was opened by a graph tracee.
-/
import Bpfsnoop.Lib.Runs
import Bpfsnoop.Trace.Sessions

namespace Bpfsnoop.Trace

open Ebpf

/-! ## The timestamps of one session -/

/-- `len(tstamps) = lastidx + 1`. -/
def Session.Aligned (s : Session) : Prop := s.tstamps.length = s.lastidx + 1

instance (s : Session) : Decidable s.Aligned := inferInstanceAs (Decidable (_ = _))

/-- No timestamps: the session of a tracee without graph mode. -/
def Session.Plain (s : Session) : Prop := s.tstamps = [] ∧ s.lastidx = 0

namespace Session

variable {s : Session}

theorem Aligned.lastTstamp (h : s.Aligned) : ∃ ts, s.lastTstamp = .ok ts := by
  have hlt : s.lastidx < s.tstamps.length := by
    rw [h]
    exact Nat.lt_succ_self _
  exact ⟨s.tstamps[s.lastidx], by rw [Session.lastTstamp, List.getElem?_eq_getElem hlt]⟩

theorem Aligned.push (h : s.Aligned) (ts : BitVec 32) : (s.pushTstamp ts).Aligned := by
  simp only [Aligned, pushTstamp, List.length_append, List.length_singleton] at h ⊢
  rw [h]

theorem Aligned.pop (h : s.Aligned) : s.popTstamp.Aligned := by
  unfold popTstamp
  split
  · exact h
  · rename_i hne
    simp only [Aligned, List.length_take] at h ⊢
    omega

theorem Plain.lastTstamp (h : s.Plain) : s.lastTstamp = .error .indexOutOfRange := by
  simp [Session.lastTstamp, h.1]

theorem Plain.not_aligned (h : s.Plain) : ¬ s.Aligned := by
  simp [Aligned, h.1]

end Session

/-! ## The open sessions -/

/-- The mode of every open session: `some true` for one opened by a graph
tracee. -/
abbrev OpenModes := Word → Option Bool

/-- What a record does to the open sessions. -/
def openStep (h : Helpers) (modes : OpenModes) (record : Record) : OpenModes :=
  match record with
  | .func event =>
    let info := h.modes event.funcIP
    if info.requiredSession then
      if event.entry then Function.update modes event.sessID (some info.grphMode)
      else Function.update modes (event.sessID + 1) none
    else modes
  | _ => modes

/-- The open sessions behind a list of records. -/
def openModes (h : Helpers) (records : List Record) : OpenModes :=
  records.foldl (openStep h) fun _ => none

theorem openModes_concat (h : Helpers) (records : List Record) (r : Record) :
    openModes h (records ++ [r]) = openStep h (openModes h records) r := by
  simp [openModes]

/-- The session map follows the open sessions. -/
def Follows (modes : OpenModes) (ss : Sessions) : Prop :=
  ∀ id, match modes id with
    | none => ss id = none
    | some graph => ∃ s, ss id = some s ∧ if graph then s.Aligned else s.Plain

theorem Follows.update {modes : OpenModes} {ss : Sessions} (h : Follows modes ss) {id : Word}
    {mode : Option Bool} {s : Option Session} (hs : match mode with
      | none => s = none
      | some graph => ∃ x, s = some x ∧ if graph then x.Aligned else x.Plain) :
    Follows (Function.update modes id mode) (Function.update ss id s) := by
  intro id'
  by_cases hid : id' = id
  · subst hid
    simpa using hs
  · simpa [Function.update_of_ne hid] using h id'

/-! ## One event -/

/-- A graph event is consumed safely: it does not index outside, and the
session it finds has one timestamp more than `lastidx` before and after. -/
def Safe (ss : Sessions) (event : GraphEvent) (isEntry : Bool) : Prop :=
  ∀ s, ss event.sessID = some s → s.Aligned ∧
    ∃ r, outputGraphEvent ss event isEntry = .ok r ∧ ∃ s', r.1 event.sessID = some s' ∧ s'.Aligned

/-- An aligned session stays so through a graph event. -/
theorem outputGraphEvent_aligned {ss : Sessions} {event : GraphEvent} {isEntry : Bool} {s : Session}
    (hs : ss event.sessID = some s) (h : s.Aligned) :
    ∃ s' x, outputGraphEvent ss event isEntry
      = .ok (Function.update ss event.sessID (some s'), some x) ∧ s'.Aligned := by
  obtain ⟨ts, hts⟩ := h.lastTstamp
  refine ⟨if isEntry then s.pushTstamp event.kernNs else s.popTstamp,
    (event.kernNs - ts, event.kernNs - s.started), by simp only [outputGraphEvent, hs, hts], ?_⟩
  split
  · exact h.push event.kernNs
  · exact h.pop

theorem safe_iff {modes : OpenModes} {ss : Sessions} (h : Follows modes ss) (event : GraphEvent)
    (isEntry : Bool) : Safe ss event isEntry ↔ modes event.sessID ≠ some false := by
  have hid := h event.sessID
  cases hm : modes event.sessID with
  | none =>
    rw [hm] at hid
    simp [Safe, hid]
  | some graph =>
    rw [hm] at hid
    obtain ⟨s, hs, hshape⟩ := hid
    cases graph with
    | false =>
      simp only [Bool.false_eq_true, if_false] at hshape
      simp only [ne_eq, not_true_eq_false, iff_false]
      exact fun hsafe => hshape.not_aligned (hsafe s hs).1
    | true =>
      simp only [if_true] at hshape
      refine ⟨fun _ => by simp, fun _ s' hs' => ?_⟩
      obtain rfl : s = s' := by simpa [hs] using hs'
      obtain ⟨t, x, hr, ht⟩ := @outputGraphEvent_aligned ss event isEntry s hs hshape
      exact ⟨hshape, _, hr, t, by simp, ht⟩

/-- **One record keeps the session map in step with the open sessions.** -/
theorem handle_follows {h : Helpers} {modes : OpenModes} {ss ss' : Sessions} {r : Record}
    (hfollows : Follows modes ss) (hok : handle h ss r = .ok ss') :
    Follows (openStep h modes r) ss' := by
  cases r with
  | insn sessID insnIP =>
    simp only [handle, Except.ok.injEq] at hok
    exact hok ▸ hfollows
  | graph isExit event =>
    simp only [handle] at hok
    split at hok
    · show Follows modes ss'
      have hid := hfollows event.sessID
      cases hm : modes event.sessID with
      | none =>
        rw [hm] at hid
        simp only [outputGraphEvent, hid, Except.map, Except.ok.injEq] at hok
        exact hok ▸ hfollows
      | some graph =>
        rw [hm] at hid
        obtain ⟨s, hs, hshape⟩ := hid
        cases graph with
        | false =>
          simp only [Bool.false_eq_true, if_false] at hshape
          simp [outputGraphEvent, hs, hshape.lastTstamp, Except.map] at hok
        | true =>
          obtain ⟨t, x, hx, ht⟩ := @outputGraphEvent_aligned ss event (!isExit) s hs hshape
          rw [hx] at hok
          simp only [Except.map, Except.ok.injEq] at hok
          rw [← hok, ← Function.update_eq_self event.sessID modes, hm]
          exact hfollows.update ⟨t, rfl, ht⟩
    · simp only [Except.ok.injEq] at hok
      exact hok ▸ hfollows
  | func event =>
    simp only [handle, openStep] at hok ⊢
    split at hok
    · rename_i hreq
      rw [if_pos hreq]
      split at hok
      · rename_i hentry
        simp only [Except.ok.injEq] at hok
        rw [if_pos hentry, ← hok]
        refine hfollows.update ⟨_, rfl, ?_⟩
        split
        · rename_i hg
          simp [Session.Aligned]
        · rename_i hg
          simp [Session.Plain]
      · rename_i hentry
        simp only [Except.ok.injEq] at hok
        rw [if_neg hentry, ← hok]
        exact hfollows.update rfl
    · rename_i hreq
      simp only [Except.ok.injEq] at hok
      rw [if_neg hreq]
      exact hok ▸ hfollows

/-! ## Runs -/

/-- Every graph event of a run is consumed safely. -/
def RunSafe (h : Helpers) (records : List Record) : Prop :=
  ∀ pre isExit event post ss, records = pre ++ .graph isExit event :: post →
    h.graphs event.funcIP = true → run h pre = .ok ss → Safe ss event (!isExit)

/-- No graph event carries the id of a session that a tracee without graph
mode opened and nothing closed since. -/
def GraphSessionsOnly (h : Helpers) (records : List Record) : Prop :=
  ∀ pre isExit event post, records = pre ++ .graph isExit event :: post →
    h.graphs event.funcIP = true → openModes h pre event.sessID ≠ some false

/-- The invariant of a run. -/
theorem run_follows {h : Helpers} {records : List Record} {ss : Sessions}
    (hok : run h records = .ok ss) : Follows (openModes h records) ss := by
  refine Lib.foldlM_invariant (I := fun records ss => Follows (openModes h records) ss)
    (fun _ => rfl) (fun pre u r t hfollows hstep => ?_) hok
  rw [openModes_concat]
  exact handle_follows hfollows hstep

/-- A safe run does not stop. -/
theorem RunSafe.run_ok {h : Helpers} {records : List Record} (hsafe : RunSafe h records) :
    ∃ ss, run h records = .ok ss := by
  refine Lib.foldlM_isOk fun pre r post u heq hu => ?_
  cases r with
  | insn sessID insnIP => exact ⟨u, rfl⟩
  | graph isExit event =>
    simp only [handle]
    split
    · rename_i hgraph
      have hsafe' := hsafe pre isExit event post u heq hgraph hu
      cases hs : u event.sessID with
      | none => exact ⟨u, by simp [outputGraphEvent, hs, Except.map]⟩
      | some s =>
        obtain ⟨-, x, hx, -⟩ := hsafe' s hs
        exact ⟨x.1, by rw [hx]; rfl⟩
    · exact ⟨u, rfl⟩
  | func event =>
    simp only [handle]
    split
    · split
      · exact ⟨_, rfl⟩
      · exact ⟨_, rfl⟩
    · exact ⟨u, rfl⟩

/-- **Graph events are consumed safely** in a run if and only if each one
finds no session, or one that a graph tracee opened. -/
theorem run_safe_iff (h : Helpers) (records : List Record) :
    RunSafe h records ↔ GraphSessionsOnly h records := by
  constructor
  · intro hsafe pre isExit event post heq hgraph
    have hpre : RunSafe h pre := by
      intro pre' isExit' event' post' ss heq' hgraph' hok
      exact hsafe pre' isExit' event' (post' ++ .graph isExit event :: post) ss
        (by rw [heq, heq', List.append_assoc]; rfl) hgraph' hok
    obtain ⟨ss, hok⟩ := hpre.run_ok
    exact (safe_iff (run_follows hok) event (!isExit)).mp
      (hsafe pre isExit event post ss heq hgraph hok)
  · intro honly pre isExit event post ss heq hgraph hok
    exact (safe_iff (run_follows hok) event (!isExit)).mpr
      (honly pre isExit event post heq hgraph)

/-- A both-mode tracee at 1 and a function of a graph at 2. -/
def mixedHelpers : Helpers :=
  { modes := fun ip => if ip = 1 then { bothMode := true } else {}
    graphs := fun ip => ip = 2 }

/-- The both-mode tracee opens session 7, and a function it calls reports
to it. -/
def mixedRecords : List Record :=
  [.func { entry := true, kernNs := 100, sessID := 7, funcIP := 1 },
    .graph false { kernNs := 200, sessID := 7, funcIP := 2, cpu := 0, depth := 1 }]

theorem mixed_modes_panic : run mixedHelpers mixedRecords = .error .indexOutOfRange ∧
    ¬ RunSafe mixedHelpers mixedRecords := by
  have hpanic : run mixedHelpers mixedRecords = .error .indexOutOfRange := rfl
  refine ⟨hpanic, fun hsafe => ?_⟩
  obtain ⟨ss, hok⟩ := hsafe.run_ok
  rw [hpanic] at hok
  exact absurd hok (by simp)

end Bpfsnoop.Trace
