/-
Bpfsnoop.Trace.Readiness — `create`, and the calls that wait for it.

`NewAddr2Line` starts `create` in the background. It opens the debug file of
the kernel, finds the directory the kernel was built in, and says so by
closing `done` and setting `ready`. Calls of `get` and `wait` run beside it.
Every assignment, close, receive and test is one step, and the steps of
`create` and of any number of calls come in any order.
-/
import Bpfsnoop.Lib.Runs
import Bpfsnoop.Trace.Addr2Line

namespace Bpfsnoop.Trace

open Ebpf Lib

/-! ## The machine -/

/-- The errors of `create`. -/
inductive CreateError where
  | new (vmlinux : String)
  | sysBPF (err : String)
  | fileName (file : String)
  deriving DecidableEq, Repr

/-- The fields of an `Addr2Line` that `create` writes. `closed` is the state
of `done`. -/
structure Shared where
  ready : Bool
  err : Option CreateError
  closed : Bool
  a2l : Option Lines
  buildDir : String

/-- Where `create` stands: what it does next, with its local variables. -/
inductive CreatePc where
  | new
  | sysBPF (a2l : Lines)
  | checkName (a2l : Lines) (file : String)
  | setErr (err : CreateError)
  | setBuildDir (a2l : Lines) (file : String)
  | close (a2l : Lines)
  | setReady (a2l : Lines)
  | setA2l (a2l : Lines)
  | returned

/-- The two calls that wait. -/
inductive Call where
  | wait
  | get
  deriving DecidableEq, Repr

/-- Where a call stands. `lookup` is the test of the cache, of `get` only.
`waited` is behind the return of `wait`, `fetched` behind the read of the
field `a2l` in `getMod`. -/
inductive CallPc where
  | idle
  | lookup
  | testReady (call : Call)
  | receive (call : Call)
  | readErr (call : Call)
  | waited (call : Call) (err : Option CreateError)
  | fetched (a2l : Option Lines)
  | cached

/-- A debug file, `create`, and calls with names of `ι`. -/
structure Waiting (ι : Type) where
  shared : Shared
  create : CreatePc
  calls : ι → CallPc

/-- One step of the machine. `start` begins a call; `next` is the next step
of one that was begun, where `hit` says whether the cache has its address. -/
inductive WaitEvent (ι : Type) where
  | create
  | start (i : ι) (call : Call)
  | next (i : ι) (hit : Bool)

/-- The step cannot be taken: there is nothing to do, or nothing to receive
yet. -/
inductive Disabled where
  | disabled
  deriving DecidableEq, Repr

/-- The directory in front of the name of the source file. -/
def buildDirOf (file : String) : String := String.ofList (file.toList.take (file.length - bpfSyscallFile.length))

/-- `Addr2Line.create`. `New` opens `vmlinux` or fails, and `Get` finds a
line or fails. -/
def createStep (files : DebugFiles) (r : RunConfig) (vmlinux : String) (s : Shared) :
    CreatePc → Except Disabled (Shared × CreatePc)
  | .new =>
    match files.vmlinux with
    | none => .ok (s, .setErr (.new vmlinux))
    | some a2l => .ok (s, .sysBPF a2l)
  | .sysBPF a2l =>
    match a2l (r.kaslr.effectiveAddr r.sysBPF) with
    | .error err => .ok (s, .setErr (.sysBPF err))
    | .ok entry => .ok (s, .checkName a2l entry.file)
  | .checkName a2l file =>
    if file.length < bpfSyscallFile.length then .ok (s, .setErr (.fileName file))
    else .ok (s, .setBuildDir a2l file)
  | .setErr err => .ok ({ s with err := some err }, .returned)
  | .setBuildDir a2l file => .ok ({ s with buildDir := buildDirOf file }, .close a2l)
  | .close a2l => .ok ({ s with closed := true }, .setReady a2l)
  | .setReady a2l => .ok ({ s with ready := true }, .setA2l a2l)
  | .setA2l a2l => .ok ({ s with a2l := some a2l }, .returned)
  | .returned => .error .disabled

/-- A call of `wait` or `get`, up to the use of the field `a2l`. No call
writes a field. -/
def callStep (s : Shared) (hit : Bool) : CallPc → Except Disabled CallPc
  | .lookup => .ok (if hit then .cached else .testReady .get)
  | .testReady call => .ok (if s.ready then .readErr call else .receive call)
  | .receive call => if s.closed then .ok (.readErr call) else .error .disabled
  | .readErr call => .ok (.waited call s.err)
  | .waited .get none => .ok (.fetched s.a2l)
  | _ => .error .disabled

def Call.start : Call → CallPc
  | .wait => .testReady .wait
  | .get => .lookup

namespace Waiting

variable {ι : Type} [DecidableEq ι]

/-- Behind `NewAddr2Line`. -/
def init : Waiting ι where
  shared := { ready := false, err := none, closed := false, a2l := none, buildDir := "" }
  create := .new
  calls _ := .idle

def step (files : DebugFiles) (r : RunConfig) (vmlinux : String) (w : Waiting ι) :
    WaitEvent ι → Except Disabled (Waiting ι)
  | .create => do
    let (shared, pc) ← createStep files r vmlinux w.shared w.create
    return { w with shared := shared, create := pc }
  | .start i call =>
    match w.calls i with
    | .idle => .ok { w with calls := Function.update w.calls i call.start }
    | _ => .error .disabled
  | .next i hit => do
    let pc ← callStep w.shared hit (w.calls i)
    return { w with calls := Function.update w.calls i pc }

def run (files : DebugFiles) (r : RunConfig) (vmlinux : String) (events : List (WaitEvent ι)) :
    Except Disabled (Waiting ι) :=
  events.foldlM (step files r vmlinux) init

end Waiting

/-! ## What readiness means -/

/-- `wait` has returned nil to the call. -/
def CallPc.WaitedNil : CallPc → Prop
  | .waited _ none => True
  | .fetched _ => True
  | _ => False

/-- `vmlinux` was opened as `a2l`, and `file` is the source file of the
system call. -/
def Opened (files : DebugFiles) (r : RunConfig) (a2l : Lines) (file : String) : Prop :=
  files.vmlinux = some a2l ∧ ∃ entry, a2l (r.kaslr.effectiveAddr r.sysBPF) = .ok entry ∧ entry.file = file

/-- The fields `a2l` and `buildDir` are set. -/
def Shared.Filled (files : DebugFiles) (r : RunConfig) (s : Shared) : Prop :=
  ∃ a2l file, Opened files r a2l file ∧ s.a2l = some a2l ∧ s.buildDir = buildDirOf file

/-- A `create` that has returned left `done` closed, and a call that `wait`
returned nil to finds the fields set. -/
structure Ready (files : DebugFiles) (r : RunConfig) (w : Waiting ι) : Prop where
  closed : w.create = .returned → w.shared.closed = true
  filled : ∀ i, (w.calls i).WaitedNil → w.shared.Filled files r

/-- The step is not the error return of `create`, and no return of `wait`
before `create` has returned. -/
def Timely (w : Waiting ι) : WaitEvent ι → Prop
  | .create => ∀ err, w.create ≠ .setErr err
  | .start _ _ => True
  | .next i _ => (∃ call, w.calls i = .readErr call) → w.create = .returned

/-! ## The invariant -/

/-- No field but `buildDir` was written. -/
structure Shared.Untouched (s : Shared) : Prop where
  ready : s.ready = false
  err : s.err = none
  closed : s.closed = false
  a2l : s.a2l = none

/-- The field `buildDir` is set, and nothing stops `create`. -/
def Shared.Built (files : DebugFiles) (r : RunConfig) (s : Shared) (a2l : Lines) : Prop :=
  created files r = true ∧ ∃ file, Opened files r a2l file ∧ s.buildDir = buildDirOf file

/-- What the fields hold where `create` stands. -/
def CreateOk (files : DebugFiles) (r : RunConfig) (s : Shared) : CreatePc → Prop
  | .new => s.Untouched
  | .sysBPF a2l => s.Untouched ∧ files.vmlinux = some a2l
  | .checkName a2l file => s.Untouched ∧ Opened files r a2l file
  | .setErr _ => s.Untouched ∧ created files r = false
  | .setBuildDir a2l file => s.Untouched ∧ Opened files r a2l file ∧ created files r = true
  | .close a2l => s.Untouched ∧ s.Built files r a2l
  | .setReady a2l => s.err = none ∧ s.closed = true ∧ s.a2l = none ∧ s.Built files r a2l
  | .setA2l a2l => s.err = none ∧ s.closed = true ∧ s.a2l = none ∧ s.Built files r a2l
  | .returned => s.closed = true ∧ s.err = none ∧ s.Filled files r ∧ created files r = true ∨
      s.closed = false ∧ s.ready = false ∧ created files r = false

/-- A call gets past `ready` and `done` only behind the close. -/
def CallOk (s : Shared) : CallPc → Prop
  | .readErr _ | .fetched _ => s.closed = true
  | .waited _ err => s.closed = true ∧ err = none
  | _ => True

structure WaitingOk (files : DebugFiles) (r : RunConfig) (w : Waiting ι) : Prop where
  create : CreateOk files r w.shared w.create
  ready : w.shared.ready = true → w.shared.closed = true
  calls : ∀ i, CallOk w.shared (w.calls i)

section Steps

variable {ι : Type} [DecidableEq ι] {files : DebugFiles} {r : RunConfig} {vmlinux : String} {s s' : Shared}
  {pc pc' : CreatePc} {w w' : Waiting ι} {e : WaitEvent ι}

/-- What a step does. -/
theorem step_cases (h : Waiting.step files r vmlinux w e = .ok w') :
    (e = .create ∧ ∃ s pc, createStep files r vmlinux w.shared w.create = .ok (s, pc) ∧
      w' = { w with shared := s, create := pc }) ∨
    (∃ i call, e = .start i call ∧ w.calls i = .idle ∧
      w' = { w with calls := Function.update w.calls i call.start }) ∨
    ∃ i hit pc, e = .next i hit ∧ callStep w.shared hit (w.calls i) = .ok pc ∧
      w' = { w with calls := Function.update w.calls i pc } := by
  cases e with
  | create =>
    cases hstep : createStep files r vmlinux w.shared w.create with
    | error x => simp [Waiting.step, hstep, bind, Except.bind] at h
    | ok p =>
      simp only [Waiting.step, hstep, bind, Except.bind, pure, Except.pure, Except.ok.injEq] at h
      exact .inl ⟨rfl, p.1, p.2, rfl, h.symm⟩
  | start i call =>
    simp only [Waiting.step] at h
    split at h
    · rename_i hidle
      exact .inr (.inl ⟨i, call, rfl, hidle, (Except.ok.inj h).symm⟩)
    · simp at h
  | next i hit =>
    cases hstep : callStep w.shared hit (w.calls i) with
    | error x => simp [Waiting.step, hstep, bind, Except.bind] at h
    | ok pc =>
      simp only [Waiting.step, hstep, bind, Except.bind, pure, Except.pure, Except.ok.injEq] at h
      exact .inr (.inr ⟨i, hit, pc, rfl, hstep, h.symm⟩)

/-- `done` stays closed, and the error is never set behind the close. -/
theorem createStep_ok (hok : CreateOk files r s pc) (h : createStep files r vmlinux s pc = .ok (s', pc')) :
    CreateOk files r s' pc' ∧ (s.closed = true → s'.closed = true) ∧
      ((s.ready = true → s.closed = true) → s'.ready = true → s'.closed = true) := by
  cases pc with
  | new =>
    simp only [createStep] at h
    split at h
    · rename_i hnone
      cases h
      exact ⟨⟨hok, by simp [created, hnone]⟩, id, id⟩
    · rename_i a2l hsome
      cases h
      exact ⟨⟨hok, hsome⟩, id, id⟩
  | sysBPF a2l =>
    obtain ⟨hun, hopen⟩ := hok
    simp only [createStep] at h
    split at h
    · rename_i err herr
      cases h
      exact ⟨⟨hun, by simp [created, hopen, herr]⟩, id, id⟩
    · rename_i entry hentry
      cases h
      exact ⟨⟨hun, hopen, entry, hentry, rfl⟩, id, id⟩
  | checkName a2l file =>
    obtain ⟨hun, hopen, entry, hentry, hfile⟩ := hok
    simp only [createStep] at h
    have hcreated : created files r = decide (bpfSyscallFile.length ≤ file.length) := by
      simp only [created, hopen, hentry, hfile]
    split at h
    · rename_i hshort
      cases h
      exact ⟨⟨hun, hcreated.trans (decide_eq_false (by omega))⟩, id, id⟩
    · rename_i hlong
      cases h
      exact ⟨⟨hun, ⟨hopen, entry, hentry, hfile⟩, hcreated.trans (decide_eq_true (by omega))⟩, id, id⟩
  | setErr err =>
    obtain ⟨hun, hfail⟩ := hok
    cases h
    exact ⟨.inr ⟨hun.closed, hun.ready, hfail⟩, id, id⟩
  | setBuildDir a2l file =>
    obtain ⟨hun, hopen, hcreated⟩ := hok
    cases h
    exact ⟨⟨⟨hun.ready, hun.err, hun.closed, hun.a2l⟩, hcreated, file, hopen, rfl⟩, id, id⟩
  | close a2l =>
    obtain ⟨hun, hbuilt⟩ := hok
    cases h
    exact ⟨⟨hun.err, rfl, hun.a2l, hbuilt⟩, fun _ => rfl, fun _ _ => rfl⟩
  | setReady a2l =>
    obtain ⟨herr, hclosed, ha2l, hbuilt⟩ := hok
    cases h
    exact ⟨⟨herr, hclosed, ha2l, hbuilt⟩, id, fun _ _ => hclosed⟩
  | setA2l a2l =>
    obtain ⟨herr, hclosed, -, hcreated, file, hopen, hdir⟩ := hok
    cases h
    exact ⟨.inl ⟨hclosed, herr, ⟨a2l, file, hopen, rfl, hdir⟩, hcreated⟩, id, id⟩
  | returned => simp [createStep] at h

/-- Behind the close, no error is set. -/
theorem CreateOk.err_none (h : CreateOk files r s pc) (hclosed : s.closed = true) : s.err = none := by
  cases pc with
  | new => exact h.err
  | sysBPF => exact h.1.err
  | checkName => exact h.1.err
  | setErr => exact h.1.err
  | setBuildDir => exact h.1.err
  | close => exact h.1.err
  | setReady => exact h.1
  | setA2l => exact h.1
  | returned =>
    rcases h with h | h
    · exact h.2.1
    · simp [h.1] at hclosed

/-- The field `a2l` is set by the last step of `create` only. -/
theorem CreateOk.a2l_none (h : CreateOk files r s pc) (hpc : pc ≠ .returned) : s.a2l = none := by
  cases pc with
  | new => exact h.a2l
  | sysBPF => exact h.1.a2l
  | checkName => exact h.1.a2l
  | setErr => exact h.1.a2l
  | setBuildDir => exact h.1.a2l
  | close => exact h.1.a2l
  | setReady => exact h.2.2.1
  | setA2l => exact h.2.2.1
  | returned => exact absurd rfl hpc

theorem callStep_ok {hit : Bool} {call call' : CallPc} (hcreate : CreateOk files r s pc)
    (hready : s.ready = true → s.closed = true) (hcall : CallOk s call)
    (h : callStep s hit call = .ok call') : CallOk s call' := by
  cases call with
  | idle => simp [callStep] at h
  | lookup =>
    cases hit <;> cases h <;> trivial
  | testReady call =>
    simp only [callStep, Except.ok.injEq] at h
    split at h
    · rename_i hr
      subst h
      exact hready hr
    · subst h
      trivial
  | receive call =>
    simp only [callStep] at h
    split at h
    · rename_i hclosed
      cases h
      exact hclosed
    · simp at h
  | readErr call =>
    cases h
    exact ⟨hcall, hcreate.err_none hcall⟩
  | waited call err =>
    obtain ⟨hclosed, rfl⟩ := hcall
    cases call with
    | wait => simp [callStep] at h
    | get =>
      cases h
      exact hclosed
  | fetched => simp [callStep] at h
  | cached => simp [callStep] at h

theorem CallOk.mono {call : CallPc} (h : CallOk s call) (hclosed : s.closed = true → s'.closed = true) :
    CallOk s' call := by
  cases call with
  | readErr => exact hclosed h
  | fetched => exact hclosed h
  | waited => exact ⟨hclosed h.1, h.2⟩
  | _ => trivial

omit [DecidableEq ι] in
theorem WaitingOk.init : WaitingOk files r (.init : Waiting ι) where
  create := ⟨rfl, rfl, rfl, rfl⟩
  ready h := by simp [Waiting.init] at h
  calls _ := trivial

theorem WaitingOk.step (hok : WaitingOk files r w) (h : w.step files r vmlinux e = .ok w') :
    WaitingOk files r w' := by
  obtain ⟨-, s, pc, hstep, rfl⟩ | ⟨i, call, -, -, rfl⟩ | ⟨i, hit, pc, -, hstep, rfl⟩ := step_cases h
  · obtain ⟨hcreate, hclosed, hready⟩ := createStep_ok hok.create hstep
    exact ⟨hcreate, hready hok.ready, fun i => (hok.calls i).mono hclosed⟩
  · refine ⟨hok.create, hok.ready, fun j => ?_⟩
    by_cases hj : j = i
    · subst hj
      simp only [Function.update_self]
      cases call <;> trivial
    · simpa only [Function.update_of_ne hj] using hok.calls j
  · refine ⟨hok.create, hok.ready, fun j => ?_⟩
    by_cases hj : j = i
    · subst hj
      simpa only [Function.update_self] using callStep_ok hok.create hok.ready (hok.calls j) hstep
    · simpa only [Function.update_of_ne hj] using hok.calls j

/-! ## The theorem -/

/-- A call that `wait` returned nil to is behind the close. -/
theorem CallOk.closed_of_waitedNil {call : CallPc} (h : CallOk s call) (hnil : call.WaitedNil) :
    s.closed = true := by
  cases call with
  | waited => exact h.1
  | fetched => exact h
  | _ => exact hnil.elim

theorem Shared.Filled.a2l_ne_none (h : s.Filled files r) : s.a2l ≠ none := by
  obtain ⟨a2l, file, -, ha2l, -⟩ := h
  simp [ha2l]

/-- Behind the close, `create` has returned if and only if the fields are
set. -/
theorem CreateOk.filled_iff (h : CreateOk files r s pc) (hclosed : s.closed = true) :
    s.Filled files r ↔ pc = .returned := by
  constructor
  · intro hfilled
    by_contra hpc
    exact hfilled.a2l_ne_none (h.a2l_none hpc)
  · rintro rfl
    rcases h with h | h
    · exact h.2.2.1
    · simp [h.1] at hclosed

/-- No step of `create` takes the fields back. -/
theorem createStep_filled (hok : CreateOk files r s pc) (hfilled : s.Filled files r)
    (h : createStep files r vmlinux s pc = .ok (s', pc')) : False := by
  have hpc : pc = .returned := by
    by_contra hpc
    exact hfilled.a2l_ne_none (hok.a2l_none hpc)
  subst hpc
  simp [createStep] at h

/-- `create` returns through its error return, or with `done` closed. -/
theorem createStep_returned (hok : CreateOk files r s pc)
    (h : createStep files r vmlinux s pc = .ok (s', .returned)) :
    s'.closed = true ↔ ∀ err, pc ≠ .setErr err := by
  cases pc with
  | setErr err =>
    cases h
    simp [hok.1.closed]
  | setA2l a2l =>
    cases h
    simp [hok.2.1]
  | new =>
    simp only [createStep] at h
    split at h <;> simp at h
  | sysBPF a2l =>
    simp only [createStep] at h
    split at h <;> simp at h
  | checkName a2l file =>
    simp only [createStep] at h
    split at h <;> simp at h
  | setBuildDir => simp [createStep] at h
  | close => simp [createStep] at h
  | setReady => simp [createStep] at h
  | returned => simp [createStep] at h

/-- Only the return of `wait` makes a call one that `wait` has returned nil
to. -/
theorem waitedNil_of_step {hit : Bool} {call call' : CallPc} (hread : ∀ kind, call ≠ .readErr kind)
    (h : callStep s hit call = .ok call') (hnil : call'.WaitedNil) : call.WaitedNil := by
  cases call with
  | readErr kind => exact absurd rfl (hread kind)
  | lookup =>
    cases hit <;> cases h <;> exact hnil.elim
  | testReady kind =>
    simp only [callStep, Except.ok.injEq] at h
    split at h <;> subst h <;> exact hnil.elim
  | receive kind =>
    simp only [callStep] at h
    split at h
    · cases h
      exact hnil.elim
    · simp at h
  | waited kind err =>
    cases kind with
    | wait => simp [callStep] at h
    | get =>
      cases err with
      | none => trivial
      | some err => simp [callStep] at h
  | idle => simp [callStep] at h
  | fetched => simp [callStep] at h
  | cached => simp [callStep] at h

/-- What one step does to readiness. -/
theorem ready_step_iff (hok : WaitingOk files r w) (hr : Ready files r w)
    (h : w.step files r vmlinux e = .ok w') : Ready files r w' ↔ Timely w e := by
  have hok' := hok.step h
  obtain ⟨rfl, s, pc, hstep, rfl⟩ | ⟨i, call, rfl, hidle, rfl⟩ | ⟨i, hit, pc, rfl, hstep, rfl⟩ := step_cases h
  · -- nobody has passed, or the fields would be set and `create` at its end
    have hnone : ∀ i, ¬ (w.calls i).WaitedNil := fun i hi =>
      createStep_filled hok.create (hr.filled i hi) hstep
    constructor
    · intro hready err herr
      rw [herr] at hstep
      have hret : pc = .returned := by
        cases hstep
        rfl
      subst hret
      exact (createStep_returned hok.create (herr ▸ hstep)).mp (hready.closed rfl) err herr
    · intro htimely
      refine ⟨fun hret => ?_, fun i hi => absurd hi (hnone i)⟩
      obtain rfl : pc = .returned := hret
      exact (createStep_returned hok.create hstep).mpr htimely
  · refine iff_of_true ⟨hr.closed, fun j hj => ?_⟩ trivial
    by_cases hji : j = i
    · subst hji
      simp only [Function.update_self] at hj
      cases call <;> exact hj.elim
    · simp only [Function.update_of_ne hji] at hj
      exact hr.filled j hj
  · by_cases hread : ∃ call, w.calls i = .readErr call
    · -- `wait` returns, and it returns nil
      obtain ⟨call, hcall⟩ := hread
      have hclosed : w.shared.closed = true := by
        have hi := hok.calls i
        rwa [hcall] at hi
      have herr := hok.create.err_none hclosed
      rw [hcall] at hstep
      cases hstep
      constructor
      · intro hready _
        refine (hok.create.filled_iff hclosed).mp (hready.filled i ?_)
        simp only [Function.update_self, herr]
        trivial
      · intro htimely
        have hfilled := (hok.create.filled_iff hclosed).mpr (htimely ⟨call, hcall⟩)
        exact ⟨hr.closed, fun _ _ => hfilled⟩
    · refine iff_of_true ⟨hr.closed, fun j hj => ?_⟩ fun h => absurd h hread
      by_cases hji : j = i
      · subst hji
        simp only [Function.update_self] at hj
        exact hr.filled j (waitedNil_of_step (fun call hcall => hread ⟨call, hcall⟩) hstep hj)
      · simp only [Function.update_of_ne hji] at hj
        exact hr.filled j hj

/-- **Readiness.** In every run, a `create` that has returned left `done`
closed and every call that `wait` returned nil to found `a2l` and
`buildDir` set, in every state of the run, if and only if no step of the
run is an error return of `create`, or a return of `wait` before `create`
has returned. -/
theorem run_ready_iff {events : List (WaitEvent ι)}
    (hrun : Waiting.run files r vmlinux events = .ok w) :
    (∀ before after u, events = before ++ after → Waiting.run files r vmlinux before = .ok u →
        Ready files r u) ↔
      ∀ before e after u, events = before ++ e :: after → Waiting.run files r vmlinux before = .ok u →
        Timely u e :=
  foldlM_always_iff ⟨.init, (fun h => by simp [Waiting.init] at h), fun _ h => h.elim⟩
    (fun _ _ _ hok hstep => hok.step hstep) (fun _ _ _ => ready_step_iff) hrun

/-- The invariant of every run. -/
theorem run_ok {events : List (WaitEvent ι)} (hrun : Waiting.run files r vmlinux events = .ok w) :
    WaitingOk files r w :=
  foldlM_invariant (I := fun _ w => WaitingOk files r w) .init (fun _ _ _ _ hok hstep => hok.step hstep) hrun

/-- Whether `create` leaves `done` closed is a matter of the debug file
alone. -/
theorem returned_closed_iff {events : List (WaitEvent ι)}
    (hrun : Waiting.run files r vmlinux events = .ok w) (hret : w.create = .returned) :
    w.shared.closed = true ↔ created files r = true := by
  have hcreate := (run_ok hrun).create
  rw [hret] at hcreate
  rcases hcreate with ⟨hclosed, -, -, hcreated⟩ | ⟨hclosed, -, hfail⟩
  · exact iff_of_true hclosed hcreated
  · rw [hclosed, hfail]

/-- `wait` never returns an error: a call that would get one waits for
ever. -/
theorem wait_returns_nil {events : List (WaitEvent ι)} {i : ι} {call : Call} {err : Option CreateError}
    (hrun : Waiting.run files r vmlinux events = .ok w) (h : w.calls i = .waited call err) : err = none := by
  have hcall := (run_ok hrun).calls i
  rw [h] at hcall
  exact hcall.2

end Steps

/-! ### A call in front of the last assignment

`create` closes `done` before it sets `a2l`. -/

/-- A debug file whose addresses are lines of the system call. -/
def syscallFile : DebugFiles where
  vmlinux := some fun _ => .ok { func := "", file := "/usr/src/" ++ bpfSyscallFile, line := 1 }
  kmods _ := .notFound

def noFile : DebugFiles where
  vmlinux := none
  kmods _ := .notFound

def noConfig : RunConfig where
  kaslr := { kaddr := 0, saddr := 0 }
  sysBPF := 0
  stext := 0

/-- A `get` receives from `done` right behind the close. -/
def earlyGet : List (WaitEvent Unit) :=
  [.create, .start () .get, .next () false, .next () false, .create, .create, .create, .create,
    .next () false, .next () false, .next () false]

/-- The `get` has come through `wait`, and finds no debug file. -/
theorem early_get_finds_nothing :
    (∃ w, Waiting.run noFile noConfig "vmlinux" [.create, .create] = .ok (w : Waiting Unit) ∧
      ¬ Ready noFile noConfig w) ∧
    ∃ w, Waiting.run syscallFile noConfig "vmlinux" earlyGet = .ok w ∧ w.calls () = .fetched none ∧
      ¬ Ready syscallFile noConfig w := by
  refine ⟨⟨_, rfl, fun h => ?_⟩, ⟨_, rfl, rfl, fun h => ?_⟩⟩
  · exact absurd (h.closed rfl) (by decide)
  · exact (h.filled () trivial).a2l_ne_none rfl

/-- A `wait` behind the end of `create`. -/
def lateWait : List (WaitEvent Unit) :=
  [.create, .create, .create, .create, .create, .create, .create, .start () .wait, .next () false,
    .next () false]

theorem late_wait_ready : ∃ w, Waiting.run syscallFile noConfig "vmlinux" lateWait = .ok w ∧
    ((∀ before after u, lateWait = before ++ after →
        Waiting.run syscallFile noConfig "vmlinux" before = .ok u → Ready syscallFile noConfig u) ↔
      ∀ before e after u, lateWait = before ++ e :: after →
        Waiting.run syscallFile noConfig "vmlinux" before = .ok u → Timely u e) :=
  ⟨_, rfl, run_ready_iff rfl⟩

end Bpfsnoop.Trace
