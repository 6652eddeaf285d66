/-
Bpfsnoop.Trace.Sessions — the sessions of user space, and the events that
open, use and close them.

A session is opened by the entry event of a tracee that needs one and
closed by its exit event, which carries the id minus 1. Graph and
instruction events look up the session their BPF program found on the
stack, whatever tracee opened it. Go panics are the errors of the model.
-/
import Bpfsnoop.Ebpf.Insn
import Mathlib.Logic.Function.Basic

namespace Bpfsnoop.Trace

open Ebpf

/-- The run-time panics of the modelled functions. -/
inductive GoPanic where
  | indexOutOfRange
  | sliceOutOfRange
  deriving DecidableEq, Repr

/-! ## Sessions -/

structure Session where
  started : BitVec 32
  tstamps : List (BitVec 32)
  lastidx : Nat
  deriving DecidableEq, Repr

namespace Session

/-- `lastTstamp`. -/
def lastTstamp (s : Session) : Except GoPanic (BitVec 32) :=
  match s.tstamps[s.lastidx]? with
  | some ts => .ok ts
  | none => .error .indexOutOfRange

/-- `pushTstamp`. -/
def pushTstamp (s : Session) (ts : BitVec 32) : Session :=
  { s with tstamps := s.tstamps ++ [ts], lastidx := s.lastidx + 1 }

/-- `popTstamp`. The slice ends within the timestamps: `lastTstamp` has
read the one at `lastidx`. -/
def popTstamp (s : Session) : Session :=
  if s.lastidx = 0 then s
  else { s with tstamps := s.tstamps.take s.lastidx, lastidx := s.lastidx - 1 }

end Session

/-- `Sessions`, by session id. -/
abbrev Sessions := Word → Option Session

namespace Sessions

def empty : Sessions := fun _ => none

/-- `Add`. Only the session of a graph tracee has timestamps. -/
def add (ss : Sessions) (sessID : Word) (started : BitVec 32) (graph : Bool) : Sessions :=
  Function.update ss sessID
    (some { started := started, tstamps := if graph then [started] else [], lastidx := 0 })

/-- `GetAndDel`, the map behind it. -/
def getAndDel (ss : Sessions) (sessID : Word) : Sessions := Function.update ss sessID none

end Sessions

/-! ## Events -/

structure GraphEvent where
  kernNs : BitVec 32
  sessID : Word
  funcIP : Word
  cpu : BitVec 32
  depth : BitVec 32
  deriving DecidableEq, Repr

/-- `entry` for the type `eventTypeFuncEntry`; every other type is taken
for an exit. -/
structure Event where
  entry : Bool
  kernNs : BitVec 32
  sessID : Word
  funcIP : Word
  deriving DecidableEq, Repr

inductive Record where
  | insn (sessID insnIP : Word)
  | graph (isExit : Bool) (event : GraphEvent)
  | func (event : Event)
  deriving DecidableEq, Repr

/-- The modes of a tracee, of `funcInfo`. -/
structure FuncModes where
  insnMode : Bool := false
  grphMode : Bool := false
  bothMode : Bool := false
  isTp : Bool := false
  deriving DecidableEq, Repr

/-- `requiredSession`. -/
def FuncModes.requiredSession (info : FuncModes) : Bool :=
  info.insnMode || info.grphMode || (info.bothMode && !info.isTp)

/-- What `Run` looks up for an address: the modes of the tracee there, and
whether a function graph has an entry for it. -/
structure Helpers where
  modes : Word → FuncModes
  graphs : Word → Bool

/-- `outputGraphEvent`: the sessions behind it, the cost and the
duration. -/
def outputGraphEvent (ss : Sessions) (event : GraphEvent) (isEntry : Bool) :
    Except GoPanic (Sessions × Option (BitVec 32 × BitVec 32)) :=
  match ss event.sessID with
  | none => .ok (ss, none)
  | some sess =>
    match sess.lastTstamp with
    | .error p => .error p
    | .ok last =>
      let sess' := if isEntry then sess.pushTstamp event.kernNs else sess.popTstamp
      .ok (Function.update ss event.sessID (some sess'),
        some (event.kernNs - last, event.kernNs - sess.started))

/-- What `record.Handle` does to the sessions. -/
def handle (h : Helpers) (ss : Sessions) (record : Record) : Except GoPanic Sessions :=
  match record with
  | .insn .. => .ok ss
  | .graph isExit event =>
    if h.graphs event.funcIP then
      (outputGraphEvent ss event (!isExit)).map (·.1)
    else .ok ss
  | .func event =>
    let info := h.modes event.funcIP
    if info.requiredSession then
      if event.entry then .ok (ss.add event.sessID event.kernNs info.grphMode)
      else .ok (ss.getAndDel (event.sessID + 1))
    else .ok ss

/-- `Run` over the records of the ring buffer. -/
def run (h : Helpers) (records : List Record) : Except GoPanic Sessions :=
  records.foldlM (handle h) Sessions.empty

end Bpfsnoop.Trace
