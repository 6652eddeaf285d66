/-
Bpfsnoop.Trace.EventLoop — `Run`, from the records of the ring buffer to the
text that is written.

A function event of a tracee without session is written when it comes. The
text of every other event is kept in the session it belongs to, and the exit
event writes what the session has kept. What the outside answers while a
record is handled (the clock, the LBR and the stack map) comes with the
record; how arguments, packets and stacks are rendered is a parameter. Only
the plain output is modelled, not the colours, and not what is rendered
behind the loop (histogram, t-digest, flame graph).

`FuncInfo`, `FuncModes` and the sessions are those of `Trace.Records` and
`Trace.Sessions`; here the sessions have their outputs too.
-/
import Bpfsnoop.Lib.Keyed
import Bpfsnoop.Trace.OutputArg
import Bpfsnoop.Trace.Records
import Bpfsnoop.Trace.Sessions

namespace Bpfsnoop.Trace.EventLoop

open Ebpf Btf CC Lib

/-- How handling a record ends early: a panic, or an error, with what was
being done. -/
inductive Fault where
  | panic (p : GoPanic)
  | failed (what : String) (err : String)
  deriving DecidableEq, Repr

/-! ## Functions -/

/-- What is known of a traced function, kernel function or BPF program. -/
structure Traced extends Trace.FuncInfo where
  name : String
  proto : Option FuncProto
  args : List FuncArgumentOutput
  params : List FuncParamFlags
  retParam : FuncParamFlags
  lbr : Bool
  stack : Bool
  graph : Bool
  both : Bool

/-- `bpfProgFuncInfo`, whose `name` is `funcName`. -/
structure BpfProgFuncInfo extends Traced where
  progType : Nat

/-- `KFunc`, whose `name` is that of the function in BTF. -/
structure KFunc extends Traced where
  insn : Bool
  isTp : Bool

structure FuncGraph where
  kfunc : Option KFunc
  bprog : Option BpfProgFuncInfo
  argsEnSz : Nat
  argsExSz : Nat

structure FuncInsn where
  func : String
  desc : String

/-- `funcInfo`. -/
structure FuncInfo extends Trace.FuncInfo, FuncModes where
  funcIP : Word
  name : String
  proto : Option FuncProto := none
  args : List FuncArgumentOutput := []
  params : List FuncParamFlags := []
  retParam : FuncParamFlags := {}
  lbrMode : Bool := false
  stckMode : Bool := false
  isProg : Bool := false
  progType : Nat := 0

/-- The functions `Run` has to render the parts of a record. -/
structure Renderers where
  /-- `outputFnArgs`. -/
  fnArgs : FuncInfo → List Byte → Bool → Except Fault String
  /-- `outputPktTuple`. -/
  pktTuple : List Byte → String
  /-- `outputFuncArgAttrs`. -/
  argAttrs : FuncInfo → List Byte → Except Fault String

structure Helpers where
  /-- `runDurationThreshold`. -/
  runDelta : Int
  progs : Word → Option BpfProgFuncInfo
  /-- The name of the symbol `Ksyms.find` gives. -/
  ksyms : Word → Option String
  kfuncs : Word → Option KFunc
  insns : Word → Option FuncInsn
  graphs : Word → Option FuncGraph
  /-- `0x%x`. -/
  hex : Word → String
  render : Renderers

/-- The fields a program and a kernel function share. -/
def Traced.view (fn : Traced) (funcIP : Word) (name : String) : FuncInfo where
  toFuncInfo := fn.toFuncInfo
  funcIP := funcIP
  name := name
  proto := fn.proto
  args := fn.args
  params := fn.params
  retParam := fn.retParam
  lbrMode := fn.lbr
  stckMode := fn.stack
  grphMode := fn.graph
  bothMode := fn.both

/-- `getFuncInfo`. -/
def getFuncInfo (h : Helpers) (funcIP : Word) (graph : Option FuncGraph) : FuncInfo :=
  match (h.progs funcIP).or (graph.bind (·.bprog)) with
  | some prog =>
    { prog.view funcIP (prog.name ++ "[bpf]") with isProg := true, progType := prog.progType }
  | none =>
    let name := (h.ksyms funcIP).getD (h.hex funcIP)
    match (h.kfuncs funcIP).or (graph.bind (·.kfunc)) with
    | none => { funcIP := funcIP, name := name }
    | some fn =>
      let name := if fn.isTp then fn.name ++ "[tp]" else name
      { fn.view funcIP name with insnMode := fn.insn, isTp := fn.isTp }

/-! ## Records -/

structure InsnEvent where
  kernNs : BitVec 32
  sessID : Word
  insnIP : Word
  cpu : BitVec 32
  deriving DecidableEq

def eventTypeFuncEntry : BitVec 16 := 1
def eventTypeFuncExit : BitVec 16 := 2

/-- `Event`, with the NUL-terminated text of `Comm`. -/
structure Event where
  type : BitVec 16
  kernNs : BitVec 32
  sessID : Word
  funcIP : Word
  cpu : BitVec 32
  pid : BitVec 32
  comm : String
  stackID : BitVec 64
  deriving DecidableEq

/-- What the outside answers: the time of day, and what `lbrStack.outputStack`
and `fnStack.output` find in their maps. -/
structure Answers where
  currts : String
  lbrStack : Except String String
  fnStack : Except String String

/-- A record, with what follows its header. The data of a graph event reach
to the capacity of the slice that Go is given, as the handler cuts them by a
length and not by that of the slice; those of a function event end with the
record. -/
inductive Record where
  | insn (event : InsnEvent)
  | graph (isExit : Bool) (event : GraphEvent) (length : BitVec 16) (data : List Byte)
  /-- Of another type, and shorter than an `Event`. -/
  | short
  | func (event : Event) (data : List Byte) (found : Answers)

/-! ## Texts -/

/-- `fmtFrac` of a `time.Duration`: `v` with `prec` digits behind the point,
without the zeros at the end. -/
def fmtFrac (v prec : Nat) : String :=
  let frac := ((v % 10 ^ prec + 10 ^ prec).repr.toList.drop 1).reverse.dropWhile (· = '0')
  (v / 10 ^ prec).repr ++ (if frac = [] then "" else "." ++ String.ofList frac.reverse)

/-- A `time.Duration` below a minute: the clocks of the events have 32 bits. -/
def durationString (d : BitVec 32) : String :=
  let ns := d.toNat
  if ns = 0 then "0s"
  else if ns < 1000 then ns.repr ++ "ns"
  else if ns < 1000000 then fmtFrac ns 3 ++ "µs"
  else if ns < 1000000000 then fmtFrac ns 6 ++ "ms"
  else fmtFrac ns 9 ++ "s"

/-- `%-*s`. -/
def padded (width : Nat) (s : String) : String := s ++ String.ofList (List.replicate (width - s.length) ' ')

/-- `data[:n]` and `data[n:]`. -/
def cutData (n : Nat) (data : List Byte) : Except Fault (List Byte × List Byte) :=
  if n ≤ data.length then .ok (data.take n, data.drop n) else .error (.panic .sliceOutOfRange)

/-- `outputFuncInfo`: the text, and the data behind the arguments. -/
def outputFuncInfo (h : Helpers) (info : FuncInfo) (entrySz exitSz : Nat) (exit : Bool) (data : List Byte) :
    Except Fault (String × List Byte) := do
  let arrow := if exit then "← " else if info.isTp then "- " else "→ "
  let fnName := arrow ++ info.name ++ " args"
  let argSz := if exit then exitSz else entrySz
  if argSz ≠ 0 then
    let (args, rest) ← cutData argSz data
    let text ← h.render.fnArgs info args exit
    return (fnName ++ text, rest)
  else return (fnName ++ "=()" ++ (if exit then " retval=(void)" else ""), data)

/-- The text of a function event: the line of the call, the packet, the
output arguments and the stacks. -/
def funcText (h : Helpers) (info : FuncInfo) (event : Event) (duration : BitVec 32) (data : List Byte)
    (found : Answers) : Except Fault String := do
  let haveRetval := event.type = eventTypeFuncExit
  let (call, data) ← outputFuncInfo h info info.argEntry info.argExit haveRetval data
  let line := call ++ " cpu=" ++ event.cpu.toNat.repr ++
    " process=(" ++ event.pid.toNat.repr ++ ":" ++ event.comm ++ ")" ++
    (if info.requiredSession ∧ haveRetval then " duration=" ++ durationString duration else "") ++
    " timestamp=" ++ found.currts ++ "\n"
  let (pkt, data) ←
    if info.pktTuple then do
      let (tuple, data) ← cutData sizeOfPktData data
      pure (h.render.pktTuple tuple, data)
    else pure ("", data)
  let attrs ←
    if info.argData ≠ 0 then do
      let (args, _) ← cutData info.argData data
      h.render.argAttrs info args
    else pure ""
  let lbr ←
    if info.lbrMode then found.lbrStack.mapError (Fault.failed "failed to output LBR stack: ")
    else pure ""
  let stack ←
    if info.stckMode ∧ 0 ≤ event.stackID.toInt then
      found.fnStack.mapError (Fault.failed "failed to output function stack: ")
    else pure ""
  return line ++ pkt ++ attrs ++ lbr ++ stack

/-- The text of `outputInsnEvent`. -/
def insnText (insn : FuncInsn) (event : InsnEvent) (duration : BitVec 32) : String :=
  insn.func ++ " cpu=" ++ padded 2 event.cpu.toNat.repr ++
    " duration=" ++ padded 12 (durationString duration) ++ " insn=" ++ insn.desc ++ "\n"

/-- The text of `outputGraphEvent`. -/
def graphText (event : GraphEvent) (fnInfo : String) (cost duration : BitVec 32) : String :=
  String.join (List.replicate event.depth.toNat "  ") ++ fnInfo ++
    " cpu=" ++ event.cpu.toNat.repr ++ " depth=" ++ event.depth.toNat.repr ++
    " duration=" ++ durationString cost ++ "|" ++ durationString duration ++ "\n"

/-! ## Sessions with their outputs -/

structure Session extends Trace.Session where
  outputs : List String
  deriving DecidableEq

namespace Session

/-- The session `Add` makes. -/
def start (started : BitVec 32) (graph : Bool) : Session where
  started := started
  tstamps := if graph then [started] else []
  lastidx := 0
  outputs := []

/-- `sess.outputs = append(sess.outputs, text)`. -/
def keep (s : Session) (text : String) : Session := { s with outputs := s.outputs ++ [text] }

end Session

abbrev Sessions := Word → Option Session

/-- What handling a record writes, and `outputEvent`. -/
structure Written where
  texts : List String
  outputEvent : Bool

/-- Nothing is written. -/
def Written.none : Written := ⟨[], false⟩

/-- `outputInsnEvent`. -/
def outputInsnEvent (h : Helpers) (ss : Sessions) (event : InsnEvent) : Sessions :=
  match h.insns event.insnIP with
  | none => ss
  | some insn =>
    match ss event.sessID with
    | none => ss
    | some sess =>
      let text := insnText insn event (event.kernNs - sess.started)
      Function.update ss event.sessID (some (sess.keep text))

/-- `outputGraphEvent`. -/
def outputGraphEvent (ss : Sessions) (event : GraphEvent) (fnInfo : String) (isEntry : Bool) :
    Except Fault Sessions :=
  match ss event.sessID with
  | none => .ok ss
  | some sess =>
    match sess.lastTstamp with
    | .error p => .error (.panic p)
    | .ok last =>
      let moved := if isEntry then sess.pushTstamp event.kernNs else sess.popTstamp
      let text := graphText event fnInfo (event.kernNs - last) (event.kernNs - sess.started)
      .ok (Function.update ss event.sessID
        (some (({ toSession := moved, outputs := sess.outputs } : Session).keep text)))

/-- The branch of `record.Handle` for graph events. -/
def handleGraph (h : Helpers) (ss : Sessions) (isExit : Bool) (event : GraphEvent) (length : BitVec 16)
    (data : List Byte) : Except Fault Sessions := do
  match h.graphs event.funcIP with
  | none => return ss
  | some graph =>
    let fnInfo := getFuncInfo h event.funcIP (some graph)
    let (data, _) ← cutData length.toNat data
    let (text, _) ← outputFuncInfo h fnInfo graph.argsEnSz graph.argsExSz isExit data
    outputGraphEvent ss event text (!isExit)

/-- The branch for function events. -/
def handleFunc (h : Helpers) (ss : Sessions) (event : Event) (data : List Byte) (found : Answers) :
    Except Fault (Sessions × Written) := do
  let info := getFuncInfo h event.funcIP none
  if info.requiredSession then
    if event.type = eventTypeFuncEntry then
      let sess := Session.start event.kernNs info.grphMode
      let text ← funcText h info event 0 data found
      return (Function.update ss event.sessID (some (sess.keep text)), .none)
    else
      match ss (event.sessID + 1) with
      | none => return (ss, .none)  -- skip if session not found
      | some sess =>
        let ss := Function.update ss (event.sessID + 1) none
        let duration := event.kernNs - sess.started
        if (duration.toNat : Int) < h.runDelta then return (ss, .none)
        else
          let text ← funcText h info event duration data found
          if event.type = eventTypeFuncExit then
            return (ss, ⟨(sess.keep text).outputs ++ ["\n"], true⟩)
          else return (ss, .none)
  else
    let text ← funcText h info event 0 data found
    return (ss, ⟨[text ++ "\n"], true⟩)

/-- `record.Handle`. -/
def handle (h : Helpers) (ss : Sessions) (record : Record) : Except Fault (Sessions × Written) :=
  match record with
  | .insn event => .ok (outputInsnEvent h ss event, .none)
  | .graph isExit event length data => (handleGraph h ss isExit event length data).map (·, .none)
  | .short => .ok (ss, .none)
  | .func event data found => handleFunc h ss event data found

/-! ## The loop -/

/-- What `reader.ReadInto` does: it has a record handled, or fails. -/
inductive Read where
  | record (r : Record)
  | closed
  | failed (err : String)

/-- How `Run` comes back; `running` where it waits for the next record. -/
inductive Outcome where
  | running
  | closed
  | readFailed (err : String)
  | faulted (f : Fault)
  | finished
  deriving DecidableEq

/-- What `Run` has written, record by record, and how it came back. -/
structure Result where
  written : List Written
  outcome : Outcome

/-- The condition of the `for` loop of `Run`. -/
def goesOn (unlimited : Bool) (i : Int) : Bool := unlimited || 0 < i

/-- The loop, with the outputs that are left. -/
def loop (h : Helpers) (unlimited : Bool) (i : Int) (ss : Sessions) : List Read → Result
  | [] => ⟨[], if goesOn unlimited i then .running else .finished⟩
  | read :: rest =>
    if goesOn unlimited i then
      match read with
      | .closed => ⟨[], .closed⟩
      | .failed err => ⟨[], .readFailed err⟩
      | .record r =>
        match handle h ss r with
        | .error f => ⟨[], .faulted f⟩
        | .ok (ss, w) =>
          let res := loop h unlimited (if w.outputEvent then i - 1 else i) ss rest
          { res with written := w :: res.written }
    else ⟨[], .finished⟩

/-- `Run`. -/
def run (h : Helpers) (limitEvents : BitVec 64) (reads : List Read) : Result :=
  loop h (limitEvents = 0) limitEvents.toInt (fun _ => none) reads

end Bpfsnoop.Trace.EventLoop
