/-
Bpfsnoop.Trace.Records — the records of the ring buffer, written and read.

A record is a header and up to three parts: the function arguments, the
packet tuple, the data of the output arguments. User space computes the
sizes when it attaches the programs (`traceFunc`, `traceGraph`); it keeps
them in the `FuncInfo` of the function and hands them to the program as a
configuration. The program lays the record out by its configuration
(`emitEvent`, `emitGraphEvent`), user space reads it by the `FuncInfo`
(`handleEvent`, `handleGraphEvent`).

What is modelled is where the parts lie. The sessions a function event may
be dropped for are the subject of `Trace.Sessions`; instruction events
carry no part.
-/
import Bpfsnoop.Lib.Slices
import Bpfsnoop.Trace.FuncArgs

namespace Bpfsnoop.Trace

open Lib

/-- The event kinds of `bpfsnoop_event.h` that carry parts. -/
inductive EventType where
  | funcEntry | funcExit | graphEntry | graphExit
  deriving DecidableEq, Repr

/-- The positions in a record that its parts take. -/
structure Parts where
  fnArgs : Finset Nat
  pktTuple : Finset Nat
  argData : Finset Nat
  deriving DecidableEq

/-- A submitted record: its type, its length field and its parts. -/
structure RingbufRecord where
  size : Nat
  type : EventType
  length : BitVec 16
  parts : Parts

/-! ## Attaching -/

/-- A function to trace. `pkt` is what `injectPktOutput` returns, `argData`
the size `injectArgOutput` returns. A prototype has less than 2^16
parameters, of at most two slots each. -/
structure Tracee where
  prms : List FuncParamFlags
  ret : FuncParamFlags
  pkt : Bool
  argData : Nat
  isTp : Bool
  length_prms : prms.length < 2 ^ 17

/-- `funcInfo`, the fields that tell the sizes. -/
structure FuncInfo where
  pktTuple : Bool := false
  argEntry : Nat := 0
  argExit : Nat := 0
  argData : Nat := 0
  deriving DecidableEq

/-- `BpfsnoopConfig`, with the flags that decide on the layout. -/
structure BpfsnoopConfig where
  outputPkt : Bool
  outputArg : Bool
  isEntry : Bool
  fnArgsBuf : BitVec 32
  argDataSz : BitVec 32

/-- `setBpfsnoopConfig`. -/
def setBpfsnoopConfig (fnArgsBufSize argDataSize : Nat) (pkt withRet : Bool) : BpfsnoopConfig :=
  { outputPkt := pkt
    outputArg := argDataSize ≠ 0
    isEntry := !withRet
    fnArgsBuf := BitVec.ofNat 32 fnArgsBufSize
    argDataSz := BitVec.ofNat 32 argDataSize }

/-- `withRet` of `traceFunc`. -/
def Tracee.withRet (t : Tracee) (isExit : Bool) : Bool := !t.isTp && isExit

def Tracee.fnArgsBufSize (t : Tracee) (isExit : Bool) : Nat :=
  injectOutputFuncArgs t.prms t.ret (t.withRet isExit)

/-- What `traceFunc` and `traceProg` leave in the function they attach to. -/
def traceFunc (t : Tracee) (isExit : Bool) (info : FuncInfo) : FuncInfo :=
  let info := { info with pktTuple := t.pkt, argData := t.argData }
  if isExit then { info with argExit := t.fnArgsBufSize isExit }
  else { info with argEntry := t.fnArgsBufSize isExit }

/-- The configuration of the program they attach. -/
def Tracee.config (t : Tracee) (isExit : Bool) : BpfsnoopConfig :=
  setBpfsnoopConfig (t.fnArgsBufSize isExit) t.argData t.pkt (t.withRet isExit)

/-- The programs that `traceFuncs` and `traceProgs` attach to a function,
each with its `isExit`: both with a session (a kprobe needs one for every
exit), else the one of the mode. A tracepoint has no exit. -/
def attached (t : Tracee) (kprobe bothEntryExit hasModeExit : Bool) : List Bool :=
  if t.isTp then [false]
  else if (if kprobe then hasModeExit else bothEntryExit) then [false, true]
  else [hasModeExit]

/-- The function after the programs were attached, in the order in which
the goroutines came. -/
def funcInfo (t : Tracee) (order : List Bool) : FuncInfo :=
  order.foldl (fun info isExit => traceFunc t isExit info) {}

/-- `ArgsEnSz` and `ArgsExSz` of `traceGraph`, by the kind of the event. -/
def Tracee.graphArgs (t : Tracee) (isExit : Bool) : Nat := injectOutputFuncArgs t.prms t.ret isExit

/-! ## The BPF programs -/

/-- `sizeof(struct event)`. -/
def sizeOfEvent : Nat := 56

/-- `sizeof(struct bpfsnoop_fgraph_event)`. -/
def sizeOfGraphEvent : Nat := 32

/-- `sizeof(struct bpfsnoop_pkt_data)`. -/
def sizeOfPktData : Nat := 16

/-- `emit_bpfsnoop_event`, of the fentry/fexit and of the kprobe programs. -/
def emitEvent (cfg : BpfsnoopConfig) : RingbufRecord :=
  let fnArgs := sizeOfEvent
  let pkt := fnArgs + cfg.fnArgsBuf.toNat
  let data := pkt + if cfg.outputPkt then sizeOfPktData else 0
  { size := sizeOfEvent + cfg.fnArgsBuf.toNat + cfg.argDataSz.toNat +
      if cfg.outputPkt then sizeOfPktData else 0
    type := if cfg.isEntry then .funcEntry else .funcExit
    length := BitVec.ofNat 16 sizeOfEvent
    parts :=
      { fnArgs := Finset.Ico fnArgs (fnArgs + cfg.fnArgsBuf.toNat)
        pktTuple := if cfg.outputPkt then Finset.Ico pkt (pkt + sizeOfPktData) else ∅
        argData := if cfg.outputArg then Finset.Ico data (data + cfg.argDataSz.toNat) else ∅ } }

/-- `bpfsnoop_fgraph`, whose length field is the size of the record. -/
def emitGraphEvent (isExit : Bool) (fnArgsBuf : BitVec 32) : RingbufRecord :=
  let size := sizeOfGraphEvent + fnArgsBuf.toNat
  { size := size
    type := if isExit then .graphExit else .graphEntry
    length := BitVec.ofNat 16 size
    parts := { fnArgs := Finset.Ico sizeOfGraphEvent size, pktTuple := ∅, argData := ∅ } }

/-! ## User space -/

/-- The slice the parts are read from, and the parts read. -/
structure Decoded where
  area : Finset Nat
  parts : Parts
  deriving DecidableEq

/-- `data[:n]` and `data = data[n:]`, if there is such a part. -/
def readPart (present : Bool) (n : Nat) (data : Slice) : Option (Finset Nat × Slice) :=
  if present then (data.cut n).map fun (part, rest) => (part.bytes, rest) else some (∅, data)

/-- What `outputFuncInfo` reads. -/
def outputFuncInfo (entrySz exitSz : Nat) (exit : Bool) (data : Slice) :
    Option (Finset Nat × Slice) :=
  let argSz := if exit then exitSz else entrySz
  readPart (argSz ≠ 0) argSz data

/-- The branch of `record.Handle` for a function event. -/
def handleEvent (info : FuncInfo) (exit : Bool) (data : Slice) : Option Decoded := do
  let data ← data.after sizeOfEvent
  let area := data.bytes
  let (fnArgs, data) ← outputFuncInfo info.argEntry info.argExit exit data
  let (pktTuple, data) ← readPart info.pktTuple sizeOfPktData data
  let (argData, _) ← readPart (info.argData ≠ 0) info.argData data
  return { area := area, parts := { fnArgs := fnArgs, pktTuple := pktTuple, argData := argData } }

/-- The branch for a graph event: it takes the length field for the length
of what follows the header. -/
def handleGraphEvent (entrySz exitSz : Nat) (exit : Bool) (length : BitVec 16) (data : Slice) :
    Option Decoded := do
  let data ← data.sub sizeOfGraphEvent (sizeOfGraphEvent + length.toNat)
  let (fnArgs, _) ← outputFuncInfo entrySz exitSz exit data
  return { area := data.bytes, parts := { fnArgs := fnArgs, pktTuple := ∅, argData := ∅ } }

/-! ## A function and its records -/

/-- Which program of a function wrote a record. -/
inductive Source where
  | func (isExit : Bool)
  | graph (isExit : Bool)
  deriving DecidableEq

def Source.isGraph : Source → Bool
  | .graph _ => true
  | .func _ => false

/-- The program is among the attached ones. Every function of the graph
has both of its programs. -/
def Source.Runs (order : List Bool) : Source → Prop
  | .func isExit => isExit ∈ order
  | .graph _ => True

/-- The record a program writes. -/
def Tracee.record (t : Tracee) : Source → RingbufRecord
  | .func isExit => emitEvent (t.config isExit)
  | .graph isExit => emitGraphEvent isExit (BitVec.ofNat 32 (t.graphArgs isExit))

/-- `record.Handle` on a record that a program of `t` wrote. `cap` is the
capacity of the slice the reader hands over; `none` is a panic. -/
def Tracee.handle (t : Tracee) (order : List Bool) (r : RingbufRecord) (cap : Nat) (h : r.size ≤ cap) :
    Option Decoded :=
  let data : Slice := ⟨0, r.size, cap, h⟩
  match r.type with
  | .funcEntry => handleEvent (funcInfo t order) false data
  | .funcExit => handleEvent (funcInfo t order) true data
  | .graphEntry => handleGraphEvent (t.graphArgs false) (t.graphArgs true) false r.length data
  | .graphExit => handleGraphEvent (t.graphArgs false) (t.graphArgs true) true r.length data

/-- **The tiling of a record**, however large the buffer behind it: user
space reads it from bytes of the record, the parts do not overlap and are
the parts written. -/
def Tiles (t : Tracee) (order : List Bool) (r : RingbufRecord) : Prop :=
  ∀ cap (h : r.size ≤ cap), ∃ d, t.handle order r cap h = some d ∧
    d.area ⊆ Finset.range r.size ∧
    d.parts.fnArgs ∪ d.parts.pktTuple ∪ d.parts.argData ⊆ d.area ∧
    Disjoint d.parts.fnArgs d.parts.pktTuple ∧ Disjoint d.parts.fnArgs d.parts.argData ∧
    Disjoint d.parts.pktTuple d.parts.argData ∧
    d.parts = r.parts

end Bpfsnoop.Trace
