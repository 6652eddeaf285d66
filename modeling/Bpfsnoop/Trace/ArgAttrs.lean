/-
Bpfsnoop.Trace.ArgAttrs — user space reads the data of the output
arguments.

`__outputFuncArgAttrs` walks the arguments with a slice of the record. For
each it reads the exception byte at the end of its slot, prints the data by
the kind of the argument, and goes on with the slice behind. What is
modelled is which bytes are read and where the slice goes; the texts are
not. The values of the histograms are printed later, and there the slice
stays.

`mybtf.DumpData` is a parameter, and so are the bytes of the buffer.
-/
import Bpfsnoop.Lib.Slices
import Bpfsnoop.Trace.OutputArg

namespace Bpfsnoop.Trace

open Lib Btf CC
open Ebpf (Word Byte)

/-! ## Slices -/

def slicePanic : GoError := .panic "slice bounds out of range"

/-- A slice expression; a negative bound counts as a large one. -/
def orPanic {α : Type} : Option α → Except GoError α
  | some a => .ok a
  | none => .error slicePanic

/-- `data[i]`, as a position in the buffer. -/
def index (data : Slice) (i : Word) : Except GoError Nat :=
  if i.toNat < data.len then .ok (data.start + i.toNat) else .error (.panic "index out of range")

/-- `data[:n]`, `data[n:2*n]` and so on, `count` of them. -/
def elements (data : Slice) (n count : Nat) : List (Option Slice) :=
  (List.range count).map fun i => data.sub (i * n) ((i + 1) * n)

/-! ## What is read for an argument -/

/-- What was read for an argument: the position of the exception byte and
the pieces of the data. -/
structure Reading where
  exceptionAt : Nat
  pieces : List Slice
  deriving DecidableEq

/-- The addresses by their type: the size of one, and how many. -/
def addrPieces : List (String × Nat × Nat) :=
  [("eth", 6, 1), ("eth2", 6, 2), ("ip4", 4, 1), ("ip42", 4, 2), ("ip6", 16, 1), ("ip62", 16, 2)]

def portPieces : List (String × Nat × Nat) := [("port", 2, 1), ("port2", 2, 2)]

section Decode

variable (heap : Heap) (dumpData : BtfType → List Byte → Except GoError String)
  (buffer : Nat → Byte)

/-- The bytes of a slice. -/
def content (s : Slice) : List Byte := (List.range s.len).map fun i => buffer (s.start + i)

/-- `btf.Sizeof(arg.t)`, 0 where it fails. -/
def FuncArgumentOutput.elemSize (arg : FuncArgumentOutput) : Nat := (arg.t.map (sizeofD heap)).getD 0

/-- The pieces, one after the other, up to one that cannot be used; and
what is done behind the last one. -/
def readPieces (use : Slice → Except GoError Unit) (behind : Except GoError Slice) :
    List (Option Slice) → List Slice × Except GoError Slice
  | [] => ([], behind)
  | none :: _ => ([], .error slicePanic)
  | some piece :: rest =>
    match use piece with
    | .error e => ([piece], .error e)
    | .ok () =>
      let (pieces, next) := readPieces use behind rest
      (piece :: pieces, next)

/-- A piece that is only printed. -/
def printed (_ : Slice) : Except GoError Unit := .ok ()

/-- `mybtf.DumpData` of a piece. -/
def dumped (arg : FuncArgumentOutput) (what : String) (piece : Slice) : Except GoError Unit :=
  match arg.t.map (dumpData · (content buffer piece)) with
  | some (.error e) => .error (.wrapf ("failed to dump " ++ what ++ " data: %w") [] e)
  | _ => .ok ()

/-- `bytes2i`. -/
def bytes2i (b : List Byte) (size : Nat) : Word :=
  if size = 0 ∨ b.length < size then 0 else Ebpf.loadLE (fun a => b.getD a.toNat 0) 0 size

/-- `histogram.add`, which has no bucket for the value 0. -/
def histAdd (arg : FuncArgumentOutput) (piece : Slice) : Except GoError Unit :=
  if bytes2i (content buffer piece) (arg.elemSize heap) = 0 then .error (.panic "index out of range") else .ok ()

/-- A string, or one or two numbers: the pieces, and the slice behind. -/
def readDefault (arg : FuncArgumentOutput) (data : Slice) : List Slice × Except GoError Slice :=
  if arg.isStr then
    match data.cut arg.trueDataSize.toNat with
    | none => ([], .error slicePanic)
    | some (str, data) => ([str], orPanic (data.after 1))
  else
    match data.cut 8 with
    | none => ([], .error slicePanic)
    | some (argVal, data) =>
      if arg.isNumPtr then
        match data.cut 8 with
        | none => ([argVal], .error slicePanic)
        | some (argVal2, data) => ([argVal, argVal2], orPanic (data.after 1))
      else ([argVal], orPanic (data.after 1))

/-- The switch over the kind: the pieces of the data, and where the next
argument starts. The reads through an unsafe pointer are taken to be inside
the buffer. -/
def readData (arg : FuncArgumentOutput) (data : Slice) : List Slice × Except GoError Slice :=
  let behind := orPanic (data.after arg.size.toNat)
  let whole := data.upTo arg.trueDataSize.toNat
  let byType (table : List (String × Nat × Nat)) (type : String) : List Slice × Except GoError Slice :=
    match table.lookup type with
    | some (n, count) => readPieces printed behind (elements data n count)
    -- the text is left empty
    | none => readDefault arg data
  match arg.type with
  | .deref => readPieces (dumped dumpData buffer arg "deref") behind [whole]
  | .buf | .string | .pkt | .hex => readPieces printed behind [whole]
  | .addr => byType addrPieces arg.addrType
  | .port => byType portPieces arg.portType
  | .slice =>
    let size := arg.elemSize heap
    if size = 0 then ([], .error (.panic "integer divide by zero"))
    else
      readPieces (dumped dumpData buffer arg "slice") behind
        (elements data size (arg.trueDataSize.toInt.tdiv size).toNat)
  | .int =>
    match intSizes.lookup arg.intType with
    | some n => readPieces printed behind [data.upTo n.toNat]
    | none => ([], behind)
  | .hist => readPieces (histAdd heap buffer arg) (.ok data) [whole]
  | .tdigest => readPieces printed (.ok data) [whole]
  | .default => readDefault arg data

/-- One round of the loop: what is read of the argument, and the slice that
the next round starts from, unless the loop is left. -/
def readArg (arg : FuncArgumentOutput) (data : Slice) :
    Except GoError (Reading × Except GoError Slice) := do
  let exceptionAt ← index data (arg.size - 1)
  if buffer exceptionAt ≠ 0 then return (⟨exceptionAt, []⟩, orPanic (data.after arg.size.toNat))
  else
    let (pieces, next) := readData heap dumpData buffer arg data
    return (⟨exceptionAt, pieces⟩, next)

/-- `__outputFuncArgAttrs`: what it read, one reading for each argument it
came to, and the error it was left with. -/
def outputFuncArgAttrs : List FuncArgumentOutput → Slice → List Reading × Option GoError
  | [], _ => ([], none)
  | arg :: args, data =>
    match readArg heap dumpData buffer arg data with
    | .error e => ([], some e)
    | .ok (reading, .error e) => ([reading], some e)
    | .ok (reading, .ok data) =>
      let (readings, e) := outputFuncArgAttrs args data
      (reading :: readings, e)

end Decode

end Bpfsnoop.Trace
