/-
Bpfsnoop.Progs.FuncGraphs — the functions that a traced function calls.

`FuncGraphParser` follows the call instructions from the traced functions,
up to a depth. `parse` looks at the calls of one function and hands each
callee to `add`; `add` makes the entry of a callee it finds traceable, fills
it in, and starts a worker that parses the callee one call deeper. The
workers share the maps of the parser. Each critical section is one step, so
is each use of `bytes`, and the steps of the workers come in any order.

What the instructions of a function call, how long it is and whether it can
be traced are parameters. A depth is a natural number: the limit is less
than the greatest `uint`. No worker fails and the context is not done; no
program was replaced by another.
-/
import Bpfsnoop.Lib.Runs
import Bpfsnoop.Lib.Walks
import Mathlib.Data.List.Basic
import Mathlib.Logic.Function.Basic

namespace Bpfsnoop.Progs

open Lib

/-! ## The parser -/

/-- What the parser finds at an address, and how deep it goes. `guessBytes`
never gives 0, since the next symbol is behind. -/
structure CallCode (α : Type) where
  callees : α → List α
  bytes : α → Nat
  traceable : α → Bool
  maxDepth : Nat
  bytes_ne : ∀ ip, bytes ip ≠ 0

/-- The maps of `FuncGraphParser`. An entry of `graphs` is its `bytes`, 0
until it is filled in. -/
structure ParserMaps (α : Type) where
  graphs : α → Option Nat
  callee : α → Option (List α)
  untraceables : α → Bool
  parsed : α × Nat → Bool

/-- The local variables of `parse` in its loop: the callees not yet added,
and whether the instructions were decoded. -/
structure ParseLoop (α : Type) where
  ip : α
  depth : Nat
  todo : List α
  decoded : Bool
  deriving DecidableEq

/-- Where a worker stands. `found`, `made`, `judge` and `filled` are inside
`add`, for a callee one call deeper. -/
inductive ParseWorker (α : Type) where
  | checkParsed (ip : α) (depth : Nat)
  | readCallee (ip : α) (depth : Nat)
  | loop (l : ParseLoop α)
  | found (callee : α) (l : ParseLoop α)
  | made (callee : α) (l : ParseLoop α)
  | judge (callee : α) (l : ParseLoop α)
  | filled (callee : α) (l : ParseLoop α)
  | returned
  deriving DecidableEq

section Machine

variable {α : Type} [DecidableEq α] (code : CallCode α)

/-- One step of a worker: the maps, where it stands, and the worker it
starts. -/
def workerStep (m : ParserMaps α) : ParseWorker α → Option (ParserMaps α × ParseWorker α × List (ParseWorker α))
  | .checkParsed ip depth =>
    if m.parsed (ip, depth) then some (m, .returned, [])
    else some ({ m with parsed := Function.update m.parsed (ip, depth) true }, .readCallee ip depth, [])
  | .readCallee ip depth =>
    match m.callee ip with
    | some callees => some (m, .loop ⟨ip, depth, callees, false⟩, [])
    | none => some (m, .loop ⟨ip, depth, code.callees ip, true⟩, [])
  | .loop ⟨ip, _, [], decoded⟩ =>
    if decoded then
      -- without a failure the callees collected are those decoded
      some ({ m with callee := Function.update m.callee ip (some (code.callees ip)) }, .returned, [])
    else some (m, .returned, [])
  | .loop ⟨ip, depth, callee :: todo, decoded⟩ =>
    if depth + 1 > code.maxDepth then some (m, .loop ⟨ip, depth, todo, decoded⟩, [])
    else
      match m.graphs callee with
      | none =>
        some ({ m with graphs := Function.update m.graphs callee (some 0) }, .made callee ⟨ip, depth, todo, decoded⟩, [])
      | some _ => some (m, .found callee ⟨ip, depth, todo, decoded⟩, [])
  | .found callee l =>
    if (m.graphs callee).getD 0 ≠ 0 then some (m, .loop l, [.checkParsed callee (l.depth + 1)])
    else some (m, .loop l, [])
  | .made callee l =>
    if m.untraceables callee then some (m, .loop l, []) else some (m, .judge callee l, [])
  | .judge callee l =>
    if code.traceable callee then
      some ({ m with graphs := Function.update m.graphs callee (some (code.bytes callee)) }, .filled callee l, [])
    else some ({ m with untraceables := Function.update m.untraceables callee true }, .loop l, [])
  | .filled callee l => some (m, .loop l, [.checkParsed callee (l.depth + 1)])
  | .returned => none

/-- The maps and the workers that were started. -/
structure GraphParser (α : Type) where
  maps : ParserMaps α
  workers : List (ParseWorker α)

/-- There is no such worker, or it has returned. -/
inductive Idle where
  | idle
  deriving DecidableEq

namespace GraphParser

/-- Behind `newFuncGraphParser`, and `addParse` of the roots at depth 0. -/
def init (roots : List α) : GraphParser α where
  maps :=
    { graphs := fun _ => none
      callee := fun _ => none
      untraceables := fun _ => false
      parsed := fun _ => false }
  workers := roots.map (.checkParsed · 0)

/-- A step of the `i`-th worker. -/
def step (p : GraphParser α) (i : Nat) : Except Idle (GraphParser α) :=
  match (p.workers[i]?).bind (workerStep code p.maps) with
  | none => .error .idle
  | some (maps, worker, started) => .ok ⟨maps, p.workers.set i worker ++ started⟩

/-- A schedule, the numbers of the workers that take a step. -/
def run (roots : List α) (schedule : List Nat) : Except Idle (GraphParser α) :=
  schedule.foldlM (step code) (init roots)

/-- `wait` returns. -/
def Waited (p : GraphParser α) : Prop := ∀ w ∈ p.workers, w = .returned

instance (p : GraphParser α) : Decidable p.Waited := inferInstanceAs (Decidable (∀ w ∈ p.workers, w = .returned))

/-- The entry was filled in. -/
def Filled (p : GraphParser α) (ip : α) : Prop := (p.maps.graphs ip).getD 0 ≠ 0

instance (p : GraphParser α) (ip : α) : Decidable (p.Filled ip) := inferInstanceAs (Decidable (_ ≠ _))

/-- A worker is about to fill in the entry, that it met at this depth. -/
def Initialising (p : GraphParser α) (ip : α) (depth : Nat) : Prop :=
  ∃ l : ParseLoop α, l.depth + 1 = depth ∧ (.made ip l ∈ p.workers ∨ .judge ip l ∈ p.workers)

/-- Not the step of an `add` that finds the entry of a traceable function
still empty, while a worker fills it in at a greater depth. -/
def Timely (p : GraphParser α) (i : Nat) : Prop :=
  ∀ callee l, p.workers[i]? = some (.found callee l) → code.traceable callee = true → ¬ p.Filled callee →
    ∀ depth, p.Initialising callee depth → depth ≤ l.depth + 1

end GraphParser

/-! ## The call graph -/

/-- The call of a traceable function. -/
def CallCode.Calls (caller callee : α) : Prop := callee ∈ code.callees caller ∧ code.traceable callee = true

/-- `depth` calls lead from a root to the function, all of them to traceable
functions. -/
def CallCode.Called (roots : List α) : α → Nat → Prop := Walk code.Calls (· ∈ roots)

/-- The function is reached from a root by at most `maxDepth` calls. The
root itself is traced on its own and is no entry of `graphs`. -/
def CallCode.Reached (roots : List α) (ip : α) : Prop := ∃ depth, 0 < depth ∧ depth ≤ code.maxDepth ∧ code.Called roots ip depth

end Machine

end Bpfsnoop.Progs
