/-
Bpfsnoop.Trace.FrameWalk — the two walkers of the function graph program.

From the frame of the tracee's caller up, a walker looks for the frame
whose session is open, and counts the frames that are calls. Where BPF
programs can make tail calls next to bpf2bpf calls, the walk is cut into
tail calls of a hundred frames, and its state lives in a per-CPU map
between them; elsewhere it is a loop with a bound on its tries. Pointers to
sessions are a type `σ` of their own, and the state of the walk that the
chunks share is the value of the map.
-/
import Bpfsnoop.Ebpf.Insn
import Bpfsnoop.Lib.Loops

namespace Bpfsnoop.Trace

open Ebpf Lib

/-- What the walkers read: the frame pointer and the return address at a
frame, the sessions, and the addresses of the tracees of the graph. -/
structure Frames (σ : Type) where
  frame : Word → Word × Word
  getSession : Word → Option σ
  isFgraphIp : Word → Bool

variable {σ : Type}

/-! ## The fallback -/

/-- The locals of `try_get_session_limited`. -/
structure LimitedState where
  fp : Word
  depth : BitVec 32

/-- One try. It leaves the loop with the session and its depth, or with
nothing. -/
def limitedTry (k : Frames σ) (maxDepth : BitVec 32) (s : LimitedState) :
    Except (Option (σ × BitVec 32)) LimitedState :=
  let buff := k.frame s.fp
  match k.getSession buff.1 with
  | some sess => .error (some (sess, s.depth))
  | none =>
    if k.isFgraphIp buff.2 then .ok { s with fp := buff.1 }
    else if maxDepth.ult (s.depth + 1) then .error none
    else .ok { fp := buff.1, depth := s.depth + 1 }

/-- `try_get_session_limited`, from the frame pointer of the trampoline. The
comparisons are unsigned. -/
def tryGetSessionLimited (k : Frames σ) (maxDepth : BitVec 32) (trampFp : Word) :
    Option (σ × BitVec 32) :=
  if (10#32).ult maxDepth then none
  else
    match loop (limitedTry k maxDepth) (maxDepth * 2).toNat
        { fp := (k.frame trampFp).1, depth := 0 } with
    | .error found => found
    | .ok _ => none

/-! ## The tail call -/

/-- `struct bpfsnoop_fgraph_tailcall_data`. -/
structure TailcallData (σ : Type) where
  fp : Word
  depth : BitVec 32 := 0
  maxDepth : BitVec 32
  sess : Option σ := none
  found : Bool := false
  ooDepth : Bool := false

/-- One round of `bpfsnoop_fgraph_tailcallee`, on the data of the CPU. -/
def tailcallTry (k : Frames σ) (data : TailcallData σ) : Except (TailcallData σ) (TailcallData σ) :=
  let buff := k.frame data.fp
  match k.getSession buff.1 with
  | some sess => .error { data with sess := some sess, found := true }
  | none =>
    if k.isFgraphIp buff.2 then .ok { data with fp := buff.1 }
    else
      let depth := data.depth + 1
      if data.maxDepth.slt depth then .error { data with depth := depth, ooDepth := true }
      else .ok { data with fp := buff.1, depth := depth }

/-- `bpfsnoop_fgraph_tailcallee`. -/
def bpfsnoopFgraphTailcallee (k : Frames σ) (data : TailcallData σ) : TailcallData σ :=
  match loop (tailcallTry k) 100 data with
  | .ok data | .error data => data

/-- One round of the loop of `try_get_session`. -/
def tailcallRound (k : Frames σ) (data : TailcallData σ) :
    Except (Option (σ × BitVec 32)) (TailcallData σ) :=
  let data := bpfsnoopFgraphTailcallee k data
  if data.found then .error (data.sess.map (·, data.depth))
  else if data.ooDepth then .error none
  else .ok data

/-- `try_get_session` where tail calls are supported. The comparison with
the depth is signed. -/
def tryGetSessionTailcall (k : Frames σ) (maxDepth : BitVec 32) (trampFp : Word) :
    Option (σ × BitVec 32) :=
  match loop (tailcallRound k) 10 { fp := (k.frame trampFp).1, maxDepth := maxDepth } with
  | .error found => found
  | .ok _ => none

/-- `try_get_session`. -/
def tryGetSession (k : Frames σ) (tailcallInBpf2bpf : Bool) (maxDepth : BitVec 32)
    (trampFp : Word) : Option (σ × BitVec 32) :=
  if tailcallInBpf2bpf then tryGetSessionTailcall k maxDepth trampFp
  else tryGetSessionLimited k maxDepth trampFp

/-! ## The chain of frames -/

/-- The frame pointer the walk has after `n` frames. -/
def fpAt (k : Frames σ) (trampFp : Word) : Nat → Word
  | 0 => (k.frame trampFp).1
  | n + 1 => (k.frame (fpAt k trampFp n)).1

/-- The session of the `n`-th frame. -/
def sessionAt (k : Frames σ) (trampFp : Word) (n : Nat) : Option σ :=
  k.getSession (fpAt k trampFp (n + 1))

/-- The `n`-th frame is the frame of a tracee's trampoline. -/
def trampolineAt (k : Frames σ) (trampFp : Word) (n : Nat) : Bool :=
  k.isFgraphIp (k.frame (fpAt k trampFp n)).2

/-- The calls among the first `n` frames. -/
def callsBefore (k : Frames σ) (trampFp : Word) : Nat → Nat
  | 0 => 0
  | n + 1 => callsBefore k trampFp n + if trampolineAt k trampFp n then 0 else 1

/-- How the walk ends at the `n`-th frame, if it does: with the session
there, or out of depth. -/
def exitAt (k : Frames σ) (trampFp : Word) (maxDepth n : Nat) : Option (Option (σ × BitVec 32)) :=
  match sessionAt k trampFp n with
  | some sess => some (some (sess, BitVec.ofNat 32 (callsBefore k trampFp n)))
  | none =>
    if trampolineAt k trampFp n then none
    else if maxDepth < callsBefore k trampFp n + 1 then some none
    else none

/-- **What a walk over `n` frames finds.** -/
def walkFrames (k : Frames σ) (trampFp : Word) (maxDepth n : Nat) : Option (σ × BitVec 32) :=
  ((List.range n).findSome? (exitAt k trampFp maxDepth)).join

/-- A stack: no walk starts at a trampoline, and between two of them there
is a call. -/
structure Alternates (k : Frames σ) (trampFp : Word) : Prop where
  first : trampolineAt k trampFp 0 = false
  next : ∀ n, ¬ (trampolineAt k trampFp n = true ∧ trampolineAt k trampFp (n + 1) = true)

/-- The session is behind `maxDepth` calls, each of them traced, and none of
their frames has one. -/
def BehindTracees (k : Frames σ) (trampFp : Word) (maxDepth : Nat) : Prop :=
  (∀ n < 2 * maxDepth, trampolineAt k trampFp n = decide (n % 2 = 1) ∧
    sessionAt k trampFp n = none) ∧ sessionAt k trampFp (2 * maxDepth) ≠ none

end Bpfsnoop.Trace
