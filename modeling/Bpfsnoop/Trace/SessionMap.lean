/-
Bpfsnoop.Trace.SessionMap — the entry and exit handlers of the tracees, on
any number of CPUs.

An entry handler stores the session of its invocation under the frame
pointer of the tracee's caller, the exit handler looks it up there. Map
operations and reads through a pointer are the atomic steps. The exit
handler of fentry/fexit (`get_and_del_session`) deletes the session and then
reads it through the pointer; the one of kprobe/kretprobe copies the session
and the arguments saved with it, and then deletes. While an invocation is
being handled no other has its caller's frame.
-/
import Bpfsnoop.Ebpf.Insn
import Bpfsnoop.Lib.ElementMap
import Bpfsnoop.Lib.Runs

namespace Bpfsnoop.Trace

open Ebpf Lib

/-! ## Sessions of the BPF side -/

/-- The two programs: `bpfsnoop.c` and `bpfsnoop_kprobe.c`. -/
inductive Variant where
  | fentry
  | kprobe
  deriving DecidableEq, Repr

/-- `MAX_FN_ARGS`. -/
def maxFnArgs : Nat := 12

/-- What the handlers of an invocation see: the frame pointer of the caller,
the random number its entry handler draws, and its arguments. -/
structure Invocation where
  fp : Word
  rnd : BitVec 32
  args : List Word

/-- `gen_session_id`. -/
def genSessionId (rnd : BitVec 32) (fp : Word) : Word :=
  rnd.setWidth 64 <<< 32 ||| fp &&& 0xFFFFFFFF#64

namespace Invocation

def sessionId (inv : Invocation) : Word := genSessionId inv.rnd inv.fp

/-- The words of the session that the entry handler stores: `session_id`,
and for a kprobe `args`. -/
def sessInit (v : Variant) (inv : Invocation) : Nat → Word
  | 0 => inv.sessionId
  | n + 1 =>
    match v with
    | .fentry => 0
    | .kprobe => if n < maxFnArgs then inv.args.getD n 0 else 0

/-- How many of them the exit handler reads. -/
def exitReads (v : Variant) (inv : Invocation) : Nat :=
  match v with
  | .fentry => 1
  | .kprobe => 1 + min maxFnArgs inv.args.length

end Invocation

/-- What the exit event takes from the session. -/
structure ExitEvent where
  sessID : Word
  args : List Word
  deriving DecidableEq, Repr

/-- The exit event of the words read from a session. -/
def exitEvent (copied : List Word) : ExitEvent where
  sessID := copied.headD 0 - 1
  args := copied.tail

/-! ## The machine -/

/-- Where an invocation is. `exiting` is the exit handler from its lookup
on, with the pointer to the session, whether the session was deleted, and
the words read so far. -/
inductive Phase (ε : Type) where
  | idle
  | running
  | exiting (sess : ε) (deleted : Bool) (copied : List Word)
  | done (event : Option ExitEvent)

/-- The frame of the caller is in use. -/
def Phase.active {ε : Type} : Phase ε → Bool
  | .idle | .done _ => false
  | .running | .exiting .. => true

variable {ι ε : Type} [DecidableEq ι] [DecidableEq ε]

/-- The session map, and the phases of the invocations. -/
structure TraceState (ι ε : Type) where
  map : ElementMap Word ε (Nat → Word)
  phase : ι → Phase ε

namespace TraceState

/-- No invocation has entered. -/
def init (value : ε → Nat → Word) : TraceState ι ε where
  map := .empty value
  phase _ := .idle

def goto (s : TraceState ι ε) (i : ι) (p : Phase ε) : TraceState ι ε :=
  { s with phase := Function.update s.phase i p }

/-- `update` of the map, and the next phase. -/
def store (s : TraceState ι ε) (v : Variant) (inv : ι → Invocation) (i : ι) (e : ε)
    (hfree : s.map.Free e) : TraceState ι ε where
  map := s.map.update (inv i).fp e ((inv i).sessInit v) hfree
  phase := Function.update s.phase i .running

def delete (s : TraceState ι ε) (inv : ι → Invocation) (i : ι) (p : Phase ε) : TraceState ι ε where
  map := s.map.delete (inv i).fp
  phase := Function.update s.phase i p

/-- No other invocation that is being handled has the frame of `i`. -/
def Unused (s : TraceState ι ε) (inv : ι → Invocation) (i : ι) : Prop :=
  ∀ j, (inv j).fp = (inv i).fp → (s.phase j).active = false

end TraceState

/-- The atomic steps. -/
inductive Action (ι ε : Type) where
  | refuse (i : ι)
  | store (i : ι) (e : ε)
  | lookup (i : ι)
  | read (i : ι)
  | delete (i : ι)
  | submit (i : ι)

/-- One step of a handler. -/
inductive Step (v : Variant) (inv : ι → Invocation) :
    TraceState ι ε → Action ι ε → TraceState ι ε → Prop where
  /-- The entry handler stores nothing: the filter refuses the event, or the
  map is full. -/
  | refuse {s i} (hphase : s.phase i = .idle) (hunused : s.Unused inv i) :
      Step v inv s (.refuse i) (s.goto i .running)
  /-- `add_session`, `add_kprobe_session`. -/
  | store {s i e} (hphase : s.phase i = .idle) (hunused : s.Unused inv i) (hfree : s.map.Free e) :
      Step v inv s (.store i e) (s.store v inv i e hfree)
  /-- The exit handler finds no session. -/
  | miss {s i} (hphase : s.phase i = .running) (hmiss : s.map.table (inv i).fp = none) :
      Step v inv s (.lookup i) (s.goto i (.done none))
  | hit {s i e} (hphase : s.phase i = .running) (hhit : s.map.table (inv i).fp = some e) :
      Step v inv s (.lookup i) (s.goto i (.exiting e false []))
  /-- One word through the pointer: behind the delete for fexit, before it
  for a kretprobe. -/
  | read {s i e deleted copied} (hphase : s.phase i = .exiting e deleted copied)
      (hmore : copied.length < (inv i).exitReads v) (horder : v = .fentry → deleted = true) :
      Step v inv s (.read i) (s.goto i (.exiting e deleted (copied ++ [s.map.value e copied.length])))
  | delete {s i e copied} (hphase : s.phase i = .exiting e false copied)
      (horder : v = .kprobe → copied.length = (inv i).exitReads v) :
      Step v inv s (.delete i) (s.delete inv i (.exiting e true copied))
  | submit {s i e copied} (hphase : s.phase i = .exiting e true copied)
      (hall : copied.length = (inv i).exitReads v) :
      Step v inv s (.submit i) (s.goto i (.done (some (exitEvent copied))))
  /-- The ring buffer is full. -/
  | lose {s i e copied} (hphase : s.phase i = .exiting e true copied)
      (hall : copied.length = (inv i).exitReads v) :
      Step v inv s (.submit i) (s.goto i (.done none))

/-- No update takes an element that an exit handler of fexit has deleted and
is still to read. -/
def KeepsElements (v : Variant) (s : TraceState ι ε) (a : Action ι ε) : Prop :=
  v = .fentry → ∀ i e, a = .store i e → ∀ j, s.phase j ≠ .exiting e true []

/-- User space takes the entry event with the first id for the entry of the
exit event with the second. -/
def Pairs (entryID exitID : Word) : Prop := entryID = exitID + 1

/-- **Every exit event carries the session of its own entry.** -/
def ExitsPaired (v : Variant) (inv : ι → Invocation) (s : TraceState ι ε) : Prop :=
  ∀ i event, s.phase i = .done (some event) →
    event.sessID = (inv i).sessionId - 1 ∧
    (v = .kprobe → event.args = (inv i).args.take maxFnArgs) ∧
    ∀ j, Pairs (inv j).sessionId event.sessID ↔ (inv j).sessionId = (inv i).sessionId

end Bpfsnoop.Trace
