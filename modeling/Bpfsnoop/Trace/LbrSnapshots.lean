/-
Bpfsnoop.Trace.LbrSnapshots — last branch records, from the CPU to the lines
of an event.

A tracing program takes the branch snapshot of its CPU into the buffer of
the CPU, as the first thing it does, and copies it to a map under the session
id of its event when it knows that there will be one. In between, programs
that interrupt it on that CPU take snapshots into the same buffer. User space
takes the copy out of the map when it handles the event.

`lbr_snapshots`: the buffers of the CPUs are apart, and an execution whose
buffer no other one touched in between, and whose session id no other one has
while both are pending, has its own snapshot shown, or none.
-/
import Bpfsnoop.Ebpf.Insn
import Bpfsnoop.Lib.Runs

namespace Bpfsnoop.Trace.EventLoop.Lbr

open Ebpf Lib

/-! ## Buffers -/

/-- The loop of `mathx.Mask`, with the doublings that are left. After 64 of
them `n` is 0, and the loop goes on forever. -/
def maskFrom (v : BitVec 64) : Nat → BitVec 64 → Option (BitVec 64)
  | 0, _ => none
  | doublings + 1, n => if n.slt v then maskFrom v doublings (n <<< 1) else some (n - 1)

/-- `mathx.Mask`. -/
def mask (v : BitVec 64) : Option (BitVec 64) :=
  if v = BitVec.intMax 64 then some (BitVec.intMax 64) else maskFrom v 64 1

/-- `bpf_get_smp_processor_id() & CPU_MASK`, where `CPU_MASK` is
`uint32(mathx.Mask(numCPU))`. -/
def slotOf (m : BitVec 64) (cpu : BitVec 32) : BitVec 32 := cpu &&& m.setWidth 32

/-- `struct perf_branch_entry`, `LbrEntry`. -/
structure LbrEntry where
  from_ : Word
  to_ : Word
  flags : Word
  deriving DecidableEq

/-- `MAX_LBR_ENTRIES`. -/
def maxLbrEntries : Nat := 32

/-- `struct bpfsnoop_lbr_data`, `LbrData`. -/
structure LbrData where
  entries : List LbrEntry
  nrBytes : Word
  length_entries : entries.length = maxLbrEntries

/-- The bytes of an entry. -/
def entrySize : Nat := 24

/-! ## Executions -/

/-- One execution of a tracing program: where it runs, the id in its event,
its configuration, and the branches that `bpf_get_branch_snapshot` finds. -/
structure LbrExec where
  cpu : BitVec 32
  sessID : Word
  outputLbr : Bool
  bothEntryExit : Bool
  isEntry : Bool
  snapshot : List LbrEntry
  snapshot_le : snapshot.length ≤ maxLbrEntries

namespace LbrExec

/-- `can_output`. -/
def canOutput (x : LbrExec) : Bool := !x.bothEntryExit || x.isEntry

/-- `cfg->output_lbr && can_output`. -/
def takesLbr (x : LbrExec) : Bool := x.outputLbr && x.canOutput

/-- What `bpf_get_branch_snapshot` returns: `-ENOENT` without entries. -/
def nrBytes (x : LbrExec) : Word :=
  if x.snapshot = [] then -2 else BitVec.ofNat 64 (entrySize * x.snapshot.length)

/-- What it leaves in the buffer; behind the entries it found, those of
before. -/
def fill (x : LbrExec) (data : LbrData) : LbrData where
  entries := x.snapshot ++ data.entries.drop x.snapshot.length
  nrBytes := data.nrBytes
  length_entries := by
    have := x.snapshot_le
    rw [List.length_append, List.length_drop, data.length_entries]
    omega

end LbrExec

/-- Where an execution is. -/
inductive LbrPhase where
  | idle
  | snapshotted
  | filtering
  | stopped
  | updating
  | filling
  | submitted
  | handled

/-- From the decision to copy the snapshot, or not to, until user space has
handled the event. -/
def LbrPhase.pending : LbrPhase → Bool
  | .updating | .filling | .submitted => true
  | _ => false

/-- The atomic steps. -/
inductive LbrAction (ι : Type) where
  | capture (i : ι)
  | count (i : ι)
  | pass (i : ι)
  | stop (i : ι)
  | skip (i : ι)
  | check (i : ι)
  | update (i : ι) (stored : Bool)
  | submit (i : ι)
  | handle (i : ι)
  deriving DecidableEq

/-- `bpfsnoop_lbr_buff`, `bpfsnoop_lbrs`, and what `outputStack` found for
the events handled. -/
structure LbrState (ι : Type) where
  buff : BitVec 32 → LbrData
  lbrs : Word → Option LbrData
  phase : ι → LbrPhase
  found : ι → Option (Option LbrData)

section Machine

variable {ι : Type} [DecidableEq ι]

namespace LbrState

def init (buff : BitVec 32 → LbrData) : LbrState ι where
  buff := buff
  lbrs _ := none
  phase _ := .idle
  found _ := none

def goto (s : LbrState ι) (i : ι) (p : LbrPhase) : LbrState ι :=
  { s with phase := Function.update s.phase i p }

/-- A store into a buffer, and the next phase. -/
def write (s : LbrState ι) (slot : BitVec 32) (data : LbrData) (i : ι) (p : LbrPhase) : LbrState ι :=
  { s.goto i p with buff := Function.update s.buff slot data }

end LbrState

/-- One step of an execution, or of user space. -/
inductive LbrStep (ex : ι → LbrExec) (m : BitVec 64) : LbrState ι → LbrAction ι → LbrState ι → Prop where
  /-- The helper fills the buffer of the CPU. -/
  | capture {s i} (hphase : s.phase i = .idle) (htakes : (ex i).takesLbr = true) :
      LbrStep ex m s (.capture i)
        (s.write (slotOf m (ex i).cpu) ((ex i).fill (s.buff (slotOf m (ex i).cpu))) i .snapshotted)
  /-- `lbr->nr_bytes` is assigned. -/
  | count {s i} (hphase : s.phase i = .snapshotted) :
      LbrStep ex m s (.count i)
        (s.write (slotOf m (ex i).cpu) { s.buff (slotOf m (ex i).cpu) with nrBytes := (ex i).nrBytes } i .filtering)
  | pass {s i} (hphase : s.phase i = .idle) (htakes : (ex i).takesLbr = false) :
      LbrStep ex m s (.pass i) (s.goto i .filtering)
  /-- A filter refuses the event, there is no session, or the ring buffer is
  full. -/
  | stop {s i} (hphase : s.phase i = .filtering) : LbrStep ex m s (.stop i) (s.goto i .stopped)
  | skip {s i} (hphase : s.phase i = .filtering)
      (hskip : (ex i).takesLbr = true → (s.buff (slotOf m (ex i).cpu)).nrBytes.sle 0 = true) :
      LbrStep ex m s (.skip i) (s.goto i .filling)
  /-- `lbr->nr_bytes > 0`. -/
  | check {s i} (hphase : s.phase i = .filtering) (htakes : (ex i).takesLbr = true)
      (hsome : (0#64).slt (s.buff (slotOf m (ex i).cpu)).nrBytes = true) :
      LbrStep ex m s (.check i) (s.goto i .updating)
  | store {s i} (hphase : s.phase i = .updating) :
      LbrStep ex m s (.update i true)
        { s.goto i .filling with
          lbrs := Function.update s.lbrs (ex i).sessID (some (s.buff (slotOf m (ex i).cpu))) }
  /-- The map is full. -/
  | full {s i} (hphase : s.phase i = .updating) : LbrStep ex m s (.update i false) (s.goto i .filling)
  | submit {s i} (hphase : s.phase i = .filling) : LbrStep ex m s (.submit i) (s.goto i .submitted)
  /-- `lbrs.LookupAndDelete`. -/
  | handle {s i} (hphase : s.phase i = .submitted) :
      LbrStep ex m s (.handle i)
        { s.goto i .handled with
          found := Function.update s.found i (some (s.lbrs (ex i).sessID)),
          lbrs := Function.update s.lbrs (ex i).sessID none }

/-- The states that a list of steps leads to. -/
inductive LbrRun (ex : ι → LbrExec) (m : BitVec 64) (buff : BitVec 32 → LbrData) :
    List (LbrAction ι) → LbrState ι → Prop where
  | init : LbrRun ex m buff [] (.init buff)
  | step {acts s a t} (hrun : LbrRun ex m buff acts s) (hstep : LbrStep ex m s a t) : LbrRun ex m buff (acts ++ [a]) t

end Machine

/-! ## Lines -/

/-- `entries[i:]` from the first entry on that meets the condition, or all. -/
def fromFirst (p : LbrEntry → Bool) (entries : List LbrEntry) : List LbrEntry :=
  match entries.findIdx? p with
  | some i => entries.drop i
  | none => entries

/-- `entries[:i+1]` up to the last one. -/
def upToLast (p : LbrEntry → Bool) (entries : List LbrEntry) : List LbrEntry :=
  match entries.reverse.findIdx? p with
  | some i => entries.take (entries.length - i)
  | none => entries

/-- What `get` looks at beside the data: the flags, the address range of the
program where the function is one, and the symbol of an address. -/
structure LbrView where
  verbose : Bool
  modeExit : Bool
  contains : Option (Word → Bool)
  find : Word → Option Word
  funcIP : Word

/-- The entries that `lbrStack.get` shows. -/
def LbrView.select (v : LbrView) (entries : List LbrEntry) : List LbrEntry :=
  if v.verbose then entries
  else match v.contains with
    | none => fromFirst (fun e => v.find e.from_ == some v.funcIP) entries
    | some contains =>
      if v.modeExit then
        upToLast (fun e => contains e.from_ || contains e.to_)
          (fromFirst (fun e => contains e.from_ || contains e.to_) entries)
      else fromFirst (fun e => contains e.from_) entries

/-- `lbrStack.outputStack`: the entries that become lines. -/
def outputStack (v : LbrView) : Option LbrData → List LbrEntry
  | none => []
  | some data =>
    if (0#64).slt data.nrBytes ∧ data.entries.head? ≠ some ⟨0, 0, 0⟩ then
      v.select (data.entries.take (data.nrBytes.toNat / entrySize))
    else []

/-! ## The buffers of the CPUs are apart -/

/-- The loop ends at the first power of two that is large enough. -/
theorem maskFrom_pow {v : BitVec 64} (hv : v.toNat ≤ 2 ^ 62) :
    ∀ {doublings j : Nat}, j + doublings = 64 → j ≤ 62 →
      ∃ k ≤ 62, v.toNat ≤ 2 ^ k ∧ maskFrom v doublings (BitVec.ofNat 64 (2 ^ j)) = some (BitVec.ofNat 64 (2 ^ k - 1)) := by
  intro doublings
  induction doublings with
  | zero =>
    intro j hj hle
    omega
  | succ doublings ih =>
    intro j hj hle
    have hpow : 2 ^ j ≤ 2 ^ 62 := Nat.pow_le_pow_right (by omega) hle
    have hn : (BitVec.ofNat 64 (2 ^ j)).toNat = 2 ^ j := by
      rw [BitVec.toNat_ofNat, Nat.mod_eq_of_lt (by omega)]
    have hslt : (BitVec.ofNat 64 (2 ^ j)).slt v = decide (2 ^ j < v.toNat) := by
      rw [BitVec.slt_eq_ult_of_msb_eq]
      · rw [BitVec.ult, hn]
      · rw [BitVec.msb_eq_false_iff_two_mul_lt.mpr (by omega), BitVec.msb_eq_false_iff_two_mul_lt.mpr (by omega)]
    rw [maskFrom, hslt]
    by_cases hlt : 2 ^ j < v.toNat
    · have hnext : BitVec.ofNat 64 (2 ^ j) <<< 1 = BitVec.ofNat 64 (2 ^ (j + 1)) := by
        apply BitVec.eq_of_toNat_eq
        rw [BitVec.toNat_shiftLeft, hn, BitVec.toNat_ofNat, Nat.shiftLeft_eq, Nat.pow_one, ← Nat.pow_succ]
      have hbelow : j < 62 := by
        by_contra hge
        have : j = 62 := by omega
        rw [this] at hlt
        omega
      rw [if_pos (by simpa using hlt), hnext]
      exact ih (by omega) hbelow
    · refine ⟨j, hle, by omega, ?_⟩
      rw [if_neg (by simpa using hlt)]
      congr 1
      apply BitVec.eq_of_toNat_eq
      rw [BitVec.toNat_sub, BitVec.toNat_ofNat, BitVec.toNat_ofNat]
      have := Nat.one_le_two_pow (n := j)
      simp
      omega

/-- `mathx.Mask`: all ones, up to the first power of two that is not less. -/
theorem mask_pow {v : BitVec 64} (hv : v.toNat ≤ 2 ^ 62) :
    ∃ k ≤ 62, v.toNat ≤ 2 ^ k ∧ mask v = some (BitVec.ofNat 64 (2 ^ k - 1)) := by
  have hmax : v ≠ BitVec.intMax 64 := by
    rintro rfl
    revert hv
    decide
  rw [mask, if_neg hmax]
  exact maskFrom_pow hv (j := 0) rfl (by omega)

/-- A CPU has the buffer of its number. -/
theorem slotOf_cpu {numCPU m : BitVec 64} {cpu : BitVec 32} (hnum : numCPU.toNat ≤ 2 ^ 62)
    (hcpu : cpu.toNat < numCPU.toNat) (hmask : mask numCPU = some m) : slotOf m cpu = cpu := by
  obtain ⟨k, hk, hle, hm⟩ := mask_pow hnum
  rw [hm, Option.some.injEq] at hmask
  subst hmask
  apply BitVec.eq_of_getLsbD_eq
  intro i hi
  by_cases hik : i < k
  · have : (2 ^ k - 1).testBit i = true := by simp [Nat.testBit_two_pow_sub_one, hik]
    rw [slotOf, BitVec.getLsbD_and, BitVec.getLsbD_setWidth, BitVec.getLsbD_ofNat, this]
    simp only [hi, show i < 64 by omega, decide_true, Bool.and_true]
  · have hzero : cpu.getLsbD i = false := by
      rw [BitVec.getLsbD]
      apply Nat.testBit_lt_two_pow
      exact Nat.lt_of_lt_of_le (Nat.lt_of_lt_of_le hcpu hle) (Nat.pow_le_pow_right (by omega) (by omega))
    simp [slotOf, hzero]

/-! ## The steps -/

/-- The execution that an action is about. -/
def LbrAction.actor {ι : Type} : LbrAction ι → ι
  | .capture i | .count i | .pass i | .stop i | .skip i | .check i | .update i _ | .submit i | .handle i => i

/-- The one that writes its buffer. -/
def LbrAction.writer {ι : Type} : LbrAction ι → Option ι
  | .capture i | .count i => some i
  | _ => none

def LbrAction.before {ι : Type} : LbrAction ι → LbrPhase
  | .capture _ | .pass _ => .idle
  | .count _ => .snapshotted
  | .stop _ | .skip _ | .check _ => .filtering
  | .update _ _ => .updating
  | .submit _ => .filling
  | .handle _ => .submitted

def LbrAction.after {ι : Type} : LbrAction ι → LbrPhase
  | .capture _ => .snapshotted
  | .count _ | .pass _ => .filtering
  | .stop _ => .stopped
  | .check _ => .updating
  | .skip _ | .update _ _ => .filling
  | .submit _ => .submitted
  | .handle _ => .handled

section Steps

variable {ι : Type} [DecidableEq ι] {ex : ι → LbrExec} {m : BitVec 64} {s t : LbrState ι} {a : LbrAction ι}

/-- The phases of a step. -/
theorem LbrStep.phases (h : LbrStep ex m s a t) :
    s.phase a.actor = a.before ∧ t.phase = Function.update s.phase a.actor a.after := by
  cases h <;> exact ⟨by assumption, rfl⟩

theorem LbrStep.phase_of_ne (h : LbrStep ex m s a t) {i : ι} (hi : i ≠ a.actor) : t.phase i = s.phase i := by
  rw [h.phases.2, Function.update_of_ne hi]

theorem LbrStep.phase_actor (h : LbrStep ex m s a t) : t.phase a.actor = a.after := by
  rw [h.phases.2, Function.update_self]

/-- A step leaves alone the buffers it does not write. -/
theorem LbrStep.buff_of_ne (h : LbrStep ex m s a t) {slot : BitVec 32}
    (hslot : ∀ j, a.writer = some j → slot ≠ slotOf m (ex j).cpu) : t.buff slot = s.buff slot := by
  cases h with
  | capture => exact Function.update_of_ne (hslot _ rfl) ..
  | count => exact Function.update_of_ne (hslot _ rfl) ..
  | _ => rfl

/-- What a step does to the map. -/
theorem LbrStep.lbrs (h : LbrStep ex m s a t) (k : Word) :
    t.lbrs k = s.lbrs k ∨
    (∃ i, a = .update i true ∧ k = (ex i).sessID ∧ t.lbrs k = some (s.buff (slotOf m (ex i).cpu))) ∨
    (∃ i, a = .handle i ∧ k = (ex i).sessID ∧ t.lbrs k = none) := by
  cases h with
  | @store i hphase =>
    by_cases hk : k = (ex i).sessID
    · exact .inr (.inl ⟨i, rfl, hk, by rw [hk]; exact Function.update_self ..⟩)
    · exact .inl (Function.update_of_ne hk ..)
  | @handle i hphase =>
    by_cases hk : k = (ex i).sessID
    · exact .inr (.inr ⟨i, rfl, hk, by rw [hk]; exact Function.update_self ..⟩)
    · exact .inl (Function.update_of_ne hk ..)
  | _ => exact .inl rfl

/-- What it does to what was found. -/
theorem LbrStep.found (h : LbrStep ex m s a t) (i : ι) :
    t.found i = s.found i ∨ a = .handle i ∧ t.found i = some (s.lbrs (ex i).sessID) := by
  cases h with
  | @handle j hphase =>
    by_cases hij : i = j
    · subst hij
      exact .inr ⟨rfl, Function.update_self ..⟩
    · exact .inl (Function.update_of_ne hij ..)
  | _ => exact .inl rfl

end Steps

/-! ## The invariant -/

section Invariant

variable {ι : Type}

/-- Since its capture no other execution has written the buffer. -/
def Quiet (ex : ι → LbrExec) (acts : List (LbrAction ι)) (i : ι) : Prop :=
  ∀ pre mid, acts = pre ++ .capture i :: mid →
    ∀ a ∈ mid, ∀ j, a.writer = some j → (ex j).cpu = (ex i).cpu → j = i

theorem Quiet.before {ex : ι → LbrExec} {acts : List (LbrAction ι)} {a : LbrAction ι} {i : ι}
    (h : Quiet ex (acts ++ [a]) i) : Quiet ex acts i := by
  intro pre mid hsplit b hb
  exact h pre (mid ++ [a]) (by rw [hsplit, List.append_assoc, List.cons_append]) b (List.mem_append_left _ hb)

theorem Quiet.last {ex : ι → LbrExec} {acts : List (LbrAction ι)} {a : LbrAction ι} {i j : ι}
    (h : Quiet ex (acts ++ [a]) i) (hmem : .capture i ∈ acts) (hwriter : a.writer = some j)
    (hcpu : (ex j).cpu = (ex i).cpu) : j = i := by
  obtain ⟨pre, mid, hsplit⟩ := List.append_of_mem hmem
  exact h pre (mid ++ [a]) (by rw [hsplit, List.append_assoc, List.cons_append]) a
    (List.mem_append_right _ (List.mem_singleton.mpr rfl)) j hwriter hcpu

/-- The data begin with the snapshot of the execution. -/
def Fronts (x : LbrExec) (data : LbrData) : Prop := data.entries.take x.snapshot.length = x.snapshot

/-- The data are the snapshot of the execution, and there is one. -/
structure Holds (x : LbrExec) (data : LbrData) : Prop where
  fronts : Fronts x data
  nrBytes : data.nrBytes = x.nrBytes

/-- The data were stored for the execution. -/
def Stored (ex : ι → LbrExec) (acts : List (LbrAction ι)) (i : ι) (data : LbrData) : Prop :=
  ∃ pre post, acts = pre ++ .update i true :: post ∧
    (Quiet ex pre i → Holds (ex i) data ∧ (ex i).snapshot ≠ [])

theorem Stored.concat {ex : ι → LbrExec} {acts : List (LbrAction ι)} {i : ι} {data : LbrData}
    (h : Stored ex acts i data) (a : LbrAction ι) : Stored ex (acts ++ [a]) i data := by
  obtain ⟨pre, post, hsplit, hdata⟩ := h
  exact ⟨pre, post ++ [a], by rw [hsplit, List.append_assoc, List.cons_append], hdata⟩

/-- What holds after some steps. -/
structure Snapshots (ex : ι → LbrExec) (m : BitVec 64) (acts : List (LbrAction ι)) (s : LbrState ι) : Prop where
  captured : ∀ i, (ex i).takesLbr = true → s.phase i ≠ .idle → .capture i ∈ acts
  filled : ∀ i, s.phase i = .snapshotted →
    (ex i).takesLbr = true ∧ (Quiet ex acts i → Fronts (ex i) (s.buff (slotOf m (ex i).cpu)))
  counted : ∀ i, s.phase i = .filtering → (ex i).takesLbr = true → Quiet ex acts i →
    Holds (ex i) (s.buff (slotOf m (ex i).cpu))
  checked : ∀ i, s.phase i = .updating → (ex i).takesLbr = true ∧
    (Quiet ex acts i → Holds (ex i) (s.buff (slotOf m (ex i).cpu)) ∧ (ex i).snapshot ≠ [])
  stored : ∀ k data, s.lbrs k = some data →
    ∃ i, (ex i).sessID = k ∧ (s.phase i).pending = true ∧ Stored ex acts i data

/-- What holds of the map and of what was found for an execution. -/
structure Looked (ex : ι → LbrExec) (acts : List (LbrAction ι)) (s : LbrState ι) (i : ι) : Prop where
  found : ∀ data, s.found i = some (some data) → Stored ex acts i data
  updated : .update i true ∈ acts →
    ((s.phase i = .filling ∨ s.phase i = .submitted) ∧ s.lbrs (ex i).sessID ≠ none) ∨ s.phase i = .handled
  missed : s.found i = some none → .update i true ∉ acts ∧ s.phase i = .handled

/-- No other execution that is pending has the session id of `i`, if it is
pending itself. -/
def OwnKey (ex : ι → LbrExec) (s : LbrState ι) (i : ι) : Prop :=
  (s.phase i).pending = true → ∀ j, (s.phase j).pending = true → (ex j).sessID = (ex i).sessID → j = i

theorem Snapshots.init [DecidableEq ι] {ex : ι → LbrExec} {m : BitVec 64} (buff : BitVec 32 → LbrData) :
    Snapshots ex m [] (LbrState.init buff : LbrState ι) where
  captured _ _ h := absurd rfl h
  filled _ h := by cases h
  counted _ h := by cases h
  checked _ h := by cases h
  stored _ _ h := by cases h

theorem Looked.init [DecidableEq ι] {ex : ι → LbrExec} (buff : BitVec 32 → LbrData) (i : ι) :
    Looked ex [] (LbrState.init buff : LbrState ι) i where
  found _ h := by cases h
  updated h := by cases h
  missed h := by cases h

theorem LbrAction.actor_of_writer {a : LbrAction ι} {i : ι} (h : a.writer = some i) : a.actor = i := by
  cases a <;> simp_all [LbrAction.writer, LbrAction.actor]

variable [DecidableEq ι] {ex : ι → LbrExec} {m : BitVec 64} {s t : LbrState ι} {a : LbrAction ι}
  {acts : List (LbrAction ι)}

theorem captured_step (h : Snapshots ex m acts s) (hstep : LbrStep ex m s a t) (i : ι)
    (htakes : (ex i).takesLbr = true) (hphase : t.phase i ≠ .idle) : .capture i ∈ acts ++ [a] := by
  by_cases hi : i = a.actor
  · by_cases hidle : a.before = .idle
    · cases hstep with
      | capture => simp [hi, LbrAction.actor]
      | pass _ hnot =>
        rw [hi, LbrAction.actor, hnot] at htakes
        cases htakes
      | _ => cases hidle
    · rw [← hstep.phases.1, ← hi] at hidle
      exact List.mem_append_left _ (h.captured i htakes hidle)
  · rw [hstep.phase_of_ne hi] at hphase
    exact List.mem_append_left _ (h.captured i htakes hphase)

/-- The buffer of an execution that has captured is left alone by the others,
while it is quiet. -/
theorem Snapshots.kept (h : Snapshots ex m acts s) (hslot : ∀ i, slotOf m (ex i).cpu = (ex i).cpu)
    (hstep : LbrStep ex m s a t) {i : ι} (hi : i ≠ a.actor) (htakes : (ex i).takesLbr = true)
    (hphase : s.phase i ≠ .idle) (hquiet : Quiet ex (acts ++ [a]) i) :
    t.buff (slotOf m (ex i).cpu) = s.buff (slotOf m (ex i).cpu) := by
  apply hstep.buff_of_ne
  intro j hwriter hsame
  rw [hslot, hslot] at hsame
  have hij := hquiet.last (h.captured i htakes hphase) hwriter hsame.symm
  exact hi (hij ▸ (LbrAction.actor_of_writer hwriter).symm)

omit [DecidableEq ι] in
theorem fronts_fill (x : LbrExec) (data : LbrData) : Fronts x (x.fill data) :=
  List.take_left

theorem filled_step (h : Snapshots ex m acts s) (hslot : ∀ i, slotOf m (ex i).cpu = (ex i).cpu)
    (hstep : LbrStep ex m s a t) (i : ι) (hphase : t.phase i = .snapshotted) :
    (ex i).takesLbr = true ∧ (Quiet ex (acts ++ [a]) i → Fronts (ex i) (t.buff (slotOf m (ex i).cpu))) := by
  by_cases hi : i = a.actor
  · rw [hi, hstep.phase_actor] at hphase
    cases hstep with
    | @capture j _ htakes =>
      subst hi
      refine ⟨htakes, fun _ => ?_⟩
      simp only [LbrState.write, Function.update_self]
      exact fronts_fill ..
    | _ => cases hphase
  · rw [hstep.phase_of_ne hi] at hphase
    obtain ⟨htakes, hfront⟩ := h.filled i hphase
    refine ⟨htakes, fun hquiet => ?_⟩
    rw [h.kept hslot hstep hi htakes (by simp [hphase]) hquiet]
    exact hfront hquiet.before

theorem counted_step (h : Snapshots ex m acts s) (hslot : ∀ i, slotOf m (ex i).cpu = (ex i).cpu)
    (hstep : LbrStep ex m s a t) (i : ι) (hphase : t.phase i = .filtering) (htakes : (ex i).takesLbr = true)
    (hquiet : Quiet ex (acts ++ [a]) i) : Holds (ex i) (t.buff (slotOf m (ex i).cpu)) := by
  by_cases hi : i = a.actor
  · rw [hi, hstep.phase_actor] at hphase
    cases hstep with
    | @count j hbefore =>
      subst hi
      simp only [LbrState.write, Function.update_self]
      exact ⟨(h.filled _ hbefore).2 hquiet.before, rfl⟩
    | pass _ hnot =>
      rw [hi, LbrAction.actor, hnot] at htakes
      cases htakes
    | _ => cases hphase
  · rw [hstep.phase_of_ne hi] at hphase
    rw [h.kept hslot hstep hi htakes (by simp [hphase]) hquiet]
    exact h.counted i hphase htakes hquiet.before

omit [DecidableEq ι] in
theorem snapshot_of_nrBytes {x : LbrExec} {data : LbrData} (h : Holds x data)
    (hsome : (0#64).slt data.nrBytes = true) : x.snapshot ≠ [] := by
  intro hnil
  rw [h.nrBytes, LbrExec.nrBytes, if_pos hnil] at hsome
  revert hsome
  decide

theorem checked_step (h : Snapshots ex m acts s) (hslot : ∀ i, slotOf m (ex i).cpu = (ex i).cpu)
    (hstep : LbrStep ex m s a t) (i : ι) (hphase : t.phase i = .updating) : (ex i).takesLbr = true ∧
      (Quiet ex (acts ++ [a]) i → Holds (ex i) (t.buff (slotOf m (ex i).cpu)) ∧ (ex i).snapshot ≠ []) := by
  by_cases hi : i = a.actor
  · rw [hi, hstep.phase_actor] at hphase
    cases hstep with
    | @check j hbefore htakes hsome =>
      subst hi
      refine ⟨htakes, fun hquiet => ?_⟩
      have hholds := h.counted _ hbefore htakes hquiet.before
      exact ⟨hholds, snapshot_of_nrBytes hholds hsome⟩
    | _ => cases hphase
  · rw [hstep.phase_of_ne hi] at hphase
    obtain ⟨htakes, hholds⟩ := h.checked i hphase
    refine ⟨htakes, fun hquiet => ?_⟩
    rw [h.kept hslot hstep hi htakes (by simp [hphase]) hquiet]
    exact hholds hquiet.before

theorem stored_step (h : Snapshots ex m acts s) (hstep : LbrStep ex m s a t) (k : Word) (data : LbrData)
    (hdata : t.lbrs k = some data) :
    ∃ i, (ex i).sessID = k ∧ (t.phase i).pending = true ∧ Stored ex (acts ++ [a]) i data := by
  rcases hstep.lbrs k with hsame | ⟨i, rfl, hk, hnew⟩ | ⟨i, rfl, hk, hnew⟩
  · have hfound := hdata
    rw [hsame] at hdata
    obtain ⟨i, hi, hpending, hstored⟩ := h.stored k data hdata
    refine ⟨i, hi, ?_, hstored.concat a⟩
    by_cases hactor : i = a.actor
    · rw [hactor, hstep.phases.1] at hpending
      rw [hactor, hstep.phase_actor]
      cases a with
      | handle j =>
        -- the key is gone
        obtain rfl : i = j := hactor
        cases hstep
        simp [← hi] at hfound
      | _ => first | rfl | cases hpending
    · rw [hstep.phase_of_ne hactor]
      exact hpending
  · rw [hnew, Option.some.injEq] at hdata
    refine ⟨i, hk.symm, by rw [hstep.phases.2]; simp [LbrAction.actor, LbrAction.after, LbrPhase.pending], acts, [], rfl, ?_⟩
    rw [← hdata]
    exact (h.checked i hstep.phases.1).2
  · rw [hnew] at hdata
    cases hdata

theorem Snapshots.step (h : Snapshots ex m acts s) (hslot : ∀ i, slotOf m (ex i).cpu = (ex i).cpu)
    (hstep : LbrStep ex m s a t) : Snapshots ex m (acts ++ [a]) t where
  captured := captured_step h hstep
  filled := filled_step h hslot hstep
  counted := counted_step h hslot hstep
  checked := checked_step h hslot hstep
  stored := stored_step h hstep

variable {i : ι}

theorem found_step (h : Snapshots ex m acts s) (hi : Looked ex acts s i) (hown : OwnKey ex s i)
    (hstep : LbrStep ex m s a t) (data : LbrData) (hfound : t.found i = some (some data)) :
    Stored ex (acts ++ [a]) i data := by
  rcases hstep.found i with hsame | ⟨rfl, hnew⟩
  · rw [hsame] at hfound
    exact (hi.found data hfound).concat a
  · rw [hnew, Option.some.injEq] at hfound
    obtain ⟨j, hj, hpending, hstored⟩ := h.stored _ data hfound
    have hphase : s.phase i = .submitted := hstep.phases.1
    obtain rfl := hown (by rw [hphase]; rfl) j hpending hj
    exact hstored.concat _

theorem updated_step (hi : Looked ex acts s i) (hown : OwnKey ex s i) (hstep : LbrStep ex m s a t)
    (hmem : .update i true ∈ acts ++ [a]) :
    ((t.phase i = .filling ∨ t.phase i = .submitted) ∧ t.lbrs (ex i).sessID ≠ none) ∨ t.phase i = .handled := by
  have hlbrs : (s.phase i).pending = true → s.lbrs (ex i).sessID ≠ none → a ≠ .handle i →
      t.lbrs (ex i).sessID ≠ none := by
    intro hpending hsome hne
    rcases hstep.lbrs (ex i).sessID with hsame | ⟨j, _, _, hnew⟩ | ⟨j, ha, hk, _⟩
    · rwa [hsame]
    · rw [hnew]
      simp
    · subst ha
      have hphase : s.phase j = .submitted := hstep.phases.1
      obtain rfl := hown hpending j (by rw [hphase]; rfl) hk.symm
      exact absurd rfl hne
  rcases List.mem_append.mp hmem with hold | hlast
  · have hbefore := hi.updated hold
    by_cases hactor : i = a.actor
    · rw [hactor, hstep.phases.1] at hbefore
      rw [hactor, hstep.phase_actor]
      cases a with
      | submit j =>
        obtain rfl : i = j := hactor
        have hphase : s.phase i = .filling := hstep.phases.1
        refine .inl ⟨.inr rfl, hlbrs (by rw [hphase]; rfl) ?_ (by simp)⟩
        rcases hbefore with ⟨_, hsome⟩ | hhandled
        · exact hsome
        · cases hhandled
      | handle j => exact .inr rfl
      | _ => simp [LbrAction.before] at hbefore
    · rw [hstep.phase_of_ne hactor]
      rcases hbefore with ⟨hphase, hsome⟩ | hhandled
      · have hpending : (s.phase i).pending = true := by rcases hphase with hphase | hphase <;> rw [hphase] <;> rfl
        refine .inl ⟨hphase, hlbrs hpending hsome ?_⟩
        rintro rfl
        exact hactor rfl
      · exact .inr hhandled
  · rw [List.mem_singleton] at hlast
    subst hlast
    refine .inl ⟨.inl hstep.phase_actor, ?_⟩
    cases hstep with
    | store => simp

theorem missed_step (hi : Looked ex acts s i) (hstep : LbrStep ex m s a t) (hfound : t.found i = some none) :
    .update i true ∉ acts ++ [a] ∧ t.phase i = .handled := by
  rcases hstep.found i with hsame | ⟨rfl, hnew⟩
  · rw [hsame] at hfound
    obtain ⟨hnot, hphase⟩ := hi.missed hfound
    have hactor : i ≠ a.actor := by
      intro hactor
      rw [hactor, hstep.phases.1] at hphase
      cases a <;> cases hphase
    refine ⟨?_, by rw [hstep.phase_of_ne hactor, hphase]⟩
    intro hmem
    rcases List.mem_append.mp hmem with hold | hlast
    · exact hnot hold
    · exact hactor (List.mem_singleton.mp hlast ▸ rfl)
  · rw [hnew, Option.some.injEq] at hfound
    refine ⟨?_, hstep.phase_actor⟩
    intro hmem
    rcases List.mem_append.mp hmem with hold | hlast
    · rcases hi.updated hold with ⟨_, hsome⟩ | hhandled
      · exact hsome hfound
      · have := hstep.phases.1
        rw [LbrAction.actor, hhandled] at this
        cases this
    · cases List.mem_singleton.mp hlast

theorem Looked.step (hi : Looked ex acts s i) (h : Snapshots ex m acts s) (hown : OwnKey ex s i)
    (hstep : LbrStep ex m s a t) : Looked ex (acts ++ [a]) t i where
  found := found_step h hi hown hstep
  updated := updated_step hi hown hstep
  missed := missed_step hi hstep

theorem LbrRun.snapshots {buff : BitVec 32 → LbrData} (hslot : ∀ i, slotOf m (ex i).cpu = (ex i).cpu)
    (hrun : LbrRun ex m buff acts s) : Snapshots ex m acts s := by
  induction hrun with
  | init => exact .init buff
  | step _ hstep ih => exact ih.step hslot hstep

theorem LbrRun.looked {buff : BitVec 32 → LbrData} (hslot : ∀ i, slotOf m (ex i).cpu = (ex i).cpu)
    (hrun : LbrRun ex m buff acts s) (hown : ∀ pre u, pre <+: acts → LbrRun ex m buff pre u → OwnKey ex u i) :
    Looked ex acts s i := by
  induction hrun with
  | init => exact .init buff i
  | step hbefore hstep ih =>
    exact (ih fun pre u hpre hu => hown pre u (hpre.trans (List.prefix_append ..)) hu).step
      (hbefore.snapshots hslot) (hown _ _ (List.prefix_append ..) hbefore) hstep

end Invariant

/-! ## What is shown -/

theorem fromFirst_isInfix (p : LbrEntry → Bool) (entries : List LbrEntry) : fromFirst p entries <:+: entries := by
  rw [fromFirst]
  split
  · exact (List.drop_suffix ..).isInfix
  · exact List.infix_rfl

theorem upToLast_isInfix (p : LbrEntry → Bool) (entries : List LbrEntry) : upToLast p entries <:+: entries := by
  rw [upToLast]
  split
  · exact (List.take_prefix ..).isInfix
  · exact List.infix_rfl

/-- What is shown is in one piece. -/
theorem LbrView.select_isInfix (v : LbrView) (entries : List LbrEntry) : v.select entries <:+: entries := by
  rw [LbrView.select]
  split
  · exact List.infix_rfl
  · split
    · exact fromFirst_isInfix ..
    · split
      · exact (upToLast_isInfix ..).trans (fromFirst_isInfix ..)
      · exact fromFirst_isInfix ..

/-- What an execution's own snapshot shows. -/
def LbrExec.shown (x : LbrExec) (v : LbrView) : List LbrEntry :=
  if x.snapshot.head? = some ⟨0, 0, 0⟩ then [] else v.select x.snapshot

theorem outputStack_holds {x : LbrExec} {data : LbrData} (v : LbrView) (h : Holds x data) (hne : x.snapshot ≠ []) :
    outputStack v (some data) = x.shown v := by
  have hlen := x.snapshot_le
  have hpos := List.length_pos_iff.mpr hne
  have hbytes : data.nrBytes.toNat = entrySize * x.snapshot.length := by
    rw [h.nrBytes, LbrExec.nrBytes, if_neg hne, BitVec.toNat_ofNat, Nat.mod_eq_of_lt]
    simp only [entrySize, maxLbrEntries] at *
    omega
  have hsome : (0#64).slt data.nrBytes = true := by
    rw [BitVec.slt_eq_ult_of_msb_eq]
    · simp [BitVec.ult, hbytes, entrySize, hpos]
    · rw [eq_comm, BitVec.msb_eq_false_iff_two_mul_lt.mpr]
      · rfl
      · simp only [hbytes, entrySize, maxLbrEntries] at *
        omega
  have hhead : data.entries.head? = x.snapshot.head? := by
    rw [← h.fronts, List.head?_take, if_neg (by omega)]
  rw [outputStack, hbytes, Nat.mul_div_cancel_left _ (by decide), h.fronts, hhead, LbrExec.shown]
  by_cases hzero : x.snapshot.head? = some ⟨0, 0, 0⟩
  · rw [if_neg (by simp [hzero]), if_pos hzero]
  · rw [if_pos ⟨hsome, hzero⟩, if_neg hzero]

/-- No other execution writes the buffer between the capture of `i` and the
copy to the map. -/
def Undisturbed {ι : Type} (ex : ι → LbrExec) (acts : List (LbrAction ι)) (i : ι) : Prop :=
  ∀ pre post, acts = pre ++ .update i true :: post → Quiet ex pre i

/-- In every state on the way, the session id of `i` is its own among those of
the executions that are pending. -/
def OwnId {ι : Type} [DecidableEq ι] (ex : ι → LbrExec) (m : BitVec 64) (buff : BitVec 32 → LbrData)
    (acts : List (LbrAction ι)) (i : ι) : Prop :=
  ∀ pre s, pre <+: acts → LbrRun ex m buff pre s → OwnKey ex s i

/-- **Each event shows its own snapshot.** The CPUs have buffers of their
own, inside the array. In every run, an event whose execution was
undisturbed on its CPU, and whose session id was its own while it was pending,
shows its own snapshot if that was stored, and nothing otherwise; never one of
another execution. -/
theorem lbr_snapshots {ι : Type} [DecidableEq ι] {ex : ι → LbrExec} {numCPU : BitVec 64}
    (hnum : numCPU.toNat ≤ 2 ^ 62) (hcpu : ∀ i, (ex i).cpu.toNat < numCPU.toNat) :
    ∃ m, mask numCPU = some m ∧ (∀ i, slotOf m (ex i).cpu = (ex i).cpu) ∧
      ∀ buff acts s, LbrRun ex m buff acts s → ∀ i data v, s.found i = some data → Undisturbed ex acts i →
        OwnId ex m buff acts i →
        outputStack v data = (if .update i true ∈ acts then (ex i).shown v else []) ∧
        outputStack v data <:+: (ex i).snapshot := by
  obtain ⟨k, _, _, hmask⟩ := mask_pow hnum
  have hslot (i : ι) : slotOf (BitVec.ofNat 64 (2 ^ k - 1)) (ex i).cpu = (ex i).cpu :=
    slotOf_cpu hnum (hcpu i) hmask
  refine ⟨_, hmask, hslot, ?_⟩
  intro buff acts s hrun i data v hfound hundisturbed hown
  have hs := hrun.looked hslot hown
  have hshown : (ex i).shown v <:+: (ex i).snapshot := by
    rw [LbrExec.shown]
    split
    · exact List.nil_infix
    · exact v.select_isInfix _
  cases data with
  | none =>
    rw [if_neg (hs.missed hfound).1]
    exact ⟨rfl, List.nil_infix⟩
  | some data =>
    obtain ⟨pre, post, hsplit, hdata⟩ := hs.found data hfound
    obtain ⟨hholds, hne⟩ := hdata (hundisturbed pre post hsplit)
    have hmem : .update i true ∈ acts := hsplit ▸ List.mem_append_right _ List.mem_cons_self
    rw [outputStack_holds v hholds hne, if_pos hmem]
    exact ⟨rfl, hshown⟩

/-! Two CPUs: the one takes its snapshot while the other has its own in its
buffer. -/

def oneBranch (ip : Word) : LbrEntry := ⟨ip, ip + 4, 0⟩

def twoExecs (i : Bool) : LbrExec where
  cpu := if i then 1 else 0
  sessID := if i then 8 else 16
  outputLbr := true
  bothEntryExit := false
  isEntry := false
  snapshot := [oneBranch (if i then 0x1000 else 0x2000)]
  snapshot_le := by simp [maxLbrEntries]

def clearBuff (_ : BitVec 32) : LbrData where
  entries := List.replicate maxLbrEntries ⟨0, 0, 0⟩
  nrBytes := 0
  length_entries := List.length_replicate

def twoActs : List (LbrAction Bool) :=
  [.capture true, .capture false, .count false, .count true, .check true, .update true true, .submit true, .handle true]

def allView : LbrView := ⟨true, true, none, fun _ => none, 0x1000⟩

theorem twoExecs_snapshots : ∃ s data, LbrRun twoExecs 1 clearBuff twoActs s ∧ s.found true = some data ∧
    outputStack allView data = [oneBranch 0x1000] := by
  have hcpu : ∀ i, (twoExecs i).cpu.toNat < (2#64).toNat := by decide
  obtain ⟨m, hmask, _, hall⟩ := lbr_snapshots (by decide) hcpu
  have hm : m = 1 := (Option.some.inj (hmask.symm.trans (by decide : mask 2 = some 1)))
  subst hm
  have hrun : ∃ s data, LbrRun twoExecs 1 clearBuff twoActs s ∧ s.found true = some data :=
    ⟨_, _, .step (.step (.step (.step (.step (.step (.step (.step .init (.capture rfl rfl)) (.capture rfl rfl))
      (.count rfl)) (.count rfl)) (.check rfl rfl (by decide))) (.store rfl)) (.submit rfl)) (.handle rfl), rfl⟩
  obtain ⟨s, data, hrun, hfound⟩ := hrun
  refine ⟨s, data, hrun, hfound, ?_⟩
  have hundisturbed : Undisturbed twoExecs twoActs true := by
    intro pre post _ pre' mid hsplit a ha j hwriter hcpu
    revert hcpu
    cases j <;> simp [twoExecs]
  have hown : OwnId twoExecs 1 clearBuff twoActs true := by
    intro _ _ _ _ _ j _ hid
    revert hid
    cases j <;> simp [twoExecs]
  rw [(hall _ _ s hrun true data allView hfound hundisturbed hown).1, if_pos (by decide)]
  rfl

end Bpfsnoop.Trace.EventLoop.Lbr
