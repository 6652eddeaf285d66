/-
Bpfsnoop.Progs.GraphFuncs — the functions that are traced as part of a
function graph.

`FindGraphFuncs` runs the parser of `Progs.FuncGraphs` twice: from the
functions of its deny list, with themselves at depth 0, and from the traced
functions and those of `--fgraph-extra`. What the first run met is removed
from what the second one found. `addTracee` is what `add` makes of an
address; the functions it takes are symbols of the kernel that neither list
nor pattern refuses, or BPF programs.

The goroutine that calls `add` itself is one more worker: it parses a
function `none` whose calls are the functions it adds. As in
`Progs.FuncGraphs` no worker fails. The names in `syms` are left out: a
symbol whose name occurs twice is refused before (`symOfAddr_inj`).
-/
import Bpfsnoop.Progs.FuncGraphTheorems
import Bpfsnoop.Progs.KernelFuncTheorems

namespace Bpfsnoop.Progs

open Btf CC Lib Ksyms Trace
open Ebpf (Word)

/-- What the programs of a function graph call, and what would recurse. -/
def fgraphDenyList : List String :=
  ["*htab_map_lookup_elem", "bpf_ringbuf_reserve", "bpf_ringbuf_submit", "bpf_ktime_get_ns",
    "bpf_get_smp_processor_id", "bpf_probe_read_kernel", "bpf_probe_read_kernel_str", "bpf_dispatcher_xdp_func"]

/-- A function of a BPF program, what `add` looks at. -/
structure GraphProg where
  funcName : String
  /-- `canTrace`. -/
  canTrace : Bool
  /-- From the start of its addresses to their end. -/
  len : Nat
  len_ne : len ≠ 0

/-- `FuncGraph`: a kernel function or a program. -/
inductive GraphTracee where
  | kfunc (kf : KFunc)
  | prog (p : GraphProg)

/-- The flags of function graphs. -/
structure GraphFlags where
  depth : Nat
  debug : Bool
  includes : List String
  excludes : List String
  extra : List String

/-- What `FindGraphFuncs` works with. -/
structure GraphEnv where
  S : FuncSource
  fs : BtfFiles
  kmodFlags : KmodFlags
  cmd : CommandOptions
  allKmods : Bool
  fuel : Nat
  ksyms : Kallsyms
  maxArgs : Nat
  flags : GraphFlags
  /-- The type is one of a function. -/
  asFunc : Spec → BtfType → Option BtfFunc
  /-- `progs.funcs`. -/
  progs : Word → Option GraphProg
  /-- The targets of the call instructions of a function. -/
  calls : Word → List Word
  guessBytes : Word → Nat
  guessBytes_ne : ∀ ip, guessBytes ip ≠ 0

namespace GraphEnv

variable (env : GraphEnv)

/-! ## What `add` takes -/

/-- `AnyTypeByName`, where it gives a function. -/
def funcNamed (spec : Spec) (name : String) : Option BtfFunc :=
  match spec.anyTypeByName name with
  | .error _ => none
  | .ok typ => env.asFunc spec typ

/-- A pattern of `--fgraph-exclude` matches the function of a BTF. -/
def excludedIn (excludes : List KfuncMatch) (name : String) (spec : Spec) : Option Unit :=
  match env.funcNamed spec name with
  | none => none
  | some fn => (matchKernelFunc env.S excludes spec fn env.maxArgs env.ksyms false).map fun _ => ()

/-- `isExcludedKfunc`. -/
def isExcludedKfunc (excludes : List KfuncMatch) (name : String) : Except GoError Bool :=
  match iterateKernelBtfs env.fs env.kmodFlags (latch (env.excludedIn excludes name)) true [] none with
  | (.error err, _) => .error (.wrapf "failed to iterate kernel BTFs for excludes: %w" [] err)
  | (.ok (), excluded) => .ok excluded.isSome

/-- What the iterator of `checkIncludedKfunc` makes of a BTF: nothing, a
function, or an error. The symbol of a function is set by `add`. -/
def includedIn (includes : List KfuncMatch) (name : String) (spec : Spec) : Option (Except GoError KFunc) :=
  match env.funcNamed spec name with
  | none => none
  | some fn =>
    match checkKfuncTraceable fn env.ksyms with
    | none => none
    | some ksym =>
      if includes = [] then
        match getFuncParams env.S.heap env.S.isConstCharPtr fn.type with
        | .error err => some (.error err)
        | .ok (params, ret) =>
          if params.length ≤ env.maxArgs then
            some (.ok { ksym := ksym, func := fn, btf := spec, prms := params, ret := ret, insn := false, flag := {} })
          else none
      else (matchKernelFunc env.S includes spec fn env.maxArgs env.ksyms false).map .ok

/-- `checkIncludedKfunc`. -/
def checkIncludedKfunc (includes : List KfuncMatch) (name : String) : Except GoError (Option KFunc) :=
  match iterateKernelBtfs env.fs env.kmodFlags (latch (env.includedIn includes name)) true [] none with
  | (.error err, _) => .error (.wrapf "failed to iterate kernel BTFs for includes: %w" [] err)
  | (.ok (), none) => .ok none
  | (.ok (), some (.ok kfunc)) => .ok (some kfunc)
  | (.ok (), some (.error err)) => .error err

/-- `add`, between the entry it makes and `addParse`. -/
def addTracee (includes excludes : List KfuncMatch) (ip : Word) : Except GoError (Option GraphTracee) :=
  match env.progs ip with
  | some prog => if !prog.canTrace then .ok none else .ok (some (.prog prog))
  | none =>
    match env.ksyms.symOfAddr ip with
    | none => .ok none
    | some ksym =>
      if ksym.duped then .ok none
      else if ksym.mod = Ksyms.kmodBpf then .ok none
      else if tracingDenyFuncs.contains ksym.name || noreturnFuncs.contains ksym.name then .ok none
      else
        match env.isExcludedKfunc excludes ksym.name with
        | .error err => .error (.wrapf "failed to check if function %s is excluded: %w" [.text ksym.name] err)
        | .ok true => .ok none
        | .ok false =>
          match env.checkIncludedKfunc includes ksym.name with
          | .error err => .error (.wrapf "failed to check if function %s is included: %w" [.text ksym.name] err)
          | .ok none => .ok none
          | .ok (some kfunc) => .ok (some (.kfunc { kfunc with ksym := ksym }))

/-! ## The two parsers -/

/-- What a parser finds at the addresses, and at `none` the functions that
the caller of `add` adds. The jump of a program that a freplace program has
replaced is not followed. -/
def graphCode (includes excludes : List KfuncMatch) (maxDepth : Nat) (added : List Word) : CallCode (Option Word) where
  callees
    | none => added.map some
    | some ip => (env.calls ip).map some
  bytes
    | none => 1
    | some ip =>
      match env.progs ip with
      | some prog => prog.len
      | none => env.guessBytes ip
  traceable
    | none => false
    | some ip =>
      match env.addTracee includes excludes ip with
      | .ok (some _) => true
      | _ => false
  maxDepth := maxDepth
  bytes_ne ip := by
    cases ip with
    | none => exact Nat.one_ne_zero
    | some ip =>
      dsimp only
      split
      · exact GraphProg.len_ne _
      · exact env.guessBytes_ne ip

/-- `FindKernelFuncs`, of some patterns. -/
def findFuncs (funcs : List String) : Option (Except GoError KFuncs) :=
  FindKernelFuncs env.S env.fs env.kmodFlags env.cmd env.allKmods env.fuel funcs env.ksyms env.maxArgs

/-- The addresses of some functions. -/
def addrsOf (kfuncs : KFuncs) : List Word := kfuncs.entries.map fun kf => kf.2.ksym.addr

/-- The traced functions and programs with a graph: `kfs` and `bps`. -/
def graphRoots (kfuncs : KFuncs) (bps : List Word) : List Word :=
  (kfuncs.entries.filter fun kf => kf.2.flag.graph).map (fun kf => kf.2.ksym.addr) ++ bps

end GraphEnv

/-- An execution of `FindGraphFuncs` that does not fail, for some traced
functions and programs: the patterns, the functions that are denied and
added, in the order in which Go ranges over a map, and the schedules of the
two parsers. `add(addr, 0)` is at depth 0, so the depths of the first parser
count from the goroutine that calls it, one above. -/
structure GraphSearch (env : GraphEnv) (kfuncs : KFuncs) (bps : List Word) where
  roots : List Word
  includes : List KfuncMatch
  excludes : List KfuncMatch
  extraKfuncs : KFuncs
  denyKfuncs : KFuncs
  extras : List Word
  denies : List Word
  denySchedule : List Nat
  denyParser : GraphParser (Option Word)
  schedule : List Nat
  parser : GraphParser (Option Word)
  hroots : roots.Perm (GraphEnv.graphRoots kfuncs bps)
  hsome : roots ≠ []
  hincludes : kfuncFlags2matches env.S env.cmd env.fuel env.flags.includes = some (.ok includes)
  hexcludes : kfuncFlags2matches env.S env.cmd env.fuel env.flags.excludes = some (.ok excludes)
  hextra : env.findFuncs env.flags.extra = some (.ok extraKfuncs)
  hdeny : env.findFuncs fgraphDenyList = some (.ok denyKfuncs)
  hextras : extras.Perm (GraphEnv.addrsOf extraKfuncs)
  hdenies : denies.Perm (GraphEnv.addrsOf denyKfuncs)
  hdenyRun : GraphParser.run (env.graphCode includes excludes (env.flags.depth + 1) denies) [none] denySchedule =
    .ok denyParser
  hdenyWaited : denyParser.Waited
  hrun : GraphParser.run (env.graphCode includes excludes env.flags.depth extras) (none :: roots.map some) schedule =
    .ok parser
  hwaited : parser.Waited

/-- What `FindGraphFuncs` returns: the entries that were filled in, less
those of the denied functions. -/
def GraphSearch.graphs {env : GraphEnv} {kfuncs : KFuncs} {bps : List Word} (x : GraphSearch env kfuncs bps)
    (ip : Word) : Option GraphTracee :=
  if (x.denyParser.maps.graphs (some ip)).isSome && !env.flags.debug then none
  else if (x.parser.maps.graphs (some ip)).getD 0 = 0 then none
  else
    match env.addTracee x.includes x.excludes ip with
    | .ok tracee => tracee
    | .error _ => none

end Bpfsnoop.Progs
