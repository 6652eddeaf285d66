/-
Bpfsnoop.Progs.Tracepoints — the tracepoints that the `--tracepoint` flags
select.

The kernel has a table of its tracepoints, and every module one of its own.
A BPF program copies the table piece by piece, 256 entries at a time, and
another one walks the list of the modules. What is found is matched against
the flags as kernel functions are, and put beside them under random
addresses. `findKernelTracepoints_iff` says which tracepoints are selected.

What the kernel holds is a parameter, and the BPF programs load and run. The
pieces of a table are apart by the size that BTF gives, and the entries of a
piece by the size that the program was compiled with. Where several lookups
fail, the error is that of the first one in the order of the table.
-/
import Bpfsnoop.Progs.KernelFuncs

namespace Bpfsnoop.Progs

open Btf CC Lib Ksyms Trace
open Ebpf (Word Byte)

/-! ## What is in the kernel -/

/-- `struct bpf_raw_event_map`, with the bytes of the name of its tracepoint. -/
structure RawEvent where
  name : List Byte
  bpfFunc : Word
  numArgs : BitVec 32

/-- The `struct module` of a node of the list. -/
structure KernelModule where
  name : List Byte
  numBpfRawEvents : Word
  bpfRawEvents : Word

structure TpKernel where
  /-- What is in a table, by its address. -/
  rawEvent : Word → RawEvent
  /-- `btf.Sizeof` of `bpf_raw_event_map`, or what it fails with. -/
  rawEventSz : Except GoError Nat
  listNext : Word → Word
  /-- The module of a node of the list. -/
  moduleOf : Word → KernelModule
  /-- `btf.LoadKernelModuleSpec`, `notFound` for `ENOENT`. -/
  loadKernelModuleSpec : String → Except LookupError Spec
  getKernelBTF : Spec
  /-- `t.(*btf.Func)`. -/
  asFunc : Spec → BtfType → Option BtfFunc
  /-- The order in which Go ranges over a map of modules. -/
  rangeModules : List String → List String
  rangeModules_perm : ∀ names, (rangeModules names).Perm names

/-- `bpf_probe_read_kernel_str` into `n` bytes that were 0. -/
def readKernelStr (n : Nat) (s : List Byte) : List Byte :=
  s.take (n - 1) ++ List.replicate (n - (s.take (n - 1)).length) 0

/-! ## The BPF programs -/

def tpMax : Nat := 256
def tpModuleMax : Nat := 256
def tpModuleMaxTps : Nat := 65536

/-- `sizeof(struct bpf_raw_event_map)` in `tracepoint.c`. -/
def rawEventMapSz : Nat := 32

/-- `struct tp_info`. -/
structure TpInfo where
  name : List Byte
  sym : Word
  nrArgs : BitVec 32

/-- `struct module_info`. -/
structure TpModuleInfo where
  name : List Byte
  nrBpfRawEvents : Word
  bpfRawEvent : Word

section Probes

variable (K : TpKernel)

/-- `probe_tp_info`. -/
def probeTpInfo (e : RawEvent) : TpInfo := ⟨readKernelStr 64 e.name, e.bpfFunc, e.numArgs⟩

/-- The program of `tracepoint.c`: the entries that it fills. -/
def probeTps (start : Word) (nrTps : Nat) : List TpInfo :=
  (List.range (min nrTps tpMax)).map fun i => probeTpInfo (K.rawEvent (start + BitVec.ofNat 64 (i * rawEventMapSz)))

/-- `probe_module_info`. -/
def probeModuleInfo (m : KernelModule) : TpModuleInfo :=
  ⟨readKernelStr 56 m.name, m.numBpfRawEvents, m.bpfRawEvents⟩

/-- The loop of `tracepoint_module.c`: the modules, and the node it stops at. -/
def walkModules (head : Word) : Nat → Word → List TpModuleInfo × Word
  | 0, next => ([], next)
  | i + 1, next =>
    if next = head then ([], next)
    else
      let (modules, last) := walkModules head i (K.listNext next)
      (probeModuleInfo (K.moduleOf next) :: modules, last)

end Probes

/-! ## Reading the tables -/

/-- `tracepointInfo`, as it is put together. -/
structure TracepointInfo where
  name : String
  kmod : String := ""
  sym : Word
  nrArgs : BitVec 32
  fn : BtfFunc

abbrev TpTable := AList fun _ : String => TracepointInfo

section Read

variable (K : TpKernel) (ksyms : Kallsyms)

/-- The entries of `tps` that are used. -/
def tpEntry (tp : TpInfo) : Option (String × (Word × BitVec 32)) :=
  if tp.sym = 0 then none else some (goString (nullTerminated tp.name), tp.sym, tp.nrArgs)

/-- `probeTracepointInfos`. -/
def probeTracepointInfos (start : Word) (cnt : Nat) : AList fun _ : String => Word × BitVec 32 :=
  insertAll ∅ ((probeTps K start cnt).filterMap tpEntry)

/-- The function of a tracepoint. -/
def resolveTracepoint (spec : Spec) (name : String) (info : Word × BitVec 32) : Except GoError TracepointInfo :=
  match ksyms.symOfAddr info.1 with
  | none => .error (.errorf "%d is not found in kallsyms" [.num info.1])
  | some ksym =>
    match spec.anyTypeByName ksym.name with
    | .error _ => .error (.errorf "%s is not found in kernel btf" [.text ksym.name])
    | .ok t =>
      match K.asFunc spec t with
      | none => .error (.errorf "%s is not a func in kernel btf" [.text ksym.name])
      | some fn => .ok { name := name, sym := info.1, nrArgs := info.2, fn := fn }

/-- `probeTracepoints`, with the table so far. -/
def probeTracepoints (spec : Spec) (size : Nat) (tps : TpTable) (start : Word) (total : Nat) :
    Except GoError TpTable :=
  if total = 0 then .ok tps
  else
    let cnt := min total tpMax
    match insertResolved (resolveTracepoint K ksyms spec) tps (probeTracepointInfos K start cnt) with
    | .error err => .error err
    | .ok tps => probeTracepoints spec size tps (start + BitVec.ofNat 64 (size * cnt)) (total - cnt)
termination_by total
decreasing_by
  simp only [tpMax]
  omega

/-- The size of an entry, which must not be 0. -/
def entrySize : Except GoError Nat :=
  match K.rawEventSz with
  | .error err => .error err
  | .ok 0 => .error (.errorf "size of struct bpf_raw_event_map must not be 0" [])
  | .ok size => .ok size

/-- `ProbeTracepoints`. -/
def probeBuiltin : Except GoError TpTable :=
  if ksyms.bpfRawTpStart = 0 ∨ ksyms.bpfRawTpStop = 0 ∨ ksyms.bpfRawTpStop.toNat ≤ ksyms.bpfRawTpStart.toNat then
    .error (.errorf "invalid %s(%d) and %s(%d)" [.text bpfRawTpStart, .num ksyms.bpfRawTpStart,
      .text bpfRawTpStop, .num ksyms.bpfRawTpStop])
  else
    match entrySize K with
    | .error err => .error err
    | .ok size =>
      probeTracepoints K ksyms K.getKernelBTF size ∅ ksyms.bpfRawTpStart
        ((ksyms.bpfRawTpStop - ksyms.bpfRawTpStart).toNat / size)

abbrev TpModules := AList fun _ : String => TpTable

/-- The body of the loop over the modules: the tracepoints of one, if it has
any that can be read. -/
def probeModule (size : Nat) (m : TpModuleInfo) : Except GoError (Option (String × TpTable)) :=
  if m.nrBpfRawEvents = 0 ∨ tpModuleMaxTps < m.nrBpfRawEvents.toNat then .ok none
  else
    let modName := goString (nullTerminated m.name)
    match K.loadKernelModuleSpec modName with
    | .error .notFound => .ok none
    | .error err => .error (.wrapf "failed to load kernel module btf spec for %s: %w" [.text modName] (.lookup err))
    | .ok modSpec =>
      match probeTracepoints K ksyms modSpec size ∅ m.bpfRawEvent m.nrBpfRawEvents.toNat with
      | .error err =>
        .error (.wrapf "failed to probe tracepoint infos for kernel module %s: %w" [.text modName] err)
      | .ok tps => .ok (some (modName, tps))

/-- `ProbeTracepointModuleInfos`. -/
def probeModules : Except GoError TpModules :=
  if ksyms.bpfTraceModules = 0 then .error (.errorf "bpf_trace_modules is not found in /proc/kallsyms" [])
  else
    let head := ksyms.bpfTraceModules
    let (modules, last) := walkModules K head tpModuleMax (K.listNext head)
    if last ≠ head then .error (.errorf "there are too many modules (should be fixed in the future)" [])
    else
      match entrySize K with
      | .error err => .error err
      | .ok size => insertEach (probeModule K ksyms size) ∅ modules

/-- The loops of `probeKernelTracepoints`: a tracepoint of a module is added
where there is none of its name. -/
def addModuleTps (tpInfos : TpTable) (modules : TpModules) (mod : String) : TpTable :=
  match modules.lookup mod with
  | none => tpInfos
  | some tps => insertAbsent (fun tp => { tp with kmod := mod }) tpInfos tps

/-- Every tracepoint. -/
def probeAll : Except GoError TpTable :=
  match probeBuiltin K ksyms with
  | .error err => .error err
  | .ok tpInfos =>
    match probeModules K ksyms with
    | .error err => .error (.wrapf "failed to probe tracepoint module infos: %w" [] err)
    | .ok modules => .ok ((K.rangeModules modules.keys).foldl (addModuleTps · modules ·) tpInfos)

end Read

/-! ## Matching -/

section Match

variable (S : FuncSource) (K : TpKernel) (ksyms : Kallsyms) (cmd : CommandOptions)

/-- A pattern for tracepoints. -/
def KfuncMatch.forTp (m : KfuncMatch) : KfuncMatch :=
  { m with flag := { m.flag with insn := false, graph := false } }

/-- The body of the loop of `matchKernelTracepoints`. -/
def matchTracepoint (ms : List KfuncMatch) (tpName : String) (tp : TracepointInfo) : Except GoError (Option KFunc) :=
  match tp.fn.type.params with
  | [] => .error (.panic "slice bounds out of range")
  | _ :: params =>
    let fp := { tp.fn.type with params := params }
    if params.length < tp.nrArgs.toNat then .ok none
    else if maxBpfFuncArgs < params.length then .ok none
    else
      match matchKfunc S tpName fp ms with
      | none => .ok none
      | some m =>
        match getFuncParams S.heap S.isConstCharPtr fp with
        | .error _ => .ok none
        | .ok (prms, ret) =>
          let kbtf := if tp.kmod ≠ "" then K.loadKernelModuleSpec tp.kmod else .ok K.getKernelBTF
          match kbtf with
          | .error err =>
            .error (.wrapf "failed to load kernel module btf spec for %s: %w" [.text tp.kmod] (.lookup err))
          | .ok kbtf =>
            .ok (some
              { ksym := { addr := 0, name := tpName, mod := "", extra := [], duped := false }
                func := ⟨tpName, fp⟩
                btf := kbtf
                prms := prms
                ret := ret
                insn := false
                flag := m.flag.toProgFlagImmInfo
                isTp := true })

abbrev Tracepoints := AList fun _ : String => KFunc

/-- `matchKernelTracepoints`. -/
def matchKernelTracepoints (ms : List KfuncMatch) (tpInfos : TpTable) : Except GoError Tracepoints :=
  insertMatched (matchTracepoint S K (ms.map KfuncMatch.forTp)) ∅ tpInfos

/-- `FindKernelTracepoints`. The flags are parsed after the tracepoints were
read. -/
def findKernelTracepoints (fuel : Nat) (tps : List String) : Option (Except GoError Tracepoints) :=
  if tps = [] then some (.ok ∅)
  else
    match probeAll K ksyms with
    | .error err => some (.error err)
    | .ok tpInfos =>
      (kfuncFlags2matches S cmd fuel tps).map fun ms => ms.bind fun ms => matchKernelTracepoints S K ms tpInfos

end Match

end Bpfsnoop.Progs
