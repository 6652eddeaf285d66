/-
Bpfsnoop.Progs.Tracings — the BPF programs to trace.

`addTracing` enters one function of a loaded program into the map of
tracings. What the kernel and the file system answer is a parameter
(`Host`): the loaded programs with their info, the links, the pinned
files, the descriptors of a process.

The key `id:func` of the map is a pair here; the digits of an id contain
no colon. The clone of a program is the program.
-/
import Bpfsnoop.Trace.FuncArgs
import Mathlib.Data.List.Nodup

namespace Bpfsnoop.Progs

open Ebpf CC Trace Btf

/-! ## Loaded programs -/

abbrev ProgramID := BitVec 32

/-- `ebpf.ProgramType`. -/
inductive ProgramType where
  | tracing
  | other (type : Nat)
  deriving DecidableEq

/-- `ebpf.AttachType`. -/
inductive AttachType where
  | traceFEntry
  | traceFExit
  | other (type : Nat)
  deriving DecidableEq

/-- `bpfLinkInfo`, as far as it is read. -/
structure LinkInfo where
  attachType : AttachType
  attachProg : ProgramID

/-- `btf.Func`. -/
structure BtfFunc where
  name : String
  type : FuncProto

/-- `ebpf.ProgramInfo`. An `Option` is the value and the `ok` of a method;
`id` is 0 and `instructions` are the symbols of the instructions. -/
structure ProgramInfo where
  id : ProgramID
  btfID : Bool
  tag : String
  instructions : Except GoError (List String)
  jitedKsymAddrs : Option (List Word)
  jitedFuncLens : Option (List (BitVec 32))
  funcInfos : Except GoError (List BtfFunc)
  jitedInsns : Option (List Byte)

/-- A loaded `ebpf.Program`: what its methods return. -/
structure Program where
  id : ProgramID
  type : ProgramType
  info : Except GoError ProgramInfo
  clone : Except GoError Unit
  /-- An old kernel does not report the id. -/
  reports : ∀ i, info = .ok i → i.id = id ∨ i.id = 0
  positive : 0 < id

/-- What the machine answers. -/
structure Host where
  /-- In the order of `ebpf.ProgramGetNextID`. -/
  programs : List Program
  apart : (programs.map (·.id)).Nodup
  links : ProgramID → Option LinkInfo
  /-- `ebpf.LoadPinnedProgram`. A pinned program is loaded. -/
  pinned : String → Except GoError Program
  pinned_loaded : ∀ path p, pinned path = .ok p → p ∈ programs
  /-- What the walk over the descriptors of a process meets: the id of a
  program, or an error that ends it. -/
  procFds : BitVec 32 → List (Except GoError ProgramID)
  /-- `bpfProgs.disasm`. -/
  disasm : Bool
  /-- `haveTailcallInfiniteLoopIssue`. -/
  tailcallIssue : Bool
  heap : Heap
  /-- `mybtf.IsConstCharPtr`. -/
  isConstCharPtr : BtfType → Bool

/-- `ebpf.NewProgramFromID`. -/
def Host.newProgramFromID (K : Host) (id : ProgramID) : Except GoError Program :=
  match K.programs.find? (·.id = id) with
  | some prog => .ok prog
  | none => .error (.errorf "no such file or directory" [])

/-! ## Tail calls -/

/-- `genEndbrPoison`. -/
def genEndbrPoison : BitVec 32 := 0x001f0f66

/-- `isEndbrInsn`. -/
def isEndbrInsn (val : BitVec 32) : Bool :=
  val = genEndbrPoison ∨ val &&& ~~~0x01000000 = 0xfa1e0ff3

/-- `isTailcallReachable`. -/
def isTailcallReachable (insns : List Byte) : Bool :=
  if insns.length = 0 ∨ insns.length < 4 + 5 + 3 then false
  else
    let u32 := insns.getD 3 0 ++ insns.getD 2 0 ++ insns.getD 1 0 ++ insns.getD 0 0
    let offset := if isEndbrInsn u32 then 9 else 5
    -- `xor eax, eax` or `xor rax, rax`
    (insns.drop offset).take 2 = [0x31, 0xc0] ∨ (insns.drop offset).take 3 = [0x48, 0x31, 0xc0]

/-! ## Tracings -/

/-- `progFlagImmInfo`. -/
structure ProgFlagImmInfo where
  funcName : String := ""
  graph : Bool := false
  stack : Bool := false
  lbr : Bool := false
  both : Bool := false
  pkt : Bool := false
  deriving DecidableEq, Repr

/-- `bpfTracingInfo`. -/
structure BpfTracingInfo where
  prog : Program
  fn : BtfFunc
  jitedLen : BitVec 32
  funcIP : Word
  funcName : String
  disAll : Bool
  flag : ProgFlagImmInfo
  params : List FuncParamFlags
  ret : FuncParamFlags

/-- The maps of `bpfProgs` that are filled. -/
structure BpfProgs where
  progs : ProgramID → Option Program
  infos : ProgramID → Option ProgramInfo
  tracings : ProgramID × String → Option BpfTracingInfo

def BpfProgs.empty : BpfProgs := ⟨fun _ => none, fun _ => none, fun _ => none⟩

section Add

variable (K : Host)

/-- `canTrace`. -/
def canTrace (prog : Program) (id : ProgramID) : Bool :=
  if prog.type ≠ .tracing then true
  else
    match K.links id with
    | none => true
    | some link =>
      if link.attachType = .traceFEntry ∨ link.attachType = .traceFExit then link.attachProg = 0
      else true

/-- `getProgFunc`. -/
def getProgFunc (fns : List BtfFunc) (funcName : String) : Except GoError Nat :=
  match fns.findIdx? (·.name = funcName) with
  | some i => .ok i
  | none => .error (.errorf "failed to find func %s" [.text funcName])

/-- An element of a slice. -/
def sliceAt {α : Type} (l : List α) (i : Nat) : Except GoError α :=
  match l[i]? with
  | some a => .ok a
  | none => .error (.panic "index out of range")

/-- `addTracing` from the info to the tracing; none is made of a subprogram
that tail calls may reach. -/
def newTracing (id : ProgramID) (funcName : String) (prog : Program) (flag : ProgFlagImmInfo)
    (info : ProgramInfo) : Except GoError (Option BpfTracingInfo) :=
  match info.jitedKsymAddrs with
  | none => .error (.errorf "failed to get jited ksym addrs for %d" [.num (id.setWidth 64)])
  | some addrs =>
  match info.jitedFuncLens with
  | none => .error (.errorf "failed to get jited func lens for %d" [.num (id.setWidth 64)])
  | some lens =>
  match info.funcInfos with
  | .error e => .error (.wrapf "failed to get func infos for %d: %w" [.num (id.setWidth 64)] e)
  | .ok fns =>
  match getProgFunc fns funcName with
  | .error e => .error (.wrapf "failed to get func for %s: %w" [.text funcName] e)
  | .ok idx =>
  let tracing : Except GoError (Option BpfTracingInfo) := do
    let fn ← sliceAt fns idx
    match getFuncParams K.heap K.isConstCharPtr fn.type with
    | .error e => .error (.wrapf "failed to get func params for %s: %w" [.text funcName] e)
    | .ok (params, ret) => do
      let jitedLen ← sliceAt lens idx
      let funcIP ← sliceAt addrs idx
      return some { prog, fn, jitedLen, funcIP, funcName, disAll := flag.funcName = "", flag, params, ret }
  if idx ≠ 0 ∧ K.tailcallIssue then
    match info.jitedInsns with
    | none => .error (.errorf "failed to get jited insns for %d" [.num (id.setWidth 64)])
    | some insns => if isTailcallReachable insns then .ok none else tracing
  else tracing

/-- `addTracing`. -/
def addTracing (id : ProgramID) (funcName : String) (prog : Program) (flag : ProgFlagImmInfo)
    (p : BpfProgs) : Except GoError BpfProgs :=
  if !canTrace K prog id && !K.disasm then .ok p
  else if (p.tracings (id, funcName)).isSome then .ok p
  else do
    let info ←
      match p.infos id with
      | some info => pure info
      | none =>
        match prog.info with
        | .ok info => pure info
        | .error e => .error (.wrapf "failed to get info for %d: %w" [.num (id.setWidth 64)] e)
    match ← newTracing K id funcName prog flag info with
    | none => return p
    | some tracing =>
      match p.progs id with
      | some prev =>
        return { p with
          tracings := Function.update p.tracings (id, funcName) (some { tracing with prog := prev }) }
      | none =>
        match prog.clone with
        | .error e => .error (.wrapf "failed to clone prog %d: %w" [.num (id.setWidth 64)] e)
        | .ok () =>
          return {
            progs := Function.update p.progs id (some prog)
            infos := Function.update p.infos id (some info)
            tracings := Function.update p.tracings (id, funcName) (some tracing) }

end Add

end Bpfsnoop.Progs
