/-
Bpfsnoop.Progs.ProgFlags — the programs that the `--prog` flags select.

A flag names programs by id, tag, entry function, pinned file or process,
and perhaps a function of them. `prepareProgInfos` has two paths. A list
of ids alone is followed flag by flag (`prepareProgInfosByIDs`). Any other
list is first sorted into the maps of `newProgFlags`, and every loaded
program is looked up in them (`prepareProgInfo`).
-/
import Bpfsnoop.Progs.Tracings
import Mathlib.Data.List.AList

namespace Bpfsnoop.Progs

open Ebpf CC

/-! ## Flags -/

/-- The descriptor of a flag; that of `*` is empty. -/
inductive ProgFlagDescriptor where
  | empty
  | id
  | pinned
  | tag
  | name
  | pid
  deriving DecidableEq, Repr

/-- `ProgFlag`. -/
structure ProgFlag extends ProgFlagImmInfo where
  progID : BitVec 32 := 0
  pinned : String := ""
  tag : String := ""
  name : String := ""
  pid : BitVec 32 := 0
  descriptor : ProgFlagDescriptor := .empty
  all : Bool := false
  deriving DecidableEq, Repr

/-- The `imm` of `newProgFlags`. It has no packet option. -/
def ProgFlag.imm (f : ProgFlag) : ProgFlagImmInfo :=
  { funcName := f.funcName, graph := f.graph, stack := f.stack, lbr := f.lbr, both := f.both }

/-- A map from `κ` to flags. -/
abbrev FlagMap (κ : Type) : Type := AList fun _ : κ => ProgFlagImmInfo

/-- `progFlags`. -/
structure ProgFlags where
  all : Bool := false
  flag : ProgFlagImmInfo := {}
  ids : FlagMap ProgramID := ∅
  tags : FlagMap String := ∅
  names : FlagMap String := ∅
  pinnedPaths : FlagMap String := ∅
  pids : FlagMap (BitVec 32) := ∅

/-- The switch of `newProgFlags`. -/
def ProgFlags.put (pf : ProgFlags) (f : ProgFlag) : ProgFlags :=
  match f.descriptor with
  | .id => { pf with ids := pf.ids.insert f.progID f.imm }
  | .tag => { pf with tags := pf.tags.insert f.tag f.imm }
  | .name => { pf with names := pf.names.insert f.name f.imm }
  | .pinned => { pf with pinnedPaths := pf.pinnedPaths.insert f.pinned f.imm }
  | .pid => { pf with pids := pf.pids.insert f.pid f.imm }
  | .empty => pf

/-- The loop of `newProgFlags`, which ends at `*`. -/
def ProgFlags.putAll (pf : ProgFlags) : List ProgFlag → ProgFlags
  | [] => pf
  | f :: fs => if f.all then { pf with all := true, flag := f.imm } else (pf.put f).putAll fs

/-- `newProgFlags`. -/
def newProgFlags (pflags : List ProgFlag) : ProgFlags := ({} : ProgFlags).putAll pflags

/-- `allID`. -/
def ProgFlags.allID (p : ProgFlags) : Bool :=
  p.ids.keys.length ≠ 0 ∧ p.tags.keys.length = 0 ∧ p.names.keys.length = 0 ∧
    p.pinnedPaths.keys.length = 0 ∧ p.pids.keys.length = 0 ∧ !p.all

/-! ## Entry functions -/

/-- `getProgEntryFuncName`. -/
def getProgEntryFuncName (info : ProgramInfo) : Except GoError String :=
  if !info.btfID then .error (.errorf "program does not have BTF ID" [])
  else
    match info.instructions with
    | .error e => .error (.wrapf "failed to get program instructions: %w" [] e)
    | .ok insns => do
      let sym ← sliceAt insns 0
      if sym ≠ "" then return sym
      else .error (.errorf "no entry func name found in program" [])

/-- `getProgFuncName`. -/
def getProgFuncName (funcName : String) (info : ProgramInfo) : Except GoError String :=
  if funcName ≠ "" then .ok funcName else getProgEntryFuncName info

/-- An error in the words of the caller. -/
def wrapErr {α : Type} (format : String) (args : List ErrArg) (x : Except GoError α) :
    Except GoError α :=
  match x with
  | .ok a => .ok a
  | .error e => .error (.wrapf format args e)

section Prepare

variable (K : Host)

/-! ## Flag by flag -/

/-- `prepareProgInfoByID`. -/
def prepareProgInfoByID (id : ProgramID) (flag : ProgFlagImmInfo) (p : BpfProgs) :
    Except GoError BpfProgs := do
  let prog ← wrapErr "failed to load prog %d: %w" [.num (id.setWidth 64)] (K.newProgramFromID id)
  let funcName ←
    if flag.funcName = "" then do
      let info ← wrapErr "failed to get prog info: %w" [] prog.info
      wrapErr "failed to get prog entry func name: %w" [] (getProgEntryFuncName info)
    else pure flag.funcName
  addTracing K id funcName prog flag p

/-- `prepareProgInfosByIDs`. -/
def prepareProgInfosByIDs (pflags : List ProgFlag) (p : BpfProgs) : Except GoError BpfProgs :=
  pflags.foldlM (fun p f => prepareProgInfoByID K f.progID f.toProgFlagImmInfo p) p

/-- `prepareProgInfoByPinnedPath`. -/
def prepareProgInfoByPinnedPath (pflag : ProgFlag) (p : BpfProgs) : Except GoError BpfProgs := do
  let prog ← wrapErr "failed to load pinned prog %s: %w" [.text pflag.pinned] (K.pinned pflag.pinned)
  let info ← wrapErr "failed to get prog info of prog %s: %w" [.text pflag.pinned] prog.info
  let funcName ← wrapErr "failed to get prog func name: %w" [] (getProgFuncName pflag.funcName info)
  if info.id = 0 then .error (.errorf "failed to get prog ID" [])
  else addTracing K info.id funcName prog pflag.toProgFlagImmInfo p

/-- `addProgByID`. -/
def addProgByID (id : ProgramID) (pflag : ProgFlag) (p : BpfProgs) : Except GoError BpfProgs := do
  let prog ← wrapErr "failed to load prog from ID %d: %w" [.num (id.setWidth 64)] (K.newProgramFromID id)
  let info ← wrapErr "failed to get prog info: %w" [] prog.info
  let funcName ← wrapErr "failed to get prog func name: %w" [] (getProgFuncName pflag.funcName info)
  addTracing K id funcName prog pflag.toProgFlagImmInfo p

/-- `prepareProgInfoByPid`. -/
def prepareProgInfoByPid (pflag : ProgFlag) (p : BpfProgs) : Except GoError BpfProgs :=
  (K.procFds pflag.pid).foldlM (fun p fd => do addProgByID K (← fd) pflag p) p

/-- The first loop of the other path: pinned files and processes. -/
def prepareProgInfoDirect (pflag : ProgFlag) (p : BpfProgs) : Except GoError BpfProgs :=
  match pflag.descriptor with
  | .pinned => prepareProgInfoByPinnedPath K pflag p
  | .pid => prepareProgInfoByPid K pflag p
  | _ => .ok p

/-! ## Program by program -/

/-- What `prepareProgInfo` does with the entry of a map. -/
def addFlagged (progID : ProgramID) (entryFuncName : String) (prog : Program)
    (imm : Option ProgFlagImmInfo) (p : BpfProgs) : Except GoError BpfProgs :=
  match imm with
  | none => .ok p
  | some imm =>
    addTracing K progID (if imm.funcName = "" then entryFuncName else imm.funcName) prog imm p

/-- `prepareProgInfo`. -/
def prepareProgInfo (progID : ProgramID) (pflags : ProgFlags) (p : BpfProgs) :
    Except GoError BpfProgs := do
  let prog ← wrapErr "failed to load prog %d: %w" [.num (progID.setWidth 64)] (K.newProgramFromID progID)
  let info ← wrapErr "failed to get prog info: %w" [] prog.info
  if !info.btfID then
    -- skip non-BTF programs
    return p
  else
    let entryFuncName ←
      wrapErr "failed to get prog entry func name: %w" [] (getProgEntryFuncName info)
    if pflags.all then addTracing K progID entryFuncName prog pflags.flag p
    else do
      let p ← addFlagged K progID entryFuncName prog (pflags.ids.lookup progID) p
      let p ← addFlagged K progID entryFuncName prog (pflags.tags.lookup info.tag) p
      addFlagged K progID entryFuncName prog (pflags.names.lookup entryFuncName) p

/-- The path of `prepareProgInfos` for a list that is more than ids. -/
def prepareProgInfosByMaps (pflags : List ProgFlag) (p : BpfProgs) : Except GoError BpfProgs := do
  let p ← pflags.foldlM (fun p f => prepareProgInfoDirect K f p) p
  K.programs.foldlM (fun p prog => prepareProgInfo K prog.id (newProgFlags pflags) p) p

/-- `prepareProgInfos`. -/
def prepareProgInfos (pflags : List ProgFlag) (p : BpfProgs) : Except GoError BpfProgs :=
  if (newProgFlags pflags).allID then prepareProgInfosByIDs K pflags p
  else prepareProgInfosByMaps K pflags p

end Prepare

end Bpfsnoop.Progs
