/-
Bpfsnoop.Trace.Addr2Line — source lines of addresses, and their cache.

A process looks an address up in the debug file of the kernel or of the
symbol's module, at the address the file was linked for. The entries it has
looked up go into a cache keyed by the run-time address, which is saved to a
file after every thirty new entries and loaded by the processes started
later. The debug files and what is read from them are parameters: the
library that reads them is not part of the repository.
-/
import Bpfsnoop.Ebpf.Insn
import Bpfsnoop.Lib.Cache

namespace Bpfsnoop.Trace

open Ebpf Lib

/-! ## KASLR -/

structure Kaslr where
  kaddr : Word
  saddr : Word
  deriving DecidableEq, Repr

namespace Kaslr

/-- `effectiveAddr`. -/
def effectiveAddr (k : Kaslr) (kaddr : Word) : Word :=
  if k.saddr.ult k.kaddr then kaddr - (k.kaddr - k.saddr) else kaddr + (k.saddr - k.kaddr)

/-- `offset`. -/
def offset (k : Kaslr) : Word :=
  if k.saddr.ult k.kaddr then k.kaddr - k.saddr else k.saddr - k.kaddr

/-- Either branch moves an address by the same distance. -/
theorem effectiveAddr_eq (k : Kaslr) (addr : Word) : k.effectiveAddr addr = addr - k.kaddr + k.saddr := by
  rw [effectiveAddr]
  split <;> bv_omega

end Kaslr

/-! ## Debug files -/

/-- `addr2line.Addr2LineEntry`. -/
structure Addr2LineEntry where
  func : String
  file : String
  line : Nat
  deriving DecidableEq, Repr

/-- The line of an address of a debug file, `Addr2Line.Get`. -/
abbrev Lines := Word → Except String Addr2LineEntry

/-- What `addKmod` makes of a module: there is no file or no `.text` in it,
it cannot be read, or there are its lines, if the library could open it, and
the value of `.text`. -/
inductive KmodFile where
  | notFound
  | failed (err : String)
  | found (lines : Option Lines) (text : Word)

/-- The debug files of the machine. `vmlinux` is none if the library cannot
open it. -/
structure DebugFiles where
  vmlinux : Option Lines
  kmods : String → KmodFile

/-! ## A process -/

/-- What `NewAddr2Line` is given. -/
structure RunConfig where
  kaslr : Kaslr
  sysBPF : Word
  stext : Word

/-- `bpfSyscallFile`. -/
def bpfSyscallFile : String := "kernel/bpf/syscall.c"

/-- `create` gets to the end. If it does not, it leaves the channel that
`wait` reads open. -/
def created (files : DebugFiles) (r : RunConfig) : Bool :=
  match files.vmlinux with
  | none => false
  | some lines =>
    match lines (r.kaslr.effectiveAddr r.sysBPF) with
    | .error _ => false
    | .ok entry => bpfSyscallFile.length ≤ entry.file.length

/-- `KsymEntry`, the module of it. -/
structure KsymEntry where
  mod : String
  deriving DecidableEq, Repr

def kmodBpf : String := "bpf"

def kmodBuiltinPfx : String := "__builtin"

/-- `isKernelBuiltinMod`. -/
def isKernelBuiltinMod (mod : String) : Bool :=
  mod == "" || kmodBuiltinPfx.isPrefixOf mod || mod == kmodBpf

/-- `kmodAddr2line`. -/
structure KmodAddr2line where
  lines : Option Lines
  kaslr : Kaslr

/-- `cacheBatchLimit`. -/
def cacheBatchLimit : Nat := 30

/-- `dbgsymCache`. -/
structure DbgsymCache where
  newEntriesCnt : Nat
  cache : Table Word Addr2LineEntry

/-- The tables of an `Addr2Line`. -/
structure RunState where
  cache : DbgsymCache
  kmods : Table String KmodAddr2line

/-- The cache file, if there is one, and the processes that were started. -/
structure CacheWorld (ι : Type) where
  file : Option (Table Word Addr2LineEntry)
  runs : ι → Option RunState

/-- `getMod`: the lines and the offset to use, and the modules known
afterwards. A module that is not found is known as such. -/
def getMod (files : DebugFiles) (r : RunConfig) (kmods : Table String KmodAddr2line)
    (ksym : Option KsymEntry) :
    Except String (Option Lines × Kaslr) × Table String KmodAddr2line :=
  match ksym with
  | none => (.ok (files.vmlinux, r.kaslr), kmods)
  | some sym =>
    if isKernelBuiltinMod sym.mod then (.ok (files.vmlinux, r.kaslr), kmods)
    else
      match kmods sym.mod with
      | some kmod => (.ok (kmod.lines, kmod.kaslr), kmods)
      | none =>
        match files.kmods sym.mod with
        | .notFound =>
          let kmod : KmodAddr2line := { lines := none, kaslr := { kaddr := 0, saddr := 0 } }
          (.ok (kmod.lines, kmod.kaslr), Function.update kmods sym.mod (some kmod))
        | .failed err => (.error err, kmods)
        | .found lines text =>
          let kmod : KmodAddr2line := { lines := lines, kaslr := { kaddr := r.stext, saddr := text } }
          (.ok (kmod.lines, kmod.kaslr), Function.update kmods sym.mod (some kmod))

/-- `dbgsymCache.add`: the cache and the file afterwards, and whether a save
that was due succeeded. -/
def DbgsymCache.add (d : DbgsymCache) (file : Option (Table Word Addr2LineEntry)) (saveOk : Bool)
    (addr : Word) (entry : Addr2LineEntry) : DbgsymCache × Option (Table Word Addr2LineEntry) × Bool :=
  match d.cache addr with
  | some _ => (d, file, true)
  | none =>
    let d : DbgsymCache :=
      { newEntriesCnt := d.newEntriesCnt + 1, cache := Function.update d.cache addr (some entry) }
    if d.newEntriesCnt % cacheBatchLimit = 0 then
      if saveOk then (d, some d.cache, true) else (d, file, false)
    else (d, file, true)

/-- The errors of `get`. -/
inductive GetError where
  | notFound
  | getMod (mod : String) (err : String)
  | lookup (offset : Word) (err : String)
  | save
  deriving DecidableEq, Repr

/-- How a call of `get` ends: with an entry, with an error, by a nil
dereference, or not at all, as nothing is ever sent to the channel it waits
for. -/
inductive GetResult where
  | entry (e : Addr2LineEntry)
  | error (err : GetError)
  | nilDereference
  | blocked
  deriving DecidableEq, Repr

/-- `get`, with the cache file and the tables afterwards. -/
def get (files : DebugFiles) (r : RunConfig) (saveOk : Bool) (file : Option (Table Word Addr2LineEntry))
    (st : RunState) (addr : Word) (ksym : Option KsymEntry) :
    GetResult × Option (Table Word Addr2LineEntry) × RunState :=
  match st.cache.cache addr with
  | some e => (.entry e, file, st)
  | none =>
    if created files r then
      match getMod files r st.kmods ksym with
      | (.error err, kmods) =>
        (.error (.getMod ((ksym.map (·.mod)).getD "") err), file, { st with kmods := kmods })
      | (.ok (none, _), kmods) => (.error .notFound, file, { st with kmods := kmods })
      | (.ok (some lines, kaslr), kmods) =>
        match lines (kaslr.effectiveAddr addr) with
        | .error err => (.error (.lookup kaslr.offset err), file, { st with kmods := kmods })
        | .ok entry =>
          match ksym with
          | none => (.nilDereference, file, { st with kmods := kmods })
          | some sym =>
            if sym.mod == kmodBpf then (.entry entry, file, { st with kmods := kmods })
            else
              let (d, file, saved) := st.cache.add file saveOk addr entry
              (if saved then .entry entry else .error .save, file, { cache := d, kmods := kmods })
    else (.blocked, file, st)

/-! ## Runs of processes that share the file -/

/-- A process is started, or one of them looks an address up. `saveOk` is
what becomes of a save that is due. -/
inductive CacheEvent (ι : Type) where
  | start (i : ι)
  | get (i : ι) (addr : Word) (ksym : Option KsymEntry) (saveOk : Bool)

variable {ι : Type} [DecidableEq ι]

namespace CacheWorld

def init : CacheWorld ι where
  file := none
  runs _ := none

/-- One event. `loadFile` takes the whole file, or starts empty. -/
def step (files : DebugFiles) (cfg : ι → RunConfig) (w : CacheWorld ι) : CacheEvent ι → CacheWorld ι
  | .start i =>
    { w with
      runs := Function.update w.runs i
        (some { cache := { newEntriesCnt := 0, cache := w.file.getD .empty }, kmods := .empty }) }
  | .get i addr ksym saveOk =>
    match w.runs i with
    | none => w
    | some st =>
      let (_, file, st) := get files (cfg i) saveOk w.file st addr ksym
      { file := file, runs := Function.update w.runs i (some st) }

def run (files : DebugFiles) (cfg : ι → RunConfig) (events : List (CacheEvent ι)) : CacheWorld ι :=
  events.foldl (step files cfg) init

end CacheWorld

/-! ## The lookup without tables -/

/-- The module whose debug file has the address; none for the kernel's. -/
def moduleOf (ksym : Option KsymEntry) : Option String :=
  match ksym with
  | none => none
  | some sym => if isKernelBuiltinMod sym.mod then none else some sym.mod

/-- The lines and the offset of a module. -/
def openMod (files : DebugFiles) (r : RunConfig) : Option String → Except String (Option Lines × Kaslr)
  | none => .ok (files.vmlinux, r.kaslr)
  | some mod =>
    match files.kmods mod with
    | .notFound => .ok (none, { kaddr := 0, saddr := 0 })
    | .failed err => .error err
    | .found lines text => .ok (lines, { kaddr := r.stext, saddr := text })

/-- **What a lookup returns**, by the debug files and the run's offset. -/
def uncached (files : DebugFiles) (r : RunConfig) (addr : Word) (ksym : Option KsymEntry) : GetResult :=
  match openMod files r (moduleOf ksym) with
  | .error err => .error (.getMod ((ksym.map (·.mod)).getD "") err)
  | .ok (none, _) => .error .notFound
  | .ok (some lines, kaslr) =>
    match lines (kaslr.effectiveAddr addr) with
    | .error err => .error (.lookup kaslr.offset err)
    | .ok entry => .entry entry

/-- Two lookups of an address go to the same place of the same file. -/
def SameTarget (files : DebugFiles) (r r' : RunConfig) (addr : Word) (ksym ksym' : Option KsymEntry) :
    Prop :=
  moduleOf ksym = moduleOf ksym' ∧
    ((openMod files r (moduleOf ksym)).map (·.2.effectiveAddr addr) : Except String Word) =
      (openMod files r' (moduleOf ksym')).map (·.2.effectiveAddr addr)

/-- Every lookup of a started process in a run, with the history before it
and the tables of the process. -/
def EveryGet (files : DebugFiles) (cfg : ι → RunConfig) (events : List (CacheEvent ι))
    (P : List (CacheEvent ι) → ι → Word → Option KsymEntry → Bool → RunState → Prop) : Prop :=
  ∀ history i addr ksym saveOk rest st, events = history ++ .get i addr ksym saveOk :: rest →
    (CacheWorld.run files cfg history).runs i = some st → P history i addr ksym saveOk st

/-- A lookup of an address that is not cached: `create` has come to its end,
and where there is a line, the symbol is known and the save, if one is due,
succeeds. One of an address that is cached: the lookups that may have filled
the cache went where this one goes. -/
structure Fits (files : DebugFiles) (cfg : ι → RunConfig) (history : List (CacheEvent ι)) (i : ι)
    (addr : Word) (ksym : Option KsymEntry) (saveOk : Bool) (st : RunState) : Prop where
  miss : st.cache.cache addr = none → created files (cfg i) = true ∧
    ∀ e, uncached files (cfg i) addr ksym = .entry e → ∃ sym, ksym = some sym ∧
      (saveOk = true ∨ sym.mod = kmodBpf ∨ (st.cache.newEntriesCnt + 1) % cacheBatchLimit ≠ 0)
  hit : st.cache.cache addr ≠ none → ∀ i' sym' saveOk' e,
    .get i' addr (some sym') saveOk' ∈ history → sym'.mod ≠ kmodBpf →
    uncached files (cfg i') addr (some sym') = .entry e →
    SameTarget files (cfg i) (cfg i') addr ksym (some sym')

/-- The lookup returns what one without tables returns. -/
def Served (files : DebugFiles) (cfg : ι → RunConfig) (history : List (CacheEvent ι)) (i : ι)
    (addr : Word) (ksym : Option KsymEntry) (saveOk : Bool) (st : RunState) : Prop :=
  let result := (get files (cfg i) saveOk (CacheWorld.run files cfg history).file st addr ksym).1
  result = uncached files (cfg i) addr ksym ∧ result ≠ .nilDereference

end Bpfsnoop.Trace
