/-
Bpfsnoop.Ksyms.Kallsyms — the symbols of `/proc/kallsyms`.

`NewKallsyms` reads the file line by line into two tables, by address and
by name. The tables hold pointers to entries, and an entry that is met
again under its name is changed through the pointer of the table by name.
Here a pointer is a position in the list of all entries made so far.

Reading the file is a parameter: its lines, and the error that opening or
scanning it ends in. The name of the `bpf` system call is one as well, as
it depends on the machine.
-/
import Bpfsnoop.Ebpf.Insn
import Bpfsnoop.Lib.Text
import Mathlib.Data.List.AList
import Mathlib.Data.List.Sort

namespace Bpfsnoop.Ksyms

open Ebpf Lib

/-! ## Text -/

/-- `strings.Trim(s, "[]")`. -/
def trimBrackets (s : String) : String := trimFunc s fun c => c = '[' || c = ']'

def hexDigit (c : Char) : Option Nat :=
  if '0' ≤ c ∧ c ≤ '9' then some (c.val.toNat - 48)
  else if 'a' ≤ c ∧ c ≤ 'f' then some (c.val.toNat - 87)
  else if 'A' ≤ c ∧ c ≤ 'F' then some (c.val.toNat - 55)
  else none

/-- `strconv.ParseUint(s, 16, 64)`, without its error. -/
def parseUint (s : String) : Option Word :=
  if s = "" then none
  else
    match s.toList.foldlM (fun n c => (hexDigit c).map (n * 16 + ·)) 0 with
    | none => none
    | some n => if n < 2 ^ 64 then some (BitVec.ofNat 64 n) else none

/-! ## Entries and tables -/

structure KsymEntry where
  addr : Word
  name : String
  mod : String
  extra : List Word
  duped : Bool
  deriving DecidableEq, Repr

/-- `Kallsyms`. `entries` are the entries made so far, and the tables hold
positions in it. -/
structure Kallsyms where
  entries : List KsymEntry
  a2s : AList fun _ : Word => Nat
  n2s : AList fun _ : String => Nat
  addrs : List Word
  stext : Word
  sysBPF : Word
  mods : List String
  bpfRawTpStart : Word
  bpfRawTpStop : Word
  bpfTraceModules : Word
  btfIDDeny : Word

def Kallsyms.empty : Kallsyms where
  entries := []
  a2s := ∅
  n2s := ∅
  addrs := []
  stext := 0
  sysBPF := 0
  mods := []
  bpfRawTpStart := 0
  bpfRawTpStop := 0
  bpfTraceModules := 0
  btfIDDeny := 0

def bpfRawTpStart : String := "__start__bpf_raw_tp"
def bpfRawTpStop : String := "__stop__bpf_raw_tp"
def bpfTraceModules : String := "bpf_trace_modules"
def btfIDDeny : String := "btf_id_deny"

def kmodBuiltinPfx : String := "__builtin"
def kmodBpf : String := "bpf"

/-- `isKernelBuiltinMod`. -/
def isKernelBuiltinMod (mod : String) : Bool :=
  mod == "" || kmodBuiltinPfx.isPrefixOf mod || mod == kmodBpf

/-- The errors of `NewKallsyms`. -/
inductive KsymsError where
  | open (err : String)
  | parseAddr (addr : String)
  | scan (err : String)
  deriving DecidableEq, Repr

/-! ## The scan -/

namespace Kallsyms

/-- The tables, with a text symbol more. -/
def addEntry (ks : Kallsyms) (addr : Word) (name mod : String) : Kallsyms :=
  let entry : KsymEntry := { addr := addr, name := name, mod := mod, extra := [], duped := false }
  let p := ks.entries.length
  let ks : Kallsyms :=
    match ks.n2s.lookup name with
    | some sym =>
      -- the entry of the first line of this name
      let entries := ks.entries.modify sym fun s => { s with extra := s.extra ++ [entry.addr], duped := true }
      { ks with entries := entries ++ [{ entry with duped := true }] }
    | none => { ks with entries := ks.entries ++ [entry], n2s := ks.n2s.insert name p }
  { ks with a2s := ks.a2s.insert addr p }

/-- The symbols of the data sections whose addresses are kept. -/
def setData (ks : Kallsyms) (name : String) (addr : Word) : Kallsyms :=
  if name = Ksyms.bpfRawTpStart then { ks with bpfRawTpStart := addr }
  else if name = Ksyms.bpfRawTpStop then { ks with bpfRawTpStop := addr }
  else if name = Ksyms.bpfTraceModules then { ks with bpfTraceModules := addr }
  else ks

/-- The symbols of the text section whose addresses are kept. -/
def setText (sysBPFSymbol : String) (ks : Kallsyms) (name : String) (addr : Word) : Kallsyms :=
  if name = "_stext" then { ks with stext := addr }
  else if name = sysBPFSymbol then { ks with sysBPF := addr }
  else ks.setData name addr

/-- The modules, each once: `mods` holds the keys of the map `kmods`. -/
def addMod (ks : Kallsyms) (mod : String) : Kallsyms :=
  if mod ∉ ks.mods ∧ !isKernelBuiltinMod mod then { ks with mods := ks.mods ++ [mod] } else ks

/-- A line of the file. -/
def scanLine (sysBPFSymbol : String) (ks : Kallsyms) (line : String) : Except KsymsError Kallsyms :=
  match fields line with
  | addr :: typ :: name :: rest =>
    if typ = "t" ∨ typ = "T" then
      match parseUint addr with
      | none => .error (.parseAddr addr)
      | some a =>
        let mod := match rest with
          | [] => ""
          | mod :: _ => trimBrackets mod
        .ok (((ks.addEntry a name mod).setText sysBPFSymbol name a).addMod mod)
    else if typ = "D" ∨ typ = "d" then
      if name = Ksyms.bpfRawTpStart ∨ name = Ksyms.bpfRawTpStop ∨ name = Ksyms.bpfTraceModules then
        match parseUint addr with
        | none => .error (.parseAddr addr)
        | some a => .ok (ks.setData name a)
      else .ok ks
    else if typ = "R" ∨ typ = "r" then
      if name = Ksyms.btfIDDeny then
        match parseUint addr with
        | none => .error (.parseAddr addr)
        | some a => .ok { ks with btfIDDeny := a }
      else .ok ks
    else .ok ks
  | _ => .ok ks

end Kallsyms

/-- `NewKallsyms`, on a file that could not be opened, or on its lines and
the error of the scanner. -/
def newKallsyms (sysBPFSymbol : String) (file : Except String (List String × Option String)) :
    Except KsymsError Kallsyms :=
  match file with
  | .error err => .error (.open err)
  | .ok (lines, scanErr) =>
    match lines.foldlM (Kallsyms.scanLine sysBPFSymbol) .empty with
    | .error err => .error err
    | .ok ks =>
      match scanErr with
      | some err => .error (.scan err)
      | none => .ok
        { ks with
          addrs := ks.a2s.keys.mergeSort (· ≤ ·)
          mods := ks.mods.mergeSort (· ≤ ·) }

/-! ## The lines of text symbols -/

/-- What a t/T line says. -/
structure Occurrence where
  addr : Word
  name : String
  mod : String
  deriving DecidableEq, Repr

/-- The text symbol of a line. -/
def textSymbol (line : String) : Option Occurrence :=
  match fields line with
  | addr :: typ :: name :: rest =>
    if typ = "t" ∨ typ = "T" then
      (parseUint addr).map fun a => { addr := a, name := name, mod := (rest.head?.map trimBrackets).getD "" }
    else none
  | _ => none

/-- The text symbols of a file, in order. -/
def occurrences (lines : List String) : List Occurrence := lines.filterMap textSymbol

/-- The name occurs at least twice. -/
def Repeated (occs : List Occurrence) (name : String) : Prop := 2 ≤ (occs.map (·.name)).count name

instance (occs : List Occurrence) (name : String) : Decidable (Repeated occs name) :=
  inferInstanceAs (Decidable (2 ≤ _))

end Bpfsnoop.Ksyms
