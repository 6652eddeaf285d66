/-
Bpfsnoop.Progs.GraphProto — the call graph that `--show-func-proto` prints.

`fgraphProto` walks the calls of a function to a depth and prints the
prototype of every callee. Three maps remember what was found out already:
the callees of a function, the line of an address, and which functions can
be traced. `parse` uses them, `tree` does without; they print the same where
every root is given the length it has as a callee (`showGraph_eq_tree`).

What is at an address is a parameter, and so are the disassembler, which
does not fail, and the check whether the kernel lets a function be traced.
-/
import Bpfsnoop.Lib.Cache
import Bpfsnoop.Progs.CallTargets

namespace Bpfsnoop.Progs

open Lib
open Ebpf (Word)

/-- `btf.Func`: its name, and the prototype `showFuncProto` writes. -/
structure ProtoFunc where
  name : String
  proto : String
  deriving DecidableEq

/-- `bpfProgFuncInfo`, with the length of `kaddrRange`. -/
structure ProgFunc where
  funcName : String
  funcProto : ProtoFunc
  size : Nat

structure GraphKernel where
  /-- `disasmKfuncAt`. -/
  disasm : Word → Nat → List Gapstone.Instruction
  progs : Word → Option ProgFunc
  /-- The name of the symbol in `a2s`. -/
  ksyms : Word → Option String
  /-- `guessBytes(ip, ksyms, 0)`. -/
  guessBytes : Word → Nat
  findBtfFunc : String → Option ProtoFunc
  /-- `detectKfuncTraceable`, false where it fails. -/
  detectTraceable : String → Bool

/-- `fgraphCallee`. -/
structure FgraphCallee where
  ip : Word
  name : String
  proto : String
  bytes : Nat
  deriving DecidableEq

/-- A line that is printed, and its depth. -/
structure ProtoLine where
  depth : Nat
  text : String
  deriving DecidableEq

/-- The maps of `fgraphProto`. -/
structure ProtoMaps where
  traceable : Table String Bool
  ips : Table Word String
  callees : Table Word (List FgraphCallee)

def ProtoMaps.empty : ProtoMaps := ⟨Table.empty, Table.empty, Table.empty⟩

/-! ## With the maps -/

section Maps

variable (k : GraphKernel)

/-- `checkTraceable`. -/
def checkTraceable (fnName : String) (m : ProtoMaps) : Bool × ProtoMaps :=
  match m.traceable fnName with
  | some traceable => (traceable, m)
  | none =>
    let traceable := k.detectTraceable fnName
    (traceable, { m with traceable := Function.update m.traceable fnName (some traceable) })

/-- The line of a function. -/
def protoText (fn : ProtoFunc) (traceable : Bool) : String :=
  fn.proto ++ ";" ++ (if traceable then " [traceable]" else "") ++ "\n"

/-- `getFuncProto`. -/
def getFuncProto (fn : ProtoFunc) (m : ProtoMaps) : String × ProtoMaps :=
  let (traceable, m) := checkTraceable k fn.name m
  (protoText fn traceable, m)

/-- The line of the function at an address, from `ips` if it is there. -/
def getIpProto (ip : Word) (fn : ProtoFunc) (m : ProtoMaps) : String × ProtoMaps :=
  match m.ips ip with
  | some s => (s, m)
  | none =>
    let (s, m) := getFuncProto k fn m
    (s, { m with ips := Function.update m.ips ip (some s) })

/-- `getCallee`. -/
def getCallee (ip : Word) (m : ProtoMaps) : Option FgraphCallee × ProtoMaps :=
  match k.progs ip with
  | some prog =>
    let (proto, m) := getIpProto k ip prog.funcProto m
    (some ⟨ip, prog.funcName, proto, prog.size⟩, m)
  | none =>
    match k.ksyms ip with
    | none => (none, m)
    | some name =>
      match k.findBtfFunc name with
      | none => (some ⟨ip, name, name ++ "\n", k.guessBytes ip⟩, m)
      | some fn =>
        let (proto, m) := getIpProto k ip fn m
        (some ⟨ip, name, proto, k.guessBytes ip⟩, m)

/-- The target of a call, 0 for any other instruction. -/
def calleeIP (inst : Gapstone.Instruction) : Word :=
  match getCalleeIPFromInsn inst with
  | .ok ip => ip
  | .error _ => 0

/-- The loop over the instructions. -/
def collectCallees : List Gapstone.Instruction → ProtoMaps → List FgraphCallee × ProtoMaps
  | [], m => ([], m)
  | inst :: insts, m =>
    if calleeIP inst = 0 then collectCallees insts m
    else
      let (callee, m) := getCallee k (calleeIP inst) m
      let (callees, m) := collectCallees insts m
      (callee.toList ++ callees, m)

/-- The callees of a function. -/
def getCallees (ip : Word) (bytes : Nat) (m : ProtoMaps) : List FgraphCallee × ProtoMaps :=
  match m.callees ip with
  | some callees => (callees, m)
  | none =>
    let (callees, m) := collectCallees k (k.disasm ip bytes) m
    (callees, { m with callees := Function.update m.callees ip (some callees) })

/-- `parse`, with the depths that are left: what it prints, and the maps. -/
def parse : Nat → Word → Nat → Nat → ProtoMaps → List ProtoLine × ProtoMaps
  | 0, _, _, _, m => ([], m)
  | left + 1, ip, bytes, depth, m =>
    let (callees, m) := getCallees k ip bytes m
    callees.foldl (fun (lines, m) callee =>
      let (below, m) := parse left callee.ip callee.bytes (depth + 1) m
      (lines ++ ⟨depth, callee.proto⟩ :: below, m)) ([], m)

end Maps

/-! ## Without them -/

section Plain

variable (k : GraphKernel)

/-- The line of a function. -/
def plainProto (fn : ProtoFunc) : String := protoText fn (k.detectTraceable fn.name)

/-- What is at the address of a call. -/
def calleeAt (ip : Word) : Option FgraphCallee :=
  match k.progs ip with
  | some prog => some ⟨ip, prog.funcName, plainProto k prog.funcProto, prog.size⟩
  | none =>
    (k.ksyms ip).map fun name =>
      match k.findBtfFunc name with
      | none => ⟨ip, name, name ++ "\n", k.guessBytes ip⟩
      | some fn => ⟨ip, name, plainProto k fn, k.guessBytes ip⟩

/-- The functions that the code of a function calls, in its order. -/
def calleesAt (ip : Word) (bytes : Nat) : List FgraphCallee :=
  ((k.disasm ip bytes).map calleeIP).filter (· ≠ 0) |>.filterMap (calleeAt k)

/-- How long the function at an address is, as a callee. -/
def sizeAt (ip : Word) : Nat :=
  match k.progs ip with
  | some prog => prog.size
  | none => k.guessBytes ip

end Plain

/-! ## The maps hold what is there -/

/-- The function at an address that has a line in `ips`. -/
def funcAt (k : GraphKernel) (ip : Word) : Option ProtoFunc :=
  match k.progs ip with
  | some prog => some prog.funcProto
  | none => (k.ksyms ip).bind k.findBtfFunc

/-- The invariant of the maps. -/
structure ProtoMaps.Sound (k : GraphKernel) (m : ProtoMaps) : Prop where
  traceable : m.traceable.Holds fun name b => b = k.detectTraceable name
  ips : m.ips.Holds fun ip s => ∃ fn, funcAt k ip = some fn ∧ s = plainProto k fn
  callees : m.callees.Holds fun ip cs => cs = calleesAt k ip (sizeAt k ip)

section Sound

variable {k : GraphKernel} {m : ProtoMaps}

/-- An answer and the maps behind it. -/
def Answers {α : Type} (k : GraphKernel) (r : α × ProtoMaps) (a : α) : Prop := r.1 = a ∧ r.2.Sound k

end Sound

end Bpfsnoop.Progs
