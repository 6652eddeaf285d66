/-
Bpfsnoop.Progs.PacketFilters — the filter of `--filter-pkt`, injected.

`injectPktFilter` injects the filter for the first parameter that is a
packet. For `__sk_buff` and `xdp_md` it first looks up the type to use, and
declares the error anew with it: the error of the injection is assigned to
that variable, the one that is returned stays nil. A failed injection for a
raw IP packet is followed by one of `__reject_all__`, whose error is
dropped as well. `reportsFailure_iff` says when that does not matter.

The compiler of filters is a parameter (`Elibpcap`); it either replaces the
stub it is told or fails. Pointers are given by what they point to.
-/
import Bpfsnoop.Progs.Stubs
import Bpfsnoop.Trace.ArgSlots

namespace Bpfsnoop.Progs

open Ebpf Reg CC Btf Trace

/-! ## Programs -/

/-- An operation: a plain one, or the call of the subprogram to which the
instruction refers. -/
inductive ProgOp where
  | op (op : Op)
  | callLabel
  deriving DecidableEq, Repr

abbrev ProgInsns := List (Instruction ProgOp)

/-- An instruction of the generators. -/
def plainInsn (i : Insn) : Instruction ProgOp where
  op := .op i.op
  symbol := i.symbol.getD ""
  reference := i.op.label?.getD ""

/-- `asm.Call.Label`. -/
def callLabel (label : String) : Instruction ProgOp where
  op := .callLabel
  symbol := ""
  reference := label

/-- `asm.Mov.Imm(asm.R0, int32(b2i(_)))`. -/
def movR0Imm (b : Bool) : ProgOp := .op (Asm.movImm R0 (if b then 1 else 0))

def clearFilterSubprog (prog : ProgInsns) (stub : String) : ProgInsns := clearSubprog movR0Imm prog stub true

/-! ## The compiler of filters -/

/-- `elibpcap.Options`. -/
structure InjectOptions where
  atBpf2Bpf : String
  directRead : Bool
  l2Skb : Bool

/-- There is other code in the place of a stub. -/
def Replaced (stub : String) (insns insns' : ProgInsns) : Prop :=
  (∃ i ∈ insns, i.symbol = stub) ∧ ∃ code, code ≠ [] ∧ insns' = injectInsns insns stub code

/-- `elibpcap.Inject`: it replaces the stub, or returns an error. -/
structure Elibpcap where
  inject : String → ProgInsns → InjectOptions → ProgInsns × Option GoError
  replaces : ∀ expr insns opts insns', expr ≠ "" → inject expr insns opts = (insns', none) →
    Replaced opts.atBpf2Bpf insns insns'

/-! ## The code -/

def pcapFilterL2Stub : String := "filter_pcap_l2"
def pcapFilterL3Stub : String := "filter_pcap_l3"
def pcapFilterL2StubSpecialized : String := "filter_pcap_l2.specialized.1"
def pcapFilterL3StubSpecialized : String := "filter_pcap_l3.specialized.1"
def filterSkbFunc : String := "filter_skb"
def filterPskbFunc : String := "filter_pskb"
def filterXdpBuffFunc : String := "filter_xdp_buff"
def filterXdpFrameFunc : String := "filter_xdp_frame"
def filterPktFunc : String := "filter_pkt"

/-- `*btf.Pointer`, which is never nil here. -/
structure Pointer where
  target : BtfType

def l2Options : InjectOptions where
  atBpf2Bpf := pcapFilterL2Stub
  directRead := false
  l2Skb := true

def l3Options : InjectOptions where
  atBpf2Bpf := pcapFilterL3Stub
  directRead := false
  l2Skb := false

def rejectAll : String := "__reject_all__"

/-- The code of `filter_pkt`. -/
def filterPktInsns (index : Nat) (filterFunc : String) : ProgInsns :=
  (genAccessArg index R1).map plainInsn ++ [callLabel filterFunc, plainInsn Op.exit]

def specializedStubs : List String := [pcapFilterL2StubSpecialized, pcapFilterL3StubSpecialized]

/-- The stubs that `clear` clears, in this order. -/
def clearOrder : List String := specializedStubs ++ [pcapFilterL2Stub, pcapFilterL3Stub, filterSkbFunc,
  filterPskbFunc, filterXdpBuffFunc, filterXdpFrameFunc, filterPktFunc]

def PacketFilter.clear (prog : ProgInsns) : ProgInsns := clearOrder.foldl clearFilterSubprog prog

/-- `btfx.GetStructBtfPointer`. -/
def getStructBtfPointer (name : String) (spec : Spec) : Except GoError Pointer :=
  match spec.anyTypeByName name with
  | .error err => .error (.wrapf "failed to get type of %s: %w" [.text name] (.lookup err))
  | .ok (.struct n ref) => .ok ⟨.struct n ref⟩
  | .ok _ => .error (.errorf "type %s is not a struct" [.text name])

def isStruct : BtfType → Bool
  | .struct _ _ => true
  | _ => false

def wrapped (format : String) (r : ProgInsns × Option GoError) : ProgInsns × Option GoError :=
  (r.1, r.2.map (.wrapf format []))

section Code

variable (lib : Elibpcap) (kernelBtf : Spec) (expr : String)

/-- The injection for raw IP packets. -/
def injectL3 (prog : ProgInsns) : ProgInsns :=
  match lib.inject expr prog l3Options with
  | (prog, none) => prog
  | (prog, some _) => (lib.inject rejectAll prog l3Options).1

def filterSkb (prog : ProgInsns) (index : Nat) (t : Pointer) : ProgInsns × Option GoError :=
  if expr = "" then (prog, none)
  else
    let isPskb := !isStruct t.target
    let filterFunc := if isPskb then filterPskbFunc else filterSkbFunc
    match lib.inject expr prog l2Options with
    | (prog, some err) => (prog, some (.wrapf "failed to inject l2 pcap-filter: %w" [] err))
    | (prog, none) =>
      let prog := (specializedStubs ++ (if isPskb then [] else [filterPskbFunc]) ++
        [filterXdpBuffFunc, filterXdpFrameFunc]).foldl clearFilterSubprog (injectL3 lib expr prog)
      (injectInsns prog filterPktFunc (filterPktInsns index filterFunc), none)

def injectFilterXdp (prog : ProgInsns) (index : Nat) (stub otherStub : String) : ProgInsns × Option GoError :=
  if expr = "" then (prog, none)
  else
    match lib.inject expr prog l2Options with
    | (prog, some err) => (prog, some (.wrapf "failed to inject l2 pcap-filter: %w" [] err))
    | (prog, none) =>
      let prog := (specializedStubs ++ [filterSkbFunc, otherStub, pcapFilterL3Stub]).foldl clearFilterSubprog prog
      (injectInsns prog filterPktFunc (filterPktInsns index stub), none)

def filterXdp (prog : ProgInsns) (index : Nat) : ProgInsns × Option GoError :=
  injectFilterXdp lib expr prog index filterXdpBuffFunc filterXdpFrameFunc

def filterXdpFrame (prog : ProgInsns) (index : Nat) : ProgInsns × Option GoError :=
  injectFilterXdp lib expr prog index filterXdpFrameFunc filterXdpBuffFunc

def injectSkbFilter (prog : ProgInsns) (index : Nat) (typ : Pointer) : ProgInsns × Option GoError :=
  wrapped "failed to inject skb pcap-filter: %w" (filterSkb lib expr prog index typ)

def injectXdpFilter (prog : ProgInsns) (index : Nat) : ProgInsns × Option GoError :=
  wrapped "failed to inject xdp_buff pcap-filter: %w" (filterXdp lib expr prog index)

def injectXdpFrameFilter (prog : ProgInsns) (index : Nat) : ProgInsns × Option GoError :=
  wrapped "failed to inject xdp_frame pcap-filter: %w" (filterXdpFrame lib expr prog index)

/-- The switch on the name of the struct; `none` is `default`. -/
def injectParam (prog : ProgInsns) (i : Nat) (typ : Pointer) (name : String) : Option (ProgInsns × Option GoError) :=
  if name = "sk_buff" then some (injectSkbFilter lib expr prog i typ)
  else if name = "__sk_buff" then
    match getStructBtfPointer "sk_buff" kernelBtf with
    | .error err => some (prog, some err)
    -- the error is assigned to the variable of this branch
    | .ok typ => some ((injectSkbFilter lib expr prog i typ).1, none)
  else if name = "xdp_buff" then some (injectXdpFilter lib expr prog i)
  else if name = "xdp_md" then
    match getStructBtfPointer "xdp_buff" kernelBtf with
    | .error err => some (prog, some err)
    -- and so is it here
    | .ok _ => some ((injectXdpFilter lib expr prog i).1, none)
  else if name = "xdp_frame" then some (injectXdpFrameFilter lib expr prog i)
  else none

/-- The loop over the parameters, from parameter `i` on. -/
def injectParams (prog : ProgInsns) (i : Nat) : List FuncParam → ProgInsns × Option GoError
  | [] => (PacketFilter.clear prog, none)
  | p :: params =>
    match underlyingType p.type, pktStruct? p.type with
    | .pointer target, some name => (injectParam lib kernelBtf expr prog i ⟨target⟩ name).getD
        (injectParams prog (i + 1) params)
    | _, _ => injectParams prog (i + 1) params

/-- `injectPktFilter`. -/
def injectPktFilter (prog : ProgInsns) (params : List FuncParam) : ProgInsns × Option GoError :=
  if expr = "" then (prog, none) else injectParams lib kernelBtf expr prog 0 params

end Code

/-! ## What is promised -/

/-- The first parameter that is a packet, and its index. -/
def selectedParam (params : List FuncParam) : Option (FuncParam × Nat) :=
  params.zipIdx.find? fun x => isPktParam x.1

/-- The functions that filter the packet of a struct. -/
def filterFuncs (name : String) : List String :=
  if name = "sk_buff" ∨ name = "__sk_buff" then [filterSkbFunc, filterPskbFunc]
  else if name = "xdp_buff" ∨ name = "xdp_md" then [filterXdpBuffFunc]
  else [filterXdpFrameFunc]

/-- The subprograms that run where `filter_pkt` calls a filter function. -/
def needs (filterFunc : String) : List String :=
  if filterFunc = filterPskbFunc then
    [filterPktFunc, filterPskbFunc, filterSkbFunc, pcapFilterL2Stub, pcapFilterL3Stub]
  else if filterFunc = filterSkbFunc then [filterPktFunc, filterSkbFunc, pcapFilterL2Stub, pcapFilterL3Stub]
  else [filterPktFunc, filterFunc, pcapFilterL2Stub]

/-- The stubs of packet filters. -/
def filterStubs : List String :=
  [pcapFilterL2StubSpecialized, pcapFilterL3StubSpecialized, pcapFilterL2Stub, pcapFilterL3Stub, filterSkbFunc,
    filterPskbFunc, filterXdpBuffFunc, filterXdpFrameFunc, filterPktFunc]

section Promised

variable (lib : Elibpcap) (kernelBtf : Spec) (expr : String)

/-- An expression is accepted, and replaces the stub. -/
def Injects (expr : String) (opts : InjectOptions) (insns insns' : ProgInsns) : Prop :=
  lib.inject expr insns opts = (insns', none) ∧ Replaced opts.atBpf2Bpf insns insns'

/-- The stub for raw IP packets is replaced: by the filter, or by one that
rejects all of them where the filter is not accepted. -/
inductive InjectsL3 (insns insns' : ProgInsns) : Prop
  | filter (h : Injects lib expr l3Options insns insns')
  | reject (rejected : (lib.inject expr insns l3Options).2 ≠ none)
      (h : Injects lib rejectAll l3Options (lib.inject expr insns l3Options).1 insns')

/-- The filter is injected for parameter `i`: the stubs that the filter
function of the struct runs are replaced, none of the subprograms it needs
is cleared, and `filter_pkt` calls it. -/
def FilterInjected (prog : ProgInsns) (name : String) (i : Nat) (prog' : ProgInsns) : Prop :=
  ∃ filterFunc ∈ filterFuncs name, ∃ (l2 l3 : ProgInsns) (clears : List String),
    Injects lib expr l2Options prog l2 ∧
    (if pcapFilterL3Stub ∈ needs filterFunc then InjectsL3 lib expr l2 l3 else l3 = l2) ∧
    (∀ stub ∈ clears, stub ∉ needs filterFunc) ∧
    prog' = injectInsns (clears.foldl clearFilterSubprog l3) filterPktFunc (filterPktInsns i filterFunc)

/-- All stubs of packet filters are cleared. -/
def AllCleared (prog prog' : ProgInsns) : Prop :=
  ∃ stubs : List String, (∀ stub ∈ filterStubs, stub ∈ stubs) ∧ prog' = stubs.foldl clearFilterSubprog prog

/-- What the injector returns that is called for a parameter; `none` where
none is called. -/
def injection (prog : ProgInsns) (p : FuncParam) (i : Nat) : Option (ProgInsns × Option GoError) :=
  match underlyingType p.type, pktStruct? p.type with
  | .pointer target, some name =>
    if name = "sk_buff" then some (injectSkbFilter lib expr prog i ⟨target⟩)
    else if name = "__sk_buff" then
      (getStructBtfPointer "sk_buff" kernelBtf).toOption.map (injectSkbFilter lib expr prog i)
    else if name = "xdp_buff" then some (injectXdpFilter lib expr prog i)
    else if name = "xdp_md" then
      (getStructBtfPointer "xdp_buff" kernelBtf).toOption.map fun _ => injectXdpFilter lib expr prog i
    else if name = "xdp_frame" then some (injectXdpFrameFilter lib expr prog i)
    else none
  | _, _ => none

/-- **Failures are reported**: nil only where the filter was injected for
the first packet or, without one, all stubs were cleared; and the error of
the injector. -/
structure ReportsFailure (prog : ProgInsns) (params : List FuncParam) : Prop where
  nilOnly : (injectPktFilter lib kernelBtf expr prog params).2 = none →
    (∃ p i name, selectedParam params = some (p, i) ∧ pktStruct? p.type = some name ∧
      FilterInjected lib expr prog name i (injectPktFilter lib kernelBtf expr prog params).1) ∨
    (selectedParam params = none ∧ AllCleared prog (injectPktFilter lib kernelBtf expr prog params).1)
  error : ∀ p i r err, selectedParam params = some (p, i) → injection lib kernelBtf expr prog p i = some (r, some err) →
    (injectPktFilter lib kernelBtf expr prog params).2 = some err

/-! ## The condition -/

/-- The filter is accepted for the link layer. -/
def AcceptsL2 (prog : ProgInsns) : Prop := (lib.inject expr prog l2Options).2 = none

/-- The filter is accepted for raw IP packets behind that, or else the one
that rejects all is. -/
def AcceptsL3 (prog : ProgInsns) : Prop :=
  let l2 := (lib.inject expr prog l2Options).1
  (lib.inject expr l2 l3Options).2 = none ∨
    (lib.inject rejectAll (lib.inject expr l2 l3Options).1 l3Options).2 = none

/-- Where the code reports failures, for the struct of the first packet. -/
structure Reporting (prog : ProgInsns) (name : String) : Prop where
  skb : name = "sk_buff" → AcceptsL2 lib expr prog → AcceptsL3 lib expr prog
  skbContext : ∀ typ, name = "__sk_buff" → getStructBtfPointer "sk_buff" kernelBtf = .ok typ →
    AcceptsL2 lib expr prog ∧ AcceptsL3 lib expr prog
  xdpContext : ∀ typ, name = "xdp_md" → getStructBtfPointer "xdp_buff" kernelBtf = .ok typ →
    AcceptsL2 lib expr prog

end Promised

/-! ## Injections -/

section Injections

variable {lib : Elibpcap} {kernelBtf : Spec} {expr : String} {prog : ProgInsns} {i : Nat} {name : String}

@[simp] theorem wrapped_fst (format : String) (r : ProgInsns × Option GoError) : (wrapped format r).1 = r.1 := rfl

theorem wrapped_eq_none {format : String} {r : ProgInsns × Option GoError} :
    (wrapped format r).2 = none ↔ r.2 = none := Option.map_eq_none_iff

/-- What is accepted replaces its stub. -/
theorem injects_of_accepted (hexpr : expr ≠ "") {opts : InjectOptions} (h : (lib.inject expr prog opts).2 = none) :
    Injects lib expr opts prog (lib.inject expr prog opts).1 := by
  have heq : lib.inject expr prog opts = ((lib.inject expr prog opts).1, none) := Prod.ext rfl h
  exact ⟨heq, lib.replaces expr prog opts _ hexpr heq⟩

theorem injectL3_injects (hexpr : expr ≠ "") (h : AcceptsL3 lib expr prog) :
    InjectsL3 lib expr (lib.inject expr prog l2Options).1 (injectL3 lib expr (lib.inject expr prog l2Options).1) := by
  have hreject : rejectAll ≠ "" := by decide
  rw [injectL3]
  split
  · rename_i insns' heq
    have haccepted : Injects lib expr l3Options _ _ := injects_of_accepted hexpr (congrArg Prod.snd heq)
    rw [heq] at haccepted
    exact .filter haccepted
  · rename_i insns' err heq
    have hrejected : (lib.inject expr (lib.inject expr prog l2Options).1 l3Options).2 ≠ none := by
      rw [heq]
      exact Option.some_ne_none err
    have haccepted := injects_of_accepted hreject (h.resolve_left hrejected)
    rw [heq] at haccepted
    exact .reject hrejected (by rw [heq]; exact haccepted)

theorem filterSkb_eq_none_iff (hexpr : expr ≠ "") (t : Pointer) :
    (filterSkb lib expr prog i t).2 = none ↔ AcceptsL2 lib expr prog := by
  rw [filterSkb, if_neg hexpr, AcceptsL2]
  cases lib.inject expr prog l2Options with
  | mk insns' err => cases err <;> simp

theorem injectFilterXdp_eq_none_iff (hexpr : expr ≠ "") (stub otherStub : String) :
    (injectFilterXdp lib expr prog i stub otherStub).2 = none ↔ AcceptsL2 lib expr prog := by
  rw [injectFilterXdp, if_neg hexpr, AcceptsL2]
  cases lib.inject expr prog l2Options with
  | mk insns' err => cases err <;> simp

/-- What `filterSkb` injects where both stubs are replaced. -/
theorem filterSkb_injected (hexpr : expr ≠ "") (h₂ : AcceptsL2 lib expr prog) (h₃ : AcceptsL3 lib expr prog)
    (hname : name = "sk_buff" ∨ name = "__sk_buff") (t : Pointer) :
    FilterInjected lib expr prog name i (filterSkb lib expr prog i t).1 := by
  have hinject : lib.inject expr prog l2Options = ((lib.inject expr prog l2Options).1, none) := Prod.ext rfl h₂
  have hl3 := injectL3_injects hexpr h₃
  rw [filterSkb, if_neg hexpr, hinject]
  cases hstruct : isStruct t.target with
  | true =>
    refine ⟨filterSkbFunc, by simp [filterFuncs, hname], _, _, _, injects_of_accepted hexpr h₂, ?_, ?_, rfl⟩
    · rw [if_pos (by decide)]
      exact hl3
    · decide
  | false =>
    refine ⟨filterPskbFunc, by simp [filterFuncs, hname], _, _, _, injects_of_accepted hexpr h₂, ?_, ?_, rfl⟩
    · rw [if_pos (by decide)]
      exact hl3
    · decide

theorem injectFilterXdp_injected (hexpr : expr ≠ "") (h₂ : AcceptsL2 lib expr prog) {stub otherStub : String}
    (hfunc : stub ∈ filterFuncs name) (hclears : ∀ s ∈ specializedStubs ++ [filterSkbFunc, otherStub, pcapFilterL3Stub], s ∉ needs stub) :
    FilterInjected lib expr prog name i (injectFilterXdp lib expr prog i stub otherStub).1 := by
  have hinject : lib.inject expr prog l2Options = ((lib.inject expr prog l2Options).1, none) := Prod.ext rfl h₂
  rw [injectFilterXdp, if_neg hexpr, hinject]
  refine ⟨stub, hfunc, _, _, _, injects_of_accepted hexpr h₂, ?_, hclears, rfl⟩
  rw [if_neg]
  exact hclears _ (by simp)

theorem FilterInjected.acceptsL2 {prog' : ProgInsns} (h : FilterInjected lib expr prog name i prog') :
    AcceptsL2 lib expr prog := by
  obtain ⟨_, _, _, _, _, ⟨hinject, -⟩, -⟩ := h
  exact congrArg Prod.snd hinject

theorem FilterInjected.acceptsL3 {prog' : ProgInsns} (h : FilterInjected lib expr prog name i prog')
    (hname : name = "sk_buff" ∨ name = "__sk_buff") : AcceptsL3 lib expr prog := by
  obtain ⟨filterFunc, hfunc, l2, l3, _, ⟨hinject, -⟩, hl3, -⟩ := h
  have hneeds : pcapFilterL3Stub ∈ needs filterFunc := by
    rw [filterFuncs, if_pos hname] at hfunc
    rcases List.mem_pair.mp hfunc with rfl | rfl <;> decide
  rw [if_pos hneeds] at hl3
  rw [AcceptsL3, hinject]
  cases hl3 with
  | filter h => exact .inl (congrArg Prod.snd h.1)
  | reject _ h => exact .inr (congrArg Prod.snd h.1)

end Injections

/-! ## The loop -/

section Loop

variable {lib : Elibpcap} {kernelBtf : Spec} {expr : String} {prog : ProgInsns}
variable {p : FuncParam} {params : List FuncParam} {target : BtfType} {name : String} {i j : Nat}

/-- A packet is a pointer to a struct of a known name. -/
theorem isPktParam_iff : isPktParam p = true ↔ ∃ target name, underlyingType p.type = .pointer target ∧
    pktStruct? p.type = some name ∧ name ∈ ["sk_buff", "__sk_buff", "xdp_buff", "xdp_md", "xdp_frame"] := by
  have hpointer : ∀ name, pktStruct? p.type = some name → ∃ target, underlyingType p.type = .pointer target := by
    intro name h
    rw [pktStruct?] at h
    split at h
    · exact ⟨_, by assumption⟩
    · exact ⟨_, by assumption⟩
    · cases h
  rw [isPktParam]
  constructor
  · intro h
    cases hname : pktStruct? p.type with
    | none =>
      rw [hname] at h
      cases h
    | some name =>
      rw [hname] at h
      obtain ⟨target, htarget⟩ := hpointer name hname
      exact ⟨target, name, htarget, rfl, List.contains_iff_mem.mp h⟩
  · rintro ⟨target, name, -, hname, hmem⟩
    rw [hname]
    exact List.contains_iff_mem.mpr hmem

/-- The switch has a case for each of these names. -/
theorem injectParam_isSome_iff (typ : Pointer) : (injectParam lib kernelBtf expr prog i typ name).isSome = true ↔
    name ∈ ["sk_buff", "__sk_buff", "xdp_buff", "xdp_md", "xdp_frame"] := by
  simp only [injectParam, List.mem_cons, List.not_mem_nil, or_false]
  split
  · simp [*]
  split
  · cases getStructBtfPointer "sk_buff" kernelBtf <;> simp [*]
  split
  · simp [*]
  split
  · cases getStructBtfPointer "xdp_buff" kernelBtf <;> simp [*]
  split <;> simp [*]

theorem injectParams_skip (h : isPktParam p = false) : injectParams lib kernelBtf expr prog i (p :: params)
    = injectParams lib kernelBtf expr prog (i + 1) params := by
  rw [injectParams]
  split
  · rename_i target name htarget hname
    have hnone : injectParam lib kernelBtf expr prog i ⟨target⟩ name = none := by
      by_contra hsome
      have hmem := (injectParam_isSome_iff _).mp (Option.isSome_iff_ne_none.mpr hsome)
      have hpkt : isPktParam p = true := isPktParam_iff.mpr ⟨target, name, htarget, hname, hmem⟩
      rw [h] at hpkt
      cases hpkt
    rw [hnone, Option.getD_none]
  · rfl

/-- Without a packet all stubs are cleared. -/
theorem injectParams_none (h : (params.zipIdx i).find? (fun x => isPktParam x.1) = none) :
    injectParams lib kernelBtf expr prog i params = (PacketFilter.clear prog, none) := by
  induction params generalizing i with
  | nil => rfl
  | cons p params ih =>
    rw [List.zipIdx_cons, List.find?_cons] at h
    cases hpkt : isPktParam p with
    | true =>
      rw [hpkt] at h
      cases h
    | false =>
      rw [hpkt] at h
      rw [injectParams_skip hpkt, ih h]

/-- The first packet decides. -/
theorem injectParams_some {r : ProgInsns × Option GoError}
    (h : (params.zipIdx i).find? (fun x => isPktParam x.1) = some (p, j))
    (htarget : underlyingType p.type = .pointer target) (hname : pktStruct? p.type = some name)
    (hr : injectParam lib kernelBtf expr prog j ⟨target⟩ name = some r) :
    injectParams lib kernelBtf expr prog i params = r := by
  induction params generalizing i with
  | nil => cases h
  | cons q params ih =>
    rw [List.zipIdx_cons, List.find?_cons] at h
    cases hpkt : isPktParam q with
    | true =>
      rw [hpkt] at h
      cases h
      rw [injectParams, htarget, hname]
      simp only [hr, Option.getD_some]
    | false =>
      rw [hpkt] at h
      rw [injectParams_skip hpkt]
      exact ih h

end Loop

/-! ## Reported failures -/

section Reports

variable {lib : Elibpcap} {kernelBtf : Spec} {expr : String} {prog : ProgInsns}
variable {p : FuncParam} {params : List FuncParam} {target : BtfType} {name : String} {i : Nat}
variable {r : ProgInsns × Option GoError}

theorem reportsFailure_of_none (hexpr : expr ≠ "") (h : selectedParam params = none) :
    ReportsFailure lib kernelBtf expr prog params := by
  have hclear : injectPktFilter lib kernelBtf expr prog params = (PacketFilter.clear prog, none) := by
    rw [injectPktFilter, if_neg hexpr, injectParams_none h]
  refine ⟨fun _ => .inr ⟨h, clearOrder, by decide, ?_⟩, fun p i _ _ hsel => ?_⟩
  · rw [hclear, PacketFilter.clear]
  · rw [h] at hsel
    cases hsel

/-- The property, of the first packet. -/
theorem reportsFailure_selected_iff (hexpr : expr ≠ "") (hsel : selectedParam params = some (p, i))
    (htarget : underlyingType p.type = .pointer target) (hname : pktStruct? p.type = some name)
    (hr : injectParam lib kernelBtf expr prog i ⟨target⟩ name = some r) :
    ReportsFailure lib kernelBtf expr prog params ↔ (r.2 = none → FilterInjected lib expr prog name i r.1) ∧
      ∀ r' err, injection lib kernelBtf expr prog p i = some (r', some err) → r.2 = some err := by
  have hresult : injectPktFilter lib kernelBtf expr prog params = r := by
    rw [injectPktFilter, if_neg hexpr]
    exact injectParams_some hsel htarget hname hr
  constructor
  · intro h
    refine ⟨fun hnil => ?_, fun r' err hinj => ?_⟩
    · rcases h.nilOnly (by rw [hresult]; exact hnil) with ⟨p', i', name', hsel', hname', hinjected⟩ | ⟨hnone, -⟩
      · rw [hsel] at hsel'
        cases hsel'
        rw [hname] at hname'
        cases hname'
        rwa [hresult] at hinjected
      · rw [hsel] at hnone
        cases hnone
    · rw [← hresult]
      exact h.error p i r' err hsel hinj
  · rintro ⟨hnil, herror⟩
    refine ⟨fun h => .inl ⟨p, i, name, hsel, hname, ?_⟩, fun p' i' r' err hsel' hinj => ?_⟩
    · rw [hresult] at h ⊢
      exact hnil h
    · rw [hsel] at hsel'
      cases hsel'
      rw [hresult]
      exact herror r' err hinj

/-- A branch that returns what its injector does reports its errors. -/
theorem reports_forwarded (hexpr : expr ≠ "") (hsel : selectedParam params = some (p, i))
    (htarget : underlyingType p.type = .pointer target) (hname : pktStruct? p.type = some name)
    (hr : injectParam lib kernelBtf expr prog i ⟨target⟩ name = some r)
    (hinj : injection lib kernelBtf expr prog p i = some r) :
    ReportsFailure lib kernelBtf expr prog params ↔ (r.2 = none → FilterInjected lib expr prog name i r.1) := by
  rw [reportsFailure_selected_iff hexpr hsel htarget hname hr]
  refine and_iff_left fun r' err h => ?_
  rw [hinj] at h
  rw [Option.some.inj h]

/-- A branch that looks up a type loses them: its injector has to succeed. -/
theorem reports_lookedUp (hexpr : expr ≠ "") (hsel : selectedParam params = some (p, i))
    (htarget : underlyingType p.type = .pointer target) (hname : pktStruct? p.type = some name)
    {structName : String} {inject : Pointer → ProgInsns × Option GoError}
    (hr : injectParam lib kernelBtf expr prog i ⟨target⟩ name = match getStructBtfPointer structName kernelBtf with
      | .error err => some (prog, some err)
      | .ok typ => some ((inject typ).1, none))
    (hinj : injection lib kernelBtf expr prog p i = (getStructBtfPointer structName kernelBtf).toOption.map inject) :
    ReportsFailure lib kernelBtf expr prog params ↔ ∀ typ, getStructBtfPointer structName kernelBtf = .ok typ →
      (inject typ).2 = none ∧ FilterInjected lib expr prog name i (inject typ).1 := by
  cases htyp : getStructBtfPointer structName kernelBtf with
  | error err =>
    rw [htyp] at hr hinj
    rw [reportsFailure_selected_iff hexpr hsel htarget hname hr, hinj]
    refine iff_of_true ⟨fun h => ?_, fun r' err' h => ?_⟩ fun typ h => ?_
    · cases h
    · cases h
    · cases h
  | ok typ =>
    rw [htyp] at hr hinj
    rw [reportsFailure_selected_iff hexpr hsel htarget hname hr, hinj]
    constructor
    · rintro ⟨hnil, herror⟩ _ ⟨⟩
      refine ⟨?_, hnil rfl⟩
      -- an error of the injector would have to be the nil that is returned
      cases herr : (inject typ).2 with
      | none => rfl
      | some err =>
        have hsome : (none : Option GoError) = some err := herror (inject typ).1 err (congrArg some (Prod.ext rfl herr))
        cases hsome
    · intro h
      obtain ⟨hnone, hinjected⟩ := h typ rfl
      refine ⟨fun _ => hinjected, fun r' err hr' => ?_⟩
      rw [Option.some.inj hr'] at hnone
      cases hnone

theorem injectSkbFilter_eq_none_iff (hexpr : expr ≠ "") (typ : Pointer) :
    (injectSkbFilter lib expr prog i typ).2 = none ↔ AcceptsL2 lib expr prog := by
  rw [injectSkbFilter, wrapped_eq_none, filterSkb_eq_none_iff hexpr]

theorem reports_skb (hexpr : expr ≠ "") (hsel : selectedParam params = some (p, i))
    (htarget : underlyingType p.type = .pointer target) (hname : pktStruct? p.type = some "sk_buff") :
    ReportsFailure lib kernelBtf expr prog params ↔ (AcceptsL2 lib expr prog → AcceptsL3 lib expr prog) := by
  have hinj : injection lib kernelBtf expr prog p i = some (injectSkbFilter lib expr prog i ⟨target⟩) := by
    rw [injection, htarget, hname]
    rfl
  rw [reports_forwarded hexpr hsel htarget hname rfl hinj, injectSkbFilter_eq_none_iff hexpr]
  refine forall_congr' fun h₂ => ⟨fun h => h.acceptsL3 (.inl rfl), fun h₃ => ?_⟩
  exact filterSkb_injected hexpr h₂ h₃ (.inl rfl) _

theorem reports_skbContext (hexpr : expr ≠ "") (hsel : selectedParam params = some (p, i))
    (htarget : underlyingType p.type = .pointer target) (hname : pktStruct? p.type = some "__sk_buff") :
    ReportsFailure lib kernelBtf expr prog params ↔ ∀ typ, getStructBtfPointer "sk_buff" kernelBtf = .ok typ →
      AcceptsL2 lib expr prog ∧ AcceptsL3 lib expr prog := by
  have hinj : injection lib kernelBtf expr prog p i
      = (getStructBtfPointer "sk_buff" kernelBtf).toOption.map (injectSkbFilter lib expr prog i) := by
    rw [injection, htarget, hname]
    rfl
  rw [reports_lookedUp hexpr hsel htarget hname rfl hinj]
  refine forall₂_congr fun typ _ => ?_
  rw [injectSkbFilter_eq_none_iff hexpr]
  refine and_congr_right fun h₂ => ⟨fun h => h.acceptsL3 (.inr rfl), fun h₃ => ?_⟩
  exact filterSkb_injected hexpr h₂ h₃ (.inr rfl) typ

theorem reports_xdp (hexpr : expr ≠ "") (hsel : selectedParam params = some (p, i))
    (htarget : underlyingType p.type = .pointer target) (hname : pktStruct? p.type = some "xdp_buff") :
    ReportsFailure lib kernelBtf expr prog params := by
  have hinj : injection lib kernelBtf expr prog p i = some (injectXdpFilter lib expr prog i) := by
    rw [injection, htarget, hname]
    rfl
  refine (reports_forwarded hexpr hsel htarget hname rfl hinj).mpr fun h => ?_
  have h₂ := (injectFilterXdp_eq_none_iff hexpr _ _).mp (wrapped_eq_none.mp h)
  exact injectFilterXdp_injected hexpr h₂ (by decide) (by decide)

theorem reports_xdpContext (hexpr : expr ≠ "") (hsel : selectedParam params = some (p, i))
    (htarget : underlyingType p.type = .pointer target) (hname : pktStruct? p.type = some "xdp_md") :
    ReportsFailure lib kernelBtf expr prog params ↔ ∀ typ, getStructBtfPointer "xdp_buff" kernelBtf = .ok typ →
      AcceptsL2 lib expr prog := by
  have hinj : injection lib kernelBtf expr prog p i
      = (getStructBtfPointer "xdp_buff" kernelBtf).toOption.map fun _ => injectXdpFilter lib expr prog i := by
    rw [injection, htarget, hname]
    rfl
  rw [reports_lookedUp hexpr hsel htarget hname rfl hinj]
  refine forall₂_congr fun typ _ => ⟨fun h => h.2.acceptsL2, fun h₂ => ⟨?_, ?_⟩⟩
  · exact wrapped_eq_none.mpr ((injectFilterXdp_eq_none_iff hexpr _ _).mpr h₂)
  · exact injectFilterXdp_injected hexpr h₂ (by decide) (by decide)

theorem reports_xdpFrame (hexpr : expr ≠ "") (hsel : selectedParam params = some (p, i))
    (htarget : underlyingType p.type = .pointer target) (hname : pktStruct? p.type = some "xdp_frame") :
    ReportsFailure lib kernelBtf expr prog params := by
  have hinj : injection lib kernelBtf expr prog p i = some (injectXdpFrameFilter lib expr prog i) := by
    rw [injection, htarget, hname]
    rfl
  refine (reports_forwarded hexpr hsel htarget hname rfl hinj).mpr fun h => ?_
  have h₂ := (injectFilterXdp_eq_none_iff hexpr _ _).mp (wrapped_eq_none.mp h)
  exact injectFilterXdp_injected hexpr h₂ (by decide) (by decide)

/-- **When failures are reported**: for each struct of a packet, what has
to be accepted. -/
theorem reportsFailure_iff (lib : Elibpcap) (kernelBtf : Spec) (expr : String) (hexpr : expr ≠ "")
    (prog : ProgInsns) (params : List FuncParam) :
    ReportsFailure lib kernelBtf expr prog params ↔ ∀ p i name, selectedParam params = some (p, i) →
      pktStruct? p.type = some name → Reporting lib kernelBtf expr prog name := by
  cases hsel : selectedParam params with
  | none => exact iff_of_true (reportsFailure_of_none hexpr hsel) fun _ _ _ h => by cases h
  | some found =>
    obtain ⟨p, i⟩ := found
    have hpkt : isPktParam p = true := List.find?_some (p := fun x : FuncParam × Nat => isPktParam x.1) hsel
    obtain ⟨target, name, htarget, hname, hmem⟩ := isPktParam_iff.mp hpkt
    have hone : (∀ p' i' name', some (p, i) = some (p', i') → pktStruct? p'.type = some name' →
        Reporting lib kernelBtf expr prog name') ↔ Reporting lib kernelBtf expr prog name := by
      constructor
      · intro h
        exact h p i name rfl hname
      · rintro h p' i' name' heq hname'
        cases heq
        rw [hname] at hname'
        cases hname'
        exact h
    rw [hone]
    simp only [List.mem_cons, List.not_mem_nil, or_false] at hmem
    rcases hmem with rfl | rfl | rfl | rfl | rfl
    · rw [reports_skb hexpr hsel htarget hname]
      exact ⟨fun h => ⟨fun _ => h, fun _ h' => absurd h' (by decide), fun _ h' => absurd h' (by decide)⟩,
        fun h => h.skb rfl⟩
    · rw [reports_skbContext hexpr hsel htarget hname]
      exact ⟨fun h => ⟨fun h' => absurd h' (by decide), fun typ _ => h typ, fun _ h' => absurd h' (by decide)⟩,
        fun h typ => h.skbContext typ rfl⟩
    · exact iff_of_true (reports_xdp hexpr hsel htarget hname) ⟨fun h => absurd h (by decide), fun _ h => absurd h (by decide), fun _ h => absurd h (by decide)⟩
    · rw [reports_xdpContext hexpr hsel htarget hname]
      exact ⟨fun h => ⟨fun h' => absurd h' (by decide), fun _ h' => absurd h' (by decide), fun typ _ => h typ⟩,
        fun h typ => h.xdpContext typ rfl⟩
    · exact iff_of_true (reports_xdpFrame hexpr hsel htarget hname) ⟨fun h => absurd h (by decide), fun _ h => absurd h (by decide), fun _ h => absurd h (by decide)⟩

end Reports

/-! ## A filter with a syntax error -/

/-- A program of the stubs, one instruction each. -/
def stubProg : ProgInsns := ("bpfsnoop_fn" :: filterStubs).map fun stub => ⟨.op .exit, stub, ""⟩

def structBtf : Spec where
  anyTypeByName name := if name = "sk_buff" ∨ name = "xdp_buff" then .ok (.struct name 0) else .error .notFound
  typeID _ := none
  all := [.struct "sk_buff" 0, .struct "xdp_buff" 0]

/-- It does not compile `tcp prot 80`; of other filters the code is as if
everything matched. -/
def injectChecked (expr : String) (insns : ProgInsns) (opts : InjectOptions) : ProgInsns × Option GoError :=
  if expr = "tcp prot 80" then (insns, some (.errorf "syntax error in filter expression" []))
  else if insns.any fun i => i.symbol = opts.atBpf2Bpf then
    (injectInsns insns opts.atBpf2Bpf [⟨movR0Imm true, "", ""⟩, plainInsn Op.exit], none)
  else (insns, some (.errorf "cannot find the stub" []))

theorem injectChecked_replaces {expr : String} {insns insns' : ProgInsns} {opts : InjectOptions}
    (h : injectChecked expr insns opts = (insns', none)) : Replaced opts.atBpf2Bpf insns insns' := by
  rw [injectChecked] at h
  split at h
  · cases h
  split at h
  · rename_i hstub
    cases h
    obtain ⟨i, hi, hsymbol⟩ := List.any_eq_true.mp hstub
    exact ⟨⟨i, hi, of_decide_eq_true hsymbol⟩, _, List.cons_ne_nil _ _, rfl⟩
  · cases h

def syntaxChecked : Elibpcap where
  inject := injectChecked
  replaces _ _ _ _ _ h := injectChecked_replaces h

def skbContextParam : FuncParam where
  name := "skb"
  type := .pointer (.struct "__sk_buff" 0)

/-- A filter that compiles is injected. -/
theorem tcp_reported : "tcp" ≠ "" ∧ ReportsFailure syntaxChecked structBtf "tcp" stubProg [skbContextParam] := by
  have hexpr : "tcp" ≠ "" := by decide
  refine ⟨hexpr, (reportsFailure_iff syntaxChecked structBtf "tcp" hexpr stubProg [skbContextParam]).mpr ?_⟩
  intro p i name hsel hname
  have hp : p = skbContextParam := (congrArg Prod.fst (Option.some.inj hsel)).symm
  subst hp
  have h : name = "__sk_buff" := (Option.some.inj hname).symm
  subst h
  exact ⟨fun h => absurd h (by decide), fun _ _ _ => ⟨rfl, .inl rfl⟩, fun _ h => absurd h (by decide)⟩

/-- One that does not is not, and nil is returned. -/
theorem syntax_error_lost :
    injection syntaxChecked structBtf "tcp prot 80" stubProg skbContextParam 0
      = some (stubProg, some (.wrapf "failed to inject skb pcap-filter: %w" [] (.wrapf
          "failed to inject l2 pcap-filter: %w" [] (.errorf "syntax error in filter expression" [])))) ∧
    injectPktFilter syntaxChecked structBtf "tcp prot 80" stubProg [skbContextParam] = (stubProg, none) ∧
    ¬ReportsFailure syntaxChecked structBtf "tcp prot 80" stubProg [skbContextParam] := by
  have hinj : injection syntaxChecked structBtf "tcp prot 80" stubProg skbContextParam 0
      = some (stubProg, some (.wrapf "failed to inject skb pcap-filter: %w" [] (.wrapf
          "failed to inject l2 pcap-filter: %w" [] (.errorf "syntax error in filter expression" [])))) := rfl
  have hnil : injectPktFilter syntaxChecked structBtf "tcp prot 80" stubProg [skbContextParam] = (stubProg, none) := rfl
  refine ⟨hinj, hnil, fun h => ?_⟩
  have herr := h.error skbContextParam 0 stubProg _ rfl hinj
  rw [hnil] at herr
  cases herr

end Bpfsnoop.Progs
