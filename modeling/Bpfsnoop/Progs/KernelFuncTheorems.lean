/-
Bpfsnoop.Progs.KernelFuncTheorems — which kernel functions are selected.

`Chosen` says when a function of a BTF may be traced, and with which
options. `findKernelFuncs_iff`: at every address stands the last function of
the search that is chosen and has its symbol there, unless the kernel would
refuse it.
-/
import Bpfsnoop.Progs.KernelFuncs

namespace Bpfsnoop.Progs

open Btf CC Lib Ksyms Trace
open Ebpf (Word)

/-! ## Chosen functions -/

/-- A function that matches a pattern, the first one it matches, whose name
has one address, and whose arguments and return value the programs can
read. -/
structure Chosen (S : FuncSource) (ksyms : Kallsyms) (maxArgs : Nat) (ms : List KfuncMatch) (spec : Spec)
    (fn : BtfFunc) (kf : KFunc) : Prop where
  pattern : ∃ before m after, ms = before ++ m :: after ∧ m.matches S fn.name fn.type = true ∧
    (∀ m' ∈ before, m'.matches S fn.name fn.type = false) ∧
    kf.insn = m.flag.insn ∧ kf.flag = m.flag.toProgFlagImmInfo
  func : kf.func = fn
  btf : kf.btf = spec
  notTp : kf.isTp = false
  symbol : ksyms.symOfName fn.name = some kf.ksym
  single : kf.ksym.duped = false
  fixedArgs : ∀ p, fn.type.params.getLast? = some p → isValistParam p = false
  noStruct : returnsStruct fn.type = false
  params : getFuncParams S.heap S.isConstCharPtr fn.type = .ok (kf.prms, kf.ret)
  args : fn.type.params.length ≤ maxArgs

section Matching

variable {S : FuncSource} {ksyms : Kallsyms} {maxArgs : Nat} {ms : List KfuncMatch} {spec : Spec} {fn : BtfFunc}
  {kf : KFunc}

theorem matchKfunc_iff (fn : BtfFunc) {m : KfuncMatch} : matchKfunc S fn.name fn.type ms = some m ↔
    ∃ before after, ms = before ++ m :: after ∧ m.matches S fn.name fn.type = true ∧
      ∀ m' ∈ before, m'.matches S fn.name fn.type = false := by
  rw [matchKfunc, List.find?_eq_some_iff_append]
  constructor
  · rintro ⟨hm, before, after, hsplit, hbefore⟩
    exact ⟨before, after, hsplit, hm, fun m' hm' => by simpa using hbefore m' hm'⟩
  · rintro ⟨before, after, hsplit, hm, hbefore⟩
    exact ⟨hm, before, after, hsplit, fun m' hm' => by simpa using hbefore m' hm'⟩

theorem checkKfuncTraceable_iff {ksym : Ksyms.KsymEntry} : checkKfuncTraceable fn ksyms = some ksym ↔
    (∀ p, fn.type.params.getLast? = some p → isValistParam p = false) ∧ returnsStruct fn.type = false ∧
      ksyms.symOfName fn.name = some ksym ∧ ksym.duped = false := by
  have hvalist : (fn.type.params.getLast?.map isValistParam).getD false = true ↔
      ¬ ∀ p, fn.type.params.getLast? = some p → isValistParam p = false := by
    cases fn.type.params.getLast? <;> simp
  unfold checkKfuncTraceable
  split
  · rename_i h
    simp [hvalist.mp h]
  · rename_i h
    rw [hvalist, not_not] at h
    split
    · rename_i hstruct
      simp [hstruct]
    · rename_i hstruct
      rw [Option.filter_eq_some_iff, Bool.not_eq_true']
      exact ⟨fun hsym => ⟨h, by simpa using hstruct, hsym⟩, fun hall => hall.2.2⟩

/-- What `matchKernelFunc` makes of a function. -/
theorem matchKernelFunc_iff :
    matchKernelFunc S ms spec fn maxArgs ksyms false = some kf ↔ Chosen S ksyms maxArgs ms spec fn kf := by
  unfold matchKernelFunc
  constructor
  · intro h
    split at h
    · cases h
    rename_i m hm
    split at h
    · cases h
    rename_i ksym hksym
    split at h
    · cases h
    rename_i params ret hparams
    simp only [Bool.false_eq_true, if_false] at h
    split at h
    · rename_i hargs
      obtain rfl := Option.some.inj h
      obtain ⟨before, after, hsplit, hmatch, hbefore⟩ := (matchKfunc_iff fn).mp hm
      obtain ⟨hfixed, hstruct, hsym, hsingle⟩ := checkKfuncTraceable_iff.mp hksym
      exact ⟨⟨before, m, after, hsplit, hmatch, hbefore, rfl, rfl⟩, rfl, rfl, rfl, hsym, hsingle, hfixed, hstruct,
        hparams, hargs⟩
    · cases h
  · rintro ⟨⟨before, m, after, hsplit, hmatch, hbefore, hinsn, hflag⟩, hfunc, hbtf, htp, hsym, hsingle, hfixed,
      hstruct, hparams, hargs⟩
    rw [(matchKfunc_iff fn).mpr ⟨before, after, hsplit, hmatch, hbefore⟩,
      checkKfuncTraceable_iff.mpr ⟨hfixed, hstruct, hsym, hsingle⟩]
    simp only [hparams, Bool.false_eq_true, if_false, if_pos hargs]
    cases kf
    simp_all

end Matching

/-! ## The search -/

/-- The functions of some BTFs. -/
def functions (S : FuncSource) (specs : List Spec) : List (Spec × BtfFunc) :=
  specs.flatMap fun spec => (S.funcs spec).map (spec, ·)

/-- The last function, of those that are chosen, with its symbol at an
address. -/
def LastChosen (S : FuncSource) (ksyms : Kallsyms) (maxArgs : Nat) (ms : List KfuncMatch)
    (fns : List (Spec × BtfFunc)) (addr : Word) (kf : KFunc) : Prop :=
  ∃ before spec fn after, fns = before ++ (spec, fn) :: after ∧ Chosen S ksyms maxArgs ms spec fn kf ∧
    kf.ksym.addr = addr ∧
    ∀ later ∈ after, ∀ kf', Chosen S ksyms maxArgs ms later.1 later.2 kf' → kf'.ksym.addr ≠ addr

section Search

variable {S : FuncSource} {fs : BtfFiles} {kmodFlags : KmodFlags} {cmd : CommandOptions} {ksyms : Kallsyms}
  {maxArgs fuel : Nat} {ms : List KfuncMatch} {allKmods : Bool} {funcs kmods : List String} {kfuncs : KFuncs}

/-- What is kept of a function, with its address. -/
def kept (S : FuncSource) (ksyms : Kallsyms) (maxArgs : Nat) (ms : List KfuncMatch) (x : Spec × BtfFunc) :
    Option (Word × KFunc) :=
  (matchKernelFunc S ms x.1 x.2 maxArgs ksyms false).map fun kf => (kf.ksym.addr, kf)

theorem kept_eq_some {x : Spec × BtfFunc} {addr : Word} {kf : KFunc} :
    kept S ksyms maxArgs ms x = some (addr, kf) ↔ Chosen S ksyms maxArgs ms x.1 x.2 kf ∧ kf.ksym.addr = addr := by
  rw [kept, Option.map_eq_some_iff]
  constructor
  · rintro ⟨kf', hmatch, heq⟩
    obtain ⟨rfl, rfl⟩ := Prod.mk.inj heq
    exact ⟨matchKernelFunc_iff.mp hmatch, rfl⟩
  · rintro ⟨hchosen, rfl⟩
    exact ⟨kf, matchKernelFunc_iff.mpr hchosen, rfl⟩

theorem lastWrite_kept {fns : List (Spec × BtfFunc)} {addr : Word} {kf : KFunc} :
    lastWrite addr (fns.filterMap (kept S ksyms maxArgs ms)) = some kf ↔
      LastChosen S ksyms maxArgs ms fns addr kf := by
  rw [lastWrite_filterMap]
  constructor
  · rintro ⟨before, x, after, rfl, hx, hafter⟩
    obtain ⟨hchosen, haddr⟩ := kept_eq_some.mp hx
    refine ⟨before, x.1, x.2, after, rfl, hchosen, haddr, ?_⟩
    exact fun later hlater kf' hchosen' haddr' => hafter later hlater kf' (kept_eq_some.mpr ⟨hchosen', haddr'⟩)
  · rintro ⟨before, spec, fn, after, rfl, hchosen, haddr, hafter⟩
    refine ⟨before, (spec, fn), after, rfl, kept_eq_some.mpr ⟨hchosen, haddr⟩, ?_⟩
    intro later hlater kf' hkept
    obtain ⟨hchosen', haddr'⟩ := kept_eq_some.mp hkept
    exact hafter later hlater kf' hchosen' haddr'

/-- The iterator writes down what is kept. -/
theorem collectFuncs_eq (kfuncs : KFuncs) (spec : Spec) : (collectFuncs S ms maxArgs ksyms false kfuncs spec).2 =
    insertAll kfuncs (((S.funcs spec).map (spec, ·)).filterMap (kept S ksyms maxArgs ms)) := by
  rw [List.filterMap_map, ← foldl_insert_filterMap]
  refine congrArg (List.foldl · kfuncs (S.funcs spec)) (funext fun t => funext fun fn => ?_)
  simp only [Function.comp_apply, kept]
  cases matchKernelFunc S ms spec fn maxArgs ksyms false <;> rfl

theorem findKernelFuncs_lookup
    (h : findKernelFuncs S fs kmodFlags cmd allKmods fuel funcs kmods ksyms maxArgs false = some (.ok kfuncs)) :
    ∃ ms, kfuncFlags2matches S cmd fuel funcs = some (.ok ms) ∧ ∀ addr kf, kfuncs.lookup addr = some kf ↔
      LastChosen S ksyms maxArgs ms (functions S (searchOrder fs kmodFlags allKmods kmods)) addr kf := by
  obtain ⟨r, hms, hr⟩ := Option.map_eq_some_iff.mp h
  cases r with
  | error err => cases hr
  | ok ms =>
    refine ⟨ms, hms, fun addr kf => ?_⟩
    have hgoes : ∀ t spec, (collectFuncs S ms maxArgs ksyms false t spec).1 = false := fun _ _ => rfl
    have hvisits := iterateKernelBtfs_cases fs kmodFlags (collectFuncs S ms maxArgs ksyms false) allKmods kmods ∅
    simp only [Except.bind] at hr
    split at hr
    · cases hr
    rename_i t hsearch
    obtain rfl := Except.ok.inj hr
    rw [hsearch] at hvisits
    rcases hvisits with ⟨-, hfail, -⟩ | hvisit
    · exact absurd rfl hfail
    dsimp only at hvisit
    rw [hvisit, visit_of_goesOn hgoes, visit_of_goesOn hgoes, ← List.foldl_append,
      funext fun t => funext fun spec => collectFuncs_eq t spec, foldl_insertAll, lookup_insertAll,
      AList.lookup_empty, Option.or_none, ← lastWrite_kept, functions, ← List.filterMap_flatMap]
    rfl

/-- What `searchKernelFuncs` leaves. -/
theorem searchKernelFuncs_lookup
    (h : searchKernelFuncs S fs kmodFlags cmd allKmods fuel funcs kmods ksyms maxArgs = some (.ok kfuncs)) :
    ∃ ms, kfuncFlags2matches S cmd fuel funcs = some (.ok ms) ∧ ∀ addr kf, kfuncs.lookup addr = some kf ↔
      LastChosen S ksyms maxArgs ms (functions S (searchOrder fs kmodFlags allKmods kmods)) addr kf ∧
      refused cmd kf = false := by
  obtain ⟨r, hfind, hr⟩ := Option.map_eq_some_iff.mp h
  cases r with
  | error err => cases hr
  | ok found =>
    obtain rfl := Except.ok.inj hr
    obtain ⟨ms, hms, hlookup⟩ := findKernelFuncs_lookup hfind
    refine ⟨ms, hms, fun addr kf => ?_⟩
    rw [lookup_eraseWhere, Option.filter_eq_some_iff, hlookup]
    simp

/-- **The kernel functions that are traced.** Where `FindKernelFuncs`
succeeds, what it has at an address is the last of the chosen functions of
the search that has its symbol there, if the kernel does not refuse it. -/
theorem findKernelFuncs_iff
    (h : FindKernelFuncs S fs kmodFlags cmd allKmods fuel funcs ksyms maxArgs = some (.ok kfuncs)) :
    ∃ ms, kfuncFlags2matches S cmd fuel funcs = some (.ok ms) ∧ ∀ addr kf, kfuncs.lookup addr = some kf ↔
      LastChosen S ksyms maxArgs ms
        (functions S (searchOrder fs kmodFlags allKmods (kmodsOf S kmodFlags funcs ksyms))) addr kf ∧
      refused cmd kf = false := by
  unfold FindKernelFuncs at h
  split at h
  · rename_i hnone
    subst hnone
    cases h
    refine ⟨[], rfl, fun addr kf => ⟨fun hlookup => (by simp at hlookup), ?_⟩⟩
    rintro ⟨⟨before, spec, fn, after, -, hchosen, -⟩, -⟩
    obtain ⟨front, m, back, hnil, -⟩ := hchosen.pattern
    simp at hnil
  · exact searchKernelFuncs_lookup h

end Search

/-! ## A kernel -/

/-- A BTF of functions with one argument. -/
def btfOfNames (names : List String) : Spec := ⟨fun _ => .error .notFound, fun _ => none, names.map (.func · [])⟩

/-- A function by its name. -/
def funcWith (proto : FuncProto) : BtfType → Option BtfFunc
  | .func name _ => some ⟨name, proto⟩
  | _ => none

/-- Names are their own patterns. -/
def namesSource : FuncSource where
  heap := fun _ => ⟨0, fun _ => none⟩
  isConstCharPtr := fun _ => false
  repr := fun _ => ""
  compileGlob := fun pattern => .ok fun name => name = pattern
  funcs := fun spec => spec.all.filterMap (funcWith ⟨[⟨"code", .int "long" 8 .signed⟩], .void⟩)
  rangeNames := id
  rangeNames_perm := fun _ => .refl _

def vmlinuxOnly : BtfFiles where
  readDir := fun _ => .error .btfNotFound
  fileExists := fun _ => false
  loadKernelModuleSpec := fun _ => .error .btfNotFound
  loadSpec := fun _ => .error .notFound
  getKernelBTF := btfOfNames ["vfs_read", "do_exit"]
  range := id
  range_perm := fun _ => .refl _

/-- The symbols of two functions. -/
def twoSymbols : Kallsyms := (Kallsyms.empty.addEntry 0x100 "vfs_read" "").addEntry 0x200 "do_exit" ""

/-- `--mode exit` and nothing else. -/
def exitMode : CommandOptions := ⟨false, false, false, false, false, false, true⟩

/-- `vfs_read`, as it is found. -/
def vfsRead : KFunc where
  ksym := ⟨0x100, "vfs_read", "", [], false⟩
  func := ⟨"vfs_read", ⟨[⟨"code", .int "long" 8 .signed⟩], .void⟩⟩
  btf := btfOfNames ["vfs_read", "do_exit"]
  prms := [{}]
  ret := {}
  insn := false
  flag := {}

/-- Of two functions, one without an exit, the other one is traced. -/
theorem twoSymbols_found : ∃ ms, LastChosen namesSource twoSymbols 12 ms
    (functions namesSource (searchOrder vmlinuxOnly ⟨[], ""⟩ false
      (kmodsOf namesSource ⟨[], ""⟩ ["vfs_read", "do_exit"] twoSymbols))) 0x100 vfsRead := by
  have hfound : FindKernelFuncs namesSource vmlinuxOnly ⟨[], ""⟩ exitMode false 1 ["vfs_read", "do_exit"] twoSymbols 12 =
      some (.ok (.insert 0x100 vfsRead ∅)) := rfl
  obtain ⟨ms, -, hiff⟩ := findKernelFuncs_iff hfound
  exact ⟨ms, ((hiff 0x100 vfsRead).mp rfl).1⟩

end Bpfsnoop.Progs
