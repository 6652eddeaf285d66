/-
Bpfsnoop.Progs.TracepointTheorems — which tracepoints are selected.

A table is read in pieces, and holds the last of its entries of a name
(`probeTracepoints_lookup`, by induction on what is left of the table). A
tracepoint of the kernel comes before those of the modules
(`probeAll_iff`). `findKernelTracepoints_iff` puts the reading and the
matching together.
-/
import Bpfsnoop.Progs.KernelFuncTheorems
import Bpfsnoop.Progs.Tracepoints

namespace Bpfsnoop.Progs

open Btf CC Lib Ksyms Trace
open Ebpf (Word Byte)

/-! ## One table -/

section Table

variable {K : TpKernel} {ksyms : Kallsyms} {spec : Spec} {size : Nat}

/-- Where the entry with an index is read. -/
def entryAddr (size : Nat) (start : Word) (i : Nat) : Word :=
  start + BitVec.ofNat 64 (i / tpMax * (size * tpMax) + i % tpMax * rawEventMapSz)

/-- **The entries of a table follow one another**, where BTF and the program
agree on their size. -/
theorem entryAddr_table (start : Word) (i : Nat) :
    entryAddr rawEventMapSz start i = start + BitVec.ofNat 64 (i * rawEventMapSz) := by
  have hpieces := Nat.div_add_mod i tpMax
  have hsum : i / tpMax * (rawEventMapSz * tpMax) + i % tpMax * rawEventMapSz = i * rawEventMapSz := by
    simp only [tpMax, rawEventMapSz] at hpieces ⊢
    omega
  rw [entryAddr, hsum]

/-- The entries of a table that are used, with their names. -/
def tableEntries (K : TpKernel) (size : Nat) (start : Word) (total : Nat) : List (String × (Word × BitVec 32)) :=
  (List.range total).filterMap fun i => tpEntry (probeTpInfo (K.rawEvent (entryAddr size start i)))

/-- The entry behind a whole piece. -/
theorem entryAddr_add (start : Word) (i : Nat) :
    entryAddr size (start + BitVec.ofNat 64 (size * tpMax)) i = entryAddr size start (tpMax + i) := by
  have hpos : 0 < tpMax := by decide
  rw [entryAddr, entryAddr, Nat.add_div_left i hpos, Nat.add_mod_left, BitVec.add_assoc, ← BitVec.ofNat_add,
    Nat.succ_mul, Nat.add_comm (_ * _) (size * tpMax), Nat.add_assoc]

/-- A table is its first piece and the rest. -/
theorem tableEntries_add (start : Word) (total : Nat) : tableEntries K size start total =
    tableEntries K size start (min total tpMax) ++
      tableEntries K size (start + BitVec.ofNat 64 (size * min total tpMax)) (total - min total tpMax) := by
  rcases Nat.le_total total tpMax with hle | hle
  · rw [Nat.min_eq_left hle, Nat.sub_self]
    exact (List.append_nil _).symm
  · obtain ⟨rest, rfl⟩ := Nat.exists_eq_add_of_le hle
    rw [Nat.min_eq_right hle, Nat.add_sub_cancel_left, tableEntries, tableEntries, tableEntries, List.range_add,
      List.filterMap_append, List.filterMap_map]
    simp only [entryAddr_add]
    rfl

/-- A piece of a table. -/
theorem lookup_probeTracepointInfos {start : Word} {cnt : Nat} (hcnt : cnt ≤ tpMax) (name : String) :
    (probeTracepointInfos K start cnt).lookup name = lastWrite name (tableEntries K size start cnt) := by
  have hentries : (probeTps K start cnt).filterMap tpEntry = tableEntries K size start cnt := by
    rw [probeTps, Nat.min_eq_left hcnt, List.filterMap_map, tableEntries]
    refine List.filterMap_congr fun i hi => ?_
    have hlt : i < tpMax := Nat.lt_of_lt_of_le (List.mem_range.mp hi) hcnt
    rw [Function.comp_apply, entryAddr, Nat.div_eq_of_lt hlt, Nat.mod_eq_of_lt hlt, Nat.zero_mul, Nat.zero_add]
  rw [probeTracepointInfos, hentries, lookup_insertAll, AList.lookup_empty, Option.or_none]

/-- What the loop over the pieces leaves, behind a table so far. -/
theorem probeTracepoints_lookup {tps tps' : TpTable} {start : Word} {total : Nat}
    (h : probeTracepoints K ksyms spec size tps start total = .ok tps') (name : String) :
    match lastWrite name (tableEntries K size start total) with
    | none => tps'.lookup name = tps.lookup name
    | some info => ∃ tp, resolveTracepoint K ksyms spec name info = .ok tp ∧ tps'.lookup name = some tp := by
  induction total using Nat.strongRecOn generalizing tps start with
  | ind total ih =>
    rw [probeTracepoints] at h
    split at h
    · rename_i hzero
      cases h
      rw [hzero]
      rfl
    · rename_i hne
      dsimp only at h
      split at h
      · cases h
      · rename_i mid hmid
        have hrest := ih (total - min total tpMax) (by simp only [tpMax]; omega) h
        have hpiece := lookup_insertResolved hmid name
        rw [lookup_probeTracepointInfos (Nat.min_le_right ..)] at hpiece
        rw [tableEntries_add, lastWrite_append]
        -- a later piece wins
        cases hlater : lastWrite name (tableEntries K size (start + BitVec.ofNat 64 (size * min total tpMax))
            (total - min total tpMax)) with
        | some info =>
          rw [hlater] at hrest
          exact hrest
        | none =>
          rw [hlater] at hrest
          dsimp only at hrest
          rw [Option.none_or]
          cases hhere : lastWrite name (tableEntries K size start (min total tpMax)) with
          | some info =>
            rw [hhere] at hpiece
            obtain ⟨tp, hresolve, htp⟩ := hpiece
            exact ⟨tp, hresolve, hrest.trans htp⟩
          | none =>
            rw [hhere] at hpiece
            exact hrest.trans hpiece

/-- The tracepoint that a table has under a name: the last entry of the name,
with the function that its symbol names. -/
def TableHas (K : TpKernel) (ksyms : Kallsyms) (spec : Spec) (size : Nat) (start : Word) (total : Nat)
    (name : String) (tp : TracepointInfo) : Prop :=
  ∃ info, lastWrite name (tableEntries K size start total) = some info ∧
    resolveTracepoint K ksyms spec name info = .ok tp

/-- **A table is read whole**, however many pieces it takes. -/
theorem probeTracepoints_iff {tps : TpTable} {start : Word} {total : Nat}
    (h : probeTracepoints K ksyms spec size ∅ start total = .ok tps) (name : String) (tp : TracepointInfo) :
    tps.lookup name = some tp ↔ TableHas K ksyms spec size start total name tp := by
  have hlookup := probeTracepoints_lookup h name
  unfold TableHas
  cases hlast : lastWrite name (tableEntries K size start total) with
  | none =>
    rw [hlast] at hlookup
    simp [hlookup]
  | some info =>
    rw [hlast] at hlookup
    obtain ⟨tp', hresolve, htp'⟩ := hlookup
    simp [htp', hresolve]

end Table

/-! ## The modules -/

/-- The nodes of the list from one on, up to its head. -/
inductive ListFrom (K : TpKernel) (head : Word) : Word → List Word → Prop
  | nil : ListFrom K head head []
  | cons {node nodes} (hne : node ≠ head) (hrest : ListFrom K head (K.listNext node) nodes) :
    ListFrom K head node (node :: nodes)

section Modules

variable {K : TpKernel} {ksyms : Kallsyms} {size : Nat} {head : Word}

theorem walkModules_stops {i : Nat} {next : Word} (h : (walkModules K head i next).2 = head) :
    ∃ nodes, ListFrom K head next nodes ∧ nodes.length ≤ i ∧
      (walkModules K head i next).1 = nodes.map fun node => probeModuleInfo (K.moduleOf node) := by
  induction i generalizing next with
  | zero =>
    obtain rfl : next = head := h
    exact ⟨[], .nil, Nat.le_refl 0, rfl⟩
  | succ i ih =>
    rw [walkModules] at h ⊢
    split at h
    · rename_i heq
      subst heq
      exact ⟨[], .nil, Nat.zero_le _, by rw [if_pos rfl]; rfl⟩
    · rename_i hne
      obtain ⟨nodes, hlist, hlen, hmap⟩ := ih h
      refine ⟨next :: nodes, .cons hne hlist, Nat.succ_le_succ hlen, ?_⟩
      rw [if_neg hne]
      simp [hmap]

/-- A module whose table is read: it has tracepoints, at most 65536, and its
BTF loads. -/
structure HasTps (K : TpKernel) (m : KernelModule) (mod : String) (spec : Spec) : Prop where
  nonempty : m.numBpfRawEvents ≠ 0
  bounded : m.numBpfRawEvents.toNat ≤ tpModuleMaxTps
  name : goString (nullTerminated (readKernelStr 56 m.name)) = mod
  loads : K.loadKernelModuleSpec mod = .ok spec

/-- What the last of the modules of a name has under the name of a
tracepoint. -/
def ModuleHas (K : TpKernel) (ksyms : Kallsyms) (size : Nat) (nodes : List Word) (mod name : String)
    (tp : TracepointInfo) : Prop :=
  ∃ before node after spec, nodes = before ++ node :: after ∧ HasTps K (K.moduleOf node) mod spec ∧
    (∀ node' ∈ after, ∀ spec', ¬ HasTps K (K.moduleOf node') mod spec') ∧
    TableHas K ksyms spec size (K.moduleOf node).bpfRawEvents (K.moduleOf node).numBpfRawEvents.toNat name tp

/-- What the loop makes of a module with tracepoints. -/
theorem probeModule_of_hasTps {m : KernelModule} {mod : String} {spec : Spec} (h : HasTps K m mod spec) :
    probeModule K ksyms size (probeModuleInfo m) =
      match probeTracepoints K ksyms spec size ∅ m.bpfRawEvents m.numBpfRawEvents.toNat with
      | .error err =>
        .error (.wrapf "failed to probe tracepoint infos for kernel module %s: %w" [.text mod] err)
      | .ok tps => .ok (some (mod, tps)) := by
  have hskip : ¬(m.numBpfRawEvents = 0 ∨ tpModuleMaxTps < m.numBpfRawEvents.toNat) :=
    not_or.mpr ⟨h.nonempty, Nat.not_lt.mpr h.bounded⟩
  cases htable : probeTracepoints K ksyms spec size ∅ m.bpfRawEvents m.numBpfRawEvents.toNat with
  | error err => simp only [probeModule, probeModuleInfo, if_neg hskip, h.name, h.loads, htable]
  | ok tps => simp only [probeModule, probeModuleInfo, if_neg hskip, h.name, h.loads, htable]

/-- Its table, where the loop succeeds. -/
theorem HasTps.table {m : KernelModule} {mod : String} {spec : Spec} (h : HasTps K m mod spec)
    (hok : ∃ w, probeModule K ksyms size (probeModuleInfo m) = .ok w) :
    ∃ tps, probeTracepoints K ksyms spec size ∅ m.bpfRawEvents m.numBpfRawEvents.toNat = .ok tps ∧
      written (probeModule K ksyms size) (probeModuleInfo m) = some (mod, tps) := by
  obtain ⟨w, hw⟩ := hok
  rw [probeModule_of_hasTps h] at hw
  split at hw
  · cases hw
  · rename_i tps htps
    exact ⟨tps, htps, by simp [written, probeModule_of_hasTps h, htps, Except.toOption]⟩

/-- A module that is written has tracepoints. -/
theorem hasTps_of_written {m : KernelModule} {mod : String} {tps : TpTable}
    (h : written (probeModule K ksyms size) (probeModuleInfo m) = some (mod, tps)) :
    ∃ spec, HasTps K m mod spec ∧
      probeTracepoints K ksyms spec size ∅ m.bpfRawEvents m.numBpfRawEvents.toNat = .ok tps := by
  by_cases hskip : m.numBpfRawEvents = 0 ∨ tpModuleMaxTps < m.numBpfRawEvents.toNat
  · have hnone : probeModule K ksyms size (probeModuleInfo m) = .ok none := if_pos hskip
    rw [written, hnone] at h
    cases h
  · obtain ⟨hsome, hbounded⟩ := not_or.mp hskip
    cases hload : K.loadKernelModuleSpec (goString (nullTerminated (readKernelStr 56 m.name))) with
    | error err =>
      rw [written, probeModule, probeModuleInfo, if_neg hskip] at h
      cases err <;> simp [hload, Except.toOption] at h
    | ok spec =>
      have hhas : HasTps K m _ spec := ⟨hsome, Nat.not_lt.mp hbounded, rfl, hload⟩
      rw [written, probeModule_of_hasTps hhas] at h
      split at h
      · cases h
      · rename_i tps' htps'
        simp only [Except.toOption, Option.join_some, Option.some.injEq, Prod.mk.injEq] at h
        obtain ⟨rfl, rfl⟩ := h
        exact ⟨spec, hhas, htps'⟩

/-- The tables of the modules. -/
theorem insertEach_probeModule {nodes : List Word} {modules : TpModules}
    (h : insertEach (probeModule K ksyms size) ∅ (nodes.map fun node => probeModuleInfo (K.moduleOf node)) = .ok modules)
    (mod name : String) (tp : TracepointInfo) :
    (∃ tps, modules.lookup mod = some tps ∧ tps.lookup name = some tp) ↔ ModuleHas K ksyms size nodes mod name tp := by
  obtain ⟨hok, rfl⟩ := insertEach_eq_ok h
  have hok' : ∀ node ∈ nodes, ∃ w, probeModule K ksyms size (probeModuleInfo (K.moduleOf node)) = .ok w :=
    fun node hnode => hok _ (List.mem_map.mpr ⟨node, hnode, rfl⟩)
  simp only [lookup_insertAll, AList.lookup_empty, Option.or_none, List.filterMap_map, lastWrite_filterMap,
    Function.comp_apply]
  constructor
  · rintro ⟨tps, ⟨before, node, after, rfl, hnode, hafter⟩, htp⟩
    obtain ⟨spec, hhas, hprobe⟩ := hasTps_of_written hnode
    refine ⟨before, node, after, spec, rfl, hhas, ?_, (probeTracepoints_iff hprobe name tp).mp htp⟩
    intro node' hnode' spec' hhas'
    -- a later module of the name would have written too
    obtain ⟨tps', -, hwritten⟩ := hhas'.table (hok' node' (by simp [hnode']))
    exact hafter node' hnode' tps' hwritten
  · rintro ⟨before, node, after, spec, rfl, hhas, hlast, htable⟩
    obtain ⟨tps, hprobe, hwritten⟩ := hhas.table (hok' node (by simp))
    refine ⟨tps, ⟨before, node, after, rfl, hwritten, ?_⟩, (probeTracepoints_iff hprobe name tp).mpr htable⟩
    intro node' hnode' tps' hwritten'
    obtain ⟨spec', hhas', -⟩ := hasTps_of_written hwritten'
    exact hlast node' hnode' spec' hhas'

/-- The modules that have a table. -/
theorem mem_keys_insertEach {nodes : List Word} {modules : TpModules}
    (h : insertEach (probeModule K ksyms size) ∅ (nodes.map fun node => probeModuleInfo (K.moduleOf node)) = .ok modules)
    {mod : String} (hhas : ∃ node ∈ nodes, ∃ spec, HasTps K (K.moduleOf node) mod spec) : mod ∈ modules.keys := by
  obtain ⟨node, hnode, spec, hhas⟩ := hhas
  obtain ⟨hok, rfl⟩ := insertEach_eq_ok h
  obtain ⟨tps, -, hwritten⟩ := hhas.table (hok _ (List.mem_map.mpr ⟨node, hnode, rfl⟩))
  rw [← AList.mem_keys, ← AList.lookup_isSome, lookup_insertAll, AList.lookup_empty, Option.or_none,
    Option.isSome_iff_ne_none, Ne, lastWrite_eq_none, not_not]
  exact List.mem_map.mpr
    ⟨(mod, tps), List.mem_filterMap.mpr ⟨_, List.mem_map.mpr ⟨node, hnode, rfl⟩, hwritten⟩, rfl⟩

end Modules

/-! ## Every tracepoint -/

section All

variable {K : TpKernel} {ksyms : Kallsyms}

/-- The tracepoint that the kernel itself has under a name. -/
def BuiltinHas (K : TpKernel) (ksyms : Kallsyms) (size : Nat) : String → TracepointInfo → Prop :=
  TableHas K ksyms K.getKernelBTF size ksyms.bpfRawTpStart
    ((ksyms.bpfRawTpStop - ksyms.bpfRawTpStart).toNat / size)

/-- The tracepoint of a name: that of the kernel, else that of the first
module which has one. -/
inductive Registered (K : TpKernel) (ksyms : Kallsyms) (size : Nat) (nodes : List Word) (order : List String) :
    String → TracepointInfo → Prop
  | builtin {name tp} (h : BuiltinHas K ksyms size name tp) : Registered K ksyms size nodes order name tp
  | module {name tp before mod after} (hnone : ∀ tp', ¬ BuiltinHas K ksyms size name tp')
      (horder : order = before ++ mod :: after) (h : ModuleHas K ksyms size nodes mod name tp)
      (hfirst : ∀ mod' ∈ before, ∀ tp', ¬ ModuleHas K ksyms size nodes mod' name tp') :
      Registered K ksyms size nodes order name { tp with kmod := mod }

/-- The list of the modules, and an order of those that have tracepoints. -/
structure ModuleOrder (K : TpKernel) (head : Word) (nodes : List Word) (order : List String) : Prop where
  list : ListFrom K head (K.listNext head) nodes
  length : nodes.length ≤ tpModuleMax
  nodup : order.Nodup
  complete : ∀ mod, (∃ node ∈ nodes, ∃ spec, HasTps K (K.moduleOf node) mod spec) → mod ∈ order

theorem probeBuiltin_iff {tps : TpTable} (h : probeBuiltin K ksyms = .ok tps) :
    ∃ size, entrySize K = .ok size ∧ ∀ name tp, tps.lookup name = some tp ↔ BuiltinHas K ksyms size name tp := by
  unfold probeBuiltin at h
  split at h
  · cases h
  · split at h
    · cases h
    · rename_i size hsize
      exact ⟨size, hsize, probeTracepoints_iff h⟩

theorem probeModules_iff {modules : TpModules} (h : probeModules K ksyms = .ok modules) :
    ∃ size nodes, entrySize K = .ok size ∧
      ModuleOrder K ksyms.bpfTraceModules nodes (K.rangeModules modules.keys) ∧ ∀ mod name tp,
        (∃ tps, modules.lookup mod = some tps ∧ tps.lookup name = some tp) ↔ ModuleHas K ksyms size nodes mod name tp := by
  unfold probeModules at h
  split at h
  · cases h
  · dsimp only at h
    split at h
    · cases h
    · rename_i hstop
      split at h
      · cases h
      · rename_i size hsize
        obtain ⟨nodes, hlist, hlen, hmap⟩ := walkModules_stops (not_not.mp hstop)
        rw [hmap] at h
        have hperm := K.rangeModules_perm modules.keys
        refine ⟨size, nodes, hsize, ⟨hlist, hlen, ?_, ?_⟩, insertEach_probeModule h⟩
        · exact hperm.nodup_iff.mpr modules.keys_nodup
        · exact fun mod hhas => hperm.mem_iff.mpr (mem_keys_insertEach h hhas)

/-- **Every tracepoint is found**, those of the kernel before those of the
modules. -/
theorem probeAll_iff {infos : TpTable} (h : probeAll K ksyms = .ok infos) :
    ∃ size nodes order, entrySize K = .ok size ∧ ModuleOrder K ksyms.bpfTraceModules nodes order ∧
      ∀ name tp, infos.lookup name = some tp ↔ Registered K ksyms size nodes order name tp := by
  unfold probeAll at h
  split at h
  · cases h
  rename_i builtin hbuiltin
  split at h
  · cases h
  rename_i modules hmodules
  obtain rfl := Except.ok.inj h
  obtain ⟨size, hsize, hhas⟩ := probeBuiltin_iff hbuiltin
  obtain ⟨size', nodes, hsize', horder, hmod⟩ := probeModules_iff hmodules
  obtain rfl : size = size' := Except.ok.inj (hsize.symm.trans hsize')
  refine ⟨size, nodes, _, hsize, horder, fun name tp => ?_⟩
  let added (mod : String) : Option TracepointInfo :=
    (modules.lookup mod).bind fun tps => (tps.lookup name).map fun tp => { tp with kmod := mod }
  have hadded {mod : String} {tp : TracepointInfo} :
      added mod = some tp ↔ ∃ tp', ModuleHas K ksyms size nodes mod name tp' ∧ { tp' with kmod := mod } = tp := by
    simp only [added, Option.bind_eq_some_iff, Option.map_eq_some_iff, ← hmod]
    constructor
    · rintro ⟨tps, htps, tp', htp', rfl⟩
      exact ⟨tp', ⟨tps, htps, htp'⟩, rfl⟩
    · rintro ⟨tp', ⟨tps, htps, htp'⟩, rfl⟩
      exact ⟨tps, htps, tp', htp', rfl⟩
  have hstep (t : TpTable) (mod : String) : (addModuleTps t modules mod).lookup name = (t.lookup name).or (added mod) := by
    unfold addModuleTps
    cases hlook : modules.lookup mod with
    | none => simp [added, hlook]
    | some tps => simp [added, hlook, lookup_insertAbsent]
  rw [lookup_foldl_or hstep, Option.or_eq_some_iff, hhas, List.findSome?_eq_some_iff]
  constructor
  · rintro (hbuilt | ⟨hnone, before, mod, after, heq, hmod', hbefore⟩)
    · exact .builtin hbuilt
    · obtain ⟨tp', hhas', rfl⟩ := hadded.mp hmod'
      refine .module (fun tp' hbuilt => ?_) heq hhas' fun mod' hmem tp'' hhas'' => ?_
      · rw [(hhas name tp').mpr hbuilt] at hnone
        cases hnone
      · have hnone' := hbefore mod' hmem
        rw [hadded.mpr ⟨tp'', hhas'', rfl⟩] at hnone'
        cases hnone'
  · rintro (hbuilt | ⟨hnone, heq, hhas', hfirst⟩)
    · exact .inl hbuilt
    · refine .inr ⟨?_, _, _, _, heq, hadded.mpr ⟨_, hhas', rfl⟩, fun mod' hmem => ?_⟩
      · rw [Option.eq_none_iff_forall_ne_some]
        exact fun tp' htp' => hnone tp' ((hhas name tp').mp htp')
      · rw [Option.eq_none_iff_forall_ne_some]
        intro tp'' hadd
        obtain ⟨tp', hhas'', -⟩ := hadded.mp hadd
        exact hfirst mod' hmem tp' hhas''

end All

/-! ## The selected ones -/

/-- A tracepoint that matches a pattern, the first one it matches, and whose
arguments, behind the first parameter of its function, can be read. -/
structure TpChosen (S : FuncSource) (K : TpKernel) (ms : List KfuncMatch) (name : String) (tp : TracepointInfo)
    (kf : KFunc) : Prop where
  pattern : ∃ before m after, ms = before ++ m :: after ∧ m.matches S name kf.func.type = true ∧
    (∀ m' ∈ before, m'.matches S name kf.func.type = false) ∧
    kf.insn = false ∧ kf.flag = { m.flag.toProgFlagImmInfo with graph := false }
  func : ∃ data, tp.fn.type = { kf.func.type with params := data :: kf.func.type.params }
  named : kf.func.name = name
  enough : tp.nrArgs.toNat ≤ kf.func.type.params.length
  args : kf.func.type.params.length ≤ maxBpfFuncArgs
  params : getFuncParams S.heap S.isConstCharPtr kf.func.type = .ok (kf.prms, kf.ret)
  btf : (if tp.kmod ≠ "" then K.loadKernelModuleSpec tp.kmod else .ok K.getKernelBTF) = .ok kf.btf
  ksym : kf.ksym = { addr := 0, name := name, mod := "", extra := [], duped := false }
  isTp : kf.isTp = true

section Selected

variable {S : FuncSource} {K : TpKernel} {ksyms : Kallsyms} {cmd : CommandOptions} {fuel : Nat} {ms : List KfuncMatch}

theorem matchKfunc_forTp {name : String} {fp : FuncProto} :
    matchKfunc S name fp (ms.map KfuncMatch.forTp) = (matchKfunc S name fp ms).map KfuncMatch.forTp := by
  rw [matchKfunc, List.find?_map]
  rfl

/-- The BTF of a tracepoint. -/
def btfOf (K : TpKernel) (tp : TracepointInfo) : Except LookupError Spec :=
  if tp.kmod ≠ "" then K.loadKernelModuleSpec tp.kmod else .ok K.getKernelBTF

/-- What is chosen, by the parameters behind the first one. -/
theorem tpChosen_iff {name : String} {tp : TracepointInfo} {data : FuncParam} {params : List FuncParam}
    (hparams : tp.fn.type.params = data :: params) (kf : KFunc) :
    TpChosen S K ms name tp kf ↔ tp.nrArgs.toNat ≤ params.length ∧ params.length ≤ maxBpfFuncArgs ∧
      ∃ m prms ret btf, matchKfunc S name { tp.fn.type with params := params } ms = some m ∧
        getFuncParams S.heap S.isConstCharPtr { tp.fn.type with params := params } = .ok (prms, ret) ∧
        btfOf K tp = .ok btf ∧
        kf =
          { ksym := { addr := 0, name := name, mod := "", extra := [], duped := false }
            func := ⟨name, { tp.fn.type with params := params }⟩
            btf := btf
            prms := prms
            ret := ret
            insn := false
            flag := { m.flag.toProgFlagImmInfo with graph := false }
            isTp := true } := by
  constructor
  · intro hkf
    obtain ⟨data', htype⟩ := hkf.func
    have hfp : kf.func.type = { tp.fn.type with params := params } := by
      rw [htype] at hparams ⊢
      rw [← (List.cons.inj hparams).2]
    obtain ⟨before, m, after, hsplit, hm, hbefore, hinsn, hflag⟩ := hkf.pattern
    have hmatch := (matchKfunc_iff ⟨name, kf.func.type⟩).mpr ⟨before, after, hsplit, hm, hbefore⟩
    have henough := hkf.enough
    have hargs := hkf.args
    have hread := hkf.params
    rw [hfp] at hmatch henough hargs hread
    refine ⟨henough, hargs, m, kf.prms, kf.ret, kf.btf, hmatch, hread, hkf.btf, ?_⟩
    have hnamed := hkf.named
    have hksym := hkf.ksym
    have htp := hkf.isTp
    clear hkf htype hmatch henough hargs hread hm hbefore
    obtain ⟨ksym, ⟨fname, ftype⟩, btf, prms, ret, insn, flag, isTp⟩ := kf
    dsimp only at hfp hinsn hflag hnamed hksym htp
    subst hfp hinsn hflag hnamed hksym htp
    rfl
  · rintro ⟨henough, hargs, m, prms, ret, btf, hmatch, hread, hbtf, rfl⟩
    obtain ⟨before, after, hsplit, hm, hbefore⟩ :=
      (matchKfunc_iff ⟨name, { tp.fn.type with params := params }⟩).mp hmatch
    exact ⟨⟨before, m, after, hsplit, hm, hbefore, rfl, rfl⟩, ⟨data, by rw [← hparams]⟩, rfl, henough, hargs, hread,
      hbtf, rfl, rfl⟩

/-- What the loop makes of a tracepoint. -/
theorem matchTracepoint_iff {name : String} {tp : TracepointInfo} {r : Option KFunc}
    (h : matchTracepoint S K (ms.map KfuncMatch.forTp) name tp = .ok r) (kf : KFunc) :
    r = some kf ↔ TpChosen S K ms name tp kf := by
  unfold matchTracepoint at h
  split at h
  · cases h
  rename_i data params hparams
  rw [tpChosen_iff hparams]
  simp only [matchKfunc_forTp] at h
  split at h
  · rename_i hfew
    cases h
    simp [Nat.not_le.mpr hfew]
  split at h
  · rename_i hmany
    cases h
    simp [Nat.not_le.mpr hmany]
  rename_i henough hargs
  cases hmatch : matchKfunc S name { tp.fn.type with params := params } ms with
  | none =>
    simp only [hmatch, Option.map_none] at h
    cases h
    simp
  | some m =>
    simp only [hmatch, Option.map_some] at h
    split at h
    · rename_i hread
      cases h
      simp [hread]
    · rename_i prms ret hread
      split at h
      · cases h
      · rename_i btf hbtf
        cases h
        have hbtf' : btfOf K tp = .ok btf := hbtf
        simp [Nat.not_lt.mp henough, Nat.not_lt.mp hargs, hread, hbtf', KfuncMatch.forTp, eq_comm]

theorem lookup_matchKernelTracepoints {infos : TpTable} {ktps : Tracepoints}
    (h : matchKernelTracepoints S K ms infos = .ok ktps) (name : String) (kf : KFunc) :
    ktps.lookup name = some kf ↔ ∃ tp, infos.lookup name = some tp ∧ TpChosen S K ms name tp kf := by
  have hlookup := lookup_insertMatched h name
  cases hinfo : infos.lookup name with
  | none =>
    rw [hinfo] at hlookup
    simp [hlookup]
  | some tp =>
    rw [hinfo] at hlookup
    obtain ⟨b, hb, heq⟩ := hlookup
    rw [heq, AList.lookup_empty, Option.or_none, matchTracepoint_iff hb]
    simp

/-- **The tracepoints that are traced.** Where `FindKernelTracepoints`
succeeds, they are the registered ones that a pattern chooses, however many
pieces the tables of the kernel and of the modules that are read take. -/
theorem findKernelTracepoints_iff {tps : List String} (htps : tps ≠ []) {ktps : Tracepoints}
    (h : findKernelTracepoints S K ksyms cmd fuel tps = some (.ok ktps)) :
    ∃ size nodes order ms, entrySize K = .ok size ∧ ModuleOrder K ksyms.bpfTraceModules nodes order ∧
      kfuncFlags2matches S cmd fuel tps = some (.ok ms) ∧ ∀ name kf, ktps.lookup name = some kf ↔
        ∃ tp, Registered K ksyms size nodes order name tp ∧ TpChosen S K ms name tp kf := by
  rw [findKernelTracepoints, if_neg htps] at h
  split at h
  · cases h
  rename_i infos hinfos
  obtain ⟨r, hms, hr⟩ := Option.map_eq_some_iff.mp h
  cases r with
  | error err => cases hr
  | ok ms =>
    obtain ⟨size, nodes, order, hsize, horder, hreg⟩ := probeAll_iff hinfos
    refine ⟨size, nodes, order, ms, hsize, horder, hms, fun name kf => ?_⟩
    rw [lookup_matchKernelTracepoints hr]
    simp only [hreg]

end Selected

/-! ## A kernel -/

/-- A BTF of functions, with any function by its name. -/
def funcSpec (names : List String) : Spec := ⟨fun name => .ok (.func name []), fun _ => none, names.map (.func · [])⟩

/-- The function of a tracepoint: `bpf_old(data)`, or `bpf_…(data, code)`. -/
def asTpFunc : BtfType → Option BtfFunc
  | .func "bpf_old" _ => some ⟨"bpf_old", ⟨[⟨"data", .pointer .void⟩], .void⟩⟩
  | t => funcWith ⟨[⟨"data", .pointer .void⟩, ⟨"code", .int "long" 8 .signed⟩], .void⟩ t

/-- A table of 257 entries, of which the first and the last are `tp` and the
others unused, and a module `mod` whose table has the tracepoint `mtp`. -/
def twoTables : TpKernel where
  rawEvent addr :=
    if addr = 0x1000 then ⟨[0x74, 0x70], 0x200, 0⟩
    else if addr = 0x3000 then ⟨[0x74, 0x70], 0x300, 1⟩
    else if addr = 0x8000 then ⟨[0x6d, 0x74, 0x70], 0x400, 1⟩
    else ⟨[], 0, 0⟩
  rawEventSz := .ok 32
  listNext addr := if addr = 0x5000 then 0x6000 else 0x5000
  moduleOf _ := ⟨[0x6d, 0x6f, 0x64], 1, 0x8000⟩
  loadKernelModuleSpec _ := .ok (funcSpec ["bpf_mtp"])
  getKernelBTF := funcSpec ["bpf_old", "bpf_tp"]
  asFunc _ := asTpFunc
  rangeModules := id
  rangeModules_perm := List.Perm.refl

def tableSymbols : Kallsyms :=
  { ((Kallsyms.empty.addEntry 0x200 "bpf_old" "").addEntry 0x300 "bpf_tp" "").addEntry 0x400 "bpf_mtp" "mod" with
    bpfRawTpStart := 0x1000
    bpfRawTpStop := 0x3020
    bpfTraceModules := 0x5000 }

def oldInfo : TracepointInfo := ⟨"tp", "", 0x200, 0, ⟨"bpf_old", ⟨[⟨"data", .pointer .void⟩], .void⟩⟩⟩

/-- A tracepoint, as it is read. -/
def tpInfo (name fn : String) (sym : Word) : TracepointInfo :=
  ⟨name, "", sym, 1, ⟨fn, ⟨[⟨"data", .pointer .void⟩, ⟨"code", .int "long" 8 .signed⟩], .void⟩⟩⟩

/-- A tracepoint, as it is found. -/
def tracedTp (name : String) (btf : Spec) : KFunc where
  ksym := { addr := 0, name := name, mod := "", extra := [], duped := false }
  func := ⟨name, ⟨[⟨"code", .int "long" 8 .signed⟩], .void⟩⟩
  btf := btf
  prms := [{}]
  ret := {}
  insn := false
  flag := { stack := true }
  isTp := true

/-- One piece of a table. -/
theorem probeTracepoints_piece {K : TpKernel} {ksyms : Kallsyms} {spec : Spec} {size total : Nat}
    {tps tps' : TpTable} {start : Word} (hpos : total ≠ 0)
    (h : insertResolved (resolveTracepoint K ksyms spec) tps (probeTracepointInfos K start (min total tpMax)) =
      .ok tps') :
    probeTracepoints K ksyms spec size tps start total =
      probeTracepoints K ksyms spec size tps' (start + BitVec.ofNat 64 (size * min total tpMax))
        (total - min total tpMax) := by
  rw [probeTracepoints, if_neg hpos]
  simp only [h]

theorem probeTracepoints_end {K : TpKernel} {ksyms : Kallsyms} {spec : Spec} {size : Nat} (tps : TpTable)
    (start : Word) :
    probeTracepoints K ksyms spec size tps start 0 = .ok tps := by
  rw [probeTracepoints, if_pos rfl]

/-- The table of the kernel takes two pieces, and the later `tp` wins. -/
theorem twoTables_builtin :
    probeBuiltin twoTables tableSymbols = .ok (.insert "tp" (tpInfo "tp" "bpf_tp" 0x300) ∅) := by
  have hfirst : probeTracepointInfos twoTables 0x1000 (min 257 tpMax) = AList.insert "tp" (0x200, 0) ∅ :=
    AList.ext (by decide +kernel)
  have hlast : probeTracepointInfos twoTables 0x3000 (min 1 tpMax) = AList.insert "tp" (0x300, 1) ∅ :=
    AList.ext (by decide +kernel)
  have hpiece : probeTracepoints twoTables tableSymbols twoTables.getKernelBTF 32 ∅ 0x1000 257 =
      probeTracepoints twoTables tableSymbols twoTables.getKernelBTF 32 (.insert "tp" oldInfo ∅)
        0x3000 1 :=
    probeTracepoints_piece (by decide) (by rw [hfirst]; rfl)
  have hrest : probeTracepoints twoTables tableSymbols twoTables.getKernelBTF 32
      (.insert "tp" oldInfo ∅) 0x3000 1 = .ok (.insert "tp" (tpInfo "tp" "bpf_tp" 0x300) ∅) :=
    (probeTracepoints_piece (by decide) (by rw [hlast]; rfl)).trans (probeTracepoints_end ..)
  exact hpiece.trans hrest

/-- The module has a table of one entry. -/
theorem twoTables_modules : probeModules twoTables tableSymbols =
    .ok (.insert "mod" (.insert "mtp" (tpInfo "mtp" "bpf_mtp" 0x400) ∅) ∅) := by
  have hinfos : probeTracepointInfos twoTables 0x8000 (min 1 tpMax) = AList.insert "mtp" (0x400, 1) ∅ :=
    AList.ext (by decide +kernel)
  have htable : probeTracepoints twoTables tableSymbols (funcSpec ["bpf_mtp"]) 32 ∅
      0x8000 1 = .ok (.insert "mtp" (tpInfo "mtp" "bpf_mtp" 0x400) ∅) :=
    (probeTracepoints_piece (by decide) (by rw [hinfos]; rfl)).trans (probeTracepoints_end ..)
  have hmodule : probeModule twoTables tableSymbols 32 (probeModuleInfo (twoTables.moduleOf 0x6000)) =
      .ok (some ("mod", .insert "mtp" (tpInfo "mtp" "bpf_mtp" 0x400) ∅)) := by
    have hhas : HasTps twoTables (twoTables.moduleOf 0x6000) "mod" (funcSpec ["bpf_mtp"]) :=
      ⟨by decide, by decide, by decide +kernel, rfl⟩
    have hstart : (twoTables.moduleOf 0x6000).bpfRawEvents = 0x8000 := rfl
    have htotal : (twoTables.moduleOf 0x6000).numBpfRawEvents.toNat = 1 := rfl
    rw [probeModule_of_hasTps hhas, hstart, htotal, htable]
  have hwalk : walkModules twoTables 0x5000 tpModuleMax (twoTables.listNext 0x5000) =
      ([probeModuleInfo (twoTables.moduleOf 0x6000)], 0x5000) := rfl
  have heach : insertEach (probeModule twoTables tableSymbols 32) ∅ [probeModuleInfo (twoTables.moduleOf 0x6000)] =
      .ok (.insert "mod" (.insert "mtp" (tpInfo "mtp" "bpf_mtp" 0x400) ∅) ∅) := by
    simp only [insertEach, List.foldlM_cons, List.foldlM_nil, hmodule]
    rfl
  exact heach

theorem twoTables_read : probeAll twoTables tableSymbols =
    .ok (.insert "mtp" { tpInfo "mtp" "bpf_mtp" 0x400 with kmod := "mod" }
      (.insert "tp" (tpInfo "tp" "bpf_tp" 0x300) ∅)) := by
  rw [probeAll, twoTables_builtin, twoTables_modules]
  rfl

/-- The flags `(s)tp` and `(s)mtp` select the later `tp`, with `code`, and
the tracepoint of the module, with its BTF. -/
theorem twoTables_found : ∃ size nodes order ms tp mtp,
    Registered twoTables tableSymbols size nodes order "tp" tp ∧
      TpChosen namesSource twoTables ms "tp" tp (tracedTp "tp" (funcSpec ["bpf_old", "bpf_tp"])) ∧
    Registered twoTables tableSymbols size nodes order "mtp" mtp ∧
      TpChosen namesSource twoTables ms "mtp" mtp (tracedTp "mtp" (funcSpec ["bpf_mtp"])) := by
  have hfound : findKernelTracepoints namesSource twoTables tableSymbols exitMode 2 ["(s)tp", "(s)mtp"] =
      some (.ok (.insert "tp" (tracedTp "tp" (funcSpec ["bpf_old", "bpf_tp"]))
        (.insert "mtp" (tracedTp "mtp" (funcSpec ["bpf_mtp"])) ∅))) := by
    rw [findKernelTracepoints, if_neg (by decide), twoTables_read]
    rfl
  obtain ⟨size, nodes, order, ms, -, -, -, hiff⟩ := findKernelTracepoints_iff (by decide) hfound
  obtain ⟨tp, htp, hchosen⟩ := (hiff "tp" _).mp rfl
  obtain ⟨mtp, hmtp, hchosen'⟩ := (hiff "mtp" _).mp rfl
  exact ⟨size, nodes, order, ms, tp, mtp, htp, hchosen, hmtp, hchosen'⟩

end Bpfsnoop.Progs
