/-
Bpfsnoop.Progs.Requests — what becomes of the calls of `addTracing`.

A `Request` is a call: a loaded program, a function of it, and options.
The map of tracings keeps the first tracing of a key, and whether a request
makes a tracing at all depends on its key only (`tracing_isSome`). So after
any requests a key has the tracing of the first request for it
(`served_eq`).
-/
import Bpfsnoop.Progs.Tracings

namespace Bpfsnoop.Progs

open Ebpf CC Trace

/-- A call of `addTracing`, with the id of the program. -/
structure Request where
  prog : Program
  funcName : String
  flag : ProgFlagImmInfo

def Request.key (r : Request) : ProgramID × String := (r.prog.id, r.funcName)

section Requests

variable (K : Host)

/-- The tracing that a request makes. None is made of a program that cannot
be traced, unless it is disassembled, and of a subprogram that tail calls
may reach. -/
def Request.tracing (r : Request) : Option BpfTracingInfo :=
  if !canTrace K r.prog r.prog.id && !K.disasm then none
  else
    match r.prog.info with
    | .error _ => none
    | .ok info =>
      match newTracing K r.prog.id r.funcName r.prog r.flag info with
      | .error _ => none
      | .ok tracing => tracing

abbrev TracingMap := ProgramID × String → Option BpfTracingInfo

/-- The map behind a request. -/
def serve (tracings : TracingMap) (r : Request) : TracingMap :=
  fun key => (tracings key).or (if key = r.key then r.tracing K else none)

def served (tracings : TracingMap) (rs : List Request) : TracingMap := rs.foldl (serve K) tracings

variable {K}

/-! ## One request -/

theorem bind_ok {ε α β : Type} {x : Except ε α} {f : α → Except ε β} {b : β} :
    x >>= f = .ok b ↔ ∃ a, x = .ok a ∧ f a = .ok b := by
  cases x <;> simp [bind, Except.bind]

/-- `newTracing` behind the check for tail calls. -/
def builtTracing (K : Host) (funcName : String) (prog : Program) (flag : ProgFlagImmInfo)
    (fns : List BtfFunc) (lens : List (BitVec 32)) (addrs : List Word) (idx : Nat) :
    Except GoError (Option BpfTracingInfo) := do
  let fn ← sliceAt fns idx
  match getFuncParams K.heap K.isConstCharPtr fn.type with
  | .error e => .error (.wrapf "failed to get func params for %s: %w" [.text funcName] e)
  | .ok (params, ret) => do
    let jitedLen ← sliceAt lens idx
    let funcIP ← sliceAt addrs idx
    return some { prog, fn, jitedLen, funcIP, funcName, disAll := flag.funcName = "", flag, params, ret }

/-- The check for tail calls. -/
def unlessSkipped (K : Host) (id : ProgramID) (info : ProgramInfo) (idx : Nat)
    (tracing : Except GoError (Option BpfTracingInfo)) : Except GoError (Option BpfTracingInfo) :=
  if idx ≠ 0 ∧ K.tailcallIssue then
    match info.jitedInsns with
    | none => .error (.errorf "failed to get jited insns for %d" [.num (id.setWidth 64)])
    | some insns => if isTailcallReachable insns then .ok none else tracing
  else tracing

/-- `newTracing` fails with whatever options, or looks a function up and
goes on to the check. -/
theorem newTracing_eq (K : Host) (id : ProgramID) (funcName : String) (prog : Program)
    (info : ProgramInfo) :
    (∃ e, ∀ flag, newTracing K id funcName prog flag info = .error e) ∨
      ∃ fns lens addrs idx, info.funcInfos = .ok fns ∧ getProgFunc fns funcName = .ok idx ∧
        ∀ flag, newTracing K id funcName prog flag info
          = unlessSkipped K id info idx (builtTracing K funcName prog flag fns lens addrs idx) := by
  cases haddrs : info.jitedKsymAddrs with
  | none => exact .inl ⟨_, fun flag => by rw [newTracing, haddrs]⟩
  | some addrs =>
  cases hlens : info.jitedFuncLens with
  | none => exact .inl ⟨_, fun flag => by rw [newTracing, haddrs, hlens]⟩
  | some lens =>
  cases hfns : info.funcInfos with
  | error e => exact .inl ⟨_, fun flag => by rw [newTracing, haddrs, hlens, hfns]⟩
  | ok fns =>
  cases hidx : getProgFunc fns funcName with
  | error e =>
    refine .inl ⟨.wrapf "failed to get func for %s: %w" [.text funcName] e, fun flag => ?_⟩
    rw [newTracing, haddrs, hlens, hfns]
    simp only [hidx]
  | ok idx =>
    refine .inr ⟨fns, lens, addrs, idx, rfl, hidx, fun flag => ?_⟩
    rw [newTracing, haddrs, hlens, hfns]
    simp only [hidx]
    rfl

theorem builtTracing_isSome {funcName : String} {prog : Program} {flag : ProgFlagImmInfo}
    {fns : List BtfFunc} {lens : List (BitVec 32)} {addrs : List Word} {idx : Nat}
    {tracing : Option BpfTracingInfo}
    (h : builtTracing K funcName prog flag fns lens addrs idx = .ok tracing) :
    tracing.isSome = true := by
  obtain ⟨fn, -, h⟩ := bind_ok.mp h
  split at h
  · cases h
  · obtain ⟨jitedLen, -, h⟩ := bind_ok.mp h
    obtain ⟨funcIP, -, h⟩ := bind_ok.mp h
    cases h
    rfl

/-- A tracing with other options. -/
def BpfTracingInfo.withFlag (flag : ProgFlagImmInfo) (t : BpfTracingInfo) : BpfTracingInfo :=
  { t with flag, disAll := flag.funcName = "" }

theorem builtTracing_flag (funcName : String) (prog : Program) (flag flag' : ProgFlagImmInfo)
    (fns : List BtfFunc) (lens : List (BitVec 32)) (addrs : List Word) (idx : Nat) :
    builtTracing K funcName prog flag fns lens addrs idx
      = (builtTracing K funcName prog flag' fns lens addrs idx).map
          (Option.map (BpfTracingInfo.withFlag flag)) := by
  unfold builtTracing
  simp only [bind, Except.bind]
  cases sliceAt fns idx with
  | error e => rfl
  | ok fn =>
  dsimp only
  cases getFuncParams K.heap K.isConstCharPtr fn.type with
  | error e => rfl
  | ok prms =>
  dsimp only
  cases sliceAt lens idx with
  | error e => rfl
  | ok jitedLen =>
  dsimp only
  cases sliceAt addrs idx with
  | error e => rfl
  | ok funcIP => rfl

theorem unlessSkipped_map (id : ProgramID) (info : ProgramInfo) (idx : Nat)
    (x : Except GoError (Option BpfTracingInfo)) (f : BpfTracingInfo → BpfTracingInfo) :
    unlessSkipped K id info idx (x.map (Option.map f))
      = (unlessSkipped K id info idx x).map (Option.map f) := by
  unfold unlessSkipped
  split
  · split
    · rfl
    · split <;> rfl
  · rfl

/-- The options are carried, and nothing depends on them. -/
theorem newTracing_flag (id : ProgramID) (funcName : String) (prog : Program)
    (flag flag' : ProgFlagImmInfo) (info : ProgramInfo) :
    newTracing K id funcName prog flag info
      = (newTracing K id funcName prog flag' info).map
          (Option.map (BpfTracingInfo.withFlag flag)) := by
  rcases newTracing_eq K id funcName prog info with ⟨e, he⟩ | ⟨fns, lens, addrs, idx, -, -, hnew⟩
  · rw [he, he]
    rfl
  · rw [hnew, hnew, builtTracing_flag funcName prog flag flag', unlessSkipped_map]

theorem getProgFunc_name {fns : List BtfFunc} {funcName : String} {idx : Nat} {fn : BtfFunc}
    (hidx : getProgFunc fns funcName = .ok idx) (hfn : sliceAt fns idx = .ok fn) :
    fn.name = funcName := by
  unfold getProgFunc at hidx
  split at hidx
  · rename_i i hi
    cases hidx
    unfold sliceAt at hfn
    split at hfn
    · rename_i a ha
      cases hfn
      obtain ⟨hlt, hname, -⟩ := List.findIdx?_eq_some_iff_getElem.mp hi
      obtain ⟨-, rfl⟩ := List.getElem?_eq_some_iff.mp ha
      simpa using hname
    · cases hfn
  · cases hidx

/-- A tracing of what a request is for, with its options. -/
structure TracingOf (r : Request) (t : BpfTracingInfo) : Prop where
  prog : t.prog = r.prog
  funcName : t.funcName = r.funcName
  fn : t.fn.name = r.funcName
  flag : t.flag = r.flag

theorem builtTracing_carries {funcName : String} {prog : Program} {flag : ProgFlagImmInfo}
    {fns : List BtfFunc} {lens : List (BitVec 32)} {addrs : List Word} {idx : Nat}
    {t : BpfTracingInfo} (hidx : getProgFunc fns funcName = .ok idx)
    (h : builtTracing K funcName prog flag fns lens addrs idx = .ok (some t)) :
    TracingOf ⟨prog, funcName, flag⟩ t := by
  obtain ⟨fn, hfn, h⟩ := bind_ok.mp h
  split at h
  · cases h
  · obtain ⟨jitedLen, -, h⟩ := bind_ok.mp h
    obtain ⟨funcIP, -, h⟩ := bind_ok.mp h
    cases h
    exact ⟨rfl, rfl, getProgFunc_name hidx hfn, rfl⟩

/-- The check lets a tracing through or leaves it out. -/
theorem unlessSkipped_ok {id : ProgramID} {info : ProgramInfo} {idx : Nat}
    {x : Except GoError (Option BpfTracingInfo)} {tracing : Option BpfTracingInfo}
    (h : unlessSkipped K id info idx x = .ok tracing) :
    (x = .ok tracing ∧ ∀ insns, idx ≠ 0 → K.tailcallIssue = true → info.jitedInsns = some insns →
        isTailcallReachable insns = false) ∨
      (tracing = none ∧ idx ≠ 0 ∧ K.tailcallIssue = true ∧
        ∃ insns, info.jitedInsns = some insns ∧ isTailcallReachable insns = true) := by
  unfold unlessSkipped at h
  split at h
  · rename_i hissue
    split at h
    · cases h
    · rename_i insns hinsns
      split at h
      · rename_i hreach
        cases h
        exact .inr ⟨rfl, hissue.1, hissue.2, insns, hinsns, hreach⟩
      · rename_i hreach
        refine .inl ⟨h, fun insns' _ _ hinsns' => ?_⟩
        rw [hinsns] at hinsns'
        cases hinsns'
        simpa using hreach
  · rename_i hissue
    exact .inl ⟨h, fun insns hidx htail _ => absurd ⟨hidx, htail⟩ hissue⟩

theorem newTracing_carries {id : ProgramID} {funcName : String} {prog : Program}
    {flag : ProgFlagImmInfo} {info : ProgramInfo} {t : BpfTracingInfo}
    (h : newTracing K id funcName prog flag info = .ok (some t)) :
    TracingOf ⟨prog, funcName, flag⟩ t := by
  rcases newTracing_eq K id funcName prog info with
    ⟨e, he⟩ | ⟨fns, lens, addrs, idx, -, hidx, hnew⟩
  · rw [he] at h
    cases h
  · rw [hnew] at h
    rcases unlessSkipped_ok h with ⟨hbuilt, -⟩ | ⟨hnone, -⟩
    · exact builtTracing_carries hidx hbuilt
    · cases hnone

/-- A tracing carries the options of its request. -/
theorem Request.tracing_carries {r : Request} {t : BpfTracingInfo} (h : r.tracing K = some t) :
    TracingOf r t := by
  unfold Request.tracing at h
  split at h
  · cases h
  split at h
  · cases h
  split at h
  · cases h
  · rename_i tracing hnew
    subst h
    exact newTracing_carries hnew

theorem tracing_flag (prog : Program) (funcName : String) (flag flag' : ProgFlagImmInfo) :
    Request.tracing K ⟨prog, funcName, flag⟩
      = (Request.tracing K ⟨prog, funcName, flag'⟩).map (BpfTracingInfo.withFlag flag) := by
  unfold Request.tracing
  split
  · rfl
  · cases prog.info with
    | error e => rfl
    | ok info =>
      dsimp only
      rw [newTracing_flag prog.id funcName prog flag flag']
      cases newTracing K prog.id funcName prog flag' info <;> rfl

/-- Whether there is one does not depend on the options. -/
theorem tracing_isSome (prog : Program) (funcName : String) (flag flag' : ProgFlagImmInfo) :
    (Request.tracing K ⟨prog, funcName, flag⟩).isSome
      = (Request.tracing K ⟨prog, funcName, flag'⟩).isSome := by
  rw [tracing_flag prog funcName flag flag', Option.isSome_map]

/-- A subprogram is left out where the kernel has the problem with tail
calls and the program may be reached by one. -/
def TailcallSkipped (K : Host) (info : ProgramInfo) (funcName : String) : Prop :=
  ∃ fns idx insns, info.funcInfos = .ok fns ∧ getProgFunc fns funcName = .ok idx ∧ idx ≠ 0 ∧
    K.tailcallIssue = true ∧ info.jitedInsns = some insns ∧ isTailcallReachable insns = true

/-- The functions that tracings are made of. -/
def Traceable (K : Host) (prog : Program) (funcName : String) : Prop :=
  (canTrace K prog prog.id = true ∨ K.disasm = true) ∧
    ∀ info, prog.info = .ok info → ¬ TailcallSkipped K info funcName

/-- Where `newTracing` does not fail, it makes a tracing but of those. -/
theorem newTracing_isSome {id : ProgramID} {funcName : String} {prog : Program}
    {flag : ProgFlagImmInfo} {info : ProgramInfo} {tracing : Option BpfTracingInfo}
    (h : newTracing K id funcName prog flag info = .ok tracing) :
    tracing.isSome = true ↔ ¬ TailcallSkipped K info funcName := by
  rcases newTracing_eq K id funcName prog info with
    ⟨e, he⟩ | ⟨fns, lens, addrs, idx, hfns, hidx, hnew⟩
  · rw [he] at h
    cases h
  · rw [hnew] at h
    rcases unlessSkipped_ok h with ⟨hbuilt, hreach⟩ | ⟨rfl, hne, hissue, insns, hinsns, hreach⟩
    · refine iff_of_true (builtTracing_isSome hbuilt) ?_
      rintro ⟨fns', idx', insns, hfns', hidx', hne, hissue, hinsns, htrue⟩
      rw [hfns] at hfns'
      cases hfns'
      rw [hidx] at hidx'
      cases hidx'
      rw [hreach insns hne hissue hinsns] at htrue
      cases htrue
    · refine iff_of_false nofun (not_not_intro ?_)
      exact ⟨fns, idx, insns, hfns, hidx, hne, hissue, hinsns, hreach⟩

theorem traceable_of_isSome {r : Request} (h : (r.tracing K).isSome = true) :
    Traceable K r.prog r.funcName := by
  unfold Request.tracing at h
  split at h
  · cases h
  rename_i htrace
  refine ⟨?_, ?_⟩
  · simpa [or_iff_not_imp_left] using htrace
  · intro info hinfo
    rw [hinfo] at h
    simp only at h
    split at h
    · cases h
    · rename_i tracing hnew
      exact (newTracing_isSome hnew).mp h

/-- A request whose tracing is made if it can be. -/
def Made (K : Host) (r : Request) : Prop :=
  Traceable K r.prog r.funcName → (r.tracing K).isSome = true

/-! ## The state -/

/-- Programs of one id are one program. -/
theorem program_unique {g g' : Program} (hg : g ∈ K.programs) (hg' : g' ∈ K.programs)
    (hid : g.id = g'.id) : g = g' :=
  List.inj_on_of_nodup_map K.apart hg hg' hid

/-- The tables hold loaded programs, with what they report. -/
structure Sourced (K : Host) (p : BpfProgs) : Prop where
  progs : ∀ id g, p.progs id = some g → g ∈ K.programs ∧ g.id = id
  infos : ∀ id info, p.infos id = some info → ∃ g ∈ K.programs, g.id = id ∧ g.info = .ok info

theorem sourced_empty : Sourced K .empty where
  progs id g h := by cases h
  infos id info h := by cases h

/-- The info that `addTracing` works with is the one the program reports. -/
theorem Sourced.info {p : BpfProgs} (hp : Sourced K p) {g : Program} (hg : g ∈ K.programs)
    {info : ProgramInfo} (h : p.infos g.id = some info) : g.info = .ok info := by
  obtain ⟨g', hg', hid, hinfo⟩ := hp.infos g.id info h
  rw [← program_unique hg' hg hid]
  exact hinfo

/-- A program entered with what it reports. -/
theorem Sourced.update {p : BpfProgs} (hp : Sourced K p) {g : Program} (hg : g ∈ K.programs)
    {info : ProgramInfo} (hinfo : g.info = .ok info) (tracings : TracingMap) :
    Sourced K {
      progs := Function.update p.progs g.id (some g)
      infos := Function.update p.infos g.id (some info)
      tracings } where
  progs id g' h := by
    dsimp only at h
    by_cases hid : id = g.id
    · rw [hid, Function.update_self] at h
      cases h
      exact ⟨hg, hid.symm⟩
    · rw [Function.update_of_ne hid] at h
      exact hp.progs id g' h
  infos id info' h := by
    dsimp only at h
    by_cases hid : id = g.id
    · rw [hid, Function.update_self] at h
      cases h
      exact ⟨g, hg, hid.symm, hinfo⟩
    · rw [Function.update_of_ne hid] at h
      exact hp.infos id info' h

/-- `addTracing` from the info on. -/
def enter (K : Host) (r : Request) (info : ProgramInfo) (p : BpfProgs) : Except GoError BpfProgs := do
  match ← newTracing K r.prog.id r.funcName r.prog r.flag info with
  | none => return p
  | some tracing =>
    match p.progs r.prog.id with
    | some prev =>
      return { p with tracings := Function.update p.tracings r.key (some { tracing with prog := prev }) }
    | none =>
      match r.prog.clone with
      | .error e => .error (.wrapf "failed to clone prog %d: %w" [.num (r.prog.id.setWidth 64)] e)
      | .ok () =>
        return {
          progs := Function.update p.progs r.prog.id (some r.prog)
          infos := Function.update p.infos r.prog.id (some info)
          tracings := Function.update p.tracings r.key (some tracing) }

theorem addTracing_eq (r : Request) (p : BpfProgs) :
    addTracing K r.prog.id r.funcName r.prog r.flag p =
      if !canTrace K r.prog r.prog.id && !K.disasm then .ok p
      else if (p.tracings r.key).isSome then .ok p
      else
        match p.infos r.prog.id with
        | some info => enter K r info p
        | none =>
          match r.prog.info with
          | .ok info => enter K r info p
          | .error e => .error (.wrapf "failed to get info for %d: %w" [.num (r.prog.id.setWidth 64)] e) := by
  rw [addTracing, Request.key]
  split
  · rfl
  split
  · rfl
  cases p.infos r.prog.id with
  | some info => rfl
  | none => cases r.prog.info <;> rfl

/-- A tracing entered where there is none. -/
theorem update_eq_serve {p : BpfProgs} {r : Request} {t : BpfTracingInfo}
    (hmade : r.tracing K = some t) (hnew : p.tracings r.key = none) :
    Function.update p.tracings r.key (some t) = serve K p.tracings r := by
  funext key
  rw [serve, hmade]
  by_cases hkey : key = r.key
  · rw [hkey, Function.update_self, hnew, if_pos rfl, Option.none_or]
  · rw [Function.update_of_ne hkey, if_neg hkey, Option.or_none]

theorem enter_ok {r : Request} (hr : r.prog ∈ K.programs) {p p' : BpfProgs} (hp : Sourced K p)
    {info : ProgramInfo} (hinfo : r.prog.info = .ok info)
    (htraceable : ¬ (!canTrace K r.prog r.prog.id && !K.disasm) = true)
    (hnew : p.tracings r.key = none) (h : enter K r info p = .ok p') :
    Sourced K p' ∧ p'.tracings = serve K p.tracings r ∧ Made K r := by
  obtain ⟨tracing, htracing, h⟩ := bind_ok.mp h
  have hmade : r.tracing K = tracing := by
    rw [Request.tracing, if_neg htraceable, hinfo]
    simp only [htracing]
  have hall : Made K r := by
    intro ht
    rw [hmade]
    exact (newTracing_isSome htracing).mpr (ht.2 info hinfo)
  cases tracing with
  | none =>
    cases h
    refine ⟨hp, ?_, hall⟩
    funext key
    rw [serve, hmade, ite_self, Option.or_none]
  | some t =>
    dsimp only at h
    split at h
    · rename_i prev hprev
      cases h
      obtain ⟨hprev, hid⟩ := hp.progs _ _ hprev
      have hsame : prev = t.prog := by
        rw [program_unique hprev hr hid, (r.tracing_carries hmade).prog]
      subst hsame
      exact ⟨⟨hp.progs, hp.infos⟩, update_eq_serve hmade hnew, hall⟩
    · split at h
      · cases h
      · cases h
        exact ⟨hp.update hr hinfo _, update_eq_serve hmade hnew, hall⟩

/-- **One call of `addTracing`.** Where it succeeds on a new key, it has made
a tracing of what is traceable. -/
theorem addTracing_ok {r : Request} (hr : r.prog ∈ K.programs) {p p' : BpfProgs}
    (hp : Sourced K p) (h : addTracing K r.prog.id r.funcName r.prog r.flag p = .ok p') :
    Sourced K p' ∧ p'.tracings = serve K p.tracings r ∧
      (p.tracings r.key = none → Made K r) := by
  have hkept : r.tracing K = none ∨ (p.tracings r.key).isSome = true →
      p.tracings = serve K p.tracings r := by
    intro hnone
    funext key
    unfold serve
    split
    · rename_i hkey
      rcases hnone with hnone | hsome
      · rw [hnone, Option.or_none]
      · obtain ⟨t, ht⟩ := Option.isSome_iff_exists.mp hsome
        rw [hkey, ht]
        rfl
    · rw [Option.or_none]
  rw [addTracing_eq] at h
  split at h
  · rename_i hskip
    cases h
    refine ⟨hp, hkept (.inl (by rw [Request.tracing, if_pos hskip])), fun _ ht => ?_⟩
    exact absurd ht.1 (by simpa using hskip)
  rename_i hskip
  split at h
  · rename_i hsome
    cases h
    exact ⟨hp, hkept (.inr hsome), fun hnone => by simp [hnone] at hsome⟩
  rename_i hnew
  have hnone : p.tracings r.key = none := by simpa using hnew
  split at h
  · rename_i info hinfo
    obtain ⟨hp', ht, hmade⟩ := enter_ok hr hp (hp.info hr hinfo) hskip hnone h
    exact ⟨hp', ht, fun _ => hmade⟩
  · split at h
    · rename_i info hinfo
      obtain ⟨hp', ht, hmade⟩ := enter_ok hr hp hinfo hskip hnone h
      exact ⟨hp', ht, fun _ => hmade⟩
    · cases h

/-! ## Many requests -/

/-- Requests for one key make a tracing or make none. -/
theorem tracing_isSome_of_key {r r' : Request} (hr : r.prog ∈ K.programs) (hr' : r'.prog ∈ K.programs)
    (hkey : r.key = r'.key) : (r.tracing K).isSome = (r'.tracing K).isSome := by
  obtain ⟨g, funcName, flag⟩ := r
  obtain ⟨g', funcName', flag'⟩ := r'
  obtain rfl := program_unique hr hr' (congrArg Prod.fst hkey)
  obtain rfl : funcName = funcName' := congrArg Prod.snd hkey
  exact tracing_isSome g funcName flag flag'

theorem served_append (tracings : TracingMap) (rs rs' : List Request) :
    served K tracings (rs ++ rs') = served K (served K tracings rs) rs' := List.foldl_append

/-- **The first request for a key decides.** -/
theorem served_eq {rs : List Request} (hrs : ∀ r ∈ rs, r.prog ∈ K.programs) (tracings : TracingMap)
    (key : ProgramID × String) :
    served K tracings rs key
      = (tracings key).or ((rs.find? fun r => r.key = key).bind (Request.tracing K)) := by
  induction rs generalizing tracings with
  | nil => simp [served]
  | cons r rs ih =>
    have hrest := ih (fun r' hr' => hrs r' (List.mem_cons_of_mem _ hr')) (serve K tracings r)
    have hserved : served K tracings (r :: rs) = served K (serve K tracings r) rs := rfl
    rw [hserved, hrest, serve, Option.or_assoc]
    congr 1
    by_cases hkey : key = r.key
    · subst hkey
      rw [if_pos rfl, List.find?_cons_of_pos (by simp), Option.bind_some]
      cases hmade : r.tracing K with
      | some t => rfl
      | none =>
        rw [Option.none_or, Option.bind_eq_none_iff]
        intro r' hr'
        -- another request for the key is for the same function of the same program
        have hsame : r'.key = r.key := by simpa using List.find?_some hr'
        have hmem := List.mem_cons_of_mem r (List.mem_of_find?_eq_some hr')
        have hisSome := tracing_isSome_of_key (hrs r' hmem) (hrs r List.mem_cons_self) hsame
        rw [hmade] at hisSome
        simpa using hisSome
    · rw [if_neg hkey, Option.none_or, List.find?_cons_of_neg (by simpa using Ne.symm hkey)]

end Requests

end Bpfsnoop.Progs
