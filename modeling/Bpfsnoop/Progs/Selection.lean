/-
Bpfsnoop.Progs.Selection — the two paths of `prepareProgInfos`.

Either path comes down to a list of requests. The path by ids asks flag by
flag (`idRequests`). The other one first asks for pinned files and
processes (`directRequests`), and then for each program what the last flag
of its id, the last of its tag and the last of its entry function want, or
what `*` wants (`mapRequests`): its maps keep one flag for a key, and the
options they keep lack the packet option.
-/
import Bpfsnoop.Progs.ProgFlags
import Bpfsnoop.Progs.Requests

namespace Bpfsnoop.Progs

open Ebpf CC

/-! ## What the flags ask for -/

/-- The entry function of a program, where it has one. -/
def entryOf (g : Program) : String :=
  match g.info with
  | .error _ => ""
  | .ok info =>
    match getProgEntryFuncName info with
    | .error _ => ""
    | .ok name => name

/-- The function that a flag names: the entry function, or one by name. -/
def funcNameOf (funcName : String) (g : Program) : String :=
  if funcName = "" then entryOf g else funcName

/-- The last flag with a property. -/
def lastFlag (pflags : List ProgFlag) (P : ProgFlag → Bool) : Option ProgFlag := pflags.reverse.find? P

section Requests

variable (K : Host)

/-- The request for a program by its id, if it is loaded. -/
def requestByID (id : ProgramID) (flag : ProgFlagImmInfo) : List Request :=
  ((K.programs.find? (·.id = id)).map fun g => ⟨g, funcNameOf flag.funcName g, flag⟩).toList

/-- The requests of the path by ids. -/
def idRequests (pflags : List ProgFlag) : List Request :=
  pflags.flatMap fun f => requestByID K f.progID f.toProgFlagImmInfo

/-- The request for a program that a process holds. -/
def requestByFd (flag : ProgFlagImmInfo) : Except GoError ProgramID → List Request
  | .error _ => []
  | .ok id => requestByID K id flag

/-- The requests for pinned files and processes. -/
def directRequests (f : ProgFlag) : List Request :=
  match f.descriptor with
  | .pinned =>
    match K.pinned f.pinned with
    | .error _ => []
    | .ok g => [⟨g, funcNameOf f.funcName g, f.toProgFlagImmInfo⟩]
  | .pid => (K.procFds f.pid).flatMap (requestByFd K f.toProgFlagImmInfo)
  | _ => []

/-- Whether a descriptor of a process is a program. -/
def fdIs (g : Program) : Except GoError ProgramID → Bool
  | .error _ => false
  | .ok id => id = g.id

/-- Whether a flag means a program. -/
def selects (f : ProgFlag) (g : Program) : Bool :=
  match f.descriptor with
  | .id => f.progID = g.id
  | .tag =>
    match g.info with
    | .error _ => false
    | .ok info => f.tag = info.tag
  | .name => f.name = entryOf g
  | .pinned =>
    match K.pinned f.pinned with
    | .error _ => false
    | .ok g' => g'.id = g.id
  | .pid => (K.procFds f.pid).any (fdIs g)
  | .empty => false

/-- The last flag of a kind that means a program. -/
def lastSelecting (pflags : List ProgFlag) (kind : ProgFlagDescriptor) (g : Program) :
    Option ProgFlag :=
  lastFlag pflags fun f => f.descriptor = kind ∧ selects K f g

/-- The flags of the maps that a program is looked up with. -/
def mapFlags (pflags : List ProgFlag) (g : Program) : List ProgFlag :=
  (lastSelecting K pflags .id g).toList ++
    ((lastSelecting K pflags .tag g).toList ++ (lastSelecting K pflags .name g).toList)

/-- The requests for a program through the maps. -/
def mapRequests (pflags : List ProgFlag) (g : Program) : List Request :=
  match g.info with
  | .error _ => []
  | .ok info =>
    if !info.btfID then []
    else
      match pflags.find? (·.all) with
      | some f => [⟨g, entryOf g, f.imm⟩]
      | none => (mapFlags K pflags g).map fun f => ⟨g, funcNameOf f.funcName g, f.imm⟩

/-- The requests of the other path. -/
def otherRequests (pflags : List ProgFlag) : List Request :=
  pflags.flatMap (directRequests K) ++ K.programs.flatMap (mapRequests K pflags)

/-- The requests of `prepareProgInfos`. -/
def requests (pflags : List ProgFlag) : List Request :=
  if (newProgFlags pflags).allID then idRequests K pflags else otherRequests K pflags

end Requests

/-! ## Steps that ask -/

section Asks

variable {K : Host}

/-- A step that, where it succeeds, has made these requests. -/
def Asks (K : Host) (x : BpfProgs → Except GoError BpfProgs) (rs : List Request) : Prop :=
  ∀ p p', Sourced K p → x p = .ok p' →
    (∀ r ∈ rs, r.prog ∈ K.programs) ∧ Sourced K p' ∧ p'.tracings = served K p.tracings rs ∧
      ∀ r ∈ rs, p.tracings r.key = none → Made K r

theorem asks_ok : Asks K (fun p => .ok p) [] := by
  intro p p' hp h
  cases h
  exact ⟨by simp, hp, rfl, by simp⟩

theorem asks_error (e : GoError) (rs : List Request) : Asks K (fun _ => .error e) rs := by
  intro p p' _ h
  cases h

theorem asks_addTracing {g : Program} (hg : g ∈ K.programs) (funcName : String)
    (flag : ProgFlagImmInfo) :
    Asks K (addTracing K g.id funcName g flag) [⟨g, funcName, flag⟩] := by
  intro p p' hp h
  obtain ⟨hp', ht, hmade⟩ := addTracing_ok (r := ⟨g, funcName, flag⟩) hg hp h
  refine ⟨?_, hp', ht, ?_⟩
  · intro r hr
    obtain rfl := List.mem_singleton.mp hr
    exact hg
  · intro r hr
    obtain rfl := List.mem_singleton.mp hr
    exact hmade

/-- What is looked up first asks for nothing. -/
theorem Asks.lookup {α : Type} {m : Except GoError α} {f : α → BpfProgs → Except GoError BpfProgs}
    {rs : List Request} (h : ∀ a, m = .ok a → Asks K (f a) rs) :
    Asks K (fun p => m >>= fun a => f a p) rs := by
  intro p p' hp hok
  obtain ⟨a, ha, hok⟩ := bind_ok.mp hok
  exact h a ha p p' hp hok

theorem Asks.bind {x y : BpfProgs → Except GoError BpfProgs} {rs rs' : List Request}
    (hx : Asks K x rs) (hy : Asks K y rs') : Asks K (fun p => x p >>= y) (rs ++ rs') := by
  intro p p' hp hok
  obtain ⟨p₁, hx₁, hy₁⟩ := bind_ok.mp hok
  obtain ⟨hrs, hp₁, ht₁, hmade⟩ := hx p p₁ hp hx₁
  obtain ⟨hrs', hp', ht', hmade'⟩ := hy p₁ p' hp₁ hy₁
  have hall : ∀ r ∈ rs ++ rs', r.prog ∈ K.programs := by
    intro r hr
    exact (List.mem_append.mp hr).elim (hrs r) (hrs' r)
  refine ⟨hall, hp', by rw [ht', ht₁, served_append], ?_⟩
  intro r hr hnone
  rcases List.mem_append.mp hr with hr | hr
  · exact hmade r hr hnone
  · -- the first part may have served the key already
    cases hkey : p₁.tracings r.key with
    | none => exact hmade' r hr hkey
    | some t =>
      intro _
      rw [ht₁, served_eq hrs, hnone, Option.none_or, Option.bind_eq_some_iff] at hkey
      obtain ⟨r₁, hfind, hr₁⟩ := hkey
      have hsame : r₁.key = r.key := by simpa using List.find?_some hfind
      rw [tracing_isSome_of_key (hrs' r hr) (hrs r₁ (List.mem_of_find?_eq_some hfind)) hsame.symm,
        hr₁]
      rfl

theorem asks_foldlM {α : Type} {l : List α} {step : BpfProgs → α → Except GoError BpfProgs}
    {rs : α → List Request} (h : ∀ a ∈ l, Asks K (fun p => step p a) (rs a)) :
    Asks K (fun p => l.foldlM step p) (l.flatMap rs) := by
  induction l with
  | nil => exact asks_ok
  | cons a l ih =>
    have htail := ih fun b hb => h b (List.mem_cons_of_mem _ hb)
    exact (h a List.mem_cons_self).bind htail

/-! ## Flag by flag -/

theorem wrapErr_ok {α : Type} {format : String} {args : List ErrArg} {x : Except GoError α} {a : α} :
    wrapErr format args x = .ok a ↔ x = .ok a := by
  cases x <;> simp [wrapErr]

theorem newProgramFromID_ok {id : ProgramID} {g : Program} (h : K.newProgramFromID id = .ok g) :
    K.programs.find? (·.id = id) = some g ∧ g ∈ K.programs ∧ g.id = id := by
  unfold Host.newProgramFromID at h
  split at h
  · rename_i g' hfind
    cases h
    exact ⟨hfind, List.mem_of_find?_eq_some hfind, by simpa using List.find?_some hfind⟩
  · cases h

theorem requestByID_eq {id : ProgramID} {g : Program} (h : K.newProgramFromID id = .ok g)
    (flag : ProgFlagImmInfo) :
    requestByID K id flag = [⟨g, funcNameOf flag.funcName g, flag⟩] := by
  rw [requestByID, (newProgramFromID_ok h).1]
  rfl

theorem entryOf_eq {g : Program} {info : ProgramInfo} (hinfo : g.info = .ok info) {name : String}
    (hname : getProgEntryFuncName info = .ok name) : entryOf g = name := by
  simp only [entryOf, hinfo, hname]

theorem funcNameOf_eq {g : Program} {info : ProgramInfo} (hinfo : g.info = .ok info)
    {funcName name : String} (hname : getProgFuncName funcName info = .ok name) :
    funcNameOf funcName g = name := by
  unfold getProgFuncName at hname
  unfold funcNameOf
  split at hname
  · rename_i hne
    cases hname
    rw [if_neg hne]
  · rename_i hempty
    rw [if_pos (by simpa using hempty), entryOf_eq hinfo hname]

theorem asks_byID (id : ProgramID) (flag : ProgFlagImmInfo) :
    Asks K (prepareProgInfoByID K id flag) (requestByID K id flag) := by
  apply Asks.lookup
  intro g hg
  have hload := wrapErr_ok.mp hg
  rw [requestByID_eq hload]
  obtain ⟨-, hmem, rfl⟩ := newProgramFromID_ok hload
  by_cases hempty : flag.funcName = ""
  · simp only [if_pos hempty]
    apply Asks.lookup
    intro info hinfo
    apply Asks.lookup
    intro name hname
    rw [funcNameOf, if_pos hempty, entryOf_eq (wrapErr_ok.mp hinfo) (wrapErr_ok.mp hname)]
    exact asks_addTracing hmem name flag
  · simp only [if_neg hempty, funcNameOf, pure_bind]
    exact asks_addTracing hmem flag.funcName flag

theorem asks_byIDs (pflags : List ProgFlag) :
    Asks K (prepareProgInfosByIDs K pflags) (idRequests K pflags) :=
  asks_foldlM fun f _ => asks_byID f.progID f.toProgFlagImmInfo

/-! ## Pinned files and processes -/

theorem asks_byPinnedPath (f : ProgFlag) (hf : f.descriptor = .pinned) :
    Asks K (prepareProgInfoByPinnedPath K f) (directRequests K f) := by
  apply Asks.lookup
  intro g hg
  apply Asks.lookup
  intro info hinfo
  apply Asks.lookup
  intro name hname
  have hload := wrapErr_ok.mp hg
  have hreport := wrapErr_ok.mp hinfo
  have hreq : directRequests K f = [⟨g, name, f.toProgFlagImmInfo⟩] := by
    simp only [directRequests, hf, hload, funcNameOf_eq hreport (wrapErr_ok.mp hname)]
  rw [hreq]
  by_cases hid : info.id = 0
  · simp only [if_pos hid]
    exact asks_error _ _
  · have hsame := (g.reports info hreport).resolve_right hid
    rw [hsame] at hid
    simp only [hsame, if_neg hid]
    exact asks_addTracing (K.pinned_loaded f.pinned g hload) name f.toProgFlagImmInfo

theorem asks_addProgByID (id : ProgramID) (f : ProgFlag) :
    Asks K (addProgByID K id f) (requestByID K id f.toProgFlagImmInfo) := by
  apply Asks.lookup
  intro g hg
  apply Asks.lookup
  intro info hinfo
  apply Asks.lookup
  intro name hname
  have hload := wrapErr_ok.mp hg
  rw [requestByID_eq hload, funcNameOf_eq (wrapErr_ok.mp hinfo) (wrapErr_ok.mp hname)]
  obtain ⟨-, hmem, rfl⟩ := newProgramFromID_ok hload
  exact asks_addTracing hmem name f.toProgFlagImmInfo

theorem asks_direct (f : ProgFlag) : Asks K (prepareProgInfoDirect K f) (directRequests K f) := by
  unfold prepareProgInfoDirect
  split
  · rename_i hf
    exact asks_byPinnedPath f hf
  · rename_i hf
    simp only [directRequests, hf]
    apply asks_foldlM
    intro fd _
    apply Asks.lookup
    intro id hid
    rw [hid]
    exact asks_addProgByID id f
  · rename_i hpinned hpid
    have hnone : directRequests K f = [] := by
      unfold directRequests
      split
      · contradiction
      · contradiction
      · rfl
    rw [hnone]
    exact asks_ok

/-! ## The maps -/

theorem lastFlag_cons (f : ProgFlag) (fs : List ProgFlag) (P : ProgFlag → Bool) :
    lastFlag (f :: fs) P = (lastFlag fs P).or (if P f then some f else none) := by
  rw [lastFlag, List.reverse_cons, List.find?_append, lastFlag]
  congr 1
  by_cases hP : P f = true <;> simp [hP]

/-- **A map keeps the last flag of a key.** `sel` is one of the maps, with
the descriptor and the key of its flags. -/
theorem lookup_putAll {κ : Type} [DecidableEq κ] {sel : ProgFlags → FlagMap κ}
    {desc : ProgFlagDescriptor} {keyOf : ProgFlag → κ}
    (hput : ∀ pf f, sel (pf.put f)
      = if f.descriptor = desc then (sel pf).insert (keyOf f) f.imm else sel pf) (k : κ)
    {fs : List ProgFlag} (hall : fs.find? (·.all) = none) (pf : ProgFlags) :
    (sel (pf.putAll fs)).lookup k
      = ((lastFlag fs fun f => f.descriptor = desc ∧ keyOf f = k).map ProgFlag.imm).or
          ((sel pf).lookup k) := by
  induction fs generalizing pf with
  | nil => rfl
  | cons f fs ih =>
    have hnot : f.all = false := by
      simpa using List.find?_eq_none.mp hall f List.mem_cons_self
    have hrest : fs.find? (·.all) = none := by
      simpa [List.find?_cons, hnot] using hall
    rw [ProgFlags.putAll, if_neg (by simp [hnot]), ih hrest, hput, lastFlag_cons, Option.map_or,
      Option.or_assoc]
    congr 1
    by_cases hdesc : f.descriptor = desc
    · by_cases hk : keyOf f = k
      · subst hk
        simp [hdesc, AList.lookup_insert]
      · simp [hdesc, hk, AList.lookup_insert_ne (Ne.symm hk)]
    · simp [hdesc]

theorem put_ids (pf : ProgFlags) (f : ProgFlag) :
    (pf.put f).ids
      = if f.descriptor = .id then pf.ids.insert f.progID f.imm else pf.ids := by
  unfold ProgFlags.put
  cases f.descriptor <;> rfl

theorem put_tags (pf : ProgFlags) (f : ProgFlag) :
    (pf.put f).tags
      = if f.descriptor = .tag then pf.tags.insert f.tag f.imm else pf.tags := by
  unfold ProgFlags.put
  cases f.descriptor <;> rfl

theorem put_names (pf : ProgFlags) (f : ProgFlag) :
    (pf.put f).names
      = if f.descriptor = .name then pf.names.insert f.name f.imm else pf.names := by
  unfold ProgFlags.put
  cases f.descriptor <;> rfl

theorem put_pinnedPaths (pf : ProgFlags) (f : ProgFlag) :
    (pf.put f).pinnedPaths
      = if f.descriptor = .pinned then pf.pinnedPaths.insert f.pinned f.imm else pf.pinnedPaths := by
  unfold ProgFlags.put
  cases f.descriptor <;> rfl

theorem put_pids (pf : ProgFlags) (f : ProgFlag) :
    (pf.put f).pids
      = if f.descriptor = .pid then pf.pids.insert f.pid f.imm else pf.pids := by
  unfold ProgFlags.put
  cases f.descriptor <;> rfl

theorem newProgFlags_ids {fs : List ProgFlag} (hall : fs.find? (·.all) = none) (id : ProgramID) :
    (newProgFlags fs).ids.lookup id
      = (lastFlag fs fun f => f.descriptor = .id ∧ f.progID = id).map ProgFlag.imm := by
  rw [newProgFlags, lookup_putAll put_ids id hall, AList.lookup_empty, Option.or_none]

theorem newProgFlags_tags {fs : List ProgFlag} (hall : fs.find? (·.all) = none) (tag : String) :
    (newProgFlags fs).tags.lookup tag
      = (lastFlag fs fun f => f.descriptor = .tag ∧ f.tag = tag).map ProgFlag.imm := by
  rw [newProgFlags, lookup_putAll put_tags tag hall, AList.lookup_empty, Option.or_none]

theorem newProgFlags_names {fs : List ProgFlag} (hall : fs.find? (·.all) = none) (name : String) :
    (newProgFlags fs).names.lookup name
      = (lastFlag fs fun f => f.descriptor = .name ∧ f.name = name).map ProgFlag.imm := by
  rw [newProgFlags, lookup_putAll put_names name hall, AList.lookup_empty, Option.or_none]

/-- A map without keys has been given no flag. -/
theorem descriptor_ne_of_empty {κ : Type} [DecidableEq κ] {sel : ProgFlags → FlagMap κ}
    {desc : ProgFlagDescriptor} {keyOf : ProgFlag → κ}
    (hput : ∀ pf f, sel (pf.put f)
      = if f.descriptor = desc then (sel pf).insert (keyOf f) f.imm else sel pf)
    {fs : List ProgFlag} (hall : fs.find? (·.all) = none)
    (hempty : (sel (newProgFlags fs)).keys.length = 0) {f : ProgFlag} (hf : f ∈ fs) :
    f.descriptor ≠ desc := by
  intro hdesc
  have hlast : (lastFlag fs fun f' => f'.descriptor = desc ∧ keyOf f' = keyOf f).isSome = true := by
    rw [lastFlag, List.find?_isSome]
    exact ⟨f, List.mem_reverse.mpr hf, by simp [hdesc]⟩
  have hlookup : ((sel (newProgFlags fs)).lookup (keyOf f)).isSome = true := by
    rw [newProgFlags, lookup_putAll hput _ hall, Option.isSome_or, Option.isSome_map, hlast,
      Bool.true_or]
  have hkey : keyOf f ∈ (sel (newProgFlags fs)).keys :=
    AList.mem_keys.mp (AList.lookup_isSome.mp hlookup)
  rw [List.length_eq_zero_iff.mp hempty] at hkey
  cases hkey

/-- The path by ids is taken where every flag is by id. -/
theorem descriptor_of_allID {fs : List ProgFlag} (h : (newProgFlags fs).allID = true)
    (hall : ∀ f ∈ fs, f.all = false) (hdesc : ∀ f ∈ fs, f.descriptor ≠ .empty) {f : ProgFlag}
    (hf : f ∈ fs) : f.descriptor = .id := by
  have hnone : fs.find? (·.all) = none := by
    simpa using hall
  obtain ⟨-, htags, hnames, hpinned, hpids, -⟩ := of_decide_eq_true h
  have htag := descriptor_ne_of_empty put_tags hnone htags hf
  have hname := descriptor_ne_of_empty put_names hnone hnames hf
  have hpin := descriptor_ne_of_empty put_pinnedPaths hnone hpinned hf
  have hpid := descriptor_ne_of_empty put_pids hnone hpids hf
  have hempty := hdesc f hf
  cases hkind : f.descriptor <;> simp_all

theorem putAll_of_all {fs : List ProgFlag} {f : ProgFlag} (h : fs.find? (·.all) = some f)
    (pf : ProgFlags) : (pf.putAll fs).all = true ∧ (pf.putAll fs).flag = f.imm := by
  induction fs generalizing pf with
  | nil => cases h
  | cons f' fs ih =>
    rw [ProgFlags.putAll]
    by_cases hall : f'.all = true
    · rw [List.find?_cons_of_pos hall] at h
      cases h
      rw [if_pos hall]
      exact ⟨rfl, rfl⟩
    · rw [List.find?_cons_of_neg hall] at h
      rw [if_neg hall]
      exact ih h _

theorem put_all (pf : ProgFlags) (f : ProgFlag) : (pf.put f).all = pf.all := by
  unfold ProgFlags.put
  split <;> rfl

theorem putAll_not_all {fs : List ProgFlag} (h : fs.find? (·.all) = none) (pf : ProgFlags) :
    (pf.putAll fs).all = pf.all := by
  induction fs generalizing pf with
  | nil => rfl
  | cons f fs ih =>
    have hnot := List.find?_eq_none.mp h f List.mem_cons_self
    rw [List.find?_cons_of_neg hnot] at h
    rw [ProgFlags.putAll, if_neg hnot, ih h, put_all]

/-! The flags of the maps, by their keys. -/

theorem lastSelecting_id (fs : List ProgFlag) (g : Program) :
    lastSelecting K fs .id g = lastFlag fs fun f => f.descriptor = .id ∧ f.progID = g.id := by
  unfold lastSelecting
  congr 1
  funext f
  by_cases hf : f.descriptor = .id <;> simp [selects, hf]

theorem lastSelecting_tag (fs : List ProgFlag) {g : Program} {info : ProgramInfo}
    (hinfo : g.info = .ok info) :
    lastSelecting K fs .tag g = lastFlag fs fun f => f.descriptor = .tag ∧ f.tag = info.tag := by
  unfold lastSelecting
  congr 1
  funext f
  by_cases hf : f.descriptor = .tag <;> simp [selects, hf, hinfo]

theorem lastSelecting_name (fs : List ProgFlag) (g : Program) :
    lastSelecting K fs .name g = lastFlag fs fun f => f.descriptor = .name ∧ f.name = entryOf g := by
  unfold lastSelecting
  congr 1
  funext f
  by_cases hf : f.descriptor = .name <;> simp [selects, hf]

theorem asks_addFlagged {g : Program} (hg : g ∈ K.programs) {info : ProgramInfo}
    (hinfo : g.info = .ok info) {name : String} (hname : getProgEntryFuncName info = .ok name)
    (f : Option ProgFlag) :
    Asks K (addFlagged K g.id name g (f.map ProgFlag.imm))
      (f.toList.map fun f => ⟨g, funcNameOf f.funcName g, f.imm⟩) := by
  cases f with
  | none => exact asks_ok
  | some f =>
    simp only [Option.toList_some, List.map_cons, List.map_nil, funcNameOf, entryOf_eq hinfo hname]
    exact asks_addTracing hg _ f.imm

theorem asks_prepareProgInfo (fs : List ProgFlag) {g : Program} (hg : g ∈ K.programs) :
    Asks K (prepareProgInfo K g.id (newProgFlags fs)) (mapRequests K fs g) := by
  apply Asks.lookup
  intro g' hload
  obtain ⟨-, hmem, hid⟩ := newProgramFromID_ok (wrapErr_ok.mp hload)
  obtain rfl := program_unique hmem hg hid
  apply Asks.lookup
  intro info hreport
  have hinfo := wrapErr_ok.mp hreport
  simp only [mapRequests, hinfo]
  by_cases hbtf : info.btfID = true
  · simp only [hbtf, Bool.not_true, Bool.false_eq_true, if_false]
    apply Asks.lookup
    intro name hentry
    have hname := wrapErr_ok.mp hentry
    cases hall : fs.find? (·.all) with
    | some f =>
      obtain ⟨htrue, hflag⟩ := putAll_of_all hall {}
      simp only [newProgFlags, htrue, hflag, if_true, entryOf_eq hinfo hname]
      exact asks_addTracing hg name f.imm
    | none =>
      have hnot : (newProgFlags fs).all = false := putAll_not_all hall {}
      simp only [hnot, Bool.false_eq_true, if_false, mapFlags, List.map_append,
        newProgFlags_ids hall, newProgFlags_tags hall, newProgFlags_names hall,
        lastSelecting_id, lastSelecting_tag fs hinfo, lastSelecting_name]
      rw [entryOf_eq hinfo hname]
      have hadd := asks_addFlagged hmem hinfo hname
      exact (hadd _).bind ((hadd _).bind (hadd _))
  · simp only [hbtf, Bool.not_false, if_true]
    exact asks_ok

/-! ## The paths -/

theorem asks_byMaps (fs : List ProgFlag) :
    Asks K (prepareProgInfosByMaps K fs) (otherRequests K fs) :=
  (asks_foldlM fun f _ => asks_direct f).bind (asks_foldlM fun _ hg => asks_prepareProgInfo fs hg)

theorem asks_prepareProgInfos (fs : List ProgFlag) :
    Asks K (prepareProgInfos K fs) (requests K fs) := by
  unfold prepareProgInfos requests
  split
  · exact asks_byIDs fs
  · exact asks_byMaps fs

/-- **The tracings of a run.** A key has the tracing of the first request for
it, and what is traceable has one. -/
theorem Asks.tracings {x : BpfProgs → Except GoError BpfProgs} {rs : List Request} {p : BpfProgs}
    (hx : Asks K x rs) (h : x .empty = .ok p) (key : ProgramID × String) :
    p.tracings key = (rs.find? fun r => r.key = key).bind (Request.tracing K) := by
  obtain ⟨hrs, -, ht, -⟩ := hx .empty p sourced_empty h
  rw [ht, served_eq hrs]
  rfl

theorem Asks.loaded {x : BpfProgs → Except GoError BpfProgs} {rs : List Request} {p : BpfProgs}
    (hx : Asks K x rs) (h : x .empty = .ok p) {r : Request} (hr : r ∈ rs) : r.prog ∈ K.programs :=
  (hx .empty p sourced_empty h).1 r hr

theorem Asks.made {x : BpfProgs → Except GoError BpfProgs} {rs : List Request} {p : BpfProgs}
    (hx : Asks K x rs) (h : x .empty = .ok p) {r : Request} (hr : r ∈ rs) : Made K r := by
  obtain ⟨-, -, -, hmade⟩ := hx .empty p sourced_empty h
  exact hmade r hr rfl

end Asks

end Bpfsnoop.Progs
