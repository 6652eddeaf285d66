/-
Bpfsnoop.Progs.SelectedTracings — the tracings that the flags yield.

A function of a program has the tracing of the flag that asks for it first
(`firstAsking`). On the path by ids that is the first one in the list. On
the other path pinned files and processes come first, and then the last
flag by id, the last by tag and the last by name.
-/
import Bpfsnoop.Progs.FlagPrefixes
import Bpfsnoop.Progs.Selection

namespace Bpfsnoop.Progs

open Ebpf CC

/-! ## The flag that asks first -/

/-- A flag with a descriptor. -/
structure ProgFlag.Describes (f : ProgFlag) : Prop where
  all : f.all = false
  descriptor : f.descriptor ≠ .empty

/-- Flags of pinned files and processes, which are followed themselves. -/
def ProgFlag.direct (f : ProgFlag) : Bool := f.descriptor = .pinned ∨ f.descriptor = .pid

section Asking

variable (K : Host)

/-- Whether a flag asks for a function of a program. -/
def asksFor (g : Program) (funcName : String) (f : ProgFlag) : Bool :=
  selects K f g ∧ funcNameOf f.funcName g = funcName

/-- The flag whose request for a function is served. -/
def firstAsking (pflags : List ProgFlag) (g : Program) (funcName : String) : Option ProgFlag :=
  if (newProgFlags pflags).allID then pflags.find? (asksFor K g funcName)
  else
    (pflags.find? fun f => f.direct && asksFor K g funcName f).or
      ((mapFlags K pflags g).find? fun f => funcNameOf f.funcName g = funcName)

/-- The options that a flag is served with. -/
def servedFlag (pflags : List ProgFlag) (f : ProgFlag) : ProgFlagImmInfo :=
  if (newProgFlags pflags).allID || f.direct then f.toProgFlagImmInfo else f.imm

end Asking

/-- A program with BTF. -/
def BtfBearing (g : Program) : Prop := ∃ info, g.info = .ok info ∧ info.btfID = true

theorem descriptor_of_ok {f f' : ProgFlag} (h : (.ok f' : Except GoError ProgFlag) = .ok f)
    (hdesc : f'.descriptor ≠ .empty) : f.descriptor ≠ .empty := by
  rwa [← Except.ok.inj h]

theorem parseProgID_descriptor {pf f : ProgFlag} {p id funcName : String} {ok : Bool}
    (h : parseProgID pf p id funcName ok = .ok f) : f.descriptor ≠ .empty := by
  unfold parseProgID at h
  split at h
  · cases h
  · split at h
    · exact descriptor_of_ok h nofun
    · exact descriptor_of_ok h nofun

theorem parseDescriptor_descriptor {fileExists : String → Bool} {pf f : ProgFlag} {p : String}
    (h : parseDescriptor fileExists pf p = .ok f) : f.descriptor ≠ .empty := by
  unfold parseDescriptor at h
  dsimp only at h
  split at h
  · exact parseProgID_descriptor h
  split at h
  · split at h
    · exact descriptor_of_ok h nofun
    · cases h
  split at h
  · split at h
    · cases h
    · exact descriptor_of_ok h nofun
  split at h
  · split at h
    · cases h
    · exact descriptor_of_ok h nofun
  split at h
  · split at h
    · cases h
    · exact descriptor_of_ok h nofun
  · exact parseProgID_descriptor h

/-- What is parsed is `*`, or has a descriptor. -/
theorem parseProgFlag_describes {cmd : CommandOptions} {fileExists : String → Bool} {fuel : Nat}
    {text : String} {f : ProgFlag} (h : parseProgFlag cmd fileExists fuel text = some (.ok f))
    (hall : f.all = false) : f.Describes := by
  unfold parseProgFlag parsePrefixes at h
  split at h
  · cases h
  · rename_i flag rest _
    refine ⟨hall, ?_⟩
    unfold progFlagBehind at h
    dsimp only at h
    split at h
    · cases h
      cases hall
    · have hfound : parseDescriptor fileExists (flag.withCommand cmd) (String.ofList rest) = .ok f :=
        Option.some.inj h
      exact parseDescriptor_descriptor hfound

/-! ## Searching the requests -/

section Search

theorem find?_flatMap_ite {α β : Type} {l : List α} {rs : α → List β} {q : β → Bool}
    {P : α → Bool} {mk : α → β} (h : ∀ a ∈ l, (rs a).find? q = if P a then some (mk a) else none) :
    (l.flatMap rs).find? q = (l.find? P).map mk := by
  induction l with
  | nil => rfl
  | cons a l ih =>
    rw [List.flatMap_cons, List.find?_append, h a List.mem_cons_self,
      ih fun b hb => h b (List.mem_cons_of_mem _ hb), List.find?_cons]
    by_cases hP : P a = true
    · simp [hP]
    · simp [hP]

theorem find?_flatMap_only {α β : Type} {l : List α} {rs : α → List β} {q : β → Bool} {a : α}
    (ha : a ∈ l) (h : ∀ b ∈ l, b ≠ a → (rs b).find? q = none) :
    (l.flatMap rs).find? q = (rs a).find? q := by
  induction l with
  | nil => cases ha
  | cons b l ih =>
    rw [List.flatMap_cons, List.find?_append]
    have hrest := fun ha => ih ha fun c hc => h c (List.mem_cons_of_mem _ hc)
    by_cases hb : b = a
    · subst hb
      cases hfound : (rs b).find? q with
      | some r => rfl
      | none =>
        rw [Option.none_or]
        by_cases hmem : b ∈ l
        · rw [hrest hmem, hfound]
        · rw [List.find?_flatMap, List.findSome?_eq_none_iff]
          intro c hc
          refine h c (List.mem_cons_of_mem _ hc) ?_
          rintro rfl
          exact hmem hc
    · rw [h b List.mem_cons_self hb, Option.none_or]
      exact hrest ((List.mem_cons.mp ha).resolve_left (Ne.symm hb))

variable {K : Host}

theorem find?_requestByID {g : Program} (hg : g ∈ K.programs) (funcName : String) (id : ProgramID)
    (flag : ProgFlagImmInfo) :
    (requestByID K id flag).find? (fun r => r.key = (g.id, funcName))
      = if id = g.id ∧ funcNameOf flag.funcName g = funcName then some ⟨g, funcName, flag⟩
        else none := by
  unfold requestByID
  cases hfind : K.programs.find? (·.id = id) with
  | none =>
    have hne : id ≠ g.id := by
      rintro rfl
      simpa using List.find?_eq_none.mp hfind g hg
    simp [hne]
  | some g' =>
    have hid : g'.id = id := by simpa using List.find?_some hfind
    subst hid
    by_cases hsame : g'.id = g.id
    · obtain rfl := program_unique (List.mem_of_find?_eq_some hfind) hg hsame
      by_cases hname : funcNameOf flag.funcName g' = funcName
      · simp [Request.key, hname]
      · simp [Request.key, hname]
    · simp [Request.key, hsame]

theorem find?_idRequests {g : Program} (hg : g ∈ K.programs) (funcName : String)
    {fs : List ProgFlag} (hids : ∀ f ∈ fs, f.descriptor = .id) :
    (idRequests K fs).find? (fun r => r.key = (g.id, funcName))
      = (fs.find? (asksFor K g funcName)).map fun f => ⟨g, funcName, f.toProgFlagImmInfo⟩ := by
  refine find?_flatMap_ite fun f hf => ?_
  rw [find?_requestByID hg]
  simp [asksFor, selects, hids f hf]

theorem find?_procRequests {g : Program} (hg : g ∈ K.programs) (funcName : String)
    (flag : ProgFlagImmInfo) (fds : List (Except GoError ProgramID)) :
    (fds.flatMap (requestByFd K flag)).find? (fun r => r.key = (g.id, funcName))
      = if fds.any (fdIs g) && funcNameOf flag.funcName g = funcName then some ⟨g, funcName, flag⟩
        else none := by
  induction fds with
  | nil => rfl
  | cons fd fds ih =>
    rw [List.flatMap_cons, List.find?_append, ih, List.any_cons]
    cases fd with
    | error e => simp [requestByFd, fdIs]
    | ok id =>
      rw [requestByFd, find?_requestByID hg]
      by_cases hname : funcNameOf flag.funcName g = funcName
      · by_cases hid : id = g.id
        · simp [fdIs, hid, hname]
        · simp [fdIs, hid, hname]
      · simp [hname]

theorem find?_directRequests {g : Program} (hg : g ∈ K.programs) (funcName : String) (f : ProgFlag) :
    (directRequests K f).find? (fun r => r.key = (g.id, funcName))
      = if f.direct && asksFor K g funcName f then some ⟨g, funcName, f.toProgFlagImmInfo⟩
        else none := by
  unfold directRequests
  split
  · rename_i hf
    have hdirect : f.direct = true := by simp [ProgFlag.direct, hf]
    cases hload : K.pinned f.pinned with
    | error e => simp [asksFor, selects, hf, hload]
    | ok g' =>
      by_cases hsame : g'.id = g.id
      · obtain rfl := program_unique (K.pinned_loaded _ _ hload) hg hsame
        by_cases hname : funcNameOf f.funcName g' = funcName
        · simp [asksFor, selects, hf, hload, hdirect, Request.key, hname]
        · simp [asksFor, selects, hf, hload, hdirect, Request.key, hname]
      · simp [asksFor, selects, hf, hload, hdirect, Request.key, hsame]
  · rename_i hf
    have hdirect : f.direct = true := by simp [ProgFlag.direct, hf]
    rw [find?_procRequests hg]
    simp [hdirect, asksFor, selects, hf]
  · rename_i hpinned hpid
    have hdirect : f.direct = false := by
      cases hf : f.descriptor <;> simp_all [ProgFlag.direct]
    simp [hdirect]

theorem find?_mapRequests {g : Program} (hbtf : BtfBearing g) (funcName : String)
    {fs : List ProgFlag} (hall : fs.find? (·.all) = none) :
    (mapRequests K fs g).find? (fun r => r.key = (g.id, funcName))
      = ((mapFlags K fs g).find? fun f => funcNameOf f.funcName g = funcName).map
          fun f => ⟨g, funcName, f.imm⟩ := by
  obtain ⟨info, hinfo, hid⟩ := hbtf
  simp only [mapRequests, hinfo, hid, hall, Bool.not_true, Bool.false_eq_true, if_false,
    List.find?_map]
  have hkey : ((fun r : Request => decide (r.key = (g.id, funcName))) ∘
      fun f : ProgFlag => ⟨g, funcNameOf f.funcName g, f.imm⟩)
      = fun f => decide (funcNameOf f.funcName g = funcName) := by
    funext f
    simp [Request.key]
  rw [hkey]
  refine Option.map_congr fun f hf => ?_
  have hname : funcNameOf f.funcName g = funcName := by simpa using List.find?_some hf
  rw [hname]

theorem mapRequests_prog {fs : List ProgFlag} {g : Program} {r : Request}
    (hr : r ∈ mapRequests K fs g) : r.prog = g := by
  unfold mapRequests at hr
  split at hr
  · cases hr
  split at hr
  · cases hr
  split at hr
  · rw [List.mem_singleton.mp hr]
  · obtain ⟨f, -, rfl⟩ := List.mem_map.mp hr
    rfl

theorem find?_programs {g : Program} (hg : g ∈ K.programs) (hbtf : BtfBearing g)
    (funcName : String) {fs : List ProgFlag} (hall : fs.find? (·.all) = none) :
    (K.programs.flatMap (mapRequests K fs)).find? (fun r => r.key = (g.id, funcName))
      = ((mapFlags K fs g).find? fun f => funcNameOf f.funcName g = funcName).map
          fun f => ⟨g, funcName, f.imm⟩ := by
  rw [find?_flatMap_only hg, find?_mapRequests hbtf funcName hall]
  intro g' hg' hne
  rw [List.find?_eq_none]
  intro r hr hkey
  have hprog := mapRequests_prog hr
  have hid : r.prog.id = g.id := congrArg Prod.fst (of_decide_eq_true hkey)
  rw [hprog] at hid
  exact hne (program_unique hg' hg hid)

theorem direct_of_mem_mapFlags {fs : List ProgFlag} {g : Program} {f : ProgFlag}
    (hf : f ∈ mapFlags K fs g) : f.direct = false := by
  have hlast : ∀ kind, f ∈ (lastSelecting K fs kind g).toList → f.descriptor = kind := by
    intro kind hmem
    have hfind := List.find?_some (Option.mem_toList.mp hmem)
    exact (of_decide_eq_true hfind).1
  unfold mapFlags at hf
  rcases List.mem_append.mp hf with hid | hf
  · simp [ProgFlag.direct, hlast _ hid]
  rcases List.mem_append.mp hf with htag | hname
  · simp [ProgFlag.direct, hlast _ htag]
  · simp [ProgFlag.direct, hlast _ hname]

/-- **The request that is served** is that of the flag that asks first. -/
theorem find?_requests {g : Program} (hg : g ∈ K.programs) (hbtf : BtfBearing g)
    (funcName : String) {fs : List ProgFlag} (hfs : ∀ f ∈ fs, f.Describes) :
    (requests K fs).find? (fun r => r.key = (g.id, funcName))
      = (firstAsking K fs g funcName).map fun f => ⟨g, funcName, servedFlag fs f⟩ := by
  have hall : fs.find? (·.all) = none := by simpa using fun f hf => (hfs f hf).all
  unfold requests firstAsking
  split
  · rename_i hids
    have hid := fun f => descriptor_of_allID hids (fun f hf => (hfs f hf).all)
      (fun f hf => (hfs f hf).descriptor) (f := f)
    rw [find?_idRequests hg funcName hid]
    simp [servedFlag, hids]
  · rename_i hids
    rw [otherRequests, List.find?_append, find?_programs hg hbtf funcName hall,
      find?_flatMap_ite fun f _ => find?_directRequests hg funcName f, Option.map_or]
    congr 1
    · refine Option.map_congr fun f hf => ?_
      have hasks := List.find?_some hf
      have hdirect : f.direct = true := (Bool.and_eq_true_iff.mp hasks).1
      simp [servedFlag, hdirect]
    · refine Option.map_congr fun f hf => ?_
      have hdirect := direct_of_mem_mapFlags (List.mem_of_find?_eq_some hf)
      simp [servedFlag, hids, hdirect]

end Search

/-! ## What a flag yields -/

section Yields

variable (K : Host)

/-- The last of the flags of its kind, where the maps keep that one. -/
def Kept (fs : List ProgFlag) (f : ProgFlag) (g : Program) : Prop :=
  (newProgFlags fs).allID = true ∨ f.direct = true ∨ lastSelecting K fs f.descriptor g = some f

/-- The options but that for packets. -/
def ProgFlagImmInfo.withoutPkt (imm : ProgFlagImmInfo) : ProgFlagImmInfo := { imm with pkt := false }

/-- A tracing of a function, with the options of the flag that asks for it
first. -/
structure YieldOf (fs : List ProgFlag) (g : Program) (funcName : String) (first : ProgFlag)
    (t : BpfTracingInfo) : Prop where
  asked : firstAsking K fs g funcName = some first
  mem : first ∈ fs
  asks : asksFor K g funcName first = true
  prog : t.prog = g
  name : t.funcName = funcName
  fn : t.fn.name = funcName
  flag : t.flag.withoutPkt = first.withoutPkt
  pkt : (newProgFlags fs).allID = true → t.flag = first.toProgFlagImmInfo

variable {K}

theorem mem_of_lastSelecting {fs : List ProgFlag} {kind : ProgFlagDescriptor} {g : Program}
    {f : ProgFlag} (h : lastSelecting K fs kind g = some f) :
    f ∈ fs ∧ f.descriptor = kind ∧ selects K f g = true := by
  have hprop := List.find?_some h
  exact ⟨List.mem_reverse.mp (List.mem_of_find?_eq_some h), of_decide_eq_true hprop⟩

theorem mem_mapFlags {fs : List ProgFlag} {g : Program} {f : ProgFlag} (h : f ∈ mapFlags K fs g) :
    f ∈ fs ∧ selects K f g = true := by
  have hlast : ∀ kind, f ∈ (lastSelecting K fs kind g).toList → f ∈ fs ∧ selects K f g = true := by
    intro kind hmem
    obtain ⟨hf, -, hsel⟩ := mem_of_lastSelecting (Option.mem_toList.mp hmem)
    exact ⟨hf, hsel⟩
  unfold mapFlags at h
  rcases List.mem_append.mp h with hid | h
  · exact hlast _ hid
  rcases List.mem_append.mp h with htag | hname
  · exact hlast _ htag
  · exact hlast _ hname

theorem firstAsking_asks {fs : List ProgFlag} {g : Program} {funcName : String} {f : ProgFlag}
    (h : firstAsking K fs g funcName = some f) : f ∈ fs ∧ asksFor K g funcName f = true := by
  unfold firstAsking at h
  split at h
  · exact ⟨List.mem_of_find?_eq_some h, List.find?_some h⟩
  · rcases Option.or_eq_some_iff.mp h with hdirect | ⟨-, hmap⟩
    · have hasks := List.find?_some hdirect
      exact ⟨List.mem_of_find?_eq_some hdirect, (Bool.and_eq_true_iff.mp hasks).2⟩
    · obtain ⟨hf, hsel⟩ := mem_mapFlags (List.mem_of_find?_eq_some hmap)
      have hname := List.find?_some hmap
      exact ⟨hf, decide_eq_true ⟨hsel, of_decide_eq_true hname⟩⟩

/-- A flag that is kept asks, or another one asks before it. -/
theorem firstAsking_isSome {fs : List ProgFlag} (hfs : ∀ f ∈ fs, f.Describes) {f : ProgFlag}
    (hf : f ∈ fs) {g : Program} (hsel : selects K f g = true) (hkept : Kept K fs f g) :
    (firstAsking K fs g (funcNameOf f.funcName g)).isSome = true := by
  have hasks : asksFor K g (funcNameOf f.funcName g) f = true := decide_eq_true ⟨hsel, rfl⟩
  unfold firstAsking
  split
  · exact List.find?_isSome.mpr ⟨f, hf, hasks⟩
  · rename_i hids
    rw [Option.isSome_or, Bool.or_eq_true_iff]
    rcases hkept with hkept | hdirect | hlast
    · exact absurd hkept hids
    · exact .inl (List.find?_isSome.mpr ⟨f, hf, by simp [hdirect, hasks]⟩)
    · by_cases hdirect : f.direct = true
      · exact .inl (List.find?_isSome.mpr ⟨f, hf, by simp [hdirect, hasks]⟩)
      · refine .inr (List.find?_isSome.mpr ⟨f, ?_, by simp⟩)
        have hempty := (hfs f hf).descriptor
        unfold mapFlags
        cases hkind : f.descriptor <;> simp_all [ProgFlag.direct]

/-- **What a flag yields.** -/
theorem yields_of_kept {fs : List ProgFlag} (hfs : ∀ f ∈ fs, f.Describes) {p : BpfProgs}
    (h : prepareProgInfos K fs .empty = .ok p) {f : ProgFlag} (hf : f ∈ fs) {g : Program}
    (hg : g ∈ K.programs) (hbtf : BtfBearing g) (hsel : selects K f g = true)
    (hkept : Kept K fs f g) (htrace : Traceable K g (funcNameOf f.funcName g)) :
    ∃ t first, p.tracings (g.id, funcNameOf f.funcName g) = some t ∧
      YieldOf K fs g (funcNameOf f.funcName g) first t := by
  obtain ⟨first, hfirst⟩ := Option.isSome_iff_exists.mp (firstAsking_isSome hfs hf hsel hkept)
  have hask := asks_prepareProgInfos (K := K) fs
  have hserved := find?_requests hg hbtf (funcNameOf f.funcName g) hfs
  rw [hfirst, Option.map_some] at hserved
  have hmade := hask.made h (List.mem_of_find?_eq_some hserved) htrace
  obtain ⟨t, ht⟩ := Option.isSome_iff_exists.mp hmade
  obtain ⟨hmem, hasks⟩ := firstAsking_asks hfirst
  have hof := Request.tracing_carries ht
  refine ⟨t, first, by rw [hask.tracings h, hserved]; exact ht, hfirst, hmem, hasks, hof.prog,
    hof.funcName, hof.fn, ?_, ?_⟩
  · rw [hof.flag]
    unfold servedFlag
    split <;> rfl
  · intro hids
    rw [hof.flag]
    simp [servedFlag, hids]

end Yields

end Bpfsnoop.Progs
