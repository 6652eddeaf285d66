/-
Bpfsnoop.Progs.SelectionPaths — the selection of programs, on both paths.

A list of ids could go either way. The path by ids serves every flag, and
the first one for a function decides; the maps of the other path have kept
the last flag of a program. So the two agree where the last flag of a
program is for the function, and wants what the first flag for it wants.
-/
import Bpfsnoop.Progs.SelectedTracings

namespace Bpfsnoop.Progs

open Ebpf CC

/-! ## A list of ids -/

section Paths

/-- A tracing but for the packet option. -/
def BpfTracingInfo.withoutPkt (t : BpfTracingInfo) : BpfTracingInfo :=
  { t with flag := t.flag.withoutPkt }

/-- The same tracings, but for the packet option. -/
def SameTracings (p q : BpfProgs) : Prop :=
  ∀ key, (p.tracings key).map BpfTracingInfo.withoutPkt
    = (q.tracings key).map BpfTracingInfo.withoutPkt

/-- The last flag of a program is for the function, and wants what the first
flag for it wants. -/
def LastIsFirst (K : Host) (fs : List ProgFlag) (g : Program) (funcName : String) : Prop :=
  ∃ first last, fs.find? (asksFor K g funcName) = some first ∧
    lastSelecting K fs .id g = some last ∧ funcNameOf last.funcName g = funcName ∧
    first.withoutPkt = last.withoutPkt

variable {K : Host}

theorem tracing_withoutPkt (g : Program) (funcName : String) (flag : ProgFlagImmInfo) :
    (Request.tracing K ⟨g, funcName, flag⟩).map BpfTracingInfo.withoutPkt
      = Request.tracing K ⟨g, funcName, flag.withoutPkt⟩ := by
  rw [tracing_flag g funcName flag {}, tracing_flag g funcName flag.withoutPkt {}, Option.map_map]
  rfl

/-- On a list of ids the maps are asked for the last flag only. -/
theorem find?_otherRequests {fs : List ProgFlag} (hids : ∀ f ∈ fs, f.descriptor = .id)
    (hall : ∀ f ∈ fs, f.all = false) {g : Program} (hg : g ∈ K.programs) (hbtf : BtfBearing g)
    (funcName : String) :
    (otherRequests K fs).find? (fun r => r.key = (g.id, funcName))
      = ((lastSelecting K fs .id g).filter fun f => funcNameOf f.funcName g = funcName).map
          fun f => ⟨g, funcName, f.imm⟩ := by
  have hnone : fs.find? (·.all) = none := by simpa using hall
  have hdirect : fs.flatMap (directRequests K) = [] := by
    rw [List.flatMap_eq_nil_iff]
    intro f hf
    simp only [directRequests, hids f hf]
  have hother : ∀ kind, kind ≠ .id → lastSelecting K fs kind g = none := by
    intro kind hkind
    rw [lastSelecting, lastFlag, List.find?_eq_none]
    intro f hf
    have hid := hids f (List.mem_reverse.mp hf)
    simpa [hid] using fun h => absurd h.symm hkind
  rw [otherRequests, hdirect, List.nil_append, find?_programs hg hbtf funcName hnone, mapFlags,
    hother .tag (by decide), hother .name (by decide)]
  cases lastSelecting K fs .id g with
  | none => rfl
  | some f => by_cases hname : funcNameOf f.funcName g = funcName <;> simp [hname]

/-- A tracing at a key that is not of a loaded program. -/
theorem Asks.tracings_eq_none {x : BpfProgs → Except GoError BpfProgs} {rs : List Request}
    {p : BpfProgs} (hx : Asks K x rs) (h : x .empty = .ok p) {key : ProgramID × String}
    (hkey : ∀ g ∈ K.programs, g.id ≠ key.1) : p.tracings key = none := by
  rw [hx.tracings h, Option.bind_eq_none_iff]
  intro r hr
  have hsame : r.key = key := by simpa using List.find?_some hr
  exact absurd (congrArg Prod.fst hsame) (hkey r.prog (hx.loaded h (List.mem_of_find?_eq_some hr)))

/-- The tracings of the path by ids, but for the packet option. -/
theorem byIDs_tracings {fs : List ProgFlag} (hids : ∀ f ∈ fs, f.descriptor = .id) {p : BpfProgs}
    (hp : prepareProgInfosByIDs K fs .empty = .ok p) {g : Program} (hg : g ∈ K.programs)
    (funcName : String) :
    (p.tracings (g.id, funcName)).map BpfTracingInfo.withoutPkt
      = (fs.find? (asksFor K g funcName)).bind
          fun f => Request.tracing K ⟨g, funcName, f.withoutPkt⟩ := by
  rw [(asks_byIDs fs).tracings hp, find?_idRequests hg funcName hids]
  cases fs.find? (asksFor K g funcName) with
  | none => rfl
  | some f => exact tracing_withoutPkt g funcName f.toProgFlagImmInfo

/-- The tracings of the other path on a list of ids. -/
theorem byMaps_tracings {fs : List ProgFlag} (hids : ∀ f ∈ fs, f.descriptor = .id)
    (hall : ∀ f ∈ fs, f.all = false) {q : BpfProgs}
    (hq : prepareProgInfosByMaps K fs .empty = .ok q) {g : Program} (hg : g ∈ K.programs)
    (hbtf : BtfBearing g) (funcName : String) :
    (q.tracings (g.id, funcName)).map BpfTracingInfo.withoutPkt
      = ((lastSelecting K fs .id g).filter fun f => funcNameOf f.funcName g = funcName).bind
          fun f => Request.tracing K ⟨g, funcName, f.withoutPkt⟩ := by
  rw [(asks_byMaps fs).tracings hq, find?_otherRequests hids hall hg hbtf]
  cases (lastSelecting K fs .id g).filter fun f => funcNameOf f.funcName g = funcName with
  | none => rfl
  | some f => exact tracing_withoutPkt g funcName f.imm

theorem lastIsFirst_of_same {fs : List ProgFlag} (hids : ∀ f ∈ fs, f.descriptor = .id)
    (hall : ∀ f ∈ fs, f.all = false) {p q : BpfProgs}
    (hp : prepareProgInfosByIDs K fs .empty = .ok p)
    (hq : prepareProgInfosByMaps K fs .empty = .ok q) (hsame : SameTracings p q) {g : Program}
    (hg : g ∈ K.programs) (hbtf : BtfBearing g) {f : ProgFlag} (hf : f ∈ fs)
    (hsel : selects K f g = true) (htrace : Traceable K g (funcNameOf f.funcName g)) :
    LastIsFirst K fs g (funcNameOf f.funcName g) := by
  have hfound : (fs.find? (asksFor K g (funcNameOf f.funcName g))).isSome = true :=
    List.find?_isSome.mpr ⟨f, hf, decide_eq_true ⟨hsel, rfl⟩⟩
  obtain ⟨first, hfirst⟩ := Option.isSome_iff_exists.mp hfound
  have hkey := hsame (g.id, funcNameOf f.funcName g)
  rw [byIDs_tracings hids hp hg, byMaps_tracings hids hall hq hg hbtf, hfirst,
    Option.bind_some] at hkey
  -- the path by ids has made a tracing with the options of the first flag
  have hrequest := find?_idRequests hg (funcNameOf f.funcName g) hids
  rw [hfirst, Option.map_some] at hrequest
  have hmade := (asks_byIDs fs).made hp (List.mem_of_find?_eq_some hrequest) htrace
  rw [tracing_isSome g _ _ first.withoutPkt] at hmade
  obtain ⟨t, ht⟩ := Option.isSome_iff_exists.mp hmade
  rw [ht] at hkey
  obtain ⟨last, hlast, htlast⟩ := Option.bind_eq_some_iff.mp hkey.symm
  obtain ⟨hlast, hname⟩ := Option.filter_eq_some_iff.mp hlast
  have hflag : first.withoutPkt = last.withoutPkt :=
    (Request.tracing_carries ht).flag.symm.trans (Request.tracing_carries htlast).flag
  exact ⟨first, last, hfirst, hlast, of_decide_eq_true hname, hflag⟩

theorem sameAt_of_lastIsFirst {fs : List ProgFlag} (hids : ∀ f ∈ fs, f.descriptor = .id)
    (hall : ∀ f ∈ fs, f.all = false) {p q : BpfProgs}
    (hp : prepareProgInfosByIDs K fs .empty = .ok p)
    (hq : prepareProgInfosByMaps K fs .empty = .ok q) {g : Program} (hg : g ∈ K.programs)
    (hbtf : BtfBearing g) (funcName : String)
    (hagree : ∀ f ∈ fs, asksFor K g funcName f = true → Traceable K g funcName →
      LastIsFirst K fs g funcName) :
    (p.tracings (g.id, funcName)).map BpfTracingInfo.withoutPkt
      = (q.tracings (g.id, funcName)).map BpfTracingInfo.withoutPkt := by
  rw [byIDs_tracings hids hp hg, byMaps_tracings hids hall hq hg hbtf]
  by_cases htrace : Traceable K g funcName
  · cases hfirst : fs.find? (asksFor K g funcName) with
    | none =>
      -- the last flag is for another function
      have hlast : (lastSelecting K fs .id g).filter (fun f => funcNameOf f.funcName g = funcName)
          = none := by
        rw [Option.filter_eq_none_iff]
        intro last hlast hname
        obtain ⟨hf, -, hsel⟩ := mem_of_lastSelecting hlast
        exact List.find?_eq_none.mp hfirst last hf (decide_eq_true ⟨hsel, of_decide_eq_true hname⟩)
      rw [hlast, Option.bind_none]
    | some first =>
      have hasks := List.find?_some hfirst
      obtain ⟨first', last, hfirst', hlast, hname, hflag⟩ :=
        hagree first (List.mem_of_find?_eq_some hfirst) hasks htrace
      rw [hfirst] at hfirst'
      cases hfirst'
      have hkept : (lastSelecting K fs .id g).filter (fun f => funcNameOf f.funcName g = funcName)
          = some last := by
        rw [hlast]
        exact Option.filter_some_pos (decide_eq_true hname)
      rw [hkept, Option.bind_some, Option.bind_some, hflag]
  · have hnone : ∀ flag, Request.tracing K ⟨g, funcName, flag⟩ = none := by
      intro flag
      rw [← Option.not_isSome_iff_eq_none]
      exact fun hsome => htrace (traceable_of_isSome hsome)
    simp only [hnone, Option.bind_fun_none]

/-- **Where the two paths agree.** -/
theorem sameTracings_iff {fs : List ProgFlag} (hids : ∀ f ∈ fs, f.descriptor = .id)
    (hall : ∀ f ∈ fs, f.all = false) (hbtf : ∀ g ∈ K.programs, BtfBearing g) {p q : BpfProgs}
    (hp : prepareProgInfosByIDs K fs .empty = .ok p)
    (hq : prepareProgInfosByMaps K fs .empty = .ok q) :
    SameTracings p q ↔ ∀ g ∈ K.programs, ∀ f ∈ fs, selects K f g = true →
      Traceable K g (funcNameOf f.funcName g) → LastIsFirst K fs g (funcNameOf f.funcName g) := by
  constructor
  · intro hsame g hg f hf
    exact lastIsFirst_of_same hids hall hp hq hsame hg (hbtf g hg) hf
  · intro hagree key
    by_cases hkey : ∃ g ∈ K.programs, g.id = key.1
    · obtain ⟨g, hg, hid⟩ := hkey
      obtain ⟨id, funcName⟩ := key
      obtain rfl : g.id = id := hid
      refine sameAt_of_lastIsFirst hids hall hp hq hg (hbtf g hg) funcName fun f hf hasks htrace => ?_
      obtain ⟨hsel, rfl⟩ := of_decide_eq_true hasks
      exact hagree g hg f hf hsel htrace
    · have hnone : ∀ g ∈ K.programs, g.id ≠ key.1 := fun g hg hid => hkey ⟨g, hg, hid⟩
      rw [(asks_byIDs fs).tracings_eq_none hp hnone, (asks_byMaps fs).tracings_eq_none hq hnone]

end Paths

/-! ## The selection -/

/-- **The selection of programs.** A flag that is kept yields a tracing of
the function it names, if that is traceable, with the options of the flag
that asks for it first. A list of ids yields the same on both paths where
the last flag of a program wants what the first one wants. -/
theorem selection (K : Host) (fs : List ProgFlag) (hfs : ∀ f ∈ fs, f.Describes)
    (hbtf : ∀ g ∈ K.programs, BtfBearing g) :
    (∀ p, prepareProgInfos K fs .empty = .ok p →
      ∀ f ∈ fs, ∀ g ∈ K.programs, selects K f g = true → Kept K fs f g →
        Traceable K g (funcNameOf f.funcName g) →
          ∃ t first, p.tracings (g.id, funcNameOf f.funcName g) = some t ∧
            YieldOf K fs g (funcNameOf f.funcName g) first t) ∧
      ((∀ f ∈ fs, f.descriptor = .id) →
        ∀ p q, prepareProgInfosByIDs K fs .empty = .ok p →
          prepareProgInfosByMaps K fs .empty = .ok q →
          (∀ g ∈ K.programs, ∀ f ∈ fs, selects K f g = true →
            Traceable K g (funcNameOf f.funcName g) → LastIsFirst K fs g (funcNameOf f.funcName g)) →
          SameTracings p q) := by
  refine ⟨?_, ?_⟩
  · intro p hp f hf g hg hsel hkept htrace
    exact yields_of_kept hfs hp hf hg (hbtf g hg) hsel hkept htrace
  · intro hids p q hp hq hagree
    exact (sameTracings_iff hids (fun f hf => (hfs f hf).all) hbtf hp hq).mpr hagree

/-! A program of two functions. -/

def twoFuncs : ProgramInfo where
  id := 5
  btfID := true
  tag := "57cd311f2e27366b"
  instructions := .ok ["main"]
  jitedKsymAddrs := some [0xFFFFFFFFC0000000, 0xFFFFFFFFC0000100]
  jitedFuncLens := some [64, 32]
  funcInfos := .ok [⟨"main", ⟨[], .void⟩⟩, ⟨"sub", ⟨[], .void⟩⟩]
  jitedInsns := some []

def progOf (type : ProgramType) : Program where
  id := 5
  type := type
  info := .ok twoFuncs
  clone := .ok ()
  reports i h := by
    cases h
    exact .inl rfl
  positive := by decide

/-- A machine where the program of the type is loaded, linked to another one. -/
def hostOf (type : ProgramType) : Host where
  programs := [progOf type]
  apart := List.nodup_singleton _
  links _ := some ⟨.traceFEntry, 3⟩
  pinned _ := .error (.errorf "no such file or directory" [])
  pinned_loaded path p h := by cases h
  procFds _ := []
  disasm := false
  tailcallIssue := false
  heap _ := ⟨0, fun _ => none⟩
  isConstCharPtr _ := false

/-- The options of a tracing behind a run that succeeds. -/
def optionsAt (x : Except GoError BpfProgs) (key : ProgramID × String) :
    Option (Option ProgFlagImmInfo) :=
  match x with
  | .error _ => none
  | .ok p => some ((p.tracings key).map (·.flag))

def byID (flag : ProgFlagImmInfo) : ProgFlag :=
  { flag with descriptor := .id, progID := 5 }

/-- Two flags for one function. -/
def forOne : List ProgFlag :=
  [byID { funcName := "sub", graph := true }, byID { funcName := "sub", stack := true }]

/-- Two flags for two functions. -/
def forTwo : List ProgFlag := [byID { funcName := "main" }, byID { funcName := "sub" }]

theorem exists_ok {x : Except GoError BpfProgs} {key : ProgramID × String}
    (h : (optionsAt x key).isSome = true) : ∃ p, x = .ok p := by
  cases x with
  | error e => cases h
  | ok p => exact ⟨p, rfl⟩

/-- Two flags that want the same. -/
def forSub : List ProgFlag :=
  [byID { funcName := "sub", graph := true }, byID { funcName := "sub", graph := true, pkt := true }]

/-- They yield a tracing, on either path. -/
theorem sub_selected : ∃ p q, prepareProgInfos (hostOf (.other 6)) forSub .empty = .ok p ∧
    prepareProgInfosByMaps (hostOf (.other 6)) forSub .empty = .ok q ∧
    (∃ t first, p.tracings (5, "sub") = some t ∧
      YieldOf (hostOf (.other 6)) forSub (progOf (.other 6)) "sub" first t) ∧ SameTracings p q := by
  have hrun : (optionsAt (prepareProgInfos (hostOf (.other 6)) forSub .empty) (5, "sub")).isSome
      = true := by decide +kernel
  obtain ⟨p, hp⟩ := exists_ok hrun
  have hmaps : (optionsAt (prepareProgInfosByMaps (hostOf (.other 6)) forSub .empty)
      (5, "sub")).isSome = true := by decide +kernel
  obtain ⟨q, hq⟩ := exists_ok hmaps
  have hids : (newProgFlags forSub).allID = true := by decide +kernel
  have hbyIDs : prepareProgInfosByIDs (hostOf (.other 6)) forSub .empty = .ok p := by
    rw [← hp, prepareProgInfos, if_pos hids]
  have hfs : ∀ f ∈ forSub, f.descriptor = .id ∧ f.all = false ∧ f.funcName = "sub" := by
    decide +kernel
  have htrace : Traceable (hostOf (.other 6)) (progOf (.other 6)) "sub" := by
    refine ⟨.inl (by decide), fun info _ hskipped => ?_⟩
    obtain ⟨_, _, _, _, _, _, hissue, _⟩ := hskipped
    cases hissue
  have hname : ∀ f ∈ forSub, funcNameOf f.funcName (progOf (.other 6)) = "sub" := by
    intro f hf
    rw [(hfs f hf).2.2]
    rfl
  obtain ⟨hyield, hsame⟩ := selection (hostOf (.other 6)) forSub
    (fun f hf => ⟨(hfs f hf).2.1, by rw [(hfs f hf).1]; nofun⟩)
    (by
      intro g hg
      rw [List.mem_singleton.mp hg]
      exact ⟨twoFuncs, rfl, rfl⟩)
  refine ⟨p, q, hp, hq, ?_, ?_⟩
  · exact hyield p hp (byID { funcName := "sub", graph := true }) List.mem_cons_self
      (progOf (.other 6)) List.mem_cons_self (by decide +kernel) (.inl hids) htrace
  · refine hsame (fun f hf => (hfs f hf).1) p q hbyIDs hq fun g hg f hf _ _ => ?_
    rw [List.mem_singleton.mp hg, hname f hf]
    exact ⟨byID { funcName := "sub", graph := true },
      byID { funcName := "sub", graph := true, pkt := true }, by decide +kernel, by decide +kernel,
      rfl, rfl⟩

/-- By design: a program that follows another one is not traced, and of two
flags for one function the first one decides. -/
theorem design_leaves_out :
    optionsAt (prepareProgInfos (hostOf .tracing) [byID {}] .empty) (5, "main") = some none ∧
      optionsAt (prepareProgInfosByIDs (hostOf (.other 6)) forOne .empty) (5, "sub")
        = some (some { funcName := "sub", graph := true }) := by
  decide +kernel

/-- Slips of `newProgFlags`: a map keeps the last flag of an id, so the first
one for the function and the one for another function are lost, and the
packet option is lost. -/
theorem newProgFlags_leaves_out :
    optionsAt (prepareProgInfosByMaps (hostOf (.other 6)) forOne .empty) (5, "sub")
        = some (some { funcName := "sub", stack := true }) ∧
      (optionsAt (prepareProgInfosByIDs (hostOf (.other 6)) forTwo .empty) (5, "main")
          = some (some { funcName := "main" }) ∧
        optionsAt (prepareProgInfosByMaps (hostOf (.other 6)) forTwo .empty) (5, "main") = some none) ∧
      optionsAt (prepareProgInfos (hostOf (.other 6))
          [{ pkt := true, descriptor := .name, name := "main" }] .empty) (5, "main") = some (some {}) := by
  decide +kernel

/-- Flags that select a loaded program, and do not have what they ask for: the
design first, the slips behind it. -/
theorem options_left_out :
    (optionsAt (prepareProgInfos (hostOf .tracing) [byID {}] .empty) (5, "main") = some none ∧
      optionsAt (prepareProgInfosByIDs (hostOf (.other 6)) forOne .empty) (5, "sub")
        = some (some { funcName := "sub", graph := true })) ∧
    optionsAt (prepareProgInfosByMaps (hostOf (.other 6)) forOne .empty) (5, "sub")
        = some (some { funcName := "sub", stack := true }) ∧
      (optionsAt (prepareProgInfosByIDs (hostOf (.other 6)) forTwo .empty) (5, "main")
          = some (some { funcName := "main" }) ∧
        optionsAt (prepareProgInfosByMaps (hostOf (.other 6)) forTwo .empty) (5, "main") = some none) ∧
      optionsAt (prepareProgInfos (hostOf (.other 6))
          [{ pkt := true, descriptor := .name, name := "main" }] .empty) (5, "main") = some (some {}) :=
  ⟨design_leaves_out, newProgFlags_leaves_out⟩

end Bpfsnoop.Progs
