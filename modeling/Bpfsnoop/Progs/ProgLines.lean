/-
Bpfsnoop.Progs.ProgLines — the source line of an address in a BPF program.

`newBPFProgInfo` gives each function of a program the lines that lie in its
range. A lookup takes the first function that contains the address and
searches its lines by halves; where the address is none of them, it takes the
line in front of the position found, and there is none in front of the first
(`get_panics`). `line_lookup_iff` says when a lookup is right.
-/
import Bpfsnoop.Lib.Bisect
import Bpfsnoop.Lib.Text
import Bpfsnoop.Progs.Tracings
import Mathlib.Order.Bounds.Defs

namespace Bpfsnoop.Progs

open Ebpf Lib
open CC (GoError)

/-! ## The code -/

/-- `bpfProgKaddrRange`. -/
structure BpfProgKaddrRange where
  start : Word
  end_ : Word

def BpfProgKaddrRange.contains (r : BpfProgKaddrRange) (addr : Word) : Bool := r.start ≤ addr ∧ addr < r.end_

/-- `btf.Line`. -/
structure Line where
  fileName : String
  lineNumber : BitVec 32

/-- `bpfProgFuncInfo`, the fields that a lookup reads. -/
structure BpfProgFuncInfo where
  kaddrRange : BpfProgKaddrRange
  funcName : String
  jitedLineInfo : List Word
  lineInfos : List Line

def BpfProgFuncInfo.contains (b : BpfProgFuncInfo) (addr : Word) : Bool := b.kaddrRange.contains addr

/-- `bpfProgLineInfo`. -/
structure BpfProgLineInfo where
  funcName : String
  ksymAddr : Word
  fileName : String
  fileLine : BitVec 32

/-- `slices.BinarySearch`. -/
def binarySearch (x : List Word) (target : Word) : Nat × Bool :=
  let i := bisect (fun h => decide (x.getD h 0 < target)) 0 x.length
  (i, x[i]? = some target)

/-- A file name without the dots and slashes in front. -/
def trimFileName (fileName : String) : String :=
  if fileName ≠ "" ∧ fileName.toList.head? = some '.' then
    String.ofList (fileName.toList.dropWhile fun ch => ch = '.' ∨ ch = '/')
  else fileName

/-- What `get` makes of a line. -/
def BpfProgFuncInfo.lineInfo (b : BpfProgFuncInfo) (line : Line) : BpfProgLineInfo where
  funcName := b.funcName
  ksymAddr := b.kaddrRange.start
  fileName := trimFileName line.fileName
  fileLine := line.lineNumber

/-- `bpfProgFuncInfo.get`; `none` is `false`. -/
def BpfProgFuncInfo.get (b : BpfProgFuncInfo) (addr : Word) : Except GoError (Option BpfProgLineInfo) :=
  if !b.kaddrRange.contains addr then .ok none
  else
    let (idx, ok) := binarySearch b.jitedLineInfo addr
    let idx : Int := if !ok then (idx : Int) - 1 else idx
    if idx < 0 then .error (.panic "index out of range")
    else do
      let line ← sliceAt b.lineInfos idx.toNat
      return some (b.lineInfo line)

/-- `bpfProgInfo.get`. -/
def BpfProgInfo.get : List BpfProgFuncInfo → Word → Except GoError (Option BpfProgLineInfo)
  | [], _ => .ok none
  | prog :: progs, addr => do
    match ← prog.get addr with
    | some li => return some li
    | none => BpfProgInfo.get progs addr

/-- `ebpf.ProgramInfo` with the lines. -/
structure LineProgramInfo extends ProgramInfo where
  lineInfos : Except GoError (List Line)
  jitedLineInfos : Option (List Word)

/-- The value of a method where its error is dropped. -/
def LineProgramInfo.lines (pinfo : LineProgramInfo) : List Line :=
  match pinfo.lineInfos with
  | .ok lines => lines
  | .error _ => []

def LineProgramInfo.lineAddrs (pinfo : LineProgramInfo) : List Word := pinfo.jitedLineInfos.getD []

/-- The loop over the lines of a program, for one function. -/
def newFuncInfo (lines : List (Word × Line)) (fn : BtfFunc) (ksym : Word) (funcLen : BitVec 32) : BpfProgFuncInfo :=
  let kaddrRange := ⟨ksym, ksym + funcLen.setWidth 64⟩
  { kaddrRange
    funcName := trimSpace fn.name
    jitedLineInfo := (lines.filter fun line => kaddrRange.contains line.1).map (·.1)
    lineInfos := (lines.filter fun line => kaddrRange.contains line.1).map (·.2) }

/-- The loop over the functions. -/
def newFuncInfos (lines : List (Word × Line)) :
    List BtfFunc → List Word → List (BitVec 32) → List Byte → Except GoError (List BpfProgFuncInfo)
  | fn :: fns, ksym :: ksyms, funcLen :: lens, insns =>
    if insns.length < funcLen.toNat then .error (.panic "slice bounds out of range")
    else do
      let progs ← newFuncInfos lines fns ksyms lens (insns.drop funcLen.toNat)
      return newFuncInfo lines fn ksym funcLen :: progs
  | _, _, _, _ => .ok []

/-- The info that `newBPFProgInfo` works on: the one handed over, the one of
`b.infos`, or the one of the program. -/
def programInfo (infos : ProgramID → Option LineProgramInfo) (info : Except GoError LineProgramInfo) (id : ProgramID)
    (pinfo : Option LineProgramInfo) : Except GoError LineProgramInfo :=
  match pinfo with
  | some pinfo => .ok pinfo
  | none =>
    match infos id with
    | some pinfo => .ok pinfo
    | none =>
      match info with
      | .ok pinfo => .ok pinfo
      | .error err => .error (.wrapf "failed to get prog info: %w" [] err)

/-- `newBPFProgInfo`; `info` is `prog.Info()`. -/
def newBPFProgInfo (infos : ProgramID → Option LineProgramInfo) (info : Except GoError LineProgramInfo) (id : ProgramID)
    (pinfo : Option LineProgramInfo) : Except GoError (List BpfProgFuncInfo) := do
  let pinfo ← programInfo infos info id pinfo
  match pinfo.funcInfos with
  | .error err => .error (.wrapf "failed to get func infos: %w" [] err)
  | .ok funcInfos =>
    let jitedInsns := pinfo.jitedInsns.getD []
    let jitedKsyms := pinfo.jitedKsymAddrs.getD []
    let jitedFuncLens := pinfo.jitedFuncLens.getD []
    let num (n : Nat) : CC.ErrArg := .num (BitVec.ofNat 64 n)
    if funcInfos.length ≠ jitedFuncLens.length then
      .error (.errorf "func info number %d != jited func lens number %d" [num funcInfos.length, num jitedFuncLens.length])
    else if jitedKsyms.length ≠ jitedFuncLens.length then
      .error (.errorf "jited ksyms number %d != jited func lens number %d"
        [num jitedKsyms.length, num jitedFuncLens.length])
    else if pinfo.lineAddrs.length ≠ pinfo.lines.length then
      .error (.errorf "line info number %d != jited line info number %d"
        [num pinfo.lines.length, num pinfo.lineAddrs.length])
    else newFuncInfos (pinfo.lineAddrs.zip pinfo.lines) funcInfos jitedKsyms jitedFuncLens jitedInsns

/-! ## Lines by program -/

/-- The ranges of the functions. -/
def LineProgramInfo.ranges (pinfo : LineProgramInfo) : List BpfProgKaddrRange :=
  List.zipWith (fun ksym funcLen => ⟨ksym, ksym + funcLen.setWidth 64⟩) (pinfo.jitedKsymAddrs.getD [])
    (pinfo.jitedFuncLens.getD [])

/-- The line at an address. -/
def LineProgramInfo.LineAt (pinfo : LineProgramInfo) (kaddr : Word) (line : Line) : Prop :=
  (kaddr, line) ∈ pinfo.lineAddrs.zip pinfo.lines

/-- The addresses of the lines of a function that are not above `addr`. -/
def LineProgramInfo.linesBelow (pinfo : LineProgramInfo) (r : BpfProgKaddrRange) (addr : Word) : Set Word :=
  {kaddr | kaddr ∈ pinfo.lineAddrs ∧ r.contains kaddr = true ∧ kaddr ≤ addr}

/-- The lines that a function is given. -/
structure Filtered (lines : List (Word × Line)) (f : BpfProgFuncInfo) : Prop where
  addrs : f.jitedLineInfo = (lines.filter fun line => f.contains line.1).map (·.1)
  infos : f.lineInfos = (lines.filter fun line => f.contains line.1).map (·.2)

theorem newFuncInfo_filtered (lines : List (Word × Line)) (fn : BtfFunc) (ksym : Word) (funcLen : BitVec 32) :
    Filtered lines (newFuncInfo lines fn ksym funcLen) := ⟨rfl, rfl⟩

theorem newFuncInfos_spec {lines : List (Word × Line)} :
    ∀ {fns : List BtfFunc} {ksyms : List Word} {lens : List (BitVec 32)} {insns : List Byte}
      {progs : List BpfProgFuncInfo},
      newFuncInfos lines fns ksyms lens insns = .ok progs → fns.length = lens.length → ksyms.length = lens.length →
        progs.map (·.kaddrRange) = List.zipWith (fun ksym funcLen => ⟨ksym, ksym + funcLen.setWidth 64⟩) ksyms lens ∧
          ∀ f ∈ progs, Filtered lines f := by
  intro fns
  induction fns with
  | nil =>
    intro ksyms lens insns progs h hfns _
    obtain rfl : lens = [] := List.length_eq_zero_iff.mp hfns.symm
    obtain rfl : [] = progs := Except.ok.inj h
    simp
  | cons fn fns ih =>
    intro ksyms lens insns progs h hfns hksyms
    cases lens with
    | nil => cases hfns
    | cons funcLen lens =>
    cases ksyms with
    | nil => cases hksyms
    | cons ksym ksyms =>
      rw [newFuncInfos] at h
      split at h
      · cases h
      cases hrest : newFuncInfos lines fns ksyms lens (insns.drop funcLen.toNat) with
      | error err =>
        rw [hrest] at h
        cases h
      | ok rest =>
        rw [hrest] at h
        obtain rfl : newFuncInfo lines fn ksym funcLen :: rest = progs := Except.ok.inj h
        obtain ⟨hranges, hall⟩ := ih hrest (Nat.succ.inj hfns) (Nat.succ.inj hksyms)
        refine ⟨?_, ?_⟩
        · rw [List.map_cons, hranges]
          rfl
        · intro f hf
          rcases List.mem_cons.mp hf with rfl | hf
          · exact newFuncInfo_filtered lines fn ksym funcLen
          · exact hall f hf

/-- What `newBPFProgInfo` returns. -/
theorem newBPFProgInfo_spec {infos : ProgramID → Option LineProgramInfo} {info : Except GoError LineProgramInfo}
    {id : ProgramID} {arg : Option LineProgramInfo} {pinfo : LineProgramInfo} {progs : List BpfProgFuncInfo}
    (hpinfo : programInfo infos info id arg = .ok pinfo) (h : newBPFProgInfo infos info id arg = .ok progs) :
    progs.map (·.kaddrRange) = pinfo.ranges ∧ pinfo.lineAddrs.length = pinfo.lines.length ∧
      ∀ f ∈ progs, Filtered (pinfo.lineAddrs.zip pinfo.lines) f := by
  rw [newBPFProgInfo, hpinfo] at h
  dsimp only [bind, Except.bind] at h
  split at h
  · cases h
  split at h
  · cases h
  split at h
  · cases h
  split at h
  · cases h
  rename_i hlens hksyms hlines
  obtain ⟨hranges, hall⟩ := newFuncInfos_spec h (not_not.mp hlens) (not_not.mp hksyms)
  exact ⟨hranges, not_not.mp hlines, hall⟩

/-! ## A function -/

section Func

variable {f : BpfProgFuncInfo} {addr : Word}

theorem sorted_le {l : List Word} (h : l.Pairwise (· ≤ ·)) {i j : Nat} (hij : i ≤ j) (hj : j < l.length) :
    l[i] ≤ l[j] := by
  rcases Nat.lt_or_eq_of_le hij with hlt | rfl
  · exact List.pairwise_iff_getElem.mp h i j (by omega) hj hlt
  · exact BitVec.le_refl _

/-- The position that `slices.BinarySearch` returns. -/
theorem binarySearch_cut {l : List Word} (h : l.Pairwise (· ≤ ·)) (addr : Word) :
    (binarySearch l addr).1 ≤ l.length ∧
      (∀ m (hm : m < l.length), m < (binarySearch l addr).1 → l[m] < addr) ∧
      ∀ m (hm : m < l.length), (binarySearch l addr).1 ≤ m → addr ≤ l[m] := by
  have hbelow {m : Nat} (hm : m < l.length) : l.getD m 0 = l[m] := by
    rw [List.getD_eq_getElem?_getD, List.getElem?_eq_getElem hm, Option.getD_some]
  have hdesc : Descends (fun h => decide (l.getD h 0 < addr)) l.length := by
    intro i j hij hj hlt
    rw [decide_eq_true_iff, hbelow hj] at hlt
    rw [decide_eq_true_iff, hbelow (by omega)]
    have hle := sorted_le h hij hj
    bv_omega
  have hcut := bisect_spec hdesc (Nat.zero_le _)
  refine ⟨hcut.le', ?_, ?_⟩
  · intro m hm hlt
    have hfront := hcut.front m (Nat.zero_le _) hlt
    rwa [decide_eq_true_iff, hbelow hm] at hfront
  · intro m hm hle
    have hbehind := hcut.behind m hle hm
    rw [decide_eq_false_iff_not, hbelow hm] at hbehind
    exact BitVec.not_lt.mp hbehind

/-- `get` reads at a position where the greatest address not above is. -/
theorem get_greatest (hsorted : f.jitedLineInfo.Pairwise (· ≤ ·)) (hlen : f.lineInfos.length = f.jitedLineInfo.length)
    (hcontains : f.contains addr = true) (hline : ∃ kaddr ∈ f.jitedLineInfo, kaddr ≤ addr) :
    ∃ (k : Nat) (hk : k < f.jitedLineInfo.length), f.get addr = .ok (some (f.lineInfo f.lineInfos[k])) ∧
      f.jitedLineInfo[k] ≤ addr ∧ ∀ kaddr ∈ f.jitedLineInfo, kaddr ≤ addr → kaddr ≤ f.jitedLineInfo[k] := by
  obtain ⟨hle, hfront, hbehind⟩ := binarySearch_cut hsorted addr
  obtain ⟨kaddr, hmem, hkaddr⟩ := hline
  obtain ⟨j, hj, rfl⟩ := List.getElem_of_mem hmem
  have hread {k : Nat} (hk : k < f.jitedLineInfo.length) : sliceAt f.lineInfos k = .ok f.lineInfos[k] := by
    rw [sliceAt, List.getElem?_eq_getElem (by omega)]
  unfold BpfProgFuncInfo.get
  rw [if_neg (by simpa [BpfProgFuncInfo.contains] using hcontains)]
  by_cases hfound : f.jitedLineInfo[(binarySearch f.jitedLineInfo addr).1]? = some addr
  · -- the address is that of a line
    have hsnd : (binarySearch f.jitedLineInfo addr).2 = true := decide_eq_true hfound
    obtain ⟨hk, heq⟩ := List.getElem?_eq_some_iff.mp hfound
    refine ⟨_, hk, ?_, ?_, ?_⟩
    · simp only [hsnd, Bool.not_true, Bool.false_eq_true, if_false]
      rw [if_neg (by omega), Int.toNat_natCast, hread hk]
      rfl
    · rw [heq]
      exact BitVec.le_refl _
    · intro kaddr _ hbelow
      rwa [heq]
  · have hsnd : (binarySearch f.jitedLineInfo addr).2 = false := decide_eq_false hfound
    -- the line in front of the position found
    have hbefore {m : Nat} (hm : m < f.jitedLineInfo.length) (hbelow : f.jitedLineInfo[m] ≤ addr) :
        m < (binarySearch f.jitedLineInfo addr).1 := by
      by_contra hnot
      have hm' : (binarySearch f.jitedLineInfo addr).1 < f.jitedLineInfo.length := by omega
      have hat := hbehind _ hm' (Nat.le_refl _)
      have hsort := sorted_le hsorted (Nat.not_lt.mp hnot) hm
      refine hfound (List.getElem?_eq_some_iff.mpr ⟨hm', ?_⟩)
      exact BitVec.le_antisymm (BitVec.le_trans hsort hbelow) hat
    have hpos := hbefore hj hkaddr
    refine ⟨(binarySearch f.jitedLineInfo addr).1 - 1, by omega, ?_, ?_, ?_⟩
    · simp only [hsnd, Bool.not_false, if_true]
      have hpred : ((binarySearch f.jitedLineInfo addr).1 : Int) - 1
          = ((binarySearch f.jitedLineInfo addr).1 - 1 : Nat) := by omega
      rw [hpred, if_neg (by omega), Int.toNat_natCast, hread (by omega)]
      rfl
    · exact BitVec.le_of_lt (hfront _ _ (by omega))
    · intro kaddr hmem hbelow
      obtain ⟨m, hm, rfl⟩ := List.getElem_of_mem hmem
      have hlt := hbefore hm hbelow
      exact sorted_le hsorted (by omega) (by omega)

/-- In front of the first line it reads at −1. -/
theorem get_panics (hsorted : f.jitedLineInfo.Pairwise (· ≤ ·)) (hcontains : f.contains addr = true)
    (hnone : ∀ kaddr ∈ f.jitedLineInfo, ¬ kaddr ≤ addr) : f.get addr = .error (.panic "index out of range") := by
  obtain ⟨hle, hfront, hbehind⟩ := binarySearch_cut hsorted addr
  have hzero : (binarySearch f.jitedLineInfo addr).1 = 0 := by
    by_contra hpos
    have hlt := hfront 0 (by omega) (by omega)
    exact hnone _ (List.getElem_mem _) (BitVec.le_of_lt hlt)
  have hsnd : (binarySearch f.jitedLineInfo addr).2 = false := by
    refine decide_eq_false ?_
    intro hfound
    exact hnone addr (List.mem_of_getElem? hfound) (BitVec.le_refl _)
  unfold BpfProgFuncInfo.get
  rw [if_neg (by simpa [BpfProgFuncInfo.contains] using hcontains)]
  simp only [hzero, hsnd, Bool.not_false, if_true]
  rfl

/-- A function that contains the address answers. -/
theorem get_ne_none (hcontains : f.contains addr = true) : f.get addr ≠ .ok none := by
  unfold BpfProgFuncInfo.get
  rw [if_neg (by simpa [BpfProgFuncInfo.contains] using hcontains)]
  intro h
  dsimp only at h
  generalize (if (!(binarySearch f.jitedLineInfo addr).2) = true then ((binarySearch f.jitedLineInfo addr).1 : Int) - 1
    else (binarySearch f.jitedLineInfo addr).1) = idx at h
  split at h
  · cases h
  cases hread : sliceAt f.lineInfos idx.toNat with
  | error err =>
    rw [hread] at h
    cases h
  | ok line =>
    rw [hread] at h
    cases h

end Func

/-! ## A program -/

/-- The first function that contains the address answers. -/
theorem get_eq_find (progs : List BpfProgFuncInfo) (addr : Word) :
    BpfProgInfo.get progs addr =
      match progs.find? (·.contains addr) with
      | none => .ok none
      | some f => f.get addr := by
  induction progs with
  | nil => rfl
  | cons f progs ih =>
    rw [BpfProgInfo.get, List.find?_cons]
    cases hcontains : f.contains addr with
    | false =>
      have hget : f.get addr = .ok none := by
        unfold BpfProgFuncInfo.get
        rw [if_pos (by simpa [BpfProgFuncInfo.contains] using hcontains)]
      rw [hget]
      exact ih
    | true =>
      dsimp only
      cases hget : f.get addr with
      | error err => rfl
      | ok found =>
        cases found with
        | none => exact absurd hget (get_ne_none hcontains)
        | some li => rfl

section Program

variable {pinfo : LineProgramInfo} {f : BpfProgFuncInfo} {addr : Word}

theorem Filtered.sublist (h : Filtered (pinfo.lineAddrs.zip pinfo.lines) f)
    (hlen : pinfo.lineAddrs.length = pinfo.lines.length) : f.jitedLineInfo.Sublist pinfo.lineAddrs := by
  rw [h.addrs]
  have hsub := (List.filter_sublist (p := fun line => f.contains line.1)
    (l := pinfo.lineAddrs.zip pinfo.lines)).map (·.1)
  rwa [List.map_fst_zip (Nat.le_of_eq hlen)] at hsub

theorem Filtered.mem_iff (h : Filtered (pinfo.lineAddrs.zip pinfo.lines) f)
    (hlen : pinfo.lineAddrs.length = pinfo.lines.length) {kaddr : Word} :
    kaddr ∈ f.jitedLineInfo ↔ kaddr ∈ pinfo.lineAddrs ∧ f.contains kaddr = true := by
  rw [h.addrs, List.mem_map]
  constructor
  · intro hmem
    obtain ⟨line, hline, rfl⟩ := hmem
    have hin := List.mem_filter.mp hline
    exact ⟨(List.of_mem_zip hin.1).1, hin.2⟩
  · intro hmem
    have hfst : (pinfo.lineAddrs.zip pinfo.lines).map (·.1) = pinfo.lineAddrs := List.map_fst_zip (Nat.le_of_eq hlen)
    rw [← hfst] at hmem
    obtain ⟨line, hline, rfl⟩ := List.mem_map.mp hmem.1
    exact ⟨line, List.mem_filter.mpr ⟨hline, hmem.2⟩, rfl⟩

theorem Filtered.length_eq {lines : List (Word × Line)} (h : Filtered lines f) :
    f.lineInfos.length = f.jitedLineInfo.length := by
  rw [h.addrs, h.infos, List.length_map, List.length_map]

theorem Filtered.lineAt (h : Filtered (pinfo.lineAddrs.zip pinfo.lines) f) {k : Nat}
    (hk : k < f.jitedLineInfo.length) (hk' : k < f.lineInfos.length) :
    pinfo.LineAt f.jitedLineInfo[k] f.lineInfos[k] := by
  have hpair : (f.jitedLineInfo[k], f.lineInfos[k]) ∈ (pinfo.lineAddrs.zip pinfo.lines).filter fun line =>
      f.contains line.1 := by
    rw [List.mem_iff_getElem]
    have hlt : k < ((pinfo.lineAddrs.zip pinfo.lines).filter fun line => f.contains line.1).length := by
      rwa [h.addrs, List.length_map] at hk
    refine ⟨k, hlt, ?_⟩
    simp only [h.addrs, h.infos, List.getElem_map]
  exact (List.mem_filter.mp hpair).1

/-- What a lookup is to do: return, and where a function contains the address
and has a line not above it, return the last of these lines. -/
structure LooksUp (pinfo : LineProgramInfo) (progs : List BpfProgFuncInfo) (addr : Word) : Prop where
  returns : ∃ found, BpfProgInfo.get progs addr = .ok found
  greatest : ∀ r ∈ pinfo.ranges, r.contains addr = true → (∃ kaddr, kaddr ∈ pinfo.linesBelow r addr) →
    ∃ f ∈ progs, ∃ kaddr line, f.contains addr = true ∧ pinfo.LineAt kaddr line ∧
      BpfProgInfo.get progs addr = .ok (some (f.lineInfo line)) ∧ IsGreatest (pinfo.linesBelow r addr) kaddr

/-- All functions that contain the address and have a line not above it have
the same last one. -/
theorem greatest_agrees {r r' : BpfProgKaddrRange} {kaddr : Word} (hr : r.contains addr = true)
    (hr' : r'.contains addr = true) (h : IsGreatest (pinfo.linesBelow r addr) kaddr)
    (hline : ∃ kaddr', kaddr' ∈ pinfo.linesBelow r' addr) : IsGreatest (pinfo.linesBelow r' addr) kaddr := by
  have hin {r : BpfProgKaddrRange} {a : Word} : r.contains a = true ↔ r.start ≤ a ∧ a < r.end_ := decide_eq_true_iff
  obtain ⟨kaddr', hmem', hcontains', hle'⟩ := hline
  obtain ⟨⟨hmem, hcontains, hle⟩, hupper⟩ := h
  rw [hin] at hr hr' hcontains hcontains'
  -- a line of the second function at or below the address, in the first or in front of it
  have hcommon {a : Word} (ha : a ∈ pinfo.linesBelow r' addr) : a ≤ kaddr := by
    by_cases hstart : r.start ≤ a
    · have hle := ha.2.2
      exact hupper ⟨ha.1, hin.mpr ⟨hstart, by bv_omega⟩, hle⟩
    · bv_omega
  have hfirst : kaddr' ≤ kaddr := hcommon ⟨hmem', hin.mpr hcontains', hle'⟩
  refine ⟨⟨hmem, hin.mpr ⟨?_, ?_⟩, hle⟩, fun a => hcommon⟩
  · bv_omega
  · bv_omega

/-- **Line lookup.** A lookup does this if and only if the first function that
contains the address has a line not above it. -/
theorem line_lookup_iff {infos : ProgramID → Option LineProgramInfo} {info : Except GoError LineProgramInfo}
    {id : ProgramID} {arg : Option LineProgramInfo} {progs : List BpfProgFuncInfo}
    (hpinfo : programInfo infos info id arg = .ok pinfo) (hnew : newBPFProgInfo infos info id arg = .ok progs)
    (hsorted : pinfo.lineAddrs.Pairwise (· ≤ ·)) (addr : Word) :
    LooksUp pinfo progs addr ↔
      ∀ r, pinfo.ranges.find? (·.contains addr) = some r → ∃ kaddr, kaddr ∈ pinfo.linesBelow r addr := by
  obtain ⟨hranges, hlen, hall⟩ := newBPFProgInfo_spec hpinfo hnew
  have hget := get_eq_find progs addr
  have hfind : pinfo.ranges.find? (·.contains addr) = (progs.find? (·.contains addr)).map (·.kaddrRange) := by
    rw [← hranges, List.find?_map]
    rfl
  rw [hfind]
  cases hprog : progs.find? (·.contains addr) with
  | none =>
    rw [hprog] at hget hfind
    constructor
    · intro _ r hr
      cases hr
    · intro _
      refine ⟨⟨none, hget⟩, fun r hr hcontains => ?_⟩
      exact absurd hcontains (List.find?_eq_none.mp hfind r hr)
  | some f =>
    rw [hprog] at hget
    dsimp only at hget
    have hmem := List.mem_of_find?_eq_some hprog
    have hcontains : f.contains addr = true := List.find?_some (p := fun f : BpfProgFuncInfo => f.contains addr) hprog
    have hfilter := hall f hmem
    have hfsorted := hsorted.sublist (hfilter.sublist hlen)
    have hlines (kaddr : Word) :
        kaddr ∈ pinfo.linesBelow f.kaddrRange addr ↔ kaddr ∈ f.jitedLineInfo ∧ kaddr ≤ addr := by
      rw [hfilter.mem_iff hlen, and_assoc]
      rfl
    constructor
    · intro hlooks r hr
      obtain rfl : f.kaddrRange = r := Option.some.inj hr
      obtain ⟨found, hfound⟩ := hlooks.returns
      by_contra hnone
      rw [hget, get_panics hfsorted hcontains fun kaddr hkaddr hle => hnone ⟨kaddr, (hlines kaddr).mpr ⟨hkaddr, hle⟩⟩]
        at hfound
      cases hfound
    · intro hcond
      obtain ⟨kaddr, hkaddr⟩ := hcond _ rfl
      obtain ⟨k, hk, hfound, hbelow, hupper⟩ :=
        get_greatest hfsorted hfilter.length_eq hcontains ⟨kaddr, (hlines kaddr).mp hkaddr⟩
      have hgreatest : IsGreatest (pinfo.linesBelow f.kaddrRange addr) f.jitedLineInfo[k] :=
        ⟨(hlines _).mpr ⟨List.getElem_mem hk, hbelow⟩,
          fun a ha => hupper a ((hlines a).mp ha).1 ((hlines a).mp ha).2⟩
      refine ⟨⟨_, hget.trans hfound⟩, fun r hr hr' hline => ?_⟩
      exact ⟨f, hmem, _, _, hcontains, hfilter.lineAt hk _, hget.trans hfound,
        greatest_agrees hcontains hr' hgreatest hline⟩

end Program

/-- A program of one function of 16 bytes. -/
def oneFunction (lineInfos : List Line) (jitedLineInfos : List Word) : LineProgramInfo where
  id := 1
  btfID := true
  tag := ""
  instructions := .ok []
  jitedKsymAddrs := some [0xFFFFFFFFC0001000]
  jitedFuncLens := some [16]
  funcInfos := .ok [⟨"prog", ⟨[], .void⟩⟩]
  jitedInsns := some (List.replicate 16 0)
  lineInfos := .ok lineInfos
  jitedLineInfos := some jitedLineInfos

/-- A line at its start is found from the addresses behind. -/
theorem oneFunction_located :
    ∃ progs, newBPFProgInfo (fun _ => none) (.ok (oneFunction [⟨"./prog.c", 7⟩] [0xFFFFFFFFC0001000])) 1 none
        = .ok progs ∧
      LooksUp (oneFunction [⟨"./prog.c", 7⟩] [0xFFFFFFFFC0001000]) progs 0xFFFFFFFFC0001008 := by
  have hnew : newBPFProgInfo (fun _ => none) (.ok (oneFunction [⟨"./prog.c", 7⟩] [0xFFFFFFFFC0001000])) 1 none
      = .ok [newFuncInfo [(0xFFFFFFFFC0001000, ⟨"./prog.c", 7⟩)] ⟨"prog", ⟨[], .void⟩⟩ 0xFFFFFFFFC0001000 16] := rfl
  refine ⟨_, hnew, (line_lookup_iff rfl hnew (by decide) 0xFFFFFFFFC0001008).mpr fun r hr => ?_⟩
  obtain rfl := Option.some.inj hr
  exact ⟨0xFFFFFFFFC0001000, by decide, by decide, by decide⟩

/-- Without lines the lookup panics. -/
theorem lineless_panics :
    ∃ progs, newBPFProgInfo (fun _ => none) (.ok (oneFunction [] [])) 1 none = .ok progs ∧
      BpfProgInfo.get progs 0xFFFFFFFFC0001000 = .error (.panic "index out of range") ∧
      ¬ LooksUp (oneFunction [] []) progs 0xFFFFFFFFC0001000 := by
  have hpanic : BpfProgInfo.get [newFuncInfo [] ⟨"prog", ⟨[], .void⟩⟩ 0xFFFFFFFFC0001000 16] 0xFFFFFFFFC0001000
      = .error (.panic "index out of range") := by
    rw [get_eq_find]
    exact get_panics .nil (by decide) (by simp [newFuncInfo])
  have hnew : newBPFProgInfo (fun _ => none) (.ok (oneFunction [] [])) 1 none
      = .ok [newFuncInfo [] ⟨"prog", ⟨[], .void⟩⟩ 0xFFFFFFFFC0001000 16] := rfl
  refine ⟨_, hnew, hpanic, fun hlooks => ?_⟩
  obtain ⟨found, hfound⟩ := hlooks.returns
  rw [hfound] at hpanic
  cases hpanic

end Bpfsnoop.Progs
