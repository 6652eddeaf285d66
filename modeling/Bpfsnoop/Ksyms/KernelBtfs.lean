/-
Bpfsnoop.Ksyms.KernelBtfs — the search through the BTFs of the kernel.

`iterateKernelBtfs` asks an iterator about the BTF of the kernel and those
of its modules, and then about the extra ones of `--kmod-btf-dir`. An
iterator that returns `true` is to stop the search, but it only breaks out
of the loop it is in: the extra BTFs are searched all the same. So the calls
are in order if and only if no kernel BTF stopped the iterator, or there are
no extra ones (`search_iff`). `findStructUnionType` keeps what it was last
told, and may return a type of an extra BTF instead of the kernel's.

The files are a parameter: what directories list, which files exist, what
loads, and the order in which Go ranges over a map. One call is modelled,
without what sorting in place leaves of `--kfunc-kmods` for the next.
-/
import Bpfsnoop.CC.Variables
import Bpfsnoop.Lib.Visits
import Mathlib.Data.List.AList

namespace Bpfsnoop.Ksyms

open Btf Lib
open CC (GoError compact)

/-! ## Paths -/

/-- One element of a path, behind the elements that are left of those before. -/
def pushElem (rooted : Bool) (out : List (List Char)) (elem : List Char) : List (List Char) :=
  if elem = [] ∨ elem = ['.'] then out
  else if elem = ['.', '.'] then
    match out.getLast? with
    | some last => if last = ['.', '.'] then out ++ [elem] else out.dropLast
    | none => if rooted then [] else [elem]
  else out ++ [elem]

/-- `filepath.Clean`. -/
def clean (path : String) : String :=
  let rooted := path.toList.head? = some '/'
  let elems := (path.toList.splitOn '/').foldl (pushElem rooted) []
  let body := ['/'].intercalate elems
  if rooted then String.ofList ('/' :: body)
  else if body = [] then "."
  else String.ofList body

/-- `filepath.Join`, of two elements. -/
def join (dir file : String) : String :=
  if dir ≠ "" then clean (dir ++ "/" ++ file)
  else if file ≠ "" then clean file
  else ""

/-- `strings.HasSuffix`. -/
def hasSuffix (s suffix : String) : Bool := suffix.toList.isSuffixOf s.toList

/-- `strings.TrimSuffix`. -/
def trimSuffix (s suffix : String) : String :=
  if hasSuffix s suffix then String.ofList (s.toList.take (s.toList.length - suffix.toList.length)) else s

/-! ## The code -/

/-- `os.DirEntry`. -/
structure DirEntry where
  name : String
  isDir : Bool

/-- The files that hold BTFs, and the BTF of the kernel that is loaded. -/
structure BtfFiles where
  readDir : String → Except GoError (List DirEntry)
  fileExists : String → Bool
  loadKernelModuleSpec : String → Except GoError Spec
  loadSpec : String → Except LookupError Spec
  getKernelBTF : Spec
  /-- The order in which Go ranges over the values of a map. -/
  range : List Spec → List Spec
  range_perm : ∀ specs, (range specs).Perm specs

/-- The flags that name extra BTFs. -/
structure KmodFlags where
  kfuncKmods : List String
  kmodBTFDir : String

abbrev KmodBtfs := AList fun _ : String => Spec

def kernelBTFPath : String := "/sys/kernel/btf"

/-- The files that are no directories, less vmlinux. -/
def kmodFileNames (files : List DirEntry) : List String :=
  (files.filter fun file => !(file.isDir || file.name = "vmlinux")).map (·.name)

def sortCompact (names : List String) : List String := compact (names.insertionSort (· ≤ ·))

/-- The modules to search where all are. -/
def allKmodNames (files : List DirEntry) : List String :=
  "vmlinux" :: (kmodFileNames files).insertionSort (· ≤ ·)

/-- The modules to search where some are given. -/
def someKmodNames (kmods : List String) : List String :=
  match (sortCompact kmods).idxOf? "vmlinux" with
  | some idx => "vmlinux" :: (sortCompact kmods).eraseIdx idx
  | none => "vmlinux" :: sortCompact kmods

section Code

variable (fs : BtfFiles) (flags : KmodFlags) {σ : Type} (iter : σ → Spec → Bool × σ)

/-- A loop over modules; `skip` is its test for a file. -/
def iterateModules (skip : String → Bool) : List String → σ → Except GoError Unit × σ
  | [], s => (.ok (), s)
  | file :: files, s =>
    if skip file then iterateModules skip files s
    else
      match fs.loadKernelModuleSpec file with
      | .error err => (.error (.wrapf "failed to load kernel module BTF: %w" [] err), s)
      | .ok kmodBtf =>
        match iter s kmodBtf with
        | (true, s) => (.ok (), s)
        | (false, s) => iterateModules skip files s

/-- The three ways to search the kernel's own BTFs. -/
def iterateKernel (allKmods : Bool) (kmods : List String) (s : σ) : Except GoError Unit × σ :=
  if allKmods then
    match fs.readDir kernelBTFPath with
    | .error err => (.error (.wrapf "failed to read /sys/kernel/btf: %w" [] err), s)
    | .ok files => iterateModules fs iter (fun _ => false) (allKmodNames files) s
  else if kmods ≠ [] then
    iterateModules fs iter (fun kmod => !fs.fileExists (join kernelBTFPath kmod)) (someKmodNames kmods) s
  else (.ok (), (iter s fs.getKernelBTF).2)

/-- The body of the loop of `LoadKmodBtfs` over `--kfunc-kmods`. -/
def loadKmod (kmodBTFDir : String) (btfs : KmodBtfs) (kmod : String) : Except GoError KmodBtfs :=
  let btfPath := join kmodBTFDir (kmod ++ ".btf")
  if !fs.fileExists btfPath then .error (.errorf "split BTF file %s does not exist" [.text btfPath])
  else
    match fs.loadSpec btfPath with
    | .error .notFound => .ok btfs
    | .error err => .error (.wrapf "failed to load %s btf: %w" [.text btfPath] (.lookup err))
    | .ok kmodBtf => .ok (btfs.insert kmod kmodBtf)

/-- The body of its loop over a directory. -/
def loadKmodFile (kmodBTFDir : String) (btfs : KmodBtfs) (fileName : String) : Except GoError KmodBtfs :=
  let btfPath := join kmodBTFDir fileName
  match fs.loadSpec btfPath with
  | .error .notFound => .ok btfs
  | .error err => .error (.wrapf "failed to load %s BTF: %w" [.text btfPath] (.lookup err))
  | .ok kmodBtf => .ok (btfs.insert (trimSuffix fileName ".btf") kmodBtf)

/-- `LoadKmodBtfs`. -/
def loadKmodBtfs (kmods : List String) (kmodBTFDir : String) : Except GoError KmodBtfs :=
  if kmodBTFDir = "" then .ok ∅
  else if kmods ≠ [] then
    let kmods := match (sortCompact kmods).idxOf? "vmlinux" with
      | some idx => (sortCompact kmods).eraseIdx idx
      | none => sortCompact kmods
    kmods.foldlM (loadKmod fs kmodBTFDir) ∅
  else
    match fs.readDir kmodBTFDir with
    | .error err => .error (.wrapf "failed to read /sys/kernel/btf: %w" [] err)
    | .ok files =>
      ((kmodFileNames files).filter fun name => hasSuffix name ".btf").foldlM (loadKmodFile fs kmodBTFDir) ∅

/-- The values of a map, as Go ranges over them. -/
def rangeBtfs (btfs : KmodBtfs) : List Spec := fs.range (btfs.entries.map (·.2))

/-- The loop over the extra BTFs. -/
def iterateExtra : List Spec → σ → σ
  | [], s => s
  | kmodBtf :: kmodBtfs, s =>
    match iter s kmodBtf with
    | (true, s) => s
    | (false, s) => iterateExtra kmodBtfs s

/-- `iterateKernelBtfs`, with the state that the iterator leaves. -/
def iterateKernelBtfs (allKmods : Bool) (kmods : List String) (s : σ) : Except GoError Unit × σ :=
  match iterateKernel fs iter allKmods kmods s with
  | (.error err, s) => (.error err, s)
  | (.ok (), s) =>
    match loadKmodBtfs fs flags.kfuncKmods flags.kmodBTFDir with
    | .error err => (.error err, s)
    | .ok kmodBtfs => (.ok (), iterateExtra iter (rangeBtfs fs kmodBtfs) s)

/-- The iterator of `findStructUnionType`. The error it makes goes to a
variable of its own. -/
def findIter (typeName : String) (typ : Option BtfType) (spec : Spec) : Bool × Option BtfType :=
  match spec.anyTypeByName typeName with
  | .error .notFound => (false, typ)
  | .error (.other _) => (true, typ)
  | .ok t => (true, some t)

/-- `findStructUnionType`: its error, and its type. -/
def findStructUnionType (typeName : String) : Except GoError Unit × Option BtfType :=
  iterateKernelBtfs fs flags (findIter typeName) true [] none

end Code

/-! ## The order of the search -/

section Order

variable (fs : BtfFiles) (flags : KmodFlags) {σ : Type} (iter : σ → Spec → Bool × σ)

/-- The modules that load, up to the first that does not. -/
def loadedSpecs : List String → List Spec
  | [] => []
  | file :: files =>
    match fs.loadKernelModuleSpec file with
    | .error _ => []
    | .ok spec => spec :: loadedSpecs files

/-- The kernel's own BTFs, vmlinux first. -/
def kernelSpecs (allKmods : Bool) (kmods : List String) : List Spec :=
  if allKmods then
    match fs.readDir kernelBTFPath with
    | .error _ => []
    | .ok files => loadedSpecs fs (allKmodNames files)
  else if kmods ≠ [] then
    loadedSpecs fs ((someKmodNames kmods).filter fun kmod => fs.fileExists (join kernelBTFPath kmod))
  else [fs.getKernelBTF]

/-- The extra BTFs; none where they do not load. -/
def extraSpecs : List Spec :=
  match loadKmodBtfs fs flags.kfuncKmods flags.kmodBTFDir with
  | .error _ => []
  | .ok kmodBtfs => rangeBtfs fs kmodBtfs

def searchOrder (allKmods : Bool) (kmods : List String) : List Spec :=
  kernelSpecs fs allKmods kmods ++ extraSpecs fs flags

/-- The calls of the iterator, with its answers. -/
def calls (allKmods : Bool) (kmods : List String) (s : σ) : List (Spec × Bool) :=
  (iterateKernelBtfs fs flags (recorded iter) allKmods kmods (s, [])).2.2

/-- What a BTF says of a name: nothing, an error, or a type. -/
def definition? (typeName : String) (spec : Spec) : Option (Option BtfType) :=
  match spec.anyTypeByName typeName with
  | .error .notFound => none
  | .error (.other _) => some none
  | .ok t => some (some t)

/-- The type that the first BTF that defines the name gives. -/
def firstType (typeName : String) (specs : List Spec) : Option BtfType :=
  (specs.findSome? (definition? typeName)).join

end Order

/-! ## What is searched -/

section Search

variable {fs : BtfFiles} {flags : KmodFlags} {σ : Type} {iter : σ → Spec → Bool × σ}
variable {allKmods : Bool} {kmods : List String} {s : σ}

/-- A search that ends as a visit does, or fails where the visit goes on. -/
structure Visits (r : Except GoError Unit × σ) (v : Bool × σ) : Prop where
  state : r.2 = v.2
  error : ∀ err, r.1 = .error err → v.1 = false

/-- A loop over modules visits those that load. -/
theorem iterateModules_visits (fs : BtfFiles) (iter : σ → Spec → Bool × σ) (skip : String → Bool)
    (files : List String) (s : σ) : Visits (iterateModules fs iter skip files s)
      (visit iter (loadedSpecs fs (files.filter fun file => !skip file)) s) := by
  induction files generalizing s with
  | nil => exact ⟨rfl, fun _ _ => rfl⟩
  | cons file files ih =>
    rw [iterateModules, List.filter_cons]
    cases hskip : skip file with
    | true => exact ih s
    | false =>
      rw [Bool.not_false, if_neg Bool.false_ne_true, if_pos rfl, loadedSpecs]
      cases hload : fs.loadKernelModuleSpec file with
      | error err => exact ⟨rfl, fun _ _ => rfl⟩
      | ok spec =>
        rw [visit]
        cases hiter : iter s spec with
        | mk answer t =>
          simp only [hiter]
          cases answer with
          | true => exact ⟨rfl, fun err h => by cases h⟩
          | false => exact ih t

theorem iterateKernel_visits (fs : BtfFiles) (iter : σ → Spec → Bool × σ) (allKmods : Bool) (kmods : List String)
    (s : σ) : Visits (iterateKernel fs iter allKmods kmods s) (visit iter (kernelSpecs fs allKmods kmods) s) := by
  rw [iterateKernel, kernelSpecs]
  split
  · cases fs.readDir kernelBTFPath with
    | error err => exact ⟨rfl, fun _ _ => rfl⟩
    | ok files =>
      have hall := iterateModules_visits fs iter (fun _ => false) (allKmodNames files) s
      rwa [Bool.not_false, List.filter_true] at hall
  · split
    · have hsome := iterateModules_visits fs iter (fun kmod => !fs.fileExists (join kernelBTFPath kmod))
        (someKmodNames kmods) s
      simpa only [Bool.not_not] using hsome
    · refine ⟨?_, fun err h => by cases h⟩
      simp only [visit]
      cases iter s fs.getKernelBTF with
      | mk answer t => cases answer <;> rfl

theorem iterateExtra_eq (specs : List Spec) (s : σ) : iterateExtra iter specs s = (visit iter specs s).2 := by
  induction specs generalizing s with
  | nil => rfl
  | cons spec specs ih =>
    rw [iterateExtra, visit]
    cases iter s spec with
    | mk answer t =>
      cases answer with
      | true => rfl
      | false => exact ih t

/-- A search visits the kernel's BTFs and then, unless it has failed, the
extra ones. -/
theorem iterateKernelBtfs_cases (fs : BtfFiles) (flags : KmodFlags) (iter : σ → Spec → Bool × σ)
    (allKmods : Bool) (kmods : List String) (s : σ) :
    ((visit iter (kernelSpecs fs allKmods kmods) s).1 = false ∧
      (iterateKernelBtfs fs flags iter allKmods kmods s).1 ≠ .ok () ∧
      (iterateKernelBtfs fs flags iter allKmods kmods s).2 = (visit iter (kernelSpecs fs allKmods kmods) s).2) ∨
    (iterateKernelBtfs fs flags iter allKmods kmods s).2
      = (visit iter (extraSpecs fs flags) (visit iter (kernelSpecs fs allKmods kmods) s).2).2 := by
  obtain ⟨hstate, herror⟩ := iterateKernel_visits fs iter allKmods kmods s
  rw [iterateKernelBtfs, extraSpecs]
  cases h : iterateKernel fs iter allKmods kmods s with
  | mk result t =>
    rw [h] at hstate herror
    cases result with
    | error err => exact .inl ⟨herror err rfl, by rintro ⟨⟩, hstate⟩
    | ok u =>
      refine .inr ?_
      rw [← hstate]
      cases loadKmodBtfs fs flags.kfuncKmods flags.kmodBTFDir with
      | error err => rfl
      | ok kmodBtfs => exact iterateExtra_eq _ t

theorem calls_eq (fs : BtfFiles) (flags : KmodFlags) (iter : σ → Spec → Bool × σ)
    (allKmods : Bool) (kmods : List String) (s : σ) :
    ((visit iter (kernelSpecs fs allKmods kmods) s).1 = false ∧
      calls fs flags iter allKmods kmods s = asked iter (kernelSpecs fs allKmods kmods) s) ∨
    calls fs flags iter allKmods kmods s
      = asked iter (kernelSpecs fs allKmods kmods) s ++
        asked iter (extraSpecs fs flags) (visit iter (kernelSpecs fs allKmods kmods) s).2 := by
  rcases iterateKernelBtfs_cases fs flags (recorded iter) allKmods kmods (s, []) with
    ⟨hgoes, -, hstate⟩ | hstate
  · rw [visit_recorded] at hgoes hstate
    exact .inl ⟨hgoes, by rw [calls, hstate, List.nil_append]⟩
  · rw [visit_recorded, visit_recorded] at hstate
    exact .inr (by rw [calls, hstate, List.nil_append])

/-- The calls are in order, and end at the first `true`, if and only if no
BTF of the kernel stops the iterator or there are no extra ones. -/
theorem inOrder_calls_iff (fs : BtfFiles) (flags : KmodFlags) (iter : σ → Spec → Bool × σ)
    (allKmods : Bool) (kmods : List String) (s : σ) :
    InOrder (searchOrder fs flags allKmods kmods) (calls fs flags iter allKmods kmods s) ↔
      (visit iter (kernelSpecs fs allKmods kmods) s).1 = false ∨ extraSpecs fs flags = [] := by
  rcases calls_eq fs flags iter allKmods kmods s with ⟨hgoes, hcalls⟩ | hcalls
  · rw [hcalls]
    exact iff_of_true ((inOrder_asked iter _ s).append_right _) (.inl hgoes)
  · rw [hcalls]
    exact inOrder_twice_iff iter _ _ s

/-! ## Types by name -/

theorem findIter_eq (typeName : String) : findIter typeName = seek (definition? typeName) := by
  funext typ spec
  rw [findIter, seek, definition?]
  cases spec.anyTypeByName typeName with
  | error err => cases err <;> rfl
  | ok t => rfl

/-- The type is that of an extra BTF, if one gives a type, and otherwise
the kernel's. -/
theorem findStructUnionType_eq {typeName : String} {typ : Option BtfType}
    (h : findStructUnionType fs flags typeName = (.ok (), typ)) :
    typ = (firstType typeName (extraSpecs fs flags)).or (firstType typeName (kernelSpecs fs true [])) := by
  rw [findStructUnionType, findIter_eq] at h
  rcases iterateKernelBtfs_cases fs flags (seek (definition? typeName)) true [] none with
    ⟨-, hfails, -⟩ | hstate
  · exact absurd (congrArg Prod.fst h) hfails
  · rw [h, visit_seek, visit_seek, Option.or_none] at hstate
    exact hstate

theorem firstType_append (typeName : String) (specs extra : List Spec) :
    firstType typeName (specs ++ extra) =
      if specs.findSome? (definition? typeName) = none then firstType typeName extra
      else firstType typeName specs := by
  rw [firstType, List.findSome?_append]
  cases h : specs.findSome? (definition? typeName) with
  | none => rfl
  | some answer => rw [if_neg (by simp), firstType, h]; rfl

/-- The type is that of the first BTF that defines the name, if and only if
no BTF of the kernel defines it, or the extra ones give no type for it, or
they give the same one. -/
theorem firstType_iff {typeName : String} {typ : Option BtfType}
    (h : findStructUnionType fs flags typeName = (.ok (), typ)) :
    typ = firstType typeName (searchOrder fs flags true []) ↔
      (∀ spec ∈ kernelSpecs fs true [], spec.anyTypeByName typeName = .error .notFound) ∨
      firstType typeName (extraSpecs fs flags) = none ∨
      firstType typeName (extraSpecs fs flags) = firstType typeName (kernelSpecs fs true []) := by
  have hnone : (kernelSpecs fs true []).findSome? (definition? typeName) = none ↔
      ∀ spec ∈ kernelSpecs fs true [], spec.anyTypeByName typeName = .error .notFound := by
    rw [List.findSome?_eq_none_iff]
    refine forall₂_congr fun spec _ => ?_
    rw [definition?]
    split <;> simp_all
  rw [findStructUnionType_eq h, searchOrder, firstType_append, ← hnone]
  by_cases hkernel : (kernelSpecs fs true []).findSome? (definition? typeName) = none
  · have htype : firstType typeName (kernelSpecs fs true []) = none := by rw [firstType, hkernel]; rfl
    rw [if_pos hkernel, htype, Option.or_none]
    exact iff_of_true rfl (.inl hkernel)
  · rw [if_neg hkernel]
    cases firstType typeName (extraSpecs fs flags) with
    | none => simp
    | some t => simp [hkernel]

/-- **When the search stops at the first match.** -/
theorem search_iff (fs : BtfFiles) (flags : KmodFlags) :
    (∀ (σ : Type) (iter : σ → Spec → Bool × σ) (allKmods : Bool) (kmods : List String) (s : σ),
      InOrder (searchOrder fs flags allKmods kmods) (calls fs flags iter allKmods kmods s) ↔
        (visit iter (kernelSpecs fs allKmods kmods) s).1 = false ∨ extraSpecs fs flags = []) ∧
    ∀ (typeName : String) (typ : Option BtfType), findStructUnionType fs flags typeName = (.ok (), typ) →
      (typ = firstType typeName (searchOrder fs flags true []) ↔
        (∀ spec ∈ kernelSpecs fs true [], spec.anyTypeByName typeName = .error .notFound) ∨
        firstType typeName (extraSpecs fs flags) = none ∨
        firstType typeName (extraSpecs fs flags) = firstType typeName (kernelSpecs fs true [])) :=
  ⟨fun _ iter allKmods kmods s => inOrder_calls_iff fs flags iter allKmods kmods s,
    fun _ _ h => firstType_iff h⟩

end Search

/-- A BTF with one struct. -/
def structSpec (structName : String) (ref : Nat) : Spec where
  anyTypeByName name := if name = structName then .ok (.struct structName ref) else .error .notFound
  typeID _ := none
  all := [.struct structName ref]

/-- A kernel with the module bridge, and the extra BTF of the module veth. -/
def vethFiles : BtfFiles where
  readDir dir := if dir = kernelBTFPath then .ok [⟨"bridge", false⟩, ⟨"vmlinux", false⟩] else .ok [⟨"veth.btf", false⟩]
  fileExists _ := true
  loadKernelModuleSpec name := .ok (if name = "bridge" then structSpec "net_bridge" 1 else structSpec "sk_buff" 0)
  loadSpec _ := .ok (structSpec "veth_priv" 2)
  getKernelBTF := structSpec "sk_buff" 0
  range specs := specs
  range_perm _ := .refl _

/-- Neither vmlinux nor the module has `struct veth_priv`, and the extra BTF
has. -/
theorem veth_priv_found :
    kernelSpecs vethFiles true [] = [structSpec "sk_buff" 0, structSpec "net_bridge" 1] ∧
      extraSpecs vethFiles ⟨[], "/btf"⟩ = [structSpec "veth_priv" 2] ∧
    findStructUnionType vethFiles ⟨[], "/btf"⟩ "veth_priv" = (.ok (), some (.struct "veth_priv" 2)) ∧
      some (.struct "veth_priv" 2) = firstType "veth_priv" (searchOrder vethFiles ⟨[], "/btf"⟩ true []) ∧
      InOrder (searchOrder vethFiles ⟨[], "/btf"⟩ true [])
        (calls vethFiles ⟨[], "/btf"⟩ (findIter "veth_priv") true [] none) := by
  have hkernel : kernelSpecs vethFiles true [] = [structSpec "sk_buff" 0, structSpec "net_bridge" 1] := rfl
  have hfound : findStructUnionType vethFiles ⟨[], "/btf"⟩ "veth_priv" =
    (.ok (), some (.struct "veth_priv" 2)) := rfl
  refine ⟨hkernel, rfl, hfound, ((search_iff vethFiles ⟨[], "/btf"⟩).2 _ _ hfound).mpr (.inl fun spec hspec => ?_),
    ((search_iff vethFiles ⟨[], "/btf"⟩).1 _ _ _ _ _).mpr (.inl (by rw [hkernel]; rfl))⟩
  rw [hkernel, List.mem_cons, List.mem_singleton] at hspec
  rcases hspec with rfl | rfl <;> rfl

/-- A kernel without modules, and the extra BTF of one. -/
def skbFiles : BtfFiles where
  readDir dir := if dir = kernelBTFPath then .ok [⟨"vmlinux", false⟩] else .ok [⟨"veth.btf", false⟩]
  fileExists _ := true
  loadKernelModuleSpec _ := .ok (structSpec "sk_buff" 0)
  loadSpec _ := .ok (structSpec "sk_buff" 1)
  getKernelBTF := structSpec "sk_buff" 0
  range specs := specs
  range_perm _ := .refl _

/-- With `--kmod-btf-dir`, the search goes on behind the kernel's `struct
sk_buff`, and the other one is returned. -/
theorem extra_skb_returned :
    calls skbFiles ⟨[], "/btf"⟩ (findIter "sk_buff") true [] none
        = [(structSpec "sk_buff" 0, true), (structSpec "sk_buff" 1, true)] ∧
      ¬InOrder (searchOrder skbFiles ⟨[], "/btf"⟩ true [])
        (calls skbFiles ⟨[], "/btf"⟩ (findIter "sk_buff") true [] none) ∧
      findStructUnionType skbFiles ⟨[], "/btf"⟩ "sk_buff" = (.ok (), some (.struct "sk_buff" 1)) ∧
      firstType "sk_buff" (searchOrder skbFiles ⟨[], "/btf"⟩ true []) = some (.struct "sk_buff" 0) := by
  have hcalls : calls skbFiles ⟨[], "/btf"⟩ (findIter "sk_buff") true [] none
      = [(structSpec "sk_buff" 0, true), (structSpec "sk_buff" 1, true)] := rfl
  refine ⟨hcalls, fun h => ?_, rfl, rfl⟩
  rw [hcalls] at h
  cases h.last [] _ _ rfl

end Bpfsnoop.Ksyms
