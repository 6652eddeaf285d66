/-
Bpfsnoop.Progs.StubTheorems — what is left of a program behind operations
on its stubs.

`injectInsns_split` says what an injection does to a flat program. From it,
`apply_iff`: an operation does what it should to the subprograms of a
program if and only if it is `Clean`. `runOps_iff` is the same for runs.
-/
import Bpfsnoop.Progs.Stubs
import Bpfsnoop.CC.ExitLabel
import Bpfsnoop.Lib.Runs
import Mathlib.Data.List.TakeWhile

namespace Bpfsnoop.Progs

open Ebpf Reg CC Trace Lib

variable {α : Type} {movR0 : Bool → α}

/-! ## One stub in a flat program -/

section Flat

variable {pre post t new prog : List (Instruction α)} {h : Instruction α} {stub : String}

/-- The scan for the next symbol. -/
theorem drop_findIdx_symbol (code : List (Instruction α)) :
    code.drop (code.findIdx fun i => i.symbol ≠ "") = code.dropWhile fun i => i.symbol = "" := by
  induction code with
  | nil => rfl
  | cons i code ih =>
    by_cases hi : i.symbol = ""
    · simpa [List.findIdx_cons, hi] using ih
    · simp [List.findIdx_cons, hi]

/-- What has symbols stops the scan. -/
theorem dropWhile_append (hpost : ∀ i ∈ post.head?, i.symbol ≠ "") :
    (t ++ post).dropWhile (fun i => i.symbol = "") = t.dropWhile (fun i => i.symbol = "") ++ post := by
  induction t with
  | nil =>
    cases post with
    | nil => rfl
    | cons i post =>
      have hi : i.symbol ≠ "" := hpost i (by simp)
      simp [hi]
  | cons i t ih =>
    by_cases hi : i.symbol = ""
    · simpa [hi] using ih
    · simp [hi]

theorem injectInsns_absent (h : ∀ i ∈ prog, i.symbol ≠ stub) : injectInsns prog stub new = prog := by
  have hnone : findStartIndex prog stub = none := by
    simpa [findStartIndex] using h
  simp [injectInsns, hnone]

/-- **An injection** replaces the stub up to the next symbol. -/
theorem injectInsns_split (hpre : ∀ i ∈ pre, i.symbol ≠ stub) (hh : h.symbol = stub)
    (hpost : ∀ i ∈ post.head?, i.symbol ≠ "") :
    injectInsns (pre ++ (h :: t ++ post)) stub new
      = pre ++ (withStubMetadata (some h) new ++ (t.dropWhile (fun i => i.symbol = "") ++ post)) := by
  have hstart : findStartIndex (pre ++ (h :: t ++ post)) stub = some pre.length := by
    have hnone : pre.findIdx? (fun i => i.symbol = stub) = none := by
      simpa using hpre
    simp [findStartIndex, List.findIdx?_append, hnone, List.findIdx?_cons, hh]
  have hdrop (n : Nat) : (pre ++ (h :: t ++ post)).drop (pre.length + 1 + n) = (t ++ post).drop n := by
    rw [Nat.add_assoc, List.drop_append, Nat.add_comm 1 n]
    simp
  have hend : findEndIndex (pre ++ (h :: t ++ post)) pre.length + 1
      = pre.length + 1 + (t ++ post).findIdx fun i => i.symbol ≠ "" := by
    have h0 := hdrop 0
    rw [Nat.add_zero, List.drop_zero] at h0
    rw [findEndIndex, h0]
    omega
  have hget : (pre ++ (h :: t ++ post))[pre.length]? = some h := by simp
  simp only [injectInsns, hstart, hget, List.take_left]
  rw [hend, hdrop, drop_findIdx_symbol, dropWhile_append hpost]

end Flat

/-! ## The history of a stub -/

section History

variable {ops : List (StubOp α)} {stub s : String} {isFilter : Bool} {body : Body α}

@[simp] theorem cleared_inject : cleared (ops ++ [.inject stub body]) s = cleared ops s := by
  simp [cleared, List.findSome?_append]

theorem cleared_clear : cleared (ops ++ [.clear stub isFilter]) s
    = (cleared ops s).or (if stub = s then some isFilter else none) := by
  simp [cleared, List.findSome?_append, List.findSome?_cons]
  cases h : (if stub = s then some isFilter else none) <;> simp_all

@[simp] theorem lastBody_clear : lastBody (ops ++ [.clear stub isFilter]) s = lastBody ops s := by
  simp [lastBody]

theorem lastBody_inject : lastBody (ops ++ [.inject stub body]) s
    = if stub = s then some body else lastBody ops s := by
  simp only [lastBody, List.reverse_append, List.reverse_singleton, List.singleton_append,
    List.findSome?_cons]
  by_cases h : stub = s <;> simp [h]

/-- The last body was injected. -/
theorem mem_of_lastBody (h : lastBody ops s = some body) : .inject s body ∈ ops := by
  obtain ⟨op, hop, heq⟩ := List.exists_of_findSome?_eq_some h
  rw [List.mem_reverse] at hop
  cases op with
  | clear => simp at heq
  | inject stub b =>
    simp only [Option.ite_none_right_eq_some, Option.some.injEq] at heq
    obtain ⟨rfl, rfl⟩ := heq
    exact hop

end History

/-! ## The subprograms behind the operations -/

section Standing

variable {names : Set String} {prog : List (Subprog α)} {ops : List (StubOp α)} {u : Subprog α}
  {i : Instruction α} {stub : String} {isFilter : Bool} {body : Body α}

@[simp] theorem resolve_symbol : (resolve movR0 ops i).symbol = i.symbol := by
  unfold resolve
  split <;> rfl

/-- No call of a removed stub is left. -/
theorem cleared_resolve (movR0 : Bool → α) (i : Instruction α) (hempty : cleared ops "" = none) :
    cleared ops (resolve movR0 ops i).reference = none := by
  unfold resolve
  split
  · assumption
  · exact hempty

theorem resolve_eq_self_iff (hempty : cleared ops "" = none) :
    resolve movR0 ops i = i ↔ cleared ops i.reference = none := by
  constructor
  · intro h
    rw [← h]
    exact cleared_resolve movR0 i hempty
  · intro h
    simp [resolve, h]

/-- A subprogram begins with its symbol, and has no other name inside. -/
theorem standing_eq (movR0 : Bool → α) (hfits : Fits names prog ops) (u : Subprog α) :
    ∃ h t, standing movR0 ops u = h :: t ∧ h.symbol = u.name ∧ ∀ i ∈ t, i.symbol ∉ names := by
  unfold standing finalCode
  cases hbody : lastBody ops u.name with
  | none =>
    refine ⟨_, _, rfl, resolve_symbol, fun i hi => ?_⟩
    obtain ⟨j, hj, rfl⟩ := List.mem_map.mp hi
    rw [resolve_symbol, u.plain j hj]
    exact hfits.nonempty
  | some body =>
    refine ⟨_, _, rfl, resolve_symbol, fun i hi => ?_⟩
    obtain ⟨j, hj, rfl⟩ := List.mem_map.mp hi
    rw [resolve_symbol]
    exact hfits.labels _ body (mem_of_lastBody hbody) j hj

/-- The names in the code of other subprograms. -/
theorem symbol_ne_of_mem (hfits : Fits names prog ops) {us : List (Subprog α)} (hstub : stub ∈ names)
    (hne : ∀ v ∈ us, v.name ≠ stub) :
    ∀ i ∈ us.flatMap (standing movR0 ops), i.symbol ≠ stub := by
  intro i hi
  obtain ⟨v, hv, hi⟩ := List.mem_flatMap.mp hi
  obtain ⟨h, t, hcode, hh, ht⟩ := standing_eq movR0 hfits v
  rw [hcode] at hi
  rcases List.mem_cons.mp hi with rfl | hi
  · rw [hh]
    exact hne v hv
  · rintro rfl
    exact ht i hi hstub

/-- A stretch of subprograms begins with a symbol. -/
theorem head_symbol (hfits : Fits names prog ops) (us : List (Subprog α)) :
    ∀ i ∈ (us.flatMap (standing movR0 ops)).head?, i.symbol ≠ "" := by
  cases us with
  | nil => simp
  | cons v us =>
    obtain ⟨h, t, hcode, hh, -⟩ := standing_eq movR0 hfits v
    intro i hi
    simp only [List.flatMap_cons, hcode, List.cons_append, List.head?_cons, Option.mem_some_iff] at hi
    rw [← hi, hh]
    exact v.named

/-- The subprograms that are left, around one of them. -/
theorem alive_split (hfits : Fits names prog ops) (hu : u ∈ alive prog ops) :
    ∃ before after, alive prog ops = before ++ u :: after ∧
      ∀ v ∈ before ++ after, v ∈ alive prog ops ∧ v.name ≠ u.name := by
  obtain ⟨before, after, hsplit⟩ := List.append_of_mem hu
  refine ⟨before, after, hsplit, fun v hv => ⟨?_, ?_⟩⟩
  · rw [hsplit]
    rcases List.mem_append.mp hv with hv | hv
    · exact List.mem_append_left _ hv
    · exact List.mem_append_right _ (List.mem_cons_of_mem _ hv)
  · have hnodup : ((alive prog ops).map (·.name)).Nodup :=
      hfits.nodup.sublist (List.filter_sublist.map _)
    rw [hsplit, List.map_append, List.map_cons, List.nodup_middle, List.nodup_cons, ← List.map_append] at hnodup
    intro heq
    exact hnodup.1 (heq ▸ List.mem_map_of_mem hv)

theorem cleared_of_alive (h : u ∈ alive prog ops) : cleared ops u.name = none := by
  simpa using (List.mem_filter.mp h).2

theorem cleared_empty (hfits : Fits names prog ops) : cleared ops "" = none := by
  refine List.findSome?_eq_none_iff.mpr fun op hop => ?_
  cases op with
  | inject => rfl
  | clear s k =>
    have hs : s ≠ "" := fun h => hfits.nonempty (h ▸ hfits.stubs _ hop)
    simp [hs]

/-- An injection into the program, with what the scan leaves of the old
code (`d`). -/
theorem injectInsns_expected (hfits : Fits names prog ops) (hstub : stub ∈ names) :
    (∀ u ∈ alive prog ops, u.name ≠ stub) ∧
        (∀ new, injectInsns (expected movR0 prog ops) stub new = expected movR0 prog ops) ∨
      ∃ u before after h t, u ∈ alive prog ops ∧ u.name = stub ∧
        alive prog ops = before ++ u :: after ∧ (∀ v ∈ before ++ after, v ∈ alive prog ops ∧ v.name ≠ stub) ∧
        standing movR0 ops u = h :: t ∧ h.symbol = stub ∧
        ∀ new, injectInsns (expected movR0 prog ops) stub new = before.flatMap (standing movR0 ops)
          ++ (withStubMetadata (some h) new ++
            (t.dropWhile (fun i => i.symbol = "") ++ after.flatMap (standing movR0 ops))) := by
  by_cases hex : ∃ u ∈ alive prog ops, u.name = stub
  · obtain ⟨u, hu, rfl⟩ := hex
    obtain ⟨before, after, hsplit, hothers⟩ := alive_split hfits hu
    obtain ⟨h, t, hcode, hh, -⟩ := standing_eq movR0 hfits u
    refine .inr ⟨u, before, after, h, t, hu, rfl, hsplit, hothers, hcode, hh, fun new => ?_⟩
    have hprog : expected movR0 prog ops = before.flatMap (standing movR0 ops)
        ++ (h :: t ++ after.flatMap (standing movR0 ops)) := by
      rw [expected, hsplit, List.flatMap_append, List.flatMap_cons, hcode]
    rw [hprog]
    exact injectInsns_split
      (symbol_ne_of_mem hfits hstub fun v hv => (hothers v (List.mem_append_left _ hv)).2) hh
      (head_symbol hfits after)
  · push Not at hex
    refine .inl ⟨hex, fun new => injectInsns_absent ?_⟩
    exact symbol_ne_of_mem hfits hstub hex

/-- The stub is the only subprogram of its name. -/
theorem eq_of_split {us before after : List (Subprog α)} {v : Subprog α} (hsplit : us = before ++ u :: after)
    (hothers : ∀ v ∈ before ++ after, v ∈ us ∧ v.name ≠ stub) (hv : v ∈ us) (hname : v.name = stub) :
    v = u := by
  rw [hsplit, List.mem_append, List.mem_cons] at hv
  rcases hv with hv | hv | hv
  · exact absurd hname (hothers v (List.mem_append_left _ hv)).2
  · exact hv
  · exact absurd hname (hothers v (List.mem_append_right _ hv)).2

theorem whole_iff {h : Instruction α} {t : List (Instruction α)} :
    Whole (h :: t) ↔ t.dropWhile (fun i => i.symbol = "") = [] := by
  simp [Whole, List.dropWhile_eq_nil_iff]

end Standing

/-! ## One operation -/

section Step

variable {names : Set String} {prog : List (Subprog α)} {ops : List (StubOp α)} {stub : String}
  {isFilter : Bool} {body : Body α}

theorem alive_inject : alive prog (ops ++ [.inject stub body]) = alive prog ops := by
  simp [alive]

theorem resolve_inject : resolve movR0 (ops ++ [.inject stub body]) = resolve movR0 ops := by
  funext i
  simp [resolve]

/-- An injection leaves other subprograms alone. -/
theorem standing_inject_of_ne {u : Subprog α} (h : u.name ≠ stub) :
    standing movR0 (ops ++ [.inject stub body]) u = standing movR0 ops u := by
  simp only [standing, finalCode, lastBody_inject, if_neg h.symm, resolve_inject]

theorem standing_inject_self {u : Subprog α} (h : u.name = stub) (hempty : cleared ops "" = none) :
    standing movR0 (ops ++ [.inject stub body]) u
      = body.first.withSymbol stub :: body.rest.map (resolve movR0 ops) := by
  have hfirst : resolve movR0 ops (body.first.withSymbol stub) = body.first.withSymbol stub := by
    rw [resolve_eq_self_iff hempty]
    show cleared ops body.first.reference = none
    rw [body.reference]
    exact hempty
  simp only [standing, finalCode, lastBody_inject, h, if_true, List.map_cons, resolve_inject, hfirst]

theorem standing_inject_others {us : List (Subprog α)} (h : ∀ v ∈ us, v.name ≠ stub) :
    us.flatMap (standing movR0 (ops ++ [.inject stub body])) = us.flatMap (standing movR0 ops) :=
  List.flatMap_congr fun v hv => standing_inject_of_ne (h v hv)

theorem map_eq_self_iff {f : Instruction α → Instruction α} {code : List (Instruction α)} :
    code.map f = code ↔ ∀ i ∈ code, f i = i := by
  induction code with
  | nil => simp
  | cons i code ih => simp [ih]

/-- A replacement of the stub `h :: t` in front of `after`. -/
theorem replaced_iff {h i : Instruction α} {t rest rest' after : List (Instruction α)} (hlen : rest.length = rest'.length)
    {j : Instruction α} : i :: rest ++ (t.dropWhile (fun i => i.symbol = "") ++ after) = j :: rest' ++ after ↔
      Whole (h :: t) ∧ i = j ∧ rest = rest' := by
  rw [whole_iff]
  constructor
  · intro heq
    have hdrop : t.dropWhile (fun i => i.symbol = "") = [] := by
      have hl := congrArg List.length heq
      simp only [List.cons_append, List.length_cons, List.length_append] at hl
      exact List.eq_nil_of_length_eq_zero (by omega)
    rw [hdrop, List.nil_append] at heq
    have hcode := List.append_cancel_right heq
    rw [List.cons.injEq] at hcode
    exact ⟨hdrop, hcode⟩
  · rintro ⟨hdrop, rfl, rfl⟩
    rw [hdrop, List.nil_append]

theorem Fits.before {after : List (StubOp α)} (h : Fits names prog (ops ++ after)) : Fits names prog ops where
  nodup := h.nodup
  progs := h.progs
  stubs o ho := h.stubs o (List.mem_append_left _ ho)
  labels s b hb := h.labels s b (List.mem_append_left _ hb)
  nonempty := h.nonempty

/-- An injection does what it should if and only if it is clean. -/
theorem inject_iff (hfits : Fits names prog (ops ++ [.inject stub body])) :
    injectInsns (expected movR0 prog ops) stub body.insns
        = expected movR0 prog (ops ++ [.inject stub body]) ↔
      Clean movR0 prog ops (.inject stub body) := by
  have hstub : stub ∈ names := hfits.stubs _ (List.mem_append_right _ (List.mem_singleton_self _))
  have hempty := cleared_empty hfits.before
  rcases injectInsns_expected hfits.before hstub with ⟨hnone, habsent⟩ |
    ⟨u, before, after, h, t, hu, hname, hsplit, hothers, hcode, hh, hinj⟩
  · refine iff_of_true ?_ fun u hu hname => absurd hname (hnone u hu)
    rw [habsent, expected, expected, alive_inject, standing_inject_others hnone]
  · have hresult : expected movR0 prog (ops ++ [.inject stub body])
        = before.flatMap (standing movR0 ops) ++ (body.first.withSymbol stub :: body.rest.map (resolve movR0 ops)
          ++ after.flatMap (standing movR0 ops)) := by
      rw [expected, alive_inject, hsplit, List.flatMap_append, List.flatMap_cons,
        standing_inject_self hname hempty,
        standing_inject_others fun v hv => (hothers v (List.mem_append_left _ hv)).2,
        standing_inject_others fun v hv => (hothers v (List.mem_append_right _ hv)).2]
    have hfirst : body.first.withMetadata h = body.first.withSymbol stub ↔ h.reference = "" := by
      simp [Instruction.withMetadata, Instruction.withSymbol, hh, body.reference]
    have hrest : body.rest = body.rest.map (resolve movR0 ops) ↔
        ∀ i ∈ body.rest, cleared ops i.reference = none := by
      rw [eq_comm, map_eq_self_iff]
      exact forall₂_congr fun i _ => resolve_eq_self_iff hempty
    rw [hinj, hresult, List.append_cancel_left_eq]
    show body.first.withMetadata h :: body.rest ++ _ = _ ↔ _
    rw [replaced_iff (h := h) (by simp), hfirst, hrest]
    constructor
    · intro hclean v hv hvname
      obtain rfl := eq_of_split hsplit hothers hv hvname
      rw [hcode]
      exact ⟨hclean.1, by simpa using hclean.2.1, hclean.2.2⟩
    · intro hclean
      have hu := hclean u hu hname
      rw [hcode] at hu
      exact ⟨hu.1, by simpa using hu.2.1, hu.2.2⟩

/-- A call of the stub is the constant, and keeps its symbol. -/
def keepSymbol (movR0 : Bool → α) (stub : String) (isFilter : Bool) (i : Instruction α) : Instruction α :=
  if i.reference = stub then { op := movR0 isFilter, symbol := i.symbol, reference := "" } else i

theorem resolve_clear (hnew : cleared ops stub = none) (hstub : stub ≠ "") (i : Instruction α) :
    resolve movR0 (ops ++ [.clear stub isFilter]) i = keepSymbol movR0 stub isFilter (resolve movR0 ops i) := by
  by_cases href : i.reference = stub
  · simp [resolve, keepSymbol, cleared_clear, href, hnew]
  · cases hi : cleared ops i.reference with
    | none => simp [resolve, keepSymbol, cleared_clear, hi, href, Ne.symm href]
    | some k => simp [resolve, keepSymbol, cleared_clear, hi, hstub.symm]

theorem standing_clear (hnew : cleared ops stub = none) (hstub : stub ≠ "") (u : Subprog α) :
    standing movR0 (ops ++ [.clear stub isFilter]) u
      = (standing movR0 ops u).map (keepSymbol movR0 stub isFilter) := by
  simp only [standing, finalCode, lastBody_clear, List.map_map]
  exact List.map_congr_left fun i _ => resolve_clear hnew hstub i

theorem alive_clear (hnew : cleared ops stub = none) :
    alive prog (ops ++ [.clear stub isFilter]) = (alive prog ops).filter (·.name ≠ stub) := by
  simp only [alive, List.filter_filter]
  refine List.filter_congr fun u _ => ?_
  rw [cleared_clear]
  by_cases hu : u.name = stub
  · simp [hu, hnew]
  · simp [hu, Ne.symm hu]

/-- What `__clearSubprog` makes of a call differs from what it should be if
the call carries a symbol. -/
theorem map_keepSymbol_iff {code : List (Instruction α)} :
    code.map (fun i => if i.reference = stub then { op := movR0 isFilter, symbol := "", reference := "" } else i)
        = code.map (keepSymbol movR0 stub isFilter) ↔
      ∀ i ∈ code, i.reference = stub → i.symbol = "" := by
  rw [List.map_inj_left]
  refine forall₂_congr fun i _ => ?_
  by_cases href : i.reference = stub
  · rw [keepSymbol, if_pos href, if_pos href]
    exact ⟨fun h _ => (congrArg Instruction.symbol h).symm, fun h => by rw [h href]⟩
  · rw [keepSymbol, if_neg href, if_neg href]
    exact iff_of_true rfl fun h => absurd h href

/-- Behind a first `clear` of the stub, a second one does nothing. -/
theorem clear_again (hfits : Fits names prog (ops ++ [.clear stub isFilter])) {k : Bool}
    (hold : cleared ops stub = some k) :
    clearSubprog movR0 (expected movR0 prog ops) stub isFilter
      = expected movR0 prog (ops ++ [.clear stub isFilter]) := by
  have hstub : stub ∈ names := hfits.stubs _ (List.mem_append_right _ (List.mem_singleton_self _))
  have hsame : cleared (ops ++ [.clear stub isFilter]) = cleared ops := by
    funext s
    rw [cleared_clear]
    by_cases hs : stub = s
    · simp [← hs, hold]
    · simp [hs]
  have hresult : expected movR0 prog (ops ++ [.clear stub isFilter]) = expected movR0 prog ops := by
    have hresolve : resolve movR0 (ops ++ [.clear stub isFilter]) = resolve movR0 ops := by
      funext i
      simp only [resolve, hsame]
    have hstanding : standing movR0 (ops ++ [.clear stub isFilter]) = standing movR0 ops := by
      funext u
      simp only [standing, finalCode, lastBody_clear, hresolve]
    simp only [expected, alive, hsame, hstanding]
  have hgone : ∀ u ∈ alive prog ops, u.name ≠ stub := by
    rintro u hu rfl
    simp [cleared_of_alive hu] at hold
  have hcalls : ∀ i ∈ expected movR0 prog ops, i.reference ≠ stub := by
    intro i hi href
    obtain ⟨u, -, hi⟩ := List.mem_flatMap.mp hi
    obtain ⟨j, -, rfl⟩ := List.mem_map.mp hi
    have hnone := cleared_resolve movR0 j (cleared_empty hfits.before)
    rw [href, hold] at hnone
    simp at hnone
  have habsent : injectInsns (expected movR0 prog ops) stub [] = expected movR0 prog ops :=
    injectInsns_absent (symbol_ne_of_mem hfits.before hstub hgone)
  rw [hresult, clearSubprog, habsent, map_eq_self_iff]
  intro i hi
  rw [if_neg (hcalls i hi)]

/-- A removal does what it should if and only if it is clean. -/
theorem clear_iff (hfits : Fits names prog (ops ++ [.clear stub isFilter])) :
    clearSubprog movR0 (expected movR0 prog ops) stub isFilter
        = expected movR0 prog (ops ++ [.clear stub isFilter]) ↔
      Clean movR0 prog ops (.clear stub isFilter) := by
  have hstub : stub ∈ names := hfits.stubs _ (List.mem_append_right _ (List.mem_singleton_self _))
  have hname : stub ≠ "" := fun h => hfits.nonempty (h ▸ hstub)
  cases hnew : cleared ops stub with
  | some k =>
    refine iff_of_true (clear_again hfits hnew) fun h => ?_
    rw [hnew] at h
    simp at h
  | none =>
    have hresult : expected movR0 prog (ops ++ [.clear stub isFilter])
        = (((alive prog ops).filter (·.name ≠ stub)).flatMap (standing movR0 ops)).map
          (keepSymbol movR0 stub isFilter) := by
      rw [expected, alive_clear hnew, List.map_flatMap]
      exact List.flatMap_congr fun u _ => standing_clear hnew hname u
    have hcalls : (∀ u ∈ alive prog ops, u.name ≠ stub →
          ∀ i ∈ standing movR0 ops u, i.reference = stub → i.symbol = "") ↔
        ∀ i ∈ ((alive prog ops).filter (·.name ≠ stub)).flatMap (standing movR0 ops),
          i.reference = stub → i.symbol = "" := by
      simp only [List.mem_flatMap, List.mem_filter, decide_eq_true_eq]
      constructor
      · rintro h i ⟨u, ⟨hu, hne⟩, hi⟩
        exact h u hu hne i hi
      · intro h u hu hne i hi
        exact h i ⟨u, ⟨hu, hne⟩, hi⟩
    rw [hresult, clearSubprog]
    rcases injectInsns_expected hfits.before hstub with ⟨hnone, habsent⟩ |
      ⟨u, before, after, h, t, hu, huname, hsplit, hothers, hcode, -, hinj⟩
    · have hothers : (alive prog ops).filter (·.name ≠ stub) = alive prog ops :=
        List.filter_eq_self.mpr fun u hu => by simpa using hnone u hu
      rw [hothers] at hcalls
      rw [habsent, hothers, expected, map_keepSymbol_iff, ← hcalls]
      exact ⟨fun h _ => ⟨fun u hu huname => absurd huname (hnone u hu), h⟩, fun h => (h hnew).2⟩
    · have hleft : (alive prog ops).filter (·.name ≠ stub) = before ++ after := by
        have hkeep (vs : List (Subprog α)) (hvs : ∀ v ∈ vs, v.name ≠ stub) : vs.filter (·.name ≠ stub) = vs :=
          List.filter_eq_self.mpr fun v hv => by simpa using hvs v hv
        rw [hsplit, List.filter_append, List.filter_cons_of_neg (by simpa using huname),
          hkeep before fun v hv => (hothers v (List.mem_append_left _ hv)).2,
          hkeep after fun v hv => (hothers v (List.mem_append_right _ hv)).2]
      have hwhole : (∀ v ∈ alive prog ops, v.name = stub → Whole (standing movR0 ops v)) ↔
          t.dropWhile (fun i => i.symbol = "") = [] := by
        rw [← whole_iff (h := h), ← hcode]
        exact ⟨fun hall => hall u hu huname, fun hw v hv hvname => eq_of_split hsplit hothers hv hvname ▸ hw⟩
      have hclean : Clean movR0 prog ops (.clear stub isFilter) ↔ t.dropWhile (fun i => i.symbol = "") = [] ∧
          ∀ i ∈ (before ++ after).flatMap (standing movR0 ops), i.reference = stub → i.symbol = "" := by
        rw [← hwhole, ← hleft, ← hcalls]
        exact ⟨fun hc => hc hnew, fun hc _ => hc⟩
      rw [hinj, hleft, hclean, List.flatMap_append]
      show List.map _ (_ ++ ([] ++ (_ ++ _))) = _ ↔ _
      rw [List.nil_append]
      constructor
      · intro heq
        have hdrop : t.dropWhile (fun i => i.symbol = "") = [] := by
          have hl := congrArg List.length heq
          simp only [List.length_map, List.length_append] at hl
          exact List.eq_nil_of_length_eq_zero (by omega)
        rw [hdrop, List.nil_append] at heq
        exact ⟨hdrop, map_keepSymbol_iff.mp heq⟩
      · rintro ⟨hdrop, hcalls⟩
        rw [hdrop, List.nil_append]
        exact map_keepSymbol_iff.mpr hcalls

theorem apply_iff {op : StubOp α} (hfits : Fits names prog (ops ++ [op])) :
    op.apply movR0 (expected movR0 prog ops) = expected movR0 prog (ops ++ [op]) ↔ Clean movR0 prog ops op := by
  cases op with
  | inject stub body => exact inject_iff hfits
  | clear stub isFilter => exact clear_iff hfits

end Step

/-! ## Runs -/

section Run

variable {names : Set String} {prog : List (Subprog α)} {ops : List (StubOp α)}

theorem expected_nil : expected movR0 prog [] = flat prog := by
  have hstanding : standing movR0 [] = Subprog.insns (α := α) := by
    funext u
    have hresolve : resolve movR0 ([] : List (StubOp α)) = id := rfl
    show u.insns.map _ = _
    rw [hresolve, List.map_id]
  have halive : alive prog [] = prog := List.filter_eq_self.mpr fun u _ => rfl
  rw [expected, halive, hstanding, flat]

/-- Every operation of the sequence is clean behind those before it. -/
def AllClean (movR0 : Bool → α) (prog : List (Subprog α)) (ops : List (StubOp α)) : Prop :=
  ∀ before op after, ops = before ++ op :: after → Clean movR0 prog before op

/-- The program is the expected one behind every operation if and only if
every operation is clean. -/
theorem runOps_iff (hfits : Fits names prog ops) :
    (∀ before after, ops = before ++ after → runOps movR0 (flat prog) before = expected movR0 prog before) ↔
      AllClean movR0 prog ops := by
  have hstep (before : List (StubOp α)) (op : StubOp α) : runOps movR0 (flat prog) (before ++ [op])
      = op.apply movR0 (runOps movR0 (flat prog) before) := by
    simp [runOps]
  constructor
  · intro hall before op after hsplit
    have hnow := hall before (op :: after) hsplit
    have hnext := hall (before ++ [op]) after (by simp [hsplit])
    rw [hstep, hnow] at hnext
    rw [hsplit, List.append_cons] at hfits
    exact (apply_iff hfits.before).mp hnext
  · intro hclean before
    induction before using List.reverseRecOn with
    | nil =>
      intro after _
      rw [expected_nil]
      rfl
    | append_singleton before op ih =>
      intro after hsplit
      rw [List.append_assoc] at hsplit
      rw [hstep, ih (op :: after) hsplit]
      have hop := hclean before op after hsplit
      rw [hsplit, ← List.append_assoc] at hfits
      exact (apply_iff hfits.before).mpr hop

/-! ### The order of operations on different stubs -/

theorem cleared_swap {a b : StubOp α} (h : a.stub ≠ b.stub) (before after : List (StubOp α)) (s : String) :
    cleared (before ++ a :: b :: after) s = cleared (before ++ b :: a :: after) s := by
  simp only [cleared, List.findSome?_append, List.findSome?_cons]
  congr 1
  cases a with
  | inject => cases b <;> rfl
  | clear p k =>
    cases b with
    | inject => rfl
    | clear q l =>
      have hpq : p ≠ q := h
      by_cases hp : p = s
      · have hq : q ≠ s := fun hq => hpq (hp.trans hq.symm)
        simp [hp, hq]
      · simp [hp]

theorem lastBody_swap {a b : StubOp α} (h : a.stub ≠ b.stub) (before after : List (StubOp α)) (s : String) :
    lastBody (before ++ a :: b :: after) s = lastBody (before ++ b :: a :: after) s := by
  simp only [lastBody, List.reverse_append, List.reverse_cons, List.append_assoc, List.singleton_append,
    List.findSome?_append, List.findSome?_cons]
  congr 1
  cases a with
  | clear => cases b <;> rfl
  | inject p body =>
    cases b with
    | clear => rfl
    | inject q body' =>
      have hpq : p ≠ q := h
      by_cases hp : p = s
      · have hq : q ≠ s := fun hq => hpq (hp.trans hq.symm)
        simp [hp, hq]
      · simp [hp]

/-- What is expected does not depend on the order of operations on
different stubs. -/
theorem expected_swap {a b : StubOp α} (h : a.stub ≠ b.stub) (before after : List (StubOp α)) :
    expected movR0 prog (before ++ a :: b :: after) = expected movR0 prog (before ++ b :: a :: after) := by
  have hcleared := funext (cleared_swap h before after)
  have hlast := funext (lastBody_swap h before after)
  have hresolve : resolve movR0 (before ++ a :: b :: after) = resolve movR0 (before ++ b :: a :: after) := by
    funext i
    simp only [resolve, hcleared]
  have hstanding : standing movR0 (before ++ a :: b :: after) = standing movR0 (before ++ b :: a :: after) := by
    funext u
    simp only [standing, finalCode, hlast, hresolve]
  simp only [expected, alive, hcleared, hstanding]

/-- **Operations on stubs.** Behind every operation of a sequence the
program is the original one, with the last body injected into each stub in
the place of its whole subprogram, or without the stub and with its
constant result for the calls, if and only if every operation is clean.
Clean sequences that differ in the order of operations on different stubs
end in the same program. -/
theorem stubs_iff (movR0 : Bool → α) (hfits : Fits names prog ops) :
    ((∀ before after, ops = before ++ after → runOps movR0 (flat prog) before = expected movR0 prog before) ↔
      AllClean movR0 prog ops) ∧
    ∀ before a b after, ops = before ++ a :: b :: after → a.stub ≠ b.stub → AllClean movR0 prog ops →
      AllClean movR0 prog (before ++ b :: a :: after) →
        runOps movR0 (flat prog) ops = runOps movR0 (flat prog) (before ++ b :: a :: after) := by
  refine ⟨runOps_iff hfits, ?_⟩
  rintro before a b after rfl hne hclean hclean'
  have hfits' : Fits names prog (before ++ b :: a :: after) := by
    have hmem (op : StubOp α) (h : op ∈ before ++ b :: a :: after) : op ∈ before ++ a :: b :: after := by
      simp only [List.mem_append, List.mem_cons] at h ⊢
      tauto
    exact ⟨hfits.nodup, hfits.progs, fun op h => hfits.stubs op (hmem op h),
      fun s body h => hfits.labels s body (hmem _ h), hfits.nonempty⟩
  rw [(runOps_iff hfits).mpr hclean _ [] (List.append_nil _).symm,
    (runOps_iff hfits').mpr hclean' _ [] (List.append_nil _).symm]
  exact expected_swap hne before after

end Run

/-! ## Compiled filters -/

/-- The code of a filter is a body: its first instruction is the move of
the arguments, and carries no label. -/
theorem filter_body {c : Compiler} {text : String} {e : Expr} {g : Gen} {u : Unit}
    (h : compile c text e filterGen = .ok (u, g)) : ∃ body : Body Op, body.insns = g.program.map ofInsn := by
  obtain ⟨v, g₁, init, op, src, hshape⟩ := compile_shape h
  obtain ⟨own, hown⟩ := (compile_emits c e).2 _ v g₁ hshape.eval
  have hins : (Asm.movReg argsReg R1 : Insn) :: own = init ++ [(Op.alu op v.reg src : Insn)] :=
    hown.insns.symm.trans hshape.insns
  obtain ⟨rest, hprog⟩ : ∃ rest, g.program = (Asm.movReg argsReg R1 : Insn) :: rest := by
    rw [hshape.program, hshape.insns]
    cases init with
    | nil =>
      -- the move of the arguments is not the last instruction
      simp only [List.nil_append, List.cons.injEq] at hins
      have hmov : Asm.movReg argsReg R1 = Op.alu op v.reg src := congrArg Insn.op hins.1
      simp only [Asm.movReg, Op.alu.injEq] at hmov
      obtain ⟨rfl, -, rfl⟩ := hmov
      have hlast := hshape.last { regs := fun _ => 2, stack := fun _ => 0, out := fun _ => 0, calls := 0 }
      simp only [AluOp.eval, Operand.eval] at hlast
      split at hlast <;> simp at hlast
    | cons i init =>
      simp only [List.cons_append, List.cons.injEq] at hins
      rw [← hins.1]
      split
      · exact ⟨_, rfl⟩
      · exact ⟨_, rfl⟩
  rw [hprog]
  exact ⟨⟨ofInsn (Asm.movReg argsReg R1 : Insn), rest.map ofInsn, rfl, rfl⟩, rfl⟩

/-! ### A body with an exit label

The second injection stops at the label that the first one brought. -/

/-- `asm.Mov.Imm(asm.R0, int32(b2i(_)))`. -/
def movResult (isFilter : Bool) : String := if isFilter then "r0 = 1" else "r0 = 0"

/-- A program that calls the stub `filter_arg`. -/
def tracingProg : List (Subprog String) :=
  [{ head := ⟨"call filter_arg", "bpfsnoop_fn", "filter_arg"⟩, rest := [⟨"exit", "", ""⟩]
     named := by decide, plain := by decide },
    { head := ⟨"r0 = r1", "filter_arg", ""⟩, rest := [⟨"exit", "", ""⟩]
      named := by decide, plain := by decide }]

/-- A filter with an exit label. -/
def labelledFilter : Body String where
  first := ⟨"r9 = r1", "", ""⟩
  rest := [⟨"r8 = *(r9 + 0)", "", ""⟩, ⟨"if r8 == 0 goto", "", "__label_cc_exit"⟩, ⟨"r8 ^= r8", "__label_cc_exit", ""⟩,
    ⟨"r0 = r8", "", ""⟩, ⟨"exit", "", ""⟩]
  symbol := rfl
  reference := rfl

/-- A filter without one. -/
def plainFilter : Body String where
  first := ⟨"r9 = r1", "", ""⟩
  rest := [⟨"r8 = *(r9 + 0)", "", ""⟩, ⟨"r0 = r8", "", ""⟩, ⟨"exit", "", ""⟩]
  symbol := rfl
  reference := rfl

/-- Two filters, one after the other. -/
def twoFilters : List (StubOp String) := [.inject "filter_arg" labelledFilter, .inject "filter_arg" plainFilter]

theorem twoFilters_fits : Fits {"bpfsnoop_fn", "filter_arg"} tracingProg twoFilters where
  nodup := by decide
  progs := by simp [tracingProg, Subprog.name]
  stubs := by simp [twoFilters, StubOp.stub]
  labels stub body h i hi := by
    simp only [twoFilters, List.mem_cons, StubOp.inject.injEq, List.not_mem_nil, or_false] at h
    rcases h with ⟨-, rfl⟩ | ⟨-, rfl⟩
    · simp only [labelledFilter, List.mem_cons, List.not_mem_nil, or_false] at hi
      rcases hi with rfl | rfl | rfl | rfl | rfl <;> decide
    · simp only [plainFilter, List.mem_cons, List.not_mem_nil, or_false] at hi
      rcases hi with rfl | rfl | rfl <;> decide
  nonempty := by decide

/-- Three instructions of the first filter are left behind the second. -/
theorem second_filter_leaves_code : Fits {"bpfsnoop_fn", "filter_arg"} tracingProg twoFilters ∧
    runOps movResult (flat tracingProg) twoFilters = expected movResult tracingProg twoFilters
      ++ [⟨"r8 ^= r8", "__label_cc_exit", ""⟩, ⟨"r0 = r8", "", ""⟩, ⟨"exit", "", ""⟩] :=
  ⟨twoFilters_fits, by decide⟩

/-- A program that calls the stubs `filter_arg` and `output_pkt`. -/
def outputProg : List (Subprog String) :=
  [{ head := ⟨"call filter_arg", "bpfsnoop_fn", "filter_arg"⟩,
     rest := [⟨"call output_pkt", "", "output_pkt"⟩, ⟨"exit", "", ""⟩]
     named := by decide, plain := by decide },
    { head := ⟨"r0 = r1", "filter_arg", ""⟩, rest := [⟨"exit", "", ""⟩]
      named := by decide, plain := by decide },
    { head := ⟨"r0 = 0", "output_pkt", ""⟩, rest := [⟨"exit", "", ""⟩]
      named := by decide, plain := by decide }]

/-- The filter is injected. -/
def injectFilter : StubOp String := .inject "filter_arg" labelledFilter

/-- The output stub is removed. -/
def clearOutput : StubOp String := .clear "output_pkt" false

theorem outputProg_fits {ops : List (StubOp String)}
    (hops : ∀ op ∈ ops, op = injectFilter ∨ op = clearOutput) :
    Fits {"bpfsnoop_fn", "filter_arg", "output_pkt"} outputProg ops where
  nodup := by decide
  progs := by simp [outputProg, Subprog.name]
  stubs op hop := by
    rcases hops op hop with rfl | rfl <;> simp [injectFilter, clearOutput, StubOp.stub]
  labels stub body h i hi := by
    rcases hops _ h with heq | heq
    · simp only [injectFilter, StubOp.inject.injEq] at heq
      obtain ⟨-, rfl⟩ := heq
      simp only [labelledFilter, List.mem_cons, List.not_mem_nil, or_false] at hi
      rcases hi with rfl | rfl | rfl | rfl | rfl <;> decide
    · cases heq
  nonempty := by decide

/-- The parts of a list of two. -/
theorem parts_of_two {α : Type} {a b : α} {before after : List α} (h : [a, b] = before ++ after) :
    before = [] ∨ before = [a] ∨ before = [a, b] := by
  rcases before with _ | ⟨x, _ | ⟨y, _ | ⟨z, rest⟩⟩⟩ <;> simp_all

/-- A filter and a stub that is removed, in either order. -/
theorem two_stubs_commute :
    runOps movResult (flat outputProg) [injectFilter, clearOutput]
        = expected movResult outputProg [injectFilter, clearOutput] ∧
      runOps movResult (flat outputProg) [injectFilter, clearOutput]
        = runOps movResult (flat outputProg) [clearOutput, injectFilter] := by
  have hone := stubs_iff movResult (@outputProg_fits [injectFilter, clearOutput] (by simp))
  have htwo := stubs_iff movResult (@outputProg_fits [clearOutput, injectFilter] (by simp))
  have hclean : AllClean movResult outputProg [injectFilter, clearOutput] := by
    refine hone.1.mp fun before after h => ?_
    rcases parts_of_two h with rfl | rfl | rfl <;> decide
  have hclean' : AllClean movResult outputProg [clearOutput, injectFilter] := by
    refine htwo.1.mp fun before after h => ?_
    rcases parts_of_two h with rfl | rfl | rfl <;> decide
  exact ⟨hone.1.mpr hclean _ [] rfl, hone.2 [] _ _ [] rfl (by decide) hclean hclean'⟩

end Bpfsnoop.Progs
