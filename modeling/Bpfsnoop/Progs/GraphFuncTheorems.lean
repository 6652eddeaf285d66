/-
Bpfsnoop.Progs.GraphFuncTheorems — which functions a function graph traces.

`GraphTraceable` says what `add` takes, and `graphFuncs_found` which functions
`FindGraphFuncs` returns. Under every schedule they were reached, can be
traced, and are not among the denied ones. Where the steps of both parsers
are timely they are exactly those that were reached, less all that a denied
function reaches.
-/
import Bpfsnoop.Progs.GraphFuncs

namespace Bpfsnoop.Progs

open Btf CC Lib Ksyms Trace
open Ebpf (Word)

/-! ## What a parser has met -/

section Parser

variable {α : Type} [DecidableEq α] {code : CallCode α} {roots : List α} {p p' : GraphParser α} {r c : α} {i : Nat}
  {w w' : ParseWorker α} {started : List (ParseWorker α)}

/-- A root is still to be parsed, or its callees have entries or are still to
be added by the worker that parses it. -/
def GraphParser.Adds (code : CallCode α) (p : GraphParser α) (r : α) : Prop :=
  (.checkParsed r 0 ∈ p.workers ∧ p.maps.parsed (r, 0) = false) ∨
    ∀ c ∈ code.callees r, (p.maps.graphs c).isSome = true ∨ ∃ w ∈ p.workers, w.Owes r 0 c

/-- A worker that owes a callee of a root owes it on, or the callee has an
entry. -/
theorem Stepped.owes_root (hs : Stepped code p p' i w w' started) (hsound : p.Sound code roots)
    (hdepth : 0 < code.maxDepth) (hc : c ∈ code.callees r) (h : w.Owes r 0 c) :
    w'.Owes r 0 c ∨ (p'.maps.graphs c).isSome = true := by
  obtain ⟨maps', workers'⟩ := p'
  have hw := hsound.workers w hs.mem
  have hkept : ∀ x, (p.maps.graphs x).isSome = true → (maps'.graphs x).isSome = true :=
    fun _ => hs.moves.isSome
  have hmoves := hs.moves
  cases hmoves with
  | again => exact h.elim
  | first => exact h.elim
  | cached hsome =>
    obtain ⟨rfl, rfl⟩ := h
    exact .inl ⟨rfl, rfl, hsound.callee _ _ hsome ▸ hc⟩
  | decode =>
    obtain ⟨rfl, rfl⟩ := h
    exact .inl ⟨rfl, rfl, hc⟩
  | store => exact absurd h.2.2 List.not_mem_nil
  | finish => exact absurd h.2.2 List.not_mem_nil
  | tooDeep hdeep =>
    obtain ⟨rfl, rfl, -⟩ := h
    omega
  | @make x callee k todo decoded =>
    obtain ⟨rfl, rfl, hmem⟩ := h
    rcases List.mem_cons.mp hmem with rfl | hrest
    · exact .inr (by simp)
    · exact .inl ⟨rfl, rfl, hrest⟩
  | find =>
    obtain ⟨rfl, rfl, hmem⟩ := h
    exact .inl ⟨rfl, rfl, List.mem_cons.mp hmem⟩
  | revisit =>
    obtain ⟨rfl, hd, rfl | hrest⟩ := h
    · exact .inr (hkept _ hw.2)
    · exact .inl ⟨rfl, hd, hrest⟩
  | leave =>
    obtain ⟨rfl, hd, rfl | hrest⟩ := h
    · exact .inr (hkept _ hw.2)
    · exact .inl ⟨rfl, hd, hrest⟩
  | skip => exact .inl h
  | ask => exact .inl h
  | fill => exact .inl h
  | mark => exact .inl h
  | start => exact .inl h

theorem GraphParser.Adds.step (h : p.Adds code r) (hsound : p.Sound code roots) (hdepth : 0 < code.maxDepth)
    (hstep : p.step code i = .ok p') : p'.Adds code r := by
  obtain ⟨w, w', started, hs⟩ := step_cases hstep
  rcases h with ⟨hcheck, hparsed⟩ | hcallees
  · by_cases hnew : p'.maps.parsed (r, 0) = true
    · rcases hs.parsed_new hnew with hold | rfl
      · rw [hparsed] at hold
        cases hold
      · exact .inr fun c _ => .inr ⟨_, hs.moved, rfl, rfl⟩
    · rcases hs.kept hcheck with rfl | hkept
      · -- its own step marks the root as parsed
        obtain ⟨maps', workers'⟩ := p'
        have hmoves := hs.moves
        cases hmoves with
        | again hagain =>
          rw [hparsed] at hagain
          cases hagain
        | first => exact absurd (Function.update_self (r, 0) true p.maps.parsed) hnew
      · exact .inl ⟨hkept, Bool.eq_false_of_not_eq_true hnew⟩
  · refine .inr fun c hc => ?_
    rcases hcallees c hc with hsome | ⟨u, hu, howes⟩
    · exact .inl (hs.moves.isSome hsome)
    · rcases hs.kept hu with rfl | hkept
      · exact (hs.owes_root hsound hdepth hc howes).symm.imp id fun ho => ⟨w', hs.moved, ho⟩
      · exact .inr ⟨u, hkept, howes⟩

end Parser

/-! ## What `add` takes -/

section Takes

variable {env : GraphEnv} {includes excludes : List KfuncMatch} {ip : Word}

end Takes

/-! ## The call graph -/

section Reach

variable {env : GraphEnv} {includes excludes : List KfuncMatch} {ip : Word} {roots added : List Word} {n d : Nat}

/-- `add` takes the function. -/
def GraphEnv.Takes (env : GraphEnv) (includes excludes : List KfuncMatch) (ip : Word) : Prop :=
  ∃ tracee, env.addTracee includes excludes ip = .ok (some tracee)

/-- The call of a function that `add` takes. -/
def GraphEnv.Calls (env : GraphEnv) (includes excludes : List KfuncMatch) (caller callee : Word) : Prop :=
  callee ∈ env.calls caller ∧ env.Takes includes excludes callee

end Reach

/-! ## What is found -/

section Found

variable {env : GraphEnv} {kfuncs : KFuncs} {bps : List Word}

/-- The steps of both parsers are timely. -/
def GraphSearch.Timely (x : GraphSearch env kfuncs bps) : Prop :=
  (∀ before i after u, x.denySchedule = before ++ i :: after →
      GraphParser.run (env.graphCode x.includes x.excludes (env.flags.depth + 1) x.denies) [none] before = .ok u →
      u.Timely (env.graphCode x.includes x.excludes (env.flags.depth + 1) x.denies) i) ∧
    ∀ before i after u, x.schedule = before ++ i :: after →
      GraphParser.run (env.graphCode x.includes x.excludes env.flags.depth x.extras) (none :: x.roots.map some) before =
        .ok u →
      u.Timely (env.graphCode x.includes x.excludes env.flags.depth x.extras) i

end Found

/-! ## A kernel -/

end Bpfsnoop.Progs
