/-
Bpfsnoop.Lib.Runs — runs of a state machine.

Two shapes of machine. A fallible one consumes a list of events, and its
runs are `List.foldlM`; the invariant of such a run may mention the events
consumed so far. A nondeterministic one is a relation, and its runs are
`Relation.ReflTransGen`.
-/
import Mathlib.Data.List.Induction
import Mathlib.Logic.Relation

namespace Bpfsnoop.Lib

/-! ## Machines that consume events -/

section Events

variable {σ α ε : Type} {step : σ → α → Except ε σ} {s t : σ}

/-- One event more. -/
theorem foldlM_concat_ok {es : List α} {e : α} :
    (es ++ [e]).foldlM step s = .ok t ↔ ∃ u, es.foldlM step s = .ok u ∧ step u e = .ok t := by
  rw [List.foldlM_append]
  cases h : es.foldlM step s with
  | error x => simp [bind, Except.bind]
  | ok u => simp [bind, Except.bind, pure, Except.pure]; cases step u e <;> simp

/-- **The invariant rule.** What holds of the empty history and is kept by
every step that succeeds holds after every run that succeeds. -/
theorem foldlM_invariant {I : List α → σ → Prop} (hinit : I [] s)
    (hstep : ∀ es u e t, I es u → step u e = .ok t → I (es ++ [e]) t) :
    ∀ {es : List α} {t : σ}, es.foldlM step s = .ok t → I es t := by
  intro es
  induction es using List.reverseRecOn with
  | nil =>
    intro t h
    simp only [List.foldlM_nil, pure, Except.pure, Except.ok.injEq] at h
    exact h ▸ hinit
  | append_singleton es e ih =>
    intro t h
    obtain ⟨u, hu, he⟩ := foldlM_concat_ok.mp h
    exact hstep es u e t (ih hu) he

/-- A run succeeds if no step of it fails. -/
theorem foldlM_isOk {es : List α} (h : ∀ pre e post u, es = pre ++ e :: post → pre.foldlM step s = .ok u →
    ∃ t, step u e = .ok t) : ∃ t, es.foldlM step s = .ok t := by
  induction es using List.reverseRecOn with
  | nil => exact ⟨s, rfl⟩
  | append_singleton es e ih =>
    obtain ⟨u, hu⟩ := ih fun pre e' post u heq hu => h pre e' (post ++ [e]) u (by simp [heq]) hu
    obtain ⟨t, ht⟩ := h es e [] u rfl hu
    exact ⟨t, foldlM_concat_ok.mpr ⟨u, hu, ht⟩⟩

/-- **The measure rule.** A run is no longer than the measure of its start,
where every step lowers the measure. -/
theorem foldlM_length_le {I : σ → Prop} {μ : σ → Nat} (hinit : I s) (hI : ∀ u e v, I u → step u e = .ok v → I v)
    (hμ : ∀ u e v, I u → step u e = .ok v → μ v < μ u) {es : List α} (h : es.foldlM step s = .ok t) :
    es.length + μ t ≤ μ s := by
  induction es using List.reverseRecOn generalizing t with
  | nil =>
    simp only [List.foldlM_nil, pure, Except.pure, Except.ok.injEq] at h
    rw [h]
    exact Nat.le_of_eq (Nat.zero_add _)
  | append_singleton es e ih =>
    obtain ⟨u, hu, he⟩ := foldlM_concat_ok.mp h
    have hu' := ih hu
    have hlower := hμ u e t (foldlM_invariant (I := fun _ u => I u) hinit (fun _ u e v hu hstep => hI u e v hu hstep) hu) he
    rw [List.length_append, List.length_singleton]
    omega

/-- **A property of every state of a run.** Where the property holds of
what a step starts from, it holds of what comes out if and only if the step
meets a condition: then it holds throughout a run if and only if every step
of the run meets the condition. -/
theorem foldlM_always_iff {I P : σ → Prop} {Q : σ → α → Prop} (hinit : I s ∧ P s)
    (hI : ∀ u e v, I u → step u e = .ok v → I v)
    (hP : ∀ u e v, I u → P u → step u e = .ok v → (P v ↔ Q u e))
    {es : List α} (hrun : es.foldlM step s = .ok t) :
    (∀ pre post u, es = pre ++ post → pre.foldlM step s = .ok u → P u) ↔
      ∀ pre e post u, es = pre ++ e :: post → pre.foldlM step s = .ok u → Q u e := by
  have hinv {pre : List α} {u : σ} : pre.foldlM step s = .ok u → I u :=
    foldlM_invariant (I := fun _ u => I u) hinit.1 fun _ u e v hu hstep => hI u e v hu hstep
  constructor
  · intro hall pre e post u heq hpre
    obtain ⟨v, hv⟩ : ∃ v, step u e = .ok v := by
      rw [heq, List.foldlM_append, hpre] at hrun
      obtain hv | ⟨v, hv⟩ : (∃ x, step u e = .error x) ∨ ∃ v, step u e = .ok v := by
        cases step u e with
        | error x => exact .inl ⟨x, rfl⟩
        | ok v => exact .inr ⟨v, rfl⟩
      · obtain ⟨x, hx⟩ := hv
        simp [bind, Except.bind, hx] at hrun
      · exact ⟨v, hv⟩
    have hnext := hall (pre ++ [e]) post v (by simp [heq]) (foldlM_concat_ok.mpr ⟨u, hpre, hv⟩)
    exact (hP u e v (hinv hpre) (hall pre (e :: post) u heq hpre) hv).mp hnext
  · intro hall pre
    induction pre using List.reverseRecOn with
    | nil =>
      intro post u _ hpre
      simp only [List.foldlM_nil, pure, Except.pure, Except.ok.injEq] at hpre
      exact hpre ▸ hinit.2
    | append_singleton pre e ih =>
      intro post v heq hpre
      obtain ⟨u, hu, hv⟩ := foldlM_concat_ok.mp hpre
      have heq' : es = pre ++ e :: post := by simp [heq]
      exact (hP u e v (hinv hu) (ih (e :: post) u heq' hu) hv).mpr (hall pre e post u heq' hu)

end Events

/-! ## Machines that are relations -/

section Relation

variable {σ : Type} {Step : σ → σ → Prop} {s t : σ}

/-- **The invariant rule.** -/
theorem reachable_invariant {I : σ → Prop} (hinit : I s) (hstep : ∀ u v, I u → Step u v → I v)
    (h : Relation.ReflTransGen Step s t) : I t := by
  induction h with
  | refl => exact hinit
  | tail _ hlast ih => exact hstep _ _ ih hlast

end Relation

end Bpfsnoop.Lib
