/-
Bpfsnoop.Lib.Keyed — machines that answer their events, and tables of them.

The transcript of a run is the list of the answers, one for each event. A
keyed machine has a table of cells: an event steps the cell of its key, and
an event without a key is answered without the table. Such a machine is the
machines of its cells side by side (`Keyed.transcript_cell`): what it answers
to the events of one key is what the cell alone answers to them, so the
events of the other keys, and where they come in between, do not matter
(`Keyed.answers_comparable`).
-/
import Mathlib.Logic.Function.Basic

namespace Bpfsnoop.Lib

/-! ## Transcripts -/

section Transcript

variable {σ α ω ε : Type}

/-- The answers of a run, and the state behind it. -/
def transcript (step : σ → α → Except ε (σ × ω)) : σ → List α → Except ε (σ × List ω)
  | s, [] => .ok (s, [])
  | s, e :: es =>
    match step s e with
    | .error x => .error x
    | .ok (t, o) => (transcript step t es).map fun (u, os) => (u, o :: os)

variable {step : σ → α → Except ε (σ × ω)} {s t : σ} {e : α} {es es' : List α} {o : ω} {os : List ω}

@[simp] theorem transcript_nil : transcript step s [] = .ok (s, []) := rfl

theorem map_eq_ok {β γ : Type} {f : β → γ} {x : Except ε β} {c : γ} :
    x.map f = .ok c ↔ ∃ b, x = .ok b ∧ f b = c := by
  cases x <;> simp [Except.map]

theorem transcript_cons_ok : transcript step s (e :: es) = .ok (t, os) ↔
    ∃ u o os', step s e = .ok (u, o) ∧ transcript step u es = .ok (t, os') ∧ os = o :: os' := by
  rw [transcript]
  cases h : step s e with
  | error x => simp
  | ok r =>
    obtain ⟨u, o⟩ := r
    simp only [map_eq_ok, Prod.exists, Prod.mk.injEq, Except.ok.injEq]
    constructor
    · rintro ⟨_, os', hrest, rfl, rfl⟩
      exact ⟨u, o, os', ⟨rfl, rfl⟩, hrest, rfl⟩
    · rintro ⟨_, _, os', ⟨rfl, rfl⟩, hrest, rfl⟩
      exact ⟨t, os', hrest, rfl, rfl⟩

/-- A run in two parts. -/
theorem transcript_append_ok : transcript step s (es ++ es') = .ok (t, os) ↔
    ∃ u os₁ os₂, transcript step s es = .ok (u, os₁) ∧ transcript step u es' = .ok (t, os₂) ∧
      os = os₁ ++ os₂ := by
  induction es generalizing s os with
  | nil =>
    simp only [List.nil_append, transcript_nil, Except.ok.injEq, Prod.mk.injEq]
    constructor
    · intro h
      exact ⟨s, [], os, ⟨rfl, rfl⟩, h, rfl⟩
    · rintro ⟨_, _, os₂, ⟨rfl, rfl⟩, h, rfl⟩
      exact h
  | cons e es ih =>
    simp only [List.cons_append, transcript_cons_ok, ih]
    constructor
    · rintro ⟨u, o, _, hstep, ⟨v, os₁, os₂, h₁, h₂, rfl⟩, rfl⟩
      exact ⟨v, o :: os₁, os₂, ⟨u, o, os₁, hstep, h₁, rfl⟩, h₂, rfl⟩
    · rintro ⟨v, _, os₂, ⟨u, o, os₁, hstep, h₁, rfl⟩, h₂, rfl⟩
      exact ⟨u, o, os₁ ++ os₂, hstep, ⟨v, os₁, os₂, h₁, h₂, rfl⟩, rfl⟩

theorem transcript_singleton_ok : transcript step s [e] = .ok (t, os) ↔
    ∃ o, step s e = .ok (t, o) ∧ os = [o] := by
  rw [transcript_cons_ok]
  constructor
  · rintro ⟨u, o, os', hstep, hrest, rfl⟩
    simp only [transcript_nil, Except.ok.injEq, Prod.mk.injEq] at hrest
    obtain ⟨rfl, rfl⟩ := hrest
    exact ⟨o, hstep, rfl⟩
  · rintro ⟨o, hstep, rfl⟩
    exact ⟨t, o, [], hstep, rfl, rfl⟩

/-- There is one answer for each event. -/
theorem transcript_length (h : transcript step s es = .ok (t, os)) : os.length = es.length := by
  induction es generalizing s os with
  | nil =>
    simp only [transcript_nil, Except.ok.injEq, Prod.mk.injEq] at h
    rw [← h.2, List.length_nil, List.length_nil]
  | cons e es ih =>
    obtain ⟨u, o, os', _, hrest, rfl⟩ := transcript_cons_ok.mp h
    rw [List.length_cons, List.length_cons, ih hrest]

/-- A run of fewer events answers them as the longer one does. -/
theorem transcript_mono {t' : σ} {os' : List ω} (hpre : es <+: es') (h : transcript step s es = .ok (t, os))
    (h' : transcript step s es' = .ok (t', os')) : os <+: os' := by
  obtain ⟨rest, rfl⟩ := hpre
  obtain ⟨u, os₁, os₂, hfront, -, rfl⟩ := transcript_append_ok.mp h'
  rw [h, Except.ok.injEq, Prod.mk.injEq] at hfront
  rw [hfront.2]
  exact List.prefix_append os₁ os₂

end Transcript

/-! ## Tables of machines -/

/-- A cell answers the events of its key; `free` answers the others. -/
structure Keyed (κ σ α ω ε : Type) where
  key : α → Option κ
  cell : σ → α → Except ε (σ × ω)
  free : α → Except ε ω

namespace Keyed

variable {κ σ α ω ε : Type} [DecidableEq κ] (m : Keyed κ σ α ω ε)

/-- One event: no other cell changes. -/
def step (table : κ → σ) (e : α) : Except ε ((κ → σ) × ω) :=
  match m.key e with
  | none => (m.free e).map (table, ·)
  | some k => (m.cell (table k) e).map fun (s, o) => (Function.update table k s, o)

/-- The events of a key. -/
def events (k : κ) (es : List α) : List α := es.filter fun e => m.key e = some k

/-- The answers to the events of a key. -/
def answers (k : κ) : List α → List ω → List ω
  | e :: es, o :: os => if m.key e = some k then o :: answers k es os else answers k es os
  | _, _ => []

variable {m} {k : κ} {table table' : κ → σ} {e : α} {es es' : List α} {o : ω} {os os' : List ω}

theorem step_keyed (hkey : m.key e = some k) : m.step table e = .ok (table', o) ↔
    ∃ s, m.cell (table k) e = .ok (s, o) ∧ table' = Function.update table k s := by
  unfold step
  rw [hkey]
  simp only [map_eq_ok, Prod.exists, Prod.mk.injEq]
  constructor
  · rintro ⟨s, _, hok, rfl, rfl⟩
    exact ⟨s, hok, rfl⟩
  · rintro ⟨s, hok, rfl⟩
    exact ⟨s, o, hok, rfl, rfl⟩

theorem step_free (hkey : m.key e = none) : m.step table e = .ok (table', o) ↔
    m.free e = .ok o ∧ table' = table := by
  unfold step
  rw [hkey]
  simp only [map_eq_ok, Prod.mk.injEq]
  constructor
  · rintro ⟨_, hok, rfl, rfl⟩
    exact ⟨hok, rfl⟩
  · rintro ⟨hok, rfl⟩
    exact ⟨o, hok, rfl, rfl⟩

/-- An event of another key, or of none, does not touch the cell. -/
theorem step_other (hkey : m.key e ≠ some k) (h : m.step table e = .ok (table', o)) :
    table' k = table k := by
  cases hk : m.key e with
  | none =>
    obtain ⟨-, rfl⟩ := (step_free hk).mp h
    rfl
  | some j =>
    obtain ⟨s, -, rfl⟩ := (step_keyed hk).mp h
    have hne : k ≠ j := fun heq => hkey (by rw [hk, heq])
    exact Function.update_of_ne hne _ _

/-- **The table is its cells side by side.** -/
theorem transcript_cell (k : κ) (h : transcript m.step table es = .ok (table', os)) :
    transcript m.cell (table k) (m.events k es) = .ok (table' k, m.answers k es os) := by
  induction es generalizing table os with
  | nil =>
    simp only [transcript_nil, Except.ok.injEq, Prod.mk.injEq] at h
    obtain ⟨rfl, rfl⟩ := h
    rfl
  | cons e es ih =>
    obtain ⟨u, o, os', hstep, hrest, rfl⟩ := transcript_cons_ok.mp h
    have hcells := ih hrest
    by_cases hkey : m.key e = some k
    · obtain ⟨s, hcell, rfl⟩ := (step_keyed hkey).mp hstep
      rw [Function.update_self] at hcells
      have hevents : m.events k (e :: es) = e :: m.events k es := List.filter_cons_of_pos (by simpa using hkey)
      rw [hevents, answers, if_pos hkey]
      exact transcript_cons_ok.mpr ⟨s, o, _, hcell, hcells, rfl⟩
    · rw [step_other hkey hstep] at hcells
      have hevents : m.events k (e :: es) = m.events k es := List.filter_cons_of_neg (by simpa using hkey)
      rw [hevents, answers, if_neg hkey]
      exact hcells

/-- Events that are not answered do not matter. -/
theorem answers_append (hlen : os.length = es.length) : m.answers k (es ++ es') os = m.answers k es os := by
  induction es generalizing os with
  | nil =>
    obtain rfl := List.eq_nil_of_length_eq_zero hlen
    cases es' <;> rfl
  | cons e es ih =>
    cases os with
    | nil => simp at hlen
    | cons o os =>
      have htail : os.length = es.length := by simpa using hlen
      have hrest := ih htail
      rw [List.cons_append, answers, answers, hrest]

theorem events_append : m.events k (es ++ es') = m.events k es ++ m.events k es' := List.filter_append ..

/-- **Isolation.** Two runs, with the same events of a key in front of them,
answer these alike, as far as each gets. -/
theorem answers_comparable {rest rest' : List α} {end₁ end₂ : κ → σ}
    (hevents : m.events k (es ++ rest) = m.events k (es' ++ rest'))
    (h : transcript m.step table es = .ok (end₁, os)) (h' : transcript m.step table es' = .ok (end₂, os')) :
    m.answers k (es ++ rest) os <+: m.answers k (es' ++ rest') os' ∨
      m.answers k (es' ++ rest') os' <+: m.answers k (es ++ rest) os := by
  have hone := transcript_cell k h
  have htwo := transcript_cell k h'
  rw [answers_append (transcript_length h), answers_append (transcript_length h')]
  rw [events_append, events_append] at hevents
  obtain hle | hle := List.prefix_or_prefix_of_prefix (List.prefix_append _ _)
    (hevents ▸ List.prefix_append (m.events k es') (m.events k rest'))
  · exact .inl (transcript_mono hle hone htwo)
  · exact .inr (transcript_mono hle htwo hone)

end Keyed

end Bpfsnoop.Lib
