/-
Bpfsnoop.Lib.Loops — bounded loops that may be left early.

The body of a loop goes on in a new state (`.ok`) or leaves the loop with
a result (`.error`). A loop whose states are known in advance is a search
for the first round that leaves it (`loop_eq_findSome`), and a loop cut
into chunks is the loop uncut (`loop_chunks`).
-/
import Mathlib.Data.List.Induction

namespace Bpfsnoop.Lib

variable {σ ρ : Type}

/-- At most `n` rounds. -/
def loop (body : σ → Except ρ σ) : Nat → σ → Except ρ σ
  | 0, s => .ok s
  | n + 1, s =>
    match body s with
    | .ok t => loop body n t
    | .error r => .error r

section Compose

variable {body : σ → Except ρ σ} {m n : Nat} {s t : σ} {r : ρ}

theorem loop_succ_of_ok (h : body s = .ok t) : loop body (n + 1) s = loop body n t := by
  rw [loop, h]

theorem loop_succ_of_error (h : body s = .error r) : loop body (n + 1) s = .error r := by
  rw [loop, h]

/-- A loop that is still running goes on with the rounds that are left. -/
theorem loop_add_of_ok (h : loop body m s = .ok t) : loop body (m + n) s = loop body n t := by
  induction m generalizing s with
  | zero => rw [loop] at h; cases h; rw [Nat.zero_add]
  | succ m ih =>
    rw [Nat.add_right_comm]
    cases hb : body s with
    | ok u =>
      rw [loop_succ_of_ok hb] at h ⊢
      exact ih h
    | error r => rw [loop_succ_of_error hb] at h; cases h

/-- A loop that was left stays left. -/
theorem loop_add_of_error (h : loop body m s = .error r) : loop body (m + n) s = .error r := by
  induction m generalizing s with
  | zero => rw [loop] at h; cases h
  | succ m ih =>
    rw [Nat.add_right_comm]
    cases hb : body s with
    | ok u =>
      rw [loop_succ_of_ok hb] at h ⊢
      exact ih h
    | error r' =>
      rw [loop_succ_of_error hb] at h ⊢
      exact h

/-- What every round keeps holds while the loop is running. -/
theorem loop_invariant {I : σ → Prop} (hstep : ∀ s t, I s → body s = .ok t → I t) (hs : I s)
    (h : loop body n s = .ok t) : I t := by
  induction n generalizing s with
  | zero => rw [loop] at h; cases h; exact hs
  | succ n ih =>
    cases hb : body s with
    | ok u =>
      rw [loop_succ_of_ok hb] at h
      exact ih (hstep s u hs hb) h
    | error r => rw [loop_succ_of_error hb] at h; cases h

/-- What every round keeps, and goes on with, holds for ever. -/
theorem loop_forever {I : σ → Prop} (hstep : ∀ s, I s → ∃ t, body s = .ok t ∧ I t) (hs : I s) (n : Nat) :
    ∃ t, loop body n s = .ok t := by
  induction n generalizing s with
  | zero => exact ⟨s, rfl⟩
  | succ n ih =>
    obtain ⟨t, hbody, ht⟩ := hstep s hs
    rw [loop_succ_of_ok hbody]
    exact ih ht

/-- A loop is left once. -/
theorem loop_error_unique {r' : ρ} (h : loop body m s = .error r) (h' : loop body n s = .error r') : r = r' := by
  have hm : loop body (m + n) s = .error r := loop_add_of_error h
  have hn : loop body (n + m) s = .error r' := loop_add_of_error h'
  rw [Nat.add_comm, hm] at hn
  exact Except.error.inj hn

/-- A loop is left by one of its rounds. -/
theorem loop_error (h : loop body n s = .error r) : ∃ t, body t = .error r := by
  induction n generalizing s with
  | zero => rw [loop] at h; cases h
  | succ n ih =>
    cases hb : body s with
    | ok u =>
      rw [loop_succ_of_ok hb] at h
      exact ih h
    | error r' =>
      rw [loop_succ_of_error hb] at h
      exact ⟨s, hb.trans h⟩

/-- A function of the results can be applied in the rounds. -/
theorem loop_mapError {ρ' : Type} (leave : ρ → ρ') :
    loop (fun s => (body s).mapError leave) n s = (loop body n s).mapError leave := by
  induction n generalizing s with
  | zero => rfl
  | succ n ih =>
    simp only [loop]
    cases body s with
    | ok t => exact ih
    | error r => rfl

/-- **Chunks.** A loop of `n` chunks, each a loop of `k` rounds, is a loop of
`n * k` rounds. -/
theorem loop_chunks {chunk : σ → Except ρ σ} {k : Nat} {I : σ → Prop}
    (hstep : ∀ s t, I s → body s = .ok t → I t)
    (hchunk : ∀ s, I s → chunk s = loop body k s) (n : Nat) (hs : I s) :
    loop chunk n s = loop body (n * k) s := by
  induction n generalizing s with
  | zero => rw [Nat.zero_mul]; rfl
  | succ n ih =>
    rw [Nat.succ_mul, Nat.add_comm (n * k)]
    cases hk : loop body k s with
    | ok t =>
      have hround : chunk s = .ok t := (hchunk s hs).trans hk
      rw [loop_succ_of_ok hround, ih (loop_invariant hstep hs hk), loop_add_of_ok hk]
    | error r =>
      have hround : chunk s = .error r := (hchunk s hs).trans hk
      rw [loop_succ_of_error hround, loop_add_of_error hk]

end Compose

/-! ## A loop as a search -/

section Search

variable {body : σ → Except ρ σ} {st : Nat → σ} {exit : Nat → Option ρ}

/-- **A loop as a search.** If round `i` starts in `st i` and leaves by
`exit i`, the loop is left by the first exit. -/
theorem loop_eq_findSome (n : Nat) (h : ∀ i < n, body (st i) = (exit i).elim (.ok (st (i + 1))) .error) :
    loop body n (st 0) = ((List.range n).findSome? exit).elim (.ok (st n)) .error := by
  induction n with
  | zero => rfl
  | succ n ih =>
    have ih := ih fun i hi => h i (Nat.lt_succ_of_lt hi)
    rw [List.range_succ, List.findSome?_append]
    cases hfind : (List.range n).findSome? exit with
    | some r =>
      rw [hfind] at ih
      exact loop_add_of_error ih
    | none =>
      rw [hfind] at ih
      rw [loop_add_of_ok (n := 1) ih, loop, h n (Nat.lt_succ_self n)]
      cases hexit : exit n with
      | none => simp [hexit, loop]
      | some r => simp [hexit]

/-- A search over a range finds what it finds first. -/
theorem findSome?_range_eq_some {n : Nat} {r : ρ} :
    (List.range n).findSome? exit = some r ↔ ∃ i < n, exit i = some r ∧ ∀ j < i, exit j = none := by
  induction n with
  | zero => simp
  | succ n ih =>
    rw [List.range_succ, List.findSome?_append, Option.or_eq_some_iff, ih, List.findSome?_eq_none_iff]
    constructor
    · rintro (hfirst | hlast)
      · obtain ⟨i, hi, hexit⟩ := hfirst
        exact ⟨i, Nat.lt_succ_of_lt hi, hexit⟩
      · refine ⟨n, Nat.lt_succ_self n, by simpa using hlast.2, fun j hj => ?_⟩
        exact hlast.1 j (List.mem_range.mpr hj)
    · intro h
      obtain ⟨i, hi, hexit, hbefore⟩ := h
      obtain hlt | rfl := Nat.lt_succ_iff_lt_or_eq.mp hi
      · exact .inl ⟨i, hlt, hexit, hbefore⟩
      · exact .inr ⟨fun j hj => hbefore j (List.mem_range.mp hj), by simpa using hexit⟩

end Search

end Bpfsnoop.Lib
