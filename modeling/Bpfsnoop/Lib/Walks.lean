/-
Bpfsnoop.Lib.Walks — walks from the roots of a graph, by their length.

A search to a bounded depth does not have to follow every walk. It is
enough that whatever it visits at some depth, it visits the next nodes at
no greater depth than one more (`Walk.covered`).
-/
import Mathlib.Logic.Basic

namespace Bpfsnoop.Lib

variable {α : Type}

/-- A walk from a root along the edges, with their number. -/
inductive Walk (Edge : α → α → Prop) (Root : α → Prop) : α → Nat → Prop
  | root {a : α} (h : Root a) : Walk Edge Root a 0
  | edge {a b : α} {n : Nat} (h : Walk Edge Root a n) (hab : Edge a b) : Walk Edge Root b (n + 1)

section Walks

variable {Edge : α → α → Prop} {Root : α → Prop} {a : α} {k n : Nat}

/-- A walk stays where the edges stay. -/
theorem Walk.mem {P : α → Prop} (h : Walk Edge Root a k) (hroot : ∀ a, Root a → P a)
    (hedge : ∀ a b, P a → Edge a b → P b) : P a := by
  induction h with
  | root h => exact hroot _ h
  | edge _ hab ih => exact hedge _ _ ih hab

/-- **What is visited covers the walks.** -/
theorem Walk.covered {P : α → Nat → Prop} (h : Walk Edge Root a k) (hk : k ≤ n) (hroot : ∀ a, Root a → P a 0)
    (hedge : ∀ a j b, P a j → j < n → Edge a b → ∃ i ≤ j + 1, P b i) : ∃ j ≤ k, P a j := by
  induction h with
  | root h => exact ⟨0, Nat.le_refl 0, hroot _ h⟩
  | edge _ hab ih =>
    obtain ⟨j, hj, hvisited⟩ := ih (by omega)
    obtain ⟨i, hi, hnext⟩ := hedge _ j _ hvisited (by omega) hab
    exact ⟨i, by omega, hnext⟩

end Walks

/-! ## A root above others -/

section Above

variable {Edge : α → α → Prop} {Start : α → Prop} {Edge' : Option α → Option α → Prop} {Root' : Option α → Prop}
  {a : α} {n : Nat}

end Above

end Bpfsnoop.Lib
