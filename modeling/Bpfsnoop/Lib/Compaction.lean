/-
Bpfsnoop.Lib.Compaction — a list that is compacted in place.

`overlay out xs` is the list `xs` with `out` written over its front, as it
is while a second cursor writes what a first one has read. A write behind
`out` extends it, a write at its end changes its last element, and behind it
the old elements are still there. The runs of `List.splitBy` grow by an
element at a time (`splitBy_concat_join`, `splitBy_concat_new`).
-/
import Mathlib.Data.List.SplitBy

namespace Bpfsnoop.Lib

variable {α : Type}

/-! ## Overwriting the front -/

/-- The list with `out` written over its front. -/
def overlay (out xs : List α) : List α := out ++ xs.drop out.length

section Overlay

variable {out xs : List α} {a : α} {i : Nat}

theorem length_overlay (h : out.length ≤ xs.length) : (overlay out xs).length = xs.length := by
  rw [overlay, List.length_append, List.length_drop]
  omega

/-- What is not yet overwritten. -/
theorem overlay_behind (h : out.length ≤ i) : (overlay out xs)[i]? = xs[i]? := by
  rw [overlay, List.getElem?_append_right h, List.getElem?_drop, Nat.add_sub_cancel' h]

/-- What was written last. -/
theorem overlay_last (out : List α) (a : α) (xs : List α) :
    (overlay (out ++ [a]) xs)[out.length]? = some a := by
  rw [overlay, List.append_assoc, List.getElem?_append_right (Nat.le_refl _), Nat.sub_self]
  rfl

theorem overlay_set_last (out : List α) (a b : α) (xs : List α) :
    (overlay (out ++ [a]) xs).set out.length b = overlay (out ++ [b]) xs := by
  simp [overlay]

theorem overlay_set_behind (h : out.length < xs.length) (b : α) :
    (overlay out xs).set out.length b = overlay (out ++ [b]) xs := by
  rw [overlay, overlay, List.set_append_right _ _ (Nat.le_refl _), Nat.sub_self,
    List.drop_eq_getElem_cons h, List.set_cons_zero, List.append_assoc, List.length_append,
    List.length_singleton]
  rfl

theorem take_overlay (out xs : List α) : (overlay out xs).take out.length = out :=
  List.take_left

end Overlay

/-! ## Runs -/

section SplitBy

variable {r : α → α → Bool} {xs : List α} {gs : List (List α)} {g : List α} {x a : α}

/-- The last element is in the last run. -/
theorem getLast?_of_splitBy (h : xs.splitBy r = gs ++ [g]) : xs.getLast? = g.getLast? := by
  have hne : g ≠ [] := List.ne_nil_of_mem_splitBy (r := r) (l := xs) (by simp [h])
  rw [← List.flatten_splitBy r xs, h, List.flatten_append, List.flatten_singleton,
    List.getLast?_append_of_ne_nil _ hne]

/-- An element that begins a run. -/
theorem splitBy_concat_new (hlast : xs.getLast? = some x) (hr : r x a = false) :
    (xs ++ [a]).splitBy r = xs.splitBy r ++ [[a]] := by
  refine List.splitBy_append_cons [] fun y hy => ?_
  obtain rfl : x = y := Option.some.inj (hlast.symm.trans hy)
  exact hr

/-- An element that joins the last run. -/
theorem splitBy_concat_join (h : xs.splitBy r = gs ++ [g]) (hlast : g.getLast? = some x)
    (hr : r x a = true) : (xs ++ [a]).splitBy r = gs ++ [g ++ [a]] := by
  obtain ⟨hflat, hnil, hchain, hapart⟩ := List.splitBy_eq_iff.mp h
  have hne : g ≠ [] := by
    rintro rfl
    cases hlast
  rw [List.splitBy_eq_iff]
  refine ⟨by rw [hflat]; simp, ?_, ?_, ?_⟩
  · intro hmem
    rcases List.mem_append.mp hmem with hmem | hmem
    · exact hnil (List.mem_append_left _ hmem)
    · simp at hmem
  · intro m hm
    rcases List.mem_append.mp hm with hm | hm
    · exact hchain m (List.mem_append_left _ hm)
    · rw [List.mem_singleton.mp hm]
      refine List.isChain_append.mpr ⟨hchain g (by simp), List.isChain_singleton a, ?_⟩
      intro y hy z hz
      obtain rfl : x = y := Option.some.inj (hlast.symm.trans hy)
      obtain rfl : a = z := Option.some.inj hz
      exact hr
  · obtain ⟨hgs, -, hjoint⟩ := List.isChain_append.mp hapart
    refine List.isChain_append.mpr ⟨hgs, List.isChain_singleton _, ?_⟩
    intro m hm m' hm'
    obtain rfl : g ++ [a] = m' := Option.some.inj hm'
    obtain ⟨ha, hb, hfalse⟩ := hjoint m hm g rfl
    -- the run has kept its first element
    exact ⟨ha, by simp, by rwa [List.head_append_of_ne_nil hb]⟩

end SplitBy

end Bpfsnoop.Lib
