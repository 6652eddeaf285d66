/-
Bpfsnoop.Lib.Tiles — intervals laid one behind the other.

A tile is a start and a length. `Tiles lo ts hi` says that the tiles of the
list cover the stretch from `lo` to `hi`, each beginning where the one before
ends, and none empty. So no two of them meet (`Tiles.disjoint`), together
they are the whole stretch (`Tiles.cover`), and their lengths add up to it
(`Tiles.length`).
-/
import Mathlib.Algebra.Order.Interval.Set.Group
import Mathlib.Algebra.BigOperators.Group.List.Basic

namespace Bpfsnoop.Lib

section

variable {α : Type*} [AddCommGroup α] [LinearOrder α] [IsOrderedAddMonoid α]

/-- The tiles lie one behind the other from `lo` to `hi`. -/
def Tiles (lo : α) : List (α × α) → α → Prop
  | [], hi => lo = hi
  | (start, length) :: ts, hi => start = lo ∧ 0 < length ∧ Tiles (lo + length) ts hi

/-- The interval of a tile. -/
def span (t : α × α) : Set α := Set.Ico t.1 (t.1 + t.2)

variable {lo hi : α} {ts : List (α × α)}

omit [IsOrderedAddMonoid α] in
theorem Tiles.length (h : Tiles lo ts hi) : lo + (ts.map Prod.snd).sum = hi := by
  induction ts generalizing lo with
  | nil => simpa [Tiles] using h
  | cons t ts ih =>
    obtain ⟨-, -, hrest⟩ := h
    rw [List.map_cons, List.sum_cons, ← add_assoc]
    exact ih hrest

omit [IsOrderedAddMonoid α] in
theorem Tiles.pos (h : Tiles lo ts hi) : ∀ t ∈ ts, 0 < t.2 := by
  induction ts generalizing lo with
  | nil =>
    intro t ht
    cases ht
  | cons t ts ih =>
    obtain ⟨-, hpos, hrest⟩ := h
    exact List.forall_mem_cons.mpr ⟨hpos, ih hrest⟩

theorem Tiles.le (h : Tiles lo ts hi) : lo ≤ hi := by
  induction ts generalizing lo with
  | nil => exact le_of_eq h
  | cons t ts ih =>
    obtain ⟨-, hpos, hrest⟩ := h
    exact (le_add_of_nonneg_right hpos.le).trans (ih hrest)

/-- **The tiles are the whole stretch.** -/
theorem Tiles.cover (h : Tiles lo ts hi) (x : α) : (∃ t ∈ ts, x ∈ span t) ↔ lo ≤ x ∧ x < hi := by
  induction ts generalizing lo with
  | nil =>
    obtain rfl : lo = hi := h
    simp
  | cons t ts ih =>
    obtain ⟨hstart, hpos, hrest⟩ := h
    rw [List.exists_mem_cons_iff, ih hrest, span, Set.mem_Ico, hstart]
    constructor
    · rintro (⟨hlo, hx⟩ | ⟨hlo, hx⟩)
      · exact ⟨hlo, hx.trans_le hrest.le⟩
      · exact ⟨(le_add_of_nonneg_right hpos.le).trans hlo, hx⟩
    · rintro ⟨hlo, hx⟩
      rcases lt_or_ge x (lo + t.2) with hlt | hge
      · exact .inl ⟨hlo, hlt⟩
      · exact .inr ⟨hge, hx⟩

/-- **No two tiles meet.** -/
theorem Tiles.disjoint (h : Tiles lo ts hi) : ts.Pairwise fun t t' => ∀ x ∈ span t, x ∉ span t' := by
  induction ts generalizing lo with
  | nil => exact .nil
  | cons t ts ih =>
    obtain ⟨hstart, -, hrest⟩ := h
    refine .cons (fun t' ht' => ?_) (ih hrest)
    -- the others lie behind the first
    intro x hx hx'
    have hbehind := (hrest.cover x).mp ⟨t', ht', hx'⟩
    rw [span, Set.mem_Ico, hstart] at hx
    exact absurd hx.2 (not_lt.mpr hbehind.1)

end

end Bpfsnoop.Lib
