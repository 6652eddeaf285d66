/-
Bpfsnoop.Lib.SharedSlices — slices that share an array.

A slice is an array and a length, and appending to it writes behind its end
where the array has room, and copies to a new array where it has not. Two
slices of one array may so overwrite each other's elements. `Extends` says
what the owner of a slice leaves alone, whatever it appends: everything but
the cells of its array that are behind its end. What the owner of an
extended slice leaves alone, the owner of the slice itself does
(`append_extends`), so a slice keeps what it holds (`Extends.content`).
-/
import Mathlib.Logic.Basic

namespace Bpfsnoop.Lib

variable {α : Type}

/-- The arrays allocated so far. -/
abbrev Arrays (α : Type) := List (List α)

/-- The first `len` elements of an array. -/
structure SharedSlice where
  array : Nat
  len : Nat

namespace SharedSlice

/-- The cells of the array, also the ones behind the end. -/
def cells (h : Arrays α) (s : SharedSlice) : List α := h.getD s.array []

def content (h : Arrays α) (s : SharedSlice) : List α := (s.cells h).take s.len

/-- The array is allocated and long enough. -/
structure Valid (h : Arrays α) (s : SharedSlice) : Prop where
  array : s.array < h.length
  len : s.len ≤ (s.cells h).length

/-- `append(s, a)`. A new array has `grow` more cells than it needs. -/
def append [Inhabited α] (grow : Nat → Nat) (h : Arrays α) (s : SharedSlice) (a : α) : Arrays α × SharedSlice :=
  if s.len < (s.cells h).length then (h.set s.array ((s.cells h).set s.len a), ⟨s.array, s.len + 1⟩)
  else (h ++ [s.content h ++ a :: List.replicate (grow s.len) default], ⟨h.length, s.len + 1⟩)

/-- All cells are kept but those behind the end of `s`. -/
structure Extends (s : SharedSlice) (h h' : Arrays α) : Prop where
  length : h.length ≤ h'.length
  others : ∀ t : SharedSlice, t.array < h.length → t.array ≠ s.array → t.cells h' = t.cells h
  size : (s.cells h').length = (s.cells h).length
  content : s.content h' = s.content h

section Extends

variable {h h' h'' : Arrays α} {s : SharedSlice}

theorem Extends.refl (s : SharedSlice) (h : Arrays α) : Extends s h h :=
  ⟨Nat.le_refl _, fun _ _ _ => rfl, rfl, rfl⟩

theorem Extends.trans (h₁ : Extends s h h') (h₂ : Extends s h' h'') : Extends s h h'' where
  length := Nat.le_trans h₁.length h₂.length
  others t ht hne := (h₂.others t (Nat.lt_of_lt_of_le ht h₁.length) hne).trans (h₁.others t ht hne)
  size := h₂.size.trans h₁.size
  content := h₂.content.trans h₁.content

theorem Extends.valid (hext : Extends s h h') (hs : Valid h s) : Valid h' s where
  array := Nat.lt_of_lt_of_le hs.array hext.length
  len := by rw [hext.size]; exact hs.len

theorem content_length (hs : Valid h s) : (s.content h).length = s.len := by
  rw [SharedSlice.content, List.length_take, Nat.min_eq_left hs.len]

theorem cells_set_self (hs : s.array < h.length) (cells : List α) (len : Nat) :
    (⟨s.array, len⟩ : SharedSlice).cells (h.set s.array cells) = cells := by
  rw [SharedSlice.cells, List.getD_eq_getElem?_getD, List.getElem?_set_self hs, Option.getD_some]

theorem cells_set_ne {t : SharedSlice} (hne : t.array ≠ s.array) (cells : List α) :
    t.cells (h.set s.array cells) = t.cells h := by
  rw [SharedSlice.cells, List.getD_eq_getElem?_getD, List.getElem?_set_ne hne.symm, ← List.getD_eq_getElem?_getD]
  rfl

theorem cells_append_left {t : SharedSlice} (ht : t.array < h.length) (new : Arrays α) :
    t.cells (h ++ new) = t.cells h := by
  rw [SharedSlice.cells, List.getD_eq_getElem?_getD, List.getElem?_append_left ht, ← List.getD_eq_getElem?_getD]
  rfl

theorem cells_append_new (cells : List α) (len : Nat) :
    (⟨h.length, len⟩ : SharedSlice).cells (h ++ [cells]) = cells := by
  rw [SharedSlice.cells, List.getD_eq_getElem?_getD, List.getElem?_concat_length, Option.getD_some]

end Extends

/-! ## Appending -/

section Append

variable [Inhabited α] {grow : Nat → Nat} {h h' : Arrays α} {s : SharedSlice} {a : α}

/-- Writing behind the end. -/
theorem append_room (hroom : s.len < (s.cells h).length) :
    s.append grow h a = (h.set s.array ((s.cells h).set s.len a), ⟨s.array, s.len + 1⟩) := if_pos hroom

theorem append_full (hfull : ¬ s.len < (s.cells h).length) :
    s.append grow h a
      = (h ++ [s.content h ++ a :: List.replicate (grow s.len) default], ⟨h.length, s.len + 1⟩) := if_neg hfull

theorem append_valid (hs : Valid h s) : Valid (s.append grow h a).1 (s.append grow h a).2 := by
  by_cases hroom : s.len < (s.cells h).length
  · rw [append_room hroom]
    refine ⟨?_, ?_⟩
    · simpa using hs.array
    · rw [cells_set_self hs.array, List.length_set]
      exact hroom
  · rw [append_full hroom]
    refine ⟨by simp, ?_⟩
    rw [cells_append_new, List.length_append, content_length hs, List.length_cons]
    exact Nat.add_le_add_left (Nat.le_add_left 1 _) s.len

theorem append_content (hs : Valid h s) :
    (s.append grow h a).2.content (s.append grow h a).1 = s.content h ++ [a] := by
  by_cases hroom : s.len < (s.cells h).length
  · rw [append_room hroom, SharedSlice.content, cells_set_self hs.array, List.take_add_one,
      List.take_set_of_le (Nat.le_refl _), List.getElem?_set_self hroom]
    rfl
  · rw [append_full hroom, SharedSlice.content, cells_append_new]
    have hlen := content_length hs
    rw [List.take_append, hlen, List.take_of_length_le (Nat.le_trans (Nat.le_of_eq hlen) (Nat.le_succ _)), Nat.add_sub_cancel_left]
    rfl

/-- **What the owner of the extended slice leaves alone.** -/
theorem append_extends (hs : Valid h s) (hext : Extends (s.append grow h a).2 (s.append grow h a).1 h') :
    Extends s h h' := by
  by_cases hroom : s.len < (s.cells h).length
  · rw [append_room hroom] at hext
    have hself := cells_set_self hs.array ((s.cells h).set s.len a) (s.len + 1)
    have hsize := hext.size
    rw [hself, List.length_set] at hsize
    refine ⟨?_, ?_, hsize, ?_⟩
    · simpa using hext.length
    · intro t ht hne
      rw [hext.others t (by simpa using ht) hne]
      exact cells_set_ne hne _
    · -- the shorter slice is a part of the longer one
      have hcontent := congrArg (List.take s.len) hext.content
      rw [SharedSlice.content, SharedSlice.content, hself, List.take_take, List.take_take,
        Nat.min_eq_left (Nat.le_succ _), List.take_set_of_le (Nat.le_refl _)] at hcontent
      exact hcontent
  · rw [append_full hroom] at hext
    -- the old arrays are others than the new one
    have hold {t : SharedSlice} (ht : t.array < h.length) : t.cells h' = t.cells h := by
      rw [hext.others t (by simp; omega) (Nat.ne_of_lt ht), cells_append_left ht]
    refine ⟨?_, fun t ht _ => hold ht, by rw [hold hs.array], by rw [SharedSlice.content, hold hs.array]; rfl⟩
    have hlength := hext.length
    rw [List.length_append] at hlength
    omega

end Append

end SharedSlice

end Bpfsnoop.Lib
