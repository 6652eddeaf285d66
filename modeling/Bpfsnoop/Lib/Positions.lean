/-
Bpfsnoop.Lib.Positions — tables of positions in a growing list.

A list that only grows at its end is indexed by a key of its elements. A
table may keep the first position of each key, which is written once, or
the last one, which every element with the key overwrites. `KeepsFirst` and
`KeepsLast` say what such a table holds for the list as it is, with one
lemma each for an element more.
-/
import Mathlib.Data.List.AList

namespace Bpfsnoop.Lib

section

variable {α κ : Type} [DecidableEq κ] {key : α → κ} {xs : List α} {x : α} {t : AList fun _ : κ => Nat}

/-! ## The first position -/

/-- The first element with a key, and what stands before and after it. -/
theorem findIdx?_eq_some_split {k : κ} {p : Nat} (h : xs.findIdx? (key · = k) = some p) :
    ∃ pre x post, xs = pre ++ x :: post ∧ pre.length = p ∧ key x = k ∧ k ∉ pre.map key := by
  obtain ⟨hp, hx, hbefore⟩ := List.findIdx?_eq_some_iff_getElem.mp h
  refine ⟨xs.take p, xs[p], xs.drop (p + 1), ?_, ?_, by simpa using hx, ?_⟩
  · simp
  · simp
    omega
  · intro hmem
    obtain ⟨y, hy, hk⟩ := List.mem_map.mp hmem
    obtain ⟨j, hj, rfl⟩ := List.mem_take_iff_getElem.mp hy
    have hne := hbefore j (by omega)
    simp [hk] at hne

/-- The table holds the first position of each key. -/
def KeepsFirst (key : α → κ) (xs : List α) (t : AList fun _ : κ => Nat) : Prop :=
  ∀ k, t.lookup k = xs.findIdx? (key · = k)

theorem KeepsFirst.nil : KeepsFirst key [] ∅ := fun k => by simp

/-- An element whose key is known leaves the table as it is. -/
theorem KeepsFirst.known {p : Nat} (h : KeepsFirst key xs t) (hp : t.lookup (key x) = some p) :
    KeepsFirst key (xs ++ [x]) t := by
  intro k
  rw [List.findIdx?_append, h k]
  by_cases hk : key x = k
  · have hsome : xs.findIdx? (key · = k) = some p := by rw [← hk, ← h, hp]
    simp [hsome]
  · simp [hk]

/-- An element with a new key is written at the position it takes. -/
theorem KeepsFirst.new (h : KeepsFirst key xs t) (hnone : t.lookup (key x) = none) :
    KeepsFirst key (xs ++ [x]) (t.insert (key x) xs.length) := by
  intro k
  rw [List.findIdx?_append]
  by_cases hk : key x = k
  · have hnone' : xs.findIdx? (key · = k) = none := by rw [← hk, ← h, hnone]
    rw [hnone', ← hk, AList.lookup_insert]
    simp
  · rw [AList.lookup_insert_ne (Ne.symm hk), h k]
    simp [hk]

/-! ## The last position -/

/-- Where an element of a list that grew by one stands: it is the new one,
or it stood in the list before. -/
theorem split_of_concat {pre post : List α} {y : α} (heq : xs ++ [x] = pre ++ y :: post) :
    (pre = xs ∧ y = x ∧ post = []) ∨ ∃ before, post = before ++ [x] ∧ xs = pre ++ y :: before := by
  rcases List.eq_nil_or_concat post with rfl | ⟨before, z, rfl⟩
  · obtain ⟨hxs, hx⟩ := List.append_inj' heq rfl
    exact .inl ⟨hxs.symm, (List.head_eq_of_cons_eq hx).symm, rfl⟩
  · have heq' : xs ++ [x] = (pre ++ y :: before) ++ [z] := by simpa using heq
    obtain ⟨hxs, hx⟩ := List.append_inj' heq' rfl
    exact .inr ⟨before, by rw [List.concat_eq_append, List.head_eq_of_cons_eq hx], hxs⟩

/-- The table holds the last position of each key. -/
def KeepsLast (key : α → κ) (xs : List α) (t : AList fun _ : κ => Nat) : Prop :=
  ∀ k p, t.lookup k = some p ↔
    ∃ pre x post, xs = pre ++ x :: post ∧ pre.length = p ∧ key x = k ∧ k ∉ post.map key

theorem KeepsLast.nil : KeepsLast key [] ∅ := fun k p => by simp

/-- Every element is written at the position it takes. -/
theorem KeepsLast.insert (h : KeepsLast key xs t) : KeepsLast key (xs ++ [x]) (t.insert (key x) xs.length) := by
  intro k p
  by_cases hk : key x = k
  · rw [← hk, AList.lookup_insert, Option.some.injEq]
    constructor
    · rintro rfl
      exact ⟨xs, x, [], rfl, rfl, rfl, by simp⟩
    · rintro ⟨pre, y, post, heq, rfl, -, hpost⟩
      rcases split_of_concat heq with ⟨rfl, -, -⟩ | ⟨before, rfl, -⟩
      · rfl
      · -- the new element has the key and stands behind
        simp at hpost
  · rw [AList.lookup_insert_ne (Ne.symm hk), h k p]
    constructor
    · rintro ⟨pre, y, post, rfl, hp, hy, hpost⟩
      exact ⟨pre, y, post ++ [x], by simp, hp, hy, by simpa [Ne.symm hk] using hpost⟩
    · rintro ⟨pre, y, post, heq, hp, hy, hpost⟩
      rcases split_of_concat heq with ⟨-, rfl, -⟩ | ⟨before, rfl, hxs⟩
      · exact absurd hy hk
      · exact ⟨pre, y, before, hxs, hp, hy, fun hmem => hpost (by simp [hmem])⟩

/-- The keys of the table are the keys of the list. -/
theorem KeepsLast.mem_keys (h : KeepsLast key xs t) {k : κ} : k ∈ t.keys ↔ k ∈ xs.map key := by
  rw [← AList.mem_keys, ← AList.lookup_isSome, Option.isSome_iff_exists]
  constructor
  · rintro ⟨p, hp⟩
    obtain ⟨pre, x, post, rfl, -, rfl, -⟩ := (h k p).mp hp
    simp
  · intro hmem
    -- the first element with the key from behind is the last one
    have hany : (xs.reverse.findIdx? (key · = k)).isSome := by
      simpa [List.findIdx?_isSome] using hmem
    obtain ⟨p, hp⟩ := Option.isSome_iff_exists.mp hany
    obtain ⟨pre, x, post, hrev, -, hx, hnew⟩ := findIdx?_eq_some_split hp
    have hxs : xs = post.reverse ++ x :: pre.reverse := by
      simpa using congrArg List.reverse hrev
    exact ⟨post.reverse.length, (h k _).mpr ⟨post.reverse, x, pre.reverse, hxs, rfl, hx, by simpa using hnew⟩⟩

end

end Bpfsnoop.Lib
