/-
Bpfsnoop.Lib.Visits — visiting a list until the visitor stops.

A visitor answers `true` to stop, and may change a state. `visit` asks it
about one element after the other. What it was asked is a prefix of the
list, and its first `true` is the end (`inOrder_asked`). Two visits in a row
are one visit of both lists if and only if the first one did not stop, or
the second list is empty (`inOrder_twice_iff`).
-/
import Mathlib.Data.List.Induction

namespace Bpfsnoop.Lib

variable {α β σ : Type}

/-- The elements in turn, up to the first at which the visitor stops. -/
def visit (iter : σ → α → Bool × σ) : List α → σ → Bool × σ
  | [], s => (false, s)
  | x :: xs, s =>
    match iter s x with
    | (true, t) => (true, t)
    | (false, t) => visit iter xs t

/-- What the visitor is asked, with its answers. -/
def asked (iter : σ → α → Bool × σ) : List α → σ → List (α × Bool)
  | [], _ => []
  | x :: xs, s =>
    match iter s x with
    | (true, _) => [(x, true)]
    | (false, t) => (x, false) :: asked iter xs t

/-- The visitor that writes down what it is asked. -/
def recorded (iter : σ → α → Bool × σ) (s : σ × List (α × Bool)) (x : α) : Bool × (σ × List (α × Bool)) :=
  ((iter s.1 x).1, (iter s.1 x).2, s.2 ++ [(x, (iter s.1 x).1)])

/-- The calls are about the elements of a list in their order, from the
first on, and there is none after the answer `true`. -/
structure InOrder (xs : List α) (calls : List (α × Bool)) : Prop where
  isPrefix : calls.map (·.1) <+: xs
  last : ∀ pre x post, calls = pre ++ (x, true) :: post → post = []

section Visit

variable {iter : σ → α → Bool × σ} {xs ys : List α} {s : σ}

theorem visit_cons_of_true {x : α} (h : (iter s x).1 = true) : visit iter (x :: xs) s = (true, (iter s x).2) := by
  rw [visit]
  split
  · rename_i hiter
    rw [hiter]
  · rename_i hiter
    rw [hiter] at h
    cases h

theorem visit_cons_of_false {x : α} (h : (iter s x).1 = false) :
    visit iter (x :: xs) s = visit iter xs (iter s x).2 := by
  rw [visit]
  split
  · rename_i hiter
    rw [hiter] at h
    cases h
  · rename_i hiter
    rw [hiter]

/-- A visitor that never stops sees everything. -/
theorem visit_of_goesOn (h : ∀ s x, (iter s x).1 = false) :
    visit iter xs s = (false, xs.foldl (fun s x => (iter s x).2) s) := by
  induction xs generalizing s with
  | nil => rfl
  | cons x xs ih => rw [visit_cons_of_false (h s x), ih, List.foldl_cons]

theorem asked_cons_of_true {x : α} (h : (iter s x).1 = true) : asked iter (x :: xs) s = [(x, true)] := by
  rw [asked]
  split
  · rfl
  · rename_i hiter
    rw [hiter] at h
    cases h

theorem asked_cons_of_false {x : α} (h : (iter s x).1 = false) :
    asked iter (x :: xs) s = (x, false) :: asked iter xs (iter s x).2 := by
  rw [asked]
  split
  · rename_i hiter
    rw [hiter] at h
    cases h
  · rename_i hiter
    rw [hiter]

/-- The record of a visit, behind what was recorded before. -/
theorem visit_recorded (log : List (α × Bool)) : visit (recorded iter) xs (s, log)
    = ((visit iter xs s).1, (visit iter xs s).2, log ++ asked iter xs s) := by
  induction xs generalizing s log with
  | nil => simp [visit, asked]
  | cons x xs ih =>
    cases h : (iter s x).1 with
    | true =>
      have hrec : (recorded iter (s, log) x).1 = true := h
      rw [visit_cons_of_true hrec, visit_cons_of_true h, asked_cons_of_true h, recorded, h]
    | false =>
      have hrec : (recorded iter (s, log) x).1 = false := h
      rw [visit_cons_of_false hrec, visit_cons_of_false h, asked_cons_of_false h, recorded, h, ih]
      simp

/-- A visit that did not stop goes on with a list behind. -/
theorem asked_append (h : (visit iter xs s).1 = false) :
    asked iter (xs ++ ys) s = asked iter xs s ++ asked iter ys (visit iter xs s).2 := by
  induction xs generalizing s with
  | nil => rfl
  | cons x xs ih =>
    cases hiter : (iter s x).1 with
    | true =>
      rw [visit_cons_of_true hiter] at h
      cases h
    | false =>
      rw [visit_cons_of_false hiter] at h ⊢
      rw [List.cons_append, asked_cons_of_false hiter, asked_cons_of_false hiter, ih h, List.cons_append]

/-- A visit that stopped was answered `true` last. -/
theorem asked_stopped (h : (visit iter xs s).1 = true) : ∃ pre x, asked iter xs s = pre ++ [(x, true)] := by
  induction xs generalizing s with
  | nil => cases h
  | cons x xs ih =>
    cases hiter : (iter s x).1 with
    | true => exact ⟨[], x, asked_cons_of_true hiter⟩
    | false =>
      rw [visit_cons_of_false hiter] at h
      obtain ⟨pre, y, heq⟩ := ih h
      exact ⟨(x, false) :: pre, y, by rw [asked_cons_of_false hiter, heq, List.cons_append]⟩

theorem asked_ne_nil (hne : ys ≠ []) : asked iter ys s ≠ [] := by
  obtain ⟨y, ys, rfl⟩ := List.exists_cons_of_ne_nil hne
  cases h : (iter s y).1 with
  | true => rw [asked_cons_of_true h]; exact List.cons_ne_nil _ _
  | false => rw [asked_cons_of_false h]; exact List.cons_ne_nil _ _

/-- **One visit.** Its calls are in order, and stop at the first `true`. -/
theorem inOrder_asked (iter : σ → α → Bool × σ) (xs : List α) (s : σ) : InOrder xs (asked iter xs s) := by
  induction xs generalizing s with
  | nil => exact ⟨List.nil_prefix, fun pre _ _ h => by cases pre <;> cases h⟩
  | cons x xs ih =>
    cases hiter : (iter s x).1 with
    | true =>
      rw [asked_cons_of_true hiter]
      refine ⟨⟨xs, rfl⟩, fun pre y post h => ?_⟩
      cases pre with
      | nil => exact (List.cons.inj h).2.symm
      | cons _ pre => cases pre <;> cases (List.cons.inj h).2
    | false =>
      rw [asked_cons_of_false hiter]
      obtain ⟨hbefore, hlast⟩ := ih (iter s x).2
      refine ⟨List.cons_prefix_cons.mpr ⟨rfl, hbefore⟩, fun pre y post h => ?_⟩
      cases pre with
      | nil => cases h
      | cons _ pre => exact hlast pre y post (List.cons.inj h).2

theorem InOrder.append_right {calls : List (α × Bool)} (h : InOrder xs calls) (ys : List α) :
    InOrder (xs ++ ys) calls :=
  ⟨h.isPrefix.trans (List.prefix_append xs ys), h.last⟩

/-- **Two visits in a row**, the second one whatever the first one says. -/
theorem inOrder_twice_iff (iter : σ → α → Bool × σ) (xs ys : List α) (s : σ) :
    InOrder (xs ++ ys) (asked iter xs s ++ asked iter ys (visit iter xs s).2) ↔
      (visit iter xs s).1 = false ∨ ys = [] := by
  constructor
  · intro h
    by_contra hboth
    obtain ⟨hstopped, hne⟩ := not_or.mp hboth
    obtain ⟨pre, x, heq⟩ := asked_stopped (Bool.not_eq_false _ ▸ hstopped)
    rw [heq, List.append_assoc] at h
    exact asked_ne_nil hne (h.last pre x _ rfl)
  · rintro (hgoes | rfl)
    · rw [← asked_append hgoes]
      exact inOrder_asked iter (xs ++ ys) s
    · rw [asked, List.append_nil, List.append_nil]
      exact inOrder_asked iter xs s

end Visit

/-! ## Looking for something -/

/-- The visitor that stops where `f` answers, and keeps what it finds there. -/
def seek (f : α → Option (Option β)) (found : Option β) (x : α) : Bool × Option β :=
  match f x with
  | none => (false, found)
  | some none => (true, found)
  | some (some b) => (true, some b)

section Seek

variable {f : α → Option (Option β)} {found : Option β} {xs : List α}

/-- A visit that looks for something ends at the first answer. -/
theorem visit_seek (f : α → Option (Option β)) (xs : List α) (found : Option β) : visit (seek f) xs found
    = ((xs.findSome? f).isSome, (xs.findSome? f).join.or found) := by
  induction xs generalizing found with
  | nil => rfl
  | cons x xs ih =>
    cases h : f x with
    | none =>
      have hiter : seek f found x = (false, found) := by rw [seek, h]
      rw [visit_cons_of_false (by rw [hiter]), hiter, ih, List.findSome?_cons, h]
    | some answer =>
      have hiter : seek f found x = (true, answer.or found) := by
        cases answer <;> simp [seek, h]
      rw [visit_cons_of_true (by rw [hiter]), hiter, List.findSome?_cons, h]
      rfl

end Seek

/-! ## Keeping the first answer -/

/-- The visitor that stops where `f` answers, and stays stopped. -/
def latch (f : α → Option β) (found : Option β) (x : α) : Bool × Option β :=
  if found.isSome then (true, found)
  else
    match f x with
    | some b => (true, some b)
    | none => (false, found)

section Latch

variable {f : α → Option β} {found : Option β} {xs : List α}

end Latch

end Bpfsnoop.Lib
