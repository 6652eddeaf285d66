/-
Bpfsnoop.Lib.Writes — tables that are written in a loop.

A list of writes leaves under each key the last value written there
(`lookup_insertAll`); a loop over a table that deletes some of its entries
leaves the others (`lookup_eraseWhere`).
-/
import Mathlib.Data.List.AList

namespace Bpfsnoop.Lib

variable {κ α : Type} [DecidableEq κ]

/-- The last value written under a key. -/
def lastWrite (k : κ) : List (κ × α) → Option α
  | [] => none
  | (k', a) :: writes => (lastWrite k writes).or (if k' = k then some a else none)

section LastWrite

variable {k : κ} {a : α} {writes : List (κ × α)}

theorem lastWrite_eq_none : lastWrite k writes = none ↔ k ∉ writes.map Prod.fst := by
  induction writes with
  | nil => simp [lastWrite]
  | cons w writes ih =>
    obtain ⟨k', a⟩ := w
    simp only [lastWrite, Option.or_eq_none_iff, ih, List.map_cons, List.mem_cons, not_or]
    by_cases hk : k' = k
    · simp [hk]
    · simp [hk, Ne.symm hk]

/-- The last write: none behind it is under the key. -/
theorem lastWrite_eq_some_iff :
    lastWrite k writes = some a ↔ ∃ before after, writes = before ++ (k, a) :: after ∧ k ∉ after.map Prod.fst := by
  induction writes with
  | nil => simp [lastWrite]
  | cons w writes ih =>
    obtain ⟨k', a'⟩ := w
    rw [lastWrite, Option.or_eq_some_iff, ih, lastWrite_eq_none]
    constructor
    · rintro (⟨before, after, rfl, hafter⟩ | ⟨hnone, hhere⟩)
      · exact ⟨(k', a') :: before, after, rfl, hafter⟩
      · obtain ⟨rfl, rfl⟩ : k' = k ∧ a' = a := by simpa using hhere
        exact ⟨[], writes, rfl, hnone⟩
    · rintro ⟨before, after, hsplit, hafter⟩
      cases before with
      | nil =>
        obtain ⟨hw, rfl⟩ := List.cons.inj hsplit
        obtain ⟨rfl, rfl⟩ := Prod.mk.inj hw
        exact .inr ⟨hafter, by simp⟩
      | cons w before =>
        obtain ⟨-, rfl⟩ := List.cons.inj hsplit
        exact .inl ⟨before, after, rfl, hafter⟩

/-- The last element that writes under the key. -/
theorem lastWrite_filterMap {σ : Type} {f : σ → Option (κ × α)} {xs : List σ} :
    lastWrite k (xs.filterMap f) = some a ↔
      ∃ before x after, xs = before ++ x :: after ∧ f x = some (k, a) ∧ ∀ y ∈ after, ∀ a', f y ≠ some (k, a') := by
  rw [lastWrite_eq_some_iff]
  constructor
  · rintro ⟨before, after, hsplit, hafter⟩
    obtain ⟨front, rest, rfl, -, hrest⟩ := List.filterMap_eq_append_iff.mp hsplit
    obtain ⟨skipped, x, back, rfl, -, hx, hback⟩ := List.filterMap_eq_cons_iff.mp hrest
    refine ⟨front ++ skipped, x, back, by simp, hx, fun y hy a' hwrite => hafter ?_⟩
    rw [← hback]
    exact List.mem_map.mpr ⟨(k, a'), List.mem_filterMap.mpr ⟨y, hy, hwrite⟩, rfl⟩
  · rintro ⟨before, x, after, rfl, hx, hafter⟩
    refine ⟨before.filterMap f, after.filterMap f, by rw [List.filterMap_append, List.filterMap_cons_some hx], ?_⟩
    intro hmem
    obtain ⟨⟨k', a'⟩, hw, rfl⟩ := List.mem_map.mp hmem
    obtain ⟨y, hy, hwrite⟩ := List.mem_filterMap.mp hw
    exact hafter y hy a' hwrite

theorem lastWrite_append (ws ws' : List (κ × α)) :
    lastWrite k (ws ++ ws') = (lastWrite k ws').or (lastWrite k ws) := by
  induction ws with
  | nil => simp [lastWrite]
  | cons w ws ih =>
    obtain ⟨k', a⟩ := w
    rw [List.cons_append, lastWrite, ih, lastWrite, Option.or_assoc]

end LastWrite

/-! ## Inserting in a loop -/

/-- `for k, a := range writes { t[k] = a }`. -/
def insertAll (t : AList fun _ : κ => α) (writes : List (κ × α)) : AList fun _ : κ => α :=
  writes.foldl (fun t w => t.insert w.1 w.2) t

theorem lookup_insertAll (k : κ) (t : AList fun _ : κ => α) (writes : List (κ × α)) :
    (insertAll t writes).lookup k = (lastWrite k writes).or (t.lookup k) := by
  induction writes generalizing t with
  | nil => rfl
  | cons w writes ih =>
    obtain ⟨k', a⟩ := w
    refine (ih (t.insert k' a)).trans ?_
    rw [lastWrite, Option.or_assoc]
    by_cases hk : k' = k
    · subst hk
      simp
    · simp [hk, AList.lookup_insert_ne (Ne.symm hk)]

theorem insertAll_append (t : AList fun _ : κ => α) (ws ws' : List (κ × α)) :
    insertAll t (ws ++ ws') = insertAll (insertAll t ws) ws' := List.foldl_append

/-- A loop that writes for some of the elements. -/
theorem foldl_insert_filterMap {β : Type} (f : β → Option (κ × α)) (xs : List β) (t : AList fun _ : κ => α) :
    xs.foldl (fun t x => match f x with
      | some w => t.insert w.1 w.2
      | none => t) t = insertAll t (xs.filterMap f) := by
  induction xs generalizing t with
  | nil => rfl
  | cons x xs ih =>
    rw [List.foldl_cons, ih]
    cases hf : f x <;> simp [hf, insertAll]

/-- Loops one after the other write what they write together. -/
theorem foldl_insertAll {β : Type} (f : β → List (κ × α)) (xs : List β) (t : AList fun _ : κ => α) :
    xs.foldl (fun t x => insertAll t (f x)) t = insertAll t (xs.flatMap f) := by
  induction xs generalizing t with
  | nil => rfl
  | cons x xs ih => rw [List.foldl_cons, ih, List.flatMap_cons, insertAll_append]

/-! ## Adding what is missing -/

/-- `for k, a := range src { if _, ok := t[k]; !ok { t[k] = g(a) } }`. -/
def insertAbsent {β : Type} (g : α → β) (t : AList fun _ : κ => β) (src : AList fun _ : κ => α) : AList fun _ : κ => β :=
  src.entries.foldl (fun t e =>
    match t.lookup e.1 with
    | some _ => t
    | none => t.insert e.1 (g e.2)) t

theorem lookup_foldl_insertAbsent {β : Type} (g : α → β) {es : List (Sigma fun _ : κ => α)} (hnodup : es.NodupKeys)
    (t : AList fun _ : κ => β) (k : κ) :
    (es.foldl (fun t e =>
      match t.lookup e.1 with
      | some _ => t
      | none => t.insert e.1 (g e.2)) t).lookup k = (t.lookup k).or ((es.dlookup k).map g) := by
  induction es generalizing t with
  | nil => simp
  | cons e es ih =>
    obtain ⟨k', a⟩ := e
    obtain ⟨hk', hes⟩ := List.nodupKeys_cons.mp hnodup
    rw [List.foldl_cons, ih hes]
    by_cases hk : k = k'
    · subst hk
      rw [List.dlookup_eq_none.mpr hk', List.dlookup_cons_eq]
      cases ht : t.lookup k <;> simp [ht]
    · rw [List.dlookup_cons_ne _ _ hk]
      cases t.lookup k' <;> simp [AList.lookup_insert_ne hk]

theorem lookup_insertAbsent {β : Type} (g : α → β) (t : AList fun _ : κ => β) (src : AList fun _ : κ => α) (k : κ) :
    (insertAbsent g t src).lookup k = (t.lookup k).or ((src.lookup k).map g) :=
  lookup_foldl_insertAbsent g src.nodupKeys t k

/-- A loop whose steps only add what is missing: the first addition stays. -/
theorem lookup_foldl_or {β σ : Type} {f : (AList fun _ : κ => β) → σ → AList fun _ : κ => β} {k : κ}
    {g : σ → Option β} (hstep : ∀ t x, (f t x).lookup k = (t.lookup k).or (g x)) (xs : List σ)
    (t : AList fun _ : κ => β) : (xs.foldl f t).lookup k = (t.lookup k).or (xs.findSome? g) := by
  induction xs generalizing t with
  | nil => simp
  | cons x xs ih =>
    rw [List.foldl_cons, ih, hstep, Option.or_assoc, List.findSome?_cons]
    cases g x <;> simp

/-! ## Loops that may fail -/

variable {β ε : Type}

/-- `for k, a := range src { b, err := f(k, a); …; t[k] = b }`. -/
def insertResolved (f : κ → α → Except ε β) (t : AList fun _ : κ => β) (src : AList fun _ : κ => α) :
    Except ε (AList fun _ : κ => β) :=
  src.entries.foldlM (fun t e => (f e.1 e.2).map (t.insert e.1)) t

/-- The same, where `f` may also leave an entry out. -/
def insertMatched (f : κ → α → Except ε (Option β)) (t : AList fun _ : κ => β) (src : AList fun _ : κ => α) :
    Except ε (AList fun _ : κ => β) :=
  src.entries.foldlM (fun t e => (f e.1 e.2).map fun b => b.elim t (t.insert e.1)) t

/-- `for x := range xs { w, err := f(x); …; t[w.key] = w.value }`. -/
def insertEach {σ : Type} (f : σ → Except ε (Option (κ × β))) (t : AList fun _ : κ => β) (xs : List σ) :
    Except ε (AList fun _ : κ => β) :=
  xs.foldlM (fun t x => (f x).map fun w => w.elim t fun w => t.insert w.1 w.2) t

/-- The writes of `f` that succeed. -/
def written {σ : Type} (f : σ → Except ε (Option (κ × β))) (x : σ) : Option (κ × β) := (f x).toOption.join

/-- A loop that succeeds has done every write. -/
theorem insertEach_eq_ok {σ : Type} {f : σ → Except ε (Option (κ × β))} {t t' : AList fun _ : κ => β}
    {xs : List σ} (h : insertEach f t xs = .ok t') :
    (∀ x ∈ xs, ∃ w, f x = .ok w) ∧ t' = insertAll t (xs.filterMap (written f)) := by
  induction xs generalizing t with
  | nil =>
    cases h
    exact ⟨by simp, rfl⟩
  | cons x xs ih =>
    rw [insertEach, List.foldlM_cons] at h
    cases hf : f x with
    | error err => simp [hf, Except.map, bind, Except.bind] at h
    | ok w =>
      simp only [hf, Except.map, bind, Except.bind] at h
      obtain ⟨hrest, rfl⟩ := ih h
      refine ⟨List.forall_mem_cons.mpr ⟨⟨w, hf⟩, hrest⟩, ?_⟩
      cases w <;> simp [written, hf, Except.toOption, insertAll]

theorem foldlM_insertMatched {f : κ → α → Except ε (Option β)} {es : List (Sigma fun _ : κ => α)}
    (hnodup : es.NodupKeys) {t t' : AList fun _ : κ => β}
    (h : es.foldlM (fun t e => (f e.1 e.2).map fun b => b.elim t (t.insert e.1)) t = .ok t') (k : κ) :
    match es.dlookup k with
    | none => t'.lookup k = t.lookup k
    | some a => ∃ b, f k a = .ok b ∧ t'.lookup k = b.or (t.lookup k) := by
  induction es generalizing t with
  | nil =>
    cases h
    rfl
  | cons e es ih =>
    obtain ⟨k', a⟩ := e
    obtain ⟨hk', hes⟩ := List.nodupKeys_cons.mp hnodup
    rw [List.foldlM_cons] at h
    cases hf : f k' a with
    | error err => simp [hf, Except.map, bind, Except.bind] at h
    | ok b =>
      simp only [hf, Except.map, bind, Except.bind] at h
      have hrest := ih hes h
      by_cases hk : k = k'
      · subst hk
        rw [List.dlookup_eq_none.mpr hk'] at hrest
        rw [List.dlookup_cons_eq]
        refine ⟨b, hf, hrest.trans ?_⟩
        cases b <;> simp
      · rw [List.dlookup_cons_ne _ _ hk]
        have hsame : (b.elim t (t.insert k')).lookup k = t.lookup k := by
          cases b <;> simp [AList.lookup_insert_ne hk]
        rwa [hsame] at hrest

/-- What the loop leaves under a key. -/
theorem lookup_insertMatched {f : κ → α → Except ε (Option β)} {t t' : AList fun _ : κ => β}
    {src : AList fun _ : κ => α} (h : insertMatched f t src = .ok t') (k : κ) :
    match src.lookup k with
    | none => t'.lookup k = t.lookup k
    | some a => ∃ b, f k a = .ok b ∧ t'.lookup k = b.or (t.lookup k) :=
  foldlM_insertMatched src.nodupKeys h k

theorem lookup_insertResolved {f : κ → α → Except ε β} {t t' : AList fun _ : κ => β}
    {src : AList fun _ : κ => α} (h : insertResolved f t src = .ok t') (k : κ) :
    match src.lookup k with
    | none => t'.lookup k = t.lookup k
    | some a => ∃ b, f k a = .ok b ∧ t'.lookup k = some b := by
  have hmatched : insertMatched (fun k a => (f k a).map some) t src = .ok t' := by
    rw [← h, insertMatched, insertResolved]
    congr 1
    funext t e
    cases f e.1 e.2 <;> rfl
  have hlookup := lookup_insertMatched hmatched k
  cases hk : src.lookup k with
  | none => rwa [hk] at hlookup
  | some a =>
    rw [hk] at hlookup
    obtain ⟨b, hf, heq⟩ := hlookup
    obtain ⟨b', hb', rfl⟩ : ∃ b', f k a = .ok b' ∧ some b' = b := by
      cases hfk : f k a with
      | error err => simp [hfk, Except.map] at hf
      | ok b' => exact ⟨b', rfl, by simpa [hfk, Except.map] using hf⟩
    exact ⟨b', hb', heq⟩

/-! ## Deleting in a loop -/

/-- `for k, a := range t { if drop { delete(t, k) } }`. -/
def eraseWhere (drop : κ → α → Bool) (t : AList fun _ : κ => α) : AList fun _ : κ => α :=
  t.entries.foldl (fun t e => if drop e.1 e.2 then t.erase e.1 else t) t

theorem lookup_foldl_erase (drop : κ → α → Bool) (k : κ) (es : List (Sigma fun _ : κ => α))
    (t : AList fun _ : κ => α) :
    (es.foldl (fun t e => if drop e.1 e.2 then t.erase e.1 else t) t).lookup k =
      if ∃ e ∈ es, e.1 = k ∧ drop e.1 e.2 = true then none else t.lookup k := by
  induction es generalizing t with
  | nil => simp
  | cons e es ih =>
    simp only [List.foldl_cons, ih, List.mem_cons, exists_eq_or_imp]
    by_cases hrest : ∃ e ∈ es, e.1 = k ∧ drop e.1 e.2 = true
    · rw [if_pos hrest, if_pos (.inr hrest)]
    · by_cases hhere : e.1 = k ∧ drop e.1 e.2 = true
      · rw [if_neg hrest, if_pos hhere.2, if_pos (.inl hhere), ← hhere.1, AList.lookup_erase]
      · rw [if_neg hrest, if_neg (not_or.mpr ⟨hhere, hrest⟩)]
        split
        · rename_i hdrop
          exact AList.lookup_erase_ne fun hk => hhere ⟨hk.symm, hdrop⟩
        · rfl

/-- The entries that are not to be deleted are left. -/
theorem lookup_eraseWhere (drop : κ → α → Bool) (t : AList fun _ : κ => α) (k : κ) :
    (eraseWhere drop t).lookup k = (t.lookup k).filter fun a => !drop k a := by
  rw [eraseWhere, lookup_foldl_erase]
  cases hk : t.lookup k with
  | none => simp
  | some a =>
    have hmem : Sigma.mk k a ∈ t.entries := AList.mem_lookup_iff.mp hk
    by_cases hdrop : drop k a = true
    · rw [if_pos ⟨⟨k, a⟩, hmem, rfl, hdrop⟩, Option.filter_some, if_neg (by simp [hdrop])]
    · rw [if_neg, Option.filter_some, if_pos (by simp [hdrop])]
      rintro ⟨⟨k', a'⟩, hmem', rfl, hdrop'⟩
      rw [AList.mem_lookup_iff.mpr hmem'] at hk
      obtain rfl := Option.some.inj hk
      exact hdrop hdrop'

end Bpfsnoop.Lib
