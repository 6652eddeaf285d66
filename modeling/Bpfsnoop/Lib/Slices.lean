/-
Bpfsnoop.Lib.Slices — slices of a buffer, as Go takes them.

A `Slice` is a window of a buffer: where it starts, its length and its
capacity. `s[:n]` may reach up to the capacity, `s[n:]` only up to the
length; beyond that they panic (`none`). `cut` takes the next `n` bytes
off a slice, which is how a record is read part by part: the parts of a
run of cuts lie one behind the other (`cut_eq_some`). `Adjoin` says so of a
list of slices.
-/
import Mathlib.Order.Interval.Finset.Nat

namespace Bpfsnoop.Lib

structure Slice where
  start : Nat
  len : Nat
  cap : Nat
  le : len ≤ cap
  deriving DecidableEq

namespace Slice

/-- The positions in the buffer that a slice covers. -/
def bytes (s : Slice) : Finset Nat := Finset.Ico s.start (s.start + s.len)

/-- `s[:n]`. -/
def upTo (s : Slice) (n : Nat) : Option Slice :=
  if h : n ≤ s.cap then some ⟨s.start, n, s.cap, h⟩ else none

/-- `s[n:]`. -/
def after (s : Slice) (n : Nat) : Option Slice :=
  if n ≤ s.len then some ⟨s.start + n, s.len - n, s.cap - n, Nat.sub_le_sub_right s.le n⟩ else none

/-- `s[a:b]`. -/
def sub (s : Slice) (a b : Nat) : Option Slice :=
  if h : a ≤ b ∧ b ≤ s.cap then some ⟨s.start + a, b - a, s.cap - a, Nat.sub_le_sub_right h.2 a⟩
  else none

/-- `s[:n]` and `s[n:]`. -/
def cut (s : Slice) (n : Nat) : Option (Slice × Slice) := do
  let part ← s.upTo n
  let rest ← s.after n
  return (part, rest)

variable {s part rest : Slice} {n a b : Nat}

theorem upTo_eq_some : s.upTo n = some part ↔
    n ≤ s.cap ∧ part.start = s.start ∧ part.len = n ∧ part.cap = s.cap := by
  obtain ⟨start, len, cap, hle⟩ := part
  unfold upTo
  split
  · rename_i h
    simp only [Option.some.injEq, Slice.mk.injEq, h, true_and]
    constructor
    · rintro ⟨rfl, rfl, rfl⟩
      exact ⟨rfl, rfl, rfl⟩
    · rintro ⟨rfl, rfl, rfl⟩
      exact ⟨rfl, rfl, rfl⟩
  · rename_i h
    simp [h]

theorem after_eq_some : s.after n = some rest ↔
    n ≤ s.len ∧ rest.start = s.start + n ∧ rest.len = s.len - n ∧ rest.cap = s.cap - n := by
  obtain ⟨start, len, cap, hle⟩ := rest
  unfold after
  split
  · rename_i h
    simp only [Option.some.injEq, Slice.mk.injEq, h, true_and]
    constructor
    · rintro ⟨rfl, rfl, rfl⟩
      exact ⟨rfl, rfl, rfl⟩
    · rintro ⟨rfl, rfl, rfl⟩
      exact ⟨rfl, rfl, rfl⟩
  · rename_i h
    simp [h]

theorem sub_eq_some : s.sub a b = some part →
    b ≤ s.cap ∧ part.start = s.start + a ∧ part.len = b - a := by
  intro h
  unfold sub at h
  split at h
  · rename_i hab
    cases h
    exact ⟨hab.2, rfl, rfl⟩
  · cases h

/-- **A cut** succeeds when the bytes are there; the rest follows the part. -/
theorem cut_eq_some : s.cut n = some (part, rest) ↔
    s.upTo n = some part ∧ s.after n = some rest := by
  unfold cut
  cases s.upTo n <;> cases s.after n <;> simp

/-- Two steps are one. -/
theorem after_after (h : s.after n = some rest) : rest.after a = s.after (n + a) := by
  unfold after at h ⊢
  split at h
  · rename_i hn
    cases h
    by_cases ha : n + a ≤ s.len
    · rw [if_pos ha, if_pos (by show a ≤ s.len - n; omega)]
      simp [Nat.sub_sub, Nat.add_assoc]
    · rw [if_neg ha, if_neg (by show ¬ a ≤ s.len - n; omega)]
  · cases h

theorem exists_after (h : n ≤ s.len) :
    ∃ rest, s.after n = some rest ∧ rest.start = s.start + n ∧ rest.len = s.len - n :=
  ⟨⟨s.start + n, s.len - n, s.cap - n, Nat.sub_le_sub_right s.le n⟩,
    after_eq_some.mpr ⟨h, rfl, rfl, rfl⟩, rfl, rfl⟩

theorem exists_cut (h : n ≤ s.len) : ∃ part rest, s.cut n = some (part, rest) ∧
    part.start = s.start ∧ part.len = n ∧ rest.start = s.start + n ∧ rest.len = s.len - n := by
  refine ⟨⟨s.start, n, s.cap, h.trans s.le⟩, ⟨s.start + n, s.len - n, s.cap - n,
    Nat.sub_le_sub_right s.le n⟩, cut_eq_some.mpr ⟨?_, ?_⟩, rfl, rfl, rfl, rfl⟩
  · exact upTo_eq_some.mpr ⟨h.trans s.le, rfl, rfl, rfl⟩
  · exact after_eq_some.mpr ⟨h, rfl, rfl, rfl⟩

theorem cut_eq_none (h : s.len < n) : s.cut n = none := by
  have hafter : s.after n = none := if_neg (by omega)
  unfold cut
  rw [hafter]
  cases s.upTo n <;> rfl

end Slice

/-! ## Slices one behind the other -/

/-- The slices cover the bytes from `lo` to `hi`, one behind the other. -/
def Adjoin : Nat → List Slice → Nat → Prop
  | lo, [], hi => lo = hi
  | lo, s :: ss, hi => s.start = lo ∧ Adjoin (lo + s.len) ss hi

section Adjoin

variable {lo hi n : Nat} {ss : List Slice}

theorem Adjoin.le (h : Adjoin lo ss hi) : lo ≤ hi := by
  induction ss generalizing lo with
  | nil => exact Nat.le_of_eq h
  | cons s ss ih =>
    obtain ⟨-, hrest⟩ := h
    exact (Nat.le_add_right lo s.len).trans (ih hrest)

/-- What follows the first slices. -/
theorem Adjoin.behind {ts rest : List Slice} {mid : Nat} (hts : Adjoin lo ts mid) (h : Adjoin lo (ts ++ rest) hi) :
    Adjoin mid rest hi := by
  induction ts generalizing lo with
  | nil =>
    obtain rfl : lo = mid := hts
    exact h
  | cons t ts ih =>
    obtain ⟨-, hts⟩ := hts
    obtain ⟨-, h⟩ := h
    exact ih hts h

theorem adjoin_singleton {s : Slice} : Adjoin lo [s] hi ↔ s.start = lo ∧ lo + s.len = hi := Iff.rfl

/-- Slices of one length, at its multiples. -/
theorem adjoin_range {count first : Nat} {piece : Nat → Slice}
    (hstart : ∀ i, first ≤ i → i < first + count → (piece i).start = lo + i * n)
    (hlen : ∀ i, first ≤ i → i < first + count → (piece i).len = n) :
    Adjoin (lo + first * n) ((List.range' first count).map piece) (lo + (first + count) * n) := by
  induction count generalizing first with
  | zero => exact rfl
  | succ count ih =>
    rw [List.range'_succ, List.map_cons]
    have hrest := @ih (first + 1) (fun i hi hlt => hstart i (by omega) (by omega))
      (fun i hi hlt => hlen i (by omega) (by omega))
    refine ⟨hstart first (Nat.le_refl _) (by omega), ?_⟩
    rw [hlen first (Nat.le_refl _) (by omega), Nat.add_assoc, ← Nat.succ_mul, ← Nat.add_assoc, Nat.add_right_comm]
    exact hrest

/-- Fewer slices reach less far. -/
theorem Adjoin.le_of_initial {ts : List Slice} {mid : Nat} (hpre : ts <+: ss) (hts : Adjoin lo ts mid)
    (hss : Adjoin lo ss hi) : mid ≤ hi := by
  obtain ⟨rest, rfl⟩ := hpre
  exact (hts.behind hss).le

/-- Slices that are not empty all have their part. -/
theorem Adjoin.eq_of_initial {ts : List Slice} (hpre : ts <+: ss) (hts : Adjoin lo ts hi)
    (hss : Adjoin lo ss hi) (hpos : ∀ s ∈ ss, 0 < s.len) : ts = ss := by
  obtain ⟨rest, rfl⟩ := hpre
  cases rest with
  | nil => rw [List.append_nil]
  | cons s rest =>
    obtain ⟨-, hrest⟩ := hts.behind hss
    have hs := hpos s (List.mem_append_right ts List.mem_cons_self)
    have hle := hrest.le
    omega

end Adjoin

end Bpfsnoop.Lib
