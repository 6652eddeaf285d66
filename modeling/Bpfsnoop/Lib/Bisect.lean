/-
Bpfsnoop.Lib.Bisect — searching by halves.

`bisect below lo hi` is the loop of a binary search over `[lo, hi)`: it
keeps the upper half where `below` holds of the middle, and the lower half
where it does not. Where `below` holds up to some point and not behind it,
the result is that point (`bisect_spec`), and there is only one such point
(`cut_unique`).
-/
import Mathlib.Order.Basic

namespace Bpfsnoop.Lib

/-- The loop of a binary search. -/
def bisect (below : Nat → Bool) (lo hi : Nat) : Nat :=
  if lo < hi then
    if below ((lo + hi) / 2) then bisect below ((lo + hi) / 2 + 1) hi
    else bisect below lo ((lo + hi) / 2)
  else lo
termination_by hi - lo

/-- One round keeps the upper half. -/
theorem bisect_upper {below : Nat → Bool} {lo hi : Nat} (hlt : lo < hi) (hmid : below ((lo + hi) / 2) = true) :
    bisect below lo hi = bisect below ((lo + hi) / 2 + 1) hi := by
  rw [bisect, if_pos hlt, if_pos hmid]

/-- Or the lower half. -/
theorem bisect_lower {below : Nat → Bool} {lo hi : Nat} (hlt : lo < hi) (hmid : ¬ below ((lo + hi) / 2) = true) :
    bisect below lo hi = bisect below lo ((lo + hi) / 2) := by
  rw [bisect, if_pos hlt, if_neg hmid]

theorem bisect_empty {below : Nat → Bool} {lo hi : Nat} (hge : ¬ lo < hi) : bisect below lo hi = lo := by
  rw [bisect, if_neg hge]

/-- Within `[lo, hi)`, `below` holds in front of `k` and not from `k` on. -/
structure Cut (below : Nat → Bool) (lo hi k : Nat) : Prop where
  le : lo ≤ k
  le' : k ≤ hi
  front : ∀ i, lo ≤ i → i < k → below i = true
  behind : ∀ i, k ≤ i → i < hi → below i = false

variable {below : Nat → Bool} {lo hi k k' : Nat}

theorem cut_unique (h : Cut below lo hi k) (h' : Cut below lo hi k') : k = k' := by
  have hle {k k' : Nat} (h : Cut below lo hi k) (h' : Cut below lo hi k') : k ≤ k' := by
    by_contra hlt
    have htrue := h.front k' h'.le (by omega)
    have hfalse := h'.behind k' (Nat.le_refl _) (by have := h.le'; omega)
    rw [htrue] at hfalse
    cases hfalse
  exact Nat.le_antisymm (hle h h') (hle h' h)

/-- What is below has only such in front. -/
def Descends (below : Nat → Bool) (hi : Nat) : Prop := ∀ i j, i ≤ j → j < hi → below j = true → below i = true

/-- **The search finds the cut.** -/
theorem bisect_spec (hbelow : Descends below hi) (hle : lo ≤ hi) : Cut below lo hi (bisect below lo hi) := by
  fun_induction bisect below lo hi with
  | case1 lo hi hlt hmid ih =>
    have hcut := ih hbelow (by omega)
    refine ⟨by have := hcut.le; omega, hcut.le', ?_, hcut.behind⟩
    intro i _ hik
    by_cases h : i ≤ (lo + hi) / 2
    · exact hbelow i _ h (by omega) hmid
    · exact hcut.front i (by omega) hik
  | case2 lo hi hlt hmid ih =>
    have hcut := ih (fun i j hij hj => hbelow i j hij (by omega)) (by omega)
    refine ⟨hcut.le, by have := hcut.le'; omega, hcut.front, ?_⟩
    intro i hki hlast
    by_cases h : i < (lo + hi) / 2
    · exact hcut.behind i hki h
    · by_contra htrue
      exact hmid (hbelow _ i (by omega) hlast (by simpa using htrue))
  | case3 lo hi hge =>
    refine ⟨Nat.le_refl _, hle, ?_, ?_⟩
    · intro i _ hik
      omega
    · intro i _ hi
      omega

end Bpfsnoop.Lib
