/-
Bpfsnoop.Lib.BitFields — comparing a field of bits by other bits.

A number `z` holds a field of `b` bits from bit `i` on, signed or not. Code
that wants to compare the field with a constant compares `p` bits from bit
`j` on, unsigned, with a constant of its own. `below_iff` and `equal_iff`
say exactly when that gives the right answer for every `z`. An order of
the two is right where the field is unsigned and both end with the same
bit, if the constants go together; everywhere else only where neither
constant lets `z` matter. For equality the bits have to be those of the
field.
-/
import Mathlib.Data.Int.Init
import Mathlib.Algebra.Order.Ring.Nat
import Mathlib.Tactic.Ring

namespace Bpfsnoop.Lib

/-- The value of the low `b` bits. -/
def fieldValue (signed : Bool) (b x : Nat) : Int :=
  if signed = true ∧ 2 ^ (b - 1) ≤ x % 2 ^ b then (x % 2 ^ b : Nat) - 2 ^ b else (x % 2 ^ b : Nat)

def lowest (signed : Bool) (b : Nat) : Int := if signed then -2 ^ (b - 1) else 0

def highest (signed : Bool) (b : Nat) : Int := if signed then 2 ^ (b - 1) - 1 else 2 ^ b - 1

section

variable {signed : Bool} {b p x y : Nat}

theorem two_pow_pred (hb : 0 < b) : 2 ^ b = 2 * 2 ^ (b - 1) := by
  obtain ⟨c, rfl⟩ : ∃ c, b = c + 1 := ⟨b - 1, by omega⟩
  rw [Nat.add_sub_cancel, pow_succ]
  ring

theorem fieldValue_of_lt (hx : x < 2 ^ b) :
    fieldValue signed b x = if signed = true ∧ 2 ^ (b - 1) ≤ x then (x : Int) - 2 ^ b else x := by
  rw [fieldValue, Nat.mod_eq_of_lt hx]

@[simp] theorem fieldValue_mod : fieldValue signed b (x % 2 ^ b) = fieldValue signed b x := by
  simp [fieldValue]

theorem fieldValue_bounds (signed : Bool) (x : Nat) (hb : 0 < b) :
    lowest signed b ≤ fieldValue signed b x ∧ fieldValue signed b x ≤ highest signed b := by
  have hx : x % 2 ^ b < 2 ^ b := Nat.mod_lt _ (Nat.two_pow_pos b)
  have hpow := two_pow_pred hb
  have hpowZ : (2 : Int) ^ b = 2 * 2 ^ (b - 1) := by exact_mod_cast hpow
  have hcast : ((2 ^ (b - 1) : Nat) : Int) = 2 ^ (b - 1) := by push_cast; rfl
  rw [← fieldValue_mod, fieldValue_of_lt hx]
  unfold lowest highest
  cases signed with
  | false =>
    simp only [Bool.false_eq_true, false_and, if_false]
    omega
  | true =>
    simp only [true_and, if_true]
    split <;> omega

/-- Numbers below `2 ^ b` are told apart by their value. -/
theorem fieldValue_inj (hx : x < 2 ^ b) (hy : y < 2 ^ b) :
    fieldValue signed b x = fieldValue signed b y ↔ x = y := by
  rw [fieldValue_of_lt hx, fieldValue_of_lt hy]
  have hpow : ((2 ^ b : Nat) : Int) = 2 ^ b := by push_cast; rfl
  constructor
  · intro h
    split at h <;> split at h <;> omega
  · rintro rfl
    rfl

/-- Every value in range is that of a number. -/
theorem exists_fieldValue {n : Int} (hb : 0 < b) (hlo : lowest signed b ≤ n) (hhi : n ≤ highest signed b) :
    ∃ r : Nat, r < 2 ^ b ∧ (r : Int) = n % 2 ^ b ∧ fieldValue signed b r = n := by
  have hpow := two_pow_pred hb
  have hpowZ : ((2 ^ b : Nat) : Int) = 2 ^ b := by push_cast; rfl
  have hhalfZ : ((2 ^ (b - 1) : Nat) : Int) = 2 ^ (b - 1) := by push_cast; rfl
  by_cases hn : 0 ≤ n
  · have hlt : n < 2 ^ b := by
      unfold highest at hhi
      split at hhi <;> omega
    refine ⟨n.toNat, by omega, ?_, ?_⟩
    · rw [Int.emod_eq_of_lt hn hlt]
      omega
    · rw [fieldValue_of_lt (by omega), if_neg]
      · omega
      · rintro ⟨rfl, hge⟩
        simp only [highest, if_true] at hhi
        omega
  · have hs : signed = true := by
      cases signed with
      | true => rfl
      | false =>
        simp only [lowest, Bool.false_eq_true, if_false] at hlo
        omega
    subst hs
    simp only [lowest, if_true] at hlo
    have hmod : n % 2 ^ b = n + 2 ^ b := by
      rw [← Int.add_emod_right, Int.emod_eq_of_lt (by omega) (by omega)]
    refine ⟨(n + 2 ^ b).toNat, by omega, by rw [hmod]; omega, ?_⟩
    rw [fieldValue_of_lt (by omega), if_pos ⟨rfl, by omega⟩]
    omega

end

/-! ## An order of the two -/

/-- The `p` bits from bit `j` on. -/
def bitsAt (j p z : Nat) : Nat := z / 2 ^ j % 2 ^ p

section Bits

variable {i j p b q z : Nat}

theorem bitsAt_lt : bitsAt j p z < 2 ^ p := Nat.mod_lt _ (Nat.two_pow_pos p)

@[simp] theorem bitsAt_zero : bitsAt j p 0 = 0 := by simp [bitsAt]

theorem bitsAt_mul (r : Nat) : bitsAt i b (r * 2 ^ i) = r % 2 ^ b := by
  rw [bitsAt, Nat.mul_div_cancel _ (Nat.two_pow_pos i)]

/-- All bits up to the last one. -/
theorem bitsAt_ones (h : j + p ≤ q) : bitsAt j p (2 ^ q - 1) = 2 ^ p - 1 := by
  obtain ⟨n, rfl⟩ := Nat.exists_eq_add_of_le h
  have hj := Nat.two_pow_pos j
  have hp := Nat.two_pow_pos p
  have hn := Nat.two_pow_pos n
  -- the bits below `j`, and those from there on
  have hsplit : 2 ^ (j + p + n) - 1 = 2 ^ j - 1 + 2 ^ j * (2 ^ p * 2 ^ n - 1) := by
    have hge : 2 ^ j * 1 ≤ 2 ^ j * (2 ^ p * 2 ^ n) := Nat.mul_le_mul_left _ (Nat.mul_pos hp hn)
    rw [Nat.mul_sub, Nat.mul_one, pow_add, pow_add, Nat.mul_assoc]
    omega
  have hrest : 2 ^ p * 2 ^ n - 1 = 2 ^ p - 1 + 2 ^ p * (2 ^ n - 1) := by
    have hge : 2 ^ p * 1 ≤ 2 ^ p * 2 ^ n := Nat.mul_le_mul_left _ hn
    rw [Nat.mul_sub, Nat.mul_one]
    omega
  rw [bitsAt, hsplit, Nat.add_mul_div_left _ _ hj, Nat.div_eq_of_lt (by omega), Nat.zero_add, hrest,
    Nat.add_mul_mod_self_left, Nat.mod_eq_of_lt (by omega)]

/-- Bits below the first one, and bits above the last one, do not show. -/
theorem bitsAt_above (h : z < 2 ^ j) (n : Nat) : bitsAt j p (z + 2 ^ j * n) = n % 2 ^ p := by
  rw [bitsAt, Nat.add_mul_div_left _ _ (Nat.two_pow_pos j), Nat.div_eq_of_lt h, Nat.zero_add]

theorem bitsAt_below (h : j + p ≤ q) (n : Nat) : bitsAt j p (z + 2 ^ q * n) = bitsAt j p z := by
  obtain ⟨d, rfl⟩ := Nat.exists_eq_add_of_le h
  rw [bitsAt, bitsAt, pow_add, pow_add, Nat.mul_assoc, Nat.mul_assoc, Nat.add_mul_div_left _ _ (Nat.two_pow_pos j),
    Nat.add_mul_mod_self_left]

theorem bitsAt_mod (h : j + p ≤ q) : bitsAt j p (z % 2 ^ q) = bitsAt j p z := by
  conv_rhs => rw [← Nat.mod_add_div z (2 ^ q), bitsAt_below h]

/-- A number whose last bit is the last one looked at. -/
theorem bitsAt_top (hp : 0 < p) (hz : z < 2 ^ (j + p)) :
    bitsAt j p z = z / 2 ^ j ∧ (2 ^ (p - 1) ≤ bitsAt j p z ↔ 2 ^ (j + p - 1) ≤ z) := by
  have hlt : z / 2 ^ j < 2 ^ p := by
    rw [Nat.div_lt_iff_lt_mul (Nat.two_pow_pos j), ← pow_add, Nat.add_comm p j]
    exact hz
  have heq : bitsAt j p z = z / 2 ^ j := Nat.mod_eq_of_lt hlt
  refine ⟨heq, ?_⟩
  rw [heq, Nat.le_div_iff_mul_le (Nat.two_pow_pos j), ← pow_add, show p - 1 + j = j + p - 1 by omega]

end Bits

section Orders

variable {signed : Bool} {i b j p : Nat}

/-- The value of the field that starts with bit `i`. -/
def fieldAt (signed : Bool) (i b z : Nat) : Int := fieldValue signed b (z / 2 ^ i)

theorem fieldAt_eq (signed : Bool) (i b z : Nat) : fieldAt signed i b z = fieldValue signed b (bitsAt i b z) :=
  fieldValue_mod.symm

/-- Numbers that lead from the lowest value of the field to the highest,
by steps up in the bits looked at and steps down in the value. -/
def Crossed (signed : Bool) (i b j p : Nat) : Prop :=
  ∃ s t u v : Nat, fieldAt signed i b s = lowest signed b ∧ bitsAt j p t ≤ bitsAt j p s ∧
    fieldAt signed i b u ≤ fieldAt signed i b t ∧ bitsAt j p v ≤ bitsAt j p u ∧ fieldAt signed i b v = highest signed b

/-- The patterns of the lowest value and of the highest one. -/
theorem exists_ends (signed : Bool) (hb : 0 < b) : ∃ lo hi : Nat, lo < 2 ^ b ∧ hi < 2 ^ b ∧
    fieldValue signed b lo = lowest signed b ∧ fieldValue signed b hi = highest signed b ∧
    (signed = true → lo = 2 ^ (b - 1) ∧ hi = 2 ^ (b - 1) - 1) ∧ (signed = false → lo = 0 ∧ hi = 2 ^ b - 1) := by
  have hpow := two_pow_pred hb
  have hpos := Nat.two_pow_pos (b - 1)
  have hpowZ : ((2 ^ b : Nat) : Int) = 2 ^ b := by push_cast; rfl
  have hhalfZ : ((2 ^ (b - 1) : Nat) : Int) = 2 ^ (b - 1) := by push_cast; rfl
  cases signed with
  | true =>
    refine ⟨2 ^ (b - 1), 2 ^ (b - 1) - 1, by omega, by omega, ?_, ?_, fun _ => ⟨rfl, rfl⟩, nofun⟩
    · rw [fieldValue_of_lt (by omega), if_pos ⟨rfl, le_refl _⟩, lowest, if_pos rfl]
      omega
    · rw [fieldValue_of_lt (by omega), if_neg (by omega), highest, if_pos rfl]
      omega
  | false =>
    refine ⟨0, 2 ^ b - 1, by omega, by omega, ?_, ?_, nofun, fun _ => ⟨rfl, rfl⟩⟩
    · rw [fieldValue_of_lt (by omega), if_neg (by simp), lowest, if_neg (by simp)]
      rfl
    · rw [fieldValue_of_lt (by omega), if_neg (by simp), highest, if_neg (by simp)]
      omega

/-- A bit looked at that is larger than all others, and that the field
leaves open or has as its sign. -/
theorem crossed_of_top {s v : Nat} (hlo : fieldAt signed i b s = lowest signed b)
    (hhi : fieldAt signed i b v = highest signed b) (hs : 2 ^ (p - 1) ≤ bitsAt j p s)
    (hv : bitsAt j p v < 2 ^ (p - 1)) : Crossed signed i b j p :=
  ⟨s, s, s, v, hlo, le_refl _, le_refl _, by omega, hhi⟩

/-- The last bit looked at stands behind the field. -/
theorem crossed_of_behind (hb : 0 < b) (hp : 0 < p) (h : i + b < j + p) : Crossed signed i b j p := by
  obtain ⟨lo, hi, hlo, hhi, hlow, hhigh, -⟩ := exists_ends signed hb
  have hle : 2 ^ (i + b) ≤ 2 ^ (j + p - 1) := Nat.pow_le_pow_right (by omega) (by omega)
  have hpow : 2 ^ (j + p) = 2 * 2 ^ (j + p - 1) := two_pow_pred (by omega)
  have hin {x : Nat} (hx : x < 2 ^ b) : x * 2 ^ i < 2 ^ (i + b) := by
    rw [pow_add, Nat.mul_comm]
    exact Nat.mul_lt_mul_of_pos_left hx (Nat.two_pow_pos i)
  have hloLt := hin hlo
  have hhiLt := hin hhi
  have hs : lo * 2 ^ i + 2 ^ (j + p - 1) < 2 ^ (j + p) := by omega
  have hv : hi * 2 ^ i < 2 ^ (j + p) := by omega
  refine crossed_of_top (s := lo * 2 ^ i + 2 ^ (j + p - 1)) (v := hi * 2 ^ i) ?_ ?_
    ((bitsAt_top hp hs).2.mpr (by omega)) ?_
  · have hbelow := bitsAt_below (z := lo * 2 ^ i) (show i + b ≤ j + p - 1 by omega) 1
    rw [Nat.mul_one] at hbelow
    rw [fieldAt_eq, hbelow, bitsAt_mul, fieldValue_mod, hlow]
  · rw [fieldAt_eq, bitsAt_mul, fieldValue_mod, hhigh]
  · by_contra hge
    have := (bitsAt_top hp hv).2.mp (by omega)
    omega

/-- The last bit of the field stands behind the bits looked at. -/
theorem crossed_of_missing (hb : 0 < b) (h : j + p < i + b) : Crossed signed i b j p := by
  have hpow := two_pow_pred hb
  have hpos := Nat.two_pow_pos (b - 1)
  have hhalfZ : ((2 ^ (b - 1) : Nat) : Int) = 2 ^ (b - 1) := by push_cast; rfl
  -- the last bit alone, and all bits in front of it
  have hbit : bitsAt i b (2 ^ (i + b - 1)) = 2 ^ (b - 1) := by
    rw [show i + b - 1 = b - 1 + i by omega, pow_add, bitsAt_mul, Nat.mod_eq_of_lt (by omega)]
  have hfront : bitsAt i b (2 ^ (i + b - 1) - 1) = 2 ^ (b - 1) - 1 := by
    have hlt : 2 ^ (i + b - 1) - 1 < 2 ^ (i + b) := by
      have hless : 2 ^ (i + b - 1) < 2 ^ (i + b) := Nat.pow_lt_pow_right (by omega) (by omega)
      have hfirst := Nat.two_pow_pos (i + b - 1)
      omega
    have hones := bitsAt_ones (show i + (b - 1) ≤ i + b - 1 by omega)
    rw [(bitsAt_top hb hlt).1]
    rw [bitsAt, Nat.mod_eq_of_lt] at hones
    · exact hones
    · rw [Nat.div_lt_iff_lt_mul (Nat.two_pow_pos i), ← pow_add, show b - 1 + i = i + b - 1 by omega]
      have := Nat.two_pow_pos (i + b - 1)
      omega
  have hnone : bitsAt j p (2 ^ (i + b - 1)) = 0 := by
    have := bitsAt_below (z := 0) (show j + p ≤ i + b - 1 by omega) 1
    rwa [Nat.zero_add, bitsAt_zero, Nat.mul_one] at this
  have hones : bitsAt j p (2 ^ (i + b - 1) - 1) = 2 ^ p - 1 := bitsAt_ones (by omega)
  have hall : bitsAt j p (2 ^ (i + b) - 1) = 2 ^ p - 1 := bitsAt_ones (by omega)
  have hallField : bitsAt i b (2 ^ (i + b) - 1) = 2 ^ b - 1 := bitsAt_ones (le_refl _)
  have hpowZ : ((2 ^ b : Nat) : Int) = 2 ^ b := by push_cast; rfl
  cases signed with
  | false =>
    refine ⟨0, 2 ^ (i + b - 1), 2 ^ (i + b - 1) - 1, 2 ^ (i + b) - 1, ?_, by simp [hnone], ?_, by omega, ?_⟩
    · simp [fieldAt_eq, fieldValue, lowest]
    · rw [fieldAt_eq, fieldAt_eq, hbit, hfront, fieldValue_of_lt (by omega), fieldValue_of_lt (by omega)]
      simp only [Bool.false_eq_true, false_and, if_false]
      omega
    · rw [fieldAt_eq, hallField, fieldValue_of_lt (by omega)]
      simp only [Bool.false_eq_true, false_and, if_false, highest]
      omega
  | true =>
    refine ⟨2 ^ (i + b - 1), 0, 2 ^ (i + b) - 1, 2 ^ (i + b - 1) - 1, ?_, by simp [hnone], ?_, by omega, ?_⟩
    · rw [fieldAt_eq, hbit, fieldValue_of_lt (by omega)]
      simp only [true_and, le_refl, if_true, lowest]
      omega
    · rw [fieldAt_eq, fieldAt_eq, hallField, bitsAt_zero, fieldValue_of_lt (by omega), fieldValue_of_lt (by omega)]
      simp only [true_and]
      split <;> split <;> omega
    · rw [fieldAt_eq, hfront, fieldValue_of_lt (by omega)]
      simp only [true_and, highest, if_true]
      split <;> omega

/-- The sign is the last bit looked at. -/
theorem crossed_of_signed (hb : 0 < b) (hp : 0 < p) (h : i + b = j + p) : Crossed true i b j p := by
  obtain ⟨lo, hi, hlo, hhi, hlow, hhigh, hends, -⟩ := exists_ends true hb
  obtain ⟨rfl, rfl⟩ := hends rfl
  have hpos := Nat.two_pow_pos (b - 1)
  have hsign : 2 ^ (b - 1) * 2 ^ i = 2 ^ (j + p - 1) := by
    rw [← pow_add, show b - 1 + i = j + p - 1 by omega]
  have hpow : 2 ^ (j + p) = 2 * 2 ^ (j + p - 1) := two_pow_pred (by omega)
  have hless : (2 ^ (b - 1) - 1) * 2 ^ i < 2 ^ (j + p - 1) := by
    rw [← hsign]
    exact Nat.mul_lt_mul_of_pos_right (by omega) (Nat.two_pow_pos i)
  have hsignPos := Nat.two_pow_pos (j + p - 1)
  refine crossed_of_top (s := 2 ^ (b - 1) * 2 ^ i) (v := (2 ^ (b - 1) - 1) * 2 ^ i) ?_ ?_
    ((bitsAt_top hp (by omega)).2.mpr (by omega)) ?_
  · rw [fieldAt_eq, bitsAt_mul, fieldValue_mod, hlow]
  · rw [fieldAt_eq, bitsAt_mul, fieldValue_mod, hhigh]
  · by_contra hge
    have := (bitsAt_top hp (show (2 ^ (b - 1) - 1) * 2 ^ i < 2 ^ (j + p) by omega)).2.mp (by omega)
    omega

/-- Neither constant lets the number matter: no value is below, or all
are. -/
def BelowConstant (signed : Bool) (b p : Nat) (c : Int) (k : Nat) : Prop :=
  (c ≤ lowest signed b ∧ k = 0) ∨ (highest signed b < c ∧ 2 ^ p ≤ k)

/-- The constants `c` and `k` say the same of every number: the field from
bit `i` on is below `c` exactly if the bits from bit `j` on are below
`k`. -/
def BelowAgrees (signed : Bool) (i b j p : Nat) (c : Int) (k : Nat) : Prop :=
  BelowConstant signed b p c k ∨ (signed = false ∧ i + b = j + p ∧ c * 2 ^ i = k * 2 ^ j)

/-- With a crossing, two constants that agree either let every number pass
or none. -/
theorem Crossed.constant (h : Crossed signed i b j p) (hb : 0 < b) {c : Int} {k : Nat}
    (hagree : ∀ z, bitsAt j p z < k ↔ fieldAt signed i b z < c) : BelowConstant signed b p c k := by
  obtain ⟨s, t, u, v, hlo, hts, hut, hvu, hhi⟩ := h
  have hpos := Nat.two_pow_pos p
  by_cases hc : c ≤ lowest signed b
  · have hnone : ¬ bitsAt j p 0 < k := by
      rw [hagree, fieldAt]
      have := (fieldValue_bounds signed (0 / 2 ^ i) hb).1
      omega
    rw [bitsAt_zero] at hnone
    exact .inl ⟨hc, by omega⟩
  · have hsk := (hagree s).mpr (by omega)
    have htc := (hagree t).mp (by omega)
    have huk := (hagree u).mpr (by omega)
    have hvc := (hagree v).mp (by omega)
    have hall : bitsAt j p (2 ^ (j + p) - 1) < k := by
      rw [hagree, fieldAt]
      have := (fieldValue_bounds signed ((2 ^ (j + p) - 1) / 2 ^ i) hb).2
      omega
    rw [bitsAt_ones (le_refl _)] at hall
    exact .inr ⟨by omega, by omega⟩

theorem BelowConstant.below_iff (hb : 0 < b) {c : Int} {k : Nat} (h : BelowConstant signed b p c k) (z : Nat) :
    bitsAt j p z < k ↔ fieldAt signed i b z < c := by
  obtain ⟨hlo, hhi⟩ := fieldValue_bounds signed (z / 2 ^ i) hb
  have hlt : bitsAt j p z < 2 ^ p := bitsAt_lt
  rw [fieldAt]
  rcases h with ⟨hc, rfl⟩ | ⟨hc, hk⟩
  · exact iff_of_false (by omega) (by omega)
  · exact iff_of_true (by omega) (by omega)

/-- The numbers below `2 ^ q`, cut by two constants. -/
theorem below_all_iff {q k : Nat} {c : Int} :
    (∀ x < 2 ^ q, x < k ↔ (x : Int) < c) ↔ (c ≤ 0 ∧ k = 0) ∨ ((2 : Int) ^ q ≤ c ∧ 2 ^ q ≤ k) ∨ c = k := by
  have hpos := Nat.two_pow_pos q
  have hpowZ : ((2 ^ q : Nat) : Int) = 2 ^ q := by push_cast; rfl
  constructor
  · intro h
    -- the numbers around both constants
    by_contra hnot
    have hzero := h 0 hpos
    have hlast := h (2 ^ q - 1) (by omega)
    by_cases hk : k < 2 ^ q
    · have hk' := h k hk
      rcases Nat.eq_zero_or_pos k with rfl | hk0
      · omega
      · have hpred := h (k - 1) (by omega)
        omega
    · omega
  · intro h x hx
    omega

/-- An unsigned field that ends with the bits looked at. -/
theorem below_aligned_iff (h : i + b = j + p) {c : Int} {k : Nat} :
    (∀ z, bitsAt j p z < k ↔ fieldAt false i b z < c) ↔
      BelowConstant false b p c k ∨ c * 2 ^ i = k * 2 ^ j := by
  have hi : (0 : Int) < 2 ^ i := Int.pow_pos (by decide)
  have hj := Nat.two_pow_pos j
  -- both are cut out of the bits up to the last one
  have hbits (z : Nat) : bitsAt j p z < k ↔ z % 2 ^ (i + b) < k * 2 ^ j := by
    have hlt : z % 2 ^ (i + b) / 2 ^ j < 2 ^ p := by
      rw [Nat.div_lt_iff_lt_mul hj, ← pow_add, h, Nat.add_comm p j]
      exact Nat.mod_lt _ (Nat.two_pow_pos _)
    rw [← bitsAt_mod (show j + p ≤ i + b by omega), bitsAt, Nat.mod_eq_of_lt hlt, Nat.div_lt_iff_lt_mul hj]
  have hfield (z : Nat) : fieldAt false i b z < c ↔ ((z % 2 ^ (i + b) : Nat) : Int) < c * 2 ^ i := by
    have hlt : z % 2 ^ (i + b) / 2 ^ i < 2 ^ b := by
      rw [Nat.div_lt_iff_lt_mul (Nat.two_pow_pos i), ← pow_add, Nat.add_comm b i]
      exact Nat.mod_lt _ (Nat.two_pow_pos _)
    rw [fieldAt_eq, ← bitsAt_mod (le_refl (i + b)), bitsAt, Nat.mod_eq_of_lt hlt, fieldValue_of_lt hlt]
    simp only [Bool.false_eq_true, false_and, if_false]
    rw [Int.natCast_ediv, show ((2 ^ i : Nat) : Int) = 2 ^ i by push_cast; rfl, Int.ediv_lt_iff_lt_mul hi]
  have hrange : (∀ z, bitsAt j p z < k ↔ fieldAt false i b z < c) ↔
      ∀ x < 2 ^ (i + b), x < k * 2 ^ j ↔ (x : Int) < c * 2 ^ i := by
    simp only [hbits, hfield]
    constructor
    · intro hall x hx
      have := hall x
      rwa [Nat.mod_eq_of_lt hx] at this
    · intro hall z
      exact hall _ (Nat.mod_lt _ (Nat.two_pow_pos _))
  have hlow : c * 2 ^ i ≤ 0 ↔ c ≤ 0 := by
    rw [Int.mul_nonpos_iff]
    omega
  have hzero : k * 2 ^ j = 0 ↔ k = 0 := by
    rw [Nat.mul_eq_zero]
    omega
  have hhigh : (2 : Int) ^ (i + b) ≤ c * 2 ^ i ↔ 2 ^ b ≤ c := by
    rw [pow_add, Int.mul_comm]
    exact ⟨fun hle => Int.le_of_mul_le_mul_right hle hi, fun hle => Int.mul_le_mul_of_nonneg_right hle hi.le⟩
  have htop : 2 ^ (i + b) ≤ k * 2 ^ j ↔ 2 ^ p ≤ k := by
    rw [h, pow_add, Nat.mul_comm]
    exact Nat.mul_le_mul_right_iff hj
  have hcast : c * 2 ^ i = ((k * 2 ^ j : Nat) : Int) ↔ c * 2 ^ i = k * 2 ^ j := by push_cast; rfl
  rw [hrange, below_all_iff, hlow, hzero, hhigh, htop, hcast]
  simp only [BelowConstant, lowest, highest, Bool.false_eq_true, if_false, or_assoc, Int.sub_one_lt_iff]

/-- **The field below a constant.** -/
theorem below_iff (hb : 0 < b) (hp : 0 < p) {c : Int} {k : Nat} :
    (∀ z, bitsAt j p z < k ↔ fieldAt signed i b z < c) ↔ BelowAgrees signed i b j p c k := by
  have hcrossed (h : ¬ (signed = false ∧ i + b = j + p)) : Crossed signed i b j p := by
    rcases Nat.lt_trichotomy (i + b) (j + p) with hlt | heq | hgt
    · exact crossed_of_behind hb hp hlt
    · cases signed with
      | true => exact crossed_of_signed hb hp heq
      | false => exact absurd ⟨rfl, heq⟩ h
    · exact crossed_of_missing hb hgt
  by_cases haligned : signed = false ∧ i + b = j + p
  · obtain ⟨rfl, hend⟩ := haligned
    rw [below_aligned_iff hend, BelowAgrees]
    simp [hend]
  · constructor
    · exact fun h => .inl ((hcrossed haligned).constant hb h)
    · rintro (h | ⟨hs, hend, -⟩)
      · exact h.below_iff hb
      · exact absurd ⟨hs, hend⟩ haligned

end Orders

/-! ## Equality -/

section Equality

variable {signed : Bool} {i b j p : Nat}

/-- The constants `c` and `k` say the same of every number: the field from
bit `i` on is `c` exactly if the bits from bit `j` on are `k`. -/
def EqualAgrees (signed : Bool) (i b j p : Nat) (c : Int) (k : Nat) : Prop :=
  if lowest signed b ≤ c ∧ c ≤ highest signed b then i = j ∧ p = b ∧ (k : Int) = c % 2 ^ b else 2 ^ p ≤ k

/-- Bits looked at beside the field, and bits of the field not looked at,
tell two numbers apart that should not be. -/
theorem eq_of_equal (hb : 0 < b) (hp : 0 < p) {c : Int} {k r : Nat} (hr : r < 2 ^ b)
    (hrc : fieldValue signed b r = c) (hagree : ∀ z, bitsAt j p z = k ↔ fieldAt signed i b z = c) :
    i = j ∧ p = b := by
  have hpowI := Nat.two_pow_pos i
  have hpowJ := Nat.two_pow_pos j
  have hpowB := two_pow_pred hb
  have hpowP := two_pow_pred hp
  have hvalue {x z : Nat} (h : bitsAt i b z = x) : fieldAt signed i b z = fieldValue signed b x := by
    rw [fieldAt_eq, h]
  have hown : bitsAt i b (r * 2 ^ i) = r := by rw [bitsAt_mul, Nat.mod_eq_of_lt hr]
  have hk : bitsAt j p (r * 2 ^ i) = k := (hagree _).mpr ((hvalue hown).trans hrc)
  -- a number with the same field has the same bits, and the other way round
  have hsame {z : Nat} (h : bitsAt i b z = r) : bitsAt j p z = bitsAt j p (r * 2 ^ i) := by
    rw [(hagree z).mpr ((hvalue h).trans hrc), hk]
  have hfield {x : Nat} (hx : x < 2 ^ b) (h : bitsAt j p (x * 2 ^ i) = bitsAt j p (r * 2 ^ i)) : x = r := by
    have hxc := (hagree _).mp (h.trans hk)
    rw [hvalue (bitsAt_mul x), fieldValue_mod] at hxc
    exact (fieldValue_inj hx hr).mp (hxc.trans hrc.symm)
  have hstart : i = j := by
    rcases Nat.lt_trichotomy i j with hlt | heq | hgt
    · -- the first bit of the field is not looked at
      obtain ⟨d, rfl⟩ : ∃ d, j = i + (d + 1) := ⟨j - i - 1, by omega⟩
      have hcut (x : Nat) : bitsAt (i + (d + 1)) p (x * 2 ^ i) = x / 2 / 2 ^ d % 2 ^ p := by
        rw [bitsAt, pow_add, ← Nat.div_div_eq_div_mul, Nat.mul_div_cancel _ hpowI, pow_succ', ← Nat.div_div_eq_div_mul]
      have hflip := hfield (x := r / 2 * 2 + (1 - r % 2)) (by omega) (by
        rw [hcut, hcut, show (r / 2 * 2 + (1 - r % 2)) / 2 = r / 2 by omega])
      omega
    · exact heq
    · -- the first bit looked at is not in the field
      obtain ⟨d, rfl⟩ : ∃ d, i = j + (d + 1) := ⟨i - j - 1, by omega⟩
      have hsmall : 2 ^ j < 2 ^ (j + (d + 1)) := Nat.pow_lt_pow_right (by omega) (by omega)
      have hset := hsame (z := 2 ^ j + 2 ^ (j + (d + 1)) * r) (by rw [bitsAt_above hsmall, Nat.mod_eq_of_lt hr])
      have hcut : 2 ^ (j + (d + 1)) * r = 2 ^ j * (2 * (2 ^ d * r)) := by
        rw [pow_add, pow_succ']
        ring
      have hfirst : 2 ^ j + 2 ^ j * (2 * (2 ^ d * r)) = (2 * (2 ^ d * r) + 1) * 2 ^ j := by ring
      rw [Nat.mul_comm r, hcut, hfirst, bitsAt_mul, Nat.mul_comm (2 ^ j), bitsAt_mul, hpowP] at hset
      have hodd := congrArg (· % 2) hset
      simp only [Nat.mod_mul_right_mod] at hodd
      omega
  subst hstart
  refine ⟨rfl, ?_⟩
  rcases Nat.lt_trichotomy p b with hlt | heq | hgt
  · -- the last bit of the field is not looked at
    have hdvd : 2 ^ p ∣ 2 ^ (b - 1) := pow_dvd_pow 2 (by omega)
    obtain ⟨n, hn⟩ := hdvd
    by_cases hup : r + 2 ^ (b - 1) < 2 ^ b
    · have hflip := hfield hup (by rw [bitsAt_mul, bitsAt_mul, hn, Nat.add_mul_mod_self_left])
      have := Nat.two_pow_pos (b - 1)
      omega
    · have hflip := hfield (x := r - 2 ^ (b - 1)) (by omega) (by
        rw [bitsAt_mul, bitsAt_mul, ← Nat.add_mul_mod_self_left _ _ n, ← hn, Nat.sub_add_cancel (by omega)])
      have := Nat.two_pow_pos (b - 1)
      omega
  · exact heq
  · -- the last bit looked at is not in the field
    have hbelow := hsame (z := r * 2 ^ i + 2 ^ (i + b) * 1) (by rw [bitsAt_below (le_refl _), hown])
    have hsum : r * 2 ^ i + 2 ^ (i + b) * 1 = (r + 2 ^ b) * 2 ^ i := by
      rw [pow_add]
      ring
    have hle : 2 * 2 ^ b ≤ 2 ^ p := by
      calc 2 * 2 ^ b = 2 ^ (b + 1) := by rw [pow_succ]; ring
        _ ≤ 2 ^ p := Nat.pow_le_pow_right (by omega) hgt
    rw [hsum, bitsAt_mul, bitsAt_mul, Nat.mod_eq_of_lt (by omega), Nat.mod_eq_of_lt (by omega)] at hbelow
    omega

/-- **The field equal to a constant.** -/
theorem equal_iff (hb : 0 < b) (hp : 0 < p) {c : Int} {k : Nat} :
    (∀ z, bitsAt j p z = k ↔ fieldAt signed i b z = c) ↔ EqualAgrees signed i b j p c k := by
  unfold EqualAgrees
  split
  · rename_i hrange
    obtain ⟨r, hr, hrmod, hrc⟩ := exists_fieldValue hb hrange.1 hrange.2
    constructor
    · intro h
      obtain ⟨rfl, rfl⟩ := eq_of_equal hb hp hr hrc h
      have hrk := (h (r * 2 ^ i)).mpr (by rw [fieldAt_eq, bitsAt_mul, fieldValue_mod, hrc])
      rw [bitsAt_mul, Nat.mod_eq_of_lt hr] at hrk
      exact ⟨rfl, rfl, by rw [← hrk, hrmod]⟩
    · rintro ⟨rfl, rfl, hk⟩ z
      obtain rfl : k = r := by omega
      rw [← hrc, fieldAt_eq, fieldValue_inj bitsAt_lt hr]
  · rename_i hrange
    have hnever (z : Nat) : fieldAt signed i b z ≠ c := by
      rintro rfl
      exact hrange (fieldValue_bounds _ _ hb)
    constructor
    · intro h
      by_contra hlt
      have hk := (h (k * 2 ^ j)).mp (by rw [bitsAt_mul, Nat.mod_eq_of_lt (by omega)])
      exact hnever _ hk
    · intro hk z
      have hlt : bitsAt j p z < 2 ^ p := bitsAt_lt
      exact iff_of_false (by omega) (hnever z)

end Equality

/-! ## Bits above a shift -/

section Shifted

variable {d b p q : Nat}

/-- A number that was cut to `q` bits, without its first bits. -/
theorem mod_div (y : Nat) (h : d ≤ q) : y % 2 ^ q / 2 ^ d = y / 2 ^ d % 2 ^ (q - d) := by
  have hsplit : 2 ^ q = 2 ^ d * 2 ^ (q - d) := by
    rw [← pow_add]
    congr 1
    omega
  rw [hsplit, Nat.mod_mul_right_div_self]

theorem mod_mod_min (y p k : Nat) : y % 2 ^ p % 2 ^ k = y % 2 ^ min k p := by
  rcases Nat.le_total k p with hle | hle
  · rw [min_eq_left hle, Nat.mod_mod_of_dvd _ (pow_dvd_pow 2 hle)]
  · rw [min_eq_right hle, Nat.mod_eq_of_lt]
    exact lt_of_lt_of_le (Nat.mod_lt _ (Nat.two_pow_pos _)) (Nat.pow_le_pow_right (by omega) hle)

/-- One number of bits says more than another. -/
theorem bits_of_le {y : Nat} (hlt : p < b) (hy : y = 2 ^ (d + p)) : y / 2 ^ d % 2 ^ p ≠ y / 2 ^ d % 2 ^ b := by
  have hpow : 2 ^ p < 2 ^ b := Nat.pow_lt_pow_right (by omega) hlt
  have hpos := Nat.two_pow_pos p
  rw [hy, pow_add, Nat.mul_div_cancel_left _ (Nat.two_pow_pos d), Nat.mod_self, Nat.mod_eq_of_lt hpow]
  omega

/-- As many bits as the field has, and no other number of bits, give the
field. -/
theorem bits_iff (hp : d + p ≤ q) (hb : d + b ≤ q) :
    (∀ y < 2 ^ q, y / 2 ^ d % 2 ^ p = y / 2 ^ d % 2 ^ b) ↔ p = b := by
  constructor
  · intro h
    rcases Nat.lt_trichotomy p b with hlt | heq | hgt
    · exact absurd (h _ (Nat.pow_lt_pow_right (by omega) (by omega))) (bits_of_le hlt rfl)
    · exact heq
    · exact absurd (h _ (Nat.pow_lt_pow_right (by omega) (by omega))).symm (bits_of_le hgt rfl)
  · rintro rfl y -
    rfl

end Shifted

end Bpfsnoop.Lib
