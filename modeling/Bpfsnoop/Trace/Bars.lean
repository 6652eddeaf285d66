/-
Bpfsnoop.Trace.Bars — the bars of histograms, on machine integers.

`printStars` multiplies before it divides, and the product may wrap around.
That makes a bar shorter, never longer: a product that has wrapped is less
than the true one, so the quotient still fits the width (`printStars_fits`).
Where nothing wraps, the bar is the one of unbounded numbers that
`Trace.Histogram` prints (`printStars_unbounded`).
-/
import Bpfsnoop.Trace.Histogram

namespace Bpfsnoop.Trace.Bars

open Ebpf
open CC (GoError)

/-- `strings.Repeat`, of one character. -/
def repeatChar (c : Char) (count : Int) : Except GoError String :=
  if count < 0 then .error (.panic "strings: negative Repeat count")
  else .ok (String.ofList (List.replicate count.toNat c))

/-- `min`. -/
def minUint64 (a b : Word) : Word := if b < a then b else a

/-- `nStars`; the conversions from and to `int` keep the bits. -/
def nStars (val maxVal width : Word) : Word := minUint64 val maxVal * width / maxVal

def nSpaces (val maxVal width : Word) : Word := width - nStars val maxVal width

/-- `printStars`. -/
def printStars (val maxVal width : Word) : Except GoError String :=
  if maxVal = 0 then .error (.panic "integer divide by zero")
  else do
    let stars ← repeatChar '*' (nStars val maxVal width).toInt
    let spaces ← repeatChar ' ' (nSpaces val maxVal width).toInt
    return stars ++ spaces ++ if val > maxVal then "+" else ""

variable {val maxVal width : Word}

theorem minUint64_toNat (a b : Word) : (minUint64 a b).toNat = min a.toNat b.toNat := by
  unfold minUint64
  split
  · rename_i hlt
    exact (Nat.min_eq_right (Nat.le_of_lt hlt)).symm
  · rename_i hge
    exact (Nat.min_eq_left (not_lt.mp hge)).symm

theorem nStars_toNat (val maxVal width : Word) : (nStars val maxVal width).toNat
    = min val.toNat maxVal.toNat * width.toNat % 2 ^ 64 / maxVal.toNat := by
  rw [nStars, BitVec.toNat_udiv, BitVec.toNat_mul, minUint64_toNat]

/-- The quotient is at most the width, although the product may wrap. -/
theorem nStars_le (val width : Word) (hmax : 0 < maxVal) :
    (nStars val maxVal width).toNat ≤ width.toNat := by
  have hpos : 0 < maxVal.toNat := hmax
  rw [nStars_toNat]
  calc
    min val.toNat maxVal.toNat * width.toNat % 2 ^ 64 / maxVal.toNat
      ≤ min val.toNat maxVal.toNat * width.toNat / maxVal.toNat :=
      Nat.div_le_div_right (Nat.mod_le _ _)
    _ ≤ maxVal.toNat * width.toNat / maxVal.toNat :=
      Nat.div_le_div_right (Nat.mul_le_mul_right _ (Nat.min_le_right _ _))
    _ = width.toNat := Nat.mul_div_cancel_left _ hpos

theorem nSpaces_toNat (val width : Word) (hmax : 0 < maxVal) :
    (nSpaces val maxVal width).toNat = width.toNat - (nStars val maxVal width).toNat :=
  BitVec.toNat_sub_of_le (BitVec.le_def.mpr (nStars_le val width hmax))

/-- What is at most an `int` that is not negative is none either. -/
theorem toInt_of_le {a b : Word} (h : a.toNat ≤ b.toNat) (hb : 0 ≤ b.toInt) :
    a.toInt = a.toNat := by
  rw [BitVec.toInt_eq_toNat_cond] at hb ⊢
  have hlt := b.isLt
  split at hb
  · rw [if_pos (by omega)]
  · omega

theorem repeatChar_natCast (c : Char) (n : Nat) :
    repeatChar c n = .ok (String.ofList (List.replicate n c)) := by
  rw [repeatChar, if_neg (by omega), Int.toNat_natCast]

/-- The text of a bar. -/
theorem printStars_eq (val : Word) (hmax : 0 < maxVal) (hwidth : 0 ≤ width.toInt) :
    printStars val maxVal width
      = .ok (String.ofList (List.replicate (nStars val maxVal width).toNat '*')
          ++ String.ofList (List.replicate (width.toNat - (nStars val maxVal width).toNat) ' ')
          ++ if val > maxVal then "+" else "") := by
  have hstars := toInt_of_le (nStars_le val width hmax) hwidth
  have hle : (nSpaces val maxVal width).toNat ≤ width.toNat := by
    rw [nSpaces_toNat val width hmax]
    exact Nat.sub_le _ _
  have hspaces := toInt_of_le hle hwidth
  have hne : maxVal ≠ 0 := by
    rintro rfl
    exact absurd hmax (by decide)
  rw [printStars, if_neg hne, hstars, hspaces, repeatChar_natCast, repeatChar_natCast,
    nSpaces_toNat val width hmax]
  rfl

/-- **A bar fits its width**: neither repeat count is negative, and nothing
panics. -/
theorem printStars_fits (val maxVal width : Word) (hmax : 0 < maxVal) (hwidth : 0 ≤ width.toInt) :
    0 ≤ (nStars val maxVal width).toInt ∧ (nStars val maxVal width).toInt ≤ width.toInt ∧
      0 ≤ (nSpaces val maxVal width).toInt ∧ ∃ bar, printStars val maxVal width = .ok bar := by
  have hle := nStars_le val width hmax
  have hstars := toInt_of_le hle hwidth
  have hwidth' := toInt_of_le (Nat.le_refl width.toNat) hwidth
  have hspaces : (nSpaces val maxVal width).toInt = (nSpaces val maxVal width).toNat := by
    refine toInt_of_le ?_ hwidth
    rw [nSpaces_toNat val width hmax]
    exact Nat.sub_le _ _
  refine ⟨by omega, by omega, by omega, _, printStars_eq val hmax hwidth⟩

/-- A product that wraps: `2 ^ 62` times 8 is 0. -/
theorem wrapped_bar_fits : 0 < (0x4000000000000000 : Word) ∧ 0 ≤ (8 : Word).toInt ∧
    0 ≤ (nStars 0x4000000000000000 0x4000000000000000 8).toInt ∧
      (nStars 0x4000000000000000 0x4000000000000000 8).toInt ≤ (8 : Word).toInt ∧
      0 ≤ (nSpaces 0x4000000000000000 0x4000000000000000 8).toInt ∧
      ∃ bar, printStars 0x4000000000000000 0x4000000000000000 8 = .ok bar :=
  ⟨by decide, by decide,
    printStars_fits 0x4000000000000000 0x4000000000000000 8 (by decide) (by decide)⟩

/-- Where the product does not wrap, the bar is that of unbounded numbers. -/
theorem printStars_unbounded (hmax : 0 < maxVal) (hwidth : 0 ≤ width.toInt)
    (hfits : min val.toNat maxVal.toNat * width.toNat < 2 ^ 64) :
    printStars val maxVal width = .ok (Trace.printStars val.toNat maxVal.toNat width.toNat) := by
  have hgt : (val > maxVal) = (val.toNat > maxVal.toNat) := rfl
  rw [printStars_eq val hmax hwidth, nStars_toNat, Nat.mod_eq_of_lt hfits, Trace.printStars]
  simp only [hgt]

end Bpfsnoop.Trace.Bars
