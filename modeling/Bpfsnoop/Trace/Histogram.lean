/-
Bpfsnoop.Trace.Histogram — counting values by their magnitude.

A value is counted in the bucket of its highest bit (`i2h`), and the bounds
of a bucket are computed from its index when the histogram is printed. The
two agree where a bucket exists: 0 has no highest bit, and the bounds of the
last bucket are those of all values. `histogram_iff` says that nothing else
goes wrong.

The counts are numbers without bound; those of the source have 64 bits, which
do not wrap below 2^64 samples.
-/
import Bpfsnoop.Ebpf.Memory
import Bpfsnoop.Trace.ArgAttrs

namespace Bpfsnoop.Trace

open Ebpf
open CC (GoError)

/-! ## The code -/

/-- `histogram`. -/
structure Histogram where
  log2 : Vector Nat 64
  total : Nat
  expr : String

def newHistogram (expr : String) : Histogram where
  log2 := Vector.replicate 64 0
  total := 0
  expr := expr

/-- `bits.LeadingZeros64`. -/
def leadingZeros64 (v : Word) : Nat := if v = 0 then 64 else 63 - v.toNat.log2

def i2h (v : Word) : Int := 63 - (leadingZeros64 v : Int)

/-- `add`. -/
def Histogram.add (h : Histogram) (data : List Byte) (size : Nat) : Except GoError Histogram :=
  let i := i2h (bytes2i data size)
  if hi : 0 ≤ i ∧ i < 64 then
    have hlt : i.toNat < 64 := by omega
    .ok { h with log2 := h.log2.set i.toNat (h.log2[i.toNat] + 1), total := h.total + 1 }
  else .error (.panic "index out of range")

/-- `low` and `high` of a bucket. -/
def bounds (i : Nat) : Word × Word :=
  let low := ((1 : Word) <<< (i + 1)) >>> 1
  let high := ((1 : Word) <<< (i + 1)) - 1
  if low = high then (low - 1, high) else (low, high)

/-- `idxMax`: the last bucket that is not empty, or -1. -/
def idxMax (vals : List Nat) : Int := vals.zipIdx.foldl (fun idxMax v => if v.1 > 0 then v.2 else idxMax) (-1)

def valMax (vals : List Nat) : Nat := vals.foldl (fun valMax v => if v > valMax then v else valMax) 0

/-- `%*d` and `%-*d`. -/
def padLeft (width : Nat) (text : String) : String := String.ofList (List.replicate (width - text.length) ' ') ++ text

def padRight (width : Nat) (text : String) : String := text ++ String.ofList (List.replicate (width - text.length) ' ')

/-- `printStars`. -/
def printStars (val maxVal width : Nat) : String :=
  let nStars := min val maxVal * width / maxVal
  String.ofList (List.replicate nStars '*') ++ String.ofList (List.replicate (width - nStars) ' ')
    ++ if val > maxVal then "+" else ""

/-- The line of a bucket. -/
def histLine (vals : List Nat) (i : Nat) : String :=
  let width := if idxMax vals ≤ 32 then 10 else 20
  let stars := if idxMax vals ≤ 32 then 40 else 20
  padLeft width (toString (bounds i).1.toNat) ++ " -> " ++ padRight width (toString (bounds i).2.toNat) ++ " : "
    ++ padRight 13 (toString (vals.getD i 0)) ++ " |" ++ printStars (vals.getD i 0) (valMax vals) stars ++ "|\n"

/-- The buckets that are printed. -/
def printedBuckets (vals : List Nat) : List Nat := List.range (idxMax vals + 1).toNat

/-- `log2hist`. -/
def log2hist (vals : List Nat) : String :=
  if idxMax vals < 0 then "" else (printedBuckets vals).foldl (fun text i => text ++ histLine vals i) ""

/-- `render`. -/
def Histogram.render (h : Histogram) : String :=
  if h.total = 0 then ""
  else "Histogram for '" ++ h.expr ++ "' (total " ++ toString h.total ++ "):\n" ++ log2hist h.log2.toList ++ "\n"

/-! ## Samples -/

/-- A value as it is in the data, with what is behind it. -/
structure Sample where
  value : Word
  size : Nat
  rest : List Byte
  sizes : size ∈ [1, 2, 4, 8]
  fits : value.toNat < 2 ^ (8 * size)

def Sample.data (s : Sample) : List Byte := (List.range s.size).map (byteOf s.value) ++ s.rest

/-- The bytes of a value are read as the value. -/
theorem Sample.bytes2i_data (s : Sample) : bytes2i s.data s.size = s.value := by
  have hsize : 1 ≤ s.size ∧ s.size ≤ 8 := by
    have hmem := s.sizes
    simp only [List.mem_cons, List.not_mem_nil, or_false] at hmem
    omega
  have hlen : ¬ (s.size = 0 ∨ s.data.length < s.size) := by
    rw [Sample.data, List.length_append, List.length_map, List.length_range]
    omega
  rw [bytes2i, if_neg hlen]
  apply BitVec.eq_of_getLsbD_eq
  intro j hj
  have haddr : ((0 : Word) + BitVec.ofNat 64 (j / 8)).toNat = j / 8 := by bv_omega
  rw [getLsbD_loadLE _ _ _ _ hj, haddr]
  by_cases hlt : j < 8 * s.size
  · have hbyte : s.data.getD (j / 8) 0 = byteOf s.value (j / 8) := by
      rw [Sample.data, List.getD_eq_getElem?_getD, List.getElem?_append_left (by simp; omega), List.getElem?_map,
        List.getElem?_range (by omega), Option.map_some, Option.getD_some]
    rw [hbyte, getLsbD_byteOf _ _ _ (by omega), decide_eq_true hlt, Bool.true_and, Nat.div_add_mod]
  · -- the bits that the value does not have
    have hbit : s.value.getLsbD j = false :=
      Nat.testBit_lt_two_pow (Nat.lt_of_lt_of_le s.fits (Nat.pow_le_pow_right (by decide) (by omega)))
    rw [decide_eq_false hlt, Bool.false_and, hbit]

/-! ## Buckets -/

theorem i2h_of_ne {v : Word} (hv : v ≠ 0) : i2h v = v.toNat.log2 := by
  have hne : v.toNat ≠ 0 := fun h => hv (BitVec.eq_of_toNat_eq h)
  have hlt : v.toNat.log2 < 64 := (Nat.log2_lt hne).mpr v.isLt
  rw [i2h, leadingZeros64, if_neg hv]
  omega

theorem bounds_zero : bounds 0 = (0, 1) := by decide

/-- The bounds of the last bucket. -/
theorem bounds_last : bounds 63 = (0, 0xFFFFFFFFFFFFFFFF) := by decide

theorem bounds_toNat {i : Nat} (hpos : 0 < i) (hi : i < 63) :
    (bounds i).1.toNat = 2 ^ i ∧ (bounds i).2.toNat = 2 ^ (i + 1) - 1 := by
  have hpow : 2 ^ (i + 1) < 2 ^ 64 := Nat.pow_lt_pow_right (by decide) (by omega)
  have hsucc : 2 ^ (i + 1) = 2 * 2 ^ i := by rw [Nat.pow_succ, Nat.mul_comm]
  have htwo : 2 ≤ 2 ^ i := by
    calc 2 = 2 ^ 1 := rfl
      _ ≤ 2 ^ i := Nat.pow_le_pow_right (by decide) hpos
  have hlit : (1 : Word).toNat = 1 := rfl
  have hone : ((1 : Word) <<< (i + 1)).toNat = 2 ^ (i + 1) := by
    rw [BitVec.toNat_shiftLeft, Nat.shiftLeft_eq, hlit]
    omega
  have hlow : (((1 : Word) <<< (i + 1)) >>> 1).toNat = 2 ^ i := by
    rw [BitVec.toNat_ushiftRight, hone, Nat.shiftRight_eq_div_pow]
    omega
  have hhigh : (((1 : Word) <<< (i + 1)) - 1).toNat = 2 ^ (i + 1) - 1 := by
    rw [BitVec.toNat_sub, hone, hlit]
    omega
  unfold bounds
  dsimp only
  rw [if_neg]
  · exact ⟨hlow, hhigh⟩
  · intro heq
    have hnat := congrArg BitVec.toNat heq
    rw [hlow, hhigh] at hnat
    omega

/-- Every value but 0 lies within the bounds of its bucket. -/
theorem mem_bounds {v : Word} (hv : v ≠ 0) : (bounds v.toNat.log2).1 ≤ v ∧ v ≤ (bounds v.toNat.log2).2 := by
  have hne : v.toNat ≠ 0 := fun h => hv (BitVec.eq_of_toNat_eq h)
  have hlow := Nat.log2_self_le hne
  have hhigh : v.toNat < 2 ^ (v.toNat.log2 + 1) := Nat.lt_log2_self
  have hlt : v.toNat.log2 < 64 := (Nat.log2_lt hne).mpr v.isLt
  generalize v.toNat.log2 = i at hlow hhigh hlt
  rcases Nat.eq_zero_or_pos i with rfl | hpos
  · rw [bounds_zero]
    bv_omega
  · by_cases hlast : i = 63
    · subst hlast
      rw [bounds_last]
      bv_omega
    · have hbounds := bounds_toNat hpos (by omega)
      rw [BitVec.le_def, BitVec.le_def, hbounds.1, hbounds.2]
      omega

/-- The sum of the buckets. -/
def bucketSum (vals : List Nat) : Nat := vals.foldr (fun val n => val + n) 0

theorem bucketSum_set {vals : List Nat} {i : Nat} (hi : i < vals.length) :
    bucketSum (vals.set i (vals[i] + 1)) = bucketSum vals + 1 := by
  induction vals generalizing i with
  | nil => cases hi
  | cons val vals ih =>
    cases i with
    | zero =>
      show val + 1 + bucketSum vals = val + bucketSum vals + 1
      omega
    | succ i =>
      have hi' : i < vals.length := Nat.lt_of_succ_lt_succ hi
      have hrest := ih hi'
      show val + bucketSum (vals.set i (vals[i] + 1)) = val + bucketSum vals + 1
      omega

/-- One sample more: one bucket has one more, and its bounds are around the
value. -/
structure Increments (h h' : Histogram) (v : Word) : Prop where
  bucket : ∃ (i : Nat) (hi : i < 64), h'.log2 = h.log2.set i (h.log2[i] + 1) ∧ (bounds i).1 ≤ v ∧ v ≤ (bounds i).2
  total : h'.total = h.total + 1

/-- The run over the samples, each of which is counted. -/
inductive Counts : Histogram → List Sample → Histogram → Prop
  | nil (h : Histogram) : Counts h [] h
  | cons {h h' h'' : Histogram} {s : Sample} {samples : List Sample} (hadd : h.add s.data s.size = .ok h')
    (hstep : Increments h h' s.value) (hrest : Counts h' samples h'') : Counts h (s :: samples) h''

/-- The ranges printed adjoin, and no value is in two of them. -/
structure Adjoining (vals : List Nat) : Prop where
  contiguous : ∀ i : Nat, (i : Int) + 1 ≤ idxMax vals → (bounds i).2.toNat + 1 = (bounds (i + 1)).1.toNat
  disjoint : ∀ i j : Nat, i < j → (j : Int) ≤ idxMax vals → (bounds i).2 < (bounds j).1

/-- What a histogram is to do with some samples. -/
def Exact (expr : String) (samples : List Sample) : Prop :=
  ∃ h, Counts (newHistogram expr) samples h ∧ h.total = bucketSum h.log2.toList ∧ Adjoining h.log2.toList

/-! ## One sample -/

section Add

variable {h h' : Histogram} {s : Sample}

theorem add_eq (hv : s.value ≠ 0) :
    ∃ (hlt : s.value.toNat.log2 < 64), h.add s.data s.size = .ok { h with
      log2 := h.log2.set s.value.toNat.log2 (h.log2[s.value.toNat.log2] + 1), total := h.total + 1 } := by
  have hne : s.value.toNat ≠ 0 := fun h => hv (BitVec.eq_of_toNat_eq h)
  have hlt : s.value.toNat.log2 < 64 := (Nat.log2_lt hne).mpr s.value.isLt
  refine ⟨hlt, ?_⟩
  unfold Histogram.add
  simp only [s.bytes2i_data, i2h_of_ne hv, Int.toNat_natCast]
  exact dif_pos ⟨by omega, by omega⟩

/-- There is no bucket for 0. -/
theorem add_zero (hv : s.value = 0) : h.add s.data s.size = .error (.panic "index out of range") := by
  unfold Histogram.add
  simp only [s.bytes2i_data, hv]
  exact dif_neg (by decide)

end Add

/-! ## What is printed -/

section Printed

variable {vals : List Nat}

/-- The loop that looks for the last bucket. -/
theorem idxMax_loop (vals : List Nat) (n : Nat) (acc : Int) :
    let last := (vals.zipIdx n).foldl (fun idxMax v => if v.1 > 0 then (v.2 : Int) else idxMax) acc
    (last = acc ∨ ∃ (k : Nat) (val : Nat), vals[k]? = some val ∧ 0 < val ∧ last = (n : Int) + k) ∧
      ∀ (k : Nat) (val : Nat), vals[k]? = some val → 0 < val → (n : Int) + k ≤ last := by
  induction vals generalizing n acc with
  | nil =>
    refine ⟨.inl rfl, ?_⟩
    intro k val hk
    cases hk
  | cons val vals ih =>
    obtain ⟨hlast, hall⟩ := ih (n + 1) (if val > 0 then (n : Int) else acc)
    rw [List.zipIdx_cons, List.foldl_cons]
    refine ⟨?_, ?_⟩
    · rcases hlast with hacc | ⟨k, val', hk, hpos, hlast⟩
      · by_cases hval : val > 0
        · rw [if_pos hval] at hacc ⊢
          exact .inr ⟨0, val, rfl, hval, by rw [hacc]; omega⟩
        · rw [if_neg hval] at hacc ⊢
          exact .inl hacc
      · exact .inr ⟨k + 1, val', hk, hpos, by rw [hlast]; omega⟩
    · intro k val' hk hpos
      cases k with
      | zero =>
        obtain rfl : val = val' := Option.some.inj hk
        rcases hlast with hacc | ⟨k, val', -, -, hlast⟩
        · rw [hacc, if_pos hpos]
          omega
        · rw [hlast]
          omega
      | succ k =>
        refine Int.le_trans ?_ (hall k val' hk hpos)
        omega

/-- A bucket that is not empty is printed. -/
theorem le_idxMax {k val : Nat} (hk : vals[k]? = some val) (hpos : 0 < val) : (k : Int) ≤ idxMax vals := by
  have hle := (idxMax_loop vals 0 (-1)).2 k val hk hpos
  rw [idxMax]
  omega

/-- The last one that is printed is not empty. -/
theorem idxMax_pos {k val : Nat} (hmax : idxMax vals = k) (hk : vals[k]? = some val) : 0 < val := by
  rcases (idxMax_loop vals 0 (-1)).1 with hnone | ⟨k', val', hk', hpos, hlast⟩
  · rw [idxMax, hnone] at hmax
    omega
  · rw [idxMax, hlast] at hmax
    obtain rfl : k' = k := by omega
    obtain rfl : val' = val := Option.some.inj (hk'.symm.trans hk)
    exact hpos

theorem idxMax_lt (vals : List Nat) : idxMax vals < vals.length := by
  rcases (idxMax_loop vals 0 (-1)).1 with hnone | ⟨k, val, hk, -, hlast⟩
  · rw [idxMax, hnone]
    omega
  · have hlt := (List.getElem?_eq_some_iff.mp hk).1
    rw [idxMax, hlast]
    omega

theorem bounds_high {i : Nat} (hi : i < 63) : (bounds i).2.toNat = 2 ^ (i + 1) - 1 := by
  rcases Nat.eq_zero_or_pos i with rfl | hpos
  · rfl
  · exact (bounds_toNat hpos hi).2

/-- All buckets but the last one adjoin. -/
theorem adjoining_of_lt (hmax : idxMax vals < 63) : Adjoining vals where
  contiguous := by
    intro i hi
    have hpow : 0 < 2 ^ (i + 1) := Nat.two_pow_pos _
    rw [bounds_high (by omega), (bounds_toNat (Nat.succ_pos i) (by omega)).1]
    omega
  disjoint := by
    intro i j hij hj
    have hpow : 0 < 2 ^ (i + 1) := Nat.two_pow_pos _
    have hle : 2 ^ (i + 1) ≤ 2 ^ j := Nat.pow_le_pow_right (by decide) hij
    rw [BitVec.lt_def, bounds_high (by omega), (bounds_toNat (by omega) (by omega)).1]
    omega

end Printed

/-! ## Runs -/

section Run

variable {h h' : Histogram} {samples : List Sample}

/-- A run over values that have a bucket of their own. -/
theorem counts_of_small (hsmall : ∀ s ∈ samples, 0 < s.value.toNat ∧ s.value.toNat < 2 ^ 63)
    (htotal : h.total = bucketSum h.log2.toList) (hlast : h.log2[63] = 0) :
    ∃ h', Counts h samples h' ∧ h'.total = bucketSum h'.log2.toList ∧ h'.log2[63] = 0 := by
  induction samples generalizing h with
  | nil => exact ⟨h, .nil h, htotal, hlast⟩
  | cons s samples ih =>
    obtain ⟨hpos, hlt⟩ := hsmall s List.mem_cons_self
    have hv : s.value ≠ 0 := by bv_omega
    obtain ⟨hbucket, hadd⟩ := add_eq (h := h) hv
    have hindex : s.value.toNat.log2 < 63 := (Nat.log2_lt (by omega)).mpr hlt
    have hbounds := mem_bounds hv
    generalize s.value.toNat.log2 = i at hbucket hadd hindex hbounds
    obtain ⟨h', hcounts, hh'⟩ := ih (fun s hs => hsmall s (List.mem_cons_of_mem _ hs))
      (h := { h with log2 := h.log2.set i (h.log2[i] + 1), total := h.total + 1 }) (by
        have hset := @bucketSum_set h.log2.toList i (by simpa using hbucket)
        simpa [htotal, Vector.toList_set] using hset.symm) (by
        rw [Vector.getElem_set_ne _ _ (by omega)]
        exact hlast)
    exact ⟨h', .cons hadd ⟨⟨i, hbucket, rfl, hbounds⟩, rfl⟩ hcounts, hh'⟩

/-- A run that gets through has not met 0. -/
theorem Counts.ne_zero (hrun : Counts h samples h') : ∀ s ∈ samples, s.value ≠ 0 := by
  induction hrun with
  | nil => exact fun s hs => absurd hs List.not_mem_nil
  | cons hadd _ _ ih =>
    intro s hs hv
    rcases List.mem_cons.mp hs with rfl | hs
    · rw [add_zero hv] at hadd
      cases hadd
    · exact ih s hs hv

/-- Buckets are not emptied. -/
theorem Counts.mono (hrun : Counts h samples h') (i : Nat) (hi : i < 64) : h.log2[i] ≤ h'.log2[i] := by
  induction hrun with
  | nil => exact Nat.le_refl _
  | cons _ hstep _ ih =>
    obtain ⟨k, hk, hset, -⟩ := hstep.bucket
    refine Nat.le_trans ?_ ih
    rw [hset, Vector.getElem_set]
    split
    · rename_i heq
      subst heq
      exact Nat.le_succ _
    · exact Nat.le_refl _

/-- A large value is in the last bucket. -/
theorem Counts.last_pos (hrun : Counts h samples h') {s : Sample} (hs : s ∈ samples)
    (hlarge : 2 ^ 63 ≤ s.value.toNat) : 0 < h'.log2[63] := by
  induction hrun with
  | nil => cases hs
  | @cons h h₁ h₂ s' samples hadd hstep hrest ih =>
    rcases List.mem_cons.mp hs with rfl | hs
    · have hv : s.value ≠ 0 := by bv_omega
      obtain ⟨hbucket, hadd'⟩ := add_eq (h := h) hv
      have hindex : s.value.toNat.log2 = 63 := by
        have hge := (Nat.le_log2 (k := 63) (by omega : s.value.toNat ≠ 0)).mpr hlarge
        omega
      obtain rfl := Except.ok.inj (hadd.symm.trans hadd')
      have hmono := hrest.mono 63 (by decide)
      have hself : (h.log2.set s.value.toNat.log2 (h.log2[s.value.toNat.log2] + 1))[63] = h.log2[63] + 1 := by
        simp only [hindex, Vector.getElem_set_self]
      simp only [hself] at hmono
      omega
    · exact ih hs

end Run

/-- **The histogram.** It is exact if and only if no sample is 0 or at least
2^63. -/
theorem histogram_iff (expr : String) (samples : List Sample) :
    Exact expr samples ↔ ∀ s ∈ samples, 0 < s.value.toNat ∧ s.value.toNat < 2 ^ 63 := by
  constructor
  · intro hexact s hs
    obtain ⟨h, hcounts, -, hadjoin⟩ := hexact
    have hv := hcounts.ne_zero s hs
    refine ⟨by bv_omega, ?_⟩
    by_contra hlarge
    have hlast := hcounts.last_pos hs (by omega)
    have hmax : (63 : Int) ≤ idxMax h.log2.toList := le_idxMax (k := 63) (by simp) hlast
    have hcontiguous := hadjoin.contiguous 62 (by omega)
    revert hcontiguous
    decide
  · intro hsmall
    obtain ⟨h, hcounts, htotal, hlast⟩ := counts_of_small (h := newHistogram expr) hsmall (by simp [newHistogram]; rfl)
      (by simp [newHistogram])
    refine ⟨h, hcounts, htotal, adjoining_of_lt ?_⟩
    have hlt := idxMax_lt h.log2.toList
    rw [Vector.length_toList] at hlt
    have hne : idxMax h.log2.toList ≠ (63 : Nat) := by
      intro hmax
      have hzero : h.log2.toList[63]? = some 0 := by simp [hlast]
      exact absurd (idxMax_pos hmax hzero) (Nat.lt_irrefl 0)
    omega

/-- A sample of 0 has no bucket. -/
theorem zero_sample_panics :
    (newHistogram "x").add [0] 1 = .error (.panic "index out of range") ∧
      ¬ Exact "x" [⟨0, 1, [], by decide, by decide⟩] := by
  have hpanic := add_zero (h := newHistogram "x") (s := ⟨0, 1, [], by decide, by decide⟩) rfl
  refine ⟨hpanic, fun hexact => ?_⟩
  obtain ⟨h, hcounts, -, -⟩ := hexact
  exact hcounts.ne_zero _ List.mem_cons_self rfl

end Bpfsnoop.Trace
