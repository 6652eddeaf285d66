/-
Bpfsnoop.Ebpf.Memory — words in byte memory.

Reading back a stored word gives the word (`loadLE_writeBytes`), a store
beside a word leaves it (`loadLE_writeBytes_of_disjoint`), and a load of
fewer bytes is the low part of a load of more (`loadLE_and`).
-/
import Bpfsnoop.Ebpf.Machine

namespace Bpfsnoop.Ebpf

/-! ## The bits of a loaded word -/

/-- Bit `j` of a load is bit `j % 8` of byte `j / 8`. -/
theorem getLsbD_loadLE (m : Word → Byte) (n : Nat) : ∀ (a : Word) (j : Nat), j < 64 →
    (loadLE m a n).getLsbD j
      = (decide (j < 8 * n) && (m (a + BitVec.ofNat 64 (j / 8))).getLsbD (j % 8)) := by
  induction n with
  | zero => intro a j _; simp [loadLE]
  | succ n ih =>
    intro a j hj
    rw [loadLE, BitVec.getLsbD_or, BitVec.getLsbD_setWidth, BitVec.getLsbD_shiftLeft]
    by_cases h8 : j < 8
    · have hdiv : j / 8 = 0 := by omega
      have hmod : j % 8 = j := by omega
      have hlt : j < 8 * (n + 1) := by omega
      simp [h8, hdiv, hmod, hlt, hj]
    · have hhigh : (m a).getLsbD j = false := BitVec.getLsbD_of_ge _ _ (by omega)
      have hdiv : BitVec.ofNat 64 (j / 8) = 1 + BitVec.ofNat 64 ((j - 8) / 8) := by
        rw [show j / 8 = 1 + (j - 8) / 8 by omega, BitVec.ofNat_add]
        rfl
      have hmod : (j - 8) % 8 = j % 8 := by omega
      have hlt : (j - 8 < 8 * n) = (j < 8 * (n + 1)) := by
        rw [eq_iff_iff]
        omega
      rw [ih (a + 1) (j - 8) (by omega), hdiv, ← BitVec.add_assoc]
      simp [hhigh, h8, hj, hmod, hlt]

/-- A load depends on the bytes it covers only. -/
theorem loadLE_congr {m m' : Word → Byte} {a a' : Word} {n : Nat}
    (h : ∀ i, i < n → m (a + BitVec.ofNat 64 i) = m' (a' + BitVec.ofNat 64 i)) :
    loadLE m a n = loadLE m' a' n := by
  apply BitVec.eq_of_getLsbD_eq
  intro j hj
  rw [getLsbD_loadLE m n a j hj, getLsbD_loadLE m' n a' j hj]
  by_cases hlt : j < 8 * n
  · rw [h (j / 8) (by omega)]
  · simp [hlt]

theorem getLsbD_byteOf (w : Word) (i j : Nat) (hj : j < 8) :
    (byteOf w i).getLsbD j = w.getLsbD (8 * i + j) := by
  simp [byteOf, hj]

/-! ## Stores and loads -/

/-- A word stored is the word read. -/
theorem loadLE_writeBytes (m : Word → Byte) (a w : Word) :
    loadLE (writeBytes m a 8 (byteOf w)) a 8 = w := by
  apply BitVec.eq_of_getLsbD_eq
  intro j hj
  have hoff : (a + BitVec.ofNat 64 (j / 8) - a).toNat = j / 8 := by
    have : a + BitVec.ofNat 64 (j / 8) - a = BitVec.ofNat 64 (j / 8) := by bv_omega
    rw [this, BitVec.toNat_ofNat]
    omega
  have hlt : j / 8 < 8 := by omega
  have hj8 : j < 8 * 8 := by omega
  rw [getLsbD_loadLE _ _ _ _ hj, writeBytes, hoff, if_pos hlt, getLsbD_byteOf _ _ _ (by omega)]
  simp [hj8, show 8 * (j / 8) + j % 8 = j by omega]

/-- The `n` bytes read at `a` and the `k` bytes at `dst` do not meet. -/
def Disjoint (a : Word) (n : Nat) (dst : Word) (k : Nat) : Prop :=
  ∀ i, i < n → ¬ (a + BitVec.ofNat 64 i - dst).toNat < k

/-- A store leaves the words beside it. -/
theorem loadLE_writeBytes_of_disjoint {m : Word → Byte} {a dst : Word} {n k : Nat}
    {f : Nat → Byte} (h : Disjoint a n dst k) :
    loadLE (writeBytes m dst k f) a n = loadLE m a n := by
  refine loadLE_congr fun i hi => ?_
  rw [writeBytes, if_neg (h i hi)]

/-- Bytes copied are the bytes read. -/
theorem loadLE_writeBytes_copy (m m' : Word → Byte) (dst src : Word) :
    loadLE (writeBytes m dst 8 fun i => m' (src + BitVec.ofNat 64 i)) dst 8 = loadLE m' src 8 := by
  refine loadLE_congr fun i hi => ?_
  have hoff : (dst + BitVec.ofNat 64 i - dst).toNat = i := by
    have : dst + BitVec.ofNat 64 i - dst = BitVec.ofNat 64 i := by bv_omega
    rw [this, BitVec.toNat_ofNat]
    omega
  rw [writeBytes, hoff, if_pos hi]

/-- Two words below `fp` are apart when their depths are. -/
theorem disjoint_of_depths {a b : Nat} (fp : Word) (ha : a ≤ 2 ^ 15) (hb : b ≤ 2 ^ 15)
    (h : a + 8 ≤ b ∨ b + 8 ≤ a) :
    Disjoint (fp - BitVec.ofNat 64 a) 8 (fp - BitVec.ofNat 64 b) 8 := by
  intro i hi
  bv_omega

/-! ## Loads of fewer bytes -/

/-- Cutting a value to its low `8 * n` bits. -/
def lowMask (n : Nat) : Word := (1 : Word) <<< (8 * n) - 1

theorem toNat_sub_one_shiftLeft {k : Nat} (hk : k ≤ 64) : ((1 : Word) <<< k - 1).toNat = 2 ^ k - 1 := by
  have hpos : 0 < 2 ^ k := Nat.two_pow_pos k
  rcases Nat.lt_or_eq_of_le hk with hlt | rfl
  · have hlt : 2 ^ k < 2 ^ 64 := Nat.pow_lt_pow_right (by omega) hlt
    have hone : (1 : Word).toNat = 1 := rfl
    rw [BitVec.toNat_sub, BitVec.toNat_shiftLeft, hone, Nat.shiftLeft_eq, Nat.one_mul]
    omega
  · decide

theorem getLsbD_sub_one_shiftLeft {k j : Nat} (hk : k ≤ 64) :
    ((1 : Word) <<< k - 1).getLsbD j = decide (j < k) := by
  rw [BitVec.getLsbD, toNat_sub_one_shiftLeft hk, Nat.testBit_two_pow_sub_one]

/-- The low bytes of a word are what a smaller load reads. -/
theorem loadLE_and {m : Word → Byte} {a : Word} {n k : Nat} (hnk : n ≤ k) (hk : k ≤ 8) :
    loadLE m a k &&& lowMask n = loadLE m a n := by
  apply BitVec.eq_of_getLsbD_eq
  intro j hj
  rw [BitVec.getLsbD_and, getLsbD_loadLE m k a j hj, getLsbD_loadLE m n a j hj, lowMask]
  rw [getLsbD_sub_one_shiftLeft (by omega)]
  by_cases hlt : j < 8 * n
  · have hlt' : j < 8 * k := by omega
    simp [hlt, hlt']
  · simp [hlt]

end Bpfsnoop.Ebpf
