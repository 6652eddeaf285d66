/-
Bpfsnoop.CC.MemberComparison — a loaded member compared with a constant.

Behind the last load of an access the code cuts the loaded word down to
the member (`keepCode`), and the comparison is an unsigned jump with an
immediate. The member has a value in C, which is signed or not, and is
compared with the constant after the usual arithmetic conversions: both
become `uint64` if the member is an unsigned number of eight bytes, and
`int64` otherwise, where every value keeps its own. A bitfield of up to 32
bits is promoted to `int` or `unsigned int` before that, and a wider one
keeps its declared type.

`member_comparison_iff` says for which members, loads and constants the
code gives the truth value of C whatever the memory holds. The load need
not come from the place of the member: `Field.compared` says which bits
are compared, and where they stand beside those of the member.
-/
import Bpfsnoop.CC.OperatorValues
import Bpfsnoop.CC.OwnershipTheorems
import Bpfsnoop.CC.ChainEnds
import Bpfsnoop.Lib.BitFields

namespace Bpfsnoop.CC

open Ebpf Btf Reg Lib

/-! ## Memory as a number -/

/-- The `n` bytes at `a`, the first one least significant. -/
def memNat (m : Word → Byte) (a : Word) : Nat → Nat
  | 0 => 0
  | n + 1 => (m a).toNat + 256 * memNat m (a + 1) n

section Memory

variable {m : Word → Byte} {a : Word} {n : Nat}

theorem memNat_lt (m : Word → Byte) (a : Word) (n : Nat) : memNat m a n < 256 ^ n := by
  induction n generalizing a with
  | zero => simp [memNat]
  | succ n ih =>
    have hbyte : (m a).toNat < 256 := (m a).isLt
    have hrest := ih (a + 1)
    rw [memNat, pow_succ]
    omega

theorem toNat_loadLE (hn : n ≤ 8) : (loadLE m a n).toNat = memNat m a n := by
  induction n generalizing a with
  | zero => rfl
  | succ n ih =>
    have hbyte : (m a).toNat < 2 ^ 8 := (m a).isLt
    have hrest : memNat m (a + 1) n < 256 ^ n := memNat_lt m (a + 1) n
    have hpow : 256 ^ n * 256 ≤ 2 ^ 64 := by
      calc 256 ^ n * 256 = 256 ^ (n + 1) := (pow_succ 256 n).symm
        _ ≤ 256 ^ 8 := Nat.pow_le_pow_right (by omega) hn
    rw [loadLE, BitVec.toNat_or, BitVec.toNat_shiftLeft, BitVec.toNat_setWidth, ih (by omega),
      Nat.mod_eq_of_lt (by omega), Nat.mod_eq_of_lt (by rw [Nat.shiftLeft_eq]; omega), Nat.or_comm,
      ← Nat.shiftLeft_add_eq_or_of_lt hbyte, Nat.shiftLeft_eq, memNat]
    omega

/-- Fewer bytes of the same memory. -/
theorem memNat_mod {j : Nat} (h : j ≤ n) : memNat m a n % 256 ^ j = memNat m a j := by
  induction n generalizing a j with
  | zero =>
    obtain rfl : j = 0 := by omega
    rfl
  | succ n ih =>
    cases j with
    | zero => simp [memNat, Nat.mod_one]
    | succ j =>
      have hbyte : (m a).toNat < 256 := (m a).isLt
      have hrest : memNat m (a + 1) n % 256 ^ j = memNat m (a + 1) j := ih (by omega)
      have hdiv : ((m a).toNat + 256 * memNat m (a + 1) n) / 256 = memNat m (a + 1) n := by omega
      rw [memNat, memNat, pow_succ, Nat.mul_comm (256 ^ j) 256, Nat.mod_mul, hdiv, hrest]
      omega

/-- The bytes of a number, laid out from `a` on. -/
def memoryOf (a : Word) (y : Nat) : Word → Byte := fun q => BitVec.ofNat 8 (y / 256 ^ (q - a).toNat)

theorem memNat_memoryOf (a : Word) (y : Nat) {j : Nat} (h : j + n ≤ 2 ^ 64) :
    memNat (memoryOf a y) (a + BitVec.ofNat 64 j) n = y / 256 ^ j % 256 ^ n := by
  induction n generalizing j with
  | zero => simp [memNat, Nat.mod_one]
  | succ n ih =>
    have hoff : (a + BitVec.ofNat 64 j - a).toNat = j := by
      rw [BitVec.add_comm, BitVec.add_sub_cancel, BitVec.toNat_ofNat, Nat.mod_eq_of_lt (by omega)]
    have hnext : a + BitVec.ofNat 64 j + 1 = a + BitVec.ofNat 64 (j + 1) := by
      rw [BitVec.add_assoc, BitVec.ofNat_add]
      rfl
    have hsplit : y / 256 ^ j % 256 ^ (n + 1) = y / 256 ^ j % 256 + 256 * (y / 256 ^ (j + 1) % 256 ^ n) := by
      rw [pow_succ, Nat.mul_comm, Nat.mod_mul, Nat.div_div_eq_div_mul, ← pow_succ]
    rw [memNat, hnext, ih (by omega), memoryOf, hoff, BitVec.toNat_ofNat, hsplit]

/-- Memory that holds a number at `a`. -/
theorem exists_memNat (a : Word) {y : Nat} (hn : n ≤ 2 ^ 64) (hy : y < 256 ^ n) : ∃ m, memNat m a n = y := by
  refine ⟨memoryOf a y, ?_⟩
  have h := memNat_memoryOf (n := n) a y (j := 0) (by omega)
  simpa [Nat.mod_eq_of_lt hy] using h

/-- Further bytes of the same memory. -/
theorem memNat_div (m : Word → Byte) (a : Word) (j n : Nat) :
    memNat m a (j + n) / 256 ^ j = memNat m (a + BitVec.ofNat 64 j) n := by
  induction j generalizing a with
  | zero => simp
  | succ j ih =>
    have hbyte : (m a).toNat < 256 := (m a).isLt
    have hdiv : memNat m a (j + 1 + n) / 256 = memNat m (a + 1) (j + n) := by
      rw [show j + 1 + n = j + n + 1 by omega, memNat]
      omega
    have hnext : a + 1 + BitVec.ofNat 64 j = a + BitVec.ofNat 64 (j + 1) := by
      rw [Nat.add_comm, BitVec.ofNat_add, ← add_assoc]
      rfl
    rw [pow_succ', ← Nat.div_div_eq_div_mul, hdiv, ih, hnext]

/-- The first `size` bytes from `base` on are those of the number `z`. -/
def HoldsNat (m : Word → Byte) (base : Word) (size z : Nat) : Prop :=
  ∀ j n, j + n ≤ size → memNat m (base + BitVec.ofNat 64 j) n = z / 256 ^ j % 256 ^ n

theorem holdsNat_memNat (m : Word → Byte) (base : Word) (size : Nat) :
    HoldsNat m base size (memNat m base size) := by
  intro j n h
  obtain ⟨d, rfl⟩ := Nat.exists_eq_add_of_le h
  rw [Nat.add_assoc, memNat_div, memNat_mod (Nat.le_add_right n d)]

theorem holdsNat_memoryOf (base : Word) (z : Nat) : HoldsNat (memoryOf base z) base (2 ^ 64) z :=
  fun _ _ h => memNat_memoryOf base z h

/-- Bits of some of the bytes are bits of the number. -/
theorem HoldsNat.bitsAt {base : Word} {size z j d p : Nat} (h : HoldsNat m base size z) (hj : j + n ≤ size)
    (hd : d + p ≤ 8 * n) : bitsAt d p (memNat m (base + BitVec.ofNat 64 j) n) = bitsAt (d + 8 * j) p z := by
  rw [h j n hj, show 256 ^ n = 2 ^ (8 * n) from (pow_mul 2 8 n).symm, bitsAt_mod hd, Lib.bitsAt, Lib.bitsAt,
    Nat.div_div_eq_div_mul, show 256 ^ j = 2 ^ (8 * j) from (pow_mul 2 8 j).symm, ← pow_add, Nat.add_comm]

end Memory

/-! ## The member in C -/

/-- Size and signedness of an integer or an enum. -/
def integer? (t : BtfType) : Option (Nat × Bool) :=
  match underlyingType t with
  | .int _ size encoding => some (size, encoding = .signed)
  | .enum _ size signed _ => some (size, signed)
  | _ => none

/-- A member: the size of its type, whether it is signed, whether it is a
bitfield, and which bits it takes from its first byte on. -/
structure Field where
  size : Nat
  signed : Bool
  bitfield : Bool
  shift : Nat
  bits : Nat
  deriving DecidableEq, Repr

/-- The member of an access. -/
def field? (t : BtfType) (mem : Option Member) : Option Field :=
  (integer? t).map fun (size, signed) =>
    match mem with
    | some m =>
      if m.bitfieldSize ≠ 0 then
        { size := size, signed := signed, bitfield := true, shift := m.offset % 8, bits := m.bitfieldSize }
      else { size := size, signed := signed, bitfield := false, shift := 0, bits := 8 * size }
    | none => { size := size, signed := signed, bitfield := false, shift := 0, bits := 8 * size }

namespace Field

/-- A size that C has, and a bitfield that is no wider than its type. -/
structure WellFormed (f : Field) : Prop where
  size : f.size = 1 ∨ f.size = 2 ∨ f.size = 4 ∨ f.size = 8
  bits : f.bits ≤ 8 * f.size

/-- The value of the member at `a`: it may reach into a ninth byte. -/
def value (f : Field) (m : Word → Byte) (a : Word) : Int :=
  fieldValue f.signed f.bits (memNat m a 9 / 2 ^ f.shift)

/-- The constant after the usual arithmetic conversions. A bitfield of up
to 32 bits has been promoted. -/
def converted (f : Field) (n : Word) : Int :=
  if f.size = 8 ∧ f.signed = false ∧ ¬ (f.bitfield = true ∧ f.bits ≤ 32) then n.toNat else n.toInt

/-- What the comparison is in C, for the member at `a`. -/
def truth (f : Field) (n : Word) (rel : Int → Int → Bool) (m : Word → Byte) (a : Word) : Word :=
  bool2int (rel (f.value m a) (f.converted n))

/-- How many of the bits from the first bit of the member on the code
compares, of a word of `bytes` bytes. -/
def kept (f : Field) (bytes : Nat) : Nat :=
  if f.bitfield ∧ 32 ≤ f.bits then 8 * bytes - f.shift else min f.bits (8 * bytes - f.shift)

/-- The immediate that the constant becomes: cut to the width of the
member, and then to 32 bits. -/
def immediate (f : Field) (n : Word) : Word := int32 (n &&& ((1 : Word) <<< f.bits - 1))

end Field

/-- The relational operators of C, on converted operands. -/
def cRelation : BinOp → Option (Int → Int → Bool)
  | .eqEq => some (· == ·)
  | .notEq => some (· != ·)
  | .lt => some fun a b => a < b
  | .ltEq => some fun a b => a ≤ b
  | .gt => some fun a b => b < a
  | .gtEq => some fun a b => b ≤ a
  | _ => none

/-! ## What the code compares -/

section Kept

variable {heap : Heap} {t : BtfType} {mem : Option Member} {f : Field} {bytes : Nat}

theorem sizeof_of_integer (heap : Heap) {size : Nat} {signed : Bool} (h : integer? t = some (size, signed)) :
    sizeof heap t = some size ∧ canCalculate (some t) = true := by
  rw [← sizeof_underlyingType]
  unfold integer? at h
  unfold canCalculate
  split at h <;> rename_i heq <;> simp only [Option.some.injEq, Prod.mk.injEq, reduceCtorEq] at h
  · simp [heq, sizeof, h.1]
  · simp [heq, sizeof, h.1]

theorem field_cases (heap : Heap) (h : field? t mem = some f) :
    sizeof heap t = some f.size ∧ canCalculate (some t) = true ∧
      ((∃ m, mem = some m ∧ m.bitfieldSize ≠ 0 ∧ f.bitfield = true ∧ f.shift = m.offset % 8 ∧
          f.bits = m.bitfieldSize) ∨
        isMemberBitfield mem = false ∧ f.bitfield = false ∧ f.shift = 0 ∧ f.bits = 8 * f.size) := by
  unfold field? at h
  obtain ⟨⟨size, signed⟩, hint, rfl⟩ := Option.map_eq_some_iff.mp h
  obtain ⟨hsize, hcalc⟩ := sizeof_of_integer heap hint
  cases mem with
  | none => exact ⟨hsize, hcalc, .inr ⟨rfl, rfl, rfl, rfl⟩⟩
  | some m =>
    by_cases hm : m.bitfieldSize ≠ 0
    · simp only [if_pos hm]
      exact ⟨hsize, hcalc, .inl ⟨m, rfl, hm, by simp⟩⟩
    · simp only [if_neg hm]
      exact ⟨hsize, hcalc, .inr ⟨by simpa [isMemberBitfield] using hm, by simp⟩⟩

/-- Cutting a loaded word to the size of a member. -/
theorem toNat_adjustSem {size : Nat} (hsize : sizeof heap t = some size)
    (hwidth : size = 1 ∨ size = 2 ∨ size = 4 ∨ size = 8) (w : Word) :
    (adjustSem heap t w).toNat = w.toNat % 2 ^ (8 * size) := by
  unfold adjustSem
  rw [hsize]
  have hw := w.isLt
  rcases hwidth with rfl | rfl | rfl | rfl
  · simp only [BitVec.toNat_and]
    exact Nat.and_two_pow_sub_one_eq_mod w.toNat 8
  · simp only [BitVec.toNat_and]
    exact Nat.and_two_pow_sub_one_eq_mod w.toNat 16
  · simp only [BitVec.toNat_ushiftRight, BitVec.toNat_shiftLeft, Nat.shiftLeft_eq, Nat.shiftRight_eq_div_pow]
    omega
  · exact (Nat.mod_eq_of_lt hw).symm

/-- A mask of fewer than 32 bits is an immediate. -/
theorem int32_mask_of_lt {b : Nat} (hb : b < 32) : int32 ((1 : Word) <<< b - 1) = (1 : Word) <<< b - 1 := by
  have hlt : 2 ^ b ≤ 2 ^ 31 := Nat.pow_le_pow_right (by omega) (by omega)
  have hpos := Nat.two_pow_pos b
  have hmask := toNat_sub_one_shiftLeft (k := b) (by omega)
  refine int32_of_fits ?_ ?_ <;> rw [BitVec.toInt_eq_toNat_cond, hmask] <;> split <;> omega

/-- A wider one becomes all ones. -/
theorem int32_mask_of_ge {b : Nat} (hb : 32 ≤ b) (hb64 : b ≤ 64) :
    int32 ((1 : Word) <<< b - 1) = BitVec.allOnes 64 := by
  have hlow : ((1 : Word) <<< b - 1).setWidth 32 = BitVec.allOnes 32 := by
    apply BitVec.eq_of_getLsbD_eq
    intro i hi
    have hlt : i < b := by omega
    rw [BitVec.getLsbD_setWidth, getLsbD_sub_one_shiftLeft hb64, BitVec.getLsbD_allOnes]
    simp [hi, hlt]
  rw [int32, hlow]
  decide

/-- The bits of a word that the code of a bitfield keeps. -/
theorem toNat_bitfieldSem {member : Member} (h64 : member.bitfieldSize ≤ 64) (w : Word) :
    (bitfieldSem member w).toNat =
      if 32 ≤ member.bitfieldSize then w.toNat / 2 ^ (member.offset % 8)
      else w.toNat / 2 ^ (member.offset % 8) % 2 ^ member.bitfieldSize := by
  have hcount : ∀ d < 8, (int32 (int32 (BitVec.ofNat 64 d))).toNat % 64 = d := by decide
  have hshift : (if BitVec.ofNat 64 (member.offset % 8) ≠ 0 then
      w >>> ((int32 (int32 (BitVec.ofNat 64 (member.offset % 8)))).toNat % 64) else w).toNat
        = w.toNat / 2 ^ (member.offset % 8) := by
    have hlt : member.offset % 8 < 8 := Nat.mod_lt _ (by omega)
    split
    · rw [hcount _ hlt, BitVec.toNat_ushiftRight, Nat.shiftRight_eq_div_pow]
    · rename_i hzero
      have hz : member.offset % 8 = 0 := by
        have := congrArg BitVec.toNat (not_not.mp hzero)
        simpa [Nat.mod_eq_of_lt (show member.offset % 8 < 18446744073709551616 by omega)] using this
      rw [hz, pow_zero, Nat.div_one]
  unfold bitfieldSem bitfieldMask
  dsimp only
  rw [BitVec.toNat_and, hshift, int32_int32]
  split
  · rename_i hwide
    rw [int32_mask_of_ge hwide h64, BitVec.toNat_allOnes]
    have hlt : w.toNat / 2 ^ (member.offset % 8) < 2 ^ 64 :=
      lt_of_le_of_lt (Nat.div_le_self _ _) w.isLt
    rw [Nat.and_two_pow_sub_one_eq_mod, Nat.mod_eq_of_lt hlt]
  · rename_i hnarrow
    rw [int32_mask_of_lt (by omega), toNat_sub_one_shiftLeft h64, Nat.and_two_pow_sub_one_eq_mod]

theorem field_widths (hf : field? t mem = some f) (hwf : f.WellFormed) : 0 < f.bits ∧ f.bits ≤ 64 ∧ f.shift < 8 := by
  have hsize := hwf.size
  have hbits := hwf.bits
  obtain ⟨-, -, ⟨m, -, hm, -, hs, hb⟩ | ⟨-, -, hs, hb⟩⟩ := field_cases (fun _ => ⟨0, fun _ => none⟩) hf
  · omega
  · omega

theorem kept_widths (hf : field? t mem = some f) (hwf : f.WellFormed) (hbytes : 0 < bytes ∧ bytes ≤ 8) :
    0 < f.kept bytes ∧ f.shift + f.kept bytes ≤ 8 * bytes := by
  obtain ⟨hpos, -, hshift⟩ := field_widths hf hwf
  unfold Field.kept
  split <;> omega

/-- **The word that is compared**: the bits that are kept, from the first
bit of the member on. -/
theorem toNat_keptSem (hf : field? t mem = some f) (hwf : f.WellFormed) (hbytes : 0 < bytes ∧ bytes ≤ 8) {w : Word}
    (hw : w.toNat < 2 ^ (8 * bytes)) : (keptSem heap t mem w).toNat = bitsAt f.shift (f.kept bytes) w.toNat := by
  obtain ⟨hpos, hb64, hd⟩ := field_widths hf hwf
  obtain ⟨hsize, -, hcase⟩ := field_cases heap hf
  -- the bits of the word behind the first one of the member
  have hshort : w.toNat / 2 ^ f.shift % 2 ^ (8 * bytes - f.shift) = w.toNat / 2 ^ f.shift := by
    rw [← mod_div w.toNat (show f.shift ≤ 8 * bytes by omega), Nat.mod_eq_of_lt hw]
  rcases hcase with ⟨member, rfl, hbit, hbf, hshift, hbits⟩ | ⟨hmem, hbf, hshift, hbits⟩
  · have hkept : keptSem heap t (some member) w = bitfieldSem member w := by
      simp [keptSem, isMemberBitfield, hbit]
    rw [hkept, toNat_bitfieldSem (by omega), ← hshift, ← hbits, bitsAt]
    unfold Field.kept
    by_cases hwide : 32 ≤ f.bits
    · rw [if_pos hwide, if_pos ⟨hbf, hwide⟩, hshort]
    · rw [if_neg hwide, if_neg (by simp [hwide]), ← mod_mod_min, hshort]
  · have hkept : keptSem heap t mem w = adjustSem heap t w := by
      unfold keptSem
      cases mem with
      | none => rfl
      | some member => simp [hmem]
    rw [hkept, toNat_adjustSem hsize hwf.size, ← hbits, bitsAt]
    unfold Field.kept
    rw [if_neg (by simp [hbf]), ← mod_mod_min, hshort, hshift, pow_zero, Nat.div_one]

end Kept

/-! ## The comparison -/

/-- The right operand stands for the constant `n`: a number, or the name
of an enum constant of the left operand's type. -/
def ConstantOf (t : BtfType) (r : EvalValue) (n : Word) : Prop :=
  r.typ = .num ∧ r.num = n ∨ r.typ = .enumMaybe ∧ extractEnum (some t) r.name = .ok n

/-- An expression that stands for a constant beside a member of type `t`:
no code is needed for it. -/
def ConstantExpr (c : Compiler) (e : Expr) (t : BtfType) (n : Word) : Prop :=
  ∃ r, (∀ g, eval c e g = .ok (r, g)) ∧ ConstantOf t r n

/-- Which bits the code compares: `bits` of them, from bit `first` on of a
number in which the member starts with bit `start`. -/
structure Compared where
  start : Nat
  first : Nat
  bits : Nat
  deriving DecidableEq, Repr

/-- The bits that are compared, behind a load of some bytes at some distance
from the member. A word that is not loaded stands beside the member. -/
def Field.compared (f : Field) : Option (Nat × Word) → Compared
  | none => { start := 0, first := f.bits, bits := f.kept 8 }
  | some (bytes, d) =>
    if d.toNat < 2 ^ 63 then { start := f.shift, first := f.shift + 8 * d.toNat, bits := f.kept bytes }
    else { start := f.shift + 8 * (-d).toNat, first := f.shift, bits := f.kept bytes }

/-- The member, the load and the constant go together: the code gives the
truth value of C for every content of the memory. For an order, the field is
unsigned, the bits that are compared end with its last one, and the constants
go together; or else the constant alone decides, and the immediate decides
the same. For equality, the bits of the field are compared and the immediate
has those of a constant in range, or else neither is ever met. -/
def Field.Agrees (f : Field) (load : Option (Nat × Word)) (n : Word) : BinOp → Prop
  | .eqEq | .notEq => EqualAgrees f.signed (f.compared load).start f.bits (f.compared load).first
      (f.compared load).bits (f.converted n) (f.immediate n).toNat
  | .lt | .gtEq => BelowAgrees f.signed (f.compared load).start f.bits (f.compared load).first
      (f.compared load).bits (f.converted n) (f.immediate n).toNat
  | .ltEq | .gt => BelowAgrees f.signed (f.compared load).start f.bits (f.compared load).first
      (f.compared load).bits (f.converted n + 1) ((f.immediate n).toNat + 1)
  | _ => True

section Comparison

variable {heap : Heap} {c : Compiler} {left right : Expr} {res : AccessResult} {t : BtfType}
  {mem : Option Member} {f : Field} {load : Option (Nat × Word)} {last : AccessOffset} {l r v : EvalValue} {n : Word}
  {g g₀ g' : Gen} {op : BinOp}

/-- The immediate of the jump. -/
theorem int32_adjustNum (hf : field? t mem = some f) (hwf : f.WellFormed) (reg : Reg) (n : Word) :
    int32 (adjustNum heap n ⟨.regBtf, reg, 0, "", some t, mem⟩) = f.immediate n := by
  obtain ⟨hsize, -, hcase⟩ := field_cases heap hf
  unfold adjustNum Field.immediate
  rw [if_neg (not_not.mpr rfl)]
  rcases hcase with ⟨member, rfl, hbit, -, -, hbits⟩ | ⟨hmem, -, -, hbits⟩
  · simp [hbit, bitfieldMask, hbits]
  · have hbySize : adjustNum.bySize heap n ⟨.regBtf, reg, 0, "", some t, mem⟩
        = n &&& ((1 : Word) <<< f.bits - 1) := by
      unfold adjustNum.bySize
      have hsizeof : sizeofOpt heap (some t) = f.size := by simp [sizeofOpt, hsize]
      have hall : n &&& BitVec.allOnes 64 = n := BitVec.and_allOnes
      rw [hsizeof, hbits]
      rcases hwf.size with h | h | h | h <;> rw [h]
      · rfl
      · rfl
      · rfl
      · exact hall.symm
    cases mem with
    | none => rw [hbySize]
    | some member =>
      have hz : member.bitfieldSize = 0 := by simpa [isMemberBitfield] using hmem
      simp only [hz, ne_eq, not_true_eq_false, if_false]
      rw [hbySize]

/-- The constant as the comparison meets it. -/
theorem preHandle_constant (heap : Heap) (hcalc : canCalculate l.btf = true) (htyp : l.typ = .regBtf)
    (hbtf : l.btf = some t) (hr : ConstantOf t r n) :
    ∃ r', preHandleBinaryOp heap l r = .ok (l, r') ∧ r'.typ = .num ∧ r'.num = adjustNum heap n l := by
  unfold preHandleBinaryOp
  rcases hr with ⟨hrt, rfl⟩ | ⟨hrt, henum⟩
  · have hleft : ({ l with num := adjustNum heap l.num r } : EvalValue) = l := by
      have hnum : adjustNum heap l.num r = l.num := by simp [adjustNum, hrt]
      rw [hnum]
    rw [if_neg (by simp [hcalc]), if_neg (by simp [hrt]), if_neg (by simp [hrt]), if_neg (by simp [hrt])]
    dsimp only
    rw [hleft]
    exact ⟨_, rfl, hrt, rfl⟩
  · rw [← hbtf] at henum
    rw [if_neg (by simp [hcalc]), if_neg (by simp [hrt]), if_neg (by simp [htyp]), if_pos ⟨htyp, hrt⟩, henum]
    exact ⟨_, rfl, rfl, rfl⟩

/-- The code of a comparison of a register with a constant. -/
theorem binary_constant {rel : Word → Word → Bool} (hop : relation op = some rel)
    (hcalc : canCalculate l.btf = true) (htyp : l.typ = .regBtf) (hbtf : l.btf = some t)
    (hr : ConstantOf t r n) (h : binary heap op l r g = .ok (v, g')) :
    ∃ frag, v = l ∧ g'.insns = g.insns ++ frag ∧ ∀ K s, exec K frag .run s
      = .cont .run (s.set l.reg (bool2int (rel (s.regs l.reg) (int32 (adjustNum heap n l))))) := by
  obtain ⟨fold, inverse, hcompare, -, hrel⟩ := relation_compare heap hop
  obtain ⟨r', hpre, hrt, hrn⟩ := preHandle_constant heap hcalc htyp hbtf hr
  rw [hcompare] at h
  unfold compare at h
  simp only [bind_eq_ok, lift_eq_ok] at h
  obtain ⟨_, _, ⟨hpair, rfl⟩, h⟩ := h
  rw [hpre, Except.ok.injEq] at hpair
  subst hpair
  simp only [htyp, hrt, bind_eq_ok, emit_eq_ok, pure_eq_ok, hrn] at h
  obtain ⟨_, _, rfl, _, _, rfl, rfl, rfl⟩ := h
  refine ⟨⟨jmpOff inverse l.reg (adjustNum heap n l) 2, none⟩ :: reg2bool l.reg, rfl, List.append_assoc _ _ _, ?_⟩
  intro K s
  rw [jmpOff, exec_reg2bool, hrel, Operand.eval_imm]

theorem compared_widths (hf : field? t mem = some f) (hwf : f.WellFormed)
    (hload : ∀ bytes d, load = some (bytes, d) → 0 < bytes ∧ bytes ≤ 8) :
    0 < (f.compared load).bits ∧ (f.compared load).bits ≤ 64 := by
  have hbits {bytes : Nat} (h : 0 < bytes ∧ bytes ≤ 8) : 0 < f.kept bytes ∧ f.kept bytes ≤ 64 := by
    have := kept_widths hf hwf h
    omega
  unfold Field.compared
  split
  · exact hbits (by omega)
  · split <;> exact hbits (hload _ _ rfl)

/-- The words and the values, for every number that the memory may hold. -/
theorem agrees_iff {rel : Word → Word → Bool} {crel : Int → Int → Bool} (hop : relation op = some rel)
    (hcop : cRelation op = some crel) (hf : field? t mem = some f) (hwf : f.WellFormed)
    (hload : ∀ bytes d, load = some (bytes, d) → 0 < bytes ∧ bytes ≤ 8) (n : Word) :
    (∀ z, rel (BitVec.ofNat 64 (bitsAt (f.compared load).first (f.compared load).bits z)) (f.immediate n)
      = crel (fieldAt f.signed (f.compared load).start f.bits z) (f.converted n)) ↔ f.Agrees load n op := by
  obtain ⟨hpos, -, -⟩ := field_widths hf hwf
  obtain ⟨hp, hp64⟩ := compared_widths hf hwf hload
  generalize hc : f.converted n = c
  generalize hk : f.immediate n = k
  generalize hseen : f.compared load = seen at hp hp64
  have hkept (z : Nat) : (BitVec.ofNat 64 (bitsAt seen.first seen.bits z)).toNat = bitsAt seen.first seen.bits z := by
    rw [BitVec.toNat_ofNat, Nat.mod_eq_of_lt]
    exact lt_of_lt_of_le bitsAt_lt (Nat.pow_le_pow_right (by omega) hp64)
  cases op <;> simp only [relation, cRelation, Option.some.injEq, reduceCtorEq] at hop hcop
  all_goals
    subst hop hcop
    simp only [Field.Agrees, hc, hk, hseen]
  case eqEq =>
    rw [← equal_iff hpos hp]
    refine forall_congr' fun z => ?_
    rw [Bool.eq_iff_iff, beq_iff_eq, beq_iff_eq, ← BitVec.toNat_inj, hkept]
  case notEq =>
    rw [← equal_iff hpos hp]
    refine forall_congr' fun z => ?_
    rw [Bool.eq_iff_iff, bne_iff_ne, bne_iff_ne, not_iff_not, ← BitVec.toNat_inj, hkept]
  case lt =>
    rw [← below_iff hpos hp]
    refine forall_congr' fun z => ?_
    rw [decide_eq_decide, BitVec.lt_def, hkept]
  case gtEq =>
    rw [← below_iff hpos hp]
    refine forall_congr' fun z => ?_
    rw [decide_eq_decide, BitVec.le_def, hkept]
    omega
  case ltEq =>
    rw [← below_iff hpos hp]
    refine forall_congr' fun z => ?_
    rw [decide_eq_decide, BitVec.le_def, hkept]
    omega
  case gt =>
    rw [← below_iff hpos hp]
    refine forall_congr' fun z => ?_
    rw [decide_eq_decide, BitVec.lt_def, hkept]
    omega

/-! ### The member and the load in one number -/

/-- A memory and a word that the steps before lead to make the value `x` of
the member and the number `y` that is compared. -/
def Meets (c : Compiler) (heap : Heap) (t : BtfType) (mem : Option Member) (f : Field) (last : AccessOffset)
    (m : Word → Byte) (w : Word) (x : Int) (y : Nat) : Prop :=
  f.value m (w + last.offset) = x ∧ (keptSem heap t mem ((readStep c last true).value m w)).toNat = y

/-- A load of `bytes` bytes at the distance `d`, in a number that the memory
holds around both places. -/
theorem meets_of_holdsNat (hf : field? t mem = some f) (hwf : f.WellFormed) {bytes : Nat} {d : Word}
    (hplace : loadPlace c last = some (bytes, d)) {m : Word → Byte} {w base : Word} {size z i j : Nat}
    (hholds : HoldsNat m base size z) (hi : w + last.offset = base + BitVec.ofNat 64 i)
    (hj : w + last.offset + d = base + BitVec.ofNat 64 j) (hsize : i + 9 ≤ size ∧ j + 9 ≤ size) :
    Meets c heap t mem f last m w (fieldAt f.signed (f.shift + 8 * i) f.bits z)
      (bitsAt (f.shift + 8 * j) (f.kept bytes) z) := by
  obtain ⟨hpos, hb64, hd⟩ := field_widths hf hwf
  have hbytes := loadPlace_bytes hplace
  have hkept := kept_widths hf hwf hbytes
  constructor
  · have hmember : bitsAt f.shift f.bits (memNat m (base + BitVec.ofNat 64 i) 9) = bitsAt (f.shift + 8 * i) f.bits z :=
      hholds.bitsAt hsize.1 (by omega)
    rw [fieldAt_eq, ← hmember, bitsAt, fieldValue_mod, ← hi, Field.value]
  · have hword := value_of_loadPlace (c := c) (o := last) m w
    rw [hplace] at hword
    have hload : (loadLE m (base + BitVec.ofNat 64 j) bytes).toNat = memNat m (base + BitVec.ofNat 64 j) bytes :=
      toNat_loadLE hbytes.2
    have hlt : (loadLE m (base + BitVec.ofNat 64 j) bytes).toNat < 2 ^ (8 * bytes) := by
      rw [hload, pow_mul]
      exact memNat_lt _ _ _
    rw [hword]
    show (keptSem heap t mem (loadLE m (w + last.offset + d) bytes)).toNat = _
    rw [hj, toNat_keptSem hf hwf hbytes hlt, hload]
    exact hholds.bitsAt (by omega) hkept.2

/-- Every memory and word make the pair of some number, and every number is
met. -/
structure MeetsPairs (c : Compiler) (heap : Heap) (t : BtfType) (mem : Option Member) (f : Field) (last : AccessOffset)
    (x : Nat → Int) (y : Nat → Nat) : Prop where
  every : ∀ z, ∃ m w, Meets c heap t mem f last m w (x z) (y z)
  only : ∀ m w, ∃ z, Meets c heap t mem f last m w (x z) (y z)

theorem MeetsPairs.forall_iff {x : Nat → Int} {y : Nat → Nat} (h : MeetsPairs c heap t mem f last x y)
    (P : Int → Nat → Prop) : (∀ m w a b, Meets c heap t mem f last m w a b → P a b) ↔ ∀ z, P (x z) (y z) := by
  constructor
  · intro hall z
    obtain ⟨m, w, hmeets⟩ := h.every z
    exact hall m w _ _ hmeets
  · intro hall m w a b hab
    -- a memory and a word make one pair
    obtain ⟨z, hmeets⟩ := h.only m w
    have ha : x z = a := hmeets.1.symm.trans hab.1
    have hb : y z = b := hmeets.2.symm.trans hab.2
    rw [← ha, ← hb]
    exact hall z

/-- Without a load the memory and the word are free of each other: the number
has the bits of the member, and behind them those of the word. -/
theorem meetsPairs_address (hf : field? t mem = some f) (hwf : f.WellFormed) (hplace : loadPlace c last = none) :
    MeetsPairs c heap t mem f last (fieldAt f.signed 0 f.bits) (bitsAt f.bits (f.kept 8)) := by
  obtain ⟨hpos, hb64, hd⟩ := field_widths hf hwf
  have hkept := kept_widths hf hwf (show 0 < 8 ∧ 8 ≤ 8 by omega)
  have hword (m : Word → Byte) (w : Word) : (readStep c last true).value m w = w + int32 last.offset := by
    rw [value_of_loadPlace, hplace]
  have hnumber (w : Word) : (keptSem heap t mem (w + int32 last.offset)).toNat
      = bitsAt f.shift (f.kept 8) (w + int32 last.offset).toNat :=
    toNat_keptSem hf hwf (by omega) (w + int32 last.offset).isLt
  constructor
  · intro z
    let y := bitsAt f.bits (f.kept 8) z
    have hy : y * 2 ^ f.shift < 2 ^ 64 := by
      calc y * 2 ^ f.shift < 2 ^ f.kept 8 * 2 ^ f.shift := Nat.mul_lt_mul_of_pos_right bitsAt_lt (Nat.two_pow_pos _)
        _ = 2 ^ (f.kept 8 + f.shift) := (pow_add 2 _ _).symm
        _ ≤ 2 ^ 64 := Nat.pow_le_pow_right (by omega) (by omega)
    let w : Word := BitVec.ofNat 64 (y * 2 ^ f.shift) - int32 last.offset
    let x := bitsAt 0 f.bits z
    have hx : x * 2 ^ f.shift < 256 ^ 9 := by
      calc x * 2 ^ f.shift < 2 ^ f.bits * 2 ^ f.shift := Nat.mul_lt_mul_of_pos_right bitsAt_lt (Nat.two_pow_pos _)
        _ = 2 ^ (f.bits + f.shift) := (pow_add 2 _ _).symm
        _ ≤ 2 ^ 72 := Nat.pow_le_pow_right (by omega) (by omega)
        _ = 256 ^ 9 := by norm_num
    obtain ⟨m, hm⟩ := exists_memNat (n := 9) (w + last.offset) (by omega) hx
    refine ⟨m, w, ?_, ?_⟩
    · rw [Field.value, hm, Nat.mul_div_cancel _ (Nat.two_pow_pos _), fieldAt_eq]
    · have hback : w + int32 last.offset = BitVec.ofNat 64 (y * 2 ^ f.shift) := sub_add_cancel _ _
      rw [hword, hnumber w, hback, BitVec.toNat_ofNat, Nat.mod_eq_of_lt hy, bitsAt_mul, Nat.mod_eq_of_lt bitsAt_lt]
  · intro m w
    let a := bitsAt f.shift f.bits (memNat m (w + last.offset) 9)
    let y := bitsAt f.shift (f.kept 8) (w + int32 last.offset).toNat
    have ha : a < 2 ^ f.bits := bitsAt_lt
    have hy : y < 2 ^ f.kept 8 := bitsAt_lt
    have hvalue : fieldValue f.signed f.bits a = f.value m (w + last.offset) := fieldValue_mod
    refine ⟨a + 2 ^ f.bits * y, ?_, ?_⟩
    · rw [fieldAt_eq, bitsAt_below (by omega), bitsAt, pow_zero, Nat.div_one, fieldValue_mod, hvalue]
    · rw [hword, hnumber w, bitsAt_above ha, Nat.mod_eq_of_lt hy]

/-- With a load both are read from one number, the member from byte `i` on
and the loaded word from byte `j` on. -/
theorem meetsPairs_load (hf : field? t mem = some f) (hwf : f.WellFormed) {bytes : Nat} {d : Word}
    (hplace : loadPlace c last = some (bytes, d)) {i j : Nat} (hd : BitVec.ofNat 64 i + d = BitVec.ofNat 64 j)
    (hi : i ≤ 2 ^ 63) (hj : j ≤ 2 ^ 63) :
    MeetsPairs c heap t mem f last (fieldAt f.signed (f.shift + 8 * i) f.bits)
      (bitsAt (f.shift + 8 * j) (f.kept bytes)) := by
  have hmeets {m : Word → Byte} {w base : Word} {z : Nat} (size : Nat) (hsize : i + 9 ≤ size ∧ j + 9 ≤ size)
      (hbase : w + last.offset = base + BitVec.ofNat 64 i) (hholds : HoldsNat m base size z) :
      Meets c heap t mem f last m w (fieldAt f.signed (f.shift + 8 * i) f.bits z)
        (bitsAt (f.shift + 8 * j) (f.kept bytes) z) :=
    meets_of_holdsNat hf hwf hplace hholds hbase (by rw [hbase, add_assoc, hd]) hsize
  constructor
  · intro z
    exact ⟨memoryOf 0 z, BitVec.ofNat 64 i - last.offset,
      hmeets (2 ^ 64) (by omega) (by rw [sub_add_cancel, zero_add]) (holdsNat_memoryOf 0 z)⟩
  · intro m w
    exact ⟨_, hmeets (i + j + 9) (by omega) (sub_add_cancel _ _).symm
      (holdsNat_memNat m (w + last.offset - BitVec.ofNat 64 i) (i + j + 9))⟩

/-- The pairs are those of the place where the bits are compared. -/
theorem meetsPairs_compared (hf : field? t mem = some f) (hwf : f.WellFormed) :
    MeetsPairs c heap t mem f last (fieldAt f.signed (f.compared (loadPlace c last)).start f.bits)
      (bitsAt (f.compared (loadPlace c last)).first (f.compared (loadPlace c last)).bits) := by
  cases hplace : loadPlace c last with
  | none => exact meetsPairs_address hf hwf hplace
  | some place =>
    obtain ⟨bytes, d⟩ := place
    unfold Field.compared
    by_cases hfar : d.toNat < 2 ^ 63
    · -- the load stands behind the member
      simp only [hfar, if_true]
      exact meetsPairs_load (i := 0) hf hwf hplace (by simp) (by omega) (by omega)
    · -- the member stands behind the load
      simp only [hfar, if_false]
      have hneg : (-d).toNat ≤ 2 ^ 63 := by
        rw [BitVec.toNat_neg]
        omega
      have hback : BitVec.ofNat 64 (-d).toNat + d = BitVec.ofNat 64 0 := by
        rw [BitVec.ofNat_toNat, BitVec.setWidth_eq, neg_add_cancel]
        rfl
      exact meetsPairs_load hf hwf hplace hback hneg (by omega)

/-- Code that cuts a loaded word down to the member, and compares what is
left with the immediate. -/
theorem endsIn_comparison {rel : Word → Word → Bool} {crel : Int → Int → Bool} {frag : List Insn} {reg : Reg}
    (hop : relation op = some rel) (hcop : cRelation op = some crel) (hf : field? t mem = some f)
    (hwf : f.WellFormed)
    (hfrag : ∀ K s, exec K frag .run s
      = .cont .run (s.set reg (bool2int (rel (keptSem heap t mem (s.regs reg)) (f.immediate n))))) :
    EndsIn c [last] frag reg (f.truth n crel) ↔ f.Agrees (loadPlace c last) n op := by
  have hpairs : MeetsPairs c heap t mem f last _ _ := meetsPairs_compared hf hwf
  rw [← agrees_iff hop hcop hf hwf (fun _ _ => loadPlace_bytes),
    ← hpairs.forall_iff fun x y => rel (BitVec.ofNat 64 y) (f.immediate n) = crel x (f.converted n)]
  simp only [EndsIn, chainSem_last, Except.ok.injEq, exists_eq_left', total_last, hfrag, Outcome.cont.injEq, true_and,
    Field.truth]
  have hword (m : Word → Byte) (w : Word) : BitVec.ofNat 64
      (keptSem heap t mem ((readStep c last true).value m w)).toNat
        = keptSem heap t mem ((readStep c last true).value m w) := by simp
  constructor
  · rintro hends m w x y ⟨rfl, rfl⟩
    have hres := hends { mem := m, clobber := fun _ _ => 0, fastcall := false } w
      { regs := fun _ => (readStep c last true).value m w, stack := ones, out := ones, calls := 0 } rfl
    rw [State.set_regs_self, bool2int_inj] at hres
    rw [hword]
    exact hres
  · intro hall K w s hs
    have hat := hall K.mem w _ _ ⟨rfl, rfl⟩
    rw [hword, ← hs] at hat
    rw [State.set_regs_self, hat]

/-- The code of `member op constant`: the read of the chain, and behind it
the code that cuts the loaded word down and compares it. -/
theorem eval_member_comparison {rel : Word → Word → Bool} (hop : relation op = some rel) (hacc : left.isAccess)
    (hres : accessMemory c left g = .ok (res, g₀)) (hf : field? res.btf res.mem = some f) (hwf : f.WellFormed)
    (hr : ConstantExpr c right res.btf n) (h : eval c (.bin op left right) g = .ok (v, g')) :
    v.typ = .regBtf ∧ ∃ g₁ frag, ReadsChain c res g₀ g₁ v.reg ∧ g'.insns = g₁.insns ++ frag ∧
      ∀ K s, exec K frag .run s
        = .cont .run (s.set v.reg (bool2int (rel (keptSem c.heap res.btf res.mem (s.regs v.reg)) (f.immediate n)))) := by
  obtain ⟨-, hcalc, -⟩ := field_cases c.heap hf
  obtain ⟨r, hreval, hrconst⟩ := hr
  simp only [eval, bind_eq_ok, wrapping_eq_ok, eval_access c hacc, hres, hreval, access_eq, emit_eq_ok,
    pure_eq_ok, Except.ok.injEq, Prod.mk.injEq] at h
  obtain ⟨l, _, ⟨_, _, ⟨rfl, rfl⟩, reg, g₁, hbase, _, g₂, hchain, _, _, rfl, rfl, rfl⟩, _, _, ⟨rfl, rfl⟩, h⟩ := h
  obtain ⟨frag, rfl, hins, hfrag⟩ := binary_constant hop hcalc rfl rfl hrconst h
  refine ⟨rfl, g₂, (keepCode c.heap res.btf res.mem reg).map (↑) ++ frag, ⟨g₁, hbase, ?_⟩, ?_, ?_⟩
  · rw [offset2insns_eq hchain]
    rfl
  · rw [hins, List.append_assoc]
  · intro K s
    rw [exec_append_of_run (exec_keepCode K c.heap res.btf res.mem reg s), hfrag, int32_adjustNum hf hwf]
    simp [State.set]

/-- **A loaded member and a constant.** The code behind the chain gives the
truth value of C for every content of the memory if and only if the member,
the load and the constant go together. -/
theorem member_comparison_iff {crel : Int → Int → Bool} (hcop : cRelation op = some crel) (hacc : left.isAccess)
    (hres : accessMemory c left g = .ok (res, g₀)) (hf : field? res.btf res.mem = some f) (hwf : f.WellFormed)
    (hr : ConstantExpr c right res.btf n) (h : eval c (.bin op left right) g = .ok (v, g')) :
    v.typ = .regBtf ∧ ∃ last g₁ frag, res.offsets.getLast? = some last ∧ ReadsChain c res g₀ g₁ v.reg ∧
      g'.insns = g₁.insns ++ frag ∧
      (EndsIn c [last] frag v.reg (f.truth n crel) ↔ f.Agrees (loadPlace c last) n op) := by
  obtain ⟨rel, hop⟩ : ∃ rel, relation op = some rel := by
    cases op <;> simp [cRelation, relation] at hcop ⊢
  have hlast := List.getLast?_eq_some_getLast (access_root hacc hres).1
  obtain ⟨hv, g₁, frag, hchain, hins, hfrag⟩ := eval_member_comparison hop hacc hres hf hwf hr h
  exact ⟨hv, _, g₁, frag, hlast, hchain, hins, endsIn_comparison hop hcop hf hwf hfrag⟩

end Comparison

/-! ### A negative number

`q->err < 0` is false for every content of `err`. -/

/-- `struct req { int err; unsigned int len; }`. -/
def reqHeap : Heap := fun _ =>
  { size := 8
    findMember := fun name =>
      if name = "err" then some (⟨"err", .int "int" 4 .signed, 0, 0⟩, 0)
      else if name = "len" then some (⟨"len", .int "unsigned int" 4 .unsigned, 32, 0⟩, 4)
      else none }

/-- The parameter `struct req *q`. -/
def reqCompiler : Compiler :=
  { Compiler.empty .probeRead with
    heap := reqHeap
    vars := ["q"]
    btfs := [.pointer (.struct "req" 0)] }

def errField : Field := { size := 4, signed := true, bitfield := false, shift := 0, bits := 32 }

def lenField : Field := { size := 4, signed := false, bitfield := false, shift := 0, bits := 32 }

theorem constantExpr_number (c : Compiler) {text : String} (t : BtfType) (hn : parseNumber text = .ok n) :
    ConstantExpr c (.number text) t n :=
  ⟨{ typ := .num, num := n }, fun g => by
    simp only [eval, bind_eq_ok, wrapping_eq_ok, lift_eq_ok, pure_eq_ok, hn]
    exact ⟨n, g, ⟨rfl, rfl⟩, rfl, rfl⟩, .inl ⟨rfl, rfl⟩⟩

theorem err_below_zero_disagrees : ¬ errField.Agrees (some (8, 0)) 0 .lt := by
  rintro ((⟨hlow, -⟩ | ⟨hhigh, -⟩) | ⟨hs, -⟩)
  · exact absurd hlow (by decide)
  · exact absurd hhigh (by decide)
  · exact absurd hs (by decide)

theorem negative_never_below_zero : ∃ res g₀ v g' last g₁ frag,
    accessMemory reqCompiler (.arrow (.name "q") "err") noCode = .ok (res, g₀) ∧
      field? res.btf res.mem = some errField ∧
      eval reqCompiler (.bin .lt (.arrow (.name "q") "err") (.number "0")) noCode = .ok (v, g') ∧
      res.offsets.getLast? = some last ∧ ReadsChain reqCompiler res g₀ g₁ v.reg ∧ g'.insns = g₁.insns ++ frag ∧
      ¬ EndsIn reqCompiler [last] frag v.reg (errField.truth 0 fun a b => a < b) := by
  have hwf : errField.WellFormed := ⟨by decide, by decide⟩
  have hok : (eval reqCompiler (.bin .lt (.arrow (.name "q") "err") (.number "0")) noCode).isOk = true := by rfl
  cases heval : eval reqCompiler (.bin .lt (.arrow (.name "q") "err") (.number "0")) noCode with
  | error e => simp [heval, Except.isOk, Except.toBool] at hok
  | ok p =>
    obtain ⟨hv, g₁, frag, hchain, hins, hfrag⟩ :=
      eval_member_comparison (show relation .lt = some _ from rfl) rfl rfl rfl hwf
        (constantExpr_number _ _ (show parseNumber "0" = .ok 0 from rfl)) heval
    refine ⟨_, _, p.1, p.2, _, g₁, frag, rfl, rfl, rfl, rfl, hchain, hins, ?_⟩
    rw [endsIn_comparison (show relation .lt = some _ from rfl) rfl rfl hwf hfrag]
    exact err_below_zero_disagrees

/-- An unsigned number of four bytes and a constant of 31 bits: `q->len == 5`
is what it is in C. -/
theorem length_equals_five : ∃ res g₀ v g' last g₁ frag,
    accessMemory reqCompiler (.arrow (.name "q") "len") noCode = .ok (res, g₀) ∧
      eval reqCompiler (.bin .eqEq (.arrow (.name "q") "len") (.number "5")) noCode = .ok (v, g') ∧
      res.offsets.getLast? = some last ∧ loadPlace reqCompiler last = some (8, 0) ∧
      ReadsChain reqCompiler res g₀ g₁ v.reg ∧ g'.insns = g₁.insns ++ frag ∧
      EndsIn reqCompiler [last] frag v.reg (lenField.truth 5 (· == ·)) := by
  have hwf : lenField.WellFormed := ⟨by decide, by decide⟩
  have hok : (eval reqCompiler (.bin .eqEq (.arrow (.name "q") "len") (.number "5")) noCode).isOk = true := by rfl
  have hagrees : lenField.Agrees (some (8, 0)) 5 .eqEq := by
    show EqualAgrees false 0 32 0 32 5 5
    rw [EqualAgrees, if_pos ⟨by decide, by decide⟩]
    exact ⟨rfl, rfl, by decide⟩
  cases heval : eval reqCompiler (.bin .eqEq (.arrow (.name "q") "len") (.number "5")) noCode with
  | error e => simp [heval, Except.isOk, Except.toBool] at hok
  | ok p =>
    obtain ⟨-, last, g₁, frag, hlast, hchain, hins, hiff⟩ :=
      member_comparison_iff (show cRelation .eqEq = some _ from rfl) rfl rfl rfl hwf
        (constantExpr_number _ _ (show parseNumber "5" = .ok 5 from rfl)) heval
    have hplace : loadPlace reqCompiler last = some (8, 0) := by
      obtain rfl := Option.some.inj hlast
      rfl
    exact ⟨_, _, p.1, p.2, last, g₁, frag, rfl, rfl, hlast, hplace, hchain, hins, hiff.mpr (hplace ▸ hagrees)⟩

end Bpfsnoop.CC
