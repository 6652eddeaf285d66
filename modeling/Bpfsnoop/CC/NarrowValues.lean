/-
Bpfsnoop.CC.NarrowValues — operators on operands of any width.

A constant that meets a register is cut to the width of the register's
type before the operator runs (`adjustNum`). For shifts and products, and
for the truth value of a constant, the bits cut off may matter.
-/
import Bpfsnoop.CC.OperatorValues

namespace Bpfsnoop.CC

open Ebpf Btf Reg

/-! ## Constants cut to a width -/

/-- A register of an unsigned integer type of `bytes` bytes. -/
structure Unsigned (bytes : Nat) (v : EvalValue) : Prop where
  typ : v.typ = .regBtf
  int : ∃ name, v.btf.map underlyingType = some (.int name bytes .unsigned)
  width : bytes = 1 ∨ bytes = 2 ∨ bytes = 4 ∨ bytes = 8
  whole : ∀ m, v.mem = some m → m.bitfieldSize = 0

namespace Unsigned

variable {heap : Heap} {bytes : Nat} {v : EvalValue}

theorem canCalculate (h : Unsigned bytes v) : canCalculate v.btf = true := by
  obtain ⟨name, hint⟩ := h.int
  simp [CC.canCalculate, hint]

theorem sizeof (h : Unsigned bytes v) : sizeofOpt heap v.btf = bytes := by
  obtain ⟨name, hint⟩ := h.int
  obtain ⟨t, ht, hund⟩ := Option.map_eq_some_iff.mp hint
  simp [sizeofOpt, ht, ← sizeof_underlyingType heap t, hund, Btf.sizeof]

theorem adjustNum_toNat (h : Unsigned bytes v) (n : Word) :
    (adjustNum heap n v).toNat = n.toNat % 2 ^ (8 * bytes) := by
  have hbits : adjustNum heap n v = adjustNum.bySize heap n v := by
    unfold adjustNum
    rw [if_neg (not_not.mpr h.typ)]
    cases hmem : v.mem with
    | none => rfl
    | some m => simp [h.whole m hmem]
  have hn := n.isLt
  rw [hbits, adjustNum.bySize, h.sizeof]
  rcases h.width with rfl | rfl | rfl | rfl
  · exact (BitVec.toNat_and ..).trans (Nat.and_two_pow_sub_one_eq_mod n.toNat 8)
  · exact (BitVec.toNat_and ..).trans (Nat.and_two_pow_sub_one_eq_mod n.toNat 16)
  · exact (BitVec.toNat_and ..).trans (Nat.and_two_pow_sub_one_eq_mod n.toNat 32)
  · exact (Nat.mod_eq_of_lt hn).symm

end Unsigned

/-! ## Shifts and products -/

/-- `<<`, `>>` and `*` on words. -/
def scaling : BinOp → Option (Word → Word → Word)
  | .lsh => some fun a b => a <<< b.toNat
  | .rsh => some fun a b => a >>> b.toNat
  | .mul => some (· * ·)
  | _ => none

/-- A run-time operand of a shift or a product: a register, or a constant
of 31 bits. -/
def Val.Small (a : Val) : Prop := a.typ = .regBtf ∨ a.typ = .num ∧ a.word.toNat < 2 ^ 31

section Scaling

variable {heap : Heap} {op : BinOp} {l r v : EvalValue} {g g' : Gen}

theorem int32_of_small {w : Word} (h : w.toNat < 2 ^ 31) : int32 w = w := by
  have hc : Const31 { typ := .num, num := w } := ⟨rfl, h⟩
  exact hc.const32.int32_eq

theorem mulConst_word {a b : Val} (ha : a.typ = .num) (hw : a.word.toNat < 2 ^ 31) (hb : b.typ = .regBtf) :
    ((mulConstSem a b).typ = .num ∨ (mulConstSem a b).typ = .regBtf) ∧
      (mulConstSem a b).word = a.word * b.word := by
  unfold mulConstSem
  by_cases hzero : a.word = 0
  · rw [if_pos hzero, hzero]
    exact ⟨.inl ha, (BitVec.zero_mul).symm⟩
  · rw [if_neg hzero]
    by_cases hone : a.word = 1
    · rw [if_pos hone, hone]
      exact ⟨.inr hb, (BitVec.one_mul _).symm⟩
    · rw [if_neg hone, int32_of_small hw, BitVec.mul_comm]
      exact ⟨.inr hb, rfl⟩

theorem mul_word {a b : Val} (ha : a.Small) (hb : b.Small) :
    ∃ x, opSem heap .mul a b = .ok x ∧ (x.typ = .num ∨ x.typ = .regBtf) ∧ x.word = a.word * b.word := by
  show ∃ x, shaped a b (.ok (a.set (a.word * b.word))) (.ok (a.set (a.word * b.word)))
    (.ok (mulConstSem a b)) (.ok (mulConstSem b a)) = .ok x ∧ _
  rcases ha with ha | ⟨ha, haw⟩ <;> rcases hb with hb | ⟨hb, hbw⟩
  · exact ⟨_, shaped_rr ha hb, .inr ha, rfl⟩
  · obtain ⟨hres, hw⟩ := mulConst_word hb hbw ha
    exact ⟨_, shaped_rn ha hb, hres, hw.trans (BitVec.mul_comm ..)⟩
  · obtain ⟨hres, hw⟩ := mulConst_word ha haw hb
    exact ⟨_, shaped_nr ha hb, hres, hw⟩
  · exact ⟨_, shaped_nn ha hb, .inl ha, rfl⟩

/-- A shift by up to 63 bits; `fold` and `aluOp` agree on what it means. -/
theorem shift_word (shift : Word → Nat → Word) {fold : Word → Nat → Word} {aluOp : AluOp} {a b : Val}
    (hzero : ∀ n, shift 0 n = 0) (hnone : ∀ w, shift w 0 = w)
    (halu : ∀ w n : Word, n.toNat < 64 → aluOp.eval w n = shift w n.toNat)
    (hfold : ∀ (w : Word) n, w.toNat < 2 ^ 31 → fold w n = shift w n)
    (ha : a.Small) (hb : b.Small) (hcount : b.word.toNat < 64) :
    ∃ x, shiftSem fold aluOp a b = .ok x ∧ (x.typ = .num ∨ x.typ = .regBtf) ∧
      x.word = shift a.word b.word.toNat := by
  have hpos : b.word.slt 0 = false := by
    rw [BitVec.slt_eq_decide, decide_eq_false_iff_not, BitVec.toInt_eq_toNat_cond]
    rw [if_pos (by omega)]
    simp
  have hcount32 : int32 b.word = b.word := int32_of_small (by omega)
  unfold shiftSem
  rcases ha with ha | ⟨ha, haw⟩ <;> rcases hb with hb | ⟨hb, -⟩
  · exact ⟨_, shaped_rr ha hb, .inr ha, halu _ _ hcount⟩
  · rw [shaped_rn ha hb, if_neg (by rw [hpos]; decide)]
    refine ⟨_, rfl, ?_, ?_⟩
    · split <;> exact .inr ha
    · by_cases hz : b.word = 0
      · rw [if_pos hz, hz]
        exact (hnone _).symm
      · rw [if_neg hz, hcount32]
        exact halu _ _ hcount
  · rw [shaped_nr ha hb]
    refine ⟨_, rfl, ?_, ?_⟩
    · split
      · exact .inl ha
      · exact .inr rfl
    · by_cases hz : a.word = 0
      · rw [if_pos hz, hz]
        exact (hzero _).symm
      · rw [if_neg hz, int32_of_small haw]
        exact halu _ _ hcount
  · rw [shaped_nn ha hb]
    have hn : shiftCount b.word = .ok b.word.toNat := by
      rw [shiftCount, hpos]
      rfl
    exact ⟨a.set (fold a.word b.word.toNat), by rw [hn], .inl ha, hfold _ _ haw⟩

theorem scaling_word (heap : Heap) {fold : Word → Word → Word} (hop : scaling op = some fold) {a b : Val}
    (ha : a.Small) (hb : b.Small) (hcount : op ≠ .mul → b.word.toNat < 64) :
    ∃ x, opSem heap op a b = .ok x ∧ (x.typ = .num ∨ x.typ = .regBtf) ∧ x.word = fold a.word b.word := by
  cases op <;> simp only [scaling, Option.some.injEq, reduceCtorEq] at hop
  all_goals subst hop
  case mul => exact mul_word ha hb
  case lsh =>
    refine shift_word (· <<< ·) (fun n => ?_) (fun w => ?_) (fun w n hn => ?_) (fun _ _ _ => rfl)
      ha hb (hcount (by decide))
    · simp
    · simp
    · rw [AluOp.eval, Nat.mod_eq_of_lt hn]
  case rsh =>
    refine shift_word (· >>> ·) (fun n => ?_) (fun w => ?_) (fun w n hn => ?_) (fun w n hw => ?_)
      ha hb (hcount (by decide))
    · simp
    · simp
    · rw [AluOp.eval, Nat.mod_eq_of_lt hn]
    · refine BitVec.sshiftRight_eq_of_msb_false ?_
      rw [BitVec.msb_eq_decide, decide_eq_false_iff_not]
      omega

/-! ### When the bits of a constant matter -/

/-- The bits of the constant `n` from the width `w` on change the result
with the register value `x`. -/
def Matters (op : BinOp) (n w x : Nat) : Prop :=
  2 ^ w ≤ n ∧
    match op with
    | .mul => x ≠ 0
    | .lsh => ¬ 2 ^ 64 ∣ n / 2 ^ w * 2 ^ (w + x)
    | .rsh => 2 ^ x ≤ n
    | _ => False

theorem mul_mod_iff {n w x : Nat} (hn : n < 2 ^ 31) (hx : x < 2 ^ w) (hw : w = 8 ∨ w = 16 ∨ w = 32 ∨ w = 64) :
    n % 2 ^ w * x % 2 ^ 64 = n * x % 2 ^ 64 ↔ ¬ Matters .mul n w x := by
  simp only [Matters]
  by_cases hlt : n < 2 ^ w
  · rw [Nat.mod_eq_of_lt hlt]
    exact iff_of_true rfl fun h => absurd h.1 (by omega)
  · have hsmall : w ≤ 16 := by
      rcases hw with rfl | rfl | rfl | rfl <;> omega
    have hx16 : x < 2 ^ 16 := hx.trans_le (Nat.pow_le_pow_right (by decide) hsmall)
    have hfit : n * x < 2 ^ 64 := by
      calc n * x < 2 ^ 31 * 2 ^ 16 := Nat.mul_lt_mul'' hn hx16
        _ ≤ 2 ^ 64 := by decide
    have hle : n % 2 ^ w * x ≤ n * x := Nat.mul_le_mul_right x (Nat.mod_le n _)
    have hmod : n % 2 ^ w < n := (Nat.mod_lt n (Nat.two_pow_pos _)).trans_le (by omega)
    rw [Nat.mod_eq_of_lt (hle.trans_lt hfit), Nat.mod_eq_of_lt hfit]
    constructor
    · rintro heq ⟨_, hx0⟩
      exact absurd (Nat.eq_of_mul_eq_mul_right (Nat.pos_of_ne_zero hx0) heq) hmod.ne
    · intro h
      have hx0 : x = 0 := by
        by_contra hx0
        exact h ⟨by omega, hx0⟩
      rw [hx0, Nat.mul_zero, Nat.mul_zero]

theorem shiftLeft_mod_iff (n w x : Nat) :
    n % 2 ^ w * 2 ^ x % 2 ^ 64 = n * 2 ^ x % 2 ^ 64 ↔ ¬ Matters .lsh n w x := by
  have hsplit : n * 2 ^ x = n / 2 ^ w * 2 ^ (w + x) + n % 2 ^ w * 2 ^ x := by
    calc n * 2 ^ x = (2 ^ w * (n / 2 ^ w) + n % 2 ^ w) * 2 ^ x := by rw [Nat.div_add_mod]
      _ = n / 2 ^ w * 2 ^ (w + x) + n % 2 ^ w * 2 ^ x := by
        rw [Nat.add_mul, Nat.pow_add, Nat.mul_comm (2 ^ w), Nat.mul_assoc]
  have hdvd : n % 2 ^ w * 2 ^ x % 2 ^ 64 = n * 2 ^ x % 2 ^ 64 ↔ 2 ^ 64 ∣ n / 2 ^ w * 2 ^ (w + x) := by
    rw [show n % 2 ^ w * 2 ^ x % 2 ^ 64 = n * 2 ^ x % 2 ^ 64 ↔
      n % 2 ^ w * 2 ^ x ≡ n * 2 ^ x [MOD 2 ^ 64] from Iff.rfl,
      Nat.modEq_iff_dvd' (by rw [hsplit]; exact Nat.le_add_left _ _)]
    rw [hsplit, Nat.add_sub_cancel]
  rw [hdvd]
  simp only [Matters]
  constructor
  · intro h hm
    exact hm.2 h
  · intro h
    by_contra hnd
    refine h ⟨?_, hnd⟩
    by_contra hlt
    rw [Nat.div_eq_of_lt (by omega), Nat.zero_mul] at hnd
    exact hnd (Nat.dvd_zero _)

theorem shiftRight_mod_iff (n w x : Nat) : n % 2 ^ w / 2 ^ x = n / 2 ^ x ↔ ¬ Matters .rsh n w x := by
  simp only [Matters]
  by_cases hlt : n < 2 ^ w
  · rw [Nat.mod_eq_of_lt hlt]
    exact iff_of_true rfl fun h => absurd h.1 (by omega)
  · have hmod : n % 2 ^ w < 2 ^ w := Nat.mod_lt n (Nat.two_pow_pos _)
    by_cases hx : 2 ^ x ≤ n
    · refine iff_of_false (fun heq => ?_) fun h => h ⟨by omega, hx⟩
      -- one quotient is below the other
      rcases Nat.le_total w x with hwx | hxw
      · have hle : 2 ^ w ≤ 2 ^ x := Nat.pow_le_pow_right (by decide) hwx
        rw [Nat.div_eq_of_lt (hmod.trans_le hle)] at heq
        have hpos := Nat.div_pos hx (Nat.two_pow_pos _)
        omega
      · have hsplit : n / 2 ^ x = n / 2 ^ w * 2 ^ (w - x) + n % 2 ^ w / 2 ^ x := by
          have hn : n = n / 2 ^ w * 2 ^ (w - x) * 2 ^ x + n % 2 ^ w := by
            rw [Nat.mul_assoc, ← Nat.pow_add, Nat.sub_add_cancel hxw, Nat.mul_comm, Nat.div_add_mod]
          conv_lhs => rw [hn]
          rw [Nat.add_comm, Nat.add_mul_div_right _ _ (Nat.two_pow_pos _), Nat.add_comm]
        have hq : 0 < n / 2 ^ w := Nat.div_pos (by omega) (Nat.two_pow_pos _)
        have hprod : 0 < n / 2 ^ w * 2 ^ (w - x) := Nat.mul_pos hq (Nat.two_pow_pos _)
        omega
    · have hn : n < 2 ^ x := by omega
      rw [Nat.div_eq_of_lt hn, Nat.div_eq_of_lt ((Nat.mod_le n _).trans_lt hn)]
      exact iff_of_true rfl fun h => hx h.2

end Scaling

/-- A register of an unsigned integer type, which holds a zero-extended
value of that type. -/
def Narrow (v : EvalValue) (regs : Reg → Word) : Prop :=
  ∃ bytes, Unsigned bytes v ∧ (regs v.reg).toNat < 2 ^ (8 * bytes)

/-- Bits that matter are cut off the constant `c`, which meets the
register `x`. -/
def Truncated (heap : Heap) (op : BinOp) (c x : EvalValue) (regs : Reg → Word) : Prop :=
  c.typ = .num ∧ x.typ = .regBtf ∧
    Matters op c.num.toNat (8 * sizeofOpt heap x.btf) (regs x.reg).toNat

section Scaled

variable {heap : Heap} {op : BinOp} {l r v : EvalValue} {g g' : Gen} {regs : Reg → Word}

theorem Narrow.calculable (h : Narrow v regs ∨ Const31 v) : Calculable v := by
  rcases h with ⟨bytes, h, -⟩ | h
  · exact .inl ⟨h.typ, h.canCalculate⟩
  · exact .inr h.typ

theorem adjust_reg (hl : l.typ = .regBtf) (b : Val) : (l.at regs).adjust heap b = l.at regs := if_pos hl

theorem adjust_narrow (heap : Heap) (regs : Reg → Word) {bytes : Nat} (hl : l.typ = .num) (hr : Unsigned bytes r) :
    ((l.at regs).adjust heap (r.at regs)).typ = .num ∧
      ((l.at regs).adjust heap (r.at regs)).word.toNat = l.num.toNat % 2 ^ (8 * bytes) := by
  have hadj : (l.at regs).adjust heap (r.at regs) = { l.at regs with word := adjustNum heap l.num r } := by
    rw [Val.adjust, if_neg (by simp [hl]), adjustNum_ref, at_word_num hl]
  rw [hadj]
  exact ⟨hl, hr.adjustNum_toNat _⟩

/-- What `preHandleBinaryOp` makes of an operand of a shift or product. -/
theorem adjust_small (heap : Heap) (hl : Narrow l regs ∨ Const31 l) (hr : Narrow r regs ∨ Const31 r) :
    ((l.at regs).adjust heap (r.at regs)).Small ∧
      ((l.at regs).adjust heap (r.at regs)).word.toNat ≤ (l.at regs).word.toNat := by
  rcases hl with ⟨_, hl, -⟩ | hl
  · rw [adjust_reg hl.typ]
    exact ⟨.inl hl.typ, Nat.le_refl _⟩
  · rcases hr with ⟨bytes, hr, -⟩ | hr
    · obtain ⟨htyp, hword⟩ := adjust_narrow heap regs hl.typ hr
      have hle := Nat.mod_le l.num.toNat (2 ^ (8 * bytes))
      rw [hword, at_word_num hl.typ]
      refine ⟨.inr ⟨htyp, ?_⟩, hle⟩
      rw [hword]
      exact hle.trans_lt hl.bound
    · rw [adjust_wide (.inr hr.typ)]
      refine ⟨.inr ⟨hl.typ, ?_⟩, Nat.le_refl _⟩
      rw [at_word_num hl.typ]
      exact hl.bound

/-- The operator on a constant that was cut, and on the whole one. -/
theorem scaling_cut_iff {fold : Word → Word → Word} (hop : scaling op = some fold) {n n' x : Word} {bytes : Nat}
    (hwidth : bytes = 1 ∨ bytes = 2 ∨ bytes = 4 ∨ bytes = 8) (hn : n.toNat < 2 ^ 31)
    (hn' : n'.toNat = n.toNat % 2 ^ (8 * bytes)) (hx : x.toNat < 2 ^ (8 * bytes)) :
    fold n' x = fold n x ↔ ¬ Matters op n.toNat (8 * bytes) x.toNat := by
  cases op <;> simp only [scaling, Option.some.injEq, reduceCtorEq] at hop
  all_goals
    subst hop
    rw [← BitVec.toNat_inj]
  case mul =>
    rw [BitVec.toNat_mul, BitVec.toNat_mul, hn']
    exact mul_mod_iff hn hx (by omega)
  case lsh =>
    rw [BitVec.toNat_shiftLeft, BitVec.toNat_shiftLeft, Nat.shiftLeft_eq, Nat.shiftLeft_eq, hn']
    exact shiftLeft_mod_iff _ _ _
  case rsh =>
    rw [BitVec.toNat_ushiftRight, BitVec.toNat_ushiftRight, Nat.shiftRight_eq_div_pow,
      Nat.shiftRight_eq_div_pow, hn']
    exact shiftRight_mod_iff _ _ _

/-- A shift count is too small to be cut. -/
theorem scaling_cut_right_iff {fold : Word → Word → Word} (hop : scaling op = some fold) {n n' x : Word}
    {bytes : Nat} (hwidth : bytes = 1 ∨ bytes = 2 ∨ bytes = 4 ∨ bytes = 8) (hn : n.toNat < 2 ^ 31)
    (hn' : n'.toNat = n.toNat % 2 ^ (8 * bytes)) (hx : x.toNat < 2 ^ (8 * bytes))
    (hcount : op ≠ .mul → n.toNat < 64) :
    fold x n' = fold x n ↔ ¬ Matters op n.toNat (8 * bytes) x.toNat := by
  by_cases hmul : op = .mul
  · have hcomm : ∀ w, fold x w = fold w x := by
      intro w
      subst hmul
      obtain rfl : (· * ·) = fold := by simpa [scaling] using hop
      exact BitVec.mul_comm x w
    rw [hcomm, hcomm]
    exact scaling_cut_iff hop hwidth hn hn' hx
  · have hlt : n.toNat < 2 ^ (8 * bytes) := by
      calc n.toNat < 2 ^ 8 := (hcount hmul).trans (by decide)
        _ ≤ 2 ^ (8 * bytes) := Nat.pow_le_pow_right (by decide) (by omega)
    rw [Nat.mod_eq_of_lt hlt] at hn'
    rw [BitVec.eq_of_toNat_eq hn']
    exact iff_of_true rfl fun hm => absurd hm.1 (Nat.not_le.mpr hlt)

/-- Only a constant is cut, and only where it meets a register. -/
theorem not_truncated {c x : EvalValue} (h : c.typ ≠ .num ∨ x.typ ≠ .regBtf) : ¬ Truncated heap op c x regs := by
  intro ht
  rcases h with h | h
  · exact h ht.1
  · exact h ht.2.1

theorem truncated_iff {c x : EvalValue} {bytes : Nat} (hc : c.typ = .num) (hx : Unsigned bytes x) :
    Truncated heap op c x regs ↔ Matters op c.num.toNat (8 * bytes) (regs x.reg).toNat := by
  unfold Truncated
  rw [hx.sizeof]
  simp only [hc, hx.typ, true_and]

/-- **Shifts and products** of unsigned operands leave their value on 64
bits, unless the constant loses bits that matter. -/
theorem scaling_iff {fold : Word → Word → Word} (hop : scaling op = some fold)
    (h : Applied heap op l r g v g') (K : Kernel) (s : State) (hl : Narrow l s.regs ∨ Const31 l)
    (hr : Narrow r s.regs ∨ Const31 r) (hcount : op ≠ .mul → (r.at s.regs).word.toNat < 64) :
    Yields g g' v K s (fold (l.at s.regs).word (r.at s.regs).word) ↔
      ¬ Truncated heap op l r s.regs ∧ ¬ Truncated heap op r l s.regs := by
  have hsem : binSem heap op (l.at s.regs) (r.at s.regs) = opSem heap op
      ((l.at s.regs).adjust heap (r.at s.regs)) ((r.at s.regs).adjust heap (l.at s.regs)) := by
    unfold binSem
    rw [preVal_calculable (Narrow.calculable hl) (Narrow.calculable hr)]
    rfl
  obtain ⟨hls, -⟩ := adjust_small heap hl hr
  obtain ⟨hrs, hrle⟩ := adjust_small heap hr hl
  obtain ⟨x, hx, hres, hxw⟩ := scaling_word heap hop hls hrs fun h => hrle.trans_lt (hcount h)
  rw [h.codeOk.yields_iff (hsem.trans hx) hres, hxw]
  rcases hl with ⟨k, hl, hlw⟩ | hl <;> rcases hr with ⟨k', hr, hrw⟩ | hr
  · rw [adjust_reg hl.typ, adjust_reg hr.typ]
    exact iff_of_true rfl ⟨not_truncated (.inl (by simp [hl.typ])), not_truncated (.inl (by simp [hr.typ]))⟩
  · -- a register and a constant
    obtain ⟨-, hcut⟩ := adjust_narrow heap s.regs hr.typ hl
    have hword : (r.at s.regs).word = r.num := at_word_num hr.typ s.regs
    rw [hword] at hcount
    rw [adjust_reg hl.typ, at_word_reg hl.typ, hword, truncated_iff hr.typ hl,
      scaling_cut_right_iff hop hl.width hr.bound hcut hlw hcount]
    exact (and_iff_right (not_truncated (.inl (by simp [hl.typ])))).symm
  · -- a constant and a register
    obtain ⟨-, hcut⟩ := adjust_narrow heap s.regs hl.typ hr
    rw [adjust_reg hr.typ, at_word_reg hr.typ, at_word_num hl.typ, truncated_iff hl.typ hr,
      scaling_cut_iff hop hr.width hl.bound hcut hrw]
    exact (and_iff_left (not_truncated (.inl (by simp [hr.typ])))).symm
  · rw [adjust_wide (.inr hr.typ), adjust_wide (.inr hl.typ)]
    exact iff_of_true rfl ⟨not_truncated (.inr (by simp [hr.typ])), not_truncated (.inr (by simp [hl.typ]))⟩

end Scaled

/-! ### A constant wider than the register

`x * 300` on a byte `x` is compiled to `x * 44`. -/

/-- A byte in a register. -/
def u8In (reg : Reg) : EvalValue := { typ := .regBtf, reg := reg, btf := some (.int "u8" 1 .unsigned) }

theorem unsigned_u8In (reg : Reg) : Unsigned 1 (u8In reg) :=
  ⟨rfl, ⟨"u8", rfl⟩, .inl rfl, fun m hm => by simp [u8In] at hm⟩

theorem applied_mul_wide : Applied noHeap .mul (u8In R8) (constant 300) twoUsed (u8In R8)
    { twoUsed with insns := [(Op.alu .mul R8 (.imm 44) : Insn)] } :=
  ⟨rfl, fun _ => ⟨rfl, by decide⟩, by simp [Owned, constant], by simp [Apart, constant]⟩

theorem wide_constant_truncated : Applied noHeap .mul (u8In R8) (constant 300) twoUsed (u8In R8)
      { twoUsed with insns := [(Op.alu .mul R8 (.imm 44) : Insn)] } ∧
    ¬ Yields twoUsed { twoUsed with insns := [(Op.alu .mul R8 (.imm 44) : Insn)] } (u8In R8)
      (onesKernel (.empty .probeRead)) (holding 2 0) (2 * 300) := by
  refine ⟨applied_mul_wide, fun hyields => ?_⟩
  have hword := (applied_mul_wide.codeOk.yields_iff
    (x := { typ := .regBtf, word := 88, btf := some (.int "u8" 1 .unsigned) }) rfl (.inr rfl) _).mp hyields
  exact absurd hword (by decide)

theorem wide_constant_iff : Yields twoUsed { twoUsed with insns := [(Op.alu .mul R8 (.imm 44) : Insn)] }
      (u8In R8) (onesKernel (.empty .probeRead)) (holding 2 0) (2 * 300) ↔
    ¬ Truncated noHeap .mul (u8In R8) (constant 300) (holding 2 0).regs ∧
      ¬ Truncated noHeap .mul (constant 300) (u8In R8) (holding 2 0).regs :=
  scaling_iff rfl applied_mul_wide _ _ (.inl ⟨1, unsigned_u8In R8, by decide⟩) (.inr ⟨rfl, by decide⟩)
    fun h => absurd rfl h

/-! ## Logical operators -/

def logical : BinOp → Option (Bool → Bool → Bool)
  | .andAnd => some (· && ·)
  | .orOr => some (· || ·)
  | _ => none

/-- The constant `c`, which meets the register `x`, is cut to 0, and the
result turns on it. -/
def TruthLost (heap : Heap) (op : BinOp) (c x : EvalValue) (regs : Reg → Word) : Prop :=
  c.typ = .num ∧ x.typ = .regBtf ∧ c.num ≠ 0 ∧ adjustNum heap c.num x = 0 ∧
    (op = .andAnd ↔ regs x.reg ≠ 0)

section Logical

variable {heap : Heap} {op : BinOp} {l r v : EvalValue} {g g' : Gen} {regs : Reg → Word}

theorem logical_word (heap : Heap) {fold : Bool → Bool → Bool} (hop : logical op = some fold) {a b : Val}
    (ha : a.typ = .regBtf ∨ a.typ = .num) (hb : b.typ = .regBtf ∨ b.typ = .num) :
    ∃ x, opSem heap op a b = .ok x ∧ (x.typ = .num ∨ x.typ = .regBtf) ∧
      x.word = bool2int (fold (a.word ≠ 0) (b.word ≠ 0)) := by
  cases op <;> simp only [logical, Option.some.injEq, reduceCtorEq] at hop
  all_goals subst hop
  case andAnd =>
    show ∃ x, shaped a b (.ok (a.set (bool2int (a.word ≠ 0 && b.word ≠ 0))))
      (.ok (a.set (bool2int (a.word ≠ 0 && b.word ≠ 0))))
      (.ok (if a.word = 0 then a else b.set (bool2int (b.word ≠ 0))))
      (.ok (if b.word = 0 then b else a.set (bool2int (a.word ≠ 0)))) = .ok x ∧
      (x.typ = .num ∨ x.typ = .regBtf) ∧ x.word = bool2int (a.word ≠ 0 && b.word ≠ 0)
    rcases ha with ha | ha <;> rcases hb with hb | hb
    · exact ⟨_, shaped_rr ha hb, .inr ha, rfl⟩
    · refine ⟨_, shaped_rn ha hb, by split; exacts [.inl hb, .inr ha], ?_⟩
      by_cases hz : b.word = 0
      · rw [if_pos hz, decide_eq_false (not_not.mpr hz), Bool.and_false, hz]
        rfl
      · rw [if_neg hz, decide_eq_true hz, Bool.and_true]
        rfl
    · refine ⟨_, shaped_nr ha hb, by split; exacts [.inl ha, .inr hb], ?_⟩
      by_cases hz : a.word = 0
      · rw [if_pos hz, decide_eq_false (not_not.mpr hz), Bool.false_and, hz]
        rfl
      · rw [if_neg hz, decide_eq_true hz, Bool.true_and]
        rfl
    · exact ⟨_, shaped_nn ha hb, .inl ha, rfl⟩
  case orOr =>
    show ∃ x, shaped a b (.ok (a.set (bool2int (a.word ≠ 0 || b.word ≠ 0))))
      (.ok (a.set (bool2int (a.word ≠ 0 || b.word ≠ 0))))
      (.ok (if a.word ≠ 0 then a.set 1 else b.set (bool2int (b.word ≠ 0))))
      (.ok (if b.word ≠ 0 then b.set 1 else a.set (bool2int (a.word ≠ 0)))) = .ok x ∧
      (x.typ = .num ∨ x.typ = .regBtf) ∧ x.word = bool2int (a.word ≠ 0 || b.word ≠ 0)
    rcases ha with ha | ha <;> rcases hb with hb | hb
    · exact ⟨_, shaped_rr ha hb, .inr ha, rfl⟩
    · refine ⟨_, shaped_rn ha hb, by split; exacts [.inl hb, .inr ha], ?_⟩
      by_cases hz : b.word = 0
      · rw [if_neg (not_not.mpr hz), decide_eq_false (not_not.mpr hz), Bool.or_false]
        rfl
      · rw [if_pos hz, decide_eq_true hz, Bool.or_true]
        rfl
    · refine ⟨_, shaped_nr ha hb, by split; exacts [.inl ha, .inr hb], ?_⟩
      by_cases hz : a.word = 0
      · rw [if_neg (not_not.mpr hz), decide_eq_false (not_not.mpr hz), Bool.false_or]
        rfl
      · rw [if_pos hz, decide_eq_true hz, Bool.true_or]
        rfl
    · exact ⟨_, shaped_nn ha hb, .inl ha, rfl⟩

theorem adjustNum_zero (heap : Heap) (x : EvalValue) : adjustNum heap 0 x = 0 := by
  have hsize : adjustNum.bySize heap 0 x = 0 := by
    unfold adjustNum.bySize
    split <;> simp
  unfold adjustNum
  split
  · rfl
  · split
    · split
      · exact BitVec.zero_and
      · exact hsize
    · exact hsize

theorem not_truthLost {c x : EvalValue} (h : c.typ ≠ .num ∨ x.typ ≠ .regBtf) : ¬ TruthLost heap op c x regs := by
  intro ht
  rcases h with h | h
  · exact h ht.1
  · exact h ht.2.1

theorem logical_comm {fold : Bool → Bool → Bool} (hop : logical op = some fold) (p q : Bool) :
    fold p q = fold q p := by
  cases op <;> simp only [logical, Option.some.injEq, reduceCtorEq] at hop
  all_goals subst hop
  · exact Bool.and_comm p q
  · exact Bool.or_comm p q

/-- The truth value of a constant that meets a register. -/
theorem logical_cut_iff {fold : Bool → Bool → Bool} (hop : logical op = some fold) {c x : EvalValue}
    (hc : c.typ = .num) (hx : x.typ = .regBtf) :
    fold (adjustNum heap c.num x ≠ 0) (regs x.reg ≠ 0) = fold (c.num ≠ 0) (regs x.reg ≠ 0) ↔
      ¬ TruthLost heap op c x regs := by
  unfold TruthLost
  simp only [hc, hx, true_and]
  by_cases hz : c.num = 0
  · rw [hz, adjustNum_zero]
    exact iff_of_true rfl fun h => h.1 rfl
  · by_cases hcut : adjustNum heap c.num x = 0
    · simp only [hcut, hz, ne_eq, not_true_eq_false, not_false_eq_true, decide_true, decide_false, true_and]
      cases op <;> simp only [logical, Option.some.injEq, reduceCtorEq] at hop
      all_goals subst hop
      case andAnd => by_cases hr : regs x.reg = 0 <;> simp [hr]
      case orOr => by_cases hr : regs x.reg = 0 <;> simp [hr]
    · simp only [hcut, hz, ne_eq, not_false_eq_true, decide_true, false_and, and_false]

/-- **The logical operators** leave 0 or 1, the truth value of the
operands, unless a constant loses its truth value to the width of the
register and the result turns on it. -/
theorem logical_values (heap : Heap) (g g' : Gen) (v : EvalValue) (K : Kernel) (s : State) :
    (∀ op fold l r, logical op = some fold → Applied heap op l r g v g' → Calculable l → Calculable r →
      (Yields g g' v K s (bool2int (fold ((l.at s.regs).word ≠ 0) ((r.at s.regs).word ≠ 0))) ↔
        ¬ TruthLost heap op l r s.regs ∧ ¬ TruthLost heap op r l s.regs)) ∧
    ∀ u, AppliedUn .not u g v g' → Calculable u →
      Yields g g' v K s (bool2int ((u.at s.regs).word = 0)) := by
  constructor
  · intro op fold l r hop h hl hr
    have hsem : binSem heap op (l.at s.regs) (r.at s.regs) = opSem heap op
        ((l.at s.regs).adjust heap (r.at s.regs)) ((r.at s.regs).adjust heap (l.at s.regs)) := by
      unfold binSem
      rw [preVal_calculable hl hr]
      rfl
    have htyp {a b : EvalValue} (ha : Calculable a) : ((a.at s.regs).adjust heap (b.at s.regs)).typ = .regBtf ∨
        ((a.at s.regs).adjust heap (b.at s.regs)).typ = .num := by
      rcases ha with ⟨ha, -⟩ | ha
      · rw [adjust_reg ha]
        exact .inl ha
      · rw [Val.adjust, if_neg (by simp [ha])]
        exact .inr ha
    have hcut {c x : EvalValue} (hc : c.typ = .num) :
        ((c.at s.regs).adjust heap (x.at s.regs)).word = adjustNum heap c.num x := by
      rw [Val.adjust, if_neg (by simp [hc]), adjustNum_ref, at_word_num hc]
    obtain ⟨x, hx, hres, hxw⟩ := logical_word heap hop (htyp hl) (htyp hr)
    rw [h.codeOk.yields_iff (hsem.trans hx) hres, hxw, bool2int_inj]
    rcases hl with ⟨hl, -⟩ | hl <;> rcases hr with ⟨hr, -⟩ | hr
    · rw [adjust_reg hl, adjust_reg hr]
      exact iff_of_true rfl ⟨not_truthLost (.inl (by simp [hl])), not_truthLost (.inl (by simp [hr]))⟩
    · rw [adjust_reg hl, hcut hr, at_word_reg hl, at_word_num hr, logical_comm hop _ (adjustNum heap r.num l ≠ 0),
        logical_comm hop _ (r.num ≠ 0), logical_cut_iff hop hr hl]
      exact (and_iff_right (not_truthLost (.inl (by simp [hl])))).symm
    · rw [adjust_reg hr, hcut hl, at_word_reg hr, at_word_num hl, logical_cut_iff hop hl hr]
      exact (and_iff_left (not_truthLost (.inl (by simp [hr])))).symm
    · rw [adjust_wide (.inr hr), adjust_wide (.inr hl)]
      exact iff_of_true rfl ⟨not_truthLost (.inr (by simp [hr])), not_truthLost (.inr (by simp [hl]))⟩
  · intro u h hu
    have hx : ∃ x, unSem .not (u.at s.regs) = .ok x ∧ (x.typ = .num ∨ x.typ = .regBtf) ∧
        x.word = bool2int ((u.at s.regs).word = 0) := by
      rcases hu with ⟨hu, hcalc⟩ | hu
      · exact ⟨_, by simp only [unSem, unarySem, at_typ, at_btf, hu, hcalc, if_true]; rfl, .inr hu, rfl⟩
      · exact ⟨_, by simp only [unSem, unarySem, at_typ, hu]; rfl, .inl hu, rfl⟩
    obtain ⟨x, hx, hres, hxw⟩ := hx
    exact (h.codeOk.yields_iff hx hres _).mpr hxw

end Logical

/-! ### A constant cut to 0

`x && 256` on a byte `x` is compiled to the constant 0. -/

theorem applied_and_wide : Applied noHeap .andAnd (u8In R8) (constant 256) twoUsed (constant 0) oneUsed :=
  ⟨rfl, fun _ => ⟨rfl, by decide⟩, by simp [Owned, constant], by simp [Apart, constant]⟩

theorem truth_cut_off : Applied noHeap .andAnd (u8In R8) (constant 256) twoUsed (constant 0) oneUsed ∧
    ¬ Yields twoUsed oneUsed (constant 0) (onesKernel (.empty .probeRead)) (holding 1 0)
      (bool2int ((1 : Word) ≠ 0 && (256 : Word) ≠ 0)) := by
  refine ⟨applied_and_wide, fun hyields => ?_⟩
  have hword := (applied_and_wide.codeOk.yields_iff (x := { typ := .num, word := 0 }) rfl (.inl rfl) _).mp hyields
  exact absurd hword (by decide)

theorem zero_and_wide_iff :
    Yields twoUsed oneUsed (constant 0) (onesKernel (.empty .probeRead)) (holding 0 0)
        (bool2int ((0 : Word) ≠ 0 && (256 : Word) ≠ 0)) ↔
      ¬ TruthLost noHeap .andAnd (u8In R8) (constant 256) (holding 0 0).regs ∧
        ¬ TruthLost noHeap .andAnd (constant 256) (u8In R8) (holding 0 0).regs :=
  (logical_values noHeap twoUsed oneUsed (constant 0) (onesKernel (.empty .probeRead)) (holding 0 0)).1
    .andAnd _ (u8In R8) (constant 256) rfl applied_and_wide (.inl ⟨rfl, rfl⟩) (.inr rfl)

end Bpfsnoop.CC
