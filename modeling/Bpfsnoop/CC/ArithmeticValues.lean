/-
Bpfsnoop.CC.ArithmeticValues — the values of the arithmetic operators.

Division and remainder, addition and subtraction with the unary operators
that go with them, shifts and multiplication. As in `OperatorValues`, each
theorem compares the value an operator leaves with the one it should
leave, and gives the exact condition.
-/
import Bpfsnoop.CC.OperatorValues

namespace Bpfsnoop.CC

open Ebpf Btf Reg

/-! ## Division and remainder -/

/-- `/` and `%` on unsigned words, as the guards on a zero divisor intend:
the quotient is 0, the remainder the dividend. -/
def divide : BinOp → Option (Word → Word → Word)
  | .div => some fun a b => if b = 0 then 0 else a / b
  | .mod => some fun a b => if b = 0 then a else a % b
  | _ => none

/-- A constant of `/` or `%` is neither negative nor 0. -/
structure Divisible (v : EvalValue) : Prop extends Const31 v where
  ne_zero : v.num ≠ 0

section Division

variable {heap : Heap} {op : BinOp} {l r v : EvalValue} {g g' : Gen}

/-- A run-time operand of `/` or `%`. -/
def Val.Divisor (a : Val) : Prop := a.typ = .regBtf ∨ a.typ = .num ∧ int32 a.word = a.word ∧ a.word ≠ 0

theorem divisor_of_wide (h : Wide heap v ∨ Divisible v) (regs : Reg → Word) : (v.at regs).Divisor := by
  rcases h with h | h
  · exact .inl h.typ
  · refine .inr ⟨h.typ, ?_⟩
    rw [at_word_num h.typ]
    exact ⟨h.toConst31.const32.int32_eq, h.ne_zero⟩

theorem opSem_div {a b : Val} (hb : ¬ (b.typ = .num ∧ b.word = 0)) : opSem heap .div a b =
    shaped a b (.ok (a.set (a.word.sdiv b.word))) (.ok (a.set 0)) (.ok (b.fresh 0))
      (.ok (a.set (AluOp.div.eval a.word (int32 b.word)))) := if_neg hb

theorem opSem_mod {a b : Val} (hb : ¬ (b.typ = .num ∧ b.word = 0)) : opSem heap .mod a b =
    shaped a b (.ok (a.set (a.word.srem b.word))) (.ok (a.set (AluOp.mod.eval a.word b.word)))
      (.ok (if a.word = 0 then a else b.fresh (AluOp.mod.eval (int32 a.word) b.word)))
      (.ok (a.set (if b.word = 1 then 0 else AluOp.mod.eval a.word (int32 b.word)))) := if_neg hb

/-- A division by a register leaves 0, one by a constant the quotient. -/
theorem div_word (heap : Heap) {a b : Val} (ha : a.Divisor) (hb : b.Divisor) (hreg : a.typ = .regBtf ∨ b.typ = .regBtf) :
    ∃ x, opSem heap .div a b = .ok x ∧ x.typ = .regBtf ∧
      x.word = if b.typ = .regBtf then 0 else a.word / b.word := by
  rcases ha with ha | ⟨ha, ha32, -⟩ <;> rcases hb with hb | ⟨hb, hb32, hb0⟩
  · rw [opSem_div (by simp [hb]), shaped_rr ha hb]
    exact ⟨_, rfl, ha, by simp [hb, Val.set]⟩
  · rw [opSem_div fun h => hb0 h.2, shaped_rn ha hb]
    refine ⟨_, rfl, ha, ?_⟩
    rw [if_neg (by simp [hb]), hb32]
    exact if_neg hb0
  · rw [opSem_div (by simp [hb]), shaped_nr ha hb]
    exact ⟨_, rfl, rfl, by simp [hb, Val.fresh]⟩
  · simp [ha, hb] at hreg

theorem mod_word (heap : Heap) {a b : Val} (ha : a.Divisor) (hb : b.Divisor) (hreg : a.typ = .regBtf ∨ b.typ = .regBtf) :
    ∃ x, opSem heap .mod a b = .ok x ∧ x.typ = .regBtf ∧
      x.word = if b.word = 0 then a.word else a.word % b.word := by
  rcases ha with ha | ⟨ha, ha32, ha0⟩ <;> rcases hb with hb | ⟨hb, hb32, hb0⟩
  · rw [opSem_mod (by simp [hb]), shaped_rr ha hb]
    exact ⟨_, rfl, ha, rfl⟩
  · rw [opSem_mod fun h => hb0 h.2, shaped_rn ha hb]
    refine ⟨_, rfl, ha, ?_⟩
    rw [if_neg hb0, Val.set, hb32]
    by_cases hone : b.word = 1
    · rw [if_pos hone, hone]
      exact BitVec.umod_one.symm
    · rw [if_neg hone]
      exact if_neg hb0
  · rw [opSem_mod (by simp [hb]), shaped_nr ha hb]
    refine ⟨_, rfl, ?_, ?_⟩
    · rw [if_neg ha0]
      rfl
    · rw [if_neg ha0, Val.fresh, ha32]
      rfl
  · simp [ha, hb] at hreg

theorem quotient_zero_iff (a b : Word) : 0 = (if b = 0 then 0 else a / b) ↔ b = 0 ∨ a < b := by
  by_cases hb : b = 0
  · simp [hb]
  · have hpos : b.toNat ≠ 0 := fun h => hb (BitVec.eq_of_toNat_eq h)
    rw [if_neg hb, or_iff_right hb, eq_comm, ← BitVec.toNat_inj, BitVec.toNat_udiv, BitVec.lt_def]
    rw [show (0 : Word).toNat = 0 from rfl, Nat.div_eq_zero_iff]
    exact or_iff_right hpos

/-- **Division and remainder** of unsigned words leave their value in a
register, but a division by a register leaves 0. -/
theorem division_iff {fold : Word → Word → Word} (hop : divide op = some fold)
    (h : Applied heap op l r g v g') (hl : Wide heap l ∨ Divisible l) (hr : Wide heap r ∨ Divisible r)
    (hreg : l.typ = .regBtf ∨ r.typ = .regBtf) (K : Kernel) (s : State) :
    (v.typ = .regBtf ∧ Yields g g' v K s (fold (l.at s.regs).word (r.at s.regs).word)) ↔
      op = .mod ∨ r.typ = .num ∨ s.regs r.reg = 0 ∨ (l.at s.regs).word < s.regs r.reg := by
  have hsem := binSem_wide op (hl.imp_right fun h => h.typ) (hr.imp_right fun h => h.typ) s.regs
  have hla := divisor_of_wide hl s.regs
  have hra := divisor_of_wide hr s.regs
  cases op <;> simp only [divide, Option.some.injEq, reduceCtorEq] at hop
  case div =>
    subst hop
    obtain ⟨x, hx, hxt, hxw⟩ := div_word heap hla hra hreg
    rw [← hsem] at hx
    have hv : v.typ = .regBtf := (h.codeOk.typ_eq K hx).trans hxt
    rw [h.codeOk.yields_iff hx (.inr hxt), hxw]
    rcases hr with hr | hr
    · simp only [hv, true_and, hr.typ, at_typ, if_true, at_word_reg hr.typ, reduceCtorEq, false_or]
      exact quotient_zero_iff _ _
    · have hz : (r.at s.regs).word ≠ 0 := by
        rw [at_word_num hr.typ]
        exact hr.ne_zero
      rw [if_neg (by simp [hr.typ])]
      exact iff_of_true ⟨hv, (if_neg hz).symm⟩ (.inr (.inl hr.typ))
  case mod =>
    subst hop
    obtain ⟨x, hx, hxt, hxw⟩ := mod_word heap hla hra hreg
    rw [← hsem] at hx
    have hv : v.typ = .regBtf := (h.codeOk.typ_eq K hx).trans hxt
    rw [h.codeOk.yields_iff hx (.inr hxt)]
    exact iff_of_true ⟨hv, hxw⟩ (.inl rfl)

end Division

/-! ### A division that is skipped

The guard jumps to the division if the divisor is 0, and past the `mov`
to 0 and the division otherwise. -/

theorem register_division_is_zero : ∃ v g', Applied noHeap .div (u64In R8) (u64In R7) twoUsed v g' ∧
    ¬ (v.typ = .regBtf ∧ Yields twoUsed g' v (onesKernel (.empty .probeRead)) (holding 12 3) 4) := by
  have h : Applied noHeap .div (u64In R8) (u64In R7) twoUsed (u64In R8)
      { twoUsed with
        regalloc := twoUsed.regalloc.free R7
        insns := [(jmpOff .eq R7 0 2 : Insn), (Asm.movImm R8 0 : Insn), (ja 1 : Insn),
          (Op.alu .div R8 (.reg R7) : Insn)] } :=
    ⟨rfl, fun _ => ⟨rfl, by decide⟩, fun _ => ⟨rfl, by decide⟩, fun _ _ => by decide⟩
  refine ⟨_, _, h, fun hyields => ?_⟩
  have hword := (h.codeOk.yields_iff (x := { typ := .regBtf, word := 0, btf := some (.int "u64" 8 .unsigned) })
    rfl (.inr rfl) _).mp hyields.2
  exact absurd hword (by decide)

theorem register_remainder_iff : ∃ v g', (v.typ = .regBtf ∧
      Yields twoUsed g' v (onesKernel (.empty .probeRead)) (holding 12 5)
        (if (5 : Word) = 0 then 12 else 12 % 5)) ↔
    BinOp.mod = .mod ∨ (u64In R7).typ = .num ∨ (holding 12 5).regs R7 = 0 ∨ (12 : Word) < (holding 12 5).regs R7 := by
  have h : Applied noHeap .mod (u64In R8) (u64In R7) twoUsed (u64In R8)
      { twoUsed with
        regalloc := twoUsed.regalloc.free R7
        insns := [(jmpOff .eq R7 0 1 : Insn), (Op.alu .mod R8 (.reg R7) : Insn)] } :=
    ⟨rfl, fun _ => ⟨rfl, by decide⟩, fun _ => ⟨rfl, by decide⟩, fun _ _ => by decide⟩
  exact ⟨_, _, division_iff rfl h (.inl (wide_u64In _ _)) (.inl (wide_u64In _ _)) (.inl rfl) _ _⟩

/-! ## Addition and subtraction -/

/-- An operand of eight bytes that counts, no pointer. -/
structure WideInt (heap : Heap) (v : EvalValue) : Prop extends Wide heap v where
  int : isIntOrEnum v.btf = true

/-- `+` and `-` on words. -/
def additive : BinOp → Option (Word → Word → Word)
  | .add => some (· + ·)
  | .sub => some (· - ·)
  | _ => none

/-- The unary operators that go with them. -/
def successor : UnOp → Option (Word → Word)
  | .minus => some fun x => -x
  | .preInc => some fun x => x + 1
  | .preDec => some fun x => x - 1
  | _ => none

section Addition

variable {heap : Heap} {op : BinOp} {l r v : EvalValue} {g g' : Gen}

/-- A run-time operand of `+` and `-` that counts. -/
structure Val.Counts (a : Val) : Prop where
  fits : a.Fits
  int : a.typ = .regBtf → isIntOrEnum a.btf = true

theorem counts_of_wide (h : WideInt heap v ∨ Const32 v) (regs : Reg → Word) : (v.at regs).Counts := by
  refine ⟨fits_of_wide (h.imp_left WideInt.toWide) regs, fun hreg => ?_⟩
  rcases h with h | h
  · exact h.int
  · rw [at_typ, h.typ] at hreg
    exact absurd hreg (by decide)

theorem elemSize_of_int {t : Option BtfType} (h : isIntOrEnum t = true) : elemSize heap t = 0 := by
  unfold isIntOrEnum at h
  unfold elemSize
  split at h
  · rename_i heq
    simp [heq]
  · rename_i heq
    simp [heq]
  · simp at h

theorem addConst_word (heap : Heap) {n : Word} {a : Val} (ha : isIntOrEnum a.btf = true) (hn : int32 n = n) :
    ∃ x, addConstSem heap n a = .ok x ∧ x.typ = a.typ ∧ x.word = a.word + n := by
  unfold addConstSem
  by_cases hz : n = 0
  · exact ⟨a, if_pos hz, rfl, by rw [hz]; exact (BitVec.add_zero _).symm⟩
  · rw [if_neg hz]
    unfold isIntOrEnum at ha
    split at ha
    · rename_i heq
      exact ⟨a.set (a.word + int32 n), by rw [heq], rfl, by rw [hn]; rfl⟩
    · rename_i heq
      exact ⟨a.set (a.word + int32 n), by rw [heq], rfl, by rw [hn]; rfl⟩
    · simp at ha

theorem subConst_word (heap : Heap) {n : Word} {a : Val} (ha : isIntOrEnum a.btf = true) (hn : int32 n = n) :
    ∃ x, subConstSem heap a n = .ok x ∧ x.typ = a.typ ∧ x.word = a.word - n := by
  unfold subConstSem
  by_cases hz : n = 0
  · exact ⟨a, if_pos hz, rfl, by rw [hz]; exact (BitVec.sub_zero _).symm⟩
  · rw [if_neg hz]
    unfold isIntOrEnum at ha
    split at ha
    · rename_i heq
      exact ⟨a.set (a.word - int32 n), by rw [heq], rfl, by rw [hn]; rfl⟩
    · rename_i heq
      exact ⟨a.set (a.word - int32 n), by rw [heq], rfl, by rw [hn]; rfl⟩
    · simp at ha

theorem add_word (heap : Heap) {a b : Val} (ha : a.Counts) (hb : b.Counts) :
    ∃ x, opSem heap .add a b = .ok x ∧ (x.typ = .num ∨ x.typ = .regBtf) ∧ x.word = a.word + b.word := by
  show ∃ x, shaped a b (.ok (a.set (a.word + b.word))) (.ok (a.set (a.word + scaleBy heap a b)))
    (addConstSem heap a.word b) (addConstSem heap b.word a) = .ok x ∧ _
  rcases ha.fits with hat | ⟨hat, ha32⟩ <;> rcases hb.fits with hbt | ⟨hbt, hb32⟩
  · rw [shaped_rr hat hbt]
    refine ⟨_, rfl, .inr hat, ?_⟩
    simp [Val.set, scaleBy, elemSize_of_int (ha.int hat)]
  · rw [shaped_rn hat hbt]
    obtain ⟨x, hx, hxt, hxw⟩ := addConst_word heap (ha.int hat) hb32
    exact ⟨x, hx, .inr (hxt.trans hat), hxw⟩
  · rw [shaped_nr hat hbt]
    obtain ⟨x, hx, hxt, hxw⟩ := addConst_word heap (hb.int hbt) ha32
    exact ⟨x, hx, .inr (hxt.trans hbt), by rw [hxw, BitVec.add_comm]⟩
  · rw [shaped_nn hat hbt]
    exact ⟨_, rfl, .inl hat, rfl⟩

/-- A subtraction from a constant other than 0 is the other way round. -/
theorem sub_word (heap : Heap) {a b : Val} (ha : a.Counts) (hb : b.Counts) :
    ∃ x, opSem heap .sub a b = .ok x ∧ (x.typ = .num ∨ x.typ = .regBtf) ∧
      x.word = if a.typ = .num ∧ b.typ = .regBtf ∧ a.word ≠ 0 then b.word - a.word else a.word - b.word := by
  show ∃ x, shaped a b (.ok (a.set (a.word - b.word))) (.ok (a.set (a.word - scaleBy heap a b)))
    (if isIntOrEnum b.btf then .ok (b.set (if a.word = 0 then -b.word else b.word - int32 a.word))
      else .error .undefined) (subConstSem heap a b.word) = .ok x ∧ _
  rcases ha.fits with hat | ⟨hat, ha32⟩ <;> rcases hb.fits with hbt | ⟨hbt, hb32⟩
  · rw [shaped_rr hat hbt]
    refine ⟨_, rfl, .inr hat, ?_⟩
    simp [Val.set, scaleBy, elemSize_of_int (ha.int hat), hat]
  · rw [shaped_rn hat hbt]
    obtain ⟨x, hx, hxt, hxw⟩ := subConst_word heap (ha.int hat) hb32
    exact ⟨x, hx, .inr (hxt.trans hat), by simp [hxw, hat]⟩
  · rw [shaped_nr hat hbt, if_pos (hb.int hbt)]
    refine ⟨_, rfl, .inr hbt, ?_⟩
    by_cases hz : a.word = 0
    · rw [if_pos hz, if_neg fun h => h.2.2 hz, hz]
      exact (BitVec.zero_sub _).symm
    · rw [if_neg hz, if_pos ⟨hat, hbt, hz⟩, ha32]
      rfl
  · rw [shaped_nn hat hbt]
    exact ⟨_, rfl, .inl hat, by simp [Val.set, hbt]⟩

theorem sub_comm_iff (a b : Word) : b - a = a - b ↔ b = a ∨ b = a + 0x8000000000000000#64 := by
  bv_omega

/-- What a subtraction from a constant must not be. -/
def Reversed (op : BinOp) (l r : EvalValue) (regs : Reg → Word) : Prop :=
  op = .sub ∧ l.typ = .num ∧ l.num ≠ 0 ∧ r.typ = .regBtf ∧
    regs r.reg ≠ l.num ∧ regs r.reg ≠ l.num + 0x8000000000000000#64

theorem reversed_iff (regs : Reg → Word) :
    (if (l.at regs).typ = .num ∧ (r.at regs).typ = .regBtf ∧ (l.at regs).word ≠ 0
      then (r.at regs).word - (l.at regs).word else (l.at regs).word - (r.at regs).word)
        = (l.at regs).word - (r.at regs).word ↔ ¬ Reversed .sub l r regs := by
  by_cases h : l.typ = .num ∧ r.typ = .regBtf ∧ l.num ≠ 0
  · obtain ⟨hl, hr, hz⟩ := h
    rw [if_pos ⟨hl, hr, by rwa [at_word_num hl]⟩, at_word_num hl, at_word_reg hr, sub_comm_iff]
    unfold Reversed
    simp only [hl, hr, hz, ne_eq, not_false_eq_true, true_and, not_and_or, not_not]
  · have hneither : ¬ ((l.at regs).typ = .num ∧ (r.at regs).typ = .regBtf ∧ (l.at regs).word ≠ 0) := by
      rintro ⟨hl, hr, hz⟩
      exact h ⟨hl, hr, by rwa [at_word_num hl] at hz⟩
    rw [if_neg hneither]
    exact iff_of_true rfl fun hr => h ⟨hr.2.1, hr.2.2.2.1, hr.2.2.1⟩

/-- **Addition and subtraction** on words leave their value, and so do
`-x`, `++x` and `--x`; but a subtraction from a constant other than 0
leaves the difference the other way round. `-x` and `0 - x` on a register are
a `NEG` with a register source (0x8f), whose value this is; the kernel refuses
to load it. -/
theorem additive_values (heap : Heap) (g g' : Gen) (v : EvalValue) (K : Kernel) (s : State) :
    (∀ op fold l r, additive op = some fold → Applied heap op l r g v g' →
      (WideInt heap l ∨ Const32 l) → (WideInt heap r ∨ Const32 r) →
      (Yields g g' v K s (fold (l.at s.regs).word (r.at s.regs).word) ↔ ¬ Reversed op l r s.regs)) ∧
    ∀ op fold u, successor op = some fold → AppliedUn op u g v g' → (WideInt heap u ∨ Const32 u) →
      Yields g g' v K s (fold (u.at s.regs).word) := by
  constructor
  · intro op fold l r hop h hl hr
    have hsem := binSem_wide op (hl.imp WideInt.toWide Const32.typ) (hr.imp WideInt.toWide Const32.typ) s.regs
    have hla := counts_of_wide hl s.regs
    have hra := counts_of_wide hr s.regs
    cases op <;> simp only [additive, Option.some.injEq, reduceCtorEq] at hop
    case add =>
      subst hop
      obtain ⟨x, hx, hres, hxw⟩ := add_word heap hla hra
      rw [h.codeOk.yields_iff (hsem.trans hx) hres]
      exact iff_of_true hxw fun hr => absurd hr.1 (by decide)
    case sub =>
      subst hop
      obtain ⟨x, hx, hres, hxw⟩ := sub_word heap hla hra
      rw [h.codeOk.yields_iff (hsem.trans hx) hres, hxw]
      exact reversed_iff s.regs
  · intro op fold u hop h hu
    have hx : ∃ x, unSem op (u.at s.regs) = .ok x ∧ (x.typ = .num ∨ x.typ = .regBtf) ∧
        x.word = fold (u.at s.regs).word := by
      have hone : int32 1 = 1 := by decide
      rcases hu with hu | hu
      · have hcalc := hu.calculable
        cases op <;> simp only [successor, Option.some.injEq, reduceCtorEq] at hop
        all_goals
          subst hop
          refine ⟨_, by simp only [unSem, unarySem, at_typ, at_btf, hu.typ, hcalc, if_true, hone]; rfl,
            .inr hu.typ, rfl⟩
      · cases op <;> simp only [successor, Option.some.injEq, reduceCtorEq] at hop
        all_goals
          subst hop
          exact ⟨_, by simp only [unSem, unarySem, at_typ, hu.typ]; rfl, .inl hu.typ, rfl⟩
    obtain ⟨x, hx, hres, hxw⟩ := hx
    exact (h.codeOk.yields_iff hx hres _).mpr hxw

end Addition

/-! ### A subtraction the other way round

`5 - x` is compiled to `x -= 5`. -/

theorem applied_const_sub : Applied noHeap .sub (constant 5) (u64In R8) twoUsed (u64In R8)
    { twoUsed with insns := [(Op.alu .sub R8 (.imm 5) : Insn)] } :=
  ⟨rfl, by simp [Owned, constant], fun _ => ⟨rfl, by decide⟩, by simp [Apart, constant]⟩

theorem const_sub_reversed : Applied noHeap .sub (constant 5) (u64In R8) twoUsed (u64In R8)
      { twoUsed with insns := [(Op.alu .sub R8 (.imm 5) : Insn)] } ∧
    ¬ Yields twoUsed { twoUsed with insns := [(Op.alu .sub R8 (.imm 5) : Insn)] } (u64In R8)
      (onesKernel (.empty .probeRead)) (holding 3 0) (5 - 3) := by
  refine ⟨applied_const_sub, fun hyields => ?_⟩
  have hword := (applied_const_sub.codeOk.yields_iff
    (x := { typ := .regBtf, word := -2, btf := some (.int "u64" 8 .unsigned) }) rfl (.inr rfl) _).mp hyields
  exact absurd hword (by decide)

theorem const_sub_iff : Yields twoUsed { twoUsed with insns := [(Op.alu .sub R8 (.imm 5) : Insn)] }
      (u64In R8) (onesKernel (.empty .probeRead)) (holding 3 0) (5 - 3) ↔
    ¬ Reversed .sub (constant 5) (u64In R8) (holding 3 0).regs :=
  (additive_values noHeap twoUsed { twoUsed with insns := [(Op.alu .sub R8 (.imm 5) : Insn)] }
    (u64In R8) (onesKernel (.empty .probeRead)) (holding 3 0)).1 .sub _ (constant 5) (u64In R8) rfl
      applied_const_sub (.inr ⟨rfl, by decide, by decide⟩) (.inl ⟨wide_u64In _ _, rfl⟩)

end Bpfsnoop.CC
