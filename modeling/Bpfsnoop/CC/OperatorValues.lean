/-
Bpfsnoop.CC.OperatorValues — what the operators compute, against what they
should.

`binSem` says what the code of an operator computes. Here the comparisons
of unsigned words and the bitwise operators meet the value that C gives,
for operands in registers, constants, and both orders of the two.
`ArithmeticValues` and `NarrowValues` do the same for the other operators.
-/
import Bpfsnoop.CC.Ownership

namespace Bpfsnoop.CC

open Ebpf Btf Reg

/-! ## The value an operator leaves -/

/-- The code between `g` and `g'`, started in `s`, leaves the value `w` in
the operand `v`. -/
def Yields (g g' : Gen) (v : EvalValue) (K : Kernel) (s : State) (w : Word) : Prop :=
  ∃ frag s', g'.insns = g.insns ++ frag ∧ exec K frag .run s = .cont .run s' ∧ v.Resolved ∧
    (v.at s'.regs).word = w

/-- A successful call of an operator function, on operands with registers
of their own. -/
structure Applied (heap : Heap) (op : BinOp) (l r : EvalValue) (g : Gen) (v : EvalValue) (g' : Gen) :
    Prop where
  ok : binary heap op l r g = .ok (v, g')
  left : Owned g.regalloc l
  right : Owned g.regalloc r
  apart : Apart l r

/-- A successful call of the function of a unary operator. -/
structure AppliedUn (op : UnOp) (u : EvalValue) (g : Gen) (v : EvalValue) (g' : Gen) : Prop where
  ok : ∃ f, unaryOp op = some f ∧ f u g = .ok (v, g')
  operand : Owned g.regalloc u

section Value

variable {heap : Heap} {op : BinOp} {l r u v : EvalValue} {g g' : Gen} {K : Kernel} {s : State}

/-- The value of a piece of code is the one its meaning gives. -/
theorem CodeOk.yields_iff {held : Reg → Prop} {sem : (Reg → Word) → SemM Val}
    (h : CodeOk held sem g v g') {x : Val} (hx : sem s.regs = .ok x)
    (hres : x.typ = .num ∨ x.typ = .regBtf) (w : Word) :
    Yields g g' v K s w ↔ x.word = w := by
  obtain ⟨frag, hemit, -, -, -, hcode⟩ := h
  obtain ⟨s', hexec, -, -, hsem⟩ := hcode K s
  rw [hx, Except.ok.injEq] at hsem
  constructor
  · rintro ⟨frag', s'', hins, hexec', -, hw⟩
    obtain rfl : frag' = frag := List.append_cancel_left (hins.symm.trans hemit.insns)
    rw [hexec, Outcome.cont.injEq] at hexec'
    rw [hsem, hexec'.2, hw]
  · intro hw
    refine ⟨frag, s', hemit.insns, hexec, ?_, by rw [← hsem, hw]⟩
    rw [hsem] at hres
    exact hres

theorem CodeOk.typ_eq {held : Reg → Prop} {sem : (Reg → Word) → SemM Val}
    (h : CodeOk held sem g v g') (K : Kernel) {x : Val} (hx : sem s.regs = .ok x) : v.typ = x.typ := by
  obtain ⟨_, -, -, -, -, hcode⟩ := h
  obtain ⟨s', -, -, -, hsem⟩ := hcode K s
  rw [hx, Except.ok.injEq] at hsem
  rw [hsem, at_typ]

theorem Applied.codeOk (h : Applied heap op l r g v g') :
    CodeOk (fun q => l.Holds q ∨ r.Holds q) (fun regs => binSem heap op (l.at regs) (r.at regs)) g v g' :=
  (binary_ok h.ok h.left h.right h.apart).codeOk

theorem AppliedUn.codeOk {op : UnOp} (h : AppliedUn op u g v g') :
    CodeOk u.Holds (fun regs => unSem op (u.at regs)) g v g' := by
  obtain ⟨f, hf, hok⟩ := h.ok
  cases op <;> simp only [unaryOp, Option.some.injEq, reduceCtorEq] at hf
  all_goals subst hf
  · exact minus_ok hok h.operand
  · exact not_ok hok h.operand
  · exact preDec_ok hok h.operand
  · exact preInc_ok hok h.operand
  · exact twid_ok hok h.operand

end Value

/-! ## Operands -/

/-- An operand of eight bytes in a register. -/
structure Wide (heap : Heap) (v : EvalValue) : Prop where
  typ : v.typ = .regBtf
  calculable : canCalculate v.btf = true
  size : sizeofOpt heap v.btf = 8
  whole : ∀ m, v.mem = some m → m.bitfieldSize = 0

/-- A constant that a signed number of 32 bits represents. -/
structure Const32 (v : EvalValue) : Prop where
  typ : v.typ = .num
  low : -2 ^ 31 ≤ v.num.toInt
  high : v.num.toInt < 2 ^ 31

/-- One that is not negative. -/
structure Const31 (v : EvalValue) : Prop where
  typ : v.typ = .num
  bound : v.num.toNat < 2 ^ 31

section Operands

variable {heap : Heap} {op : BinOp} {l r v : EvalValue} {g g' : Gen}

theorem Const31.const32 (h : Const31 v) : Const32 v := by
  have hb := h.bound
  refine ⟨h.typ, ?_, ?_⟩
  · rw [BitVec.toInt_eq_toNat_cond]
    split <;> omega
  · rw [BitVec.toInt_eq_toNat_cond]
    split <;> omega

theorem Const32.int32_eq (h : Const32 v) : int32 v.num = v.num := int32_of_fits h.low h.high

/-- A constant that meets eight bytes keeps its bits. -/
theorem Wide.adjust (h : Wide heap v) (n : Word) : adjustNum heap n v = n := by
  unfold adjustNum
  rw [if_neg (not_not.mpr h.typ)]
  have hsize : adjustNum.bySize heap n v = n := by simp [adjustNum.bySize, h.size]
  cases hmem : v.mem with
  | none => exact hsize
  | some m => simp [h.whole m hmem, hsize]

/-- A register that can be calculated with, or a constant. -/
def Calculable (v : EvalValue) : Prop := v.typ = .regBtf ∧ canCalculate v.btf = true ∨ v.typ = .num

theorem calculable_of_wide (h : Wide heap v ∨ v.typ = .num) : Calculable v :=
  h.imp_left fun h => ⟨h.typ, h.calculable⟩

/-- Operands that can be calculated with are cut to the width of each
other. -/
theorem preVal_calculable (hl : Calculable l) (hr : Calculable r) (regs : Reg → Word) :
    preVal heap (l.at regs) (r.at regs)
      = .ok ((l.at regs).adjust heap (r.at regs), (r.at regs).adjust heap (l.at regs)) := by
  have hcalc {a : EvalValue} (ha : Calculable a) :
      ¬ ((a.at regs).typ = .regBtf ∧ (!canCalculate (a.at regs).btf) = true) := by
    rcases ha with ⟨-, ha⟩ | ha
    · simp [ha]
    · simp [ha]
  have hname {a : EvalValue} (ha : Calculable a) : (a.at regs).typ ≠ .enumMaybe := by
    rcases ha with ⟨ha, -⟩ | ha
    · simp [ha]
    · simp [ha]
  have href : ((l.at regs).adjust heap (r.at regs)).ref = (l.at regs).ref := by
    unfold Val.adjust
    split <;> rfl
  have hsecond : (r.at regs).adjust heap ((l.at regs).adjust heap (r.at regs))
      = (r.at regs).adjust heap (l.at regs) := by
    rw [Val.adjust, href]
    rfl
  unfold preVal
  rw [if_neg (hcalc hl), if_neg (hcalc hr), if_neg fun h => hname hl h.1, if_neg fun h => hname hr h.2,
    hsecond]

theorem adjust_wide (hr : Wide heap r ∨ r.typ = .num) (regs : Reg → Word) :
    (l.at regs).adjust heap (r.at regs) = l.at regs := by
  unfold Val.adjust
  split
  · rfl
  · rw [adjustNum_ref]
    rcases hr with hr | hr
    · rw [hr.adjust]
    · simp [adjustNum, hr, EvalValue.at]

theorem binSem_wide (op : BinOp) (hl : Wide heap l ∨ l.typ = .num) (hr : Wide heap r ∨ r.typ = .num)
    (regs : Reg → Word) : binSem heap op (l.at regs) (r.at regs) = opSem heap op (l.at regs) (r.at regs) := by
  unfold binSem
  rw [preVal_calculable (calculable_of_wide hl) (calculable_of_wide hr), adjust_wide hr, adjust_wide hl]
  rfl

end Operands

section Shapes

variable {a b : Val} {nn rr nr rn : SemM Val}

theorem shaped_nn (ha : a.typ = .num) (hb : b.typ = .num) : shaped a b nn rr nr rn = nn := by
  simp only [shaped, ha, hb]

theorem shaped_rr (ha : a.typ = .regBtf) (hb : b.typ = .regBtf) : shaped a b nn rr nr rn = rr := by
  simp only [shaped, ha, hb]

theorem shaped_nr (ha : a.typ = .num) (hb : b.typ = .regBtf) : shaped a b nn rr nr rn = nr := by
  simp only [shaped, ha, hb]

theorem shaped_rn (ha : a.typ = .regBtf) (hb : b.typ = .num) : shaped a b nn rr nr rn = rn := by
  simp only [shaped, ha, hb]

end Shapes

/-! ## Comparisons -/

/-- The relational operators, on unsigned words. -/
def relation : BinOp → Option (Word → Word → Bool)
  | .eqEq => some (· == ·)
  | .notEq => some (· != ·)
  | .lt => some fun a b => a < b
  | .ltEq => some fun a b => a ≤ b
  | .gt => some fun a b => b < a
  | .gtEq => some fun a b => b ≤ a
  | _ => none

/-- A comparison leaves 1 if the relation holds and 0 if it does not. -/
def Compares (rel : Word → Word → Bool) (l r : EvalValue) (g g' : Gen) (v : EvalValue) (K : Kernel)
    (s : State) : Prop :=
  v.typ = .regBtf ∧ Yields g g' v K s (bool2int (rel (l.at s.regs).word (r.at s.regs).word))

section Comparisons

variable {heap : Heap} {op : BinOp} {l r v : EvalValue} {g g' : Gen} {K : Kernel} {s : State}

theorem bool2int_inj {a b : Bool} : bool2int a = bool2int b ↔ a = b := by
  cases a <;> cases b <;> decide

/-- A relational operator is a comparison, with the jump for its negation. -/
theorem relation_compare (heap : Heap) {rel : Word → Word → Bool} (hop : relation op = some rel) :
    ∃ fold inverse, binary heap op = compare heap fold inverse ∧
      (∀ a b, opSem heap op a b = compareSem fold inverse a b) ∧ ∀ p q, (!JumpOp.eval inverse p q) = rel p q := by
  cases op <;> simp only [relation, Option.some.injEq, reduceCtorEq] at hop
  case eqEq => exact ⟨(· == ·), .ne, rfl, fun _ _ => rfl, fun p q => by simp [← hop, JumpOp.eval, bne]⟩
  case notEq => exact ⟨(· != ·), .eq, rfl, fun _ _ => rfl, fun p q => by simp [← hop, JumpOp.eval, bne]⟩
  all_goals
    subst hop
  case gt => exact ⟨fun a b => b.slt a, .le, rfl, fun _ _ => rfl, fun p q => by simp [JumpOp.eval, ← BitVec.not_lt]⟩
  case gtEq => exact ⟨fun a b => b.sle a, .lt, rfl, fun _ _ => rfl, fun p q => by simp [JumpOp.eval, ← BitVec.not_lt]⟩
  case lt => exact ⟨BitVec.slt, .ge, rfl, fun _ _ => rfl, fun p q => by simp [JumpOp.eval, ← BitVec.not_lt]⟩
  case ltEq => exact ⟨BitVec.sle, .gt, rfl, fun _ _ => rfl, fun p q => by simp [JumpOp.eval, ← BitVec.not_lt]⟩

/-- What the code of a comparison leaves: the relation of the operands,
with the register first where one of them is a constant. -/
theorem compare_word (heap : Heap) {rel : Word → Word → Bool} (hop : relation op = some rel) {a b : Val}
    (ha : a.typ = .regBtf ∨ a.typ = .num ∧ int32 a.word = a.word)
    (hb : b.typ = .regBtf ∨ b.typ = .num ∧ int32 b.word = b.word)
    (hreg : a.typ = .regBtf ∨ b.typ = .regBtf) :
    ∃ x, opSem heap op a b = .ok x ∧ x.typ = .regBtf ∧
      x.word = bool2int (if a.typ = .num then rel b.word a.word else rel a.word b.word) := by
  obtain ⟨fold, inverse, -, hsem, hrel⟩ := relation_compare heap hop
  rw [hsem, compareSem]
  rcases ha with ha | ⟨ha, ha32⟩ <;> rcases hb with hb | ⟨hb, hb32⟩
  · exact ⟨_, shaped_rr ha hb, ha, by simp [ha, Val.set, hrel]⟩
  · exact ⟨_, shaped_rn ha hb, ha, by simp [ha, Val.set, hrel, hb32]⟩
  · exact ⟨_, shaped_nr ha hb, hb, by simp [ha, Val.set, hrel, ha32]⟩
  · simp [ha, hb] at hreg

theorem relation_swap_iff {rel : Word → Word → Bool} (hop : relation op = some rel) (a b : Word) :
    rel b a = rel a b ↔ op = .eqEq ∨ op = .notEq ∨ a = b := by
  cases op <;> simp only [relation, Option.some.injEq, reduceCtorEq] at hop
  case eqEq =>
    subst hop
    simp [Bool.beq_comm]
  case notEq =>
    subst hop
    simp [bne_comm]
  all_goals
    subst hop
    simp only [reduceCtorEq, false_or, decide_eq_decide, BitVec.lt_def, BitVec.le_def, ← BitVec.toNat_inj]
    omega

/-- **The relational operators** on unsigned words compare as they should,
except with the constant on the left: there `<`, `<=`, `>` and `>=` are
mirrored, and right only where the operands are equal. -/
theorem comparison_iff {rel : Word → Word → Bool} (hop : relation op = some rel)
    (h : Applied heap op l r g v g') (hl : Wide heap l ∨ Const31 l) (hr : Wide heap r ∨ Const31 r)
    (hreg : l.typ = .regBtf ∨ r.typ = .regBtf) (K : Kernel) (s : State) :
    Compares rel l r g g' v K s ↔
      (l.typ = .num → op = .eqEq ∨ op = .notEq ∨ l.num = s.regs r.reg) := by
  have hword {a : EvalValue} (ha : Wide heap a ∨ Const31 a) :
      (a.at s.regs).typ = .regBtf ∨ (a.at s.regs).typ = .num ∧ int32 (a.at s.regs).word = (a.at s.regs).word := by
    rcases ha with ha | ha
    · exact .inl ha.typ
    · rw [at_word_num ha.typ]
      exact .inr ⟨ha.typ, ha.const32.int32_eq⟩
  have hsem := binSem_wide op (hl.imp_right Const31.typ) (hr.imp_right Const31.typ) s.regs
  obtain ⟨x, hx, hxt, hxw⟩ := compare_word heap hop (hword hl) (hword hr) hreg
  rw [← hsem] at hx
  have hv : v.typ = .regBtf := (h.codeOk.typ_eq K hx).trans hxt
  unfold Compares
  rw [h.codeOk.yields_iff hx (.inr hxt), hxw, bool2int_inj]
  simp only [hv, true_and, at_typ]
  by_cases hlt : l.typ = .num
  · have hrt : r.typ = .regBtf := hreg.resolve_left (by simp [hlt])
    simp only [hlt, if_true, true_implies]
    rw [relation_swap_iff hop, at_word_num hlt, at_word_reg hrt]
  · simp [hlt]

end Comparisons

/-! ### A constant on the left

`5 < x` is compiled to a jump over the 1 if `x >= 5`, the code of
`x < 5`. -/

/-- A number of eight bytes in a register. -/
def u64In (reg : Reg) : EvalValue := { typ := .regBtf, reg := reg, btf := some (.int "u64" 8 .unsigned) }

def constant (n : Word) : EvalValue := { typ := .num, num := n }

/-- `r8` and `r7` are in use. -/
def twoUsed : Gen := { regalloc := ⟨fun q => q = R8 ∨ q = R7⟩, insns := [], labelExitUsed := false }

/-- `r8` holds `x` and `r7` holds `y`. -/
def holding (x y : Word) : State :=
  { regs := fun q => if q = R8 then x else if q = R7 then y else 0, stack := ones, out := ones, calls := 0 }

def noHeap : Heap := fun _ => ⟨0, fun _ => none⟩

theorem wide_u64In (heap : Heap) (reg : Reg) : Wide heap (u64In reg) :=
  ⟨rfl, rfl, rfl, fun m hm => by simp [u64In] at hm⟩

theorem const_first_mirrored : ∃ v g', Applied noHeap .lt (constant 5) (u64In R8) twoUsed v g' ∧
    ¬ Compares (fun a b => a < b) (constant 5) (u64In R8) twoUsed g' v (onesKernel (.empty .probeRead))
      (holding 7 0) := by
  have h : Applied noHeap .lt (constant 5) (u64In R8) twoUsed (u64In R8)
      { twoUsed with insns := (⟨jmpOff .ge R8 5 2, none⟩ :: reg2bool R8 : List Insn) } :=
    ⟨rfl, by simp [Owned, constant], fun _ => ⟨rfl, by decide⟩, by simp [Apart, constant]⟩
  refine ⟨_, _, h, fun hcompares => ?_⟩
  have hword := (h.codeOk.yields_iff (x := { typ := .regBtf, word := 0, btf := some (.int "u64" 8 .unsigned) })
    rfl (.inr rfl) _).mp hcompares.2
  exact absurd hword (by decide)

theorem register_first_compares : ∃ v g', Compares (fun a b => a < b) (u64In R8) (constant 5) twoUsed g' v
      (onesKernel (.empty .probeRead)) (holding 7 0) ↔
    ((u64In R8).typ = .num → BinOp.lt = .eqEq ∨ BinOp.lt = .notEq ∨
      (u64In R8).num = (holding 7 0).regs (constant 5).reg) := by
  have h : Applied noHeap .lt (u64In R8) (constant 5) twoUsed (u64In R8)
      { twoUsed with insns := (⟨jmpOff .ge R8 5 2, none⟩ :: reg2bool R8 : List Insn) } :=
    ⟨rfl, fun _ => ⟨rfl, by decide⟩, by simp [Owned, constant], by simp [Apart, constant]⟩
  exact ⟨_, _, comparison_iff rfl h (.inl (wide_u64In _ _)) (.inr ⟨rfl, by decide⟩) (.inl rfl) _ _⟩

/-! ## Bitwise operators -/

def bitwise : BinOp → Option (Word → Word → Word)
  | .and => some (· &&& ·)
  | .or => some (· ||| ·)
  | .xor => some (· ^^^ ·)
  | _ => none

/-- `c` is the constant 0 of an `|` or `^` whose other operand `x` is a
register that is not 0. -/
def DropsRegister (op : BinOp) (c x : EvalValue) (regs : Reg → Word) : Prop :=
  op ≠ .and ∧ c.typ = .num ∧ c.num = 0 ∧ x.typ = .regBtf ∧ regs x.reg ≠ 0

section Bitwise

variable {heap : Heap} {op : BinOp} {l r v : EvalValue} {g g' : Gen}

/-- A run-time operand of 64 bits: a register, or a constant of 32. -/
def Val.Fits (a : Val) : Prop := a.typ = .regBtf ∨ a.typ = .num ∧ int32 a.word = a.word

theorem fits_of_wide (h : Wide heap v ∨ Const32 v) (regs : Reg → Word) : (v.at regs).Fits := by
  rcases h with h | h
  · exact .inl h.typ
  · refine .inr ⟨h.typ, ?_⟩
    rw [at_word_num h.typ]
    exact h.int32_eq

/-- `|` and `^` leave their value, but 0 if one operand is the constant 0
and the other a register. -/
theorem orLike_word {fold : Word → Word → Word} (hcomm : ∀ p q, fold p q = fold q p) {a b : Val}
    (ha : a.Fits) (hb : b.Fits) :
    ∃ x, orLikeSem fold a b = .ok x ∧ (x.typ = .num ∨ x.typ = .regBtf) ∧
      x.word = if a.typ = .num ∧ a.word = 0 ∧ b.typ = .regBtf ∨ b.typ = .num ∧ b.word = 0 ∧ a.typ = .regBtf
        then 0 else fold a.word b.word := by
  unfold orLikeSem
  rcases ha with ha | ⟨ha, ha32⟩ <;> rcases hb with hb | ⟨hb, hb32⟩
  · exact ⟨_, shaped_rr ha hb, .inr ha, by simp [ha, hb, Val.set]⟩
  · refine ⟨_, shaped_rn ha hb, ?_, ?_⟩
    · split
      · exact .inl hb
      · exact .inr ha
    · by_cases hz : b.word = 0
      · rw [if_pos hz, if_pos (.inr ⟨hb, hz, ha⟩), hz]
      · rw [if_neg hz, if_neg (by rintro (⟨-, -, h⟩ | ⟨-, h, -⟩) <;> simp_all), Val.set, hb32]
  · refine ⟨_, shaped_nr ha hb, ?_, ?_⟩
    · split
      · exact .inl ha
      · exact .inr hb
    · by_cases hz : a.word = 0
      · rw [if_pos hz, if_pos (.inl ⟨ha, hz, hb⟩), hz]
      · rw [if_neg hz, if_neg (by rintro (⟨-, h, -⟩ | ⟨-, -, h⟩) <;> simp_all), Val.set, ha32, hcomm]
  · exact ⟨_, shaped_nn ha hb, .inl ha, by simp [ha, hb, Val.set]⟩

theorem and_word (heap : Heap) {a b : Val} (ha : a.Fits) (hb : b.Fits) :
    ∃ x, opSem heap .and a b = .ok x ∧ (x.typ = .num ∨ x.typ = .regBtf) ∧ x.word = a.word &&& b.word := by
  unfold opSem
  rcases ha with ha | ⟨ha, ha32⟩ <;> rcases hb with hb | ⟨hb, hb32⟩
  · exact ⟨_, shaped_rr ha hb, .inr ha, rfl⟩
  · exact ⟨_, shaped_rn ha hb, .inr ha, by simp [Val.set, hb32]⟩
  · exact ⟨_, shaped_nr ha hb, .inr hb, by simp [Val.set, ha32, BitVec.and_comm]⟩
  · exact ⟨_, shaped_nn ha hb, .inl ha, rfl⟩

theorem dropsRegister_iff {a b : EvalValue} {fold : Word → Word → Word} (hop : bitwise op = some fold)
    (hand : op ≠ .and) (regs : Reg → Word) :
    (if (a.at regs).typ = .num ∧ (a.at regs).word = 0 ∧ (b.at regs).typ = .regBtf ∨
        (b.at regs).typ = .num ∧ (b.at regs).word = 0 ∧ (a.at regs).typ = .regBtf
      then 0 else fold (a.at regs).word (b.at regs).word) = fold (a.at regs).word (b.at regs).word ↔
    ¬ DropsRegister op a b regs ∧ ¬ DropsRegister op b a regs := by
  have hzero : ∀ w, fold 0 w = w ∧ fold w 0 = w := by
    intro w
    cases op <;> simp only [bitwise, Option.some.injEq, reduceCtorEq] at hop
    case and => exact absurd rfl hand
    all_goals
      subst hop
      simp
  unfold DropsRegister
  by_cases hl : a.typ = .num ∧ a.num = 0 ∧ b.typ = .regBtf
  · obtain ⟨ha, hz, hb⟩ := hl
    rw [if_pos (.inl ⟨ha, by rwa [at_word_num ha], hb⟩), at_word_num ha, at_word_reg hb, hz, (hzero _).1]
    simp only [ha, hb, hand, ne_eq, not_false_eq_true, true_and, not_not, reduceCtorEq, false_and,
      and_false, and_true, eq_comm]
  · by_cases hr : b.typ = .num ∧ b.num = 0 ∧ a.typ = .regBtf
    · obtain ⟨hb, hz, ha⟩ := hr
      rw [if_pos (.inr ⟨hb, by rwa [at_word_num hb], ha⟩), at_word_num hb, at_word_reg ha, hz, (hzero _).2]
      simp only [ha, hb, hand, ne_eq, not_false_eq_true, true_and, not_not, reduceCtorEq, false_and,
        and_false, eq_comm]
    · have hneither : ¬ ((a.at regs).typ = .num ∧ (a.at regs).word = 0 ∧ (b.at regs).typ = .regBtf ∨
          (b.at regs).typ = .num ∧ (b.at regs).word = 0 ∧ (a.at regs).typ = .regBtf) := by
        rintro (⟨ha, hz, hb⟩ | ⟨hb, hz, ha⟩)
        · exact hl ⟨ha, by rwa [at_word_num ha] at hz, hb⟩
        · exact hr ⟨hb, by rwa [at_word_num hb] at hz, ha⟩
      rw [if_neg hneither]
      refine iff_of_true rfl ⟨fun h => hl ⟨h.2.1, h.2.2.1, h.2.2.2.1⟩, fun h => hr ⟨h.2.1, h.2.2.1, h.2.2.2.1⟩⟩

/-- **The bitwise operators** leave their value, but `|` and `^` with the
constant 0 leave 0. -/
theorem bitwise_values (heap : Heap) (g g' : Gen) (v : EvalValue) (K : Kernel) (s : State) :
    (∀ op fold l r, bitwise op = some fold → Applied heap op l r g v g' →
      (Wide heap l ∨ Const32 l) → (Wide heap r ∨ Const32 r) →
      (Yields g g' v K s (fold (l.at s.regs).word (r.at s.regs).word) ↔
        ¬ DropsRegister op l r s.regs ∧ ¬ DropsRegister op r l s.regs)) ∧
    ∀ u, AppliedUn .twid u g v g' → (Wide heap u ∨ Const32 u) →
      Yields g g' v K s (~~~ (u.at s.regs).word) := by
  constructor
  · intro op fold l r hop h hl hr
    have hsem := binSem_wide op (hl.imp_right Const32.typ) (hr.imp_right Const32.typ) s.regs
    by_cases hand : op = .and
    · subst hand
      obtain ⟨x, hx, hres, hxw⟩ := and_word heap (fits_of_wide hl s.regs) (fits_of_wide hr s.regs)
      obtain rfl : (· &&& ·) = fold := by simpa [bitwise] using hop
      rw [h.codeOk.yields_iff (hsem.trans hx) hres]
      exact iff_of_true hxw ⟨fun hd => hd.1 rfl, fun hd => hd.1 rfl⟩
    · have hor : ∃ x, opSem heap op (l.at s.regs) (r.at s.regs) = .ok x ∧ (x.typ = .num ∨ x.typ = .regBtf) ∧
          x.word = if (l.at s.regs).typ = .num ∧ (l.at s.regs).word = 0 ∧ (r.at s.regs).typ = .regBtf ∨
              (r.at s.regs).typ = .num ∧ (r.at s.regs).word = 0 ∧ (l.at s.regs).typ = .regBtf
            then 0 else fold (l.at s.regs).word (r.at s.regs).word := by
        cases op <;> simp only [bitwise, Option.some.injEq, reduceCtorEq] at hop
        case and => exact absurd rfl hand
        case or =>
          subst hop
          exact orLike_word BitVec.or_comm (fits_of_wide hl s.regs) (fits_of_wide hr s.regs)
        case xor =>
          subst hop
          exact orLike_word BitVec.xor_comm (fits_of_wide hl s.regs) (fits_of_wide hr s.regs)
      obtain ⟨x, hx, hres, hxw⟩ := hor
      rw [h.codeOk.yields_iff (hsem.trans hx) hres, hxw]
      exact dropsRegister_iff hop hand s.regs
  · intro u h hu
    have hx : ∃ x, unSem .twid (u.at s.regs) = .ok x ∧ (x.typ = .num ∨ x.typ = .regBtf) ∧
        x.word = ~~~ (u.at s.regs).word := by
      rcases hu with hu | hu
      · refine ⟨(u.at s.regs).set ((u.at s.regs).word ^^^ int32 (-1)), ?_, .inr hu.typ, ?_⟩
        · simp [unSem, unarySem, hu.typ, hu.calculable]
        · have hones : int32 (-1) = BitVec.allOnes 64 := by decide
          rw [Val.set, hones, BitVec.xor_allOnes]
      · exact ⟨(u.at s.regs).set (~~~ (u.at s.regs).word), by simp [unSem, unarySem, hu.typ], .inl hu.typ, rfl⟩
    obtain ⟨x, hx, hres, hxw⟩ := hx
    exact (h.codeOk.yields_iff hx hres _).mpr hxw

end Bitwise

/-! ### The constant 0

`0 | x` frees the register of `x` and returns the constant, without any
code. -/

/-- `r7` is in use. -/
def oneUsed : Gen := { twoUsed with regalloc := twoUsed.regalloc.free R8 }

theorem applied_or_zero : Applied noHeap .or (constant 0) (u64In R8) twoUsed (constant 0) oneUsed :=
  ⟨rfl, by simp [Owned, constant], fun _ => ⟨rfl, by decide⟩, by simp [Apart, constant]⟩

theorem or_zero_drops_register : Applied noHeap .or (constant 0) (u64In R8) twoUsed (constant 0) oneUsed ∧
    ¬ Yields twoUsed oneUsed (constant 0) (onesKernel (.empty .probeRead)) (holding 7 0) (0 ||| 7) := by
  refine ⟨applied_or_zero, fun hyields => ?_⟩
  have hword := (applied_or_zero.codeOk.yields_iff (x := { typ := .num, word := 0 }) rfl (.inl rfl) _).mp hyields
  exact absurd hword (by decide)

theorem or_zero_yields_iff :
    Yields twoUsed oneUsed (constant 0) (onesKernel (.empty .probeRead)) (holding 0 0) (0 ||| 0) ↔
      ¬ DropsRegister .or (constant 0) (u64In R8) (holding 0 0).regs ∧
        ¬ DropsRegister .or (u64In R8) (constant 0) (holding 0 0).regs :=
  (bitwise_values noHeap twoUsed oneUsed (constant 0) (onesKernel (.empty .probeRead)) (holding 0 0)).1
    .or _ (constant 0) (u64In R8) rfl applied_or_zero (.inr ⟨rfl, by decide, by decide⟩)
    (.inl (wide_u64In _ _))

end Bpfsnoop.CC
