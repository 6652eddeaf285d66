/-
Bpfsnoop.CC.PointerValues — pointer arithmetic.

`p + i`, `i + p` and `p - i` should move a pointer by `i` elements. With a
constant `i`, the code adds `i * s` in 32 bits, whichever comes first. With
`i` in a register it multiplies the right operand by the element size of the
left one, so that only `p + i` and `p - i` are scaled.
-/
import Bpfsnoop.CC.ArithmeticValues
import Bpfsnoop.CC.NarrowValues

namespace Bpfsnoop.CC

open Ebpf Btf Reg

/-! ## Operands -/

/-- A pointer or an array in a register, to elements that have a size. -/
structure Points (heap : Heap) (p : EvalValue) : Prop where
  typ : p.typ = .regBtf
  elem : 0 < elemSize heap p.btf

/-- An integer: a constant, or a register of an integer type. -/
def IsInteger (i : EvalValue) : Prop := i.typ = .num ∨ i.typ = .regBtf ∧ isIntOrEnum i.btf = true

/-- The distance of `i` elements of `p`. -/
def distance (heap : Heap) (p i : EvalValue) (regs : Reg → Word) : Word :=
  (i.at regs).word * BitVec.ofNat 64 (elemSize heap p.btf)

/-- A constant index: the distance is a number of 32 bits, and the cut that
meets the pointer keeps these. -/
def ConstScaled (heap : Heap) (p i : EvalValue) (regs : Reg → Word) : Prop :=
  int32 (distance heap p i regs) = distance heap p i regs ∧
    (adjustNum heap i.num p * BitVec.ofNat 64 (elemSize heap p.btf)).setWidth 32 =
      (distance heap p i regs).setWidth 32

/-- The distance of an index on the right of `p`: a register is scaled by the
size as a number of 32 bits. -/
def ScaledRight (heap : Heap) (p i : EvalValue) (regs : Reg → Word) : Prop :=
  if i.typ = .num then ConstScaled heap p i regs
  else regs i.reg * int32 (BitVec.ofNat 64 (elemSize heap p.btf)) = distance heap p i regs

/-- The same on the left of `p`, where a register is not scaled. -/
def ScaledLeft (heap : Heap) (p i : EvalValue) (regs : Reg → Word) : Prop :=
  if i.typ = .num then ConstScaled heap p i regs else regs i.reg = distance heap p i regs

section Pointers

variable {heap : Heap} {p i v : EvalValue} {g g' : Gen} {regs : Reg → Word}

theorem sizeofD_of_isVoid {t : BtfType} (h : isVoid t = true) : sizeofD heap t = 0 := by
  rw [isVoid, beq_iff_eq] at h
  rw [sizeofD, ← sizeof_underlyingType, h]
  rfl

/-- What `elemSize` looks at. -/
theorem Points.elem_cases (h : Points heap p) :
    (∃ target, p.btf.map underlyingType = some (.pointer target) ∧ isVoid target = false ∧
      sizeofD heap target = elemSize heap p.btf) ∨
    ∃ type n, p.btf.map underlyingType = some (.array type n) ∧ sizeofD heap type = elemSize heap p.btf := by
  have helem := h.elem
  unfold elemSize at helem ⊢
  split at helem
  · rename_i target heq
    refine .inl ⟨target, heq, ?_, rfl⟩
    cases hvoid : isVoid target with
    | false => rfl
    | true => rw [sizeofD_of_isVoid hvoid] at helem; exact absurd helem (Nat.lt_irrefl 0)
  · rename_i type n heq
    exact .inr ⟨type, n, heq, rfl⟩
  · exact absurd helem (Nat.lt_irrefl 0)

theorem Points.calculable (h : Points heap p) : Calculable p := by
  refine .inl ⟨h.typ, ?_⟩
  obtain ⟨_, heq, -⟩ | ⟨_, _, heq, -⟩ := h.elem_cases
  · simp only [canCalculate, heq]
  · simp only [canCalculate, heq]

theorem IsInteger.calculable (h : IsInteger i) : Calculable i := by
  refine h.symm.imp_left fun hreg => ⟨hreg.1, ?_⟩
  have hint := hreg.2
  unfold isIntOrEnum at hint
  unfold canCalculate
  split at hint
  · rename_i heq
    rw [heq]
  · rename_i heq
    rw [heq]
  · cases hint

@[simp] theorem scaled_zero (size : Nat) : scaled 0 size = 0 := by
  simp [scaled]

theorem scaled_eq (n : Word) (size : Nat) : scaled n size = int32 (n * BitVec.ofNat 64 size) := by
  rw [scaled, int32, BitVec.setWidth_mul _ _ (by decide), BitVec.setWidth_ofNat_of_le (by decide)]

/-- A number in 32 bits is the word if the word is in 32 bits and has the
same. -/
theorem int32_eq_iff (x w : Word) : int32 x = w ↔ int32 w = w ∧ x.setWidth 32 = w.setWidth 32 := by
  constructor
  · intro h
    have hlow : x.setWidth 32 = w.setWidth 32 := by rw [← h, setWidth_int32]
    exact ⟨by rw [← h, int32_int32], hlow⟩
  · intro h
    rw [int32, h.2]
    exact h.1

/-- A constant is added as a number of elements. -/
theorem addConst_points (h : Points heap p) (n : Word) :
    ∃ x, addConstSem heap n (p.at regs) = .ok x ∧ x.typ = .regBtf ∧
      x.word = regs p.reg + scaled n (elemSize heap p.btf) := by
  have hword := at_word_reg h.typ regs
  have helem := h.elem
  unfold addConstSem
  by_cases hz : n = 0
  · refine ⟨_, if_pos hz, h.typ, ?_⟩
    rw [hz, scaled_zero, hword]
    exact (BitVec.add_zero _).symm
  · rw [if_neg hz, at_btf]
    obtain ⟨target, heq, hvoid, hsize⟩ | ⟨type, _, heq, hsize⟩ := h.elem_cases
    · rw [heq]
      simp only [hvoid, Bool.false_eq_true, if_false, hsize, Nat.ne_of_gt helem]
      exact ⟨_, rfl, h.typ, by rw [Val.set, hword]⟩
    · rw [heq]
      simp only [hsize, Nat.ne_of_gt helem, if_false]
      exact ⟨_, rfl, h.typ, by rw [Val.set, hword]⟩

/-- … and subtracted as one. -/
theorem subConst_points (h : Points heap p) (n : Word) :
    ∃ x, subConstSem heap (p.at regs) n = .ok x ∧ x.typ = .regBtf ∧
      x.word = regs p.reg - scaled n (elemSize heap p.btf) := by
  have hword := at_word_reg h.typ regs
  have helem := h.elem
  unfold subConstSem
  by_cases hz : n = 0
  · refine ⟨_, if_pos hz, h.typ, ?_⟩
    rw [hz, scaled_zero, hword]
    exact (BitVec.sub_zero _).symm
  · rw [if_neg hz, at_btf]
    obtain ⟨target, heq, -, hsize⟩ | ⟨type, _, heq, hsize⟩ := h.elem_cases
    · rw [heq]
      simp only [hsize, Nat.ne_of_gt helem, if_false]
      exact ⟨_, rfl, h.typ, by rw [Val.set, hword]⟩
    · rw [heq]
      simp only [hsize, Nat.ne_of_gt helem, if_false]
      exact ⟨_, rfl, h.typ, by rw [Val.set, hword]⟩

/-- An index that meets the pointer. -/
theorem adjust_index (heap : Heap) (p : EvalValue) (regs : Reg → Word) (hi : i.typ = .num) :
    ((i.at regs).adjust heap (p.at regs)).typ = .num ∧
      ((i.at regs).adjust heap (p.at regs)).word = adjustNum heap i.num p := by
  rw [Val.adjust, if_neg (by simp [hi]), adjustNum_ref, at_word_num hi]
  exact ⟨hi, rfl⟩

/-! ## What the code computes -/

/-- How far the code moves the pointer by the index on its right. -/
def movedRight (heap : Heap) (p i : EvalValue) (regs : Reg → Word) : Word :=
  if i.typ = .num then scaled (adjustNum heap i.num p) (elemSize heap p.btf)
  else regs i.reg * int32 (BitVec.ofNat 64 (elemSize heap p.btf))

/-- How far by the index on its left. -/
def movedLeft (heap : Heap) (p i : EvalValue) (regs : Reg → Word) : Word :=
  if i.typ = .num then scaled (adjustNum heap i.num p) (elemSize heap p.btf) else regs i.reg

theorem scaleBy_points (h : Points heap p) (hi : i.typ = .regBtf) :
    scaleBy heap (p.at regs) (i.at regs) = regs i.reg * int32 (BitVec.ofNat 64 (elemSize heap p.btf)) := by
  rw [scaleBy, at_btf, if_pos (Nat.ne_of_gt h.elem), at_word_reg hi]

theorem pointer_right_word {op : BinOp} {fold : Word → Word → Word} (hop : additive op = some fold)
    (hp : Points heap p) (hi : IsInteger i) (regs : Reg → Word) :
    ∃ x, binSem heap op (p.at regs) (i.at regs) = .ok x ∧ x.typ = .regBtf ∧
      x.word = fold (regs p.reg) (movedRight heap p i regs) := by
  have hpre : binSem heap op (p.at regs) (i.at regs) =
      opSem heap op (p.at regs) ((i.at regs).adjust heap (p.at regs)) := by
    unfold binSem
    rw [preVal_calculable hp.calculable hi.calculable, adjust_reg hp.typ]
    rfl
  have hpt : (p.at regs).typ = .regBtf := hp.typ
  rw [hpre]
  obtain hnum | ⟨hreg, hint⟩ := hi
  · obtain ⟨htyp, hword⟩ := adjust_index heap p regs hnum
    rw [movedRight, if_pos hnum]
    cases op <;> simp only [additive, Option.some.injEq, reduceCtorEq] at hop
    case add =>
      subst hop
      simp only [opSem]
      rw [shaped_rn hpt htyp, hword]
      exact addConst_points hp _
    case sub =>
      subst hop
      simp only [opSem]
      rw [shaped_rn hpt htyp, hword]
      exact subConst_points hp _
  · have hit : (i.at regs).typ = .regBtf := hreg
    rw [adjust_reg hreg, movedRight, if_neg (by simp [hreg])]
    cases op <;> simp only [additive, Option.some.injEq, reduceCtorEq] at hop
    case add =>
      subst hop
      simp only [opSem]
      rw [shaped_rr hpt hit]
      exact ⟨_, rfl, hpt, by rw [Val.set, scaleBy_points hp hreg, at_word_reg hp.typ]⟩
    case sub =>
      subst hop
      simp only [opSem]
      rw [shaped_rr hpt hit]
      exact ⟨_, rfl, hpt, by rw [Val.set, scaleBy_points hp hreg, at_word_reg hp.typ]⟩

theorem pointer_left_word (hp : Points heap p) (hi : IsInteger i) (regs : Reg → Word) :
    ∃ x, binSem heap .add (i.at regs) (p.at regs) = .ok x ∧ x.typ = .regBtf ∧
      x.word = regs p.reg + movedLeft heap p i regs := by
  have hpre : binSem heap .add (i.at regs) (p.at regs) =
      opSem heap .add ((i.at regs).adjust heap (p.at regs)) (p.at regs) := by
    unfold binSem
    rw [preVal_calculable hi.calculable hp.calculable, adjust_reg hp.typ]
    rfl
  have hpt : (p.at regs).typ = .regBtf := hp.typ
  rw [hpre]
  simp only [opSem]
  obtain hnum | ⟨hreg, hint⟩ := hi
  · obtain ⟨htyp, hword⟩ := adjust_index heap p regs hnum
    rw [movedLeft, if_pos hnum, shaped_nr htyp hpt, hword]
    exact addConst_points hp _
  · have hit : (i.at regs).typ = .regBtf := hreg
    rw [adjust_reg hreg, movedLeft, if_neg (by simp [hreg]), shaped_rr hit hpt]
    refine ⟨_, rfl, hit, ?_⟩
    rw [Val.set, scaleBy, at_btf, elemSize_of_int hint, at_word_reg hreg, at_word_reg hp.typ]
    exact BitVec.add_comm _ _

theorem constScaled_iff (regs : Reg → Word) :
    scaled (adjustNum heap i.num p) (elemSize heap p.btf) = distance heap p i regs ↔
      ConstScaled heap p i regs := by
  rw [scaled_eq, int32_eq_iff]
  rfl

/-- Moving by two distances comes out the same for the same distance only. -/
theorem additive_inj {op : BinOp} {fold : Word → Word → Word} (hop : additive op = some fold)
    (a b c : Word) : fold a b = fold a c ↔ b = c := by
  cases op <;> simp only [additive, Option.some.injEq, reduceCtorEq] at hop
  case add => subst hop; exact BitVec.add_right_inj a
  case sub => subst hop; exact ⟨fun h => by bv_omega, fun h => by rw [h]⟩

/-- **Pointer arithmetic.** `p + i` and `p - i` move the pointer by `i`
elements if and only if 32 bits do not change the scaled constant, or the
size that scales the register; `i + p` does for a constant as `p + i`, and
for a register only where the index is the distance. -/
theorem pointer_values (heap : Heap) {p i : EvalValue} (hp : Points heap p) (hi : IsInteger i)
    (g g' : Gen) (v : EvalValue) (K : Kernel) (s : State) :
    (∀ op fold, additive op = some fold → Applied heap op p i g v g' →
      (Yields g g' v K s (fold (s.regs p.reg) (distance heap p i s.regs)) ↔ ScaledRight heap p i s.regs)) ∧
    (Applied heap .add i p g v g' →
      (Yields g g' v K s (s.regs p.reg + distance heap p i s.regs) ↔ ScaledLeft heap p i s.regs)) := by
  constructor
  · intro op fold hop h
    obtain ⟨x, hx, hxt, hxw⟩ := pointer_right_word hop hp hi s.regs
    rw [h.codeOk.yields_iff hx (.inr hxt), hxw, additive_inj hop, movedRight, ScaledRight]
    split
    · exact constScaled_iff s.regs
    · rfl
  · intro h
    obtain ⟨x, hx, hxt, hxw⟩ := pointer_left_word hp hi s.regs
    rw [h.codeOk.yields_iff hx (.inr hxt), hxw, BitVec.add_right_inj, movedLeft, ScaledLeft]
    split
    · exact constScaled_iff s.regs
    · rfl

end Pointers

/-! ### An index on the left -/

/-- A pointer to numbers of eight bytes. -/
def u64Pointer (reg : Reg) : EvalValue :=
  { typ := .regBtf, reg := reg, btf := some (.pointer (.int "u64" 8 .unsigned)) }

theorem points_u64Pointer (reg : Reg) : Points noHeap (u64Pointer reg) := ⟨rfl, Nat.succ_pos 7⟩

/-- The code of `i + p`, and of `p + i`. -/
def indexLeft : Gen :=
  { twoUsed with
    regalloc := twoUsed.regalloc.free R7
    insns := [(Op.alu .add R8 (.reg R7) : Insn)] }

theorem applied_index_left : Applied noHeap .add (u64In R8) (u64Pointer R7) twoUsed (u64In R8) indexLeft :=
  ⟨rfl, fun _ => ⟨rfl, by decide⟩, fun _ => ⟨rfl, by decide⟩, fun _ _ => by decide⟩

/-- `1 + p` with 1 in a register is `p + 1`, one byte on. -/
theorem index_left_not_scaled : Points noHeap (u64Pointer R7) ∧ IsInteger (u64In R8) ∧
    Applied noHeap .add (u64In R8) (u64Pointer R7) twoUsed (u64In R8) indexLeft ∧
    ¬ Yields twoUsed indexLeft (u64In R8) (onesKernel (.empty .probeRead)) (holding 1 0x1000) (0x1000 + 8) := by
  refine ⟨points_u64Pointer R7, .inr ⟨rfl, rfl⟩, applied_index_left, fun hyields => ?_⟩
  have hword := (applied_index_left.codeOk.yields_iff
    (x := { typ := .regBtf, word := 0x1001, btf := some (.int "u64" 8 .unsigned) }) rfl (.inr rfl) _).mp hyields
  exact absurd hword (by decide)

/-- `p + 2` with a constant. -/
theorem index_right_scaled :
    Yields twoUsed { twoUsed with insns := [(Asm.addImm R8 16 : Insn)] } (u64Pointer R8)
        (onesKernel (.empty .probeRead)) (holding 0x1000 0)
        (0x1000 + distance noHeap (u64Pointer R8) (constant 2) (holding 0x1000 0).regs) ↔
      ScaledRight noHeap (u64Pointer R8) (constant 2) (holding 0x1000 0).regs :=
  (pointer_values noHeap (points_u64Pointer R8) (.inl rfl) twoUsed
    { twoUsed with insns := [(Asm.addImm R8 16 : Insn)] } (u64Pointer R8) (onesKernel (.empty .probeRead))
    (holding 0x1000 0)).1 .add _ rfl
      ⟨rfl, fun _ => ⟨rfl, by decide⟩, by simp [Owned, constant], by simp [Apart, constant]⟩

end Bpfsnoop.CC
