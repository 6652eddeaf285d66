/-
Bpfsnoop.CC.OperatorTheorems — every operator function computes its
meaning.

`OpOk` is the contract of a binary operator function: the code it emitted
is plain (no load, store, call or label), falls through at its end, leaves
every register in use that is no operand alone, and turns the operands'
run-time values into the value `binSem` gives. `binary_ok` proves it for
all operators; `CodeOk` is the same contract for any number of operands,
and `minus_ok` … `cond_ok` prove it for the others.
-/
import Bpfsnoop.CC.Semantics

namespace Bpfsnoop.CC

open Ebpf Btf Reg

/-! ## Plain code -/

/-- An instruction that touches registers only and carries no symbol. -/
def Plain (i : Insn) : Prop :=
  i.symbol = none ∧
    match i.op with
    | .alu .. | .ja _ | .jmp .. => True
    | _ => False

/-- What an operator function adds to the state: plain code. -/
structure Emitted (g g' : Gen) (frag : List Insn) : Prop where
  insns : g'.insns = g.insns ++ frag
  label : g'.labelExitUsed = g.labelExitUsed
  plain : ∀ i ∈ frag, Plain i

/-- Plain code leaves the memories and the call count alone. -/
structure SameMemory (s s' : State) : Prop where
  stack : s'.stack = s.stack
  out : s'.out = s.out
  calls : s'.calls = s.calls

theorem SameMemory.refl (s : State) : SameMemory s s := ⟨rfl, rfl, rfl⟩

theorem SameMemory.set {s s' : State} (h : SameMemory s s') (r : Reg) (w : Word) :
    SameMemory s (s'.set r w) := ⟨h.stack, h.out, h.calls⟩

/-! ## Operands -/

/-- `v` is the register `q`. -/
def EvalValue.Holds (v : EvalValue) (q : Reg) : Prop := v.typ = .regBtf ∧ v.reg = q

/-- A register operand is in use, and among the registers given out. -/
def Owned (ra : RegisterAllocator) (v : EvalValue) : Prop :=
  v.typ = .regBtf → ra.registers v.reg = true ∧ v.reg ≤ R8

/-- Two register operands are different registers. -/
def Apart (l r : EvalValue) : Prop := l.typ = .regBtf → r.typ = .regBtf → l.reg ≠ r.reg

@[simp] theorem at_typ (v : EvalValue) (regs : Reg → Word) : (v.at regs).typ = v.typ := rfl
@[simp] theorem at_btf (v : EvalValue) (regs : Reg → Word) : (v.at regs).btf = v.btf := rfl
@[simp] theorem at_mem (v : EvalValue) (regs : Reg → Word) : (v.at regs).mem = v.mem := rfl
@[simp] theorem at_name (v : EvalValue) (regs : Reg → Word) : (v.at regs).name = v.name := rfl

theorem at_word_reg {v : EvalValue} (h : v.typ = .regBtf) (regs : Reg → Word) :
    (v.at regs).word = regs v.reg := by simp [EvalValue.at, h]

theorem at_word_num {v : EvalValue} (h : v.typ = .num) (regs : Reg → Word) :
    (v.at regs).word = v.num := by simp [EvalValue.at, h]

/-- The value of an operand depends on its own register only. -/
theorem at_congr {v : EvalValue} {regs regs' : Reg → Word}
    (h : v.typ = .regBtf → regs' v.reg = regs v.reg) : v.at regs' = v.at regs := by
  by_cases hv : v.typ = .regBtf
  · simp [EvalValue.at, hv, h hv]
  · simp [EvalValue.at, hv]

/-- A register operand whose register got a new content. -/
theorem at_set {v : EvalValue} (h : v.typ = .regBtf) {regs regs' : Reg → Word} {w : Word}
    (hw : regs' v.reg = w) : v.at regs' = (v.at regs).set w := by
  simp [EvalValue.at, Val.set, h, hw]

theorem adjustNum_ref (heap : Heap) (n : Word) (b : EvalValue) (regs : Reg → Word) :
    adjustNum heap n (b.at regs).ref = adjustNum heap n b := by
  simp [adjustNum, adjustNum.bySize, Val.ref]

/-- What `preHandleBinaryOp` does to the operands: constants change,
registers stay registers. -/
theorem preHandle_spec {heap : Heap} {a b a' b' : EvalValue}
    (h : preHandleBinaryOp heap a b = .ok (a', b')) :
    (∀ regs, preVal heap (a.at regs) (b.at regs) = .ok (a'.at regs, b'.at regs)) ∧
      (∀ q, a'.Holds q ↔ a.Holds q) ∧ (∀ q, b'.Holds q ↔ b.Holds q) := by
  unfold preHandleBinaryOp at h
  split at h
  · simp at h
  rename_i h1
  split at h
  · simp at h
  rename_i h2
  split at h
  · -- an enum name on the left
    rename_i h3
    obtain ⟨ha, hb⟩ := h3
    have hcalc : canCalculate b.btf = true := by simpa [hb] using h2
    split at h
    · rename_i num hnum
      simp only [Except.ok.injEq, Prod.mk.injEq] at h
      obtain ⟨rfl, rfl⟩ := h
      refine ⟨fun regs => ?_, ?_, ?_⟩
      · simp [preVal, ha, hb, hcalc, Val.resolve, hnum, EvalValue.at, bind,
          Except.bind, pure, Except.pure]
        rw [← adjustNum_ref heap num b regs]
        simp [EvalValue.at, hb]
      · simp [EvalValue.Holds, ha]
      · simp
    · simp at h
  rename_i h3
  split at h
  · -- an enum name on the right
    rename_i h4
    obtain ⟨ha, hb⟩ := h4
    have hcalc : canCalculate a.btf = true := by simpa [ha] using h1
    split at h
    · rename_i num hnum
      simp only [Except.ok.injEq, Prod.mk.injEq] at h
      obtain ⟨rfl, rfl⟩ := h
      refine ⟨fun regs => ?_, ?_, ?_⟩
      · simp [preVal, ha, hb, hcalc, Val.resolve, hnum, EvalValue.at, bind,
          Except.bind, pure, Except.pure]
        rw [← adjustNum_ref heap num a regs]
        simp [EvalValue.at, ha]
      · simp
      · simp [EvalValue.Holds, hb]
    · simp at h
  · rename_i h4
    simp only [Except.ok.injEq, Prod.mk.injEq] at h
    obtain ⟨rfl, rfl⟩ := h
    refine ⟨fun regs => ?_, ?_, ?_⟩
    · simp only [preVal, at_typ, at_btf, h1, h2, h3, h4, if_false]
      by_cases ha : a.typ = .regBtf <;> by_cases hb : b.typ = .regBtf <;>
        simp [Val.adjust, EvalValue.at, ha, hb, adjustNum, adjustNum.bySize, Val.ref]
    · simp [EvalValue.Holds]
    · simp [EvalValue.Holds]

/-! ## The contract of an operator function -/

/-- Called in state `g` on the operands `l` and `r`, an operator function
returned `v` in state `g'`, and the code in between computes `sem`. -/
def OpOk (sem : Val → Val → SemM Val) (l r : EvalValue) (g : Gen) (v : EvalValue) (g' : Gen) : Prop :=
  ∃ frag, Emitted g g' frag ∧
    (∀ q, g.regalloc.registers q = true → ¬ l.Holds q → ¬ r.Holds q →
      g'.regalloc.registers q = true) ∧
    Owned g'.regalloc v ∧
    (∀ q, v.Holds q → l.Holds q ∨ r.Holds q ∨ g.regalloc.registers q = false) ∧
    ∀ K s, ∃ s', exec K frag .run s = .cont .run s' ∧ SameMemory s s' ∧
      (∀ q, g.regalloc.registers q = true ∨ R9 ≤ q → ¬ l.Holds q → ¬ r.Holds q →
        s'.regs q = s.regs q) ∧
      sem (l.at s.regs) (r.at s.regs) = .ok (v.at s'.regs)

section Contract

variable {sem : Val → Val → SemM Val} {l r v o : EvalValue} {g g' : Gen} {frag : List Insn}

/-- The operands may be replaced by what `preHandleBinaryOp` makes of
them. -/
theorem OpOk.of_preHandle {heap : Heap} {op : BinOp} {l' r' : EvalValue}
    (hpre : preHandleBinaryOp heap l r = .ok (l', r'))
    (h : OpOk (opSem heap op) l' r' g v g') : OpOk (binSem heap op) l r g v g' := by
  obtain ⟨hval, hl, hr⟩ := preHandle_spec hpre
  obtain ⟨frag, hemit, hkeep, hown, hfrom, hcode⟩ := h
  simp only [hl, hr] at hkeep hfrom hcode
  refine ⟨frag, hemit, hkeep, hown, hfrom, fun K s => ?_⟩
  obtain ⟨s', hexec, hmem, hframe, hsem⟩ := hcode K s
  refine ⟨s', hexec, hmem, hframe, ?_⟩
  simpa [binSem, hval s.regs, bind, Except.bind] using hsem

theorem free_registers_of_ne {ra : RegisterAllocator} {q p : Reg} (h : p ≠ q) :
    (ra.free q).registers p = ra.registers p := by
  unfold RegisterAllocator.free
  split
  · simp [h]
  · rfl

/-- `o`, if it is a register, may have been freed. -/
def MaybeFreed (g g' : Gen) (o : EvalValue) : Prop :=
  g'.regalloc = g.regalloc ∨ (o.typ = .regBtf ∧ g'.regalloc = g.regalloc.free o.reg)

theorem MaybeFreed.registers (h : MaybeFreed g g' o) {q : Reg} (hq : ¬ o.Holds q) :
    g'.regalloc.registers q = g.regalloc.registers q := by
  rcases h with h | ⟨ho, h⟩
  · rw [h]
  · rw [h]
    exact free_registers_of_ne fun heq => hq ⟨ho, heq.symm⟩

/-- The result is one of the operands, the register `v`; the other one,
`o`, may have been freed. -/
theorem OpOk.keep (hvo : v = l ∧ o = r ∨ v = r ∧ o = l) (hv : v.typ = .regBtf)
    (hown : Owned g.regalloc v) (hapart : Apart v o) (hemit : Emitted g g' frag)
    (hfree : MaybeFreed g g' o)
    (hcode : ∀ K s, ∃ s', exec K frag .run s = .cont .run s' ∧ SameMemory s s' ∧
      (∀ q, ¬ v.Holds q → ¬ o.Holds q → s'.regs q = s.regs q) ∧
      sem (l.at s.regs) (r.at s.regs) = .ok ((v.at s.regs).set (s'.regs v.reg))) :
    OpOk sem l r g v g' := by
  have hlr : ∀ q, ¬ l.Holds q → ¬ r.Holds q → ¬ v.Holds q ∧ ¬ o.Holds q := by
    rcases hvo with ⟨rfl, rfl⟩ | ⟨rfl, rfl⟩
    · exact fun q hl hr => ⟨hl, hr⟩
    · exact fun q hl hr => ⟨hr, hl⟩
  have hvreg : ¬ o.Holds v.reg := by
    rintro ⟨ho, heq⟩
    exact hapart hv ho heq.symm
  refine ⟨frag, hemit, ?_, ?_, ?_, fun K s => ?_⟩
  · intro q hq hl hr
    rw [hfree.registers (hlr q hl hr).2]
    exact hq
  · intro _
    rw [hfree.registers hvreg]
    exact hown hv
  · intro q hq
    rcases hvo with ⟨rfl, -⟩ | ⟨rfl, -⟩
    · exact Or.inl hq
    · exact Or.inr (Or.inl hq)
  · obtain ⟨s', hexec, hmem, hframe, hsem⟩ := hcode K s
    refine ⟨s', hexec, hmem, ?_, ?_⟩
    · intro q _ hl hr
      exact hframe q (hlr q hl hr).1 (hlr q hl hr).2
    · rw [hsem]
      exact congrArg Except.ok (at_set hv rfl).symm

/-- The result is a constant and no code is emitted; registers among the
operands may have been freed. -/
theorem OpOk.constant (hv : v.typ ≠ .regBtf) (hemit : Emitted g g' [])
    (hkeep : ∀ q, ¬ l.Holds q → ¬ r.Holds q →
      g'.regalloc.registers q = g.regalloc.registers q)
    (hsem : ∀ regs, sem (l.at regs) (r.at regs) = .ok (v.at regs)) : OpOk sem l r g v g' := by
  refine ⟨[], hemit, ?_, fun h => absurd h hv, fun q h => absurd h.1 hv, fun K s => ?_⟩
  · intro q hq hl hr
    rw [hkeep q hl hr]
    exact hq
  · exact ⟨s, rfl, SameMemory.refl s, fun q _ _ _ => rfl, hsem s.regs⟩

/-- A register was allocated for the result `v`; the operands may have
been freed since. -/
theorem OpOk.fresh {ra : RegisterAllocator} (hv : v.typ = .regBtf)
    (halloc : g.regalloc.alloc = .ok (v.reg, ra)) (hemit : Emitted g g' frag)
    (hr : r.typ = .regBtf) (hown : Owned g.regalloc r)
    (hfree : g'.regalloc = ra.free r.reg)
    (hcode : v.reg ≠ r.reg → ∀ K s, ∃ w, exec K frag .run s = .cont .run (s.set v.reg w) ∧
      sem (l.at s.regs) (r.at s.regs) = .ok ((v.at s.regs).set w)) :
    OpOk sem l r g v g' := by
  obtain ⟨hunused, hle, rfl⟩ := RegisterAllocator.alloc_spec halloc
  have hne : v.reg ≠ r.reg := by
    intro heq
    rw [heq, (hown hr).1] at hunused
    simp at hunused
  refine ⟨frag, hemit, ?_, ?_, ?_, fun K s => ?_⟩
  · intro q hq _ hqr
    have hqv : q ≠ v.reg := by
      rintro rfl
      simp [hunused] at hq
    rw [hfree, free_registers_of_ne fun heq => hqr ⟨hr, heq.symm⟩]
    simpa [hqv] using hq
  · intro _
    rw [hfree, free_registers_of_ne hne]
    exact ⟨by simp, hle⟩
  · rintro q ⟨-, rfl⟩
    exact Or.inr (Or.inr hunused)
  · obtain ⟨w, hexec, hsem⟩ := hcode hne K s
    refine ⟨s.set v.reg w, hexec, (SameMemory.refl s).set _ _, ?_, ?_⟩
    · intro q hq _ _
      have hqv : q ≠ v.reg := by
        rintro rfl
        rcases hq with hq | hq
        · simp [hunused] at hq
        · exact absurd (le_trans hq hle) (by decide)
      simp [hqv]
    · rw [hsem]
      exact congrArg Except.ok (at_set hv (by simp)).symm

end Contract

/-! ## Executing the emitted shapes -/

@[simp] theorem int32_scaled (n : Word) (size : Nat) : int32 (scaled n size) = scaled n size := by
  rw [scaled, int32, setWidth_signExtend]

/-- A conditional jump over `emitReg2bool`: the register gets 1 when the
jump is not taken. -/
theorem exec_reg2bool (K : Kernel) (s : State) (d a : Reg) (op : JumpOp) (src : Operand) :
    exec K (⟨.jmp op a src 2, none⟩ :: reg2bool d) .run s
      = .cont .run (s.set d (bool2int (!op.eval (s.regs a) (src.eval s.regs)))) := by
  by_cases h : op.eval (s.regs a) (src.eval s.regs)
  · simp [reg2bool, h, AluOp.eval, bool2int]
  · simp [reg2bool, h, AluOp.eval, bool2int]

theorem plain_alu {op : AluOp} {d : Reg} {src : Operand} : Plain ⟨.alu op d src, none⟩ :=
  ⟨rfl, trivial⟩

theorem plain_ja {off : BitVec 16} : Plain ⟨.ja off, none⟩ := ⟨rfl, trivial⟩

theorem plain_jmp {op : JumpOp} {a : Reg} {src : Operand} {off : BitVec 16} :
    Plain ⟨.jmp op a src off, none⟩ := ⟨rfl, trivial⟩

theorem plain_reg2bool (d : Reg) : ∀ i ∈ reg2bool d, Plain i := by
  intro i hi
  simp only [reg2bool, List.mem_cons, List.not_mem_nil, or_false] at hi
  rcases hi with rfl | rfl | rfl
  · exact plain_alu
  · exact plain_ja
  · exact plain_alu

/-! ## One lemma for each operator

`shapes` of the operands as in the source: the two constants, the two
registers, a constant and a register in either order. -/

section Operators

variable {heap : Heap} {l r v : EvalValue} {g g' : Gen}

theorem Owned.of_holds {ra : RegisterAllocator} {v v' : EvalValue} (h : Owned ra v)
    (hv : ∀ q, v'.Holds q ↔ v.Holds q) : Owned ra v' := by
  intro htyp
  obtain ⟨htyp', hreg⟩ := (hv v'.reg).mp ⟨htyp, rfl⟩
  rw [← hreg]
  exact h htyp'

theorem Apart.of_holds {l r l' r' : EvalValue} (h : Apart l r)
    (hl : ∀ q, l'.Holds q ↔ l.Holds q) (hr : ∀ q, r'.Holds q ↔ r.Holds q) : Apart l' r' := by
  intro hlt hrt
  obtain ⟨hlt', hlreg⟩ := (hl l'.reg).mp ⟨hlt, rfl⟩
  obtain ⟨hrt', hrreg⟩ := (hr r'.reg).mp ⟨hrt, rfl⟩
  rw [← hlreg, ← hrreg]
  exact h hlt' hrt'

/-- Every operator begins with `preHandleBinaryOp`. -/
theorem OpOk.of_bind {op : BinOp} {f : EvalValue × EvalValue → CodeM EvalValue}
    (h : (lift (preHandleBinaryOp heap l r) >>= f) g = .ok (v, g'))
    (hl : Owned g.regalloc l) (hr : Owned g.regalloc r) (hlr : Apart l r)
    (hf : ∀ l r, Owned g.regalloc l → Owned g.regalloc r → Apart l r →
      f (l, r) g = .ok (v, g') → OpOk (opSem heap op) l r g v g') :
    OpOk (binSem heap op) l r g v g' := by
  simp only [bind_eq_ok, lift_eq_ok] at h
  obtain ⟨⟨l', r'⟩, g₁, ⟨hpre, rfl⟩, h⟩ := h
  obtain ⟨-, hl', hr'⟩ := preHandle_spec hpre
  exact OpOk.of_preHandle hpre
    (hf l' r' (hl.of_holds hl') (hr.of_holds hr') (hlr.of_holds hl' hr') h)

/-- One register changes: `v`, an operand. The other operand may have been
freed. -/
theorem OpOk.set {sem : Val → Val → SemM Val} {o : EvalValue} {frag : List Insn}
    (hvo : v = l ∧ o = r ∨ v = r ∧ o = l) (hv : v.typ = .regBtf) (hown : Owned g.regalloc v)
    (hapart : Apart v o) (hemit : Emitted g g' frag) (hfree : MaybeFreed g g' o)
    (hcode : ∀ K s, ∃ w, exec K frag .run s = .cont .run (s.set v.reg w) ∧
      sem (l.at s.regs) (r.at s.regs) = .ok ((v.at s.regs).set w)) :
    OpOk sem l r g v g' := by
  refine OpOk.keep hvo hv hown hapart hemit hfree fun K s => ?_
  obtain ⟨w, hexec, hsem⟩ := hcode K s
  refine ⟨s.set v.reg w, hexec, (SameMemory.refl s).set _ _, fun q hq _ => ?_, ?_⟩
  · exact State.set_regs_of_ne s w fun heq => hq ⟨hv, heq.symm⟩
  · rw [hsem, State.set_regs_self]

/-- No code: the result is the register operand `v` as it is. -/
theorem OpOk.same {sem : Val → Val → SemM Val} (hvo : v = l ∨ v = r)
    (hown : Owned g.regalloc v) (hsem : ∀ regs, sem (l.at regs) (r.at regs) = .ok (v.at regs)) :
    OpOk sem l r g v g := by
  have hemit : Emitted g g [] := ⟨by simp, rfl, by simp⟩
  refine ⟨[], hemit, fun q hq _ _ => hq, hown, fun q hq => ?_, fun K s => ?_⟩
  · rcases hvo with rfl | rfl
    · exact Or.inl hq
    · exact Or.inr (Or.inl hq)
  · exact ⟨s, rfl, SameMemory.refl s, fun q _ _ _ => rfl, hsem s.regs⟩

theorem Apart.symm (h : Apart l r) : Apart r l := fun hr hl heq => h hl hr heq.symm

/-- Two constants. -/
theorem fold_ok {sem : Val → Val → SemM Val} {w : Word} (hl : l.typ = .num)
    (h : (pure { typ := .num, reg := l.reg, num := w, name := l.name, btf := l.btf, mem := l.mem } :
      CodeM EvalValue) g = .ok (v, g'))
    (hsem : ∀ regs, sem (l.at regs) (r.at regs) = .ok ((l.at regs).set w)) :
    OpOk sem l r g v g' := by
  simp only [pure_eq_ok] at h
  obtain ⟨rfl, rfl⟩ := h
  have hemit : Emitted g g [] := ⟨by simp, rfl, by simp⟩
  refine OpOk.constant (by simp) hemit (fun _ _ _ => rfl) fun regs => ?_
  rw [hsem]
  simp [EvalValue.at, Val.set, hl]

/-! ### The code the operators share -/

/-- One instruction with a constant on the register operand `w`. -/
theorem aluImm_ok {sem : Val → Val → SemM Val} {op : AluOp} {n : Word} {w o : EvalValue}
    (hwo : w = l ∧ o = r ∨ w = r ∧ o = l) (ho : o.typ = .num)
    (h : (do emit [Op.alu op w.reg (.imm n)]; return w : CodeM EvalValue) g = .ok (v, g'))
    (hw : w.typ = .regBtf) (hown : Owned g.regalloc w)
    (hsem : ∀ regs, sem (l.at regs) (r.at regs)
      = .ok ((w.at regs).set (op.eval (w.at regs).word (int32 n)))) :
    OpOk sem l r g v g' := by
  simp only [bind_eq_ok, emit_eq_ok, pure_eq_ok] at h
  obtain ⟨_, _, rfl, rfl, rfl⟩ := h
  have hapart : Apart w o := fun _ h => by simp [ho] at h
  refine OpOk.set hwo hw hown hapart ⟨rfl, rfl, by simp [plain_alu]⟩ (Or.inl rfl) fun K s => ?_
  refine ⟨op.eval (s.regs w.reg) (int32 n), rfl, ?_⟩
  rw [hsem, at_word_reg hw]

/-- One instruction on two registers; the right one is freed. -/
theorem aluReg_ok {sem : Val → Val → SemM Val} {op : AluOp}
    (h : (do emit [Op.alu op l.reg (.reg r.reg)]; free r.reg; return l : CodeM EvalValue) g
      = .ok (v, g'))
    (hlt : l.typ = .regBtf) (hrt : r.typ = .regBtf) (hl : Owned g.regalloc l) (hlr : Apart l r)
    (hsem : ∀ regs, sem (l.at regs) (r.at regs)
      = .ok ((l.at regs).set (op.eval (l.at regs).word (r.at regs).word))) :
    OpOk sem l r g v g' := by
  simp only [bind_eq_ok, emit_eq_ok, free_eq_ok, pure_eq_ok] at h
  obtain ⟨_, _, rfl, _, _, rfl, rfl, rfl⟩ := h
  refine OpOk.set (Or.inl ⟨rfl, rfl⟩) hlt hl hlr ⟨rfl, rfl, by simp [plain_alu]⟩
    (Or.inr ⟨hrt, rfl⟩) fun K s => ?_
  refine ⟨op.eval (s.regs l.reg) (s.regs r.reg), rfl, ?_⟩
  rw [hsem, at_word_reg hlt, at_word_reg hrt]

/-- As `aluReg_ok`, with the right register scaled before. -/
theorem aluScaled_ok {sem : Val → Val → SemM Val} {op : AluOp}
    (h : (do
      if elemSize heap l.btf ≠ 0 then
        emit [Op.alu .mul r.reg (.imm (int32 (BitVec.ofNat 64 (elemSize heap l.btf))))]
      emit [Op.alu op l.reg (.reg r.reg)]
      free r.reg
      return l : CodeM EvalValue) g = .ok (v, g'))
    (hlt : l.typ = .regBtf) (hrt : r.typ = .regBtf) (hl : Owned g.regalloc l) (hlr : Apart l r)
    (hsem : ∀ regs, sem (l.at regs) (r.at regs)
      = .ok ((l.at regs).set (op.eval (l.at regs).word (scaleBy heap (l.at regs) (r.at regs))))) :
    OpOk sem l r g v g' := by
  dsimp only at h
  split at h
  · rename_i hsize
    simp only [bind_eq_ok, emit_eq_ok, free_eq_ok, pure_eq_ok] at h
    obtain ⟨_, _, rfl, _, _, rfl, _, _, rfl, rfl, rfl⟩ := h
    refine OpOk.keep (Or.inl ⟨rfl, rfl⟩) hlt hl hlr
      ⟨List.append_assoc _ _ _, rfl, by simp [plain_alu]⟩ (Or.inr ⟨hrt, rfl⟩) fun K s => ?_
    refine ⟨_, rfl, ((SameMemory.refl s).set _ _).set _ _, fun q hql hqr => ?_, ?_⟩
    · rw [State.set_regs_of_ne _ _ fun heq => hql ⟨hlt, heq.symm⟩,
        State.set_regs_of_ne _ _ fun heq => hqr ⟨hrt, heq.symm⟩]
    · rw [hsem, at_word_reg hlt, scaleBy, at_btf, if_pos hsize, at_word_reg hrt,
        State.set_regs_self, State.set_regs_of_ne _ _ (hlr hlt hrt)]
      simp [AluOp.eval]
  · rename_i hsize
    refine aluReg_ok h hlt hrt hl hlr fun regs => ?_
    rw [hsem, scaleBy, at_btf, if_neg hsize]

/-- The register operand `o` is dropped for the constant `w`. -/
theorem drop_ok {sem : Val → Val → SemM Val} {w o : EvalValue} (ho : o = l ∨ o = r)
    (h : (do free o.reg; return w : CodeM EvalValue) g = .ok (v, g'))
    (hot : o.typ = .regBtf) (hw : w.typ = .num)
    (hsem : ∀ regs, sem (l.at regs) (r.at regs) = .ok (w.at regs)) : OpOk sem l r g v g' := by
  simp only [bind_eq_ok, free_eq_ok, pure_eq_ok] at h
  obtain ⟨_, _, rfl, rfl, rfl⟩ := h
  refine OpOk.constant (by simp [hw]) ⟨by simp, rfl, by simp⟩ (fun q hql hqr => ?_) hsem
  have hq : ¬ o.Holds q := by rcases ho with rfl | rfl <;> assumption
  exact free_registers_of_ne fun heq => hq ⟨hot, heq.symm⟩

/-- A comparison of the register operand `w` with a constant. -/
theorem boolImm_ok {sem : Val → Val → SemM Val} {op : JumpOp} {n : Word} {w o : EvalValue}
    (hwo : w = l ∧ o = r ∨ w = r ∧ o = l) (ho : o.typ = .num)
    (h : (do emit [jmpOff op w.reg n 2]; emit (reg2bool w.reg); return w : CodeM EvalValue) g
      = .ok (v, g'))
    (hw : w.typ = .regBtf) (hown : Owned g.regalloc w)
    (hsem : ∀ regs, sem (l.at regs) (r.at regs)
      = .ok ((w.at regs).set (bool2int (!op.eval (w.at regs).word (int32 n))))) :
    OpOk sem l r g v g' := by
  simp only [bind_eq_ok, emit_eq_ok, pure_eq_ok] at h
  obtain ⟨_, _, rfl, _, _, rfl, rfl, rfl⟩ := h
  have hapart : Apart w o := fun _ h => by simp [ho] at h
  refine OpOk.set hwo hw hown hapart
    ⟨List.append_assoc _ _ _, rfl, by simpa [plain_jmp] using plain_reg2bool w.reg⟩ (Or.inl rfl)
    fun K s => ?_
  refine ⟨_, exec_reg2bool K s w.reg w.reg op (.imm n), ?_⟩
  rw [hsem, at_word_reg hw, Operand.eval_imm]

/-- `addConst`, from either side. -/
theorem addConst_ok {sem : Val → Val → SemM Val} {n : Word} {w o : EvalValue}
    (hwo : w = l ∧ o = r ∨ w = r ∧ o = l) (ho : o.typ = .num)
    (h : addConst heap n w g = .ok (v, g')) (hw : w.typ = .regBtf) (hown : Owned g.regalloc w)
    (hsem : ∀ regs, sem (l.at regs) (r.at regs) = addConstSem heap n (w.at regs)) :
    OpOk sem l r g v g' := by
  unfold addConst at h
  split at h
  · -- adding 0 changes nothing
    rename_i hn
    simp only [pure_eq_ok] at h
    obtain ⟨rfl, rfl⟩ := h
    refine OpOk.same (hwo.imp (·.1) (·.1)) hown fun regs => ?_
    rw [hsem, addConstSem, if_pos hn]
  rename_i hn
  split at h
  · rename_i target htarget
    split at h
    · rename_i hvoid
      refine aluImm_ok hwo ho h hw hown fun regs => ?_
      rw [hsem, addConstSem, if_neg hn]
      simp [htarget, hvoid, AluOp.eval]
    · rename_i hvoid
      dsimp only at h
      split at h
      · simp at h
      · rename_i hsize
        refine aluImm_ok hwo ho h hw hown fun regs => ?_
        rw [hsem, addConstSem, if_neg hn]
        simp [htarget, hvoid, hsize, AluOp.eval]
  · rename_i type nelems htype
    dsimp only at h
    split at h
    · simp at h
    · rename_i hsize
      refine aluImm_ok hwo ho h hw hown fun regs => ?_
      rw [hsem, addConstSem, if_neg hn]
      simp [htype, hsize, AluOp.eval]
  · refine aluImm_ok hwo ho h hw hown fun regs => ?_
    rw [hsem, addConstSem, if_neg hn, int32_int32]
    simp only [at_btf, AluOp.eval]

/-- The constant operand of `sub`, on the right. -/
theorem subConst_ok {sem : Val → Val → SemM Val} (ho : r.typ = .num)
    (h : (do
      if r.num = 0 then
        return l
      match l.btf.map underlyingType with
      | some (.pointer target) =>
        let size := sizeofD heap target
        if size = 0 then
          emit [Op.alu .sub l.reg (.imm (int32 r.num))]
        else
          emit [Op.alu .sub l.reg (.imm (scaled r.num size))]
      | some (.array type _) =>
        let size := sizeofD heap type
        if size = 0 then
          free l.reg
          fail (.errorf "disallow type %v for sub" [.type l.btf])
        emit [Op.alu .sub l.reg (.imm (scaled r.num size))]
      | _ => emit [Op.alu .sub l.reg (.imm (int32 r.num))]
      return l : CodeM EvalValue) g = .ok (v, g'))
    (hlt : l.typ = .regBtf) (hown : Owned g.regalloc l)
    (hsem : ∀ regs, sem (l.at regs) (r.at regs) = subConstSem heap (l.at regs) r.num) :
    OpOk sem l r g v g' := by
  have hlr : l = l ∧ r = r ∨ l = r ∧ r = l := Or.inl ⟨rfl, rfl⟩
  split at h
  · -- subtracting 0 changes nothing
    rename_i hn
    simp only [pure_eq_ok] at h
    obtain ⟨rfl, rfl⟩ := h
    refine OpOk.same (Or.inl rfl) hown fun regs => ?_
    rw [hsem, subConstSem, if_pos hn]
  rename_i hn
  split at h
  · rename_i target htarget
    dsimp only at h
    split at h
    · rename_i hsize
      refine aluImm_ok hlr ho h hlt hown fun regs => ?_
      rw [hsem, subConstSem, if_neg hn]
      simp [htarget, hsize, AluOp.eval]
    · rename_i hsize
      refine aluImm_ok hlr ho h hlt hown fun regs => ?_
      rw [hsem, subConstSem, if_neg hn]
      simp [htarget, hsize, AluOp.eval]
  · rename_i type nelems htype
    dsimp only at h
    split at h
    · simp at h
    · rename_i hsize
      refine aluImm_ok hlr ho h hlt hown fun regs => ?_
      rw [hsem, subConstSem, if_neg hn]
      simp [htype, hsize, AluOp.eval]
  · refine aluImm_ok hlr ho h hlt hown fun regs => ?_
    rw [hsem, subConstSem, if_neg hn, int32_int32]
    simp only [at_btf, AluOp.eval]

/-! ### The operators -/

theorem add_ok (h : add heap l r g = .ok (v, g')) (hl : Owned g.regalloc l)
    (hr : Owned g.regalloc r) (hlr : Apart l r) : OpOk (binSem heap .add) l r g v g' := by
  refine OpOk.of_bind h hl hr hlr fun l r hl hr hlr h => ?_
  cases hlt : l.typ <;> cases hrt : r.typ <;> simp only [hlt, hrt, fail_eq_ok] at h
  case num.num =>
    exact fold_ok hlt h fun regs => by simp [opSem, shaped, hlt, hrt, at_word_num]
  case num.regBtf =>
    exact addConst_ok (Or.inr ⟨rfl, rfl⟩) hlt h hrt hr fun regs => by
      simp [opSem, shaped, hlt, hrt, at_word_num]
  case regBtf.num =>
    exact addConst_ok (Or.inl ⟨rfl, rfl⟩) hrt h hlt hl fun regs => by
      simp [opSem, shaped, hlt, hrt, at_word_num]
  case regBtf.regBtf =>
    exact aluScaled_ok h hlt hrt hl hlr fun regs => by simp [opSem, shaped, hlt, hrt, AluOp.eval]

theorem sub_ok (h : sub heap l r g = .ok (v, g')) (hl : Owned g.regalloc l)
    (hr : Owned g.regalloc r) (hlr : Apart l r) : OpOk (binSem heap .sub) l r g v g' := by
  refine OpOk.of_bind h hl hr hlr fun l r hl hr hlr h => ?_
  cases hlt : l.typ <;> cases hrt : r.typ <;> simp only [hlt, hrt, fail_eq_ok] at h
  case num.num =>
    exact fold_ok hlt h fun regs => by simp [opSem, shaped, hlt, hrt, at_word_num]
  case num.regBtf =>
    split at h
    · rename_i htype
      split at h
      · rename_i hn
        simp only [bind_eq_ok, emit_eq_ok, pure_eq_ok] at h
        obtain ⟨_, _, rfl, rfl, rfl⟩ := h
        refine OpOk.set (Or.inr ⟨rfl, rfl⟩) hrt hr hlr.symm ⟨rfl, rfl, by simp [plain_alu]⟩
          (Or.inl rfl) fun K s => ⟨-(s.regs r.reg), rfl, ?_⟩
        simp [opSem, shaped, hlt, hrt, htype, at_word_num hlt, at_word_reg hrt, hn]
      · rename_i hn
        refine aluImm_ok (Or.inr ⟨rfl, rfl⟩) hlt h hrt hr fun regs => ?_
        simp [opSem, shaped, hlt, hrt, htype, at_word_num hlt, show l.num ≠ 0#64 from hn, AluOp.eval]
    · simp at h
  case regBtf.num =>
    exact subConst_ok hrt h hlt hl fun regs => by simp [opSem, shaped, hlt, hrt, at_word_num]
  case regBtf.regBtf =>
    exact aluScaled_ok h hlt hrt hl hlr fun regs => by simp [opSem, shaped, hlt, hrt, AluOp.eval]

theorem and_ok (h : and heap l r g = .ok (v, g')) (hl : Owned g.regalloc l)
    (hr : Owned g.regalloc r) (hlr : Apart l r) : OpOk (binSem heap .and) l r g v g' := by
  refine OpOk.of_bind h hl hr hlr fun l r hl hr hlr h => ?_
  cases hlt : l.typ <;> cases hrt : r.typ <;> simp only [hlt, hrt, fail_eq_ok] at h
  case num.num =>
    exact fold_ok hlt h fun regs => by simp [opSem, shaped, hlt, hrt, at_word_num]
  case num.regBtf =>
    exact aluImm_ok (Or.inr ⟨rfl, rfl⟩) hlt h hrt hr fun regs => by
      simp [opSem, shaped, hlt, hrt, at_word_num, AluOp.eval]
  case regBtf.num =>
    exact aluImm_ok (Or.inl ⟨rfl, rfl⟩) hrt h hlt hl fun regs => by
      simp [opSem, shaped, hlt, hrt, at_word_num, AluOp.eval]
  case regBtf.regBtf =>
    exact aluReg_ok h hlt hrt hl hlr fun regs => by simp [opSem, shaped, hlt, hrt, AluOp.eval]

/-- `or` and `xor`. -/
theorem orLike_ok {op : BinOp} {fold : Word → Word → Word} {aluOp : AluOp}
    (hop : ∀ a b, opSem heap op a b = orLikeSem fold a b) (hfold : ∀ a b, aluOp.eval a b = fold a b)
    (h : orLike heap fold aluOp l r g = .ok (v, g')) (hl : Owned g.regalloc l)
    (hr : Owned g.regalloc r) (hlr : Apart l r) : OpOk (binSem heap op) l r g v g' := by
  refine OpOk.of_bind h hl hr hlr fun l r hl hr hlr h => ?_
  cases hlt : l.typ <;> cases hrt : r.typ <;> simp only [hlt, hrt, fail_eq_ok] at h
  case num.num =>
    exact fold_ok hlt h fun regs => by simp [hop, orLikeSem, shaped, hlt, hrt, at_word_num]
  case num.regBtf =>
    split at h
    · rename_i hn
      exact drop_ok (Or.inr rfl) h hrt hlt fun regs => by
        simp [hop, orLikeSem, shaped, hlt, hrt, at_word_num, hn]
    · rename_i hn
      refine aluImm_ok (Or.inr ⟨rfl, rfl⟩) hlt h hrt hr fun regs => ?_
      simp only [hop, orLikeSem, shaped, at_typ, hlt, hrt, at_word_num hlt, if_neg hn, hfold,
        int32_int32]
  case regBtf.num =>
    split at h
    · rename_i hn
      exact drop_ok (Or.inl rfl) h hlt hrt fun regs => by
        simp [hop, orLikeSem, shaped, hlt, hrt, at_word_num, hn]
    · rename_i hn
      refine aluImm_ok (Or.inl ⟨rfl, rfl⟩) hrt h hlt hl fun regs => ?_
      simp only [hop, orLikeSem, shaped, at_typ, hlt, hrt, at_word_num hrt, if_neg hn, hfold,
        int32_int32]
  case regBtf.regBtf =>
    exact aluReg_ok h hlt hrt hl hlr fun regs => by simp [hop, orLikeSem, shaped, hlt, hrt, hfold]

/-- The six comparisons. -/
theorem compare_ok {op : BinOp} {fold : Word → Word → Bool} {inverse : JumpOp}
    (hop : ∀ a b, opSem heap op a b = compareSem fold inverse a b)
    (h : compare heap fold inverse l r g = .ok (v, g')) (hl : Owned g.regalloc l)
    (hr : Owned g.regalloc r) (hlr : Apart l r) : OpOk (binSem heap op) l r g v g' := by
  refine OpOk.of_bind h hl hr hlr fun l r hl hr hlr h => ?_
  cases hlt : l.typ <;> cases hrt : r.typ <;> simp only [hlt, hrt, fail_eq_ok] at h
  case num.num =>
    exact fold_ok hlt h fun regs => by simp [hop, compareSem, shaped, hlt, hrt, at_word_num]
  case num.regBtf =>
    exact boolImm_ok (Or.inr ⟨rfl, rfl⟩) hlt h hrt hr fun regs => by
      simp [hop, compareSem, shaped, hlt, hrt, at_word_num]
  case regBtf.num =>
    exact boolImm_ok (Or.inl ⟨rfl, rfl⟩) hrt h hlt hl fun regs => by
      simp [hop, compareSem, shaped, hlt, hrt, at_word_num]
  case regBtf.regBtf =>
    simp only [bind_eq_ok, emit_eq_ok, free_eq_ok, pure_eq_ok] at h
    obtain ⟨_, _, rfl, _, _, rfl, _, _, rfl, rfl, rfl⟩ := h
    refine OpOk.set (Or.inl ⟨rfl, rfl⟩) hlt hl hlr
      ⟨List.append_assoc _ _ _, rfl, by simpa [plain_jmp] using plain_reg2bool l.reg⟩
      (Or.inr ⟨hrt, rfl⟩) fun K s => ?_
    refine ⟨_, exec_reg2bool K s l.reg l.reg inverse (.reg r.reg), ?_⟩
    simp [hop, compareSem, shaped, hlt, hrt, at_word_reg]

theorem andand_ok (h : andand heap l r g = .ok (v, g')) (hl : Owned g.regalloc l)
    (hr : Owned g.regalloc r) (hlr : Apart l r) : OpOk (binSem heap .andAnd) l r g v g' := by
  refine OpOk.of_bind h hl hr hlr fun l r hl hr hlr h => ?_
  cases hlt : l.typ <;> cases hrt : r.typ <;> simp only [hlt, hrt, fail_eq_ok] at h
  case num.num =>
    exact fold_ok hlt h fun regs => by simp [opSem, shaped, hlt, hrt, at_word_num]
  case num.regBtf =>
    split at h
    · rename_i hn
      exact drop_ok (Or.inr rfl) h hrt hlt fun regs => by
        simp [opSem, shaped, hlt, hrt, at_word_num, hn]
    · rename_i hn
      refine boolImm_ok (Or.inr ⟨rfl, rfl⟩) hlt h hrt hr fun regs => ?_
      simp [opSem, shaped, hlt, hrt, at_word_num hlt, show l.num ≠ 0#64 from hn]
  case regBtf.num =>
    split at h
    · rename_i hn
      exact drop_ok (Or.inl rfl) h hlt hrt fun regs => by
        simp [opSem, shaped, hlt, hrt, at_word_num, hn]
    · rename_i hn
      refine boolImm_ok (Or.inl ⟨rfl, rfl⟩) hrt h hlt hl fun regs => ?_
      simp [opSem, shaped, hlt, hrt, at_word_num hrt, show r.num ≠ 0#64 from hn]
  case regBtf.regBtf =>
    simp only [bind_eq_ok, emit_eq_ok, free_eq_ok, pure_eq_ok] at h
    obtain ⟨_, _, rfl, _, _, rfl, _, _, rfl, _, _, rfl, rfl, rfl⟩ := h
    refine OpOk.set (Or.inl ⟨rfl, rfl⟩) hlt hl hlr
      ⟨by simp only [List.append_assoc]; rfl, rfl,
        by simpa [plain_jmp] using plain_reg2bool l.reg⟩ (Or.inr ⟨hrt, rfl⟩) fun K s => ?_
    refine ⟨bool2int (s.regs l.reg ≠ 0 && s.regs r.reg ≠ 0), ?_, ?_⟩
    · by_cases hlz : s.regs l.reg = 0#64
      · simp [reg2bool, hlz, JumpOp.eval, AluOp.eval, bool2int]
      · by_cases hrz : s.regs r.reg = 0#64 <;>
          simp [reg2bool, hlz, hrz, JumpOp.eval, AluOp.eval, bool2int]
    · simp [opSem, shaped, hlt, hrt, at_word_reg]

theorem oror_ok (h : oror heap l r g = .ok (v, g')) (hl : Owned g.regalloc l)
    (hr : Owned g.regalloc r) (hlr : Apart l r) : OpOk (binSem heap .orOr) l r g v g' := by
  refine OpOk.of_bind h hl hr hlr fun l r hl hr hlr h => ?_
  cases hlt : l.typ <;> cases hrt : r.typ <;> simp only [hlt, hrt, fail_eq_ok] at h
  case num.num =>
    exact fold_ok hlt h fun regs => by simp [opSem, shaped, hlt, hrt, at_word_num]
  case num.regBtf =>
    split at h
    · rename_i hn
      refine drop_ok (Or.inr rfl) h hrt rfl fun regs => ?_
      simp [opSem, shaped, hlt, hrt, show l.num ≠ 0#64 from hn, EvalValue.at, Val.set]
    · rename_i hn
      refine boolImm_ok (Or.inr ⟨rfl, rfl⟩) hlt h hrt hr fun regs => ?_
      simp [opSem, shaped, hlt, hrt, at_word_num hlt, show l.num = 0#64 from not_not.mp hn]
  case regBtf.num =>
    split at h
    · rename_i hn
      refine drop_ok (Or.inl rfl) h hlt rfl fun regs => ?_
      simp [opSem, shaped, hlt, hrt, show r.num ≠ 0#64 from hn, EvalValue.at, Val.set]
    · rename_i hn
      refine boolImm_ok (Or.inl ⟨rfl, rfl⟩) hrt h hlt hl fun regs => ?_
      simp [opSem, shaped, hlt, hrt, at_word_num hrt, show r.num = 0#64 from not_not.mp hn]
  case regBtf.regBtf =>
    simp only [bind_eq_ok, emit_eq_ok, free_eq_ok, pure_eq_ok] at h
    obtain ⟨_, _, rfl, _, _, rfl, _, _, rfl, _, _, rfl, _, _, rfl, _, _, rfl, rfl, rfl⟩ := h
    refine OpOk.set (Or.inl ⟨rfl, rfl⟩) hlt hl hlr
      ⟨by simp only [List.append_assoc]; rfl, rfl, by simp [plain_jmp, plain_alu, plain_ja]⟩
      (Or.inr ⟨hrt, rfl⟩) fun K s => ?_
    refine ⟨bool2int (s.regs l.reg ≠ 0 || s.regs r.reg ≠ 0), ?_, ?_⟩
    · by_cases hlz : s.regs l.reg = 0#64
      · by_cases hrz : s.regs r.reg = 0#64 <;>
          simp [hlz, hrz, JumpOp.eval, AluOp.eval, bool2int]
      · simp [hlz, JumpOp.eval, AluOp.eval, bool2int]
    · simp [opSem, shaped, hlt, hrt, at_word_reg]

/-- The constant operand of `mul`, on either side. -/
theorem mulConst_ok {sem : Val → Val → SemM Val} {w o : EvalValue}
    (hwo : w = l ∧ o = r ∨ w = r ∧ o = l) (ho : o.typ = .num)
    (h : (do
      if o.num = 0 then
        free w.reg
        return o
      if o.num = 1 then
        return w
      emit [Op.alu .mul w.reg (.imm (int32 o.num))]
      return w : CodeM EvalValue) g = .ok (v, g'))
    (hw : w.typ = .regBtf) (hown : Owned g.regalloc w)
    (hsem : ∀ regs, sem (l.at regs) (r.at regs) = .ok (mulConstSem (o.at regs) (w.at regs))) :
    OpOk sem l r g v g' := by
  have hval (regs) : mulConstSem (o.at regs) (w.at regs) = if o.num = 0 then o.at regs
      else if o.num = 1 then w.at regs
      else (w.at regs).set ((w.at regs).word * int32 o.num) := by
    rw [mulConstSem, at_word_num ho]
  split at h
  · rename_i hn
    refine drop_ok (hwo.imp (·.1) (·.1)) h hw ho fun regs => ?_
    rw [hsem, hval, if_pos hn]
  rename_i hn
  split at h
  · rename_i hn1
    simp only [pure_eq_ok] at h
    obtain ⟨rfl, rfl⟩ := h
    refine OpOk.same (hwo.imp (·.1) (·.1)) hown fun regs => ?_
    rw [hsem, hval, if_neg hn, if_pos hn1]
  · rename_i hn1
    refine aluImm_ok hwo ho h hw hown fun regs => ?_
    rw [hsem, hval, if_neg hn, if_neg hn1, int32_int32]
    rfl

theorem mul_ok (h : mul heap l r g = .ok (v, g')) (hl : Owned g.regalloc l)
    (hr : Owned g.regalloc r) (hlr : Apart l r) : OpOk (binSem heap .mul) l r g v g' := by
  refine OpOk.of_bind h hl hr hlr fun l r hl hr hlr h => ?_
  cases hlt : l.typ <;> cases hrt : r.typ <;> simp [hlt, hrt] at h
  case num.num =>
    exact fold_ok hlt (pure_eq_ok.mpr h) fun regs => by simp [opSem, shaped, hlt, hrt, at_word_num]
  case num.regBtf =>
    exact mulConst_ok (Or.inr ⟨rfl, rfl⟩) hlt h hrt hr fun regs => by simp [opSem, shaped, hlt, hrt]
  case regBtf.num =>
    exact mulConst_ok (Or.inl ⟨rfl, rfl⟩) hrt h hlt hl fun regs => by simp [opSem, shaped, hlt, hrt]
  case regBtf.regBtf =>
    exact aluReg_ok h hlt hrt hl hlr fun regs => by simp [opSem, shaped, hlt, hrt, AluOp.eval]

/-- A constant and a register: the constant is moved into a register of
its own and the operation done there. -/
theorem freshAlu_ok {sem : Val → Val → SemM Val} {op : AluOp}
    (h : (do
      let reg ← alloc
      emit [Asm.movImm reg (int32 l.num)]
      emit [Op.alu op reg (.reg r.reg)]
      free r.reg
      return { typ := .regBtf, reg := reg, btf := r.btf } : CodeM EvalValue) g = .ok (v, g'))
    (hrt : r.typ = .regBtf) (hr : Owned g.regalloc r)
    (hsem : ∀ regs, sem (l.at regs) (r.at regs)
      = .ok ((r.at regs).fresh (op.eval (int32 l.num) (r.at regs).word))) :
    OpOk sem l r g v g' := by
  simp only [bind_eq_ok, alloc_eq_ok, emit_eq_ok, free_eq_ok, pure_eq_ok] at h
  obtain ⟨d, _, ⟨ra, halloc, rfl⟩, _, _, rfl, _, _, rfl, _, _, rfl, rfl, rfl⟩ := h
  refine OpOk.fresh rfl halloc ⟨List.append_assoc _ _ _, rfl, by simp [plain_alu]⟩ hrt hr rfl
    fun hne K s => ⟨op.eval (int32 l.num) (s.regs r.reg), ?_, ?_⟩
  · simp [AluOp.eval, State.set_regs_of_ne _ _ (Ne.symm hne)]
  · rw [hsem, at_word_reg hrt]
    rfl

theorem div_ok (h : div heap l r g = .ok (v, g')) (hl : Owned g.regalloc l)
    (hr : Owned g.regalloc r) (hlr : Apart l r) : OpOk (binSem heap .div) l r g v g' := by
  refine OpOk.of_bind h hl hr hlr fun l r hl hr hlr h => ?_
  dsimp only at h
  split at h
  · simp at h
  rename_i hz
  have hsem : ∀ regs, opSem heap .div (l.at regs) (r.at regs) =
      shaped (l.at regs) (r.at regs) (.ok ((l.at regs).set ((l.at regs).word.sdiv (r.at regs).word)))
        (.ok ((l.at regs).set 0)) (.ok ((r.at regs).fresh 0))
        (.ok ((l.at regs).set (AluOp.div.eval (l.at regs).word (int32 (r.at regs).word)))) := by
    intro regs
    refine if_neg ?_
    rintro ⟨hrt, hw⟩
    refine hz ⟨hrt, ?_⟩
    rwa [at_word_num hrt] at hw
  cases hlt : l.typ <;> cases hrt : r.typ <;> simp only [hlt, hrt, fail_eq_ok] at h
  case num.num =>
    exact fold_ok hlt h fun regs => by simp [hsem, shaped, hlt, hrt, at_word_num]
  case num.regBtf =>
    simp only [bind_eq_ok, alloc_eq_ok, emit_eq_ok, free_eq_ok, pure_eq_ok] at h
    obtain ⟨d, _, ⟨ra, halloc, rfl⟩, _, _, rfl, _, _, rfl, _, _, rfl, _, _, rfl, _, _, rfl, _, _,
      rfl, rfl, rfl⟩ := h
    refine OpOk.fresh rfl halloc
      ⟨by simp only [List.append_assoc]; rfl, rfl, by simp [plain_alu, plain_jmp, plain_ja]⟩
      hrt hr rfl fun hne K s => ⟨0, ?_, ?_⟩
    · -- the division is reached only with a zero divisor
      by_cases hrz : s.regs r.reg = 0#64
      · simp [hrz, AluOp.eval, State.set_regs_of_ne _ _ (Ne.symm hne)]
      · simp [hrz, AluOp.eval]
    · rw [hsem]
      simp only [shaped, at_typ, hlt, hrt]
      rfl
  case regBtf.num =>
    exact aluImm_ok (Or.inl ⟨rfl, rfl⟩) hrt h hlt hl fun regs => by
      simp [hsem, shaped, hlt, hrt, at_word_num]
  case regBtf.regBtf =>
    simp only [bind_eq_ok, emit_eq_ok, free_eq_ok, pure_eq_ok] at h
    obtain ⟨_, _, rfl, _, _, rfl, _, _, rfl, _, _, rfl, _, _, rfl, rfl, rfl⟩ := h
    refine OpOk.set (Or.inl ⟨rfl, rfl⟩) hlt hl hlr
      ⟨by simp only [List.append_assoc]; rfl, rfl, by simp [plain_alu, plain_jmp, plain_ja]⟩
      (Or.inr ⟨hrt, rfl⟩) fun K s => ⟨0, ?_, ?_⟩
    · by_cases hrz : s.regs r.reg = 0#64
      · simp [hrz, AluOp.eval]
      · simp [hrz, AluOp.eval]
    · simp [hsem, shaped, hlt, hrt]

theorem mod_ok (h : mod heap l r g = .ok (v, g')) (hl : Owned g.regalloc l)
    (hr : Owned g.regalloc r) (hlr : Apart l r) : OpOk (binSem heap .mod) l r g v g' := by
  refine OpOk.of_bind h hl hr hlr fun l r hl hr hlr h => ?_
  dsimp only at h
  split at h
  · simp at h
  rename_i hz
  have hsem : ∀ regs, opSem heap .mod (l.at regs) (r.at regs) =
      shaped (l.at regs) (r.at regs) (.ok ((l.at regs).set ((l.at regs).word.srem (r.at regs).word)))
        (.ok ((l.at regs).set (AluOp.mod.eval (l.at regs).word (r.at regs).word)))
        (.ok (if (l.at regs).word = 0 then l.at regs
          else (r.at regs).fresh (AluOp.mod.eval (int32 (l.at regs).word) (r.at regs).word)))
        (.ok ((l.at regs).set (if (r.at regs).word = 1 then 0
          else AluOp.mod.eval (l.at regs).word (int32 (r.at regs).word)))) := by
    intro regs
    refine if_neg ?_
    rintro ⟨hrt, hw⟩
    refine hz ⟨hrt, ?_⟩
    rwa [at_word_num hrt] at hw
  cases hlt : l.typ <;> cases hrt : r.typ <;> simp only [hlt, hrt, fail_eq_ok] at h
  case num.num =>
    exact fold_ok hlt h fun regs => by simp [hsem, shaped, hlt, hrt, at_word_num]
  case num.regBtf =>
    split at h
    · rename_i hn
      exact drop_ok (Or.inr rfl) h hrt hlt fun regs => by
        simp [hsem, shaped, hlt, hrt, at_word_num, hn]
    · rename_i hn
      exact freshAlu_ok h hrt hr fun regs => by
        simp [hsem, shaped, hlt, hrt, at_word_num hlt, show l.num ≠ 0#64 from hn]
  case regBtf.num =>
    split at h
    · rename_i hn
      exact aluImm_ok (Or.inl ⟨rfl, rfl⟩) hrt h hlt hl fun regs => by
        simp [hsem, shaped, hlt, hrt, at_word_num, hn, AluOp.eval]
    · rename_i hn
      exact aluImm_ok (Or.inl ⟨rfl, rfl⟩) hrt h hlt hl fun regs => by
        simp [hsem, shaped, hlt, hrt, at_word_num hrt, show r.num ≠ 1#64 from hn]
  case regBtf.regBtf =>
    simp only [bind_eq_ok, emit_eq_ok, free_eq_ok, pure_eq_ok] at h
    obtain ⟨_, _, rfl, _, _, rfl, _, _, rfl, rfl, rfl⟩ := h
    refine OpOk.set (Or.inl ⟨rfl, rfl⟩) hlt hl hlr
      ⟨List.append_assoc _ _ _, rfl, by simp [plain_alu, plain_jmp]⟩ (Or.inr ⟨hrt, rfl⟩)
      fun K s => ⟨AluOp.mod.eval (s.regs l.reg) (s.regs r.reg), ?_, ?_⟩
    · by_cases hrz : s.regs r.reg = 0#64
      · simp [hrz, AluOp.eval]
      · simp [hrz, AluOp.eval]
    · simp [hsem, shaped, hlt, hrt, at_word_reg]

/-- The four shapes of a shift but for two registers. -/
theorem shift_ok {op : BinOp} {fold : Word → Nat → Word} {aluOp : AluOp}
    {rr : CodeM EvalValue}
    (hop : ∀ a b, opSem heap op a b = shiftSem fold aluOp a b)
    (h : (match l.typ, r.typ with
      | .num, .num => do
        let n ← lift (shiftCount r.num)
        return { l with num := fold l.num n }
      | .num, .regBtf => do
        if l.num = 0 then
          free r.reg
          return l
        let reg ← alloc
        emit [Asm.movImm reg (int32 l.num)]
        emit [Op.alu aluOp reg (.reg r.reg)]
        free r.reg
        return { typ := .regBtf, reg := reg, btf := r.btf }
      | .regBtf, .num => do
        if r.num.slt 0 then
          fail (.errorf "shift count is negative" [])
        if r.num = 0 then
          return l
        emit [Op.alu aluOp l.reg (.imm (int32 r.num))]
        return l
      | .regBtf, .regBtf => rr
      | _, _ => fail .notImplemented : CodeM EvalValue) g = .ok (v, g'))
    (hl : Owned g.regalloc l) (hr : Owned g.regalloc r)
    (hrr : l.typ = .regBtf → r.typ = .regBtf → rr g = .ok (v, g') →
      OpOk (opSem heap op) l r g v g') : OpOk (opSem heap op) l r g v g' := by
  cases hlt : l.typ <;> cases hrt : r.typ <;> simp only [hlt, hrt, fail_eq_ok] at h
  case num.num =>
    simp only [bind_eq_ok, lift_eq_ok] at h
    obtain ⟨n, _, ⟨hn, rfl⟩, h⟩ := h
    exact fold_ok hlt h fun regs => by simp [hop, shiftSem, shaped, hlt, hrt, at_word_num, hn]
  case num.regBtf =>
    split at h
    · rename_i hn
      exact drop_ok (Or.inr rfl) h hrt hlt fun regs => by
        simp [hop, shiftSem, shaped, hlt, hrt, at_word_num, hn]
    · rename_i hn
      exact freshAlu_ok h hrt hr fun regs => by
        simp [hop, shiftSem, shaped, hlt, hrt, at_word_num hlt, show l.num ≠ 0#64 from hn]
  case regBtf.num =>
    split at h
    · simp at h
    rename_i hneg
    have hsem : ∀ regs, opSem heap op (l.at regs) (r.at regs) =
        .ok (if r.num = 0 then l.at regs
          else (l.at regs).set (aluOp.eval (l.at regs).word (int32 r.num))) := by
      intro regs
      rw [hop, shiftSem]
      simp only [shaped, at_typ, hlt, hrt, at_word_num hrt]
      rw [if_neg hneg]
    split at h
    · rename_i hn
      simp only [pure_eq_ok] at h
      obtain ⟨rfl, rfl⟩ := h
      refine OpOk.same (Or.inl rfl) hl fun regs => ?_
      rw [hsem, if_pos hn]
    · rename_i hn
      refine aluImm_ok (Or.inl ⟨rfl, rfl⟩) hrt h hlt hl fun regs => ?_
      rw [hsem, if_neg hn, int32_int32]
  case regBtf.regBtf => exact hrr hlt hrt h

theorem lsh_ok (h : lsh heap l r g = .ok (v, g')) (hl : Owned g.regalloc l)
    (hr : Owned g.regalloc r) (hlr : Apart l r) : OpOk (binSem heap .lsh) l r g v g' := by
  refine OpOk.of_bind h hl hr hlr fun l r hl hr hlr h => ?_
  refine shift_ok (fun _ _ => rfl) h hl hr fun hlt hrt h => ?_
  simp only [bind_eq_ok, emit_eq_ok, free_eq_ok, pure_eq_ok] at h
  obtain ⟨_, _, rfl, _, _, rfl, _, _, rfl, rfl, rfl⟩ := h
  refine OpOk.set (Or.inl ⟨rfl, rfl⟩) hlt hl hlr
    ⟨List.append_assoc _ _ _, rfl, by simp [plain_alu, plain_jmp]⟩ (Or.inr ⟨hrt, rfl⟩)
    fun K s => ⟨AluOp.lsh.eval (s.regs l.reg) (s.regs r.reg), ?_, ?_⟩
  · by_cases hrz : s.regs r.reg = 0#64
    · simp [hrz, AluOp.eval, JumpOp.eval]
    · simp [hrz, AluOp.eval, JumpOp.eval]
  · simp [opSem, shiftSem, shaped, hlt, hrt, at_word_reg]

theorem rsh_ok (h : rsh heap l r g = .ok (v, g')) (hl : Owned g.regalloc l)
    (hr : Owned g.regalloc r) (hlr : Apart l r) : OpOk (binSem heap .rsh) l r g v g' := by
  refine OpOk.of_bind h hl hr hlr fun l r hl hr hlr h => ?_
  refine shift_ok (fun _ _ => rfl) h hl hr fun hlt hrt h => ?_
  exact aluReg_ok h hlt hrt hl hlr fun regs => by simp [opSem, shiftSem, shaped, hlt, hrt]

/-- **Every binary operator computes its meaning.** -/
theorem binary_ok {op : BinOp} (h : binary heap op l r g = .ok (v, g')) (hl : Owned g.regalloc l)
    (hr : Owned g.regalloc r) (hlr : Apart l r) : OpOk (binSem heap op) l r g v g' := by
  cases op with
  | add => exact add_ok h hl hr hlr
  | and => exact and_ok h hl hr hlr
  | andAnd => exact andand_ok h hl hr hlr
  | div => exact div_ok h hl hr hlr
  | eqEq => exact compare_ok (fun _ _ => rfl) h hl hr hlr
  | gt => exact @compare_ok heap l r v g g' .gt (fun a b => b.slt a) .le (fun _ _ => rfl) h hl hr hlr
  | gtEq =>
    exact @compare_ok heap l r v g g' .gtEq (fun a b => b.sle a) .lt (fun _ _ => rfl) h hl hr hlr
  | lsh => exact lsh_ok h hl hr hlr
  | lt => exact compare_ok (fun _ _ => rfl) h hl hr hlr
  | ltEq => exact compare_ok (fun _ _ => rfl) h hl hr hlr
  | mod => exact mod_ok h hl hr hlr
  | mul => exact mul_ok h hl hr hlr
  | notEq => exact compare_ok (fun _ _ => rfl) h hl hr hlr
  | or => exact orLike_ok (fun _ _ => rfl) (fun _ _ => rfl) h hl hr hlr
  | orOr => exact oror_ok h hl hr hlr
  | rsh => exact rsh_ok h hl hr hlr
  | sub => exact sub_ok h hl hr hlr
  | xor => exact orLike_ok (fun _ _ => rfl) (fun _ _ => rfl) h hl hr hlr

/-! ## Unary operators and the conditional -/

/-- The contract of `OpOk` for any number of operands: `held` are the
registers of the operands. -/
def CodeOk (held : Reg → Prop) (sem : (Reg → Word) → SemM Val) (g : Gen) (v : EvalValue)
    (g' : Gen) : Prop :=
  ∃ frag, Emitted g g' frag ∧
    (∀ q, g.regalloc.registers q = true → ¬ held q → g'.regalloc.registers q = true) ∧
    Owned g'.regalloc v ∧
    (∀ q, v.Holds q → held q ∨ g.regalloc.registers q = false) ∧
    ∀ K s, ∃ s', exec K frag .run s = .cont .run s' ∧ SameMemory s s' ∧
      (∀ q, g.regalloc.registers q = true ∨ R9 ≤ q → ¬ held q → s'.regs q = s.regs q) ∧
      sem s.regs = .ok (v.at s'.regs)

theorem OpOk.codeOk {sem : Val → Val → SemM Val} (h : OpOk sem l r g v g') :
    CodeOk (fun q => l.Holds q ∨ r.Holds q) (fun regs => sem (l.at regs) (r.at regs)) g v g' := by
  obtain ⟨frag, hemit, hkeep, hown, hfrom, hcode⟩ := h
  refine ⟨frag, hemit, ?_, hown, ?_, fun K s => ?_⟩
  · intro q hq hn
    exact hkeep q hq (fun h => hn (Or.inl h)) fun h => hn (Or.inr h)
  · intro q hq
    rcases hfrom q hq with h | h | h
    · exact Or.inl (Or.inl h)
    · exact Or.inl (Or.inr h)
    · exact Or.inr h
  · obtain ⟨s', hexec, hmem, hframe, hsem⟩ := hcode K s
    refine ⟨s', hexec, hmem, fun q hq hn => ?_, hsem⟩
    exact hframe q hq (fun h => hn (Or.inl h)) fun h => hn (Or.inr h)

/-- Code that changes the register operand `v` alone. -/
theorem CodeOk.inPlace {sem : (Reg → Word) → SemM Val} {frag : List Insn}
    (hv : v.typ = .regBtf) (hown : Owned g.regalloc v) (hplain : ∀ i ∈ frag, Plain i)
    (hcode : ∀ K s, ∃ w, exec K frag .run s = .cont .run (s.set v.reg w) ∧
      sem s.regs = .ok ((v.at s.regs).set w)) :
    CodeOk v.Holds sem g v { g with insns := g.insns ++ frag } := by
  refine ⟨frag, ⟨rfl, rfl, hplain⟩, fun q hq _ => hq, hown, fun q hq => Or.inl hq, fun K s => ?_⟩
  obtain ⟨w, hexec, hsem⟩ := hcode K s
  refine ⟨s.set v.reg w, hexec, (SameMemory.refl s).set _ _, fun q _ hq => ?_, ?_⟩
  · exact State.set_regs_of_ne s w fun heq => hq ⟨hv, heq.symm⟩
  · rw [hsem]
    exact congrArg Except.ok (at_set hv (by simp)).symm

/-- An operator that emits nothing on the operand it is given. -/
theorem CodeOk.none {held : Reg → Prop} {sem : (Reg → Word) → SemM Val} {w : EvalValue}
    (hown : Owned g.regalloc w) (hheld : ∀ q, w.Holds q → held q)
    (hsem : ∀ regs, sem regs = .ok (w.at regs)) : CodeOk held sem g w g :=
  ⟨[], ⟨by simp, rfl, by simp⟩, fun _ hq _ => hq, hown, fun q hq => Or.inl (hheld q hq),
    fun _ s => ⟨s, rfl, SameMemory.refl s, fun _ _ _ => rfl, hsem s.regs⟩⟩

/-- The shape of the unary operators. -/
theorem unary_ok {u w : EvalValue} {fold code : Word → Word} {insns : Reg → List Insn}
    {what : String} (h : unary fold insns what u g = .ok (w, g')) (hown : Owned g.regalloc u)
    (hplain : ∀ d, ∀ i ∈ insns d, Plain i)
    (hcode : ∀ K s d, exec K (insns d) .run s = .cont .run (s.set d (code (s.regs d)))) :
    CodeOk u.Holds (fun regs => unarySem fold code (u.at regs)) g w g' := by
  unfold unary at h
  cases hu : u.typ <;> simp only [hu, fail_eq_ok] at h
  case num =>
    simp only [pure_eq_ok] at h
    obtain ⟨rfl, rfl⟩ := h
    refine CodeOk.none (by simp [Owned]) (by simp [EvalValue.Holds]) fun regs => ?_
    simp [unarySem, hu, Val.set, EvalValue.at]
  case regBtf =>
    cases hcalc : canCalculate u.btf with
    | false => simp [hcalc] at h
    | true =>
      simp only [hcalc, Bool.not_true, Bool.false_eq_true, if_false, bind_eq_ok, emit_eq_ok,
        pure_eq_ok] at h
      obtain ⟨_, _, rfl, rfl, rfl⟩ := h
      refine CodeOk.inPlace hu hown (hplain _) fun K s => ⟨code (s.regs u.reg), hcode K s u.reg, ?_⟩
      simp [unarySem, hu, hcalc, at_word_reg]

theorem minus_ok {u w : EvalValue} (h : minus u g = .ok (w, g')) (hown : Owned g.regalloc u) :
    CodeOk u.Holds (fun regs => unSem .minus (u.at regs)) g w g' := by
  unfold minus at h
  cases hu : u.typ <;> simp only [hu, fail_eq_ok] at h
  case num =>
    simp only [pure_eq_ok] at h
    obtain ⟨rfl, rfl⟩ := h
    refine CodeOk.none (by simp [Owned]) (by simp [EvalValue.Holds]) fun regs => ?_
    simp [unSem, hu, Val.set, EvalValue.at]
  case regBtf =>
    simp only [bind_eq_ok, emit_eq_ok, pure_eq_ok] at h
    obtain ⟨_, _, rfl, rfl, rfl⟩ := h
    refine CodeOk.inPlace hu hown (by simp [plain_alu]) fun K s => ⟨-(s.regs u.reg), rfl, ?_⟩
    simp [unSem, hu, at_word_reg]

theorem not_ok {u w : EvalValue} (h : not u g = .ok (w, g')) (hown : Owned g.regalloc u) :
    CodeOk u.Holds (fun regs => unSem .not (u.at regs)) g w g' := by
  show CodeOk u.Holds (fun regs => unarySem (fun n => bool2int (n = 0))
    (fun n => bool2int (n = 0)) (u.at regs)) g w g'
  refine unary_ok h hown (fun d i hi => ?_) fun K s d => ?_
  · rcases List.mem_cons.mp hi with rfl | hi
    · exact plain_jmp
    · exact plain_reg2bool d i hi
  · rw [exec_reg2bool]
    simp

theorem twid_ok {u w : EvalValue} (h : twid u g = .ok (w, g')) (hown : Owned g.regalloc u) :
    CodeOk u.Holds (fun regs => unSem .twid (u.at regs)) g w g' := by
  show CodeOk u.Holds (fun regs => unarySem (~~~ ·) (· ^^^ int32 (-1)) (u.at regs)) g w g'
  exact unary_ok h hown (by simp [plain_alu]) fun _ _ _ => rfl

theorem preDec_ok {u w : EvalValue} (h : preDec u g = .ok (w, g')) (hown : Owned g.regalloc u) :
    CodeOk u.Holds (fun regs => unSem .preDec (u.at regs)) g w g' := by
  show CodeOk u.Holds (fun regs => unarySem (· - 1) (· - int32 1) (u.at regs)) g w g'
  exact unary_ok h hown (by simp [plain_alu]) fun _ _ _ => rfl

theorem preInc_ok {u w : EvalValue} (h : preInc u g = .ok (w, g')) (hown : Owned g.regalloc u) :
    CodeOk u.Holds (fun regs => unSem .preInc (u.at regs)) g w g' := by
  show CodeOk u.Holds (fun regs => unarySem (· + 1) (· + int32 1) (u.at regs)) g w g'
  exact unary_ok h hown (by simp [plain_alu]) fun _ _ _ => rfl

/-- An arm of the conditional operator that is a constant or a register
is one `mov`. -/
theorem condArm_ok {c a : EvalValue} {u : Unit} (h : condArm c a g = .ok (u, g'))
    (ha : a.typ = .num ∨ a.typ = .regBtf) :
    ∃ src : Operand, g'.insns = g.insns ++ [⟨.alu .mov c.reg src, none⟩] ∧
      g'.labelExitUsed = g.labelExitUsed ∧ MaybeFreed g g' a ∧
      ∀ regs, src.eval regs = (a.at regs).armWord := by
  unfold condArm at h
  rcases ha with ha | ha
  · simp only [ha, if_true, emit_eq_ok] at h
    subst h
    refine ⟨.imm (int32 a.num), rfl, rfl, Or.inl rfl, fun regs => ?_⟩
    simp [Val.armWord, ha, at_word_num]
  · simp only [ha, reduceCtorEq, if_false, bind_eq_ok, emit_eq_ok, free_eq_ok] at h
    obtain ⟨_, _, rfl, rfl⟩ := h
    refine ⟨.reg a.reg, rfl, rfl, Or.inr ⟨ha, rfl⟩, fun regs => ?_⟩
    simp [Val.armWord, ha, at_word_reg]

theorem condCheck_ok {a : EvalValue} {u : Unit} (h : condCheck a g = .ok (u, g')) :
    g = g' ∧ ∀ regs, (a.at regs).condOk = true := by
  unfold condCheck at h
  split at h
  · simp at h
  · rename_i ha
    simp only [pure_eq_ok] at h
    refine ⟨h.2, fun regs => ?_⟩
    rw [Val.condOk, at_typ, at_btf]
    by_cases htyp : a.typ = .regBtf
    · simpa [htyp] using ha
    · simp [htyp]

/-- The conditional operator, where no operand is an unresolved name. -/
theorem cond_ok {c a b w : EvalValue} (h : cond c a b g = .ok (w, g'))
    (hc : Owned g.regalloc c) (ha : Owned g.regalloc a) (hb : Owned g.regalloc b)
    (hca : Apart c a) (hcb : Apart c b)
    (hres : c.typ = .num ∨ c.typ = .regBtf ∧ (a.typ = .num ∨ a.typ = .regBtf) ∧
      (b.typ = .num ∨ b.typ = .regBtf)) :
    CodeOk (fun q => c.Holds q ∨ a.Holds q ∨ b.Holds q)
      (fun regs => condSem (c.at regs) (a.at regs) (b.at regs)) g w g' := by
  unfold cond at h
  simp only [bind_eq_ok] at h
  obtain ⟨_, _, h₁, _, _, h₂, _, _, h₃, h⟩ := h
  obtain ⟨rfl, hcok⟩ := condCheck_ok h₁
  obtain ⟨rfl, haok⟩ := condCheck_ok h₂
  obtain ⟨rfl, hbok⟩ := condCheck_ok h₃
  have hsem : ∀ regs, condSem (c.at regs) (a.at regs) (b.at regs) =
      if c.typ = .num then .ok (if (c.at regs).word = 0 then b.at regs else a.at regs)
      else if c.typ = .regBtf ∧ (a.typ = .num ∨ a.typ = .regBtf) ∧ (b.typ = .num ∨ b.typ = .regBtf)
      then .ok ((c.at regs).set (if (c.at regs).word = 0 then (b.at regs).armWord
        else (a.at regs).armWord))
      else .error .undefined := by
    intro regs
    refine if_neg ?_
    simp [hcok regs, haok regs, hbok regs]
  split at h
  · rename_i hnum
    simp only [pure_eq_ok] at h
    obtain ⟨rfl, rfl⟩ := h
    refine CodeOk.none ?_ (fun q hq => ?_) fun regs => ?_
    · split <;> assumption
    · split at hq
      · exact Or.inr (Or.inr hq)
      · exact Or.inr (Or.inl hq)
    · rw [hsem, if_pos hnum, at_word_num hnum]
      split <;> rfl
  · rename_i hnum
    obtain ⟨hreg, hat, hbt⟩ := hres.resolve_left hnum
    simp only [bind_eq_ok, emit_eq_ok, pure_eq_ok] at h
    obtain ⟨_, _, rfl, _, g₁, h₁, _, _, rfl, _, g₂, h₂, rfl, rfl⟩ := h
    obtain ⟨src₁, hins₁, hlab₁, hfree₁, hsrc₁⟩ := condArm_ok h₁ hat
    obtain ⟨src₂, hins₂, hlab₂, hfree₂, hsrc₂⟩ := condArm_ok h₂ hbt
    have hregs : ∀ q, ¬ a.Holds q → ¬ b.Holds q →
        g₂.regalloc.registers q = g.regalloc.registers q := by
      intro q hqa hqb
      rw [hfree₂.registers hqb]
      exact hfree₁.registers hqa
    refine ⟨[⟨.jmp .eq c.reg (.imm 0) 2, none⟩, ⟨.alu .mov c.reg src₁, none⟩, ⟨.ja 1, none⟩,
      ⟨.alu .mov c.reg src₂, none⟩], ⟨?_, ?_, ?_⟩, ?_, ?_, ?_, fun K s => ?_⟩
    · rw [hins₂]
      simp [hins₁]
    · rw [hlab₂, hlab₁]
    · simp [plain_alu, plain_jmp, plain_ja]
    · intro q hq hn
      rw [hregs q (fun h => hn (Or.inr (Or.inl h))) fun h => hn (Or.inr (Or.inr h))]
      exact hq
    · intro _
      rw [hregs c.reg (fun hq => hca hreg hq.1 hq.2.symm) fun hq => hcb hreg hq.1 hq.2.symm]
      exact hc hreg
    · exact fun q hq => Or.inl (Or.inl hq)
    · refine ⟨s.set c.reg (if s.regs c.reg = 0 then (b.at s.regs).armWord
        else (a.at s.regs).armWord), ?_, (SameMemory.refl s).set _ _, fun q _ hq => ?_, ?_⟩
      · by_cases hz : s.regs c.reg = 0#64
        · simp [hz, AluOp.eval, hsrc₂]
        · simp [hz, AluOp.eval, hsrc₁]
      · exact State.set_regs_of_ne _ _ fun heq => hq (Or.inl ⟨hreg, heq.symm⟩)
      · show condSem (c.at s.regs) (a.at s.regs) (b.at s.regs) = _
        rw [hsem, if_neg hnum, if_pos ⟨hreg, hat, hbt⟩, at_word_reg hreg]
        exact congrArg Except.ok (at_set hreg (by simp)).symm

end Operators

end Bpfsnoop.CC
