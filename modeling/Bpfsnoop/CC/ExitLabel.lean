/-
Bpfsnoop.CC.ExitLabel — the jumps to the exit label.

Only reads jump to the exit label: once for each step of a chain that may
leave. `compile_emits` counts these jumps in the code of an expression,
next to the flag `labelExitUsed`, which direct reads do not set. A filter
and an output expression therefore agree on the label exactly if the
jumps are recorded (`compile_label_iff`, `compileEval_label_iff`).
-/
import Bpfsnoop.CC.ControlFlow
import Bpfsnoop.CC.FilterTheorems
import Bpfsnoop.CC.EvalExpr
import Bpfsnoop.CC.StaticTheorems

namespace Bpfsnoop.CC

open Ebpf Btf Reg

/-! ## The code of a read -/

/-- How many steps of a chain may leave for the exit label. -/
def exitSteps (c : Compiler) (offsets : List AccessOffset) : Nat :=
  (readPlan c offsets).countP (·.checked)

section Reads

variable {c : Compiler}

theorem exitsOnly_ops {label : String} (ops : List Op)
    (h : ∀ op ∈ ops, op.displacement? = none ∧ op.label? = none) :
    ExitsOnly label (ops.map (↑)) 0 := by
  refine .of_none fun i hi => ?_
  obtain ⟨op, hop, rfl⟩ := List.mem_map.mp hi
  exact h op hop

theorem exitsOnly_addOffset (cur : Reg) (o : AccessOffset) :
    ExitsOnly c.labelExit (addOffsetCode cur o) 0 := by
  refine .of_none fun i hi => ?_
  unfold addOffsetCode at hi
  split at hi <;> simp at hi
  subst hi
  exact ⟨rfl, rfl⟩

theorem exitsOnly_probeCall : ExitsOnly c.labelExit probeCall 0 :=
  exitsOnly_ops [Asm.movImm R2 8, Asm.movReg R1 RFP, Asm.addImm R1 (-8), .call .probeReadKernel] (by decide)

/-- The test behind a load. -/
theorem exitsOnly_check (last : Bool) (cur : Reg) :
    ExitsOnly c.labelExit (if last then [] else [(Asm.jeqImm cur 0 c.labelExit : Insn)])
      (if last then 0 else 1) := by
  cases last with
  | true => exact .of_none (by simp)
  | false => exact ⟨by simp [Op.displacement?], rfl⟩

theorem exitsOnly_one (op : Op) (h : op.displacement? = none ∧ op.label? = none) :
    ExitsOnly c.labelExit [(op : Insn)] 0 :=
  .of_none (by simpa using h)

theorem exitsOnly_step (reg : Reg) (o : AccessOffset) (last : Bool) :
    ExitsOnly c.labelExit (stepCode c reg o last) (if (readStep c o last).checked then 1 else 0) := by
  have hcheck := exitsOnly_check (c := c) last (cursor c reg)
  have hlast : (if (!last) = true then 1 else 0) = if last then 0 else 1 := by cases last <;> rfl
  unfold stepCode readStep
  dsimp only
  split
  · refine (exitsOnly_addOffset (cursor c reg) o).append (m := 0) ?_
    split
    · exact exitsOnly_one _ ⟨rfl, rfl⟩
    · exact .of_none (by simp)
  cases c.memMode with
  | probeRead =>
    have hpre := ((exitsOnly_addOffset (c := c) (cursor c reg) o).append exitsOnly_probeCall).append
      (exitsOnly_one (Asm.loadMem (if last then reg else R3) RFP (-8) .dword) ⟨rfl, rfl⟩)
    simpa only [hlast, Nat.zero_add] using hpre.append hcheck
  | directRead =>
    have hpre : ExitsOnly c.labelExit [(Asm.loadMem reg reg (int16 o.offset) .dword : Insn)] 0 :=
      exitsOnly_one _ ⟨rfl, rfl⟩
    have hall := hpre.append hcheck
    rw [Nat.zero_add] at hall
    rw [← hlast] at hall
    exact hall
  | coreRead =>
    cases castSize c o with
    | some size =>
      have hpre : ExitsOnly c.labelExit
          ([Asm.movImm R2 (int32 (BitVec.ofNat 64 (castTypeID c o))),
            Op.callKfunc c.rdonlyCastTypeID,
            Asm.loadMem (if last then reg else R1) R0 (int16 o.offset) size].map (↑)) 0 :=
        exitsOnly_ops _ (by simp [Op.displacement?, Op.label?])
      have hall := hpre.append hcheck
      rw [Nat.zero_add] at hall
      rw [← hlast] at hall
      exact hall
    | none =>
      have hmove : ExitsOnly c.labelExit [(Asm.movReg R3 R1 : Insn)] 0 := exitsOnly_one _ ⟨rfl, rfl⟩
      exact (hmove.append exitsOnly_probeCall).append
        (exitsOnly_one (Asm.loadMem (if last then reg else R1) RFP (-8) .dword) ⟨rfl, rfl⟩)

theorem exitsOnly_loop (reg : Reg) (offsets : List AccessOffset) :
    ExitsOnly c.labelExit (loopCode c reg offsets) (exitSteps c offsets) := by
  induction offsets with
  | nil => exact .of_none (by simp [loopCode])
  | cons o rest ih =>
    have hstep := (exitsOnly_step (c := c) reg o (rest = [])).append ih
    simpa only [loopCode, exitSteps, readPlan, List.countP_cons, Nat.add_comm] using hstep

/-- Address steps have no exits. -/
theorem exitSteps_of_allAddress {offsets : List AccessOffset} (h : allAddress offsets) :
    exitSteps c offsets = 0 := by
  induction offsets with
  | nil => rfl
  | cons o rest ih =>
    simp only [allAddress, List.all_cons, Bool.and_eq_true] at h
    have hrest : exitSteps c rest = 0 := ih h.2
    simp only [exitSteps] at hrest
    simp [exitSteps, readPlan, readStep, h.1, hrest]

/-- **The code of a read**: one exit for each step that may leave. -/
theorem exitsOnly_chain (ra : RegisterAllocator) (offsets : List AccessOffset) (reg : Reg) :
    ExitsOnly c.labelExit (chainCode c ra offsets reg) (exitSteps c offsets) := by
  unfold chainCode
  split
  · rename_i hall
    rw [exitSteps_of_allAddress hall]
    refine .of_none fun i hi => ?_
    obtain ⟨o, -, rfl⟩ := List.mem_map.mp hi
    exact ⟨rfl, rfl⟩
  have hpush (n : Nat) : ExitsOnly c.labelExit (pushCode c ra n) 0 := by
    refine .of_none fun i hi => ?_
    unfold pushCode at hi
    rcases List.mem_append.mp hi with hi | hi
    · split at hi <;> simp at hi
      subst hi
      exact ⟨rfl, rfl⟩
    · obtain ⟨k, -, rfl⟩ := List.mem_map.mp hi
      exact ⟨rfl, rfl⟩
  have hpop (n : Nat) : ExitsOnly c.labelExit (popCode c ra n) 0 := by
    refine .of_none fun i hi => ?_
    unfold popCode at hi
    rcases List.mem_append.mp hi with hi | hi
    · obtain ⟨k, -, rfl⟩ := List.mem_map.mp hi
      exact ⟨rfl, rfl⟩
    · split at hi <;> simp at hi
      subst hi
      exact ⟨rfl, rfl⟩
  have henter : ExitsOnly c.labelExit (enterCode c reg) 0 := by
    unfold enterCode
    split
    · exact exitsOnly_one _ ⟨rfl, rfl⟩
    · exact .of_none (by simp)
  have hloop := exitsOnly_loop (c := c) reg offsets
  cases c.memMode with
  | directRead => exact hloop
  | _ =>
    simpa only [Nat.zero_add, Nat.add_zero] using
      (((hpush (savedRegsNr c)).append henter).append hloop).append (hpop (savedRegsNr c))

theorem usesLabel_eq (offsets : List AccessOffset) :
    usesLabel c offsets = (c.memMode ≠ .directRead && exitSteps c offsets ≠ 0) := by
  induction offsets with
  | nil => simp [usesLabel, exitSteps, readPlan]
  | cons o rest ih =>
    rw [usesLabel, ih]
    simp only [exitSteps, readPlan, List.countP_cons]
    cases (readStep c o (rest = [])).checked <;> simp +contextual

end Reads

/-! ## The code of an expression -/

/-- What a step emits: code with `n` jumps to the exit label, of which
the flag keeps a record except in direct reads. -/
structure Emits (c : Compiler) (g g' : Gen) (own : List Insn) (n : Nat) : Prop where
  insns : g'.insns = g.insns ++ own
  assembled : Assembled c.heap (own.map (·.op))
  unmarked : Unmarked own
  labels : labels own = List.replicate n c.labelExit
  used : g'.labelExitUsed = (g.labelExitUsed || (c.memMode ≠ .directRead && n ≠ 0))

namespace Emits

variable {c : Compiler} {g g₁ g₂ : Gen} {a b : List Insn} {n m : Nat}

theorem nothing (hins : g₁.insns = g.insns) (hused : g₁.labelExitUsed = g.labelExitUsed) :
    Emits c g g₁ [] 0 where
  insns := by simp [hins]
  assembled := .straight (by simp)
  unmarked := by simp [Unmarked]
  labels := rfl
  used := by simp [hused]

theorem trans (ha : Emits c g g₁ a n) (hb : Emits c g₁ g₂ b m) : Emits c g g₂ (a ++ b) (n + m) where
  insns := by rw [hb.insns, ha.insns, List.append_assoc]
  assembled := by
    rw [List.map_append]
    exact ha.assembled.append hb.assembled
  unmarked := ha.unmarked.append hb.unmarked
  labels := by rw [labels_append, ha.labels, hb.labels, List.replicate_add]
  used := by
    rw [hb.used, ha.used]
    cases g.labelExitUsed <;> cases n <;> cases m <;> simp

/-- Code without relative jumps. -/
theorem exits (hins : g₁.insns = g.insns ++ a) (hun : Unmarked a) (ha : ExitsOnly c.labelExit a n)
    (hused : g₁.labelExitUsed = (g.labelExitUsed || (c.memMode ≠ .directRead && n ≠ 0))) :
    Emits c g g₁ a n where
  insns := hins
  assembled := by
    refine .straight fun op hop => ?_
    obtain ⟨i, hi, rfl⟩ := List.mem_map.mp hop
    exact ha.straight i hi
  unmarked := hun
  labels := ha.labels
  used := hused

/-- Plain instructions, one after the other. -/
theorem ops (ops : List Op) (hins : g₁.insns = g.insns ++ ops.map (↑))
    (h : ∀ op ∈ ops, op.displacement? = none ∧ op.label? = none)
    (hused : g₁.labelExitUsed = g.labelExitUsed) : Emits c g g₁ (ops.map (↑)) 0 :=
  exits hins (unmarked_ops ops) (exitsOnly_ops ops h) (by simp [hused])

theorem operator {op : CodeM EvalValue} {v : EvalValue} (hop : IsOperator c.heap op)
    (h : op g = .ok (v, g₁)) : ∃ own, Emits c g g₁ own 0 := by
  obtain ⟨own, hins, -, hplain, hused⟩ := staysInside_of_operator hop g v g₁ h
  simp only [plain, List.all_eq_true, Bool.and_eq_true, Option.isNone_iff_eq_none] at hplain
  exact ⟨own, {
    insns := hins
    assembled := .operator ⟨op, g, v, g₁, own, hop, h, hins, rfl⟩
    unmarked := fun i hi => (hplain i hi).1
    labels := List.filterMap_eq_nil_iff.mpr fun i hi => (hplain i hi).2
    used := by simp [hused] }⟩

end Emits

/-- How many steps of the chain of a memory access may leave. -/
def accessExits (c : Compiler) (e : Expr) : Nat :=
  match kindAccess c e with
  | .ok res => exitSteps c res.offsets
  | .error _ => 0

/-- How many jumps to the exit label a list of memory accesses makes. -/
def exitJumps (c : Compiler) (accesses : List Expr) : Nat := (accesses.map (accessExits c)).sum

section Expressions

variable {c : Compiler} {e left right : Expr}

@[simp] theorem exitJumps_nil : exitJumps c [] = 0 := rfl

@[simp] theorem exitJumps_append (a b : List Expr) :
    exitJumps c (a ++ b) = exitJumps c a + exitJumps c b := by
  simp [exitJumps]

@[simp] theorem exitJumps_singleton : exitJumps c [e] = accessExits c e := by
  simp [exitJumps]

def AccessEmits (c : Compiler) (e : Expr) : Prop :=
  ∀ g res g', accessMemory c e g = .ok (res, g') → ∃ own, Emits c g g' own (exitJumps c e.baseReads)

def EvalEmits (c : Compiler) (e : Expr) : Prop :=
  ∀ g v g', eval c e g = .ok (v, g') → ∃ own, Emits c g g' own (exitJumps c e.reads)

/-- A node of `accessMemory`, from the operands it is about. -/
theorem AccessEmits.of_node (hsteps : ∀ left, sizeOf left < sizeOf e → AccessEmits c left)
    (heval : ∀ op left right, e = .bin op left right → EvalEmits c e) : AccessEmits c e := by
  intro g res g' hok
  cases accessMemory_node hok with
  | start hgen hidx hreg hsem hreads =>
    subst hgen
    rw [hreads]
    exact ⟨[], .nothing rfl rfl⟩
  | step left res₀ f hlt hleft hf hstep hsem hsites hreads =>
    rw [hreads]
    exact hsteps left hlt g res₀ g' hleft
  | computed op left right v he hval hres hsem hsites hreads =>
    rw [hreads]
    exact heval op left right he g v g' hval

theorem accessBase_emits {res : AccessResult} {g g' : Gen} {reg : Reg}
    (h : accessBase res g = .ok (reg, g')) : ∃ own, Emits c g g' own 0 := by
  cases hidx : res.idx with
  | none =>
    simp only [accessBase, hidx, pure_eq_ok] at h
    exact ⟨[], .nothing (by rw [h.2]) (by rw [h.2])⟩
  | some idx =>
    obtain ⟨ra, -, rfl⟩ := accessBase_inv hidx h
    refine ⟨_, .ops [_] rfl (fun op hop => ?_) rfl⟩
    rw [List.mem_singleton.mp hop]
    split <;> exact ⟨rfl, rfl⟩

theorem keepCode_straight (heap : Heap) (btf : BtfType) (mem : Option Member) (reg : Reg) (op : Op)
    (h : op ∈ keepCode heap btf mem reg) : op.displacement? = none ∧ op.label? = none := by
  have hadjust (h : op ∈ adjustRegisterBitwise heap btf reg) :
      op.displacement? = none ∧ op.label? = none := by
    unfold adjustRegisterBitwise at h
    split at h <;> simp at h
    · exact h ▸ ⟨rfl, rfl⟩
    · exact h ▸ ⟨rfl, rfl⟩
    · rcases h with rfl | rfl <;> exact ⟨rfl, rfl⟩
  unfold keepCode at h
  cases mem with
  | none => exact hadjust h
  | some m =>
    dsimp only at h
    split at h
    · unfold bitfield2insns at h
      rcases List.mem_append.mp h with h | h
      · split at h <;> simp at h
        exact h ▸ ⟨rfl, rfl⟩
      · simp at h
        exact h ▸ ⟨rfl, rfl⟩
    · exact hadjust h

/-- The read of an access: the exits are those of its chain. -/
theorem access_emits {res : AccessResult} {g g' : Gen} {v : EvalValue}
    (h : access c res g = .ok (v, g')) : ∃ own, Emits c g g' own (exitSteps c res.offsets) := by
  rw [access_eq] at h
  simp only [bind_eq_ok, wrapping_eq_ok, emit_eq_ok, pure_eq_ok] at h
  obtain ⟨reg, g₁, hbase, _, g₂, hread, _, g₃, rfl, -, rfl⟩ := h
  obtain ⟨own, hown⟩ := accessBase_emits (c := c) hbase
  have hchain := offset2insns_eq hread
  subst hchain
  have hread : Emits c g₁ (g₁.withCode _ (usesLabel c res.offsets))
      (chainCode c g₁.regalloc res.offsets reg) (exitSteps c res.offsets) :=
    .exits rfl
      (unmarked_chainCode c g₁.regalloc res.offsets reg) (exitsOnly_chain _ _ _)
      (by rw [← usesLabel_eq]; rfl)
  have hkeep (g₂ : Gen) : Emits c g₂
      { g₂ with insns := g₂.insns ++ (keepCode c.heap res.btf res.mem reg).map (↑) } _ 0 :=
    .ops _ rfl (keepCode_straight c.heap res.btf res.mem reg) rfl
  have hall := (hown.trans hread).trans (hkeep _)
  rw [Nat.zero_add, Nat.add_zero] at hall
  exact ⟨_, hall⟩

theorem EvalEmits.of_access (hacc : e.isAccess) (h : AccessEmits c e) : EvalEmits c e := by
  intro g v g' hok
  rw [eval_access c hacc, bind_eq_ok] at hok
  obtain ⟨res, g₁, hmem, haccess⟩ := hok
  obtain ⟨a, ha⟩ := h g res g₁ hmem
  obtain ⟨b, hb⟩ := access_emits haccess
  have hexits : exitSteps c res.offsets = accessExits c e := by
    -- the chain is the one that is known statically
    obtain ⟨res', hkind, hchain⟩ := kindAccess_of_accessMemory hmem
    rw [accessExits, hkind, hchain]
    rfl
  rw [reads_access hacc, exitJumps_append, exitJumps_singleton, ← hexits]
  exact ⟨a ++ b, ha.trans hb⟩

theorem EvalEmits.bin (op : BinOp) (hl : EvalEmits c left) (hr : EvalEmits c right) :
    EvalEmits c (.bin op left right) := by
  intro g v g' hok
  simp only [eval, bind_eq_ok, wrapping_eq_ok] at hok
  obtain ⟨lv, g₁, hlok, rv, g₂, hrok, hop⟩ := hok
  obtain ⟨a, ha⟩ := hl g lv g₁ hlok
  obtain ⟨b, hb⟩ := hr g₁ rv g₂ hrok
  obtain ⟨d, hd⟩ := Emits.operator (.binary op lv rv) hop
  simp only [Expr.reads, exitJumps_append]
  exact ⟨_, (ha.trans hb).trans hd⟩

theorem EvalEmits.cond (he : EvalEmits c e) (hl : EvalEmits c left) (hr : EvalEmits c right) :
    EvalEmits c (.cond e left right) := by
  intro g v g' hok
  simp only [eval, bind_eq_ok, wrapping_eq_ok] at hok
  obtain ⟨cv, g₁, hcok, lv, g₂, hlok, rv, g₃, hrok, hop⟩ := hok
  obtain ⟨a, ha⟩ := he g cv g₁ hcok
  obtain ⟨b, hb⟩ := hl g₁ lv g₂ hlok
  obtain ⟨d, hd⟩ := hr g₂ rv g₃ hrok
  obtain ⟨f, hf⟩ := Emits.operator (.cond cv lv rv) hop
  simp only [Expr.reads, exitJumps_append]
  exact ⟨_, ((ha.trans hb).trans hd).trans hf⟩

/-- A unary operator with code of its own. -/
theorem EvalEmits.unary {op : UnOp} {f : EvalValue → CodeM EvalValue} (hleft : EvalEmits c left)
    (hf : ∀ v, IsOperator c.heap (f v))
    (heval : eval c (.un op left) = (do
      let v ← wrapping "failed to evaluate operand" (eval c left)
      f v))
    (hreads : (Expr.un op left).reads = left.reads) : EvalEmits c (.un op left) := by
  intro g v g' hok
  rw [heval] at hok
  simp only [bind_eq_ok, wrapping_eq_ok] at hok
  obtain ⟨u, g₁, huok, hop⟩ := hok
  obtain ⟨a, ha⟩ := hleft g u g₁ huok
  obtain ⟨b, hb⟩ := Emits.operator (hf u) hop
  rw [hreads]
  exact ⟨_, ha.trans hb⟩

theorem EvalEmits.name (text : String) : EvalEmits c (.name text) := by
  intro g v g' hok
  simp only [eval, evalName] at hok
  simp only [Expr.reads, exitJumps_nil]
  split at hok
  · simp only [pure_eq_ok] at hok
    exact ⟨[], .nothing (by rw [hok.2]) (by rw [hok.2])⟩
  split at hok
  · simp only [pure_eq_ok] at hok
    exact ⟨[], .nothing (by rw [hok.2]) (by rw [hok.2])⟩
  cases hidx : c.vars.idxOf? text with
  | none =>
    simp only [hidx, pure_eq_ok] at hok
    exact ⟨[], .nothing (by rw [hok.2]) (by rw [hok.2])⟩
  | some idx =>
    simp only [hidx, emitLoadArg, bind_eq_ok, alloc_eq_ok, emit_eq_ok, pure_eq_ok] at hok
    obtain ⟨reg, _, ⟨ra, -, rfl⟩, _, _, rfl, -, rfl⟩ := hok
    exact ⟨_, .ops [_] rfl (by simp [Op.displacement?, Op.label?]) rfl⟩

theorem EvalEmits.cast (type : CType) (hleft : EvalEmits c left) : EvalEmits c (.cast type left) := by
  intro g v g' hok
  obtain ⟨u, g₁, huok⟩ := eval_cast_operand hok
  obtain ⟨t, ht⟩ := eval_cast_type hok
  obtain ⟨a, ha⟩ := hleft g u g₁ huok
  simp only [Expr.reads]
  obtain ⟨-, -, -, -, hins, hused⟩ | ⟨-, -, rfl⟩ := eval_cast huok ht hok
  · have hmove : Emits c g₁ g' _ 0 := .ops [_] hins (by simp [Op.displacement?, Op.label?]) hused
    have hall := ha.trans hmove
    rw [Nat.add_zero] at hall
    exact ⟨_, hall⟩
  · exact ⟨a, ha⟩

end Expressions

/-- **The code of an expression.** It is put together from the codes of
its operators and pieces without relative jumps, and it jumps to the exit
label once for each step of a memory access that may leave. -/
theorem compile_emits (c : Compiler) (e : Expr) : AccessEmits c e ∧ EvalEmits c e := by
  induction hn : sizeOf e using Nat.strong_induction_on generalizing e with
  | _ n ih =>
  subst hn
  have hsub : ∀ left, sizeOf left < sizeOf e → AccessEmits c left ∧ EvalEmits c left :=
    fun left hlt => ih _ hlt left rfl
  have hbin : ∀ op left right, e = .bin op left right → EvalEmits c e := by
    intro op left right he
    subst he
    exact EvalEmits.bin op (hsub left (Expr.left_lt_bin ..)).2 (hsub right (Expr.right_lt_bin ..)).2
  have hacc : AccessEmits c e := .of_node (fun left hlt => (hsub left hlt).1) hbin
  refine ⟨hacc, ?_⟩
  cases e with
  | name text => exact .name text
  | number text =>
    intro g v g' hok
    simp only [eval, bind_eq_ok, wrapping_eq_ok, lift_eq_ok, pure_eq_ok] at hok
    obtain ⟨_, _, ⟨-, rfl⟩, -, rfl⟩ := hok
    simp only [Expr.reads, exitJumps_nil]
    exact ⟨[], .nothing rfl rfl⟩
  | un op left =>
    have hleft : EvalEmits c left := (hsub left (Expr.lt_un ..)).2
    cases op with
    | addr | indir => exact .of_access rfl hacc
    | paren | plus =>
      intro g v g' hok
      simp only [eval] at hok
      simpa only [Expr.reads] using hleft g v g' hok
    | minus => exact hleft.unary .minus (by simp only [eval]) (by simp only [Expr.reads])
    | not => exact hleft.unary .not (by simp only [eval]) (by simp only [Expr.reads])
    | twid => exact hleft.unary .twid (by simp only [eval]) (by simp only [Expr.reads])
    | preDec => exact hleft.unary .preDec (by simp only [eval]) (by simp only [Expr.reads])
    | preInc => exact hleft.unary .preInc (by simp only [eval]) (by simp only [Expr.reads])
  | bin op left right => exact hbin op left right rfl
  | cond e left right =>
    exact .cond (hsub e (Expr.cond_lt_cond ..)).2 (hsub left (Expr.left_lt_cond ..)).2
      (hsub right (Expr.right_lt_cond ..)).2
  | cast type left => exact .cast type (hsub left (Expr.lt_cast ..)).2
  | dot left text => exact .of_access rfl hacc
  | arrow left text => exact .of_access rfl hacc
  | index left right => exact .of_access rfl hacc
  | call left list => exact fun g v g' hok => by simp [eval] at hok
  | other op => exact fun g v g' hok => by simp [eval] at hok

/-! ## The exit label of a filter -/

/-- The loads of a chain with a step behind them. -/
def loadsWithin : List AccessOffset → Nat
  | [] => 0
  | o :: rest => (if !o.address && !rest.isEmpty then 1 else 0) + loadsWithin rest

/-- The memory access goes on behind a load. -/
def goesOn (c : Compiler) (e : Expr) : Bool :=
  match kindAccess c e with
  | .ok res => loadsWithin res.offsets ≠ 0
  | .error _ => false

/-- In direct reads nobody keeps a record of the jumps to the exit label:
there, no memory access may go on behind a load. -/
def ExitsRecorded (c : Compiler) (e : Expr) : Prop :=
  c.memMode = .directRead → ∀ n ∈ e.reads, goesOn c n = false

instance (c : Compiler) (e : Expr) : Decidable (ExitsRecorded c e) :=
  inferInstanceAs (Decidable (_ → _))

section Direct

variable {c : Compiler} (hmode : c.memMode = .directRead)

include hmode

/-- What the exits of a chain are in direct reads. -/
theorem exitSteps_direct (offsets : List AccessOffset) :
    exitSteps c offsets = loadsWithin offsets := by
  induction offsets with
  | nil => rfl
  | cons o rest ih =>
    have hstep : (readStep c o (rest = [])).checked = (!o.address && !rest.isEmpty) := by
      unfold readStep
      cases ho : o.address with
      | true => simp
      | false => cases rest <;> simp [hmode]
    rw [loadsWithin, ← ih, ← hstep]
    simp only [exitSteps, readPlan, List.countP_cons, Nat.add_comm]

theorem exitJumps_direct (accesses : List Expr) :
    exitJumps c accesses = 0 ↔ ∀ n ∈ accesses, goesOn c n = false := by
  induction accesses with
  | nil => simp
  | cons n rest ih =>
    have hn : accessExits c n = 0 ↔ goesOn c n = false := by
      unfold accessExits goesOn
      cases kindAccess c n with
      | error e => simp
      | ok res => simp [exitSteps_direct hmode]
    rw [← List.singleton_append, exitJumps_append, exitJumps_singleton, Nat.add_eq_zero_iff, hn, ih]
    simp

end Direct

theorem exitsRecorded_iff (c : Compiler) (e : Expr) :
    ExitsRecorded c e ↔ (c.memMode = .directRead → exitJumps c e.reads = 0) :=
  forall_congr' fun hmode => (exitJumps_direct hmode e.reads).symm

theorem newCompiler_options {opts : CompileExprOptions} {c : Compiler} (h : newCompiler opts = .ok c) :
    c.labelExit = opts.labelExit ∧ c.memMode = opts.memoryReadMode := by
  obtain ⟨_, _, _, _, -, -, -, rfl⟩ := newCompiler_ok h
  exact ⟨rfl, rfl⟩

/-- An unmarked program defines no label. -/
theorem not_labelDefined {label : String} {code : List Insn} (h : Unmarked code) :
    ¬ LabelDefined label code := by
  rintro ⟨pre, i, suf, rfl, hi, -⟩
  rw [h i (by simp)] at hi
  cases hi

theorem references_replicate {label : String} {code : List Insn} {n : Nat}
    (h : labels code = List.replicate n label) : References label code ↔ n ≠ 0 := by
  rw [references_iff, h, List.mem_replicate]
  simp

theorem resultCode_plain (v : EvalValue) : ∀ i ∈ resultCode v,
    i.symbol = none ∧ i.op.displacement? = none ∧ i.op.label? = none := by
  intro i hi
  unfold resultCode at hi
  rcases List.mem_append.mp hi with hi | hi
  · split at hi <;> simp at hi
    subst hi
    exact ⟨rfl, rfl, rfl⟩
  · simp at hi
    subst hi
    exact ⟨rfl, rfl, rfl⟩

section Filter

variable {c : Compiler} {text : String} {e : Expr} {g : Gen} {u : Unit}

/-- What `eval` put behind the first instruction of a filter. -/
theorem filter_emits {v : EvalValue} {g₁ : Gen} (h : eval c e filterGen = .ok (v, g₁)) :
    Assembled c.heap (g₁.insns.map (·.op)) ∧ Unmarked g₁.insns ∧
      labels g₁.insns = List.replicate (exitJumps c e.reads) c.labelExit ∧
      g₁.labelExitUsed = (c.memMode ≠ .directRead && exitJumps c e.reads ≠ 0 : Bool) := by
  obtain ⟨own, hown⟩ := (compile_emits c e).2 _ v g₁ h
  have hfirst : Emits c filterGen filterGen [] 0 := .nothing rfl rfl
  refine ⟨?_, ?_, ?_, by rw [hown.used]; rfl⟩
  · rw [hown.insns, List.map_append]
    exact .append (.straight (by simp [filterGen, Op.displacement?])) hown.assembled
  · rw [hown.insns]
    exact Unmarked.append (by simp [Unmarked, filterGen]) hown.unmarked
  · rw [hown.insns, labels_append, hown.labels]
    rfl

/-- The relative jumps of a filter are those of its operators. -/
theorem compile_assembled (h : compile c text e filterGen = .ok (u, g)) :
    Assembled c.heap (g.program.map (·.op)) := by
  obtain ⟨v, g₁, init, op, src, hshape⟩ := compile_shape h
  obtain ⟨hown, -⟩ := filter_emits hshape.eval
  rw [hshape.program, List.map_append]
  refine .append ?_ (.straight fun o ho => ?_)
  · split
    · -- the label does not change the instruction
      rw [hshape.insns] at hown
      simpa [Insn.withSymbol] using hown
    · exact hown
  · obtain ⟨i, hi, rfl⟩ := List.mem_map.mp ho
    exact (resultCode_plain v i hi).2.1

/-- **The exit label of a filter** is defined behind all jumps to it, if
the jumps are recorded. -/
theorem compile_label_iff (h : compile c text e filterGen = .ok (u, g)) :
    (References c.labelExit g.program → LabelDefined c.labelExit g.program) ↔ ExitsRecorded c e := by
  obtain ⟨v, g₁, init, op, src, hshape⟩ := compile_shape h
  obtain ⟨-, hun, hlabels, hused⟩ := filter_emits hshape.eval
  have hresult := resultCode_plain v
  have hresult' : labels (resultCode v) = [] :=
    List.filterMap_eq_nil_iff.mpr fun i hi => (hresult i hi).2.2
  -- the mark does not change what the code jumps to
  have hrefs : References c.labelExit g.program ↔ exitJumps c e.reads ≠ 0 := by
    refine references_replicate ?_
    rw [hshape.program, labels_append, hresult', List.append_nil, ← hlabels, hshape.insns]
    split
    · simp [labels, Insn.withSymbol, Op.label?]
    · rfl
  by_cases hmode : c.memMode = .directRead
  · -- no label in the whole program
    have hnone : Unmarked g.program := by
      rw [hshape.program, hused]
      simp only [hmode, ne_eq, not_true_eq_false, decide_false, Bool.false_and, Bool.false_eq_true,
        if_false]
      exact hun.append fun i hi => (hresult i hi).1
    rw [hrefs, exitsRecorded_iff]
    constructor
    · intro hclosed _
      by_contra hexits
      exact not_labelDefined hnone (hclosed hexits)
    · intro hrec hexits
      exact absurd (hrec hmode) hexits
  · refine iff_of_true (fun href => ?_) fun hdirect => absurd hdirect hmode
    have hexits := hrefs.mp href
    have hmark : g₁.labelExitUsed = true := by simp [hused, hmode, hexits]
    rw [hshape.insns] at hun
    refine ⟨init, (Op.alu op v.reg src : Insn).withSymbol c.labelExit, resultCode v, ?_, rfl,
      fun j hj => ?_, fun j hj => ?_⟩
    · rw [hshape.program, if_pos hmark, List.append_assoc]
      rfl
    · rcases List.mem_append.mp hj with hj | hj
      · rw [hun j (List.mem_append_left _ hj)]
        simp
      · rw [(hresult j hj).1]
        simp
    · rcases List.mem_cons.mp hj with rfl | hj
      · simp [Insn.withSymbol, Op.label?]
      · simp [(hresult j hj).2.2]

end Filter

/-! ## The exit label of an output expression -/

section Output

variable {c : Compiler} {opts : CompileExprOptions} {e : Expr} {res : EvalResult}

/-- What a successful `CompileEvalExpr` emitted. -/
theorem compileEval_emits (h : compileEval c opts e = .ok res) :
    ∃ call fnName, evaluating e = .ok (call, fnName) ∧ Assembled c.heap (res.insns.map (·.op)) ∧
      Unmarked res.insns ∧
      labels res.insns = List.replicate (exitJumps c call.expr.reads) c.labelExit ∧
      res.labelUsed = (c.memMode ≠ .directRead && exitJumps c call.expr.reads ≠ 0 : Bool) := by
  obtain ⟨ra, call, fnName, val, g, checked, -, hcall, heval, -, -, rfl⟩ := compileEval_ok h
  obtain ⟨own, hown⟩ := (compile_emits c call.expr).2 _ val g heval
  have hins : g.insns = own := by simpa using hown.insns
  refine ⟨call, fnName, hcall, ?_, ?_, ?_, ?_⟩ <;> simp only [hins]
  · exact hown.assembled
  · exact hown.unmarked
  · exact hown.labels
  · simp [hown.used]

/-- **The record of an output expression** says that the label is used
whenever it is, if the jumps are recorded. -/
theorem compileEval_label_iff (h : compileEval c opts e = .ok res) {call : FuncCallValue}
    {fnName : String} (hcall : evaluating e = .ok (call, fnName)) :
    (References c.labelExit res.insns → res.labelUsed = true) ↔ ExitsRecorded c call.expr := by
  obtain ⟨call', fnName', hcall', -, -, hlabels, hused⟩ := compileEval_emits h
  rw [hcall] at hcall'
  simp only [Except.ok.injEq, Prod.mk.injEq] at hcall'
  obtain ⟨rfl, rfl⟩ := hcall'
  rw [references_replicate hlabels, hused, exitsRecorded_iff]
  by_cases hmode : c.memMode = .directRead <;> simp [hmode]

end Output

end Bpfsnoop.CC
