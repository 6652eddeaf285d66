/-
Bpfsnoop.CC.OwnershipTheorems — when a call of `eval` owns its registers.

`Tidy` is what a list of steps makes of the registers in use, if each
step is harmless: none is given back, the result has one of its own, and
another one is added exactly if some `?:` drops a register. Operators are
harmless; a read and a `?:` are if they spare the registers of others
(`read_harmless_iff`, `cond_harmless_iff`). `eval_owns_iff`: a call owes
nothing in the end if and only if each of its steps is fine.
-/
import Bpfsnoop.CC.Ownership
import Bpfsnoop.CC.EvalTheorems

namespace Bpfsnoop.CC

open Ebpf Btf Reg

/-! ## The registers in use behind a list of steps -/

/-- Between `g` and `g'`, the steps left a value in the registers
`held`. -/
structure Tidy (steps : List Step) (held : Reg → Prop) (g g' : Gen) : Prop where
  grows : ∀ q, g.regalloc.registers q = true → g'.regalloc.registers q = true
  owned : ∀ q, held q → g'.Out q ∧ g.regalloc.registers q = false
  exact : (∀ t ∈ steps, t.DropsNothing) → ∀ q, g'.regalloc.registers q = true →
    g.regalloc.registers q = true ∨ held q
  leak : ¬ (∀ t ∈ steps, t.DropsNothing) → ∃ q, g'.regalloc.registers q = true ∧
    g.regalloc.registers q = false ∧ ¬ held q

namespace Tidy

variable {steps steps' : List Step} {held held' : Reg → Prop} {g g₁ g₂ : Gen} {t : Step}

theorem nothing (h : g₁.regalloc = g.regalloc) : Tidy [] nothing g g₁ where
  grows := fun q hq => by rwa [h]
  owned := fun q hq => hq.elim
  exact := fun _ q hq => .inl (by rwa [← h])
  leak := fun hn => absurd (by simp) hn

/-- Two values behind each other are in different registers. -/
theorem disjoint (h : Tidy steps held g g₁) (h' : Tidy steps' held' g₁ g₂) {q : Reg} (hq : held q) :
    ¬ held' q := by
  intro hq'
  have hused := (h.owned q hq).1.1
  rw [(h'.owned q hq').2] at hused
  exact absurd hused (by decide)

theorem append (h : Tidy steps held g g₁) (h' : Tidy steps' held' g₁ g₂) :
    Tidy (steps ++ steps') (fun q => held q ∨ held' q) g g₂ where
  grows := fun q hq => h'.grows q (h.grows q hq)
  owned := by
    rintro q (hq | hq)
    · obtain ⟨⟨hused, hle⟩, hfree⟩ := h.owned q hq
      exact ⟨⟨h'.grows q hused, hle⟩, hfree⟩
    · obtain ⟨hout, hfree⟩ := h'.owned q hq
      refine ⟨hout, ?_⟩
      by_contra hused
      rw [h.grows q (by simpa using hused)] at hfree
      exact absurd hfree (by decide)
  exact := by
    intro hdrops q hq
    have hq₁ := h'.exact (fun t ht => hdrops t (List.mem_append_right _ ht)) q hq
    rcases hq₁ with hq₁ | hq₁
    · have hq₀ := h.exact (fun t ht => hdrops t (List.mem_append_left _ ht)) q hq₁
      exact hq₀.imp id .inl
    · exact .inr (.inr hq₁)
  leak := by
    intro hdrops
    by_cases hleft : ∀ t ∈ steps, t.DropsNothing
    · -- the leak is behind `g₁`, so none of the registers before
      have hright : ¬ ∀ t ∈ steps', t.DropsNothing := by
        intro hright
        refine hdrops fun t ht => ?_
        exact (List.mem_append.mp ht).elim (hleft t) (hright t)
      obtain ⟨q, hused, hfree, hn⟩ := h'.leak hright
      have hnot : g.regalloc.registers q = false := by
        by_contra hg
        rw [h.grows q (by simpa using hg)] at hfree
        exact absurd hfree (by decide)
      refine ⟨q, hused, hnot, ?_⟩
      rintro (hq | hq)
      · rw [(h.owned q hq).1.1] at hfree
        exact absurd hfree (by decide)
      · exact hn hq
    · -- the leak is in use before the second list starts
      obtain ⟨q, hused, hfree, hn⟩ := h.leak hleft
      refine ⟨q, h'.grows q hused, hfree, ?_⟩
      rintro (hq | hq)
      · exact hn hq
      · rw [(h'.owned q hq).2] at hused
        exact absurd hused (by decide)

/-- A step that gives back what it holds, up to the register of its
result. -/
theorem settle (h : Tidy steps held g g₁) (ht : t.DropsNothing)
    (hregs : ∀ q, g₂.regalloc.registers q = true ↔
      (g₁.regalloc.registers q = true ∧ ¬ held q) ∨ held' q)
    (hfrom : ∀ q, held' q → q ≤ R8 ∧ (held q ∨ g₁.regalloc.registers q = false)) :
    Tidy (steps ++ [t]) held' g g₂ where
  grows := by
    intro q hq
    refine (hregs q).mpr (.inl ⟨h.grows q hq, fun hh => ?_⟩)
    rw [(h.owned q hh).2] at hq
    exact absurd hq (by decide)
  owned := by
    intro q hq
    refine ⟨⟨(hregs q).mpr (.inr hq), (hfrom q hq).1⟩, ?_⟩
    rcases (hfrom q hq).2 with hh | hfree
    · exact (h.owned q hh).2
    · by_contra hg
      rw [h.grows q (by simpa using hg)] at hfree
      exact absurd hfree (by decide)
  exact := by
    intro hdrops q hq
    rcases (hregs q).mp hq with ⟨hq₁, hn⟩ | hq
    · have hq₀ := h.exact (fun t ht => hdrops t (List.mem_append_left _ ht)) q hq₁
      exact .inl (hq₀.resolve_right hn)
    · exact .inr hq
  leak := by
    intro hdrops
    have hsteps : ¬ ∀ t ∈ steps, t.DropsNothing := by
      intro hall
      refine hdrops fun t' ht' => ?_
      rcases List.mem_append.mp ht' with ht' | ht'
      · exact hall t' ht'
      · rwa [List.mem_singleton.mp ht']
    obtain ⟨q, hused, hfree, hn⟩ := h.leak hsteps
    refine ⟨q, (hregs q).mpr (.inl ⟨hused, hn⟩), hfree, fun hq => ?_⟩
    rcases (hfrom q hq).2 with hh | hfree₁
    · exact hn hh
    · rw [hused] at hfree₁
      exact absurd hfree₁ (by decide)

theorem congr (h : Tidy steps held g g₁) (hiff : ∀ q, held q ↔ held' q) : Tidy steps held' g g₁ := by
  have heq : held = held' := funext fun q => propext (hiff q)
  rwa [← heq]

end Tidy

/-! ## Lists of steps, harmless and sparing -/

/-- What the steps between `g` and `g'` make of the registers: they are
harmless exactly if they spare those of others, and then tidy. -/
structure Follows (c : Compiler) (steps : List Step) (held : Reg → Prop) (g g' : Gen) : Prop where
  harmless : (∀ t ∈ steps, t.Harmless c) ↔ ∀ t ∈ steps, t.Spares c
  tidy : (∀ t ∈ steps, t.Harmless c) → Tidy steps held g g'

namespace Follows

variable {c : Compiler} {steps steps' : List Step} {held held' : Reg → Prop} {g g₁ g₂ : Gen} {t : Step}

theorem nothing (h : g₁.regalloc = g.regalloc) : Follows c [] nothing g g₁ :=
  ⟨by simp, fun _ => .nothing h⟩

theorem append (h : Follows c steps held g g₁) (h' : Follows c steps' held' g₁ g₂) :
    Follows c (steps ++ steps') (fun q => held q ∨ held' q) g g₂ where
  harmless := by
    simp only [List.forall_mem_append]
    rw [h.harmless, h'.harmless]
  tidy := by
    intro hall
    rw [List.forall_mem_append] at hall
    exact (h.tidy hall.1).append (h'.tidy hall.2)

/-- One more step, behind harmless ones. -/
theorem snoc (h : Follows c steps held g g₁)
    (hiff : (∀ t ∈ steps, t.Harmless c) → (t.Harmless c ↔ t.Spares c))
    (htidy : (∀ t ∈ steps, t.Harmless c) → t.Harmless c → Tidy (steps ++ [t]) held' g g₂) :
    Follows c (steps ++ [t]) held' g g₂ where
  harmless := by
    simp only [List.forall_mem_append, List.forall_mem_singleton]
    constructor
    · rintro ⟨hall, ht⟩
      exact ⟨h.harmless.mp hall, (hiff hall).mp ht⟩
    · rintro ⟨hall, ht⟩
      have hharmless := h.harmless.mpr hall
      exact ⟨hharmless, (hiff hharmless).mpr ht⟩
  tidy := by
    intro hall
    simp only [List.forall_mem_append, List.forall_mem_singleton] at hall
    exact htidy hall.1 hall.2

theorem congr (h : Follows c steps held g g₁) (hiff : ∀ q, held q ↔ held' q) :
    Follows c steps held' g g₁ :=
  ⟨h.harmless, fun hall => (h.tidy hall).congr hiff⟩

end Follows

/-! ## Operators -/

section Operators

variable {c : Compiler} {g g₁ g₂ : Gen} {v : EvalValue} {held : Reg → Prop} {t : Step}

/-- The code of an operator leaves the registers of others alone. -/
theorem harmless_of_codeOk {sem : (Reg → Word) → SemM Val} (h : CodeOk held sem g v g₁)
    {kind : StepKind} (hheld : ∀ q, held q ↔ Step.Held ⟨kind, v, g, g₁⟩ q) :
    Step.Harmless c ⟨kind, v, g, g₁⟩ := by
  obtain ⟨frag, hemit, hkeeps, howned, -, hcode⟩ := h
  refine ⟨fun q hq hn => hkeeps q hq fun hh => hn ((hheld q).mp hh), ?_, frag, hemit.insns, ?_⟩
  · intro q hq
    rw [← hq.2]
    exact (howned hq.1).1
  · intro K s s' _ hexec q hq hn
    obtain ⟨s₁, hexec₁, -, hframe, -⟩ := hcode K s
    rw [hexec₁] at hexec
    simp only [Outcome.cont.injEq, true_and] at hexec
    rw [← hexec]
    exact hframe q (.inl hq) fun hh => hn ((hheld q).mp hh)

/-- An operator, behind the steps that left its operands in `held`. -/
theorem Follows.operator {steps : List Step} {operands : List EvalValue} {m : CodeM EvalValue}
    {sem : (Reg → Word) → SemM Val} (h : Follows c steps held g g₁) (hok : m g₁ = .ok (v, g₂))
    (hheld : ∀ q, held q ↔ ∃ u ∈ operands, u.Holds q)
    (hsettles : (∀ t ∈ steps, t.Harmless c) → Settles held m)
    (hcode : (∀ t ∈ steps, t.Harmless c) → CodeOk held sem g₁ v g₂) :
    Follows c (steps ++ stepOf (.operator operands) m g₁) v.Holds g g₂ := by
  have hstep : stepOf (.operator operands) m g₁ = [⟨.operator operands, v, g₁, g₂⟩] := by
    rw [stepOf, hok]
  rw [hstep]
  refine h.snoc (fun hall => iff_of_true (harmless_of_codeOk (hcode hall) hheld) trivial)
    fun hall _ => ?_
  have htidy := h.tidy hall
  obtain ⟨-, hregs⟩ := hsettles hall g₁ v g₂ hok fun q hq => (htidy.owned q hq).1
  obtain ⟨_, -, -, howned, hfrom, -⟩ := hcode hall
  refine htidy.settle trivial hregs fun q hq => ⟨?_, hfrom q hq⟩
  rw [← hq.2]
  exact (howned hq.1).2

/-- A step that returns its operand, or a constant. -/
theorem Follows.keep {steps : List Step} {operands : List EvalValue} (h : Follows c steps held g g₁)
    (hv : ∀ q, held q ↔ v.Holds q) :
    Follows c (steps ++ [⟨.operator operands, v, g₁, g₁⟩]) v.Holds g g₁ := by
  have hharm (hall : ∀ t ∈ steps, t.Harmless c) : Step.Harmless c ⟨.operator operands, v, g₁, g₁⟩ := by
    refine ⟨fun q hq _ => hq, fun q hq => ((h.tidy hall).owned q ((hv q).mpr hq)).1.1, [], by simp, ?_⟩
    intro K s s' _ hexec q _ _
    simp only [exec_nil, Outcome.cont.injEq, true_and] at hexec
    rw [← hexec]
  refine h.snoc (fun hall => iff_of_true (hharm hall) trivial) fun hall _ => ?_
  have htidy := h.tidy hall
  refine htidy.settle trivial (fun q => ?_) fun q hq => ?_
  · rw [← hv q]
    constructor
    · intro hq
      exact or_iff_not_imp_right.mpr fun hn => ⟨hq, hn⟩
    · rintro (hq | hq)
      · exact hq.1
      · exact (htidy.owned q hq).1.1
  · have hh := (hv q).mpr hq
    exact ⟨(htidy.owned q hh).1.2, .inl hh⟩

/-- A step that loads a free register with one instruction. -/
theorem Follows.take {steps : List Step} {operands : List EvalValue} {reg : Reg}
    {ra : RegisterAllocator} {i : Insn} {word : Kernel → State → Word}
    (h : Follows c steps held g g₁) (hnone : ∀ q, ¬ held q) (halloc : g₁.regalloc.alloc = .ok (reg, ra))
    (hgen : g₂.regalloc = ra ∧ g₂.insns = g₁.insns ++ [i]) (hv : v.typ = .regBtf ∧ v.reg = reg)
    (hcode : ∀ (K : Kernel) (s : State), exec K [i] .run s = .cont .run (s.set reg (word K s))) :
    Follows c (steps ++ [⟨.operator operands, v, g₁, g₂⟩]) v.Holds g g₂ := by
  obtain ⟨hunused, hle, rfl⟩ := RegisterAllocator.alloc_spec halloc
  have hregs : ∀ q, g₂.regalloc.registers q = true ↔
      (g₁.regalloc.registers q = true ∧ ¬ held q) ∨ v.Holds q := by
    intro q
    rw [hgen.1]
    by_cases hq : q = reg
    · simp [hq, EvalValue.Holds, hv]
    · simp [hq, hnone, EvalValue.Holds, hv, Ne.symm hq]
  have hharm : Step.Harmless c ⟨.operator operands, v, g₁, g₂⟩ := by
    refine ⟨fun q hq _ => (hregs q).mpr (.inl ⟨hq, hnone q⟩), fun q hq => (hregs q).mpr (.inr hq),
      [i], hgen.2, fun K s s' _ hexec q hq _ => ?_⟩
    rw [hcode] at hexec
    simp only [Outcome.cont.injEq, true_and] at hexec
    rw [← hexec]
    refine State.set_regs_of_ne _ _ fun heq => ?_
    rw [heq, hunused] at hq
    exact absurd hq (by decide)
  refine h.snoc (fun _ => iff_of_true hharm trivial) fun hall _ => ?_
  refine (h.tidy hall).settle trivial hregs fun q hq => ?_
  rw [← hq.2, hv.2]
  exact ⟨hle, .inr hunused⟩

theorem Tidy.owns {steps : List Step} (h : Tidy steps held g g₁) (hv : ∀ q, v.Holds q → held q) :
    Owned g₁.regalloc v :=
  fun ht => (h.owned v.reg (hv v.reg ⟨ht, rfl⟩)).1

end Operators

/-! ## Reads -/

/-- What `accessBase` did: the base is in `reg`, which was free or held
the computed base. -/
structure BaseOk (res : AccessResult) (g : Gen) (reg : Reg) (g₁ : Gen) : Prop where
  out : g₁.Out reg
  from_held : res.Holds reg ∨ g.regalloc.registers reg = false
  others : ∀ q, q ≠ reg → (g₁.regalloc.registers q = true ↔
    g.regalloc.registers q = true ∧ ¬ res.Holds q)
  apart : ∀ q, g.regalloc.registers q = true → ¬ res.Holds q → q ≠ reg
  code : ∃ base, g₁.insns = g.insns ++ base ∧ ∀ (K : Kernel) (s : State), ∃ s₁,
    exec K base .run s = .cont .run s₁ ∧ (∀ q, q ≠ reg → s₁.regs q = s.regs q) ∧
      ∀ q x, q ≠ reg → q ≠ R9 → exec K base .run (s.set q x) = .cont .run (s₁.set q x)

section Read

variable {c : Compiler} {res : AccessResult} {g g₁ g₂ : Gen} {reg : Reg} {v : EvalValue}

theorem accessBase_ok (h : accessBase res g = .ok (reg, g₁)) (hheld : ∀ q, res.Holds q → g.Out q) :
    BaseOk res g reg g₁ := by
  cases hidx : res.idx with
  | none =>
    simp only [accessBase, hidx, pure_eq_ok] at h
    obtain ⟨rfl, rfl⟩ := h
    have hholds : ∀ q, res.Holds q ↔ res.reg = q := fun q => by simp [AccessResult.Holds, hidx]
    exact {
      out := hheld _ ((hholds _).mpr rfl)
      from_held := .inl ((hholds _).mpr rfl)
      others := fun q hq => by simp [hholds, Ne.symm hq]
      apart := fun q _ hn heq => hn ((hholds q).mpr heq.symm)
      code := ⟨[], by simp, fun K s => ⟨s, rfl, fun _ _ => rfl, fun _ _ _ _ => rfl⟩⟩ }
  | some idx =>
    obtain ⟨ra, halloc, rfl⟩ := accessBase_inv hidx h
    obtain ⟨hunused, hle, rfl⟩ := RegisterAllocator.alloc_spec halloc
    have hholds : ∀ q, ¬ res.Holds q := fun q hq => by simp [AccessResult.Holds, hidx] at hq
    refine {
      out := ⟨by simp, hle⟩
      from_held := .inr hunused
      others := fun q hq => by simp [hq, hholds q]
      apart := fun q hq _ heq => ?_
      code := ⟨_, rfl, fun K s => ?_⟩ }
    · rw [heq, hunused] at hq
      exact absurd hq (by decide)
    · -- one instruction, on an argument or a constant
      by_cases hu : res.uptr = 0
      · simp only [hu, if_true, exec_ldx, exec_nil]
        refine ⟨_, rfl, fun q hq => State.set_regs_of_ne _ _ hq, fun q x hq h9 => ?_⟩
        rw [State.set_regs_of_ne _ _ (Ne.symm h9)]
        simp only [argsReg, State.set_stack]
        rw [State.set_comm _ x _ hq]
      · simp only [hu, if_false, exec_alu, exec_nil, AluOp.eval, Operand.eval_imm]
        refine ⟨_, rfl, fun q hq => State.set_regs_of_ne _ _ hq, fun q x hq _ => ?_⟩
        rw [State.set_comm _ x _ hq]

/-- The parts of a successful `access`. -/
structure AccessParts (c : Compiler) (res : AccessResult) (g : Gen) (v : EvalValue) (g₂ : Gen) (reg : Reg)
    (g₁ : Gen) : Prop where
  base : accessBase res g = .ok (reg, g₁)
  value : v.typ = .regBtf ∧ v.reg = reg
  regalloc : g₂.regalloc = g₁.regalloc
  insns : g₂.insns = g₁.insns ++ (chainCode c g₁.regalloc res.offsets reg
    ++ (keepCode c.heap res.btf res.mem reg).map (↑))

theorem access_parts (h : access c res g = .ok (v, g₂)) :
    ∃ reg g₁, AccessParts c res g v g₂ reg g₁ := by
  rw [access_eq] at h
  simp only [bind_eq_ok, wrapping_eq_ok, emit_eq_ok, pure_eq_ok] at h
  obtain ⟨reg, g₁, hbase, _, g₃, hread, _, _, rfl, rfl, rfl⟩ := h
  have hchain := offset2insns_eq hread
  subst hchain
  exact ⟨reg, g₁, hbase, ⟨rfl, rfl⟩, rfl, List.append_assoc _ _ _⟩

/-- The sparing of a read, at the state in which its chain is read. -/
theorem read_spares_iff (hparts : AccessParts c res g v g₂ reg g₁) :
    Step.Spares c ⟨.read res, v, g, g₂⟩ ↔ SparesOthers c g₁.regalloc res.offsets reg := by
  have hbase := hparts.base
  unfold Step.Spares
  cases hidx : res.idx with
  | none =>
    simp only [accessBase, hidx, pure_eq_ok] at hbase
    obtain ⟨rfl, rfl⟩ := hbase
    simp only [hidx]
  | some idx =>
    obtain ⟨ra, halloc, rfl⟩ := accessBase_inv hidx hbase
    simp only [hidx, halloc, Except.ok.injEq, Prod.mk.injEq]
    constructor
    · intro h
      exact h reg ra ⟨rfl, rfl⟩
    · rintro h _ _ ⟨rfl, rfl⟩
      exact h

/-- **A read is harmless** if and only if it spares the registers of
others. -/
theorem read_harmless_iff (hfit : StackFits c) (hheld : ∀ q, res.Holds q → g.Out q)
    (h : access c res g = .ok (v, g₂)) :
    Step.Harmless c ⟨.read res, v, g, g₂⟩ ↔ Step.Spares c ⟨.read res, v, g, g₂⟩ := by
  obtain ⟨reg, g₁, hparts⟩ := access_parts h
  have hbase := accessBase_ok hparts.base hheld
  obtain ⟨base, hins, hrun⟩ := hbase.code
  have hfp : reg ≠ RFP := by
    rintro rfl
    exact absurd hbase.out.2 (by decide)
  have hall : g₂.insns = g.insns ++ (base ++ (chainCode c g₁.regalloc res.offsets reg
      ++ (keepCode c.heap res.btf res.mem reg).map (↑))) := by
    rw [hparts.insns, hins, List.append_assoc]
  rw [read_spares_iff hparts]
  constructor
  · intro hharm q hused hq hd
    obtain ⟨frag, hfrag, hspares⟩ := hharm.spares
    obtain rfl : frag = base ++ (chainCode c g₁.regalloc res.offsets reg
        ++ (keepCode c.heap res.btf res.mem reg).map (↑)) :=
      List.append_cancel_left (hfrag.symm.trans hall)
    by_contra hne
    have hlost : restored c g₁.regalloc res.offsets q = false := by simpa using hne
    have hlow : q ≤ R5 := by
      by_contra hhigh
      rw [chainDestroys_high (not_le.mp hhigh)] at hd
      exact absurd hd (by decide)
    have h9 : q ≠ R9 := by
      rintro rfl
      exact absurd hlow (by decide)
    -- two states that differ in `q` only end in the same state
    obtain ⟨s, hs⟩ : ∃ s : State, s.regs q = 0 := ⟨⟨fun _ => 0, ones, ones, 0⟩, rfl⟩
    obtain ⟨s₁, hexec₁, -, hset⟩ := hrun (onesKernel c) s
    obtain ⟨w, hw⟩ := chainSem_ones c res.offsets (s₁.regs reg)
    obtain ⟨m, s₂, hexec₂, -, -, hres⟩ :=
      @exec_chainCode (onesKernel c) c g₁.regalloc reg rfl hfit hfp res.offsets s₁
    have hsem : chainSem c (onesKernel c).mem res.offsets (s₁.regs reg) = .ok w := hw
    rw [hsem] at hres
    obtain ⟨rfl, -⟩ := hres
    have hsame : exec (onesKernel c) (chainCode c g₁.regalloc res.offsets reg) .run (s₁.set q 1)
        = .cont .run s₂ := by
      rw [← hexec₂]
      exact exec_chainCode_set rfl rfl hfit hfp hq hd hlost 1 s₁
    have hend (s₀ s₀' : State) (hb : exec (onesKernel c) base .run s₀ = .cont .run s₀')
        (hc : exec (onesKernel c) (chainCode c g₁.regalloc res.offsets reg) .run s₀' = .cont .run s₂) :
        exec (onesKernel c) (base ++ (chainCode c g₁.regalloc res.offsets reg
          ++ (keepCode c.heap res.btf res.mem reg).map (↑))) .run s₀
          = .cont .run (s₂.set reg (keptSem c.heap res.btf res.mem (s₂.regs reg))) := by
      rw [exec_append_of_run hb, exec_append_of_run hc, exec_keepCode]
    have hbefore : g.regalloc.registers q = true ∧ ¬ res.Holds q :=
      (hbase.others q hq).mp hused
    have hkeep := hspares (onesKernel c) s _ rfl (hend s s₁ hexec₁ hexec₂) q hbefore.1 hbefore.2
    have hkeep' := hspares (onesKernel c) (s.set q 1) _ rfl
      (hend (s.set q 1) (s₁.set q 1) (hset q 1 hq h9) hsame) q hbefore.1 hbefore.2
    rw [hkeep, hs, State.set_regs_self] at hkeep'
    exact absurd hkeep' (by decide)
  · intro hspares
    refine ⟨fun q hq hn => ?_, fun q hq => ?_, _, hall, fun K s s' hK hexec q hq hn => ?_⟩
    · show g₂.regalloc.registers q = true
      rw [hparts.regalloc]
      exact (hbase.others q (hbase.apart q hq hn)).mpr ⟨hq, hn⟩
    · show g₂.regalloc.registers q = true
      rw [hparts.regalloc, ← hq.2, hparts.value.2]
      exact hbase.out.1
    · have hqr := hbase.apart q hq hn
      obtain ⟨s₁, hexec₁, hkeep₁, -⟩ := hrun K s
      obtain ⟨m, s₂, hexec₂, -, -, hres⟩ :=
        @exec_chainCode K c g₁.regalloc reg hK hfit hfp res.offsets s₁
      rw [exec_append_of_run hexec₁, exec_append, hexec₂] at hexec
      cases hsem : chainSem c K.mem res.offsets (s₁.regs reg) with
      | error e =>
        -- the code behind the chain is not reached
        rw [hsem] at hres
        obtain ⟨rfl, -⟩ := hres
        rw [Outcome.andThen, exec_seek_of_unmarked (unmarked_ops _)] at hexec
        cases hexec
      | ok w =>
        rw [hsem] at hres
        obtain ⟨rfl, -, hothers⟩ := hres
        rw [Outcome.andThen, exec_keepCode] at hexec
        simp only [Outcome.cont.injEq, true_and] at hexec
        rw [← hexec, State.set_regs_of_ne _ _ hqr, hothers q hqr, hkeep₁ q hqr]
        cases hd : chainDestroys c res.offsets q with
        | false => exact .inl rfl
        | true =>
          have hused : g₁.regalloc.isUsed q = true := (hbase.others q hqr).mpr ⟨hq, hn⟩
          exact .inr (hspares q hused hqr hd)

/-- A read, behind the steps that found its base. -/
theorem Follows.read {steps : List Step} {g₀ : Gen} (hfit : StackFits c)
    (h : Follows c steps res.Holds g₀ g) (hok : access c res g = .ok (v, g₂)) :
    Follows c (steps ++ stepOf (.read res) (access c res) g) v.Holds g₀ g₂ := by
  have hstep : stepOf (.read res) (access c res) g = [⟨.read res, v, g, g₂⟩] := by
    rw [stepOf, hok]
  rw [hstep]
  refine h.snoc (fun hall => read_harmless_iff hfit (fun q hq => ((h.tidy hall).owned q hq).1) hok)
    fun hall _ => ?_
  have htidy := h.tidy hall
  obtain ⟨reg, g₁, hparts⟩ := access_parts hok
  have hbase := accessBase_ok hparts.base fun q hq => (htidy.owned q hq).1
  have hheld : ∀ q, v.Holds q ↔ q = reg := fun q => by
    simp [EvalValue.Holds, hparts.value.1, hparts.value.2, eq_comm]
  refine htidy.settle trivial (fun q => ?_) fun q hq => ?_
  · rw [hparts.regalloc, hheld]
    by_cases hq : q = reg
    · subst hq
      simp [hbase.out.1]
    · simp [hq, hbase.others q hq]
  · rw [(hheld q).mp hq]
    exact ⟨hbase.out.2, hbase.from_held⟩

end Read

/-! ## The conditional operator -/

/-- What is moved into the register of the condition for an arm. -/
def armSource (a : EvalValue) : Operand := if a.typ = .num then .imm (int32 a.num) else .reg a.reg

/-- The code of `?:` on a condition that is no constant. -/
def condCode (v l r : EvalValue) : List Insn :=
  [(jmpOff .eq v.reg 0 2 : Insn), (Op.alu .mov v.reg (armSource l) : Insn), (ja 1 : Insn),
    (Op.alu .mov v.reg (armSource r) : Insn)]

/-- The operands of a `?:`: they own their registers, and an unresolved
name stands at `r0`. -/
structure CondOperands (ra : RegisterAllocator) (v l r : EvalValue) : Prop where
  owned : Owned ra v ∧ Owned ra l ∧ Owned ra r
  apart : Apart v l ∧ Apart v r ∧ Apart l r
  unresolved : (¬ v.Resolved → v.reg = R0) ∧ (¬ l.Resolved → l.reg = R0) ∧ (¬ r.Resolved → r.reg = R0)

section Cond

variable {c : Compiler} {v l r w : EvalValue} {g g' : Gen}

theorem reg_le {a : EvalValue} {ra : RegisterAllocator} (howned : Owned ra a)
    (hun : ¬ a.Resolved → a.reg = R0) (ha : a.typ ≠ .num) : a.reg ≤ R8 := by
  by_cases hres : a.Resolved
  · exact (howned (hres.resolve_left ha)).2
  · rw [hun hres]
    decide

theorem condArm_effect {a : EvalValue} {u : Unit} (h : condArm v a g = .ok (u, g'))
    (hle : a.typ ≠ .num → a.reg ≤ R8) :
    g'.insns = g.insns ++ [(Op.alu .mov v.reg (armSource a) : Insn)] ∧
      ∀ q, g'.regalloc.registers q = true ↔
        g.regalloc.registers q = true ∧ (a.typ ≠ .num → q ≠ a.reg) := by
  unfold condArm at h
  unfold armSource
  by_cases ha : a.typ = .num
  · simp only [ha, if_true, emit_eq_ok] at h
    subst h
    simp [ha]
  · simp only [ha, if_false, bind_eq_ok, emit_eq_ok, free_eq_ok] at h
    obtain ⟨_, _, rfl, rfl⟩ := h
    simp only [ha, if_false, ne_eq, not_false_eq_true, true_implies, true_and]
    exact free_registers _ (hle ha)

/-- What a successful `?:` did. -/
theorem cond_effect (h : cond v l r g = .ok (w, g')) (hops : CondOperands g.regalloc v l r) :
    (v.typ = .num ∧ g' = g ∧ w = if v.num = 0 then r else l) ∨
    (v.typ ≠ .num ∧ w = v ∧ g'.insns = g.insns ++ condCode v l r ∧
      ∀ q, g'.regalloc.registers q = true ↔ g.regalloc.registers q = true ∧
        (l.typ ≠ .num → q ≠ l.reg) ∧ (r.typ ≠ .num → q ≠ r.reg)) := by
  unfold cond at h
  simp only [bind_eq_ok] at h
  obtain ⟨_, _, h₁, _, _, h₂, _, _, h₃, h⟩ := h
  obtain ⟨rfl, -⟩ := condCheck_ok h₁
  obtain ⟨rfl, -⟩ := condCheck_ok h₂
  obtain ⟨rfl, -⟩ := condCheck_ok h₃
  by_cases hnum : v.typ = .num
  · simp only [hnum, if_true, pure_eq_ok] at h
    exact .inl ⟨hnum, h.2.symm, h.1.symm⟩
  · simp only [hnum, if_false, bind_eq_ok, emit_eq_ok, pure_eq_ok] at h
    obtain ⟨_, _, rfl, _, g₁, hl, _, _, rfl, _, g₂, hr, rfl, rfl⟩ := h
    obtain ⟨hinsl, hregsl⟩ := condArm_effect hl (reg_le hops.owned.2.1 hops.unresolved.2.1)
    obtain ⟨hinsr, hregsr⟩ := condArm_effect hr (reg_le hops.owned.2.2 hops.unresolved.2.2)
    refine .inr ⟨hnum, rfl, ?_, fun q => ?_⟩
    · rw [hinsr]
      simp [hinsl, condCode]
    · rw [hregsr, hregsl, and_assoc]

theorem exec_condCode (K : Kernel) (s : State) : exec K (condCode v l r) .run s
    = .cont .run (s.set v.reg (if s.regs v.reg = 0 then (armSource r).eval s.regs
        else (armSource l).eval s.regs)) := by
  unfold condCode
  by_cases hz : s.regs v.reg = 0#64
  · simp [hz, AluOp.eval]
  · simp [hz, AluOp.eval]

/-- Behind a `?:` that spares the registers of others, a register in use
that no arm holds is still in use. -/
theorem cond_keeps (hops : CondOperands g.regalloc v l r)
    (hspares : (v.Resolved ∧ l.Resolved ∧ r.Resolved) ∨ g.regalloc.registers R0 = false ∨
      l.Holds R0 ∨ r.Holds R0) {q : Reg} (hq : g.regalloc.registers q = true)
    (hl : ¬ l.Holds q) (hr : ¬ r.Holds q) :
    (l.typ ≠ .num → q ≠ l.reg) ∧ (r.typ ≠ .num → q ≠ r.reg) ∧ (¬ v.Resolved → q ≠ v.reg) := by
  have hzero : (v.Resolved ∧ l.Resolved ∧ r.Resolved) ∨ q ≠ R0 := by
    rcases hspares with hall | hfree | hl₀ | hr₀
    · exact .inl hall
    · refine .inr fun heq => ?_
      rw [heq, hfree] at hq
      exact absurd hq (by decide)
    · exact .inr fun heq => hl (heq ▸ hl₀)
    · exact .inr fun heq => hr (heq ▸ hr₀)
  have harm {a : EvalValue} (ha : ¬ a.Holds q) (hun : ¬ a.Resolved → a.reg = R0)
      (hres : a.Resolved ∨ q ≠ R0) (hnum : a.typ ≠ .num) : q ≠ a.reg := by
    by_cases hr : a.Resolved
    · exact fun heq => ha ⟨hr.resolve_left hnum, heq.symm⟩
    · rw [hun hr]
      exact hres.resolve_left hr
  refine ⟨harm hl hops.unresolved.2.1 (hzero.imp_left fun h => h.2.1),
    harm hr hops.unresolved.2.2 (hzero.imp_left fun h => h.2.2), fun hv => ?_⟩
  rw [hops.unresolved.1 hv]
  exact hzero.resolve_left fun h => hv h.1

/-- **A `?:` is harmless** if and only if it spares the registers of
others. -/
theorem cond_harmless_iff (h : cond v l r g = .ok (w, g')) (hops : CondOperands g.regalloc v l r) :
    Step.Harmless c ⟨.cond v l r, w, g, g'⟩ ↔ Step.Spares c ⟨.cond v l r, w, g, g'⟩ := by
  rcases cond_effect h hops with ⟨hnum, rfl, rfl⟩ | ⟨hnum, rfl, hins, hregs⟩
  · refine iff_of_true ⟨fun q hq _ => hq, fun q hq => ?_, [], by simp, ?_⟩ (.inl hnum)
    · have harm : Owned g'.regalloc (if v.num = 0 then r else l) := by
        split
        · exact hops.owned.2.2
        · exact hops.owned.2.1
      rw [← hq.2]
      exact (harm hq.1).1
    · intro K s s' _ hexec q _ _
      simp only [exec_nil, Outcome.cont.injEq, true_and] at hexec
      rw [← hexec]
  · constructor
    · intro hharm
      by_contra hspares
      simp only [Step.Spares, hnum, false_or, not_or, Bool.not_eq_false] at hspares
      obtain ⟨hres, hused, hl, hr⟩ := hspares
      by_cases harms : l.Resolved ∧ r.Resolved
      · -- the condition is a name: `r0` is overwritten
        have hv : ¬ w.Resolved := fun hv => hres ⟨hv, harms⟩
        have hreg : w.reg = R0 := hops.unresolved.1 hv
        have hheld : ¬ Step.Held ⟨.cond w l r, w, g, g'⟩ R0 := by
          rintro (hw | hw | hw)
          · exact hv (.inr hw.1)
          · exact hl hw
          · exact hr hw
        obtain ⟨frag, hfrag, hspares⟩ := hharm.spares
        obtain rfl : frag = condCode w l r := List.append_cancel_left (hfrag.symm.trans hins)
        -- an `r0` that is neither 0 nor the value of the first arm
        obtain ⟨x, hx, hxl⟩ : ∃ x : Word, x ≠ 0 ∧
            (armSource l).eval (fun q => if q = R0 then x else 0) ≠ x := by
          unfold armSource
          split
          · by_cases hone : int32 (int32 l.num) = 1
            · exact ⟨2, by decide, by rw [Operand.eval_imm, hone]; decide⟩
            · exact ⟨1, by decide, by rw [Operand.eval_imm]; exact hone⟩
          · rename_i hlnum
            have hlreg : l.reg ≠ R0 := fun heq => hl ⟨harms.1.resolve_left hlnum, heq⟩
            exact ⟨1, by decide, by simp [hlreg]⟩
        have hend := hspares (onesKernel c) ⟨fun q => if q = R0 then x else 0, ones, ones, 0⟩ _ rfl
          (exec_condCode _ _) R0 hused hheld
        simp only [hreg, if_true, hx, if_false, State.set_regs_self] at hend
        exact hxl hend
      · -- an arm is a name: `r0` is given back
        have hfreed : g'.regalloc.registers R0 ≠ true := by
          intro hstill
          obtain ⟨-, hnl, hnr⟩ := (hregs R0).mp hstill
          by_cases hl' : l.Resolved
          · have hr' : ¬ r.Resolved := fun hr' => harms ⟨hl', hr'⟩
            exact hnr (fun hn => hr' (.inl hn)) (hops.unresolved.2.2 hr').symm
          · exact hnl (fun hn => hl' (.inl hn)) (hops.unresolved.2.1 hl').symm
        by_cases hw : w.Holds R0
        · exact hfreed (hharm.owns R0 hw)
        · refine hfreed (hharm.keeps R0 hused ?_)
          rintro (hw' | hw' | hw')
          · exact hw hw'
          · exact hl hw'
          · exact hr hw'
    · intro hspares
      have hspares := hspares.resolve_left hnum
      refine ⟨fun q hq hn => ?_, fun q hq => ?_, _, hins, fun K s s' _ hexec q hq hn => ?_⟩
      · obtain ⟨hl, hr, -⟩ := cond_keeps hops hspares hq (fun h => hn (.inr (.inl h)))
          fun h => hn (.inr (.inr h))
        exact (hregs q).mpr ⟨hq, hl, hr⟩
      · have hused : g.regalloc.registers q = true := by
          rw [← hq.2]
          exact (hops.owned.1 hq.1).1
        obtain ⟨hl, hr, -⟩ := cond_keeps hops hspares hused
          (fun hlq => hops.apart.1 hq.1 hlq.1 (hq.2.trans hlq.2.symm))
          fun hrq => hops.apart.2.1 hq.1 hrq.1 (hq.2.trans hrq.2.symm)
        exact (hregs q).mpr ⟨hused, hl, hr⟩
      · obtain ⟨-, -, hname⟩ := cond_keeps hops hspares hq (fun h => hn (.inr (.inl h)))
          fun h => hn (.inr (.inr h))
        have hqv : q ≠ w.reg := by
          by_cases hv : w.Resolved
          · exact fun heq => hn (.inl ⟨hv.resolve_left hnum, heq.symm⟩)
          · exact hname hv
        rw [exec_condCode] at hexec
        simp only [Outcome.cont.injEq, true_and] at hexec
        rw [← hexec]
        exact State.set_regs_of_ne _ _ hqv

/-- A constant condition drops the other arm, and with it its register. -/
theorem Tidy.choose {steps : List Step} {g₀ : Gen} {dropped : EvalValue}
    (h : Tidy steps (fun q => (v.Holds q ∨ l.Holds q) ∨ r.Holds q) g₀ g) (hnum : v.typ = .num)
    (hdropped : dropped = if v.num = 0 then l else r) (hw : w = if v.num = 0 then r else l)
    (hapart : Apart l r) : Tidy (steps ++ [⟨.cond v l r, w, g, g⟩]) w.Holds g₀ g := by
  have hv : ∀ q, ¬ v.Holds q := by
    intro q hq
    rw [EvalValue.Holds, hnum] at hq
    exact absurd hq.1 (by decide)
  have hheld : ∀ q, (v.Holds q ∨ l.Holds q) ∨ r.Holds q ↔ w.Holds q ∨ dropped.Holds q := by
    intro q
    rw [hw, hdropped]
    split <;> simp [hv, or_comm]
  have hother : ∀ q, w.Holds q → ¬ dropped.Holds q := by
    intro q hq hd
    rw [hw] at hq
    rw [hdropped] at hd
    split at hq
    · rename_i hz
      rw [if_pos hz] at hd
      exact hapart hd.1 hq.1 (hd.2.trans hq.2.symm)
    · rename_i hz
      rw [if_neg hz] at hd
      exact hapart hq.1 hd.1 (hq.2.trans hd.2.symm)
  by_cases hreg : dropped.typ = .regBtf
  · have hout := h.owned dropped.reg ((hheld _).mpr (.inr ⟨hreg, rfl⟩))
    have hdrops : ¬ Step.DropsNothing ⟨.cond v l r, w, g, g⟩ := by
      intro hdrops
      have hne := hdrops hnum
      rw [← hdropped] at hne
      exact hne hreg
    exact {
      grows := h.grows
      owned := fun q hq => h.owned q ((hheld q).mpr (.inl hq))
      exact := fun hall => absurd (hall _ (by simp)) hdrops
      leak := fun _ => ⟨dropped.reg, hout.1.1, hout.2, fun hq => hother _ hq ⟨hreg, rfl⟩⟩ }
  · have hd : ∀ q, ¬ dropped.Holds q := fun q hq => hreg hq.1
    have hsame : ∀ q, (v.Holds q ∨ l.Holds q) ∨ r.Holds q ↔ w.Holds q := by
      intro q
      rw [hheld, or_iff_left (hd q)]
    refine h.settle (fun _ => ?_) (fun q => ?_) fun q hq => ?_
    · rw [← hdropped]
      exact hreg
    · rw [hsame]
      constructor
      · intro hq
        exact or_iff_not_imp_right.mpr fun hn => ⟨hq, hn⟩
      · rintro (hq | hq)
        · exact hq.1
        · exact (h.owned q ((hsame q).mpr hq)).1.1
    · exact ⟨(h.owned q ((hsame q).mpr hq)).1.2, .inl ((hsame q).mpr hq)⟩

/-- The registers behind a harmless `?:`. -/
theorem Tidy.cond {steps : List Step} {g₀ : Gen}
    (h : Tidy steps (fun q => (v.Holds q ∨ l.Holds q) ∨ r.Holds q) g₀ g)
    (hops : CondOperands g.regalloc v l r) (hok : cond v l r g = .ok (w, g'))
    (hharm : Step.Harmless c ⟨.cond v l r, w, g, g'⟩) :
    Tidy (steps ++ [⟨.cond v l r, w, g, g'⟩]) w.Holds g₀ g' := by
  rcases cond_effect hok hops with ⟨hnum, rfl, hw⟩ | ⟨hnum, rfl, -, hregs⟩
  · exact h.choose hnum rfl hw hops.apart.2.2
  · refine h.settle (fun hv => absurd hv hnum) (fun q => ?_) fun q hq => ?_
    · constructor
      · intro hq
        obtain ⟨hq₁, hl, hr⟩ := (hregs q).mp hq
        have hln : ¬ l.Holds q := fun hh => hl (by simp [hh.1]) hh.2.symm
        have hrn : ¬ r.Holds q := fun hh => hr (by simp [hh.1]) hh.2.symm
        by_cases hw : w.Holds q
        · exact .inr hw
        · exact .inl ⟨hq₁, by simp [hw, hln, hrn]⟩
      · rintro (⟨hq, hn⟩ | hq)
        · refine hharm.keeps q hq fun hh => hn ?_
          rcases hh with hh | hh | hh
          · exact .inl (.inl hh)
          · exact .inl (.inr hh)
          · exact .inr hh
        · exact hharm.owns q hq
    · have hh : (w.Holds q ∨ l.Holds q) ∨ r.Holds q := .inl (.inl hq)
      exact ⟨(h.owned q hh).1.2, .inl hh⟩

theorem cond_unresolved (hok : CC.cond v l r g = .ok (w, g')) (hops : CondOperands g.regalloc v l r)
    (hw : ¬ w.Resolved) : w.reg = R0 := by
  rcases cond_effect hok hops with ⟨-, -, rfl⟩ | ⟨-, rfl, -⟩
  · split at hw
    · rename_i hz
      rw [if_pos hz]
      exact hops.unresolved.2.2 hw
    · rename_i hz
      rw [if_neg hz]
      exact hops.unresolved.2.1 hw
  · exact hops.unresolved.1 hw

end Cond

/-! ## Calls of `eval` -/

section Calls

variable {c : Compiler} {e left right : Expr}

def AccessOwns (c : Compiler) (e : Expr) : Prop :=
  ∀ g res g', accessMemory c e g = .ok (res, g') → Follows c (accessSteps c e g) res.Holds g g'

/-- The contract of a call. A name nobody declared stands at `r0`, where
nothing was allocated for it. -/
def EvalOwns (c : Compiler) (e : Expr) : Prop :=
  ∀ g v g', eval c e g = .ok (v, g') → Follows c (evalSteps c e g) v.Holds g g' ∧
    ((∀ t ∈ evalSteps c e g, t.Harmless c) → ¬ v.Resolved → v.reg = R0)

/-- An access that takes one step from the access of a subexpression. -/
theorem AccessOwns.step (h : AccessOwns c left)
    (hstep : ∀ g res g', accessMemory c e g = .ok (res, g') → ∃ res₀ f,
      accessMemory c left g = .ok (res₀, g') ∧ KeepsBase f ∧ f res₀ = .ok res)
    (hsteps : ∀ g, accessSteps c e g = accessSteps c left g) : AccessOwns c e := by
  intro g res g' hok
  obtain ⟨res₀, f, hleft, hf, hres⟩ := hstep g res g' hok
  obtain ⟨hidx, hreg⟩ := hf.base hres
  rw [hsteps]
  refine (h g res₀ g' hleft).congr fun q => ?_
  simp only [AccessResult.Holds, hidx, hreg]

/-- An access that starts at a parameter or a constant address. -/
theorem Follows.start {g : Gen} {res : AccessResult} (hidx : res.idx ≠ none) :
    Follows c [] res.Holds g g :=
  (Follows.nothing rfl).congr fun _ => iff_of_false id fun hq => hidx hq.1

/-- An access that takes over the value of `&` or `|`. -/
theorem AccessOwns.computed {text : String} (h : EvalOwns c e)
    (hok : accessMemory c e = (do
      let val ← wrapping text (eval c e)
      lift (accessComputed val)))
    (hsteps : ∀ g, accessSteps c e g = evalSteps c e g) : AccessOwns c e := by
  intro g res g' hmem
  rw [hok] at hmem
  simp only [bind_eq_ok, wrapping_eq_ok, lift_eq_ok] at hmem
  obtain ⟨v, _, heval, hres, rfl⟩ := hmem
  rw [hsteps]
  refine (h g v _ heval).1.congr fun q => ?_
  unfold accessComputed at hres
  split at hres
  · simp at hres
  · rename_i htyp
    simp only [Except.ok.injEq] at hres
    simp [← hres, EvalValue.Holds, AccessResult.Holds, not_not.mp htyp]

/-- A node that `eval` hands to `access`. -/
theorem EvalOwns.of_access (hfit : StackFits c) (hacc : e.isAccess) (h : AccessOwns c e)
    (hsteps : ∀ g, evalSteps c e g = accessSteps c e g ++ readSteps c e g) : EvalOwns c e := by
  intro g v g' hok
  rw [eval_access c hacc, bind_eq_ok] at hok
  obtain ⟨res, g₁, hmem, haccess⟩ := hok
  have hread : readSteps c e g = stepOf (.read res) (access c res) g₁ := by
    simp only [readSteps, stepsAfter, hmem]
  rw [hsteps, hread]
  refine ⟨(h g res g₁ hmem).read hfit haccess, fun _ hv => ?_⟩
  obtain ⟨reg, g₂, hparts⟩ := access_parts haccess
  exact absurd (.inr hparts.value.1) hv

theorem EvalOwns.bin (op : BinOp) (hl : EvalOwns c left) (hr : EvalOwns c right) :
    EvalOwns c (.bin op left right) := by
  intro g v g' hok
  simp only [eval, bind_eq_ok, wrapping_eq_ok] at hok
  obtain ⟨l, g₁, hlok, r, g₂, hrok, hop⟩ := hok
  obtain ⟨hfl, -⟩ := hl g l g₁ hlok
  obtain ⟨hfr, -⟩ := hr g₁ r g₂ hrok
  have hboth := hfl.append hfr
  have hapart (hall : ∀ t ∈ evalSteps c left g ++ evalSteps c right g₁, t.Harmless c) :
      Apart l r := by
    rw [List.forall_mem_append] at hall
    intro hlt hrt heq
    exact (hfl.tidy hall.1).disjoint (hfr.tidy hall.2) (q := l.reg) ⟨hlt, rfl⟩ ⟨hrt, heq.symm⟩
  have hcode (hall : ∀ t ∈ evalSteps c left g ++ evalSteps c right g₁, t.Harmless c) :=
    (binary_ok hop ((hboth.tidy hall).owns fun _ => .inl) ((hboth.tidy hall).owns fun _ => .inr)
      (hapart hall)).codeOk
  rw [evalSteps_bin hlok hrok]
  refine ⟨hboth.operator hop (fun q => by simp) (fun hall => binary_settles op (hapart hall)) hcode,
    fun hall hv => ?_⟩
  rw [List.forall_mem_append] at hall
  have htidy := hboth.tidy hall.1
  exact absurd (binary_settles op (hapart hall.1) g₂ v g' hop fun q hq => (htidy.owned q hq).1).1 hv

/-- A unary operator with code of its own. -/
theorem EvalOwns.unary {op : UnOp} {f : EvalValue → CodeM EvalValue} {sem : Val → SemM Val}
    (hleft : EvalOwns c left) (hsettles : ∀ v, Settles v.Holds (f v))
    (hcode : ∀ g g' u w, f u g = .ok (w, g') → Owned g.regalloc u →
      CodeOk u.Holds (fun regs => sem (u.at regs)) g w g')
    (heval : eval c (.un op left) = (do
      let v ← wrapping "failed to evaluate operand" (eval c left)
      f v))
    (hsteps : ∀ g, evalSteps c (.un op left) g = evalSteps c left g ++
      stepsAfter (eval c left) g fun v g => stepOf (.operator [v]) (f v) g) :
    EvalOwns c (.un op left) := by
  intro g v g' hok
  rw [heval] at hok
  simp only [bind_eq_ok, wrapping_eq_ok] at hok
  obtain ⟨u, g₁, huok, hop⟩ := hok
  obtain ⟨hfu, -⟩ := hleft g u g₁ huok
  have hall : evalSteps c (.un op left) g = evalSteps c left g ++ stepOf (.operator [u]) (f u) g₁ := by
    simp only [hsteps, stepsAfter, huok]
  rw [hall]
  refine ⟨hfu.operator hop (fun q => by simp) (fun _ => hsettles u)
    fun hall => hcode _ _ u v hop ((hfu.tidy hall).owns fun _ => id), fun hall hv => ?_⟩
  rw [List.forall_mem_append] at hall
  exact absurd (hsettles u g₁ v g' hop fun q hq => ((hfu.tidy hall.1).owned q hq).1).1 hv

/-- An operator without a step of its own. -/
theorem EvalOwns.same {op : UnOp} (hleft : EvalOwns c left)
    (heval : eval c (.un op left) = eval c left)
    (hsteps : ∀ g, evalSteps c (.un op left) g = evalSteps c left g) : EvalOwns c (.un op left) := by
  intro g v g' hok
  rw [heval] at hok
  rw [hsteps]
  exact hleft g v g' hok

theorem EvalOwns.number (text : String) : EvalOwns c (.number text) := by
  intro g v g' hok
  simp only [eval, bind_eq_ok, wrapping_eq_ok, lift_eq_ok, pure_eq_ok] at hok
  obtain ⟨num, _, ⟨-, rfl⟩, rfl, rfl⟩ := hok
  simp only [evalSteps]
  exact ⟨(Follows.nothing rfl).congr fun q => by simp [nothing, EvalValue.Holds],
    fun _ hv => absurd (.inl rfl) hv⟩

theorem EvalOwns.name (text : String) : EvalOwns c (.name text) := by
  intro g v g' hok
  have hstart : Follows c [] nothing g g := .nothing rfl
  simp only [eval] at hok
  have hstep : evalSteps c (.name text) g = [] ++ [⟨.operator [], v, g, g'⟩] := by
    simp only [evalSteps, stepOf, hok, List.nil_append]
  rw [hstep]
  have hconst {a : EvalValue} (ha : a.typ ≠ .regBtf) :
      Follows c ([] ++ [⟨.operator [], a, g, g⟩]) a.Holds g g :=
    hstart.keep fun q => iff_of_false id fun hq => ha hq.1
  unfold evalName at hok
  split at hok
  · obtain ⟨rfl, rfl⟩ := pure_eq_ok.mp hok
    exact ⟨hconst (by simp), fun _ hv => absurd (.inl rfl) hv⟩
  split at hok
  · obtain ⟨rfl, rfl⟩ := pure_eq_ok.mp hok
    exact ⟨hconst (by simp), fun _ hv => absurd (.inl rfl) hv⟩
  cases hidx : c.vars.idxOf? text with
  | none =>
    simp only [hidx, pure_eq_ok] at hok
    obtain ⟨rfl, rfl⟩ := hok
    exact ⟨hconst (by simp), fun _ _ => rfl⟩
  | some idx =>
    simp only [hidx, emitLoadArg, bind_eq_ok, alloc_eq_ok, emit_eq_ok, pure_eq_ok] at hok
    obtain ⟨reg, _, ⟨ra, halloc, rfl⟩, _, _, rfl, rfl, rfl⟩ := hok
    exact ⟨hstart.take (fun _ => id) halloc ⟨rfl, rfl⟩ ⟨rfl, rfl⟩ fun K s => rfl,
      fun _ hv => absurd (.inr rfl) hv⟩

theorem EvalOwns.cast (type : CType) (hleft : EvalOwns c left) : EvalOwns c (.cast type left) := by
  intro g v g' hok
  simp only [eval, bind_eq_ok, wrapping_eq_ok] at hok
  obtain ⟨u, g₁, huok, hcast⟩ := hok
  obtain ⟨hfu, hname⟩ := hleft g u g₁ huok
  have hstep : evalSteps c (.cast type left) g
      = evalSteps c left g ++ [⟨.operator [u], v, g₁, g'⟩] := by
    simp only [evalSteps, stepsAfter, huok, stepOf, hcast]
  rw [hstep]
  by_cases hnum : u.typ = .num
  · simp only [hnum, if_true, castNumber, CC.cast, bind_eq_ok, wrapping_eq_ok, lift_eq_ok, alloc_eq_ok,
      emit_eq_ok, pure_eq_ok] at hcast
    obtain ⟨_, _, ⟨typ, _, ⟨-, rfl⟩, rfl, rfl⟩, reg, _, ⟨ra, halloc, rfl⟩, _, _, rfl, rfl, rfl⟩ := hcast
    refine ⟨hfu.take (fun q hq => ?_) halloc ⟨rfl, rfl⟩ ⟨rfl, rfl⟩ fun K s => rfl,
      fun _ hv => absurd (.inr rfl) hv⟩
    rw [EvalValue.Holds, hnum] at hq
    exact absurd hq.1 (by decide)
  · simp only [hnum, if_false, CC.cast, bind_eq_ok, wrapping_eq_ok, lift_eq_ok, pure_eq_ok] at hcast
    obtain ⟨typ, _, ⟨-, rfl⟩, rfl, rfl⟩ := hcast
    refine ⟨hfu.keep fun q => Iff.rfl, fun hall hv => ?_⟩
    rw [List.forall_mem_append] at hall
    exact hname hall.1 hv

theorem EvalOwns.cond (he : EvalOwns c e) (hl : EvalOwns c left) (hr : EvalOwns c right) :
    EvalOwns c (.cond e left right) := by
  intro g w g' hok
  simp only [eval, bind_eq_ok, wrapping_eq_ok] at hok
  obtain ⟨v, g₁, hvok, l, g₂, hlok, r, g₃, hrok, hcond⟩ := hok
  obtain ⟨hfv, hnv⟩ := he g v g₁ hvok
  obtain ⟨hfl, hnl⟩ := hl g₁ l g₂ hlok
  obtain ⟨hfr, hnr⟩ := hr g₂ r g₃ hrok
  have hsteps : evalSteps c (.cond e left right) g
      = (evalSteps c e g ++ evalSteps c left g₁ ++ evalSteps c right g₂)
        ++ [⟨.cond v l r, w, g₃, g'⟩] := by
    simp only [evalSteps, stepsAfter, hvok, hlok, hrok, stepOf, hcond, List.append_assoc]
  have hall₃ := (hfv.append hfl).append hfr
  have hops (hall : ∀ t ∈ evalSteps c e g ++ evalSteps c left g₁ ++ evalSteps c right g₂,
      t.Harmless c) : CondOperands g₃.regalloc v l r := by
    have htidy := hall₃.tidy hall
    rw [List.forall_mem_append, List.forall_mem_append] at hall
    obtain ⟨⟨hv, hl⟩, hr⟩ := hall
    have hvl := (hfv.tidy hv).append (hfl.tidy hl)
    exact {
      owned := ⟨htidy.owns fun q hq => .inl (.inl hq), htidy.owns fun q hq => .inl (.inr hq),
        htidy.owns fun q hq => .inr hq⟩
      apart := ⟨fun hvt hlt heq => (hfv.tidy hv).disjoint (hfl.tidy hl) ⟨hvt, rfl⟩ ⟨hlt, heq.symm⟩,
        fun hvt hrt heq => hvl.disjoint (hfr.tidy hr) (.inl ⟨hvt, rfl⟩) ⟨hrt, heq.symm⟩,
        fun hlt hrt heq => hvl.disjoint (hfr.tidy hr) (.inr ⟨hlt, rfl⟩) ⟨hrt, heq.symm⟩⟩
      unresolved := ⟨hnv hv, hnl hl, hnr hr⟩ }
  rw [hsteps]
  refine ⟨hall₃.snoc (fun hall => cond_harmless_iff hcond (hops hall)) fun hall hharm =>
    (hall₃.tidy hall).cond (hops hall) hcond hharm, fun hall hw => ?_⟩
  rw [List.forall_mem_append] at hall
  exact cond_unresolved hcond (hops hall.1) hw

theorem AccessOwns.name (text : String) : AccessOwns c (.name text) := by
  intro g res g' hok
  simp only [accessMemory, lift_eq_ok] at hok
  obtain ⟨hres, rfl⟩ := hok
  simp only [accessSteps]
  unfold accessName at hres
  cases hidx : c.vars.idxOf? text with
  | none => simp [hidx] at hres
  | some idx =>
    simp only [hidx, Except.ok.injEq] at hres
    subst hres
    exact Follows.start (by simp)

theorem AccessOwns.add (hl : AccessOwns c left) (hr : AccessOwns c right) :
    AccessOwns c (.bin .add left right) := by
  cases hln : left.numberText? with
  | some text =>
    refine hr.step (fun g res g' hok => ?_) fun g => by simp only [accessSteps, hln]
    simp only [accessMemory, hln, accessNumber, bind_eq_ok, wrapping_eq_ok, lift_eq_ok] at hok
    obtain ⟨num, _, ⟨-, rfl⟩, res₀, _, hres, hstep, rfl⟩ := hok
    exact ⟨res₀, _, hres, keepsBase_add c.heap num, hstep⟩
  | none =>
    refine hl.step (fun g res g' hok => ?_) fun g => by simp only [accessSteps, hln]
    cases hrn : right.numberText? with
    | none => simp [accessMemory, hln, hrn] at hok
    | some text =>
      simp only [accessMemory, hln, hrn, accessNumber, bind_eq_ok, wrapping_eq_ok, lift_eq_ok] at hok
      obtain ⟨num, _, ⟨-, rfl⟩, res₀, _, hres, hstep, rfl⟩ := hok
      exact ⟨res₀, _, hres, keepsBase_add c.heap num, hstep⟩

theorem AccessOwns.sub (hl : AccessOwns c left) : AccessOwns c (.bin .sub left right) := by
  refine hl.step (fun g res g' hok => ?_) fun g => by simp only [accessSteps]
  cases hrn : right.numberText? with
  | none => simp [accessMemory, hrn] at hok
  | some text =>
    simp only [accessMemory, hrn, accessNumber, bind_eq_ok, wrapping_eq_ok, lift_eq_ok] at hok
    obtain ⟨num, _, ⟨-, rfl⟩, res₀, _, hres, hstep, rfl⟩ := hok
    exact ⟨res₀, _, hres, keepsBase_sub c.heap num, hstep⟩

/-- A cast of a literal starts at a constant address. -/
theorem AccessOwns.cast (type : CType) (hl : AccessOwns c left) : AccessOwns c (.cast type left) := by
  cases hln : left.numberText? with
  | some text =>
    intro g res g' hok
    simp only [accessMemory, hln, bind_eq_ok, wrapping_eq_ok, lift_eq_ok, pure_eq_ok] at hok
    obtain ⟨num, _, ⟨-, rfl⟩, _, _, ⟨rfl, rfl⟩, hstep, rfl⟩ := hok
    obtain ⟨hidx, -⟩ := (keepsBase_cast c type).base hstep
    have hsteps : accessSteps c (.cast type left) g = [] := by
      cases left <;> simp_all [Expr.numberText?, accessSteps]
    rw [hsteps]
    exact Follows.start (by rw [hidx]; simp)
  | none =>
    refine hl.step (fun g res g' hok => ?_) fun g => by simp only [accessSteps]
    simp only [accessMemory, hln, bind_eq_ok, wrapping_eq_ok, lift_eq_ok] at hok
    obtain ⟨res₀, _, hres, hstep, rfl⟩ := hok
    exact ⟨res₀, _, hres, keepsBase_cast c type, hstep⟩

end Calls

/-- **The steps of `accessMemory` and of `eval`** are harmless exactly if
they spare the registers of others. -/
theorem compile_owns {c : Compiler} (hfit : StackFits c) (e : Expr) :
    AccessOwns c e ∧ EvalOwns c e := by
  induction e with
  | name text => exact ⟨.name text, .name text⟩
  | number text => exact ⟨fun g res g' hok => by simp [accessMemory] at hok, .number text⟩
  | un op left ih =>
    obtain ⟨ihacc, ihev⟩ := ih
    cases op with
    | paren =>
      refine ⟨ihacc.step (fun g res g' hok => ?_) fun g => by simp only [accessSteps],
        ihev.same (by simp only [eval]) fun g => by simp [evalSteps, unaryOp]⟩
      simp only [accessMemory] at hok
      exact ⟨res, .ok, hok, fun _ _ _ => rfl, rfl⟩
    | plus =>
      exact ⟨fun g res g' hok => by simp [accessMemory] at hok,
        ihev.same (by simp only [eval]) fun g => by simp [evalSteps, unaryOp]⟩
    | addr =>
      have hacc : AccessOwns c (.un .addr left) := by
        refine ihacc.step (fun g res g' hok => ?_) fun g => by simp only [accessSteps]
        simp only [accessMemory, bind_eq_ok, wrapping_eq_ok, lift_eq_ok] at hok
        obtain ⟨res₀, _, hres, hstep, rfl⟩ := hok
        exact ⟨res₀, _, hres, keepsBase_addr left.text, hstep⟩
      exact ⟨hacc, .of_access hfit rfl hacc fun g => by simp only [evalSteps, accessSteps]⟩
    | indir =>
      have hacc : AccessOwns c (.un .indir left) := by
        refine ihacc.step (fun g res g' hok => ?_) fun g => by simp only [accessSteps]
        simp only [accessMemory, bind_eq_ok, wrapping_eq_ok, lift_eq_ok] at hok
        obtain ⟨res₀, _, hres, hstep, rfl⟩ := hok
        exact ⟨res₀, _, hres, keepsBase_indir, hstep⟩
      exact ⟨hacc, .of_access hfit rfl hacc fun g => by simp only [evalSteps, accessSteps]⟩
    | minus =>
      exact ⟨fun g res g' hok => by simp [accessMemory] at hok,
        ihev.unary minus_settles (fun _ _ _ _ => minus_ok) (by simp only [eval])
          fun g => by simp only [evalSteps, unaryOp]⟩
    | not =>
      exact ⟨fun g res g' hok => by simp [accessMemory] at hok,
        ihev.unary not_settles (fun _ _ _ _ => not_ok) (by simp only [eval])
          fun g => by simp only [evalSteps, unaryOp]⟩
    | twid =>
      exact ⟨fun g res g' hok => by simp [accessMemory] at hok,
        ihev.unary twid_settles (fun _ _ _ _ => twid_ok) (by simp only [eval])
          fun g => by simp only [evalSteps, unaryOp]⟩
    | preDec =>
      exact ⟨fun g res g' hok => by simp [accessMemory] at hok,
        ihev.unary preDec_settles (fun _ _ _ _ => preDec_ok) (by simp only [eval])
          fun g => by simp only [evalSteps, unaryOp]⟩
    | preInc =>
      exact ⟨fun g res g' hok => by simp [accessMemory] at hok,
        ihev.unary preInc_settles (fun _ _ _ _ => preInc_ok) (by simp only [eval])
          fun g => by simp only [evalSteps, unaryOp]⟩
  | bin op left right ihl ihr =>
    have hev : EvalOwns c (.bin op left right) := .bin op ihl.2 ihr.2
    refine ⟨?_, hev⟩
    cases op with
    | and =>
      exact .computed hev (accessMemory_and c left right) fun g => by
        simp only [accessSteps, evalSteps, binary]
    | or =>
      exact .computed hev (accessMemory_or c left right) fun g => by
        simp only [accessSteps, evalSteps, binary]
    | add => exact .add ihl.1 ihr.1
    | sub => exact .sub ihl.1
    | _ => exact fun g res g' hok => by simp [accessMemory] at hok
  | cond e left right ihe ihl ihr =>
    exact ⟨fun g res g' hok => by simp [accessMemory] at hok, .cond ihe.2 ihl.2 ihr.2⟩
  | cast type left ih => exact ⟨.cast type ih.1, .cast type ih.2⟩
  | dot left text ih =>
    have hacc : AccessOwns c (.dot left text) := by
      refine ih.1.step (fun g res g' hok => ?_) fun g => by simp only [accessSteps]
      simp only [accessMemory, bind_eq_ok, lift_eq_ok] at hok
      obtain ⟨res₀, _, hres, hstep, rfl⟩ := hok
      exact ⟨res₀, _, hres, keepsBase_member c.heap left.text text, hstep⟩
    exact ⟨hacc, .of_access hfit rfl hacc fun g => by simp only [evalSteps, accessSteps]⟩
  | arrow left text ih =>
    have hacc : AccessOwns c (.arrow left text) := by
      refine ih.1.step (fun g res g' hok => ?_) fun g => by simp only [accessSteps]
      simp only [accessMemory, bind_eq_ok, lift_eq_ok] at hok
      obtain ⟨res₀, _, hres, hstep, rfl⟩ := hok
      exact ⟨res₀, _, hres, keepsBase_member c.heap left.text text, hstep⟩
    exact ⟨hacc, .of_access hfit rfl hacc fun g => by simp only [evalSteps, accessSteps]⟩
  | index left right ihl ihr =>
    have hacc : AccessOwns c (.index left right) := by
      refine ihl.1.step (fun g res g' hok => ?_) fun g => by simp only [accessSteps]
      simp only [accessMemory, bind_eq_ok, wrapping_eq_ok, lift_eq_ok] at hok
      obtain ⟨res₀, _, hres, hstep, rfl⟩ := hok
      exact ⟨res₀, _, hres, keepsBase_index c.heap right, hstep⟩
    exact ⟨hacc, .of_access hfit rfl hacc fun g => by simp only [evalSteps, accessSteps]⟩
  | call left list ih =>
    exact ⟨fun g res g' hok => by simp [accessMemory] at hok, fun g v g' hok => by simp [eval] at hok⟩
  | other op =>
    exact ⟨fun g res g' hok => by simp [accessMemory] at hok, fun g v g' hok => by simp [eval] at hok⟩

/-- **A call of `eval` owns its registers** if and only if each of its
steps is fine: every read loads the other registers in use back, every
`?:` leaves `r0` to its owner, and no constant condition drops an arm
that holds a register. -/
theorem eval_owns_iff {c : Compiler} {e : Expr} {g g' : Gen} {v : EvalValue} (hfit : StackFits c)
    (h : eval c e g = .ok (v, g')) : OwnsResult c e g v g' ↔ ∀ t ∈ evalSteps c e g, t.Fine c := by
  obtain ⟨hfollows, -⟩ := (compile_owns hfit e).2 g v g' h
  constructor
  · intro howns
    have hspares := hfollows.harmless.mp howns.steps
    have htidy := hfollows.tidy howns.steps
    have hdrops : ∀ t ∈ evalSteps c e g, t.DropsNothing := by
      by_contra hleak
      obtain ⟨q, hused, hfree, hn⟩ := htidy.leak hleak
      rcases (howns.registers q).mp hused with hq | hq
      · rw [hq] at hfree
        exact absurd hfree (by decide)
      · exact hn hq
    exact fun t ht => ⟨hspares t ht, hdrops t ht⟩
  · intro hfine
    have hharm := hfollows.harmless.mpr fun t ht => (hfine t ht).1
    have htidy := hfollows.tidy hharm
    refine ⟨fun q => ⟨htidy.exact (fun t ht => (hfine t ht).2) q, ?_⟩, fun q hq => (htidy.owned q hq).2,
      hharm⟩
    rintro (hq | hq)
    · exact htidy.grows q hq
    · exact (htidy.owned q hq).1.1

/-! ### A register that stays behind

`1 ? a : b` evaluates both arms and returns the first. Nothing gives the
register of the second back, so every such expression takes one more of
the nine. -/

/-- A filter function of two numbers. -/
def twoParams : Compiler :=
  { Compiler.empty .probeRead with
    vars := ["a", "b"]
    btfs := [.int "u64" 8 .unsigned, .int "u64" 8 .unsigned] }

/-- `1 ? a : b`. -/
def constantChoice : Expr := .cond (.number "1") (.name "a") (.name "b")

/-- Before any code is emitted. -/
def noCode : Gen := { regalloc := .empty, insns := [], labelExitUsed := false }

theorem constant_choice_leaks : ∃ v g', eval twoParams constantChoice noCode = .ok (v, g') ∧
    g'.regalloc.registers R7 = true ∧ ¬ OwnsResult twoParams constantChoice noCode v g' := by
  have hrun : (eval twoParams constantChoice noCode).toOption.map
      (fun p => (p.1.reg, p.2.regalloc.registers R7)) = some (R8, true) := by rfl
  cases heval : eval twoParams constantChoice noCode with
  | error e => simp [heval, Except.toOption] at hrun
  | ok p =>
    simp only [heval, Except.toOption, Option.map_some, Option.some.injEq, Prod.mk.injEq] at hrun
    refine ⟨p.1, p.2, rfl, hrun.2, fun howns => ?_⟩
    rcases (howns.registers R7).mp hrun.2 with hused | ⟨-, hreg⟩
    · exact absurd hused (by decide)
    · rw [hrun.1] at hreg
      exact absurd hreg (by decide)

/-- `(a ? a + b : b) > a`. -/
def nestedChoice : Expr :=
  .bin .gt (.un .paren (.cond (.name "a") (.bin .add (.name "a") (.name "b")) (.name "b"))) (.name "a")

/-- The step reads nothing, and chooses between registers. -/
def Step.inRegisters (t : Step) : Bool :=
  match t.kind with
  | .operator _ => true
  | .read _ => false
  | .cond v l r => [v, l, r].all (·.typ = .regBtf)

theorem Step.fine_of_inRegisters {c : Compiler} {t : Step} (h : t.inRegisters = true) : t.Fine c := by
  cases hkind : t.kind with
  | operator operands => simp [Step.Fine, Step.Spares, Step.DropsNothing, hkind]
  | read res => simp [Step.inRegisters, hkind] at h
  | cond v l r =>
    have hregs : v.typ = .regBtf ∧ l.typ = .regBtf ∧ r.typ = .regBtf := by
      simpa [Step.inRegisters, hkind] using h
    simp [Step.Fine, Step.Spares, Step.DropsNothing, hkind, EvalValue.Resolved, hregs]

theorem nested_choice_owns : ∃ v g', eval twoParams nestedChoice noCode = .ok (v, g') ∧
    OwnsResult twoParams nestedChoice noCode v g' := by
  have hchecked : (eval twoParams nestedChoice noCode).isOk = true ∧
      (evalSteps twoParams nestedChoice noCode).all Step.inRegisters = true := by decide +kernel
  obtain ⟨hok, hsteps⟩ := hchecked
  cases heval : eval twoParams nestedChoice noCode with
  | error e => simp [heval, Except.isOk, Except.toBool] at hok
  | ok p =>
    refine ⟨p.1, p.2, rfl, (eval_owns_iff (by decide) heval).mpr fun t ht => ?_⟩
    exact Step.fine_of_inRegisters (List.all_eq_true.mp hsteps t ht)
end Bpfsnoop.CC
