/-
Bpfsnoop.CC.EvalTheorems — the code of an expression computes what
`evalSem` says.

`eval_ok` is one induction over the expression, for `accessMemory` and
`eval` together. The contract of a node (`EvalOk`) says which registers
its code leaves alone, those in use before it, and that the result is in a
register that was free; the contracts of the operands then compose. The
side condition is `Site.Safe` at every memory read and conditional.
-/
import Bpfsnoop.CC.EvalSemantics
import Bpfsnoop.CC.OperatorTheorems

namespace Bpfsnoop.CC

open Ebpf Btf Reg

/-! ## Running code against a meaning -/

/-- `frag`, started in `s`, follows `sem`. With a value it falls through
into a state that satisfies `post`, the registers in `keep` unchanged; at
an exit it goes to `label`. -/
def Runs {α : Type} (K : Kernel) (label : String) (used : Prop) (keep : Reg → Prop)
    (frag : List Insn) (s : State) (sem : SemM α) (post : α → State → Prop) : Prop :=
  match sem with
  | .ok a => ∃ s', exec K frag .run s = .cont .run s' ∧ s'.out = s.out ∧
      (∀ q, keep q → s'.regs q = s.regs q) ∧ post a s'
  | .error .exit => used ∧ ∃ s', exec K frag .run s = .cont (.seek label) s' ∧ s'.out = s.out ∧
      ∀ q, R9 ≤ q → s'.regs q = s.regs q
  | .error .undefined => False

section Runs

variable {α β : Type} {K : Kernel} {label : String} {used used' : Prop} {keep keep' : Reg → Prop}
  {frag frag' : List Insn} {s : State} {sem : SemM α} {post : α → State → Prop}

theorem Runs.mono (h : Runs K label used keep frag s sem post) (hu : used → used')
    (hk : ∀ q, keep' q → keep q) {post' : α → State → Prop} (hp : ∀ a s', sem = .ok a →
      (∀ q, keep q → s'.regs q = s.regs q) → post a s' → post' a s') :
    Runs K label used' keep' frag s sem post' := by
  unfold Runs at h ⊢
  split at h
  · obtain ⟨s', hexec, hout, hkeep, hpost⟩ := h
    exact ⟨s', hexec, hout, fun q hq => hkeep q (hk q hq), hp _ s' rfl hkeep hpost⟩
  · exact ⟨hu h.1, h.2⟩
  · exact h

/-- **Sequencing.** Code that follows a meaning, then code that follows
the rest of it. -/
theorem Runs.bind {k : α → SemM β} {post' : β → State → Prop} (hk : ∀ q, R9 ≤ q → keep q)
    (h : Runs K label used keep frag s sem post) (hfrag : Unmarked frag')
    (h' : ∀ a s₁, sem = .ok a → post a s₁ → (∀ q, keep q → s₁.regs q = s.regs q) →
      Runs K label used keep frag' s₁ (k a) post') :
    Runs K label used keep (frag ++ frag') s (sem >>= k) post' := by
  cases hsem : sem with
  | error e =>
    rw [hsem] at h
    cases e with
    | undefined => exact h
    | exit =>
      obtain ⟨hu, s₁, hexec, hout, hhigh⟩ := h
      refine ⟨hu, s₁, ?_, hout, hhigh⟩
      rw [exec_append, hexec]
      exact exec_seek_of_unmarked hfrag label s₁
  | ok a =>
    rw [hsem] at h
    obtain ⟨s₁, hexec, hout, hkeep, hpost⟩ := h
    have h₂ := h' a s₁ hsem hpost hkeep
    show Runs K label used keep (frag ++ frag') s (k a) post'
    unfold Runs at h₂ ⊢
    rw [exec_append_of_run hexec]
    split at h₂
    · obtain ⟨s₂, hexec₂, hout₂, hkeep₂, hpost₂⟩ := h₂
      exact ⟨s₂, hexec₂, hout₂.trans hout, fun q hq => (hkeep₂ q hq).trans (hkeep q hq), hpost₂⟩
    · obtain ⟨hu, s₂, hexec₂, hout₂, hhigh₂⟩ := h₂
      exact ⟨hu, s₂, hexec₂, hout₂.trans hout,
        fun q hq => (hhigh₂ q hq).trans (hkeep q (hk q hq))⟩
    · exact h₂

/-- No code behind a value. -/
theorem Runs.pure {a : α} (hpost : post a s) : Runs K label used keep [] s (.ok a) post :=
  ⟨s, rfl, rfl, fun _ _ => rfl, hpost⟩

end Runs

/-! ## The result of an access -/

theorem exec_adjust (K : Kernel) (heap : Heap) (t : BtfType) (reg : Reg) (s : State) :
    exec K ((adjustRegisterBitwise heap t reg).map (↑)) .run s
      = .cont .run (s.set reg (adjustSem heap t (s.regs reg))) := by
  unfold adjustRegisterBitwise adjustSem
  generalize sizeof heap t = size
  split
  · rfl
  · rfl
  · simp [AluOp.eval, int32]
  · simp

theorem exec_bitfield (K : Kernel) (member : Member) (reg : Reg) (s : State) :
    exec K ((bitfield2insns member reg).map (↑)) .run s
      = .cont .run (s.set reg (bitfieldSem member (s.regs reg))) := by
  unfold bitfield2insns bitfieldSem
  dsimp only
  split
  · simp [AluOp.eval]
  · simp [AluOp.eval]

theorem exec_keepCode (K : Kernel) (heap : Heap) (btf : BtfType) (mem : Option Member) (reg : Reg)
    (s : State) : exec K ((keepCode heap btf mem reg).map (↑)) .run s
      = .cont .run (s.set reg (keptSem heap btf mem (s.regs reg))) := by
  unfold keepCode keptSem
  cases mem with
  | none => exact exec_adjust K heap btf reg s
  | some m =>
    dsimp only
    split
    · exact exec_bitfield K m reg s
    · exact exec_adjust K heap btf reg s

theorem unmarked_ops (ops : List Op) : Unmarked (ops.map (↑)) := by
  intro i hi
  obtain ⟨op, -, rfl⟩ := List.mem_map.mp hi
  rfl

/-! ## The contract of a stretch of compiling -/

/-- An instruction that writes registers only. -/
def Quiet (i : Insn) : Prop :=
  match i.op with
  | .stx .. | .call _ | .callKfunc _ => False
  | _ => True

theorem Plain.quiet {i : Insn} (h : Plain i) : Quiet i := by
  obtain ⟨⟨op⟩, sym⟩ := i <;> first | trivial | exact absurd h.2 id

/-- Registers that code behind `g` must not change: those in use, and
those the allocator does not give out. -/
def Gen.Kept (g : Gen) (q : Reg) : Prop := g.regalloc.registers q = true ∨ R9 ≤ q

/-- An exit has been recorded, in the modes that record exits. -/
def LabelUsed (c : Compiler) (g : Gen) : Prop :=
  c.memMode ≠ .directRead → g.labelExitUsed = true

/-- How a stretch of compiling from `g` to `g'` uses the registers: it may
consume those in `held`, operands of an earlier stretch, and leaves its
value in those in `held'`. -/
structure Allocates (held : Reg → Prop) (g g' : Gen) (held' : Reg → Prop) : Prop where
  owned : ∀ q, held' q → g'.regalloc.registers q = true ∧ q ≤ R8 ∧
    (held q ∨ g.regalloc.registers q = false)
  keeps : ∀ q, g.regalloc.registers q = true → ¬ held q → g'.regalloc.registers q = true
  label : g.labelExitUsed = true → g'.labelExitUsed = true

/-- Between `g` and `g'`, code was emitted that follows `sem` and leaves
the value `val`. -/
structure Computes {β : Type} (c : Compiler) (held : Reg → Prop) (g g' : Gen) (held' : Reg → Prop)
    (quiet : Prop) (sem : Kernel → Word → (Reg → Word) → SemM β) (val : (Reg → Word) → β) :
    Prop extends Allocates held g g' held' where
  reads : ∀ regs regs', (∀ q, held' q → regs' q = regs q) → val regs' = val regs
  code : ∃ frag, g'.insns = g.insns ++ frag ∧ Unmarked frag ∧ (quiet → ∀ i ∈ frag, Quiet i) ∧
    ∀ K s, K.fastcall = c.rdonlyCastFastcall →
      Runs K c.labelExit (LabelUsed c g') (fun q => g.Kept q ∧ ¬ held q) frag s
        (sem K (s.regs R9) s.regs) fun b s' => b = val s'.regs

/-- Nothing is consumed. -/
abbrev nothing : Reg → Prop := fun _ => False

section Contract

variable {α β : Type} {c : Compiler} {g g₁ g₂ : Gen} {held held₁ held₂ : Reg → Prop}
  {quiet quiet' : Prop}

/-- A register in use that the first stretch may not consume is none of
its results. -/
theorem Allocates.not_held (h : Allocates held g g₁ held₁) {q : Reg}
    (hq : g.regalloc.registers q = true) (hn : ¬ held q) : ¬ held₁ q := by
  intro h₁
  rcases (h.owned q h₁).2.2 with hh | hfree
  · exact hn hh
  · rw [hq] at hfree
    exact absurd hfree (by decide)

/-- The registers above those given out are kept. -/
theorem Allocates.high (hheld : ∀ q, held q → q ≤ R8) (q : Reg) (hq : R9 ≤ q) :
    g.Kept q ∧ ¬ held q :=
  ⟨.inr hq, fun hh => absurd (hq.trans (hheld q hh)) (by decide)⟩

/-- The second stretch consumes what the first left. -/
theorem Allocates.bind (h : Allocates held g g₁ held₁) (h' : Allocates held₁ g₁ g₂ held₂) :
    Allocates held g g₂ held₂ := by
  refine ⟨fun q hq => ?_, fun q hq hn => h'.keeps q (h.keeps q hq hn) (h.not_held hq hn),
    fun hl => h'.label (h.label hl)⟩
  obtain ⟨hused, hle, hfrom⟩ := h'.owned q hq
  refine ⟨hused, hle, ?_⟩
  rcases hfrom with h₁ | hfree
  · exact (h.owned q h₁).2.2
  · by_cases hh : held q
    · exact .inl hh
    · cases hg : g.regalloc.registers q with
      | false => exact .inr rfl
      | true =>
        rw [h.keeps q hg hh] at hfree
        exact absurd hfree (by decide)

/-- An operand evaluated before stays in use. -/
theorem Allocates.frame (hheld : ∀ q, held q → g.regalloc.registers q = true ∧ q ≤ R8)
    (h : Allocates nothing g g₁ held₁) : Allocates held g g₁ (fun q => held q ∨ held₁ q) := by
  refine ⟨?_, fun q hq _ => h.keeps q hq id, h.label⟩
  rintro q (hq | hq)
  · exact ⟨h.keeps q (hheld q hq).1 id, (hheld q hq).2, .inl hq⟩
  · obtain ⟨hused, hle, hfrom⟩ := h.owned q hq
    exact ⟨hused, hle, .inr (hfrom.resolve_left id)⟩

/-- Two stretches that consume nothing leave their values in different
registers. -/
theorem Allocates.disjoint (h₁ : Allocates nothing g g₁ held₁) (h₂ : Allocates nothing g₁ g₂ held₂)
    {q : Reg} (hq : held₁ q) : ¬ held₂ q := by
  intro hq'
  have hfree := (h₂.owned q hq').2.2.resolve_left id
  rw [(h₁.owned q hq).1] at hfree
  exact absurd hfree (by decide)

/-- **Composition.** The second stretch consumes what the first left. -/
theorem Computes.bind {sem : Kernel → Word → (Reg → Word) → SemM α} {val : (Reg → Word) → α}
    {k : Kernel → Word → α → SemM β} {val' : (Reg → Word) → β}
    (hheld : ∀ q, held q → q ≤ R8)
    (h : Computes c held g g₁ held₁ quiet sem val)
    (h' : Computes c held₁ g₁ g₂ held₂ quiet' (fun K w regs => k K w (val regs)) val') :
    Computes c held g g₂ held₂ (quiet ∧ quiet') (fun K w regs => sem K w regs >>= k K w) val' := by
  obtain ⟨frag, hins, hun, hquiet, hrun⟩ := h.code
  obtain ⟨frag', hins', hun', hquiet', hrun'⟩ := h'.code
  have hhigh : ∀ q, R9 ≤ q → g.Kept q ∧ ¬ held q := Allocates.high hheld
  have hkept : ∀ q, g.Kept q ∧ ¬ held q → g₁.Kept q ∧ ¬ held₁ q := by
    rintro q ⟨hq | hq, hn⟩
    · exact ⟨.inl (h.keeps q hq hn), h.not_held hq hn⟩
    · exact ⟨.inr hq, fun hh => absurd (hq.trans (h.owned q hh).2.1) (by decide)⟩
  refine ⟨h.toAllocates.bind h'.toAllocates, h'.reads, frag ++ frag', ?_, hun.append hun', ?_, ?_⟩
  · rw [hins', hins, List.append_assoc]
  · intro hq i hi
    rcases List.mem_append.mp hi with hi | hi
    · exact hquiet hq.1 i hi
    · exact hquiet' hq.2 i hi
  · intro K s hK
    have hrun₁ : Runs K c.labelExit (LabelUsed c g₂) (fun q => g.Kept q ∧ ¬ held q) frag s
        (sem K (s.regs R9) s.regs) fun b s' => b = val s'.regs :=
      (hrun K s hK).mono (fun hl hm => h'.label (hl hm)) (fun _ hq => hq) fun _ _ _ _ hp => hp
    refine hrun₁.bind hhigh hun' fun a s₁ _ ha hkeep => ?_
    have hargs : s₁.regs R9 = s.regs R9 := hkeep R9 (hhigh R9 (by decide))
    have hrun₂ := hrun' K s₁ hK
    rw [hargs, ← ha] at hrun₂
    exact hrun₂.mono id hkept fun _ _ _ _ hp => hp

/-- **Framing.** An operand evaluated before stays where it is. -/
theorem Computes.frame {sem : Kernel → Word → (Reg → Word) → SemM β} {val : (Reg → Word) → α}
    {val' : (Reg → Word) → β}
    (hheld : ∀ q, held q → g.regalloc.registers q = true ∧ q ≤ R8)
    (hreads : ∀ regs regs', (∀ q, held q → regs' q = regs q) → val regs' = val regs)
    (h : Computes c nothing g g₁ held₁ quiet sem val') :
    Computes c held g g₁ (fun q => held q ∨ held₁ q) quiet
      (fun K w regs => sem K w regs >>= fun b => Except.ok (val regs, b))
      (fun regs => (val regs, val' regs)) := by
  obtain ⟨frag, hins, hun, hquiet, hrun⟩ := h.code
  refine ⟨h.toAllocates.frame hheld, ?_, frag, hins, hun, hquiet, ?_⟩
  · intro regs regs' heq
    rw [hreads regs regs' fun q hq => heq q (.inl hq), h.reads regs regs' fun q hq => heq q (.inr hq)]
  · intro K s hK
    have hrun' := hrun K s hK
    have hfinal : Runs K c.labelExit (LabelUsed c g₁) (fun q => g.Kept q ∧ ¬ nothing q) (frag ++ []) s
        (sem K (s.regs R9) s.regs >>= fun b => Except.ok (val s.regs, b))
        fun p s' => p = (val s'.regs, val' s'.regs) := by
      refine hrun'.bind (fun q hq => ⟨.inr hq, id⟩) (by simp [Unmarked]) fun b s₁ _ hb hkeep => ?_
      refine Runs.pure ?_
      rw [hb, hreads s.regs s₁.regs fun q hq => hkeep q ⟨.inl (hheld q hq).1, id⟩]
    rw [List.append_nil] at hfinal
    exact hfinal.mono id (fun q hq => ⟨hq.1, id⟩) fun _ _ _ _ hp => hp

/-- The code of an operator, as a stretch that consumes its operands. -/
theorem CodeOk.computes {sem : (Reg → Word) → SemM Val} {v : EvalValue} (h : CodeOk held sem g v g₁) :
    Computes c held g g₁ v.Holds True (fun _ _ regs => sem regs) v.at := by
  obtain ⟨frag, hemit, hkeeps, hown, hfrom, hcode⟩ := h
  refine ⟨⟨?_, hkeeps, fun hl => by rw [hemit.label, hl]⟩, ?_, frag, hemit.insns,
    fun i hi => (hemit.plain i hi).1, fun _ i hi => (hemit.plain i hi).quiet, fun K s _ => ?_⟩
  · rintro q ⟨ht, rfl⟩
    exact ⟨(hown ht).1, (hown ht).2, hfrom _ ⟨ht, rfl⟩⟩
  · intro regs regs' heq
    exact at_congr fun ht => heq _ ⟨ht, rfl⟩
  · obtain ⟨s', hexec, hmem, hframe, hsem⟩ := hcode K s
    rw [hsem]
    exact ⟨s', hexec, hmem.out, fun q hq => hframe q hq.1 hq.2, rfl⟩

end Contract

/-! ## Accesses -/

/-- The register of a computed base. -/
def AccessResult.Holds (res : AccessResult) (q : Reg) : Prop := res.idx = none ∧ res.reg = q

/-- An access at run time: the result, its register left open, and the
content of that register. -/
def AccessResult.at (res : AccessResult) (regs : Reg → Word) : AccessResult × Word :=
  (res.withBase res.idx R0, if res.idx = none then regs res.reg else 0)

section Access

variable {c : Compiler} {g g' : Gen} {res : AccessResult} {quiet : Prop}

/-- A stretch with a static tail. -/
theorem Computes.static {α β : Type} {held held' : Reg → Prop}
    {sem : Kernel → Word → (Reg → Word) → SemM α} {val : (Reg → Word) → α} {f : α → SemM β}
    {val' : (Reg → Word) → β} {held'' : Reg → Prop} (hheld : ∀ q, held q → q ≤ R8)
    (h : Computes c held g g' held' quiet sem val) (hsub : ∀ q, held'' q → held' q)
    (hreads : ∀ regs regs', (∀ q, held'' q → regs' q = regs q) → val' regs' = val' regs)
    (hf : ∀ regs, f (val regs) = .ok (val' regs)) :
    Computes c held g g' held'' quiet (fun K w regs => sem K w regs >>= f) val' := by
  have hnone : Computes c held' g' g' held'' True (fun _ _ regs => f (val regs)) val' := by
    refine ⟨⟨fun q hq => ?_, fun q hq _ => hq, id⟩, hreads, [], by simp, by simp [Unmarked], by simp,
      fun K s _ => ?_⟩
    · obtain ⟨hused, hle, -⟩ := h.owned q (hsub q hq)
      exact ⟨hused, hle, .inl (hsub q hq)⟩
    · rw [hf]
      exact Runs.pure rfl
  have hbind := h.bind (k := fun _ _ => f) hheld hnone
  exact ⟨hbind.toAllocates, hbind.reads, by simpa using hbind.code⟩

/-- A step of `accessMemory` behind its operand. -/
theorem Computes.stepped {sem : Kernel → Word → (Reg → Word) → SemM (AccessResult × Word)}
    {f : AccessResult → Except GoError AccessResult} {res' : AccessResult}
    (h : Computes c nothing g g' res.Holds quiet sem res.at) (hf : KeepsBase f)
    (hres : f res = .ok res') :
    Computes c nothing g g' res'.Holds quiet (fun K w regs => sem K w regs >>= (stepped · f))
      res'.at := by
  obtain ⟨hidx, hreg⟩ := hf.base hres
  refine h.static (fun _ hq => hq.elim) ?_ ?_ fun regs => ?_
  · rintro q ⟨hi, hr⟩
    exact ⟨hidx ▸ hi, hreg ▸ hr⟩
  · intro regs regs' heq
    simp only [AccessResult.at]
    split
    · rename_i hi
      rw [heq _ ⟨hi, rfl⟩]
    · rfl
  · have hopen := hf res res.idx R0
    rw [hres] at hopen
    simp only [CC.stepped, AccessResult.at, hopen, Except.map, CC.static, hidx, hreg]
    rfl

/-- The only early stop of a chain is the exit. -/
theorem chainSem_error {m : Word → Byte} : ∀ {offsets : List AccessOffset} {w : Word} {e : Stop},
    chainSem c m offsets w = .error e → e = .exit
  | [], _, _, h => by simp [chainSem, readPlan, runPlan] at h
  | o :: rest, w, e, h => by
      simp only [chainSem, readPlan, runPlan] at h
      split at h
      · simp only [Except.error.injEq] at h
        exact h.symm
      · exact @chainSem_error m rest _ _ h

/-- A chain that can leave records that. -/
theorem usesLabel_of_exit {m : Word → Byte} (hmode : c.memMode ≠ .directRead) :
    ∀ {offsets : List AccessOffset} {w : Word} {e : Stop},
      chainSem c m offsets w = .error e → usesLabel c offsets = true
  | [], _, _, h => by simp [chainSem, readPlan, runPlan] at h
  | o :: rest, w, e, h => by
      simp only [chainSem, readPlan, runPlan] at h
      split at h
      · rename_i hnull
        simp [usesLabel, hmode, hnull.1]
      · have hrest : usesLabel c rest = true := usesLabel_of_exit hmode h
        simp [usesLabel, hrest]

/-- A weaker promise about the instructions. -/
theorem Computes.loud {β : Type} {held held' : Reg → Prop}
    {sem : Kernel → Word → (Reg → Word) → SemM β} {val : (Reg → Word) → β} {quiet' : Prop}
    (h : Computes c held g g' held' quiet sem val) (hq : quiet' → quiet) :
    Computes c held g g' held' quiet' sem val := by
  obtain ⟨frag, hins, hun, hquiet, hrun⟩ := h.code
  exact ⟨h.toAllocates, h.reads, frag, hins, hun, fun hq' => hquiet (hq hq'), hrun⟩

/-- **A read**: the chain from the word in `reg`, and what is kept of the
word it leads to. -/
theorem read_computes {offsets : List AccessOffset} {reg : Reg} {ops : List Op} (kept : Word → Word)
    {g₁ : Gen} {u : Unit} (hfit : StackFits c) (hused : g.regalloc.registers reg = true)
    (hle : reg ≤ R8) (hsafe : RegsSafe c g.regalloc offsets reg)
    (hchain : offset2insns c offsets reg g = .ok (u, g₁))
    (hins : g' = { g₁ with insns := g₁.insns ++ ops.map (↑) })
    (hops : ∀ K s, exec K (ops.map (↑)) .run s = .cont .run (s.set reg (kept (s.regs reg)))) :
    Computes c (· = reg) g g' (· = reg) False
      (fun K _ regs => do return kept (← chainSem c K.mem offsets (regs reg))) (fun regs => regs reg) := by
  have hfp : reg ≠ RFP := by
    rintro rfl
    exact absurd hle (by decide)
  have hgen := offset2insns_eq hchain
  refine ⟨⟨?_, ?_, ?_⟩, fun regs regs' heq => heq reg rfl,
    chainCode c g.regalloc offsets reg ++ ops.map (↑), ?_,
    (unmarked_chainCode c g.regalloc offsets reg).append (unmarked_ops ops), False.elim, ?_⟩
  · rintro q rfl
    rw [hins, hgen]
    exact ⟨hused, hle, .inl rfl⟩
  · intro q hq _
    rw [hins, hgen]
    exact hq
  · intro hl
    simp [hins, hgen, Gen.withCode, hl]
  · simp [hins, hgen, Gen.withCode]
  · intro K s hK
    have hhigh : ∀ q, R9 ≤ q → g.Kept q ∧ ¬ q = reg := by
      rintro q hq
      refine ⟨.inr hq, ?_⟩
      rintro rfl
      exact absurd (hq.trans hle) (by decide)
    have hread : Runs K c.labelExit (LabelUsed c g') (fun q => g.Kept q ∧ ¬ q = reg)
        (chainCode c g.regalloc offsets reg) s (chainSem c K.mem offsets (s.regs reg))
        fun v s' => s'.regs reg = v := by
      obtain ⟨m, s', hexec, hout, hfp', hres⟩ :=
        @exec_chainCode K c g.regalloc reg hK hfit hfp offsets s
      cases hsem : chainSem c K.mem offsets (s.regs reg) with
      | error e =>
        rw [hsem] at hres
        obtain ⟨rfl, hkeep⟩ := hres
        obtain rfl := chainSem_error hsem
        refine ⟨fun hmode => ?_, s', hexec, hout, fun q hq => ?_⟩
        · simp [hins, hgen, Gen.withCode, usesLabel_of_exit hmode hsem]
        · exact hkeep q (hhigh q hq).2 (lt_of_lt_of_le (by decide) hq)
      | ok v =>
        rw [hsem] at hres
        obtain ⟨rfl, hval, hkeep⟩ := hres
        refine ⟨s', hexec, hout, ?_, ?_⟩
        · rintro q ⟨hq, hne⟩
          refine hkeep q hne ?_
          cases hd : chainDestroys c offsets q with
          | false => exact .inl rfl
          | true =>
            rcases hq with hq | hq
            · exact .inr (hsafe.others q hq hne hd)
            · rw [chainDestroys_high (lt_of_lt_of_le (by decide) hq)] at hd
              exact absurd hd (by decide)
        · simpa [hsafe.target] using hval
    refine hread.bind hhigh (unmarked_ops ops) fun v s₁ _ hv _ => ?_
    refine ⟨s₁.set reg (kept v), ?_, rfl, fun q hq => State.set_regs_of_ne _ _ hq.2, ?_⟩
    · rw [hops, hv]
    · simp

/-- One instruction that fills a fresh register. -/
theorem Computes.load {reg : Reg} {ra : RegisterAllocator} (held : Reg → Prop) (i : Op)
    (w : Kernel → Word → (Reg → Word) → Word) (halloc : g.regalloc.alloc = .ok (reg, ra))
    (hquiet : Quiet (i : Insn))
    (hexec : ∀ K s, exec K [(i : Insn)] .run s = .cont .run (s.set reg (w K (s.regs R9) s.regs))) :
    Computes c held g { g with regalloc := ra, insns := g.insns ++ [(i : Insn)] } (· = reg) True
      (fun K a regs => .ok (w K a regs)) (fun regs => regs reg) := by
  obtain ⟨hfree, hle, rfl⟩ := RegisterAllocator.alloc_spec halloc
  have hne : ∀ q, g.regalloc.registers q = true → q ≠ reg := by
    rintro q hq rfl
    rw [hfree] at hq
    exact absurd hq (by decide)
  refine ⟨⟨?_, fun q hq _ => by simp [hne q hq, hq], id⟩, fun regs regs' heq => heq reg rfl,
    [(i : Insn)], rfl, by simp [Unmarked], by simpa using hquiet, fun K s _ => ?_⟩
  · rintro q rfl
    exact ⟨by simp, hle, .inr hfree⟩
  · refine ⟨s.set reg (w K (s.regs R9) s.regs), hexec K s, rfl, ?_, by simp⟩
    rintro q ⟨hq, -⟩
    refine State.set_regs_of_ne _ _ ?_
    rintro rfl
    rcases hq with hq | hq
    · exact hne q hq rfl
    · exact absurd (hq.trans hle) (by decide)

/-- The site of an access: where its chain is read. -/
def AccessResult.SafeIn (c : Compiler) (res : AccessResult) (ra : RegisterAllocator) : Prop :=
  match res.idx with
  | some _ => ∀ reg ra', ra.alloc = .ok (reg, ra') → StackFits c ∧ RegsSafe c ra' res.offsets reg
  | none => StackFits c ∧ RegsSafe c ra res.offsets res.reg

/-- The part of `access` that brings the base into a register. -/
def accessBase (res : AccessResult) : CodeM Reg :=
  match res.idx with
  | some idx => do
    let reg ← wrapping "failed to alloc register for memory access" alloc
    if res.uptr = 0 then
      emitLoadArg idx reg
    else
      emit [Asm.movImm reg res.uptr]
    return reg
  | none => return res.reg

/-- `access`, with the code behind the chain as one list. -/
theorem access_eq (c : Compiler) (res : AccessResult) :
    access c res = (do
      let reg ← accessBase res
      wrapping "failed to convert offsets to instructions" (offset2insns c res.offsets reg)
      emit ((keepCode c.heap res.btf res.mem reg).map (↑))
      return { typ := .regBtf, reg := reg, btf := some res.btf, mem := res.mem }) := by
  unfold access accessBase keepCode
  cases res.idx with
  | none =>
    cases res.mem with
    | none => simp only [pure_bind]
    | some m => cases isMemberBitfield (some m) <;> simp
  | some idx =>
    by_cases hu : res.uptr = 0
    · cases res.mem with
      | none => simp only [hu, if_true, bind_assoc, pure_bind]
      | some m => cases isMemberBitfield (some m) <;> simp [hu]
    · cases res.mem with
      | none => simp only [hu, if_false, bind_assoc, pure_bind]
      | some m => cases isMemberBitfield (some m) <;> simp only [hu, if_true, if_false, Bool.false_eq_true, bind_assoc, pure_bind]

/-- What a successful `accessBase` did. -/
theorem accessBase_inv {reg : Reg} {idx : Nat} (hidx : res.idx = some idx)
    (h : accessBase res g = .ok (reg, g')) : ∃ ra, g.regalloc.alloc = .ok (reg, ra) ∧
      g' = { g with
        regalloc := ra,
        insns := g.insns ++ [((if res.uptr = 0
          then Asm.loadMem reg argsReg (int16 (BitVec.ofNat 64 (idx * 8))) .dword
          else Asm.movImm reg res.uptr : Op) : Insn)] } := by
  simp only [accessBase, hidx, bind_eq_ok, wrapping_eq_ok, alloc_eq_ok] at h
  obtain ⟨r, _, ⟨ra, halloc, rfl⟩, h⟩ := h
  split at h
  · rename_i hu
    simp only [emitLoadArg, bind_eq_ok, emit_eq_ok, pure_eq_ok] at h
    obtain ⟨_, _, rfl, rfl, rfl⟩ := h
    exact ⟨ra, halloc, by rw [if_pos hu]⟩
  · rename_i hu
    simp only [bind_eq_ok, emit_eq_ok, pure_eq_ok] at h
    obtain ⟨_, _, rfl, rfl, rfl⟩ := h
    exact ⟨ra, halloc, by rw [if_neg hu]⟩

theorem AccessResult.SafeIn.at_base {reg : Reg} (h : res.SafeIn c g.regalloc)
    (hbase : accessBase res g = .ok (reg, g')) :
    StackFits c ∧ RegsSafe c g'.regalloc res.offsets reg := by
  unfold AccessResult.SafeIn at h
  cases hidx : res.idx with
  | none =>
    simp only [hidx] at h
    simp only [accessBase, hidx, pure_eq_ok] at hbase
    obtain ⟨rfl, rfl⟩ := hbase
    exact h
  | some idx =>
    simp only [hidx] at h
    obtain ⟨ra, halloc, rfl⟩ := accessBase_inv hidx hbase
    exact h reg ra halloc

/-- The base of an access, in its register. -/
theorem accessBase_computes {reg : Reg}
    (hheld : ∀ q, res.Holds q → g.regalloc.registers q = true ∧ q ≤ R8)
    (h : accessBase res g = .ok (reg, g')) :
    Computes c res.Holds g g' (· = reg) True
      (fun K w regs => .ok (baseSem K.mem w res (res.at regs).2)) (fun regs => regs reg) := by
  cases hidx : res.idx with
  | none =>
    simp only [accessBase, hidx, pure_eq_ok] at h
    obtain ⟨rfl, rfl⟩ := h
    refine ⟨⟨?_, fun q hq _ => hq, id⟩, fun regs regs' heq => heq res.reg rfl, [], by simp,
      by simp [Unmarked], by simp, fun K s _ => ?_⟩
    · rintro q rfl
      obtain ⟨hused, hle⟩ := hheld res.reg ⟨hidx, rfl⟩
      exact ⟨hused, hle, .inl ⟨hidx, rfl⟩⟩
    · refine Runs.pure ?_
      simp [baseSem, AccessResult.at, hidx]
  | some idx =>
    obtain ⟨ra, halloc, rfl⟩ := accessBase_inv hidx h
    refine Computes.load res.Holds _ (fun K w regs => baseSem K.mem w res (res.at regs).2) halloc
      ?_ fun K s => ?_
    · split <;> trivial
    · simp only [baseSem, hidx]
      split <;> rfl

/-- **`access` computes the value of the access.** -/
theorem access_computes {v : EvalValue} {g₁ : Gen}
    {sem : Kernel → Word → (Reg → Word) → SemM (AccessResult × Word)}
    (h : Computes c nothing g g₁ res.Holds quiet sem res.at) (hok : access c res g₁ = .ok (v, g'))
    (hsafe : res.SafeIn c g₁.regalloc) :
    Computes c nothing g g' v.Holds False
      (fun K w regs => sem K w regs >>= accessValue c K.mem w) v.at := by
  rw [access_eq, bind_eq_ok] at hok
  obtain ⟨reg, g₂, hbase, htail⟩ := hok
  simp only [bind_eq_ok, wrapping_eq_ok, emit_eq_ok, pure_eq_ok] at htail
  obtain ⟨_, g₃, hchain, _, g₄, hins, rfl, rfl⟩ := htail
  -- the base, in its register
  obtain ⟨hfit, hsafe⟩ := hsafe.at_base hbase
  have hbase := accessBase_computes (c := c)
    (fun q hq => ⟨(h.owned q hq).1, (h.owned q hq).2.1⟩) hbase
  obtain ⟨hused, hle, -⟩ := hbase.owned reg rfl
  have hread := read_computes (keptSem c.heap res.btf res.mem) hfit hused hle hsafe hchain
    hins.symm fun K s => exec_keepCode K c.heap res.btf res.mem reg s
  -- base and chain, then the record of the value
  have hheld : ∀ q, res.Holds q → q ≤ R8 := fun q hq => (h.owned q hq).2.1
  have hstage := hbase.bind (k := fun K w b => do
    return keptSem c.heap res.btf res.mem (← chainSem c K.mem res.offsets b)) hheld hread
  obtain ⟨v, hv⟩ : ∃ v : EvalValue, v = ⟨.regBtf, reg, 0, "", some res.btf, res.mem⟩ := ⟨_, rfl⟩
  have hvalue : Computes c res.Holds g₁ g₄ v.Holds (True ∧ False)
      (fun K w regs => accessValue c K.mem w (res.at regs)) v.at := by
    have hsem : (fun (K : Kernel) (w : Word) regs => accessValue c K.mem w (res.at regs))
        = fun K w regs => (do
            let b ← Except.ok (baseSem K.mem w res (res.at regs).2)
            return keptSem c.heap res.btf res.mem (← chainSem c K.mem res.offsets b)) >>= fun b =>
          Except.ok { typ := .regBtf, word := b, btf := some res.btf, mem := res.mem } := by
      funext K w regs
      simp only [accessValue, bind_assoc, pure_bind]
      rfl
    rw [hsem]
    refine hstage.static hheld ?_ ?_ fun regs => ?_
    · rintro q ⟨-, hq⟩
      rw [hv] at hq
      exact hq.symm
    · intro regs regs' heq
      exact at_congr fun ht => heq _ ⟨ht, rfl⟩
    · rw [hv]
      rfl
  rw [← hv]
  exact (h.bind (fun _ hq => hq.elim) hvalue).loud False.elim

theorem SafeIn.of_ownSite {e : Expr} (h : accessMemory c e g = .ok (res, g'))
    (hsafe : ∀ t ∈ ownSite c e g, t.Safe c) : res.SafeIn c g'.regalloc := by
  unfold ownSite at hsafe
  unfold AccessResult.SafeIn
  simp only [h] at hsafe
  cases hidx : res.idx with
  | none =>
    simp only [hidx] at hsafe ⊢
    exact hsafe (.read g'.regalloc res.offsets res.reg) (by simp)
  | some idx =>
    simp only [hidx] at hsafe ⊢
    intro reg ra halloc
    simp only [halloc] at hsafe
    exact hsafe (.read ra res.offsets reg) (by simp)

end Access

/-! ## Operands -/

section Operands

variable {α β : Type} {c : Compiler} {g g₁ g₂ : Gen} {held₁ held₂ : Reg → Prop} {quiet₁ quiet₂ : Prop}
  {sem₁ : Kernel → Word → SemM α} {val₁ : (Reg → Word) → α}
  {sem₂ : Kernel → Word → SemM β} {val₂ : (Reg → Word) → β}

/-- Two operands, one after the other. -/
theorem Computes.pair (h₁ : Computes c nothing g g₁ held₁ quiet₁ (fun K w _ => sem₁ K w) val₁)
    (h₂ : Computes c nothing g₁ g₂ held₂ quiet₂ (fun K w _ => sem₂ K w) val₂) :
    Computes c nothing g g₂ (fun q => held₁ q ∨ held₂ q) (quiet₁ ∧ quiet₂)
      (fun K w _ => do
        let a ← sem₁ K w
        let b ← sem₂ K w
        Except.ok (a, b)) (fun regs => (val₁ regs, val₂ regs)) := by
  have hframe := h₂.frame (fun q hq => ⟨(h₁.owned q hq).1, (h₁.owned q hq).2.1⟩) h₁.reads
  exact h₁.bind (k := fun K w a => sem₂ K w >>= fun b => Except.ok (a, b)) (fun _ hq => hq.elim) hframe

end Operands

/-! ## The induction -/

/-- The expression reads no memory but the arguments. -/
def Expr.readFree : Expr → Bool
  | .name _ | .number _ => true
  | .un .addr _ | .un .indir _ => false
  | .un _ left => left.readFree
  | .bin _ left right => left.readFree && right.readFree
  | .cond e left right => e.readFree && left.readFree && right.readFree
  | .cast _ left => left.readFree
  | _ => false

/-- The contract of `accessMemory` at a node. -/
def AccessOk (c : Compiler) (e : Expr) : Prop :=
  ∀ g res g', accessMemory c e g = .ok (res, g') → (∀ t ∈ accessSites c e g, t.Safe c) →
    Computes c nothing g g' res.Holds False (fun K w _ => accessSem c K.mem w e) res.at

/-- The contract of `eval` at a node. -/
def EvalOk (c : Compiler) (e : Expr) : Prop :=
  ∀ g v g', eval c e g = .ok (v, g') → (∀ t ∈ evalSites c e g, t.Safe c) →
    Computes c nothing g g' v.Holds (e.readFree = true) (fun K w _ => evalSem c K.mem w e) v.at

section Nodes

variable {c : Compiler} {e left right : Expr} {g g' g₁ g₂ : Gen}

theorem evalSem_access (m : Word → Byte) (args : Word) (h : e.isAccess) :
    evalSem c m args e = accessSem c m args e >>= accessValue c m args := by
  cases e with
  | dot => simp only [evalSem, accessSem, bind_assoc]
  | arrow => simp only [evalSem, accessSem, bind_assoc]
  | index => simp only [evalSem, accessSem, bind_assoc]
  | un op => cases op <;> simp [Expr.isAccess] at h <;> simp only [evalSem, accessSem, bind_assoc]
  | _ => simp [Expr.isAccess] at h

theorem evalSites_access (h : e.isAccess) (g : Gen) :
    evalSites c e g = accessSites c e g ++ ownSite c e g := by
  cases e with
  | dot => rfl
  | arrow => rfl
  | index => rfl
  | un op => cases op <;> first | rfl | simp [Expr.isAccess] at h
  | _ => simp [Expr.isAccess] at h

/-- A node that `eval` hands to `access`. -/
theorem EvalOk.of_access (hacc : e.isAccess) (h : AccessOk c e) : EvalOk c e := by
  intro g v g' hok hsafe
  rw [eval_access c hacc, bind_eq_ok] at hok
  obtain ⟨res, g₁, hmem, haccess⟩ := hok
  rw [evalSites_access hacc] at hsafe
  have hres := h g res g₁ hmem fun t ht => hsafe t (List.mem_append_left _ ht)
  have hsite := SafeIn.of_ownSite hmem fun t ht => hsafe t (List.mem_append_right _ ht)
  have hsem : (fun (K : Kernel) (w : Word) (_ : Reg → Word) => evalSem c K.mem w e)
      = fun K w _ => accessSem c K.mem w e >>= accessValue c K.mem w := by
    funext K w _
    exact evalSem_access K.mem w hacc
  rw [hsem]
  refine (access_computes hres haccess hsite).loud ?_
  cases e with
  | un op => cases op <;> simp [Expr.isAccess] at hacc <;> simp [Expr.readFree]
  | _ => simp [Expr.isAccess] at hacc <;> simp [Expr.readFree]

/-- Two operands of an operator. -/
theorem EvalOk.pair {lv rv : EvalValue} (hl : EvalOk c left) (hr : EvalOk c right)
    (hlok : eval c left g = .ok (lv, g₁)) (hrok : eval c right g₁ = .ok (rv, g₂))
    (hlsafe : ∀ t ∈ evalSites c left g, t.Safe c)
    (hrsafe : ∀ t ∈ evalSites c right g₁, t.Safe c) :
    Computes c nothing g g₂ (fun q => lv.Holds q ∨ rv.Holds q)
      (left.readFree = true ∧ right.readFree = true)
      (fun K w _ => do
        let a ← evalSem c K.mem w left
        let b ← evalSem c K.mem w right
        Except.ok (a, b)) (fun regs => (lv.at regs, rv.at regs)) ∧
      Owned g₂.regalloc lv ∧ Owned g₂.regalloc rv ∧ Apart lv rv := by
  have h₁ := hl g lv g₁ hlok hlsafe
  have h₂ := hr g₁ rv g₂ hrok hrsafe
  have hpair := h₁.pair h₂
  refine ⟨hpair, fun ht => ?_, fun ht => ?_, fun hlt hrt heq => ?_⟩
  · have := hpair.owned lv.reg (.inl ⟨ht, rfl⟩)
    exact ⟨this.1, this.2.1⟩
  · have := hpair.owned rv.reg (.inr ⟨ht, rfl⟩)
    exact ⟨this.1, this.2.1⟩
  · exact h₁.toAllocates.disjoint h₂.toAllocates (q := lv.reg) ⟨hlt, rfl⟩ ⟨hrt, heq.symm⟩

theorem EvalOk.bin (op : BinOp) (hl : EvalOk c left) (hr : EvalOk c right) :
    EvalOk c (.bin op left right) := by
  intro g v g' hok hsafe
  simp only [eval, bind_eq_ok, wrapping_eq_ok] at hok
  obtain ⟨lv, g₁, hlok, rv, g₂, hrok, hop⟩ := hok
  simp only [evalSites, sitesAfter, hlok] at hsafe
  obtain ⟨hpair, hlown, hrown, hapart⟩ := EvalOk.pair hl hr hlok hrok
    (fun t ht => hsafe t (List.mem_append_left _ ht)) (fun t ht => hsafe t (List.mem_append_right _ ht))
  have hcode := (binary_ok hop hlown hrown hapart).codeOk.computes (c := c)
  have hall := hpair.bind (k := fun _ _ p => binSem c.heap op p.1 p.2) (fun _ hq => hq.elim) hcode
  have hsem : (fun (K : Kernel) (w : Word) (_ : Reg → Word) => evalSem c K.mem w (.bin op left right))
      = fun K w _ => (do
          let a ← evalSem c K.mem w left
          let b ← evalSem c K.mem w right
          Except.ok (a, b)) >>= fun p => binSem c.heap op p.1 p.2 := by
    funext K w _
    simp only [evalSem, bind_assoc]
    rfl
  rw [hsem]
  exact hall.loud fun h => by simpa [Expr.readFree] using h

/-- A unary operator with code of its own. -/
theorem EvalOk.unary {op : UnOp} {f : EvalValue → CodeM EvalValue} (hleft : EvalOk c left)
    (hcode : ∀ g g' u w, f u g = .ok (w, g') → Owned g.regalloc u →
      CodeOk u.Holds (fun regs => unSem op (u.at regs)) g w g')
    (heval : eval c (.un op left) = (do
      let v ← wrapping "failed to evaluate operand" (eval c left)
      f v))
    (hsem : ∀ m args, evalSem c m args (.un op left) = evalSem c m args left >>= unSem op)
    (hsites : ∀ g, evalSites c (.un op left) g = evalSites c left g)
    (hfree : (Expr.un op left).readFree = left.readFree) : EvalOk c (.un op left) := by
  intro g w g' hok hsafe
  rw [heval] at hok
  simp only [bind_eq_ok, wrapping_eq_ok] at hok
  obtain ⟨u, g₁, hlok, hop⟩ := hok
  rw [hsites] at hsafe
  have hl := hleft g u g₁ hlok hsafe
  have hown : Owned g₁.regalloc u := fun ht =>
    ⟨(hl.owned u.reg ⟨ht, rfl⟩).1, (hl.owned u.reg ⟨ht, rfl⟩).2.1⟩
  have hall := hl.bind (k := fun _ _ v => unSem op v) (fun _ hq => hq.elim)
    (hcode g₁ g' u w hop hown).computes
  simp only [hsem, hfree]
  exact hall.loud fun h => ⟨h, trivial⟩

/-- A node that stands for its operand. -/
theorem EvalOk.same {op : UnOp} (hleft : EvalOk c left) (heval : eval c (.un op left) = eval c left)
    (hsem : ∀ m args, evalSem c m args (.un op left) = evalSem c m args left)
    (hsites : ∀ g, evalSites c (.un op left) g = evalSites c left g)
    (hfree : (Expr.un op left).readFree = left.readFree) : EvalOk c (.un op left) := by
  intro g w g' hok hsafe
  rw [heval] at hok
  rw [hsites] at hsafe
  simpa only [hsem, hfree] using hleft g w g' hok hsafe

/-- A value without code. -/
theorem Computes.value {v : EvalValue} {x : Val} (hv : v.typ ≠ .regBtf) (hx : ∀ regs, v.at regs = x) :
    Computes c nothing g g v.Holds True (fun _ _ _ => .ok x) v.at := by
  refine ⟨⟨fun q hq => absurd hq.1 hv, fun q hq _ => hq, id⟩, fun regs regs' _ => ?_, [], by simp,
    by simp [Unmarked], by simp, fun K s _ => Runs.pure (hx _).symm⟩
  rw [hx, hx]

/-- A value in a register that was filled. -/
theorem Computes.inReg {held : Reg → Prop} {quiet : Prop} {reg : Reg}
    {w : Kernel → Word → (Reg → Word) → SemM Word} {v : EvalValue} {f : Word → Val}
    (hheld : ∀ q, held q → q ≤ R8)
    (h : Computes c held g g' (· = reg) quiet w (fun regs => regs reg)) (hreg : v.reg = reg) (hf : ∀ regs, f (regs reg) = v.at regs) :
    Computes c held g g' v.Holds quiet (fun K a regs => w K a regs >>= fun b => Except.ok (f b)) v.at := by
  refine h.static hheld ?_ (fun regs regs' heq => at_congr fun ht => heq _ ⟨ht, rfl⟩) fun regs => ?_
  · rintro q ⟨-, rfl⟩
    exact hreg
  · rw [hf]

theorem EvalOk.number (text : String) : EvalOk c (.number text) := by
  intro g v g' hok _
  simp only [eval, bind_eq_ok, wrapping_eq_ok, lift_eq_ok, pure_eq_ok] at hok
  obtain ⟨num, _, ⟨hnum, rfl⟩, rfl, rfl⟩ := hok
  have hsem : (fun (K : Kernel) (w : Word) (_ : Reg → Word) => evalSem c K.mem w (.number text))
      = fun _ _ _ => .ok { typ := .num, word := num } := by
    funext K w _
    simp only [evalSem, hnum, static]
    rfl
  rw [hsem]
  exact (Computes.value (by simp) fun regs => rfl).loud fun _ => trivial

theorem EvalOk.name (text : String) : EvalOk c (.name text) := by
  intro g v g' hok _
  simp only [eval, evalName] at hok
  simp only [evalSem, nameValue]
  split at hok
  · rename_i h
    simp only [pure_eq_ok] at hok
    obtain ⟨rfl, rfl⟩ := hok
    simp only [h, if_true]
    exact (Computes.value (by simp) fun regs => rfl).loud fun _ => trivial
  rename_i h
  split at hok
  · rename_i h'
    simp only [pure_eq_ok] at hok
    obtain ⟨rfl, rfl⟩ := hok
    simp only [h', if_true]
    exact (Computes.value (by simp) fun regs => rfl).loud fun _ => trivial
  rename_i h'
  simp only [h, h', if_false]
  cases hidx : c.vars.idxOf? text with
  | none =>
    simp only [hidx, pure_eq_ok] at hok
    obtain ⟨rfl, rfl⟩ := hok
    exact (Computes.value (by simp) fun regs => rfl).loud fun _ => trivial
  | some idx =>
    simp only [hidx, emitLoadArg, bind_eq_ok, alloc_eq_ok, emit_eq_ok, pure_eq_ok] at hok
    obtain ⟨reg, _, ⟨ra, halloc, rfl⟩, _, _, rfl, rfl, rfl⟩ := hok
    have hload := Computes.load (c := c) nothing
      (Asm.loadMem reg argsReg (int16 (BitVec.ofNat 64 (idx * 8))) .dword)
      (fun K a _ => argWord K.mem a idx) halloc trivial fun K s => rfl
    exact (hload.inReg (f := fun b => { typ := .regBtf, word := b, btf := c.btfs[idx]? })
      (fun _ hq => hq.elim) rfl fun regs => rfl).loud fun _ => trivial

/-- The stage of a cast behind its operand. -/
theorem cast_computes {type : CType} {u v : EvalValue} (hown : Owned g.regalloc u)
    (hok : (if u.typ = .num then castNumber c type { u with typ := .regBtf } else cast c type u) g
      = .ok (v, g')) :
    Computes c u.Holds g g' v.Holds True (fun _ _ regs => castValue c type (u.at regs)) v.at := by
  by_cases hnum : u.typ = .num
  · simp only [hnum, if_true, castNumber, cast, bind_eq_ok, wrapping_eq_ok, lift_eq_ok, alloc_eq_ok,
      emit_eq_ok, pure_eq_ok] at hok
    obtain ⟨_, _, ⟨typ, _, ⟨htyp, rfl⟩, rfl, rfl⟩, reg, _, ⟨ra, halloc, rfl⟩, _, _, rfl, rfl, rfl⟩ := hok
    have hload := Computes.load (c := c) u.Holds (Asm.movImm reg u.num) (fun _ _ _ => int32 u.num)
      halloc trivial fun K s => rfl
    have hval := hload.inReg
      (f := fun b => { typ := .regBtf, word := b, name := u.name, btf := some typ, mem := u.mem })
      (v := { u with typ := .regBtf, btf := some typ, reg := reg })
      (fun q hq => by rw [← hq.2]; exact absurd hq.1 (by simp [hnum])) rfl fun regs => rfl
    have hsem : (fun (_ : Kernel) (_ : Word) regs => castValue c type (u.at regs)) = fun _ _ _ =>
        Except.ok { typ := .regBtf, word := int32 u.num, name := u.name, btf := some typ, mem := u.mem } := by
      funext K a regs
      simp only [castValue, static, htyp, at_typ, at_word_num hnum, hnum, if_true]
      rfl
    rw [hsem]
    exact hval
  · simp only [hnum, if_false, cast, bind_eq_ok, wrapping_eq_ok, lift_eq_ok, pure_eq_ok] at hok
    obtain ⟨typ, _, ⟨htyp, rfl⟩, rfl, rfl⟩ := hok
    have hsem : (fun (_ : Kernel) (_ : Word) regs => castValue c type (u.at regs))
        = fun _ _ regs => Except.ok (EvalValue.at { u with btf := some typ } regs) := by
      funext K a regs
      simp only [castValue, static, htyp, at_typ, hnum, if_false]
      rfl
    rw [hsem]
    have hcode : CodeOk u.Holds (fun regs => Except.ok (EvalValue.at { u with btf := some typ } regs)) g
        { u with btf := some typ } g := CodeOk.none hown (fun q hq => hq) fun regs => rfl
    exact hcode.computes

theorem EvalOk.cast (type : CType) (hleft : EvalOk c left) : EvalOk c (.cast type left) := by
  intro g v g' hok hsafe
  simp only [eval, bind_eq_ok, wrapping_eq_ok] at hok
  obtain ⟨u, g₁, hlok, hcast⟩ := hok
  have hl := hleft g u g₁ hlok hsafe
  have hown : Owned g₁.regalloc u := fun ht =>
    ⟨(hl.owned u.reg ⟨ht, rfl⟩).1, (hl.owned u.reg ⟨ht, rfl⟩).2.1⟩
  have hall := hl.bind (k := fun _ _ x => castValue c type x) (fun _ hq => hq.elim)
    (cast_computes hown hcast)
  simp only [evalSem]
  exact hall.loud fun h => ⟨h, trivial⟩

theorem EvalOk.cond (he : EvalOk c e) (hl : EvalOk c left) (hr : EvalOk c right) :
    EvalOk c (.cond e left right) := by
  intro g w g' hok hsafe
  simp only [eval, bind_eq_ok, wrapping_eq_ok] at hok
  obtain ⟨v, g₁, heok, lv, g₂, hlok, rv, g₃, hrok, hcond⟩ := hok
  simp only [evalSites, sitesAfter, heok, hlok, hrok, List.mem_append] at hsafe
  have h₁ := he g v g₁ heok fun t ht => hsafe t (.inl ht)
  obtain ⟨h₂, hlown, hrown, -⟩ := EvalOk.pair hl hr hlok hrok
    (fun t ht => hsafe t (.inr (.inl ht))) fun t ht => hsafe t (.inr (.inr (.inl ht)))
  have hresolved : (Site.cond v lv rv).Safe c := hsafe _ (.inr (.inr (.inr (by simp))))
  have hall₃ := h₁.pair h₂
  have hvown : Owned g₃.regalloc v := fun ht => by
    have := hall₃.owned v.reg (.inl ⟨ht, rfl⟩)
    exact ⟨this.1, this.2.1⟩
  have hcode := (cond_ok hcond hvown hlown hrown
    (fun hvt hlt heq => h₁.toAllocates.disjoint h₂.toAllocates (q := v.reg) ⟨hvt, rfl⟩ (.inl ⟨hlt, heq.symm⟩))
    (fun hvt hrt heq => h₁.toAllocates.disjoint h₂.toAllocates (q := v.reg) ⟨hvt, rfl⟩ (.inr ⟨hrt, heq.symm⟩))
    hresolved).computes (c := c)
  have hall := hall₃.bind (k := fun _ _ p => condSem p.1 p.2.1 p.2.2) (fun _ hq => hq.elim) hcode
  have hsem : (fun (K : Kernel) (a : Word) (_ : Reg → Word) => evalSem c K.mem a (.cond e left right))
      = fun K a _ => (do
          let x ← evalSem c K.mem a e
          let y ← (do
            let y ← evalSem c K.mem a left
            let z ← evalSem c K.mem a right
            Except.ok (y, z))
          Except.ok (x, y)) >>= fun p => condSem p.1 p.2.1 p.2.2 := by
    funext K a _
    simp only [evalSem, bind_assoc]
    rfl
  rw [hsem]
  exact hall.loud fun h => by simpa [Expr.readFree, and_assoc] using h

/-- An access without code. -/
theorem Computes.start {res : AccessResult} (hidx : res.idx ≠ none) (hreg : res.reg = R0) :
    Computes c nothing g g res.Holds False (fun _ _ _ => .ok (res, 0)) res.at := by
  have hat : ∀ regs, res.at regs = (res, 0) := by
    intro regs
    simp only [AccessResult.at, AccessResult.withBase, hidx, if_false, ← hreg]
  refine ⟨⟨fun q hq => absurd hq.1 hidx, fun q hq _ => hq, id⟩, fun regs regs' _ => by rw [hat, hat], [],
    by simp, by simp [Unmarked], by simp, fun K s _ => Runs.pure (hat _).symm⟩

/-- A node of `accessMemory`, from the operands it is about. -/
theorem AccessOk.of_node (hsteps : ∀ left, sizeOf left < sizeOf e → AccessOk c left)
    (heval : ∀ op left right, e = .bin op left right → EvalOk c e) : AccessOk c e := by
  intro g res g' hok hsafe
  cases accessMemory_node hok with
  | start hgen hidx hreg hsem _ =>
    subst hgen
    simp only [hsem]
    exact Computes.start hidx hreg
  | step left res₀ f hlt hleft hf hstep hsem hsites _ =>
    rw [hsites] at hsafe
    simp only [hsem]
    exact (hsteps left hlt g res₀ g' hleft hsafe).stepped hf hstep
  | computed op left right v he hval hres hsem hsites _ =>
    rw [hsites] at hsafe
    have hv := (heval op left right he g v g' hval hsafe).loud False.elim
    simp only [hsem]
    unfold accessComputed at hres
    split at hres
    · simp at hres
    rename_i htyp
    have hreg : v.typ = .regBtf := not_not.mp htyp
    simp only [Except.ok.injEq] at hres
    subst hres
    refine hv.static (fun _ hq => hq.elim) ?_ ?_ fun regs => ?_
    · rintro q ⟨-, hq⟩
      exact ⟨hreg, hq⟩
    · intro regs regs' heq
      simp only [AccessResult.at, if_true]
      rw [heq v.reg ⟨rfl, rfl⟩]
    · simp only [computedValue, at_typ, hreg, ne_eq, not_true_eq_false, if_false, at_btf,
        at_word_reg hreg]
      rfl

end Nodes

/-- **`accessMemory` and `eval` are correct.** The code they emit follows
`accessSem` and `evalSem`, if every site in it is safe. -/
theorem compile_ok (c : Compiler) (e : Expr) : AccessOk c e ∧ EvalOk c e := by
  induction hn : sizeOf e using Nat.strong_induction_on generalizing e with
  | _ n ih =>
  subst hn
  have hsub : ∀ left, sizeOf left < sizeOf e → AccessOk c left ∧ EvalOk c left :=
    fun left hlt => ih _ hlt left rfl
  have hbin : ∀ op left right, e = .bin op left right → EvalOk c e := by
    rintro op left right rfl
    exact EvalOk.bin op (hsub left (Expr.left_lt_bin ..)).2 (hsub right (Expr.right_lt_bin ..)).2
  have hacc : AccessOk c e := .of_node (fun left hlt => (hsub left hlt).1) hbin
  refine ⟨hacc, ?_⟩
  cases e with
  | name text => exact EvalOk.name text
  | number text => exact EvalOk.number text
  | un op left =>
    have hleft : EvalOk c left := (hsub left (Expr.lt_un ..)).2
    cases op with
    | addr => exact EvalOk.of_access rfl hacc
    | indir => exact EvalOk.of_access rfl hacc
    | paren =>
      refine hleft.same ?_ (fun m args => ?_) (fun _ => ?_) rfl
      · simp only [eval]
      · simp only [evalSem]
        cases evalSem c m args left <;> rfl
      · simp only [evalSites]
    | plus =>
      refine hleft.same ?_ (fun m args => ?_) (fun _ => ?_) rfl
      · simp only [eval]
      · simp only [evalSem]
        cases evalSem c m args left <;> rfl
      · simp only [evalSites]
    | minus =>
      exact hleft.unary (fun _ _ _ _ => minus_ok) (by simp only [eval])
        (fun _ _ => by simp only [evalSem]) (fun _ => by simp only [evalSites]) rfl
    | not =>
      exact hleft.unary (fun _ _ _ _ => not_ok) (by simp only [eval])
        (fun _ _ => by simp only [evalSem]) (fun _ => by simp only [evalSites]) rfl
    | twid =>
      exact hleft.unary (fun _ _ _ _ => twid_ok) (by simp only [eval])
        (fun _ _ => by simp only [evalSem]) (fun _ => by simp only [evalSites]) rfl
    | preDec =>
      exact hleft.unary (fun _ _ _ _ => preDec_ok) (by simp only [eval])
        (fun _ _ => by simp only [evalSem]) (fun _ => by simp only [evalSites]) rfl
    | preInc =>
      exact hleft.unary (fun _ _ _ _ => preInc_ok) (by simp only [eval])
        (fun _ _ => by simp only [evalSem]) (fun _ => by simp only [evalSites]) rfl
  | bin op left right => exact hbin op left right rfl
  | cond e left right =>
    exact EvalOk.cond (hsub e (Expr.cond_lt_cond ..)).2 (hsub left (Expr.left_lt_cond ..)).2
      (hsub right (Expr.right_lt_cond ..)).2
  | cast type left => exact EvalOk.cast type (hsub left (Expr.lt_cast ..)).2
  | dot left text => exact EvalOk.of_access rfl hacc
  | arrow left text => exact EvalOk.of_access rfl hacc
  | index left right => exact EvalOk.of_access rfl hacc
  | call left list => exact fun g v g' hok _ => by simp [eval] at hok
  | other op => exact fun g v g' hok _ => by simp [eval] at hok

end Bpfsnoop.CC
