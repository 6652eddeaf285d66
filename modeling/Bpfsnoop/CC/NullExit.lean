/-
Bpfsnoop.CC.NullExit — what a filter returns when a pointer on the way of
one of its accesses is NULL.

The promise of an early exit does not need the values of the filter: an
access from a parameter finds its pointers whatever the other registers
hold. `Leaves` is the contract without values: the code falls through, or
it goes to the exit label, and it goes to the label if an access in it
meets NULL. What the filter then returns is decided by the last
instruction of its top operator.
-/
import Bpfsnoop.CC.FilterTheorems
import Bpfsnoop.CC.ShortCircuit

namespace Bpfsnoop.CC

open Ebpf Btf Reg

/-! ## Accesses that meet NULL -/

/-- Whether a chain loads a NULL pointer that a later step goes through. -/
def nullMet (m : Word → Byte) : List AccessOffset → Word → Bool
  | [], _ => false
  | o :: rest, w =>
    if o.address then nullMet m rest (w + o.offset)
    else
      (rest ≠ [] && loadLE m (w + o.offset) 8 = 0) || nullMet m rest (loadLE m (w + o.offset) 8)

/-- The code of a step loads where the step says, eight bytes, and checks
the word for NULL. -/
def AccessOffset.Checked (c : Compiler) (o : AccessOffset) : Prop :=
  match c.memMode, o.address with
  | .probeRead, _ => int32 o.offset = o.offset
  | _, true => int32 o.offset = o.offset
  | .directRead, false => (int16 o.offset).signExtend 64 = o.offset
  | .coreRead, false => (int16 o.offset).signExtend 64 = o.offset ∧ castSize c o = some .dword

instance (c : Compiler) (o : AccessOffset) : Decidable (o.Checked c) := by
  unfold AccessOffset.Checked
  split <;> infer_instance

section Chain

variable {c : Compiler} {m : Word → Byte}

theorem AccessOffset.Checked.step {o : AccessOffset} (h : o.Checked c) :
    readStep c o false
      = { delta := o.offset, load := if o.address then none else some .dword,
          checked := !o.address } := by
  unfold AccessOffset.Checked at h
  unfold readStep
  cases hmode : c.memMode <;> cases ho : o.address <;> simp only [hmode, ho] at h
  case coreRead.false => simp [h.1, h.2]
  all_goals simp [h]

/-- Checked steps find the NULL of a chain. -/
theorem chainSem_of_nullMet : ∀ {offsets : List AccessOffset} {w : Word},
    (∀ o ∈ offsets.dropLast, o.Checked c) → nullMet m offsets w = true →
    chainSem c m offsets w = .error .exit
  | [], _, _, h => by simp [nullMet] at h
  | [o], w, _, h => by
      unfold nullMet at h
      split at h <;> simp [nullMet] at h
  | o :: o' :: rest, w, hchecked, h => by
      have hstep := (hchecked o (by simp)).step
      have ih {w : Word} : nullMet m (o' :: rest) w = true → chainSem c m (o' :: rest) w = .error .exit :=
        chainSem_of_nullMet fun x hx => hchecked x (by simp [List.dropLast_cons_of_ne_nil, hx])
      have hcons : chainSem c m (o :: o' :: rest) w
          = if (readStep c o false).checked = true ∧ (readStep c o false).value m w = 0 then .error .exit
            else chainSem c m (o' :: rest) ((readStep c o false).value m w) := rfl
      rw [hcons, hstep]
      unfold nullMet at h
      cases ho : o.address with
      | true =>
        simp only [ho, if_true] at h
        simpa [ReadStep.value, ho] using ih h
      | false =>
        simp only [ho, Bool.false_eq_true, if_false, ne_eq, reduceCtorEq, not_false_eq_true,
          decide_true, Bool.true_and, Bool.or_eq_true, decide_eq_true_eq] at h
        by_cases hz : loadLE m (w + o.offset) 8 = 0#64
        · simp [ReadStep.value, hz, Size.bytes]
        · simpa [ReadStep.value, hz, Size.bytes] using ih (h.resolve_left hz)

end Chain

/-! ## Code that falls through or leaves -/

/-- `frag`, started in `s`, falls through or goes to `label`; it does not
fall through if `null`. -/
def Stops (K : Kernel) (label : String) (used : Prop) (frag : List Insn) (s : State)
    (null : Prop) : Prop :=
  (¬ null ∧ ∃ s', exec K frag .run s = .cont .run s' ∧ ∀ q, R9 ≤ q → s'.regs q = s.regs q) ∨
    used ∧ ∃ s', exec K frag .run s = .cont (.seek label) s'

/-- Between `g` and `g'`, code was emitted that falls through or goes to
the exit label. `null` is a reason for the latter. -/
structure Leaves (c : Compiler) (held : Reg → Prop) (g g' : Gen) (held' : Reg → Prop)
    (null : Kernel → Word → (Reg → Word) → Prop) : Prop extends Allocates held g g' held' where
  direct : c.memMode = .directRead → g'.labelExitUsed = g.labelExitUsed
  code : ∃ frag, g'.insns = g.insns ++ frag ∧ Unmarked frag ∧
    ∀ K s, K.fastcall = c.rdonlyCastFastcall →
      Stops K c.labelExit (LabelUsed c g') frag s (null K (s.regs R9) s.regs)

section Contract

variable {c : Compiler} {g g₁ g₂ : Gen} {held held₁ held₂ : Reg → Prop}
  {null : Kernel → Word → (Reg → Word) → Prop}

theorem Stops.append {K : Kernel} {label : String} {used used' : Prop} {frag frag' : List Insn}
    {s : State} {n n' : Prop} (h : Stops K label used frag s n) (hu : used → used')
    (hfrag : Unmarked frag') (h' : ∀ s₁, exec K frag .run s = .cont .run s₁ →
      (∀ q, R9 ≤ q → s₁.regs q = s.regs q) → Stops K label used' frag' s₁ n') :
    Stops K label used' (frag ++ frag') s (n ∨ n') := by
  rcases h with ⟨hn, s₁, hexec, hhigh⟩ | ⟨hused, s₁, hexec⟩
  · rcases h' s₁ hexec hhigh with ⟨hn', s₂, hexec₂, hhigh₂⟩ | ⟨hused', s₂, hexec₂⟩
    · refine .inl ⟨not_or.mpr ⟨hn, hn'⟩, s₂, ?_, fun q hq => (hhigh₂ q hq).trans (hhigh q hq)⟩
      rw [exec_append_of_run hexec, hexec₂]
    · exact .inr ⟨hused', s₂, by rw [exec_append_of_run hexec, hexec₂]⟩
  · refine .inr ⟨hu hused, s₁, ?_⟩
    rw [exec_append, hexec]
    exact exec_seek_of_unmarked hfrag label s₁

theorem Stops.mono {K : Kernel} {label : String} {used : Prop} {frag : List Insn} {s : State}
    {n n' : Prop} (h : Stops K label used frag s n) (hn : n' → n) :
    Stops K label used frag s n' :=
  h.imp_left fun ⟨hnot, hrun⟩ => ⟨fun h' => hnot (hn h'), hrun⟩

theorem Leaves.mono {null' : Kernel → Word → (Reg → Word) → Prop}
    (h : Leaves c held g g₁ held₁ null) (hn : ∀ K w regs, null' K w regs → null K w regs) :
    Leaves c held g g₁ held₁ null' := by
  obtain ⟨frag, hins, hun, hstops⟩ := h.code
  exact ⟨h.toAllocates, h.direct, frag, hins, hun,
    fun K s hK => (hstops K s hK).mono (hn K (s.regs R9) s.regs)⟩

/-- **Composition.** Either stretch may leave. -/
theorem Leaves.bind {N : Kernel → Word → Prop} (h : Leaves c held g g₁ held₁ null)
    (h' : Leaves c held₁ g₁ g₂ held₂ fun K w _ => N K w) :
    Leaves c held g g₂ held₂ fun K w regs => null K w regs ∨ N K w := by
  obtain ⟨frag, hins, hun, hstops⟩ := h.code
  obtain ⟨frag', hins', hun', hstops'⟩ := h'.code
  refine ⟨h.toAllocates.bind h'.toAllocates, fun hmode => (h'.direct hmode).trans (h.direct hmode),
    frag ++ frag', by rw [hins', hins, List.append_assoc], hun.append hun', fun K s hK => ?_⟩
  refine (hstops K s hK).append (fun hl hm => h'.label (hl hm)) hun' fun s₁ _ hhigh => ?_
  have hnext := hstops' K s₁ hK
  rwa [hhigh R9 (by decide)] at hnext

/-- An operand evaluated before stays in use. -/
theorem Leaves.frame (hheld : ∀ q, held q → g.regalloc.registers q = true ∧ q ≤ R8)
    (h : Leaves c nothing g g₁ held₁ null) :
    Leaves c held g g₁ (fun q => held q ∨ held₁ q) null :=
  ⟨h.toAllocates.frame hheld, h.direct, h.code⟩

/-- A stretch that fills its registers, then one that may leave. -/
theorem Computes.leaves_bind {α : Type} {quiet : Prop} {a : Kernel → Word → (Reg → Word) → α}
    {val : (Reg → Word) → α} {N : Kernel → Word → α → Prop}
    (hheld : ∀ q, held q → q ≤ R8)
    (h : Computes c held g g₁ held₁ quiet (fun K w regs => .ok (a K w regs)) val)
    (hdirect : c.memMode = .directRead → g₁.labelExitUsed = g.labelExitUsed)
    (h' : Leaves c held₁ g₁ g₂ held₂ fun K w regs => N K w (val regs)) :
    Leaves c held g g₂ held₂ fun K w regs => N K w (a K w regs) := by
  obtain ⟨frag, hins, hun, -, hruns⟩ := h.code
  obtain ⟨frag', hins', hun', hstops'⟩ := h'.code
  refine ⟨h.toAllocates.bind h'.toAllocates, fun hmode => (h'.direct hmode).trans (hdirect hmode),
    frag ++ frag', by rw [hins', hins, List.append_assoc], hun.append hun', fun K s hK => ?_⟩
  obtain ⟨s₁, hexec, -, hkeep, ha⟩ := hruns K s hK
  have hhigh : ∀ q, R9 ≤ q → s₁.regs q = s.regs q := fun q hq => hkeep q (Allocates.high hheld q hq)
  have hfirst : Stops K c.labelExit False frag s False := .inl ⟨id, s₁, hexec, hhigh⟩
  refine (hfirst.append False.elim hun' fun s₂ hexec₂ _ => ?_).mono .inr
  rw [hexec, Outcome.cont.injEq] at hexec₂
  obtain ⟨-, rfl⟩ := hexec₂
  have hnext := hstops' K s₁ hK
  rwa [hhigh R9 (by decide), ← ha] at hnext

/-- Code with a value falls through. -/
theorem Computes.leaves {α : Type} {quiet : Prop} {sem : Kernel → Word → (Reg → Word) → SemM α}
    {val : (Reg → Word) → α} (hheld : ∀ q, held q → q ≤ R8)
    (h : Computes c held g g₁ held₁ quiet sem val) (hsem : ∀ K w regs, ∃ a, sem K w regs = .ok a)
    (hdirect : g₁.labelExitUsed = g.labelExitUsed) :
    Leaves c held g g₁ held₁ fun _ _ _ => False := by
  obtain ⟨frag, hins, hun, -, hruns⟩ := h.code
  refine ⟨h.toAllocates, fun _ => hdirect, frag, hins, hun, fun K s hK => ?_⟩
  have hrun := hruns K s hK
  obtain ⟨a, ha⟩ := hsem K (s.regs R9) s.regs
  rw [ha] at hrun
  obtain ⟨s₁, hexec, -, hkeep, -⟩ := hrun
  exact .inl ⟨id, s₁, hexec, fun q hq => hkeep q (Allocates.high hheld q hq)⟩

/-- The code of an operator falls through. -/
theorem CodeOk.leaves {sem : (Reg → Word) → SemM Val} {v : EvalValue}
    (hheld : ∀ q, held q → q ≤ R8) (h : CodeOk held sem g v g₁) :
    Leaves c held g g₁ v.Holds fun _ _ _ => False := by
  obtain ⟨frag, hemit, hkeeps, hown, hfrom, hcode⟩ := h
  refine ⟨⟨?_, hkeeps, fun hl => by rw [hemit.label, hl]⟩, fun _ => hemit.label, frag, hemit.insns,
    fun i hi => (hemit.plain i hi).1, fun K s _ => ?_⟩
  · rintro q ⟨ht, rfl⟩
    exact ⟨(hown ht).1, (hown ht).2, hfrom _ ⟨ht, rfl⟩⟩
  · obtain ⟨s', hexec, -, hframe, -⟩ := hcode K s
    refine .inl ⟨id, s', hexec, fun q hq => hframe q (.inr hq) fun hh => ?_⟩
    exact absurd (hq.trans (hheld q hh)) (by decide)

end Contract

/-! ## Reads -/

section Reads

variable {c : Compiler} {g g' g₁ : Gen} {res : AccessResult}

/-- A read goes to the label if its chain does, whatever the other
registers hold. -/
theorem read_leaves {offsets : List AccessOffset} {reg : Reg} {ops : List Op} (kept : Word → Word)
    {u : Unit} (hfit : StackFits c) (hused : g.regalloc.registers reg = true) (hle : reg ≤ R8)
    (hchain : offset2insns c offsets reg g = .ok (u, g₁))
    (hins : g' = { g₁ with insns := g₁.insns ++ ops.map (↑) })
    (hops : ∀ K s, exec K (ops.map (↑)) .run s = .cont .run (s.set reg (kept (s.regs reg)))) :
    Leaves c (· = reg) g g' (· = reg)
      fun K _ regs => chainSem c K.mem offsets (regs reg) = .error .exit := by
  have hfp : reg ≠ RFP := by
    rintro rfl
    exact absurd hle (by decide)
  have hgen := offset2insns_eq hchain
  refine ⟨⟨?_, ?_, fun hl => ?_⟩, fun hmode => ?_, chainCode c g.regalloc offsets reg ++ ops.map (↑),
    ?_, (unmarked_chainCode c g.regalloc offsets reg).append (unmarked_ops ops), fun K s hK => ?_⟩
  · rintro q rfl
    rw [hins, hgen]
    exact ⟨hused, hle, .inl rfl⟩
  · intro q hq _
    rw [hins, hgen]
    exact hq
  · simp [hins, hgen, Gen.withCode, hl]
  · simp [hins, hgen, Gen.withCode, usesLabel_direct hmode]
  · simp [hins, hgen, Gen.withCode]
  · have hne : ∀ q, R9 ≤ q → q ≠ reg := by
      rintro q hq rfl
      exact absurd (hq.trans hle) (by decide)
    obtain ⟨m, s', hexec, -, hfp', hres⟩ := @exec_chainCode K c g.regalloc reg hK hfit hfp offsets s
    cases hsem : chainSem c K.mem offsets (s.regs reg) with
    | error e =>
      rw [hsem] at hres
      obtain ⟨rfl, -⟩ := hres
      obtain rfl := chainSem_error hsem
      refine .inr ⟨fun hmode => ?_, s', ?_⟩
      · simp [hins, hgen, Gen.withCode, usesLabel_of_exit hmode hsem]
      · rw [exec_append, hexec]
        exact exec_seek_of_unmarked (unmarked_ops ops) c.labelExit s'
    | ok v =>
      rw [hsem] at hres
      obtain ⟨rfl, -, hkeep⟩ := hres
      refine .inl ⟨by simp, s'.set reg (kept (s'.regs reg)), ?_, fun q hq => ?_⟩
      · rw [exec_append_of_run hexec, hops]
      · rw [State.set_regs_of_ne _ _ (hne q hq)]
        exact hkeep q (hne q hq)
          (.inl (chainDestroys_high (lt_of_lt_of_le (by decide) hq)))

/-- **An access goes to the label** if it starts from a parameter and its
chain meets a checked NULL. -/
theorem access_leaves {v : EvalValue} {null : Kernel → Word → Prop} (hfit : StackFits c)
    (h : Leaves c nothing g g₁ res.Holds fun K w _ => null K w)
    (hok : access c res g₁ = .ok (v, g')) :
    Leaves c nothing g g' v.Holds fun K w _ => null K w ∨
      res.idx ≠ none ∧ chainSem c K.mem res.offsets (baseSem K.mem w res 0) = .error .exit := by
  rw [access_eq, bind_eq_ok] at hok
  obtain ⟨reg, g₂, hbase, htail⟩ := hok
  simp only [bind_eq_ok, wrapping_eq_ok, emit_eq_ok, pure_eq_ok] at htail
  obtain ⟨_, g₃, hchain, _, g₄, hins, rfl, rfl⟩ := htail
  have hdirect : c.memMode = .directRead → g₂.labelExitUsed = g₁.labelExitUsed := by
    intro _
    cases hidx : res.idx with
    | none =>
      simp only [accessBase, hidx, pure_eq_ok] at hbase
      rw [hbase.2]
    | some idx =>
      obtain ⟨ra, -, rfl⟩ := accessBase_inv hidx hbase
      rfl
  have hholds : ∀ q, res.Holds q → g₁.regalloc.registers q = true ∧ q ≤ R8 :=
    fun q hq => ⟨(h.owned q hq).1, (h.owned q hq).2.1⟩
  have hcode := accessBase_computes (c := c) hholds hbase
  obtain ⟨hused, hle, -⟩ := hcode.owned reg rfl
  have hread := read_leaves (keptSem c.heap res.btf res.mem) hfit hused hle hchain hins.symm
    fun K s => exec_keepCode K c.heap res.btf res.mem reg s
  have hstage := hcode.leaves_bind (N := fun K _ b => chainSem c K.mem res.offsets b = .error .exit)
    (fun q hq => (hholds q hq).2) hdirect hread
  have hparam : Leaves c res.Holds g₁ g₄ (· = reg) fun K w _ =>
      res.idx ≠ none ∧ chainSem c K.mem res.offsets (baseSem K.mem w res 0) = .error .exit := by
    refine hstage.mono fun K w regs hnull => ?_
    rw [AccessResult.at, if_neg hnull.1]
    exact hnull.2
  have hall := h.bind hparam
  refine ⟨⟨fun q hq => hall.owned q hq.2.symm, hall.keeps, hall.label⟩, hall.direct, hall.code⟩

end Reads

/-! ## The induction -/

/-- The access `n` starts from a parameter, and its code finds a NULL on
the way. -/
def ParamNull (c : Compiler) (m : Word → Byte) (args : Word) (n : Expr) : Prop :=
  ∃ r w, accessSem c m args n = .ok (r, w) ∧ r.idx ≠ none ∧
    chainSem c m r.offsets (baseSem m args r w) = .error .exit

/-- No operand of a `?:` is an unresolved name. -/
def CondsResolved (c : Compiler) (sites : List Site) : Prop :=
  ∀ v l r, Site.cond v l r ∈ sites → (Site.cond v l r).Safe c

/-- The contract of `accessMemory` at a node. -/
def AccessLeaves (c : Compiler) (e : Expr) : Prop :=
  ∀ g res g', accessMemory c e g = .ok (res, g') → CondsResolved c (accessSites c e g) →
    Leaves c nothing g g' res.Holds fun K w _ => ∃ n ∈ e.baseReads, ParamNull c K.mem w n

/-- The contract of `eval` at a node. -/
def EvalLeaves (c : Compiler) (e : Expr) : Prop :=
  ∀ g v g', eval c e g = .ok (v, g') → CondsResolved c (evalSites c e g) →
    Leaves c nothing g g' v.Holds fun K w _ => ∃ n ∈ e.reads, ParamNull c K.mem w n

theorem CondsResolved.left {c : Compiler} {a b : List Site} (h : CondsResolved c (a ++ b)) :
    CondsResolved c a := fun v l r hmem => h v l r (List.mem_append_left _ hmem)

theorem CondsResolved.right {c : Compiler} {a b : List Site} (h : CondsResolved c (a ++ b)) :
    CondsResolved c b := fun v l r hmem => h v l r (List.mem_append_right _ hmem)

section Nodes

variable {c : Compiler} {e left right : Expr} {g g' g₁ g₂ : Gen}

/-- Where an access starts from a parameter, its meaning is the result of
the compiler. -/
theorem accessMemory_param {m : Word → Byte} {args : Word} {res r : AccessResult} {w : Word}
    (h : accessMemory c e g = .ok (res, g')) (hsem : accessSem c m args e = .ok (r, w))
    (hidx : r.idx ≠ none) : res = r := by
  induction hn : sizeOf e using Nat.strong_induction_on generalizing e res r w with
  | _ n ih =>
  subst hn
  cases accessMemory_node h with
  | start _ _ _ hstart _ =>
    rw [hstart, Except.ok.injEq, Prod.mk.injEq] at hsem
    exact hsem.1
  | step left res₀ f hlt hleft hf hstep hsemleft _ _ =>
    rw [hsemleft, sem_bind_eq_ok] at hsem
    obtain ⟨⟨r₀, w₀⟩, hr₀, hr⟩ := hsem
    obtain ⟨hfr, -⟩ := stepped_eq_ok.mp hr
    obtain rfl := ih _ hlt hleft hr₀ ((hf.base hfr).1 ▸ hidx) rfl
    rw [hstep, Except.ok.injEq] at hfr
    exact hfr
  | computed op left right v _ _ _ hcomputed _ _ =>
    rw [hcomputed, sem_bind_eq_ok] at hsem
    obtain ⟨x, -, hx⟩ := hsem
    unfold computedValue at hx
    split at hx
    · simp at hx
    · simp only [Except.ok.injEq, Prod.mk.injEq] at hx
      rw [← hx.1] at hidx
      exact absurd rfl hidx

/-- Nothing emitted. -/
theorem Leaves.start {held : Reg → Prop} (hheld : ∀ q, ¬ held q) :
    Leaves c nothing g g held fun _ _ _ => False :=
  ⟨⟨fun q hq => absurd hq (hheld q), fun q hq _ => hq, id⟩, fun _ => rfl, [], by simp,
    by simp [Unmarked], fun _ s _ => .inl ⟨id, s, rfl, fun _ _ => rfl⟩⟩

/-- The same stretch, its result named otherwise. -/
theorem Leaves.rename {held held' : Reg → Prop} {null : Kernel → Word → (Reg → Word) → Prop}
    (h : Leaves c nothing g g' held null) (hsub : ∀ q, held' q → held q) :
    Leaves c nothing g g' held' null :=
  ⟨⟨fun q hq => h.owned q (hsub q hq), h.keeps, h.label⟩, h.direct, h.code⟩

theorem AccessLeaves.of_node (hsteps : ∀ left, sizeOf left < sizeOf e → AccessLeaves c left)
    (heval : ∀ op left right, e = .bin op left right → EvalLeaves c e) : AccessLeaves c e := by
  intro g res g' hok hconds
  cases accessMemory_node hok with
  | start hgen hidx _ _ hreads =>
    subst hgen
    refine (Leaves.start fun q hq => hidx hq.1).mono fun K w _ hnull => ?_
    simp [hreads] at hnull
  | step left res₀ f hlt hleft hf hstep _ hsites hreads =>
    rw [hsites] at hconds
    rw [hreads]
    obtain ⟨hidx, hreg⟩ := hf.base hstep
    refine (hsteps left hlt g res₀ g' hleft hconds).rename ?_
    rintro q ⟨hi, hr⟩
    exact ⟨hidx ▸ hi, hreg ▸ hr⟩
  | computed op left right v he hval hres _ hsites hreads =>
    rw [hsites] at hconds
    rw [hreads]
    unfold accessComputed at hres
    split at hres
    · simp at hres
    rename_i htyp
    simp only [Except.ok.injEq] at hres
    subst hres
    refine (heval op left right he g v g' hval hconds).rename ?_
    rintro q ⟨-, hq⟩
    exact ⟨not_not.mp htyp, hq⟩

/-- The reads of an expression are accesses. -/
theorem isAccess_of_mem (e n : Expr) :
    (n ∈ e.baseReads → n.isAccess) ∧ (n ∈ e.reads → n.isAccess) := by
  have happ {a b : List Expr} (ha : n ∈ a → n.isAccess) (hb : n ∈ b → n.isAccess) :
      n ∈ a ++ b → n.isAccess := fun h => (List.mem_append.mp h).elim ha hb
  have hself {e : Expr} {a : List Expr} (ha : n ∈ a → n.isAccess) (he : e.isAccess) :
      n ∈ a ++ [e] → n.isAccess := happ ha fun h => (List.mem_singleton.mp h) ▸ he
  induction e with
  | un op left ih =>
    cases op <;> simp only [Expr.baseReads, Expr.reads]
    case addr => exact ⟨ih.1, hself ih.1 rfl⟩
    case indir => exact ⟨ih.1, hself ih.1 rfl⟩
    case paren => exact ih
    all_goals exact ⟨by simp, ih.2⟩
  | bin op left right ihl ihr =>
    have hreads := happ ihl.2 ihr.2
    cases op <;> simp only [Expr.baseReads, Expr.reads]
    case and => exact ⟨hreads, hreads⟩
    case or => exact ⟨hreads, hreads⟩
    case sub => exact ⟨ihl.1, hreads⟩
    case add =>
      refine ⟨?_, hreads⟩
      split
      · exact ihr.1
      · exact ihl.1
    all_goals exact ⟨by simp, hreads⟩
  | cond e left right ihe ihl ihr =>
    simp only [Expr.baseReads, Expr.reads]
    exact ⟨by simp, happ (happ ihe.2 ihl.2) ihr.2⟩
  | cast type left ih =>
    simp only [Expr.baseReads, Expr.reads]
    refine ⟨?_, ih.2⟩
    split
    · simp
    · exact ih.1
  | dot left text ih =>
    simp only [Expr.baseReads, Expr.reads]
    exact ⟨ih.1, hself ih.1 rfl⟩
  | arrow left text ih =>
    simp only [Expr.baseReads, Expr.reads]
    exact ⟨ih.1, hself ih.1 rfl⟩
  | index left right ih _ =>
    simp only [Expr.baseReads, Expr.reads]
    exact ⟨ih.1, hself ih.1 rfl⟩
  | _ => simp only [Expr.baseReads, Expr.reads, List.not_mem_nil, false_implies, and_self]

theorem isAccess_of_reads {n : Expr} (h : n ∈ e.reads) : n.isAccess := (isAccess_of_mem e n).2 h

/-- A node that `eval` hands to `access`. -/
theorem EvalLeaves.of_access (hfit : StackFits c) (hacc : e.isAccess) (h : AccessLeaves c e) :
    EvalLeaves c e := by
  intro g v g' hok hconds
  rw [eval_access c hacc, bind_eq_ok] at hok
  obtain ⟨res, g₁, hmem, haccess⟩ := hok
  rw [evalSites_access hacc] at hconds
  refine (access_leaves hfit (h g res g₁ hmem hconds.left) haccess).mono ?_
  rintro K w - ⟨n, hn, hnull⟩
  rw [reads_access hacc, List.mem_append, List.mem_singleton] at hn
  rcases hn with hn | rfl
  · exact .inl ⟨n, hn, hnull⟩
  · obtain ⟨r, b, hsem, hidx, hchain⟩ := hnull
    obtain rfl := accessMemory_param hmem hsem hidx
    obtain ⟨idx, hsome⟩ := Option.ne_none_iff_exists'.mp hidx
    refine .inr ⟨hidx, ?_⟩
    simpa only [baseSem, hsome] using hchain

/-- Two operands, one after the other. -/
theorem EvalLeaves.pair {lv rv : EvalValue} (hl : EvalLeaves c left) (hr : EvalLeaves c right)
    (hlok : eval c left g = .ok (lv, g₁)) (hrok : eval c right g₁ = .ok (rv, g₂))
    (hlc : CondsResolved c (evalSites c left g)) (hrc : CondsResolved c (evalSites c right g₁)) :
    Leaves c nothing g g₂ (fun q => lv.Holds q ∨ rv.Holds q)
      (fun K w _ => (∃ n ∈ left.reads, ParamNull c K.mem w n) ∨
        ∃ n ∈ right.reads, ParamNull c K.mem w n) ∧
      Owned g₂.regalloc lv ∧ Owned g₂.regalloc rv ∧ Apart lv rv := by
  have h₁ := hl g lv g₁ hlok hlc
  have h₂ := hr g₁ rv g₂ hrok hrc
  have hpair := h₁.bind (h₂.frame fun q hq => ⟨(h₁.owned q hq).1, (h₁.owned q hq).2.1⟩)
  refine ⟨hpair, fun ht => ?_, fun ht => ?_, fun hlt hrt heq => ?_⟩
  · have := hpair.owned lv.reg (.inl ⟨ht, rfl⟩)
    exact ⟨this.1, this.2.1⟩
  · have := hpair.owned rv.reg (.inr ⟨ht, rfl⟩)
    exact ⟨this.1, this.2.1⟩
  · exact h₁.toAllocates.disjoint h₂.toAllocates (q := lv.reg) ⟨hlt, rfl⟩ ⟨hrt, heq.symm⟩

theorem EvalLeaves.bin (op : BinOp) (hl : EvalLeaves c left) (hr : EvalLeaves c right) :
    EvalLeaves c (.bin op left right) := by
  intro g v g' hok hconds
  simp only [eval, bind_eq_ok, wrapping_eq_ok] at hok
  obtain ⟨lv, g₁, hlok, rv, g₂, hrok, hop⟩ := hok
  simp only [evalSites, sitesAfter, hlok] at hconds
  obtain ⟨hpair, hlown, hrown, hapart⟩ := EvalLeaves.pair hl hr hlok hrok hconds.left hconds.right
  have hcode := (binary_ok hop hlown hrown hapart).codeOk.leaves (c := c)
    fun q hq => (hpair.owned q hq).2.1
  refine (hpair.bind (N := fun _ _ => False) hcode).mono ?_
  rintro K w - ⟨n, hn, hnull⟩
  rw [Expr.reads, List.mem_append] at hn
  exact .inl (hn.imp (fun hn => ⟨n, hn, hnull⟩) fun hn => ⟨n, hn, hnull⟩)

theorem EvalLeaves.cond (he : EvalLeaves c e) (hl : EvalLeaves c left) (hr : EvalLeaves c right) :
    EvalLeaves c (.cond e left right) := by
  intro g v g' hok hconds
  simp only [eval, bind_eq_ok, wrapping_eq_ok] at hok
  obtain ⟨cv, g₁, heok, lv, g₂, hlok, rv, g₃, hrok, hcond⟩ := hok
  simp only [evalSites, sitesAfter, heok, hlok, hrok] at hconds
  have h₁ := he g cv g₁ heok hconds.left
  obtain ⟨h₂, hlown, hrown, -⟩ := EvalLeaves.pair hl hr hlok hrok hconds.right.left
    hconds.right.right.left
  have hresolved : (Site.cond cv lv rv).Safe c := hconds.right.right.right cv lv rv (by simp)
  have hall := h₁.bind (h₂.frame fun q hq => ⟨(h₁.owned q hq).1, (h₁.owned q hq).2.1⟩)
  have hvown : Owned g₃.regalloc cv := fun ht => by
    have := hall.owned cv.reg (.inl ⟨ht, rfl⟩)
    exact ⟨this.1, this.2.1⟩
  have hdisjoint := fun q (hq : cv.Holds q) => h₁.toAllocates.disjoint h₂.toAllocates hq
  have hcode := (cond_ok hcond hvown hlown hrown
    (fun hvt hlt heq => hdisjoint cv.reg ⟨hvt, rfl⟩ (.inl ⟨hlt, heq.symm⟩))
    (fun hvt hrt heq => hdisjoint cv.reg ⟨hvt, rfl⟩ (.inr ⟨hrt, heq.symm⟩))
    hresolved).leaves (c := c) fun q hq => (hall.owned q hq).2.1
  refine (hall.bind (N := fun _ _ => False) hcode).mono ?_
  rintro K w - ⟨n, hn, hnull⟩
  rw [Expr.reads, List.append_assoc, List.mem_append, List.mem_append] at hn
  exact .inl (hn.imp (fun hn => ⟨n, hn, hnull⟩)
    (.imp (fun hn => ⟨n, hn, hnull⟩) fun hn => ⟨n, hn, hnull⟩))

/-- A unary operator with code of its own. -/
theorem EvalLeaves.unary {op : UnOp} {f : EvalValue → CodeM EvalValue} (hleft : EvalLeaves c left)
    (hcode : ∀ g g' u w, f u g = .ok (w, g') → Owned g.regalloc u →
      CodeOk u.Holds (fun regs => unSem op (u.at regs)) g w g')
    (heval : eval c (.un op left) = (do
      let v ← wrapping "failed to evaluate operand" (eval c left)
      f v))
    (hsites : ∀ g, evalSites c (.un op left) g = evalSites c left g)
    (hreads : (Expr.un op left).reads = left.reads) : EvalLeaves c (.un op left) := by
  intro g w g' hok hconds
  rw [heval] at hok
  simp only [bind_eq_ok, wrapping_eq_ok] at hok
  obtain ⟨u, g₁, hlok, hop⟩ := hok
  rw [hsites] at hconds
  have hl := hleft g u g₁ hlok hconds
  have hown : Owned g₁.regalloc u := fun ht =>
    ⟨(hl.owned u.reg ⟨ht, rfl⟩).1, (hl.owned u.reg ⟨ht, rfl⟩).2.1⟩
  have hstage := (hcode g₁ g' u w hop hown).leaves (c := c) fun q hq => (hl.owned q hq).2.1
  rw [hreads]
  exact (hl.bind (N := fun _ _ => False) hstage).mono fun _ _ _ => .inl

/-- A node that stands for its operand. -/
theorem EvalLeaves.same {op : UnOp} (hleft : EvalLeaves c left)
    (heval : eval c (.un op left) = eval c left)
    (hsites : ∀ g, evalSites c (.un op left) g = evalSites c left g)
    (hreads : (Expr.un op left).reads = left.reads) : EvalLeaves c (.un op left) := by
  intro g w g' hok hconds
  rw [heval] at hok
  rw [hsites] at hconds
  rw [hreads]
  exact hleft g w g' hok hconds

/-- A value that does not depend on an operand. -/
theorem EvalLeaves.leaf (hok : EvalOk c e) (hsites : ∀ g, evalSites c e g = [])
    (hreads : e.reads = []) (hsem : ∀ g v g', eval c e g = .ok (v, g') →
      g'.labelExitUsed = g.labelExitUsed ∧ ∀ m args, ∃ x, evalSem c m args e = .ok x) :
    EvalLeaves c e := by
  intro g v g' h _
  obtain ⟨hlabel, htotal⟩ := hsem g v g' h
  have hcode := hok g v g' h (by simp [hsites])
  refine (hcode.leaves (fun _ hq => hq.elim) (fun K w _ => htotal K.mem w) hlabel).mono ?_
  rintro K w - ⟨n, hn, -⟩
  simp [hreads] at hn

theorem EvalLeaves.name (text : String) : EvalLeaves c (.name text) := by
  refine .leaf (EvalOk.name text) (fun _ => by simp only [evalSites]) (by simp only [Expr.reads])
    fun g v g' hok => ⟨?_, fun m args => ⟨nameValue c m args text, by simp only [evalSem]⟩⟩
  simp only [eval, evalName] at hok
  split at hok
  · simp only [pure_eq_ok] at hok
    rw [hok.2]
  split at hok
  · simp only [pure_eq_ok] at hok
    rw [hok.2]
  cases hidx : c.vars.idxOf? text with
  | none =>
    simp only [hidx, pure_eq_ok] at hok
    rw [hok.2]
  | some idx =>
    simp only [hidx, emitLoadArg, bind_eq_ok, alloc_eq_ok, emit_eq_ok, pure_eq_ok] at hok
    obtain ⟨reg, _, ⟨ra, -, rfl⟩, _, _, rfl, -, rfl⟩ := hok
    rfl

theorem EvalLeaves.number (text : String) : EvalLeaves c (.number text) := by
  refine .leaf (EvalOk.number text) (fun _ => by simp only [evalSites]) (by simp only [Expr.reads])
    fun g v g' hok => ?_
  simp only [eval, bind_eq_ok, wrapping_eq_ok, lift_eq_ok, pure_eq_ok] at hok
  obtain ⟨num, _, ⟨hnum, rfl⟩, -, rfl⟩ := hok
  refine ⟨rfl, fun m args => ⟨{ typ := .num, word := num }, ?_⟩⟩
  simp only [evalSem, hnum, static]
  rfl

theorem EvalLeaves.cast (type : CType) (hleft : EvalLeaves c left) :
    EvalLeaves c (.cast type left) := by
  intro g v g' hok hconds
  simp only [eval, bind_eq_ok, wrapping_eq_ok] at hok
  obtain ⟨u, g₁, hlok, hcast⟩ := hok
  have hl := hleft g u g₁ hlok (by simpa only [evalSites] using hconds)
  have hown : Owned g₁.regalloc u := fun ht =>
    ⟨(hl.owned u.reg ⟨ht, rfl⟩).1, (hl.owned u.reg ⟨ht, rfl⟩).2.1⟩
  have hstatic : g'.labelExitUsed = g₁.labelExitUsed ∧ ∃ typ, cc2btf c type = .ok typ := by
    split at hcast
    · simp only [castNumber, CC.cast, bind_eq_ok, wrapping_eq_ok, lift_eq_ok, alloc_eq_ok, emit_eq_ok,
        pure_eq_ok] at hcast
      obtain ⟨_, _, ⟨typ, _, ⟨htyp, rfl⟩, -, rfl⟩, _, _, ⟨_, -, rfl⟩, _, _, rfl, -, rfl⟩ := hcast
      exact ⟨rfl, typ, htyp⟩
    · simp only [CC.cast, bind_eq_ok, wrapping_eq_ok, lift_eq_ok, pure_eq_ok] at hcast
      obtain ⟨typ, _, ⟨htyp, rfl⟩, -, rfl⟩ := hcast
      exact ⟨rfl, typ, htyp⟩
  obtain ⟨hlabel, typ, htyp⟩ := hstatic
  have hstage := (cast_computes hown hcast).leaves (fun q hq => (hl.owned q hq).2.1)
    (fun _ _ regs => ⟨_, by simp only [castValue, htyp, static]; rfl⟩) hlabel
  rw [Expr.reads]
  exact (hl.bind (N := fun _ _ => False) hstage).mono fun _ _ _ => .inl

/-- **The contract holds of every expression.** -/
theorem leaves_ok (hfit : StackFits c) (e : Expr) : AccessLeaves c e ∧ EvalLeaves c e := by
  induction hn : sizeOf e using Nat.strong_induction_on generalizing e with
  | _ n ih =>
  subst hn
  have hsub : ∀ left, sizeOf left < sizeOf e → AccessLeaves c left ∧ EvalLeaves c left :=
    fun left hlt => ih _ hlt left rfl
  have hbin : ∀ op left right, e = .bin op left right → EvalLeaves c e := by
    rintro op left right rfl
    exact EvalLeaves.bin op (hsub left (Expr.left_lt_bin ..)).2 (hsub right (Expr.right_lt_bin ..)).2
  have hacc : AccessLeaves c e := .of_node (fun left hlt => (hsub left hlt).1) hbin
  refine ⟨hacc, ?_⟩
  cases e with
  | name text => exact EvalLeaves.name text
  | number text => exact EvalLeaves.number text
  | un op left =>
    have hleft : EvalLeaves c left := (hsub left (Expr.lt_un ..)).2
    cases op with
    | addr => exact EvalLeaves.of_access hfit rfl hacc
    | indir => exact EvalLeaves.of_access hfit rfl hacc
    | paren =>
      exact hleft.same (by simp only [eval]) (fun _ => by simp only [evalSites])
        (by simp only [Expr.reads])
    | plus =>
      exact hleft.same (by simp only [eval]) (fun _ => by simp only [evalSites])
        (by simp only [Expr.reads])
    | minus =>
      exact hleft.unary (fun _ _ _ _ => minus_ok) (by simp only [eval])
        (fun _ => by simp only [evalSites]) (by simp only [Expr.reads])
    | not =>
      exact hleft.unary (fun _ _ _ _ => not_ok) (by simp only [eval])
        (fun _ => by simp only [evalSites]) (by simp only [Expr.reads])
    | twid =>
      exact hleft.unary (fun _ _ _ _ => twid_ok) (by simp only [eval])
        (fun _ => by simp only [evalSites]) (by simp only [Expr.reads])
    | preDec =>
      exact hleft.unary (fun _ _ _ _ => preDec_ok) (by simp only [eval])
        (fun _ => by simp only [evalSites]) (by simp only [Expr.reads])
    | preInc =>
      exact hleft.unary (fun _ _ _ _ => preInc_ok) (by simp only [eval])
        (fun _ => by simp only [evalSites]) (by simp only [Expr.reads])
  | bin op left right => exact hbin op left right rfl
  | cond e left right =>
    exact EvalLeaves.cond (hsub e (Expr.cond_lt_cond ..)).2 (hsub left (Expr.left_lt_cond ..)).2
      (hsub right (Expr.right_lt_cond ..)).2
  | cast type left => exact EvalLeaves.cast type (hsub left (Expr.lt_cast ..)).2
  | dot left text => exact EvalLeaves.of_access hfit rfl hacc
  | arrow left text => exact EvalLeaves.of_access hfit rfl hacc
  | index left right => exact EvalLeaves.of_access hfit rfl hacc
  | call left list => exact fun g v g' hok _ => by simp [eval] at hok
  | other op => exact fun g v g' hok _ => by simp [eval] at hok

end Nodes

/-! ## Accesses from a computed base -/

section Meaning

variable {c : Compiler} {m : Word → Byte} {args : Word}

/-- An expression with an access that leaves has no value. -/
theorem evalSem_ne_ok {n : Expr} (hn : evalSem c m args n = .error .exit) (e : Expr) :
    (∀ g res g', accessMemory c e g = .ok (res, g') → n ∈ e.baseReads →
      ∀ r, accessSem c m args e ≠ .ok r) ∧
    (∀ g v g', eval c e g = .ok (v, g') → n ∈ e.reads → ∀ x, evalSem c m args e ≠ .ok x) := by
  induction hsize : sizeOf e using Nat.strong_induction_on generalizing e with
  | _ k ih =>
  subst hsize
  have hbin : ∀ op left right, e = .bin op left right → ∀ g v g', eval c e g = .ok (v, g') →
      n ∈ e.reads → ∀ x, evalSem c m args e ≠ .ok x := by
    rintro op left right rfl g v g' hok hmem x hx
    simp only [eval, bind_eq_ok, wrapping_eq_ok] at hok
    obtain ⟨lv, g₁, hlok, rv, g₂, hrok, -⟩ := hok
    simp only [evalSem, sem_bind_eq_ok] at hx
    obtain ⟨l, hl, r, hr, -⟩ := hx
    rw [Expr.reads, List.mem_append] at hmem
    rcases hmem with hmem | hmem
    · exact (ih _ (Expr.left_lt_bin ..) left rfl).2 g lv g₁ hlok hmem l hl
    · exact (ih _ (Expr.right_lt_bin ..) right rfl).2 g₁ rv g₂ hrok hmem r hr
  have hacc : ∀ g res g', accessMemory c e g = .ok (res, g') → n ∈ e.baseReads →
      ∀ r, accessSem c m args e ≠ .ok r := by
    intro g res g' hok hmem r hr
    cases accessMemory_node hok with
    | start _ _ _ _ hreads => simp [hreads] at hmem
    | step left res₀ f hlt hleft _ _ hsem _ hreads =>
      rw [hreads] at hmem
      rw [hsem, sem_bind_eq_ok] at hr
      obtain ⟨r₀, hr₀, -⟩ := hr
      exact (ih _ hlt left rfl).1 g res₀ g' hleft hmem r₀ hr₀
    | computed op left right v he hval _ hsem _ hreads =>
      rw [hreads] at hmem
      rw [hsem, sem_bind_eq_ok] at hr
      obtain ⟨x, hx, -⟩ := hr
      exact hbin op left right he g v g' hval hmem x hx
  have haccess : e.isAccess → ∀ g v g', eval c e g = .ok (v, g') → n ∈ e.reads →
      ∀ x, evalSem c m args e ≠ .ok x := by
    intro hisacc g v g' hok hmem x hx
    rw [eval_access c hisacc, bind_eq_ok] at hok
    obtain ⟨res, g₁, hres, -⟩ := hok
    rw [reads_access hisacc, List.mem_append, List.mem_singleton] at hmem
    rcases hmem with hmem | rfl
    · rw [evalSem_access m args hisacc, sem_bind_eq_ok] at hx
      obtain ⟨r, hr, -⟩ := hx
      exact hacc g res g₁ hres hmem r hr
    · rw [hn] at hx
      exact absurd hx (by simp)
  refine ⟨hacc, ?_⟩
  cases e with
  | un op left =>
    have hleft := (ih _ (Expr.lt_un ..) left rfl).2
    cases op
    case addr => exact haccess rfl
    case indir => exact haccess rfl
    all_goals
      intro g v g' hok hmem x hx
      simp only [eval, bind_eq_ok, wrapping_eq_ok] at hok
      simp only [evalSem, sem_bind_eq_ok] at hx
      obtain ⟨y, hy, -⟩ := hx
      simp only [Expr.reads] at hmem
    case paren => exact hleft g v g' hok hmem y hy
    case plus => exact hleft g v g' hok hmem y hy
    all_goals
      obtain ⟨u, g₁, hlok, -⟩ := hok
      exact hleft g u g₁ hlok hmem y hy
  | bin op left right => exact hbin op left right rfl
  | cond e left right =>
    intro g v g' hok hmem x hx
    simp only [eval, bind_eq_ok, wrapping_eq_ok] at hok
    obtain ⟨cv, g₁, heok, lv, g₂, hlok, rv, g₃, hrok, -⟩ := hok
    simp only [evalSem, sem_bind_eq_ok] at hx
    obtain ⟨y, hy, l, hl, r, hr, -⟩ := hx
    rw [Expr.reads, List.append_assoc, List.mem_append, List.mem_append] at hmem
    rcases hmem with hmem | hmem | hmem
    · exact (ih _ (Expr.cond_lt_cond ..) e rfl).2 g cv g₁ heok hmem y hy
    · exact (ih _ (Expr.left_lt_cond ..) left rfl).2 g₁ lv g₂ hlok hmem l hl
    · exact (ih _ (Expr.right_lt_cond ..) right rfl).2 g₂ rv g₃ hrok hmem r hr
  | cast type left =>
    intro g v g' hok hmem x hx
    simp only [eval, bind_eq_ok, wrapping_eq_ok] at hok
    obtain ⟨u, g₁, hlok, -⟩ := hok
    simp only [evalSem, sem_bind_eq_ok] at hx
    obtain ⟨y, hy, -⟩ := hx
    rw [Expr.reads] at hmem
    exact (ih _ (Expr.lt_cast ..) left rfl).2 g u g₁ hlok hmem y hy
  | dot left text => exact haccess rfl
  | arrow left text => exact haccess rfl
  | index left right => exact haccess rfl
  | _ => exact fun g v g' _ hmem => by simp [Expr.reads] at hmem

end Meaning

/-! ## What the filter returns -/

/-- The access `n` loads a NULL pointer that it then goes through: in its
chain, with the base it is compiled for. -/
def MeetsNull (m : Word → Byte) (args : Word) (r : AccessResult × Word) : Prop :=
  nullMet m r.1.offsets (baseSem m args r.1 r.2) = true

section Filter

variable {c : Compiler} {text : String} {e n : Expr} {g : Gen} {u : Unit} {K : Kernel} {s : State}

/-- The code of a filter with a checked NULL goes to the exit label. -/
theorem filter_seeks {v : EvalValue} {g₁ : Gen} (hfit : StackFits c)
    (heval : eval c e filterGen = .ok (v, g₁)) (hconds : CondsResolved c (evalSites c e filterGen))
    (hK : K.fastcall = c.rdonlyCastFastcall) (hn : n ∈ e.reads) (hacc : n.isAccess)
    {r : AccessResult × Word} (hr : accessSem c K.mem (s.regs R1) n = .ok r)
    (hchain : chainSem c K.mem r.1.offsets (baseSem K.mem (s.regs R1) r.1 r.2) = .error .exit)
    (hbase : r.1.idx = none → ∀ t ∈ evalSites c e filterGen, t.Safe c) :
    LabelUsed c g₁ ∧ ∃ s', exec K g₁.insns .run s = .cont (.seek c.labelExit) s' := by
  -- the arguments move to r9
  obtain ⟨s₀, hs₀⟩ : ∃ s₀, s₀ = s.set R9 (s.regs R1) := ⟨_, rfl⟩
  have hr9 : s₀.regs R9 = s.regs R1 := by rw [hs₀, State.set_regs_self]
  have hargs : ∀ frag m s', g₁.insns = filterGen.insns ++ frag → exec K frag .run s₀ = .cont m s' →
      exec K g₁.insns .run s = .cont m s' := by
    intro frag m s' hins hexec
    rw [hins, ← hexec, hs₀]
    rfl
  by_cases hidx : r.1.idx = none
  · obtain ⟨frag, hins, -, -, hruns⟩ := ((compile_ok c e).2 filterGen v g₁ heval (hbase hidx)).code
    have hrun := hruns K s₀ hK
    rw [hr9] at hrun
    have hexit : evalSem c K.mem (s.regs R1) n = .error .exit := by
      rw [evalSem_access _ _ hacc, hr]
      show accessValue c K.mem (s.regs R1) r = _
      rw [accessValue, hchain]
      rfl
    cases hsem : evalSem c K.mem (s.regs R1) e with
    | ok x => exact absurd hsem ((evalSem_ne_ok hexit e).2 filterGen v g₁ heval hn x)
    | error stop =>
      rw [hsem] at hrun
      cases stop with
      | undefined => exact hrun.elim
      | exit =>
        obtain ⟨hused, s', hexec, -⟩ := hrun
        exact ⟨hused, s', hargs frag _ s' hins hexec⟩
  · obtain ⟨frag, hins, -, hstops⟩ := ((leaves_ok hfit e).2 filterGen v g₁ heval hconds).code
    have hstop := hstops K s₀ hK
    rw [hr9] at hstop
    rcases hstop with ⟨hnull, -⟩ | ⟨hused, s', hexec⟩
    · exact absurd ⟨n, hn, r.1, r.2, hr, hidx, hchain⟩ hnull
    · exact ⟨hused, s', hargs frag _ s' hins hexec⟩

/-- **What a filter returns at a NULL pointer.** Where some access of a
filter goes through a NULL pointer that its code checks, the program
returns 0 if and only if the read mode defines the exit label and the
last instruction of the filter is not the `mov` of `||`. -/
theorem filter_null_iff (h : compile c text e filterGen = .ok (u, g)) (hfit : StackFits c)
    (hconds : CondsResolved c (evalSites c e filterGen)) (hK : K.fastcall = c.rdonlyCastFastcall)
    (hn : n ∈ e.reads) {r : AccessResult × Word} (hr : accessSem c K.mem (s.regs R1) n = .ok r)
    (hnull : MeetsNull K.mem (s.regs R1) r) (hchecked : ∀ o ∈ r.1.offsets.dropLast, o.Checked c)
    (hbase : r.1.idx = none → ∀ t ∈ evalSites c e filterGen, t.Safe c) :
    (∃ t, Exits K g.program s t ∧ t.regs R0 = 0) ↔
      c.memMode ≠ .directRead ∧ leavesHigh c e filterGen = false := by
  obtain ⟨v, g₁, init, op, src, hshape⟩ := compile_shape h
  have hchain := chainSem_of_nullMet hchecked hnull
  obtain ⟨hused, t, hseek⟩ := filter_seeks hfit hshape.eval hconds hK hn (isAccess_of_reads hn) hr
    hchain hbase
  have hcode := (leaves_ok hfit e).2 filterGen v g₁ hshape.eval hconds
  have hun : Unmarked g₁.insns := by
    obtain ⟨frag, hins, hfrag, -⟩ := hcode.code
    rw [hins]
    exact Unmarked.append (by simp [Unmarked, filterGen]) hfrag
  constructor
  · rintro ⟨t', hexits, hr0⟩
    have hmode : c.memMode ≠ .directRead := by
      intro hmode
      exact hshape.lost hun (hcode.direct hmode) hseek hexits
    obtain ⟨t₁, hexits₁, hr₁, -⟩ := hshape.leaves hun (hused hmode) hseek
    rw [Exits.unique hexits hexits₁, hr₁] at hr0
    refine ⟨hmode, ?_⟩
    cases hhigh : leavesHigh c e filterGen with
    | false => rfl
    | true => simp [hhigh] at hr0
  · rintro ⟨hmode, hhigh⟩
    obtain ⟨t₁, hexits₁, hr₁, -⟩ := hshape.leaves hun (hused hmode) hseek
    exact ⟨t₁, hexits₁, by rw [hr₁, hhigh]; rfl⟩

end Filter

/-! ### `||` at the top -/

/-- `p->next->val == 1`. -/
def nextIsOne : Expr :=
  .bin .eqEq (.arrow (.arrow (.name "p") "next") "val") (.number "1")

/-- `p->next->val == 1 || a == 5`. -/
def orFilter : Expr := .bin .orOr nextIsOne (.bin .eqEq (.name "a") (.number "5"))

/-- The chain of `p->next->val`. -/
def nextValChain : List AccessOffset :=
  [{ btf := nodePointer, prev := some nodePointer, offset := 0, address := false },
    { btf := .int "u64" 8 .unsigned, prev := some nodePointer, offset := 8, address := false }]

def nextValAccess : AccessResult :=
  { idx := some 1, btf := .int "u64" 8 .unsigned,
    mem := some ⟨"val", .int "u64" 8 .unsigned, 64, 0⟩, lastIdx := 1, offsets := nextValChain }

theorem nextVal_access (m : Word → Byte) (args : Word) :
    accessSem (nodeCompiler .probeRead) m args (.arrow (.arrow (.name "p") "next") "val")
      = .ok (nextValAccess, 0) := by
  rfl

theorem next_null : MeetsNull (armKernel 0).mem (armState.regs R1) (nextValAccess, 0) := by
  rfl

theorem orFilter_exits :
    (compile (nodeCompiler .probeRead) "p->next->val == 1 || a == 5" orFilter filterGen).isOk = true ∧
      (∀ t ∈ evalSites (nodeCompiler .probeRead) orFilter filterGen, t.Safe (nodeCompiler .probeRead)) ∧
      evalSem (nodeCompiler .probeRead) (armKernel 0).mem (armState.regs R1) orFilter = .error .exit ∧
      leavesHigh (nodeCompiler .probeRead) orFilter filterGen = true := by
  decide +kernel

/-- The left operand of `||` goes through a NULL, and the filter keeps the
event. -/
theorem or_filter_keeps_event : ∃ g,
    compile (nodeCompiler .probeRead) "p->next->val == 1 || a == 5" orFilter filterGen = .ok ((), g) ∧
      .arrow (.arrow (.name "p") "next") "val" ∈ nextIsOne.reads ∧
      MeetsNull (armKernel 0).mem (armState.regs R1) (nextValAccess, 0) ∧
      ∃ t, Exits (armKernel 0) g.program armState t ∧ t.regs R0 = 1 := by
  obtain ⟨hok, hsafe, hnull, hhigh⟩ := orFilter_exits
  obtain ⟨g, hg⟩ := exists_ok_of_isOk hok
  refine ⟨g, hg, by simp [nextIsOne, Expr.reads, Expr.baseReads], next_null, ?_⟩
  have hrun := filter_runs hg hsafe (armKernel 0) rfl armState
  rw [hnull] at hrun
  obtain ⟨t, ht, hr0, -⟩ := hrun (by decide)
  exact ⟨t, ht, by rw [hr0, hhigh]; rfl⟩

/-- The same access without the `||`. -/
theorem next_filter_drops_event : ∃ g,
    compile (nodeCompiler .probeRead) "p->next->val == 1" nextIsOne filterGen = .ok ((), g) ∧
      ((∃ t, Exits (armKernel 0) g.program armState t ∧ t.regs R0 = 0) ↔
        (nodeCompiler .probeRead).memMode ≠ .directRead ∧
          leavesHigh (nodeCompiler .probeRead) nextIsOne filterGen = false) := by
  have hok : (compile (nodeCompiler .probeRead) "p->next->val == 1" nextIsOne filterGen).isOk
      = true := by decide +kernel
  obtain ⟨g, hg⟩ := exists_ok_of_isOk hok
  have hsafe : ∀ t ∈ evalSites (nodeCompiler .probeRead) nextIsOne filterGen,
      t.Safe (nodeCompiler .probeRead) := by decide
  exact ⟨g, hg, filter_null_iff hg (by decide) (fun v l r hmem => hsafe _ hmem) rfl
    (by simp [nextIsOne, Expr.reads, Expr.baseReads])
    (nextVal_access (armKernel 0).mem (armState.regs R1)) next_null
    (by decide) (fun h => absurd h (by decide))⟩

end Bpfsnoop.CC
