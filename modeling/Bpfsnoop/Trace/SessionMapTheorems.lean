/-
Bpfsnoop.Trace.SessionMapTheorems — an exit event carries the session of its
own entry, as long as a deleted session is read before its element is used
again.

The invariant: a key of the map belongs to one invocation that is being
handled (`Held`, which every step keeps), and its element holds the session of
that invocation; what an exit handler has read so far is the beginning of its
own session.
-/
import Bpfsnoop.Trace.SessionMap

namespace Bpfsnoop.Trace

open Ebpf Lib

variable {ι ε : Type} {v : Variant} {inv : ι → Invocation} {s t : TraceState ι ε}

/-! ## The invariant -/

/-- The words read so far are the first words of the session. -/
def CopiedFrom (sess : Nat → Word) (copied : List Word) : Prop :=
  copied = (List.range copied.length).map sess

theorem CopiedFrom.nil (sess : Nat → Word) : CopiedFrom sess [] := rfl

theorem CopiedFrom.concat {sess : Nat → Word} {copied : List Word} (h : CopiedFrom sess copied) :
    CopiedFrom sess (copied ++ [sess copied.length]) := by
  rw [CopiedFrom, List.length_append, List.length_singleton, List.range_succ, List.map_append,
    List.map_singleton, ← h]

/-- The event of a whole session is the invocation's own. -/
theorem exitEvent_of_copied (inv : Invocation) {copied : List Word}
    (h : CopiedFrom (inv.sessInit v) copied) (hall : copied.length = inv.exitReads v) :
    (exitEvent copied).sessID = inv.sessionId - 1 ∧
      (v = .kprobe → (exitEvent copied).args = inv.args.take maxFnArgs) := by
  rw [h, hall]
  cases v with
  | fentry => exact ⟨rfl, by simp⟩
  | kprobe =>
    rw [Invocation.exitReads, Nat.add_comm, List.range_succ_eq_map]
    refine ⟨rfl, fun _ => ?_⟩
    simp only [exitEvent, List.map_cons, List.tail_cons, List.map_map]
    apply List.ext_getElem
    · simp
    · intro n hn _
      simp only [List.length_map, List.length_range, lt_min_iff] at hn
      simp [Invocation.sessInit, hn.1, hn.2]

/-- What holds of an invocation in a phase. -/
def PhaseOk (v : Variant) (inv : Invocation) (m : ElementMap Word ε (Nat → Word)) : Phase ε → Prop
  | .idle | .running => True
  | .exiting e false copied => m.table inv.fp = some e ∧ CopiedFrom (inv.sessInit v) copied ∧
      (v = .fentry → copied = [])
  | .exiting e true copied => m.table inv.fp = none ∧ CopiedFrom (inv.sessInit v) copied ∧
      (copied.length = inv.exitReads v ∨ v = .fentry ∧ copied = [] ∧ m.value e = inv.sessInit v)
  | .done event => ∀ ev, event = some ev → ev.sessID = inv.sessionId - 1 ∧
      (v = .kprobe → ev.args = inv.args.take maxFnArgs)

/-- Another map, with the same element for the invocation, and the same
words in one that is still to be read. -/
theorem PhaseOk.frame {inv : Invocation} {m m' : ElementMap Word ε (Nat → Word)} {p : Phase ε}
    (h : PhaseOk v inv m p) (htable : p.active = true → m'.table inv.fp = m.table inv.fp)
    (hvalue : v = .fentry → ∀ e, p = .exiting e true [] → m'.value e = m.value e) :
    PhaseOk v inv m' p := by
  cases p with
  | idle => trivial
  | running => trivial
  | done event => exact h
  | exiting e deleted copied =>
    cases deleted with
    | false => exact ⟨(htable rfl).trans h.1, h.2⟩
    | true =>
      refine ⟨(htable rfl).trans h.1, h.2.1, h.2.2.imp_right ?_⟩
      rintro ⟨hv, hnil, hval⟩
      exact ⟨hv, hnil, (hvalue hv e (by rw [hnil])).trans hval⟩

/-- Of the invocations that are being handled, each has a frame of its
own. -/
def Alone (inv : ι → Invocation) (phase : ι → Phase ε) : Prop :=
  ∀ i j, (phase i).active = true → (phase j).active = true → (inv i).fp = (inv j).fp → i = j

/-- A phase for `i` that is active only if no other invocation has its
frame. -/
theorem Alone.update [DecidableEq ι] {phase : ι → Phase ε} (h : Alone inv phase) {i : ι} {p : Phase ε}
    (hp : p.active = true → ∀ j, j ≠ i → (phase j).active = true → (inv j).fp ≠ (inv i).fp) :
    Alone inv (Function.update phase i p) := by
  intro j k hj hk hfp
  by_cases hji : j = i <;> by_cases hki : k = i
  · rw [hji, hki]
  · subst hji
    rw [Function.update_self] at hj
    rw [Function.update_of_ne hki] at hk
    exact absurd hfp.symm (hp hj k hki hk)
  · subst hki
    rw [Function.update_of_ne hji] at hj
    rw [Function.update_self] at hk
    exact absurd hfp (hp hk j hji hj)
  · rw [Function.update_of_ne hji] at hj
    rw [Function.update_of_ne hki] at hk
    exact h j k hj hk hfp

/-- The frame of an invocation that is being handled is its own. -/
theorem Alone.apart {phase : ι → Phase ε} (h : Alone inv phase) {i : ι} (hi : (phase i).active = true) (j : ι)
    (hji : j ≠ i) (hj : (phase j).active = true) : (inv j).fp ≠ (inv i).fp :=
  fun hfp => hji (h j i hj hi hfp)

/-- A session under a frame is that of an invocation that is being handled,
until its exit handler deletes it. -/
structure Held (inv : ι → Invocation) (s : TraceState ι ε) : Prop where
  alone : Alone inv s.phase
  stored : ∀ k e, s.map.table k = some e → ∃ i, (inv i).fp = k ∧ (s.phase i).active = true
  deleted : ∀ i e copied, s.phase i = .exiting e true copied → s.map.table (inv i).fp = none

namespace Held

theorem init (value : ε → Nat → Word) : Held inv (TraceState.init value : TraceState ι ε) where
  alone _ _ h := by cases h
  stored _ _ h := by cases h
  deleted _ _ _ h := by cases h

/-- There is no session under a frame that nobody uses. -/
theorem none_of_unused (h : Held inv s) {i : ι} (hunused : s.Unused inv i) : s.map.table (inv i).fp = none := by
  by_contra hsome
  obtain ⟨e, he⟩ := Option.ne_none_iff_exists'.mp hsome
  obtain ⟨j, hfp, hj⟩ := h.stored _ e he
  rw [hunused j hfp] at hj
  cases hj

variable [DecidableEq ι]

/-- A step of `i` that leaves the map alone. -/
theorem goto (h : Held inv s) {i : ι} {p : Phase ε}
    (hactive : p.active = true → ∀ j, j ≠ i → (s.phase j).active = true → (inv j).fp ≠ (inv i).fp)
    (hkeep : (s.phase i).active = true → p.active = true ∨ s.map.table (inv i).fp = none)
    (hdeleted : ∀ e copied, p = .exiting e true copied → s.map.table (inv i).fp = none) :
    Held inv (s.goto i p) where
  alone := h.alone.update hactive
  stored k e hk := by
    obtain ⟨j, hfp, hj⟩ := h.stored k e hk
    refine ⟨j, hfp, ?_⟩
    simp only [TraceState.goto, Function.update_apply]
    split
    · rename_i hji
      subst hji
      refine (hkeep hj).resolve_right fun hnone => ?_
      rw [TraceState.goto, ← hfp, hnone] at hk
      cases hk
    · exact hj
  deleted j e copied hj := by
    simp only [TraceState.goto, Function.update_apply] at hj
    split at hj
    · rename_i hji
      rw [hji]
      exact hdeleted e copied hj
    · exact h.deleted j e copied hj

/-- `add_session`. -/
theorem store [DecidableEq ε] (h : Held inv s) {i : ι} {e : ε} (hunused : s.Unused inv i) (hfree : s.map.Free e) :
    Held inv (s.store v inv i e hfree) where
  alone := by
    refine h.alone.update fun _ j _ hj hfp => ?_
    rw [hunused j hfp] at hj
    cases hj
  stored k e' hk := by
    simp only [TraceState.store] at hk ⊢
    by_cases hki : k = (inv i).fp
    · exact ⟨i, hki.symm, by rw [Function.update_self]; rfl⟩
    · rw [ElementMap.table_update_of_ne hfree hki] at hk
      obtain ⟨j, hfp, hj⟩ := h.stored k e' hk
      have hji : j ≠ i := by
        rintro rfl
        exact hki hfp.symm
      exact ⟨j, hfp, by rwa [Function.update_of_ne hji]⟩
  deleted j e' copied hj := by
    simp only [TraceState.store, Function.update_apply] at hj ⊢
    split at hj
    · cases hj
    · rw [ElementMap.table_update_of_ne hfree]
      · exact h.deleted j e' copied hj
      · intro hfp
        have hunused := hunused j hfp
        rw [hj] at hunused
        cases hunused

/-- The delete of an exit handler. -/
theorem delete (h : Held inv s) {i : ι} {e : ε} {copied : List Word} (hphase : s.phase i = .exiting e false copied) :
    Held inv (s.delete inv i (.exiting e true copied)) := by
  have hi : (s.phase i).active = true := by rw [hphase]; rfl
  refine ⟨h.alone.update fun _ => h.alone.apart hi, fun k e' hk => ?_, fun j e' copied' hj => ?_⟩
  · simp only [TraceState.delete] at hk ⊢
    by_cases hki : k = (inv i).fp
    · rw [hki, ElementMap.table_delete_self] at hk
      cases hk
    · rw [ElementMap.table_delete_of_ne hki] at hk
      obtain ⟨j, hfp, hj⟩ := h.stored k e' hk
      have hji : j ≠ i := by
        rintro rfl
        exact hki hfp.symm
      exact ⟨j, hfp, by rwa [Function.update_of_ne hji]⟩
  · simp only [TraceState.delete, Function.update_apply] at hj ⊢
    by_cases hfp : (inv j).fp = (inv i).fp
    · rw [hfp, ElementMap.table_delete_self]
    · have hji : j ≠ i := by
        rintro rfl
        exact hfp rfl
      rw [if_neg hji] at hj
      rw [ElementMap.table_delete_of_ne hfp]
      exact h.deleted j e' copied' hj

/-- **One step**, of any handler. -/
theorem step [DecidableEq ε] (h : Held inv s) {a : Action ι ε} (hstep : Step v inv s a t) : Held inv t := by
  have hactive {i : ι} {e : ε} {deleted : Bool} {copied : List Word} (hphase : s.phase i = .exiting e deleted copied) :
      (s.phase i).active = true := by
    rw [hphase]
    rfl
  cases hstep with
  | @refuse i hphase hunused =>
    refine h.goto (fun _ j _ hj hfp => ?_) (fun hi => ?_) fun _ _ he => by cases he
    · rw [hunused j hfp] at hj
      cases hj
    · rw [hphase] at hi
      cases hi
  | store hphase hunused hfree => exact h.store hunused hfree
  | miss hphase hmiss => exact h.goto (fun hp => by cases hp) (fun _ => .inr hmiss) fun _ _ he => by cases he
  | @hit i e hphase hhit =>
    have hi : (s.phase i).active = true := by rw [hphase]; rfl
    exact h.goto (fun _ => h.alone.apart hi) (fun _ => .inl rfl) fun _ _ he => by cases he
  | @read i e deleted copied hphase hmore horder =>
    refine h.goto (fun _ => h.alone.apart (hactive hphase)) (fun _ => .inl rfl) fun e' copied' he => ?_
    cases he
    exact h.deleted i e copied hphase
  | delete hphase horder => exact h.delete hphase
  | @submit i e copied hphase hall =>
    exact h.goto (fun hp => by cases hp) (fun _ => .inr (h.deleted i e copied hphase)) fun _ _ he => by cases he
  | @lose i e copied hphase hall =>
    exact h.goto (fun hp => by cases hp) (fun _ => .inr (h.deleted i e copied hphase)) fun _ _ he => by cases he

end Held

/-- The invariant of the handlers. -/
structure Consistent (v : Variant) (inv : ι → Invocation) (s : TraceState ι ε) : Prop where
  phases : ∀ i, PhaseOk v (inv i) s.map (s.phase i)
  held : Held inv s
  values : ∀ i e, (s.phase i).active = true → s.map.table (inv i).fp = some e → s.map.value e = (inv i).sessInit v

namespace Consistent

theorem init (value : ε → Nat → Word) : Consistent v inv (TraceState.init value : TraceState ι ε) where
  phases _ := trivial
  held := .init value
  values _ _ h := by cases h

/-- The invariant pairs the exit events. -/
theorem exitsPaired (h : Consistent v inv s) : ExitsPaired v inv s := by
  intro i event hdone
  have hok := h.phases i
  rw [hdone] at hok
  obtain ⟨hid, hargs⟩ := hok event rfl
  refine ⟨hid, hargs, fun j => ?_⟩
  rw [Pairs, hid, BitVec.sub_add_cancel]

/-! ### Each step keeps it -/

section Steps

variable [DecidableEq ι]

/-- A step of `i` that leaves the map alone. -/
theorem goto (h : Consistent v inv s) {i : ι} {p : Phase ε} (hheld : Held inv (s.goto i p))
    (hp : PhaseOk v (inv i) s.map p)
    (hactive : p.active = true → (s.phase i).active = true ∨ s.map.table (inv i).fp = none) :
    Consistent v inv (s.goto i p) where
  phases j := by
    simp only [TraceState.goto, Function.update_apply]
    split
    · rename_i hji
      rw [hji]
      exact hp
    · exact h.phases j
  held := hheld
  values j e hj htable := by
    simp only [TraceState.goto, Function.update_apply] at hj htable ⊢
    split at hj
    · rename_i hji
      subst hji
      rcases hactive hj with hi | hnone
      · exact h.values j e hi htable
      · rw [hnone] at htable
        cases htable
    · exact h.values j e hj htable

/-- `add_session`. -/
theorem store [DecidableEq ε] (h : Consistent v inv s) {i : ι} {e : ε} (hunused : s.Unused inv i)
    (hfree : s.map.Free e) (hkeeps : v = .fentry → ∀ j, s.phase j ≠ .exiting e true []) :
    Consistent v inv (s.store v inv i e hfree) where
  phases j := by
    simp only [TraceState.store, Function.update_apply]
    split
    · trivial
    · rename_i hji
      refine (h.phases j).frame (fun hj => ElementMap.table_update_of_ne hfree fun hfp => ?_) ?_
      · rw [hunused j hfp] at hj
        cases hj
      · intro hv e' he'
        refine ElementMap.value_update_of_ne hfree ?_
        rintro rfl
        exact hkeeps hv j he'
  held := h.held.store hunused hfree
  values j e' hj htable := by
    simp only [TraceState.store, Function.update_apply] at hj htable ⊢
    split at hj
    · rename_i hji
      subst hji
      rw [ElementMap.table_update_self, Option.some.injEq] at htable
      subst htable
      exact ElementMap.value_update_self hfree
    · have hne : (inv j).fp ≠ (inv i).fp := by
        intro hfp
        rw [hunused j hfp] at hj
        cases hj
      rw [ElementMap.table_update_of_ne hfree hne] at htable
      rw [ElementMap.value_update_of_ne hfree (ElementMap.ne_of_table hfree htable)]
      exact h.values j e' hj htable

/-- The delete of an exit handler. -/
theorem delete (h : Consistent v inv s) {i : ι} {e : ε} {copied : List Word}
    (hphase : s.phase i = .exiting e false copied)
    (horder : v = .kprobe → copied.length = (inv i).exitReads v) :
    Consistent v inv (s.delete inv i (.exiting e true copied)) := by
  have hi : (s.phase i).active = true := by rw [hphase]; rfl
  have hok := h.phases i
  rw [hphase] at hok
  refine ⟨fun j => ?_, h.held.delete hphase, fun j e' hj htable => ?_⟩
  · simp only [TraceState.delete, Function.update_apply]
    split
    · rename_i hji
      rw [hji]
      refine ⟨ElementMap.table_delete_self, hok.2.1, ?_⟩
      cases hv : v with
      | kprobe => exact .inl (hv ▸ horder hv)
      | fentry => exact .inr ⟨rfl, hok.2.2 hv, hv ▸ h.values i e hi hok.1⟩
    · rename_i hji
      refine (h.phases j).frame (fun hj => ?_) fun _ _ _ => rfl
      exact ElementMap.table_delete_of_ne (h.held.alone.apart hi j hji hj)
  · simp only [TraceState.delete, Function.update_apply] at hj htable ⊢
    split at hj
    · rename_i hji
      rw [hji, ElementMap.table_delete_self] at htable
      cases htable
    · rename_i hji
      rw [ElementMap.table_delete_of_ne (h.held.alone.apart hi j hji hj)] at htable
      exact h.values j e' hj htable

/-- A word read by an exit handler. -/
theorem read (h : Consistent v inv s) {i : ι} {e : ε} {deleted : Bool} {copied : List Word}
    (hheld : Held inv (s.goto i (.exiting e deleted (copied ++ [s.map.value e copied.length]))))
    (hphase : s.phase i = .exiting e deleted copied) (hmore : copied.length < (inv i).exitReads v)
    (horder : v = .fentry → deleted = true) :
    Consistent v inv (s.goto i (.exiting e deleted (copied ++ [s.map.value e copied.length]))) := by
  have hi : (s.phase i).active = true := by rw [hphase]; rfl
  have hok := h.phases i
  rw [hphase] at hok
  refine h.goto hheld ?_ fun _ => .inl hi
  cases deleted with
  | false =>
    obtain ⟨htable, hcopied, -⟩ := hok
    refine ⟨htable, ?_, fun hv => absurd (horder hv) (by decide)⟩
    rw [h.values i e hi htable]
    exact hcopied.concat
  | true =>
    obtain ⟨htable, hcopied, hlen | ⟨hv, hnil, hvalue⟩⟩ := hok
    · omega
    · refine ⟨htable, ?_, .inl ?_⟩
      · rw [hvalue]
        exact hcopied.concat
      · rw [hnil, hv]
        rfl

/-- **One step.** -/
theorem step [DecidableEq ε] (h : Consistent v inv s) {a : Action ι ε} (hstep : Step v inv s a t)
    (hkeeps : KeepsElements v s a) : Consistent v inv t := by
  have hheld := h.held.step hstep
  cases hstep with
  | refuse hphase hunused => exact h.goto hheld trivial fun _ => .inr (h.held.none_of_unused hunused)
  | store hphase hunused hfree => exact h.store hunused hfree fun hv => hkeeps hv _ _ rfl
  | miss hphase hmiss => exact h.goto hheld (fun _ he => by cases he) fun hp => by cases hp
  | @hit i e hphase hhit =>
    have hi : (s.phase i).active = true := by rw [hphase]; rfl
    exact h.goto hheld ⟨hhit, CopiedFrom.nil _, fun _ => rfl⟩ fun _ => .inl hi
  | read hphase hmore horder => exact h.read hheld hphase hmore horder
  | delete hphase horder => exact h.delete hphase horder
  | @submit i e copied hphase hall =>
    have hok := h.phases i
    rw [hphase] at hok
    refine h.goto hheld (fun ev hev => ?_) fun hp => by cases hp
    cases hev
    exact exitEvent_of_copied (inv i) hok.2.1 hall
  | lose hphase hall => exact h.goto hheld (fun _ he => by cases he) fun hp => by cases hp

end Steps

end Consistent

/-! ## Runs -/

section Runs

variable [DecidableEq ι] [DecidableEq ε]

/-- A step of any handler. -/
def AnyStep (v : Variant) (inv : ι → Invocation) (s t : TraceState ι ε) : Prop :=
  ∃ a, Step v inv s a t

/-- A step that keeps the elements that are still to be read. -/
def KeepingStep (v : Variant) (inv : ι → Invocation) (s t : TraceState ι ε) : Prop :=
  ∃ a, Step v inv s a t ∧ KeepsElements v s a

/-- **Entry and exit are paired** in every interleaving in which no element
is used again between the delete and the read of an fexit handler. -/
theorem exits_paired (value : ε → Nat → Word)
    (h : Relation.ReflTransGen (KeepingStep v inv) (TraceState.init value) s) : ExitsPaired v inv s :=
  (reachable_invariant (Consistent.init value) (fun _ _ hu ⟨_, hstep, hkeeps⟩ => hu.step hstep hkeeps)
    h).exitsPaired

/-- A kretprobe reads before it deletes: entry and exit are paired in every
interleaving. -/
theorem kprobe_exits_paired (value : ε → Nat → Word)
    (h : Relation.ReflTransGen (AnyStep .kprobe inv) (TraceState.init value) s) :
    ExitsPaired .kprobe inv s :=
  exits_paired value (h.lift id fun _ _ ⟨a, hstep⟩ => ⟨a, hstep, fun hv => by cases hv⟩)

end Runs

/-! ### Two invocations on two CPUs -/

/-- Two invocations in frames of their own. -/
def twoInvocations : Bool → Invocation
  | false => { fp := 0x1000, rnd := 1, args := [] }
  | true => { fp := 0x2000, rnd := 2, args := [] }

theorem empty_free {ε : Type} (e : ε) : (TraceState.init fun _ _ => 0 : TraceState Bool ε).map.Free e :=
  fun _ h => by cases h

/-- The map has two elements, and the first invocation has entered with
one. -/
def firstEntered : TraceState Bool Bool :=
  (TraceState.init fun _ _ => 0).store .fentry twoInvocations false false (empty_free false)

theorem firstEntered_free : firstEntered.map.Free true :=
  ElementMap.free_update (empty_free false) (empty_free true) (by decide)

/-- The second has entered with the other. -/
def bothEntered : TraceState Bool Bool :=
  firstEntered.store .fentry twoInvocations true true firstEntered_free

theorem bothEntered_reachable :
    Relation.ReflTransGen (KeepingStep .fentry twoInvocations) (TraceState.init fun _ _ => 0) bothEntered := by
  have hfirst := Relation.ReflTransGen.single (r := KeepingStep .fentry twoInvocations)
    ⟨_, Step.store (i := false) (e := false) rfl (fun _ _ => rfl) (empty_free false), fun _ _ _ _ _ => nofun⟩
  have hunused : firstEntered.Unused twoInvocations true := by
    intro j hfp
    cases j
    · exact absurd hfp (by decide)
    · rfl
  refine hfirst.tail ⟨_, Step.store rfl hunused firstEntered_free, fun _ _ _ _ j => ?_⟩
  cases j <;> exact nofun

/-- Both exit handlers delete their session before either reads it. -/
theorem interleaved_exits_paired :
    ∃ s : TraceState Bool Bool,
      (∀ i, s.phase i = .done (some { sessID := (twoInvocations i).sessionId - 1, args := [] })) ∧
      ExitsPaired .fentry twoInvocations s := by
  have hkeeps {s : TraceState Bool Bool} {a : Action Bool Bool} (ha : ∀ i e, a ≠ .store i e) :
      KeepsElements .fentry s a := fun _ i e he => absurd he (ha i e)
  have hhit := bothEntered_reachable.tail ⟨_, Step.hit (i := false) (e := false) rfl rfl, hkeeps nofun⟩
  have hdelete := hhit.tail ⟨_, Step.delete (i := false) rfl nofun, hkeeps nofun⟩
  have hhit' := hdelete.tail ⟨_, Step.hit (i := true) (e := true) rfl rfl, hkeeps nofun⟩
  have hdelete' := hhit'.tail ⟨_, Step.delete (i := true) rfl nofun, hkeeps nofun⟩
  have hread := hdelete'.tail
    ⟨_, Step.read (i := false) (e := false) rfl Nat.one_pos fun _ => rfl, hkeeps nofun⟩
  have hread' := hread.tail
    ⟨_, Step.read (i := true) (e := true) rfl Nat.one_pos fun _ => rfl, hkeeps nofun⟩
  have hsubmit := hread'.tail ⟨_, Step.submit (i := true) (e := true) rfl rfl, hkeeps nofun⟩
  have hsubmit' := hsubmit.tail ⟨_, Step.submit (i := false) (e := false) rfl rfl, hkeeps nofun⟩
  refine ⟨_, fun i => ?_, exits_paired _ hsubmit'⟩
  cases i <;> rfl

/-- With one element: the first has entered, and its exit handler has found
the session. -/
def found : TraceState Bool Unit :=
  ((TraceState.init fun _ _ => 0).store .fentry twoInvocations false () (empty_free ())).goto false
    (.exiting () false [])

/-- It has deleted the session, and not read it. -/
def released : TraceState Bool Unit := found.delete twoInvocations false (.exiting () true [])

theorem released_free : released.map.Free () := ElementMap.free_delete rfl

theorem released_reachable :
    Relation.ReflTransGen (KeepingStep .fentry twoInvocations) (TraceState.init fun _ _ => 0) released := by
  have henter := Relation.ReflTransGen.single (r := KeepingStep .fentry twoInvocations)
    ⟨_, Step.store (i := false) rfl (fun _ _ => rfl) (empty_free ()), fun _ _ _ _ _ => nofun⟩
  have hfound := henter.tail ⟨_, Step.hit (i := false) (e := ()) rfl rfl, fun _ _ _ => nofun⟩
  exact hfound.tail ⟨_, Step.delete (i := false) rfl nofun, fun _ _ _ => nofun⟩

/-- The second has entered, with the element of the first. -/
def reused : TraceState Bool Unit := released.store .fentry twoInvocations true () released_free

theorem reused_reachable :
    Relation.ReflTransGen (AnyStep .fentry twoInvocations) (TraceState.init fun _ _ => 0) reused := by
  have hunused : released.Unused twoInvocations true := by
    intro j hfp
    cases j
    · exact absurd hfp (by decide)
    · rfl
  have hreleased : Relation.ReflTransGen (AnyStep .fentry twoInvocations) _ released :=
    released_reachable.lift id fun _ _ ⟨a, hstep, _⟩ => ⟨a, hstep⟩
  exact hreleased.tail ⟨_, Step.store rfl hunused released_free⟩

/-- Between the delete and the read of the first invocation's exit handler,
the entry handler of the second takes the element. -/
theorem fexit_takes_other_session :
    ∃ s : TraceState Bool Unit, Relation.ReflTransGen (AnyStep .fentry twoInvocations)
        (TraceState.init fun _ _ => 0) s ∧
      s.phase false = .done (some { sessID := (twoInvocations true).sessionId - 1, args := [] }) ∧
      ¬ ExitsPaired .fentry twoInvocations s := by
  have hread := reused_reachable.tail
    ⟨_, Step.read (i := false) (e := ()) rfl Nat.one_pos fun _ => rfl⟩
  have hsubmit := hread.tail ⟨_, Step.submit (i := false) (e := ()) rfl rfl⟩
  refine ⟨_, hsubmit, rfl, fun hpaired => ?_⟩
  exact absurd (hpaired false _ rfl).1 (by decide)

end Bpfsnoop.Trace
