/-
Bpfsnoop.Progs.FuncGraphTheorems — what `FuncGraphParser` has found when
`wait` returns.

Whatever is filled in was reached (`GraphParser.Sound`). For the other way
every call of a function that was parsed is still to be added by a worker,
or the callee is taken care of at no greater depth (`GraphParser.Complete`).
An `add` that finds an empty entry leaves the callee to the worker that
fills it in, at the depth of that worker; where this is the greater depth
the calls of the callee are looked for too few levels down.
-/
import Bpfsnoop.Progs.FuncGraphs
import Mathlib.Algebra.BigOperators.Group.Finset.Basic
import Mathlib.Data.Finset.Prod
import Mathlib.Tactic.IntervalCases

namespace Bpfsnoop.Progs

open Lib

section Reach

variable {α : Type} {code : CallCode α} {roots : List α} {m m' : ParserMaps α} {u : ParseWorker α} {ip callee : α}
  {d : Nat}

/-! ## What is filled in was reached -/

/-- The loop of `parse` is at calls of a function that was reached. -/
structure LoopSound (code : CallCode α) (roots : List α) (l : ParseLoop α) : Prop where
  called : code.Called roots l.ip l.depth
  depth : l.depth ≤ code.maxDepth
  todo : ∀ c ∈ l.todo, c ∈ code.callees l.ip

/-- `add` has one of these calls, within the depth. -/
structure AddSound (code : CallCode α) (roots : List α) (callee : α) (l : ParseLoop α) : Prop
    extends LoopSound code roots l where
  callee : callee ∈ code.callees l.ip
  near : l.depth + 1 ≤ code.maxDepth

def WorkerSound (code : CallCode α) (roots : List α) (m : ParserMaps α) : ParseWorker α → Prop
  | .checkParsed ip d | .readCallee ip d => code.Called roots ip d ∧ d ≤ code.maxDepth
  | .loop l => LoopSound code roots l
  | .found callee l => AddSound code roots callee l ∧ (m.graphs callee).isSome = true
  | .made callee l | .judge callee l => AddSound code roots callee l
  | .filled callee l => AddSound code roots callee l ∧ (m.graphs callee).getD 0 ≠ 0
  | .returned => True

/-- The invariant of every run. -/
structure GraphParser.Sound (code : CallCode α) (roots : List α) (p : GraphParser α) : Prop where
  workers : ∀ w ∈ p.workers, WorkerSound code roots p.maps w
  graphs : ∀ ip, p.Filled ip → code.Reached roots ip
  callee : ∀ ip callees, p.maps.callee ip = some callees → callees = code.callees ip
  untraceables : ∀ ip, p.maps.untraceables ip = true → code.traceable ip = false

theorem AddSound.loop {l : ParseLoop α} (h : AddSound code roots callee l) : LoopSound code roots l := h.toLoopSound

/-- The callee was reached, if it is traceable. -/
theorem AddSound.next {l : ParseLoop α} (h : AddSound code roots callee l) (ht : code.traceable callee = true) :
    code.Called roots callee (l.depth + 1) := .edge h.called ⟨h.callee, ht⟩

theorem AddSound.reached {l : ParseLoop α} (h : AddSound code roots callee l) (ht : code.traceable callee = true) :
    code.Reached roots callee := ⟨l.depth + 1, Nat.succ_pos _, h.near, h.next ht⟩

theorem CallCode.Reached.traceable (h : code.Reached roots ip) : code.traceable ip = true := by
  obtain ⟨d, hpos, -, hwalk⟩ := h
  cases hwalk with
  | root => exact absurd hpos (Nat.lt_irrefl 0)
  | edge _ hcall => exact hcall.2

theorem LoopSound.rest {c : α} {todo : List α} {decoded decoded' : Bool}
    (h : LoopSound code roots ⟨ip, d, c :: todo, decoded⟩) : LoopSound code roots ⟨ip, d, todo, decoded'⟩ where
  called := h.called
  depth := h.depth
  todo x hx := h.todo x (List.mem_cons_of_mem _ hx)

theorem LoopSound.add {c : α} {todo : List α} {decoded decoded' : Bool}
    (h : LoopSound code roots ⟨ip, d, c :: todo, decoded⟩) (hd : d + 1 ≤ code.maxDepth) :
    AddSound code roots c ⟨ip, d, todo, decoded'⟩ where
  toLoopSound := h.rest
  callee := h.todo c List.mem_cons_self
  near := hd

/-- The maps grow. -/
theorem WorkerSound.mono (h : WorkerSound code roots m u)
    (hsome : ∀ ip, (m.graphs ip).isSome = true → (m'.graphs ip).isSome = true)
    (hfilled : ∀ ip, (m.graphs ip).getD 0 ≠ 0 → (m'.graphs ip).getD 0 ≠ 0) : WorkerSound code roots m' u := by
  cases u with
  | found callee l => exact ⟨h.1, hsome _ h.2⟩
  | filled callee l => exact ⟨h.1, hfilled _ h.2⟩
  | _ => exact h

theorem GraphParser.Sound.init (code : CallCode α) (roots : List α) : (GraphParser.init roots).Sound code roots where
  workers w hw := by
    obtain ⟨r, hr, rfl⟩ := List.mem_map.mp hw
    exact ⟨.root hr, Nat.zero_le _⟩
  graphs ip hip := absurd rfl hip
  callee ip callees hip := by cases hip
  untraceables ip hip := by cases hip

end Reach

section Steps

variable {α : Type} [DecidableEq α] {code : CallCode α} {roots : List α} {p p' : GraphParser α} {i : Nat}
  {m m' : ParserMaps α} {u w w' : ParseWorker α} {started : List (ParseWorker α)} {ip callee : α} {d : Nat}

/-! ## What a step does -/

/-- The steps of a worker, by what it does. -/
inductive Moves (code : CallCode α) (m : ParserMaps α) :
    ParseWorker α → ParserMaps α → ParseWorker α → List (ParseWorker α) → Prop
  | again {ip : α} {d : Nat} (h : m.parsed (ip, d) = true) : Moves code m (.checkParsed ip d) m .returned []
  | first {ip : α} {d : Nat} (h : m.parsed (ip, d) = false) :
    Moves code m (.checkParsed ip d) { m with parsed := Function.update m.parsed (ip, d) true } (.readCallee ip d) []
  | cached {ip : α} {d : Nat} {callees : List α} (h : m.callee ip = some callees) :
    Moves code m (.readCallee ip d) m (.loop ⟨ip, d, callees, false⟩) []
  | decode {ip : α} {d : Nat} (h : m.callee ip = none) :
    Moves code m (.readCallee ip d) m (.loop ⟨ip, d, code.callees ip, true⟩) []
  | store {ip : α} {d : Nat} :
    Moves code m (.loop ⟨ip, d, [], true⟩)
      { m with callee := Function.update m.callee ip (some (code.callees ip)) } .returned []
  | finish {ip : α} {d : Nat} : Moves code m (.loop ⟨ip, d, [], false⟩) m .returned []
  | tooDeep {ip callee : α} {d : Nat} {todo : List α} {decoded : Bool} (h : code.maxDepth < d + 1) :
    Moves code m (.loop ⟨ip, d, callee :: todo, decoded⟩) m (.loop ⟨ip, d, todo, decoded⟩) []
  | make {ip callee : α} {d : Nat} {todo : List α} {decoded : Bool} (hd : d + 1 ≤ code.maxDepth)
    (h : m.graphs callee = none) :
    Moves code m (.loop ⟨ip, d, callee :: todo, decoded⟩)
      { m with graphs := Function.update m.graphs callee (some 0) } (.made callee ⟨ip, d, todo, decoded⟩) []
  | find {ip callee : α} {d bytes : Nat} {todo : List α} {decoded : Bool} (hd : d + 1 ≤ code.maxDepth)
    (h : m.graphs callee = some bytes) :
    Moves code m (.loop ⟨ip, d, callee :: todo, decoded⟩) m (.found callee ⟨ip, d, todo, decoded⟩) []
  | revisit {callee : α} {l : ParseLoop α} (h : (m.graphs callee).getD 0 ≠ 0) :
    Moves code m (.found callee l) m (.loop l) [.checkParsed callee (l.depth + 1)]
  | leave {callee : α} {l : ParseLoop α} (h : (m.graphs callee).getD 0 = 0) :
    Moves code m (.found callee l) m (.loop l) []
  | skip {callee : α} {l : ParseLoop α} (h : m.untraceables callee = true) :
    Moves code m (.made callee l) m (.loop l) []
  | ask {callee : α} {l : ParseLoop α} (h : m.untraceables callee = false) :
    Moves code m (.made callee l) m (.judge callee l) []
  | fill {callee : α} {l : ParseLoop α} (h : code.traceable callee = true) :
    Moves code m (.judge callee l)
      { m with graphs := Function.update m.graphs callee (some (code.bytes callee)) } (.filled callee l) []
  | mark {callee : α} {l : ParseLoop α} (h : code.traceable callee = false) :
    Moves code m (.judge callee l) { m with untraceables := Function.update m.untraceables callee true } (.loop l) []
  | start {callee : α} {l : ParseLoop α} :
    Moves code m (.filled callee l) m (.loop l) [.checkParsed callee (l.depth + 1)]

theorem workerStep_moves (h : workerStep code m w = some (m', w', started)) : Moves code m w m' w' started := by
  cases w with
  | checkParsed ip d =>
    simp only [workerStep] at h
    split at h
    · cases h
      exact .again ‹_›
    · rename_i hne
      cases h
      exact .first (Bool.eq_false_of_not_eq_true hne)
  | readCallee ip d =>
    simp only [workerStep] at h
    split at h
    · cases h
      exact .cached ‹_›
    · cases h
      exact .decode ‹_›
  | loop l =>
    obtain ⟨ip, d, todo, decoded⟩ := l
    cases todo with
    | nil =>
      simp only [workerStep] at h
      cases decoded with
      | false =>
        cases h
        exact .finish
      | true =>
        cases h
        exact .store
    | cons callee todo =>
      simp only [workerStep] at h
      split at h
      · cases h
        exact .tooDeep ‹_›
      · split at h
        · cases h
          exact .make (by omega) ‹_›
        · cases h
          exact .find (by omega) ‹_›
  | found callee l =>
    simp only [workerStep] at h
    split at h
    · cases h
      exact .revisit ‹_›
    · cases h
      exact .leave (by omega)
  | made callee l =>
    simp only [workerStep] at h
    split at h
    · cases h
      exact .skip ‹_›
    · rename_i hne
      cases h
      exact .ask (Bool.eq_false_of_not_eq_true hne)
  | judge callee l =>
    simp only [workerStep] at h
    split at h
    · cases h
      exact .fill ‹_›
    · rename_i hne
      cases h
      exact .mark (Bool.eq_false_of_not_eq_true hne)
  | filled callee l =>
    cases h
    exact .start
  | returned => cases h

/-- A worker that has not returned can take a step. -/
theorem workerStep_isSome (h : w ≠ .returned) : (workerStep code m w).isSome = true := by
  cases w with
  | checkParsed ip d =>
    simp only [workerStep]
    split <;> rfl
  | readCallee ip d =>
    simp only [workerStep]
    split <;> rfl
  | loop l =>
    obtain ⟨ip, d, todo, decoded⟩ := l
    cases todo with
    | nil =>
      simp only [workerStep]
      split <;> rfl
    | cons callee todo =>
      simp only [workerStep]
      split
      · rfl
      · split <;> rfl
  | found callee l =>
    simp only [workerStep]
    split <;> rfl
  | made callee l =>
    simp only [workerStep]
    split <;> rfl
  | judge callee l =>
    simp only [workerStep]
    split <;> rfl
  | filled callee l => rfl
  | returned => exact absurd rfl h

/-- The `i`-th worker, and what its step does. -/
structure Stepped (code : CallCode α) (p p' : GraphParser α) (i : Nat) (w w' : ParseWorker α)
    (started : List (ParseWorker α)) : Prop where
  turn : p.workers[i]? = some w
  moves : Moves code p.maps w p'.maps w' started
  workers : p'.workers = p.workers.set i w' ++ started

theorem step_cases (h : p.step code i = .ok p') : ∃ w w' started, Stepped code p p' i w w' started := by
  unfold GraphParser.step at h
  cases hw : p.workers[i]? with
  | none => simp [hw] at h
  | some w =>
    cases hstep : workerStep code p.maps w with
    | none => simp [hw, hstep] at h
    | some out =>
      simp only [hw, hstep, Option.bind_some, Except.ok.injEq] at h
      subst h
      exact ⟨w, out.2.1, out.2.2, hw, workerStep_moves hstep, rfl⟩

namespace Stepped

variable (h : Stepped code p p' i w w' started)
include h

theorem mem : w ∈ p.workers := List.mem_of_getElem? h.turn

theorem moved : w' ∈ p'.workers := by
  obtain ⟨hlt, -⟩ := List.getElem?_eq_some_iff.mp h.turn
  rw [h.workers]
  exact List.mem_append_left _ (List.mem_set hlt w')

theorem mem_started (hu : u ∈ started) : u ∈ p'.workers := by
  rw [h.workers]
  exact List.mem_append_right _ hu

/-- The other workers stand where they stood. -/
theorem kept (hu : u ∈ p.workers) : u = w ∨ u ∈ p'.workers := by
  obtain ⟨j, hj⟩ := List.mem_iff_getElem?.mp hu
  by_cases hij : j = i
  · rw [hij, h.turn] at hj
    exact .inl (Option.some.inj hj).symm
  · refine .inr ?_
    rw [h.workers]
    refine List.mem_append_left _ (List.mem_iff_getElem?.mpr ⟨j, ?_⟩)
    rw [List.getElem?_set_ne (Ne.symm hij), hj]

theorem mem_cases (hu : u ∈ p'.workers) : u ∈ p.workers ∨ u = w' ∨ u ∈ started := by
  rw [h.workers] at hu
  rcases List.mem_append.mp hu with hset | hstarted
  · rcases List.mem_or_eq_of_mem_set hset with hmem | heq
    · exact .inl hmem
    · exact .inr (.inl heq)
  · exact .inr (.inr hstarted)

end Stepped

/-! ### What stays -/

/-- An entry stays filled in. -/
theorem Moves.filled (h : Moves code m w m' w' started) (hip : (m.graphs ip).getD 0 ≠ 0) :
    (m'.graphs ip).getD 0 ≠ 0 := by
  cases h with
  | @make _ callee _ _ _ _ hnone =>
    by_cases heq : ip = callee
    · rw [heq, hnone] at hip
      exact absurd rfl hip
    · show (Function.update m.graphs callee (some 0) ip).getD 0 ≠ 0
      rwa [Function.update_of_ne heq]
  | @fill callee _ _ =>
    show (Function.update m.graphs callee (some (code.bytes callee)) ip).getD 0 ≠ 0
    by_cases heq : ip = callee
    · rw [heq, Function.update_self]
      exact code.bytes_ne callee
    · rwa [Function.update_of_ne heq]
  | _ => exact hip

/-- An entry stays. -/
theorem Moves.isSome (h : Moves code m w m' w' started) (hip : (m.graphs ip).isSome = true) :
    (m'.graphs ip).isSome = true := by
  cases h with
  | @make _ callee _ _ _ _ hnone =>
    show (Function.update m.graphs callee (some 0) ip).isSome = true
    by_cases heq : ip = callee
    · rw [heq, Function.update_self]
      rfl
    · rwa [Function.update_of_ne heq]
  | @fill callee _ _ =>
    show (Function.update m.graphs callee (some (code.bytes callee)) ip).isSome = true
    by_cases heq : ip = callee
    · rw [heq, Function.update_self]
      rfl
    · rwa [Function.update_of_ne heq]
  | _ => exact hip

theorem Moves.parsed (h : Moves code m w m' w' started) (hip : m.parsed (ip, d) = true) :
    m'.parsed (ip, d) = true := by
  cases h with
  | @first x k hfirst =>
    show Function.update m.parsed (x, k) true (ip, d) = true
    by_cases heq : (ip, d) = (x, k)
    · rw [heq, Function.update_self]
    · rwa [Function.update_of_ne heq]
  | _ => exact hip

/-! ### Soundness -/

/-- What a worker does next is sound, and so is what it starts. -/
theorem Moves.sound (h : Moves code m w m' w' started) (hw : WorkerSound code roots m w)
    (hgraphs : ∀ ip, (m.graphs ip).getD 0 ≠ 0 → code.Reached roots ip)
    (hcallee : ∀ ip callees, m.callee ip = some callees → callees = code.callees ip) :
    WorkerSound code roots m' w' ∧ ∀ u ∈ started, WorkerSound code roots m' u := by
  cases h with
  | again => exact ⟨trivial, by simp⟩
  | first => exact ⟨hw, by simp⟩
  | cached hsome =>
    obtain rfl := hcallee _ _ hsome
    exact ⟨⟨hw.1, hw.2, fun _ hc => hc⟩, by simp⟩
  | decode => exact ⟨⟨hw.1, hw.2, fun _ hc => hc⟩, by simp⟩
  | store => exact ⟨trivial, by simp⟩
  | finish => exact ⟨trivial, by simp⟩
  | tooDeep => exact ⟨LoopSound.rest hw, by simp⟩
  | make hd => exact ⟨LoopSound.add hw hd, by simp⟩
  | find hd hsome => exact ⟨⟨LoopSound.add hw hd, by simp [hsome]⟩, by simp⟩
  | revisit hfilled =>
    refine ⟨hw.1.loop, fun u hu => ?_⟩
    obtain rfl := List.mem_singleton.mp hu
    exact ⟨hw.1.next (hgraphs _ hfilled).traceable, hw.1.near⟩
  | leave => exact ⟨hw.1.loop, by simp⟩
  | skip => exact ⟨hw.loop, by simp⟩
  | ask => exact ⟨hw, by simp⟩
  | @fill callee _ _ =>
    refine ⟨⟨hw, ?_⟩, by simp⟩
    show (Function.update m.graphs callee (some (code.bytes callee)) callee).getD 0 ≠ 0
    rw [Function.update_self]
    exact code.bytes_ne callee
  | mark => exact ⟨hw.loop, by simp⟩
  | start =>
    refine ⟨hw.1.loop, fun u hu => ?_⟩
    obtain rfl := List.mem_singleton.mp hu
    exact ⟨hw.1.next (hgraphs _ hw.2).traceable, hw.1.near⟩

/-- What the step writes to the maps. -/
theorem Moves.maps_sound (h : Moves code m w m' w' started) (hw : WorkerSound code roots m w)
    (hgraphs : ∀ ip, (m.graphs ip).getD 0 ≠ 0 → code.Reached roots ip)
    (hcallee : ∀ ip callees, m.callee ip = some callees → callees = code.callees ip)
    (hun : ∀ ip, m.untraceables ip = true → code.traceable ip = false) :
    (∀ ip, (m'.graphs ip).getD 0 ≠ 0 → code.Reached roots ip) ∧
      (∀ ip callees, m'.callee ip = some callees → callees = code.callees ip) ∧
      ∀ ip, m'.untraceables ip = true → code.traceable ip = false := by
  cases h with
  | @store x k =>
    refine ⟨hgraphs, fun ip callees hip => ?_, hun⟩
    have hip : Function.update m.callee x (some (code.callees x)) ip = some callees := hip
    by_cases heq : ip = x
    · rw [heq, Function.update_self] at hip
      rw [heq, Option.some.inj hip]
    · rw [Function.update_of_ne heq] at hip
      exact hcallee _ _ hip
  | @make _ callee _ _ _ _ hnone =>
    refine ⟨fun ip hip => ?_, hcallee, hun⟩
    have hip : (Function.update m.graphs callee (some 0) ip).getD 0 ≠ 0 := hip
    by_cases heq : ip = callee
    · rw [heq, Function.update_self] at hip
      exact absurd rfl hip
    · rw [Function.update_of_ne heq] at hip
      exact hgraphs _ hip
  | @fill callee _ ht =>
    refine ⟨fun ip hip => ?_, hcallee, hun⟩
    have hip : (Function.update m.graphs callee (some (code.bytes callee)) ip).getD 0 ≠ 0 := hip
    by_cases heq : ip = callee
    · rw [heq]
      exact AddSound.reached hw ht
    · rw [Function.update_of_ne heq] at hip
      exact hgraphs _ hip
  | @mark callee _ ht =>
    refine ⟨hgraphs, hcallee, fun ip hip => ?_⟩
    have hip : Function.update m.untraceables callee true ip = true := hip
    by_cases heq : ip = callee
    · rw [heq]
      exact ht
    · rw [Function.update_of_ne heq] at hip
      exact hun _ hip
  | _ => exact ⟨hgraphs, hcallee, hun⟩

namespace GraphParser.Sound

theorem step (h : p.Sound code roots) (hstep : p.step code i = .ok p') : p'.Sound code roots := by
  obtain ⟨w, w', started, hs⟩ := step_cases hstep
  have hw := h.workers w hs.mem
  obtain ⟨hmoved, hstarted⟩ := hs.moves.sound hw h.graphs h.callee
  obtain ⟨hgraphs, hcallee, hun⟩ := hs.moves.maps_sound hw h.graphs h.callee h.untraceables
  refine ⟨fun u hu => ?_, hgraphs, hcallee, hun⟩
  rcases hs.mem_cases hu with hold | rfl | hnew
  · exact (h.workers u hold).mono (fun _ => hs.moves.isSome) fun _ => hs.moves.filled
  · exact hmoved
  · exact hstarted u hnew

/-- The invariant of every run. -/
theorem run {schedule : List Nat} (hrun : GraphParser.run code roots schedule = .ok p) : p.Sound code roots :=
  foldlM_invariant (I := fun _ p => p.Sound code roots) (.init code roots)
    (fun _ _ _ _ hsound hstep => hsound.step hstep) hrun

end GraphParser.Sound

/-! ## What was reached is filled in -/

/-- The function will be parsed at this depth. -/
def GraphParser.Queued (p : GraphParser α) (ip : α) (d : Nat) : Prop :=
  .checkParsed ip d ∈ p.workers ∨ ∃ l : ParseLoop α, l.depth + 1 = d ∧ .filled ip l ∈ p.workers

/-- The function is taken care of, at no greater depth. -/
def GraphParser.Met (p : GraphParser α) (ip : α) (d : Nat) : Prop :=
  ∃ k ≤ d, p.Initialising ip k ∨ p.Filled ip ∧ (p.Queued ip k ∨ p.maps.parsed (ip, k) = true)

/-- The worker has still to add this callee of the function that it parses. -/
def ParseWorker.Owes : ParseWorker α → α → Nat → α → Prop
  | .readCallee ip d, x, k, _ => ip = x ∧ d = k
  | .loop l, x, k, c => l.ip = x ∧ l.depth = k ∧ c ∈ l.todo
  | .found callee l, x, k, c => l.ip = x ∧ l.depth = k ∧ (c = callee ∨ c ∈ l.todo)
  | .made _ l, x, k, c | .judge _ l, x, k, c | .filled _ l, x, k, c => l.ip = x ∧ l.depth = k ∧ c ∈ l.todo
  | .checkParsed _ _, _, _, _ | .returned, _, _, _ => False

/-- The invariant of the runs whose steps are timely. -/
structure GraphParser.Complete (code : CallCode α) (roots : List α) (p : GraphParser α) : Prop where
  roots : ∀ r ∈ roots, p.maps.parsed (r, 0) = true ∨ .checkParsed r 0 ∈ p.workers
  callees : ∀ ip d c, p.maps.parsed (ip, d) = true → code.Calls ip c → d + 1 ≤ code.maxDepth →
    (∃ w ∈ p.workers, w.Owes ip d c) ∨ p.Met c (d + 1)
  empty : ∀ c, p.maps.graphs c = some 0 → code.traceable c = true → ∃ d, p.Initialising c d

section Step

variable (hs : Stepped code p p' i w w' started) (hsound : p.Sound code roots)
include hs hsound

/-- A worker that fills in an entry of a traceable function goes on to it,
or is done and starts a worker. -/
theorem Stepped.initialising (ht : code.traceable ip = true) (h : p.Initialising ip d) :
    p'.Initialising ip d ∨ p'.Filled ip ∧ p'.Queued ip d := by
  obtain ⟨maps', workers'⟩ := p'
  have hmoves := hs.moves
  have hmoved := hs.moved
  obtain ⟨l, hl, hmade | hjudge⟩ := h
  · rcases hs.kept hmade with rfl | hkept
    · refine .inl ⟨l, hl, .inr ?_⟩
      cases hmoves with
      | skip hun =>
        rw [hsound.untraceables _ hun] at ht
        cases ht
      | ask => exact hmoved
    · exact .inl ⟨l, hl, .inl hkept⟩
  · rcases hs.kept hjudge with rfl | hkept
    · refine .inr ?_
      cases hmoves with
      | fill =>
        refine ⟨?_, .inr ⟨l, hl, hmoved⟩⟩
        show (Function.update p.maps.graphs ip (some (code.bytes ip)) ip).getD 0 ≠ 0
        rw [Function.update_self]
        exact code.bytes_ne ip
      | mark hfalse =>
        rw [hfalse] at ht
        cases ht
    · exact .inl ⟨l, hl, .inr hkept⟩

omit hsound in
/-- A function in the queue stays there or is parsed. -/
theorem Stepped.queued (h : p.Queued ip d) : p'.Queued ip d ∨ p'.maps.parsed (ip, d) = true := by
  obtain ⟨maps', workers'⟩ := p'
  have hmoves := hs.moves
  have hnew : ∀ u ∈ started, u ∈ workers' := fun u hu => hs.mem_started hu
  obtain hcheck | ⟨l, rfl, hfilled⟩ := h
  · rcases hs.kept hcheck with rfl | hkept
    · refine .inr ?_
      cases hmoves with
      | again hparsed => exact hparsed
      | first => exact Function.update_self (ip, d) true p.maps.parsed
    · exact .inl (.inl hkept)
  · rcases hs.kept hfilled with rfl | hkept
    · cases hmoves with
      | start => exact .inl (.inl (hnew _ List.mem_cons_self))
    · exact .inl (.inr ⟨l, rfl, hkept⟩)

theorem Stepped.met (ht : code.traceable ip = true) (h : p.Met ip d) : p'.Met ip d := by
  obtain ⟨k, hk, hinit | ⟨hfilled, hqueued | hparsed⟩⟩ := h
  · rcases hs.initialising hsound ht hinit with hinit' | ⟨hfilled, hqueued⟩
    · exact ⟨k, hk, .inl hinit'⟩
    · exact ⟨k, hk, .inr ⟨hfilled, .inl hqueued⟩⟩
  · exact ⟨k, hk, .inr ⟨hs.moves.filled hfilled, hs.queued hqueued⟩⟩
  · exact ⟨k, hk, .inr ⟨hs.moves.filled hfilled, .inr (hs.moves.parsed hparsed)⟩⟩

/-- An entry that is still empty is being filled in. -/
theorem Stepped.empty (hempty : ∀ c, p.maps.graphs c = some 0 → code.traceable c = true → ∃ d, p.Initialising c d)
    (hip : p'.maps.graphs ip = some 0) (ht : code.traceable ip = true) : ∃ d, p'.Initialising ip d := by
  have hunfilled : ¬ p'.Filled ip := fun h => h (by rw [hip]; rfl)
  obtain ⟨maps', workers'⟩ := p'
  by_cases hold : p.maps.graphs ip = some 0
  · obtain ⟨d, hinit⟩ := hempty ip hold ht
    rcases hs.initialising hsound ht hinit with hinit' | ⟨hfilled, -⟩
    · exact ⟨d, hinit'⟩
    · exact absurd hfilled hunfilled
  -- the entry is new
  · have hmoves := hs.moves
    have hmoved := hs.moved
    cases hmoves with
    | @make x callee k todo decoded _ _ =>
      have hip : Function.update p.maps.graphs callee (some 0) ip = some 0 := hip
      by_cases heq : ip = callee
      · exact ⟨k + 1, ⟨x, k, todo, decoded⟩, rfl, .inl (heq ▸ hmoved)⟩
      · rw [Function.update_of_ne heq] at hip
        exact absurd hip hold
    | @fill callee _ _ =>
      have hip : Function.update p.maps.graphs callee (some (code.bytes callee)) ip = some 0 := hip
      by_cases heq : ip = callee
      · rw [heq, Function.update_self] at hip
        exact absurd (Option.some.inj hip) (code.bytes_ne callee)
      · rw [Function.update_of_ne heq] at hip
        exact absurd hip hold
    | _ => exact absurd hip hold

/-- **One callee more.** A worker that takes a timely step still owes the
callee, or has seen to it. -/
theorem Stepped.owes (hempty : ∀ c, p.maps.graphs c = some 0 → code.traceable c = true → ∃ d, p.Initialising c d)
    (htimely : p.Timely code i) (hcall : code.Calls ip callee) (hd : d + 1 ≤ code.maxDepth)
    (h : w.Owes ip d callee) : w'.Owes ip d callee ∨ p'.Met callee (d + 1) := by
  obtain ⟨maps', workers'⟩ := p'
  have hw := hsound.workers w hs.mem
  have hmoves := hs.moves
  have hmoved := hs.moved
  have hfilled (c : α) : p.Filled c → (maps'.graphs c).getD 0 ≠ 0 := fun hc => hs.moves.filled hc
  have hnew : ∀ u ∈ started, u ∈ workers' := fun u hu => hs.mem_started hu
  have hkeep : p.Met callee (d + 1) → GraphParser.Met ⟨maps', workers'⟩ callee (d + 1) := hs.met hsound hcall.2
  have hturn := hs.turn
  cases hmoves with
  | again => exact h.elim
  | first => exact h.elim
  | cached hsome =>
    obtain ⟨rfl, rfl⟩ := h
    exact .inl ⟨rfl, rfl, hsound.callee _ _ hsome ▸ hcall.1⟩
  | decode =>
    obtain ⟨rfl, rfl⟩ := h
    exact .inl ⟨rfl, rfl, hcall.1⟩
  | store => exact absurd h.2.2 List.not_mem_nil
  | finish => exact absurd h.2.2 List.not_mem_nil
  | tooDeep hdeep =>
    obtain ⟨rfl, rfl, -⟩ := h
    exact absurd hd (by simpa using hdeep)
  | @make x c k todo decoded _ _ =>
    obtain ⟨rfl, rfl, hmem⟩ := h
    rcases List.mem_cons.mp hmem with rfl | hrest
    · exact .inr ⟨_, Nat.le_refl _, .inl ⟨⟨x, k, todo, decoded⟩, rfl, .inl hmoved⟩⟩
    · exact .inl ⟨rfl, rfl, hrest⟩
  | find =>
    obtain ⟨rfl, rfl, hmem⟩ := h
    exact .inl ⟨rfl, rfl, List.mem_cons.mp hmem⟩
  | revisit hbytes =>
    obtain ⟨rfl, rfl, rfl | hrest⟩ := h
    · exact .inr ⟨_, Nat.le_refl _, .inr ⟨hfilled _ hbytes, .inl (.inl (hnew _ List.mem_cons_self))⟩⟩
    · exact .inl ⟨rfl, rfl, hrest⟩
  | leave hzero =>
    obtain ⟨rfl, rfl, rfl | hrest⟩ := h
    · -- the visit is dropped; whoever fills in the entry is no deeper
      obtain ⟨bytes, hsome⟩ := Option.isSome_iff_exists.mp hw.2
      rw [hsome] at hzero
      obtain ⟨k, hinit⟩ := hempty _ (hsome.trans (congrArg some hzero)) hcall.2
      have hk := htimely _ _ hturn hcall.2 (fun hf => hf (by rw [hsome]; exact hzero)) k hinit
      exact .inr (hkeep ⟨k, hk, .inl hinit⟩)
    · exact .inl ⟨rfl, rfl, hrest⟩
  | skip => exact .inl h
  | ask => exact .inl h
  | fill => exact .inl h
  | mark => exact .inl h
  | start => exact .inl h

omit hsound in
/-- What was parsed for the first time owes all its callees. -/
theorem Stepped.parsed_new (hnew : p'.maps.parsed (ip, d) = true) :
    p.maps.parsed (ip, d) = true ∨ w' = .readCallee ip d := by
  obtain ⟨maps', workers'⟩ := p'
  have hmoves := hs.moves
  cases hmoves with
  | @first x k _ =>
    have hnew : Function.update p.maps.parsed (x, k) true (ip, d) = true := hnew
    by_cases heq : (ip, d) = (x, k)
    · obtain ⟨rfl, rfl⟩ := Prod.mk.inj heq
      exact .inr rfl
    · rw [Function.update_of_ne heq] at hnew
      exact .inl hnew
  | _ => exact .inl hnew

end Step

namespace GraphParser.Complete

omit [DecidableEq α] in
theorem init (code : CallCode α) (roots : List α) : (GraphParser.init roots).Complete code roots where
  roots r hr := .inr (List.mem_map.mpr ⟨r, hr, rfl⟩)
  callees ip d c hparsed := by cases hparsed
  empty c hc := by cases hc

theorem step (h : p.Complete code roots) (hsound : p.Sound code roots) (htimely : p.Timely code i)
    (hstep : p.step code i = .ok p') : p'.Complete code roots := by
  obtain ⟨w, w', started, hs⟩ := step_cases hstep
  refine ⟨fun r hr => ?_, fun ip d c hparsed hcall hd => ?_, fun c => hs.empty hsound h.empty⟩
  · rcases h.roots r hr with hparsed | hcheck
    · exact .inl (hs.moves.parsed hparsed)
    · rcases hs.queued (.inl hcheck) with hqueued | hparsed
      · rcases hqueued with hcheck' | ⟨l, hl, -⟩
        · exact .inr hcheck'
        · exact absurd hl (Nat.succ_ne_zero _)
      · exact .inl hparsed
  · rcases hs.parsed_new hparsed with hold | rfl
    · rcases h.callees ip d c hold hcall hd with ⟨u, hu, howes⟩ | hmet
      · rcases hs.kept hu with rfl | hkept
        · exact (hs.owes hsound h.empty htimely hcall hd howes).imp (fun ho => ⟨w', hs.moved, ho⟩) id
        · exact .inl ⟨u, hkept, howes⟩
      · exact .inr (hs.met hsound hcall.2 hmet)
    · exact .inl ⟨_, hs.moved, rfl, rfl⟩

/-- The invariant of the runs whose steps are timely. -/
theorem run {schedule : List Nat} (hrun : GraphParser.run code roots schedule = .ok p)
    (htimely : ∀ before i after u, schedule = before ++ i :: after → GraphParser.run code roots before = .ok u →
      u.Timely code i) : p.Complete code roots := by
  induction schedule using List.reverseRecOn generalizing p with
  | nil =>
    simp only [GraphParser.run, List.foldlM_nil, pure, Except.pure, Except.ok.injEq] at hrun
    exact hrun ▸ .init code roots
  | append_singleton schedule i ih =>
    obtain ⟨u, hu, hstep⟩ := foldlM_concat_ok.mp hrun
    have hbefore := ih hu fun before j after v heq hv => htimely before j (after ++ [i]) v (by simp [heq]) hv
    exact hbefore.step (.run hu) (htimely schedule i [] u rfl hu) hstep

omit [DecidableEq α] in
/-- When all workers have returned, all calls were followed. -/
theorem reached (h : p.Complete code roots) (hwaited : p.Waited) (hreached : code.Reached roots ip) :
    p.Filled ip := by
  have hnone (u : ParseWorker α) (hu : u ∈ p.workers) (hne : u ≠ .returned) : False := hne (hwaited u hu)
  have hroots : ∀ r, r ∈ roots → p.maps.parsed (r, 0) = true := by
    intro r hr
    rcases h.roots r hr with hparsed | hcheck
    · exact hparsed
    · exact (hnone _ hcheck (by simp)).elim
  have hcalls : ∀ x k c, p.maps.parsed (x, k) = true → k < code.maxDepth → code.Calls x c →
      p.Filled c ∧ ∃ j ≤ k + 1, p.maps.parsed (c, j) = true := by
    intro x k c hparsed hk hcall
    rcases h.callees x k c hparsed hcall hk with ⟨w, hw, howes⟩ | ⟨j, hj, hinit | ⟨hfilled, hqueued | hparsed'⟩⟩
    · rw [hwaited w hw] at howes
      exact howes.elim
    · obtain ⟨l, -, hmade | hjudge⟩ := hinit
      · exact (hnone _ hmade (by simp)).elim
      · exact (hnone _ hjudge (by simp)).elim
    · obtain hcheck | ⟨l, -, hl⟩ := hqueued
      · exact (hnone _ hcheck (by simp)).elim
      · exact (hnone _ hl (by simp)).elim
    · exact ⟨hfilled, j, hj, hparsed'⟩
  obtain ⟨d, hpos, hd, hwalk⟩ := hreached
  cases hwalk with
  | root => exact absurd hpos (Nat.lt_irrefl 0)
  | @edge x c k hwalk hcall =>
    obtain ⟨j, hj, hparsed⟩ := hwalk.covered (P := fun a j => p.maps.parsed (a, j) = true) (n := code.maxDepth)
      (by omega) hroots fun a j b ha hlt hab => (hcalls a j b ha hlt hab).2
    exact (hcalls x j ip hparsed (by omega) hcall).1

end GraphParser.Complete

/-! ## `wait` returns -/

/-- At most so many steps are left in the worker, and in those that it
starts until they parse. -/
def ParseWorker.weight (code : CallCode α) : ParseWorker α → Nat
  | .checkParsed _ _ => 1
  | .readCallee ip _ => 2 + 5 * (code.callees ip).length
  | .loop l => 1 + 5 * l.todo.length
  | .found _ l | .filled _ l => 3 + 5 * l.todo.length
  | .judge _ l => 4 + 5 * l.todo.length
  | .made _ l => 5 + 5 * l.todo.length
  | .returned => 0

section Finite

variable {U : Finset α}

/-- The steps left for what was not parsed yet, among the functions of `U`. -/
def unparsed (code : CallCode α) (U : Finset α) (m : ParserMaps α) : Nat :=
  ∑ x ∈ U ×ˢ Finset.range (code.maxDepth + 1), if m.parsed x = true then 0 else 2 + 5 * (code.callees x.1).length

def GraphParser.left (code : CallCode α) (U : Finset α) (p : GraphParser α) : Nat :=
  unparsed code U p.maps + (p.workers.map (ParseWorker.weight code)).sum

theorem unparsed_first (hmem : (ip, d) ∈ U ×ˢ Finset.range (code.maxDepth + 1)) (hfirst : m.parsed (ip, d) = false) :
    unparsed code U { m with parsed := Function.update m.parsed (ip, d) true }
      + (2 + 5 * (code.callees ip).length) = unparsed code U m := by
  unfold unparsed
  rw [← Finset.add_sum_erase _ _ hmem, ← Finset.add_sum_erase _ _ hmem]
  have hrest : ∀ x ∈ (U ×ˢ Finset.range (code.maxDepth + 1)).erase (ip, d),
      (if Function.update m.parsed (ip, d) true x = true then 0 else 2 + 5 * (code.callees x.1).length)
        = if m.parsed x = true then 0 else 2 + 5 * (code.callees x.1).length := by
    intro x hx
    rw [Function.update_of_ne (Finset.ne_of_mem_erase hx)]
  have hself : Function.update m.parsed (ip, d) true (ip, d) = true := Function.update_self _ _ _
  simp only [Finset.sum_congr rfl hrest, hself, hfirst, if_true, Bool.false_eq_true, if_false]
  omega

theorem sum_map_set {β : Type} {f : β → Nat} {a b : β} {l : List β} {n : Nat} (h : l[n]? = some a) :
    ((l.set n b).map f).sum + f a = (l.map f).sum + f b := by
  induction l generalizing n with
  | nil => cases h
  | cons x l ih =>
    cases n with
    | zero =>
      obtain rfl := Option.some.inj h
      simp only [List.set_cons_zero, List.map_cons, List.sum_cons]
      omega
    | succ n =>
      have hrest := ih (n := n) h
      simp only [List.set_cons_succ, List.map_cons, List.sum_cons]
      omega

variable (hroots : ∀ r ∈ roots, r ∈ U) (hclosed : ∀ ip ∈ U, ∀ c ∈ code.callees ip, c ∈ U)

omit [DecidableEq α] in
/-- The functions that are called are among those of `U`. -/
theorem CallCode.Called.mem (hroots : ∀ r ∈ roots, r ∈ U) (hclosed : ∀ ip ∈ U, ∀ c ∈ code.callees ip, c ∈ U)
    (h : code.Called roots ip d) : ip ∈ U :=
  Walk.mem h hroots fun _ _ hmem hcall => hclosed _ hmem _ hcall.1

include hroots hclosed

/-- Every step lowers what is left. -/
theorem Moves.left_lt (h : Moves code m w m' w' started) (hw : WorkerSound code roots m w)
    (hcallee : ∀ ip callees, m.callee ip = some callees → callees = code.callees ip) :
    unparsed code U m' + (w'.weight code + (started.map (ParseWorker.weight code)).sum)
      < unparsed code U m + w.weight code := by
  cases h with
  | @first x k hfirst =>
    have hmem : (x, k) ∈ U ×ˢ Finset.range (code.maxDepth + 1) :=
      Finset.mem_product.mpr ⟨hw.1.mem hroots hclosed, Finset.mem_range.mpr (Nat.lt_succ_of_le hw.2)⟩
    have hparsed := unparsed_first hmem hfirst
    simp only [ParseWorker.weight, List.map_nil, List.sum_nil]
    omega
  | cached hsome =>
    obtain rfl := hcallee _ _ hsome
    simp only [ParseWorker.weight, List.map_nil, List.sum_nil]
    omega
  | again | decode | finish | tooDeep | find | revisit | leave | skip | ask | start =>
    simp only [ParseWorker.weight, List.map_cons, List.map_nil, List.sum_cons, List.sum_nil, List.length_cons]
    omega
  | store | make | fill | mark =>
    show unparsed code U m + _ < unparsed code U m + _
    simp only [ParseWorker.weight, List.map_nil, List.sum_nil, List.length_cons]
    omega

theorem GraphParser.step_left_lt (hsound : p.Sound code roots) (hstep : p.step code i = .ok p') :
    p'.left code U < p.left code U := by
  obtain ⟨w, w', started, hs⟩ := step_cases hstep
  have hlower := hs.moves.left_lt hroots hclosed (hsound.workers w hs.mem) hsound.callee
  have hset := sum_map_set (f := ParseWorker.weight code) (b := w') hs.turn
  unfold GraphParser.left
  rw [hs.workers, List.map_append, List.sum_append]
  omega

/-- A schedule is no longer than what is left at the start. -/
theorem GraphParser.length_le {schedule : List Nat} (hrun : GraphParser.run code roots schedule = .ok p) :
    schedule.length ≤ (GraphParser.init roots).left code U := by
  have hbound := foldlM_length_le (I := fun p => p.Sound code roots) (μ := fun p => p.left code U)
    (.init code roots) (fun _ _ _ hsound hstep => hsound.step hstep)
    (fun _ _ _ hsound hstep => GraphParser.step_left_lt hroots hclosed hsound hstep) hrun
  omega

end Finite

/-- As long as `wait` has not returned, a worker can take a step. -/
theorem GraphParser.step_of_not_waited (h : ¬ p.Waited) : ∃ i p', p.step code i = .ok p' := by
  obtain ⟨w, hw, hne⟩ : ∃ w ∈ p.workers, w ≠ .returned := by
    simpa [GraphParser.Waited] using h
  obtain ⟨i, hi⟩ := List.mem_iff_getElem?.mp hw
  obtain ⟨out, hout⟩ := Option.isSome_iff_exists.mp (@workerStep_isSome _ _ code p.maps w hne)
  exact ⟨i, ⟨out.1, p.workers.set i out.2.1 ++ out.2.2⟩, by simp [GraphParser.step, hi, hout]⟩

/-! ## The call graph -/

/-- **The call graph.** On a finite graph `wait` returns under every
schedule. In a run whose steps are all timely, the entries that were filled
in are then those of the traceable functions that a root reaches by at most
`maxDepth` calls. -/
theorem graphs_reached {U : Finset α} (hroots : ∀ r ∈ roots, r ∈ U)
    (hclosed : ∀ ip ∈ U, ∀ c ∈ code.callees ip, c ∈ U) :
    ((∃ n, ∀ schedule p, GraphParser.run code roots schedule = .ok p → schedule.length ≤ n) ∧
        ∀ schedule p, GraphParser.run code roots schedule = .ok p → ¬ p.Waited →
          ∃ i p', GraphParser.run code roots (schedule ++ [i]) = .ok p') ∧
      ∀ schedule p, GraphParser.run code roots schedule = .ok p →
        (∀ before i after u, schedule = before ++ i :: after → GraphParser.run code roots before = .ok u →
          u.Timely code i) →
        p.Waited → ∀ ip, p.Filled ip ↔ code.Reached roots ip := by
  refine ⟨⟨⟨_, fun schedule p hrun => GraphParser.length_le hroots hclosed hrun⟩, fun schedule p hrun hwait => ?_⟩,
    fun schedule p hrun htimely hwaited ip => ⟨(GraphParser.Sound.run hrun).graphs ip, ?_⟩⟩
  · obtain ⟨i, p', hstep⟩ := @GraphParser.step_of_not_waited _ _ code p hwait
    exact ⟨i, p', foldlM_concat_ok.mpr ⟨p, hrun, hstep⟩⟩
  · exact (GraphParser.Complete.run hrun htimely).reached hwaited

end Steps

/-- The root 0 calls 1 and 2, which calls 3; so does 1. -/
def sharedCallee : CallCode Nat where
  callees
    | 0 => [1, 2]
    | 1 => [2]
    | 2 => [3]
    | _ => []
  bytes _ := 1
  traceable _ := true
  maxDepth := 2
  bytes_ne _ := Nat.one_ne_zero

/-- The worker of the root makes the entry of 2 at depth 1; the worker of 1
finds it before it is filled in. -/
def sharedSchedule : List Nat :=
  [0, 0, 0, 0, 0, 0, 0, 1, 1, 1, 1, 1, 0, 0, 0, 0, 2, 2, 2, 2, 2, 2, 2, 3, 3, 3]

/-- A callee that is met in time. -/
theorem shared_callee_filled : ∃ p, GraphParser.run sharedCallee [0] sharedSchedule = .ok p ∧ p.Waited ∧
    ∀ ip, p.Filled ip ↔ sharedCallee.Reached [0] ip := by
  refine ⟨_, rfl, by decide, ?_⟩
  have hclosed : ∀ ip ∈ ({0, 1, 2, 3} : Finset Nat), ∀ c ∈ sharedCallee.callees ip, c ∈ ({0, 1, 2, 3} : Finset Nat) := by
    decide
  refine (graphs_reached (U := {0, 1, 2, 3}) (by decide) hclosed).2 sharedSchedule _ rfl ?_ (by decide)
  intro before i after u heq hrun callee l hfound
  have hbefore : before = sharedSchedule.take before.length := by rw [heq, List.take_left]
  have hturn : sharedSchedule[before.length]? = some i := by simp [heq]
  have hlt : before.length < 26 := (List.getElem?_eq_some_iff.mp hturn).1
  generalize before.length = k at hbefore hturn hlt
  subst hbefore
  interval_cases k <;> cases hturn <;> cases hrun <;> cases hfound
  -- the one entry that is found is made at depth 1
  rintro - - depth ⟨l', rfl, hmade | hjudge⟩
  · simp [GraphParser.init] at hmade
    rw [hmade]
    decide
  · simp [GraphParser.init] at hjudge

/-- **A callee that is met too deep first.** The worker of 1 makes the entry
of 2 at depth 2. Before it is filled in the worker of the root finds it, at
depth 1, and leaves it; so 3 is never found. -/
theorem deep_visit_first :
    ∃ p, GraphParser.run sharedCallee [0] [0, 0, 0, 0, 0, 0, 1, 1, 1, 0, 0, 0, 1, 1, 1, 1, 2, 2, 2, 2] = .ok p ∧
      p.Waited ∧ ¬ (p.Filled 3 ↔ sharedCallee.Reached [0] 3) := by
  have hfirst : sharedCallee.Calls 0 2 := ⟨by decide, rfl⟩
  have hsecond : sharedCallee.Calls 2 3 := ⟨by decide, rfl⟩
  have hreached : sharedCallee.Reached [0] 3 :=
    ⟨2, by decide, by decide, .edge (.edge (.root List.mem_cons_self) hfirst) hsecond⟩
  refine ⟨_, rfl, by decide, fun h => ?_⟩
  exact absurd (h.mpr hreached) (by decide)

end Bpfsnoop.Progs
