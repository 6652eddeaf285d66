/-
Bpfsnoop.Trace.Addr2LineTheorems — when the cache of source lines does not
show.

What a cache or the file holds for an address is a line that some earlier
lookup of the address found, in whatever process (`Sourced`). So a hit is
right if those lookups went where this one goes; the key of the cache does
not say so.
-/
import Bpfsnoop.Trace.Addr2Line

namespace Bpfsnoop.Trace

open Ebpf Lib

variable {ι : Type} {files : DebugFiles} {cfg : ι → RunConfig} {r r' : RunConfig}
  {history : List (CacheEvent ι)} {addr : Word} {ksym ksym' : Option KsymEntry}

/-! ## The modules -/

/-- The modules known are those of the files. -/
def KmodsOk (files : DebugFiles) (r : RunConfig) (kmods : Table String KmodAddr2line) : Prop :=
  kmods.Holds fun mod kmod => openMod files r (some mod) = .ok (kmod.lines, kmod.kaslr)

variable (ksym) in
/-- **`getMod`** opens the module, whatever is known. -/
theorem getMod_spec {kmods : Table String KmodAddr2line} (h : KmodsOk files r kmods) :
    (getMod files r kmods ksym).1 = openMod files r (moduleOf ksym) ∧
      KmodsOk files r (getMod files r kmods ksym).2 := by
  cases ksym with
  | none => exact ⟨rfl, h⟩
  | some sym =>
    simp only [getMod, moduleOf]
    by_cases hbuiltin : isKernelBuiltinMod sym.mod = true
    · simp only [hbuiltin, if_true]
      exact ⟨rfl, h⟩
    · simp only [hbuiltin]
      cases hknown : kmods sym.mod with
      | some kmod => exact ⟨(h _ _ hknown).symm, h⟩
      | none =>
        cases hfile : files.kmods sym.mod with
        | notFound =>
          have hopen : openMod files r (some sym.mod) = .ok (none, { kaddr := 0, saddr := 0 }) := by
            rw [openMod, hfile]
          exact ⟨hopen.symm, h.update hopen⟩
        | failed err =>
          have hopen : openMod files r (some sym.mod) = .error err := by rw [openMod, hfile]
          exact ⟨hopen.symm, h⟩
        | found lines text =>
          have hopen : openMod files r (some sym.mod) =
              .ok (lines, { kaddr := r.stext, saddr := text }) := by
            rw [openMod, hfile]
          exact ⟨hopen.symm, h.update hopen⟩

/-! ## One lookup -/

theorem uncached_ne_nilDereference : uncached files r addr ksym ≠ .nilDereference := by
  unfold uncached
  split
  · simp
  · simp
  · split <;> simp

theorem uncached_eq_entry {e : Addr2LineEntry} : uncached files r addr ksym = .entry e ↔
    ∃ lines kaslr, openMod files r (moduleOf ksym) = .ok (some lines, kaslr) ∧
      lines (kaslr.effectiveAddr addr) = .ok e := by
  unfold uncached
  cases openMod files r (moduleOf ksym) with
  | error err => simp
  | ok p =>
    obtain ⟨_ | lines, kaslr⟩ := p
    · simp
    · cases hline : lines (kaslr.effectiveAddr addr) <;> simp [hline]

/-- The lines of a module do not depend on the process. -/
theorem openMod_lines {mod : Option String} {lines lines' : Option Lines} {kaslr kaslr' : Kaslr}
    (h : openMod files r mod = .ok (lines, kaslr)) (h' : openMod files r' mod = .ok (lines', kaslr')) :
    lines = lines' := by
  cases mod with
  | none =>
    cases h
    cases h'
    rfl
  | some mod =>
    unfold openMod at h h'
    cases hfile : files.kmods mod <;> simp [hfile] at h h'
    · rw [← h.1, ← h'.1]
    · rw [← h.1, ← h'.1]

/-- Lookups with one target find the same line. -/
theorem uncached_of_sameTarget {e : Addr2LineEntry} (h : SameTarget files r r' addr ksym ksym')
    (hentry : uncached files r' addr ksym' = .entry e) : uncached files r addr ksym = .entry e := by
  obtain ⟨hmod, heff⟩ := h
  obtain ⟨lines, kaslr', hopen', hline⟩ := uncached_eq_entry.mp hentry
  rw [hopen'] at heff
  cases hopen : openMod files r (moduleOf ksym) with
  | error err => rw [hopen] at heff; cases heff
  | ok p =>
    obtain ⟨lines', kaslr⟩ := p
    rw [hopen] at heff
    simp only [Except.map, Except.ok.injEq] at heff
    have hlines : lines' = some lines := openMod_lines hopen (hmod ▸ hopen')
    rw [hlines] at hopen
    exact uncached_eq_entry.mpr ⟨lines, kaslr, hopen, heff ▸ hline⟩

/-- **`add`**: an entry `P` admits keeps the cache and the file within `P`. -/
theorem add_spec {P : Word → Addr2LineEntry → Prop} {d : DbgsymCache}
    {file : Option (Table Word Addr2LineEntry)} {saveOk : Bool} {entry : Addr2LineEntry}
    (hd : d.cache.Holds P) (hfile : ∀ c, file = some c → c.Holds P) (hentry : P addr entry) :
    (d.add file saveOk addr entry).1.cache.Holds P ∧
      ∀ c, (d.add file saveOk addr entry).2.1 = some c → c.Holds P := by
  have hnew := hd.update hentry
  unfold DbgsymCache.add
  split
  · exact ⟨hd, hfile⟩
  · dsimp only
    split
    · split
      · exact ⟨hnew, fun c hc => by cases hc; exact hnew⟩
      · exact ⟨hnew, hfile⟩
    · exact ⟨hnew, hfile⟩

section Get

variable {file : Option (Table Word Addr2LineEntry)} {st : RunState} {saveOk : Bool}

variable (ksym file saveOk) in
/-- A lookup that misses, after `create`: what it returns, the modules it
knows then, and whether it adds what it found. -/
theorem get_miss (hkmods : KmodsOk files r st.kmods) (hmiss : st.cache.cache addr = none)
    (hcreated : created files r = true) :
    ∃ kmods, KmodsOk files r kmods ∧
      ((∃ sym e, ksym = some sym ∧ sym.mod ≠ kmodBpf ∧ uncached files r addr ksym = .entry e ∧
          get files r saveOk file st addr ksym =
            (if (st.cache.add file saveOk addr e).2.2 then .entry e else .error .save,
              (st.cache.add file saveOk addr e).2.1,
              { cache := (st.cache.add file saveOk addr e).1, kmods := kmods })) ∨
        ∃ result, get files r saveOk file st addr ksym = (result, file, { st with kmods := kmods }) ∧
          (result = uncached files r addr ksym ∨
            ksym = none ∧ ∃ e, uncached files r addr ksym = .entry e)) := by
  obtain ⟨hopen, hkmods'⟩ := getMod_spec ksym hkmods
  cases hmod : getMod files r st.kmods ksym with
  | mk opened kmods =>
    rw [hmod] at hopen hkmods'
    refine ⟨kmods, hkmods', ?_⟩
    simp only [get, hmiss, hcreated, if_true, hmod, uncached, ← hopen]
    cases opened with
    | error err => exact .inr ⟨_, rfl, .inl rfl⟩
    | ok p =>
      obtain ⟨_ | lines, kaslr⟩ := p
      · exact .inr ⟨_, rfl, .inl rfl⟩
      · dsimp only
        cases lines (kaslr.effectiveAddr addr) with
        | error err => exact .inr ⟨_, rfl, .inl rfl⟩
        | ok entry =>
          cases ksym with
          | none => exact .inr ⟨_, rfl, .inr ⟨rfl, entry, rfl⟩⟩
          | some sym =>
            by_cases hbpf : sym.mod = kmodBpf
            · refine .inr ⟨_, ?_, .inl rfl⟩
              simp [hbpf]
            · refine .inl ⟨sym, entry, rfl, hbpf, rfl, ?_⟩
              simp [hbpf]

variable (addr ksym saveOk) in
/-- What a lookup adds to the cache and the file is what it found. -/
theorem get_tables {P : Word → Addr2LineEntry → Prop} (hkmods : KmodsOk files r st.kmods)
    (hcache : st.cache.cache.Holds P) (hfile : ∀ c, file = some c → c.Holds P)
    (hnew : ∀ sym e, ksym = some sym → sym.mod ≠ kmodBpf → uncached files r addr ksym = .entry e → P addr e) :
    KmodsOk files r (get files r saveOk file st addr ksym).2.2.kmods ∧
      (get files r saveOk file st addr ksym).2.2.cache.cache.Holds P ∧
      ∀ c, (get files r saveOk file st addr ksym).2.1 = some c → c.Holds P := by
  cases haddr : st.cache.cache addr with
  | some e =>
    simp only [get, haddr]
    exact ⟨hkmods, hcache, hfile⟩
  | none =>
    cases hcreated : created files r with
    | false =>
      simp only [get, haddr, hcreated]
      exact ⟨hkmods, hcache, hfile⟩
    | true =>
      obtain ⟨kmods, hkmods', ⟨sym, e, hksym, hbpf, hentry, hget⟩ | ⟨result, hget, -⟩⟩ :=
        get_miss ksym file saveOk hkmods haddr hcreated
      · rw [hget]
        exact ⟨hkmods', add_spec hcache hfile (hnew sym e hksym hbpf hentry)⟩
      · rw [hget]
        exact ⟨hkmods', hcache, hfile⟩

/-- A save that is not due, or succeeds. -/
theorem add_saved {d : DbgsymCache} {entry : Addr2LineEntry} (hmiss : d.cache addr = none)
    (h : saveOk = true ∨ (d.newEntriesCnt + 1) % cacheBatchLimit ≠ 0) :
    (d.add file saveOk addr entry).2.2 = true := by
  simp only [DbgsymCache.add, hmiss]
  by_cases hdue : (d.newEntriesCnt + 1) % cacheBatchLimit = 0
  · simp [hdue, h.resolve_right (not_not.mpr hdue)]
  · simp [hdue]

/-- **A lookup that misses** and fits returns what it finds. -/
theorem get_of_miss (hkmods : KmodsOk files r st.kmods) (hmiss : st.cache.cache addr = none)
    (hcreated : created files r = true)
    (hfound : ∀ e, uncached files r addr ksym = .entry e → ∃ sym, ksym = some sym ∧
      (saveOk = true ∨ sym.mod = kmodBpf ∨ (st.cache.newEntriesCnt + 1) % cacheBatchLimit ≠ 0)) :
    (get files r saveOk file st addr ksym).1 = uncached files r addr ksym := by
  obtain ⟨kmods, -, ⟨sym, e, hksym, hbpf, hentry, hget⟩ | ⟨result, hget, hresult | ⟨hnone, e, hentry⟩⟩⟩ :=
    get_miss ksym file saveOk hkmods hmiss hcreated
  · obtain ⟨sym', hksym', hsave⟩ := hfound e hentry
    rw [hksym, Option.some.injEq] at hksym'
    subst hksym'
    rw [hget, add_saved hmiss (hsave.imp_right fun h => h.resolve_left hbpf), if_pos rfl, hentry]
  · rw [hget, hresult]
  · obtain ⟨sym, hsym, -⟩ := hfound e hentry
    rw [hnone] at hsym
    cases hsym

end Get

/-! ## Runs -/

/-- What is cached for an address, an earlier lookup of the address found. -/
def Sourced (files : DebugFiles) (cfg : ι → RunConfig) (history : List (CacheEvent ι))
    (c : Table Word Addr2LineEntry) : Prop :=
  c.Holds fun addr e => ∃ i sym saveOk, .get i addr (some sym) saveOk ∈ history ∧ sym.mod ≠ kmodBpf ∧
    uncached files (cfg i) addr (some sym) = .entry e

theorem Sourced.concat {c : Table Word Addr2LineEntry} (h : Sourced files cfg history c)
    (event : CacheEvent ι) : Sourced files cfg (history ++ [event]) c :=
  h.mono fun _ _ ⟨i, sym, saveOk, hmem, hrest⟩ =>
    ⟨i, sym, saveOk, List.mem_append_left _ hmem, hrest⟩

/-- The invariant of the processes and the file. -/
structure CacheSound (files : DebugFiles) (cfg : ι → RunConfig) (history : List (CacheEvent ι))
    (w : CacheWorld ι) : Prop where
  file : ∀ c, w.file = some c → Sourced files cfg history c
  cache : ∀ i st, w.runs i = some st → Sourced files cfg history st.cache.cache
  kmods : ∀ i st, w.runs i = some st → KmodsOk files (cfg i) st.kmods

theorem CacheSound.init : CacheSound files cfg [] CacheWorld.init where
  file _ hc := by cases hc
  cache _ _ hi := by cases hi
  kmods _ _ hi := by cases hi

section Runs

variable [DecidableEq ι]

/-- **One event.** -/
theorem CacheSound.step {w : CacheWorld ι} (h : CacheSound files cfg history w) (event : CacheEvent ι) :
    CacheSound files cfg (history ++ [event]) (w.step files cfg event) := by
  cases event with
  | start i =>
    refine ⟨fun c hc => (h.file c hc).concat _, fun j st hj => ?_, fun j st hj => ?_⟩
    · simp only [CacheWorld.step, Function.update_apply] at hj
      split at hj
      · cases hj
        cases hfile : w.file with
        | none => exact Table.holds_empty
        | some c => exact (h.file c hfile).concat _
      · exact (h.cache j st hj).concat _
    · simp only [CacheWorld.step, Function.update_apply] at hj
      split at hj
      · cases hj
        exact Table.holds_empty
      · exact h.kmods j st hj
  | get i addr ksym saveOk =>
    cases hi : w.runs i with
    | none =>
      simp only [CacheWorld.step, hi]
      exact ⟨fun c hc => (h.file c hc).concat _, fun j st hj => (h.cache j st hj).concat _, h.kmods⟩
    | some st =>
      obtain ⟨hkmods, hcache, hfile⟩ := get_tables addr ksym saveOk
        (h.kmods i st hi) ((h.cache i st hi).concat (.get i addr ksym saveOk))
        (fun c hc => (h.file c hc).concat (.get i addr ksym saveOk))
        fun sym e hksym hbpf hentry => ⟨i, sym, saveOk, by simp [hksym], hbpf, hksym ▸ hentry⟩
      simp only [CacheWorld.step, hi]
      refine ⟨hfile, fun j st' hj => ?_, fun j st' hj => ?_⟩
      · simp only [Function.update_apply] at hj
        split at hj
        · cases hj
          exact hcache
        · exact (h.cache j st' hj).concat _
      · simp only [Function.update_apply] at hj
        split at hj
        · rename_i hji
          cases hj
          exact hji ▸ hkmods
        · exact h.kmods j st' hj

/-- **Every history.** -/
theorem cacheSound_run (files : DebugFiles) (cfg : ι → RunConfig) (history : List (CacheEvent ι)) :
    CacheSound files cfg history (CacheWorld.run files cfg history) := by
  induction history using List.reverseRecOn with
  | nil => exact CacheSound.init
  | append_singleton history event ih =>
    rw [CacheWorld.run, List.foldl_append]
    exact ih.step event

/-- **Lookups are independent of the cache** in every run whose lookups
fit. -/
theorem lookups_served (events : List (CacheEvent ι))
    (h : EveryGet files cfg events (Fits files cfg)) : EveryGet files cfg events (Served files cfg) := by
  intro history i addr ksym saveOk rest st hevents hi
  obtain ⟨hmiss, hhit⟩ := h history i addr ksym saveOk rest st hevents hi
  have hsound := cacheSound_run files cfg history
  have hresult : (get files (cfg i) saveOk (CacheWorld.run files cfg history).file st addr ksym).1 =
      uncached files (cfg i) addr ksym := by
    cases haddr : st.cache.cache addr with
    | none =>
      obtain ⟨hcreated, hfound⟩ := hmiss haddr
      exact get_of_miss (hsound.kmods i st hi) haddr hcreated hfound
    | some e =>
      obtain ⟨i', sym', saveOk', hmem, hbpf, hentry⟩ := hsound.cache i st hi addr e haddr
      have htarget := hhit (by simp [haddr]) i' sym' saveOk' e hmem hbpf hentry
      simp only [get, haddr]
      exact (uncached_of_sameTarget htarget hentry).symm
  exact ⟨hresult, hresult ▸ uncached_ne_nilDereference⟩

end Runs

/-! ### Two boots -/

/-- A kernel whose line of an address is the address. -/
def lineIsAddress : DebugFiles where
  vmlinux := some fun addr => .ok { func := "", file := bpfSyscallFile, line := addr.toNat }
  kmods _ := .notFound

/-- The kernel is loaded 0x1000 higher at the second boot. -/
def twoBoots (second : Bool) : RunConfig where
  kaslr := { kaddr := if second then 0x2000 else 0x1000, saddr := 0x1000 }
  sysBPF := 0x5000
  stext := 0x1000

def kernelSym : KsymEntry := { mod := "" }

/-- A process of the first boot looks thirty addresses up, and saves them. -/
def firstBoot : List (CacheEvent Bool) :=
  .start false :: (List.range cacheBatchLimit).map fun n =>
    .get false (0x3000 + BitVec.ofNat 64 n) (some kernelSym) true

/-- At the second boot, the line of 0x3000 is that of the first. -/
theorem second_boot_finds_first :
    (((CacheWorld.run lineIsAddress twoBoots (firstBoot ++ [.start true])).runs true).map fun st =>
        (get lineIsAddress (twoBoots true) true
          (CacheWorld.run lineIsAddress twoBoots (firstBoot ++ [.start true])).file st 0x3000
          (some kernelSym)).1) =
        some (.entry { func := "", file := bpfSyscallFile, line := 0x3000 }) ∧
      uncached lineIsAddress (twoBoots true) 0x3000 (some kernelSym) =
        .entry { func := "", file := bpfSyscallFile, line := 0x2000 } := by
  decide +kernel

/-- Without a symbol, a line that is found is a nil dereference. -/
theorem no_symbol_panics :
    ((CacheWorld.run lineIsAddress twoBoots [.start false]).runs false).map (fun st =>
        (get lineIsAddress (twoBoots false) true none st 0x3000 none).1) = some .nilDereference := by
  rfl

/-- The first process looks 0x3000 up twice: the line comes from the kernel's
debug file, and then from the cache. -/
theorem second_lookup_served :
    ((CacheWorld.run lineIsAddress twoBoots [.start false, .get false 0x3000 (some kernelSym) true]).runs
        false).map (·.cache.cache 0x3000) = some (some { func := "", file := bpfSyscallFile, line := 0x3000 }) ∧
    EveryGet lineIsAddress twoBoots
      [.start false, .get false 0x3000 (some kernelSym) true, .get false 0x3000 (some kernelSym) true]
      (Served lineIsAddress twoBoots) := by
  refine ⟨by decide +kernel, lookups_served _ ?_⟩
  intro history i addr ksym saveOk rest st hevents hi
  obtain _ | ⟨_, _ | ⟨_, _ | ⟨_, _⟩⟩⟩ := history
  · simp at hevents
  · simp only [List.cons_append, List.nil_append, List.cons.injEq, CacheEvent.get.injEq] at hevents
    obtain ⟨rfl, ⟨rfl, rfl, rfl, rfl⟩, -⟩ := hevents
    cases hi
    exact ⟨fun _ => ⟨by decide, fun _ _ => ⟨kernelSym, rfl, .inl rfl⟩⟩, fun h => absurd rfl h⟩
  · simp only [List.cons_append, List.nil_append, List.cons.injEq, CacheEvent.get.injEq] at hevents
    obtain ⟨rfl, rfl, ⟨rfl, rfl, rfl, rfl⟩, -⟩ := hevents
    cases hi
    refine ⟨fun hmiss => ?_, fun _ i' sym' saveOk' e hmem _ _ => ?_⟩
    · cases hmiss
    · simp only [List.mem_cons, List.not_mem_nil, or_false, reduceCtorEq, false_or, CacheEvent.get.injEq,
        Option.some.injEq] at hmem
      obtain ⟨rfl, -, rfl, -⟩ := hmem
      exact ⟨rfl, rfl⟩
  · simp at hevents
end Bpfsnoop.Trace
