/-
Bpfsnoop.Trace.LbrStack — grouping the entries of a last branch record.

The entries are pushed from the last one to the first. An entry joins the
record of the entry before where it begins in the function that this one
ended in, and begins a record of its own otherwise. `pushEntry` keeps two
positions by hand, that of the last record and in each record that of its
last entry; `Grouped` is the invariant that both point where they should
(`pushEntry_grouped`). It makes the records the runs of
`List.splitBy` (`Grouped.splitBy`), in any cycle of the main loop
(`lbr_grouping`).

An end point has the fields that grouping reads. Slices are lists: behind
the length of a slice nothing is read.
-/
import Bpfsnoop.CC.Syntax
import Mathlib.Data.List.SplitBy
import Mathlib.Order.Bounds.Basic

namespace Bpfsnoop.Trace

open CC (GoError)

/-! ## The code -/

/-- `branchEndpoint`. -/
structure BranchEndpoint where
  funcName : String
  endpointName : String
  lineInfo : String

/-- `branchEntry`. -/
structure BranchEntry where
  from_ : BranchEndpoint
  to_ : BranchEndpoint

/-- `branchRecord`. -/
structure BranchRecord where
  entries : List BranchEntry
  last : Int
  maxFromNameLen : Nat := 0
  maxFromLinfoLen : Nat := 0
  maxToNameLen : Nat := 0
  maxToLinfoLen : Nat := 0

def BranchRecord.addEntry (r : BranchRecord) (entry : BranchEntry) : BranchRecord where
  entries := r.entries ++ [entry]
  last := r.last + 1
  maxFromNameLen := max r.maxFromNameLen entry.from_.endpointName.utf8ByteSize
  maxFromLinfoLen := max r.maxFromLinfoLen entry.from_.lineInfo.utf8ByteSize
  maxToNameLen := max r.maxToNameLen entry.to_.endpointName.utf8ByteSize
  maxToLinfoLen := max r.maxToLinfoLen entry.to_.lineInfo.utf8ByteSize

def newBranchRecord (entry : BranchEntry) : BranchRecord :=
  BranchRecord.addEntry { entries := [], last := -1 } entry

/-- `lbrStack`. -/
structure LbrStack where
  last : Int
  stack : List BranchRecord

def newLBRStack : LbrStack where
  last := 0
  stack := []

/-- The element at a position of a slice. -/
def elemAt {α : Type} (l : List α) (i : Int) : Except GoError α :=
  if i < 0 then .error (.panic "index out of range")
  else
    match l[i.toNat]? with
    | some a => .ok a
    | none => .error (.panic "index out of range")

namespace LbrStack

/-- `s.stack[:0]`; what is appended later overwrites the old records. -/
def reset (_ : LbrStack) : LbrStack where
  last := 0
  stack := []

def addRecord (s : LbrStack) (record : BranchRecord) : LbrStack where
  last := s.last + 1
  stack := s.stack ++ [record]

def pushFirstEntry (s : LbrStack) (entry : BranchEntry) : LbrStack :=
  { s with stack := s.stack ++ [newBranchRecord entry] }

def pushEntry (s : LbrStack) (entry : BranchEntry) : Except GoError LbrStack := do
  let lastRecord ← elemAt s.stack s.last
  let lastEntry ← elemAt lastRecord.entries lastRecord.last
  let sameCallStack := lastEntry.to_.funcName = entry.from_.funcName
  if sameCallStack then return { s with stack := s.stack.set s.last.toNat (lastRecord.addEntry entry) }
  else return s.addRecord (newBranchRecord entry)

/-- The end of `get`: the entries from the last one on. -/
def pushEntries (s : LbrStack) (lbrEntries : List BranchEntry) : Except GoError LbrStack :=
  match lbrEntries.reverse with
  | [] => .error (.panic "index out of range")
  | entry :: entries => entries.foldlM pushEntry (s.pushFirstEntry entry)

/-- One event of the main loop; without entries `get` is not called. -/
def cycle (s : LbrStack) (lbrEntries : List BranchEntry) : Except GoError LbrStack :=
  if lbrEntries = [] then .ok s.reset else s.reset.pushEntries lbrEntries

end LbrStack

/-! ## The invariant -/

/-- The greatest length over some entries. -/
def Maximum (entries : List BranchEntry) (len : BranchEntry → Nat) (n : Nat) : Prop :=
  IsGreatest {m | ∃ entry ∈ entries, len entry = m} n

/-- A record of entries of one call stack. -/
structure BranchRecord.WellFormed (r : BranchRecord) : Prop where
  chain : r.entries.IsChain fun e e' => e'.from_.funcName = e.to_.funcName
  last : 0 ≤ r.last ∧ r.last + 1 = r.entries.length
  maxFromNameLen : Maximum r.entries (·.from_.endpointName.utf8ByteSize) r.maxFromNameLen
  maxFromLinfoLen : Maximum r.entries (·.from_.lineInfo.utf8ByteSize) r.maxFromLinfoLen
  maxToNameLen : Maximum r.entries (·.to_.endpointName.utf8ByteSize) r.maxToNameLen
  maxToLinfoLen : Maximum r.entries (·.to_.lineInfo.utf8ByteSize) r.maxToLinfoLen

/-- **The stack holds the entries pushed, in records that could not be
longer.** -/
structure Grouped (pushed : List BranchEntry) (s : LbrStack) : Prop where
  entries : s.stack.flatMap (·.entries) = pushed
  records : ∀ r ∈ s.stack, r.WellFormed
  apart : s.stack.IsChain fun r r' =>
    ∀ e ∈ r.entries.getLast?, ∀ e' ∈ r'.entries.head?, e'.from_.funcName ≠ e.to_.funcName
  last : 0 ≤ s.last ∧ s.last + 1 = s.stack.length

/-! ## Pushing -/

section Push

variable {pushed : List BranchEntry} {s : LbrStack} {r : BranchRecord} {entry : BranchEntry}

theorem Maximum.addEntry {entries : List BranchEntry} {len : BranchEntry → Nat} {n : Nat} (h : Maximum entries len n) :
    Maximum (entries ++ [entry]) len (max n (len entry)) := by
  have hset : {m | ∃ e ∈ entries ++ [entry], len e = m} = {m | ∃ e ∈ entries, len e = m} ∪ {len entry} := by
    ext m
    simp [or_and_right, exists_or, eq_comm, or_comm]
  rw [Maximum, hset]
  exact h.union isGreatest_singleton

theorem maximum_singleton (len : BranchEntry → Nat) : Maximum [entry] len (max 0 (len entry)) := by
  have hset : {m | ∃ e ∈ [entry], len e = m} = {len entry} := by
    ext m
    simp [eq_comm]
  rw [Maximum, hset, Nat.zero_max]
  exact isGreatest_singleton

theorem newBranchRecord_wellFormed (entry : BranchEntry) : (newBranchRecord entry).WellFormed where
  chain := List.isChain_singleton entry
  last := ⟨Int.le_refl 0, rfl⟩
  maxFromNameLen := maximum_singleton _
  maxFromLinfoLen := maximum_singleton _
  maxToNameLen := maximum_singleton _
  maxToLinfoLen := maximum_singleton _

/-- A record with its last entry. -/
theorem BranchRecord.WellFormed.getLast (h : r.WellFormed) :
    ∃ lastEntry, r.entries.getLast? = some lastEntry ∧ elemAt r.entries r.last = .ok lastEntry := by
  have hlast := h.last
  have hlt : r.last.toNat < r.entries.length := by omega
  refine ⟨r.entries[r.last.toNat], ?_, ?_⟩
  · have hpred : r.entries.length - 1 = r.last.toNat := by omega
    rw [List.getLast?_eq_getElem?, hpred, List.getElem?_eq_getElem hlt]
  · rw [elemAt, if_neg (by omega), List.getElem?_eq_getElem hlt]

theorem BranchRecord.WellFormed.addEntry {lastEntry : BranchEntry} (h : r.WellFormed)
    (hlast : r.entries.getLast? = some lastEntry) (hsame : lastEntry.to_.funcName = entry.from_.funcName) :
    (r.addEntry entry).WellFormed where
  chain := by
    refine List.isChain_append.mpr ⟨h.chain, List.isChain_singleton entry, ?_⟩
    intro e he e' he'
    obtain rfl : lastEntry = e := Option.some.inj (hlast.symm.trans he)
    obtain rfl : entry = e' := Option.some.inj he'
    exact hsame.symm
  last := by
    have hpos := h.last
    simp only [BranchRecord.addEntry, List.length_append, List.length_singleton]
    omega
  maxFromNameLen := h.maxFromNameLen.addEntry
  maxFromLinfoLen := h.maxFromLinfoLen.addEntry
  maxToNameLen := h.maxToNameLen.addEntry
  maxToLinfoLen := h.maxToLinfoLen.addEntry

/-- The last record of a stack. -/
theorem Grouped.getLast (h : Grouped pushed s) :
    ∃ records record, s.stack = records ++ [record] ∧ s.last = records.length ∧ record.WellFormed := by
  have hlast := h.last
  rcases List.eq_nil_or_concat s.stack with hnil | ⟨records, record, hstack⟩
  · rw [hnil, List.length_nil] at hlast
    omega
  · rw [List.concat_eq_append] at hstack
    rw [hstack, List.length_append, List.length_singleton] at hlast
    exact ⟨records, record, hstack, by omega, h.records record (by simp [hstack])⟩

theorem pushFirstEntry_grouped (s : LbrStack) (entry : BranchEntry) :
    Grouped [entry] (s.reset.pushFirstEntry entry) where
  entries := rfl
  records := by
    intro r hr
    rw [List.mem_singleton.mp hr]
    exact newBranchRecord_wellFormed entry
  apart := List.isChain_singleton _
  last := ⟨Int.le_refl 0, rfl⟩

/-- An entry that begins in another function. -/
theorem addRecord_grouped {lastEntry : BranchEntry} {records : List BranchRecord} (h : Grouped pushed s)
    (hstack : s.stack = records ++ [r]) (hlast : r.entries.getLast? = some lastEntry)
    (hother : lastEntry.to_.funcName ≠ entry.from_.funcName) :
    Grouped (pushed ++ [entry]) (s.addRecord (newBranchRecord entry)) where
  entries := by
    rw [LbrStack.addRecord, List.flatMap_append, h.entries]
    rfl
  records := by
    intro r' hr'
    rcases List.mem_append.mp hr' with hmem | hmem
    · exact h.records r' hmem
    · rw [List.mem_singleton.mp hmem]
      exact newBranchRecord_wellFormed entry
  apart := by
    refine List.isChain_append.mpr ⟨h.apart, List.isChain_singleton _, ?_⟩
    intro r₁ hr₁ r₂ hr₂ e he e' he'
    rw [hstack, List.getLast?_append, List.getLast?_singleton, Option.some_or] at hr₁
    obtain rfl : r = r₁ := Option.some.inj hr₁
    obtain rfl : newBranchRecord entry = r₂ := Option.some.inj hr₂
    obtain rfl : lastEntry = e := Option.some.inj (hlast.symm.trans he)
    obtain rfl : entry = e' := Option.some.inj he'
    exact hother.symm
  last := by
    have hpos := h.last
    simp only [LbrStack.addRecord, List.length_append, List.length_singleton]
    omega

/-- One that begins where the last one ended. -/
theorem addEntry_grouped {lastEntry : BranchEntry} {records : List BranchRecord} (h : Grouped pushed s)
    (hstack : s.stack = records ++ [r]) (hlast : r.entries.getLast? = some lastEntry)
    (hsame : lastEntry.to_.funcName = entry.from_.funcName) :
    Grouped (pushed ++ [entry]) { s with stack := records ++ [r.addEntry entry] } where
  entries := by
    have hentries := h.entries
    rw [hstack, List.flatMap_append, List.flatMap_singleton] at hentries
    rw [List.flatMap_append, List.flatMap_singleton, ← hentries, List.append_assoc]
    rfl
  records := by
    intro r' hr'
    rcases List.mem_append.mp hr' with hmem | hmem
    · exact h.records r' (by simp [hstack, hmem])
    · rw [List.mem_singleton.mp hmem]
      exact (h.records r (by simp [hstack])).addEntry hlast hsame
  apart := by
    have hapart := h.apart
    rw [hstack] at hapart
    obtain ⟨hchain, -, hjoint⟩ := List.isChain_append.mp hapart
    refine List.isChain_append.mpr ⟨hchain, List.isChain_singleton _, ?_⟩
    intro r₁ hr₁ r₂ hr₂ e he e' he'
    obtain rfl : r.addEntry entry = r₂ := Option.some.inj hr₂
    -- the record has kept its first entry
    refine hjoint r₁ hr₁ r rfl e he e' ?_
    have hne : r.entries ≠ [] := by
      rintro hnil
      rw [hnil] at hlast
      cases hlast
    rw [← List.head?_append_of_ne_nil _ hne]
    exact he'
  last := by
    have hpos := h.last
    rw [hstack, List.length_append, List.length_singleton] at hpos
    simpa only [List.length_append, List.length_singleton] using hpos

/-- **One push.** -/
theorem pushEntry_grouped (h : Grouped pushed s) (entry : BranchEntry) :
    ∃ s', s.pushEntry entry = .ok s' ∧ Grouped (pushed ++ [entry]) s' := by
  obtain ⟨records, record, hstack, hlast, hrecord⟩ := h.getLast
  obtain ⟨lastEntry, hgetLast, helem⟩ := hrecord.getLast
  have hread : elemAt s.stack s.last = .ok record := by
    rw [elemAt, if_neg (by omega), hlast, Int.toNat_natCast, hstack, List.getElem?_concat_length]
  unfold LbrStack.pushEntry
  simp only [hread, helem, bind, Except.bind, pure, Except.pure]
  by_cases hsame : lastEntry.to_.funcName = entry.from_.funcName
  · have hset : s.stack.set s.last.toNat (record.addEntry entry) = records ++ [record.addEntry entry] := by
      rw [hlast, Int.toNat_natCast, hstack, List.set_append_right _ _ (Nat.le_refl _), Nat.sub_self,
        List.set_cons_zero]
    refine ⟨_, if_pos hsame, ?_⟩
    rw [hset]
    exact addEntry_grouped h hstack hgetLast hsame
  · exact ⟨_, if_neg hsame, addRecord_grouped h hstack hgetLast hsame⟩

/-- Any number of pushes. -/
theorem foldlM_pushEntry_grouped (h : Grouped pushed s) (entries : List BranchEntry) :
    ∃ s', entries.foldlM LbrStack.pushEntry s = .ok s' ∧ Grouped (pushed ++ entries) s' := by
  induction entries generalizing pushed s with
  | nil => exact ⟨s, rfl, by rwa [List.append_nil]⟩
  | cons entry entries ih =>
    obtain ⟨s₁, hpush, hs₁⟩ := pushEntry_grouped h entry
    obtain ⟨s₂, hrest, hs₂⟩ := ih hs₁
    refine ⟨s₂, ?_, ?_⟩
    · rw [List.foldlM_cons, hpush]
      exact hrest
    · rwa [List.append_assoc] at hs₂

end Push

/-- The records are the longest runs of one call stack. -/
theorem Grouped.splitBy {pushed : List BranchEntry} {s : LbrStack} (h : Grouped pushed s) :
    s.stack.map (·.entries) = pushed.splitBy fun e e' => e'.from_.funcName = e.to_.funcName := by
  have hne {r : BranchRecord} (hr : r ∈ s.stack) : r.entries ≠ [] := by
    obtain ⟨lastEntry, hlast, -⟩ := (h.records r hr).getLast
    rintro hnil
    rw [hnil] at hlast
    cases hlast
  refine (List.splitBy_eq_iff.mpr ⟨?_, ?_, ?_, ?_⟩).symm
  · rw [← h.entries, List.flatMap_def]
  · intro hnil
    obtain ⟨r, hr, hempty⟩ := List.mem_map.mp hnil
    exact hne hr hempty
  · intro entries hentries
    obtain ⟨r, hr, rfl⟩ := List.mem_map.mp hentries
    simpa using (h.records r hr).chain
  · rw [List.isChain_map]
    refine h.apart.imp_of_mem_imp fun r r' hr hr' hapart => ?_
    exact ⟨hne hr, hne hr', decide_eq_false
      (hapart _ (List.getLast_mem_getLast? (hne hr)) _ (List.head_mem_head? (hne hr')))⟩

/-! ## The main loop -/

/-- An event with entries. -/
theorem cycle_grouped (s : LbrStack) {lbrEntries : List BranchEntry} (hne : lbrEntries ≠ []) :
    ∃ s', s.cycle lbrEntries = .ok s' ∧ Grouped lbrEntries.reverse s' := by
  rw [LbrStack.cycle, if_neg hne, LbrStack.pushEntries]
  cases hrev : lbrEntries.reverse with
  | nil => exact absurd (List.reverse_eq_nil_iff.mp hrev) hne
  | cons entry entries => exact foldlM_pushEntry_grouped (pushFirstEntry_grouped s entry) entries

/-- Any number of events. -/
theorem foldlM_cycle (s : LbrStack) (events : List (List BranchEntry)) :
    ∃ s', events.foldlM LbrStack.cycle s = .ok s' := by
  induction events generalizing s with
  | nil => exact ⟨s, rfl⟩
  | cons lbrEntries events ih =>
    have hcycle : ∃ s', s.cycle lbrEntries = .ok s' := by
      by_cases hne : lbrEntries = []
      · exact ⟨s.reset, if_pos hne⟩
      · obtain ⟨s', hs', -⟩ := cycle_grouped s hne
        exact ⟨s', hs'⟩
    obtain ⟨s₁, hs₁⟩ := hcycle
    rw [List.foldlM_cons, hs₁]
    exact ih s₁

/-- **Grouping.** -/
theorem lbr_grouping (events : List (List BranchEntry)) {lbrEntries : List BranchEntry} (hne : lbrEntries ≠ []) :
    ∃ s, (events ++ [lbrEntries]).foldlM LbrStack.cycle newLBRStack = .ok s ∧ Grouped lbrEntries.reverse s := by
  obtain ⟨s₁, hs₁⟩ := foldlM_cycle newLBRStack events
  obtain ⟨s₂, hs₂, hgrouped⟩ := cycle_grouped s₁ hne
  refine ⟨s₂, ?_, hgrouped⟩
  rw [List.foldlM_append, hs₁]
  dsimp only [bind, Except.bind]
  rw [List.foldlM_cons, hs₂]
  rfl

/-- A call and its return, after an event without entries and one with one. -/
theorem call_and_return_grouped :
    let foo : BranchEndpoint := ⟨"foo", "foo+0x10", "(foo.c:1)"⟩
    let bar : BranchEndpoint := ⟨"bar", "bar+0x0", ""⟩
    let events : List (List BranchEntry) := [[], [⟨foo, foo⟩]]
    let lbrEntries : List BranchEntry := [⟨bar, foo⟩, ⟨foo, bar⟩]
    ∃ s, (events ++ [lbrEntries]).foldlM LbrStack.cycle newLBRStack = .ok s ∧ Grouped [⟨foo, bar⟩, ⟨bar, foo⟩] s :=
  lbr_grouping _ (List.cons_ne_nil _ _)

end Bpfsnoop.Trace
