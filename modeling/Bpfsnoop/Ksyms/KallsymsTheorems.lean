/-
Bpfsnoop.Ksyms.KallsymsTheorems — what the tables of `NewKallsyms` hold.

While the file is read, the entries made so far and both tables are
functions of the text symbols read so far (`Scanned`): the table by name
holds the position of the first line of a name, the table by address that
of the last line of an address, and an entry is marked if its name stands
on another line as well. `addEntry_scanned` is the step, and everything
else on a line leaves this alone.
-/
import Bpfsnoop.Ksyms.Kallsyms
import Bpfsnoop.Lib.Positions
import Bpfsnoop.Lib.Runs

namespace Bpfsnoop.Ksyms

open Ebpf Lib

/-! ## Entries as a function of the lines -/

/-- The addresses a name has, in the order of the lines. -/
def addrsOf (occs : List Occurrence) (name : String) : List Word :=
  (occs.filter (·.name = name)).map (·.addr)

@[simp] theorem addrsOf_concat (occs : List Occurrence) (o : Occurrence) (name : String) :
    addrsOf (occs ++ [o]) name = addrsOf occs name ++ (if o.name = name then [o.addr] else []) := by
  by_cases h : o.name = name <;> simp [addrsOf, h]

theorem addrsOf_eq_nil {occs : List Occurrence} {name : String} :
    addrsOf occs name = [] ↔ name ∉ occs.map (·.name) := by
  simp [addrsOf, List.filter_eq_nil_iff]

theorem repeated_iff {occs : List Occurrence} {name : String} :
    Repeated occs name ↔ 2 ≤ (addrsOf occs name).length := by
  rw [Repeated, addrsOf, List.count, List.countP_map, List.countP_eq_length_filter, List.length_map]
  simp only [Function.comp_def, beq_eq_decide]

/-- The entry of the line at a position, once all the lines are read. -/
def entryAt (occs : List Occurrence) (i : Nat) (o : Occurrence) : KsymEntry where
  addr := o.addr
  name := o.name
  mod := o.mod
  extra := if occs.findIdx? (·.name = o.name) = some i then (addrsOf occs o.name).tail else []
  duped := decide (Repeated occs o.name)

/-- **The invariant of the scan.** -/
structure Scanned (occs : List Occurrence) (ks : Kallsyms) : Prop where
  entries : ks.entries = occs.mapIdx (entryAt occs)
  byName : KeepsFirst (·.name) occs ks.n2s
  byAddr : KeepsLast (·.addr) occs ks.a2s

theorem empty_scanned : Scanned [] .empty where
  entries := rfl
  byName := KeepsFirst.nil
  byAddr := KeepsLast.nil

/-! ## A text symbol more -/

section Step

variable {occs : List Occurrence} {o : Occurrence} {ks : Kallsyms}

/-- The first line of a name stays the first. -/
theorem first_concat {i : Nat} (hi : i < occs.length) {name : String} :
    (occs ++ [o]).findIdx? (·.name = name) = some i ↔ occs.findIdx? (·.name = name) = some i := by
  rw [List.findIdx?_append]
  cases occs.findIdx? (·.name = name) with
  | some q => simp
  | none =>
    by_cases ho : o.name = name
    · simp [ho]
      omega
    · simp [ho]

theorem repeated_concat_of_ne {name : String} (hne : o.name ≠ name) :
    Repeated (occs ++ [o]) name ↔ Repeated occs name := by
  simp [repeated_iff, hne]

theorem repeated_concat_self : Repeated (occs ++ [o]) o.name ↔ o.name ∈ occs.map (·.name) := by
  rw [← not_iff_not, ← addrsOf_eq_nil, ← List.length_eq_zero_iff, repeated_iff]
  simp

/-- A name stands on two lines. -/
theorem repeated_of_two {i j : Nat} {o' : Occurrence} (hij : i < j) (hi : occs[i]? = some o)
    (hj : occs[j]? = some o') (heq : o.name = o'.name) : Repeated occs o.name := by
  obtain ⟨hilt, rfl⟩ := List.getElem?_eq_some_iff.mp hi
  obtain ⟨hjlt, rfl⟩ := List.getElem?_eq_some_iff.mp hj
  rw [Repeated, ← List.duplicate_iff_two_le_count, List.duplicate_iff_exists_distinct_get]
  exact ⟨⟨i, by simpa using hilt⟩, ⟨j, by simpa using hjlt⟩, hij, by simp, by simpa using heq⟩

/-- A line of another name leaves an entry as it is. -/
theorem entryAt_concat_of_ne {i : Nat} {o' : Occurrence} (hi : i < occs.length) (hne : o.name ≠ o'.name) :
    entryAt (occs ++ [o]) i o' = entryAt occs i o' := by
  simp only [entryAt, first_concat hi, repeated_concat_of_ne hne, addrsOf_concat, hne, if_false,
    List.append_nil]

/-- A line of the same name marks an entry, and is added to the addresses
of the first one. -/
theorem entryAt_concat_of_eq {i : Nat} {o' : Occurrence} (hi : occs[i]? = some o') (heq : o.name = o'.name) :
    entryAt (occs ++ [o]) i o' =
      { entryAt occs i o' with
        extra := if occs.findIdx? (·.name = o.name) = some i then (entryAt occs i o').extra ++ [o.addr] else []
        duped := true } := by
  obtain ⟨hlt, hget⟩ := List.getElem?_eq_some_iff.mp hi
  have hmem : o.name ∈ occs.map (·.name) :=
    List.mem_map.mpr ⟨o', hget ▸ List.getElem_mem hlt, heq.symm⟩
  have hdup : Repeated (occs ++ [o]) o'.name := heq ▸ repeated_concat_self.mpr hmem
  have hne : addrsOf occs o'.name ≠ [] := fun h => addrsOf_eq_nil.mp h (heq ▸ hmem)
  simp only [entryAt, first_concat hlt, hdup, addrsOf_concat, heq, if_true, decide_true,
    List.tail_append_of_ne_nil hne]
  split <;> simp_all

/-- The entry of the line itself. -/
theorem entryAt_concat_last :
    entryAt (occs ++ [o]) occs.length o =
      { addr := o.addr, name := o.name, mod := o.mod, extra := []
        duped := decide (o.name ∈ occs.map (·.name)) } := by
  have hextra : (if (occs ++ [o]).findIdx? (·.name = o.name) = some occs.length
      then (addrsOf (occs ++ [o]) o.name).tail else []) = [] := by
    split
    · rename_i hfirst
      have hnone : occs.findIdx? (·.name = o.name) = none := by
        rw [List.findIdx?_append] at hfirst
        cases hq : occs.findIdx? (·.name = o.name) with
        | none => rfl
        | some q =>
          have hlt := (List.findIdx?_eq_some_iff_getElem.mp hq).1
          simp [hq] at hfirst
          omega
      have hnew : o.name ∉ occs.map (·.name) := by
        simpa [List.findIdx?_eq_none_iff] using hnone
      simp [addrsOf_eq_nil.mpr hnew]
    · rfl
  simp only [entryAt, hextra, repeated_concat_self]

/-- A line of a new name. -/
theorem entries_of_new (hnew : o.name ∉ occs.map (·.name)) :
    (occs ++ [o]).mapIdx (entryAt (occs ++ [o])) =
      occs.mapIdx (entryAt occs) ++
        [{ addr := o.addr, name := o.name, mod := o.mod, extra := [], duped := false }] := by
  rw [List.mapIdx_concat, entryAt_concat_last, decide_eq_false hnew]
  congr 1
  apply List.ext_getElem?
  intro i
  rw [List.getElem?_mapIdx, List.getElem?_mapIdx]
  cases hi : occs[i]? with
  | none => rfl
  | some o' =>
    obtain ⟨hlt, hget⟩ := List.getElem?_eq_some_iff.mp hi
    have hne : o.name ≠ o'.name :=
      fun heq => hnew (List.mem_map.mpr ⟨o', hget ▸ List.getElem_mem hlt, heq.symm⟩)
    simp only [Option.map_some, entryAt_concat_of_ne hlt hne]

/-- A line of a known name. -/
theorem entries_of_known {q : Nat} (hq : occs.findIdx? (·.name = o.name) = some q) :
    (occs ++ [o]).mapIdx (entryAt (occs ++ [o])) =
      (occs.mapIdx (entryAt occs)).modify q (fun s => { s with extra := s.extra ++ [o.addr], duped := true }) ++
        [{ addr := o.addr, name := o.name, mod := o.mod, extra := [], duped := true }] := by
  obtain ⟨hqlt, hqname, hqfirst⟩ := List.findIdx?_eq_some_iff_getElem.mp hq
  have hmem : o.name ∈ occs.map (·.name) :=
    List.mem_map.mpr ⟨occs[q], List.getElem_mem hqlt, by simpa using hqname⟩
  rw [List.mapIdx_concat, entryAt_concat_last, decide_eq_true hmem]
  congr 1
  apply List.ext_getElem?
  intro i
  rw [List.getElem?_modify, List.getElem?_mapIdx, List.getElem?_mapIdx]
  cases hi : occs[i]? with
  | none => simp
  | some o' =>
    obtain ⟨hlt, hget⟩ := List.getElem?_eq_some_iff.mp hi
    simp only [Option.map_some]
    by_cases heq : o.name = o'.name
    · rw [entryAt_concat_of_eq hi heq, hq]
      by_cases hqi : q = i
      · simp [hqi]
      · -- an entry of this name that is not the first is marked already
        have hqlt' : q < i := by
          by_contra hge
          have hbefore := hqfirst i (by omega)
          rw [hget] at hbefore
          simp [heq] at hbefore
        have hdup : Repeated occs o'.name := by
          have hqget : occs[q]? = some occs[q] := List.getElem?_eq_getElem hqlt
          have hname : occs[q].name = o'.name := by simpa [heq] using hqname
          exact hname ▸ repeated_of_two hqlt' hqget hi hname
        have hextra : occs.findIdx? (·.name = o'.name) ≠ some i := by
          rw [← heq, hq]
          simpa using hqi
        simp [hqi, entryAt, hdup, hextra]
    · have hqi : q ≠ i := by
        rintro rfl
        rw [hget] at hqname
        simp at hqname
        exact heq hqname.symm
      simp [hqi, entryAt_concat_of_ne hlt heq]

/-- **A text symbol keeps the invariant.** -/
theorem addEntry_scanned (h : Scanned occs ks) :
    Scanned (occs ++ [o]) (ks.addEntry o.addr o.name o.mod) := by
  have hlen : ks.entries.length = occs.length := by simp [h.entries]
  have hbyAddr : KeepsLast (·.addr) (occs ++ [o]) (ks.a2s.insert o.addr ks.entries.length) :=
    hlen ▸ h.byAddr.insert
  unfold Kallsyms.addEntry
  cases hn : ks.n2s.lookup o.name with
  | some q =>
    have hq : occs.findIdx? (·.name = o.name) = some q := by rw [← h.byName, hn]
    exact {
      entries := by simpa [h.entries] using (entries_of_known hq).symm
      byName := h.byName.known hn
      byAddr := hbyAddr }
  | none =>
    have hnew : o.name ∉ occs.map (·.name) := by
      have hnone := h.byName o.name
      rw [hn] at hnone
      simpa [List.findIdx?_eq_none_iff] using hnone.symm
    exact {
      entries := by simpa [h.entries] using (entries_of_new hnew).symm
      byName := by simpa [hlen] using h.byName.new hn
      byAddr := hbyAddr }

end Step

/-! ## A line more -/

section Line

variable {occs : List Occurrence} {ks ks' : Kallsyms} {sysBPFSymbol line : String}

/-- The invariant is about the entries and the two tables. -/
theorem Scanned.of_eq (h : Scanned occs ks) (hentries : ks'.entries = ks.entries) (hn2s : ks'.n2s = ks.n2s)
    (ha2s : ks'.a2s = ks.a2s) : Scanned occs ks' where
  entries := hentries ▸ h.entries
  byName := hn2s ▸ h.byName
  byAddr := ha2s ▸ h.byAddr

theorem setData_scanned (h : Scanned occs ks) (name : String) (addr : Word) :
    Scanned occs (ks.setData name addr) := by
  unfold Kallsyms.setData
  split
  · exact h.of_eq rfl rfl rfl
  split
  · exact h.of_eq rfl rfl rfl
  split
  · exact h.of_eq rfl rfl rfl
  · exact h

theorem setText_scanned (h : Scanned occs ks) (name : String) (addr : Word) :
    Scanned occs (ks.setText sysBPFSymbol name addr) := by
  unfold Kallsyms.setText
  split
  · exact h.of_eq rfl rfl rfl
  split
  · exact h.of_eq rfl rfl rfl
  · exact setData_scanned h name addr

theorem addMod_scanned (h : Scanned occs ks) (mod : String) : Scanned occs (ks.addMod mod) := by
  unfold Kallsyms.addMod
  split
  · exact h.of_eq rfl rfl rfl
  · exact h

/-- **A line keeps the invariant.** -/
theorem scanLine_scanned (h : Scanned occs ks) (hok : ks.scanLine sysBPFSymbol line = .ok ks') :
    Scanned (occs ++ (textSymbol line).toList) ks' := by
  unfold Kallsyms.scanLine at hok
  unfold textSymbol
  match hf : fields line with
  | [] | [_] | [_, _] =>
    simp only [hf, Except.ok.injEq] at hok
    simpa [hok] using h
  | addr :: typ :: name :: rest =>
    simp only [hf] at hok ⊢
    by_cases ht : typ = "t" ∨ typ = "T"
    · simp only [ht, if_true] at hok ⊢
      cases ha : parseUint addr with
      | none => simp [ha] at hok
      | some a =>
        simp only [ha, Except.ok.injEq] at hok
        subst hok
        cases rest with
        | nil => exact addMod_scanned (setText_scanned (addEntry_scanned (o := ⟨a, name, ""⟩) h) name a) _
        | cons mod rest =>
          exact addMod_scanned (setText_scanned (addEntry_scanned (o := ⟨a, name, trimBrackets mod⟩) h) name a) _
    · simp only [ht, if_false, Option.toList_none, List.append_nil] at hok ⊢
      split at hok
      · split at hok
        · split at hok
          · cases hok
          · exact Except.ok.inj hok ▸ setData_scanned h name _
        · exact Except.ok.inj hok ▸ h
      · split at hok
        · split at hok
          · split at hok
            · cases hok
            · exact Except.ok.inj hok ▸ h.of_eq rfl rfl rfl
          · exact Except.ok.inj hok ▸ h
        · exact Except.ok.inj hok ▸ h

/-- A line is refused only for its address. -/
theorem scanLine_isOk (h : ∀ addr ∈ (fields line).head?, (parseUint addr).isSome) :
    ∃ ks', ks.scanLine sysBPFSymbol line = .ok ks' := by
  unfold Kallsyms.scanLine
  match hf : fields line with
  | [] | [_] | [_, _] => exact ⟨ks, rfl⟩
  | addr :: typ :: name :: rest =>
    obtain ⟨a, ha⟩ := Option.isSome_iff_exists.mp (h addr (by simp [hf]))
    simp only [ha]
    split
    · exact ⟨_, rfl⟩
    split
    · split <;> exact ⟨_, rfl⟩
    split
    · split <;> exact ⟨_, rfl⟩
    · exact ⟨_, rfl⟩

end Line

/-! ## The whole file -/

/-- `ks.a2s[addr]`. -/
def Kallsyms.symOfAddr (ks : Kallsyms) (addr : Word) : Option KsymEntry :=
  (ks.a2s.lookup addr).bind (ks.entries[·]?)

/-- `ks.n2s[name]`. -/
def Kallsyms.symOfName (ks : Kallsyms) (name : String) : Option KsymEntry :=
  (ks.n2s.lookup name).bind (ks.entries[·]?)

/-- What the tables say of the text symbols of a file. -/
structure SymbolTables (occs : List Occurrence) (ks : Kallsyms) : Prop where
  /-- An entry of either table is marked if and only if its name repeats. -/
  addrDuped : ∀ addr e, ks.symOfAddr addr = some e → (e.duped = true ↔ Repeated occs e.name)
  nameDuped : ∀ name e, ks.symOfName name = some e → (e.duped = true ↔ Repeated occs e.name)
  /-- A name has the entry of its first line, with the addresses of the
  later ones. -/
  nameFirst : ∀ pre o post, occs = pre ++ o :: post → o.name ∉ pre.map (·.name) →
    ∃ e, ks.symOfName o.name = some e ∧ e.name = o.name ∧ e.addr = o.addr ∧ e.mod = o.mod ∧
      e.extra = (post.filter (·.name = o.name)).map (·.addr)
  /-- An address has the entry of its last line. -/
  addrLast : ∀ pre o post, occs = pre ++ o :: post → o.addr ∉ post.map (·.addr) →
    ∃ e, ks.symOfAddr o.addr = some e ∧ e.name = o.name ∧ e.addr = o.addr ∧ e.mod = o.mod
  nameNone : ∀ name, name ∉ occs.map (·.name) → ks.symOfName name = none
  addrNone : ∀ addr, addr ∉ occs.map (·.addr) → ks.symOfAddr addr = none
  addrsSorted : ks.addrs.Pairwise (· < ·)
  addrsAll : ∀ addr, addr ∈ ks.addrs ↔ addr ∈ occs.map (·.addr)

section Lookups

variable {occs : List Occurrence} {ks : Kallsyms}

/-- An entry of the list is that of a line. -/
theorem Scanned.getElem? (h : Scanned occs ks) (p : Nat) : ks.entries[p]? = occs[p]?.map (entryAt occs p) := by
  rw [h.entries, List.getElem?_mapIdx]

theorem Scanned.entry (h : Scanned occs ks) {pre post : List Occurrence} {o : Occurrence}
    (hocc : occs = pre ++ o :: post) : ks.entries[pre.length]? = some (entryAt occs pre.length o) := by
  rw [h.getElem?]
  simp [hocc]

theorem Scanned.duped (h : Scanned occs ks) {p : Nat} {e : KsymEntry} (he : ks.entries[p]? = some e) :
    e.duped = true ↔ Repeated occs e.name := by
  rw [h.getElem?] at he
  obtain ⟨o, -, rfl⟩ := Option.map_eq_some_iff.mp he
  simp [entryAt]

/-- The first line of a name, by position. -/
theorem findIdx?_split {pre post : List Occurrence} {o : Occurrence} (hnew : o.name ∉ pre.map (·.name)) :
    (pre ++ o :: post).findIdx? (·.name = o.name) = some pre.length := by
  have hnone : pre.findIdx? (·.name = o.name) = none := by
    simpa [List.findIdx?_eq_none_iff] using hnew
  simp [List.findIdx?_append, hnone, List.findIdx?_cons]

theorem addrsOf_split {pre post : List Occurrence} {o : Occurrence} (hnew : o.name ∉ pre.map (·.name)) :
    addrsOf (pre ++ o :: post) o.name = o.addr :: (post.filter (·.name = o.name)).map (·.addr) := by
  have hpre := addrsOf_eq_nil.mpr hnew
  unfold addrsOf at hpre ⊢
  rw [List.filter_append, List.map_append, hpre]
  simp

/-- The tables after the scan, before the addresses are listed. -/
theorem Scanned.tables (h : Scanned occs ks) (hsorted : ks.addrs.Pairwise (· < ·))
    (hall : ∀ addr, addr ∈ ks.addrs ↔ addr ∈ ks.a2s.keys) : SymbolTables occs ks where
  addrDuped := by
    intro addr e he
    obtain ⟨p, -, hp⟩ := Option.bind_eq_some_iff.mp he
    exact h.duped hp
  nameDuped := by
    intro name e he
    obtain ⟨p, -, hp⟩ := Option.bind_eq_some_iff.mp he
    exact h.duped hp
  nameFirst := by
    intro pre o post hocc hnew
    have hfirst : occs.findIdx? (·.name = o.name) = some pre.length := hocc ▸ findIdx?_split hnew
    have hextra : (addrsOf occs o.name).tail = (post.filter (·.name = o.name)).map (·.addr) := by
      rw [hocc, addrsOf_split hnew, List.tail_cons]
    refine ⟨entryAt occs pre.length o, ?_, rfl, rfl, rfl, ?_⟩
    · rw [Kallsyms.symOfName, h.byName, hfirst, Option.bind_some, h.entry hocc]
    · simp only [entryAt, hfirst, if_true, hextra]
  addrLast := by
    intro pre o post hocc hlast
    have hp := (h.byAddr o.addr pre.length).mpr ⟨pre, o, post, hocc, rfl, rfl, hlast⟩
    refine ⟨entryAt occs pre.length o, ?_, rfl, rfl, rfl⟩
    rw [Kallsyms.symOfAddr, hp, Option.bind_some, h.entry hocc]
  nameNone := by
    intro name hname
    have hnone : occs.findIdx? (·.name = name) = none := by
      simpa [List.findIdx?_eq_none_iff] using hname
    rw [Kallsyms.symOfName, h.byName, hnone, Option.bind_none]
  addrNone := by
    intro addr haddr
    have hnone : ks.a2s.lookup addr = none := by
      rw [AList.lookup_eq_none, AList.mem_keys, h.byAddr.mem_keys]
      exact haddr
    rw [Kallsyms.symOfAddr, hnone, Option.bind_none]
  addrsSorted := hsorted
  addrsAll := fun addr => by rw [hall, h.byAddr.mem_keys]

end Lookups

/-- The keys of a map, sorted, increase strictly. -/
theorem mergeSort_keys_pairwise (t : AList fun _ : Word => Nat) :
    (t.keys.mergeSort (· ≤ ·)).Pairwise (· < ·) := by
  have hle : (t.keys.mergeSort (· ≤ ·)).Pairwise (· ≤ ·) := by
    have htrans : ∀ a b c : Word, decide (a ≤ b) → decide (b ≤ c) → decide (a ≤ c) := by
      simpa using fun a b c => BitVec.le_trans
    have htotal : ∀ a b : Word, decide (a ≤ b) || decide (b ≤ a) := by
      simpa using BitVec.le_total
    simpa using List.pairwise_mergeSort htrans htotal t.keys
  have hnodup : (t.keys.mergeSort (· ≤ ·)).Nodup := (List.mergeSort_perm _ _).nodup_iff.mpr t.keys_nodup
  exact hle.imp₂ (fun a b hab hne => BitVec.lt_of_le_ne hab hne) hnodup

/-- A line parses: the address it starts with is one. -/
def Parses (line : String) : Prop := ∀ addr ∈ (fields line).head?, (parseUint addr).isSome

variable {sysBPFSymbol : String} {lines : List String} {ks : Kallsyms}

/-- The scan of the file, up to the last line. -/
theorem foldlM_scanned (h : lines.foldlM (Kallsyms.scanLine sysBPFSymbol) .empty = .ok ks) :
    Scanned (occurrences lines) ks := by
  refine foldlM_invariant (I := fun lines ks => Scanned (occurrences lines) ks) empty_scanned ?_ h
  intro lines ks line ks' hks hstep
  have hnext := scanLine_scanned hks hstep
  have hocc : occurrences (lines ++ [line]) = occurrences lines ++ (textSymbol line).toList := by
    cases hsym : textSymbol line <;> simp [occurrences, hsym]
  exact hocc ▸ hnext

/-- A file whose lines parse is read. -/
theorem newKallsyms_isOk (h : ∀ line ∈ lines, Parses line) :
    ∃ ks, newKallsyms sysBPFSymbol (.ok (lines, none)) = .ok ks := by
  obtain ⟨ks, hks⟩ : ∃ ks, lines.foldlM (Kallsyms.scanLine sysBPFSymbol) .empty = .ok ks := by
    refine foldlM_isOk ?_
    intro pre line post ks hlines _
    exact scanLine_isOk (h line (by simp [hlines]))
  simp [newKallsyms, hks]

/-- **Whatever the lines**, the tables that come out are those of the text
symbols of the file, and a file whose lines parse has them. -/
theorem newKallsyms_tables (sysBPFSymbol : String) (lines : List String) :
    ((∀ line ∈ lines, Parses line) → ∃ ks, newKallsyms sysBPFSymbol (.ok (lines, none)) = .ok ks) ∧
      ∀ scanErr ks, newKallsyms sysBPFSymbol (.ok (lines, scanErr)) = .ok ks →
        SymbolTables (occurrences lines) ks := by
  refine ⟨newKallsyms_isOk, ?_⟩
  intro scanErr ks h
  unfold newKallsyms at h
  cases hscan : lines.foldlM (Kallsyms.scanLine sysBPFSymbol) .empty with
  | error err => simp [hscan] at h
  | ok ks' =>
    cases scanErr with
    | some err => simp [hscan] at h
    | none =>
      simp only [hscan, Except.ok.injEq] at h
      subst h
      have hscanned : Scanned (occurrences lines) { ks' with
          addrs := ks'.a2s.keys.mergeSort (· ≤ ·)
          mods := ks'.mods.mergeSort (· ≤ ·) } := (foldlM_scanned hscan).of_eq rfl rfl rfl
      exact hscanned.tables (mergeSort_keys_pairwise ks'.a2s) fun addr => by simp

/-- A name on two lines and an address on two lines. -/
theorem repeated_lines_tables :
    ∃ ks, newKallsyms "__x64_sys_bpf"
        (.ok (["10 t foo", "20 T bar", "20 t foo [m]", "30 d baz"], none)) = .ok ks ∧
      SymbolTables [⟨0x10, "foo", ""⟩, ⟨0x20, "bar", ""⟩, ⟨0x20, "foo", "m"⟩] ks := by
  have htables := newKallsyms_tables "__x64_sys_bpf" ["10 t foo", "20 T bar", "20 t foo [m]", "30 d baz"]
  have hparses : ∀ line ∈ ["10 t foo", "20 T bar", "20 t foo [m]", "30 d baz"], Parses line := by
    unfold Parses
    decide
  obtain ⟨ks, hks⟩ := htables.1 hparses
  have hocc : occurrences ["10 t foo", "20 T bar", "20 t foo [m]", "30 d baz"] =
      [⟨0x10, "foo", ""⟩, ⟨0x20, "bar", ""⟩, ⟨0x20, "foo", "m"⟩] := by
    rfl
  exact ⟨ks, hks, hocc ▸ htables.2 none ks hks⟩

end Bpfsnoop.Ksyms
