/-
Bpfsnoop.Ksyms.SymbolLookup — the symbol that an address belongs to.

`index` is a binary search over the sorted addresses that stops early where
the middle is the answer. It finds the cut that `Lib.Bisect` finds
(`indexLoop_eq`), and the symbol in front of it is what `find` returns, the
one behind it what `next` returns. `guessBytes` is the distance of the two.
-/
import Bpfsnoop.CC.Syntax
import Bpfsnoop.Ksyms.KallsymsTheorems
import Bpfsnoop.Lib.Bisect
import Mathlib.Order.Bounds.Defs

namespace Bpfsnoop.Ksyms

open Ebpf Lib
open CC (GoError)

/-! ## The code -/

namespace Kallsyms

/-- The loop of `index`, which reads at positions below `j` or `total`. -/
def indexLoop (addrs : List Word) (addr : Word) (i j : Nat) : Int :=
  if i < j then
    if addrs.getD ((i + j) / 2) 0 ≤ addr then
      if (i + j) / 2 + 1 < addrs.length ∧ addr < addrs.getD ((i + j) / 2 + 1) 0 then ((i + j) / 2 : Nat)
      else indexLoop addrs addr ((i + j) / 2 + 1) j
    else indexLoop addrs addr i ((i + j) / 2)
  else (i : Int) - 1
termination_by j - i

/-- `index`; `none` is `false`. -/
def index (ks : Kallsyms) (kaddr : Word) : Except GoError (Option Int) :=
  match ks.addrs.head?, ks.addrs.getLast? with
  | some first, some last =>
    if kaddr < first ∨ last < kaddr then .ok none
    else .ok (some (indexLoop ks.addrs kaddr 0 ks.addrs.length))
  | _, _ => .error (.panic "index out of range")

/-- `ks.a2s[ks.addrs[idx]]`, a pointer. -/
def symAt (ks : Kallsyms) (idx : Int) : Except GoError (Option KsymEntry) :=
  if idx < 0 then .error (.panic "index out of range")
  else
    match ks.addrs[idx.toNat]? with
    | none => .error (.panic "index out of range")
    | some addr => .ok (ks.symOfAddr addr)

/-- `find`. -/
def find (ks : Kallsyms) (kaddr : Word) : Except GoError (Option KsymEntry × Bool) := do
  match ← ks.index kaddr with
  | none => return (none, false)
  | some idx => return (← ks.symAt idx, true)

/-- `next`. -/
def next (ks : Kallsyms) (kaddr : Word) : Except GoError (Option KsymEntry × Bool) := do
  match ← ks.index kaddr with
  | none => return (none, false)
  | some idx =>
    if idx + 1 ≥ ks.addrs.length then return (none, false)
    else return (← ks.symAt (idx + 1), true)

end Kallsyms

/-- `guessBytes`. -/
def guessBytes (kaddr : Word) (ks : Kallsyms) (bytes : Word) : Except GoError Word :=
  if bytes ≠ 0 then .ok bytes
  else do
    match ← ks.next kaddr with
    | (_, false) => return 4096
    | (none, true) => .error (.panic "invalid memory address or nil pointer dereference")
    | (some nxt, true) => return nxt.addr - kaddr

/-! ## Tables that can be searched -/

/-- The addresses are sorted, and each has its entry. -/
structure Indexed (ks : Kallsyms) : Prop where
  sorted : ks.addrs.Pairwise (· < ·)
  entry : ∀ addr ∈ ks.addrs, ∃ e, ks.symOfAddr addr = some e ∧ e.addr = addr

/-- The tables of `NewKallsyms` can be searched. -/
theorem SymbolTables.indexed {occs : List Occurrence} {ks : Kallsyms} (h : SymbolTables occs ks) : Indexed ks := by
  refine ⟨h.addrsSorted, fun addr haddr => ?_⟩
  -- the last line of the address
  have hmem : addr ∈ occs.reverse.map (·.addr) := by
    simpa using (h.addrsAll addr).mp haddr
  have hany : (occs.reverse.findIdx? (·.addr = addr)).isSome := by
    simpa [List.findIdx?_isSome] using hmem
  obtain ⟨p, hp⟩ := Option.isSome_iff_exists.mp hany
  obtain ⟨pre, o, post, hrev, -, rfl, hnew⟩ := findIdx?_eq_some_split hp
  have hocc : occs = post.reverse ++ o :: pre.reverse := by
    simpa using congrArg List.reverse hrev
  obtain ⟨e, he, -, haddr, -⟩ := h.addrLast _ o _ hocc (by simpa using hnew)
  exact ⟨e, he, haddr⟩

/-! ## The search -/

section Search

variable {addrs : List Word} {addr : Word} {i j : Nat}

/-- The address at a position is not above. -/
def notAbove (addrs : List Word) (addr : Word) (k : Nat) : Bool := decide (addrs.getD k 0 ≤ addr)

theorem notAbove_iff {k : Nat} (hk : k < addrs.length) : notAbove addrs addr k = true ↔ addrs[k] ≤ addr := by
  rw [notAbove, decide_eq_true_iff, List.getD_eq_getElem?_getD, List.getElem?_eq_getElem hk, Option.getD_some]

theorem notAbove_descends (hsorted : addrs.Pairwise (· < ·)) : Descends (notAbove addrs addr) addrs.length := by
  intro i j hij hj h
  rw [notAbove_iff hj] at h
  rw [notAbove_iff (by omega)]
  rcases Nat.lt_or_eq_of_le hij with hlt | rfl
  · exact BitVec.le_trans (BitVec.le_of_lt (List.pairwise_iff_getElem.mp hsorted i j (by omega) hj hlt)) h
  · exact h

/-- Where the early exit is taken, the cut is right behind the middle. -/
theorem cut_of_exit {k : Nat} (hsorted : addrs.Pairwise (· < ·)) (hik : i ≤ k) (hkj : k < j) (hj : j ≤ addrs.length)
    (hk : notAbove addrs addr k = true) (hnext : k + 1 < addrs.length) (habove : notAbove addrs addr (k + 1) = false) :
    Cut (notAbove addrs addr) i j (k + 1) := by
  have hdesc : Descends (notAbove addrs addr) addrs.length := notAbove_descends hsorted
  refine ⟨by omega, hkj, ?_, ?_⟩
  · intro m _ hm
    exact hdesc m k (by omega) (by omega) hk
  · intro m hm hmj
    by_contra htrue
    rw [hdesc (k + 1) m hm (by omega) (by simpa using htrue)] at habove
    cases habove

/-- The search with the early exit is the search without. -/
theorem indexLoop_eq (hsorted : addrs.Pairwise (· < ·)) (hij : i ≤ j) (hj : j ≤ addrs.length) :
    Kallsyms.indexLoop addrs addr i j = (bisect (notAbove addrs addr) i j : Int) - 1 := by
  fun_induction Kallsyms.indexLoop addrs addr i j with
  | case1 i j hlt hmid hexit =>
    have hbelow : notAbove addrs addr ((i + j) / 2) = true := decide_eq_true hmid
    have habove : notAbove addrs addr ((i + j) / 2 + 1) = false :=
      decide_eq_false (BitVec.not_le.mpr hexit.2)
    have hcut := cut_of_exit (i := i) (j := j) hsorted (by omega) (by omega) hj hbelow hexit.1 habove
    have hdesc : Descends (notAbove addrs addr) addrs.length := notAbove_descends hsorted
    have hspec := bisect_spec (fun a b hab hb => hdesc a b hab (by omega)) hij
    rw [cut_unique hspec hcut]
    omega
  | case2 i j hlt hmid hexit ih =>
    rw [ih (by omega) hj, bisect_upper hlt (decide_eq_true hmid)]
  | case3 i j hlt hmid ih =>
    rw [ih (by omega) (by omega), bisect_lower hlt (by simpa [notAbove] using hmid)]
  | case4 i j hge =>
    rw [bisect_empty hge]

end Search

/-! ## The symbol found -/

section Found

variable {ks : Kallsyms} {first last kaddr : Word}

/-- `k` is the last position at or below the address. -/
structure Floor (addrs : List Word) (kaddr : Word) (k : Nat) : Prop where
  lt : k < addrs.length
  below : ∀ m (hm : m < addrs.length), m ≤ k → addrs[m] ≤ kaddr
  above : ∀ m (hm : m < addrs.length), k < m → kaddr < addrs[m]

/-- Between the first and the last symbol the search finds the last one at or
below the address. -/
theorem index_floor (hks : Indexed ks) (hfirst : ks.addrs.head? = some first) (hlast : ks.addrs.getLast? = some last)
    (hge : first ≤ kaddr) (hle : kaddr ≤ last) :
    ∃ k : Nat, ks.index kaddr = .ok (some k) ∧ Floor ks.addrs kaddr k := by
  have hdesc : Descends (notAbove ks.addrs kaddr) ks.addrs.length := notAbove_descends hks.sorted
  have hspec := bisect_spec hdesc (Nat.zero_le _)
  have hindex : ks.index kaddr = .ok (some ((bisect (notAbove ks.addrs kaddr) 0 ks.addrs.length : Int) - 1)) := by
    unfold Kallsyms.index
    rw [hfirst, hlast, ← indexLoop_eq hks.sorted (Nat.zero_le _) (Nat.le_refl _)]
    exact if_neg (not_or.mpr ⟨BitVec.not_lt.mpr hge, BitVec.not_lt.mpr hle⟩)
  generalize bisect (notAbove ks.addrs kaddr) 0 ks.addrs.length = c at hspec hindex
  -- the first symbol is not above
  have hlen : 0 < ks.addrs.length := List.length_pos_of_mem (List.mem_of_mem_head? hfirst)
  have hzero : notAbove ks.addrs kaddr 0 = true := by
    rw [notAbove_iff hlen, ← List.head_eq_getElem_zero (List.ne_nil_of_length_pos hlen)]
    rwa [← Option.some.inj ((List.head?_eq_some_head _).symm.trans hfirst)] at hge
  have hpos : 0 < c := by
    rcases Nat.eq_zero_or_pos c with rfl | hpos
    · rw [hspec.behind 0 (Nat.le_refl _) hlen] at hzero
      cases hzero
    · exact hpos
  have hend := hspec.le'
  have hpred : (c : Int) - 1 = (c - 1 : Nat) := by omega
  refine ⟨c - 1, by rw [hindex, hpred], by omega, ?_, ?_⟩
  · intro m hm hmc
    exact (notAbove_iff hm).mp (hspec.front m (Nat.zero_le _) (by omega))
  · intro m hm hmc
    have hbehind := hspec.behind m (by omega) hm
    by_contra hnot
    rw [(notAbove_iff hm).mpr (BitVec.not_lt.mp hnot)] at hbehind
    cases hbehind

theorem symAt_eq (hks : Indexed ks) {k : Nat} (hk : k < ks.addrs.length) :
    ∃ e, ks.symAt k = .ok (some e) ∧ e.addr = ks.addrs[k] ∧ ks.symOfAddr e.addr = some e := by
  obtain ⟨e, hsym, haddr⟩ := hks.entry ks.addrs[k] (List.getElem_mem hk)
  refine ⟨e, ?_, haddr, haddr ▸ hsym⟩
  rw [Kallsyms.symAt, if_neg (by omega), Int.toNat_natCast, List.getElem?_eq_getElem hk]
  exact congrArg Except.ok hsym

/-- What `find` returns inside. -/
theorem find_greatest (hks : Indexed ks) (hfirst : ks.addrs.head? = some first) (hlast : ks.addrs.getLast? = some last)
    (hge : first ≤ kaddr) (hle : kaddr ≤ last) :
    ∃ e, ks.find kaddr = .ok (some e, true) ∧ ks.symOfAddr e.addr = some e ∧
      IsGreatest {addr | addr ∈ ks.addrs ∧ addr ≤ kaddr} e.addr := by
  obtain ⟨k, hindex, hfloor⟩ := index_floor hks hfirst hlast hge hle
  obtain ⟨e, hsym, haddr, hentry⟩ := symAt_eq hks hfloor.lt
  have hfind : ks.find kaddr = .ok (some e, true) := by
    rw [Kallsyms.find, hindex]
    dsimp only [bind, Except.bind]
    rw [hsym]
    rfl
  refine ⟨e, hfind, hentry, ⟨?_, ?_⟩, ?_⟩
  · rw [haddr]
    exact List.getElem_mem hfloor.lt
  · rw [haddr]
    exact hfloor.below k hfloor.lt (Nat.le_refl _)
  · intro addr hmem
    obtain ⟨m, hm, rfl⟩ := List.getElem_of_mem hmem.1
    rw [haddr]
    rcases Nat.lt_trichotomy m k with hlt | rfl | hgt
    · exact BitVec.le_of_lt (List.pairwise_iff_getElem.mp hks.sorted m k hm hfloor.lt hlt)
    · exact BitVec.le_refl _
    · exact absurd (hfloor.above m hm hgt) (BitVec.not_lt.mpr hmem.2)

/-- What `next` returns inside, but for the last symbol. -/
theorem next_least (hks : Indexed ks) (hfirst : ks.addrs.head? = some first) (hlast : ks.addrs.getLast? = some last)
    (hge : first ≤ kaddr) (hlt : kaddr < last) :
    ∃ e, ks.next kaddr = .ok (some e, true) ∧ ks.symOfAddr e.addr = some e ∧
      IsLeast {addr | addr ∈ ks.addrs ∧ kaddr < addr} e.addr := by
  obtain ⟨k, hindex, hfloor⟩ := index_floor hks hfirst hlast hge (BitVec.le_of_lt hlt)
  -- the last symbol is behind `k`
  obtain ⟨j, hj, rfl⟩ := List.getElem_of_mem (List.mem_of_getLast? hlast)
  have hkj : k < j := by
    by_contra hnot
    exact absurd hlt (BitVec.not_lt.mpr (hfloor.below j hj (by omega)))
  obtain ⟨e, hsym, haddr, hentry⟩ := symAt_eq hks (k := k + 1) (by omega)
  have hnext : ks.next kaddr = .ok (some e, true) := by
    have hsucc : (k : Int) + 1 = (k + 1 : Nat) := by omega
    rw [Kallsyms.next, hindex]
    dsimp only [bind, Except.bind]
    rw [if_neg (by omega), hsucc, hsym]
    rfl
  refine ⟨e, hnext, hentry, ⟨?_, ?_⟩, ?_⟩
  · rw [haddr]
    exact List.getElem_mem _
  · rw [haddr]
    exact hfloor.above (k + 1) (by omega) (by omega)
  · intro addr hmem
    obtain ⟨m, hm, rfl⟩ := List.getElem_of_mem hmem.1
    rw [haddr]
    rcases Nat.lt_trichotomy m (k + 1) with hbelow | rfl | habove
    · exact absurd hmem.2 (BitVec.not_lt.mpr (hfloor.below m hm (by omega)))
    · exact BitVec.le_refl _
    · exact BitVec.le_of_lt (List.pairwise_iff_getElem.mp hks.sorted (k + 1) m (by omega) hm habove)

/-- The last address is the greatest. -/
theorem le_last (hks : Indexed ks) (hlast : ks.addrs.getLast? = some last) {addr : Word} (haddr : addr ∈ ks.addrs) :
    addr ≤ last := by
  obtain ⟨pre, hpre⟩ := List.getLast?_eq_some_iff.mp hlast
  have hsorted := hks.sorted
  rw [hpre] at hsorted haddr
  rcases List.mem_append.mp haddr with hmem | hmem
  · exact BitVec.le_of_lt ((List.pairwise_append.mp hsorted).2.2 addr hmem last (List.mem_singleton.mpr rfl))
  · rw [List.mem_singleton.mp hmem]
    exact BitVec.le_refl _

theorem first_le (hks : Indexed ks) (hfirst : ks.addrs.head? = some first) {addr : Word} (haddr : addr ∈ ks.addrs) :
    first ≤ addr := by
  obtain ⟨rest, hrest⟩ := List.head?_eq_some_iff.mp hfirst
  have hsorted := hks.sorted
  rw [hrest] at hsorted haddr
  rcases List.mem_cons.mp haddr with rfl | hmem
  · exact BitVec.le_refl _
  · exact BitVec.le_of_lt (List.rel_of_pairwise_cons hsorted hmem)

/-- From the last symbol on there is none. -/
theorem next_last (hks : Indexed ks) (hfirst : ks.addrs.head? = some first) (hlast : ks.addrs.getLast? = some last) :
    ks.next last = .ok (none, false) := by
  obtain ⟨k, hindex, hfloor⟩ := index_floor hks hfirst hlast (first_le hks hfirst (List.mem_of_getLast? hlast))
    (BitVec.le_refl _)
  have hend : k + 1 ≥ ks.addrs.length := by
    by_contra hnot
    exact absurd (hfloor.above (k + 1) (by omega) (by omega))
      (BitVec.not_lt.mpr (le_last hks hlast (List.getElem_mem _)))
  rw [Kallsyms.next, hindex]
  dsimp only [bind, Except.bind]
  rw [if_pos (by omega)]
  rfl

/-- Outside there is none. -/
theorem find_outside (hfirst : ks.addrs.head? = some first) (hlast : ks.addrs.getLast? = some last)
    (houtside : kaddr < first ∨ last < kaddr) : ks.find kaddr = .ok (none, false) := by
  have hindex : ks.index kaddr = .ok none := by
    unfold Kallsyms.index
    rw [hfirst, hlast]
    exact if_pos houtside
  rw [Kallsyms.find, hindex]
  rfl

/-- The bytes of a symbol end in front of the next one. -/
theorem guessBytes_symbol (hks : Indexed ks) (hfirst : ks.addrs.head? = some first)
    (hlast : ks.addrs.getLast? = some last) (haddr : kaddr ∈ ks.addrs) :
    ∃ n, guessBytes kaddr ks 0 = .ok n ∧ 0 < n ∧
      ∀ addr ∈ ks.addrs, ¬ (kaddr.toNat < addr.toNat ∧ addr.toNat < kaddr.toNat + n.toNat) := by
  have hge := first_le hks hfirst haddr
  by_cases hlt : kaddr < last
  · obtain ⟨e, hnext, -, hleast⟩ := next_least hks hfirst hlast hge hlt
    have habove : kaddr < e.addr := hleast.1.2
    refine ⟨e.addr - kaddr, ?_, ?_, ?_⟩
    · rw [guessBytes, if_neg (not_not.mpr rfl), hnext]
      rfl
    · bv_omega
    · rintro addr hmem ⟨hkaddr, hinside⟩
      have hle : e.addr ≤ addr := hleast.2 ⟨hmem, hkaddr⟩
      bv_omega
  · obtain rfl : kaddr = last := BitVec.le_antisymm (le_last hks hlast haddr) (BitVec.not_lt.mp hlt)
    refine ⟨4096, ?_, by decide, ?_⟩
    · rw [guessBytes, if_neg (not_not.mpr rfl), next_last hks hfirst hlast]
      rfl
    · rintro addr hmem ⟨hkaddr, -⟩
      exact absurd hkaddr (Nat.not_lt.mpr (le_last hks hlast hmem))

end Found

/-- **Symbol lookup.** -/
theorem symbol_lookup {ks : Kallsyms} {first last : Word} (hks : Indexed ks) (hfirst : ks.addrs.head? = some first)
    (hlast : ks.addrs.getLast? = some last) (kaddr : Word) :
    (∃ found, ks.find kaddr = .ok found ∧ (found.2 = false ↔ kaddr < first ∨ last < kaddr) ∧
      (found.2 = true → ∃ e, found.1 = some e ∧ ks.symOfAddr e.addr = some e ∧
        IsGreatest {addr | addr ∈ ks.addrs ∧ addr ≤ kaddr} e.addr)) ∧
    (∀ e, ks.find kaddr = .ok (some e, true) → (∃ addr ∈ ks.addrs, kaddr < addr) →
      ∃ nxt, ks.next kaddr = .ok (some nxt, true) ∧ ks.symOfAddr nxt.addr = some nxt ∧
        IsLeast {addr | addr ∈ ks.addrs ∧ kaddr < addr} nxt.addr) ∧
    (kaddr ∈ ks.addrs → ∃ n, guessBytes kaddr ks 0 = .ok n ∧ 0 < n ∧
      ∀ addr ∈ ks.addrs, ¬ (kaddr.toNat < addr.toNat ∧ addr.toNat < kaddr.toNat + n.toNat)) := by
  refine ⟨?_, ?_, guessBytes_symbol hks hfirst hlast⟩
  · by_cases houtside : kaddr < first ∨ last < kaddr
    · exact ⟨_, find_outside hfirst hlast houtside, by simpa using houtside, fun h => by cases h⟩
    · have hin := not_or.mp houtside
      obtain ⟨e, hfind, hentry, hgreatest⟩ :=
        find_greatest hks hfirst hlast (BitVec.not_lt.mp hin.1) (BitVec.not_lt.mp hin.2)
      exact ⟨_, hfind, by simpa using hin, fun _ => ⟨e, rfl, hentry, hgreatest⟩⟩
  · intro e hfind hexists
    obtain ⟨addr, hmem, habove⟩ := hexists
    have hlt : kaddr < last := by
      have hle := le_last hks hlast hmem
      bv_omega
    by_cases hge : first ≤ kaddr
    · exact next_least hks hfirst hlast hge hlt
    · -- below the first symbol nothing is found
      rw [find_outside hfirst hlast (.inl (BitVec.not_le.mp hge))] at hfind
      cases hfind

/-- Two symbols. -/
def twoSymbols : Kallsyms :=
  { Kallsyms.empty with
    entries := [⟨0x1000, "foo", "", [], false⟩, ⟨0x1040, "bar", "", [], false⟩]
    a2s := (AList.singleton 0x1000 0).insert 0x1040 1
    addrs := [0x1000, 0x1040] }

theorem twoSymbols_indexed : Indexed twoSymbols where
  sorted := by decide
  entry := by
    intro addr haddr
    rcases List.mem_pair.mp haddr with rfl | rfl
    · exact ⟨⟨0x1000, "foo", "", [], false⟩, rfl, rfl⟩
    · exact ⟨⟨0x1040, "bar", "", [], false⟩, rfl, rfl⟩

/-- The first of them has 64 bytes. -/
theorem twoSymbols_lookup : ∃ n, guessBytes 0x1000 twoSymbols 0 = .ok n ∧ 0 < n ∧
    ∀ addr ∈ twoSymbols.addrs, ¬ ((0x1000 : Word).toNat < addr.toNat ∧ addr.toNat < (0x1000 : Word).toNat + n.toNat) :=
  have hlast : twoSymbols.addrs.getLast? = some 0x1040 := rfl
  (symbol_lookup twoSymbols_indexed rfl hlast 0x1000).2.2 (by decide)

end Bpfsnoop.Ksyms
