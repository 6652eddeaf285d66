/-
Bpfsnoop.CC.AccessPathFaults — where the chain of an access path is wrong.

Where a path has one of the three slips, a part of it has a wrong chain:
the operand that is loaded, the cast of an integer, or the sum that keeps
the type of an array. For a load there is a memory in which no word is its
own address (`exists_restless`), and for an integer one in which the eight
bytes are not its value (`Field.exists_cut`).

`chains_denote_iff` puts both directions together. The longer path around a
wrong part can still come out right, as `&a[1]` does for an array of arrays,
so the second half is about all parts of an expression.
-/
import Mathlib.Tactic.IntervalCases
import Bpfsnoop.CC.AccessPathTheorems

namespace Bpfsnoop.CC

open Ebpf Btf Reg Lib

/-! ## Memories that tell -/

/-- A memory in which no word is its own address. -/
theorem exists_restless : ∃ m : Word → Byte, ∀ x, loadLE m x 8 ≠ x := by
  refine ⟨fun a => if a = 0 then 1 else 0, fun x => ?_⟩
  by_cases hnear : ∃ i < 8, x + BitVec.ofNat 64 i = 0
  · obtain ⟨i, hi, hx⟩ := hnear
    obtain rfl : x = -BitVec.ofNat 64 i := eq_neg_of_add_eq_zero_left hx
    interval_cases i <;> decide
  · -- the byte at 0 is not among the eight
    have hzero : loadLE (fun a => if a = 0 then 1 else 0) x 8 = loadLE (fun _ => 0) x 8 :=
      loadLE_congr fun i hi => if_neg fun h => hnear ⟨i, hi, h⟩
    intro h
    have hx : x = 0 := by
      rw [← h, hzero]
      simp [loadLE]
    exact hnear ⟨0, by omega, by simp [hx]⟩

theorem fieldValue_even {signed : Bool} {b x : Nat} (hx : 2 ∣ x) : (2 : Int) ∣ fieldValue signed b x := by
  cases b with
  | zero => simp [fieldValue, Nat.mod_one]
  | succ b =>
    have hpow : (2 : Nat) ∣ 2 ^ (b + 1) := Dvd.intro_left _ (pow_succ 2 b).symm
    have hmod : 2 ∣ x % 2 ^ (b + 1) := (Nat.dvd_mod_iff hpow).mpr hx
    have hmodZ : (2 : Int) ∣ (x % 2 ^ (b + 1) : Nat) := by exact_mod_cast hmod
    have hpowZ : (2 : Int) ∣ 2 ^ (b + 1) := by exact_mod_cast hpow
    unfold fieldValue
    split
    · exact Int.dvd_sub hmodZ hpowZ
    · exact hmodZ

/-- Fewer than 64 bits do not reach the highest bit, but with copies of the
sign. -/
theorem fieldValue_range {signed : Bool} {b x : Nat} (hb : b < 64) :
    -2 ^ 62 ≤ fieldValue signed b x ∧ fieldValue signed b x < 2 ^ 63 := by
  cases b with
  | zero => simp [fieldValue, Nat.mod_one]
  | succ b =>
    obtain ⟨hlo, hhi⟩ := fieldValue_bounds signed x (Nat.succ_pos b)
    have hhalf : (2 : Int) ^ b ≤ 2 ^ 62 := by exact_mod_cast Nat.pow_le_pow_right (by omega) (by omega : b ≤ 62)
    have hsucc : (2 : Int) ^ (b + 1) = 2 * 2 ^ b := by rw [pow_succ]; ring
    unfold lowest at hlo
    unfold highest at hhi
    simp only [Nat.succ_eq_add_one, Nat.add_sub_cancel] at hlo hhi
    cases signed <;> simp only [if_true, Bool.false_eq_true, if_false] at hlo hhi <;> omega

/-- One byte everywhere. -/
theorem memNat_const (b : Byte) (a : Word) (n : Nat) : 255 * memNat (fun _ => b) a n + b.toNat = b.toNat * 256 ^ n := by
  induction n generalizing a with
  | zero => simp [memNat]
  | succ n ih =>
    have hrest := ih (a + 1)
    rw [memNat, pow_succ, ← Nat.mul_assoc, ← hrest]
    ring

/-- A memory in which an integer that is cut is not the eight bytes at its
place. -/
theorem Field.exists_cut {f : Field} (hshift : f.shift < 8) (hcut : ¬ (f.shift = 0 ∧ 64 ≤ f.bits)) :
    ∃ m, ∀ a, BitVec.ofInt 64 (f.value m a) ≠ loadLE m a 8 := by
  by_cases hs : f.shift = 0
  · -- the highest bit is set, the next one is not
    refine ⟨fun _ => 128#8, fun a h => ?_⟩
    have hrange : -2 ^ 62 ≤ f.value (fun _ => 128#8) a ∧ f.value (fun _ => 128#8) a < 2 ^ 63 :=
      fieldValue_range (by omega)
    have hbytes : 255 * memNat (fun _ => 128#8) a 8 + 128 = 128 * 256 ^ 8 := memNat_const 128#8 a 8
    have hnat := congrArg BitVec.toNat h
    rw [toNat_loadLE le_rfl, BitVec.toNat_ofInt] at hnat
    omega
  · -- the first bit is set, the next seven are not
    refine ⟨fun _ => 1#8, fun a h => ?_⟩
    have hnine : 255 * memNat (fun _ => 1#8) a 9 + 1 = 1 * 256 ^ 9 := memNat_const 1#8 a 9
    have hbytes : 255 * memNat (fun _ => 1#8) a 8 + 1 = 1 * 256 ^ 8 := memNat_const 1#8 a 8
    have heven : 2 ∣ memNat (fun _ => 1#8) a 9 / 2 ^ f.shift := by
      have hlt : 0 < f.shift := by omega
      interval_cases f.shift <;> omega
    obtain ⟨v, hv⟩ : (2 : Int) ∣ f.value (fun _ => 1#8) a := fieldValue_even heven
    have hnat := congrArg BitVec.toNat h
    rw [toNat_loadLE le_rfl, BitVec.toNat_ofInt, hv] at hnat
    omega

/-! ## Parts with a wrong chain -/

section Faults

variable {c : Compiler} {e left : Expr} {p p₀ : CPath} {res res₀ : AccessResult} {g : Gen}

/-- What stands for its address is loaded. -/
theorem Tracks.not_denotes_of_loads (h : Tracks c e p res) (hpath : cPath c e = some p) (hplaced : placed c e = true)
    (hload : loadsAddress c e = true) : ¬ Denotes p res := by
  intro hden
  unfold loadsAddress at hload
  rw [hpath] at hload
  simp only [Bool.and_eq_true, Bool.or_eq_true] at hload
  obtain ⟨hp, hload⟩ := hload
  obtain ⟨-, pre, o, hend, ho, hword⟩ := h.place hp
  have haddr : o.address = false ∧ decays p.type = true := by
    obtain ⟨harray, hderef⟩ | hfunc := hload
    · exact ⟨by rw [ho, hderef]; simp, by simp [decays, harray]⟩
    · exact ⟨by rw [ho, arrayElem_of_isFunction hfunc]; rfl, by simp [decays, hfunc]⟩
  obtain ⟨m, hm⟩ := exists_restless
  have hvalue := hden.word m 0
  rw [hend.offsets, follow_concat, haddr.1, hword hplaced, CPath.value, hp, haddr.2] at hvalue
  exact hm _ hvalue

/-- A sum that keeps the type of an array. -/
theorem Tracks.not_denotes_of_keeps (h : Tracks c e p res) (hkept : keepsArray c e = true) : ¬ Denotes p res := by
  intro hden
  obtain ⟨-, elem, harray, -, htype⟩ := h.kept hkept
  have hptr : pointerTarget? res.btf = some elem := by
    rw [pointerTarget_congr hden.type, htype]
    rfl
  rw [pointerTarget_of_arrayElem harray] at hptr
  cases hptr

/-- The cast of an integer that is cut. -/
theorem Tracks.not_denotes_of_cuts {type : CType} {t : BtfType} (h : Tracks c left p₀ res₀)
    (hpath : cPath c left = some p₀) (hplaced : placed c left = true) (hload : loadsAddress c left = false)
    (hcut : cutsNumber c left = true) (hc : p₀.cast t = some p) (hgo : accessCast c type res₀ = .ok res) :
    ¬ Denotes p res := by
  intro hden
  unfold cutsNumber at hcut
  rw [hpath] at hcut
  cases hp : p₀.place with
  | false => simp [hp] at hcut
  | true =>
    cases hf : field? p₀.type p₀.mem with
    | none => simp [hp, hf] at hcut
    | some f =>
      simp only [hp, hf, Bool.not_eq_true', decide_eq_false_iff_not] at hcut
      obtain ⟨⟨size, signed⟩, hint, -⟩ := Option.map_eq_some_iff.mp hf
      obtain ⟨m, hm⟩ := Field.exists_cut (field_shift_lt hf) hcut
      obtain ⟨t', -, rfl⟩ := accessCast_ok hgo
      have hvalue := hden.word m 0
      unfold CPath.cast at hc
      split at hc
      · obtain rfl := Option.some.inj hc
        simp only [AccessResult.modifyLast, follow_modify_btf, h.loaded hpath hplaced hload] at hvalue
        simp only [CPath.value, CPath.converted, hp, hf, decays_of_integer hint] at hvalue
        exact hm _ hvalue.symm
      · cases hc

theorem Stepped.operand (h : Stepped c e left p₀ p res₀ res) : left.OperandOf e := by
  cases h with
  | arrow => exact .arrow ..
  | dot => exact .dot ..
  | index => exact .index ..
  | indir => exact .un ..
  | addr => exact .un ..
  | cast => exact .cast ..
  | shift hpart => exact hpart.operandOf

/-- A part of the expression is an accepted path with a wrong chain. -/
def HasFault (c : Compiler) (g : Gen) (e : Expr) : Prop :=
  ∃ s, s.PartOf e ∧ ∃ p res, Accepts c g s p res ∧ ¬ Denotes p res

theorem HasFault.of_operand (h : HasFault c g left) (hop : left.OperandOf e) : HasFault c g e := by
  obtain ⟨s, hs, hfault⟩ := h
  exact ⟨s, hs.tail hop, hfault⟩

theorem Path.fault_here (h : Path c g e p res) (hden : ¬ Denotes p res) : HasFault c g e :=
  ⟨e, .refl, p, res, h.accepts, hden⟩

/-- Where the path leaves the one of C, some part of it is wrong. -/
theorem Path.fault_of_not_placed (h : Path c g e p res) (hplaced : placed c e = false) : HasFault c g e := by
  induction h with
  | name => cases hplaced
  | paren _ _ ih => exact (ih hplaced).of_operand (.un ..)
  | @step e left p₀ p res₀ res hnode hleft hstep ih =>
    have hop := hstep.operand
    have hpath := hleft.accepts.path
    cases hpl : placed c left with
    | false => exact (ih hpl).of_operand hop
    | true =>
      -- the operand is in order, but not what is done with it
      cases hload : loadsAddress c left with
      | true => exact (hleft.fault_here (hleft.tracks.not_denotes_of_loads hpath hpl hload)).of_operand hop
      | false =>
        cases hstep with
        | cast _ hc hgo =>
          simp only [placed, hpl, hload, Bool.not_false, Bool.and_true, Bool.true_and, Bool.not_eq_false'] at hplaced
          exact (Path.step hnode hleft (.cast ‹_› hc hgo)).fault_here
            (hleft.tracks.not_denotes_of_cuts hpath hpl hload hplaced hc hgo)
        | shift _ heq => simp [heq, hpl, hload] at hplaced
        | _ => simp [placed, hpl, hload] at hplaced

/-- A path that is not sound has a fault. -/
theorem Path.fault_of_not_sound (h : Path c g e p res) (hsound : ¬ PathSound c e) : HasFault c g e := by
  cases hplaced : placed c e with
  | false => exact h.fault_of_not_placed hplaced
  | true =>
    cases hload : loadsAddress c e with
    | true => exact h.fault_here (h.tracks.not_denotes_of_loads h.accepts.path hplaced hload)
    | false =>
      cases hkept : keepsArray c e with
      | true => exact h.fault_here (h.tracks.not_denotes_of_keeps hkept)
      | false => exact absurd ⟨hplaced, hload, hkept⟩ hsound

end Faults

/-- **When the chain of an access path is the one of C.** For every path
that is accepted: its chain denotes it if it has none of the three slips.
And an expression has only parts with the right chain exactly when none of
its parts has a slip. -/
theorem chains_denote_iff (c : Compiler) (g : Gen) (e : Expr) :
    (∀ p res g', cPath c e = some p → accessMemory c e g = .ok (res, g') → PathSound c e → Denotes p res) ∧
      ((∀ s, s.PartOf e → ∀ p res g', cPath c s = some p → accessMemory c s g = .ok (res, g') → Denotes p res) ↔
        ∀ s, s.PartOf e → ∀ p res g', cPath c s = some p → accessMemory c s g = .ok (res, g') → PathSound c s) := by
  refine ⟨fun p res g' hpath hacc => denotes_of_sound hpath hacc, fun h s hs p res g' hpath hacc => ?_,
    fun h s hs p res g' hpath hacc => denotes_of_sound hpath hacc (h s hs p res g' hpath hacc)⟩
  by_contra hsound
  obtain ⟨s', hs', p', res', haccepts, hden⟩ := (path_of_ok hpath hacc).2.fault_of_not_sound hsound
  exact hden (h s' (hs'.trans hs) p' res' g haccepts.path haccepts.access)

/-! ### A row of a table

`t->rows[1]` is an array, and `t->rows[1][1]` is the number 24 bytes behind
`t`. The chain loads eight bytes in the row and takes them for its address. -/

/-- `struct table { u64 rows[2][2]; u64 ids[2]; };` -/
def tableHeap : Heap := fun _ =>
  { size := 48
    findMember := fun name =>
      if name = "rows" then some (⟨"rows", .array (.array (.int "u64" 8 .unsigned) 2) 2, 0, 0⟩, 0)
      else if name = "ids" then some (⟨"ids", .array (.int "u64" 8 .unsigned) 2, 256, 0⟩, 32)
      else none }

/-- The parameter `struct table *t`. -/
def tableCompiler : Compiler :=
  { Compiler.empty .probeRead with
    heap := tableHeap
    vars := ["t"]
    btfs := [.pointer (.struct "table" 0)] }

/-- `t->text[1]`. -/
def elementOf (text : String) : Expr := .index (.arrow (.name "t") text) (.number "1")

/-- A byte that is not zero, 24 bytes behind the address 0. -/
def markedMemory : Word → Byte := fun a => if a = 24 then 1 else 0

theorem row_is_loaded : ∃ p res,
    cPath tableCompiler (.index (elementOf "rows") (.number "1")) = some p ∧
      accessMemory tableCompiler (.index (elementOf "rows") (.number "1")) noCode = .ok (res, noCode) ∧
      p.value markedMemory 0 = 1 ∧ follow markedMemory res.offsets 0 = 0 ∧ ¬ Denotes p res := by
  refine ⟨_, _, rfl, rfl, by decide, by decide, fun h => ?_⟩
  exact absurd (h.word markedMemory 0) (by decide)

/-- An element of an array of numbers is loaded from its place. -/
theorem second_id_denotes : ∃ p res, cPath tableCompiler (elementOf "ids") = some p ∧
    accessMemory tableCompiler (elementOf "ids") noCode = .ok (res, noCode) ∧ Denotes p res :=
  ⟨_, _, rfl, rfl, (chains_denote_iff tableCompiler noCode (elementOf "ids")).1 _ _ _ rfl rfl (by decide)⟩

end Bpfsnoop.CC
