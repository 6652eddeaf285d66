/-
Bpfsnoop.Ebpf.Cells — places for words in byte memory.

A cell is the address of eight bytes. Memories are compared on a list of
cells (`AgreeOn`): a load from one of the cells sees the same bytes in both
(`AgreeOn.loadLE`), and a store to a cell apart from all of them changes
nothing there (`agreeOn_store`). Only fifteen addresses are too close to a
cell, so there is room for one more as long as the list is not about as
long as the memory (`exists_apart`).
-/
import Bpfsnoop.Ebpf.Memory
import Mathlib.Data.Finset.Card

namespace Bpfsnoop.Ebpf

/-! ## Cells apart -/

/-- The eight bytes at `a` and the eight bytes at `b` do not meet. -/
def CellsApart (a b : Word) : Prop := 8 ≤ (a - b).toNat ∧ 8 ≤ (b - a).toNat

section Apart

variable {a b x : Word}

theorem CellsApart.symm (h : CellsApart a b) : CellsApart b a := ⟨h.2, h.1⟩

/-- Cells that move together stay apart. -/
theorem apart_add_iff (d : Word) : CellsApart (a + d) b ↔ CellsApart a (b - d) := by
  unfold CellsApart
  rw [show a + d - b = a - (b - d) by bv_omega, show b - (a + d) = b - d - a by bv_omega]

/-- A step of 15 bytes or more, in either direction, leaves the cells that
are too close. -/
theorem apart_or_apart_add (hlo : 15 ≤ x.toNat) (hhi : x.toNat ≤ 2 ^ 64 - 15) : CellsApart a b ∨ CellsApart (a + x) b := by
  unfold CellsApart
  by_contra hno
  push Not at hno
  bv_omega

/-- The addresses too close to a cell. -/
def around (y : Word) : List Word := (List.range 15).map fun i => y + BitVec.ofNat 64 i - 7

theorem apart_of_notMem (h : x ∉ around b) : CellsApart x b := by
  simp only [around, List.mem_map, List.mem_range, not_exists, not_and] at h
  constructor
  · by_contra hlt
    refine h ((x - b).toNat + 7) (by omega) ?_
    bv_omega
  · by_contra hlt
    refine h (7 - (b - x).toNat) (by omega) ?_
    bv_omega

end Apart

/-! ## Free places -/

/-- A list shorter than the memory leaves an address out. -/
theorem exists_notMem (l : List Word) (h : l.length < 2 ^ 64) : ∃ x, x ∉ l := by
  have hcard : (l.map BitVec.toNat).toFinset.card < (Finset.range (2 ^ 64)).card := by
    calc (l.map BitVec.toNat).toFinset.card ≤ (l.map BitVec.toNat).length := List.toFinset_card_le _
      _ = l.length := List.length_map _
      _ < (Finset.range (2 ^ 64)).card := by rwa [Finset.card_range]
  obtain ⟨n, hn, hnot⟩ := Finset.exists_mem_notMem_of_card_lt_card hcard
  refine ⟨BitVec.ofNat 64 n, fun hmem => hnot ?_⟩
  have hlt := Finset.mem_range.mp hn
  rw [List.mem_toFinset, List.mem_map]
  exact ⟨_, hmem, by rw [BitVec.toNat_ofNat, Nat.mod_eq_of_lt hlt]⟩

/-- **There is room for one more cell**, and some choice of it. -/
theorem exists_apart (cells avoid : List Word) (h : 15 * cells.length + avoid.length < 2 ^ 64) :
    ∃ x, x ∉ avoid ∧ ∀ y ∈ cells, CellsApart x y := by
  obtain ⟨x, hx⟩ := exists_notMem (avoid ++ cells.flatMap around) (by
    have hsum : (cells.flatMap around).length = 15 * cells.length := by
      simp [List.length_flatMap, around, Nat.mul_comm]
    rw [List.length_append, hsum]
    omega)
  rw [List.mem_append, not_or, List.mem_flatMap] at hx
  exact ⟨x, hx.1, fun y hy => apart_of_notMem fun hmem => hx.2 ⟨y, hy, hmem⟩⟩

/-! ## Memories that agree -/

/-- The memories hold the same bytes in the cells. -/
def AgreeOn (cells : List Word) (m m' : Word → Byte) : Prop :=
  ∀ x ∈ cells, ∀ i < 8, m (x + BitVec.ofNat 64 i) = m' (x + BitVec.ofNat 64 i)

section AgreeOn

variable {cells cells' : List Word} {m m' m'' : Word → Byte} {a x w : Word} {n : Nat}

theorem AgreeOn.trans (h : AgreeOn cells m m') (h' : AgreeOn cells m' m'') : AgreeOn cells m m'' :=
  fun x hx i hi => (h x hx i hi).trans (h' x hx i hi)

theorem AgreeOn.mono (h : AgreeOn cells m m') (hsub : cells' ⊆ cells) : AgreeOn cells' m m' :=
  fun x hx => h x (hsub hx)

theorem AgreeOn.refl (cells : List Word) (m : Word → Byte) : AgreeOn cells m m := fun _ _ _ _ => rfl

/-- A load from a cell. -/
theorem AgreeOn.loadLE (h : AgreeOn cells m m') (hx : x ∈ cells) (hn : n ≤ 8) : loadLE m' x n = loadLE m x n :=
  loadLE_congr fun i hi => (h x hx i (by omega)).symm

/-- A store to a cell apart. -/
theorem agreeOn_store (h : ∀ x ∈ cells, CellsApart a x) (f : Nat → Byte) : AgreeOn cells m (writeBytes m a 8 f) := by
  intro x hx i hi
  obtain ⟨hlo, hhi⟩ := h x hx
  rw [writeBytes, if_neg (by bv_omega)]

/-- What is stored in a cell is read back in every memory that agrees. -/
theorem AgreeOn.loadLE_store (h : AgreeOn cells (writeBytes m a 8 (byteOf w)) m') (ha : a ∈ cells) :
    Ebpf.loadLE m' a 8 = w := by
  rw [h.loadLE ha le_rfl, loadLE_writeBytes]

end AgreeOn

end Bpfsnoop.Ebpf
