/-
Bpfsnoop.Ebpf.Slots — registers saved in the frame.

A slot is given by its depth below the frame pointer. Storing a list of
registers into slots that are apart puts each where it belongs
(`exec_storeSlots`), loading a list of slots brings each back
(`exec_loadSlots`).
-/
import Bpfsnoop.Ebpf.Forward
import Bpfsnoop.Ebpf.Memory

namespace Bpfsnoop.Ebpf

/-- The word at depth `n` of the frame. -/
def State.slot (s : State) (n : Nat) : Word := loadLE s.stack (s.regs .RFP - BitVec.ofNat 64 n) 8

/-- The displacement of a slot. -/
def slotOffset (n : Nat) : BitVec 16 := int16 (-(BitVec.ofNat 64 n))

theorem slotOffset_address {n : Nat} (h : n ≤ 2 ^ 15) (fp : Word) :
    fp + (slotOffset n).signExtend 64 = fp - BitVec.ofNat 64 n := by
  rw [slotOffset, int16_neg h]
  bv_omega

def storeSlots (slots : List (Nat × Reg)) : List Insn :=
  slots.map fun p => (⟨.stx .dword .RFP (slotOffset p.1) p.2, none⟩ : Insn)

def loadSlots (slots : List (Nat × Reg)) : List Insn :=
  slots.map fun p => (⟨.ldx .dword p.2 .RFP (slotOffset p.1), none⟩ : Insn)

theorem exec_storeSlots (K : Kernel) : ∀ (slots : List (Nat × Reg)) (s : State),
    (∀ p ∈ slots, p.1 ≤ 2 ^ 15) →
    slots.Pairwise (fun p q => p.1 + 8 ≤ q.1 ∨ q.1 + 8 ≤ p.1) →
    ∃ s', exec K (storeSlots slots) .run s = .cont .run s' ∧ s'.regs = s.regs ∧ s'.out = s.out ∧
      (∀ p ∈ slots, s'.slot p.1 = s.regs p.2) ∧
      ∀ n, n ≤ 2 ^ 15 → (∀ p ∈ slots, n + 8 ≤ p.1 ∨ p.1 + 8 ≤ n) → s'.slot n = s.slot n
  | [], s, _, _ => ⟨s, rfl, rfl, rfl, by simp, fun _ _ _ => rfl⟩
  | (d, r) :: slots, s, hle, hpair => by
      have hd : d ≤ 2 ^ 15 := hle (d, r) (by simp)
      obtain ⟨hhead, htail⟩ := List.pairwise_cons.mp hpair
      obtain ⟨t, ht⟩ : ∃ t, t = ((Op.stx .dword .RFP (slotOffset d) r).exec K s).1 := ⟨_, rfl⟩
      have hregs : t.regs = s.regs := by rw [ht]; rfl
      have hout : t.out = s.out := by rw [ht]; rfl
      have hstack : t.stack
          = writeBytes s.stack (s.regs .RFP - BitVec.ofNat 64 d) 8 (byteOf (s.regs r)) := by
        rw [ht, ← slotOffset_address hd]
        rfl
      obtain ⟨s', hexec, hregs', hout', hslots, hothers⟩ := exec_storeSlots K slots t
        (fun p hp => hle p (List.mem_cons_of_mem _ hp)) htail
      refine ⟨s', ?_, by rw [hregs', hregs], by rw [hout', hout], ?_, ?_⟩
      · rw [← hexec, ht]
        rfl
      · intro p hp
        rcases List.mem_cons.mp hp with rfl | hp
        · rw [hothers d hd fun q hq => hhead q hq, State.slot, hregs, hstack]
          exact loadLE_writeBytes _ _ _
        · rw [hslots p hp, hregs]
      · intro n hn hapart
        rw [hothers n hn fun p hp => hapart p (List.mem_cons_of_mem _ hp), State.slot, hregs, hstack]
        exact loadLE_writeBytes_of_disjoint
          (disjoint_of_depths _ hn hd (hapart (d, r) (by simp)))

theorem exec_loadSlots (K : Kernel) : ∀ (slots : List (Nat × Reg)) (s : State),
    (∀ p ∈ slots, p.1 ≤ 2 ^ 15 ∧ p.2 ≠ .RFP) → (slots.map (·.2)).Nodup →
    ∃ s', exec K (loadSlots slots) .run s = .cont .run s' ∧ s'.out = s.out ∧
      (∀ p ∈ slots, s'.regs p.2 = s.slot p.1) ∧
      ∀ q, q ∉ slots.map (·.2) → s'.regs q = s.regs q
  | [], s, _, _ => ⟨s, rfl, rfl, by simp, fun _ _ => rfl⟩
  | (d, r) :: slots, s, hle, hnodup => by
      obtain ⟨hd, hr⟩ := hle (d, r) (by simp)
      obtain ⟨hhead, htail⟩ := List.nodup_cons.mp hnodup
      obtain ⟨t, ht⟩ : ∃ t, t = s.set r (s.slot d) := ⟨_, rfl⟩
      have hslot : ∀ n, t.slot n = s.slot n := by
        intro n
        rw [State.slot, State.slot, ht, State.set_regs_of_ne _ _ (Ne.symm hr), State.set_stack]
      obtain ⟨s', hexec, hout, hslots, hothers⟩ := exec_loadSlots K slots t
        (fun p hp => hle p (List.mem_cons_of_mem _ hp)) htail
      refine ⟨s', ?_, by rw [hout, ht, State.set_out], ?_, ?_⟩
      · rw [← hexec, ht, State.slot, ← slotOffset_address hd]
        rfl
      · intro p hp
        rcases List.mem_cons.mp hp with rfl | hp
        · rw [hothers r hhead, ht, State.set_regs_self]
        · rw [hslots p hp, hslot]
      · intro q hq
        simp only [List.map_cons, List.mem_cons, not_or] at hq
        rw [hothers q hq.2, ht, State.set_regs_of_ne _ _ hq.1]

end Bpfsnoop.Ebpf
