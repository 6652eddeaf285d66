/-
Bpfsnoop.Ebpf.Keeps — code that leaves the upper registers and the record
alone.

`Keeps` compares two states from a register up. Code that computes in the
registers below (`Op.below`) and jumps only inside itself falls through and
keeps everything above (`exec_below`). Code that ends in search of a label
has a jump to it (`references_of_seek`).
-/
import Bpfsnoop.Ebpf.Forward
import Bpfsnoop.Ebpf.Jumps

namespace Bpfsnoop.Ebpf

/-- The registers from `bound` up and the record are as before. -/
structure Keeps (bound : Reg) (s s' : State) : Prop where
  regs : ∀ q, bound ≤ q → s'.regs q = s.regs q
  out : s'.out = s.out

variable {bound : Reg} {s s' s'' : State} {K : Kernel}

theorem Keeps.refl (bound : Reg) (s : State) : Keeps bound s s := ⟨fun _ _ => rfl, rfl⟩

theorem Keeps.trans (h : Keeps bound s s') (h' : Keeps bound s' s'') : Keeps bound s s'' :=
  ⟨fun q hq => (h'.regs q hq).trans (h.regs q hq), h'.out.trans h.out⟩

theorem keeps_set {dst : Reg} (hdst : dst < bound) (w : Word) : Keeps bound s (s.set dst w) := by
  refine ⟨fun q hq => State.set_regs_of_ne s w ?_, rfl⟩
  rintro rfl
  exact absurd hdst (not_lt.mpr hq)

/-- The instruction computes or loads into a register below `bound`, or
jumps by a displacement. -/
def Op.below (bound : Reg) : Op → Bool
  | .alu _ dst _ | .ldx _ dst _ _ => dst < bound
  | .ja _ | .jmp .. => true
  | _ => false

/-- Such an instruction keeps what is above and goes on behind it. -/
theorem below_step {op : Op} (h : op.below bound = true) (s : State) :
    Keeps bound s (op.exec K s).1 ∧ ((op.exec K s).2 = .next ∨
      ∃ off, op.displacement? = some off ∧ (op.exec K s).2 = .jump off) := by
  cases op with
  | alu op dst src => exact ⟨keeps_set (by simpa [Op.below] using h) _, .inl rfl⟩
  | ldx size dst src off => exact ⟨keeps_set (by simpa [Op.below] using h) _, .inl rfl⟩
  | ja off => exact ⟨Keeps.refl bound s, .inr ⟨off, rfl, rfl⟩⟩
  | jmp op dst src off =>
    refine ⟨Keeps.refl bound s, ?_⟩
    by_cases hc : op.eval (s.regs dst) (src.eval s.regs)
    · exact .inr ⟨off, rfl, by simp [Op.exec, hc]⟩
    · exact .inl (by simp [Op.exec, hc])
  | stx | jmpTo | call | callKfunc | exit => simp [Op.below] at h

/-- **Code below a register** falls through, from its start and from behind
any number of its instructions. -/
theorem exec_below {code : List Insn} (h : ∀ i ∈ code, i.op.below bound = true)
    (hinside : jumpsInside (code.map (·.op)) = true) {n : Nat} (hn : n ≤ code.length) (s : State) :
    ∃ s', exec K code (.skip n) s = .cont .run s' ∧ Keeps bound s s' := by
  induction code generalizing n s with
  | nil =>
    obtain rfl : n = 0 := Nat.le_zero.mp hn
    exact ⟨s, rfl, Keeps.refl bound s⟩
  | cons i code ih =>
    rw [List.map_cons, jumpsInside, Bool.and_eq_true] at hinside
    have ih := @ih (fun j hj => h j (List.mem_cons_of_mem i hj)) hinside.2
    cases n with
    | succ n => exact ih (Nat.le_of_succ_le_succ hn) s
    | zero =>
      have hstep := below_step (K := K) (h i (by simp)) s
      rcases hop : i.op.exec K s with ⟨t, nx⟩
      rw [hop] at hstep
      obtain ⟨hkeeps, rfl | ⟨off, hoff, rfl⟩⟩ := hstep
      · obtain ⟨s', hexec, hkeeps'⟩ := @ih 0 (Nat.zero_le _) t
        refine ⟨s', ?_, hkeeps.trans hkeeps'⟩
        simpa [exec, Mode.over, hop] using hexec
      · -- the jump lands inside the rest
        have hland := hinside.1
        simp only [hoff, Bool.and_eq_true, decide_eq_true_eq, List.length_map] at hland
        have hmsb : off.msb = false := by
          rw [BitVec.msb_eq_toInt]
          exact decide_eq_false (not_lt.mpr hland.1)
        have hle : off.toNat ≤ code.length := by
          rw [BitVec.toInt_eq_toNat_of_msb hmsb] at hland
          exact_mod_cast hland.2
        obtain ⟨s', hexec, hkeeps'⟩ := @ih off.toNat hle t
        refine ⟨s', ?_, hkeeps.trans hkeeps'⟩
        simpa [exec, Mode.over, hop, hmsb] using hexec

/-- Code that ends in search of a label has a jump to it. -/
theorem references_of_seek {label : String} {code : List Insn} {m : Mode} {s t : State}
    (h : exec K code m s = .cont (.seek label) t) (hm : m ≠ .seek label) : References label code := by
  induction code generalizing m s with
  | nil =>
    cases h
    exact absurd rfl hm
  | cons i code ih =>
    have hlater : References label code → References label (i :: code) := by
      rintro ⟨j, hj, hl⟩
      exact ⟨j, List.mem_cons_of_mem i hj, hl⟩
    unfold exec at h
    cases hover : m.over i with
    | some m' =>
      rw [hover] at h
      refine hlater (ih h ?_)
      -- a search that goes on is for the same label
      rintro rfl
      cases m with
      | skip n => cases n <;> cases hover
      | seek l =>
        by_cases hi : i.symbol = some l
        · simp [Mode.over, hi] at hover
        · simp only [Mode.over, hi, if_false, Option.some.injEq, Mode.seek.injEq] at hover
          exact hm (by rw [hover])
    | none =>
      rw [hover] at h
      rcases hop : i.op.exec K s with ⟨u, _ | off | l | _⟩ <;> rw [hop] at h <;> dsimp only at h
      · exact hlater (ih h (by simp))
      · by_cases hneg : off.msb
        · simp [hneg] at h
        · simp only [hneg] at h
          exact hlater (ih h (by simp))
      · by_cases hl : l = label
        · exact ⟨i, List.mem_cons_self, hl ▸ label_of_exec hop⟩
        · exact hlater (ih h (by simpa using hl))
      · cases h

end Bpfsnoop.Ebpf
