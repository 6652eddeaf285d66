/-
Bpfsnoop.CC.LiveRegisters — when a memory read preserves the live
registers.

The registers saved around the calls of a memory read are chosen by
count: as many of `r1`, `r2`, … as there are registers in use among them,
whichever these are. `offset2insns_preserves_iff` says exactly for which
sets of live registers that is enough.

The "only if" half runs the same code from two states that differ in one
register the calls destroy: nothing of the difference is left at the end
(`exec_chainCode_set`), so the register cannot have been preserved from
both.
-/
import Bpfsnoop.CC.ReadTheorems

namespace Bpfsnoop.CC

open Ebpf Btf Reg

/-! ## Memory without a NULL pointer -/

/-- Every byte is 1. -/
def ones : Word → Byte := fun _ => 1

theorem loadLE_ones (a b : Word) (n : Nat) : loadLE ones a n = loadLE ones b n :=
  loadLE_congr fun _ _ => rfl

theorem loadLE_ones_ne (a : Word) (size : Size) : loadLE ones a size.bytes ≠ 0 := by
  intro h
  have hbit : (loadLE ones a size.bytes).getLsbD 0 = true := by
    rw [getLsbD_loadLE ones size.bytes a 0 (by omega)]
    cases size <;> simp [ones, Size.bytes]
  rw [h] at hbit
  simp at hbit

/-- No step of a chain finds a NULL there. -/
theorem readStep_ones (c : Compiler) (o : AccessOffset) (last : Bool) (w : Word) :
    ¬ ((readStep c o last).checked ∧ (readStep c o last).value ones w = 0) := by
  rintro ⟨hc, hv⟩
  unfold ReadStep.value at hv
  split at hv
  · rename_i hnone
    -- an unchecked address step
    unfold readStep at hc hnone
    split at hc
    · simp at hc
    · rename_i ho
      simp only [ho] at hnone
      cases hm : c.memMode with
      | probeRead => simp [hm] at hnone
      | directRead => simp [hm] at hnone
      | coreRead => cases hcast : castSize c o <;> simp [hm, hcast] at hnone
  · exact loadLE_ones_ne _ _ hv

/-- A chain has a value there. -/
theorem chainSem_ones (c : Compiler) : ∀ (offsets : List AccessOffset) (w : Word),
    ∃ v, chainSem c ones offsets w = .ok v
  | [], w => ⟨w, rfl⟩
  | o :: rest, w => by
      obtain ⟨v, hv⟩ := chainSem_ones c rest ((readStep c o (rest = [])).value ones w)
      refine ⟨v, ?_⟩
      show (if _ then _ else _) = _
      rw [if_neg (readStep_ones c o _ w)]
      exact hv

/-- The value of a chain with a load in it does not depend on the base. -/
theorem chainSem_ones_const (c : Compiler) : ∀ (offsets : List AccessOffset) (w w' : Word),
    allAddress offsets = false → chainSem c ones offsets w = chainSem c ones offsets w'
  | [], _, _, h => by simp [allAddress] at h
  | o :: rest, w, w', h => by
      have hsem (w : Word) : chainSem c ones (o :: rest) w
          = chainSem c ones rest ((readStep c o (rest = [])).value ones w) := by
        show (if _ then _ else _) = _
        rw [if_neg (readStep_ones c o _ w)]
        rfl
      rw [hsem, hsem]
      cases ho : o.address with
      | true =>
        have hrest : allAddress rest = false := by simpa [allAddress, ho] using h
        exact chainSem_ones_const c rest _ _ hrest
      | false =>
        have hload : ∃ size, (readStep c o (rest = [])).load = some size := by
          unfold readStep
          cases hm : c.memMode with
          | probeRead => exact ⟨.dword, by simp [ho]⟩
          | directRead => exact ⟨.dword, by simp [ho]⟩
          | coreRead => cases hcast : castSize c o <;> simp [ho]
        obtain ⟨size, hsize⟩ := hload
        have hconst : (readStep c o (rest = [])).value ones w
            = (readStep c o (rest = [])).value ones w' := by
          simp only [ReadStep.value, hsize]
          exact loadLE_ones _ _ _
        rw [hconst]

/-! ## Two runs that differ in one register -/

section TwoRuns

variable {K : Kernel} {c : Compiler} {reg q : Reg}

/-- Nothing is left of the content of `r0` to `r5` behind a probe read,
its argument `r3` apart. -/
theorem probed_set {s : State} {x : Word} (hq : q ≤ R5) (h3 : q ≠ R3) :
    probed K (s.set q x) = probed K s := by
  have hfp : RFP ≠ q := by
    rintro rfl
    exact absurd hq (by decide)
  have hregs : (fun r => if r ≤ R5 then K.clobber s.calls r else (s.set q x).regs r)
      = fun r => if r ≤ R5 then K.clobber s.calls r else s.regs r := by
    funext r
    by_cases hr : r ≤ R5
    · simp [hr]
    · have hne : r ≠ q := by
        rintro rfl
        exact hr hq
      simp [hr, hne]
  simp only [probed, State.set_calls, State.set_stack, hregs, State.set_regs_of_ne _ _ hfp,
    State.set_regs_of_ne _ _ (Ne.symm h3)]
  rfl

/-- A step whose call destroys `q` forgets its content. -/
theorem stepEffect_set_of_destroys {o : AccessOffset} {last : Bool} {s : State} {x : Word}
    (hK : K.fastcall = c.rdonlyCastFastcall) (hcur : q ≠ cursor c reg)
    (hd : stepDestroys c o q = true) :
    stepEffect K c reg o last (s.set q x) = stepEffect K c reg o last s := by
  have hbase : (s.set q x).regs (cursor c reg) = s.regs (cursor c reg) :=
    State.set_regs_of_ne _ _ (Ne.symm hcur)
  have ho : o.address = false := by
    cases ho : o.address with
    | false => rfl
    | true => simp [stepDestroys, ho] at hd
  cases hmode : c.memMode with
  | directRead => simp [stepDestroys, ho, hmode] at hd
  | probeRead =>
    have hlow : q ≤ R5 := by simpa [stepDestroys, ho, hmode] using hd
    have hc : cursor c reg = R3 := by simp [cursor, hmode]
    rw [hc] at hcur hbase
    simp only [stepEffect, ho, hmode, hc, hbase, Bool.false_eq_true, if_false]
    rw [State.set_comm s x _ hcur, probed_set hlow hcur]
  | coreRead =>
    have hc : cursor c reg = R1 := by simp [cursor, hmode]
    rw [hc] at hcur hbase
    cases hcast : castSize c o with
    | none =>
      have hlow : q ≤ R5 := by simpa [stepDestroys, ho, hmode, hcast] using hd
      simp only [stepEffect, ho, hmode, hcast, hc, hbase, Bool.false_eq_true, if_false]
      by_cases h3 : q = R3
      · rw [h3, State.set_set]
      · rw [State.set_comm s x _ h3, probed_set hlow h3]
    | some size =>
      have hclob : clobbered K.fastcall q = true := by
        simpa [stepDestroys, ho, hmode, hcast, hK] using hd
      simp only [stepEffect, ho, hmode, hcast, hc, hbase, Bool.false_eq_true, if_false]
      by_cases h2 : q = R2
      · rw [h2, State.set_set]
      · rw [State.set_comm s x _ h2, State.afterCall_set_of_clobbered K _ x hclob]

/-- A step that leaves `q` alone carries its content along, if a call of
the kind the chain makes could destroy it. -/
theorem stepEffect_set {o : AccessOffset} {last : Bool} {s : State} {x : Word}
    (hK : K.fastcall = c.rdonlyCastFastcall) (hmode : c.memMode ≠ .directRead) (hlow : q ≤ R5)
    (hreg : q ≠ reg) (hcur : q ≠ cursor c reg) (hd : stepDestroys c o q = false) :
    stepEffect K c reg o last (s.set q x) = (stepEffect K c reg o last s).set q x := by
  have hbase : (s.set q x).regs (cursor c reg) = s.regs (cursor c reg) :=
    State.set_regs_of_ne _ _ (Ne.symm hcur)
  cases ho : o.address with
  | true =>
    simp only [stepEffect, ho, hbase, if_true]
    split
    · rw [State.set_comm s x _ hcur, State.set_comm _ x _ hreg]
    · rw [State.set_comm s x _ hcur]
  | false =>
    cases hm : c.memMode with
    | directRead => exact absurd hm hmode
    | probeRead => exact absurd hlow (by simpa [stepDestroys, ho, hm] using hd)
    | coreRead =>
      have hc : cursor c reg = R1 := by simp [cursor, hm]
      cases hcast : castSize c o with
      | none => exact absurd hlow (by simpa [stepDestroys, ho, hm, hcast] using hd)
      | some size =>
        have hclob : clobbered K.fastcall q = false := by
          simpa [stepDestroys, ho, hm, hcast, hK] using hd
        have h2 : q ≠ R2 := by
          rintro rfl
          simp [clobbered_of_le _ R2 (by decide)] at hclob
        have h0 : q ≠ R0 := by
          rintro rfl
          simp [clobbered_of_le _ R0 (by decide)] at hclob
        have hdst : q ≠ if last then reg else R1 := by
          split
          · exact hreg
          · rwa [hc] at hcur
        rw [hc] at hbase
        simp only [stepEffect, ho, hm, hcast, hc, hbase, Bool.false_eq_true, if_false]
        rw [State.set_comm s x _ h2, State.afterCall_set K _ x hclob, State.set_comm _ x _ h0,
          State.set_comm _ x _ hdst]

/-- A loop whose calls destroy `q` forgets its content. -/
theorem exec_loopCode_set (hK : K.fastcall = c.rdonlyCastFastcall) (hmem : K.mem = ones)
    (hfp : reg ≠ RFP) (hmode : c.memMode ≠ .directRead) (hlow : q ≤ R5) (hreg : q ≠ reg)
    (hcur : q ≠ cursor c reg) (x : Word) :
    ∀ (offsets : List AccessOffset) (s : State), chainDestroys c offsets q = true →
      exec K (loopCode c reg offsets) .run (s.set q x) = exec K (loopCode c reg offsets) .run s
  | [], _, h => by simp [chainDestroys] at h
  | o :: rest, s, h => by
      -- neither run leaves for the exit label
      have hstep (s : State) : exec K (stepCode c reg o (rest = [])) .run s
          = .cont .run (stepEffect K c reg o (rest = []) s) := by
        rw [(exec_stepCode hK hfp _ s).exec, if_neg]
        rw [hmem]
        exact readStep_ones c o _ _
      rw [loopCode, exec_append_of_run (hstep s), exec_append_of_run (hstep (s.set q x))]
      cases hd : stepDestroys c o q with
      | true => rw [stepEffect_set_of_destroys hK hcur hd]
      | false =>
        have hrest : chainDestroys c rest q = true := by simpa [chainDestroys, hd] using h
        rw [stepEffect_set hK hmode hlow hreg hcur hd]
        exact exec_loopCode_set hK hmem hfp hmode hlow hreg hcur x rest _ hrest

/-- Saving registers other than `q` carries its content along. -/
theorem exec_storeSlots_set (hfp : q ≠ RFP) (x : Word) :
    ∀ (slots : List (Nat × Reg)) (s s' : State), (∀ p ∈ slots, p.2 ≠ q) →
      exec K (storeSlots slots) .run s = .cont .run s' →
      exec K (storeSlots slots) .run (s.set q x) = .cont .run (s'.set q x)
  | [], s, s', _, h => by
      simp only [storeSlots, List.map_nil, exec_nil, Outcome.cont.injEq, true_and] at h
      rw [h]
      rfl
  | (d, r) :: slots, s, s', hne, h => by
      have hr : r ≠ q := hne (d, r) (by simp)
      have hop : ((Op.stx .dword RFP (slotOffset d) r).exec K (s.set q x)).1
          = ((Op.stx .dword RFP (slotOffset d) r).exec K s).1.set q x := by
        simp only [Op.exec, if_true, State.set_regs_of_ne _ _ (Ne.symm hfp),
          State.set_regs_of_ne _ _ hr]
        rfl
      have ih := exec_storeSlots_set hfp x slots ((Op.stx .dword RFP (slotOffset d) r).exec K s).1 s'
        (fun p hp => hne p (List.mem_cons_of_mem _ hp)) h
      rw [storeSlots, List.map_cons, exec_stx, hop]
      exact ih

/-- **The code of a chain forgets a register** that its calls destroy, if
it is neither the target nor saved. -/
theorem exec_chainCode_set {ra : RegisterAllocator} {offsets : List AccessOffset}
    (hK : K.fastcall = c.rdonlyCastFastcall) (hmem : K.mem = ones) (hfit : StackFits c)
    (hfp : reg ≠ RFP) (hreg : q ≠ reg) (hd : chainDestroys c offsets q = true)
    (hsaved : restored c ra offsets q = false) (x : Word) (s : State) :
    exec K (chainCode c ra offsets reg) .run (s.set q x)
      = exec K (chainCode c ra offsets reg) .run s := by
  have hload : allAddress offsets = false := by
    obtain ⟨o, ho, hdo⟩ := List.any_eq_true.mp hd
    have haddr : o.address = false := by
      cases haddr : o.address with
      | false => rfl
      | true => simp [stepDestroys, haddr] at hdo
    exact List.all_eq_false.mpr ⟨o, ho, by simp [haddr]⟩
  have hmode : c.memMode ≠ .directRead := by
    intro hm
    simp [chainDestroys, stepDestroys, hm] at hd
  have hlow : q ≤ R5 := by
    by_contra hq
    rw [chainDestroys_high (not_le.mp hq)] at hd
    simp at hd
  have hqfp : q ≠ RFP := by
    rintro rfl
    exact absurd hlow (by decide)
  have hnot : q ∉ savedRegs ra (savedRegsNr c) := by
    simpa [restored, hload, hmode] using hsaved
  have hcode : chainCode c ra offsets reg = pushCode c ra (savedRegsNr c)
      ++ (enterCode c reg ++ (loopCode c reg offsets ++ popCode c ra (savedRegsNr c))) := by
    simp only [chainCode, hload, Bool.false_eq_true, if_false]
    cases hm : c.memMode with
    | directRead => exact absurd hm hmode
    | probeRead => simp
    | coreRead => simp
  have hdepth := @slots_depth c ra (savedRegsNr c) hfit (savedRegsNr_le c)
  obtain ⟨s₁, hpush, -⟩ := exec_storeSlots K
    (r0Slots c ra (savedRegsNr c) ++ callerSlots c ra (savedRegsNr c)) s
    (fun p hp => (hdepth p hp).2.trans (by decide)) slots_apart
  have hne : ∀ p ∈ r0Slots c ra (savedRegsNr c) ++ callerSlots c ra (savedRegsNr c), p.2 ≠ q := by
    rintro p hp rfl
    refine hnot ?_
    rw [← slots_regs c]
    exact List.mem_map_of_mem (List.mem_append.mpr (List.mem_append.mp hp).symm)
  have hpush' := exec_storeSlots_set hqfp x _ s s₁ hne hpush
  rw [hcode, pushCode_eq, exec_append_of_run hpush, exec_append_of_run hpush']
  by_cases hcur : q = cursor c reg
  · -- the base moves into the cursor
    have hmove : reg ≠ cursor c reg := by
      rw [← hcur]
      exact Ne.symm hreg
    rw [enterCode, if_pos hmove, List.singleton_append, exec_alu, exec_alu, hcur, Operand.eval_reg,
      Operand.eval_reg, State.set_regs_of_ne _ _ hmove, AluOp.eval, AluOp.eval, State.set_set]
  · have henter : ∃ s₂, exec K (enterCode c reg) .run s₁ = .cont .run s₂ ∧
        exec K (enterCode c reg) .run (s₁.set q x) = .cont .run (s₂.set q x) := by
      rw [enterCode]
      split
      · refine ⟨s₁.set (cursor c reg) (s₁.regs reg), rfl, ?_⟩
        rw [exec_alu, Operand.eval_reg, AluOp.eval, State.set_regs_of_ne _ _ (Ne.symm hreg),
          State.set_comm _ x _ hcur]
        rfl
      · exact ⟨s₁, rfl, rfl⟩
    obtain ⟨s₂, h₁, h₂⟩ := henter
    rw [exec_append_of_run h₁, exec_append_of_run h₂, exec_append, exec_append,
      exec_loopCode_set hK hmem hfp hmode hlow hreg hcur x offsets s₂ hd]

end TwoRuns

/-! ## Which live registers survive a read -/

/-- What a memory read owes its caller. Wherever no pointer on the way is
NULL, the code emitted between `g` and `g'` runs to its end, leaves the
value of the chain in the target and every other register in use as it
was. -/
def PreservesLive (c : Compiler) (offsets : List AccessOffset) (reg : Reg) (g g' : Gen) : Prop :=
  ∃ frag, g'.insns = g.insns ++ frag ∧
    ∀ (K : Kernel) (s : State) (v : Word), K.fastcall = c.rdonlyCastFastcall →
      chainSem c K.mem offsets (s.regs reg) = .ok v →
      ∃ s', exec K frag .run s = .cont .run s' ∧ s'.regs reg = v ∧
        ∀ q, g.regalloc.isUsed q = true → q ≠ reg → s'.regs q = s.regs q

/-- The target is not loaded back behind the read, and every other
register in use that a call of the chain destroys is. -/
structure RegsSafe (c : Compiler) (ra : RegisterAllocator) (offsets : List AccessOffset)
    (reg : Reg) : Prop where
  target : restored c ra offsets reg = false
  others : ∀ q, ra.isUsed q = true → q ≠ reg → chainDestroys c offsets q = true →
    restored c ra offsets q = true

instance (c : Compiler) (ra : RegisterAllocator) (offsets : List AccessOffset) (reg : Reg) :
    Decidable (RegsSafe c ra offsets reg) :=
  decidable_of_iff (restored c ra offsets reg = false ∧ ∀ q, ra.isUsed q = true → q ≠ reg →
    chainDestroys c offsets q = true → restored c ra offsets q = true)
    ⟨fun h => ⟨h.1, h.2⟩, fun h => ⟨h.target, h.others⟩⟩

section Live

variable {c : Compiler} {offsets : List AccessOffset} {reg : Reg} {g g' : Gen}

theorem PreservesLive.of_safe (hfit : StackFits c) (hreg : reg ≠ RFP)
    (h : offset2insns c offsets reg g = .ok ((), g'))
    (hsafe : RegsSafe c g.regalloc offsets reg) : PreservesLive c offsets reg g g' := by
  refine ⟨chainCode c g.regalloc offsets reg, by rw [offset2insns_eq h]; rfl, ?_⟩
  intro K s v hK hv
  obtain ⟨m, s', hexec, -, -, hres⟩ := @exec_chainCode K c g.regalloc reg hK hfit hreg offsets s
  rw [hv] at hres
  obtain ⟨rfl, htarget, hothers⟩ := hres
  refine ⟨s', hexec, ?_, fun q hused hq => hothers q hq ?_⟩
  · simpa [hsafe.target] using htarget
  · cases hd : chainDestroys c offsets q with
    | false => exact .inl rfl
    | true => exact .inr (hsafe.others q hused hq hd)

/-- A kernel whose memory holds no NULL pointer. -/
def onesKernel (c : Compiler) : Kernel :=
  { mem := ones, clobber := fun _ _ => 0, fastcall := c.rdonlyCastFastcall }

/-- A target that is loaded back has lost the value. -/
theorem PreservesLive.target_lost (hfit : StackFits c) (hreg : reg ≠ RFP)
    (h : offset2insns c offsets reg g = .ok ((), g')) (hlive : PreservesLive c offsets reg g g') :
    restored c g.regalloc offsets reg = false := by
  obtain ⟨frag, hfrag, hlive⟩ := hlive
  have hcode : frag = chainCode c g.regalloc offsets reg := by
    rw [offset2insns_eq h] at hfrag
    exact (List.append_cancel_left hfrag).symm
  by_contra hne
  have hrest : restored c g.regalloc offsets reg = true := by simpa using hne
  have hload : allAddress offsets = false := by
    cases hall : allAddress offsets with
    | false => rfl
    | true => simp [restored, hall] at hrest
  -- a base that is not the value of the chain
  obtain ⟨v, hv⟩ := chainSem_ones c offsets 0
  obtain ⟨s, hs⟩ : ∃ s : State, s.regs reg = v + 1 :=
    ⟨⟨fun _ => v + 1, ones, ones, 0⟩, rfl⟩
  have hsem : chainSem c ones offsets (s.regs reg) = .ok v := by
    rw [chainSem_ones_const c offsets _ 0 hload, hv]
  obtain ⟨s', hexec, hval, -⟩ := hlive (onesKernel c) s v rfl hsem
  obtain ⟨m, s'', hexec', -, -, hres⟩ :=
    @exec_chainCode (onesKernel c) c g.regalloc reg rfl hfit hreg offsets s
  have hsem' : chainSem c (onesKernel c).mem offsets (s.regs reg) = .ok v := hsem
  rw [hsem', hrest] at hres
  rw [hcode, hexec'] at hexec
  simp only [Outcome.cont.injEq] at hexec
  rw [← hexec.2, hres.2.1] at hval
  simp only [if_true, hs] at hval
  bv_omega

/-- A register that is destroyed and not loaded back is lost. -/
theorem PreservesLive.other_lost (hfit : StackFits c) (hreg : reg ≠ RFP)
    (h : offset2insns c offsets reg g = .ok ((), g')) (hlive : PreservesLive c offsets reg g g')
    {q : Reg} (hused : g.regalloc.isUsed q = true) (hq : q ≠ reg)
    (hd : chainDestroys c offsets q = true) : restored c g.regalloc offsets q = true := by
  obtain ⟨frag, hfrag, hlive⟩ := hlive
  have hcode : frag = chainCode c g.regalloc offsets reg := by
    rw [offset2insns_eq h] at hfrag
    exact (List.append_cancel_left hfrag).symm
  by_contra hne
  have hlost : restored c g.regalloc offsets q = false := by simpa using hne
  -- two states that differ in `q` only
  obtain ⟨s, hs⟩ : ∃ s : State, s.regs q = 0 := ⟨⟨fun _ => 0, ones, ones, 0⟩, rfl⟩
  have hbase : (s.set q 1).regs reg = s.regs reg := State.set_regs_of_ne _ _ (Ne.symm hq)
  obtain ⟨v, hv⟩ := chainSem_ones c offsets (s.regs reg)
  obtain ⟨s₁, hexec₁, -, hkeep₁⟩ := hlive (onesKernel c) s v rfl hv
  obtain ⟨s₂, hexec₂, -, hkeep₂⟩ := hlive (onesKernel c) (s.set q 1) v rfl (by rw [hbase]; exact hv)
  have hsame : exec (onesKernel c) (chainCode c g.regalloc offsets reg) .run (s.set q 1)
      = exec (onesKernel c) (chainCode c g.regalloc offsets reg) .run s :=
    exec_chainCode_set rfl rfl hfit hreg hq hd hlost 1 s
  rw [← hcode, hexec₁, hexec₂] at hsame
  simp only [Outcome.cont.injEq, true_and] at hsame
  have h₁ : s₁.regs q = 0 := by rw [hkeep₁ q hused hq, hs]
  have h₂ : s₂.regs q = 1 := by rw [hkeep₂ q hused hq, State.set_regs_self]
  rw [hsame, h₁] at h₂
  exact absurd h₂ (by decide)

/-- **When a memory read preserves the live registers.** For every set of
registers in use, every chain, every read mode and every target in use:
exactly when the target is not among the registers restored by count and
all other live registers that the calls destroy are. -/
theorem offset2insns_preserves_iff (hfit : StackFits c) (hfp : g.regalloc.isUsed RFP = false)
    (hreg : g.regalloc.isUsed reg = true) (h : offset2insns c offsets reg g = .ok ((), g')) :
    PreservesLive c offsets reg g g' ↔ RegsSafe c g.regalloc offsets reg := by
  have hne : reg ≠ RFP := by
    rintro rfl
    rw [hfp] at hreg
    exact absurd hreg (by decide)
  constructor
  · intro hlive
    exact ⟨hlive.target_lost hfit hne h, fun q hused hq hd => hlive.other_lost hfit hne h hused hq hd⟩
  · exact PreservesLive.of_safe hfit hne h

end Live

/-! ### A read that loses an operand

Five operands wait in `r8` to `r4`, as in `a->v + (b->v + (c->v + (d->v +
e->v)))` over parameters in memory. Two of them are caller-saved, `r5` and
the target `r4`, so `r1` and `r2` are saved and `r5` is not. -/

/-- `r4` to `r9` are in use. -/
def nestedGen : Gen :=
  { regalloc := ⟨fun q => R4 ≤ q ∧ q ≤ R9⟩, insns := [], labelExitUsed := false }

/-- One load, of a pointer's first member. -/
def oneLoad : List AccessOffset :=
  [{ btf := .int "u64" 8 .unsigned, prev := some (.pointer (.struct "s" 0)), offset := 0,
     address := false }]

theorem nested_read_loses_operand :
    offset2insns (Compiler.empty .probeRead) oneLoad R4 nestedGen
        = .ok ((), nestedGen.withCode
            (chainCode (Compiler.empty .probeRead) nestedGen.regalloc oneLoad R4) false) ∧
      ¬ PreservesLive (Compiler.empty .probeRead) oneLoad R4 nestedGen (nestedGen.withCode
          (chainCode (Compiler.empty .probeRead) nestedGen.regalloc oneLoad R4) false) := by
  have hok : offset2insns (Compiler.empty .probeRead) oneLoad R4 nestedGen
      = .ok ((), nestedGen.withCode
          (chainCode (Compiler.empty .probeRead) nestedGen.regalloc oneLoad R4) false) := by
    rfl
  refine ⟨hok, fun hlive => ?_⟩
  have hr5 := hlive.other_lost (by decide) (by decide) hok (q := R5) (by decide) (by decide) (by decide)
  exact absurd hr5 (by decide)

theorem nested_read_preserves_iff :
    PreservesLive (Compiler.empty .probeRead) oneLoad R4 nestedGen (nestedGen.withCode
        (chainCode (Compiler.empty .probeRead) nestedGen.regalloc oneLoad R4) false) ↔
      RegsSafe (Compiler.empty .probeRead) nestedGen.regalloc oneLoad R4 :=
  offset2insns_preserves_iff (by decide) (by decide) (by decide) rfl

end Bpfsnoop.CC
