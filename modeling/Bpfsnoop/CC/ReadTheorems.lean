/-
Bpfsnoop.CC.ReadTheorems — the code of a memory read computes the value
of its chain.

`exec_loopCode` is the loop of a read mode: it leaves the value `chainSem`
gives in the target register, or goes to the exit label where `chainSem`
does, and changes no more than the registers its calls destroy and the
eight bytes below the frame pointer. `exec_chainCode` adds the saves and
restores around it.
-/
import Bpfsnoop.CC.ReadSemantics
import Bpfsnoop.Ebpf.Slots

namespace Bpfsnoop.CC

open Ebpf Btf Reg

/-! ## What a step changes -/

/-- The registers the call of a step destroys. -/
def stepDestroys (c : Compiler) (o : AccessOffset) (q : Reg) : Bool :=
  if o.address then false
  else
    match c.memMode with
    | .probeRead => q ≤ R5
    | .directRead => false
    | .coreRead =>
      match castSize c o with
      | some _ => clobbered c.rdonlyCastFastcall q
      | none => q ≤ R5

/-- The registers in `keep` and all memory but the eight bytes below the
frame pointer are as before. -/
structure ReadFrame (keep : Reg → Prop) (s s' : State) : Prop where
  regs : ∀ q, keep q → s'.regs q = s.regs q
  fp : s'.regs RFP = s.regs RFP
  out : s'.out = s.out
  stack : ∀ a, ¬ (a - (s.regs RFP - 8)).toNat < 8 → s'.stack a = s.stack a

theorem ReadFrame.refl (keep : Reg → Prop) (s : State) : ReadFrame keep s s :=
  ⟨fun _ _ => rfl, rfl, rfl, fun _ _ => rfl⟩

theorem ReadFrame.trans {keep : Reg → Prop} {s s' s'' : State} (h : ReadFrame keep s s')
    (h' : ReadFrame keep s' s'') : ReadFrame keep s s'' where
  regs q hq := (h'.regs q hq).trans (h.regs q hq)
  fp := h'.fp.trans h.fp
  out := h'.out.trans h.out
  stack a ha := (h'.stack a (by rwa [h.fp])).trans (h.stack a ha)

theorem ReadFrame.mono {keep keep' : Reg → Prop} {s s' : State} (h : ReadFrame keep s s')
    (hk : ∀ q, keep' q → keep q) : ReadFrame keep' s s' :=
  ⟨fun q hq => h.regs q (hk q hq), h.fp, h.out, h.stack⟩

theorem ReadFrame.set {keep : Reg → Prop} {s s' : State} (h : ReadFrame keep s s') {r : Reg}
    (w : Word) (hr : r ≠ RFP) (hk : ¬ keep r) : ReadFrame keep s (s'.set r w) where
  regs q hq := by
    have hne : q ≠ r := fun heq => hk (heq ▸ hq)
    rw [State.set_regs_of_ne _ _ hne]
    exact h.regs q hq
  fp := by
    rw [State.set_regs_of_ne _ _ (Ne.symm hr)]
    exact h.fp
  out := h.out
  stack := h.stack

/-! ## The probe read -/

/-- The state behind `probeCall`. -/
def probed (K : Kernel) (s : State) : State :=
  { s with
    regs := fun r => if r ≤ R5 then K.clobber s.calls r else s.regs r
    stack := writeBytes s.stack (s.regs RFP - 8) 8 fun i => K.mem (s.regs R3 + BitVec.ofNat 64 i)
    calls := s.calls + 1 }

theorem exec_probeCall (K : Kernel) (s : State) (is : List Insn) :
    exec K (probeCall ++ is) .run s = exec K is .run (probed K s) := by
  have hfp : s.regs RFP + int32 (-8) = s.regs RFP - 8 := by
    have : int32 (-8) = -8 := by decide
    rw [this]
    bv_omega
  have hin : inFrame (s.regs RFP) (s.regs RFP - 8) = true := by
    have : s.regs RFP - (s.regs RFP - 8) = 8 := by bv_omega
    rw [inFrame, this]
    rfl
  -- the arguments of the call
  obtain ⟨t, ht⟩ : ∃ t, t = (s.set R2 8).set R1 (s.regs RFP - 8) := ⟨_, rfl⟩
  have h1 : t.regs R1 = s.regs RFP - 8 := by simp [ht]
  have h2 : t.regs R2 = 8 := by rw [ht]; rfl
  have h3 : t.regs R3 = s.regs R3 := by rw [ht]; rfl
  have h10 : t.regs RFP = s.regs RFP := by rw [ht]; rfl
  have hhigh : ∀ r, ¬ r ≤ R5 → t.regs r = s.regs r := by
    intro r hr
    have hr1 : r ≠ R1 := fun h => hr (by rw [h]; decide)
    have hr2 : r ≠ R2 := fun h => hr (by rw [h]; decide)
    rw [ht, State.set_regs_of_ne _ _ hr1, State.set_regs_of_ne _ _ hr2]
  have hcode : exec K (probeCall ++ is) .run s
      = exec K is .run (Helper.probeReadKernel.exec K t) := by
    simp only [probeCall, List.cons_append, List.nil_append, exec_alu, exec_call,
      Operand.eval_imm, Operand.eval_reg, AluOp.eval]
    rw [State.set_set, State.set_regs_self, State.set_regs_of_ne _ _ (by decide), hfp, ht]
    rfl
  have hsize : (8 : Word).toNat = 8 := rfl
  rw [hcode, Helper.exec, h1, h2, h3, hsize, State.write, h10, if_pos hin]
  congr 1
  have hcalls : t.calls = s.calls := by rw [ht]; rfl
  have hstack : t.stack = s.stack := by rw [ht]; rfl
  have hout : t.out = s.out := by rw [ht]; rfl
  have hregs : (fun r => if clobbered false r then K.clobber s.calls r else t.regs r)
      = fun r => if r ≤ R5 then K.clobber s.calls r else s.regs r := by
    funext r
    by_cases hr : r ≤ R5
    · simp [clobbered, hr]
    · simp [clobbered, hr, hhigh r hr]
  simp only [State.afterCall, probed, hcalls, hstack, hout, hregs]

/-- What the probe read left below the frame pointer. -/
theorem probed_slot (K : Kernel) (s : State) :
    loadLE (probed K s).stack ((probed K s).regs RFP + (-8 : BitVec 16).signExtend 64) 8
      = loadLE K.mem (s.regs R3) 8 := by
  have hfp : (probed K s).regs RFP + (-8 : BitVec 16).signExtend 64 = s.regs RFP - 8 := by
    have h : (-8 : BitVec 16).signExtend 64 = -8 := by decide
    rw [h]
    show s.regs RFP + -8 = s.regs RFP - 8
    bv_omega
  rw [hfp]
  exact loadLE_writeBytes_copy s.stack K.mem (s.regs RFP - 8) (s.regs R3)

theorem probed_frame (K : Kernel) (s : State) : ReadFrame (fun q => ¬ q ≤ R5) s (probed K s) where
  regs _ hq := if_neg hq
  fp := rfl
  out := rfl
  stack _ ha := if_neg ha

/-! ## One step -/

section Step

variable {K : Kernel} {c : Compiler} {reg : Reg} {o : AccessOffset}

/-- A loaded 0 goes to the exit label. -/
theorem exec_jeqImm (K : Kernel) (s : State) (r : Reg) (l : String) :
    exec K [(Asm.jeqImm r 0 l : Insn)] .run s
      = .cont (if s.regs r = 0 then .seek l else .run) s := by
  by_cases h : s.regs r = 0#64
  · simp [h]
  · simp [h]

/-- A load into the cursor and its check, or the last load into the
target. -/
theorem exec_loadCheck (K : Kernel) (t : State) (reg cur src : Reg) (off : BitVec 16) (size : Size)
    (l : String) (last : Bool) {v : Word}
    (hv : loadLE (if src = RFP then t.stack else K.mem) (t.regs src + off.signExtend 64) size.bytes
      = v) :
    exec K ((Asm.loadMem (if last then reg else cur) src off size : Insn)
        :: if last then [] else [(Asm.jeqImm cur 0 l : Insn)]) .run t
      = .cont (if !last ∧ v = 0 then .seek l else .run) (t.set (if last then reg else cur) v) := by
  rw [exec_ldx, hv]
  cases last with
  | true => simp
  | false => simp

theorem exec_addOffsetCode (K : Kernel) (s : State) (cur : Reg) (o : AccessOffset) :
    exec K (addOffsetCode cur o) .run s = .cont .run (s.set cur (s.regs cur + int32 o.offset)) := by
  unfold addOffsetCode
  split
  · simp [AluOp.eval]
  · rename_i hz
    have hzero : o.offset = 0#64 := not_not.mp hz
    simp [hzero]

/-- The state behind the code of a step. -/
def stepEffect (K : Kernel) (c : Compiler) (reg : Reg) (o : AccessOffset) (last : Bool) (s : State) :
    State :=
  let cur := cursor c reg
  let dst := if last then reg else cur
  let v := (readStep c o last).value K.mem (s.regs cur)
  if o.address then
    if last ∧ reg ≠ cur then (s.set cur v).set reg v else s.set cur v
  else
    match c.memMode with
    | .probeRead => (probed K (s.set R3 (s.regs R3 + int32 o.offset))).set dst v
    | .directRead => s.set dst v
    | .coreRead =>
      match castSize c o with
      | none => (probed K (s.set R3 (s.regs R1))).set dst v
      | some _ =>
        (((s.set R2 (int32 (BitVec.ofNat 64 (castTypeID c o)))).afterCall K K.fastcall).set R0
          (s.regs R1)).set dst v

/-- The cursor is a register the code may write. -/
theorem cursor_ne_fp (hreg : reg ≠ RFP) : cursor c reg ≠ RFP := by
  unfold cursor
  split
  · decide
  · decide
  · exact hreg

/-- What the code of a step does: it leaves the value of the step in the
cursor, or in the target behind the last step, or goes to the exit label. -/
structure StepOk (K : Kernel) (c : Compiler) (reg : Reg) (o : AccessOffset) (last : Bool)
    (s : State) : Prop where
  exec : exec K (stepCode c reg o last) .run s
    = .cont (if (readStep c o last).checked ∧
          (readStep c o last).value K.mem (s.regs (cursor c reg)) = 0
        then .seek c.labelExit else .run) (stepEffect K c reg o last s)
  value : (stepEffect K c reg o last s).regs (if last then reg else cursor c reg)
    = (readStep c o last).value K.mem (s.regs (cursor c reg))
  frame : ReadFrame (fun q => q ≠ reg ∧ q ≠ cursor c reg ∧ stepDestroys c o q = false) s
    (stepEffect K c reg o last s)

/-- A step that ends in a load: `t` is the state before it. -/
theorem StepOk.of_load (t : State) (pre : List Insn) (src : Reg) (off : BitVec 16) (size : Size)
    {last : Bool} {s : State} (hreg : reg ≠ RFP)
    (hcode : stepCode c reg o last = pre
      ++ (Asm.loadMem (if last then reg else cursor c reg) src off size : Insn)
      :: if last then [] else [(Asm.jeqImm (cursor c reg) 0 c.labelExit : Insn)])
    (hchecked : (readStep c o last).checked = !last)
    (heffect : stepEffect K c reg o last s = t.set (if last then reg else cursor c reg)
      ((readStep c o last).value K.mem (s.regs (cursor c reg))))
    (hpre : Ebpf.exec K pre .run s = .cont .run t)
    (hframe : ReadFrame (fun q => q ≠ reg ∧ q ≠ cursor c reg ∧ stepDestroys c o q = false) s t)
    (hv : loadLE (if src = RFP then t.stack else K.mem) (t.regs src + off.signExtend 64) size.bytes
      = (readStep c o last).value K.mem (s.regs (cursor c reg))) :
    StepOk K c reg o last s := by
  have hcur : cursor c reg ≠ RFP := cursor_ne_fp hreg
  refine ⟨?_, ?_, ?_⟩
  · rw [hcode, exec_append_of_run hpre, exec_loadCheck K t reg _ src off size c.labelExit last hv,
      heffect, hchecked]
  · rw [heffect, State.set_regs_self]
  · rw [heffect]
    cases last with
    | true => exact hframe.set _ hreg fun h => h.1 rfl
    | false => exact hframe.set _ hcur fun h => h.2.1 rfl

theorem exec_addressStep (hreg : reg ≠ RFP) (ho : o.address = true) (last : Bool) (s : State) :
    StepOk K c reg o last s := by
  have hcur : cursor c reg ≠ RFP := cursor_ne_fp hreg
  have hstep : readStep c o last = ⟨int32 o.offset, none, false⟩ := by simp [readStep, ho]
  have hv : (readStep c o last).value K.mem (s.regs (cursor c reg))
      = s.regs (cursor c reg) + int32 o.offset := by rw [hstep]; rfl
  have hframe : ReadFrame (fun q => q ≠ reg ∧ q ≠ cursor c reg ∧ stepDestroys c o q = false) s
      (s.set (cursor c reg) (s.regs (cursor c reg) + int32 o.offset)) :=
    (ReadFrame.refl _ s).set _ hcur fun h => h.2.1 rfl
  by_cases hmove : (last : Prop) ∧ reg ≠ cursor c reg
  · have heffect : stepEffect K c reg o last s
        = (s.set (cursor c reg) (s.regs (cursor c reg) + int32 o.offset)).set reg
          (s.regs (cursor c reg) + int32 o.offset) := by
      rw [stepEffect, hv]
      simp only [ho, if_true]
      rw [if_pos hmove]
    refine ⟨?_, ?_, ?_⟩
    · rw [heffect, hstep]
      simp only [stepCode, ho, if_true]
      rw [exec_append_of_run (exec_addOffsetCode K s _ o), if_pos hmove]
      simp [AluOp.eval]
    · rw [heffect, hv, if_pos hmove.1, State.set_regs_self]
    · rw [heffect]
      exact hframe.set _ hreg fun h => h.1 rfl
  · have heffect : stepEffect K c reg o last s
        = s.set (cursor c reg) (s.regs (cursor c reg) + int32 o.offset) := by
      rw [stepEffect, hv]
      simp only [ho, if_true]
      rw [if_neg hmove]
    have hdst : (if last then reg else cursor c reg) = cursor c reg := by
      cases last with
      | false => rfl
      | true => simpa using hmove
    refine ⟨?_, ?_, ?_⟩
    · rw [heffect, hstep]
      simp only [stepCode, ho, if_true]
      rw [exec_append_of_run (exec_addOffsetCode K s _ o), if_neg hmove]
      simp
    · rw [heffect, hv, hdst, State.set_regs_self]
    · rw [heffect]
      exact hframe

theorem exec_directStep (hreg : reg ≠ RFP) (ho : o.address = false)
    (hmode : c.memMode = .directRead) (last : Bool) (s : State) : StepOk K c reg o last s := by
  have hstep : readStep c o last = ⟨(int16 o.offset).signExtend 64, some .dword, !last⟩ := by
    simp [readStep, ho, hmode]
  have hcur : cursor c reg = reg := by simp [cursor, hmode]
  refine StepOk.of_load s [] reg (int16 o.offset) .dword hreg ?_ (by rw [hstep]) ?_
    (exec_nil K .run s) (ReadFrame.refl _ s) ?_
  · simp [stepCode, ho, hmode, hcur]
  · simp [stepEffect, ho, hmode]
  · rw [if_neg hreg, hstep, hcur]
    rfl

theorem exec_probeStep (hreg : reg ≠ RFP) (ho : o.address = false)
    (hmode : c.memMode = .probeRead) (last : Bool) (s : State) : StepOk K c reg o last s := by
  have hstep : readStep c o last = ⟨int32 o.offset, some .dword, !last⟩ := by
    simp [readStep, ho, hmode]
  have hcur : cursor c reg = R3 := by simp [cursor, hmode]
  obtain ⟨t, ht⟩ : ∃ t, t = s.set R3 (s.regs R3 + int32 o.offset) := ⟨_, rfl⟩
  have hpre : exec K (addOffsetCode R3 o ++ probeCall) .run s = .cont .run (probed K t) := by
    have hcall := exec_probeCall K t []
    rw [List.append_nil] at hcall
    rw [exec_append_of_run (exec_addOffsetCode K s R3 o), ← ht, hcall]
    rfl
  refine StepOk.of_load (probed K t) _ RFP (-8) .dword hreg ?_ (by rw [hstep]) ?_ hpre ?_ ?_
  · simp [stepCode, ho, hmode, hcur]
  · simp [stepEffect, ho, hmode, ht]
  · have hset : ReadFrame (fun q => q ≠ reg ∧ q ≠ cursor c reg ∧ stepDestroys c o q = false) s t := by
      rw [ht]
      exact (ReadFrame.refl _ s).set _ (by decide) fun h => h.2.1 hcur.symm
    refine hset.trans ((probed_frame K t).mono fun q hq => ?_)
    simpa [stepDestroys, ho, hmode] using hq.2.2
  · rw [if_pos rfl, hstep, hcur]
    show loadLE _ _ 8 = loadLE K.mem (s.regs R3 + int32 o.offset) 8
    rw [probed_slot, ht, State.set_regs_self]

theorem exec_fallbackStep (hreg : reg ≠ RFP) (ho : o.address = false)
    (hmode : c.memMode = .coreRead) (hcast : castSize c o = none) (last : Bool) (s : State) :
    StepOk K c reg o last s := by
  have hstep : readStep c o last = ⟨0, some .dword, false⟩ := by
    simp [readStep, ho, hmode, hcast]
  have hcur : cursor c reg = R1 := by simp [cursor, hmode]
  obtain ⟨t, ht⟩ : ∃ t, t = s.set R3 (s.regs R1) := ⟨_, rfl⟩
  have hpre : exec K ((Asm.movReg R3 R1 : Insn) :: probeCall) .run s = .cont .run (probed K t) := by
    have hcall := exec_probeCall K t []
    rw [List.append_nil] at hcall
    rw [exec_alu]
    rw [ht] at hcall ⊢
    exact hcall
  have hv : loadLE (probed K t).stack
      ((probed K t).regs RFP + (-8 : BitVec 16).signExtend 64) 8 = loadLE K.mem (s.regs R1 + 0) 8 := by
    rw [probed_slot, ht, State.set_regs_self]
    simp
  have hdestroys : ∀ q, stepDestroys c o q = false → ¬ q ≤ R5 := by
    intro q hq
    simpa [stepDestroys, ho, hmode, hcast] using hq
  have hframe : ReadFrame (fun q => q ≠ reg ∧ q ≠ cursor c reg ∧ stepDestroys c o q = false) s
      (probed K t) := by
    have hset : ReadFrame (fun q => q ≠ reg ∧ q ≠ cursor c reg ∧ stepDestroys c o q = false) s t := by
      rw [ht]
      exact (ReadFrame.refl _ s).set _ (by decide) fun h => hdestroys R3 h.2.2 (by decide)
    exact hset.trans ((probed_frame K t).mono fun q hq => hdestroys q hq.2.2)
  have heffect : stepEffect K c reg o last s
      = (probed K t).set (if last then reg else cursor c reg) (loadLE K.mem (s.regs R1 + 0) 8) := by
    simp only [stepEffect, ho, hmode, hcast, hstep, hcur, ht, Bool.false_eq_true, if_false]
    rfl
  refine ⟨?_, ?_, ?_⟩
  · rw [heffect, hstep]
    simp only [stepCode, ho, hmode, hcast, hcur, Bool.false_eq_true, if_false, false_and]
    rw [exec_append_of_run hpre, exec_ldx, if_pos rfl, Size.bytes, hv]
    simp
  · rw [heffect, State.set_regs_self, hstep, hcur]
    rfl
  · rw [heffect]
    cases last with
    | true => exact hframe.set _ hreg fun h => h.1 rfl
    | false => exact hframe.set _ (cursor_ne_fp hreg) fun h => h.2.1 rfl

theorem exec_castStep (hK : K.fastcall = c.rdonlyCastFastcall) (hreg : reg ≠ RFP)
    (ho : o.address = false) (hmode : c.memMode = .coreRead) {size : Size}
    (hcast : castSize c o = some size) (last : Bool) (s : State) : StepOk K c reg o last s := by
  have hstep : readStep c o last = ⟨(int16 o.offset).signExtend 64, some size, !last⟩ := by
    simp [readStep, ho, hmode, hcast]
  have hcur : cursor c reg = R1 := by simp [cursor, hmode]
  obtain ⟨t, ht⟩ : ∃ t, t = s.set R2 (int32 (BitVec.ofNat 64 (castTypeID c o))) := ⟨_, rfl⟩
  obtain ⟨t', ht'⟩ : ∃ t', t' = (t.afterCall K K.fastcall).set R0 (s.regs R1) := ⟨_, rfl⟩
  have hpre : exec K [(Asm.movImm R2 (int32 (BitVec.ofNat 64 (castTypeID c o))) : Insn),
      (Op.callKfunc c.rdonlyCastTypeID : Insn)] .run s = .cont .run t' := by
    rw [exec_alu, exec_callKfunc, ht', ht, Operand.eval_imm, int32_int32]
    rfl
  refine StepOk.of_load t' _ R0 (int16 o.offset) size hreg ?_ (by rw [hstep]) ?_ hpre ?_ ?_
  · simp [stepCode, ho, hmode, hcast, hcur]
  · simp only [stepEffect, ho, hmode, hcast, hstep, hcur, ht', ht, Bool.false_eq_true, if_false]
  · have hkept : ∀ q, stepDestroys c o q = false → clobbered K.fastcall q = false := by
      intro q hq
      simpa [stepDestroys, ho, hmode, hcast, hK] using hq
    have hR0 : stepDestroys c o R0 ≠ false := fun h => by
      simpa [clobbered_of_le _ R0 (by decide)] using hkept R0 h
    have hR2 : stepDestroys c o R2 ≠ false := fun h => by
      simpa [clobbered_of_le _ R2 (by decide)] using hkept R2 h
    have hset : ReadFrame (fun q => q ≠ reg ∧ q ≠ cursor c reg ∧ stepDestroys c o q = false) s t := by
      rw [ht]
      exact (ReadFrame.refl _ s).set _ (by decide) fun h => hR2 h.2.2
    have hcall : ReadFrame (fun q => q ≠ reg ∧ q ≠ cursor c reg ∧ stepDestroys c o q = false) t
        (t.afterCall K K.fastcall) :=
      ⟨fun q hq => by simp [State.afterCall, hkept q hq.2.2],
        by simp [State.afterCall, clobbered_of_lt _ RFP (by decide)], rfl, fun _ _ => rfl⟩
    rw [ht']
    exact (hset.trans hcall).set _ (by decide) fun h => hR0 h.2.2
  · rw [if_neg (by decide), ht', State.set_regs_self, hstep, hcur]
    rfl

/-- **One step of a read loop**, in every mode. -/
theorem exec_stepCode (hK : K.fastcall = c.rdonlyCastFastcall) (hreg : reg ≠ RFP) (last : Bool)
    (s : State) : StepOk K c reg o last s := by
  cases ho : o.address with
  | true => exact exec_addressStep hreg ho last s
  | false =>
    cases hmode : c.memMode with
    | directRead => exact exec_directStep hreg ho hmode last s
    | probeRead => exact exec_probeStep hreg ho hmode last s
    | coreRead =>
      cases hcast : castSize c o with
      | none => exact exec_fallbackStep hreg ho hmode hcast last s
      | some size => exact exec_castStep hK hreg ho hmode hcast last s

end Step

/-! ## The loops -/

/-- No instruction carries a symbol. -/
def Unmarked (is : List Insn) : Prop := ∀ i ∈ is, i.symbol = none

theorem Unmarked.append {a b : List Insn} (ha : Unmarked a) (hb : Unmarked b) :
    Unmarked (a ++ b) := by
  intro i hi
  rcases List.mem_append.mp hi with hi | hi
  · exact ha i hi
  · exact hb i hi

/-- A search for a label passes over unmarked code. -/
theorem exec_seek_of_unmarked {K : Kernel} {is : List Insn} (h : Unmarked is) (l : String)
    (s : State) : exec K is (.seek l) s = .cont (.seek l) s :=
  exec_seek_of_not_mem fun i hi => by simp [h i hi]

theorem unmarked_probeCall : Unmarked probeCall := by
  intro i hi
  simp only [probeCall, List.mem_cons, List.not_mem_nil, or_false] at hi
  rcases hi with rfl | rfl | rfl | rfl <;> rfl

theorem unmarked_addOffsetCode (cur : Reg) (o : AccessOffset) : Unmarked (addOffsetCode cur o) := by
  unfold addOffsetCode
  split <;> simp [Unmarked]

theorem unmarked_stepCode (c : Compiler) (reg : Reg) (o : AccessOffset) (last : Bool) :
    Unmarked (stepCode c reg o last) := by
  have hcheck (r : Reg) : Unmarked (if last then [] else [(Asm.jeqImm r 0 c.labelExit : Insn)]) := by
    cases last <;> simp [Unmarked]
  have hone (op : Op) : Unmarked [(op : Insn)] := by simp [Unmarked]
  unfold stepCode
  dsimp only
  split
  · refine (unmarked_addOffsetCode _ o).append ?_
    split <;> simp [Unmarked]
  · cases c.memMode with
    | probeRead =>
      exact (((unmarked_addOffsetCode _ o).append unmarked_probeCall).append (hone _)).append
        (hcheck _)
    | directRead => exact (hone _).append (hcheck _)
    | coreRead =>
      cases castSize c o with
      | some size => exact (((hone _).append (hone _)).append (hone _)).append (hcheck _)
      | none => exact ((hone _).append unmarked_probeCall).append (hone _)

theorem unmarked_loopCode (c : Compiler) (reg : Reg) : ∀ offsets : List AccessOffset,
    Unmarked (loopCode c reg offsets)
  | [] => by simp [loopCode, Unmarked]
  | o :: rest => (unmarked_stepCode c reg o _).append (unmarked_loopCode c reg rest)

/-- The registers a chain's calls leave alone. -/
def chainDestroys (c : Compiler) (offsets : List AccessOffset) (q : Reg) : Bool :=
  offsets.any fun o => stepDestroys c o q

/-- **A read loop** on a value in the cursor: it leaves the value of the
chain in the target, or goes to the exit label where the chain does. -/
theorem exec_loopCode {K : Kernel} {c : Compiler} {reg : Reg}
    (hK : K.fastcall = c.rdonlyCastFastcall) (hreg : reg ≠ RFP) :
    ∀ (offsets : List AccessOffset) (s : State), offsets ≠ [] →
      ∃ m s', exec K (loopCode c reg offsets) .run s = .cont m s' ∧
        ReadFrame (fun q => q ≠ reg ∧ q ≠ cursor c reg ∧ chainDestroys c offsets q = false) s s' ∧
        match chainSem c K.mem offsets (s.regs (cursor c reg)) with
        | .ok v => m = .run ∧ s'.regs reg = v
        | .error _ => m = .seek c.labelExit
  | [], _, h => absurd rfl h
  | o :: rest, s, _ => by
      obtain ⟨hexec, hval, hframe⟩ := @exec_stepCode K c reg o hK hreg (rest = []) s
      obtain ⟨s₁, hs₁⟩ : ∃ s₁, s₁ = stepEffect K c reg o (rest = []) s := ⟨_, rfl⟩
      rw [← hs₁] at hexec hval hframe
      have hsplit : ∀ q, chainDestroys c (o :: rest) q = false →
          stepDestroys c o q = false ∧ chainDestroys c rest q = false := by
        intro q hq
        simpa [chainDestroys] using hq
      have hframe₁ : ReadFrame (fun q => q ≠ reg ∧ q ≠ cursor c reg ∧
          chainDestroys c (o :: rest) q = false) s s₁ :=
        hframe.mono fun q hq => ⟨hq.1, hq.2.1, (hsplit q hq.2.2).1⟩
      have hsem : chainSem c K.mem (o :: rest) (s.regs (cursor c reg))
          = if (readStep c o (rest = [])).checked ∧
              (readStep c o (rest = [])).value K.mem (s.regs (cursor c reg)) = 0
            then .error .exit
            else chainSem c K.mem rest
              ((readStep c o (rest = [])).value K.mem (s.regs (cursor c reg))) := rfl
      by_cases hnull : (readStep c o (rest = [])).checked ∧
          (readStep c o (rest = [])).value K.mem (s.regs (cursor c reg)) = 0
      · -- a NULL: the rest of the loop is passed over
        rw [if_pos hnull] at hexec hsem
        refine ⟨.seek c.labelExit, s₁, ?_, hframe₁, by rw [hsem]⟩
        rw [loopCode, exec_append, hexec]
        exact exec_seek_of_unmarked (unmarked_loopCode c reg rest) c.labelExit s₁
      · rw [if_neg hnull] at hexec hsem
        by_cases hrest : rest = []
        · refine ⟨.run, s₁, ?_, hframe₁, ?_⟩
          · rw [loopCode, exec_append_of_run hexec, hrest]
            rfl
          · rw [hsem, hrest]
            refine ⟨rfl, ?_⟩
            simpa [hrest] using hval
        · obtain ⟨m, s', hloop, hframe', hres⟩ := exec_loopCode hK hreg rest s₁ hrest
          have hcursor : s₁.regs (cursor c reg)
              = (readStep c o (rest = [])).value K.mem (s.regs (cursor c reg)) := by
            simpa [hrest] using hval
          refine ⟨m, s', ?_, hframe₁.trans (hframe'.mono fun q hq =>
            ⟨hq.1, hq.2.1, (hsplit q hq.2.2).2⟩), ?_⟩
          · rw [loopCode, exec_append_of_run hexec, hloop]
          · rw [hsem, ← hcursor]
            exact hres

/-! ## Saves and restores -/

/-- The frame has room for the slots of all caller-saved registers. -/
def StackFits (c : Compiler) : Prop :=
  8 ≤ c.reservedStack.toNat ∧ c.reservedStack.toNat + 48 ≤ 512

instance (c : Compiler) : Decidable (StackFits c) := inferInstanceAs (Decidable (_ ∧ _))

def r0Slots (c : Compiler) (ra : RegisterAllocator) (n : Nat) : List (Nat × Reg) :=
  if ra.isUsed R0 then [(c.reservedStack.toNat + 8 * usedRegNr ra n + 8, R0)] else []

def callerSlots (c : Compiler) (ra : RegisterAllocator) (n : Nat) : List (Nat × Reg) :=
  (List.range (usedRegNr ra n)).map fun i =>
    (c.reservedStack.toNat + 8 * usedRegNr ra n - 8 * i, callerSaved i)

theorem saveSlot_eq {c : Compiler} {used i : Nat} (h : i ≤ used) :
    saveSlot c used i = slotOffset (c.reservedStack.toNat + 8 * used - 8 * i) := by
  rw [saveSlot, slotOffset]
  congr 1
  bv_omega

theorem saveSlotR0_eq (c : Compiler) (used : Nat) :
    saveSlotR0 c used = slotOffset (c.reservedStack.toNat + 8 * used + 8) := by
  rw [saveSlotR0, slotOffset]
  congr 1
  bv_omega

theorem pushCode_eq (c : Compiler) (ra : RegisterAllocator) (n : Nat) :
    pushCode c ra n = storeSlots (r0Slots c ra n ++ callerSlots c ra n) := by
  have hcaller : (List.range (usedRegNr ra n)).map (fun i =>
      (Asm.storeMem RFP (saveSlot c (usedRegNr ra n) i) (callerSaved i) .dword : Insn))
      = storeSlots (callerSlots c ra n) := by
    rw [storeSlots, callerSlots, List.map_map]
    refine List.map_congr_left fun i hi => ?_
    rw [saveSlot_eq (List.mem_range.mp hi).le]
    rfl
  rw [pushCode, hcaller, saveSlotR0_eq, r0Slots]
  split <;> simp [storeSlots]

theorem popCode_eq (c : Compiler) (ra : RegisterAllocator) (n : Nat) :
    popCode c ra n = loadSlots (callerSlots c ra n ++ r0Slots c ra n) := by
  have hcaller : (List.range (usedRegNr ra n)).map (fun i =>
      (Asm.loadMem (callerSaved i) RFP (saveSlot c (usedRegNr ra n) i) .dword : Insn))
      = loadSlots (callerSlots c ra n) := by
    rw [loadSlots, callerSlots, List.map_map]
    refine List.map_congr_left fun i hi => ?_
    rw [saveSlot_eq (List.mem_range.mp hi).le]
    rfl
  rw [popCode, hcaller, saveSlotR0_eq, r0Slots]
  split <;> simp [loadSlots]

theorem usedRegNr_le (ra : RegisterAllocator) (n : Nat) : usedRegNr ra n ≤ n := by
  have := List.countP_le_length (p := fun i => ra.isUsed (callerSaved i)) (l := List.range n)
  simpa [usedRegNr] using this

/-- The registers a memory read saves: `r0` if it is in use, and the
first of `r1` … by count. -/
def savedRegs (ra : RegisterAllocator) (n : Nat) : List Reg :=
  (List.range (usedRegNr ra n)).map callerSaved ++ if ra.isUsed R0 then [R0] else []

theorem slots_regs (c : Compiler) (ra : RegisterAllocator) (n : Nat) :
    (callerSlots c ra n ++ r0Slots c ra n).map (·.2) = savedRegs ra n := by
  have hcaller : (callerSlots c ra n).map (·.2) = (List.range (usedRegNr ra n)).map callerSaved := by
    rw [callerSlots, List.map_map]
    rfl
  rw [List.map_append, hcaller, savedRegs, r0Slots]
  split <;> rfl

theorem callerSaved_toNat {i : Nat} (h : i < 5) : (callerSaved i).val = 1 + i := by
  rw [callerSaved, Fin.val_ofNat]
  omega

theorem savedRegs_nodup (ra : RegisterAllocator) {n : Nat} (hn : n ≤ 5) :
    (savedRegs ra n).Nodup := by
  have hle := usedRegNr_le ra n
  have hinj : ((List.range (usedRegNr ra n)).map callerSaved).Nodup := by
    refine List.Nodup.map_on (fun i hi j hj hij => ?_) List.nodup_range
    have hi5 := List.mem_range.mp hi
    have hj5 := List.mem_range.mp hj
    have := congrArg Fin.val hij
    rw [callerSaved_toNat (by omega), callerSaved_toNat (by omega)] at this
    omega
  rw [savedRegs]
  refine List.Nodup.append hinj (by split <;> simp) fun q hq hq' => ?_
  obtain ⟨i, hi, rfl⟩ := List.mem_map.mp hq
  have hi5 := List.mem_range.mp hi
  split at hq'
  · have := congrArg Fin.val (List.mem_singleton.mp hq')
    rw [callerSaved_toNat (by omega)] at this
    simp at this
  · simp at hq'

theorem savedRegs_le {ra : RegisterAllocator} {n : Nat} (hn : n ≤ 5) {q : Reg}
    (hq : q ∈ savedRegs ra n) : q ≤ R5 := by
  have hle := usedRegNr_le ra n
  rw [savedRegs] at hq
  rcases List.mem_append.mp hq with hq | hq
  · obtain ⟨i, hi, rfl⟩ := List.mem_map.mp hq
    have hi5 := List.mem_range.mp hi
    rw [Fin.le_def, callerSaved_toNat (by omega)]
    show 1 + i ≤ 5
    omega
  · split at hq
    · rw [List.mem_singleton.mp hq]
      decide
    · simp at hq

/-- All slots lie below the eight bytes of the probe reads, each apart
from the others. -/
theorem slots_depth {c : Compiler} {ra : RegisterAllocator} {n : Nat} (hfit : StackFits c)
    (hn : n ≤ 5) : ∀ p ∈ r0Slots c ra n ++ callerSlots c ra n, 16 ≤ p.1 ∧ p.1 ≤ 512 := by
  have hle := usedRegNr_le ra n
  obtain ⟨h8, h512⟩ := hfit
  intro p hp
  rcases List.mem_append.mp hp with hp | hp
  · rw [r0Slots] at hp
    split at hp
    · rw [List.mem_singleton.mp hp]
      constructor <;> dsimp only <;> omega
    · simp at hp
  · rw [callerSlots] at hp
    obtain ⟨i, hi, rfl⟩ := List.mem_map.mp hp
    have := List.mem_range.mp hi
    constructor <;> dsimp only <;> omega

theorem slots_apart {c : Compiler} {ra : RegisterAllocator} {n : Nat} :
    (r0Slots c ra n ++ callerSlots c ra n).Pairwise
      fun p q => p.1 + 8 ≤ q.1 ∨ q.1 + 8 ≤ p.1 := by
  rw [List.pairwise_append]
  refine ⟨?_, ?_, ?_⟩
  · rw [r0Slots]
    split <;> simp
  · rw [callerSlots, List.pairwise_map]
    refine List.Pairwise.imp_of_mem (fun {i j} hi hj hij => ?_) List.pairwise_lt_range
    have := List.mem_range.mp hi
    have := List.mem_range.mp hj
    dsimp only
    omega
  · intro p hp q hq
    rw [callerSlots] at hq
    obtain ⟨i, hi, rfl⟩ := List.mem_map.mp hq
    rw [r0Slots] at hp
    split at hp
    · rw [List.mem_singleton.mp hp]
      dsimp only
      omega
    · simp at hp

/-! ## A whole chain -/

/-- The registers that are loaded back behind a chain's code. -/
def restored (c : Compiler) (ra : RegisterAllocator) (offsets : List AccessOffset) (q : Reg) : Bool :=
  !allAddress offsets && decide (c.memMode ≠ .directRead) && (savedRegs ra (savedRegsNr c)).contains q

section Chain

variable {K : Kernel} {c : Compiler} {ra : RegisterAllocator} {reg : Reg}

/-- A chain of addresses adds its displacements, in every mode. -/
theorem exec_addresses : ∀ (offsets : List AccessOffset) (s : State), allAddress offsets →
    ∃ v, chainSem c K.mem offsets (s.regs reg) = .ok v ∧
      exec K (offsets.map fun o => (Asm.addImm reg (int32 o.offset) : Insn)) .run s
        = .cont .run (s.set reg v)
  | [], s, _ => ⟨s.regs reg, rfl, by simp⟩
  | o :: rest, s, h => by
      simp only [allAddress, List.all_cons, Bool.and_eq_true] at h
      have hstep : readStep c o (rest = []) = ⟨int32 o.offset, none, false⟩ := by
        simp [readStep, h.1]
      obtain ⟨v, hsem, hexec⟩ :=
        exec_addresses rest (s.set reg (s.regs reg + int32 o.offset)) h.2
      refine ⟨v, ?_, ?_⟩
      · rw [State.set_regs_self] at hsem
        simpa [chainSem, readPlan, runPlan, hstep, ReadStep.value] using hsem
      · rw [List.map_cons, exec_alu]
        simpa [AluOp.eval] using hexec

theorem savedRegsNr_le (c : Compiler) : savedRegsNr c ≤ 5 := by
  unfold savedRegsNr coreRegsNr
  split
  · omega
  · split <;> omega
  · omega

/-- The calls of a chain with a load in it destroy the cursor. -/
theorem chainDestroys_cursor {offsets : List AccessOffset} (hload : allAddress offsets = false)
    (hmode : c.memMode ≠ .directRead) : chainDestroys c offsets (cursor c reg) = true := by
  obtain ⟨o, ho, haddr⟩ : ∃ o ∈ offsets, o.address = false := by
    simpa [allAddress] using hload
  refine List.any_eq_true.mpr ⟨o, ho, ?_⟩
  cases hm : c.memMode with
  | probeRead =>
    simp only [stepDestroys, cursor, haddr, hm]
    decide
  | directRead => exact absurd hm hmode
  | coreRead =>
    cases hcast : castSize c o with
    | none =>
      simp only [stepDestroys, cursor, haddr, hm, hcast]
      decide
    | some size => simp [stepDestroys, cursor, haddr, hm, hcast, clobbered_of_le _ R1 (by decide)]

/-- No call of a chain destroys a register above `r5`. -/
theorem chainDestroys_high {offsets : List AccessOffset} {q : Reg} (hq : R5 < q) :
    chainDestroys c offsets q = false := by
  refine List.any_eq_false.mpr fun o _ => ?_
  unfold stepDestroys
  split
  · simp
  · cases c.memMode with
    | probeRead => simpa using hq
    | directRead => simp
    | coreRead =>
      cases castSize c o with
      | none => simpa using hq
      | some size => simp [clobbered_of_lt _ q hq]

theorem unmarked_loadSlots (slots : List (Nat × Reg)) : Unmarked (loadSlots slots) := by
  intro i hi
  obtain ⟨p, _, rfl⟩ := List.mem_map.mp hi
  rfl

theorem unmarked_storeSlots (slots : List (Nat × Reg)) : Unmarked (storeSlots slots) := by
  intro i hi
  obtain ⟨p, _, rfl⟩ := List.mem_map.mp hi
  rfl

theorem unmarked_popCode (c : Compiler) (ra : RegisterAllocator) (n : Nat) :
    Unmarked (popCode c ra n) := by
  rw [popCode_eq]
  exact unmarked_loadSlots _

theorem unmarked_enterCode (c : Compiler) (reg : Reg) : Unmarked (enterCode c reg) := by
  unfold enterCode
  split <;> simp [Unmarked]

theorem unmarked_chainCode (c : Compiler) (ra : RegisterAllocator) (offsets : List AccessOffset)
    (reg : Reg) : Unmarked (chainCode c ra offsets reg) := by
  have hsaved : Unmarked (pushCode c ra (savedRegsNr c) ++ enterCode c reg
      ++ loopCode c reg offsets ++ popCode c ra (savedRegsNr c)) := by
    rw [pushCode_eq]
    exact (((unmarked_storeSlots _).append (unmarked_enterCode c reg)).append
      (unmarked_loopCode c reg offsets)).append (unmarked_popCode c ra _)
  unfold chainCode
  split
  · intro i hi
    obtain ⟨o, _, rfl⟩ := List.mem_map.mp hi
    rfl
  · cases c.memMode with
    | directRead => exact unmarked_loopCode c reg offsets
    | probeRead => exact hsaved
    | coreRead => exact hsaved

/-- A chain between its saves and restores. -/
theorem exec_savedChain (hK : K.fastcall = c.rdonlyCastFastcall) (hfit : StackFits c)
    (hreg : reg ≠ RFP) (hmode : c.memMode ≠ .directRead) {offsets : List AccessOffset}
    (hload : allAddress offsets = false) (s : State) :
    ∃ m s', exec K (pushCode c ra (savedRegsNr c) ++ enterCode c reg ++ loopCode c reg offsets
        ++ popCode c ra (savedRegsNr c)) .run s = .cont m s' ∧ s'.out = s.out ∧
      s'.regs RFP = s.regs RFP ∧
      match chainSem c K.mem offsets (s.regs reg) with
      | .ok v => m = .run ∧
          s'.regs reg = (if (savedRegs ra (savedRegsNr c)).contains reg then s.regs reg else v) ∧
          ∀ q, q ≠ reg → (chainDestroys c offsets q = false ∨
            (savedRegs ra (savedRegsNr c)).contains q = true) → s'.regs q = s.regs q
      | .error _ => m = .seek c.labelExit ∧ ∀ q, q ≠ reg → R5 < q → s'.regs q = s.regs q := by
  have hn := savedRegsNr_le c
  have hdepth := @slots_depth c ra (savedRegsNr c) hfit hn
  have hne : offsets ≠ [] := by
    rintro rfl
    simp [allAddress] at hload
  -- the saves
  obtain ⟨s₁, hpush, hregs₁, hout₁, hslots, -⟩ := exec_storeSlots K
    (r0Slots c ra (savedRegsNr c) ++ callerSlots c ra (savedRegsNr c)) s
    (fun p hp => (hdepth p hp).2.trans (by decide)) slots_apart
  -- into the cursor
  obtain ⟨s₂, hs₂⟩ : ∃ s₂, s₂ = if reg ≠ cursor c reg then s₁.set (cursor c reg) (s₁.regs reg) else s₁ :=
    ⟨_, rfl⟩
  have hcur : cursor c reg ≠ RFP := by
    unfold cursor
    split
    · decide
    · decide
    · exact hreg
  have henter : exec K (enterCode c reg) .run s₁ = .cont .run s₂ := by
    rw [hs₂, enterCode]
    split <;> rfl
  have hbase : s₂.regs (cursor c reg) = s.regs reg := by
    rw [hs₂]
    split
    · rw [State.set_regs_self, hregs₁]
    · rename_i heq
      rw [hregs₁, ← not_not.mp heq]
  have hregs₂ : ∀ q, q ≠ cursor c reg → s₂.regs q = s.regs q := by
    intro q hq
    rw [hs₂]
    split
    · rw [State.set_regs_of_ne _ _ hq, hregs₁]
    · rw [hregs₁]
  have hstack₂ : s₂.stack = s₁.stack ∧ s₂.out = s₁.out := by
    rw [hs₂]
    split <;> exact ⟨rfl, rfl⟩
  -- the loop
  obtain ⟨m, s₃, hloop, hframe, hres⟩ := exec_loopCode hK hreg offsets s₂ hne
  rw [hbase] at hres
  have hout₃ : s₃.out = s.out := by rw [hframe.out, hstack₂.2, hout₁]
  have hfp₃ : s₃.regs RFP = s.regs RFP := by rw [hframe.fp, hregs₂ RFP (Ne.symm hcur)]
  have hkeep₃ : ∀ q, q ≠ reg → chainDestroys c offsets q = false → s₃.regs q = s.regs q := by
    intro q hq hd
    have hqc : q ≠ cursor c reg := by
      rintro rfl
      rw [chainDestroys_cursor hload hmode] at hd
      simp at hd
    rw [hframe.regs q ⟨hq, hqc, hd⟩, hregs₂ q hqc]
  have hcode : exec K (pushCode c ra (savedRegsNr c) ++ enterCode c reg ++ loopCode c reg offsets)
      .run s = .cont m s₃ := by
    rw [pushCode_eq, List.append_assoc, exec_append_of_run hpush, exec_append_of_run henter, hloop]
  rw [exec_append, hcode]
  cases hsem : chainSem c K.mem offsets (s.regs reg) with
  | error e =>
    rw [hsem] at hres
    refine ⟨m, s₃, ?_, hout₃, hfp₃, hres, fun q hq hlt => hkeep₃ q hq (chainDestroys_high hlt)⟩
    rw [hres]
    exact exec_seek_of_unmarked (unmarked_popCode c ra _) c.labelExit s₃
  | ok v =>
    rw [hsem] at hres
    obtain ⟨rfl, hval⟩ := hres
    -- the restores find what the saves left
    have hslot : ∀ p ∈ callerSlots c ra (savedRegsNr c) ++ r0Slots c ra (savedRegsNr c),
        p ∈ r0Slots c ra (savedRegsNr c) ++ callerSlots c ra (savedRegsNr c) := by
      intro p hp
      exact List.mem_append.mpr (List.mem_append.mp hp).symm
    have hsaved : ∀ p ∈ callerSlots c ra (savedRegsNr c) ++ r0Slots c ra (savedRegsNr c),
        s₃.slot p.1 = s.regs p.2 := by
      intro p hp
      obtain ⟨h16, h512⟩ := hdepth p (hslot p hp)
      have hfp₁ : s₂.regs RFP = s₁.regs RFP := by rw [hregs₂ RFP (Ne.symm hcur), hregs₁]
      rw [← hslots p (hslot p hp), State.slot, State.slot, hframe.fp, hfp₁]
      refine loadLE_congr fun i hi => ?_
      rw [hframe.stack _ (by rw [hfp₁]; bv_omega), hstack₂.1]
    obtain ⟨s₄, hpop, hout₄, hback, hothers⟩ := exec_loadSlots K
      (callerSlots c ra (savedRegsNr c) ++ r0Slots c ra (savedRegsNr c)) s₃
      (fun p hp => ⟨(hdepth p (hslot p hp)).2.trans (by decide), fun heq => by
        have hmem : p.2 ∈ savedRegs ra (savedRegsNr c) := by
          rw [← slots_regs c]
          exact List.mem_map_of_mem hp
        exact absurd (heq ▸ savedRegs_le hn hmem) (by decide)⟩)
      (by rw [slots_regs]; exact savedRegs_nodup ra hn)
    rw [slots_regs] at hothers
    have hrestored : ∀ q ∈ savedRegs ra (savedRegsNr c), s₄.regs q = s.regs q := by
      intro q hq
      rw [← slots_regs c] at hq
      obtain ⟨p, hp, rfl⟩ := List.mem_map.mp hq
      rw [hback p hp, hsaved p hp]
    have hfp : RFP ∉ savedRegs ra (savedRegsNr c) := fun h =>
      absurd (savedRegs_le hn h) (by decide)
    refine ⟨.run, s₄, ?_, by rw [hout₄, hout₃], by rw [hothers RFP hfp, hfp₃], rfl, ?_, ?_⟩
    · show exec K (popCode c ra (savedRegsNr c)) .run s₃ = _
      rw [popCode_eq, hpop]
    · by_cases hmem : reg ∈ savedRegs ra (savedRegsNr c)
      · rw [if_pos (by simpa using hmem), hrestored reg hmem]
      · rw [if_neg (by simpa using hmem), hothers reg hmem, hval]
    · intro q hq hor
      by_cases hmem : q ∈ savedRegs ra (savedRegsNr c)
      · exact hrestored q hmem
      · rw [hothers q hmem]
        exact hkeep₃ q hq (hor.resolve_right (by simpa using hmem))

/-- **The code of a chain.** It leaves the value of the chain in the
target, unless the target is among the registers restored behind it, and
preserves every other register that no call destroys or that is restored;
or it goes to the exit label where the chain does. -/
theorem exec_chainCode (hK : K.fastcall = c.rdonlyCastFastcall) (hfit : StackFits c)
    (hreg : reg ≠ RFP) (offsets : List AccessOffset) (s : State) :
    ∃ m s', exec K (chainCode c ra offsets reg) .run s = .cont m s' ∧ s'.out = s.out ∧
      s'.regs RFP = s.regs RFP ∧
      match chainSem c K.mem offsets (s.regs reg) with
      | .ok v => m = .run ∧
          s'.regs reg = (if restored c ra offsets reg then s.regs reg else v) ∧
          ∀ q, q ≠ reg → (chainDestroys c offsets q = false ∨ restored c ra offsets q = true) →
            s'.regs q = s.regs q
      | .error _ => m = .seek c.labelExit ∧ ∀ q, q ≠ reg → R5 < q → s'.regs q = s.regs q := by
  unfold chainCode
  split
  · rename_i hall
    obtain ⟨v, hsem, hexec⟩ := @exec_addresses K c reg offsets s hall
    refine ⟨.run, s.set reg v, hexec, rfl, State.set_regs_of_ne _ _ (Ne.symm hreg), ?_⟩
    rw [hsem]
    refine ⟨rfl, ?_, fun q hq _ => State.set_regs_of_ne _ _ hq⟩
    simp [restored, hall]
  rename_i hall
  have hload : allAddress offsets = false := by simpa using hall
  have hsaved (hmode : c.memMode ≠ .directRead) : ∀ q,
      restored c ra offsets q = (savedRegs ra (savedRegsNr c)).contains q := by
    intro q
    simp [restored, hload, hmode]
  cases hmode : c.memMode with
  | directRead =>
    have hne : offsets ≠ [] := by
      rintro rfl
      simp [allAddress] at hload
    have hcur : cursor c reg = reg := by simp [cursor, hmode]
    have hkept : ∀ q, chainDestroys c offsets q = false := by
      intro q
      refine List.any_eq_false.mpr fun o _ => ?_
      simp [stepDestroys, hmode]
    obtain ⟨m, s', hloop, hframe, hres⟩ := exec_loopCode hK hreg offsets s hne
    rw [hcur] at hres hframe
    refine ⟨m, s', hloop, hframe.out, hframe.fp, ?_⟩
    cases hsem : chainSem c K.mem offsets (s.regs reg) with
    | error e =>
      rw [hsem] at hres
      exact ⟨hres, fun q hq _ => hframe.regs q ⟨hq, hq, hkept q⟩⟩
    | ok v =>
      rw [hsem] at hres
      refine ⟨hres.1, ?_, fun q hq _ => hframe.regs q ⟨hq, hq, hkept q⟩⟩
      simp [restored, hmode, hres.2]
  | probeRead =>
    have hne : c.memMode ≠ .directRead := by simp [hmode]
    simpa only [hsaved hne] using exec_savedChain hK hfit hreg hne hload s
  | coreRead =>
    have hne : c.memMode ≠ .directRead := by simp [hmode]
    simpa only [hsaved hne] using exec_savedChain hK hfit hreg hne hload s

end Chain

end Bpfsnoop.CC
