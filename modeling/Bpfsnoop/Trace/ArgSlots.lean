/-
Bpfsnoop.Trace.ArgSlots — the argument register of a parameter.

A parameter of 9 to 16 bytes takes two argument registers, every other
parameter one. `getFuncParams` has an entry for each register and
`output_fn_args` loads the word of each entry. The expression compiler and
the packet code take the index of the parameter for the index of its word,
and both narrow the displacement to 16 bits. So they load the right word
exactly when the number of two-register parameters in front is a multiple
of 8192.
-/
import Bpfsnoop.CC.AccessPathTheorems
import Bpfsnoop.Ebpf.Forward
import Bpfsnoop.Trace.FuncArgs

namespace Bpfsnoop.Trace

open Ebpf Btf Reg CC

/-! ## The packet code -/

/-- `genAccessArg`. -/
def genAccessArg (index : Nat) (dst : Reg) : List Insn :=
  [Asm.loadMem dst R1 (int16 (BitVec.ofNat 64 (index * 8))) .dword]

/-- The struct that `injectPktFilter` and `injectPktOutput` find behind one
or two pointers. -/
def pktStruct? (t : BtfType) : Option String :=
  match underlyingType t with
  | .pointer (.struct name _) | .pointer (.pointer (.struct name _)) => some name
  | _ => none

def isPktParam (p : FuncParam) : Bool :=
  match pktStruct? p.type with
  | some name => ["sk_buff", "__sk_buff", "xdp_buff", "xdp_md", "xdp_frame"].contains name
  | none => false

/-! ## The entries of a parameter -/

/-- Whether a parameter occupies two registers. -/
def twoRegs (heap : Heap) (p : FuncParam) : Bool := 8 < sizeofD heap p.type

/-- The number of registers of a parameter. -/
def regCount (heap : Heap) (p : FuncParam) : Nat := if twoRegs heap p then 2 else 1

/-- The first register of the `i`-th parameter: the sum of the register
counts of the earlier ones. -/
def firstSlot (heap : Heap) (params : List FuncParam) (i : Nat) : Nat :=
  ((params.take i).map (regCount heap)).sum

/-- The entries `getFuncParams` makes for a parameter: a value, or the two
halves of a struct. -/
inductive Entries (heap : Heap) (p : FuncParam) : List FuncParamFlags → Prop
  | one (prm : FuncParamFlags) (hregs : twoRegs heap p = false) (hpart : prm.partOfPrevParam = false) :
    Entries heap p [prm]
  | two (hregs : twoRegs heap p = true) : Entries heap p [{}, { partOfPrevParam := true }]

theorem Entries.length {heap : Heap} {p : FuncParam} {es : List FuncParamFlags} (h : Entries heap p es) :
    es.length = regCount heap p := by
  cases h with
  | one prm hregs => simp [regCount, hregs]
  | two hregs => simp [regCount, hregs]

variable {heap : Heap} {isConstCharPtr : BtfType → Bool} {params : List FuncParam}
  {slots : List FuncParamFlags}

/-- The entries of an accepted prototype are those of its parameters, in
order. -/
theorem classifyParams_entries {strUsed : Bool}
    (h : classifyParams heap isConstCharPtr strUsed params = .ok slots) :
    ∃ groups, slots = groups.flatten ∧ List.Forall₂ (Entries heap) params groups := by
  induction params generalizing strUsed slots with
  | nil =>
    cases h
    exact ⟨[], rfl, .nil⟩
  | cons p params ih =>
    unfold classifyParams at h
    cases hsize : sizeof heap p.type with
    | none => simp [hsize] at h
    | some size =>
      have hregs : twoRegs heap p = decide (8 < size) := by rw [twoRegs, sizeofD, hsize]; rfl
      by_cases hlarge : size > 16
      · simp [hsize, hlarge] at h
      · simp only [hsize, hlarge, if_false] at h
        cases hrest : classifyParams heap isConstCharPtr (strUsed || isConstCharPtr p.type) params with
        | error e => simp [hrest, Except.map] at h
        | ok rest =>
          simp only [hrest, Except.map, Except.ok.injEq] at h
          obtain ⟨groups, rfl, hgroups⟩ := ih hrest
          subst h
          by_cases htwo : size > 8
          · refine ⟨[{}, { partOfPrevParam := true }] :: groups, by simp [htwo], .cons (.two ?_) hgroups⟩
            rw [hregs]
            exact decide_eq_true htwo
          · rw [if_neg htwo]
            refine ⟨[_] :: groups, rfl, .cons (.one _ ?_ rfl) hgroups⟩
            rw [hregs]
            exact decide_eq_false htwo

theorem getFuncParams_entries {proto : FuncProto} {ret : FuncParamFlags}
    (h : getFuncParams heap isConstCharPtr proto = .ok (slots, ret)) :
    ∃ groups, slots = groups.flatten ∧ List.Forall₂ (Entries heap) proto.params groups := by
  unfold getFuncParams at h
  cases hparams : classifyParams heap isConstCharPtr false proto.params with
  | error e => simp [hparams] at h
  | ok params =>
    simp only [hparams, Except.ok.injEq, Prod.mk.injEq] at h
    rw [← h.1]
    exact classifyParams_entries hparams

/-- The entries in front of a parameter's are as many as the registers in
front of it, and as many of them are first ones as there are parameters. -/
theorem entries_before {groups : List (List FuncParamFlags)}
    (h : List.Forall₂ (Entries heap) params groups) {i : Nat} (hi : i < params.length) :
    ∃ prm, groups.flatten[firstSlot heap params i]? = some prm ∧ prm.partOfPrevParam = false ∧
      (groups.flatten.take (firstSlot heap params i)).countP (!·.partOfPrevParam) = i := by
  induction h generalizing i with
  | nil => exact absurd hi (Nat.not_lt_zero i)
  | @cons p es params groups hp _ ih =>
    cases i with
    | zero =>
      cases hp with
      | one prm hregs hpart => exact ⟨prm, rfl, hpart, rfl⟩
      | two hregs => exact ⟨{}, rfl, rfl, rfl⟩
    | succ i =>
      obtain ⟨prm, hget, hpart, hcount⟩ := ih (Nat.lt_of_succ_lt_succ hi)
      have hslot : firstSlot heap (p :: params) (i + 1) = es.length + firstSlot heap params i := by
        simp [firstSlot, hp.length]
      refine ⟨prm, ?_, hpart, ?_⟩
      · rw [hslot, List.flatten_cons, List.getElem?_append_right (Nat.le_add_right _ _),
          Nat.add_sub_cancel_left, hget]
      · rw [hslot, List.flatten_cons, List.take_append, List.take_of_length_le (Nat.le_add_right _ _),
          Nat.add_sub_cancel_left, List.countP_append, hcount]
        cases hp with
        | one prm hregs hpart => simp [hpart, Nat.add_comm]
        | two hregs => simp [Nat.add_comm]

/-- The register of a parameter, and the registers too many in front. -/
theorem firstSlot_eq (params : List FuncParam) {i : Nat} (hi : i ≤ params.length) :
    firstSlot heap params i = i + (params.take i).countP (twoRegs heap) := by
  induction params generalizing i with
  | nil =>
    obtain rfl : i = 0 := Nat.le_zero.mp hi
    rfl
  | cons p params ih =>
    cases i with
    | zero => rfl
    | succ i =>
      have ih := ih (Nat.le_of_succ_le_succ hi)
      unfold firstSlot at ih ⊢
      rw [List.take_succ_cons, List.map_cons, List.sum_cons, ih, List.countP_cons, regCount]
      split <;> omega

/-! ## Argument words -/

/-- The argument word that a load with this displacement reads. -/
def argWord (mem : Word → Byte) (args : Word) (index : Nat) : Word :=
  loadLE mem (args + (int16 (BitVec.ofNat 64 (index * 8))).signExtend 64) 8

/-- Two argument words are the same, whatever the registers were, if and
only if the narrowed displacements are. -/
theorem argWord_eq_iff {i j : Nat} :
    (∀ mem args, argWord mem args i = argWord mem args j) ↔ i % 8192 = j % 8192 := by
  have hdisp : int16 (BitVec.ofNat 64 (i * 8)) = int16 (BitVec.ofNat 64 (j * 8)) ↔
      i % 8192 = j % 8192 := by
    rw [← BitVec.toNat_inj]
    simp only [int16, BitVec.toNat_setWidth, BitVec.toNat_ofNat]
    omega
  rw [← hdisp]
  constructor
  · intro h
    by_contra hne
    -- a memory in which the two words differ in their first byte
    let a := (int16 (BitVec.ofNat 64 (i * 8))).signExtend 64
    let b := (int16 (BitVec.ofNat 64 (j * 8))).signExtend 64
    have hab : b ≠ a := by
      intro hab
      have hlow := congrArg (BitVec.setWidth 16) hab
      have hcut : ∀ x : BitVec 16, (x.signExtend 64).setWidth 16 = x := by
        intro x
        ext k hk
        simp [BitVec.getLsbD_signExtend, hk]
        omega
      rw [hcut, hcut] at hlow
      exact hne hlow.symm
    have hbit := congrArg (fun w : Word => w.getLsbD 0) (h (fun x => if x = a then 1 else 0) 0)
    simp only [argWord] at hbit
    rw [getLsbD_loadLE _ _ _ _ (by decide), getLsbD_loadLE _ _ _ _ (by decide)] at hbit
    have hzero : ∀ x : Word, 0 + x + BitVec.ofNat 64 (0 / 8) = x := by intro x; simp
    rw [hzero, hzero] at hbit
    simp [a, b, hab] at hbit
  · intro h mem args
    rw [argWord, argWord, h]

/-- A load of eight bytes through a register that holds the arguments. -/
def loadArg (src : Reg) (index : Nat) (dst : Reg) : Insn :=
  Asm.loadMem dst src (int16 (BitVec.ofNat 64 (index * 8))) .dword

theorem exec_loadArg (K : Kernel) (s : State) {dst src : Reg} (hsrc : src ≠ RFP) (index : Nat) :
    exec K [loadArg src index dst] .run s =
      .cont .run (s.set dst (argWord K.mem (s.regs src) index)) := by
  rw [loadArg, exec_ldx, if_neg hsrc]
  rfl

section Compiler

variable {c : Compiler} {g g' : Gen} {v : EvalValue} {i : Nat}

/-- `evalName` loads the parameter by its index. -/
theorem evalName_insns {text : String} (hidx : c.vars.idxOf? text = some i)
    (h : evalName c text g = .ok (v, g')) (hv : v.typ = .regBtf) :
    g'.insns = g.insns ++ [loadArg argsReg i v.reg] := by
  unfold evalName at h
  split at h
  · simp only [pure_eq_ok] at h
    rw [← h.1] at hv
    cases hv
  · split at h
    · simp only [pure_eq_ok] at h
      rw [← h.1] at hv
      cases hv
    · simp only [hidx, emitLoadArg, bind_eq_ok, alloc_eq_ok, emit_eq_ok, pure_eq_ok] at h
      obtain ⟨reg, _, ⟨ra, -, rfl⟩, _, _, rfl, rfl, rfl⟩ := h
      rfl

/-- `access` loads the parameter a chain starts from by its index. -/
theorem access_insns {res : AccessResult} (hidx : res.idx = some i) (huptr : res.uptr = 0)
    (h : access c res g = .ok (v, g')) : ∃ chain, g'.insns = g.insns ++ loadArg argsReg i v.reg :: chain := by
  simp only [access_eq, bind_eq_ok, wrapping_eq_ok, emit_eq_ok, pure_eq_ok] at h
  obtain ⟨reg, g₁, hreg, _, g₂, hchain, _, _, rfl, rfl, rfl⟩ := h
  obtain ⟨ra, -, rfl⟩ := accessBase_inv hidx hreg
  rw [offset2insns_eq hchain, if_pos huptr]
  exact ⟨_, by simp only [Gen.withCode, List.append_assoc, List.singleton_append]; rfl⟩

end Compiler

/-! ## Agreement -/

/-- The code compiled for a name, the code `access` starts with for a path
from that name, the packet code for the `i`-th parameter and
`output_fn_args` at a slot load the same word, whatever the argument
registers held. -/
structure SameWord (c : Compiler) (text : String) (i slot : Nat) : Prop where
  compiled : ∀ (K : Kernel) (s : State) (g g' : Gen) (v : EvalValue),
    s.regs argsReg = s.regs regArgs → evalName c text g = .ok (v, g') → v.typ = .regBtf →
      ∃ s₁ s₂, exec K (g'.insns.drop g.insns.length) .run s = .cont .run s₁ ∧
        exec K [loadArg regArgs slot regArg] .run s = .cont .run s₂ ∧
        s₁.regs v.reg = s₂.regs regArg
  chained : ∀ (K : Kernel) (s : State) (e : Expr) (p : CPath) (res : AccessResult) (g₀ g g' : Gen) (v : EvalValue),
    s.regs argsReg = s.regs regArgs → cPath c e = some p → p.param = i →
      accessMemory c e g₀ = .ok (res, g) → access c res g = .ok (v, g') →
        ∃ base chain s₁ s₂, g'.insns = g.insns ++ base :: chain ∧ exec K [base] .run s = .cont .run s₁ ∧
          exec K [loadArg regArgs slot regArg] .run s = .cont .run s₂ ∧
          s₁.regs v.reg = s₂.regs regArg
  packet : ∀ (K : Kernel) (s : State), s.regs R1 = s.regs regArgs →
    ∃ s₁ s₂, exec K (genAccessArg i R1) .run s = .cont .run s₁ ∧
      exec K [loadArg regArgs slot regArg] .run s = .cont .run s₂ ∧
      s₁.regs R1 = s₂.regs regArg

/-- `genOutputFuncArgs` has the code of every slot. -/
theorem genOutputFuncArgs_slot {slot : Nat} {prm : FuncParamFlags} (h : slots[slot]? = some prm)
    (ret : FuncParamFlags) (withRetval : Bool) :
    ∃ before after offset,
      (genOutputFuncArgs slots ret withRetval).1 = before ++ outputParam slot offset prm ++ after := by
  have hparams : ∀ (slots : List FuncParamFlags) (i offset slot : Nat), slots[slot]? = some prm →
      ∃ before after off,
        (outputParams i offset slots).1 = before ++ outputParam (i + slot) off prm ++ after := by
    intro slots
    induction slots with
    | nil =>
      intro i offset slot h
      cases h
    | cons first slots ih =>
      intro i offset slot h
      cases slot with
      | zero =>
        cases h
        exact ⟨[], _, offset, outputParams_cons_fst i offset prm slots⟩
      | succ slot =>
        obtain ⟨before, after, off, hcode⟩ := ih (i + 1) (offset + first.size) slot h
        refine ⟨outputParam i offset first ++ before, after, off, ?_⟩
        rw [outputParams_cons_fst, hcode, Nat.add_right_comm i 1 slot]
        simp only [List.append_assoc, Nat.add_assoc]
  obtain ⟨before, after, offset, hcode⟩ := hparams slots 0 0 slot h
  rw [Nat.zero_add] at hcode
  refine ⟨backupRegs ++ before, after ++ ((if withRetval then
    outputRetval (outputParams 0 0 slots).2 ret else []) ++ [{ op := .exit }]), offset, ?_⟩
  rw [genOutputFuncArgs_fst, hcode]
  simp only [List.append_assoc]

theorem sameWord_iff {c : Compiler} {text : String} {i slot : Nat}
    (hidx : c.vars.idxOf? text = some i) : SameWord c text i slot ↔ i % 8192 = slot % 8192 := by
  rw [← argWord_eq_iff]
  constructor
  · intro h mem args
    obtain ⟨s₁, s₂, h₁, h₂, heq⟩ :=
      h.packet ⟨mem, fun _ _ => 0, false⟩ ⟨fun _ => args, fun _ => 0, fun _ => 0, 0⟩ rfl
    rw [show genAccessArg i R1 = [loadArg R1 i R1] from rfl, exec_loadArg _ _ (by decide)] at h₁
    rw [exec_loadArg _ _ (by decide)] at h₂
    cases h₁
    cases h₂
    simpa using heq
  · intro h
    refine ⟨fun K s g g' v hbase hok hv => ?_,
      fun K s e p res g₀ g g' v hbase hpath hparam hres hacc => ?_, fun K s hbase => ?_⟩
    · rw [evalName_insns hidx hok hv, List.drop_left]
      refine ⟨_, _, exec_loadArg K s (by decide) i, exec_loadArg K s (by decide) slot, ?_⟩
      rw [State.set_regs_self, State.set_regs_self, hbase, h]
    · obtain ⟨hidx, huptr⟩ := (path_of_ok hpath hres).2.tracks.param
      obtain ⟨chain, hcode⟩ := access_insns (hparam ▸ hidx) huptr hacc
      refine ⟨_, chain, _, _, hcode, exec_loadArg K s (by decide) i, exec_loadArg K s (by decide) slot, ?_⟩
      rw [State.set_regs_self, State.set_regs_self, hbase, h]
    · refine ⟨_, _, exec_loadArg K s (by decide) i, exec_loadArg K s (by decide) slot, ?_⟩
      rw [State.set_regs_self, State.set_regs_self, hbase, h]

/-- **Argument slots.** For an accepted prototype, the expression compiler
and the packet code load the word of a parameter that `output_fn_args`
outputs for it, behind a name alone and at the base of a path, if and only
if the number of two-register parameters in front of it is a multiple of
8192. -/
theorem argument_word_iff {proto : FuncProto} {ret : FuncParamFlags}
    (h : getFuncParams heap isConstCharPtr proto = .ok (slots, ret)) {i : Nat}
    (hi : i < proto.params.length) (withRetval : Bool) {c : Compiler} {text : String}
    (hidx : c.vars.idxOf? text = some i) :
    (∃ prm before after offset, slots[firstSlot heap proto.params i]? = some prm ∧
        prm.partOfPrevParam = false ∧
        (slots.take (firstSlot heap proto.params i)).countP (!·.partOfPrevParam) = i ∧
        (genOutputFuncArgs slots ret withRetval).1 =
          before ++ outputParam (firstSlot heap proto.params i) offset prm ++ after) ∧
      (SameWord c text i (firstSlot heap proto.params i) ↔
        (proto.params.take i).countP (twoRegs heap) % 8192 = 0) := by
  obtain ⟨groups, rfl, hgroups⟩ := getFuncParams_entries h
  obtain ⟨prm, hget, hpart, hcount⟩ := entries_before hgroups hi
  obtain ⟨before, after, offset, hcode⟩ := genOutputFuncArgs_slot hget ret withRetval
  refine ⟨⟨prm, before, after, offset, hget, hpart, hcount, hcode⟩, ?_⟩
  rw [sameWord_iff hidx, firstSlot_eq proto.params (Nat.le_of_lt hi)]
  omega

/-- A struct of 16 bytes in front of a number. -/
def structFirst : FuncProto :=
  { params := [⟨"s", .struct "pair" 0⟩, ⟨"n", .int "u64" 8 .unsigned⟩], ret := .void }

def pairHeap : Heap := fun _ => ⟨16, fun _ => none⟩

/-- The compiler for its parameters. -/
def structFirstCompiler : Compiler :=
  { Compiler.empty .probeRead with
    heap := pairHeap
    vars := structFirst.params.map (·.name)
    btfs := structFirst.params.map (·.type) }

/-- The struct itself is loaded from its first register. -/
theorem structFirst_struct :
    getFuncParams pairHeap (fun _ => false) structFirst =
        .ok ([{}, { partOfPrevParam := true }, {}], {}) ∧
      SameWord structFirstCompiler "s" 0 0 := by
  have hparams : getFuncParams pairHeap (fun _ => false) structFirst =
      .ok ([{}, { partOfPrevParam := true }, {}], {}) := rfl
  have hname : structFirstCompiler.vars.idxOf? "s" = some 0 := rfl
  exact ⟨hparams, (argument_word_iff hparams (i := 0) (by decide) false hname).2.mpr rfl⟩

/-- **The number behind it is not**: a filter on `n` reads the second half
of the struct. -/
theorem structFirst_number :
    getFuncParams pairHeap (fun _ => false) structFirst =
        .ok ([{}, { partOfPrevParam := true }, {}], {}) ∧
      firstSlot pairHeap structFirst.params 1 = 2 ∧
      ¬ SameWord structFirstCompiler "n" 1 (firstSlot pairHeap structFirst.params 1) := by
  refine ⟨rfl, rfl, ?_⟩
  rw [sameWord_iff (show structFirstCompiler.vars.idxOf? "n" = some 1 from rfl)]
  decide

end Bpfsnoop.Trace
