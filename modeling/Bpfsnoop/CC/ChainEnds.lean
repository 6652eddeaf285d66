/-
Bpfsnoop.CC.ChainEnds — the end of a chain, and the code behind it.

The last step of a chain loads some number of bytes, or none where the
access stands for an address, and the code behind it does something with the
word. How many bytes are loaded, and how far from the place that the step
means, depends on the read mode (`loadPlace`). `EndsIn` says what the code
leaves, for every memory and every word that the steps before lead to.
-/
import Bpfsnoop.CC.EvalTheorems
import Bpfsnoop.CC.LiveRegisters

namespace Bpfsnoop.CC

open Ebpf Btf Reg

/-! ## The end of a chain -/

/-- In front of `g`, the base of an access is in `reg` and its chain has
been read. -/
def ReadsChain (c : Compiler) (res : AccessResult) (g₀ g : Gen) (reg : Reg) : Prop :=
  ∃ g₁, accessBase res g₀ = .ok (reg, g₁) ∧ g.insns = g₁.insns ++ chainCode c g₁.regalloc res.offsets reg

/-- How far the steps move from the word they start at. -/
def total (tail : List AccessOffset) : Word := (tail.map (·.offset)).sum

/-- `frag` stands behind a chain that ends with the steps `tail`. Whatever
the memory holds and whatever the steps before `tail` led to, it leaves in
`reg` what `want` says about the place that `tail` leads to from there. -/
def EndsIn (c : Compiler) (tail : List AccessOffset) (frag : List Insn) (reg : Reg)
    (want : (Word → Byte) → Word → Word) : Prop :=
  ∀ (K : Kernel) (w : Word), ∃ x, chainSem c K.mem tail w = .ok x ∧
    ∀ s : State, s.regs reg = x →
      ∃ s', exec K frag .run s = .cont .run s' ∧ s'.regs reg = want K.mem (w + total tail)

/-- A step that loads `size` bytes from its own place: the displacement is
the one the instruction adds, and a step of a CO-RE chain that falls back to
a probe read adds none. -/
def LoadsAt (c : Compiler) (o : AccessOffset) (size : Nat) : Prop :=
  o.address = false ∧
    match c.memMode with
    | .probeRead => int32 o.offset = o.offset ∧ size = 8
    | .directRead => (int16 o.offset).signExtend 64 = o.offset ∧ size = 8
    | .coreRead =>
      match castSize c o with
      | some load => (int16 o.offset).signExtend 64 = o.offset ∧ size = load.bytes
      | none => o.offset = 0 ∧ size = 8

/-- Where the last step of a chain takes its word from: how many bytes it
loads, and how far from its own place. A step that stands for an address
loads nothing. -/
def loadPlace (c : Compiler) (o : AccessOffset) : Option (Nat × Word) :=
  if o.address then none
  else
    match c.memMode with
    | .probeRead => some (8, int32 o.offset - o.offset)
    | .directRead => some (8, (int16 o.offset).signExtend 64 - o.offset)
    | .coreRead =>
      match castSize c o with
      | some load => some (load.bytes, (int16 o.offset).signExtend 64 - o.offset)
      | none => some (8, -o.offset)

section Chains

variable {c : Compiler} {e : Expr} {res : AccessResult} {v : EvalValue} {o : AccessOffset} {reg : Reg}
  {pre tail : List AccessOffset} {frag : List Insn} {want : (Word → Byte) → Word → Word} {g g₀ g' : Gen}

theorem loadsAt_iff {size : Nat} {last : Bool} : LoadsAt c o size ↔
    ∃ load, (readStep c o last).load = some load ∧ load.bytes = size ∧ (readStep c o last).delta = o.offset := by
  unfold LoadsAt readStep
  cases ho : o.address with
  | true => simp
  | false =>
    -- a load of one width
    have hone (load : Size) (delta : Word) : delta = o.offset ∧ size = load.bytes ↔
        ∃ load', some load = some load' ∧ load'.bytes = size ∧ delta = o.offset := by
      constructor
      · rintro ⟨hdelta, rfl⟩
        exact ⟨load, rfl, rfl, hdelta⟩
      · rintro ⟨_, ⟨rfl⟩, rfl, hdelta⟩
        exact ⟨hdelta, rfl⟩
    cases c.memMode with
    | probeRead => exact (and_iff_right rfl).trans (hone .dword _)
    | directRead => exact (and_iff_right rfl).trans (hone .dword _)
    | coreRead =>
      cases castSize c o with
      | none => exact (and_iff_right rfl).trans ((and_congr_left' eq_comm).trans (hone .dword _))
      | some load => exact (and_iff_right rfl).trans (hone load _)

/-- The word behind the last step. -/
theorem value_of_loadPlace (m : Word → Byte) (w : Word) :
    (readStep c o true).value m w =
      match loadPlace c o with
      | none => w + int32 o.offset
      | some (bytes, d) => loadLE m (w + o.offset + d) bytes := by
  have hplace (delta : Word) : w + o.offset + (delta - o.offset) = w + delta := by
    rw [add_assoc, add_sub_cancel]
  unfold loadPlace readStep ReadStep.value
  cases o.address with
  | true => rfl
  | false =>
    simp only [Bool.false_eq_true, if_false]
    cases c.memMode with
    | probeRead => simp only [hplace]; rfl
    | directRead => simp only [hplace]; rfl
    | coreRead =>
      cases castSize c o with
      | none =>
        have hback : w + o.offset + -o.offset = w + 0 := by rw [add_neg_cancel_right, add_zero]
        simp only [hback]
        rfl
      | some load => simp only [hplace]

theorem loadPlace_bytes {bytes : Nat} {d : Word} (h : loadPlace c o = some (bytes, d)) : 0 < bytes ∧ bytes ≤ 8 := by
  unfold loadPlace at h
  split at h
  · cases h
  split at h
  · obtain ⟨rfl, -⟩ := Prod.mk.inj (Option.some.inj h)
    omega
  · obtain ⟨rfl, -⟩ := Prod.mk.inj (Option.some.inj h)
    omega
  split at h
  · rename_i load _
    obtain ⟨rfl, -⟩ := Prod.mk.inj (Option.some.inj h)
    cases load <;> simp [Size.bytes]
  · obtain ⟨rfl, -⟩ := Prod.mk.inj (Option.some.inj h)
    omega

/-- A chain is its first steps and its last ones. -/
theorem chainSem_append (m : Word → Byte) (htail : tail ≠ []) (w : Word) : chainSem c m (pre ++ tail) w =
    (runPlan m (pre.map fun o => readStep c o false) w).bind (chainSem c m tail) := by
  induction pre generalizing w with
  | nil => rfl
  | cons o pre ih =>
    have hlast : (decide (pre ++ tail = [])) = false := by simp [htail]
    show (if (readStep c o (decide (pre ++ tail = []))).checked ∧
        (readStep c o (decide (pre ++ tail = []))).value m w = 0 then .error .exit
      else chainSem c m (pre ++ tail) ((readStep c o (decide (pre ++ tail = []))).value m w)) =
      Except.bind (if _ then _ else _) _
    rw [hlast, ih]
    split <;> rfl

/-- The code of a whole access, from a base that the first steps lead on
from. -/
theorem EndsIn.reached (hends : EndsIn c tail frag reg want) (htail : tail ≠ []) {K : Kernel} {s : State} {w : Word}
    {ra : RegisterAllocator} (hpre : runPlan K.mem (pre.map fun o => readStep c o false) (s.regs reg) = .ok w)
    (hK : K.fastcall = c.rdonlyCastFastcall) (hfit : StackFits c) (hreg : reg ≠ RFP)
    (hkept : restored c ra (pre ++ tail) reg = false) :
    ∃ s', exec K (chainCode c ra (pre ++ tail) reg ++ frag) .run s = .cont .run s' ∧
      s'.regs reg = want K.mem (w + total tail) := by
  obtain ⟨x, hx, hfrag⟩ := hends K w
  obtain ⟨mode, s₁, hexec, -, -, hval⟩ := @exec_chainCode K c ra reg hK hfit hreg (pre ++ tail) s
  have hsem : chainSem c K.mem (pre ++ tail) (s.regs reg) = .ok x := by
    rw [chainSem_append K.mem htail, hpre]
    exact hx
  rw [hsem] at hval
  obtain ⟨rfl, hword, -⟩ := hval
  rw [hkept] at hword
  obtain ⟨s', hrun, hres⟩ := hfrag s₁ hword
  exact ⟨s', by rw [exec_append_of_run hexec, hrun], hres⟩

/-- The code that `access` puts behind a chain. -/
theorem endsIn_keepCode (heap : Heap) (t : BtfType) (mem : Option Member) :
    EndsIn c tail ((keepCode heap t mem reg).map (↑)) reg want ↔
      ∀ m w, ∃ x, chainSem c m tail w = .ok x ∧ keptSem heap t mem x = want m (w + total tail) := by
  constructor
  · intro hends m w
    obtain ⟨x, hx, hrun⟩ := hends { mem := m, clobber := fun _ _ => 0, fastcall := false } w
    obtain ⟨s', hexec, hres⟩ := hrun { regs := fun _ => x, stack := ones, out := ones, calls := 0 } rfl
    rw [exec_keepCode, Outcome.cont.injEq] at hexec
    refine ⟨x, hx, ?_⟩
    rw [← hres, ← hexec.2, State.set_regs_self]
  · intro hall K w
    obtain ⟨x, hx, hres⟩ := hall K.mem w
    refine ⟨x, hx, fun s hs => ⟨_, exec_keepCode K heap t mem reg s, ?_⟩⟩
    rw [State.set_regs_self, hs, hres]

/-- The code of an access: its base, its chain, and what is kept. -/
theorem eval_access_code (hacc : e.isAccess) (hres : accessMemory c e g = .ok (res, g₀))
    (h : eval c e g = .ok (v, g')) : v.typ = .regBtf ∧ ∃ g₁, ReadsChain c res g₀ g₁ v.reg ∧
      g'.insns = g₁.insns ++ (keepCode c.heap res.btf res.mem v.reg).map (↑) := by
  simp only [eval_access c hacc, bind_eq_ok, wrapping_eq_ok, hres, access_eq, emit_eq_ok, pure_eq_ok,
    Except.ok.injEq, Prod.mk.injEq] at h
  obtain ⟨_, _, ⟨rfl, rfl⟩, reg, g₁, hbase, _, g₂, hchain, _, _, rfl, rfl, rfl⟩ := h
  refine ⟨rfl, g₂, ⟨g₁, hbase, ?_⟩, rfl⟩
  rw [offset2insns_eq hchain]
  rfl

theorem total_last : total [o] = o.offset := by
  simp [total]

/-- The last step alone. -/
theorem chainSem_last (m : Word → Byte) (w : Word) :
    chainSem c m [o] w = .ok ((readStep c o true).value m w) := by
  have hcheck : (readStep c o true).checked = false := by
    unfold readStep
    split
    · rfl
    · split
      · rfl
      · rfl
      · split <;> rfl
  exact if_neg fun h => by simp [hcheck] at h

end Chains

/-! ## Accesses that stand for an address -/

/-- The access stands for an address: of an array, or the one that `&`
takes. -/
def IsAddress (e : Expr) (res : AccessResult) : Prop :=
  (arrayElem? res.btf).isSome ∨ ∃ left, e = .un .addr left

section Roots

variable {c : Compiler} {e : Expr} {res : AccessResult} {g g₀ : Gen}

theorem member_root {heap : Heap} {leftText text : String} {res₀ : AccessResult}
    (h : accessMember heap leftText text res₀ = .ok res) :
    res.offsets ≠ [] ∧ ((arrayElem? res.btf).isSome → res.mem = none) := by
  obtain ⟨member, offset, hptr, rfl⟩ := accessMember_ok h
  have hnil : (memberStep res₀ member offset).offsets ≠ [] := by
    unfold memberStep
    split
    · simp [AccessResult.addOffset]
    · rename_i hnone
      simpa [AccessResult.modifyLast] using hptr hnone
  split
  · exact ⟨by simpa [AccessResult.modifyLast] using hnil, fun _ => rfl⟩
  · rename_i hno
    exact ⟨hnil, fun hyes => absurd hyes hno⟩

/-- An access has a last step, and an address is no member. -/
theorem access_root (hacc : e.isAccess) (hres : accessMemory c e g = .ok (res, g₀)) :
    res.offsets ≠ [] ∧ (IsAddress e res → res.mem = none) := by
  unfold IsAddress
  cases e with
  | dot left member =>
    simp only [accessMemory, bind_eq_ok, lift_eq_ok] at hres
    obtain ⟨res₀, _, -, hstep, -⟩ := hres
    simpa using member_root hstep
  | arrow left member =>
    simp only [accessMemory, bind_eq_ok, lift_eq_ok] at hres
    obtain ⟨res₀, _, -, hstep, -⟩ := hres
    simpa using member_root hstep
  | index left right =>
    simp only [accessMemory, bind_eq_ok, wrapping_eq_ok, lift_eq_ok] at hres
    obtain ⟨res₀, _, -, hstep, -⟩ := hres
    obtain ⟨o, -, rfl⟩ := accessIndex_ok hstep
    exact ⟨by simp [AccessResult.addOffset], fun _ => rfl⟩
  | un op left =>
    cases op <;> simp only [Expr.isAccess, Bool.false_eq_true] at hacc
    case addr =>
      simp only [accessMemory, bind_eq_ok, wrapping_eq_ok, lift_eq_ok] at hres
      obtain ⟨res₀, _, -, hstep, -⟩ := hres
      obtain ⟨hnil, rfl⟩ := accessAddr_ok hstep
      exact ⟨by simpa [AccessResult.modifyLast] using hnil, fun _ => rfl⟩
    case indir =>
      simp only [accessMemory, bind_eq_ok, wrapping_eq_ok, lift_eq_ok] at hres
      obtain ⟨res₀, _, -, hstep, -⟩ := hres
      obtain ⟨o, -, rfl⟩ := accessIndir_ok hstep
      exact ⟨by simp [AccessResult.addOffset], fun _ => rfl⟩
  | _ => simp [Expr.isAccess] at hacc

end Roots

end Bpfsnoop.CC
