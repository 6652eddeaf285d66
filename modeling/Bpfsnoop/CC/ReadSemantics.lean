/-
Bpfsnoop.CC.ReadSemantics — what walking a chain of offsets yields, in
each of the three read modes.

`readStep` is what one step of a chain does to the value: it adds a
displacement, may load, and may leave for the exit label when it loaded
0. `chainSem` runs the steps of a chain. `loopCode` is the code of the
three read loops as a list, in which the value travels in `cursor`:
`r3` for probe reads, `r1` for CO-RE reads, the target register itself
for direct reads.
-/
import Bpfsnoop.CC.Semantics

namespace Bpfsnoop.CC

open Ebpf Btf Reg

/-! ## The value of a chain -/

/-- One step of a chain, in some read mode. -/
structure ReadStep where
  delta : Word
  load : Option Size
  /-- Leave for the exit label when 0 was loaded. -/
  checked : Bool
  deriving DecidableEq, Repr

/-- The value behind the step. -/
def ReadStep.value (m : Word → Byte) (st : ReadStep) (w : Word) : Word :=
  match st.load with
  | none => w + st.delta
  | some size => loadLE m (w + st.delta) size.bytes

def runPlan (m : Word → Byte) : List ReadStep → Word → SemM Word
  | [], w => .ok w
  | st :: rest, w =>
    if st.checked ∧ st.value m w = 0 then .error .exit
    else runPlan m rest (st.value m w)

/-- The size of the typed load of a CO-RE step, `none` where it falls
back to a probe read. -/
def castSize (c : Compiler) (o : AccessOffset) : Option Size :=
  match canRdonlyCast c.btfSpec o.prev with
  | .ok (some _) =>
    if !canReadByRdonlyCast o.btf || o.inArray then none
    else
      match loadSize c.heap o.btf with
      | .ok size => some size
      | .error _ => none
  | _ => none

/-- A step of a chain: `last` when no step follows. -/
def readStep (c : Compiler) (o : AccessOffset) (last : Bool) : ReadStep :=
  if o.address then { delta := int32 o.offset, load := none, checked := false }
  else
    match c.memMode with
    | .probeRead => { delta := int32 o.offset, load := some .dword, checked := !last }
    | .directRead =>
      { delta := (int16 o.offset).signExtend 64, load := some .dword, checked := !last }
    | .coreRead =>
      match castSize c o with
      | some size => { delta := (int16 o.offset).signExtend 64, load := some size, checked := !last }
      | none => { delta := 0, load := some .dword, checked := false }

def readPlan (c : Compiler) : List AccessOffset → List ReadStep
  | [] => []
  | o :: rest => readStep c o (rest = []) :: readPlan c rest

/-- The value a chain of offsets leads to from `w`. -/
def chainSem (c : Compiler) (m : Word → Byte) (offsets : List AccessOffset) (w : Word) : SemM Word :=
  runPlan m (readPlan c offsets) w

/-! ## The loops as lists of instructions -/

/-- The register in which the value travels. -/
def cursor (c : Compiler) (reg : Reg) : Reg :=
  match c.memMode with
  | .probeRead => R3
  | .coreRead => R1
  | .directRead => reg

/-- `bpf_probe_read_kernel(fp - 8, 8, r3)`. -/
def probeCall : List Insn :=
  [Asm.movImm R2 8, Asm.movReg R1 RFP, Asm.addImm R1 (-8), Op.call .probeReadKernel]

/-- The type id a CO-RE step casts to. -/
def castTypeID (c : Compiler) (o : AccessOffset) : Nat :=
  match canRdonlyCast c.btfSpec o.prev with
  | .ok (some id) => id
  | _ => 0

/-- Add the displacement, unless it is 0. -/
def addOffsetCode (cur : Reg) (o : AccessOffset) : List Insn :=
  if o.offset ≠ 0 then [Asm.addImm cur (int32 o.offset)] else []

/-- The code of one step. -/
def stepCode (c : Compiler) (reg : Reg) (o : AccessOffset) (last : Bool) : List Insn :=
  let cur := cursor c reg
  let check : List Insn := if last then [] else [Asm.jeqImm cur 0 c.labelExit]
  if o.address then
    addOffsetCode cur o ++ if last ∧ reg ≠ cur then [(Asm.movReg reg cur : Insn)] else []
  else
    match c.memMode with
    | .probeRead =>
      addOffsetCode cur o ++ probeCall
        ++ [(Asm.loadMem (if last then reg else R3) RFP (-8) .dword : Insn)] ++ check
    | .directRead => (Asm.loadMem reg reg (int16 o.offset) .dword : Insn) :: check
    | .coreRead =>
      match castSize c o with
      | some size =>
        [(Asm.movImm R2 (int32 (BitVec.ofNat 64 (castTypeID c o))) : Insn),
          (Op.callKfunc c.rdonlyCastTypeID : Insn),
          (Asm.loadMem (if last then reg else R1) R0 (int16 o.offset) size : Insn)] ++ check
      | none =>
        (Asm.movReg R3 R1 : Insn) :: probeCall
          ++ [(Asm.loadMem (if last then reg else R1) RFP (-8) .dword : Insn)]

def loopCode (c : Compiler) (reg : Reg) : List AccessOffset → List Insn
  | [] => []
  | o :: rest => stepCode c reg o (rest = []) ++ loopCode c reg rest

/-- Whether a chain makes its filter use the exit label. -/
def usesLabel (c : Compiler) : List AccessOffset → Bool
  | [] => false
  | o :: rest =>
    (c.memMode ≠ .directRead && (readStep c o (rest = [])).checked) || usesLabel c rest

/-! ## The loops emit that code -/

/-- A state with a chain's code behind it. -/
def Gen.withCode (g : Gen) (insns : List Insn) (label : Bool) : Gen :=
  { g with insns := g.insns ++ insns, labelExitUsed := g.labelExitUsed || label }

theorem Gen.withCode_withCode (g : Gen) (a b : List Insn) (x y : Bool) :
    (g.withCode a x).withCode b y = g.withCode (a ++ b) (x || y) := by
  simp [Gen.withCode, Bool.or_assoc]

section Loops

variable {c : Compiler} {reg : Reg}

theorem directReadOffsets_eq (hmode : c.memMode = .directRead) :
    ∀ (offsets : List AccessOffset) (g : Gen),
      directReadOffsets c reg offsets g
        = .ok ((), g.withCode (loopCode c reg offsets) (usesLabel c offsets))
  | [], g => by simp [directReadOffsets, loopCode, usesLabel, Gen.withCode]
  | o :: rest, g => by
      have ih (g : Gen) := directReadOffsets_eq hmode rest g
      have hcur : cursor c reg = reg := by simp [cursor, hmode]
      unfold directReadOffsets
      cases ho : o.address with
      | true =>
        by_cases hz : o.offset = 0#64 <;>
          simp [ho, hz, ih, loopCode, stepCode, usesLabel, Gen.withCode, hmode, hcur, addOffsetCode]
      | false =>
        cases rest with
        | nil =>
          simp [ho, directReadOffsets, loopCode, stepCode, usesLabel, Gen.withCode, hmode]
        | cons o' rest =>
          simp [ho, ih, loopCode, stepCode, usesLabel, Gen.withCode, hmode, hcur]

theorem probeReadLoop_eq (hmode : c.memMode = .probeRead) :
    ∀ (offsets : List AccessOffset) (g : Gen),
      probeReadLoop c reg offsets g
        = .ok ((), g.withCode (loopCode c reg offsets) (usesLabel c offsets))
  | [], g => by simp [probeReadLoop, loopCode, usesLabel, Gen.withCode]
  | o :: rest, g => by
      have ih (g : Gen) := probeReadLoop_eq hmode rest g
      have hcur : cursor c reg = R3 := by simp [cursor, hmode]
      unfold probeReadLoop
      cases ho : o.address with
      | true =>
        cases rest with
        | nil =>
          by_cases hz : o.offset = 0#64 <;> by_cases hr : reg = R3 <;>
            simp [ho, hz, hr, probeReadLoop, loopCode, stepCode, usesLabel, readStep, Gen.withCode,
              hmode, cursor, addOffsetCode]
        | cons o' rest =>
          by_cases hz : o.offset = 0#64 <;>
            simp [ho, hz, ih, loopCode, stepCode, usesLabel, readStep, Gen.withCode, hmode, hcur,
              addOffsetCode]
      | false =>
        cases rest with
        | nil =>
          by_cases hz : o.offset = 0#64 <;>
            simp [ho, hz, probeReadLoop, loopCode, stepCode, usesLabel, readStep, probeCall,
              Gen.withCode, hmode, hcur, addOffsetCode]
        | cons o' rest =>
          by_cases hz : o.offset = 0#64 <;>
            simp [ho, hz, ih, loopCode, stepCode, usesLabel, readStep, probeCall, Gen.withCode,
              hmode, hcur, addOffsetCode]

/-- The fallback of a CO-RE step, on `r1`. -/
theorem coreReadByProbeRead_eq (o : AccessOffset) (last : Bool) (g : Gen)
    (hmode : c.memMode = .coreRead) (ho : o.address = false) (hcast : castSize c o = none) :
    coreReadByProbeRead reg last g = .ok ((), g.withCode (stepCode c reg o last) false) := by
  have hres : (if (last : Prop) ∧ reg ≠ R1 then reg else R1) = if last then reg else R1 := by
    by_cases hl : last <;> by_cases hr : reg = R1 <;> simp [hl, hr]
  simp [coreReadByProbeRead, stepCode, ho, hmode, hcast, probeCall, Gen.withCode, hres]

theorem coreReadLoop_eq (hmode : c.memMode = .coreRead) :
    ∀ (offsets : List AccessOffset) (g g' : Gen) (u : Unit),
      coreReadLoop c reg offsets g = .ok (u, g') →
        g' = g.withCode (loopCode c reg offsets) (usesLabel c offsets)
  | [], g, g', u, h => by
      simp only [coreReadLoop, pure_eq_ok] at h
      simp [loopCode, usesLabel, Gen.withCode, h.2]
  | o :: rest, g, g', u, h => by
      have hcur : cursor c reg = R1 := by simp [cursor, hmode]
      -- the code of this step, then the loop over the others
      have hstep (h : coreReadLoop c reg rest
          (g.withCode (stepCode c reg o (rest = [])) (readStep c o (rest = [])).checked)
            = .ok (u, g')) :
          g' = g.withCode (loopCode c reg (o :: rest)) (usesLabel c (o :: rest)) := by
        have ih := coreReadLoop_eq hmode rest _ g' u h
        rw [ih, Gen.withCode_withCode]
        simp [loopCode, usesLabel, hmode]
      unfold coreReadLoop at h
      cases ho : o.address with
      | true =>
        refine hstep ?_
        simp only [ho, if_true] at h
        by_cases hz : o.offset = 0#64 <;> by_cases hr : rest = [] ∧ reg ≠ R1 <;>
          simp [hz, hr] at h <;>
          simpa [stepCode, readStep, ho, hz, hr, hcur, addOffsetCode, Gen.withCode] using h
      | false =>
        simp only [ho, Bool.false_eq_true, if_false, bind_eq_ok, wrapping_eq_ok, lift_eq_ok] at h
        obtain ⟨cast, _, ⟨hcast, rfl⟩, h⟩ := h
        -- a fallback leaves the label alone
        have hfallback (hnone : castSize c o = none)
            (h : (do coreReadByProbeRead reg (rest = []); coreReadLoop c reg rest) g
              = .ok (u, g')) :
            g' = g.withCode (loopCode c reg (o :: rest)) (usesLabel c (o :: rest)) := by
          simp only [bind_eq_ok, coreReadByProbeRead_eq o _ g hmode ho hnone, Except.ok.injEq,
            Prod.mk.injEq] at h
          obtain ⟨_, _, ⟨-, rfl⟩, h⟩ := h
          refine hstep ?_
          simpa [readStep, ho, hmode, hnone] using h
        cases cast with
        | none => exact hfallback (by simp [castSize, hcast]) h
        | some typID =>
          simp only [bind_eq_ok, wrapping_eq_ok, lift_eq_ok] at h
          obtain ⟨size, _, ⟨hsize, rfl⟩, h⟩ := h
          have hid : castTypeID c o = typID := by simp [castTypeID, hcast]
          split at h
          · rename_i hread
            exact hfallback (by simp [castSize, hcast, hread]) (by simpa using h)
          · rename_i hread
            have hsome : castSize c o = some size := by simp [castSize, hcast, hread, hsize]
            refine hstep ?_
            cases rest with
            | nil =>
              simp at h
              simpa [stepCode, readStep, ho, hmode, hsome, hid, Gen.withCode] using h
            | cons o' rest =>
              simp at h
              simpa [stepCode, readStep, ho, hmode, hsome, hid, hcur, Gen.withCode] using h

end Loops

/-! ## The code around the loops -/

/-- How many registers from `r1` on the read mode looks at when it saves
registers. -/
def savedRegsNr (c : Compiler) : Nat :=
  match c.memMode with
  | .probeRead => 5
  | .coreRead => coreRegsNr c
  | .directRead => 0

def pushCode (c : Compiler) (ra : RegisterAllocator) (n : Nat) : List Insn :=
  (if ra.isUsed R0 then [(Asm.storeMem RFP (saveSlotR0 c (usedRegNr ra n)) R0 .dword : Insn)] else [])
    ++ (List.range (usedRegNr ra n)).map fun i =>
      (Asm.storeMem RFP (saveSlot c (usedRegNr ra n) i) (callerSaved i) .dword : Insn)

def popCode (c : Compiler) (ra : RegisterAllocator) (n : Nat) : List Insn :=
  ((List.range (usedRegNr ra n)).map fun i =>
      (Asm.loadMem (callerSaved i) RFP (saveSlot c (usedRegNr ra n) i) .dword : Insn))
    ++ if ra.isUsed R0 then [(Asm.loadMem R0 RFP (saveSlotR0 c (usedRegNr ra n)) .dword : Insn)] else []

/-- Move the base into the cursor. -/
def enterCode (c : Compiler) (reg : Reg) : List Insn :=
  if reg ≠ cursor c reg then [(Asm.movReg (cursor c reg) reg : Insn)] else []

/-- What `offset2insns` emits for a chain. -/
def chainCode (c : Compiler) (ra : RegisterAllocator) (offsets : List AccessOffset) (reg : Reg) :
    List Insn :=
  if allAddress offsets then offsets.map fun o => (Asm.addImm reg (int32 o.offset) : Insn)
  else
    match c.memMode with
    | .directRead => loopCode c reg offsets
    | _ =>
      pushCode c ra (savedRegsNr c) ++ enterCode c reg ++ loopCode c reg offsets
        ++ popCode c ra (savedRegsNr c)

section Dispatch

variable {c : Compiler}

theorem pushUsedCallerSavedRegsN_eq (n : Nat) (g : Gen) :
    pushUsedCallerSavedRegsN c n g = .ok ((), g.withCode (pushCode c g.regalloc n) false) := by
  cases h : g.regalloc.isUsed R0 <;>
    simp [pushUsedCallerSavedRegsN, pushCode, Gen.withCode, h]

theorem popUsedCallerSavedRegsN_eq (n : Nat) (g : Gen) :
    popUsedCallerSavedRegsN c n g = .ok ((), g.withCode (popCode c g.regalloc n) false) := by
  cases h : g.regalloc.isUsed R0 <;>
    simp [popUsedCallerSavedRegsN, popCode, Gen.withCode, h]

/-- Address steps never use the exit label. -/
theorem usesLabel_of_allAddress : ∀ {offsets : List AccessOffset}, allAddress offsets →
    usesLabel c offsets = false
  | [], _ => rfl
  | o :: rest, h => by
      simp only [allAddress, List.all_cons, Bool.and_eq_true] at h
      have ih : usesLabel c rest = false := usesLabel_of_allAddress h.2
      simp [usesLabel, ih, readStep, h.1]

/-- Direct reads never use the exit label. -/
theorem usesLabel_direct (hmode : c.memMode = .directRead) :
    ∀ offsets : List AccessOffset, usesLabel c offsets = false
  | [] => rfl
  | o :: rest => by simp [usesLabel, hmode, usesLabel_direct hmode rest]

/-- **`offset2insns` emits `chainCode`.** -/
theorem offset2insns_eq {offsets : List AccessOffset} {reg : Reg} {g g' : Gen} {u : Unit}
    (h : offset2insns c offsets reg g = .ok (u, g')) :
    g' = g.withCode (chainCode c g.regalloc offsets reg) (usesLabel c offsets) := by
  unfold offset2insns at h
  split at h
  · rename_i hnil
    simp only [pure_eq_ok] at h
    simp [hnil, chainCode, allAddress, usesLabel, Gen.withCode, h.2]
  split at h
  · rename_i hall
    simp only [emit_eq_ok] at h
    simp [chainCode, hall, usesLabel_of_allAddress hall, Gen.withCode, ← h]
  rename_i hall
  cases hmode : c.memMode with
  | directRead =>
    simp only [hmode, directReadOffsets_eq hmode, Except.ok.injEq, Prod.mk.injEq] at h
    simp [chainCode, hall, hmode, ← h.2]
  | coreRead =>
    have hcur : cursor c reg = R1 := by simp [cursor, hmode]
    have hnr : savedRegsNr c = coreRegsNr c := by simp [savedRegsNr, hmode]
    simp only [hmode, coreReadOffsets, bind_eq_ok, pushUsedCallerSavedRegsN_eq, Except.ok.injEq,
      Prod.mk.injEq] at h
    obtain ⟨_, _, ⟨-, rfl⟩, h⟩ := h
    by_cases hr : reg = R1
    · simp only [hr, ne_eq, not_true_eq_false, if_false, bind_eq_ok,
        popUsedCallerSavedRegsN_eq, Except.ok.injEq, Prod.mk.injEq] at h
      obtain ⟨_, _, hloop, -, rfl⟩ := h
      rw [coreReadLoop_eq hmode _ _ _ _ hloop]
      simp [chainCode, hall, hmode, hnr, hr, cursor, enterCode, Gen.withCode]
    · simp only [hr, ne_eq, not_false_eq_true, if_true, bind_eq_ok, emit_eq_ok,
        popUsedCallerSavedRegsN_eq, Except.ok.injEq, Prod.mk.injEq] at h
      obtain ⟨_, _, rfl, _, _, hloop, -, rfl⟩ := h
      rw [coreReadLoop_eq hmode _ _ _ _ hloop]
      simp [chainCode, hall, hmode, hnr, hcur, hr, enterCode, Gen.withCode]
  | probeRead =>
    have hcur : cursor c reg = R3 := by simp [cursor, hmode]
    have hnr : savedRegsNr c = 5 := by simp [savedRegsNr, hmode]
    simp only [hmode, probeReadOffsets, hall, Bool.false_eq_true, if_false,
      pushUsedCallerSavedRegs, popUsedCallerSavedRegs, bind_eq_ok, pushUsedCallerSavedRegsN_eq,
      Except.ok.injEq, Prod.mk.injEq] at h
    obtain ⟨_, _, ⟨-, rfl⟩, h⟩ := h
    by_cases hr : reg = R3
    · simp only [hr, ne_eq, not_true_eq_false, if_false, bind_eq_ok, probeReadLoop_eq hmode,
        popUsedCallerSavedRegsN_eq, Except.ok.injEq, Prod.mk.injEq] at h
      obtain ⟨_, _, ⟨-, rfl⟩, -, rfl⟩ := h
      simp [chainCode, hall, hmode, hnr, hr, cursor, enterCode, Gen.withCode]
    · simp only [hr, ne_eq, not_false_eq_true, if_true, bind_eq_ok, emit_eq_ok,
        probeReadLoop_eq hmode, popUsedCallerSavedRegsN_eq, Except.ok.injEq, Prod.mk.injEq] at h
      obtain ⟨_, _, rfl, _, _, ⟨-, rfl⟩, -, rfl⟩ := h
      simp [chainCode, hall, hmode, hnr, hcur, hr, enterCode, Gen.withCode]

end Dispatch

end Bpfsnoop.CC
