/-
Bpfsnoop.CC.Compiler — the state of the expression compiler.

The Go `compiler` record is split in two: `Compiler` holds the fields
that `newCompiler` sets once, `Gen` the three that compiling changes
(the register allocator, the instructions, whether the exit label is
used). A method of the record is a function of the `Compiler` into
`CodeM`, state passing over `Gen` with Go's errors.
-/
import Bpfsnoop.CC.Syntax
import Bpfsnoop.Ebpf.Insn

namespace Bpfsnoop.CC

open Ebpf Btf Reg

/-! ## Register allocator -/

/-- `[10]bool` for `r0` to `r9`; the entry of `r10` is never set. -/
structure RegisterAllocator where
  registers : Reg → Bool

namespace RegisterAllocator

def empty : RegisterAllocator := ⟨fun _ => false⟩

/-- The order in which `Alloc` tries the registers. -/
def order : List Reg := [R8, R7, R6, R5, R4, R3, R2, R1, R0]

def alloc (ra : RegisterAllocator) : Except GoError (Reg × RegisterAllocator) :=
  match order.find? fun r => !ra.registers r with
  | some r => .ok (r, ⟨Function.update ra.registers r true⟩)
  | none => .error .registerNotEnough

def free (ra : RegisterAllocator) (reg : Reg) : RegisterAllocator :=
  if reg ≤ R9 then ⟨Function.update ra.registers reg false⟩ else ra

/-- `IsUsed`, for the registers up to `r9` it is called with. -/
def isUsed (ra : RegisterAllocator) (reg : Reg) : Bool := ra.registers reg

def markUsed (ra : RegisterAllocator) (reg : Reg) : Except GoError RegisterAllocator :=
  if reg ≤ R9 then .ok ⟨Function.update ra.registers reg true⟩
  else .error (.panic "register is out of range")

/-- What `Alloc` gives out: a register up to `r8` that was not in use. -/
theorem alloc_spec {ra ra' : RegisterAllocator} {r : Reg} (h : ra.alloc = .ok (r, ra')) :
    ra.registers r = false ∧ r ≤ R8 ∧ ra' = ⟨Function.update ra.registers r true⟩ := by
  unfold alloc at h
  split at h
  · rename_i r' hr'
    simp only [Except.ok.injEq, Prod.mk.injEq] at h
    obtain ⟨rfl, rfl⟩ := h
    have hmem := List.mem_of_find?_eq_some hr'
    refine ⟨by simpa using List.find?_some hr', ?_, rfl⟩
    revert hmem
    simp only [order, List.mem_cons, List.not_mem_nil, or_false]
    rintro (rfl | rfl | rfl | rfl | rfl | rfl | rfl | rfl | rfl) <;> decide
  · simp at h

end RegisterAllocator

/-! ## Compiler -/

inductive MemoryReadMode where
  | probeRead | coreRead | directRead
  deriving DecidableEq, Repr

/-- The fields of `compiler` that compiling leaves alone. -/
structure Compiler where
  heap : Heap
  vars : List String
  btfs : List BtfType
  btfSpec : Spec
  krnlSpec : Spec
  labelExit : String
  reservedStack : Word
  memMode : MemoryReadMode
  rdonlyCastTypeID : Nat
  rdonlyCastFastcall : Bool

/-- A compiler without parameters over BTF specs without types. -/
def Compiler.empty (mode : MemoryReadMode) : Compiler :=
  { heap := fun _ => ⟨0, fun _ => none⟩
    vars := []
    btfs := []
    btfSpec := ⟨fun _ => .error .notFound, fun _ => none, []⟩
    krnlSpec := ⟨fun _ => .error .notFound, fun _ => none, []⟩
    labelExit := "exit"
    reservedStack := 8
    memMode := mode
    rdonlyCastTypeID := 0
    rdonlyCastFastcall := false }

/-- The fields of `compiler` that compiling changes. -/
structure Gen where
  regalloc : RegisterAllocator
  insns : List Insn
  labelExitUsed : Bool

abbrev CodeM := StateT Gen (Except GoError)

def fail {α : Type} (e : GoError) : CodeM α := fun _ => .error e

/-- `fmt.Errorf("…: %w", err)` around a failing step. -/
def wrapping {α : Type} (text : String) (m : CodeM α) : CodeM α := fun g =>
  match m g with
  | .ok r => .ok r
  | .error e => .error (.wrapf (text ++ ": %w") [] e)

/-- A step that may fail and touches nothing. -/
def lift {α : Type} (x : Except GoError α) : CodeM α := fun g =>
  match x with
  | .ok a => .ok (a, g)
  | .error e => .error e

def emit (insns : List Insn) : CodeM Unit := fun g =>
  .ok ((), { g with insns := g.insns ++ insns })

def alloc : CodeM Reg := fun g =>
  match g.regalloc.alloc with
  | .ok (r, ra) => .ok (r, { g with regalloc := ra })
  | .error e => .error e

def free (reg : Reg) : CodeM Unit := fun g => .ok ((), { g with regalloc := g.regalloc.free reg })

def useLabelExit : CodeM Unit := fun g => .ok ((), { g with labelExitUsed := true })

def getRegalloc : CodeM RegisterAllocator := fun g => .ok (g.regalloc, g)

/-! ### Successful steps

What it means that a step succeeds, one equivalence for each way to build
a step, so that `simp` takes a compiling function apart. -/

section Success

variable {α β : Type}

@[simp] theorem bind_eq_ok {m : CodeM α} {f : α → CodeM β} {g g'' : Gen} {b : β} :
    (m >>= f) g = .ok (b, g'') ↔ ∃ a g', m g = .ok (a, g') ∧ f a g' = .ok (b, g'') := by
  constructor
  · intro h
    cases hm : m g with
    | error e => simp [bind, StateT.bind, Except.bind, hm] at h
    | ok r =>
      obtain ⟨a, g'⟩ := r
      exact ⟨a, g', rfl, by simpa [bind, StateT.bind, Except.bind, hm] using h⟩
  · rintro ⟨a, g', hm, hf⟩
    simp [bind, StateT.bind, Except.bind, hm, hf]

@[simp] theorem pure_eq_ok {a b : α} {g g' : Gen} :
    (pure a : CodeM α) g = .ok (b, g') ↔ a = b ∧ g = g' := by
  show (Except.ok (a, g) : Except GoError (α × Gen)) = .ok (b, g') ↔ a = b ∧ g = g'
  simp

@[simp] theorem fail_eq_ok {e : GoError} {a : α} {g g' : Gen} :
    (fail e : CodeM α) g = .ok (a, g') ↔ False := by
  simp [fail]

@[simp] theorem wrapping_eq_ok {text : String} {m : CodeM α} {g : Gen} {r : α × Gen} :
    wrapping text m g = .ok r ↔ m g = .ok r := by
  unfold wrapping
  cases m g <;> simp

@[simp] theorem lift_eq_ok {x : Except GoError α} {a : α} {g g' : Gen} :
    lift x g = .ok (a, g') ↔ x = .ok a ∧ g = g' := by
  unfold lift
  cases x <;> simp

@[simp] theorem emit_eq_ok {insns : List Insn} {u : Unit} {g g' : Gen} :
    emit insns g = .ok (u, g') ↔ { g with insns := g.insns ++ insns } = g' := by
  simp [emit]

@[simp] theorem alloc_eq_ok {r : Reg} {g g' : Gen} :
    alloc g = .ok (r, g') ↔
      ∃ ra, g.regalloc.alloc = .ok (r, ra) ∧ { g with regalloc := ra } = g' := by
  unfold alloc
  cases g.regalloc.alloc with
  | error e => simp
  | ok p =>
    obtain ⟨r', ra⟩ := p
    simp only [Except.ok.injEq, Prod.mk.injEq]
    constructor
    · rintro ⟨rfl, rfl⟩
      exact ⟨ra, ⟨rfl, rfl⟩, rfl⟩
    · rintro ⟨_, ⟨rfl, rfl⟩, rfl⟩
      exact ⟨rfl, rfl⟩

@[simp] theorem free_eq_ok {r : Reg} {u : Unit} {g g' : Gen} :
    free r g = .ok (u, g') ↔ { g with regalloc := g.regalloc.free r } = g' := by
  simp [free]

@[simp] theorem useLabelExit_eq_ok {u : Unit} {g g' : Gen} :
    useLabelExit g = .ok (u, g') ↔ { g with labelExitUsed := true } = g' := by
  simp [useLabelExit]

@[simp] theorem getRegalloc_eq_ok {ra : RegisterAllocator} {g g' : Gen} :
    getRegalloc g = .ok (ra, g') ↔ g.regalloc = ra ∧ g = g' := by
  simp [getRegalloc]

end Success

/-! ## Instruction constructors of the assembler package -/

namespace Asm

abbrev movReg (dst src : Reg) : Op := .alu .mov dst (.reg src)
abbrev movImm (dst : Reg) (c : Word) : Op := .alu .mov dst (.imm c)
abbrev addImm (dst : Reg) (c : Word) : Op := .alu .add dst (.imm c)
abbrev andImm (dst : Reg) (c : Word) : Op := .alu .and dst (.imm c)
abbrev lshImm (dst : Reg) (c : Word) : Op := .alu .lsh dst (.imm c)
abbrev rshImm (dst : Reg) (c : Word) : Op := .alu .rsh dst (.imm c)
abbrev loadMem (dst src : Reg) (offset : BitVec 16) (size : Size) : Op := .ldx size dst src offset
abbrev storeMem (dst : Reg) (offset : BitVec 16) (src : Reg) (size : Size) : Op :=
  .stx size dst offset src
abbrev jeqImm (dst : Reg) (c : Word) (label : String) : Op := .jmpTo .eq dst (.imm c) label

end Asm

/-- `JmpOff`. -/
abbrev jmpOff (op : JumpOp) (dst : Reg) (value : Word) (offset : BitVec 16) : Op :=
  .jmp op dst (.imm value) offset

/-- `JmpReg`. -/
abbrev jmpReg (op : JumpOp) (dst src : Reg) (offset : BitVec 16) : Op :=
  .jmp op dst (.reg src) offset

/-- `Ja`. -/
abbrev ja (offset : BitVec 16) : Op := .ja offset

/-! ## Argument loads, and registers around calls -/

abbrev argsReg : Reg := R9

/-- `emitLoadArg`. -/
def emitLoadArg (index : Nat) (dst : Reg) : CodeM Unit :=
  emit [Asm.loadMem dst argsReg (int16 (BitVec.ofNat 64 (index * 8))) .dword]

/-- `asm.R1 + asm.Register(i)`, for `i` below 5. -/
def callerSaved (i : Nat) : Reg := @Fin.ofNat 11 ⟨by decide⟩ (1 + i)

/-- `usedRegNr`: how many of `r1` to `r_n` are in use. -/
def usedRegNr (ra : RegisterAllocator) (n : Nat) : Nat :=
  (List.range n).countP fun i => ra.isUsed (callerSaved i)

/-- The displacement of save slot `i`: `int16(-offset + i*8)`. -/
def saveSlot (c : Compiler) (used i : Nat) : BitVec 16 :=
  int16 (-(c.reservedStack + BitVec.ofNat 64 (used * 8)) + BitVec.ofNat 64 (i * 8))

/-- The displacement of the slot of `r0`: `int16(-offset - 8)`. -/
def saveSlotR0 (c : Compiler) (used : Nat) : BitVec 16 :=
  int16 (-(c.reservedStack + BitVec.ofNat 64 (used * 8)) - 8)

/-- `pushUsedCallerSavedRegsN`. The count decides which registers are
saved: the first `usedRegNr` of them, whichever are in use. -/
def pushUsedCallerSavedRegsN (c : Compiler) (n : Nat) : CodeM Unit := do
  let ra ← getRegalloc
  let used := usedRegNr ra n
  if ra.isUsed R0 then
    emit [Asm.storeMem RFP (saveSlotR0 c used) R0 .dword]
  emit ((List.range used).map fun i =>
    Asm.storeMem RFP (saveSlot c used i) (callerSaved i) .dword)

def pushUsedCallerSavedRegs (c : Compiler) : CodeM Unit := pushUsedCallerSavedRegsN c 5

/-- `popUsedCallerSavedRegsN`. -/
def popUsedCallerSavedRegsN (c : Compiler) (n : Nat) : CodeM Unit := do
  let ra ← getRegalloc
  let used := usedRegNr ra n
  emit ((List.range used).map fun i =>
    Asm.loadMem (callerSaved i) RFP (saveSlot c used i) .dword)
  if ra.isUsed R0 then
    emit [Asm.loadMem R0 RFP (saveSlotR0 c used) .dword]

def popUsedCallerSavedRegs (c : Compiler) : CodeM Unit := popUsedCallerSavedRegsN c 5

end Bpfsnoop.CC
