/-
Bpfsnoop.Ebpf.Insn — the eBPF instructions that the code generators emit.

Only the forms in use are here: 64-bit ALU operations, loads and stores,
relative conditional jumps, jumps to a label, helper and kfunc calls and
`exit`. Field widths are those of the instruction record the generators
fill in: a 16-bit displacement and a 64-bit constant, of which the
encoding keeps the low 32 bits (`int32`).
-/
import Mathlib.Data.Fintype.Basic
import Mathlib.Data.Fintype.Pi
import Mathlib.Logic.Function.Basic

namespace Bpfsnoop.Ebpf

abbrev Word := BitVec 64
abbrev Byte := BitVec 8

/-- Registers `r0` to `r10`. -/
abbrev Reg := Fin 11

namespace Reg

@[match_pattern] abbrev R0 : Reg := 0
@[match_pattern] abbrev R1 : Reg := 1
@[match_pattern] abbrev R2 : Reg := 2
@[match_pattern] abbrev R3 : Reg := 3
@[match_pattern] abbrev R4 : Reg := 4
@[match_pattern] abbrev R5 : Reg := 5
@[match_pattern] abbrev R6 : Reg := 6
@[match_pattern] abbrev R7 : Reg := 7
@[match_pattern] abbrev R8 : Reg := 8
@[match_pattern] abbrev R9 : Reg := 9
/-- The frame pointer `r10`. -/
@[match_pattern] abbrev RFP : Reg := 10

end Reg

/-- Access sizes of loads and stores. -/
inductive Size where
  | byte | half | word | dword
  deriving DecidableEq, Repr

/-- The number of bytes an access of this size moves. -/
def Size.bytes : Size → Nat
  | .byte => 1
  | .half => 2
  | .word => 4
  | .dword => 8

inductive AluOp where
  | mov | add | sub | mul | div | or | and | lsh | rsh | neg | mod | xor
  deriving DecidableEq, Repr

/-- The unsigned comparisons of conditional jumps. -/
inductive JumpOp where
  | eq | ne | gt | ge | lt | le
  deriving DecidableEq, Repr

/-- The second operand of an ALU operation or a conditional jump. -/
inductive Operand where
  | imm (constant : Word)
  | reg (src : Reg)
  deriving DecidableEq, Repr

inductive Helper where
  | probeReadKernel
  | probeReadKernelStr
  deriving DecidableEq, Repr

inductive Op where
  | alu (op : AluOp) (dst : Reg) (src : Operand)
  | ldx (size : Size) (dst src : Reg) (offset : BitVec 16)
  | stx (size : Size) (dst : Reg) (offset : BitVec 16) (src : Reg)
  | ja (offset : BitVec 16)
  | jmp (op : JumpOp) (dst : Reg) (src : Operand) (offset : BitVec 16)
  | jmpTo (op : JumpOp) (dst : Reg) (src : Operand) (label : String)
  | call (fn : Helper)
  | callKfunc (id : Nat)
  | exit
  deriving DecidableEq, Repr

/-- An instruction and the symbol attached to it, if any. -/
structure Insn where
  op : Op
  symbol : Option String := none
  deriving DecidableEq, Repr

instance : Coe Op Insn := ⟨fun op => { op }⟩

/-- `Instruction.WithSymbol`. -/
def Insn.withSymbol (i : Insn) (symbol : String) : Insn := { i with symbol := some symbol }

/-- The label an instruction may jump to. -/
def Op.label? : Op → Option String
  | .jmpTo _ _ _ l => some l
  | _ => none

/-! ## Narrowing of constants -/

/-- Go's `int32(x)`, widened again to 64 bits: also what the 32-bit
constant field of an encoded instruction keeps. -/
def int32 (x : Word) : Word := (x.setWidth 32).signExtend 64

/-- Go's `int16(x)`. -/
def int16 (x : Word) : BitVec 16 := x.setWidth 16

theorem setWidth_signExtend (x : BitVec 32) : (x.signExtend 64).setWidth 32 = x := by
  ext i hi
  simp [BitVec.getLsbD_signExtend, hi]
  omega

theorem setWidth_int32 (x : Word) : (int32 x).setWidth 32 = x.setWidth 32 :=
  setWidth_signExtend _

@[simp] theorem int32_int32 (x : Word) : int32 (int32 x) = int32 x := by
  rw [int32, setWidth_int32, int32]

@[simp] theorem int32_zero : int32 0#64 = 0#64 := by decide
@[simp] theorem int32_one : int32 1#64 = 1#64 := by decide

/-- A value in the range of a 16-bit displacement survives the narrowing. -/
theorem int16_of_fits {x : Word} (h : -2 ^ 15 ≤ x.toInt) (h' : x.toInt < 2 ^ 15) :
    (int16 x).signExtend 64 = x := by
  apply BitVec.eq_of_toInt_eq
  rw [BitVec.toInt_signExtend_of_le (by omega), int16, BitVec.toInt_setWidth, Int.bmod_def]
  rw [BitVec.toInt_eq_toNat_cond] at *
  have hx := x.isLt
  split at h <;> split at h' <;> omega

/-- A value in the range of a 32-bit constant survives the narrowing. -/
theorem int32_of_fits {x : Word} (h : -2 ^ 31 ≤ x.toInt) (h' : x.toInt < 2 ^ 31) :
    int32 x = x := by
  apply BitVec.eq_of_toInt_eq
  rw [int32, BitVec.toInt_signExtend_of_le (by omega), BitVec.toInt_setWidth, Int.bmod_def]
  rw [BitVec.toInt_eq_toNat_cond] at *
  have hx := x.isLt
  split at h <;> split at h' <;> omega

/-- The constants that a 32-bit field keeps. -/
theorem int32_eq_self_iff (x : Word) : int32 x = x ↔ -2 ^ 31 ≤ x.toInt ∧ x.toInt < 2 ^ 31 := by
  constructor
  · intro h
    have hle : (int32 x).toInt = (x.setWidth 32).toInt := BitVec.toInt_signExtend_of_le (by decide)
    rw [h] at hle
    rw [hle]
    exact ⟨BitVec.le_toInt _, BitVec.toInt_lt⟩
  · intro h
    exact int32_of_fits h.1 h.2

/-- A displacement of `n` bytes down, up to 2^15 of them. -/
theorem int16_neg {n : Nat} (h : n ≤ 2 ^ 15) :
    (int16 (-(BitVec.ofNat 64 n))).signExtend 64 = -(BitVec.ofNat 64 n) := by
  apply int16_of_fits
  · rw [BitVec.toInt_eq_toNat_cond, BitVec.toNat_neg, BitVec.toNat_ofNat]
    split <;> omega
  · rw [BitVec.toInt_eq_toNat_cond, BitVec.toNat_neg, BitVec.toNat_ofNat]
    split <;> omega

end Bpfsnoop.Ebpf
