/-
Bpfsnoop.Ebpf.Machine — what the emitted instructions do.

`Op.exec` is one instruction, `run` the machine with its program counter.
Three address spaces are kept apart, as the verifier keeps the pointer
types apart: kernel memory (`Kernel.mem`, also the argument array, only
read), the stack frame below `r10`, and the output record (only written).
The generated code reaches its frame through `r10` alone, so a load or
store with base `r10` is a stack access and every other load reads kernel
memory. A helper gets its destination as a value, which is a frame
address exactly when it lies in the 512 bytes below `r10`.

Nothing is assumed about the registers a call clobbers: `Kernel.clobber`
gives their values after the n-th call and every theorem quantifies over
it.
-/
import Bpfsnoop.Ebpf.Insn
import Mathlib.Data.BitVec

namespace Bpfsnoop.Ebpf

/-! ## Little-endian memory -/

/-- The `n` bytes at `a`, little-endian. -/
def loadLE (m : Word → Byte) (a : Word) : Nat → Word
  | 0 => 0
  | n + 1 => (m a).setWidth 64 ||| (loadLE m (a + 1) n <<< 8)

/-- Byte `i` of a word. -/
def byteOf (w : Word) (i : Nat) : Byte := (w >>> (8 * i)).setWidth 8

/-- `m` with the `n` bytes `f 0, …, f (n - 1)` written at `dst`. -/
def writeBytes (m : Word → Byte) (dst : Word) (n : Nat) (f : Nat → Byte) : Word → Byte :=
  fun a => if (a - dst).toNat < n then f (a - dst).toNat else m a

/-- The length of the NUL-terminated string at `a`, cut at `n`. -/
def strLen (m : Word → Byte) (a : Word) : Nat → Nat
  | 0 => 0
  | n + 1 => if m a = 0 then 0 else strLen m (a + 1) n + 1

/-! ## State -/

structure State where
  regs : Reg → Word
  stack : Word → Byte
  out : Word → Byte
  /-- The number of calls made so far. -/
  calls : Nat

/-- What a program runs against. -/
structure Kernel where
  mem : Word → Byte
  /-- The value a call leaves in a register it clobbers. -/
  clobber : Nat → Reg → Word
  /-- Whether the called kfunc is declared `bpf_fastcall`: it then
  preserves `r3` to `r5`. -/
  fastcall : Bool

def State.set (s : State) (r : Reg) (w : Word) : State :=
  { s with regs := Function.update s.regs r w }

@[simp] theorem State.set_regs_self (s : State) (r : Reg) (w : Word) :
    (s.set r w).regs r = w := by simp [State.set]

@[simp] theorem State.set_regs_of_ne (s : State) {r r' : Reg} (w : Word) (h : r' ≠ r) :
    (s.set r w).regs r' = s.regs r' := by simp [State.set, h]

@[simp] theorem State.set_stack (s : State) (r : Reg) (w : Word) :
    (s.set r w).stack = s.stack := rfl

@[simp] theorem State.set_out (s : State) (r : Reg) (w : Word) :
    (s.set r w).out = s.out := rfl

@[simp] theorem State.set_calls (s : State) (r : Reg) (w : Word) :
    (s.set r w).calls = s.calls := rfl

@[simp] theorem State.set_self (s : State) (r : Reg) : s.set r (s.regs r) = s := by
  simp [State.set]

@[simp] theorem State.set_set (s : State) (r : Reg) (w w' : Word) :
    (s.set r w).set r w' = s.set r w' := by simp [State.set]

theorem State.set_comm (s : State) {q r : Reg} (x w : Word) (h : q ≠ r) :
    (s.set q x).set r w = (s.set r w).set q x := by
  simp only [State.set, Function.update_comm h]

/-- Whether `a` is one of the 512 bytes below `fp`. -/
def inFrame (fp a : Word) : Bool := 0 < (fp - a).toNat && (fp - a).toNat ≤ 512

/-- Write through a pointer value: into the frame or into the record. -/
def State.write (s : State) (dst : Word) (n : Nat) (f : Nat → Byte) : State :=
  if inFrame (s.regs .RFP) dst then { s with stack := writeBytes s.stack dst n f }
  else { s with out := writeBytes s.out dst n f }

/-! ## One instruction -/

def AluOp.eval : AluOp → Word → Word → Word
  | .mov, _, b => b
  | .add, a, b => a + b
  | .sub, a, b => a - b
  | .mul, a, b => a * b
  | .div, a, b => if b = 0 then 0 else a / b
  | .or, a, b => a ||| b
  | .and, a, b => a &&& b
  | .lsh, a, b => a <<< (b.toNat % 64)
  | .rsh, a, b => a >>> (b.toNat % 64)
  | .neg, a, _ => -a
  | .mod, a, b => if b = 0 then a else a % b
  | .xor, a, b => a ^^^ b

def JumpOp.eval : JumpOp → Word → Word → Bool
  | .eq, a, b => a == b
  | .ne, a, b => a != b
  | .gt, a, b => b < a
  | .ge, a, b => b ≤ a
  | .lt, a, b => a < b
  | .le, a, b => a ≤ b

@[simp] theorem JumpOp.eval_eq_zero (a : Word) : JumpOp.eq.eval a 0#64 = decide (a = 0#64) := by
  simp only [JumpOp.eval, beq_eq_decide]

@[simp] theorem JumpOp.eval_ne_zero (a : Word) : JumpOp.ne.eval a 0#64 = !decide (a = 0#64) := by
  simp only [JumpOp.eval, bne, beq_eq_decide]

def Operand.eval (o : Operand) (regs : Reg → Word) : Word :=
  match o with
  | .imm c => int32 c
  | .reg r => regs r

@[simp] theorem Operand.eval_imm (c : Word) (regs : Reg → Word) :
    (Operand.imm c).eval regs = int32 c := rfl

@[simp] theorem Operand.eval_reg (r : Reg) (regs : Reg → Word) :
    (Operand.reg r).eval regs = regs r := rfl

/-- Where control goes after an instruction. -/
inductive Next where
  | next
  | jump (offset : BitVec 16)
  | label (l : String)
  | exit

/-- The registers a call destroys: `r0` to `r5`, of which a fastcall
kfunc leaves `r3` to `r5` alone. -/
def clobbered (fastcall : Bool) (r : Reg) : Bool :=
  r ≤ (if fastcall then .R2 else .R5)

/-- Every call destroys `r0` to `r2`. -/
theorem clobbered_of_le : ∀ (fastcall : Bool) (r : Reg), r ≤ .R2 → clobbered fastcall r = true := by
  decide

/-- No call destroys a register above `r5`. -/
theorem clobbered_of_lt : ∀ (fastcall : Bool) (r : Reg), .R5 < r → clobbered fastcall r = false := by
  decide

/-- The state after the registers of a call are destroyed. -/
def State.afterCall (K : Kernel) (fastcall : Bool) (s : State) : State :=
  { s with
    regs := fun r => if clobbered fastcall r then K.clobber s.calls r else s.regs r
    calls := s.calls + 1 }

/-- Nothing is left of the content of a register a call destroys. -/
theorem State.afterCall_set_of_clobbered (K : Kernel) {fastcall : Bool} (s : State) {q : Reg}
    (x : Word) (h : clobbered fastcall q = true) :
    (s.set q x).afterCall K fastcall = s.afterCall K fastcall := by
  have hregs : (fun r => if clobbered fastcall r then K.clobber s.calls r else (s.set q x).regs r)
      = fun r => if clobbered fastcall r then K.clobber s.calls r else s.regs r := by
    funext r
    by_cases hr : clobbered fastcall r
    · simp [hr]
    · have hne : r ≠ q := by
        rintro rfl
        exact hr h
      simp [hr, hne]
  simp only [State.afterCall, State.set_calls, hregs]
  rfl

/-- A register a call preserves may be set before or behind it. -/
theorem State.afterCall_set (K : Kernel) {fastcall : Bool} (s : State) {q : Reg} (x : Word)
    (h : clobbered fastcall q = false) :
    (s.set q x).afterCall K fastcall = (s.afterCall K fastcall).set q x := by
  have hregs : (fun r => if clobbered fastcall r then K.clobber s.calls r else (s.set q x).regs r)
      = Function.update (fun r => if clobbered fastcall r then K.clobber s.calls r else s.regs r)
          q x := by
    funext r
    by_cases hr : r = q
    · simp [hr, h]
    · simp [hr]
  simp only [State.afterCall, State.set_calls, hregs]
  rfl

/-- `bpf_probe_read_kernel(r1, r2, r3)` and its string variant. The
string variant copies up to `r2 - 1` bytes and a NUL. -/
def Helper.exec (K : Kernel) (fn : Helper) (s : State) : State :=
  let dst := s.regs .R1
  let src := s.regs .R3
  let size := (s.regs .R2).toNat
  match fn with
  | .probeReadKernel =>
    (s.write dst size fun i => K.mem (src + BitVec.ofNat 64 i)).afterCall K false
  | .probeReadKernelStr =>
    let len := strLen K.mem src (size - 1)
    (s.write dst (if size = 0 then 0 else len + 1)
      fun i => if i < len then K.mem (src + BitVec.ofNat 64 i) else 0).afterCall K false

def Op.exec (K : Kernel) (op : Op) (s : State) : State × Next :=
  match op with
  | .alu op dst src => (s.set dst (op.eval (s.regs dst) (src.eval s.regs)), .next)
  | .ldx size dst src off =>
    let m := if src = .RFP then s.stack else K.mem
    (s.set dst (loadLE m (s.regs src + off.signExtend 64) size.bytes), .next)
  | .stx size dst off src =>
    let a := s.regs dst + off.signExtend 64
    let bytes := byteOf (s.regs src)
    (if dst = .RFP then { s with stack := writeBytes s.stack a size.bytes bytes }
      else { s with out := writeBytes s.out a size.bytes bytes }, .next)
  | .ja off => (s, .jump off)
  | .jmp op dst src off => (s, if op.eval (s.regs dst) (src.eval s.regs) then .jump off else .next)
  | .jmpTo op dst src l => (s, if op.eval (s.regs dst) (src.eval s.regs) then .label l else .next)
  | .call fn => (fn.exec K s, .next)
  -- bpf_rdonly_cast, the one kfunc called, returns its first argument
  | .callKfunc _ => ((s.afterCall K K.fastcall).set .R0 (s.regs .R1), .next)
  | .exit => (s, .exit)

/-! ## The machine -/

/-- Run `prog` from `pc` for at most `fuel` instructions; the state at
`exit`, if it is reached. A jump counts from the next instruction, a
label stands for the first instruction that carries it. -/
def run (K : Kernel) (prog : List Insn) : Nat → Nat → State → Option State
  | 0, _, _ => none
  | fuel + 1, pc, s =>
    match prog[pc]? with
    | none => none
    | some i =>
      match i.op.exec K s with
      | (s', .next) => run K prog fuel (pc + 1) s'
      | (s', .jump off) =>
        match (pc + 1 + off.toInt : Int) with
        | .ofNat pc' => run K prog fuel pc' s'
        | .negSucc _ => none
      | (s', .label l) =>
        match prog.findIdx? fun j => j.symbol = some l with
        | some pc' => run K prog fuel pc' s'
        | none => none
      | (s', .exit) => some s'

/-- `prog` started in `s` reaches `exit`, in state `s'`. -/
def Exits (K : Kernel) (prog : List Insn) (s s' : State) : Prop :=
  ∃ fuel, run K prog fuel 0 s = some s'

theorem run_mono {K : Kernel} {prog : List Insn} {n m pc : Nat} {s s' : State}
    (h : run K prog n pc s = some s') (hm : n ≤ m) : run K prog m pc s = some s' := by
  induction n generalizing m pc s with
  | zero => simp [run] at h
  | succ n ih =>
    obtain ⟨m, rfl⟩ : ∃ k, m = k + 1 := ⟨m - 1, by omega⟩
    have hle : n ≤ m := by omega
    unfold run at h ⊢
    split at h
    · simp at h
    · split at h
      · exact ih h hle
      · split at h
        · exact ih h hle
        · simp at h
      · split at h
        · exact ih h hle
        · simp at h
      · exact h

/-- The result of a program does not depend on the fuel. -/
theorem Exits.unique {K : Kernel} {prog : List Insn} {s s₁ s₂ : State}
    (h₁ : Exits K prog s s₁) (h₂ : Exits K prog s s₂) : s₁ = s₂ := by
  obtain ⟨n, hn⟩ := h₁
  obtain ⟨m, hm⟩ := h₂
  have := run_mono hn (Nat.le_max_left n m)
  rw [run_mono hm (Nat.le_max_right n m)] at this
  exact (Option.some.inj this).symm

end Bpfsnoop.Ebpf
