/-
Bpfsnoop.CC.CondValues — what the conditional operator returns.

With a constant for a condition, `cond` returns the selected arm. With a
register, it moves the selected arm into it and returns the condition, and
so the type of the condition: the result stands for the selected arm if and
only if each arm has that type or is a constant that fits it.
-/
import Bpfsnoop.CC.NarrowValues

namespace Bpfsnoop.CC

open Ebpf Btf Reg

/-! ## What the result should be -/

/-- The type of a result in a register describes the arm: it is the arm's,
with its bitfield member, or one that does not cut the constant. -/
def Describes (heap : Heap) (v arm : EvalValue) : Prop :=
  v.typ = .regBtf →
    if arm.typ = .num then adjustNum heap arm.num v = arm.num
    else v.btf = arm.btf ∧ v.mem = arm.mem

section Cond

variable {heap : Heap} {c a b arm v : EvalValue} {g g' : Gen}

/-! ## The code -/

end Cond

/-! ### The type of the condition

`flag ? 300 : 400` with a `u8` for the flag is 300 or 400 of type `u8`. -/

end Bpfsnoop.CC
