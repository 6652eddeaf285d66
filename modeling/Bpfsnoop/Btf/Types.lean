/-
Bpfsnoop.Btf.Types — BTF types, and what the generators ask of them.

Types are trees; the cycles of real type graphs go through structs and
unions, which are references into a `Heap` (the Go code follows pointers
there). The functions are those of the BTF packages the code imports:
`btf.Sizeof`, `mybtf.UnderlyingType`, the member lookups, type lookups
by name and by identity. The member lookup of an aggregate gives the
member and its byte offset, anonymous members looked through.
-/
import Bpfsnoop.Ebpf.Insn

namespace Bpfsnoop.Btf

open Ebpf (Word)

inductive IntEncoding where
  | unsigned | signed | char | bool
  deriving DecidableEq, Repr

/-- `btf.Type`. -/
inductive BtfType where
  | void
  | int (name : String) (size : Nat) (encoding : IntEncoding)
  | pointer (target : BtfType)
  | array (type : BtfType) (nelems : Nat)
  | struct (name : String) (ref : Nat)
  | union (name : String) (ref : Nat)
  | enum (name : String) (size : Nat) (signed : Bool) (values : List (String × Word))
  | fwd (name : String)
  | typedef (name : String) (type : BtfType)
  | volatile (type : BtfType)
  | const (type : BtfType)
  | restrict (type : BtfType)
  | typeTag (value : String) (type : BtfType)
  | func (name : String) (tags : List String)
  | funcProto
  | float (name : String) (size : Nat)
  deriving DecidableEq, Repr

/-- `btf.Member`: `offset` and `bitfieldSize` count bits, and
`bitfieldSize` is 0 for a member that is not a bitfield. -/
structure Member where
  name : String
  type : BtfType
  offset : Nat
  bitfieldSize : Nat
  deriving DecidableEq, Repr

/-- A struct or union: its size, and the lookup of a member and its byte
offset (`FindStructMember` with `StructMemberOffset`, and the same pair
for unions). -/
structure Aggregate where
  size : Nat
  findMember : String → Option (Member × Nat)

abbrev Heap := Nat → Aggregate

/-- Why a lookup by name fails. -/
inductive LookupError where
  | notFound
  | other (text : String)
  deriving DecidableEq, Repr

/-- `btf.Spec`, as far as the compiler asks. -/
structure Spec where
  anyTypeByName : String → Except LookupError BtfType
  typeID : BtfType → Option Nat
  all : List BtfType

/-- `btf.FuncParam`. -/
structure FuncParam where
  name : String
  type : BtfType
  deriving DecidableEq, Repr

/-! ## Looking through a type -/

/-- `mybtf.UnderlyingType`: typedefs, qualifiers and type tags stripped. -/
def underlyingType : BtfType → BtfType
  | .typedef _ t | .volatile t | .const t | .restrict t | .typeTag _ t => underlyingType t
  | t => t

/-- `btf.Sizeof`, in bytes; `none` where it fails. -/
def sizeof (heap : Heap) : BtfType → Option Nat
  | .void => some 0
  | .int _ size _ => some size
  | .pointer _ => some 8
  | .array t n =>
    match sizeof heap t with
    | some s => if n * s < 2 ^ 63 then some (n * s) else none
    | none => none
  | .struct _ ref => some (heap ref).size
  | .union _ ref => some (heap ref).size
  | .enum _ size _ _ => some size
  | .float _ size => some size
  | .typedef _ t | .volatile t | .const t | .restrict t | .typeTag _ t => sizeof heap t
  | .fwd _ | .func _ _ | .funcProto => none

/-- `size, _ := btf.Sizeof(t)`: 0 when it fails. -/
def sizeofD (heap : Heap) (t : BtfType) : Nat := (sizeof heap t).getD 0

@[simp] theorem sizeof_underlyingType (heap : Heap) (t : BtfType) :
    sizeof heap (underlyingType t) = sizeof heap t := by
  induction t <;> simp_all [underlyingType, sizeof]

@[simp] theorem underlyingType_idem (t : BtfType) :
    underlyingType (underlyingType t) = underlyingType t := by
  induction t <;> simp_all [underlyingType]

/-- `t.(*btf.Pointer)` on the underlying type: what it points to. -/
def pointerTarget? (t : BtfType) : Option BtfType :=
  match underlyingType t with
  | .pointer target => some target
  | _ => none

/-- `t.(*btf.Array)` on the underlying type: what it holds. -/
def arrayElem? (t : BtfType) : Option BtfType :=
  match underlyingType t with
  | .array type _ => some type
  | _ => none

/-- The struct or union a type is, as a reference. -/
def aggregate? (t : BtfType) : Option Nat :=
  match underlyingType t with
  | .struct _ ref | .union _ ref => some ref
  | _ => none

def isVoid (t : BtfType) : Bool := underlyingType t == .void

theorem arrayElem_of_pointerTarget {t e : BtfType} (h : pointerTarget? t = some e) :
    arrayElem? t = none := by
  unfold pointerTarget? at h
  split at h
  · rename_i heq
    simp [arrayElem?, heq]
  · simp at h

end Bpfsnoop.Btf
