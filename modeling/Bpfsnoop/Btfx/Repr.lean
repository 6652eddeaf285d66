/-
Bpfsnoop.Btfx.Repr — the text of a value of a BTF type (`types.go`).

`reprValue` is `ReprValue`: a scalar by its size and kind, a struct or
union member by member from a 24-byte buffer that holds the two words.
`reprValueSb` is the `reprValue` of Go, which also shows strings and
pointers to numbers; `reprFuncParam` and `reprFuncReturn` call it.

A rendering is a `Run`: the text, or the run-time panic, and the offset
of every 8-byte read `GetU64` made through its unsafe pointer. Such a
read is checked at its first byte only; what lies behind the buffer is
the function `behind`.

Parameters stand for the packages outside: `mybtf.IsBool`,
`mybtf.DumpBitfield`, the `%v` of a BTF type, and the symbol lookup.
-/
import Bpfsnoop.CC.Syntax
import Bpfsnoop.Ebpf.Memory

namespace Bpfsnoop.Btfx

open Ebpf Btf CC

/-! ## Runs -/

/-- The offsets read, and how the rendering ended. -/
structure Run (α : Type) where
  reads : List Nat := []
  result : Except GoError α

namespace Run

variable {α β : Type}

def bind (x : Run α) (f : α → Run β) : Run β :=
  match x.result with
  | .error e => { reads := x.reads, result := .error e }
  | .ok a => { reads := x.reads ++ (f a).reads, result := (f a).result }

instance : Monad Run where
  pure a := { result := .ok a }
  bind := Run.bind

theorem pure_inj {a b : α} (h : (pure a : Run α) = pure b) : a = b := by
  injection h with _ hresult
  injection hresult

def panic (text : String) : Run α := { result := .error (.panic text) }

/-- One after the other, from left to right. -/
def sequence : List (Run α) → Run (List α)
  | [] => pure []
  | x :: xs => do
    let a ← x
    let as ← sequence xs
    pure (a :: as)

end Run

/-! ## What the renderer asks of a type -/

/-- How many bits a member takes. -/
def memberWidth (heap : Heap) (m : Member) : Nat :=
  if m.bitfieldSize = 0 then 8 * sizeofD heap m.type else m.bitfieldSize

/-- The structs and unions of a BTF spec. They contain each other by value
without a cycle, a member that is no bitfield starts at a byte, and every
member lies inside its aggregate. -/
structure Layouts where
  heap : Heap
  members : Nat → List Member
  rank : Nat → Nat
  acyclic : ∀ ref, ∀ m ∈ members ref, ∀ ref', aggregate? m.type = some ref' →
    rank ref' < rank ref
  aligned : ∀ ref, ∀ m ∈ members ref, m.bitfieldSize = 0 → m.offset % 8 = 0
  inside : ∀ ref, ∀ m ∈ members ref, m.offset + memberWidth heap m ≤ 8 * (heap ref).size

/-- The name of a struct or union. -/
def aggregateName (t : BtfType) : String :=
  match underlyingType t with
  | .struct name _ | .union name _ => name
  | _ => ""

def isPointer (t : BtfType) : Bool := (pointerTarget? t).isSome

def isEnum (t : BtfType) : Bool :=
  match underlyingType t with
  | .enum .. => true
  | _ => false

def isInt (t : BtfType) : Bool :=
  match underlyingType t with
  | .int .. => true
  | _ => false

def isSigned (t : BtfType) : Bool :=
  match underlyingType t with
  | .int _ _ encoding => encoding == .signed
  | _ => false

def isFuncPtr (t : BtfType) : Bool :=
  match (pointerTarget? t).map underlyingType with
  | some (.func ..) | some .funcProto => true
  | _ => false

/-! ## Data -/

/-- The bytes of a word in memory. -/
def bytesOf (w : Word) : List Byte := (List.range 8).map (byteOf w)

/-- `SetU64(data[i:], val)`. -/
def setU64 (data : List Byte) (i : Nat) (val : Word) : List Byte :=
  data.take i ++ bytesOf val ++ data.drop (i + 8)

/-- Bit `j` of the data, counted from the low bit of the first byte. -/
def bitAt (data : List Byte) (j : Nat) : Bool := (data[j / 8]?.getD 0).getLsbD (j % 8)

/-- `var data [24]byte` with the two words stored in it. -/
def buffer (val valNext : Word) : List Byte :=
  setU64 (setU64 (List.replicate 24 0) 0 val) 8 valNext

/-! ## Texts -/

/-- `%#x`. -/
def hex (v : Nat) : String := "0x" ++ String.ofList (Nat.toDigits 16 v)

/-- `%#x/%d`. -/
def hexDec (v : Nat) : String := hex v ++ "/" ++ toString v

/-- `ReprEnumValue`. -/
def reprEnumValue (t : BtfType) (val : Word) : String :=
  match underlyingType t with
  | .enum _ _ _ values =>
    match values.find? fun v => v.2 == val with
    | some v => v.1
    | none => toString val.toNat
  | _ => toString val.toNat

/-- `Repr`. A typedef's name replaces the qualifiers before it. -/
def reprLoop (formatted : BtfType → String) (sb : String) : BtfType → Run String
  | .typedef name _ => pure name
  | .volatile t => reprLoop formatted (sb ++ "volatile ") t
  | .const t => reprLoop formatted (sb ++ "const ") t
  | .restrict t => reprLoop formatted (sb ++ "restrict ") t
  | .typeTag value t => reprLoop formatted (sb ++ value ++ " ") t
  | .pointer t => do
    let r ← reprLoop formatted "" t
    match r.toList.getLast? with
    | none => Run.panic "index out of range [-1]"
    | some c => pure (sb ++ r ++ if c ≠ '*' then " *" else "*")
  | .void => pure (sb ++ "void")
  | .int name _ _ => pure (sb ++ name)
  | .enum name _ _ _ => pure (sb ++ "enum " ++ name)
  | .struct name _ => pure (sb ++ "struct " ++ name)
  | .union name _ => pure (sb ++ "union " ++ name)
  | .func name _ => pure (sb ++ "func " ++ name)
  | .funcProto => pure (sb ++ "func")
  | .float _ _ => pure (sb ++ "float")
  | .array t n => do
    let r ← reprLoop formatted "" t
    pure (sb ++ ("array(" ++ r ++ "[" ++ toString n ++ "])"))
  | .fwd name => pure (sb ++ formatted (.fwd name))

def repr (formatted : BtfType → String) (t : BtfType) : Run String := reprLoop formatted "" t

/-! ## Values -/

/-- `find`, `mybtf.IsBool`, `mybtf.DumpBitfield`, the `%v` of a type, and
the memory behind the buffer. -/
structure World where
  find : Word → String
  mybtfIsBool : BtfType → Bool
  dumpBitfield : Nat → Nat → List Byte → String
  formatted : BtfType → String
  behind : Nat → Byte

section Render

variable (L : Layouts) (W : World)

/-- The byte at `i`, also past the end of the data. -/
def byteAt (data : List Byte) (i : Nat) : Byte := data[i]?.getD (W.behind (i - data.length))

/-- The word the 8 bytes from `offset` on make. -/
def wordAt (data : List Byte) (offset : Nat) : Word :=
  loadLE (fun a => byteAt W data (offset + a.toNat)) 0 8

/-- `GetU64`: only `&data[offset]` is checked. -/
def getU64 (data : List Byte) (offset : Nat) : Run Word :=
  if offset < data.length then { reads := [offset], result := .ok (wordAt W data offset) }
  else Run.panic "index out of range"

/-- `IsBool`. -/
def isBool (t : BtfType) : Bool :=
  W.mybtfIsBool t ||
    match underlyingType t with
    | .int name _ _ => name == "_Bool"
    | _ => false

/-- The `switch size` of `ReprValue`. -/
def reprScalar (t : BtfType) (size : Nat) (val : Word) : String :=
  match size with
  | 8 =>
    if isPointer t then
      hex val.toNat ++
        if isFuncPtr t ∧ W.find val ≠ "" then "(" ++ W.find val ++ ")" else ""
    else if isSigned t then toString val.toInt
    else if val.toInt < 0 then hex val.toNat  -- maybe kernel addr
    else hexDec val.toNat
  | 4 =>
    if isEnum t then reprEnumValue t val
    else if isSigned t then toString (val.setWidth 32).toInt
    else hexDec (val.setWidth 32).toNat
  | 2 =>
    if isSigned t then toString (val.setWidth 16).toInt
    else hexDec (val.setWidth 16).toNat
  | 1 =>
    if isSigned t then toString (val.setWidth 8).toInt
    else if isBool W t then (if val ≠ 0 then "true" else "false")
    else hexDec (val.setWidth 8).toNat
  | _ => "..UNK.."

/-- What `reprMember` prints before the value. -/
def memberLabel (m : Member) (showMemberName : Bool) : String :=
  if showMemberName ∧ m.name ≠ "" then m.name ++ "=" else ""

/-- `reprMember`; `value` is `ReprValue` at the member's type. -/
def reprMember (value : Word → Word → Run String) (m : Member) (data : List Byte)
    (showMemberName : Bool) : Run String := do
  if m.bitfieldSize ≠ 0 then
    pure (memberLabel m showMemberName ++ W.dumpBitfield 0 m.bitfieldSize data)
  else
    let val ← getU64 W data (m.offset / 8)
    let valNext ← getU64 W data (m.offset / 8 + 8)
    let text ← value val valNext
    pure (memberLabel m showMemberName ++ text)

/-- `reprStructUnionMembers`; `render` is `reprMember` on the data. -/
def reprStructUnionMembers {α : Type} (name : String) (members : List α)
    (render : α → Run String) : Run String := do
  let texts ← Run.sequence (members.map render)
  pure (name ++ "\x7b" ++ ",".intercalate texts ++ "\x7d")

/-- How deep aggregates nest in a type. -/
def depth (t : BtfType) : Nat :=
  match aggregate? t with
  | some ref => L.rank ref + 1
  | none => 0

theorem depth_member {ref : Nat} {t : BtfType} (ht : aggregate? t = some ref) {m : Member}
    (hm : m ∈ L.members ref) : depth L m.type < depth L t := by
  simp only [depth, ht]
  split
  · rename_i ref' heq
    have := L.acyclic ref m hm ref' heq
    omega
  · omega

/-- `ReprValue`. The type switch on structs and unions comes first; only
there is the second word looked at. -/
def reprValue (t : BtfType) (val valNext : Word) : Run String :=
  match sizeof L.heap t with
  | none => pure "..ERR.."
  | some size =>
    match _ht : aggregate? t with
    | some ref =>
      reprStructUnionMembers (aggregateName t) (L.members ref).attach fun m =>
        reprMember W (reprValue m.1.type) m.1 (buffer val valNext) true
    | none => pure (reprScalar W (underlyingType t) size val)
termination_by depth L t
decreasing_by exact depth_member L _ht m.2

/-- `reprValue` of Go. -/
def reprValueSb (t : BtfType) (isStr isNumberPtr : Bool) (data data2 dataNext : Word)
    (s : String) : Run String :=
  if isStr then pure ("\"" ++ s ++ "\"")
  else if isNumberPtr then
    if data ≠ 0 then
      match pointerTarget? t with
      | none => Run.panic "interface conversion"
      | some target => do
        let text ← reprValue L W target data2 dataNext
        pure (hex data.toNat ++ "(" ++ text ++ ")")
    else pure (hex data.toNat)
  else reprValue L W t data dataNext

/-- `ReprValueType`. -/
def reprValueType (name : String) (t : BtfType) (isStr isNumberPtr : Bool)
    (data data2 dataNext : Word) (s : String) : Run String := do
  let type ← repr W.formatted t
  let text ← reprValueSb L W t isStr isNumberPtr data data2 dataNext s
  pure ("(" ++ type ++ ")" ++ name ++ "=" ++ text)

/-- `ReprFuncParam`. -/
def reprFuncParam (param : FuncParam) (isStr isNumberPtr : Bool) (data data2 dataNext : Word)
    (s : String) : Run String :=
  reprValueType L W param.name param.type isStr isNumberPtr data data2 dataNext s

/-- `ReprFuncReturn`. -/
def reprFuncReturn (typ : BtfType) (isStr isNumberPtr : Bool) (data data2 : Word)
    (s : String) : Run String :=
  if isVoid typ then pure "(void)"
  else if isStr then pure ("\"" ++ s ++ "\"")
  else do
    let type ← repr W.formatted (underlyingType typ)
    let text ← reprValueSb L W (underlyingType typ) false isNumberPtr data data2 0 s
    pure ("(" ++ type ++ ")" ++ text)

/-! ## Small lemmas -/

@[simp] theorem isEnum_underlyingType (t : BtfType) : isEnum (underlyingType t) = isEnum t := by
  simp [isEnum]

@[simp] theorem isInt_underlyingType (t : BtfType) : isInt (underlyingType t) = isInt t := by
  simp [isInt]

@[simp] theorem isSigned_underlyingType (t : BtfType) :
    isSigned (underlyingType t) = isSigned t := by
  simp [isSigned]

@[simp] theorem aggregate?_underlyingType (t : BtfType) :
    aggregate? (underlyingType t) = aggregate? t := by
  simp [aggregate?]

/-- A scalar is rendered by the switch on its size. -/
theorem reprValue_scalar {t : BtfType} {size : Nat} (ht : aggregate? t = none)
    (hs : sizeof L.heap t = some size) (val valNext : Word) :
    reprValue L W t val valNext = pure (reprScalar W (underlyingType t) size val) := by
  rw [reprValue, hs]
  simp only
  split
  · rename_i ref h
    rw [ht] at h
    cases h
  · rfl

theorem sizeof_of_aggregate {heap : Heap} {t : BtfType} {ref : Nat}
    (ht : aggregate? t = some ref) : sizeof heap t = some (heap ref).size := by
  rw [← sizeof_underlyingType]
  unfold aggregate? at ht
  split at ht
  case h_1 heq => rw [heq]; cases ht; rfl
  case h_2 heq => rw [heq]; cases ht; rfl
  case h_3 => cases ht

/-- A struct or union is rendered member by member. -/
theorem reprValue_aggregate {t : BtfType} {ref : Nat} (ht : aggregate? t = some ref)
    (val valNext : Word) :
    reprValue L W t val valNext
      = reprStructUnionMembers (aggregateName t) (L.members ref) fun m =>
          reprMember W (reprValue L W m.type) m (buffer val valNext) true := by
  rw [reprValue, sizeof_of_aggregate ht]
  simp only
  split
  · rename_i ref' h
    rw [ht] at h
    cases h
    rw [reprStructUnionMembers, reprStructUnionMembers, @List.attach_map_val _ _ (L.members ref)
      fun m => reprMember W (reprValue L W m.type) m (buffer val valNext) true]
  · rename_i h
    rw [ht] at h
    cases h

theorem reprValue_underlyingType (t : BtfType) (val valNext : Word) :
    reprValue L W (underlyingType t) val valNext = reprValue L W t val valNext := by
  cases hagg : aggregate? t with
  | some ref =>
    have hagg' : aggregate? (underlyingType t) = some ref := by simpa using hagg
    rw [reprValue_aggregate L W hagg', reprValue_aggregate L W hagg]
    simp [aggregateName]
  | none =>
    have hagg' : aggregate? (underlyingType t) = none := by simpa using hagg
    cases hs : sizeof L.heap t with
    | none => rw [reprValue, reprValue, sizeof_underlyingType, hs]
    | some size =>
      rw [reprValue_scalar L W hagg' (by simpa using hs), reprValue_scalar L W hagg hs,
        underlyingType_idem]

end Render

end Bpfsnoop.Btfx
