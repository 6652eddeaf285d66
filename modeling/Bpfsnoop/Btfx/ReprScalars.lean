/-
Bpfsnoop.Btfx.ReprScalars — numbers are rendered from the bits of their type.

A calling convention leaves the bits of a register above an argument
undefined. Two registers that agree on the low bits (`SameLow`) show the
same integer: the branches of `reprScalar` cut the register to the size,
but for two. `ReprEnumValue` compares and prints the whole register of a
4-byte enum, and an unsigned `bool` is true when any bit of the register
is set. **`ignoresUpper_iff`**: these two are all that go wrong, for
`reprValue` and through it for parameters and return values. The constants
of a 4-byte enum have to be 32-bit values (`Constant32`), as BTF has them.
-/
import Bpfsnoop.Btfx.Repr
import Bpfsnoop.Trace.FuncArgs

namespace Bpfsnoop.Btfx

open Ebpf Btf CC

/-- Two words with the same low `size` bytes. -/
def SameLow (size : Nat) (val val' : Word) : Prop :=
  ∀ j, j < 8 * size → val.getLsbD j = val'.getLsbD j

theorem SameLow.setWidth {size : Nat} {val val' : Word} (h : SameLow size val val') :
    val.setWidth (8 * size) = val'.setWidth (8 * size) := by
  apply BitVec.eq_of_getLsbD_eq
  intro j hj
  rw [BitVec.getLsbD_setWidth, BitVec.getLsbD_setWidth, h j hj]

theorem SameLow.eq {size : Nat} {val val' : Word} (h : SameLow size val val')
    (hs : 8 ≤ size) : val = val' := by
  apply BitVec.eq_of_getLsbD_eq
  intro j hj
  exact h j (by omega)

/-- A 32-bit value, zero- or sign-extended. -/
def Constant32 (v : Word) : Prop := v.toNat < 2 ^ 32 ∨ 2 ^ 64 - 2 ^ 31 ≤ v.toNat

/-- The constants of a 4-byte enum are 32-bit values. -/
def EnumFits (t : BtfType) : Prop :=
  ∀ name signed values, underlyingType t = .enum name 4 signed values →
    ∀ v ∈ values, Constant32 v.2

section Scalars

variable (W : World)

/-- The kinds of numbers shown from the whole word. -/
def ShowsWholeWord (t : BtfType) (size : Nat) : Prop :=
  (size = 4 ∧ isEnum t = true) ∨ (size = 1 ∧ isSigned t = false ∧ isBool W t = true)

/-- All other kinds are shown from their own bits. -/
theorem reprScalar_congr {t : BtfType} {size : Nat} {val val' : Word}
    (ht : ¬ ShowsWholeWord W t size) (h : SameLow size val val') :
    reprScalar W t size val = reprScalar W t size val' := by
  unfold reprScalar
  split
  · rw [h.eq (by omega)]
  · have henum : isEnum t = false := by
      by_contra hne
      exact ht (.inl ⟨rfl, by simpa using hne⟩)
    have hcut : val.setWidth 32 = val'.setWidth 32 := h.setWidth
    simp [henum, hcut]
  · have hcut : val.setWidth 16 = val'.setWidth 16 := h.setWidth
    rw [hcut]
  · have hcut : val.setWidth 8 = val'.setWidth 8 := h.setWidth
    by_cases hs : isSigned t = true
    · simp [hs, hcut]
    · have hbool : isBool W t = false := by
        by_contra hne
        exact ht (.inr ⟨rfl, by simpa using hs, by simpa using hne⟩)
      simp [hs, hbool, hcut]
  · rfl

/-- A word no constant has is printed. -/
theorem reprEnumValue_of_not_constant {t : BtfType} {size : Nat} {val : Word}
    (hs : ∃ name signed values, underlyingType t = .enum name size signed values ∧
      ∀ v ∈ values, v.2 ≠ val) :
    reprEnumValue t val = toString val.toNat := by
  obtain ⟨name, signed, values, ht, hval⟩ := hs
  have hnone : values.find? (fun v => v.2 == val) = none := by
    rw [List.find?_eq_none]
    intro v hv
    simpa using hval v hv
  rw [reprEnumValue, ht]
  simp only
  rw [hnone]

theorem enum_of_size {heap : Heap} {t : BtfType} {size : Nat} (ht : isEnum t = true)
    (hs : sizeof heap t = some size) :
    ∃ name signed values, underlyingType t = .enum name size signed values := by
  rw [← sizeof_underlyingType] at hs
  unfold isEnum at ht
  split at ht
  · rename_i name size' signed values heq
    rw [heq] at hs
    cases hs
    exact ⟨name, signed, values, heq⟩
  · cases ht

/-- A 4-byte enum shows bits above its own. -/
theorem reprScalar_enum_ne {heap : Heap} {t : BtfType} (ht : isEnum t = true)
    (hs : sizeof heap t = some 4) (hfits : EnumFits t) :
    reprScalar W t 4 (BitVec.twoPow 64 32) ≠ reprScalar W t 4 (BitVec.twoPow 64 33) := by
  obtain ⟨name, signed, values, heq⟩ := enum_of_size ht hs
  have hshown : ∀ val : Word, ¬ Constant32 val →
      reprScalar W t 4 val = toString val.toNat := by
    intro val hval
    have hconst : ∀ v ∈ values, v.2 ≠ val := by
      intro v hv hne
      exact hval (hne ▸ hfits name signed values heq v hv)
    simp only [reprScalar, ht, if_true]
    exact reprEnumValue_of_not_constant ⟨name, signed, values, heq, hconst⟩
  rw [hshown _ (by simp [Constant32]), hshown _ (by simp [Constant32])]
  decide

/-- A `bool` shows any bit set. -/
theorem reprScalar_bool_ne {t : BtfType} {val : Word} (hs : isSigned t = false)
    (ht : isBool W t = true) (hval : val ≠ 0#64) :
    reprScalar W t 1 0 ≠ reprScalar W t 1 val := by
  simp [reprScalar, hs, ht, hval]

/-- What is shown from the whole word differs on two words with the same
low bits. -/
theorem exists_sameLow_ne {heap : Heap} {t : BtfType} {size : Nat}
    (hs : sizeof heap t = some size) (hfits : EnumFits t) (ht : ShowsWholeWord W t size) :
    ∃ val val', SameLow size val val' ∧ reprScalar W t size val ≠ reprScalar W t size val' := by
  rcases ht with ⟨rfl, henum⟩ | ⟨rfl, hsigned, hbool⟩
  · have hlow : SameLow 4 (BitVec.twoPow 64 32) (BitVec.twoPow 64 33) := by
      intro j hj
      simp only [BitVec.getLsbD_twoPow]
      grind
    exact ⟨_, _, hlow, reprScalar_enum_ne W henum hs hfits⟩
  · have hlow : SameLow 1 0 (BitVec.twoPow 64 8) := by
      intro j hj
      simp only [BitVec.getLsbD_twoPow]
      grind
    exact ⟨_, _, hlow, reprScalar_bool_ne W hsigned hbool (by decide)⟩

end Scalars

/-! ## Parameters and return values -/

section Numbers

variable (L : Layouts) (W : World)

theorem aggregate?_number {t : BtfType} (h : isInt t = true ∨ isEnum t = true) :
    aggregate? t = none := by
  unfold aggregate?
  split <;> simp_all [isInt, isEnum]

theorem isNumberPointer_number {t : BtfType} (h : isInt t = true ∨ isEnum t = true) :
    Trace.isNumberPointer t = false := by
  have hptr : pointerTarget? t = none := by
    unfold pointerTarget?
    split <;> simp_all [isInt, isEnum]
  simp [Trace.isNumberPointer, hptr]

/-- Registers that agree on the low bits of a type are shown alike, as a
value, as a parameter and as a return value. The flags are those
`getFuncParams` gives; a number may count as a string. -/
structure IgnoresUpper (t : BtfType) (size : Nat) : Prop where
  value : ∀ val val' valNext, SameLow size val val' →
    reprValue L W t val valNext = reprValue L W t val' valNext
  param : ∀ name isStr val val' data2 dataNext s, SameLow size val val' →
    reprFuncParam L W { name, type := t } isStr (Trace.isNumberPointer t) val data2 dataNext s
      = reprFuncParam L W { name, type := t } isStr (Trace.isNumberPointer t) val' data2 dataNext s
  ret : ∀ isStr val val' data2 s, SameLow size val val' →
    reprFuncReturn L W t isStr (Trace.isNumberPointer t) val data2 s
      = reprFuncReturn L W t isStr (Trace.isNumberPointer t) val' data2 s

variable {L W}

/-- Parameters and return values are rendered as the value is. -/
theorem ignoresUpper_of_value {t : BtfType} {size : Nat} (hnum : isInt t = true ∨ isEnum t = true)
    (h : ∀ val val' valNext, SameLow size val val' →
      reprValue L W t val valNext = reprValue L W t val' valNext) :
    IgnoresUpper L W t size where
  value := h
  param := by
    intro name isStr val val' data2 dataNext s hlow
    simp only [reprFuncParam, reprValueType, reprValueSb, isNumberPointer_number hnum,
      Bool.false_eq_true, if_false, h val val' dataNext hlow]
  ret := by
    intro isStr val val' data2 s hlow
    simp only [reprFuncReturn, reprValueSb, isNumberPointer_number hnum, Bool.false_eq_true,
      if_false, reprValue_underlyingType, h val val' 0 hlow]

theorem showsWholeWord_underlyingType {t : BtfType} {size : Nat} :
    ShowsWholeWord W (underlyingType t) size ↔
      (size = 4 ∧ isEnum t = true) ∨
        (size = 1 ∧ isSigned t = false ∧ isBool W (underlyingType t) = true) := by
  simp [ShowsWholeWord]

/-- **When the upper bits of a register show.** A number of any size, so
also of 1, 2 or 4 bytes, is rendered from its own bits exactly when it is neither a 4-byte
enum nor an unsigned 1-byte `bool`. -/
theorem ignoresUpper_iff {t : BtfType} {size : Nat} (hnum : isInt t = true ∨ isEnum t = true)
    (hs : sizeof L.heap t = some size)
    (hfits : EnumFits t) :
    IgnoresUpper L W t size ↔
      ¬ (size = 4 ∧ isEnum t = true) ∧
      ¬ (size = 1 ∧ isSigned t = false ∧ isBool W (underlyingType t) = true) := by
  have hscalar := reprValue_scalar L W (aggregate?_number hnum) hs
  have hs' : sizeof L.heap (underlyingType t) = some size := by simpa using hs
  have hfits' : EnumFits (underlyingType t) := by simpa [EnumFits] using hfits
  rw [← not_or, ← showsWholeWord_underlyingType]
  constructor
  · intro h hwhole
    obtain ⟨val, val', hlow, hne⟩ := exists_sameLow_ne W hs' hfits' hwhole
    have hsame := h.value val val' 0 hlow
    rw [hscalar, hscalar] at hsame
    exact hne (Run.pure_inj hsame)
  · intro hwhole
    apply ignoresUpper_of_value hnum
    intro val val' valNext hlow
    rw [hscalar, hscalar, reprScalar_congr W hwhole hlow]

end Numbers

/-! ## Runs on fixed inputs -/

/-- A BTF spec without structs. -/
def noLayouts : Layouts where
  heap _ := { size := 0, findMember := fun _ => none }
  members _ := []
  rank _ := 0
  acyclic := by simp
  aligned := by simp
  inside := by simp

/-- Bitfields in binary, no symbols, zeroes behind the buffer. -/
def plainWorld : World where
  find _ := ""
  mybtfIsBool t := underlyingType t matches .int _ _ .bool
  dumpBitfield off size data :=
    String.ofList ((List.range size).map fun i => if bitAt data (off + i) then '1' else '0')
  formatted _ := ""
  behind _ := 0

/-- `typedef unsigned short u16`. -/
def u16 : BtfType :=
  let name := "u16"
  .typedef name (.int "unsigned short" 2 .unsigned)

/-- The two bytes of a `u16` are all that shows. -/
theorem u16_ignoresUpper :
    (isInt u16 = true ∧ sizeof noLayouts.heap u16 = some 2) ∧
      IgnoresUpper noLayouts plainWorld u16 2 :=
  ⟨⟨rfl, rfl⟩, (ignoresUpper_iff (.inl rfl) rfl
    (by intro name signed values h; cases h)).mpr ⟨by decide, by decide⟩⟩

/-- `enum colour { RED = 1 }`. -/
def colour : BtfType := .enum "colour" 4 false [("RED", 1)]

/-- A bit above the enum, and the constant is no longer found. -/
theorem colour_lost :
    SameLow 4 1 0x100000001 ∧
      (reprValue noLayouts plainWorld colour 1 0).result = .ok "RED" ∧
      (reprValue noLayouts plainWorld colour 0x100000001 0).result = .ok "4294967297" ∧
      ¬ IgnoresUpper noLayouts plainWorld colour 4 := by
  have hlow : SameLow 4 1 0x100000001 := by
    unfold SameLow
    decide
  have hred : (reprValue noLayouts plainWorld colour 1 0).result = .ok "RED" := by
    rw [reprValue_scalar noLayouts plainWorld rfl rfl]
    rfl
  have hlost : (reprValue noLayouts plainWorld colour 0x100000001 0).result
      = .ok "4294967297" := by
    rw [reprValue_scalar noLayouts plainWorld rfl rfl]
    exact congrArg Except.ok (by decide)
  refine ⟨hlow, hred, hlost, fun h => ?_⟩
  have hsame := h.value 1 0x100000001 0 hlow
  rw [hsame, hlost] at hred
  exact absurd (Except.ok.inj hred) (by decide)

end Bpfsnoop.Btfx
