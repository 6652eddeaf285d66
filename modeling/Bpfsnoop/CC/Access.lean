/-
Bpfsnoop.CC.Access — the steps of `accessMemory`, and `access`.

`accessMemory` walks an access expression and collects a chain of offsets.
What it does with the result of its operand, for each kind of node, is a
function of that result here (`accessMember`, `accessAdd`, …); the
recursion itself is in `Bpfsnoop.CC.Eval`, because `&` and `|` inside an
access expression go back to `eval`.
-/
import Bpfsnoop.CC.Operators

namespace Bpfsnoop.CC

open Ebpf Btf Reg

/-- `accessResult`. `idx` is `none` for a computed value, whose register
is `reg`. The zero record has `lastIdx` 0 and no offsets. -/
structure AccessResult where
  idx : Option Nat := some 0
  btf : BtfType := .void
  mem : Option Member := none
  lastIdx : Int := 0
  offsets : List AccessOffset := []
  uptr : Word := 0
  reg : Reg := R0
  deriving DecidableEq, Repr

namespace AccessResult

/-- `addOffset`. -/
def addOffset (r : AccessResult) (offset : AccessOffset) : AccessResult :=
  { r with lastIdx := r.offsets.length, offsets := r.offsets ++ [offset] }

/-- `prevBtf`: the `prev` of the last offset, an index into the slice. -/
def prevBtf (r : AccessResult) : Except GoError (Option BtfType) :=
  if 0 ≤ r.lastIdx then
    match r.offsets[r.lastIdx.toNat]? with
    | some o => .ok o.prev
    | none => .error (.panic "index out of range")
  else .ok none

/-- An assignment to fields of `r.offsets[r.lastIdx]`. -/
def modifyLast (r : AccessResult) (f : AccessOffset → AccessOffset) : AccessResult :=
  { r with offsets := r.offsets.modify r.lastIdx.toNat f }

end AccessResult

/-! ## Types of casts -/

/-- A lookup by name in a spec. -/
def lookupType (spec : Spec) (typeName : String) : Except GoError BtfType :=
  match spec.anyTypeByName typeName with
  | .ok t => .ok t
  | .error e => .error (.wrapf "failed to find type '%s': %w" [.text typeName] (.lookup e))

/-- `findType`: the kernel's spec first. -/
def findType (c : Compiler) (name : String) : Except GoError BtfType :=
  match c.krnlSpec.anyTypeByName name with
  | .ok t => .ok t
  | .error _ => lookupType c.btfSpec name

/-- The name under which `cc2btf` looks up a type that is no struct. -/
def btfName (typeName : String) : String :=
  if typeName = "uchar" then "unsigned char"
  else if typeName = "short" then "s16"
  else if typeName = "ushort" then "u16"
  else if typeName = "long" ∨ typeName = "longlong" then "s64"
  else if typeName = "ulonglong" then "u64"
  else typeName

/-- `cc2btf`, below the pointer if there is one. -/
def cc2btfBase (c : Compiler) (ccType : CType) : Except GoError BtfType :=
  match ccType with
  | .struct tag => do
    let typ ← findType c tag
    match underlyingType typ with
    | .struct .. | .union .. => return typ
    | t => .error (.errorf "expected struct/union type for cast, got %T" [.type t])
  | _ =>
    if ccType.string = "void" then .ok .void
    else lookupType c.krnlSpec (btfName ccType.string)

/-- `cc2btf`. -/
def cc2btf (c : Compiler) (ccType : CType) : Except GoError BtfType :=
  match ccType with
  | .ptr base => (cc2btfBase c base).map .pointer
  | _ => cc2btfBase c ccType

/-! ## Steps of `accessMemory` -/

/-- `cc.Name`. -/
def accessName (c : Compiler) (text : String) : Except GoError AccessResult :=
  match c.vars.idxOf? text with
  | none => .error (.wrapf "variable %s: %w" [.text text] .varNotFound)
  | some idx =>
    .ok { idx := some idx, btf := c.btfs.getD idx .void, lastIdx := -1 }

/-- `cc.And`, `cc.Or`: a computed value. A register value always has a
type. -/
def accessComputed (val : EvalValue) : Except GoError AccessResult :=
  if val.typ ≠ .regBtf then
    .error (.errorf "bitwise operation result must be a register value" [])
  else .ok { idx := none, btf := val.btf.getD .void, lastIdx := -1, reg := val.reg }

/-- The member an access names, and its byte offset. -/
def findMember (heap : Heap) (t : BtfType) (text : String) : Except GoError (Member × Nat) :=
  match aggregate? t with
  | none => .error (.errorf "unsupported type %T" [.type (underlyingType t)])
  | some ref =>
    match (heap ref).findMember text with
    | some m => .ok m
    | none => .error (.errorf "failed to find member %s: %w" [.text text])

/-- `cc.Dot`, `cc.Arrow`: the type of the operand decides, not the
operator. -/
def accessMember (heap : Heap) (leftText text : String) (res : AccessResult) :
    Except GoError AccessResult := do
  if isMemberBitfield res.mem then
    throw (.errorf "cannot access member of a bitfield type" [])
  let ptr := pointerTarget? res.btf
  let (member, offset) ← findMember heap (ptr.getD res.btf) text
  let res ←
    match ptr with
    | none =>
      if res.offsets = [] then
        throw (.errorf "disallow accessing member %s of %s via dot" [.text text, .text leftText])
      else
        pure (res.modifyLast fun o =>
          { o with offset := o.offset + BitVec.ofNat 64 offset, btf := member.type })
    | some _ =>
      pure (res.addOffset
        { offset := BitVec.ofNat 64 offset, btf := member.type, prev := some res.btf, address := false })
  match arrayElem? member.type with
  | some _ =>
    return { res.modifyLast fun o => { o with address := true } with btf := member.type, mem := none }
  | none => return { res with btf := member.type, mem := some member }

/-- The size of `btf.Sizeof`, or the error of `add` and `sub`. -/
def sizeofOr (heap : Heap) (t : BtfType) (what : String) : Except GoError Word :=
  match sizeof heap t with
  | some size => .ok (BitVec.ofNat 64 size)
  | none => .error (.errorf ("disallow type %v for " ++ what) [.type t])

/-- The address step of `+ n` and `- n`: `num` is the signed count. -/
def accessShift (heap : Heap) (what kind : String) (num : Word) (res : AccessResult) :
    Except GoError AccessResult := do
  match pointerTarget? res.btf, arrayElem? res.btf with
  | some target, _ =>
    let size ← if isVoid target then .ok 1 else sizeofOr heap target what
    let prev ← res.prevBtf
    return { res.addOffset { offset := size * num, address := true, btf := res.btf, prev }
      with mem := none }
  | none, some type =>
    let size ← sizeofOr heap type what
    let prev ← res.prevBtf
    return { res.addOffset { offset := size * num, address := true, btf := .pointer type, prev }
      with mem := none }
  | none, none => throw (.errorf ("disallow using non-\x7bpointer,array\x7d for " ++ kind) [])

/-- `cc.Add`. -/
def accessAdd (heap : Heap) (num : Word) (res : AccessResult) : Except GoError AccessResult := do
  if isMemberBitfield res.mem then
    throw (.errorf "disallow using bitfield for add" [])
  if num = 0 then
    return res
  accessShift heap "adding" "add" num res

/-- `cc.Sub`. -/
def accessSub (heap : Heap) (num : Word) (res : AccessResult) : Except GoError AccessResult := do
  if isMemberBitfield res.mem then
    throw (.errorf "disallow using bitfield for sub" [])
  accessShift heap "subing" "sub" (-num) res

/-- `cc.Addr`. -/
def accessAddr (leftText : String) (res : AccessResult) : Except GoError AccessResult :=
  if res.offsets = [] then
    .error (.errorf "disallow address '%s'" [.text leftText])
  else
    let btf := BtfType.pointer res.btf
    .ok { res.modifyLast fun o => { o with address := true, btf := btf } with btf := btf, mem := none }

/-- `cc.Cast`, on the result of its operand. -/
def accessCast (c : Compiler) (type : CType) (res : AccessResult) : Except GoError AccessResult :=
  match cc2btf c type with
  | .error e => .error (.wrapf "failed to cast type %s: %w" [.text type.string] e)
  | .ok btf =>
    if res.offsets = [] then .ok { res with btf := btf, mem := none }
    else .ok { res.modifyLast fun o => { o with btf := btf } with btf := btf, mem := none }

/-- `cc.Index`; `right` is the index expression. -/
def accessIndex (heap : Heap) (right : Expr) (res : AccessResult) :
    Except GoError AccessResult := do
  if isMemberBitfield res.mem then
    throw (.errorf "disallow using bitfield for index" [])
  match right with
  | .number text =>
    let index ← match parseNumber text with
      | .ok n => pure n
      | .error e => throw (.wrapf "failed to parse number: %w" [] e)
    match pointerTarget? res.btf, arrayElem? res.btf with
    | some target, _ =>
      let size := sizeofD heap target
      if size = 0 then
        throw (.errorf "disallow indexing pointer of type %v" [.type (underlyingType res.btf)])
      let prev ← res.prevBtf
      return { res.addOffset
        { offset := index * BitVec.ofNat 64 size, btf := target, prev, address := false }
        with btf := target, mem := none }
    | none, some type =>
      let size := sizeofD heap type
      if size = 0 then
        throw (.errorf "disallow indexing array of type %v" [.type (underlyingType res.btf)])
      let prev ← res.prevBtf
      return { res.addOffset
        { offset := index * BitVec.ofNat 64 size, btf := type, prev, address := false, inArray := true }
        with btf := type, mem := none }
    | none, none => throw (.errorf "disallow indexing type %v" [.type (underlyingType res.btf)])
  | _ => throw (.errorf "op of index expected number type, got %s" [.text right.op])

/-- `cc.Indir`. -/
def accessIndir (res : AccessResult) : Except GoError AccessResult := do
  if isMemberBitfield res.mem then
    throw (.errorf "disallow indirecting bitfield" [])
  match pointerTarget? res.btf with
  | none => throw (.errorf "disallow indirecting type %v" [.type (underlyingType res.btf)])
  | some target =>
    return { res.addOffset { offset := 0, btf := target, prev := some res.btf, address := false }
      with btf := target, mem := none }

/-! ## `access` -/

/-- What `access` does behind `accessMemory`: the base in a register,
the chain, the adjustment to the width of the result. -/
def access (c : Compiler) (res : AccessResult) : CodeM EvalValue := do
  let reg ←
    match res.idx with
    | some idx => do
      let reg ← wrapping "failed to alloc register for memory access" alloc
      if res.uptr = 0 then
        emitLoadArg idx reg
      else
        emit [Asm.movImm reg res.uptr]
      pure reg
    | none => pure res.reg
  wrapping "failed to convert offsets to instructions" (offset2insns c res.offsets reg)
  match res.mem with
  | some m =>
    if isMemberBitfield res.mem then
      emit ((bitfield2insns m reg).map (↑))
    else
      emit ((adjustRegisterBitwise c.heap res.btf reg).map (↑))
  | none => emit ((adjustRegisterBitwise c.heap res.btf reg).map (↑))
  return { typ := .regBtf, reg := reg, btf := some res.btf, mem := res.mem }

/-! ## The base of an access

No step but the first reads or changes the base: the parameter or the
register where the chain starts. -/

/-- A result with another base. -/
def AccessResult.withBase (res : AccessResult) (idx : Option Nat) (reg : Reg) : AccessResult :=
  { res with idx := idx, reg := reg }

/-- A step of `accessMemory` neither reads nor changes the base. -/
def KeepsBase (f : AccessResult → Except GoError AccessResult) : Prop :=
  ∀ res idx reg, f (res.withBase idx reg) = (f res).map fun x => x.withBase idx reg

theorem KeepsBase.base {f : AccessResult → Except GoError AccessResult} (hf : KeepsBase f)
    {res res' : AccessResult} (h : f res = .ok res') : res'.idx = res.idx ∧ res'.reg = res.reg := by
  have hres := hf res res.idx res.reg
  have hself : res.withBase res.idx res.reg = res := rfl
  rw [hself, h] at hres
  simp only [Except.map, Except.ok.injEq] at hres
  constructor <;> rw [hres] <;> rfl

theorem keepsBase_addr (text : String) : KeepsBase (accessAddr text) := by
  intro res idx reg
  unfold accessAddr
  split <;> simp_all [AccessResult.modifyLast, AccessResult.withBase, Except.map]

theorem keepsBase_cast (c : Compiler) (type : CType) : KeepsBase (accessCast c type) := by
  intro res idx reg
  unfold accessCast
  cases cc2btf c type with
  | error e => rfl
  | ok t =>
    dsimp only
    split <;> simp_all [AccessResult.modifyLast, AccessResult.withBase, Except.map]

theorem keepsBase_indir : KeepsBase accessIndir := by
  intro res idx reg
  unfold accessIndir AccessResult.withBase
  cases isMemberBitfield res.mem with
  | true => rfl
  | false => cases pointerTarget? res.btf <;> rfl

theorem keepsBase_shift (heap : Heap) (what kind : String) (num : Word) :
    KeepsBase (accessShift heap what kind num) := by
  intro res idx reg
  have hprev : (res.withBase idx reg).prevBtf = res.prevBtf := rfl
  have hbtf : (res.withBase idx reg).btf = res.btf := rfl
  unfold accessShift
  rw [hprev, hbtf]
  cases pointerTarget? res.btf with
  | some target =>
    dsimp only
    cases isVoid target <;> cases sizeofOr heap target what <;> cases res.prevBtf <;> rfl
  | none =>
    cases arrayElem? res.btf with
    | none => rfl
    | some t =>
      dsimp only
      cases sizeofOr heap t what <;> cases res.prevBtf <;> rfl

theorem keepsBase_add (heap : Heap) (num : Word) : KeepsBase (accessAdd heap num) := by
  intro res idx reg
  have hmem : (res.withBase idx reg).mem = res.mem := rfl
  unfold accessAdd
  rw [hmem]
  cases isMemberBitfield res.mem with
  | true => rfl
  | false =>
    by_cases hn : num = 0
    · simp only [hn]
      rfl
    · simp only [hn]
      exact keepsBase_shift heap "adding" "add" num res idx reg

theorem keepsBase_sub (heap : Heap) (num : Word) : KeepsBase (accessSub heap num) := by
  intro res idx reg
  have hmem : (res.withBase idx reg).mem = res.mem := rfl
  unfold accessSub
  rw [hmem]
  cases isMemberBitfield res.mem with
  | true => rfl
  | false => exact keepsBase_shift heap "subing" "sub" (-num) res idx reg

theorem keepsBase_member (heap : Heap) (leftText text : String) :
    KeepsBase (accessMember heap leftText text) := by
  intro res idx reg
  have hmem : (res.withBase idx reg).mem = res.mem := rfl
  have hbtf : (res.withBase idx reg).btf = res.btf := rfl
  have hoff : (res.withBase idx reg).offsets = res.offsets := rfl
  unfold accessMember
  rw [hmem, hbtf, hoff]
  cases isMemberBitfield res.mem with
  | true => rfl
  | false =>
    dsimp only
    cases findMember heap ((pointerTarget? res.btf).getD res.btf) text with
    | error e => rfl
    | ok found =>
      obtain ⟨member, offset⟩ := found
      simp only [bind, Except.bind, pure, Except.pure]
      cases pointerTarget? res.btf with
      | none =>
        by_cases hnil : res.offsets = []
        · simp only [hnil]
          rfl
        · simp only [hnil]
          cases arrayElem? member.type <;> rfl
      | some target => cases arrayElem? member.type <;> rfl

theorem keepsBase_index (heap : Heap) (right : Expr) : KeepsBase (accessIndex heap right) := by
  intro res idx reg
  have hprev : (res.withBase idx reg).prevBtf = res.prevBtf := rfl
  have hmem : (res.withBase idx reg).mem = res.mem := rfl
  have hbtf : (res.withBase idx reg).btf = res.btf := rfl
  unfold accessIndex
  rw [hmem, hbtf, hprev]
  cases isMemberBitfield res.mem with
  | true => rfl
  | false =>
    cases right with
    | number text =>
      dsimp only
      cases parseNumber text with
      | error e => rfl
      | ok n =>
        dsimp only
        cases pointerTarget? res.btf with
        | some target =>
          by_cases hz : sizeofD heap target = 0
          · simp only [hz]
            rfl
          · simp only [hz]
            cases res.prevBtf <;> rfl
        | none =>
          cases arrayElem? res.btf with
          | none => rfl
          | some t =>
            by_cases hz : sizeofD heap t = 0
            · simp only [hz]
              rfl
            · simp only [hz]
              cases res.prevBtf <;> rfl
    | _ => rfl

/-! ## What a step did -/

section Steps

variable {heap : Heap} {c : Compiler} {res res' : AccessResult}

/-- The member step, in front of what it does for an array. -/
def memberStep (res : AccessResult) (member : Member) (offset : Nat) : AccessResult :=
  match pointerTarget? res.btf with
  | some _ => res.addOffset
      { offset := BitVec.ofNat 64 offset, btf := member.type, prev := some res.btf, address := false }
  | none => res.modifyLast fun o => { o with offset := o.offset + BitVec.ofNat 64 offset, btf := member.type }

theorem accessMember_inv {leftText text : String} (h : accessMember heap leftText text res = .ok res') :
    ∃ member offset, findMember heap ((pointerTarget? res.btf).getD res.btf) text = .ok (member, offset) ∧
      (pointerTarget? res.btf = none → res.offsets ≠ []) ∧
      res' = if (arrayElem? member.type).isSome then
          { (memberStep res member offset).modifyLast fun o => { o with address := true } with
            btf := member.type, mem := none }
        else { memberStep res member offset with btf := member.type, mem := some member } := by
  unfold accessMember at h
  cases hbit : isMemberBitfield res.mem with
  | true =>
    simp only [hbit, if_true] at h
    cases h
  | false =>
    cases hfind : findMember heap ((pointerTarget? res.btf).getD res.btf) text with
    | error e =>
      simp only [hbit, hfind] at h
      cases h
    | ok found =>
      obtain ⟨member, offset⟩ := found
      refine ⟨member, offset, rfl, ?_⟩
      unfold memberStep
      cases hptr : pointerTarget? res.btf with
      | some target =>
        rw [hptr] at hfind
        cases helem : arrayElem? member.type <;>
          simp only [hbit, hfind, hptr, helem, bind, Except.bind, pure, Except.pure] at h <;> cases h
        · exact ⟨nofun, rfl⟩
        · exact ⟨nofun, rfl⟩
      | none =>
        rw [hptr] at hfind
        by_cases hnil : res.offsets = []
        · simp only [hbit, hfind, hptr, hnil] at h
          cases h
        · cases helem : arrayElem? member.type <;>
            simp only [hbit, hfind, hptr, hnil, helem, bind, Except.bind, pure, Except.pure] at h <;> cases h
          · exact ⟨fun _ => hnil, rfl⟩
          · exact ⟨fun _ => hnil, rfl⟩

theorem accessMember_ok {leftText text : String} (h : accessMember heap leftText text res = .ok res') :
    ∃ member offset, (pointerTarget? res.btf = none → res.offsets ≠ []) ∧
      res' = if (arrayElem? member.type).isSome then
          { (memberStep res member offset).modifyLast fun o => { o with address := true } with
            btf := member.type, mem := none }
        else { memberStep res member offset with btf := member.type, mem := some member } := by
  obtain ⟨member, offset, -, hres⟩ := accessMember_inv h
  exact ⟨member, offset, hres⟩

theorem uptr_member {leftText text : String} (h : accessMember heap leftText text res = .ok res') :
    res'.uptr = res.uptr := by
  obtain ⟨member, offset, -, rfl⟩ := accessMember_ok h
  have hstep : (memberStep res member offset).uptr = res.uptr := by
    unfold memberStep
    split <;> rfl
  split <;> exact hstep

/-- `+ n` and `- n` add an address step of `n` elements. -/
theorem accessShift_inv {what kind : String} {num : Word} (h : accessShift heap what kind num res = .ok res') :
    ∃ (o : AccessOffset) (target : BtfType) (size : Nat),
      (pointerTarget? res.btf = some target ∧ (if isVoid target then some 1 else sizeof heap target) = some size ∨
        pointerTarget? res.btf = none ∧ arrayElem? res.btf = some target ∧ sizeof heap target = some size) ∧
      o.offset = BitVec.ofNat 64 size * num ∧ o.address = true ∧ res' = { res.addOffset o with mem := none } := by
  unfold accessShift at h
  cases hptr : pointerTarget? res.btf with
  | some target =>
    cases hprev : res.prevBtf <;> cases hv : isVoid target <;> cases hsize : sizeof heap target <;>
      simp only [hptr, sizeofOr, hsize, hprev, hv] at h <;> cases h
    · exact ⟨_, target, _, .inl ⟨rfl, by simp [hv, hsize]⟩, rfl, rfl, rfl⟩
    · exact ⟨_, target, 1, .inl ⟨rfl, by simp [hv]⟩, rfl, rfl, rfl⟩
    · exact ⟨_, target, 1, .inl ⟨rfl, by simp [hv]⟩, rfl, rfl, rfl⟩
  | none =>
    cases helem : arrayElem? res.btf with
    | none =>
      simp only [hptr, helem] at h
      cases h
    | some t =>
      cases hsize : sizeof heap t <;> cases hprev : res.prevBtf <;>
        simp only [hptr, helem, sizeofOr, hsize, hprev] at h <;> cases h
      exact ⟨_, t, _, .inr ⟨rfl, rfl, hsize⟩, rfl, rfl, rfl⟩

theorem accessShift_ok {what kind : String} {num : Word} (h : accessShift heap what kind num res = .ok res') :
    ∃ o : AccessOffset, o.address = true ∧ res' = { res.addOffset o with mem := none } := by
  obtain ⟨o, -, -, -, -, ho, hres⟩ := accessShift_inv h
  exact ⟨o, ho, hres⟩

/-- `+ 0` takes no step. -/
theorem accessAdd_ok {num : Word} (h : accessAdd heap num res = .ok res') :
    num = 0 ∧ res' = res ∨ num ≠ 0 ∧ accessShift heap "adding" "add" num res = .ok res' := by
  unfold accessAdd at h
  cases hbit : isMemberBitfield res.mem with
  | true =>
    simp only [hbit, if_true] at h
    cases h
  | false =>
    by_cases hz : num = 0
    · simp only [hbit, hz, if_true] at h
      cases h
      exact .inl ⟨hz, rfl⟩
    · simp only [hbit, hz] at h
      exact .inr ⟨hz, h⟩

theorem accessSub_ok {num : Word} (h : accessSub heap num res = .ok res') :
    accessShift heap "subing" "sub" (-num) res = .ok res' := by
  unfold accessSub at h
  cases hbit : isMemberBitfield res.mem with
  | true =>
    simp only [hbit, if_true] at h
    cases h
  | false =>
    simp only [hbit] at h
    exact h

/-- An index and `*` add a step that loads. -/
theorem accessIndex_inv {right : Expr} (h : accessIndex heap right res = .ok res') :
    ∃ (o : AccessOffset) (text : String) (n : Word), right = .number text ∧ parseNumber text = .ok n ∧
      (pointerTarget? res.btf = some o.btf ∨ pointerTarget? res.btf = none ∧ arrayElem? res.btf = some o.btf) ∧
      sizeofD heap o.btf ≠ 0 ∧ o.offset = n * BitVec.ofNat 64 (sizeofD heap o.btf) ∧ o.address = false ∧
      res' = { res.addOffset o with btf := o.btf, mem := none } := by
  unfold accessIndex at h
  cases hbit : isMemberBitfield res.mem with
  | true =>
    simp only [hbit, if_true] at h
    cases h
  | false =>
    cases right with
    | number text =>
      cases hn : parseNumber text with
      | error e =>
        simp only [hbit, hn] at h
        cases h
      | ok n =>
        cases hptr : pointerTarget? res.btf with
        | some target =>
          by_cases hz : sizeofD heap target = 0
          · simp only [hbit, hn, hptr, hz] at h
            cases h
          · cases hprev : res.prevBtf <;> simp only [hbit, hn, hptr, hz, hprev] at h <;> cases h
            exact ⟨_, text, n, rfl, hn, .inl rfl, hz, rfl, rfl, rfl⟩
        | none =>
          cases helem : arrayElem? res.btf with
          | none =>
            simp only [hbit, hn, hptr, helem] at h
            cases h
          | some t =>
            by_cases hz : sizeofD heap t = 0
            · simp only [hbit, hn, hptr, helem, hz] at h
              cases h
            · cases hprev : res.prevBtf <;> simp only [hbit, hn, hptr, helem, hz, hprev] at h <;> cases h
              exact ⟨_, text, n, rfl, hn, .inr ⟨rfl, rfl⟩, hz, rfl, rfl, rfl⟩
    | _ =>
      simp only [hbit] at h
      cases h

theorem accessIndex_ok {right : Expr} (h : accessIndex heap right res = .ok res') :
    ∃ o : AccessOffset, o.address = false ∧ res' = { res.addOffset o with btf := o.btf, mem := none } := by
  obtain ⟨o, -, -, -, -, -, -, -, ho, hres⟩ := accessIndex_inv h
  exact ⟨o, ho, hres⟩

theorem accessIndir_inv (h : accessIndir res = .ok res') :
    ∃ o : AccessOffset, pointerTarget? res.btf = some o.btf ∧ o.offset = 0 ∧ o.address = false ∧
      res' = { res.addOffset o with btf := o.btf, mem := none } := by
  unfold accessIndir at h
  cases hbit : isMemberBitfield res.mem with
  | true =>
    rw [hbit] at h
    cases h
  | false =>
    rw [hbit] at h
    cases hptr : pointerTarget? res.btf with
    | none =>
      rw [hptr] at h
      cases h
    | some target =>
      rw [hptr] at h
      cases h
      exact ⟨_, rfl, rfl, rfl, rfl⟩

theorem accessIndir_ok (h : accessIndir res = .ok res') :
    ∃ o : AccessOffset, o.address = false ∧ res' = { res.addOffset o with btf := o.btf, mem := none } := by
  obtain ⟨o, -, -, ho, hres⟩ := accessIndir_inv h
  exact ⟨o, ho, hres⟩

/-- `&` and a cast change the last step. -/
theorem accessAddr_ok {leftText : String} (h : accessAddr leftText res = .ok res') :
    res.offsets ≠ [] ∧ res' = { res.modifyLast fun o => { o with address := true, btf := .pointer res.btf } with
      btf := .pointer res.btf, mem := none } := by
  unfold accessAddr at h
  by_cases hnil : res.offsets = []
  · simp [hnil] at h
  · simp only [hnil, if_false, Except.ok.injEq] at h
    exact ⟨hnil, h.symm⟩

theorem accessCast_ok {type : CType} (h : accessCast c type res = .ok res') :
    ∃ t, cc2btf c type = .ok t ∧
      res' = { res.modifyLast fun o => { o with btf := t } with btf := t, mem := none } := by
  unfold accessCast at h
  cases hbtf : cc2btf c type with
  | error e => simp [hbtf] at h
  | ok t =>
    by_cases hnil : res.offsets = []
    · simp only [hbtf, hnil, if_true, Except.ok.injEq] at h
      exact ⟨t, rfl, by simp [← h, AccessResult.modifyLast, hnil]⟩
    · simp only [hbtf, hnil, if_false, Except.ok.injEq] at h
      exact ⟨t, rfl, h.symm⟩

end Steps

end Bpfsnoop.CC
