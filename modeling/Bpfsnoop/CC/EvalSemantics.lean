/-
Bpfsnoop.CC.EvalSemantics — what a whole expression yields, as the
compiled code computes it.

`accessSem` and `evalSem` follow `accessMemory` and `eval` node by node,
with run-time values in place of registers. Every operand is evaluated:
`&&`, `||` and `?:` combine the values of their operands afterwards, and a
NULL met in any operand leaves the whole expression (`Stop.exit`).

`evalSites` lists the places where the compiled code can fail to follow
that meaning: the memory reads, with the registers in use at each, and the
operands of `?:`.
-/
import Bpfsnoop.CC.LiveRegisters

namespace Bpfsnoop.CC

open Ebpf Btf Reg

/-! ## The result of a memory access -/

/-- What `bitfield2insns` keeps of a word. -/
def bitfieldSem (member : Member) (w : Word) : Word :=
  let delta := BitVec.ofNat 64 (member.offset % 8)
  (if delta ≠ 0 then w >>> ((int32 (int32 delta)).toNat % 64) else w)
    &&& int32 (int32 (bitfieldMask member))

/-- What `adjustRegisterBitwise` keeps of a word. -/
def adjustSem (heap : Heap) (t : BtfType) (w : Word) : Word :=
  match sizeof heap t with
  | some 1 => w &&& 0xFF
  | some 2 => w &&& 0xFFFF
  | some 4 => (w <<< 32) >>> 32
  | _ => w

/-- What `access` keeps of the word its chain leads to. -/
def keptSem (heap : Heap) (btf : BtfType) (mem : Option Member) (w : Word) : Word :=
  match mem with
  | some m => if isMemberBitfield mem then bitfieldSem m w else adjustSem heap btf w
  | none => adjustSem heap btf w

/-- The code behind the chain of an access. -/
def keepCode (heap : Heap) (btf : BtfType) (mem : Option Member) (reg : Reg) : List Op :=
  match mem with
  | some m => if isMemberBitfield mem then bitfield2insns m reg else adjustRegisterBitwise heap btf reg
  | none => adjustRegisterBitwise heap btf reg

/-! ## Expressions -/

/-- The word of parameter `idx`: `args` is the content of `r9`. -/
def argWord (m : Word → Byte) (args : Word) (idx : Nat) : Word :=
  loadLE m (args + (int16 (BitVec.ofNat 64 (idx * 8))).signExtend 64) 8

/-- A part of the compiler that does not depend on run-time values. -/
def static {α : Type} (x : Except GoError α) : SemM α :=
  match x with
  | .ok a => .ok a
  | .error _ => .error .undefined

/-- Where the chain of an access starts; `w` is the content of the
register of a computed value. -/
def baseSem (m : Word → Byte) (args : Word) (res : AccessResult) (w : Word) : Word :=
  match res.idx with
  | some idx => if res.uptr = 0 then argWord m args idx else int32 res.uptr
  | none => w

/-- `access` at run time. -/
def accessValue (c : Compiler) (m : Word → Byte) (args : Word) (r : AccessResult × Word) :
    SemM Val := do
  let w ← chainSem c m r.1.offsets (baseSem m args r.1 r.2)
  return { typ := .regBtf, word := keptSem c.heap r.1.btf r.1.mem w, btf := some r.1.btf,
           mem := r.1.mem }

/-- A step of `accessMemory` that leaves the base alone. -/
def stepped (r : AccessResult × Word) (f : AccessResult → Except GoError AccessResult) :
    SemM (AccessResult × Word) := do
  return (← static (f r.1), r.2)

/-- `accessComputed` at run time; the register is left open. -/
def computedValue (v : Val) : SemM (AccessResult × Word) :=
  if v.typ ≠ .regBtf then .error .undefined
  else .ok ({ idx := none, btf := v.btf.getD .void, lastIdx := -1 }, v.word)

/-- `evalName` at run time. -/
def nameValue (c : Compiler) (m : Word → Byte) (args : Word) (text : String) : Val :=
  if text = "NULL" ∨ text = "false" then { typ := .num, word := 0 }
  else if text = "true" then { typ := .num, word := 1 }
  else
    match c.vars.idxOf? text with
    | none => { typ := .enumMaybe, name := text }
    | some idx => { typ := .regBtf, word := argWord m args idx, btf := c.btfs[idx]? }

/-- A cast at run time: the type changes, the content does not; a
constant is moved to a register. -/
def castValue (c : Compiler) (type : CType) (v : Val) : SemM Val := do
  let typ ← static (cc2btf c type)
  return if v.typ = .num then { v with typ := .regBtf, word := int32 v.word, btf := some typ }
    else { v with btf := some typ }

section Meaning

variable (c : Compiler) (m : Word → Byte) (args : Word)

mutual

def accessSem : Expr → SemM (AccessResult × Word)
  | .name text => do return (← static (accessName c text), 0)
  | .un .paren left => accessSem left
  | .un .addr left => do stepped (← accessSem left) (accessAddr left.text)
  | .un .indir left => do stepped (← accessSem left) accessIndir
  | .bin .and left right => do
    let l ← evalSem left
    let r ← evalSem right
    computedValue (← binSem c.heap .and l r)
  | .bin .or left right => do
    let l ← evalSem left
    let r ← evalSem right
    computedValue (← binSem c.heap .or l r)
  | .bin .add left right =>
    match left.numberText?, right.numberText? with
    | some text, _ => do
      let num ← static (parseNumber text)
      stepped (← accessSem right) (accessAdd c.heap num)
    | none, some text => do
      let num ← static (parseNumber text)
      stepped (← accessSem left) (accessAdd c.heap num)
    | none, none => .error .undefined
  | .bin .sub left right =>
    match right.numberText? with
    | none => .error .undefined
    | some text => do
      let num ← static (parseNumber text)
      stepped (← accessSem left) (accessSub c.heap num)
  | .cast type left => do
    let r ←
      match left.numberText? with
      | some text => do
        let n ← static (parseUnsigned text.toList)
        pure ({ uptr := n }, 0)
      | none => accessSem left
    stepped r (accessCast c type)
  | .dot left text => do stepped (← accessSem left) (accessMember c.heap left.text text)
  | .arrow left text => do stepped (← accessSem left) (accessMember c.heap left.text text)
  | .index left right => do stepped (← accessSem left) (accessIndex c.heap right)
  | _ => .error .undefined

def evalSem : Expr → SemM Val
  | .dot left text => do
    let r ← do stepped (← accessSem left) (accessMember c.heap left.text text)
    accessValue c m args r
  | .arrow left text => do
    let r ← do stepped (← accessSem left) (accessMember c.heap left.text text)
    accessValue c m args r
  | .index left right => do
    let r ← do stepped (← accessSem left) (accessIndex c.heap right)
    accessValue c m args r
  | .un .addr left => do
    let r ← do stepped (← accessSem left) (accessAddr left.text)
    accessValue c m args r
  | .un .indir left => do
    let r ← do stepped (← accessSem left) accessIndir
    accessValue c m args r
  | .bin op left right => do
    let l ← evalSem left
    let r ← evalSem right
    binSem c.heap op l r
  | .cast type left => do castValue c type (← evalSem left)
  | .cond e left right => do
    let v ← evalSem e
    let l ← evalSem left
    let r ← evalSem right
    condSem v l r
  | .name text => .ok (nameValue c m args text)
  | .number text => do
    let num ← static (parseNumber text)
    return { typ := .num, word := num }
  | .un op left => do unSem op (← evalSem left)
  | _ => .error .undefined

end

end Meaning

/-! ## Where the code may not follow -/

/-- A memory read, with the registers in use at it, or the operands of a
conditional. -/
inductive Site where
  | read (ra : RegisterAllocator) (offsets : List AccessOffset) (reg : Reg)
  | cond (v l r : EvalValue)

/-- Not an unresolved name. -/
def EvalValue.Resolved (v : EvalValue) : Prop := v.typ = .num ∨ v.typ = .regBtf

instance (v : EvalValue) : Decidable v.Resolved := inferInstanceAs (Decidable (_ ∨ _))

/-- A read finds its save slots in the frame and preserves the live
registers; a conditional has no unresolved name among its operands. -/
def Site.Safe (c : Compiler) : Site → Prop
  | .read ra offsets reg => StackFits c ∧ RegsSafe c ra offsets reg
  | .cond v l r => v.typ = .num ∨ v.typ = .regBtf ∧ l.Resolved ∧ r.Resolved

instance (c : Compiler) : (t : Site) → Decidable (t.Safe c)
  | .read ra offsets reg => inferInstanceAs (Decidable (StackFits c ∧ RegsSafe c ra offsets reg))
  | .cond v l r =>
    inferInstanceAs (Decidable (v.typ = .num ∨ v.typ = .regBtf ∧ l.Resolved ∧ r.Resolved))

/-- The read of `access` behind `accessMemory`. -/
def ownSite (c : Compiler) (e : Expr) (g : Gen) : List Site :=
  match accessMemory c e g with
  | .error _ => []
  | .ok (res, g') =>
    match res.idx with
    | some _ =>
      match g'.regalloc.alloc with
      | .ok (reg, ra) => [.read ra res.offsets reg]
      | .error _ => []
    | none => [.read g'.regalloc res.offsets res.reg]

/-- The sites of what is compiled behind `m`. -/
def sitesAfter {α : Type} (m : CodeM α) (g : Gen) (k : α → Gen → List Site) : List Site :=
  match m g with
  | .error _ => []
  | .ok (a, g') => k a g'

section Sites

variable (c : Compiler)

mutual

def accessSites : Expr → Gen → List Site
  | .un .paren left, g => accessSites left g
  | .un .addr left, g => accessSites left g
  | .un .indir left, g => accessSites left g
  | .bin .and left right, g =>
    evalSites left g ++ sitesAfter (eval c left) g fun _ g => evalSites right g
  | .bin .or left right, g =>
    evalSites left g ++ sitesAfter (eval c left) g fun _ g => evalSites right g
  | .bin .add left right, g =>
    match left.numberText? with
    | some _ => accessSites right g
    | none => accessSites left g
  | .bin .sub left _, g => accessSites left g
  | .cast _ left, g => accessSites left g
  | .dot left _, g => accessSites left g
  | .arrow left _, g => accessSites left g
  | .index left _, g => accessSites left g
  | _, _ => []

def evalSites : Expr → Gen → List Site
  | .dot left text, g => accessSites left g ++ ownSite c (.dot left text) g
  | .arrow left text, g => accessSites left g ++ ownSite c (.arrow left text) g
  | .index left right, g => accessSites left g ++ ownSite c (.index left right) g
  | .un .addr left, g => accessSites left g ++ ownSite c (.un .addr left) g
  | .un .indir left, g => accessSites left g ++ ownSite c (.un .indir left) g
  | .bin _ left right, g =>
    evalSites left g ++ sitesAfter (eval c left) g fun _ g => evalSites right g
  | .cast _ left, g => evalSites left g
  | .cond e left right, g =>
    evalSites e g ++ sitesAfter (eval c e) g fun v g =>
      evalSites left g ++ sitesAfter (eval c left) g fun l g =>
        evalSites right g ++ sitesAfter (eval c right) g fun r _ => [.cond v l r]
  | .un _ left, g => evalSites left g
  | _, _ => []

end

end Sites

/-! ## The memory accesses of an expression -/

mutual

/-- The accesses compiled while the base of an access is found. -/
def Expr.baseReads : Expr → List Expr
  | .un .paren left => left.baseReads
  | .un .addr left => left.baseReads
  | .un .indir left => left.baseReads
  | .bin .and left right => left.reads ++ right.reads
  | .bin .or left right => left.reads ++ right.reads
  | .bin .add left right =>
    match left.numberText? with
    | some _ => right.baseReads
    | none => left.baseReads
  | .bin .sub left _ => left.baseReads
  | .cast _ left =>
    match left.numberText? with
    | some _ => []
    | none => left.baseReads
  | .dot left _ => left.baseReads
  | .arrow left _ => left.baseReads
  | .index left _ => left.baseReads
  | _ => []

/-- The memory accesses of an expression, in the order of their code. -/
def Expr.reads : Expr → List Expr
  | .dot left text => left.baseReads ++ [.dot left text]
  | .arrow left text => left.baseReads ++ [.arrow left text]
  | .index left right => left.baseReads ++ [.index left right]
  | .un .addr left => left.baseReads ++ [.un .addr left]
  | .un .indir left => left.baseReads ++ [.un .indir left]
  | .un _ left => left.reads
  | .bin _ left right => left.reads ++ right.reads
  | .cond e left right => e.reads ++ left.reads ++ right.reads
  | .cast _ left => left.reads
  | _ => []

end

theorem reads_access {e : Expr} (h : e.isAccess) : e.reads = e.baseReads ++ [e] := by
  cases e with
  | dot => simp only [Expr.reads, Expr.baseReads]
  | arrow => simp only [Expr.reads, Expr.baseReads]
  | index => simp only [Expr.reads, Expr.baseReads]
  | un op =>
    cases op <;> simp [Expr.isAccess] at h <;> simp only [Expr.reads, Expr.baseReads]
  | _ => simp [Expr.isAccess] at h

/-! ## The nodes of `accessMemory` -/

/-- How `accessMemory` came to `res`: it started from a parameter or an
address, it took one step from the access of a subexpression, or it took
over the value of `&` or `|`. -/
inductive AccessNode (c : Compiler) (e : Expr) (g : Gen) (res : AccessResult) (g' : Gen) : Prop
  | start (hgen : g' = g) (hidx : res.idx ≠ none) (hreg : res.reg = R0)
    (hsem : ∀ m args, accessSem c m args e = .ok (res, 0)) (hreads : e.baseReads = [])
  | step (left : Expr) (res₀ : AccessResult) (f : AccessResult → Except GoError AccessResult)
    (hlt : sizeOf left < sizeOf e) (hleft : accessMemory c left g = .ok (res₀, g'))
    (hf : KeepsBase f) (hstep : f res₀ = .ok res)
    (hsem : ∀ m args, accessSem c m args e = accessSem c m args left >>= (stepped · f))
    (hsites : accessSites c e g = accessSites c left g) (hreads : e.baseReads = left.baseReads)
  | computed (op : BinOp) (left right : Expr) (v : EvalValue) (he : e = .bin op left right)
    (hval : eval c e g = .ok (v, g')) (hres : accessComputed v = .ok res)
    (hsem : ∀ m args, accessSem c m args e = evalSem c m args e >>= computedValue)
    (hsites : accessSites c e g = evalSites c e g) (hreads : e.baseReads = e.reads)

/-- **Every success of `accessMemory` is one of the three.** -/
theorem accessMemory_node {c : Compiler} {e : Expr} {g g' : Gen} {res : AccessResult}
    (h : accessMemory c e g = .ok (res, g')) : AccessNode c e g res g' := by
  cases e with
  | name text =>
    simp only [accessMemory, lift_eq_ok] at h
    obtain ⟨hres, rfl⟩ := h
    have hsem : ∀ m args, accessSem c m args (.name text) = .ok (res, 0) := by
      intro m args
      simp only [accessSem, hres, static]
      rfl
    unfold accessName at hres
    cases hidx : c.vars.idxOf? text with
    | none => simp [hidx] at hres
    | some idx =>
      simp only [hidx, Except.ok.injEq] at hres
      subst hres
      exact .start rfl (by simp) rfl hsem (by simp only [Expr.baseReads])
  | un op left =>
    cases op <;> simp only [accessMemory, bind_eq_ok, wrapping_eq_ok, lift_eq_ok, fail_eq_ok] at h
    case paren =>
      refine .step left res .ok (by simp) h (fun res idx reg => rfl) rfl (fun m args => ?_)
        (by simp only [accessSites]) (by simp only [Expr.baseReads])
      simp only [accessSem]
      cases accessSem c m args left <;> rfl
    case addr =>
      obtain ⟨res₀, _, hres, hstep, rfl⟩ := h
      exact .step left res₀ _ (by simp) hres (keepsBase_addr left.text) hstep
        (fun m args => by simp only [accessSem]) (by simp only [accessSites])
        (by simp only [Expr.baseReads])
    case indir =>
      obtain ⟨res₀, _, hres, hstep, rfl⟩ := h
      exact .step left res₀ _ (by simp) hres keepsBase_indir hstep
        (fun m args => by simp only [accessSem]) (by simp only [accessSites])
        (by simp only [Expr.baseReads])
  | bin op left right =>
    cases op
    case and =>
      rw [accessMemory_and] at h
      simp only [bind_eq_ok, wrapping_eq_ok, lift_eq_ok] at h
      obtain ⟨v, _, hval, hres, rfl⟩ := h
      exact .computed .and left right v rfl hval hres
        (fun m args => by simp only [accessSem, evalSem, bind_assoc])
        (by simp only [accessSites, evalSites]) (by simp only [Expr.baseReads, Expr.reads])
    case or =>
      rw [accessMemory_or] at h
      simp only [bind_eq_ok, wrapping_eq_ok, lift_eq_ok] at h
      obtain ⟨v, _, hval, hres, rfl⟩ := h
      exact .computed .or left right v rfl hval hres
        (fun m args => by simp only [accessSem, evalSem, bind_assoc])
        (by simp only [accessSites, evalSites]) (by simp only [Expr.baseReads, Expr.reads])
    case add =>
      -- the number on one side, the pointer on the other
      simp only [accessMemory] at h
      cases hln : left.numberText? with
      | some text =>
        simp only [hln, accessNumber, bind_eq_ok, wrapping_eq_ok, lift_eq_ok] at h
        obtain ⟨num, _, ⟨hnum, rfl⟩, res₀, _, hres, hstep, rfl⟩ := h
        refine .step right res₀ _ (Expr.right_lt_bin ..) hres (keepsBase_add c.heap num) hstep
          (fun m args => ?_) (by simp only [accessSites, hln]) (by simp only [Expr.baseReads, hln])
        simp only [accessSem, hln, hnum, static, bind, Except.bind]
      | none =>
        cases hrn : right.numberText? with
        | none => simp [hln, hrn] at h
        | some text =>
          simp only [hln, hrn, accessNumber, bind_eq_ok, wrapping_eq_ok, lift_eq_ok] at h
          obtain ⟨num, _, ⟨hnum, rfl⟩, res₀, _, hres, hstep, rfl⟩ := h
          refine .step left res₀ _ (Expr.left_lt_bin ..) hres (keepsBase_add c.heap num) hstep
            (fun m args => ?_) (by simp only [accessSites, hln]) (by simp only [Expr.baseReads, hln])
          simp only [accessSem, hln, hrn, hnum, static, bind, Except.bind]
    case sub =>
      simp only [accessMemory] at h
      cases hrn : right.numberText? with
      | none => simp [hrn] at h
      | some text =>
        simp only [hrn, accessNumber, bind_eq_ok, wrapping_eq_ok, lift_eq_ok] at h
        obtain ⟨num, _, ⟨hnum, rfl⟩, res₀, _, hres, hstep, rfl⟩ := h
        refine .step left res₀ _ (Expr.left_lt_bin ..) hres (keepsBase_sub c.heap num) hstep
          (fun m args => ?_) (by simp only [accessSites]) (by simp only [Expr.baseReads])
        simp only [accessSem, hrn, hnum, static, bind, Except.bind]
    all_goals simp [accessMemory] at h
  | cast type left =>
    simp only [accessMemory] at h
    cases hln : left.numberText? with
    | some text =>
      simp only [hln, bind_eq_ok, wrapping_eq_ok, lift_eq_ok, pure_eq_ok] at h
      obtain ⟨num, _, ⟨hnum, rfl⟩, _, _, ⟨rfl, rfl⟩, hstep, rfl⟩ := h
      obtain ⟨hidx, hreg⟩ := (keepsBase_cast c type).base hstep
      refine .start rfl (by rw [hidx]; simp) hreg (fun m args => ?_)
        (by simp only [Expr.baseReads, hln])
      simp only [accessSem, hln, hnum, static, stepped, hstep, bind, Except.bind, pure, Except.pure]
    | none =>
      simp only [hln, bind_eq_ok, wrapping_eq_ok, lift_eq_ok] at h
      obtain ⟨res₀, _, hres, hstep, rfl⟩ := h
      exact .step left res₀ _ (Expr.lt_cast ..) hres (keepsBase_cast c type) hstep
        (fun m args => by simp only [accessSem, hln]) (by simp only [accessSites])
        (by simp only [Expr.baseReads, hln])
  | dot left text =>
    simp only [accessMemory, bind_eq_ok, lift_eq_ok] at h
    obtain ⟨res₀, _, hres, hstep, rfl⟩ := h
    exact .step left res₀ _ (Expr.lt_dot ..) hres (keepsBase_member c.heap left.text text) hstep
      (fun m args => by simp only [accessSem]) (by simp only [accessSites])
      (by simp only [Expr.baseReads])
  | arrow left text =>
    simp only [accessMemory, bind_eq_ok, lift_eq_ok] at h
    obtain ⟨res₀, _, hres, hstep, rfl⟩ := h
    exact .step left res₀ _ (Expr.lt_arrow ..) hres (keepsBase_member c.heap left.text text) hstep
      (fun m args => by simp only [accessSem]) (by simp only [accessSites])
      (by simp only [Expr.baseReads])
  | index left right =>
    simp only [accessMemory, bind_eq_ok, wrapping_eq_ok, lift_eq_ok] at h
    obtain ⟨res₀, _, hres, hstep, rfl⟩ := h
    exact .step left res₀ _ (Expr.lt_index ..) hres (keepsBase_index c.heap right) hstep
      (fun m args => by simp only [accessSem]) (by simp only [accessSites])
      (by simp only [Expr.baseReads])
  | _ => simp [accessMemory] at h

end Bpfsnoop.CC
