/-
Bpfsnoop.Trace.OutputSlots — the slots of the output arguments.

`matchParams` hands the offset on as a Go int: an argument begins where the
one before ended. The offsets become 16-bit displacements and 32-bit
immediates, and so do the sizes and offsets that the user writes.

`slots_iff` says when the arguments stay in their slots: exactly if the data
they ask for fits 32768 bytes, with a byte for each argument, and the offsets
they read from fit 32 bits. What an argument asks for (`asks`) is read off
the call and the type of its operand.
-/
import Bpfsnoop.Lib.Tiles
import Bpfsnoop.CC.StaticTheorems
import Bpfsnoop.Trace.ArgWrites
import Mathlib.Algebra.BigOperators.Ring.Finset
import Mathlib.Algebra.Order.Group.Int

namespace Bpfsnoop.Trace

open Lib Ebpf Btf Reg CC

/-! ## What an argument asks for -/

/-- The kinds that `genBufInsns` is for. -/
def isBufLike : EvalResultType → Bool
  | .deref | .default | .hist | .tdigest => false
  | _ => true

/-- Where to read, counted from the operand, and how many bytes. -/
structure Request where
  start : Word := 0
  bytes : Word := 0
  deriving DecidableEq

section Ask

variable (parseExpr : String → Except GoError Expr) (isConstCharPtr isCharArray : BtfType → Bool)
  (heap : Heap) (forceProbeReadKernel : Bool) (params : List FuncParam) (krnl spec : Spec)

/-- The bytes of a value that is printed as it is. -/
def printedBytes (t : BtfType) : Word :=
  if isCharArray t then
    match underlyingType t with
    | .array _ nelems => BitVec.ofNat 64 nelems
    | _ => 0
  else if isConstCharPtr t then BitVec.ofNat 64 maxOutputStrLen
  else if isNumberPointer t then 16
  else 8

/-- What a call asks for, of an operand of type `t`. -/
def request (call : FuncCallValue) (t : BtfType) : Request :=
  match call.typ with
  | .default => { bytes := printedBytes isConstCharPtr isCharArray t }
  | .hist | .tdigest => { bytes := printedBytes isConstCharPtr isCharArray (underlyingType t) }
  | .deref =>
    match underlyingType t with
    | .pointer target => { bytes := BitVec.ofNat 64 (sizeofD heap target) }
    | _ => {}
  | .string =>
    match underlyingType t with
    | .array _ nelems => { bytes := if call.dataSize = -1 then BitVec.ofNat 64 nelems else call.dataSize }
    | _ => { bytes := if call.dataSize = -1 then 64 else call.dataSize }
  | .slice =>
    match pointee? (some (underlyingType t)) with
    | some elem =>
      let size := BitVec.ofNat 64 (sizeofD heap elem)
      { start := call.dataOffset * size, bytes := call.dataSize * size }
    | none => {}
  | .buf | .pkt | .addr | .port | .hex | .int => { start := call.dataOffset, bytes := call.dataSize }

/-- What an argument asks for: its call, and the type of the operand. -/
def asks (arg : FuncArgumentOutput) (labelExit : String) : Request :=
  match newCompiler (arg.options heap forceProbeReadKernel params krnl spec false labelExit), parseExpr arg.expr with
  | .ok c, .ok e =>
    match evaluating e with
    | .ok (call, _) =>
      match kind c call.expr with
      | .ok v => (v.btf.map (request isConstCharPtr isCharArray heap call)).getD {}
      | .error _ => {}
    | .error _ => {}
  | _, _ => {}

/-- The requests of the arguments that the function has. -/
def asked (labelCnt : Nat) : List FuncArgumentOutput → List Request
  | [] => []
  | a :: rest =>
    if !a.matches params then asked labelCnt rest
    else
      asks parseExpr isConstCharPtr isCharArray heap forceProbeReadKernel params krnl spec a (genExitLabel labelCnt)
        :: asked (labelCnt + 1) rest

end Ask

/-- The slots fit 16 bits, the offsets 32. -/
structure SlotsFit (rs : List Request) : Prop where
  bytes : (rs.map fun r => r.bytes.toNat + 1).sum ≤ 2 ^ 15
  start : ∀ r ∈ rs, -2 ^ 31 ≤ r.start.toInt ∧ r.start.toInt < 2 ^ 31

/-! ## The request and the result -/

section Result

variable {isConstCharPtr isCharArray : BtfType → Bool} {heap : Heap} {call : FuncCallValue} {val : EvalValue}
  {fnName : String} {res : EvalResult} {arg out : FuncArgumentOutput} {offset offset' : Word} {label : String}

/-- The fields that `postCheckFuncCall` starts from. -/
def called (call : FuncCallValue) : EvalResult :=
  { type := call.typ, pkt := call.pkt, addr := call.addr, port := call.port }

/-- The request that the code behind the expression serves. -/
def served (isConstCharPtr isCharArray : BtfType → Bool) (heap : Heap) (res : EvalResult) (btf : BtfType) :
    Request :=
  { start := if isBufLike res.type then res.off else 0
    bytes := match res.type with
      | .deref => BitVec.ofNat 64 (sizeofD heap btf)
      | .default | .hist | .tdigest => printedBytes isConstCharPtr isCharArray btf
      | _ => res.size }

/-- `postCheckFuncCall` hands the request on. -/
theorem postCheck_served {btf : BtfType}
    (h : postCheckFuncCall heap (called call) val call.dataOffset call.dataSize fnName = .ok res)
    (hbtf : res.btf = some btf) :
    ∃ t, val.btf = some t ∧
      served isConstCharPtr isCharArray heap res btf = request isConstCharPtr isCharArray heap call t := by
  unfold postCheckFuncCall called at h
  dsimp only at h
  split at h
  · cases h
  cases hval : val.btf with
  | none =>
    cases htyp : call.typ <;> simp [htyp, hval, pointee?] at h
    subst h
    cases hbtf
  | some t =>
    refine ⟨t, rfl, ?_⟩
    unfold request
    cases htyp : call.typ <;> simp only [htyp, hval, Option.map_some] at h
    case default =>
      cases h
      cases hbtf
      simp [served, isBufLike]
    case deref =>
      split at h <;> try cases h
      rename_i target hunder
      split at h <;> cases h
      cases hbtf
      simp [served, isBufLike, Option.some.inj hunder]
    case hist | tdigest =>
      split at h <;> cases h
      rename_i hunder
      cases hbtf
      simp [served, isBufLike, Option.some.inj hunder]
    case string =>
      split at h <;> try cases h
      · rename_i hunder
        simp [served, isBufLike, Option.some.inj hunder]
      · rename_i hunder
        split at h
        · rename_i hsize
          split at h <;> cases h
          simp only [served, Option.some.inj hunder, if_pos hsize]
          rfl
        · rename_i hsize
          cases h
          simp only [served, Option.some.inj hunder, if_neg hsize]
          rfl
    case slice =>
      cases hpointee : pointee? (some (underlyingType t)) with
      | none =>
        rw [hpointee] at h
        cases h
      | some elem =>
        rw [hpointee] at h
        dsimp only at h
        split at h <;> cases h
        simp [served, isBufLike]
    all_goals
      split at h <;> cases h
      simp [served, isBufLike]

/-- The code of each kind serves its request. -/
theorem gen_served {btf : BtfType} {size : Nat} {gen : Generated}
    (h : genInsnsOf isCharArray (arg.evaluated isConstCharPtr isCharArray res btf) res btf offset size label
      = .ok gen) (hsize : sizeof heap btf = some size) :
    gen.offset - offset = (served isConstCharPtr isCharArray heap res btf).bytes := by
  unfold genInsnsOf at h
  have hdefault (h : genDefaultInsns isCharArray (arg.evaluated isConstCharPtr isCharArray res btf) res btf
      offset size label = .ok gen) : gen.offset - offset = printedBytes isConstCharPtr isCharArray btf := by
    unfold genDefaultInsns FuncArgumentOutput.evaluated at h
    unfold printedBytes
    dsimp only at h
    split at h
    · rename_i hstr
      obtain ⟨hconst, harray⟩ : isConstCharPtr btf = false ∧ isCharArray btf = false := by simpa using hstr
      split at h
      · cases h
      split at h
      · rename_i hptr
        cases h
        simp [hconst, harray, hptr]
      · rename_i hptr
        cases h
        simp [hconst, harray, hptr]
    · rename_i hstr
      split at h
      · rename_i harray
        cases hunder : underlyingType btf <;> rw [hunder] at h <;> cases h
        simp [harray]
      · rename_i harray
        have hconst : isConstCharPtr btf = true := by simpa [harray] using hstr
        cases h
        simp [harray, hconst]
  cases htyp : res.type <;> rw [htyp] at h
  case default | hist | tdigest => simpa [served, htyp] using hdefault h
  case deref =>
    cases h
    simp [served, htyp, sizeofD, hsize]
  all_goals
    cases h
    simp [served, htyp]

/-- What `compile` accounts for an argument. -/
theorem writeResult_served
    (h : writeResult isConstCharPtr isCharArray heap arg res offset label = .ok (out, offset')) :
    ∃ btf, res.btf = some btf ∧ out.type = res.type ∧
      out.trueDataSize = (served isConstCharPtr isCharArray heap res btf).bytes ∧
      out.size = out.trueDataSize + 1 ∧ offset' = offset + out.size := by
  obtain ⟨btf, size, gen, hbtf, hsize, hgen, rfl, rfl⟩ := writeResult_ok _ _ _ h
  refine ⟨btf, hbtf, rfl, gen_served hgen hsize, add_sub_right_comm _ _ _, ?_⟩
  exact (add_sub_cancel _ _).symm

end Result

/-! ## The slots of a run of arguments -/

/-- Where an argument was placed: its offset, its evaluated expression, and
the argument with its code. -/
structure Placement where
  offset : Word
  res : EvalResult
  out : FuncArgumentOutput

namespace Placement

/-- The slot, as start and length. -/
def slot (p : Placement) : ℤ × ℤ := (p.offset.toInt, p.out.size.toInt)

/-- What the code reads, from where. -/
def request (p : Placement) : Request :=
  { start := if isBufLike p.out.type then p.res.off else 0, bytes := p.out.trueDataSize }

/-- The offsets that become 16-bit displacements. -/
def displacements (p : Placement) : List Word :=
  (match p.out.type with
    | .default | .hist | .tdigest =>
      if p.out.isStr then [] else if p.out.isNumPtr then [p.offset, p.offset + 8] else [p.offset]
    | _ => []) ++ [p.offset + p.out.trueDataSize]

/-- The sizes and offsets that become 32-bit immediates. -/
def immediates (p : Placement) : List Word :=
  let read := if p.offset ≠ 0 then [p.out.trueDataSize, p.offset] else [p.out.trueDataSize]
  match p.out.type with
  | .deref => read
  | .default | .hist | .tdigest =>
    if p.out.isStr then read else if p.out.isNumPtr then [8, p.offset + 8] else []
  | _ => if p.res.off ≠ 0 then p.res.off :: read else read

end Placement

section Place

variable (parseExpr : String → Except GoError Expr) (isConstCharPtr isCharArray : BtfType → Bool)
  (heap : Heap) (forceProbeReadKernel : Bool) (params : List FuncParam) (krnl spec : Spec)

/-- The argument was compiled for its place. -/
structure Compiled (arg : FuncArgumentOutput) (labelExit : String) (p : Placement) (next : Word) : Prop where
  eval : compileEvalExpr parseExpr (arg.options heap forceProbeReadKernel params krnl spec false labelExit)
    = .ok p.res
  write : writeResult isConstCharPtr isCharArray heap arg p.res p.offset labelExit = .ok (p.out, next)

/-- The rounds of `matchParams`: from a label count and an offset on, the
arguments that the function has are placed up to `total`. -/
inductive Placed : Nat → Word → List FuncArgumentOutput → List Placement → Word → Prop
  | nil (labelCnt : Nat) (offset : Word) : Placed labelCnt offset [] [] offset
  | skip {labelCnt : Nat} {offset total : Word} {a : FuncArgumentOutput} {args : List FuncArgumentOutput}
      {ps : List Placement} (hmatch : a.matches params = false) (hrest : Placed labelCnt offset args ps total) :
      Placed labelCnt offset (a :: args) ps total
  | place {labelCnt : Nat} {next total : Word} {a : FuncArgumentOutput} {args : List FuncArgumentOutput}
      {ps : List Placement} (p : Placement) (hmatch : a.matches params = true)
      (hcompiled : Compiled parseExpr isConstCharPtr isCharArray heap forceProbeReadKernel params krnl spec a
        (genExitLabel labelCnt) p next)
      (hrest : Placed (labelCnt + 1) next args ps total) : Placed labelCnt p.offset (a :: args) (p :: ps) total

end Place

section Run

variable {parseExpr : String → Except GoError Expr} {isConstCharPtr isCharArray : BtfType → Bool} {heap : Heap}
  {forceProbe : Bool} {params : List FuncParam} {krnl spec : Spec} {arg : FuncArgumentOutput}
  {args outs : List FuncArgumentOutput} {label : String} {p : Placement} {ps : List Placement}
  {offset next total : Word} {labelCnt cnt : Nat}

/-- `matchParams` places the arguments it returns. -/
theorem matchParams_placed
    (h : matchParams parseExpr isConstCharPtr isCharArray heap forceProbe params krnl spec labelCnt offset args
      = .ok (outs, total, cnt)) :
    ∃ ps, Placed parseExpr isConstCharPtr isCharArray heap forceProbe params krnl spec labelCnt offset args ps total ∧
      ps.map (·.out) = outs := by
  induction args generalizing labelCnt offset outs with
  | nil =>
    cases h
    exact ⟨[], .nil _ _, rfl⟩
  | cons a args ih =>
    unfold matchParams at h
    by_cases hmatch : a.matches params = true
    · rw [if_neg (by simpa using hmatch)] at h
      split at h
      · cases h
      rename_i out next hcompile
      obtain ⟨res, hres, hwrite⟩ := compile_ok _ _ _ _ _ hcompile
      split at h <;> cases h
      rename_i hrest
      obtain ⟨ps, hplaced, hout⟩ := ih hrest
      exact ⟨⟨offset, res, out⟩ :: ps, .place ⟨offset, res, out⟩ hmatch ⟨hres, hwrite⟩ hplaced,
        by rw [List.map_cons, hout]⟩
    · rw [if_pos (by simpa using hmatch)] at h
      obtain ⟨ps, hplaced, hout⟩ := ih h
      exact ⟨ps, .skip (by simpa using hmatch) hplaced, hout⟩

/-- The call of a compiled argument and the type of its operand. -/
theorem Compiled.called
    (h : Compiled parseExpr isConstCharPtr isCharArray heap forceProbe params krnl spec arg label p next) :
    ∃ c e call fnName v val, ∃ g : Gen, ∃ checked,
      newCompiler (arg.options heap forceProbe params krnl spec false label) = .ok c ∧
      parseExpr arg.expr = .ok e ∧ evaluating e = .ok (call, fnName) ∧ kind c call.expr = .ok v ∧
      v.btf = val.btf ∧
      postCheckFuncCall heap (Trace.called call) val call.dataOffset call.dataSize fnName = .ok checked ∧
      p.res = { checked with insns := g.insns, reg := val.reg, labelUsed := g.labelExitUsed } := by
  have heval := h.eval
  obtain ⟨c, e, call, fnName, hc, hcall⟩ := compileEvalExpr_inv heval
  obtain ⟨-, -, hheap, -⟩ := argCompiler hc.compiler
  rw [compileEvalExpr_eq hc] at heval
  obtain ⟨ra, call', fnName', val, g, checked, -, hcall', hval, -, hcheck, hres⟩ := compileEval_ok heval
  obtain ⟨v, hkind, hsame⟩ := kind_of_eval hval
  rw [hheap] at hcheck
  exact ⟨c, e, call', fnName', v, val, g, checked, hc.compiler, hc.parse, hcall', hkind, by rw [hsame]; rfl,
    hcheck, hres⟩

/-- What a compiled argument takes up is what it asks for. -/
theorem Compiled.request_eq
    (h : Compiled parseExpr isConstCharPtr isCharArray heap forceProbe params krnl spec arg label p next) :
    asks parseExpr isConstCharPtr isCharArray heap forceProbe params krnl spec arg label = p.request := by
  obtain ⟨btf, hbtf, htype, hbytes, -⟩ := writeResult_served h.write
  obtain ⟨c, e, call, fnName, v, val, g, checked, hc, hparse, hcall, hkind, hvbtf, hcheck, hres⟩ := h.called
  obtain ⟨t, ht, hserved⟩ := @postCheck_served isConstCharPtr isCharArray heap call val fnName checked btf
    hcheck (by rw [← hbtf, hres])
  unfold asks
  simp only [hc, hparse, hcall, hkind, hvbtf, ht, Option.map_some, Option.getD_some]
  rw [← hserved, Placement.request, hbytes, htype, hres]
  rfl

/-- Where a compiled argument ends. -/
theorem Compiled.ends
    (h : Compiled parseExpr isConstCharPtr isCharArray heap forceProbe params krnl spec arg label p next) :
    p.out.size = p.out.trueDataSize + 1 ∧ next = p.offset + p.out.size := by
  obtain ⟨-, -, -, -, hends⟩ := writeResult_served h.write
  exact hends

/-- A number takes 8 bytes, a number pointer 16. -/
theorem Compiled.number
    (h : Compiled parseExpr isConstCharPtr isCharArray heap forceProbe params krnl spec arg label p next)
    (htype : p.out.type = .default ∨ p.out.type = .hist ∨ p.out.type = .tdigest) (hstr : p.out.isStr = false) :
    p.out.trueDataSize = if p.out.isNumPtr then 16 else 8 := by
  obtain ⟨btf, hbtf, htype', hbytes, -⟩ := writeResult_served h.write
  obtain ⟨btf', size, gen, hbtf', -, -, hout, -⟩ := writeResult_ok _ _ _ h.write
  obtain rfl : btf' = btf := Option.some.inj (hbtf'.symm.trans hbtf)
  have hptr : p.out.isNumPtr = isNumberPointer btf' := by rw [hout]; rfl
  have hstr' : (isConstCharPtr btf' || isCharArray btf') = false := by rw [← hstr, hout]; rfl
  obtain ⟨hconst, harray⟩ : isConstCharPtr btf' = false ∧ isCharArray btf' = false := by simpa using hstr'
  rw [hbytes, served, hptr]
  rcases htype with ht | ht | ht <;> rw [← htype', ht] <;> simp [printedBytes, hconst, harray]

/-! ### All of them -/

section Placed

variable (hplaced : Placed parseExpr isConstCharPtr isCharArray heap forceProbe params krnl spec labelCnt offset
  args ps total)
include hplaced

/-- What the arguments ask for is what is placed. -/
theorem Placed.asked_eq :
    asked parseExpr isConstCharPtr isCharArray heap forceProbe params krnl spec labelCnt args
      = ps.map Placement.request := by
  induction hplaced with
  | nil => rfl
  | skip hmatch _ ih =>
    rw [asked, if_pos (by simpa using hmatch)]
    exact ih
  | place p hmatch hcompiled _ ih =>
    rw [asked, if_neg (by simpa using hmatch), hcompiled.request_eq, ih]
    rfl

/-- Every placement was compiled. -/
theorem Placed.compiled : ∀ p ∈ ps, ∃ a label next,
    Compiled parseExpr isConstCharPtr isCharArray heap forceProbe params krnl spec a label p next := by
  induction hplaced with
  | nil =>
    intro q hq
    cases hq
  | skip _ _ ih => exact ih
  | place p _ hcompiled _ ih =>
    intro q hq
    rcases List.mem_cons.mp hq with rfl | hq
    · exact ⟨_, _, _, hcompiled⟩
    · exact ih q hq

/-- The last exception byte is the last byte. -/
theorem Placed.last : ps = [] ∧ total = offset ∨ ∃ p ∈ ps, p.offset + p.out.trueDataSize + 1 = total := by
  induction hplaced with
  | nil => exact .inl ⟨rfl, rfl⟩
  | skip _ _ ih => exact ih
  | place p _ hcompiled _ ih =>
    right
    rcases ih with ⟨rfl, rfl⟩ | ⟨q, hq, htotal⟩
    · obtain ⟨hsize, hnext⟩ := hcompiled.ends
      exact ⟨p, List.mem_cons_self, by rw [hnext, hsize, add_assoc]⟩
    · exact ⟨q, List.mem_cons_of_mem p hq, htotal⟩

end Placed

/-! ### The fields of the instructions -/

/-- The displacement of a store. -/
def displacement16? (i : Insn) : Option (BitVec 16) :=
  match i.op with
  | .stx _ _ off _ => some off
  | _ => none

/-- The immediate of an arithmetic instruction. -/
def immediate32? (i : Insn) : Option Word :=
  match i.op with
  | .alu _ _ (.imm x) => some x
  | _ => none

/-- Of a move nothing is narrowed. -/
theorem fields_moveToR3 (reg : Reg) :
    (moveToR3 reg).filterMap displacement16? = [] ∧ (moveToR3 reg).filterMap immediate32? = [] := by
  unfold moveToR3
  split <;> exact ⟨rfl, rfl⟩

theorem fields_readToBuff (fn : Helper) (offset size : Word) :
    (readToBuff fn offset size).filterMap displacement16? = [] ∧
      (readToBuff fn offset size).filterMap immediate32?
        = (if offset ≠ 0 then [size, offset] else [size]).map int32 := by
  unfold readToBuff
  split <;> exact ⟨rfl, rfl⟩

/-- The fields of a read behind `r3`. -/
theorem fields_read (fn : Helper) (reg : Reg) (offset size : Word) :
    (moveToR3 reg ++ readToBuff fn offset size).filterMap displacement16? = [] ∧
      (moveToR3 reg ++ readToBuff fn offset size).filterMap immediate32?
        = (if offset ≠ 0 then [size, offset] else [size]).map int32 := by
  rw [List.filterMap_append, List.filterMap_append, (fields_moveToR3 reg).1, (fields_moveToR3 reg).2,
    List.nil_append, List.nil_append]
  exact fields_readToBuff fn offset size

theorem fields_buf (res : EvalResult) (offset : Word) :
    (genBufInsns res offset label).1.filterMap displacement16? = [] ∧
      (genBufInsns res offset label).1.filterMap immediate32?
        = (if res.off ≠ 0 then res.off :: (if offset ≠ 0 then [res.size, offset] else [res.size])
          else if offset ≠ 0 then [res.size, offset] else [res.size]).map int32 := by
  have hread := fields_read (if res.type = .string then .probeReadKernelStr else .probeReadKernel) res.reg offset res.size
  unfold genBufInsns
  rw [List.append_assoc]
  by_cases hz : res.off ≠ 0
  · simp only [if_pos hz, List.cons_append, List.nil_append]
    rw [List.filterMap_cons, List.filterMap_cons, List.filterMap_cons, List.filterMap_cons, hread.1, hread.2]
    exact ⟨rfl, rfl⟩
  · simp only [if_neg hz, List.cons_append, List.nil_append]
    rw [List.filterMap_cons, List.filterMap_cons]
    exact hread

theorem fields_default {res : EvalResult} {btf : BtfType} {size : Nat} {gen : Generated}
    (h : genDefaultInsns isCharArray arg res btf offset size label = .ok gen) :
    gen.insns.filterMap displacement16? = (if arg.isStr then []
        else if arg.isNumPtr then [offset, offset + 8] else [offset]).map int16 ∧
      gen.insns.filterMap immediate32? = (if arg.isStr then
          (if offset ≠ 0 then [gen.offset - offset, offset] else [gen.offset - offset])
        else if arg.isNumPtr then [8, offset + 8] else []).map int32 := by
  unfold genDefaultInsns at h
  by_cases hstr : arg.isStr = true
  · simp only [hstr, Bool.not_true, Bool.false_eq_true, if_false, if_true] at h ⊢
    split at h
    · split at h
      · cases h
        rw [add_sub_cancel_left]
        exact fields_read _ res.reg offset _
      · cases h
    · cases h
      rw [add_sub_cancel_left]
      exact fields_read _ res.reg offset _
  · simp only [hstr, Bool.not_false, Bool.false_eq_true, if_false, if_true] at h ⊢
    split at h
    · cases h
    split at h
    · rename_i hptr
      cases h
      rw [if_pos hptr, if_pos hptr]
      have hmove := fields_moveToR3 res.reg
      constructor
      · rw [List.filterMap_append, List.filterMap_cons, hmove.1]
        rfl
      · rw [List.filterMap_append, List.filterMap_cons, hmove.2]
        rfl
    · rename_i hptr
      cases h
      rw [if_neg hptr, if_neg hptr]
      exact ⟨rfl, rfl⟩

/-- **What is narrowed**: the 16-bit displacements and the 32-bit immediates
of the code behind the expression are the narrowed offsets and sizes. -/
theorem Compiled.fields
    (h : Compiled parseExpr isConstCharPtr isCharArray heap forceProbe params krnl spec arg label p next) :
    ∃ code used, p.out.insn
        = p.res.insns ++ code ++ exceptionCode (p.offset + p.out.trueDataSize) label used ∧
      (code ++ exceptionCode (p.offset + p.out.trueDataSize) label used).filterMap displacement16?
        = p.displacements.map int16 ∧
      code.filterMap immediate32? = p.immediates.map int32 := by
  obtain ⟨btf, size, gen, hbtf, hsize, hgen, hout, -⟩ := writeResult_ok _ _ _ h.write
  have hn : gen.offset - p.offset = p.out.trueDataSize := by rw [hout]
  have hend : gen.offset = p.offset + p.out.trueDataSize := by rw [← hn, add_sub_cancel]
  have htype : p.out.type = p.res.type := by rw [hout]; rfl
  have hinsn : p.out.insn = p.res.insns ++ gen.insns ++ exceptionCode gen.offset label gen.labelUsed := by rw [hout]
  have hexc : (exceptionCode gen.offset label gen.labelUsed).filterMap displacement16? = [int16 gen.offset] := by
    unfold exceptionCode
    split <;> rfl
  refine ⟨gen.insns, gen.labelUsed, hend ▸ hinsn, ?_⟩
  have hstr : p.out.isStr = (arg.evaluated isConstCharPtr isCharArray p.res btf).isStr := by rw [hout]
  have hptr : p.out.isNumPtr = (arg.evaluated isConstCharPtr isCharArray p.res btf).isNumPtr := by rw [hout]
  rw [hend] at hexc
  rw [← hend, List.filterMap_append, hend, hexc, Placement.displacements, Placement.immediates, htype, hstr, hptr,
    List.map_append, List.map_singleton, List.append_left_inj, ← hn]
  unfold genInsnsOf at hgen
  cases hkind : p.res.type <;> rw [hkind] at hgen
  case default | hist | tdigest => exact fields_default hgen
  case deref =>
    cases hgen
    simp only [add_sub_cancel_left, List.cons_append]
    rw [List.filterMap_cons, List.filterMap_cons]
    exact fields_read _ _ _ _
  all_goals
    cases hgen
    simp only [add_sub_cancel_left]
    exact fields_buf p.res p.offset

end Run

/-! ## Staying in the slots -/

/-- The slots lie one behind the other and cover the data, nothing is cut,
and the code of an argument writes its slot, the exception byte at its end. -/
structure InSlots (krnl : Spec) (ps : List Placement) (total : Word) : Prop where
  contiguous : Tiles 0 (ps.map Placement.slot) total.toInt
  disjoint : ps.Pairwise fun p q => ∀ x ∈ span p.slot, x ∉ span q.slot
  cover : ∀ x, (∃ p ∈ ps, x ∈ span p.slot) ↔ 0 ≤ x ∧ x < total.toInt
  last : ∀ p ∈ ps, p.out.size = p.out.trueDataSize + 1
  exact16 : ∀ p ∈ ps, ∀ x ∈ p.displacements, (int16 x).signExtend 64 = x
  exact32 : ∀ p ∈ ps, ∀ x ∈ p.immediates, int32 x = x
  writes : ∀ p ∈ ps, ∀ K : Kernel,
    (∀ id fastcall, findRdonlyCast krnl = .ok (id, fastcall) → K.fastcall = fastcall) →
    ∀ s, ClearOfFrame s p.offset p.out.size.toNat →
      ∃ s', exec K p.out.insn .run s = .cont .run s' ∧ WritesSlot K p.out p.offset s s'

section Fit

variable {parseExpr : String → Except GoError Expr} {isConstCharPtr isCharArray : BtfType → Bool} {heap : Heap}
  {forceProbe : Bool} {params : List FuncParam} {krnl spec : Spec} {arg : FuncArgumentOutput}
  {args outs : List FuncArgumentOutput} {label : String} {p : Placement} {ps : List Placement}
  {offset next total : Word} {labelCnt cnt : Nat}

theorem toInt_small {x : Word} (h : x.toNat ≤ 2 ^ 15) : x.toInt = x.toNat :=
  BitVec.toInt_eq_toNat_of_lt (by omega)

/-- A slot within the first 32768 bytes. -/
theorem Compiled.slot
    (h : Compiled parseExpr isConstCharPtr isCharArray heap forceProbe params krnl spec arg label p next)
    (hfit : p.offset.toNat + (p.out.trueDataSize.toNat + 1) ≤ 2 ^ 15) :
    p.out.size.toNat = p.out.trueDataSize.toNat + 1 ∧ next.toNat = p.offset.toNat + p.out.size.toNat := by
  obtain ⟨hsize, hnext⟩ := h.ends
  have h1 : (1 : Word).toNat = 1 := by rfl
  have hbytes : p.out.size.toNat = p.out.trueDataSize.toNat + 1 := by
    rw [hsize, BitVec.toNat_add, h1]
    omega
  refine ⟨hbytes, ?_⟩
  rw [hnext, BitVec.toNat_add]
  omega

/-- Slots that fit lie one behind the other. -/
theorem Placed.tiles
    (h : Placed parseExpr isConstCharPtr isCharArray heap forceProbe params krnl spec labelCnt offset args ps total)
    (hfit : offset.toNat + (ps.map fun p => p.out.trueDataSize.toNat + 1).sum ≤ 2 ^ 15) :
    Tiles offset.toInt (ps.map Placement.slot) total.toInt ∧
      ∀ p ∈ ps, p.offset.toNat + (p.out.trueDataSize.toNat + 1) ≤ 2 ^ 15 := by
  induction h with
  | nil =>
    refine ⟨rfl, fun p hp => ?_⟩
    cases hp
  | skip _ _ ih => exact ih hfit
  | @place _ next _ _ _ _ p _ hcompiled _ ih =>
    rw [List.map_cons, List.sum_cons] at hfit
    have hslot : p.offset.toNat + (p.out.trueDataSize.toNat + 1) ≤ 2 ^ 15 := by omega
    obtain ⟨hsize, hnext⟩ := hcompiled.slot hslot
    obtain ⟨htiles, hall⟩ := ih (by omega)
    have hend : p.offset.toInt + p.out.size.toInt = next.toInt := by
      rw [toInt_small (by omega), toInt_small (by omega), toInt_small (by omega)]
      omega
    have hpos : 0 < p.out.size.toInt := by
      rw [toInt_small (by omega)]
      omega
    refine ⟨⟨rfl, hpos, ?_⟩, List.forall_mem_cons.mpr ⟨hslot, hall⟩⟩
    show Tiles (p.offset.toInt + p.out.size.toInt) _ _
    rw [hend]
    exact htiles

/-- The second half of a number pointer. -/
theorem Compiled.secondHalf
    (h : Compiled parseExpr isConstCharPtr isCharArray heap forceProbe params krnl spec arg label p next)
    (hfit : p.offset.toNat + (p.out.trueDataSize.toNat + 1) ≤ 2 ^ 15)
    (htype : p.out.type = .default ∨ p.out.type = .hist ∨ p.out.type = .tdigest) (hstr : p.out.isStr = false)
    (hptr : p.out.isNumPtr = true) : (p.offset + 8).toNat < 2 ^ 15 := by
  have h16 := h.number htype hstr
  rw [if_pos hptr] at h16
  have hnat : (16 : Word).toNat = 16 ∧ (8 : Word).toNat = 8 := by decide
  rw [h16, hnat.1] at hfit
  rw [BitVec.toNat_add, hnat.2]
  omega

/-- The displacements of what fits are not cut. -/
theorem Compiled.exact16
    (h : Compiled parseExpr isConstCharPtr isCharArray heap forceProbe params krnl spec arg label p next)
    (hfit : p.offset.toNat + (p.out.trueDataSize.toNat + 1) ≤ 2 ^ 15) :
    ∀ x ∈ p.displacements, (int16 x).signExtend 64 = x := by
  have hoff : p.offset.toNat < 2 ^ 15 := by omega
  have hend : (p.offset + p.out.trueDataSize).toNat < 2 ^ 15 := by
    rw [BitVec.toNat_add]
    omega
  have hdefault (htype : p.out.type = .default ∨ p.out.type = .hist ∨ p.out.type = .tdigest) :
      ∀ x ∈ (if p.out.isStr then [] else if p.out.isNumPtr then [p.offset, p.offset + 8] else [p.offset]),
        (int16 x).signExtend 64 = x := by
    by_cases hs : p.out.isStr = true
    · rw [if_pos hs]
      simp
    · rw [if_neg hs]
      by_cases hn : p.out.isNumPtr = true
      · have hnext := h.secondHalf hfit htype (by simpa using hs) hn
        rw [if_pos hn]
        simp only [List.mem_cons, List.not_mem_nil, or_false, forall_eq_or_imp, forall_eq]
        exact ⟨signExtend_int16 hoff, signExtend_int16 hnext⟩
      · rw [if_neg hn]
        simp [signExtend_int16 hoff]
  unfold Placement.displacements
  rw [List.forall_mem_append]
  refine ⟨?_, by simpa using signExtend_int16 hend⟩
  cases htype : p.out.type
  case default => exact hdefault (.inl htype)
  case hist => exact hdefault (.inr (.inl htype))
  case tdigest => exact hdefault (.inr (.inr htype))
  all_goals exact nofun

/-- The immediates neither, where the offset to read from fits. -/
theorem Compiled.exact32
    (h : Compiled parseExpr isConstCharPtr isCharArray heap forceProbe params krnl spec arg label p next)
    (hfit : p.offset.toNat + (p.out.trueDataSize.toNat + 1) ≤ 2 ^ 15)
    (hstart : -2 ^ 31 ≤ p.request.start.toInt ∧ p.request.start.toInt < 2 ^ 31) :
    ∀ x ∈ p.immediates, int32 x = x := by
  have hoff : p.offset.toNat < 2 ^ 15 := by omega
  have hsize : p.out.trueDataSize.toNat < 2 ^ 15 := by omega
  have hread : ∀ x ∈ (if p.offset ≠ 0 then [p.out.trueDataSize, p.offset] else [p.out.trueDataSize]),
      int32 x = x := by
    split <;> simp [int32_small hsize, int32_small hoff]
  have hdefault (htype : p.out.type = .default ∨ p.out.type = .hist ∨ p.out.type = .tdigest) :
      ∀ x ∈ (if p.out.isStr then (if p.offset ≠ 0 then [p.out.trueDataSize, p.offset] else [p.out.trueDataSize])
        else if p.out.isNumPtr then [8, p.offset + 8] else []), int32 x = x := by
    by_cases hs : p.out.isStr = true
    · rw [if_pos hs]
      exact hread
    · rw [if_neg hs]
      by_cases hn : p.out.isNumPtr = true
      · have hnext := h.secondHalf hfit htype (by simpa using hs) hn
        have h8 : int32 (8 : Word) = 8 := by decide
        rw [if_pos hn]
        simp only [List.mem_cons, List.not_mem_nil, or_false, forall_eq_or_imp, forall_eq]
        exact ⟨h8, int32_small hnext⟩
      · rw [if_neg hn]
        simp
  unfold Placement.immediates
  dsimp only
  cases htype : p.out.type
  case default => exact hdefault (.inl htype)
  case hist => exact hdefault (.inr (.inl htype))
  case tdigest => exact hdefault (.inr (.inr htype))
  case deref => exact hread
  all_goals
    have hstart' : int32 p.res.off = p.res.off := by
      rw [int32_eq_self_iff]
      simpa [Placement.request, htype, isBufLike] using hstart
    by_cases hz : p.res.off = 0
    · simpa only [hz, ne_eq, not_true_eq_false, if_false] using hread
    · simp only [ne_eq, hz, not_false_eq_true, if_true]
      exact List.forall_mem_cons.mpr ⟨hstart', hread⟩

/-- The code of what fits writes its slot. -/
theorem Placed.writes
    (h : Placed parseExpr isConstCharPtr isCharArray heap forceProbe params krnl spec labelCnt offset args ps total)
    (hslots : ∀ p ∈ ps, p.offset.toNat + (p.out.trueDataSize.toNat + 1) ≤ 2 ^ 15) :
    ∀ p ∈ ps, ∀ K : Kernel,
      (∀ id fastcall, findRdonlyCast krnl = .ok (id, fastcall) → K.fastcall = fastcall) →
      ∀ s, ClearOfFrame s p.offset p.out.size.toNat →
        ∃ s', exec K p.out.insn .run s = .cont .run s' ∧ WritesSlot K p.out p.offset s s' := by
  intro p hp K hK s hclear
  obtain ⟨a, label, next, hcompiled⟩ := h.compiled p hp
  exact compile_writes hcompiled.eval hcompiled.write (hslots p hp) hK hclear

/-- **What fits stays in its slots.** -/
theorem Placed.inSlots
    (h : Placed parseExpr isConstCharPtr isCharArray heap forceProbe params krnl spec labelCnt 0 args ps total)
    (hfit : SlotsFit (ps.map Placement.request)) : InSlots krnl ps total := by
  have hbytes := hfit.bytes
  rw [List.map_map] at hbytes
  obtain ⟨htiles, hslots⟩ := h.tiles (by rw [show (0 : Word).toNat = 0 from rfl, Nat.zero_add]; exact hbytes)
  have h0 : (0 : Word).toInt = 0 := by decide
  rw [h0] at htiles
  refine ⟨htiles, ?_, ?_, ?_, ?_, ?_, ?_⟩
  · simpa [List.pairwise_map] using htiles.disjoint
  · intro x
    rw [← htiles.cover x]
    simp
  · intro p hp
    obtain ⟨a, label, next, hcompiled⟩ := h.compiled p hp
    exact hcompiled.ends.1
  · intro p hp
    obtain ⟨a, label, next, hcompiled⟩ := h.compiled p hp
    exact hcompiled.exact16 (hslots p hp)
  · intro p hp
    obtain ⟨a, label, next, hcompiled⟩ := h.compiled p hp
    exact hcompiled.exact32 (hslots p hp) (hfit.start p.request (List.mem_map_of_mem hp))
  · exact h.writes hslots

/-- The bytes of a slot that is not empty. -/
theorem toInt_size {n : Word} (hpos : 0 < (n + 1).toInt) : (n + 1).toInt = n.toNat + 1 := by
  have hn := n.isLt
  have h1 : (1 : Word).toNat = 1 := by rfl
  have hnat : (n + 1).toNat = (n.toNat + 1) % 2 ^ 64 := by rw [BitVec.toNat_add, h1]
  rw [BitVec.toInt_eq_toNat_cond, hnat] at hpos ⊢
  split at hpos <;> omega

theorem toInt_succ_le (x : Word) : (x + 1).toInt ≤ x.toInt + 1 := by
  have hx := x.isLt
  have h1 : (1 : Word).toNat = 1 := by rfl
  rw [BitVec.toInt_eq_toNat_cond, BitVec.toInt_eq_toNat_cond, BitVec.toNat_add, h1]
  split <;> split <;> omega

/-- What a 16-bit displacement can be. -/
theorem toInt_lt_of_exact {x : Word} (h : (int16 x).signExtend 64 = x) : x.toInt < 2 ^ 15 := by
  have hle : ((int16 x).signExtend 64).toInt = (int16 x).toInt := BitVec.toInt_signExtend_of_le (by decide)
  rw [← h, hle]
  exact BitVec.toInt_lt

/-- Slots that lie one behind the other fit, if no displacement is cut. -/
theorem Placed.fits_bytes
    (h : Placed parseExpr isConstCharPtr isCharArray heap forceProbe params krnl spec labelCnt 0 args ps total)
    (hcontiguous : Tiles 0 (ps.map Placement.slot) total.toInt)
    (hexact : ∀ p ∈ ps, ∀ x ∈ p.displacements, (int16 x).signExtend 64 = x) :
    (ps.map fun p => p.out.trueDataSize.toNat + 1).sum ≤ 2 ^ 15 := by
  have hpos (p : Placement) (hp : p ∈ ps) : p.out.size.toInt = p.out.trueDataSize.toNat + 1 := by
    obtain ⟨a, label, next, hcompiled⟩ := h.compiled p hp
    have hpos := hcontiguous.pos p.slot (List.mem_map_of_mem hp)
    rw [Placement.slot, hcompiled.ends.1] at hpos
    rw [hcompiled.ends.1]
    exact toInt_size hpos
  -- the slots add up to the data
  have hsum : (((ps.map fun p => p.out.trueDataSize.toNat + 1).sum : ℕ) : ℤ) = total.toInt := by
    rw [← hcontiguous.length, zero_add, List.map_map, Nat.cast_list_sum, List.map_map]
    exact congrArg List.sum (List.map_congr_left fun p hp => by simpa [Placement.slot] using (hpos p hp).symm)
  have htotal : total.toInt ≤ 2 ^ 15 := by
    rcases h.last with ⟨-, rfl⟩ | ⟨p, hp, hend⟩
    · decide
    · -- the last exception byte
      have hlast : p.offset + p.out.trueDataSize ∈ p.displacements :=
        List.mem_append_right _ (List.mem_singleton_self _)
      have hlt := toInt_lt_of_exact (hexact p hp _ hlast)
      have hle := toInt_succ_le (p.offset + p.out.trueDataSize)
      rw [← hend]
      omega
  have hint := hsum.trans_le htotal
  exact_mod_cast hint

/-- **What stays in its slots fits.** -/
theorem Placed.fits
    (h : Placed parseExpr isConstCharPtr isCharArray heap forceProbe params krnl spec labelCnt 0 args ps total)
    (hin : InSlots krnl ps total) : SlotsFit (ps.map Placement.request) := by
  constructor
  · rw [List.map_map]
    exact h.fits_bytes hin.contiguous hin.exact16
  · intro r hr
    obtain ⟨p, hp, rfl⟩ := List.mem_map.mp hr
    have himm := hin.exact32 p hp
    rw [← int32_eq_self_iff]
    unfold Placement.request
    dsimp only
    split
    · rename_i hbuf
      by_cases hz : p.res.off = 0
      · rw [hz]
        decide
      · refine himm _ ?_
        unfold Placement.immediates
        dsimp only
        cases htype : p.out.type <;> simp_all [isBufLike]
    · decide

/-- **The slots of the output arguments.** Whatever arguments are accepted,
they stay in their slots if and only if what they ask for fits. -/
theorem slots_iff
    (h : matchParams parseExpr isConstCharPtr isCharArray heap forceProbe params krnl spec 0 0 args
      = .ok (outs, total, cnt)) :
    ∃ ps, Placed parseExpr isConstCharPtr isCharArray heap forceProbe params krnl spec 0 0 args ps total ∧
      ps.map (·.out) = outs ∧
      (InSlots krnl ps total ↔
        SlotsFit (asked parseExpr isConstCharPtr isCharArray heap forceProbe params krnl spec 0 args)) := by
  obtain ⟨ps, hplaced, hout⟩ := matchParams_placed h
  refine ⟨ps, hplaced, hout, ?_⟩
  rw [hplaced.asked_eq]
  exact ⟨hplaced.fits, hplaced.inSlots⟩

end Fit

/-! ### A large buffer -/

/-- `buf(p, n)`. -/
def bufArg (n : String) : FuncArgumentOutput := { expr := "buf(p, " ++ n ++ ")", vars := ["buf", "p"] }

/-- The parser on it. -/
def parseBuf (n : String) : String → Except GoError Expr :=
  fun _ => .ok (.call (.name "buf") [.name "p", .number n])

/-- The parameter `char *p`. -/
def charPointer : List FuncParam := [⟨"p", .pointer (.int "char" 1 .signed)⟩]

/-- Types without members. -/
def plainHeap : Heap := fun _ => ⟨0, fun _ => none⟩

/-- A kernel without `bpf_rdonly_cast`. -/
def plainSpec : Spec := (Compiler.empty .probeRead).btfSpec

/-- The arguments `buf(p, n)` and `buf(p, n)` of a function of `char *p`. -/
def twoBuffers (n : String) : Except GoError (List FuncArgumentOutput × Word × Nat) :=
  matchParams (parseBuf n) (fun _ => false) (fun _ => false) plainHeap true charPointer plainSpec plainSpec 0 0
    [bufArg n, bufArg n]

/-- What they ask for. -/
def twoRequests (n : String) : List Request :=
  asked (parseBuf n) (fun _ => false) (fun _ => false) plainHeap true charPointer plainSpec plainSpec 0
    [bufArg n, bufArg n]

/-- Two buffers of 40000 bytes are accepted and leave their slots. -/
theorem large_buffers_leave_slots : ∃ outs total cnt ps, twoBuffers "40000" = .ok (outs, total, cnt) ∧
    Placed (parseBuf "40000") (fun _ => false) (fun _ => false) plainHeap true charPointer plainSpec plainSpec 0 0
      [bufArg "40000", bufArg "40000"] ps total ∧
    ps.map (·.out) = outs ∧ ¬ InSlots plainSpec ps total := by
  have hok : (twoBuffers "40000").isOk = true := by rfl
  cases h : twoBuffers "40000" with
  | error e => simp [h, Except.isOk, Except.toBool] at hok
  | ok q =>
    have h' : twoBuffers "40000" = .ok (q.1, q.2.1, q.2.2) := h
    obtain ⟨ps, hplaced, hout⟩ := matchParams_placed h'
    refine ⟨q.1, q.2.1, q.2.2, ps, rfl, hplaced, hout, fun hin => ?_⟩
    have hfits := hplaced.fits hin
    rw [← hplaced.asked_eq] at hfits
    exact absurd hfits.bytes (by decide)

/-- Two of 16 bytes stay there. -/
theorem small_buffers_stay : ∃ outs total cnt ps, twoBuffers "16" = .ok (outs, total, cnt) ∧
    ps.map (·.out) = outs ∧ (InSlots plainSpec ps total ↔ SlotsFit (twoRequests "16")) ∧
    SlotsFit (twoRequests "16") := by
  have hok : (twoBuffers "16").isOk = true := by rfl
  cases h : twoBuffers "16" with
  | error e => simp [h, Except.isOk, Except.toBool] at hok
  | ok q =>
    have h' : twoBuffers "16" = .ok (q.1, q.2.1, q.2.2) := h
    obtain ⟨ps, -, hout, hiff⟩ := slots_iff h'
    exact ⟨q.1, q.2.1, q.2.2, ps, rfl, hout, hiff, by decide, by decide⟩

end Bpfsnoop.Trace
