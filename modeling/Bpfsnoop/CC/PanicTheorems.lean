/-
Bpfsnoop.CC.PanicTheorems — where the expression compilers panic.

Three partial operations are within reach of a user's expression: the Go
shift of one constant by another, `prevBtf` on a chain that starts at the
cast of a number, and the first argument of a call. `valuePanics` says
which expressions reach one; `panics_iff` proves it of the static
evaluation, `compilers_panic_iff` of the two compilers.
-/
import Bpfsnoop.CC.Panics
import Bpfsnoop.CC.EvalExpr

namespace Bpfsnoop.CC

open Ebpf Btf Reg

/-! ## The chain at a cast of a number

`accessResult` starts at its zero value when the cast is applied to a
literal: no offsets and 0 as the last index. Every other chain has its
last index right. -/

/-- The last index of the offsets there are, -1 for none. -/
def AccessResult.indexed (res : AccessResult) : Prop := res.lastIdx = res.offsets.length - 1

theorem not_bare_of_indexed {res : AccessResult} (h : res.indexed) : ¬res.bare := by
  unfold AccessResult.indexed at h
  unfold AccessResult.bare
  omega

/-- `0`, as a literal. -/
def zeroText (text : String) : Bool :=
  match parseNumber text with
  | .ok n => n = 0
  | .error _ => false

/-- The cast of a number, under parentheses, further casts and `+ 0`. -/
def Expr.isCastNumber : Expr → Bool
  | .un .paren left => left.isCastNumber
  | .cast _ left => left.numberText?.isSome || left.isCastNumber
  | .bin .add left right =>
    match left.numberText?, right.numberText? with
    | some text, _ => zeroText text && right.isCastNumber
    | none, some text => zeroText text && left.isCastNumber
    | none, none => false
  | _ => false

section Chains

variable {heap : Heap} {c : Compiler} {res res' : AccessResult}

@[simp] theorem indexed_addOffset (o : AccessOffset) : (res.addOffset o).indexed := by
  simp [AccessResult.addOffset, AccessResult.indexed]

theorem indexed_modifyLast (f : AccessOffset → AccessOffset) (h : res.indexed) : (res.modifyLast f).indexed := by
  simpa [AccessResult.indexed, AccessResult.modifyLast] using h

theorem indexed_member {leftText text : String} (hres : res.offsets ≠ [] → res.indexed)
    (h : accessMember heap leftText text res = .ok res') : res'.indexed := by
  obtain ⟨member, offset, hnil, rfl⟩ := accessMember_ok h
  have hstep : (memberStep res member offset).indexed := by
    unfold memberStep
    split
    · exact indexed_addOffset _
    · rename_i hptr
      exact indexed_modifyLast _ (hres (hnil hptr))
  split
  · exact indexed_modifyLast _ hstep
  · exact hstep

theorem indexed_addr {leftText : String} (hres : res.offsets ≠ [] → res.indexed)
    (h : accessAddr leftText res = .ok res') : res'.indexed := by
  obtain ⟨hnil, rfl⟩ := accessAddr_ok h
  exact indexed_modifyLast _ (hres hnil)

theorem indexed_indir (h : accessIndir res = .ok res') : res'.indexed := by
  obtain ⟨o, -, rfl⟩ := accessIndir_ok h
  exact indexed_addOffset o

theorem indexed_shift {what kind : String} {num : Word}
    (h : accessShift heap what kind num res = .ok res') : res'.indexed := by
  obtain ⟨o, -, rfl⟩ := accessShift_ok h
  exact indexed_addOffset o

theorem indexed_index {right : Expr} (h : accessIndex heap right res = .ok res') : res'.indexed := by
  obtain ⟨o, -, rfl⟩ := accessIndex_ok h
  exact indexed_addOffset o

theorem cast_chain {type : CType} (h : accessCast c type res = .ok res') :
    res'.offsets.length = res.offsets.length ∧ res'.lastIdx = res.lastIdx ∧ res'.mem = none := by
  obtain ⟨t, -, rfl⟩ := accessCast_ok h
  exact ⟨by simp [AccessResult.modifyLast], rfl, rfl⟩

/-- The chain of `e` is the zero value at a cast of a number, and has its
last index right otherwise. -/
def ChainOf (e : Expr) (res : AccessResult) : Prop :=
  (e.isCastNumber → res.offsets = [] ∧ res.lastIdx = 0 ∧ res.mem = none) ∧
    (e.isCastNumber = false → res.indexed)

theorem ChainOf.nonempty {e : Expr} (h : ChainOf e res) (hne : res.offsets ≠ []) : res.indexed := by
  cases hc : e.isCastNumber with
  | true => exact absurd (h.1 hc).1 hne
  | false => exact h.2 hc

/-- Behind a step that indexes there is no bare chain. -/
theorem ChainOf.of_indexed {e : Expr} (hc : e.isCastNumber = false) (h : res.indexed) :
    ChainOf e res :=
  ⟨fun hc' => by simp [hc] at hc', fun _ => h⟩

theorem ChainOf.bare_iff {e : Expr} (h : ChainOf e res) : res.bare ↔ e.isCastNumber := by
  cases hc : e.isCastNumber with
  | true =>
    obtain ⟨hoff, hlast, -⟩ := h.1 hc
    simp [AccessResult.bare, hoff, hlast]
  | false => simpa using not_bare_of_indexed (h.2 hc)

theorem ChainOf.add {e left : Expr} {text : String} {num : Word}
    (hcast : e.isCastNumber = (zeroText text && left.isCastNumber)) (hnum : parseNumber text = .ok num)
    (hleft : ChainOf left res) (h : accessAdd heap num res = .ok res') : ChainOf e res' := by
  have hzero : zeroText text = decide (num = 0) := by simp [zeroText, hnum]
  obtain ⟨hz, rfl⟩ | ⟨hz, hshift⟩ := accessAdd_ok h
  · have hsame : e.isCastNumber = left.isCastNumber := by simp [hcast, hzero, hz]
    unfold ChainOf
    rw [hsame]
    exact hleft
  · exact .of_indexed (by simp [hcast, hzero, show num ≠ 0#64 from hz]) (indexed_shift hshift)

/-- **A chain is bare at a cast of a number, and only there.** -/
theorem kindAccess_chain (c : Compiler) (e : Expr) :
    ∀ res, kindAccess c e = .ok res → ChainOf e res := by
  induction e with
  | name text =>
    intro res h
    simp only [kindAccess, accessName] at h
    cases hidx : c.vars.idxOf? text with
    | none => simp [hidx] at h
    | some idx =>
      simp only [hidx, Except.ok.injEq] at h
      subst h
      exact .of_indexed rfl rfl
  | number text =>
    intro res h
    simp [kindAccess] at h
  | un op left ih =>
    intro res h
    cases op with
    | paren => exact ih res h
    | addr =>
      simp only [kindAccess, except_bind_ok] at h
      obtain ⟨res₀, hleft, hstep⟩ := h
      exact .of_indexed rfl (indexed_addr (ih res₀ hleft).nonempty hstep)
    | indir =>
      simp only [kindAccess, except_bind_ok] at h
      obtain ⟨res₀, hleft, hstep⟩ := h
      exact .of_indexed rfl (indexed_indir hstep)
    | _ => simp [kindAccess] at h
  | bin op left right ihl ihr =>
    intro res h
    cases op with
    | and | or =>
      simp only [kindAccess, except_bind_ok] at h
      obtain ⟨l, _, r, _, v, _, hres⟩ := h
      refine .of_indexed rfl ?_
      unfold accessComputed at hres
      split at hres
      · simp at hres
      · simp only [Except.ok.injEq] at hres
        subst hres
        rfl
    | add =>
      cases hlt : left.numberText? with
      | some text =>
        simp only [kindAccess, hlt, except_bind_ok] at h
        obtain ⟨num, hnum, res₀, hright, hstep⟩ := h
        exact .add (by simp [Expr.isCastNumber, hlt]) hnum (ihr res₀ hright) hstep
      | none =>
        cases hrt : right.numberText? with
        | some text =>
          simp only [kindAccess, hlt, hrt, except_bind_ok] at h
          obtain ⟨num, hnum, res₀, hleft, hstep⟩ := h
          exact .add (by simp [Expr.isCastNumber, hlt, hrt]) hnum (ihl res₀ hleft) hstep
        | none => simp [kindAccess, hlt, hrt] at h
    | sub =>
      cases hrt : right.numberText? with
      | some text =>
        simp only [kindAccess, hrt, except_bind_ok] at h
        obtain ⟨num, hnum, res₀, hleft, hstep⟩ := h
        exact .of_indexed rfl (indexed_shift (accessSub_ok hstep))
      | none => simp [kindAccess, hrt] at h
    | _ => simp [kindAccess] at h
  | cond e left right _ _ _ =>
    intro res h
    simp [kindAccess] at h
  | cast type left ih =>
    intro res h
    cases hlt : left.numberText? with
    | some text =>
      simp only [kindAccess, hlt, except_bind_ok] at h
      obtain ⟨n, _, hstep⟩ := h
      obtain ⟨hlen, hlast, hmem⟩ := cast_chain hstep
      have hoff : res.offsets = [] := List.eq_nil_of_length_eq_zero hlen
      exact ⟨fun _ => ⟨hoff, hlast, hmem⟩, fun hc => by simp [Expr.isCastNumber, hlt] at hc⟩
    | none =>
      simp only [kindAccess, hlt, except_bind_ok] at h
      obtain ⟨res₀, hleft, hstep⟩ := h
      obtain ⟨hlen, hlast, hmem⟩ := cast_chain hstep
      have hchain := ih res₀ hleft
      constructor
      · intro hc
        obtain ⟨hoff, hzero, -⟩ := hchain.1 (by simpa [Expr.isCastNumber, hlt] using hc)
        rw [hoff] at hlen
        exact ⟨List.eq_nil_of_length_eq_zero hlen, hlast.trans hzero, hmem⟩
      · intro hc
        have hidx := hchain.2 (by simpa [Expr.isCastNumber, hlt] using hc)
        unfold AccessResult.indexed at hidx ⊢
        rw [hlast, hlen, hidx]
  | dot left text ih | arrow left text ih =>
    intro res h
    simp only [kindAccess, except_bind_ok] at h
    obtain ⟨res₀, hleft, hstep⟩ := h
    exact .of_indexed rfl (indexed_member (ih res₀ hleft).nonempty hstep)
  | index left right ih _ =>
    intro res h
    simp only [kindAccess, except_bind_ok] at h
    obtain ⟨res₀, hleft, hstep⟩ := h
    exact .of_indexed rfl (indexed_index hstep)
  | call left list _ =>
    intro res h
    simp [kindAccess] at h
  | other op =>
    intro res h
    simp [kindAccess] at h

end Chains

/-! ## Which expressions panic -/

/-- The cast of a number, to a type that the step behind it takes. -/
def castPanics (c : Compiler) (takes : BtfType → Bool) (e : Expr) : Prop :=
  e.isCastNumber ∧ ∃ res, kindAccess c e = .ok res ∧ takes res.btf

mutual

/-- Collecting the chain of an expression panics: some `+`, `-` or index
is applied to the cast of a number, or some `&` or `|` below panics. -/
def chainPanics (c : Compiler) : Expr → Prop
  | .un .paren left | .un .addr left | .un .indir left | .dot left _ | .arrow left _ =>
    chainPanics c left
  | .bin .and left right | .bin .or left right =>
    valuePanics c left ∨ (∃ l, kind c left = .ok l) ∧ valuePanics c right
  | .bin .add left right =>
    match left.numberText?, right.numberText? with
    | some text, _ => (∃ num, parseNumber text = .ok num) ∧
        (chainPanics c right ∨ zeroText text = false ∧ castPanics c (shiftable c.heap) right)
    | none, some text => (∃ num, parseNumber text = .ok num) ∧
        (chainPanics c left ∨ zeroText text = false ∧ castPanics c (shiftable c.heap) left)
    | none, none => False
  | .bin .sub left right =>
    match right.numberText? with
    | none => False
    | some text => (∃ num, parseNumber text = .ok num) ∧
        (chainPanics c left ∨ castPanics c (shiftable c.heap) left)
  | .cast _ left => left.numberText? = none ∧ chainPanics c left
  | .index left right =>
    chainPanics c left ∨ (∃ text n, right = .number text ∧ parseNumber text = .ok n) ∧
      castPanics c (indexable c.heap) left
  | _ => False

/-- Evaluating an expression panics: what is evaluated before succeeds,
and there is a chain that panics or a constant shifted by a negative
constant. -/
def valuePanics (c : Compiler) : Expr → Prop
  | .un .addr left | .un .indir left | .dot left _ | .arrow left _ => chainPanics c left
  | .index left right =>
    chainPanics c left ∨ (∃ text n, right = .number text ∧ parseNumber text = .ok n) ∧
      castPanics c (indexable c.heap) left
  | .un _ left | .cast _ left => valuePanics c left
  | .bin op left right =>
    valuePanics c left ∨ ∃ l, kind c left = .ok l ∧ (valuePanics c right ∨
      ∃ r, kind c right = .ok r ∧ (op = .lsh ∨ op = .rsh) ∧ negativeShift l r)
  | .cond e left right =>
    valuePanics c e ∨ (∃ v, kind c e = .ok v) ∧ (valuePanics c left ∨
      (∃ l, kind c left = .ok l) ∧ valuePanics c right)
  | _ => False

end

section Sites

variable {c : Compiler} {e left right : Expr}

/-- A step that never panics, on the chain of its operand. -/
theorem panics_calmStep {f : AccessResult → Except GoError AccessResult} (hf : ∀ res, ¬Panics (f res)) :
    Panics (kindAccess c left >>= f) ↔ Panics (kindAccess c left) := by
  simp [hf]

theorem panics_index :
    Panics (kindAccess c (.index left right)) ↔
      Panics (kindAccess c left) ∨ (∃ text n, right = .number text ∧ parseNumber text = .ok n) ∧
        castPanics c (indexable c.heap) left := by
  simp only [kindAccess, panics_bind]
  refine or_congr Iff.rfl ⟨?_, ?_⟩
  · rintro ⟨res, hres, hp⟩
    obtain ⟨_, hright, htype, hbare⟩ := (accessIndex_panics_iff c.heap res right).mp hp
    exact ⟨hright, (kindAccess_chain c left res hres).bare_iff.mp hbare, res, hres, htype⟩
  · rintro ⟨hright, hcast, res, hres, htype⟩
    have hchain := kindAccess_chain c left res hres
    have hbit : isMemberBitfield res.mem = false := by rw [(hchain.1 hcast).2.2]; rfl
    exact ⟨res, hres, (accessIndex_panics_iff c.heap res right).mpr
      ⟨hbit, hright, htype, hchain.bare_iff.mpr hcast⟩⟩

theorem panics_shift {f : Word → AccessResult → Except GoError AccessResult} {text : String}
    {always : Bool} (hf : ∀ num res, Panics (f num res) ↔
      isMemberBitfield res.mem = false ∧ (always ∨ num ≠ 0) ∧ shiftable c.heap res.btf ∧ res.bare) :
    Panics (do f (← parseNumber text) (← kindAccess c e)) ↔
      (∃ num, parseNumber text = .ok num) ∧ (Panics (kindAccess c e) ∨
        (always ∨ zeroText text = false) ∧ castPanics c (shiftable c.heap) e) := by
  simp only [panics_bind, parseNumber_calm, false_or]
  constructor
  · rintro ⟨num, hnum, hp⟩
    refine ⟨⟨num, hnum⟩, hp.imp id ?_⟩
    rintro ⟨res, hres, hstep⟩
    obtain ⟨_, hz, htype, hbare⟩ := (hf num res).mp hstep
    have hchain := kindAccess_chain c e res hres
    exact ⟨by simpa [zeroText, hnum] using hz, hchain.bare_iff.mp hbare, res, hres, htype⟩
  · rintro ⟨⟨num, hnum⟩, hp⟩
    refine ⟨num, hnum, hp.imp id ?_⟩
    rintro ⟨hz, hcast, res, hres, htype⟩
    refine ⟨res, hres, ?_⟩
    have hchain := kindAccess_chain c e res hres
    have hbit : isMemberBitfield res.mem = false := by rw [(hchain.1 hcast).2.2]; rfl
    exact (hf num res).mpr ⟨hbit, by simpa [zeroText, hnum] using hz, htype, hchain.bare_iff.mpr hcast⟩

/-- The form in which the induction goes through. -/
def Located (c : Compiler) (e : Expr) : Prop :=
  (Panics (kindAccess c e) ↔ chainPanics c e) ∧ (Panics (kind c e) ↔ valuePanics c e)

/-- An access expression panics where its chain does. -/
theorem Located.of_access (hacc : e.isAccess) (hchain : Panics (kindAccess c e) ↔ chainPanics c e)
    (hvalue : valuePanics c e ↔ chainPanics c e) : Located c e := by
  refine ⟨hchain, ?_⟩
  rw [kind_access hacc, hvalue, ← hchain, panics_bind]
  simp [(access_calm c _).fresh]

theorem panics_operand {f : EvalValue → CodeM EvalValue} (hf : ∀ v, Calm (f v)) :
    Panics (kind c left >>= fun v => fresh (f v)) ↔ Panics (kind c left) := by
  simp [(hf _).fresh]

theorem located_un (op : UnOp) (h : Located c left) : Located c (.un op left) := by
  have hnone : ¬Panics (.error (.errorf "unsupported expression op %s" [.text (Expr.un op left).op]) :
      Except GoError AccessResult) := by simp
  cases op with
  | addr => exact .of_access rfl ((panics_calmStep fun res => accessAddr_calm res left.text).trans h.1) Iff.rfl
  | indir => exact .of_access rfl ((panics_calmStep accessIndir_calm).trans h.1) Iff.rfl
  | paren => exact h
  | plus => exact ⟨⟨fun hp => absurd hp hnone, False.elim⟩, h.2⟩
  | minus => exact ⟨⟨fun hp => absurd hp hnone, False.elim⟩, (panics_operand minus_calm).trans h.2⟩
  | _ =>
    exact ⟨⟨fun hp => absurd hp hnone, False.elim⟩,
      (panics_operand fun v => unary_calm _ _ _ v).trans h.2⟩

theorem located_bin (op : BinOp) (hl : Located c left) (hr : Located c right) :
    Located c (.bin op left right) := by
  constructor
  · have hbitwise : ∀ {f : EvalValue → EvalValue → CodeM EvalValue}, (∀ l r, Calm (f l r)) →
        (Panics (do
          let l ← kind c left
          let r ← kind c right
          accessComputed (← fresh (f l r))) ↔
          valuePanics c left ∨ (∃ l, kind c left = .ok l) ∧ valuePanics c right) := by
      intro f hf
      simp only [panics_bind, accessComputed_calm, (hf _ _).fresh, hl.2, hr.2]
      simp
    cases op with
    | and => exact hbitwise fun l r => binary_calm l r .and (by decide) (by decide)
    | or => exact hbitwise fun l r => binary_calm l r .or (by decide) (by decide)
    | add =>
      have hadd : ∀ num res, Panics (accessAdd c.heap num res) ↔ isMemberBitfield res.mem = false ∧
          ((false : Bool) ∨ num ≠ 0) ∧ shiftable c.heap res.btf ∧ res.bare := by
        intro num res
        simpa using accessAdd_panics_iff c.heap res num
      cases hlt : left.numberText? with
      | some text =>
        simp only [kindAccess, chainPanics, hlt]
        rw [panics_shift hadd, hr.1]
        simp
      | none =>
        cases hrt : right.numberText? with
        | some text =>
          simp only [kindAccess, chainPanics, hlt, hrt]
          rw [panics_shift hadd, hl.1]
          simp
        | none => simp [kindAccess, chainPanics, hlt, hrt]
    | sub =>
      have hsub : ∀ num res, Panics (accessSub c.heap num res) ↔ isMemberBitfield res.mem = false ∧
          ((true : Bool) ∨ num ≠ 0) ∧ shiftable c.heap res.btf ∧ res.bare := by
        intro num res
        simpa using accessSub_panics_iff c.heap res num
      cases hrt : right.numberText? with
      | some text =>
        simp only [kindAccess, chainPanics, hrt]
        rw [panics_shift hsub, hl.1]
        simp
      | none => simp [kindAccess, chainPanics, hrt]
    | _ => simp [kindAccess, chainPanics]
  · simp only [kind, valuePanics, panics_bind, binary_panics_iff, hl.2, hr.2]

theorem located_cast (type : CType) (h : Located c left) : Located c (.cast type left) := by
  constructor
  · cases hlt : left.numberText? with
    | some text =>
      simp [kindAccess, chainPanics, hlt, parseUnsigned_calm, accessCast_calm]
    | none =>
      simp only [kindAccess, chainPanics, hlt, true_and]
      exact (panics_calmStep fun res => accessCast_calm c res type).trans h.1
  · simp only [kind, valuePanics, panics_bind, h.2]
    refine or_iff_left ?_
    rintro ⟨v, _, hp⟩
    by_cases hnum : v.typ = .num
    · rw [if_pos hnum] at hp
      exact (castNumber_calm c type _).fresh hp
    · rw [if_neg hnum] at hp
      exact (cast_calm c type v).fresh hp

theorem located_cond (he : Located c e) (hl : Located c left) (hr : Located c right) :
    Located c (.cond e left right) := by
  constructor
  · simp [kindAccess, chainPanics]
  · simp only [kind, valuePanics, panics_bind, (cond_calm _ _ _).fresh, he.2, hl.2, hr.2]
    simp

/-- **Where the static evaluation panics.** -/
theorem panics_iff (c : Compiler) (e : Expr) : Located c e := by
  induction e with
  | name text =>
    constructor
    · simp [kindAccess, chainPanics, accessName_calm]
    · simp [kind, valuePanics, (evalName_calm c text).fresh]
  | number text =>
    constructor
    · simp [kindAccess, chainPanics]
    · simp [kind, valuePanics, parseNumber_calm]
  | un op left ih => exact located_un op ih
  | bin op left right ihl ihr => exact located_bin op ihl ihr
  | cond e left right ihe ihl ihr => exact located_cond ihe ihl ihr
  | cast type left ih => exact located_cast type ih
  | dot left text ih | arrow left text ih =>
    exact .of_access rfl
      ((panics_calmStep fun res => accessMember_calm c.heap res left.text text).trans ih.1) Iff.rfl
  | index left right ih _ =>
    refine .of_access rfl ?_ Iff.rfl
    rw [panics_index, ih.1]
    rfl
  | call left list _ =>
    constructor
    · simp [kindAccess, chainPanics]
    · simp [kind, valuePanics]
  | other op =>
    constructor
    · simp [kindAccess, chainPanics]
    · simp [kind, valuePanics]

end Sites

/-! ## The two compilers -/

section Compilers

theorem newCompiler_calm (opts : CompileExprOptions) : ¬Panics (newCompiler opts) := by
  have hfind : ∀ kernel, ¬Panics (findRdonlyCast kernel) := by
    intro kernel
    unfold findRdonlyCast
    split
    · simp
    · simp [GoError.isPanic]
    · split <;> simp
    · simp
  unfold newCompiler
  split
  · simp
  · split
    · split
      · rename_i e he
        exact fun hp => hfind _ ⟨e, he, by simpa using hp⟩
      · simp
    · simp

theorem markUsed_panics_iff (ra : RegisterAllocator) (reg : Reg) :
    Panics (ra.markUsed reg) ↔ R9 < reg := by
  unfold RegisterAllocator.markUsed
  split
  · simpa using ‹reg ≤ R9›
  · simpa using ‹¬reg ≤ R9›

theorem markAllUsed_panics_iff (regs : List Reg) (ra : RegisterAllocator) :
    Panics (markAllUsed regs ra) ↔ ∃ reg ∈ regs, R9 < reg := by
  induction regs generalizing ra with
  | nil => simp [markAllUsed]
  | cons reg regs ih =>
    have hcons : markAllUsed (reg :: regs) ra = ra.markUsed reg >>= markAllUsed regs := rfl
    rw [hcons, panics_bind, markUsed_panics_iff]
    by_cases hreg : R9 < reg
    · simp [hreg]
    · have hok : ra.markUsed reg = .ok ⟨Function.update ra.registers reg true⟩ := by
        unfold RegisterAllocator.markUsed
        rw [if_pos (not_lt.mp hreg)]
      simp [hreg, hok, ih]

theorem markAllUsed_error {regs : List Reg} {ra : RegisterAllocator} {err : GoError}
    (h : markAllUsed regs ra = .error err) : err.isPanic := by
  induction regs generalizing ra with
  | nil => simp [markAllUsed, pure, Except.pure] at h
  | cons reg regs ih =>
    have hcons : markAllUsed (reg :: regs) ra = ra.markUsed reg >>= markAllUsed regs := rfl
    rw [hcons] at h
    by_cases hreg : reg ≤ R9
    · simp only [RegisterAllocator.markUsed, hreg, if_true, bind, Except.bind] at h
      exact ih h
    · simp only [RegisterAllocator.markUsed, hreg, if_false, bind, Except.bind, Except.error.injEq] at h
      rw [← h]
      rfl

/-! ### Calls -/

theorem parseExprNumber_calm (expr : Expr) : ¬Panics (parseExprNumber expr) := by
  unfold parseExprNumber
  cases expr.numberText? with
  | none => simp
  | some text =>
    have hcalm := parseNumber_calm text
    cases hn : parseNumber text with
    | error e => simpa [hn] using hcalm
    | ok n => simp [hn]

theorem numberArgument_calm (fnName place : String) (expr : Expr) :
    ¬Panics (numberArgument fnName place expr) := by
  have hcalm := parseExprNumber_calm expr
  unfold numberArgument
  cases hn : parseExprNumber expr with
  | error e => simpa [hn] using hcalm
  | ok n => simp

theorem checkSize_calm (fnName : String) (val : FuncCallValue) : ¬Panics (checkSize fnName val) := by
  unfold checkSize
  split <;> simp

theorem pktTypeArgument_calm (fnName place pktType : String) :
    ¬Panics (pktTypeArgument fnName place pktType) := by
  unfold pktTypeArgument
  split <;> simp

theorem offsetArgument_calm (fnName : String) (list : List Expr) :
    ¬Panics (offsetArgument fnName list) := by
  unfold offsetArgument
  split
  · simp
  · exact numberArgument_calm _ _ _
  · simp

theorem bufCall_calm (fnName : String) (list : List Expr) (val : FuncCallValue) :
    ¬Panics (bufCall fnName list val) := by
  unfold bufCall
  generalize (if fnName = "slice" then .slice else if fnName = "hex" then .hex else .buf :
    EvalResultType) = typ
  match list with
  | [] | [_] | _ :: _ :: _ :: _ :: _ => simp
  | [_, _] => simp [numberArgument_calm, checkSize_calm]
  | [_, _, _] => simp [numberArgument_calm, checkSize_calm]

theorem strCall_calm (fnName : String) (list : List Expr) (val : FuncCallValue) :
    ¬Panics (strCall fnName list val) := by
  unfold strCall
  match list with
  | [] | [_] | _ :: _ :: _ :: _ => simp
  | [_, _] => simp [numberArgument_calm, checkSize_calm]

theorem pktCall_calm (fnName : String) (list : List Expr) (val : FuncCallValue) :
    ¬Panics (pktCall fnName list val) := by
  unfold pktCall
  split
  · simp [numberArgument_calm, checkSize_calm]
  · simp only [panics_bind, numberArgument_calm, false_or, not_exists, not_and]
    intro num _
    split
    · simp [pktTypeArgument_calm, checkSize_calm]
    · rename_i text
      have hcalm := parseNumber_calm text
      cases hn : parseNumber text with
      | error e => simpa [hn] using hcalm
      | ok n => simpa [hn] using checkSize_calm _ _
    · simp
  · simp only [panics_bind, numberArgument_calm, false_or, not_exists, not_and]
    intro _ _ _ _
    split
    · simp [pktTypeArgument_calm, checkSize_calm]
    · simp
  · simp

/-- **A call panics without arguments, and only then.** -/
theorem compileFuncCall_panics_iff (fnName : String) (list : List Expr) :
    Panics (compileFuncCall fnName list) ↔ list = [] := by
  cases list with
  | nil => simp [compileFuncCall, firstArgument]
  | cons expr rest =>
    simp only [reduceCtorEq, iff_false]
    unfold compileFuncCall
    show ¬Panics (ite _ _ _)
    split
    · exact bufCall_calm _ _ _
    split
    · exact strCall_calm _ _ _
    split
    · exact pktCall_calm _ _ _
    split
    · simp only [panics_bind, offsetArgument_calm, false_or, not_exists, not_and]
      intro _ _
      split <;> simp
    split
    · simp [offsetArgument_calm]
    split
    · split <;> simp
    · simp

theorem evaluating_panics_iff (e : Expr) :
    Panics (evaluating e) ↔ ∃ fnName, e = .call (.name fnName) [] := by
  have hcall : ∀ fnName list, Panics (evaluating (.call (.name fnName) list)) ↔ list = [] := by
    intro fnName list
    rw [← compileFuncCall_panics_iff fnName list]
    unfold evaluating
    cases hcall : compileFuncCall fnName list <;> simp [hcall]
  cases e with
  | call left list =>
    cases left with
    | name fnName => simp [hcall]
    | _ => simp [evaluating]
  | un op left => cases op <;> simp [evaluating]
  | _ => simp [evaluating]

theorem postCheckFuncCall_calm (heap : Heap) (res : EvalResult) (val : EvalValue)
    (dataOffset dataSize : Word) (fnName : String) :
    ¬Panics (postCheckFuncCall heap res val dataOffset dataSize fnName) := by
  unfold postCheckFuncCall
  dsimp only
  split
  · simp
  · split
    · split
      · split <;> simp
      · simp
    · split <;> simp
    · split <;> simp
    · split
      · simp
      · split
        · split <;> simp
        · simp
      · simp
    · split <;> simp
    · split <;> simp
    · split <;> simp
    · split
      · split <;> simp
      · simp
    · split <;> simp
    · split <;> simp
    · split <;> simp
    · simp

/-! ### `CompileFilterExpr` and `CompileEvalExpr` -/

theorem not_panics_of_exhausted {α : Type} {x : Except GoError α} (h : OutOfRegisters x) :
    ¬Panics x := by
  obtain ⟨e, rfl, he⟩ := h
  simp [GoError.not_panic_of_exhausted he]

/-- From what a compiler does where the static evaluation panics. -/
theorem not_panics_iff {α : Type} {x : Except GoError α} {p : Prop} (h₁ : Panics x → p)
    (h₂ : p → Panics x ∨ OutOfRegisters x) : ¬Panics x ↔ ¬p ∨ OutOfRegisters x := by
  constructor
  · intro hx
    by_cases hp : p
    · exact .inr ((h₂ hp).resolve_left hx)
    · exact .inl hp
  · intro h hx
    cases h with
    | inl hp => exact hp (h₁ hx)
    | inr hout => exact not_panics_of_exhausted hout hx

/-- What the compiler does is what the static evaluation says. -/
theorem eval_panics (c : Compiler) (e : Expr) (g : Gen) :
    (Panics (eval c e g) → valuePanics c e) ∧
      (valuePanics c e → Panics (eval c e g) ∨ OutOfRegisters (eval c e g)) := by
  rw [← (panics_iff c e).2]
  exact (eval_agrees c e).2.panics g

/-- The filters that panic. -/
def filterPanics (opts : CompileExprOptions) (e : Expr) : Prop :=
  ∃ c, newCompiler opts = .ok c ∧ supportedOp e ∧ valuePanics c e

/-- The output expressions that panic: a call without arguments, an
expression in which the evaluation does. -/
def outputPanics (opts : CompileExprOptions) (e : Expr) : Prop :=
  ∃ c, newCompiler opts = .ok c ∧ ((∃ reg ∈ opts.usedRegisters, R9 < reg) ∨
    (∃ fnName, e = .call (.name fnName) []) ∨
    ∃ call fnName, evaluating e = .ok (call, fnName) ∧ valuePanics c call.expr)

/-- What `compile` does with the value of its expression. -/
def compileValue (c : Compiler) (expr : String) (val : EvalValue) : CodeM Unit := do
  if val.typ = .num then
    fail (.errorf "disallow constant value (%d) expression: '%s'" [.num val.num, .text expr])
  attachLabelExit c.labelExit
  if val.reg ≠ R0 then
    emit [Asm.movReg R0 val.reg]

theorem compile_eq (c : Compiler) (expr : String) {e : Expr} (hop : supportedOp e) :
    compile c expr e =
      wrapping "failed to evaluate expression" (eval c e) >>= compileValue c expr := by
  unfold compile
  simp only [hop]
  rfl

theorem compileValue_calm (c : Compiler) (expr : String) (val : EvalValue) :
    Calm (compileValue c expr val) :=
  calm_ite (calm_fail rfl) ((Silent.calm fun _ => ⟨_, rfl⟩).bind fun _ =>
    calm_ite (silent_emit _).calm (silent_pure _).calm)

theorem compile_panics (c : Compiler) (expr : String) (e : Expr) (g : Gen) :
    (Panics (compile c expr e g) → supportedOp e ∧ valuePanics c e) ∧
      (supportedOp e ∧ valuePanics c e →
        Panics (compile c expr e g) ∨ OutOfRegisters (compile c expr e g)) := by
  cases hop : supportedOp e with
  | false =>
    have hfail : compile c expr e g =
        .error (.errorf "top op '%s' of expression must be one of %v" [.text e.op]) := by
      unfold compile
      simp [hop, fail, bind, StateT.bind, Except.bind]
    simp [hfail]
  | true =>
    obtain ⟨honly, hreach⟩ := eval_panics c e g
    rw [compile_eq c expr hop, panics_then (compileValue_calm c expr)]
    simp only [true_and]
    exact ⟨honly, fun hv => (hreach hv).imp id exhausted_then⟩

theorem compileFilterExpr_panics (opts : CompileExprOptions) (e : Expr) :
    (Panics (compileFilterExpr (fun _ => .ok e) opts) → filterPanics opts e) ∧
      (filterPanics opts e → Panics (compileFilterExpr (fun _ => .ok e) opts) ∨
        OutOfRegisters (compileFilterExpr (fun _ => .ok e) opts)) := by
  unfold compileFilterExpr filterPanics
  have hnew := newCompiler_calm opts
  cases hc : newCompiler opts with
  | error err => simpa [hc] using hnew
  | ok c =>
    have hcompile := compile_panics c opts.expr e filterGen
    cases hm : compile c opts.expr e filterGen with
    | error err => simpa [hm, OutOfRegisters] using hcompile
    | ok p => simpa [hm, OutOfRegisters] using hcompile

theorem compileEval_panics (c : Compiler) (opts : CompileExprOptions) (e : Expr) :
    (Panics (compileEval c opts e) → (∃ reg ∈ opts.usedRegisters, R9 < reg) ∨
        (∃ fnName, e = .call (.name fnName) []) ∨
        ∃ call fnName, evaluating e = .ok (call, fnName) ∧ valuePanics c call.expr) ∧
      ((∃ reg ∈ opts.usedRegisters, R9 < reg) ∨ (∃ fnName, e = .call (.name fnName) []) ∨
          (∃ call fnName, evaluating e = .ok (call, fnName) ∧ valuePanics c call.expr) →
        Panics (compileEval c opts e) ∨ OutOfRegisters (compileEval c opts e)) := by
  rw [← markAllUsed_panics_iff opts.usedRegisters .empty, ← evaluating_panics_iff]
  cases hused : markAllUsed opts.usedRegisters .empty with
  | error err =>
    have herr : err.isPanic := markAllUsed_error hused
    have hres : compileEval c opts e = .error err := by
      simp [compileEval, hused, bind, Except.bind]
    simp [hres, herr]
  | ok ra =>
    cases hev : evaluating e with
    | error err =>
      have hres : compileEval c opts e = .error err := by
        simp [compileEval, hused, hev, bind, Except.bind]
      simp only [hres, panics_error, panics_ok, reduceCtorEq, false_and, exists_false, false_or, or_false]
      exact ⟨id, .inl⟩
    | ok call =>
      obtain ⟨call, fnName⟩ := call
      obtain ⟨honly, hreach⟩ :=
        eval_panics c call.expr { regalloc := ra, insns := [], labelExitUsed := false }
      have hsite : (∃ call' fnName', Except.ok (ε := GoError) (call, fnName) = .ok (call', fnName') ∧
          valuePanics c call'.expr) ↔ valuePanics c call.expr := by simp
      simp only [panics_ok, false_or, hsite]
      cases hval : eval c call.expr { regalloc := ra, insns := [], labelExitUsed := false } with
      | error err =>
        have hres : compileEval c opts e =
            .error (.wrapf "failed to evaluate expression: %w" [] err) := by
          simp only [compileEval, hused, hev, hval, bind, Except.bind]
          rfl
        rw [hval] at honly hreach
        rw [hres]
        simpa [OutOfRegisters] using And.intro honly hreach
      | ok p =>
        have hcalm : ¬Panics (compileEval c opts e) := by
          have hpost : ∀ res, ¬Panics (postCheckFuncCall c.heap res p.1 call.dataOffset call.dataSize fnName) :=
            fun res => postCheckFuncCall_calm c.heap res p.1 _ _ _
          simp only [compileEval, hused, hev, hval, bind, Except.bind]
          by_cases hnum : p.1.typ = .num ∧ (!opts.memoryReadForce) = true
          · rw [if_pos hnum]
            show ¬Panics (Except.error (GoError.errorf _ _))
            simp
          · rw [if_neg hnum]
            intro hp
            cases hcheck : postCheckFuncCall c.heap
                { type := call.typ, pkt := call.pkt, addr := call.addr, port := call.port } p.1
                call.dataOffset call.dataSize fnName with
            | error err =>
              rw [hcheck] at hp
              exact hpost _ ⟨err, hcheck, by simpa using hp⟩
            | ok res =>
              rw [hcheck] at hp
              exact (panics_ok _).mp hp
        rw [hval] at hreach
        have hnot : ¬valuePanics c call.expr := fun hv => by
          simpa [OutOfRegisters] using hreach hv
        exact ⟨fun hp => absurd hp hcalm, fun hv => absurd hv hnot⟩

theorem compileEvalExpr_panics (opts : CompileExprOptions) (e : Expr) :
    (Panics (compileEvalExpr (fun _ => .ok e) opts) → outputPanics opts e) ∧
      (outputPanics opts e → Panics (compileEvalExpr (fun _ => .ok e) opts) ∨
        OutOfRegisters (compileEvalExpr (fun _ => .ok e) opts)) := by
  unfold compileEvalExpr outputPanics
  have hnew := newCompiler_calm opts
  cases hc : newCompiler opts with
  | error err => simpa [hc] using hnew
  | ok c => simpa using compileEval_panics c opts e

/-- **Where the expression compilers panic.** Each returns a result or an
error unless its condition holds; where the condition holds it panics,
if it does not run out of registers before. -/
theorem compilers_panic_iff (opts : CompileExprOptions) (e : Expr) :
    (¬Panics (compileFilterExpr (fun _ => .ok e) opts) ↔
        ¬filterPanics opts e ∨ OutOfRegisters (compileFilterExpr (fun _ => .ok e) opts)) ∧
      (¬Panics (compileEvalExpr (fun _ => .ok e) opts) ↔
        ¬outputPanics opts e ∨ OutOfRegisters (compileEvalExpr (fun _ => .ok e) opts)) :=
  ⟨not_panics_iff (compileFilterExpr_panics opts e).1 (compileFilterExpr_panics opts e).2,
    not_panics_iff (compileEvalExpr_panics opts e).1 (compileEvalExpr_panics opts e).2⟩

/-- Options of a compiler for one pointer parameter `x`. -/
def oneParamOpts : CompileExprOptions where
  expr := "x == (1 << -1)"
  params := [⟨"x", .pointer (.int "int" 4 .signed)⟩]
  spec := some ⟨fun _ => .error .notFound, fun _ => none, []⟩
  kernel := some ⟨fun name => if name = "int" then .ok (.int "int" 4 .signed) else .error .notFound,
    fun _ => none, []⟩
  labelExit := "exit"
  reservedStack := 0
  usedRegisters := []
  memoryReadMode := .probeRead
  memoryReadForce := false
  heap := fun _ => ⟨0, fun _ => none⟩

/-- The expression compilers can panic: `x == (1 << -1)` is a filter that
does. -/
theorem compilers_can_panic :
    ¬∀ (opts : CompileExprOptions) (e : Expr),
      ¬Panics (compileFilterExpr (fun _ => .ok e) opts) ∧
        ¬Panics (compileEvalExpr (fun _ => .ok e) opts) := by
  intro h
  exact (h oneParamOpts (.bin .eqEq (.name "x")
    (.un .paren (.bin .lsh (.number "1") (.un .minus (.number "1")))))).1 ⟨_, rfl, rfl⟩

/-- `((int *)16)[1]` -/
example : Panics (compileEvalExpr (fun _ => .ok (.index
    (.un .paren (.cast (.ptr (.other "int")) (.number "16"))) (.number "1"))) oneParamOpts) :=
  ⟨_, rfl, rfl⟩

/-- `buf()` -/
example : Panics (compileEvalExpr (fun _ => .ok (.call (.name "buf") [])) oneParamOpts) :=
  ⟨_, rfl, rfl⟩

end Compilers

end Bpfsnoop.CC
