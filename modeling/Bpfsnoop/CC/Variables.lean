/-
Bpfsnoop.CC.Variables — the names of an expression, and its variables.

`ExtractVarNames` collects every name of the syntax tree. The compiler
decides by position what a name is: a parameter where a value or the base
of an access is wanted, unless it is `NULL`, `false` or `true` as a value;
the function of a call; the packet type among its arguments.
`names_iff` says that an expression that compiles has no other names, and
`variable_loaded` that its variables are the parameters the code loads.
-/
import Bpfsnoop.CC.ExitLabel
import Bpfsnoop.CC.Panics
import Mathlib.Data.List.Sort

namespace Bpfsnoop.CC

open Ebpf Btf Reg

/-! ## `ExtractVarNames` -/

mutual

/-- The names that `cc.Walk` meets. -/
def Expr.names : Expr → List String
  | .name text => [text]
  | .number _ | .other _ => []
  | .un _ left | .cast _ left | .dot left _ | .arrow left _ => left.names
  | .bin _ left right | .index left right => left.names ++ right.names
  | .cond e left right => e.names ++ left.names ++ right.names
  | .call left list => left.names ++ namesOf list

def namesOf : List Expr → List String
  | [] => []
  | e :: rest => e.names ++ namesOf rest

end

/-- `slices.Compact`. -/
def compact : List String → List String
  | a :: b :: rest => if a = b then compact (b :: rest) else a :: compact (b :: rest)
  | names => names

/-- `ExtractVarNames`. -/
def extractVarNames (parseExpr : String → Except GoError Expr) (expr : String) : Except GoError (List String) :=
  match parseExpr expr with
  | .error e => .error (.wrapf "failed to parse expression: %w" [] e)
  | .ok e => .ok (compact (e.names.insertionSort (· ≤ ·)))

theorem mem_compact {x : String} : ∀ {names : List String}, x ∈ compact names ↔ x ∈ names
  | [] => Iff.rfl
  | [_] => Iff.rfl
  | a :: b :: rest => by
    rw [compact]
    split
    · rename_i hab
      rw [mem_compact, hab]
      simp
    · rw [List.mem_cons, mem_compact, ← List.mem_cons]

theorem mem_extractVarNames {parseExpr : String → Except GoError Expr} {expr : String} {e : Expr}
    {vars : List String} (hparse : parseExpr expr = .ok e) (h : extractVarNames parseExpr expr = .ok vars) (x : String) :
    x ∈ vars ↔ x ∈ e.names := by
  simp only [extractVarNames, hparse, Except.ok.injEq] at h
  rw [← h, mem_compact, List.mem_insertionSort]

/-! ## What the compiler takes a name for -/

/-- The values that are no variables. -/
def constantNames : List String := ["NULL", "false", "true"]

mutual

/-- The names that `eval` looks up among the parameters. -/
def Expr.variables : Expr → List String
  | .name text => if text ∈ constantNames then [] else [text]
  | .un .addr left | .un .indir left => left.baseVariables
  | .dot left _ | .arrow left _ | .index left _ => left.baseVariables
  | .un _ left | .cast _ left => left.variables
  | .bin _ left right => left.variables ++ right.variables
  | .cond e left right => e.variables ++ left.variables ++ right.variables
  | _ => []

/-- The names that `accessMemory` looks up. -/
def Expr.baseVariables : Expr → List String
  | .name text => [text]
  | .bin .and left right | .bin .or left right => left.variables ++ right.variables
  | .bin .add left right => left.baseVariables ++ right.baseVariables
  | .bin .sub left _ => left.baseVariables
  | .un .paren left | .un .addr left | .un .indir left => left.baseVariables
  | .cast _ left | .dot left _ | .arrow left _ | .index left _ => left.baseVariables
  | _ => []

end

mutual

/-- The constants that `eval` meets. -/
def Expr.constants : Expr → List String
  | .name text => if text ∈ constantNames then [text] else []
  | .un .addr left | .un .indir left => left.baseConstants
  | .dot left _ | .arrow left _ | .index left _ => left.baseConstants
  | .un _ left | .cast _ left => left.constants
  | .bin _ left right => left.constants ++ right.constants
  | .cond e left right => e.constants ++ left.constants ++ right.constants
  | _ => []

/-- The constants that `accessMemory` meets: those below `&` and `|`. -/
def Expr.baseConstants : Expr → List String
  | .bin .and left right | .bin .or left right => left.constants ++ right.constants
  | .bin .add left right => left.baseConstants ++ right.baseConstants
  | .bin .sub left _ => left.baseConstants
  | .un .paren left | .un .addr left | .un .indir left => left.baseConstants
  | .cast _ left | .dot left _ | .arrow left _ | .index left _ => left.baseConstants
  | _ => []

end

/-- The variables of an output expression: those of the expression that is
evaluated. -/
def Expr.loaded : Expr → List String
  | .un .indir left => left.variables
  | .call _ list => list.head?.elim [] Expr.variables
  | e => e.variables

/-- The name of a node that is one. -/
def Expr.name? : Expr → Option String
  | .name text => some text
  | _ => none

/-- The names of an output expression that are built in: the function of a
call, the packet type among its arguments, and constants. -/
def Expr.builtins : Expr → List String
  | .un .indir left => left.constants
  | .call left list => left.name?.toList ++ list.head?.elim [] Expr.constants ++ list.tail.filterMap Expr.name?
  | e => e.constants

section Names

variable {c : Compiler} {e left right : Expr} {x : String}

def AccessNames (c : Compiler) (e : Expr) : Prop :=
  ∀ g res g', accessMemory c e g = .ok (res, g') → ∀ x, x ∈ e.names ↔ x ∈ e.baseVariables ∨ x ∈ e.baseConstants

def EvalNames (c : Compiler) (e : Expr) : Prop :=
  ∀ g v g', eval c e g = .ok (v, g') → ∀ x, x ∈ e.names ↔ x ∈ e.variables ∨ x ∈ e.constants

/-- A literal has no names. -/
theorem names_of_number {text : String} (h : e.numberText? = some text) :
    e.names = [] ∧ e.baseVariables = [] ∧ e.baseConstants = [] := by
  cases e <;> simp only [Expr.numberText?, reduceCtorEq] at h
  simp [Expr.names, Expr.baseVariables, Expr.baseConstants]

/-- An index is a literal. -/
theorem accessIndex_number {heap : Heap} {res res' : AccessResult} (h : accessIndex heap right res = .ok res') :
    ∃ text, right.numberText? = some text := by
  unfold accessIndex at h
  cases hbit : isMemberBitfield res.mem with
  | true =>
    simp only [hbit, if_true] at h
    cases h
  | false =>
    cases right with
    | number text => exact ⟨text, rfl⟩
    | _ =>
      simp only [hbit] at h
      cases h

theorem mem_names_number {text : String} (h : e.numberText? = some text) (x : String) :
    x ∈ e.names ↔ x ∈ e.baseVariables ∨ x ∈ e.baseConstants := by
  obtain ⟨hn, hv, hc⟩ := names_of_number h
  simp [hn, hv, hc]

/-- **The names of an expression that compiles** are its variables and its
constants. -/
theorem compile_names (c : Compiler) (e : Expr) : AccessNames c e ∧ EvalNames c e := by
  -- two parts of a node, each with its names
  have hpair {a b a' b' a'' b'' : List String} (ha : ∀ x, x ∈ a ↔ x ∈ a' ∨ x ∈ a'')
      (hb : ∀ x, x ∈ b ↔ x ∈ b' ∨ x ∈ b'') (x : String) : x ∈ a ++ b ↔ x ∈ a' ++ b' ∨ x ∈ a'' ++ b'' := by
    simp only [List.mem_append, ha, hb]
    tauto
  -- an access is named by its chain
  have haccess {e : Expr} (hacc : e.isAccess) (hv : e.variables = e.baseVariables)
      (hc : e.constants = e.baseConstants) (h : AccessNames c e) : EvalNames c e := by
    intro g v g' heval
    simp only [eval_access c hacc, bind_eq_ok] at heval
    obtain ⟨res, g₁, hres, -⟩ := heval
    rw [hv, hc]
    exact h g res g₁ hres
  induction e with
  | name text =>
    refine ⟨fun g res g' _ x => by simp [Expr.names, Expr.baseVariables, Expr.baseConstants],
      fun g v g' _ x => ?_⟩
    by_cases hc : text ∈ constantNames <;> simp [Expr.names, Expr.variables, Expr.constants, hc]
  | number text =>
    exact ⟨fun g res g' _ x => mem_names_number rfl x,
      fun g v g' _ x => by simp [Expr.names, Expr.variables, Expr.constants]⟩
  | un op left ih =>
    cases op
    case paren =>
      refine ⟨fun g res g' h => ?_, fun g v g' h => ?_⟩
      · simp only [accessMemory] at h
        exact ih.1 g res g' h
      · simp only [eval] at h
        exact ih.2 g v g' h
    case addr =>
      have hnames : AccessNames c (.un .addr left) := by
        intro g res g' h
        simp only [accessMemory, bind_eq_ok, wrapping_eq_ok, lift_eq_ok] at h
        obtain ⟨res₀, g₁, hleft, -⟩ := h
        exact ih.1 g res₀ g₁ hleft
      exact ⟨hnames, haccess rfl rfl rfl hnames⟩
    case indir =>
      have hnames : AccessNames c (.un .indir left) := by
        intro g res g' h
        simp only [accessMemory, bind_eq_ok, wrapping_eq_ok, lift_eq_ok] at h
        obtain ⟨res₀, g₁, hleft, -⟩ := h
        exact ih.1 g res₀ g₁ hleft
      exact ⟨hnames, haccess rfl rfl rfl hnames⟩
    all_goals
      refine ⟨fun g res g' h => by simp [accessMemory] at h, fun g v g' h => ?_⟩
      simp only [eval, bind_eq_ok, wrapping_eq_ok] at h
    case plus => exact ih.2 g v g' h
    all_goals
      obtain ⟨u, g₁, hleft, -⟩ := h
      exact ih.2 g u g₁ hleft
  | bin op left right ihl ihr =>
    have heval : EvalNames c (.bin op left right) := by
      intro g v g' h
      simp only [eval, bind_eq_ok, wrapping_eq_ok] at h
      obtain ⟨l, g₁, hleft, r, g₂, hright, -⟩ := h
      exact hpair (ihl.2 g l g₁ hleft) (ihr.2 g₁ r g₂ hright)
    refine ⟨fun g res g' h => ?_, heval⟩
    cases op
    case and =>
      simp only [accessMemory_and, bind_eq_ok, wrapping_eq_ok] at h
      obtain ⟨v, g₁, hval, -⟩ := h
      exact heval g v g₁ hval
    case or =>
      simp only [accessMemory_or, bind_eq_ok, wrapping_eq_ok] at h
      obtain ⟨v, g₁, hval, -⟩ := h
      exact heval g v g₁ hval
    case add =>
      cases hln : left.numberText? with
      | some text =>
        simp only [accessMemory, hln, bind_eq_ok, wrapping_eq_ok, lift_eq_ok] at h
        obtain ⟨num, g₁, -, res₀, g₂, hright, -⟩ := h
        exact hpair (mem_names_number hln) (ihr.1 g₁ res₀ g₂ hright)
      | none =>
        cases hrn : right.numberText? with
        | none => simp [accessMemory, hln, hrn] at h
        | some text =>
          simp only [accessMemory, hln, hrn, bind_eq_ok, wrapping_eq_ok, lift_eq_ok] at h
          obtain ⟨num, g₁, -, res₀, g₂, hleft, -⟩ := h
          exact hpair (ihl.1 g₁ res₀ g₂ hleft) (mem_names_number hrn)
    case sub =>
      cases hrn : right.numberText? with
      | none => simp [accessMemory, hrn] at h
      | some text =>
        simp only [accessMemory, hrn, bind_eq_ok, wrapping_eq_ok, lift_eq_ok] at h
        obtain ⟨num, g₁, -, res₀, g₂, hleft, -⟩ := h
        intro x
        rw [Expr.names, (names_of_number hrn).1, List.append_nil]
        exact ihl.1 g₁ res₀ g₂ hleft x
    all_goals simp [accessMemory] at h
  | cond e left right ihe ihl ihr =>
    refine ⟨fun g res g' h => by simp [accessMemory] at h, fun g v g' h => ?_⟩
    simp only [eval, bind_eq_ok, wrapping_eq_ok] at h
    obtain ⟨u, g₁, hcond, l, g₂, hleft, r, g₃, hright, -⟩ := h
    exact hpair (hpair (ihe.2 g u g₁ hcond) (ihl.2 g₁ l g₂ hleft)) (ihr.2 g₂ r g₃ hright)
  | cast type left ih =>
    refine ⟨fun g res g' h => ?_, fun g v g' h => ?_⟩
    · cases hln : left.numberText? with
      | some text => exact fun x => mem_names_number (e := left) hln x
      | none =>
        simp only [accessMemory, hln, bind_eq_ok, wrapping_eq_ok, lift_eq_ok] at h
        obtain ⟨res₀, g₁, hleft, -⟩ := h
        exact ih.1 g res₀ g₁ hleft
    · simp only [eval, bind_eq_ok, wrapping_eq_ok] at h
      obtain ⟨u, g₁, hleft, -⟩ := h
      exact ih.2 g u g₁ hleft
  | dot left text ih =>
    have hnames : AccessNames c (.dot left text) := by
      intro g res g' h
      simp only [accessMemory, bind_eq_ok, lift_eq_ok] at h
      obtain ⟨res₀, g₁, hleft, -⟩ := h
      exact ih.1 g res₀ g₁ hleft
    exact ⟨hnames, haccess rfl rfl rfl hnames⟩
  | arrow left text ih =>
    have hnames : AccessNames c (.arrow left text) := by
      intro g res g' h
      simp only [accessMemory, bind_eq_ok, lift_eq_ok] at h
      obtain ⟨res₀, g₁, hleft, -⟩ := h
      exact ih.1 g res₀ g₁ hleft
    exact ⟨hnames, haccess rfl rfl rfl hnames⟩
  | index left right ih _ =>
    have hnames : AccessNames c (.index left right) := by
      intro g res g' h x
      simp only [accessMemory, bind_eq_ok, wrapping_eq_ok, lift_eq_ok] at h
      obtain ⟨res₀, g₁, hleft, hstep, -⟩ := h
      obtain ⟨text, hrn⟩ := accessIndex_number hstep
      rw [Expr.names, (names_of_number hrn).1, List.append_nil]
      exact ih.1 g res₀ g₁ hleft x
    exact ⟨hnames, haccess rfl rfl rfl hnames⟩
  | call left list _ =>
    exact ⟨fun g res g' h => by simp [accessMemory] at h, fun g v g' h => by simp [eval] at h⟩
  | other op =>
    exact ⟨fun g res g' h => by simp [accessMemory] at h, fun g v g' h => by simp [eval] at h⟩

end Names

/-! ## A variable is loaded -/

/-- The code loads parameter `idx`. -/
def LoadsArg (idx : Nat) (insns : List Insn) : Prop :=
  ∃ reg, ((Asm.loadMem reg argsReg (int16 (BitVec.ofNat 64 (idx * 8))) .dword : Op) : Insn) ∈ insns

section Loads

variable {c : Compiler} {e left right : Expr} {x : String} {idx : Nat} {g g₁ g' : Gen} {v : EvalValue}
  {res res' : AccessResult}

theorem LoadsArg.grow (h : LoadsArg idx g.insns) (hins : ∃ own, g'.insns = g.insns ++ own) : LoadsArg idx g'.insns := by
  obtain ⟨reg, hmem⟩ := h
  obtain ⟨own, hown⟩ := hins
  exact ⟨reg, by rw [hown]; exact List.mem_append_left own hmem⟩

theorem eval_grows (h : eval c e g = .ok (v, g')) : ∃ own, g'.insns = g.insns ++ own := by
  obtain ⟨own, hown⟩ := (compile_emits c e).2 g v g' h
  exact ⟨own, hown.insns⟩

/-- The base of an access is loaded already, or it is parameter `idx` and
will be. -/
def BaseLoads (idx : Nat) (res : AccessResult) (insns : List Insn) : Prop :=
  res.idx = some idx ∧ res.uptr = 0 ∨ LoadsArg idx insns

theorem access_loads (hbase : BaseLoads idx res g.insns) (h : access c res g = .ok (v, g')) : LoadsArg idx g'.insns := by
  simp only [access_eq, bind_eq_ok, wrapping_eq_ok, emit_eq_ok, pure_eq_ok] at h
  obtain ⟨reg, g₁, hreg, _, g₂, hchain, _, _, rfl, rfl, rfl⟩ := h
  have hgrow : ∃ own, (g₂.insns ++ (keepCode c.heap res.btf res.mem reg).map (↑)) = g₁.insns ++ own := by
    rw [offset2insns_eq hchain]
    exact ⟨_, List.append_assoc _ _ _⟩
  have hloaded : LoadsArg idx g₁.insns := by
    rcases hbase with ⟨hidx, huptr⟩ | hdone
    · obtain ⟨ra, -, rfl⟩ := accessBase_inv hidx hreg
      rw [if_pos huptr]
      exact ⟨reg, List.mem_append_right _ (List.mem_singleton_self _)⟩
    · obtain ⟨own, hown⟩ := accessBase_emits (c := c) hreg
      exact hdone.grow ⟨own, hown.insns⟩
  exact hloaded.grow hgrow

theorem BaseLoads.step {insns : List Insn} (h : BaseLoads idx res insns) (hidx : res'.idx = res.idx)
    (huptr : res'.uptr = res.uptr) : BaseLoads idx res' insns := by
  unfold BaseLoads
  rw [hidx, huptr]
  exact h

theorem BaseLoads.member {insns : List Insn} {heap : Heap} {leftText text : String} (h : BaseLoads idx res insns)
    (hstep : accessMember heap leftText text res = .ok res') : BaseLoads idx res' insns :=
  h.step ((keepsBase_member heap leftText text).base hstep).1 (uptr_member hstep)

theorem BaseLoads.shift {insns : List Insn} {heap : Heap} {what kind : String} {num : Word} (h : BaseLoads idx res insns)
    (hstep : accessShift heap what kind num res = .ok res') : BaseLoads idx res' insns := by
  obtain ⟨o, -, rfl⟩ := accessShift_ok hstep
  exact h.step rfl rfl

theorem BaseLoads.add {insns : List Insn} {heap : Heap} {num : Word} (h : BaseLoads idx res insns)
    (hstep : accessAdd heap num res = .ok res') : BaseLoads idx res' insns := by
  obtain ⟨-, rfl⟩ | ⟨-, hshift⟩ := accessAdd_ok hstep
  · exact h
  · exact h.shift hshift

def AccessLoads (c : Compiler) (e : Expr) : Prop :=
  ∀ g res g', accessMemory c e g = .ok (res, g') →
    ∀ x ∈ e.baseVariables, ∀ idx, c.vars.idxOf? x = some idx → BaseLoads idx res g'.insns

def EvalLoads (c : Compiler) (e : Expr) : Prop :=
  ∀ g v g', eval c e g = .ok (v, g') → ∀ x ∈ e.variables, ∀ idx, c.vars.idxOf? x = some idx → LoadsArg idx g'.insns

/-- An access loads what the chain starts at. -/
theorem EvalLoads.of_access (hacc : e.isAccess) (hv : e.variables = e.baseVariables) (h : AccessLoads c e) :
    EvalLoads c e := by
  intro g v g' heval x hx idx hidx
  simp only [eval_access c hacc, bind_eq_ok] at heval
  obtain ⟨res, g₁, hres, haccess⟩ := heval
  exact access_loads (h g res g₁ hres x (hv ▸ hx) idx hidx) haccess

theorem EvalLoads.name (text : String) : EvalLoads c (.name text) := by
  intro g v g' h x hx idx hidx
  by_cases hconst : text ∈ constantNames
  · simp [Expr.variables, hconst] at hx
  obtain rfl : x = text := by simpa [Expr.variables, hconst] using hx
  simp only [constantNames, List.mem_cons, List.not_mem_nil, or_false, not_or] at hconst
  rw [eval, evalName, if_neg (by tauto), if_neg hconst.2.2, hidx] at h
  simp only [emitLoadArg, bind_eq_ok, alloc_eq_ok, emit_eq_ok, pure_eq_ok] at h
  obtain ⟨reg, _, ⟨ra, -, rfl⟩, _, _, rfl, -, rfl⟩ := h
  exact ⟨reg, List.mem_append_right _ (List.mem_singleton_self _)⟩

/-- Two operands, one behind the other. -/
theorem EvalLoads.pair {l r : EvalValue} {g₂ : Gen} (hl : EvalLoads c left) (hr : EvalLoads c right)
    (hleft : eval c left g = .ok (l, g₁)) (hright : eval c right g₁ = .ok (r, g₂))
    (hx : x ∈ left.variables ++ right.variables) (hidx : c.vars.idxOf? x = some idx) : LoadsArg idx g₂.insns := by
  rcases List.mem_append.mp hx with hx | hx
  · exact (hl g l g₁ hleft x hx idx hidx).grow (eval_grows hright)
  · exact hr g₁ r g₂ hright x hx idx hidx

theorem operator_grows {op : CodeM EvalValue} (hop : IsOperator c.heap op) (h : op g = .ok (v, g')) :
    ∃ own, g'.insns = g.insns ++ own := by
  obtain ⟨own, hown⟩ := Emits.operator hop h
  exact ⟨own, hown.insns⟩

theorem EvalLoads.unary {op : UnOp} {f : EvalValue → CodeM EvalValue} (hleft : EvalLoads c left)
    (hf : ∀ v, IsOperator c.heap (f v)) (hv : (Expr.un op left).variables = left.variables)
    (heval : eval c (.un op left) = (do
      let v ← wrapping "failed to evaluate operand" (eval c left)
      f v)) : EvalLoads c (.un op left) := by
  intro g v g' h x hx idx hidx
  rw [heval] at h
  simp only [bind_eq_ok, wrapping_eq_ok] at h
  obtain ⟨u, g₁, huok, hop⟩ := h
  exact (hleft g u g₁ huok x (hv ▸ hx) idx hidx).grow (operator_grows (hf u) hop)

/-- **A variable of an expression that compiles is loaded.** -/
theorem compile_loads (c : Compiler) (e : Expr) : AccessLoads c e ∧ EvalLoads c e := by
  induction e with
  | name text =>
    refine ⟨fun g res g' h x hx idx hidx => ?_, .name text⟩
    obtain rfl : x = text := by simpa [Expr.baseVariables] using hx
    simp only [accessMemory, accessName, hidx, lift_eq_ok, Except.ok.injEq] at h
    exact .inl (by rw [← h.1]; exact ⟨rfl, rfl⟩)
  | number text =>
    exact ⟨fun g res g' _ x hx => by simp [Expr.baseVariables] at hx,
      fun g v g' _ x hx => by simp [Expr.variables] at hx⟩
  | un op left ih =>
    cases op
    case paren =>
      refine ⟨fun g res g' h => ?_, fun g v g' h => ?_⟩
      · simp only [accessMemory] at h
        exact ih.1 g res g' h
      · simp only [eval] at h
        exact ih.2 g v g' h
    case addr =>
      have hloads : AccessLoads c (.un .addr left) := by
        intro g res g' h x hx idx hidx
        simp only [accessMemory, bind_eq_ok, wrapping_eq_ok, lift_eq_ok] at h
        obtain ⟨res₀, _, hleft, hstep, rfl⟩ := h
        obtain ⟨-, rfl⟩ := accessAddr_ok hstep
        exact (ih.1 g res₀ _ hleft x hx idx hidx).step rfl rfl
      exact ⟨hloads, .of_access rfl rfl hloads⟩
    case indir =>
      have hloads : AccessLoads c (.un .indir left) := by
        intro g res g' h x hx idx hidx
        simp only [accessMemory, bind_eq_ok, wrapping_eq_ok, lift_eq_ok] at h
        obtain ⟨res₀, _, hleft, hstep, rfl⟩ := h
        obtain ⟨o, -, rfl⟩ := accessIndir_ok hstep
        exact (ih.1 g res₀ _ hleft x hx idx hidx).step rfl rfl
      exact ⟨hloads, .of_access rfl rfl hloads⟩
    all_goals refine ⟨fun g res g' h => by simp [accessMemory] at h, ?_⟩
    case minus => exact ih.2.unary .minus rfl (by simp only [eval])
    case not => exact ih.2.unary .not rfl (by simp only [eval])
    case plus =>
      intro g v g' h
      simp only [eval] at h
      exact ih.2 g v g' h
    case preDec => exact ih.2.unary .preDec rfl (by simp only [eval])
    case preInc => exact ih.2.unary .preInc rfl (by simp only [eval])
    case twid => exact ih.2.unary .twid rfl (by simp only [eval])
  | bin op left right ihl ihr =>
    have heval : EvalLoads c (.bin op left right) := by
      intro g v g' h x hx idx hidx
      simp only [eval, bind_eq_ok, wrapping_eq_ok] at h
      obtain ⟨l, g₁, hleft, r, g₂, hright, hop⟩ := h
      exact (ihl.2.pair ihr.2 hleft hright hx hidx).grow (operator_grows (.binary op l r) hop)
    refine ⟨fun g res g' h x hx idx hidx => ?_, heval⟩
    cases op
    case and =>
      simp only [accessMemory_and, bind_eq_ok, wrapping_eq_ok, lift_eq_ok] at h
      obtain ⟨v, _, hval, -, rfl⟩ := h
      exact .inr (heval g v _ hval x hx idx hidx)
    case or =>
      simp only [accessMemory_or, bind_eq_ok, wrapping_eq_ok, lift_eq_ok] at h
      obtain ⟨v, _, hval, -, rfl⟩ := h
      exact .inr (heval g v _ hval x hx idx hidx)
    case add =>
      rw [Expr.baseVariables] at hx
      cases hln : left.numberText? with
      | some text =>
        simp only [accessMemory, hln, bind_eq_ok, wrapping_eq_ok, lift_eq_ok] at h
        obtain ⟨num, g₁, -, res₀, _, hright, hstep, rfl⟩ := h
        rw [(names_of_number hln).2.1, List.nil_append] at hx
        exact (ihr.1 g₁ res₀ _ hright x hx idx hidx).add hstep
      | none =>
        cases hrn : right.numberText? with
        | none => simp [accessMemory, hln, hrn] at h
        | some text =>
          simp only [accessMemory, hln, hrn, bind_eq_ok, wrapping_eq_ok, lift_eq_ok] at h
          obtain ⟨num, g₁, -, res₀, _, hleft, hstep, rfl⟩ := h
          rw [(names_of_number hrn).2.1, List.append_nil] at hx
          exact (ihl.1 g₁ res₀ _ hleft x hx idx hidx).add hstep
    case sub =>
      cases hrn : right.numberText? with
      | none => simp [accessMemory, hrn] at h
      | some text =>
        simp only [accessMemory, hrn, bind_eq_ok, wrapping_eq_ok, lift_eq_ok] at h
        obtain ⟨num, g₁, -, res₀, _, hleft, hstep, rfl⟩ := h
        exact (ihl.1 g₁ res₀ _ hleft x hx idx hidx).shift (accessSub_ok hstep)
    all_goals simp [accessMemory] at h
  | cond e left right ihe ihl ihr =>
    refine ⟨fun g res g' h => by simp [accessMemory] at h, fun g v g' h x hx idx hidx => ?_⟩
    simp only [eval, bind_eq_ok, wrapping_eq_ok] at h
    obtain ⟨u, g₁, hcond, l, g₂, hleft, r, g₃, hright, hop⟩ := h
    have hgrow := operator_grows (c := c) (.cond u l r) hop
    rcases List.mem_append.mp hx with hx | hx
    · exact ((ihe.2.pair ihl.2 hcond hleft hx hidx).grow (eval_grows hright)).grow hgrow
    · exact (ihr.2 g₂ r g₃ hright x hx idx hidx).grow hgrow
  | cast type left ih =>
    refine ⟨fun g res g' h x hx idx hidx => ?_, fun g v g' h x hx idx hidx => ?_⟩
    · cases hln : left.numberText? with
      | some text =>
        rw [Expr.baseVariables, (names_of_number hln).2.1] at hx
        exact absurd hx List.not_mem_nil
      | none =>
        simp only [accessMemory, hln, bind_eq_ok, wrapping_eq_ok, lift_eq_ok] at h
        obtain ⟨res₀, _, hleft, hstep, rfl⟩ := h
        obtain ⟨t, -, rfl⟩ := accessCast_ok hstep
        exact (ih.1 g res₀ _ hleft x hx idx hidx).step rfl rfl
    · obtain ⟨u, g₁, hleft⟩ := eval_cast_operand h
      obtain ⟨t, ht⟩ := eval_cast_type h
      refine (ih.2 g u g₁ hleft x hx idx hidx).grow ?_
      obtain ⟨-, -, -, -, hins, -⟩ | ⟨-, -, rfl⟩ := eval_cast hleft ht h
      · exact ⟨_, hins⟩
      · exact ⟨[], (List.append_nil _).symm⟩
  | dot left text ih =>
    have hloads : AccessLoads c (.dot left text) := by
      intro g res g' h x hx idx hidx
      simp only [accessMemory, bind_eq_ok, lift_eq_ok] at h
      obtain ⟨res₀, _, hleft, hstep, rfl⟩ := h
      exact (ih.1 g res₀ _ hleft x hx idx hidx).member hstep
    exact ⟨hloads, .of_access rfl rfl hloads⟩
  | arrow left text ih =>
    have hloads : AccessLoads c (.arrow left text) := by
      intro g res g' h x hx idx hidx
      simp only [accessMemory, bind_eq_ok, lift_eq_ok] at h
      obtain ⟨res₀, _, hleft, hstep, rfl⟩ := h
      exact (ih.1 g res₀ _ hleft x hx idx hidx).member hstep
    exact ⟨hloads, .of_access rfl rfl hloads⟩
  | index left right ih _ =>
    have hloads : AccessLoads c (.index left right) := by
      intro g res g' h x hx idx hidx
      simp only [accessMemory, bind_eq_ok, wrapping_eq_ok, lift_eq_ok] at h
      obtain ⟨res₀, _, hleft, hstep, rfl⟩ := h
      obtain ⟨o, -, rfl⟩ := accessIndex_ok hstep
      exact (ih.1 g res₀ _ hleft x hx idx hidx).step rfl rfl
    exact ⟨hloads, .of_access rfl rfl hloads⟩
  | call left list _ =>
    exact ⟨fun g res g' h => by simp [accessMemory] at h, fun g v g' h => by simp [eval] at h⟩
  | other op =>
    exact ⟨fun g res g' h => by simp [accessMemory] at h, fun g v g' h => by simp [eval] at h⟩

end Loads

/-! ## The arguments of a call -/

/-- A literal or a packet type: an argument that is not evaluated. -/
def PlainArgument (a : Expr) : Prop := (∃ text, a = .number text) ∨ ∃ text ∈ allowedPktTypes, a = .name text

/-- Where the name of a function says what is read, its size and its name
are in the value. -/
structure NamedSize (fnName : String) (val : FuncCallValue) : Prop where
  addr : val.typ = .addr →
    val.addr = fnName ∧ ¬ (fnName = "port" ∨ fnName = "port2") ∧ addrSizes.lookup fnName = some val.dataSize
  port : val.typ = .port →
    val.port = fnName ∧ (fnName = "port" ∨ fnName = "port2") ∧ addrSizes.lookup fnName = some val.dataSize
  int : val.typ = .int → intSizes.lookup fnName = some val.dataSize

/-- A call keeps its first argument for the evaluation and reads the
others. -/
structure ReadsRest (fnName : String) (list : List Expr) (val val' : FuncCallValue) : Prop where
  expr : val'.expr = val.expr
  rest : ∀ a ∈ list.tail, PlainArgument a
  named : NamedSize fnName val'

section Calls

variable {fnName place : String} {list : List Expr} {val val' : FuncCallValue} {a : Expr} {n : Word}

/-- The functions with a size of their own. -/
theorem NamedSize.other (h : val.typ ≠ .addr ∧ val.typ ≠ .port ∧ val.typ ≠ .int) : NamedSize fnName val :=
  ⟨fun ht => absurd ht h.1, fun ht => absurd ht h.2.1, fun ht => absurd ht h.2.2⟩

theorem numberArgument_ok (h : numberArgument fnName place a = .ok n) : PlainArgument a := by
  unfold numberArgument parseExprNumber at h
  cases a with
  | number text => exact .inl ⟨text, rfl⟩
  | _ => simp [Expr.numberText?] at h

theorem pktTypeArgument_ok {text : String} {pkt : String} (h : pktTypeArgument fnName place text = .ok pkt) :
    PlainArgument (.name text) := by
  unfold pktTypeArgument at h
  split at h <;> cases h
  rename_i hmem
  exact .inr ⟨text, hmem, rfl⟩

theorem checkSize_ok (h : checkSize fnName val = .ok val') : val' = val := by
  unfold checkSize at h
  split at h <;> cases h
  rfl

theorem bufCall_ok (h : bufCall fnName list val = .ok val') : ReadsRest fnName list val val' := by
  have htyp : (if fnName = "slice" then EvalResultType.slice else if fnName = "hex" then .hex else .buf) ≠ .addr ∧
      (if fnName = "slice" then EvalResultType.slice else if fnName = "hex" then .hex else .buf) ≠ .port ∧
      (if fnName = "slice" then EvalResultType.slice else if fnName = "hex" then .hex else .buf) ≠ .int := by
    split
    · decide
    · split <;> decide
  unfold bufCall at h
  dsimp only at h
  split at h
  · simp only [except_bind_ok] at h
    obtain ⟨n, hsecond, h⟩ := h
    rw [checkSize_ok h]
    exact ⟨rfl, by simpa using numberArgument_ok hsecond, .other htyp⟩
  · simp only [except_bind_ok] at h
    obtain ⟨n, hsecond, k, hthird, h⟩ := h
    rw [checkSize_ok h]
    exact ⟨rfl, by simpa using ⟨numberArgument_ok hsecond, numberArgument_ok hthird⟩, .other htyp⟩
  · cases h

theorem strCall_ok (h : strCall fnName list val = .ok val') : ReadsRest fnName list val val' := by
  unfold strCall at h
  split at h
  · cases h
    exact ⟨rfl, by simp, .other (by simp)⟩
  · simp only [except_bind_ok] at h
    obtain ⟨n, hsecond, h⟩ := h
    rw [checkSize_ok h]
    exact ⟨rfl, by simpa using numberArgument_ok hsecond, .other (by simp)⟩
  · cases h

theorem pktCall_ok (h : pktCall fnName list val = .ok val') : ReadsRest fnName list val val' := by
  unfold pktCall at h
  split at h
  · simp only [except_bind_ok] at h
    obtain ⟨n, hsecond, h⟩ := h
    rw [checkSize_ok h]
    exact ⟨rfl, by simpa using numberArgument_ok hsecond, .other (by simp)⟩
  · simp only [except_bind_ok] at h
    obtain ⟨n, hsecond, h⟩ := h
    split at h
    · simp only [except_bind_ok] at h
      obtain ⟨pkt, hpkt, h⟩ := h
      rw [checkSize_ok h]
      exact ⟨rfl, by simpa using ⟨numberArgument_ok hsecond, pktTypeArgument_ok hpkt⟩, .other (by simp)⟩
    · rename_i text
      split at h
      · cases h
      · rw [checkSize_ok h]
        exact ⟨rfl, by simpa using ⟨numberArgument_ok hsecond, .inl ⟨text, rfl⟩⟩, .other (by simp)⟩
    · cases h
  · simp only [except_bind_ok] at h
    obtain ⟨n, hsecond, k, hthird, h⟩ := h
    split at h
    · simp only [except_bind_ok] at h
      obtain ⟨pkt, hpkt, h⟩ := h
      rw [checkSize_ok h]
      exact ⟨rfl, by simpa using ⟨numberArgument_ok hsecond, numberArgument_ok hthird, pktTypeArgument_ok hpkt⟩,
        .other (by simp)⟩
    · cases h
  · cases h

theorem offsetArgument_ok (h : offsetArgument fnName list = .ok n) : ∀ a ∈ list.tail, PlainArgument a := by
  unfold offsetArgument at h
  split at h
  · simp
  · simpa using numberArgument_ok h
  · cases h

theorem compileFuncCall_reads (h : compileFuncCall fnName list = .ok val) :
    ∃ first rest, list = first :: rest ∧ ReadsRest fnName list { expr := first } val := by
  cases list with
  | nil =>
    simp only [compileFuncCall, firstArgument, except_bind_ok] at h
    obtain ⟨_, h, -⟩ := h
    cases h
  | cons first rest =>
    refine ⟨first, rest, rfl, ?_⟩
    simp only [compileFuncCall, firstArgument, except_bind_ok, Except.ok.injEq, exists_eq_left'] at h
    split at h
    · exact bufCall_ok h
    split at h
    · exact strCall_ok h
    split at h
    · exact pktCall_ok h
    split at h
    · rename_i hsize
      simp only [except_bind_ok] at h
      obtain ⟨n, hoff, h⟩ := h
      split at h <;> rename_i hport <;> cases h
      · exact ⟨rfl, offsetArgument_ok hoff, ⟨nofun, fun _ => ⟨rfl, hport, hsize⟩, nofun⟩⟩
      · exact ⟨rfl, offsetArgument_ok hoff, ⟨fun _ => ⟨rfl, hport, hsize⟩, nofun, nofun⟩⟩
    split at h
    · rename_i hsize
      simp only [except_bind_ok] at h
      obtain ⟨n, hoff, h⟩ := h
      cases h
      exact ⟨rfl, offsetArgument_ok hoff, ⟨nofun, nofun, fun _ => hsize⟩⟩
    split at h
    · split at h <;> cases h
      rename_i heq
      cases heq
      exact ⟨rfl, by simp, .other (by split <;> simp)⟩
    · cases h

/-- **The arguments of a call** behind the first one are literals and
packet types. -/
theorem compileFuncCall_ok (h : compileFuncCall fnName list = .ok val) :
    ∃ rest, list = val.expr :: rest ∧ ∀ a ∈ rest, PlainArgument a := by
  obtain ⟨first, rest, rfl, hreads⟩ := compileFuncCall_reads h
  exact ⟨rest, by rw [hreads.expr], hreads.rest⟩

end Calls
/-! ## Output expressions and filters -/

/-- An expression that compiles for some function, as an output argument or
as a filter. -/
inductive Accepted (e : Expr) : Prop
  | output (c : Compiler) (opts : CompileExprOptions) (res : EvalResult) (h : compileEval c opts e = .ok res)
  | filter (c : Compiler) (expr : String) (g : Gen) (h : compile c expr e filterGen = .ok ((), g))

section Whole

variable {c : Compiler} {opts : CompileExprOptions} {e : Expr} {res : EvalResult} {call : FuncCallValue}
  {fnName x : String} {idx : Nat}

/-- The expression that is evaluated: behind `*`, the first argument of a
call, or the whole. -/
theorem evaluating_cases (h : evaluating e = .ok (call, fnName)) :
    e = .un .indir call.expr ∨
    (∃ rest, e = .call (.name fnName) (call.expr :: rest) ∧ ∀ a ∈ rest, PlainArgument a) ∨
    (e = call.expr ∧ e.loaded = e.variables ∧ e.builtins = e.constants) := by
  unfold evaluating at h
  split at h
  · cases h
    exact .inl rfl
  · split at h <;> cases h
    rename_i hcall
    obtain ⟨rest, hlist, hrest⟩ := compileFuncCall_ok hcall
    exact .inr (.inl ⟨rest, by rw [hlist], hrest⟩)
  · cases h
  · rename_i hindir _ hcall
    cases h
    refine .inr (.inr ⟨rfl, ?_, ?_⟩)
    · unfold Expr.loaded
      split
      · exact absurd rfl (hindir _)
      · exact absurd rfl (hcall _ _)
      · rfl
    · unfold Expr.builtins
      split
      · exact absurd rfl (hindir _)
      · exact absurd rfl (hcall _ _)
      · rfl

theorem mem_namesOf {rest : List Expr} (h : ∀ a ∈ rest, PlainArgument a) :
    x ∈ namesOf rest ↔ x ∈ rest.filterMap Expr.name? := by
  induction rest with
  | nil => simp [namesOf]
  | cons a rest ih =>
    have hrest := ih fun a ha => h a (List.mem_cons_of_mem _ ha)
    obtain ⟨text, rfl⟩ | ⟨text, -, rfl⟩ := h a List.mem_cons_self
    · simpa [namesOf, Expr.names, Expr.name?] using hrest
    · simp [namesOf, Expr.names, Expr.name?, hrest]

/-- **The names of an accepted expression** are those of the parameters it
loads and those that are built in. -/
theorem names_iff (hacc : Accepted e) (x : String) : x ∈ e.names ↔ x ∈ e.loaded ∨ x ∈ e.builtins := by
  cases hacc with
  | output c opts res h =>
    obtain ⟨ra, call, fnName, val, g, checked, -, hcall, heval, -⟩ := compileEval_ok h
    have hnames := (compile_names c call.expr).2 _ val g heval
    obtain he | ⟨rest, he, hrest⟩ | ⟨he, hloaded, hbuiltins⟩ := evaluating_cases hcall
    · rw [he]
      exact hnames x
    · rw [he]
      simp only [Expr.names, Expr.loaded, Expr.builtins, namesOf, Expr.name?, List.head?_cons, Option.elim_some,
        List.tail_cons, List.mem_append, hnames, mem_namesOf hrest, Option.toList_some]
      tauto
    · rw [hloaded, hbuiltins, he]
      exact hnames x
  | filter c expr g h =>
    obtain ⟨v, g₁, htop, heval, -, -⟩ := compile_inv h
    have hnames := (compile_names c e).2 _ v g₁ heval x
    unfold supportedOp at htop
    split at htop <;> first | exact hnames | cases htop

/-- **The variables of an accepted expression** are the parameters that its
code loads. -/
theorem compileEval_loads (h : compileEval c opts e = .ok res) (hx : x ∈ e.loaded) (hidx : c.vars.idxOf? x = some idx) :
    LoadsArg idx res.insns := by
  obtain ⟨ra, call, fnName, val, g, checked, -, hcall, heval, -, -, rfl⟩ := compileEval_ok h
  refine (compile_loads c call.expr).2 _ val g heval x ?_ idx hidx
  obtain he | ⟨rest, he, -⟩ | ⟨he, hloaded, -⟩ := evaluating_cases hcall
  · rw [he] at hx
    exact hx
  · rw [he] at hx
    exact hx
  · rw [hloaded, he] at hx
    exact hx

end Whole

end Bpfsnoop.CC
