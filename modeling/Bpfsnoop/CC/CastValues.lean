/-
Bpfsnoop.CC.CastValues — casts to integers, and literals cast to pointers.

A cast changes the type of an operand and nothing else: the content of a
register stays, and so does the bitfield member. A constant is moved into a
register, as a number of 32 bits. A literal cast to a pointer has a second
way, the base of a memory access, where the address 0 stands for no literal
at all and the first parameter is loaded.
-/
import Bpfsnoop.CC.OperatorValues
import Bpfsnoop.CC.EvalTheorems
import Bpfsnoop.CC.MemberComparison

namespace Bpfsnoop.CC

open Ebpf Btf Reg

/-! ## Casts to integers -/

/-- An integer type of `size` bytes. -/
structure IsInt (t : BtfType) (size : Nat) : Prop where
  int : ∃ name encoding, underlyingType t = .int name size encoding
  width : size = 1 ∨ size = 2 ∨ size = 4 ∨ size = 8

/-- The result of a cast of `u`: a plain value of type `t`, of `size` bytes,
with the low bytes of the operand. -/
structure CastsTo (t : BtfType) (size : Nat) (u : EvalValue) (g₁ g' : Gen) (v : EvalValue) (K : Kernel)
    (s : State) : Prop where
  typ : v.typ = .regBtf
  btf : v.btf = some t
  plain : isMemberBitfield v.mem = false
  value : Yields g₁ g' v K s (BitVec.ofNat 64 ((u.at s.regs).word.toNat % 2 ^ (8 * size)))

/-- A constant whose low bytes are the number of 32 bits that it is moved
as. -/
def ConstKept (size : Nat) (n : Word) : Prop :=
  if size = 8 then -2 ^ 31 ≤ n.toInt ∧ n.toInt < 2 ^ 31
  else n.toNat % 2 ^ 32 < 2 ^ 31 ∧ n.toNat % 2 ^ 32 < 2 ^ (8 * size)

/-- No bitfield, and nothing to cut off. -/
def CastKeeps (size : Nat) (u : EvalValue) (regs : Reg → Word) : Prop :=
  isMemberBitfield u.mem = false ∧
    if u.typ = .num then ConstKept size u.num else (regs u.reg).toNat < 2 ^ (8 * size)

section Casts

variable {c : Compiler} {type : CType} {left : Expr} {t : BtfType} {size : Nat} {u v : EvalValue}
  {g g₁ g' : Gen}

/-- A constant in its register. -/
theorem yields_movImm {n w : Word} {K : Kernel} {s : State} (hv : v.typ = .regBtf)
    (hins : g'.insns = g₁.insns ++ [(Asm.movImm v.reg n : Insn)]) :
    Yields g₁ g' v K s w ↔ int32 n = w := by
  have hexec : exec K [(Asm.movImm v.reg n : Insn)] .run s = .cont .run (s.set v.reg (int32 n)) := rfl
  constructor
  · rintro ⟨frag, s', hins', hexec', -, hword⟩
    obtain rfl : frag = _ := List.append_cancel_left (hins'.symm.trans hins)
    rw [hexec, Outcome.cont.injEq] at hexec'
    rw [← hword, at_word_reg hv, ← hexec'.2, State.set_regs_self]
  · intro hword
    refine ⟨_, _, hins, hexec, .inr hv, ?_⟩
    rw [at_word_reg hv, State.set_regs_self, hword]

/-- No code leaves a register as it is. -/
theorem yields_nothing {w : Word} {K : Kernel} {s : State} (hv : v.typ = .regBtf) :
    Yields g g v K s w ↔ s.regs v.reg = w := by
  constructor
  · rintro ⟨frag, s', hins, hexec, -, hword⟩
    obtain rfl : frag = [] := List.append_cancel_left (hins.symm.trans (List.append_nil _).symm)
    rw [exec_nil, Outcome.cont.injEq] at hexec
    rw [← hword, at_word_reg hv, hexec.2]
  · intro hword
    exact ⟨[], s, (List.append_nil _).symm, rfl, .inr hv, by rw [at_word_reg hv, hword]⟩

theorem toNat_int32 (n : Word) : (int32 n).toNat =
    if n.toNat % 2 ^ 32 < 2 ^ 31 then n.toNat % 2 ^ 32 else n.toNat % 2 ^ 32 + (2 ^ 64 - 2 ^ 32) := by
  have hlow : (n.setWidth 32).toNat = n.toNat % 2 ^ 32 := BitVec.toNat_setWidth 32 n
  rw [int32, BitVec.toNat_signExtend, BitVec.toNat_setWidth, hlow, BitVec.msb_eq_decide, hlow]
  by_cases hsign : n.toNat % 2 ^ 32 < 2 ^ 31
  · rw [if_neg (by simp; omega), if_pos hsign]
    omega
  · rw [if_pos (by simp; omega), if_neg hsign]
    omega

/-- When moving a constant is cutting it to size. -/
theorem int32_eq_low_iff (hwidth : size = 1 ∨ size = 2 ∨ size = 4 ∨ size = 8) (n : Word) :
    int32 n = BitVec.ofNat 64 (n.toNat % 2 ^ (8 * size)) ↔ ConstKept size n := by
  have hn := n.isLt
  rw [← BitVec.toNat_inj, BitVec.toNat_ofNat, toNat_int32, ConstKept]
  by_cases h8 : size = 8
  · rw [if_pos h8, h8, BitVec.toInt_eq_toNat_cond]
    split <;> split <;> omega
  · rw [if_neg h8]
    obtain rfl | rfl | rfl | rfl := hwidth
    · split <;> omega
    · split <;> omega
    · split <;> omega
    · exact absurd rfl h8

/-- **A cast to an integer** leaves a plain value of its type, with the low
bytes of the operand, if and only if the operand is no bitfield and there is
nothing to cut off. -/
theorem cast_iff (hu : eval c left g = .ok (u, g₁)) (hres : u.Resolved) (ht : cc2btf c type = .ok t)
    (hint : IsInt t size) (h : eval c (.cast type left) g = .ok (v, g')) (K : Kernel) (s : State) :
    CastsTo t size u g₁ g' v K s ↔ CastKeeps size u s.regs := by
  unfold CastKeeps
  obtain ⟨hnum, hv, hbtf, hmem, hins, -⟩ | ⟨hnum, rfl, rfl⟩ := eval_cast hu ht h
  · rw [if_pos hnum, ← int32_eq_low_iff hint.width, ← hmem]
    have hyields := @yields_movImm v g₁ g' u.num (BitVec.ofNat 64 (u.num.toNat % 2 ^ (8 * size))) K s hv hins
    constructor
    · intro hcast
      have hvalue := hcast.value
      rw [at_word_num hnum] at hvalue
      exact ⟨hcast.plain, hyields.mp hvalue⟩
    · intro hkeeps
      exact ⟨hv, hbtf, hkeeps.1, by rw [at_word_num hnum]; exact hyields.mpr hkeeps.2⟩
  · have hreg : u.typ = .regBtf := hres.resolve_left hnum
    rw [if_neg hnum]
    have hcut : s.regs u.reg = BitVec.ofNat 64 ((s.regs u.reg).toNat % 2 ^ (8 * size)) ↔
        (s.regs u.reg).toNat < 2 ^ (8 * size) := by
      have hlt := (s.regs u.reg).isLt
      have hmod : (s.regs u.reg).toNat % 2 ^ (8 * size) ≤ (s.regs u.reg).toNat := Nat.mod_le _ _
      rw [← BitVec.toNat_inj, BitVec.toNat_ofNat, Nat.mod_eq_of_lt (by omega)]
      exact ⟨fun heq => heq ▸ Nat.mod_lt _ (Nat.two_pow_pos _), fun hlt => (Nat.mod_eq_of_lt hlt).symm⟩
    have hyields := @yields_nothing { u with btf := some t } g'
      (BitVec.ofNat 64 ((s.regs u.reg).toNat % 2 ^ (8 * size))) K s hreg
    constructor
    · intro hcast
      have hvalue := hcast.value
      rw [at_word_reg hreg] at hvalue
      exact ⟨hcast.plain, hcut.mp (hyields.mp hvalue)⟩
    · intro hkeeps
      exact ⟨hreg, rfl, hkeeps.1, by rw [at_word_reg hreg]; exact hyields.mpr (hcut.mpr hkeeps.2)⟩

end Casts

/-! ## Literals as pointers -/

/-- The literal at the base of an access: the one that `accessMemory` casts
first. -/
def Expr.literal? : Expr → Option String
  | .cast _ left =>
    match left.numberText? with
    | some text => some text
    | none => left.literal?
  | .dot left _ | .arrow left _ | .index left _ => left.literal?
  | .un .paren left | .un .addr left | .un .indir left => left.literal?
  | .bin .add left right =>
    match left.numberText?, right.numberText? with
    | some _, _ => right.literal?
    | none, some _ => left.literal?
    | none, none => none
  | .bin .sub left _ => left.literal?
  | _ => none

/-- The code between two states leaves `w` in `reg`. -/
def Puts (g g' : Gen) (reg : Reg) (K : Kernel) (s : State) (w : Word) : Prop :=
  ∃ frag s', g'.insns = g.insns ++ frag ∧ exec K frag .run s = .cont .run s' ∧ s'.regs reg = w

section Literals

variable {c : Compiler} {e left right : Expr} {res res' : AccessResult} {text : String} {n : Word}
  {g g₀ g₁ g' : Gen}

theorem parseUnsigned_minus (rest : List Char) : parseUnsigned ('-' :: rest) = .error .errSyntax := by
  simp [parseUnsigned, parseUint, parseUint.go, digit?, quote]

theorem parseUnsigned_plus (rest : List Char) : parseUnsigned ('+' :: rest) = .error .errSyntax := by
  simp [parseUnsigned, parseUint, parseUint.go, digit?, quote]

/-- A literal has no sign. -/
theorem parseNumber_of_parseUnsigned (h : parseUnsigned text.toList = .ok n) : parseNumber text = .ok n := by
  unfold parseNumber
  cases htext : text.toList with
  | nil =>
    rw [htext] at h
    simp [h]
  | cons first rest =>
    rw [htext] at h
    have hminus : first ≠ '-' := by
      rintro rfl
      rw [parseUnsigned_minus] at h
      cases h
    have hplus : first ≠ '+' := by
      rintro rfl
      rw [parseUnsigned_plus] at h
      cases h
    simp [hminus, hplus, h]

/-! ### The steps keep the literal -/

/-- `accessMemory` on a literal, and on what is built on it. -/
theorem accessMemory_literal (hlit : e.literal? = some text) (hn : parseUnsigned text.toList = .ok n)
    (h : accessMemory c e g = .ok (res, g')) : res.uptr = n ∧ res.idx = some 0 ∧ g' = g := by
  induction e generalizing res g g' with
  | name _ => simp [Expr.literal?] at hlit
  | number _ => simp [Expr.literal?] at hlit
  | cond _ _ _ _ _ _ => simp [Expr.literal?] at hlit
  | call _ _ _ => simp [Expr.literal?] at hlit
  | other _ => simp [Expr.literal?] at hlit
  | cast type left ih =>
    simp only [accessMemory] at h
    cases hln : left.numberText? with
    | some number =>
      simp only [Expr.literal?, hln, Option.some.injEq] at hlit
      subst hlit
      simp only [hln, hn, bind_eq_ok, wrapping_eq_ok, lift_eq_ok, pure_eq_ok, Except.ok.injEq] at h
      obtain ⟨_, _, ⟨rfl, rfl⟩, _, _, ⟨rfl, rfl⟩, hstep, rfl⟩ := h
      obtain ⟨t, -, rfl⟩ := accessCast_ok hstep
      exact ⟨rfl, rfl, rfl⟩
    | none =>
      simp only [Expr.literal?, hln] at hlit
      simp only [hln, bind_eq_ok, wrapping_eq_ok, lift_eq_ok] at h
      obtain ⟨res₀, _, hleft, hstep, rfl⟩ := h
      obtain ⟨t, -, rfl⟩ := accessCast_ok hstep
      exact (ih hlit hleft :)
  | dot left member ih =>
    simp only [accessMemory, bind_eq_ok, lift_eq_ok] at h
    obtain ⟨res₀, _, hleft, hstep, rfl⟩ := h
    rw [uptr_member hstep, ((keepsBase_member c.heap left.text member).base hstep).1]
    exact (ih hlit hleft :)
  | arrow left member ih =>
    simp only [accessMemory, bind_eq_ok, lift_eq_ok] at h
    obtain ⟨res₀, _, hleft, hstep, rfl⟩ := h
    rw [uptr_member hstep, ((keepsBase_member c.heap left.text member).base hstep).1]
    exact (ih hlit hleft :)
  | index left right ih _ =>
    simp only [accessMemory, bind_eq_ok, wrapping_eq_ok, lift_eq_ok] at h
    obtain ⟨res₀, _, hleft, hstep, rfl⟩ := h
    obtain ⟨o, -, rfl⟩ := accessIndex_ok hstep
    exact (ih hlit hleft :)
  | un op left ih =>
    cases op <;> simp only [accessMemory, bind_eq_ok, wrapping_eq_ok, lift_eq_ok, fail_eq_ok] at h
    case paren => exact ih hlit h
    case addr =>
      obtain ⟨res₀, _, hleft, hstep, rfl⟩ := h
      obtain ⟨-, rfl⟩ := accessAddr_ok hstep
      exact (ih hlit hleft :)
    case indir =>
      obtain ⟨res₀, _, hleft, hstep, rfl⟩ := h
      obtain ⟨o, -, rfl⟩ := accessIndir_ok hstep
      exact (ih hlit hleft :)
  | bin op left right ihl ihr =>
    cases op
    case add =>
      simp only [accessMemory] at h
      cases hln : left.numberText? with
      | some number =>
        simp only [Expr.literal?, hln] at hlit
        simp only [hln, accessNumber, bind_eq_ok, wrapping_eq_ok, lift_eq_ok] at h
        obtain ⟨num, _, ⟨-, rfl⟩, res₀, _, hright, hstep, rfl⟩ := h
        obtain ⟨-, rfl⟩ | ⟨-, hshift⟩ := accessAdd_ok hstep
        · exact (ihr hlit hright :)
        · obtain ⟨o, -, rfl⟩ := accessShift_ok hshift
          exact (ihr hlit hright :)
      | none =>
        cases hrn : right.numberText? with
        | none => simp [Expr.literal?, hln, hrn] at hlit
        | some number =>
          simp only [Expr.literal?, hln, hrn] at hlit
          simp only [hln, hrn, accessNumber, bind_eq_ok, wrapping_eq_ok, lift_eq_ok] at h
          obtain ⟨num, _, ⟨-, rfl⟩, res₀, _, hleft, hstep, rfl⟩ := h
          obtain ⟨-, rfl⟩ | ⟨-, hshift⟩ := accessAdd_ok hstep
          · exact (ihl hlit hleft :)
          · obtain ⟨o, -, rfl⟩ := accessShift_ok hshift
            exact (ihl hlit hleft :)
    case sub =>
      simp only [accessMemory] at h
      cases hrn : right.numberText? with
      | none => simp [hrn] at h
      | some number =>
        simp only [hrn, accessNumber, bind_eq_ok, wrapping_eq_ok, lift_eq_ok] at h
        obtain ⟨num, _, ⟨-, rfl⟩, res₀, _, hleft, hstep, rfl⟩ := h
        obtain ⟨o, -, rfl⟩ := accessShift_ok (accessSub_ok hstep)
        exact (ihl hlit hleft :)
    all_goals simp [Expr.literal?] at hlit

/-! ### The two ways -/

/-- The base of an access on a literal, and what its code leaves. -/
theorem literal_base {reg : Reg} (hlit : e.literal? = some text) (hn : parseUnsigned text.toList = .ok n)
    (hres : accessMemory c e g = .ok (res, g₀)) (hbase : accessBase res g₀ = .ok (reg, g₁)) (K : Kernel)
    (s : State) (w : Word) :
    Puts g₀ g₁ reg K s w ↔ (if n = 0 then argWord K.mem (s.regs argsReg) 0 else int32 n) = w := by
  obtain ⟨huptr, hidx, -⟩ := accessMemory_literal hlit hn hres
  obtain ⟨ra, -, rfl⟩ := accessBase_inv hidx hbase
  have hexec : exec K [((if res.uptr = 0 then Asm.loadMem reg argsReg (int16 (BitVec.ofNat 64 (0 * 8))) .dword
        else Asm.movImm reg res.uptr : Op) : Insn)] .run s =
      .cont .run (s.set reg (if n = 0 then argWord K.mem (s.regs argsReg) 0 else int32 n)) := by
    rw [huptr]
    split <;> rfl
  constructor
  · rintro ⟨frag, s', hins, hexec', hw⟩
    obtain rfl : frag = _ := List.append_cancel_left (hins.symm.trans rfl)
    rw [hexec, Outcome.cont.injEq] at hexec'
    rw [← hw, ← hexec'.2, State.set_regs_self]
  · intro hw
    exact ⟨_, _, rfl, hexec, by rw [State.set_regs_self, hw]⟩

/-- The value of a literal cast to a pointer. -/
theorem literal_value {base : CType} {v : EvalValue} (hn : parseUnsigned text.toList = .ok n)
    (h : eval c (.cast (.ptr base) (.number text)) g = .ok (v, g')) (K : Kernel) (s : State) (w : Word) :
    Yields g g' v K s w ↔ int32 n = w := by
  have hnumber : eval c (.number text) g = .ok ({ typ := .num, num := n }, g) := by
    simp only [eval, bind_eq_ok, wrapping_eq_ok, lift_eq_ok, pure_eq_ok, parseNumber_of_parseUnsigned hn]
    exact ⟨n, g, ⟨rfl, rfl⟩, rfl, rfl⟩
  obtain ⟨t, ht⟩ := eval_cast_type h
  obtain ⟨-, hv, -, -, hins, -⟩ | ⟨hnum, -, -⟩ := eval_cast hnumber ht h
  · exact yields_movImm hv hins
  · exact absurd rfl hnum

/-- **A literal as a pointer.** The value of `(T*)N` is `N`, and `N` is the
base of an access on it, whatever the registers and the memory hold, if and
only if `N` is a signed number of 32 bits other than 0. -/
theorem literal_pointer_iff {base : CType} {v : EvalValue} {reg : Reg} {gm : Gen}
    (hn : parseUnsigned text.toList = .ok n) (hlit : e.literal? = some text)
    (hval : eval c (.cast (.ptr base) (.number text)) g = .ok (v, g'))
    (hmem : accessMemory c e gm = .ok (res, g₀)) (hbase : accessBase res g₀ = .ok (reg, g₁)) :
    (∀ K s, Yields g g' v K s n ∧ Puts g₀ g₁ reg K s n) ↔
      n ≠ 0 ∧ -2 ^ 31 ≤ n.toInt ∧ n.toInt < 2 ^ 31 := by
  rw [← int32_eq_self_iff]
  constructor
  · intro hall
    have hone := hall (onesKernel (.empty .probeRead)) (holding 0 0)
    refine ⟨fun hz => ?_, (literal_value hn hval _ _ _).mp hone.1⟩
    -- memory that is all ones is no 0
    have hput := (literal_base hlit hn hmem hbase _ _ _).mp hone.2
    rw [if_pos hz, hz] at hput
    exact absurd hput (by decide)
  · intro hfits K s
    refine ⟨(literal_value hn hval K s n).mpr hfits.2, (literal_base hlit hn hmem hbase K s n).mpr ?_⟩
    rw [if_neg hfits.1]
    exact hfits.2

end Literals

/-! ### Examples -/

/-- The parameter `u64 x`, and `u8`. -/
def castCompiler : Compiler :=
  { Compiler.empty .probeRead with
    vars := ["x"]
    btfs := [.int "u64" 8 .unsigned]
    krnlSpec :=
      { anyTypeByName := fun name => if name = "u8" then .ok (.int "u8" 1 .unsigned) else .error .notFound
        typeID := fun _ => none
        all := [] } }

theorem isInt_u8 : IsInt (.int "u8" 1 .unsigned) 1 := ⟨⟨_, _, rfl⟩, .inl rfl⟩

/-- `(u8)x` of 511 is 511. -/
theorem byte_cast_not_cut : ∃ u g₁ v g', eval castCompiler (.name "x") noCode = .ok (u, g₁) ∧
    eval castCompiler (.cast (.other "u8") (.name "x")) noCode = .ok (v, g') ∧ u.typ = .regBtf ∧
    ∃ s : State, s.regs u.reg = 511 ∧
      ¬ CastsTo (.int "u8" 1 .unsigned) 1 u g₁ g' v (onesKernel castCompiler) s := by
  have hrun : (eval castCompiler (.name "x") noCode).toOption.map (fun p => p.1.typ) = some .regBtf := by rfl
  have hok : (eval castCompiler (.cast (.other "u8") (.name "x")) noCode).isOk = true := by rfl
  cases hu : eval castCompiler (.name "x") noCode with
  | error e => simp [hu, Except.toOption] at hrun
  | ok p =>
    simp only [hu, Except.toOption, Option.map_some, Option.some.injEq] at hrun
    cases hv : eval castCompiler (.cast (.other "u8") (.name "x")) noCode with
    | error e => simp [hv, Except.isOk, Except.toBool] at hok
    | ok q =>
      obtain ⟨hnum, -⟩ | ⟨-, hq, hg⟩ := eval_cast (t := .int "u8" 1 .unsigned) hu rfl hv
      · rw [hrun] at hnum
        cases hnum
      · refine ⟨p.1, p.2, q.1, q.2, rfl, rfl, hrun, (holding 0 0).set p.1.reg 511, State.set_regs_self .., ?_⟩
        intro hcast
        have hvalue := hcast.value
        rw [hg, hq, at_word_reg hrun, State.set_regs_self] at hvalue
        have hcut := (yields_nothing (v := { p.1 with btf := some (.int "u8" 1 .unsigned) }) hrun).mp hvalue
        rw [State.set_regs_self] at hcut
        exact absurd hcut (by decide)

/-- `(u8)200`. -/
theorem byte_cast_of_literal : ∃ v g',
    eval castCompiler (.cast (.other "u8") (.number "200")) noCode = .ok (v, g') ∧
    (CastsTo (.int "u8" 1 .unsigned) 1 (constant 200) noCode g' v (onesKernel castCompiler) (holding 0 0) ↔
      CastKeeps 1 (constant 200) (holding 0 0).regs) := by
  have hok : (eval castCompiler (.cast (.other "u8") (.number "200")) noCode).isOk = true := by rfl
  cases hv : eval castCompiler (.cast (.other "u8") (.number "200")) noCode with
  | error e => simp [hv, Except.isOk, Except.toBool] at hok
  | ok q =>
    have hu : eval castCompiler (.number "200") noCode = .ok (constant 200, noCode) := rfl
    exact ⟨q.1, q.2, rfl, cast_iff hu (.inl rfl) rfl isInt_u8 hv _ _⟩

/-- `(void*)0xffff888000001000`. -/
def kernelPointer : Expr := .cast (.ptr (.other "void")) (.number "0xffff888000001000")

theorem kernel_pointer_cut : parseUnsigned "0xffff888000001000".toList = .ok 0xffff888000001000 ∧
    ∃ v g', eval castCompiler kernelPointer noCode = .ok (v, g') ∧
      ¬ Yields noCode g' v (onesKernel castCompiler) (holding 0 0) 0xffff888000001000 := by
  have hn : parseUnsigned "0xffff888000001000".toList = .ok 0xffff888000001000 := by rfl
  have hok : (eval castCompiler kernelPointer noCode).isOk = true := by rfl
  refine ⟨hn, ?_⟩
  cases hv : eval castCompiler kernelPointer noCode with
  | error e => simp [hv, Except.isOk, Except.toBool] at hok
  | ok q =>
    refine ⟨q.1, q.2, rfl, fun hyields => ?_⟩
    exact absurd ((literal_value hn hv _ _ _).mp hyields) (by decide)

/-- `(void*)4096`. -/
theorem low_pointer : ∃ v g' res reg g₁,
    accessMemory castCompiler (.cast (.ptr (.other "void")) (.number "4096")) noCode = .ok (res, noCode) ∧
    ((∀ K s, Yields noCode g' v K s 4096 ∧ Puts noCode g₁ reg K s 4096) ↔
      (4096 : Word) ≠ 0 ∧ -2 ^ 31 ≤ (4096 : Word).toInt ∧ (4096 : Word).toInt < 2 ^ 31) := by
  have hok : (eval castCompiler (.cast (.ptr (.other "void")) (.number "4096")) noCode).isOk = true := by rfl
  cases hv : eval castCompiler (.cast (.ptr (.other "void")) (.number "4096")) noCode with
  | error e => simp [hv, Except.isOk, Except.toBool] at hok
  | ok q =>
    have hlit : (Expr.cast (.ptr (.other "void")) (.number "4096")).literal? = some "4096" := rfl
    exact ⟨q.1, q.2, { idx := some 0, btf := .pointer .void, uptr := 4096 }, R8, _, rfl,
      literal_pointer_iff rfl hlit hv rfl rfl⟩

end Bpfsnoop.CC
