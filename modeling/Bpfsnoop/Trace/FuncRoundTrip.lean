/-
Bpfsnoop.Trace.FuncRoundTrip — `outputFnArgs` reads what `output_fn_args`
wrote.

An entry that is no second register is read where its value ends
(`outputFnArgsLoop_readBytes`). A second register is written but not
consumed, so the parameters behind a two-register one are read eight bytes
too early; and the last parameter gets no second register at all. So the
record is read back for all argument registers if and only if no parameter
has two of them (`funcArgs_roundTrip_iff`). The return value of an XDP or TC
program is read as an action of 32 bits, also where it is a string, a number
pointer or a number of eight bytes.
-/
import Bpfsnoop.Trace.FuncRecord

namespace Bpfsnoop.Trace

open Ebpf Btf Reg CC

/-! ## The round trip -/

/-- The content of the `j`-th argument register. -/
def regWord (mem : Word → Byte) (args : Word) (j : Nat) : Word :=
  loadLE mem (args + BitVec.ofNat 64 (j * 8)) 8

/-- What an entry says of the register content `w`: the string at it, or the
word and the number it points to. -/
def paramValue (K : Kernel) (prm : FuncParamFlags) (w : Word) : ParamValue :=
  if prm.isStr then { argStr := stringAt K w }
  else if prm.isNumberPtr then { arg := w, argVal := loadLE K.mem w 8 }
  else { arg := w }

/-- A parameter from register `slot` on is given its own value: both
registers where it has two. -/
def ParamAttributed (heap : Heap) (K : Kernel) (args : Word) (p : FuncParam) (slot : Nat)
    (prm : FuncParamFlags) (v : ParamValue) : Prop :=
  if twoRegs heap p then v.arg = regWord K.mem args slot ∧ v.valNext = regWord K.mem args (slot + 1)
  else { v with valNext := 0 } = paramValue K prm (regWord K.mem args slot)

/-- A return value of type `t` is no more than the 32 bits of an action: it
fits in them, and neither a string nor a number behind a pointer belongs to
it. -/
structure FitsAction (heap : Heap) (t : BtfType) (ret : FuncParamFlags) : Prop where
  str : ret.isStr = false
  number : ret.isNumberPtr = false
  size : sizeofD heap t ≤ 4

/-- The return value `w` of type `t` is given its own value: the string at
it, or the word and the number it points to. An action is the word if the
type fits in its 32 bits; a wider word is lost unless the action extends to
it. -/
def RetAttributed (heap : Heap) (t : BtfType) (K : Kernel) (ret : FuncParamFlags) (isAction : Bool) (w : Word) :
    RetValue → Prop
  | .action code => isAction = true ∧ ret.isStr = false ∧ ret.isNumberPtr = false ∧
      code.setWidth 64 = if sizeofD heap t ≤ 4 then (w.setWidth 32).setWidth 64 else w
  | .value num1 num2 str => isAction = false ∧
      if ret.isStr then str = stringAt K w
      else num1 = w ∧ (ret.isNumberPtr = true → num2 = loadLE K.mem w 8)

section RoundTrip

variable (heap : Heap) (proto : FuncProto) (slots : List FuncParamFlags) (ret : FuncParamFlags)
  (isAction withRetval : Bool)

/-- What is printed of a call: every parameter has its own value, and so has
the return value. -/
structure CallAttributed (K : Kernel) (s : State) (values : List ParamValue) (retval : Option RetValue) :
    Prop where
  count : values.length = proto.params.length
  params : ∀ i p prm v, proto.params[i]? = some p → slots[firstSlot heap proto.params i]? = some prm →
    values[i]? = some v → ParamAttributed heap K (s.regs R1) p (firstSlot heap proto.params i) prm v
  retval : withRetval = true → ∃ r, retval = some r ∧ RetAttributed heap proto.ret K ret isAction (s.regs R3) r

/-- **The round trip**, whatever is in the registers and the memory behind
them: `output_fn_args` fills the buffer, and `outputFnArgs` reads it. -/
def ArgsRoundTrip : Prop :=
  ∀ (K : Kernel) (s : State),
    BufferClear (s.regs RFP) (s.regs R2) (genOutputFuncArgs slots ret withRetval).2 →
    ∃ s' values retval, Exits K (genOutputFuncArgs slots ret withRetval).1 s s' ∧
      outputFnArgs proto.params.length slots ret isAction withRetval
          (readBytes s'.out (s.regs R2) (genOutputFuncArgs slots ret withRetval).2) = .ok (values, retval) ∧
      CallAttributed heap proto slots ret isAction withRetval K s values retval

end RoundTrip

/-! ## Reading -/

section Read

variable {m : Word → Byte} {a : Word} {n : Nat} {prm ret : FuncParamFlags}

/-- A word of the data. -/
theorem loadLE_getD {k : Nat} (hk : k ≤ n) (hn : n < 2 ^ 64) :
    loadLE (fun x => (readBytes m a n).getD x.toNat 0) 0 k = loadLE m a k := by
  refine loadLE_congr fun i hi => ?_
  have hidx : (0 + BitVec.ofNat 64 i).toNat = i := by
    rw [zero_add, BitVec.toNat_ofNat, Nat.mod_eq_of_lt (by omega)]
  show (readBytes m a n).getD (0 + BitVec.ofNat 64 i).toNat 0 = m (a + BitVec.ofNat 64 i)
  rw [hidx, readBytes_getD (by omega)]

theorem getU64_readBytes (hn : 8 ≤ n) (hlt : n < 2 ^ 64) : getU64 (readBytes m a n) = .ok (loadLE m a 8) := by
  rw [getU64, if_neg (by simpa using hn), loadLE_getD hn hlt]

theorem readUint64_readBytes (hn : 8 ≤ n) (hlt : n < 2 ^ 64) :
    readUint64 (readBytes m a n) = .ok (loadLE m a 8, readBytes m (a + BitVec.ofNat 64 8) (n - 8)) := by
  rw [readUint64, getU64_readBytes hn hlt, drop_readBytes m a hn]
  rfl

theorem readStr_readBytes (hn : maxOutputStrLen ≤ n) :
    readStr (readBytes m a n) = .ok (nullTerminated (readBytes m a maxOutputStrLen),
      readBytes m (a + BitVec.ofNat 64 maxOutputStrLen) (n - maxOutputStrLen)) := by
  rw [readStr, if_neg (by simpa using hn), take_readBytes m a hn, drop_readBytes m a hn]

/-- What an entry says of the bytes at `a`. -/
def valueAt (m : Word → Byte) (a : Word) (prm : FuncParamFlags) : ParamValue :=
  if prm.isStr then { argStr := nullTerminated (readBytes m a maxOutputStrLen) }
  else if prm.isNumberPtr then { arg := loadLE m a 8, argVal := loadLE m (a + BitVec.ofNat 64 8) 8 }
  else { arg := loadLE m a 8 }

/-- The word behind the `i`-th entry, which is read in front of `lastIdx`. -/
def nextAt (m : Word → Byte) (lastIdx : Int) (i : Nat) (a : Word) : Word :=
  if (i : Int) < lastIdx then loadLE m a 8 else 0

/-- The value of the `i`-th entry, with the word behind it. -/
def valueWithNext (m : Word → Byte) (lastIdx : Int) (i : Nat) (a : Word) (prm : FuncParamFlags) : ParamValue :=
  { valueAt m a prm with valNext := nextAt m lastIdx i (a + BitVec.ofNat 64 prm.size) }

theorem HoldsValue.valueAt_eq {K : Kernel} {w : Word} (h : HoldsValue K prm w m a) :
    valueAt m a prm = paramValue K prm w := by
  unfold valueAt paramValue
  cases hstr : prm.isStr with
  | true => simp [h.str hstr]
  | false =>
    cases hnum : prm.isNumberPtr with
    | true =>
      have hnumber : loadLE m (a + BitVec.ofNat 64 8) 8 = loadLE K.mem w 8 := h.number hstr hnum
      simp [h.word hstr, hnumber]
    | false => simp [h.word hstr]

/-- The end of a round, where the word behind the entry is read. -/
theorem readNext {lastIdx : Int} {i : Nat} (hnext : (i : Int) < lastIdx → 8 ≤ n) (hlt : n < 2 ^ 64)
    (value : ParamValue) (hvalue : value.valNext = 0) :
    (if (i : Int) < lastIdx then do
        let valNext ← getU64 (readBytes m a n)
        pure ({ value with valNext := valNext }, readBytes m a n)
      else pure (value, readBytes m a n) : Except GoError (ParamValue × List Byte)) =
      .ok ({ value with valNext := nextAt m lastIdx i a }, readBytes m a n) := by
  unfold nextAt
  by_cases hi : (i : Int) < lastIdx
  · simp only [hi, if_true, getU64_readBytes (hnext hi) hlt]
    rfl
  · simp only [hi, if_false, ← hvalue]
    rfl

theorem outputFnArg_readBytes {lastIdx : Int} {i : Nat} (hn : prm.size ≤ n)
    (hnext : (i : Int) < lastIdx → prm.size + 8 ≤ n) (hlt : n < 2 ^ 64) :
    outputFnArg i lastIdx prm (readBytes m a n) = .ok (valueWithNext m lastIdx i a prm,
      readBytes m (a + BitVec.ofNat 64 prm.size) (n - prm.size)) := by
  have hroom : (i : Int) < lastIdx → 8 ≤ n - prm.size := fun hi => by
    have := hnext hi
    omega
  unfold outputFnArg valueWithNext valueAt
  cases hstr : prm.isStr with
  | true =>
    have hsize : prm.size = maxOutputStrLen := by simp [FuncParamFlags.size, hstr]
    rw [hsize] at hn hroom ⊢
    simp only [if_true, readStr_readBytes hn, bind, Except.bind, pure, Except.pure]
    exact readNext hroom (by omega) _ rfl
  | false =>
    cases hnum : prm.isNumberPtr with
    | true =>
      have hsize : prm.size = 8 + 8 := by simp [FuncParamFlags.size, hstr, hnum]
      rw [hsize] at hn hroom ⊢
      rw [← Nat.sub_sub] at hroom
      rw [BitVec.ofNat_add, ← add_assoc, ← Nat.sub_sub]
      have hfirst : 8 ≤ n := by omega
      have hsecond : 8 ≤ n - 8 := by omega
      simp only [Bool.false_eq_true, if_false, if_true, readUint64_readBytes (m := m) (a := a) hfirst hlt,
        readUint64_readBytes (m := m) (a := a + BitVec.ofNat 64 8) hsecond (by omega),
        bind, Except.bind, pure, Except.pure]
      exact readNext hroom (by omega) _ rfl
    | false =>
      have hsize : prm.size = 8 := by simp [FuncParamFlags.size, hstr, hnum]
      rw [hsize] at hn hroom ⊢
      simp only [Bool.false_eq_true, if_false, readUint64_readBytes (m := m) (a := a) hn hlt,
        bind, Except.bind, pure, Except.pure]
      exact readNext hroom (by omega) _ rfl

/-- The values of some entries, one behind the other. -/
def valuesAt (m : Word → Byte) (lastIdx : Int) : Nat → Word → List FuncParamFlags → List ParamValue
  | _, _, [] => []
  | i, a, prm :: prms =>
    valueWithNext m lastIdx i a prm :: valuesAt m lastIdx (i + 1) (a + BitVec.ofNat 64 prm.size) prms

@[simp] theorem length_valuesAt {lastIdx : Int} {prms : List FuncParamFlags} {i : Nat} :
    (valuesAt m lastIdx i a prms).length = prms.length := by
  induction prms generalizing i a with
  | nil => rfl
  | cons prm prms ih => rw [valuesAt, List.length_cons, ih, List.length_cons]

/-- **Entries with one register each are read one behind the other.** -/
theorem outputFnArgsLoop_readBytes {lastIdx : Int} {prms rest : List FuncParamFlags} {i : Nat}
    (hone : ∀ prm ∈ prms, prm.partOfPrevParam = false) (hn : entriesSize prms ≤ n)
    (hroom : lastIdx < i + prms.length ∨ entriesSize prms + 8 ≤ n) (hlt : n < 2 ^ 64) :
    outputFnArgsLoop lastIdx i (readBytes m a n) (prms ++ rest) =
      (outputFnArgsLoop lastIdx (i + prms.length)
        (readBytes m (a + BitVec.ofNat 64 (entriesSize prms)) (n - entriesSize prms)) rest).map
        fun out => (valuesAt m lastIdx i a prms ++ out.1, out.2) := by
  induction prms generalizing i a n with
  | nil =>
    have hdata : readBytes m (a + BitVec.ofNat 64 (entriesSize [])) (n - entriesSize []) = readBytes m a n :=
      congrArg (fun b => readBytes m b n) (BitVec.add_zero a)
    rw [hdata]
    show outputFnArgsLoop lastIdx i (readBytes m a n) rest = (outputFnArgsLoop lastIdx i (readBytes m a n) rest).map _
    cases outputFnArgsLoop lastIdx i (readBytes m a n) rest <;> rfl
  | cons prm prms ih =>
    rw [entriesSize_cons] at hn hroom ⊢
    have hhead : (i : Int) < lastIdx → prm.size + 8 ≤ n := by
      intro hi
      cases prms with
      | nil =>
        rcases hroom with hlast | hfit
        · simp only [List.length_cons, List.length_nil] at hlast
          omega
        · omega
      | cons next prms =>
        have hnext := next.eight_le_size
        rw [entriesSize_cons] at hn
        omega
    have hrest := ih (a := a + BitVec.ofNat 64 prm.size) (n := n - prm.size) (i := i + 1)
      (fun p hp => hone p (List.mem_cons_of_mem _ hp)) (by omega)
      (hroom.imp (fun h => by simp only [List.length_cons] at h; omega) (fun h => by omega)) (by omega)
    have hplace : a + BitVec.ofNat 64 prm.size + BitVec.ofNat 64 (entriesSize prms)
        = a + BitVec.ofNat 64 (prm.size + entriesSize prms) := by
      rw [add_assoc, BitVec.ofNat_add]
    have hidx : i + 1 + prms.length = i + (prms.length + 1) := by omega
    rw [hplace, Nat.sub_sub, hidx] at hrest
    rw [List.cons_append, outputFnArgsLoop, hone prm List.mem_cons_self,
      outputFnArg_readBytes (by omega) hhead hlt]
    simp only [Bool.false_eq_true, if_false, bind, Except.bind, pure, Except.pure, hrest, List.length_cons]
    cases outputFnArgsLoop lastIdx (i + (prms.length + 1))
        (readBytes m (a + BitVec.ofNat 64 (prm.size + entriesSize prms)) (n - (prm.size + entriesSize prms))) rest <;>
      rfl

/-! ### The return value -/

/-- The end of `outputFnArgs`. -/
def readRetval (ret : FuncParamFlags) (isAction : Bool) (data : List Byte) : Except GoError RetValue := do
  let retStr ← if ret.isStr then (·.1) <$> readStr data else pure []
  outputFnRetval isAction retStr data

theorem outputFnArgs_eq (nParams : Nat) (slots : List FuncParamFlags) (ret : FuncParamFlags)
    (isAction withRetval : Bool) (data : List Byte) :
    outputFnArgs nParams slots ret isAction withRetval data =
      (outputFnArgsLoop ((nParams : Int) - 1) 0 data slots).bind fun out =>
        if withRetval then (readRetval ret isAction out.2).map fun r => (out.1, some r)
        else .ok (out.1, none) := by
  unfold outputFnArgs
  cases outputFnArgsLoop ((nParams : Int) - 1) 0 data slots with
  | error e => rfl
  | ok out =>
    cases withRetval with
    | false => rfl
    | true =>
      simp only [Except.bind, Except.map, bind, pure, Except.pure, Bool.not_true, Bool.false_eq_true, if_false,
        if_true, readRetval]
      cases ret.isStr with
      | true => cases readStr out.2 <;> rfl
      | false => rfl

theorem take_readBytes_min (k : Nat) : (readBytes m a n).take k = readBytes m a (min k n) := by
  rcases Nat.le_total k n with hle | hle
  · rw [take_readBytes m a hle, Nat.min_eq_left hle]
  · rw [List.take_of_length_le (by simpa using hle), Nat.min_eq_right hle]

theorem outputFnRetval_action (str : List Byte) (hn : 4 ≤ n) (hlt : n < 2 ^ 64) :
    outputFnRetval true str (readBytes m a n) = .ok (.action ((loadLE m a 4).setWidth 32)) := by
  have hshort : ¬ (readBytes m a n).length < 4 := by simpa using hn
  simp only [outputFnRetval, if_true, if_neg hshort, take_readBytes_min]
  rw [loadLE_getD (by omega) (by omega)]

theorem outputFnRetval_value (str : List Byte) (hn : 8 ≤ n) (hlt : n < 2 ^ 64) :
    ∃ num2, outputFnRetval false str (readBytes m a n) = .ok (.value (loadLE m a 8) num2 str) ∧
      (16 ≤ n → num2 = loadLE m (a + BitVec.ofNat 64 8) 8) := by
  simp only [outputFnRetval, Bool.false_eq_true, if_false, take_readBytes_min]
  rw [loadLE_getD (by omega) (by omega)]
  refine ⟨_, rfl, fun hsecond => loadLE_congr fun i hi => ?_⟩
  have hidx : ((8 : Word) + BitVec.ofNat 64 i).toNat = 8 + i := by
    rw [BitVec.toNat_add, BitVec.toNat_ofNat, Nat.mod_eq_of_lt (show i < 2 ^ 64 by omega)]
    show (8 + i) % 2 ^ 64 = 8 + i
    omega
  rw [hidx, readBytes_getD (by omega), BitVec.ofNat_add, add_assoc]

/-- An action is the first four bytes, also of a string. -/
theorem readRetval_action : readRetval ret true (readBytes m a ret.size) =
    .ok (.action ((loadLE m a 4).setWidth 32)) := by
  have hmin := ret.eight_le_size
  have hmax := ret.size_le
  unfold readRetval
  cases hstr : ret.isStr with
  | true =>
    have hsize : maxOutputStrLen ≤ ret.size := by simp [FuncParamFlags.size, hstr]
    rw [if_pos rfl, readStr_readBytes hsize]
    exact outputFnRetval_action (nullTerminated (readBytes m a maxOutputStrLen)) (by omega) (by omega)
  | false =>
    rw [if_neg (by decide)]
    exact outputFnRetval_action [] (by omega) (by omega)

/-- A return value is given its own value, unless it is read as an action
and is more than one. -/
theorem HoldsValue.readRetval {heap : Heap} {t : BtfType} {K : Kernel} {w : Word} {isAction : Bool}
    (h : HoldsValue K ret w m a) (hfits : isAction = true → FitsAction heap t ret) :
    ∃ r, readRetval ret isAction (readBytes m a ret.size) = .ok r ∧ RetAttributed heap t K ret isAction w r := by
  have hmin := ret.eight_le_size
  have hmax := ret.size_le
  cases isAction with
  | true =>
    obtain ⟨hstr, hnum, hsize⟩ := hfits rfl
    refine ⟨_, readRetval_action, rfl, hstr, hnum, ?_⟩
    rw [if_pos hsize, ← h.word hstr]
    congr 1
    apply BitVec.eq_of_getLsbD_eq
    intro j hj
    have h4 : j < 8 * 4 := by omega
    have h8 : j < 8 * 8 := by omega
    simp only [BitVec.getLsbD_setWidth, getLsbD_loadLE _ _ _ j (by omega : j < 64), h4, h8]
  | false =>
    cases hstr : ret.isStr with
    | true =>
      have hsize : ret.size = maxOutputStrLen := by simp [FuncParamFlags.size, hstr]
      obtain ⟨num2, hread, -⟩ := outputFnRetval_value (m := m) (a := a)
        (nullTerminated (readBytes m a maxOutputStrLen)) hmin (by omega)
      refine ⟨.value (loadLE m a 8) num2 (nullTerminated (readBytes m a maxOutputStrLen)), ?_, rfl, ?_⟩
      · rw [Trace.readRetval, hstr, if_pos rfl, readStr_readBytes (by omega)]
        exact hread
      · rw [hstr]
        exact h.str hstr
    | false =>
      obtain ⟨num2, hread, hsecond⟩ := outputFnRetval_value (m := m) (a := a) [] hmin (by omega)
      refine ⟨.value (loadLE m a 8) num2 [], ?_, rfl, ?_⟩
      · rw [Trace.readRetval, hstr, if_neg (by decide)]
        exact hread
      · rw [hstr]
        refine ⟨h.word hstr, fun hptr => ?_⟩
        have hsize : ret.size = 16 := by simp [FuncParamFlags.size, hstr, hptr]
        exact (hsecond (by omega)).trans (h.number hstr hptr)

/-- **Reading the whole record**, where no entry is a second register. -/
theorem outputFnArgs_readBytes {slots : List FuncParamFlags} {isAction withRetval : Bool}
    (hone : ∀ prm ∈ slots, prm.partOfPrevParam = false) (hsize : (genOutputFuncArgs slots ret withRetval).2 ≤ 2 ^ 15) :
    outputFnArgs slots.length slots ret isAction withRetval
        (readBytes m a (genOutputFuncArgs slots ret withRetval).2) =
      if withRetval then
        (readRetval ret isAction (readBytes m (a + BitVec.ofNat 64 (entriesSize slots)) ret.size)).map
          fun r => (valuesAt m ((slots.length : Int) - 1) 0 a slots, some r)
      else .ok (valuesAt m ((slots.length : Int) - 1) 0 a slots, none) := by
  have htotal : (genOutputFuncArgs slots ret withRetval).2 = entriesSize slots + if withRetval then ret.size else 0 :=
    genOutputFuncArgs_snd slots ret withRetval
  rw [htotal] at hsize ⊢
  have hloop : outputFnArgsLoop ((slots.length : Int) - 1) 0
      (readBytes m a (entriesSize slots + if withRetval then ret.size else 0)) (slots ++ []) = _ :=
    outputFnArgsLoop_readBytes hone (Nat.le_add_right _ _) (.inl (by omega)) (by omega)
  rw [List.append_nil, Nat.add_sub_cancel_left, outputFnArgsLoop] at hloop
  rw [outputFnArgs_eq, hloop]
  cases withRetval with
  | false => simp [Except.map, Except.bind]
  | true => simp only [Except.map, Except.bind, if_true, List.append_nil]

end Read

/-! ## Parameters of one register -/

section OneRegister

variable {heap : Heap} {isConstCharPtr : BtfType → Bool} {proto : FuncProto} {slots : List FuncParamFlags}
  {ret : FuncParamFlags} {isAction withRetval : Bool}

/-- The load of an argument register within the first 32768 bytes. -/
theorem argWord_eq_regWord (mem : Word → Byte) (args : Word) {j : Nat} (hj : j * 8 < 2 ^ 15) :
    argWord mem args j = regWord mem args j := by
  have hsmall : (BitVec.ofNat 64 (j * 8)).toNat < 2 ^ 15 := by
    rw [BitVec.toNat_ofNat]
    omega
  rw [argWord, regWord, signExtend_int16 hsmall]

theorem length_le_entriesSize (prms : List FuncParamFlags) : prms.length * 8 ≤ entriesSize prms := by
  induction prms with
  | nil => exact Nat.le_refl 0
  | cons prm prms ih =>
    have hsize := prm.eight_le_size
    rw [entriesSize_cons, List.length_cons]
    omega

theorem entriesSize_append (prms prms' : List FuncParamFlags) :
    entriesSize (prms ++ prms') = entriesSize prms + entriesSize prms' := by
  simp [entriesSize]

/-- Parameters of one register each have an entry each. -/
theorem entries_one {params : List FuncParam} {groups : List (List FuncParamFlags)}
    (h : List.Forall₂ (Entries heap) params groups) (hone : ∀ p ∈ params, twoRegs heap p = false) :
    groups.flatten.length = params.length ∧ ∀ prm ∈ groups.flatten, prm.partOfPrevParam = false := by
  induction h with
  | nil => exact ⟨rfl, fun prm hprm => by cases hprm⟩
  | @cons p es params groups hp _ ih =>
    obtain ⟨hlen, hparts⟩ := ih fun q hq => hone q (List.mem_cons_of_mem _ hq)
    cases hp with
    | one prm hregs hpart =>
      refine ⟨by simp [hlen], fun q hq => ?_⟩
      rcases List.mem_cons.mp hq with rfl | hq
      · exact hpart
      · exact hparts q hq
    | two hregs =>
      rw [hone p List.mem_cons_self] at hregs
      cases hregs

theorem firstSlot_one {params : List FuncParam} {i : Nat} (hi : i ≤ params.length)
    (hone : ∀ p ∈ params.take i, twoRegs heap p = false) : firstSlot heap params i = i := by
  have hcount : (params.take i).countP (twoRegs heap) = 0 :=
    List.countP_eq_zero.mpr fun p hp => by simp [hone p hp]
  rw [firstSlot_eq params hi, hcount, Nat.add_zero]

theorem valueAt_valNext (m : Word → Byte) (a : Word) (prm : FuncParamFlags) : (valueAt m a prm).valNext = 0 := by
  unfold valueAt
  split
  · rfl
  · split <;> rfl

/-- A value without the word behind it. -/
theorem valueWithNext_own (m : Word → Byte) (lastIdx : Int) (i : Nat) (a : Word) (prm : FuncParamFlags) :
    { valueWithNext m lastIdx i a prm with valNext := 0 } = valueAt m a prm := by
  rw [valueWithNext, ← valueAt_valNext m a prm]

/-- The values of a record are those of its argument words. -/
theorem Records.valuesAt_own {K : Kernel} {args a : Word} {m : Word → Byte} {lastIdx : Int} {i k : Nat}
    {prms : List FuncParamFlags} {prm : FuncParamFlags} {v : ParamValue} (h : Records K args m i a prms)
    (hprm : prms[k]? = some prm) (hv : (valuesAt m lastIdx i a prms)[k]? = some v) :
    { v with valNext := 0 } = paramValue K prm (argWord K.mem args (i + k)) := by
  induction prms generalizing i a k with
  | nil => cases hprm
  | cons first prms ih =>
    cases k with
    | zero =>
      cases hprm
      cases hv
      rw [valueWithNext_own, h.1.valueAt_eq, Nat.add_zero]
    | succ k =>
      have hidx : i + (k + 1) = i + 1 + k := by omega
      rw [hidx]
      exact ih h.2 hprm hv

/-- **The record is read back**, where every parameter has one register and
nothing but an action is read as one. -/
theorem argsRoundTrip_of_one (h : getFuncParams heap isConstCharPtr proto = .ok (slots, ret))
    (hsize : (genOutputFuncArgs slots ret withRetval).2 ≤ 2 ^ 15)
    (hone : ∀ p ∈ proto.params, twoRegs heap p = false)
    (hfits : withRetval = true → isAction = true → FitsAction heap proto.ret ret) :
    ArgsRoundTrip heap proto slots ret isAction withRetval := by
  intro K s hclear
  obtain ⟨groups, rfl, hgroups⟩ := getFuncParams_entries h
  obtain ⟨hlen, hparts⟩ := entries_one hgroups hone
  obtain ⟨s', hexits, hrecords, hheld⟩ := genOutputFuncArgs_exits (K := K) hsize hclear
  have hshort : groups.flatten.length * 8 ≤ 2 ^ 15 := by
    have hentries := length_le_entriesSize groups.flatten
    have htotal : entriesSize groups.flatten ≤ (genOutputFuncArgs groups.flatten ret withRetval).2 := by
      rw [genOutputFuncArgs_snd]
      exact Nat.le_add_right _ _
    omega
  have hread := @outputFnArgs_readBytes s'.out (s.regs R2) ret _ isAction withRetval hparts hsize
  rw [hlen] at hread
  have hparams : ∀ i p prm v, proto.params[i]? = some p →
      groups.flatten[firstSlot heap proto.params i]? = some prm →
      (valuesAt s'.out ((proto.params.length : Int) - 1) 0 (s.regs R2) groups.flatten)[i]? = some v →
      ParamAttributed heap K (s.regs R1) p (firstSlot heap proto.params i) prm v := by
    intro i p prm v hp hprm hv
    have hi : i < proto.params.length := (List.getElem?_eq_some_iff.mp hp).1
    have hslot : firstSlot heap proto.params i = i :=
      firstSlot_one (Nat.le_of_lt hi) fun q hq => hone q (List.mem_of_mem_take hq)
    rw [hslot] at hprm ⊢
    have hown := hrecords.valuesAt_own hprm hv
    rw [Nat.zero_add, argWord_eq_regWord _ _ (by omega)] at hown
    rw [ParamAttributed, hone p (List.mem_of_getElem? hp)]
    exact hown
  cases withRetval with
  | false =>
    exact ⟨s', _, none, hexits, hread, by rw [length_valuesAt, hlen], hparams, fun hret => by cases hret⟩
  | true =>
    obtain ⟨r, hretval, hattr⟩ := (hheld rfl).readRetval (hfits rfl)
    rw [if_pos rfl, hretval] at hread
    exact ⟨s', _, some r, hexits, hread, by rw [length_valuesAt, hlen], hparams, fun _ => ⟨r, rfl, hattr⟩⟩

end OneRegister

/-! ## Parameters of two registers -/

section TwoRegisters

variable {heap : Heap} {isConstCharPtr : BtfType → Bool} {proto : FuncProto}
  {slots es rest : List FuncParamFlags} {ret prm : FuncParamFlags} {isAction withRetval : Bool}
  {m : Word → Byte} {a : Word} {n : Nat}

/-- The entries in front of the first parameter of two registers, and
behind. -/
theorem entries_two {before after : List FuncParam} {p : FuncParam} {groups : List (List FuncParamFlags)}
    (h : List.Forall₂ (Entries heap) (before ++ p :: after) groups)
    (hone : ∀ q ∈ before, twoRegs heap q = false) (htwo : twoRegs heap p = true) :
    ∃ es behind, groups.flatten = es ++ {} :: { partOfPrevParam := true } :: behind.flatten ∧
      es.length = before.length ∧ (∀ prm ∈ es, prm.partOfPrevParam = false) ∧
      List.Forall₂ (Entries heap) after behind := by
  induction before generalizing groups with
  | nil =>
    cases h with
    | cons hp hafter =>
      cases hp with
      | one prm hregs hpart =>
        rw [htwo] at hregs
        cases hregs
      | two hregs => exact ⟨[], _, rfl, rfl, fun prm hprm => (by cases hprm), hafter⟩
  | cons q before ih =>
    cases h with
    | cons hq hrest =>
      obtain ⟨es, behind, hflat, hlen, hparts, hafter⟩ := ih hrest fun r hr => hone r (List.mem_cons_of_mem _ hr)
      cases hq with
      | one prm hregs hpart =>
        refine ⟨prm :: es, behind, ?_, by simp [hlen], fun r hr => ?_, hafter⟩
        · rw [List.flatten_cons, hflat]
          rfl
        · rcases List.mem_cons.mp hr with rfl | hr
          · exact hpart
          · exact hparts r hr
      | two hregs =>
        rw [hone q List.mem_cons_self] at hregs
        cases hregs

theorem valuesAt_append {lastIdx : Int} {i : Nat} {prms prms' : List FuncParamFlags} :
    valuesAt m lastIdx i a (prms ++ prms') = valuesAt m lastIdx i a prms ++
      valuesAt m lastIdx (i + prms.length) (a + BitVec.ofNat 64 (entriesSize prms)) prms' := by
  induction prms generalizing i a with
  | nil => exact congrArg (fun b => valuesAt m lastIdx i b prms') (BitVec.add_zero a).symm
  | cons prm prms ih =>
    have hidx : i + (prms.length + 1) = i + 1 + prms.length := by omega
    rw [List.cons_append, valuesAt, valuesAt, ih, List.cons_append, List.length_cons, hidx, entriesSize_cons,
      BitVec.ofNat_add, ← add_assoc]

theorem Records.behind {K : Kernel} {args : Word} {i : Nat} {prms prms' : List FuncParamFlags}
    (h : Records K args m i a (prms ++ prms')) :
    Records K args m (i + prms.length) (a + BitVec.ofNat 64 (entriesSize prms)) prms' := by
  induction prms generalizing i a with
  | nil =>
    have hplace : a + BitVec.ofNat 64 (entriesSize []) = a := BitVec.add_zero a
    rw [hplace]
    exact h
  | cons prm prms ih =>
    have hidx : i + (prms.length + 1) = i + 1 + prms.length := by omega
    rw [List.length_cons, hidx, entriesSize_cons, BitVec.ofNat_add, ← add_assoc]
    exact ih h.2

/-- What was read of the parameters. -/
theorem outputFnArgs_loop {nParams : Nat} {data : List Byte} {values : List ParamValue} {retval : Option RetValue}
    (h : outputFnArgs nParams slots ret isAction withRetval data = .ok (values, retval)) :
    ∃ behind, outputFnArgsLoop ((nParams : Int) - 1) 0 data slots = .ok (values, behind) := by
  rw [outputFnArgs_eq] at h
  cases hloop : outputFnArgsLoop ((nParams : Int) - 1) 0 data slots with
  | error e =>
    rw [hloop] at h
    cases h
  | ok out =>
    rw [hloop] at h
    cases withRetval with
    | false =>
      cases h
      exact ⟨_, rfl⟩
    | true =>
      cases hret : readRetval ret isAction out.2 with
      | error e =>
        simp [Except.bind, Except.map, hret] at h
      | ok r =>
        simp only [Except.bind, Except.map, hret, if_true, Except.ok.injEq, Prod.mk.injEq] at h
        exact ⟨out.2, by rw [← h.1]⟩

/-- The entry in front of a second register, as it is read: its word is
where it was written, and the word behind it is that of the second one. -/
theorem outputFnArgsLoop_two {lastIdx : Int} {values : List ParamValue} {behind : List Byte}
    (hone : ∀ prm ∈ es, prm.partOfPrevParam = false)
    (hn : entriesSize (es ++ {} :: { partOfPrevParam := true } :: rest) ≤ n) (hlt : n < 2 ^ 64)
    (h : outputFnArgsLoop lastIdx 0 (readBytes m a n) (es ++ {} :: { partOfPrevParam := true } :: rest)
      = .ok (values, behind)) :
    values[es.length]? = some (valueWithNext m lastIdx es.length (a + BitVec.ofNat 64 (entriesSize es)) {}) ∧
      ∃ values', outputFnArgsLoop lastIdx (es.length + 2)
          (readBytes m (a + BitVec.ofNat 64 (entriesSize es + 8)) (n - (entriesSize es + 8))) rest
            = .ok (values', behind) ∧
        values'[0]? = values[es.length + 1]? := by
  have hsplit : es ++ {} :: { partOfPrevParam := true } :: rest
      = (es ++ [({} : FuncParamFlags)]) ++ { partOfPrevParam := true } :: rest := by simp
  have hfront : entriesSize (es ++ [({} : FuncParamFlags)]) = entriesSize es + 8 := by
    rw [entriesSize_append]
    rfl
  have hlen : (es ++ [({} : FuncParamFlags)]).length = es.length + 1 := by simp
  have hparts : ∀ prm ∈ es ++ [({} : FuncParamFlags)], prm.partOfPrevParam = false := by
    intro prm hprm
    rcases List.mem_append.mp hprm with hmem | hmem
    · exact hone prm hmem
    · rw [List.mem_singleton.mp hmem]
  have hsecond : ({ partOfPrevParam := true } : FuncParamFlags).size = 8 := rfl
  rw [hsplit, entriesSize_append, entriesSize_cons, hfront, hsecond] at hn
  rw [hsplit, outputFnArgsLoop_readBytes hparts (by rw [hfront]; omega) (.inr (by rw [hfront]; omega)) hlt,
    hfront, hlen, Nat.zero_add] at h
  -- the second register is passed over, and nothing is consumed
  have hskip : outputFnArgsLoop lastIdx (es.length + 1)
      (readBytes m (a + BitVec.ofNat 64 (entriesSize es + 8)) (n - (entriesSize es + 8)))
        ({ partOfPrevParam := true } :: rest)
      = outputFnArgsLoop lastIdx (es.length + 2)
        (readBytes m (a + BitVec.ofNat 64 (entriesSize es + 8)) (n - (entriesSize es + 8))) rest := rfl
  rw [hskip] at h
  cases hloop : outputFnArgsLoop lastIdx (es.length + 2)
      (readBytes m (a + BitVec.ofNat 64 (entriesSize es + 8)) (n - (entriesSize es + 8))) rest with
  | error e =>
    rw [hloop] at h
    cases h
  | ok out =>
    rw [hloop] at h
    simp only [Except.map, Except.ok.injEq, Prod.mk.injEq] at h
    obtain ⟨rfl, rfl⟩ := h
    refine ⟨?_, out.1, rfl, ?_⟩
    · rw [valuesAt_append, List.append_assoc, List.getElem?_append_right (by simp), length_valuesAt, Nat.sub_self,
        Nat.zero_add]
      rfl
    · rw [List.getElem?_append_right (by simp), length_valuesAt, hlen, Nat.sub_self]

/-- The first entry, as it is read. -/
theorem outputFnArgsLoop_head {lastIdx : Int} {i : Nat} {values : List ParamValue} {behind : List Byte}
    (hpart : prm.partOfPrevParam = false) (hn : prm.size + 8 ≤ n) (hlt : n < 2 ^ 64)
    (h : outputFnArgsLoop lastIdx i (readBytes m a n) (prm :: rest) = .ok (values, behind)) :
    values[0]? = some (valueWithNext m lastIdx i a prm) := by
  have hone : ∀ q ∈ [prm], q.partOfPrevParam = false := fun q hq => by
    rw [List.mem_singleton.mp hq]
    exact hpart
  have hsize : entriesSize [prm] = prm.size := Nat.add_zero prm.size
  rw [← List.singleton_append, outputFnArgsLoop_readBytes hone (by omega) (.inr (by omega)) hlt] at h
  cases hloop : outputFnArgsLoop lastIdx (i + [prm].length)
      (readBytes m (a + BitVec.ofNat 64 (entriesSize [prm])) (n - entriesSize [prm])) rest with
  | error e =>
    rw [hloop] at h
    cases h
  | ok out =>
    rw [hloop] at h
    simp only [Except.map, Except.ok.injEq, Prod.mk.injEq] at h
    obtain ⟨rfl, -⟩ := h
    rfl

/-! ### Registers that tell the bytes apart -/

/-- Registers of zeros. -/
def zeroState : State := ⟨fun _ => 0, fun _ => 0, fun _ => 0, 0⟩

/-- Memory of ones, with zeros in the `j`-th argument register. -/
def onesBut (j : Nat) : Kernel :=
  { mem := fun x => if (x - BitVec.ofNat 64 (j * 8)).toNat < 8 then 0 else 1
    clobber := fun _ _ => 0
    fastcall := false }

theorem zeroState_clear (hn : n ≤ 2 ^ 15) : BufferClear (zeroState.regs RFP) (zeroState.regs R2) n := by
  intro k hk
  have hdepth : ((0 : Word) - (0 + BitVec.ofNat 64 k)).toNat = (2 ^ 64 - k) % 2 ^ 64 := by
    rw [zero_add, BitVec.toNat_sub, BitVec.toNat_ofNat, Nat.mod_eq_of_lt (show k < 2 ^ 64 by omega)]
    rfl
  show inFrame 0 (0 + BitVec.ofNat 64 k) = false
  rw [inFrame, hdepth]
  by_cases hz : k = 0
  · simp [hz]
  · rw [decide_eq_false (show ¬ (2 ^ 64 - k) % 2 ^ 64 ≤ 512 by omega), Bool.and_false]

theorem onesBut_near {j : Nat} {x : Word} (h : (x - BitVec.ofNat 64 (j * 8)).toNat < 8) : (onesBut j).mem x = 0 :=
  if_pos h

theorem onesBut_far {j : Nat} {x : Word} (h : 8 ≤ (x - BitVec.ofNat 64 (j * 8)).toNat) : (onesBut j).mem x = 1 :=
  if_neg (not_lt.mpr h)

/-- A word of ones. -/
def onesWord : Word := loadLE (fun _ => 1) 0 8

theorem onesWord_ne : onesWord ≠ 0 := by decide

theorem regWord_onesBut (j : Nat) : regWord (onesBut j).mem 0 j = 0 := by
  have hzero : loadLE (fun _ => 0) 0 8 = 0 := by decide
  refine (loadLE_congr fun i hi => onesBut_near ?_).trans hzero
  rw [zero_add, add_sub_cancel_left, BitVec.toNat_ofNat]
  omega

/-- The word behind it. -/
theorem regWord_onesBut_succ (j : Nat) : regWord (onesBut j).mem 0 (j + 1) = onesWord := by
  refine loadLE_congr fun i hi => onesBut_far ?_
  have hoff : 0 + BitVec.ofNat 64 ((j + 1) * 8) + BitVec.ofNat 64 i - BitVec.ofNat 64 (j * 8)
      = BitVec.ofNat 64 (8 + i) := by
    rw [zero_add, ← BitVec.ofNat_add, show (j + 1) * 8 + i = j * 8 + (8 + i) by omega, BitVec.ofNat_add,
      add_sub_cancel_left]
  rw [hoff, BitVec.toNat_ofNat]
  omega

/-- Where a byte is, there is a string. -/
theorem stringAt_ne_nil {K : Kernel} {w : Word} (h : K.mem w ≠ 0) : stringAt K w ≠ [] := by
  intro hempty
  have hlen := congrArg List.length hempty
  have hshort : maxOutputStrLen - 1 = 62 + 1 := rfl
  rw [stringAt, length_readBytes, hshort, strLen, if_neg h] at hlen
  cases hlen

theorem onesBut_onesWord {j : Nat} (hj : j * 8 < 2 ^ 15) : (onesBut j).mem onesWord ≠ 0 := by
  have hword : onesWord.toNat = 72340172838076673 := by decide
  rw [onesBut_far (by rw [BitVec.toNat_sub, BitVec.toNat_ofNat, hword]; omega)]
  decide

/-- The first byte of a word of zeros. -/
theorem byte_of_loadLE_zero {k : Nat} (h : (loadLE m a (k + 1)).setWidth 8 = 0) : m a = 0 := by
  rw [← h]
  apply BitVec.eq_of_getLsbD_eq
  intro j hj
  have hdiv : j / 8 = 0 := by omega
  have hmod : j % 8 = j := by omega
  have hlt : j < 8 * (k + 1) := by omega
  rw [BitVec.getLsbD_setWidth, getLsbD_loadLE _ _ _ _ (by omega), hdiv, hmod]
  simp [hj, hlt]

/-- Behind a zero byte there is no string. -/
theorem nullTerminated_of_zero (h : m a = 0) : nullTerminated (readBytes m a maxOutputStrLen) = [] := by
  have hfirst : readBytes m a (1 + 63) = readBytes m a 1 ++ readBytes m (a + BitVec.ofNat 64 1) 63 := readBytes_add m a 1 63
  have hzero : readBytes m a 1 = [0] := by simp [readBytes, h]
  show nullTerminated (readBytes m a (1 + 63)) = []
  rw [hfirst, hzero]
  rfl

theorem valueAt_arg (hstr : prm.isStr = false) : (valueAt m a prm).arg = loadLE m a 8 := by
  unfold valueAt
  rw [if_neg (by simp [hstr])]
  split <;> rfl

theorem paramValue_arg {K : Kernel} {w : Word} (hstr : prm.isStr = false) : (paramValue K prm w).arg = w := by
  unfold paramValue
  rw [if_neg (by simp [hstr])]
  split <;> rfl

/-- Eight zeros say something else of an entry than a word of ones does. -/
theorem valueAt_ne_paramValue {K : Kernel} (hmem : K.mem onesWord ≠ 0) (hzero : loadLE m a 8 = 0) :
    valueAt m a prm ≠ paramValue K prm onesWord := by
  intro heq
  cases hstr : prm.isStr with
  | true =>
    have hbyte : m a = 0 := byte_of_loadLE_zero (k := 7) (by rw [hzero]; rfl)
    have htext := congrArg ParamValue.argStr heq
    simp only [valueAt, paramValue, hstr, if_true, nullTerminated_of_zero hbyte] at htext
    exact stringAt_ne_nil hmem htext.symm
  | false =>
    have harg := congrArg ParamValue.arg heq
    rw [valueAt_arg hstr, paramValue_arg hstr, hzero] at harg
    exact onesWord_ne harg.symm

/-- A call with zeros in the registers, around the first parameter of two of
them: it is read where it was written, and the next one where its second
register was. -/
theorem ArgsRoundTrip.around
    (h : ArgsRoundTrip heap proto (es ++ {} :: { partOfPrevParam := true } :: rest) ret isAction withRetval)
    (hsize : (genOutputFuncArgs (es ++ {} :: { partOfPrevParam := true } :: rest) ret withRetval).2 ≤ 2 ^ 15)
    (hone : ∀ prm ∈ es, prm.partOfPrevParam = false) (K : Kernel) :
    ∃ m values retval,
      CallAttributed heap proto (es ++ {} :: { partOfPrevParam := true } :: rest) ret isAction withRetval K zeroState
        values retval ∧
      loadLE m (BitVec.ofNat 64 (entriesSize es + 8)) 8 = regWord K.mem 0 (es.length + 1) ∧
      values[es.length]? = some (valueWithNext m ((proto.params.length : Int) - 1) es.length
        (BitVec.ofNat 64 (entriesSize es)) {}) ∧
      ∀ prm after, rest = prm :: after → prm.partOfPrevParam = false →
        values[es.length + 1]? = some (valueWithNext m ((proto.params.length : Int) - 1) (es.length + 2)
          (BitVec.ofNat 64 (entriesSize es + 8)) prm) := by
  have hclear := zeroState_clear hsize
  obtain ⟨s', values, retval, hexits, hread, hattr⟩ := h K zeroState hclear
  obtain ⟨s'', hexits', hrecords, -⟩ := genOutputFuncArgs_exits (K := K) hsize hclear
  obtain rfl := Exits.unique hexits hexits'
  have hbase : ∀ w : Word, zeroState.regs R2 + w = w := BitVec.zero_add
  have htotal : entriesSize (es ++ {} :: { partOfPrevParam := true } :: rest)
      ≤ (genOutputFuncArgs (es ++ {} :: { partOfPrevParam := true } :: rest) ret withRetval).2 := by
    rw [genOutputFuncArgs_snd]
    exact Nat.le_add_right _ _
  have hsplit : entriesSize (es ++ {} :: { partOfPrevParam := true } :: rest) = entriesSize es + (8 + (8 + entriesSize rest)) := by
    rw [entriesSize_append, entriesSize_cons, entriesSize_cons]
    rfl
  obtain ⟨behind, hloop⟩ := outputFnArgs_loop hread
  obtain ⟨hfirst, values', hrest, hnext⟩ := outputFnArgsLoop_two hone htotal (by omega) hloop
  rw [hbase] at hfirst hrest
  refine ⟨s'.out, values, retval, hattr, ?_, hfirst, fun prm after heq hpart => ?_⟩
  · have hsecond := hrecords.behind.2.1.word rfl
    have hentries := length_le_entriesSize es
    rw [hbase, Nat.zero_add, argWord_eq_regWord _ _ (by omega)] at hsecond
    rw [BitVec.ofNat_add]
    exact hsecond
  · subst heq
    rw [← hnext]
    rw [entriesSize_cons] at hsplit
    exact outputFnArgsLoop_head hpart (by omega) (by omega) hrest

section First

variable {before after : List FuncParam} {p q : FuncParam}

theorem firstSlot_first (hone : ∀ r ∈ before, twoRegs heap r = false) :
    firstSlot heap (before ++ p :: after) before.length = before.length := by
  refine firstSlot_one ?_ ?_
  · rw [List.length_append]
    exact Nat.le_add_right _ _
  · rw [List.take_left]
    exact hone

/-- The registers of the parameter behind the first one that has two. -/
theorem firstSlot_next (hone : ∀ r ∈ before, twoRegs heap r = false) (htwo : twoRegs heap p = true) :
    firstSlot heap (before ++ p :: after) (before.length + 1) = before.length + 2 := by
  have htake : (before ++ p :: after).take (before.length + 1) = before ++ [p] := by
    rw [List.take_append, List.take_of_length_le (Nat.le_succ _), Nat.add_sub_cancel_left]
    rfl
  have hcount : before.countP (twoRegs heap) = 0 := List.countP_eq_zero.mpr fun r hr => by simp [hone r hr]
  have hlen : before.length + 1 ≤ (before ++ p :: after).length := by
    rw [List.length_append, List.length_cons]
    omega
  rw [firstSlot_eq _ hlen, htake, List.countP_append, hcount, List.countP_singleton, htwo]
  rfl

variable (hparams : proto.params = before ++ p :: after) (hone : ∀ r ∈ before, twoRegs heap r = false)
  (htwo : twoRegs heap p = true) (hlen : es.length = before.length) (hparts : ∀ prm ∈ es, prm.partOfPrevParam = false)
include hparams hone htwo hlen hparts

/-- Where it is the last parameter, it is given no second register. -/
theorem not_argsRoundTrip_last (hlast : after = [])
    (hsize : (genOutputFuncArgs (es ++ {} :: { partOfPrevParam := true } :: rest) ret withRetval).2 ≤ 2 ^ 15) :
    ¬ ArgsRoundTrip heap proto (es ++ {} :: { partOfPrevParam := true } :: rest) ret isAction withRetval := by
  intro hrt
  obtain ⟨m, values, retval, hattr, -, hfirst, -⟩ := hrt.around hsize hparts (onesBut es.length)
  have hslot : firstSlot heap proto.params es.length = es.length := by
    rw [hparams, hlen, firstSlot_first hone]
  have hp : proto.params[es.length]? = some p := by
    rw [hparams, hlen, List.getElem?_append_right (Nat.le_refl _), Nat.sub_self]
    rfl
  have hentry : (es ++ {} :: { partOfPrevParam := true } :: rest)[firstSlot heap proto.params es.length]? = some {} := by
    rw [hslot, List.getElem?_append_right (Nat.le_refl _), Nat.sub_self]
    rfl
  have hown := hattr.params es.length p {} _ hp hentry hfirst
  rw [ParamAttributed, htwo, if_pos rfl, hslot] at hown
  have hend : ¬ (es.length : Int) < (proto.params.length : Int) - 1 := by
    rw [hparams, hlast, List.length_append, hlen]
    simp
  have hnone : regWord (onesBut es.length).mem 0 (es.length + 1) = 0 := hown.2.symm.trans (if_neg hend)
  rw [regWord_onesBut_succ] at hnone
  exact onesWord_ne hnone

/-- Else the parameter behind it is given its second register. -/
theorem not_argsRoundTrip_next {group : List FuncParamFlags} {after' : List FuncParam} (hafter : after = q :: after')
    (hq : Entries heap q group)
    (hsize : (genOutputFuncArgs (es ++ {} :: { partOfPrevParam := true } :: (group ++ rest)) ret withRetval).2 ≤ 2 ^ 15) :
    ¬ ArgsRoundTrip heap proto (es ++ {} :: { partOfPrevParam := true } :: (group ++ rest)) ret isAction withRetval := by
  intro hrt
  obtain ⟨m, values, retval, hattr, hsecond, -, hbehind⟩ := hrt.around hsize hparts (onesBut (es.length + 1))
  have hzero := hsecond.trans (regWord_onesBut _)
  have hslot : firstSlot heap proto.params (es.length + 1) = es.length + 2 := by
    rw [hparams, hlen, firstSlot_next hone htwo]
  have hword : regWord (onesBut (es.length + 1)).mem (zeroState.regs R1) (es.length + 2) = onesWord :=
    regWord_onesBut_succ (es.length + 1)
  have hq' : proto.params[es.length + 1]? = some q := by
    rw [hparams, hafter, hlen, List.getElem?_append_right (Nat.le_add_right _ 1), Nat.add_sub_cancel_left]
    rfl
  have hentry : (es ++ {} :: { partOfPrevParam := true } :: (group ++ rest))[firstSlot heap proto.params (es.length + 1)]?
      = (group ++ rest)[0]? := by
    rw [hslot, List.getElem?_append_right (Nat.le_add_right _ 2), Nat.add_sub_cancel_left]
    rfl
  cases hq with
  | one prm hregs hpart =>
    have hown := hattr.params _ q prm _ hq' hentry (hbehind prm rest rfl hpart)
    rw [ParamAttributed, hregs, hslot, hword] at hown
    have hnear : (es.length + 1) * 8 < 2 ^ 15 := by
      have hentries := length_le_entriesSize es
      have htotal := genOutputFuncArgs_snd (es ++ {} :: { partOfPrevParam := true } :: ([prm] ++ rest)) ret withRetval
      have hsum : (List.map FuncParamFlags.size (es ++ {} :: { partOfPrevParam := true } :: ([prm] ++ rest))).sum
          = entriesSize es + (8 + (8 + entriesSize ([prm] ++ rest))) := entriesSize_append es _
      omega
    exact valueAt_ne_paramValue (onesBut_onesWord hnear) hzero ((valueWithNext_own ..).symm.trans hown)
  | two hregs =>
    have hown := hattr.params _ q {} _ hq' hentry (hbehind {} ({ partOfPrevParam := true } :: rest) rfl rfl)
    rw [ParamAttributed, hregs, if_pos rfl, hslot, hword] at hown
    exact onesWord_ne (hown.1.symm.trans hzero)

end First

/-- **A parameter of two registers breaks the round trip.** -/
theorem one_of_argsRoundTrip (h : getFuncParams heap isConstCharPtr proto = .ok (slots, ret))
    (hsize : (genOutputFuncArgs slots ret withRetval).2 ≤ 2 ^ 15)
    (hrt : ArgsRoundTrip heap proto slots ret isAction withRetval) : ∀ p ∈ proto.params, twoRegs heap p = false := by
  cases hfind : proto.params.find? (twoRegs heap) with
  | none => exact fun p hp => by simpa using List.find?_eq_none.mp hfind p hp
  | some p =>
    exfalso
    obtain ⟨htwo, before, after, hparams, hbefore⟩ := List.find?_eq_some_iff_append.mp hfind
    have hone : ∀ q ∈ before, twoRegs heap q = false := fun q hq => by simpa using hbefore q hq
    obtain ⟨groups, rfl, hgroups⟩ := getFuncParams_entries h
    obtain ⟨es, behind, hflat, hlen, hparts, hafter⟩ := entries_two (hparams ▸ hgroups) hone htwo
    rw [hflat] at hsize hrt
    cases hafter with
    | nil => exact not_argsRoundTrip_last hparams hone htwo hlen hparts rfl hsize hrt
    | cons hq _ => exact not_argsRoundTrip_next hparams hone htwo hlen hparts rfl hq hsize hrt

end TwoRegisters

/-! ## All calls -/

section All

variable {heap : Heap} {isConstCharPtr : BtfType → Bool} {proto : FuncProto} {slots : List FuncParamFlags}
  {ret : FuncParamFlags} {isAction withRetval : Bool}

/-- A return value of more than 32 bits that is read as an action breaks it
too: a word of ones does not come back. -/
theorem fitsAction_of_argsRoundTrip (hsize : (genOutputFuncArgs slots ret withRetval).2 ≤ 2 ^ 15)
    (hrt : ArgsRoundTrip heap proto slots ret isAction withRetval) (hret : withRetval = true)
    (haction : isAction = true) : FitsAction heap proto.ret ret := by
  subst hret haction
  have hclear : BufferClear ((zeroState.set R3 onesWord).regs RFP) ((zeroState.set R3 onesWord).regs R2)
      (genOutputFuncArgs slots ret true).2 := zeroState_clear hsize
  obtain ⟨s', values, retval, -, -, hattr⟩ := hrt (onesBut 0) (zeroState.set R3 onesWord) hclear
  obtain ⟨r, -, hown⟩ := hattr.retval rfl
  cases r with
  | value num1 num2 str => exact absurd hown.1 (by decide)
  | action code =>
    obtain ⟨-, hstr, hnum, hcode⟩ := hown
    refine ⟨hstr, hnum, ?_⟩
    by_contra hwide
    rw [if_neg hwide, State.set_regs_self] at hcode
    have hlt : (code.setWidth 64).toNat < 2 ^ 32 := by
      rw [BitVec.toNat_setWidth]
      exact lt_of_le_of_lt (Nat.mod_le _ _) code.isLt
    rw [hcode] at hlt
    exact absurd hlt (by decide)

theorem entriesSize_groups {params : List FuncParam} {groups : List (List FuncParamFlags)}
    (h : List.Forall₂ (Entries heap) params groups) : entriesSize groups.flatten ≤ 64 * params.length := by
  induction h with
  | nil => exact Nat.le_refl 0
  | @cons p es params groups hp _ ih =>
    have hes : entriesSize es ≤ 64 := by
      cases hp with
      | one prm hregs hpart => exact prm.size_le
      | two hregs => decide
    rw [List.flatten_cons, entriesSize_append, List.length_cons]
    omega

/-- Up to 511 parameters the record is within reach. The functions that are
traced have at most 12 (`MAX_BPF_FUNC_ARGS`). -/
theorem genOutputFuncArgs_small (h : getFuncParams heap isConstCharPtr proto = .ok (slots, ret))
    (hcount : proto.params.length < 2 ^ 9) : (genOutputFuncArgs slots ret withRetval).2 ≤ 2 ^ 15 := by
  obtain ⟨groups, rfl, hgroups⟩ := getFuncParams_entries h
  have hparams := entriesSize_groups hgroups
  have htotal : (genOutputFuncArgs groups.flatten ret withRetval).2
      = entriesSize groups.flatten + if withRetval then ret.size else 0 := genOutputFuncArgs_snd _ _ _
  have hret := ret.size_le
  rw [htotal]
  split <;> omega

/-- **The record of a function's arguments is read back** if and only if no
parameter has two registers, and a return value that is read as an action
fits in its 32 bits. The displacements reach as far as the first 32768 bytes
(`genOutputFuncArgs_small`). -/
theorem funcArgs_roundTrip_iff (h : getFuncParams heap isConstCharPtr proto = .ok (slots, ret))
    (hsize : (genOutputFuncArgs slots ret withRetval).2 ≤ 2 ^ 15) :
    ArgsRoundTrip heap proto slots ret isAction withRetval ↔
      (∀ p ∈ proto.params, twoRegs heap p = false) ∧
        (withRetval = true → isAction = true → FitsAction heap proto.ret ret) :=
  ⟨fun hrt => ⟨one_of_argsRoundTrip h hsize hrt, fitsAction_of_argsRoundTrip hsize hrt⟩,
    fun hcond => argsRoundTrip_of_one h hsize hcond.1 hcond.2⟩

end All

/-- A string, a pointer to a number and a number. -/
def stringAndNumbers : FuncProto :=
  { params := [⟨"name", .pointer (.const (.int "char" 1 .char))⟩, ⟨"p", .pointer (.int "int" 4 .signed)⟩,
      ⟨"n", .int "u64" 8 .unsigned⟩]
    ret := .int "int" 4 .signed }

/-- An XDP program with these parameters. -/
theorem stringAndNumbers_read :
    getFuncParams pairHeap (· == .pointer (.const (.int "char" 1 .char))) stringAndNumbers =
        .ok ([{ isNumberPtr := true, isStr := true }, { isNumberPtr := true }, {}], {}) ∧
      ArgsRoundTrip pairHeap stringAndNumbers [{ isNumberPtr := true, isStr := true }, { isNumberPtr := true }, {}] {}
        true true := by
  have hparams : getFuncParams pairHeap (· == .pointer (.const (.int "char" 1 .char))) stringAndNumbers =
      .ok ([{ isNumberPtr := true, isStr := true }, { isNumberPtr := true }, {}], {}) := rfl
  exact ⟨hparams, (funcArgs_roundTrip_iff hparams (genOutputFuncArgs_small hparams (by decide))).mpr
    ⟨by decide, fun _ _ => ⟨rfl, rfl, by decide⟩⟩⟩

/-- **Behind a struct of 16 bytes a number is not read back.** -/
theorem structFirst_shifted :
    getFuncParams pairHeap (fun _ => false) structFirst = .ok ([{}, { partOfPrevParam := true }, {}], {}) ∧
      ¬ ArgsRoundTrip pairHeap structFirst [{}, { partOfPrevParam := true }, {}] {} false false := by
  have hparams : getFuncParams pairHeap (fun _ => false) structFirst =
      .ok ([{}, { partOfPrevParam := true }, {}], {}) := rfl
  refine ⟨hparams, fun hrt => ?_⟩
  have hone := one_of_argsRoundTrip hparams (genOutputFuncArgs_small hparams (by decide)) hrt
    ⟨"s", .struct "pair" 0⟩ List.mem_cons_self
  cases hone

end Bpfsnoop.Trace
