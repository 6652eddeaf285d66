/-
Bpfsnoop.Trace.FuncRecord — what `output_fn_args` leaves in the record.

The values stand one behind the other, each as long as its entry says. The
code of a value writes its own bytes only (`exec_outputValue`), so behind
the whole run every register is where the entries in front of it end
(`genOutputFuncArgs_exits`). The offsets are 16-bit displacements, so all of
it lies within the first 32768 bytes.
-/
import Bpfsnoop.CC.ReadTheorems
import Bpfsnoop.Trace.ArgWrites
import Bpfsnoop.Trace.ArgSlots
import Bpfsnoop.Trace.FuncArgs

namespace Bpfsnoop.Trace

open Ebpf Btf Reg CC

/-! ## Bytes -/

/-- The `n` bytes at `a`. -/
def readBytes (m : Word → Byte) (a : Word) (n : Nat) : List Byte :=
  (List.range n).map fun k => m (a + BitVec.ofNat 64 k)

section Bytes

variable {m m' : Word → Byte} {a : Word} {n k : Nat}

@[simp] theorem length_readBytes : (readBytes m a n).length = n := by simp [readBytes]

theorem readBytes_add (m : Word → Byte) (a : Word) (n k : Nat) :
    readBytes m a (n + k) = readBytes m a n ++ readBytes m (a + BitVec.ofNat 64 n) k := by
  rw [readBytes, List.range_add, List.map_append, List.map_map]
  congr 1
  refine List.map_congr_left fun i _ => ?_
  rw [Function.comp_apply, BitVec.ofNat_add, add_assoc]

theorem take_readBytes (m : Word → Byte) (a : Word) (h : k ≤ n) :
    (readBytes m a n).take k = readBytes m a k := by
  obtain ⟨j, rfl⟩ := Nat.exists_eq_add_of_le h
  rw [readBytes_add, List.take_left' length_readBytes]

theorem drop_readBytes (m : Word → Byte) (a : Word) (h : k ≤ n) :
    (readBytes m a n).drop k = readBytes m (a + BitVec.ofNat 64 k) (n - k) := by
  obtain ⟨j, rfl⟩ := Nat.exists_eq_add_of_le h
  rw [readBytes_add, List.drop_left' length_readBytes, Nat.add_sub_cancel_left]

theorem readBytes_getD (hk : k < n) : (readBytes m a n).getD k 0 = m (a + BitVec.ofNat 64 k) := by
  simp [readBytes, hk]

theorem readBytes_congr (h : ∀ k < n, m' (a + BitVec.ofNat 64 k) = m (a + BitVec.ofNat 64 k)) :
    readBytes m' a n = readBytes m a n :=
  List.map_congr_left fun k hk => h k (List.mem_range.mp hk)

/-- Nothing but the `n` bytes at `a` has changed. -/
def OnlyAt (a : Word) (n : Nat) (m m' : Word → Byte) : Prop :=
  ∀ x, n ≤ (x - a).toNat → m' x = m x

theorem OnlyAt.refl (a : Word) (m : Word → Byte) : OnlyAt a 0 m m := fun _ _ => rfl

theorem OnlyAt.append {m₁ : Word → Byte} (h : OnlyAt a n m m₁)
    (h' : OnlyAt (a + BitVec.ofNat 64 n) k m₁ m') (hlt : n + k < 2 ^ 64) : OnlyAt a (n + k) m m' := by
  intro x hx
  have hfar : k ≤ (x - (a + BitVec.ofNat 64 n)).toNat := by
    rw [← sub_sub, BitVec.toNat_sub, BitVec.toNat_ofNat]
    omega
  rw [h' x hfar, h x (by omega)]

/-- The bytes in front are as before. -/
theorem OnlyAt.front (h : OnlyAt (a + BitVec.ofNat 64 n) k m m') (hlt : n + k < 2 ^ 64) {j : Nat}
    (hj : j < n) : m' (a + BitVec.ofNat 64 j) = m (a + BitVec.ofNat 64 j) := by
  refine h _ ?_
  rw [add_sub_add_left_eq_sub, BitVec.toNat_sub, BitVec.toNat_ofNat, BitVec.toNat_ofNat]
  omega

end Bytes

/-! ## A value in the record -/

/-- The string at `w`, of which `output_fn_args` reads 63 bytes at most. -/
def stringAt (K : Kernel) (w : Word) : List Byte :=
  readBytes K.mem w (strLen K.mem w (maxOutputStrLen - 1))

/-- The bytes at `a` are those of the value `w` of an entry. -/
structure HoldsValue (K : Kernel) (prm : FuncParamFlags) (w : Word) (m : Word → Byte) (a : Word) : Prop where
  str : prm.isStr = true → nullTerminated (readBytes m a maxOutputStrLen) = stringAt K w
  word : prm.isStr = false → loadLE m a 8 = w
  number : prm.isStr = false → prm.isNumberPtr = true → loadLE m (a + 8) 8 = loadLE K.mem w 8

section HoldsValue

variable {K : Kernel} {prm : FuncParamFlags} {w a : Word} {m m' : Word → Byte}

theorem HoldsValue.congr (h : HoldsValue K prm w m a)
    (heq : ∀ j < prm.size, m' (a + BitVec.ofNat 64 j) = m (a + BitVec.ofNat 64 j)) :
    HoldsValue K prm w m' a where
  str hstr := by
    have hsize : prm.size = maxOutputStrLen := by simp [FuncParamFlags.size, hstr]
    rw [← h.str hstr, readBytes_congr fun k hk => heq k (by omega)]
  word hstr := by
    have hsize : 8 ≤ prm.size := by
      rw [FuncParamFlags.size, if_neg (by simp [hstr])]
      split <;> decide
    rw [← h.word hstr]
    exact loadLE_congr fun i hi => heq i (by omega)
  number hstr hnum := by
    have hsize : prm.size = 16 := by simp [FuncParamFlags.size, hstr, hnum]
    rw [← h.number hstr hnum]
    refine loadLE_congr fun i hi => ?_
    have hshift : a + 8 + BitVec.ofNat 64 i = a + BitVec.ofNat 64 (8 + i) := by
      rw [add_assoc, BitVec.ofNat_add]
      rfl
    rw [hshift, heq (8 + i) (by omega)]

theorem strLen_ne_zero {m : Word → Byte} : ∀ {n k : Nat} {a : Word}, k < strLen m a n →
    m (a + BitVec.ofNat 64 k) ≠ 0
  | 0, _, _, h => absurd h (Nat.not_lt_zero _)
  | n + 1, k, a, h => by
    unfold strLen at h
    split at h
    · exact absurd h (Nat.not_lt_zero _)
    · rename_i hne
      cases k with
      | zero => simpa using hne
      | succ k =>
        have hrest := strLen_ne_zero (a := a + 1) (Nat.lt_of_succ_lt_succ h)
        have hshift : a + BitVec.ofNat 64 (k + 1) = a + 1 + BitVec.ofNat 64 k := by
          rw [Nat.add_comm, BitVec.ofNat_add, ← add_assoc]
          rfl
        rwa [hshift]

/-- A string is read up to its NUL. -/
theorem Fills.nullTerminated {n : Nat} (hn : 0 < n) (h : Fills a n (strByte K w n) m m') :
    nullTerminated (readBytes m' a n) = readBytes K.mem w (strLen K.mem w (n - 1)) := by
  have hlen := strLen_le K.mem w (n - 1)
  generalize hl : strLen K.mem w (n - 1) = l at hlen
  obtain ⟨j, rfl⟩ : ∃ j, n = l + (1 + j) := ⟨n - l - 1, by omega⟩
  have htext : readBytes m' a l = readBytes K.mem w l := by
    refine List.map_congr_left fun k hk => ?_
    have hlt := List.mem_range.mp hk
    rw [h.inside k (by omega), strByte, hl, if_pos hlt, Option.getD_some]
  have hnul : readBytes m' (a + BitVec.ofNat 64 l) 1 = [0] := by
    simp [readBytes, h.inside l (by omega), strByte, hl]
  rw [readBytes_add, readBytes_add, htext, hnul, Trace.nullTerminated, List.takeWhile_append_of_pos]
  · simp
  · intro b hb
    obtain ⟨k, hk, rfl⟩ := List.mem_map.mp hb
    rw [← hl] at hk
    simpa using strLen_ne_zero (List.mem_range.mp hk)

end HoldsValue

/-! ## The code of a value -/

section Code

variable {K : Kernel} {s : State}

/-- The registers from `r6` up are as before, but for `reg`. -/
def KeepsBut (reg : Reg) (s t : State) : Prop := ∀ q, R6 ≤ q → q ≠ reg → t.regs q = s.regs q

theorem KeepsBut.trans {reg : Reg} {t u : State} (h : KeepsBut reg s t) (h' : KeepsBut reg t u) :
    KeepsBut reg s u := fun q hq hne => (h' q hq hne).trans (h q hq hne)

theorem keepsBut_set {reg r : Reg} (hr : r < R6 ∨ r = reg) (w : Word) : KeepsBut reg s (s.set r w) := by
  intro q hq hne
  refine State.set_regs_of_ne s w ?_
  rintro rfl
  rcases hr with hlt | rfl
  · exact absurd hlt (not_lt.mpr hq)
  · exact hne rfl

/-- A call leaves the registers from `r6` up. -/
theorem keepsBut_afterCall (reg : Reg) {t : State} (h : t.regs = s.regs) : KeepsBut reg s (t.afterCall K false) := by
  intro q hq _
  have hclob : clobbered false q = false := clobbered_of_lt false q (lt_of_lt_of_le (by decide) hq)
  simp [State.afterCall, hclob, h]

/-- The store into the buffer. -/
theorem exec_storeBuff (is : List Insn) {off : Nat} (src : Reg) (hoff : off < 2 ^ 15) :
    exec K ((Asm.storeMem regBuff (int16 (BitVec.ofNat 64 off)) src .dword : Insn) :: is) .run s
      = exec K is .run { s with
          out := writeBytes s.out (s.regs R7 + BitVec.ofNat 64 off) 8 (byteOf (s.regs src)) } := by
  have hsmall : (BitVec.ofNat 64 off).toNat < 2 ^ 15 := by
    rw [BitVec.toNat_ofNat]
    omega
  rw [exec_stx, Op.exec, signExtend_int16 hsmall]
  rfl

/-- The code that reads the number behind `r3` into `reg`, through the
frame. -/
def readNumberCode (reg : Reg) : List Insn := probeCall ++ [(Asm.loadMem reg RFP (-8) .dword : Insn)]

theorem probed_keeps (reg : Reg) (s : State) : KeepsBut reg s (probed K s) :=
  fun q hq _ => (probed_frame K s).regs q (not_le.mpr (lt_of_lt_of_le (by decide) hq))

theorem exec_readNumberCode (reg : Reg) (s : State) :
    ∃ s', exec K (readNumberCode reg) .run s = .cont .run s' ∧
      s'.regs reg = loadLE K.mem (s.regs R3) 8 ∧ s'.out = s.out ∧ KeepsBut reg s s' := by
  refine ⟨_, exec_probeCall K s _, ?_, ?_, ?_⟩
  · rw [State.set_regs_self, if_pos rfl]
    exact probed_slot K s
  · exact (probed_frame K s).out
  · exact (probed_keeps reg s).trans (keepsBut_set (.inr rfl) _)

/-- The code that reads the string behind `r3` into the buffer. -/
def readStringCode (offset : Nat) : List Insn :=
  let toBuff : List Insn := [Asm.movImm R2 (BitVec.ofNat 64 maxOutputStrLen), Asm.movReg R1 regBuff]
  let advance : List Insn := [Asm.addImm R1 (int32 (BitVec.ofNat 64 offset))]
  let readStr : List Insn := [Op.call .probeReadKernelStr]
  toBuff ++ (if offset ≠ 0 then advance else []) ++ readStr

/-- The registers of the call in `readStringCode`. -/
def stringState (s : State) (offset : Nat) : State :=
  (s.set R2 (BitVec.ofNat 64 maxOutputStrLen)).set R1 (s.regs R7 + BitVec.ofNat 64 offset)

theorem stringState_keeps (reg : Reg) (s : State) (offset : Nat) : KeepsBut reg s (stringState s offset) :=
  (keepsBut_set (.inl (by decide)) _).trans (keepsBut_set (.inl (by decide)) _)

theorem exec_readStringCode_eq {offset : Nat} (hoff : offset < 2 ^ 15) : exec K (readStringCode offset) .run s
    = .cont .run (Helper.probeReadKernelStr.exec K (stringState s offset)) := by
  have hsmall : (BitVec.ofNat 64 offset).toNat < 2 ^ 15 := by
    rw [BitVec.toNat_ofNat]
    omega
  have hlen : int32 (BitVec.ofNat 64 maxOutputStrLen) = BitVec.ofNat 64 maxOutputStrLen := by decide
  have hbuff : (s.set R2 (BitVec.ofNat 64 maxOutputStrLen)).regs regBuff = s.regs R7 :=
    State.set_regs_of_ne _ _ (by decide)
  unfold readStringCode stringState
  by_cases hz : offset = 0
  · simp [hz, AluOp.eval, hlen, hbuff]
  · simp [hz, AluOp.eval, hlen, int32_small hsmall, hbuff]

theorem exec_readStringCode {offset : Nat} (reg : Reg) (hoff : offset < 2 ^ 15)
    (hclear : inFrame (s.regs RFP) (s.regs R7 + BitVec.ofNat 64 offset) = false) :
    ∃ s', exec K (readStringCode offset) .run s = .cont .run s' ∧ KeepsBut reg s s' ∧
      Fills (s.regs R7 + BitVec.ofNat 64 offset) maxOutputStrLen
        (strByte K (s.regs R3) maxOutputStrLen) s.out s'.out := by
  have h1 : (stringState s offset).regs R1 = s.regs R7 + BitVec.ofNat 64 offset := State.set_regs_self _ _ _
  have h2 : ((stringState s offset).regs R2).toNat = maxOutputStrLen := by
    rw [stringState, State.set_regs_of_ne _ _ (by decide), State.set_regs_self]
    rfl
  have h3 : (stringState s offset).regs R3 = s.regs R3 := by
    rw [stringState, State.set_regs_of_ne _ _ (by decide), State.set_regs_of_ne _ _ (by decide)]
  have hfp : (stringState s offset).regs RFP = s.regs RFP := by
    rw [stringState, State.set_regs_of_ne _ _ (by decide), State.set_regs_of_ne _ _ (by decide)]
  obtain ⟨-, hfills⟩ := helper_fills (K := K) (s := stringState s offset) .probeReadKernelStr
    fun _ => by rw [h1, hfp]; exact hclear
  rw [h1, h2, h3] at hfills
  refine ⟨_, exec_readStringCode_eq hoff, ?_, hfills⟩
  exact (stringState_keeps reg s offset).trans (keepsBut_afterCall reg (write_regs _ _ _))

/-- `outputValue` with the value moved to `r3`. -/
theorem outputValue_eq (reg : Reg) (offset : Nat) (prm : FuncParamFlags) :
    outputValue reg (moveToR3 reg) offset prm
      = if prm.isStr then moveToR3 reg ++ readStringCode offset
        else (Asm.storeMem regBuff (int16 (BitVec.ofNat 64 offset)) reg .dword : Insn) ::
          if prm.isNumberPtr then moveToR3 reg ++ readNumberCode reg
            ++ [(Asm.storeMem regBuff (int16 (BitVec.ofNat 64 (offset + 8))) reg .dword : Insn)]
          else [] := by
  unfold outputValue readStringCode readNumberCode
  by_cases hstr : prm.isStr = true
  · simp [hstr]
  · by_cases hnum : prm.isNumberPtr = true
    · simp [hstr, hnum, probeCall]
    · simp [hstr, hnum]

theorem OnlyAt.write (m : Word → Byte) (a : Word) (n : Nat) (f : Nat → Byte) :
    OnlyAt a n m (writeBytes m a n f) := fun _ hx => writeBytes_outside m a f hx

/-- A string in the record. -/
theorem exec_outputStr {reg : Reg} {offset : Nat} {prm : FuncParamFlags} (hstr : prm.isStr = true)
    (hoff : offset < 2 ^ 15) (hclear : inFrame (s.regs RFP) (s.regs R7 + BitVec.ofNat 64 offset) = false) :
    ∃ s', exec K (outputValue reg (moveToR3 reg) offset prm) .run s = .cont .run s' ∧ KeepsBut reg s s' ∧
      OnlyAt (s.regs R7 + BitVec.ofNat 64 offset) prm.size s.out s'.out ∧
      HoldsValue K prm (s.regs reg) s'.out (s.regs R7 + BitVec.ofNat 64 offset) := by
  have h7 : (s.set R3 (s.regs reg)).regs R7 = s.regs R7 := State.set_regs_of_ne _ _ (by decide)
  have hfp : (s.set R3 (s.regs reg)).regs RFP = s.regs RFP := State.set_regs_of_ne _ _ (by decide)
  have h3 : (s.set R3 (s.regs reg)).regs R3 = s.regs reg := State.set_regs_self _ _ _
  have hsize : prm.size = maxOutputStrLen := by simp [FuncParamFlags.size, hstr]
  obtain ⟨s', hexec, hkeeps, hfills⟩ := exec_readStringCode (K := K) (s := s.set R3 (s.regs reg)) reg hoff
    (by rw [h7, hfp]; exact hclear)
  rw [h7, h3] at hfills
  refine ⟨s', ?_, (keepsBut_set (.inl (by decide)) _).trans hkeeps, ?_, ?_⟩
  · rw [outputValue_eq, if_pos hstr, exec_append_of_run (exec_moveToR3 reg), hexec]
  · rw [hsize]
    exact hfills.outside
  · refine ⟨fun _ => hfills.nullTerminated (by decide), fun h => ?_, fun h => ?_⟩
    · rw [hstr] at h
      cases h
    · rw [hstr] at h
      cases h

/-- A number in the record. -/
theorem exec_outputPlain {reg : Reg} {offset : Nat} {prm : FuncParamFlags} (hstr : prm.isStr = false)
    (hnum : prm.isNumberPtr = false) (hoff : offset < 2 ^ 15) :
    ∃ s', exec K (outputValue reg (moveToR3 reg) offset prm) .run s = .cont .run s' ∧ KeepsBut reg s s' ∧
      OnlyAt (s.regs R7 + BitVec.ofNat 64 offset) prm.size s.out s'.out ∧
      HoldsValue K prm (s.regs reg) s'.out (s.regs R7 + BitVec.ofNat 64 offset) := by
  have hsize : prm.size = 8 := by simp [FuncParamFlags.size, hstr, hnum]
  refine ⟨{ s with out := writeBytes s.out (s.regs R7 + BitVec.ofNat 64 offset) 8 (byteOf (s.regs reg)) },
    ?_, fun _ _ _ => rfl, ?_, ?_⟩
  · rw [outputValue_eq, hstr, hnum]
    exact exec_storeBuff [] reg hoff
  · rw [hsize]
    exact OnlyAt.write _ _ _ _
  · refine ⟨fun h => ?_, fun _ => loadLE_writeBytes _ _ _, fun _ h => ?_⟩
    · rw [hstr] at h
      cases h
    · rw [hnum] at h
      cases h

/-- A number pointer in the record, and the number behind it. -/
theorem exec_outputNumberPtr {reg : Reg} {offset : Nat} {prm : FuncParamFlags} (hreg : reg = R3 ∨ reg = R8)
    (hstr : prm.isStr = false) (hnum : prm.isNumberPtr = true) (hoff : offset + 8 < 2 ^ 15) :
    ∃ s', exec K (outputValue reg (moveToR3 reg) offset prm) .run s = .cont .run s' ∧ KeepsBut reg s s' ∧
      OnlyAt (s.regs R7 + BitVec.ofNat 64 offset) prm.size s.out s'.out ∧
      HoldsValue K prm (s.regs reg) s'.out (s.regs R7 + BitVec.ofNat 64 offset) := by
  have hsize : prm.size = 16 := by simp [FuncParamFlags.size, hstr, hnum]
  have hne7 : R7 ≠ reg := by rcases hreg with rfl | rfl <;> decide
  -- behind the store of the pointer, and the move to `r3`
  let t : State := { s with out := writeBytes s.out (s.regs R7 + BitVec.ofNat 64 offset) 8 (byteOf (s.regs reg)) }
  let u : State := t.set R3 (s.regs reg)
  have hu3 : u.regs R3 = s.regs reg := State.set_regs_self _ _ _
  have hkeepsU : KeepsBut reg s u := keepsBut_set (s := t) (.inl (by decide)) _
  have hstart : exec K ((Asm.storeMem regBuff (int16 (BitVec.ofNat 64 offset)) reg .dword : Insn) :: moveToR3 reg)
      .run s = .cont .run u := by
    rw [exec_storeBuff _ reg (by omega)]
    exact exec_moveToR3 reg
  obtain ⟨v, hread, hvreg, hvout, hkeepsV⟩ := exec_readNumberCode (K := K) reg u
  have h7 : v.regs R7 = s.regs R7 := (hkeepsU.trans hkeepsV) R7 (by decide) hne7
  have hnext : s.regs R7 + BitVec.ofNat 64 (offset + 8) = s.regs R7 + BitVec.ofNat 64 offset + BitVec.ofNat 64 8 := by
    rw [add_assoc, BitVec.ofNat_add]
  have hfirst : OnlyAt (s.regs R7 + BitVec.ofNat 64 offset) 8 s.out v.out := by
    rw [hvout]
    exact OnlyAt.write _ _ _ _
  have hsecond : OnlyAt (s.regs R7 + BitVec.ofNat 64 offset + BitVec.ofNat 64 8) 8 v.out
      (writeBytes v.out (s.regs R7 + BitVec.ofNat 64 offset + BitVec.ofNat 64 8) 8 (byteOf (v.regs reg))) :=
    OnlyAt.write _ _ _ _
  refine ⟨{ v with out := writeBytes v.out (s.regs R7 + BitVec.ofNat 64 (offset + 8)) 8 (byteOf (v.regs reg)) },
    ?_, fun q hq hne => (hkeepsU.trans hkeepsV) q hq hne, ?_, ?_⟩
  · have hcode : outputValue reg (moveToR3 reg) offset prm
        = (((Asm.storeMem regBuff (int16 (BitVec.ofNat 64 offset)) reg .dword : Insn) :: moveToR3 reg)
          ++ readNumberCode reg) ++ [(Asm.storeMem regBuff (int16 (BitVec.ofNat 64 (offset + 8))) reg .dword : Insn)] := by
      rw [outputValue_eq, hstr, hnum]
      simp
    have hboth : exec K (((Asm.storeMem regBuff (int16 (BitVec.ofNat 64 offset)) reg .dword : Insn) :: moveToR3 reg)
        ++ readNumberCode reg) .run s = .cont .run v := by
      rw [exec_append_of_run hstart, hread]
    rw [hcode, exec_append_of_run hboth, exec_storeBuff [] reg hoff, h7]
    rfl
  · rw [hsize, hnext]
    exact hfirst.append hsecond (by decide)
  · refine ⟨fun h => ?_, fun _ => ?_, fun _ _ => ?_⟩
    · rw [hstr] at h
      cases h
    · have hfront : ∀ j < 8, writeBytes v.out (s.regs R7 + BitVec.ofNat 64 (offset + 8)) 8 (byteOf (v.regs reg))
          (s.regs R7 + BitVec.ofNat 64 offset + BitVec.ofNat 64 j)
          = v.out (s.regs R7 + BitVec.ofNat 64 offset + BitVec.ofNat 64 j) := by
        intro j hj
        rw [hnext]
        exact hsecond.front (by decide) hj
      rw [loadLE_congr hfront, hvout]
      exact loadLE_writeBytes _ _ _
    · have hplace : s.regs R7 + BitVec.ofNat 64 offset + 8 = s.regs R7 + BitVec.ofNat 64 (offset + 8) := hnext.symm
      rw [hplace, loadLE_writeBytes, hvreg, hu3]

/-- **A value in the record.** Its code writes its own bytes only. -/
theorem exec_outputValue {reg : Reg} {offset : Nat} {prm : FuncParamFlags} (hreg : reg = R3 ∨ reg = R8)
    (hoff : offset + prm.size ≤ 2 ^ 15)
    (hclear : inFrame (s.regs RFP) (s.regs R7 + BitVec.ofNat 64 offset) = false) :
    ∃ s', exec K (outputValue reg (moveToR3 reg) offset prm) .run s = .cont .run s' ∧ KeepsBut reg s s' ∧
      OnlyAt (s.regs R7 + BitVec.ofNat 64 offset) prm.size s.out s'.out ∧
      HoldsValue K prm (s.regs reg) s'.out (s.regs R7 + BitVec.ofNat 64 offset) := by
  cases hstr : prm.isStr with
  | true =>
    have hsize : prm.size = 64 := by simp [FuncParamFlags.size, hstr, maxOutputStrLen]
    exact exec_outputStr hstr (by omega) hclear
  | false =>
    cases hnum : prm.isNumberPtr with
    | true =>
      have hsize : prm.size = 16 := by simp [FuncParamFlags.size, hstr, hnum]
      exact exec_outputNumberPtr hreg hstr hnum (by omega)
    | false =>
      have hsize : prm.size = 8 := by simp [FuncParamFlags.size, hstr, hnum]
      exact exec_outputPlain hstr hnum (by omega)

end Code

/-! ## The whole record -/

/-- The entries hold the argument words from the `i`-th on, one behind the
other. -/
def Records (K : Kernel) (args : Word) (m : Word → Byte) : Nat → Word → List FuncParamFlags → Prop
  | _, _, [] => True
  | i, a, prm :: prms => HoldsValue K prm (argWord K.mem args i) m a ∧
      Records K args m (i + 1) (a + BitVec.ofNat 64 prm.size) prms

/-- The size of some entries. -/
def entriesSize (prms : List FuncParamFlags) : Nat := (prms.map FuncParamFlags.size).sum

@[simp] theorem entriesSize_cons (prm : FuncParamFlags) (prms : List FuncParamFlags) :
    entriesSize (prm :: prms) = prm.size + entriesSize prms := List.sum_cons

/-- None of the first `n` bytes of the buffer is in the frame. -/
def BufferClear (fp buff : Word) (n : Nat) : Prop := ∀ k < n, inFrame fp (buff + BitVec.ofNat 64 k) = false

theorem Records.congr {K : Kernel} {args a : Word} {m m' : Word → Byte} {i : Nat} {prms : List FuncParamFlags}
    (h : Records K args m i a prms) (heq : ∀ j < entriesSize prms, m' (a + BitVec.ofNat 64 j) = m (a + BitVec.ofNat 64 j)) :
    Records K args m' i a prms := by
  induction prms generalizing i a with
  | nil => trivial
  | cons prm prms ih =>
    rw [entriesSize_cons] at heq
    refine ⟨h.1.congr fun j hj => heq j (by omega), ih h.2 fun j hj => ?_⟩
    have hplace : a + BitVec.ofNat 64 prm.size + BitVec.ofNat 64 j = a + BitVec.ofNat 64 (prm.size + j) := by
      rw [add_assoc, BitVec.ofNat_add]
    rw [hplace]
    exact heq _ (by omega)

section Record

variable {K : Kernel} {s : State}

theorem FuncParamFlags.eight_le_size (prm : FuncParamFlags) : 8 ≤ prm.size := by
  unfold FuncParamFlags.size
  split
  · decide
  · split <;> decide

theorem exec_outputParam {i offset : Nat} {prm : FuncParamFlags} (hoff : offset + prm.size ≤ 2 ^ 15)
    (hclear : inFrame (s.regs RFP) (s.regs R7 + BitVec.ofNat 64 offset) = false) :
    ∃ s', exec K (outputParam i offset prm) .run s = .cont .run s' ∧ KeepsBut R3 s s' ∧
      OnlyAt (s.regs R7 + BitVec.ofNat 64 offset) prm.size s.out s'.out ∧
      HoldsValue K prm (argWord K.mem (s.regs R6) i) s'.out (s.regs R7 + BitVec.ofNat 64 offset) := by
  let t : State := s.set R3 (argWord K.mem (s.regs R6) i)
  have h7 : t.regs R7 = s.regs R7 := State.set_regs_of_ne _ _ (by decide)
  have hfp : t.regs RFP = s.regs RFP := State.set_regs_of_ne _ _ (by decide)
  have h3 : t.regs R3 = argWord K.mem (s.regs R6) i := State.set_regs_self _ _ _
  obtain ⟨s', hexec, hkeeps, honly, hholds⟩ := exec_outputValue (K := K) (s := t) (.inl rfl) hoff
    (by rw [h7, hfp]; exact hclear)
  rw [h7] at honly hholds
  rw [h3] at hholds
  refine ⟨s', ?_, (keepsBut_set (.inl (by decide)) _).trans hkeeps, honly, hholds⟩
  have hload : exec K [loadArg R6 i R3] .run s = .cont .run t := exec_loadArg K s (by decide) i
  have hcode : outputParam i offset prm = [loadArg R6 i R3] ++ outputValue R3 (moveToR3 R3) offset prm := rfl
  rw [hcode, exec_append_of_run hload, hexec]

/-- The code of some parameters. -/
theorem exec_outputParams {prms : List FuncParamFlags} {i offset : Nat}
    (hoff : offset + entriesSize prms ≤ 2 ^ 15)
    (hclear : BufferClear (s.regs RFP) (s.regs R7) (offset + entriesSize prms)) :
    ∃ s', exec K (outputParams i offset prms).1 .run s = .cont .run s' ∧ KeepsBut R3 s s' ∧
      OnlyAt (s.regs R7 + BitVec.ofNat 64 offset) (entriesSize prms) s.out s'.out ∧
      Records K (s.regs R6) s'.out i (s.regs R7 + BitVec.ofNat 64 offset) prms := by
  induction prms generalizing i offset s with
  | nil => exact ⟨s, rfl, fun _ _ _ => rfl, OnlyAt.refl _ _, trivial⟩
  | cons prm prms ih =>
    rw [entriesSize_cons] at hoff hclear ⊢
    have hpos := prm.eight_le_size
    have hfirst : offset + prm.size ≤ 2 ^ 15 := by omega
    obtain ⟨t, hhead, hkeepsT, honlyT, hholds⟩ := exec_outputParam (K := K) (i := i) hfirst
      (hclear offset (by omega))
    have h6 : t.regs R6 = s.regs R6 := hkeepsT R6 (by decide) (by decide)
    have h7 : t.regs R7 = s.regs R7 := hkeepsT R7 (by decide) (by decide)
    have hfp : t.regs RFP = s.regs RFP := hkeepsT RFP (by decide) (by decide)
    have hrestSize : offset + prm.size + entriesSize prms ≤ 2 ^ 15 := by omega
    have hrestClear : BufferClear (t.regs RFP) (t.regs R7) (offset + prm.size + entriesSize prms) := by
      rw [h7, hfp]
      exact fun k hk => hclear k (by omega)
    obtain ⟨s', hrest, hkeeps, honly, hrecords⟩ := ih (i := i + 1) hrestSize hrestClear
    have hbase : s.regs R7 + BitVec.ofNat 64 (offset + prm.size)
        = s.regs R7 + BitVec.ofNat 64 offset + BitVec.ofNat 64 prm.size := by
      rw [add_assoc, BitVec.ofNat_add]
    rw [h7, hbase] at honly hrecords
    rw [h6] at hrecords
    refine ⟨s', ?_, hkeepsT.trans hkeeps, honlyT.append honly (by omega), ?_, hrecords⟩
    · rw [outputParams_cons_fst, exec_append_of_run hhead, hrest]
    · exact hholds.congr fun j hj => honly.front (by omega) hj

/-! ### No jumps -/

/-- No instruction refers to a label. -/
def Straight (code : List Insn) : Prop := ∀ i ∈ code, i.op.label? = none

theorem Straight.append {a b : List Insn} (ha : Straight a) (hb : Straight b) : Straight (a ++ b) := by
  intro i hi
  rcases List.mem_append.mp hi with h | h
  · exact ha i h
  · exact hb i h

theorem straight_ops (ops : List Op) (h : ∀ op ∈ ops, op.label? = none) : Straight (ops.map fun op => { op }) := by
  intro i hi
  obtain ⟨op, hop, rfl⟩ := List.mem_map.mp hi
  exact h op hop

theorem straight_outputValue (reg : Reg) {toArg : List Insn} (h : Straight toArg) (offset : Nat)
    (prm : FuncParamFlags) : Straight (outputValue reg toArg offset prm) := by
  unfold outputValue
  split
  · refine ((h.append (straight_ops [_, _] ?_)).append ?_).append (straight_ops [_] ?_)
    · simp [Op.label?]
    · split
      · exact straight_ops [_] (by simp [Op.label?])
      · exact straight_ops [] (by simp)
    · simp [Op.label?]
  split
  · refine (((straight_ops [_] ?_).append h).append (straight_ops [_, _, _, _, _] ?_)).append (straight_ops [_] ?_)
    · simp [Op.label?]
    · simp [Op.label?]
    · simp [Op.label?]
  · exact straight_ops [_] (by simp [Op.label?])

theorem straight_outputParams (prms : List FuncParamFlags) (i offset : Nat) :
    Straight (outputParams i offset prms).1 := by
  induction prms generalizing i offset with
  | nil => exact straight_ops [] (by simp)
  | cons prm prms ih =>
    rw [outputParams_cons_fst]
    refine Straight.append (Straight.append (straight_ops [_] ?_) ?_) (ih _ _)
    · simp [Op.label?]
    · exact straight_outputValue _ (straight_ops [] (by simp)) _ _

theorem straight_genOutputFuncArgs (prms : List FuncParamFlags) (ret : FuncParamFlags) (withRetval : Bool) :
    Straight (genOutputFuncArgs prms ret withRetval).1 := by
  rw [genOutputFuncArgs_fst]
  refine ((straight_ops [_, _, _] ?_).append (straight_outputParams _ _ _)).append
    (Straight.append ?_ (straight_ops [_] ?_))
  · simp [Op.label?]
  · split
    · exact straight_outputValue _ (straight_ops [_] (by simp [Op.label?])) _ _
    · exact straight_ops [] (by simp)
  · simp [Op.label?]

/-- **What `output_fn_args` leaves in the buffer**: each entry its argument
word, and the return value behind them. -/
theorem genOutputFuncArgs_exits {prms : List FuncParamFlags} {ret : FuncParamFlags} {withRetval : Bool}
    (hsize : (genOutputFuncArgs prms ret withRetval).2 ≤ 2 ^ 15)
    (hclear : BufferClear (s.regs RFP) (s.regs R2) (genOutputFuncArgs prms ret withRetval).2) :
    ∃ s', Exits K (genOutputFuncArgs prms ret withRetval).1 s s' ∧ Records K (s.regs R1) s'.out 0 (s.regs R2) prms ∧
      (withRetval = true → HoldsValue K ret (s.regs R3) s'.out (s.regs R2 + BitVec.ofNat 64 (entriesSize prms))) := by
  have hlabels : LabelsForward (genOutputFuncArgs prms ret withRetval).1 :=
    @labelsForward_of_split [] _ (fun _ hi => by cases hi) (straight_genOutputFuncArgs prms ret withRetval)
  have htotal : (genOutputFuncArgs prms ret withRetval).2 = entriesSize prms + if withRetval then ret.size else 0 :=
    genOutputFuncArgs_snd prms ret withRetval
  rw [htotal] at hsize hclear
  let t : State := ((s.set R6 (s.regs R1)).set R7 (s.regs R2)).set R8 (s.regs R3)
  have hbackup : exec K backupRegs .run s = .cont .run t := rfl
  have h6 : t.regs R6 = s.regs R1 := rfl
  have h7 : t.regs R7 = s.regs R2 := rfl
  have hfp : t.regs RFP = s.regs RFP := rfl
  have hparamsSize : 0 + entriesSize prms ≤ 2 ^ 15 := by omega
  have hparamsClear : BufferClear (t.regs RFP) (t.regs R7) (0 + entriesSize prms) := by
    rw [h7, hfp]
    exact fun k hk => hclear k (by omega)
  obtain ⟨u, hparams, hkeeps, honly, hrecords⟩ := exec_outputParams (K := K) (i := 0) hparamsSize hparamsClear
  rw [h7, BitVec.add_zero, h6] at hrecords
  have hboth : exec K (backupRegs ++ (outputParams 0 0 prms).1) .run s = .cont .run u := by
    rw [exec_append_of_run hbackup, hparams]
  cases withRetval with
  | false =>
    refine ⟨u, exits_of_exec hlabels ?_, hrecords, fun h => by cases h⟩
    rw [genOutputFuncArgs_fst, exec_append_of_run hboth]
    rfl
  | true =>
    have hu7 : u.regs R7 = s.regs R2 := hkeeps R7 (by decide) (by decide)
    have hu8 : u.regs R8 = s.regs R3 := hkeeps R8 (by decide) (by decide)
    have hufp : u.regs RFP = s.regs RFP := hkeeps RFP (by decide) (by decide)
    have hpos := ret.eight_le_size
    rw [if_pos rfl] at hsize hclear
    have hretClear : inFrame (u.regs RFP) (u.regs R7 + BitVec.ofNat 64 (entriesSize prms)) = false := by
      rw [hu7, hufp]
      exact hclear _ (by omega)
    obtain ⟨v, hret, -, honlyRet, hholds⟩ := exec_outputValue (K := K) (.inr rfl) hsize hretClear
    rw [hu7, hu8] at hholds
    rw [hu7] at honlyRet
    refine ⟨v, exits_of_exec hlabels ?_, hrecords.congr fun j hj => ?_, fun _ => hholds⟩
    · have hcode : outputRetval (outputParams 0 0 prms).2 ret = outputValue R8 (moveToR3 R8) (entriesSize prms) ret := by
        rw [outputParams_snd, Nat.zero_add]
        rfl
      rw [genOutputFuncArgs_fst, exec_append_of_run hboth, if_pos rfl, hcode, exec_append_of_run hret]
      rfl
    · exact honlyRet.front (by omega) hj

end Record

end Bpfsnoop.Trace
