/-
Bpfsnoop.Trace.ArgWrites — the code of an output argument writes its slot.

The slot of an argument begins at its offset in the record: the data, then
the exception byte. `compile_writes`: as long as the slot ends within the
first 32768 bytes, the code of the argument writes nothing else. It leaves 1
in the exception byte, or 0 and the data of some value. Past that offset the
displacement of the exception byte is cut to 16 bits.
-/
import Bpfsnoop.CC.Reserved
import Bpfsnoop.Trace.ExitLabels

namespace Bpfsnoop.Trace

open Ebpf Btf Reg CC

/-! ## The data of a value -/

/-- The `k`-th byte of the string at `w`, read into `n` bytes. Nothing is
written behind its NUL. -/
def strByte (K : Kernel) (w : Word) (n k : Nat) : Option Byte :=
  if k < strLen K.mem w (n - 1) then some (K.mem (w + BitVec.ofNat 64 k))
  else if k = strLen K.mem w (n - 1) then some 0
  else none

/-- The `k`-th byte of a number, and of the number it points to. -/
def numByte (K : Kernel) (w : Word) (k : Nat) : Byte :=
  if k < 8 then byteOf w k else if w = 0 then 0 else K.mem (w + BitVec.ofNat 64 (k - 8))

/-- The `k`-th byte that the code of the argument writes for the value `w`,
which is an address unless the argument is a number. -/
def FuncArgumentOutput.dataByte (K : Kernel) (arg : FuncArgumentOutput) (w : Word) (k : Nat) :
    Option Byte :=
  match arg.type with
  | .default | .hist | .tdigest =>
    if arg.isStr then strByte K w arg.trueDataSize.toNat k else some (numByte K w k)
  | .string => strByte K w arg.trueDataSize.toNat k
  | _ => some (K.mem (w + BitVec.ofNat 64 k))

/-! ## Writing to the record -/

section Record

variable {K : Kernel} {s t : State}

theorem writeBytes_inside (m : Word → Byte) (dst : Word) {n k : Nat} (f : Nat → Byte) (hk : k < n)
    (hlt : k < 2 ^ 64) : writeBytes m dst n f (dst + BitVec.ofNat 64 k) = f k := by
  have hsub : (dst + BitVec.ofNat 64 k - dst).toNat = k := by
    rw [add_sub_cancel_left, BitVec.toNat_ofNat, Nat.mod_eq_of_lt hlt]
  rw [writeBytes, hsub, if_pos hk]

theorem writeBytes_outside (m : Word → Byte) (dst : Word) {n : Nat} (f : Nat → Byte) {a : Word}
    (ha : n ≤ (a - dst).toNat) : writeBytes m dst n f a = m a :=
  if_neg (not_lt.mpr ha)

/-- A displacement into the first 32768 bytes of the record. -/
theorem signExtend_int16 {off : Word} (h : off.toNat < 2 ^ 15) : (int16 off).signExtend 64 = off := by
  have hint : off.toInt = off.toNat := by
    rw [BitVec.toInt_eq_toNat_cond, if_pos (by omega)]
  exact int16_of_fits (by omega) (by omega)

theorem int32_small {x : Word} (h : x.toNat < 2 ^ 15) : int32 x = x := by
  have hint : x.toInt = x.toNat := by
    rw [BitVec.toInt_eq_toNat_cond, if_pos (by omega)]
  exact int32_of_fits (by omega) (by omega)

/-- The registers from `r8` up are as before. -/
def KeepsHigh (s t : State) : Prop := ∀ q, R8 ≤ q → t.regs q = s.regs q

theorem KeepsHigh.trans {u : State} (h : KeepsHigh s t) (h' : KeepsHigh t u) : KeepsHigh s u :=
  fun q hq => (h' q hq).trans (h q hq)

theorem keepsHigh_set {r : Reg} (hr : r < R8) (w : Word) : KeepsHigh s (s.set r w) :=
  (keeps_set hr w).regs

/-- A store into the record. -/
theorem exec_store (is : List Insn) (off : Word) (src : Reg) (size : Size) (hoff : off.toNat < 2 ^ 15) :
    exec K ((Asm.storeMem outputArgRegBuff (int16 off) src size : Insn) :: is) .run s
      = exec K is .run { s with
          out := writeBytes s.out (s.regs R8 + off) size.bytes (byteOf (s.regs src)) } := by
  rw [exec_stx, Op.exec, signExtend_int16 hoff]
  rfl

theorem exec_moveToR3 (reg : Reg) :
    exec K (moveToR3 reg) .run s = .cont .run (s.set R3 (s.regs reg)) := by
  unfold moveToR3
  by_cases hreg : reg = R3
  · simp [hreg]
  · simp [hreg, AluOp.eval]

/-- The registers of the call in `readToBuff`. -/
def readState (s : State) (offset size : Word) : State :=
  (s.set R2 size).set R1 (s.regs R8 + offset)

theorem readState_r1 (s : State) (offset size : Word) : (readState s offset size).regs R1 = s.regs R8 + offset :=
  State.set_regs_self _ _ _

theorem readState_r2 (s : State) (offset size : Word) : (readState s offset size).regs R2 = size := by
  rw [readState, State.set_regs_of_ne _ _ (by decide), State.set_regs_self]

theorem readState_r3 (s : State) (offset size : Word) : (readState s offset size).regs R3 = s.regs R3 := by
  rw [readState, State.set_regs_of_ne _ _ (by decide), State.set_regs_of_ne _ _ (by decide)]

theorem readState_keeps (s : State) (offset size : Word) : KeepsHigh s (readState s offset size) :=
  (keepsHigh_set (by decide) _).trans (keepsHigh_set (by decide) _)

theorem exec_readToBuff (fn : Helper) {offset size : Word} (hoff : offset.toNat < 2 ^ 15)
    (hsize : size.toNat < 2 ^ 15) :
    exec K (readToBuff fn offset size) .run s = .cont .run (fn.exec K (readState s offset size)) := by
  have hbuff : (s.set R2 size).regs outputArgRegBuff = s.regs R8 :=
    State.set_regs_of_ne _ _ (by decide)
  unfold readToBuff readState
  by_cases hz : offset = 0#64
  · simp [hz, AluOp.eval, int32_small hsize, hbuff]
  · simp [hz, AluOp.eval, int32_small hsize, int32_small hoff, hbuff]

/-- How much a read helper writes, and what. -/
def helperBytes (K : Kernel) (fn : Helper) (src : Word) (n k : Nat) : Option Byte :=
  match fn with
  | .probeReadKernel => some (K.mem (src + BitVec.ofNat 64 k))
  | .probeReadKernelStr => strByte K src n k

theorem strLen_le (m : Word → Byte) (a : Word) (n : Nat) : strLen m a n ≤ n := by
  induction n generalizing a with
  | zero => exact Nat.le_refl 0
  | succ n ih =>
    unfold strLen
    split
    · exact Nat.zero_le _
    · exact Nat.succ_le_succ (ih (a + 1))

/-- Of the `n` bytes at `base`, those that `data` gives are written, and
nothing else is. -/
structure Fills (base : Word) (n : Nat) (data : Nat → Option Byte) (before after : Word → Byte) : Prop where
  inside : ∀ k < n, after (base + BitVec.ofNat 64 k) = (data k).getD (before (base + BitVec.ofNat 64 k))
  outside : ∀ a, n ≤ (a - base).toNat → after a = before a

theorem Fills.write (base : Word) {n : Nat} (f : Nat → Byte) (m : Word → Byte) (hn : n < 2 ^ 64) :
    Fills base n (fun k => some (f k)) m (writeBytes m base n f) where
  inside _ hk := writeBytes_inside m base f hk (hk.trans hn)
  outside _ ha := writeBytes_outside m base f ha

theorem Fills.congr {base : Word} {n : Nat} {data data' : Nat → Option Byte} {m m' : Word → Byte}
    (h : Fills base n data m m') (heq : ∀ k < n, data k = data' k) : Fills base n data' m m' where
  inside k hk := by rw [← heq k hk, h.inside k hk]
  outside := h.outside

/-- The string helper writes up to the NUL. -/
theorem Fills.str (K : Kernel) (base src : Word) {n : Nat} (m : Word → Byte) (hn : n < 2 ^ 64)
    (hpos : n ≠ 0) :
    Fills base n (strByte K src n) m (writeBytes m base (strLen K.mem src (n - 1) + 1)
      fun i => if i < strLen K.mem src (n - 1) then K.mem (src + BitVec.ofNat 64 i) else 0) := by
  have hlen := strLen_le K.mem src (n - 1)
  constructor
  · intro k hk
    unfold strByte
    rcases lt_trichotomy k (strLen K.mem src (n - 1)) with hlt | heq | hgt
    · rw [writeBytes_inside _ _ _ (by omega) (by omega), if_pos hlt, if_pos hlt]
      rfl
    · rw [writeBytes_inside _ _ _ (by omega) (by omega), if_neg (by omega), if_neg (by omega),
        if_pos heq]
      rfl
    · rw [if_neg (by omega), if_neg (by omega)]
      have hsub : (base + BitVec.ofNat 64 k - base).toNat = k := by
        rw [add_sub_cancel_left, BitVec.toNat_ofNat, Nat.mod_eq_of_lt (by omega)]
      exact writeBytes_outside _ _ _ (by omega)
  · intro a ha
    exact writeBytes_outside _ _ _ (by omega)

/-- Two stretches, one behind the other. -/
theorem Fills.append {base : Word} {n k : Nat} {data data' : Nat → Option Byte}
    {m m₁ m₂ : Word → Byte} (h : Fills base n data m m₁)
    (h' : Fills (base + BitVec.ofNat 64 n) k data' m₁ m₂) (hlt : n + k < 2 ^ 64) :
    Fills base (n + k) (fun i => if i < n then data i else data' (i - n)) m m₂ where
  inside i hi := by
    by_cases hin : i < n
    · have hfar : k ≤ (base + BitVec.ofNat 64 i - (base + BitVec.ofNat 64 n)).toNat := by
        rw [add_sub_add_left_eq_sub, BitVec.toNat_sub, BitVec.toNat_ofNat, BitVec.toNat_ofNat]
        omega
      rw [if_pos hin, h'.outside _ hfar, h.inside i hin]
    · have hbase : base + BitVec.ofNat 64 i = base + BitVec.ofNat 64 n + BitVec.ofNat 64 (i - n) := by
        rw [add_assoc, ← BitVec.ofNat_add]
        congr 2
        omega
      have hsub : (base + BitVec.ofNat 64 i - base).toNat = i := by
        rw [add_sub_cancel_left, BitVec.toNat_ofNat, Nat.mod_eq_of_lt (by omega)]
      have hkept : m₁ (base + BitVec.ofNat 64 i) = m (base + BitVec.ofNat 64 i) :=
        h.outside _ (by omega)
      rw [if_neg hin, hbase, h'.inside (i - n) (by omega), ← hbase, hkept]
  outside a ha := by
    have hfar : k ≤ (a - (base + BitVec.ofNat 64 n)).toNat := by
      have hsplit : a - (base + BitVec.ofNat 64 n) = a - base - BitVec.ofNat 64 n := by
        rw [sub_sub]
      rw [hsplit, BitVec.toNat_sub, BitVec.toNat_ofNat]
      omega
    rw [h'.outside a hfar, h.outside a (by omega)]

theorem write_regs (dst : Word) (n : Nat) (f : Nat → Byte) : (s.write dst n f).regs = s.regs := by
  unfold State.write
  split <;> rfl

/-- A write into the record, or of nothing. -/
theorem write_out {dst : Word} {n : Nat} (f : Nat → Byte)
    (hout : n ≠ 0 → inFrame (s.regs RFP) dst = false) :
    (s.write dst n f).out = writeBytes s.out dst n f := by
  unfold State.write
  by_cases hframe : inFrame (s.regs RFP) dst = true
  · obtain rfl : n = 0 := by
      by_contra hne
      rw [hout hne] at hframe
      cases hframe
    funext a
    simp [hframe, writeBytes]
  · rw [if_neg hframe]

theorem keepsHigh_afterCall (h : t.regs = s.regs) : KeepsHigh s (t.afterCall K false) := by
  intro q hq
  have hclob : clobbered false q = false := clobbered_of_lt false q (lt_of_lt_of_le (by decide) hq)
  simp [State.afterCall, hclob, h]

/-- A read helper fills the bytes it is given, where these are not in the
frame. -/
theorem helper_fills (fn : Helper)
    (hout : (s.regs R2).toNat ≠ 0 → inFrame (s.regs RFP) (s.regs R1) = false) :
    KeepsHigh s (fn.exec K s) ∧ Fills (s.regs R1) (s.regs R2).toNat
      (helperBytes K fn (s.regs R3) (s.regs R2).toNat) s.out (fn.exec K s).out := by
  have hn := (s.regs R2).isLt
  cases fn with
  | probeReadKernel =>
    refine ⟨keepsHigh_afterCall (write_regs _ _ _), ?_⟩
    have hwrite := write_out (fun i => K.mem (s.regs R3 + BitVec.ofNat 64 i)) hout
    exact hwrite ▸ Fills.write _ _ _ hn
  | probeReadKernelStr =>
    refine ⟨keepsHigh_afterCall (write_regs _ _ _), ?_⟩
    by_cases hz : (s.regs R2).toNat = 0
    · have hwrite := @write_out s (s.regs R1) 0
        (fun i => if i < strLen K.mem (s.regs R3) ((s.regs R2).toNat - 1)
          then K.mem (s.regs R3 + BitVec.ofNat 64 i) else 0) (fun hne => absurd rfl hne)
      constructor
      · intro k hk
        exact absurd hk (by omega)
      · intro a _
        simp only [Helper.exec, hz, if_true] at hwrite ⊢
        exact (congrFun hwrite a).trans (writeBytes_outside _ _ _ (Nat.zero_le _))
    · have hwrite := @write_out s (s.regs R1) (strLen K.mem (s.regs R3) ((s.regs R2).toNat - 1) + 1)
        (fun i => if i < strLen K.mem (s.regs R3) ((s.regs R2).toNat - 1)
          then K.mem (s.regs R3 + BitVec.ofNat 64 i) else 0) (fun _ => hout hz)
      have hfills := Fills.str K (s.regs R1) (s.regs R3) s.out hn hz
      rw [← hwrite] at hfills
      simp only [Helper.exec, hz, if_false]
      exact hfills

/-- **A read into the record** at `offset`, of `size` bytes behind `r3`. -/
theorem readToBuff_fills (fn : Helper) {offset size : Word} (hoff : offset.toNat < 2 ^ 15)
    (hsize : size.toNat < 2 ^ 15)
    (hout : size.toNat ≠ 0 → inFrame (s.regs RFP) (s.regs R8 + offset) = false) :
    ∃ s', exec K (readToBuff fn offset size) .run s = .cont .run s' ∧ KeepsHigh s s' ∧
      Fills (s.regs R8 + offset) size.toNat (helperBytes K fn (s.regs R3) size.toNat) s.out s'.out := by
  have hread := @helper_fills K (readState s offset size) fn (by
    rw [readState_r1, readState_r2, readState_keeps s offset size RFP (by decide)]
    exact hout)
  rw [readState_r1, readState_r2, readState_r3] at hread
  exact ⟨_, exec_readToBuff fn hoff hsize, (readState_keeps s offset size).trans hread.1, hread.2⟩

end Record

/-! ## The code behind an expression -/

/-- None of the `n` bytes of the record from `offset` on is in the frame. -/
def ClearOfFrame (s : State) (offset : Word) (n : Nat) : Prop :=
  ∀ k < n, inFrame (s.regs RFP) (s.regs R8 + offset + BitVec.ofNat 64 k) = false

/-- The code writes the data of some value into the `n` bytes from `offset`
on, or it goes to the label and writes nothing. -/
def Puts (K : Kernel) (code : List Insn) (label : String) (offset : Word) (n : Nat)
    (data : Word → Nat → Option Byte) : Prop :=
  ∀ s, ClearOfFrame s offset n → ∃ m s', exec K code .run s = .cont m s' ∧ KeepsHigh s s' ∧
    (m = .run ∧ (∃ w, Fills (s.regs R8 + offset) n (data w) s.out s'.out) ∨
      m = .seek label ∧ s'.out = s.out)

section Puts

variable {K : Kernel} {label : String} {offset : Word} {n : Nat} {data : Word → Nat → Option Byte}
  {code : List Insn}

theorem Puts.congr {data' : Word → Nat → Option Byte} (h : Puts K code label offset n data)
    (heq : ∀ w, ∀ k < n, data w k = data' w k) : Puts K code label offset n data' := by
  intro s hclear
  obtain ⟨m, s', hexec, hkeeps, ⟨hm, w, hfills⟩ | hseek⟩ := h s hclear
  · exact ⟨m, s', hexec, hkeeps, .inl ⟨hm, w, hfills.congr (heq w)⟩⟩
  · exact ⟨m, s', hexec, hkeeps, .inr hseek⟩

/-- The code of an expression in front. -/
theorem Puts.behind {pre : List Insn} (h : Puts K code label offset n data) (hun : Unmarked code)
    (hpre : ∀ s, ∃ m t, exec K pre .run s = .cont m t ∧ (m = .run ∨ m = .seek label) ∧ Keeps R8 s t) :
    Puts K (pre ++ code) label offset n data := by
  intro s hclear
  obtain ⟨m, t, hexec, hm, hkeeps⟩ := hpre s
  rcases hm with rfl | rfl
  · have h8 := hkeeps.regs R8 (le_refl _)
    have hfp := hkeeps.regs RFP (by decide)
    obtain ⟨m, s', hexec', hkeeps', hres⟩ := h t fun k hk => by
      rw [h8, hfp]
      exact hclear k hk
    rw [h8, hkeeps.out] at hres
    exact ⟨m, s', by rw [exec_append_of_run hexec, hexec'], KeepsHigh.trans hkeeps.regs hkeeps', hres⟩
  · refine ⟨.seek label, t, ?_, hkeeps.regs, .inr ⟨rfl, hkeeps.out⟩⟩
    rw [exec_append, hexec]
    exact exec_seek_of_unmarked hun label t

/-- The test for NULL in front. -/
theorem Puts.test (reg : Reg) (h : Puts K code label offset n data) (hun : Unmarked code) :
    Puts K ((Asm.jeqImm reg 0 label : Insn) :: code) label offset n data := by
  intro s hclear
  have htest := exec_jeqImm K s reg label
  by_cases hz : s.regs reg = 0
  · rw [if_pos hz] at htest
    have hseek := exec_seek_of_unmarked (K := K) hun label s
    refine ⟨.seek label, s, ?_, fun _ _ => rfl, .inr ⟨rfl, rfl⟩⟩
    rw [← List.singleton_append, exec_append, htest]
    exact hseek
  · rw [if_neg hz] at htest
    obtain ⟨m, s', hexec, hres⟩ := h s hclear
    refine ⟨m, s', ?_, hres⟩
    rw [← List.singleton_append, exec_append_of_run htest, hexec]

theorem unmarked_read (fn : Helper) (reg : Reg) (offset size : Word) :
    Unmarked (moveToR3 reg ++ readToBuff fn offset size) :=
  ((@closed_moveToR3 "" true reg).append (closed_readToBuff fn offset size)).unmarked

/-- A value moved to `r3` and read from there. -/
theorem puts_read (fn : Helper) (reg : Reg) {size : Word} (hoff : offset.toNat < 2 ^ 15)
    (hsize : size.toNat < 2 ^ 15) :
    Puts K (moveToR3 reg ++ readToBuff fn offset size) label offset size.toNat
      fun w => helperBytes K fn w size.toNat := by
  have hun : Closed label true (readToBuff fn offset size) := closed_readToBuff fn offset size
  refine Puts.behind ?_ hun.unmarked fun s => ⟨.run, _, exec_moveToR3 reg, .inl rfl, keeps_set (by decide) _⟩
  intro s hclear
  obtain ⟨s', hexec, hkeeps, hfills⟩ := readToBuff_fills (K := K) fn hoff hsize fun hne => by
    simpa using hclear 0 (Nat.pos_of_ne_zero hne)
  exact ⟨.run, s', hexec, hkeeps, .inl ⟨rfl, _, hfills⟩⟩

theorem puts_deref {res : EvalResult} {size : Word} (hoff : offset.toNat < 2 ^ 15)
    (hsize : size.toNat < 2 ^ 15) :
    Puts K (genDerefInsns res offset size label).1 label offset size.toNat
      fun w k => some (K.mem (w + BitVec.ofNat 64 k)) :=
  (puts_read .probeReadKernel res.reg hoff hsize).test res.reg (unmarked_read _ res.reg offset size)

theorem puts_buf {res : EvalResult} (hreg : res.reg < R8) (hoff : offset.toNat < 2 ^ 15)
    (hsize : res.size.toNat < 2 ^ 15) :
    Puts K (genBufInsns res offset label).1 label offset res.size.toNat fun w k =>
      helperBytes K (if res.type = .string then .probeReadKernelStr else .probeReadKernel) w
        res.size.toNat k := by
  let fn : Helper := if res.type = .string then .probeReadKernelStr else .probeReadKernel
  let add : List Insn := if res.off ≠ 0 then [(Asm.addImm res.reg (int32 res.off) : Insn)] else []
  have hread : Puts K (add ++ (moveToR3 res.reg ++ readToBuff fn offset res.size)) label offset
      res.size.toNat fun w k => helperBytes K fn w res.size.toNat k := by
    refine (puts_read fn res.reg hoff hsize).behind (unmarked_read fn res.reg offset res.size) fun s => ?_
    by_cases hz : res.off ≠ 0
    · have hadd : add = [(Asm.addImm res.reg (int32 res.off) : Insn)] := if_pos hz
      exact ⟨.run, s.set res.reg (s.regs res.reg + int32 (int32 res.off)), by rw [hadd]; rfl, .inl rfl,
        keeps_set hreg _⟩
    · have hadd : add = [] := if_neg hz
      exact ⟨.run, s, by rw [hadd]; rfl, .inl rfl, Keeps.refl R8 s⟩
  have hadd : Unmarked add := by
    unfold add
    split <;> simp [Unmarked]
  have htest := hread.test res.reg (hadd.append (unmarked_read fn res.reg offset res.size))
  rw [← List.append_assoc] at htest
  exact htest

/-! ### Numbers -/

/-- The number behind `r3`, or 0. -/
theorem exec_readNumber (s : State) (hoff : offset.toNat < 2 ^ 15)
    (hout : inFrame (s.regs RFP) (s.regs R8 + offset) = false) :
    ∃ s', exec K (readNumber offset) .run s = .cont .run s' ∧ KeepsHigh s s' ∧
      Fills (s.regs R8 + offset) 8
        (fun k => some (if s.regs R3 = 0 then 0 else K.mem (s.regs R3 + BitVec.ofNat 64 k)))
        s.out s'.out := by
  by_cases hz : s.regs R3 = 0
  · -- the jump goes to the store of `r3`
    refine ⟨{ s with out := writeBytes s.out (s.regs R8 + offset) 8 (byteOf (s.regs R3)) }, ?_,
      fun _ _ => rfl, ?_⟩
    · have hstore := exec_store (K := K) (s := s) [] offset R3 .dword hoff
      rw [readNumber, jmpOff, exec_jmp _ _ _ _ .eq R3 (.imm 0) 5 (by decide), if_pos (by simpa using hz)]
      exact hstore
    · refine (Fills.write _ _ _ (by decide)).congr fun k _ => ?_
      rw [if_pos hz, hz]
      simp [byteOf]
  · -- the read, and the jump over the store
    have hread := @helper_fills K (readState s offset 8) .probeReadKernel (by
      rw [readState_r1, (readState_keeps s offset 8) RFP (by decide)]
      exact fun _ => hout)
    rw [readState_r1, readState_r2, readState_r3] at hread
    refine ⟨Helper.probeReadKernel.exec K (readState s offset 8), ?_, (readState_keeps s offset 8).trans hread.1, ?_⟩
    · have hbuff : (s.set R2 8#64).regs outputArgRegBuff = s.regs R8 := State.set_regs_of_ne _ _ (by decide)
      rw [readNumber, jmpOff, exec_jmp _ _ _ _ .eq R3 (.imm 0) 5 (by decide), if_neg (by simpa using hz)]
      simp [AluOp.eval, int32_small hoff, show int32 8#64 = 8#64 from by decide, hbuff, readState, ja]
    · refine hread.2.congr fun k _ => ?_
      rw [if_neg hz]
      rfl

theorem ClearOfFrame.zero {s : State} (h : ClearOfFrame s offset n) (hn : 0 < n) :
    inFrame (s.regs RFP) (s.regs R8 + offset) = false := by
  simpa using h 0 hn

/-- A number. -/
theorem puts_store (reg : Reg) (hoff : offset.toNat < 2 ^ 15) :
    Puts K [(Asm.storeMem outputArgRegBuff (int16 offset) reg .dword : Insn)] label offset 8
      fun w k => some (byteOf w k) := by
  intro s _
  refine ⟨.run, _, exec_store [] offset reg .dword hoff, fun _ _ => rfl, .inl ⟨rfl, s.regs reg, ?_⟩⟩
  exact Fills.write _ _ _ (by decide)

/-- A number pointer: the pointer, then the number. -/
theorem puts_numPtr (reg : Reg) (hoff : offset.toNat + 16 < 2 ^ 15) :
    Puts K ((Asm.storeMem outputArgRegBuff (int16 offset) reg .dword : Insn) :: moveToR3 reg
      ++ readNumber (offset + 8)) label offset 16 fun w k => some (numByte K w k) := by
  intro s hclear
  have hnext : (offset + 8).toNat < 2 ^ 15 := by
    have h8 : (8 : Word).toNat = 8 := by rfl
    rw [BitVec.toNat_add, h8]
    omega
  -- behind the store and the move
  let t : State := { s with out := writeBytes s.out (s.regs R8 + offset) 8 (byteOf (s.regs reg)) }
  let u : State := t.set R3 (s.regs reg)
  have hstore : exec K ((Asm.storeMem outputArgRegBuff (int16 offset) reg .dword : Insn) :: moveToR3 reg) .run s
      = .cont .run u := by
    rw [exec_store _ offset reg .dword (by omega)]
    exact exec_moveToR3 reg
  have hu3 : u.regs R3 = s.regs reg := State.set_regs_self _ _ _
  have hkeeps : KeepsHigh s u := keepsHigh_set (s := t) (by decide) _
  have hbase : s.regs R8 + (offset + 8) = s.regs R8 + offset + BitVec.ofNat 64 8 := (add_assoc _ _ _).symm
  have hframe : inFrame (u.regs RFP) (u.regs R8 + (offset + 8)) = false := by
    rw [hkeeps RFP (by decide), hkeeps R8 (le_refl _), hbase]
    exact hclear 8 (by decide)
  obtain ⟨s', hexec, hkeeps', hfills⟩ := exec_readNumber (K := K) u hnext hframe
  rw [hkeeps R8 (le_refl _), hu3, hbase] at hfills
  have hfirst : Fills (s.regs R8 + offset) 8 (fun k => some (byteOf (s.regs reg) k)) s.out u.out :=
    Fills.write _ _ _ (by decide)
  refine ⟨.run, s', by rw [exec_append_of_run hstore, hexec], hkeeps.trans hkeeps',
    .inl ⟨rfl, s.regs reg, (hfirst.append hfills (by decide)).congr fun k _ => ?_⟩⟩
  by_cases hk : k < 8
  · simp [numByte, hk]
  · simp [numByte, hk]

/-! ### The switch over the kinds -/

section Switch

variable {isCharArray : BtfType → Bool} {arg out : FuncArgumentOutput} {res : EvalResult} {btf : BtfType}
  {size : Nat} {gen : Generated}

theorem puts_default (h : genDefaultInsns isCharArray arg res btf offset size label = .ok gen)
    (hfit : offset.toNat + (gen.offset - offset).toNat < 2 ^ 15) :
    Puts K gen.insns label offset (gen.offset - offset).toNat fun w k =>
      if arg.isStr then strByte K w (gen.offset - offset).toNat k else some (numByte K w k) := by
  have hread (n : Word) (hn : n.toNat < 2 ^ 15) : Puts K
      (moveToR3 res.reg ++ readToBuff .probeReadKernelStr offset n) label offset n.toNat
      fun w => strByte K w n.toNat := puts_read .probeReadKernelStr res.reg (by omega) hn
  unfold genDefaultInsns at h
  by_cases hstr : arg.isStr = true
  · simp only [hstr, Bool.not_true, Bool.false_eq_true, if_false, if_true] at h ⊢
    split at h
    · split at h
      · cases h
        rw [add_sub_cancel_left] at hfit ⊢
        exact hread _ (by omega)
      · cases h
    · cases h
      rw [add_sub_cancel_left] at hfit ⊢
      exact (hread _ (by omega)).test res.reg (unmarked_read _ res.reg offset _)
  · simp only [hstr, Bool.not_false, Bool.false_eq_true, if_false, if_true] at h ⊢
    split at h
    · cases h
    split at h
    · cases h
      rw [add_sub_cancel_left] at hfit ⊢
      have h16 : (16 : Word).toNat = 16 := by rfl
      rw [h16] at hfit ⊢
      exact puts_numPtr res.reg (by omega)
    · cases h
      rw [add_sub_cancel_left] at hfit ⊢
      have h8 : (8 : Word).toNat = 8 := by rfl
      rw [h8] at hfit ⊢
      refine (puts_store res.reg (by omega)).congr fun w k hk => ?_
      simp [numByte, hk]

/-- **The data of an argument**, whatever its kind. -/
theorem puts_gen (h : genInsnsOf isCharArray arg res btf offset size label = .ok gen) (hreg : res.reg < R8)
    (hfit : offset.toNat + (gen.offset - offset).toNat < 2 ^ 15) (htype : out.type = res.type)
    (hstr : out.isStr = arg.isStr) (hsize : out.trueDataSize = gen.offset - offset) :
    Puts K gen.insns label offset out.trueDataSize.toNat fun w => out.dataByte K w := by
  rw [hsize]
  unfold genInsnsOf at h
  unfold FuncArgumentOutput.dataByte
  rw [htype, hstr, hsize]
  cases hkind : res.type <;> rw [hkind] at h
  case default | hist | tdigest => exact puts_default h hfit
  case deref =>
    cases h
    simp only [add_sub_cancel_left] at hfit ⊢
    exact puts_deref (by omega) (by omega)
  all_goals
    cases h
    simp only [add_sub_cancel_left] at hfit ⊢
    refine (puts_buf hreg (by omega) (by omega)).congr fun w k _ => ?_
    rw [hkind]
    rfl

end Switch

end Puts

/-! ## The exception byte -/

section Exception

variable {K : Kernel} {label : String} {offset : Word} {s : State}

/-- A byte stored behind `offset`. -/
theorem exec_storeByte (w : Word) (hoff : offset.toNat < 2 ^ 15) :
    ∃ s', exec K [(Asm.storeMem outputArgRegBuff (int16 offset) R0 .byte : Insn)] .run (s.set R0 w)
        = .cont .run s' ∧ KeepsHigh s s' ∧
      Fills (s.regs R8 + offset) 1 (fun _ => some (byteOf w 0)) s.out s'.out := by
  refine ⟨_, exec_store [] offset R0 .byte hoff, keepsHigh_set (s := s) (by decide) w, ?_⟩
  have h8 : (s.set R0 w).regs R8 = s.regs R8 := State.set_regs_of_ne _ _ (by decide)
  rw [h8, State.set_regs_self]
  refine (Fills.write _ _ _ (by decide)).congr fun k hk => ?_
  rw [Nat.lt_one_iff.mp hk]

/-- Code that falls through leaves 0. -/
theorem exec_exceptionCode (used : Bool) (s : State) (hoff : offset.toNat < 2 ^ 15) :
    ∃ s', exec K (exceptionCode offset label used) .run s = .cont .run s' ∧ KeepsHigh s s' ∧
      Fills (s.regs R8 + offset) 1 (fun _ => some 0) s.out s'.out := by
  obtain ⟨s', hexec, hkeeps, hfills⟩ := @exec_storeByte K offset s 0 hoff
  refine ⟨s', ?_, hkeeps, hfills⟩
  unfold exceptionCode
  cases used with
  | true => simpa [AluOp.eval, ja] using hexec
  | false => simpa [AluOp.eval] using hexec

/-- Code in search of the label leaves 1. -/
theorem exec_exceptionCode_seek (s : State) (hoff : offset.toNat < 2 ^ 15) :
    ∃ s', exec K (exceptionCode offset label true) (.seek label) s = .cont .run s' ∧ KeepsHigh s s' ∧
      Fills (s.regs R8 + offset) 1 (fun _ => some 1) s.out s'.out := by
  obtain ⟨s', hexec, hkeeps, hfills⟩ := @exec_storeByte K offset s 1 hoff
  refine ⟨s', ?_, hkeeps, hfills⟩
  have hskip : exec K [(Asm.movImm R0 0 : Insn), ja 1] (.seek label) s = .cont (.seek label) s :=
    exec_seek_of_unmarked (unmarked_ops [Asm.movImm R0 0, .ja 1]) label s
  have hmark : exec K [(Asm.movImm R0 1 : Insn).withSymbol label,
      Asm.storeMem outputArgRegBuff (int16 offset) R0 .byte] (.seek label) s = .cont .run s' := by
    rw [exec_seek_cons rfl]
    exact hexec
  have happend := exec_append K [(Asm.movImm R0 0 : Insn), ja 1] [(Asm.movImm R0 1 : Insn).withSymbol label,
    Asm.storeMem outputArgRegBuff (int16 offset) R0 .byte] (.seek label) s
  rw [hskip] at happend
  exact happend.trans hmark

end Exception

/-! ## The slot of an argument -/

/-- The bytes of a slot: the data, then the exception byte. -/
def slotByte (n : Nat) (data : Nat → Option Byte) (exception : Byte) (k : Nat) : Option Byte :=
  if k < n then data k else some exception

/-- What the code of an argument did. The registers from `r8` up are as
before. Of the record its slot was written and nothing else: the data of
some value and 0, or no data and 1. -/
structure WritesSlot (K : Kernel) (arg : FuncArgumentOutput) (offset : Word) (s s' : State) : Prop where
  high : KeepsHigh s s'
  slot : (∃ w, Fills (s.regs R8 + offset) arg.size.toNat
      (slotByte arg.trueDataSize.toNat (arg.dataByte K w) 0) s.out s'.out) ∨
    Fills (s.regs R8 + offset) arg.size.toNat (slotByte arg.trueDataSize.toNat (fun _ => none) 1) s.out s'.out

section Slot

variable {K : Kernel} {label : String} {offset : Word} {n : Nat} {data : Word → Nat → Option Byte}
  {body code : List Insn} {used : Bool}

theorem Fills.nothing (base : Word) (n : Nat) {m m' : Word → Byte} (h : m' = m) :
    Fills base n (fun _ => none) m m' :=
  ⟨fun _ _ => by rw [h]; rfl, fun _ _ => by rw [h]⟩

/-- The exception byte behind the data. -/
theorem Puts.slot (h : Puts K body label offset n data) (hclosed : Closed label used body)
    (hfit : offset.toNat + n < 2 ^ 15) {s : State} (hclear : ClearOfFrame s offset n) :
    ∃ s', exec K (body ++ exceptionCode (offset + BitVec.ofNat 64 n) label used) .run s = .cont .run s' ∧
      KeepsHigh s s' ∧
      ((∃ w, Fills (s.regs R8 + offset) (n + 1) (slotByte n (data w) 0) s.out s'.out) ∨
        Fills (s.regs R8 + offset) (n + 1) (slotByte n (fun _ => none) 1) s.out s'.out) := by
  have hoff : (offset + BitVec.ofNat 64 n).toNat < 2 ^ 15 := by
    rw [BitVec.toNat_add, BitVec.toNat_ofNat]
    omega
  obtain ⟨m, t, hexec, hkeeps, hres⟩ := h s hclear
  have h8 : t.regs R8 + (offset + BitVec.ofNat 64 n) = s.regs R8 + offset + BitVec.ofNat 64 n := by
    rw [hkeeps R8 (le_refl _), add_assoc]
  rcases hres with ⟨rfl, w, hfills⟩ | ⟨rfl, hout⟩
  · obtain ⟨s', hrun, hkeeps', hbyte⟩ := @exec_exceptionCode K label _ used t hoff
    rw [h8] at hbyte
    exact ⟨s', by rw [exec_append_of_run hexec, hrun], hkeeps.trans hkeeps',
      .inl ⟨w, hfills.append hbyte (by omega)⟩⟩
  · -- the label was recorded
    obtain rfl : used = true := hclosed.label (references_of_seek hexec nofun)
    obtain ⟨s', hrun, hkeeps', hbyte⟩ := @exec_exceptionCode_seek K label _ t hoff
    rw [h8] at hbyte
    refine ⟨s', ?_, hkeeps.trans hkeeps', .inr ((Fills.nothing _ n hout).append hbyte (by omega))⟩
    rw [exec_append, hexec]
    exact hrun

end Slot

section Compile

variable {parseExpr : String → Except GoError Expr} {isConstCharPtr isCharArray : BtfType → Bool} {heap : Heap}
  {forceProbe force : Bool} {params : List FuncParam} {krnl spec : Spec} {arg out : FuncArgumentOutput}
  {label : String} {res : EvalResult} {offset offset' : Word}

/-- The compiler of an output argument. -/
theorem argCompiler {c : Compiler}
    (h : newCompiler (arg.options heap forceProbe params krnl spec force label) = .ok c) :
    StackFits c ∧ c.labelExit = label ∧ c.heap = heap ∧ c.memMode ≠ .directRead ∧
      ∃ id, findRdonlyCast krnl = .ok (id, c.rdonlyCastFastcall) := by
  obtain ⟨_, kernel, id, fastcall, -, hkernel, hfind, rfl⟩ := newCompiler_ok h
  obtain rfl : krnl = kernel := Option.some.inj hkernel
  have hstack : (alignStack argOutputStackOff).toNat = 16 := by decide
  have hfits : 8 ≤ (alignStack argOutputStackOff).toNat ∧ (alignStack argOutputStackOff).toNat + 48 ≤ 512 := by
    rw [hstack]
    decide
  exact ⟨hfits, rfl, rfl, readMode_ne_direct forceProbe spec, id, hfind⟩

/-- The code of the expression leaves the record alone. -/
theorem evalResult_keeps
    (h : compileEvalExpr parseExpr (arg.options heap forceProbe params krnl spec force label) = .ok res) :
    res.reg < R8 ∧ Closed label res.labelUsed res.insns ∧
      ∀ K : Kernel, (∀ id fastcall, findRdonlyCast krnl = .ok (id, fastcall) → K.fastcall = fastcall) →
        ∀ s, ∃ m t, exec K res.insns .run s = .cont m t ∧ (m = .run ∨ m = .seek label) ∧ Keeps R8 s t := by
  obtain ⟨c, e, call, fnName, hc, hcall⟩ := compileEvalExpr_inv h
  obtain ⟨hfit, hlabel, -, hmode, id, hfind⟩ := argCompiler hc.compiler
  have hclosed := evalResult_closed hc hcall (fun hdirect => absurd hdirect hmode) h
  rw [compileEvalExpr_eq hc] at h
  obtain ⟨ra, call', fnName', val, g, checked, hra, -, heval, -, -, rfl⟩ := compileEval_ok h
  have hused : ra.registers R8 = true := by
    cases hra
    rfl
  obtain ⟨hreg, hcode⟩ := eval_reserves hfit heval hused
  obtain ⟨own, hins, -, hexec⟩ := hcode.code
  refine ⟨hreg, hclosed, fun K hK s => ?_⟩
  have hown : g.insns = own := by simpa using hins
  rw [← hlabel]
  dsimp only
  rw [hown]
  exact hexec K s (hK id _ hfind)

/-- **The code of an output argument writes its slot**, where the slot ends
within the first 32768 bytes. -/
theorem compile_writes
    (hres : compileEvalExpr parseExpr (arg.options heap forceProbe params krnl spec force label) = .ok res)
    (hwrite : writeResult isConstCharPtr isCharArray heap arg res offset label = .ok (out, offset'))
    (hfit : offset.toNat + out.trueDataSize.toNat < 2 ^ 15) {K : Kernel}
    (hK : ∀ id fastcall, findRdonlyCast krnl = .ok (id, fastcall) → K.fastcall = fastcall) {s : State}
    (hclear : ClearOfFrame s offset out.size.toNat) :
    ∃ s', exec K out.insn .run s = .cont .run s' ∧ WritesSlot K out offset s s' := by
  obtain ⟨hreg, hclosed, hkeeps⟩ := evalResult_keeps hres
  obtain ⟨btf, size, gen, -, -, hgen, hout, -⟩ := writeResult_ok _ _ _ hwrite
  have hn : out.trueDataSize = gen.offset - offset := by rw [hout]
  have hsize : out.size = out.trueDataSize + 1 := by
    rw [hout]
    exact add_sub_right_comm _ _ _
  have hbytes : out.size.toNat = out.trueDataSize.toNat + 1 := by
    have h1 : (1 : Word).toNat = 1 := by rfl
    rw [hsize, BitVec.toNat_add, h1]
    omega
  have hend : gen.offset = offset + BitVec.ofNat 64 out.trueDataSize.toNat := by
    rw [BitVec.ofNat_toNat, BitVec.setWidth_eq, hn, add_sub_cancel]
  have hins : out.insn = res.insns ++ gen.insns ++ exceptionCode gen.offset label gen.labelUsed := by rw [hout]
  have hdata : Puts K gen.insns label offset out.trueDataSize.toNat fun w => out.dataByte K w :=
    puts_gen hgen hreg (by rw [← hn]; exact hfit) (by rw [hout]; rfl) (by rw [hout]) hn
  obtain ⟨hcode, hkept⟩ := closed_genInsns hgen
  have hbody := hdata.behind hcode.unmarked (hkeeps K hK)
  obtain ⟨s', hexec, hhigh, hslot⟩ := hbody.slot ((hclosed.mono hkept).append hcode) hfit
    fun k hk => hclear k (by omega)
  rw [← hend, ← hins] at hexec
  refine ⟨s', hexec, hhigh, ?_⟩
  rw [hbytes]
  exact hslot

end Compile

end Bpfsnoop.Trace
