/-
Bpfsnoop.CC.ReadModes — one chain of offsets in the three read modes.

`reach` is where a chain leads when every offset is added and every load
takes eight bytes, which is what the probe reads do. The two other modes
follow it step by step or they do not (`StepAlike`): a load instruction
adds 16 bits of the offset, a CO-RE step that falls back to a probe read
adds nothing at all, and a typed load takes the bytes of its type only. Of
these `access` then keeps the bits from `keptFrom` up to `keptEnd`.

`ReadAlike.agree` is the half that follows from it: chains whose steps are
alike leave one value in the target.
-/
import Bpfsnoop.CC.ReadWidths

namespace Bpfsnoop.CC

open Ebpf Btf Reg

/-! ## The modes and what they have in common -/

/-- The same compiler in another read mode. -/
def Compiler.inMode (c : Compiler) (mode : MemoryReadMode) : Compiler := { c with memMode := mode }

/-- The instructions that `offset2insns` emits for a chain in a read mode. -/
def EmitsIn (c : Compiler) (mode : MemoryReadMode) (offsets : List AccessOffset) (reg : Reg) (g : Gen)
    (code : List Insn) : Prop :=
  ∃ g', offset2insns (c.inMode mode) offsets reg g = .ok ((), g') ∧ g'.insns = g.insns ++ code

/-- Where a chain leads from `w`. -/
def reach (m : Word → Byte) : List AccessOffset → Word → Word
  | [], w => w
  | o :: rest, w =>
    if o.address then reach m rest (w + int32 o.offset) else reach m rest (loadLE m (w + int32 o.offset) 8)

/-- No pointer that is loaded on the way is NULL. -/
def NoNull (m : Word → Byte) : List AccessOffset → Word → Prop
  | [], _ => True
  | o :: rest, w =>
    if o.address then NoNull m rest (w + int32 o.offset)
    else (rest ≠ [] → loadLE m (w + int32 o.offset) 8 ≠ 0) ∧ NoNull m rest (loadLE m (w + int32 o.offset) 8)

/-- The code of every mode runs to its end and leaves the value that the
probe reads leave, as far as `access` keeps it. -/
def ModesAgree (c : Compiler) (t : BtfType) (mem : Option Member) (offsets : List AccessOffset) (reg : Reg) (g : Gen) :
    Prop :=
  ∀ code : MemoryReadMode → List Insn, (∀ mode, EmitsIn c mode offsets reg g (code mode)) →
    ∀ (K : Kernel) (s : State), K.fastcall = c.rdonlyCastFastcall → NoNull K.mem offsets (s.regs reg) →
      ∃ after : MemoryReadMode → State, (∀ mode, exec K (code mode) .run s = .cont .run (after mode)) ∧
        ∀ mode, keptSem c.heap t mem ((after mode).regs reg) = keptSem c.heap t mem ((after .probeRead).regs reg)

/-! ## The bits that are kept -/

/-- The first bit that `access` keeps. -/
def keptFrom (mem : Option Member) : Nat :=
  match mem with
  | some m => if isMemberBitfield mem then m.offset % 8 else 0
  | none => 0

/-- How many bits of a word a value of the type takes. -/
def typeBits (heap : Heap) (t : BtfType) : Nat :=
  match sizeof heap t with
  | some 1 => 8
  | some 2 => 16
  | some 4 => 32
  | _ => 64

/-- The bit behind the last one that `access` keeps: the mask of a bitfield
of 32 bits or more is all ones. -/
def keptEnd (heap : Heap) (t : BtfType) (mem : Option Member) : Nat :=
  match mem with
  | some m =>
    if isMemberBitfield mem then (if 32 ≤ m.bitfieldSize then 64 else m.offset % 8 + m.bitfieldSize)
    else typeBits heap t
  | none => typeBits heap t

section Kept

variable {heap : Heap} {t : BtfType} {mem : Option Member}

theorem keptFrom_lt (mem : Option Member) : keptFrom mem < 8 := by
  unfold keptFrom
  split
  · split
    · exact Nat.mod_lt _ (by omega)
    · omega
  · omega

theorem getLsbD_int32 (x : Word) {i : Nat} (hi : i < 64) : (int32 x).getLsbD i = x.getLsbD (min i 31) := by
  rw [int32, BitVec.getLsbD_signExtend]
  by_cases hlt : i < 32
  · simp [hi, hlt, show min i 31 = i by omega]
  · simp [hi, hlt, show min i 31 = 31 by omega, BitVec.msb_setWidth]

theorem getLsbD_bitfieldMask (member : Member) {i : Nat} (hi : i < 64) :
    (bitfieldMask member).getLsbD i = decide (i < member.bitfieldSize) := by
  unfold bitfieldMask
  by_cases hle : member.bitfieldSize ≤ 64
  · exact getLsbD_sub_one_shiftLeft hle
  · -- the shift gives 0
    rw [BitVec.shiftLeft_eq_zero (by omega), BitVec.zero_sub, show -(1 : Word) = BitVec.allOnes 64 from rfl,
      BitVec.getLsbD_allOnes]
    simp [hi, show i < member.bitfieldSize by omega]

theorem typeBits_pos (heap : Heap) (t : BtfType) : 0 < typeBits heap t ∧ typeBits heap t ≤ 64 := by
  unfold typeBits
  split <;> omega

theorem getLsbD_adjustSem (heap : Heap) (t : BtfType) (w : Word) {i : Nat} (hi : i < 64) :
    (adjustSem heap t w).getLsbD i = (decide (i < typeBits heap t) && w.getLsbD i) := by
  obtain ⟨k, hk, hsize, hcut⟩ | ⟨⟨h1, h2, h4⟩, hwhole⟩ := adjustSem_cases heap t
  · have hbits : typeBits heap t = 8 * k := by
      rcases hk with rfl | rfl | rfl <;> simp [typeBits, hsize]
    rw [BitVec.getLsbD, hcut, Nat.testBit_mod_two_pow, hbits, BitVec.getLsbD]
  · have hbits : typeBits heap t = 64 := by
      unfold typeBits
      split <;> simp_all
    rw [hwhole, hbits, decide_eq_true hi, Bool.true_and]

theorem keptFrom_plain (h : isMemberBitfield mem = false) : keptFrom mem = 0 := by
  unfold keptFrom
  split <;> simp [h]

theorem keptEnd_plain (h : isMemberBitfield mem = false) : keptEnd heap t mem = typeBits heap t := by
  unfold keptEnd
  split <;> simp [h]

/-- What is kept, bit by bit. -/
theorem getLsbD_keptSem (w : Word) {i : Nat} (hi : i < 64) : (keptSem heap t mem w).getLsbD i
    = (decide (keptFrom mem + i < keptEnd heap t mem) && w.getLsbD (keptFrom mem + i)) := by
  by_cases hbit : isMemberBitfield mem
  · cases mem with
    | none => simp [isMemberBitfield] at hbit
    | some member =>
      have hcount : ∀ d < 8, (int32 (int32 (BitVec.ofNat 64 d))).toNat % 64 = d := by decide
      have hlt : member.offset % 8 < 8 := Nat.mod_lt _ (by omega)
      have hshift : (if BitVec.ofNat 64 (member.offset % 8) ≠ 0 then
          w >>> ((int32 (int32 (BitVec.ofNat 64 (member.offset % 8)))).toNat % 64) else w)
            = w >>> (member.offset % 8) := by
        split
        · rw [hcount _ hlt]
        · rename_i hzero
          have hz : member.offset % 8 = 0 := by
            have := congrArg BitVec.toNat (not_not.mp hzero)
            rw [BitVec.toNat_ofNat] at this
            rwa [Nat.mod_eq_of_lt (show member.offset % 8 < 2 ^ 64 by omega)] at this
          rw [hz, BitVec.ushiftRight_zero]
      simp only [keptSem, keptFrom, keptEnd, if_pos hbit]
      rw [bitfieldSem, hshift, BitVec.getLsbD_and, BitVec.getLsbD_ushiftRight, int32_int32, getLsbD_int32 _ hi,
        getLsbD_bitfieldMask member (by omega), Bool.and_comm]
      split
      · -- the mask is all ones, and the word ends with its bits
        by_cases h64 : member.offset % 8 + i < 64
        · simp [h64, show min i 31 < member.bitfieldSize by omega]
        · simp [h64, BitVec.getLsbD_of_ge w _ (by omega : 64 ≤ member.offset % 8 + i)]
      · congr 1
        rw [decide_eq_decide]
        omega
  · have hplain : isMemberBitfield mem = false := by simpa using hbit
    rw [keptSem_plain hplain, getLsbD_adjustSem heap t w hi, keptFrom_plain hplain, keptEnd_plain hplain, Nat.zero_add]

/-- Some bits are kept, of the 64. -/
theorem keptEnd_bounds (heap : Heap) (t : BtfType) (mem : Option Member) :
    keptFrom mem < keptEnd heap t mem ∧ keptEnd heap t mem ≤ 64 := by
  by_cases hbit : isMemberBitfield mem
  · cases mem with
    | none => simp [isMemberBitfield] at hbit
    | some member =>
      have hlt : member.offset % 8 < 8 := Nat.mod_lt _ (by omega)
      have hsize : member.bitfieldSize ≠ 0 := by simpa [isMemberBitfield] using hbit
      simp only [keptFrom, keptEnd, if_pos hbit]
      split <;> omega
  · have hplain : isMemberBitfield mem = false := by simpa using hbit
    rw [keptFrom_plain hplain, keptEnd_plain hplain]
    exact typeBits_pos heap t

/-- The first kept bit is seen. -/
theorem keptSem_add_ne (w : Word) : keptSem heap t mem (w + 1#64 <<< keptFrom mem) ≠ keptSem heap t mem w := by
  have hlt := keptFrom_lt mem
  intro heq
  have hbit := congrArg (BitVec.getLsbD · 0) heq
  simp only [getLsbD_keptSem _ (show 0 < 64 by omega), Nat.add_zero, (keptEnd_bounds heap t mem).1, decide_true,
    Bool.true_and] at hbit
  rw [BitVec.getLsbD_add (by omega)] at hbit
  have hcarry : BitVec.carry (keptFrom mem) w (1#64 <<< keptFrom mem) false = false := by
    rw [BitVec.carry]
    simp only [Bool.toNat_false, decide_eq_false_iff_not, ge_iff_le, not_le, Nat.add_zero, BitVec.toNat_shiftLeft,
      Nat.shiftLeft_eq]
    rw [Nat.mod_mod_of_dvd _ (pow_dvd_pow 2 (by omega)), Nat.mul_mod_left, Nat.add_zero]
    exact Nat.mod_lt _ (Nat.two_pow_pos _)
  simp [hcarry, show keptFrom mem < 64 by omega] at hbit

/-- What is kept lies in the low `n` bytes. -/
theorem keptSem_low_iff {n : Nat} (hn : 0 < n) (h8 : n ≤ 8) :
    (∀ w, keptSem heap t mem (w &&& lowMask n) = keptSem heap t mem w) ↔ keptEnd heap t mem ≤ 8 * n := by
  have hfrom := keptFrom_lt mem
  have hpos := keptEnd_bounds heap t mem
  have hlow (w : Word) (j : Nat) : (w &&& lowMask n).getLsbD j = (w.getLsbD j && decide (j < 8 * n)) := by
    rw [BitVec.getLsbD_and, lowMask, getLsbD_sub_one_shiftLeft (by omega)]
  constructor
  · intro hall
    by_contra hgt
    -- the last kept bit
    obtain ⟨i, hi⟩ : ∃ i, keptFrom mem + i + 1 = keptEnd heap t mem :=
      ⟨keptEnd heap t mem - 1 - keptFrom mem, by omega⟩
    have hbit := congrArg (BitVec.getLsbD · i) (hall (BitVec.allOnes 64))
    simp only [getLsbD_keptSem _ (show i < 64 by omega), hlow, BitVec.getLsbD_allOnes] at hbit
    simp [show keptFrom mem + i < keptEnd heap t mem by omega, show keptFrom mem + i < 64 by omega,
      show ¬ keptFrom mem + i < 8 * n by omega] at hbit
  · intro hle w
    apply BitVec.eq_of_getLsbD_eq
    intro i hi
    rw [getLsbD_keptSem _ hi, getLsbD_keptSem _ hi, hlow]
    by_cases hlt : keptFrom mem + i < keptEnd heap t mem
    · simp [hlt, show keptFrom mem + i < 8 * n by omega]
    · simp [hlt]

end Kept

/-! ## Steps that the modes take alike -/

/-- A step that every mode takes as the probe reads do. -/
def StepAlike (c : Compiler) (t : BtfType) (mem : Option Member) (o : AccessOffset) (last : Bool) : Prop :=
  o.address = false →
    (int16 o.offset).signExtend 64 = int32 o.offset ∧
      match castSize c o with
      | none => int32 o.offset = 0
      | some size => size = .dword ∨ last = true ∧ keptEnd c.heap t mem ≤ 8 * size.bytes

def StepsAlike (c : Compiler) (t : BtfType) (mem : Option Member) : List AccessOffset → Prop
  | [] => True
  | o :: rest => StepAlike c t mem o (rest = []) ∧ StepsAlike c t mem rest

/-- The target is not among the registers that the probe reads load back,
and the modes take every step alike. -/
structure ReadAlike (c : Compiler) (t : BtfType) (mem : Option Member) (offsets : List AccessOffset) (reg : Reg)
    (g : Gen) : Prop where
  target : restored (c.inMode .probeRead) g.regalloc offsets reg = false
  steps : StepsAlike c t mem offsets

/-- A step that the mode of `d` takes as the probe reads do. -/
def FollowsStep (d : Compiler) (t : BtfType) (mem : Option Member) (o : AccessOffset) (last : Bool) : Prop :=
  o.address = false → (readStep d o last).delta = int32 o.offset ∧
    ∃ size, (readStep d o last).load = some size ∧
      (size = .dword ∨ last = true ∧ keptEnd d.heap t mem ≤ 8 * size.bytes)

def FollowsChain (d : Compiler) (t : BtfType) (mem : Option Member) : List AccessOffset → Prop
  | [] => True
  | o :: rest => FollowsStep d t mem o (rest = []) ∧ FollowsChain d t mem rest

section Alike

variable {c d : Compiler} {t : BtfType} {mem : Option Member} {o : AccessOffset} {offsets rest : List AccessOffset}
  {m : Word → Byte} {w : Word} {last : Bool} {reg : Reg} {g : Gen} {code : List Insn} {mode : MemoryReadMode}
  {ra : RegisterAllocator}

theorem stepAlike_iff : StepAlike c t mem o last ↔ ∀ mode, FollowsStep (c.inMode mode) t mem o last := by
  have hcast (mode : MemoryReadMode) : castSize (c.inMode mode) o = castSize c o := rfl
  constructor
  · intro h mode ho
    obtain ⟨hdelta, hsize⟩ := h ho
    cases mode with
    | probeRead => exact ⟨by simp [readStep, ho, Compiler.inMode], .dword, by simp [readStep, ho, Compiler.inMode], .inl rfl⟩
    | directRead =>
      exact ⟨by simp [readStep, ho, Compiler.inMode, hdelta], .dword, by simp [readStep, ho, Compiler.inMode], .inl rfl⟩
    | coreRead =>
      have hmode : (c.inMode .coreRead).memMode = .coreRead := rfl
      cases hc : castSize c o with
      | none =>
        rw [hc] at hsize
        exact ⟨by simp [readStep, ho, hmode, hcast, hc, hsize], .dword, by simp [readStep, ho, hmode, hcast, hc], .inl rfl⟩
      | some size =>
        rw [hc] at hsize
        exact ⟨by simp [readStep, ho, hmode, hcast, hc, hdelta], size, by simp [readStep, ho, hmode, hcast, hc], hsize⟩
  · intro h ho
    refine ⟨by simpa [readStep, ho, Compiler.inMode] using (h .directRead ho).1, ?_⟩
    have hmode : (c.inMode .coreRead).memMode = .coreRead := rfl
    obtain ⟨hdelta, size, hload, hsize⟩ := h .coreRead ho
    cases hc : castSize c o with
    | none => simpa [readStep, ho, hmode, hcast, hc, eq_comm] using hdelta
    | some size' =>
      obtain rfl : size' = size := by simpa [readStep, ho, hmode, hcast, hc] using hload
      exact hsize

theorem stepsAlike_iff : StepsAlike c t mem offsets ↔ ∀ mode, FollowsChain (c.inMode mode) t mem offsets := by
  induction offsets with
  | nil => exact ⟨fun _ _ => trivial, fun _ => trivial⟩
  | cons o rest ih =>
    simp only [StepsAlike, FollowsChain, stepAlike_iff, ih]
    exact forall_and.symm

/-! ## One step of each walk -/

theorem chainSem_cons (d : Compiler) (m : Word → Byte) (o : AccessOffset) (rest : List AccessOffset) (w : Word) :
    chainSem d m (o :: rest) w
      = if (readStep d o (rest = [])).checked ∧ (readStep d o (rest = [])).value m w = 0 then .error .exit
        else chainSem d m rest ((readStep d o (rest = [])).value m w) := rfl

theorem readStep_address (d : Compiler) (ho : o.address = true) (last : Bool) :
    readStep d o last = ⟨int32 o.offset, none, false⟩ := by
  simp [readStep, ho]

theorem chainSem_address (ho : o.address = true) :
    chainSem d m (o :: rest) w = chainSem d m rest (w + int32 o.offset) := by
  rw [chainSem_cons, readStep_address d ho]
  rfl

/-- The last step is not checked. -/
theorem readStep_last (d : Compiler) (o : AccessOffset) : (readStep d o true).checked = false := by
  unfold readStep
  split
  · rfl
  · split
    · rfl
    · rfl
    · split <;> rfl

/-- Steps that follow the probe reads lead where they do. -/
theorem chainSem_of_follows (h : FollowsChain d t mem offsets) (hnull : NoNull m offsets w) :
    ∃ y, chainSem d m offsets w = .ok y ∧ keptSem d.heap t mem y = keptSem d.heap t mem (reach m offsets w) := by
  induction offsets generalizing w with
  | nil => exact ⟨w, rfl, rfl⟩
  | cons o rest ih =>
    obtain ⟨hstep, hrest⟩ := h
    cases ho : o.address with
    | true =>
      simp only [NoNull, reach, ho, if_true] at hnull ⊢
      rw [chainSem_address ho]
      exact ih hrest hnull
    | false =>
      simp only [NoNull, reach, ho, Bool.false_eq_true, if_false] at hnull ⊢
      obtain ⟨hdelta, size, hload, hsize⟩ := hstep ho
      have hvalue : (readStep d o (rest = [])).value m w = loadLE m (w + int32 o.offset) size.bytes := by
        rw [ReadStep.value, hload, hdelta]
      by_cases hdword : size = .dword
      · subst hdword
        have hgo : ¬ ((readStep d o (rest = [])).checked ∧ (readStep d o (rest = [])).value m w = 0) := by
          rintro ⟨hcheck, hzero⟩
          by_cases hlast : rest = []
          · simp [hlast, readStep_last] at hcheck
          · rw [hvalue] at hzero
            exact hnull.1 hlast hzero
        rw [chainSem_cons, if_neg hgo, hvalue]
        exact ih hrest hnull.2
      · -- a narrow load, behind which nothing comes
        obtain ⟨hlast, hend⟩ := hsize.resolve_left hdword
        obtain rfl : rest = [] := by simpa using hlast
        have hpos : 0 < size.bytes ∧ size.bytes ≤ 8 := by cases size <;> simp [Size.bytes]
        refine ⟨_, by rw [chainSem_cons, if_neg (by simp [readStep_last])]; rfl, ?_⟩
        rw [hvalue, ← loadLE_and hpos.2 le_rfl]
        exact (keptSem_low_iff hpos.1 hpos.2).mpr hend _

/-- The probe reads themselves. -/
theorem followsChain_probe (c : Compiler) (t : BtfType) (mem : Option Member) (offsets : List AccessOffset) :
    FollowsChain (c.inMode .probeRead) t mem offsets := by
  induction offsets with
  | nil => trivial
  | cons o rest ih =>
    refine ⟨fun ho => ⟨?_, .dword, ?_, .inl rfl⟩, ih⟩ <;> simp [readStep, ho, Compiler.inMode]

/-! ## The code of the modes -/

theorem EmitsIn.eq_chainCode (h : EmitsIn c mode offsets reg g code) :
    code = chainCode (c.inMode mode) g.regalloc offsets reg := by
  obtain ⟨g', hok, hins⟩ := h
  rw [offset2insns_eq hok] at hins
  exact (List.append_cancel_left hins).symm

theorem usedRegNr_mono (ra : RegisterAllocator) {n k : Nat} (h : n ≤ k) : usedRegNr ra n ≤ usedRegNr ra k :=
  (List.range_sublist.mpr h).countP_le

/-- A target that the probe reads do not load back is not loaded back. -/
theorem restored_inMode (h : restored (c.inMode .probeRead) ra offsets reg = false) (mode : MemoryReadMode) :
    restored (c.inMode mode) ra offsets reg = false := by
  cases mode with
  | probeRead => exact h
  | directRead => simp [restored, Compiler.inMode]
  | coreRead =>
    cases hall : allAddress offsets with
    | true => simp [restored, hall]
    | false =>
      have hnot : reg ∉ savedRegs ra 5 := by
        simpa [restored, hall, Compiler.inMode, savedRegsNr] using h
      have hle : coreRegsNr (c.inMode .coreRead) ≤ 5 := by
        unfold coreRegsNr
        split <;> omega
      have hsub : savedRegs ra (coreRegsNr (c.inMode .coreRead)) ⊆ savedRegs ra 5 := by
        refine List.append_subset.mpr ⟨List.subset_append_of_subset_left _ ?_, List.subset_append_right _ _⟩
        exact List.map_subset _ (List.range_subset.mpr (usedRegNr_mono ra hle))
      have hcore : reg ∉ savedRegs ra (savedRegsNr (c.inMode .coreRead)) := fun hmem => hnot (hsub hmem)
      simp [restored, hcore]

/-- The code of a mode, behind which its target is not loaded back. -/
theorem EmitsIn.exec (hemits : EmitsIn c mode offsets reg g code) (hfit : StackFits c) (hreg : reg ≠ RFP)
    (htarget : restored (c.inMode mode) g.regalloc offsets reg = false) {K : Kernel} (s : State)
    (hK : K.fastcall = c.rdonlyCastFastcall) :
    ∃ x s', Ebpf.exec K code .run s = .cont x s' ∧
      match chainSem (c.inMode mode) K.mem offsets (s.regs reg) with
      | .ok y => x = .run ∧ s'.regs reg = y
      | .error _ => x = .seek c.labelExit := by
  obtain ⟨x, s', hexec, -, -, hval⟩ :=
    @exec_chainCode K (c.inMode mode) g.regalloc reg hK hfit hreg offsets s
  refine ⟨x, s', by rw [hemits.eq_chainCode, hexec], ?_⟩
  cases hsem : chainSem (c.inMode mode) K.mem offsets (s.regs reg) with
  | error e =>
    rw [hsem] at hval
    exact hval.1
  | ok y =>
    rw [hsem, htarget] at hval
    exact ⟨hval.1, hval.2.1⟩

/-- **Chains that the modes read alike** leave one value in the target. -/
theorem ReadAlike.agree (h : ReadAlike c t mem offsets reg g) (hfit : StackFits c) (hreg : reg ≠ RFP) :
    ModesAgree c t mem offsets reg g := by
  intro code hemits K s hK hnull
  have hruns (mode : MemoryReadMode) : ∃ s', Ebpf.exec K (code mode) .run s = .cont .run s' ∧
      keptSem c.heap t mem (s'.regs reg) = keptSem c.heap t mem (reach K.mem offsets (s.regs reg)) := by
    obtain ⟨y, hsem, hkept⟩ := chainSem_of_follows (stepsAlike_iff.mp h.steps mode) hnull
    obtain ⟨x, s', hexec, hval⟩ := (hemits mode).exec hfit hreg (restored_inMode h.target mode) s hK
    rw [hsem] at hval
    obtain ⟨rfl, hreg⟩ := hval
    exact ⟨s', hexec, by rw [hreg]; exact hkept⟩
  choose after hexec hkept using hruns
  exact ⟨after, hexec, fun mode => (hkept mode).trans (hkept .probeRead).symm⟩

end Alike

end Bpfsnoop.CC
