/-
Bpfsnoop.CC.ModeAgreement — the read modes agree on the chains whose steps
they take alike, and on no others.

The half that is left: where a mode takes some step differently, there is
a memory without a NULL on the way in which it does not end with what the
probe reads leave. The memory is laid out along the two walks. They stay
together up to the step in question (`Splits`, from the front of the chain),
read different bytes there (`exists_reads_ready`), and are then led over
cells that no other load touches up to their ends (`exists_departs`). The
cells of a chain are at most two for each step, so there is room for them
in a memory of 2^64 bytes unless the chain is about as long.
-/
import Bpfsnoop.CC.ReadModes
import Bpfsnoop.Ebpf.Cells

namespace Bpfsnoop.CC

open Ebpf Btf Reg

/-! ## Bytes that tell two loads apart -/

section Bytes

variable {m : Word → Byte} {a b : Word} {n s j : Nat}

/-- A load that covers a byte with its first bit set. -/
theorem loadLE_ne_zero {i : Nat} (hi : i < n) (h8 : n ≤ 8) (hbit : (m (a + BitVec.ofNat 64 i)).getLsbD 0 = true) :
    loadLE m a n ≠ 0 := by
  intro hzero
  have hat := getLsbD_loadLE m n a (8 * i) (by omega)
  rw [hzero, show 8 * i / 8 = i by omega, show 8 * i % 8 = 0 by omega, hbit] at hat
  simp [show 8 * i < 8 * n by omega] at hat

theorem loadLE_zeros (a : Word) (n : Nat) : loadLE (fun _ => 0) a n = 0 := by
  apply BitVec.eq_of_getLsbD_eq
  intro j hj
  simp [getLsbD_loadLE _ _ _ _ hj]

/-- The lowest byte of a load, changed by `2 ^ j`. -/
theorem loadLE_update_ones (a : Word) (hn : n < 8) (hj : j < 8) :
    loadLE (Function.update ones a (1#8 + 1#8 <<< j)) a (n + 1) = loadLE ones a (n + 1) + 1#64 <<< j := by
  have hbyte : ∀ j < 8, (1#8 + 1#8 <<< j).toNat = 1 + 2 ^ j := by decide
  have hword : ∀ j < 8, (1#64 <<< j).toNat = 2 ^ j := by decide
  have hpow : 2 ^ j ≤ 128 := Nat.pow_le_pow_right (n := 2) (by omega) (by omega : j ≤ 7)
  -- the bytes above are the same
  have habove : memNat (Function.update ones a (1#8 + 1#8 <<< j)) (a + 1) n = memNat ones (a + 1) n := by
    rw [← toNat_loadLE (by omega), ← toNat_loadLE (by omega)]
    refine congrArg _ (loadLE_congr fun i hi => Function.update_of_ne ?_ _ _)
    bv_omega
  have hlt : memNat ones (a + 1) n < 2 ^ 56 :=
    lt_of_lt_of_le (memNat_lt _ _ _) (Nat.pow_le_pow_right (n := 256) (by omega) (by omega : n ≤ 7))
  have hone : (ones a).toNat = 1 := rfl
  apply BitVec.eq_of_toNat_eq
  rw [BitVec.toNat_add, toNat_loadLE (by omega), toNat_loadLE (by omega), hword j hj, memNat, memNat, habove,
    Function.update_self, hbyte j hj, hone, Nat.mod_eq_of_lt (by omega)]
  omega

theorem loadLE_ones_add_ne (a : Word) (hj : j < 8) : loadLE ones a 8 + 1#64 <<< j ≠ 0 := by
  have hall : ∀ j < 8, loadLE ones 0 8 + 1#64 <<< j ≠ 0 := by decide
  rw [loadLE_ones a 0]
  exact hall j hj

/-- Two memories that differ in one byte, which one of two loads covers with
its lowest byte and the other does not cover. -/
theorem exists_shifted (hne : b ≠ a) (hpos : 0 < s) (hs : s ≤ 8) (hj : j < 8) : ∃ f f' : Word → Byte,
    loadLE f a 8 ≠ 0 ∧ loadLE f' a 8 ≠ 0 ∧
      (loadLE f' a 8 = loadLE f a 8 + 1#64 <<< j ∧ loadLE f' b s = loadLE f b s ∨
        loadLE f' a 8 = loadLE f a 8 ∧ loadLE f' b s = loadLE f b s + 1#64 <<< j) := by
  have hones : loadLE ones a 8 ≠ 0 := loadLE_ones_ne a .dword
  by_cases hcovers : (a - b).toNat < s
  · -- the other way round: `b` lies below `a`
    have hsame : loadLE (Function.update ones b (1#8 + 1#8 <<< j)) a 8 = loadLE ones a 8 :=
      loadLE_congr fun i hi => Function.update_of_ne (by bv_omega) _ _
    refine ⟨ones, Function.update ones b (1#8 + 1#8 <<< j), hones, by rwa [hsame], .inr ⟨hsame, ?_⟩⟩
    · obtain ⟨n, rfl⟩ : ∃ n, s = n + 1 := ⟨s - 1, by omega⟩
      exact loadLE_update_ones b (by omega) hj
  · refine ⟨ones, Function.update ones a (1#8 + 1#8 <<< j), hones, ?_, .inl ⟨?_, ?_⟩⟩
    · rw [loadLE_update_ones (n := 7) a (by omega) hj]
      exact loadLE_ones_add_ne a hj
    · exact loadLE_update_ones (n := 7) a (by omega) hj
    · exact loadLE_congr fun i hi => Function.update_of_ne (by bv_omega) _ _

/-- A narrow load that finds 0 where one of eight bytes does not. -/
theorem exists_hidden (hs : s ≤ 4) : ∃ f : Word → Byte, loadLE f a 8 ≠ 0 ∧ loadLE f b s = 0 := by
  refine ⟨fun y => if (y - b).toNat < s then 0 else 1, ?_, ?_⟩
  · by_cases hfirst : (a - b).toNat < s
    · refine loadLE_ne_zero (i := 7) (by omega) le_rfl ?_
      rw [if_neg (by bv_omega)]
      rfl
    · refine loadLE_ne_zero (i := 0) (by omega) le_rfl ?_
      rw [if_neg (by bv_omega)]
      rfl
  · rw [← loadLE_zeros b s]
    exact loadLE_congr fun i hi => if_pos (by bv_omega)

end Bytes

/-! ## Two walks -/

/-- The probe reads find no NULL from `u` on, and the mode of `d` does not
end, from `v` on, with what they leave. -/
def Departs (d : Compiler) (t : BtfType) (mem : Option Member) (m : Word → Byte) (offsets : List AccessOffset)
    (u v : Word) : Prop :=
  NoNull m offsets u ∧
    ∀ y, chainSem d m offsets v = .ok y → keptSem d.heap t mem y ≠ keptSem d.heap t mem (reach m offsets u)

/-- How far address steps move. -/
def moved (offsets : List AccessOffset) : Word := (offsets.map fun o => int32 o.offset).sum

/-- How far the next load is, in a mode that adds `disp` at a load. -/
def nextLoad (disp : AccessOffset → Word) : List AccessOffset → Word
  | [] => 0
  | o :: rest => if o.address then int32 o.offset + nextLoad disp rest else disp o

/-- What the probe reads and what the mode of `d` add at a load. -/
def probeDisp (o : AccessOffset) : Word := int32 o.offset

def modeDisp (d : Compiler) (o : AccessOffset) : Word := (readStep d o true).delta

/-- Two walks that can be told apart: no load follows and what is kept
differs, or their next loads are apart, and apart from the cells. -/
def Ready (d : Compiler) (t : BtfType) (mem : Option Member) (offsets : List AccessOffset) (u v : Word)
    (cells : List Word) : Prop :=
  if allAddress offsets then keptSem d.heap t mem (v + moved offsets) ≠ keptSem d.heap t mem (u + moved offsets)
  else
    CellsApart (u + nextLoad probeDisp offsets) (v + nextLoad (modeDisp d) offsets) ∧
      ∀ x ∈ cells, CellsApart (u + nextLoad probeDisp offsets) x ∧ CellsApart (v + nextLoad (modeDisp d) offsets) x

section Walks

variable {d : Compiler} {t : BtfType} {mem : Option Member} {o : AccessOffset} {offsets rest : List AccessOffset}
  {m m₀ : Word → Byte} {u v w x y : Word} {last : Bool} {size : Size} {cells : List Word}

theorem readStep_delta (d : Compiler) (o : AccessOffset) (last : Bool) : (readStep d o last).delta = modeDisp d o := by
  unfold modeDisp readStep
  split
  · rfl
  · split
    · rfl
    · rfl
    · split <;> rfl

/-- A step that loads, and how much. -/
theorem exists_load (d : Compiler) (ho : o.address = false) (last : Bool) :
    ∃ size, (readStep d o last).load = some size := by
  cases hmode : d.memMode with
  | probeRead => exact ⟨.dword, by simp [readStep, ho, hmode]⟩
  | directRead => exact ⟨.dword, by simp [readStep, ho, hmode]⟩
  | coreRead => cases hcast : castSize d o <;> simp [readStep, ho, hmode, hcast]

/-- A narrow load is a typed one, which is checked before the last step. -/
theorem readStep_narrow (hload : (readStep d o last).load = some size) (hsize : size ≠ .dword) :
    size.bytes ≤ 4 ∧ (last = false → (readStep d o last).checked = true) := by
  constructor
  · cases size <;> simp_all [Size.bytes]
  · rintro rfl
    unfold readStep at hload ⊢
    split at hload
    · simp at hload
    · rename_i ho
      simp only [ho, Bool.false_eq_true, if_false]
      cases hmode : d.memMode with
      | probeRead => simp
      | directRead => simp
      | coreRead =>
        cases hcast : castSize d o with
        | none => simp [hmode, hcast, eq_comm, hsize] at hload
        | some size' => simp

theorem departs_address (ho : o.address = true) :
    Departs d t mem m (o :: rest) u v ↔ Departs d t mem m rest (u + int32 o.offset) (v + int32 o.offset) := by
  simp only [Departs, chainSem_address ho, NoNull, reach, ho, if_true]

/-- A load of both walks: the mode leads on with `y`, or leaves. -/
theorem departs_load (ho : o.address = false) (hprobe : loadLE m (u + int32 o.offset) 8 = x) (hx : rest ≠ [] → x ≠ 0)
    (hmode : (readStep d o (rest = [])).value m v = y ∨
      (readStep d o (rest = [])).checked = true ∧ (readStep d o (rest = [])).value m v = 0)
    (h : Departs d t mem m rest x y) : Departs d t mem m (o :: rest) u v := by
  constructor
  · simp only [NoNull, ho, Bool.false_eq_true, if_false, hprobe]
    exact ⟨hx, h.1⟩
  · intro z hz
    simp only [reach, ho, Bool.false_eq_true, if_false, hprobe]
    rw [chainSem_cons] at hz
    split at hz
    · simp at hz
    · rename_i hgo
      obtain hval | hexit := hmode
      · rw [hval] at hz
        exact h.2 z hz
      · exact absurd hexit hgo

/-! ## Room for the walks -/

theorem ready_address (ho : o.address = true) :
    Ready d t mem (o :: rest) u v cells ↔ Ready d t mem rest (u + int32 o.offset) (v + int32 o.offset) cells := by
  simp only [Ready, allAddress, List.all_cons, ho, Bool.true_and, moved, List.map_cons, List.sum_cons, nextLoad, if_true,
    BitVec.add_assoc]

/-- Two words to go on with. -/
theorem exists_ready (d : Compiler) (t : BtfType) (mem : Option Member) (offsets : List AccessOffset) (cells : List Word)
    (h : cells.length ≤ 2 ^ 59) :
    ∃ u v, u ≠ 0 ∧ Ready d t mem offsets u v cells ∧ (allAddress offsets → v = 0) := by
  unfold Ready
  split
  · rename_i hall
    refine ⟨1#64 <<< keptFrom mem, 0, ?_, fun heq => ?_, fun _ => rfl⟩
    · have hall : ∀ j < 8, 1#64 <<< j ≠ 0 := by decide
      exact hall _ (keptFrom_lt mem)
    · rw [zero_add, add_comm] at heq
      exact keptSem_add_ne _ heq.symm
  · obtain ⟨a, ha, hacells⟩ := exists_apart cells [nextLoad probeDisp offsets] (by simp only [List.length_singleton]; omega)
    obtain ⟨b, -, hbcells⟩ := exists_apart (a :: cells) [] (by simp only [List.length_cons, List.length_nil]; omega)
    refine ⟨a - nextLoad probeDisp offsets, b - nextLoad (modeDisp d) offsets, ?_, ?_, fun hall => absurd hall ‹_›⟩
    · intro hz
      refine ha ?_
      rw [List.mem_singleton]
      bv_omega
    · rw [BitVec.sub_add_cancel, BitVec.sub_add_cancel]
      refine ⟨(hbcells a List.mem_cons_self).symm, fun x hx => ⟨hacells x hx, hbcells x (List.mem_cons_of_mem _ hx)⟩⟩

/-- **Two walks that can be told apart depart**, in a memory with given
bytes in some cells, and depart whatever the memory holds outside these
cells and two more for each step. -/
theorem exists_departs (offsets : List AccessOffset) (cells : List Word) (m₀ : Word → Byte) (u v : Word)
    (hready : Ready d t mem offsets u v cells) (hlen : cells.length + 2 * offsets.length ≤ 2 ^ 59) :
    ∃ m all, AgreeOn cells m₀ m ∧ cells ⊆ all ∧ all.length ≤ cells.length + 2 * offsets.length ∧
      ∀ m', AgreeOn all m m' → Departs d t mem m' offsets u v := by
  induction offsets generalizing cells m₀ u v with
  | nil =>
    refine ⟨m₀, cells, AgreeOn.refl _ _, List.Subset.refl _, by simp, fun m' _ => ⟨trivial, fun y hy => ?_⟩⟩
    obtain rfl : v = y := by simpa [chainSem, readPlan, runPlan] using hy
    simpa [Ready, allAddress, moved, reach] using hready
  | cons o rest ih =>
    rw [List.length_cons] at hlen
    cases ho : o.address with
    | true =>
      obtain ⟨m, all, hagree, hsub, hall, hdep⟩ := ih cells m₀ _ _ ((ready_address ho).mp hready) (by omega)
      exact ⟨m, all, hagree, hsub, by rw [List.length_cons]; omega, fun m' hm' => (departs_address ho).mpr (hdep m' hm')⟩
    | false =>
      have hnot : allAddress (o :: rest) = false := by simp [allAddress, ho]
      simp only [Ready, hnot, Bool.false_eq_true, if_false, nextLoad, ho, probeDisp] at hready
      obtain ⟨hapart, hcells⟩ := hready
      -- what the two loads are to find
      obtain ⟨x, y, hx, hready, hzero⟩ := exists_ready d t mem rest
        ((u + int32 o.offset) :: (v + modeDisp d o) :: cells) (by simp only [List.length_cons]; omega)
      obtain ⟨size, hload⟩ := exists_load d ho (rest = [])
      obtain ⟨z, hz⟩ : ∃ z : Word, z = if size = .dword then y else 0 := ⟨_, rfl⟩
      obtain ⟨m, all, hagree, hsub, hall, hdep⟩ := ih _
        (writeBytes (writeBytes m₀ (u + int32 o.offset) 8 (byteOf x)) (v + modeDisp d o) 8 (byteOf z)) x y hready
        (by simp only [List.length_cons]; omega)
      have hbelow : cells ⊆ (u + int32 o.offset) :: (v + modeDisp d o) :: cells :=
        List.Subset.trans (List.subset_cons_self _ _) (List.subset_cons_self _ _)
      refine ⟨m, all, ?_, List.Subset.trans hbelow hsub, by simp only [List.length_cons] at hall ⊢; omega, fun m' hm' => ?_⟩
      · have hfirst : AgreeOn cells m₀ _ := agreeOn_store (fun c hc => (hcells c hc).1) (byteOf x)
        have hsecond := agreeOn_store (m := writeBytes m₀ (u + int32 o.offset) 8 (byteOf x))
          (fun c hc => (hcells c hc).2) (byteOf z)
        exact (hfirst.trans hsecond).trans (hagree.mono hbelow)
      -- what they find
      have hcover := hagree.trans (hm'.mono hsub)
      have hprobe : loadLE m' (u + int32 o.offset) 8 = x := by
        rw [hcover.loadLE List.mem_cons_self le_rfl]
        have hkeep : AgreeOn [u + int32 o.offset] (writeBytes m₀ (u + int32 o.offset) 8 (byteOf x))
            (writeBytes (writeBytes m₀ (u + int32 o.offset) 8 (byteOf x)) (v + modeDisp d o) 8 (byteOf z)) :=
          agreeOn_store (by simpa using hapart.symm) (byteOf z)
        exact hkeep.loadLE_store List.mem_cons_self
      have hmode : loadLE m' (v + modeDisp d o) 8 = z :=
        hcover.loadLE_store (List.mem_cons_of_mem _ List.mem_cons_self)
      refine departs_load ho hprobe (fun _ => hx) ?_ (hdep m' hm')
      have hvalue : (readStep d o (rest = [])).value m' v = loadLE m' (v + modeDisp d o) size.bytes := by
        rw [ReadStep.value, hload, readStep_delta]
      by_cases hdword : size = .dword
      · subst hdword
        rw [if_pos rfl] at hz
        exact .inl (hvalue.trans (hmode.trans hz))
      · -- a narrow load finds 0, and leaves unless it is the last step
        obtain ⟨hfour, hcheck⟩ := readStep_narrow hload hdword
        rw [if_neg hdword] at hz
        have hfound : (readStep d o (rest = [])).value m' v = 0 := by
          rw [hvalue, ← loadLE_and (k := 8) (by omega) le_rfl, hmode, hz]
          exact BitVec.zero_and
        by_cases hlast : rest = []
        · exact .inl (hfound.trans (hzero (by simp [hlast, allAddress])).symm)
        · exact .inr ⟨hcheck (by simp [hlast]), hfound⟩

/-! ## The step that the mode takes differently -/

/-- From any word but one, in a memory with given bytes in two cells for each
step, the walks from that word depart. -/
def Splits (d : Compiler) (t : BtfType) (mem : Option Member) (offsets : List AccessOffset) : Prop :=
  ∀ z, ∃ w m all, w ≠ z ∧ all.length ≤ 2 * offsets.length ∧
    ∀ m', AgreeOn all m m' → Departs d t mem m' offsets w w

/-- A word for the other walk. -/
theorem exists_ready_right (d : Compiler) (t : BtfType) (mem : Option Member) (offsets : List AccessOffset) (u : Word) :
    ∃ v, Ready d t mem offsets u v [] := by
  unfold Ready
  split
  · refine ⟨u + 1#64 <<< keptFrom mem, ?_⟩
    rw [add_right_comm]
    exact keptSem_add_ne _
  · obtain ⟨b, -, hb⟩ := exists_apart [u + nextLoad probeDisp offsets] [] (by simp)
    refine ⟨b - nextLoad (modeDisp d) offsets, ?_, by simp⟩
    rw [BitVec.sub_add_cancel]
    exact (hb _ List.mem_cons_self).symm

/-- Bytes in which two different loads find words to go on with. -/
theorem exists_reads_ready (d : Compiler) (t : BtfType) (mem : Option Member) (offsets : List AccessOffset) {a b : Word}
    (hne : b ≠ a) (size : Size) : ∃ f : Word → Byte, loadLE f a 8 ≠ 0 ∧
      Ready d t mem offsets (loadLE f a 8) (loadLE f b size.bytes) [] := by
  have hbytes : 0 < size.bytes ∧ size.bytes ≤ 8 := by cases size <;> simp [Size.bytes]
  unfold Ready
  split
  · -- the first kept bit tells two of the words apart
    obtain ⟨f, f', hf, hf', hshift⟩ := exists_shifted hne hbytes.1 hbytes.2 (keptFrom_lt mem)
    by_cases heq : keptSem d.heap t mem (loadLE f b size.bytes + moved offsets)
        = keptSem d.heap t mem (loadLE f a 8 + moved offsets)
    · refine ⟨f', hf', fun heq' => ?_⟩
      obtain ⟨hprobe, hmode⟩ | ⟨hprobe, hmode⟩ := hshift
      · rw [hprobe, hmode, heq, add_right_comm] at heq'
        exact keptSem_add_ne _ heq'.symm
      · rw [hprobe, hmode, ← heq, add_right_comm] at heq'
        exact keptSem_add_ne _ heq'
    · exact ⟨f, hf, heq⟩
  · -- one of two places 16 bytes from each other is far enough
    obtain ⟨f, f', hf, hf', hshift⟩ := exists_shifted hne hbytes.1 hbytes.2 (j := 4) (by omega)
    by_cases hapart : CellsApart (loadLE f a 8 + nextLoad probeDisp offsets)
        (loadLE f b size.bytes + nextLoad (modeDisp d) offsets)
    · exact ⟨f, hf, hapart, by simp⟩
    · refine ⟨f', hf', ?_, by simp⟩
      obtain ⟨hprobe, hmode⟩ | ⟨hprobe, hmode⟩ := hshift
      · rw [hprobe, hmode, add_right_comm]
        exact (apart_or_apart_add (by decide) (by decide)).resolve_left hapart
      · rw [hprobe, hmode, add_right_comm]
        exact ((apart_or_apart_add (by decide) (by decide)).resolve_left fun h => hapart h.symm).symm

/-- Bytes at the two places of a load, found by walks that can then be told
apart: the memory is laid out around some word. -/
theorem splits_of_reads (ho : o.address = false) (hload : (readStep d o (rest = [])).load = some size) (f : Word → Byte)
    (hprobe : rest ≠ [] → loadLE f (int32 o.offset) 8 ≠ 0)
    (hmode : loadLE f (modeDisp d o) size.bytes = y ∨
      (readStep d o (rest = [])).checked = true ∧ loadLE f (modeDisp d o) size.bytes = 0)
    (hready : Ready d t mem rest (loadLE f (int32 o.offset) 8) y []) (hlen : rest.length < 2 ^ 58) :
    Splits d t mem (o :: rest) := by
  intro z
  obtain ⟨p, hp⟩ : ∃ p, p = loadLE f (int32 o.offset) 8 + nextLoad probeDisp rest := ⟨_, rfl⟩
  obtain ⟨q, hq⟩ : ∃ q, q = y + nextLoad (modeDisp d) rest := ⟨_, rfl⟩
  -- a place away from where the walks go on
  obtain ⟨a, haz, ha⟩ := exists_apart
    [p - int32 o.offset, p - modeDisp d o, q - int32 o.offset, q - modeDisp d o] [z] (by simp)
  simp only [List.mem_cons, List.not_mem_nil, or_false, forall_eq_or_imp, forall_eq, ← apart_add_iff] at ha
  obtain ⟨hpp, hpm, hqp, hqm⟩ := ha
  have hfar : Ready d t mem rest (loadLE f (int32 o.offset) 8) y [a + int32 o.offset, a + modeDisp d o] := by
    unfold Ready at hready ⊢
    split
    · rename_i hall
      simpa [hall] using hready
    · rename_i hall
      rw [if_neg hall] at hready
      refine ⟨hready.1, ?_⟩
      simp only [List.mem_cons, List.not_mem_nil, or_false, forall_eq_or_imp, forall_eq, ← hp, ← hq]
      exact ⟨⟨hpp.symm, hqp.symm⟩, hpm.symm, hqm.symm⟩
  obtain ⟨m, all, hagree, hsub, hall, hdep⟩ := exists_departs rest _ (fun x => f (x - a)) _ _ hfar
    (by simp only [List.length_cons, List.length_nil]; omega)
  refine ⟨a, m, all, by simpa using haz, by simp only [List.length_cons, List.length_nil] at hall ⊢; omega, fun m' hm' => ?_⟩
  -- the bytes are there
  have hcover := hagree.trans (hm'.mono hsub)
  have hbytes : size.bytes ≤ 8 := by cases size <;> simp [Size.bytes]
  have hmoved (e : Word) (n : Nat) : loadLE (fun x => f (x - a)) (a + e) n = loadLE f e n :=
    loadLE_congr fun i _ => congrArg f (by rw [add_assoc, add_sub_cancel_left])
  have hat : loadLE m' (a + int32 o.offset) 8 = loadLE f (int32 o.offset) 8 := by
    rw [hcover.loadLE List.mem_cons_self le_rfl, hmoved]
  have hvalue : (readStep d o (rest = [])).value m' a = loadLE f (modeDisp d o) size.bytes := by
    rw [ReadStep.value, hload, readStep_delta]
    exact (hcover.loadLE (List.mem_cons_of_mem _ List.mem_cons_self) hbytes).trans (hmoved _ _)
  refine departs_load ho hat hprobe ?_ (hdep m' hm')
  rw [hvalue]
  exact hmode

/-- A step that the mode takes differently. -/
theorem splits_first (hstep : ¬ FollowsStep d t mem o (rest = [])) (hlen : rest.length < 2 ^ 58) :
    Splits d t mem (o :: rest) := by
  have ho : o.address = false := by
    by_contra hyes
    exact hstep fun h => absurd h hyes
  obtain ⟨size, hload⟩ := exists_load d ho (rest = [])
  have hbytes : 0 < size.bytes ∧ size.bytes ≤ 8 := by cases size <;> simp [Size.bytes]
  by_cases hlost : size ≠ .dword ∧ rest ≠ []
  · -- a typed load that finds 0 in front of a byte it does not cover
    obtain ⟨hfour, hcheck⟩ := readStep_narrow hload hlost.1
    obtain ⟨f, hprobe, hzero⟩ := exists_hidden (a := int32 o.offset) (b := modeDisp d o) hfour
    obtain ⟨y, hready⟩ := exists_ready_right d t mem rest (loadLE f (int32 o.offset) 8)
    exact splits_of_reads ho hload f (fun _ => hprobe) (.inr ⟨hcheck (by simp [hlost.2]), hzero⟩) hready hlen
  · by_cases hdisp : modeDisp d o = int32 o.offset
    · -- the same place, of which too little is loaded
      have hcut : size ≠ .dword ∧ ¬ (rest = [] ∧ keptEnd d.heap t mem ≤ 8 * size.bytes) := by
        constructor
        · intro hdword
          exact hstep fun _ => ⟨by rw [readStep_delta, hdisp], size, hload, .inl hdword⟩
        · rintro ⟨hlast, hend⟩
          exact hstep fun _ => ⟨by rw [readStep_delta, hdisp], size, hload, .inr ⟨by simpa using hlast, hend⟩⟩
      obtain rfl : rest = [] := by
        by_contra hmore
        exact hlost ⟨hcut.1, hmore⟩
      obtain ⟨x, hx⟩ : ∃ x, keptSem d.heap t mem (x &&& lowMask size.bytes) ≠ keptSem d.heap t mem x := by
        by_contra hno
        push Not at hno
        exact hcut.2 ⟨rfl, (keptSem_low_iff hbytes.1 hbytes.2).mp hno⟩
      have hread : loadLE (writeBytes ones (int32 o.offset) 8 (byteOf x)) (int32 o.offset) 8 = x := loadLE_writeBytes _ _ _
      refine splits_of_reads (y := x &&& lowMask size.bytes) ho hload
        (writeBytes ones (int32 o.offset) 8 (byteOf x)) (fun h => absurd rfl h) (.inl ?_) ?_ hlen
      · rw [hdisp, ← loadLE_and hbytes.2 le_rfl, hread]
      · rw [hread]
        simpa [Ready, allAddress, moved] using hx
    · obtain ⟨f, hprobe, hready⟩ := exists_reads_ready d t mem rest hdisp size
      exact splits_of_reads ho hload f (fun _ => hprobe) (.inl rfl) hready hlen

/-- A step that the mode takes as the probe reads do, in front of walks that
depart. -/
theorem splits_cons (hstep : FollowsStep d t mem o (rest = [])) (hrest : rest ≠ []) (hlen : rest.length < 2 ^ 58)
    (h : Splits d t mem rest) : Splits d t mem (o :: rest) := by
  intro z
  cases ho : o.address with
  | true =>
    obtain ⟨w, m, all, hw, hall, hdep⟩ := h (z + int32 o.offset)
    refine ⟨w - int32 o.offset, m, all, fun heq => hw ?_, by rw [List.length_cons]; omega, fun m' hm' => ?_⟩
    · rw [← heq, BitVec.sub_add_cancel]
    · rw [departs_address ho, BitVec.sub_add_cancel]
      exact hdep m' hm'
  | false =>
    obtain ⟨hdelta, size, hload, hsize⟩ := hstep ho
    obtain rfl : size = .dword := hsize.resolve_right fun hlast => hrest (by simpa using hlast.1)
    -- a cell that holds the word from which they depart
    obtain ⟨w, m, all, hw, hall, hdep⟩ := h 0
    obtain ⟨a, ha, hcells⟩ := exists_apart all [z + int32 o.offset] (by simp only [List.length_singleton]; omega)
    refine ⟨a - int32 o.offset, writeBytes m a 8 (byteOf w), a :: all, fun heq => ha ?_,
      by simp only [List.length_cons]; omega, fun m' hm' => ?_⟩
    · rw [← heq, BitVec.sub_add_cancel, List.mem_singleton]
    · have hat : loadLE m' a 8 = w := hm'.loadLE_store List.mem_cons_self
      have hkeep : AgreeOn all m m' :=
        (agreeOn_store hcells (byteOf w)).trans (hm'.mono (List.subset_cons_self _ _))
      refine departs_load ho (by rw [BitVec.sub_add_cancel, hat]) (fun _ => hw) (.inl ?_) (hdep m' hkeep)
      rw [ReadStep.value, hload, hdelta, BitVec.sub_add_cancel]
      exact hat

/-- A chain with a step that the mode takes differently. -/
theorem splits_of_not_follows (h : ¬ FollowsChain d t mem offsets) (hlen : offsets.length < 2 ^ 58) :
    Splits d t mem offsets := by
  induction offsets with
  | nil => exact absurd trivial h
  | cons o rest ih =>
    rw [List.length_cons] at hlen
    by_cases hstep : FollowsStep d t mem o (rest = [])
    · have hrest : ¬ FollowsChain d t mem rest := fun hrest => h ⟨hstep, hrest⟩
      refine splits_cons hstep ?_ (by omega) (ih hrest (by omega))
      rintro rfl
      exact hrest trivial
    · exact splits_first hstep (by omega)

end Walks

/-! ## When the modes agree -/

section Agreement

variable {c : Compiler} {t : BtfType} {mem : Option Member} {offsets : List AccessOffset} {m : Word → Byte} {w : Word}
  {reg : Reg} {g : Gen}

/-- No pointer is NULL where every byte is 1. -/
theorem noNull_ones (offsets : List AccessOffset) (w : Word) : NoNull ones offsets w := by
  induction offsets generalizing w with
  | nil => trivial
  | cons o rest ih =>
    unfold NoNull
    split
    · exact ih _
    · exact ⟨fun _ => loadLE_ones_ne _ .dword, ih _⟩

/-- A target that the probe reads load back keeps its base there, and the
direct reads leave the value. -/
theorem ModesAgree.target (hfit : StackFits c) (hreg : reg ≠ RFP) (hemits : ∀ mode, ∃ code, EmitsIn c mode offsets reg g code)
    (h : ModesAgree c t mem offsets reg g) : restored (c.inMode .probeRead) g.regalloc offsets reg = false := by
  by_contra hne
  have hback : restored (c.inMode .probeRead) g.regalloc offsets reg = true := by simpa using hne
  have hload : allAddress offsets = false := by
    by_contra hall
    simp [restored, hall] at hback
  choose code hcode using hemits
  -- a base that differs from the value in the first bit that is kept
  obtain ⟨v, hv⟩ := chainSem_ones (c.inMode .directRead) offsets 0
  obtain ⟨s, hs⟩ : ∃ s : State, s.regs reg = v + 1#64 <<< keptFrom mem := ⟨⟨fun _ => _, ones, ones, 0⟩, rfl⟩
  obtain ⟨after, hexec, hkept⟩ := h code hcode (onesKernel c) s rfl (noNull_ones _ _)
  have hdirect : (after .directRead).regs reg = v := by
    obtain ⟨x, s', hrun, hval⟩ := (hcode .directRead).exec hfit hreg
      (by simp [restored, Compiler.inMode]) (K := onesKernel c) s rfl
    rw [show (onesKernel c).mem = ones from rfl, chainSem_ones_const _ offsets _ 0 hload, hv] at hval
    rw [hexec, Outcome.cont.injEq] at hrun
    rw [hrun.2, hval.2]
  have hprobe : (after .probeRead).regs reg = v + 1#64 <<< keptFrom mem := by
    obtain ⟨x, s', hrun, -, -, hval⟩ :=
      @exec_chainCode (onesKernel c) (c.inMode .probeRead) g.regalloc reg rfl hfit hreg offsets s
    obtain ⟨y, hy⟩ := chainSem_ones (c.inMode .probeRead) offsets (s.regs reg)
    rw [show (onesKernel c).mem = ones from rfl, hy, hback] at hval
    rw [← (hcode .probeRead).eq_chainCode, hexec, Outcome.cont.injEq] at hrun
    rw [hrun.2, hval.2.1, if_pos rfl, hs]
  have heq := hkept .directRead
  rw [hdirect, hprobe] at heq
  exact keptSem_add_ne v heq.symm

/-- Modes that agree take every step alike. -/
theorem ModesAgree.steps (hfit : StackFits c) (hreg : reg ≠ RFP) (hemits : ∀ mode, ∃ code, EmitsIn c mode offsets reg g code)
    (hlen : offsets.length < 2 ^ 58) (h : ModesAgree c t mem offsets reg g) : StepsAlike c t mem offsets := by
  have htarget := h.target hfit hreg hemits
  rw [stepsAlike_iff]
  intro mode
  by_contra hnot
  obtain ⟨w, m, all, -, -, hdep⟩ := splits_of_not_follows hnot hlen 0
  obtain ⟨hnull, hother⟩ := hdep m (AgreeOn.refl _ _)
  choose code hcode using hemits
  obtain ⟨K, hK⟩ : ∃ K : Kernel, K = ⟨m, fun _ _ => 0, c.rdonlyCastFastcall⟩ := ⟨_, rfl⟩
  obtain ⟨s, rfl⟩ : ∃ s : State, s.regs reg = w := ⟨⟨fun _ => w, ones, ones, 0⟩, rfl⟩
  have hmem : K.mem = m := by rw [hK]
  have hfast : K.fastcall = c.rdonlyCastFastcall := by rw [hK]
  obtain ⟨after, hexec, hkept⟩ := h code hcode K s hfast (by rw [hmem]; exact hnull)
  -- what each mode leaves is what its chain leads to
  have hvalue (mode : MemoryReadMode) : chainSem (c.inMode mode) m offsets (s.regs reg) = .ok ((after mode).regs reg) := by
    obtain ⟨x, s', hrun, hval⟩ := (hcode mode).exec hfit hreg (restored_inMode htarget mode) s hfast
    rw [hexec, Outcome.cont.injEq] at hrun
    rw [hmem] at hval
    cases hsem : chainSem (c.inMode mode) m offsets (s.regs reg) with
    | error e =>
      rw [hsem] at hval
      rw [← hrun.1] at hval
      simp at hval
    | ok y =>
      rw [hsem] at hval
      rw [hrun.2, hval.2]
  have hprobe : keptSem c.heap t mem ((after .probeRead).regs reg) = keptSem c.heap t mem (reach m offsets (s.regs reg)) := by
    obtain ⟨y, hy, hkept⟩ := chainSem_of_follows (followsChain_probe c t mem offsets) hnull
    rw [hvalue, Except.ok.injEq] at hy
    rw [hy]
    exact hkept
  exact hother _ (hvalue mode) ((hkept mode).trans hprobe)

/-- **When the three read modes agree.** For every chain of offsets, every
target and every kind of result: they leave one value in the target, as far
as it is kept, if the target is not loaded back behind the probe reads and
the modes take every step alike; and only then, for every chain of fewer
than 2^58 steps. -/
theorem modes_agree_iff (hfit : StackFits c) (hreg : reg ≠ RFP)
    (hemits : ∀ mode, ∃ code, EmitsIn c mode offsets reg g code) :
    (ReadAlike c t mem offsets reg g → ModesAgree c t mem offsets reg g) ∧
      (offsets.length < 2 ^ 58 → ModesAgree c t mem offsets reg g → ReadAlike c t mem offsets reg g) :=
  ⟨fun h => h.agree hfit hreg, fun hlen h => ⟨h.target hfit hreg hemits, h.steps hfit hreg hemits hlen⟩⟩

end Agreement

/-! ### An element behind a pointer

`p[1]` with a parameter `u64 *p`. There is no struct to cast to, so the
CO-RE reads fall back to a probe read, which leaves the offset out and takes
the element 0. -/

/-- A compiler for functions with a parameter `u64 *p`. -/
def pointerCompiler : Compiler :=
  { Compiler.empty .coreRead with vars := ["p"], btfs := [.pointer (.int "u64" 8 .unsigned)] }

/-- `p[1]`. -/
def secondElement : Expr := .index (.name "p") (.number "1")

/-- The chain of an element: eight bytes, `n` bytes on. -/
def elementOffset (n : Word) : List AccessOffset :=
  [{ btf := .int "u64" 8 .unsigned, prev := none, offset := n, address := false }]

/-- Memory in which every byte is the low byte of its address. -/
def countingMemory : Word → Byte := fun a => a.setWidth 8

theorem element_emits {n : Word} (hn : n = 0 ∨ n = 8) (mode : MemoryReadMode) :
    ∃ code, EmitsIn pointerCompiler mode (elementOffset n) R8 noCode code := by
  rcases hn with rfl | rfl <;> cases mode <;> exact ⟨_, _, rfl, rfl⟩

theorem second_element_differs :
    (∃ res, accessMemory pointerCompiler secondElement noCode = .ok (res, noCode) ∧
      res.offsets = elementOffset 8 ∧ res.btf = .int "u64" 8 .unsigned ∧ res.mem = none) ∧
    chainSem (pointerCompiler.inMode .probeRead) countingMemory (elementOffset 8) 0 = .ok 0x0F0E0D0C0B0A0908 ∧
    chainSem (pointerCompiler.inMode .coreRead) countingMemory (elementOffset 8) 0 = .ok 0x0706050403020100 ∧
    ¬ ModesAgree pointerCompiler (.int "u64" 8 .unsigned) none (elementOffset 8) R8 noCode := by
  refine ⟨⟨_, rfl, rfl, rfl, rfl⟩, by decide, by decide, fun h => ?_⟩
  have hsteps := h.steps (by decide) (by decide) (element_emits (.inr rfl)) (by decide)
  have hzero : int32 8 = 0 := (hsteps.1 rfl).2
  exact absurd hzero (by decide)

/-- The modes agree on `p[0]`. -/
theorem first_element_agrees : ModesAgree pointerCompiler (.int "u64" 8 .unsigned) none (elementOffset 0) R8 noCode :=
  (modes_agree_iff (by decide) (by decide) (element_emits (.inl rfl))).1
    ⟨by decide, fun _ => ⟨by decide, show int32 0 = 0 by decide⟩, trivial⟩

end Bpfsnoop.CC
