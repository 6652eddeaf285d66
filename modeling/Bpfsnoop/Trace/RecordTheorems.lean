/-
Bpfsnoop.Trace.RecordTheorems — what user space reads is what was written.

The record of a function event is tiled by its parts: the sizes user space
cuts off are the ones the program was configured with, as long as the data
of the output arguments fits the 32 bits of the configuration. The record
of a graph event never is. The BPF program puts the size of the whole
record into the length field, user space adds the header to it once more;
the slice ends 32 bytes behind the record, or, where the buffer ends
there, the slicing panics.
-/
import Bpfsnoop.Trace.Records

namespace Bpfsnoop.Trace

open Lib

/-! ## Sizes -/

/-- The buffer size survives its 32 bits. -/
theorem injectOutputFuncArgs_lt {prms : List FuncParamFlags} (hprms : prms.length < 2 ^ 17)
    (ret : FuncParamFlags) (withRetval : Bool) : injectOutputFuncArgs prms ret withRetval < 2 ^ 32 := by
  have hsum : (prms.map FuncParamFlags.size).sum ≤ prms.length * 64 := by
    clear hprms
    induction prms with
    | nil => exact Nat.le_refl 0
    | cons prm prms ih =>
      have hprm := prm.size_le
      simp only [List.map_cons, List.sum_cons, List.length_cons]
      omega
  have hret := ret.size_le
  rw [injectOutputFuncArgs_eq, genOutputFuncArgs_snd]
  split <;> omega

variable {t : Tracee} {order : List Bool}

theorem Tracee.fnArgsBuf_toNat (t : Tracee) (isExit : Bool) :
    (BitVec.ofNat 32 (t.fnArgsBufSize isExit)).toNat = t.fnArgsBufSize isExit := by
  rw [BitVec.toNat_ofNat]
  exact Nat.mod_eq_of_lt (injectOutputFuncArgs_lt t.length_prms t.ret _)

theorem Tracee.graphArgs_toNat (t : Tracee) (isExit : Bool) :
    (BitVec.ofNat 32 (t.graphArgs isExit)).toNat = t.graphArgs isExit := by
  rw [BitVec.toNat_ofNat]
  exact Nat.mod_eq_of_lt (injectOutputFuncArgs_lt t.length_prms t.ret _)

/-! ## What user space keeps -/

/-- The sizes of the programs of kind `isExit` are known. -/
structure Knows (t : Tracee) (isExit : Bool) (info : FuncInfo) : Prop where
  pktTuple : info.pktTuple = t.pkt
  argData : info.argData = t.argData
  size : (if isExit then info.argExit else info.argEntry) = t.fnArgsBufSize isExit

theorem knows_traceFunc (t : Tracee) (isExit : Bool) (info : FuncInfo) :
    Knows t isExit (traceFunc t isExit info) := by
  cases isExit <;> exact ⟨rfl, rfl, rfl⟩

/-- Attaching another program changes nothing about this one. -/
theorem Knows.traceFunc {isExit : Bool} {info : FuncInfo} (h : Knows t isExit info) (other : Bool) :
    Knows t isExit (traceFunc t other info) := by
  have hsize := h.size
  cases isExit <;> cases other
  · exact knows_traceFunc t false info
  · exact ⟨rfl, rfl, hsize⟩
  · exact ⟨rfl, rfl, hsize⟩
  · exact knows_traceFunc t true info

/-- Every attached program is known, whatever the order. -/
theorem knows_funcInfo {isExit : Bool} (h : isExit ∈ order) : Knows t isExit (funcInfo t order) := by
  have hfold : ∀ (order : List Bool) (info : FuncInfo), Knows t isExit info ∨ isExit ∈ order →
      Knows t isExit (order.foldl (fun info b => Trace.traceFunc t b info) info) := by
    intro order
    induction order with
    | nil =>
      intro info h
      exact h.resolve_right List.not_mem_nil
    | cons b order ih =>
      intro info h
      refine ih _ ?_
      rcases h with h | h
      · exact .inl (h.traceFunc b)
      · rcases List.mem_cons.mp h with rfl | h
        · exact .inl (knows_traceFunc t isExit info)
        · exact .inr h
  exact hfold order {} (.inr h)

/-- An attached program returns a value exactly if it runs at the exit. -/
theorem withRet_of_mem {kprobe bothEntryExit hasModeExit isExit : Bool}
    (h : isExit ∈ attached t kprobe bothEntryExit hasModeExit) : t.withRet isExit = isExit := by
  unfold attached at h
  unfold Tracee.withRet
  split at h
  · rename_i htp
    rw [List.mem_singleton] at h
    rw [htp, h]
    rfl
  · rename_i htp
    simp [htp]

/-! ## Parts -/

/-- A part that may be missing is an interval that may be empty. -/
theorem ite_Ico (present : Bool) (a n : Nat) :
    (if present then Finset.Ico a (a + n) else ∅) = Finset.Ico a (a + if present then n else 0) := by
  cases present <;> simp

theorem readPart_of_le (present : Bool) (n : Nat) {data : Slice}
    (hlen : (if present then n else 0) ≤ data.len) :
    ∃ rest, readPart present n data =
        some (Finset.Ico data.start (data.start + if present then n else 0), rest) ∧
      rest.start = data.start + (if present then n else 0) ∧
      rest.len = data.len - (if present then n else 0) := by
  unfold readPart
  cases present with
  | false => exact ⟨data, by simp, rfl, rfl⟩
  | true =>
    obtain ⟨part, rest, hcut, hstart, hn, hrest, hleft⟩ := Slice.exists_cut hlen
    refine ⟨rest, ?_, hrest, hleft⟩
    rw [if_pos rfl] at hcut hn
    simp [hcut, Slice.bytes, hstart, hn]

/-- A part that is present unless it is empty. -/
theorem readPart_ne_zero (n : Nat) {data : Slice} (hlen : n ≤ data.len) :
    ∃ rest, readPart (n ≠ 0) n data = some (Finset.Ico data.start (data.start + n), rest) ∧
      rest.start = data.start + n ∧ rest.len = data.len - n := by
  have hn : (if decide (n ≠ 0) = true then n else 0) = n := by
    by_cases hzero : n = 0
    · simp [hzero]
    · simp [hzero]
  have hread := readPart_of_le (n ≠ 0) n (hn.trans_le hlen)
  rwa [hn] at hread

theorem readPart_eq_none {n : Nat} {data : Slice} (hlen : data.len < n) :
    readPart (n ≠ 0) n data = none := by
  have hpos : decide (n ≠ 0) = true := decide_eq_true (by omega)
  rw [readPart, Slice.cut_eq_none hlen, hpos]
  rfl

/-! ## Function events -/

/-- Where the packet tuple starts. -/
def Tracee.pktStart (t : Tracee) (isExit : Bool) : Nat := sizeOfEvent + t.fnArgsBufSize isExit

/-- Where the data of the output arguments starts. -/
def Tracee.dataStart (t : Tracee) (isExit : Bool) : Nat :=
  t.pktStart isExit + if t.pkt then sizeOfPktData else 0

/-- The parts of a function event lie one behind the other. -/
theorem record_func (t : Tracee) (isExit : Bool) :
    (t.record (.func isExit)).size = t.dataStart isExit + t.argData % 2 ^ 32 ∧
      (t.record (.func isExit)).parts =
        { fnArgs := Finset.Ico sizeOfEvent (t.pktStart isExit)
          pktTuple := Finset.Ico (t.pktStart isExit) (t.dataStart isExit)
          argData := Finset.Ico (t.dataStart isExit) (t.dataStart isExit + t.argData % 2 ^ 32) } := by
  have hbuf := t.fnArgsBuf_toNat isExit
  have hdata : (BitVec.ofNat 32 t.argData).toNat = t.argData % 2 ^ 32 := BitVec.toNat_ofNat _ _
  have hdata' : (if decide (t.argData ≠ 0) = true then t.argData % 2 ^ 32 else 0) =
      t.argData % 2 ^ 32 := by
    by_cases hzero : t.argData = 0
    · simp [hzero]
    · simp [hzero]
  unfold Tracee.dataStart Tracee.pktStart
  cases hpkt : t.pkt with
  | false =>
    simp only [Tracee.record, emitEvent, Tracee.config, setBpfsnoopConfig, hbuf, hdata, hpkt, ite_Ico,
      hdata', Bool.false_eq_true, if_false, Nat.add_zero, Finset.Ico_self, and_self]
  | true =>
    simp only [Tracee.record, emitEvent, Tracee.config, setBpfsnoopConfig, hbuf, hdata, hpkt, ite_Ico,
      hdata', if_true, and_true]
    omega

/-- The record of an attached program is read as an event of its kind. -/
theorem handle_func {kprobe bothEntryExit hasModeExit isExit : Bool}
    (horder : order.Perm (attached t kprobe bothEntryExit hasModeExit)) (hmem : isExit ∈ order)
    {cap : Nat} (hcap : (t.record (.func isExit)).size ≤ cap) :
    t.handle order (t.record (.func isExit)) cap hcap =
      handleEvent (funcInfo t order) isExit ⟨0, (t.record (.func isExit)).size, cap, hcap⟩ := by
  have hret : t.withRet isExit = isExit := withRet_of_mem (horder.mem_iff.mp hmem)
  have htype : (t.record (.func isExit)).type = if isExit then .funcExit else .funcEntry := by
    cases isExit <;> simp [Tracee.record, emitEvent, Tracee.config, setBpfsnoopConfig, hret]
  unfold Tracee.handle
  rw [htype]
  cases isExit <;> rfl

/-- Of a function event user space reads the header, the function arguments
and the packet tuple as they were written; it is left with the data. -/
theorem handleEvent_record {isExit : Bool} (hmem : isExit ∈ order) {cap : Nat}
    (hcap : (t.record (.func isExit)).size ≤ cap) :
    ∃ data : Slice, data.start = t.dataStart isExit ∧ data.len = t.argData % 2 ^ 32 ∧
      handleEvent (funcInfo t order) isExit ⟨0, (t.record (.func isExit)).size, cap, hcap⟩ =
        (readPart (t.argData ≠ 0) t.argData data).map fun (argData, _) =>
          { area := Finset.Ico sizeOfEvent (t.record (.func isExit)).size
            parts := { (t.record (.func isExit)).parts with argData := argData } } := by
  obtain ⟨hsize, hparts⟩ := record_func t isExit
  have hknown := knows_funcInfo (t := t) hmem
  rw [hparts]
  generalize t.record (.func isExit) = r at hcap hsize ⊢
  unfold Tracee.dataStart Tracee.pktStart at *
  obtain ⟨data₁, hafter, hstart₁, hlen₁⟩ :=
    Slice.exists_after (s := ⟨0, r.size, cap, hcap⟩) (n := sizeOfEvent) (by
      show sizeOfEvent ≤ r.size
      omega)
  simp only [Nat.zero_add] at hstart₁ hlen₁
  have hargs := readPart_ne_zero (t.fnArgsBufSize isExit) (show _ ≤ data₁.len by omega)
  obtain ⟨data₂, hargs, hstart₂, hlen₂⟩ := hargs
  obtain ⟨data₃, hpkt, hstart₃, hlen₃⟩ :=
    readPart_of_le t.pkt sizeOfPktData (show _ ≤ data₂.len by omega)
  have harea : data₁.bytes = Finset.Ico sizeOfEvent r.size := by
    rw [Slice.bytes, hstart₁, hlen₁]
    congr 1
    omega
  refine ⟨data₃, by omega, by omega, ?_⟩
  simp only [handleEvent, outputFuncInfo, hafter, hargs, hknown.pktTuple, hpkt, hknown.argData,
    harea, hknown.size, hstart₁, hstart₂, Option.bind_eq_bind, Option.bind_some, Option.pure_def]
  cases readPart (t.argData ≠ 0) t.argData data₃ <;> rfl

/-- The parts of a function event tile what follows the header. -/
theorem record_func_tiles (t : Tracee) (isExit : Bool) {r : RingbufRecord}
    (hr : t.record (.func isExit) = r) :
    Finset.Ico sizeOfEvent r.size ⊆ Finset.range r.size ∧
      r.parts.fnArgs ∪ r.parts.pktTuple ∪ r.parts.argData ⊆ Finset.Ico sizeOfEvent r.size ∧
      Disjoint r.parts.fnArgs r.parts.pktTuple ∧ Disjoint r.parts.fnArgs r.parts.argData ∧
      Disjoint r.parts.pktTuple r.parts.argData := by
  obtain ⟨hsize, hparts⟩ := record_func t isExit
  rw [hr] at hsize hparts
  have hpkt : sizeOfEvent ≤ t.pktStart isExit := Nat.le_add_right _ _
  have hdata : t.pktStart isExit ≤ t.dataStart isExit := Nat.le_add_right _ _
  rw [hparts]
  refine ⟨fun i hi => ?_, fun i hi => ?_, ?_, ?_, ?_⟩
  · exact Finset.mem_range.mpr (Finset.mem_Ico.mp hi).2
  · simp only [Finset.mem_union, Finset.mem_Ico] at hi ⊢
    omega
  · exact Finset.Ico_disjoint_Ico_consecutive _ _ _
  · refine Finset.disjoint_left.mpr fun i hi hj => ?_
    rw [Finset.mem_Ico] at hi hj
    omega
  · exact Finset.Ico_disjoint_Ico_consecutive _ _ _

section Func

variable {kprobe bothEntryExit hasModeExit isExit : Bool}

/-- A function event whose data fits is tiled. -/
theorem tiles_func (horder : order.Perm (attached t kprobe bothEntryExit hasModeExit))
    (hmem : isExit ∈ order) (hdata : t.argData < 2 ^ 32) :
    Tiles t order (t.record (.func isExit)) := by
  intro cap hcap
  obtain ⟨harea, hsub, hdisj⟩ := record_func_tiles t isExit rfl
  obtain ⟨data, hstart, hlen, hevent⟩ := handleEvent_record (t := t) hmem hcap
  rw [Nat.mod_eq_of_lt hdata] at hlen
  obtain ⟨rest, hread, -, -⟩ := readPart_ne_zero t.argData (show _ ≤ data.len by omega)
  obtain ⟨-, hparts⟩ := record_func t isExit
  rw [Nat.mod_eq_of_lt hdata] at hparts
  have hhandle : t.handle order (t.record (.func isExit)) cap hcap =
      some { area := Finset.Ico sizeOfEvent (t.record (.func isExit)).size
             parts := (t.record (.func isExit)).parts } := by
    rw [handle_func horder hmem, hevent, hread, hparts, hstart]
    rfl
  exact ⟨_, hhandle, harea, hsub, hdisj.1, hdisj.2.1, hdisj.2.2, rfl⟩

/-- Data that does not fit is cut from the record behind its end. -/
theorem not_tiles_func (horder : order.Perm (attached t kprobe bothEntryExit hasModeExit))
    (hmem : isExit ∈ order) (hdata : 2 ^ 32 ≤ t.argData) :
    ¬ Tiles t order (t.record (.func isExit)) := by
  intro h
  obtain ⟨d, hd, -⟩ := h _ (Nat.le_refl _)
  obtain ⟨data, hstart, hlen, hevent⟩ := handleEvent_record (t := t) hmem (Nat.le_refl _)
  have hmod : t.argData % 2 ^ 32 < 2 ^ 32 := Nat.mod_lt _ (by omega)
  have hread : readPart (t.argData ≠ 0) t.argData data = none := readPart_eq_none (by omega)
  rw [handle_func horder hmem, hevent, hread] at hd
  cases hd

end Func

/-! ## Graph events -/

/-- What user space takes for the bytes behind the header of a graph event. -/
theorem handle_graph {isExit : Bool} {cap : Nat} (hcap : (t.record (.graph isExit)).size ≤ cap)
    {d : Decoded} (h : t.handle order (t.record (.graph isExit)) cap hcap = some d) :
    d.area = Finset.Ico sizeOfGraphEvent
        (sizeOfGraphEvent + (sizeOfGraphEvent + t.graphArgs isExit) % 2 ^ 16) := by
  have hhandle : t.handle order (t.record (.graph isExit)) cap hcap =
      handleGraphEvent (t.graphArgs false) (t.graphArgs true) isExit
        (BitVec.ofNat 16 (sizeOfGraphEvent + t.graphArgs isExit))
        ⟨0, (t.record (.graph isExit)).size, cap, hcap⟩ := by
    have hbuf := t.graphArgs_toNat isExit
    unfold Tracee.handle
    cases isExit <;> simp [Tracee.record, emitGraphEvent, hbuf]
  rw [hhandle, handleGraphEvent, Option.bind_eq_bind, Option.bind_eq_some_iff] at h
  obtain ⟨data, hsub, h⟩ := h
  rw [Option.bind_eq_bind, Option.bind_eq_some_iff] at h
  obtain ⟨args, -, h⟩ := h
  cases h
  obtain ⟨-, hstart, hlen⟩ := Slice.sub_eq_some hsub
  simp only [BitVec.toNat_ofNat, Nat.zero_add, Nat.add_sub_cancel_left] at hstart hlen
  show data.bytes = _
  rw [Slice.bytes, hstart, hlen]

/-- **A graph event is never tiled**: the bytes it is read from do not end
where the record ends. -/
theorem not_tiles_graph (t : Tracee) (order : List Bool) (isExit : Bool) :
    ¬ Tiles t order (t.record (.graph isExit)) := by
  intro h
  obtain ⟨d, hd, hrecord, hparts, -, -, -, heq⟩ := h _ (Nat.le_refl _)
  have hsize : (t.record (.graph isExit)).size = sizeOfGraphEvent + t.graphArgs isExit := by
    rw [← t.graphArgs_toNat isExit]
    rfl
  have hargs : d.parts.fnArgs = Finset.Ico sizeOfGraphEvent (t.record (.graph isExit)).size := by
    rw [heq]
    rfl
  have harea := handle_graph (Nat.le_refl _) hd
  have hsub := Finset.union_subset_left (Finset.union_subset_left hparts)
  rw [hargs, harea, hsize] at hsub
  rw [harea, hsize] at hrecord
  -- an interval within another one ends before it
  have hle : (sizeOfGraphEvent + t.graphArgs isExit) % 2 ^ 16 ≤ t.graphArgs isExit := by
    by_contra hlt
    rw [Finset.range_eq_Ico, Finset.Ico_subset_Ico_iff (by omega)] at hrecord
    omega
  have hge : t.graphArgs isExit ≤ (sizeOfGraphEvent + t.graphArgs isExit) % 2 ^ 16 := by
    by_contra hlt
    rw [Finset.Ico_subset_Ico_iff (by omega)] at hsub
    omega
  unfold sizeOfGraphEvent at hle hge
  omega

/-! ## Records -/

/-- **Record tiling.** A record that a program of a function wrote is tiled
by the parts user space reads from it, if and only if it is a function
event and the size of the output-argument data fits 32 bits. -/
theorem record_tiles_iff {kprobe bothEntryExit hasModeExit : Bool}
    (horder : order.Perm (attached t kprobe bothEntryExit hasModeExit)) (src : Source)
    (hsrc : src.Runs order) :
    Tiles t order (t.record src) ↔ src.isGraph = false ∧ t.argData < 2 ^ 32 := by
  cases src with
  | graph isExit =>
    refine iff_of_false (not_tiles_graph t order isExit) ?_
    rintro ⟨hgraph, -⟩
    cases hgraph
  | func isExit =>
    constructor
    · intro h
      refine ⟨rfl, ?_⟩
      by_contra hdata
      exact not_tiles_func horder hsrc (by omega) h
    · rintro ⟨-, hdata⟩
      exact tiles_func horder hsrc hdata

/-- A function of one scalar argument, traced at its entry. -/
def oneArgument : Tracee :=
  { prms := [{}], ret := {}, pkt := true, argData := 9, isTp := false, length_prms := by decide }

/-- Its function events are tiled: 8, 16 and 9 bytes behind the header. -/
theorem oneArgument_tiles : [false].Perm (attached oneArgument false false false) ∧
    (Source.func false).Runs [false] ∧ Tiles oneArgument [false] (oneArgument.record (.func false)) :=
  ⟨.refl _, List.mem_singleton_self _,
    (record_tiles_iff (t := oneArgument) (List.Perm.refl (attached oneArgument false false false))
      (.func false) (List.mem_singleton_self _)).mpr ⟨rfl, by decide⟩⟩

/-- Its graph events are records of 40 bytes, of which user space asks for
72: where the buffer ends with the record, it panics. -/
theorem oneArgument_graph_panics :
    (oneArgument.record (.graph false)).size = 40 ∧
      oneArgument.handle [false] (oneArgument.record (.graph false)) 40 (by decide) = none ∧
      ¬ Tiles oneArgument [false] (oneArgument.record (.graph false)) := by
  have hnone : oneArgument.handle [false] (oneArgument.record (.graph false)) 40 (by decide) = none := by
    decide
  refine ⟨by decide, hnone, fun h => ?_⟩
  obtain ⟨d, hd, -⟩ := h 40 (by decide)
  rw [hnone] at hd
  cases hd

end Bpfsnoop.Trace
