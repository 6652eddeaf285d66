/-
Bpfsnoop.Trace.AttrTheorems — the data of the output arguments comes back
from where it was written.

The reader goes from argument to argument by the sizes that the compiler
accounted. Behind a histogram or a t-digest it stays where it is, so what
follows is read from a wrong place; and it stops at the first data that
`DumpData` fails on.

What the reader goes by is the `Form` of an argument, which like its request
is read off the call and the type of the operand. `readData_outcome` says
what one round reads and where it goes, `Placed.reads_iff` what all of them
do. `attrs_iff` puts the two ends together: every argument is read from the
slot that its code writes exactly if the slots fit and the record is
`Readable`.
-/
import Bpfsnoop.CC.Variables
import Bpfsnoop.Trace.ArgAttrs
import Bpfsnoop.Trace.OutputSlots

namespace Bpfsnoop.Trace

open Lib Ebpf Btf Reg CC

/-! ## Sizes by kind -/

/-- The data of an argument has the size that the reader takes for granted. -/
structure SizedByKind (heap : Heap) (out : FuncArgumentOutput) : Prop where
  addr : out.type = .addr →
    ∃ n count, addrPieces.lookup out.addrType = some (n, count) ∧ count * n = out.trueDataSize.toNat
  port : out.type = .port →
    ∃ n count, portPieces.lookup out.portType = some (n, count) ∧ count * n = out.trueDataSize.toNat
  int : out.type = .int → intSizes.lookup out.intType = some out.trueDataSize
  slice : out.type = .slice → out.elemSize heap ≠ 0
  number : out.type = .default → out.isStr = false → out.trueDataSize = if out.isNumPtr then 16 else 8

theorem mem_of_lookup {β : Type} {l : List (String × β)} {name : String} {b : β} (h : l.lookup name = some b) :
    (name, b) ∈ l := by
  obtain ⟨l₁, l₂, rfl, -⟩ := List.lookup_eq_some_iff.mp h
  simp

theorem addrPieces_of_size {name : String} {size : Word} (h : addrSizes.lookup name = some size)
    (hport : ¬ (name = "port" ∨ name = "port2")) :
    ∃ n count, addrPieces.lookup name = some (n, count) ∧ count * n = size.toNat := by
  have hmem := mem_of_lookup h
  simp only [addrSizes, List.mem_cons, Prod.mk.injEq, List.not_mem_nil, or_false] at hmem
  rcases hmem with ⟨rfl, rfl⟩ | ⟨rfl, rfl⟩ | ⟨rfl, rfl⟩ | ⟨rfl, rfl⟩ | ⟨rfl, rfl⟩ | ⟨rfl, rfl⟩ | ⟨rfl, -⟩ |
    ⟨rfl, -⟩
  case inr.inr.inr.inr.inr.inr.inl => exact absurd (.inl rfl) hport
  case inr.inr.inr.inr.inr.inr.inr => exact absurd (.inr rfl) hport
  all_goals exact ⟨_, _, rfl, rfl⟩

theorem portPieces_of_size {name : String} {size : Word} (h : addrSizes.lookup name = some size)
    (hport : name = "port" ∨ name = "port2") :
    ∃ n count, portPieces.lookup name = some (n, count) ∧ count * n = size.toNat := by
  rcases hport with rfl | rfl <;> cases h <;> exact ⟨_, _, rfl, rfl⟩

/-- The size that the name of a function says is in the call. -/
theorem evaluating_named {e : Expr} {call : FuncCallValue} {fnName : String}
    (h : evaluating e = .ok (call, fnName)) : NamedSize fnName call := by
  unfold evaluating at h
  split at h
  · cases h
    exact .other (by simp)
  · split at h <;> cases h
    rename_i hcall
    obtain ⟨first, rest, -, hreads⟩ := compileFuncCall_reads hcall
    exact hreads.named
  · cases h
  · cases h
    exact .other (by simp)

/-- What `postCheckFuncCall` passes on of the call. -/
structure PassesOn (heap : Heap) (call : FuncCallValue) (val : EvalValue) (fnName : String) (res : EvalResult) :
    Prop where
  type : res.type = call.typ
  addr : res.addr = call.addr
  port : res.port = call.port
  int : call.typ = .int → res.int = fnName
  elem : call.typ = .deref ∨ call.typ = .slice → res.btf = pointee? (val.btf.map underlyingType)
  slice : call.typ = .slice → ∃ elem, res.btf = some elem ∧ sizeofD heap elem ≠ 0

theorem postCheck_passesOn {heap : Heap} {call : FuncCallValue} {val : EvalValue} {fnName : String} {res : EvalResult}
    (h : postCheckFuncCall heap (called call) val call.dataOffset call.dataSize fnName = .ok res) :
    PassesOn heap call val fnName res := by
  unfold postCheckFuncCall called at h
  dsimp only at h
  split at h
  · cases h
  cases htyp : call.typ <;> simp only [htyp] at h
  case deref =>
    split at h <;> try cases h
    rename_i target hunder
    split at h <;> cases h
    exact ⟨htyp.symm, rfl, rfl, by simp [htyp], fun _ => by rw [hunder]; rfl, by simp [htyp]⟩
  case slice =>
    split at h <;> try cases h
    rename_i elem helem
    split at h <;> cases h
    rename_i hsize
    refine ⟨htyp.symm, rfl, rfl, by simp [htyp], fun _ => helem.symm, fun _ => ⟨elem, rfl, ?_⟩⟩
    intro hz
    exact hsize (by rw [hz]; rfl)
  case int =>
    split at h <;> cases h
    exact ⟨htyp.symm, rfl, rfl, fun _ => rfl, by simp [htyp], by simp [htyp]⟩
  all_goals
    repeat' split at h
    all_goals cases h
    all_goals exact ⟨htyp.symm, rfl, rfl, by simp [htyp], by simp [htyp], by simp [htyp]⟩

section Kinds

variable {parseExpr : String → Except GoError Expr} {isConstCharPtr isCharArray : BtfType → Bool} {heap : Heap}
  {forceProbe : Bool} {params : List FuncParam} {krnl spec : Spec} {arg : FuncArgumentOutput} {label : String}
  {p : Placement} {next : Word}

theorem Compiled.sized
    (h : Compiled parseExpr isConstCharPtr isCharArray heap forceProbe params krnl spec arg label p next) :
    SizedByKind heap p.out := by
  obtain ⟨btf, hbtf, htype, hbytes, -⟩ := writeResult_served h.write
  obtain ⟨btf', size, gen, hbtf', -, -, hout, -⟩ := writeResult_ok _ _ _ h.write
  obtain rfl : btf' = btf := Option.some.inj (hbtf'.symm.trans hbtf)
  obtain ⟨c, e, call, fnName, v, val, g, checked, -, -, hcall, -, -, hcheck, hres⟩ := h.called
  have hnamed := evaluating_named hcall
  have hpass := postCheck_passesOn hcheck
  obtain ⟨t, ht, hserved⟩ := @postCheck_served isConstCharPtr isCharArray heap call val fnName checked btf'
    hcheck (by rw [← hbtf, hres])
  have hkind : p.out.type = call.typ := by rw [htype, hres, ← hpass.type]
  have hrequest : p.out.trueDataSize = (request isConstCharPtr isCharArray heap call t).bytes := by
    rw [hbytes, ← hserved, hres]
    rfl
  have haddr : p.out.addrType = call.addr := by rw [← hpass.addr, hout, FuncArgumentOutput.evaluated, hres]
  have hport : p.out.portType = call.port := by rw [← hpass.port, hout, FuncArgumentOutput.evaluated, hres]
  have hint : p.out.intType = checked.int := by rw [hout, FuncArgumentOutput.evaluated, hres]
  have hpt : p.out.t = some btf' := by rw [hout]; rfl
  constructor
  · intro htyp
    have hk : call.typ = .addr := hkind.symm.trans htyp
    obtain ⟨hname, hnot, hsize⟩ := hnamed.addr hk
    rw [haddr, hname, hrequest, request, hk]
    exact addrPieces_of_size hsize hnot
  · intro htyp
    have hk : call.typ = .port := hkind.symm.trans htyp
    obtain ⟨hname, hport', hsize⟩ := hnamed.port hk
    rw [hport, hname, hrequest, request, hk]
    exact portPieces_of_size hsize hport'
  · intro htyp
    have hk : call.typ = .int := hkind.symm.trans htyp
    rw [hint, hpass.int hk, hrequest, request, hk]
    exact hnamed.int hk
  · intro htyp
    obtain ⟨elem, helem, hsize⟩ := hpass.slice (hkind.symm.trans htyp)
    have hbtf'' : checked.btf = some btf' := by rw [← hbtf, hres]
    obtain rfl : elem = btf' := Option.some.inj (helem.symm.trans hbtf'')
    rw [FuncArgumentOutput.elemSize, hpt]
    exact hsize
  · intro htyp hstr
    exact h.number (.inl htyp) hstr

end Kinds

/-! ## What `DumpData` is given -/

/-- The bytes from a position on. -/
def bytesAt (buffer : Nat → Byte) (pos n : Nat) : List Byte := (List.range n).map fun i => buffer (pos + i)

/-- What the reader goes by: the kind of an argument, the type that
`DumpData` is called with, and the size of the data. -/
structure Form where
  type : EvalResultType := .default
  elem : Option BtfType := none
  bytes : Nat := 0
  deriving DecidableEq

/-- The form of a compiled argument. -/
def FuncArgumentOutput.form (arg : FuncArgumentOutput) : Form :=
  { type := arg.type
    elem := if arg.type = .deref ∨ arg.type = .slice then arg.t else none
    bytes := arg.trueDataSize.toNat }

section Readable

variable (heap : Heap) (dumpData : BtfType → List Byte → Except GoError String) (buffer : Nat → Byte)

def Form.elemSize (f : Form) : Nat := (f.elem.map (sizeofD heap)).getD 0

/-- The parts of the data that are dumped, for data at `pos`. -/
def Form.dumps (f : Form) (pos : Nat) : List (List Byte) :=
  match f.type with
  | .deref => [bytesAt buffer pos f.bytes]
  | .slice =>
    (List.range (f.bytes / f.elemSize heap)).map fun i =>
      bytesAt buffer (pos + i * f.elemSize heap) (f.elemSize heap)
  | _ => []

/-- `DumpData` takes the bytes. -/
def Form.Takes (f : Form) (b : List Byte) : Prop := ∀ t, f.elem = some t → (dumpData t b).isOk = true

/-- All of the data is read: it is whole elements, and only the last of them
may be one that `DumpData` fails on. -/
structure Form.Covered (f : Form) (pos : Nat) : Prop where
  whole : f.type = .slice → f.elemSize heap ∣ f.bytes
  dumps : ∀ b ∈ (f.dumps heap buffer pos).dropLast, f.Takes dumpData b

/-- The reader goes on behind the slot. -/
structure Form.MovesOn (f : Form) (pos : Nat) : Prop where
  hist : f.type ≠ .hist
  tdigest : f.type ≠ .tdigest
  dumps : ∀ b ∈ f.dumps heap buffer pos, f.Takes dumpData b

end Readable

/-! ## What is read of an argument -/

section Pieces

variable {use : Slice → Except GoError Unit} {behind : Except GoError Slice} {ss : List Slice}

/-- The pieces end with the one that cannot be used. -/
theorem readPieces_fst_iff :
    (readPieces use behind (ss.map some)).1 = ss ↔ ∀ s ∈ ss.dropLast, use s = .ok () := by
  induction ss with
  | nil => simp [readPieces]
  | cons s ss ih =>
    rw [List.map_cons, readPieces]
    cases hs : use s with
    | error e =>
      cases ss with
      | nil => simp
      | cons s' ss => simp [hs]
    | ok u =>
      cases ss with
      | nil => simp [readPieces]
      | cons s' ss => simpa [hs] using ih

theorem readPieces_initial : (readPieces use behind (ss.map some)).1 <+: ss := by
  induction ss with
  | nil => simp [readPieces]
  | cons s ss ih =>
    rw [List.map_cons, readPieces]
    cases hs : use s with
    | error e => simp
    | ok u => simpa using ih

theorem readPieces_snd (h : ∀ s ∈ ss, use s = .ok ()) : (readPieces use behind (ss.map some)).2 = behind := by
  induction ss with
  | nil => rfl
  | cons s ss ih =>
    obtain ⟨hs, hss⟩ := List.forall_mem_cons.mp h
    rw [List.map_cons, readPieces, hs]
    exact ih hss

theorem readPieces_error (h : ¬ ∀ s ∈ ss, use s = .ok ()) :
    ∃ e, (readPieces use behind (ss.map some)).2 = .error e := by
  induction ss with
  | nil => simp at h
  | cons s ss ih =>
    rw [List.map_cons, readPieces]
    cases hs : use s with
    | error e => exact ⟨e, rfl⟩
    | ok u => exact ih fun hss => h (List.forall_mem_cons.mpr ⟨hs, hss⟩)

theorem readPieces_printed : readPieces printed behind (ss.map some) = (ss, behind) := by
  have hall : ∀ s ∈ ss, printed s = .ok () := fun _ _ => rfl
  exact Prod.ext (readPieces_fst_iff.mpr fun s hs => rfl) (readPieces_snd hall)

end Pieces

section Elements

variable {data : Slice} {n count : Nat}

/-- The elements within a slice. -/
theorem elements_eq (h : count * n ≤ data.cap) :
    ∃ ss : List Slice, elements data n count = ss.map some ∧ (∀ s ∈ ss, s.len = n) ∧
      Adjoin data.start ss (data.start + count * n) ∧
      ∀ buffer, ss.map (content buffer) = (List.range count).map fun i => bytesAt buffer (data.start + i * n) n := by
  have hsub : ∀ i, i < count →
      ∃ s, data.sub (i * n) ((i + 1) * n) = some s ∧ s.start = data.start + i * n ∧ s.len = n := by
    intro i hi
    have hle : (i + 1) * n ≤ data.cap := (Nat.mul_le_mul_right n hi).trans h
    have hn : (i + 1) * n - i * n = n := by rw [Nat.succ_mul, Nat.add_sub_cancel_left]
    exact ⟨⟨data.start + i * n, (i + 1) * n - i * n, _, _⟩,
      dif_pos ⟨Nat.mul_le_mul_right n (Nat.le_succ i), hle⟩, rfl, hn⟩
  have : Nonempty Slice := ⟨data⟩
  choose! piece hpiece hstart hlen using hsub
  have hrange : ∀ i, i ∈ List.range count → i < count := fun i hi => List.mem_range.mp hi
  refine ⟨(List.range count).map piece, ?_, ?_, ?_, ?_⟩
  · rw [elements, List.map_map]
    exact List.map_congr_left fun i hi => hpiece i (hrange i hi)
  · intro s hs
    obtain ⟨i, hi, rfl⟩ := List.mem_map.mp hs
    exact hlen i (hrange i hi)
  · have hadj := @adjoin_range data.start n count 0 piece (fun i _ hi => hstart i (by omega))
      (fun i _ hi => hlen i (by omega))
    rw [Nat.zero_mul, Nat.zero_add, Nat.add_zero] at hadj
    rw [List.range_eq_range']
    exact hadj
  · intro buffer
    rw [List.map_map]
    refine List.map_congr_left fun i hi => ?_
    rw [Function.comp_apply, content, hstart i (hrange i hi), hlen i (hrange i hi)]
    rfl

end Elements

section Outcome

variable {heap : Heap} {dumpData : BtfType → List Byte → Except GoError String} {buffer : Nat → Byte}
  {arg : FuncArgumentOutput} {data behind : Slice} {r : List Slice × Except GoError Slice}

/-- What comes of a round without an exception: the pieces, and where the
next round starts. -/
structure Outcome (heap : Heap) (dumpData : BtfType → List Byte → Except GoError String) (buffer : Nat → Byte)
    (arg : FuncArgumentOutput) (data behind : Slice) (r : List Slice × Except GoError Slice) : Prop where
  covered : Adjoin data.start r.1 (data.start + arg.trueDataSize.toNat)
    ↔ arg.form.Covered heap dumpData buffer data.start
  movesOn : arg.form.MovesOn heap dumpData buffer data.start → r.2 = .ok behind
  stays : ¬ arg.form.MovesOn heap dumpData buffer data.start → r.2 = .ok data ∨ ∃ e, r.2 = .error e

/-- A kind of which nothing is dumped. -/
theorem covered_plain {f : Form} (hderef : f.type ≠ .deref) (hslice : f.type ≠ .slice) (pos : Nat) :
    f.Covered heap dumpData buffer pos := by
  refine ⟨fun h => absurd h hslice, ?_⟩
  unfold Form.dumps
  cases htype : f.type
  case deref => exact absurd htype hderef
  case slice => exact absurd htype hslice
  all_goals simp

theorem movesOn_plain {f : Form} (hderef : f.type ≠ .deref) (hslice : f.type ≠ .slice) (hhist : f.type ≠ .hist)
    (htdigest : f.type ≠ .tdigest) (pos : Nat) : f.MovesOn heap dumpData buffer pos := by
  refine ⟨hhist, htdigest, ?_⟩
  unfold Form.dumps
  cases htype : f.type
  case deref => exact absurd htype hderef
  case slice => exact absurd htype hslice
  all_goals simp

theorem Outcome.plain (hderef : arg.type ≠ .deref) (hslice : arg.type ≠ .slice) (hhist : arg.type ≠ .hist)
    (htdigest : arg.type ≠ .tdigest) {ss : List Slice}
    (hadj : Adjoin data.start ss (data.start + arg.trueDataSize.toNat)) :
    Outcome heap dumpData buffer arg data behind (ss, .ok behind) :=
  ⟨iff_of_true hadj (covered_plain hderef hslice _), fun _ => rfl,
    fun h => absurd (movesOn_plain hderef hslice hhist htdigest _) h⟩

/-- What is counted is read, but the reader stays. -/
theorem Outcome.counted (htype : arg.type = .hist ∨ arg.type = .tdigest) {use : Slice → Except GoError Unit}
    (hcap : arg.trueDataSize.toNat ≤ data.cap) :
    Outcome heap dumpData buffer arg data behind
      (readPieces use (.ok data) [data.upTo arg.trueDataSize.toNat]) := by
  have hupTo : data.upTo arg.trueDataSize.toNat = some ⟨data.start, arg.trueDataSize.toNat, data.cap, hcap⟩ :=
    dif_pos hcap
  have hplain : arg.type ≠ .deref ∧ arg.type ≠ .slice := by rcases htype with h | h <;> simp [h]
  rw [hupTo]
  refine ⟨?_, ?_, fun _ => ?_⟩
  · refine iff_of_true ?_ (covered_plain hplain.1 hplain.2 _)
    have hone := (@readPieces_fst_iff use (.ok data)
      [⟨data.start, arg.trueDataSize.toNat, data.cap, hcap⟩]).mpr (by simp)
    rw [List.map_singleton] at hone
    rw [hone]
    exact adjoin_singleton.mpr ⟨rfl, rfl⟩
  · rintro ⟨hhist, htdigest, -⟩
    exact absurd htype (not_or.mpr ⟨hhist, htdigest⟩)
  · by_cases hall : ∀ s ∈ [(⟨data.start, arg.trueDataSize.toNat, data.cap, hcap⟩ : Slice)], use s = .ok ()
    · exact .inl (readPieces_snd hall)
    · exact .inr (readPieces_error hall)

/-- `DumpData` takes a piece. -/
theorem dumped_ok {what : String} {piece : Slice} (htype : arg.type = .deref ∨ arg.type = .slice) :
    dumped dumpData buffer arg what piece = .ok () ↔ arg.form.Takes dumpData (content buffer piece) := by
  have helem : arg.form.elem = arg.t := if_pos htype
  unfold dumped Form.Takes
  rw [helem]
  cases arg.t with
  | none => simp
  | some t =>
    cases hdump : dumpData t (content buffer piece) with
    | error e => simp [hdump, Except.isOk, Except.toBool]
    | ok text => simp [hdump, Except.isOk, Except.toBool]

/-- Of the dumped pieces the first bad one is the last. -/
theorem Outcome.dumped {what : String} {ss : List Slice} {hi : Nat}
    (htype : arg.type = .deref ∨ arg.type = .slice)
    (hdumps : ss.map (content buffer) = arg.form.dumps heap buffer data.start)
    (hadj : Adjoin data.start ss hi) (hle : hi ≤ data.start + arg.trueDataSize.toNat)
    (hwhole : hi = data.start + arg.trueDataSize.toNat ↔
      (arg.type = .slice → arg.form.elemSize heap ∣ arg.form.bytes))
    (hall : ∀ pieces, pieces = (readPieces (Trace.dumped dumpData buffer arg what) (.ok behind) (ss.map some)).1 →
      Adjoin data.start pieces hi → pieces = ss) :
    Outcome heap dumpData buffer arg data behind
      (readPieces (Trace.dumped dumpData buffer arg what) (.ok behind) (ss.map some)) := by
  have htakes (ss : List Slice) : (∀ s ∈ ss, Trace.dumped dumpData buffer arg what s = .ok ()) ↔
      ∀ b ∈ ss.map (content buffer), arg.form.Takes dumpData b := by
    rw [List.forall_mem_map]
    exact forall₂_congr fun s _ => dumped_ok htype
  have hplain : arg.type ≠ .hist ∧ arg.type ≠ .tdigest := by rcases htype with h | h <;> simp [h]
  refine ⟨?_, ?_, ?_⟩
  · constructor
    · intro h
      have hpre := @readPieces_initial (Trace.dumped dumpData buffer arg what) (.ok behind) ss
      have hend := Nat.le_antisymm hle (Adjoin.le_of_initial hpre h hadj)
      refine ⟨hwhole.mp hend, ?_⟩
      rw [← hdumps, ← List.map_dropLast, ← htakes]
      exact readPieces_fst_iff.mp (hall _ rfl (hend ▸ h))
    · rintro ⟨hdvd, hok⟩
      rw [← hdumps, ← List.map_dropLast, ← htakes] at hok
      rw [readPieces_fst_iff.mpr hok, ← hwhole.mpr hdvd]
      exact hadj
  · rintro ⟨-, -, hok⟩
    rw [← hdumps, ← htakes] at hok
    exact readPieces_snd hok
  · intro h
    refine .inr (readPieces_error fun hok => h ⟨hplain.1, hplain.2, ?_⟩)
    rw [← hdumps, ← htakes]
    exact hok

theorem Outcome.deref {what : String} (htype : arg.type = .deref) (hcap : arg.trueDataSize.toNat ≤ data.cap) :
    Outcome heap dumpData buffer arg data behind
      (readPieces (Trace.dumped dumpData buffer arg what) (.ok behind) [data.upTo arg.trueDataSize.toNat]) := by
  have hupTo : data.upTo arg.trueDataSize.toNat = some ⟨data.start, arg.trueDataSize.toNat, data.cap, hcap⟩ :=
    dif_pos hcap
  have hform : arg.form.type = .deref := htype
  rw [hupTo, ← List.map_singleton]
  refine .dumped (.inl htype) ?_ (adjoin_singleton.mpr ⟨rfl, rfl⟩) (Nat.le_refl _) ?_ ?_
  · rw [Form.dumps, hform]
    rfl
  · refine iff_of_true rfl fun hslice => ?_
    rw [htype] at hslice
    cases hslice
  · rintro pieces rfl -
    exact readPieces_fst_iff.mpr (by simp)

theorem Outcome.slice {what : String} (htype : arg.type = .slice) (hsize : arg.elemSize heap ≠ 0)
    (hcap : arg.trueDataSize.toNat ≤ data.cap) :
    Outcome heap dumpData buffer arg data behind
      (readPieces (Trace.dumped dumpData buffer arg what) (.ok behind)
        (elements data (arg.elemSize heap) (arg.trueDataSize.toNat / arg.elemSize heap))) := by
  have hform : arg.form.type = .slice := htype
  have helem : arg.form.elemSize heap = arg.elemSize heap := by
    rw [Form.elemSize, FuncArgumentOutput.elemSize, FuncArgumentOutput.form, if_pos (.inr htype)]
  have hdiv := Nat.div_mul_le_self arg.trueDataSize.toNat (arg.elemSize heap)
  obtain ⟨ss, hss, hlen, hadj, hcontent⟩ := elements_eq (hdiv.trans hcap)
  rw [hss]
  refine .dumped (.inr htype) ?_ hadj (Nat.add_le_add_left hdiv _) ?_ ?_
  · rw [hcontent, Form.dumps, hform, helem]
    rfl
  · rw [Nat.add_left_cancel_iff, helem]
    constructor
    · intro h _
      exact ⟨_, (Nat.mul_comm _ _).symm ▸ h.symm⟩
    · intro h
      exact Nat.div_mul_cancel (h htype)
  · rintro pieces rfl h
    refine Adjoin.eq_of_initial readPieces_initial h hadj fun s hs => ?_
    rw [hlen s hs]
    exact Nat.pos_of_ne_zero hsize

theorem readDefault_outcome (htype : arg.type = .default) (hsized : SizedByKind heap arg)
    (hlen : arg.trueDataSize.toNat + 1 ≤ data.len) (hbehind : data.after (arg.trueDataSize.toNat + 1) = some behind) :
    Outcome heap dumpData buffer arg data behind (readDefault arg data) := by
  have hplain {ss : List Slice} (hadj : Adjoin data.start ss (data.start + arg.trueDataSize.toNat)) :
      Outcome heap dumpData buffer arg data behind (ss, .ok behind) :=
    .plain (by simp [htype]) (by simp [htype]) (by simp [htype]) (by simp [htype]) hadj
  unfold readDefault
  by_cases hstr : arg.isStr = true
  · obtain ⟨str, rest, hcut, hstart, hstrLen, -, -⟩ := data.exists_cut (Nat.le_of_succ_le hlen)
    rw [if_pos hstr, hcut]
    dsimp only
    rw [Slice.after_after (Slice.cut_eq_some.mp hcut).2, hbehind]
    exact hplain (adjoin_singleton.mpr ⟨hstart, by rw [hstrLen]⟩)
  · have hnumber := hsized.number htype (by simpa using hstr)
    rw [if_neg hstr]
    by_cases hptr : arg.isNumPtr = true
    · rw [if_pos hptr] at hnumber
      have h16 : arg.trueDataSize.toNat = 16 := by rw [hnumber]; rfl
      rw [h16] at hlen hbehind hplain
      obtain ⟨argVal, rest, hcut, hstart, hn, hrest, -⟩ := @Slice.exists_cut data 8 (by omega)
      have hrestLen := (Slice.after_eq_some.mp (Slice.cut_eq_some.mp hcut).2).2.2.1
      obtain ⟨argVal2, rest2, hcut2, hstart2, hn2, -, -⟩ := @Slice.exists_cut rest 8 (by omega)
      rw [hcut]
      dsimp only
      rw [if_pos hptr, hcut2]
      dsimp only
      rw [Slice.after_after (Slice.cut_eq_some.mp hcut2).2, Slice.after_after (Slice.cut_eq_some.mp hcut).2, hbehind]
      refine hplain ⟨hstart, ?_, ?_⟩
      · rw [hstart2, hrest, hn]
      · show data.start + argVal.len + argVal2.len = data.start + 16
        omega
    · rw [if_neg hptr] at hnumber
      have h8 : arg.trueDataSize.toNat = 8 := by rw [hnumber]; rfl
      rw [h8] at hlen hbehind hplain
      obtain ⟨argVal, rest, hcut, hstart, hn, -, -⟩ := @Slice.exists_cut data 8 (by omega)
      rw [hcut]
      dsimp only
      rw [if_neg hptr, Slice.after_after (Slice.cut_eq_some.mp hcut).2, hbehind]
      exact hplain (adjoin_singleton.mpr ⟨hstart, by rw [hn]⟩)

theorem readData_outcome (hsized : SizedByKind heap arg) (hsmall : arg.trueDataSize.toNat < 2 ^ 15)
    (hsize : arg.size.toNat = arg.trueDataSize.toNat + 1) (hlen : arg.size.toNat ≤ data.len)
    (hbehind : data.after arg.size.toNat = some behind) :
    Outcome heap dumpData buffer arg data behind (readData heap dumpData buffer arg data) := by
  have hcap : arg.trueDataSize.toNat ≤ data.cap := by
    have hle := data.le
    omega
  -- a table of sizes
  have hpieces {n count : Nat} (hn : count * n = arg.trueDataSize.toNat)
      (hplain : arg.type ≠ .deref ∧ arg.type ≠ .slice ∧ arg.type ≠ .hist ∧ arg.type ≠ .tdigest) :
      Outcome heap dumpData buffer arg data behind (readPieces printed (.ok behind) (elements data n count)) := by
    obtain ⟨ss, hss, -, hadj, -⟩ := elements_eq (hn ▸ hcap)
    rw [hss, readPieces_printed]
    exact .plain hplain.1 hplain.2.1 hplain.2.2.1 hplain.2.2.2 (hn ▸ hadj)
  have hone (hplain : arg.type ≠ .deref ∧ arg.type ≠ .slice ∧ arg.type ≠ .hist ∧ arg.type ≠ .tdigest) :
      Outcome heap dumpData buffer arg data behind
        (readPieces printed (.ok behind) [data.upTo arg.trueDataSize.toNat]) := by
    rw [show data.upTo arg.trueDataSize.toNat = some ⟨data.start, arg.trueDataSize.toNat, data.cap, hcap⟩ from
      dif_pos hcap, ← List.map_singleton, readPieces_printed]
    exact .plain hplain.1 hplain.2.1 hplain.2.2.1 hplain.2.2.2 (adjoin_singleton.mpr ⟨rfl, rfl⟩)
  unfold readData
  rw [hbehind]
  dsimp only [orPanic]
  cases htype : arg.type
  case default => exact readDefault_outcome htype hsized (hsize ▸ hlen) (hsize ▸ hbehind)
  case deref => exact .deref htype hcap
  case hist => exact .counted (.inl htype) hcap
  case tdigest => exact .counted (.inr htype) hcap
  case slice =>
    have hne := hsized.slice htype
    have hcount : (arg.trueDataSize.toInt.tdiv (arg.elemSize heap)).toNat
        = arg.trueDataSize.toNat / arg.elemSize heap := by
      rw [toInt_small (Nat.le_of_lt hsmall), ← Int.ofNat_tdiv, Int.toNat_natCast]
    dsimp only
    rw [if_neg hne, hcount]
    exact .slice htype hne hcap
  case addr =>
    obtain ⟨n, count, hlookup, hn⟩ := hsized.addr htype
    dsimp only
    rw [hlookup]
    exact hpieces hn (by simp [htype])
  case port =>
    obtain ⟨n, count, hlookup, hn⟩ := hsized.port htype
    dsimp only
    rw [hlookup]
    exact hpieces hn (by simp [htype])
  case int =>
    dsimp only
    rw [hsized.int htype]
    exact hone (by simp [htype])
  all_goals exact hone (by simp [htype])

end Outcome

/-! ## The forms of the arguments -/

section Ask

variable (parseExpr : String → Except GoError Expr) (isConstCharPtr isCharArray : BtfType → Bool)
  (heap : Heap) (forceProbeReadKernel : Bool) (params : List FuncParam) (krnl spec : Spec)

/-- The form that a call has, of an operand of type `t`. -/
def form (call : FuncCallValue) (t : BtfType) : Form :=
  { type := call.typ
    elem := if call.typ = .deref ∨ call.typ = .slice then pointee? (some (underlyingType t)) else none
    bytes := (request isConstCharPtr isCharArray heap call t).bytes.toNat }

/-- The form of an argument: its call, and the type of the operand. -/
def formOf (arg : FuncArgumentOutput) (labelExit : String) : Form :=
  match newCompiler (arg.options heap forceProbeReadKernel params krnl spec false labelExit), parseExpr arg.expr with
  | .ok c, .ok e =>
    match evaluating e with
    | .ok (call, _) =>
      match kind c call.expr with
      | .ok v => (v.btf.map (form isConstCharPtr isCharArray heap call)).getD {}
      | .error _ => {}
    | .error _ => {}
  | _, _ => {}

/-- The forms of the arguments that the function has. -/
def forms (labelCnt : Nat) : List FuncArgumentOutput → List Form
  | [] => []
  | a :: rest =>
    if !a.matches params then forms labelCnt rest
    else
      formOf parseExpr isConstCharPtr isCharArray heap forceProbeReadKernel params krnl spec a (genExitLabel labelCnt)
        :: forms (labelCnt + 1) rest

end Ask

section Record

variable (heap : Heap) (dumpData : BtfType → List Byte → Except GoError String) (buffer : Nat → Byte)

/-- The reader gets through a record: where no exception is marked it reads
all of the data, and unless it was the last argument it goes on behind. -/
def Readable : Nat → List Form → Prop
  | _, [] => True
  | pos, f :: rest =>
    (buffer (pos + f.bytes) = 0 →
      f.Covered heap dumpData buffer pos ∧ (rest ≠ [] → f.MovesOn heap dumpData buffer pos)) ∧
    Readable (pos + f.bytes + 1) rest

/-- An argument of a record that starts at `base` is read from its slot: the
exception byte is the last one, the data what is before. -/
structure ReadsSlot (base : Nat) (p : Placement) (r : Reading) : Prop where
  exception : (r.exceptionAt : ℤ) = base + p.slot.1 + p.slot.2 - 1
  data : buffer r.exceptionAt = 0 → Adjoin (base + p.offset.toNat) r.pieces r.exceptionAt
  null : buffer r.exceptionAt ≠ 0 → r.pieces = []

/-- Every argument is read from the slot that its code writes, and the slots
lie one behind the other. -/
structure RoundTrip (krnl : Spec) (base : Nat) (ps : List Placement) (total : Word) (readings : List Reading) :
    Prop where
  contiguous : Lib.Tiles 0 (ps.map Placement.slot) total.toInt
  exact16 : ∀ p ∈ ps, ∀ x ∈ p.displacements, (int16 x).signExtend 64 = x
  writes : ∀ p ∈ ps, ∀ K : Kernel,
    (∀ id fastcall, findRdonlyCast krnl = .ok (id, fastcall) → K.fastcall = fastcall) →
    ∀ s, ClearOfFrame s p.offset p.out.size.toNat →
      ∃ s', exec K p.out.insn .run s = .cont .run s' ∧ WritesSlot K p.out p.offset s s'
  reads : List.Forall₂ (ReadsSlot buffer base) ps readings

end Record

section Run

variable {parseExpr : String → Except GoError Expr} {isConstCharPtr isCharArray : BtfType → Bool} {heap : Heap}
  {forceProbe : Bool} {params : List FuncParam} {krnl spec : Spec} {arg : FuncArgumentOutput}
  {args outs : List FuncArgumentOutput} {label : String} {p : Placement} {ps : List Placement}
  {offset next total : Word} {labelCnt cnt base : Nat} {data behind : Slice}
  {dumpData : BtfType → List Byte → Except GoError String} {buffer : Nat → Byte}

/-- The form of a compiled argument is that of its call. -/
theorem Compiled.form_eq
    (h : Compiled parseExpr isConstCharPtr isCharArray heap forceProbe params krnl spec arg label p next) :
    formOf parseExpr isConstCharPtr isCharArray heap forceProbe params krnl spec arg label = p.out.form := by
  obtain ⟨btf, hbtf, htype, hbytes, -⟩ := writeResult_served h.write
  obtain ⟨btf', size, gen, hbtf', -, -, hout, -⟩ := writeResult_ok _ _ _ h.write
  obtain rfl : btf' = btf := Option.some.inj (hbtf'.symm.trans hbtf)
  obtain ⟨c, e, call, fnName, v, val, g, checked, hc, hparse, hcall, hkind, hvbtf, hcheck, hres⟩ := h.called
  have hpass := postCheck_passesOn hcheck
  have hbtf'' : checked.btf = some btf' := by rw [← hbtf, hres]
  obtain ⟨t, ht, hserved⟩ := @postCheck_served isConstCharPtr isCharArray heap call val fnName checked btf'
    hcheck hbtf''
  have hcallType : p.out.type = call.typ := by rw [htype, hres, ← hpass.type]
  have hrequest : p.out.trueDataSize = (request isConstCharPtr isCharArray heap call t).bytes := by
    rw [hbytes, ← hserved, hres]
    rfl
  have hpt : p.out.t = checked.btf := by rw [hbtf'', hout]; rfl
  unfold formOf
  simp only [hc, hparse, hcall, hkind, hvbtf, ht, Option.map_some, Option.getD_some]
  rw [form, FuncArgumentOutput.form, hcallType, hrequest, hpt]
  congr 1
  split
  · rename_i hdump
    rw [hpass.elem hdump, ht, Option.map_some]
  · rfl

theorem Placed.forms_eq
    (h : Placed parseExpr isConstCharPtr isCharArray heap forceProbe params krnl spec labelCnt offset args ps total) :
    forms parseExpr isConstCharPtr isCharArray heap forceProbe params krnl spec labelCnt args
      = ps.map fun p => p.out.form := by
  induction h with
  | nil => rfl
  | skip hmatch _ ih =>
    rw [forms, if_pos (by simpa using hmatch)]
    exact ih
  | place p hmatch hcompiled _ ih =>
    rw [forms, if_neg (by simpa using hmatch), hcompiled.form_eq, ih]
    rfl

/-- The first argument is placed at the offset. -/
theorem Placed.head
    (h : Placed parseExpr isConstCharPtr isCharArray heap forceProbe params krnl spec labelCnt offset args (p :: ps)
      total) : p.offset = offset := by
  generalize hps : p :: ps = qs at h
  induction h with
  | nil => cases hps
  | skip _ _ ih => exact ih hps
  | place q _ _ _ _ =>
    cases hps
    rfl

/-- The data ends behind the last slot. -/
theorem Placed.total_eq
    (h : Placed parseExpr isConstCharPtr isCharArray heap forceProbe params krnl spec labelCnt offset args ps total)
    (hfit : offset.toNat + (ps.map fun p => p.out.trueDataSize.toNat + 1).sum ≤ 2 ^ 15) :
    total.toNat = offset.toNat + (ps.map fun p => p.out.trueDataSize.toNat + 1).sum := by
  induction h with
  | nil => rfl
  | skip _ _ ih => exact ih hfit
  | place p _ hcompiled _ ih =>
    rw [List.map_cons, List.sum_cons] at hfit ⊢
    obtain ⟨hsize, hnext⟩ := hcompiled.slot (by omega)
    rw [ih (by omega), hnext, hsize, Nat.add_assoc]

/-! ### One round -/

section Round

variable (h : Compiled parseExpr isConstCharPtr isCharArray heap forceProbe params krnl spec arg label p next)
  (hfit : p.offset.toNat + (p.out.trueDataSize.toNat + 1) ≤ 2 ^ 15)
include h

/-- Where the exception byte is read. -/
theorem Compiled.index_eq {i : Nat} (hindex : index data (p.out.size - 1) = .ok i) :
    i = data.start + p.out.trueDataSize.toNat := by
  rw [h.ends.1, add_sub_cancel_right] at hindex
  unfold index at hindex
  split at hindex
  · cases hindex
    rfl
  · cases hindex

include hfit

theorem Compiled.readsSlot_iff {pieces : List Slice} {i : Nat}
    (hi : i = base + p.offset.toNat + p.out.trueDataSize.toNat) :
    ReadsSlot buffer base p ⟨i, pieces⟩ ↔
      (buffer i = 0 → Adjoin (base + p.offset.toNat) pieces i) ∧ (buffer i ≠ 0 → pieces = []) := by
  obtain ⟨hsize, -⟩ := h.slot hfit
  constructor
  · rintro ⟨-, hdata, hnull⟩
    exact ⟨hdata, hnull⟩
  · rintro ⟨hdata, hnull⟩
    refine ⟨?_, hdata, hnull⟩
    show (i : ℤ) = base + p.offset.toInt + p.out.size.toInt - 1
    rw [toInt_small (by omega), toInt_small (by omega)]
    omega

/-- A round reads the exception byte at the end of the slot, and the data
where there was no exception. -/
theorem Compiled.readArg_eq (hlen : p.out.size.toNat ≤ data.len) :
    ∃ behind, data.after p.out.size.toNat = some behind ∧
      behind.start = data.start + p.out.size.toNat ∧ behind.len = data.len - p.out.size.toNat ∧
      readArg heap dumpData buffer p.out data =
        .ok (if buffer (data.start + p.out.trueDataSize.toNat) ≠ 0 then
            (⟨data.start + p.out.trueDataSize.toNat, []⟩, .ok behind)
          else
            (⟨data.start + p.out.trueDataSize.toNat, (readData heap dumpData buffer p.out data).1⟩,
              (readData heap dumpData buffer p.out data).2)) := by
  obtain ⟨hsize, -⟩ := h.slot hfit
  obtain ⟨behind, hbehind, hstart, hrest⟩ := data.exists_after hlen
  refine ⟨behind, hbehind, hstart, hrest, ?_⟩
  have hindex : index data (p.out.size - 1) = .ok (data.start + p.out.trueDataSize.toNat) := by
    rw [h.ends.1, add_sub_cancel_right]
    exact if_pos (by omega)
  unfold readArg
  rw [hindex]
  simp only [bind, Except.bind, pure, Except.pure, hbehind, orPanic]
  split <;> rfl

end Round

/-! ### All rounds -/

/-- From a slice too early the next argument is not read from its slot. -/
theorem Placed.early
    (h : Placed parseExpr isConstCharPtr isCharArray heap forceProbe params krnl spec labelCnt offset args ps total)
    (hfit : offset.toNat + (ps.map fun p => p.out.trueDataSize.toNat + 1).sum ≤ 2 ^ 15)
    (hstart : data.start < base + offset.toNat)
    (hreads : List.Forall₂ (ReadsSlot buffer base) ps
      (outputFuncArgAttrs heap dumpData buffer (ps.map (·.out)) data).1) : ps = [] := by
  cases ps with
  | nil => rfl
  | cons q qs =>
    exfalso
    obtain ⟨a, label, next, hcompiled⟩ := h.compiled q List.mem_cons_self
    rw [List.map_cons, List.sum_cons, ← h.head] at hfit
    rw [← h.head] at hstart
    obtain ⟨hsize, -⟩ := hcompiled.slot (by omega)
    rw [List.map_cons, outputFuncArgAttrs] at hreads
    -- the place of the first exception byte
    have hplace {r : Reading} (hread : ReadsSlot buffer base q r)
        (hr : r.exceptionAt = data.start + q.out.trueDataSize.toNat) : False := by
      have hexc : (r.exceptionAt : ℤ) = base + q.offset.toInt + q.out.size.toInt - 1 := hread.exception
      rw [toInt_small (by omega), toInt_small (by omega)] at hexc
      omega
    have hround {r : Reading} {after : Except GoError Slice}
        (hread : readArg heap dumpData buffer q.out data = .ok (r, after)) :
        r.exceptionAt = data.start + q.out.trueDataSize.toNat := by
      unfold readArg at hread
      cases hindex : index data (q.out.size - 1) with
      | error e =>
        rw [hindex] at hread
        cases hread
      | ok i =>
        rw [hindex] at hread
        simp only [bind, Except.bind, pure, Except.pure] at hread
        split at hread <;> cases hread <;> exact hcompiled.index_eq hindex
    split at hreads
    · cases hreads
    · rename_i hread
      obtain ⟨hslot, -⟩ := List.forall₂_cons.mp hreads
      exact hplace hslot (hround hread)
    · rename_i hread
      obtain ⟨hslot, -⟩ := List.forall₂_cons.mp hreads
      exact hplace hslot (hround hread)

/-- **The rounds of the reader**, over slots that fit. -/
theorem Placed.reads_iff
    (h : Placed parseExpr isConstCharPtr isCharArray heap forceProbe params krnl spec labelCnt offset args ps total)
    (hfit : offset.toNat + (ps.map fun p => p.out.trueDataSize.toNat + 1).sum ≤ 2 ^ 15)
    (hstart : data.start = base + offset.toNat) (hlen : offset.toNat + data.len = total.toNat) :
    List.Forall₂ (ReadsSlot buffer base) ps (outputFuncArgAttrs heap dumpData buffer (ps.map (·.out)) data).1 ↔
      Readable heap dumpData buffer data.start (ps.map fun p => p.out.form) := by
  induction h generalizing data with
  | nil => exact iff_of_true .nil trivial
  | skip _ _ ih => exact ih hfit hstart hlen
  | @place _ next total a args ps p _ hcompiled hrest ih =>
    have htotal := Placed.total_eq (.place p ‹_› hcompiled hrest) hfit
    rw [List.map_cons, List.sum_cons] at hfit htotal
    have hslot : p.offset.toNat + (p.out.trueDataSize.toNat + 1) ≤ 2 ^ 15 := by omega
    obtain ⟨hsize, hnext⟩ := hcompiled.slot hslot
    obtain ⟨behind, hafter, hbehind, hbehindLen, hround⟩ :=
      @Compiled.readArg_eq _ _ _ _ _ _ _ _ _ _ _ _ data dumpData buffer hcompiled hslot (by omega)
    have hbehindStart : behind.start = data.start + p.out.trueDataSize.toNat + 1 := by omega
    have hih := @ih behind (by omega) (by omega) (by omega)
    have hi : data.start + p.out.trueDataSize.toNat = base + p.offset.toNat + p.out.trueDataSize.toNat := by omega
    rw [hbehindStart] at hih
    rw [List.map_cons, List.map_cons, outputFuncArgAttrs, hround, Readable]
    by_cases hexc : buffer (data.start + p.out.trueDataSize.toNat) = 0
    · rw [if_neg (not_not.mpr hexc)]
      have houtcome := @readData_outcome heap dumpData buffer p.out data behind hcompiled.sized (by omega) hsize
        (by omega) hafter
      have hhead : ReadsSlot buffer base p
          ⟨data.start + p.out.trueDataSize.toNat, (readData heap dumpData buffer p.out data).1⟩ ↔
            p.out.form.Covered heap dumpData buffer data.start := by
        rw [hcompiled.readsSlot_iff hslot hi, ← houtcome.covered, ← hstart]
        exact ⟨fun hread => hread.1 hexc, fun hread => ⟨fun _ => hread, fun hne => absurd hexc hne⟩⟩
      by_cases hmoves : p.out.form.MovesOn heap dumpData buffer data.start
      · rw [houtcome.movesOn hmoves]
        dsimp only
        rw [List.forall₂_cons, hih, hhead]
        exact ⟨fun hr => ⟨fun _ => ⟨hr.1, fun _ => hmoves⟩, hr.2⟩, fun hr => ⟨(hr.1 hexc).1, hr.2⟩⟩
      · -- the reader stays or stops, so this has to be the last argument
        have hlast : List.Forall₂ (ReadsSlot buffer base) (p :: ps)
            (outputFuncArgAttrs heap dumpData buffer (p.out :: ps.map (·.out)) data).1 ↔
              p.out.form.Covered heap dumpData buffer data.start ∧ ps = [] := by
          rw [outputFuncArgAttrs, hround, if_neg (not_not.mpr hexc)]
          rcases houtcome.stays hmoves with hstays | ⟨e, herror⟩
          · rw [hstays]
            dsimp only
            rw [List.forall₂_cons, hhead, and_congr_right_iff]
            intro _
            constructor
            · exact hrest.early (by omega) (by omega)
            · rintro rfl
              exact .nil
          · rw [herror]
            dsimp only
            rw [List.forall₂_cons, hhead, List.forall₂_nil_right_iff]
        rw [outputFuncArgAttrs, hround, if_neg (not_not.mpr hexc)] at hlast
        rw [hlast]
        constructor
        · rintro ⟨hcovered, rfl⟩
          exact ⟨fun _ => ⟨hcovered, fun hne => absurd rfl hne⟩, trivial⟩
        · rintro ⟨hr, -⟩
          refine ⟨(hr hexc).1, ?_⟩
          by_contra hne
          exact hmoves ((hr hexc).2 (by simpa using hne))
    · rw [if_pos hexc]
      have hhead : ReadsSlot buffer base p ⟨data.start + p.out.trueDataSize.toNat, []⟩ :=
        (hcompiled.readsSlot_iff hslot hi).mpr ⟨fun h0 => absurd h0 hexc, fun _ => rfl⟩
      dsimp only
      rw [List.forall₂_cons, hih]
      exact ⟨fun hr => ⟨fun h0 => absurd h0 hexc, hr.2⟩, fun hr => ⟨hhead, hr.2⟩⟩

/-- **The data of the output arguments, written and read.** Whatever
arguments are accepted, each is read from the slot that its code writes if
and only if the slots fit 32768 bytes and the reader gets through the
record. -/
theorem attrs_iff
    (h : matchParams parseExpr isConstCharPtr isCharArray heap forceProbe params krnl spec 0 0 args
      = .ok (outs, total, cnt)) :
    ∃ ps, Placed parseExpr isConstCharPtr isCharArray heap forceProbe params krnl spec 0 0 args ps total ∧
      ps.map (·.out) = outs ∧
      ∀ (dumpData : BtfType → List Byte → Except GoError String) (buffer : Nat → Byte) (data : Slice),
        data.len = total.toNat →
        (RoundTrip buffer krnl data.start ps total (outputFuncArgAttrs heap dumpData buffer outs data).1 ↔
          let fs := forms parseExpr isConstCharPtr isCharArray heap forceProbe params krnl spec 0 args
          (fs.map fun f => f.bytes + 1).sum ≤ 2 ^ 15 ∧ Readable heap dumpData buffer data.start fs) := by
  obtain ⟨ps, hplaced, rfl⟩ := matchParams_placed h
  refine ⟨ps, hplaced, rfl, fun dumpData buffer data hlen => ?_⟩
  have h0 : (0 : Word).toNat = 0 := rfl
  have hz : (0 : Word).toInt = 0 := by decide
  dsimp only
  rw [hplaced.forms_eq, List.map_map]
  constructor
  · intro hround
    have hfit := hplaced.fits_bytes hround.contiguous hround.exact16
    exact ⟨hfit, (hplaced.reads_iff (by omega) rfl (by omega)).mp hround.reads⟩
  · rintro ⟨hfit, hreads⟩
    obtain ⟨htiles, hslots⟩ := hplaced.tiles (by rw [h0, Nat.zero_add]; exact hfit)
    refine ⟨?_, ?_, ?_, ?_⟩
    · rw [← hz]
      exact htiles
    · intro p hp
      obtain ⟨a, label, next, hcompiled⟩ := hplaced.compiled p hp
      exact hcompiled.exact16 (hslots p hp)
    · exact hplaced.writes hslots
    · refine (hplaced.reads_iff ?_ rfl (by omega)).mpr hreads
      rw [h0, Nat.zero_add]
      exact hfit

end Run

/-! ### A histogram and what is behind it -/

/-- `hist(x)`. -/
def histArg : FuncArgumentOutput := { expr := "hist(x)", vars := ["hist", "x"] }

/-- `x`. -/
def plainArg : FuncArgumentOutput := { expr := "x", vars := ["x"] }

/-- The parser on them. -/
def parseCounted : String → Except GoError Expr :=
  fun s => .ok (if s = "hist(x)" then .call (.name "hist") [.name "x"] else .name "x")

/-- The parameter `long x`. -/
def longParam : List FuncParam := [⟨"x", .int "long" 8 .signed⟩]

/-- The arguments of a function of `long x`, compiled. -/
def counted (args : List FuncArgumentOutput) : Except GoError (List FuncArgumentOutput × Word × Nat) :=
  matchParams parseCounted (fun _ => false) (fun _ => false) plainHeap true longParam plainSpec plainSpec 0 0 args

def countedForms (args : List FuncArgumentOutput) : List Form :=
  forms parseCounted (fun _ => false) (fun _ => false) plainHeap true longParam plainSpec plainSpec 0 args

/-- A record of two numbers, the first 5, without exceptions. -/
def fiveAndZero (i : Nat) : Byte := if i = 0 then 5 else 0

/-- `DumpData` of nothing. -/
def dumpNothing (_ : BtfType) (_ : List Byte) : Except GoError String := .ok ""

/-- The data of the two arguments. -/
def twoSlots : Slice := ⟨0, 18, 18, Nat.le_refl _⟩

/-- What is behind `hist(x)` is not read from its slot. -/
theorem behind_hist_misread : ∃ outs total cnt ps, counted [histArg, plainArg] = .ok (outs, total, cnt) ∧
    Placed parseCounted (fun _ => false) (fun _ => false) plainHeap true longParam plainSpec plainSpec 0 0
      [histArg, plainArg] ps total ∧
    ps.map (·.out) = outs ∧ twoSlots.len = total.toNat ∧
    ¬ RoundTrip fiveAndZero plainSpec 0 ps total
      (outputFuncArgAttrs plainHeap dumpNothing fiveAndZero outs twoSlots).1 := by
  have hok : (counted [histArg, plainArg]).map (fun q => q.2.1) = .ok 18 := by rfl
  have hforms : countedForms [histArg, plainArg] = [⟨.hist, none, 8⟩, ⟨.default, none, 8⟩] := by rfl
  cases h : counted [histArg, plainArg] with
  | error e => simp [h, Except.map] at hok
  | ok q =>
    have h' : counted [histArg, plainArg] = .ok (q.1, q.2.1, q.2.2) := h
    rw [h] at hok
    have htotal : q.2.1 = 18 := Except.ok.inj hok
    obtain ⟨ps, hplaced, hout⟩ := matchParams_placed h'
    have hlen : twoSlots.len = q.2.1.toNat := by rw [htotal]; rfl
    refine ⟨q.1, q.2.1, q.2.2, ps, rfl, hplaced, hout, hlen, fun hround => ?_⟩
    have hfit := hplaced.fits_bytes hround.contiguous hround.exact16
    have hreads := hround.reads
    rw [← hout] at hreads
    have h0 : (0 : Word).toNat = 0 := rfl
    have hread := (hplaced.reads_iff (by omega) rfl (by rw [h0, Nat.zero_add]; exact hlen)).mp hreads
    rw [← hplaced.forms_eq, ← countedForms, hforms] at hread
    obtain ⟨hhist, -⟩ := hread
    exact ((hhist rfl).2 (List.cons_ne_nil _ _)).hist rfl

/-- A histogram at the end is no harm. -/
theorem hist_last_read : ∃ outs total cnt ps, counted [plainArg, histArg] = .ok (outs, total, cnt) ∧
    ps.map (·.out) = outs ∧
    RoundTrip fiveAndZero plainSpec 0 ps total
      (outputFuncArgAttrs plainHeap dumpNothing fiveAndZero outs twoSlots).1 := by
  have hok : (counted [plainArg, histArg]).map (fun q => q.2.1) = .ok 18 := by rfl
  have hforms : countedForms [plainArg, histArg] = [⟨.default, none, 8⟩, ⟨.hist, none, 8⟩] := by rfl
  cases h : counted [plainArg, histArg] with
  | error e => simp [h, Except.map] at hok
  | ok q =>
    have h' : counted [plainArg, histArg] = .ok (q.1, q.2.1, q.2.2) := h
    rw [h] at hok
    have htotal : q.2.1 = 18 := Except.ok.inj hok
    obtain ⟨ps, -, hout, hiff⟩ := attrs_iff h'
    have hlen : twoSlots.len = q.2.1.toNat := by rw [htotal]; rfl
    refine ⟨q.1, q.2.1, q.2.2, ps, rfl, hout, (hiff dumpNothing fiveAndZero twoSlots hlen).mpr ?_⟩
    show ((countedForms [plainArg, histArg]).map fun f => f.bytes + 1).sum ≤ 2 ^ 15 ∧
      Readable plainHeap dumpNothing fiveAndZero 0 (countedForms [plainArg, histArg])
    rw [hforms]
    refine ⟨by decide, fun _ => ⟨?_, fun _ => ?_⟩, fun _ => ⟨?_, fun hne => absurd rfl hne⟩, trivial⟩
    · exact covered_plain (by decide) (by decide) _
    · exact movesOn_plain (by decide) (by decide) (by decide) (by decide) _
    · exact covered_plain (by decide) (by decide) _

end Bpfsnoop.Trace
