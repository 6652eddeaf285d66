/-
Bpfsnoop.Ebpf.Jumps — jumps that stay inside a stretch of code.

`JumpsInside` says of a stretch of code that each of its relative jumps
lands forward, on one of its instructions or right behind the last. The
property is decided by a scan (`jumpsInside`), and it holds of two
stretches in a row when it holds of each.

`LabelDefined` says that a label is attached to one instruction, behind
every jump to it.
-/
import Bpfsnoop.Ebpf.Insn

namespace Bpfsnoop.Ebpf

/-! ## Relative jumps -/

/-- The displacement of a relative jump. -/
def Op.displacement? : Op → Option (BitVec 16)
  | .ja off | .jmp _ _ _ off => some off
  | _ => none

/-- Every relative jump lands forward, inside the code or right behind
it. A displacement counts from the instruction behind the jump. -/
def JumpsInside (code : List Op) : Prop :=
  ∀ (pre : List Op) (op : Op) (suf : List Op) (off : BitVec 16), code = pre ++ op :: suf →
    op.displacement? = some off → 0 ≤ off.toInt ∧ off.toInt ≤ (suf.length : Int)

/-- The scan for jumps that leave. -/
def jumpsInside : List Op → Bool
  | [] => true
  | op :: rest =>
    (match op.displacement? with
      | some off => 0 ≤ off.toInt && off.toInt ≤ rest.length
      | none => true) && jumpsInside rest

theorem jumpsInside_iff (code : List Op) : jumpsInside code = true ↔ JumpsInside code := by
  induction code with
  | nil => simp [jumpsInside, JumpsInside]
  | cons op rest ih =>
    rw [jumpsInside, Bool.and_eq_true, ih]
    constructor
    · rintro ⟨hop, hrest⟩ pre op' suf off hcode hoff
      cases pre with
      | nil =>
        simp only [List.nil_append, List.cons.injEq] at hcode
        obtain ⟨rfl, rfl⟩ := hcode
        simpa [hoff] using hop
      | cons _ pre =>
        simp only [List.cons_append, List.cons.injEq] at hcode
        exact hrest pre op' suf off hcode.2 hoff
    · intro h
      refine ⟨?_, fun pre op' suf off hcode hoff => ?_⟩
      · cases hoff : op.displacement? with
        | none => rfl
        | some off => simpa [hoff] using h [] op rest off rfl hoff
      · exact h (op :: pre) op' suf off (by rw [hcode]; rfl) hoff

/-- Code without relative jumps. -/
theorem JumpsInside.of_none {code : List Op} (h : ∀ op ∈ code, op.displacement? = none) :
    JumpsInside code := by
  intro pre op suf off hcode hoff
  have hmem : op ∈ code := by
    rw [hcode]
    simp
  rw [h op hmem] at hoff
  cases hoff

theorem JumpsInside.append {a b : List Op} (ha : JumpsInside a) (hb : JumpsInside b) :
    JumpsInside (a ++ b) := by
  rw [← jumpsInside_iff] at *
  induction a with
  | nil => exact hb
  | cons op rest ih =>
    rw [jumpsInside, Bool.and_eq_true] at ha
    rw [List.cons_append, jumpsInside, Bool.and_eq_true]
    refine ⟨?_, ih ha.2⟩
    cases hoff : op.displacement? with
    | none => rfl
    | some off =>
      have hop := ha.1
      simp only [hoff, Bool.and_eq_true, decide_eq_true_eq] at hop
      simp only [Bool.and_eq_true, decide_eq_true_eq, List.length_append]
      omega

/-! ## Labels -/

/-- The labels that the code jumps to, one for each jump. -/
def labels (code : List Insn) : List String := code.filterMap (·.op.label?)

@[simp] theorem labels_append (a b : List Insn) : labels (a ++ b) = labels a ++ labels b :=
  List.filterMap_append

/-- Some instruction may jump to the label. -/
def References (label : String) (code : List Insn) : Prop := ∃ i ∈ code, i.op.label? = some label

theorem references_iff {label : String} {code : List Insn} :
    References label code ↔ label ∈ labels code := by
  simp [References, labels]

/-- Code that jumps to one label, `n` times, and has no relative jumps. -/
structure ExitsOnly (label : String) (code : List Insn) (n : Nat) : Prop where
  straight : ∀ i ∈ code, i.op.displacement? = none
  labels : labels code = List.replicate n label

namespace ExitsOnly

variable {label : String} {a b : List Insn} {n m : Nat}

theorem append (ha : ExitsOnly label a n) (hb : ExitsOnly label b m) :
    ExitsOnly label (a ++ b) (n + m) where
  straight := by
    intro i hi
    rcases List.mem_append.mp hi with hi | hi
    · exact ha.straight i hi
    · exact hb.straight i hi
  labels := by rw [labels_append, ha.labels, hb.labels, List.replicate_add]

/-- Code without jumps. -/
theorem of_none (h : ∀ i ∈ a, i.op.displacement? = none ∧ i.op.label? = none) :
    ExitsOnly label a 0 where
  straight := fun i hi => (h i hi).1
  labels := List.filterMap_eq_nil_iff.mpr fun i hi => (h i hi).2

end ExitsOnly

/-- The label is attached to exactly one instruction, and every jump to
it comes before. -/
def LabelDefined (label : String) (code : List Insn) : Prop :=
  ∃ pre i suf, code = pre ++ i :: suf ∧ i.symbol = some label ∧
    (∀ j ∈ pre ++ suf, j.symbol ≠ some label) ∧ ∀ j ∈ i :: suf, j.op.label? ≠ some label

end Bpfsnoop.Ebpf
