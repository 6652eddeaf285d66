/-
Bpfsnoop.Btfx.ReprReads — the reads of the renderer, and the buffer.

A member is read with the word behind it, so the 24 bytes of the buffer
allow byte offsets up to 8: **`safe_iff`**. An aggregate nested in another
one is rendered from a buffer of its own, made of the two words read at
it; what its bits are in terms of the argument is `window_next`.
-/
import Bpfsnoop.Btfx.Repr

namespace Bpfsnoop.Btfx

open Ebpf Btf CC

/-! ## Runs whose reads lie in the buffer -/

/-- Every read lies in the 24 bytes, and there is a text. -/
def Safe {α : Type} (x : Run α) : Prop :=
  (∀ r ∈ x.reads, r + 8 ≤ 24) ∧ ∃ a, x.result = .ok a

section Runs

variable {α β : Type}

theorem safe_pure (a : α) : Safe (pure a : Run α) := by
  refine ⟨?_, a, rfl⟩
  intro r hr
  cases hr

/-- A run is safe when its parts are. -/
theorem safe_bind {x : Run α} {f : α → Run β} :
    Safe (x >>= f) ↔ ∃ a, x.result = .ok a ∧ Safe x ∧ Safe (f a) := by
  obtain ⟨reads, result⟩ := x
  show Safe (Run.bind _ _) ↔ _
  cases result with
  | error e =>
    constructor
    · rintro ⟨-, a, h⟩
      cases h
    · rintro ⟨a, h, -⟩
      cases h
  | ok a =>
    constructor
    · rintro ⟨hreads, b, hb⟩
      simp only [Run.bind, List.mem_append] at hreads hb
      exact ⟨a, rfl, ⟨fun r hr => hreads r (.inl hr), a, rfl⟩,
        fun r hr => hreads r (.inr hr), b, hb⟩
    · rintro ⟨a', h, ⟨hx, -⟩, hf, b, hb⟩
      cases h
      refine ⟨?_, b, hb⟩
      intro r hr
      rcases List.mem_append.mp hr with hr | hr
      · exact hx r hr
      · exact hf r hr

theorem safe_sequence {xs : List (Run α)} : Safe (Run.sequence xs) ↔ ∀ x ∈ xs, Safe x := by
  induction xs with
  | nil => simp [Run.sequence, safe_pure]
  | cons x xs ih =>
    rw [Run.sequence, safe_bind, List.forall_mem_cons]
    constructor
    · rintro ⟨a, -, hx, hrest⟩
      obtain ⟨as, -, hxs, -⟩ := safe_bind.mp hrest
      exact ⟨hx, ih.mp hxs⟩
    · rintro ⟨hx, hxs⟩
      obtain ⟨a, ha⟩ := hx.2
      obtain ⟨as, has⟩ := (ih.mpr hxs).2
      exact ⟨a, ha, hx, safe_bind.mpr ⟨as, has, ih.mpr hxs, safe_pure _⟩⟩

end Runs

/-! ## Bits of the buffer -/

/-- Bit `j` of the 16 bytes of an argument: its value and the next one. -/
def argBit (arg : Word × Word) (j : Nat) : Bool :=
  if j < 64 then arg.1.getLsbD j else arg.2.getLsbD (j - 64)

theorem argBit_of_ge {arg : Word × Word} {j : Nat} (h : 128 ≤ j) : argBit arg j = false := by
  rw [argBit, if_neg (by omega)]
  exact BitVec.getLsbD_of_ge _ _ (by omega)

@[simp] theorem bytesOf_length (w : Word) : (bytesOf w).length = 8 := by simp [bytesOf]

theorem bytesOf_getElem? {w : Word} {i : Nat} (h : i < 8) : (bytesOf w)[i]? = some (byteOf w i) := by
  simp [bytesOf, h]

theorem buffer_eq (val valNext : Word) :
    buffer val valNext = bytesOf val ++ (bytesOf valNext ++ List.replicate 8 0) := rfl

@[simp] theorem buffer_length (val valNext : Word) : (buffer val valNext).length = 24 := by
  simp [buffer_eq]

theorem bitAt_buffer {arg : Word × Word} {j : Nat} :
    bitAt (buffer arg.1 arg.2) j = argBit arg j := by
  have hbyte : ∀ (w : Word) k, k < 64 →
      ((bytesOf w)[k / 8]?.getD 0).getLsbD (k % 8) = w.getLsbD k := by
    intro w k hk
    rw [bytesOf_getElem? (by omega), Option.getD_some, getLsbD_byteOf _ _ _ (by omega)]
    congr 1
    omega
  rw [bitAt, buffer_eq]
  by_cases hfirst : j < 64
  · rw [List.getElem?_append_left (by simp; omega), hbyte _ _ hfirst, argBit, if_pos hfirst]
  rw [List.getElem?_append_right (by simp; omega), bytesOf_length]
  by_cases hsecond : j < 128
  · have hdiv : j / 8 - 8 = (j - 64) / 8 := by omega
    have hmod : j % 8 = (j - 64) % 8 := by omega
    rw [List.getElem?_append_left (by simp; omega), hdiv, hmod, hbyte _ _ (by omega), argBit,
      if_neg hfirst]
  · rw [List.getElem?_append_right (by simp; omega), argBit_of_ge (by omega)]
    rcases hzero : (List.replicate 8 (0 : Byte))[j / 8 - 8 - (bytesOf arg.2).length]? with _ | b
    · simp
    · have hb := List.eq_of_mem_replicate (List.mem_of_getElem? hzero)
      simp [hb]

section Windows

variable (W : World)

/-- Inside the data, a byte read is a byte of the data. -/
theorem byteAt_of_lt {data : List Byte} {i : Nat} (h : i < data.length) :
    byteAt W data i = data[i]?.getD 0 := by
  simp [byteAt, h]

theorem getLsbD_wordAt {data : List Byte} {offset j : Nat} (hlen : offset + 8 ≤ data.length)
    (hj : j < 64) : (wordAt W data offset).getLsbD j = bitAt data (8 * offset + j) := by
  have h8 : j < 8 * 8 := by omega
  have hdiv : (8 * offset + j) / 8 = offset + j / 8 := by omega
  have hmod : (8 * offset + j) % 8 = j % 8 := by omega
  have haddr : ((0 : Word) + BitVec.ofNat 64 (j / 8)).toNat = j / 8 := by
    simp
    omega
  rw [wordAt, getLsbD_loadLE _ _ _ _ hj, haddr, byteAt_of_lt W (by omega), bitAt, hdiv, hmod]
  simp [h8]

/-- The data hold the bits of the argument from `base` on, 16 bytes of
them, and zeroes behind. -/
def Window (arg : Word × Word) (base : Nat) (data : List Byte) : Prop :=
  data.length = 24 ∧ ∀ j, bitAt data j = (decide (j < 128) && argBit arg (base + j))

theorem window_buffer (arg : Word × Word) : Window arg 0 (buffer arg.1 arg.2) := by
  refine ⟨buffer_length _ _, fun j => ?_⟩
  rw [bitAt_buffer, Nat.zero_add]
  by_cases h : j < 128
  · simp [h]
  · have hzero : argBit arg j = false := argBit_of_ge (by omega)
    simp [h, hzero]

/-- The words `reprMember` reads at a member. -/
def wordsAt (data : List Byte) (m : Member) : Word × Word :=
  (wordAt W data (m.offset / 8), wordAt W data (m.offset / 8 + 8))

/-- Their bits are the bits of the argument from the member on. -/
theorem Window.wordsAt {arg : Word × Word} {base : Nat} {data : List Byte} {m : Member}
    (h : Window arg base data) (hal : m.offset % 8 = 0) (hnear : m.offset ≤ 64) {j : Nat}
    (hj : j < 128) : argBit (wordsAt W data m) j = argBit arg (base + m.offset + j) := by
  have hoff : 8 * (m.offset / 8) = m.offset := by omega
  have hbit : argBit (Btfx.wordsAt W data m) j = bitAt data (m.offset + j) := by
    unfold argBit Btfx.wordsAt
    split
    · rw [getLsbD_wordAt W (by rw [h.1]; omega) (by omega), hoff]
    · rw [getLsbD_wordAt W (by rw [h.1]; omega) (by omega)]
      congr 1
      omega
  rw [hbit, h.2, Nat.add_assoc]
  by_cases hlow : m.offset + j < 128
  · simp [hlow]
  · have hzero : argBit arg (base + (m.offset + j)) = false := argBit_of_ge (by omega)
    simp [hlow, hzero]

/-- The buffer made of them. -/
theorem Window.next {arg : Word × Word} {base : Nat} {data : List Byte} {m : Member}
    (h : Window arg base data) (hal : m.offset % 8 = 0) (hnear : m.offset ≤ 64) :
    Window arg (base + m.offset) (buffer (Btfx.wordsAt W data m).1 (Btfx.wordsAt W data m).2) := by
  refine ⟨buffer_length _ _, fun j => ?_⟩
  rw [(window_buffer (Btfx.wordsAt W data m)).2 j, Nat.zero_add]
  by_cases hlow : j < 128
  · simp [hlow, h.wordsAt W hal hnear hlow]
  · simp [hlow]

end Windows

/-! ## Nested members -/

/-- Aggregates inside an aggregate, and the members that lead to them. -/
inductive Nested (L : Layouts) : Nat → List Member → Nat → Prop
  | here {ref : Nat} : Nested L ref [] ref
  | inner {ref ref' ref'' : Nat} {m : Member} {path : List Member}
      (hm : m ∈ L.members ref) (hbits : m.bitfieldSize = 0) (hagg : aggregate? m.type = some ref')
      (hrest : Nested L ref' path ref'') : Nested L ref (m :: path) ref''

/-- Where, in bits, the aggregate at the end of a path begins. -/
def pathOffset : List Member → Nat
  | [] => 0
  | m :: path => m.offset + pathOffset path

section Reads

variable {L : Layouts} {W : World}

theorem safe_getU64 {data : List Byte} {offset : Nat} (hlen : data.length = 24) :
    Safe (getU64 W data offset) ↔ offset ≤ 16 := by
  unfold getU64
  split
  · constructor
    · rintro ⟨hreads, -⟩
      have := hreads offset (by simp)
      omega
    · intro h
      refine ⟨?_, _, rfl⟩
      intro r hr
      simp only [List.mem_singleton] at hr
      omega
  · constructor
    · rintro ⟨-, a, ha⟩
      cases ha
    · omega

theorem getU64_result {data : List Byte} {offset : Nat} (h : offset < data.length) :
    (getU64 W data offset).result = .ok (wordAt W data offset) := by
  rw [getU64, if_pos h]

/-- A member is rendered with reads inside the buffer when it starts at
byte 8 at most and its value is. -/
theorem safe_reprMember {value : Word → Word → Run String} {m : Member} {data : List Byte}
    {showMemberName : Bool} (hlen : data.length = 24) :
    Safe (reprMember W value m data showMemberName) ↔
      (m.bitfieldSize = 0 →
        m.offset / 8 ≤ 8 ∧ Safe (value (wordsAt W data m).1 (wordsAt W data m).2)) := by
  unfold reprMember
  by_cases hbits : m.bitfieldSize = 0
  · simp only [hbits, ne_eq, not_true_eq_false, if_false, true_imp_iff]
    rw [safe_bind]
    constructor
    · rintro ⟨val, hval, -, hrest⟩
      obtain ⟨valNext, hnext, hsecond, htext⟩ := safe_bind.mp hrest
      have hnear := (safe_getU64 hlen).mp hsecond
      rw [getU64_result (by omega)] at hval hnext
      cases hval
      cases hnext
      obtain ⟨text, -, hvalue, -⟩ := safe_bind.mp htext
      exact ⟨by omega, hvalue⟩
    · rintro ⟨hnear, hvalue⟩
      obtain ⟨text, htext⟩ := hvalue.2
      refine ⟨_, getU64_result (by omega), (safe_getU64 hlen).mpr (by omega), ?_⟩
      refine safe_bind.mpr ⟨_, getU64_result (by omega), (safe_getU64 hlen).mpr (by omega), ?_⟩
      exact safe_bind.mpr ⟨text, htext, hvalue, safe_pure _⟩
  · simp [hbits, safe_pure]

/-- What is no struct or union reads nothing. -/
theorem safe_scalar {t : BtfType} (ht : aggregate? t = none) (val valNext : Word) :
    Safe (reprValue L W t val valNext) := by
  cases hs : sizeof L.heap t with
  | none =>
    rw [reprValue, hs]
    exact safe_pure _
  | some size =>
    rw [reprValue_scalar L W ht hs]
    exact safe_pure _

/-- A struct or union reads what its members read. -/
theorem safe_aggregate {t : BtfType} {ref : Nat} (ht : aggregate? t = some ref)
    {arg : Word × Word} :
    Safe (reprValue L W t arg.1 arg.2) ↔
      ∀ m ∈ L.members ref, m.bitfieldSize = 0 →
        m.offset ≤ 64 ∧
          Safe (reprValue L W m.type (wordsAt W (buffer arg.1 arg.2) m).1
            (wordsAt W (buffer arg.1 arg.2) m).2) := by
  have hmember : ∀ m ∈ L.members ref,
      (Safe (reprMember W (reprValue L W m.type) m (buffer arg.1 arg.2) true) ↔
        (m.bitfieldSize = 0 → m.offset ≤ 64 ∧
          Safe (reprValue L W m.type (wordsAt W (buffer arg.1 arg.2) m).1
            (wordsAt W (buffer arg.1 arg.2) m).2))) := by
    intro m hm
    rw [safe_reprMember (buffer_length _ _)]
    refine imp_congr_right fun hbits => and_congr_left fun _ => ?_
    have := L.aligned ref m hm hbits
    omega
  rw [reprValue_aggregate L W ht, reprStructUnionMembers, safe_bind]
  constructor
  · rintro ⟨texts, -, hsafe, -⟩ m hm
    exact (hmember m hm).mp (safe_sequence.mp hsafe _ (List.mem_map_of_mem hm))
  · intro h
    have hsafe : Safe (Run.sequence ((L.members ref).map fun m =>
        reprMember W (reprValue L W m.type) m (buffer arg.1 arg.2) true)) := by
      rw [safe_sequence]
      intro x hx
      obtain ⟨m, hm, rfl⟩ := List.mem_map.mp hx
      exact (hmember m hm).mpr (h m hm)
    obtain ⟨texts, htexts⟩ := hsafe.2
    exact ⟨texts, htexts, hsafe, safe_pure _⟩

/-- The members, at any depth, that are read start at byte 8 at most. -/
def NearMembers (L : Layouts) (ref : Nat) : Prop :=
  ∀ path ref' m, Nested L ref path ref' → m ∈ L.members ref' → m.bitfieldSize = 0 → m.offset ≤ 64

theorem NearMembers.inner {ref ref' : Nat} {m : Member} (h : NearMembers L ref)
    (hm : m ∈ L.members ref) (hbits : m.bitfieldSize = 0) (hagg : aggregate? m.type = some ref') :
    NearMembers L ref' := by
  intro path ref'' m' hpath
  exact h (m :: path) ref'' m' (.inner hm hbits hagg hpath)

theorem near_of_safe {ref ref' : Nat} {path : List Member} (hpath : Nested L ref path ref') :
    ∀ {t : BtfType} {arg : Word × Word}, aggregate? t = some ref →
      Safe (reprValue L W t arg.1 arg.2) →
      ∀ m ∈ L.members ref', m.bitfieldSize = 0 → m.offset ≤ 64 := by
  induction hpath with
  | here =>
    intro t arg ht hsafe m hm hbits
    exact ((safe_aggregate ht).mp hsafe m hm hbits).1
  | inner hm hbits hagg _ ih =>
    intro t arg ht hsafe
    exact ih hagg ((safe_aggregate ht).mp hsafe _ hm hbits).2

theorem safe_of_near : ∀ (n : Nat) {ref : Nat} {t : BtfType} {arg : Word × Word},
    L.rank ref < n → aggregate? t = some ref → NearMembers L ref →
    Safe (reprValue L W t arg.1 arg.2) := by
  intro n
  induction n with
  | zero => intro ref t arg hrank; omega
  | succ n ih =>
    intro ref t arg hrank ht hnear
    rw [safe_aggregate ht]
    intro m hm hbits
    refine ⟨hnear [] ref m .here hm hbits, ?_⟩
    cases hagg : aggregate? m.type with
    | none => exact safe_scalar hagg _ _
    | some ref' =>
      have hlower := L.acyclic ref m hm ref' hagg
      exact ih (by omega) hagg (hnear.inner hm hbits hagg)

/-- **When the reads stay in the buffer**: every member, however deep,
starts at byte 8 of its aggregate at most, whatever the argument. -/
theorem safe_iff {t : BtfType} {ref : Nat} (ht : aggregate? t = some ref) (arg : Word × Word) :
    Safe (reprValue L W t arg.1 arg.2) ↔ NearMembers L ref := by
  constructor
  · intro hsafe path ref' m hpath hm hbits
    exact near_of_safe hpath ht hsafe m hm hbits
  · exact safe_of_near _ (Nat.lt_succ_self _) ht

end Reads

end Bpfsnoop.Btfx
