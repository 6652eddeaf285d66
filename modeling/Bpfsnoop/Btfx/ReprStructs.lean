/-
Bpfsnoop.Btfx.ReprStructs — members are rendered from their own bits.

The claim about `reprValue` on a struct or union of at most 16 bytes has
two halves (`RendersOwnBits`): its reads stay in the buffer, and at any
depth the text of a member is the same for two arguments that agree on the
bits of that member. **`rendersOwnBits_iff`**: both hold exactly when every
member, at any depth, is `MemberOk`. Three kinds of members are not:

  - a member that is no bitfield and starts behind byte 8: the word behind
    it is read past the buffer;
  - a bitfield that does not start at bit 0, which `reprMember` asks
    `DumpBitfield` for regardless;
  - a 4-byte enum or an unsigned `bool` with other bytes behind it, shown
    from the whole word at its place.

`DumpBitfield` is taken to show the bits it is asked for (`ShowsBits`).
-/
import Bpfsnoop.Btfx.ReprReads
import Bpfsnoop.Btfx.ReprScalars

namespace Bpfsnoop.Btfx

open Ebpf Btf CC

/-- `mybtf.DumpBitfield` shows the bits it is asked for, and no others. -/
def ShowsBits (W : World) : Prop :=
  ∀ off size data data', W.dumpBitfield off size data = W.dumpBitfield off size data' ↔
    ∀ j, j < size → bitAt data (off + j) = bitAt data' (off + j)

/-- Two arguments with the same `width` bits from `start` on. -/
def SameBits (start width : Nat) (arg arg' : Word × Word) : Prop :=
  ∀ j, start ≤ j → j < start + width → argBit arg j = argBit arg' j

theorem SameBits.mono {start width start' width' : Nat} {arg arg' : Word × Word}
    (h : SameBits start width arg arg') (hlo : start ≤ start')
    (hhi : start' + width' ≤ start + width) : SameBits start' width' arg arg' := by
  intro j hj hj'
  exact h j (by omega) (by omega)

section Structs

variable (L : Layouts) (W : World)

/-- The buffer a nested aggregate is rendered from: each level reads two
words at the member that leads on. -/
def levelData (data : List Byte) : List Member → List Byte
  | [] => data
  | m :: path => levelData (buffer (wordsAt W data m).1 (wordsAt W data m).2) path

/-- The text of a member of the aggregate at the end of a path. -/
def memberText (arg : Word × Word) (path : List Member) (m : Member) : Except GoError String :=
  (reprMember W (reprValue L W m.type) m (levelData W (buffer arg.1 arg.2) path) true).result

/-- The property of a struct or union type. -/
structure RendersOwnBits (t : BtfType) (ref : Nat) : Prop where
  reads : ∀ arg : Word × Word, Safe (reprValue L W t arg.1 arg.2)
  own : ∀ path ref' m, Nested L ref path ref' → m ∈ L.members ref' → ∀ arg arg',
    SameBits (pathOffset path + m.offset) (memberWidth L.heap m) arg arg' →
    memberText L W arg path m = memberText L W arg' path m

/-- A member of an aggregate that begins at bit `base` of the argument. -/
def MemberOk (base : Nat) (m : Member) : Prop :=
  if m.bitfieldSize ≠ 0 then m.offset = 0
  else
    m.offset ≤ 64 ∧
    ∀ size, sizeof L.heap m.type = some size → aggregate? m.type = none →
      ShowsWholeWord W (underlyingType m.type) size → base + m.offset + 8 * size = 128

/-- All members, at any depth. -/
def MembersOk (base ref : Nat) : Prop :=
  ∀ path ref' m, Nested L ref path ref' → m ∈ L.members ref' →
    MemberOk L W (base + pathOffset path) m

variable {L W}

theorem MembersOk.inner {base ref ref' : Nat} {m : Member} (h : MembersOk L W base ref)
    (hm : m ∈ L.members ref) (hbits : m.bitfieldSize = 0) (hagg : aggregate? m.type = some ref') :
    MembersOk L W (base + m.offset) ref' := by
  intro path ref'' m' hpath hm'
  have := h (m :: path) ref'' m' (.inner hm hbits hagg hpath) hm'
  rwa [pathOffset, ← Nat.add_assoc] at this

/-- One level, and the levels below. -/
theorem membersOk_iff {base ref : Nat} :
    MembersOk L W base ref ↔ ∀ m ∈ L.members ref, MemberOk L W base m ∧
      (m.bitfieldSize = 0 → ∀ ref', aggregate? m.type = some ref' →
        MembersOk L W (base + m.offset) ref') := by
  constructor
  · intro h m hm
    exact ⟨h [] ref m .here hm, fun hbits ref' hagg => h.inner hm hbits hagg⟩
  · intro h path ref' m hpath hm
    cases hpath with
    | here => exact (h m hm).1
    | inner hm' hbits hagg hrest =>
      have := (h _ hm').2 hbits _ hagg _ _ m hrest hm
      rwa [pathOffset, ← Nat.add_assoc]

theorem MembersOk.near {base ref : Nat} (h : MembersOk L W base ref) : NearMembers L ref := by
  intro path ref' m hpath hm hbits
  have hok := h path ref' m hpath hm
  rw [MemberOk, if_neg (by simpa using hbits)] at hok
  exact hok.1

/-! ## Where members lie -/

theorem memberWidth_aggregate {m : Member} {ref : Nat} (hbits : m.bitfieldSize = 0)
    (hagg : aggregate? m.type = some ref) :
    memberWidth L.heap m = 8 * (L.heap ref).size := by
  rw [memberWidth, if_pos hbits, sizeofD, sizeof_of_aggregate hagg, Option.getD_some]

theorem Nested.inside {ref ref' : Nat} {path : List Member} (h : Nested L ref path ref') :
    pathOffset path + 8 * (L.heap ref').size ≤ 8 * (L.heap ref).size := by
  induction h with
  | here => simp [pathOffset]
  | @inner ref ref' ref'' m path hm hbits hagg _ ih =>
    have hin := L.inside ref m hm
    rw [memberWidth_aggregate hbits hagg] at hin
    rw [pathOffset]
    omega

theorem Nested.append {ref ref' ref'' ref₃ : Nat} {path path' : List Member} {m : Member}
    (h : Nested L ref path ref') (hm : m ∈ L.members ref') (hbits : m.bitfieldSize = 0)
    (hagg : aggregate? m.type = some ref'') (h' : Nested L ref'' path' ref₃) :
    Nested L ref (path ++ m :: path') ref₃ := by
  induction h with
  | here => exact .inner hm hbits hagg h'
  | inner hm' hbits' hagg' _ ih => exact .inner hm' hbits' hagg' (ih hm)

theorem pathOffset_append (path path' : List Member) (m : Member) :
    pathOffset (path ++ m :: path') = pathOffset path + m.offset + pathOffset path' := by
  induction path with
  | nil => simp [pathOffset]
  | cons m' path ih =>
    rw [List.cons_append, pathOffset, ih, pathOffset]
    omega

theorem Nested.aligned {ref ref' : Nat} {path : List Member} (h : Nested L ref path ref') :
    pathOffset path % 8 = 0 := by
  induction h with
  | here => rfl
  | @inner ref ref' ref'' m path hm hbits _ _ ih =>
    have := L.aligned ref m hm hbits
    rw [pathOffset]
    omega

/-- The data of a level hold the bits of the argument from its place on. -/
theorem window_level {ref ref' : Nat} {path : List Member} (h : Nested L ref path ref')
    (hnear : NearMembers L ref) {arg : Word × Word} {base : Nat} {data : List Byte}
    (hwin : Window arg base data) :
    Window arg (base + pathOffset path) (levelData W data path) := by
  induction h generalizing base data with
  | here => exact hwin
  | @inner ref ref' ref'' m path hm hbits hagg _ ih =>
    have hstep := hwin.next W (L.aligned ref m hm hbits) (hnear [] ref m .here hm hbits)
    rw [pathOffset, ← Nat.add_assoc]
    exact ih (hnear.inner hm hbits hagg) hstep

/-! ## What the text of a member is -/

theorem reprMember_bitfield {value : Word → Word → Run String} {m : Member}
    (hbits : m.bitfieldSize ≠ 0) (data : List Byte) (showMemberName : Bool) :
    reprMember W value m data showMemberName
      = pure (memberLabel m showMemberName ++ W.dumpBitfield 0 m.bitfieldSize data) := by
  rw [reprMember, if_pos hbits]

/-- Both reads of a member near enough succeed. -/
theorem reprMember_near {value : Word → Word → Run String} {m : Member}
    (hbits : m.bitfieldSize = 0) (hnear : m.offset ≤ 64) {data : List Byte}
    (hlen : data.length = 24) (showMemberName : Bool) :
    reprMember W value m data showMemberName
      = { reads := m.offset / 8 :: (m.offset / 8 + 8) ::
            (value (wordsAt W data m).1 (wordsAt W data m).2).reads,
          result := (value (wordsAt W data m).1 (wordsAt W data m).2).result.map
            (memberLabel m showMemberName ++ ·) } := by
  have hfirst : getU64 W data (m.offset / 8)
      = { reads := [m.offset / 8], result := .ok (wordAt W data (m.offset / 8)) } :=
    if_pos (by omega)
  have hsecond : getU64 W data (m.offset / 8 + 8)
      = { reads := [m.offset / 8 + 8], result := .ok (wordAt W data (m.offset / 8 + 8)) } :=
    if_pos (by omega)
  rw [reprMember, if_neg (by simpa using hbits), hfirst, hsecond]
  simp only [Bind.bind, Run.bind, wordsAt]
  cases (value (wordAt W data (m.offset / 8)) (wordAt W data (m.offset / 8 + 8))).result with
  | error e => rfl
  | ok text => simp [pure, Except.map]

/-- A scalar is shown from its own bits where its kind is, and from the
end of the argument where it takes the whole word. -/
theorem reprValue_scalar_congr {t : BtfType} (ht : aggregate? t = none) {start : Nat}
    (hok : ∀ size, sizeof L.heap t = some size → ShowsWholeWord W (underlyingType t) size →
      start + 8 * size = 128)
    {arg arg' words words' : Word × Word}
    (hwords : ∀ j, j < 128 → argBit words j = argBit arg (start + j))
    (hwords' : ∀ j, j < 128 → argBit words' j = argBit arg' (start + j))
    (hsame : SameBits start (8 * sizeofD L.heap t) arg arg') :
    reprValue L W t words.1 words.2 = reprValue L W t words'.1 words'.2 := by
  have hbit : ∀ (w : Word × Word) j, j < 64 → w.1.getLsbD j = argBit w j := by
    intro w j hj
    rw [argBit, if_pos hj]
  cases hs : sizeof L.heap t with
  | none => rw [reprValue, reprValue, hs]
  | some size =>
    rw [sizeofD, hs, Option.getD_some] at hsame
    have hlow : SameLow size words.1 words'.1 := by
      intro j hj
      by_cases h64 : j < 64
      · rw [hbit _ _ h64, hbit _ _ h64, hwords _ (by omega), hwords' _ (by omega)]
        exact hsame _ (by omega) (by omega)
      · rw [BitVec.getLsbD_of_ge _ _ (by omega), BitVec.getLsbD_of_ge _ _ (by omega)]
    rw [reprValue_scalar L W ht hs, reprValue_scalar L W ht hs]
    by_cases hwhole : ShowsWholeWord W (underlyingType t) size
    · have hend := hok size hs hwhole
      have hword : words.1 = words'.1 := by
        apply BitVec.eq_of_getLsbD_eq
        intro j hj
        by_cases hown : j < 8 * size
        · exact hlow j hown
        · rw [hbit _ _ hj, hbit _ _ hj, hwords _ (by omega), hwords' _ (by omega),
            argBit_of_ge (by omega), argBit_of_ge (by omega)]
      rw [hword]
    · rw [reprScalar_congr W hwhole hlow]

/-- A bitfield at bit 0 is shown from its own bits. -/
theorem reprMember_bitfield_congr (hdump : ShowsBits W) {value : Word → Word → Run String}
    {m : Member} {base : Nat} {data data' : List Byte} {arg arg' : Word × Word}
    (hwin : Window arg base data) (hwin' : Window arg' base data') (hbits : m.bitfieldSize ≠ 0)
    (hoff : m.offset = 0) (hsame : SameBits (base + m.offset) (memberWidth L.heap m) arg arg') :
    reprMember W value m data true = reprMember W value m data' true := by
  rw [memberWidth, if_neg hbits, hoff] at hsame
  have hshown : W.dumpBitfield 0 m.bitfieldSize data = W.dumpBitfield 0 m.bitfieldSize data' := by
    rw [hdump]
    intro j hj
    rw [hwin.2, hwin'.2, hsame _ (by omega) (by omega)]
  rw [reprMember_bitfield hbits, reprMember_bitfield hbits, hshown]

/-- Two arguments that agree on the bits of a member give the same text,
when it and what is inside it are `MemberOk`. By induction on how deep
aggregates nest in it. -/
theorem reprMember_congr (hdump : ShowsBits W) (n : Nat) :
    ∀ {m : Member} {base : Nat} {data data' : List Byte} {arg arg' : Word × Word},
      depth L m.type < n → (m.bitfieldSize = 0 → m.offset % 8 = 0) →
      Window arg base data → Window arg' base data' →
      MemberOk L W base m →
      (∀ ref, m.bitfieldSize = 0 → aggregate? m.type = some ref →
        MembersOk L W (base + m.offset) ref) →
      base + m.offset + memberWidth L.heap m ≤ 128 →
      SameBits (base + m.offset) (memberWidth L.heap m) arg arg' →
      reprMember W (reprValue L W m.type) m data true
        = reprMember W (reprValue L W m.type) m data' true := by
  induction n with
  | zero => intro m base data data' arg arg' hdepth; omega
  | succ n ih =>
    intro m base data data' arg arg' hdepth hal hwin hwin' hok hinner hin hsame
    by_cases hbits : m.bitfieldSize = 0
    · rw [MemberOk, if_neg (by simpa using hbits)] at hok
      obtain ⟨hnear, hwhole⟩ := hok
      rw [reprMember_near hbits hnear hwin.1, reprMember_near hbits hnear hwin'.1]
      have hwords := fun j hj => hwin.wordsAt W (hal hbits) hnear (j := j) hj
      have hwords' := fun j hj => hwin'.wordsAt W (hal hbits) hnear (j := j) hj
      have hvalue : reprValue L W m.type (wordsAt W data m).1 (wordsAt W data m).2
          = reprValue L W m.type (wordsAt W data' m).1 (wordsAt W data' m).2 := by
        cases hagg : aggregate? m.type with
        | none =>
          rw [memberWidth, if_pos hbits] at hsame
          exact reprValue_scalar_congr hagg (fun size hs => hwhole size hs hagg) hwords hwords' hsame
        | some ref =>
          rw [reprValue_aggregate L W hagg, reprValue_aggregate L W hagg, reprStructUnionMembers,
            reprStructUnionMembers]
          congr 2
          apply List.map_congr_left
          intro m' hm'
          rw [memberWidth_aggregate hbits hagg] at hin hsame
          have hdeeper := depth_member L hagg hm'
          have hlies := L.inside ref m' hm'
          have hall := hinner ref hbits hagg
          refine ih (by omega) (L.aligned ref m' hm') (hwin.next W (hal hbits) hnear)
            (hwin'.next W (hal hbits) hnear) (hall [] ref m' .here hm') ?_ (by omega)
            (hsame.mono (by omega) (by omega))
          intro ref' hbits' hagg'
          exact hall.inner hm' hbits' hagg'
      rw [hvalue]
    · rw [MemberOk, if_pos hbits] at hok
      exact reprMember_bitfield_congr hdump hwin hwin' hbits hok hsame

/-! ## Arguments with one bit set -/

/-- Bit `k` of the 16 bytes, and no other. -/
def oneBit (k : Nat) : Word × Word :=
  if k < 64 then (BitVec.twoPow 64 k, 0#64) else (0#64, BitVec.twoPow 64 (k - 64))

theorem argBit_oneBit {k : Nat} (hk : k < 128) (j : Nat) :
    argBit (oneBit k) j = decide (j = k) := by
  unfold argBit oneBit
  rw [Bool.eq_iff_iff, decide_eq_true_iff]
  split <;> split <;> simp only [BitVec.getLsbD_twoPow, BitVec.getLsbD_zero, Bool.and_eq_true,
    decide_eq_true_eq, Bool.false_eq_true, false_iff] <;> omega

theorem argBit_zero (j : Nat) : argBit (0, 0) j = false := by
  simp [argBit]

/-- Bits of the argument that a member does not own do not tell apart. -/
theorem sameBits_oneBit {k start width : Nat} (hk : k < 128)
    (hout : k < start ∨ start + width ≤ k) : SameBits start width (0, 0) (oneBit k) := by
  intro j hlo hhi
  rw [argBit_zero, argBit_oneBit hk]
  simp
  omega

/-- A word that begins `i` bits before the bit set is a power of two. -/
theorem word_of_oneBit {k start i : Nat} {words : Word × Word} (hk : k < 128)
    (hstart : start + i = k)
    (hwords : ∀ j, j < 128 → argBit words j = argBit (oneBit k) (start + j)) :
    words.1 = BitVec.twoPow 64 i := by
  apply BitVec.eq_of_getLsbD_eq
  intro j hj
  have hword : words.1.getLsbD j = argBit words j := by rw [argBit, if_pos hj]
  rw [hword, hwords j (by omega), argBit_oneBit hk, BitVec.getLsbD_twoPow,
    Bool.eq_iff_iff, Bool.and_eq_true, decide_eq_true_iff, decide_eq_true_iff, decide_eq_true_iff]
  omega

/-! ## The members that go wrong -/

section Fails

variable {ref ref' : Nat} {path : List Member} {m : Member}

/-- The words a member is shown from, wherever it lies. -/
theorem wordsAt_level (hpath : Nested L ref path ref') (hm : m ∈ L.members ref')
    (hnear : NearMembers L ref) (hbits : m.bitfieldSize = 0) (arg : Word × Word) {j : Nat}
    (hj : j < 128) :
    argBit (wordsAt W (levelData W (buffer arg.1 arg.2) path) m) j
      = argBit arg (pathOffset path + m.offset + j) := by
  have hwin := window_level (W := W) hpath hnear (window_buffer arg)
  rw [hwin.wordsAt W (L.aligned ref' m hm hbits) (hnear path ref' m hpath hm hbits) hj, Nat.zero_add]

/-- A scalar member is shown from the first of its words. -/
theorem memberText_scalar (hpath : Nested L ref path ref') (hm : m ∈ L.members ref')
    (hnear : NearMembers L ref) (hbits : m.bitfieldSize = 0) (hagg : aggregate? m.type = none)
    {size : Nat} (hs : sizeof L.heap m.type = some size) (arg : Word × Word) :
    memberText L W arg path m = .ok (memberLabel m true ++ reprScalar W (underlyingType m.type) size
      (wordsAt W (levelData W (buffer arg.1 arg.2) path) m).1) := by
  have hwin := window_level (W := W) hpath hnear (window_buffer arg)
  rw [memberText, reprMember_near hbits (hnear path ref' m hpath hm hbits) hwin.1,
    reprValue_scalar L W hagg hs]
  rfl

theorem memberText_ne (hpath : Nested L ref path ref') (hm : m ∈ L.members ref')
    (hnear : NearMembers L ref) (hbits : m.bitfieldSize = 0) (hagg : aggregate? m.type = none)
    {size : Nat} (hs : sizeof L.heap m.type = some size) {arg arg' : Word × Word}
    (hne : reprScalar W (underlyingType m.type) size
        (wordsAt W (levelData W (buffer arg.1 arg.2) path) m).1
      ≠ reprScalar W (underlyingType m.type) size
        (wordsAt W (levelData W (buffer arg'.1 arg'.2) path) m).1) :
    memberText L W arg path m ≠ memberText L W arg' path m := by
  rw [memberText_scalar hpath hm hnear hbits hagg hs, memberText_scalar hpath hm hnear hbits hagg hs]
  intro h
  exact hne ((String.append_right_inj _).mp (Except.ok.inj h))

theorem memberText_bitfield (hbits : m.bitfieldSize ≠ 0) (arg : Word × Word) :
    memberText L W arg path m = .ok (memberLabel m true ++
      W.dumpBitfield 0 m.bitfieldSize (levelData W (buffer arg.1 arg.2) path)) := by
  rw [memberText, reprMember_bitfield hbits]
  rfl

/-- A bitfield behind bit 0 shows a bit it does not own: the first one of
its aggregate. -/
theorem bitfield_shows_first (hdump : ShowsBits W) (hsize : (L.heap ref).size ≤ 16)
    (hpath : Nested L ref path ref') (hm : m ∈ L.members ref') (hnear : NearMembers L ref)
    (hbits : m.bitfieldSize ≠ 0) (hoff : m.offset ≠ 0) :
    ∃ arg arg', SameBits (pathOffset path + m.offset) (memberWidth L.heap m) arg arg' ∧
      memberText L W arg path m ≠ memberText L W arg' path m := by
  have hin := L.inside ref' m hm
  have hplace := hpath.inside
  rw [memberWidth, if_neg hbits] at hin
  have hk : pathOffset path < 128 := by omega
  refine ⟨(0, 0), oneBit (pathOffset path), sameBits_oneBit hk (.inl (by omega)), ?_⟩
  have hwin := window_level (W := W) hpath hnear (window_buffer (0, 0))
  have hwin' := window_level (W := W) hpath hnear (window_buffer (oneBit (pathOffset path)))
  rw [memberText_bitfield hbits, memberText_bitfield hbits]
  intro htext
  have hshown := (hdump _ _ _ _).mp ((String.append_right_inj _).mp (Except.ok.inj htext)) 0
    (by omega)
  rw [hwin.2, hwin'.2, argBit_zero, argBit_oneBit hk] at hshown
  simp at hshown

/-- What is shown from the whole word shows a bit behind its own, unless
its own end the argument. -/
theorem wholeWord_shows_next (hsize : (L.heap ref).size ≤ 16)
    (hpath : Nested L ref path ref') (hm : m ∈ L.members ref') (hnear : NearMembers L ref)
    (hbits : m.bitfieldSize = 0) (hagg : aggregate? m.type = none) (hfits : EnumFits m.type)
    {size : Nat} (hs : sizeof L.heap m.type = some size)
    (hwhole : ShowsWholeWord W (underlyingType m.type) size)
    (hend : pathOffset path + m.offset + 8 * size ≠ 128) :
    ∃ arg arg', SameBits (pathOffset path + m.offset) (memberWidth L.heap m) arg arg' ∧
      memberText L W arg path m ≠ memberText L W arg' path m := by
  have hin := L.inside ref' m hm
  have hplace := hpath.inside
  have haligned := hpath.aligned
  have haligned' := L.aligned ref' m hm hbits
  have hwidth : memberWidth L.heap m = 8 * size := by
    rw [memberWidth, if_pos hbits, sizeofD, hs, Option.getD_some]
  rw [hwidth] at hin ⊢
  have hwords := fun arg j hj => wordsAt_level (W := W) hpath hm hnear hbits arg (j := j) hj
  have hs' : sizeof L.heap (underlyingType m.type) = some size := by simpa using hs
  have hfits' : EnumFits (underlyingType m.type) := by simpa [EnumFits] using hfits
  have htext : ∀ {arg arg'}, _ → memberText L W arg path m ≠ memberText L W arg' path m :=
    memberText_ne hpath hm hnear hbits hagg hs
  generalize hstart : pathOffset path + m.offset = start at *
  rcases hwhole with ⟨rfl, henum⟩ | ⟨rfl, hsigned, hbool⟩
  · have hk : start + 32 < 128 := by omega
    have hk' : start + 33 < 128 := by omega
    refine ⟨oneBit (start + 32), oneBit (start + 33), ?_, htext ?_⟩
    · intro j hlo hhi
      rw [argBit_oneBit hk, argBit_oneBit hk']
      grind
    · rw [word_of_oneBit hk rfl (hwords _), word_of_oneBit hk' rfl (hwords _)]
      exact reprScalar_enum_ne W henum hs' hfits'
  · have hk : start + 8 < 128 := by omega
    refine ⟨(0, 0), oneBit (start + 8), sameBits_oneBit hk (.inr (by omega)), htext ?_⟩
    have hzero : (wordsAt W (levelData W (buffer 0 0) path) m).1 = 0 := by
      apply BitVec.eq_of_getLsbD_eq
      intro j hj
      have := hwords (0, 0) j (by omega)
      rw [argBit_zero, argBit, if_pos hj] at this
      rw [this]
      simp
    rw [word_of_oneBit hk rfl (hwords _), hzero]
    exact reprScalar_bool_ne W hsigned hbool (by decide)

end Fails

/-! ## Main result -/

/-- **When members are rendered from their own bits.** For a struct or
union of at most 16 bytes, every read stays in the buffer and every
member, at any depth, shows its own bits, exactly when all members are
`MemberOk`. -/
theorem rendersOwnBits_iff (hdump : ShowsBits W)
    (hfits : ∀ ref, ∀ m ∈ L.members ref, EnumFits m.type) {t : BtfType} {ref : Nat}
    (ht : aggregate? t = some ref) (hsize : (L.heap ref).size ≤ 16) :
    RendersOwnBits L W t ref ↔ MembersOk L W 0 ref := by
  constructor
  · intro h path ref' m hpath hm
    have hnear := (safe_iff ht (0, 0)).mp (h.reads (0, 0))
    rw [Nat.zero_add, MemberOk]
    by_cases hbits : m.bitfieldSize = 0
    · rw [if_neg (by simpa using hbits)]
      refine ⟨hnear path ref' m hpath hm hbits, ?_⟩
      intro size hs hagg hwhole
      by_contra hend
      obtain ⟨arg, arg', hsame, hne⟩ := wholeWord_shows_next hsize hpath hm hnear hbits hagg
        (hfits ref' m hm) hs hwhole hend
      exact hne (h.own path ref' m hpath hm arg arg' hsame)
    · rw [if_pos hbits]
      by_contra hoff
      obtain ⟨arg, arg', hsame, hne⟩ :=
        bitfield_shows_first hdump hsize hpath hm hnear hbits hoff
      exact hne (h.own path ref' m hpath hm arg arg' hsame)
  · intro h
    refine ⟨fun arg => (safe_iff ht arg).mpr h.near, ?_⟩
    intro path ref' m hpath hm arg arg' hsame
    have hin := L.inside ref' m hm
    have hplace := hpath.inside
    have hwin := window_level (W := W) hpath h.near (window_buffer arg)
    have hwin' := window_level (W := W) hpath h.near (window_buffer arg')
    rw [Nat.zero_add] at hwin hwin'
    have hok := h path ref' m hpath hm
    rw [Nat.zero_add] at hok
    rw [memberText, memberText, reprMember_congr hdump _ (Nat.lt_succ_self _)
      (L.aligned ref' m hm) hwin hwin' hok ?_ (by omega) hsame]
    intro ref'' hbits hagg path' ref₃ m' hpath' hm'
    have hdeep := h (path ++ m :: path') ref₃ m' (hpath.append hm hbits hagg hpath') hm'
    rwa [Nat.zero_add, pathOffset_append] at hdeep

end Structs

/-! ## Runs on fixed inputs -/

theorem plainWorld_showsBits : ShowsBits plainWorld := by
  intro off size data data'
  simp only [plainWorld, String.ofList_inj]
  constructor
  · intro h j hj
    have hchar := List.map_inj_left.mp h j (List.mem_range.mpr hj)
    revert hchar
    cases bitAt data (off + j) <;> cases bitAt data' (off + j) <;> simp
  · intro h
    apply List.map_congr_left
    intro j hj
    rw [h j (List.mem_range.mp hj)]

/-- `struct inner { u64 z; }` inside
`struct outer { unsigned int x; struct inner s; }`. -/
def nestedLayouts : Layouts where
  heap
    | 0 => { size := 16, findMember := fun _ => none }
    | _ => { size := 8, findMember := fun _ => none }
  members
    | 0 =>
      [{ name := "x", type := .int "unsigned int" 4 .unsigned, offset := 0, bitfieldSize := 0 },
        { name := "s", type := .struct "inner" 1, offset := 64, bitfieldSize := 0 }]
    | _ => [{ name := "z", type := .int "u64" 8 .unsigned, offset := 0, bitfieldSize := 0 }]
  rank
    | 0 => 1
    | _ => 0
  acyclic
    | 0, m, hm, ref', hagg => by
      rcases List.mem_pair.mp hm with rfl | rfl <;> cases hagg
      decide
    | _ + 1, m, hm, ref', hagg => by
      obtain rfl := List.mem_singleton.mp hm
      cases hagg
  aligned
    | 0, m, hm, _ => by rcases List.mem_pair.mp hm with rfl | rfl <;> rfl
    | _ + 1, m, hm, _ => by
      obtain rfl := List.mem_singleton.mp hm
      rfl
  inside
    | 0, m, hm => by
      rcases List.mem_pair.mp hm with rfl | rfl <;> decide
    | _ + 1, m, hm => by
      obtain rfl := List.mem_singleton.mp hm
      exact Nat.le_refl 64

/-- `struct outer` is rendered as it should be. -/
theorem nested_rendersOwnBits :
    (nestedLayouts.heap 0).size = 16 ∧
      RendersOwnBits nestedLayouts plainWorld (.struct "outer" 0) 0 := by
  have hfits : ∀ ref, ∀ m ∈ nestedLayouts.members ref, EnumFits m.type
    | 0, m, hm, name, signed, values, henum => by
      rcases List.mem_pair.mp hm with rfl | rfl <;> cases henum
    | _ + 1, m, hm, name, signed, values, henum => by
      obtain rfl := List.mem_singleton.mp hm
      cases henum
  have hinner : MembersOk nestedLayouts plainWorld 64 1 := by
    rw [membersOk_iff]
    intro m hm
    obtain rfl := List.mem_singleton.mp hm
    refine ⟨?_, fun _ ref' hagg => by cases hagg⟩
    simp [MemberOk, ShowsWholeWord, sizeof]
  have houter : MembersOk nestedLayouts plainWorld 0 0 := by
    rw [membersOk_iff]
    intro m hm
    rcases List.mem_pair.mp hm with rfl | rfl
    · have henum : ¬ ShowsWholeWord plainWorld (.int "unsigned int" 4 .unsigned) 4 := by
        rintro (⟨-, h⟩ | ⟨h, -⟩) <;> cases h
      refine ⟨?_, fun _ ref' hagg => by cases hagg⟩
      simp [MemberOk, sizeof, underlyingType, henum]
    · refine ⟨?_, fun _ ref' hagg => ?_⟩
      · simp [MemberOk, aggregate?, underlyingType]
      · cases hagg
        exact hinner
  exact ⟨rfl, (rendersOwnBits_iff plainWorld_showsBits hfits rfl (by decide)).mpr houter⟩

/-- `struct triple { u64 a; u32 b; u32 c; }`. -/
def tripleLayouts : Layouts where
  heap _ := { size := 16, findMember := fun _ => none }
  members _ :=
    [{ name := "a", type := .int "u64" 8 .unsigned, offset := 0, bitfieldSize := 0 },
      { name := "b", type := .int "u32" 4 .unsigned, offset := 64, bitfieldSize := 0 },
      { name := "c", type := .int "u32" 4 .unsigned, offset := 96, bitfieldSize := 0 }]
  rank _ := 0
  acyclic ref m hm ref' hagg := by
    rcases List.mem_cons.mp hm with rfl | hm
    · cases hagg
    · rcases List.mem_pair.mp hm with rfl | rfl <;> cases hagg
  aligned ref m hm _ := by
    rcases List.mem_cons.mp hm with rfl | hm
    · rfl
    · rcases List.mem_pair.mp hm with rfl | rfl <;> rfl
  inside ref m hm := by
    rcases List.mem_cons.mp hm with rfl | hm
    · decide
    · rcases List.mem_pair.mp hm with rfl | rfl <;> decide

/-- The word behind `c` is read at byte 16 and beyond the 24 bytes. -/
theorem triple_reads_past_buffer :
    (tripleLayouts.heap 0).size = 16 ∧
      (reprValue tripleLayouts plainWorld (.struct "triple" 0) 0 0).reads
        = [0, 8, 8, 16, 12, 20] ∧
      ¬ RendersOwnBits tripleLayouts plainWorld (.struct "triple" 0) 0 := by
  have hreads : (reprValue tripleLayouts plainWorld (.struct "triple" 0) 0 0).reads
      = [0, 8, 8, 16, 12, 20] := by
    have hint : ∀ name size, reprValue tripleLayouts plainWorld (.int name size .unsigned)
        = fun val _ => pure (reprScalar plainWorld (.int name size .unsigned) size val) := by
      intro name size
      funext val valNext
      exact reprValue_scalar tripleLayouts plainWorld rfl rfl val valNext
    rw [reprValue_aggregate tripleLayouts plainWorld rfl]
    simp only [tripleLayouts, reprStructUnionMembers, List.map_cons, List.map_nil] at hint ⊢
    simp only [hint]
    rfl
  refine ⟨rfl, hreads, fun h => ?_⟩
  have hlast := (h.reads (0, 0)).1 20 (by rw [hreads]; simp)
  omega

end Bpfsnoop.Btfx
