/-
Bpfsnoop.CC.ReadWidths — what a memory access leaves in its register.

The last step of a chain loads some number of bytes, or none where the
access stands for an address, and the code behind it cuts the word down to
the result. How many bytes are loaded depends on the read mode and on the
chain, how many are kept on the type of the result alone, and the two have
to go together: `bitfield_iff` for the members that are bitfields,
`result_width_iff` for integers and enums, and for addresses.

What C loads on the way to an address is decided by the operands of the
expression: a place that is used as a value is loaded unless it is an array
or a function, and a cast does not change that (`loadsOperand`). The steps
behind the last such operand lead to the address (`tailStart`), which in C
is a constant away from there (`exists_displacement`).
-/
import Bpfsnoop.CC.AccessPathTheorems

namespace Bpfsnoop.CC

open Ebpf Btf Reg Lib

/-! ## What is kept of the last load -/

section Kept

variable {c : Compiler} {last : AccessOffset} {f : Word → Word} {d b k : Nat}

/-- One bit of memory, seen from its own byte and from another one. -/
theorem exists_bit {a b : Word} (hne : b ≠ a) (hd : d < 8) {n : Nat} (hn : 0 < n) :
    ∃ m, memNat m a 8 = 2 ^ d ∧ memNat m b n % 256 = 0 := by
  have hlt : 2 ^ d < 256 := Nat.pow_lt_pow_right (n := 8) (by omega) hd
  have hat := memNat_memoryOf (n := 8) a (2 ^ d) (j := 0) (by omega)
  rw [show a + BitVec.ofNat 64 0 = a from BitVec.add_zero a, pow_zero, Nat.div_one, Nat.mod_eq_of_lt (by omega)] at hat
  have hoff : (b - a).toNat ≠ 0 := by
    intro hz
    exact hne (by bv_omega)
  have hpow : 256 ^ 1 ≤ 256 ^ (b - a).toNat := Nat.pow_le_pow_right (by omega) (by omega)
  have hbyte : memNat (memoryOf a (2 ^ d)) b 1 = 0 := by
    rw [memNat, memNat, memoryOf, Nat.div_eq_of_lt (by omega)]
    rfl
  refine ⟨memoryOf a (2 ^ d), hat, ?_⟩
  rw [← hbyte]
  exact memNat_mod (j := 1) hn

/-- Behind a byte that is clear no field starts with a bit that is set. -/
theorem even_bits {x : Nat} (hd : d < 8) (hx : x % 256 = 0) : x / 2 ^ d % 2 ^ k ≠ 1 := by
  have hsplit : 256 = 2 ^ d * (2 * 2 ^ (7 - d)) := by
    rw [← pow_succ', ← pow_add, show d + (7 - d + 1) = 8 by omega]
    norm_num
  have heven : x / 2 ^ d = 2 * (2 ^ (7 - d) * (x / 256)) := by
    conv_lhs => rw [← Nat.div_add_mod x 256, hx, Nat.add_zero, hsplit, Nat.mul_assoc,
      Nat.mul_div_cancel_left _ (Nat.two_pow_pos d), ← hsplit, Nat.mul_assoc]
  rw [heven]
  cases k with
  | zero => simp [Nat.mod_one]
  | succ k =>
    rw [pow_succ', Nat.mul_mod_mul_left]
    omega

/-- Code that keeps `k` of the bits from bit `d` on, behind the last load:
when these are the `b` bits that stand there in memory. -/
theorem keeps_iff (hd : d < 8) (hb : 0 < b) (hfit : d + b ≤ 64)
    (hf : ∀ w, (f w).toNat = w.toNat / 2 ^ d % 2 ^ k) :
    (∀ m w, (f ((readStep c last true).value m w)).toNat = memNat m (w + last.offset) 8 / 2 ^ d % 2 ^ b) ↔
      ∃ size, LoadsAt c last size ∧ min k (8 * size - d) = b := by
  have hone : 2 ^ d / 2 ^ d % 2 ^ b = 1 := by
    rw [Nat.div_self (Nat.two_pow_pos d), Nat.mod_eq_of_lt (Nat.one_lt_two_pow (by omega))]
  -- what the memory holds, as the load sees it
  have hload (m : Word → Byte) (w : Word) {load : Size} (h : (readStep c last true).load = some load) :
      (f ((readStep c last true).value m w)).toNat
        = memNat m (w + (readStep c last true).delta) load.bytes / 2 ^ d % 2 ^ k := by
    have hle : load.bytes ≤ 8 := by cases load <;> simp [Size.bytes]
    simp only [hf, ReadStep.value, h, toNat_loadLE hle]
  constructor
  · intro hall
    cases hl : (readStep c last true).load with
    | none =>
      -- nothing is loaded: one bit of memory makes no difference
      have hconst (m : Word → Byte) : f ((readStep c last true).value m 0) = f (0 + (readStep c last true).delta) := by
        simp only [ReadStep.value, hl]
      obtain ⟨m₀, hm₀⟩ := exists_memNat (n := 8) (0 + last.offset) (by omega) (Nat.two_pow_pos 64)
      obtain ⟨m₁, hm₁⟩ := exists_memNat (n := 8) (0 + last.offset) (by omega)
        (Nat.pow_lt_pow_right (by omega) (by omega) : 2 ^ d < 2 ^ 64)
      have hclear := hall m₀ 0
      have hset := hall m₁ 0
      rw [hconst, hm₀, Nat.zero_div, Nat.zero_mod] at hclear
      rw [hconst, hm₁, hone] at hset
      omega
    | some load =>
      have hpos : 0 < load.bytes ∧ load.bytes ≤ 8 := by cases load <;> simp [Size.bytes]
      have hdelta : (readStep c last true).delta = last.offset := by
        by_contra hne
        obtain ⟨m, hset, hclear⟩ := exists_bit (a := 0 + last.offset) (b := 0 + (readStep c last true).delta)
          (by simpa using hne) hd hpos.1
        have hat := hall m 0
        rw [hload m 0 hl, hset, hone] at hat
        exact even_bits hd hclear hat
      refine ⟨load.bytes, loadsAt_iff.mpr ⟨load, hl, rfl, hdelta⟩, ?_⟩
      refine (bits_iff (d := d) (q := 64) (by omega) hfit).mp fun y hy => ?_
      obtain ⟨m, hm⟩ := exists_memNat (n := 8) (0 + last.offset) (by omega) hy
      have hat := hall m 0
      rw [hload m 0 hl, hdelta, hm, ← memNat_mod hpos.2, hm,
        show 256 ^ load.bytes = 2 ^ (8 * load.bytes) from (pow_mul 2 8 _).symm, mod_div _ (by omega), mod_mod_min] at hat
      exact hat
  · rintro ⟨size, hloads, hk⟩ m w
    obtain ⟨load, hl, rfl, hdelta⟩ := loadsAt_iff.mp hloads
    have hle : load.bytes ≤ 8 := by cases load <;> simp [Size.bytes]
    rw [hload m w hl, hdelta, ← memNat_mod hle, show 256 ^ load.bytes = 2 ^ (8 * load.bytes) from (pow_mul 2 8 _).symm,
      mod_div _ (by omega), mod_mod_min, hk]

end Kept

/-! ## The three kinds of results -/

/-- The bits of a bitfield member that starts in the byte at `a`. -/
def memberBits (member : Member) (m : Word → Byte) (a : Word) : Word :=
  BitVec.ofNat 64 (memNat m a 8 / 2 ^ (member.offset % 8) % 2 ^ member.bitfieldSize)

/-- The access stands for an integer or an enum of `size` bytes. -/
structure AccessResult.IsInteger (res : AccessResult) (size : Nat) : Prop where
  integer : ∃ signed, integer? res.btf = some (size, signed)
  width : size = 1 ∨ size = 2 ∨ size = 4 ∨ size = 8
  plain : isMemberBitfield res.mem = false

/-- What `accessMemory` says of an operand. -/
def accessed (c : Compiler) (g : Gen) (e : Expr) : AccessResult :=
  match accessMemory c e g with
  | .ok (res, _) => res
  | .error _ => {}

/-- C loads the operand where it is used as a value: it is a place, and its
type does not stand for its address. The type is that of the place, also
where the value is cast. -/
def loadsOperand (c : Compiler) (g : Gen) : Expr → Bool
  | .un .paren left | .cast _ left => loadsOperand c g left
  | .un .indir left => !decays (accessed c g (.un .indir left)).btf
  | .arrow left text => !decays (accessed c g (.arrow left text)).btf
  | .dot left text => !decays (accessed c g (.dot left text)).btf
  | .index left right => !decays (accessed c g (.index left right)).btf
  | _ => false

/-- How many steps of the chain there are up to the last load of C: behind
an operand that is loaded all steps so far, else as many as there are on the
way to the operand. -/
def tailStart (c : Compiler) (g : Gen) : Expr → Nat
  | .un .paren left | .un .addr left | .cast _ left => tailStart c g left
  | .un .indir left | .index left _ | .bin .sub left _ =>
    if loadsOperand c g left then (accessed c g left).offsets.length else tailStart c g left
  | .dot left _ | .arrow left _ =>
    -- the member of a place is in the place
    if (pointerTarget? (accessed c g left).btf).isSome && loadsOperand c g left then
      (accessed c g left).offsets.length
    else tailStart c g left
  | .bin .add left right =>
    match left.numberText? with
    | some _ => if loadsOperand c g right then (accessed c g right).offsets.length else tailStart c g right
    | none => if loadsOperand c g left then (accessed c g left).offsets.length else tailStart c g left
  | _ => 0

section Tails

variable {c : Compiler} {e left : Expr} {p p₀ : CPath} {res res₀ : AccessResult} {g g' : Gen}

theorem Accepts.accessed_eq (h : Accepts c g e p res) : accessed c g e = res := by
  rw [accessed, h.access]

/-- A place is loaded unless it stands for its address. -/
theorem Path.loadsOperand_place (h : Path c g e p res) (hp : p.place = true) :
    loadsOperand c g e = !decays p.type := by
  induction h with
  | name h =>
    obtain ⟨idx, -, rfl⟩ := Option.map_eq_some_iff.mp h.path
    cases hp
  | paren _ _ ih => exact ih hp
  | @step e left p₀ p res₀ res h hleft hstep _ =>
    have hbtf : (accessed c g e).btf = p.type := by
      rw [h.accessed_eq, ((Path.step h hleft hstep).tracks.place hp).1]
    cases hstep with
    | arrow | dot | index | indir => rw [loadsOperand, hbtf]
    | addr hc _ =>
      rw [(CPath.place_addr hc).1] at hp
      cases hp
    | cast _ hc _ =>
      rw [(CPath.place_cast hc).1] at hp
      cases hp
    | shift _ _ _ hc _ =>
      rw [(CPath.place_shift hc).1] at hp
      cases hp

/-- How many steps of the chain there are up to the last load of C, where
the value of the expression is used. -/
def operandStart (c : Compiler) (g : Gen) (e : Expr) : Nat :=
  if loadsOperand c g e then (accessed c g e).offsets.length else tailStart c g e

/-- In front of the tail the chain makes the loads of C, and from there on C
adds a constant. -/
structure TailStarts (c : Compiler) (g : Gen) (e : Expr) (p : CPath) (res : AccessResult) : Prop where
  le : tailStart c g e ≤ res.offsets.length
  lt : p.place = true → tailStart c g e < res.offsets.length
  word : p.place = true ∨ loadsOperand c g e = false → placed c e = true →
    ∃ d, ∀ m w, p.word m w = follow m (res.offsets.take (tailStart c g e)) w + d

namespace TailStarts

theorem operand_le (h : TailStarts c g e p res) (hpath : Path c g e p res) :
    operandStart c g e ≤ res.offsets.length := by
  unfold operandStart
  split
  · rw [hpath.accepts.accessed_eq]
  · exact h.le

/-- The value of an operand. -/
theorem operand (h : TailStarts c g e p res) (hpath : Path c g e p res) (hplaced : placed c e = true)
    (hload : loadsAddress c e = false) :
    ∃ d, ∀ m w, p.value m w = follow m (res.offsets.take (operandStart c g e)) w + d := by
  unfold operandStart
  cases hloads : loadsOperand c g e with
  | true =>
    -- all steps so far end with the load
    refine ⟨0, fun m w => ?_⟩
    rw [if_pos rfl, hpath.accepts.accessed_eq, List.take_length, add_zero,
      hpath.tracks.loaded hpath.accepts.path hplaced hload]
  | false =>
    obtain ⟨d, hd⟩ := h.word (.inr hloads) hplaced
    refine ⟨d, fun m w => ?_⟩
    have hvalue : p.value m w = p.word m w := by
      unfold CPath.value
      cases hp : p.place with
      | false => rfl
      | true =>
        have hdecays := hpath.loadsOperand_place hp
        rw [hloads] at hdecays
        rw [← hdecays]
        rfl
    rw [hvalue, hd]
    rfl

/-- A step behind the chain of its operand, whose value it uses. -/
theorem append {os : List AccessOffset} (h : TailStarts c g left p₀ res₀) (hleft : Path c g left p₀ res₀)
    (hstart : tailStart c g e = operandStart c g left)
    (hplaced : placed c e = (placed c left && !loadsAddress c left)) (hoffs : res.offsets = res₀.offsets ++ os)
    (hplace : p.place = true → os ≠ []) (hword : ∃ d, ∀ m w, p.word m w = p₀.value m w + d) :
    TailStarts c g e p res := by
  have hle := h.operand_le hleft
  refine ⟨?_, fun hp => ?_, fun _ hpl => ?_⟩
  · rw [hstart, hoffs, List.length_append]
    omega
  · have hpos := List.length_pos_iff.mpr (hplace hp)
    rw [hstart, hoffs, List.length_append]
    omega
  · rw [hplaced, Bool.and_eq_true, Bool.not_eq_true'] at hpl
    obtain ⟨d, hd⟩ := hword
    obtain ⟨d₀, hd₀⟩ := h.operand hleft hpl.1 hpl.2
    refine ⟨d₀ + d, fun m w => ?_⟩
    rw [hd, hd₀, hstart, hoffs, List.take_append_of_le_length hle, BitVec.add_assoc]

/-- A step that changes the last one of a place. -/
theorem change {pre : List AccessOffset} {o o' : AccessOffset} (h : TailStarts c g left p₀ res₀)
    (hp₀ : p₀.place = true) (hstart : tailStart c g e = tailStart c g left) (hplaced : placed c e = placed c left)
    (hoffs₀ : res₀.offsets = pre ++ [o]) (hoffs : res.offsets = pre ++ [o'])
    (hword : ∃ d, ∀ m w, p.word m w = p₀.word m w + d) : TailStarts c g e p res := by
  have hlen : res.offsets.length = res₀.offsets.length := by
    rw [hoffs, hoffs₀, List.length_append, List.length_append]
    rfl
  have hlt := h.lt hp₀
  have hpre : tailStart c g left ≤ pre.length := by
    rw [hoffs₀, List.length_append] at hlt
    exact Nat.le_of_lt_succ hlt
  refine ⟨by rw [hstart, hlen]; exact h.le, fun _ => by rw [hstart, hlen]; exact hlt, fun _ hpl => ?_⟩
  obtain ⟨d, hd⟩ := hword
  obtain ⟨d₀, hd₀⟩ := h.word (.inl hp₀) (hplaced ▸ hpl)
  refine ⟨d₀ + d, fun m w => ?_⟩
  rw [hd, hd₀, hstart, hoffs, hoffs₀, List.take_append_of_le_length hpre, List.take_append_of_le_length hpre,
    BitVec.add_assoc]

theorem step_arrow {text : String} (h : TailStarts c g left p₀ res₀) (hleft : Path c g left p₀ res₀)
    (hc : p₀.arrow c.heap text = some p) (hgo : accessMember c.heap left.text text res₀ = .ok res) :
    TailStarts c g (.arrow left text) p res := by
  obtain ⟨target, htarget, hmember⟩ := Option.bind_eq_some_iff.mp hc
  obtain ⟨-, hptr⟩ | ⟨-, hptr, harray, -⟩ := hleft.tracks.pointee hleft.accepts.path htarget
  · obtain ⟨member, offset, -, -, o, hend, -⟩ := accessMember_arrow hptr hgo
    refine h.append hleft ?_ rfl hend.offsets (fun _ => List.cons_ne_nil _ _) (CPath.word_member hmember)
    rw [tailStart, operandStart, hleft.accepts.accessed_eq, hptr]
    rfl
  · -- an array has no members
    exact absurd hgo (accessMember_array hptr harray)

theorem step_dot {text : String} (h : TailStarts c g left p₀ res₀) (hleft : Path c g left p₀ res₀)
    (hc : p₀.dot c.heap text = some p) (hgo : accessMember c.heap left.text text res₀ = .ok res) :
    TailStarts c g (.dot left text) p res := by
  obtain ⟨hp, found, offset, hfind, rfl⟩ := CPath.dot_inv hc
  obtain ⟨htype, pre, o, hend, -⟩ := hleft.tracks.place hp
  have hnone : pointerTarget? res₀.btf = none := htype ▸ (findMember_ok hfind).1
  obtain ⟨-, -, -, -, o', hend', -⟩ := accessMember_dot hnone hend hgo
  refine h.change hp ?_ rfl hend.offsets hend'.offsets ⟨_, fun _ _ => rfl⟩
  rw [tailStart, hleft.accepts.accessed_eq, hnone]
  rfl

theorem step_addr (h : TailStarts c g left p₀ res₀) (hleft : Path c g left p₀ res₀)
    (hc : p₀.addr = some p) (hgo : accessAddr left.text res₀ = .ok res) :
    TailStarts c g (.un .addr left) p res := by
  obtain ⟨-, rfl⟩ := accessAddr_ok hgo
  obtain ⟨-, hword, hp⟩ := CPath.place_addr hc
  obtain ⟨-, pre, o, hend, -⟩ := hleft.tracks.place hp
  have hoffs := (hend.modifyLast fun o => { o with address := true, btf := .pointer res₀.btf }).offsets
  exact h.change hp rfl rfl hend.offsets hoffs ⟨0, fun m w => by rw [hword, add_zero]⟩

theorem step_cast (h : TailStarts c g left p₀ res₀) (hleft : Path c g left p₀ res₀)
    {type : CType} {t : BtfType} (hc : p₀.cast t = some p) (hgo : accessCast c type res₀ = .ok res) :
    TailStarts c g (.cast type left) p res := by
  obtain ⟨hplace, hword⟩ := CPath.place_cast hc
  obtain ⟨t', -, rfl⟩ := accessCast_ok hgo
  refine ⟨?_, fun hp => ?_, fun hval hplaced => ?_⟩
  · rw [tailStart]
    simpa [AccessResult.modifyLast] using h.le
  · rw [hplace] at hp
    cases hp
  · rw [hplace] at hval
    simp only [placed, Bool.and_eq_true, Bool.not_eq_true'] at hplaced
    obtain ⟨d, hd⟩ := h.operand hleft hplaced.1.1 hplaced.1.2
    have hloads : loadsOperand c g left = false := by simpa [loadsOperand] using hval
    refine ⟨d, fun m w => ?_⟩
    rw [hword, CPath.converted_eq hleft.accepts.path hplaced.2, hd, operandStart, hloads]
    simp only [AccessResult.modifyLast, List.take_modify, follow_modify_btf]
    rfl

theorem step_shift {n : Word} (h : TailStarts c g left p₀ res₀) (hleft : Path c g left p₀ res₀)
    (hpart : left.Shifted e) (hplaced : placed c e = (placed c left && !loadsAddress c left))
    (hc : p₀.shift c.heap n = some p)
    (hgo : n = 0 ∧ res = res₀ ∨ ∃ what kind, accessShift c.heap what kind n res₀ = .ok res) :
    TailStarts c g e p res := by
  obtain ⟨hplace, hword⟩ := CPath.place_shift hc
  have hstart : tailStart c g e = operandStart c g left := by
    cases hpart with
    | addLeft hl => rw [tailStart, hl, operandStart]
    | addRight hl => rw [tailStart, hl, operandStart]
    | sub => rw [tailStart, operandStart]
  have hnone (hp : p.place = true) (os : List AccessOffset) : os ≠ [] := by
    rw [hplace] at hp
    cases hp
  obtain ⟨-, rfl⟩ | ⟨what, kind, hgo⟩ := hgo
  · exact h.append hleft hstart hplaced (List.append_nil _).symm (fun hp => hnone hp _) hword
  · obtain ⟨o, -, rfl⟩ := accessShift_ok hgo
    exact h.append hleft hstart hplaced (show _ = res₀.offsets ++ [o] from rfl) (fun hp => hnone hp _) hword

end TailStarts

/-- **The tail starts behind the last load of C**, by one case for each
step. -/
theorem Path.tailStarts (h : Path c g e p res) : TailStarts c g e p res := by
  induction h with
  | @name text p res h =>
    obtain ⟨idx, -, rfl⟩ := Option.map_eq_some_iff.mp h.path
    exact ⟨Nat.zero_le _, nofun, fun _ _ => ⟨0, fun _ _ => (add_zero _).symm⟩⟩
  | @paren left p res h hleft ih => exact ⟨ih.le, ih.lt, ih.word⟩
  | step h hleft hstep ih =>
    cases hstep with
    | arrow hc hgo => exact ih.step_arrow hleft hc hgo
    | dot hc hgo => exact ih.step_dot hleft hc hgo
    | @index left text n p₀ p res₀ res hn hc hgo =>
      obtain ⟨o, -, hres⟩ := accessIndex_ok hgo
      exact ih.append hleft rfl rfl (by rw [hres]; rfl) (fun _ => List.cons_ne_nil o []) (CPath.word_index hc)
    | indir hc hgo =>
      obtain ⟨o, -, -, -, hres⟩ := accessIndir_inv hgo
      exact ih.append hleft rfl rfl (by rw [hres]; rfl) (fun _ => List.cons_ne_nil o [])
        ⟨0, fun m w => by rw [CPath.word_indir hc, add_zero]⟩
    | addr hc hgo => exact ih.step_addr hleft hc hgo
    | cast _ hc hgo => exact ih.step_cast hleft hc hgo
    | shift hpart hplaced _ hc hgo => exact ih.step_shift hleft hpart hplaced hc hgo

/-- **The place behind the tail.** What C adds behind its last load is a
constant: the place that an access stands for, or the address that it is, is
as far from the word the steps in front of the tail lead to in every
memory. -/
theorem exists_displacement (hpath : cPath c e = some p) (hacc : accessMemory c e g = .ok (res, g'))
    (hplaced : placed c e = true) (hword : p.place = true ∨ loadsOperand c g e = false) :
    ∃ d, ∀ m w, p.word m w = follow m (res.offsets.take (tailStart c g e)) w + d :=
  (path_of_ok hpath hacc).2.tailStarts.word hword hplaced

end Tails

/-! ### What the register holds -/

section Results

variable {c : Compiler} {heap : Heap} {e : Expr} {res : AccessResult} {last : AccessOffset} {t : BtfType} {v : EvalValue}
  {tail : List AccessOffset} {member : Member} {g g₀ g' : Gen} {size : Nat}

theorem keptSem_plain {mem : Option Member} (hplain : isMemberBitfield mem = false) (w : Word) :
    keptSem heap t mem w = adjustSem heap t w := by
  unfold keptSem
  cases mem with
  | none => rfl
  | some m => rw [hplain]; rfl

/-- The type is cut or it is not. -/
theorem adjustSem_cases (heap : Heap) (t : BtfType) :
    (∃ k, (k = 1 ∨ k = 2 ∨ k = 4) ∧ sizeof heap t = some k ∧ ∀ w, (adjustSem heap t w).toNat = w.toNat % 2 ^ (8 * k)) ∨
    (sizeof heap t ≠ some 1 ∧ sizeof heap t ≠ some 2 ∧ sizeof heap t ≠ some 4) ∧ ∀ w, adjustSem heap t w = w := by
  by_cases hcut : ∃ k, (k = 1 ∨ k = 2 ∨ k = 4) ∧ sizeof heap t = some k
  · obtain ⟨k, hk, hsize⟩ := hcut
    exact .inl ⟨k, hk, hsize, toNat_adjustSem hsize (by omega)⟩
  · have h1 : sizeof heap t ≠ some 1 := fun h => hcut ⟨1, .inl rfl, h⟩
    have h2 : sizeof heap t ≠ some 2 := fun h => hcut ⟨2, .inr (.inl rfl), h⟩
    have h4 : sizeof heap t ≠ some 4 := fun h => hcut ⟨4, .inr (.inr rfl), h⟩
    refine .inr ⟨⟨h1, h2, h4⟩, fun w => ?_⟩
    unfold adjustSem
    split <;> simp_all

/-- A bitfield: the bits behind the last load. -/
theorem endsIn_bitfield (hmem : res.mem = some member) (hpos : 0 < member.bitfieldSize)
    (hfit : member.offset % 8 + member.bitfieldSize ≤ 64) (reg : Reg) :
    EndsIn c [last] ((keepCode c.heap res.btf res.mem reg).map (↑)) reg (memberBits member) ↔
      ∃ size, LoadsAt c last size ∧
        (member.bitfieldSize < 32 ∧ member.offset % 8 + member.bitfieldSize ≤ 8 * size ∨
          32 ≤ member.bitfieldSize ∧ member.offset % 8 + member.bitfieldSize = 8 * size) := by
  have hkept (w : Word) : (keptSem c.heap res.btf res.mem w).toNat = w.toNat / 2 ^ (member.offset % 8)
      % 2 ^ (if 32 ≤ member.bitfieldSize then 64 else member.bitfieldSize) := by
    have hbit : keptSem c.heap res.btf res.mem w = bitfieldSem member w := by
      simp [keptSem, hmem, isMemberBitfield, Nat.pos_iff_ne_zero.mp hpos]
    rw [hbit, toNat_bitfieldSem (by omega)]
    split
    · exact (Nat.mod_eq_of_lt (lt_of_le_of_lt (Nat.div_le_self _ _) w.isLt)).symm
    · rfl
  have hwidth (m : Word → Byte) (a : Word) :
      memNat m a 8 / 2 ^ (member.offset % 8) % 2 ^ member.bitfieldSize < 2 ^ 64 :=
    lt_of_lt_of_le (Nat.mod_lt _ (Nat.two_pow_pos _)) (Nat.pow_le_pow_right (by omega) (by omega))
  rw [endsIn_keepCode]
  simp only [chainSem_last, Except.ok.injEq, exists_eq_left', total_last]
  simp only [← BitVec.toNat_inj, memberBits, BitVec.toNat_ofNat, Nat.mod_eq_of_lt (hwidth _ _)]
  rw [keeps_iff (Nat.mod_lt _ (by omega)) hpos hfit hkept]
  refine exists_congr fun size => and_congr_right fun hloads => ?_
  obtain ⟨load, -, rfl, -⟩ := (@loadsAt_iff c last size true).mp hloads
  have hbytes : load.bytes ≤ 8 := by cases load <;> simp [Size.bytes]
  split <;> omega

/-- **A bitfield** is left in the register, whatever the memory holds, if
and only if the last load comes from its place and is wide enough, and for
one of 32 bits or more ends with its last bit. -/
theorem bitfield_iff (hacc : e.isAccess) (hres : accessMemory c e g = .ok (res, g₀)) (hmem : res.mem = some member)
    (hpos : 0 < member.bitfieldSize) (hfit : member.offset % 8 + member.bitfieldSize ≤ 64)
    (h : eval c e g = .ok (v, g')) :
    v.typ = .regBtf ∧ ∃ last g₁ frag, res.offsets.getLast? = some last ∧ ReadsChain c res g₀ g₁ v.reg ∧
      g'.insns = g₁.insns ++ frag ∧
      (EndsIn c [last] frag v.reg (memberBits member) ↔ ∃ size, LoadsAt c last size ∧
        (member.bitfieldSize < 32 ∧ member.offset % 8 + member.bitfieldSize ≤ 8 * size ∨
          32 ≤ member.bitfieldSize ∧ member.offset % 8 + member.bitfieldSize = 8 * size)) := by
  have hlast := List.getLast?_eq_some_getLast (access_root hacc hres).1
  obtain ⟨hv, g₁, hchain, hins⟩ := eval_access_code hacc hres h
  exact ⟨hv, _, g₁, _, hlast, hchain, hins, endsIn_bitfield hmem hpos hfit v.reg⟩

end Results

/-! ### Examples -/

/-- `struct item { u64 key : 40; u64 kind : 3; char tag[4]; u32 len; }`. -/
def itemHeap : Heap := fun _ =>
  { size := 16
    findMember := fun name =>
      if name = "key" then some (⟨"key", .int "u64" 8 .unsigned, 0, 40⟩, 0)
      else if name = "kind" then some (⟨"kind", .int "u64" 8 .unsigned, 40, 3⟩, 5)
      else if name = "tag" then some (⟨"tag", .array (.int "char" 1 .signed) 4, 64, 0⟩, 8)
      else if name = "len" then some (⟨"len", .int "u32" 4 .unsigned, 96, 0⟩, 12)
      else none }

/-- The parameter `struct item *p`. -/
def itemCompiler : Compiler :=
  { Compiler.empty .probeRead with
    heap := itemHeap
    vars := ["p"]
    btfs := [.pointer (.struct "item" 0)] }

def keyMember : Member := ⟨"key", .int "u64" 8 .unsigned, 0, 40⟩

/-- `p->key` is left with the 24 bits behind it. -/
theorem wide_bitfield_not_cut : ∃ res g₀ v g' last g₁ frag,
    accessMemory itemCompiler (.arrow (.name "p") "key") noCode = .ok (res, g₀) ∧ res.mem = some keyMember ∧
      eval itemCompiler (.arrow (.name "p") "key") noCode = .ok (v, g') ∧ res.offsets.getLast? = some last ∧
      ReadsChain itemCompiler res g₀ g₁ v.reg ∧ g'.insns = g₁.insns ++ frag ∧
      ¬ EndsIn itemCompiler [last] frag v.reg (memberBits keyMember) := by
  have hok : (eval itemCompiler (.arrow (.name "p") "key") noCode).isOk = true := by rfl
  cases heval : eval itemCompiler (.arrow (.name "p") "key") noCode with
  | error e => simp [heval, Except.isOk, Except.toBool] at hok
  | ok p =>
    obtain ⟨-, g₁, hchain, hins⟩ := eval_access_code rfl rfl heval
    refine ⟨_, _, p.1, p.2, _, g₁, _, rfl, rfl, rfl, rfl, hchain, hins, ?_⟩
    rw [endsIn_bitfield (show _ = some keyMember from rfl) (by decide) (by decide)]
    rintro ⟨size, hloads, hcase⟩
    obtain rfl : size = 8 := hloads.2.2
    exact absurd hcase (by decide)

/-- `p->kind`. -/
theorem narrow_bitfield : ∃ res g₀ v g',
    accessMemory itemCompiler (.arrow (.name "p") "kind") noCode = .ok (res, g₀) ∧
      eval itemCompiler (.arrow (.name "p") "kind") noCode = .ok (v, g') ∧
      v.typ = .regBtf ∧ ∃ last g₁ frag, res.offsets.getLast? = some last ∧ ReadsChain itemCompiler res g₀ g₁ v.reg ∧
        g'.insns = g₁.insns ++ frag ∧
        (EndsIn itemCompiler [last] frag v.reg (memberBits ⟨"kind", .int "u64" 8 .unsigned, 40, 3⟩) ↔
          ∃ size, LoadsAt itemCompiler last size ∧ (3 < 32 ∧ 40 % 8 + 3 ≤ 8 * size ∨ 32 ≤ 3 ∧ 40 % 8 + 3 = 8 * size)) := by
  have hok : (eval itemCompiler (.arrow (.name "p") "kind") noCode).isOk = true := by rfl
  cases heval : eval itemCompiler (.arrow (.name "p") "kind") noCode with
  | error e => simp [heval, Except.isOk, Except.toBool] at hok
  | ok p => exact ⟨_, _, p.1, p.2, rfl, rfl, bitfield_iff rfl rfl rfl (by decide) (by decide) heval⟩

end Bpfsnoop.CC
