/-
Bpfsnoop.CC.AccessPathTheorems — the chain of an access path goes along with
the path.

`Path` takes an accepted path apart: its first steps with their results, and
the last step in C and in the code (`Stepped`). Along it `Tracks` is
preserved, one lemma for each step (`Path.tracks`): the chain leads to the
place or the value that C means as long as no operand is loaded that stands
for its address, and none is an integer that is cut.
-/
import Bpfsnoop.CC.AccessPaths
import Bpfsnoop.CC.LiveRegisters

namespace Bpfsnoop.CC

open Ebpf Btf Reg Lib

/-! ## Chains that grow -/

section Chains

variable {m : Word → Byte} {a b : List AccessOffset} {o : AccessOffset} {w : Word}

theorem follow_append : follow m (a ++ b) w = follow m b (follow m a w) := by
  induction a generalizing w with
  | nil => rfl
  | cons o a ih => exact ih

theorem follow_concat : follow m (a ++ [o]) w
    = if o.address then follow m a w + o.offset else loadLE m (follow m a w + o.offset) 8 := by
  rw [follow_append]
  rfl

/-- The types of the steps do not matter. -/
theorem follow_modify_btf (t : BtfType) (i : Nat) :
    follow m (a.modify i fun o => { o with btf := t }) w = follow m a w := by
  induction a generalizing i w with
  | nil => cases i <;> rfl
  | cons o a ih =>
    cases i with
    | zero => rfl
    | succ i => exact ih i

theorem modify_concat (f : AccessOffset → AccessOffset) : (a ++ [o]).modify a.length f = a ++ [f o] := by
  induction a with
  | nil => rfl
  | cons x a ih => simpa using ih

end Chains

/-! ## Types -/

section Types

variable {t target : BtfType} {heap : Heap} {text : String}

theorem underlying_of_pointerTarget (h : pointerTarget? t = some target) : underlyingType t = .pointer target := by
  unfold pointerTarget? at h
  split at h
  · rename_i heq
    rw [heq, Option.some.inj h]
  · simp at h

theorem pointerTarget_congr {u : BtfType} (h : underlyingType t = underlyingType u) :
    pointerTarget? t = pointerTarget? u := by
  unfold pointerTarget?
  rw [h]

theorem arrayElem_of_pointerTarget (h : pointerTarget? t = some target) : arrayElem? t = none := by
  simp [arrayElem?, underlying_of_pointerTarget h]

theorem pointerTarget_of_arrayElem (h : arrayElem? t = some target) : pointerTarget? t = none := by
  unfold arrayElem? at h
  split at h
  · rename_i heq
    simp [pointerTarget?, heq]
  · simp at h

/-- Only a struct or a union has members. -/
theorem findMember_ok {found : Member × Nat} (h : findMember heap t text = .ok found) :
    pointerTarget? t = none ∧ arrayElem? t = none ∧ isFunction t = false := by
  unfold findMember at h
  cases hagg : aggregate? t with
  | none => simp [hagg] at h
  | some ref =>
    unfold aggregate? at hagg
    unfold pointerTarget? arrayElem? isFunction
    split at hagg <;> rename_i heq <;> simp_all

theorem arrayElem_of_isFunction (h : isFunction t = true) : arrayElem? t = none := by
  unfold isFunction at h
  unfold arrayElem?
  split at h <;> rename_i heq <;> simp_all

/-- An integer is loaded. -/
theorem decays_of_integer {size : Nat} {signed : Bool} (h : integer? t = some (size, signed)) : decays t = false := by
  unfold integer? at h
  unfold decays arrayElem? isFunction
  split at h <;> rename_i heq <;> simp_all

end Types

/-! ## The steps of a path -/

/-- A number is added to an operand, or subtracted. -/
inductive Expr.Shifted : Expr → Expr → Prop
  | addLeft {left right : Expr} {text : String} (hl : left.numberText? = some text) : Shifted right (.bin .add left right)
  | addRight {left right : Expr} (hl : left.numberText? = none) : Shifted left (.bin .add left right)
  | sub {left right : Expr} : Shifted left (.bin .sub left right)

theorem Expr.Shifted.operandOf {e left : Expr} (h : left.Shifted e) : left.OperandOf e := by
  cases h with
  | addLeft => exact .binRight ..
  | addRight => exact .binLeft ..
  | sub => exact .binLeft ..

/-- A step of a path, in C and in the code. -/
inductive Stepped (c : Compiler) : Expr → Expr → CPath → CPath → AccessResult → AccessResult → Prop
  | arrow {left : Expr} {text : String} {p₀ p : CPath} {res₀ res : AccessResult}
      (hc : p₀.arrow c.heap text = some p) (hgo : accessMember c.heap left.text text res₀ = .ok res) :
      Stepped c (.arrow left text) left p₀ p res₀ res
  | dot {left : Expr} {text : String} {p₀ p : CPath} {res₀ res : AccessResult}
      (hc : p₀.dot c.heap text = some p) (hgo : accessMember c.heap left.text text res₀ = .ok res) :
      Stepped c (.dot left text) left p₀ p res₀ res
  | index {left : Expr} {text : String} {n : Word} {p₀ p : CPath} {res₀ res : AccessResult}
      (hn : parseNumber text = .ok n) (hc : p₀.index c.heap n = some p)
      (hgo : accessIndex c.heap (.number text) res₀ = .ok res) :
      Stepped c (.index left (.number text)) left p₀ p res₀ res
  | indir {left : Expr} {p₀ p : CPath} {res₀ res : AccessResult}
      (hc : p₀.indir = some p) (hgo : accessIndir res₀ = .ok res) :
      Stepped c (.un .indir left) left p₀ p res₀ res
  | addr {left : Expr} {p₀ p : CPath} {res₀ res : AccessResult}
      (hc : p₀.addr = some p) (hgo : accessAddr left.text res₀ = .ok res) :
      Stepped c (.un .addr left) left p₀ p res₀ res
  | cast {left : Expr} {type : CType} {t : BtfType} {p₀ p : CPath} {res₀ res : AccessResult}
      (ht : cc2btf c type = .ok t) (hc : p₀.cast t = some p) (hgo : accessCast c type res₀ = .ok res) :
      Stepped c (.cast type left) left p₀ p res₀ res
  | shift {e left : Expr} {n : Word} {p₀ p : CPath} {res₀ res : AccessResult}
      (hpart : left.Shifted e) (hplaced : placed c e = (placed c left && !loadsAddress c left))
      (harray : keepsArray c e = (keepsArray.isArray c left || keepsArray c left))
      (hc : p₀.shift c.heap n = some p)
      (hgo : n = 0 ∧ res = res₀ ∨ ∃ what kind, accessShift c.heap what kind n res₀ = .ok res) :
      Stepped c e left p₀ p res₀ res

/-- A path in C that the code accepts. -/
structure Accepts (c : Compiler) (g : Gen) (e : Expr) (p : CPath) (res : AccessResult) : Prop where
  path : cPath c e = some p
  access : accessMemory c e g = .ok (res, g)

inductive Path (c : Compiler) (g : Gen) : Expr → CPath → AccessResult → Prop
  | name {text : String} {p : CPath} {res : AccessResult} (h : Accepts c g (.name text) p res) :
      Path c g (.name text) p res
  | paren {left : Expr} {p : CPath} {res : AccessResult} (h : Accepts c g (.un .paren left) p res)
      (hleft : Path c g left p res) : Path c g (.un .paren left) p res
  | step {e left : Expr} {p₀ p : CPath} {res₀ res : AccessResult} (h : Accepts c g e p res)
      (hleft : Path c g left p₀ res₀) (hstep : Stepped c e left p₀ p res₀ res) : Path c g e p res

section Paths

variable {c : Compiler} {e left : Expr} {p p₀ : CPath} {res res₀ : AccessResult} {g g' : Gen}

theorem literal_eq_some {text : String} {n : Word} : literal? text = some n ↔ parseNumber text = .ok n := by
  unfold literal?
  cases parseNumber text <;> simp [Except.toOption]

theorem Path.accepts (h : Path c g e p res) : Accepts c g e p res := by
  cases h with
  | name h => exact h
  | paren h _ => exact h
  | step h _ _ => exact h

/-- An accepted path, taken apart. -/
theorem path_of_ok (hpath : cPath c e = some p) (hacc : accessMemory c e g = .ok (res, g')) :
    g' = g ∧ Path c g e p res := by
  induction e generalizing p res g' with
  | name text =>
    have hg : g' = g := by
      simp only [accessMemory, lift_eq_ok] at hacc
      exact hacc.2.symm
    subst hg
    exact ⟨rfl, .name ⟨hpath, hacc⟩⟩
  | un op left ih =>
    cases op <;> simp only [cPath, reduceCtorEq] at hpath
    case paren =>
      have hleft : accessMemory c left g = .ok (res, g') := by simpa only [accessMemory] using hacc
      obtain ⟨rfl, hleft⟩ := ih hpath hleft
      exact ⟨rfl, .paren ⟨hpath, hacc⟩ hleft⟩
    case addr =>
      have hnode := hacc
      simp only [accessMemory, bind_eq_ok, wrapping_eq_ok, lift_eq_ok] at hacc
      obtain ⟨p₀, hp₀, hc⟩ := Option.bind_eq_some_iff.mp hpath
      obtain ⟨res₀, _, hleft, hgo, rfl⟩ := hacc
      obtain ⟨rfl, hleft⟩ := ih hp₀ hleft
      exact ⟨rfl, .step ⟨hpath, hnode⟩ hleft (.addr hc hgo)⟩
    case indir =>
      have hnode := hacc
      simp only [accessMemory, bind_eq_ok, wrapping_eq_ok, lift_eq_ok] at hacc
      obtain ⟨p₀, hp₀, hc⟩ := Option.bind_eq_some_iff.mp hpath
      obtain ⟨res₀, _, hleft, hgo, rfl⟩ := hacc
      obtain ⟨rfl, hleft⟩ := ih hp₀ hleft
      exact ⟨rfl, .step ⟨hpath, hnode⟩ hleft (.indir hc hgo)⟩
  | arrow left text ih =>
    have hnode := hacc
    simp only [accessMemory, bind_eq_ok, lift_eq_ok] at hacc
    obtain ⟨p₀, hp₀, hc⟩ := Option.bind_eq_some_iff.mp hpath
    obtain ⟨res₀, _, hleft, hgo, rfl⟩ := hacc
    obtain ⟨rfl, hleft⟩ := ih hp₀ hleft
    exact ⟨rfl, .step ⟨hpath, hnode⟩ hleft (.arrow hc hgo)⟩
  | dot left text ih =>
    have hnode := hacc
    simp only [accessMemory, bind_eq_ok, lift_eq_ok] at hacc
    obtain ⟨p₀, hp₀, hc⟩ := Option.bind_eq_some_iff.mp hpath
    obtain ⟨res₀, _, hleft, hgo, rfl⟩ := hacc
    obtain ⟨rfl, hleft⟩ := ih hp₀ hleft
    exact ⟨rfl, .step ⟨hpath, hnode⟩ hleft (.dot hc hgo)⟩
  | index left right ih =>
    cases right with
    | number text =>
      have hnode := hacc
      simp only [accessMemory, bind_eq_ok, wrapping_eq_ok, lift_eq_ok] at hacc
      obtain ⟨n, hn, hpath'⟩ := Option.bind_eq_some_iff.mp hpath
      obtain ⟨p₀, hp₀, hc⟩ := Option.bind_eq_some_iff.mp hpath'
      obtain ⟨res₀, _, hleft, hgo, rfl⟩ := hacc
      obtain ⟨rfl, hleft⟩ := ih hp₀ hleft
      exact ⟨rfl, .step ⟨hpath, hnode⟩ hleft (.index (literal_eq_some.mp hn) hc hgo)⟩
    | _ => simp [cPath] at hpath
  | cast type left ih =>
    have hnode := hacc
    obtain ⟨t, ht, hpath'⟩ := Option.bind_eq_some_iff.mp hpath
    obtain ⟨p₀, hp₀, hc⟩ := Option.bind_eq_some_iff.mp hpath'
    have htype : cc2btf c type = .ok t := by
      cases hcc : cc2btf c type with
      | error e => simp [hcc, Except.toOption] at ht
      | ok t' => simpa [hcc, Except.toOption] using ht
    cases hnum : left.numberText? with
    | some text =>
      -- a number is no path
      cases left <;> simp [Expr.numberText?] at hnum
      simp [cPath] at hp₀
    | none =>
      simp only [accessMemory, hnum, bind_eq_ok, wrapping_eq_ok, lift_eq_ok] at hacc
      obtain ⟨res₀, _, hleft, hgo, rfl⟩ := hacc
      obtain ⟨rfl, hleft⟩ := ih hp₀ hleft
      exact ⟨rfl, .step ⟨hpath, hnode⟩ hleft (.cast htype hc hgo)⟩
  | bin op left right ihl ihr =>
    have hnode := hacc
    cases op <;> simp only [cPath, reduceCtorEq] at hpath
    case add =>
      have hpath₀ : cPath c (.bin .add left right) = some p := by simpa only [cPath] using hpath
      cases hl : left.numberText? with
      | some text =>
        simp only [accessMemory, hl, accessNumber, bind_eq_ok, wrapping_eq_ok, lift_eq_ok] at hacc
        rw [hl] at hpath
        obtain ⟨n, hn, hpath⟩ := Option.bind_eq_some_iff.mp hpath
        obtain ⟨p₀, hp₀, hc⟩ := Option.bind_eq_some_iff.mp hpath
        obtain ⟨num, _, ⟨hnum, rfl⟩, res₀, _, hright, hgo, rfl⟩ := hacc
        obtain rfl : n = num := Except.ok.inj ((literal_eq_some.mp hn).symm.trans hnum)
        obtain ⟨rfl, hright⟩ := ihr hp₀ hright
        refine ⟨rfl, .step ⟨hpath₀, hnode⟩ hright (.shift (n := n) (.addLeft hl) ?_ ?_ hc ?_)⟩
        · simp only [placed, hl]
        · simp only [keepsArray, hl]
        · exact (accessAdd_ok hgo).imp id fun h => ⟨_, _, h.2⟩
      | none =>
        cases hr : right.numberText? with
        | none => simp [hl, hr] at hpath
        | some text =>
          simp only [accessMemory, hl, hr, accessNumber, bind_eq_ok, wrapping_eq_ok, lift_eq_ok] at hacc
          rw [hl, hr] at hpath
          obtain ⟨n, hn, hpath⟩ := Option.bind_eq_some_iff.mp hpath
          obtain ⟨p₀, hp₀, hc⟩ := Option.bind_eq_some_iff.mp hpath
          obtain ⟨num, _, ⟨hnum, rfl⟩, res₀, _, hleft, hgo, rfl⟩ := hacc
          obtain rfl : n = num := Except.ok.inj ((literal_eq_some.mp hn).symm.trans hnum)
          obtain ⟨rfl, hleft⟩ := ihl hp₀ hleft
          refine ⟨rfl, .step ⟨hpath₀, hnode⟩ hleft (.shift (n := n) (.addRight hl) ?_ ?_ hc ?_)⟩
          · simp only [placed, hl, hr]
          · simp only [keepsArray, hl, hr]
          · exact (accessAdd_ok hgo).imp id fun h => ⟨_, _, h.2⟩
    case sub =>
      have hpath₀ : cPath c (.bin .sub left right) = some p := by simpa only [cPath] using hpath
      cases hr : right.numberText? with
      | none => simp [hr] at hpath
      | some text =>
        simp only [accessMemory, hr, accessNumber, bind_eq_ok, wrapping_eq_ok, lift_eq_ok] at hacc
        rw [hr] at hpath
        obtain ⟨n, hn, hpath⟩ := Option.bind_eq_some_iff.mp hpath
        obtain ⟨p₀, hp₀, hc⟩ := Option.bind_eq_some_iff.mp hpath
        obtain ⟨num, _, ⟨hnum, rfl⟩, res₀, _, hleft, hgo, rfl⟩ := hacc
        obtain rfl : n = num := Except.ok.inj ((literal_eq_some.mp hn).symm.trans hnum)
        obtain ⟨rfl, hleft⟩ := ihl hp₀ hleft
        exact ⟨rfl, .step ⟨hpath₀, hnode⟩ hleft
          (.shift (n := -n) .sub rfl rfl hc (.inr ⟨_, _, accessSub_ok hgo⟩))⟩
  | _ => simp [cPath] at hpath

end Paths

/-! ## Integers that are cast -/

section Integers

variable {m : Word → Byte} {a : Word}

theorem ofNat_memNat : BitVec.ofNat 64 (memNat m a 9) = loadLE m a 8 := by
  have hmod : memNat m a 9 % 256 ^ 8 = memNat m a 8 := memNat_mod (by omega)
  apply BitVec.eq_of_toNat_eq
  rw [BitVec.toNat_ofNat, toNat_loadLE le_rfl, ← hmod]
  norm_num

/-- A field that fills a word is the word. -/
theorem ofInt_fieldValue {signed : Bool} {b : Nat} (hb : 64 ≤ b) (x : Nat) :
    BitVec.ofInt 64 (fieldValue signed b x) = BitVec.ofNat 64 x := by
  obtain ⟨k, hk⟩ : (2 : Nat) ^ 64 ∣ 2 ^ b := pow_dvd_pow 2 hb
  have hmod : x % 2 ^ b % 2 ^ 64 = x % 2 ^ 64 := Nat.mod_mod_of_dvd x (pow_dvd_pow 2 hb)
  have hpow : (2 : Int) ^ b = 2 ^ 64 * k := by exact_mod_cast hk
  apply BitVec.eq_of_toNat_eq
  rw [BitVec.toNat_ofInt, BitVec.toNat_ofNat, fieldValue, hpow]
  split <;> omega

end Integers

theorem field_shift_lt {t : BtfType} {mem : Option Member} {f : Field} (h : field? t mem = some f) : f.shift < 8 := by
  obtain ⟨-, -, ⟨member, -, -, -, hshift, -⟩ | ⟨-, -, hshift, -⟩⟩ := field_cases (fun _ => ⟨0, fun _ => none⟩) h
  · omega
  · omega

/-- An integer that fills eight bytes is cast as it is loaded. -/
theorem CPath.converted_eq {c : Compiler} {e : Expr} {p : CPath} (hpath : cPath c e = some p)
    (hcut : cutsNumber c e = false) (m : Word → Byte) (w : Word) : p.converted m w = p.value m w := by
  unfold CPath.converted
  unfold cutsNumber at hcut
  rw [hpath] at hcut
  cases hp : p.place with
  | false => rfl
  | true =>
    cases hf : field? p.type p.mem with
    | none => rfl
    | some f =>
      simp only [hp, hf, Bool.not_eq_false', decide_eq_true_eq] at hcut
      obtain ⟨⟨size, signed⟩, hint, -⟩ := Option.map_eq_some_iff.mp hf
      have hload : decays p.type = false := decays_of_integer hint
      simp only [Field.value, hcut.1, pow_zero, Nat.div_one, ofInt_fieldValue hcut.2, ofNat_memNat, CPath.value, hp,
        hload, Bool.not_false, Bool.and_self, if_true]

/-! ## The chain along the path -/

/-- The result ends with the step `o` behind `pre`. -/
structure EndsWith (res : AccessResult) (pre : List AccessOffset) (o : AccessOffset) : Prop where
  offsets : res.offsets = pre ++ [o]
  last : res.lastIdx = pre.length

section Ends

variable {heap : Heap} {res res' : AccessResult} {pre : List AccessOffset} {o : AccessOffset}

theorem endsWith_addOffset : EndsWith (res.addOffset o) res.offsets o := ⟨rfl, rfl⟩

theorem EndsWith.modifyLast (h : EndsWith res pre o) (f : AccessOffset → AccessOffset) :
    EndsWith (res.modifyLast f) pre (f o) := by
  refine ⟨?_, h.last⟩
  have hoff : (res.modifyLast f).offsets = res.offsets.modify res.lastIdx.toNat f := rfl
  rw [hoff, h.offsets, h.last, Int.toNat_natCast, modify_concat]

/-- Where a member step ends. -/
theorem accessMember_ends {leftText text : String} (h : accessMember heap leftText text res = .ok res') :
    ∃ member offset, findMember heap ((pointerTarget? res.btf).getD res.btf) text = .ok (member, offset) ∧
      res'.btf = member.type ∧
      ∀ pre o, EndsWith (memberStep res member offset) pre o → ∃ o', EndsWith res' pre o' ∧ o'.offset = o.offset ∧
        o'.address = ((arrayElem? member.type).isSome || o.address) := by
  obtain ⟨member, offset, hfind, -, rfl⟩ := accessMember_inv h
  refine ⟨member, offset, hfind, ?_, fun pre o hend => ?_⟩
  · split <;> rfl
  · cases harray : (arrayElem? member.type).isSome with
    | true =>
      have hmark := hend.modifyLast fun o => { o with address := true }
      exact ⟨{ o with address := true }, ⟨hmark.offsets, hmark.last⟩, rfl, rfl⟩
    | false => exact ⟨o, ⟨hend.offsets, hend.last⟩, rfl, rfl⟩

/-- A member behind a pointer is a step of its own. -/
theorem accessMember_arrow {leftText text : String} {target : BtfType} (hptr : pointerTarget? res.btf = some target)
    (h : accessMember heap leftText text res = .ok res') :
    ∃ member offset, findMember heap target text = .ok (member, offset) ∧ res'.btf = member.type ∧
      ∃ o, EndsWith res' res.offsets o ∧ o.offset = BitVec.ofNat 64 offset ∧
        o.address = (arrayElem? member.type).isSome := by
  obtain ⟨member, offset, hfind, hbtf, hends⟩ := accessMember_ends h
  have hadd : memberStep res member offset = res.addOffset
      { offset := BitVec.ofNat 64 offset, btf := member.type, prev := some res.btf, address := false } := by
    simp only [memberStep, hptr]
  obtain ⟨o, hend, hoff, haddr⟩ := hends _ _ (hadd ▸ endsWith_addOffset)
  rw [hptr, Option.getD_some] at hfind
  exact ⟨member, offset, hfind, hbtf, o, hend, hoff, by rw [haddr, Bool.or_false]⟩

/-- A member of a place moves its last step. -/
theorem accessMember_dot {leftText text : String} (hnone : pointerTarget? res.btf = none) (hend : EndsWith res pre o)
    (h : accessMember heap leftText text res = .ok res') :
    ∃ member offset, findMember heap res.btf text = .ok (member, offset) ∧ res'.btf = member.type ∧
      ∃ o', EndsWith res' pre o' ∧ o'.offset = o.offset + BitVec.ofNat 64 offset ∧
        o'.address = ((arrayElem? member.type).isSome || o.address) := by
  obtain ⟨member, offset, hfind, hbtf, hends⟩ := accessMember_ends h
  have hmod : memberStep res member offset = res.modifyLast fun o =>
      { o with offset := o.offset + BitVec.ofNat 64 offset, btf := member.type } := by
    simp only [memberStep, hnone]
  obtain ⟨o', hend', hoff, haddr⟩ := hends _ _ (hmod ▸ hend.modifyLast _)
  rw [hnone, Option.getD_none] at hfind
  exact ⟨member, offset, hfind, hbtf, o', hend', hoff, haddr⟩

/-- An array has no members. -/
theorem accessMember_array {leftText text : String} {elem : BtfType} (hnone : pointerTarget? res.btf = none)
    (harray : arrayElem? res.btf = some elem) : accessMember heap leftText text res ≠ .ok res' := by
  intro h
  obtain ⟨member, offset, hfind, -⟩ := accessMember_ends h
  rw [hnone, Option.getD_none] at hfind
  rw [(findMember_ok hfind).2.1] at harray
  cases harray

end Ends

/-- The chain that is built so far goes along with the path. -/
structure Tracks (c : Compiler) (e : Expr) (p : CPath) (res : AccessResult) : Prop where
  param : res.idx = some p.param ∧ res.uptr = 0
  /-- The last step has come to the place. -/
  place : p.place = true → res.btf = p.type ∧ ∃ pre o, EndsWith res pre o ∧
    o.address = ((arrayElem? p.type).isSome && !e.dereferences) ∧
    (placed c e = true → ∀ m w, follow m pre w + o.offset = p.word m w)
  value : p.place = false → placed c e = true → ∀ m w, follow m res.offsets w = p.word m w
  type : p.place = false → keepsArray c e = false → underlyingType res.btf = underlyingType p.type
  kept : keepsArray c e = true → p.place = false ∧
    ∃ elem, arrayElem? res.btf = some elem ∧ isVoid elem = false ∧ p.type = .pointer elem

namespace Tracks

section

variable {c : Compiler} {e left : Expr} {p p₀ : CPath} {res res₀ : AccessResult} {target : BtfType}

/-- What is used as a value is what the chain gives. -/
theorem loaded (h : Tracks c e p res) (hpath : cPath c e = some p) (hplaced : placed c e = true)
    (hload : loadsAddress c e = false) (m : Word → Byte) (w : Word) : follow m res.offsets w = p.value m w := by
  cases hp : p.place with
  | false => simp [h.value hp hplaced, CPath.value, hp]
  | true =>
    obtain ⟨-, pre, o, hend, ho, hword⟩ := h.place hp
    simp only [loadsAddress, hpath, hp, Bool.true_and, Bool.or_eq_false_iff] at hload
    rw [hend.offsets, follow_concat, hword hplaced, ho, CPath.value, hp, decays, hload.2]
    cases harray : (arrayElem? p.type).isSome with
    | false => simp
    | true =>
      rw [harray, Bool.true_and] at hload
      simp [hload.1]

/-- What the path points to, in C and in the code: an array either way. -/
theorem pointee (h : Tracks c e p res) (hpath : cPath c e = some p) (hp : p.pointee? = some target) :
    (keepsArray.isArray c e || keepsArray c e) = false ∧ pointerTarget? res.btf = some target ∨
      (keepsArray.isArray c e || keepsArray c e) = true ∧ pointerTarget? res.btf = none ∧
        arrayElem? res.btf = some target ∧ isVoid target = false := by
  have harray : keepsArray.isArray c e = (p.place && (arrayElem? p.type).isSome) := by
    simp only [keepsArray.isArray, hpath]
  rw [harray]
  unfold CPath.pointee? at hp
  cases hkept : keepsArray c e with
  | true =>
    obtain ⟨-, elem, helem, hvoid, htype⟩ := h.kept hkept
    have hptr : pointerTarget? p.type = some elem := by rw [htype]; rfl
    rw [hptr] at hp
    obtain rfl := Option.some.inj hp
    exact .inr ⟨Bool.or_true _, pointerTarget_of_arrayElem helem, helem, hvoid⟩
  | false =>
    have hsame : pointerTarget? res.btf = pointerTarget? p.type ∧ (p.place = true → res.btf = p.type) := by
      cases hplace : p.place with
      | true => exact ⟨by rw [(h.place hplace).1], fun _ => (h.place hplace).1⟩
      | false => exact ⟨pointerTarget_congr (h.type hplace hkept), nofun⟩
    cases hptr : pointerTarget? p.type with
    | some t =>
      rw [hptr] at hp
      obtain rfl := Option.some.inj hp
      have hnone : arrayElem? p.type = none := arrayElem_of_pointerTarget hptr
      exact .inl ⟨by simp [hnone], by rw [hsame.1, hptr]⟩
    | none =>
      rw [hptr] at hp
      cases hplace : p.place with
      | false => simp [hplace] at hp
      | true =>
        simp only [hplace, if_true, Option.filter_eq_some_iff] at hp
        refine .inr ⟨by simp [hp.1], by rw [hsame.1, hptr], by rw [hsame.2 hplace, hp.1], by simpa using hp.2⟩

theorem step_arrow {text : String} (h : Tracks c left p₀ res₀) (hpath : cPath c left = some p₀)
    (hc : p₀.arrow c.heap text = some p) (hgo : accessMember c.heap left.text text res₀ = .ok res) :
    Tracks c (.arrow left text) p res := by
  obtain ⟨target, htarget, hmember⟩ := Option.bind_eq_some_iff.mp hc
  obtain ⟨-, hptr⟩ | ⟨-, hptr, harray, -⟩ := h.pointee hpath htarget
  · obtain ⟨member, offset, hfind, hbtf, o, hend, hoff, haddr⟩ := accessMember_arrow hptr hgo
    simp only [CPath.member, hfind, Option.some.injEq] at hmember
    subst hmember
    refine ⟨⟨((keepsBase_member _ _ _).base hgo).1 ▸ h.param.1, uptr_member hgo ▸ h.param.2⟩,
      fun _ => ⟨hbtf, _, o, hend, ?_, ?_⟩, nofun, nofun, nofun⟩
    · simp [haddr, Expr.dereferences]
    · intro hplaced m w
      simp only [placed, Bool.and_eq_true, Bool.not_eq_true'] at hplaced
      rw [hoff, h.loaded hpath hplaced.1 hplaced.2]
  · -- an array has no members
    exact absurd hgo (accessMember_array hptr harray)

theorem step_dot {text : String} (h : Tracks c left p₀ res₀) (hc : p₀.dot c.heap text = some p)
    (hgo : accessMember c.heap left.text text res₀ = .ok res) : Tracks c (.dot left text) p res := by
  obtain ⟨hp, member', offset', hfind', rfl⟩ := CPath.dot_inv hc
  obtain ⟨htype, pre, o, hend, ho, hword⟩ := h.place hp
  have hagg := findMember_ok hfind'
  obtain ⟨member, offset, hfind, hbtf, o', hend', hoff', haddr'⟩ := accessMember_dot (htype ▸ hagg.1) hend hgo
  rw [htype, hfind'] at hfind
  obtain ⟨rfl, rfl⟩ := Prod.mk.inj (Except.ok.inj hfind)
  refine ⟨⟨((keepsBase_member _ _ _).base hgo).1 ▸ h.param.1, uptr_member hgo ▸ h.param.2⟩,
    fun _ => ⟨hbtf, _, o', hend', ?_, ?_⟩, nofun, nofun, nofun⟩
  · simp [haddr', ho, hagg.2.1, Expr.dereferences]
  · intro hplaced m w
    simp only [placed] at hplaced
    rw [hoff', ← BitVec.add_assoc, hword hplaced]

theorem step_index {text : String} {n : Word} (h : Tracks c left p₀ res₀) (hpath : cPath c left = some p₀)
    (hn : parseNumber text = .ok n) (hc : p₀.index c.heap n = some p)
    (hgo : accessIndex c.heap (.number text) res₀ = .ok res) : Tracks c (.index left (.number text)) p res := by
  obtain ⟨target, htarget, hc⟩ := Option.bind_eq_some_iff.mp hc
  obtain ⟨o, _, n', ⟨⟩, hn', hbtf, -, hoff, ho, rfl⟩ := accessIndex_inv hgo
  obtain rfl : n = n' := Except.ok.inj (hn.symm.trans hn')
  have htype : o.btf = target := by
    obtain ⟨-, hptr⟩ | ⟨-, hptr, harray, -⟩ := h.pointee hpath htarget
    · rw [hptr] at hbtf
      simpa [eq_comm] using hbtf
    · rw [hptr, harray] at hbtf
      simpa [eq_comm] using hbtf
  rw [htype] at hoff
  split at hc
  · cases hc
  · obtain ⟨size, hsize, rfl⟩ := Option.map_eq_some_iff.mp hc
    refine ⟨h.param, fun _ => ⟨htype, _, o, ⟨rfl, rfl⟩, ?_, ?_⟩, nofun, nofun, nofun⟩
    · simp [ho, Expr.dereferences]
    · intro hplaced m w
      simp only [placed, Bool.and_eq_true, Bool.not_eq_true'] at hplaced
      rw [hoff, sizeofD, hsize, Option.getD_some, h.loaded hpath hplaced.1 hplaced.2]

theorem step_indir (h : Tracks c left p₀ res₀) (hpath : cPath c left = some p₀) (hc : p₀.indir = some p)
    (hgo : accessIndir res₀ = .ok res) : Tracks c (.un .indir left) p res := by
  obtain ⟨target, htarget, hc⟩ := Option.bind_eq_some_iff.mp hc
  obtain ⟨o, hbtf, hoff, ho, rfl⟩ := accessIndir_inv hgo
  have htype : o.btf = target := by
    obtain ⟨-, hptr⟩ | ⟨-, hptr, -⟩ := h.pointee hpath htarget <;> rw [hptr] at hbtf
    · exact (Option.some.inj hbtf).symm
    · cases hbtf
  split at hc
  · cases hc
  · obtain rfl := Option.some.inj hc
    refine ⟨h.param, fun _ => ⟨htype, _, o, ⟨rfl, rfl⟩, ?_, ?_⟩, nofun, nofun, nofun⟩
    · simp [ho, Expr.dereferences]
    · intro hplaced m w
      simp only [placed, Bool.and_eq_true, Bool.not_eq_true'] at hplaced
      simp [hoff, h.loaded hpath hplaced.1 hplaced.2]

theorem step_addr (h : Tracks c left p₀ res₀) (hc : p₀.addr = some p) (hgo : accessAddr left.text res₀ = .ok res) :
    Tracks c (.un .addr left) p res := by
  obtain ⟨-, rfl⟩ := accessAddr_ok hgo
  unfold CPath.addr at hc
  split at hc
  · rename_i hcond
    obtain rfl := Option.some.inj hc
    obtain ⟨htype, pre, o, hend, -, hword⟩ := h.place (Bool.and_eq_true_iff.mp hcond).1
    have hoff := (hend.modifyLast fun o => { o with address := true, btf := .pointer res₀.btf }).offsets
    refine ⟨h.param, nofun, fun _ hplaced m w => ?_, fun _ _ => by simp only [htype], nofun⟩
    simp only [placed] at hplaced
    simp only [hoff, follow_concat, if_true, hword hplaced]
  · cases hc

theorem step_cast {type : CType} {t : BtfType} (h : Tracks c left p₀ res₀) (hpath : cPath c left = some p₀)
    (ht : cc2btf c type = .ok t) (hc : p₀.cast t = some p) (hgo : accessCast c type res₀ = .ok res) :
    Tracks c (.cast type left) p res := by
  obtain ⟨t', ht', rfl⟩ := accessCast_ok hgo
  obtain rfl : t = t' := Except.ok.inj (ht.symm.trans ht')
  unfold CPath.cast at hc
  split at hc
  · obtain rfl := Option.some.inj hc
    refine ⟨h.param, nofun, fun _ hplaced m w => ?_, fun _ _ => rfl, nofun⟩
    simp only [placed, Bool.and_eq_true, Bool.not_eq_true'] at hplaced
    simp only [AccessResult.modifyLast, follow_modify_btf, h.loaded hpath hplaced.1.1 hplaced.1.2]
    exact (CPath.converted_eq hpath hplaced.2 m w).symm
  · cases hc

theorem step_shift {n : Word} (h : Tracks c left p₀ res₀) (hpath : cPath c left = some p₀)
    (hplaced : placed c e = (placed c left && !loadsAddress c left))
    (harray : keepsArray c e = (keepsArray.isArray c left || keepsArray c left))
    (hc : p₀.shift c.heap n = some p)
    (hgo : n = 0 ∧ res = res₀ ∨ ∃ what kind, accessShift c.heap what kind n res₀ = .ok res) : Tracks c e p res := by
  obtain ⟨target, htarget, hc⟩ := Option.bind_eq_some_iff.mp hc
  obtain ⟨size, hsize, rfl⟩ := Option.map_eq_some_iff.mp hc
  have hpoint := h.pointee hpath htarget
  rw [← harray] at hpoint
  -- the step leaves the type as it is, and moves by `size * n`
  have hstep : res.btf = res₀.btf ∧ res.idx = res₀.idx ∧ res.uptr = res₀.uptr ∧
      ∀ m w, follow m res.offsets w = follow m res₀.offsets w + BitVec.ofNat 64 size * n := by
    obtain ⟨rfl, rfl⟩ | ⟨what, kind, hgo⟩ := hgo
    · exact ⟨rfl, rfl, rfl, fun m w => by simp⟩
    · obtain ⟨o, target', size', htarget', hoff, ho, rfl⟩ := accessShift_inv hgo
      have hsize' : size' = size := by
        obtain ⟨-, hptr⟩ | ⟨-, hptr, helem, hvoid⟩ := hpoint <;>
          obtain ⟨hptr', hsize'⟩ | ⟨hptr', helem', hsize'⟩ := htarget' <;> rw [hptr] at hptr'
        · obtain rfl := Option.some.inj hptr'
          exact Option.some.inj (hsize'.symm.trans hsize)
        · cases hptr'
        · cases hptr'
        · obtain rfl : target = target' := Option.some.inj (helem.symm.trans helem')
          rw [hvoid] at hsize
          exact Option.some.inj (hsize'.symm.trans hsize)
      refine ⟨rfl, rfl, rfl, fun m w => ?_⟩
      have hchain : (res₀.addOffset o).offsets = res₀.offsets ++ [o] := rfl
      rw [hchain, follow_concat, ho, if_pos rfl, hoff, hsize']
  obtain ⟨hbtf, hidx, huptr, hfollow⟩ := hstep
  refine ⟨⟨hidx ▸ h.param.1, huptr ▸ h.param.2⟩, nofun, fun _ hpl m w => ?_, fun _ hkept => ?_, fun hkept => ?_⟩
  · rw [hplaced, Bool.and_eq_true, Bool.not_eq_true'] at hpl
    rw [hfollow, h.loaded hpath hpl.1 hpl.2]
  · obtain ⟨-, hptr⟩ | ⟨htrue, -⟩ := hpoint
    · rw [hbtf, underlying_of_pointerTarget hptr]
      rfl
    · rw [hkept] at htrue
      cases htrue
  · obtain ⟨hfalse, -⟩ | ⟨-, -, helem, hvoid⟩ := hpoint
    · rw [hkept] at hfalse
      cases hfalse
    · exact ⟨rfl, target, by rw [hbtf, helem], hvoid, rfl⟩

end

end Tracks

section Paths

variable {c : Compiler} {e : Expr} {p : CPath} {res : AccessResult} {g g' : Gen}

/-- **The chain goes along with the path**, by one case for each step. -/
theorem Path.tracks (h : Path c g e p res) : Tracks c e p res := by
  induction h with
  | @name text p res h =>
    obtain ⟨idx, hidx, rfl⟩ := Option.map_eq_some_iff.mp h.path
    have hres := h.access
    simp only [accessMemory, accessName, hidx, lift_eq_ok, Except.ok.injEq, and_true] at hres
    subst hres
    exact ⟨⟨rfl, rfl⟩, fun h => absurd h Bool.false_ne_true, fun _ _ _ _ => rfl, fun _ _ => rfl,
      fun h => absurd h Bool.false_ne_true⟩
  | paren _ _ ih => exact ⟨ih.param, ih.place, ih.value, ih.type, ih.kept⟩
  | step _ hleft hstep ih =>
    have hpath := hleft.accepts.path
    cases hstep with
    | arrow hc hgo => exact ih.step_arrow hpath hc hgo
    | dot hc hgo => exact ih.step_dot hc hgo
    | index hn hc hgo => exact ih.step_index hpath hn hc hgo
    | indir hc hgo => exact ih.step_indir hpath hc hgo
    | addr hc hgo => exact ih.step_addr hc hgo
    | cast ht hc hgo => exact ih.step_cast hpath ht hc hgo
    | shift _ hplaced harray hc hgo => exact ih.step_shift hpath hplaced harray hc hgo

/-- The chain of a path without one of the three slips is the one of C. -/
theorem denotes_of_sound (hpath : cPath c e = some p) (hacc : accessMemory c e g = .ok (res, g'))
    (hsound : PathSound c e) : Denotes p res := by
  have h := (path_of_ok hpath hacc).2.tracks
  refine ⟨h.param, h.loaded hpath hsound.placed hsound.value, ?_⟩
  cases hp : p.place with
  | true => rw [(h.place hp).1]
  | false => exact h.type hp hsound.type

end Paths

end Bpfsnoop.CC
