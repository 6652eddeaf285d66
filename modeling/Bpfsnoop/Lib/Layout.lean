/-
Bpfsnoop.Lib.Layout — structs in memory.

A struct is a list of fields, each at the next multiple of its alignment
behind the one before. Writing all the fields of a struct into any memory and
reading one of them gives what was written (`get_put`), also where another
declaration with the same places is read (`get_put_of_places`). Integers are
stored by their bytes, the low one first (`uint_bytes`).
-/
import Mathlib.Data.List.Basic
import Mathlib.Algebra.Group.Nat.Defs

namespace Bpfsnoop.Lib

/-! ## Pieces of memory -/

section Memory

variable {β : Type} {buf v : List β} {off off' n : Nat}

/-- `v`, stored at `off`. -/
def store (buf : List β) (off : Nat) (v : List β) : List β := buf.take off ++ v ++ buf.drop (off + v.length)

/-- The `n` bytes at `off`. -/
def load (buf : List β) (off n : Nat) : List β := (buf.drop off).take n

theorem length_store (h : off + v.length ≤ buf.length) : (store buf off v).length = buf.length := by
  simp only [store, List.length_append, List.length_take, List.length_drop]
  omega

theorem getElem?_load (buf : List β) (off n i : Nat) :
    (load buf off n)[i]? = if i < n then buf[off + i]? else none := by
  rw [load, List.getElem?_take, List.getElem?_drop]

theorem getElem?_store (h : off + v.length ≤ buf.length) (i : Nat) :
    (store buf off v)[i]? = if off ≤ i ∧ i < off + v.length then v[i - off]? else buf[i]? := by
  have hlen : (buf.take off).length = off := by rw [List.length_take]; omega
  rw [store, List.append_assoc, List.getElem?_append, hlen, List.getElem?_append, List.getElem?_take,
    List.getElem?_drop]
  by_cases hbefore : i < off
  · simp [hbefore, Nat.not_le.mpr hbefore]
  · by_cases hin : i < off + v.length
    · rw [if_neg hbefore, if_pos (by omega), if_pos (by omega)]
    · rw [if_neg hbefore, if_neg (by omega), if_neg (by omega), show off + v.length + (i - off - v.length) = i by omega]

/-- What was stored is loaded. -/
theorem load_store (h : off + v.length ≤ buf.length) : load (store buf off v) off v.length = v := by
  apply List.ext_getElem?
  intro i
  rw [getElem?_load, getElem?_store h]
  by_cases hi : i < v.length
  · rw [if_pos hi, if_pos (by omega), Nat.add_sub_cancel_left]
  · rw [if_neg hi, List.getElem?_eq_none (by omega)]

theorem length_load (h : off + n ≤ buf.length) : (load buf off n).length = n := by
  rw [load, List.length_take, List.length_drop]
  omega

/-- A store leaves the memory beside it. -/
theorem load_store_of_apart (h : off + v.length ≤ buf.length) (hapart : off + v.length ≤ off' ∨ off' + n ≤ off) :
    load (store buf off v) off' n = load buf off' n := by
  apply List.ext_getElem?
  intro i
  rw [getElem?_load, getElem?_load, getElem?_store h]
  by_cases hi : i < n
  · rw [if_pos hi, if_pos hi, if_neg (by omega)]
  · rw [if_neg hi, if_neg hi]

/-- A store behind `pre`. -/
theorem store_append (pre rest v : List β) (hoff : pre.length = off) :
    store (pre ++ rest) off v = pre ++ v ++ rest.drop v.length := by
  rw [store, List.take_left' hoff, List.drop_append, List.drop_eq_nil_of_le (by omega), List.nil_append, hoff,
    Nat.add_sub_cancel_left]

/-- The `n` bytes at `off`, rewritten in place. -/
def rewrite (buf : List β) (off n : Nat) (write : List β → List β) : List β := store buf off (write (load buf off n))

/-- Only the bytes behind `pre` are rewritten. -/
theorem rewrite_append {pre old rest : List β} {write : List β → List β} (hoff : pre.length = off)
    (hold : old.length = n) (hwrite : (write old).length = n) :
    rewrite (pre ++ (old ++ rest)) off n write = pre ++ write old ++ rest := by
  have hload : load (pre ++ (old ++ rest)) off n = old := by
    rw [load, List.drop_left' hoff, List.take_left' hold]
  rw [rewrite, hload, store_append _ _ _ hoff, hwrite, List.drop_left' hold]

theorem rewrite_last {pre old : List β} {write : List β → List β} (hoff : pre.length = off) (hold : old.length = n)
    (hwrite : (write old).length = n) : rewrite (pre ++ old) off n write = pre ++ write old := by
  have hnil := @rewrite_append _ off n pre old [] _ hoff hold hwrite
  rw [List.append_nil, List.append_nil] at hnil
  exact hnil

theorem load_take {k : Nat} (h : off + n ≤ k) : load (buf.take k) off n = load buf off n := by
  rw [load, load, List.drop_take, List.take_take, Nat.min_eq_left (by omega)]

end Memory

/-! ## Structs -/

structure Field where
  name : String
  size : Nat
  align : Nat
  deriving DecidableEq

abbrev Layout := List Field

namespace Layout

variable {β : Type}

/-- The next multiple of `a` from `n` on. -/
def alignUp (n a : Nat) : Nat := (n + a - 1) / a * a

theorem le_alignUp {n a : Nat} (ha : 0 < a) : n ≤ alignUp n a := by
  have hdiv := Nat.div_add_mod (n + a - 1) a
  have hmod := Nat.mod_lt (n + a - 1) ha
  rw [Nat.mul_comm] at hdiv
  unfold alignUp
  omega

/-- The places of fields behind `n` bytes: where each begins, and its size. -/
def placesFrom : Nat → Layout → List (Nat × Nat)
  | _, [] => []
  | n, f :: fs => (alignUp n f.align, f.size) :: placesFrom (alignUp n f.align + f.size) fs

/-- The places of the fields. -/
def places (L : Layout) : List (Nat × Nat) := placesFrom 0 L

/-- Where the fields end that begin behind `n` bytes. -/
def endFrom : Nat → Layout → Nat
  | n, [] => n
  | n, f :: fs => endFrom (alignUp n f.align + f.size) fs

/-- The alignment of a struct. -/
def align (L : Layout) : Nat := L.foldr (fun f a => max f.align a) 1

/-- The size of a struct. -/
def sizeOf (L : Layout) : Nat := alignUp (endFrom 0 L) L.align

/-- No alignment is 0. -/
def Aligned (L : Layout) : Prop := ∀ f ∈ L, 0 < f.align

instance (L : Layout) : Decidable L.Aligned := inferInstanceAs (Decidable (∀ f ∈ L, 0 < f.align))

/-- `vals`, stored at the places. -/
def putAt : List (Nat × Nat) → List (List β) → List β → List β
  | p :: ps, v :: vs, buf => putAt ps vs (store buf p.1 v)
  | _, _, buf => buf

/-- All the fields of a struct are written. -/
def put (L : Layout) (vals : List (List β)) (buf : List β) : List β := putAt L.places vals buf

/-- The field `i` of a struct is read. -/
def get (L : Layout) (i : Nat) (buf : List β) : List β :=
  match L.places[i]? with
  | some p => load buf p.1 p.2
  | none => []

/-- The values have the sizes of the fields. -/
def Fits (L : Layout) (vals : List (List β)) : Prop := vals.map List.length = L.map (·.size)

/-! ## Places -/

section Places

variable {L L' : Layout} {n i : Nat} {p : Nat × Nat} {ps : List (Nat × Nat)} {vals : List (List β)} {v buf : List β}

theorem length_places (n : Nat) (L : Layout) : (placesFrom n L).map (·.2) = L.map (·.size) := by
  induction L generalizing n with
  | nil => rfl
  | cons f fs ih => rw [placesFrom, List.map_cons, List.map_cons, ih]

theorem le_endFrom (hL : L.Aligned) : n ≤ endFrom n L := by
  induction L generalizing n with
  | nil => exact Nat.le_refl n
  | cons f fs ih =>
    have hf := le_alignUp (n := n) (hL f List.mem_cons_self)
    have hrest := ih (n := alignUp n f.align + f.size) fun g hg => hL g (List.mem_cons_of_mem _ hg)
    rw [endFrom]
    omega

/-- A field lies between the fields before and the end. -/
theorem mem_placesFrom (hL : L.Aligned) (hp : p ∈ placesFrom n L) : n ≤ p.1 ∧ p.1 + p.2 ≤ endFrom n L := by
  induction L generalizing n with
  | nil => cases hp
  | cons f fs ih =>
    have hfs : Aligned fs := fun g hg => hL g (List.mem_cons_of_mem _ hg)
    have hf := le_alignUp (n := n) (hL f List.mem_cons_self)
    rcases List.mem_cons.mp hp with rfl | hp
    · exact ⟨hf, le_endFrom hfs⟩
    · obtain ⟨hlow, hhigh⟩ := ih hfs hp
      exact ⟨by omega, hhigh⟩

/-- Fields lie one behind the other. -/
def Apart (ps : List (Nat × Nat)) : Prop := ps.Pairwise fun p q => p.1 + p.2 ≤ q.1

theorem apart_placesFrom (hL : L.Aligned) (n : Nat) : Apart (placesFrom n L) := by
  induction L generalizing n with
  | nil => exact .nil
  | cons f fs ih =>
    have hfs : Aligned fs := fun g hg => hL g (List.mem_cons_of_mem _ hg)
    exact .cons (fun p hp => (mem_placesFrom hfs hp).1) (ih hfs _)

theorem one_le_align (L : Layout) : 0 < L.align := by
  induction L with
  | nil => exact Nat.one_pos
  | cons f fs ih => exact Nat.lt_of_lt_of_le ih (Nat.le_max_right ..)

theorem end_le_sizeOf (L : Layout) : endFrom 0 L ≤ L.sizeOf := le_alignUp (one_le_align L)

/-! ## Writing and reading -/

theorem length_putAt (hfit : vals.map List.length = ps.map (·.2)) (hin : ∀ p ∈ ps, p.1 + p.2 ≤ buf.length) :
    (putAt ps vals buf).length = buf.length := by
  induction ps generalizing vals buf with
  | nil => cases vals <;> rfl
  | cons p ps ih =>
    cases vals with
    | nil => rfl
    | cons v vs =>
      obtain ⟨hv, hvs⟩ := List.cons.inj hfit
      have hstore : (store buf p.1 v).length = buf.length := length_store (by rw [hv]; exact hin p List.mem_cons_self)
      rw [putAt, ih hvs, hstore]
      rw [hstore]
      exact fun q hq => hin q (List.mem_cons_of_mem _ hq)

/-- Memory beside the places stays. -/
theorem load_putAt_of_apart (off k : Nat) (hfit : vals.map List.length = ps.map (·.2))
    (hin : ∀ p ∈ ps, p.1 + p.2 ≤ buf.length) (hapart : ∀ p ∈ ps, p.1 + p.2 ≤ off ∨ off + k ≤ p.1) :
    load (putAt ps vals buf) off k = load buf off k := by
  induction ps generalizing vals buf with
  | nil => cases vals <;> rfl
  | cons p ps ih =>
    cases vals with
    | nil => rfl
    | cons v vs =>
      obtain ⟨hv, hvs⟩ := List.cons.inj hfit
      have hp := hin p List.mem_cons_self
      have hstore : (store buf p.1 v).length = buf.length := length_store (by rw [hv]; exact hp)
      rw [putAt, ih hvs (fun q hq => by rw [hstore]; exact hin q (List.mem_cons_of_mem _ hq))
          fun q hq => hapart q (List.mem_cons_of_mem _ hq),
        load_store_of_apart (by rw [hv]; exact hp) (by rw [hv]; exact hapart p List.mem_cons_self)]

/-- What was written at a place is read there. -/
theorem load_putAt (hfit : vals.map List.length = ps.map (·.2)) (hin : ∀ p ∈ ps, p.1 + p.2 ≤ buf.length)
    (hapart : Apart ps) (hp : ps[i]? = some p) (hv : vals[i]? = some v) : load (putAt ps vals buf) p.1 p.2 = v := by
  induction ps generalizing vals buf i with
  | nil => cases hp
  | cons q ps ih =>
    cases vals with
    | nil => cases hv
    | cons u us =>
      obtain ⟨hu, hus⟩ := List.cons.inj hfit
      obtain ⟨hfirst, hrest⟩ := List.pairwise_cons.mp hapart
      have hq := hin q List.mem_cons_self
      have hstore : (store buf q.1 u).length = buf.length := length_store (by rw [hu]; exact hq)
      have hin' : ∀ r ∈ ps, r.1 + r.2 ≤ (store buf q.1 u).length := fun r hr => by
        rw [hstore]
        exact hin r (List.mem_cons_of_mem _ hr)
      cases i with
      | zero =>
        cases hp
        cases hv
        have hu : v.length = p.2 := hu
        rw [putAt, load_putAt_of_apart _ _ hus hin' fun r hr => .inr (hfirst r hr), ← hu,
          load_store (by rw [hu]; exact hq)]
      | succ i => exact ih hus hin' hrest hp hv

variable {vals : List (List β)} (hL : L.Aligned) (hfit : L.Fits vals) (hbuf : L.sizeOf ≤ buf.length)

include hL hbuf in
theorem places_in : ∀ p ∈ L.places, p.1 + p.2 ≤ buf.length := by
  intro p hp
  have hend := (mem_placesFrom hL hp).2
  have hsize := end_le_sizeOf L
  omega

include hfit in
theorem fits_places : vals.map List.length = L.places.map (·.2) := hfit.trans (length_places 0 L).symm

include hL hfit hbuf

theorem length_put : (put L vals buf).length = buf.length :=
  length_putAt (fits_places hfit) (places_in hL hbuf)

/-- **A field reads as it was written**, in a declaration with the same
places. -/
theorem get_put_of_places (hsame : L'.places = L.places) (hi : vals[i]? = some v) : get L' i (put L vals buf) = v := by
  have hfits := fits_places hfit
  have hlen : i < L.places.length := by
    have hlen := congrArg List.length hfits
    rw [List.length_map, List.length_map] at hlen
    rw [← hlen]
    exact (List.getElem?_eq_some_iff.mp hi).1
  have hp : L.places[i]? = some L.places[i] := List.getElem?_eq_getElem hlen
  rw [get, hsame, hp]
  exact load_putAt hfits (places_in hL hbuf) (apart_placesFrom hL 0) hp hi

theorem get_put (hi : vals[i]? = some v) : get L i (put L vals buf) = v := get_put_of_places hL hfit hbuf rfl hi

/-- The memory behind the struct stays. -/
theorem drop_put : (put L vals buf).drop L.sizeOf = buf.drop L.sizeOf := by
  have hall (b : List β) (hb : b.length = buf.length) : b.drop L.sizeOf = load b L.sizeOf (buf.length - L.sizeOf) := by
    rw [load, List.take_of_length_le (Nat.le_of_eq (by rw [List.length_drop, hb]))]
  rw [hall _ (length_put hL hfit hbuf), hall buf rfl]
  refine load_putAt_of_apart _ _ (fits_places hfit) (places_in hL hbuf) fun p hp => .inl ?_
  exact Nat.le_trans (mem_placesFrom hL hp).2 (end_le_sizeOf L)

omit hfit hbuf in
/-- Only the memory of the struct is read. -/
theorem get_congr {buf' : List β} (h : buf.take L.sizeOf = buf'.take L.sizeOf) : get L i buf = get L i buf' := by
  unfold get
  cases hp : L.places[i]? with
  | none => rfl
  | some p =>
    have hend := (mem_placesFrom hL (List.mem_of_getElem? hp)).2
    have hin : p.1 + p.2 ≤ L.sizeOf := Nat.le_trans hend (end_le_sizeOf L)
    change load buf p.1 p.2 = load buf' p.1 p.2
    rw [← load_take hin, h, load_take hin]

end Places

end Layout

/-! ## Integers -/

/-- The `n` low bytes of a number, the low one first. -/
def bytesOf : Nat → Nat → List (BitVec 8)
  | 0, _ => []
  | n + 1, x => BitVec.ofNat 8 x :: bytesOf n (x / 256)

/-- The number of bytes, the low one first. -/
def natOf : List (BitVec 8) → Nat
  | [] => 0
  | b :: bs => b.toNat + 256 * natOf bs

@[simp] theorem length_bytesOf (n x : Nat) : (bytesOf n x).length = n := by
  induction n generalizing x with
  | zero => rfl
  | succ n ih => rw [bytesOf, List.length_cons, ih]

theorem natOf_bytesOf (n x : Nat) : natOf (bytesOf n x) = x % 256 ^ n := by
  induction n generalizing x with
  | zero => simp [bytesOf, natOf, Nat.mod_one]
  | succ n ih =>
    rw [bytesOf, natOf, ih, Nat.pow_succ', Nat.mod_mul, BitVec.toNat_ofNat]

/-- An integer in memory. -/
def uintBytes {w : Nat} (x : BitVec w) : List (BitVec 8) := bytesOf (w / 8) x.toNat

/-- An integer of memory. -/
def uint (w : Nat) (bs : List (BitVec 8)) : BitVec w := BitVec.ofNat w (natOf bs)

@[simp] theorem length_uintBytes {w : Nat} (x : BitVec w) : (uintBytes x).length = w / 8 := length_bytesOf ..

/-- An integer reads as it was stored. -/
theorem uint_bytes {w : Nat} (hw : 8 * (w / 8) = w) (x : BitVec w) : uint w (uintBytes x) = x := by
  apply BitVec.eq_of_toNat_eq
  have hpow : 256 ^ (w / 8) = 2 ^ w := by
    rw [show 256 = 2 ^ 8 from rfl, ← Nat.pow_mul, hw]
  rw [uint, uintBytes, natOf_bytesOf, hpow, BitVec.toNat_ofNat, Nat.mod_mod, Nat.mod_eq_of_lt x.isLt]

end Bpfsnoop.Lib
