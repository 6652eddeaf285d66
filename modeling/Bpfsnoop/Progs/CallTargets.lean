/-
Bpfsnoop.Progs.CallTargets — where a call instruction goes.

A `callq` is a byte and a signed displacement of 32 bits, counted from the
next instruction. `getCalleeIP` reads the displacement as unsigned and sets
the upper half of the sum, since kernel text lies in the top 4 GiB;
`probeTailcallInfo`, which looks for the trampoline that a program calls,
leaves the sum as it is. `callTargets_iff` says when both are right.

The machine is an amd64. Of `probeTailcallInfo` the part up to the address
that it reads from is modelled.
-/
import Bpfsnoop.Progs.Tracings

namespace Bpfsnoop.Progs

open Ebpf (Word Byte)
open CC (GoError)

/-! ## Instructions -/

/-- `gapstone.Instruction`, the fields that are read. -/
structure Gapstone.Instruction where
  address : Word
  bytes : List Byte

def insnCallqPrefix : Byte := 0xe8

def insnCallqSize : Word := 5

/-- `ne.Uint32`: the first four bytes, little-endian. -/
def uint32 : List Byte → Except GoError (BitVec 32)
  | b₀ :: b₁ :: b₂ :: b₃ :: _ => .ok (b₃ ++ b₂ ++ b₁ ++ b₀)
  | _ => .error (.panic "index out of range")

/-! ## The two computations -/

/-- `getCalleeIP`; `+` and `|` bind alike. -/
def getCalleeIP (kaddr : Word) (offset : BitVec 32) : Word :=
  kaddr + insnCallqSize + offset.setWidth 64 ||| 0xFFFFFFFF00000000

/-- `getCalleeIPFromInsn`, 0 where the instruction is no call. -/
def getCalleeIPFromInsn (inst : Gapstone.Instruction) : Except GoError Word :=
  if inst.bytes.length ≠ 5 ∨ inst.bytes.head? ≠ some insnCallqPrefix then .ok 0
  else (uint32 (inst.bytes.drop 1)).map (getCalleeIP inst.address)

/-- `kaddr + 5 + uintptr(offset)`. -/
def kaddrTramp (kaddr : Word) (offset : BitVec 32) : Word := kaddr + 5 + offset.setWidth 64

/-- `probeTailcallInfo`: the address of the trampoline, where there is one. -/
def probeTailcallInfo (jitedKsyms : List Word) (jitedInsns : List Byte) : Except GoError (Option Word) :=
  if jitedInsns.length = 0 then .ok none
  else
    match jitedKsyms with
    | [] => .error (.panic "index out of range")
    | kaddr :: _ => do
      let u32 ← uint32 jitedInsns
      let jinsns := if isEndbrInsn u32 then jitedInsns.drop 4 else jitedInsns
      let kaddr := if isEndbrInsn u32 then kaddr + 4 else kaddr
      if isTailcallReachable jinsns then
        let offset ← uint32 (jinsns.drop 1)
        return some (kaddrTramp kaddr offset)
      else return none

/-! ## Calls -/

/-- Where the call at `address` goes. -/
def callTarget (address : Word) (displacement : BitVec 32) : Word := address + 5 + displacement.signExtend 64

/-- The bytes of a call. -/
def callq (displacement : BitVec 32) : List Byte :=
  insnCallqPrefix :: (List.range 4).map fun i => displacement.extractLsb' (8 * i) 8

/-- The top 4 GiB of the address space. -/
def IsKernel (address : Word) : Prop := 2 ^ 64 - 2 ^ 32 ≤ address.toNat

instance (address : Word) : Decidable (IsKernel address) := inferInstanceAs (Decidable (_ ≤ _))

/-- The program at `kaddr` begins with a call, behind an `endbr` where there
is one. -/
inductive CallsFirst : Word → List Byte → Word → BitVec 32 → Prop
  | plain (kaddr : Word) (displacement : BitVec 32) (rest : List Byte) :
    CallsFirst kaddr (callq displacement ++ rest) kaddr displacement
  | endbr (kaddr : Word) (displacement : BitVec 32) (rest : List Byte) (b₀ b₁ b₂ b₃ : Byte)
    (hendbr : isEndbrInsn (b₃ ++ b₂ ++ b₁ ++ b₀) = true) :
    CallsFirst kaddr (b₀ :: b₁ :: b₂ :: b₃ :: (callq displacement ++ rest)) (kaddr + 4) displacement

theorem uint32_callq (d : BitVec 32) (rest : List Byte) : uint32 ((callq d ++ rest).drop 1) = .ok d := by
  have hbytes : d.extractLsb' (8 * 3) 8 ++ d.extractLsb' (8 * 2) 8 ++ d.extractLsb' (8 * 1) 8
      ++ d.extractLsb' (8 * 0) 8 = d := by
    ext i hi
    simp only [BitVec.getElem_append, BitVec.getElem_extractLsb']
    grind
  exact congrArg Except.ok hbytes

/-! ## What the code finds -/

theorem getCalleeIPFromInsn_callq (address : Word) (d : BitVec 32) :
    getCalleeIPFromInsn ⟨address, callq d⟩ = .ok (getCalleeIP address d) := by
  have hread := uint32_callq d []
  rw [List.append_nil] at hread
  rw [getCalleeIPFromInsn, if_neg (by simp [callq]), hread]
  rfl

/-- The first byte of an `endbr`. -/
theorem isEndbrInsn_low {u : BitVec 32} (h : isEndbrInsn u = true) : u.setWidth 8 = 0x66 ∨ u.setWidth 8 = 0xf3 := by
  have hmask : (u &&& ~~~0x01000000).setWidth 8 = u.setWidth 8 := by
    have hones : (~~~0x01000000 : BitVec 32).setWidth 8 = BitVec.allOnes 8 := by decide
    rw [BitVec.setWidth_and, hones, BitVec.and_allOnes]
  unfold isEndbrInsn at h
  rw [decide_eq_true_iff] at h
  rcases h with hpoison | hendbr
  · left
    rw [hpoison]
    rfl
  · right
    rw [← hmask, hendbr]
    decide

/-- A call is no `endbr`. -/
theorem isEndbrInsn_callq (d : BitVec 32) (rest : List Byte) :
    ∃ u, uint32 (callq d ++ rest) = .ok u ∧ isEndbrInsn u = false := by
  refine ⟨_, rfl, ?_⟩
  by_contra h
  have hlow := isEndbrInsn_low (Bool.eq_true_of_not_eq_false h)
  rw [BitVec.setWidth_append_eq_right] at hlow
  exact absurd hlow (by decide)

/-- What the trampoline is computed from. -/
theorem probeTailcallInfo_some {kaddr tramp : Word} {ksyms : List Word} {insns : List Byte}
    (h : probeTailcallInfo (kaddr :: ksyms) insns = .ok (some tramp)) :
    ∃ u offset, uint32 insns = .ok u ∧
      uint32 ((if isEndbrInsn u then insns.drop 4 else insns).drop 1) = .ok offset ∧
      tramp = kaddrTramp (if isEndbrInsn u then kaddr + 4 else kaddr) offset := by
  unfold probeTailcallInfo at h
  split at h
  · cases h
  dsimp only [bind, Except.bind, pure, Except.pure] at h
  split at h
  · cases h
  rename_i u hread
  generalize hinsns : (if isEndbrInsn u then insns.drop 4 else insns) = jinsns at h
  generalize haddr : (if isEndbrInsn u then kaddr + 4 else kaddr) = addr at h
  split at h
  · split at h
    · cases h
    rename_i offset hoffset
    subst hinsns haddr
    exact ⟨u, offset, hread, hoffset, (Option.some.inj (Except.ok.inj h)).symm⟩
  · cases h

/-- The trampoline is looked for behind the first call. -/
theorem probeTailcallInfo_target {kaddr address tramp : Word} {ksyms : List Word} {insns : List Byte}
    {d : BitVec 32} (hcalls : CallsFirst kaddr insns address d)
    (h : probeTailcallInfo (kaddr :: ksyms) insns = .ok (some tramp)) : tramp = kaddrTramp address d := by
  obtain ⟨u, offset, hread, hoffset, rfl⟩ := probeTailcallInfo_some h
  cases hcalls with
  | plain d rest =>
    obtain ⟨u', hread', hendbr⟩ := isEndbrInsn_callq d rest
    obtain rfl : u = u' := Except.ok.inj (hread.symm.trans hread')
    rw [if_neg (by simp [hendbr]), uint32_callq] at hoffset
    rw [if_neg (by simp [hendbr]), ← Except.ok.inj hoffset]
  | endbr d rest b₀ b₁ b₂ b₃ hendbr =>
    obtain rfl : b₃ ++ b₂ ++ b₁ ++ b₀ = u := Except.ok.inj hread
    rw [if_pos hendbr, List.drop_succ_cons, List.drop_succ_cons, List.drop_succ_cons, List.drop_succ_cons,
      List.drop_zero, uint32_callq] at hoffset
    rw [if_pos hendbr, ← Except.ok.inj hoffset]

/-! ## When they are right -/

theorem setWidth_eq_signExtend_iff (d : BitVec 32) : d.setWidth 64 = d.signExtend 64 ↔ 0 ≤ d.toInt := by
  constructor
  · intro h
    have hint := congrArg BitVec.toInt h
    rw [BitVec.toInt_signExtend_of_le (by decide), BitVec.toInt_setWidth,
      Int.bmod_eq_of_le (by omega) (by omega)] at hint
    omega
  · intro h
    rw [BitVec.signExtend_eq_setWidth_of_msb_false]
    simpa [BitVec.msb_eq_toInt] using h

/-- The upper half set, only the lower half counts. -/
theorem or_upper_congr {a b : Word} (h : a.setWidth 32 = b.setWidth 32) :
    a ||| 0xFFFFFFFF00000000 = b ||| 0xFFFFFFFF00000000 := by
  have hones : ∀ k < 64, 32 ≤ k → (0xFFFFFFFF00000000 : Word).getLsbD k = true := by decide
  apply BitVec.eq_of_getLsbD_eq
  intro i hi
  rw [BitVec.getLsbD_or, BitVec.getLsbD_or]
  by_cases hlow : i < 32
  · have hbit := congrArg (fun x : BitVec 32 => x.getLsbD i) h
    simp only [BitVec.getLsbD_setWidth, hlow, decide_true, Bool.true_and] at hbit
    rw [hbit]
  · rw [hones i hi (by omega), Bool.or_true, Bool.or_true]

theorem IsKernel.or_upper {a : Word} (h : IsKernel a) : a ||| 0xFFFFFFFF00000000 = a := by
  have hsplit : a = 0xFFFFFFFF00000000 ||| BitVec.ofNat 64 (a.toNat % 2 ^ 32) := by
    have hlow : a.toNat % 2 ^ 32 < 2 ^ 32 := Nat.mod_lt _ (by decide)
    have hor := Nat.two_pow_add_eq_or_of_lt hlow (2 ^ 32 - 1)
    have ha := a.isLt
    unfold IsKernel at h
    apply BitVec.eq_of_toNat_eq
    rw [BitVec.toNat_or, BitVec.toNat_ofNat, Nat.mod_eq_of_lt (by omega)]
    exact Eq.trans (by omega) hor
  rw [hsplit, BitVec.or_comm, ← BitVec.or_assoc, BitVec.or_self]

theorem kaddrTramp_eq_iff (address : Word) (d : BitVec 32) :
    kaddrTramp address d = callTarget address d ↔ 0 ≤ d.toInt := by
  rw [← setWidth_eq_signExtend_iff, kaddrTramp, callTarget, BitVec.add_right_inj]

/-- `getCalleeIP` is right for kernel text. -/
theorem getCalleeIP_eq {address : Word} {d : BitVec 32} (htarget : IsKernel (callTarget address d)) :
    getCalleeIP address d = callTarget address d := by
  have hsigned : (d.signExtend 64).setWidth 32 = d := by
    ext k hk
    simp [BitVec.getLsbD_signExtend, hk]
    omega
  have hunsigned : (d.setWidth 64).setWidth 32 = d := by
    ext k hk
    simp
  have hlow : (address + insnCallqSize + d.setWidth 64).setWidth 32 = (callTarget address d).setWidth 32 := by
    have hle : 32 ≤ 64 := by decide
    simp only [callTarget, insnCallqSize, BitVec.setWidth_add _ _ hle, hsigned, hunsigned]
  rw [getCalleeIP, or_upper_congr hlow, htarget.or_upper]

/-- A program that begins with a call and can make tail calls. -/
theorem probeTailcallInfo_reachable (address : Word) (d : BitVec 32) (ksyms : List Word) :
    probeTailcallInfo (address :: ksyms) (callq d ++ [0x31, 0xc0, 0, 0, 0, 0, 0])
      = .ok (some (kaddrTramp address d)) := by
  obtain ⟨u, hread, hendbr⟩ := isEndbrInsn_callq d [0x31, 0xc0, 0, 0, 0, 0, 0]
  have hreach : isTailcallReachable (callq d ++ [0x31, 0xc0, 0, 0, 0, 0, 0]) = true := by
    have hfirst : isEndbrInsn (d.extractLsb' (8 * 2) 8 ++ d.extractLsb' (8 * 1) 8 ++ d.extractLsb' (8 * 0) 8
        ++ insnCallqPrefix) = false := by
      rw [← hendbr]
      exact congrArg isEndbrInsn (Except.ok.inj hread)
    unfold isTailcallReachable
    rw [if_neg (by simp [callq])]
    simp only [callq, List.range, List.range.loop, List.map_cons, List.cons_append, List.getD_cons_succ,
      List.getD_cons_zero, hfirst]
    rfl
  unfold probeTailcallInfo
  rw [if_neg (by simp [callq])]
  simp only [hread, bind, Except.bind, pure, Except.pure, hendbr, Bool.false_eq_true, if_false, hreach, if_true,
    uint32_callq]

/-- **Call targets.** Where a call goes into kernel text, `getCalleeIP` and
the address of the trampoline are its target, if and only if the displacement
is not negative. -/
theorem callTargets_iff {address : Word} {d : BitVec 32} (htarget : IsKernel (callTarget address d)) :
    (getCalleeIPFromInsn ⟨address, callq d⟩ = .ok (callTarget address d) ∧
      ∀ kaddr insns tramp ksyms, CallsFirst kaddr insns address d →
        probeTailcallInfo (kaddr :: ksyms) insns = .ok (some tramp) → tramp = callTarget address d) ↔
      0 ≤ d.toInt := by
  rw [← kaddrTramp_eq_iff address d]
  constructor
  · rintro ⟨-, htramp⟩
    exact htramp address _ _ [] (.plain address d _) (probeTailcallInfo_reachable address d [])
  · intro heq
    refine ⟨?_, ?_⟩
    · rw [getCalleeIPFromInsn_callq, getCalleeIP_eq htarget]
    · intro kaddr insns tramp ksyms hcalls hprobe
      rw [probeTailcallInfo_target hcalls hprobe, heq]

/-- A call forward. -/
theorem forward_call_found : IsKernel (callTarget 0xFFFFFFFFC0000000 0x100) ∧
    getCalleeIPFromInsn ⟨0xFFFFFFFFC0000000, callq 0x100⟩ = .ok (callTarget 0xFFFFFFFFC0000000 0x100) :=
  ⟨by decide, ((callTargets_iff (by decide)).mpr (by decide)).1⟩

/-- The trampoline of a program that calls backward is not found. -/
theorem backward_call_missed : IsKernel 0xFFFFFFFFC0000000 ∧
    IsKernel (callTarget 0xFFFFFFFFC0000000 0xFFFFFF00) ∧
    ∃ tramp, probeTailcallInfo [0xFFFFFFFFC0000000] (callq 0xFFFFFF00 ++ [0x31, 0xc0, 0, 0, 0, 0, 0])
        = .ok (some tramp) ∧
      tramp ≠ callTarget 0xFFFFFFFFC0000000 0xFFFFFF00 :=
  ⟨by decide, by decide, _, probeTailcallInfo_reachable _ _ _, by decide⟩

end Bpfsnoop.Progs
