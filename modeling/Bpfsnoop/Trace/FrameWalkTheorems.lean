/-
Bpfsnoop.Trace.FrameWalkTheorems — the two walkers agree, short of a frame.

Both walks are the same search over the frames of the stack
(`walkFrames`): the tail calls search a thousand frames, the fallback the
first `2 * max_depth`. On a stack where a trampoline follows at most every
call, the search is over by frame `2 * max_depth`; the fallback stops one
frame before it.
-/
import Bpfsnoop.Trace.FrameWalk

namespace Bpfsnoop.Trace

open Ebpf Lib

variable {σ : Type} {k : Frames σ} {trampFp : Word} {maxDepth : BitVec 32}

/-! ## The walkers are searches -/

variable (k trampFp) in
theorem callsBefore_le (n : Nat) : callsBefore k trampFp n ≤ n := by
  induction n with
  | zero => exact Nat.le_refl 0
  | succ n ih => rw [callsBefore]; split <;> omega

variable (k trampFp) in
/-- The depth does not wrap. -/
theorem toNat_depth {n : Nat} (hn : n < 2 ^ 31) :
    (BitVec.ofNat 32 (callsBefore k trampFp n) + 1#32).toNat = callsBefore k trampFp n + 1 := by
  have hcalls := callsBefore_le k trampFp n
  simp only [BitVec.toNat_add, BitVec.toNat_ofNat]
  omega

/-- The locals of the fallback after `n` tries. -/
def limitedAt (k : Frames σ) (trampFp : Word) (n : Nat) : LimitedState :=
  { fp := fpAt k trampFp n, depth := BitVec.ofNat 32 (callsBefore k trampFp n) }

theorem limitedTry_eq {n : Nat} (hn : n < 2 ^ 31) :
    limitedTry k maxDepth (limitedAt k trampFp n) =
      (exitAt k trampFp maxDepth.toNat n).elim (.ok (limitedAt k trampFp (n + 1))) .error := by
  have hdepth := toNat_depth k trampFp hn
  simp only [limitedTry, exitAt, limitedAt, sessionAt, trampolineAt, fpAt, callsBefore]
  cases k.getSession (k.frame (fpAt k trampFp n)).1 with
  | some sess => rfl
  | none =>
    by_cases htramp : k.isFgraphIp (k.frame (fpAt k trampFp n)).2 = true
    · simp [htramp]
    · by_cases hlt : maxDepth.toNat < callsBefore k trampFp n + 1
      · simp [htramp, BitVec.ult, hdepth, hlt]
      · simp [htramp, BitVec.ult, hdepth, hlt, BitVec.ofNat_add]

/-- **The fallback** searches the first `2 * maxDepth` frames. -/
theorem tryGetSessionLimited_eq (hmax : maxDepth.toNat ≤ 10) :
    tryGetSessionLimited k maxDepth trampFp = walkFrames k trampFp maxDepth.toNat (2 * maxDepth.toNat) := by
  have htries : (maxDepth * 2#32).toNat = 2 * maxDepth.toNat := by
    rw [BitVec.toNat_mul]
    have := maxDepth.isLt
    simp only [BitVec.toNat_ofNat]
    omega
  have hguard : (10#32).ult maxDepth = false := by
    simpa [BitVec.ult] using hmax
  have htry : ∀ i < 2 * maxDepth.toNat, limitedTry k maxDepth (limitedAt k trampFp i) = _ :=
    fun i hi => limitedTry_eq (by omega)
  have hloop := loop_eq_findSome (2 * maxDepth.toNat) htry
  have hstart : limitedAt k trampFp 0 = { fp := (k.frame trampFp).1, depth := 0 } := rfl
  simp only [tryGetSessionLimited, hguard, Bool.false_eq_true, if_false, ← hstart, walkFrames]
  rw [show maxDepth * 2 = maxDepth * 2#32 from rfl, htries, hloop]
  cases (List.range (2 * maxDepth.toNat)).findSome? (exitAt k trampFp maxDepth.toNat) <;> rfl

/-! ### The chunks of the tail calls -/

/-- What `try_get_session` takes from the data once the walk is over. -/
def TailcallData.result (data : TailcallData σ) : Option (σ × BitVec 32) :=
  if data.found then data.sess.map (·, data.depth) else none

/-- The walk is not over. -/
def TailcallData.Running (data : TailcallData σ) : Prop :=
  data.found = false ∧ data.ooDepth = false

theorem tailcallTry_running {data data' : TailcallData σ} (hrun : data.Running)
    (h : tailcallTry k data = .ok data') : data'.Running := by
  simp only [tailcallTry] at h
  split at h
  · cases h
  · split at h
    · cases h; exact hrun
    · split at h
      · cases h
      · cases h; exact hrun

theorem tailcallTry_over {data data' : TailcallData σ} (h : tailcallTry k data = .error data') :
    data'.found = true ∨ data'.ooDepth = true := by
  simp only [tailcallTry] at h
  split at h
  · cases h; exact .inl rfl
  · split at h
    · cases h
    · split at h
      · cases h; exact .inr rfl
      · cases h

/-- A tail call walks a hundred frames. -/
theorem tailcallRound_eq {data : TailcallData σ} (hrun : data.Running) :
    tailcallRound k data = loop (fun d => (tailcallTry k d).mapError TailcallData.result) 100 data := by
  rw [loop_mapError, tailcallRound, bpfsnoopFgraphTailcallee]
  cases hloop : loop (tailcallTry k) 100 data with
  | ok data' =>
    obtain ⟨hfound, hoo⟩ := loop_invariant (fun _ _ => tailcallTry_running) hrun hloop
    simp [hfound, hoo, Except.mapError]
  | error data' =>
    obtain ⟨_, hlast⟩ := loop_error hloop
    cases hfound : data'.found with
    | true => simp [hfound, Except.mapError, TailcallData.result]
    | false =>
      have hoo := (tailcallTry_over hlast).resolve_left (by simp [hfound])
      simp [hfound, hoo, Except.mapError, TailcallData.result]

/-- The data of the CPU after `n` frames. -/
def dataAt (k : Frames σ) (trampFp : Word) (maxDepth : BitVec 32) (n : Nat) : TailcallData σ :=
  { fp := fpAt k trampFp n, depth := BitVec.ofNat 32 (callsBefore k trampFp n), maxDepth := maxDepth }

theorem tailcallTry_eq {n : Nat} (hmax : maxDepth.toNat < 2 ^ 31) (hn : n + 1 < 2 ^ 31) :
    (tailcallTry k (dataAt k trampFp maxDepth n)).mapError TailcallData.result =
      (exitAt k trampFp maxDepth.toNat n).elim (.ok (dataAt k trampFp maxDepth (n + 1))) .error := by
  have hdepth := toNat_depth k trampFp (n := n) (by omega)
  have hslt : maxDepth.slt (BitVec.ofNat 32 (callsBefore k trampFp n) + 1#32) =
      decide (maxDepth.toNat < callsBefore k trampFp n + 1) := by
    have hcalls := callsBefore_le k trampFp n
    rw [BitVec.slt, BitVec.toInt_eq_toNat_of_lt (by omega),
      BitVec.toInt_eq_toNat_of_lt (by rw [hdepth]; omega), hdepth]
    simp only [Int.ofNat_lt]
  simp only [tailcallTry, exitAt, dataAt, sessionAt, trampolineAt, fpAt, callsBefore]
  cases k.getSession (k.frame (fpAt k trampFp n)).1 with
  | some sess => rfl
  | none =>
    by_cases htramp : k.isFgraphIp (k.frame (fpAt k trampFp n)).2 = true
    · simp [htramp, Except.mapError]
    · by_cases hlt : maxDepth.toNat < callsBefore k trampFp n + 1
      · simp [htramp, hslt, hlt, Except.mapError, TailcallData.result]
      · simp [htramp, hslt, hlt, Except.mapError, BitVec.ofNat_add]

/-- The tail calls walk a hundred frames each. -/
theorem tailcallRounds_eq (hmax : maxDepth.toNat < 2 ^ 31) {rounds : Nat} (hrounds : rounds ≤ 10) :
    loop (tailcallRound k) rounds { fp := (k.frame trampFp).1, maxDepth := maxDepth } =
      ((List.range (rounds * 100)).findSome? (exitAt k trampFp maxDepth.toNat)).elim
        (.ok (dataAt k trampFp maxDepth (rounds * 100))) .error := by
  have hrun : (dataAt k trampFp maxDepth 0).Running := ⟨rfl, rfl⟩
  have hstep : ∀ s t : TailcallData σ, s.Running →
      (tailcallTry k s).mapError TailcallData.result = .ok t → t.Running := by
    intro s t hs h
    cases htry : tailcallTry k s with
    | ok u =>
      rw [htry] at h
      cases h
      exact tailcallTry_running hs htry
    | error d => rw [htry] at h; cases h
  have hchunks := loop_chunks hstep (fun _ => tailcallRound_eq) rounds hrun
  have hsearch := @loop_eq_findSome _ _ (fun d => (tailcallTry k d).mapError TailcallData.result)
    (dataAt k trampFp maxDepth) _ (rounds * 100) fun i hi => tailcallTry_eq hmax (by omega)
  have hstart : dataAt k trampFp maxDepth 0 = { fp := (k.frame trampFp).1, maxDepth := maxDepth } := rfl
  rw [← hstart, hchunks, hsearch]

/-- **The tail calls** search the first thousand frames. -/
theorem tryGetSessionTailcall_eq (hmax : maxDepth.toNat < 2 ^ 31) :
    tryGetSessionTailcall k maxDepth trampFp = walkFrames k trampFp maxDepth.toNat 1000 := by
  rw [tryGetSessionTailcall, tailcallRounds_eq hmax (Nat.le_refl 10), walkFrames]
  cases (List.range 1000).findSome? (exitAt k trampFp maxDepth.toNat) <;> rfl

/-! ## Stacks -/

theorem callsBefore_of_call {n : Nat} (h : trampolineAt k trampFp n = false) :
    callsBefore k trampFp (n + 1) = callsBefore k trampFp n + 1 := by
  simp [callsBefore, h]

theorem callsBefore_of_trampoline {n : Nat} (h : trampolineAt k trampFp n = true) :
    callsBefore k trampFp (n + 1) = callsBefore k trampFp n := by
  simp [callsBefore, h]

/-- A walk that goes on found no session, and is within the depth. -/
theorem exitAt_eq_none {max n : Nat} : exitAt k trampFp max n = none ↔
    sessionAt k trampFp n = none ∧
      (trampolineAt k trampFp n = false → callsBefore k trampFp n + 1 ≤ max) := by
  unfold exitAt
  cases sessionAt k trampFp n with
  | some sess => simp
  | none => cases trampolineAt k trampFp n <;> simp

/-- Without a session a walk ends out of depth. -/
theorem exitAt_of_no_session {max n : Nat} {r : Option (σ × BitVec 32)}
    (hsess : sessionAt k trampFp n = none) (h : exitAt k trampFp max n = some r) : r = none := by
  simp only [exitAt, hsess] at h
  by_cases htramp : trampolineAt k trampFp n = true
  · simp [htramp] at h
  · by_cases hdepth : max < callsBefore k trampFp n + 1
    · simpa [htramp, hdepth, eq_comm] using h
    · simp [htramp, hdepth] at h

theorem callsBefore_le_of_exitAt {max n : Nat} (h : ∀ i < n, exitAt k trampFp max i = none) :
    callsBefore k trampFp n ≤ max := by
  induction n with
  | zero => exact Nat.zero_le max
  | succ n ih =>
    have hlast := (exitAt_eq_none.mp (h n (Nat.lt_succ_self n))).2
    cases htramp : trampolineAt k trampFp n with
    | true =>
      rw [callsBefore_of_trampoline htramp]
      exact ih fun i hi => h i (Nat.lt_succ_of_lt hi)
    | false =>
      rw [callsBefore_of_call htramp]
      exact hlast htramp

namespace Alternates

/-- On a stack, at least every other frame is a call. -/
theorem callsBefore_ge (h : Alternates k trampFp) (m j : Nat) :
    callsBefore k trampFp m + j ≤ callsBefore k trampFp (m + 2 * j) := by
  induction j with
  | zero => exact Nat.le_refl _
  | succ j ih =>
    rw [show m + 2 * (j + 1) = m + 2 * j + 1 + 1 by omega]
    cases htramp : trampolineAt k trampFp (m + 2 * j) with
    | true =>
      have hcall : trampolineAt k trampFp (m + 2 * j + 1) = false := by
        simpa using fun hnext => h.next _ ⟨htramp, hnext⟩
      rw [callsBefore_of_call hcall, callsBefore_of_trampoline htramp]
      omega
    | false =>
      have hstep := callsBefore_of_call htramp
      rw [callsBefore]
      omega

/-- A stack with `max` calls in `2 * max` frames starts every pair of them
with a call, and goes on with one. -/
theorem call_of_even (h : Alternates k trampFp) {max : Nat} (hle : callsBefore k trampFp (2 * max) ≤ max)
    {j : Nat} (hj : j ≤ max) : trampolineAt k trampFp (2 * j) = false := by
  cases j with
  | zero => exact h.first
  | succ j =>
    by_contra htramp
    rw [Bool.not_eq_false] at htramp
    have hcall : trampolineAt k trampFp (2 * j + 1) = false := by
      simpa using fun hprev => h.next _ ⟨hprev, htramp⟩
    have hfirst : callsBefore k trampFp 1 = 1 := callsBefore_of_call h.first
    have hbefore := h.callsBefore_ge 1 j
    have hbehind := h.callsBefore_ge (2 * j + 1 + 1) (max - (j + 1))
    rw [callsBefore_of_call hcall, show 2 * j + 1 = 1 + 2 * j by omega] at hbehind
    rw [show 1 + 2 * j + 1 + 2 * (max - (j + 1)) = 2 * max by omega] at hbehind
    omega

/-- … and ends every pair of them with a trampoline. -/
theorem trampoline_of_odd (h : Alternates k trampFp) {max : Nat}
    (hle : callsBefore k trampFp (2 * max) ≤ max) {j : Nat} (hj : j < max) :
    trampolineAt k trampFp (2 * j + 1) = true := by
  by_contra hcall
  rw [Bool.not_eq_true] at hcall
  have hpair := callsBefore_of_call (h.call_of_even hle (Nat.le_of_lt hj))
  have hbefore := h.callsBefore_ge 0 j
  have hbehind := h.callsBefore_ge (2 * j + 1 + 1) (max - (j + 1))
  rw [callsBefore_of_call hcall, hpair] at hbehind
  rw [show 2 * j + 1 + 1 + 2 * (max - (j + 1)) = 2 * max by omega] at hbehind
  simp only [callsBefore, Nat.zero_add] at hbefore
  omega

/-- **A walk over a stack is over by frame `2 * max`.** -/
theorem exitAt_ne_none (h : Alternates k trampFp) {max : Nat}
    (hnone : ∀ i < 2 * max, exitAt k trampFp max i = none) : exitAt k trampFp max (2 * max) ≠ none := by
  intro hexit
  have hcall := h.call_of_even (callsBefore_le_of_exitAt hnone) (Nat.le_refl max)
  have hdepth := (exitAt_eq_none.mp hexit).2 hcall
  have hge := h.callsBefore_ge 0 max
  simp only [callsBefore, Nat.zero_add] at hge
  omega

/-- The first `2 * max` frames do not end the walk: what they are like. -/
theorem goes_on_iff (h : Alternates k trampFp) {max : Nat} :
    (∀ i < 2 * max, exitAt k trampFp max i = none) ↔
      ∀ i < 2 * max, trampolineAt k trampFp i = decide (i % 2 = 1) ∧ sessionAt k trampFp i = none := by
  constructor
  · intro hnone i hi
    have hle := callsBefore_le_of_exitAt hnone
    refine ⟨?_, (exitAt_eq_none.mp (hnone i hi)).1⟩
    obtain ⟨j, hj | hj⟩ : ∃ j, i = 2 * j ∨ i = 2 * j + 1 := ⟨i / 2, by omega⟩
    · rw [hj, h.call_of_even hle (by omega)]
      simp
    · rw [hj, h.trampoline_of_odd hle (by omega)]
      simp [Nat.add_mod]
  · intro hpairs i hi
    -- the calls of the pairs before the frame
    have hcount : ∀ j, 2 * j ≤ i → callsBefore k trampFp (2 * j) = j := by
      intro j
      induction j with
      | zero => intro _; rfl
      | succ j ih =>
        intro hj
        have heven : trampolineAt k trampFp (2 * j) = false := by
          simpa using (hpairs (2 * j) (by omega)).1
        have hodd : trampolineAt k trampFp (2 * j + 1) = true := by
          simpa [Nat.add_mod] using (hpairs (2 * j + 1) (by omega)).1
        rw [show 2 * (j + 1) = 2 * j + 1 + 1 by omega, callsBefore_of_trampoline hodd,
          callsBefore_of_call heven, ih (by omega)]
    refine exitAt_eq_none.mpr ⟨(hpairs i hi).2, fun hcall => ?_⟩
    have heven : i % 2 ≠ 1 := by simpa [hcall] using (hpairs i hi).1
    have hhalf : 2 * (i / 2) = i := by omega
    have hcalls := hcount (i / 2) (by omega)
    rw [hhalf] at hcalls
    omega

end Alternates

/-! ## The uncut walk -/

variable (k trampFp) in
theorem callsBefore_mono {m n : Nat} (h : m ≤ n) : callsBefore k trampFp m ≤ callsBefore k trampFp n := by
  induction h with
  | refl => exact Nat.le_refl _
  | step _ ih => rw [callsBefore]; omega

/-- The walk gets to a frame if no session is before it and its calls are
within the depth. -/
theorem exitAt_eq_none_before {max n : Nat} (hsess : ∀ i < n, sessionAt k trampFp i = none)
    (hcalls : callsBefore k trampFp n ≤ max) : ∀ i < n, exitAt k trampFp max i = none := by
  intro i hi
  refine exitAt_eq_none.mpr ⟨hsess i hi, fun htramp => ?_⟩
  have hmono := callsBefore_mono k trampFp (Nat.succ_le_of_lt hi)
  rw [Nat.succ_eq_add_one, callsBefore_of_call htramp] at hmono
  omega

/-- A walk that ends at a frame with a session ends at its session. -/
theorem exitAt_eq_some {max n : Nat} {sess : σ} {depth : BitVec 32} :
    exitAt k trampFp max n = some (some (sess, depth)) ↔
      sessionAt k trampFp n = some sess ∧ depth = BitVec.ofNat 32 (callsBefore k trampFp n) := by
  constructor
  · intro h
    cases hsess : sessionAt k trampFp n with
    | some found =>
      rw [exitAt, hsess] at h
      cases h
      exact ⟨rfl, rfl⟩
    | none => exact absurd (exitAt_of_no_session hsess h) (Option.some_ne_none _)
  · intro h
    rw [exitAt, h.1, h.2]

/-- What a walk finds: the first frame with a session, if the calls before
it are within the depth. -/
theorem walkFrames_eq_some {max n : Nat} {sess : σ} {depth : BitVec 32} :
    walkFrames k trampFp max n = some (sess, depth) ↔
      ∃ i < n, sessionAt k trampFp i = some sess ∧ (∀ j < i, sessionAt k trampFp j = none) ∧
        callsBefore k trampFp i ≤ max ∧ depth = BitVec.ofNat 32 (callsBefore k trampFp i) := by
  rw [walkFrames, Option.join_eq_some_iff, findSome?_range_eq_some]
  constructor
  · intro h
    obtain ⟨i, hi, hexit, hbefore⟩ := h
    obtain ⟨hsess, hdepth⟩ := exitAt_eq_some.mp hexit
    exact ⟨i, hi, hsess, fun j hj => (exitAt_eq_none.mp (hbefore j hj)).1,
      callsBefore_le_of_exitAt hbefore, hdepth⟩
  · intro h
    obtain ⟨i, hi, hsess, hfirst, hcalls, hdepth⟩ := h
    exact ⟨i, hi, exitAt_eq_some.mpr ⟨hsess, hdepth⟩, exitAt_eq_none_before hfirst hcalls⟩

/-- Between two tail calls the data of the CPU is the state of the uncut
walk: after `rounds` of them, the walk is at frame `rounds * 100`. -/
theorem tailcallRounds_data (hmax : maxDepth.toNat < 2 ^ 31) {rounds : Nat} (hrounds : rounds ≤ 10)
    {data : TailcallData σ}
    (h : loop (tailcallRound k) rounds { fp := (k.frame trampFp).1, maxDepth := maxDepth } = .ok data) :
    data = dataAt k trampFp maxDepth (rounds * 100) := by
  rw [tailcallRounds_eq hmax hrounds] at h
  cases hexit : (List.range (rounds * 100)).findSome? (exitAt k trampFp maxDepth.toNat) with
  | some r => rw [hexit] at h; cases h
  | none => rw [hexit] at h; cases h; rfl

/-- **The cut walk is the uncut walk.** The tail calls find a session exactly
if it is at the first of a thousand frames that has one, with at most
`max_depth` calls before it, and its depth is their number; at each cut the
data of the CPU is the state of the uncut walk. -/
theorem tailcalls_eq_uncut_walk (hmax : maxDepth.toNat < 2 ^ 31) :
    (∀ sess depth, tryGetSession k true maxDepth trampFp = some (sess, depth) ↔
      ∃ n < 1000, sessionAt k trampFp n = some sess ∧ (∀ i < n, sessionAt k trampFp i = none) ∧
        callsBefore k trampFp n ≤ maxDepth.toNat ∧ depth.toNat = callsBefore k trampFp n) ∧
    ∀ rounds ≤ 10, ∀ data,
      loop (tailcallRound k) rounds { fp := (k.frame trampFp).1, maxDepth := maxDepth } = .ok data →
        data = dataAt k trampFp maxDepth (rounds * 100) := by
  refine ⟨fun sess depth => ?_, fun rounds hrounds data => tailcallRounds_data hmax hrounds⟩
  have htailcall : tryGetSession k true maxDepth trampFp = _ := tryGetSessionTailcall_eq hmax
  rw [htailcall, walkFrames_eq_some]
  refine exists_congr fun n => and_congr_right fun hn => ?_
  have hcalls := callsBefore_le k trampFp n
  refine and_congr_right fun _ => and_congr_right fun _ => and_congr_right fun _ => ?_
  rw [← BitVec.toNat_inj, BitVec.toNat_ofNat, Nat.mod_eq_of_lt (by omega)]

/-! ## Agreement -/

/-- A walk that is over finds the same over more frames. -/
theorem walkFrames_of_exit {max m n : Nat} {r : Option (σ × BitVec 32)}
    (h : (List.range m).findSome? (exitAt k trampFp max) = some r) (hle : m ≤ n) :
    walkFrames k trampFp max n = r := by
  obtain ⟨d, rfl⟩ := Nat.exists_eq_add_of_le hle
  rw [walkFrames, List.range_add, List.findSome?_append, h]
  rfl

/-- **The walkers agree** unless the session is right behind `max_depth`
calls that are all traced. -/
theorem tryGetSession_agree_iff (hmax : maxDepth.toNat ≤ 10) (h : Alternates k trampFp) :
    tryGetSession k false maxDepth trampFp = tryGetSession k true maxDepth trampFp ↔
      ¬ BehindTracees k trampFp maxDepth.toNat := by
  have hlimited : tryGetSession k false maxDepth trampFp = _ := tryGetSessionLimited_eq hmax
  have htailcall : tryGetSession k true maxDepth trampFp = _ := tryGetSessionTailcall_eq (by omega)
  rw [hlimited, htailcall, BehindTracees, ← h.goes_on_iff]
  cases hfirst : (List.range (2 * maxDepth.toNat)).findSome? (exitAt k trampFp maxDepth.toNat) with
  | some r =>
    -- both are over before the last frame
    rw [walkFrames_of_exit hfirst (Nat.le_refl _), walkFrames_of_exit hfirst (by omega)]
    refine iff_of_true rfl fun hbehind => ?_
    obtain ⟨i, hi, hexit⟩ := List.exists_of_findSome?_eq_some hfirst
    rw [hbehind.1 i (List.mem_range.mp hi)] at hexit
    cases hexit
  | none =>
    have hgoes : ∀ i < 2 * maxDepth.toNat, exitAt k trampFp maxDepth.toNat i = none := fun i hi =>
      List.findSome?_eq_none_iff.mp hfirst i (List.mem_range.mpr hi)
    obtain ⟨r, hlast⟩ := Option.ne_none_iff_exists'.mp (h.exitAt_ne_none hgoes)
    have hover : (List.range (2 * maxDepth.toNat + 1)).findSome? (exitAt k trampFp maxDepth.toNat) =
        some r := by
      rw [List.range_succ, List.findSome?_append, hfirst]
      simpa using hlast
    have hnothing : walkFrames k trampFp maxDepth.toNat (2 * maxDepth.toNat) = none := by
      rw [walkFrames, hfirst]
      rfl
    rw [hnothing, walkFrames_of_exit hover (by omega)]
    -- the last frame decides
    cases hsess : sessionAt k trampFp (2 * maxDepth.toNat) with
    | some sess =>
      rw [exitAt, hsess, Option.some.injEq] at hlast
      rw [← hlast]
      exact iff_of_false (by simp) fun hnot => hnot ⟨hgoes, by simp⟩
    | none =>
      rw [exitAt_of_no_session hsess hlast]
      exact iff_of_true rfl fun hbehind => hbehind.2 rfl

/-! ### The frame between them -/

/-- One traced call, with an open session behind it: the first frame is the
call's, the second its trampoline's. -/
def tracedCaller : Frames Unit where
  frame fp := (fp + 16, if fp = 32 then 1 else 0)
  getSession fp := if fp = 64 then some () else none
  isFgraphIp ip := ip == 1

theorem tracedCaller_alternates : Alternates tracedCaller 0 := by
  have htramp : ∀ fp : Word, tracedCaller.isFgraphIp (tracedCaller.frame fp).2 = true → fp = 32#64 := by
    intro fp
    simp only [tracedCaller]
    split <;> simp [*]
  refine ⟨by decide, fun n => ?_⟩
  rintro ⟨hfp, hnext⟩
  have hnext := htramp _ hnext
  rw [fpAt, htramp _ hfp] at hnext
  exact absurd hnext (by decide)

/-- From the trampoline at 0, the tail call finds the session of
`tracedCaller` at depth 1, the fallback does not. -/
theorem fallback_misses_caller :
    Alternates tracedCaller 0 ∧ tryGetSession tracedCaller true 1 0 = some ((), 1) ∧
      tryGetSession tracedCaller false 1 0 = none :=
  ⟨tracedCaller_alternates, by decide, by decide⟩

/-- Within a depth of 2, both find it. -/
theorem walkers_find_caller :
    tryGetSession tracedCaller false 2 0 = tryGetSession tracedCaller true 2 0 :=
  (tryGetSession_agree_iff (by decide) tracedCaller_alternates).mpr fun hbehind =>
    absurd (hbehind.1 3 (by decide)).1 (by decide)

/-- In `tracedCaller` the session is at the third frame, one call before
it. -/
theorem uncut_walk_finds_caller :
    tryGetSession tracedCaller true 1 0 = some ((), 1) ↔
      ∃ n < 1000, sessionAt tracedCaller 0 n = some () ∧ (∀ i < n, sessionAt tracedCaller 0 i = none) ∧
        callsBefore tracedCaller 0 n ≤ (1#32).toNat ∧ (1#32).toNat = callsBefore tracedCaller 0 n :=
  (tailcalls_eq_uncut_walk (by decide)).1 () 1

end Bpfsnoop.Trace
