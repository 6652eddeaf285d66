/-
Bpfsnoop.Trace.TDigest — the centroids of a digest, compacted in place.

Distinct centroids may have the same mean once it is an integer. `render`
adds up those that are adjacent, with one cursor that reads and one that
writes in the same lists. The reading cursor compares with the element
before it, which the writing cursor may have just written; it has written
the same mean there (`Compacted.prev`). So what is left are the runs of
equal means (`compact_runs`).

The digest itself is given by its centroids, with their means as `uint64`.
-/
import Bpfsnoop.Lib.Compaction
import Bpfsnoop.Lib.Runs
import Bpfsnoop.Trace.Bars
import Bpfsnoop.Trace.LbrStack
import Mathlib.Algebra.Order.BigOperators.Group.List
import Mathlib.Algebra.Order.Group.Nat

namespace Bpfsnoop.Trace

open Ebpf Lib
open CC (GoError)

/-! ## The code -/

/-- `TDigest`. -/
structure TDigest where
  centroids : List (Word × Word)
  count : Word
  expr : String

/-- What the loop of `render` works on. -/
structure CompactLoop where
  means : List Word
  counts : List Word
  j : Nat

/-- An assignment to an element. -/
def setAt {α : Type} (l : List α) (i : Nat) (a : α) : Except GoError (List α) :=
  if i < l.length then .ok (l.set i a) else .error (.panic "index out of range")

/-- The body of the loop. -/
def compactRound (st : CompactLoop) (i : Nat) : Except GoError CompactLoop := do
  let prev ← elemAt st.means (i - 1)
  let mean ← elemAt st.means i
  if prev = mean then
    let total ← elemAt st.counts st.j
    let count ← elemAt st.counts i
    let counts ← setAt st.counts st.j (total + count)
    return { st with counts }
  else
    let j := st.j + 1
    let means ← setAt st.means j mean
    let count ← elemAt st.counts i
    let counts ← setAt st.counts j count
    return { means, counts, j }

/-- The loop, and the slicing behind it. -/
def compact (means counts : List Word) : Except GoError (List Word × List Word) := do
  let st ← (List.range' 1 (means.length - 1)).foldlM compactRound { means, counts, j := 0 }
  if st.j + 1 ≤ st.means.length ∧ st.j + 1 ≤ st.counts.length then
    return (st.means.take (st.j + 1), st.counts.take (st.j + 1))
  else .error (.panic "slice bounds out of range")

/-- The greatest count. -/
def countMax (counts : List Word) (first : Word) : Word :=
  counts.foldl (fun valMax val => if val > valMax then val else valMax) first

/-- The line of a centroid. -/
def tdigestLine (vals counts : List Word) (valMax : Word) (i : Nat) : Except GoError String := do
  let val ← elemAt counts i
  let mean ← elemAt vals i
  let bar ← Bars.printStars val valMax 40
  return padLeft 10 (toString mean.toNat) ++ " : " ++ padRight 13 (toString val.toNat) ++ " |" ++ bar
    ++ "|\n"

/-- `tdigest2hist`. -/
def tdigest2hist (vals counts : List Word) : Except GoError String := do
  let first ← elemAt counts 0
  let valMax := countMax counts first
  (List.range vals.length).foldlM (fun text i => return text ++ (← tdigestLine vals counts valMax i)) ""

/-- The centroids that are printed. -/
def TDigest.counted (t : TDigest) : List (Word × Word) := t.centroids.filter (·.2 ≠ 0)

/-- `render`. -/
def TDigest.render (t : TDigest) : Except GoError String :=
  if t.count = 0 then .ok ""
  else do
    let (means, counts) ← compact (t.counted.map (·.1)) (t.counted.map (·.2))
    let hist ← tdigest2hist means counts
    return "T-Digest for '" ++ t.expr ++ "' (total " ++ toString t.count.toNat ++ "):\n" ++ hist ++ "\n"

/-! ## Runs -/

def sameMean (a b : Word × Word) : Bool := a.1 = b.1

/-- The centroids in runs of one mean. -/
def runs (zs : List (Word × Word)) : List (List (Word × Word)) := zs.splitBy sameMean

def runMean (g : List (Word × Word)) : Word := (g.head?.map (·.1)).getD 0

def runCount (g : List (Word × Word)) : Word := (g.map (·.2)).sum

section Runs

variable {zs : List (Word × Word)} {g : List (Word × Word)}

theorem mean_of_mem_run (hg : g ∈ runs zs) {z : Word × Word} (hz : z ∈ g) : z.1 = runMean g := by
  have hchain := List.isChain_of_mem_splitBy hg
  cases g with
  | nil => cases hz
  | cons a g =>
    have hrel : ∀ b ∈ g, a.1 = b.1 := by
      have hchain' : (a :: g).IsChain fun x y => x.1 = y.1 := by simpa [sameMean] using hchain
      have htrans : IsTrans (Word × Word) fun x y => x.1 = y.1 := ⟨fun _ _ _ h h' => h.trans h'⟩
      exact (List.pairwise_cons.mp hchain'.pairwise).1
    rcases List.mem_cons.mp hz with rfl | hz
    · rfl
    · exact (hrel z hz).symm

theorem run_ne_nil (hg : g ∈ runs zs) : g ≠ [] := List.ne_nil_of_mem_splitBy hg

/-- A run takes at least one centroid. -/
theorem length_runs_le (zs : List (Word × Word)) : (runs zs).length ≤ zs.length := by
  calc
    (runs zs).length = ((runs zs).map List.length).length := List.length_map _ |>.symm
    _ ≤ ((runs zs).map List.length).sum := by
      refine List.length_le_sum_of_one_le _ fun n hn => ?_
      obtain ⟨g, hg, rfl⟩ := List.mem_map.mp hn
      exact List.length_pos_iff.mpr (run_ne_nil hg)
    _ = zs.length := by rw [← List.length_flatten, runs, List.flatten_splitBy]

/-- Adjacent runs have different means. -/
theorem runMeans_apart (zs : List (Word × Word)) : ((runs zs).map runMean).IsChain (· ≠ ·) := by
  rw [List.isChain_map]
  refine (List.isChain_getLast_head_splitBy sameMean zs).imp_of_mem_imp fun g g' hg hg' hjoint hmean => ?_
  obtain ⟨hne, hne', hfalse⟩ := hjoint
  have hsame : (g.getLast hne).1 = (g'.head hne').1 := by
    rw [mean_of_mem_run hg (List.getLast_mem hne), mean_of_mem_run hg' (List.head_mem hne'), hmean]
  rw [sameMean, decide_eq_false_iff_not] at hfalse
  exact hfalse hsame

theorem runCount_concat (g : List (Word × Word)) (z : Word × Word) :
    runCount (g ++ [z]) = runCount g + z.2 := by
  simp [runCount]

theorem runMean_concat (hne : g ≠ []) (z : Word × Word) : runMean (g ++ [z]) = runMean g := by
  rw [runMean, runMean, List.head?_append_of_ne_nil _ hne]

/-- The runs have the total of the centroids. -/
theorem sum_runCounts (zs : List (Word × Word)) :
    ((runs zs).map runCount).sum = (zs.map (·.2)).sum := by
  have hflat : (runs zs).flatten = zs := List.flatten_splitBy sameMean zs
  conv_rhs => rw [← hflat, List.map_flatten, List.sum_flatten, List.map_map]
  rfl

end Runs

/-! ## The two cursors -/

/-- The loop before element `i`: the runs of what was read are written over
the front of the lists, and `j` is at the last of them. -/
structure Compacted (zs : List (Word × Word)) (i : Nat) (st : CompactLoop) : Prop where
  means : st.means = overlay ((runs (zs.take i)).map runMean) (zs.map (·.1))
  counts : st.counts = overlay ((runs (zs.take i)).map runCount) (zs.map (·.2))
  j : st.j + 1 = (runs (zs.take i)).length

section Reads

variable {α : Type} {l : List α} {i : Nat} {a : α}

theorem elemAt_natCast (h : l[i]? = some a) : elemAt l i = .ok a := by
  rw [elemAt, if_neg (by omega), Int.toNat_natCast, h]

theorem setAt_eq (h : i < l.length) (a : α) : setAt l i a = .ok (l.set i a) := if_pos h

end Reads

namespace Compacted

variable {zs : List (Word × Word)} {st : CompactLoop} {i : Nat}

theorem start (hne : zs ≠ []) : Compacted zs 1 { means := zs.map (·.1), counts := zs.map (·.2), j := 0 } := by
  obtain ⟨z, zs, rfl⟩ := List.exists_cons_of_ne_nil hne
  have hruns : runs ((z :: zs).take 1) = [[z]] := rfl
  refine ⟨?_, ?_, ?_⟩
  · rw [hruns]
    rfl
  · rw [hruns]
    simp [overlay, runCount]
  · rw [hruns]
    rfl

/-- The runs so far, the last of them apart. -/
theorem last (h : Compacted zs i st) : ∃ gs g, runs (zs.take i) = gs ++ [g] ∧ st.j = gs.length ∧ st.j < i := by
  have hj := h.j
  have hle := length_runs_le (zs.take i)
  obtain hnil | ⟨gs, g, hruns⟩ := List.eq_nil_or_concat (runs (zs.take i))
  · rw [hnil] at hj
    cases hj
  · rw [List.concat_eq_append] at hruns
    rw [List.length_take] at hle
    have hlen : (runs (zs.take i)).length = gs.length + 1 := by rw [hruns, List.length_append]; rfl
    exact ⟨gs, g, hruns, by omega, by omega⟩

/-- The element before, as the loop reads it: its place may be overwritten,
but then with the mean of its own run. -/
theorem prev (h : Compacted zs (i + 1) st) {z : Word × Word} (hz : zs[i]? = some z) :
    st.means[i]? = some z.1 := by
  obtain ⟨gs, g, hruns, hj, hlt⟩ := h.last
  have hlast : g.getLast? = some z := by
    rw [← getLast?_of_splitBy hruns, List.getLast?_take, if_neg (Nat.succ_ne_zero i), Nat.add_sub_cancel, hz]
    rfl
  have hg : g ∈ runs (zs.take (i + 1)) := by
    rw [hruns]
    simp
  have hmean : z.1 = runMean g := mean_of_mem_run hg (List.mem_of_getLast? hlast)
  rw [h.means, hruns, List.map_append]
  rcases Nat.lt_or_eq_of_le (Nat.le_of_lt_succ hlt) with hbehind | hfront
  · rw [overlay_behind (by simp; omega), List.getElem?_map, hz]
    rfl
  · rw [← hfront, hj, hmean]
    simpa using overlay_last (gs.map runMean) (runMean g) (zs.map (·.1))

/-- The lists as the loop reads and writes them at its two places. -/
theorem places (h : Compacted zs (i + 1) st) {z : Word × Word} (hz : zs[i + 1]? = some z) :
    st.means[i + 1]? = some z.1 ∧ st.counts[i + 1]? = some z.2 ∧
      st.means.length = zs.length ∧ st.counts.length = zs.length := by
  obtain ⟨gs, g, hruns, hj, hlt⟩ := h.last
  obtain ⟨hi, -⟩ := List.getElem?_eq_some_iff.mp hz
  have hlen : (runs (zs.take (i + 1))).length = st.j + 1 := h.j.symm
  refine ⟨?_, ?_, ?_, ?_⟩
  · rw [h.means, overlay_behind (by rw [List.length_map]; omega), List.getElem?_map, hz]
    rfl
  · rw [h.counts, overlay_behind (by rw [List.length_map]; omega), List.getElem?_map, hz]
    rfl
  · rw [h.means, length_overlay (by simp only [List.length_map]; omega), List.length_map]
  · rw [h.counts, length_overlay (by simp only [List.length_map]; omega), List.length_map]

/-- An element with the mean of the one before is added to the last run. -/
theorem join (h : Compacted zs (i + 1) st) {x z : Word × Word} (hx : zs[i]? = some x)
    (hz : zs[i + 1]? = some z) (hmean : x.1 = z.1) :
    ∃ st', compactRound st (i + 1) = .ok st' ∧ Compacted zs (i + 2) st' := by
  obtain ⟨hmeanAt, hcountAt, -, hlen⟩ := h.places hz
  obtain ⟨gs, g, hruns, hj, hlt⟩ := h.last
  obtain ⟨hi, -⟩ := List.getElem?_eq_some_iff.mp hz
  have hg : g ∈ runs (zs.take (i + 1)) := by
    rw [hruns]
    simp
  have hne : g ≠ [] := run_ne_nil hg
  have hlast : g.getLast? = some x := by
    rw [← getLast?_of_splitBy hruns, List.getLast?_take, if_neg (Nat.succ_ne_zero i), Nat.add_sub_cancel, hx]
    rfl
  have hnext : runs (zs.take (i + 2)) = gs ++ [g ++ [z]] := by
    rw [List.take_add_one, hz]
    exact splitBy_concat_join hruns hlast (decide_eq_true hmean)
  have hcounts : st.counts = overlay (gs.map runCount ++ [runCount g]) (zs.map (·.2)) := by
    rw [h.counts, hruns, List.map_append]
    rfl
  have htotal : st.counts[st.j]? = some (runCount g) := by
    rw [hcounts, hj, ← List.length_map runCount]
    exact overlay_last _ _ _
  refine ⟨{ st with counts := st.counts.set st.j (runCount g + z.2) }, ?_, ?_, ?_, ?_⟩
  · have hprev : elemAt st.means ((i + 1 : Nat) - 1) = .ok x.1 := by
      rw [Nat.cast_succ, add_sub_cancel_right]
      exact elemAt_natCast (h.prev hx)
    rw [compactRound, hprev, elemAt_natCast hmeanAt, elemAt_natCast htotal, elemAt_natCast hcountAt]
    refine (if_pos hmean).trans ?_
    change (setAt st.counts st.j (runCount g + z.2) >>= fun counts => pure { st with counts }) = _
    rw [setAt_eq (by omega)]
    rfl
  · rw [hnext, h.means, hruns, List.map_append, List.map_append, List.map_singleton, List.map_singleton,
      runMean_concat hne]
  · rw [hnext, hcounts, hj, ← List.length_map runCount, overlay_set_last, List.map_append,
      List.map_singleton, runCount_concat]
  · rw [hnext]
    simp [hj]

/-- An element with a mean of its own begins a run behind the last one. -/
theorem begin (h : Compacted zs (i + 1) st) {x z : Word × Word} (hx : zs[i]? = some x)
    (hz : zs[i + 1]? = some z) (hmean : x.1 ≠ z.1) :
    ∃ st', compactRound st (i + 1) = .ok st' ∧ Compacted zs (i + 2) st' := by
  obtain ⟨hmeanAt, hcountAt, hlenMeans, hlenCounts⟩ := h.places hz
  obtain ⟨gs, g, hruns, hj, hlt⟩ := h.last
  obtain ⟨hi, -⟩ := List.getElem?_eq_some_iff.mp hz
  have hlast : (zs.take (i + 1)).getLast? = some x := by
    rw [List.getLast?_take, if_neg (Nat.succ_ne_zero i), Nat.add_sub_cancel, hx]
    rfl
  have hnext : runs (zs.take (i + 2)) = runs (zs.take (i + 1)) ++ [[z]] := by
    rw [List.take_add_one, hz]
    exact splitBy_concat_new hlast (decide_eq_false hmean)
  have hfront : st.j + 1 = (runs (zs.take (i + 1))).length := h.j
  refine ⟨{ means := st.means.set (st.j + 1) z.1, counts := st.counts.set (st.j + 1) z.2, j := st.j + 1 },
    ?_, ?_, ?_, ?_⟩
  · have hprev : elemAt st.means ((i + 1 : Nat) - 1) = .ok x.1 := by
      rw [Nat.cast_succ, add_sub_cancel_right]
      exact elemAt_natCast (h.prev hx)
    rw [compactRound, hprev, elemAt_natCast hmeanAt, elemAt_natCast hcountAt]
    refine (if_neg hmean).trans ?_
    change (setAt st.means (st.j + 1) z.1 >>= fun means => setAt st.counts (st.j + 1) z.2 >>= fun counts =>
      pure (f := Except GoError) { means, counts, j := st.j + 1 : CompactLoop }) = _
    rw [setAt_eq (by omega), setAt_eq (by omega)]
    rfl
  · rw [hnext, h.means, hfront, ← List.length_map runMean, overlay_set_behind (by simp; omega),
      List.map_append]
    rfl
  · rw [hnext, h.counts, hfront, ← List.length_map runCount, overlay_set_behind (by simp; omega),
      List.map_append]
    simp [runCount]
  · rw [hnext, List.length_append, hfront]
    rfl

/-- A round keeps the invariant. -/
theorem round (h : Compacted zs (i + 1) st) (hi : i + 1 < zs.length) :
    ∃ st', compactRound st (i + 1) = .ok st' ∧ Compacted zs (i + 2) st' := by
  have hx : zs[i]? = some zs[i] := List.getElem?_eq_getElem (by omega)
  have hz : zs[i + 1]? = some zs[i + 1] := List.getElem?_eq_getElem hi
  by_cases hmean : zs[i].1 = zs[i + 1].1
  · exact h.join hx hz hmean
  · exact h.begin hx hz hmean

/-- The loop keeps it up to the end. -/
theorem rounds (h : Compacted zs (i + 1) st) {n : Nat} (hn : i + 1 + n = zs.length) :
    ∃ st', (List.range' (i + 1) n).foldlM compactRound st = .ok st' ∧ Compacted zs zs.length st' := by
  induction n generalizing i st with
  | zero => exact ⟨st, rfl, hn ▸ h⟩
  | succ n ih =>
    obtain ⟨st₁, hround, h₁⟩ := h.round (by omega)
    obtain ⟨st', hrest, h'⟩ := ih h₁ (by omega)
    refine ⟨st', ?_, h'⟩
    rw [List.range'_succ, List.foldlM_cons, hround]
    exact hrest

end Compacted

/-! ## What is left -/

section Left

variable {zs : List (Word × Word)}

/-- The compacted lists are the means and the counts of the runs. -/
theorem compact_eq (hne : zs ≠ []) : compact (zs.map (·.1)) (zs.map (·.2))
    = .ok ((runs zs).map runMean, (runs zs).map runCount) := by
  have hpos : 0 < zs.length := List.length_pos_iff.mpr hne
  obtain ⟨st, hrun, hst⟩ := (Compacted.start hne).rounds (n := zs.length - 1) (by omega)
  have hle := length_runs_le zs
  have hj := hst.j
  have hmeans := hst.means
  have hcounts := hst.counts
  rw [List.take_length] at hj hmeans hcounts
  have hlenMeans : st.means.length = zs.length := by
    rw [hmeans, length_overlay (by simpa using hle), List.length_map]
  have hlenCounts : st.counts.length = zs.length := by
    rw [hcounts, length_overlay (by simpa using hle), List.length_map]
  have htakeMeans := take_overlay ((runs zs).map runMean) (zs.map (·.1))
  have htakeCounts := take_overlay ((runs zs).map runCount) (zs.map (·.2))
  rw [List.length_map] at htakeMeans htakeCounts
  rw [compact, List.length_map, hrun]
  refine (if_pos ⟨by omega, by omega⟩).trans ?_
  rw [hj, hmeans, hcounts, htakeMeans, htakeCounts]
  rfl

theorem toNat_sum (counts : List Word) : counts.sum.toNat = (counts.map BitVec.toNat).sum % 2 ^ 64 := by
  induction counts with
  | nil => rfl
  | cons count counts ih =>
    rw [List.sum_cons, List.map_cons, List.sum_cons, BitVec.toNat_add, ih, Nat.add_mod_mod]

/-- The total of some centroids, unbounded. -/
def total (zs : List (Word × Word)) : Nat := (zs.map (·.2.toNat)).sum

theorem runCount_toNat (zs : List (Word × Word)) : (runCount zs).toNat = total zs % 2 ^ 64 := by
  rw [runCount, toNat_sum, List.map_map]
  rfl

theorem total_flatten (gs : List (List (Word × Word))) : total gs.flatten = (gs.map total).sum := by
  rw [total, List.map_flatten, List.sum_flatten, List.map_map]
  rfl

theorem total_runs (zs : List (Word × Word)) : ((runs zs).map total).sum = total zs := by
  rw [← total_flatten, runs, List.flatten_splitBy]

/-- Where the total fits `uint64`, so does the count of each run. -/
theorem runCount_of_fits (hfits : total zs < 2 ^ 64) {g : List (Word × Word)} (hg : g ∈ runs zs) :
    (runCount g).toNat = total g := by
  have hle : total g ≤ ((runs zs).map total).sum := List.le_sum_of_mem (List.mem_map_of_mem hg)
  rw [total_runs] at hle
  rw [runCount_toNat, Nat.mod_eq_of_lt (by omega)]

/-- **Compaction groups the runs**: what the loop leaves of a list of
centroids, overwriting it while it reads, are the means and the summed
counts of the runs of equal means, in their order. Adjacent means differ,
and the total is the one before. -/
theorem compact_runs (zs : List (Word × Word)) (hne : zs ≠ []) :
    compact (zs.map (·.1)) (zs.map (·.2)) = .ok ((runs zs).map runMean, (runs zs).map runCount) ∧
      (runs zs).flatten = zs ∧
      (∀ g ∈ runs zs, g ≠ [] ∧ ∀ z ∈ g, z.1 = runMean g) ∧
      ((runs zs).map runMean).IsChain (· ≠ ·) ∧
      ((runs zs).map runCount).sum = (zs.map (·.2)).sum ∧
      (total zs < 2 ^ 64 → ∀ g ∈ runs zs, (runCount g).toNat = total g) :=
  ⟨compact_eq hne, List.flatten_splitBy _ _, fun _ hg => ⟨run_ne_nil hg, fun _ hz => mean_of_mem_run hg hz⟩,
    runMeans_apart zs, sum_runCounts zs, fun hfits _ hg => runCount_of_fits hfits hg⟩

/-- Two means that each come twice, and the first of them again. -/
theorem repeated_means_compact :
    let zs : List (Word × Word) := [(3, 1), (3, 2), (7, 1), (7, 4), (3, 5)]
    zs ≠ [] ∧ compact (zs.map (·.1)) (zs.map (·.2)) = .ok ([3, 7, 3], [3, 5, 5]) ∧
      (runs zs).flatten = zs ∧ ((runs zs).map runMean).IsChain (· ≠ ·) := by
  intro zs
  have hne : zs ≠ [] := by decide
  obtain ⟨hcompact, hflat, -, happart, -⟩ := compact_runs zs hne
  exact ⟨hne, hcompact, hflat, happart⟩

end Left

/-! ## The text -/

section Text

variable {vals counts : List Word} {first valMax : Word}

theorem first_le_countMax (counts : List Word) (first : Word) : first ≤ countMax counts first := by
  induction counts generalizing first with
  | nil => exact BitVec.le_refl first
  | cons val counts ih =>
    rw [countMax, List.foldl_cons]
    split
    · rename_i hgt
      exact BitVec.le_trans (BitVec.le_of_lt hgt) (ih val)
    · exact ih first

theorem tdigestLine_isOk (hlen : vals.length = counts.length) (hmax : 0 < valMax) {i : Nat}
    (hi : i < counts.length) : ∃ line, tdigestLine vals counts valMax i = .ok line := by
  have hcount : elemAt counts i = .ok counts[i] := elemAt_natCast (List.getElem?_eq_getElem hi)
  have hmean : elemAt vals i = .ok vals[i] := elemAt_natCast (List.getElem?_eq_getElem (by omega))
  have hwidth : 0 ≤ (40 : Word).toInt := by decide
  have hbar := Bars.printStars_eq counts[i] hmax hwidth
  rw [tdigestLine, hcount, hmean]
  change ∃ line, (Bars.printStars counts[i] valMax 40 >>= fun bar => _) = .ok line
  rw [hbar]
  exact ⟨_, rfl⟩

theorem tdigest2hist_isOk (hlen : vals.length = counts.length) (hfirst : counts.head? = some first)
    (hpos : 0 < first) : ∃ text, tdigest2hist vals counts = .ok text := by
  have hread : elemAt counts 0 = .ok first := elemAt_natCast (i := 0) (by rwa [← List.head?_eq_getElem?])
  rw [tdigest2hist, hread]
  refine foldlM_isOk fun pre i post text hsplit _ => ?_
  have hi : i ∈ List.range vals.length := by rw [hsplit]; simp
  obtain ⟨line, hline⟩ := tdigestLine_isOk hlen (Nat.lt_of_lt_of_le hpos (first_le_countMax counts first))
    (hlen ▸ List.mem_range.mp hi)
  exact ⟨text ++ line, by rw [hline]; rfl⟩

/-- Rendering does not panic, if there is a centroid to print and the
counts fit `uint64`. -/
theorem TDigest.render_isOk {t : TDigest} (hne : t.counted ≠ []) (hfits : total t.counted < 2 ^ 64) :
    ∃ text, t.render = .ok text := by
  have hcompact := compact_eq hne
  have hruns_ne : runs t.counted ≠ [] := List.splitBy_ne_nil.mpr hne
  obtain ⟨g, gs, hruns⟩ : ∃ g gs, runs t.counted = g :: gs := List.exists_cons_of_ne_nil hruns_ne
  have hg : g ∈ runs t.counted := by rw [hruns]; exact List.mem_cons_self
  obtain ⟨z, g', rfl⟩ := List.exists_cons_of_ne_nil (run_ne_nil hg)
  have hz : z ∈ t.counted := by
    rw [← List.flatten_splitBy sameMean t.counted]
    exact List.mem_flatten.mpr ⟨_, hg, List.mem_cons_self⟩
  have hcount : z.2 ≠ 0 := of_decide_eq_true (List.mem_filter.mp hz).2
  have hfirst : 0 < runCount (z :: g') := by
    have hsum := runCount_of_fits hfits hg
    have hle : z.2.toNat ≤ total (z :: g') := Nat.le_add_right _ _
    have hz0 : z.2.toNat ≠ 0 := fun h => hcount (BitVec.eq_of_toNat_eq h)
    exact BitVec.lt_def.mpr (by rw [hsum]; exact Nat.lt_of_lt_of_le (Nat.pos_of_ne_zero hz0) hle)
  have hlen : ((runs t.counted).map runMean).length = ((runs t.counted).map runCount).length := by
    rw [List.length_map, List.length_map]
  have hhead : ((runs t.counted).map runCount).head? = some (runCount (z :: g')) := by
    rw [hruns]
    rfl
  obtain ⟨hist, hhist⟩ := tdigest2hist_isOk hlen hhead hfirst
  rw [TDigest.render]
  split
  · exact ⟨"", rfl⟩
  · rw [hcompact]
    change ∃ text, (tdigest2hist _ _ >>= fun hist => _) = .ok text
    rw [hhist]
    exact ⟨_, rfl⟩

end Text

end Bpfsnoop.Trace
