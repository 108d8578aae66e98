import Ipa.Lib.Dict
import Ipa.Lib.Ranking
import Mathlib.Algebra.BigOperators.Group.List.Basic
import Mathlib.Algebra.Order.Field.Rat
import Mathlib.Data.List.Sort
import Mathlib.Tactic.Positivity

/-!
# Reciprocal Rank Fusion

`rrfFuse` adds up one term for each occurrence of a key in a ranking and returns the keys by decreasing
score, each with its last row.  The scores are numbers of any kind `S`: rational numbers, or the
floating point numbers of the code.

* `rrfFuse_eq_filterMap`: what the loops compute, in closed form (`fusedScore`, `lastRow`,
  `fusedKeys`).
* `mem_rrfFuse`: what is returned is a row of a ranking, with the sum of the terms of its key.
* `exists_mem_rrfFuse`: a long enough result has every key.
-/

namespace Ipa

open Ranking

/-- Reciprocal Rank Fusion constant. -/
def rrfK : ℕ := 60

/-- `items[:stop]`. -/
def sliceTo {A : Type*} (items : List A) (stop : ℤ) : List A :=
  if 0 ≤ stop then items.take stop.toNat else items.take (items.length - (-stop).toNat)

section

variable (S : Type*) {R K : Type*} [DecidableEq K] [Zero S] [One S] [Add S] [Div S] [NatCast S]
  (key : R → K) (rankings : List (List R))

/-- The dictionaries `scores` and `rowsByKey`. -/
abbrev RrfState (S R K : Type*) := Dict K S × Dict K R

/-- What an occurrence with this rank adds. -/
def rrfTerm (rank : ℕ) : S := 1 / ((rrfK + rank + 1 : ℕ) : S)

/-- The body of the inner loop, for a row and its rank. -/
def addTerm (state : RrfState S R K) (row : R × ℕ) : RrfState S R K :=
  (state.1.set (key row.1) ((state.1.get? (key row.1)).getD 0 + rrfTerm S row.2),
    state.2.set (key row.1) row.1)

/-- Both loops. -/
def addRankings (state : RrfState S R K) (rankings : List (List R)) : RrfState S R K :=
  rankings.foldl (fun state ranking => ranking.zipIdx.foldl (addTerm S key) state) state

/-- The dictionaries after the loops. -/
def rrfState : RrfState S R K := addRankings S key (Table.empty _, Table.empty _) rankings

/-- Fuse ranked lists of rows; a sort by decreasing score keeps the order of equal scores. -/
def rrfFuse [LinearOrder S] (topK : ℤ) : List (R × S) :=
  let (scores, rowsByKey) := rrfState S key rankings
  let ordered := scores.rows.insertionSort fun item item' => item'.2 ≤ item.2
  (sliceTo ordered topK).filterMap fun item => (rowsByKey.get? item.1).map fun row => (row, item.2)

/-! ## The closed form -/

/-- The keys of the rows, read one ranking after another. -/
def occurrences : List K := rankings.flatten.map key

/-- The rows with their ranks, one ranking after another. -/
def rankedRows : List (R × ℕ) := rankings.flatMap fun ranking => ranking.zipIdx

/-- The occurrences of a key, each with its rank. -/
def rankedRowsOf (k : K) : List (R × ℕ) := (rankedRows rankings).filter fun row => key row.1 = k

/-- The terms of a key, added up in the order in which they are read. -/
def fusedScore (k : K) : S := ((rankedRowsOf key rankings k).map fun row => rrfTerm S row.2).foldl (· + ·) 0

/-- The last row with a key. -/
def lastRow (k : K) : Option R := rankings.flatten.findRev? fun row => key row = k

/-- The distinct keys in the order of the stable sort. -/
def fusedKeys [LinearOrder S] : List K :=
  (occurrences key rankings).eraseDups.insertionSort fun k k' =>
    fusedScore S key rankings k' ≤ fusedScore S key rankings k

variable {S key rankings} {k : K}

theorem map_fst_rankedRows : (rankedRows rankings).map Prod.fst = rankings.flatten := by
  rw [rankedRows, List.map_flatMap]
  simp only [List.zipIdx_map_fst]
  change rankings.flatMap id = _
  exact List.flatMap_id

theorem rrfState_eq_foldl : rrfState S key rankings =
    (rankedRows rankings).foldl (addTerm S key) (Table.empty _, Table.empty _) :=
  (List.foldl_flatMap ..).symm

theorem keys_foldl (rows : List (R × ℕ)) :
    (rows.foldl (addTerm S key) (Table.empty _, Table.empty _)).1.keys =
      (rows.map fun row => key row.1).eraseDups := by
  induction rows using List.reverseRecOn with
  | nil => rfl
  | append_singleton rows row ih =>
    rw [List.foldl_append, List.foldl_cons, List.foldl_nil, addTerm, Dict.keys_set, ih,
      List.map_append, List.map_singleton, eraseDups_concat]
    simp only [List.mem_eraseDups]

theorem keys_rrfState : (rrfState S key rankings).1.keys = (occurrences key rankings).eraseDups := by
  rw [rrfState_eq_foldl, keys_foldl, occurrences, ← map_fst_rankedRows, List.map_map]
  rfl

/-- The loop adds the terms of a key to its score. -/
theorem getD_foldl (rows : List (R × ℕ)) (state : RrfState S R K) :
    ((rows.foldl (addTerm S key) state).1.get? k).getD 0 =
      ((rows.filter fun row => key row.1 = k).map fun row => rrfTerm S row.2).foldl (· + ·)
        ((state.1.get? k).getD 0) := by
  induction rows generalizing state with
  | nil => rfl
  | cons row rows ih =>
    rw [List.foldl_cons, ih, List.filter_cons, addTerm, Dict.get?_set]
    by_cases hk : key row.1 = k
    · subst hk
      rw [if_pos rfl, if_pos (by simp), List.map_cons, List.foldl_cons, Option.getD_some]
    · rw [if_neg (Ne.symm hk), if_neg (by simpa using hk)]

theorem rows_rrfState : (rrfState S key rankings).1.rows =
    (occurrences key rankings).eraseDups.map fun k => (k, fusedScore S key rankings k) := by
  rw [← keys_rrfState (S := S), Dict.keys, List.map_map]
  refine (List.map_id _).symm.trans (List.map_congr_left fun item hitem => Prod.ext rfl ?_)
  have hget : (rrfState S key rankings).1.get? item.1 = some item.2 := Dict.get?_eq_some_iff.2 hitem
  have hscore : ((rrfState S key rankings).1.get? item.1).getD 0 = fusedScore S key rankings item.1 := by
    rw [rrfState_eq_foldl, getD_foldl]
    rfl
  rwa [hget, Option.getD_some] at hscore

theorem get?_rows_rrfState (k : K) : (rrfState S key rankings).2.get? k = lastRow key rankings k := by
  have hrows (rows : List (R × ℕ)) (state : RrfState S R K) :
      (rows.foldl (addTerm S key) state).2 =
        state.2.assign (fun row => key row.1) Prod.fst rows := by
    induction rows generalizing state with
    | nil => rfl
    | cons row rows ih => exact ih _
  rw [rrfState_eq_foldl, hrows, Dict.get?_assign, lastRow, ← map_fst_rankedRows]
  simp only [List.findRev?_eq_find?_reverse, ← List.map_reverse, List.find?_map]
  exact Option.or_none

theorem key_lastRow {row : R} (h : lastRow key rankings k = some row) : key row = k := by
  rw [lastRow, List.findRev?_eq_find?_reverse] at h
  simpa using List.find?_some h

theorem mem_of_lastRow {row : R} (h : lastRow key rankings k = some row) :
    ∃ ranking ∈ rankings, row ∈ ranking := by
  rw [lastRow, List.findRev?_eq_find?_reverse] at h
  exact List.mem_flatten.1 (List.mem_reverse.1 (List.mem_of_find?_eq_some h))

theorem isSome_lastRow (hk : k ∈ occurrences key rankings) : (lastRow key rankings k).isSome := by
  obtain ⟨row, hrow, rfl⟩ := List.mem_map.1 hk
  rw [lastRow, List.findRev?_eq_find?_reverse, List.find?_isSome]
  exact ⟨row, List.mem_reverse.2 hrow, by simp⟩

/-! ## Slices -/

section Slice

variable {A B : Type*} {items : List A} {stop : ℤ}

theorem mem_of_mem_sliceTo {a : A} (h : a ∈ sliceTo items stop) : a ∈ items := by
  unfold sliceTo at h
  split_ifs at h
  · exact List.mem_of_mem_take h
  · exact List.mem_of_mem_take h

theorem sliceTo_of_length_le (h : (items.length : ℤ) ≤ stop) : sliceTo items stop = items := by
  unfold sliceTo
  rw [if_pos (by omega), List.take_of_length_le (by omega)]

theorem sliceTo_map (f : A → B) (items : List A) (stop : ℤ) :
    sliceTo (items.map f) stop = (sliceTo items stop).map f := by
  unfold sliceTo
  split_ifs <;> simp [List.map_take]

end Slice

/-! ## The result -/

section Result

variable [LinearOrder S] {topK : ℤ}

theorem mem_fusedKeys : k ∈ fusedKeys S key rankings ↔ k ∈ occurrences key rankings := by
  rw [fusedKeys, List.mem_insertionSort, List.mem_eraseDups]

theorem rrfFuse_eq_filterMap (topK : ℤ) : rrfFuse S key rankings topK =
    (sliceTo (fusedKeys S key rankings) topK).filterMap fun k =>
      (lastRow key rankings k).map fun row => (row, fusedScore S key rankings k) := by
  have hsort : (rrfState S key rankings).1.rows.insertionSort (fun item item' => item'.2 ≤ item.2) =
      (fusedKeys S key rankings).map fun k => (k, fusedScore S key rankings k) := by
    rw [rows_rrfState, fusedKeys]
    symm
    apply List.map_insertionSort
    intro k _ k' _
    rfl
  unfold rrfFuse
  dsimp only
  rw [hsort, sliceTo_map, List.filterMap_map]
  refine List.filterMap_congr fun k _ => ?_
  rw [Function.comp_apply, get?_rows_rrfState]

/-- The keys that a fusion returns. -/
theorem map_key_rrfFuse (rankings : List (List R)) (topK : ℤ) :
    (rrfFuse S key rankings topK).map (fun hit => key hit.1) =
      sliceTo (fusedKeys S key rankings) topK := by
  rw [rrfFuse_eq_filterMap, List.map_filterMap]
  have hkeep : ∀ k ∈ sliceTo (fusedKeys S key rankings) topK,
      ((lastRow key rankings k).map fun row => (row, fusedScore S key rankings k)).map
        (fun hit => key hit.1) = some k := by
    intro k hk
    obtain ⟨row, hrow⟩ := Option.isSome_iff_exists.1
      (isSome_lastRow (mem_fusedKeys.1 (mem_of_mem_sliceTo hk)))
    rw [hrow]
    exact congrArg some (key_lastRow hrow)
  rw [List.filterMap_congr hkeep, List.filterMap_some]

/-- What is returned is a row of a ranking, with the score of its key. -/
theorem mem_rrfFuse {row : R} {score : S} (h : (row, score) ∈ rrfFuse S key rankings topK) :
    (∃ ranking ∈ rankings, row ∈ ranking) ∧ score = fusedScore S key rankings (key row) := by
  rw [rrfFuse_eq_filterMap] at h
  obtain ⟨k, hk, hrow⟩ := List.mem_filterMap.1 h
  obtain ⟨row', hlast, heq⟩ := Option.map_eq_some_iff.1 hrow
  obtain ⟨rfl, rfl⟩ := Prod.mk.inj heq
  exact ⟨mem_of_lastRow hlast, by rw [key_lastRow hlast]⟩

theorem length_fusedKeys_le : (fusedKeys S key rankings).length ≤ rankings.flatten.length := by
  rw [fusedKeys, List.length_insertionSort, ← List.length_map key]
  exact ((nodup_eraseDups _).subperm fun k hk => List.mem_eraseDups.1 hk).length_le

/-- A result with enough places has every key. -/
theorem exists_mem_rrfFuse (hlen : (rankings.flatten.length : ℤ) ≤ topK) {ranking : List R}
    (hranking : ranking ∈ rankings) {row : R} (hrow : row ∈ ranking) :
    ∃ row' score, (row', score) ∈ rrfFuse S key rankings topK ∧ key row' = key row := by
  have hk : key row ∈ (rrfFuse S key rankings topK).map fun hit => key hit.1 := by
    have hle : ((fusedKeys S key rankings).length : ℤ) ≤ topK :=
      le_trans (by exact_mod_cast length_fusedKeys_le) hlen
    rw [map_key_rrfFuse, sliceTo_of_length_le hle, mem_fusedKeys]
    exact List.mem_map_of_mem (List.mem_flatten_of_mem hranking hrow)
  obtain ⟨⟨row', score⟩, hmem, hkey⟩ := List.mem_map.1 hk
  exact ⟨row', score, hmem, hkey⟩

end Result

end

/-! ## Exact scores -/

section Exact

variable {R K : Type*} [DecidableEq K]

/-- The sum of the terms that the rows with key `k` add, the first row having rank `n`. -/
def pool (key : R → K) (k : K) : ℕ → List R → ℚ
  | _, [] => 0
  | n, row :: rows => (if key row = k then 1 / (rrfK + n + 1 : ℚ) else 0) + pool key k (n + 1) rows

variable {key : R → K} {k : K} {n : ℕ} {rows : List R} {rankings : List (List R)}

theorem pool_nonneg : 0 ≤ pool key k n rows := by
  induction rows generalizing n with
  | nil => exact le_refl 0
  | cons row rows ih =>
    rw [pool]
    have hrest := ih (n := n + 1)
    split_ifs
    · positivity
    · positivity

theorem pool_eq_zero (h : ∀ row ∈ rows, key row ≠ k) : pool key k n rows = 0 := by
  induction rows generalizing n with
  | nil => rfl
  | cons row rows ih =>
    rw [pool, if_neg (h row List.mem_cons_self), zero_add]
    exact ih fun row' hrow' => h row' (List.mem_cons_of_mem _ hrow')

theorem pool_eq_sum (n : ℕ) (rows : List R) : pool key k n rows =
    (((rows.zipIdx n).filter fun row => key row.1 = k).map fun row => rrfTerm ℚ row.2).sum := by
  induction rows generalizing n with
  | nil => rfl
  | cons row rows ih =>
    have hterm : (1 / (rrfK + n + 1) : ℚ) = rrfTerm ℚ n := by
      rw [rrfTerm]
      push_cast
      rfl
    rw [pool, ih, List.zipIdx_cons, List.filter_cons, hterm]
    by_cases hk : key row = k
    · simp [hk]
    · simp [hk]

theorem fusedScore_eq_sum_pool (k : K) :
    fusedScore ℚ key rankings k = (rankings.map (pool key k 0)).sum := by
  rw [fusedScore, ← List.sum_eq_foldl, rankedRowsOf, rankedRows]
  induction rankings with
  | nil => rfl
  | cons ranking rankings ih =>
    rw [List.flatMap_cons, List.filter_append, List.map_append, List.sum_append, ih, List.map_cons,
      List.sum_cons, pool_eq_sum]

end Exact

end Ipa
