import Ipa.Db.Vector.Rrf
import Ipa.Lib.Binary64
import Mathlib.Data.List.Permutation

/-!
# The order of the fused rows

The keys of the rankings by decreasing score and, among equal scores, by first occurrence
(`FusedOrder`).  The code adds up floating point numbers, so its scores depend on the order in which the
terms are read, and keys with one exact score may have two.

* `rrfFuse_eq_take`: a result is the beginning of this list, with scores that are off by a rounding for
  each operation.
* `rrfFuse_not_exact`: the scores, and so the order, are not those of exact sums.
-/

namespace Ipa

open Ranking Binary64

section

variable (S : Type*) {R K : Type*} [DecidableEq K] [Zero S] [One S] [Add S] [Div S] [NatCast S]
  [LinearOrder S] (key : R → K) (rankings : List (List R))

/-- The key `k` has a higher score than `k'`, or the same one and occurs first. -/
def Outranks (k k' : K) : Prop :=
  fusedScore S key rankings k' < fusedScore S key rankings k ∨
    fusedScore S key rankings k' = fusedScore S key rankings k ∧
      (occurrences key rankings).idxOf k < (occurrences key rankings).idxOf k'

instance : DecidableRel (Outranks S key rankings) := fun _ _ => inferInstanceAs (Decidable (_ ∨ _))

/-- The distinct keys, each before those that it outranks. -/
structure FusedOrder (order : List K) : Prop where
  nodup : order.Nodup
  mem_iff : ∀ k, k ∈ order ↔ k ∈ occurrences key rankings
  outranks : order.Pairwise (Outranks S key rankings)

variable {S key rankings} {k k' : K}

theorem Outranks.asymm (h : Outranks S key rankings k k') : ¬ Outranks S key rankings k' k := by
  rintro (h' | ⟨heq', hlt'⟩) <;> rcases h with h | ⟨heq, hlt⟩
  · exact lt_asymm h h'
  · exact h'.ne heq.symm
  · exact h.ne heq'.symm
  · exact lt_asymm hlt hlt'

theorem fusedOrder_fusedKeys : FusedOrder S key rankings (fusedKeys S key rankings) where
  nodup := (List.perm_insertionSort _ _).nodup_iff.2 (nodup_eraseDups _)
  mem_iff _ := mem_fusedKeys
  outranks := by
    have hsorted := pairwise_insertionSort_stable
      (r := fun k k' => fusedScore S key rankings k' ≤ fusedScore S key rankings k)
      (fun k k' => le_total _ _) (fun _ _ _ h h' => h'.trans h)
      (pairwise_idxOf_eraseDups (occurrences key rankings))
    refine hsorted.imp fun {k k'} h => ?_
    rcases h.1.lt_or_eq with hlt | heq
    · exact .inl hlt
    · exact .inr ⟨heq, h.2 heq.ge⟩

theorem map_filterMap_of_isSome {A B : Type*} {f : A → Option B} {l : List A}
    (h : ∀ a ∈ l, (f a).isSome) : (l.filterMap f).map some = l.map f := by
  induction l with
  | nil => rfl
  | cons a l ih =>
    obtain ⟨b, hb⟩ := Option.isSome_iff_exists.1 (h a List.mem_cons_self)
    rw [List.filterMap_cons_some hb, List.map_cons, List.map_cons, hb,
      ih fun a' ha' => h a' (List.mem_cons_of_mem a ha')]

theorem rrfFuse_natCast (topK : ℕ) : (rrfFuse S key rankings topK).map some =
    ((fusedKeys S key rankings).take topK).map fun k =>
      (lastRow key rankings k).map fun row => (row, fusedScore S key rankings k) := by
  rw [rrfFuse_eq_filterMap, sliceTo, if_pos (Int.natCast_nonneg _), Int.toNat_natCast]
  refine map_filterMap_of_isSome fun k hk => ?_
  rw [Option.isSome_map]
  exact isSome_lastRow (mem_fusedKeys.1 (List.mem_of_mem_take hk))

theorem length_rrfFuse (topK : ℕ) : (rrfFuse S key rankings topK).length =
    min topK (occurrences key rankings).eraseDups.length := by
  have hmap : (rrfFuse S key rankings topK).map some = _ := rrfFuse_natCast topK
  have hlength := congrArg List.length hmap
  rwa [List.length_map, List.length_map, List.length_take, fusedKeys, List.length_insertionSort]
    at hlength

theorem rrfFuse_take (topK more : ℕ) :
    rrfFuse S key rankings topK <+: rrfFuse S key rankings (topK + more : ℕ) := by
  rw [rrfFuse_eq_filterMap, rrfFuse_eq_filterMap, sliceTo, sliceTo, if_pos (Int.natCast_nonneg _),
    if_pos (Int.natCast_nonneg _), Int.toNat_natCast, Int.toNat_natCast]
  exact (List.take_prefix_take_left (Nat.le_add_right _ _)).filterMap _

end

/-! ## Scores in floating point -/

section Scores

variable {R K : Type*} [DecidableEq K] {key : R → K} {rankings rankings' : List (List R)} {k : K}

theorem length_rankedRowsOf : (rankedRowsOf key rankings k).length = (occurrences key rankings).count k := by
  rw [rankedRowsOf, ← List.countP_eq_length_filter, occurrences, ← map_fst_rankedRows, List.count,
    List.countP_map, List.countP_map]
  exact List.countP_congr fun row _ => by simp

theorem rankedRowsOf_perm (h : rankings'.Perm rankings) :
    (rankedRowsOf key rankings' k).Perm (rankedRowsOf key rankings k) :=
  (h.flatMap_right _).filter _

/-- The order of two terms does not matter. -/
theorem fusedScore_perm (h : rankings'.Perm rankings) (hcount : (occurrences key rankings).count k ≤ 2) :
    fusedScore Double key rankings' k = fusedScore Double key rankings k := by
  have hperm : (rankedRowsOf key rankings' k).Perm (rankedRowsOf key rankings k) := rankedRowsOf_perm h
  rw [← length_rankedRowsOf] at hcount
  rw [fusedScore, fusedScore]
  generalize rankedRowsOf key rankings' k = rows' at *
  generalize rankedRowsOf key rankings k = rows at *
  rcases rows with _ | ⟨row, _ | ⟨row', _ | ⟨row'', rest⟩⟩⟩
  · rw [hperm.eq_nil]
  · rw [hperm.eq_singleton]
  · rcases List.perm_pair.1 hperm with rfl | rfl
    · rfl
    · simp only [List.map_cons, List.map_nil, List.foldl_cons, List.foldl_nil, Double.zero_plus]
      exact Double.plus_comm _ _
  · simp only [List.length_cons] at hcount
    omega

/-- A score is off by a rounding for each operation: the conversion, the division and one addition for
each occurrence. -/
theorem fusedScore_bounds (k : K) :
    let n := (occurrences key rankings).count k
    (1 - unit) ^ (n + 1) / (1 + unit) * fusedScore ℚ key rankings k ≤
        (fusedScore Double key rankings k).val ∧
      (fusedScore Double key rankings k).val ≤
        (1 + unit) ^ (n + 1) / (1 - unit) * fusedScore ℚ key rankings k := by
  intro n
  have hu := unit_pos
  have hu' := unit_lt_one
  obtain ⟨hlow, hhigh⟩ := Double.sum_bounds (a := (1 - unit) / (1 + unit)) (b := (1 + unit) / (1 - unit))
    (fun row : R × ℕ => rrfTerm Double row.2) (fun row => rrfTerm ℚ row.2)
    (div_nonneg (by linarith) (by linarith)) (div_nonneg (by linarith) (by linarith))
    (rankedRowsOf key rankings k) fun row _ => by
      have hpos : 0 < rrfK + row.2 + 1 := Nat.succ_pos _
      obtain ⟨hlow, hhigh⟩ := Double.one_div_bounds hpos
      exact ⟨by unfold rrfTerm; positivity, hlow, hhigh⟩
  rw [length_rankedRowsOf, div_mul_eq_mul_div, ← pow_succ'] at hlow
  rw [length_rankedRowsOf, div_mul_eq_mul_div, ← pow_succ'] at hhigh
  exact ⟨hlow, hhigh⟩

end Scores

/-- A fusion returns, for every number of places, the beginning of one list: the distinct keys by
decreasing score and, among equal scores, by first occurrence, with their last rows.  A score is off
from the exact sum by a rounding for each operation.  The order of the rankings changes neither the
exact sums nor the score of a key that occurs twice at most. -/
theorem rrfFuse_eq_take {R K : Type*} [DecidableEq K] (key : R → K) (rankings : List (List R)) :
    ∃ order, FusedOrder Double key rankings order ∧
      (∀ topK : ℕ, (rrfFuse Double key rankings topK).map some = (order.take topK).map fun k =>
          (lastRow key rankings k).map fun row => (row, fusedScore Double key rankings k)) ∧
      (∀ topK : ℕ, (rrfFuse Double key rankings topK).length =
          min topK (occurrences key rankings).eraseDups.length) ∧
      (∀ topK more : ℕ, rrfFuse Double key rankings topK <+: rrfFuse Double key rankings (topK + more : ℕ)) ∧
      (∀ k, let n := (occurrences key rankings).count k
        (1 - unit) ^ (n + 1) / (1 + unit) * fusedScore ℚ key rankings k ≤
            (fusedScore Double key rankings k).val ∧
          (fusedScore Double key rankings k).val ≤
            (1 + unit) ^ (n + 1) / (1 - unit) * fusedScore ℚ key rankings k) ∧
      ∀ rankings', rankings'.Perm rankings → ∀ k,
        fusedScore ℚ key rankings' k = fusedScore ℚ key rankings k ∧
        ((occurrences key rankings).count k ≤ 2 →
          fusedScore Double key rankings' k = fusedScore Double key rankings k) := by
  refine ⟨fusedKeys Double key rankings, fusedOrder_fusedKeys, rrfFuse_natCast, length_rrfFuse,
    rrfFuse_take, fusedScore_bounds, fun rankings' hperm k => ⟨?_, fusedScore_perm hperm⟩⟩
  rw [fusedScore_eq_sum_pool, fusedScore_eq_sum_pool]
  exact (hperm.map _).sum_eq

/-! ## Two keys with one exact score -/

section Tied

/-- The ranks of the two keys are alike, and are read in another order. -/
def tiedRankings : List (List Bool) := [[true, false], [true], [false, true], [false]]

theorem val_rrfTerm_zero : (rrfTerm Double 0).val = (4725088133634619 : ℤ) * 2 ^ (-58 : ℤ) := by
  have h61 : nearest ((61 : ℕ) : ℚ) = 61 := nearest_natCast (by norm_num)
  change nearest ((1 : Double).val / nearest ((61 : ℕ) : ℚ)) = _
  rw [h61, Double.val_one]
  exact nearest_eq (by norm_num) (by norm_num) (.inl (by norm_num [abs_lt]))

theorem val_rrfTerm_one : (rrfTerm Double 1).val = (4648877034705028 : ℤ) * 2 ^ (-58 : ℤ) := by
  have h62 : nearest ((62 : ℕ) : ℚ) = 62 := nearest_natCast (by norm_num)
  change nearest ((1 : Double).val / nearest ((62 : ℕ) : ℚ)) = _
  rw [h62, Double.val_one]
  exact nearest_eq (by norm_num) (by norm_num) (.inl (by norm_num [abs_lt]))

theorem rankedRowsOf_true : rankedRowsOf id tiedRankings true = [(true, 0), (true, 0), (true, 1)] := by
  decide

theorem rankedRowsOf_false : rankedRowsOf id tiedRankings false = [(false, 1), (false, 0), (false, 0)] := by
  decide

/-- Two terms of rank 0 and then one of rank 1. -/
theorem val_fusedScore_true : (fusedScore Double id tiedRankings true).val =
    (7049526650987133 : ℤ) * 2 ^ (-57 : ℤ) := by
  have hadd : (rrfTerm Double 0 + rrfTerm Double 0).val = (4725088133634619 : ℤ) * 2 ^ (-57 : ℤ) := by
    rw [Double.val_add, val_rrfTerm_zero]
    exact nearest_eq (by norm_num) (by norm_num) (.inl (by norm_num [abs_lt]))
  rw [fusedScore, rankedRowsOf_true]
  simp only [List.map_cons, List.map_nil, List.foldl_cons, List.foldl_nil, Double.zero_plus]
  rw [Double.val_add, hadd, val_rrfTerm_one]
  exact nearest_eq (by norm_num) (by norm_num) (.inl (by norm_num [abs_lt]))

/-- One term of rank 1 and then two of rank 0. -/
theorem val_fusedScore_false : (fusedScore Double id tiedRankings false).val =
    (7049526650987134 : ℤ) * 2 ^ (-57 : ℤ) := by
  have hadd : (rrfTerm Double 1 + rrfTerm Double 0).val = (4686982584169824 : ℤ) * 2 ^ (-57 : ℤ) := by
    rw [Double.val_add, val_rrfTerm_one, val_rrfTerm_zero]
    exact nearest_eq (by norm_num) (by norm_num) (.inr ⟨by norm_num, by decide⟩)
  rw [fusedScore, rankedRowsOf_false]
  simp only [List.map_cons, List.map_nil, List.foldl_cons, List.foldl_nil, Double.zero_plus]
  rw [Double.val_add, hadd, val_rrfTerm_zero]
  exact nearest_eq (by norm_num) (by norm_num) (.inr ⟨by norm_num, by decide⟩)

theorem fusedScore_lt : fusedScore Double id tiedRankings true < fusedScore Double id tiedRankings false := by
  rw [Double.lt_iff, val_fusedScore_true, val_fusedScore_false]
  norm_num

/-- Scores in floating point are not exact: of two keys with one exact score the second one comes first,
and another order of the rankings changes its score. -/
theorem rrfFuse_not_exact :
    (¬ ∀ rankings : List (List Bool), ∃ order, FusedOrder ℚ id rankings order ∧
      ∀ topK : ℕ, (rrfFuse Double id rankings topK).map (fun hit => hit.1) = order.take topK) ∧
    ¬ ∀ rankings rankings' : List (List Bool), rankings'.Perm rankings → ∀ k,
      fusedScore Double id rankings' k = fusedScore Double id rankings k := by
  constructor
  · intro hclaim
    obtain ⟨order, horder, htake⟩ := hclaim tiedRankings
    have hkeys : fusedKeys Double id tiedRankings = [false, true] := by
      have hdistinct : (occurrences id tiedRankings).eraseDups = [true, false] := by decide
      rw [fusedKeys, hdistinct]
      simp [fusedScore_lt]
    have hfirst : order.take 2 = [false, true] := by
      have hfused : (rrfFuse Double id tiedRankings 2).map (fun hit => id hit.1) = _ :=
        map_key_rrfFuse tiedRankings 2
      rw [hkeys] at hfused
      exact (htake 2).symm.trans hfused
    have houtranks : Outranks ℚ id tiedRankings false true := by
      have hpair := horder.outranks.sublist (List.take_sublist 2 order)
      rw [hfirst] at hpair
      exact List.rel_of_pairwise_cons hpair List.mem_cons_self
    have hexact : fusedScore ℚ id tiedRankings true = fusedScore ℚ id tiedRankings false := by
      rw [fusedScore, fusedScore, rankedRowsOf_true, rankedRowsOf_false]
      norm_num [rrfTerm, rrfK]
    rcases houtranks with hlt | ⟨-, hoccurs⟩
    · exact hlt.ne hexact
    · exact absurd hoccurs (by decide)
  · intro hclaim
    have hscore : fusedScore Double id [[false, true], [true], [true, false], [false]] true =
        fusedScore Double id tiedRankings false := by
      rw [fusedScore, fusedScore, rankedRowsOf_false]
      rfl
    refine fusedScore_lt.ne ?_
    rw [← hscore]
    exact (hclaim tiedRankings _ (by decide) true).symm

end Tied

end Ipa
