import Ipa.Db.Vector.Fusion
import Mathlib.Tactic.GCongr
import Mathlib.Tactic.Linarith

/-!
# A row that moves up in a ranking

The row gains the difference of two terms, each row that it passes loses one place.  The losses of the
rows with its own key add up to its gain at most (`pool_sub_pool_succ_le`), and no other key gains.

* `rrfFuse_moved_up`: the key of the row is placed no later than before.
-/

namespace Ipa

open Ranking

variable {R K : Type*} [DecidableEq K] {key : R → K} {k : K} {n : ℕ} {rows rows' : List R}

/-! ## The terms of a moved row -/

/-- The term of the rank `n`. -/
def term (n : ℕ) : ℚ := 1 / (rrfK + n + 1)

theorem term_succ_le (n : ℕ) : term (n + 1) ≤ term n := by
  unfold term
  push_cast
  gcongr
  linarith

theorem pool_append : pool key k n (rows ++ rows') =
    pool key k n rows + pool key k (n + rows.length) rows' := by
  induction rows generalizing n with
  | nil => simp [pool]
  | cons row rows ih =>
    have hlength : n + (row :: rows).length = n + 1 + rows.length := by
      rw [List.length_cons]
      omega
    rw [List.cons_append, pool, pool, ih, hlength, ← add_assoc]

theorem pool_cons_self (row : R) :
    pool key (key row) n (row :: rows) = term n + pool key (key row) (n + 1) rows := by
  rw [pool, if_pos rfl, term]

theorem pool_cons_of_ne {row : R} (h : key row ≠ k) :
    pool key k n (row :: rows) = pool key k (n + 1) rows := by
  rw [pool, if_neg h, zero_add]

/-- Rows that lose a place lose score. -/
theorem pool_succ_le : pool key k (n + 1) rows ≤ pool key k n rows := by
  induction rows generalizing n with
  | nil => exact le_rfl
  | cons row rows ih =>
    by_cases hk : key row = k
    · subst hk
      rw [pool_cons_self, pool_cons_self]
      exact add_le_add (term_succ_le n) ih
    · rw [pool_cons_of_ne hk, pool_cons_of_ne hk]
      exact ih

/-- The losses of passed rows with one key are part of a telescoping sum. -/
theorem pool_sub_pool_succ_le :
    pool key k n rows - pool key k (n + 1) rows ≤ term n - term (n + rows.length) := by
  induction rows generalizing n with
  | nil => simp [pool]
  | cons row rows ih =>
    have hrest := ih (n := n + 1)
    have hterm := term_succ_le n
    have hlength : n + (row :: rows).length = n + 1 + rows.length := by
      rw [List.length_cons]
      omega
    rw [hlength]
    by_cases hk : key row = k
    · subst hk
      rw [pool_cons_self, pool_cons_self]
      linarith
    · rw [pool_cons_of_ne hk, pool_cons_of_ne hk]
      linarith

section Moved

variable {before after : List (List R)} {front passed back : List R} {x : R}

theorem fusedScore_append_cons (ranking : List R) :
    fusedScore ℚ key (before ++ ranking :: after) k = fusedScore ℚ key before k +
      (pool key k 0 ranking + fusedScore ℚ key after k) := by
  simp only [fusedScore_eq_sum_pool, List.map_append, List.map_cons, List.sum_append, List.sum_cons]

/-- The key of the moved row does not lose. -/
theorem fusedScore_le_moved :
    fusedScore ℚ key (before ++ (front ++ passed ++ x :: back) :: after) (key x) ≤
      fusedScore ℚ key (before ++ (front ++ x :: passed ++ back) :: after) (key x) := by
  have hgain : pool key (key x) front.length passed - pool key (key x) (front.length + 1) passed ≤
      term front.length - term (front.length + passed.length) := pool_sub_pool_succ_le
  have hback : 0 + front.length + (x :: passed).length = front.length + passed.length + 1 := by
    rw [List.length_cons]
    omega
  rw [fusedScore_append_cons, fusedScore_append_cons]
  simp only [List.append_assoc, pool_append, pool_cons_self, List.cons_append, zero_add]
  rw [Nat.add_right_comm]
  linarith

/-- No other key gains. -/
theorem fusedScore_moved_le (hk : key x ≠ k) :
    fusedScore ℚ key (before ++ (front ++ x :: passed ++ back) :: after) k ≤
      fusedScore ℚ key (before ++ (front ++ passed ++ x :: back) :: after) k := by
  have hloss : pool key k (front.length + 1) passed ≤ pool key k front.length passed := pool_succ_le
  rw [fusedScore_append_cons, fusedScore_append_cons]
  simp only [List.append_assoc, pool_append, pool_cons_of_ne hk, List.cons_append, zero_add]
  rw [Nat.add_right_comm]
  linarith

/-- What outranks the key of the moved row has done so before. -/
theorem outranks_of_moved (hk : key x ≠ k)
    (h : Outranks ℚ key (before ++ (front ++ x :: passed ++ back) :: after) k (key x)) :
    Outranks ℚ key (before ++ (front ++ passed ++ x :: back) :: after) k (key x) := by
  have hx : fusedScore ℚ key (before ++ (front ++ passed ++ x :: back) :: after) (key x) ≤
      fusedScore ℚ key (before ++ (front ++ x :: passed ++ back) :: after) (key x) :=
    fusedScore_le_moved
  have hother : fusedScore ℚ key (before ++ (front ++ x :: passed ++ back) :: after) k ≤
      fusedScore ℚ key (before ++ (front ++ passed ++ x :: back) :: after) k := fusedScore_moved_le hk
  rcases h with hlt | ⟨heq, hfirst⟩
  · exact .inl (hx.trans_lt (hlt.trans_le hother))
  · rcases (hx.trans (heq.le.trans hother)).lt_or_eq with hlt | heq'
    · exact .inl hlt
    · refine .inr ⟨heq', ?_⟩
      have hmoved : occurrences key (before ++ (front ++ x :: passed ++ back) :: after) =
          (before.flatten ++ front).map key ++ key x :: (passed ++ back ++ after.flatten).map key := by
        simp [occurrences]
      have hrankings : occurrences key (before ++ (front ++ passed ++ x :: back) :: after) =
          (before.flatten ++ front).map key ++ (passed ++ x :: back ++ after.flatten).map key := by
        simp [occurrences]
      rw [hmoved] at hfirst
      rw [hrankings]
      exact idxOf_lt_of_common_front hfirst

/-! ## Positions -/

variable (key) in
/-- The keys of all the fused rows, in their order. -/
def fullOrder (rankings : List (List R)) : List K :=
  (rrfFuse ℚ key rankings rankings.flatten.length).map fun hit => key hit.1

theorem fullOrder_eq (rankings : List (List R)) : fullOrder key rankings = fusedKeys ℚ key rankings := by
  rw [fullOrder, map_key_rrfFuse]
  exact sliceTo_of_length_le (by exact_mod_cast length_fusedKeys_le)

theorem perm_fusedKeys_moved :
    (fusedKeys ℚ key (before ++ (front ++ x :: passed ++ back) :: after)).Perm
      (fusedKeys ℚ key (before ++ (front ++ passed ++ x :: back) :: after)) := by
  refine (List.perm_ext_iff_of_nodup fusedOrder_fusedKeys.nodup fusedOrder_fusedKeys.nodup).2 ?_
  intro k
  have hrows : (before ++ (front ++ x :: passed ++ back) :: after).flatten.Perm
      (before ++ (front ++ passed ++ x :: back) :: after).flatten := by
    simp only [List.flatten_append, List.flatten_cons, List.append_assoc, List.cons_append]
    exact (List.perm_middle.symm.append_left front).append_left before.flatten
  rw [mem_fusedKeys, mem_fusedKeys]
  exact (hrows.map key).mem_iff

theorem mem_fusedKeys_moved :
    key x ∈ fusedKeys ℚ key (before ++ (front ++ passed ++ x :: back) :: after) := by
  rw [mem_fusedKeys]
  simp [occurrences]

theorem idxOf_moved_le :
    (fusedKeys ℚ key (before ++ (front ++ x :: passed ++ back) :: after)).idxOf (key x) ≤
      (fusedKeys ℚ key (before ++ (front ++ passed ++ x :: back) :: after)).idxOf (key x) := by
  refine idxOf_le_of_before (fun _ _ h => h.asymm) (fun _ _ h => h.asymm)
    fusedOrder_fusedKeys.outranks fusedOrder_fusedKeys.outranks perm_fusedKeys_moved
    mem_fusedKeys_moved fun k _ h => ?_
  by_cases hk : key x = k
  · subst hk
    exact absurd h h.asymm
  · exact outranks_of_moved hk h

end Moved

/-- A key that is placed no later in a list of the same length is in the same slices. -/
theorem mem_sliceTo_of_idxOf_le {l l' : List K} {stop : ℤ} (hlength : l'.length = l.length)
    (hk : k ∈ l) (hk' : k ∈ l') (hle : l'.idxOf k ≤ l.idxOf k) (h : k ∈ sliceTo l stop) :
    k ∈ sliceTo l' stop := by
  unfold sliceTo at h ⊢
  rw [hlength]
  split_ifs at h ⊢ <;> rw [List.mem_take_iff_idxOf_lt hk'] <;>
    exact hle.trans_lt ((List.mem_take_iff_idxOf_lt hk).1 h)

/-- When a row moves to an earlier place of its ranking, its key, which is in the full order of the
fusion, is placed no later there, and is returned whenever it was. -/
theorem rrfFuse_moved_up (key : R → K) (before after : List (List R)) (front passed back : List R)
    (x : R) :
    let rankings := before ++ (front ++ passed ++ x :: back) :: after
    let moved := before ++ (front ++ x :: passed ++ back) :: after
    key x ∈ fullOrder key rankings ∧
      (fullOrder key moved).idxOf (key x) ≤ (fullOrder key rankings).idxOf (key x) ∧
      ∀ topK : ℤ, (∃ hit ∈ rrfFuse ℚ key rankings topK, key hit.1 = key x) →
        ∃ hit ∈ rrfFuse ℚ key moved topK, key hit.1 = key x := by
  intro rankings moved
  have hle : (fusedKeys ℚ key moved).idxOf (key x) ≤ (fusedKeys ℚ key rankings).idxOf (key x) :=
    idxOf_moved_le
  have hperm : (fusedKeys ℚ key moved).Perm (fusedKeys ℚ key rankings) := perm_fusedKeys_moved
  have hx : key x ∈ fusedKeys ℚ key rankings := mem_fusedKeys_moved
  rw [fullOrder_eq, fullOrder_eq]
  refine ⟨hx, hle, fun topK => ?_⟩
  have hreturned (rankings : List (List R)) : (∃ hit ∈ rrfFuse ℚ key rankings topK, key hit.1 = key x) ↔
      key x ∈ sliceTo (fusedKeys ℚ key rankings) topK := by
    rw [← map_key_rrfFuse, List.mem_map]
  rw [hreturned, hreturned]
  exact mem_sliceTo_of_idxOf_le hperm.length_eq hx (hperm.mem_iff.2 hx) hle

end Ipa
