import Mathlib.Data.List.Induction
import Mathlib.Data.List.Sort
import Mathlib.Tactic.Common

/-!
# Rankings

* `pairwise_insertionSort_stable`: a stable sort keeps the order of rows that compare equal.
* `pairwise_idxOf_eraseDups`: without its repetitions a list is in the order of first occurrence.
* `idxOf_le_of_before`: when two orders rank the same rows, a row that has no new rows before it in the
  second is ranked no later there.
-/

namespace Ranking

variable {A : Type*} {l l' : List A} {a : A}

/-! ## Stable sorting -/

section Stable

variable {r s : A → A → Prop} [DecidableRel r]

theorem pairwise_orderedInsert_stable (htotal : ∀ a b, r a b ∨ r b a)
    (htrans : ∀ a b c, r a b → r b c → r a c) (hl : l.Pairwise fun a b => r a b ∧ (r b a → s a b))
    (ha : ∀ b ∈ l, s a b) :
    (l.orderedInsert r a).Pairwise fun a b => r a b ∧ (r b a → s a b) := by
  induction l with
  | nil => simp
  | cons b l ih =>
    obtain ⟨hb, hl'⟩ := List.pairwise_cons.1 hl
    by_cases hab : r a b
    · rw [List.orderedInsert_cons_of_le r l hab, List.pairwise_cons]
      refine ⟨fun c hc => ⟨?_, fun _ => ha c hc⟩, hl⟩
      rcases List.mem_cons.1 hc with rfl | hc
      · exact hab
      · exact htrans a b c hab (hb c hc).1
    · rw [List.orderedInsert_of_not_le r l hab, List.pairwise_cons]
      refine ⟨fun c hc => ?_, ih hl' fun c hc => ha c (List.mem_cons_of_mem b hc)⟩
      rcases List.mem_cons.1 ((List.perm_orderedInsert r a l).mem_iff.1 hc) with rfl | hc
      · exact ⟨(htotal c b).resolve_left hab, fun hcb => absurd hcb hab⟩
      · exact hb c hc

/-- Rows that compare equal keep their order. -/
theorem pairwise_insertionSort_stable (htotal : ∀ a b, r a b ∨ r b a)
    (htrans : ∀ a b c, r a b → r b c → r a c) (hl : l.Pairwise s) :
    (l.insertionSort r).Pairwise fun a b => r a b ∧ (r b a → s a b) := by
  induction l with
  | nil => exact .nil
  | cons a l ih =>
    obtain ⟨ha, hl'⟩ := List.pairwise_cons.1 hl
    rw [List.insertionSort_cons]
    refine pairwise_orderedInsert_stable htotal htrans (ih hl') fun b hb => ha b ?_
    exact (List.mem_insertionSort r).1 hb

end Stable

/-! ## First occurrences -/

section Occurrences

variable [DecidableEq A]

theorem eraseDups_concat (l : List A) (a : A) :
    (l ++ [a]).eraseDups = if a ∈ l then l.eraseDups else l.eraseDups ++ [a] := by
  rw [List.eraseDups_append]
  by_cases ha : a ∈ l
  · simp [List.removeAll, ha]
  · simp [List.removeAll, ha, List.eraseDups_cons]

/-- The list without its repetitions is in the order of first occurrence. -/
theorem pairwise_idxOf_eraseDups (l : List A) :
    l.eraseDups.Pairwise fun a b => l.idxOf a < l.idxOf b := by
  induction l using List.reverseRecOn with
  | nil => simp
  | append_singleton l a ih =>
    have hkeep : l.eraseDups.Pairwise fun b c => (l ++ [a]).idxOf b < (l ++ [a]).idxOf c := by
      refine ih.imp_of_mem fun {b c} hb hc hlt => ?_
      rwa [List.idxOf_append_of_mem (List.mem_eraseDups.1 hb),
        List.idxOf_append_of_mem (List.mem_eraseDups.1 hc)]
    rw [eraseDups_concat]
    split_ifs with ha
    · exact hkeep
    · refine List.pairwise_append.2 ⟨hkeep, List.pairwise_singleton _ _, fun b hb c hc => ?_⟩
      obtain rfl := List.mem_singleton.1 hc
      have hb' : b ∈ l := List.mem_eraseDups.1 hb
      rw [List.idxOf_append_of_mem hb', List.idxOf_append_of_notMem ha]
      exact (List.idxOf_lt_length_of_mem hb').trans_le (Nat.le_add_right _ _)

theorem nodup_eraseDups (l : List A) : l.eraseDups.Nodup := by
  refine (pairwise_idxOf_eraseDups l).imp fun {a b} hlt => ?_
  rintro rfl
  exact lt_irrefl _ hlt

/-- A row that occurs before the first `a` does so in every list that starts alike up to `a`. -/
theorem idxOf_lt_of_common_front {front rest rest' : List A} {b : A}
    (hlt : (front ++ a :: rest).idxOf b < (front ++ a :: rest).idxOf a) :
    (front ++ rest').idxOf b < (front ++ rest').idxOf a := by
  by_cases ha : a ∈ front
  · rw [List.idxOf_append_of_mem ha] at hlt ⊢
    have hfront : (front ++ a :: rest).idxOf b < front.length :=
      hlt.trans (List.idxOf_lt_length_of_mem ha)
    have hb : b ∈ front := by
      by_contra hb
      rw [List.idxOf_append_of_notMem hb] at hfront
      omega
    rwa [List.idxOf_append_of_mem hb] at hlt ⊢
  · rw [List.idxOf_append_of_notMem ha, List.idxOf_cons_self] at hlt
    have hb : b ∈ front := by
      by_contra hb
      rw [List.idxOf_append_of_notMem hb] at hlt
      omega
    rw [List.idxOf_append_of_mem hb, List.idxOf_append_of_notMem ha]
    exact (List.idxOf_lt_length_of_mem hb).trans_le (Nat.le_add_right _ _)

/-! ## Positions -/

variable {r r' : A → A → Prop}

/-- In an ordered list the position of a row is the number of rows before it. -/
theorem idxOf_eq_countP [DecidableRel r] (hasymm : ∀ a b, r a b → ¬ r b a) (hl : l.Pairwise r)
    (ha : a ∈ l) : l.idxOf a = l.countP (r · a) := by
  induction l with
  | nil => cases ha
  | cons b l ih =>
    obtain ⟨hb, hl'⟩ := List.pairwise_cons.1 hl
    by_cases hba : b = a
    · subst hba
      have hnone : l.countP (r · b) = 0 := by
        rw [List.countP_eq_zero]
        intro c hc
        simpa using hasymm b c (hb c hc)
      have hself : ¬ r b b := fun h => hasymm b b h h
      rw [List.idxOf_cons_self, List.countP_cons, hnone]
      simp [hself]
    · have ha' : a ∈ l := (List.mem_cons.1 ha).resolve_left (Ne.symm hba)
      rw [List.idxOf_cons_ne l hba, List.countP_cons, ih hl' ha', if_pos (by simpa using hb a ha')]

/-- Two orders of the same rows: if nothing comes before `a` in the second that does not in the first,
`a` is ranked no later in the second. -/
theorem idxOf_le_of_before [DecidableRel r] [DecidableRel r'] (hasymm : ∀ a b, r a b → ¬ r b a)
    (hasymm' : ∀ a b, r' a b → ¬ r' b a) (hl : l.Pairwise r) (hl' : l'.Pairwise r')
    (hperm : l'.Perm l) (ha : a ∈ l) (hbefore : ∀ b ∈ l, r' b a → r b a) :
    l'.idxOf a ≤ l.idxOf a := by
  rw [idxOf_eq_countP hasymm hl ha, idxOf_eq_countP hasymm' hl' (hperm.mem_iff.2 ha),
    hperm.countP_eq]
  refine List.countP_mono_left fun b hb hr => ?_
  exact decide_eq_true (hbefore b hb (of_decide_eq_true hr))

end Occurrences

end Ranking
