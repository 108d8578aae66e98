import Mathlib.Data.List.Sort

/-!
# Listings in the order of a key

`sortBy key l` lists `l` in ascending order of `key`, rows with equal keys in the order of `l`.  When
the keys are distinct the listing does not depend on the order of `l`, and the listing of fewer rows
is a sublist of the listing of more (`sortBy_sublist`).  It is a prefix exactly when the rows that
it lacks come after all the rows that it has (`prefix_iff_of_sublist`).
-/

namespace Listing

variable {R K : Type*} [LinearOrder K] (key : R → K) {l l₁ l₂ : List R}

/-- Rows in ascending order of a key. -/
def sortBy (l : List R) : List R := l.insertionSort fun a b => key a ≤ key b

theorem perm_sortBy (l : List R) : (sortBy key l).Perm l := List.perm_insertionSort _ _

@[simp]
theorem mem_sortBy {a : R} : a ∈ sortBy key l ↔ a ∈ l := (perm_sortBy key l).mem_iff

@[simp]
theorem length_sortBy : (sortBy key l).length = l.length := (perm_sortBy key l).length_eq

theorem pairwise_sortBy (l : List R) : (sortBy key l).Pairwise fun a b => key a ≤ key b := by
  have : Std.Total fun a b : R => key a ≤ key b := ⟨fun a b => le_total (key a) (key b)⟩
  have : IsTrans R fun a b => key a ≤ key b := ⟨fun _ _ _ => le_trans⟩
  exact List.pairwise_insertionSort _ _

/-- Distinct keys are listed in strictly ascending order. -/
theorem pairwise_lt_sortBy (h : (l.map key).Nodup) :
    (sortBy key l).Pairwise fun a b => key a < key b := by
  have hnd : ((sortBy key l).map key).Nodup := ((perm_sortBy key l).map key).nodup_iff.2 h
  rw [List.Nodup, List.pairwise_map] at hnd
  exact (pairwise_sortBy key l).imp₂ (fun _ _ hle hne => lt_of_le_of_ne hle hne) hnd

/-- Fewer rows, in any order, give a sublist of the listing. -/
theorem sortBy_sublist (h : (l₂.map key).Nodup) (hsub : l₁.Subperm l₂) :
    (sortBy key l₁).Sublist (sortBy key l₂) := by
  have : Std.Antisymm fun a b : R => key a < key b :=
    ⟨fun a b hab hba => absurd hab (lt_asymm hba)⟩
  have h₁ : (l₁.map key).Nodup := by
    obtain ⟨l, hperm, hl⟩ := hsub
    exact ((hperm.map key).nodup_iff).1 (h.sublist (hl.map key))
  refine List.sublist_of_subperm_of_pairwise ?_ (pairwise_lt_sortBy key h₁) (pairwise_lt_sortBy key h)
  exact ((perm_sortBy key l₁).subperm.trans hsub).trans (perm_sortBy key l₂).symm.subperm

variable {key}

/-- A sublist of an ascending list is a prefix when what it lacks comes after what it has. -/
theorem prefix_iff_of_sublist (hsub : l₁.Sublist l₂) (h : l₂.Pairwise fun a b => key a < key b) :
    l₁ <+: l₂ ↔ ∀ a ∈ l₂, a ∉ l₁ → ∀ b ∈ l₁, key b < key a := by
  constructor
  · rintro ⟨l, rfl⟩ a ha hna b hb
    exact (List.pairwise_append.1 h).2.2 b hb a ((List.mem_append.1 ha).resolve_left hna)
  · intro hlate
    induction hsub with
    | slnil => exact List.prefix_rfl
    | @cons l₁ l₂ a hsub ih =>
      obtain ⟨ha, h⟩ := List.pairwise_cons.1 h
      cases l₁ with
      | nil => exact List.nil_prefix
      | cons b l₁ =>
        have hna : a ∉ b :: l₁ := fun hmem => lt_irrefl _ (ha a (hsub.subset hmem))
        have hb : key b < key a := hlate a List.mem_cons_self hna b List.mem_cons_self
        exact absurd hb (lt_asymm (ha b (hsub.subset List.mem_cons_self)))
    | @cons_cons l₁ l₂ a hsub ih =>
      obtain ⟨ha, h⟩ := List.pairwise_cons.1 h
      refine (List.prefix_cons_inj a).2 (ih h fun x hx hnx b hb => ?_)
      refine hlate x (List.mem_cons_of_mem a hx) (fun hmem => ?_) b (List.mem_cons_of_mem a hb)
      rcases List.mem_cons.1 hmem with rfl | hmem
      · exact lt_irrefl _ (ha _ hx)
      · exact hnx hmem

/-- A sublist of an ascending list is a suffix when what it lacks comes before what it has. -/
theorem suffix_iff_of_sublist (hsub : l₁.Sublist l₂) (h : l₂.Pairwise fun a b => key a < key b) :
    l₁ <:+ l₂ ↔ ∀ a ∈ l₂, a ∉ l₁ → ∀ b ∈ l₁, key a < key b := by
  have hreverse : l₂.reverse.Pairwise fun a b => OrderDual.toDual (key a) < OrderDual.toDual (key b) :=
    List.pairwise_reverse.2 h
  rw [← List.reverse_prefix, prefix_iff_of_sublist (List.reverse_sublist.2 hsub) hreverse]
  simp only [List.mem_reverse, OrderDual.toDual_lt_toDual]

/-! ## The last row that satisfies a condition -/

section Last

variable {R : Type*} {l : List R}

theorem findRev?_append (p : R → Bool) (l₁ l₂ : List R) :
    (l₁ ++ l₂).findRev? p = (l₂.findRev? p).or (l₁.findRev? p) := by
  simp [List.findRev?_eq_find?_reverse, List.find?_append]

theorem findRev?_eq_none {p : R → Bool} :
    l.findRev? p = none ↔ ∀ a ∈ l, ¬ p a := by
  simp [List.findRev?_eq_find?_reverse, List.find?_eq_none]

theorem mem_of_findRev? {p : R → Bool} {a : R} (h : l.findRev? p = some a) :
    a ∈ l ∧ p a := by
  rw [List.findRev?_eq_find?_reverse] at h
  exact ⟨List.mem_reverse.1 (List.mem_of_find?_eq_some h), List.find?_some h⟩

end Last

end Listing
