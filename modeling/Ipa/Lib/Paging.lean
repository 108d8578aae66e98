import Mathlib.Data.List.Nodup
import Mathlib.Data.List.Perm.Basic
import Mathlib.Data.List.Sort
import Mathlib.Order.Defs.LinearOrder

/-!
# Pages of a list ordered by a key

A server lists rows with the greatest keys first and rows with equal keys in any order (`Listed`), and
each page is cut from an order of its own (`pages`).

* `pages_perm_iff`: whatever the orders are the pages have every row once, if and only if no page ends
  among rows with equal keys.
* `pages_eq`: when the keys are distinct the pages are those of the one order that there is.
-/

namespace Paging

variable {R K : Type*} [LinearOrder K] {key : R → K} {l o o' : List R} {size n i : ℕ} {a b : R}

/-- An order in which the rows of `l` may be listed. -/
structure Listed (key : R → K) (l o : List R) : Prop where
  perm : o.Perm l
  sorted : o.Pairwise fun a b => key b ≤ key a

/-- The rows `i * size` to `(i + 1) * size`. -/
def page (size i : ℕ) (o : List R) : List R := (o.drop (i * size)).take size

/-- The first `n` pages, the page `i` being cut from the order `orders i`. -/
def pages (size n : ℕ) (orders : ℕ → List R) : List R :=
  (List.range n).flatMap fun i => page size i (orders i)

/-- A page begins behind rows with greater keys. -/
def CleanCut (key : R → K) (size i : ℕ) (o : List R) : Prop :=
  ∀ a b, o[i * size - 1]? = some a → o[i * size]? = some b → key b < key a

theorem exists_listed (key : R → K) (l : List R) : ∃ o, Listed key l o := by
  have : Std.Total fun a b : R => key b ≤ key a := ⟨fun a b => le_total (key b) (key a)⟩
  have : IsTrans R fun a b => key b ≤ key a := ⟨fun _ _ _ hab hbc => hbc.trans hab⟩
  exact ⟨l.insertionSort fun a b => key b ≤ key a, List.perm_insertionSort _ _,
    List.pairwise_insertionSort _ _⟩

/-- The pages of one order are its first rows. -/
theorem pages_const (size n : ℕ) (o : List R) : pages size n (fun _ => o) = o.take (n * size) := by
  induction n with
  | zero => simp [pages]
  | succ n ih =>
    rw [pages, List.range_succ, List.flatMap_append, List.flatMap_singleton, ← pages, ih, page,
      Nat.succ_mul, List.take_add]

/-- All orders have the keys in one order. -/
theorem Listed.map_key_eq (h : Listed key l o) (h' : Listed key l o') : o.map key = o'.map key := by
  refine List.Perm.eq_of_pairwise (fun _ _ _ _ hab hba => le_antisymm hba hab) ?_ ?_
    ((h.perm.trans h'.perm.symm).map key)
  · exact List.pairwise_map.2 h.sorted
  · exact List.pairwise_map.2 h'.sorted

/-- The rows in front of a clean cut are those with greater keys. -/
theorem take_eq_filter (h : o.Pairwise fun a b => key b ≤ key a) (hb : o[i]? = some b)
    (hcut : ∀ a, o[i - 1]? = some a → 0 < i → key b < key a) :
    o.take i = o.filter fun a => key b < key a := by
  obtain ⟨hi, hbi⟩ := List.getElem?_eq_some_iff.1 hb
  rw [List.pairwise_iff_getElem] at h
  conv_rhs => rw [← List.take_append_drop i o, List.filter_append]
  have hfront : (o.take i).filter (fun a => key b < key a) = o.take i := by
    refine List.filter_eq_self.2 fun a ha => decide_eq_true ?_
    obtain ⟨j, hj, rfl⟩ := List.mem_iff_getElem.1 ha
    rw [List.length_take] at hj
    rw [List.getElem_take]
    have hlast : key b < key o[i - 1] := hcut _ (List.getElem?_eq_getElem (by omega)) (by omega)
    rcases Nat.lt_or_ge j (i - 1) with hlt | hge
    · exact hlast.trans_le (h j (i - 1) (by omega) (by omega) hlt)
    · have hji : j = i - 1 := by omega
      subst hji
      exact hlast
  have hback : (o.drop i).filter (fun a => key b < key a) = [] := by
    refine List.filter_eq_nil_iff.2 fun a ha => ?_
    rw [decide_eq_true_eq, not_lt]
    obtain ⟨j, hj, rfl⟩ := List.mem_iff_getElem.1 ha
    rw [List.length_drop] at hj
    rw [List.getElem_drop, ← hbi]
    rcases j.eq_zero_or_pos with rfl | hpos
    · exact le_rfl
    · exact h i (i + j) (by omega) (by omega) (by omega)
  rw [hfront, hback, List.append_nil]

/-- All orders have the same rows in front of a clean cut. -/
theorem Listed.take_perm (h : Listed key l o) (h' : Listed key l o')
    (hcut : 0 < i * size → i * size < l.length → ∀ o, Listed key l o → CleanCut key size i o) :
    (o.take (i * size)).Perm (o'.take (i * size)) := by
  rcases (i * size).eq_zero_or_pos with hzero | hpos
  · rw [hzero, List.take_zero, List.take_zero]
  · rcases Nat.lt_or_ge (i * size) l.length with hlt | hge
    · have hcut := hcut hpos hlt
      have hfilter : ∀ o, Listed key l o → ∀ (hi : i * size < o.length),
          o.take (i * size) = o.filter fun a => key o[i * size] < key a := by
        intro o ho hi
        exact take_eq_filter ho.sorted (List.getElem?_eq_getElem hi) fun a ha _ =>
          hcut o ho a _ ha (List.getElem?_eq_getElem hi)
      have hi : i * size < o.length := by rwa [h.perm.length_eq]
      have hi' : i * size < o'.length := by rwa [h'.perm.length_eq]
      have hkey : key o[i * size] = key o'[i * size] := by
        have hmap := congrArg (fun ks => ks[i * size]?) (h.map_key_eq h')
        simpa [hi, hi'] using hmap
      rw [hfilter o h hi, hfilter o' h' hi', hkey]
      exact (h.perm.trans h'.perm.symm).filter _
    · rw [List.take_of_length_le (by rwa [h.perm.length_eq]),
        List.take_of_length_le (by rwa [h'.perm.length_eq])]
      exact h.perm.trans h'.perm.symm

/-- All orders have the same rows on a page between clean cuts. -/
theorem Listed.page_perm (h : Listed key l o) (h' : Listed key l o')
    (hcut : ∀ i, 0 < i * size → i * size < l.length → ∀ o, Listed key l o → CleanCut key size i o)
    (i : ℕ) : (page size i o).Perm (page size i o') := by
  have hfront := h.take_perm h' (hcut i)
  have hnext := h.take_perm h' (hcut (i + 1))
  rw [Nat.succ_mul, List.take_add, List.take_add] at hnext
  exact (List.perm_append_left_iff _).1 (hnext.trans (hfront.symm.append_right _))

/-- Two neighbours with equal keys may be listed the other way round. -/
theorem Listed.swap {front back : List R} (h : Listed key l (front ++ a :: b :: back))
    (hkey : key a ≤ key b) : Listed key l (front ++ b :: a :: back) where
  perm := ((List.Perm.swap a b back).append_left front).trans h.perm
  sorted := by
    have hsorted := h.sorted
    simp only [List.pairwise_append, List.pairwise_cons, List.mem_cons, forall_eq_or_imp] at hsorted ⊢
    obtain ⟨hfront, ⟨⟨-, ha⟩, hb, hback⟩, hacross⟩ := hsorted
    refine ⟨hfront, ⟨⟨hkey, hb⟩, ha, hback⟩, fun c hc => ?_⟩
    obtain ⟨hca, hcb, hcback⟩ := hacross c hc
    exact ⟨hcb, hca, hcback⟩

/-- The row in front of a page, if it stands at the beginning of the page in another order, is on two
pages. -/
theorem not_nodup_pages {orders : ℕ → List R} (hsize : 0 < size) (hi : 0 < i) (hn : i < n)
    (ha : (orders (i - 1))[i * size - 1]? = some a) (ha' : (orders i)[i * size]? = some a) :
    ¬ (pages size n orders).Nodup := by
  intro hnodup
  have hdisjoint := (List.nodup_flatMap.1 hnodup).2
  rw [List.pairwise_iff_getElem] at hdisjoint
  have hpair := hdisjoint (i - 1) i (by simp; omega) (by simpa using hn) (by omega)
  rw [List.getElem_range, List.getElem_range] at hpair
  have hlt : (i - 1) * size + size = i * size := by
    rw [← Nat.succ_mul, Nat.succ_eq_add_one, Nat.sub_add_cancel hi]
  have hfirst : a ∈ page size (i - 1) (orders (i - 1)) := by
    refine List.mem_of_getElem? (i := size - 1) ?_
    rw [page, List.getElem?_take_of_lt (by omega), List.getElem?_drop, ← ha]
    congr 1
    omega
  have hsecond : a ∈ page size i (orders i) := by
    refine List.mem_of_getElem? (i := 0) ?_
    rw [page, List.getElem?_take_of_lt hsize, List.getElem?_drop, ← ha']
    rfl
  exact hpair hfirst hsecond

/-- Whatever orders the pages are cut from, together they have every row once, if and only if no page
ends among rows with equal keys. -/
theorem pages_perm_iff (hl : l.Nodup) (hsize : 0 < size) (hall : l.length ≤ n * size) :
    (∀ orders, (∀ i, Listed key l (orders i)) → (pages size n orders).Perm l) ↔
      ∀ i, 0 < i → i * size < l.length → ∀ o, Listed key l o → CleanCut key size i o := by
  constructor
  · intro hpages i hi hlt o ho a b ha hb
    by_contra hkey
    rw [not_lt] at hkey
    obtain ⟨front, back, rfl, hfront⟩ : ∃ front back, o = front ++ a :: b :: back ∧
        front.length = i * size - 1 := by
      obtain ⟨hilt, hbi⟩ := List.getElem?_eq_some_iff.1 hb
      obtain ⟨hilt', hai⟩ := List.getElem?_eq_some_iff.1 ha
      refine ⟨o.take (i * size - 1), o.drop (i * size + 1), ?_, by rw [List.length_take]; omega⟩
      have hsplit : o.drop (i * size - 1) = a :: b :: o.drop (i * size + 1) := by
        rw [List.drop_eq_getElem_cons hilt', hai, Nat.sub_add_cancel (Nat.mul_pos hi hsize),
          List.drop_eq_getElem_cons hilt, hbi]
      rw [← hsplit, List.take_append_drop]
    have hpos := Nat.mul_pos hi hsize
    let orders : ℕ → List R := fun j => if j = i then front ++ b :: a :: back else front ++ a :: b :: back
    have horders : ∀ j, Listed key l (orders j) := by
      intro j
      dsimp only [orders]
      split_ifs
      · exact ho.swap hkey
      · exact ho
    have hn : i < n := Nat.lt_of_mul_lt_mul_right (hlt.trans_le hall)
    refine absurd ((hpages orders horders).nodup_iff.2 hl) (not_nodup_pages (a := a) hsize hi hn ?_ ?_)
    · have hfirst : orders (i - 1) = front ++ a :: b :: back := if_neg (by omega)
      rw [hfirst]
      exact ha
    · have hsecond : orders i = front ++ b :: a :: back := if_pos rfl
      rw [hsecond, List.getElem?_append_right (by omega), hfront]
      have hone : i * size - (i * size - 1) = 1 := by omega
      rw [hone]
      rfl
  · intro hcut orders horders
    obtain ⟨o, ho⟩ := exists_listed key l
    have hcut' : ∀ i, 0 < i * size → i * size < l.length → ∀ o, Listed key l o → CleanCut key size i o :=
      fun i hi => hcut i (Nat.pos_of_mul_pos_right hi)
    have hsame : (pages size n orders).Perm (pages size n fun _ => o) :=
      List.Perm.flatMap_left _ fun i _ => (horders i).page_perm ho hcut' i
    rw [pages_const, List.take_of_length_le (by rwa [ho.perm.length_eq])] at hsame
    exact hsame.trans ho.perm

/-- Rows with distinct keys have one order. -/
theorem pages_eq (hkey : (l.map key).Nodup) (ho : Listed key l o) {orders : ℕ → List R}
    (horders : ∀ i, Listed key l (orders i)) : pages size n orders = o.take (n * size) := by
  have hsame : ∀ o', Listed key l o' → o' = o := by
    intro o' ho'
    refine List.Perm.eq_of_pairwise ?_ ho'.sorted ho.sorted
      (ho'.perm.trans ho.perm.symm)
    intro a b ha hb hab hba
    exact List.inj_on_of_nodup_map hkey (ho'.perm.mem_iff.1 ha) (ho.perm.mem_iff.1 hb)
      (le_antisymm hba hab)
  rw [← pages_const]
  exact congrArg (pages size n) (funext fun i => hsame _ (horders i))

end Paging
