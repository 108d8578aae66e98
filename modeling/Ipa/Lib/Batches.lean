import Ipa.Lib.Dict
import Ipa.Lib.Listing
import Mathlib.Algebra.Order.Group.Nat
import Mathlib.Data.List.Forall2
import Mathlib.Data.List.Perm.Basic

/-!
# Batches whose items take effect in any order

A list is cut into batches.  The batches follow one another, and the items of one batch take effect in
any order (`Interleaved`).

* `flatten_batches`: the batches have the items of the list, in its order.
* `get?_interleaved_iff`: assignments leave the same values in every such order if and only if the
  last batch that has a key gives it one value.
-/

namespace Batch

open Listing

variable {A : Type*}

/-- The slices `items[start : start + size]` for `start` in `range(0, len(items), size)`. -/
def batches (size : ℕ) (items : List A) : List (List A) :=
  (List.range' 0 ((items.length + size - 1) / size) size).map fun start =>
    (items.drop start).take size

theorem flatten_slices (size : ℕ) (items : List A) (start n : ℕ) :
    ((List.range' start n size).map fun start => (items.drop start).take size).flatten =
      (items.drop start).take (n * size) := by
  induction n generalizing start with
  | zero => simp
  | succ n ih =>
    rw [List.range'_succ, List.map_cons, List.flatten_cons, ih, Nat.succ_mul, Nat.add_comm (n * size),
      List.take_add, List.drop_drop]

theorem flatten_batches {size : ℕ} (hsize : 0 < size) (items : List A) :
    (batches size items).flatten = items := by
  have hall : items.length ≤ (items.length + size - 1) / size * size := by
    have hlt := Nat.lt_div_mul_add (a := items.length + size - 1) hsize
    omega
  rw [batches, flatten_slices, List.drop_zero, List.take_of_length_le hall]

theorem batches_nil (size : ℕ) : batches size ([] : List A) = [] := by
  have hzero : (0 + size - 1) / size = 0 := by
    rcases size.eq_zero_or_pos with rfl | hsize
    · rfl
    · exact Nat.div_eq_of_lt (by omega)
  rw [batches, List.length_nil, hzero]
  rfl

/-- The first batch, and the batches of the rest. -/
theorem batches_of_ne_nil {size : ℕ} (hsize : 0 < size) {items : List A} (hne : items ≠ []) :
    batches size items = items.take size :: batches size (items.drop size) := by
  have hpos : 0 < items.length := List.length_pos_iff.2 hne
  have hcount : (items.length + size - 1) / size = (items.length - size + size - 1) / size + 1 := by
    rcases Nat.lt_or_ge items.length size with hlt | hge
    · have hzero : (items.length - size + size - 1) / size = 0 := Nat.div_eq_of_lt (by omega)
      rw [hzero, zero_add]
      exact Nat.div_eq_of_lt_le (by omega) (by omega)
    · rw [Nat.sub_add_cancel hge, ← Nat.add_div_right _ hsize]
      congr 1
      omega
  unfold batches
  rw [hcount, List.range'_succ, List.map_cons, List.drop_zero, List.length_drop, zero_add]
  congr 1
  have hshift (n : ℕ) : (List.range' 0 n size).map (size + ·) = List.range' size n size :=
    List.map_add_range' 0 n size
  rw [← hshift, List.map_map]
  refine List.map_congr_left fun start _ => ?_
  rw [Function.comp_apply, List.drop_drop]

/-- One order in which the items of the batches can take effect. -/
def Interleaved (bs : List (List A)) (order : List A) : Prop :=
  ∃ orders, List.Forall₂ List.Perm orders bs ∧ order = orders.flatten

theorem interleaved_nil : Interleaved ([] : List (List A)) [] := ⟨[], .nil, rfl⟩

theorem Interleaved.cons {bs : List (List A)} {b b' order : List A} (hb : b'.Perm b)
    (h : Interleaved bs order) : Interleaved (b :: bs) (b' ++ order) := by
  obtain ⟨orders, hperm, rfl⟩ := h
  exact ⟨b' :: orders, .cons hb hperm, rfl⟩

theorem Interleaved.perm {bs : List (List A)} {order : List A} (h : Interleaved bs order) :
    order.Perm bs.flatten := by
  obtain ⟨orders, hperm, rfl⟩ := h
  induction hperm with
  | nil => exact .refl _
  | cons hb _ ih => exact hb.append ih

/-! ## Assignments -/

section Assign

variable {K V : Type*} {key : A → K} {value : A → V} {bs : List (List A)} {b order : List A}

/-- The last batch that has a key gives it one value. -/
def Settled (key : A → K) (value : A → V) (bs : List (List A)) : Prop :=
  ∀ earlier b later, bs = earlier ++ b :: later → ∀ a ∈ b, ∀ a' ∈ b, key a = key a' →
    (∀ a'' ∈ later.flatten, key a'' ≠ key a) → value a = value a'

theorem Settled.tail (h : Settled key value (b :: bs)) : Settled key value bs :=
  fun earlier b' later hbs => h (b :: earlier) b' later (congrArg (b :: ·) hbs)

variable [DecidableEq K]

theorem Settled.findRev?_eq (h : Settled key value bs) (horder : Interleaved bs order) (k : K) :
    (order.findRev? fun a => key a = k).map value =
      (bs.flatten.findRev? fun a => key a = k).map value := by
  obtain ⟨orders, hperm, rfl⟩ := horder
  induction hperm with
  | nil => rfl
  | @cons b' b orders bs hb hperm ih =>
    have hrest := ih h.tail
    rw [List.flatten_cons, List.flatten_cons, findRev?_append, findRev?_append]
    cases hlate : bs.flatten.findRev? fun a => key a = k with
    | some a =>
      rw [hlate] at hrest
      obtain ⟨a', ha', hvalue⟩ := Option.map_eq_some_iff.1 hrest
      rw [ha']
      exact congrArg some hvalue
    | none =>
      rw [hlate] at hrest
      rw [Option.map_eq_none_iff.1 hrest, Option.none_or, Option.none_or]
      -- the last value of either order of `b` is the one value that `b` gives the key
      cases hlast : b.findRev? fun a => key a = k with
      | none =>
        have hnone : (b'.findRev? fun a => key a = k) = none :=
          findRev?_eq_none.2 fun a ha => findRev?_eq_none.1 hlast a (hb.mem_iff.1 ha)
        rw [hnone]
      | some a =>
        obtain ⟨ha, hk⟩ := mem_of_findRev? hlast
        cases hlast' : b'.findRev? fun a => key a = k with
        | none => exact absurd hk (findRev?_eq_none.1 hlast' a (hb.mem_iff.2 ha))
        | some a' =>
          obtain ⟨ha', hk'⟩ := mem_of_findRev? hlast'
          have hka : key a = k := of_decide_eq_true hk
          have hka' : key a' = k := of_decide_eq_true hk'
          refine congrArg some (h [] b bs rfl a' (hb.mem_iff.1 ha') a ha (hka'.trans hka.symm) ?_)
          intro a'' ha'' hk''
          exact findRev?_eq_none.1 hlate a'' ha'' (decide_eq_true (hk''.trans hka'))

/-- An item of the last batch that has its key can be the last one to take effect. -/
theorem exists_interleaved_last (earlier : List (List A)) {later : List (List A)} {a : A} (ha : a ∈ b)
    (hlate : ∀ a' ∈ later.flatten, key a' ≠ key a) :
    ∃ order, Interleaved (earlier ++ b :: later) order ∧
      order.findRev? (fun a' => key a' = key a) = some a := by
  obtain ⟨l₁, l₂, rfl⟩ := List.append_of_mem ha
  refine ⟨_, ⟨earlier ++ ((l₁ ++ l₂) ++ [a]) :: later, ?_, rfl⟩, ?_⟩
  · refine List.rel_append (List.forall₂_same.2 fun _ _ => .refl _) (.cons ?_ ?_)
    · rw [List.append_assoc]
      exact (List.perm_append_singleton a l₂).append_left l₁
    · exact List.forall₂_same.2 fun _ _ => .refl _
  · have hnone : later.flatten.findRev? (fun a' => key a' = key a) = none :=
      findRev?_eq_none.2 fun a' ha' => by simpa using hlate a' ha'
    rw [List.flatten_append, List.flatten_cons, findRev?_append, findRev?_append, findRev?_append,
      hnone]
    simp [List.findRev?]

/-- Assignments in batches leave the values that they leave one after another, whatever the order in
each batch, if and only if the last batch that has a key gives it one value. -/
theorem get?_interleaved_iff (d : Dict K V) :
    (∀ order, Interleaved bs order → ∀ k,
      (d.assign key value order).get? k = (d.assign key value bs.flatten).get? k) ↔
      Settled key value bs := by
  constructor
  · rintro h earlier b later rfl a ha a' ha' hkey hlate
    have hlast : ∀ a ∈ b, (∀ a' ∈ later.flatten, key a' ≠ key a) → some (value a) =
        (d.assign key value (earlier ++ b :: later).flatten).get? (key a) := by
      intro a ha hlate
      obtain ⟨order, horder, hfind⟩ := exists_interleaved_last earlier ha hlate
      rw [← h order horder, Dict.get?_assign, hfind]
      rfl
    have hvalue := hlast a' ha' fun a'' ha'' => hkey ▸ hlate a'' ha''
    rw [← hkey, ← hlast a ha hlate] at hvalue
    exact (Option.some.inj hvalue).symm
  · intro h order horder k
    rw [Dict.get?_assign, Dict.get?_assign, h.findRev?_eq horder]

end Assign

end Batch
