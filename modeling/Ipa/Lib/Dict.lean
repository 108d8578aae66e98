import Ipa.Lib.Table
import Mathlib.Data.List.Induction

/-!
# Dictionaries in insertion order

A dictionary is a table of pairs whose key is the first component: an assignment to a key that is
there replaces its value in place, and any other one appends a pair.

* `Dict.get?_set`: what an assignment does to the values.
* `Dict.length_set_le`: an assignment adds one pair at most.
* `Dict.get?_assign`: after many assignments each key has the last value it was given.
* `Dict.get?_update`: what merging a dictionary into another does to the values.
-/

/-- Pairs in the order in which their keys were first assigned. -/
abbrev Dict (K V : Type*) := Table (Prod.fst : K × V → K)

namespace Dict

variable {K V : Type*} [DecidableEq K]

/-- The value of `k`. -/
def get? (d : Dict K V) (k : K) : Option V := (d.lookup k).map Prod.snd

/-- Replace the value of `k`. -/
def replace (k : K) (v : V) : Table.Update (Prod.fst : K × V → K) Empty where
  hits e := e.1 = k
  raises _ := none
  set e := (e.1, v)
  key_set _ := rfl

/-- Assign `v` to `k`. -/
def set (d : Dict K V) (k : K) (v : V) : Dict K V :=
  if h : d.lookup k = none then
    d.insertAll [(k, v)] (List.nodup_singleton _) (d.fresh_singleton (d.lookup_eq_none_iff.1 h))
  else d.modify (replace k v)

theorem get?_eq_some_iff {d : Dict K V} {k : K} {v : V} : d.get? k = some v ↔ (k, v) ∈ d.rows := by
  unfold get?
  rw [Option.map_eq_some_iff]
  constructor
  · rintro ⟨⟨k', v'⟩, he, rfl⟩
    obtain ⟨hmem, rfl⟩ := d.lookup_eq_some_iff.1 he
    exact hmem
  · intro hmem
    exact ⟨(k, v), d.lookup_key hmem, rfl⟩

theorem get?_set (d : Dict K V) (k k' : K) (v : V) :
    (d.set k v).get? k' = if k' = k then some v else d.get? k' := by
  unfold set get?
  split_ifs with hnone hk hk
  · rw [Table.lookup_insertAll, hk, hnone]
    simp
  · rw [Table.lookup_insertAll, List.find?_singleton, if_neg (by simpa using Ne.symm hk)]
    simp
  · obtain ⟨e, he⟩ := Option.ne_none_iff_exists'.1 hnone
    have hkey := d.key_of_lookup he
    rw [Table.lookup_modify, hk, he]
    simp [Table.Update.onRow, replace, hkey]
  · rw [Table.lookup_modify]
    cases he : d.lookup k' with
    | none => rfl
    | some e =>
      have hkey := d.key_of_lookup he
      simp [Table.Update.onRow, replace, hkey, hk]

theorem length_set_le (d : Dict K V) (k : K) (v : V) :
    (d.set k v).rows.length ≤ d.rows.length + 1 := by
  unfold set
  split_ifs
  · refine Nat.le_of_eq ?_
    rw [Table.rows_insertAll, List.length_append, List.length_singleton]
  · rw [Table.rows_modify, List.length_map]
    exact Nat.le_succ _

/-- The keys, in the order in which they were first assigned. -/
def keys (d : Dict K V) : List K := d.rows.map Prod.fst

theorem keys_set (d : Dict K V) (k : K) (v : V) :
    (d.set k v).keys = if k ∈ d.keys then d.keys else d.keys ++ [k] := by
  have hmem : k ∈ d.keys ↔ d.lookup k ≠ none := by
    rw [ne_eq, Table.lookup_eq_none_iff]
    simp [keys]
  by_cases hk : d.lookup k = none
  · rw [set, dif_pos hk, if_neg (by rwa [hmem, not_not]), keys, Table.rows_insertAll, List.map_append]
    rfl
  · rw [set, dif_neg hk, if_pos (hmem.2 hk), keys, Table.rows_modify, List.map_map]
    exact List.map_congr_left fun e _ => Table.Update.key_onRow _ e

/-! ## One assignment after another -/

section Assign

variable {A : Type*} (key : A → K) (value : A → V)

/-- Give each item's value to its key. -/
def assign (d : Dict K V) (items : List A) : Dict K V :=
  items.foldl (fun d a => d.set (key a) (value a)) d

theorem get?_assign (d : Dict K V) (items : List A) (k : K) :
    (d.assign key value items).get? k =
      ((items.findRev? fun a => key a = k).map value).or (d.get? k) := by
  induction items using List.reverseRecOn with
  | nil => rfl
  | append_singleton items a ih =>
    rw [assign, List.foldl_append, List.foldl_cons, List.foldl_nil, ← assign, get?_set, ih]
    simp only [List.findRev?_eq_find?_reverse, List.reverse_append, List.reverse_singleton,
      List.singleton_append, List.find?_cons]
    by_cases hk : k = key a
    · simp [hk]
    · simp [hk, Ne.symm hk]

end Assign

/-! ## Merging -/

/-- Assign every pair of `d'`. -/
def update (d d' : Dict K V) : Dict K V := d.assign Prod.fst Prod.snd d'.rows

theorem get?_update (d d' : Dict K V) (k : K) : (d.update d').get? k = (d'.get? k).or (d.get? k) := by
  rw [update, get?_assign]
  congr 1
  cases hlast : d'.rows.findRev? fun e => e.1 = k with
  | none =>
    have hnone : d'.lookup k = none := by
      rw [Table.lookup_eq_none_iff]
      simpa [List.findRev?_eq_find?_reverse] using hlast
    rw [get?, hnone, Option.map_none]
  | some e =>
    rw [List.findRev?_eq_find?_reverse] at hlast
    have hmem : e ∈ d'.rows := List.mem_reverse.1 (List.mem_of_find?_eq_some hlast)
    have hkey : e.1 = k := by simpa using List.find?_some hlast
    rw [get?, ← hkey, d'.lookup_key hmem]

end Dict
