import Mathlib.Data.List.Nodup
import Mathlib.Tactic.Common

/-!
# Tables with a unique key

A table is a list of rows in which no two rows have the same key, the constraint being part of the
value (`Table`).  Three kinds of statement act on it:

* `Table.insertAll`: append rows whose keys are new;
* `Table.update`: `UPDATE ... SET ... WHERE ... RETURNING`, which fails as a whole when evaluating
  the new values of one row raises;
* `Table.filter`: keep the rows that satisfy a condition (`DELETE` of the others).

`Table.lookup` reads a table as a partial function of the key, and the `lookup_` lemmas say what
each statement does to that function.  Two tables with the same `lookup` answer every query by key
alike, whatever the order of their rows.
-/

variable {R K E : Type*}

/-- Rows with a unique key. -/
structure Table (key : R → K) where
  rows : List R
  nodup : (rows.map key).Nodup

namespace Table

variable {key : R → K}

/-- The table without rows. -/
def empty (key : R → K) : Table key := ⟨[], List.nodup_nil⟩

theorem eq_of_key_eq (t : Table key) {r r' : R} (hr : r ∈ t.rows) (hr' : r' ∈ t.rows)
    (h : key r = key r') : r = r' :=
  List.inj_on_of_nodup_map t.nodup hr hr' h

/-- Keep the rows that satisfy `p`. -/
def filter (t : Table key) (p : R → Bool) : Table key :=
  ⟨t.rows.filter p, t.nodup.sublist ((List.filter_sublist).map key)⟩

@[simp]
theorem rows_filter (t : Table key) (p : R → Bool) : (t.filter p).rows = t.rows.filter p := rfl

/-! ## Reading by key -/

section Lookup

variable [DecidableEq K]

/-- The row with key `k`. -/
def lookup (t : Table key) (k : K) : Option R := t.rows.find? fun r => key r = k

@[simp]
theorem lookup_empty (k : K) : (empty key).lookup k = none := rfl

theorem mem_of_lookup (t : Table key) {k : K} {r : R} (h : t.lookup k = some r) : r ∈ t.rows :=
  List.mem_of_find?_eq_some h

theorem key_of_lookup (t : Table key) {k : K} {r : R} (h : t.lookup k = some r) : key r = k := by
  rw [lookup] at h
  simpa using List.find?_some h

theorem lookup_key (t : Table key) {r : R} (hr : r ∈ t.rows) : t.lookup (key r) = some r := by
  cases h : t.lookup (key r) with
  | none => simpa using List.find?_eq_none.1 h r hr
  | some r' =>
    exact congrArg some (t.eq_of_key_eq (t.mem_of_lookup h) hr (t.key_of_lookup h))

theorem lookup_eq_some_iff (t : Table key) {k : K} {r : R} :
    t.lookup k = some r ↔ r ∈ t.rows ∧ key r = k := by
  refine ⟨fun h => ⟨t.mem_of_lookup h, t.key_of_lookup h⟩, ?_⟩
  rintro ⟨hr, rfl⟩
  exact t.lookup_key hr

theorem lookup_eq_none_iff (t : Table key) {k : K} :
    t.lookup k = none ↔ ∀ r ∈ t.rows, key r ≠ k := by
  simp [lookup, List.find?_eq_none]

/-- The rows with key `k` that satisfy `p`: at most one. -/
theorem filter_key_and (t : Table key) (k : K) (p : R → Bool) :
    t.rows.filter (fun r => decide (key r = k) && p r) = (t.lookup k).toList.filter p := by
  have hsplit : t.rows.filter (fun r => decide (key r = k) && p r) =
      (t.rows.filter fun r => key r = k).filter p := by
    rw [List.filter_filter]
    simp only [Bool.and_comm]
  have hone : (t.rows.filter fun r => key r = k) = (t.lookup k).toList := by
    cases hk : t.lookup k with
    | none =>
      rw [t.lookup_eq_none_iff] at hk
      exact List.filter_eq_nil_iff.2 fun r hr => by simpa using hk r hr
    | some r =>
      obtain ⟨hr, rfl⟩ := t.lookup_eq_some_iff.1 hk
      obtain ⟨l₁, l₂, hl⟩ := List.append_of_mem hr
      have hnd := t.nodup
      rw [hl, List.map_append, List.map_cons, List.nodup_middle, List.nodup_cons] at hnd
      have hoff : ∀ l : List R, (∀ x ∈ l, x ∈ l₁ ++ l₂) → (l.filter fun x => key x = key r) = [] := by
        intro l hsub
        refine List.filter_eq_nil_iff.2 fun x hx hxr => hnd.1 ?_
        rw [← List.map_append]
        exact List.mem_map.2 ⟨x, hsub x hx, by simpa using hxr⟩
      rw [hl, List.filter_append, List.filter_cons, hoff l₁ fun x hx => List.mem_append_left _ hx,
        hoff l₂ fun x hx => List.mem_append_right _ hx]
      simp
  rw [hsplit, hone]

/-- The rows with key `k`: at most one. -/
theorem filter_key (t : Table key) (k : K) :
    (t.rows.filter fun r => key r = k) = (t.lookup k).toList := by
  have h := t.filter_key_and k fun _ => true
  simpa using h

theorem lookup_filter (t : Table key) (p : R → Bool) (k : K) :
    (t.filter p).lookup k = (t.lookup k).filter p := by
  ext r
  rw [lookup_eq_some_iff, Option.filter_eq_some_iff, lookup_eq_some_iff, rows_filter, List.mem_filter]
  tauto

end Lookup

/-! ## Inserting -/

/-- Append rows with new and distinct keys. -/
def insertAll (t : Table key) (new : List R) (hnew : (new.map key).Nodup)
    (hfresh : ∀ r ∈ new, ∀ r' ∈ t.rows, key r' ≠ key r) : Table key :=
  ⟨t.rows ++ new, by
    rw [List.map_append, List.nodup_append]
    refine ⟨t.nodup, hnew, ?_⟩
    rintro _ hk _ hk' rfl
    obtain ⟨r', hr', rfl⟩ := List.mem_map.1 hk
    obtain ⟨r, hr, hkey⟩ := List.mem_map.1 hk'
    exact hfresh r hr r' hr' hkey.symm⟩

theorem fresh_singleton (t : Table key) {r : R} (h : ∀ r' ∈ t.rows, key r' ≠ key r) :
    ∀ r₁ ∈ [r], ∀ r' ∈ t.rows, key r' ≠ key r₁ := by
  simpa using h

/-- Another column without repetitions keeps having none. -/
theorem nodup_map_snoc {A : Type*} {f : R → A} {rows : List R} {r : R} (h : (rows.map f).Nodup)
    (hnew : ∀ r' ∈ rows, f r' ≠ f r) : ((rows ++ [r]).map f).Nodup := by
  rw [List.map_append, List.map_singleton, List.nodup_append]
  refine ⟨h, List.nodup_singleton _, ?_⟩
  rintro _ hold _ hlast rfl
  obtain ⟨r', hr', heq⟩ := List.mem_map.1 hold
  exact hnew r' hr' (heq.trans (List.mem_singleton.1 hlast))

@[simp]
theorem rows_insertAll (t : Table key) (new : List R) (hnew hfresh) :
    (t.insertAll new hnew hfresh).rows = t.rows ++ new := rfl

theorem lookup_insertAll [DecidableEq K] (t : Table key) (new : List R) (hnew hfresh) (k : K) :
    (t.insertAll new hnew hfresh).lookup k =
      (t.lookup k).or (new.find? fun r => key r = k) := by
  simp only [lookup, rows_insertAll, List.find?_append]

/-! ## Updating -/

/-- An update statement: its `WHERE` condition, the error that evaluating the new values of a row
may raise, and the new row, which keeps the key. -/
structure Update (key : R → K) (E : Type*) where
  hits : R → Bool
  raises : R → Option E
  set : R → R
  key_set : ∀ r, key (set r) = key r

/-- What a successful update does to one row. -/
def Update.onRow (u : Update key E) (r : R) : R := if u.hits r then u.set r else r

theorem Update.key_onRow (u : Update key E) (r : R) : key (u.onRow r) = key r := by
  unfold Update.onRow
  split
  · exact u.key_set r
  · rfl

/-- Replace every row by its image under a successful update. -/
def modify (t : Table key) (u : Update key E) : Table key :=
  ⟨t.rows.map u.onRow, by simpa [Function.comp_def, u.key_onRow] using t.nodup⟩

@[simp]
theorem rows_modify (t : Table key) (u : Update key E) :
    (t.modify u).rows = t.rows.map u.onRow := rfl

theorem lookup_modify [DecidableEq K] (t : Table key) (u : Update key E) (k : K) :
    (t.modify u).lookup k = (t.lookup k).map u.onRow := by
  simp only [lookup, rows_modify, List.find?_map, Function.comp_def, u.key_onRow]

/-- Run an update: either an error and the table as it was, or the rows written and the new
table. -/
def update (t : Table key) (u : Update key E) : Table key × Except E (List R) :=
  match (t.rows.filter u.hits).findSome? u.raises with
  | some e => (t, .error e)
  | none => (t.modify u, .ok ((t.rows.filter u.hits).map u.set))

theorem update_of_raises_none (t : Table key) (u : Update key E)
    (h : ∀ r ∈ t.rows, u.hits r → u.raises r = none) :
    t.update u = (t.modify u, .ok ((t.rows.filter u.hits).map u.set)) := by
  have hnone : (t.rows.filter u.hits).findSome? u.raises = none := by
    rw [List.findSome?_eq_none_iff]
    intro r hr
    obtain ⟨hr, hh⟩ := List.mem_filter.1 hr
    exact h r hr hh
  rw [update, hnone]

/-! ### Updates of the row with one key -/

/-- What an update does to the row it may hit, errors included. -/
def Update.tryRow (u : Update key E) (r : R) : R :=
  if u.hits r && (u.raises r).isNone then u.set r else r

theorem Update.tryRow_of_not_hits (u : Update key E) {r : R} (h : u.hits r = false) :
    u.tryRow r = r := by
  simp [tryRow, h]

section Single

variable [DecidableEq K]

/-- The rows written by an update that can only hit the given row. -/
def Update.tryResult (u : Update key E) : Option R → Except E (List R)
  | none => .ok []
  | some r =>
    if u.hits r then
      match u.raises r with
      | some e => .error e
      | none => .ok [u.set r]
    else .ok []

theorem filter_hits_of_single (t : Table key) (u : Update key E) {k : K}
    (hu : ∀ r, u.hits r → key r = k) : t.rows.filter u.hits = (t.lookup k).toList.filter u.hits := by
  rw [← t.filter_key_and]
  refine List.filter_congr fun r _ => ?_
  cases h : u.hits r
  · simp
  · simp [hu r h]

theorem update_single_snd (t : Table key) (u : Update key E) {k : K}
    (hu : ∀ r, u.hits r → key r = k) : (t.update u).2 = u.tryResult (t.lookup k) := by
  rw [update, t.filter_hits_of_single u hu]
  cases hk : t.lookup k with
  | none => rfl
  | some r =>
    cases hh : u.hits r with
    | false => simp [Update.tryResult, hh]
    | true => cases hr : u.raises r <;> simp [Update.tryResult, hh, hr]

theorem lookup_update_single (t : Table key) (u : Update key E) {k : K}
    (hu : ∀ r, u.hits r → key r = k) (k' : K) :
    (t.update u).1.lookup k' = (t.lookup k').map u.tryRow := by
  rw [update, t.filter_hits_of_single u hu]
  cases hk : t.lookup k' with
  | none => split <;> simp [lookup_modify, hk]
  | some r =>
    have hkey : key r = k' := t.key_of_lookup hk
    cases hh : u.hits r with
    | false => split <;> simp [lookup_modify, hk, Update.onRow, Update.tryRow, hh]
    | true =>
      obtain rfl : k' = k := hkey.symm.trans (hu r hh)
      cases hr : u.raises r <;>
        simp [lookup_modify, hk, Update.onRow, Update.tryRow, hh, hr]

end Single

end Table
