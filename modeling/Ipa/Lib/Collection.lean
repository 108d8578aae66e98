import Ipa.Lib.Table

/-!
# Collections that may have a unique index

The rows of a `Collection` may share keys until a unique index is created, which fails if two of them
do.  From then on the collection is a `Table` (`Collection.Is`).

Writers that look for their key and insert a row when they have found none do without the index as long
as no two of them are between these operations with one key (`Apart`).
-/

variable {R K : Type*}

/-- Rows, and whether they have a unique index. -/
structure Collection (key : R → K) where
  rows : List R
  indexed : Bool
  nodup : indexed → (rows.map key).Nodup

namespace Collection

variable {key : R → K}

/-- No rows, and no index. -/
def empty (key : R → K) : Collection key := ⟨[], false, fun h => nomatch h⟩

/-- The collection is indexed, and the table has its rows. -/
structure Is (c : Collection key) (t : Table key) : Prop where
  indexed : c.indexed
  rows : t.rows = c.rows

theorem exists_is (c : Collection key) (h : c.indexed) : ∃ t, c.Is t := ⟨⟨c.rows, c.nodup h⟩, h, rfl⟩

/-- Keep the rows that satisfy a condition. -/
def filter (c : Collection key) (p : R → Bool) : Collection key :=
  ⟨c.rows.filter p, c.indexed, fun h => (c.nodup h).sublist (List.filter_sublist.map key)⟩

@[simp]
theorem rows_filter (c : Collection key) (p : R → Bool) : (c.filter p).rows = c.rows.filter p := rfl

@[simp]
theorem indexed_filter (c : Collection key) (p : R → Bool) : (c.filter p).indexed = c.indexed := rfl

section Keys

variable [DecidableEq K]

/-- The first row with key `k`. -/
def lookup (c : Collection key) (k : K) : Option R := c.rows.find? fun r => key r = k

theorem lookup_eq_none_iff (c : Collection key) {k : K} : c.lookup k = none ↔ k ∉ c.rows.map key := by
  simp [lookup, List.find?_eq_none]

theorem Is.lookup_eq {c : Collection key} {t : Table key} (h : c.Is t) (k : K) : t.lookup k = c.lookup k := by
  rw [Table.lookup, h.rows, lookup]

/-- The row at the end, unless the index refuses it. -/
def insertOne (r : R) (c : Collection key) : Option (Collection key) :=
  if h : c.indexed → c.lookup (key r) = none then
    some ⟨c.rows ++ [r], c.indexed, fun hi =>
      Table.nodup_map_snoc (c.nodup hi) fun _ hr' heq =>
        c.lookup_eq_none_iff.1 (h hi) (heq ▸ List.mem_map_of_mem hr')⟩
  else none

/-- The unique index, unless two rows share a key. -/
def createIndex (c : Collection key) : Option (Collection key) :=
  if h : (c.rows.map key).Nodup then some ⟨c.rows, true, fun _ => h⟩ else none

/-- `r` in the place of the first row with its key. -/
def replaceFirst (key : R → K) (r : R) : List R → List R
  | [] => []
  | r' :: rows => if key r' = key r then r :: rows else r' :: replaceFirst key r rows

@[simp]
theorem map_key_replaceFirst (r : R) (rows : List R) : (replaceFirst key r rows).map key = rows.map key := by
  induction rows with
  | nil => rfl
  | cons r' rows ih =>
    rw [replaceFirst]
    split_ifs with heq
    · rw [List.map_cons, List.map_cons, heq]
    · rw [List.map_cons, List.map_cons, ih]

/-- Replace the first row with the key of `r`. -/
def replaceOne (r : R) (c : Collection key) : Collection key :=
  ⟨replaceFirst key r c.rows, c.indexed, fun h => by rw [map_key_replaceFirst]; exact c.nodup h⟩

variable {c c' : Collection key} {r : R}

theorem insertOne_eq_some (h : c.insertOne r = some c') :
    c'.rows = c.rows ++ [r] ∧ c'.indexed = c.indexed := by
  unfold insertOne at h
  split_ifs at h
  cases h
  exact ⟨rfl, rfl⟩

theorem insertOne_eq_none_iff : c.insertOne r = none ↔ c.indexed ∧ c.lookup (key r) ≠ none := by
  unfold insertOne
  split_ifs with h
  · simpa using h
  · simpa using h

theorem createIndex_eq_some (h : c.createIndex = some c') : c'.rows = c.rows ∧ c'.indexed := by
  unfold createIndex at h
  split_ifs at h
  cases h
  exact ⟨rfl, rfl⟩

theorem createIndex_eq_none_iff : c.createIndex = none ↔ ¬ (c.rows.map key).Nodup := by
  unfold createIndex
  split_ifs with h
  · simpa using h
  · simpa using h

@[simp]
theorem rows_getD_createIndex (c : Collection key) : (c.createIndex.getD c).rows = c.rows := by
  cases h : c.createIndex with
  | none => rfl
  | some c' => exact (createIndex_eq_some h).1

theorem indexed_getD_createIndex (h : c.indexed) : (c.createIndex.getD c).indexed := by
  cases hcreate : c.createIndex with
  | none => exact h
  | some c' => exact (createIndex_eq_some hcreate).2

@[simp]
theorem indexed_getD_insertOne (r : R) (c : Collection key) :
    ((c.insertOne r).getD c).indexed = c.indexed := by
  cases h : c.insertOne r with
  | none => rfl
  | some c' => exact (insertOne_eq_some h).2

end Keys

/-! ## Writers that look for their key first -/

/-- The rows have distinct keys, and the writers that have looked and not inserted yet are about to
insert other ones. -/
structure Apart {W : Type*} (keys : List K) (pending : W → Option K) : Prop where
  nodup : keys.Nodup
  free : ∀ w k, pending w = some k → k ∉ keys
  inj : ∀ w w' k, pending w = some k → pending w' = some k → w = w'

namespace Apart

variable {W : Type*} [DecidableEq W] {keys keys' : List K} {pending : W → Option K} {w : W} {k : K}

omit [DecidableEq W] in
theorem sublist (h : Apart keys pending) (hsub : keys'.Sublist keys) : Apart keys' pending where
  nodup := h.nodup.sublist hsub
  free w k hw hk := h.free w k hw (hsub.subset hk)
  inj := h.inj

/-- A writer looks for a key, which no row has and no other writer is about to insert. -/
theorem look (h : Apart keys pending) (hfree : k ∉ keys) (hother : ∀ w', pending w' ≠ some k) :
    Apart keys (Function.update pending w (some k)) := by
  have hcases : ∀ {w' k'}, Function.update pending w (some k) w' = some k' →
      w' = w ∧ k' = k ∨ pending w' = some k' := by
    intro w' k' hw'
    by_cases heq : w' = w
    · rw [heq, Function.update_self] at hw'
      exact .inl ⟨heq, (Option.some.inj hw').symm⟩
    · rw [Function.update_of_ne heq] at hw'
      exact .inr hw'
  refine ⟨h.nodup, fun w' k' hw' => ?_, fun w₁ w₂ k' h₁ h₂ => ?_⟩
  · obtain ⟨-, rfl⟩ | hold := hcases hw'
    · exact hfree
    · exact h.free w' k' hold
  · obtain ⟨rfl, rfl⟩ | hold₁ := hcases h₁
    · obtain ⟨rfl, -⟩ | hold₂ := hcases h₂
      · rfl
      · exact absurd hold₂ (hother w₂)
    · obtain ⟨-, rfl⟩ | hold₂ := hcases h₂
      · exact absurd hold₁ (hother w₁)
      · exact h.inj w₁ w₂ k' hold₁ hold₂

/-- A writer is over. -/
theorem forget (h : Apart keys pending) : Apart keys (Function.update pending w none) := by
  have hold : ∀ {w' k'}, Function.update pending w none w' = some k' → pending w' = some k' := by
    intro w' k' hw'
    by_cases heq : w' = w
    · rw [heq, Function.update_self] at hw'
      cases hw'
    · rwa [Function.update_of_ne heq] at hw'
  exact ⟨h.nodup, fun w' k' hw' => h.free w' k' (hold hw'),
    fun w₁ w₂ k' h₁ h₂ => h.inj w₁ w₂ k' (hold h₁) (hold h₂)⟩

/-- A writer inserts its row. -/
theorem insert (h : Apart keys pending) (hw : pending w = some k) :
    Apart (keys ++ [k]) (Function.update pending w none) where
  nodup := h.nodup.append (List.nodup_singleton k) (by simpa using h.free w k hw)
  free w' k' hw' hk' := by
    by_cases heq : w' = w
    · rw [heq, Function.update_self] at hw'
      cases hw'
    · rw [Function.update_of_ne heq] at hw'
      obtain hk' | hk' := List.mem_append.1 hk'
      · exact h.free w' k' hw' hk'
      · obtain rfl := List.mem_singleton.1 hk'
        exact heq (h.inj w' w k' hw' hw)
  inj := h.forget.inj

end Apart

end Collection
