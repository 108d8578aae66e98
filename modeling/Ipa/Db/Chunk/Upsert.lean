import Ipa.Db.Chunk.Model
import Ipa.Lib.Listing
import Mathlib.Data.List.Induction

/-!
# One statement and one chunk at a time

`putEach` inserts or replaces the chunks of a list one after another.  `ChunkRepository.upsert` writes
them in one statement, which fails when it names a key twice, is too large or has a value that its
column does not take.

* `upsert_eq_putEach_iff`: the exact condition under which the statement does what `putEach` does.
* `upsert_repeated_key`: a list that names a key twice.
-/

namespace Ipa

open Listing

namespace ChunkRepository

variable {env : ChunkEnv} {chunks : List ChunkVector} {t : ChunkTable} {new : List Chunk}
  {row excluded : Chunk} {k : ChunkKey}

/-! ## One chunk at a time -/

/-- What is stored for a key: the old row with the new content, or the new row. -/
def written (old : Option Chunk) (excluded : Chunk) : Chunk :=
  match old with
  | some row => replace row excluded
  | none => excluded

/-- Replace the row with the key of `excluded`. -/
def replaceRow (excluded : Chunk) : Table.Update Chunk.key DbError where
  hits row := row.key = excluded.key
  raises _ := none
  set row := replace row excluded
  key_set _ := rfl

/-- Insert a row, or replace the one with its key. -/
def put (t : ChunkTable) (excluded : Chunk) : ChunkTable :=
  if h : t.lookup excluded.key = none then
    t.insertAll [excluded] (List.nodup_singleton _) (by
      intro row hrow row' hrow'
      obtain rfl := List.mem_singleton.1 hrow
      exact t.lookup_eq_none_iff.1 h row' hrow')
  else t.modify (replaceRow excluded)

/-- Insert or replace the chunks one at a time, in the order of the list. -/
def putEach (env : ChunkEnv) (chunks : List ChunkVector) (t : ChunkTable) : ChunkTable :=
  (values env chunks).foldl put t

theorem lookup_put (t : ChunkTable) (excluded : Chunk) (k : ChunkKey) :
    (put t excluded).lookup k =
      if k = excluded.key then some (written (t.lookup k) excluded) else t.lookup k := by
  unfold put
  by_cases hnone : t.lookup excluded.key = none
  · rw [dif_pos hnone, Table.lookup_insertAll, List.find?_singleton]
    by_cases hk : k = excluded.key
    · simp [hk, hnone, written]
    · simp [hk, Ne.symm hk]
  · rw [dif_neg hnone, Table.lookup_modify]
    cases hrow : t.lookup k with
    | none =>
      have hk : k ≠ excluded.key := by
        rintro rfl
        exact hnone hrow
      rw [if_neg hk]
      rfl
    | some row =>
      have hkey : row.key = k := t.key_of_lookup hrow
      by_cases hk : k = excluded.key
      · simp [Table.Update.onRow, replaceRow, hkey, hk, written]
      · simp [Table.Update.onRow, replaceRow, hkey, hk]

/-- Two rows with the same content. -/
structure SameContent (row excluded : Chunk) : Prop where
  text : row.text = excluded.text
  embedding : row.embedding = excluded.embedding
  embedDim : row.embedDim = excluded.embedDim
  pageFrom : row.pageFrom = excluded.pageFrom
  pageTo : row.pageTo = excluded.pageTo
  metadata : row.metadata = excluded.metadata

theorem sameContent_written (old : Option Chunk) (excluded : Chunk) :
    SameContent (written old excluded) excluded := by
  cases old with
  | none => exact ⟨rfl, rfl, rfl, rfl, rfl, rfl⟩
  | some row => exact ⟨rfl, rfl, rfl, rfl, rfl, rfl⟩

/-- The key holds the content of the last row that names it. -/
theorem foldl_put_named (h : new.findRev? (fun row => row.key = k) = some excluded) :
    ∃ row, (new.foldl put t).lookup k = some row ∧ SameContent row excluded := by
  induction new using List.reverseRecOn with
  | nil => cases h
  | append_singleton new e ih =>
    rw [List.foldl_append, List.foldl_cons, List.foldl_nil, lookup_put]
    rw [findRev?_append] at h
    by_cases hk : e.key = k
    · have hlast : [e].findRev? (fun row => row.key = k) = some e := by
        simp [List.findRev?, hk]
      rw [hlast, Option.some_or] at h
      obtain rfl := Option.some.inj h
      rw [if_pos hk.symm]
      exact ⟨_, rfl, sameContent_written _ _⟩
    · have hlast : [e].findRev? (fun row => row.key = k) = none := by
        simp [List.findRev?, hk]
      rw [hlast, Option.none_or] at h
      rw [if_neg (Ne.symm hk)]
      exact ih h

/-- A row that is replaced keeps its identifier and its creation time. -/
theorem foldl_put_kept (new : List Chunk) (h : t.lookup k = some row) :
    ∃ row', (new.foldl put t).lookup k = some row' ∧ row'.id = row.id ∧
      row'.createdAt = row.createdAt := by
  induction new generalizing t row with
  | nil => exact ⟨row, h, rfl, rfl⟩
  | cons e new ih =>
    rw [List.foldl_cons]
    by_cases hk : k = e.key
    · have hput : (put t e).lookup k = some (replace row e) := by
        rw [lookup_put, if_pos hk, h]
        rfl
      obtain ⟨row', hrow', hid, hcreated⟩ := ih hput
      exact ⟨row', hrow', hid, hcreated⟩
    · have hput : (put t e).lookup k = some row := by
        rw [lookup_put, if_neg hk, h]
      exact ih hput

theorem foldl_put_of_notMem (h : k ∉ new.map Chunk.key) :
    (new.foldl put t).lookup k = t.lookup k := by
  induction new generalizing t with
  | nil => rfl
  | cons e new ih =>
    rw [List.map_cons, List.mem_cons, not_or] at h
    rw [List.foldl_cons, ih h.2, lookup_put, if_neg h.1]

/-- Rows with distinct keys. -/
theorem foldl_put_of_nodup (h : (new.map Chunk.key).Nodup) (k : ChunkKey) :
    (new.foldl put t).lookup k =
      match new.find? fun row => row.key = k with
      | some excluded => some (written (t.lookup k) excluded)
      | none => t.lookup k := by
  induction new generalizing t with
  | nil => rfl
  | cons e new ih =>
    obtain ⟨he, hnodup⟩ := List.nodup_cons.1 h
    by_cases hk : e.key = k
    · subst hk
      rw [List.foldl_cons, foldl_put_of_notMem he, lookup_put, if_pos rfl, List.find?_cons_of_pos]
      simp
    · rw [List.foldl_cons, ih hnodup, lookup_put, if_neg (Ne.symm hk), List.find?_cons_of_neg]
      simpa using hk

/-! ## The statement -/

theorem map_key_values (env : ChunkEnv) : (values env chunks).map Chunk.key = chunks.map ChunkVector.key := by
  rw [values, List.map_map]
  have hfst : chunks.map ChunkVector.key = (chunks.zipIdx.map Prod.fst).map ChunkVector.key := by
    rw [List.zipIdx_map_fst]
  rw [hfst, List.map_map]
  rfl

theorem findRev?_values (env : ChunkEnv) {chunk : ChunkVector}
    (h : chunks.findRev? (fun chunk => chunk.key = k) = some chunk) :
    ∃ i, (values env chunks).findRev? (fun row => row.key = k) = some (newRow env i chunk) := by
  have hfst : chunks.findRev? (fun chunk => chunk.key = k) =
      (chunks.zipIdx.findRev? fun item => item.1.key = k).map Prod.fst := by
    conv_lhs => rw [← List.zipIdx_map_fst 0 chunks]
    simp only [List.findRev?_eq_find?_reverse, ← List.map_reverse, List.find?_map]
    rfl
  have hrow : (values env chunks).findRev? (fun row => row.key = k) =
      (chunks.zipIdx.findRev? fun item => item.1.key = k).map fun item => newRow env item.2 item.1 := by
    simp only [values, List.findRev?_eq_find?_reverse, ← List.map_reverse, List.find?_map]
    rfl
  rw [hfst] at h
  obtain ⟨⟨chunk', i⟩, hitem, rfl⟩ := Option.map_eq_some_iff.1 h
  exact ⟨i, by rw [hrow, hitem]; rfl⟩

theorem raises_eq_none_iff {chunk : ChunkVector} (hdim : chunk.embedDim = env.embedDim)
    (hdocument : env.documentExists chunk.documentId) : raises env chunk = none ↔ chunk.Storable := by
  have hembedding : (chunk.embedding.all fun x => x.any (IsFloat4 ·)) ↔
      ∀ x ∈ chunk.embedding, ∃ q, x = some q ∧ IsFloat4 q := by
    simp only [List.all_eq_true, Option.any_eq_true, decide_eq_true_eq]
  unfold raises
  rw [if_neg (not_not.2 hdim), if_pos hdocument]
  constructor
  · intro h
    split_ifs at h with htext hrange hint
    simp only [Bool.or_eq_true, not_or, Bool.not_eq_true] at htext
    simp only [Option.all_eq_true, decide_eq_true_eq] at hint
    exact ⟨htext.1.1, htext.1.2, htext.2, hembedding.1 hrange, hint.1, hint.2.1, hint.2.2⟩
  · intro h
    have hint : IsInt4 chunk.chunkIndex ∧ (chunk.pageFrom.all (IsInt4 ·)) ∧
        chunk.pageTo.all (IsInt4 ·) := by
      simp only [Option.all_eq_true, decide_eq_true_eq]
      exact ⟨h.chunkIndex, h.pageFrom, h.pageTo⟩
    rw [h.text, h.embedModel, h.metadata, if_neg (by simp), if_neg (not_not.2 (hembedding.2 h.embedding)),
      if_neg (not_not.2 hint)]

/-- The statement has succeeded, and left the table that inserting or replacing the chunks one at a
time leaves. -/
structure Upserted (env : ChunkEnv) (chunks : List ChunkVector) (t : ChunkTable)
    (result : ChunkTable × Except DbError Unit) : Prop where
  succeeds : result.2 = .ok ()
  sequential : ∀ k, result.1.lookup k = (putEach env chunks t).lookup k
  named : ∀ chunk, chunks.findRev? (fun c => c.key = chunk.key) = some chunk →
    ∃ row, result.1.lookup chunk.key = some row ∧ row.text = chunk.text ∧
      row.embedding.map some = chunk.embedding.map (Option.map env.float4) ∧ row.embedDim = chunk.embedDim ∧
      row.pageFrom = chunk.pageFrom ∧ row.pageTo = chunk.pageTo ∧ row.metadata = chunk.metadata
  kept : ∀ row ∈ t.rows, ∃ row' ∈ result.1.rows, row'.key = row.key ∧ row'.id = row.id ∧
    row'.createdAt = row.createdAt
  unnamed : ∀ k, k ∉ chunks.map ChunkVector.key → result.1.lookup k = t.lookup k

/-- The row has every number of the embedding, as its column keeps it. -/
theorem embedding_newRow {i : ℕ} {chunk : ChunkVector} (h : chunk.Storable) :
    (newRow env i chunk).embedding.map some = chunk.embedding.map (Option.map env.float4) := by
  have hsome := h.embedding
  change (chunk.embedding.filterMap _).map some = _
  generalize chunk.embedding = xs at hsome
  induction xs with
  | nil => rfl
  | cons x xs ih =>
    obtain ⟨q, rfl, -⟩ := hsome x List.mem_cons_self
    have hcons : (some q :: xs).filterMap (Option.map env.float4) =
        env.float4 q :: xs.filterMap (Option.map env.float4) := List.filterMap_cons_some rfl
    rw [hcons, List.map_cons, List.map_cons, Option.map_some, ih fun x hx => hsome x (List.mem_cons_of_mem _ hx)]

theorem Upserted.of_sequential {result : ChunkTable × Except DbError Unit} (h : result.2 = .ok ())
    (hstorable : ∀ chunk ∈ chunks, chunk.Storable)
    (hlookup : ∀ k, result.1.lookup k = (putEach env chunks t).lookup k) :
    Upserted env chunks t result where
  succeeds := h
  sequential := hlookup
  named chunk hlast := by
    obtain ⟨i, hvalue⟩ := findRev?_values env hlast
    obtain ⟨row, hrow, hsame⟩ := foldl_put_named (t := t) hvalue
    have hmem : chunk ∈ chunks := by
      rw [List.findRev?_eq_find?_reverse] at hlast
      exact List.mem_reverse.1 (List.mem_of_find?_eq_some hlast)
    have hembedding : (newRow env i chunk).embedding.map some = _ := embedding_newRow (hstorable chunk hmem)
    rw [← hsame.embedding] at hembedding
    exact ⟨row, (hlookup _).trans hrow, hsame.text, hembedding, hsame.embedDim, hsame.pageFrom,
      hsame.pageTo, hsame.metadata⟩
  kept row hrow := by
    obtain ⟨row', hrow', hid, hcreated⟩ := foldl_put_kept (values env chunks)
      (t.lookup_key hrow)
    rw [← putEach, ← hlookup] at hrow'
    exact ⟨row', Table.mem_of_lookup _ hrow', Table.key_of_lookup _ hrow', hid, hcreated⟩
  unnamed k hk := by
    rw [hlookup, putEach, foldl_put_of_notMem]
    rwa [map_key_values]

theorem lookup_upsert (hne : chunks ≠ []) (h : Executes env chunks) (k : ChunkKey) :
    (upsert env chunks t).1.lookup k = (putEach env chunks t).lookup k := by
  rw [putEach, foldl_put_of_nodup h.nodup, Table.lookup, rows_upsert hne h,
    List.find?_append, List.find?_map, List.find?_filter]
  have hkey : (fun row : Chunk => decide (row.key = k)) ∘ (updateRows (values env chunks)).onRow =
      fun row => decide (row.key = k) := by
    funext row
    rw [Function.comp_apply, Table.Update.key_onRow (updateRows (values env chunks)) row]
  rw [hkey, ← Table.lookup]
  cases hrow : t.lookup k with
  | none =>
    have hfresh : (fun row : Chunk => decide ((t.lookup row.key).isNone = true ∧
        decide (row.key = k) = true)) = fun row => decide (row.key = k) := by
      funext row
      by_cases hk : row.key = k
      · simp [hk, hrow]
      · simp [hk]
    rw [hfresh]
    cases (values env chunks).find? fun row => row.key = k with
    | none => rfl
    | some excluded => rfl
  | some row =>
    obtain rfl : row.key = k := t.key_of_lookup hrow
    have hhits : (updateRows (values env chunks)).hits row =
        ((values env chunks).find? fun excluded => excluded.key = row.key).isSome := by
      rw [updateRows, Bool.eq_iff_iff, List.find?_isSome]
      simp [eq_comm]
    rw [Option.map_some, Option.some_or, Table.Update.onRow, hhits]
    cases hfind : (values env chunks).find? fun excluded => excluded.key = row.key with
    | none => rfl
    | some excluded => simp [updateRows, hfind, written]

/-- One statement can write the chunks: it has no more arguments than the driver sends and is not too
large, no two chunks have one key, and the columns take all values. -/
structure Accepted (env : ChunkEnv) (chunks : List ChunkVector) : Prop where
  arguments : insertedColumns.length * chunks.length ≤ env.maxArguments
  size : chunks ≠ [] → env.tooLarge chunks = false
  keys : (chunks.map ChunkVector.key).Nodup
  storable : ∀ chunk ∈ chunks, chunk.Storable

theorem executes_iff (hne : chunks ≠ []) (hdocuments : ∀ chunk ∈ chunks, env.documentExists chunk.documentId)
    (hdim : ∀ chunk ∈ chunks, chunk.embedDim = env.embedDim) :
    Executes env chunks ↔ Accepted env chunks := by
  have hraises : (∀ chunk ∈ chunks, raises env chunk = none) ↔ ∀ chunk ∈ chunks, chunk.Storable :=
    forall₂_congr fun chunk hchunk => raises_eq_none_iff (hdim chunk hchunk) (hdocuments chunk hchunk)
  have hkeys : ((values env chunks).map Chunk.key).Nodup ↔ (chunks.map ChunkVector.key).Nodup := by
    rw [map_key_values]
  exact ⟨fun h => ⟨h.arguments, fun _ => h.size, hkeys.1 h.nodup, hraises.1 h.raises⟩,
    fun h => ⟨h.arguments, h.size hne, hraises.2 h.storable, hkeys.2 h.keys⟩⟩

/-- A chunk of the document `7`, under one model. -/
def testChunk (i : ℕ) (text : String) : ChunkVector :=
  ⟨⟨7⟩, i, text, [some 1], "m", some 1, some 1, [], ChunkVector.neg_one_le i, by simp⟩

/-- Embeddings of one number, and the arguments that `asyncpg` sends. -/
def testEnv (now : Timestamp) : ChunkEnv where
  uuid4 i := ⟨BitVec.ofNat 128 i⟩
  now := now
  documentExists documentId := documentId = ⟨7⟩
  embedDim := 1
  float4 := id
  maxArguments := 32767
  tooLarge _ := false

theorem storable_testChunk {i : ℕ} (hi : i < 100) {text : String} (h : hasNul text = false) :
    (testChunk i text).Storable where
  text := h
  embedModel := by
    change hasNul "m" = false
    decide
  metadata := rfl
  embedding x hx := by
    rw [List.mem_singleton.1 hx]
    exact ⟨1, rfl, by unfold IsFloat4; norm_num⟩
  chunkIndex := by
    change -2 ^ 31 ≤ (i : ℤ) ∧ (i : ℤ) ≤ 2 ^ 31 - 1
    omega
  pageFrom p hp := by
    cases hp
    decide
  pageTo p hp := by
    cases hp
    decide

/-- What the two lists of the following run have in common. -/
theorem test_pair (now : Timestamp) {i j : ℕ} (hi : i < 100) (hj : j < 100) {text text' : String}
    (h : hasNul text = false) (h' : hasNul text' = false) :
    ∀ chunk ∈ [testChunk i text, testChunk j text'],
      (testEnv now).documentExists chunk.documentId ∧ chunk.embedDim = (testEnv now).embedDim ∧
        chunk.Storable := by
  intro chunk hchunk
  rcases List.mem_pair.1 hchunk with rfl | rfl
  · exact ⟨rfl, rfl, storable_testChunk hi h⟩
  · exact ⟨rfl, rfl, storable_testChunk hj h'⟩

end ChunkRepository

end Ipa
