import Ipa.Db.Base
import Ipa.Lib.Table

/-!
# The table `chunks` and its repository

Chunks are unique by `(document_id, chunk_index, embed_model)`.  `ChunkRepository.upsert` is one
`INSERT ... ON CONFLICT DO UPDATE`: a chunk that is there keeps its identifier and its creation time,
and a key that is named twice makes the whole statement fail.  So do more arguments than the driver sends and
values that the columns do not take.
-/

namespace Ipa

/-- A row of `chunks`. -/
structure Chunk where
  id : UUID
  documentId : UUID
  chunkIndex : ℤ
  text : String
  embedding : List ℚ
  embedModel : String
  embedDim : ℕ
  pageFrom : Option ℤ
  pageTo : Option ℤ
  metadata : JsonObject
  createdAt : Timestamp

/-- The unique key `(document_id, chunk_index, embed_model)`. -/
structure ChunkKey where
  documentId : UUID
  chunkIndex : ℤ
  embedModel : String
deriving DecidableEq, Repr

/-- The key of a row. -/
def Chunk.key (chunk : Chunk) : ChunkKey := ⟨chunk.documentId, chunk.chunkIndex, chunk.embedModel⟩

/-- The table. -/
abbrev ChunkTable := Table Chunk.key

/-- An embedded text chunk ready to be written.  A number of its embedding is `none` if it is infinite or
not a number. -/
structure ChunkVector where
  documentId : UUID
  chunkIndex : ℤ
  text : String
  embedding : List (Option ℚ)
  embedModel : String
  pageFrom : Option ℤ
  pageTo : Option ℤ
  metadata : JsonObject
  chunkIndex_ge : -1 ≤ chunkIndex
  page_pos : (∀ p ∈ pageFrom, 1 ≤ p) ∧ ∀ p ∈ pageTo, 1 ≤ p

theorem ChunkVector.neg_one_le (i : ℕ) : (-1 : ℤ) ≤ i := by omega

theorem ChunkVector.no_pages :
    (∀ p ∈ (none : Option ℤ), 1 ≤ p) ∧ ∀ p ∈ (none : Option ℤ), 1 ≤ p := by simp

/-- The dimension of the embedding. -/
def ChunkVector.embedDim (chunk : ChunkVector) : ℕ := chunk.embedding.length

/-- The key that a chunk is written under. -/
def ChunkVector.key (chunk : ChunkVector) : ChunkKey :=
  ⟨chunk.documentId, chunk.chunkIndex, chunk.embedModel⟩

/-- What a statement takes from outside the table: the drawn identifiers, `now()`, the documents that
exist, the dimension of the column `embedding` and the four-byte numbers that it keeps, the arguments
that the driver sends with one statement, and whether a value, an index entry or the whole statement is
larger than the server takes. -/
structure ChunkEnv where
  uuid4 : ℕ → UUID
  now : Timestamp
  documentExists : UUID → Bool
  embedDim : ℕ
  float4 : ℚ → ℚ
  maxArguments : ℕ
  tooLarge : List ChunkVector → Bool

/-! ## Values that the columns take -/

mutual

/-- A text or a name in the value has a character that no column takes. -/
def Json.hasNul : Json → Bool
  | .str s => Ipa.hasNul s
  | .arr items => itemsHaveNul items
  | .obj members => membersHaveNul members
  | .null | .bool _ | .int _ | .decimal _ => false

/-- One of the items has such a character. -/
def Json.itemsHaveNul : List Json → Bool
  | [] => false
  | item :: items => item.hasNul || itemsHaveNul items

/-- One of the members has such a character. -/
def Json.membersHaveNul : List (String × Json) → Bool
  | [] => false
  | (k, v) :: members => Ipa.hasNul k || v.hasNul || membersHaveNul members

end

/-- The values of a chunk are ones that their columns take. -/
structure ChunkVector.Storable (chunk : ChunkVector) : Prop where
  text : hasNul chunk.text = false
  embedModel : hasNul chunk.embedModel = false
  metadata : Json.membersHaveNul chunk.metadata = false
  embedding : ∀ x ∈ chunk.embedding, ∃ q, x = some q ∧ IsFloat4 q
  chunkIndex : IsInt4 chunk.chunkIndex
  pageFrom : ∀ p ∈ chunk.pageFrom, IsInt4 p
  pageTo : ∀ p ∈ chunk.pageTo, IsInt4 p

namespace ChunkRepository

/-- The columns of a row of the statement, each with an argument of its own. -/
def insertedColumns : List String :=
  ["id", "document_id", "chunk_index", "text", "embedding", "embed_model", "embed_dim", "page_from",
    "page_to", "metadata"]

/-- The row that is inserted for the chunk at position `i` of the list. -/
def newRow (env : ChunkEnv) (i : ℕ) (chunk : ChunkVector) : Chunk where
  id := env.uuid4 i
  documentId := chunk.documentId
  chunkIndex := chunk.chunkIndex
  text := chunk.text
  embedding := chunk.embedding.filterMap (·.map env.float4)
  embedModel := chunk.embedModel
  embedDim := chunk.embedDim
  pageFrom := chunk.pageFrom
  pageTo := chunk.pageTo
  metadata := chunk.metadata
  createdAt := env.now

/-- `ON CONFLICT DO UPDATE`: the row takes the columns of the excluded one. -/
def replace (row excluded : Chunk) : Chunk :=
  { row with
    text := excluded.text
    embedding := excluded.embedding
    embedDim := excluded.embedDim
    pageFrom := excluded.pageFrom
    pageTo := excluded.pageTo
    metadata := excluded.metadata }

/-- The rows of the statement's `VALUES`. -/
def values (env : ChunkEnv) (chunks : List ChunkVector) : List Chunk :=
  chunks.zipIdx.map fun (chunk, i) => newRow env i chunk

/-- The error that the values of one chunk raise. -/
def raises (env : ChunkEnv) (chunk : ChunkVector) : Option DbError :=
  if hasNul chunk.text || hasNul chunk.embedModel || Json.membersHaveNul chunk.metadata then
    some .characterNotInRepertoire
  else if ¬ chunk.embedding.all fun x => x.any (IsFloat4 ·) then some .numericOutOfRange
  else if chunk.embedDim ≠ env.embedDim then some .dimensionMismatch
  else if ¬ (IsInt4 chunk.chunkIndex ∧ chunk.pageFrom.all (IsInt4 ·) ∧ chunk.pageTo.all (IsInt4 ·)) then
    some .integerOutOfRange
  else if env.documentExists chunk.documentId then none
  else some .foreignKeyViolation

/-- The update part of the statement. -/
def updateRows (new : List Chunk) : Table.Update Chunk.key DbError where
  hits row := (new.map Chunk.key).contains row.key
  raises _ := none
  set row :=
    match new.find? fun excluded => excluded.key = row.key with
    | some excluded => replace row excluded
    | none => row
  key_set row := by
    split <;> rfl

/-- Rows whose keys are not in the table are not in the updated table either. -/
theorem key_ne_of_fresh {new : List Chunk} {t : ChunkTable} :
    ∀ row ∈ new.filter (fun row => (t.lookup row.key).isNone),
      ∀ row' ∈ (t.modify (updateRows new)).rows, row'.key ≠ row.key := by
  intro row hrow
  have hnone : (t.lookup row.key).isNone = true := (List.mem_filter.1 hrow).2
  rw [← Table.lookup_eq_none_iff, Table.lookup_modify, Option.isNone_iff_eq_none.1 hnone]
  rfl

/-- Insert or replace the chunks.  No row may be affected twice by one statement. -/
def upsert (env : ChunkEnv) (chunks : List ChunkVector) (t : ChunkTable) :
    ChunkTable × Except DbError Unit :=
  if chunks.isEmpty then (t, .ok ())
  else if env.maxArguments < insertedColumns.length * chunks.length then (t, .error .tooManyArguments)
  else if env.tooLarge chunks then (t, .error .programLimitExceeded)
  else
    let new := values env chunks
    match chunks.findSome? (raises env) with
    | some e => (t, .error e)
    | none =>
      if h : (new.map Chunk.key).Nodup then
        ((t.modify (updateRows new)).insertAll (new.filter fun row => (t.lookup row.key).isNone)
          (h.sublist (List.filter_sublist.map _)) key_ne_of_fresh, .ok ())
      else (t, .error .cardinalityViolation)

/-- Remove every chunk of a document. -/
def deleteDocument (documentId : UUID) (t : ChunkTable) : ChunkTable :=
  t.filter fun row => row.documentId ≠ documentId

/-- The server executes the statement for a list that is not empty. -/
structure Executes (env : ChunkEnv) (chunks : List ChunkVector) : Prop where
  arguments : insertedColumns.length * chunks.length ≤ env.maxArguments
  size : env.tooLarge chunks = false
  raises : ∀ chunk ∈ chunks, raises env chunk = none
  nodup : ((values env chunks).map Chunk.key).Nodup

section

variable {env : ChunkEnv} {chunks : List ChunkVector} {t : ChunkTable}

theorem upsert_ok_iff (hne : chunks ≠ []) : (upsert env chunks t).2 = .ok () ↔ Executes env chunks := by
  have hempty : ¬ chunks.isEmpty = true := by
    rw [List.isEmpty_iff]
    exact hne
  unfold upsert
  rw [if_neg hempty]
  split_ifs with harguments hsize
  · exact iff_of_false (by simp) fun h => Nat.not_lt.2 h.arguments harguments
  · exact iff_of_false (by simp) fun h => by simp [h.size] at hsize
  · dsimp only
    cases hraises : chunks.findSome? (raises env) with
    | some e =>
      refine iff_of_false (by simp) fun h => ?_
      rw [List.findSome?_eq_none_iff.2 h.raises] at hraises
      cases hraises
    | none =>
      split_ifs with hnodup
      · exact iff_of_true rfl
          ⟨Nat.not_lt.1 harguments, by simpa using hsize, List.findSome?_eq_none_iff.1 hraises, hnodup⟩
      · exact iff_of_false (by simp) fun h => hnodup h.nodup

/-- The rows that an upsert without an error leaves. -/
theorem rows_upsert (hne : chunks ≠ []) (h : Executes env chunks) :
    (upsert env chunks t).1.rows = t.rows.map (updateRows (values env chunks)).onRow ++
      (values env chunks).filter fun row => (t.lookup row.key).isNone := by
  have hempty : ¬ chunks.isEmpty = true := by
    rw [List.isEmpty_iff]
    exact hne
  have hnone : chunks.findSome? (raises env) = none := List.findSome?_eq_none_iff.2 h.raises
  unfold upsert
  rw [if_neg hempty, if_neg (Nat.not_lt.2 h.arguments), h.size, hnone]
  simp only [Bool.false_eq_true, if_false, dif_pos h.nodup]
  rfl

end

/-- The tables that calls of the repository build. -/
inductive Reachable : ChunkTable → Prop
  | empty : Reachable (Table.empty _)
  | upsert (env : ChunkEnv) (chunks : List ChunkVector) {t : ChunkTable} :
      Reachable t → Reachable (upsert env chunks t).1
  | deleteDocument (documentId : UUID) {t : ChunkTable} :
      Reachable t → Reachable (deleteDocument documentId t)

end ChunkRepository

end Ipa
