import Ipa.Db.Chunk.Model
import Ipa.Db.Vector.Rrf

/-!
# Search

`search` runs a ranking by cosine distance and, for a query with a text, a lexical ranking; both keep
the chunks that satisfy the conditions of the filters (`filterConditions`) and are cut to `fetch`
rows.  With lexical rows the two rankings are fused, otherwise the vector rows are the hits.  How the
database ranks is left open (`Ranking`): an index scan may leave out rows, and ties fall in any way.
-/

namespace Ipa

/-- Optional narrowing applied to a search. -/
structure SearchFilters where
  tagIds : Option (List UUID)
  documentIds : Option (List UUID)
  statuses : Option (List DocumentStatus)
  createdAfter : Option Timestamp
  createdBefore : Option Timestamp

/-- One scored chunk. -/
structure ChunkHit where
  documentId : UUID
  chunkIndex : ℤ
  text : String
  score : ℚ
  pageFrom : Option ℤ
  pageTo : Option ℤ
  documentTitle : Option String

namespace PgVectorStore

/-! ## Filters -/

/-- `metadata ->> k`. -/
def metaText (chunk : Chunk) (k : String) : Option String :=
  (chunk.metadata.lookup k).bind Json.astext

/-- `text IN (...)`, which is not true of a null. -/
def textIn (text : Option String) (texts : List String) : Bool := text.any fun t => t ∈ texts

/-- The condition of a list; an empty list is as false as a missing one. -/
def listCondition {A : Type*} (list : Option (List A)) (condition : List A → Chunk → Bool) :
    List (Chunk → Bool) :=
  match list with
  | none | some [] => []
  | some (a :: as) => [condition (a :: as)]

/-- The condition of a bound. -/
def boundCondition (bound : Option Timestamp) (condition : Timestamp → Chunk → Bool) :
    List (Chunk → Bool) :=
  match bound with
  | none => []
  | some time => [condition time]

/-- Translate search filters into conditions on chunks. -/
def filterConditions : Option SearchFilters → List (Chunk → Bool)
  | none => []
  | some filters =>
    listCondition filters.tagIds
        (fun tagIds chunk => textIn (metaText chunk "tag_id") (tagIds.map UUID.str)) ++
      listCondition filters.documentIds (fun documentIds chunk => chunk.documentId ∈ documentIds) ++
      listCondition filters.statuses (fun statuses chunk =>
        textIn (metaText chunk "document_status") (statuses.map DocumentStatus.value)) ++
      boundCondition filters.createdAfter (fun time chunk => time ≤ chunk.createdAt) ++
      boundCondition filters.createdBefore fun time chunk => chunk.createdAt ≤ time

/-- The chunk satisfies all conditions. -/
def eligible (filters : Option SearchFilters) (chunk : Chunk) : Bool :=
  (filterConditions filters).all fun condition => condition chunk

/-! ## Rankings -/

/-- What a search depends on: its text, the cosine distances from its embedding, the lexical ranks
and which chunks its text matches. -/
structure Query where
  text : Option String
  distance : Chunk → ℚ
  rank : Chunk → ℚ
  textMatches : Chunk → Bool

/-- The rows of a statement before its limit: rows of the table that satisfy `p`, in an order. -/
structure Ranking (t : ChunkTable) (p : Chunk → Bool) (order : Chunk → Chunk → Prop)
    (rows : List Chunk) : Prop where
  mem : ∀ row ∈ rows, row ∈ t.rows ∧ p row
  nodup : rows.Nodup
  sorted : rows.Pairwise order

/-- The two rankings of a search; there is no lexical one without a text. -/
structure Rankings (t : ChunkTable) (query : Query) (filters : Option SearchFilters)
    (vector text : List Chunk) : Prop where
  by_distance : Ranking t (eligible filters)
    (fun row row' => query.distance row ≤ query.distance row') vector
  by_rank : Ranking t (fun row => eligible filters row && query.textMatches row)
    (fun row row' => query.rank row' ≤ query.rank row) text
  no_text : query.text = none ∨ query.text = some "" → text = []

/-! ## The search -/

/-- The number of rows that each statement returns at most. -/
def fetch (topK : ℤ) : ℤ := min (max (topK * 10) 100) 500

/-- How the fusion tells rows apart. -/
def fusionKey (row : Chunk) : UUID × ℤ × String := (row.documentId, row.chunkIndex, row.text)

/-- The hit of a row. -/
def hit (row : Chunk) (score : ℚ) : ChunkHit :=
  ⟨row.documentId, row.chunkIndex, row.text, score, row.pageFrom, row.pageTo, none⟩

/-- Return the most similar chunks, best first. -/
def search (query : Query) (vector text : List Chunk) (topK : ℤ) : List ChunkHit :=
  let vectorRows := vector.take (fetch topK).toNat
  let textRows := text.take (fetch topK).toNat
  if textRows.isEmpty then
    (sliceTo vectorRows topK).map fun row => hit row (1 - query.distance row)
  else (rrfFuse ℚ fusionKey [vectorRows, textRows] topK).map fun (row, score) => hit row score

theorem fetch_pos (topK : ℤ) : 100 ≤ (fetch topK).toNat ∧ (fetch topK).toNat ≤ 500 := by
  unfold fetch
  omega

/-- A search fuses if the lexical ranking has a row. -/
theorem search_of_text {query : Query} {vector text : List Chunk} (topK : ℤ) (h : text ≠ []) :
    search query vector text topK =
      (rrfFuse ℚ fusionKey [vector.take (fetch topK).toNat, text.take (fetch topK).toNat] topK).map
        fun (row, score) => hit row score := by
  have hne : (text.take (fetch topK).toNat).isEmpty = false := by
    have := (fetch_pos topK).1
    rw [List.isEmpty_eq_false_iff, Ne, List.take_eq_nil_iff]
    rintro (h0 | h0)
    · omega
    · exact h h0
  unfold search
  dsimp only
  rw [hne]
  rfl

theorem search_of_no_text {query : Query} {vector : List Chunk} (topK : ℤ) :
    search query vector [] topK = (sliceTo (vector.take (fetch topK).toNat) topK).map
      fun row => hit row (1 - query.distance row) := by
  unfold search
  dsimp only
  rw [List.take_nil]
  rfl

/-- Every hit is the hit of a row of one of the two rankings. -/
theorem mem_search {query : Query} {vector text : List Chunk} {topK : ℤ} {h : ChunkHit}
    (hh : h ∈ search query vector text topK) :
    ∃ row score, (row ∈ vector ∨ row ∈ text) ∧ h = hit row score := by
  by_cases htext : text = []
  · subst htext
    rw [search_of_no_text] at hh
    obtain ⟨row, hrow, rfl⟩ := List.mem_map.1 hh
    exact ⟨row, _, .inl (List.mem_of_mem_take (mem_of_mem_sliceTo hrow)), rfl⟩
  · rw [search_of_text topK htext] at hh
    obtain ⟨⟨row, score⟩, hrow, rfl⟩ := List.mem_map.1 hh
    obtain ⟨⟨ranking, hranking, hmem⟩, -⟩ := mem_rrfFuse hrow
    refine ⟨row, score, ?_, rfl⟩
    rcases List.mem_pair.1 hranking with rfl | rfl
    · exact .inl (List.mem_of_mem_take hmem)
    · exact .inr (List.mem_of_mem_take hmem)

end PgVectorStore

end Ipa
