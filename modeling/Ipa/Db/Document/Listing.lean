import Ipa.Db.Document.Dedupe
import Ipa.Lib.Paging

/-!
# Pages of the document list

`listDocuments` is one statement for one page.  It orders the documents by their time of creation alone,
so the server may put documents created at one time in another order for each page.

* `list_documents_pages_iff`: the pages have every document once, whatever the server does, if and only
  if no page ends among documents created at one time.
-/

namespace Ipa

open Paging

/-- The filters of `list_documents`; `none` is no filter. -/
structure ListFilters where
  status : Option DocumentStatus
  needsReview : Option Bool
  tagId : Option UUID

namespace DocumentRepository

/-- The document is live and passes the filters. -/
def passes (filters : ListFilters) (row : Document) : Bool :=
  decide (row.deletedAt = none) && filters.status.all (· = row.status) &&
    filters.needsReview.all (· = row.needsReview) && filters.tagId.all fun tagId => row.tagId = some tagId

/-- The documents that are listed. -/
def matching (filters : ListFilters) (t : DocumentTable) : List Document := t.rows.filter (passes filters)

/-- `list_documents`, with the order in which the server has put the documents. -/
def listDocuments (order : List Document) (limit offset : ℕ) : List Document :=
  (order.drop offset).take limit

/-- The pages at the offsets `0`, `limit`, `2 * limit`, …, each with an order of its own. -/
def listPages (orders : ℕ → List Document) (limit n : ℕ) : List Document :=
  (List.range n).flatMap fun i => listDocuments (orders i) limit (i * limit)

theorem nodup_matching (filters : ListFilters) (t : DocumentTable) : (matching filters t).Nodup :=
  (List.Nodup.of_map _ t.nodup).filter _

/-- With a limit and enough pages, the pages have each live document that passes the filters once,
whatever orders the server chooses, if and only if in no order two documents created at one time are the
last one of a page and the first one of the next. -/
theorem list_documents_pages_iff (t : DocumentTable) (filters : ListFilters) (limit n : ℕ)
    (hlimit : 0 < limit) (hn : (matching filters t).length ≤ n * limit) :
    (∀ orders, (∀ i, Listed Document.createdAt (matching filters t) (orders i)) →
      (listPages orders limit n).Perm (matching filters t)) ↔
    ∀ i, 0 < i → i * limit < (matching filters t).length →
      ∀ order, Listed Document.createdAt (matching filters t) order →
        CleanCut Document.createdAt limit i order :=
  pages_perm_iff (nodup_matching filters t) hlimit hn

/-- The digest `bb…b`. -/
def otherSha256 : Sha256 := .replicate 'b' (by decide)

/-- Two documents created at one time. -/
def tiedTable : DocumentTable :=
  (singleDocument (newDocument ⟨⟨7⟩, 0, fun _ => false⟩ sampleCall) sampleSha256.length_val).insert
    (newDocument ⟨⟨8⟩, 0, fun _ => false⟩ { sampleCall with sha256 := otherSha256 }) (by
      intro row hrow
      rw [List.mem_singleton.1 hrow]
      decide) otherSha256.length_val

/-- With one document on each page the server may list one of the two twice. -/
theorem list_documents_pages_iff_tied :
    ¬ ∀ orders, (∀ i, Listed Document.createdAt (matching ⟨none, none, none⟩ tiedTable) (orders i)) →
      (listPages orders 1 2).Perm (matching ⟨none, none, none⟩ tiedTable) := by
  rw [list_documents_pages_iff tiedTable ⟨none, none, none⟩ 1 2 Nat.one_pos le_rfl]
  intro hclean
  have hlisted : Listed Document.createdAt (matching ⟨none, none, none⟩ tiedTable)
      (matching ⟨none, none, none⟩ tiedTable) := by
    refine ⟨.refl _, List.pairwise_pair.2 ?_⟩
    decide
  exact absurd (hclean 1 Nat.one_pos Nat.one_lt_two _ hlisted _ _ rfl rfl) (by decide)

/-- When the documents are created at different times the pages are consecutive parts of the one order
that there is. -/
theorem list_documents_newest_first (t : DocumentTable) (filters : ListFilters) (limit n : ℕ)
    (htimes : ((matching filters t).map Document.createdAt).Nodup) {order : List Document}
    (horder : Listed Document.createdAt (matching filters t) order) {orders : ℕ → List Document}
    (horders : ∀ i, Listed Document.createdAt (matching filters t) (orders i)) :
    listPages orders limit n = order.take (n * limit) :=
  pages_eq htimes horder horders

end DocumentRepository

end Ipa
