import Ipa.Db.Base

/-!
# The table `documents` and partial updates

`DocumentRepository.patch` works on an entity that its session has loaded: it assigns the columns that
the patch sets (`DocumentPatch.assigned`), and the flush writes those whose value has changed since
the entity was loaded (`DocumentPatch.changesOf`), with a new `updated_at`.
-/

namespace Ipa

/-- Channel through which a document entered the platform. -/
inductive DocumentSource
  | ui | api
deriving DecidableEq, Repr

/-- A row of `documents`; the DTO that the repository returns has the same fields. -/
structure Document where
  id : UUID
  sha256 : String
  originalFilename : String
  mimeType : String
  sizeBytes : ℤ
  blobKey : String
  pageCount : Option ℤ
  tagId : Option UUID
  tagVersion : Option ℤ
  status : DocumentStatus
  currentStep : Option PipelineStep
  documentConfidence : Option ℚ
  needsReview : Bool
  title : Option String
  source : DocumentSource
  uploadedBy : Option String
  traceId : Option String
  errorCode : Option String
  errorDetail : Option String
  metadata : JsonObject
  createdAt : Timestamp
  updatedAt : Timestamp
  completedAt : Option Timestamp
  deletedAt : Option Timestamp

/-- Mutable document columns: those that are set, with `none` for a null. -/
structure DocumentPatch where
  pageCount : Option (Option ℤ)
  tagId : Option (Option UUID)
  tagVersion : Option (Option ℤ)
  status : Option (Option DocumentStatus)
  currentStep : Option (Option PipelineStep)
  documentConfidence : Option (Option ℚ)
  needsReview : Option (Option Bool)
  title : Option (Option String)
  errorCode : Option (Option String)
  errorDetail : Option (Option String)
  completedAt : Option (Option Timestamp)
deriving DecidableEq

namespace DocumentPatch

/-- The patch that sets no column. -/
def empty : DocumentPatch where
  pageCount := none
  tagId := none
  tagVersion := none
  status := none
  currentStep := none
  documentConfidence := none
  needsReview := none
  title := none
  errorCode := none
  errorDetail := none
  completedAt := none

/-- A column that is set to another value than the loaded one. -/
def changed {A : Type*} [DecidableEq A] (loaded : A) (assigned : Option A) : Option A :=
  assigned.filter fun a => a ≠ loaded

/-- The columns that a flush of the loaded entity writes. -/
def changesOf (patch : DocumentPatch) (entity : Document) : DocumentPatch where
  pageCount := changed entity.pageCount patch.pageCount
  tagId := changed entity.tagId patch.tagId
  tagVersion := changed entity.tagVersion patch.tagVersion
  status := changed (some entity.status) patch.status
  currentStep := changed entity.currentStep patch.currentStep
  documentConfidence := changed entity.documentConfidence patch.documentConfidence
  needsReview := changed (some entity.needsReview) patch.needsReview
  title := changed entity.title patch.title
  errorCode := changed entity.errorCode patch.errorCode
  errorDetail := changed entity.errorDetail patch.errorDetail
  completedAt := changed entity.completedAt patch.completedAt

/-- The row with the given columns written. -/
def write (changes : DocumentPatch) (now : Timestamp) (row : Document) : Document :=
  { row with
    pageCount := changes.pageCount.getD row.pageCount
    tagId := changes.tagId.getD row.tagId
    tagVersion := changes.tagVersion.getD row.tagVersion
    status := changes.status.join.getD row.status
    currentStep := changes.currentStep.getD row.currentStep
    documentConfidence :=
      (changes.documentConfidence.map (·.map (roundNumeric 3))).getD row.documentConfidence
    needsReview := changes.needsReview.join.getD row.needsReview
    title := changes.title.getD row.title
    errorCode := changes.errorCode.getD row.errorCode
    errorDetail := changes.errorDetail.getD row.errorDetail
    completedAt := changes.completedAt.getD row.completedAt
    updatedAt := now }

/-- The error that writing the given columns raises; `tags` maps the existing tags to their slugs. -/
def raises (tags : UUID → Option String) (changes : DocumentPatch) : Option DbError :=
  if ¬ (changes.pageCount.join.all (IsInt4 ·) ∧ changes.tagVersion.join.all (IsInt4 ·)) then
    some .integerOutOfRange
  else if changes.documentConfidence.join.any (10 ≤ |roundNumeric 3 ·|) then
    some .numericOutOfRange
  else if changes.status = some none ∨ changes.needsReview = some none then some .notNullViolation
  else if changes.tagId.join.any (fun tagId => (tags tagId).isNone) then some .foreignKeyViolation
  else none

end DocumentPatch

end Ipa
