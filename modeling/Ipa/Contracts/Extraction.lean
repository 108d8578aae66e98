import Ipa.Core.Datetime
import Mathlib.Algebra.Order.Ring.Rat

/-!
# Extraction records

The records that cross the layers, with the bounds of their fields as part of the value, and the
plain field dictionaries that are stored for them (`ExtractedField.modelDump`).
-/

namespace Ipa

/-- One field extracted from a document. -/
structure ExtractedField where
  key : String
  value : Json
  confidence : ℚ
  page : Option ℕ
  evidence : Option String
  valid : Bool
  validationErrors : List String
  confidence_mem : 0 ≤ confidence ∧ confidence ≤ 1
  page_pos : ∀ p ∈ page, 1 ≤ p

/-- The dictionary of an extracted field. -/
structure FieldDoc where
  key : String
  value : Json
  confidence : ℚ
  page : Option ℕ
  evidence : Option String
  valid : Bool
  validationErrors : List String

/-- The dictionary of a field. -/
def ExtractedField.modelDump (f : ExtractedField) : FieldDoc :=
  ⟨f.key, f.value, f.confidence, f.page, f.evidence, f.valid, f.validationErrors⟩

/-- Build a field from a dictionary; the bounds are checked. -/
def ExtractedField.ofDoc (doc : FieldDoc) : Option ExtractedField :=
  if h : (0 ≤ doc.confidence ∧ doc.confidence ≤ 1) ∧ ∀ p ∈ doc.page, 1 ≤ p then
    some ⟨doc.key, doc.value, doc.confidence, doc.page, doc.evidence, doc.valid,
      doc.validationErrors, h.1, h.2⟩
  else none

@[simp]
theorem ExtractedField.ofDoc_modelDump (f : ExtractedField) : ofDoc f.modelDump = some f :=
  dif_pos ⟨f.confidence_mem, f.page_pos⟩

/-- One append-only version of a document's extracted content. -/
structure ExtractionRecord where
  documentId : UUID
  version : ℕ
  tagId : UUID
  tagVersion : ℕ
  source : ExtractionSource
  model : Option String
  promptHash : Option String
  fields : List ExtractedField
  documentConfidence : ℚ
  createdAt : Datetime
  createdBy : Option String
  version_pos : 1 ≤ version
  tagVersion_pos : 1 ≤ tagVersion
  confidence_mem : 0 ≤ documentConfidence ∧ documentConfidence ≤ 1

end Ipa
