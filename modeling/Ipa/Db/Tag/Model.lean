import Ipa.Db.Base
import Ipa.Lib.Listing

/-!
# The table `tag_fields`

The fields of a tag have distinct keys and distinct positions (`Clash`).  `listFields` reads them in the
order of their positions.
-/

namespace Ipa

open Listing

/-- Type of a tag field, used to generate the JSON Schema for extraction. -/
inductive FieldType
  | string | number | integer | boolean | date | datetime | enum | array | object
deriving DecidableEq, Repr

/-- Input for one field when creating or rewriting a tag's schema. -/
structure TagFieldCreate where
  key : String
  label : String
  fieldType : FieldType
  description : Option String
  isRequired : Bool
  position : ℤ
  enumValues : Option (List String)
  regex : Option String
  minValue : Option ℚ
  maxValue : Option ℚ
  minLength : Option ℤ
  maxLength : Option ℤ
  itemType : Option String
  objectSchema : Option JsonObject

/-- A row of `tag_fields`; the DTO that the repository returns has the same fields. -/
structure TagField extends TagFieldCreate where
  id : UUID
  tagId : UUID
  createdAt : Timestamp
  updatedAt : Timestamp

/-- The integer columns of a field fit their type. -/
def TagFieldCreate.InRange (field : TagFieldCreate) : Prop :=
  IsInt4 field.position ∧ (∀ n ∈ field.minLength, IsInt4 n) ∧ ∀ n ∈ field.maxLength, IsInt4 n

instance (field : TagFieldCreate) : Decidable field.InRange := inferInstanceAs (Decidable (_ ∧ _))

/-- The row violates a unique constraint together with the field `field` of `tagId`. -/
def TagField.Clash (row : TagField) (tagId : UUID) (field : TagFieldCreate) : Prop :=
  row.tagId = tagId ∧ (row.key = field.key ∨ row.position = field.position)

instance (row : TagField) (tagId : UUID) (field : TagFieldCreate) : Decidable (row.Clash tagId field) :=
  inferInstanceAs (Decidable (_ ∧ _))

/-- The row that `_write_fields` adds for a field: the bounds are kept as given. -/
def TagFieldCreate.toRow (field : TagFieldCreate) (tagId id : UUID) (now : Timestamp) : TagField :=
  { field with id := id, tagId := tagId, createdAt := now, updatedAt := now }

/-- The rows of a tag. -/
def fieldRows (tagId : UUID) (rows : List TagField) : List TagField :=
  rows.filter fun row => row.tagId = tagId

/-- `list_fields`. -/
def listFields (tagId : UUID) (rows : List TagField) : List TagField :=
  sortBy (fun row => row.position) (fieldRows tagId rows)

section

variable {tagId : UUID} {rows rows' : List TagField} {row : TagField}

theorem mem_fieldRows : row ∈ fieldRows tagId rows ↔ row ∈ rows ∧ row.tagId = tagId := by
  simp [fieldRows]

theorem fieldRows_append (tagId : UUID) (rows rows' : List TagField) :
    fieldRows tagId (rows ++ rows') = fieldRows tagId rows ++ fieldRows tagId rows' :=
  List.filter_append ..

theorem fieldRows_of_forall (h : ∀ row ∈ rows, row.tagId = tagId) : fieldRows tagId rows = rows := by
  apply List.filter_eq_self.2
  simpa using h

theorem fieldRows_eq_nil (h : ∀ row ∈ rows, row.tagId ≠ tagId) : fieldRows tagId rows = [] := by
  apply List.filter_eq_nil_iff.2
  simpa using h

/-- The listed fields are the fields of the rows in the order of their positions. -/
theorem listFields_map (tagId : UUID) (rows : List TagField) :
    (listFields tagId rows).map TagField.toTagFieldCreate =
      sortBy TagFieldCreate.position ((fieldRows tagId rows).map TagField.toTagFieldCreate) :=
  List.map_insertionSort _ _ _ _ fun _ _ _ _ => Iff.rfl

end

end Ipa
