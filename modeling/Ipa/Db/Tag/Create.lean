import Ipa.Core.Errors
import Ipa.Db.Tag.Model
import Ipa.Lib.Table

/-!
# The table `tags` and its first rows

`create` inserts a tag and then its fields.  The slugs are distinct up to the case of their letters,
and a threshold is a number between zero and one with three decimals (`TagTable`).
-/

namespace Ipa

/-- A row of `tags`; the DTO that the repository returns has the same fields. -/
structure Tag where
  id : UUID
  slug : String
  name : String
  description : String
  version : ℤ
  isActive : Bool
  autoApproveThreshold : Option ℚ
  promptTemplate : Option String
  llmModel : Option String
  classificationHints : Option String
  createdAt : Timestamp
  updatedAt : Timestamp

/-- The table `tags`; `fold` is what the type `citext` compares. -/
structure TagTable (fold : String → String) extends Table fun row : Tag => fold row.slug where
  nodup_id : (rows.map Tag.id).Nodup
  threshold_range : ∀ row ∈ rows, ∀ threshold ∈ row.autoApproveThreshold,
    0 ≤ threshold ∧ threshold ≤ 1
  threshold_rounded : ∀ row ∈ rows, ∀ threshold ∈ row.autoApproveThreshold,
    roundNumeric 3 threshold = threshold

/-- The arguments of `create`. -/
structure TagCall where
  slug : String
  name : String
  description : String
  autoApproveThreshold : Option ℚ
  promptTemplate : Option String
  llmModel : Option String
  classificationHints : Option String
  fields : Option (List TagFieldCreate)

/-- What `create` takes from outside the tables: the drawn identifiers and `now()`. -/
structure TagEnv where
  uuid4 : UUID
  fieldUuid4 : ℕ → UUID
  now : Timestamp

namespace TagTable

variable {fold : String → String}

/-- No rows. -/
def empty (fold : String → String) : TagTable fold where
  toTable := Table.empty _
  nodup_id := List.nodup_nil
  threshold_range _ h := absurd h List.not_mem_nil
  threshold_rounded _ h := absurd h List.not_mem_nil

/-- Neither the unique constraints nor the check constraint stands against the row. -/
def Admits (t : TagTable fold) (row : Tag) : Prop :=
  (∀ row' ∈ t.rows, row'.id ≠ row.id ∧ fold row'.slug ≠ fold row.slug) ∧
    ∀ threshold ∈ row.autoApproveThreshold, 0 ≤ threshold ∧ threshold ≤ 1

instance (t : TagTable fold) (row : Tag) : Decidable (t.Admits row) :=
  inferInstanceAs (Decidable (_ ∧ _))

/-- Append a row. -/
def insert (t : TagTable fold) (row : Tag) (h : t.Admits row)
    (hrounded : ∀ threshold ∈ row.autoApproveThreshold, roundNumeric 3 threshold = threshold) :
    TagTable fold where
  toTable := t.insertAll [row] (List.nodup_singleton _)
    (t.fresh_singleton fun row' hrow' => (h.1 row' hrow').2)
  nodup_id := Table.nodup_map_snoc t.nodup_id fun row' hrow' => (h.1 row' hrow').1
  threshold_range := by
    rw [Table.rows_insertAll, List.forall_mem_append, List.forall_mem_singleton]
    exact ⟨t.threshold_range, h.2⟩
  threshold_rounded := by
    rw [Table.rows_insertAll, List.forall_mem_append, List.forall_mem_singleton]
    exact ⟨t.threshold_rounded, hrounded⟩

theorem mem_insert (t : TagTable fold) (row : Tag) (h hrounded) : row ∈ (t.insert row h hrounded).rows :=
  List.mem_append_right _ (List.mem_singleton_self row)

end TagTable

/-- The tables `tags` and `tag_fields`. -/
structure TagTables (fold : String → String) where
  tags : TagTable fold
  fields : Table fun row : TagField => row.id

namespace TagRepository

variable {fold : String → String}

/-- The row that `create` adds; the columns that it does not set take the defaults of the table. -/
def newTag (env : TagEnv) (call : TagCall) : Tag where
  id := env.uuid4
  slug := call.slug
  name := call.name
  description := call.description
  version := 1
  isActive := true
  autoApproveThreshold := call.autoApproveThreshold.map (roundNumeric 3)
  promptTemplate := call.promptTemplate
  llmModel := call.llmModel
  classificationHints := call.classificationHints
  createdAt := env.now
  updatedAt := env.now

theorem rounded_newTag (env : TagEnv) (call : TagCall) :
    ∀ threshold ∈ (newTag env call).autoApproveThreshold, roundNumeric 3 threshold = threshold := by
  intro threshold h
  obtain ⟨x, -, rfl⟩ := Option.map_eq_some_iff.1 h
  exact roundNumeric_idem 3 x

/-- Insert one field. -/
def writeField (env : TagEnv) (tagId : UUID) (fields : Table fun row : TagField => row.id)
    (field : TagFieldCreate × ℕ) : Except DbError (Table fun row : TagField => row.id) :=
  let row := field.1.toRow tagId (env.fieldUuid4 field.2) env.now
  if ¬ field.1.InRange then .error .integerOutOfRange
  else if h : ∀ row' ∈ fields.rows, row'.id ≠ row.id ∧ ¬ row'.Clash tagId field.1 then
    .ok (fields.insertAll [row] (List.nodup_singleton _)
      (fields.fresh_singleton fun row' hrow' => (h row' hrow').1))
  else .error .uniqueViolation

/-- `_write_fields`. -/
def writeFields (env : TagEnv) (tagId : UUID) (new : List TagFieldCreate)
    (fields : Table fun row : TagField => row.id) :
    Except DbError (Table fun row : TagField => row.id) :=
  new.zipIdx.foldlM (writeField env tagId) fields

/-- `create`.  Every integrity error of the first flush becomes a `ConflictError`, a threshold out of
its range included; the errors of the fields are passed on. -/
def create (env : TagEnv) (call : TagCall) (db : TagTables fold) :
    Except (IpaError ⊕ DbError) (TagTables fold × Tag) :=
  let entity := newTag env call
  if call.autoApproveThreshold.any (10 ≤ |roundNumeric 3 ·|) then .error (.inr .numericOutOfRange)
  else if h : db.tags.Admits entity then
    match writeFields env entity.id (call.fields.getD []) db.fields with
    | .ok fields => .ok (⟨db.tags.insert entity h (rounded_newTag env call), fields⟩, entity)
    | .error e => .error (.inr e)
  else .error (.inl (conflictError ("tag slug already exists: " ++ call.slug)))

end TagRepository

end Ipa
