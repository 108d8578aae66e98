import Ipa.Db.Document.Model
import Ipa.Lib.Table

/-!
# Looking for an upload and inserting it

`findBySha256` looks among the documents that are not deleted.  The unique constraint that `create`
runs into is that of the whole table, deleted rows included.

* `find_create_agree_iff`: the two agree on a digest if and only if no deleted row has it.
* `deleted_digest_refused`: the upload of a deleted document is neither found nor inserted.
-/

namespace Ipa

/-- A digit of a hex digest. -/
def IsHexDigit (c : Char) : Prop := ('0' ≤ c ∧ c ≤ '9') ∨ ('a' ≤ c ∧ c ≤ 'f')

instance : DecidablePred IsHexDigit := fun c =>
  inferInstanceAs (Decidable (('0' ≤ c ∧ c ≤ '9') ∨ ('a' ≤ c ∧ c ≤ 'f')))

/-- The hex digest of the bytes of an upload, which fills its column `char(64)`. -/
structure Sha256 where
  val : String
  length_val : val.length = 64
  isHexDigit : ∀ c ∈ val.toList, IsHexDigit c

/-- The digest of one repeated digit. -/
def Sha256.replicate (c : Char) (h : IsHexDigit c) : Sha256 where
  val := String.ofList (List.replicate 64 c)
  length_val := by rw [String.length_ofList, List.length_replicate]
  isHexDigit c' hc' := by
    rw [String.toList_ofList] at hc'
    exact List.eq_of_mem_replicate hc' ▸ h

/-- The table `documents`; the type `char(64)` pads what is shorter. -/
structure DocumentTable extends Table Document.sha256 where
  nodup_id : (rows.map Document.id).Nodup
  sha256_length : ∀ row ∈ rows, row.sha256.length = 64

/-- `n` fits the eight-byte `bigint` type. -/
def IsInt8 (n : ℤ) : Prop := -2 ^ 63 ≤ n ∧ n ≤ 2 ^ 63 - 1

instance (n : ℤ) : Decidable (IsInt8 n) := inferInstanceAs (Decidable (_ ∧ _))

/-- The arguments of `create`. -/
structure CreateCall where
  sha256 : Sha256
  originalFilename : String
  mimeType : String
  sizeBytes : ℤ
  blobKey : String
  source : DocumentSource
  uploadedBy : Option String
  title : Option String
  tagId : Option UUID
  traceId : Option String
  metadata : Option JsonObject

/-- What `create` takes from outside the table: the drawn identifier, `now()`, and the tags. -/
structure CreateEnv where
  uuid4 : UUID
  now : Timestamp
  tagExists : UUID → Bool

namespace DocumentTable

/-- Neither unique constraint stands against the row. -/
def Admits (t : DocumentTable) (row : Document) : Prop :=
  ∀ row' ∈ t.rows, row'.id ≠ row.id ∧ row'.sha256 ≠ row.sha256

instance (t : DocumentTable) (row : Document) : Decidable (t.Admits row) :=
  inferInstanceAs (Decidable (∀ _ ∈ _, _))

/-- Append a row. -/
def insert (t : DocumentTable) (row : Document) (h : t.Admits row) (hlength : row.sha256.length = 64) :
    DocumentTable where
  toTable := t.insertAll [row] (List.nodup_singleton _)
    (t.fresh_singleton fun row' hrow' => (h row' hrow').2)
  nodup_id := Table.nodup_map_snoc t.nodup_id fun row' hrow' => (h row' hrow').1
  sha256_length := by
    rw [Table.rows_insertAll, List.forall_mem_append, List.forall_mem_singleton]
    exact ⟨t.sha256_length, hlength⟩

end DocumentTable

namespace DocumentRepository

/-- The row that `create` adds; the columns that it does not set take the defaults of the table. -/
def newDocument (env : CreateEnv) (call : CreateCall) : Document where
  id := env.uuid4
  sha256 := call.sha256.val
  originalFilename := call.originalFilename
  mimeType := call.mimeType
  sizeBytes := call.sizeBytes
  blobKey := call.blobKey
  pageCount := none
  tagId := call.tagId
  tagVersion := none
  status := .received
  currentStep := none
  documentConfidence := none
  needsReview := true
  title := call.title
  source := call.source
  uploadedBy := call.uploadedBy
  traceId := call.traceId
  errorCode := none
  errorDetail := none
  metadata := call.metadata.getD []
  createdAt := env.now
  updatedAt := env.now
  completedAt := none
  deletedAt := none

/-- `create`. -/
def create (env : CreateEnv) (call : CreateCall) (t : DocumentTable) :
    DocumentTable × Except DbError Document :=
  let entity := newDocument env call
  if ¬ IsInt8 call.sizeBytes then (t, .error .integerOutOfRange)
  else if h : t.Admits entity then
    if call.tagId.all env.tagExists then (t.insert entity h call.sha256.length_val, .ok entity)
    else (t, .error .foreignKeyViolation)
  else (t, .error .uniqueViolation)

/-- `find_by_sha256`. -/
def findBySha256 (sha256 : Sha256) (t : DocumentTable) : Except DbError (Option Document) :=
  oneOrNone (t.rows.filter fun row =>
    decide (row.sha256 = sha256.val) && decide (row.deletedAt = none))

/-- The columns other than the digest are valid. -/
structure ValidCall (env : CreateEnv) (call : CreateCall) (t : DocumentTable) : Prop where
  size : IsInt8 call.sizeBytes
  id_fresh : ∀ row ∈ t.rows, row.id ≠ env.uuid4
  tag : call.tagId.all env.tagExists

/-- What is not found is inserted and then found; what is found is not inserted. -/
structure Agree (env : CreateEnv) (call : CreateCall) (t : DocumentTable) : Prop where
  inserted : findBySha256 call.sha256 t = .ok none → ∃ document,
    (create env call t).2 = .ok document ∧ document.sha256 = call.sha256.val ∧
      findBySha256 call.sha256 (create env call t).1 = .ok (some document)
  refused : ∀ document, findBySha256 call.sha256 t = .ok (some document) →
    ∃ error, create env call t = (t, .error error)

section

variable {env : CreateEnv} {call : CreateCall} {t : DocumentTable} {sha256 : Sha256} {row : Document}

/-- The digest belongs to one row at most, so reading it never fails. -/
theorem findBySha256_eq (sha256 : Sha256) (t : DocumentTable) :
    findBySha256 sha256 t =
      .ok ((t.lookup sha256.val).filter fun row => decide (row.deletedAt = none)) := by
  rw [findBySha256, t.filter_key_and]
  cases t.lookup sha256.val with
  | none => rfl
  | some row =>
    by_cases hlive : row.deletedAt = none
    · simp [hlive, oneOrNone, Option.filter]
    · simp [hlive, oneOrNone, Option.filter]

theorem create_of_lookup_none (hvalid : ValidCall env call t)
    (hnone : t.lookup call.sha256.val = none) :
    ∃ h, create env call t =
      (t.insert (newDocument env call) h call.sha256.length_val, .ok (newDocument env call)) := by
  have hadmits : t.Admits (newDocument env call) := fun row hrow =>
    ⟨hvalid.id_fresh row hrow, t.lookup_eq_none_iff.1 hnone row hrow⟩
  refine ⟨hadmits, ?_⟩
  unfold create
  simp only [hvalid.size, not_true, if_false, dif_pos hadmits, hvalid.tag, if_true]

theorem create_of_lookup_some (hvalid : ValidCall env call t)
    (hsome : t.lookup call.sha256.val = some row) :
    create env call t = (t, .error .uniqueViolation) := by
  have hrefuses : ¬ t.Admits (newDocument env call) := fun h =>
    (h row (t.mem_of_lookup hsome)).2 (t.key_of_lookup hsome)
  unfold create
  simp only [hvalid.size, not_true, if_false, dif_neg hrefuses]

/-- The lookup and the insert agree on a digest if and only if no deleted row has it. -/
theorem find_create_agree_iff (env : CreateEnv) (call : CreateCall) (t : DocumentTable)
    (hvalid : ValidCall env call t) : Agree env call t ↔
      ∀ row ∈ t.rows, row.sha256 = call.sha256.val → row.deletedAt = none := by
  cases hlookup : t.lookup call.sha256.val with
  | none =>
    obtain ⟨hadmits, hcreate⟩ := create_of_lookup_none hvalid hlookup
    refine iff_of_true ⟨fun _ => ?_, fun document hfound => ?_⟩ fun row hrow hsha256 => ?_
    · refine ⟨newDocument env call, by rw [hcreate], rfl, ?_⟩
      have hfound : (t.insert (newDocument env call) hadmits call.sha256.length_val).lookup
          call.sha256.val = some (newDocument env call) :=
        Table.lookup_key _ (r := newDocument env call) (List.mem_append_right _ (List.mem_singleton_self _))
      rw [hcreate, findBySha256_eq, hfound]
      rfl
    · rw [findBySha256_eq, hlookup] at hfound
      cases hfound
    · exact absurd hsha256 (t.lookup_eq_none_iff.1 hlookup row hrow)
  | some row =>
    have hcreate := create_of_lookup_some hvalid hlookup
    constructor
    · intro h row' hrow' hsha256
      have hrow : row' = row := by
        rw [← hsha256, t.lookup_key hrow'] at hlookup
        exact Option.some.inj hlookup
      by_contra hdeleted
      -- the deleted row is not found, and stands in the way of the new one
      have hnone : findBySha256 call.sha256 t = .ok none := by
        rw [findBySha256_eq, hlookup]
        simp [Option.filter, ← hrow, hdeleted]
      obtain ⟨document, hok, -⟩ := h.inserted hnone
      rw [hcreate] at hok
      cases hok
    · intro hlive
      refine ⟨fun hnone => ?_, fun document _ => ⟨_, hcreate⟩⟩
      rw [findBySha256_eq, hlookup] at hnone
      simp [Option.filter, hlive row (t.mem_of_lookup hlookup) (t.key_of_lookup hlookup)] at hnone

end

/-- The digest `aa…a`. -/
def sampleSha256 : Sha256 := .replicate 'a' (by decide)

/-- The upload of a small file through the API. -/
def sampleCall : CreateCall :=
  ⟨sampleSha256, "a.pdf", "application/pdf", 100, "originals/aa/a", .api, none, none, none, none, none⟩

/-- The table with the given row. -/
def singleDocument (row : Document) (h : row.sha256.length = 64) : DocumentTable :=
  ⟨⟨[row], List.nodup_singleton _⟩, List.nodup_singleton _, by simpa using h⟩

theorem find_create_agree_iff_one_document :
    let env : CreateEnv := ⟨⟨8⟩, 0, fun _ => false⟩
    let row : Document := newDocument ⟨⟨7⟩, 0, fun _ => false⟩ sampleCall
    let t := singleDocument row sampleSha256.length_val
    Agree env sampleCall t ↔
      ∀ row ∈ t.rows, row.sha256 = sampleCall.sha256.val → row.deletedAt = none := by
  intro env row t
  refine find_create_agree_iff env sampleCall t ⟨by decide, ?_, rfl⟩
  intro row' hrow'
  rw [List.mem_singleton.1 hrow']
  decide

/-- The document has been deleted: its upload is not found, and not inserted. -/
theorem deleted_digest_refused :
    ¬ ∀ (env : CreateEnv) (call : CreateCall) (t : DocumentTable), ValidCall env call t →
      Agree env call t := by
  intro hclaim
  let env : CreateEnv := ⟨⟨8⟩, 0, fun _ => false⟩
  let row : Document :=
    { newDocument ⟨⟨7⟩, 0, fun _ => false⟩ sampleCall with deletedAt := some 1 }
  let t := singleDocument row sampleSha256.length_val
  have hvalid : ValidCall env sampleCall t := by
    refine ⟨by decide, ?_, rfl⟩
    intro row' hrow'
    rw [List.mem_singleton.1 hrow']
    decide
  have hlookup : t.lookup sampleCall.sha256.val = some row :=
    t.lookup_key (List.mem_singleton_self row)
  have hnone : findBySha256 sampleCall.sha256 t = .ok none := by
    rw [findBySha256_eq, hlookup]
    rfl
  obtain ⟨document, hok, -⟩ := (hclaim env sampleCall t hvalid).inserted hnone
  rw [create_of_lookup_some hvalid hlookup] at hok
  cases hok

end DocumentRepository

end Ipa
