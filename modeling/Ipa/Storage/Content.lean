import Ipa.Contracts.Extraction
import Ipa.Lib.Table
import Mathlib.Data.List.Sort

/-!
# The collection `extractions` of the content store

Documents of the collection are unique by `(document_id, version)`.  `putExtraction` looks for the key
and then inserts; the two operations are separate (`checkExtraction`, `insertExtraction`), and each
of them ends with the same error when the key is taken.  The readers rebuild a record from a stored
document (`recordFromDoc`), which gives the record back up to its time stamp, now in UTC and in whole
milliseconds (`recordFromDoc_toDoc`).
-/

namespace Ipa

/-- The identifier that the driver draws for a new document. -/
structure ObjectId where
  bytes : BitVec 96
deriving DecidableEq, Repr

/-- The text of an identifier: its 24 hexadecimal digits. -/
def ObjectId.str (id : ObjectId) : String := String.ofList (hexDigits 24 id.bytes.toNat)

theorem ObjectId.str_injective : Function.Injective ObjectId.str := by
  intro a b h
  have ha : a.bytes.toNat < 16 ^ 24 := a.bytes.isLt
  have hb : b.bytes.toNat < 16 ^ 24 := b.bytes.isLt
  have hbytes : a.bytes = b.bytes :=
    BitVec.eq_of_toNat_eq (hexDigits_inj ha hb (String.ofList_injective h))
  cases a
  cases b
  exact congrArg ObjectId.mk hbytes

/-- A document of the collection; instants are stored in milliseconds. -/
structure ExtractionDoc where
  id : ObjectId
  documentId : String
  version : ℕ
  tagId : String
  tagVersion : ℕ
  source : ExtractionSource
  model : Option String
  promptHash : Option String
  fields : List FieldDoc
  documentConfidence : ℚ
  createdAtMs : ℤ
  createdBy : Option String

/-- The key of the unique index `uniq_document_version`. -/
def ExtractionDoc.key (doc : ExtractionDoc) : String × ℕ := (doc.documentId, doc.version)

/-- The collection with its unique index. -/
abbrev ExtractionStore := Table ExtractionDoc.key

/-- Errors of the content store. -/
inductive StoreError
  | conflict (detail : String)
  | contentStoreError (operation : String)
deriving DecidableEq, Repr

namespace MongoContentStore

/-! ## Documents and records -/

/-- The stored document of a record. -/
def toDoc (id : ObjectId) (record : ExtractionRecord) : ExtractionDoc where
  id := id
  documentId := record.documentId.str
  version := record.version
  tagId := record.tagId.str
  tagVersion := record.tagVersion
  source := record.source
  model := record.model
  promptHash := record.promptHash
  fields := record.fields.map ExtractedField.modelDump
  documentConfidence := record.documentConfidence
  createdAtMs := record.createdAt.millis
  createdBy := record.createdBy

/-- Rebuild a record from its stored document. -/
def recordFromDoc (doc : ExtractionDoc) : Option ExtractionRecord := do
  let documentId ← UUID.parse doc.documentId
  let tagId ← UUID.parse doc.tagId
  let fields ← doc.fields.mapM ExtractedField.ofDoc
  if h : 1 ≤ doc.version ∧ 1 ≤ doc.tagVersion ∧
      0 ≤ doc.documentConfidence ∧ doc.documentConfidence ≤ 1 then
    some
      { documentId := documentId
        version := doc.version
        tagId := tagId
        tagVersion := doc.tagVersion
        source := doc.source
        model := doc.model
        promptHash := doc.promptHash
        fields := fields
        documentConfidence := doc.documentConfidence
        createdAt := (Datetime.ofMillis doc.createdAtMs).anchorUtc
        createdBy := doc.createdBy
        version_pos := h.1
        tagVersion_pos := h.2.1
        confidence_mem := h.2.2 }
  else none

/-- The record as it is read back: its time stamp is in UTC and has lost its microseconds. -/
def stored (record : ExtractionRecord) : ExtractionRecord :=
  { record with createdAt := (Datetime.ofMillis record.createdAt.millis).anchorUtc }

theorem mapM_ofDoc_modelDump (fields : List ExtractedField) :
    (fields.map ExtractedField.modelDump).mapM ExtractedField.ofDoc = some fields := by
  induction fields with
  | nil => rfl
  | cons f fields ih => simp [List.mapM_cons, ih]

theorem recordFromDoc_toDoc (id : ObjectId) (record : ExtractionRecord) :
    recordFromDoc (toDoc id record) = some (stored record) := by
  have hbounds : 1 ≤ record.version ∧ 1 ≤ record.tagVersion ∧
      0 ≤ record.documentConfidence ∧ record.documentConfidence ≤ 1 :=
    ⟨record.version_pos, record.tagVersion_pos, record.confidence_mem⟩
  simp only [recordFromDoc, toDoc, UUID.parse_str, mapM_ofDoc_modelDump, Option.bind_eq_bind,
    Option.bind_some]
  exact dif_pos hbounds

/-! ## Writing -/

/-- The text of the conflict error. -/
def duplicate (record : ExtractionRecord) : String :=
  "Extraction version " ++ toString record.version ++ " already exists for document " ++
    record.documentId.str ++ "."

/-- The key under which a record is stored. -/
def storeKey (record : ExtractionRecord) : String × ℕ := (record.documentId.str, record.version)

/-- The first operation of `putExtraction`: nothing may be stored under the key. -/
def checkExtraction (record : ExtractionRecord) (t : ExtractionStore) : Except StoreError Unit :=
  if (t.lookup (storeKey record)).isSome then .error (.conflict (duplicate record)) else .ok ()

/-- The second operation of `putExtraction`: a violation of the unique index writes nothing. -/
def insertExtraction (id : ObjectId) (record : ExtractionRecord) (t : ExtractionStore) :
    ExtractionStore × Except StoreError String :=
  if h : t.lookup (storeKey record) = none then
    (t.insertAll [toDoc id record] (List.nodup_singleton _)
      (by
        intro r hr r' hr' hkey
        obtain rfl := List.mem_singleton.1 hr
        exact t.lookup_eq_none_iff.1 h r' hr' hkey), .ok id.str)
  else (t, .error (.conflict (duplicate record)))

/-- `putExtraction` when nothing happens between its operations. -/
def putExtraction (id : ObjectId) (record : ExtractionRecord) (t : ExtractionStore) :
    ExtractionStore × Except StoreError String :=
  match checkExtraction record t with
  | .error e => (t, .error e)
  | .ok () => insertExtraction id record t

theorem insertExtraction_of_none (id : ObjectId) {record : ExtractionRecord} {t : ExtractionStore}
    (h : t.lookup (storeKey record) = none) :
    (insertExtraction id record t).1.rows = t.rows ++ [toDoc id record] ∧
      (insertExtraction id record t).2 = .ok id.str := by
  unfold insertExtraction
  rw [dif_pos h]
  exact ⟨rfl, rfl⟩

theorem insertExtraction_of_ne_none (id : ObjectId) {record : ExtractionRecord}
    {t : ExtractionStore} (h : t.lookup (storeKey record) ≠ none) :
    insertExtraction id record t = (t, .error (.conflict (duplicate record))) :=
  dif_neg h

/-- The check changes nothing when no other operation falls in between: the insert answers alike. -/
theorem putExtraction_eq (id : ObjectId) (record : ExtractionRecord) (t : ExtractionStore) :
    putExtraction id record t = insertExtraction id record t := by
  unfold putExtraction checkExtraction
  cases h : t.lookup (storeKey record) with
  | none => rfl
  | some doc =>
    rw [insertExtraction_of_ne_none id (by rw [h]; simp)]
    rfl

/-- `deleteDocument` on this collection. -/
def deleteDocument (documentId : UUID) (t : ExtractionStore) : ExtractionStore :=
  t.filter fun doc => doc.documentId ≠ documentId.str

/-! ## Reading -/

/-- `find(query).sort("version", DESCENDING)`. -/
def findNewestFirst (query : ExtractionDoc → Bool) (t : ExtractionStore) : List ExtractionDoc :=
  (t.rows.filter query).insertionSort fun doc doc' => doc'.version ≤ doc.version

/-- A record, or the error of a reader that cannot rebuild it. -/
def readDoc (operation : String) (doc : ExtractionDoc) : Except StoreError ExtractionRecord :=
  match recordFromDoc doc with
  | some record => .ok record
  | none => .error (.contentStoreError operation)

/-- The record of the document that `find_one` has found, if any. -/
def readFound (operation : String) : Option ExtractionDoc → Except StoreError (Option ExtractionRecord)
  | none => .ok none
  | some doc => (readDoc operation doc).map some

/-- `get_extraction`. -/
def getExtraction (documentId : UUID) (version : Option ℕ) (t : ExtractionStore) :
    Except StoreError (Option ExtractionRecord) :=
  let query := fun doc : ExtractionDoc =>
    doc.documentId = documentId.str && version.all (doc.version = ·)
  readFound "get_extraction" (findNewestFirst query t).head?

/-- `list_extractions`. -/
def listExtractions (documentId : UUID) (t : ExtractionStore) :
    Except StoreError (List ExtractionRecord) :=
  (findNewestFirst (fun doc => doc.documentId = documentId.str) t).mapM (readDoc "list_extractions")

/-! ### The readers on a collection whose documents can be read -/

theorem version_recordFromDoc {doc : ExtractionDoc} {record : ExtractionRecord}
    (h : recordFromDoc doc = some record) : record.version = doc.version := by
  simp only [recordFromDoc, Option.bind_eq_bind, Option.bind_eq_some_iff] at h
  obtain ⟨_, -, _, -, _, -, h⟩ := h
  split_ifs at h
  exact congrArg ExtractionRecord.version (Option.some.inj h).symm

/-- The documents of `d`, newest first. -/
def docsOf (documentId : UUID) (t : ExtractionStore) : List ExtractionDoc :=
  findNewestFirst (fun doc => doc.documentId = documentId.str) t

theorem mem_findNewestFirst {query : ExtractionDoc → Bool} {t : ExtractionStore}
    {doc : ExtractionDoc} : doc ∈ findNewestFirst query t ↔ doc ∈ t.rows ∧ query doc = true := by
  rw [findNewestFirst, (List.perm_insertionSort _ _).mem_iff, List.mem_filter]

theorem pairwise_findNewestFirst (query : ExtractionDoc → Bool) (t : ExtractionStore) :
    (findNewestFirst query t).Pairwise fun doc doc' => doc'.version ≤ doc.version := by
  have : Std.Total fun doc doc' : ExtractionDoc => doc'.version ≤ doc.version :=
    ⟨fun doc doc' => Nat.le_total doc'.version doc.version⟩
  have : IsTrans ExtractionDoc fun doc doc' => doc'.version ≤ doc.version :=
    ⟨fun _ _ _ hab hbc => Nat.le_trans hbc hab⟩
  exact List.pairwise_insertionSort _ _

/-- The versions of one document are strictly decreasing: the unique index lets none occur twice. -/
theorem pairwise_docsOf (d : UUID) (t : ExtractionStore) :
    (docsOf d t).Pairwise fun doc doc' => doc'.version < doc.version := by
  have hnd : (docsOf d t).Nodup :=
    (List.perm_insertionSort _ _).nodup_iff.2 ((List.Nodup.of_map _ t.nodup).filter _)
  refine List.Pairwise.imp_of_mem ?_ ((pairwise_findNewestFirst _ t).and hnd)
  intro doc doc' hdoc hdoc' ⟨hle, hne⟩
  rw [docsOf, mem_findNewestFirst, decide_eq_true_eq] at hdoc hdoc'
  refine lt_of_le_of_ne hle fun hv => hne ?_
  exact t.eq_of_key_eq hdoc.1 hdoc'.1 (Prod.ext (hdoc.2.trans hdoc'.2.symm) hv.symm)

/-- A narrower query among the versions of one document keeps their order. -/
theorem findNewestFirst_and (d : UUID) (p : ExtractionDoc → Bool) (t : ExtractionStore) :
    findNewestFirst (fun doc => doc.documentId = d.str && p doc) t = (docsOf d t).filter p := by
  have hperm : (findNewestFirst (fun doc => doc.documentId = d.str && p doc) t).Perm
      ((docsOf d t).filter p) := by
    refine (List.perm_insertionSort _ _).trans ?_
    refine .trans ?_ ((List.perm_insertionSort _ _).filter p).symm
    rw [List.filter_filter]
    simp only [Bool.and_comm, List.Perm.refl]
  refine hperm.eq_of_pairwise ?_ (pairwise_findNewestFirst _ t)
    (((pairwise_docsOf d t).imp le_of_lt).sublist List.filter_sublist)
  intro doc doc' hdoc hdoc' hle hle'
  have hmem := mem_findNewestFirst.1 hdoc
  have hmem' := mem_findNewestFirst.1 (List.mem_filter.1 hdoc').1
  simp only [Bool.and_eq_true, decide_eq_true_eq] at hmem hmem'
  exact t.eq_of_key_eq hmem.1 hmem'.1 (Prod.ext (hmem.2.1.trans hmem'.2.symm) (le_antisymm hle' hle))

/-- What is stored under a key is what is returned for it. -/
theorem getExtraction_of_mem {d : UUID} {v : ℕ} {t : ExtractionStore} {doc : ExtractionDoc}
    {record : ExtractionRecord} (hdoc : doc ∈ t.rows) (hkey : doc.key = (d.str, v))
    (hrecord : recordFromDoc doc = some record) : getExtraction d (some v) t = .ok (some record) := by
  have hmem : ∀ doc', doc' ∈ findNewestFirst (fun doc => doc.documentId = d.str &&
      (some v).all (doc.version = ·)) t ↔ doc' = doc := by
    intro doc'
    rw [mem_findNewestFirst]
    simp only [Option.all_some, Bool.and_eq_true, decide_eq_true_eq]
    obtain ⟨hd, hv⟩ := Prod.mk.inj hkey
    constructor
    · rintro ⟨hdoc', hd', hv'⟩
      exact t.eq_of_key_eq hdoc' hdoc (Prod.ext (hd'.trans hd.symm) (hv'.trans hv.symm))
    · rintro rfl
      exact ⟨hdoc, hd, hv⟩
  unfold getExtraction
  dsimp only
  generalize findNewestFirst _ t = docs at hmem ⊢
  cases docs with
  | nil => exact absurd ((hmem doc).2 rfl) List.not_mem_nil
  | cons doc' docs =>
    obtain rfl := (hmem doc').1 List.mem_cons_self
    rw [List.head?_cons, readFound, readDoc, hrecord]
    rfl

section Readable

variable {docs : List ExtractionDoc} (h : ∀ doc ∈ docs, (recordFromDoc doc).isSome)
include h

theorem mapM_readDoc (operation : String) :
    docs.mapM (readDoc operation) = .ok (docs.filterMap recordFromDoc) := by
  induction docs with
  | nil => rfl
  | cons doc docs ih =>
    obtain ⟨r, hr⟩ := Option.isSome_iff_exists.1 (h doc List.mem_cons_self)
    have hread : readDoc operation doc = .ok r := by rw [readDoc, hr]
    rw [List.mapM_cons, hread, ih fun doc hdoc => h doc (List.mem_cons_of_mem _ hdoc),
      List.filterMap_cons_some hr]
    rfl

theorem readFound_head? (operation : String) :
    readFound operation docs.head? = .ok (docs.filterMap recordFromDoc).head? := by
  cases docs with
  | nil => rfl
  | cons doc docs =>
    obtain ⟨r, hr⟩ := Option.isSome_iff_exists.1 (h doc List.mem_cons_self)
    rw [List.filterMap_cons_some hr]
    simp [readFound, readDoc, hr, Except.map]

end Readable

theorem filterMap_filter_version (docs : List ExtractionDoc) (v : ℕ) :
    (docs.filter (·.version = v)).filterMap recordFromDoc =
      (docs.filterMap recordFromDoc).filter (·.version = v) := by
  induction docs with
  | nil => rfl
  | cons doc docs ih =>
    cases hr : recordFromDoc doc with
    | none =>
      rw [List.filterMap_cons_none hr, ← ih]
      by_cases hv : doc.version = v
      · rw [List.filter_cons_of_pos (by simpa using hv), List.filterMap_cons_none hr]
      · rw [List.filter_cons_of_neg (by simpa using hv)]
    | some r =>
      have hversion := version_recordFromDoc hr
      rw [List.filterMap_cons_some hr]
      by_cases hv : doc.version = v
      · rw [List.filter_cons_of_pos (by simpa using hv), List.filterMap_cons_some hr,
          List.filter_cons_of_pos (by simpa [hversion] using hv), ih]
      · rw [List.filter_cons_of_neg (by simpa using hv),
          List.filter_cons_of_neg (by simpa [hversion] using hv), ih]

/-- The readers agree: one lists the records, the others pick the first one or the one with a given
version. -/
theorem readers_eq {d : UUID} {t : ExtractionStore}
    (h : ∀ doc ∈ docsOf d t, (recordFromDoc doc).isSome) :
    let records := (docsOf d t).filterMap recordFromDoc
    listExtractions d t = .ok records ∧ getExtraction d none t = .ok records.head? ∧
      ∀ v, getExtraction d (some v) t = .ok (records.find? (·.version = v)) := by
  refine ⟨mapM_readDoc h _, ?_, fun v => ?_⟩
  · have hall := findNewestFirst_and d (fun _ => true) t
    rw [List.filter_true] at hall
    unfold getExtraction
    simp only [Option.all_none, hall]
    exact readFound_head? h _
  · unfold getExtraction
    simp only [Option.all_some, findNewestFirst_and d (fun doc => decide (doc.version = v)) t]
    rw [readFound_head? (fun doc hdoc => h doc (List.mem_filter.1 hdoc).1), filterMap_filter_version,
      List.head?_filter]

end MongoContentStore

end Ipa
