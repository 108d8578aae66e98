import Ipa.Db.Base
import Ipa.Lib.ReadCommitted
import Ipa.Lib.Run
import Mathlib.Data.List.Sort

/-!
# The table `extraction_versions` and its repository

`ExtractionRepository.add` is three statements: it reads the highest version of the document, takes
the current flag off, and inserts the next version as the current one.  `AddSessions.Step` runs any
number of such transactions statement by statement under READ COMMITTED, each of which commits once
`add` has returned and rolls back when it raises.

Rows are stored under `(document_id, version)`; `index` lists the entries of that unique index, in
the order in which they were made.  An insert meets the entries of its document one by one: a row
that another open transaction has written makes it wait if one of its versions would collide, and a
row that it sees and that collides makes it fail.
-/

namespace Ipa

open ReadCommitted

/-- A row of `extraction_versions`; the DTO that the repository returns has the same fields. -/
structure ExtractionVersion where
  id : UUID
  documentId : UUID
  version : ℕ
  tagId : UUID
  tagVersion : ℤ
  source : ExtractionSource
  model : Option String
  promptHash : Option String
  documentConfidence : ℚ
  mongoId : String
  isCurrent : Bool
  createdBy : Option String
  createdAt : Timestamp

/-- The unique key `(document_id, version)`. -/
abbrev ExtractionKey := UUID × ℕ

/-- The document and the version of a row. -/
def ExtractionVersion.key (row : ExtractionVersion) : ExtractionKey := (row.documentId, row.version)

/-- The two unique indexes: no two rows of a document have one version, and no two are current. -/
def ExtractionVersion.Collides (row row' : ExtractionVersion) : Prop :=
  row.documentId = row'.documentId ∧ (row.version = row'.version ∨ row.isCurrent ∧ row'.isCurrent)

/-- The arguments of `add`. -/
structure AddCall where
  documentId : UUID
  tagId : UUID
  tagVersion : ℤ
  source : ExtractionSource
  documentConfidence : ℚ
  mongoId : String
  model : Option String
  promptHash : Option String
  createdBy : Option String

/-- What `add` takes from outside the table: the drawn identifier, `now()`, and whether the document
and the tag that the row refers to exist. -/
structure AddEnv where
  uuid4 : UUID
  now : Timestamp
  documentExists : Bool
  tagExists : Bool

namespace ExtractionRepository

/-- The row that `add` inserts. -/
def newVersion (env : AddEnv) (call : AddCall) (version : ℕ) : ExtractionVersion where
  id := env.uuid4
  documentId := call.documentId
  version := version
  tagId := call.tagId
  tagVersion := call.tagVersion
  source := call.source
  model := call.model
  promptHash := call.promptHash
  documentConfidence := roundNumeric 3 call.documentConfidence
  mongoId := call.mongoId
  isCurrent := true
  createdBy := call.createdBy
  createdAt := env.now

/-- The row with its current flag taken off. -/
def unflag (row : ExtractionVersion) : ExtractionVersion := { row with isCurrent := false }

/-! ## Reading -/

/-- The rows of a document, read entry by entry of the index. -/
def rowsOf (index : List ExtractionKey) (row : ExtractionKey → Option ExtractionVersion)
    (documentId : UUID) : List ExtractionVersion :=
  index.filterMap fun k => if k.1 = documentId then row k else none

/-- `coalesce(max(version), 0) + 1`. -/
def nextVersion (rows : List ExtractionVersion) : ℕ := (rows.map (·.version)).max?.getD 0 + 1

/-- `get`, from the rows of the document. -/
def get (rows : List ExtractionVersion) (version : Option ℕ) :
    Except DbError (Option ExtractionVersion) :=
  oneOrNone (rows.filter fun row =>
    match version with
    | none => row.isCurrent
    | some v => row.version = v)

/-- `listVersions`, from the rows of the document. -/
def listVersions (rows : List ExtractionVersion) : List ExtractionVersion :=
  rows.insertionSort fun row row' => row'.version ≤ row.version

end ExtractionRepository

/-! ## Transactions -/

/-- Where a transaction that runs `add` stands. -/
inductive AddTxn
  | idle
  | selected (call : AddCall) (version : ℕ)
  | updating (call : AddCall) (version : ℕ) (todo : List ExtractionKey)
      (written : List (ExtractionKey × ExtractionVersion))
  | returned (row : ExtractionVersion) (written : List (ExtractionKey × ExtractionVersion))
  | raised (written : List (ExtractionKey × ExtractionVersion))
  | ended

/-- The writes of a transaction that has not ended. -/
def AddTxn.written : AddTxn → List (ExtractionKey × ExtractionVersion)
  | updating _ _ _ w | returned _ w | raised w => w
  | idle | selected _ _ | ended => []

/-- `add` has begun and has not returned. -/
def AddTxn.InProgress : AddTxn → Prop
  | selected _ _ | updating _ _ _ _ | raised _ => True
  | idle | returned _ _ | ended => False

/-- The table and the transactions. -/
structure AddSessions (T : Type*) where
  index : List ExtractionKey
  cell : Store T ExtractionKey ExtractionVersion
  txn : T → AddTxn

/-- What transactions do. -/
inductive AddEvent (T : Type*)
  | select (t : T) (call : AddCall)
  | update (t : T)
  | skip (t : T) (k : ExtractionKey)
  | unflag (t : T) (k : ExtractionKey)
  | insert (t : T) (row : ExtractionVersion)
  | conflict (t : T)
  | commit (t : T) (row : ExtractionVersion)
  | rollback (t : T)

namespace AddSessions

open ExtractionRepository

variable {T : Type*}

/-- No rows, no transactions. -/
def init : AddSessions T := ⟨[], Store.empty, fun _ => .idle⟩

/-- The committed rows of a document. -/
def committedRows (s : AddSessions T) (documentId : UUID) : List ExtractionVersion :=
  rowsOf s.index (fun k => (s.cell k).committed) documentId

/-- The current rows of a document among the committed ones. -/
def currentKeys (s : AddSessions T) (documentId : UUID) : List ExtractionKey :=
  s.index.filter fun k => k.1 = documentId ∧ (s.cell k).committed.any (·.isCurrent)

/-- Another open transaction has written the row, and a version of it collides with `row`. -/
def Waits (t : T) (row : ExtractionVersion) (c : Cell T ExtractionVersion) : Prop :=
  ∃ t' v, c.writer = some (t', v) ∧ t' ≠ t ∧
    (row.Collides v ∨ ∃ r, c.committed = some r ∧ row.Collides r)

variable [DecidableEq T]

/-- No other transaction has written the row, and the version that `t` sees collides with `row`. -/
def Fails (t : T) (row : ExtractionVersion) (c : Cell T ExtractionVersion) : Prop :=
  (∀ t' v, c.writer = some (t', v) → t' = t) ∧ ∃ r, c.visible t = some r ∧ row.Collides r

/-- One statement of one transaction, or its end. -/
inductive Step : AddSessions T → AddEvent T → AddSessions T → Prop
  | select {s : AddSessions T} {t : T} {call : AddCall} {version : ℕ}
      (hidle : s.txn t = .idle)
      (hversion : version =
        nextVersion (rowsOf s.index (fun k => (s.cell k).visible t) call.documentId))
      (hint : IsInt4 version) :
      Step s (.select t call) ⟨s.index, s.cell, Function.update s.txn t (.selected call version)⟩
  | update {s : AddSessions T} {t : T} {call : AddCall} {version : ℕ}
      (hselected : s.txn t = .selected call version) :
      Step s (.update t) ⟨s.index, s.cell,
        Function.update s.txn t (.updating call version (s.currentKeys call.documentId) [])⟩
  | skip {s : AddSessions T} {t : T} {call : AddCall} {version : ℕ} {todo : List ExtractionKey}
      {w : List (ExtractionKey × ExtractionVersion)} {k : ExtractionKey}
      (hupdating : s.txn t = .updating call version todo w) (htodo : k ∈ todo)
      (hfree : (s.cell k).writer = none)
      (hmiss : ∀ r, (s.cell k).committed = some r → r.isCurrent = false) :
      Step s (.skip t k) ⟨s.index, s.cell,
        Function.update s.txn t (.updating call version (todo.erase k) w)⟩
  | unflag {s : AddSessions T} {t : T} {call : AddCall} {version : ℕ} {todo : List ExtractionKey}
      {w : List (ExtractionKey × ExtractionVersion)} {k : ExtractionKey} {r : ExtractionVersion}
      (hupdating : s.txn t = .updating call version todo w) (htodo : k ∈ todo)
      (hfree : (s.cell k).writer = none)
      (hrow : (s.cell k).committed = some r) (hcurrent : r.isCurrent) :
      Step s (.unflag t k) ⟨s.index, s.cell.write t k (ExtractionRepository.unflag r),
        Function.update s.txn t
          (.updating call version (todo.erase k) (w ++ [(k, ExtractionRepository.unflag r)]))⟩
  | insert {s : AddSessions T} {t : T} {call : AddCall} {version : ℕ}
      {w : List (ExtractionKey × ExtractionVersion)} {row : ExtractionVersion} (env : AddEnv)
      (hupdating : s.txn t = .updating call version [] w)
      (hrow : row = newVersion env call version)
      (hrefs : env.documentExists ∧ env.tagExists)
      (hwaits : ∀ k ∈ s.index, ¬ Waits t row (s.cell k))
      (hfails : ∀ k ∈ s.index, ¬ Fails t row (s.cell k)) :
      Step s (.insert t row) ⟨if row.key ∈ s.index then s.index else s.index ++ [row.key],
        s.cell.write t row.key row,
        Function.update s.txn t (.returned row (w ++ [(row.key, row)]))⟩
  /-- Every integrity error becomes a `ConflictError`, a missing document or tag included. -/
  | conflict {s : AddSessions T} {t : T} {call : AddCall} {version : ℕ}
      {w : List (ExtractionKey × ExtractionVersion)} (env : AddEnv)
      (hupdating : s.txn t = .updating call version [] w)
      (hraises : (∃ k ∈ s.index, Fails t (newVersion env call version) (s.cell k)) ∨
        ¬ (env.documentExists ∧ env.tagExists)) :
      Step s (.conflict t) ⟨s.index, s.cell, Function.update s.txn t (.raised w)⟩
  | commit {s : AddSessions T} {t : T} {row : ExtractionVersion}
      {w : List (ExtractionKey × ExtractionVersion)} (hreturned : s.txn t = .returned row w) :
      Step s (.commit t row) ⟨s.index, s.cell.commit t, Function.update s.txn t .ended⟩
  /-- Any other error before `add` returns ends the transaction too. -/
  | rollback {s : AddSessions T} {t : T} (hopen : (s.txn t).InProgress) :
      Step s (.rollback t) ⟨s.index, s.cell.rollback t, Function.update s.txn t .ended⟩

end AddSessions

end Ipa
