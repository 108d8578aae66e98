import Ipa.Db.Base
import Ipa.Lib.Table
import Mathlib.Data.List.Sort

/-!
# The table `document_steps` and its repository

Each function of the step repository is one SQL statement on the table, followed for `ensureSteps`
and `resetFrom` by the listing of the document's rows.  A statement that raises leaves the table as
it was.  `StepCall` collects the calls of the repository and `StepCall.exec` runs one of them.
-/

namespace Ipa

/-- A row of `document_steps`; the DTO that the repository returns has the same fields. -/
structure DocumentStep where
  id : UUID
  documentId : UUID
  step : PipelineStep
  status : StepStatus
  attempt : ℤ
  maxAttempts : ℤ
  startedAt : Option Timestamp
  finishedAt : Option Timestamp
  durationMs : Option ℤ
  errorCode : Option String
  errorDetail : Option String
  outputRef : Option String
  metrics : JsonObject
  createdAt : Timestamp
  updatedAt : Timestamp

/-- The unique key `(document_id, step)`. -/
abbrev StepKey := UUID × PipelineStep

/-- The document and the step of a row. -/
def DocumentStep.key (row : DocumentStep) : StepKey := (row.documentId, row.step)

/-- The table `document_steps` with its unique constraint. -/
abbrev StepTable := Table DocumentStep.key

/-- What a statement takes from outside the table: `now()`, which is the start of its transaction,
the identifiers drawn for new rows, and the documents that the foreign key may point to. -/
structure StepEnv where
  now : Timestamp
  uuid4 : PipelineStep → UUID
  documentExists : UUID → Bool

namespace StepRepository

/-! ## Reading -/

/-- Sort rows by the position of their step in `stepOrder`. -/
def inStepOrder (rows : List DocumentStep) : List DocumentStep :=
  rows.insertionSort fun r r' => r.step.AtOrBefore r'.step

/-- `list_steps`. -/
def listSteps (t : StepTable) (documentId : UUID) : List DocumentStep :=
  inStepOrder (t.rows.filter fun row => row.documentId = documentId)

/-! ## Inserting -/

/-- The row inserted for a missing step: the given columns and the defaults of the others. -/
def newStep (env : StepEnv) (documentId : UUID) (maxAttempts : ℤ) (step : PipelineStep) :
    DocumentStep where
  id := env.uuid4 step
  documentId := documentId
  step := step
  status := .pending
  attempt := 0
  maxAttempts := maxAttempts
  startedAt := none
  finishedAt := none
  durationMs := none
  errorCode := none
  errorDetail := none
  outputRef := none
  metrics := []
  createdAt := env.now
  updatedAt := env.now

/-- The steps of a document that have no row yet. -/
def missingSteps (t : StepTable) (documentId : UUID) : List PipelineStep :=
  stepOrder.filter fun step => (t.lookup (documentId, step)).isNone

/-- `INSERT` one row for each step, `ON CONFLICT (document_id, step) DO NOTHING`. -/
def insertMissing (env : StepEnv) (documentId : UUID) (maxAttempts : ℤ) (t : StepTable) :
    StepTable :=
  t.insertAll ((missingSteps t documentId).map (newStep env documentId maxAttempts))
    (by
      rw [List.map_map]
      refine (nodup_stepOrder.filter _).map ?_
      intro s s' h
      exact congrArg Prod.snd h)
    (by
      intro r hr r' hr' hkey
      obtain ⟨s, hs, rfl⟩ := List.mem_map.1 hr
      obtain ⟨-, hs⟩ := List.mem_filter.1 hs
      rw [Option.isNone_iff_eq_none, t.lookup_eq_none_iff] at hs
      exact hs r' hr' hkey)

/-- `ensure_steps`: insert the rows that are missing and read all of them. -/
def ensureSteps (env : StepEnv) (documentId : UUID) (maxAttempts : ℤ) (t : StepTable) :
    StepTable × Except DbError (List DocumentStep) :=
  if ¬ IsInt4 maxAttempts then (t, .error .integerOutOfRange)
  else if missingSteps t documentId ≠ [] ∧ ¬ env.documentExists documentId then
    (t, .error .foreignKeyViolation)
  else
    let t' := insertMissing env documentId maxAttempts t
    (t', .ok (listSteps t' documentId))

/-! ## Updating one row -/

/-- `UPDATE ... RETURNING` read by `one_or_none`: when either raises, the transaction is undone. -/
def updateOne (u : Table.Update DocumentStep.key DbError) (t : StepTable) :
    StepTable × Except DbError (Option DocumentStep) :=
  match t.update u with
  | (_, .error e) => (t, .error e)
  | (t', .ok rows) =>
    match oneOrNone rows with
    | .error e => (t, .error e)
    | .ok row => (t', .ok row)

/-- The row of one step while it has a given status. -/
def atStatus (documentId : UUID) (step : PipelineStep) (status : StepStatus) (row : DocumentStep) :
    Bool :=
  row.documentId = documentId ∧ row.step = step ∧ row.status = status

/-- The `UPDATE` of `claim`. -/
def claimUpdate (env : StepEnv) (documentId : UUID) (step : PipelineStep) :
    Table.Update DocumentStep.key DbError where
  hits := atStatus documentId step .pending
  raises _ := none
  set row :=
    { row with
      status := .running
      attempt := row.attempt + 1
      startedAt := some env.now
      finishedAt := none
      durationMs := none
      errorCode := none
      errorDetail := none
      updatedAt := env.now }
  key_set _ := rfl

/-- `claim`. -/
def claim (env : StepEnv) (documentId : UUID) (step : PipelineStep) (t : StepTable) :
    StepTable × Except DbError (Option DocumentStep) :=
  updateOne (claimUpdate env documentId step) t

/-- `floor(extract(epoch from now() - started_at) * 1000)`, null when `started_at` is. -/
def elapsedMs (now : Timestamp) (startedAt : Option Timestamp) : Option ℤ :=
  startedAt.map fun started => (now - started) / 1000

/-- The value of `duration_ms` that `markSucceeded` writes. -/
def durationOf (env : StepEnv) (durationMs : Option ℤ) (row : DocumentStep) : Option ℤ :=
  match durationMs with
  | some d => some d
  | none => elapsedMs env.now row.startedAt

/-- The `UPDATE` of `mark_succeeded`; its cast to `integer` raises outside the range of this type. -/
def succeededUpdate (env : StepEnv) (documentId : UUID) (step : PipelineStep)
    (outputRef : Option String) (durationMs : Option ℤ) (metrics : Option JsonObject) :
    Table.Update DocumentStep.key DbError where
  hits := atStatus documentId step .running
  raises row :=
    if ∀ d ∈ durationOf env durationMs row, IsInt4 d then none else some .integerOutOfRange
  set row :=
    { row with
      status := .succeeded
      finishedAt := some env.now
      durationMs := durationOf env durationMs row
      outputRef := outputRef
      metrics := metrics.getD row.metrics
      updatedAt := env.now }
  key_set _ := rfl

/-- `mark_succeeded`; the driver encodes the duration before it sends the statement. -/
def markSucceeded (env : StepEnv) (documentId : UUID) (step : PipelineStep)
    (outputRef : Option String) (durationMs : Option ℤ) (metrics : Option JsonObject)
    (t : StepTable) : StepTable × Except DbError (Option DocumentStep) :=
  if ∀ d ∈ durationMs, IsInt4 d then
    updateOne (succeededUpdate env documentId step outputRef durationMs metrics) t
  else (t, .error .integerOutOfRange)

/-- The `UPDATE` of `mark_failed`. -/
def failedUpdate (env : StepEnv) (documentId : UUID) (step : PipelineStep)
    (errorCode errorDetail : Option String) : Table.Update DocumentStep.key DbError where
  hits := atStatus documentId step .running
  raises _ := none
  set row :=
    { row with
      status := .failed
      finishedAt := some env.now
      errorCode := errorCode
      errorDetail := errorDetail
      updatedAt := env.now }
  key_set _ := rfl

/-- `mark_failed`. -/
def markFailed (env : StepEnv) (documentId : UUID) (step : PipelineStep)
    (errorCode errorDetail : Option String) (t : StepTable) :
    StepTable × Except DbError (Option DocumentStep) :=
  updateOne (failedUpdate env documentId step errorCode errorDetail) t

/-! ## Resetting -/

/-- The `UPDATE` of `reset_from`. -/
def resetUpdate (env : StepEnv) (documentId : UUID) (step : PipelineStep) :
    Table.Update DocumentStep.key DbError where
  hits row := row.documentId = documentId ∧ row.step ∈ stepsFrom step
  raises _ := none
  set row :=
    { row with
      status := .pending
      attempt := 0
      startedAt := none
      finishedAt := none
      durationMs := none
      errorCode := none
      errorDetail := none
      outputRef := none
      metrics := []
      updatedAt := env.now }
  key_set _ := rfl

/-- `reset_from`. -/
def resetFrom (env : StepEnv) (documentId : UUID) (step : PipelineStep) (t : StepTable) :
    StepTable × Except DbError (List DocumentStep) :=
  match t.update (resetUpdate env documentId step) with
  | (_, .error e) => (t, .error e)
  | (t', .ok _) => (t', .ok (listSteps t' documentId))

end StepRepository

/-! ## Calls -/

/-- A call of the step repository. -/
inductive StepCall
  | ensureSteps (documentId : UUID) (maxAttempts : ℤ)
  | listSteps (documentId : UUID)
  | claim (documentId : UUID) (step : PipelineStep)
  | markSucceeded (documentId : UUID) (step : PipelineStep) (outputRef : Option String)
      (durationMs : Option ℤ) (metrics : Option JsonObject)
  | markFailed (documentId : UUID) (step : PipelineStep) (errorCode errorDetail : Option String)
  | resetFrom (documentId : UUID) (step : PipelineStep)

/-- What a call returns. -/
inductive StepReply
  | steps (rows : List DocumentStep)
  | step (row : Option DocumentStep)

/-- Run one call: the table after it, and its answer. -/
def StepCall.exec (env : StepEnv) (t : StepTable) :
    StepCall → StepTable × Except DbError StepReply
  | .ensureSteps d m => Prod.map id (Except.map .steps) (StepRepository.ensureSteps env d m t)
  | .listSteps d => (t, .ok (.steps (StepRepository.listSteps t d)))
  | .claim d s => Prod.map id (Except.map .step) (StepRepository.claim env d s t)
  | .markSucceeded d s ref ms metrics =>
    Prod.map id (Except.map .step) (StepRepository.markSucceeded env d s ref ms metrics t)
  | .markFailed d s code detail =>
    Prod.map id (Except.map .step) (StepRepository.markFailed env d s code detail t)
  | .resetFrom d s => Prod.map id (Except.map .steps) (StepRepository.resetFrom env d s t)

/-- Run calls one after another. -/
def execAll (t : StepTable) (calls : List (StepEnv × StepCall)) : StepTable :=
  calls.foldl (fun t c => (c.2.exec c.1 t).1) t

end Ipa
