import Ipa.Db.Step.RowEffect

/-!
# The shape of the rows of `document_steps`

`DocumentStep.Shape` says for each status which columns are set and which are null.  Every call of
the repository keeps it on every row (`shape_rowEffect`), so it holds of every table that calls
build from the empty one.
-/

namespace Ipa

open StepRepository

/-- The columns of a row as its status determines them. -/
def DocumentStep.Shape (r : DocumentStep) : Prop :=
  1 ≤ r.maxAttempts ∧
  match r.status with
  | .pending => r.attempt = 0 ∧ r.startedAt = none ∧ r.finishedAt = none ∧ r.durationMs = none ∧
      r.errorCode = none ∧ r.errorDetail = none ∧ r.outputRef = none ∧ r.metrics = []
  | .running => r.attempt = 1 ∧ r.startedAt ≠ none ∧ r.finishedAt = none ∧ r.durationMs = none ∧
      r.errorCode = none ∧ r.errorDetail = none ∧ r.outputRef = none ∧ r.metrics = []
  | .succeeded => r.attempt = 1 ∧ r.startedAt ≠ none ∧ r.finishedAt ≠ none ∧ r.durationMs ≠ none ∧
      r.errorCode = none ∧ r.errorDetail = none
  | .failed => r.attempt = 1 ∧ r.startedAt ≠ none ∧ r.finishedAt ≠ none ∧ r.durationMs = none ∧
      r.outputRef = none ∧ r.metrics = []
  | .skipped => False

/-- A call whose retry budget, if it sets one, is positive. -/
def StepCall.PositiveBudget : StepCall → Prop
  | .ensureSteps _ m => 1 ≤ m
  | _ => True

namespace DocumentStep.Shape

variable {r : DocumentStep} {env : StepEnv} {d : UUID} {s : PipelineStep}

theorem newStep {m : ℤ} (hm : 1 ≤ m) : (newStep env d m s).Shape := by
  simp [Shape, StepRepository.newStep, hm]

/-- It is enough to look at the rows an update writes. -/
theorem tryRow {u : Table.Update DocumentStep.key DbError}
    (hset : u.hits r → u.raises r = none → (u.set r).Shape) (h : r.Shape) :
    (u.tryRow r).Shape := by
  unfold Table.Update.tryRow
  split_ifs with hh
  · rw [Bool.and_eq_true, Option.isNone_iff_eq_none] at hh
    exact hset hh.1 hh.2
  · exact h

theorem claim (h : r.Shape) : ((claimUpdate env d s).tryRow r).Shape := by
  refine h.tryRow fun hh _ => ?_
  have hpending : r.status = .pending := (atStatus_iff.1 hh).2
  obtain ⟨hmax, h⟩ := h
  rw [hpending] at h
  obtain ⟨hattempt, -, -, -, -, -, href, hmetrics⟩ := h
  simp [Shape, claimUpdate, hmax, hattempt, href, hmetrics]

theorem markSucceeded {ref : Option String} {ms : Option ℤ} {metrics : Option JsonObject}
    (h : r.Shape) : ((succeededUpdate env d s ref ms metrics).tryRow r).Shape := by
  refine h.tryRow fun hh _ => ?_
  have hrunning : r.status = .running := (atStatus_iff.1 hh).2
  obtain ⟨hmax, h⟩ := h
  rw [hrunning] at h
  obtain ⟨hattempt, hstarted, -, -, hcode, hdetail, -, -⟩ := h
  have hduration : durationOf env ms r ≠ none := by
    cases ms with
    | some n => simp [durationOf]
    | none => simpa [durationOf, elapsedMs] using hstarted
  simp [Shape, succeededUpdate, hmax, hattempt, hstarted, hcode, hdetail, hduration]

theorem markFailed {code detail : Option String} (h : r.Shape) :
    ((failedUpdate env d s code detail).tryRow r).Shape := by
  refine h.tryRow fun hh _ => ?_
  have hrunning : r.status = .running := (atStatus_iff.1 hh).2
  obtain ⟨hmax, h⟩ := h
  rw [hrunning] at h
  obtain ⟨hattempt, hstarted, -, hduration, -, -, href, hmetrics⟩ := h
  simp [Shape, failedUpdate, hmax, hattempt, hstarted, hduration, href, hmetrics]

theorem resetFrom (h : r.Shape) : ((resetUpdate env d s).tryRow r).Shape := by
  refine h.tryRow fun _ _ => ?_
  simp [Shape, resetUpdate, h.1]

end DocumentStep.Shape

/-- Every call keeps the shape of every row. -/
theorem shape_rowEffect (c : StepCall) (hc : c.PositiveBudget) (env : StepEnv) (k : StepKey)
    (row : Option DocumentStep) (h : ∀ r ∈ row, r.Shape) : ∀ r ∈ c.rowEffect env k row, r.Shape := by
  intro r hr
  rcases row with _ | r₀
  · cases c <;> simp only [StepCall.rowEffect, Option.map_none, ite_self] at hr
    case ensureSteps d m =>
      split_ifs at hr with hd
      · obtain rfl := Option.some.inj hr
        exact .newStep hc
      · cases hr
    all_goals cases hr
  · have h₀ : r₀.Shape := h r₀ rfl
    cases c <;> simp only [StepCall.rowEffect, Option.map_some] at hr
    case markSucceeded d s ref ms metrics =>
      split_ifs at hr <;> obtain rfl := Option.some.inj hr
      · exact h₀.markSucceeded
      · exact h₀
    all_goals obtain rfl := Option.some.inj hr
    case ensureSteps => exact h₀
    case listSteps => exact h₀
    case claim => exact h₀.claim
    case markFailed => exact h₀.markFailed
    case resetFrom => exact h₀.resetFrom

/-! ## Runs -/

/-- The run of the abstract machine at one key. -/
def rowRun (k : StepKey) (row : Option DocumentStep) (calls : List (StepEnv × StepCall)) :
    Option DocumentStep :=
  calls.foldl (fun row c => c.2.rowEffect c.1 k row) row

theorem lookup_execAll (t : StepTable) (calls : List (StepEnv × StepCall)) (k : StepKey) :
    (execAll t calls).lookup k = rowRun k (t.lookup k) calls := by
  induction calls generalizing t with
  | nil => rfl
  | cons c calls ih =>
    rw [execAll, List.foldl_cons, ← execAll, ih, lookup_exec]
    rfl

theorem shape_rowRun {k : StepKey} {row : Option DocumentStep} {calls : List (StepEnv × StepCall)}
    (hc : ∀ c ∈ calls, c.2.PositiveBudget) (h : ∀ r ∈ row, r.Shape) :
    ∀ r ∈ rowRun k row calls, r.Shape := by
  induction calls generalizing row with
  | nil => exact h
  | cons c calls ih =>
    exact ih (fun c' hc' => hc c' (List.mem_cons_of_mem _ hc'))
      (shape_rowEffect c.2 (hc c List.mem_cons_self) c.1 k row h)

/-- The tables that calls with a positive retry budget build from the empty table. -/
def StepTable.Reachable (t : StepTable) : Prop :=
  ∃ calls : List (StepEnv × StepCall), (∀ c ∈ calls, c.2.PositiveBudget) ∧
    t = execAll (Table.empty _) calls

theorem StepTable.Reachable.shape {t : StepTable} (h : StepTable.Reachable t) {r : DocumentStep}
    (hr : r ∈ t.rows) : r.Shape := by
  obtain ⟨calls, hc, rfl⟩ := h
  have hlookup := Table.lookup_key _ hr
  rw [lookup_execAll] at hlookup
  exact shape_rowRun hc (by simp) r hlookup

/-- In every reachable table the rows are unique by document and step, and the status of a row
determines which of its columns are set. -/
theorem reachable_rows {t : StepTable} (h : StepTable.Reachable t) :
    (t.rows.map fun r => (r.documentId, r.step)).Nodup ∧
    ∀ r ∈ t.rows,
      r.status ≠ .skipped ∧
      (r.status = .pending ↔ r.attempt = 0) ∧
      (r.status = .pending →
        r.startedAt = none ∧ r.finishedAt = none ∧ r.durationMs = none ∧ r.errorCode = none ∧
        r.errorDetail = none ∧ r.outputRef = none ∧ r.metrics = []) ∧
      (r.status ≠ .pending → r.attempt = 1 ∧ r.startedAt ≠ none) ∧
      r.attempt ≤ r.maxAttempts ∧
      (r.status = .running →
        r.finishedAt = none ∧ r.durationMs = none ∧ r.errorCode = none ∧ r.errorDetail = none ∧
        r.outputRef = none ∧ r.metrics = []) ∧
      (r.status = .succeeded →
        r.finishedAt ≠ none ∧ r.durationMs ≠ none ∧ r.errorCode = none ∧ r.errorDetail = none) ∧
      (r.status = .failed →
        r.finishedAt ≠ none ∧ r.durationMs = none ∧ r.outputRef = none ∧ r.metrics = []) := by
  refine ⟨t.nodup, fun r hr => ?_⟩
  obtain ⟨hmax, hshape⟩ := h.shape hr
  cases hstatus : r.status <;> rw [hstatus] at hshape
  case skipped => exact hshape.elim
  case pending =>
    obtain ⟨hattempt, hrest⟩ := hshape
    simp [hattempt, hrest]
    omega
  all_goals
    obtain ⟨hattempt, hstarted, hrest⟩ := hshape
    simp [hattempt, hstarted, hrest, hmax]

/-- A document whose first step is running. -/
theorem reachable_rows_running_store :
    let env : StepEnv := ⟨0, fun s => ⟨(stepOrder.idxOf s : BitVec 128)⟩, fun _ => true⟩
    let t := execAll (Table.empty _) [(env, .ensureSteps ⟨7⟩ 3), (env, .claim ⟨7⟩ .store)]
    (t.lookup (⟨7⟩, .store)).map (fun r => r.status) = some .running ∧
    ∀ r ∈ t.rows, r.attempt ≤ r.maxAttempts := by
  intro env t
  have ht : StepTable.Reachable t := ⟨_, by simp [StepCall.PositiveBudget], rfl⟩
  exact ⟨rfl, fun r hr => ((reachable_rows ht).2 r hr).2.2.2.2.1⟩

end Ipa
