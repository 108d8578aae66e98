import Ipa.Db.Step.Session
import Mathlib.Data.Rat.Floor
import Mathlib.Tactic.Ring

/-!
# The times of a step

`now()` is the start of the transaction, so `finished_at` and `started_at` are the starts of two
transactions, which need not follow the order of their statements.  Here a transaction runs any
number of calls; each of their statements deals with its rows one by one.

* `exists_times_run`: the runs of one call a transaction are among these runs.
* `step_times_iff`: the times of all rows are right throughout a run if and only if every completion
  is in time.
* `claim_overtaken`: the transaction that completes a step has started before the one that claims it.
-/

namespace Ipa

open StepRepository ReadCommitted Transition

/-- `duration_ms`, if the call has the argument, is omitted. -/
def StepCall.Measured : StepCall → Prop
  | .markSucceeded _ _ _ durationMs _ => durationMs = none
  | _ => True

/-- A completion is in time: its transaction has started when the one of the claim had, and the
duration that is computed fits its column. -/
def StepCall.InTime (env : StepEnv) (started : Timestamp) : StepCall → Prop
  | .markSucceeded _ _ _ _ _ => started ≤ env.now ∧ (env.now - started) / 1000 ≤ 2 ^ 31 - 1
  | .markFailed _ _ _ _ => started ≤ env.now
  | _ => True

/-- The rows, and the open transactions with what they take from outside. -/
structure StepTimes (T : Type*) where
  cell : Store T StepKey DocumentStep
  txn : T → Option StepEnv

/-- A transaction starts, a statement of it writes a row or raises on it, the transaction ends. -/
inductive TimesEvent (T : Type*)
  | start (t : T) (env : StepEnv)
  | write (t : T) (c : StepCall) (k : StepKey)
  | raise (t : T) (c : StepCall) (k : StepKey)
  | commit (t : T)
  | rollback (t : T)

namespace StepTimes

variable {T : Type*}

/-- No rows, no transactions. -/
def init : StepTimes T := ⟨Store.empty, fun _ => none⟩

variable [DecidableEq T]

/-- One write of one transaction, its start or its end. -/
inductive Step : StepTimes T → TimesEvent T → StepTimes T → Prop
  | start {s : StepTimes T} {t : T} (env : StepEnv) (hidle : s.txn t = none) :
      Step s (.start t env) ⟨s.cell, Function.update s.txn t (some env)⟩
  | write {s : StepTimes T} {t : T} {env : StepEnv} {c : StepCall} {k : StepKey} {v : DocumentStep}
      (hopen : s.txn t = some env) (hfree : ∀ t' v', (s.cell k).writer = some (t', v') → t' = t)
      (hmeasured : c.Measured)
      (hhit : c.onVersion env k ((s.cell k).visible t) = some (.ok v)) :
      Step s (.write t c k) ⟨s.cell.write t k v, s.txn⟩
  /-- An error ends the transaction. -/
  | raise {s : StepTimes T} {t : T} {env : StepEnv} {c : StepCall} {k : StepKey} {error : DbError}
      (hopen : s.txn t = some env) (hfree : ∀ t' v', (s.cell k).writer = some (t', v') → t' = t)
      (hmeasured : c.Measured)
      (hhit : c.onVersion env k ((s.cell k).visible t) = some (.error error)) :
      Step s (.raise t c k) ⟨s.cell.rollback t, Function.update s.txn t none⟩
  | commit {s : StepTimes T} {t : T} {env : StepEnv} (hopen : s.txn t = some env) :
      Step s (.commit t) ⟨s.cell.commit t, Function.update s.txn t none⟩
  | rollback {s : StepTimes T} {t : T} {env : StepEnv} (hopen : s.txn t = some env) :
      Step s (.rollback t) ⟨s.cell.rollback t, Function.update s.txn t none⟩

/-! ## The times of a row and the condition -/

/-- The times of a completed row. -/
structure Timed (row : DocumentStep) : Prop where
  finished : row.status = .succeeded ∨ row.status = .failed → ∃ started finished,
    row.startedAt = some started ∧ row.finishedAt = some finished ∧ started ≤ finished
  duration : row.status = .succeeded → ∃ started finished d,
    row.startedAt = some started ∧ row.finishedAt = some finished ∧ row.durationMs = some d ∧
      0 ≤ d ∧ d ≤ 2 ^ 31 - 1 ∧ d = ⌊(1000 : ℚ) * (((finished - started : ℤ) : ℚ) / 10 ^ 6)⌋

/-- The times of all rows are right, whether committed or not. -/
def AllTimed (s : StepTimes T) : Prop := ∀ k v, (s.cell k).Version v → Timed v

/-- After the event the times of all rows are right, and `mark_succeeded` has not raised. -/
def TimesRight (e : TimesEvent T) (s' : StepTimes T) : Prop :=
  s'.AllTimed ∧ ∀ t d step ref ms metrics k, e ≠ .raise t (.markSucceeded d step ref ms metrics) k

/-- The event, if it is a completion, is in time. -/
def EventInTime (s : StepTimes T) : TimesEvent T → Prop
  | .write t c k | .raise t c k => ∀ env row started, s.txn t = some env →
      (s.cell k).visible t = some row → row.startedAt = some started → c.InTime env started
  | _ => True

/-! ## What a statement writes -/

section Rows

variable {c : StepCall} {env : StepEnv} {k : StepKey} {row v : DocumentStep} {started : Timestamp}

omit [DecidableEq T]

/-- A running row has been claimed. -/
def Claimed (row : DocumentStep) : Prop := row.status = .running → ∃ started, row.startedAt = some started

theorem floor_elapsed (n : ℤ) : ⌊(1000 : ℚ) * ((n : ℚ) / 10 ^ 6)⌋ = n / 1000 := by
  have hdiv : (1000 : ℚ) * ((n : ℚ) / 10 ^ 6) = (n : ℚ) / ((1000 : ℕ) : ℚ) := by
    push_cast
    ring
  rw [hdiv, Rat.floor_intCast_div_natCast]
  rfl

theorem timed_of_open (h : row.status ≠ .succeeded ∧ row.status ≠ .failed) : Timed row :=
  ⟨fun hdone => (hdone.elim h.1 h.2).elim, fun hdone => (h.1 hdone).elim⟩

theorem durationOf_started (hstarted : row.startedAt = some started) :
    durationOf env none row = some ((env.now - started) / 1000) := by
  rw [durationOf, elapsedMs, hstarted]
  rfl

/-- A row has been claimed at one time. -/
theorem forall_inTime_iff (c : StepCall) (hstarted : row.startedAt = some started) :
    (∀ row' started', some row = some row' → row'.startedAt = some started' → c.InTime env started') ↔
      c.InTime env started := by
  constructor
  · exact fun h => h row started rfl hstarted
  · rintro h _ _ ⟨⟩ hs
    obtain rfl := Option.some.inj (hstarted.symm.trans hs)
    exact h

/-- The row that `mark_succeeded` writes has the right times if and only if it is in time. -/
theorem timed_succeeded_iff {d : UUID} {s : PipelineStep} {ref : Option String}
    {metrics : Option JsonObject} (hstarted : row.startedAt = some started) :
    Timed ((succeededUpdate env d s ref none metrics).set row) ↔
      started ≤ env.now ∧ (env.now - started) / 1000 ≤ 2 ^ 31 - 1 := by
  have hduration : durationOf env none row = _ := durationOf_started hstarted
  constructor
  · intro h
    obtain ⟨started', finished, hs, hf, hle⟩ := h.finished (.inl rfl)
    obtain ⟨-, -, d, -, -, hd, -, hmax, -⟩ := h.duration rfl
    obtain rfl : started = started' := Option.some.inj (hstarted.symm.trans hs)
    obtain rfl : env.now = finished := Option.some.inj hf
    obtain rfl : (env.now - started) / 1000 = d := Option.some.inj (hduration.symm.trans hd)
    exact ⟨hle, hmax⟩
  · rintro ⟨hle, hmax⟩
    refine ⟨fun _ => ⟨started, env.now, hstarted, rfl, hle⟩, fun _ => ?_⟩
    have hnonneg : 0 ≤ (env.now - started) / 1000 :=
      Int.ediv_nonneg (Int.sub_nonneg.2 hle) (by decide)
    exact ⟨started, env.now, _, hstarted, rfl, hduration, hnonneg, hmax, (floor_elapsed _).symm⟩

theorem timed_failed_iff {d : UUID} {s : PipelineStep} {code detail : Option String}
    (hstarted : row.startedAt = some started) :
    Timed ((failedUpdate env d s code detail).set row) ↔ started ≤ env.now := by
  constructor
  · intro h
    obtain ⟨started', finished, hs, hf, hle⟩ := h.finished (.inr rfl)
    obtain rfl : started = started' := Option.some.inj (hstarted.symm.trans hs)
    obtain rfl : env.now = finished := Option.some.inj hf
    exact hle
  · intro hle
    exact ⟨fun _ => ⟨started, env.now, hstarted, rfl, hle⟩, fun hdone => by cases hdone⟩

/-- A statement raises for a missing document, or because the duration does not fit its column. -/
theorem onVersion_eq_error {error : DbError} {version : Option DocumentStep}
    (h : c.onVersion env k version = some (.error error)) :
    (∃ d m, c = .ensureSteps d m) ∨ ∃ d s ref ms metrics row, c = .markSucceeded d s ref ms metrics ∧
      version = some row ∧ atStatus d s .running row ∧ ¬ ∀ n ∈ durationOf env ms row, IsInt4 n := by
  have hrow : ∀ {u : Table.Update DocumentStep.key DbError},
      version.bind (onRow u) = some (.error error) →
        ∃ row, version = some row ∧ u.hits row ∧ u.raises row = some error := by
    intro u hu
    obtain ⟨row, hversion, hraise⟩ := Option.bind_eq_some_iff.1 hu
    refine ⟨row, hversion, ?_⟩
    unfold onRow at hraise
    split_ifs at hraise with hhit
    cases hr : u.raises row with
    | none => simp [hr] at hraise
    | some e =>
      rw [hr, Option.some.injEq, Except.error.injEq] at hraise
      exact ⟨hhit, congrArg some hraise⟩
  cases c with
  | ensureSteps d m => exact .inl ⟨d, m, rfl⟩
  | listSteps => cases h
  | claim =>
    obtain ⟨row, -, -, hraise⟩ := hrow h
    cases hraise
  | markSucceeded d s ref ms metrics =>
    obtain ⟨row, hversion, hhit, hraise⟩ := hrow h
    refine .inr ⟨d, s, ref, ms, metrics, row, rfl, hversion, hhit, fun hrange => ?_⟩
    exact absurd (hraise.symm.trans (if_pos hrange)) (by simp)
  | markFailed =>
    obtain ⟨row, -, -, hraise⟩ := hrow h
    cases hraise
  | resetFrom =>
    obtain ⟨row, -, -, hraise⟩ := hrow h
    cases hraise

/-- A version that is written has the right times if and only if it is written in time. -/
theorem timed_iff_inTime {version : Option DocumentStep} (hmeasured : c.Measured)
    (hclaimed : ∀ row ∈ version, Claimed row) (h : c.onVersion env k version = some (.ok v)) :
    Timed v ↔ ∀ row started, version = some row → row.startedAt = some started →
      c.InTime env started := by
  rcases onVersion_cases h with ⟨d, m, rfl, rfl, -, rfl⟩ | ⟨row, rfl, hcase⟩
  · exact iff_of_true (timed_of_open (by simp [newStep])) (by simp)
  · rcases hcase with ⟨d, s, rfl, hat, rfl⟩ | ⟨d, s, ref, ms, metrics, rfl, hat, rfl⟩ |
      ⟨d, s, code, detail, rfl, hat, rfl⟩ | ⟨d, s, rfl, -, rfl⟩
    · exact iff_of_true (timed_of_open (by simp [claimUpdate])) fun _ _ _ _ => trivial
    · obtain rfl : ms = none := hmeasured
      obtain ⟨started, hstarted⟩ := hclaimed row rfl (atStatus_iff.1 hat).2
      rw [timed_succeeded_iff hstarted]
      exact (forall_inTime_iff (.markSucceeded d s ref none metrics) hstarted).symm
    · obtain ⟨started, hstarted⟩ := hclaimed row rfl (atStatus_iff.1 hat).2
      rw [timed_failed_iff hstarted]
      exact (forall_inTime_iff (.markFailed d s code detail) hstarted).symm
    · exact iff_of_true (timed_of_open (by simp [resetUpdate])) fun _ _ _ _ => trivial

theorem claimed_of_onVersion {version : Option DocumentStep}
    (h : c.onVersion env k version = some (.ok v)) : Claimed v := by
  rcases onVersion_cases h with ⟨d, m, -, -, -, rfl⟩ | ⟨row, -, hcase⟩
  · exact fun hrunning => by cases hrunning
  · rcases hcase with ⟨d, s, -, -, rfl⟩ | ⟨d, s, ref, ms, metrics, -, -, rfl⟩ |
      ⟨d, s, code, detail, -, -, rfl⟩ | ⟨d, s, -, -, rfl⟩
    · exact fun _ => ⟨env.now, rfl⟩
    · exact fun hrunning => by cases hrunning
    · exact fun hrunning => by cases hrunning
    · exact fun hrunning => by cases hrunning

/-- A duration that is not in range has not been computed in time. -/
theorem not_inTime_of_raise {d : UUID} {s : PipelineStep} {ref : Option String}
    {metrics : Option JsonObject} (hstarted : row.startedAt = some started)
    (hraise : ¬ ∀ n ∈ durationOf env none row, IsInt4 n) :
    ¬ (StepCall.markSucceeded d s ref none metrics).InTime env started := by
  rintro ⟨hle, hmax⟩
  apply hraise
  intro n hn
  obtain rfl : (env.now - started) / 1000 = n :=
    Option.some.inj ((durationOf_started hstarted).symm.trans hn)
  have hnonneg : 0 ≤ (env.now - started) / 1000 :=
    Int.ediv_nonneg (Int.sub_nonneg.2 hle) (by decide)
  exact ⟨hnonneg.trans' (by decide), hmax⟩

end Rows

/-! ## One event -/

/-- All running rows have been claimed. -/
def AllClaimed (s : StepTimes T) : Prop := ∀ k v, (s.cell k).Version v → Claimed v

variable {s s' : StepTimes T} {e : TimesEvent T} {tr : List (TimesEvent T)}

theorem claimed_step (h : s.AllClaimed) (hstep : Step s e s') : s'.AllClaimed := by
  cases hstep with
  | start => exact h
  | @write t env c k v hopen hfree hmeasured hhit =>
    intro k' v' hv'
    rcases Store.version_of_write hv' with hold | ⟨rfl, rfl⟩
    · exact h k' v' hold
    · exact claimed_of_onVersion hhit
  | raise | rollback => exact fun k v hv => h k v (Cell.version_of_rollback hv)
  | commit => exact fun k v hv => h k v (Cell.version_of_commit hv)

/-- From a state with the right times an event leads to such a state, and does not raise for its
duration, if and only if it is in time. -/
theorem timed_step (hclaimed : s.AllClaimed) (h : s.AllTimed) (hstep : Step s e s') :
    s.EventInTime e ↔ TimesRight e s' := by
  cases hstep with
  | start => exact iff_of_true trivial ⟨h, by simp⟩
  | commit =>
    exact iff_of_true trivial ⟨fun k v hv => h k v (Cell.version_of_commit hv), by simp⟩
  | rollback =>
    exact iff_of_true trivial ⟨fun k v hv => h k v (Cell.version_of_rollback hv), by simp⟩
  | @write t env c k v hopen hfree hmeasured hhit =>
    have hright : TimesRight (.write t c k) ⟨s.cell.write t k v, s.txn⟩ ↔ Timed v := by
      constructor
      · exact fun hright => hright.1 k v (.inr ⟨t, Store.writer_write t k v s.cell⟩)
      · refine fun hv => ⟨fun k' v' hv' => ?_, by simp⟩
        rcases Store.version_of_write hv' with hold | ⟨rfl, rfl⟩
        · exact h k' v' hold
        · exact hv
    rw [hright, timed_iff_inTime hmeasured
      (fun row hrow => hclaimed k row (Cell.version_of_visible hrow)) hhit]
    constructor
    · exact fun htime row started hrow hs => htime env row started hopen hrow hs
    · intro htime env' row started hopen' hrow hs
      obtain rfl := Option.some.inj (hopen.symm.trans hopen')
      exact htime row started hrow hs
  | @raise t env c k error hopen hfree hmeasured hhit =>
    have hall : AllTimed ⟨s.cell.rollback t, Function.update s.txn t none⟩ :=
      fun k v hv => h k v (Cell.version_of_rollback hv)
    rcases onVersion_eq_error hhit with ⟨d, m, rfl⟩ | ⟨d, step, ref, ms, metrics, row, rfl, hrow, hat, hraise⟩
    · exact iff_of_true (fun _ _ _ _ _ _ => trivial) ⟨hall, by simp⟩
    · obtain rfl : ms = none := hmeasured
      obtain ⟨started, hstarted⟩ :=
        hclaimed k row (Cell.version_of_visible hrow) (atStatus_iff.1 hat).2
      refine iff_of_false (fun htime => ?_) fun hright => hright.2 _ _ _ _ _ _ _ rfl
      exact not_inTime_of_raise hstarted hraise (htime env row started hopen hrow hstarted)

/-! ## One call a transaction -/

/-- A session, seen as rows and open transactions. -/
def ofSessions (s : StepSessions T) : StepTimes T := ⟨s.cell, fun t => (s.txn t).call?.map Prod.fst⟩

theorem ofSessions_update (s : StepSessions T) (cell : Store T StepKey DocumentStep) (t : T)
    (p : StepTxn) : ofSessions ⟨cell, Function.update s.txn t p⟩ =
      ⟨cell, Function.update (ofSessions s).txn t (p.call?.map Prod.fst)⟩ := by
  refine congrArg (StepTimes.mk cell) (funext fun t' => ?_)
  rw [Function.update_apply]
  exact read_update (fun q : StepTxn => q.call?.map Prod.fst) s.txn t p t'

/-- A change of phase that keeps the call is no event of the times. -/
theorem ofSessions_phase {s : StepSessions T} {t : T} {p : StepTxn}
    (hcall : p.call? = (s.txn t).call?) (cell : Store T StepKey DocumentStep) :
    ofSessions ⟨cell, Function.update s.txn t p⟩ = ⟨cell, (ofSessions s).txn⟩ := by
  rw [ofSessions_update, hcall]
  exact congrArg (StepTimes.mk cell) (Function.update_eq_self t _)

/-- A step of the sessions is a step of the times, or leaves the rows and the open transactions. -/
theorem times_step_of_session {s s' : StepSessions T} {e : StepEvent T}
    (hmeasured : ∀ t env c, (s.txn t).call? = some (env, c) → c.Measured)
    (hstep : StepSessions.Step s e s') :
    ofSessions s' = ofSessions s ∨ ∃ e', Step (ofSessions s) e' (ofSessions s') := by
  cases hstep with
  | @start t env c hidle hargs =>
    refine .inr ⟨.start t env, ?_⟩
    rw [ofSessions_update]
    exact .start env (by simp [ofSessions, hidle, StepTxn.call?])
  | skip hactive => exact .inl (ofSessions_phase (by rw [hactive]; rfl) _)
  | finish hactive => exact .inl (ofSessions_phase (by rw [hactive]; rfl) _)
  | @write t env c todo w k v hactive htodo hfree hhit =>
    refine .inr ⟨.write t c k, ?_⟩
    have hcall : (s.txn t).call? = some (env, c) := by rw [hactive]; rfl
    have hvisible : (s.cell k).visible t = (s.cell k).committed := by simp [Cell.visible, hfree]
    have hopen : (ofSessions s).txn t = some env := by simp [ofSessions, hcall]
    rw [ofSessions_phase (by rw [hactive]; rfl)]
    exact .write hopen (by simp [ofSessions, hfree]) (hmeasured t env c hcall) (hvisible.symm ▸ hhit)
  | @commit t env c w hreturned =>
    refine .inr ⟨.commit t, ?_⟩
    have hopen : (ofSessions s).txn t = some env := by simp [ofSessions, hreturned, StepTxn.call?]
    rw [ofSessions_update]
    exact .commit hopen
  | @rollback t env c hopen =>
    refine .inr ⟨.rollback t, ?_⟩
    have hopen' : (ofSessions s).txn t = some env := by simp [ofSessions, hopen]
    rw [ofSessions_update]
    exact .rollback hopen'

/-- Every call that the event starts omits its duration. -/
def StartsMeasured : StepEvent T → Prop
  | .start _ _ c => c.Measured
  | _ => True

theorem measured_session_step {s s' : StepSessions T} {e : StepEvent T}
    (h : ∀ t env c, (s.txn t).call? = some (env, c) → c.Measured) (hstart : StartsMeasured e)
    (hstep : StepSessions.Step s e s') :
    ∀ t env c, (s'.txn t).call? = some (env, c) → c.Measured := by
  have hphase : ∀ (t : T) (p : StepTxn), (∀ env c, p.call? = some (env, c) → c.Measured) →
      ∀ t' env c, (Function.update s.txn t p t').call? = some (env, c) → c.Measured := by
    intro t p hp t' env c hcall
    rw [read_update StepTxn.call?] at hcall
    split_ifs at hcall
    · exact hp env c hcall
    · exact h t' env c hcall
  cases hstep with
  | start => exact hphase _ _ (by rintro _ _ ⟨⟩; exact hstart)
  | skip hactive => exact hphase _ _ (by rintro _ _ ⟨⟩; exact h _ _ _ (by rw [hactive]; rfl))
  | write hactive => exact hphase _ _ (by rintro _ _ ⟨⟩; exact h _ _ _ (by rw [hactive]; rfl))
  | finish hactive => exact hphase _ _ (by rintro _ _ ⟨⟩; exact h _ _ _ (by rw [hactive]; rfl))
  | commit | rollback => exact hphase _ _ (by simp [StepTxn.call?])

/-- The rows of concurrent calls are the rows of a run of the times. -/
theorem exists_times_run {tr : List (StepEvent T)} {s : StepSessions T}
    (h : Run StepSessions.Step StepSessions.init tr s) (hstart : ∀ e ∈ tr, StartsMeasured e) :
    ∃ tr', Run Step init tr' (ofSessions s) := by
  refine (?_ : (∀ t env c, (s.txn t).call? = some (env, c) → c.Measured) ∧ _).2
  refine h.mono_inv (fun s => (∀ t env c, (s.txn t).call? = some (env, c) → c.Measured) ∧
    ∃ tr', Run Step init tr' (ofSessions s)) StartsMeasured
    ⟨by simp [StepSessions.init, StepTxn.call?], [], .nil⟩ ?_ hstart
  rintro s e s' hkind ⟨hmeasured, tr', hrun⟩ hstep
  refine ⟨measured_session_step hmeasured hkind hstep, ?_⟩
  rcases times_step_of_session hmeasured hstep with hsame | ⟨e', he'⟩
  · exact ⟨tr', hsame ▸ hrun⟩
  · exact ⟨tr' ++ [e'], hrun.snoc he'⟩

/-! ## Runs -/

omit [DecidableEq T] in
theorem allTimed_init : (init : StepTimes T).AllTimed := by
  rintro k v (h | ⟨t, h⟩) <;> cases h

omit [DecidableEq T] in
theorem allClaimed_init : (init : StepTimes T).AllClaimed := by
  rintro k v (h | ⟨t, h⟩) <;> cases h

/-- In a run the times of all rows are right after every event, and no `mark_succeeded` raises, if and
only if every completion is in time. -/
theorem step_times_iff (tr : List (TimesEvent T)) (s : StepTimes T) :
    Run (fun s e s' => Step s e s' ∧ s.EventInTime e) init tr s ↔
      Run (fun s e s' => Step s e s' ∧ TimesRight e s') init tr s := by
  refine Run.guard_iff (fun s => s.AllClaimed ∧ s.AllTimed) ⟨allClaimed_init, allTimed_init⟩ ?_
  rintro s e s' ⟨hclaimed, htimed⟩ hstep
  exact ⟨timed_step hclaimed htimed hstep, fun hright => ⟨claimed_step hclaimed hstep, hright.1⟩⟩

/-- The transaction that completes the step starts at `1`, the one that claims it at `2`. -/
theorem claim_overtaken :
    ¬ ∀ (tr : List (TimesEvent Bool)) (s : StepTimes Bool), Run Step init tr s →
      s.AllTimed ∧ ∀ t d step ref ms metrics k,
        .raise t (.markSucceeded d step ref ms metrics) k ∉ tr := by
  intro hclaim
  let env (now : Timestamp) : StepEnv := ⟨now, fun _ => ⟨1⟩, fun _ => true⟩
  let d : UUID := ⟨7⟩
  let k : StepKey := (d, .store)
  let r₁ := newStep (env 0) d 3 .store
  let r₂ := (claimUpdate (env 2) d .store).set r₁
  let r₃ := (succeededUpdate (env 1) d .store none none none).set r₂
  let s₁ : StepTimes Bool := ⟨Store.empty, Function.update (fun _ => none) true (some (env 0))⟩
  let s₂ : StepTimes Bool := ⟨s₁.cell.write true k r₁, s₁.txn⟩
  let s₃ : StepTimes Bool := ⟨s₂.cell.commit true, Function.update s₂.txn true none⟩
  let s₄ : StepTimes Bool := ⟨s₃.cell, Function.update s₃.txn false (some (env 1))⟩
  let s₅ : StepTimes Bool := ⟨s₄.cell, Function.update s₄.txn true (some (env 2))⟩
  let s₆ : StepTimes Bool := ⟨s₅.cell.write true k r₂, s₅.txn⟩
  let s₇ : StepTimes Bool := ⟨s₆.cell.commit true, Function.update s₆.txn true none⟩
  let s₈ : StepTimes Bool := ⟨s₇.cell.write false k r₃, s₇.txn⟩
  have h₁ : Step init (.start true (env 0)) s₁ := .start _ rfl
  have h₂ : Step s₁ (.write true (.ensureSteps d 3) k) s₂ := .write rfl (by rintro _ _ ⟨⟩) trivial rfl
  have h₃ : Step s₂ (.commit true) s₃ := .commit rfl
  have h₄ : Step s₃ (.start false (env 1)) s₄ := .start _ rfl
  have h₅ : Step s₄ (.start true (env 2)) s₅ := .start _ rfl
  have h₆ : Step s₅ (.write true (.claim d .store) k) s₆ := .write rfl (by rintro _ _ ⟨⟩) trivial rfl
  have h₇ : Step s₆ (.commit true) s₇ := .commit rfl
  have h₈ : Step s₇ (.write false (.markSucceeded d .store none none none) k) s₈ :=
    .write rfl (by rintro _ _ ⟨⟩) rfl rfl
  have hrun : Run Step init _ s₈ :=
    .cons h₁ <| .cons h₂ <| .cons h₃ <| .cons h₄ <| .cons h₅ <| .cons h₆ <| .cons h₇ <| .single h₈
  have htimed : Timed r₃ := (hclaim _ _ hrun).1 k r₃ (.inr ⟨false, Store.writer_write false k r₃ s₇.cell⟩)
  exact absurd ((timed_succeeded_iff rfl).1 htimed).1 (by decide)

end StepTimes

end Ipa
