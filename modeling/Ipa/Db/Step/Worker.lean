import Ipa.Db.Step.RowEffect
import Ipa.Lib.Run
import Mathlib.Data.List.Induction
import Mathlib.Logic.Function.Basic

/-!
# Workers

Any number of workers, each of which claims one step and, if it wins, finishes it once, with resets
and the creation of rows at any moment (`Workers.Step`).  Only the status of the row tells a worker
that its run has been reset: nothing in a mark says which claim it belongs to.

* `row_step`: what an event does to one row.
* `marks_by_winner`: a mark that takes effect finishes the run of the most recent winner, and its
  issuer is that winner or has been reset before that winner claimed.
* `stale_mark_takes_effect`: the second case happens.
-/

namespace Ipa

open StepRepository Transition

/-- How a worker finishes its step. -/
inductive StepOutcome
  | succeeded (outputRef : Option String) (durationMs : Option ℤ) (metrics : Option JsonObject)
  | failed (errorCode errorDetail : Option String)

/-- The call that finishes the step of `k`. -/
def StepOutcome.call (k : StepKey) : StepOutcome → StepCall
  | succeeded ref ms metrics => .markSucceeded k.1 k.2 ref ms metrics
  | failed code detail => .markFailed k.1 k.2 code detail

/-- Where a worker stands: it has not claimed yet, it has won a step, or it is done. -/
inductive WorkerPhase
  | idle
  | won (k : StepKey)
  | done

/-- The table and the workers. -/
structure Workers (W : Type*) where
  table : StepTable
  phase : W → WorkerPhase

/-- What workers and the others do, with the answers of the calls. -/
inductive WorkerEvent (W : Type*)
  | claim (w : W) (env : StepEnv) (k : StepKey) (answer : Except DbError StepReply)
  | mark (w : W) (env : StepEnv) (k : StepKey) (outcome : StepOutcome)
      (answer : Except DbError StepReply)
  | ensure (env : StepEnv) (documentId : UUID) (maxAttempts : ℤ)
  | reset (env : StepEnv) (documentId : UUID) (step : PipelineStep)

namespace WorkerEvent

variable {W : Type*}

/-- The event is a claim by `w` that returns the row with key `k`. -/
def WonBy (k : StepKey) (w : W) (e : WorkerEvent W) : Prop :=
  ∃ env row, e = .claim w env k (.ok (.step (some row)))

/-- The event is a winning claim of `k`. -/
def Wins (k : StepKey) (e : WorkerEvent W) : Prop := ∃ w, e.WonBy k w

/-- The event is a mark that returns the row with key `k`. -/
def Finishes (k : StepKey) (e : WorkerEvent W) : Prop :=
  ∃ w env outcome row, e = .mark w env k outcome (.ok (.step (some row)))

/-- The event resets the row with key `k`. -/
def Resets (k : StepKey) (e : WorkerEvent W) : Prop :=
  ∃ env d s, e = .reset env d s ∧ k.1 = d ∧ k.2 ∈ stepsFrom s

end WorkerEvent

namespace Workers

variable {W : Type*}

/-- No rows, and no worker has claimed. -/
def init : Workers W := ⟨Table.empty _, fun _ => .idle⟩

/-- The phase of a worker after the answer to its claim. -/
def afterClaim (k : StepKey) : Except DbError StepReply → WorkerPhase
  | .ok (.step (some _)) => .won k
  | _ => .done

variable [DecidableEq W]

/-- A worker claims or marks, or someone else creates or resets the rows of a document. -/
inductive Step : Workers W → WorkerEvent W → Workers W → Prop
  | claim {s : Workers W} {w : W} (env : StepEnv) (k : StepKey) (hidle : s.phase w = .idle) :
      Step s (.claim w env k ((StepCall.claim k.1 k.2).exec env s.table).2)
        ⟨((StepCall.claim k.1 k.2).exec env s.table).1, Function.update s.phase w
          (afterClaim k ((StepCall.claim k.1 k.2).exec env s.table).2)⟩
  | mark {s : Workers W} {w : W} {k : StepKey} (env : StepEnv) (outcome : StepOutcome)
      (hwon : s.phase w = .won k) :
      Step s (.mark w env k outcome ((outcome.call k).exec env s.table).2)
        ⟨((outcome.call k).exec env s.table).1, Function.update s.phase w .done⟩
  | ensure {s : Workers W} (env : StepEnv) (d : UUID) (m : ℤ) :
      Step s (.ensure env d m) ⟨((StepCall.ensureSteps d m).exec env s.table).1, s.phase⟩
  | reset {s : Workers W} (env : StepEnv) (d : UUID) (p : PipelineStep) :
      Step s (.reset env d p) ⟨((StepCall.resetFrom d p).exec env s.table).1, s.phase⟩

/-! ## What a call does to the status of one row -/

section Calls

variable {env : StepEnv} {k : StepKey} {row : Option DocumentStep} {v : DocumentStep}

theorem status_of_claim (h : (StepCall.claim k.1 k.2).onVersion env k row = some (.ok v)) :
    row.map DocumentStep.status = some .pending ∧ v.status = .running := by
  obtain ⟨r, rfl, hhit, rfl⟩ := onRow_eq_ok h
  exact ⟨congrArg some (atStatus_iff.1 hhit).2, rfl⟩

theorem status_of_mark {outcome : StepOutcome}
    (h : (outcome.call k).onVersion env k row = some (.ok v)) :
    row.map DocumentStep.status = some .running ∧ (v.status = .succeeded ∨ v.status = .failed) := by
  cases outcome with
  | succeeded ref ms metrics =>
    obtain ⟨r, rfl, hhit, rfl⟩ := onRow_eq_ok h
    exact ⟨congrArg some (atStatus_iff.1 hhit).2, .inl rfl⟩
  | failed code detail =>
    obtain ⟨r, rfl, hhit, rfl⟩ := onRow_eq_ok h
    exact ⟨congrArg some (atStatus_iff.1 hhit).2, .inr rfl⟩

theorem lookup_ensure (d : UUID) (m : ℤ) (t : StepTable) :
    ((StepCall.ensureSteps d m).exec env t).1.lookup k = t.lookup k ∨ t.lookup k = none ∧
      (((StepCall.ensureSteps d m).exec env t).1.lookup k).map DocumentStep.status =
        some .pending := by
  rw [lookup_exec]
  cases t.lookup k with
  | some r => exact .inl rfl
  | none =>
    rw [StepCall.rowEffect]
    split_ifs
    · exact .inr ⟨rfl, rfl⟩
    · exact .inl rfl

theorem lookup_reset {d : UUID} {p : PipelineStep} {t : StepTable}
    (hk : k.1 = d ∧ k.2 ∈ stepsFrom p) :
    let row' := ((StepCall.resetFrom d p).exec env t).1.lookup k
    row' = none ∨ row'.map DocumentStep.status = some .pending := by
  intro row'
  show row' = none ∨ _
  have hrow' : row' = (StepCall.resetFrom d p).rowEffect env k (t.lookup k) := lookup_exec _ _ _ _
  cases hr : t.lookup k with
  | none =>
    rw [hr] at hrow'
    exact .inl hrow'
  | some r =>
    obtain rfl := t.key_of_lookup hr
    have hhit : (resetUpdate env d p).hits r = true := decide_eq_true hk
    rw [hrow', hr, StepCall.rowEffect, Option.map_some, Table.Update.tryRow, hhit]
    exact .inr rfl

end Calls

/-! ## What an event does to one row -/

/-- The status of the row with key `k`. -/
def status (k : StepKey) (s : Workers W) : Option StepStatus :=
  (s.table.lookup k).map DocumentStep.status

omit [DecidableEq W] in
theorem status_of_lookup {s s' : Workers W} {k : StepKey}
    (h : s'.table.lookup k = s.table.lookup k) : s'.status k = s.status k :=
  congrArg (Option.map DocumentStep.status) h

/-- The event neither claims, finishes nor resets the row with key `k`. -/
def Quiet (k : StepKey) (e : WorkerEvent W) : Prop := ¬ e.Wins k ∧ ¬ e.Finishes k ∧ ¬ e.Resets k

section Quiet

omit [DecidableEq W]

variable {env : StepEnv} {k k' : StepKey} {w : W} {answer : Except DbError StepReply}

theorem quiet_claim (h : k' = k → ∀ v, answer ≠ .ok (.step (some v))) :
    Quiet k (.claim w env k' answer) := by
  refine ⟨?_, ?_, ?_⟩
  · rintro ⟨_, _, v, heq⟩
    obtain ⟨-, -, hk, hanswer⟩ := WorkerEvent.claim.inj heq
    exact h hk v hanswer
  · rintro ⟨_, _, _, _, heq⟩
    cases heq
  · rintro ⟨_, _, _, heq, -⟩
    cases heq

theorem quiet_mark {outcome : StepOutcome} (h : k' = k → ∀ v, answer ≠ .ok (.step (some v))) :
    Quiet k (.mark w env k' outcome answer) := by
  refine ⟨?_, ?_, ?_⟩
  · rintro ⟨_, _, _, heq⟩
    cases heq
  · rintro ⟨_, _, _, v, heq⟩
    obtain ⟨-, -, hk, -, hanswer⟩ := WorkerEvent.mark.inj heq
    exact h hk v hanswer
  · rintro ⟨_, _, _, heq, -⟩
    cases heq

theorem quiet_ensure (d : UUID) (m : ℤ) : Quiet k (.ensure env d m : WorkerEvent W) := by
  refine ⟨?_, ?_, ?_⟩
  · rintro ⟨_, _, _, heq⟩
    cases heq
  · rintro ⟨_, _, _, _, heq⟩
    cases heq
  · rintro ⟨_, _, _, heq, -⟩
    cases heq

theorem quiet_reset {d : UUID} {p : PipelineStep} (h : ¬ (k.1 = d ∧ k.2 ∈ stepsFrom p)) :
    Quiet k (.reset env d p : WorkerEvent W) := by
  refine ⟨?_, ?_, ?_⟩
  · rintro ⟨_, _, _, heq⟩
    cases heq
  · rintro ⟨_, _, _, _, heq⟩
    cases heq
  · rintro ⟨_, _, _, heq, hmem⟩
    obtain ⟨-, rfl, rfl⟩ := WorkerEvent.reset.inj heq
    exact h hmem

end Quiet

/-- What an event does to the status of one row. -/
theorem row_step {s s' : Workers W} {e : WorkerEvent W} (he : Step s e s') (k : StepKey) :
    (e.Wins k ∧ s.status k = some .pending ∧ s'.status k = some .running) ∨
    (e.Finishes k ∧ s.status k = some .running ∧
      (s'.status k = some .succeeded ∨ s'.status k = some .failed)) ∨
    (e.Resets k ∧ (s'.status k = none ∨ s'.status k = some .pending)) ∨
    (Quiet k e ∧ (s'.status k = s.status k ∨ s.status k = none ∧ s'.status k = some .pending)) := by
  cases he with
  | @claim w env k' hidle =>
    have hkey : (StepCall.claim k'.1 k'.2).stepKey? = some k' := rfl
    by_cases hk : k = k'
    · subst hk
      rcases exec_single hkey env s.table with ⟨v, hanswer, hv, hnew⟩ | ⟨hanswer, hsame⟩
      · obtain ⟨hpending, hrunning⟩ := status_of_claim hv
        refine .inl ⟨⟨w, env, v, by rw [hanswer]⟩, hpending, ?_⟩
        rw [status, hnew, Option.map_some, hrunning]
      · exact .inr (.inr (.inr ⟨quiet_claim fun _ => hanswer, .inl (status_of_lookup hsame)⟩))
    · refine .inr (.inr (.inr ⟨quiet_claim fun h => absurd h.symm hk, .inl (status_of_lookup ?_)⟩))
      exact lookup_exec_of_ne hkey hk env s.table
  | @mark w k' env outcome hwon =>
    have hkey : (outcome.call k').stepKey? = some k' := by cases outcome <;> rfl
    by_cases hk : k = k'
    · subst hk
      rcases exec_single hkey env s.table with ⟨v, hanswer, hv, hnew⟩ | ⟨hanswer, hsame⟩
      · obtain ⟨hrunning, hdone⟩ := status_of_mark hv
        refine .inr (.inl ⟨⟨w, env, outcome, v, by rw [hanswer]⟩, hrunning, ?_⟩)
        rw [status, hnew, Option.map_some, Option.some_inj, Option.some_inj]
        exact hdone
      · exact .inr (.inr (.inr ⟨quiet_mark fun _ => hanswer, .inl (status_of_lookup hsame)⟩))
    · refine .inr (.inr (.inr ⟨quiet_mark fun h => absurd h.symm hk, .inl (status_of_lookup ?_)⟩))
      exact lookup_exec_of_ne hkey hk env s.table
  | ensure env d m =>
    refine .inr (.inr (.inr ⟨quiet_ensure d m, ?_⟩))
    rcases lookup_ensure (k := k) d m s.table with hsame | ⟨hnone, hnew⟩
    · exact .inl (status_of_lookup hsame)
    · exact .inr ⟨congrArg _ hnone, hnew⟩
  | reset env d p =>
    by_cases hk : k.1 = d ∧ k.2 ∈ stepsFrom p
    · refine .inr (.inr (.inl ⟨⟨env, d, p, rfl, hk⟩, ?_⟩))
      exact (lookup_reset hk).imp_left (congrArg (Option.map DocumentStep.status))
    · have hsame := lookup_resetFrom_of_notMem env s.table hk
      exact .inr (.inr (.inr ⟨quiet_reset hk, .inl (status_of_lookup hsame)⟩))

/-! ## Whose run it is -/

variable {s s' : Workers W} {tr pre post : List (WorkerEvent W)} {k : StepKey} {w : W}

/-- A running row was won by some worker, and nothing has happened to it since. -/
theorem running_won (h : Run Step init tr s) (hk : s.status k = some .running) :
    ∃ a e b w, tr = a ++ e :: b ∧ e.WonBy k w ∧ ∀ e' ∈ b, Quiet k e' := by
  refine h.rec_inv (fun tr s => s.status k = some .running →
    ∃ a e b w, tr = a ++ e :: b ∧ e.WonBy k w ∧ ∀ e' ∈ b, Quiet k e') ?_ ?_ hk
  · intro hk
    cases hk
  · intro tr s e s' _ ih he hk
    rcases row_step he k with ⟨⟨w, hwon⟩, -, -⟩ | ⟨-, -, hdone⟩ | ⟨-, hreset⟩ | ⟨hquiet, hsame⟩
    · exact ⟨tr, e, [], w, rfl, hwon, by simp⟩
    · rw [hk] at hdone
      rcases hdone with hdone | hdone <;> cases hdone
    · rw [hk] at hreset
      rcases hreset with hreset | hreset <;> cases hreset
    · rcases hsame with hsame | ⟨-, hnew⟩
      · obtain ⟨a, e₁, b, w, rfl, hwon, hb⟩ := ih (hsame ▸ hk)
        refine ⟨a, e₁, b ++ [e], w, by simp, hwon, ?_⟩
        intro e' he'
        rcases List.mem_append.1 he' with he' | he'
        · exact hb e' he'
        · exact List.mem_singleton.1 he' ▸ hquiet
      · rw [hk] at hnew
        cases hnew

/-- A worker that is about to finish a step has won it. -/
theorem phase_won (h : Run Step init tr s) (hw : s.phase w = .won k) :
    ∃ a e b, tr = a ++ e :: b ∧ e.WonBy k w := by
  refine h.rec_inv (fun tr s => s.phase w = .won k → ∃ a e b, tr = a ++ e :: b ∧ e.WonBy k w)
    ?_ ?_ hw
  · intro hw
    cases hw
  · intro tr s e s' _ ih he hw
    have hold : s.phase w = .won k → ∃ a e₁ b, tr ++ [e] = a ++ e₁ :: b ∧ e₁.WonBy k w := by
      intro hw
      obtain ⟨a, e₁, b, rfl, hwon⟩ := ih hw
      exact ⟨a, e₁, b ++ [e], by simp, hwon⟩
    cases he with
    | ensure | reset => exact hold hw
    | @mark w' _ _ _ _ =>
      by_cases hww : w = w'
      · subst hww
        simp only [Function.update_self, reduceCtorEq] at hw
      · simp only [Function.update_of_ne hww] at hw
        exact hold hw
    | @claim w' env k' _ =>
      by_cases hww : w = w'
      · subst hww
        simp only [Function.update_self, afterClaim] at hw
        split at hw
        · rename_i row hanswer
          obtain rfl := WorkerPhase.won.inj hw
          exact ⟨tr, _, [], rfl, env, row, by rw [hanswer]⟩
        · cases hw
      · simp only [Function.update_of_ne hww] at hw
        exact hold hw

/-- A step that has been claimed cannot be claimed until it is reset. -/
theorem not_pending_run (h : Run Step s tr s') (hr : ∀ e ∈ tr, ¬ e.Resets k)
    (hk : s.status k ≠ none ∧ s.status k ≠ some .pending) :
    s'.status k ≠ none ∧ s'.status k ≠ some .pending := by
  refine h.mono_inv (fun s => s.status k ≠ none ∧ s.status k ≠ some .pending)
    (fun e => ¬ e.Resets k) hk ?_ hr
  intro s e s' hreset hk he
  rcases row_step he k with ⟨-, -, h'⟩ | ⟨-, -, h' | h'⟩ | ⟨hr, -⟩ | ⟨-, h' | ⟨h', -⟩⟩
  · rw [h']
    decide
  · rw [h']
    decide
  · rw [h']
    decide
  · exact absurd hr hreset
  · rwa [h']
  · exact absurd h' hk.1

theorem phase_of_mark {env : StepEnv} {outcome : StepOutcome} {answer : Except DbError StepReply}
    (h : Step s (.mark w env k outcome answer) s') : s.phase w = .won k := by
  cases h with
  | mark _ _ hwon => exact hwon

omit [DecidableEq W] in
theorem wonBy_unique {e : WorkerEvent W} {w w' : W} (h : e.WonBy k w) (h' : e.WonBy k w') :
    w = w' := by
  obtain ⟨env, row, rfl⟩ := h
  obtain ⟨env', row', heq⟩ := h'
  exact (WorkerEvent.claim.inj heq).1

/-- Of two winning claims of one row the row has been reset between them. -/
theorem reset_between {a a₂ : List (WorkerEvent W)} {e e₁ : WorkerEvent W} {w w₁ : W}
    (h : Run Step init (a ++ e :: a₂ ++ [e₁]) s) (he : e.WonBy k w) (he₁ : e₁.WonBy k w₁) :
    ∃ e' ∈ a₂, e'.Resets k := by
  by_contra hnone
  obtain ⟨m₃, h, hstep₁⟩ := Run.snoc_iff.1 h
  obtain ⟨m₁, -, h⟩ := Run.append_iff.1 h
  obtain ⟨m₂, hstep, hrun⟩ := Run.cons_iff.1 h
  have hwins : ∀ {m m' : Workers W} {e : WorkerEvent W} {w : W}, Step m e m' → e.WonBy k w →
      m.status k = some .pending ∧ m'.status k = some .running := by
    intro m m' e w hstep hwon
    rcases row_step hstep k with ⟨-, h⟩ | ⟨⟨_, _, _, _, rfl⟩, -⟩ | ⟨⟨_, _, _, rfl, -⟩, -⟩ | ⟨hquiet, -⟩
    · exact h
    · obtain ⟨_, _, h⟩ := hwon
      cases h
    · obtain ⟨_, _, h⟩ := hwon
      cases h
    · exact absurd ⟨w, hwon⟩ hquiet.1
  have hrunning : m₂.status k = some .running := (hwins hstep he).2
  refine (not_pending_run hrun (fun e' he' hr => hnone ⟨e', he', hr⟩) ?_).2 (hwins hstep₁ he₁).1
  rw [hrunning]
  decide

/-! ## Enabled events -/

section Enabled

variable (env : StepEnv) {row : Option DocumentStep} {r v : DocumentStep}

theorem exists_ensure {m : ℤ} (hm : IsInt4 m) (hex : env.documentExists k.1)
    (hrow : s.table.lookup k = none) : ∃ s', Step s (.ensure env k.1 m) s' ∧
      s'.table.lookup k = some (newStep env k.1 m k.2) ∧ s'.phase = s.phase := by
  refine ⟨_, .ensure env k.1 m, ?_, rfl⟩
  show ((StepCall.ensureSteps k.1 m).exec env s.table).1.lookup k = _
  rw [lookup_exec, hrow]
  exact if_pos ⟨rfl, hm, hex⟩

theorem exists_reset (hrow : s.table.lookup k = some r) : ∃ s', Step s (.reset env k.1 k.2) s' ∧
    s'.table.lookup k = some ((resetUpdate env k.1 k.2).set r) ∧ s'.phase = s.phase := by
  refine ⟨_, .reset env k.1 k.2, ?_, rfl⟩
  show ((StepCall.resetFrom k.1 k.2).exec env s.table).1.lookup k = _
  obtain rfl := s.table.key_of_lookup hrow
  have hhit : (resetUpdate env r.key.1 r.key.2).hits r = true :=
    decide_eq_true ⟨rfl, mem_stepsFrom_iff.2 (Nat.le_refl _)⟩
  rw [lookup_exec, hrow, StepCall.rowEffect, Option.map_some, Table.Update.tryRow, hhit]
  rfl

/-- A worker that finds its row pending wins it. -/
theorem exists_claim (hidle : s.phase w = .idle) (hrow : s.table.lookup k = row)
    (hv : (StepCall.claim k.1 k.2).onVersion env k row = some (.ok v)) :
    ∃ s', Step s (.claim w env k (.ok (.step (some v)))) s' ∧ s'.table.lookup k = some v ∧
      s'.phase = Function.update s.phase w (.won k) := by
  have hargs : (StepCall.claim k.1 k.2).ArgsInRange := trivial
  obtain ⟨hanswer, hlookup⟩ := exec_of_onVersion (k := k) rfl hargs (hrow.symm ▸ hv)
  have hstep := Step.claim env k hidle
  rw [hanswer] at hstep
  exact ⟨_, hstep, hlookup, rfl⟩

/-- A worker that finds its row running finishes it. -/
theorem exists_mark {outcome : StepOutcome} (hargs : (outcome.call k).ArgsInRange)
    (hwon : s.phase w = .won k) (hrow : s.table.lookup k = row)
    (hv : (outcome.call k).onVersion env k row = some (.ok v)) :
    ∃ s', Step s (.mark w env k outcome (.ok (.step (some v)))) s' ∧ s'.table.lookup k = some v := by
  have hkey : (outcome.call k).stepKey? = some k := by cases outcome <;> rfl
  obtain ⟨hanswer, hlookup⟩ := exec_of_onVersion hkey hargs (hrow.symm ▸ hv)
  have hstep := Step.mark env outcome hwon
  rw [hanswer] at hstep
  exact ⟨_, hstep, hlookup⟩

end Enabled

end Workers

/-- The last winning claim of `k` among the events is one by `w`. -/
def LatestWinner {W : Type*} (k : StepKey) (tr : List (WorkerEvent W)) (w : W) : Prop :=
  ∃ a e b, tr = a ++ e :: b ∧ e.WonBy k w ∧ ∀ e' ∈ b, ¬ e'.Wins k

/-- A mark that takes effect finishes the run of the latest winner, which nothing has finished or
reset since.  Its issuer is this winner, or a worker that won before and whose run was reset before
this winner claimed. -/
theorem marks_by_winner {W : Type*} [DecidableEq W] {pre post : List (WorkerEvent W)} {s : Workers W}
    {w : W} {env : StepEnv} {k : StepKey} {outcome : StepOutcome} {row : DocumentStep}
    (h : Run Workers.Step Workers.init
      (pre ++ .mark w env k outcome (.ok (.step (some row))) :: post) s) :
    ∃ a e b w₁, pre = a ++ e :: b ∧ e.WonBy k w₁ ∧ (∀ e' ∈ b, Workers.Quiet k e') ∧
      (w = w₁ ∨ ∃ a₁ e' a₂, a = a₁ ++ e' :: a₂ ∧ e'.WonBy k w ∧ ∃ r ∈ a₂, r.Resets k) := by
  obtain ⟨m, hpre, hrest⟩ := Run.append_iff.1 h
  obtain ⟨m', hmark, -⟩ := Run.cons_iff.1 hrest
  have hphase : m.phase w = .won k := Workers.phase_of_mark hmark
  have hrunning : m.status k = some .running := by
    rcases Workers.row_step hmark k with ⟨⟨_, _, _, hw⟩, -⟩ | ⟨-, hk, -⟩ | ⟨⟨_, _, _, hr, -⟩, -⟩ |
      ⟨hquiet, -⟩
    · cases hw
    · exact hk
    · cases hr
    · exact absurd ⟨w, env, outcome, row, rfl⟩ hquiet.2.1
  obtain ⟨a, e, b, w₁, rfl, hwon₁, hb⟩ := Workers.running_won hpre hrunning
  obtain ⟨a₁, e', a₂, hsplit, hwon⟩ := Workers.phase_won hpre hphase
  refine ⟨a, e, b, w₁, rfl, hwon₁, hb, ?_⟩
  rcases List.append_eq_append_iff.1 hsplit with ⟨c, rfl, hc⟩ | ⟨c, rfl, hc⟩
  · cases c with
    | nil =>
      obtain ⟨rfl, -⟩ := List.cons.inj hc
      exact .inl (Workers.wonBy_unique hwon hwon₁)
    | cons x c =>
      obtain ⟨-, rfl⟩ := List.cons.inj hc
      exact absurd ⟨w, hwon⟩ (hb e' (by simp)).1
  · cases c with
    | nil =>
      obtain ⟨rfl, -⟩ := List.cons.inj hc
      exact .inl (Workers.wonBy_unique hwon hwon₁)
    | cons x c =>
      obtain ⟨rfl, -⟩ := List.cons.inj hc
      refine .inr ⟨a₁, e', c, rfl, hwon, ?_⟩
      obtain ⟨m₂, hrun, -⟩ := Run.append_iff.1
        (show Run Workers.Step Workers.init ((a₁ ++ e' :: c ++ [e]) ++ b) m by simpa using hpre)
      exact Workers.reset_between hrun hwon hwon₁

/-- Worker 0 claims the step, the step is reset, worker 1 claims it, and worker 0 marks it. -/
theorem exists_stale_run :
    let env : StepEnv := ⟨0, fun s => ⟨(stepOrder.idxOf s : BitVec 128)⟩, fun _ => true⟩
    let k : StepKey := (⟨7⟩, .store)
    let claimed := (claimUpdate env k.1 k.2).set (newStep env k.1 1 k.2)
    let stale := (succeededUpdate env k.1 k.2 (some "stale") none none).set claimed
    let pre : List (WorkerEvent ℕ) := [.ensure env k.1 1, .claim 0 env k (.ok (.step (some claimed))),
      .reset env k.1 k.2, .claim 1 env k (.ok (.step (some claimed)))]
    ∃ s, Run Workers.Step Workers.init (pre ++
      [.mark 0 env k (.succeeded (some "stale") none none) (.ok (.step (some stale)))]) s ∧
        s.table.lookup k = some stale := by
  intro env k claimed stale pre
  have hargs : ((StepOutcome.succeeded (some "stale") none none).call k).ArgsInRange := by
    simp [StepOutcome.call, StepCall.ArgsInRange]
  obtain ⟨s₁, h₁, hrow₁, hphase₁⟩ := Workers.exists_ensure (W := ℕ) (s := Workers.init) (k := k) env
    (m := 1) (by decide) rfl rfl
  obtain ⟨s₂, h₂, hrow₂, hphase₂⟩ := Workers.exists_claim (w := 0) (v := claimed) env
    (by rw [hphase₁]; rfl) hrow₁ rfl
  obtain ⟨s₃, h₃, hrow₃, hphase₃⟩ := Workers.exists_reset env hrow₂
  obtain ⟨s₄, h₄, hrow₄, hphase₄⟩ := Workers.exists_claim (w := 1) (v := claimed) env
    (by rw [hphase₃, hphase₂, hphase₁]; rfl) hrow₃ rfl
  obtain ⟨s₅, h₅, hrow₅⟩ := Workers.exists_mark (w := 0) (v := stale) env hargs
    (by rw [hphase₄, hphase₃, hphase₂]; rfl) hrow₄ rfl
  exact ⟨s₅, .cons h₁ <| .cons h₂ <| .cons h₃ <| .cons h₄ <| .single h₅, hrow₅⟩

/-- Worker 0 claims the step, the step is reset, worker 1 claims it, and worker 0 finishes the run of
worker 1 with its own output. -/
theorem stale_mark_takes_effect :
    let env : StepEnv := ⟨0, fun s => ⟨(stepOrder.idxOf s : BitVec 128)⟩, fun _ => true⟩
    let k : StepKey := (⟨7⟩, .store)
    let claimed := (claimUpdate env k.1 k.2).set (newStep env k.1 1 k.2)
    let stale := (succeededUpdate env k.1 k.2 (some "stale") none none).set claimed
    let pre : List (WorkerEvent ℕ) := [.ensure env k.1 1, .claim 0 env k (.ok (.step (some claimed))),
      .reset env k.1 k.2, .claim 1 env k (.ok (.step (some claimed)))]
    let mark : WorkerEvent ℕ :=
      .mark 0 env k (.succeeded (some "stale") none none) (.ok (.step (some stale)))
    (∃ s, Run Workers.Step Workers.init (pre ++ [mark]) s ∧ s.table.lookup k = some stale ∧
      stale.outputRef = some "stale") ∧
    LatestWinner k pre 1 ∧ ¬ LatestWinner k pre 0 := by
  intro env k claimed stale pre mark
  have hlast : pre = [.ensure env k.1 1, .claim 0 env k (.ok (.step (some claimed))),
      .reset env k.1 k.2] ++ .claim 1 env k (.ok (.step (some claimed))) :: [] := rfl
  refine ⟨?_, ?_, ?_⟩
  · obtain ⟨s, hrun, hrow⟩ := exists_stale_run
    exact ⟨s, hrun, hrow, rfl⟩
  · exact ⟨_, _, [], hlast, ⟨env, claimed, rfl⟩, by simp⟩
  · rintro ⟨a, e, b, hpre, ⟨env', row, rfl⟩, hb⟩
    rcases List.eq_nil_or_concat' b with rfl | ⟨b, e', rfl⟩
    · obtain ⟨-, h⟩ := List.append_inj' (hlast.symm.trans hpre) rfl
      cases h
    · rw [hlast, ← List.cons_append, ← List.append_assoc] at hpre
      obtain ⟨-, h⟩ := List.append_inj' hpre rfl
      obtain rfl := List.singleton_inj.1 h
      exact hb _ (by simp) ⟨1, env, claimed, rfl⟩

/-- The mark of the first worker finishes the run of the second one. -/
theorem marks_by_winner_two_workers :
    let env : StepEnv := ⟨0, fun s => ⟨(stepOrder.idxOf s : BitVec 128)⟩, fun _ => true⟩
    let k : StepKey := (⟨7⟩, .store)
    let claimed := (claimUpdate env k.1 k.2).set (newStep env k.1 1 k.2)
    let pre : List (WorkerEvent ℕ) := [.ensure env k.1 1, .claim 0 env k (.ok (.step (some claimed))),
      .reset env k.1 k.2, .claim 1 env k (.ok (.step (some claimed)))]
    ∃ a e b w₁, pre = a ++ e :: b ∧ e.WonBy k w₁ ∧ (∀ e' ∈ b, Workers.Quiet k e') ∧
      (0 = w₁ ∨ ∃ a₁ e' a₂, a = a₁ ++ e' :: a₂ ∧ e'.WonBy k 0 ∧ ∃ r ∈ a₂, r.Resets k) := by
  intro env k claimed pre
  obtain ⟨s, hrun, -⟩ := exists_stale_run
  exact marks_by_winner hrun

end Ipa
