import Ipa.Db.Step.Invariant
import Ipa.Lib.Run

/-!
# The frontier of a document in the pipeline

The orchestrator enqueues a step only when every step before it has succeeded, so a `claim` is issued
only in such states (`EnqueuedCall`).  Each statement of the repository writes one row, or the rows
from one step on, without looking at the others; under the enqueue rule the rows of a document
nevertheless stay in line:

* `frontier_exec`: one call moves the frontier of a document, or leaves it.
* `resultless_exec`: a pending row carries nothing of an earlier attempt.
* `frontier_run`: in every reachable table there is a step with all steps before it succeeded and all
  steps after it pending.
-/

namespace Ipa

open StepRepository

/-- `s` is before `s'` in the pipeline. -/
def PipelineStep.Before (s s' : PipelineStep) : Prop := stepOrder.idxOf s < stepOrder.idxOf s'

instance (s s' : PipelineStep) : Decidable (s.Before s') := inferInstanceAs (Decidable (_ < _))

namespace PipelineStep

theorem Before.trans {s s' s'' : PipelineStep} (h : s.Before s') (h' : s'.Before s'') :
    s.Before s'' :=
  Nat.lt_trans h h'

theorem Before.atOrBefore {s s' : PipelineStep} (h : s.Before s') : s.AtOrBefore s' := Nat.le_of_lt h

theorem Before.not_atOrBefore {s s' : PipelineStep} (h : s.Before s') : ¬ s'.AtOrBefore s :=
  Nat.not_le_of_lt h

theorem before_trichotomy (s s' : PipelineStep) : s.Before s' ∨ s = s' ∨ s'.Before s := by
  rcases Nat.lt_trichotomy (stepOrder.idxOf s) (stepOrder.idxOf s') with h | h | h
  · exact .inl h
  · exact .inr (.inl (AtOrBefore.antisymm (Nat.le_of_eq h) (Nat.le_of_eq h.symm)))
  · exact .inr (.inr h)

theorem not_before_self (s : PipelineStep) : ¬ s.Before s := Nat.lt_irrefl _

theorem not_before_store (s : PipelineStep) : ¬ s.Before .store := Nat.not_lt_zero _

end PipelineStep

/-! ## The enqueue rule -/

/-- The step of the document has succeeded. -/
def StepTable.Succeeded (t : StepTable) (d : UUID) (s : PipelineStep) : Prop :=
  ∃ r, t.lookup (d, s) = some r ∧ r.status = .succeeded

/-- A step is claimed only when the steps before it have succeeded. -/
def StepCall.Enqueued (t : StepTable) : StepCall → Prop
  | .claim d s => ∀ s', s'.Before s → StepTable.Succeeded t d s'
  | _ => True

/-- A call that follows the enqueue rule leads from one table to another. -/
def EnqueuedCall (t : StepTable) (c : StepEnv × StepCall) (t' : StepTable) : Prop :=
  c.2.Enqueued t ∧ t' = (c.2.exec c.1 t).1

/-! ## The frontier -/

/-- Every step of the document has a row, those before `f` have succeeded and those after it are
pending. -/
def FrontierAt (t : StepTable) (d : UUID) (f : PipelineStep) : Prop :=
  ∀ s, ∃ r, t.lookup (d, s) = some r ∧
    (s.Before f → r.status = .succeeded) ∧ (f.Before s → r.status = .pending)

/-- Nothing of an attempt is recorded in the row. -/
def DocumentStep.NoResult (r : DocumentStep) : Prop :=
  r.startedAt = none ∧ r.finishedAt = none ∧ r.durationMs = none ∧ r.errorCode = none ∧
    r.errorDetail = none ∧ r.outputRef = none ∧ r.metrics = []

/-- A pending row records nothing. -/
def DocumentStep.Resultless (r : DocumentStep) : Prop := r.status = .pending → r.NoResult

/-- What a call makes of the row of a step that has one. -/
theorem lookup_exec_cases (c : StepCall) (env : StepEnv) {t : StepTable} {d : UUID}
    {s : PipelineStep} {r : DocumentStep} (h : t.lookup (d, s) = some r) :
    ∃ r', (c.exec env t).1.lookup (d, s) = some r' ∧
      (r' = r ∨
      (c = .claim d s ∧ r.status = .pending ∧ r'.status = .running) ∨
      ((∃ ref ms metrics, c = .markSucceeded d s ref ms metrics) ∧ r.status = .running ∧
        r'.status = .succeeded) ∨
      ((∃ code detail, c = .markFailed d s code detail) ∧ r.status = .running ∧
        r'.status = .failed) ∨
      ∃ s₀, c = .resetFrom d s₀ ∧ s₀.AtOrBefore s ∧ r'.status = .pending ∧ r'.NoResult) := by
  have hkey : r.key = (d, s) := t.key_of_lookup h
  rw [lookup_exec, h]
  rcases rowEffect_cases c env (d, s) (some r) with hsame | ⟨v, hv, heff⟩
  · exact ⟨r, hsame, .inl rfl⟩
  · refine ⟨v, heff, .inr ?_⟩
    rcases onVersion_cases hv with ⟨-, -, -, hnone, -⟩ | ⟨r₀, hr₀, hcase⟩
    · cases hnone
    · obtain rfl := Option.some.inj hr₀
      rcases hcase with ⟨d', s', rfl, hhit, rfl⟩ | ⟨d', s', ref, ms, metrics, rfl, hhit, rfl⟩ |
        ⟨d', s', code, detail, rfl, hhit, rfl⟩ | ⟨d', s', rfl, hhit, rfl⟩
      · obtain ⟨hk, hstatus⟩ := atStatus_iff.1 hhit
        obtain ⟨rfl, rfl⟩ := Prod.ext_iff.1 (hkey.symm.trans hk)
        exact .inl ⟨rfl, hstatus, rfl⟩
      · obtain ⟨hk, hstatus⟩ := atStatus_iff.1 hhit
        obtain ⟨rfl, rfl⟩ := Prod.ext_iff.1 (hkey.symm.trans hk)
        exact .inr (.inl ⟨⟨ref, ms, metrics, rfl⟩, hstatus, rfl⟩)
      · obtain ⟨hk, hstatus⟩ := atStatus_iff.1 hhit
        obtain ⟨rfl, rfl⟩ := Prod.ext_iff.1 (hkey.symm.trans hk)
        exact .inr (.inr (.inl ⟨⟨code, detail, rfl⟩, hstatus, rfl⟩))
      · obtain ⟨hd, hs⟩ := of_decide_eq_true hhit
        obtain ⟨rfl, rfl⟩ := Prod.ext_iff.1 hkey
        have hle : s'.AtOrBefore r.step := mem_stepsFrom_iff.1 hs
        refine .inr (.inr (.inr ⟨s', ?_, hle, rfl, ?_⟩))
        · exact congrArg (StepCall.resetFrom · s') hd.symm
        · exact ⟨rfl, rfl, rfl, rfl, rfl, rfl, rfl⟩

/-- A claim under the enqueue rule starts the step at the frontier, or the one after it. -/
theorem FrontierAt.claim {t : StepTable} {d : UUID} {f s : PipelineStep} (h : FrontierAt t d f)
    (env : StepEnv) (hs : (StepCall.claim d s).Enqueued t) :
    ∃ f', FrontierAt ((StepCall.claim d s).exec env t).1 d f' := by
  by_cases hrow : ∃ r, t.lookup (d, s) = some r ∧ r.status = .pending
  · obtain ⟨r₀, hr₀, hpending⟩ := hrow
    have hfs : f.AtOrBefore s := by
      rcases f.before_trichotomy s with hlt | rfl | hlt
      · exact hlt.atOrBefore
      · exact Nat.le_refl _
      · obtain ⟨r, hr, hbefore, -⟩ := h s
        obtain rfl := Option.some.inj (hr.symm.trans hr₀)
        exact absurd ((hbefore hlt).symm.trans hpending) (by decide)
    refine ⟨s, fun s' => ?_⟩
    obtain ⟨r, hr, -, hafter⟩ := h s'
    obtain ⟨r', hr', hcase⟩ := lookup_exec_cases (.claim d s) env hr
    refine ⟨r', hr', fun hlt => ?_, fun hlt => ?_⟩
    · obtain ⟨r₁, hr₁, hsucc⟩ := hs s' hlt
      obtain rfl := Option.some.inj (hr₁.symm.trans hr)
      rcases hcase with rfl | ⟨-, hbad, -⟩ | ⟨⟨_, _, _, hc⟩, -⟩ | ⟨⟨_, _, hc⟩, -⟩ | ⟨_, hc, -⟩
      · exact hsucc
      · exact absurd (hsucc.symm.trans hbad) (by decide)
      all_goals cases hc
    · rcases hcase with rfl | ⟨hc, -⟩ | ⟨⟨_, _, _, hc⟩, -⟩ | ⟨⟨_, _, hc⟩, -⟩ | ⟨_, hc, -⟩
      · exact hafter (Nat.lt_of_le_of_lt hfs hlt)
      · obtain ⟨-, rfl⟩ := StepCall.claim.inj hc
        exact absurd hlt s.not_before_self
      all_goals cases hc
  · refine ⟨f, fun s' => ?_⟩
    obtain ⟨r, hr, hstatus⟩ := h s'
    obtain ⟨r', hr', hcase⟩ := lookup_exec_cases (.claim d s) env hr
    rcases hcase with rfl | ⟨hc, hpending, -⟩ | ⟨⟨_, _, _, hc⟩, -⟩ | ⟨⟨_, _, hc⟩, -⟩ | ⟨_, hc, -⟩
    · exact ⟨r', hr', hstatus⟩
    · obtain ⟨-, rfl⟩ := StepCall.claim.inj hc
      exact absurd ⟨r, hr, hpending⟩ hrow
    all_goals cases hc

/-- A reset moves the frontier back to its step, or leaves it when it is already before. -/
theorem FrontierAt.resetFrom {t : StepTable} {d : UUID} {f s : PipelineStep} (h : FrontierAt t d f)
    (env : StepEnv) : ∃ f', FrontierAt ((StepCall.resetFrom d s).exec env t).1 d f' := by
  have key : ∀ s', ∃ r', ((StepCall.resetFrom d s).exec env t).1.lookup (d, s') = some r' ∧
      (s.AtOrBefore s' → r'.status = .pending) ∧ (¬ s.AtOrBefore s' → t.lookup (d, s') = some r') := by
    intro s'
    obtain ⟨r, hr, -⟩ := h s'
    have hkey := t.key_of_lookup hr
    refine ⟨(resetUpdate env d s).tryRow r, ?_, fun hle => ?_, fun hle => ?_⟩
    · rw [lookup_exec, hr]
      rfl
    · have hhit : (resetUpdate env d s).hits r = true :=
        decide_eq_true ⟨congrArg Prod.fst hkey, mem_stepsFrom_iff.2 (by
          rwa [show r.step = s' from congrArg Prod.snd hkey])⟩
      unfold Table.Update.tryRow
      rw [if_pos (by rw [hhit]; rfl)]
      rfl
    · have hmiss : (resetUpdate env d s).hits r = false :=
        decide_eq_false fun hhit => hle (by
          rw [← show r.step = s' from congrArg Prod.snd hkey]
          exact mem_stepsFrom_iff.1 hhit.2)
      unfold Table.Update.tryRow
      rw [if_neg (by rw [hmiss]; simp)]
      exact hr
  by_cases hfs : f.Before s
  · refine ⟨f, fun s' => ?_⟩
    obtain ⟨r, hr, hbefore, hafter⟩ := h s'
    obtain ⟨r', hr', hpending, hkept⟩ := key s'
    refine ⟨r', hr', fun hlt => ?_, fun hlt => ?_⟩
    · have hsame := hkept (hlt.trans hfs).not_atOrBefore
      obtain rfl := Option.some.inj (hr.symm.trans hsame)
      exact hbefore hlt
    · by_cases hle : s.AtOrBefore s'
      · exact hpending hle
      · obtain rfl := Option.some.inj (hr.symm.trans (hkept hle))
        exact hafter hlt
  · refine ⟨s, fun s' => ?_⟩
    obtain ⟨r, hr, hbefore, -⟩ := h s'
    obtain ⟨r', hr', hpending, hkept⟩ := key s'
    refine ⟨r', hr', fun hlt => ?_, fun hlt => hpending hlt.atOrBefore⟩
    obtain rfl := Option.some.inj (hr.symm.trans (hkept hlt.not_atOrBefore))
    exact hbefore (Nat.lt_of_lt_of_le hlt (Nat.le_of_not_lt hfs))

/-- A mark acts on the running step, which is the one at the frontier. -/
theorem FrontierAt.of_running {t t' : StepTable} {d : UUID} {f : PipelineStep}
    (h : FrontierAt t d f)
    (hrow : ∀ s r, t.lookup (d, s) = some r →
      ∃ r', t'.lookup (d, s) = some r' ∧ (r' = r ∨ r.status = .running)) : FrontierAt t' d f := by
  intro s
  obtain ⟨r, hr, hbefore, hafter⟩ := h s
  obtain ⟨r', hr', rfl | hrunning⟩ := hrow s r hr
  · exact ⟨r', hr', hbefore, hafter⟩
  · refine ⟨r', hr', fun hlt => ?_, fun hlt => ?_⟩
    · exact absurd (hrunning.symm.trans (hbefore hlt)) (by decide)
    · exact absurd (hrunning.symm.trans (hafter hlt)) (by decide)

/-- One call under the enqueue rule moves the frontier of a document, or leaves it. -/
theorem frontier_exec {t : StepTable} {d : UUID} {f : PipelineStep} (h : FrontierAt t d f)
    (c : StepCall) (env : StepEnv) (hc : c.Enqueued t) : ∃ f', FrontierAt (c.exec env t).1 d f' := by
  by_cases hclaim : ∃ s, c = .claim d s
  · obtain ⟨s, rfl⟩ := hclaim
    exact h.claim env hc
  by_cases hreset : ∃ s, c = .resetFrom d s
  · obtain ⟨s, rfl⟩ := hreset
    exact h.resetFrom env
  refine ⟨f, h.of_running fun s r hr => ?_⟩
  obtain ⟨r', hr', hcase⟩ := lookup_exec_cases c env hr
  refine ⟨r', hr', ?_⟩
  rcases hcase with rfl | ⟨rfl, -⟩ | ⟨-, hrunning, -⟩ | ⟨-, hrunning, -⟩ | ⟨s₀, rfl, -⟩
  · exact .inl rfl
  · exact absurd ⟨s, rfl⟩ hclaim
  · exact .inr hrunning
  · exact .inr hrunning
  · exact absurd ⟨s₀, rfl⟩ hreset

/-- A document without rows stays so, or gets its rows, all pending. -/
theorem rowless_exec {t : StepTable} {d : UUID} (h : ∀ s, t.lookup (d, s) = none) (c : StepCall)
    (env : StepEnv) :
    (∀ s, (c.exec env t).1.lookup (d, s) = none) ∨ FrontierAt (c.exec env t).1 d .store := by
  by_cases hc : ∃ m, c = .ensureSteps d m ∧ IsInt4 m ∧ env.documentExists d
  · obtain ⟨m, rfl, hm, hex⟩ := hc
    refine .inr fun s => ⟨newStep env d m s, ?_, fun hlt => ?_, fun _ => rfl⟩
    · rw [lookup_exec, h]
      exact if_pos ⟨rfl, hm, hex⟩
    · exact absurd hlt s.not_before_store
  · refine .inl fun s => ?_
    rw [lookup_exec, h]
    cases c with
    | ensureSteps d' m =>
      refine if_neg ?_
      rintro ⟨hd, hm, hex⟩
      obtain rfl : d = d' := hd
      exact hc ⟨m, rfl, hm, hex⟩
    | markSucceeded => exact ite_self none
    | _ => rfl

theorem resultless_exec {t : StepTable} (h : ∀ k r, t.lookup k = some r → r.Resultless)
    (c : StepCall) (env : StepEnv) :
    ∀ k r, (c.exec env t).1.lookup k = some r → r.Resultless := by
  rintro ⟨d, s⟩ r' hr' hpending
  cases hr : t.lookup (d, s) with
  | none =>
    rw [lookup_exec, hr] at hr'
    rcases rowEffect_cases c env (d, s) none with hsame | ⟨v, hv, heff⟩
    · cases hsame.symm.trans hr'
    · obtain rfl := Option.some.inj (heff.symm.trans hr')
      rcases onVersion_cases hv with ⟨d', m, -, -, -, rfl⟩ | ⟨r, hnone, -⟩
      · exact ⟨rfl, rfl, rfl, rfl, rfl, rfl, rfl⟩
      · cases hnone
  | some r =>
    obtain ⟨r₁, hr₁, hcase⟩ := lookup_exec_cases c env hr
    obtain rfl := Option.some.inj (hr₁.symm.trans hr')
    rcases hcase with rfl | ⟨-, -, hbad⟩ | ⟨-, -, hbad⟩ | ⟨-, -, hbad⟩ | ⟨-, -, -, -, hnone⟩
    · exact h _ _ hr hpending
    · exact absurd (hbad.symm.trans hpending) (by decide)
    · exact absurd (hbad.symm.trans hpending) (by decide)
    · exact absurd (hbad.symm.trans hpending) (by decide)
    · exact hnone

/-! ## Runs -/

/-- The tables of a run from the empty table keep both invariants. -/
theorem pipeline_run {t : StepTable} {calls : List (StepEnv × StepCall)}
    (h : Transition.Run EnqueuedCall (Table.empty _) calls t) :
    (∀ d, (∀ s, t.lookup (d, s) = none) ∨ ∃ f, FrontierAt t d f) ∧
      ∀ k r, t.lookup k = some r → r.Resultless := by
  refine h.state_inv (fun t => (∀ d, (∀ s, t.lookup (d, s) = none) ∨ ∃ f, FrontierAt t d f) ∧
    ∀ k r, t.lookup k = some r → r.Resultless) ?_ ?_
  · refine ⟨fun d => .inl fun s => rfl, fun k r hr => ?_⟩
    cases hr
  · rintro t ⟨env, c⟩ t' ⟨hline, hnull⟩ ⟨hc, rfl⟩
    refine ⟨fun d => ?_, resultless_exec hnull c env⟩
    rcases hline d with hnone | ⟨f, hf⟩
    · exact (rowless_exec hnone c env).imp id fun h => ⟨_, h⟩
    · exact .inr (frontier_exec hf c env hc)

/-- In every table reached under the enqueue rule, each document with rows has a frontier: a step
with all steps before it succeeded and all steps after it pending and without any result.  So at most
one step of a document is running or failed, and a step that is not pending or has a result has all
steps before it succeeded. -/
theorem frontier_run {t : StepTable} {calls : List (StepEnv × StepCall)}
    (h : Transition.Run EnqueuedCall (Table.empty _) calls t) {d : UUID} {s₀ : PipelineStep}
    {r₀ : DocumentStep} (hd : t.lookup (d, s₀) = some r₀) :
    (∃ f, ∀ s, ∃ r, t.lookup (d, s) = some r ∧ (s.Before f → r.status = .succeeded) ∧
      (f.Before s → r.status = .pending ∧ r.NoResult)) ∧
    (∀ s s' r r', t.lookup (d, s) = some r → t.lookup (d, s') = some r' →
      r.status = .running ∨ r.status = .failed → r'.status = .running ∨ r'.status = .failed →
      s = s') ∧
    (∀ s r, t.lookup (d, s) = some r → r.status ≠ .pending ∨ ¬ r.NoResult →
      ∀ s', s'.Before s → StepTable.Succeeded t d s') := by
  obtain ⟨hline, hnull⟩ := pipeline_run h
  obtain ⟨f, hf⟩ := (hline d).resolve_left fun hnone => by cases (hnone s₀).symm.trans hd
  have hat : ∀ s r, t.lookup (d, s) = some r →
      (s.Before f → r.status = .succeeded) ∧ (f.Before s → r.status = .pending) := by
    intro s r hr
    obtain ⟨r', hr', hstatus⟩ := hf s
    obtain rfl := Option.some.inj (hr.symm.trans hr')
    exact hstatus
  have hbusy : ∀ s r, t.lookup (d, s) = some r → r.status = .running ∨ r.status = .failed → s = f := by
    intro s r hr hstatus
    obtain ⟨hbefore, hafter⟩ := hat s r hr
    rcases s.before_trichotomy f with hlt | heq | hlt
    · rw [hbefore hlt] at hstatus
      simp at hstatus
    · exact heq
    · rw [hafter hlt] at hstatus
      simp at hstatus
  refine ⟨⟨f, fun s => ?_⟩, fun s s' r r' hr hr' hb hb' => ?_, fun s r hr hbegun s' hlt => ?_⟩
  · obtain ⟨r, hr, hbefore, hafter⟩ := hf s
    exact ⟨r, hr, hbefore, fun hlt => ⟨hafter hlt, hnull _ _ hr (hafter hlt)⟩⟩
  · exact (hbusy s r hr hb).trans (hbusy s' r' hr' hb').symm
  · have hpending : r.status ≠ .pending := hbegun.elim id fun hres hp => hres (hnull _ _ hr hp)
    have hsf : ¬ f.Before s := fun hfs => hpending ((hat s r hr).2 hfs)
    obtain ⟨r', hr', hbefore, -⟩ := hf s'
    exact ⟨r', hr', hbefore (Nat.lt_of_lt_of_le hlt (Nat.le_of_not_lt hsf))⟩

/-- The calls of a list, each issued by the enqueue rule, are a run. -/
theorem run_execAll_snoc {calls : List (StepEnv × StepCall)} {c : StepEnv × StepCall}
    {t : StepTable} (h : Transition.Run EnqueuedCall t calls (execAll t calls))
    (hc : c.2.Enqueued (execAll t calls)) :
    Transition.Run EnqueuedCall t (calls ++ [c]) (execAll t (calls ++ [c])) := by
  have hexec : execAll t (calls ++ [c]) = (c.2.exec c.1 (execAll t calls)).1 := by
    rw [execAll, List.foldl_append]
    rfl
  have hstep : EnqueuedCall (execAll t calls) c (execAll t (calls ++ [c])) := ⟨hc, hexec⟩
  exact h.snoc hstep

/-- The frontier when the second step has been claimed. -/
theorem frontier_run_decompose :
    let env : StepEnv := ⟨0, fun s => ⟨(stepOrder.idxOf s : BitVec 128)⟩, fun _ => true⟩
    let calls : List (StepEnv × StepCall) := [(env, .ensureSteps ⟨7⟩ 3), (env, .claim ⟨7⟩ .store),
      (env, .markSucceeded ⟨7⟩ .store none none none), (env, .claim ⟨7⟩ .decompose)]
    ∃ f, ∀ s, ∃ r, (execAll (Table.empty _) calls).lookup (⟨7⟩, s) = some r ∧
      (s.Before f → r.status = .succeeded) ∧ (f.Before s → r.status = .pending ∧ r.NoResult) := by
  intro env calls
  have h₁ := run_execAll_snoc (c := (env, .ensureSteps ⟨7⟩ 3)) (t := Table.empty _) .nil trivial
  have h₂ := run_execAll_snoc (c := (env, .claim ⟨7⟩ .store)) h₁
    fun s hs => absurd hs s.not_before_store
  have h₃ := run_execAll_snoc (c := (env, .markSucceeded ⟨7⟩ .store none none none)) h₂ trivial
  have hstore : ((execAll (Table.empty _) (calls.take 3)).lookup (⟨7⟩, .store)).map
      (fun r => r.status) = some .succeeded := by decide +kernel
  have h₄ := run_execAll_snoc (c := (env, .claim ⟨7⟩ .decompose)) h₃ fun s hs => by
    obtain rfl : s = .store := by cases s <;> first | rfl | exact absurd hs (by decide)
    exact Option.map_eq_some_iff.1 hstore
  have hrow : ((execAll (Table.empty _) calls).lookup (⟨7⟩, .store)).isSome := by decide +kernel
  obtain ⟨r, hr⟩ := Option.isSome_iff_exists.1 hrow
  exact (frontier_run h₄ hr).1

end Ipa
