import Ipa.Db.Step.Ensure
import Mathlib.Data.List.Induction

/-!
# Reprocessing erases history

After `resetFrom d s` the rows of `d` from `s` on behave like rows that `ensureSteps` has just
inserted.  Two tables are similar (`StepTable.Sim`) when their rows agree up to the columns that no
call reads: the identifier, the retry budget and the two bookkeeping times.  Every call keeps tables
similar and answers alike on them (`sim_exec`, `observe_exec`), a table after a reset is similar to
the one with the rows deleted and created again (`sim_recreated`), and so no continuation tells the
two apart.
-/

namespace Ipa

open StepRepository

/-! ## Similar rows and observations -/

/-- The row without the columns that no call reads. -/
def DocumentStep.forget (r : DocumentStep) : DocumentStep :=
  { r with id := ⟨0⟩, maxAttempts := 0, createdAt := 0, updatedAt := 0 }

/-- The row as a caller compares it: without its identifier, its retry budget and the values of its
times, of which only whether they are set is kept. -/
def DocumentStep.observe (r : DocumentStep) : DocumentStep :=
  { r.forget with
    startedAt := r.startedAt.map fun _ => 0
    finishedAt := r.finishedAt.map fun _ => 0 }

/-- The answer of a call as its caller compares it. -/
def StepReply.observe : StepReply → StepReply
  | .steps rows => .steps (rows.map DocumentStep.observe)
  | .step row => .step (row.map DocumentStep.observe)

theorem DocumentStep.observe_forget (r : DocumentStep) : r.forget.observe = r.observe := rfl

theorem observe_congr {row row' : Option DocumentStep}
    (h : row.map DocumentStep.forget = row'.map DocumentStep.forget) :
    row.map DocumentStep.observe = row'.map DocumentStep.observe := by
  have key : ∀ o : Option DocumentStep,
      o.map DocumentStep.observe = (o.map DocumentStep.forget).map DocumentStep.observe := by
    intro o
    rw [Option.map_map]
    rfl
  rw [key, key row', h]

/-- An update whose effect on a row does not depend on the forgotten columns. -/
structure Blind (u : Table.Update DocumentStep.key DbError) : Prop where
  hits : ∀ r, u.hits r.forget = u.hits r
  raises : ∀ r, u.raises r.forget = u.raises r
  set : ∀ r, (u.set r.forget).forget = (u.set r).forget

namespace Blind

variable {u : Table.Update DocumentStep.key DbError}

theorem forget_tryRow (hu : Blind u) (r : DocumentStep) :
    (u.tryRow r).forget = (u.tryRow r.forget).forget := by
  unfold Table.Update.tryRow
  rw [hu.hits, hu.raises]
  split_ifs
  · exact (hu.set r).symm
  · rfl

theorem map_tryRow (hu : Blind u) {row row' : Option DocumentStep}
    (h : row.map DocumentStep.forget = row'.map DocumentStep.forget) :
    (row.map u.tryRow).map DocumentStep.forget = (row'.map u.tryRow).map DocumentStep.forget := by
  have key : ∀ o : Option DocumentStep, (o.map u.tryRow).map DocumentStep.forget =
      (o.map DocumentStep.forget).map fun r => (u.tryRow r).forget := by
    intro o
    rw [Option.map_map, Option.map_map]
    exact congrArg (Option.map · o) (funext hu.forget_tryRow)
  rw [key, key row', h]

theorem observe_tryOne (hu : Blind u) {row row' : Option DocumentStep}
    (h : row.map DocumentStep.forget = row'.map DocumentStep.forget) :
    (tryOne u row).map (Option.map DocumentStep.observe) =
      (tryOne u row').map (Option.map DocumentStep.observe) := by
  have key : ∀ o : Option DocumentStep, (tryOne u o).map (Option.map DocumentStep.observe) =
      (tryOne u (o.map DocumentStep.forget)).map (Option.map DocumentStep.observe) := by
    intro o
    cases o with
    | none => rfl
    | some r =>
      simp only [tryOne, Option.map_some, hu.hits, hu.raises]
      split_ifs
      · cases u.raises r with
        | some e => rfl
        | none =>
          have hset := congrArg DocumentStep.observe (hu.set r)
          rw [DocumentStep.observe_forget, DocumentStep.observe_forget] at hset
          simp only [Except.map, Option.map_some, hset]
      · rfl
  rw [key, key row', h]

end Blind

section Updates

variable (env : StepEnv) (d : UUID) (s : PipelineStep)

theorem blind_claimUpdate : Blind (claimUpdate env d s) :=
  ⟨fun _ => rfl, fun _ => rfl, fun _ => rfl⟩

theorem blind_succeededUpdate (ref : Option String) (ms : Option ℤ) (metrics : Option JsonObject) :
    Blind (succeededUpdate env d s ref ms metrics) :=
  ⟨fun _ => rfl, fun _ => rfl, fun _ => rfl⟩

theorem blind_failedUpdate (code detail : Option String) :
    Blind (failedUpdate env d s code detail) :=
  ⟨fun _ => rfl, fun _ => rfl, fun _ => rfl⟩

theorem blind_resetUpdate : Blind (resetUpdate env d s) :=
  ⟨fun _ => rfl, fun _ => rfl, fun _ => rfl⟩

end Updates

theorem forget_rowEffect (c : StepCall) (env : StepEnv) (k : StepKey)
    {row row' : Option DocumentStep}
    (h : row.map DocumentStep.forget = row'.map DocumentStep.forget) :
    (c.rowEffect env k row).map DocumentStep.forget =
      (c.rowEffect env k row').map DocumentStep.forget := by
  cases c with
  | ensureSteps d m =>
    cases row <;> cases row' <;> simp only [Option.map_none, Option.map_some, reduceCtorEq] at h
    · rfl
    · exact congrArg some (Option.some.inj h)
  | listSteps d => exact h
  | claim d s => exact (blind_claimUpdate env d s).map_tryRow h
  | markSucceeded d s ref ms metrics =>
    simp only [StepCall.rowEffect]
    split_ifs
    · exact (blind_succeededUpdate env d s ref ms metrics).map_tryRow h
    · exact h
  | markFailed d s code detail => exact (blind_failedUpdate env d s code detail).map_tryRow h
  | resetFrom d s => exact (blind_resetUpdate env d s).map_tryRow h

/-! ## Similar tables -/

/-- The tables agree row by row up to the forgotten columns. -/
def StepTable.Sim (t t' : StepTable) : Prop :=
  ∀ k, (t.lookup k).map DocumentStep.forget = (t'.lookup k).map DocumentStep.forget

theorem sim_exec {t t' : StepTable} (h : StepTable.Sim t t') (c : StepCall) (env : StepEnv) :
    StepTable.Sim (c.exec env t).1 (c.exec env t').1 := by
  intro k
  rw [lookup_exec, lookup_exec]
  exact forget_rowEffect c env k (h k)

theorem observe_stepRows {row row' : StepKey → Option DocumentStep}
    (h : ∀ k, (row k).map DocumentStep.forget = (row' k).map DocumentStep.forget) (d : UUID) :
    (stepRows row d).map DocumentStep.observe = (stepRows row' d).map DocumentStep.observe := by
  rw [stepRows, stepRows, List.map_filterMap, List.map_filterMap]
  exact congrArg (List.filterMap · stepOrder) (funext fun s => observe_congr (h (d, s)))

theorem observe_step {x y : Except DbError (Option DocumentStep)}
    (h : x.map (Option.map DocumentStep.observe) = y.map (Option.map DocumentStep.observe)) :
    (x.map StepReply.step).map StepReply.observe = (y.map StepReply.step).map StepReply.observe := by
  cases x <;> cases y <;> simp_all [Except.map, StepReply.observe]

/-- A call answers alike on rows that agree up to the forgotten columns. -/
theorem observe_reply (c : StepCall) (env : StepEnv) {row row' : StepKey → Option DocumentStep}
    (h : ∀ k, (row k).map DocumentStep.forget = (row' k).map DocumentStep.forget) :
    (c.reply env row).map StepReply.observe = (c.reply env row').map StepReply.observe := by
  have hsteps : ∀ (f : StepKey → Option DocumentStep → Option DocumentStep) (d : UUID),
      (∀ k, (f k (row k)).map DocumentStep.forget = (f k (row' k)).map DocumentStep.forget) →
      (Except.ok (.steps (stepRows (fun k => f k (row k)) d)) : Except DbError StepReply).map
          StepReply.observe =
        (Except.ok (.steps (stepRows (fun k => f k (row' k)) d)) : Except DbError StepReply).map
          StepReply.observe :=
    fun f d hf => congrArg (fun l => Except.ok (StepReply.steps l)) (observe_stepRows hf d)
  cases c with
  | ensureSteps d m =>
    have hmissing : (stepOrder.filter fun s => (row (d, s)).isNone) =
        stepOrder.filter fun s => (row' (d, s)).isNone := by
      refine congrArg (List.filter · stepOrder) (funext fun s => ?_)
      simpa using congrArg Option.isNone (h (d, s))
    simp only [StepCall.reply, hmissing]
    split_ifs
    · rfl
    · exact hsteps _ d fun k => forget_rowEffect (.ensureSteps d m) env k (h k)
    · rfl
  | listSteps d => exact hsteps (fun _ o => o) d h
  | claim d s => exact observe_step ((blind_claimUpdate env d s).observe_tryOne (h (d, s)))
  | markSucceeded d s ref ms metrics =>
    simp only [StepCall.reply]
    split_ifs
    · exact observe_step
        ((blind_succeededUpdate env d s ref ms metrics).observe_tryOne (h (d, s)))
    · rfl
  | markFailed d s code detail =>
    exact observe_step ((blind_failedUpdate env d s code detail).observe_tryOne (h (d, s)))
  | resetFrom d s => exact hsteps _ d fun k => (blind_resetUpdate env d s).map_tryRow (h k)

/-- A call answers alike on similar tables. -/
theorem observe_exec {t t' : StepTable} (h : StepTable.Sim t t') (c : StepCall) (env : StepEnv) :
    (c.exec env t).2.map StepReply.observe = (c.exec env t').2.map StepReply.observe := by
  rw [exec_snd, exec_snd]
  exact observe_reply c env h

/-- The answers of calls run one after another. -/
def replies : StepTable → List (StepEnv × StepCall) → List (Except DbError StepReply)
  | _, [] => []
  | t, c :: calls => (c.2.exec c.1 t).2 :: replies (c.2.exec c.1 t).1 calls

theorem observe_replies {t t' : StepTable} (h : StepTable.Sim t t')
    (calls : List (StepEnv × StepCall)) :
    (replies t calls).map (Except.map StepReply.observe) =
      (replies t' calls).map (Except.map StepReply.observe) := by
  induction calls generalizing t t' with
  | nil => rfl
  | cons c calls ih =>
    rw [replies, replies, List.map_cons, List.map_cons, observe_exec h c.2 c.1,
      ih (sim_exec h c.2 c.1)]

/-! ## Resetting and creating again -/

/-- The key belongs to document `d` at or after step `s`. -/
def FromStep (d : UUID) (s : PipelineStep) (k : StepKey) : Prop := k.1 = d ∧ s.AtOrBefore k.2

instance (d : UUID) (s : PipelineStep) (k : StepKey) : Decidable (FromStep d s k) :=
  inferInstanceAs (Decidable (_ ∧ _))

/-- The table without the rows of `d` at or after `s`. -/
def deleteFrom (d : UUID) (s : PipelineStep) (t : StepTable) : StepTable :=
  t.filter fun r => ¬ FromStep d s r.key

/-- `t'` is `t` with the rows of `d` at or after `s` deleted and created again by `ensureSteps`;
where there are none, nothing is deleted and nothing is created. -/
def Recreated (env : StepEnv) (d : UUID) (s : PipelineStep) (maxAttempts : ℤ)
    (t t' : StepTable) : Prop :=
  if ∃ r ∈ t.rows, FromStep d s r.key then
    ∃ rows, ensureSteps env d maxAttempts (deleteFrom d s t) = (t', .ok rows)
  else t' = t

theorem lookup_deleteFrom (d : UUID) (s : PipelineStep) (t : StepTable) (k : StepKey) :
    (deleteFrom d s t).lookup k = if FromStep d s k then none else t.lookup k := by
  rw [deleteFrom, Table.lookup_filter]
  cases hk : t.lookup k with
  | none => simp
  | some r => simp [Option.filter_some, t.key_of_lookup hk]

theorem tryRow_resetUpdate (env : StepEnv) (d : UUID) (s : PipelineStep) (r : DocumentStep) :
    (resetUpdate env d s).tryRow r =
      if FromStep d s r.key then (resetUpdate env d s).set r else r := by
  simp only [Table.Update.tryRow, resetUpdate, mem_stepsFrom_iff, Option.isNone_none, Bool.and_true,
    decide_eq_true_eq]
  rfl

/-- A reset leaves every row before its step and every other document as they were. -/
theorem lookup_resetFrom_of_not (env : StepEnv) {d : UUID} {s : PipelineStep} (t : StepTable)
    {k : StepKey} (hk : ¬ FromStep d s k) : (resetFrom env d s t).1.lookup k = t.lookup k :=
  lookup_resetFrom_of_notMem env t fun hmem => hk ⟨hmem.1, mem_stepsFrom_iff.1 hmem.2⟩

/-- A reset row is a new row up to the forgotten columns. -/
theorem forget_set_resetUpdate (env env' : StepEnv) (d : UUID) (s : PipelineStep) (m : ℤ)
    (r : DocumentStep) :
    ((resetUpdate env d s).set r).forget = (newStep env' r.documentId m r.step).forget := rfl

/-- Every document has rows for all steps or for none. -/
def StepTable.Complete (t : StepTable) : Prop :=
  ∀ d s s', (t.lookup (d, s)).isSome = (t.lookup (d, s')).isSome

theorem isSome_rowEffect (c : StepCall) (env : StepEnv) (d : UUID) (s s' : PipelineStep)
    {row row' : Option DocumentStep} (h : row.isSome = row'.isSome) :
    (c.rowEffect env (d, s) row).isSome = (c.rowEffect env (d, s') row').isSome := by
  cases row <;> cases row' <;> simp only [Option.isSome_none, Option.isSome_some,
    reduceCtorEq] at h
  · cases c
    case ensureSteps =>
      simp only [StepCall.rowEffect]
      split_ifs <;> rfl
    all_goals rfl
  · rw [isSome_rowEffect_of_isSome c env (d, s) rfl, isSome_rowEffect_of_isSome c env (d, s') rfl]

theorem complete_execAll {t : StepTable} (h : t.Complete) (calls : List (StepEnv × StepCall)) :
    StepTable.Complete (execAll t calls) := by
  induction calls generalizing t with
  | nil => exact h
  | cons c calls ih =>
    refine ih fun d s s' => ?_
    rw [lookup_exec, lookup_exec]
    exact isSome_rowEffect c.2 c.1 d s s' (h d s s')

theorem StepTable.Complete.filled {t : StepTable} (ht : t.Complete) {r : DocumentStep}
    (hr : r ∈ t.rows) : t.Filled r.documentId := by
  intro s
  rw [ht r.documentId s r.step]
  exact Option.isSome_iff_exists.2 ⟨r, t.lookup_key hr⟩

/-- Row by row, deleting and creating again is a reset, for a document that has all its rows. -/
theorem forget_recreated {t : StepTable} {env env' : StepEnv} {d : UUID} {s : PipelineStep} {m : ℤ}
    (hfilled : t.Filled d) (hok : IsInt4 m ∧ env'.documentExists d) (k : StepKey) :
    ((resetFrom env d s t).1.lookup k).map DocumentStep.forget =
      ((StepCall.ensureSteps d m).rowEffect env' k ((deleteFrom d s t).lookup k)).map
        DocumentStep.forget := by
  rw [lookup_deleteFrom]
  by_cases hk : FromStep d s k
  · obtain ⟨hd, hs⟩ := hk
    obtain ⟨r, hr⟩ := Option.isSome_iff_exists.1 (hfilled k.2)
    rw [← hd] at hr
    have hkey : r.key = k := t.key_of_lookup hr
    rw [if_pos ⟨hd, hs⟩, lookup_resetFrom, hr, Option.map_some, tryRow_resetUpdate,
      if_pos (hkey ▸ ⟨hd, hs⟩)]
    simp only [StepCall.rowEffect, if_pos (And.intro hd hok), Option.map_some]
    rw [forget_set_resetUpdate env env' d s m r, ← hd, ← hkey]
    rfl
  · rw [lookup_resetFrom_of_not env t hk, if_neg hk]
    cases hr : t.lookup k with
    | some r => rfl
    | none =>
      have hd : k.1 ≠ d := by
        rintro rfl
        have hsome := hfilled k.2
        rw [hr] at hsome
        cases hsome
      simp [StepCall.rowEffect, hd]

/-- The table after a reset is similar to the one whose rows were deleted and created again. -/
theorem sim_recreated {t t' : StepTable} (ht : t.Complete) (env : StepEnv) {env' : StepEnv}
    {d : UUID} {s : PipelineStep} {m : ℤ} (h : Recreated env' d s m t t') :
    StepTable.Sim (resetFrom env d s t).1 t' := by
  intro k
  unfold Recreated at h
  split_ifs at h with hrow
  · obtain ⟨rows, hens⟩ := h
    have hlookup : t'.lookup k =
        (StepCall.ensureSteps d m).rowEffect env' k ((deleteFrom d s t).lookup k) := by
      rw [← lookup_ensureSteps, hens]
    obtain ⟨r, hr, rfl, -⟩ := hrow
    have hmissing : (deleteFrom r.documentId s t).lookup (r.documentId, s) = none := by
      rw [lookup_deleteFrom, if_pos ⟨rfl, Nat.le_refl _⟩]
    rw [hlookup]
    exact forget_recreated (ht.filled hr) (exists_of_ensureSteps hens hmissing) k
  · subst h
    congr 1
    by_cases hk : FromStep d s k
    · have hnone : t'.lookup k = none := by
        rw [Table.lookup_eq_none_iff]
        rintro r hr rfl
        exact hrow ⟨r, hr, hk⟩
      rw [lookup_resetFrom, hnone]
      rfl
    · exact lookup_resetFrom_of_not env t' hk

/-! ## The claim behind a row in progress -/

/-- The call resets the row with key `k`. -/
def StepCall.Resets (k : StepKey) : StepCall → Prop
  | .resetFrom d s => FromStep d s k
  | _ => False

theorem not_running {d : UUID} {s : PipelineStep} {r : DocumentStep} (h : r.status = .pending) :
    atStatus d s .running r = false := by
  simp [atStatus, h]

/-- A row that is not pending after a call either was claimed by it or was not pending before and
is not reset by it. -/
theorem status_ne_pending_exec (c : StepCall) (env : StepEnv) (t : StepTable) {k : StepKey}
    {r : DocumentStep} (hr : (c.exec env t).1.lookup k = some r) (hs : r.status ≠ .pending) :
    (c = .claim k.1 k.2 ∧ (c.exec env t).2 = .ok (.step (some r))) ∨
      (¬ c.Resets k ∧ ∃ r₀, t.lookup k = some r₀ ∧ r₀.status ≠ .pending) := by
  rw [lookup_exec] at hr
  rcases hk : t.lookup k with _ | r₀
  · rw [hk] at hr
    cases c <;> simp only [StepCall.rowEffect, Option.map_none, ite_self, reduceCtorEq] at hr
    case ensureSteps d m =>
      split_ifs at hr
      exact absurd (congrArg DocumentStep.status (Option.some.inj hr)).symm hs
  · have hkey : r₀.key = k := t.key_of_lookup hk
    rw [hk] at hr
    cases c <;> simp only [StepCall.rowEffect, Option.map_some] at hr
    case ensureSteps d m =>
      obtain rfl := Option.some.inj hr
      exact .inr ⟨id, r₀, rfl, hs⟩
    case listSteps d =>
      obtain rfl := Option.some.inj hr
      exact .inr ⟨id, r₀, rfl, hs⟩
    case claim d s =>
      by_cases hhit : (claimUpdate env d s).hits r₀
      · left
        obtain ⟨hkey', -⟩ := atStatus_iff.1 hhit
        obtain rfl : (d, s) = k := hkey'.symm.trans hkey
        refine ⟨rfl, ?_⟩
        rw [exec_snd, StepCall.reply, hk, tryOne, if_pos hhit, ← hr, Table.Update.tryRow, hhit]
        rfl
      · right
        rw [Table.Update.tryRow_of_not_hits _ (Bool.eq_false_of_not_eq_true hhit)] at hr
        obtain rfl := Option.some.inj hr
        exact ⟨id, r₀, rfl, hs⟩
    case markSucceeded d s ref ms metrics =>
      right
      refine ⟨id, r₀, rfl, fun hpending => hs ?_⟩
      rw [Table.Update.tryRow_of_not_hits _ (not_running hpending), ite_self] at hr
      obtain rfl := Option.some.inj hr
      exact hpending
    case markFailed d s code detail =>
      right
      refine ⟨id, r₀, rfl, fun hpending => hs ?_⟩
      rw [Table.Update.tryRow_of_not_hits _ (not_running hpending)] at hr
      obtain rfl := Option.some.inj hr
      exact hpending
    case resetFrom d s =>
      right
      rw [tryRow_resetUpdate, hkey] at hr
      by_cases hfrom : FromStep d s k
      · rw [if_pos hfrom] at hr
        exact absurd (congrArg DocumentStep.status (Option.some.inj hr)).symm hs
      · rw [if_neg hfrom] at hr
        obtain rfl := Option.some.inj hr
        exact ⟨hfrom, r₀, rfl, hs⟩

theorem execAll_append_singleton (t : StepTable) (calls : List (StepEnv × StepCall))
    (c : StepEnv × StepCall) :
    execAll t (calls ++ [c]) = (c.2.exec c.1 (execAll t calls)).1 := by
  simp [execAll]

/-- A row in progress or finished was claimed after the last reset that covers it. -/
theorem claimed_since_reset (calls : List (StepEnv × StepCall)) {k : StepKey} {r : DocumentStep}
    (hr : (execAll (Table.empty _) calls).lookup k = some r) (hs : r.status ≠ .pending) :
    ∃ pre env post row, calls = pre ++ (env, .claim k.1 k.2) :: post ∧
      ((StepCall.claim k.1 k.2).exec env (execAll (Table.empty _) pre)).2 = .ok (.step (some row)) ∧
      ∀ c ∈ post, ¬ c.2.Resets k := by
  induction calls using List.reverseRecOn generalizing r with
  | nil => cases hr
  | append_singleton calls c ih =>
    rw [execAll_append_singleton] at hr
    obtain ⟨hc, hclaim⟩ | ⟨hreset, r₀, hr₀, hs₀⟩ := status_ne_pending_exec c.2 c.1 _ hr hs
    · refine ⟨calls, c.1, [], r, ?_, hc ▸ hclaim, by simp⟩
      rw [← hc]
    · obtain ⟨pre, env, post, row, rfl, hclaim, hpost⟩ := ih hr₀ hs₀
      refine ⟨pre, env, post ++ [c], row, by simp, hclaim, ?_⟩
      intro c' hc'
      rcases List.mem_append.1 hc' with hc' | hc'
      · exact hpost c' hc'
      · obtain rfl := List.mem_singleton.1 hc'
        exact hreset

/-- After any calls: a reset of `d` from `s` leaves every other row as it was, and the rows it
resets are told apart from rows created anew by no later calls; and every row in progress or
finished was claimed after the last reset that covers it. -/
theorem resetFrom_erases_history (calls : List (StepEnv × StepCall)) :
    let t := execAll (Table.empty _) calls
    (∀ (env : StepEnv) (d : UUID) (s : PipelineStep),
      (∀ (env' : StepEnv) (m : ℤ) (t' : StepTable), Recreated env' d s m t t' →
        ∀ later, (replies (resetFrom env d s t).1 later).map (Except.map StepReply.observe) =
          (replies t' later).map (Except.map StepReply.observe)) ∧
      ∀ k, ¬ FromStep d s k → (resetFrom env d s t).1.lookup k = t.lookup k) ∧
    ∀ r ∈ t.rows, r.status = .running ∨ r.status = .succeeded ∨ r.status = .failed →
      ∃ pre env post row, calls = pre ++ (env, .claim r.documentId r.step) :: post ∧
        ((StepCall.claim r.documentId r.step).exec env (execAll (Table.empty _) pre)).2 =
          .ok (.step (some row)) ∧
        ∀ c ∈ post, ¬ c.2.Resets r.key := by
  intro t
  have hcomplete : t.Complete := complete_execAll (fun _ _ _ => rfl) calls
  refine ⟨fun env d s => ⟨fun env' m t' h later => ?_, fun k hk => ?_⟩, fun r hr hs => ?_⟩
  · exact observe_replies (sim_recreated hcomplete env h) later
  · exact lookup_resetFrom_of_not env t hk
  · have hne : r.status ≠ .pending := by
      rcases hs with h | h | h <;> rw [h] <;> decide
    exact claimed_since_reset calls (t.lookup_key hr) hne

/-- `ensureSteps` succeeds for a document that exists. -/
theorem ensureSteps_eq_ok {env : StepEnv} {d : UUID} {m : ℤ} (hm : IsInt4 m)
    (hd : env.documentExists d) (t : StepTable) :
    ∃ rows, ensureSteps env d m t = ((ensureSteps env d m t).1, .ok rows) := by
  rw [ensureSteps_of_exists hm hd]
  exact ⟨_, rfl⟩

/-- A document whose first step has failed, reset and recreated. -/
theorem resetFrom_erases_history_failed_store :
    let env : StepEnv := ⟨0, fun s => ⟨(stepOrder.idxOf s : BitVec 128)⟩, fun _ => true⟩
    let t := execAll (Table.empty _)
      [(env, .ensureSteps ⟨7⟩ 3), (env, .claim ⟨7⟩ .store), (env, .markFailed ⟨7⟩ .store none none)]
    Recreated env ⟨7⟩ .store 5 t (ensureSteps env ⟨7⟩ 5 (deleteFrom ⟨7⟩ .store t)).1 ∧
    ∀ later, (replies (resetFrom env ⟨7⟩ .store t).1 later).map (Except.map StepReply.observe) =
      (replies (ensureSteps env ⟨7⟩ 5 (deleteFrom ⟨7⟩ .store t)).1 later).map
        (Except.map StepReply.observe) := by
  intro env t
  have h : Recreated env ⟨7⟩ .store 5 t (ensureSteps env ⟨7⟩ 5 (deleteFrom ⟨7⟩ .store t)).1 := by
    rw [Recreated, if_pos ⟨_, List.mem_cons_self, by decide⟩]
    exact ensureSteps_eq_ok (by decide) rfl _
  have hreset := resetFrom_erases_history
    [(env, .ensureSteps ⟨7⟩ 3), (env, .claim ⟨7⟩ .store), (env, .markFailed ⟨7⟩ .store none none)]
  constructor
  · assumption
  · apply (hreset.1 env ⟨7⟩ .store).1 env 5
    assumption

end Ipa
