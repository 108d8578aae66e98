import Ipa.Db.Step.Model

/-!
# What a call does to one row

`StepCall.rowEffect` is the abstract step machine: a partial function from keys to rows, in which a
call acts on the row of each key by itself, and `StepCall.reply` gives the answer of a call from the
rows it reads.  The table refines this machine (`lookup_exec`, `exec_snd`), so that everything about
one `(document, step)` is proved on its row alone, whatever the order of the rows in the table.
-/

namespace Ipa

open StepRepository

/-! ## Listing in step order -/

/-- The rows of a document, read key by key. -/
def stepRows (row : StepKey → Option DocumentStep) (documentId : UUID) : List DocumentStep :=
  stepOrder.filterMap fun step => row (documentId, step)

theorem mem_stepRows_iff (t : StepTable) {d : UUID} {r : DocumentStep} :
    r ∈ stepRows t.lookup d ↔ r ∈ t.rows ∧ r.documentId = d := by
  simp only [stepRows, List.mem_filterMap, mem_stepOrder, true_and, t.lookup_eq_some_iff]
  constructor
  · rintro ⟨s, hr, hk⟩
    exact ⟨hr, congrArg Prod.fst hk⟩
  · rintro ⟨hr, rfl⟩
    exact ⟨r.step, hr, rfl⟩

theorem pairwise_stepRows (t : StepTable) (d : UUID) :
    (stepRows t.lookup d).Pairwise fun r r' => r.step.AtOrBefore r'.step := by
  rw [stepRows, List.pairwise_filterMap]
  have hlt : stepOrder.Pairwise fun s s' => s.AtOrBefore s' := by decide
  refine hlt.imp fun {s s'} hs r hr r' hr' => ?_
  have hstep : r.step = s := congrArg Prod.snd (t.key_of_lookup hr)
  have hstep' : r'.step = s' := congrArg Prod.snd (t.key_of_lookup hr')
  rwa [hstep, hstep']

theorem nodup_stepRows (t : StepTable) (d : UUID) : (stepRows t.lookup d).Nodup := by
  refine nodup_stepOrder.filterMap fun s s' r hr hr' => ?_
  rw [Option.mem_def] at hr hr'
  exact congrArg Prod.snd ((t.key_of_lookup hr).symm.trans (t.key_of_lookup hr'))

theorem PipelineStep.AtOrBefore.antisymm {s s' : PipelineStep} (h : s.AtOrBefore s')
    (h' : s'.AtOrBefore s) : s = s' := by
  cases s <;> cases s' <;> first | rfl | exact absurd (And.intro h h') (by decide)

theorem PipelineStep.AtOrBefore.total (s s' : PipelineStep) : s.AtOrBefore s' ∨ s'.AtOrBefore s :=
  Nat.le_total _ _

/-- The sorted listing does not depend on the order of the rows in the table. -/
theorem listSteps_eq (t : StepTable) (d : UUID) : listSteps t d = stepRows t.lookup d := by
  have hnd : (t.rows.filter fun r => r.documentId = d).Nodup := (List.Nodup.of_map _ t.nodup).filter _
  have hperm : (listSteps t d).Perm (stepRows t.lookup d) := by
    refine (List.perm_insertionSort _ _).trans ?_
    rw [List.perm_ext_iff_of_nodup hnd (nodup_stepRows t d)]
    intro r
    simp [mem_stepRows_iff]
  have hsorted : (listSteps t d).Pairwise fun r r' => r.step.AtOrBefore r'.step := by
    have : Std.Total fun r r' : DocumentStep => r.step.AtOrBefore r'.step :=
      ⟨fun r r' => PipelineStep.AtOrBefore.total r.step r'.step⟩
    have : IsTrans DocumentStep fun r r' => r.step.AtOrBefore r'.step :=
      ⟨fun _ _ _ => Nat.le_trans⟩
    exact List.pairwise_insertionSort _ _
  refine hperm.eq_of_pairwise (fun r r' hr hr' hle hle' => ?_) hsorted (pairwise_stepRows t d)
  have hmem := (mem_stepRows_iff t).1 (hperm.subset hr)
  have hmem' := (mem_stepRows_iff t).1 hr'
  refine t.eq_of_key_eq hmem.1 hmem'.1 ?_
  exact Prod.ext (hmem.2.trans hmem'.2.symm) (hle.antisymm hle')

/-! ## The abstract machine -/

/-- What a call does to the row with key `k`. -/
def StepCall.rowEffect (env : StepEnv) (k : StepKey) :
    StepCall → Option DocumentStep → Option DocumentStep
  | .ensureSteps d m, none =>
    if k.1 = d ∧ IsInt4 m ∧ env.documentExists d then some (newStep env d m k.2) else none
  | .ensureSteps _ _, some row => some row
  | .listSteps _, row => row
  | .claim d s, row => row.map (claimUpdate env d s).tryRow
  | .markSucceeded d s ref ms metrics, row =>
    if ∀ n ∈ ms, IsInt4 n then row.map (succeededUpdate env d s ref ms metrics).tryRow else row
  | .markFailed d s code detail, row => row.map (failedUpdate env d s code detail).tryRow
  | .resetFrom d s, row => row.map (resetUpdate env d s).tryRow

theorem key_of_atStatus {d : UUID} {s : PipelineStep} {status : StepStatus} {r : DocumentStep}
    (h : atStatus d s status r) : r.key = (d, s) := by
  simp only [atStatus, decide_eq_true_eq] at h
  exact Prod.ext h.1 h.2.1

theorem atStatus_iff {d : UUID} {s : PipelineStep} {status : StepStatus} {r : DocumentStep} :
    atStatus d s status r = true ↔ r.key = (d, s) ∧ r.status = status := by
  simp [atStatus, DocumentStep.key, and_assoc]

/-- The answer of `updateOne` from the one row it may hit. -/
def tryOne (u : Table.Update DocumentStep.key DbError) :
    Option DocumentStep → Except DbError (Option DocumentStep)
  | none => .ok none
  | some r =>
    if u.hits r then
      match u.raises r with
      | some e => .error e
      | none => .ok (some (u.set r))
    else .ok none

section UpdateOne

variable (u : Table.Update DocumentStep.key DbError) (t : StepTable) {k : StepKey}

theorem updateOne_eq (hu : ∀ r, u.hits r → r.key = k) :
    updateOne u t = ((t.update u).1, tryOne u (t.lookup k)) := by
  have hres := t.update_single_snd u hu
  have hfst : ∀ e, (t.update u).2 = .error e → (t.update u).1 = t := by
    intro e he
    unfold Table.update at he ⊢
    split
    · rfl
    · rename_i h
      rw [h] at he
      cases he
  unfold updateOne
  rcases hup : t.update u with ⟨t', e | rows⟩
  · rw [hup] at hres hfst
    obtain rfl : t' = t := hfst e rfl
    cases hk : t'.lookup k with
    | none => simp [hk, Table.Update.tryResult] at hres
    | some r =>
      rw [hk, Table.Update.tryResult] at hres
      cases hh : u.hits r <;> cases hr : u.raises r <;> simp [hh, hr, tryOne] at hres ⊢
      exact hres
  · rw [hup] at hres
    cases hk : t.lookup k with
    | none =>
      simp only [hk, Table.Update.tryResult, Except.ok.injEq] at hres
      subst hres
      rfl
    | some r =>
      rw [hk, Table.Update.tryResult] at hres
      cases hh : u.hits r <;> cases hr : u.raises r <;>
        simp [hh, hr, tryOne, oneOrNone] at hres ⊢ <;> subst hres <;> rfl

theorem lookup_updateOne (hu : ∀ r, u.hits r → r.key = k) (k' : StepKey) :
    (updateOne u t).1.lookup k' = (t.lookup k').map u.tryRow := by
  rw [updateOne_eq u t hu, t.lookup_update_single u hu]

theorem updateOne_snd (hu : ∀ r, u.hits r → r.key = k) :
    (updateOne u t).2 = tryOne u (t.lookup k) := by
  rw [updateOne_eq u t hu]

end UpdateOne

/-- An update that never raises leaves what `tryRow` says. -/
theorem lookup_update_total (u : Table.Update DocumentStep.key DbError) (t : StepTable)
    (hu : ∀ r, u.raises r = none) (k : StepKey) :
    (t.update u).1.lookup k = (t.lookup k).map u.tryRow := by
  rw [t.update_of_raises_none u fun r _ _ => hu r, Table.lookup_modify]
  congr 1
  funext r
  simp [Table.Update.onRow, Table.Update.tryRow, hu]

theorem resetFrom_eq (env : StepEnv) (d : UUID) (s : PipelineStep) (t : StepTable) :
    resetFrom env d s t =
      (t.modify (resetUpdate env d s), .ok (listSteps (t.modify (resetUpdate env d s)) d)) := by
  rw [resetFrom, t.update_of_raises_none (resetUpdate env d s) fun _ _ _ => rfl]

theorem lookup_resetFrom (env : StepEnv) (d : UUID) (s : PipelineStep) (t : StepTable)
    (k : StepKey) :
    (resetFrom env d s t).1.lookup k = (t.lookup k).map (resetUpdate env d s).tryRow := by
  rw [← lookup_update_total (resetUpdate env d s) t (fun _ => rfl), resetFrom_eq,
    t.update_of_raises_none (resetUpdate env d s) fun _ _ _ => rfl]

/-- A reset leaves every earlier step and every other document as they were. -/
theorem lookup_resetFrom_of_notMem (env : StepEnv) {d : UUID} {s : PipelineStep} (t : StepTable)
    {k : StepKey} (hk : ¬ (k.1 = d ∧ k.2 ∈ stepsFrom s)) :
    (resetFrom env d s t).1.lookup k = t.lookup k := by
  rw [lookup_resetFrom]
  cases hr : t.lookup k with
  | none => rfl
  | some r =>
    obtain rfl := t.key_of_lookup hr
    have hmiss : (resetUpdate env d s).hits r = false := decide_eq_false hk
    rw [Option.map_some, Table.Update.tryRow_of_not_hits _ hmiss]

/-! ### Inserting missing rows -/

theorem mem_missingSteps {t : StepTable} {d : UUID} {s : PipelineStep} :
    s ∈ missingSteps t d ↔ t.lookup (d, s) = none := by
  simp [missingSteps]

theorem lookup_insertMissing (env : StepEnv) (d : UUID) (m : ℤ) (t : StepTable) (k : StepKey) :
    (insertMissing env d m t).lookup k =
      (t.lookup k).or (if k.1 = d then some (newStep env d m k.2) else none) := by
  rw [insertMissing, Table.lookup_insertAll]
  cases hk : t.lookup k with
  | some r => rfl
  | none =>
    rw [Option.none_or, Option.none_or]
    split_ifs with hd
    · subst hd
      have hmem : newStep env k.1 m k.2 ∈ (missingSteps t k.1).map (newStep env k.1 m) :=
        List.mem_map_of_mem (mem_missingSteps.2 hk)
      refine Table.lookup_key ⟨(missingSteps t k.1).map (newStep env k.1 m), ?_⟩ hmem
      rw [List.map_map]
      exact (nodup_stepOrder.filter _).map fun s s' h => congrArg Prod.snd h
    · rw [List.find?_eq_none]
      intro r hr hrk
      obtain ⟨s, -, rfl⟩ := List.mem_map.1 hr
      exact hd (congrArg Prod.fst (of_decide_eq_true hrk)).symm

theorem lookup_ensureSteps (env : StepEnv) (d : UUID) (m : ℤ) (t : StepTable) (k : StepKey) :
    (ensureSteps env d m t).1.lookup k = (StepCall.ensureSteps d m).rowEffect env k (t.lookup k) := by
  unfold ensureSteps
  by_cases hm : IsInt4 m
  · rw [if_neg (not_not.2 hm)]
    split_ifs with hfk
    · cases hk : t.lookup k with
      | some r => rfl
      | none => simp [StepCall.rowEffect, hfk.2]
    · rw [lookup_insertMissing]
      cases hk : t.lookup k with
      | some r => rfl
      | none =>
        rw [Option.none_or]
        by_cases hd : k.1 = d
        · subst hd
          have hmissing : missingSteps t k.1 ≠ [] :=
            List.ne_nil_of_mem (mem_missingSteps.2 hk)
          have hexists : env.documentExists k.1 = true :=
            not_not.1 fun hex => hfk ⟨hmissing, hex⟩
          simp [StepCall.rowEffect, hm, hexists]
        · simp [StepCall.rowEffect, hd]
  · rw [if_pos hm]
    cases hk : t.lookup k with
    | some r => rfl
    | none => simp [StepCall.rowEffect, hm]

/-! ## The refinement -/

/-- The table is the abstract machine, row by row. -/
theorem lookup_exec (c : StepCall) (env : StepEnv) (t : StepTable) (k : StepKey) :
    (c.exec env t).1.lookup k = c.rowEffect env k (t.lookup k) := by
  cases c with
  | ensureSteps d m => exact lookup_ensureSteps env d m t k
  | listSteps d => rfl
  | claim d s => exact lookup_updateOne _ t (fun _ => key_of_atStatus) k
  | markSucceeded d s ref ms metrics =>
    simp only [StepCall.exec, Prod.map_fst, id_eq, markSucceeded, StepCall.rowEffect]
    split_ifs
    · exact lookup_updateOne _ t (fun _ => key_of_atStatus) k
    · rfl
  | markFailed d s code detail => exact lookup_updateOne _ t (fun _ => key_of_atStatus) k
  | resetFrom d s => exact lookup_resetFrom env d s t k

/-- The answer of a call from the rows it reads. -/
def StepCall.reply (env : StepEnv) (row : StepKey → Option DocumentStep) :
    StepCall → Except DbError StepReply
  | .ensureSteps d m =>
    if ¬ IsInt4 m then .error .integerOutOfRange
    else if (stepOrder.filter fun s => (row (d, s)).isNone) ≠ [] ∧ ¬ env.documentExists d then
      .error .foreignKeyViolation
    else .ok (.steps (stepRows (fun k => (StepCall.ensureSteps d m).rowEffect env k (row k)) d))
  | .listSteps d => .ok (.steps (stepRows row d))
  | .claim d s => (tryOne (claimUpdate env d s) (row (d, s))).map .step
  | .markSucceeded d s ref ms metrics =>
    if ∀ n ∈ ms, IsInt4 n then
      (tryOne (succeededUpdate env d s ref ms metrics) (row (d, s))).map .step
    else .error .integerOutOfRange
  | .markFailed d s code detail => (tryOne (failedUpdate env d s code detail) (row (d, s))).map .step
  | .resetFrom d s => .ok (.steps (stepRows (fun k => (row k).map (resetUpdate env d s).tryRow) d))

/-- The answers of the table are those of the abstract machine. -/
theorem exec_snd (c : StepCall) (env : StepEnv) (t : StepTable) :
    (c.exec env t).2 = c.reply env t.lookup := by
  cases c with
  | ensureSteps d m =>
    have hafter := funext (lookup_ensureSteps env d m t)
    have hmissing : (stepOrder.filter fun s => (t.lookup (d, s)).isNone) = missingSteps t d := rfl
    simp only [StepCall.exec, StepCall.reply, Prod.map_snd, hmissing]
    by_cases hm : IsInt4 m
    · by_cases hfk : missingSteps t d ≠ [] ∧ ¬ env.documentExists d
      · rw [ensureSteps, if_neg (not_not.2 hm), if_pos hfk, if_neg (not_not.2 hm), if_pos hfk]
        rfl
      · rw [← hafter, ← listSteps_eq, if_neg (not_not.2 hm), if_neg hfk, ensureSteps,
          if_neg (not_not.2 hm), if_neg hfk]
        rfl
    · rw [ensureSteps, if_pos hm, if_pos hm]
      rfl
  | listSteps d => exact congrArg (fun l => Except.ok (StepReply.steps l)) (listSteps_eq t d)
  | claim d s =>
    exact congrArg (Except.map StepReply.step)
      (updateOne_snd (claimUpdate env d s) t fun _ => key_of_atStatus)
  | markSucceeded d s ref ms metrics =>
    simp only [StepCall.exec, StepCall.reply, markSucceeded, Prod.map_snd]
    split_ifs
    · exact congrArg (Except.map StepReply.step)
        (updateOne_snd (succeededUpdate env d s ref ms metrics) t fun _ => key_of_atStatus)
    · rfl
  | markFailed d s code detail =>
    exact congrArg (Except.map StepReply.step)
      (updateOne_snd (failedUpdate env d s code detail) t fun _ => key_of_atStatus)
  | resetFrom d s =>
    have hafter := funext (lookup_resetFrom env d s t)
    simp only [StepCall.exec, StepCall.reply, resetFrom_eq, Prod.map_snd] at hafter ⊢
    rw [← hafter, ← listSteps_eq]
    rfl

/-! ## What a statement does on meeting a row -/

/-- What an update does on meeting a row that satisfies its condition. -/
def onRow (u : Table.Update DocumentStep.key DbError) (r : DocumentStep) :
    Option (Except DbError DocumentStep) :=
  if u.hits r then
    some (match u.raises r with
      | some e => .error e
      | none => .ok (u.set r))
  else none

/-- What a call does on meeting a version of the row with key `k`: nothing if its condition does not
hold, and otherwise an error or the version it writes. -/
def StepCall.onVersion (env : StepEnv) (k : StepKey) :
    StepCall → Option DocumentStep → Option (Except DbError DocumentStep)
  | .ensureSteps d m, none =>
    if k.1 = d then
      some (if env.documentExists d then .ok (newStep env d m k.2) else .error .foreignKeyViolation)
    else none
  | .ensureSteps _ _, some _ => none
  | .listSteps _, _ => none
  | .claim d s, row => row.bind (onRow (claimUpdate env d s))
  | .markSucceeded d s ref ms metrics, row => row.bind (onRow (succeededUpdate env d s ref ms metrics))
  | .markFailed d s code detail, row => row.bind (onRow (failedUpdate env d s code detail))
  | .resetFrom d s, row => row.bind (onRow (resetUpdate env d s))

/-- The integers among the arguments can be sent to the server. -/
def StepCall.ArgsInRange : StepCall → Prop
  | .ensureSteps _ m => IsInt4 m
  | .markSucceeded _ _ _ ms _ => ∀ n ∈ ms, IsInt4 n
  | _ => True

/-- The document that a call is about. -/
def StepCall.documentId : StepCall → UUID
  | .ensureSteps d _ | .listSteps d | .claim d _ | .markSucceeded d _ _ _ _ | .markFailed d _ _ _
  | .resetFrom d _ => d

theorem tryRow_eq_onRow (u : Table.Update DocumentStep.key DbError) (r : DocumentStep) :
    some (u.tryRow r) = match onRow u r with
      | some (.ok v) => some v
      | _ => some r := by
  unfold Table.Update.tryRow onRow
  cases hh : u.hits r
  · simp
  · cases hr : u.raises r <;> simp

/-- A call that may be sent does to a row what its statement does on meeting it. -/
theorem rowEffect_eq_onVersion {c : StepCall} (hc : c.ArgsInRange) (env : StepEnv) (k : StepKey)
    (row : Option DocumentStep) :
    c.rowEffect env k row = match c.onVersion env k row with
      | some (.ok v) => some v
      | _ => row := by
  cases row with
  | none =>
    cases c <;> try rfl
    case ensureSteps d m =>
      have hm : IsInt4 m := hc
      simp only [StepCall.rowEffect, StepCall.onVersion]
      by_cases hd : k.1 = d <;> by_cases hex : env.documentExists d <;> simp [hd, hm, hex]
    case markSucceeded => exact ite_self none
  | some r =>
    cases c <;> try rfl
    case claim => exact tryRow_eq_onRow _ r
    case markSucceeded d s ref ms metrics =>
      have hms : ∀ n ∈ ms, IsInt4 n := hc
      exact (if_pos hms).trans (tryRow_eq_onRow _ r)
    case markFailed => exact tryRow_eq_onRow _ r
    case resetFrom => exact tryRow_eq_onRow _ r

/-- What an update writes on meeting a version. -/
theorem onRow_eq_ok {u : Table.Update DocumentStep.key DbError} {row : Option DocumentStep}
    {v : DocumentStep} (h : row.bind (onRow u) = some (.ok v)) :
    ∃ r, row = some r ∧ u.hits r ∧ v = u.set r := by
  obtain ⟨r, hrow, hr⟩ := Option.bind_eq_some_iff.1 h
  refine ⟨r, hrow, ?_⟩
  unfold onRow at hr
  split_ifs at hr with hhit
  cases hraise : u.raises r with
  | some e => simp [hraise] at hr
  | none =>
    rw [hraise, Option.some.injEq, Except.ok.injEq] at hr
    exact ⟨hhit, hr.symm⟩

/-- What a statement may write on a version: a new row where there is none, and otherwise the row
that its update makes of one that it hits. -/
theorem onVersion_cases {c : StepCall} {env : StepEnv} {k : StepKey} {row : Option DocumentStep}
    {v : DocumentStep} (h : c.onVersion env k row = some (.ok v)) :
    (∃ d m, c = .ensureSteps d m ∧ row = none ∧ k.1 = d ∧ v = newStep env d m k.2) ∨
    ∃ r, row = some r ∧
      ((∃ d s, c = .claim d s ∧ atStatus d s .pending r ∧ v = (claimUpdate env d s).set r) ∨
      (∃ d s ref ms metrics, c = .markSucceeded d s ref ms metrics ∧ atStatus d s .running r ∧
        v = (succeededUpdate env d s ref ms metrics).set r) ∨
      (∃ d s code detail, c = .markFailed d s code detail ∧ atStatus d s .running r ∧
        v = (failedUpdate env d s code detail).set r) ∨
      ∃ d s, c = .resetFrom d s ∧ (resetUpdate env d s).hits r ∧ v = (resetUpdate env d s).set r) := by
  cases c with
  | ensureSteps d m =>
    cases row with
    | some r => cases h
    | none =>
      simp only [StepCall.onVersion] at h
      split_ifs at h with hd hex
      · rw [Option.some.injEq, Except.ok.injEq] at h
        exact .inl ⟨d, m, rfl, rfl, hd, h.symm⟩
      · cases Option.some.inj h
  | listSteps => cases h
  | claim d s =>
    obtain ⟨r, hrow, hv⟩ := onRow_eq_ok h
    exact .inr ⟨r, hrow, .inl ⟨d, s, rfl, hv⟩⟩
  | markSucceeded d s ref ms metrics =>
    obtain ⟨r, hrow, hv⟩ := onRow_eq_ok h
    exact .inr ⟨r, hrow, .inr (.inl ⟨d, s, ref, ms, metrics, rfl, hv⟩)⟩
  | markFailed d s code detail =>
    obtain ⟨r, hrow, hv⟩ := onRow_eq_ok h
    exact .inr ⟨r, hrow, .inr (.inr (.inl ⟨d, s, code, detail, rfl, hv⟩))⟩
  | resetFrom d s =>
    obtain ⟨r, hrow, hv⟩ := onRow_eq_ok h
    exact .inr ⟨r, hrow, .inr (.inr (.inr ⟨d, s, rfl, hv⟩))⟩

theorem key_onVersion {c : StepCall} {env : StepEnv} {k : StepKey} {row : Option DocumentStep}
    {v : DocumentStep} (hkey : ∀ r, row = some r → r.key = k)
    (h : c.onVersion env k row = some (.ok v)) : v.key = k := by
  rcases onVersion_cases h with ⟨d, m, -, -, rfl, rfl⟩ | ⟨r, hr, hv⟩
  · rfl
  · rw [← hkey r hr]
    rcases hv with ⟨d, s, -, -, rfl⟩ | ⟨d, s, ref, ms, metrics, -, -, rfl⟩ |
      ⟨d, s, code, detail, -, -, rfl⟩ | ⟨d, s, -, -, rfl⟩ <;> rfl

/-- A call leaves a row or makes of it what its statement writes on meeting it. -/
theorem rowEffect_cases (c : StepCall) (env : StepEnv) (k : StepKey) (row : Option DocumentStep) :
    c.rowEffect env k row = row ∨
      ∃ v, c.onVersion env k row = some (.ok v) ∧ c.rowEffect env k row = some v := by
  by_cases hc : c.ArgsInRange
  · rw [rowEffect_eq_onVersion hc]
    split
    · exact .inr ⟨_, by assumption, rfl⟩
    · exact .inl rfl
  · left
    cases c with
    | ensureSteps d m =>
      have hm : ¬ IsInt4 m := hc
      cases row <;> simp [StepCall.rowEffect, hm]
    | markSucceeded => exact if_neg hc
    | _ => exact absurd trivial hc

/-- No call removes a row. -/
theorem isSome_rowEffect_of_isSome (c : StepCall) (env : StepEnv) (k : StepKey)
    {row : Option DocumentStep} (h : row.isSome) : (c.rowEffect env k row).isSome := by
  rcases rowEffect_cases c env k row with hsame | ⟨v, -, hv⟩
  · rwa [hsame]
  · rw [hv]
    rfl

/-! ## Calls about one row -/

/-- The key of the one row that a call may write. -/
def StepCall.stepKey? : StepCall → Option StepKey
  | .claim d s | .markSucceeded d s _ _ _ | .markFailed d s _ _ => some (d, s)
  | .ensureSteps _ _ | .listSteps _ | .resetFrom _ _ => none

theorem tryOne_cases (u : Table.Update DocumentStep.key DbError) (row : Option DocumentStep) :
    (∃ v, tryOne u row = .ok (some v) ∧ row.bind (onRow u) = some (.ok v) ∧
      row.map u.tryRow = some v) ∨
    (∀ v, row.bind (onRow u) ≠ some (.ok v)) ∧ (∀ v, tryOne u row ≠ .ok (some v)) ∧
      row.map u.tryRow = row := by
  cases row with
  | none => exact .inr ⟨by simp, by simp [tryOne], rfl⟩
  | some r =>
    simp only [tryOne, Option.bind_some, onRow, Option.map_some, Table.Update.tryRow]
    cases u.hits r <;> cases u.raises r <;> simp

/-- A call about one row answers with the row it has written, or leaves the row as it was. -/
theorem exec_single {c : StepCall} {k : StepKey} (hk : c.stepKey? = some k) (env : StepEnv)
    (t : StepTable) :
    (∃ v, (c.exec env t).2 = .ok (.step (some v)) ∧
      c.onVersion env k (t.lookup k) = some (.ok v) ∧ (c.exec env t).1.lookup k = some v) ∨
    (∀ v, (c.exec env t).2 ≠ .ok (.step (some v))) ∧ (c.exec env t).1.lookup k = t.lookup k := by
  have hstep : ∀ (x : Except DbError (Option DocumentStep)) (v : DocumentStep),
      x.map StepReply.step = .ok (.step (some v)) ↔ x = .ok (some v) := by
    intro x v
    cases x <;> simp [Except.map]
  rw [exec_snd, lookup_exec]
  cases c <;> simp only [StepCall.stepKey?, reduceCtorEq, Option.some.injEq] at hk <;> subst hk
  case claim =>
    simp only [StepCall.reply, hstep, ne_eq]
    exact (tryOne_cases _ _).imp_right And.right
  case markSucceeded d s ref ms metrics =>
    by_cases hms : ∀ n ∈ ms, IsInt4 n
    · simp only [StepCall.reply, StepCall.rowEffect, if_pos hms, hstep, ne_eq]
      exact (tryOne_cases _ _).imp_right And.right
    · simp only [StepCall.reply, StepCall.rowEffect, if_neg hms]
      refine .inr ⟨fun v h => ?_, trivial⟩
      cases h
  case markFailed =>
    simp only [StepCall.reply, hstep, ne_eq]
    exact (tryOne_cases _ _).imp_right And.right

/-- A call about one row leaves every other row. -/
theorem lookup_exec_of_ne {c : StepCall} {k k' : StepKey} (hk : c.stepKey? = some k) (hne : k' ≠ k)
    (env : StepEnv) (t : StepTable) : (c.exec env t).1.lookup k' = t.lookup k' := by
  rw [lookup_exec]
  rcases rowEffect_cases c env k' (t.lookup k') with hsame | ⟨v, hv, -⟩
  · exact hsame
  · exfalso
    apply hne
    rcases onVersion_cases hv with ⟨d, m, rfl, -⟩ | ⟨r, hr, hcase⟩
    · cases hk
    · rw [← t.key_of_lookup hr]
      rcases hcase with ⟨d, s, rfl, hhit, -⟩ | ⟨d, s, ref, ms, metrics, rfl, hhit, -⟩ |
        ⟨d, s, code, detail, rfl, hhit, -⟩ | ⟨d, s, rfl, -⟩
      · exact (key_of_atStatus hhit).trans (Option.some.inj hk)
      · exact (key_of_atStatus hhit).trans (Option.some.inj hk)
      · exact (key_of_atStatus hhit).trans (Option.some.inj hk)
      · cases hk

/-- A call whose statement writes the row answers with what it writes. -/
theorem exec_of_onVersion {c : StepCall} {k : StepKey} (hk : c.stepKey? = some k)
    (hc : c.ArgsInRange) {env : StepEnv} {t : StepTable} {v : DocumentStep}
    (hv : c.onVersion env k (t.lookup k) = some (.ok v)) :
    (c.exec env t).2 = .ok (.step (some v)) ∧ (c.exec env t).1.lookup k = some v := by
  have hlookup : (c.exec env t).1.lookup k = some v := by
    rw [lookup_exec, rowEffect_eq_onVersion hc, hv]
  refine ⟨?_, hlookup⟩
  have hreply : ∀ u : Table.Update DocumentStep.key DbError,
      (t.lookup k).bind (onRow u) = some (.ok v) → tryOne u (t.lookup k) = .ok (some v) := by
    intro u hu
    rcases tryOne_cases u (t.lookup k) with ⟨v', hanswer, hv', -⟩ | ⟨hmiss, -⟩
    · rw [hu, Option.some.injEq, Except.ok.injEq] at hv'
      rw [hanswer, hv']
    · exact absurd hu (hmiss v)
  rw [exec_snd]
  cases c <;> simp only [StepCall.stepKey?, reduceCtorEq, Option.some.injEq] at hk <;> subst hk
  case claim => exact congrArg (Except.map StepReply.step) (hreply _ hv)
  case markSucceeded d s ref ms metrics =>
    have hms : ∀ n ∈ ms, IsInt4 n := hc
    rw [StepCall.reply, if_pos hms]
    exact congrArg (Except.map StepReply.step) (hreply _ hv)
  case markFailed => exact congrArg (Except.map StepReply.step) (hreply _ hv)

end Ipa
