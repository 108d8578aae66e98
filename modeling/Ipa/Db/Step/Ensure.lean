import Ipa.Db.Step.Invariant

/-!
# Creating the steps of a document

`ensureSteps` inserts the rows that a document lacks and leaves every other row as it is.  No call
removes a row, so a document with a row for each step keeps them (`filled_execAll`): nothing is
inserted for it any more, and its listing has one row for each step in the order of `stepOrder`
whatever the states of the rows (`map_step_listSteps`).
-/

namespace Ipa

open StepRepository

/-- The document has a row for each step. -/
def StepTable.Filled (t : StepTable) (d : UUID) : Prop := ∀ s, (t.lookup (d, s)).isSome

/-! ## The steps of a listing -/

theorem map_step_stepRows (t : StepTable) (d : UUID) :
    (stepRows t.lookup d).map (·.step) = stepOrder.filter fun s => (t.lookup (d, s)).isSome := by
  rw [stepRows, List.map_filterMap, ← List.filterMap_eq_filter]
  refine List.filterMap_congr fun s _ => ?_
  cases hs : t.lookup (d, s) with
  | none => simp [Option.guard, hs]
  | some r =>
    have hstep : r.step = s := congrArg Prod.snd (t.key_of_lookup hs)
    simp [Option.guard, hs, hstep]

/-- The listing of a document with all rows has one row for each step, in order. -/
theorem map_step_listSteps {t : StepTable} {d : UUID} (h : t.Filled d) :
    (listSteps t d).map (·.step) = stepOrder := by
  rw [listSteps_eq, map_step_stepRows]
  exact List.filter_eq_self.2 fun s _ => h s

theorem mem_listSteps {t : StepTable} {d : UUID} {r : DocumentStep} :
    r ∈ listSteps t d ↔ r ∈ t.rows ∧ r.documentId = d := by
  rw [listSteps_eq, mem_stepRows_iff]

/-! ## When it succeeds -/

section

variable {env : StepEnv} {d : UUID} {m : ℤ} {t : StepTable}

theorem ensureSteps_of_exists (hm : IsInt4 m) (hd : env.documentExists d) (t : StepTable) :
    ensureSteps env d m t =
      (insertMissing env d m t, .ok (listSteps (insertMissing env d m t) d)) := by
  have hfk : ¬ (missingSteps t d ≠ [] ∧ ¬ env.documentExists d) := fun h => h.2 hd
  rw [ensureSteps, if_neg (not_not.2 hm), if_neg hfk]

/-- A call that returns and had a row to insert found its document. -/
theorem exists_of_ensureSteps {t' : StepTable} {rows : List DocumentStep} {s : PipelineStep}
    (h : ensureSteps env d m t = (t', .ok rows)) (hs : t.lookup (d, s) = none) :
    IsInt4 m ∧ env.documentExists d := by
  have hmissing : missingSteps t d ≠ [] := List.ne_nil_of_mem (mem_missingSteps.2 hs)
  unfold ensureSteps at h
  split_ifs at h with hm hfk
  · cases congrArg Prod.snd h
  · exact ⟨hm, not_not.1 fun hex => hfk ⟨hmissing, hex⟩⟩
  · cases congrArg Prod.snd h

end

/-! ## Rows that stay -/

theorem missingSteps_eq_nil {t : StepTable} {d : UUID} (h : t.Filled d) : missingSteps t d = [] := by
  refine List.filter_eq_nil_iff.2 fun s _ hs => ?_
  rw [Option.isNone_iff_eq_none] at hs
  have hsome := h s
  rw [hs] at hsome
  cases hsome

theorem filled_insertMissing (env : StepEnv) (d : UUID) (m : ℤ) (t : StepTable) :
    (insertMissing env d m t).Filled d := by
  intro s
  rw [lookup_insertMissing]
  cases t.lookup (d, s) with
  | none => simp
  | some r => rfl

/-- Where no row is missing, nothing is inserted, whatever the retry budget. -/
theorem ensureSteps_fst_of_filled {t : StepTable} {d : UUID} (h : t.Filled d) (env : StepEnv)
    (m : ℤ) : (ensureSteps env d m t).1 = t := by
  have hmissing := missingSteps_eq_nil h
  have hsame : insertMissing env d m t = t := by
    have hrows : (insertMissing env d m t).rows = t.rows := by
      rw [insertMissing, Table.rows_insertAll, hmissing, List.map_nil, List.append_nil]
    cases t
    exact Table.mk.injEq .. ▸ hrows
  unfold ensureSteps
  by_cases hm : IsInt4 m
  · rw [if_neg (not_not.2 hm), if_neg fun hfk => hfk.1 hmissing]
    exact hsame
  · rw [if_pos hm]

theorem filled_exec {t : StepTable} {d : UUID} (h : t.Filled d) (c : StepCall) (env : StepEnv) :
    (c.exec env t).1.Filled d := by
  intro s
  rw [lookup_exec]
  exact isSome_rowEffect_of_isSome c env (d, s) (h s)

theorem filled_execAll {t : StepTable} {d : UUID} (h : t.Filled d)
    (calls : List (StepEnv × StepCall)) : StepTable.Filled (execAll t calls) d := by
  induction calls generalizing t with
  | nil => exact h
  | cons c calls ih => exact ih (filled_exec h c.2 c.1)

/-! ## What creating the steps promises -/

/-- The rows of document `d` have been created in `t` with the retry budget `m`, which gave the
table `t'` and the listing `rows`. -/
structure StepsCreated (d : UUID) (m : ℤ) (t t' : StepTable) (rows : List DocumentStep) : Prop where
  inserted : ∃ new, t'.rows = t.rows ++ new ∧ new.map (·.step) = missingSteps t d ∧
    ∀ r ∈ new, r.documentId = d ∧ r.status = .pending ∧ r.attempt = 0 ∧ r.maxAttempts = m
  returned : rows.map (·.step) = stepOrder ∧ ∀ r, r ∈ rows ↔ r ∈ t'.rows ∧ r.documentId = d
  again : ∀ (calls : List (StepEnv × StepCall)) (env : StepEnv) (m' : ℤ),
    (ensureSteps env d m' (execAll t' calls)).1 = execAll t' calls
  listed : ∀ calls : List (StepEnv × StepCall),
    (listSteps (execAll t' calls) d).map (·.step) = stepOrder ∧
      ∀ r, r ∈ listSteps (execAll t' calls) d ↔ r ∈ (execAll t' calls).rows ∧ r.documentId = d

theorem stepsCreated_insertMissing (env : StepEnv) (d : UUID) (m : ℤ) (t : StepTable) :
    StepsCreated d m t (insertMissing env d m t) (listSteps (insertMissing env d m t) d) where
  inserted := by
    refine ⟨(missingSteps t d).map (newStep env d m), rfl, ?_, ?_⟩
    · rw [List.map_map]
      exact List.map_id _
    · intro r hr
      obtain ⟨s, -, rfl⟩ := List.mem_map.1 hr
      exact ⟨rfl, rfl, rfl, rfl⟩
  returned := ⟨map_step_listSteps (filled_insertMissing env d m t), fun _ => mem_listSteps⟩
  again calls env' m' :=
    ensureSteps_fst_of_filled (filled_execAll (filled_insertMissing env d m t) calls) env' m'
  listed calls :=
    ⟨map_step_listSteps (filled_execAll (filled_insertMissing env d m t) calls),
      fun _ => mem_listSteps⟩

/-- `ensureSteps` creates the missing rows of an existing document, and no later call undoes or
repeats that; a retry budget that the column cannot hold raises and leaves the table as it was. -/
theorem ensureSteps_creates (t : StepTable) {env : StepEnv} {d : UUID}
    (hd : env.documentExists d) (m : ℤ) :
    (IsInt4 m → ∃ t' rows, ensureSteps env d m t = (t', .ok rows) ∧ StepsCreated d m t t' rows) ∧
    (¬ IsInt4 m → ensureSteps env d m t = (t, .error .integerOutOfRange)) := by
  constructor
  · intro hm
    exact ⟨_, _, ensureSteps_of_exists hm hd t, stepsCreated_insertMissing env d m t⟩
  · intro hm
    rw [ensureSteps, if_pos hm]

/-- A document of which one row is there, and that one running. -/
theorem ensureSteps_creates_running_ocr :
    let env : StepEnv := ⟨5, fun s => ⟨(stepOrder.idxOf s : BitVec 128)⟩, fun _ => true⟩
    let running : DocumentStep :=
      { newStep env ⟨7⟩ 3 .ocr with status := .running, attempt := 1, startedAt := some 4 }
    let t : StepTable := ⟨[running], List.nodup_singleton _⟩
    ∃ t' rows, ensureSteps env ⟨7⟩ 9 t = (t', .ok rows) ∧ StepsCreated ⟨7⟩ 9 t t' rows := by
  intro env running t
  have hd : env.documentExists ⟨7⟩ := rfl
  exact (ensureSteps_creates t hd 9).1 (by decide)

/-- One attempt more than the largest `integer` makes the statement raise. -/
theorem ensureSteps_out_of_range :
    let env : StepEnv := ⟨5, fun s => ⟨(stepOrder.idxOf s : BitVec 128)⟩, fun _ => true⟩
    ensureSteps env ⟨7⟩ (2 ^ 31) (Table.empty _) = (Table.empty _, .error .integerOutOfRange) ∧
    ¬ ∀ (t : StepTable) (env : StepEnv) (d : UUID) (m : ℤ), env.documentExists d →
      ∃ t' rows, ensureSteps env d m t = (t', .ok rows) ∧ StepsCreated d m t t' rows := by
  intro env
  have hraise : ensureSteps env ⟨7⟩ (2 ^ 31) (Table.empty _) =
      (Table.empty _, .error .integerOutOfRange) := by
    rw [ensureSteps, if_pos (by decide)]
  refine ⟨hraise, fun hall => ?_⟩
  obtain ⟨t', rows, hok, -⟩ := hall (Table.empty _) env ⟨7⟩ (2 ^ 31) rfl
  rw [hraise] at hok
  cases hok

end Ipa
