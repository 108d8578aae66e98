import Ipa.Db.Step.Session
import Mathlib.Data.List.DropRight

/-!
# Exclusive claims

Between two committed resets of a step at most one claim of it wins, unless its transaction is rolled
back, and `attempt` counts the committed claims since the last reset (`claim_exclusive`).
-/

namespace Ipa

open StepRepository ReadCommitted Transition

variable {T : Type*}

/-- The event commits a claim that has written the row with key `k`. -/
def StepEvent.commitsClaim (k : StepKey) : StepEvent T → Bool
  | .commit _ _ (.claim _ _) w => w.any (·.1 = k)
  | _ => false

/-- The event commits a reset that has written the row with key `k`. -/
def StepEvent.commitsReset (k : StepKey) : StepEvent T → Bool
  | .commit _ _ (.resetFrom _ _) w => w.any (·.1 = k)
  | _ => false

/-- The number of committed claims of `k` since the last committed reset of `k`. -/
def claimsSinceReset (k : StepKey) (tr : List (StepEvent T)) : ℕ :=
  (tr.rtakeWhile fun e => !e.commitsReset k).countP (·.commitsClaim k)

theorem claimsSinceReset_concat (k : StepKey) (tr : List (StepEvent T)) (e : StepEvent T) :
    claimsSinceReset k (tr ++ [e]) = if e.commitsReset k then 0
      else claimsSinceReset k tr + if e.commitsClaim k then 1 else 0 := by
  unfold claimsSinceReset
  rw [List.rtakeWhile_concat]
  cases e.commitsReset k
  · simp [List.countP_append, List.countP_singleton]
  · simp

namespace StepSessions

theorem not_commitsReset {k : StepKey} {e : StepEvent T} (h : ∀ v, (k, v) ∉ e.published) :
    e.commitsReset k = false := by
  unfold StepEvent.commitsReset
  split
  · rw [List.any_eq_false]
    rintro ⟨k', v⟩ hv hk
    obtain rfl : k' = k := of_decide_eq_true hk
    exact h v hv
  · rfl

theorem not_commitsClaim {k : StepKey} {e : StepEvent T} (h : ∀ v, (k, v) ∉ e.published) :
    e.commitsClaim k = false := by
  unfold StepEvent.commitsClaim
  split
  · rw [List.any_eq_false]
    rintro ⟨k', v⟩ hv hk
    obtain rfl : k' = k := of_decide_eq_true hk
    exact h v hv
  · rfl

theorem any_key {k : StepKey} {v : DocumentStep} {w : List (StepKey × DocumentStep)}
    (h : (k, v) ∈ w) : w.any (·.1 = k) = true :=
  List.any_eq_true.2 ⟨_, h, decide_eq_true rfl⟩

variable [DecidableEq T] {s s' : StepSessions T} {e : StepEvent T} {tr : List (StepEvent T)}

/-! ## The attempt counter -/

/-- The counter of the committed row agrees with the events. -/
def Counted (k : StepKey) (tr : List (StepEvent T)) (s : StepSessions T) : Prop :=
  match (s.cell k).committed with
  | none => claimsSinceReset k tr = 0
  | some r => r.attempt = claimsSinceReset k tr

theorem counted_step {k : StepKey} (h : Inv s) (hc : Counted k tr s) (he : Step s e s') :
    Counted k (tr ++ [e]) s' := by
  unfold Counted at hc ⊢
  rw [claimsSinceReset_concat]
  obtain ⟨t, env, c, w, v, rfl, hv, hplan, hnew⟩ | ⟨hmem, hsame⟩ := committed_step h he k
  · have hany := any_key hv
    rw [hnew]
    rcases onVersion_cases hplan with ⟨d, m, rfl, hnone, -, rfl⟩ | ⟨r, hr, hcase⟩
    · rw [hnone] at hc
      simp [StepEvent.commitsReset, StepEvent.commitsClaim, hc, newStep]
    · rw [hr] at hc
      rcases hcase with ⟨d, s, rfl, -, rfl⟩ | ⟨d, s, ref, ms, metrics, rfl, -, rfl⟩ |
        ⟨d, s, code, detail, rfl, -, rfl⟩ | ⟨d, s, rfl, -, rfl⟩
      · simp [StepEvent.commitsReset, StepEvent.commitsClaim, hany, claimUpdate, hc]
      · simpa [StepEvent.commitsReset, StepEvent.commitsClaim, succeededUpdate] using hc
      · simpa [StepEvent.commitsReset, StepEvent.commitsClaim, failedUpdate] using hc
      · simp [StepEvent.commitsReset, hany, resetUpdate]
  · rw [hsame, not_commitsReset hmem, not_commitsClaim hmem]
    exact hc

theorem counted_run (h : Run Step init tr s) (k : StepKey) : Counted k tr s := by
  refine h.rec_inv (Counted k) ?_ fun _ _ _ _ hrun hc he =>
    counted_step (inv_run inv_init hrun) hc he
  show claimsSinceReset k [] = 0
  rfl

/-! ## One winner -/

/-- The committed row exists and cannot be claimed. -/
def Taken (k : StepKey) (s : StepSessions T) : Prop :=
  ∃ r, (s.cell k).committed = some r ∧ r.status ≠ .pending

/-- What is taken stays taken until a reset is committed. -/
theorem taken_step {k : StepKey} (h : Inv s) (ht : Taken k s) (he : Step s e s')
    (hreset : e.commitsReset k = false) : Taken k s' := by
  obtain ⟨r, hr, hstatus⟩ := ht
  obtain ⟨t, env, c, w, v, rfl, hv, hplan, hnew⟩ | ⟨-, hsame⟩ := committed_step h he k
  · refine ⟨v, hnew, ?_⟩
    rw [hr] at hplan
    rcases onVersion_cases hplan with ⟨_, _, -, hnone, -⟩ | ⟨r', -, hcase⟩
    · cases hnone
    · rcases hcase with ⟨_, _, -, -, rfl⟩ | ⟨_, _, _, _, _, -, -, rfl⟩ | ⟨_, _, _, _, -, -, rfl⟩ |
        ⟨_, _, rfl, -, -⟩
      · simp [claimUpdate]
      · simp [succeededUpdate]
      · simp [failedUpdate]
      · exact absurd (any_key hv) (Bool.eq_false_iff.1 hreset)
  · exact ⟨r, hsame ▸ hr, hstatus⟩

/-- A committed claim takes its row. -/
theorem taken_commit {k : StepKey} (h : Inv s) {t : T} {env : StepEnv} {d : UUID} {p : PipelineStep}
    {w : List (StepKey × DocumentStep)} {v : DocumentStep} (hv : (k, v) ∈ w)
    (he : Step s (.commit t env (.claim d p) w) s') : Taken k s' := by
  obtain ⟨t', env', c, w', v', hcommit, hv', hplan, hnew⟩ | ⟨hmem, -⟩ := committed_step h he k
  · obtain ⟨-, -, rfl, -⟩ := StepEvent.commit.inj hcommit
    refine ⟨v', hnew, ?_⟩
    rcases onVersion_cases hplan with ⟨_, _, hc, -⟩ | ⟨r, -, hcase⟩
    · cases hc
    · rcases hcase with ⟨_, _, -, -, rfl⟩ | ⟨_, _, _, _, _, hc, -⟩ | ⟨_, _, _, _, hc, -⟩ | ⟨_, _, hc, -⟩
      · simp [claimUpdate]
      all_goals cases hc
  · exact absurd hv (hmem v)

/-- A transaction that has returned stays so until it is committed or rolled back. -/
theorem returned_run {t : T} {env : StepEnv} {c : StepCall} {w : List (StepKey × DocumentStep)}
    (hr : s.txn t = .returned env c w) (h : Run Step s tr s') :
    s'.txn t = .returned env c w ∨ .commit t env c w ∈ tr ∨ .rollback t ∈ tr := by
  refine h.rec_inv (fun tr s' => s'.txn t = .returned env c w ∨ .commit t env c w ∈ tr ∨
    .rollback t ∈ tr) (.inl hr) fun tr m e m' _ ih he => ?_
  rcases ih with ih | ih | ih
  · cases he with
    | @start t' _ _ hphase | @skip t' _ _ _ _ _ hphase | @write t' _ _ _ _ _ _ hphase
    | @finish t' _ _ _ hphase =>
      have ht : t ≠ t' := by
        rintro rfl
        rw [ih] at hphase
        cases hphase
      exact .inl (by simpa [Function.update_of_ne ht] using ih)
    | @commit t' env' c' w' hphase =>
      by_cases ht : t = t'
      · subst ht
        rw [ih] at hphase
        obtain ⟨rfl, rfl, rfl⟩ := StepTxn.returned.inj hphase
        exact .inr (.inl (by simp))
      · exact .inl (by simpa [Function.update_of_ne ht] using ih)
    | @rollback t' _ _ _ =>
      by_cases ht : t = t'
      · exact .inr (.inr (by simp [ht]))
      · exact .inl (by simpa [Function.update_of_ne ht] using ih)
  · exact .inr (.inl (List.mem_append_left _ ih))
  · exact .inr (.inr (List.mem_append_left _ ih))

omit [DecidableEq T] in
/-- An open claim has found its row pending. -/
theorem not_taken_of_written {k : StepKey} (h : Inv s) {t : T} {env : StepEnv} {d : UUID}
    {p : PipelineStep} {v : DocumentStep} (hc : (s.txn t).call? = some (env, .claim d p))
    (hv : (k, v) ∈ (s.txn t).written) : ¬ Taken k s := by
  rintro ⟨r, hr, hstatus⟩
  obtain ⟨env', c, hc', hplan⟩ := h.planned t k v hv
  obtain ⟨-, rfl⟩ := Prod.mk.inj (Option.some.inj (hc.symm.trans hc'))
  rw [hr] at hplan
  rcases onVersion_cases hplan with ⟨_, _, hc, -⟩ | ⟨r', hr', hcase⟩
  · cases hc
  · obtain rfl := Option.some.inj hr'
    rcases hcase with ⟨_, _, -, hhit, -⟩ | ⟨_, _, _, _, _, hc, -⟩ | ⟨_, _, _, _, hc, -⟩ | ⟨_, _, hc, -⟩
    · exact hstatus (atStatus_iff.1 hhit).2
    all_goals cases hc

/-- An open claim has written nothing but its row. -/
theorem key_of_claim {k : StepKey} (hrun : Run Step init tr s) {t : T} {env : StepEnv} {d : UUID}
    {p : PipelineStep} {v : DocumentStep} (hc : (s.txn t).call? = some (env, .claim d p))
    (hv : (k, v) ∈ (s.txn t).written) : k = (d, p) := by
  obtain ⟨env', c, hc', hplan⟩ := (inv_run inv_init hrun).planned t k v hv
  obtain ⟨-, rfl⟩ := Prod.mk.inj (Option.some.inj (hc.symm.trans hc'))
  rcases onVersion_cases hplan with ⟨_, _, hc, -⟩ | ⟨r, hr, hcase⟩
  · cases hc
  · rcases hcase with ⟨_, _, hc, hhit, -⟩ | ⟨_, _, _, _, _, hc, -⟩ | ⟨_, _, _, _, hc, -⟩ |
      ⟨_, _, hc, -⟩
    · obtain ⟨rfl, rfl⟩ := StepCall.claim.inj hc
      exact (key_committed hrun hr).symm.trans (key_of_atStatus hhit)
    all_goals cases hc

/-- Of two claims that return the row one after the other, without a reset between, the first has
been rolled back. -/
theorem rollback_of_second_winner {k : StepKey} {pre a b : List (StepEvent T)} {t t' : T}
    {env env' : StepEnv} {w w' : List (StepKey × DocumentStep)}
    (h : Run Step init
      (pre ++ (a ++ .finish t env (.claim k.1 k.2) w :: b ++ [.finish t' env' (.claim k.1 k.2) w'])) s)
    (hreset : ∀ e ∈ b, e.commitsReset k = false) (ht : t ≠ t') (hw : w ≠ []) (hw' : w' ≠ []) :
    .rollback t ∈ b := by
  rw [List.append_assoc, ← List.append_assoc pre, List.cons_append] at h
  obtain ⟨m₁, hrun₁, h⟩ := Run.append_iff.1 h
  obtain ⟨m₂, hfinish, h⟩ := Run.cons_iff.1 h
  obtain ⟨m₃, hrun₂, hfinish'⟩ := Run.snoc_iff.1 h
  have hrun₃ : Run Step init (pre ++ a ++ .finish t env (.claim k.1 k.2) w :: b) m₃ :=
    Run.append_iff.2 ⟨m₁, hrun₁, Run.cons hfinish hrun₂⟩
  have hinv₂ : Inv m₂ := inv_step (inv_run inv_init hrun₁) hfinish
  have hinv₃ : Inv m₃ := inv_run inv_init hrun₃
  have hfirst : m₁.txn t = .active env (.claim k.1 k.2) [] w ∧
      m₂.txn t = .returned env (.claim k.1 k.2) w := by
    cases hfinish with
    | finish hactive => exact ⟨hactive, Function.update_self _ _ _⟩
  have hsecond : m₃.txn t' = .active env' (.claim k.1 k.2) [] w' := by
    cases hfinish' with
    | finish hactive => exact hactive
  obtain ⟨⟨k₁, v⟩, hv⟩ := List.exists_mem_of_ne_nil _ hw
  obtain ⟨⟨k₂, v'⟩, hv'⟩ := List.exists_mem_of_ne_nil _ hw'
  obtain rfl : k₁ = k :=
    key_of_claim hrun₁ (t := t) (by rw [hfirst.1]; rfl) (by rw [hfirst.1]; exact hv)
  have hcall' : (m₃.txn t').call? = some (env', .claim k₁.1 k₁.2) := by rw [hsecond]; rfl
  have hwritten' : (k₂, v') ∈ (m₃.txn t').written := by rw [hsecond]; exact hv'
  obtain rfl : k₂ = k₁ := key_of_claim hrun₃ hcall' hwritten'
  rcases returned_run hfirst.2 hrun₂ with hopen | hcommit | hrollback
  · have hheld : (k₂, v) ∈ (m₃.txn t).written := by
      rw [hopen]
      exact hv
    exact absurd (hinv₃.locks.writer_unique hheld hwritten').1 ht
  · -- the first claim was committed, so the second one could not find the row pending
    refine absurd ?_ (not_taken_of_written hinv₃ hcall' hwritten')
    obtain ⟨b₁, b₂, m, m', rfl, hb₁, hstep, hb₂⟩ := hrun₂.exists_step_of_mem hcommit
    have hm : Inv m := inv_run hinv₂ hb₁
    have htaken : Inv m' ∧ Taken k₂ m' := ⟨inv_step hm hstep, taken_commit hm hv hstep⟩
    refine (hb₂.mono_inv (fun s => Inv s ∧ Taken k₂ s) (fun e => e.commitsReset k₂ = false) htaken
      ?_ fun e he => hreset e ?_).2
    · exact fun s e s' hk hs he => ⟨inv_step hs.1 he, taken_step hs.1 hs.2 he hk⟩
    · exact List.mem_append_right _ (List.mem_cons_of_mem _ he)
  · exact hrollback

end StepSessions

/-! ## The theorem -/

/-- In every run and between any two of its points without a committed reset of the row between
them: of two claims that complete, neither of which is rolled back, one returns nothing.  And the
attempt counter of a committed row is the number of committed claims since its last reset. -/
theorem claim_exclusive [DecidableEq T] {tr : List (StepEvent T)} {s : StepSessions T}
    (h : Run StepSessions.Step StepSessions.init tr s) (k : StepKey) :
    (∀ pre mid post, tr = pre ++ mid ++ post → (∀ e ∈ mid, e.commitsReset k = false) →
      ∀ t env w t' env' w', .finish t env (.claim k.1 k.2) w ∈ mid →
        .finish t' env' (.claim k.1 k.2) w' ∈ mid → t ≠ t' → .rollback t ∉ tr → .rollback t' ∉ tr →
        oneOrNone (w.map Prod.snd) = .ok none ∨ oneOrNone (w'.map Prod.snd) = .ok none) ∧
    ∀ r, (s.cell k).committed = some r → r.attempt = claimsSinceReset k tr := by
  constructor
  · rintro pre mid post rfl hreset t env w t' env' w' hmem hmem' ht hroll hroll'
    by_contra hboth
    have hw : w ≠ [] := by
      rintro rfl
      exact hboth (.inl rfl)
    have hw' : w' ≠ [] := by
      rintro rfl
      exact hboth (.inr rfl)
    obtain ⟨m, hrun, -⟩ := Run.append_iff.1 h
    obtain ⟨a, b, rfl⟩ := List.append_of_mem hmem
    have hne : StepEvent.finish t' env' (.claim k.1 k.2) w' ≠ .finish t env (.claim k.1 k.2) w := by
      intro heq
      exact ht (StepEvent.finish.inj heq).1.symm
    rcases List.mem_append.1 hmem' with hbefore | hafter
    · obtain ⟨a₁, a₂, rfl⟩ := List.append_of_mem hbefore
      refine hroll' (List.mem_append_left _ (List.mem_append_right _ ?_))
      obtain ⟨m', hrun', -⟩ := Run.append_iff.1 (show Run _ _
        ((pre ++ (a₁ ++ .finish t' env' (.claim k.1 k.2) w' :: a₂ ++
          [.finish t env (.claim k.1 k.2) w])) ++ b) m by simpa using hrun)
      have := StepSessions.rollback_of_second_winner hrun'
        (fun e he => hreset e (by simp [he])) ht.symm hw' hw
      simp [this]
    · obtain ⟨b₁, b₂, rfl⟩ := List.append_of_mem (List.mem_of_ne_of_mem hne hafter)
      refine hroll (List.mem_append_left _ (List.mem_append_right _ ?_))
      obtain ⟨m', hrun', -⟩ := Run.append_iff.1 (show Run _ _
        ((pre ++ (a ++ .finish t env (.claim k.1 k.2) w :: b₁ ++
          [.finish t' env' (.claim k.1 k.2) w'])) ++ b₂) m by simpa using hrun)
      have := StepSessions.rollback_of_second_winner hrun'
        (fun e he => hreset e (by simp [he])) ht hw hw'
      simp [this]
  · intro r hr
    have hcount := StepSessions.counted_run h k
    rwa [StepSessions.Counted, hr] at hcount

/-- Two claims of a new row: one is committed while the other one waits, which then returns
nothing. -/
theorem claim_exclusive_two_claims :
    let env : StepEnv := ⟨0, fun s => ⟨(stepOrder.idxOf s : BitVec 128)⟩, fun _ => true⟩
    let d : UUID := ⟨7⟩
    let row := fun s => StepRepository.newStep env d 3 s
    let won := (StepRepository.claimUpdate env d .store).set (row .store)
    let rows := stepOrder.map fun s => ((d, s), row s)
    let tr : List (StepEvent ℕ) :=
      .start 0 env (.ensureSteps d 3) :: (stepOrder.map fun s => .write 0 (d, s)) ++
      [.finish 0 env (.ensureSteps d 3) rows, .commit 0 env (.ensureSteps d 3) rows,
        .start 1 env (.claim d .store), .start 2 env (.claim d .store),
        .write 1 (d, .store), .finish 1 env (.claim d .store) [((d, .store), won)],
        .commit 1 env (.claim d .store) [((d, .store), won)],
        .skip 2 (d, .store), .finish 2 env (.claim d .store) []]
    ∃ s, Run StepSessions.Step StepSessions.init tr s ∧ (s.cell (d, .store)).committed = some won ∧
      won.attempt = claimsSinceReset (d, .store) tr ∧
      (oneOrNone [won] = .ok none ∨ oneOrNone ([] : List DocumentStep) = .ok none) := by
  intro env d row won rows tr
  have hrun : ∃ s, Run StepSessions.Step StepSessions.init tr s ∧
      (s.cell (d, .store)).committed = some won := by
    refine ⟨_, .cons (.start rfl (show IsInt4 3 by decide)) <|
      .cons (.write rfl (by decide) rfl rfl) <|
      .cons (.write rfl (by decide) rfl rfl) <| .cons (.write rfl (by decide) rfl rfl) <|
      .cons (.write rfl (by decide) rfl rfl) <| .cons (.write rfl (by decide) rfl rfl) <|
      .cons (.write rfl (by decide) rfl rfl) <| .cons (.finish rfl) <| .cons (.commit rfl) <|
      .cons (.start rfl trivial) <| .cons (.start rfl trivial) <|
      .cons (.write rfl (by decide) rfl rfl) <| .cons (.finish rfl) <| .cons (.commit rfl) <|
      .cons (.skip rfl (by decide) rfl rfl) <| .cons (.finish rfl) <| .nil, rfl⟩
  obtain ⟨s, hrun, hwon⟩ := hrun
  refine ⟨s, hrun, hwon, (claim_exclusive hrun (d, .store)).2 _ hwon, ?_⟩
  refine (claim_exclusive hrun (d, .store)).1 [] tr [] (by simp) (by decide) 1 env
    [((d, .store), won)] 2 env [] ?_ ?_ (by decide) ?_ ?_
  all_goals simp [tr, stepOrder]
end Ipa
