import Ipa.Db.Extraction.Invariant

/-!
# What concurrent appends leave

`add_versions`: after any interleaving of transactions that run `add`, the committed versions of every
document are `1, …, n` with the last one current, whatever was returned was returned once, and the
committed rows are those that the committed adds alone leave.
-/

namespace Ipa

open ExtractionRepository ReadCommitted Transition

variable {T : Type*}

/-- The rows that `add` has returned, in the order of the returns. -/
def returnedRows (tr : List (AddEvent T)) : List ExtractionVersion :=
  tr.filterMap fun e =>
    match e with
    | .insert _ row => some row
    | _ => none

/-- The rows of the committed adds, in the order of the commits. -/
def addedRows (tr : List (AddEvent T)) : List ExtractionVersion :=
  tr.filterMap fun e =>
    match e with
    | .commit _ row => some row
    | _ => none

/-- What one add that runs alone does to the rows: its row becomes the current one of the document. -/
def append (rows : ExtractionKey → Option ExtractionVersion) (row : ExtractionVersion) :
    ExtractionKey → Option ExtractionVersion := fun k =>
  if k = row.key then some row
  else if k.1 = row.documentId then (rows k).map unflag
  else rows k

namespace AddSessions

variable {s s' : AddSessions T} {tr : List (AddEvent T)} {d : UUID} {n : ℕ}

/-! ## The readers -/

theorem map_key_filterMap_sublist {K R : Type*} {key : R → K} {f : K → Option R}
    (hf : ∀ k r, f k = some r → key r = k) (l : List K) : ((l.filterMap f).map key).Sublist l := by
  induction l with
  | nil => exact List.Sublist.refl _
  | cons k l ih =>
    cases hk : f k with
    | none =>
      rw [List.filterMap_cons_none hk]
      exact ih.cons k
    | some r =>
      rw [List.filterMap_cons_some hk, List.map_cons, hf k r hk]
      exact ih.cons_cons k

theorem nodup_versions (h : Inv s) : ((s.committedRows d).map (·.version)).Nodup := by
  have hkeys : ((s.committedRows d).map ExtractionVersion.key).Nodup := by
    refine h.nodup.sublist (map_key_filterMap_sublist (fun k r hk => ?_) s.index)
    split_ifs at hk
    exact h.keyed k r hk
  refine List.Nodup.of_map (fun v => (d, v)) ?_
  have hsame : ((s.committedRows d).map (·.version)).map (fun v => (d, v)) =
      (s.committedRows d).map ExtractionVersion.key := by
    rw [List.map_map]
    refine List.map_congr_left fun r hr => ?_
    exact (h.keyed _ _ ((mem_committedRows h).1 hr)).symm
  rwa [hsame]

theorem perm_versions (h : Inv s) (ht : Top s.committed d n) :
    ((s.committedRows d).map (·.version)).Perm (List.range' 1 n) := by
  rw [List.perm_ext_iff_of_nodup (nodup_versions h) List.nodup_range']
  intro v
  have hdense := ht.dense v
  rw [List.mem_range'_1, List.mem_map]
  constructor
  · rintro ⟨r, hr, rfl⟩
    have := hdense.1 ⟨r, (mem_committedRows h).1 hr⟩
    omega
  · intro hv
    obtain ⟨r, hr⟩ := hdense.2 (by omega)
    have hversion : r.version = v := congrArg Prod.snd (h.keyed _ _ hr)
    exact ⟨r, (mem_committedRows h).2 (hversion ▸ hr), hversion⟩

/-- Rows that are told apart by their version are listed newest first. -/
theorem listVersions_eq (h : Inv s) (ht : Top s.committed d n) :
    (listVersions (s.committedRows d)).map (·.version) = (List.range' 1 n).reverse := by
  have hperm : ((listVersions (s.committedRows d)).map (·.version)).Perm (List.range' 1 n).reverse :=
    (((List.perm_insertionSort _ _).map _).trans (perm_versions h ht)).trans
      (List.reverse_perm _).symm
  have hsorted : ((listVersions (s.committedRows d)).map (·.version)).Pairwise (· ≥ ·) := by
    have : Std.Total fun r r' : ExtractionVersion => r'.version ≤ r.version :=
      ⟨fun r r' => Nat.le_total r'.version r.version⟩
    have : IsTrans ExtractionVersion fun r r' => r'.version ≤ r.version :=
      ⟨fun _ _ _ hab hbc => Nat.le_trans hbc hab⟩
    rw [List.pairwise_map]
    exact List.pairwise_insertionSort _ _
  refine hperm.eq_of_pairwise (fun a b _ _ hab hba => Nat.le_antisymm hba hab) hsorted ?_
  rw [List.pairwise_reverse]
  exact List.pairwise_le_range'

/-- The row that `get` returns when it is asked for what only version `v` has. -/
theorem oneOrNone_filter (h : Inv s) {p : ExtractionVersion → Bool} {v : ℕ}
    (hp : ∀ r ∈ s.committedRows d, p r ↔ r.version = v) :
    oneOrNone ((s.committedRows d).filter p) = .ok (s.committed (d, v)) := by
  have hnd : ((s.committedRows d).filter p).Nodup :=
    (List.Nodup.of_map _ (nodup_versions h)).filter _
  have hmem : ∀ r, r ∈ (s.committedRows d).filter p ↔ r ∈ (s.committed (d, v)).toList := by
    intro r
    rw [List.mem_filter, Option.mem_toList]
    constructor
    · rintro ⟨hr, hpr⟩
      rw [← (hp r hr).1 hpr]
      exact (mem_committedRows h).1 hr
    · intro hr
      have hversion : r.version = v := congrArg Prod.snd (h.keyed _ _ hr)
      have hrow : r ∈ s.committedRows d := (mem_committedRows h).2 (hversion ▸ hr)
      exact ⟨hrow, (hp r hrow).2 hversion⟩
  have hperm := (List.perm_ext_iff_of_nodup hnd (by cases s.committed (d, v) <;> simp)).2 hmem
  cases hrow : s.committed (d, v) with
  | none =>
    rw [hrow] at hperm
    rw [List.Perm.eq_nil hperm]
    rfl
  | some r =>
    rw [hrow] at hperm
    rw [List.perm_singleton.1 hperm]
    rfl

theorem get_none_eq (h : Inv s) (ht : Top s.committed d n) :
    get (s.committedRows d) none = .ok (s.committed (d, n)) :=
  oneOrNone_filter h fun _ hr => ht.current _ _ ((mem_committedRows h).1 hr)

/-! ## What a run returns and leaves -/

variable [DecidableEq T] {e : AddEvent T}

/-- Only a commit changes the committed rows, and it does what its add does alone. -/
theorem committed_step (h : Inv s) (he : Step s e s') :
    s'.committed = (addedRows [e]).foldl append s.committed := by
  cases he with
  | select | update | skip | conflict => rfl
  | unflag => exact funext fun _ => Store.committed_write _ _ _ _ _
  | insert => exact funext fun _ => Store.committed_write _ _ _ _ _
  | rollback => exact funext fun _ => Store.committed_rollback _ _ _
  | commit hreturned => exact funext fun k => committed_commit h hreturned k

theorem committed_run (h : Run Step init tr s) :
    s.committed = (addedRows tr).foldl append fun _ => none := by
  refine h.rec_inv (fun tr s => s.committed = (addedRows tr).foldl append fun _ => none) rfl ?_
  intro tr s e s' hrun ih he
  have happend : addedRows (tr ++ [e]) = addedRows tr ++ addedRows [e] := List.filterMap_append
  rw [happend, List.foldl_append, ← ih]
  exact committed_step (inv_run hrun) he

/-- A returned row is committed, or its transaction is open. -/
theorem returned_kept (h : Run Step init tr s) {row : ExtractionVersion} (hr : row ∈ returnedRows tr) :
    s.committed row.key ≠ none ∨ ∃ t w, s.txn t = .returned row w := by
  refine h.rec_inv (fun tr s => ∀ row ∈ returnedRows tr,
    s.committed row.key ≠ none ∨ ∃ t w, s.txn t = .returned row w) (by simp [returnedRows]) ?_ row hr
  intro tr s e s' hrun ih he row hr
  have hinv := inv_run hrun
  have hreturned : returnedRows (tr ++ [e]) = returnedRows tr ++ returnedRows [e] :=
    List.filterMap_append
  have hcommitted := committed_step hinv he
  have hkeep : s.committed row.key ≠ none → s'.committed row.key ≠ none := by
    intro hsome
    rw [hcommitted]
    cases e with
    | commit t row' =>
      show append s.committed row' row.key ≠ none
      unfold append
      split_ifs
      · simp
      · simpa using hsome
      · exact hsome
    | _ => exact hsome
  rw [hreturned, List.mem_append] at hr
  rcases hr with hr | hr
  · rcases ih row hr with hsome | ⟨t, w, ht⟩
    · exact .inl (hkeep hsome)
    · cases he with
      | @commit t' row' w' hret =>
        by_cases htt : t = t'
        · subst htt
          rw [ht] at hret
          obtain ⟨rfl, rfl⟩ := AddTxn.returned.inj hret
          left
          rw [hcommitted]
          show append s.committed row row.key ≠ none
          simp [append]
        · exact .inr ⟨t, w, by simpa [Function.update_of_ne htt] using ht⟩
      | @select t' _ _ hphase | @update t' _ _ hphase | @skip t' _ _ _ _ _ hphase
      | @unflag t' _ _ _ _ _ _ hphase | @insert t' _ _ _ _ _ hphase | @conflict t' _ _ _ _ hphase
      | @rollback t' hphase =>
        have htt : t ≠ t' := by
          rintro rfl
          rw [ht] at hphase
          first | exact hphase.elim | cases hphase
        exact .inr ⟨t, w, by simpa [Function.update_of_ne htt] using ht⟩
  · cases he with
    | @insert t' =>
      obtain rfl := List.mem_singleton.1 hr
      exact .inr ⟨t', _, Function.update_self _ _ _⟩
    | _ => cases hr

/-- No version of a document is returned twice. -/
theorem nodup_returnedRows (h : Run Step init tr s) :
    ((returnedRows tr).map ExtractionVersion.key).Nodup := by
  refine h.rec_inv (fun tr _ => ((returnedRows tr).map ExtractionVersion.key).Nodup)
    List.nodup_nil ?_
  intro tr s e s' hrun ih he
  have hreturned : returnedRows (tr ++ [e]) = returnedRows tr ++ returnedRows [e] :=
    List.filterMap_append
  rw [hreturned, List.map_append]
  cases he with
  | @insert t call version w row env hupdating hrow hrefs hwaits hfails =>
    subst hrow
    have hinv := inv_run hrun
    obtain ⟨hnone, hfree, -⟩ := insert_new hinv hupdating hwaits hfails
    refine ih.append (List.nodup_singleton _) ?_
    rw [List.disjoint_right]
    rintro _ hk hk'
    obtain rfl := List.mem_singleton.1 hk
    obtain ⟨row, hmem, hkey⟩ := List.mem_map.1 hk'
    rw [← hkey] at hnone hfree
    rcases returned_kept hrun hmem with hsome | ⟨t', w', ht'⟩
    · exact hsome hnone
    · have hdoc := hinv.document t'
      rw [ht'] at hdoc
      have hmem' : (row.key, row) ∈ (s.txn t').written := by
        rw [ht']
        exact hdoc.2.1
      have hwr := (hinv.locks _ _ _).2 hmem'
      rw [hfree] at hwr
      cases hwr
  | _ => simpa [returnedRows] using ih

/-- `add` has raised, or the transaction is over. -/
def Done (p : AddTxn) : Prop := (∃ w, p = .raised w) ∨ p = .ended

theorem done_step {t : T} (hd : Done (s.txn t)) (he : Step s e s') :
    Done (s'.txn t) ∧ e ≠ .conflict t ∧ ∀ row, e ≠ .commit t row := by
  cases he with
  | @rollback t' hphase =>
    refine ⟨?_, by simp, by simp⟩
    by_cases htt : t = t'
    · subst htt
      exact .inr (Function.update_self _ _ _)
    · simpa [Function.update_of_ne htt] using hd
  | @select t' _ _ hphase | @update t' _ _ hphase | @skip t' _ _ _ _ _ hphase
  | @unflag t' _ _ _ _ _ _ hphase | @insert t' _ _ _ _ _ hphase | @conflict t' _ _ _ _ hphase
  | @commit t' _ _ hphase =>
    have htt : t ≠ t' := by
      rintro rfl
      rw [hphase] at hd
      rcases hd with ⟨w, hd⟩ | hd <;> cases hd
    refine ⟨by simpa [Function.update_of_ne htt] using hd, ?_, ?_⟩
    · simp [htt.symm]
    · simp [htt.symm]

theorem done_run {t : T} (hd : Done (s.txn t)) (h : Run Step s tr s') :
    .conflict t ∉ tr ∧ ∀ row, .commit t row ∉ tr := by
  have key : Done (s'.txn t) ∧ .conflict t ∉ tr ∧ ∀ row, .commit t row ∉ tr := by
    refine h.rec_inv (fun tr s' => Done (s'.txn t) ∧ .conflict t ∉ tr ∧ ∀ row, .commit t row ∉ tr)
      ⟨hd, by simp, by simp⟩ ?_
    intro tr m e m' _ ih he
    obtain ⟨hdone, hconflict, hcommit⟩ := done_step ih.1 he
    refine ⟨hdone, ?_, fun row => ?_⟩
    · simpa [ih.2.1] using hconflict.symm
    · simpa [ih.2.2 row] using (hcommit row).symm
  exact key.2

/-- A transaction in which `add` raises is not committed. -/
theorem not_committed_of_conflict (h : Run Step init tr s) {t : T} (hc : .conflict t ∈ tr)
    (row : ExtractionVersion) : .commit t row ∉ tr := by
  intro hrow
  obtain ⟨a, b, m, m', rfl, ha, hstep, hb⟩ := h.exists_step_of_mem hrow
  have hended : Done (m'.txn t) := by
    cases hstep with
    | commit => exact .inr (Function.update_self _ _ _)
  rcases List.mem_append.1 hc with hc | hc
  · obtain ⟨a₁, a₂, m₁, m₁', rfl, -, hstep₁, ha₂⟩ := ha.exists_step_of_mem hc
    have hraised : Done (m₁'.txn t) := by
      cases hstep₁ with
      | conflict => exact .inl ⟨_, Function.update_self _ _ _⟩
    exact (done_run hraised (ha₂.snoc hstep)).2 row (by simp)
  · rcases List.mem_cons.1 hc with hc | hc
    · cases hc
    · exact (done_run hended hb).1 hc

end AddSessions

/-- After any interleaving of transactions that run `add`, each committed when it has returned and
rolled back when it has raised: the committed versions of every document are `1, …, n`, the current
row is version `n`, and the readers agree with this; nothing was returned twice; and an add that
raised has left nothing, the committed rows being what the committed adds leave one after another. -/
theorem add_versions [DecidableEq T] {tr : List (AddEvent T)} {s : AddSessions T}
    (h : Run AddSessions.Step AddSessions.init tr s) :
    (∀ d, ∃ n,
      ((s.committedRows d).map (·.version)).Perm (List.range' 1 n) ∧
      (∀ r ∈ s.committedRows d, r.isCurrent = true ↔ r.version = n) ∧
      (∃ current, get (s.committedRows d) none = .ok current ∧
        current.map (·.version) = if n = 0 then none else some n) ∧
      (listVersions (s.committedRows d)).map (·.version) = (List.range' 1 n).reverse) ∧
    ((returnedRows tr).map ExtractionVersion.key).Nodup ∧
    (∀ t, .conflict t ∈ tr → ∀ row, .commit t row ∉ tr) ∧
    s.committed = (addedRows tr).foldl append fun _ => none := by
  have hinv := AddSessions.inv_run h
  refine ⟨fun d => ?_, AddSessions.nodup_returnedRows h,
    fun t hc row => AddSessions.not_committed_of_conflict h hc row, AddSessions.committed_run h⟩
  obtain ⟨n, htop, -⟩ := hinv.top d
  refine ⟨n, AddSessions.perm_versions hinv htop, fun r hr => ?_,
    ⟨s.committed (d, n), AddSessions.get_none_eq hinv htop, ?_⟩,
    AddSessions.listVersions_eq hinv htop⟩
  · exact htop.current _ _ ((AddSessions.mem_committedRows hinv).1 hr)
  · by_cases hn : n = 0
    · have hnone : s.committed (d, n) = none := by
        rw [Option.eq_none_iff_forall_ne_some]
        intro r hr
        have := (htop.dense n).1 ⟨r, hr⟩
        omega
      rw [hnone, if_pos hn]
      rfl
    · obtain ⟨r, hr⟩ := (htop.dense n).2 ⟨by omega, le_refl n⟩
      have hversion : r.version = n := congrArg Prod.snd (hinv.keyed _ _ hr)
      rw [hr, if_neg hn, Option.map_some, hversion]

/-- Two adds that have read the same maximum: the first one is committed, the second one waits for
its row, collides and leaves nothing. -/
theorem add_versions_race :
    let env : AddEnv := ⟨⟨1⟩, 0, true, true⟩
    let call : AddCall := ⟨⟨7⟩, ⟨8⟩, 1, .model, 1, "m", none, none, none⟩
    let row := newVersion env call 1
    let tr : List (AddEvent ℕ) := [.select 0 call, .select 1 call, .update 0, .insert 0 row,
      .commit 0 row, .update 1, .unflag 1 (⟨7⟩, 1), .conflict 1, .rollback 1]
    ∃ s, Run AddSessions.Step AddSessions.init tr s ∧ s.committed (⟨7⟩, 1) = some row ∧
      ∃ n, ((s.committedRows ⟨7⟩).map (·.version)).Perm (List.range' 1 n) := by
  intro env call row tr
  have hrun : ∃ s, Run AddSessions.Step AddSessions.init tr s ∧ s.committed (⟨7⟩, 1) = some row := by
    refine ⟨_, .cons (.select rfl rfl (by decide)) <| .cons (.select rfl rfl (by decide)) <|
      .cons (.update rfl) <| .cons (.insert env rfl rfl ⟨rfl, rfl⟩ ?_ ?_) <| .cons (.commit rfl) <|
      .cons (.update rfl) <| .cons (.unflag rfl ?_ rfl rfl rfl) <| .cons (.conflict env rfl ?_) <|
      .single (.rollback ?_), rfl⟩
    · exact trivial
    · intro k hk
      cases hk
    · intro k hk
      cases hk
    · exact List.mem_singleton.2 rfl
    · refine .inl ⟨(⟨7⟩, 1), List.mem_singleton.2 rfl, ?_, unflag row, rfl, rfl, .inl rfl⟩
      intro t v hw
      exact (Prod.mk.inj (Option.some.inj hw)).1.symm
  obtain ⟨s, hrun, hrow⟩ := hrun
  obtain ⟨n, hperm, -⟩ := (add_versions hrun).1 ⟨7⟩
  exact ⟨s, hrun, hrow, n, hperm⟩

end Ipa
