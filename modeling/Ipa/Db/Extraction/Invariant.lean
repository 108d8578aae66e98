import Ipa.Db.Extraction.Model

/-!
# Concurrent appends keep the versions dense

`AddSessions.Inv` is kept by every step (`inv_step`).  Its core is `Top`: the committed versions of a
document are `1, …, n` and only the last one is current.  A transaction that is about to insert
`n + 1` holds the lock of row `n` (`PhaseOk`), so at most one of them gets that far, and one that has
read an older maximum collides.
-/

namespace Ipa

open ExtractionRepository ReadCommitted Transition

namespace AddSessions

variable {T : Type*}

/-- The committed row with a key. -/
def committed (s : AddSessions T) (k : ExtractionKey) : Option ExtractionVersion :=
  (s.cell k).committed

/-- The committed versions of `d` are `1, …, n`, and only the last one is current. -/
structure Top (row : ExtractionKey → Option ExtractionVersion) (d : UUID) (n : ℕ) : Prop where
  dense : ∀ v, (∃ r, row (d, v) = some r) ↔ 1 ≤ v ∧ v ≤ n
  current : ∀ v r, row (d, v) = some r → (r.isCurrent = true ↔ v = n)

/-- What a transaction on `d` knows when the committed versions are `1, …, n`. -/
def PhaseOk (d : UUID) (n : ℕ) : AddTxn → Prop
  | .selected call v => call.documentId = d → 1 ≤ v ∧ v ≤ n + 1
  | .updating call v todo w => call.documentId = d → 1 ≤ v ∧ v ≤ n + 1 ∧
      (v = n + 1 → 1 ≤ n → (d, n) ∈ todo ∨ ∃ r, ((d, n), r) ∈ w)
  | .returned row w => row.documentId = d → row.version = n + 1 ∧ (1 ≤ n → ∃ r, ((d, n), r) ∈ w)
  | .idle | .raised _ | .ended => True

/-- A transaction deals with one document only, and what it returns is a current row it has
written. -/
def OneDocument : AddTxn → Prop
  | .updating call _ todo w =>
    (∀ k ∈ todo, k.1 = call.documentId) ∧ ∀ k r, (k, r) ∈ w → k.1 = call.documentId
  | .returned row w => row.isCurrent ∧ (row.key, row) ∈ w ∧ ∀ k r, (k, r) ∈ w → k.1 = row.documentId
  | .idle | .selected _ _ | .raised _ | .ended => True

/-- An uncommitted version takes the flag off a current row, or is the new row of its writer. -/
def Planned (row : ExtractionKey → Option ExtractionVersion) (p : AddTxn) (k : ExtractionKey)
    (v : ExtractionVersion) : Prop :=
  (∃ r, row k = some r ∧ r.isCurrent = true ∧ v = unflag r) ∨
    row k = none ∧ k = v.key ∧ ∃ w, p = .returned v w

/-- The rows, the locks and the transactions fit together. -/
structure Inv (s : AddSessions T) : Prop where
  locks : Locks s.cell fun t => (s.txn t).written
  nodup : s.index.Nodup
  indexed : ∀ k, s.committed k ≠ none ∨ (s.cell k).writer ≠ none → k ∈ s.index
  keyed : ∀ k r, s.committed k = some r → r.key = k
  planned : ∀ t k v, (k, v) ∈ (s.txn t).written → Planned s.committed (s.txn t) k v
  document : ∀ t, OneDocument (s.txn t)
  top : ∀ d, ∃ n, Top s.committed d n ∧ ∀ t, PhaseOk d n (s.txn t)

theorem inv_init : Inv (init : AddSessions T) where
  locks := Locks.empty
  nodup := List.nodup_nil
  indexed k hk := by simp [committed, init, Store.empty] at hk
  keyed k r hr := by simp [committed, init, Store.empty] at hr
  planned t k v hv := absurd hv List.not_mem_nil
  document t := trivial
  top d := by
    refine ⟨0, ⟨fun v => ?_, fun v r hr => ?_⟩, fun t => trivial⟩
    · simp only [committed, init, Store.empty, reduceCtorEq, exists_false, false_iff]
      omega
    · simp [committed, init, Store.empty] at hr

/-! ## Reading the committed rows -/

variable {s s' : AddSessions T} {d : UUID} {n : ℕ}

theorem mem_committedRows (h : Inv s) {r : ExtractionVersion} :
    r ∈ s.committedRows d ↔ s.committed (d, r.version) = some r := by
  simp only [committedRows, rowsOf, List.mem_filterMap]
  constructor
  · rintro ⟨k, -, hk⟩
    split_ifs at hk with hd
    obtain rfl := h.keyed k r hk
    rw [← hd]
    exact hk
  · intro hr
    exact ⟨(d, r.version), h.indexed _ (.inl (by rw [hr]; simp)), by rw [if_pos rfl]; exact hr⟩

theorem nextVersion_committedRows (h : Inv s) (ht : Top s.committed d n) :
    nextVersion (s.committedRows d) = n + 1 := by
  unfold nextVersion
  have hmem : ∀ v, v ∈ (s.committedRows d).map (·.version) ↔ 1 ≤ v ∧ v ≤ n := by
    intro v
    rw [← ht.dense v, List.mem_map]
    constructor
    · rintro ⟨r, hr, rfl⟩
      exact ⟨r, (mem_committedRows h).1 hr⟩
    · rintro ⟨r, hr⟩
      have hv : r.version = v := congrArg Prod.snd (h.keyed _ _ hr)
      exact ⟨r, (mem_committedRows h).2 (hv ▸ hr), hv⟩
  congr 1
  cases hmax : ((s.committedRows d).map (·.version)).max? with
  | none =>
    rw [List.max?_eq_none_iff] at hmax
    rw [hmax] at hmem
    have := hmem n
    simp only [List.not_mem_nil, false_iff, not_and, not_le] at this
    simp only [Option.getD_none]
    omega
  | some m =>
    rw [List.max?_eq_some_iff] at hmax
    obtain ⟨hm, hle⟩ := hmax
    have hm' := (hmem m).1 hm
    have hn := hle n ((hmem n).2 ⟨by omega, le_refl n⟩)
    simp only [Option.getD_some]
    omega

/-! ## What a transaction knows -/

section Phases

variable {row : ExtractionKey → Option ExtractionVersion} {call : AddCall} {v : ℕ}
  {todo : List ExtractionKey} {w : List (ExtractionKey × ExtractionVersion)} {k : ExtractionKey}
  {r : ExtractionVersion}

theorem Top.last (h : Top row d n) (hn : 1 ≤ n) : ∃ r, row (d, n) = some r ∧ r.isCurrent = true := by
  obtain ⟨r, hr⟩ := (h.dense n).2 ⟨hn, le_refl n⟩
  exact ⟨r, hr, (h.current n r hr).2 rfl⟩

/-- A transaction that has read its version goes through the current rows. -/
theorem PhaseOk.update (h : Inv s) (htop : Top s.committed d n) (hok : PhaseOk d n (.selected call v)) :
    PhaseOk d n (.updating call v (s.currentKeys call.documentId) []) := by
  intro hd
  obtain ⟨hpos, hle⟩ := hok hd
  refine ⟨hpos, hle, fun _ hn => .inl ?_⟩
  obtain ⟨r, hr, hcurrent⟩ := htop.last hn
  refine List.mem_filter.2 ⟨h.indexed _ (.inl (by rw [hr]; simp)), ?_⟩
  have hcell : (s.cell (d, n)).committed = some r := hr
  simp [hd, hcell, hcurrent]

/-- The row that a transaction skips is not the last one. -/
theorem PhaseOk.skip (htop : Top row d n) (hmiss : ∀ r, row k = some r → r.isCurrent = false)
    (hok : PhaseOk d n (.updating call v todo w)) :
    PhaseOk d n (.updating call v (todo.erase k) w) := by
  intro hd
  obtain ⟨hpos, hle, hlast⟩ := hok hd
  refine ⟨hpos, hle, fun hv hn => (hlast hv hn).imp_left fun hmem => ?_⟩
  refine (List.mem_erase_of_ne ?_).2 hmem
  rintro rfl
  obtain ⟨r, hr, hcurrent⟩ := htop.last hn
  rw [hmiss r hr] at hcurrent
  cases hcurrent

theorem PhaseOk.unflag (hok : PhaseOk d n (.updating call v todo w)) :
    PhaseOk d n (.updating call v (todo.erase k) (w ++ [(k, r)])) := by
  intro hd
  obtain ⟨hpos, hle, hlast⟩ := hok hd
  refine ⟨hpos, hle, fun hv hn => ?_⟩
  rcases hlast hv hn with hmem | ⟨r', hr'⟩
  · by_cases hk : (d, n) = k
    · exact .inr ⟨r, by simp [hk]⟩
    · exact .inl ((List.mem_erase_of_ne hk).2 hmem)
  · exact .inr ⟨r', List.mem_append_left _ hr'⟩

/-- A transaction that inserts the next version has written the last one. -/
theorem PhaseOk.insert {env : AddEnv} (hok : PhaseOk d n (.updating call v [] w))
    (hv : call.documentId = d → v = n + 1) :
    PhaseOk d n (.returned (newVersion env call v) (w ++ [(k, r)])) := by
  intro hd
  refine ⟨hv hd, fun hn => ?_⟩
  rcases (hok hd).2.2 (hv hd) hn with hmem | ⟨r', hr'⟩
  · cases hmem
  · exact ⟨r', List.mem_append_left _ hr'⟩

/-- A new version leaves what the others know, unless they are about to publish it too. -/
theorem PhaseOk.succ {p : AddTxn} (hok : PhaseOk d n p)
    (hp : ∀ r w, p = .returned r w → r.documentId ≠ d) : PhaseOk d (n + 1) p := by
  cases p with
  | idle | raised | ended => trivial
  | selected call v =>
    intro hd
    have := hok hd
    omega
  | updating call v todo w =>
    intro hd
    have := hok hd
    omega
  | returned r w => exact fun hd => absurd hd (hp r w rfl)

theorem OneDocument.skip (h : OneDocument (.updating call v todo w)) :
    OneDocument (.updating call v (todo.erase k) w) :=
  ⟨fun k' hk' => h.1 k' (List.mem_of_mem_erase hk'), h.2⟩

theorem OneDocument.unflag (h : OneDocument (.updating call v todo w)) (hk : k ∈ todo) :
    OneDocument (.updating call v (todo.erase k) (w ++ [(k, r)])) := by
  refine ⟨h.skip.1, fun k' r' hk' => ?_⟩
  rcases List.mem_append.1 hk' with hk' | hk'
  · exact h.2 k' r' hk'
  · obtain ⟨rfl, -⟩ := Prod.mk.inj (List.mem_singleton.1 hk')
    exact h.1 k' hk

theorem OneDocument.insert {env : AddEnv} (h : OneDocument (.updating call v todo w)) :
    OneDocument (.returned (newVersion env call v)
      (w ++ [((newVersion env call v).key, newVersion env call v)])) := by
  refine ⟨rfl, by simp, fun k' r' hk' => ?_⟩
  rcases List.mem_append.1 hk' with hk' | hk'
  · exact h.2 k' r' hk'
  · obtain ⟨rfl, -⟩ := Prod.mk.inj (List.mem_singleton.1 hk')
    rfl

end Phases

/-! ## The steps -/

variable [DecidableEq T] {t : T} {e : AddEvent T} {p : AddTxn}

theorem Inv.document_update (h : Inv s) (hdoc : OneDocument p) (t' : T) :
    OneDocument (Function.update s.txn t p t') :=
  (Function.forall_update_iff _ fun _ => OneDocument).2 ⟨hdoc, fun t' _ => h.document t'⟩ t'

theorem Inv.top_update (h : Inv s)
    (hok : ∀ d n, Top s.committed d n → PhaseOk d n (s.txn t) → PhaseOk d n p) (d : UUID) :
    ∃ n, Top s.committed d n ∧ ∀ t', PhaseOk d n (Function.update s.txn t p t') := by
  obtain ⟨n, htop, hphase⟩ := h.top d
  refine ⟨n, htop, (Function.forall_update_iff _ fun _ => PhaseOk d n).2 ⟨?_, fun t' _ => hphase t'⟩⟩
  exact hok d n htop (hphase t)

omit [DecidableEq T] in
/-- Before a transaction returns it has only taken flags off. -/
theorem Inv.unflagged (h : Inv s) (hreturned : ∀ row w, s.txn t ≠ .returned row w)
    {k : ExtractionKey} {v : ExtractionVersion} (hv : (k, v) ∈ (s.txn t).written) :
    Planned s.committed p k v := by
  rcases h.planned t k v hv with hold | ⟨-, -, w, hret⟩
  · exact .inl hold
  · exact absurd hret (hreturned v w)

/-- A transaction changes its phase without writing. -/
theorem Inv.phase (h : Inv s) (hw : p.written = (s.txn t).written)
    (hreturned : ∀ row w, s.txn t ≠ .returned row w) (hdoc : OneDocument p)
    (hok : ∀ d n, Top s.committed d n → PhaseOk d n (s.txn t) → PhaseOk d n p) :
    Inv ⟨s.index, s.cell, Function.update s.txn t p⟩ where
  locks := h.locks.update_phase hw
  nodup := h.nodup
  indexed := h.indexed
  keyed := h.keyed
  planned t' k v hv := by
    rw [read_update AddTxn.written] at hv
    by_cases ht : t' = t
    · subst ht
      rw [if_pos rfl, hw] at hv
      exact h.unflagged hreturned hv
    · rw [if_neg ht] at hv
      simp only [Function.update_of_ne ht]
      exact h.planned t' k v hv
  document := h.document_update hdoc
  top := h.top_update hok

/-- A transaction writes a row that nobody has locked. -/
theorem Inv.write (h : Inv s) {index : List ExtractionKey} {k : ExtractionKey}
    {v : ExtractionVersion} (hindex : index.Nodup) (hsub : ∀ k ∈ s.index, k ∈ index)
    (hk : k ∈ index) (hw : p.written = (s.txn t).written ++ [(k, v)])
    (hfree : (s.cell k).writer = none) (hreturned : ∀ row w, s.txn t ≠ .returned row w)
    (hplan : Planned s.committed p k v) (hdoc : OneDocument p)
    (hok : ∀ d n, Top s.committed d n → PhaseOk d n (s.txn t) → PhaseOk d n p) :
    Inv ⟨index, s.cell.write t k v, Function.update s.txn t p⟩ := by
  have hcommitted : committed ⟨index, s.cell.write t k v, Function.update s.txn t p⟩ = s.committed :=
    funext fun k' => Store.committed_write t k v s.cell k'
  refine ⟨h.locks.write_phase hfree hw, hindex, ?indexed, ?keyed, ?planned, h.document_update hdoc,
    ?top⟩
  case indexed =>
    rw [hcommitted]
    rintro k' (hk' | hk')
    · exact hsub k' (h.indexed k' (.inl hk'))
    · by_cases hkk : k' = k
      · rwa [hkk]
      · simp only [Store.write, Function.update_of_ne hkk] at hk'
        exact hsub k' (h.indexed k' (.inr hk'))
  case keyed =>
    rw [hcommitted]
    exact h.keyed
  case planned =>
    intro t' k' v' hv'
    rw [hcommitted]
    rw [read_update AddTxn.written] at hv'
    by_cases ht : t' = t
    · subst ht
      rw [if_pos rfl, hw] at hv'
      simp only [Function.update_self]
      rcases List.mem_append.1 hv' with hold | hnew
      · exact h.unflagged hreturned hold
      · obtain ⟨rfl, rfl⟩ := Prod.mk.inj (List.mem_singleton.1 hnew)
        exact hplan
    · rw [if_neg ht] at hv'
      simp only [Function.update_of_ne ht]
      exact h.planned t' k' v' hv'
  case top =>
    rw [hcommitted]
    exact h.top_update hok

theorem collides_of_key_eq {call : AddCall} {version : ℕ} {env : AddEnv} {r : ExtractionVersion}
    (hr : r.key = (newVersion env call version).key) : (newVersion env call version).Collides r :=
  ⟨(congrArg Prod.fst hr).symm, .inl (congrArg Prod.snd hr).symm⟩

section Insert

variable {call : AddCall} {version : ℕ} {w : List (ExtractionKey × ExtractionVersion)} {env : AddEnv}

/-- No committed row has the key of a row that an insert may write. -/
theorem Inv.committed_eq_none (h : Inv s)
    (hwaits : ∀ k ∈ s.index, ¬ Waits t (newVersion env call version) (s.cell k))
    (hfails : ∀ k ∈ s.index, ¬ Fails t (newVersion env call version) (s.cell k)) :
    s.committed (newVersion env call version).key = none := by
  by_contra hsome
  obtain ⟨r, hr⟩ := Option.ne_none_iff_exists'.1 hsome
  have hmem := h.indexed _ (.inl hsome)
  have hcol : (newVersion env call version).Collides r := collides_of_key_eq (h.keyed _ _ hr)
  cases hwr : (s.cell (newVersion env call version).key).writer with
  | none =>
    refine hfails _ hmem ⟨by simp [hwr], r, ?_, hcol⟩
    rw [Cell.visible_of_not_heldBy (by simp [Cell.HeldBy, hwr])]
    exact hr
  | some tv =>
    obtain ⟨t', v⟩ := tv
    by_cases ht : t' = t
    · subst ht
      have hv := (h.locks _ _ _).1 hwr
      rcases h.planned t' _ v hv with ⟨r', hr', -, rfl⟩ | ⟨hnone, -⟩
      · obtain rfl : r' = r := Option.some.inj (hr'.symm.trans hr)
        have hcol' : (newVersion env call version).Collides (unflag r') :=
          collides_of_key_eq (show r'.key = _ from h.keyed _ _ hr)
        refine hfails _ hmem ⟨?_, unflag r', Cell.visible_of_writer hwr, hcol'⟩
        intro t'' v' hw'
        rw [hwr, Option.some.injEq, Prod.mk.injEq] at hw'
        exact hw'.1.symm
      · exact hsome hnone
    · exact hwaits _ hmem ⟨t', v, hwr, ht, .inr ⟨r, hr, hcol⟩⟩

omit [DecidableEq T] in
/-- No open transaction has written a row with that key either. -/
theorem Inv.writer_eq_none (h : Inv s) (hupdating : s.txn t = .updating call version [] w)
    (hwaits : ∀ k ∈ s.index, ¬ Waits t (newVersion env call version) (s.cell k))
    (hnew : s.committed (newVersion env call version).key = none) :
    (s.cell (newVersion env call version).key).writer = none := by
  by_contra hsome
  obtain ⟨⟨t', v⟩, hwr⟩ := Option.ne_none_iff_exists'.1 hsome
  have hmem := h.indexed _ (.inr hsome)
  have hv := (h.locks _ _ _).1 hwr
  rcases h.planned t' _ v hv with ⟨r', hr', -⟩ | ⟨-, hkey, w', hret⟩
  · rw [hnew] at hr'
    cases hr'
  · refine hwaits _ hmem ⟨t', v, hwr, ?_, .inl (collides_of_key_eq hkey.symm)⟩
    rintro rfl
    rw [hupdating] at hret
    cases hret

omit [DecidableEq T] in
/-- The version of a new row is the next one. -/
theorem version_eq_succ (hupdating : s.txn t = .updating call version [] w)
    (hnew : s.committed (newVersion env call version).key = none) {n : ℕ}
    (htop : Top s.committed call.documentId n) (hphase : PhaseOk call.documentId n (s.txn t)) :
    version = n + 1 := by
  rw [hupdating] at hphase
  obtain ⟨hpos, hle, -⟩ := hphase rfl
  have hbeyond : ¬ (1 ≤ version ∧ version ≤ n) := by
    rw [← htop.dense version]
    rintro ⟨r, hr⟩
    have hnone : s.committed (call.documentId, version) = none := hnew
    rw [hnone] at hr
    cases hr
  omega

/-- The row that an insert may write is new, and its version is the next one. -/
theorem insert_new (h : Inv s) (hupdating : s.txn t = .updating call version [] w)
    (hwaits : ∀ k ∈ s.index, ¬ Waits t (newVersion env call version) (s.cell k))
    (hfails : ∀ k ∈ s.index, ¬ Fails t (newVersion env call version) (s.cell k)) :
    s.committed (newVersion env call version).key = none ∧
      (s.cell (newVersion env call version).key).writer = none ∧
      ∀ n, Top s.committed call.documentId n → PhaseOk call.documentId n (s.txn t) →
        version = n + 1 := by
  have hnew := h.committed_eq_none hwaits hfails
  exact ⟨hnew, h.writer_eq_none hupdating hwaits hnew,
    fun n htop hphase => version_eq_succ hupdating hnew htop hphase⟩

end Insert

omit [DecidableEq T] in
/-- At most one open transaction has returned a row of a document. -/
theorem returned_unique (h : Inv s) {t t' : T} {row row' : ExtractionVersion}
    {w w' : List (ExtractionKey × ExtractionVersion)} (ht : s.txn t = .returned row w)
    (ht' : s.txn t' = .returned row' w') (hdoc : row.documentId = row'.documentId) : t = t' := by
  obtain ⟨n, -, hphase⟩ := h.top row.documentId
  have hv : row.version = n + 1 := by
    have := hphase t
    rw [ht] at this
    exact (this rfl).1
  have hv' : row'.version = n + 1 := by
    have := hphase t'
    rw [ht'] at this
    exact (this hdoc.symm).1
  have hmem : (row.key, row) ∈ (s.txn t).written := by
    have := h.document t
    rw [ht] at this ⊢
    exact this.2.1
  have hmem' : (row.key, row') ∈ (s.txn t').written := by
    have := h.document t'
    rw [ht'] at this ⊢
    have hkey : row.key = row'.key := Prod.ext hdoc (hv.trans hv'.symm)
    rw [hkey]
    exact this.2.1
  exact (h.locks.writer_unique hmem hmem').1

/-! ### The end of a transaction -/

/-- What a commit publishes: the row that was current is not any more, and the new one is. -/
theorem committed_commit (h : Inv s) {row : ExtractionVersion}
    {w : List (ExtractionKey × ExtractionVersion)} (hreturned : s.txn t = .returned row w)
    (k : ExtractionKey) :
    (s.cell.commit t k).committed =
      if k = row.key then some row
      else if k.1 = row.documentId then (s.committed k).map unflag
      else s.committed k := by
  obtain ⟨n, htop, hphase⟩ := h.top row.documentId
  have hw : (s.txn t).written = w := by rw [hreturned]; rfl
  have hdoc := h.document t
  rw [hreturned] at hdoc
  obtain ⟨-, hrow, hkeys⟩ := hdoc
  have hok := hphase t
  rw [hreturned] at hok
  obtain ⟨hversion, hlast⟩ := hok rfl
  by_cases hk : k = row.key
  · rw [if_pos hk, hk]
    exact h.locks.committed_commit (hw.symm ▸ hrow)
  rw [if_neg hk]
  by_cases hmem : ∃ v, (k, v) ∈ w
  · obtain ⟨v, hv⟩ := hmem
    rw [if_pos (hkeys k v hv), h.locks.committed_commit (hw.symm ▸ hv)]
    rcases h.planned t k v (hw.symm ▸ hv) with ⟨r, hr, -, rfl⟩ | ⟨-, hkey, w', hret⟩
    · rw [hr, Option.map_some]
    · rw [hreturned] at hret
      obtain ⟨rfl, -⟩ := AddTxn.returned.inj hret
      exact absurd hkey hk
  · rw [not_exists] at hmem
    rw [h.locks.committed_commit_of_notMem (hw.symm ▸ hmem)]
    split_ifs with hd
    · cases hr : s.committed k with
      | none => exact hr
      | some r =>
        obtain ⟨d, v⟩ := k
        obtain rfl : d = row.documentId := hd
        have hflag : r.isCurrent = false := by
          rw [Bool.eq_false_iff, Ne, htop.current v r hr]
          rintro rfl
          obtain ⟨r', hr'⟩ := hlast ((htop.dense v).1 ⟨r, hr⟩).1
          exact hmem r' hr'
        show (s.cell _).committed = some (unflag r)
        rw [unflag, ← hflag]
        exact hr
    · rfl

section Append

variable {rows rows' : ExtractionKey → Option ExtractionVersion} {row : ExtractionVersion}
  (hrows' : ∀ k, rows' k = if k = row.key then some row
    else if k.1 = row.documentId then (rows k).map unflag else rows k)

include hrows'

/-- The new row becomes the last one and takes over the flag. -/
theorem Top.append (h : Top rows row.documentId n) (hversion : row.version = n + 1)
    (hcurrent : row.isCurrent = true) : Top rows' row.documentId (n + 1) := by
  have hkey : ∀ v, (row.documentId, v) = row.key ↔ v = n + 1 := by
    intro v
    rw [ExtractionVersion.key, hversion, Prod.mk.injEq, eq_self_iff_true, true_and]
  refine ⟨fun v => ?_, fun v r hr => ?_⟩
  · rw [hrows']
    by_cases hv : v = n + 1
    · rw [if_pos ((hkey v).2 hv)]
      simp [hv]
    · rw [if_neg (mt (hkey v).1 hv), if_pos rfl]
      have hold : (∃ r, (rows (row.documentId, v)).map unflag = some r) ↔ 1 ≤ v ∧ v ≤ n := by
        rw [← h.dense v]
        simp [Option.map_eq_some_iff]
      rw [hold]
      omega
  · rw [hrows'] at hr
    split_ifs at hr with hnew
    · obtain rfl := Option.some.inj hr
      simp [hcurrent, (hkey v).1 hnew]
    · obtain ⟨r', hr', rfl⟩ := Option.map_eq_some_iff.1 hr
      have := (h.dense v).1 ⟨r', hr'⟩
      simp only [unflag, Bool.false_eq_true, false_iff]
      omega
    · contradiction

theorem Top.append_of_ne (h : Top rows d n) (hd : d ≠ row.documentId) : Top rows' d n := by
  have hsame : ∀ v, rows' (d, v) = rows (d, v) := by
    intro v
    have hkey : (d, v) ≠ row.key := fun hkey => hd (congrArg Prod.fst hkey)
    rw [hrows', if_neg hkey, if_neg hd]
  refine ⟨fun v => ?_, fun v r hr => h.current v r ?_⟩
  · rw [hsame]
    exact h.dense v
  · rwa [hsame] at hr

end Append

/-- The versions of every document after a commit. -/
theorem Inv.top_commit (h : Inv s) {row : ExtractionVersion}
    {w : List (ExtractionKey × ExtractionVersion)} (hreturned : s.txn t = .returned row w)
    (d : UUID) : ∃ n, Top (fun k => (s.cell.commit t k).committed) d n ∧
      ∀ t', PhaseOk d n (Function.update s.txn t .ended t') := by
  have hpublish := committed_commit h hreturned
  obtain ⟨n, htop, hphase⟩ := h.top d
  by_cases hd : d = row.documentId
  · subst hd
    have hdoc := h.document t
    have hok := hphase t
    rw [hreturned] at hdoc hok
    refine ⟨n + 1, htop.append hpublish (hok rfl).1 hdoc.1,
      (Function.forall_update_iff _ fun _ => PhaseOk row.documentId (n + 1)).2
        ⟨trivial, fun t' ht => (hphase t').succ fun r w' hr hd => ?_⟩⟩
    exact ht (returned_unique h hr hreturned hd)
  · refine ⟨n, htop.append_of_ne hpublish hd,
      (Function.forall_update_iff _ fun _ => PhaseOk d n).2 ⟨trivial, fun t' _ => hphase t'⟩⟩

theorem Inv.commit (h : Inv s) {row : ExtractionVersion}
    {w : List (ExtractionKey × ExtractionVersion)} (hreturned : s.txn t = .returned row w) :
    Inv ⟨s.index, s.cell.commit t, Function.update s.txn t .ended⟩ := by
  have hpublish := committed_commit h hreturned
  have hmem : (row.key, row) ∈ (s.txn t).written := by
    have hdoc := h.document t
    rw [hreturned] at hdoc ⊢
    exact hdoc.2.1
  refine ⟨h.locks.commit_phase rfl, h.nodup, ?indexed, ?keyed, ?planned, h.document_update trivial,
    h.top_commit hreturned⟩
  case indexed =>
    rintro k (hk | hk)
    · rw [committed, hpublish] at hk
      split_ifs at hk with hkey hd
      · rw [hkey]
        exact h.indexed _ (.inr (by simp [(h.locks _ _ _).2 hmem]))
      · exact h.indexed k (.inl fun hnone => hk (by rw [hnone]; rfl))
      · exact h.indexed k (.inl hk)
    · obtain ⟨⟨t', v⟩, hv⟩ := Option.ne_none_iff_exists'.1 hk
      simp only [Store.commit, Cell.writer_commit, Cell.writer_rollback_iff] at hv
      exact h.indexed k (.inr (by simp [hv.1]))
  case keyed =>
    intro k r hr
    rw [committed, hpublish] at hr
    split_ifs at hr with hkey hd
    · rw [hkey, Option.some.inj hr]
    · obtain ⟨r', hr', rfl⟩ := Option.map_eq_some_iff.1 hr
      exact h.keyed k r' hr'
    · exact h.keyed k r hr
  case planned =>
    intro t' k v hv
    rw [read_update AddTxn.written] at hv
    by_cases ht : t' = t
    · simp [ht, AddTxn.written] at hv
    · rw [if_neg ht] at hv
      have hsame : (s.cell.commit t k).committed = s.committed k :=
        h.locks.committed_commit_of_notMem fun v' hv' => ht (h.locks.writer_unique hv hv').1
      have hplan := h.planned t' k v hv
      unfold Planned committed at *
      simp only [Function.update_of_ne ht]
      rwa [hsame]

theorem Inv.rollback (h : Inv s) :
    Inv ⟨s.index, s.cell.rollback t, Function.update s.txn t .ended⟩ := by
  have hcommitted : committed ⟨s.index, s.cell.rollback t, Function.update s.txn t .ended⟩ =
      s.committed := funext fun k => Store.committed_rollback t s.cell k
  refine ⟨h.locks.rollback_phase rfl, h.nodup, ?indexed, ?keyed, ?planned, h.document_update trivial,
    ?top⟩
  case indexed =>
    rw [hcommitted]
    rintro k (hk | hk)
    · exact h.indexed k (.inl hk)
    · obtain ⟨⟨t', v⟩, hv⟩ := Option.ne_none_iff_exists'.1 hk
      simp only [Store.rollback, Cell.writer_rollback_iff] at hv
      exact h.indexed k (.inr (by simp [hv.1]))
  case keyed =>
    rw [hcommitted]
    exact h.keyed
  case planned =>
    intro t' k v hv
    rw [hcommitted]
    rw [read_update AddTxn.written] at hv
    by_cases ht : t' = t
    · simp [ht, AddTxn.written] at hv
    · rw [if_neg ht] at hv
      simp only [Function.update_of_ne ht]
      exact h.planned t' k v hv
  case top =>
    rw [hcommitted]
    exact h.top_update fun _ _ _ _ => trivial

/-- A transaction reads at most the next version. -/
theorem Inv.select (h : Inv s) {call : AddCall} (hidle : s.txn t = .idle)
    (htop : Top s.committed d n) : PhaseOk d n (.selected call
      (nextVersion (rowsOf s.index (fun k => (s.cell k).visible t) call.documentId))) := by
  rintro rfl
  have hvisible : (fun k => (s.cell k).visible t) = s.committed := by
    funext k
    refine Cell.visible_of_not_heldBy ?_
    rintro ⟨v, hv⟩
    have hmem : (k, v) ∈ (s.txn t).written := (h.locks k t v).1 hv
    rw [hidle] at hmem
    cases hmem
  have hnext := nextVersion_committedRows h htop
  rw [hvisible]
  unfold committedRows at hnext
  unfold committed
  omega

theorem inv_step (h : Inv s) (he : Step s e s') : Inv s' := by
  cases he with
  | @select t call version hidle hversion hint =>
    subst hversion
    exact h.phase (by rw [hidle]; rfl) (by simp [hidle]) trivial
      fun d n htop _ => h.select hidle htop
  | @update t call version hselected =>
    refine h.phase (by rw [hselected]; rfl) (by simp [hselected]) ⟨fun k hk => ?_, by simp⟩
      fun d n htop hok => .update h htop (hselected ▸ hok)
    have := (List.mem_filter.1 hk).2
    simp only [Bool.decide_and, Bool.and_eq_true, decide_eq_true_eq] at this
    exact this.1
  | @skip t call version todo w k hupdating htodo hfree hmiss =>
    have hdoc := h.document t
    rw [hupdating] at hdoc
    exact h.phase (by rw [hupdating]; rfl) (by simp [hupdating]) hdoc.skip
      fun d n htop hok => .skip htop hmiss (hupdating ▸ hok)
  | @unflag t call version todo w k r hupdating htodo hfree hrow hcurrent =>
    have hdoc := h.document t
    rw [hupdating] at hdoc
    have hmem : k ∈ s.index := h.indexed k (.inl (by simp [committed, hrow]))
    exact h.write h.nodup (fun _ => id) hmem (by rw [hupdating]; rfl) hfree (by simp [hupdating])
      (.inl ⟨r, hrow, hcurrent, rfl⟩) (hdoc.unflag htodo) fun d n _ hok => .unflag (hupdating ▸ hok)
  | @insert t call version w row env hupdating hrow hrefs hwaits hfails =>
    subst hrow
    have hdoc := h.document t
    rw [hupdating] at hdoc
    obtain ⟨hnone, hfree, hnext⟩ := insert_new h hupdating hwaits hfails
    refine h.write ?_ ?_ ?_ (by rw [hupdating]; rfl) hfree (by simp [hupdating])
      (.inr ⟨hnone, rfl, _, rfl⟩) hdoc.insert fun d n htop hok => .insert (hupdating ▸ hok) ?_
    · split_ifs with hmem
      · exact h.nodup
      · exact h.nodup.append (List.nodup_singleton _) (by simpa using hmem)
    · intro k hk
      split_ifs
      · exact hk
      · exact List.mem_append_left _ hk
    · split_ifs with hmem
      · exact hmem
      · simp
    · rintro rfl
      exact hnext n htop hok
  | @conflict t call version w env hupdating hraises =>
    exact h.phase (by rw [hupdating]; rfl) (by simp [hupdating]) trivial fun _ _ _ _ => trivial
  | commit hreturned => exact h.commit hreturned
  | rollback hopen => exact h.rollback

theorem inv_run {tr : List (AddEvent T)} (h : Run Step init tr s) : Inv s :=
  h.state_inv Inv inv_init fun _ _ _ hi he => inv_step hi he

end AddSessions

end Ipa
