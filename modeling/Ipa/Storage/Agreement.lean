import Ipa.Storage.CrossStore
import Mathlib.Tactic.IntervalCases

/-!
# Versions of records and rows

The content store numbers the records of a document and the table numbers its rows, and nothing ties
the two numbers.  They agree while records and rows alternate (`Alternates`), that is, while nobody
puts a record before every earlier one has its row: then there is at most one record without a row,
and it has the next version of both stores (`Clients.Balanced`).

* `rows_point_at_records`: every row points at the record that its client has put, and it has the
  version of that record if records and rows of the document alternate.
* `orphan_shifts_versions`: after a client has stopped between its two calls the versions differ.
-/

namespace Ipa

open ExtractionRepository MongoContentStore ReadCommitted Transition

namespace Clients

variable {C : Type*} {s s' : Clients C} {tr : List (ClientEvent C)} {e : ClientEvent C} {d : UUID}
  {n k : ℕ}

/-- Whenever a record of `d` is put, every earlier one has a committed row. -/
def Alternates (d : UUID) (tr : List (ClientEvent C)) : Prop :=
  ∀ tr₁ tr₂ p record id, tr = tr₁ ++ .put (.insert p record id (.ok id.str)) :: tr₂ →
    record.documentId = d → ∀ p' record' id', .put (.insert p' record' id' (.ok id'.str)) ∈ tr₁ →
      record'.documentId = d →
        ∃ t row, .add (.commit t row) ∈ tr₁ ∧ row.documentId = d ∧ row.mongoId = id'.str

theorem Alternates.of_append {tr₁ tr₂ : List (ClientEvent C)} (h : Alternates d (tr₁ ++ tr₂)) :
    Alternates d tr₁ := by
  intro a b p record id htr
  exact h a (b ++ tr₂) p record id (by rw [htr, List.append_assoc, List.cons_append])

/-- With rows `1, …, n` and records `1, …, k` of `d`: at most the last record has no row, and every
row points at the record of its version. -/
structure Balanced (d : UUID) (s : Clients C) (n k : ℕ) : Prop where
  le : n ≤ k ∧ k ≤ n + 1
  held : ∀ c record id, (s.phase c).Holds record id → record.documentId = d → record.version = n + 1
  linked : ∀ v row, s.adds.committed (d, v) = some row → ∃ record id,
    toDoc id record ∈ s.puts.store.rows ∧ record.documentId = d ∧ record.version = v ∧
      row.mongoId = id.str

/-- The document is balanced, whatever its numbers of rows and records are. -/
def AllBalanced (d : UUID) (s : Clients C) : Prop :=
  ∀ n k, AddSessions.Top s.adds.committed d n → Dense s.puts.store.rows d k → Balanced d s n k

theorem allBalanced_init : AllBalanced d (init : Clients C) := by
  intro n k htop hdense
  have hn : n = 0 := by
    by_contra hn
    obtain ⟨row, hrow⟩ := (htop.dense n).2 ⟨by omega, le_refl n⟩
    cases hrow
  have hk : k = 0 := by
    by_contra hk
    obtain ⟨doc, hdoc, -⟩ := (hdense k).2 ⟨by omega, le_refl k⟩
    cases hdoc
  subst hn hk
  exact ⟨by omega, fun _ _ _ hc => hc.elim, fun _ _ hrow => by cases hrow⟩

/-- An event that changes neither store and gives its client no new record to hold. -/
theorem AllBalanced.frame (h : AllBalanced d s) (hrows : s'.puts.store.rows = s.puts.store.rows)
    (hrow : s'.adds.committed = s.adds.committed)
    (hholds : ∀ c record id, (s'.phase c).Holds record id → (s.phase c).Holds record id) :
    AllBalanced d s' := by
  intro n k htop hdense
  rw [hrow] at htop
  rw [hrows] at hdense
  obtain ⟨hle, hheld, hlinked⟩ := h n k htop hdense
  refine ⟨hle, fun c record id hc => hheld c record id (hholds c record id hc), ?_⟩
  rw [hrows, hrow]
  exact hlinked

/-- The document of a stored record is the one with its key and the one with its identifier. -/
theorem Inv.version_eq_of_id (h : Inv tr s) {record record' : ExtractionRecord} {id : ObjectId}
    (hdoc : toDoc id record ∈ s.puts.store.rows) (hdoc' : toDoc id record' ∈ s.puts.store.rows) :
    record.version = record'.version :=
  congrArg ExtractionDoc.version (h.ids _ hdoc _ hdoc' rfl)

/-- If every stored record of `d` has a row then there are no more records than rows. -/
theorem AllBalanced.le_of_rows (h : Inv tr s) (hb : Balanced d s n k)
    (htop : AddSessions.Top s.adds.committed d n) (hdense : Dense s.puts.store.rows d k)
    (hrows : ∀ p record id, .put (.insert p record id (.ok id.str)) ∈ tr → record.documentId = d →
      ∃ t row, .add (.commit t row) ∈ tr ∧ row.documentId = d ∧ row.mongoId = id.str) : k ≤ n := by
  by_contra hlt
  obtain ⟨doc, hdoc, hkey⟩ := (hdense k).2 ⟨by omega, le_refl k⟩
  obtain ⟨p, record, id, hput, rfl⟩ := h.origin doc hdoc
  obtain ⟨hd, hversion⟩ := key_toDoc.1 hkey
  obtain ⟨t, row, hcommit, hrowd, hmongo⟩ := hrows p record id hput hd
  obtain ⟨row', hrow', hmongo'⟩ := h.kept t row hcommit
  have hkey' : row.key = (d, row.version) := Prod.ext hrowd rfl
  rw [hkey'] at hrow'
  obtain ⟨record', id', hdoc', -, hversion', hmongo''⟩ := hb.linked _ row' hrow'
  obtain rfl : id = id' :=
    ObjectId.str_injective (hmongo.symm.trans (hmongo'.symm.trans hmongo''))
  have hle := ((htop.dense row.version).1 ⟨row', hrow'⟩).2
  have := h.version_eq_of_id hdoc hdoc'
  omega

section Step

variable [DecidableEq C] {c : C} {i : ℕ} {record : ExtractionRecord} {id : ObjectId}

theorem AllBalanced.insert (hb : AllBalanced d s) (h : Inv tr s)
    (hputting : s.phase c = .putting i record)
    (hfree : s.puts.store.lookup (storeKey record) = none)
    {puts : PutCalls (C × ℕ)} (hrows : puts.store.rows = s.puts.store.rows ++ [toDoc id record])
    (halt : Alternates d (tr ++ [.put (.insert (c, i) record id (.ok id.str))])) :
    AllBalanced d ⟨puts, s.adds, Function.update s.phase c (.stored i record id)⟩ := by
  intro n k' htop hdense'
  obtain ⟨k, hdense, -⟩ := h.dense d
  have hbal := hb n k htop hdense
  have ⟨hle, hheld, hlinked⟩ := hbal
  have hlinked' : ∀ v row, s.adds.committed (d, v) = some row → ∃ record id,
      toDoc id record ∈ puts.store.rows ∧ record.documentId = d ∧ record.version = v ∧
        row.mongoId = id.str := by
    intro v row hrow
    obtain ⟨record', id', hdoc, hrest⟩ := hlinked v row hrow
    exact ⟨record', id', by rw [hrows]; exact List.mem_append_left _ hdoc, hrest⟩
  rw [hrows] at hdense'
  by_cases hd : record.documentId = d
  · have hversion := h.version_eq hputting hfree (hd ▸ hdense)
    obtain rfl := dense_unique hdense' (hdense.append hd hversion)
    have hkn := AllBalanced.le_of_rows h hbal htop hdense
      fun p' record' id' hput hd' => halt tr [] _ record id rfl hd p' record' id' hput hd'
    refine ⟨by omega, fun c' record' id' hc' hd' => ?_, hlinked'⟩
    rw [read_update (ClientPhase.Holds record' id')] at hc'
    split_ifs at hc'
    · obtain ⟨rfl, -⟩ := hc'
      omega
    · exact hheld c' record' id' hc' hd'
  · obtain rfl := dense_unique hdense' (hdense.append_of_ne hd)
    refine ⟨hle, fun c' record' id' hc' hd' => ?_, hlinked'⟩
    rw [read_update (ClientPhase.Holds record' id')] at hc'
    split_ifs at hc'
    · obtain ⟨rfl, -⟩ := hc'
      exact absurd hd' hd
    · exact hheld c' record' id' hc' hd'

omit [DecidableEq C] in
/-- Two clients hold no records of one version. -/
theorem Inv.holder_unique (h : Inv tr s) {c c' : C} {record record' : ExtractionRecord}
    {id id' : ObjectId} (hc : (s.phase c).Holds record id) (hc' : (s.phase c').Holds record' id')
    (hd : record'.documentId = record.documentId) (hversion : record'.version = record.version) :
    c' = c := by
  have hsame : toDoc id' record' = toDoc id record := by
    refine s.puts.store.eq_of_key_eq (h.held c' record' id' hc').1 (h.held c record id hc).1 ?_
    rw [key_toDoc.2 ⟨hd, hversion⟩, key_toDoc.2 ⟨rfl, rfl⟩]
  obtain rfl : id' = id := congrArg ExtractionDoc.id hsame
  exact h.heldOnce c' c record' record id' hc' hc

theorem AllBalanced.commit (hb : AllBalanced d s) (h : Inv tr s)
    (hadding : s.phase c = .adding i record id) {row : ExtractionVersion}
    {adds : AddSessions (C × ℕ)} (hadd : AddSessions.Step s.adds (.commit (c, i) row) adds) :
    AllBalanced d ⟨s.puts, adds, Function.update s.phase c .done⟩ := by
  intro n' k htop' hdense
  obtain ⟨n, htop, -⟩ := h.adds.top d
  obtain ⟨hle, hheld, hlinked⟩ := hb n k htop hdense
  have hcommitted : adds.committed = append s.adds.committed row :=
    AddSessions.committed_step h.adds hadd
  obtain ⟨⟨w, hreturned⟩, hrowd, hmongo⟩ := h.returned hadding hadd
  have hmine : (s.phase c).Holds record id := by
    rw [hadding]
    exact ⟨rfl, rfl⟩
  have hdoc := (h.held c record id hmine).1
  have hother : ∀ c' record' id', (Function.update s.phase c .done c').Holds record' id' →
      c' ≠ c ∧ (s.phase c').Holds record' id' := by
    intro c' record' id' hc'
    rw [read_update (ClientPhase.Holds record' id')] at hc'
    split_ifs at hc' with hc
    · cases hc'
    · exact ⟨hc, hc'⟩
  by_cases hd : row.documentId = d
  · subst hd
    have hversion := AddSessions.returned_version h.adds hreturned htop
    have hcurrent := AddSessions.returned_current h.adds hreturned
    obtain rfl := top_unique htop' (htop.append (congrFun hcommitted) hversion hcurrent)
    have hrecord : record.version = n + 1 := hheld c record id hmine hrowd.symm
    have hk := ((hdense (n + 1)).1 ⟨_, hdoc, key_toDoc.2 ⟨hrowd.symm, hrecord⟩⟩).2
    refine ⟨by omega, fun c' record' id' hc' hd' => ?_, fun v row' hrow' => ?_⟩
    · -- the other holder would have put a second record with the version of this one
      obtain ⟨hne, hc'⟩ := hother c' record' id' hc'
      have hrecord' : record'.version = n + 1 := hheld c' record' id' hc' hd'
      exact absurd (h.holder_unique hmine hc' (hd'.trans hrowd) (hrecord'.trans hrecord.symm)) hne
    · rw [hcommitted] at hrow'
      rcases append_mongoId hrow' with ⟨hkey, rfl⟩ | ⟨r, hr, hmongo'⟩
      · refine ⟨record, id, hdoc, hrowd.symm, ?_, hmongo⟩
        rw [hrecord, ← hversion]
        exact (congrArg Prod.snd hkey).symm
      · rw [hmongo']
        exact hlinked v r hr
  · obtain rfl := top_unique htop' (htop.append_of_ne (congrFun hcommitted) (Ne.symm hd))
    refine ⟨hle, fun c' record' id' hc' hd' => ?_, fun v row' hrow' => ?_⟩
    · exact hheld c' record' id' (hother c' record' id' hc').2 hd'
    · rw [hcommitted] at hrow'
      rcases append_mongoId hrow' with ⟨hv, -⟩ | ⟨r, hr, hmongo'⟩
      · exact absurd (congrArg Prod.fst hv).symm hd
      · rw [hmongo']
        exact hlinked v r hr

theorem allBalanced_step (hb : AllBalanced d s) (h : Inv tr s) (he : Step s e s')
    (halt : Alternates d (tr ++ [e])) : AllBalanced d s' := by
  have hframe : ∀ c p puts adds, puts.store.rows = s.puts.store.rows →
      adds.committed = s.adds.committed →
      (∀ record id, p.Holds record id → (s.phase c).Holds record id) →
      AllBalanced d ⟨puts, adds, Function.update s.phase c p⟩ := by
    intro c p puts adds hrows hrow hholds
    exact hb.frame hrows hrow (holds_update hholds)
  cases he with
  | @latest | @restart => exact hframe _ _ _ _ rfl rfl fun _ _ hp => hp.elim
  | @check c i record result puts hversion hput =>
    have hstore := PutCalls.check_store hput
    refine hframe _ _ _ _ (congrArg Table.rows hstore) rfl fun _ _ hp => ?_
    cases result <;> cases hp
  | @insert c i record id result puts hputting hput =>
    rcases PutCalls.insert_cases hput with ⟨rfl, hfree, hnew, hrows⟩ | ⟨err, rfl, hstore⟩
    · exact hb.insert h hputting hfree hrows halt
    · exact hframe _ _ _ _ (congrArg Table.rows hstore) rfl fun _ _ hp => by cases hp
  | @select c i record id call adds hstored hdoc hid hadd =>
    refine hframe _ _ _ _ rfl (AddSessions.committed_step h.adds hadd) fun _ _ hp => ?_
    rw [hstored]
    exact hp
  | @add c i record id a adds hadding htxn hselect hadd =>
    by_cases hcommit : ∃ t row, a = .commit t row
    · obtain ⟨t, row, rfl⟩ := hcommit
      obtain rfl : t = (c, i) := htxn
      exact hb.commit h hadding hadd
    · obtain ⟨hcommitted, hholds⟩ := add_frame h.adds hadd fun t row ha => hcommit ⟨t, row, ha⟩
      refine hframe _ _ _ _ rfl hcommitted fun record' id' hp => ?_
      rw [hadding]
      exact hholds i record id record' id' hp

theorem allBalanced_run (h : Run Step init tr s) (halt : Alternates d tr) : AllBalanced d s := by
  refine h.rec_inv (fun tr s => Alternates d tr → AllBalanced d s) (fun _ => allBalanced_init) ?_ halt
  intro tr s e s' hrun ih he halt
  exact allBalanced_step (ih halt.of_append) (inv_run hrun) he halt

end Step

/-! ## A client that nobody interrupts -/

theorem getExtraction_singleton {t : ExtractionStore} {id : ObjectId} {record : ExtractionRecord}
    (h : t.rows = [toDoc id record]) :
    getExtraction record.documentId none t = .ok (some (stored record)) := by
  have hdocs : docsOf record.documentId t = [toDoc id record] := by
    have hmine : decide ((toDoc id record).documentId = record.documentId.str) = true :=
      decide_eq_true rfl
    unfold docsOf findNewestFirst
    rw [h, List.filter_singleton, hmine]
    rfl
  have hread : ∀ doc ∈ docsOf record.documentId t, (recordFromDoc doc).isSome := by
    intro doc hdoc
    rw [hdocs] at hdoc
    rw [List.mem_singleton.1 hdoc, recordFromDoc_toDoc]
    rfl
  rw [(readers_eq hread).2.1, hdocs, List.filterMap_cons_some (recordFromDoc_toDoc id record)]
  rfl

section Alone

variable [DecidableEq C] {c : C} {i : ℕ}

/-- The client puts a record of the next version. -/
theorem exists_put (c : C) (i : ℕ) (record : ExtractionRecord) (id : ObjectId)
    {latest : Option ExtractionRecord} (hidle : s.phase c = .idle i)
    (hputs : s.puts.phase (c, i) = .idle)
    (hread : getExtraction record.documentId none s.puts.store = .ok latest)
    (hversion : nextRecordVersion latest = record.version)
    (hfree : s.puts.store.lookup (storeKey record) = none)
    (hnew : ∀ doc ∈ s.puts.store.rows, doc.id ≠ id) :
    ∃ s', Run Step s [.latest c record.documentId, .put (.check (c, i) record (.ok ())),
        .put (.insert (c, i) record id (.ok id.str))] s' ∧
      s'.puts.store.rows = s.puts.store.rows ++ [toDoc id record] ∧ s'.adds = s.adds ∧
      s'.phase c = .stored i record id ∧
      ∀ c' ≠ c, s'.phase c' = s.phase c' ∧ ∀ j, s'.puts.phase (c', j) = s.puts.phase (c', j) := by
  obtain ⟨puts₁, hcheck, hstore₁, hphase₁⟩ := PutCalls.exists_check hputs hfree
  obtain ⟨puts₂, hinsert, hrows₂, hphase₂⟩ := PutCalls.exists_insert (s := puts₁) id
    (by rw [hphase₁, Function.update_self]) (hstore₁ ▸ hfree) (hstore₁ ▸ hnew)
  let phase₁ : C → ClientPhase :=
    Function.update s.phase c (.version i record.documentId record.version)
  let phase₂ : C → ClientPhase := Function.update phase₁ c (.putting i record)
  have h₁ : Step s (.latest c record.documentId) ⟨s.puts, s.adds, phase₁⟩ := by
    unfold phase₁
    rw [← hversion]
    exact .latest hidle hread
  have h₂ : Step ⟨s.puts, s.adds, phase₁⟩ _ ⟨puts₁, s.adds, phase₂⟩ :=
    .check (s := ⟨s.puts, s.adds, phase₁⟩) (Function.update_self _ _ _) hcheck
  have h₃ : Step ⟨puts₁, s.adds, phase₂⟩ _ ⟨puts₂, s.adds, _⟩ :=
    .insert (s := ⟨puts₁, s.adds, phase₂⟩) (Function.update_self _ _ _) hinsert
  refine ⟨_, .cons h₁ <| .cons h₂ <| .single h₃, hstore₁ ▸ hrows₂, rfl, Function.update_self _ _ _,
    fun c' hc => ⟨?_, fun j => ?_⟩⟩
  · simp only [phase₂, phase₁, Function.update_of_ne hc]
  · have hp : (c', j) ≠ (c, i) := fun hp => hc (congrArg Prod.fst hp)
    rw [hphase₂, Function.update_of_ne hp, hphase₁, Function.update_of_ne hp]

/-- The client adds a row, with the statements `es` between its first one and its commit. -/
theorem exists_add (puts : PutCalls (C × ℕ)) {phase : C → ClientPhase} {record : ExtractionRecord}
    {id : ObjectId} (call : AddCall) {row : ExtractionVersion} {es : List (AddEvent (C × ℕ))}
    {adds adds₁ adds₂ adds' : AddSessions (C × ℕ)} (hstored : phase c = .stored i record id)
    (hdoc : call.documentId = record.documentId) (hid : call.mongoId = id.str)
    (hselect : AddSessions.Step adds (.select (c, i) call) adds₁)
    (hes : Run AddSessions.Step adds₁ es adds₂)
    (hstay : ∀ e ∈ es, e.txn = (c, i) ∧ (∀ t call, e ≠ .select t call) ∧
      afterAdd i record id e = .adding i record id)
    (hcommit : AddSessions.Step adds₂ (.commit (c, i) row) adds') :
    Run Step ⟨puts, adds, phase⟩
      (.add (.select (c, i) call) :: (es.map .add ++ [.add (.commit (c, i) row)]))
      ⟨puts, adds', Function.update (Function.update phase c (.adding i record id)) c .done⟩ := by
  let phase' : C → ClientPhase := Function.update phase c (.adding i record id)
  have hadding : phase' c = .adding i record id := Function.update_self _ _ _
  have hrun : Run Step ⟨puts, adds₁, phase'⟩ (es.map .add) ⟨puts, adds₂, phase'⟩ := by
    clear hcommit
    induction hes with
    | nil => exact .nil
    | snoc _ hadd ih =>
      obtain ⟨htxn, hselect, hafter⟩ := hstay _ (List.mem_append_right _ List.mem_cons_self)
      have hstep := Step.add (s := ⟨puts, _, phase'⟩) hadding htxn hselect hadd
      rw [hafter, ← hadding, Function.update_eq_self] at hstep
      rw [List.map_append]
      exact (ih fun e he => hstay e (List.mem_append_left _ he)).snoc hstep
  refine .cons (.select hstored hdoc hid hselect) (hrun.snoc ?_)
  exact Step.add (s := ⟨puts, adds₂, phase'⟩) hadding rfl (fun _ _ hev => by cases hev) hcommit

end Alone

end Clients

/-! ## The theorem -/

/-- In every run, every row `(d, v, mongo_id)` points at the record of `d` that the client which has
added the row had put, and at no other one.  If records and rows of `d` alternate then this record has
version `v`, and `getExtraction` returns it for that version. -/
theorem rows_point_at_records {C : Type*} [DecidableEq C] {tr : List (ClientEvent C)} {s : Clients C}
    (h : Run Clients.Step Clients.init tr s) {d : UUID} {v : ℕ} {row : ExtractionVersion}
    (hrow : s.adds.committed (d, v) = some row) :
    ∃ record id, Clients.PutAndAdded tr (d, v) row.mongoId record id ∧
      (∀ doc ∈ s.puts.store.rows, doc.id.str = row.mongoId ↔ doc = toDoc id record) ∧
      toDoc id record ∈ s.puts.store.rows ∧
      (Clients.Alternates d tr → record.version = v ∧
        getExtraction d (some v) s.puts.store = .ok (some (stored record))) := by
  have hinv := Clients.inv_run h
  obtain ⟨record, id, hlink, hdoc⟩ := hinv.linked (d, v) row hrow
  have ⟨c, i, j, row', hput, hadd, hkey, hid', hd, hmongo⟩ := hlink
  refine ⟨record, id, hlink, fun doc hmem => ?_, hdoc, fun halt => ?_⟩
  · constructor
    · intro hid
      exact hinv.ids doc hmem _ hdoc (ObjectId.str_injective (hid.trans hmongo))
    · rintro rfl
      exact hmongo.symm
  · obtain ⟨n, htop, -⟩ := hinv.adds.top d
    obtain ⟨k, hdense, -⟩ := hinv.dense d
    obtain ⟨record', id', hdoc', -, hversion', hmongo'⟩ :=
      (Clients.allBalanced_run h halt n k htop hdense).linked v row hrow
    obtain rfl : id = id' := ObjectId.str_injective (hmongo.symm.trans hmongo')
    have hversion : record.version = v := (hinv.version_eq_of_id hdoc hdoc').trans hversion'
    exact ⟨hversion,
      getExtraction_of_mem hdoc (key_toDoc.2 ⟨hd, hversion⟩) (recordFromDoc_toDoc id record)⟩

section Runs

/-- Records and rows alternate if at every put the events before it contain the rows of the earlier
records. -/
theorem alternates_of_take {C : Type*} {tr : List (ClientEvent C)} {d : UUID}
    (h : ∀ n < tr.length, ∀ p record id, tr[n]? = some (.put (.insert p record id (.ok id.str))) →
      ∀ p' record' id', .put (.insert p' record' id' (.ok id'.str)) ∈ tr.take n →
        ∃ t row, .add (.commit t row) ∈ tr.take n ∧ row.documentId = d ∧ row.mongoId = id'.str) :
    Clients.Alternates d tr := by
  rintro tr₁ tr₂ p record id rfl - p' record' id' hmem -
  have hlast : (tr₁ ++ .put (.insert p record id (.ok id.str)) :: tr₂)[tr₁.length]? =
      some (.put (.insert p record id (.ok id.str))) := by simp
  have htake := h tr₁.length (by simp) p record id hlast p' record' id'
  rw [List.take_left] at htake
  exact htake hmem

/-- A record with nothing extracted. -/
def emptyRecord (version : ℕ) (version_pos : 1 ≤ version) : ExtractionRecord where
  documentId := ⟨7⟩
  version := version
  tagId := ⟨8⟩
  tagVersion := 1
  source := .model
  model := none
  promptHash := none
  fields := []
  documentConfidence := 1
  createdAt := ⟨0, some 0⟩
  createdBy := none
  version_pos := version_pos
  tagVersion_pos := by decide
  confidence_mem := by decide

/-- The call of `add` for such a record. -/
def emptyCall (id : ObjectId) : AddCall := ⟨⟨7⟩, ⟨8⟩, 1, .model, 1, id.str, none, none, none⟩

/-- What such a call takes from outside. -/
def emptyEnv : AddEnv := ⟨⟨1⟩, 0, true, true⟩

/-- The row that it inserts. -/
def emptyRow (id : ObjectId) (version : ℕ) : ExtractionVersion :=
  newVersion emptyEnv (emptyCall id) version

/-- The rows after the first one has been committed. -/
def firstRow (id : ObjectId) : Store (ℕ × ℕ) ExtractionKey ExtractionVersion := fun k =>
  if k = (⟨7⟩, 1) then ⟨some (emptyRow id 1), none⟩ else ⟨none, none⟩

/-- A transaction adds the first row of the table. -/
theorem exists_first_row (t : ℕ × ℕ) (id : ObjectId) : ∃ a₁ a₂ a₃ : AddSessions (ℕ × ℕ),
    AddSessions.Step AddSessions.init (.select t (emptyCall id)) a₁ ∧
    Run AddSessions.Step a₁ [.update t, .insert t (emptyRow id 1)] a₂ ∧
    AddSessions.Step a₂ (.commit t (emptyRow id 1)) a₃ ∧ a₃.index = [(⟨7⟩, 1)] ∧
    a₃.cell = firstRow id ∧ ∀ t' ≠ t, a₃.txn t' = .idle := by
  have hint : IsInt4 ((1 : ℕ) : ℤ) := by decide
  refine ⟨_, _, _, .select rfl rfl hint, .cons (.update (by exact Function.update_self _ _ _)) <|
    .single (.insert emptyEnv (by exact Function.update_self _ _ _) rfl ⟨rfl, rfl⟩
      (fun k hk => by cases hk) (fun k hk => by cases hk)),
    .commit (by exact Function.update_self _ _ _), rfl, funext fun k => ?_, fun t' ht => ?_⟩
  · change ((Store.empty.write t (⟨7⟩, 1) (emptyRow id 1)) k).commit t = firstRow id k
    unfold firstRow Store.write
    rw [Function.update_apply]
    split_ifs
    · exact Cell.commit_of_writer rfl
    · rfl
  · simp only [Function.update_of_ne ht, AddSessions.init]

/-- Another transaction adds the second row. -/
theorem exists_second_row (id id' : ObjectId) {a : AddSessions (ℕ × ℕ)}
    (hindex : a.index = [(⟨7⟩, 1)]) (hcell : a.cell = firstRow id) (hidle : a.txn (1, 0) = .idle) :
    ∃ a₁ a₂ a₃ : AddSessions (ℕ × ℕ), AddSessions.Step a (.select (1, 0) (emptyCall id')) a₁ ∧
      Run AddSessions.Step a₁
        [.update (1, 0), .unflag (1, 0) (⟨7⟩, 1), .insert (1, 0) (emptyRow id' 2)] a₂ ∧
      AddSessions.Step a₂ (.commit (1, 0) (emptyRow id' 2)) a₃ ∧
      a₃.committed (⟨7⟩, 1) = some (unflag (emptyRow id 1)) ∧
      a₃.committed (⟨7⟩, 2) = some (emptyRow id' 2) := by
  obtain ⟨index, cell, txn⟩ := a
  obtain rfl : index = _ := hindex
  obtain rfl : cell = _ := hcell
  have hint : IsInt4 ((2 : ℕ) : ℤ) := by decide
  refine ⟨_, _, _, .select hidle rfl hint, .cons (.update rfl) <|
    .cons (.unflag rfl (List.mem_singleton.2 rfl) rfl rfl rfl) <|
    .single (.insert emptyEnv rfl rfl ⟨rfl, rfl⟩ ?_ ?_), .commit rfl, rfl, rfl⟩
  · rintro k hk ⟨t, v, hw, ht, -⟩
    obtain rfl := List.mem_singleton.1 hk
    exact ht (Prod.mk.inj (Option.some.inj hw)).1.symm
  · rintro k hk ⟨-, r, hr, hcollides⟩
    obtain rfl := List.mem_singleton.1 hk
    obtain rfl := Option.some.inj hr
    rcases hcollides with ⟨-, hversion | ⟨-, hcurrent⟩⟩
    · exact absurd hversion (by decide : (2 : ℕ) ≠ 1)
    · cases hcurrent

section Second

variable {store : ExtractionStore} (h : store.rows = [toDoc ⟨1⟩ (emptyRecord 1 (by decide))])
include h

theorem lookup_second : store.lookup (storeKey (emptyRecord 2 (by decide))) = none := by
  rw [Table.lookup_eq_none_iff, h]
  intro doc hdoc hkey
  rw [List.mem_singleton.1 hdoc] at hkey
  exact absurd (key_toDoc.1 hkey).2 (by decide)

theorem new_second : ∀ doc ∈ store.rows, doc.id ≠ ⟨2⟩ := by
  rw [h]
  intro doc hdoc
  rw [List.mem_singleton.1 hdoc]
  decide

end Second

/-- The first client puts its record and adds its row. -/
def firstClient : List (ClientEvent ℕ) :=
  [.latest 0 ⟨7⟩, .put (.check (0, 0) (emptyRecord 1 (by decide)) (.ok ())),
    .put (.insert (0, 0) (emptyRecord 1 (by decide)) ⟨1⟩ (.ok (ObjectId.str ⟨1⟩))),
    .add (.select (0, 0) (emptyCall ⟨1⟩)), .add (.update (0, 0)),
    .add (.insert (0, 0) (emptyRow ⟨1⟩ 1)), .add (.commit (0, 0) (emptyRow ⟨1⟩ 1))]

/-- The second client does so after it. -/
def secondClient : List (ClientEvent ℕ) :=
  [.latest 1 ⟨7⟩, .put (.check (1, 0) (emptyRecord 2 (by decide)) (.ok ())),
    .put (.insert (1, 0) (emptyRecord 2 (by decide)) ⟨2⟩ (.ok (ObjectId.str ⟨2⟩))),
    .add (.select (1, 0) (emptyCall ⟨2⟩)), .add (.update (1, 0)), .add (.unflag (1, 0) (⟨7⟩, 1)),
    .add (.insert (1, 0) (emptyRow ⟨2⟩ 2)), .add (.commit (1, 0) (emptyRow ⟨2⟩ 2))]

theorem alternates_two_clients : Clients.Alternates ⟨7⟩ (firstClient ++ secondClient) := by
  refine alternates_of_take fun n hn p record id hput p' record' id' hput' => ?_
  have hlength : (firstClient ++ secondClient).length = 15 := rfl
  rw [hlength] at hn
  interval_cases n <;> try cases hput
  · simp [firstClient] at hput'
  · have hid : id' = ⟨1⟩ := by
      simp [firstClient, secondClient] at hput'
      exact hput'.2.2.1
    exact ⟨(0, 0), emptyRow ⟨1⟩ 1, by simp [firstClient], rfl, by rw [hid]; rfl⟩

/-- Two clients put their records and add their rows, one after the other. -/
theorem rows_point_at_records_two_clients : ∃ s,
    Run Clients.Step Clients.init (firstClient ++ secondClient) s ∧
    ∀ v ∈ [1, 2], ∃ row record id, s.adds.committed (⟨7⟩, v) = some row ∧
      toDoc id record ∈ s.puts.store.rows ∧ row.mongoId = id.str ∧ record.version = v ∧
      getExtraction ⟨7⟩ (some v) s.puts.store = .ok (some (stored record)) := by
  let first := emptyRecord 1 (by decide)
  let second := emptyRecord 2 (by decide)
  obtain ⟨s₁, hput₁, hrows₁, hadds₁, hphase₁, hother₁⟩ :=
    Clients.exists_put (s := (Clients.init : Clients ℕ)) 0 0 first ⟨1⟩ rfl rfl rfl rfl rfl
      fun doc hdoc => by cases hdoc
  have hstored : s₁.puts.store.rows = [toDoc ⟨1⟩ first] := hrows₁
  obtain ⟨hidle, hputs⟩ := hother₁ 1 (by decide)
  obtain ⟨puts₁, adds₁, phase₁⟩ := s₁
  obtain rfl : adds₁ = AddSessions.init := hadds₁
  have hread : getExtraction second.documentId none puts₁.store = .ok (some (stored first)) :=
    Clients.getExtraction_singleton hstored
  obtain ⟨a₁, a₂, a₃, hselect, hinsert, hcommit, hindex, hcell, htxn⟩ := exists_first_row (0, 0) ⟨1⟩
  have hadd₁ := Clients.exists_add puts₁ (emptyCall ⟨1⟩) hphase₁ rfl rfl hselect hinsert
    (by simp [AddEvent.txn, Clients.afterAdd]) hcommit
  obtain ⟨s₂, hput₂, hrows₂, hadds₂, hphase₂, -⟩ := Clients.exists_put
    (s := ⟨puts₁, a₃, Function.update (Function.update phase₁ 0 (.adding 0 first ⟨1⟩)) 0 .done⟩)
    1 0 second ⟨2⟩ (hidle.trans rfl) ((hputs 0).trans rfl) hread rfl (lookup_second hstored)
    (new_second hstored)
  obtain ⟨puts₂, adds₂, phase₂⟩ := s₂
  obtain rfl : adds₂ = a₃ := hadds₂
  obtain ⟨b₁, b₂, b₃, hselect', hinsert', hcommit', hrow₁, hrow₂⟩ :=
    exists_second_row ⟨1⟩ ⟨2⟩ hindex hcell (htxn (1, 0) (by decide))
  have hadd₂ := Clients.exists_add puts₂ (emptyCall ⟨2⟩) hphase₂ rfl rfl hselect' hinsert'
    (by simp [AddEvent.txn, Clients.afterAdd]) hcommit'
  have hrun : Run Clients.Step Clients.init (firstClient ++ secondClient) _ :=
    Run.append_iff.2 ⟨_, Run.append_iff.2 ⟨_, hput₁, hadd₁⟩, Run.append_iff.2 ⟨_, hput₂, hadd₂⟩⟩
  refine ⟨_, hrun, fun v hv => ?_⟩
  obtain ⟨row, hrow⟩ : ∃ row, b₃.committed (⟨7⟩, v) = some row := by
    rcases List.mem_pair.1 hv with rfl | rfl
    · exact ⟨_, hrow₁⟩
    · exact ⟨_, hrow₂⟩
  obtain ⟨record, id, ⟨c, i, j, row', hput, hadd, hkey, hid, hd, hmongo⟩, -, hdoc, hagree⟩ :=
    rows_point_at_records hrun hrow
  obtain ⟨hversion, hget⟩ := hagree alternates_two_clients
  exact ⟨row, record, id, hrow, hdoc, hmongo, hversion, hget⟩

/-- Client `0` stops after its put, and the first row points at the second record. -/
theorem orphan_shifts_versions : ¬ ∀ (tr : List (ClientEvent ℕ)) (s : Clients ℕ),
    Run Clients.Step Clients.init tr s → ∀ d v row, s.adds.committed (d, v) = some row →
      ∃ doc ∈ s.puts.store.rows, doc.id.str = row.mongoId ∧ doc.key = (d.str, v) := by
  intro hclaim
  let first := emptyRecord 1 (by decide)
  let second := emptyRecord 2 (by decide)
  obtain ⟨s₁, hput₁, hrows₁, hadds₁, -, hother₁⟩ :=
    Clients.exists_put (s := (Clients.init : Clients ℕ)) 0 0 first ⟨1⟩ rfl rfl rfl rfl rfl
      fun doc hdoc => by cases hdoc
  have hstored : s₁.puts.store.rows = [toDoc ⟨1⟩ first] := hrows₁
  obtain ⟨hphase₁, hputs₁⟩ := hother₁ 1 (by decide)
  have hread : getExtraction second.documentId none s₁.puts.store = .ok (some (stored first)) :=
    Clients.getExtraction_singleton hstored
  obtain ⟨s₂, hput₂, hrows₂, hadds₂, hphase₂, -⟩ := Clients.exists_put (s := s₁) 1 0 second ⟨2⟩
    (hphase₁.trans rfl) ((hputs₁ 0).trans rfl) hread rfl (lookup_second hstored) (new_second hstored)
  rw [hstored] at hrows₂
  obtain ⟨puts, adds, phase⟩ := s₂
  obtain rfl : adds = AddSessions.init := hadds₂.trans hadds₁
  obtain ⟨a₁, a₂, a₃, hselect, hinsert, hcommit, -, hcell, -⟩ := exists_first_row (1, 0) ⟨2⟩
  have hadd := Clients.exists_add puts (emptyCall ⟨2⟩) hphase₂ rfl rfl hselect hinsert
    (by simp [AddEvent.txn, Clients.afterAdd]) hcommit
  have hrow : a₃.committed (⟨7⟩, 1) = some (emptyRow ⟨2⟩ 1) := by
    rw [AddSessions.committed, hcell]
    rfl
  obtain ⟨doc, hdoc, hid, hkey⟩ := hclaim _ _
    (Run.append_iff.2 ⟨_, hput₁, Run.append_iff.2 ⟨_, hput₂, hadd⟩⟩) ⟨7⟩ 1 _ hrow
  have hid' : doc.id = ⟨2⟩ := ObjectId.str_injective hid
  rw [hrows₂] at hdoc
  rcases List.mem_pair.1 hdoc with rfl | rfl
  · exact absurd hid' (by decide)
  · exact absurd (key_toDoc.1 hkey).2 (by decide)

end Runs

end Ipa
