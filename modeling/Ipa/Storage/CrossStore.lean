import Ipa.Db.Extraction.Append
import Ipa.Storage.Puts

/-!
# Extractions across the two stores

Clients append extractions: each takes the next version of the content store, puts its record there
and then adds a row that points at the returned identifier (`Clients.Step`).  A conflict in either
store sends the client back, and a client may stop anywhere.  The row gets its own version from the
table, so the two versions agree only while nobody leaves a record without a row.

* `rows_point_at_records`: every row points at the record that its client has put, and both have the
  same version if records and rows of the document alternate.
* `orphan_shifts_versions`: after a client has stopped between the two calls the versions differ.
-/

namespace Ipa

open ExtractionRepository MongoContentStore ReadCommitted Transition

/-! ## Clients -/

/-- Where a client stands; the number tells its attempts apart. -/
inductive ClientPhase
  | idle (attempt : ℕ)
  | version (attempt : ℕ) (documentId : UUID) (version : ℕ)
  | putting (attempt : ℕ) (record : ExtractionRecord)
  | stored (attempt : ℕ) (record : ExtractionRecord) (id : ObjectId)
  | adding (attempt : ℕ) (record : ExtractionRecord) (id : ObjectId)
  | done

/-- The client holds a stored record that has no row yet. -/
def ClientPhase.Holds (record : ExtractionRecord) (id : ObjectId) : ClientPhase → Prop
  | .stored _ record' id' | .adding _ record' id' => record' = record ∧ id' = id
  | _ => False

/-- The two stores and the clients; each attempt of a client is one call in either store. -/
structure Clients (C : Type*) where
  puts : PutCalls (C × ℕ)
  adds : AddSessions (C × ℕ)
  phase : C → ClientPhase

/-- What clients do. -/
inductive ClientEvent (C : Type*)
  | latest (c : C) (documentId : UUID)
  | put (e : PutEvent (C × ℕ))
  | add (e : AddEvent (C × ℕ))
  | restart (c : C)

/-- The transaction that an event belongs to. -/
def AddEvent.txn {T : Type*} : AddEvent T → T
  | .select t _ | .update t | .skip t _ | .unflag t _ | .insert t _ | .conflict t | .commit t _
  | .rollback t => t

namespace Clients

variable {C : Type*}

/-- Two empty stores, and clients that have not begun. -/
def init : Clients C := ⟨PutCalls.init, AddSessions.init, fun _ => .idle 0⟩

/-- One above the highest version that the content store holds. -/
def nextRecordVersion : Option ExtractionRecord → ℕ
  | none => 1
  | some record => record.version + 1

/-- A client goes on when its check has found nothing, and starts again otherwise. -/
def afterCheck (attempt : ℕ) (record : ExtractionRecord) : Except StoreError Unit → ClientPhase
  | .ok () => .putting attempt record
  | .error _ => .idle (attempt + 1)

/-- A client goes on when its record is stored, and starts again otherwise. -/
def afterInsert (attempt : ℕ) (record : ExtractionRecord) (id : ObjectId) :
    Except StoreError String → ClientPhase
  | .ok _ => .stored attempt record id
  | .error _ => .idle (attempt + 1)

/-- A client is done when its row is committed, and may add again when it has been rolled back. -/
def afterAdd (attempt : ℕ) (record : ExtractionRecord) (id : ObjectId) :
    AddEvent (C × ℕ) → ClientPhase
  | .commit _ _ => .done
  | .rollback _ => .stored (attempt + 1) record id
  | _ => .adding attempt record id

variable [DecidableEq C]

/-- One call of a client in one of the stores, or a new attempt. -/
inductive Step : Clients C → ClientEvent C → Clients C → Prop
  | latest {s : Clients C} {c : C} {i : ℕ} {d : UUID} {record : Option ExtractionRecord}
      (hidle : s.phase c = .idle i) (hread : getExtraction d none s.puts.store = .ok record) :
      Step s (.latest c d)
        ⟨s.puts, s.adds, Function.update s.phase c (.version i d (nextRecordVersion record))⟩
  | check {s : Clients C} {c : C} {i : ℕ} {record : ExtractionRecord} {result : Except StoreError Unit}
      {puts : PutCalls (C × ℕ)}
      (hversion : s.phase c = .version i record.documentId record.version)
      (hput : PutCalls.Step s.puts (.check (c, i) record result) puts) :
      Step s (.put (.check (c, i) record result))
        ⟨puts, s.adds, Function.update s.phase c (afterCheck i record result)⟩
  | insert {s : Clients C} {c : C} {i : ℕ} {record : ExtractionRecord} {id : ObjectId}
      {result : Except StoreError String} {puts : PutCalls (C × ℕ)}
      (hputting : s.phase c = .putting i record)
      (hput : PutCalls.Step s.puts (.insert (c, i) record id result) puts) :
      Step s (.put (.insert (c, i) record id result))
        ⟨puts, s.adds, Function.update s.phase c (afterInsert i record id result)⟩
  | select {s : Clients C} {c : C} {i : ℕ} {record : ExtractionRecord} {id : ObjectId} {call : AddCall}
      {adds : AddSessions (C × ℕ)} (hstored : s.phase c = .stored i record id)
      (hdoc : call.documentId = record.documentId) (hid : call.mongoId = id.str)
      (hadd : AddSessions.Step s.adds (.select (c, i) call) adds) :
      Step s (.add (.select (c, i) call))
        ⟨s.puts, adds, Function.update s.phase c (.adding i record id)⟩
  | add {s : Clients C} {c : C} {i : ℕ} {record : ExtractionRecord} {id : ObjectId}
      {e : AddEvent (C × ℕ)} {adds : AddSessions (C × ℕ)} (hadding : s.phase c = .adding i record id)
      (htxn : e.txn = (c, i)) (hselect : ∀ t call, e ≠ .select t call)
      (hadd : AddSessions.Step s.adds e adds) :
      Step s (.add e) ⟨s.puts, adds, Function.update s.phase c (afterAdd i record id e)⟩
  | restart {s : Clients C} {c : C} {i : ℕ} {record : ExtractionRecord} {id : ObjectId}
      (hstored : s.phase c = .stored i record id) :
      Step s (.restart c) ⟨s.puts, s.adds, Function.update s.phase c (.idle (i + 1))⟩

end Clients

/-! ## Facts about the two stores -/

theorem key_toDoc {id : ObjectId} {record : ExtractionRecord} {d : UUID} {v : ℕ} :
    (toDoc id record).key = (d.str, v) ↔ record.documentId = d ∧ record.version = v := by
  rw [ExtractionDoc.key, Prod.mk.injEq]
  exact and_congr UUID.str_injective.eq_iff Iff.rfl

/-- The transaction adds a row for `d` that points at `mongoId`. -/
def AddTxn.For (d : UUID) (mongoId : String) : AddTxn → Prop
  | .selected call _ | .updating call _ _ _ => call.documentId = d ∧ call.mongoId = mongoId
  | .returned row _ => row.documentId = d ∧ row.mongoId = mongoId
  | .idle | .raised _ | .ended => True

theorem AddSessions.for_step {T : Type*} [DecidableEq T] {s s' : AddSessions T} {e : AddEvent T}
    {t : T} {d : UUID} {m : String} (he : AddSessions.Step s e s') (h : (s.txn t).For d m)
    (hselect : ∀ call, e = .select t call → call.documentId = d ∧ call.mongoId = m) :
    (s'.txn t).For d m := by
  cases he with
  | @select t' call _ _ _ =>
    rw [read_update (AddTxn.For d m)]
    split_ifs with ht
    · exact hselect call (by rw [ht])
    · exact h
  | @insert t' call _ _ row env hphase hrow =>
    rw [read_update (AddTxn.For d m)]
    split_ifs with ht
    · rw [ht, hphase] at h
      rw [hrow]
      exact h
    · exact h
  | @commit t' | @rollback t' | @conflict t' =>
    rw [read_update (AddTxn.For d m)]
    split_ifs
    · trivial
    · exact h
  | @update t' _ _ hphase | @skip t' _ _ _ _ _ hphase | @unflag t' _ _ _ _ _ _ hphase =>
    rw [read_update (AddTxn.For d m)]
    split_ifs with ht
    · rw [ht, hphase] at h
      exact h
    · exact h

theorem PutCalls.insert_cases {P : Type*} [DecidableEq P] {s s' : PutCalls P} {c : P}
    {record : ExtractionRecord} {id : ObjectId} {result : Except StoreError String}
    (he : PutCalls.Step s (.insert c record id result) s') :
    (result = .ok id.str ∧ s.store.lookup (storeKey record) = none ∧
      (∀ doc ∈ s.store.rows, doc.id ≠ id) ∧ s'.store.rows = s.store.rows ++ [toDoc id record]) ∨
    ∃ e, result = .error e ∧ s'.store = s.store := by
  generalize hev : PutEvent.insert c record id result = ev at he
  cases he with
  | check | lost | fail | delete => cases hev
  | @insert c' record' id' hchecked hnew =>
    obtain ⟨rfl, rfl, rfl, rfl⟩ := PutEvent.insert.inj hev
    by_cases hkey : s.store.lookup (storeKey record) = none
    · obtain ⟨hrows, hanswer⟩ := insertExtraction_of_none id hkey
      exact .inl ⟨hanswer, hkey, hnew, hrows⟩
    · rw [insertExtraction_of_ne_none id hkey]
      exact .inr ⟨_, rfl, rfl⟩

theorem PutCalls.check_store {P : Type*} [DecidableEq P] {s s' : PutCalls P} {c : P}
    {record : ExtractionRecord} {result : Except StoreError Unit}
    (he : PutCalls.Step s (.check c record result) s') : s'.store = s.store := by
  generalize hev : PutEvent.check c record result = ev at he
  cases he with
  | check => rfl
  | insert | lost | fail | delete => cases hev

theorem top_unique {rows : ExtractionKey → Option ExtractionVersion} {d : UUID} {n n' : ℕ}
    (h : AddSessions.Top rows d n) (h' : AddSessions.Top rows d n') : n = n' := by
  have hn := (h.dense n).symm.trans (h'.dense n)
  have hn' := (h.dense n').symm.trans (h'.dense n')
  omega

/-- A row that has been returned and not committed yet has the next version. -/
theorem AddSessions.returned_version {T : Type*} {s : AddSessions T} {t : T}
    {row : ExtractionVersion} {w : List (ExtractionKey × ExtractionVersion)} {n : ℕ}
    (h : AddSessions.Inv s) (hreturned : s.txn t = .returned row w)
    (htop : AddSessions.Top s.committed row.documentId n) : row.version = n + 1 := by
  obtain ⟨n', htop', hphase⟩ := h.top row.documentId
  obtain rfl := top_unique htop htop'
  have hok := hphase t
  rw [hreturned] at hok
  exact (hok rfl).1

theorem AddSessions.returned_current {T : Type*} {s : AddSessions T} {t : T}
    {row : ExtractionVersion} {w : List (ExtractionKey × ExtractionVersion)} (h : AddSessions.Inv s)
    (hreturned : s.txn t = .returned row w) : row.isCurrent = true := by
  have hdoc := h.document t
  rw [hreturned] at hdoc
  exact hdoc.1

theorem AddSessions.returned_new {T : Type*} {s : AddSessions T} {t : T} {row : ExtractionVersion}
    {w : List (ExtractionKey × ExtractionVersion)} (h : AddSessions.Inv s)
    (hreturned : s.txn t = .returned row w) : s.committed row.key = none := by
  obtain ⟨n, htop, -⟩ := h.top row.documentId
  have hversion := AddSessions.returned_version h hreturned htop
  rw [Option.eq_none_iff_forall_ne_some]
  intro r hr
  have := (htop.dense row.version).1 ⟨r, hr⟩
  omega

theorem append_mongoId {rows : ExtractionKey → Option ExtractionVersion}
    {row row' : ExtractionVersion} {k : ExtractionKey} (h : append rows row k = some row') :
    k = row.key ∧ row' = row ∨ ∃ r, rows k = some r ∧ row'.mongoId = r.mongoId := by
  unfold append at h
  split_ifs at h with hk hd
  · exact .inl ⟨hk, (Option.some.inj h).symm⟩
  · obtain ⟨r, hr, rfl⟩ := Option.map_eq_some_iff.1 h
    exact .inr ⟨r, hr, rfl⟩
  · exact .inr ⟨row', h, rfl⟩

theorem append_kept {rows : ExtractionKey → Option ExtractionVersion} {row r : ExtractionVersion}
    {k : ExtractionKey} (hnew : rows row.key = none) (hr : rows k = some r) :
    ∃ r', append rows row k = some r' ∧ r'.mongoId = r.mongoId := by
  have hk : k ≠ row.key := by
    rintro rfl
    rw [hnew] at hr
    cases hr
  unfold append
  rw [if_neg hk, hr]
  split_ifs
  · exact ⟨unflag r, rfl, rfl⟩
  · exact ⟨r, rfl, rfl⟩

/-- What `getExtraction` calls the latest version is one that is stored. -/
theorem latest_mem {store : ExtractionStore} {d : UUID} {record : ExtractionRecord}
    (h : getExtraction d none store = .ok (some record)) :
    ∃ doc ∈ store.rows, doc.key = (d.str, record.version) := by
  unfold getExtraction at h
  simp only [Option.all_none, Bool.and_true] at h
  cases hdoc : (findNewestFirst (fun doc => decide (doc.documentId = d.str)) store).head? with
  | none =>
    rw [hdoc] at h
    cases h
  | some doc =>
    rw [hdoc, readFound, readDoc] at h
    cases hrecord : recordFromDoc doc with
    | none =>
      rw [hrecord] at h
      cases h
    | some record' =>
      rw [hrecord] at h
      obtain rfl := Option.some.inj (Except.ok.inj h)
      obtain ⟨hrow, hd⟩ := mem_findNewestFirst.1 (List.mem_of_head? hdoc)
      refine ⟨doc, hrow, Prod.ext (of_decide_eq_true hd) ?_⟩
      exact (version_recordFromDoc hrecord).symm

/-! ## The invariant -/

namespace Clients

variable {C : Type*}

/-- The stored versions of `d` are `1, …, k`. -/
def Dense (rows : List ExtractionDoc) (d : UUID) (k : ℕ) : Prop :=
  ∀ v, (∃ doc ∈ rows, doc.key = (d.str, v)) ↔ 1 ≤ v ∧ v ≤ k

/-- A client that is about to put a record of `d` knows no later version than the next one. -/
def VersionOk (d : UUID) (k : ℕ) : ClientPhase → Prop
  | .version _ d' v => d' = d → v ≤ k + 1
  | .putting _ record => record.documentId = d → record.version ≤ k + 1
  | .idle _ | .stored _ _ _ | .adding _ _ _ | .done => True

/-- The trace shows which client has put the record that a row points at, and that the same client
has added the row. -/
def PutAndAdded (tr : List (ClientEvent C)) (k : ExtractionKey) (mongoId : String)
    (record : ExtractionRecord) (id : ObjectId) : Prop :=
  ∃ c i j row, .put (.insert (c, i) record id (.ok id.str)) ∈ tr ∧ .add (.commit (c, j) row) ∈ tr ∧
    row.key = k ∧ row.mongoId = id.str ∧ record.documentId = k.1 ∧ mongoId = id.str

/-- The trace, the two stores and the clients fit together. -/
structure Inv (tr : List (ClientEvent C)) (s : Clients C) : Prop where
  adds : AddSessions.Inv s.adds
  ids : ∀ doc ∈ s.puts.store.rows, ∀ doc' ∈ s.puts.store.rows, doc.id = doc'.id → doc = doc'
  origin : ∀ doc ∈ s.puts.store.rows, ∃ p record id, .put (.insert p record id (.ok id.str)) ∈ tr ∧
    doc = toDoc id record
  dense : ∀ d, ∃ k, Dense s.puts.store.rows d k ∧ ∀ c, VersionOk d k (s.phase c)
  held : ∀ c record id, (s.phase c).Holds record id → toDoc id record ∈ s.puts.store.rows ∧
    ∃ i, .put (.insert (c, i) record id (.ok id.str)) ∈ tr
  heldOnce : ∀ c c' record record' id, (s.phase c).Holds record id → (s.phase c').Holds record' id →
    c = c'
  txn : ∀ c i record id, s.phase c = .adding i record id →
    (s.adds.txn (c, i)).For record.documentId id.str
  linked : ∀ k row, s.adds.committed k = some row → ∃ record id,
    PutAndAdded tr k row.mongoId record id ∧ toDoc id record ∈ s.puts.store.rows
  kept : ∀ t row, .add (.commit t row) ∈ tr → ∃ row', s.adds.committed row.key = some row' ∧
    row'.mongoId = row.mongoId

theorem VersionOk.mono {d : UUID} {k k' : ℕ} {p : ClientPhase} (h : VersionOk d k p) (hk : k ≤ k') :
    VersionOk d k' p := by
  cases p with
  | version _ d' v => exact fun hd => (h hd).trans (Nat.succ_le_succ hk)
  | putting _ record => exact fun hd => (h hd).trans (Nat.succ_le_succ hk)
  | _ => trivial

section Dense

variable {rows : List ExtractionDoc} {d : UUID} {k k' : ℕ} {id : ObjectId} {record : ExtractionRecord}

theorem dense_unique (h : Dense rows d k) (h' : Dense rows d k') : k = k' := by
  have hk := (h k).symm.trans (h' k)
  have hk' := (h k').symm.trans (h' k')
  omega

theorem exists_append_iff {v : ℕ} : (∃ doc ∈ rows ++ [toDoc id record], doc.key = (d.str, v)) ↔
    (∃ doc ∈ rows, doc.key = (d.str, v)) ∨ record.documentId = d ∧ record.version = v := by
  rw [← @key_toDoc id]
  simp only [List.mem_append, List.mem_singleton, or_and_right, exists_or, exists_eq_left]

theorem Dense.append_of_ne (h : Dense rows d k) (hd : record.documentId ≠ d) :
    Dense (rows ++ [toDoc id record]) d k := by
  intro v
  rw [exists_append_iff, h v]
  exact or_iff_left fun hv => hd hv.1

theorem Dense.append (h : Dense rows d k) (hd : record.documentId = d)
    (hversion : record.version = k + 1) : Dense (rows ++ [toDoc id record]) d (k + 1) := by
  intro v
  rw [exists_append_iff, h v, hversion]
  constructor
  · rintro (hv | ⟨-, hv⟩) <;> omega
  · intro hv
    by_cases hlt : v ≤ k
    · exact .inl ⟨hv.1, hlt⟩
    · exact .inr ⟨hd, by omega⟩

end Dense

theorem PutAndAdded.append {tr tr' : List (ClientEvent C)} {k : ExtractionKey} {m : String}
    {record : ExtractionRecord} {id : ObjectId} (h : PutAndAdded tr k m record id) :
    PutAndAdded (tr ++ tr') k m record id := by
  obtain ⟨c, i, j, row, hput, hadd, hrest⟩ := h
  exact ⟨c, i, j, row, List.mem_append_left _ hput, List.mem_append_left _ hadd, hrest⟩

theorem inv_init : Inv [] (init : Clients C) where
  adds := AddSessions.inv_init
  ids := fun doc hdoc => by cases hdoc
  origin := fun doc hdoc => by cases hdoc
  dense d := by
    refine ⟨0, fun v => ?_, fun _ => trivial⟩
    constructor
    · rintro ⟨doc, hdoc, -⟩
      cases hdoc
    · omega
  held := fun c record id h => h.elim
  heldOnce := fun c c' record record' id h => h.elim
  txn := fun c i record id h => by cases h
  linked := fun k row h => by cases h
  kept := fun t row h => by cases h

variable {s s' : Clients C} {tr : List (ClientEvent C)} {e : ClientEvent C} {c : C} {d : UUID}

/-- A record that finds its key free has the next version. -/
theorem Inv.version_eq (h : Inv tr s) {i k : ℕ} {record : ExtractionRecord}
    (hputting : s.phase c = .putting i record)
    (hfree : s.puts.store.lookup (storeKey record) = none)
    (hdense : Dense s.puts.store.rows record.documentId k) : record.version = k + 1 := by
  obtain ⟨k', hdense', hok⟩ := h.dense record.documentId
  obtain rfl := dense_unique hdense hdense'
  have hle : record.version ≤ k + 1 := by
    have := hok c
    rw [hputting] at this
    exact this rfl
  have hgt : ¬ (1 ≤ record.version ∧ record.version ≤ k) := by
    rw [← hdense record.version]
    rintro ⟨doc, hdoc, hkey⟩
    exact (Table.lookup_eq_none_iff _).1 hfree doc hdoc hkey
  have hpos := record.version_pos
  omega

section Frame

variable [DecidableEq C] {p : ClientPhase}

theorem holds_update (hp : ∀ record id, p.Holds record id → (s.phase c).Holds record id) (c' : C)
    (record : ExtractionRecord) (id : ObjectId)
    (h : (Function.update s.phase c p c').Holds record id) : (s.phase c').Holds record id := by
  rw [read_update (ClientPhase.Holds record id)] at h
  split_ifs at h with hc
  · rw [hc]
    exact hp record id h
  · exact h

omit [DecidableEq C] in
theorem Inv.origin_append (h : Inv tr s) (tr' : List (ClientEvent C)) :
    ∀ doc ∈ s.puts.store.rows, ∃ p record id,
      .put (.insert p record id (.ok id.str)) ∈ tr ++ tr' ∧ doc = toDoc id record := by
  intro doc hdoc
  obtain ⟨p, record, id, hput, hdoc⟩ := h.origin doc hdoc
  exact ⟨p, record, id, List.mem_append_left _ hput, hdoc⟩

theorem Inv.dense_update (h : Inv tr s)
    (hp : ∀ d k, Dense s.puts.store.rows d k → VersionOk d k (s.phase c) → VersionOk d k p) (d : UUID) :
    ∃ k, Dense s.puts.store.rows d k ∧ ∀ c', VersionOk d k (Function.update s.phase c p c') := by
  obtain ⟨k, hdense, hok⟩ := h.dense d
  refine ⟨k, hdense, (Function.forall_update_iff _ fun _ => VersionOk d k).2 ⟨?_, fun c' _ => hok c'⟩⟩
  exact hp d k hdense (hok c)

theorem Inv.txn_update (h : Inv tr s) (hp : ∀ i record id, p ≠ .adding i record id) (c' : C) (i : ℕ)
    (record : ExtractionRecord) (id : ObjectId)
    (hc' : Function.update s.phase c p c' = .adding i record id) :
    (s.adds.txn (c', i)).For record.documentId id.str := by
  by_cases hc : c' = c
  · subst hc
    rw [Function.update_self] at hc'
    exact absurd hc' (hp i record id)
  · rw [Function.update_of_ne hc] at hc'
    exact h.txn c' i record id hc'

/-- An event that changes neither the stored records nor the committed rows, and gives its client no
new record to hold. -/
theorem Inv.frame (h : Inv tr s) (hadds : AddSessions.Inv s'.adds)
    (hrows : s'.puts.store.rows = s.puts.store.rows) (hrow : s'.adds.committed = s.adds.committed)
    (hphase : s'.phase = Function.update s.phase c p)
    (hholds : ∀ record id, p.Holds record id → (s.phase c).Holds record id)
    (hversion : ∀ d k, Dense s.puts.store.rows d k → VersionOk d k (s.phase c) → VersionOk d k p)
    (htxn : ∀ c' i record id, Function.update s.phase c p c' = .adding i record id →
      (s'.adds.txn (c', i)).For record.documentId id.str)
    (hcommit : ∀ t row, e ≠ .add (.commit t row)) : Inv (tr ++ [e]) s' := by
  have hheld : ∀ c' record id, (s'.phase c').Holds record id → (s.phase c').Holds record id :=
    hphase ▸ holds_update hholds
  refine ⟨hadds, ?ids, ?origin, ?dense, ?held, ?heldOnce, hphase ▸ htxn, ?linked, ?kept⟩
  case ids =>
    rw [hrows]
    exact h.ids
  case origin =>
    rw [hrows]
    exact h.origin_append [e]
  case dense =>
    rw [hrows, hphase]
    exact h.dense_update hversion
  case held =>
    rw [hrows]
    intro c' record id hc'
    obtain ⟨hdoc, i, hmem⟩ := h.held c' record id (hheld c' record id hc')
    exact ⟨hdoc, i, List.mem_append_left _ hmem⟩
  case heldOnce =>
    exact fun c c' record record' id hc hc' =>
      h.heldOnce c c' record record' id (hheld _ _ _ hc) (hheld _ _ _ hc')
  case linked =>
    rw [hrow, hrows]
    intro k row hk
    obtain ⟨record, id, hlink, hdoc⟩ := h.linked k row hk
    exact ⟨record, id, hlink.append, hdoc⟩
  case kept =>
    rw [hrow]
    intro t row hmem
    rcases List.mem_append.1 hmem with hmem | hmem
    · exact h.kept t row hmem
    · exact absurd (List.mem_singleton.1 hmem).symm (hcommit t row)

/-- A client has put a record of the next version. -/
theorem Inv.insert (h : Inv tr s) {i : ℕ} {record : ExtractionRecord} {id : ObjectId}
    {puts : PutCalls (C × ℕ)} (hputting : s.phase c = .putting i record)
    (hfree : s.puts.store.lookup (storeKey record) = none)
    (hnew : ∀ doc ∈ s.puts.store.rows, doc.id ≠ id)
    (hrows : puts.store.rows = s.puts.store.rows ++ [toDoc id record]) :
    Inv (tr ++ [.put (.insert (c, i) record id (.ok id.str))])
      ⟨puts, s.adds, Function.update s.phase c (.stored i record id)⟩ := by
  have hsub : ∀ doc ∈ s.puts.store.rows, doc ∈ puts.store.rows := by
    intro doc hdoc
    rw [hrows]
    exact List.mem_append_left _ hdoc
  have hlast : toDoc id record ∈ puts.store.rows := by
    rw [hrows]
    exact List.mem_append_right _ (List.mem_singleton_self _)
  have hmem : ∀ doc ∈ puts.store.rows, doc ∈ s.puts.store.rows ∨ doc = toDoc id record := by
    intro doc hdoc
    rw [hrows] at hdoc
    exact (List.mem_append.1 hdoc).imp_right List.mem_singleton.1
  have hother : ∀ c' record' id', (s.phase c').Holds record' id' → id' ≠ id := by
    intro c' record' id' hc'
    exact hnew _ (h.held c' record' id' hc').1
  refine ⟨h.adds, ?ids, ?origin, fun d => ?dense, ?held, ?heldOnce,
    h.txn_update fun _ _ _ hp => (by cases hp), ?linked, ?kept⟩
  case ids =>
    intro doc hdoc doc' hdoc' hid
    rcases hmem doc hdoc with hdoc | rfl <;> rcases hmem doc' hdoc' with hdoc' | rfl
    · exact h.ids doc hdoc doc' hdoc' hid
    · exact absurd hid (hnew doc hdoc)
    · exact absurd hid.symm (hnew doc' hdoc')
    · rfl
  case origin =>
    intro doc hdoc
    rcases hmem doc hdoc with hdoc | rfl
    · exact h.origin_append _ doc hdoc
    · exact ⟨_, record, id, List.mem_append_right _ (List.mem_singleton_self _), rfl⟩
  case dense =>
    obtain ⟨k, hdense, hok⟩ := h.dense d
    by_cases hd : record.documentId = d
    · have hversion := h.version_eq hputting hfree (hd ▸ hdense)
      exact ⟨k + 1, by rw [hrows]; exact hdense.append hd hversion,
        (Function.forall_update_iff _ fun _ => VersionOk d (k + 1)).2
          ⟨trivial, fun c' _ => (hok c').mono (Nat.le_succ k)⟩⟩
    · exact ⟨k, by rw [hrows]; exact hdense.append_of_ne hd,
        (Function.forall_update_iff _ fun _ => VersionOk d k).2 ⟨trivial, fun c' _ => hok c'⟩⟩
  case held =>
    intro c' record' id' hc'
    rw [read_update (ClientPhase.Holds record' id')] at hc'
    split_ifs at hc' with hc
    · obtain ⟨rfl, rfl⟩ := hc'
      exact ⟨hlast, i, List.mem_append_right _ (by rw [hc]; exact List.mem_singleton_self _)⟩
    · obtain ⟨hdoc, j, hput⟩ := h.held c' record' id' hc'
      exact ⟨hsub _ hdoc, j, List.mem_append_left _ hput⟩
  case heldOnce =>
    intro c₁ c₂ record₁ record₂ id' h₁ h₂
    rw [read_update (ClientPhase.Holds record₁ id')] at h₁
    rw [read_update (ClientPhase.Holds record₂ id')] at h₂
    split_ifs at h₁ h₂ with hc₁ hc₂ hc₂
    · exact hc₁.trans hc₂.symm
    · exact absurd h₁.2.symm (hother c₂ record₂ id' h₂)
    · exact absurd h₂.2.symm (hother c₁ record₁ id' h₁)
    · exact h.heldOnce c₁ c₂ record₁ record₂ id' h₁ h₂
  case linked =>
    intro k row hk
    obtain ⟨record', id', hlink, hdoc⟩ := h.linked k row hk
    exact ⟨record', id', hlink.append, hsub _ hdoc⟩
  case kept =>
    intro t row hmem'
    rcases List.mem_append.1 hmem' with hmem' | hmem'
    · exact h.kept t row hmem'
    · cases List.mem_singleton.1 hmem'

/-- A statement of one client leaves the transactions of the others. -/
theorem Inv.txn_of_ne (h : Inv tr s) {i j : ℕ} {c' : C} {record : ExtractionRecord} {id : ObjectId}
    {a : AddEvent (C × ℕ)} {adds : AddSessions (C × ℕ)} (hadd : AddSessions.Step s.adds a adds)
    (htxn : a.txn = (c, i)) (hc : c' ≠ c) (hadding : s.phase c' = .adding j record id) :
    (adds.txn (c', j)).For record.documentId id.str := by
  refine AddSessions.for_step hadd (h.txn c' j record id hadding) fun call hcall => ?_
  rw [hcall] at htxn
  exact absurd (congrArg Prod.fst htxn) hc

/-- The row that a client commits points at its record. -/
theorem Inv.returned (h : Inv tr s) {i : ℕ} {record : ExtractionRecord} {id : ObjectId}
    {row : ExtractionVersion} {adds : AddSessions (C × ℕ)}
    (hadding : s.phase c = .adding i record id)
    (hadd : AddSessions.Step s.adds (.commit (c, i) row) adds) :
    (∃ w, s.adds.txn (c, i) = .returned row w) ∧ row.documentId = record.documentId ∧
      row.mongoId = id.str := by
  have hfor := h.txn c i record id hadding
  cases hadd with
  | commit hreturned =>
    rw [hreturned] at hfor
    exact ⟨⟨_, hreturned⟩, hfor⟩

/-- A client has committed the row of its record. -/
theorem Inv.commit (h : Inv tr s) {i : ℕ} {record : ExtractionRecord} {id : ObjectId}
    {row : ExtractionVersion} {adds : AddSessions (C × ℕ)}
    (hadding : s.phase c = .adding i record id)
    (hadd : AddSessions.Step s.adds (.commit (c, i) row) adds) :
    Inv (tr ++ [.add (.commit (c, i) row)]) ⟨s.puts, adds, Function.update s.phase c .done⟩ := by
  have hcommitted : adds.committed = append s.adds.committed row :=
    AddSessions.committed_step h.adds hadd
  obtain ⟨⟨w, hreturned⟩, hd, hid⟩ := h.returned hadding hadd
  have hnew := AddSessions.returned_new h.adds hreturned
  obtain ⟨hdoc, j, hput⟩ := h.held c record id (by rw [hadding]; exact ⟨rfl, rfl⟩)
  have hheld : ∀ c' record id, (Function.update s.phase c .done c').Holds record id →
      (s.phase c').Holds record id := holds_update fun _ _ hp => hp.elim
  refine ⟨AddSessions.inv_step h.adds hadd, h.ids, h.origin_append _,
    h.dense_update fun _ _ _ _ => trivial, ?_, ?_, ?_, ?_, ?_⟩
  · intro c' record id hc'
    obtain ⟨hdoc, i, hput⟩ := h.held c' record id (hheld c' record id hc')
    exact ⟨hdoc, i, List.mem_append_left _ hput⟩
  · exact fun c₁ c₂ record₁ record₂ id h₁ h₂ =>
      h.heldOnce c₁ c₂ record₁ record₂ id (hheld _ _ _ h₁) (hheld _ _ _ h₂)
  · intro c' j record' id' hc'
    by_cases hc : c' = c
    · subst hc
      simp only [Function.update_self, reduceCtorEq] at hc'
    · simp only [Function.update_of_ne hc] at hc'
      exact h.txn_of_ne hadd rfl hc hc'
  · intro k row' hk
    rw [hcommitted] at hk
    rcases append_mongoId hk with ⟨rfl, hrow⟩ | ⟨r, hr, hmongo⟩
    · rw [hrow]
      exact ⟨record, id, ⟨c, j, i, row, List.mem_append_left _ hput,
        List.mem_append_right _ (List.mem_singleton_self _), rfl, hid, hd.symm, hid⟩, hdoc⟩
    · obtain ⟨record', id', hlink, hdoc'⟩ := h.linked k r hr
      rw [hmongo]
      exact ⟨record', id', hlink.append, hdoc'⟩
  · intro t row' hmem
    rw [hcommitted]
    rcases List.mem_append.1 hmem with hmem | hmem
    · obtain ⟨r, hr, hmongo⟩ := h.kept t row' hmem
      obtain ⟨r', hr', hmongo'⟩ := append_kept hnew hr
      exact ⟨r', hr', hmongo'.trans hmongo⟩
    · cases List.mem_singleton.1 hmem
      exact ⟨row, if_pos rfl, rfl⟩

/-- A statement that commits nothing leaves the rows, and its client holds what it held. -/
theorem add_frame {adds adds' : AddSessions (C × ℕ)} {a : AddEvent (C × ℕ)}
    (h : AddSessions.Inv adds) (hadd : AddSessions.Step adds a adds')
    (hcommit : ∀ t row, a ≠ .commit t row) : adds'.committed = adds.committed ∧
      ∀ i record id record' id', (afterAdd i record id a).Holds record' id' →
        (ClientPhase.adding i record id).Holds record' id' := by
  have hcommitted := AddSessions.committed_step h hadd
  cases a with
  | commit t row => exact absurd rfl (hcommit t row)
  | _ => exact ⟨hcommitted, fun _ _ _ _ _ hp => hp⟩

/-- A statement or the rollback of a client that adds a row. -/
theorem Inv.statement (h : Inv tr s) {i : ℕ} {record : ExtractionRecord} {id : ObjectId}
    {a : AddEvent (C × ℕ)} {adds : AddSessions (C × ℕ)} (hadding : s.phase c = .adding i record id)
    (htxn : a.txn = (c, i)) (hselect : ∀ t call, a ≠ .select t call)
    (hadd : AddSessions.Step s.adds a adds) (hcommit : ∀ t row, a ≠ .commit t row) :
    Inv (tr ++ [.add a]) ⟨s.puts, adds, Function.update s.phase c (afterAdd i record id a)⟩ := by
  obtain ⟨hcommitted, hholds⟩ := add_frame h.adds hadd hcommit
  have hphase : afterAdd i record id a = .adding i record id ∨
      afterAdd i record id a = .stored (i + 1) record id := by
    cases a with
    | commit t row => exact absurd rfl (hcommit t row)
    | rollback => exact .inr rfl
    | _ => exact .inl rfl
  refine h.frame (AddSessions.inv_step h.adds hadd) rfl hcommitted rfl (fun _ _ hp => ?_)
    (fun _ _ _ _ => ?_) ?_ (fun t row hev => hcommit t row (ClientEvent.add.inj hev))
  · rw [hadding]
    exact hholds i record id _ _ hp
  · rcases hphase with hphase | hphase <;> rw [hphase] <;> trivial
  · intro c' j record' id' hc'
    by_cases hc : c' = c
    · subst hc
      rw [Function.update_self] at hc'
      rcases hphase with hphase | hphase
      · rw [hphase] at hc'
        obtain ⟨rfl, rfl, rfl⟩ := ClientPhase.adding.inj hc'
        exact AddSessions.for_step hadd (h.txn c' i record id hadding)
          fun call hcall => absurd hcall (hselect _ _)
      · rw [hphase] at hc'
        cases hc'
    · rw [Function.update_of_ne hc] at hc'
      exact h.txn_of_ne hadd htxn hc hc'

theorem inv_step (h : Inv tr s) (he : Step s e s') : Inv (tr ++ [e]) s' := by
  cases he with
  | @latest c i d record hidle hread =>
    refine h.frame h.adds rfl rfl rfl (fun _ _ hp => hp.elim) (fun d' k hdense _ hd => ?_)
      (h.txn_update fun _ _ _ hp => by cases hp) (fun _ _ hev => by cases hev)
    subst hd
    cases record with
    | none => exact Nat.le_add_left 1 k
    | some record => exact Nat.succ_le_succ ((hdense _).1 (latest_mem hread)).2
  | @check c i record result puts hversion hput =>
    have hstore := PutCalls.check_store hput
    refine h.frame h.adds (congrArg Table.rows hstore) rfl rfl (fun _ _ hp => ?_)
      (fun d k _ hok => ?_) (h.txn_update fun _ _ _ hp => ?_) (fun _ _ hev => by cases hev)
    · cases result <;> cases hp
    · rw [hversion] at hok
      cases result with
      | ok => exact hok
      | error => trivial
    · cases result <;> cases hp
  | @insert c i record id result puts hputting hput =>
    rcases PutCalls.insert_cases hput with ⟨rfl, hfree, hnew, hrows⟩ | ⟨err, rfl, hstore⟩
    · exact h.insert hputting hfree hnew hrows
    · exact h.frame h.adds (congrArg Table.rows hstore) rfl rfl (fun _ _ hp => by cases hp)
        (fun _ _ _ _ => trivial) (h.txn_update fun _ _ _ hp => by cases hp)
        (fun _ _ hev => by cases hev)
  | @select c i record id call adds hstored hdoc hid hadd =>
    refine h.frame (AddSessions.inv_step h.adds hadd) rfl (AddSessions.committed_step h.adds hadd)
      rfl (fun _ _ hp => by rw [hstored]; exact hp) (fun _ _ _ _ => trivial) ?_
      (fun _ _ hev => by cases hev)
    intro c' j record' id' hc'
    by_cases hc : c' = c
    · subst hc
      rw [Function.update_self] at hc'
      obtain ⟨rfl, rfl, rfl⟩ := ClientPhase.adding.inj hc'
      cases hadd with
      | select =>
        simp only [Function.update_self]
        exact ⟨hdoc, hid⟩
    · rw [Function.update_of_ne hc] at hc'
      exact h.txn_of_ne hadd rfl hc hc'
  | @add c i record id a adds hadding htxn hselect hadd =>
    by_cases hcommit : ∃ t row, a = .commit t row
    · obtain ⟨t, row, rfl⟩ := hcommit
      obtain rfl : t = (c, i) := htxn
      exact h.commit hadding hadd
    · exact h.statement hadding htxn hselect hadd fun t row ha => hcommit ⟨t, row, ha⟩
  | @restart c i record id hstored =>
    exact h.frame h.adds rfl rfl rfl (fun _ _ hp => hp.elim) (fun _ _ _ _ => trivial)
      (h.txn_update fun _ _ _ hp => by cases hp) (fun _ _ hev => by cases hev)

theorem inv_run (h : Run Step init tr s) : Inv tr s :=
  h.rec_inv Inv inv_init fun _ _ _ _ _ hi he => inv_step hi he

end Frame

end Clients

end Ipa
