import Ipa.Storage.Content
import Ipa.Lib.Run
import Mathlib.Data.List.Induction

/-!
# Concurrent writers of extractions

Any number of calls of `putExtraction`, the two operations of each with other operations between
them, with deletes of documents at any moment (`PutCalls.Step`).  A driver error ends a call, and the
insert of a call that fails may have been executed all the same.

* `PutCalls.rows_run`: the stored documents are those of the successful calls.
* `put_extraction_once`: of the completed calls with one key exactly one succeeds, unless an insert
  without an answer has taken the key.
-/

namespace Ipa

open MongoContentStore Transition

/-- Where a call stands: not begun, past its check, or over. -/
inductive PutPhase
  | idle
  | checked (record : ExtractionRecord)
  | done

/-- The collection and the calls. -/
structure PutCalls (C : Type*) where
  store : ExtractionStore
  phase : C → PutPhase

/-- The operations of the calls, with what they return, and the deletes.  The result of a lost insert
is the answer that does not arrive: its call fails. -/
inductive PutEvent (C : Type*)
  | check (c : C) (record : ExtractionRecord) (result : Except StoreError Unit)
  | insert (c : C) (record : ExtractionRecord) (id : ObjectId) (result : Except StoreError String)
  | lost (c : C) (record : ExtractionRecord) (id : ObjectId) (result : Except StoreError String)
  | fail (c : C)
  | delete (documentId : UUID)

namespace PutEvent

variable {C : Type*}

/-- The event ends a call for version `v` of `d` with success. -/
def succeeds (d : UUID) (v : ℕ) : PutEvent C → Bool
  | insert _ record _ (.ok _) => record.documentId = d ∧ record.version = v
  | _ => false

/-- The event stores version `v` of `d` although its call fails. -/
def loses (d : UUID) (v : ℕ) : PutEvent C → Bool
  | lost _ record _ (.ok _) => record.documentId = d ∧ record.version = v
  | _ => false

/-- The event ends a call for version `v` of `d` with a conflict. -/
def conflicts (d : UUID) (v : ℕ) : PutEvent C → Bool
  | check _ record (.error (.conflict _)) => record.documentId = d ∧ record.version = v
  | insert _ record _ (.error (.conflict _)) => record.documentId = d ∧ record.version = v
  | _ => false

/-- The record that the event stores, with its identifier. -/
def inserted? : PutEvent C → Option (ObjectId × ExtractionRecord)
  | insert _ record id result | lost _ record id result => result.toOption.map fun _ => (id, record)
  | _ => none

/-- The document that the event stores. -/
def stored? (e : PutEvent C) : Option ExtractionDoc :=
  e.inserted?.map fun (id, record) => toDoc id record

end PutEvent

namespace PutCalls

variable {C : Type*}

/-- An empty collection, no calls. -/
def init : PutCalls C := ⟨Table.empty _, fun _ => .idle⟩

/-- The phase of a call after its check. -/
def afterCheck (record : ExtractionRecord) : Except StoreError Unit → PutPhase
  | .ok () => .checked record
  | .error _ => .done

/-! ## The inserts of a trace -/

section Trace

variable {tr : List (PutEvent C)} {id : ObjectId} {record : ExtractionRecord}

theorem stored?_eq_some_iff {e : PutEvent C} {doc : ExtractionDoc} : e.stored? = some doc ↔
    ∃ id record, e.inserted? = some (id, record) ∧ toDoc id record = doc := by
  rw [PutEvent.stored?, Option.map_eq_some_iff]
  exact Prod.exists

/-- The document was inserted by an event of the trace. -/
theorem mem_stored {doc : ExtractionDoc} (h : doc ∈ tr.filterMap PutEvent.stored?) :
    ∃ e ∈ tr, ∃ id record, e.inserted? = some (id, record) ∧ toDoc id record = doc := by
  obtain ⟨e, he, hdoc⟩ := List.mem_filterMap.1 h
  exact ⟨e, he, stored?_eq_some_iff.1 hdoc⟩

theorem stored_mem {e : PutEvent C} (he : e ∈ tr) (hinsert : e.inserted? = some (id, record)) :
    toDoc id record ∈ tr.filterMap PutEvent.stored? :=
  List.mem_filterMap.2 ⟨e, he, stored?_eq_some_iff.2 ⟨id, record, hinsert, rfl⟩⟩

/-- An event stores a document under a key if and only if it ends a call with success or fails it after
the insert. -/
theorem stored?_any (e : PutEvent C) (d : UUID) (v : ℕ) :
    (e.stored?).any (fun doc => doc.key = (d.str, v)) = (e.succeeds d v || e.loses d v) := by
  cases e with
  | insert c record id result | lost c record id result =>
    cases result with
    | ok text =>
      simp [PutEvent.succeeds, PutEvent.loses, PutEvent.stored?, PutEvent.inserted?,
        Except.toOption, ExtractionDoc.key, toDoc, UUID.str_injective.eq_iff]
    | error => rfl
  | _ => rfl

/-- The inserts with a key are the documents stored under it. -/
theorem countP_succeeds (tr : List (PutEvent C)) (d : UUID) (v : ℕ) :
    tr.countP (·.succeeds d v) + tr.countP (·.loses d v) =
      (tr.filterMap PutEvent.stored?).countP fun doc => doc.key = (d.str, v) := by
  induction tr with
  | nil => rfl
  | cons e tr ih =>
    have hone := stored?_any e d v
    have hapart : ¬ (e.succeeds d v ∧ e.loses d v) := by
      rintro ⟨hs, hl⟩
      cases e with
      | insert => cases hl
      | _ => cases hs
    rw [List.countP_cons, List.countP_cons]
    cases hs : e.stored? with
    | none =>
      rw [hs, Option.any_none, eq_comm, Bool.or_eq_false_iff] at hone
      simp [hs, hone.1, hone.2, ih]
    | some doc =>
      rw [hs, Option.any_some] at hone
      rw [List.filterMap_cons_some hs, List.countP_cons, ← ih, hone]
      cases hsucc : e.succeeds d v <;> cases hlost : e.loses d v
      · simp
      · simp only [Bool.false_or, Bool.false_eq_true, if_true, if_false]
        omega
      · simp only [Bool.or_false, Bool.false_eq_true, if_true, if_false]
        omega
      · exact absurd ⟨hsucc, hlost⟩ hapart

end Trace

/-! ## The steps -/

variable [DecidableEq C]

/-- An operation of one call, or a delete.  Identifiers are drawn anew for each document. -/
inductive Step : PutCalls C → PutEvent C → PutCalls C → Prop
  | check {s : PutCalls C} {c : C} (record : ExtractionRecord) (hidle : s.phase c = .idle) :
      Step s (.check c record (checkExtraction record s.store))
        ⟨s.store, Function.update s.phase c (afterCheck record (checkExtraction record s.store))⟩
  | insert {s : PutCalls C} {c : C} {record : ExtractionRecord} {id : ObjectId}
      (hchecked : s.phase c = .checked record) (hnew : ∀ doc ∈ s.store.rows, doc.id ≠ id) :
      Step s (.insert c record id (insertExtraction id record s.store).2)
        ⟨(insertExtraction id record s.store).1, Function.update s.phase c .done⟩
  | lost {s : PutCalls C} {c : C} {record : ExtractionRecord} {id : ObjectId}
      (hchecked : s.phase c = .checked record) (hnew : ∀ doc ∈ s.store.rows, doc.id ≠ id) :
      Step s (.lost c record id (insertExtraction id record s.store).2)
        ⟨(insertExtraction id record s.store).1, Function.update s.phase c .done⟩
  | fail {s : PutCalls C} {c : C} :
      Step s (.fail c) ⟨s.store, Function.update s.phase c .done⟩
  | delete {s : PutCalls C} (d : UUID) : Step s (.delete d) ⟨deleteDocument d s.store, s.phase⟩

/-! ## What a run stores -/

variable {s s' : PutCalls C} {e : PutEvent C} {tr : List (PutEvent C)} {d : UUID}

omit [DecidableEq C] in
/-- What an insert adds is the document that its answer tells. -/
theorem rows_insertExtraction {t : ExtractionStore} {record : ExtractionRecord} {id : ObjectId} {c : C} :
    (insertExtraction id record t).1.rows = t.rows ++
      ((PutEvent.insert c record id (insertExtraction id record t).2).stored?).toList := by
  by_cases hkey : t.lookup (storeKey record) = none
  · obtain ⟨hrows, hanswer⟩ := insertExtraction_of_none id hkey
    rw [hanswer, hrows]
    rfl
  · rw [insertExtraction_of_ne_none id hkey]
    exact (List.append_nil _).symm

/-- Only an insert adds a document, and only a delete removes any. -/
theorem rows_step (he : Step s e s') :
    s'.store.rows = s.store.rows ++ e.stored?.toList ∨
      ∃ d, e = .delete d ∧ s'.store = deleteDocument d s.store := by
  cases he with
  | check | fail => exact .inl (List.append_nil _).symm
  | delete d => exact .inr ⟨d, rfl, rfl⟩
  | @insert c record id hchecked hnew | @lost c record id hchecked hnew =>
    exact .inl (rows_insertExtraction (c := c))

/-- The stored documents of `d` are those that the calls have inserted, in this order. -/
theorem rows_run (h : Run Step init tr s) (hdel : ∀ d', .delete d' ∈ tr → d' ≠ d) :
    s.store.rows.filter (fun doc => doc.documentId = d.str) =
      (tr.filterMap PutEvent.stored?).filter fun doc => doc.documentId = d.str := by
  refine h.rec_inv (fun tr s => (∀ d', .delete d' ∈ tr → d' ≠ d) →
    s.store.rows.filter (fun doc => doc.documentId = d.str) =
      (tr.filterMap PutEvent.stored?).filter fun doc => doc.documentId = d.str) (fun _ => rfl) ?_ hdel
  intro tr s e s' _ ih he hdel
  rw [List.filterMap_append, List.filter_append,
    ← ih fun d' hd' => hdel d' (List.mem_append_left _ hd')]
  rcases rows_step he with hrows | ⟨d', rfl, hstore⟩
  · have hone : [e].filterMap PutEvent.stored? = e.stored?.toList := by
      cases hs : e.stored? <;> simp [hs]
    rw [hrows, List.filter_append, hone]
  · have hne : d' ≠ d := hdel d' (by simp)
    rw [hstore, deleteDocument, Table.rows_filter, List.filter_filter]
    simp only [List.filterMap_cons, PutEvent.stored?, PutEvent.inserted?, Option.map_none,
      List.filterMap_nil, List.filter_nil, List.append_nil]
    refine List.filter_congr fun doc _ => ?_
    by_cases hd : doc.documentId = d.str
    · have : doc.documentId ≠ d'.str := fun hd' => hne (UUID.str_injective (hd'.symm.trans hd))
      simp [hd, hd ▸ this]
    · simp [hd]

theorem mem_docsOf (h : Run Step init tr s) (hdel : ∀ d', .delete d' ∈ tr → d' ≠ d)
    {doc : ExtractionDoc} : doc ∈ docsOf d s.store ↔ ∃ e ∈ tr, ∃ id record,
      e.inserted? = some (id, record) ∧ record.documentId = d ∧ doc = toDoc id record := by
  have hrows : doc ∈ s.store.rows.filter (fun doc => doc.documentId = d.str) ↔
      doc ∈ (tr.filterMap PutEvent.stored?).filter fun doc => doc.documentId = d.str := by
    rw [rows_run h hdel]
  rw [List.mem_filter, List.mem_filter, decide_eq_true_eq] at hrows
  rw [docsOf, mem_findNewestFirst, decide_eq_true_eq, hrows]
  constructor
  · rintro ⟨hdoc, hd⟩
    obtain ⟨e, he, id, record, hinsert, rfl⟩ := mem_stored hdoc
    exact ⟨e, he, id, record, hinsert, UUID.str_injective hd, rfl⟩
  · rintro ⟨e, he, id, record, hinsert, rfl, rfl⟩
    exact ⟨stored_mem he hinsert, rfl⟩

theorem succeeds_le_one (h : Run Step init tr s) (hdel : ∀ d', .delete d' ∈ tr → d' ≠ d) (v : ℕ) :
    tr.countP (·.succeeds d v) + tr.countP (·.loses d v) ≤ 1 := by
  have hrows := rows_run h hdel
  have hcount : (tr.filterMap PutEvent.stored?).countP (fun doc => doc.key = (d.str, v)) =
      s.store.rows.countP fun doc => doc.key = (d.str, v) := by
    have hsub : ∀ l : List ExtractionDoc, l.countP (fun doc => doc.key = (d.str, v)) =
        (l.filter fun doc => doc.documentId = d.str).countP fun doc => doc.key = (d.str, v) := by
      intro l
      rw [List.countP_filter]
      refine List.countP_congr fun doc _ => ?_
      simp only [ExtractionDoc.key, Prod.mk.injEq, Bool.and_eq_true, decide_eq_true_eq]
      tauto
    rw [hsub, ← hrows, ← hsub]
  rw [countP_succeeds, hcount]
  have hnd := List.nodup_iff_count_le_one.1 s.store.nodup (d.str, v)
  rw [List.count, List.countP_map] at hnd
  refine le_trans (le_of_eq (List.countP_congr fun doc _ => ?_)) hnd
  simp

/-- A call is refused because its key is taken. -/
theorem succeeds_of_conflicts (h : Run Step init tr s) (hdel : ∀ d', .delete d' ∈ tr → d' ≠ d) {v : ℕ}
    (hc : ∃ e ∈ tr, e.conflicts d v) :
    0 < tr.countP (·.succeeds d v) + tr.countP (·.loses d v) := by
  obtain ⟨e, he, hconf⟩ := hc
  obtain ⟨pre, post, m, m', rfl, hpre, hstep, -⟩ := h.exists_step_of_mem he
  have htaken : ∃ doc ∈ m.store.rows, doc.key = (d.str, v) := by
    cases hstep with
    | @check c record hidle =>
      unfold checkExtraction at hconf
      split_ifs at hconf with hsome
      · simp only [PutEvent.conflicts, decide_eq_true_eq] at hconf
        obtain ⟨rfl, rfl⟩ := hconf
        obtain ⟨doc, hdoc⟩ := Option.isSome_iff_exists.1 hsome
        exact ⟨doc, m.store.mem_of_lookup hdoc, m.store.key_of_lookup hdoc⟩
      · cases hconf
    | @insert c record id hchecked hnew =>
      by_cases hnone : m.store.lookup (storeKey record) = none
      · rw [(insertExtraction_of_none id hnone).2] at hconf
        cases hconf
      · rw [insertExtraction_of_ne_none id hnone] at hconf
        simp only [PutEvent.conflicts, decide_eq_true_eq] at hconf
        obtain ⟨rfl, rfl⟩ := hconf
        obtain ⟨doc, hdoc⟩ := Option.ne_none_iff_exists'.1 hnone
        exact ⟨doc, m.store.mem_of_lookup hdoc, m.store.key_of_lookup hdoc⟩
    | lost | fail | delete => cases hconf
  obtain ⟨doc, hdoc, hkey⟩ := htaken
  have hrows := rows_run hpre fun d' hd' => hdel d' (List.mem_append_left _ hd')
  have hmem : doc ∈ pre.filterMap PutEvent.stored? := by
    refine (List.mem_filter.1 (hrows ▸ List.mem_filter.2 ⟨hdoc, ?_⟩)).1
    exact decide_eq_true (congrArg Prod.fst hkey)
  rw [countP_succeeds, List.countP_pos_iff]
  refine ⟨doc, ?_, decide_eq_true hkey⟩
  rw [List.filterMap_append]
  exact List.mem_append_left _ hmem

/-- An operation that neither inserts nor deletes leaves the collection. -/
theorem store_step (he : Step s e s') (hs : e.stored? = none) (hd : ∀ d, e ≠ .delete d) :
    s'.store = s.store := by
  cases he with
  | check | fail => rfl
  | delete d => exact absurd rfl (hd d)
  | @insert c record id hchecked hnew | @lost c record id hchecked hnew =>
    by_cases hkey : s.store.lookup (storeKey record) = none
    · rw [(insertExtraction_of_none id hkey).2] at hs
      cases hs
    · rw [insertExtraction_of_ne_none id hkey]

/-! ## Enabled operations -/

section Enabled

variable {c : C} {record : ExtractionRecord} (id : ObjectId)

theorem exists_check (hidle : s.phase c = .idle) (hfree : s.store.lookup (storeKey record) = none) :
    ∃ s', Step s (.check c record (.ok ())) s' ∧ s'.store = s.store ∧
      s'.phase = Function.update s.phase c (.checked record) := by
  have hstep := Step.check record hidle
  rw [checkExtraction, hfree] at hstep
  exact ⟨_, hstep, rfl, rfl⟩

theorem exists_insert (hchecked : s.phase c = .checked record)
    (hfree : s.store.lookup (storeKey record) = none) (hnew : ∀ doc ∈ s.store.rows, doc.id ≠ id) :
    ∃ s', Step s (.insert c record id (.ok id.str)) s' ∧
      s'.store.rows = s.store.rows ++ [toDoc id record] ∧
      s'.phase = Function.update s.phase c .done := by
  obtain ⟨hrows, hanswer⟩ := insertExtraction_of_none id hfree
  have hstep := Step.insert hchecked hnew
  rw [hanswer] at hstep
  exact ⟨_, hstep, hrows, rfl⟩

theorem exists_refuse (hchecked : s.phase c = .checked record)
    (htaken : s.store.lookup (storeKey record) ≠ none) (hnew : ∀ doc ∈ s.store.rows, doc.id ≠ id) :
    ∃ s', Step s (.insert c record id (.error (.conflict (duplicate record)))) s' := by
  have hstep := Step.insert hchecked hnew
  rw [insertExtraction_of_ne_none id htaken] at hstep
  exact ⟨_, hstep⟩

end Enabled

end PutCalls

/-! ## The theorem -/

/-- In any run without a delete of `d`: of the completed calls with one key of `d` at most one
succeeds, and exactly one if no insert with this key has been executed for a call that failed; only an
insert of the key changes the collection; what is stored for `d` stays; and the three readers agree on
the stored versions, which are those of the inserts. -/
theorem put_extraction_once {C : Type*} [DecidableEq C] {tr : List (PutEvent C)} {s : PutCalls C}
    {d : UUID} (h : Run PutCalls.Step PutCalls.init tr s)
    (hdel : ∀ d', .delete d' ∈ tr → d' ≠ d) :
    (∀ v, tr.countP (·.succeeds d v) + tr.countP (·.loses d v) ≤ 1 ∧
      ((∃ e ∈ tr, e.succeeds d v ∨ e.conflicts d v) → tr.countP (·.loses d v) = 0 →
        tr.countP (·.succeeds d v) = 1)) ∧
    (∀ pre e post m m', tr = pre ++ e :: post → Run PutCalls.Step PutCalls.init pre m →
      PutCalls.Step m e m' → e.stored? = none → (∀ d', e ≠ .delete d') → m'.store = m.store) ∧
    (∀ pre post m, tr = pre ++ post → Run PutCalls.Step PutCalls.init pre m →
      ∀ doc ∈ docsOf d m.store, doc ∈ docsOf d s.store) ∧
    ∃ records, listExtractions d s.store = .ok records ∧
      (records.Pairwise fun r r' => r'.version < r.version) ∧
      (∀ r, r ∈ records ↔ ∃ e ∈ tr, ∃ id record, e.inserted? = some (id, record) ∧
        record.documentId = d ∧ r = stored record) ∧
      getExtraction d none s.store = .ok records.head? ∧
      ∀ v, getExtraction d (some v) s.store = .ok (records.find? (·.version = v)) := by
  refine ⟨fun v => ⟨PutCalls.succeeds_le_one h hdel v, fun hcomplete hlost => ?_⟩,
    fun pre e post m m' _ _ he hs hd => PutCalls.store_step he hs hd, ?_, ?_⟩
  · have hle := PutCalls.succeeds_le_one h hdel v
    have hpos : 0 < tr.countP (·.succeeds d v) + tr.countP (·.loses d v) := by
      obtain ⟨e, he, hsucc | hconf⟩ := hcomplete
      · exact Nat.add_pos_left (List.countP_pos_iff.2 ⟨e, he, hsucc⟩) _
      · exact PutCalls.succeeds_of_conflicts h hdel ⟨e, he, hconf⟩
    omega
  · rintro pre post m rfl hpre doc hdoc
    rw [PutCalls.mem_docsOf hpre fun d' hd' => hdel d' (List.mem_append_left _ hd')] at hdoc
    obtain ⟨e, he, id, record, hinsert, hd, rfl⟩ := hdoc
    exact (PutCalls.mem_docsOf h hdel).2
      ⟨e, List.mem_append_left _ he, id, record, hinsert, hd, rfl⟩
  · have hread : ∀ doc ∈ docsOf d s.store, (recordFromDoc doc).isSome := by
      intro doc hdoc
      obtain ⟨e, he, id, record, -, -, rfl⟩ := (PutCalls.mem_docsOf h hdel).1 hdoc
      rw [recordFromDoc_toDoc]
      rfl
    obtain ⟨hlist, hlatest, hversion⟩ := readers_eq hread
    refine ⟨_, hlist, ?_, fun r => ?_, hlatest, hversion⟩
    · rw [List.pairwise_filterMap]
      refine (pairwise_docsOf d s.store).imp fun hlt r hr r' hr' => ?_
      rwa [version_recordFromDoc hr, version_recordFromDoc hr']
    · rw [List.mem_filterMap]
      constructor
      · rintro ⟨doc, hdoc, hr⟩
        obtain ⟨e, he, id, record, hinsert, hd, rfl⟩ := (PutCalls.mem_docsOf h hdel).1 hdoc
        rw [recordFromDoc_toDoc] at hr
        exact ⟨e, he, id, record, hinsert, hd, (Option.some.inj hr).symm⟩
      · rintro ⟨e, he, id, record, hinsert, hd, rfl⟩
        exact ⟨_, (PutCalls.mem_docsOf h hdel).2 ⟨e, he, id, record, hinsert, hd, rfl⟩,
          recordFromDoc_toDoc id record⟩

/-- Two calls that have both found the key free: one succeeds and the other one is refused. -/
theorem put_extraction_once_race :
    let record : ExtractionRecord := ⟨⟨7⟩, 1, ⟨8⟩, 1, .model, none, none, [], 1,
      ⟨0, some 0⟩, none, by decide, by decide, by decide⟩
    let refused : StoreError := .conflict (duplicate record)
    let tr : List (PutEvent ℕ) := [.check 0 record (.ok ()), .check 1 record (.ok ()),
      .insert 0 record ⟨1⟩ (.ok (ObjectId.str ⟨1⟩)), .insert 1 record ⟨2⟩ (.error refused)]
    ∃ s, Run PutCalls.Step PutCalls.init tr s ∧ tr.countP (·.succeeds ⟨7⟩ 1) = 1 := by
  intro record refused tr
  have hrun : ∃ s, Run PutCalls.Step PutCalls.init tr s := by
    obtain ⟨s₁, h₁, hstore₁, hphase₁⟩ := PutCalls.exists_check (s := (PutCalls.init : PutCalls ℕ))
      (c := 0) rfl (rfl : Table.lookup _ (storeKey record) = none)
    obtain ⟨s₂, h₂, hstore₂, hphase₂⟩ := PutCalls.exists_check (s := s₁) (c := 1)
      (by rw [hphase₁]; rfl) (by rw [hstore₁]; rfl)
    obtain ⟨s₃, h₃, hrows₃, hphase₃⟩ := PutCalls.exists_insert (s := s₂) (c := 0) ⟨1⟩
      (by rw [hphase₂, hphase₁]; rfl) (by rw [hstore₂, hstore₁]; rfl)
      (by rw [hstore₂, hstore₁]; exact fun doc hdoc => by cases hdoc)
    rw [hstore₂, hstore₁] at hrows₃
    have htaken : s₃.store.lookup (storeKey record) ≠ none := by
      rw [Ne, Table.lookup_eq_none_iff, hrows₃]
      intro hne
      exact hne (toDoc ⟨1⟩ record) (by simp) rfl
    obtain ⟨s₄, h₄⟩ := PutCalls.exists_refuse (s := s₃) (c := 1) ⟨2⟩
      (by rw [hphase₃, hphase₂]; rfl) htaken (by
        rw [hrows₃]
        intro doc hdoc
        obtain rfl := List.mem_singleton.1 hdoc
        decide)
    exact ⟨s₄, .cons h₁ <| .cons h₂ <| .cons h₃ <| .single h₄⟩
  obtain ⟨s, hrun⟩ := hrun
  have hdel : ∀ d', .delete d' ∈ tr → d' ≠ (⟨7⟩ : UUID) := by
    intro d' hd'
    simp [tr] at hd'
  have hcomplete : ∃ e ∈ tr, e.succeeds ⟨7⟩ 1 ∨ e.conflicts ⟨7⟩ 1 :=
    ⟨.insert 0 record ⟨1⟩ (.ok (ObjectId.str ⟨1⟩)), by simp [tr], .inl (by simp [PutEvent.succeeds, record])⟩
  exact ⟨s, hrun, ((put_extraction_once hrun hdel).1 1).2 hcomplete rfl⟩

end Ipa
