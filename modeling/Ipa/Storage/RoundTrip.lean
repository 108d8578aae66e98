import Ipa.Storage.Agreement

/-!
# Round trip of extraction records

`MongoContentStore` writes a record as a document and rebuilds it from there.  All fields come back
except the time stamp, which is stored as an instant in whole milliseconds.

* `stored_eq_iff`: the record read back equals the one written exactly when its time stamp is aware
  and in whole milliseconds.
* `extraction_round_trip`: `getExtraction` and `listExtractions` return that record for every
  successful call, whatever other calls run.
-/

namespace Ipa

open MongoContentStore Transition

/-- `record == record'`: the same fields, the time stamps compared as datetimes. -/
def ExtractionRecord.Eq (record record' : ExtractionRecord) : Prop :=
  { record with createdAt := record'.createdAt } = record' ∧ record.createdAt.Eq record'.createdAt

theorem stored_eq_iff (record : ExtractionRecord) :
    (stored record).Eq record ↔ record.createdAt.utcOffset.isSome ∧ 1000 ∣ record.createdAt.utc := by
  rw [← Datetime.eq_stored_iff]
  constructor
  · rintro ⟨-, htime⟩
    exact htime
  · intro htime
    exact ⟨rfl, htime⟩

section Readers

variable {C : Type*} [DecidableEq C] {tr : List (PutEvent C)} {s : PutCalls C} {c : C}
  {record : ExtractionRecord} {id : ObjectId} {text : String}

/-- What the readers return for the version of a successful call. -/
theorem readers_after_put (h : Run PutCalls.Step PutCalls.init tr s)
    (hdel : ∀ d, .delete d ∈ tr → d ≠ record.documentId)
    (hput : .insert c record id (.ok text) ∈ tr) :
    getExtraction record.documentId (some record.version) s.store = .ok (some (stored record)) ∧
      ∃ records, listExtractions record.documentId s.store = .ok records ∧
        records.find? (·.version = record.version) = some (stored record) := by
  have hread : ∀ doc ∈ docsOf record.documentId s.store, (recordFromDoc doc).isSome := by
    intro doc hdoc
    obtain ⟨e, -, id', record', -, -, rfl⟩ := (PutCalls.mem_docsOf h hdel).1 hdoc
    rw [recordFromDoc_toDoc]
    rfl
  obtain ⟨hlist, -, hversion⟩ := readers_eq hread
  have hdoc : toDoc id record ∈ docsOf record.documentId s.store :=
    (PutCalls.mem_docsOf h hdel).2 ⟨_, hput, id, record, rfl, rfl, rfl⟩
  have hget : getExtraction record.documentId (some record.version) s.store =
      .ok (some (stored record)) :=
    getExtraction_of_mem (mem_findNewestFirst.1 hdoc).1 rfl (recordFromDoc_toDoc id record)
  exact ⟨hget, _, hlist, Except.ok.inj ((hversion record.version).symm.trans hget)⟩

/-- For every call of `putExtraction` that has succeeded, and whatever calls run beside it and after
it, as long as the document is not deleted: both readers return a record for its version, and that
record equals the given one if and only if its time stamp is aware and in whole milliseconds. -/
theorem extraction_round_trip (h : Run PutCalls.Step PutCalls.init tr s)
    (hdel : ∀ d, .delete d ∈ tr → d ≠ record.documentId)
    (hput : .insert c record id (.ok text) ∈ tr) :
    ∃ r records, getExtraction record.documentId (some record.version) s.store = .ok (some r) ∧
      listExtractions record.documentId s.store = .ok records ∧
      records.find? (·.version = record.version) = some r ∧
      (r.Eq record ↔ record.createdAt.utcOffset.isSome ∧ 1000 ∣ record.createdAt.utc) := by
  obtain ⟨hget, records, hlist, hfind⟩ := readers_after_put h hdel hput
  exact ⟨stored record, records, hget, hlist, hfind, stored_eq_iff record⟩

end Readers

/-! ## Two records -/

/-- A field with a value, found on the second page. -/
def totalField : ExtractedField where
  key := "total"
  value := .str "12.50"
  confidence := 9 / 10
  page := some 2
  evidence := some "Total 12.50"
  valid := false
  validationErrors := ["not a number"]
  confidence_mem := by norm_num
  page_pos _ hpage := Option.mem_some.1 hpage ▸ Nat.le_succ 1

/-- A record of this field with the given time stamp. -/
def recordAt (createdAt : Datetime) : ExtractionRecord :=
  { emptyRecord 1 Nat.one_pos with
    fields := [totalField]
    createdAt := createdAt }

/-- A run whose only call stores such a record. -/
theorem put_recordAt (createdAt : Datetime) :
    ∃ tr, ∃ s : PutCalls ℕ, Run PutCalls.Step PutCalls.init tr s ∧
      (∀ d, .delete d ∈ tr → d ≠ (recordAt createdAt).documentId) ∧
      .insert 0 (recordAt createdAt) ⟨1⟩ (.ok (ObjectId.str ⟨1⟩)) ∈ tr := by
  obtain ⟨s₁, h₁, hstore₁, hphase₁⟩ := PutCalls.exists_check (s := (PutCalls.init : PutCalls ℕ))
    (c := 0) rfl (rfl : Table.lookup _ (storeKey (recordAt createdAt)) = none)
  obtain ⟨s₂, h₂, -, -⟩ := PutCalls.exists_insert (s := s₁) (c := 0) ⟨1⟩
    (by rw [hphase₁]; rfl) (by rw [hstore₁]; rfl)
    (by rw [hstore₁]; exact fun doc hdoc => by cases hdoc)
  refine ⟨_, s₂, .cons h₁ <| .single h₂, fun d hd => ?_, List.mem_cons_of_mem _ List.mem_cons_self⟩
  simp at hd

/-- A record of one whole second, with the offset of two hours, comes back with its field. -/
theorem extraction_round_trip_whole_second :
    ∃ (s : PutCalls ℕ) (r : ExtractionRecord), getExtraction ⟨7⟩ (some 1) s.store = .ok (some r) ∧
      r.Eq (recordAt ⟨1000000, some 7200000000⟩) ∧ r.fields = [totalField] := by
  obtain ⟨tr, s, hrun, hdel, hput⟩ := put_recordAt ⟨1000000, some 7200000000⟩
  obtain ⟨r, records, hget, -, -, hiff⟩ := extraction_round_trip hrun hdel hput
  have heq : r.Eq (recordAt ⟨1000000, some 7200000000⟩) := hiff.2 (by decide)
  exact ⟨s, r, hget, heq, congrArg ExtractionRecord.fields heq.1⟩

/-- A record whose time stamp has microseconds comes back changed. -/
theorem extraction_changed_by_storage :
    ¬ ∀ (record : ExtractionRecord) (tr : List (PutEvent ℕ)) (s : PutCalls ℕ) (c : ℕ) (id : ObjectId)
      (text : String), Run PutCalls.Step PutCalls.init tr s →
      (∀ d, .delete d ∈ tr → d ≠ record.documentId) → .insert c record id (.ok text) ∈ tr →
      ∃ r, getExtraction record.documentId (some record.version) s.store = .ok (some r) ∧
        r.Eq record := by
  intro hall
  obtain ⟨tr, s, hrun, hdel, hput⟩ := put_recordAt ⟨1234567, some 0⟩
  obtain ⟨r, hget, heq⟩ := hall _ tr s _ _ _ hrun hdel hput
  rw [(readers_after_put hrun hdel hput).1, Except.ok.injEq, Option.some.injEq] at hget
  subst hget
  rw [stored_eq_iff] at heq
  exact absurd heq (by decide)

end Ipa
