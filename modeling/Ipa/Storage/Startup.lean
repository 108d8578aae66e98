import Ipa.Lib.Collection
import Ipa.Storage.Pages
import Ipa.Storage.RoundTrip

/-!
# Starting the storage

`init_storage` creates the bucket and the unique indexes.  Several processes run it, while others
already store extractions and pages (`Storage.Step`).

* `init_storage_returned`: what holds once a call has returned.
* `init_storage_refines`: from then on the extractions are the table of `PutCalls`.
* `init_storage_apart`: a call fails for a driver error only, as long as no two calls overlap on a key.
* `init_storage_overlap`: two overlapping calls of `put_extraction` store one version twice.
-/

namespace Ipa

open Collection MongoContentStore Transition

/-- The row of a page with its key. -/
abbrev PageRow := (String × ℕ) × PageDoc

/-- Where a call of `init_storage` stands: not begun or over, past a check that has found no bucket, past
`ensure_bucket`, past the first or the second index. -/
inductive InitPhase
  | idle | missing | bucket | pages | extractions

/-- The bucket, the collections, the calls of `init_storage` of the processes `P` and those of the
callers `C`; an upsert of a page that has found none is about to insert it. -/
structure Storage (P C : Type*) where
  bucket : Bool
  pages : Collection (Prod.fst : PageRow → String × ℕ)
  extractions : Collection ExtractionDoc.key
  phase : P → InitPhase
  put : C → PutPhase
  upsert : C → Option PageRow

/-- The requests, with their answers.  A creation that is answered with `false` has raised. -/
inductive StorageEvent (P C : Type*)
  | bucketExists (p : P) (answer : Bool)
  | makeBucket (p : P) (made : Bool)
  | indexPages (p : P) (created : Bool)
  | indexExtractions (p : P) (created : Bool)
  | indexOthers (p : P)
  | initFails (p : P)
  | put (e : PutEvent C)
  | replacePage (row : PageRow)
  | missPage (c : C) (row : PageRow)
  | insertPage (c : C) (row : PageRow) (inserted : Bool)
  | pageFails (c : C)
  | deletePages (documentId : UUID)

namespace StorageEvent

variable {P C : Type*}

/-- A request of `init_storage` is refused because of what is there. -/
def Refused : StorageEvent P C → Prop
  | makeBucket _ false | indexPages _ false | indexExtractions _ false => True
  | _ => False

/-- The event of a call of `put_extraction`. -/
def put? : StorageEvent P C → Option (PutEvent C)
  | put e => some e
  | _ => none

end StorageEvent

namespace Storage

variable {P C : Type*}

/-- The first operation of `put_extraction`. -/
def checkExtraction (record : ExtractionRecord) (c : Collection ExtractionDoc.key) :
    Except StoreError Unit :=
  if (c.lookup (storeKey record)).isSome then .error (.conflict (duplicate record)) else .ok ()

/-- The second operation of `put_extraction`. -/
def insertExtraction (id : ObjectId) (record : ExtractionRecord) (c : Collection ExtractionDoc.key) :
    Collection ExtractionDoc.key × Except StoreError String :=
  match c.insertOne (toDoc id record) with
  | some c' => (c', .ok id.str)
  | none => (c, .error (.conflict (duplicate record)))

/-- The second operation of `delete_document`. -/
def deleteDocument (documentId : UUID) (c : Collection ExtractionDoc.key) : Collection ExtractionDoc.key :=
  c.filter fun doc => doc.documentId ≠ documentId.str

variable [DecidableEq P] [DecidableEq C]

/-- The phase of a call of `init_storage` after a creation. -/
def afterCreation (phase : InitPhase) (created : Bool) : InitPhase := if created then phase else .idle

/-- One operation of one call, or a deletion. -/
inductive Step : Storage P C → StorageEvent P C → Storage P C → Prop
  | bucketExists {s : Storage P C} {p : P} (hidle : s.phase p = .idle) :
      Step s (.bucketExists p s.bucket)
        { s with phase := Function.update s.phase p (if s.bucket then .bucket else .missing) }
  | makeBucket {s : Storage P C} {p : P} (hmissing : s.phase p = .missing) (hbucket : s.bucket = false) :
      Step s (.makeBucket p true)
        { s with bucket := true, phase := Function.update s.phase p .bucket }
  /-- Whether a bucket of one's own is refused depends on the server. -/
  | makeBucketAgain {s : Storage P C} {p : P} (made : Bool) (hmissing : s.phase p = .missing)
      (hbucket : s.bucket) :
      Step s (.makeBucket p made)
        { s with phase := Function.update s.phase p (afterCreation .bucket made) }
  | indexPages {s : Storage P C} {p : P} (hbucket : s.phase p = .bucket) :
      Step s (.indexPages p s.pages.createIndex.isSome)
        { s with
          pages := s.pages.createIndex.getD s.pages
          phase := Function.update s.phase p (afterCreation .pages s.pages.createIndex.isSome) }
  | indexExtractions {s : Storage P C} {p : P} (hpages : s.phase p = .pages) :
      Step s (.indexExtractions p s.extractions.createIndex.isSome)
        { s with
          extractions := s.extractions.createIndex.getD s.extractions
          phase := Function.update s.phase p (afterCreation .extractions s.extractions.createIndex.isSome) }
  /-- No document is in the way of the other indexes. -/
  | indexOthers {s : Storage P C} {p : P} (hextractions : s.phase p = .extractions) :
      Step s (.indexOthers p) { s with phase := Function.update s.phase p .idle }
  | initFails {s : Storage P C} {p : P} :
      Step s (.initFails p) { s with phase := Function.update s.phase p .idle }
  | check {s : Storage P C} {c : C} (record : ExtractionRecord) (hidle : s.put c = .idle) :
      Step s (.put (.check c record (checkExtraction record s.extractions)))
        { s with put :=
            Function.update s.put c (PutCalls.afterCheck record (checkExtraction record s.extractions)) }
  | insert {s : Storage P C} {c : C} {record : ExtractionRecord} {id : ObjectId}
      (hchecked : s.put c = .checked record) (hnew : ∀ doc ∈ s.extractions.rows, doc.id ≠ id) :
      Step s (.put (.insert c record id (insertExtraction id record s.extractions).2))
        { s with
          extractions := (insertExtraction id record s.extractions).1
          put := Function.update s.put c .done }
  | lost {s : Storage P C} {c : C} {record : ExtractionRecord} {id : ObjectId}
      (hchecked : s.put c = .checked record) (hnew : ∀ doc ∈ s.extractions.rows, doc.id ≠ id) :
      Step s (.put (.lost c record id (insertExtraction id record s.extractions).2))
        { s with
          extractions := (insertExtraction id record s.extractions).1
          put := Function.update s.put c .done }
  | fail {s : Storage P C} {c : C} :
      Step s (.put (.fail c)) { s with put := Function.update s.put c .done }
  | delete {s : Storage P C} (d : UUID) :
      Step s (.put (.delete d)) { s with extractions := deleteDocument d s.extractions }
  | replacePage {s : Storage P C} (row : PageRow) (hfound : s.pages.lookup row.1 ≠ none) :
      Step s (.replacePage row) { s with pages := s.pages.replaceOne row }
  | missPage {s : Storage P C} {c : C} (row : PageRow) (hidle : s.upsert c = none)
      (hnone : s.pages.lookup row.1 = none) :
      Step s (.missPage c row) { s with upsert := Function.update s.upsert c (some row) }
  | insertPage {s : Storage P C} {c : C} {row : PageRow} (hmissed : s.upsert c = some row) :
      Step s (.insertPage c row (s.pages.insertOne row).isSome)
        { s with
          pages := (s.pages.insertOne row).getD s.pages
          upsert := Function.update s.upsert c none }
  | pageFails {s : Storage P C} {c : C} :
      Step s (.pageFails c) { s with upsert := Function.update s.upsert c none }
  | deletePages {s : Storage P C} (d : UUID) :
      Step s (.deletePages d) { s with pages := s.pages.filter fun row => row.1.1 ≠ d.str }

/-- No call is between its operations on the bucket or the key. -/
def Alone (s : Storage P C) : StorageEvent P C → Prop
  | .bucketExists _ _ => ∀ p, s.phase p ≠ .missing
  | .put (.check _ record _) => ∀ c record', s.put c = .checked record' → storeKey record' ≠ storeKey record
  | .missPage _ row => ∀ c row', s.upsert c = some row' → row'.1 ≠ row.1
  | _ => True

/-- No bucket, no indexes, no calls. -/
def init : Storage P C := ⟨false, .empty _, .empty _, fun _ => .idle, fun _ => .idle, fun _ => none⟩

variable {s s' m : Storage P C} {e : StorageEvent P C} {tr tr' : List (StorageEvent P C)} {p : P}

/-! ## After a call has returned -/

omit [DecidableEq P] [DecidableEq C] in
theorem insertExtraction_fst (id : ObjectId) (record : ExtractionRecord) (c : Collection ExtractionDoc.key) :
    (insertExtraction id record c).1 = (c.insertOne (toDoc id record)).getD c := by
  rw [insertExtraction]
  cases c.insertOne (toDoc id record) <;> rfl

/-- What is there is not lost. -/
theorem kept_step (h : Step s e s') : (s.bucket → s'.bucket) ∧ (s.pages.indexed → s'.pages.indexed) ∧
    (s.extractions.indexed → s'.extractions.indexed) := by
  cases h with
  | makeBucket => exact ⟨fun _ => rfl, id, id⟩
  | indexPages => exact ⟨id, indexed_getD_createIndex, id⟩
  | indexExtractions => exact ⟨id, id, indexed_getD_createIndex⟩
  | insert | lost =>
    rw [insertExtraction_fst, indexed_getD_insertOne]
    exact ⟨fun h => h, fun h => h, fun h => h⟩
  | insertPage =>
    rw [indexed_getD_insertOne]
    exact ⟨id, id, id⟩
  | _ => exact ⟨id, id, id⟩

/-- What a call of `init_storage` has seen to. -/
def Ready (s : Storage P C) : InitPhase → Prop
  | .idle | .missing => True
  | .bucket => s.bucket
  | .pages => s.bucket ∧ s.pages.indexed
  | .extractions => s.bucket ∧ s.pages.indexed ∧ s.extractions.indexed

theorem Ready.step {phase : InitPhase} (h : Ready s phase) (hstep : Step s e s') : Ready s' phase := by
  obtain ⟨hbucket, hpages, hextractions⟩ := kept_step hstep
  cases phase with
  | idle | missing => trivial
  | bucket => exact hbucket h
  | pages => exact ⟨hbucket h.1, hpages h.2⟩
  | extractions => exact ⟨hbucket h.1, hpages h.2.1, hextractions h.2.2⟩

omit [DecidableEq C] in
theorem ready_update {phase : InitPhase} (h : ∀ q, Ready s' (s.phase q)) (hp : Ready s' phase) (q : P) :
    Ready s' (Function.update s.phase p phase q) := by
  by_cases hq : q = p
  · rwa [hq, Function.update_self]
  · rw [Function.update_of_ne hq]
    exact h q

theorem ready_step (h : ∀ q, Ready s (s.phase q)) (hstep : Step s e s') : ∀ q, Ready s' (s'.phase q) := by
  have hkept : ∀ q, Ready s' (s.phase q) := fun q => (h q).step hstep
  cases hstep with
  | bucketExists hidle =>
    refine ready_update hkept ?_
    cases hbucket : s.bucket with
    | false => trivial
    | true => exact rfl
  | makeBucket => exact ready_update hkept rfl
  | makeBucketAgain made hmissing hbucket =>
    refine ready_update hkept ?_
    cases made with
    | false => trivial
    | true => exact hbucket
  | @indexPages p hbucket =>
    refine ready_update hkept ?_
    have hp := h p
    rw [hbucket] at hp
    cases hcreate : s.pages.createIndex with
    | none => trivial
    | some c' => exact ⟨hp, by simpa [hcreate] using (createIndex_eq_some hcreate).2⟩
  | @indexExtractions p hpages =>
    refine ready_update hkept ?_
    have hp := h p
    rw [hpages] at hp
    cases hcreate : s.extractions.createIndex with
    | none => trivial
    | some c' => exact ⟨hp.1, hp.2, by simpa [hcreate] using (createIndex_eq_some hcreate).2⟩
  | indexOthers | initFails => exact ready_update hkept trivial
  | _ => exact hkept

theorem ready_run {s₀ : Storage P C} (hidle : ∀ q, s₀.phase q = .idle) (h : Run Step s₀ tr s) :
    ∀ q, Ready s (s.phase q) := by
  refine h.state_inv (fun s => ∀ q, Ready s (s.phase q)) (fun q => ?_)
    fun _ _ _ hready hstep => ready_step hready hstep
  rw [hidle q]
  trivial

theorem ready_returned {s₀ : Storage P C} (hidle : ∀ q, s₀.phase q = .idle) (h : Run Step s₀ tr s)
    (hreturned : .indexOthers p ∈ tr) : Ready s .extractions := by
  obtain ⟨tr₁, tr₂, m, m', rfl, hrun₁, hstep, hrun₂⟩ := h.exists_step_of_mem hreturned
  have hready := ready_run hidle hrun₁ p
  have hm' : Ready m' .extractions := by
    cases hstep with
    | indexOthers hextractions =>
      rw [hextractions] at hready
      exact hready
  exact hrun₂.state_inv (Ready · .extractions) hm' fun _ _ _ hready hstep => hready.step hstep

/-! ## Two processes and two writers -/

section Enabled

variable {q : P} {c : C} {record : ExtractionRecord}

/-- A call that finds its key free. -/
theorem step_check (hidle : s.put c = .idle)
    (hfree : storeKey record ∉ s.extractions.rows.map ExtractionDoc.key) :
    Step s (.put (.check c record (.ok ()))) { s with put := Function.update s.put c (.checked record) } := by
  have hstep := Step.check record hidle
  have hanswer : checkExtraction record s.extractions = .ok () := by
    rw [checkExtraction, (lookup_eq_none_iff _).2 hfree]
    rfl
  rwa [hanswer] at hstep

/-- A call that finds its key taken. -/
theorem step_refused (hidle : s.put c = .idle)
    (htaken : storeKey record ∈ s.extractions.rows.map ExtractionDoc.key) :
    Step s (.put (.check c record (.error (.conflict (duplicate record)))))
      { s with put := Function.update s.put c .done } := by
  have hstep := Step.check record hidle
  have hanswer : checkExtraction record s.extractions = .error (.conflict (duplicate record)) := by
    rw [checkExtraction, if_pos]
    exact Option.isSome_iff_ne_none.2 fun hnone => (lookup_eq_none_iff _).1 hnone htaken
  rwa [hanswer] at hstep

/-- An insert that no index refuses. -/
theorem step_insert (id : ObjectId) (hchecked : s.put c = .checked record)
    (hnew : ∀ doc ∈ s.extractions.rows, doc.id ≠ id)
    (hfree : s.extractions.indexed → storeKey record ∉ s.extractions.rows.map ExtractionDoc.key) :
    ∃ extractions, Step s (.put (.insert c record id (.ok id.str)))
        { s with extractions := extractions, put := Function.update s.put c .done } ∧
      extractions.rows = s.extractions.rows ++ [toDoc id record] := by
  cases hinsert : s.extractions.insertOne (toDoc id record) with
  | none =>
    obtain ⟨hindexed, htaken⟩ := insertOne_eq_none_iff.1 hinsert
    exact absurd ((lookup_eq_none_iff _).2 (hfree hindexed)) htaken
  | some extractions =>
    have hstep := Step.insert hchecked hnew
    have hanswer : insertExtraction id record s.extractions = (extractions, .ok id.str) := by
      rw [insertExtraction, hinsert]
    rw [hanswer] at hstep
    exact ⟨extractions, hstep, (insertOne_eq_some hinsert).1⟩

/-- The index on the extractions, when no two share a key. -/
theorem step_indexExtractions (hpages : s.phase q = .pages)
    (hnodup : (s.extractions.rows.map ExtractionDoc.key).Nodup) :
    ∃ extractions, Step s (.indexExtractions q true)
        { s with extractions := extractions, phase := Function.update s.phase q .extractions } ∧
      extractions.rows = s.extractions.rows := by
  cases hcreate : s.extractions.createIndex with
  | none => exact absurd hnodup (createIndex_eq_none_iff.1 hcreate)
  | some extractions =>
    have hstep := Step.indexExtractions hpages
    rw [hcreate] at hstep
    exact ⟨extractions, hstep, (createIndex_eq_some hcreate).1⟩

/-- The index on no pages. -/
theorem step_indexPages (hbucket : s.phase q = .bucket) (hrows : s.pages.rows = []) :
    ∃ pages, Step s (.indexPages q true)
        { s with pages := pages, phase := Function.update s.phase q .pages } ∧ pages.rows = [] := by
  cases hcreate : s.pages.createIndex with
  | none =>
    refine absurd ?_ (createIndex_eq_none_iff.1 hcreate)
    rw [hrows]
    exact List.nodup_nil
  | some pages =>
    have hstep := Step.indexPages hbucket
    rw [hcreate] at hstep
    exact ⟨pages, hstep, (createIndex_eq_some hcreate).1.trans hrows⟩

end Enabled

/-- The first version of a document. -/
def firstRecord : ExtractionRecord := emptyRecord 1 Nat.one_pos

/-- The second version of the document. -/
def secondRecord : ExtractionRecord := emptyRecord 2 (Nat.le_succ 1)

/-- Two processes start while two callers put two versions of a document; the first process returns. -/
def startedTrace : List (StorageEvent Bool ℕ) :=
  [.put (.check 0 firstRecord (.ok ())), .bucketExists true false, .makeBucket true true,
    .bucketExists false true, .put (.check 1 secondRecord (.ok ())), .indexPages true true,
    .put (.insert 0 firstRecord ⟨1⟩ (.ok (ObjectId.str ⟨1⟩))), .indexPages false true,
    .indexExtractions true true, .put (.insert 1 secondRecord ⟨2⟩ (.ok (ObjectId.str ⟨2⟩))),
    .indexOthers true]

theorem exists_started : ∃ s : Storage Bool ℕ,
    Run (fun s e s' => Step s e s' ∧ Alone s e) init startedTrace s ∧
    s.extractions.rows = [toDoc ⟨1⟩ firstRecord, toDoc ⟨2⟩ secondRecord] ∧ s.put 2 = .idle ∧
    s.phase false = .pages := by
  have hkeys : storeKey firstRecord ≠ storeKey secondRecord := fun h => absurd (congrArg Prod.snd h) (by decide)
  let s₀ : Storage Bool ℕ := init
  let s₁ := { s₀ with put := Function.update s₀.put 0 (.checked firstRecord) }
  let s₂ := { s₁ with phase := Function.update s₁.phase true .missing }
  let s₃ := { s₂ with bucket := true, phase := Function.update s₂.phase true .bucket }
  let s₄ := { s₃ with phase := Function.update s₃.phase false .bucket }
  let s₅ := { s₄ with put := Function.update s₄.put 1 (.checked secondRecord) }
  have h₁ : Step s₀ (.put (.check 0 firstRecord (.ok ()))) s₁ := step_check rfl List.not_mem_nil
  have h₂ : Step s₁ (.bucketExists true false) s₂ := .bucketExists rfl
  have h₃ : Step s₂ (.makeBucket true true) s₃ := .makeBucket rfl rfl
  have h₄ : Step s₃ (.bucketExists false true) s₄ := .bucketExists rfl
  have h₅ : Step s₄ (.put (.check 1 secondRecord (.ok ()))) s₅ := step_check rfl List.not_mem_nil
  obtain ⟨pages₆, h₆, hpages₆⟩ := step_indexPages (s := s₅) (q := true) rfl rfl
  let s₆ := { s₅ with pages := pages₆, phase := Function.update s₅.phase true .pages }
  obtain ⟨rows₇, h₇, hrows₇⟩ := step_insert (s := s₆) (c := 0) ⟨1⟩ rfl
    (fun doc hdoc => absurd hdoc List.not_mem_nil) fun _ => List.not_mem_nil
  let s₇ := { s₆ with extractions := rows₇, put := Function.update s₆.put 0 .done }
  obtain ⟨pages₈, h₈, -⟩ := step_indexPages (s := s₇) (q := false) rfl hpages₆
  let s₈ := { s₇ with pages := pages₈, phase := Function.update s₇.phase false .pages }
  have hrows₈ : s₈.extractions.rows = [toDoc ⟨1⟩ firstRecord] := hrows₇
  obtain ⟨rows₉, h₉, hrows₉⟩ := step_indexExtractions (s := s₈) (q := true) rfl (by
    rw [hrows₈]
    exact List.nodup_singleton _)
  let s₉ := { s₈ with extractions := rows₉, phase := Function.update s₈.phase true .extractions }
  have hrows₉ : s₉.extractions.rows = [toDoc ⟨1⟩ firstRecord] := hrows₉.trans hrows₈
  obtain ⟨rows₁₀, h₁₀, hrows₁₀⟩ := step_insert (s := s₉) (c := 1) ⟨2⟩ rfl (by
      rw [hrows₉]
      intro doc hdoc
      rw [List.mem_singleton.1 hdoc]
      decide) (by
      rw [hrows₉]
      exact fun _ hmem => hkeys (List.mem_singleton.1 hmem).symm)
  let s₁₀ := { s₉ with extractions := rows₁₀, put := Function.update s₉.put 1 .done }
  have h₁₁ := Step.indexOthers (s := s₁₀) (p := true) rfl
  have halone₁ : Alone s₀ (.put (.check 0 firstRecord (.ok ()))) := fun c record' hc => by cases hc
  have halone₂ : Alone s₁ (.bucketExists true false) := fun p hp => by cases hp
  have halone₄ : Alone s₃ (.bucketExists false true) := fun p hp => by cases p <;> cases hp
  have halone₅ : Alone s₄ (.put (.check 1 secondRecord (.ok ()))) := by
    intro c record' hc
    change Function.update (fun _ => PutPhase.idle) 0 (.checked firstRecord) c = .checked record' at hc
    by_cases hzero : c = 0
    · rw [hzero, Function.update_self] at hc
      rw [← PutPhase.checked.inj hc]
      exact hkeys
    · rw [Function.update_of_ne hzero] at hc
      cases hc
  refine ⟨_, .cons ⟨h₁, halone₁⟩ <| .cons ⟨h₂, halone₂⟩ <| .cons ⟨h₃, trivial⟩ <|
    .cons ⟨h₄, halone₄⟩ <| .cons ⟨h₅, halone₅⟩ <| .cons ⟨h₆, trivial⟩ <| .cons ⟨h₇, trivial⟩ <|
    .cons ⟨h₈, trivial⟩ <| .cons ⟨h₉, trivial⟩ <| .cons ⟨h₁₀, trivial⟩ <| .single ⟨h₁₁, trivial⟩,
    ?_, rfl, rfl⟩
  exact hrows₁₀.trans (congrArg (· ++ _) hrows₉)

/-- In every run, whatever has been stored before, and however the calls of `init_storage` and the
writers overlap: once a call of `init_storage` has returned there is a bucket, and no document has two
pages of one number or two extractions of one version. -/
theorem init_storage_returned {s₀ : Storage P C} (hidle : ∀ q, s₀.phase q = .idle) (h : Run Step s₀ tr s)
    (hreturned : .indexOthers p ∈ tr) :
    s.bucket ∧ (s.pages.rows.map Prod.fst).Nodup ∧ (s.extractions.rows.map ExtractionDoc.key).Nodup :=
  have hready := ready_returned hidle h hreturned
  ⟨hready.1, s.pages.nodup hready.2.1, s.extractions.nodup hready.2.2⟩

theorem init_storage_returned_started : ∃ s : Storage Bool ℕ, Run Step init startedTrace s ∧
    s.phase false = .pages ∧ s.bucket ∧ (s.extractions.rows.map ExtractionDoc.key).Nodup := by
  obtain ⟨s, hrun, -, -, hphase⟩ := exists_started
  have hrun := hrun.mono fun _ _ _ h => h.1
  obtain ⟨hbucket, -, hnodup⟩ := init_storage_returned (p := true) (fun _ => rfl) hrun (by simp [startedTrace])
  exact ⟨s, hrun, hphase, hbucket, hnodup⟩

/-! ## The indexed collection -/

section Indexed

variable {t : ExtractionStore}

omit [DecidableEq P] [DecidableEq C]

theorem checkExtraction_indexed (record : ExtractionRecord) {c : Collection ExtractionDoc.key} (h : c.Is t) :
    checkExtraction record c = MongoContentStore.checkExtraction record t := by
  rw [checkExtraction, MongoContentStore.checkExtraction, h.lookup_eq]

/-- With the index, `put_extraction` inserts as into a table. -/
theorem insertExtraction_indexed (id : ObjectId) (record : ExtractionRecord)
    {c : Collection ExtractionDoc.key} (h : c.Is t) :
    (insertExtraction id record c).1.Is (MongoContentStore.insertExtraction id record t).1 ∧
      (insertExtraction id record c).2 = (MongoContentStore.insertExtraction id record t).2 := by
  by_cases hkey : t.lookup (storeKey record) = none
  · obtain ⟨hrows, hanswer⟩ := insertExtraction_of_none id hkey
    cases hinsert : c.insertOne (toDoc id record) with
    | none =>
      rw [h.lookup_eq] at hkey
      exact absurd hkey (insertOne_eq_none_iff.1 hinsert).2
    | some c' =>
      obtain ⟨hrows', hindexed⟩ := insertOne_eq_some hinsert
      rw [hanswer, insertExtraction, hinsert]
      exact ⟨⟨hindexed.trans h.indexed, by rw [hrows, hrows', h.rows]⟩, rfl⟩
  · have htaken : c.lookup (storeKey record) ≠ none := by rwa [← h.lookup_eq]
    have hrefused : c.insertOne (toDoc id record) = none := insertOne_eq_none_iff.2 ⟨h.indexed, htaken⟩
    rw [insertExtraction_of_ne_none id hkey, insertExtraction, hrefused]
    exact ⟨h, rfl⟩

theorem deleteDocument_indexed (d : UUID) {c : Collection ExtractionDoc.key} (h : c.Is t) :
    (deleteDocument d c).Is (MongoContentStore.deleteDocument d t) :=
  ⟨h.indexed, by rw [MongoContentStore.deleteDocument, Table.rows_filter, h.rows]; rfl⟩

end Indexed

/-- The table with the rows, and the calls of `put_extraction`. -/
def Follows (s : Storage P C) (calls : PutCalls C) : Prop :=
  s.extractions.Is calls.store ∧ calls.phase = s.put

/-- A step on an indexed collection is one of `PutCalls`, or changes nothing there. -/
theorem follows_step {calls : PutCalls C} (h : Follows s calls) (hstep : Step s e s') :
    e.put?.elim (Follows s' calls) fun e' => ∃ calls', PutCalls.Step calls e' calls' ∧ Follows s' calls' := by
  obtain ⟨store, phase⟩ := calls
  obtain ⟨his, rfl⟩ := h
  cases hstep with
  | check record hidle =>
    rw [checkExtraction_indexed record his]
    exact ⟨_, PutCalls.Step.check record hidle, his, rfl⟩
  | @insert c record id hchecked hnew =>
    obtain ⟨his', hanswer⟩ := insertExtraction_indexed id record his
    rw [hanswer]
    refine ⟨_, PutCalls.Step.insert hchecked fun doc hdoc => hnew doc ?_, his', rfl⟩
    rwa [← his.rows]
  | @lost c record id hchecked hnew =>
    obtain ⟨his', hanswer⟩ := insertExtraction_indexed id record his
    rw [hanswer]
    refine ⟨_, PutCalls.Step.lost hchecked fun doc hdoc => hnew doc ?_, his', rfl⟩
    rwa [← his.rows]
  | fail => exact ⟨_, PutCalls.Step.fail, his, rfl⟩
  | delete d => exact ⟨_, PutCalls.Step.delete d, deleteDocument_indexed d his, rfl⟩
  | indexExtractions =>
    exact ⟨⟨indexed_getD_createIndex his.indexed, his.rows.trans (rows_getD_createIndex _).symm⟩, rfl⟩
  | _ => exact ⟨his, rfl⟩

/-- Once a call of `init_storage` has returned, every later run is, for the extractions and the calls of
`put_extraction`, a run on a table with unique keys. -/
theorem init_storage_refines {s₀ : Storage P C} (hidle : ∀ q, s₀.phase q = .idle) (h : Run Step s₀ tr m)
    (hreturned : .indexOthers p ∈ tr) (hrun : Run Step m tr' s) :
    ∃ t t' : ExtractionStore, t.rows = m.extractions.rows ∧ t'.rows = s.extractions.rows ∧
      Run PutCalls.Step ⟨t, m.put⟩ (tr'.filterMap StorageEvent.put?) ⟨t', s.put⟩ := by
  obtain ⟨t, his⟩ := m.extractions.exists_is (ready_returned hidle h hreturned).2.2
  have hfollows : Follows m ⟨t, m.put⟩ := ⟨his, rfl⟩
  have hsim : ∃ calls', Run PutCalls.Step ⟨t, m.put⟩ (tr'.filterMap StorageEvent.put?) calls' ∧
      Follows s calls' :=
    hrun.simulates Follows StorageEvent.put? hfollows fun _ _ _ _ => follows_step
  obtain ⟨⟨t', phase⟩, hcalls, his', rfl⟩ := hsim
  exact ⟨t, t', his.rows, his'.rows, hcalls⟩

theorem init_storage_refines_started : ∃ m s : Storage Bool ℕ, Run Step init startedTrace m ∧
    Run Step m [.indexExtractions false true,
      .put (.check 2 firstRecord (.error (.conflict (duplicate firstRecord))))] s ∧
    ∃ t t', Run PutCalls.Step ⟨t, m.put⟩
      [.check 2 firstRecord (.error (.conflict (duplicate firstRecord)))] ⟨t', s.put⟩ := by
  obtain ⟨m, hrun, hrows, hput, hphase⟩ := exists_started
  have hrun := hrun.mono fun _ _ _ h => h.1
  obtain ⟨-, -, hnodup⟩ := init_storage_returned (p := true) (fun _ => rfl) hrun (by simp [startedTrace])
  obtain ⟨extractions, hindex, hkept⟩ := step_indexExtractions hphase hnodup
  let m' := { m with extractions := extractions, phase := Function.update m.phase false .extractions }
  have hrefused : Step m' (.put (.check 2 firstRecord _)) _ := step_refused hput (by
    rw [show m'.extractions.rows = _ from hkept.trans hrows]
    exact List.mem_cons_self)
  have hlater := Run.cons hindex (.single hrefused)
  obtain ⟨t, t', -, -, hcalls⟩ :=
    init_storage_refines (p := true) (fun _ => rfl) hrun (by simp [startedTrace]) hlater
  exact ⟨m, _, hrun, hlater, t, t', hcalls⟩

/-! ## Calls that do not overlap -/

/-- The key that a call of `put_extraction` is about to insert. -/
def pendingKey : PutPhase → Option (String × ℕ)
  | .checked record => some (storeKey record)
  | _ => none

/-- No call is under way, and no two rows share a key. -/
structure Quiet (s : Storage P C) : Prop where
  phase : ∀ p, s.phase p = .idle
  put : ∀ c, s.put c = .idle
  upsert : ∀ c, s.upsert c = none
  pages : (s.pages.rows.map Prod.fst).Nodup
  extractions : (s.extractions.rows.map ExtractionDoc.key).Nodup

/-- The calls under way do not overlap. -/
structure AloneInv (s : Storage P C) : Prop where
  bucket : ∀ p, s.phase p = .missing → s.bucket = false ∧ ∀ q, s.phase q = .missing → q = p
  pages : Apart (s.pages.rows.map Prod.fst) (Option.map Prod.fst ∘ s.upsert)
  extractions : Apart (s.extractions.rows.map ExtractionDoc.key) (pendingKey ∘ s.put)

omit [DecidableEq P] [DecidableEq C] in
theorem aloneInv_of_quiet (h : Quiet s) : AloneInv s where
  bucket p hp := by
    rw [h.phase p] at hp
    cases hp
  pages := by
    refine ⟨h.pages, fun c k hk => ?_, fun c c' k hk => ?_⟩ <;>
    · rw [Function.comp_apply, h.upsert c] at hk
      cases hk
  extractions := by
    refine ⟨h.extractions, fun c k hk => ?_, fun c c' k hk => ?_⟩ <;>
    · rw [Function.comp_apply, h.put c] at hk
      cases hk

omit [DecidableEq C] in
/-- A call moves on from a phase other than `missing`. -/
theorem missing_update {phase : InitPhase} (hphase : phase ≠ .missing) {q : P}
    (h : Function.update s.phase p phase q = .missing) : s.phase q = .missing := by
  by_cases hq : q = p
  · rw [hq, Function.update_self] at h
    exact absurd h hphase
  · rwa [Function.update_of_ne hq] at h

omit [DecidableEq C] in
theorem bucket_update {phase : InitPhase} (hphase : phase ≠ .missing)
    (h : ∀ p, s.phase p = .missing → s.bucket = false ∧ ∀ q, s.phase q = .missing → q = p) (q : P)
    (hq : Function.update s.phase p phase q = .missing) :
    s.bucket = false ∧ ∀ q', Function.update s.phase p phase q' = .missing → q' = q := by
  obtain ⟨hbucket, hone⟩ := h q (missing_update hphase hq)
  exact ⟨hbucket, fun q' hq' => hone q' (missing_update hphase hq')⟩

omit [DecidableEq P] [DecidableEq C] in
theorem afterCreation_ne_missing {phase : InitPhase} (hphase : phase ≠ .missing) (created : Bool) :
    afterCreation phase created ≠ .missing := by
  cases created with
  | false => exact InitPhase.noConfusion
  | true => exact hphase

theorem bucket_step (h : AloneInv s) (hstep : Step s e s') (halone : Alone s e) :
    ∀ p, s'.phase p = .missing → s'.bucket = false ∧ ∀ q, s'.phase q = .missing → q = p := by
  cases hstep with
  | @bucketExists p hidle =>
    intro q hq
    cases hbucket : s.bucket with
    | false =>
      have hone : ∀ q, Function.update s.phase p .missing q = .missing → q = p := by
        intro q hq
        by_contra hne
        rw [Function.update_of_ne hne] at hq
        exact halone q hq
      simp only [hbucket, Bool.false_eq_true, if_false] at hq ⊢
      exact ⟨trivial, fun q' hq' => (hone q' hq').trans (hone q hq).symm⟩
    | true =>
      simp only [hbucket, if_true] at hq
      rw [(h.bucket q (missing_update (by simp) hq)).1] at hbucket
      cases hbucket
  | @makeBucket p hmissing hbucket =>
    intro q hq
    have hone := (h.bucket p hmissing).2 q (missing_update (by simp) hq)
    rw [hone] at hq
    simp at hq
  | @makeBucketAgain p made hmissing hbucket =>
    rw [(h.bucket p hmissing).1] at hbucket
    cases hbucket
  | indexPages | indexExtractions => exact bucket_update (afterCreation_ne_missing (by simp) _) h.bucket
  | indexOthers | initFails => exact bucket_update (by simp) h.bucket
  | _ => exact h.bucket

theorem pages_step (h : AloneInv s) (hstep : Step s e s') (halone : Alone s e) :
    Apart (s'.pages.rows.map Prod.fst) (Option.map Prod.fst ∘ s'.upsert) := by
  cases hstep with
  | indexPages =>
    rw [rows_getD_createIndex]
    exact h.pages
  | replacePage row hfound =>
    rw [replaceOne, map_key_replaceFirst]
    exact h.pages
  | @missPage c row hidle hnone =>
    rw [Function.comp_update]
    refine h.pages.look ((lookup_eq_none_iff _).1 hnone) fun c' hc' => ?_
    obtain ⟨row', hrow', hkey⟩ := Option.map_eq_some_iff.1 hc'
    exact halone c' row' hrow' hkey
  | @insertPage c row hmissed =>
    have hpending : (Option.map Prod.fst ∘ s.upsert) c = some row.1 := by
      rw [Function.comp_apply, hmissed]
      rfl
    rw [Function.comp_update]
    cases hinsert : s.pages.insertOne row with
    | none => exact h.pages.forget
    | some c' =>
      rw [Option.getD_some, (insertOne_eq_some hinsert).1, List.map_append]
      exact h.pages.insert hpending
  | pageFails =>
    rw [Function.comp_update]
    exact h.pages.forget
  | deletePages d => exact h.pages.sublist (List.filter_sublist.map Prod.fst)
  | _ => exact h.pages

theorem extractions_step (h : AloneInv s) (hstep : Step s e s') (halone : Alone s e) :
    Apart (s'.extractions.rows.map ExtractionDoc.key) (pendingKey ∘ s'.put) := by
  cases hstep with
  | indexExtractions =>
    rw [rows_getD_createIndex]
    exact h.extractions
  | @check c record hidle =>
    rw [Function.comp_update]
    cases hlookup : s.extractions.lookup (storeKey record) with
    | none =>
      rw [checkExtraction, hlookup]
      refine h.extractions.look ((lookup_eq_none_iff _).1 hlookup) fun c' hc' => ?_
      rw [Function.comp_apply] at hc'
      cases hput : s.put c' with
      | checked record' =>
        rw [hput] at hc'
        exact halone c' record' hput (Option.some.inj hc')
      | idle | done =>
        rw [hput] at hc'
        cases hc'
    | some doc =>
      rw [checkExtraction, hlookup]
      exact h.extractions.forget
  | @insert c record id hchecked hnew | @lost c record id hchecked hnew =>
    have hpending : (pendingKey ∘ s.put) c = some (storeKey record) := by
      rw [Function.comp_apply, hchecked]
      rfl
    rw [Function.comp_update, insertExtraction]
    cases hinsert : s.extractions.insertOne (toDoc id record) with
    | none => exact h.extractions.forget
    | some c' =>
      rw [(insertOne_eq_some hinsert).1, List.map_append]
      exact h.extractions.insert hpending
  | fail =>
    rw [Function.comp_update]
    exact h.extractions.forget
  | delete d => exact h.extractions.sublist (List.filter_sublist.map ExtractionDoc.key)
  | _ => exact h.extractions

theorem not_refused (h : AloneInv s) (hstep : Step s e s') : ¬ e.Refused := by
  have hpages : s.pages.createIndex ≠ none := fun hnone => createIndex_eq_none_iff.1 hnone h.pages.nodup
  have hextractions : s.extractions.createIndex ≠ none := fun hnone =>
    createIndex_eq_none_iff.1 hnone h.extractions.nodup
  cases hstep with
  | @makeBucketAgain p made hmissing hbucket =>
    rw [(h.bucket p hmissing).1] at hbucket
    cases hbucket
  | indexPages =>
    rw [Option.isSome_iff_ne_none.2 hpages]
    exact id
  | indexExtractions =>
    rw [Option.isSome_iff_ne_none.2 hextractions]
    exact id
  | _ => exact id

/-- As long as no two calls overlap on the bucket or on a key, nothing that is stored is in the way of
`init_storage`, and no key is stored twice, even before there is an index. -/
theorem init_storage_apart {s₀ : Storage P C} (hquiet : Quiet s₀)
    (h : Run (fun s e s' => Step s e s' ∧ Alone s e) s₀ tr s) :
    (∀ e ∈ tr, ¬ e.Refused) ∧ (s.pages.rows.map Prod.fst).Nodup ∧
      (s.extractions.rows.map ExtractionDoc.key).Nodup := by
  have hinv : AloneInv s ∧ ∀ e ∈ tr, ¬ e.Refused := by
    refine h.rec_inv (fun tr s => AloneInv s ∧ ∀ e ∈ tr, ¬ e.Refused)
      ⟨aloneInv_of_quiet hquiet, by simp⟩ ?_
    rintro tr s e s' - ⟨hinv, htr⟩ ⟨hstep, halone⟩
    refine ⟨⟨bucket_step hinv hstep halone, pages_step hinv hstep halone,
      extractions_step hinv hstep halone⟩, fun e' he' => ?_⟩
    obtain he' | he' := List.mem_append.1 he'
    · exact htr e' he'
    · rw [List.mem_singleton.1 he']
      exact not_refused hinv hstep
  exact ⟨hinv.2, hinv.1.pages.nodup, hinv.1.extractions.nodup⟩

theorem init_storage_apart_started : ∃ s : Storage Bool ℕ,
    Run (fun s e s' => Step s e s' ∧ Alone s e) init startedTrace s ∧
    s.extractions.rows = [toDoc ⟨1⟩ firstRecord, toDoc ⟨2⟩ secondRecord] ∧
    (∀ e ∈ startedTrace, ¬ e.Refused) ∧ (s.extractions.rows.map ExtractionDoc.key).Nodup := by
  obtain ⟨s, hrun, hrows, -⟩ := exists_started
  have hquiet : Quiet (init : Storage Bool ℕ) :=
    ⟨fun _ => rfl, fun _ => rfl, fun _ => rfl, List.nodup_nil, List.nodup_nil⟩
  obtain ⟨hrefused, -, hnodup⟩ := init_storage_apart hquiet hrun
  exact ⟨s, hrun, hrows, hrefused, hnodup⟩

/-! ## Calls that overlap -/

/-- Without the index an insert takes place whatever is stored. -/
theorem insert_unindexed {c : C} {record : ExtractionRecord} {id : ObjectId} {result : Except StoreError String}
    (hindex : s.extractions.indexed = false) (h : Step s (.put (.insert c record id result)) s') :
    result = .ok id.str ∧ s'.extractions.rows = s.extractions.rows ++ [toDoc id record] ∧
      s'.extractions.indexed = false := by
  cases h with
  | insert hchecked hnew =>
    rw [insertExtraction]
    cases hinsert : s.extractions.insertOne (toDoc id record) with
    | none =>
      rw [(insertOne_eq_none_iff.1 hinsert).1] at hindex
      cases hindex
    | some c' =>
      obtain ⟨hrows, hindexed⟩ := insertOne_eq_some hinsert
      exact ⟨rfl, hrows, hindexed.trans hindex⟩

/-- Only a delete of the document removes any of its versions. -/
theorem countP_key_step {d : UUID} {v n : ℕ} (hstep : Step s e s') (he : e ≠ .put (.delete d))
    (h : n ≤ s.extractions.rows.countP fun doc => doc.key = (d.str, v)) :
    n ≤ s'.extractions.rows.countP fun doc => doc.key = (d.str, v) := by
  cases hstep with
  | indexExtractions =>
    rw [rows_getD_createIndex]
    exact h
  | @insert c record id hchecked hnew | @lost c record id hchecked hnew =>
    rw [insertExtraction]
    cases hinsert : s.extractions.insertOne (toDoc id record) with
    | none => exact h
    | some c' =>
      rw [(insertOne_eq_some hinsert).1, List.countP_append]
      exact h.trans (Nat.le_add_right _ _)
  | delete d' =>
    have hne : d.str ≠ d'.str := by
      intro heq
      rw [UUID.str_injective heq] at he
      exact he rfl
    rw [deleteDocument, rows_filter, List.countP_filter]
    refine h.trans (le_of_eq (List.countP_congr fun doc _ => ?_))
    by_cases hkey : doc.key = (d.str, v)
    · have hd : doc.documentId = d.str := (Prod.mk.inj hkey).1
      simp [hkey, hd, hne]
    · simp [hkey]
  | _ => exact h

theorem countP_key_run {d : UUID} {v n : ℕ} (h : n ≤ s.extractions.rows.countP fun doc => doc.key = (d.str, v))
    (hrun : Run Step s tr s') (hdelete : .put (.delete d) ∉ tr) :
    n ≤ s'.extractions.rows.countP fun doc => doc.key = (d.str, v) := by
  refine hrun.mono_inv (fun s => n ≤ s.extractions.rows.countP fun doc => doc.key = (d.str, v))
    (· ≠ .put (.delete d)) h (fun s e s' he h hstep => countP_key_step hstep he h) fun e he heq => ?_
  rw [heq] at he
  exact hdelete he

theorem not_indexed_of_countP {d : UUID} {v : ℕ} {p : P}
    (h : 2 ≤ s.extractions.rows.countP fun doc => doc.key = (d.str, v))
    (hstep : Step s (.indexExtractions p true) s') : False := by
  generalize hevent : StorageEvent.indexExtractions p true = e at hstep
  cases hstep with
  | indexExtractions hpages =>
    obtain ⟨c', hcreate⟩ := Option.isSome_iff_exists.1 (StorageEvent.indexExtractions.inj hevent).2.symm
    have hnodup : (s.extractions.rows.map ExtractionDoc.key).Nodup := by
      by_contra hnot
      rw [createIndex_eq_none_iff.2 hnot] at hcreate
      cases hcreate
    have hcount := List.nodup_iff_count_le_one.1 hnodup (d.str, v)
    rw [List.count, List.countP_map] at hcount
    have hsame : s.extractions.rows.countP ((· == (d.str, v)) ∘ ExtractionDoc.key) =
        s.extractions.rows.countP fun doc => doc.key = (d.str, v) :=
      List.countP_congr fun doc _ => by simp
    omega
  | _ => cases hevent

/-- Two calls of `put_extraction` for one version that both insert before there is an index both succeed,
whatever happens in between.  If the document is not deleted after the first insert then no call of
`init_storage` can create the index in any later run. -/
theorem init_storage_overlap {s₁ s₂ : Storage P C} {c c' : C} {record record' : ExtractionRecord}
    {id id' : ObjectId} {result result' : Except StoreError String}
    (hd : record'.documentId = record.documentId) (hv : record'.version = record.version)
    (hindex : s.extractions.indexed = false) (h₁ : Step s (.put (.insert c record id result)) s₁)
    (hmid : Run Step s₁ tr m) (hindex' : m.extractions.indexed = false)
    (h₂ : Step m (.put (.insert c' record' id' result')) s₂) :
    result = .ok id.str ∧ result' = .ok id'.str ∧
      (.put (.delete record.documentId) ∉ tr → ∀ tr' s', Run Step s₂ tr' s' →
        .put (.delete record.documentId) ∉ tr' → ∀ p, .indexExtractions p true ∉ tr') := by
  obtain ⟨hresult, hrows₁, -⟩ := insert_unindexed hindex h₁
  obtain ⟨hresult', hrows₂, -⟩ := insert_unindexed hindex' h₂
  refine ⟨hresult, hresult', fun hdelete tr' s' hrun hdelete' p hmem => ?_⟩
  have hkey : (toDoc id record).key = (record.documentId.str, record.version) := rfl
  have hkey' : (toDoc id' record').key = (record.documentId.str, record.version) := by
    rw [← hd, ← hv]
    rfl
  have hone : 1 ≤ m.extractions.rows.countP
      fun doc => doc.key = (record.documentId.str, record.version) := by
    refine countP_key_run ?_ hmid hdelete
    rw [hrows₁, List.countP_append, List.countP_singleton, if_pos (decide_eq_true hkey)]
    omega
  obtain ⟨tr₁, tr₂, m', m'', rfl, hrun₁, hstep, -⟩ := hrun.exists_step_of_mem hmem
  refine not_indexed_of_countP (d := record.documentId) (v := record.version) ?_ hstep
  refine countP_key_run ?_ hrun₁ fun hmem₁ => hdelete' (List.mem_append_left _ hmem₁)
  rw [hrows₂, List.countP_append, List.countP_singleton, if_pos (decide_eq_true hkey')]
  omega

/-- Two calls put one version while a process starts, which the second index then makes fail. -/
theorem init_storage_overlap_first_version : ∃ (tr tr' : List (StorageEvent Unit Bool)) (s s' : Storage Unit Bool),
    tr = [.put (.check true firstRecord (.ok ())), .put (.check false firstRecord (.ok ())),
      .put (.insert true firstRecord ⟨1⟩ (.ok (ObjectId.str ⟨1⟩))), .bucketExists () false,
      .makeBucket () true, .put (.insert false firstRecord ⟨2⟩ (.ok (ObjectId.str ⟨2⟩)))] ∧
    Run Step init tr s ∧ tr' = [.indexPages () true, .indexExtractions () false] ∧ Run Step s tr' s' := by
  let s₀ : Storage Unit Bool := init
  let s₁ := { s₀ with put := Function.update s₀.put true (.checked firstRecord) }
  let s₂ := { s₁ with put := Function.update s₁.put false (.checked firstRecord) }
  have h₁ : Step s₀ (.put (.check true firstRecord (.ok ()))) s₁ := step_check rfl List.not_mem_nil
  have h₂ : Step s₁ (.put (.check false firstRecord (.ok ()))) s₂ := step_check rfl List.not_mem_nil
  have hnone : ∀ doc ∈ s₂.extractions.rows, doc.id ≠ ⟨1⟩ := fun doc hdoc => absurd hdoc List.not_mem_nil
  obtain ⟨rows₃, h₃, hrows₃⟩ := step_insert (s := s₂) (c := true) ⟨1⟩ rfl hnone fun h => by cases h
  obtain ⟨-, -, hindex₃⟩ := insert_unindexed rfl h₃
  let s₃ := { s₂ with extractions := rows₃, put := Function.update s₂.put true .done }
  let s₄ := { s₃ with phase := Function.update s₃.phase () .missing }
  let s₅ := { s₄ with bucket := true, phase := Function.update s₄.phase () .bucket }
  have h₄ : Step s₃ (.bucketExists () false) s₄ := .bucketExists rfl
  have h₅ : Step s₄ (.makeBucket () true) s₅ := .makeBucket rfl rfl
  have hone : ∀ doc ∈ s₅.extractions.rows, doc.id ≠ ⟨2⟩ := by
    intro doc hdoc
    rw [show s₅.extractions.rows = [toDoc ⟨1⟩ firstRecord] from hrows₃] at hdoc
    rw [List.mem_singleton.1 hdoc]
    decide
  have hfree : ¬ s₅.extractions.indexed := fun h => by
    rw [show s₅.extractions.indexed = false from hindex₃] at h
    cases h
  obtain ⟨rows₆, h₆, hrows₆⟩ := step_insert (s := s₅) (c := false) ⟨2⟩ rfl hone fun h => absurd h hfree
  let s₆ := { s₅ with extractions := rows₆, put := Function.update s₅.put false .done }
  obtain ⟨pages₇, h₇, -⟩ := step_indexPages (s := s₆) (q := ()) rfl rfl
  let s₇ := { s₆ with pages := pages₇, phase := Function.update s₆.phase () .pages }
  have h₈ := Step.indexExtractions (s := s₇) (p := ()) rfl
  have hmid : Run Step s₃ [.bucketExists () false, .makeBucket () true] s₅ := .cons h₄ (.single h₅)
  obtain ⟨-, -, hnever⟩ := init_storage_overlap rfl rfl rfl h₃ hmid hindex₃ h₆
  have hrefused : s₇.extractions.createIndex.isSome = false := by
    cases hcreate : s₇.extractions.createIndex.isSome with
    | false => rfl
    | true =>
      rw [hcreate] at h₈
      exact absurd (by simp) (hnever (by simp) _ _ (.cons h₇ (.single h₈)) (by simp) ())
  rw [hrefused] at h₈
  exact ⟨_, _, s₆, _, rfl, .cons h₁ <| .cons h₂ <| .cons h₃ <| .cons h₄ <| .cons h₅ <| .single h₆, rfl,
    .cons h₇ (.single h₈)⟩

end Storage

end Ipa
