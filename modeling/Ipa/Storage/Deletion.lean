import Ipa.Lib.Since
import Ipa.Storage.Content
import Ipa.Storage.Fanout
import Ipa.Lib.Run

/-!
# Deleting the content of a document

`delete_document` clears the collections one after another, while other calls write to them
(`ContentStore.Step`).  A driver error ends a call where it stands.

* `content_since_delete`: the readers see what has been written since the last deletion.
* `deleted_content_landed`: what is left when `delete_document` returns landed while it ran.
-/

namespace Ipa

open Listing MongoContentStore Transition

/-- A document of the collection `raw_responses`; instants are stored in milliseconds. -/
structure RawResponse where
  documentId : String
  step : String
  model : String
  requestSummary : Option String
  responseText : String
  createdAtMs : ℤ

/-- The arguments of `put_raw_response` and the time of the call. -/
structure RawResponseCall where
  documentId : UUID
  step : String
  model : String
  responseText : String
  requestSummary : Option String
  now : Timestamp

namespace MongoContentStore

/-- `RAW_RESPONSE_TTL_S`. -/
def rawResponseTtlS : ℤ := 30 * 24 * 60 * 60

/-- The document that `put_raw_response` inserts. -/
def rawResponse (call : RawResponseCall) : RawResponse where
  documentId := call.documentId.str
  step := call.step
  model := call.model
  requestSummary := call.requestSummary
  responseText := call.responseText
  createdAtMs := call.now / 1000

/-- The index `ttl_30d` removes the document at `now`. -/
def Expired (now : Timestamp) (response : RawResponse) : Prop :=
  (response.createdAtMs + rawResponseTtlS * 1000) * 1000 ≤ now

instance (now : Timestamp) : DecidablePred (Expired now) :=
  fun response =>
    inferInstanceAs (Decidable ((response.createdAtMs + rawResponseTtlS * 1000) * 1000 ≤ now))

/-- The third operation of `delete_document`. -/
def deleteRawResponses (documentId : UUID) (responses : List RawResponse) : List RawResponse :=
  responses.filter fun response => response.documentId ≠ documentId.str

end MongoContentStore

/-- Where a call of `put_extraction` or `delete_document` stands: not begun or over, past its check, or
past its first or second deletion. -/
inductive ContentPhase
  | idle
  | checked (record : ExtractionRecord)
  | deletedPages (documentId : UUID)
  | deletedExtractions (documentId : UUID)

/-- The three collections, and the callers. -/
structure ContentStore (C : Type*) where
  pages : PageStore
  extractions : ExtractionStore
  rawResponses : List RawResponse
  phase : C → ContentPhase

/-- The operations of the calls, each of which the server does at once, and the expiry of raw responses.
An upsert is one of any call of `put_pages`.  A call may fail although its operation has been done. -/
inductive ContentEvent (C : Type*)
  | upsertPage (documentId : UUID) (page : PageText) (now : Timestamp)
  | check (c : C) (record : ExtractionRecord) (result : Except StoreError Unit)
  | insert (c : C) (record : ExtractionRecord) (id : ObjectId) (result : Except StoreError String)
  | putRawResponse (call : RawResponseCall)
  | deletePages (c : C) (documentId : UUID)
  | deleteExtractions (c : C) (documentId : UUID)
  | deleteRawResponses (c : C) (documentId : UUID)
  | fail (c : C)
  | expire (now : Timestamp)

namespace ContentEvent

variable {C : Type*}

/-- The caller, for the calls that have several operations. -/
def caller : ContentEvent C → Option C
  | check c _ _ | insert c _ _ _ | deletePages c _ | deleteExtractions c _ | deleteRawResponses c _ |
    fail c => some c
  | _ => none

/-- The page of `d` that the event stores. -/
def page (d : UUID) : ContentEvent C → Option (PageText × Timestamp)
  | upsertPage documentId page now => if documentId = d then some (page, now) else none
  | _ => none

/-- The record of `d` that the event stores. -/
def record (d : UUID) : ContentEvent C → Option (ObjectId × ExtractionRecord)
  | insert _ record id (.ok _) => if record.documentId = d then some (id, record) else none
  | _ => none

/-- The raw response for `d` that the event stores. -/
def response (d : UUID) : ContentEvent C → Option RawResponse
  | putRawResponse call => if call.documentId = d then some (rawResponse call) else none
  | _ => none

/-- The event deletes the pages of `d`. -/
def clearsPages (d : UUID) : ContentEvent C → Bool
  | deletePages _ documentId => documentId = d
  | _ => false

/-- The event deletes the extractions of `d`. -/
def clearsExtractions (d : UUID) : ContentEvent C → Bool
  | deleteExtractions _ documentId => documentId = d
  | _ => false

/-- The event deletes the raw responses of `d`. -/
def clearsRawResponses (d : UUID) : ContentEvent C → Bool
  | deleteRawResponses _ documentId => documentId = d
  | _ => false

end ContentEvent

namespace ContentStore

variable {C : Type*} [DecidableEq C]

/-- Empty collections, no calls. -/
def init : ContentStore C := ⟨Table.empty _, Table.empty _, [], fun _ => .idle⟩

/-- The phase of a call of `put_extraction` after its check. -/
def afterCheck (record : ExtractionRecord) : Except StoreError Unit → ContentPhase
  | .ok () => .checked record
  | .error _ => .idle

/-- One operation of one call, or an expiry. -/
inductive Step : ContentStore C → ContentEvent C → ContentStore C → Prop
  | upsertPage {s : ContentStore C} (d : UUID) (page : PageText) (now : Timestamp) :
      Step s (.upsertPage d page now) { s with pages := upsert d page now s.pages }
  | check {s : ContentStore C} {c : C} (record : ExtractionRecord) (hidle : s.phase c = .idle) :
      Step s (.check c record (checkExtraction record s.extractions))
        { s with phase :=
            Function.update s.phase c (afterCheck record (checkExtraction record s.extractions)) }
  | insert {s : ContentStore C} {c : C} {record : ExtractionRecord} {id : ObjectId}
      (hchecked : s.phase c = .checked record) (hnew : ∀ doc ∈ s.extractions.rows, doc.id ≠ id) :
      Step s (.insert c record id (insertExtraction id record s.extractions).2)
        { s with
          extractions := (insertExtraction id record s.extractions).1
          phase := Function.update s.phase c .idle }
  | putRawResponse {s : ContentStore C} (call : RawResponseCall) :
      Step s (.putRawResponse call) { s with rawResponses := s.rawResponses ++ [rawResponse call] }
  | deletePages {s : ContentStore C} {c : C} (d : UUID) (hidle : s.phase c = .idle) :
      Step s (.deletePages c d)
        { s with
          pages := MongoContentStore.deletePages d s.pages
          phase := Function.update s.phase c (.deletedPages d) }
  | deleteExtractions {s : ContentStore C} {c : C} {d : UUID} (hpages : s.phase c = .deletedPages d) :
      Step s (.deleteExtractions c d)
        { s with
          extractions := deleteDocument d s.extractions
          phase := Function.update s.phase c (.deletedExtractions d) }
  | deleteRawResponses {s : ContentStore C} {c : C} {d : UUID}
      (hextractions : s.phase c = .deletedExtractions d) :
      Step s (.deleteRawResponses c d)
        { s with
          rawResponses := MongoContentStore.deleteRawResponses d s.rawResponses
          phase := Function.update s.phase c .idle }
  | fail {s : ContentStore C} {c : C} :
      Step s (.fail c) { s with phase := Function.update s.phase c .idle }
  | expire {s : ContentStore C} (now : Timestamp) :
      Step s (.expire now)
        { s with rawResponses := s.rawResponses.filter fun response => ¬ Expired now response }

/-! ## What has been written since the last deletion -/

/-- The upserts of the pages of `d` since they were deleted last. -/
def pagesSince (d : UUID) (tr : List (ContentEvent C)) : List (PageText × Timestamp) :=
  since (ContentEvent.clearsPages d) (ContentEvent.page d) tr

/-- The records of `d` that have been inserted since they were deleted last. -/
def recordsSince (d : UUID) (tr : List (ContentEvent C)) : List (ObjectId × ExtractionRecord) :=
  since (ContentEvent.clearsExtractions d) (ContentEvent.record d) tr

/-- The raw responses for `d` since they were deleted last. -/
def responsesSince (d : UUID) (tr : List (ContentEvent C)) : List RawResponse :=
  since (ContentEvent.clearsRawResponses d) (ContentEvent.response d) tr

/-- The collections hold what has been written since the last deletions. -/
structure Inv (d : UUID) (tr : List (ContentEvent C)) (s : ContentStore C) : Prop where
  pages : ∀ n, s.pages.get? (d.str, n) =
    ((pagesSince d tr).findRev? fun entry => entry.1.page = n).map fun entry => pageDoc entry.1 entry.2
  extractions : (s.extractions.rows.filter fun doc => doc.documentId = d.str) =
    (recordsSince d tr).map fun entry => toDoc entry.1 entry.2
  rawResponses : (s.rawResponses.filter fun response => response.documentId = d.str).Sublist
    (responsesSince d tr)

variable {d : UUID} {tr : List (ContentEvent C)} {s s' : ContentStore C} {e : ContentEvent C}

omit [DecidableEq C] in
theorem get?_deletePages (d d' : UUID) (pages : PageStore) (n : ℕ) :
    (MongoContentStore.deletePages d' pages).get? (d.str, n) =
      if d' = d then none else pages.get? (d.str, n) := by
  rw [Dict.get?, MongoContentStore.deletePages, Table.lookup_filter, Dict.get?]
  cases hlookup : pages.lookup (d.str, n) with
  | none => simp
  | some entry =>
    have hkey : entry.1 = (d.str, n) := pages.key_of_lookup hlookup
    rw [Option.filter_some, hkey]
    by_cases hd : d' = d
    · simp [hd]
    · have hne : d.str ≠ d'.str := fun heq => hd (UUID.str_injective heq).symm
      simp [hd, hne]

theorem pages_step (hstep : Step s e s')
    (h : ∀ n, s.pages.get? (d.str, n) =
      ((pagesSince d tr).findRev? fun entry => entry.1.page = n).map fun entry => pageDoc entry.1 entry.2)
    (n : ℕ) : s'.pages.get? (d.str, n) =
      ((pagesSince d (tr ++ [e])).findRev? fun entry => entry.1.page = n).map
        fun entry => pageDoc entry.1 entry.2 := by
  cases hstep with
  | upsertPage d' page now =>
    rw [upsert, Dict.get?_set]
    by_cases hd : d' = d
    · have hsince : pagesSince d (tr ++ [.upsertPage d' page now]) = pagesSince d tr ++ [(page, now)] :=
        since_snoc_of_some tr rfl (if_pos hd)
      rw [hsince, findRev?_append, h, hd]
      by_cases hn : page.page = n
      · simp [hn, List.findRev?]
      · simp [hn, Ne.symm hn, List.findRev?]
    · have hsince : pagesSince d (tr ++ [.upsertPage d' page now]) = pagesSince d tr :=
        since_snoc_of_none tr rfl (if_neg hd)
      rw [hsince, if_neg, h]
      exact fun heq => hd (UUID.str_injective (Prod.mk.inj heq).1).symm
  | @deletePages c d' hidle =>
    rw [get?_deletePages]
    by_cases hd : d' = d
    · have hsince : pagesSince d (tr ++ [.deletePages c d']) = [] :=
        since_snoc_of_reset tr (decide_eq_true hd)
      rw [hsince, if_pos hd]
      rfl
    · have hsince : pagesSince d (tr ++ [.deletePages c d']) = pagesSince d tr :=
        since_snoc_of_none tr (decide_eq_false hd) rfl
      rw [hsince, if_neg hd, h]
  | _ =>
    refine (h n).trans ?_
    rw [pagesSince, pagesSince, since_snoc]
    simp [ContentEvent.clearsPages, ContentEvent.page]

theorem extractions_step (hstep : Step s e s')
    (h : (s.extractions.rows.filter fun doc => doc.documentId = d.str) =
      (recordsSince d tr).map fun entry => toDoc entry.1 entry.2) :
    (s'.extractions.rows.filter fun doc => doc.documentId = d.str) =
      (recordsSince d (tr ++ [e])).map fun entry => toDoc entry.1 entry.2 := by
  cases hstep with
  | @insert c record id hchecked hnew =>
    by_cases hkey : s.extractions.lookup (storeKey record) = none
    · obtain ⟨hrows, hanswer⟩ := insertExtraction_of_none id hkey
      rw [hanswer, hrows, List.filter_append, h]
      by_cases hd : record.documentId = d
      · have hsince : recordsSince d (tr ++ [.insert c record id (.ok id.str)]) =
            recordsSince d tr ++ [(id, record)] := since_snoc_of_some tr rfl (if_pos hd)
        rw [hsince, List.map_append, List.filter_cons_of_pos (by simp [toDoc, hd])]
        rfl
      · have hsince : recordsSince d (tr ++ [.insert c record id (.ok id.str)]) = recordsSince d tr :=
          since_snoc_of_none tr rfl (if_neg hd)
        have hne : (toDoc id record).documentId ≠ d.str := fun heq => hd (UUID.str_injective heq)
        rw [hsince, List.filter_cons_of_neg (by simpa using hne), List.filter_nil, List.append_nil]
    · rw [insertExtraction_of_ne_none id hkey]
      refine h.trans ?_
      rw [recordsSince, recordsSince, since_snoc]
      simp [ContentEvent.clearsExtractions, ContentEvent.record]
  | @deleteExtractions c d' hpages =>
    change ((s.extractions.rows.filter fun doc => doc.documentId ≠ d'.str).filter _) = _
    rw [List.filter_filter]
    by_cases hd : d' = d
    · have hsince : recordsSince d (tr ++ [.deleteExtractions c d']) = [] :=
        since_snoc_of_reset tr (decide_eq_true hd)
      rw [hsince, hd]
      simp
    · have hsince : recordsSince d (tr ++ [.deleteExtractions c d']) = recordsSince d tr :=
        since_snoc_of_none tr (decide_eq_false hd) rfl
      have hne : d.str ≠ d'.str := fun heq => hd (UUID.str_injective heq).symm
      rw [hsince, ← h]
      refine List.filter_congr fun doc _ => ?_
      by_cases hdoc : doc.documentId = d.str
      · simp [hdoc, hne]
      · simp [hdoc]
  | _ =>
    refine h.trans ?_
    rw [recordsSince, recordsSince, since_snoc]
    simp [ContentEvent.clearsExtractions, ContentEvent.record]

theorem rawResponses_step (hstep : Step s e s')
    (h : (s.rawResponses.filter fun response => response.documentId = d.str).Sublist (responsesSince d tr)) :
    (s'.rawResponses.filter fun response => response.documentId = d.str).Sublist
      (responsesSince d (tr ++ [e])) := by
  cases hstep with
  | putRawResponse call =>
    rw [List.filter_append]
    by_cases hd : call.documentId = d
    · have hsince : responsesSince d (tr ++ [.putRawResponse call]) =
          responsesSince d tr ++ [rawResponse call] := since_snoc_of_some tr rfl (if_pos hd)
      rw [hsince]
      exact h.append List.filter_sublist
    · have hsince : responsesSince d (tr ++ [.putRawResponse call]) = responsesSince d tr :=
        since_snoc_of_none tr rfl (if_neg hd)
      have hne : (rawResponse call).documentId ≠ d.str := fun heq => hd (UUID.str_injective heq)
      rw [hsince, List.filter_cons_of_neg (by simpa using hne), List.filter_nil, List.append_nil]
      exact h
  | @deleteRawResponses c d' hextractions =>
    by_cases hd : d' = d
    · have hnil : ((MongoContentStore.deleteRawResponses d' s.rawResponses).filter
          fun response => response.documentId = d.str) = [] := by
        rw [MongoContentStore.deleteRawResponses, List.filter_filter, hd]
        simp
      rw [hnil]
      exact List.nil_sublist _
    · have hsince : responsesSince d (tr ++ [.deleteRawResponses c d']) = responsesSince d tr :=
        since_snoc_of_none tr (decide_eq_false hd) rfl
      rw [hsince]
      exact (List.filter_sublist.filter _).trans h
  | expire now =>
    have hsince : responsesSince d (tr ++ [ContentEvent.expire (C := C) now]) = responsesSince d tr :=
      since_snoc_of_none tr rfl rfl
    rw [hsince]
    exact (List.filter_sublist.filter _).trans h
  | _ =>
    rw [responsesSince, since_snoc]
    simpa [ContentEvent.clearsRawResponses, ContentEvent.response, responsesSince] using h

theorem inv_run (h : Run Step (init : ContentStore C) tr s) : Inv d tr s := by
  refine h.rec_inv (Inv d) ⟨fun _ => rfl, rfl, List.Sublist.refl _⟩ ?_
  intro tr s e s' _ hinv hstep
  exact ⟨pages_step hstep hinv.pages, extractions_step hstep hinv.extractions,
    rawResponses_step hstep hinv.rawResponses⟩

/-- A page is stored, its document is deleted, and another page lands after the first operation of the
deletion. -/
theorem exists_run_overtaken (d : UUID) (old new : PageText) :
    ∃ s, Run Step (init : ContentStore Unit) ([.upsertPage d old 0, .deletePages () d,
      .upsertPage d new 1, .deleteExtractions () d] ++ [.deleteRawResponses () d]) s := by
  let s₀ : ContentStore Unit := init
  let s₁ : ContentStore Unit := { s₀ with pages := upsert d old 0 s₀.pages }
  let s₂ : ContentStore Unit :=
    { s₁ with
      pages := MongoContentStore.deletePages d s₁.pages
      phase := Function.update s₁.phase () (.deletedPages d) }
  let s₃ : ContentStore Unit := { s₂ with pages := upsert d new 1 s₂.pages }
  let s₄ : ContentStore Unit :=
    { s₃ with
      extractions := deleteDocument d s₃.extractions
      phase := Function.update s₃.phase () (.deletedExtractions d) }
  have h₁ : Step s₀ (.upsertPage d old 0) s₁ := .upsertPage d old 0
  have h₂ : Step s₁ (.deletePages () d) s₂ := .deletePages d rfl
  have h₃ : Step s₂ (.upsertPage d new 1) s₃ := .upsertPage d new 1
  have h₄ : Step s₃ (.deleteExtractions () d) s₄ := .deleteExtractions rfl
  exact ⟨_, .cons h₁ <| .cons h₂ <| .cons h₃ <| .cons h₄ <|
    .single (.deleteRawResponses rfl)⟩

/-! ## What the readers see -/

omit [DecidableEq C] in
/-- A page is listed if and only if it is the last one of its number that was upserted. -/
theorem mem_getPages_iff_since (hinv : Inv d tr s) {page : PageText} :
    page ∈ getPages d s.pages ↔
      ∃ now, (pagesSince d tr).findRev? (fun entry => entry.1.page = page.page) = some (page, now) := by
  rw [mem_getPages_iff, hinv.pages]
  constructor
  · rintro ⟨doc, hdoc, hpage⟩
    obtain ⟨⟨page', now⟩, hlast, rfl⟩ := Option.map_eq_some_iff.1 hdoc
    have hnumber : page'.page = page.page := by simpa using (mem_of_findRev? hlast).2
    have hsame : page = page' := by
      rw [hpage, ← hnumber]
      rfl
    exact ⟨now, by rw [hlast, hsame]⟩
  · rintro ⟨now, hlast⟩
    exact ⟨pageDoc page now, by rw [hlast]; rfl, rfl⟩

omit [DecidableEq C] in
theorem filterMap_toDoc (entries : List (ObjectId × ExtractionRecord)) :
    (entries.map fun entry => toDoc entry.1 entry.2).filterMap recordFromDoc =
      entries.map fun entry => stored entry.2 := by
  induction entries with
  | nil => rfl
  | cons entry entries ih =>
    rw [List.map_cons, List.map_cons, List.filterMap_cons_some (recordFromDoc_toDoc _ _), ih]

omit [DecidableEq C] in
/-- The records that are listed, and how they are ordered. -/
theorem listExtractions_since (hinv : Inv d tr s) :
    ∃ records, listExtractions d s.extractions = .ok records ∧
      records.Perm ((recordsSince d tr).map fun entry => stored entry.2) ∧
      records.Pairwise fun r r' => r'.version < r.version := by
  have hperm : (docsOf d s.extractions).Perm
      ((recordsSince d tr).map fun entry => toDoc entry.1 entry.2) := by
    rw [← hinv.extractions]
    exact List.perm_insertionSort _ _
  have hreads : ∀ doc ∈ docsOf d s.extractions, (recordFromDoc doc).isSome := by
    intro doc hdoc
    obtain ⟨⟨id, record⟩, -, rfl⟩ := List.mem_map.1 (hperm.mem_iff.1 hdoc)
    rw [recordFromDoc_toDoc]
    rfl
  refine ⟨_, (readers_eq hreads).1, ?_, ?_⟩
  · rw [← filterMap_toDoc]
    exact hperm.filterMap recordFromDoc
  · rw [List.pairwise_filterMap]
    refine (pairwise_docsOf d s.extractions).imp ?_
    intro doc doc' hlt record hrecord record' hrecord'
    rw [version_recordFromDoc hrecord, version_recordFromDoc hrecord']
    exact hlt

/-- In every run, from empty collections, of calls that write and delete content and of the expiry of
raw responses: `get_pages` lists, by increasing number, of each number the page that was upserted last
since the pages of the document were deleted last; `list_extractions` lists, by decreasing version, the
records inserted since the deletion of the extractions; and what is left of the raw responses has been
written, in this order, since the deletion of these. -/
theorem content_since_delete (d : UUID) (h : Run Step (init : ContentStore C) tr s) :
    ((getPages d s.pages).Pairwise fun p q => p.page < q.page) ∧
      (∀ page, page ∈ getPages d s.pages ↔ ∃ now,
        (pagesSince d tr).findRev? (fun entry => entry.1.page = page.page) = some (page, now)) ∧
      (∃ records, listExtractions d s.extractions = .ok records ∧
        records.Perm ((recordsSince d tr).map fun entry => stored entry.2) ∧
        records.Pairwise fun r r' => r'.version < r.version) ∧
      (s.rawResponses.filter fun response => response.documentId = d.str).Sublist
        (responsesSince d tr) :=
  have hinv := inv_run h
  ⟨pairwise_getPages d s.pages, fun _ => mem_getPages_iff_since hinv,
    listExtractions_since hinv, hinv.rawResponses⟩

/-- Page `1` is deleted and page `2` is not. -/
theorem content_since_delete_overtaken :
    let d : UUID := ⟨7⟩
    let old : PageText := ⟨1, "old", .vlm, none, 3⟩
    let new : PageText := ⟨2, "new", .vlm, none, 3⟩
    ∃ s, Run Step (init : ContentStore Unit) ([.upsertPage d old 0, .deletePages () d,
      .upsertPage d new 1, .deleteExtractions () d] ++ [.deleteRawResponses () d]) s ∧
      new ∈ getPages d s.pages ∧ old ∉ getPages d s.pages := by
  intro d old new
  obtain ⟨s, hrun⟩ := exists_run_overtaken d old new
  obtain ⟨-, hlisted, -⟩ := content_since_delete d hrun
  refine ⟨s, hrun, (hlisted new).2 ⟨1, by decide⟩, fun hold => ?_⟩
  obtain ⟨now, hnow⟩ := (hlisted old).1 hold
  have hnone : (pagesSince d ([.upsertPage d old 0, .deletePages () d, .upsertPage d new 1,
      .deleteExtractions () d] ++ [.deleteRawResponses () d])).findRev?
      (fun entry => entry.1.page = old.page) = none := by decide
  exact absurd (hnone.symm.trans hnow) (by simp)

/-! ## A call of `delete_document` -/

/-- What the phase of `c` says about the events so far. -/
structure PhaseInv (c : C) (tr : List (ContentEvent C)) (s : ContentStore C) : Prop where
  deletedPages : ∀ d, s.phase c = .deletedPages d →
    ∃ tr₀ tr₁, tr = tr₀ ++ .deletePages c d :: tr₁ ∧ ∀ e ∈ tr₁, e.caller ≠ some c
  deletedExtractions : ∀ d, s.phase c = .deletedExtractions d →
    ∃ tr₀ tr₁ tr₂, tr = tr₀ ++ .deletePages c d :: (tr₁ ++ .deleteExtractions c d :: tr₂) ∧
      (∀ e ∈ tr₁, e.caller ≠ some c) ∧ ∀ e ∈ tr₂, e.caller ≠ some c

variable {c : C}

theorem phase_of_caller_ne (hstep : Step s e s') (h : e.caller ≠ some c) : s'.phase c = s.phase c := by
  cases hstep with
  | upsertPage | putRawResponse | expire => rfl
  | check | insert | deletePages | deleteExtractions | deleteRawResponses | fail =>
    have hne : c ≠ _ := fun heq => h (congrArg some heq.symm)
    exact Function.update_of_ne hne _ _

omit [DecidableEq C] in
theorem forall_caller_snoc (htr : ∀ e ∈ tr, e.caller ≠ some c) (h : e.caller ≠ some c) :
    ∀ e' ∈ tr ++ [e], e'.caller ≠ some c := by
  intro e' he'
  obtain he' | he' := List.mem_append.1 he'
  · exact htr e' he'
  · rwa [List.mem_singleton.1 he']

omit [DecidableEq C] in
theorem phaseInv_of_phase (h : s.phase c = .idle ∨ ∃ record, s.phase c = .checked record) :
    PhaseInv c tr s := by
  obtain h | ⟨record, h⟩ := h
  · constructor <;> simp [h]
  · constructor <;> simp [h]

theorem afterCheck_eq (record : ExtractionRecord) (result : Except StoreError Unit) :
    afterCheck record result = .idle ∨ ∃ record', afterCheck record result = .checked record' := by
  cases result with
  | error e => exact .inl rfl
  | ok _ => exact .inr ⟨record, rfl⟩

theorem phaseInv_step (hinv : PhaseInv c tr s) (hstep : Step s e s') : PhaseInv c (tr ++ [e]) s' := by
  by_cases hcaller : e.caller = some c
  · cases hstep with
    | upsertPage | putRawResponse | expire => cases hcaller
    | check record hidle =>
      cases hcaller
      refine phaseInv_of_phase ?_
      simp only [Function.update_self]
      exact afterCheck_eq record _
    | insert | deleteRawResponses | fail =>
      cases hcaller
      refine phaseInv_of_phase (.inl ?_)
      exact Function.update_self _ _ _
    | @deletePages c d' hidle =>
      cases hcaller
      constructor
      · intro d hphase
        simp only [Function.update_self, ContentPhase.deletedPages.injEq] at hphase
        rw [hphase]
        exact ⟨tr, [], rfl, by simp⟩
      · simp
    | @deleteExtractions c d' hpages =>
      cases hcaller
      constructor
      · simp
      · intro d hphase
        simp only [Function.update_self, ContentPhase.deletedExtractions.injEq] at hphase
        obtain ⟨tr₀, tr₁, rfl, htr₁⟩ := hinv.deletedPages d' hpages
        rw [← hphase]
        exact ⟨tr₀, tr₁, [], by simp, htr₁, by simp⟩
  · have hphase := phase_of_caller_ne hstep hcaller
    constructor
    · intro d hd
      obtain ⟨tr₀, tr₁, rfl, htr₁⟩ := hinv.deletedPages d (hphase.symm.trans hd)
      exact ⟨tr₀, tr₁ ++ [e], by simp, forall_caller_snoc htr₁ hcaller⟩
    · intro d hd
      obtain ⟨tr₀, tr₁, tr₂, rfl, htr₁, htr₂⟩ := hinv.deletedExtractions d (hphase.symm.trans hd)
      exact ⟨tr₀, tr₁, tr₂ ++ [e], by simp, htr₁, forall_caller_snoc htr₂ hcaller⟩

theorem phaseInv_run (c : C) (h : Run Step (init : ContentStore C) tr s) : PhaseInv c tr s :=
  h.rec_inv (PhaseInv c) (phaseInv_of_phase (.inl rfl)) fun _ _ _ _ _ hinv hstep =>
    phaseInv_step hinv hstep

omit [DecidableEq C] in
theorem upsertPage_of_page {page : PageText} {now : Timestamp} (h : e.page d = some (page, now)) :
    e = .upsertPage d page now := by
  cases e with
  | upsertPage d' page' now' =>
    obtain ⟨rfl, hvalue⟩ := Option.ite_none_right_eq_some.1 h
    cases hvalue
    rfl
  | _ => cases h

omit [DecidableEq C] in
theorem insert_of_record {id : ObjectId} {record : ExtractionRecord} (h : e.record d = some (id, record)) :
    record.documentId = d ∧ ∃ c' text, e = .insert c' record id (.ok text) := by
  cases e with
  | insert c' record' id' result =>
    cases result with
    | error error => cases h
    | ok text =>
      obtain ⟨hd, hvalue⟩ := Option.ite_none_right_eq_some.1 h
      cases hvalue
      exact ⟨hd, c', text, rfl⟩
  | _ => cases h

/-- In every run in which a call of `delete_document` has just ended: the call began with the deletion
of the pages, and went on to the extractions; every page that is listed now was upserted since its
first deletion, every record that is listed was inserted since its second one, and no raw response is
left. -/
theorem deleted_content_landed (d : UUID)
    (h : Run Step (init : ContentStore C) (tr ++ [.deleteRawResponses c d]) s) :
    ∃ tr₀ tr₁ tr₂, tr = tr₀ ++ .deletePages c d :: (tr₁ ++ .deleteExtractions c d :: tr₂) ∧
      (∀ e ∈ tr₁ ++ tr₂, e.caller ≠ some c) ∧
      (∀ page ∈ getPages d s.pages, ∃ now, .upsertPage d page now ∈ tr₁ ++ tr₂) ∧
      (∃ records, listExtractions d s.extractions = .ok records ∧ ∀ read ∈ records,
        ∃ c' id record text, .insert c' record id (.ok text) ∈ tr₂ ∧ record.documentId = d ∧
          read = stored record) ∧
      ∀ response ∈ s.rawResponses, response.documentId ≠ d.str := by
  have hinv : Inv d (tr ++ [.deleteRawResponses c d]) s := inv_run h
  obtain ⟨m, hm, hlast⟩ := Run.snoc_iff.1 h
  have hextractions : m.phase c = .deletedExtractions d := by
    cases hlast with
    | deleteRawResponses hextractions => exact hextractions
  obtain ⟨tr₀, tr₁, tr₂, rfl, htr₁, htr₂⟩ := (phaseInv_run c hm).deletedExtractions d hextractions
  refine ⟨tr₀, tr₁, tr₂, rfl, ?_, ?_, ?_, ?_⟩
  · intro e he
    exact (List.mem_append.1 he).elim (htr₁ e) (htr₂ e)
  · intro page hpage
    obtain ⟨now, hfound⟩ := (mem_getPages_iff_since hinv).1 hpage
    have hmem := (mem_of_findRev? hfound).1
    rw [pagesSince, List.append_assoc, List.cons_append,
      since_append_cons _ _ (by simp [ContentEvent.clearsPages])] at hmem
    obtain ⟨e, he, hvalue⟩ := exists_of_mem_since hmem
    obtain rfl := upsertPage_of_page hvalue
    exact ⟨now, by simpa using he⟩
  · obtain ⟨records, hlist, hperm, -⟩ := listExtractions_since hinv
    refine ⟨records, hlist, fun read hread => ?_⟩
    obtain ⟨⟨id, record⟩, hmem, rfl⟩ := List.mem_map.1 (hperm.mem_iff.1 hread)
    rw [recordsSince, ← List.cons_append, ← List.append_assoc, List.append_assoc, List.cons_append,
      since_append_cons _ _ (by simp [ContentEvent.clearsExtractions])] at hmem
    obtain ⟨e, he, hvalue⟩ := exists_of_mem_since hmem
    obtain ⟨hd, c', text, rfl⟩ := insert_of_record hvalue
    exact ⟨c', id, record, text, by simpa using he, hd, rfl⟩
  · intro response hresponse hd
    have hnil : responsesSince d (tr₀ ++ .deletePages c d :: (tr₁ ++ .deleteExtractions c d :: tr₂) ++
        [.deleteRawResponses c d]) = [] :=
      since_snoc_of_reset _ (by simp [ContentEvent.clearsRawResponses])
    have hrest := hinv.rawResponses
    rw [hnil] at hrest
    have hempty := List.filter_eq_nil_iff.1 (List.sublist_nil.1 hrest) response hresponse
    exact hempty (decide_eq_true hd)

/-- The page that is left was upserted during the call. -/
theorem deleted_content_landed_overtaken :
    let d : UUID := ⟨7⟩
    let old : PageText := ⟨1, "old", .vlm, none, 3⟩
    let new : PageText := ⟨2, "new", .vlm, none, 3⟩
    let tr : List (ContentEvent Unit) :=
      [.upsertPage d old 0, .deletePages () d, .upsertPage d new 1, .deleteExtractions () d]
    ∃ s, Run Step (init : ContentStore Unit) (tr ++ [.deleteRawResponses () d]) s ∧
      new ∈ getPages d s.pages ∧ ∃ tr₀ tr₁ tr₂,
        tr = tr₀ ++ .deletePages () d :: (tr₁ ++ .deleteExtractions () d :: tr₂) ∧
        ∀ page ∈ getPages d s.pages, ∃ now, .upsertPage d page now ∈ tr₁ ++ tr₂ := by
  intro d old new tr
  obtain ⟨s, hrun⟩ := exists_run_overtaken d old new
  have hleft : new ∈ getPages d s.pages :=
    (mem_getPages_iff_since (inv_run hrun)).2 ⟨1, by decide⟩
  obtain ⟨tr₀, tr₁, tr₂, htr, -, hpages, -⟩ := deleted_content_landed d hrun
  exact ⟨s, hrun, hleft, tr₀, tr₁, tr₂, htr, hpages⟩

end ContentStore

end Ipa
