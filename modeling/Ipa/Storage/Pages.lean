import Ipa.Core.Errors
import Ipa.Lib.Batches
import Ipa.Lib.Run
import Mathlib.Data.Rat.Defs

/-!
# Page texts

`put_pages` upserts the pages in batches; the upserts of a batch run concurrently.  The first one that
fails ends the call, and the others of its batch are abandoned: each of them may still land at any
later moment, or never (`PagesStep`).  The calls on one document follow one another.

* `Written`: the values of a list that the last call has written, kept by every step (`PagesInv`).
* `put_pages_kept`: in a run in which no abandoned upsert lands on a page after the last call has
  written another value there, what a call returned from has written stays until the next call.
* `put_pages_overtaken`: an abandoned upsert lands after the retry.
-/

namespace Ipa

open Batch Listing Transition

/-- Where the text of a page comes from. -/
inductive TextSource
  | textLayer | vlm | tesseract
deriving DecidableEq, Repr

/-- The text of a single page, with its provenance.  The bounds of the numbers are checked where a
value is built. -/
structure PageText where
  page : ℕ
  text : String
  source : TextSource
  confidence : Option ℚ
  charCount : ℕ
deriving DecidableEq

/-- A document of the collection `pages`, without its key. -/
structure PageDoc where
  text : String
  source : TextSource
  confidence : Option ℚ
  charCount : ℕ
  createdAt : Timestamp

/-- The collection with its unique index `uniq_document_page`. -/
abbrev PageStore := Dict (String × ℕ) PageDoc

namespace MongoContentStore

/-- `UPSERT_BATCH_SIZE`. -/
def upsertBatchSize : ℕ := 50

/-- `_content_error`. -/
def contentError (operation exc : String) : IpaError :=
  .new ("MongoDB " ++ operation ++ " failed: " ++ exc) "content_store_error"

/-- The stored document of a page. -/
def pageDoc (page : PageText) (now : Timestamp) : PageDoc where
  text := page.text
  source := page.source
  confidence := page.confidence
  charCount := page.charCount
  createdAt := now

/-- Rebuild a page from its stored document. -/
def pageFromDoc (page : ℕ) (doc : PageDoc) : PageText where
  page := page
  text := doc.text
  source := doc.source
  confidence := doc.confidence
  charCount := doc.charCount

/-- `_upsert`: replace one page document, inserting it when absent. -/
def upsert (documentId : UUID) (page : PageText) (now : Timestamp) (pages : PageStore) : PageStore :=
  pages.set (documentId.str, page.page) (pageDoc page now)

/-- `get_pages`. -/
def getPages (documentId : UUID) (pages : PageStore) : List PageText :=
  (sortBy (fun e => e.1.2) (pages.rows.filter fun e => e.1.1 = documentId.str)).map
    fun e => pageFromDoc e.1.2 e.2

/-- The last batch that names a page has one content for it. -/
def OneContent (list : List PageText) : Prop :=
  Settled PageText.page id (batches upsertBatchSize list)

theorem upsertBatchSize_pos : 0 < upsertBatchSize := by decide

/-- A list without repeated pages has one content for each. -/
theorem oneContent_of_nodup {list : List PageText} (h : (list.map PageText.page).Nodup) :
    OneContent list := by
  have hmem : ∀ batch ∈ batches upsertBatchSize list, ∀ p ∈ batch, p ∈ list := by
    intro batch hbatch p hp
    rw [← flatten_batches upsertBatchSize_pos list]
    exact List.mem_flatten.2 ⟨batch, hbatch, hp⟩
  rintro earlier batch later hbatches p hp q hq hpage -
  have hbatch : batch ∈ batches upsertBatchSize list := by
    rw [hbatches]
    exact List.mem_append_right _ List.mem_cons_self
  exact List.inj_on_of_nodup_map h (hmem batch hbatch p hp) (hmem batch hbatch q hq) hpage

/-- The first operation of `delete_document`. -/
def deletePages (documentId : UUID) (pages : PageStore) : PageStore :=
  pages.filter fun e => e.1.1 ≠ documentId.str

end MongoContentStore

open MongoContentStore

/-- Where the calls on the document stand: no call has returned since the last one started or failed,
one is running, or the last one has returned. -/
inductive PagesPhase
  | idle
  | running (list : List PageText) (now : Timestamp) (inFlight waiting : List PageText)
  | returned (list : List PageText)

/-- The collection, the calls, and the upserts that failed calls have left behind. -/
structure PutPages where
  pages : PageStore
  phase : PagesPhase
  abandoned : List (PageText × Timestamp)

/-- The start of a call, an upsert that lands or fails, the start of the next batch, the return; an
abandoned upsert that lands or never will; a deletion of the document. -/
inductive PagesEvent
  | start (list : List PageText)
  | land (page : PageText)
  | fail (page : PageText) (error : IpaError)
  | batch
  | finish
  | late (page : PageText)
  | drop (page : PageText)
  | delete

/-- A call is running. -/
def PagesPhase.Running : PagesPhase → Prop
  | running _ _ _ _ => True
  | _ => False

namespace PutPages

/-- One event of the calls on the document `d`. -/
inductive PagesStep (d : UUID) : PutPages → PagesEvent → PutPages → Prop
  | start {s : PutPages} (list : List PageText) (now : Timestamp) (hfree : ¬ s.phase.Running) :
      PagesStep d s (.start list) ⟨s.pages, .running list now (list.take upsertBatchSize)
        (list.drop upsertBatchSize), s.abandoned⟩
  | land {s : PutPages} {list inFlight waiting : List PageText} {now : Timestamp} {page : PageText}
      (hrunning : s.phase = .running list now inFlight waiting) (hpage : page ∈ inFlight) :
      PagesStep d s (.land page) ⟨upsert d page now s.pages,
        .running list now (inFlight.erase page) waiting, s.abandoned⟩
  /-- The upsert that fails may have been executed, or be executed later, as the others of its batch. -/
  | fail {s : PutPages} {list inFlight waiting : List PageText} {now : Timestamp} {page : PageText}
      (exc : String) (hrunning : s.phase = .running list now inFlight waiting)
      (hpage : page ∈ inFlight) :
      PagesStep d s (.fail page (contentError "put_pages" exc))
        ⟨s.pages, .idle, s.abandoned ++ inFlight.map (·, now)⟩
  | batch {s : PutPages} {list waiting : List PageText} {now : Timestamp}
      (hrunning : s.phase = .running list now [] waiting) (hwaiting : waiting ≠ []) :
      PagesStep d s .batch ⟨s.pages, .running list now (waiting.take upsertBatchSize)
        (waiting.drop upsertBatchSize), s.abandoned⟩
  | finish {s : PutPages} {list : List PageText} {now : Timestamp}
      (hrunning : s.phase = .running list now [] []) :
      PagesStep d s .finish ⟨s.pages, .returned list, s.abandoned⟩
  | late {s : PutPages} {page : PageText} {now : Timestamp} (hpage : (page, now) ∈ s.abandoned) :
      PagesStep d s (.late page) ⟨upsert d page now s.pages, s.phase, s.abandoned.erase (page, now)⟩
  | drop {s : PutPages} {page : PageText} {now : Timestamp} (hpage : (page, now) ∈ s.abandoned) :
      PagesStep d s (.drop page) ⟨s.pages, s.phase, s.abandoned.erase (page, now)⟩
  | delete {s : PutPages} (hfree : ¬ s.phase.Running) :
      PagesStep d s .delete ⟨deletePages d s.pages, .idle, s.abandoned⟩
  | deleteFails {s : PutPages} (hfree : ¬ s.phase.Running) :
      PagesStep d s .delete ⟨s.pages, .idle, s.abandoned⟩

/-! ## Reading -/

variable {d : UUID} {s s' : PutPages} {e : PagesEvent} {tr : List PagesEvent} {list : List PageText}
  {page : PageText} {now : Timestamp}

/-- The page is stored for the document. -/
def Stored (d : UUID) (pages : PageStore) (page : PageText) : Prop :=
  ∃ now, pages.get? (d.str, page.page) = some (pageDoc page now)

/-- A stored page is listed, and no other page with its number. -/
theorem mem_getPages {pages : PageStore} (h : Stored d pages page) :
    page ∈ getPages d pages ∧ ∀ p ∈ getPages d pages, p.page = page.page → p = page := by
  obtain ⟨now, hdoc⟩ := h
  constructor
  · have hrow := Dict.get?_eq_some_iff.1 hdoc
    refine List.mem_map.2 ⟨_, (mem_sortBy _).2 (List.mem_filter.2 ⟨hrow, by simp⟩), rfl⟩
  · intro p hp hpage
    obtain ⟨⟨⟨d', n⟩, doc⟩, hrow, rfl⟩ := List.mem_map.1 hp
    obtain ⟨hrow, hd⟩ := List.mem_filter.1 ((mem_sortBy _).1 hrow)
    obtain rfl : d' = d.str := by simpa using hd
    obtain rfl : n = page.page := hpage
    have hdoc' : pages.get? (d.str, page.page) = some doc := Dict.get?_eq_some_iff.2 hrow
    obtain rfl := Option.some.inj (hdoc'.symm.trans hdoc)
    rfl

/-- An upsert stores its page and leaves the others. -/
theorem stored_upsert {pages : PageStore} {p : PageText}
    (h : p = page ∨ (p.page ≠ page.page ∧ Stored d pages p)) :
    Stored d (upsert d page now pages) p := by
  unfold Stored upsert
  rcases h with rfl | ⟨hne, now', hdoc⟩
  · exact ⟨now, by rw [Dict.get?_set, if_pos rfl]⟩
  · refine ⟨now', ?_⟩
    rw [Dict.get?_set, if_neg (by simpa using hne)]
    exact hdoc

/-! ## The invariant -/

/-- The value of a list for a page: its last entry for it. -/
def lastEntry (list : List PageText) (n : ℕ) : Option PageText := list.findRev? fun p => p.page = n

/-- The last call has written the value of its list for a page, and has not been followed by another
call or a deletion. -/
def Written : PagesPhase → PageText → Prop
  | .idle, _ => False
  | .running list _ inFlight waiting, page =>
    lastEntry list page.page = some page ∧ page ∉ inFlight ∧ ∀ p ∈ waiting, p.page ≠ page.page
  | .returned list, page => lastEntry list page.page = some page

/-- A call starts with a list whose last batch for a page has one content for it; an abandoned upsert
does not land on a page for which the last call has written another value. -/
def InTime (s : PutPages) : PagesEvent → Prop
  | .start list => OneContent list
  | .late page => ∀ p, Written s.phase p → p.page = page.page → p = page
  | _ => True

/-- A step that meets the condition. -/
def StepInTime (d : UUID) (s : PutPages) (e : PagesEvent) (s' : PutPages) : Prop :=
  PagesStep d s e s' ∧ s.InTime e

/-- The list of a running call ends with the batch in flight and those that wait. -/
def Batched (list inFlight waiting : List PageText) : Prop :=
  ∃ earlier batch, list = earlier ++ batch ++ waiting ∧ (∀ p ∈ inFlight, p ∈ batch) ∧
    (∀ p ∈ batch, ∀ q ∈ batch, p.page = q.page → (∀ w ∈ waiting, w.page ≠ p.page) → p = q) ∧
    OneContent waiting

/-- What the last call has written is stored; the batches of a running call are parts of its list. -/
structure PagesInv (d : UUID) (s : PutPages) : Prop where
  stored : ∀ page, Written s.phase page → Stored d s.pages page
  running : ∀ list now inFlight waiting, s.phase = .running list now inFlight waiting →
    Batched list inFlight waiting

/-- The first batch of a list, in which the last batch for a page has one content for it. -/
theorem batched_take_drop (earlier : List PageText) {waiting : List PageText}
    (h : OneContent waiting) : Batched (earlier ++ waiting) (waiting.take upsertBatchSize)
      (waiting.drop upsertBatchSize) := by
  refine ⟨earlier, waiting.take upsertBatchSize, ?_, fun p hp => hp, ?_, ?_⟩
  · rw [List.append_assoc, List.take_append_drop]
  · intro p hp q hq hpage hlate
    have hne : waiting ≠ [] := by
      rintro rfl
      cases hp
    rw [OneContent, batches_of_ne_nil upsertBatchSize_pos hne] at h
    refine h [] _ _ rfl p hp q hq hpage fun w hw => hlate w ?_
    rwa [flatten_batches upsertBatchSize_pos] at hw
  · by_cases hne : waiting = []
    · rwa [hne, List.drop_nil, ← hne]
    · rw [OneContent, batches_of_ne_nil upsertBatchSize_pos hne] at h
      exact h.tail

/-- If no batch that waits names the page, its value is an entry of an earlier batch or of that in
flight. -/
theorem Batched.mem_batch {inFlight waiting : List PageText} (h : Batched list inFlight waiting)
    {p : PageText} (hlast : lastEntry list p.page = some p) (hpage : page ∈ inFlight)
    (hsame : p.page = page.page) (hlate : ∀ w ∈ waiting, w.page ≠ p.page) : p = page := by
  obtain ⟨earlier, batch, rfl, hflight, hone, -⟩ := h
  have hnone : waiting.findRev? (fun w => w.page = p.page) = none :=
    findRev?_eq_none.2 fun w hw => by simpa using hlate w hw
  rw [lastEntry, findRev?_append, findRev?_append, hnone, Option.none_or] at hlast
  cases hbatch : batch.findRev? fun w => w.page = p.page with
  | none =>
    have hne := findRev?_eq_none.1 hbatch page (hflight page hpage)
    exact absurd (decide_eq_true hsame.symm) hne
  | some q =>
    rw [hbatch, Option.some_or, Option.some.injEq] at hlast
    subst hlast
    exact hone q (mem_of_findRev? hbatch).1 page (hflight page hpage) hsame hlate

/-- The last entry of a list for a page is in the part that names the page last. -/
theorem mem_of_lastEntry_append {earlier waiting : List PageText}
    (hlast : lastEntry (earlier ++ waiting) page.page = some page)
    (hnamed : ∃ w ∈ waiting, w.page = page.page) : page ∈ waiting := by
  obtain ⟨w, hw, hpage⟩ := hnamed
  rw [lastEntry, findRev?_append] at hlast
  cases hwaiting : waiting.findRev? fun p => p.page = page.page with
  | none => exact absurd (decide_eq_true hpage) (findRev?_eq_none.1 hwaiting w hw)
  | some q =>
    rw [hwaiting, Option.some_or, Option.some.injEq] at hlast
    exact hlast ▸ (mem_of_findRev? hwaiting).1

theorem mem_of_lastEntry (h : lastEntry list page.page = some page) : page ∈ list :=
  (mem_of_findRev? h).1

/-- An entry whose page is not named after the first batch is in that batch. -/
theorem mem_take {waiting : List PageText} (hmem : page ∈ waiting)
    (hlate : ∀ p ∈ waiting.drop upsertBatchSize, p.page ≠ page.page) :
    page ∈ waiting.take upsertBatchSize := by
  rw [← List.take_append_drop upsertBatchSize waiting, List.mem_append] at hmem
  exact hmem.resolve_right fun hdrop => hlate page hdrop rfl

theorem pagesInv_step (h : PagesInv d s) (hstep : StepInTime d s e s') : PagesInv d s' := by
  obtain ⟨hstep, htime⟩ := hstep
  cases hstep with
  | start list now hfree =>
    constructor
    · rintro page ⟨hlast, hflight, hlate⟩
      exact absurd (mem_take (mem_of_lastEntry hlast) hlate) hflight
    · rintro list' now' inFlight waiting hphase
      cases hphase
      exact batched_take_drop [] htime
  | @land list inFlight waiting now page hrunning hpage =>
    have hbatched := h.running _ _ _ _ hrunning
    constructor
    · rintro p ⟨hlast, hflight, hlate⟩
      refine stored_upsert ?_
      by_cases hp : p.page = page.page
      · exact .inl (hbatched.mem_batch hlast hpage hp hlate)
      · refine .inr ⟨hp, h.stored p ?_⟩
        rw [hrunning]
        refine ⟨hlast, fun hmem => hflight ?_, hlate⟩
        have hne : p ≠ page := by
          rintro rfl
          exact hp rfl
        exact (List.mem_erase_of_ne hne).2 hmem
    · rintro list' now' inFlight' waiting' hphase
      cases hphase
      obtain ⟨earlier, batch, hlist, hparts, hrest⟩ := hbatched
      exact ⟨earlier, batch, hlist, fun p hp => hparts p (List.mem_of_mem_erase hp), hrest⟩
  | @fail list inFlight waiting now page exc hrunning hpage =>
    exact ⟨fun p hp => absurd hp id, fun _ _ _ _ hphase => nomatch hphase⟩
  | @batch list waiting now hrunning hwaiting =>
    obtain ⟨earlier, batch, rfl, -, -, hone⟩ := h.running _ _ _ _ hrunning
    constructor
    · rintro p ⟨hlast, hflight, hlate⟩
      apply h.stored
      rw [hrunning]
      refine ⟨hlast, List.not_mem_nil, fun w hw hpage => ?_⟩
      exact hflight (mem_take (mem_of_lastEntry_append hlast ⟨w, hw, hpage⟩) hlate)
    · rintro list' now' inFlight' waiting' hphase
      cases hphase
      exact batched_take_drop _ hone
  | @finish list now hrunning =>
    constructor
    · intro p hp
      apply h.stored
      rw [hrunning]
      exact ⟨hp, List.not_mem_nil, fun _ hw => absurd hw List.not_mem_nil⟩
    · exact fun _ _ _ _ hphase => nomatch hphase
  | @late page now hpage =>
    refine ⟨fun p hp => stored_upsert ?_, h.running⟩
    by_cases hp' : p.page = page.page
    · exact .inl (htime p hp hp')
    · exact .inr ⟨hp', h.stored p hp⟩
  | drop hpage => exact ⟨h.stored, h.running⟩
  | delete hfree | deleteFails hfree =>
    exact ⟨fun p hp => absurd hp id, fun _ _ _ _ hphase => nomatch hphase⟩

/-- In every run in which no abandoned upsert lands on a page after the last call has written another
value there, and the last batch of a call that names a page has one content for it: from the return of
a call until the next call or deletion starts, `get_pages` lists for each page of the list its last
entry, and nothing else for these pages. -/
theorem put_pages_kept {pages : PageStore} (h : Run (StepInTime d) ⟨pages, .idle, []⟩ tr s)
    (hreturned : s.phase = .returned list) (hpage : page ∈ list) :
    ∃ last, lastEntry list page.page = some last ∧ last ∈ getPages d s.pages ∧
      ∀ p ∈ getPages d s.pages, p.page = page.page → p = last := by
  have hinv : PagesInv d s := by
    refine h.state_inv (PagesInv d) ⟨fun p hp => absurd hp id, ?_⟩ ?_
    · intro list now inFlight waiting hphase
      cases hphase
    · exact fun s e s' hinv hstep => pagesInv_step hinv hstep
  cases hlast : lastEntry list page.page with
  | none => exact absurd (decide_eq_true rfl) (findRev?_eq_none.1 hlast page hpage)
  | some last =>
    have hsame : last.page = page.page := of_decide_eq_true (mem_of_findRev? hlast).2
    have hwritten : Written s.phase last := by
      rw [hreturned, Written, hsame]
      exact hlast
    obtain ⟨hmem, honly⟩ := mem_getPages (hinv.stored last hwritten)
    exact ⟨last, rfl, hmem, fun p hp hpage => honly p hp (hpage.trans hsame.symm)⟩

end PutPages

open PutPages in
/-- The upsert of the second page fails while that of the first one is in flight.  The abandoned upsert
of the first page lands while the retry is writing it anew, that of the second one, which the retry does
not list, after the return. -/
theorem put_pages_kept_late :
    let d : UUID := ⟨7⟩
    let old : PageText := ⟨1, "old", .vlm, none, 3⟩
    let other : PageText := ⟨2, "other", .vlm, none, 5⟩
    let new : PageText := ⟨1, "new", .vlm, none, 3⟩
    let pages : PageStore := Table.empty _
    let tr : List PagesEvent := [.start [old, other],
      .fail other (contentError "put_pages" "timed out"), .start [new], .late old, .land new, .finish,
      .late other]
    ∃ s, Run (StepInTime d) ⟨pages, .idle, []⟩ tr s ∧ s.phase = .returned [new] ∧
      ∃ last, lastEntry [new] 1 = some last ∧ last ∈ getPages d s.pages ∧
        ∀ p ∈ getPages d s.pages, p.page = 1 → p = last := by
  intro d old other new pages tr
  have hstart : PagesStep d ⟨pages, .idle, []⟩ (.start [old, other])
      ⟨pages, .running [old, other] 0 [old, other] [], []⟩ := .start [old, other] 0 id
  have hfail : PagesStep d ⟨pages, .running [old, other] 0 [old, other] [], []⟩
      (.fail other (contentError "put_pages" "timed out"))
      ⟨pages, .idle, [(old, 0), (other, 0)]⟩ := .fail "timed out" rfl
    (List.mem_cons_of_mem _ (List.mem_singleton_self _))
  have hretry : PagesStep d ⟨pages, .idle, [(old, 0), (other, 0)]⟩ (.start [new])
      ⟨pages, .running [new] 1 [new] [], [(old, 0), (other, 0)]⟩ := .start [new] 1 id
  have hlate : PagesStep d ⟨pages, .running [new] 1 [new] [], [(old, 0), (other, 0)]⟩ (.late old)
      ⟨upsert d old 0 pages, .running [new] 1 [new] [], [(old, 0), (other, 0)].erase (old, 0)⟩ :=
    .late List.mem_cons_self
  rw [List.erase_cons_head] at hlate
  have hland : PagesStep d ⟨upsert d old 0 pages, .running [new] 1 [new] [], [(other, 0)]⟩ (.land new)
      ⟨upsert d new 1 (upsert d old 0 pages), .running [new] 1 ([new].erase new) [], [(other, 0)]⟩ :=
    .land rfl (List.mem_singleton_self _)
  rw [List.erase_cons_head] at hland
  obtain ⟨written, hwritten⟩ : ∃ written, upsert d new 1 (upsert d old 0 pages) = written := ⟨_, rfl⟩
  rw [hwritten] at hland
  have hfinish : PagesStep d ⟨written, .running [new] 1 [] [], [(other, 0)]⟩ .finish
      ⟨written, .returned [new], [(other, 0)]⟩ := .finish rfl
  have hlate' : PagesStep d ⟨written, .returned [new], [(other, 0)]⟩ (.late other)
      ⟨upsert d other 0 written, .returned [new], [(other, 0)].erase (other, 0)⟩ :=
    .late List.mem_cons_self
  have hone : OneContent [old, other] ∧ OneContent [new] :=
    ⟨oneContent_of_nodup (by decide), oneContent_of_nodup (by decide)⟩
  have hunwritten : ∀ p, ¬ Written (.running [new] 1 [new] []) p :=
    fun p hp => hp.2.1 (mem_of_lastEntry hp.1)
  have hunlisted : ∀ p, Written (.returned [new]) p → p.page ≠ other.page := by
    intro p hp
    rw [List.mem_singleton.1 (mem_of_lastEntry hp)]
    decide
  have hrun : Run (StepInTime d) ⟨pages, .idle, []⟩ tr _ :=
    .cons ⟨hstart, hone.1⟩ <| .cons ⟨hfail, trivial⟩ <| .cons ⟨hretry, hone.2⟩ <|
      .cons ⟨hlate, fun p hp => absurd hp (hunwritten p)⟩ <| .cons ⟨hland, trivial⟩ <|
      .cons ⟨hfinish, trivial⟩ <| .single ⟨hlate', fun p hp hpage => absurd hpage (hunlisted p hp)⟩
  exact ⟨_, hrun, rfl, put_pages_kept hrun rfl (List.mem_singleton_self _)⟩

open PutPages in
/-- The upsert of the second page fails while that of the first one is in flight.  The retry writes
the first page anew and returns, and then the abandoned upsert lands. -/
theorem put_pages_overtaken :
    ¬ ∀ (d : UUID) (pages : PageStore) (tr : List PagesEvent) (s : PutPages) (list : List PageText)
      (page : PageText), Run (PagesStep d) ⟨pages, .idle, []⟩ tr s → s.phase = .returned list →
      page ∈ list → page ∈ getPages d s.pages := by
  intro hclaim
  let d : UUID := ⟨7⟩
  let old : PageText := ⟨1, "old", .vlm, none, 3⟩
  let other : PageText := ⟨2, "other", .vlm, none, 5⟩
  let new : PageText := ⟨1, "new", .vlm, none, 3⟩
  let pages : PageStore := Table.empty _
  obtain ⟨final, hfinal⟩ : ∃ final, upsert d old 0 (upsert d new 1 pages) = final := ⟨_, rfl⟩
  have h₁ : PagesStep d ⟨pages, .idle, []⟩ (.start [old, other])
      ⟨pages, .running [old, other] 0 [old, other] [], []⟩ := .start [old, other] 0 id
  have h₂ : PagesStep d ⟨pages, .running [old, other] 0 [old, other] [], []⟩
      (.fail other (contentError "put_pages" "timed out"))
      ⟨pages, .idle, [(old, 0), (other, 0)]⟩ := .fail "timed out" rfl
    (List.mem_cons_of_mem _ (List.mem_singleton_self _))
  have h₃ : PagesStep d ⟨pages, .idle, [(old, 0), (other, 0)]⟩ (.start [new])
      ⟨pages, .running [new] 1 [new] [], [(old, 0), (other, 0)]⟩ := .start [new] 1 id
  have h₄ : PagesStep d ⟨pages, .running [new] 1 [new] [], [(old, 0), (other, 0)]⟩ (.land new)
      ⟨upsert d new 1 pages, .running [new] 1 ([new].erase new) [], [(old, 0), (other, 0)]⟩ :=
    .land rfl (List.mem_singleton_self _)
  rw [List.erase_cons_head] at h₄
  have h₅ : PagesStep d ⟨upsert d new 1 pages, .running [new] 1 [] [], [(old, 0), (other, 0)]⟩ .finish
      ⟨upsert d new 1 pages, .returned [new], [(old, 0), (other, 0)]⟩ := .finish rfl
  have h₆ : PagesStep d ⟨upsert d new 1 pages, .returned [new], [(old, 0), (other, 0)]⟩ (.late old)
      ⟨upsert d old 0 (upsert d new 1 pages), .returned [new], [(old, 0), (other, 0)].erase (old, 0)⟩ :=
    .late List.mem_cons_self
  rw [List.erase_cons_head, hfinal] at h₆
  have hrun : Run (PagesStep d) ⟨pages, .idle, []⟩ [.start [old, other],
      .fail other (contentError "put_pages" "timed out"), .start [new], .land new, .finish, .late old]
      ⟨final, .returned [new], [(other, 0)]⟩ :=
    .cons h₁ <| .cons h₂ <| .cons h₃ <| .cons h₄ <| .cons h₅ <| .single h₆
  have hlisted : new ∈ getPages d final :=
    hclaim d pages _ _ [new] new hrun rfl (List.mem_singleton_self _)
  have hstored : Stored d final old := by
    rw [← hfinal]
    exact stored_upsert (.inl rfl)
  have hsame : new = old := (mem_getPages hstored).2 new hlisted rfl
  exact absurd (congrArg PageText.text hsame) (by decide)

end Ipa
