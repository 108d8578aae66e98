import Ipa.Lib.Batches
import Ipa.Storage.Pages

/-!
# The fan-out of `put_pages`

A call of `put_pages` that returns has executed the upserts of one batch after another, those of a
batch in any order (`putPagesReturns_iff`).  This is the ordered bulk upsert of its list, unless the
list gives a page two contents in the last batch that names it.

* `put_pages_bulkUpserted_iff`: the exact condition.
* `put_pages_not_bulkUpserted`: the first of two entries for a page takes effect last.
-/

namespace Ipa

open Batch Listing Transition

namespace MongoContentStore

variable {d : UUID} {list inFlight waiting order : List PageText} {page : PageText} {now : Timestamp}
  {pages result : PageStore}

/-- The plain ordered bulk upsert. -/
def bulkUpsert (documentId : UUID) (list : List PageText) (now : Timestamp) (pages : PageStore) :
    PageStore :=
  list.foldl (fun pages page => upsert documentId page now pages) pages

theorem bulkUpsert_eq_assign : bulkUpsert d list now pages =
    Dict.assign (fun page => (d.str, page.page)) (pageDoc · now) pages list := rfl

/-- The content that the ordered bulk upsert leaves, and what `get_pages` makes of it. -/
structure BulkUpserted (d : UUID) (list : List PageText) (now : Timestamp)
    (pages result : PageStore) : Prop where
  content : ∀ key, result.get? key = (bulkUpsert d list now pages).get? key
  increasing : (getPages d result).Pairwise fun p q => p.page < q.page
  listed : ∀ page, page ∈ getPages d result ↔
    match list.findRev? fun p => p.page = page.page with
    | some last => page = last
    | none => page ∈ getPages d pages
  otherDocuments : ∀ key, key.1 ≠ d.str → result.get? key = pages.get? key

/-! ## Listing the pages -/

theorem pairwise_getPages (d : UUID) (pages : PageStore) :
    (getPages d pages).Pairwise fun p q => p.page < q.page := by
  have hdistinct : ((pages.rows.filter fun e => e.1.1 = d.str).map fun e => e.1.2).Nodup := by
    rw [List.Nodup, List.pairwise_map, List.pairwise_filter]
    have hkeys := pages.nodup
    rw [List.Nodup, List.pairwise_map] at hkeys
    refine hkeys.imp fun {e e'} hne he he' hpage => hne ?_
    exact Prod.ext ((of_decide_eq_true he).trans (of_decide_eq_true he').symm) hpage
  rw [getPages, List.pairwise_map]
  exact pairwise_lt_sortBy _ hdistinct

theorem mem_getPages_iff : page ∈ getPages d pages ↔
    ∃ doc, pages.get? (d.str, page.page) = some doc ∧ page = pageFromDoc page.page doc := by
  unfold getPages
  simp only [List.mem_map, mem_sortBy, List.mem_filter, decide_eq_true_eq]
  constructor
  · rintro ⟨⟨⟨d', n⟩, doc⟩, ⟨hrow, rfl⟩, rfl⟩
    exact ⟨doc, Dict.get?_eq_some_iff.2 hrow, rfl⟩
  · rintro ⟨doc, hdoc, hpage⟩
    exact ⟨((d.str, page.page), doc), ⟨Dict.get?_eq_some_iff.1 hdoc, rfl⟩, hpage.symm⟩

theorem get?_bulkUpsert (key : String × ℕ) : (bulkUpsert d list now pages).get? key =
    ((list.findRev? fun p => (d.str, p.page) = key).map (pageDoc · now)).or (pages.get? key) := by
  rw [bulkUpsert_eq_assign, Dict.get?_assign]

theorem get?_bulkUpsert_page (n : ℕ) : (bulkUpsert d list now pages).get? (d.str, n) =
    ((list.findRev? fun p => p.page = n).map (pageDoc · now)).or (pages.get? (d.str, n)) := by
  simp [get?_bulkUpsert]

/-- The content decides all that is read. -/
theorem BulkUpserted.of_content
    (h : ∀ key, result.get? key = (bulkUpsert d list now pages).get? key) :
    BulkUpserted d list now pages result where
  content := h
  increasing := pairwise_getPages d result
  listed page := by
    rw [mem_getPages_iff, h, get?_bulkUpsert_page]
    cases hlast : list.findRev? fun p => p.page = page.page with
    | none => simp [mem_getPages_iff]
    | some last =>
      have hpage : last.page = page.page := by
        simpa using (mem_of_findRev? hlast).2
      simp only [Option.map_some, Option.some_or, Option.some.injEq, exists_eq_left']
      rw [← hpage]
      rfl
  otherDocuments key hkey := by
    have hnone : list.findRev? (fun p => (d.str, p.page) = key) = none := by
      rw [findRev?_eq_none]
      intro p _ hp
      exact hkey (congrArg Prod.fst (of_decide_eq_true hp)).symm
    rw [h, get?_bulkUpsert, hnone]
    rfl

/-! ## Calls that return -/

/-- A call that has started with the list returns, and leaves `result`. -/
def PutPagesReturns (d : UUID) (list : List PageText) (now : Timestamp) (pages result : PageStore) :
    Prop :=
  ∃ tr, (∀ list', PagesEvent.start list' ∉ tr) ∧
    Run (PutPages.PagesStep d) ⟨pages, .running list now (list.take upsertBatchSize)
      (list.drop upsertBatchSize), []⟩ tr ⟨result, .returned list, []⟩

end MongoContentStore

open MongoContentStore

namespace PutPages

variable {d : UUID} {s s' : PutPages} {e : PagesEvent} {tr : List PagesEvent}
  {list inFlight waiting order : List PageText} {now : Timestamp} {pages result : PageStore}

/-- What is in flight and what waits completes what has landed to an order of the batches. -/
def CallInv (d : UUID) (list : List PageText) (now : Timestamp) (pages : PageStore) (s : PutPages) :
    Prop :=
  match s.phase with
  | .idle => True
  | .running _ now' inFlight waiting => now' = now ∧ s.abandoned = [] ∧
      ∃ landed, s.pages = bulkUpsert d landed now pages ∧
        ∀ order order', order.Perm inFlight → Interleaved (batches upsertBatchSize waiting) order' →
          Interleaved (batches upsertBatchSize list) (landed ++ (order ++ order'))
  | .returned _ => s.abandoned = [] ∧ ∃ order, Interleaved (batches upsertBatchSize list) order ∧
      s.pages = bulkUpsert d order now pages

theorem interleaved_take_drop {order' : List PageText} (hperm : order.Perm (list.take upsertBatchSize))
    (h : Interleaved (batches upsertBatchSize (list.drop upsertBatchSize)) order') :
    Interleaved (batches upsertBatchSize list) (order ++ order') := by
  by_cases hne : list = []
  · subst hne
    rw [List.take_nil] at hperm
    rw [hperm.eq_nil, List.nil_append]
    exact h
  · rw [batches_of_ne_nil upsertBatchSize_pos hne]
    exact h.cons hperm

theorem callInv_start : CallInv d list now pages ⟨pages, .running list now
    (list.take upsertBatchSize) (list.drop upsertBatchSize), []⟩ :=
  ⟨rfl, rfl, [], rfl, fun _ _ => interleaved_take_drop⟩

theorem callInv_step (h : CallInv d list now pages s) (hstep : PagesStep d s e s')
    (hstart : ∀ list', e ≠ .start list') : CallInv d list now pages s' := by
  cases hstep with
  | start list' now' hfree => exact absurd rfl (hstart list')
  | @land list' inFlight waiting now' page hrunning hpage =>
    unfold CallInv at h
    rw [hrunning] at h
    obtain ⟨rfl, habandoned, landed, hpages, hrest⟩ := h
    refine ⟨rfl, habandoned, landed ++ [page], ?_, fun order order' hperm horder' => ?_⟩
    · change upsert d page now' s.pages = _
      rw [hpages, bulkUpsert, bulkUpsert, List.foldl_append]
      rfl
    · rw [List.append_assoc]
      exact hrest (page :: order) order'
        ((hperm.cons page).trans (List.perm_cons_erase hpage).symm) horder'
  | fail exc hrunning hpage => trivial
  | @batch list' waiting now' hrunning hwaiting =>
    unfold CallInv at h
    rw [hrunning] at h
    obtain ⟨rfl, habandoned, landed, hpages, hrest⟩ := h
    refine ⟨rfl, habandoned, landed, hpages, fun order order' hperm horder' => ?_⟩
    exact hrest [] (order ++ order') (.refl _) (interleaved_take_drop hperm horder')
  | @finish list' now' hrunning =>
    unfold CallInv at h
    rw [hrunning] at h
    obtain ⟨rfl, habandoned, landed, hpages, hrest⟩ := h
    refine ⟨habandoned, landed, ?_, hpages⟩
    have hnone : Interleaved (batches upsertBatchSize ([] : List PageText)) [] := by
      rw [batches_nil]
      exact interleaved_nil
    simpa using hrest [] [] (.refl _) hnone
  | late hpage | drop hpage =>
    have hsome : s.abandoned ≠ [] := List.ne_nil_of_mem hpage
    unfold CallInv at h ⊢
    cases hphase : s.phase with
    | idle => trivial
    | running =>
      rw [hphase] at h
      exact absurd h.2.1 hsome
    | returned =>
      rw [hphase] at h
      exact absurd h.1 hsome
  | delete hfree | deleteFails hfree => trivial

/-- Landing what is in flight, in the given order. -/
theorem run_land (hperm : order.Perm inFlight) :
    Run (PagesStep d) ⟨pages, .running list now inFlight waiting, []⟩ (order.map .land)
      ⟨bulkUpsert d order now pages, .running list now [] waiting, []⟩ := by
  induction order generalizing inFlight pages with
  | nil =>
    obtain rfl : inFlight = [] := hperm.nil_eq.symm
    exact .nil
  | cons page order ih =>
    have hmem : page ∈ inFlight := hperm.mem_iff.1 List.mem_cons_self
    have hstep : PagesStep d ⟨pages, .running list now inFlight waiting, []⟩ (.land page)
        ⟨upsert d page now pages, .running list now (inFlight.erase page) waiting, []⟩ :=
      .land rfl hmem
    exact .cons hstep (ih ((hperm.trans (List.perm_cons_erase hmem)).cons_inv))

/-- Every order of the batches is that of a call. -/
theorem exists_run (n : ℕ) (hn : waiting.length ≤ n) (hperm : order.Perm inFlight)
    {order' : List PageText} (h : Interleaved (batches upsertBatchSize waiting) order') :
    ∃ tr, (∀ list', PagesEvent.start list' ∉ tr) ∧
      Run (PagesStep d) ⟨pages, .running list now inFlight waiting, []⟩ tr
        ⟨bulkUpsert d (order ++ order') now pages, .returned list, []⟩ := by
  induction n generalizing waiting inFlight order order' pages with
  | zero =>
    obtain rfl : waiting = [] := List.length_eq_zero_iff.1 (Nat.le_zero.1 hn)
    rw [batches_nil] at h
    obtain rfl : order' = [] := h.perm.eq_nil
    refine ⟨order.map .land ++ [.finish], by simp, ?_⟩
    rw [List.append_nil]
    exact .snoc (run_land hperm) (.finish rfl)
  | succ n ih =>
    by_cases hne : waiting = []
    · exact ih (by simp [hne]) hperm h
    · rw [batches_of_ne_nil upsertBatchSize_pos hne] at h
      obtain ⟨_, ⟨⟩ | ⟨hbatch, hrest⟩, rfl⟩ := h
      have hpos : 0 < waiting.length := List.length_pos_iff.2 hne
      have hlength : (waiting.drop upsertBatchSize).length ≤ n := by
        rw [List.length_drop]
        have := upsertBatchSize_pos
        omega
      obtain ⟨tr, hstart, hrun⟩ := @ih _ _ _ (bulkUpsert d order now pages) hlength hbatch _
        ⟨_, hrest, rfl⟩
      refine ⟨order.map .land ++ (.batch :: tr), ?_, ?_⟩
      · simpa using hstart
      · rw [List.flatten_cons, bulkUpsert, List.foldl_append]
        exact Run.append_iff.2 ⟨_, run_land hperm, .cons (.batch rfl hne) hrun⟩

end PutPages

namespace MongoContentStore

open PutPages

variable {d : UUID} {list : List PageText} {now : Timestamp} {pages result : PageStore}

/-- A call that returns has executed the upserts of its batches, and can have done so in any order. -/
theorem putPagesReturns_iff : PutPagesReturns d list now pages result ↔
    ∃ order, Interleaved (batches upsertBatchSize list) order ∧
      result = bulkUpsert d order now pages := by
  constructor
  · rintro ⟨tr, hstart, hrun⟩
    have hinv : CallInv d list now pages ⟨result, .returned list, []⟩ := by
      refine hrun.mono_inv (CallInv d list now pages) (fun e => ∀ list', e ≠ .start list')
        callInv_start (fun s e s' hkind hinv hstep => callInv_step hinv hstep hkind) ?_
      rintro e he list' rfl
      exact hstart list' he
    exact hinv.2
  · rintro ⟨order, horder, rfl⟩
    by_cases hne : list = []
    · subst hne
      rw [batches_nil] at horder
      obtain rfl : order = [] := horder.perm.eq_nil
      exact ⟨[.finish], by simp, .single (.finish rfl)⟩
    · rw [batches_of_ne_nil upsertBatchSize_pos hne] at horder
      obtain ⟨_, ⟨⟩ | ⟨hbatch, hrest⟩, rfl⟩ := horder
      exact exists_run _ le_rfl hbatch ⟨_, hrest, rfl⟩

theorem settled_pageDoc_iff (bs : List (List PageText)) :
    Settled (fun page => (d.str, page.page)) (pageDoc · now) bs ↔ Settled PageText.page id bs := by
  have hsame (p q : PageText) (hpage : p.page = q.page) : pageDoc p now = pageDoc q now ↔ p = q := by
    refine ⟨fun hdoc => ?_, fun h => by rw [h]⟩
    calc
      p = pageFromDoc p.page (pageDoc p now) := rfl
      _ = pageFromDoc q.page (pageDoc q now) := by rw [hpage, hdoc]
  unfold Settled
  simp only [ne_eq, Prod.mk.injEq, true_and, id_eq]
  constructor
  · intro h earlier b later hbs p hp q hq hpage hlate
    exact (hsame p q hpage).1 (h earlier b later hbs p hp q hq hpage hlate)
  · intro h earlier b later hbs p hp q hq hpage hlate
    exact (hsame p q hpage).2 (h earlier b later hbs p hp q hq hpage hlate)

/-- Every call that returns leaves what the ordered bulk upsert of its list leaves, if and only if the
last batch that names a page has one content for it. -/
theorem put_pages_bulkUpserted_iff (d : UUID) (list : List PageText) (now : Timestamp)
    (pages : PageStore) :
    (∀ result, PutPagesReturns d list now pages result → BulkUpserted d list now pages result) ↔
      OneContent list := by
  have hcontent : (∀ order, Interleaved (batches upsertBatchSize list) order → ∀ key,
      (bulkUpsert d order now pages).get? key = (bulkUpsert d list now pages).get? key) ↔
        OneContent list := by
    have hiff : (∀ order, Interleaved (batches upsertBatchSize list) order → ∀ key,
        (bulkUpsert d order now pages).get? key =
          (bulkUpsert d (batches upsertBatchSize list).flatten now pages).get? key) ↔
        Settled (fun page => (d.str, page.page)) (pageDoc · now) (batches upsertBatchSize list) :=
      get?_interleaved_iff pages
    rw [flatten_batches upsertBatchSize_pos, settled_pageDoc_iff] at hiff
    exact hiff
  rw [← hcontent]
  constructor
  · intro h order horder
    exact (h _ (putPagesReturns_iff.2 ⟨order, horder, rfl⟩)).content
  · intro h result hreturns
    obtain ⟨order, horder, rfl⟩ := putPagesReturns_iff.1 hreturns
    exact .of_content (h order horder)

/-- Two entries for a page in one batch, and the first one takes effect last. -/
theorem put_pages_not_bulkUpserted :
    ¬ ∀ (d : UUID) (list : List PageText) (now : Timestamp) (pages result : PageStore),
      PutPagesReturns d list now pages result → BulkUpserted d list now pages result := by
  intro hclaim
  let d : UUID := ⟨7⟩
  let draft : PageText := ⟨1, "draft", .vlm, none, 5⟩
  let final : PageText := ⟨1, "final", .vlm, none, 5⟩
  let pages : PageStore := Table.empty _
  have hbatches : batches upsertBatchSize [draft, final] = [[draft, final]] := by
    simp [batches, upsertBatchSize]
  have horder : Interleaved (batches upsertBatchSize [draft, final]) [final, draft] := by
    rw [hbatches]
    exact Interleaved.cons (.swap draft final []) interleaved_nil
  have hreturns : PutPagesReturns d [draft, final] 0 pages (bulkUpsert d [final, draft] 0 pages) :=
    putPagesReturns_iff.2 ⟨_, horder, rfl⟩
  have hcontent := (hclaim _ _ _ _ _ hreturns).content (d.str, 1)
  rw [get?_bulkUpsert_page, get?_bulkUpsert_page] at hcontent
  exact absurd (congrArg PageDoc.text (Option.some.inj hcontent)) (by decide)

end MongoContentStore

end Ipa
