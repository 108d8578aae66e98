import Ipa.Db.Vector.Search

/-!
# Filters are sound and narrowing, unless a list is empty

The conditions of a search stand for the members of its filters (`eligible_iff`), except that an empty
list is taken for a missing one although nothing is in it.

* `search_filters_iff`: every hit satisfies the filters, and wider filters admit whatever they admit,
  if and only if no list is empty or the date window is.
* `empty_list_unfiltered`: with an empty list of tags a search returns chunks without a tag.
-/

namespace Ipa

open PgVectorStore

namespace SearchFilters

/-! ## What filters say -/

/-- The instant lies in the window of the filters. -/
def InWindow (f : SearchFilters) (time : Timestamp) : Prop :=
  (∀ after ∈ f.createdAfter, after ≤ time) ∧ ∀ before ∈ f.createdBefore, time ≤ before

/-- The chunk satisfies every member that is not missing. -/
structure Satisfied (f : SearchFilters) (chunk : Chunk) : Prop where
  tag : ∀ tagIds ∈ f.tagIds, ∃ tagId ∈ tagIds, metaText chunk "tag_id" = some tagId.str
  document : ∀ documentIds ∈ f.documentIds, chunk.documentId ∈ documentIds
  status : ∀ statuses ∈ f.statuses,
    ∃ status ∈ statuses, metaText chunk "document_status" = some status.value
  window : f.InWindow chunk.createdAt

/-- The list is contained in the other one, a missing list being everything. -/
def ListLe {A : Type*} (list list' : Option (List A)) : Prop :=
  ∀ l' ∈ list', ∃ l ∈ list, l ⊆ l'

/-- The filters are narrower than the other ones. -/
structure Narrower (f f' : SearchFilters) : Prop where
  tag : ListLe f.tagIds f'.tagIds
  document : ListLe f.documentIds f'.documentIds
  status : ListLe f.statuses f'.statuses
  window : ∀ time, f.InWindow time → f'.InWindow time

/-- Every hit of a search with these filters is a chunk that satisfies them. -/
def Sound (f : SearchFilters) : Prop :=
  ∀ t query vector text topK, Rankings t query (some f) vector text →
    ∀ h ∈ search query vector text topK,
      ∃ chunk ∈ t.rows, h = hit chunk h.score ∧ f.Satisfied chunk

/-- Wider filters admit every chunk that these admit. -/
def Narrows (f : SearchFilters) : Prop :=
  ∀ f', Narrower f f' → ∀ chunk, eligible (some f) chunk = true → eligible (some f') chunk = true

/-- Some list is empty. -/
def HasEmptyList (f : SearchFilters) : Prop :=
  f.tagIds = some [] ∨ f.documentIds = some [] ∨ f.statuses = some []

/-- The window has no instant. -/
def EmptyWindow (f : SearchFilters) : Prop :=
  ∃ after ∈ f.createdAfter, ∃ before ∈ f.createdBefore, before < after

/-! ## What the conditions say -/

variable {f : SearchFilters} {chunk : Chunk}

theorem textIn_iff {text : Option String} {texts : List String} :
    textIn text texts = true ↔ ∃ t ∈ texts, text = some t := by
  unfold textIn
  rw [Option.any_eq_true]
  constructor
  · rintro ⟨t, ht, hmem⟩
    exact ⟨t, of_decide_eq_true hmem, ht⟩
  · rintro ⟨t, hmem, ht⟩
    exact ⟨t, ht, decide_eq_true hmem⟩

theorem all_listCondition {A : Type*} {list : Option (List A)} {condition : List A → Chunk → Bool} :
    ((listCondition list condition).all fun c => c chunk) = true ↔
      ∀ l ∈ list, l ≠ [] → condition l chunk = true := by
  match list with
  | none => simp [listCondition]
  | some [] => simp [listCondition]
  | some (a :: as) => simp [listCondition]

theorem all_boundCondition {bound : Option Timestamp} {condition : Timestamp → Chunk → Bool} :
    ((boundCondition bound condition).all fun c => c chunk) = true ↔
      ∀ time ∈ bound, condition time chunk = true := by
  cases bound <;> simp [boundCondition]

theorem eligible_iff : eligible (some f) chunk = true ↔
    (∀ tagIds ∈ f.tagIds, tagIds ≠ [] →
      ∃ tagId ∈ tagIds, metaText chunk "tag_id" = some tagId.str) ∧
    (∀ documentIds ∈ f.documentIds, documentIds ≠ [] → chunk.documentId ∈ documentIds) ∧
    (∀ statuses ∈ f.statuses, statuses ≠ [] →
      ∃ status ∈ statuses, metaText chunk "document_status" = some status.value) ∧
    f.InWindow chunk.createdAt := by
  unfold eligible filterConditions InWindow
  simp only [List.all_append, Bool.and_eq_true, all_listCondition, all_boundCondition, textIn_iff,
    List.mem_map, exists_exists_and_eq_and, decide_eq_true_eq, and_assoc]

/-- Without empty lists the conditions say what the filters say. -/
theorem eligible_iff_satisfied (h : ¬ f.HasEmptyList) :
    eligible (some f) chunk = true ↔ f.Satisfied chunk := by
  unfold HasEmptyList at h
  push Not at h
  obtain ⟨htag, hdocument, hstatus⟩ := h
  rw [eligible_iff]
  constructor
  · rintro ⟨ht, hd, hs, hw⟩
    refine ⟨fun l hl => ht l hl ?_, fun l hl => hd l hl ?_, fun l hl => hs l hl ?_, hw⟩
    · rintro rfl
      exact htag hl
    · rintro rfl
      exact hdocument hl
    · rintro rfl
      exact hstatus hl
  · rintro ⟨ht, hd, hs, hw⟩
    exact ⟨fun l hl _ => ht l hl, fun l hl _ => hd l hl, fun l hl _ => hs l hl, hw⟩

theorem not_eligible_of_emptyWindow (h : f.EmptyWindow) : eligible (some f) chunk ≠ true := by
  intro helig
  obtain ⟨after, hafter, before, hbefore, hlt⟩ := h
  obtain ⟨-, -, -, ha, hb⟩ := eligible_iff.1 helig
  exact absurd (le_trans (ha after hafter) (hb before hbefore)) (not_le.2 hlt)

/-- Every hit comes from an eligible chunk of the table. -/
theorem eligible_of_mem_search {t : ChunkTable} {query : Query} {vector text : List Chunk} {topK : ℤ}
    (hr : Rankings t query (some f) vector text) {h : ChunkHit}
    (hh : h ∈ search query vector text topK) :
    ∃ chunk ∈ t.rows, h = hit chunk h.score ∧ eligible (some f) chunk = true := by
  obtain ⟨row, score, hrow, rfl⟩ := mem_search hh
  rcases hrow with hrow | hrow
  · obtain ⟨hmem, helig⟩ := hr.by_distance.mem row hrow
    exact ⟨row, hmem, rfl, helig⟩
  · obtain ⟨hmem, helig⟩ := hr.by_rank.mem row hrow
    rw [Bool.and_eq_true] at helig
    exact ⟨row, hmem, rfl, helig.1⟩

/-! ## Empty lists -/

/-- The first element of a list that is neither missing nor empty. -/
def first {A : Type*} (list : Option (List A)) : Option A := list.bind List.head?

/-- A chunk that satisfies every condition, if the window has an instant. -/
def sample (f : SearchFilters) : Chunk where
  id := ⟨0⟩
  documentId := (first f.documentIds).getD ⟨0⟩
  chunkIndex := 0
  text := ""
  embedding := []
  embedModel := ""
  embedDim := 0
  pageFrom := none
  pageTo := none
  metadata := [("tag_id", (first f.tagIds).elim .null fun tagId => .str tagId.str),
    ("document_status", (first f.statuses).elim .null fun status => .str status.value)]
  createdAt := f.createdAfter.getD (f.createdBefore.getD 0)

theorem first_of_ne_nil {A : Type*} {list : Option (List A)} {l : List A} (h : list = some l)
    (hne : l ≠ []) : ∃ a ∈ l, first list = some a := by
  cases l with
  | nil => exact absurd rfl hne
  | cons a l => exact ⟨a, List.mem_cons_self, by rw [h]; rfl⟩

theorem eligible_sample (h : ¬ f.EmptyWindow) : eligible (some f) f.sample = true := by
  rw [eligible_iff]
  refine ⟨fun l hl hne => ?_, fun l hl hne => ?_, fun l hl hne => ?_, fun after ha => ?_,
    fun before hb => ?_⟩
  · obtain ⟨tagId, hmem, hfirst⟩ := first_of_ne_nil hl hne
    refine ⟨tagId, hmem, ?_⟩
    simp only [sample, hfirst, Option.elim_some]
    rfl
  · obtain ⟨documentId, hmem, hfirst⟩ := first_of_ne_nil hl hne
    simp only [sample, hfirst, Option.getD_some]
    exact hmem
  · obtain ⟨status, hmem, hfirst⟩ := first_of_ne_nil hl hne
    refine ⟨status, hmem, ?_⟩
    simp only [sample, hfirst, Option.elim_some]
    rfl
  · rw [Option.mem_def] at ha
    simp only [sample, ha, Option.getD_some]
    exact le_refl _
  · rw [Option.mem_def] at hb
    cases ha : f.createdAfter with
    | none =>
      simp only [sample, ha, hb, Option.getD_none, Option.getD_some]
      exact le_refl _
    | some after =>
      simp only [sample, ha, Option.getD_some]
      by_contra hlt
      exact h ⟨after, ha, before, hb, not_le.1 hlt⟩

/-- A table with one chunk, and a search without a text that finds it. -/
theorem exists_search_sample (h : ¬ f.EmptyWindow) :
    ∃ t query, t.rows = [f.sample] ∧ Rankings t query (some f) [f.sample] [] ∧
      search query [f.sample] [] 1 = [hit f.sample 1] := by
  refine ⟨⟨[f.sample], List.nodup_singleton _⟩, ⟨none, fun _ => 0, fun _ => 0, fun _ => false⟩, rfl,
    ⟨⟨fun row hrow => ?_, List.nodup_singleton _, List.pairwise_singleton _ _⟩,
      ⟨fun row hrow => ?_, List.nodup_nil, List.Pairwise.nil⟩, fun _ => rfl⟩, ?_⟩
  · rw [List.mem_singleton.1 hrow]
    exact ⟨List.mem_singleton_self _, eligible_sample h⟩
  · cases hrow
  · rw [search_of_no_text]
    simp [fetch, sliceTo]

theorem not_sound (hlist : f.HasEmptyList) (hwindow : ¬ f.EmptyWindow) : ¬ f.Sound := by
  intro hsound
  obtain ⟨t, query, hrows, hr, hsearch⟩ := exists_search_sample hwindow
  obtain ⟨chunk, hchunk, -, hsat⟩ := hsound t query _ _ 1 hr (hit f.sample 1) (by rw [hsearch]; simp)
  rcases hlist with hl | hl | hl
  · obtain ⟨tagId, hmem, -⟩ := hsat.tag [] hl
    cases hmem
  · cases hsat.document [] hl
  · obtain ⟨status, hmem, -⟩ := hsat.status [] hl
    cases hmem

/-! ## The filters -/

theorem sound_of_not (h : ¬ f.HasEmptyList ∨ f.EmptyWindow) : f.Sound := by
  intro t query vector text topK hr hit hhit
  obtain ⟨chunk, hchunk, heq, helig⟩ := eligible_of_mem_search hr hhit
  rcases h with hlist | hwindow
  · exact ⟨chunk, hchunk, heq, (eligible_iff_satisfied hlist).1 helig⟩
  · exact absurd helig (not_eligible_of_emptyWindow hwindow)

theorem narrows_of_not (h : ¬ f.HasEmptyList ∨ f.EmptyWindow) : f.Narrows := by
  intro f' hnarrow chunk helig
  rcases h with hlist | hwindow
  · obtain ⟨htag, hdocument, hstatus, hin⟩ := (eligible_iff_satisfied hlist).1 helig
    rw [eligible_iff]
    refine ⟨fun l' hl' _ => ?_, fun l' hl' _ => ?_, fun l' hl' _ => ?_, hnarrow.window _ hin⟩
    · obtain ⟨l, hl, hsub⟩ := hnarrow.tag l' hl'
      obtain ⟨tagId, hmem, htext⟩ := htag l hl
      exact ⟨tagId, hsub hmem, htext⟩
    · obtain ⟨l, hl, hsub⟩ := hnarrow.document l' hl'
      exact hsub (hdocument l hl)
    · obtain ⟨l, hl, hsub⟩ := hnarrow.status l' hl'
      obtain ⟨status, hmem, htext⟩ := hstatus l hl
      exact ⟨status, hsub hmem, htext⟩
  · exact absurd helig (not_eligible_of_emptyWindow hwindow)

end SearchFilters

/-- For every table, every query, both paths of the search and all wider filters: every hit is a chunk
that satisfies the filters, and the wider filters admit every chunk that these filters admit, if and
only if the filters have no empty list or an empty date window. -/
theorem search_filters_iff (f : SearchFilters) :
    f.Sound ∧ f.Narrows ↔ ¬ f.HasEmptyList ∨ f.EmptyWindow := by
  constructor
  · rintro ⟨hsound, -⟩
    by_contra hnot
    push Not at hnot
    exact SearchFilters.not_sound hnot.1 hnot.2 hsound
  · intro h
    exact ⟨SearchFilters.sound_of_not h, SearchFilters.narrows_of_not h⟩

/-- With an empty list of tags a search returns a chunk without a tag, and a list with one tag is wider
but does not admit this chunk. -/
theorem empty_list_unfiltered :
    let f : SearchFilters := ⟨some [], none, none, none, none⟩
    ¬ f.Sound ∧ ¬ f.Narrows := by
  intro f
  have hwindow : ¬ f.EmptyWindow := by
    rintro ⟨after, hafter, -⟩
    cases hafter
  refine ⟨SearchFilters.not_sound (.inl rfl) hwindow, fun hnarrows => ?_⟩
  let f' : SearchFilters := ⟨some [⟨1⟩], none, none, none, none⟩
  have hwide : SearchFilters.Narrower f f' := by
    refine ⟨fun l' _ => ⟨[], rfl, List.nil_subset _⟩, fun l' hl' => ?_, fun l' hl' => ?_, fun _ h => h⟩
    · cases hl'
    · cases hl'
  have helig := hnarrows f' hwide _ (SearchFilters.eligible_sample hwindow)
  obtain ⟨htag, -⟩ := SearchFilters.eligible_iff.1 helig
  obtain ⟨tagId, -, htext⟩ := htag [⟨1⟩] rfl (List.cons_ne_nil _ _)
  cases htext

end Ipa
