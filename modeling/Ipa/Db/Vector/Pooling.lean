import Ipa.Db.Chunk.Upsert
import Ipa.Db.Vector.Search
import Mathlib.Tactic.FieldSimp
import Mathlib.Tactic.Linarith
import Mathlib.Tactic.NormNum

/-!
# Rows that pool their terms

The fusion tells rows apart by their document, position and text, the table by their document,
position and embedding model.  A chunk that two models have embedded is two rows of the table and one
row for the fusion, which adds up the terms of both.

* `fused_scores_iff`: every hit of a fused search has the terms of one chunk row, at most one from
  each ranking, if and only if no two rows that the rankings return are one row for the fusion.
* `two_models_pool`: a chunk under two models scores more than `2 / 61`.
-/

namespace Ipa

/-! ## The term of a row in a ranking -/

section Terms

variable {R K : Type*} [DecidableEq K] {key : R → K} {k : K} {n : ℕ} {rows : List R} {row row' : R}
  {q : ℚ}

/-- What the row adds in a ranking whose first rank is `n`: one term, or nothing if it is not
ranked. -/
def IsTerm (n : ℕ) (rows : List R) (row : R) (q : ℚ) : Prop :=
  (∃ i, rows[i]? = some row ∧ q = 1 / (rrfK + (n + i : ℕ) + 1)) ∨ row ∉ rows ∧ q = 0

theorem IsTerm.cons_of_ne (h : IsTerm (n + 1) rows row q) (hne : row ≠ row') :
    IsTerm n (row' :: rows) row q := by
  rcases h with ⟨i, hi, rfl⟩ | ⟨hmem, rfl⟩
  · refine .inl ⟨i + 1, by rwa [List.getElem?_cons_succ], ?_⟩
    congr 4
    omega
  · refine .inr ⟨?_, rfl⟩
    rw [List.mem_cons, not_or]
    exact ⟨hne, hmem⟩

/-- If the key belongs to one row then its terms are the term of this row. -/
theorem isTerm_pool (hnodup : rows.Nodup) (hkey : key row = k)
    (hone : ∀ row' ∈ rows, key row' = k → row' = row) : IsTerm n rows row (pool key k n rows) := by
  induction rows generalizing n with
  | nil => exact .inr ⟨List.not_mem_nil, rfl⟩
  | cons row' rows ih =>
    obtain ⟨hnot, hnodup'⟩ := List.nodup_cons.1 hnodup
    have hone' : ∀ row' ∈ rows, key row' = k → row' = row := fun row'' h =>
      hone row'' (List.mem_cons_of_mem _ h)
    by_cases hk : key row' = k
    · obtain rfl := hone row' List.mem_cons_self hk
      have hzero : pool key k (n + 1) rows = 0 := by
        refine pool_eq_zero fun row'' hrow'' hk'' => hnot ?_
        rw [← hone' row'' hrow'' hk'']
        exact hrow''
      refine .inl ⟨0, rfl, ?_⟩
      rw [pool, if_pos hk, hzero, add_zero, Nat.add_zero]
    · rw [pool, if_neg hk, zero_add]
      refine (ih hnodup' hone').cons_of_ne ?_
      rintro rfl
      exact hk hkey

theorem term_pos (n : ℕ) : (0 : ℚ) < 1 / (rrfK + n + 1) := by positivity

theorem IsTerm.of_cons (h : IsTerm n (row' :: rows) row q) :
    row' = row ∧ q = 1 / (rrfK + n + 1) ∨ IsTerm (n + 1) rows row q := by
  rcases h with ⟨i, hi, rfl⟩ | ⟨hmem, rfl⟩
  · cases i with
    | zero => exact .inl ⟨Option.some.inj hi, rfl⟩
    | succ i =>
      rw [List.getElem?_cons_succ] at hi
      refine .inr (.inl ⟨i, hi, ?_⟩)
      congr 4
      omega
  · exact .inr (.inr ⟨fun hrow => hmem (List.mem_cons_of_mem _ hrow), rfl⟩)

theorem pool_le_cons : pool key k (n + 1) rows ≤ pool key k n (row' :: rows) := by
  rw [pool]
  split_ifs
  · exact le_add_of_nonneg_left (term_pos n).le
  · exact le_add_of_nonneg_left (le_refl 0)

theorem pool_cons_of_key (h : key row' = k) :
    pool key k n (row' :: rows) = 1 / (rrfK + n + 1) + pool key k (n + 1) rows := by
  rw [pool, if_pos h]

theorem pool_pos (hmem : row ∈ rows) (hkey : key row = k) : 0 < pool key k n rows := by
  induction rows generalizing n with
  | nil => cases hmem
  | cons row' rows ih =>
    rcases List.mem_cons.1 hmem with rfl | hmem
    · rw [pool_cons_of_key hkey]
      exact add_pos_of_pos_of_nonneg (term_pos n) pool_nonneg
    · exact lt_of_lt_of_le (ih hmem) pool_le_cons

theorem IsTerm.le_pool (h : IsTerm n rows row q) (hkey : key row = k) : q ≤ pool key k n rows := by
  induction rows generalizing n with
  | nil =>
    rcases h with ⟨i, hi, -⟩ | ⟨-, rfl⟩
    · cases hi
    · exact le_refl 0
  | cons row' rows ih =>
    rcases h.of_cons with ⟨rfl, rfl⟩ | h
    · rw [pool_cons_of_key hkey]
      exact le_add_of_nonneg_right pool_nonneg
    · exact (ih h).trans pool_le_cons

/-- Another row with the key adds something. -/
theorem IsTerm.lt_pool (h : IsTerm n rows row q) (hkey : key row = k) (hmem : row' ∈ rows)
    (hne : row' ≠ row) (hkey' : key row' = k) : q < pool key k n rows := by
  induction rows generalizing n with
  | nil => cases hmem
  | cons row'' rows ih =>
    rcases List.mem_cons.1 hmem with rfl | hmem
    · rcases h.of_cons with ⟨heq, -⟩ | h
      · exact absurd heq hne
      · rw [pool_cons_of_key hkey']
        exact lt_add_of_pos_of_le (term_pos n) (h.le_pool hkey)
    · rcases h.of_cons with ⟨rfl, rfl⟩ | h
      · rw [pool_cons_of_key hkey]
        exact lt_add_of_pos_right _ (pool_pos hmem hkey')
      · exact lt_of_lt_of_le (ih h hmem) pool_le_cons

theorem IsTerm.le_max (h : IsTerm 0 rows row q) : q ≤ 1 / 61 := by
  rcases h with ⟨i, -, rfl⟩ | ⟨-, rfl⟩
  · rw [one_div_le_one_div (by positivity) (by norm_num)]
    have : (0 : ℚ) ≤ i := Nat.cast_nonneg i
    simp only [rrfK, Nat.zero_add, Nat.cast_ofNat]
    linarith
  · norm_num

end Terms

namespace PgVectorStore

/-! ## The hits of a fused search -/

/-- The hit is one chunk row with at most one term from each ranking. -/
def Fair (vectorRows textRows : List Chunk) (h : ChunkHit) : Prop :=
  ∃ row q q', (row ∈ vectorRows ∨ row ∈ textRows) ∧ h = hit row (q + q') ∧
    IsTerm 0 vectorRows row q ∧ IsTerm 0 textRows row q'

/-- No two different rows are one row for the fusion. -/
def Distinct (vectorRows textRows : List Chunk) : Prop :=
  ∀ row ∈ vectorRows ++ textRows, ∀ row' ∈ vectorRows ++ textRows,
    fusionKey row = fusionKey row' → row = row'

variable {vectorRows textRows : List Chunk} {topK : ℤ}

theorem score_eq {row : Chunk} {score : ℚ}
    (h : (row, score) ∈ rrfFuse ℚ fusionKey [vectorRows, textRows] topK) :
    row ∈ vectorRows ++ textRows ∧ score = pool fusionKey (fusionKey row) 0 vectorRows +
      pool fusionKey (fusionKey row) 0 textRows := by
  obtain ⟨⟨ranking, hranking, hrow⟩, hscore⟩ := mem_rrfFuse h
  rw [fusedScore_eq_sum_pool, List.map_cons, List.map_singleton, List.sum_pair] at hscore
  refine ⟨?_, hscore⟩
  rcases List.mem_pair.1 hranking with rfl | rfl
  · exact List.mem_append_left _ hrow
  · exact List.mem_append_right _ hrow

theorem fair_of_distinct (hvector : vectorRows.Nodup) (htext : textRows.Nodup)
    (h : Distinct vectorRows textRows) {row : Chunk} {score : ℚ}
    (hmem : (row, score) ∈ rrfFuse ℚ fusionKey [vectorRows, textRows] topK) :
    Fair vectorRows textRows (hit row score) := by
  obtain ⟨hrow, rfl⟩ := score_eq hmem
  refine ⟨row, _, _, List.mem_append.1 hrow, rfl, isTerm_pool hvector rfl ?_,
    isTerm_pool htext rfl ?_⟩
  · exact fun row' hrow' hkey => h row' (List.mem_append_left _ hrow') row hrow hkey
  · exact fun row' hrow' hkey => h row' (List.mem_append_right _ hrow') row hrow hkey

theorem Fair.score_le {h : ChunkHit} (hfair : Fair vectorRows textRows h) : h.score ≤ 2 / 61 := by
  obtain ⟨row, q, q', -, rfl, hq, hq'⟩ := hfair
  have hle := add_le_add hq.le_max hq'.le_max
  show q + q' ≤ 2 / 61
  linarith

/-- Rows that are one row for the fusion pool their terms. -/
theorem not_fair {row row' : Chunk} (hrow : row ∈ vectorRows ++ textRows)
    (hrow' : row' ∈ vectorRows ++ textRows) (hne : row ≠ row') (hkey : fusionKey row = fusionKey row')
    {r : Chunk} {score : ℚ} (hr : (r, score) ∈ rrfFuse ℚ fusionKey [vectorRows, textRows] topK)
    (hr' : fusionKey r = fusionKey row) : ¬ Fair vectorRows textRows (hit r score) := by
  rintro ⟨r', q, q', -, heq, hq, hq'⟩
  obtain ⟨-, hscore⟩ := score_eq hr
  have hsum : score = q + q' := congrArg ChunkHit.score heq
  have hkey' : fusionKey r' = fusionKey r := by
    have hdocument : r.documentId = r'.documentId := congrArg ChunkHit.documentId heq
    have hindex : r.chunkIndex = r'.chunkIndex := congrArg ChunkHit.chunkIndex heq
    have htext : r.text = r'.text := congrArg ChunkHit.text heq
    rw [fusionKey, fusionKey, hdocument, hindex, htext]
  obtain ⟨b, hb, hbne, hbkey⟩ : ∃ b ∈ vectorRows ++ textRows, b ≠ r' ∧ fusionKey b = fusionKey r := by
    by_cases hrr : row = r'
    · exact ⟨row', hrow', fun h => hne (hrr.trans h.symm), hkey.symm.trans hr'.symm⟩
    · exact ⟨row, hrow, hrr, hr'.symm⟩
  have hle := hq.le_pool hkey'
  have hle' := hq'.le_pool hkey'
  rcases List.mem_append.1 hb with hb | hb
  · have hlt := hq.lt_pool hkey' hb hbne hbkey
    linarith
  · have hlt := hq'.lt_pool hkey' hb hbne hbkey
    linarith

/-- Every hit has the terms of one chunk row. -/
def ScoredFairly (query : Query) (vector text : List Chunk) (topK : ℤ) : Prop :=
  ∀ h ∈ search query vector text topK,
    Fair (vector.take (fetch topK).toNat) (text.take (fetch topK).toNat) h ∧ h.score ≤ 2 / 61

variable {t : ChunkTable} {query : Query} {filters : Option SearchFilters} {vector text : List Chunk}

theorem scoredFairly_of_distinct (hr : Rankings t query filters vector text) (htext : text ≠ [])
    (h : Distinct (vector.take (fetch topK).toNat) (text.take (fetch topK).toNat)) :
    ScoredFairly query vector text topK := by
  intro found hfound
  rw [search_of_text topK htext] at hfound
  obtain ⟨⟨row, score⟩, hrow, rfl⟩ := List.mem_map.1 hfound
  have hfair := fair_of_distinct (hr.by_distance.nodup.sublist (List.take_sublist _ _))
    (hr.by_rank.nodup.sublist (List.take_sublist _ _)) h hrow
  exact ⟨hfair, hfair.score_le⟩

/-- With a place for every row, a search returns every row that the fusion tells apart. -/
theorem distinct_of_scoredFairly (htext : text ≠ [])
    (hplaces : ((vector.take (fetch topK).toNat).length + (text.take (fetch topK).toNat).length : ℕ) ≤
      topK) (h : ScoredFairly query vector text topK) :
    Distinct (vector.take (fetch topK).toNat) (text.take (fetch topK).toNat) := by
  unfold ScoredFairly at h
  rw [search_of_text topK htext] at h
  intro row hrow row' hrow' hkey
  by_contra hne
  obtain ⟨ranking, hranking, hmem⟩ : ∃ ranking ∈
      [vector.take (fetch topK).toNat, text.take (fetch topK).toNat], row ∈ ranking := by
    rcases List.mem_append.1 hrow with hrow | hrow
    · exact ⟨_, List.mem_cons_self, hrow⟩
    · exact ⟨_, List.mem_cons_of_mem _ (List.mem_singleton_self _), hrow⟩
  have hlength : ([vector.take (fetch topK).toNat, text.take (fetch topK).toNat].flatten.length : ℤ) ≤
      topK := by
    rw [List.flatten_cons, List.flatten_singleton, List.length_append]
    exact hplaces
  obtain ⟨r, score, hr, hrkey⟩ : ∃ r score,
      (r, score) ∈ rrfFuse ℚ fusionKey
        [vector.take (fetch topK).toNat, text.take (fetch topK).toNat] topK ∧
        fusionKey r = fusionKey row := exists_mem_rrfFuse hlength hranking hmem
  exact not_fair hrow hrow' hne hkey hr hrkey (h _ (List.mem_map.2 ⟨(r, score), hr, rfl⟩)).1

/-- A search for 1000 chunks has a place for every row. -/
theorem places_of_thousand (vector text : List Chunk) :
    ((vector.take (fetch 1000).toNat).length + (text.take (fetch 1000).toNat).length : ℕ) ≤
      (1000 : ℤ) := by
  have hfetch : (fetch 1000).toNat = 500 := by decide
  rw [hfetch, List.length_take, List.length_take]
  omega

theorem Distinct.mono {m n : ℕ} (hmn : m ≤ n) (h : Distinct (vector.take n) (text.take n)) :
    Distinct (vector.take m) (text.take m) := by
  have hsub : ∀ row ∈ vector.take m ++ text.take m, row ∈ vector.take n ++ text.take n := by
    intro row hrow
    exact List.mem_append.2 ((List.mem_append.1 hrow).imp
      (fun hv => List.take_subset_take_left vector hmn hv)
      fun ht => List.take_subset_take_left text hmn ht)
  exact fun row hrow row' hrow' => h row (hsub row hrow) row' (hsub row' hrow')

/-- Rows of one embedding model are told apart by the table. -/
theorem distinct_of_one_model (hr : Rankings t query filters vector text) (model : String)
    (hmodel : ∀ row ∈ t.rows, row.embedModel = model) (m n : ℕ) :
    Distinct (vector.take m) (text.take n) := by
  have hmem : ∀ row ∈ vector.take m ++ text.take n, row ∈ t.rows := by
    intro row hrow
    rcases List.mem_append.1 hrow with hrow | hrow
    · exact (hr.by_distance.mem row (List.mem_of_mem_take hrow)).1
    · exact (hr.by_rank.mem row (List.mem_of_mem_take hrow)).1
  intro row hrow row' hrow' hkey
  obtain ⟨hdocument, hindex, -⟩ : row.documentId = row'.documentId ∧
      row.chunkIndex = row'.chunkIndex ∧ row.text = row'.text := by
    simpa [fusionKey] using hkey
  refine t.eq_of_key_eq (hmem row hrow) (hmem row' hrow') ?_
  rw [Chunk.key, Chunk.key, hdocument, hindex, hmodel row (hmem row hrow),
    hmodel row' (hmem row' hrow')]

end PgVectorStore

open PgVectorStore

/-- For every table and every search whose lexical ranking is not empty: for every number of places
each hit has the terms of one chunk row, at most one from each ranking, and a score of at most
`2 / 61`, if and only if no two different rows among the first 500 of both rankings have the same
document, position and text.  For one number of places it is enough that the rows that are fetched for
it are told apart, and necessary if there is a place for each of them. -/
theorem fused_scores_iff {t : ChunkTable} {query : Query} {filters : Option SearchFilters}
    {vector text : List Chunk} (hr : Rankings t query filters vector text) (htext : text ≠ []) :
    ((∀ topK, ScoredFairly query vector text topK) ↔
      Distinct (vector.take 500) (text.take 500)) ∧
    ∀ topK : ℤ, let vectorRows := vector.take (fetch topK).toNat
      let textRows := text.take (fetch topK).toNat
      (Distinct vectorRows textRows → ScoredFairly query vector text topK) ∧
        ((vectorRows.length + textRows.length : ℕ) ≤ topK → ScoredFairly query vector text topK →
          Distinct vectorRows textRows) := by
  refine ⟨⟨fun h => ?_, fun h topK => ?_⟩, fun topK =>
    ⟨fun h => scoredFairly_of_distinct hr htext h, fun hplaces h =>
      distinct_of_scoredFairly htext hplaces h⟩⟩
  · exact distinct_of_scoredFairly htext (places_of_thousand vector text) (h 1000)
  · exact scoredFairly_of_distinct hr htext (h.mono (fetch_pos topK).2)

/-! ## Chunks under two models -/

section Runs

open ChunkRepository

/-- A chunk as `model` embeds it. -/
def vectorOf (i : ℕ) (text model : String) : ChunkVector :=
  ⟨⟨7⟩, i, text, [some 1], model, none, none, [], ChunkVector.neg_one_le i, ChunkVector.no_pages⟩

/-- What a table holds after the first statement. -/
theorem rows_upsert_empty {env : ChunkEnv} {chunks : List ChunkVector} (hne : chunks ≠ [])
    (h : Executes env chunks) : (upsert env chunks (Table.empty _)).1.rows = values env chunks :=
  (rows_upsert hne h).trans (List.filter_eq_self.2 fun _ _ => rfl)

/-- The text of the second chunk differs between the two models, and each of its rows has a score of its
own. -/
theorem fused_scores_iff_three_rows :
    let chunks := [vectorOf 0 "Invoice" "a", vectorOf 1 "Total" "a", vectorOf 1 "Sum" "b"]
    let rows := values (testEnv 0) chunks
    let query : Query := ⟨some "Total", fun row => row.chunkIndex, fun row => row.chunkIndex,
      fun row => row.embedModel = "a"⟩
    ∀ topK, ScoredFairly query rows (rows.take 2).reverse topK := by
  intro chunks rows query
  let t := (upsert (testEnv 0) chunks (Table.empty _)).1
  have hne : chunks ≠ [] := List.cons_ne_nil _ _
  have hexecutes : Executes (testEnv 0) chunks := ⟨by decide, rfl, by decide +kernel, by decide⟩
  have hrows : t.rows = rows := rows_upsert_empty hne hexecutes
  have hkeys : (rows.map fusionKey).Nodup := by decide
  have htext : ∀ row ∈ (rows.take 2).reverse, row ∈ rows := fun row hrow =>
    List.mem_of_mem_take (List.mem_reverse.1 hrow)
  have hr : Rankings t query none rows (rows.take 2).reverse := by
    refine ⟨⟨fun row hrow => ⟨hrows.symm ▸ hrow, rfl⟩, hkeys.of_map, ?_⟩,
      ⟨fun row hrow => ⟨hrows.symm ▸ htext row hrow, ?_⟩, ?_, ?_⟩, fun h => by simp [query] at h⟩
    · simp [rows, chunks, values, newRow, vectorOf, query]
    · rcases List.mem_pair.1 hrow with rfl | rfl <;> rfl
    · exact List.nodup_reverse.2 (hkeys.of_map.sublist (List.take_sublist 2 _))
    · simp [rows, chunks, values, newRow, vectorOf, query]
  refine (fused_scores_iff hr (List.cons_ne_nil _ _)).1.2 fun row hrow row' hrow' hkey => ?_
  have hmem : ∀ row ∈ rows.take 500 ++ (rows.take 2).reverse.take 500, row ∈ rows := by
    intro row hrow
    rcases List.mem_append.1 hrow with hrow | hrow
    · exact List.mem_of_mem_take hrow
    · exact htext row (List.mem_of_mem_take hrow)
  exact List.inj_on_of_nodup_map hkeys (hmem row hrow) (hmem row' hrow') hkey

/-- Two models have embedded a chunk, and its two rows pool their terms. -/
theorem two_models_pool : ¬ ∀ t, Reachable t → ∀ query filters vector text,
    Rankings t query filters vector text → text ≠ [] → ∀ topK,
      ScoredFairly query vector text topK := by
  intro hclaim
  let chunks := [vectorOf 0 "Invoice" "a", vectorOf 0 "Invoice" "b"]
  let rows := values (testEnv 0) chunks
  let t := (upsert (testEnv 0) chunks (Table.empty _)).1
  let query : Query := ⟨some "Invoice", fun _ => 0, fun _ => 0, fun _ => true⟩
  have hkeys : (rows.map Chunk.key).Nodup := by decide
  have hrows : t.rows = rows :=
    rows_upsert_empty (List.cons_ne_nil _ _) ⟨by decide, rfl, by decide +kernel, hkeys⟩
  have hnodup : rows.Nodup := hkeys.of_map
  have hsorted : rows.Pairwise fun _ _ => (0 : ℚ) ≤ 0 := by
    decide
  have hr : Rankings t query none rows rows :=
    ⟨⟨fun row hrow => ⟨hrows.symm ▸ hrow, rfl⟩, hnodup, hsorted⟩,
      ⟨fun row hrow => ⟨hrows.symm ▸ hrow, rfl⟩, hnodup, hsorted⟩, fun h => by simp [query] at h⟩
  have hfair := hclaim t (.upsert (testEnv 0) chunks .empty) query none rows rows hr
    (List.cons_ne_nil _ _) 1000
  have hdistinct := distinct_of_scoredFairly (List.cons_ne_nil _ _)
    (places_of_thousand rows rows) hfair
  have heq := hdistinct _ (.head _) _ (.tail _ (.head _)) rfl
  exact absurd (congrArg Chunk.embedModel heq) (by decide)

end Runs

end Ipa
