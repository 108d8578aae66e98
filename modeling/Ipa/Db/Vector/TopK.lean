import Ipa.Db.Chunk.Upsert
import Ipa.Db.Vector.Promotion
import Ipa.Db.Vector.Search

/-!
# Searches for more hits

A search reads more rows when it is asked for more hits, and a row that both rankings have then may have
been in one of them before.

* `search_prefix_search`: without a lexical ranking, or if both searches read equally many rows, the hits of
  the smaller search begin those of the larger one.
* `search_prefix_iff`: with a lexical ranking, and for exact rankings, only then.
-/

namespace Ipa

open Ranking

/-! ## The best of the fused keys -/

section Fusion

variable {R K : Type*} [DecidableEq K] {key : R → K} {k k' : K} {n : ℕ} {rows : List R}
  {rankings : List (List R)}

/-- If no two rows have one key, the terms of a key are the one of its position. -/
theorem pool_of_nodup (h : (rows.map key).Nodup) (k : K) :
    pool key k n rows = if k ∈ rows.map key then term (n + (rows.map key).idxOf k) else 0 := by
  induction rows generalizing n with
  | nil => rfl
  | cons row rows ih =>
    obtain ⟨hnot, hnodup⟩ := List.nodup_cons.1 (List.map_cons ▸ h)
    by_cases hk : key row = k
    · subst hk
      have hzero : pool key (key row) (n + 1) rows = 0 := by rw [ih hnodup, if_neg hnot]
      rw [pool_cons_self, hzero, List.map_cons, if_pos List.mem_cons_self, List.idxOf_cons_self]
      simp
    · rw [pool_cons_of_ne hk, ih hnodup, List.map_cons, List.idxOf_cons_ne _ hk]
      simp only [List.mem_cons, Ne.symm hk, false_or]
      congr 2
      omega

theorem term_le (n : ℕ) : term n ≤ term 0 := by
  induction n with
  | zero => exact le_rfl
  | succ n ih => exact (term_succ_le n).trans ih

theorem term_nonneg (n : ℕ) : 0 ≤ term n := by
  unfold term
  positivity

theorem pool_le_of_nodup (h : (rows.map key).Nodup) (k : K) : pool key k 0 rows ≤ term 0 := by
  rw [pool_of_nodup h]
  split_ifs
  · exact term_le _
  · exact term_nonneg 0

/-- The first key is one that no other one outranks. -/
theorem head?_fusedKeys_of_outranks (hk : k ∈ occurrences key rankings)
    (h : ∀ k' ∈ occurrences key rankings, k' ≠ k → Outranks ℚ key rankings k k') :
    (fusedKeys ℚ key rankings).head? = some k := by
  cases hkeys : fusedKeys ℚ key rankings with
  | nil =>
    rw [← mem_fusedKeys (S := ℚ), hkeys] at hk
    cases hk
  | cons first rest =>
    have horder : FusedOrder ℚ key rankings (fusedKeys ℚ key rankings) := fusedOrder_fusedKeys
    rw [List.head?_cons, Option.some.injEq]
    by_contra hne
    have hfirst : first ∈ occurrences key rankings := by
      rw [← mem_fusedKeys (S := ℚ), hkeys]
      exact List.mem_cons_self
    have hrest : k ∈ rest := by
      rw [← mem_fusedKeys (S := ℚ), hkeys, List.mem_cons] at hk
      exact hk.resolve_left (Ne.symm hne)
    have houtranks := horder.outranks
    rw [hkeys, List.pairwise_cons] at houtranks
    exact (houtranks.1 k hrest).asymm (h first hfirst hne)

/-- A key that another one outranks is not the first. -/
theorem head?_fusedKeys_ne (hk' : k' ∈ occurrences key rankings) (h : Outranks ℚ key rankings k' k) :
    (fusedKeys ℚ key rankings).head? ≠ some k := by
  intro hhead
  obtain ⟨rest, hkeys⟩ := List.head?_eq_some_iff.1 hhead
  have horder : FusedOrder ℚ key rankings (fusedKeys ℚ key rankings) := fusedOrder_fusedKeys
  have houtranks := horder.outranks
  rw [hkeys, List.pairwise_cons] at houtranks
  rw [← mem_fusedKeys (S := ℚ), hkeys, List.mem_cons] at hk'
  rcases hk' with rfl | hrest
  · exact h.asymm h
  · exact h.asymm (houtranks.1 k' hrest)

variable {x y : R} {vector text : List R}

theorem fusedScore_pair (k : K) : fusedScore ℚ key [vector, text] k = pool key k 0 vector + pool key k 0 text := by
  rw [fusedScore_eq_sum_pool, List.map_cons, List.map_singleton, List.sum_pair]

/-- Two rankings without common keys: the best key is the first one of the first ranking. -/
theorem head?_fusedKeys_of_disjoint (hvector : ((x :: vector).map key).Nodup) (htext : (text.map key).Nodup)
    (hdisjoint : ∀ k ∈ (x :: vector).map key, k ∉ text.map key) :
    (fusedKeys ℚ key [x :: vector, text]).head? = some (key x) := by
  have hoccurrences : occurrences key [x :: vector, text] = (x :: vector).map key ++ text.map key := by
    simp [occurrences]
  refine head?_fusedKeys_of_outranks (by simp [hoccurrences]) fun k' hk' hne => ?_
  have hbest : fusedScore ℚ key [x :: vector, text] (key x) = term 0 := by
    rw [fusedScore_pair, pool_of_nodup hvector, pool_of_nodup htext,
      if_neg (hdisjoint _ List.mem_cons_self), List.map_cons, if_pos List.mem_cons_self,
      List.idxOf_cons_self, add_zero, add_zero]
  have hle : fusedScore ℚ key [x :: vector, text] k' ≤ term 0 := by
    rw [fusedScore_pair]
    by_cases hmem : k' ∈ (x :: vector).map key
    · have hzero : pool key k' 0 text = 0 := by rw [pool_of_nodup htext, if_neg (hdisjoint k' hmem)]
      rw [hzero, add_zero]
      exact pool_le_of_nodup hvector k'
    · have hzero : pool key k' 0 (x :: vector) = 0 := by rw [pool_of_nodup hvector, if_neg hmem]
      rw [hzero, zero_add]
      exact pool_le_of_nodup htext k'
  rw [← hbest] at hle
  refine hle.lt_or_eq.imp_right fun heq => ⟨heq, ?_⟩
  rw [hoccurrences, List.map_cons, List.cons_append, List.idxOf_cons_self, List.idxOf_cons_ne _ (Ne.symm hne)]
  exact Nat.succ_pos _

/-- A row that is second in one ranking and late in the other is better than one that is first in one
ranking only. -/
theorem head?_fusedKeys_late (hvector : ((x :: y :: vector).map key).Nodup)
    (htext : ((text ++ [y]).map key).Nodup) (hx : key x ∉ (text ++ [y]).map key) (hlength : text.length ≤ 500) :
    (fusedKeys ℚ key [x :: y :: vector, text ++ [y]]).head? ≠ some (key x) := by
  have hxy : key x ≠ key y := by
    intro heq
    rw [heq] at hx
    simp at hx
  have hfirst : fusedScore ℚ key [x :: y :: vector, text ++ [y]] (key x) = term 0 := by
    rw [fusedScore_pair, pool_of_nodup hvector, pool_of_nodup htext, if_neg hx, List.map_cons,
      if_pos List.mem_cons_self, List.idxOf_cons_self, add_zero, add_zero]
  have hlate : fusedScore ℚ key [x :: y :: vector, text ++ [y]] (key y) = term 1 + term text.length := by
    have hy : key y ∉ text.map key := by
      rw [List.map_append, List.map_singleton, List.nodup_append] at htext
      exact fun hmem => htext.2.2 _ hmem _ (List.mem_singleton_self _) rfl
    rw [fusedScore_pair, pool_of_nodup hvector, pool_of_nodup htext, if_pos (by simp), if_pos (by simp),
      List.map_cons, List.map_cons, List.idxOf_cons_ne _ hxy, List.idxOf_cons_self, List.map_append,
      List.idxOf_append_of_notMem hy, List.map_singleton, List.idxOf_cons_self, List.length_map]
    simp
  have hy : key y ∈ occurrences key [x :: y :: vector, text ++ [y]] := by simp [occurrences]
  refine head?_fusedKeys_ne hy (.inl ?_)
  rw [hfirst, hlate, term, term, term, rrfK]
  have hbound : (1 : ℚ) / 561 ≤ 1 / ((60 : ℕ) + text.length + 1) := by
    have hcast : (text.length : ℚ) ≤ 500 := by exact_mod_cast hlength
    refine one_div_le_one_div_of_le (by positivity) ?_
    push_cast
    linarith
  norm_num at hbound ⊢
  linarith

end Fusion

namespace PgVectorStore

variable {t : ChunkTable} {query : Query} {filters : Option SearchFilters} {vector text : List Chunk}
  {k k' : ℤ}

/-! ## Reading equally many rows -/

theorem sliceTo_prefix_sliceTo {A : Type*} (items : List A) (hk : 0 ≤ k) (hle : k ≤ k') :
    sliceTo items k <+: sliceTo items k' := by
  rw [sliceTo, sliceTo, if_pos hk, if_pos (hk.trans hle)]
  exact List.take_prefix_take_left (Int.toNat_le_toNat hle)

theorem fetch_mono (hle : k ≤ k') : (fetch k).toNat ≤ (fetch k').toNat := by
  unfold fetch
  omega

theorem fetch_eq_iff (hle : k ≤ k') : fetch k = fetch k' ↔ k = k' ∨ k' ≤ 10 ∨ 50 ≤ k := by
  unfold fetch
  omega

/-- The hits of a search begin those of a larger one, unless the larger one reads more rows and has a
lexical ranking. -/
theorem search_prefix_search (hk : 0 ≤ k) (hle : k ≤ k') (h : text = [] ∨ fetch k = fetch k') :
    search query vector text k <+: search query vector text k' := by
  by_cases htext : text = []
  · subst htext
    rw [search_of_no_text, search_of_no_text]
    refine List.IsPrefix.map _ ?_
    rw [sliceTo, sliceTo, if_pos hk, if_pos (hk.trans hle), List.take_take, List.take_take]
    exact List.take_prefix_take_left (min_le_min (Int.toNat_le_toNat hle) (fetch_mono hle))
  · rw [search_of_text k htext, search_of_text k' htext, h.resolve_left htext]
    refine List.IsPrefix.map _ ?_
    rw [rrfFuse_eq_filterMap, rrfFuse_eq_filterMap]
    exact (sliceTo_prefix_sliceTo _ hk hle).filterMap _

/-! ## Reading more rows -/

/-- The rankings leave out no row. -/
structure Complete (t : ChunkTable) (query : Query) (filters : Option SearchFilters)
    (vector text : List Chunk) : Prop where
  by_distance : ∀ row ∈ t.rows, eligible filters row → row ∈ vector
  by_rank : ∀ row ∈ t.rows, eligible filters row → query.textMatches row → row ∈ text

/-- The identity of a hit for the fusion. -/
def hitKey (h : ChunkHit) : UUID × ℤ × String := (h.documentId, h.chunkIndex, h.text)

theorem map_hitKey_search (htext : text ≠ []) : (search query vector text k).map hitKey =
    sliceTo (fusedKeys ℚ fusionKey [vector.take (fetch k).toNat, text.take (fetch k).toNat]) k := by
  rw [search_of_text k htext, List.map_map, ← map_key_rrfFuse]
  rfl

theorem head?_sliceTo {A : Type*} (items : List A) (hk : 1 ≤ k) : (sliceTo items k).head? = items.head? := by
  rw [sliceTo, if_pos (by omega), List.head?_take, if_neg (by omega)]

/-- A search for more hits whose best hit is another one. -/
theorem not_prefix_of_head? (hk : 1 ≤ k) (hle : k ≤ k') (htext : text ≠ []) (best : UUID × ℤ × String)
    (h : (fusedKeys ℚ fusionKey [vector.take (fetch k).toNat, text.take (fetch k).toNat]).head? = some best)
    (h' : (fusedKeys ℚ fusionKey [vector.take (fetch k').toNat, text.take (fetch k').toNat]).head? ≠
      some best) : ¬ search query vector text k <+: search query vector text k' := by
  intro hbegins
  have hkeys := hbegins.map hitKey
  rw [map_hitKey_search htext, map_hitKey_search htext] at hkeys
  rw [← head?_sliceTo _ hk] at h
  obtain ⟨rest, hrest⟩ := List.head?_eq_some_iff.1 h
  obtain ⟨more, hmore⟩ := hkeys
  apply h'
  rw [← head?_sliceTo _ (hk.trans hle), ← hmore, hrest]
  rfl

/-! ### A table with a row that both rankings reach late -/

/-- One chunk for each position of a document. -/
def chunkAt (i : ℕ) : ChunkVector :=
  ⟨⟨7⟩, i, "", [some 1], "m", none, none, [], ChunkVector.neg_one_le i, ChunkVector.no_pages⟩

/-- Its row. -/
def rowAt (i : ℕ) : Chunk := ChunkRepository.newRow (ChunkRepository.testEnv 0) i (chunkAt i)

/-- `n` chunks. -/
def manyChunks (n : ℕ) : ChunkTable :=
  (ChunkRepository.upsert (ChunkRepository.testEnv 0) ((List.range n).map chunkAt) (Table.empty _)).1

/-- The chunks are in the order of their distances.  The text matches the one at position `1` and those
from `m` on, of which it ranks the early ones higher, and the one at position `1` last. -/
def lateQuery (m : ℕ) : Query where
  text := some "Invoice"
  distance row := row.chunkIndex
  rank row := if row.chunkIndex = 1 then -1000000 else -row.chunkIndex
  textMatches row := row.chunkIndex = 1 ∨ m ≤ row.chunkIndex

theorem values_chunkAt (n : ℕ) :
    ChunkRepository.values (ChunkRepository.testEnv 0) ((List.range n).map chunkAt) = (List.range n).map rowAt := by
  refine List.ext_getElem (by simp [ChunkRepository.values]) fun i h h' => ?_
  simp [ChunkRepository.values, rowAt]

theorem fusionKey_rowAt_injective : Function.Injective fun i => fusionKey (rowAt i) := by
  intro i j h
  have hindex : ((i : ℕ) : ℤ) = j := congrArg (fun key => key.2.1) h
  exact_mod_cast hindex

theorem nodup_chunkAt (n : ℕ) : (((List.range n).map chunkAt).map ChunkVector.key).Nodup := by
  rw [List.map_map]
  refine List.nodup_range.map fun i j h => ?_
  have hindex : ((i : ℕ) : ℤ) = j := congrArg ChunkKey.chunkIndex h
  exact_mod_cast hindex

theorem executes_chunkAt {n : ℕ} (hpos : 0 < n) (hn : n ≤ 2000) :
    ChunkRepository.Executes (ChunkRepository.testEnv 0) ((List.range n).map chunkAt) := by
  have hne : (List.range n).map chunkAt ≠ [] := by
    rw [Ne, List.map_eq_nil_iff, List.range_eq_nil]
    exact hpos.ne'
  have hmem : ∀ chunk ∈ (List.range n).map chunkAt, ∃ i < n, chunkAt i = chunk := by
    simp
  refine (ChunkRepository.executes_iff hne ?_ ?_).2 ⟨?_, fun _ => rfl, nodup_chunkAt n, ?_⟩
  · intro chunk hchunk
    obtain ⟨i, -, rfl⟩ := hmem chunk hchunk
    rfl
  · intro chunk hchunk
    obtain ⟨i, -, rfl⟩ := hmem chunk hchunk
    rfl
  · rw [List.length_map, List.length_range]
    change 10 * n ≤ 32767
    omega
  · intro chunk hchunk
    obtain ⟨i, hi, rfl⟩ := hmem chunk hchunk
    have hindex : IsInt4 (i : ℤ) := by
      unfold IsInt4
      omega
    refine ⟨rfl, ?_, rfl, ?_, hindex, nofun, nofun⟩
    · change hasNul "m" = false
      decide
    · intro x hx
      rw [List.mem_singleton.1 hx]
      exact ⟨1, rfl, by decide +kernel⟩

theorem rows_manyChunks {n : ℕ} (hpos : 0 < n) (hn : n ≤ 2000) :
    (manyChunks n).rows = (List.range n).map rowAt := by
  have hexecutes := executes_chunkAt hpos hn
  have hne : (List.range n).map chunkAt ≠ [] := by
    rw [Ne, List.map_eq_nil_iff, List.range_eq_nil]
    exact hpos.ne'
  rw [manyChunks, ChunkRepository.rows_upsert hne hexecutes, values_chunkAt]
  exact List.filter_eq_self.2 fun _ _ => rfl

/-- The first `n` chunks, which are the nearest ones. -/
def nearest (n : ℕ) : List Chunk := (List.range n).map rowAt

/-- The `n` chunks from position `m` on and the one at position `1`. -/
def matched (m n : ℕ) : List Chunk := ((List.range n).map fun i => rowAt (m + i)) ++ [rowAt 1]

theorem nodup_nearest (n : ℕ) : ((nearest n).map fusionKey).Nodup := by
  rw [nearest, List.map_map]
  exact List.nodup_range.map fusionKey_rowAt_injective

theorem map_matched (m n : ℕ) : (matched m n).map fusionKey =
    (((List.range n).map (m + ·)) ++ [1]).map fun i => fusionKey (rowAt i) := by
  simp [matched]

theorem nodup_matched {m : ℕ} (n : ℕ) (hm : 2 ≤ m) : ((matched m n).map fusionKey).Nodup := by
  rw [map_matched]
  refine List.Nodup.map fusionKey_rowAt_injective ?_
  refine (List.nodup_range.map fun i j h => Nat.add_left_cancel h).append (List.nodup_singleton _) ?_
  rw [List.disjoint_singleton]
  intro hmem
  obtain ⟨i, -, hi⟩ := List.mem_map.1 hmem
  omega

theorem mem_matched {m n : ℕ} {row : Chunk} (h : row ∈ matched m n) :
    ∃ i, (i = 1 ∨ m ≤ i ∧ i < m + n) ∧ row = rowAt i := by
  rcases List.mem_append.1 h with hrow | hlast
  · obtain ⟨i, hi, rfl⟩ := List.mem_map.1 hrow
    rw [List.mem_range] at hi
    exact ⟨m + i, .inr ⟨by omega, by omega⟩, rfl⟩
  · exact ⟨1, .inl rfl, List.mem_singleton.1 hlast⟩

theorem rank_lateQuery {m i : ℕ} (hi : i ≠ 1) : (lateQuery m).rank (rowAt i) = -(i : ℚ) := by
  have hindex : ((i : ℕ) : ℤ) ≠ 1 := by exact_mod_cast hi
  exact if_neg hindex

theorem rankings_late {m n : ℕ} (hm : 2 ≤ m) (hsize : m + n ≤ 2000) :
    Rankings (manyChunks (m + n)) (lateQuery m) none (nearest (m + n)) (matched m n) where
  by_distance := by
    refine ⟨fun row hrow => ⟨?_, rfl⟩, (nodup_nearest _).of_map, ?_⟩
    · rwa [rows_manyChunks (by omega) hsize]
    · rw [nearest, List.pairwise_map]
      refine List.pairwise_lt_range.imp fun {i j} hij => ?_
      exact Int.cast_le.2 (Int.ofNat_le.2 hij.le)
  by_rank := by
    refine ⟨fun row hrow => ?_, (nodup_matched n hm).of_map, ?_⟩
    · rw [rows_manyChunks (by omega) hsize]
      obtain ⟨i, hi, rfl⟩ := mem_matched hrow
      refine ⟨List.mem_map_of_mem (List.mem_range.2 (by omega)), ?_⟩
      have hindex : (i : ℤ) = 1 ∨ (m : ℤ) ≤ i := by omega
      exact decide_eq_true hindex
    · rw [matched, List.pairwise_append, List.pairwise_map]
      refine ⟨List.pairwise_lt_range.imp fun {i j} hij => ?_, List.pairwise_singleton _ _, ?_⟩
      · rw [rank_lateQuery (by omega), rank_lateQuery (by omega), neg_le_neg_iff]
        exact_mod_cast Nat.add_le_add_left hij.le m
      · intro row hrow row' hrow'
        obtain ⟨i, hi, rfl⟩ := List.mem_map.1 hrow
        obtain rfl := List.mem_singleton.1 hrow'
        rw [List.mem_range] at hi
        have hle : ((m + i : ℕ) : ℚ) ≤ 2000 := by exact_mod_cast (by omega : m + i ≤ 2000)
        have hlast : (lateQuery m).rank (rowAt 1) = -1000000 := rfl
        rw [hlast, rank_lateQuery (by omega : m + i ≠ 1)]
        linarith
  no_text := by simp [lateQuery]

theorem complete_late {m n : ℕ} (hm : 2 ≤ m) (hsize : m + n ≤ 2000) :
    Complete (manyChunks (m + n)) (lateQuery m) none (nearest (m + n)) (matched m n) where
  by_distance row hrow _ := by rwa [rows_manyChunks (by omega) hsize] at hrow
  by_rank row hrow _ hmatches := by
    rw [rows_manyChunks (by omega) hsize] at hrow
    obtain ⟨i, hi, rfl⟩ := List.mem_map.1 hrow
    rw [List.mem_range] at hi
    have hcases : i = 1 ∨ m ≤ i := by
      have hindex : (i : ℤ) = 1 ∨ (m : ℤ) ≤ i := of_decide_eq_true hmatches
      omega
    rcases hcases with rfl | hlate
    · exact List.mem_append_right _ (List.mem_singleton_self _)
    · refine List.mem_append_left _ (List.mem_map.2 ⟨i - m, List.mem_range.2 (by omega), ?_⟩)
      rw [Nat.add_sub_cancel' hlate]

theorem take_nearest {m n : ℕ} (h : m ≤ n) : (nearest n).take m = nearest m := by
  rw [nearest, ← List.map_take, List.take_range, min_eq_left h, nearest]

theorem nearest_succ (n : ℕ) : nearest (n + 1) = rowAt 0 :: (List.range n).map fun i => rowAt (i + 1) := by
  rw [nearest, List.range_succ_eq_map]
  simp

/-- While the rankings are cut before the chunk at position `1`, the nearest chunk is the best one. -/
theorem head?_late {m n : ℕ} (hm : 2 ≤ m) (hn : n < m) :
    (fusedKeys ℚ fusionKey [(nearest (m + (n + 1))).take (n + 1), (matched m (n + 1)).take (n + 1)]).head? =
      some (fusionKey (rowAt 0)) := by
  have hmatched : (matched m (n + 1)).take (n + 1) = (List.range (n + 1)).map fun i => rowAt (m + i) := by
    rw [matched, List.take_left' (by simp)]
  have hnodup := (nodup_matched (n + 1) hm).sublist ((List.take_sublist (n + 1) _).map fusionKey)
  have hdisjoint : ∀ k ∈ (nearest (n + 1)).map fusionKey,
      k ∉ ((List.range (n + 1)).map fun i => rowAt (m + i)).map fusionKey := by
    intro k hk hk'
    rw [nearest, List.map_map] at hk
    rw [List.map_map] at hk'
    obtain ⟨i, hi, rfl⟩ := List.mem_map.1 hk
    obtain ⟨j, -, hj⟩ := List.mem_map.1 hk'
    have heq : m + j = i := fusionKey_rowAt_injective hj
    rw [List.mem_range] at hi
    omega
  have hnodup' := nodup_nearest (n + 1)
  rw [hmatched] at hnodup
  rw [nearest_succ] at hnodup' hdisjoint
  rw [take_nearest (by omega), hmatched, nearest_succ]
  exact head?_fusedKeys_of_disjoint hnodup' hnodup hdisjoint

/-- When they are not, it is better. -/
theorem head?_late_ne {m n : ℕ} (hn : n ≤ 500) (hnm : n ≤ m + 1) :
    (fusedKeys ℚ fusionKey [(nearest (m + 4 + n)).take (m + 2), (matched (m + 4) n).take (m + 2)]).head? ≠
      some (fusionKey (rowAt 0)) := by
  have hmatched : (matched (m + 4) n).take (m + 2) = matched (m + 4) n := by
    refine List.take_of_length_le ?_
    simp only [matched, List.length_append, List.length_map, List.length_range, List.length_singleton]
    omega
  have hnearest : nearest (m + 2) =
      rowAt 0 :: rowAt 1 :: (List.range m).map fun i => rowAt (i + 2) := by
    rw [nearest_succ, List.range_succ_eq_map]
    simp
  have hnodup := nodup_nearest (m + 2)
  have hfirst : fusionKey (rowAt 0) ∉ (matched (m + 4) n).map fusionKey := by
    intro hmem
    obtain ⟨row, hrow, hkey⟩ := List.mem_map.1 hmem
    obtain ⟨i, hi, rfl⟩ := mem_matched hrow
    have heq : i = 0 := fusionKey_rowAt_injective hkey
    omega
  rw [hnearest] at hnodup
  rw [take_nearest (by omega), hmatched, hnearest]
  exact head?_fusedKeys_late hnodup (nodup_matched n (by omega)) hfirst (by simpa using hn)

/-- Asked for more hits, an exact search with a lexical ranking always begins with the hits that it
returned before if and only if it does not read more rows: it is asked for at most ten hits, or it has
been asked for at least fifty. -/
theorem search_prefix_iff (hk : 1 ≤ k) (hle : k ≤ k') :
    (∀ t, ChunkRepository.Reachable t → ∀ query filters vector text,
      Rankings t query filters vector text → Complete t query filters vector text →
        search query vector text k <+: search query vector text k') ↔
      k = k' ∨ k' ≤ 10 ∨ 50 ≤ k := by
  rw [← fetch_eq_iff hle]
  constructor
  · intro h
    by_contra hne
    have hlt : (fetch k).toNat < (fetch k').toNat := by
      have hmono := fetch_mono hle
      have hpos := fetch_pos k
      have hpos' := fetch_pos k'
      unfold fetch at hmono hne ⊢
      omega
    have hfetch := fetch_pos k
    have hfetch' := fetch_pos k'
    obtain ⟨n, hn⟩ : ∃ n, (fetch k).toNat = n + 1 := ⟨(fetch k).toNat - 1, by omega⟩
    obtain ⟨m, hm⟩ : ∃ m, (fetch k').toNat = m + 2 := ⟨(fetch k').toNat - 2, by omega⟩
    have hbegins := h (manyChunks (m + 4 + (n + 1))) (.upsert _ _ .empty) (lateQuery (m + 4)) none _ _
      (rankings_late (by omega) (by omega)) (complete_late (by omega) (by omega))
    refine not_prefix_of_head? hk hle (by simp [matched]) (fusionKey (rowAt 0)) ?_ ?_ hbegins
    · rw [hn]
      exact head?_late (by omega) (by omega)
    · rw [hm]
      exact head?_late_ne (by omega) (by omega)
  · intro heq t _ query filters vector text _ _
    exact search_prefix_search (by omega) hle (.inr heq)

/-- From five hits to ten a search keeps its hits, from ten to twenty it may not. -/
theorem search_prefix_iff_ten :
    (∀ t, ChunkRepository.Reachable t → ∀ query filters vector text,
      Rankings t query filters vector text → Complete t query filters vector text →
        search query vector text 5 <+: search query vector text 10) ∧
    ¬ ∀ t, ChunkRepository.Reachable t → ∀ query filters vector text,
      Rankings t query filters vector text → Complete t query filters vector text →
        search query vector text 10 <+: search query vector text 20 :=
  ⟨(search_prefix_iff (by decide) (by decide)).2 (by decide),
    fun h => absurd ((search_prefix_iff (by decide) (by decide)).1 h) (by decide)⟩

end PgVectorStore

end Ipa
