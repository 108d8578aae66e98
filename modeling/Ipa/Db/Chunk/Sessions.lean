import Ipa.Db.Chunk.Upsert
import Ipa.Db.Vector.Refresh
import Ipa.Lib.RowCalls
import Ipa.Lib.Since
import Mathlib.Data.Finset.Card

/-!
# Sessions that write chunks

`upsert`, `delete_document` and `refresh_metadata` of any number of sessions, row by row under READ
COMMITTED (`ChunkSessions`).  A statement on several rows is several steps of its session.

* `chunk_row`: what a session sees under a key, from the commands on it since the last delete alone.
* `chunk_count`: what `count` returns.
* `delete_document_leaves`: what is left of a document once its deletion has been committed.
-/

namespace Ipa

open Listing ReadCommitted Transition

/-- What is stored under a key: a row, or what a deletion leaves of it. -/
inductive ChunkSlot
  | stored (row : Chunk)
  | deleted (key : ChunkKey)

namespace ChunkSlot

/-- The key of a slot. -/
def key : ChunkSlot → ChunkKey
  | stored row => row.key
  | deleted key => key

/-- The row, if it is there. -/
def row? : ChunkSlot → Option Chunk
  | stored row => some row
  | deleted _ => none

/-- The primary key of a row, which a deleted row has given up. -/
def index : ChunkSlot → UUID ⊕ ChunkKey
  | stored row => .inl row.id
  | deleted key => .inr key

end ChunkSlot

/-- What a statement does to one row: the chunk at the position `i` of an `upsert`, `refresh_metadata`
with the row it has read, and `delete_document`.  An `upsert` that is not sent, or is refused for its size,
does nothing to any row. -/
inductive ChunkCommand
  | upsert (env : ChunkEnv) (i : ℕ) (chunk : ChunkVector)
  | refresh (row : TagRow)
  | delete

namespace ChunkRepository

/-- What a statement does with the row of the key `k`; it finds none where nothing is stored. -/
def onRow (k : ChunkKey) : ChunkCommand → Option ChunkSlot → Outcome ChunkSlot DbError
  | .upsert env i chunk, slot =>
    if chunk.key ≠ k then .miss
    else match raises env chunk with
      | some e => .raise e
      | none => .write (.stored (written (slot.bind ChunkSlot.row?) (newRow env i chunk)))
  | .refresh row, some (.stored chunk) => .write (.stored (PgVectorStore.refreshChunk row chunk))
  | .delete, some (.stored _) => .write (.deleted k)
  | _, _ => .miss

/-- The statements, row by row; the other unique column is the primary key. -/
def statements : Statements ChunkKey ChunkSlot ChunkCommand (UUID ⊕ ChunkKey) DbError where
  onRow := onRow
  index := ChunkSlot.index
  clash _ _ := .uniqueViolation
  foreign _ _ _ := none

end ChunkRepository

/-- The rows of the table. -/
structure ChunkSlots extends Table ChunkSlot.key where
  nodup_index : (rows.map ChunkSlot.index).Nodup

/-- Sessions on the table. -/
abbrev ChunkSessions (T : Type*) := RowSessions T ChunkKey ChunkSlot ChunkCommand

/-- Their events. -/
abbrev ChunkEvent (T : Type*) := RowEvent T ChunkKey ChunkSlot ChunkCommand DbError

namespace ChunkSessions

variable {T : Type*} [DecidableEq T]

/-- The events `tr` lead from the rows of `table` to the state `s`. -/
abbrev Reached (table : ChunkSlots) (tr : List (ChunkEvent T)) (s : ChunkSessions T) : Prop :=
  Run (RowSessions.Step ChunkRepository.statements) (RowSessions.init table.toTable) tr s

/-- The row that a session sees under a key. -/
def get (s : ChunkSessions T) (t : T) (k : ChunkKey) : Option Chunk :=
  (s.visible t k).bind ChunkSlot.row?

/-- `count`. -/
def count (s : ChunkSessions T) (t : T) (documentId : UUID) : ℕ :=
  (((s.select t).filterMap ChunkSlot.row?).filter fun row => row.documentId = documentId).length

end ChunkSessions

/-! ## The commands since the last delete -/

namespace ChunkCommand

/-- The command removes the row. -/
def isDelete : ChunkCommand → Bool
  | delete => true
  | _ => false

/-- The command leaves no refresh before it in effect. -/
def isWrite : ChunkCommand → Bool
  | refresh _ => false
  | _ => true

/-- The row of the statement's `VALUES`. -/
def excluded : ChunkCommand → Option Chunk
  | upsert env i chunk => some (ChunkRepository.newRow env i chunk)
  | _ => none

/-- The row of a refresh. -/
def refreshed : ChunkCommand → Option TagRow
  | refresh row => some row
  | _ => none

/-- The rows that have been written under a key since the last delete, oldest first. -/
def contents (first : Option Chunk) (commands : List ChunkCommand) : List Chunk :=
  (if commands.any isDelete then [] else first.toList) ++ since isDelete excluded commands

/-- The refreshes after the last row that has been written. -/
def refreshes (commands : List ChunkCommand) : List TagRow := since isWrite refreshed commands

/-- The metadata after the refreshes, one after another. -/
def merged (metadata : JsonObject) (rows : List TagRow) : JsonObject :=
  rows.foldl (fun metadata row => metadata.merge (PgVectorStore.denorm row)) metadata

/-- The oldest row that is left, with the content of the newest one and the metadata that the refreshes
since then have made of it. -/
def shown (first : Option Chunk) (commands : List ChunkCommand) : Option Chunk := do
  let inserted ← (contents first commands).head?
  let last ← (contents first commands).getLast?
  return (refreshes commands).foldl (fun chunk row => PgVectorStore.refreshChunk row chunk)
    (ChunkRepository.replace inserted last)

variable {first : Option Chunk} {commands : List ChunkCommand}

theorem shown_nil (first : Option Chunk) : shown first [] = first := by
  cases first <;> rfl

theorem contents_delete : contents first (commands ++ [delete]) = [] := by
  rw [contents, since_snoc_of_reset _ rfl]
  simp [isDelete]

theorem contents_refresh (row : TagRow) :
    contents first (commands ++ [refresh row]) = contents first commands := by
  rw [contents, since_snoc_of_none _ rfl rfl, contents]
  simp [isDelete]

theorem contents_upsert (env : ChunkEnv) (i : ℕ) (chunk : ChunkVector) :
    contents first (commands ++ [upsert env i chunk]) =
      contents first commands ++ [ChunkRepository.newRow env i chunk] := by
  have hsince : since isDelete excluded (commands ++ [upsert env i chunk]) =
      since isDelete excluded commands ++ [ChunkRepository.newRow env i chunk] :=
    since_snoc_of_some _ rfl rfl
  rw [contents, hsince, contents]
  simp [isDelete]

theorem refreshes_refresh (row : TagRow) :
    refreshes (commands ++ [refresh row]) = refreshes commands ++ [row] :=
  since_snoc_of_some commands rfl rfl

theorem refreshes_upsert (env : ChunkEnv) (i : ℕ) (chunk : ChunkVector) :
    refreshes (commands ++ [upsert env i chunk]) = [] :=
  since_snoc_of_reset commands rfl

theorem shown_eq_none_iff : shown first commands = none ↔ contents first commands = [] := by
  unfold shown
  cases contents first commands with
  | nil => simp
  | cons inserted later => simp [List.getLast?_cons]

theorem shown_refresh (row : TagRow) : shown first (commands ++ [refresh row]) =
    (shown first commands).map (PgVectorStore.refreshChunk row) := by
  simp only [shown, contents_refresh, refreshes_refresh, List.foldl_append, List.foldl_cons,
    List.foldl_nil]
  cases (contents first commands).head? with
  | none => rfl
  | some inserted => cases (contents first commands).getLast? <;> rfl

theorem foldl_refreshChunk (rows : List TagRow) (chunk : Chunk) :
    rows.foldl (fun chunk row => PgVectorStore.refreshChunk row chunk) chunk =
      { chunk with metadata := merged chunk.metadata rows } := by
  induction rows generalizing chunk with
  | nil => rfl
  | cons row rows ih => exact ih (PgVectorStore.refreshChunk row chunk)

/-- A refresh changes nothing but the metadata, which the next upsert replaces. -/
theorem replace_refreshes (rows : List TagRow) (chunk excluded : Chunk) :
    ChunkRepository.replace (rows.foldl (fun chunk row => PgVectorStore.refreshChunk row chunk) chunk)
      excluded = ChunkRepository.replace chunk excluded := by
  rw [foldl_refreshChunk]
  rfl

theorem shown_upsert (env : ChunkEnv) (i : ℕ) (chunk : ChunkVector) :
    shown first (commands ++ [upsert env i chunk]) =
      some (ChunkRepository.written (shown first commands) (ChunkRepository.newRow env i chunk)) := by
  simp only [shown, contents_upsert, refreshes_upsert, List.foldl_nil]
  cases contents first commands with
  | nil => rfl
  | cons inserted later =>
    simp only [List.cons_append, List.head?_cons, Option.bind_eq_bind, Option.bind_some, Option.pure_def,
      List.getLast?_cons, Option.some.injEq]
    rw [ChunkRepository.written, replace_refreshes, List.getLast?_concat]
    rfl

end ChunkCommand

namespace ChunkSessions

variable {T : Type*} [DecidableEq T] {table : ChunkSlots} {s s' s'' : ChunkSessions T}
  {tr tr' : List (ChunkEvent T)} {t : T} {k : ChunkKey} {documentId : UUID}

theorem inv_of_reached (h : Reached table tr s) :
    RowSessions.Inv ChunkRepository.statements table.lookup tr s :=
  RowSessions.inv_run table.nodup_index h

/-- The session comes to the row of a key with a `DELETE`, and finds it or not. -/
def DeleteOf (t : T) (k : ChunkKey) : ChunkEvent T → Prop
  | .write t' k' .delete _ | .miss t' k' .delete => t' = t ∧ k' = k
  | _ => False

/-- A session runs `delete_document` from the state `s` on, with steps of other sessions in between: it
comes to every row of the document that it sees at the start. -/
structure DeletesDocument (s : ChunkSessions T) (t : T) (documentId : UUID) (tr : List (ChunkEvent T)) :
    Prop where
  own : ∀ e ∈ tr, e.session = t → ∃ k, k.documentId = documentId ∧ DeleteOf t k e
  all : ∀ k, k.documentId = documentId → (s.get t k).isSome → ∃ e ∈ tr, DeleteOf t k e

/-! ### A session writes while another one deletes -/

/-- The chunk at a position of the document. -/
def sampleChunk (i : ℕ) (text : String) : ChunkVector :=
  ⟨⟨7⟩, i, text, [some 1], "m", none, none, [], ChunkVector.neg_one_le i, ChunkVector.no_pages⟩

/-- Write the chunk at a position, with the drawn identifier. -/
def sampleUpsert (drawn i : ℕ) (text : String) : ChunkCommand :=
  .upsert (ChunkRepository.testEnv drawn) drawn (sampleChunk i text)

/-- The key of the chunk at a position. -/
def sampleKey (i : ℕ) : ChunkKey := ⟨⟨7⟩, i, "m"⟩

/-- The row that the document has a tag in. -/
def sampleTag : TagRow := ⟨some ⟨3⟩, .processing, some "invoice"⟩

/-- No chunks. -/
def noChunks : ChunkSlots := ⟨Table.empty _, List.nodup_nil⟩

/-- Two chunks are written; then the first one is written again and refreshed, and the second deleted. -/
def sampleCalls : List (RowCall Bool ChunkKey ChunkCommand) :=
  [.statement true (sampleKey 0) (sampleUpsert 0 0 "Invoice"),
    .statement true (sampleKey 1) (sampleUpsert 1 1 "Total"), .commit true,
    .statement true (sampleKey 0) (sampleUpsert 2 0 "Receipt"),
    .statement true (sampleKey 0) (.refresh sampleTag), .statement true (sampleKey 1) .delete,
    .commit true]

theorem isSome_sampleCalls :
    ((RowSessions.init noChunks.toTable).play ChunkRepository.statements sampleCalls).isSome := by
  decide +kernel

/-- The events of the calls, and where they lead. -/
def samplePlayed : List (ChunkEvent Bool) × ChunkSessions Bool :=
  ((RowSessions.init noChunks.toTable).play ChunkRepository.statements sampleCalls).get isSome_sampleCalls

theorem reached_sample : Reached noChunks samplePlayed.1 samplePlayed.2 :=
  RowSessions.exists_run_play noChunks.nodup_index isSome_sampleCalls

/-- The deletion of the first chunk, and a session that writes the second one again. -/
def sampleDeletion : List (RowCall Bool ChunkKey ChunkCommand) :=
  [.statement false (sampleKey 0) .delete, .statement true (sampleKey 1) (sampleUpsert 3 1 "Total"),
    .commit true]

theorem isSome_sampleDeletion :
    (samplePlayed.2.play ChunkRepository.statements sampleDeletion).isSome := by
  decide +kernel

/-- The events of the deletion, and where they lead. -/
def sampleDeleted : List (ChunkEvent Bool) × ChunkSessions Bool :=
  (samplePlayed.2.play ChunkRepository.statements sampleDeletion).get isSome_sampleDeletion

theorem run_sampleDeleted :
    Run (RowSessions.Step ChunkRepository.statements) samplePlayed.2 sampleDeleted.1 sampleDeleted.2 :=
  RowSessions.run_play (inv_of_reached reached_sample) (Option.some_get isSome_sampleDeletion).symm

theorem deletesDocument_sample : DeletesDocument samplePlayed.2 false ⟨7⟩ sampleDeleted.1 := by
  constructor
  · intro e he hsession
    rcases List.mem_cons.1 he with rfl | he
    · exact ⟨sampleKey 0, rfl, rfl, rfl⟩
    · rcases List.mem_pair.1 he with rfl | rfl <;> cases hsession
  · intro k _ hsome
    obtain ⟨row, hrow⟩ := Option.isSome_iff_exists.1 hsome
    obtain ⟨slot, hslot, hstored⟩ := Option.bind_eq_some_iff.1 hrow
    have hmem := (inv_of_reached reached_sample).keys k slot (Cell.version_of_visible hslot)
    rcases List.mem_pair.1 hmem with rfl | rfl
    · cases hrow
    · exact ⟨_, List.mem_cons_self, rfl, rfl⟩

/-- A statement that writes writes the row that its command says, under the key. -/
theorem row?_of_onRow {u : ChunkCommand} {slot : Option ChunkSlot} {slot' : ChunkSlot}
    {first : Option Chunk} {commands : List ChunkCommand}
    (hslot : slot.bind ChunkSlot.row? = ChunkCommand.shown first commands)
    (h : ChunkRepository.onRow k u slot = .write slot') :
    slot'.row? = ChunkCommand.shown first (commands ++ [u]) := by
  cases u with
  | upsert env i chunk =>
    rw [ChunkRepository.onRow] at h
    split_ifs at h
    split at h
    · cases h
    · obtain rfl := Outcome.write.inj h
      rw [ChunkCommand.shown_upsert, hslot]
      rfl
  | refresh row =>
    rw [ChunkCommand.shown_refresh, ← hslot]
    match slot, h with
    | some (.stored chunk), h =>
      obtain rfl := Outcome.write.inj h
      rfl
  | delete =>
    rw [ChunkCommand.shown_eq_none_iff.2 ChunkCommand.contents_delete]
    match slot, h with
    | some (.stored chunk), h =>
      obtain rfl := Outcome.write.inj h
      rfl

theorem shown_of_chain {slot : Option ChunkSlot} {entries : List (ChunkCommand × ChunkSlot)}
    (h : Chain (ChunkRepository.onRow k) slot entries) :
    (leaves slot entries).bind ChunkSlot.row? =
      ChunkCommand.shown (slot.bind ChunkSlot.row?) (entries.map Prod.fst) := by
  induction entries using List.reverseRecOn with
  | nil => exact (ChunkCommand.shown_nil _).symm
  | append_singleton entries e ih =>
    obtain ⟨u, slot'⟩ := e
    rw [chain_snoc] at h
    rw [leaves_append, leaves_cons, leaves_nil, List.map_append, List.map_singleton]
    exact row?_of_onRow (ih h.1) h.2

/-- The commands on a key that a session sees: the committed ones and then its own. -/
def commands (tr : List (ChunkEvent T)) (s : ChunkSessions T) (t : T) (k : ChunkKey) : List ChunkCommand :=
  (RowSessions.history tr s t k).map Prod.fst

theorem get_eq_shown (h : Reached table tr s) (t : T) (k : ChunkKey) :
    s.get t k = ChunkCommand.shown ((table.lookup k).bind ChunkSlot.row?) (commands tr s t k) := by
  obtain ⟨hchain, hvisible⟩ := (inv_of_reached h).chain_visible t k
  rw [get, hvisible]
  exact shown_of_chain hchain

theorem get_eq_none_iff (h : Reached table tr s) (t : T) (k : ChunkKey) : s.get t k = none ↔
    ChunkCommand.contents ((table.lookup k).bind ChunkSlot.row?) (commands tr s t k) = [] := by
  rw [get_eq_shown h, ChunkCommand.shown_eq_none_iff]

/-- Under a key a session sees a row exactly when one has been written since the last delete.  It has the
identifier and the time of creation of the first of these rows, the content of the last one, and its
metadata with the refreshes after it, in the order of the commits. -/
theorem chunk_row (h : Reached table tr s) (t : T) (k : ChunkKey) :
    let contents := ChunkCommand.contents ((table.lookup k).bind ChunkSlot.row?) (commands tr s t k)
    (s.get t k = none ↔ contents = []) ∧
    ∀ row, s.get t k = some row → ∃ inserted last, contents.head? = some inserted ∧
      contents.getLast? = some last ∧ row =
        { ChunkRepository.replace inserted last with
          metadata := ChunkCommand.merged last.metadata (ChunkCommand.refreshes (commands tr s t k)) } := by
  intro contents
  refine ⟨get_eq_none_iff h t k, fun row hrow => ?_⟩
  rw [get_eq_shown h] at hrow
  obtain ⟨inserted, hinserted, hrow⟩ := Option.bind_eq_some_iff.1 hrow
  obtain ⟨last, hlast, hrow⟩ := Option.bind_eq_some_iff.1 hrow
  refine ⟨inserted, last, hinserted, hlast, ?_⟩
  rw [← Option.some.inj hrow, ChunkCommand.foldl_refreshChunk]
  rfl

theorem chunk_row_sample : ∃ (tr : List (ChunkEvent Bool)) (s : ChunkSessions Bool), Reached noChunks tr s ∧
    ∃ row inserted last, s.get false (sampleKey 0) = some row ∧
      ChunkCommand.contents none (commands tr s false (sampleKey 0)) = [inserted, last] ∧
      ChunkCommand.refreshes (commands tr s false (sampleKey 0)) = [sampleTag] ∧
      row = { ChunkRepository.replace inserted last with
        metadata := ChunkCommand.merged last.metadata [sampleTag] } := by
  obtain ⟨row, hrow⟩ : ∃ row, samplePlayed.2.get false (sampleKey 0) = some row := ⟨_, rfl⟩
  obtain ⟨inserted, last, hcontents⟩ : ∃ inserted last, ChunkCommand.contents none
      (commands samplePlayed.1 samplePlayed.2 false (sampleKey 0)) = [inserted, last] := ⟨_, _, rfl⟩
  have hrefreshes : ChunkCommand.refreshes
      (commands samplePlayed.1 samplePlayed.2 false (sampleKey 0)) = [sampleTag] := rfl
  obtain ⟨inserted', last', hinserted, hlast, heq⟩ :=
    (chunk_row reached_sample false (sampleKey 0)).2 row hrow
  have hempty : (noChunks.lookup (sampleKey 0)).bind ChunkSlot.row? = none := rfl
  rw [hempty, hcontents] at hinserted hlast
  obtain rfl := Option.some.inj hinserted
  obtain rfl := Option.some.inj hlast
  rw [hrefreshes] at heq
  exact ⟨_, _, reached_sample, row, inserted, last, hrow, hcontents, hrefreshes, heq⟩

/-! ### Counting -/

theorem key_of_visible (h : Reached table tr s) {t : T} {slot : ChunkSlot} (hslot : s.visible t k = some slot) :
    slot.key = k := by
  refine (inv_of_reached h).visible_inv (P := fun slot => slot.key = k) t k ?_ ?_ slot hslot
  · exact fun v hv => table.key_of_lookup hv
  · intro u v v' hv hwrite
    cases u with
    | upsert env i chunk =>
      change ChunkRepository.onRow k (.upsert env i chunk) v = .write v' at hwrite
      rw [ChunkRepository.onRow] at hwrite
      split_ifs at hwrite with hkey
      rw [not_not] at hkey
      split at hwrite
      · cases hwrite
      · obtain rfl := Outcome.write.inj hwrite
        match v, hv with
        | none, _ => exact hkey
        | some (.deleted _), _ => exact hkey
        | some (.stored row), hv => exact hv (.stored row) rfl
    | refresh row =>
      match v, hv, hwrite with
      | some (.stored chunk), hv, hwrite =>
        obtain rfl := Outcome.write.inj hwrite
        exact hv (.stored chunk) rfl
    | delete =>
      match v, hwrite with
      | some (.stored chunk), hwrite =>
        obtain rfl := Outcome.write.inj hwrite
        rfl

theorem key_of_get (h : Reached table tr s) {row : Chunk} (hrow : s.get t k = some row) : row.key = k := by
  obtain ⟨slot, hslot, hrow⟩ := Option.bind_eq_some_iff.1 hrow
  cases slot with
  | stored row' =>
    obtain rfl := Option.some.inj hrow
    exact key_of_visible h hslot
  | deleted => cases hrow

/-- `count` counts the keys of the document, of all embedding models, that have been written since their
last deletion. -/
theorem chunk_count (h : Reached table tr s) (t : T) (documentId : UUID) :
    ∃ keys : Finset ChunkKey, s.count t documentId = keys.card ∧ ∀ k, k ∈ keys ↔
      k.documentId = documentId ∧
        ChunkCommand.contents ((table.lookup k).bind ChunkSlot.row?) (commands tr s t k) ≠ [] := by
  have hinv := inv_of_reached h
  have hrow : ∀ k, ((s.get t k).map fun row => decide (row.documentId = documentId)).getD false =
      decide (k.documentId = documentId ∧ (s.get t k).isSome) := by
    intro k
    cases hget : s.get t k with
    | none => simp
    | some row => simp [← key_of_get h hget, Chunk.key]
  refine ⟨(s.keys.filter fun k => k.documentId = documentId ∧ (s.get t k).isSome).toFinset, ?_, ?_⟩
  · rw [List.toFinset_card_of_nodup (hinv.nodup.filter _), ← List.countP_eq_length_filter, count,
      ← List.countP_eq_length_filter, RowSessions.select, List.filterMap_filterMap, List.countP_filterMap]
    refine List.countP_congr fun k _ => ?_
    rw [← hrow k]
    rfl
  · intro k
    have hkey : (s.get t k).isSome → k ∈ s.keys := by
      intro hsome
      obtain ⟨row, hget⟩ := Option.isSome_iff_exists.1 hsome
      obtain ⟨slot, hslot, -⟩ := Option.bind_eq_some_iff.1 hget
      exact hinv.keys k slot (Cell.version_of_visible hslot)
    have hcontents := (get_eq_none_iff h t k).not
    rw [← ne_eq, ← Option.isSome_iff_ne_none] at hcontents
    rw [List.mem_toFinset, List.mem_filter, decide_eq_true_eq, ne_eq, ← hcontents]
    exact ⟨fun hk => hk.2, fun hk => ⟨hkey hk.2, hk⟩⟩

theorem chunk_count_sample : ∃ (tr : List (ChunkEvent Bool)) (s : ChunkSessions Bool),
    Reached noChunks tr s ∧ ∃ keys : Finset ChunkKey, s.count false ⟨7⟩ = keys.card ∧
      sampleKey 0 ∈ keys ∧ sampleKey 1 ∉ keys := by
  obtain ⟨keys, hcount, hkeys⟩ := chunk_count reached_sample false ⟨7⟩
  refine ⟨_, _, reached_sample, keys, hcount, (hkeys _).2 ⟨rfl, ?_⟩, fun hmem => ((hkeys _).1 hmem).2 ?_⟩
  · rw [Ne, ← get_eq_none_iff reached_sample]
    exact Option.some_ne_none _
  · rw [← get_eq_none_iff reached_sample]
    rfl

/-! ### Deleting a document -/

omit [DecidableEq T] in
theorem DeleteOf.cases {e : ChunkEvent T} (h : DeleteOf t k e) :
    (∃ slot, e = .write t k .delete slot) ∨ e = .miss t k .delete := by
  cases e with
  | write t' k' u slot =>
    cases u with
    | delete =>
      obtain ⟨rfl, rfl⟩ := h
      exact .inl ⟨slot, rfl⟩
    | upsert | refresh => exact h.elim
  | miss t' k' u =>
    cases u with
    | delete =>
      obtain ⟨rfl, rfl⟩ := h
      exact .inr rfl
    | upsert | refresh => exact h.elim
  | raise | commit | rollback => exact h.elim

theorem DeletesDocument.not_ends (h : DeletesDocument s t documentId tr') :
    ∀ e ∈ tr', ¬ RowSessions.Ends t e := by
  intro e he hends
  have hsession : e.session = t := by
    cases e with
    | commit | rollback => exact hends
    | write | miss | raise => cases hends
  obtain ⟨k, -, hdelete⟩ := h.own e he hsession
  obtain ⟨slot, rfl⟩ | rfl := hdelete.cases
  · exact hends
  · exact hends

theorem DeletesDocument.eq_delete (h : DeletesDocument s t documentId tr') {u : ChunkCommand}
    (hu : u ∈ (tr'.flatMap (RowSessions.writtenBy t k)).map Prod.fst) : u = .delete := by
  obtain ⟨⟨u, slot⟩, hentry, rfl⟩ := List.mem_map.1 hu
  obtain ⟨e, he, hentry⟩ := List.mem_flatMap.1 hentry
  cases e with
  | write t' k' u' slot' =>
    rw [RowSessions.writtenBy] at hentry
    split_ifs at hentry with hkey
    · cases List.mem_singleton.1 hentry
      obtain ⟨k'', -, hdelete⟩ := h.own _ he hkey.1
      obtain ⟨_, heq⟩ | heq := hdelete.cases
      · cases heq
        rfl
      · cases heq
    · cases hentry
  | miss | raise | commit | rollback => cases hentry

/-- While nothing on the key is committed, a session sees its own commands after the ones before. -/
theorem commands_append (hrun : Run (RowSessions.Step ChunkRepository.statements) s tr' s')
    (hends : ∀ e ∈ tr', ¬ RowSessions.Ends t e) (hlog : RowSessions.log tr' k = []) :
    commands (tr ++ tr') s' t k =
      commands tr s t k ++ (tr'.flatMap (RowSessions.writtenBy t k)).map Prod.fst := by
  rw [commands, commands, RowSessions.history, RowSessions.history, RowSessions.log_append, hlog,
    List.append_nil, RowSessions.openEntries_run hrun hends, ← List.append_assoc, List.map_append]

/-- A session that comes to all rows of the document sees none of them, unless another one commits in
between. -/
theorem DeletesDocument.get_eq_none (hdelete : DeletesDocument s t documentId tr') (h : Reached table tr s)
    (hrun : Run (RowSessions.Step ChunkRepository.statements) s tr' s')
    (hlog : ∀ e ∈ tr', RowSessions.committedBy k e = []) (hk : k.documentId = documentId) :
    s'.get t k = none := by
  have hshown : ∀ {tr₁} {m : ChunkSessions T}, Run (RowSessions.Step ChunkRepository.statements) s tr₁ m →
      (∀ e ∈ tr₁, e ∈ tr') → m.get t k = ChunkCommand.shown ((table.lookup k).bind ChunkSlot.row?)
        (commands tr s t k ++ (tr₁.flatMap (RowSessions.writtenBy t k)).map Prod.fst) := by
    intro tr₁ m hrun₁ hsub
    rw [get_eq_shown (Run.append_iff.2 ⟨s, h, hrun₁⟩), commands_append hrun₁
      (fun e he => hdelete.not_ends e (hsub e he)) (List.flatMap_eq_nil_iff.2 fun e he => hlog e (hsub e he))]
  rcases List.eq_nil_or_concat ((tr'.flatMap (RowSessions.writtenBy t k)).map Prod.fst) with
    hnil | ⟨deletes, u, hdeletes⟩
  · rw [List.map_eq_nil_iff, List.flatMap_eq_nil_iff] at hnil
    have hstart : ∀ {tr₁} {m : ChunkSessions T}, Run (RowSessions.Step ChunkRepository.statements) s tr₁ m →
        (∀ e ∈ tr₁, e ∈ tr') → m.get t k = s.get t k := by
      intro tr₁ m hrun₁ hsub
      rw [hshown hrun₁ hsub, hshown .nil fun _ he => absurd he List.not_mem_nil,
        List.flatMap_eq_nil_iff.2 fun e he => hnil e (hsub e he)]
      rfl
    rw [hstart hrun fun _ he => he, ← Option.not_isSome_iff_eq_none]
    intro hsome
    obtain ⟨e, he, hof⟩ := hdelete.all k hk hsome
    obtain ⟨slot, rfl⟩ | rfl := hof.cases
    · have hwritten := hnil _ he
      rw [RowSessions.writtenBy, if_pos ⟨rfl, rfl⟩] at hwritten
      cases hwritten
    · obtain ⟨tr₁, tr₂, m, m', heq, hrun₁, hstep, -⟩ := hrun.exists_step_of_mem he
      have hsub : ∀ e ∈ tr₁, e ∈ tr' := by
        intro e he₁
        rw [heq]
        exact List.mem_append_left _ he₁
      obtain ⟨row, hrow⟩ := Option.isSome_iff_exists.1 hsome
      obtain ⟨slot, hslot, hslotRow⟩ := Option.bind_eq_some_iff.1 ((hstart hrun₁ hsub).trans hrow)
      cases hstep with
      | miss hactive hmiss =>
        cases slot with
        | stored row' =>
          rw [hslot] at hmiss
          cases hmiss
        | deleted => cases hslotRow
  · have hlast : u = .delete :=
      hdelete.eq_delete (k := k) (by
        rw [hdeletes, List.concat_eq_append]
        exact List.mem_concat_self)
    rw [hshown hrun fun _ he => he, hdeletes, hlast, List.concat_eq_append, ← List.append_assoc,
      ChunkCommand.shown_eq_none_iff.2 ChunkCommand.contents_delete]

/-- What is left of the document when a deletion is committed, another session has committed while the
statement ran. -/
theorem delete_document_leaves (h : Reached table tr s)
    (hrun : Run (RowSessions.Step ChunkRepository.statements) s tr' s')
    (hdelete : DeletesDocument s t documentId tr') {writes : List (ChunkKey × ChunkCommand × ChunkSlot)}
    (hcommit : RowSessions.Step ChunkRepository.statements s' (.commit t writes) s'') {row : Chunk}
    (hrow : (s''.cell k).committed = some (.stored row)) (hk : k.documentId = documentId) :
    ∃ t' writes', t' ≠ t ∧ RowEvent.commit t' writes' ∈ tr' ∧ entriesOf k writes' ≠ [] := by
  by_contra hnone
  have hlog : ∀ e ∈ tr', RowSessions.committedBy k e = [] := by
    intro e he
    cases e with
    | commit t' writes' =>
      by_contra hne
      have hother : t' ≠ t := fun heq => hdelete.not_ends _ he heq
      exact hnone ⟨t', writes', hother, he, hne⟩
    | write | miss | raise | rollback => rfl
  cases hcommit with
  | commit =>
    rw [Store.committed_commit_eq] at hrow
    have hget : s'.get t k = some row := congrArg (·.bind ChunkSlot.row?) hrow
    rw [hdelete.get_eq_none h hrun hlog hk] at hget
    cases hget

theorem delete_document_leaves_sample : ∃ t' writes', t' ≠ false ∧
    RowEvent.commit t' writes' ∈ sampleDeleted.1 ∧ entriesOf (sampleKey 1) writes' ≠ [] := by
  have hcommit : RowSessions.Step ChunkRepository.statements sampleDeleted.2
      (.commit false [(sampleKey 0, .delete, .deleted (sampleKey 0))])
      ⟨sampleDeleted.2.keys, sampleDeleted.2.cell.commit false,
        Function.update sampleDeleted.2.phase false (.active [])⟩ := .commit rfl
  have hrow : (sampleDeleted.2.cell.commit false (sampleKey 1)).committed = some (.stored
      (ChunkRepository.newRow (ChunkRepository.testEnv 3) 3 (sampleChunk 1 "Total"))) := rfl
  exact delete_document_leaves reached_sample run_sampleDeleted deletesDocument_sample hcommit hrow rfl

end ChunkSessions

end Ipa
