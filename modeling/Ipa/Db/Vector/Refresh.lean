import Ipa.Db.Chunk.Model
import Ipa.Db.Document.Model
import Ipa.Lib.ReadCommitted
import Ipa.Lib.Run
import Mathlib.Data.List.Induction

/-!
# The copy of the document on its chunks

Chunks carry the tag and the status of their document in their metadata.  A client that patches the
document refreshes the copy afterwards: `refreshMetadata` reads the document in one statement
(`selectTag`) and writes the chunks in another one (`refreshChunk`).  `SyncClients.Step` runs any
number of clients, each a transaction with its patch followed by one with its refresh, statement by
statement and row by row under READ COMMITTED.
-/

namespace Ipa

open ReadCommitted Transition

/-! ## The statements -/

/-- The row that `refreshMetadata` reads. -/
structure TagRow where
  tagId : Option UUID
  status : DocumentStatus
  slug : Option String
deriving DecidableEq

namespace PgVectorStore

/-- The first statement; `tags` maps the existing tags to their slugs. -/
def selectTag (tags : UUID → Option String) (document : Document) : TagRow :=
  ⟨document.tagId, document.status, document.tagId.bind tags⟩

/-- A text or null. -/
def textOrNull : Option String → Json
  | none => .null
  | some text => .str text

/-- The members that the second statement writes. -/
def denorm (row : TagRow) : JsonObject :=
  [("tag_id", textOrNull (row.tagId.map UUID.str)), ("tag_slug", textOrNull row.slug),
    ("document_status", .str row.status.value)]

/-- What the second statement does to a chunk of the document. -/
def refreshChunk (row : TagRow) (chunk : Chunk) : Chunk :=
  { chunk with metadata := chunk.metadata.merge (denorm row) }

/-- The metadata has the tag and the status of `row`. -/
def Carries (row : TagRow) (chunk : Chunk) : Prop :=
  ∀ k v, (denorm row).lookup k = some v → chunk.metadata.lookup k = some v

/-- The chunks differ in the members that a refresh writes at most. -/
def SameButDenorm (chunk chunk' : Chunk) : Prop :=
  { chunk' with metadata := chunk.metadata } = chunk ∧
    ∀ k ∉ ["tag_id", "tag_slug", "document_status"],
      chunk'.metadata.lookup k = chunk.metadata.lookup k

theorem textOrNull_injective : Function.Injective textOrNull := by
  intro a b h
  cases a <;> cases b <;> simp_all [textOrNull]

theorem lookup_denorm_eq_none_iff {row : TagRow} {k : String} :
    (denorm row).lookup k = none ↔ k ∉ ["tag_id", "tag_slug", "document_status"] := by
  simp [denorm]

theorem denorm_injective : Function.Injective denorm := by
  intro row row' h
  simp only [denorm, List.cons.injEq, Prod.mk.injEq, true_and, and_true, Json.str.injEq] at h
  obtain ⟨hid, hslug, hstatus⟩ := h
  have htag := Option.map_injective UUID.str_injective (textOrNull_injective hid)
  have hstatus' := DocumentStatus.value_injective hstatus
  cases row
  cases row'
  simp only [TagRow.mk.injEq]
  exact ⟨htag, hstatus', textOrNull_injective hslug⟩

theorem carries_refreshChunk (row : TagRow) (chunk : Chunk) : Carries row (refreshChunk row chunk) := by
  intro k v hk
  rw [refreshChunk, lookup_merge, hk]
  rfl

/-- A chunk carries one row only. -/
theorem Carries.unique {row row' : TagRow} {chunk : Chunk} (h : Carries row chunk)
    (h' : Carries row' chunk) : row = row' := by
  apply denorm_injective
  have hone : ∀ k v v', (denorm row).lookup k = some v → (denorm row').lookup k = some v' → v = v' :=
    fun k v v' hv hv' => Option.some.inj ((h k v hv).symm.trans (h' k v' hv'))
  have hid := hone "tag_id" _ _ rfl rfl
  have hslug := hone "tag_slug" _ _ rfl rfl
  have hstatus := hone "document_status" _ _ rfl rfl
  rw [denorm, denorm, hid, hslug, hstatus]

theorem SameButDenorm.refl (chunk : Chunk) : SameButDenorm chunk chunk := ⟨rfl, fun _ _ => rfl⟩

theorem SameButDenorm.refreshChunk {chunk chunk' : Chunk} (h : SameButDenorm chunk chunk')
    (row : TagRow) : SameButDenorm chunk (refreshChunk row chunk') := by
  refine ⟨h.1, fun k hk => ?_⟩
  rw [PgVectorStore.refreshChunk, lookup_merge, lookup_denorm_eq_none_iff.2 hk, Option.none_or]
  exact h.2 k hk

end PgVectorStore

/-! ## Clients -/

/-- Where a client stands: in the transaction of its patch up to `patched`, in that of its refresh
after it. -/
inductive SyncPhase
  | idle
  | loaded (documentId : UUID) (patch : DocumentPatch) (entity : Document)
  | flushed (documentId : UUID) (row : Option Document)
  | reloaded (documentId : UUID) (row : Option Document)
  | patched (documentId : UUID)
  | selected (documentId : UUID) (row : TagRow)
  | updating (documentId : UUID) (row : TagRow) (todo : List ChunkKey)
      (written : List (ChunkKey × Chunk))
  | done

/-- The row of the document that an open transaction has written. -/
def SyncPhase.documentWrites : SyncPhase → List (UUID × Document)
  | flushed d row | reloaded d row => row.toList.map (d, ·)
  | _ => []

/-- The chunks that an open transaction has written. -/
def SyncPhase.chunkWrites : SyncPhase → List (ChunkKey × Chunk)
  | updating _ _ _ written => written
  | _ => []

/-- The two tables, with the keys of the chunks, and the clients. -/
structure SyncClients (C : Type*) where
  index : List ChunkKey
  document : Store C UUID Document
  chunk : Store C ChunkKey Chunk
  phase : C → SyncPhase

/-- What clients do. -/
inductive SyncEvent (C : Type*)
  | load (c : C) (documentId : UUID) (patch : DocumentPatch)
  | flush (c : C)
  | reload (c : C) (dto : Document)
  | patched (c : C) (documentId : UUID) (row : Option Document)
  | abort (c : C)
  | select (c : C) (documentId : UUID) (row : Option TagRow)
  | update (c : C)
  | write (c : C) (k : ChunkKey)
  | refreshed (c : C) (documentId : UUID) (row : TagRow)
  | retry (c : C)

/-- The client has not begun, or both of its calls have returned. -/
def SyncPhase.Finished : SyncPhase → Prop
  | idle | done => True
  | _ => False

/-- The client runs the transaction of its patch. -/
def SyncPhase.Patching : SyncPhase → Prop
  | loaded _ _ _ | flushed _ _ | reloaded _ _ => True
  | _ => False

/-- The client runs the transaction of its refresh for `d`. -/
def SyncPhase.Refreshing (d : UUID) : SyncPhase → Prop
  | selected d' _ | updating d' _ _ _ => d' = d
  | _ => False

namespace SyncClients

open PgVectorStore

variable {C : Type*}

/-- The given rows, and clients that have not begun. -/
def init (documents : UUID → Option Document) (chunks : ChunkTable) : SyncClients C where
  index := chunks.rows.map Chunk.key
  document d := ⟨documents d, none⟩
  chunk k := ⟨chunks.lookup k, none⟩
  phase _ := .idle

/-- `patch` returns at once when there is no such document. -/
def afterLoad (documentId : UUID) (patch : DocumentPatch) : Option Document → SyncPhase
  | none => .patched documentId
  | some entity => .loaded documentId patch entity

/-- `refreshMetadata` returns at once when there is no such document. -/
def afterSelect (documentId : UUID) : Option TagRow → SyncPhase
  | none => .done
  | some row => .selected documentId row

variable [DecidableEq C] (tags : UUID → Option String)

/-- One statement of one client, or the end of its transaction. -/
inductive Step : SyncClients C → SyncEvent C → SyncClients C → Prop
  | load {s : SyncClients C} {c : C} {d : UUID} {patch : DocumentPatch}
      (hidle : s.phase c = .idle) :
      Step s (.load c d patch) ⟨s.index, s.document, s.chunk,
        Function.update s.phase c (afterLoad d patch ((s.document d).visible c))⟩
  | flush {s : SyncClients C} {c : C} {d : UUID} {patch : DocumentPatch} {entity row : Document}
      (now : Timestamp) (hloaded : s.phase c = .loaded d patch entity)
      (hchanges : patch.changesOf entity ≠ .empty) (hfree : (s.document d).writer = none)
      (hrow : (s.document d).committed = some row)
      (hok : (patch.changesOf entity).raises tags = none) :
      Step s (.flush c) ⟨s.index, s.document.write c d ((patch.changesOf entity).write now row),
        s.chunk,
        Function.update s.phase c (.flushed d (some ((patch.changesOf entity).write now row)))⟩
  /-- A flush without changes sends no statement. -/
  | flushNothing {s : SyncClients C} {c : C} {d : UUID} {patch : DocumentPatch} {entity : Document}
      (hloaded : s.phase c = .loaded d patch entity) (hchanges : patch.changesOf entity = .empty) :
      Step s (.flush c) ⟨s.index, s.document, s.chunk,
        Function.update s.phase c (.flushed d none)⟩
  | reload {s : SyncClients C} {c : C} {d : UUID} {row : Option Document} {dto : Document}
      (hflushed : s.phase c = .flushed d row) (hdto : (s.document d).visible c = some dto) :
      Step s (.reload c dto) ⟨s.index, s.document, s.chunk,
        Function.update s.phase c (.reloaded d row)⟩
  | patched {s : SyncClients C} {c : C} {d : UUID} {row : Option Document}
      (hreloaded : s.phase c = .reloaded d row) :
      Step s (.patched c d row) ⟨s.index, s.document.commit c, s.chunk,
        Function.update s.phase c (.patched d)⟩
  | abort {s : SyncClients C} {c : C} (hpatching : (s.phase c).Patching) :
      Step s (.abort c) ⟨s.index, s.document.rollback c, s.chunk, Function.update s.phase c .idle⟩
  | select {s : SyncClients C} {c : C} {d : UUID} {row : Option TagRow}
      (hpatched : s.phase c = .patched d)
      (hrow : row = ((s.document d).visible c).map (selectTag tags)) :
      Step s (.select c d row) ⟨s.index, s.document, s.chunk,
        Function.update s.phase c (afterSelect d row)⟩
  | update {s : SyncClients C} {c : C} {d : UUID} {row : TagRow}
      (hselected : s.phase c = .selected d row) :
      Step s (.update c) ⟨s.index, s.document, s.chunk, Function.update s.phase c
        (.updating d row (s.index.filter fun k => k.documentId = d) [])⟩
  | write {s : SyncClients C} {c : C} {d : UUID} {row : TagRow} {todo : List ChunkKey}
      {w : List (ChunkKey × Chunk)} {k : ChunkKey} {chunk : Chunk}
      (hupdating : s.phase c = .updating d row todo w) (htodo : k ∈ todo)
      (hfree : (s.chunk k).writer = none) (hchunk : (s.chunk k).committed = some chunk) :
      Step s (.write c k) ⟨s.index, s.document, s.chunk.write c k (refreshChunk row chunk),
        Function.update s.phase c
          (.updating d row (todo.erase k) (w ++ [(k, refreshChunk row chunk)]))⟩
  | refreshed {s : SyncClients C} {c : C} {d : UUID} {row : TagRow} {w : List (ChunkKey × Chunk)}
      (hupdating : s.phase c = .updating d row [] w) :
      Step s (.refreshed c d row) ⟨s.index, s.document, s.chunk.commit c,
        Function.update s.phase c .done⟩
  /-- An error, such as a deadlock between two refreshes, ends the transaction. -/
  | retry {s : SyncClients C} {c : C} {d : UUID} (hrefreshing : (s.phase c).Refreshing d) :
      Step s (.retry c) ⟨s.index, s.document, s.chunk.rollback c,
        Function.update s.phase c (.patched d)⟩

end SyncClients

end Ipa
