import Ipa.Db.Tag.Create
import Ipa.Lib.Listing
import Ipa.Lib.RowCalls
import Mathlib.Data.String.Basic

/-!
# Concurrent sessions on tags and their versions

Any number of sessions create tags, raise their version counters and record snapshots of them, each in
its own transactions (`TagSessions`).  A call of the repository is one statement on one row of `tags` or
`tag_versions`; the rows of `tag_fields`, and the entities that a session may keep of rows that it has
loaded, are left out.

* `bump_versions_consecutive`: the counter of a tag counts its committed bumps, which return the numbers
  one after another.
* `slug_lookup`: a slug leads to the one tag that has it up to the case of its letters, and the listing
  is strictly ordered.
* `snapshot_immutable`: a snapshot never changes once a session has committed it.
* `bumped_snapshot_recorded`: sessions that record what they have bumped never run into one another.
-/

namespace Ipa

open Listing ReadCommitted Transition

/-! ## The statements -/

/-- A row of `tag_versions`; the DTO that the repository returns has the same fields. -/
structure TagVersion where
  id : UUID
  tagId : UUID
  version : ℤ
  snapshot : JsonObject
  createdAt : Timestamp

/-- The primary key of `tags`, or the unique pair of `tag_versions`. -/
inductive TagKey
  | tag (id : UUID)
  | version (tagId : UUID) (version : ℤ)
deriving DecidableEq

/-- A row of one of the two tables. -/
inductive TagRecord
  | tag (row : Tag)
  | version (row : TagVersion)

/-- The key of a row. -/
def TagRecord.key : TagRecord → TagKey
  | tag row => .tag row.id
  | version row => .version row.tagId row.version

/-- The other unique columns: `slug`, of the type `citext`, and the primary key of `tag_versions`. -/
inductive TagIndex
  | slug (folded : String)
  | versionId (id : UUID)
deriving DecidableEq

/-- The value of a row in the other unique column. -/
def TagRecord.index (fold : String → String) : TagRecord → TagIndex
  | tag row => .slug (fold row.slug)
  | version row => .versionId row.id

/-- The calls that write.  `now` is the start of the transaction, and `uuid4` is drawn. -/
inductive TagCommand
  | create (env : TagEnv) (call : TagCall)
  | bumpVersion (now : Timestamp)
  | snapshot (uuid4 : UUID) (now : Timestamp) (snapshot : JsonObject)

namespace TagRepository

/-- The error that an integrity error of `create` becomes. -/
def slugConflict (call : TagCall) : IpaError := conflictError ("tag slug already exists: " ++ call.slug)

/-- The error that an integrity error of `snapshot` becomes. -/
def snapshotConflict (tagId : UUID) (version : ℤ) : IpaError :=
  conflictError ("tag " ++ tagId.str ++ " already has a version " ++ toString version ++ " snapshot")

/-- The row that `bump_version` writes. -/
def bump (now : Timestamp) (row : Tag) : Tag :=
  { row with version := row.version + 1, updatedAt := now }

/-- The row that `snapshot` inserts. -/
def newVersion (tagId : UUID) (version : ℤ) (uuid4 : UUID) (now : Timestamp) (snapshot : JsonObject) :
    TagVersion where
  id := uuid4
  tagId := tagId
  version := version
  snapshot := snapshot
  createdAt := now

/-- What the call does on the row of its key, if there is such a row. -/
def onRow : TagKey → TagCommand → Option TagRecord → Outcome TagRecord (IpaError ⊕ DbError)
  | .tag id, .create env call, row =>
    if call.autoApproveThreshold.any (10 ≤ |roundNumeric 3 ·|) then .raise (.inr .numericOutOfRange)
    else if row.isNone ∧ ∀ threshold ∈ call.autoApproveThreshold.map (roundNumeric 3),
        0 ≤ threshold ∧ threshold ≤ 1 then
      .write (.tag (newTag { env with uuid4 := id } call))
    else .raise (.inl (slugConflict call))
  | .tag _, .bumpVersion now, some (.tag row) =>
    if IsInt4 (row.version + 1) then .write (.tag (bump now row)) else .raise (.inr .integerOutOfRange)
  | .version tagId version, .snapshot uuid4 now snapshot, none =>
    if IsInt4 version then .write (.version (newVersion tagId version uuid4 now snapshot))
    else .raise (.inr .integerOutOfRange)
  | .version tagId version, .snapshot .., some _ => .raise (.inl (snapshotConflict tagId version))
  | _, _, _ => .miss

/-- The error of a statement that violates the other unique constraint. -/
def clash : TagKey → TagCommand → IpaError ⊕ DbError
  | .version tagId version, _ => .inl (snapshotConflict tagId version)
  | .tag _, .create _ call => .inl (slugConflict call)
  | .tag _, _ => .inr .uniqueViolation

/-- The error of a snapshot of a tag that its session does not see. -/
def foreign : TagKey → TagCommand → (TagKey → Option TagRecord) → Option (IpaError ⊕ DbError)
  | .version tagId version, _, visible =>
    if (visible (.tag tagId)).isNone then some (.inl (snapshotConflict tagId version)) else none
  | .tag _, _, _ => none

/-- The calls of the repository as statements. -/
def statements (fold : String → String) :
    Statements TagKey TagRecord TagCommand TagIndex (IpaError ⊕ DbError) where
  onRow := onRow
  index := TagRecord.index fold
  clash := clash
  foreign := foreign

end TagRepository

/-- The rows of the two tables. -/
structure TagStore (fold : String → String) extends Table TagRecord.key where
  nodup_index : (rows.map (TagRecord.index fold)).Nodup

/-- Sessions on the two tables. -/
abbrev TagSessions (T : Type*) := RowSessions T TagKey TagRecord TagCommand

/-- Their events. -/
abbrev TagEvent (T : Type*) := RowEvent T TagKey TagRecord TagCommand (IpaError ⊕ DbError)

namespace TagSessions

variable {T : Type*} [DecidableEq T]

/-- The events `tr` lead from the tables `store` to the state `s`. -/
abbrev Reached {fold : String → String} (store : TagStore fold) (tr : List (TagEvent T))
    (s : TagSessions T) : Prop :=
  Run (RowSessions.Step (TagRepository.statements fold)) (RowSessions.init store.toTable) tr s

/-! ### The queries -/

/-- The tags that a session sees. -/
def tags (s : TagSessions T) (t : T) : List Tag :=
  (s.select t).filterMap fun
    | .tag row => some row
    | .version _ => none

/-- `get`. -/
def get (s : TagSessions T) (t : T) (tagId : UUID) : Option Tag :=
  (s.visible t (.tag tagId)).bind fun
    | .tag row => some row
    | .version _ => none

/-- `get_by_slug`. -/
def getBySlug (fold : String → String) (s : TagSessions T) (t : T) (slug : String) :
    Except DbError (Option Tag) :=
  oneOrNone ((s.tags t).filter fun row => fold row.slug = fold slug)

/-- `list_tags`; `collate` gives the place of a folded slug in the order of the column. -/
def listTags {A : Type*} [LinearOrder A] (fold : String → String) (collate : String → A)
    (s : TagSessions T) (t : T) (includeInactive : Bool) : List Tag :=
  sortBy (fun row => collate (fold row.slug)) ((s.tags t).filter fun row => includeInactive || row.isActive)

/-- `get_version`. -/
def getVersion (s : TagSessions T) (t : T) (tagId : UUID) (version : ℤ) : Option TagVersion :=
  (s.visible t (.version tagId version)).bind fun
    | .version row => some row
    | .tag _ => none

/-! ### Sessions that record what they have bumped -/

/-- The last statement of the session on the tag has raised the counter to `version`, and the session
has not recorded a snapshot of it yet. -/
structure Bumped (s : TagSessions T) (t : T) (tagId : UUID) (version : ℤ) : Prop where
  last : ∃ now row, (s.openEntries t (.tag tagId)).getLast? = some (.bumpVersion now, .tag row) ∧
    row.version = version
  unrecorded : s.openEntries t (.version tagId version) = []

/-- A snapshot is taken of what its session has bumped, and the identifier that it draws is new. -/
def OfBumped (s : TagSessions T) : TagEvent T → Prop
  | .write t (.version tagId version) (.snapshot uuid4 _ _) _
  | .raise t (.version tagId version) (.snapshot uuid4 _ _) _ =>
    s.Bumped t tagId version ∧ ∀ k row, (s.cell k).Version (.version row) → row.id ≠ uuid4
  | _ => True

/-! ### Two sessions on one tag -/

/-- The identifier of the tag. -/
def sampleId : UUID := ⟨7⟩

/-- A creation with a slug. -/
def sampleCreate (slug : String) : TagCommand :=
  .create ⟨sampleId, fun _ => sampleId, 0⟩ ⟨slug, "Invoice", "", none, none, none, none, none⟩

/-- No tags. -/
def emptyStore : TagStore lowerText := ⟨Table.empty _, List.nodup_nil⟩

/-- A session creates the tag, bumps it and records it. -/
def sampleCalls : List (RowCall Bool TagKey TagCommand) :=
  [.statement true (.tag sampleId) (sampleCreate "Invoice"),
    .statement true (.tag sampleId) (.bumpVersion 1),
    .statement true (.version sampleId 2) (.snapshot ⟨8⟩ 1 []), .commit true]

theorem isSome_sampleCalls : ((RowSessions.init emptyStore.toTable).play
    (TagRepository.statements lowerText) sampleCalls).isSome := by
  decide +kernel

/-- The events of the calls, and where they lead. -/
def samplePlayed : List (TagEvent Bool) × TagSessions Bool :=
  ((RowSessions.init emptyStore.toTable).play (TagRepository.statements lowerText) sampleCalls).get
    isSome_sampleCalls

theorem reached_samplePlayed : Reached emptyStore samplePlayed.1 samplePlayed.2 :=
  RowSessions.exists_run_play emptyStore.nodup_index isSome_sampleCalls

/-- Another session fails to create a tag with this slug in other letters and to record the version
again, and bumps the tag once more. -/
def laterCalls : List (RowCall Bool TagKey TagCommand) :=
  [.statement false (.tag ⟨9⟩) (sampleCreate "INVOICE"), .rollback false,
    .statement false (.version sampleId 2) (.snapshot ⟨10⟩ 2 [("fields", .null)]), .rollback false,
    .statement false (.tag sampleId) (.bumpVersion 2), .commit false]

theorem isSome_laterCalls :
    (samplePlayed.2.play (TagRepository.statements lowerText) laterCalls).isSome := by
  decide +kernel

/-- The events of these calls, and where they lead. -/
def laterPlayed : List (TagEvent Bool) × TagSessions Bool :=
  (samplePlayed.2.play (TagRepository.statements lowerText) laterCalls).get isSome_laterCalls

theorem run_laterPlayed : Run (RowSessions.Step (TagRepository.statements lowerText)) samplePlayed.2
    laterPlayed.1 laterPlayed.2 :=
  RowSessions.run_play (RowSessions.inv_run emptyStore.nodup_index reached_samplePlayed)
    (Option.some_get isSome_laterCalls).symm

theorem reached_laterPlayed : Reached emptyStore (samplePlayed.1 ++ laterPlayed.1) laterPlayed.2 :=
  Run.append_iff.2 ⟨_, reached_samplePlayed, run_laterPlayed⟩

/-! ## What a call writes -/

variable {fold : String → String} {store : TagStore fold} {s s' : TagSessions T}
  {tr tr' : List (TagEvent T)} {t : T} {k : TagKey} {u : TagCommand} {v v' : TagRecord}
  {id tagId : UUID} {version : ℤ} {entries : List (TagCommand × TagRecord)} {row : Tag}

/-- A call that writes creates a tag, raises the counter of one, or inserts a snapshot. -/
inductive Writes : TagKey → TagCommand → Option TagRecord → TagRecord → Prop
  | create (id : UUID) (env : TagEnv) (call : TagCall) :
    Writes (.tag id) (.create env call) none (.tag (TagRepository.newTag { env with uuid4 := id } call))
  | bumpVersion (id : UUID) (now : Timestamp) (row : Tag) (h : IsInt4 (row.version + 1)) :
    Writes (.tag id) (.bumpVersion now) (some (.tag row)) (.tag (TagRepository.bump now row))
  | snapshot (tagId : UUID) (version : ℤ) (uuid4 : UUID) (now : Timestamp) (snapshot : JsonObject)
      (h : IsInt4 version) :
    Writes (.version tagId version) (.snapshot uuid4 now snapshot) none
      (.version (TagRepository.newVersion tagId version uuid4 now snapshot))

theorem writes_of_onRow {v : Option TagRecord} (h : TagRepository.onRow k u v = .write v') :
    Writes k u v v' := by
  unfold TagRepository.onRow at h
  split at h
  · split_ifs at h with hoverflow hfree
    obtain rfl := Outcome.write.inj h
    rw [Option.isNone_iff_eq_none.1 hfree.1]
    exact .create ..
  · split_ifs at h with hrange
    obtain rfl := Outcome.write.inj h
    exact .bumpVersion _ _ _ hrange
  · split_ifs at h with hrange
    obtain rfl := Outcome.write.inj h
    exact .snapshot _ _ _ _ _ hrange
  · cases h
  · cases h

theorem inv_of_reached (h : Reached store tr s) :
    RowSessions.Inv (TagRepository.statements fold) store.lookup tr s :=
  RowSessions.inv_run store.nodup_index h

/-- A row stands under its key. -/
theorem key_of_visible (h : Reached store tr s) (hv : s.visible t k = some v) : v.key = k := by
  refine (inv_of_reached h).visible_inv (P := fun v => v.key = k) t k ?_ ?_ v hv
  · exact fun v hv => store.key_of_lookup hv
  · intro u v v' hkey hwrite
    cases writes_of_onRow hwrite with
    | create => rfl
    | bumpVersion id now row => exact hkey (.tag row) rfl
    | snapshot => rfl

theorem get_eq_some_iff (h : Reached store tr s) :
    s.get t tagId = some row ↔ s.visible t (.tag tagId) = some (.tag row) := by
  unfold get
  cases hv : s.visible t (.tag tagId) with
  | none => simp
  | some v =>
    cases v with
    | tag row' => simp
    | version row' => cases key_of_visible h hv

theorem mem_tags_iff (h : Reached store tr s) : row ∈ s.tags t ↔ s.get t row.id = some row := by
  rw [get_eq_some_iff h, tags, List.mem_filterMap]
  constructor
  · rintro ⟨v, hv, hrow⟩
    obtain ⟨k, hk⟩ := (inv_of_reached h).mem_select.1 hv
    cases v with
    | version => cases hrow
    | tag row' =>
      obtain rfl := Option.some.inj hrow
      obtain rfl : TagKey.tag row'.id = k := key_of_visible h hk
      exact hk
  · intro hv
    exact ⟨.tag row, (inv_of_reached h).mem_select.2 ⟨_, hv⟩, rfl⟩

/-! ## The version counter -/

/-- The tag after bumps at the times `nows`. -/
def counted (first : Tag) (nows : List Timestamp) : Tag :=
  { first with
    version := first.version + nows.length
    updatedAt := nows.getLast?.getD first.updatedAt }

/-- The bumps at the times `nows`, each with the row that it returns. -/
def bumpedFrom (first : Tag) (nows : List Timestamp) : List (TagCommand × TagRecord) :=
  nows.zipIdx.map fun (now, i) =>
    (.bumpVersion now, .tag { first with version := first.version + (i + 1), updatedAt := now })

theorem bumpedFrom_snoc (first : Tag) (nows : List Timestamp) (now : Timestamp) :
    bumpedFrom first (nows ++ [now]) = bumpedFrom first nows ++
      [(.bumpVersion now, .tag (TagRepository.bump now (counted first nows)))] := by
  rw [bumpedFrom, List.zipIdx_append, List.map_append]
  simp [bumpedFrom, counted, TagRepository.bump, Int.add_assoc]

theorem bump_counted (first : Tag) (nows : List Timestamp) (now : Timestamp) :
    TagRepository.bump now (counted first nows) = counted first (nows ++ [now]) := by
  simp [counted, TagRepository.bump, Int.add_assoc]

/-- Once a tag is there its entries are bumps, which count. -/
theorem bumped_of_chain {first : Tag}
    (h : Chain (TagRepository.onRow (.tag id)) (some (.tag first)) entries) :
    ∃ nows, entries = bumpedFrom first nows ∧
      leaves (some (.tag first)) entries = some (.tag (counted first nows)) := by
  induction entries using List.reverseRecOn with
  | nil => exact ⟨[], rfl, by simp [counted]⟩
  | append_singleton entries e ih =>
    obtain ⟨u, v⟩ := e
    obtain ⟨hchain, hwrite⟩ := chain_snoc.1 h
    obtain ⟨nows, rfl, hleaves⟩ := ih hchain
    rw [hleaves] at hwrite
    cases writes_of_onRow hwrite with
    | bumpVersion id now row =>
      refine ⟨nows ++ [now], (bumpedFrom_snoc ..).symm, ?_⟩
      rw [leaves_append, leaves_cons, leaves_nil, bump_counted]

/-- The rows that the bumps of an entry list have returned. -/
def bumps (entries : List (TagCommand × TagRecord)) : List Tag :=
  entries.filterMap fun
    | (.bumpVersion _, .tag row) => some row
    | _ => none

/-- The rows that `create` has returned. -/
def created (entries : List (TagCommand × TagRecord)) : List Tag :=
  entries.filterMap fun
    | (.create _ _, .tag row) => some row
    | _ => none

theorem bumps_bumpedFrom (first : Tag) (nows : List Timestamp) :
    bumps (bumpedFrom first nows) = nows.zipIdx.map fun (now, i) =>
      { first with version := first.version + (i + 1), updatedAt := now } := by
  rw [bumps, bumpedFrom, List.filterMap_map, ← List.filterMap_eq_map]
  rfl

theorem created_bumpedFrom (first : Tag) (nows : List Timestamp) :
    created (bumpedFrom first nows) = [] := by
  rw [created, bumpedFrom, List.filterMap_map]
  exact List.filterMap_none ..

/-- The rows of the tag `id` that were there at first or were created since. -/
def originals (store : TagStore fold) (entries : List (TagCommand × TagRecord)) (id : UUID) : List Tag :=
  ((store.lookup (.tag id)).toList.filterMap fun
    | .tag row => some row
    | .version _ => none) ++ created entries

/-- A tag has one origin, and all that followed are bumps. -/
theorem exists_original (h : Reached store tr s) (hrow : s.get t id = some row) :
    ∃ first nows, originals store (RowSessions.history tr s t (.tag id)) id = [first] ∧
      bumps (RowSessions.history tr s t (.tag id)) = bumps (bumpedFrom first nows) ∧ row = counted first nows := by
  obtain ⟨hchain, hvisible⟩ := (inv_of_reached h).chain_visible t (.tag id)
  rw [(get_eq_some_iff h).1 hrow] at hvisible
  change Chain (TagRepository.onRow (.tag id)) _ (RowSessions.history tr s t (.tag id)) at hchain
  change _ = leaves _ (RowSessions.history tr s t (.tag id)) at hvisible
  cases hfirst : store.lookup (.tag id) with
  | some v =>
    cases v with
    | version row' => cases store.key_of_lookup hfirst
    | tag first =>
      rw [hfirst] at hchain hvisible
      obtain ⟨nows, hentries, hleaves⟩ := bumped_of_chain hchain
      refine ⟨first, nows, ?_, by rw [hentries], ?_⟩
      · rw [originals, hfirst, hentries, created_bumpedFrom]
        rfl
      · rw [hleaves] at hvisible
        cases hvisible
        rfl
  | none =>
    rw [hfirst] at hchain hvisible
    cases hentries : RowSessions.history tr s t (.tag id) with
    | nil =>
      rw [hentries] at hvisible
      cases hvisible
    | cons e entries =>
      obtain ⟨u, v⟩ := e
      rw [hentries] at hchain hvisible
      cases writes_of_onRow hchain.1 with
      | create _ env call =>
        obtain ⟨nows, hentries', hleaves⟩ := bumped_of_chain hchain.2
        refine ⟨TagRepository.newTag { env with uuid4 := id } call, nows, ?_, by rw [hentries']; rfl, ?_⟩
        · have hcreated := created_bumpedFrom (TagRepository.newTag { env with uuid4 := id } call) nows
          rw [← hentries'] at hcreated
          rw [originals, hfirst]
          change _ :: created entries = _
          rw [hcreated]
        · rw [leaves_cons, hleaves] at hvisible
          cases hvisible
          rfl

/-- The bumps of a tag return the numbers after the one of its first row one after another, in the order
in which their transactions commit, and the tag that a session sees is the last one of them. -/
theorem bump_versions_consecutive (h : Reached store tr s) (t : T) (id : UUID) (row : Tag)
    (hrow : s.get t id = some row) :
    ∃ first, originals store (RowSessions.history tr s t (.tag id)) id = [first] ∧
      (∃ nows : List Timestamp, bumps (RowSessions.history tr s t (.tag id)) = nows.zipIdx.map fun (now, i) =>
        { first with version := first.version + (i + 1), updatedAt := now }) ∧
      row = (bumps (RowSessions.history tr s t (.tag id))).getLast?.getD first ∧
      row.version = first.version + (bumps (RowSessions.history tr s t (.tag id))).length := by
  obtain ⟨first, nows, horiginal, hbumps, rfl⟩ := exists_original h hrow
  rw [bumps_bumpedFrom] at hbumps
  refine ⟨first, horiginal, ⟨nows, hbumps⟩, ?_, by simp [hbumps, counted]⟩
  rw [hbumps]
  induction nows using List.reverseRecOn with
  | nil => simp [counted]
  | append_singleton nows now =>
    rw [List.zipIdx_append, List.map_append]
    simp [counted]

theorem bump_versions_consecutive_sample : ∃ (tr : List (TagEvent Bool)) (s : TagSessions Bool),
    Reached emptyStore tr s ∧ ∃ first row, s.get true sampleId = some row ∧
      originals emptyStore (RowSessions.history tr s true (.tag sampleId)) sampleId = [first] ∧
      (bumps (RowSessions.history tr s true (.tag sampleId))).length = 2 ∧
      row.version = first.version + 2 := by
  obtain ⟨row, hrow⟩ : ∃ row, laterPlayed.2.get true sampleId = some row := ⟨_, rfl⟩
  obtain ⟨first, horiginal, -, -, hversion⟩ :=
    bump_versions_consecutive reached_laterPlayed true sampleId row hrow
  have hlength : (bumps (RowSessions.history (samplePlayed.1 ++ laterPlayed.1) laterPlayed.2 true
      (.tag sampleId))).length = 2 := rfl
  rw [hlength] at hversion
  exact ⟨_, _, reached_laterPlayed, first, row, hrow, horiginal, hlength, hversion⟩

/-! ## Slugs -/

/-- The tags that a session sees have distinct slugs. -/
theorem nodup_slugs (h : Reached store tr s) (t : T) :
    ((s.tags t).map fun row => fold row.slug).Nodup := by
  have hselect := (inv_of_reached h).nodup_select t
  rw [List.Nodup, List.pairwise_map] at hselect ⊢
  refine List.Pairwise.filterMap _ ?_ hselect
  intro v v' hne row hrow row' hrow' heq
  cases v <;> cases hrow
  cases v' <;> cases hrow'
  exact hne (congrArg TagIndex.slug heq)

/-- A slug belongs to one tag at most, so looking it up never fails. -/
theorem getBySlug_eq (h : Reached store tr s) (t : T) (slug : String) :
    ∃ found, s.getBySlug fold t slug = .ok found ∧
      ∀ row, found = some row ↔ row ∈ s.tags t ∧ fold row.slug = fold slug := by
  let table : Table fun row : Tag => fold row.slug := ⟨s.tags t, nodup_slugs h t⟩
  refine ⟨table.lookup (fold slug), ?_, fun row => table.lookup_eq_some_iff⟩
  rw [getBySlug, table.filter_key, oneOrNone_toList]

/-- In every run a session finds by a slug exactly the tag that it sees with this slug, whatever the case
of the letters, and lists the tags that it sees in the strict order of their slugs. -/
theorem slug_lookup {A : Type*} [LinearOrder A] {collate : String → A}
    (hcollate : Function.Injective collate) (h : Reached store tr s) (t : T) :
    (∀ slug, ∃ found, s.getBySlug fold t slug = .ok found ∧
      ∀ row, found = some row ↔ s.get t row.id = some row ∧ fold row.slug = fold slug) ∧
    ∀ includeInactive,
      (s.listTags fold collate t includeInactive).Pairwise (fun row row' =>
        collate (fold row.slug) < collate (fold row'.slug)) ∧
      ∀ row, row ∈ s.listTags fold collate t includeInactive ↔
        s.get t row.id = some row ∧ (includeInactive ∨ row.isActive) := by
  refine ⟨fun slug => ?_, fun includeInactive => ⟨?_, fun row => ?_⟩⟩
  · obtain ⟨found, hfound, hiff⟩ := getBySlug_eq h t slug
    exact ⟨found, hfound, fun row => by rw [hiff, mem_tags_iff h]⟩
  · refine pairwise_lt_sortBy _ ?_
    have hnodup := (nodup_slugs h t).map hcollate
    rw [List.map_map] at hnodup
    exact hnodup.sublist (List.filter_sublist.map _)
  · rw [listTags, mem_sortBy, List.mem_filter, mem_tags_iff h, Bool.or_eq_true]

/-- The tag with the slug `Invoice` is found by the slug `INVOICE`. -/
theorem slug_lookup_sample : ∃ (tr : List (TagEvent Bool)) (s : TagSessions Bool),
    Reached emptyStore tr s ∧ ∃ row, s.get true sampleId = some row ∧
      s.getBySlug lowerText true "INVOICE" = .ok (some row) := by
  obtain ⟨row, hrow, hid, hslug⟩ : ∃ row, laterPlayed.2.get true sampleId = some row ∧
      row.id = sampleId ∧ lowerText row.slug = lowerText "INVOICE" := ⟨_, rfl, rfl, by decide⟩
  obtain ⟨found, hfound, hiff⟩ := (slug_lookup Function.injective_id reached_laterPlayed true).1 "INVOICE"
  rw [(hiff row).2 ⟨hid.symm ▸ hrow, hslug⟩] at hfound
  exact ⟨_, _, reached_laterPlayed, row, hrow, hfound⟩

omit [DecidableEq T] in
/-- A tag is created once at most. -/
theorem created_of_chain {v : Option TagRecord} (h : Chain (TagRepository.onRow (.tag id)) v entries) :
    created entries = [] ∨ ∃ first, created entries = [first] := by
  cases entries with
  | nil => exact .inl rfl
  | cons e entries =>
    obtain ⟨u, v'⟩ := e
    cases writes_of_onRow h.1 with
    | create _ env call =>
      obtain ⟨nows, rfl, -⟩ := bumped_of_chain h.2
      refine .inr ⟨TagRepository.newTag { env with uuid4 := id } call, ?_⟩
      exact congrArg (_ :: ·) (created_bumpedFrom ..)
    | bumpVersion _ now row =>
      obtain ⟨nows, rfl, -⟩ := bumped_of_chain h.2
      exact .inl (created_bumpedFrom _ nows)

/-- Of the creations whose slugs differ in the case of their letters only, one commits: two that have
committed are of one tag, and this tag has no other creation. -/
theorem created_slug_once (h : Reached store tr s) {id id' : UUID} {first first' : Tag}
    (hfirst : first ∈ created (RowSessions.log tr (.tag id)))
    (hfirst' : first' ∈ created (RowSessions.log tr (.tag id')))
    (heq : fold first.slug = fold first'.slug) :
    id = id' ∧ first = first' ∧ created (RowSessions.log tr (.tag id)) = [first] := by
  have hinv := inv_of_reached h
  have hentry : ∀ {id first}, first ∈ created (RowSessions.log tr (.tag id)) →
      ∃ u, (u, TagRecord.tag first) ∈ RowSessions.log tr (.tag id) := by
    intro id first hmem
    obtain ⟨⟨u, v⟩, he, hrow⟩ := List.mem_filterMap.1 hmem
    split at hrow
    · rename_i hpair
      obtain ⟨rfl, rfl⟩ := Prod.mk.inj hpair
      obtain rfl := Option.some.inj hrow
      exact ⟨_, he⟩
    · cases hrow
  obtain ⟨u, hu⟩ := hentry hfirst
  obtain ⟨u', hu'⟩ := hentry hfirst'
  have hkeep : ∀ k u x v', TagRepository.onRow k u (some x) = .write v' →
      v'.index fold = x.index fold := by
    intro k u x v' hwrite
    cases writes_of_onRow hwrite with
    | bumpVersion => rfl
  have hid : id = id' := TagKey.tag.inj (hinv.index_log hkeep hu hu' (congrArg TagIndex.slug heq))
  subst hid
  refine ⟨rfl, ?_⟩
  rcases created_of_chain (hinv.logged.chain (.tag id)) with hnil | ⟨only, honly⟩
  · rw [hnil] at hfirst
    cases hfirst
  · rw [honly, List.mem_singleton] at hfirst hfirst'
    rw [hfirst, hfirst']
    exact ⟨rfl, honly⟩

/-- A creation in other letters has been refused. -/
theorem created_slug_once_sample : ∃ (tr : List (TagEvent Bool)) (s : TagSessions Bool) (first : Tag),
    Reached emptyStore tr s ∧ created (RowSessions.log tr (.tag sampleId)) = [first] ∧
      lowerText "INVOICE" = lowerText first.slug ∧ RowEvent.raise false (.tag ⟨9⟩)
        (sampleCreate "INVOICE") (TagRepository.clash (.tag ⟨9⟩) (sampleCreate "INVOICE")) ∈ tr := by
  obtain ⟨first, hfirst, hslug⟩ : ∃ first,
      first ∈ created (RowSessions.log (samplePlayed.1 ++ laterPlayed.1) (.tag sampleId)) ∧
        lowerText "INVOICE" = lowerText first.slug := ⟨_, List.mem_cons_self, by decide⟩
  refine ⟨_, _, first, reached_laterPlayed,
    (created_slug_once reached_laterPlayed hfirst hfirst rfl).2.2, hslug, ?_⟩
  exact List.mem_append_right _ List.mem_cons_self

/-! ## Snapshots -/

/-- A committed snapshot is what every session reads at any later time, and no call replaces it. -/
theorem snapshot_immutable (h : Reached store tr s) {row : TagVersion}
    (hrow : (s.cell (.version tagId version)).committed = some (.version row))
    (h' : Run (RowSessions.Step (TagRepository.statements fold)) s tr' s') :
    (∀ t, s'.getVersion t tagId version = some row) ∧
      ∀ t u v, RowEvent.write t (.version tagId version) u v ∉ tr' := by
  have hfixed : ∀ u v', TagRepository.onRow (.version tagId version) u (some (.version row)) ≠ .write v' := by
    intro u v' hwrite
    cases writes_of_onRow hwrite
  obtain ⟨hvisible, hwrite⟩ := (inv_of_reached h).fixed hrow hfixed h'
  refine ⟨fun t => ?_, hwrite⟩
  rw [getVersion, hvisible t]
  rfl

/-- Another session has tried to record the version again. -/
theorem snapshot_immutable_sample : ∃ (tr tr' : List (TagEvent Bool)) (s s' : TagSessions Bool)
    (row : TagVersion), Reached emptyStore tr s ∧
      Run (RowSessions.Step (TagRepository.statements lowerText)) s tr' s' ∧
      RowEvent.raise false (.version sampleId 2) (.snapshot ⟨10⟩ 2 [("fields", .null)])
        (.inl (TagRepository.snapshotConflict sampleId 2)) ∈ tr' ∧
      ∀ t, s'.getVersion t sampleId 2 = some row := by
  obtain ⟨row, hrow⟩ : ∃ row, (samplePlayed.2.cell (.version sampleId 2)).committed =
      some (.version row) := ⟨_, rfl⟩
  exact ⟨_, _, _, _, row, reached_samplePlayed, run_laterPlayed, .tail _ (.tail _ (.head _)),
    (snapshot_immutable reached_samplePlayed hrow run_laterPlayed).1⟩

/-! ## Recording what has been bumped -/

/-- A snapshot refers to its tag. -/
def tagOf : TagRecord → Option TagKey
  | .tag _ => none
  | .version row => some (.tag row.tagId)

/-- The counter of a tag has reached the number of a snapshot. -/
def Covers : TagRecord → TagRecord → Prop
  | .version row, .tag tag => row.version ≤ tag.version
  | _, _ => False

theorem keepsRefs : RowSessions.KeepsRefs (TagRepository.statements fold) Covers := by
  intro k u x x' v hcovers hwrite
  cases writes_of_onRow hwrite with
  | bumpVersion id now row hrange =>
    cases v with
    | tag => cases hcovers
    | version snapshot =>
      dsimp only [Covers, TagRepository.bump] at hcovers ⊢
      omega

/-- A session that has bumped a tag sees the number that the bump has returned, which fits its column
and is greater than the committed one. -/
theorem Bumped.visible (h : RowSessions.Inv (TagRepository.statements fold) store.lookup tr s)
    (hbumped : s.Bumped t tagId version) :
    IsInt4 version ∧ (∃ row, s.visible t (.tag tagId) = some (.tag row) ∧ row.version = version) ∧
      ∀ first, (s.cell (.tag tagId)).committed = some (.tag first) → first.version < version := by
  obtain ⟨now, row, hlast, rfl⟩ := hbumped.last
  have hlogged := h.logged
  have hchain : Chain (TagRepository.onRow (.tag tagId)) _ _ := hlogged.open_chain t (.tag tagId)
  have hvisible : s.visible t (.tag tagId) = some (.tag row) := by
    rw [RowSessions.visible, hlogged.visible, leaves, hlast]
    rfl
  refine ⟨?_, ⟨row, hvisible, rfl⟩, fun first hfirst => ?_⟩
  · obtain ⟨entries, hentries⟩ := List.getLast?_eq_some_iff.1 hlast
    rw [hentries, chain_snoc] at hchain
    cases hprevious : leaves (s.cell (.tag tagId)).committed entries with
    | none =>
      rw [hprevious] at hchain
      cases writes_of_onRow hchain.2
    | some v =>
      rw [hprevious] at hchain
      cases writes_of_onRow hchain.2 with
      | bumpVersion _ _ row' hrange => exact hrange
  · rw [hfirst] at hchain
    obtain ⟨nows, hentries, hleaves⟩ := bumped_of_chain hchain
    rw [RowSessions.visible, hlogged.visible, hfirst, hleaves, Option.some.injEq, TagRecord.tag.injEq]
      at hvisible
    subst hvisible
    cases nows with
    | nil =>
      rw [hentries] at hlast
      cases hlast
    | cons now' nows =>
      simp only [counted, List.length_cons, Nat.cast_add]
      omega

/-- What is recorded of a bumped tag refers to the tag that its session sees. -/
theorem writesRefs (h : RowSessions.Inv (TagRepository.statements fold) store.lookup tr s) {e : TagEvent T}
    (hstep : RowSessions.Step (TagRepository.statements fold) s e s') (hbumped : s.OfBumped e) :
    s.WritesRefs tagOf Covers e := by
  cases hstep with
  | @write t k u v w hactive hfree hwrite hindex hforeign =>
    intro k' hk'
    generalize s.visible t k = previous at hwrite
    cases writes_of_onRow hwrite with
    | create => cases hk'
    | bumpVersion => cases hk'
    | snapshot tagId version uuid4 now snapshot hrange =>
      obtain rfl := Option.some.inj hk'
      obtain ⟨-, ⟨row, htag, hversion⟩, -⟩ := hbumped.1.visible h
      exact ⟨.tag row, htag, hversion.ge⟩
  | _ => trivial

/-- The first snapshots are not ahead of the counters of their tags. -/
def Behind (store : TagStore fold) : Prop :=
  ∀ row, TagRecord.version row ∈ store.rows →
    ∃ tag, TagRecord.tag tag ∈ store.rows ∧ tag.id = row.tagId ∧ row.version ≤ tag.version

/-- Sessions that record only what they have bumped never fail to: in a run in which each snapshot is one
of the number that the last bump of its session has returned, and is the first one of it in its
transaction, no call of `snapshot` raises. -/
theorem bumped_snapshot_recorded (hstore : Behind store)
    (h : Run (fun s e s' => RowSessions.Step (TagRepository.statements fold) s e s' ∧ OfBumped s e)
      (RowSessions.init store.toTable) tr s) (t : T) (tagId : UUID) (version : ℤ) (uuid4 : UUID)
    (now : Timestamp) (snapshot : JsonObject) (e : IpaError ⊕ DbError) :
    RowEvent.raise t (.version tagId version) (.snapshot uuid4 now snapshot) e ∉ tr := by
  intro hmem
  obtain ⟨tr₁, tr₂, m, m', -, h₁, ⟨hstep, hbumped, hnew⟩, -⟩ := h.exists_step_of_mem hmem
  have hreached : Reached store tr₁ m := h₁.mono fun _ _ _ hstep => hstep.1
  have hrefs : RowSessions.Refs tagOf Covers m := by
    refine RowSessions.refs_run store.nodup_index keepsRefs ?_ ?_ h₁
    · intro v hv k' hk'
      cases v with
      | tag => cases hk'
      | version row =>
        obtain ⟨tag, htag, hid, hle⟩ := hstore row hv
        obtain rfl := Option.some.inj hk'
        refine ⟨.tag tag, ?_, hle⟩
        rw [← hid]
        exact store.lookup_key htag
    · exact fun _ _ _ _ hinv _ hstep hbumped => writesRefs hinv hstep hbumped
  have hinv := inv_of_reached hreached
  obtain ⟨hrange, ⟨row, htag, -⟩, hahead⟩ := hbumped.visible hinv
  have hnone : m.visible t (.version tagId version) = none := by
    have hcommitted : m.visible t (.version tagId version) =
        (m.cell (.version tagId version)).committed := by
      rw [RowSessions.visible, hinv.logged.visible, hbumped.unrecorded, leaves_nil]
    cases hv : m.visible t (.version tagId version) with
    | none => rfl
    | some v =>
      have hkey := key_of_visible hreached hv
      cases v with
      | tag => cases hkey
      | version row' =>
        cases hkey
        obtain ⟨v, hfirst, hle⟩ := hrefs.committed _ _ _ (hcommitted.symm.trans hv) rfl
        cases v with
        | version => cases hle
        | tag first => exact absurd (hahead first hfirst) (not_lt.2 hle)
  have hwrites : TagRepository.onRow (.version tagId version) (.snapshot uuid4 now snapshot) none =
      .write (.version (TagRepository.newVersion tagId version uuid4 now snapshot)) := if_pos hrange
  cases hstep with
  | raise hactive hfree hraise =>
    rw [hnone] at hraise
    cases hwrites.symm.trans hraise
  | @clash _ _ k' _ v v' _ hactive hfree hwrite hk hfree' hvisible hindex =>
    rw [hnone] at hwrite
    cases hwrites.symm.trans hwrite
    cases v' with
    | tag => cases hindex
    | version row' =>
      exact hnew k' row' (Cell.version_of_visible hvisible) (TagIndex.versionId.inj hindex)
  | foreign hactive hfree hwrite hforeign =>
    have hsees : TagRepository.foreign (.version tagId version) (.snapshot uuid4 now snapshot)
        (m.visible t) = none := by
      rw [TagRepository.foreign, htag]
      rfl
    cases hsees.symm.trans hforeign

/-! ### Two sessions that record what they have bumped -/

/-- A session creates the tag, bumps it and records its version, and then another one does so. -/
def recordCalls : List (RowCall Bool TagKey TagCommand) :=
  [.statement true (.tag sampleId) (sampleCreate "Invoice"), .statement true (.tag sampleId) (.bumpVersion 1),
    .statement true (.version sampleId 2) (.snapshot ⟨8⟩ 1 []), .commit true,
    .statement false (.tag sampleId) (.bumpVersion 2),
    .statement false (.version sampleId 3) (.snapshot ⟨10⟩ 2 []), .commit false]

theorem exists_recorded : ∃ (tr : List (TagEvent Bool)) (s : TagSessions Bool),
    Run (fun s e s' => RowSessions.Step (TagRepository.statements lowerText) s e s' ∧ OfBumped s e)
      (RowSessions.init emptyStore.toTable) tr s ∧
    ∃ v, RowEvent.write false (.version sampleId 3) (.snapshot ⟨10⟩ 2 []) v ∈ tr := by
  refine ⟨_, _, RowSessions.run_play_guarded (RowSessions.inv_init emptyStore.nodup_index)
    (rfl : RowSessions.play _ _ recordCalls = some (_, _)) ?_, _, List.mem_of_getElem? (i := 5) rfl⟩
  refine ⟨fun _ => trivial, fun _ => trivial, fun hkeys => ⟨⟨⟨_, _, rfl, rfl⟩, rfl⟩, fun k row hrow => ?_⟩,
    fun _ => trivial, fun _ => trivial,
    fun hkeys => ⟨⟨⟨_, _, rfl, rfl⟩, rfl⟩, fun k row hrow => ?_⟩, fun _ => trivial, trivial⟩
  · obtain rfl := List.mem_singleton.1 (hkeys k _ hrow)
    cases List.mem_singleton.1 (Cell.mem_versions hrow)
  · rcases List.mem_pair.1 (hkeys k _ hrow) with rfl | rfl
    · cases List.mem_singleton.1 (Cell.mem_versions hrow)
      decide
    · rcases List.mem_pair.1 (Cell.mem_versions hrow) with hv | hv <;> cases hv

theorem bumped_snapshot_recorded_sample : ∃ tr : List (TagEvent Bool),
    (∃ v, RowEvent.write false (.version sampleId 3) (.snapshot ⟨10⟩ 2 []) v ∈ tr) ∧
    ∀ e, RowEvent.raise false (.version sampleId 3) (.snapshot ⟨10⟩ 2 []) e ∉ tr := by
  obtain ⟨tr, s, hrun, hwrite⟩ := exists_recorded
  have hbehind : Behind emptyStore := fun row hrow => absurd hrow List.not_mem_nil
  exact ⟨tr, hwrite, bumped_snapshot_recorded hbehind hrun false sampleId 3 ⟨10⟩ 2 []⟩

end TagSessions

end Ipa
