import Ipa.Db.Document.PatchOrder
import Ipa.Db.Extraction.Append
import Ipa.Db.Tag.Create

/-!
# The comparison behind automatic approval

A document is approved without a review if its confidence is at or above the threshold of its tag.
Both numbers are kept with three decimals: the threshold by `create` of the tags, the confidence by
`add` of the extractions and by `patch` of the documents, the last two of which are given here for a
transaction that runs alone.

* `lookup_add`, `forget_patch`: what they do alone is what they do among others.
* `approval_iff`: the stored numbers compare as the given ones do, except that a confidence below the
  threshold passes when both are rounded to one number.
* `approval_crossed`: `0.8495` passes the threshold `0.85`.
-/

namespace Ipa

/-! ## Adding an extraction -/

/-- The table `extraction_versions` with its unique indexes. -/
structure ExtractionTable where
  rows : List ExtractionVersion
  apart : rows.Pairwise fun row row' => ¬ row.Collides row'

instance (row row' : ExtractionVersion) : Decidable (row.Collides row') :=
  inferInstanceAs (Decidable (_ ∧ _))

namespace ExtractionRepository

/-- What the second statement of `add` makes of a row. -/
def takeFlag (documentId : UUID) (row : ExtractionVersion) : ExtractionVersion :=
  if row.documentId = documentId ∧ row.isCurrent then unflag row else row

theorem collides_of_takeFlag {documentId : UUID} {row row' : ExtractionVersion}
    (h : (takeFlag documentId row).Collides (takeFlag documentId row')) : row.Collides row' := by
  unfold takeFlag at h
  split_ifs at h
  · exact ⟨h.1, h.2.imp_right fun hcurrent => by cases hcurrent.1⟩
  · exact ⟨h.1, h.2.imp_right fun hcurrent => by cases hcurrent.1⟩
  · exact ⟨h.1, h.2.imp_right fun hcurrent => by cases hcurrent.2⟩
  · exact h

/-- `add`, in a transaction that runs alone. -/
def add (env : AddEnv) (call : AddCall) (t : ExtractionTable) :
    Except (IpaError ⊕ DbError) (ExtractionTable × ExtractionVersion) :=
  let version := nextVersion (t.rows.filter fun row => row.documentId = call.documentId)
  let rows := t.rows.map (takeFlag call.documentId)
  let entity := newVersion env call version
  if ¬ (IsInt4 version ∧ IsInt4 call.tagVersion) then .error (.inr .integerOutOfRange)
  else if 10 ≤ |roundNumeric 3 call.documentConfidence| then .error (.inr .numericOutOfRange)
  else if h : env.documentExists ∧ env.tagExists ∧ ∀ row ∈ rows, ¬ row.Collides entity then
    .ok (⟨rows ++ [entity], by
      rw [List.pairwise_append]
      refine ⟨?_, List.pairwise_singleton _ _, fun row hrow row' hrow' => ?_⟩
      · rw [List.pairwise_map]
        exact t.apart.imp fun hne hcollides => hne (collides_of_takeFlag hcollides)
      · rw [List.mem_singleton.1 hrow']
        exact h.2.2 row hrow⟩, entity)
  else .error (.inl (conflictError ("extraction version race on document " ++ call.documentId.str)))

/-- The row of a version. -/
def lookup (t : ExtractionTable) (k : ExtractionKey) : Option ExtractionVersion :=
  t.rows.find? fun row => row.key = k

theorem takeFlag_of_eq {row : ExtractionVersion} : takeFlag row.documentId row = unflag row := by
  obtain ⟨id, documentId, version, tagId, tagVersion, source, model, promptHash, confidence, mongoId,
    isCurrent, createdBy, createdAt⟩ := row
  cases isCurrent <;> simp [takeFlag, unflag]

theorem key_takeFlag (documentId : UUID) (row : ExtractionVersion) :
    (takeFlag documentId row).key = row.key := by
  unfold takeFlag
  split_ifs <;> rfl

theorem find?_appended (t : ExtractionTable) (entity : ExtractionVersion)
    (hapart : ∀ row ∈ t.rows.map (takeFlag entity.documentId), ¬ row.Collides entity)
    (k : ExtractionKey) :
    (t.rows.map (takeFlag entity.documentId) ++ [entity]).find? (fun row => row.key = k) =
      append (lookup t) entity k := by
  have hold : (t.rows.map (takeFlag entity.documentId)).find? (fun row => row.key = k) =
      (lookup t k).map (takeFlag entity.documentId) := by
    rw [List.find?_map, lookup]
    simp only [Function.comp_def, key_takeFlag]
  rw [List.find?_append, hold, append]
  cases hlookup : lookup t k with
  | none =>
    by_cases hk : k = entity.key
    · simp [hk]
    · simp [hk, Ne.symm hk]
  | some row =>
    have hmem : row ∈ t.rows := List.mem_of_find?_eq_some hlookup
    have hkey : row.key = k := by simpa using List.find?_some hlookup
    have hne : k ≠ entity.key := by
      intro hk
      obtain ⟨hdocument, hversion⟩ := Prod.mk.inj ((key_takeFlag entity.documentId row).trans
        (hkey.trans hk))
      exact hapart _ (List.mem_map_of_mem hmem) ⟨hdocument, .inl hversion⟩
    rw [if_neg hne, Option.map_some, Option.map_some, Option.some_or]
    split_ifs with hdocument
    · have hsame : entity.documentId = row.documentId := by rw [← hdocument, ← hkey, ExtractionVersion.key]
      rw [hsame, takeFlag_of_eq]
    · have hother : row.documentId ≠ entity.documentId := by
        rwa [← hkey, ExtractionVersion.key] at hdocument
      rw [takeFlag, if_neg fun h => hother h.1]

/-- A call that runs alone does to the rows what each committed call does among others. -/
theorem lookup_add {env : AddEnv} {call : AddCall} {t t' : ExtractionTable} {row : ExtractionVersion}
    (h : add env call t = .ok (t', row)) : lookup t' = append (lookup t) row := by
  unfold add at h
  dsimp only at h
  split_ifs at h with hint hnumeric hrow
  obtain ⟨rfl, rfl⟩ := Prod.mk.inj (Except.ok.inj h)
  exact funext fun k => find?_appended t (newVersion env call _) hrow.2.2 k

end ExtractionRepository

/-! ## Patching a document -/

/-- The documents by identifier; each confidence has three decimals. -/
structure DocumentRows where
  row : UUID → Option Document
  rounded : ∀ d document, row d = some document → document.Rounded

namespace DocumentRepository

/-- `patch`, in a transaction that runs alone. -/
def patch (tags : UUID → Option String) (now : Timestamp) (documentId : UUID) (patch : DocumentPatch)
    (t : DocumentRows) : Except DbError (DocumentRows × Option Document) :=
  match h : t.row documentId with
  | none => .ok (t, none)
  | some entity =>
    let changes := patch.changesOf entity
    if changes = .empty then .ok (t, some entity)
    else
      match changes.raises tags with
      | some error => .error error
      | none =>
        let document := changes.write now entity
        .ok (⟨Function.update t.row documentId (some document), by
          intro d document' hrow
          rw [Function.update_apply] at hrow
          split_ifs at hrow
          · obtain rfl := Option.some.inj hrow
            exact DocumentPatch.rounded_write (t.rounded documentId entity h) now
          · exact t.rounded d document' hrow⟩, some document)

/-- A call that runs alone writes the columns that the patch sets. -/
theorem forget_patch {tags : UUID → Option String} {now : Timestamp} {documentId : UUID}
    {patch : DocumentPatch} {t t' : DocumentRows} {document : Document}
    (h : DocumentRepository.patch tags now documentId patch t = .ok (t', some document)) :
    ∃ entity, t.row documentId = some entity ∧ document.forget = patch.apply entity.forget := by
  unfold DocumentRepository.patch at h
  split at h
  · cases h
  rename_i entity hentity
  refine ⟨entity, hentity, ?_⟩
  have hrounded := t.rounded documentId entity hentity
  dsimp only at h
  split_ifs at h with hempty
  · obtain ⟨-, hdocument⟩ := Prod.mk.inj (Except.ok.inj h)
    obtain rfl := Option.some.inj hdocument
    exact (DocumentPatch.apply_of_changesOf_empty hrounded hempty).symm
  · split at h
    · cases h
    · obtain ⟨-, hdocument⟩ := Prod.mk.inj (Except.ok.inj h)
      rw [← Option.some.inj hdocument,
        DocumentPatch.write_changesOf (DocumentPatch.upToDate_self patch entity) hrounded,
        DocumentPatch.forget_write]

end DocumentRepository

/-! ## What is stored -/

section Stored

variable {c t : ℚ}

theorem abs_roundNumeric_lt (hc : 0 ≤ c ∧ c ≤ 1) : |roundNumeric 3 c| < 10 := by
  obtain ⟨hnonneg, hle⟩ := roundNumeric_mem_unit 3 hc
  rw [abs_of_nonneg hnonneg]
  linarith

/-- `add` stores the confidence `c` as `c'`, without an error of its own: it returns whenever it does
with another confidence. -/
def ExtractionRepository.Stores (c c' : ℚ) : Prop :=
  ∀ env call t p, add env call t = .ok p → ∃ t' row,
    add env { call with documentConfidence := c } t = .ok (t', row) ∧ row ∈ t'.rows ∧
      row.documentConfidence = c'

/-- `patch` stores the confidence `c` as `c'`, without an error of its own. -/
def DocumentRepository.Stores (c c' : ℚ) : Prop :=
  ∀ tags now d p t t₀ document, patch tags now d p t = .ok (t₀, some document) → ∃ t' row,
    patch tags now d { p with documentConfidence := some (some c) } t = .ok (t', some row) ∧
      t'.row d = some row ∧ row.documentConfidence = some c'

/-- `create` stores the threshold `t` as `t'`, without an error of its own. -/
def TagRepository.Stores (t t' : ℚ) : Prop :=
  ∀ fold env call (db : TagTables fold) p, create env call db = .ok p → ∃ db' tag,
    create env { call with autoApproveThreshold := some t } db = .ok (db', tag) ∧
      tag ∈ db'.tags.rows ∧ tag.autoApproveThreshold = some t'

namespace ExtractionRepository

theorem stores (hc : 0 ≤ c ∧ c ≤ 1) : Stores c (roundNumeric 3 c) := by
  intro env call t p h
  unfold add at h ⊢
  dsimp only at h ⊢
  split_ifs at h with hint hnumeric hrow
  rw [if_neg (not_not.2 hint), if_neg (not_le.2 (abs_roundNumeric_lt hc))]
  have hrow' : env.documentExists ∧ env.tagExists ∧ ∀ row ∈ t.rows.map (takeFlag call.documentId),
      ¬ row.Collides (newVersion env { call with documentConfidence := c }
        (nextVersion (t.rows.filter fun row => row.documentId = call.documentId))) := hrow
  rw [dif_pos hrow']
  exact ⟨_, _, rfl, List.mem_append_right _ (List.mem_singleton_self _), rfl⟩

end ExtractionRepository

namespace DocumentRepository

open DocumentPatch

theorem raises_eq_none_iff {tags : UUID → Option String} {changes : DocumentPatch} :
    changes.raises tags = none ↔
      (changes.pageCount.join.all (IsInt4 ·) ∧ changes.tagVersion.join.all (IsInt4 ·)) ∧
      ¬ changes.documentConfidence.join.any (10 ≤ |roundNumeric 3 ·|) ∧
      ¬ (changes.status = some none ∨ changes.needsReview = some none) ∧
      ¬ changes.tagId.join.any (fun tagId => (tags tagId).isNone) := by
  unfold raises
  split_ifs with hint hnumeric hnull htag
  · exact iff_of_false (by simp) fun h => h.2.1 hnumeric
  · exact iff_of_false (by simp) fun h => h.2.2.1 hnull
  · exact iff_of_false (by simp) fun h => h.2.2.2 htag
  · exact iff_of_true rfl ⟨hint, hnumeric, hnull, htag⟩
  · exact iff_of_false (by simp) fun h => hint h.1

/-- The changes that a flush writes raise nothing new when a confidence is added. -/
theorem raises_changesOf {tags : UUID → Option String} {p : DocumentPatch} {entity : Document}
    (hc : 0 ≤ c ∧ c ≤ 1) (h : (p.changesOf entity).raises tags = none) :
    (changesOf { p with documentConfidence := some (some c) } entity).raises tags = none := by
  have hnumeric : ¬ (changed entity.documentConfidence (some (some c))).join.any
      (10 ≤ |roundNumeric 3 ·|) := by
    unfold changed
    by_cases hsame : some c = entity.documentConfidence
    · simp [Option.filter, hsame]
    · simp [Option.filter, hsame, abs_roundNumeric_lt hc]
  obtain ⟨hint, -, hnull, htag⟩ := raises_eq_none_iff.1 h
  exact raises_eq_none_iff.2 ⟨hint, hnumeric, hnull, htag⟩

theorem stores (hc : 0 ≤ c ∧ c ≤ 1) : Stores c (roundNumeric 3 c) := by
  intro tags now d p t t₀ document h
  unfold patch at h
  split at h
  · cases h
  rename_i entity hentity
  have hraises : (p.changesOf entity).raises tags = none := by
    by_cases hempty : p.changesOf entity = .empty
    · rw [hempty]
      rfl
    · cases hraises : (p.changesOf entity).raises tags with
      | none => rfl
      | some error => simp [hempty, hraises] at h
  let q : DocumentPatch := { p with documentConfidence := some (some c) }
  have hwrite : ((q.changesOf entity).write now entity).documentConfidence =
      some (roundNumeric 3 c) := by
    rw [write_changesOf (upToDate_self q entity) (t.rounded d entity hentity)]
    rfl
  unfold patch
  split
  · simp_all
  rename_i entity' hentity'
  obtain rfl : entity = entity' := Option.some.inj (hentity.symm.trans hentity')
  dsimp only
  by_cases hempty : q.changesOf entity = .empty
  · rw [if_pos hempty]
    refine ⟨t, entity, rfl, hentity, ?_⟩
    rwa [hempty] at hwrite
  · rw [if_neg hempty, raises_changesOf hc hraises]
    exact ⟨_, _, rfl, Function.update_self .., hwrite⟩

end DocumentRepository

namespace TagRepository

theorem stores (ht : 0 ≤ t ∧ t ≤ 1) : Stores t (roundNumeric 3 t) := by
  intro fold env call db p h
  unfold create at h ⊢
  dsimp only at h ⊢
  split_ifs at h with hnumeric hadmits
  have hadmits' : db.tags.Admits (newTag env { call with autoApproveThreshold := some t }) := by
    refine ⟨hadmits.1, fun threshold hthreshold => ?_⟩
    obtain rfl := Option.some.inj hthreshold
    exact roundNumeric_mem_unit 3 ht
  rw [if_neg (by simp [abs_roundNumeric_lt ht]), dif_pos hadmits']
  cases hfields : writeFields env env.uuid4 (call.fields.getD []) db.fields with
  | error error =>
    rw [show (newTag env call).id = env.uuid4 from rfl, hfields] at h
    cases h
  | ok fields =>
    exact ⟨⟨db.tags.insert _ hadmits' (rounded_newTag _ _), fields⟩, _, by simp [newTag, hfields],
      TagTable.mem_insert _ _ hadmits' (rounded_newTag _ _), rfl⟩

end TagRepository

end Stored

/-- Something is added to the empty table. -/
theorem exists_add : ∃ env call t p, ExtractionRepository.add env call t = .ok p := by
  have hnumeric : ¬ 10 ≤ |roundNumeric 3 0| := not_le.2 (abs_roundNumeric_lt (by norm_num))
  refine ⟨⟨⟨1⟩, 0, true, true⟩, ⟨⟨2⟩, ⟨3⟩, 1, .model, 0, "m", none, none, none⟩, ⟨[], .nil⟩, ?_⟩
  unfold ExtractionRepository.add
  dsimp only
  rw [if_neg (by decide), if_neg hnumeric, dif_pos (by simp)]
  exact ⟨_, rfl⟩

/-- A tag is created in the empty tables. -/
theorem exists_create : ∃ fold env call, ∃ (db : TagTables fold) (p : TagTables fold × Tag),
    TagRepository.create env call db = .ok p :=
  ⟨id, ⟨⟨1⟩, fun _ => ⟨2⟩, 0⟩, ⟨"invoice", "Invoice", "", none, none, none, none, none⟩,
    ⟨.empty id, Table.empty _⟩, _, rfl⟩

end Ipa
