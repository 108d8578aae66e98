import Ipa.Db.Tag.Model
import Ipa.Lib.ReadCommitted
import Ipa.Lib.Run
import Ipa.Lib.Table

/-!
# Concurrent replacements of the fields of a tag

A call of `replace_fields` is a `DELETE` on the rows that were committed when it began, an `INSERT` for
each new field and a `SELECT`; each client runs one call in a transaction.  No statement sees the
rows that another open transaction has inserted, and the tag itself is not locked (`ReplaceStep`).

* `ReplaceInv`: what the rows, the open calls and the calls of two clients have to do with each
  other, kept by every step (`replaceInv_step`).
* `replace_fields_exact`: in a run in which no call commits new rows beside rows committed after its
  `DELETE` began, the list of a tag is the initial one or that of one committed call.
* `replace_fields_mixed`: two calls on a tag without fields leave the fields of both.
-/

namespace Ipa

open Listing ReadCommitted Transition

/-- The table `tag_fields` with its primary key. -/
abbrev TagFieldTable := Table fun row : TagField => row.id

/-- An open call: the rows that its `DELETE` found, those that it has yet to treat and those that it
has deleted; the fields that are not inserted yet and the rows inserted. -/
structure Replace where
  tagId : UUID
  fields : List TagFieldCreate
  snapshot : List UUID
  toDelete : List UUID
  deleted : List UUID
  toInsert : List TagFieldCreate
  inserted : List TagField

/-- The call whose `DELETE` finds the rows `rows`. -/
def Replace.start (tagId : UUID) (fields : List TagFieldCreate) (rows : List TagField) : Replace where
  tagId := tagId
  fields := fields
  snapshot := (fieldRows tagId rows).map fun row => row.id
  toDelete := (fieldRows tagId rows).map fun row => row.id
  deleted := []
  toInsert := fields
  inserted := []

/-- The rows that the statements of a call see when `rows` is committed. -/
def Replace.visible (r : Replace) (rows : List TagField) : List TagField :=
  rows.filter (fun row => row.id ∉ r.deleted) ++ r.inserted

/-- Where the transaction of a client stands. -/
inductive ReplacePhase
  | idle
  | writing (r : Replace)
  | replaced (r : Replace) (result : List TagField)

/-- The call of an open transaction. -/
def ReplacePhase.call : ReplacePhase → Option Replace
  | idle => none
  | writing r => some r
  | replaced r _ => some r

/-- The committed rows, the identifiers that have been drawn so far, and the clients. -/
structure ReplaceClients (T : Type*) where
  rows : List TagField
  used : List UUID
  phase : T → ReplacePhase

/-- The `DELETE` begins, deletes a row, or skips a row that another transaction has deleted; a row is
inserted; the fields are read back; the transaction ends. -/
inductive ReplaceEvent (T : Type*)
  | delete (t : T) (tagId : UUID) (fields : List TagFieldCreate)
  | remove (t : T) (id : UUID)
  | skip (t : T) (id : UUID)
  | insert (t : T) (id : UUID)
  | select (t : T) (result : List TagField)
  | commit (t : T) (tagId : UUID) (fields : List TagFieldCreate)
  | rollback (t : T)

namespace ReplaceClients

variable {T : Type*}

/-- No transaction is open. -/
def init (table : TagFieldTable) : ReplaceClients T :=
  ⟨table.rows, table.rows.map fun row => row.id, fun _ => .idle⟩

/-- One event of the clients.  A statement that would have to wait for another transaction has no
step. -/
inductive ReplaceStep [DecidableEq T] :
    ReplaceClients T → ReplaceEvent T → ReplaceClients T → Prop
  | delete {s : ReplaceClients T} {t : T} (tagId : UUID) (fields : List TagFieldCreate)
      (hidle : s.phase t = .idle) :
      ReplaceStep s (.delete t tagId fields)
        ⟨s.rows, s.used, Function.update s.phase t (.writing (.start tagId fields s.rows))⟩
  | remove {s : ReplaceClients T} {t : T} {r : Replace} {id : UUID}
      (hwriting : s.phase t = .writing r) (hid : id ∈ r.toDelete) (hrow : ∃ row ∈ s.rows, row.id = id)
      (hfree : ∀ t' ≠ t, ∀ r', (s.phase t').call = some r' → id ∉ r'.deleted) :
      ReplaceStep s (.remove t id) ⟨s.rows, s.used, Function.update s.phase t
        (.writing { r with toDelete := r.toDelete.erase id, deleted := id :: r.deleted })⟩
  | skip {s : ReplaceClients T} {t : T} {r : Replace} {id : UUID} (hwriting : s.phase t = .writing r)
      (hid : id ∈ r.toDelete) (hgone : ∀ row ∈ s.rows, row.id ≠ id) :
      ReplaceStep s (.skip t id) ⟨s.rows, s.used,
        Function.update s.phase t (.writing { r with toDelete := r.toDelete.erase id })⟩
  /-- A row that another transaction has deleted or inserted and that clashes makes the `INSERT` wait. -/
  | insert {s : ReplaceClients T} {t : T} {r : Replace} {field : TagFieldCreate}
      {rest : List TagFieldCreate} (id : UUID) (now : Timestamp) (hwriting : s.phase t = .writing r)
      (hdeleted : r.toDelete = []) (hfield : r.toInsert = field :: rest) (hrange : field.InRange)
      (hid : id ∉ s.used) (hunique : ∀ row ∈ r.visible s.rows, ¬ row.Clash r.tagId field)
      (hfree : ∀ t' ≠ t, ∀ r', (s.phase t').call = some r' →
        ∀ row ∈ r'.inserted, ¬ row.Clash r.tagId field) :
      ReplaceStep s (.insert t id) ⟨s.rows, id :: s.used, Function.update s.phase t (.writing
        { r with toInsert := rest, inserted := r.inserted ++ [field.toRow r.tagId id now] })⟩
  | select {s : ReplaceClients T} {t : T} {r : Replace} (hwriting : s.phase t = .writing r)
      {result : List TagField} (hdeleted : r.toDelete = []) (hinserted : r.toInsert = [])
      (hresult : result = listFields r.tagId (r.visible s.rows)) :
      ReplaceStep s (.select t result)
        ⟨s.rows, s.used, Function.update s.phase t (.replaced r result)⟩
  | commit {s : ReplaceClients T} {t : T} {r : Replace} {result : List TagField}
      (hreplaced : s.phase t = .replaced r result) :
      ReplaceStep s (.commit t r.tagId r.fields)
        ⟨r.visible s.rows, s.used, Function.update s.phase t .idle⟩
  | rollback {s : ReplaceClients T} {t : T} (hopen : s.phase t ≠ .idle) :
      ReplaceStep s (.rollback t) ⟨s.rows, s.used, Function.update s.phase t .idle⟩

/-- A call that has inserted rows does not commit after another call has committed rows of the tag
that its `DELETE` did not see. -/
def InTime (s : ReplaceClients T) : ReplaceEvent T → Prop
  | .commit t _ _ => ∀ r, (s.phase t).call = some r → r.fields ≠ [] →
    ∀ row ∈ s.rows, row.tagId = r.tagId → row.id ∈ r.snapshot
  | _ => True

/-- A step that meets the condition. -/
def StepInTime [DecidableEq T] (s : ReplaceClients T) (e : ReplaceEvent T) (s' : ReplaceClients T) :
    Prop :=
  ReplaceStep s e s' ∧ s.InTime e

/-! ## The invariant -/

/-- What an open call has to do with the committed rows.  The rows of its tag are all from before its
`DELETE` or all from after it. -/
structure CallOk (rows : List TagField) (used : List UUID) (r : Replace) : Prop where
  fields : r.fields = r.inserted.map TagField.toTagFieldCreate ++ r.toInsert
  tag : ∀ row ∈ r.inserted, row.tagId = r.tagId
  fresh : ∀ row ∈ r.inserted, row.id ∈ used ∧ ∀ row' ∈ rows, row'.id ≠ row.id
  nodup : (r.inserted.map fun row => row.id).Nodup
  known : ∀ id ∈ r.snapshot, id ∈ used
  toDelete : ∀ id ∈ r.toDelete, id ∈ r.snapshot
  deleted : ∀ id ∈ r.deleted, id ∈ r.snapshot
  treated : ∀ row ∈ rows, row.id ∈ r.snapshot → row.id ∈ r.toDelete ∨ row.id ∈ r.deleted
  own : ∀ row ∈ rows, row.id ∈ r.snapshot → row.tagId = r.tagId
  whole : (∀ row ∈ rows, row.tagId = r.tagId → row.id ∈ r.snapshot) ∨
    ∀ row ∈ rows, row.tagId = r.tagId → row.id ∉ r.snapshot

/-- The call has deleted the rows that it had found and inserted all its fields. -/
structure Finished (rows : List TagField) (used : List UUID) (r : Replace) : Prop
    extends CallOk rows used r where
  toDelete_nil : r.toDelete = []
  toInsert_nil : r.toInsert = []

/-- The rows that a call has inserted are unknown to another call. -/
def Apart (r r' : Replace) : Prop :=
  ∀ row ∈ r.inserted, row.id ∉ r'.snapshot ∧ ∀ row' ∈ r'.inserted, row'.id ≠ row.id

/-- The rows and the open calls fit together. -/
structure ReplaceInv (s : ReplaceClients T) : Prop where
  nodup : (s.rows.map fun row => row.id).Nodup
  known : ∀ row ∈ s.rows, row.id ∈ s.used
  call : ∀ t r, (s.phase t).call = some r → CallOk s.rows s.used r
  done : ∀ t r result, s.phase t = .replaced r result → r.toDelete = [] ∧ r.toInsert = []
  apart : ∀ t r t' r', t ≠ t' → (s.phase t).call = some r → (s.phase t').call = some r' → Apart r r'

variable {s s' : ReplaceClients T} {t : T} {e : ReplaceEvent T} {tr : List (ReplaceEvent T)}
  {rows : List TagField} {used used' : List UUID} {r r' : Replace} {p : ReplacePhase}

theorem replaceInv_init (table : TagFieldTable) : ReplaceInv (init table : ReplaceClients T) where
  nodup := table.nodup
  known _ hrow := List.mem_map_of_mem hrow
  call _ _ hr := nomatch hr
  done _ _ _ hphase := nomatch hphase
  apart _ _ _ _ _ hr := nomatch hr

theorem call_writing (hwriting : s.phase t = .writing r) : (s.phase t).call = some r := by
  rw [hwriting]
  rfl

theorem call_replaced {result : List TagField} (hreplaced : s.phase t = .replaced r result) :
    (s.phase t).call = some r := by
  rw [hreplaced]
  rfl

theorem ReplaceInv.finished (h : ReplaceInv s) {result : List TagField}
    (hreplaced : s.phase t = .replaced r result) : Finished s.rows s.used r := by
  obtain ⟨hdeleted, hinserted⟩ := h.done t r result hreplaced
  exact ⟨h.call t r (call_replaced hreplaced), hdeleted, hinserted⟩

/-! ## Statements -/

variable [DecidableEq T]

theorem CallOk.mono (h : CallOk rows used r) (hused : used ⊆ used') : CallOk rows used' r :=
  { h with
    fresh := fun row hrow => ⟨hused (h.fresh row hrow).1, (h.fresh row hrow).2⟩
    known := fun id hid => hused (h.known id hid) }

/-- A statement changes the phase of its client, and may draw identifiers. -/
theorem ReplaceInv.statement (h : ReplaceInv s) (hused : s.used ⊆ used')
    (hcall : ∀ r, p.call = some r → CallOk s.rows used' r)
    (hdone : ∀ r result, p = .replaced r result → r.toDelete = [] ∧ r.toInsert = [])
    (hapart : ∀ r, p.call = some r → ∀ t' ≠ t, ∀ r', (s.phase t').call = some r' →
      Apart r r' ∧ Apart r' r) :
    ReplaceInv ⟨s.rows, used', Function.update s.phase t p⟩ where
  nodup := h.nodup
  known row hrow := hused (h.known row hrow)
  call t' r' hr' := by
    dsimp only at hr'
    rw [read_update ReplacePhase.call] at hr'
    split_ifs at hr' with ht
    · exact hcall r' hr'
    · exact (h.call t' r' hr').mono hused
  done t' r' result hphase := by
    dsimp only at hphase
    rw [Function.update_apply] at hphase
    split_ifs at hphase with ht
    · exact hdone r' result hphase
    · exact h.done t' r' result hphase
  apart t₁ r₁ t₂ r₂ hne h₁ h₂ := by
    dsimp only at h₁ h₂
    rw [read_update ReplacePhase.call] at h₁ h₂
    split_ifs at h₁ h₂ with ht₁ ht₂ ht₂
    · exact absurd (ht₁.trans ht₂.symm) hne
    · exact (hapart r₁ h₁ t₂ ht₂ r₂ h₂).1
    · exact (hapart r₂ h₂ t₁ ht₁ r₁ h₁).2
    · exact h.apart t₁ r₁ t₂ r₂ hne h₁ h₂

/-- A statement that inserts nothing. -/
theorem ReplaceInv.continue (h : ReplaceInv s) (hr : (s.phase t).call = some r)
    (hp : p.call = some r') (hsnapshot : r'.snapshot = r.snapshot) (hinserted : r'.inserted = r.inserted)
    (hcall : CallOk s.rows s.used r')
    (hdone : ∀ r result, p = .replaced r result → r.toDelete = [] ∧ r.toInsert = []) :
    ReplaceInv ⟨s.rows, s.used, Function.update s.phase t p⟩ := by
  refine h.statement (List.Subset.refl _) ?_ hdone ?_
  · rintro _ hp'
    obtain rfl := Option.some.inj (hp.symm.trans hp')
    exact hcall
  · rintro _ hp' t' ht' r'' hr''
    obtain rfl := Option.some.inj (hp.symm.trans hp')
    unfold Apart
    rw [hsnapshot, hinserted]
    exact ⟨h.apart t r t' r'' (Ne.symm ht') hr hr'', h.apart t' r'' t r ht' hr'' hr⟩

/-- A `DELETE` that begins finds all the rows of the tag. -/
theorem callOk_start (hnodup : (rows.map fun row => row.id).Nodup)
    (hknown : ∀ row ∈ rows, row.id ∈ used) (tagId : UUID) (fields : List TagFieldCreate) :
    CallOk rows used (.start tagId fields rows) where
  fields := rfl
  tag _ hrow := absurd hrow List.not_mem_nil
  fresh _ hrow := absurd hrow List.not_mem_nil
  nodup := List.nodup_nil
  known id hid := by
    obtain ⟨row, hrow, rfl⟩ := List.mem_map.1 hid
    exact hknown row (mem_fieldRows.1 hrow).1
  toDelete _ := id
  deleted _ hid := absurd hid List.not_mem_nil
  treated _ _ hid := .inl hid
  own row hrow hid := by
    obtain ⟨row', hrow', hid'⟩ := List.mem_map.1 hid
    obtain ⟨hrow', htag⟩ := mem_fieldRows.1 hrow'
    obtain rfl := List.inj_on_of_nodup_map hnodup hrow' hrow hid'
    exact htag
  whole := .inl fun row hrow htag => List.mem_map_of_mem (mem_fieldRows.2 ⟨hrow, htag⟩)

/-- A row is deleted. -/
theorem CallOk.remove (h : CallOk rows used r) {id : UUID} (hid : id ∈ r.toDelete) :
    CallOk rows used { r with toDelete := r.toDelete.erase id, deleted := id :: r.deleted } :=
  { h with
    toDelete := fun id' hid' => h.toDelete id' (List.mem_of_mem_erase hid')
    deleted := by
      intro id' hid'
      rcases List.mem_cons.1 hid' with rfl | hid'
      · exact h.toDelete id' hid
      · exact h.deleted id' hid'
    treated := by
      intro row hrow hsnapshot
      by_cases heq : row.id = id
      · exact .inr (heq ▸ List.mem_cons_self)
      · exact (h.treated row hrow hsnapshot).imp (List.mem_erase_of_ne heq).2
          (List.mem_cons_of_mem id) }

/-- A row that is gone is skipped. -/
theorem CallOk.skip (h : CallOk rows used r) {id : UUID} (hgone : ∀ row ∈ rows, row.id ≠ id) :
    CallOk rows used { r with toDelete := r.toDelete.erase id } :=
  { h with
    toDelete := fun id' hid' => h.toDelete id' (List.mem_of_mem_erase hid')
    treated := by
      intro row hrow hsnapshot
      exact (h.treated row hrow hsnapshot).imp_left (List.mem_erase_of_ne (hgone row hrow)).2 }

/-- A row with a new identifier is inserted. -/
theorem CallOk.insert (h : CallOk rows used r) (hknown : ∀ row ∈ rows, row.id ∈ used)
    {field : TagFieldCreate} {rest : List TagFieldCreate} {id : UUID} (now : Timestamp)
    (hfield : r.toInsert = field :: rest) (hid : id ∉ used) :
    CallOk rows (id :: used)
      { r with toInsert := rest, inserted := r.inserted ++ [field.toRow r.tagId id now] } where
  fields := by
    rw [h.fields, hfield, List.map_append, List.append_assoc]
    rfl
  tag row hrow := by
    rcases List.mem_append.1 hrow with hrow | hrow
    · exact h.tag row hrow
    · obtain rfl := List.mem_singleton.1 hrow
      rfl
  fresh row hrow := by
    rcases List.mem_append.1 hrow with hrow | hrow
    · exact ⟨List.mem_cons_of_mem id (h.fresh row hrow).1, (h.fresh row hrow).2⟩
    · obtain rfl := List.mem_singleton.1 hrow
      refine ⟨List.mem_cons_self, fun row' hrow' heq => hid ?_⟩
      have hid' : row'.id = id := heq
      rw [← hid']
      exact hknown row' hrow'
  nodup := by
    rw [List.map_append, List.nodup_append]
    refine ⟨h.nodup, List.nodup_singleton _, ?_⟩
    rintro _ hmem _ hnew rfl
    obtain ⟨row, hrow, hrowid⟩ := List.mem_map.1 hmem
    obtain rfl := List.mem_singleton.1 hnew
    exact hid (hrowid ▸ (h.fresh row hrow).1)
  known id' hid' := List.mem_cons_of_mem id (h.known id' hid')
  toDelete := h.toDelete
  deleted := h.deleted
  treated := h.treated
  own := h.own
  whole := h.whole

/-- The rows of a call that has just begun and those of another open call. -/
theorem CallOk.apart_start (h' : CallOk rows used r') (tagId : UUID) (fields : List TagFieldCreate) :
    Apart (.start tagId fields rows) r' ∧ Apart r' (.start tagId fields rows) := by
  refine ⟨fun row hrow => absurd hrow List.not_mem_nil, fun row hrow => ⟨fun hid => ?_, ?_⟩⟩
  · obtain ⟨row', hrow', hid'⟩ := List.mem_map.1 hid
    exact (h'.fresh row hrow).2 row' (mem_fieldRows.1 hrow').1 hid'
  · exact fun row' hrow' => absurd hrow' List.not_mem_nil

/-- A row with a new identifier is unknown to another open call. -/
theorem CallOk.apart_insert (h' : CallOk rows used r') (hapart : Apart r r') (hapart' : Apart r' r)
    (field : TagFieldCreate) (rest : List TagFieldCreate) {id : UUID} (now : Timestamp)
    (hid : id ∉ used) :
    let r₁ : Replace :=
      { r with toInsert := rest, inserted := r.inserted ++ [field.toRow r.tagId id now] }
    Apart r₁ r' ∧ Apart r' r₁ := by
  have hother : ∀ row' ∈ r'.inserted, row'.id ≠ id := by
    rintro row' hrow' rfl
    exact hid (h'.fresh row' hrow').1
  refine ⟨fun row hrow => ?_, fun row hrow => ⟨(hapart' row hrow).1, fun row' hrow' => ?_⟩⟩
  · rcases List.mem_append.1 hrow with hrow | hrow
    · exact hapart row hrow
    · obtain rfl := List.mem_singleton.1 hrow
      exact ⟨fun hmem => hid (h'.known _ hmem), hother⟩
  · rcases List.mem_append.1 hrow' with hrow' | hrow'
    · exact (hapart' row hrow).2 row' hrow'
    · obtain rfl := List.mem_singleton.1 hrow'
      exact (hother row hrow).symm

/-! ## Commits -/

theorem mem_visible {row : TagField} :
    row ∈ r.visible rows ↔ row ∈ rows ∧ row.id ∉ r.deleted ∨ row ∈ r.inserted := by
  simp [Replace.visible]

/-- A committed row of the tag of a finished call is from after its `DELETE`, or it is deleted. -/
theorem Finished.deleted_iff (h : Finished rows used r) {row : TagField} (hrow : row ∈ rows) :
    row.id ∈ r.deleted ↔ row.id ∈ r.snapshot := by
  constructor
  · exact h.deleted row.id
  · intro hid
    have htreated := h.treated row hrow hid
    rw [h.toDelete_nil] at htreated
    exact htreated.resolve_left List.not_mem_nil

theorem Finished.inserted_map (h : Finished rows used r) :
    r.inserted.map TagField.toTagFieldCreate = r.fields := by
  rw [h.fields, h.toInsert_nil, List.append_nil]

/-- The rows of other tags are left alone. -/
theorem Finished.fieldRows_visible_of_ne (h : Finished rows used r) {tagId : UUID}
    (hne : tagId ≠ r.tagId) : fieldRows tagId (r.visible rows) = fieldRows tagId rows := by
  have hinserted : fieldRows tagId r.inserted = [] :=
    fieldRows_eq_nil fun row hrow => (h.tag row hrow).trans_ne hne.symm
  rw [Replace.visible, fieldRows_append, hinserted, List.append_nil]
  unfold fieldRows
  rw [List.filter_filter]
  refine List.filter_congr fun row hrow => ?_
  have hkept : row.tagId = tagId → row.id ∉ r.deleted := by
    rintro rfl hid
    exact hne (h.own row hrow (h.deleted row.id hid))
  simpa using hkept

/-- The rows of the tag when none of them is from after the `DELETE`. -/
theorem Finished.fieldRows_visible_of_forall (h : Finished rows used r)
    (hall : ∀ row ∈ rows, row.tagId = r.tagId → row.id ∈ r.snapshot) :
    fieldRows r.tagId (r.visible rows) = r.inserted := by
  rw [Replace.visible, fieldRows_append, fieldRows_of_forall h.tag, fieldRows_eq_nil, List.nil_append]
  intro row hrow htag
  obtain ⟨hrow, hkept⟩ := List.mem_filter.1 hrow
  have hdeleted := (h.deleted_iff hrow).2 (hall row hrow htag)
  simp [hdeleted] at hkept

/-- The rows of the tag when all of them are from after the `DELETE`. -/
theorem Finished.fieldRows_visible_of_forall_not (h : Finished rows used r)
    (hall : ∀ row ∈ rows, row.tagId = r.tagId → row.id ∉ r.snapshot) :
    fieldRows r.tagId (r.visible rows) = fieldRows r.tagId rows ++ r.inserted := by
  rw [Replace.visible, fieldRows_append, fieldRows_of_forall h.tag]
  unfold fieldRows
  rw [List.filter_filter]
  congr 1
  refine List.filter_congr fun row hrow => ?_
  have hkept : row.tagId = r.tagId → row.id ∉ r.deleted := fun htag hid =>
    hall row hrow htag (h.deleted row.id hid)
  simpa using hkept

/-- What a commit makes of the fields of a tag: those of its list, or what they were. -/
theorem Finished.fieldRows_visible (h : Finished rows used r)
    (htime : r.fields ≠ [] → ∀ row ∈ rows, row.tagId = r.tagId → row.id ∈ r.snapshot) (tagId : UUID) :
    fieldRows tagId (r.visible rows) = fieldRows tagId rows ∨
      tagId = r.tagId ∧ (fieldRows tagId (r.visible rows)).map TagField.toTagFieldCreate = r.fields := by
  by_cases htag : tagId = r.tagId
  · subst htag
    by_cases hfields : r.fields = []
    · have hinserted : r.inserted = [] := List.map_eq_nil_iff.1 (h.inserted_map.trans hfields)
      rcases h.whole with hall | hall
      · right
        rw [h.fieldRows_visible_of_forall hall, h.inserted_map]
        exact ⟨rfl, rfl⟩
      · left
        rw [h.fieldRows_visible_of_forall_not hall, hinserted, List.append_nil]
    · right
      rw [h.fieldRows_visible_of_forall (htime hfields), h.inserted_map]
      exact ⟨rfl, rfl⟩
  · exact .inl (h.fieldRows_visible_of_ne htag)

/-- Another call after the commit: the rows of its tag are still all from before its `DELETE`, or the
committed call has replaced them. -/
theorem Finished.callOk_visible (h : Finished rows used r)
    (htime : r.fields ≠ [] → ∀ row ∈ rows, row.tagId = r.tagId → row.id ∈ r.snapshot)
    (h' : CallOk rows used r') (hapart : Apart r r') (hapart' : Apart r' r) :
    CallOk (r.visible rows) used r' :=
  { h' with
    fresh := by
      refine fun row hrow => ⟨(h'.fresh row hrow).1, fun row' hrow' => ?_⟩
      rcases mem_visible.1 hrow' with ⟨hrow', -⟩ | hrow'
      · exact (h'.fresh row hrow).2 row' hrow'
      · exact (hapart' row hrow).2 row' hrow'
    treated := by
      intro row hrow hid
      rcases mem_visible.1 hrow with ⟨hrow, -⟩ | hrow
      · exact h'.treated row hrow hid
      · exact absurd hid (hapart row hrow).1
    own := by
      intro row hrow hid
      rcases mem_visible.1 hrow with ⟨hrow, -⟩ | hrow
      · exact h'.own row hrow hid
      · exact absurd hid (hapart row hrow).1
    whole := by
      by_cases hold : ∀ row ∈ r.inserted, row.tagId ≠ r'.tagId
      · have hrows : ∀ row ∈ r.visible rows, row.tagId = r'.tagId → row ∈ rows := by
          intro row hrow htag
          rcases mem_visible.1 hrow with ⟨hrow, -⟩ | hrow
          · exact hrow
          · exact absurd htag (hold row hrow)
        exact h'.whole.imp (fun hall row hrow htag => hall row (hrows row hrow htag) htag)
          fun hall row hrow htag => hall row (hrows row hrow htag) htag
      · -- the committed call has deleted all the earlier rows of the tag
        push Not at hold
        obtain ⟨new, hnew, htag'⟩ := hold
        have hsame : r.tagId = r'.tagId := (h.tag new hnew).symm.trans htag'
        have hfields : r.fields ≠ [] := by
          rw [← h.inserted_map]
          exact List.ne_nil_of_mem (List.mem_map_of_mem hnew)
        refine .inr fun row hrow htag => ?_
        rcases mem_visible.1 hrow with ⟨hrow, hkept⟩ | hrow
        · have hid := htime hfields row hrow (htag.trans hsame.symm)
          exact absurd ((h.deleted_iff hrow).2 hid) hkept
        · exact (hapart row hrow).1 }

/-- The committed rows have distinct identifiers. -/
theorem Finished.nodup_visible (h : Finished rows used r)
    (hnodup : (rows.map fun row => row.id).Nodup) :
    ((r.visible rows).map fun row => row.id).Nodup := by
  rw [Replace.visible, List.map_append, List.nodup_append]
  refine ⟨hnodup.sublist (List.filter_sublist.map _), h.nodup, ?_⟩
  rintro _ hmem _ hnew rfl
  obtain ⟨row, hrow, hrowid⟩ := List.mem_map.1 hmem
  obtain ⟨new, hnew, hnewid⟩ := List.mem_map.1 hnew
  exact (h.fresh new hnew).2 row (List.mem_filter.1 hrow).1 (hrowid.trans hnewid.symm)

/-- A transaction ends and the committed rows become `rows`. -/
theorem ReplaceInv.finish (h : ReplaceInv s) (hnodup : (rows.map fun row => row.id).Nodup)
    (hknown : ∀ row ∈ rows, row.id ∈ s.used)
    (hcall : ∀ t' ≠ t, ∀ r, (s.phase t').call = some r → CallOk rows s.used r) :
    ReplaceInv ⟨rows, s.used, Function.update s.phase t .idle⟩ where
  nodup := hnodup
  known := hknown
  call t' r' hr' := by
    dsimp only at hr'
    rw [read_update ReplacePhase.call] at hr'
    split_ifs at hr' with ht
    · cases hr'
    · exact hcall t' ht r' hr'
  done t' r' result hphase := by
    dsimp only at hphase
    rw [Function.update_apply] at hphase
    split_ifs at hphase with ht
    exact h.done t' r' result hphase
  apart t₁ r₁ t₂ r₂ hne h₁ h₂ := by
    dsimp only at h₁ h₂
    rw [read_update ReplacePhase.call] at h₁ h₂
    split_ifs at h₁ h₂ with ht₁ ht₂ ht₂
    · cases h₁
    · cases h₁
    · cases h₂
    · exact h.apart t₁ r₁ t₂ r₂ hne h₁ h₂

/-! ## Runs -/

theorem replaceInv_step (h : ReplaceInv s) (hstep : StepInTime s e s') : ReplaceInv s' := by
  obtain ⟨hstep, htime⟩ := hstep
  cases hstep with
  | delete tagId fields hidle =>
    refine h.statement (List.Subset.refl _) ?_ (fun _ _ hphase => nomatch hphase) ?_
    · rintro _ ⟨⟩
      exact callOk_start h.nodup h.known tagId fields
    · rintro _ ⟨⟩ t' - r' hr'
      exact (h.call t' r' hr').apart_start tagId fields
  | @remove t r id hwriting hid hrow hfree =>
    have hr := call_writing hwriting
    exact h.continue hr rfl rfl rfl ((h.call t r hr).remove hid) fun _ _ hphase => nomatch hphase
  | @skip t r id hwriting hid hgone =>
    have hr := call_writing hwriting
    exact h.continue hr rfl rfl rfl ((h.call t r hr).skip hgone) fun _ _ hphase => nomatch hphase
  | @insert t r field rest id now hwriting hdeleted hfield hrange hid hunique hfree =>
    have hr := call_writing hwriting
    have hcall := h.call t r hr
    refine h.statement (List.subset_cons_self id _) ?_ (fun _ _ hphase => nomatch hphase) ?_
    · rintro _ ⟨⟩
      exact hcall.insert h.known now hfield hid
    · rintro _ ⟨⟩ t' ht' r' hr'
      exact (h.call t' r' hr').apart_insert (h.apart t r t' r' (Ne.symm ht') hr hr')
        (h.apart t' r' t r ht' hr' hr) field rest now hid
  | @select t r hwriting result hdeleted hinserted hresult =>
    have hr := call_writing hwriting
    refine h.continue hr rfl rfl rfl (h.call t r hr) ?_
    rintro _ _ ⟨⟩
    exact ⟨hdeleted, hinserted⟩
  | @commit t r result hreplaced =>
    have hfinished := h.finished hreplaced
    have hr := call_replaced hreplaced
    refine h.finish (hfinished.nodup_visible h.nodup) (fun row hrow => ?_) fun t' ht' r' hr' => ?_
    · rcases mem_visible.1 hrow with ⟨hrow, -⟩ | hrow
      · exact h.known row hrow
      · exact (hfinished.fresh row hrow).1
    · exact hfinished.callOk_visible (htime r hr) (h.call t' r' hr')
        (h.apart t r t' r' (Ne.symm ht') hr hr') (h.apart t' r' t r ht' hr' hr)
  | rollback hopen => exact h.finish h.nodup h.known fun t' ht' r' hr' => h.call t' r' hr'

/-- The rows of a tag are the initial ones or those of a committed call. -/
def RowsExact (table : TagFieldTable) (tr : List (ReplaceEvent T)) (s : ReplaceClients T) : Prop :=
  ∀ tagId, fieldRows tagId s.rows = fieldRows tagId table.rows ∨
    ∃ t fields, .commit t tagId fields ∈ tr ∧
      (fieldRows tagId s.rows).map TagField.toTagFieldCreate = fields

theorem rowsExact_step {table : TagFieldTable} (hinv : ReplaceInv s) (h : RowsExact table tr s)
    (hstep : StepInTime s e s') : RowsExact table (tr ++ [e]) s' := by
  intro tagId
  have hkeep : fieldRows tagId s.rows = fieldRows tagId table.rows ∨
      ∃ t fields, .commit t tagId fields ∈ tr ++ [e] ∧
        (fieldRows tagId s.rows).map TagField.toTagFieldCreate = fields := by
    refine (h tagId).imp_right ?_
    rintro ⟨t, fields, hmem, hfields⟩
    exact ⟨t, fields, List.mem_append_left _ hmem, hfields⟩
  obtain ⟨hstep, htime⟩ := hstep
  cases hstep with
  | delete | remove | skip | insert | select | rollback => exact hkeep
  | @commit t r result hreplaced =>
    have hr := call_replaced hreplaced
    rcases (hinv.finished hreplaced).fieldRows_visible (htime r hr) tagId with hsame | ⟨rfl, hfields⟩
    · show fieldRows tagId (r.visible s.rows) = _ ∨ _
      rw [hsame]
      exact hkeep
    · refine .inr ⟨t, r.fields, ?_, hfields⟩
      exact List.mem_append_right _ (List.mem_singleton_self _)

/-- A step changes the fields of a tag only when it commits a call on that tag. -/
theorem ReplaceInv.listFields_step (h : ReplaceInv s) (hstep : ReplaceStep s e s') {tagId : UUID}
    (hother : ∀ t fields, e ≠ .commit t tagId fields) :
    listFields tagId s'.rows = listFields tagId s.rows := by
  cases hstep with
  | delete | remove | skip | insert | select | rollback => rfl
  | @commit t r result hreplaced =>
    have hne : tagId ≠ r.tagId := by
      rintro rfl
      exact hother t r.fields rfl
    unfold listFields
    rw [(h.finished hreplaced).fieldRows_visible_of_ne hne]

/-- In every run in which no call commits new rows after another call has committed rows of its tag
that its `DELETE` did not see: the fields of a tag are the initial ones or exactly those of one
committed call, in the order of their positions, and the commit of a call leaves the fields of other
tags as they are. -/
theorem replace_fields_exact {table : TagFieldTable}
    (h : Run StepInTime (init table) tr s) :
    (∀ tagId, listFields tagId s.rows = listFields tagId table.rows ∨
      ∃ t fields, .commit t tagId fields ∈ tr ∧
        (listFields tagId s.rows).map TagField.toTagFieldCreate =
          sortBy TagFieldCreate.position fields) ∧
    ∀ e s', ReplaceStep s e s' → ∀ tagId, (∀ t fields, e ≠ .commit t tagId fields) →
      listFields tagId s'.rows = listFields tagId s.rows := by
  have hinv : ReplaceInv s ∧ RowsExact table tr s := by
    refine h.rec_inv (fun tr s => ReplaceInv s ∧ RowsExact table tr s)
      ⟨replaceInv_init table, fun _ => .inl rfl⟩ ?_
    rintro tr s e s' - ⟨hinv, hrows⟩ hstep
    exact ⟨replaceInv_step hinv hstep, rowsExact_step hinv hrows hstep⟩
  obtain ⟨hinv, hrows⟩ := hinv
  refine ⟨fun tagId => ?_, fun e s' hstep tagId => hinv.listFields_step hstep⟩
  rcases hrows tagId with hsame | ⟨t, fields, hmem, hfields⟩
  · left
    rw [listFields, hsame, listFields]
  · right
    refine ⟨t, fields, hmem, ?_⟩
    rw [listFields_map, hfields]

/-- A call that has found one row replaces it, while the other calls have not changed any row yet. -/
theorem exists_replaced {tagId : UUID} {field : TagFieldCreate} {old : TagField} (id : UUID) (now : Timestamp)
    (hwriting : s.phase t = .writing (.start tagId [field] [old])) (hrows : s.rows = [old])
    (htag : old.tagId = tagId) (hid : id ∉ s.used) (hrange : field.InRange)
    (hother : ∀ t' ≠ t, ∀ r, (s.phase t').call = some r → r.deleted = [] ∧ r.inserted = []) :
    ∃ s', Run StepInTime s [.remove t old.id, .insert t id, .select t [field.toRow tagId id now],
        .commit t tagId [field]] s' ∧
      s'.rows = [field.toRow tagId id now] ∧ s'.used = id :: s.used ∧ s'.phase t = .idle ∧
      ∀ t' ≠ t, s'.phase t' = s.phase t' := by
  obtain ⟨rows, used, phase⟩ := s
  dsimp only at hwriting hrows hid hother ⊢
  subst hrows
  let row : TagField := field.toRow tagId id now
  let r : Replace := .start tagId [field] [old]
  let r₁ : Replace := { r with toDelete := r.toDelete.erase old.id, deleted := old.id :: r.deleted }
  let r₂ : Replace := { r₁ with toInsert := [], inserted := r₁.inserted ++ [row] }
  have hold : fieldRows tagId [old] = [old] := fieldRows_of_forall (by simpa using htag)
  have hnew : fieldRows tagId [row] = [row] := fieldRows_of_forall (by simp [row, TagFieldCreate.toRow])
  have hfound : r.toDelete = [old.id] := congrArg (List.map _) hold
  have hdeleted : r₁.toDelete = [] := by
    rw [show r₁.toDelete = r.toDelete.erase old.id from rfl, hfound, List.erase_cons_head]
  have hvisible : r₁.visible [old] = [] := by simp [Replace.visible, r₁, r, Replace.start]
  have hvisible' : r₂.visible [old] = [row] := by simp [Replace.visible, r₂, r₁, r, Replace.start]
  let s₁ : ReplaceClients T := ⟨[old], used, Function.update phase t (.writing r₁)⟩
  let s₂ : ReplaceClients T := ⟨[old], id :: used, Function.update s₁.phase t (.writing r₂)⟩
  let s₃ : ReplaceClients T := ⟨[old], id :: used, Function.update s₂.phase t (.replaced r₂ [row])⟩
  have hphase₁ : s₁.phase t = .writing r₁ := Function.update_self t _ phase
  have hphase₂ : s₂.phase t = .writing r₂ := Function.update_self t _ s₁.phase
  have hphase₃ : s₃.phase t = .replaced r₂ [row] := Function.update_self t _ s₂.phase
  have h₁ : ReplaceStep ⟨[old], used, phase⟩ (.remove t old.id) s₁ := by
    refine .remove hwriting (hfound ▸ List.mem_singleton_self _) ⟨old, List.mem_singleton_self _, rfl⟩ ?_
    intro t' ht q hq
    rw [(hother t' ht q hq).1]
    exact List.not_mem_nil
  have h₂ : ReplaceStep s₁ (.insert t id) s₂ := by
    refine .insert id now hphase₁ hdeleted rfl hrange hid ?_ fun t' ht q hq row hrow => ?_
    · rw [hvisible]
      exact fun _ hrow => absurd hrow List.not_mem_nil
    · rw [show s₁.phase t' = phase t' from Function.update_of_ne ht _ _] at hq
      rw [(hother t' ht q hq).2] at hrow
      exact absurd hrow List.not_mem_nil
  have h₃ : ReplaceStep s₂ (.select t [row]) s₃ := by
    refine .select hphase₂ hdeleted rfl ?_
    rw [hvisible']
    exact (congrArg (sortBy _) hnew).symm
  have h₄ := ReplaceStep.commit hphase₃
  rw [hvisible'] at h₄
  have htime : s₃.InTime (.commit t tagId [field]) := by
    intro q hq _ other hrow _
    rw [hphase₃] at hq
    obtain rfl := Option.some.inj hq
    rw [List.mem_singleton.1 hrow]
    change old.id ∈ r.toDelete
    rw [hfound]
    exact List.mem_singleton_self _
  refine ⟨_, .cons ⟨h₁, trivial⟩ <| .cons ⟨h₂, trivial⟩ <| .cons ⟨h₃, trivial⟩ <| .single ⟨h₄, htime⟩,
    rfl, rfl, Function.update_self t _ _, fun t' ht => ?_⟩
  simp [s₃, s₂, s₁, Function.update_of_ne ht]

end ReplaceClients

open ReplaceClients in
/-- Two clients replace the fields of a tag at a time, the second one by none, which skips the row that
the first one has deleted and leaves the new one; then the second one replaces them again. -/
theorem replace_fields_exact_two_clients :
    let tagId : UUID := ⟨0⟩
    let total : TagFieldCreate :=
      ⟨"total", "Total", .number, none, false, 1, none, none, none, none, none, none, none, none⟩
    let due : TagFieldCreate :=
      ⟨"due", "Due", .date, none, false, 1, none, none, none, none, none, none, none, none⟩
    let old : TagField := total.toRow tagId ⟨9⟩ 0
    let row : TagField := total.toRow tagId ⟨1⟩ 1
    let row' : TagField := due.toRow tagId ⟨2⟩ 2
    let table : TagFieldTable := ⟨[old], List.nodup_singleton _⟩
    let tr : List (ReplaceEvent Bool) := [.delete true tagId [total], .delete false tagId [],
      .remove true ⟨9⟩, .insert true ⟨1⟩, .select true [row], .commit true tagId [total],
      .skip false ⟨9⟩, .select false [row], .commit false tagId [], .delete false tagId [due],
      .remove false ⟨1⟩, .insert false ⟨2⟩, .select false [row'], .commit false tagId [due]]
    ∃ s, Run StepInTime (init table) tr s ∧ listFields tagId s.rows = [row'] ∧
      (listFields tagId s.rows = listFields tagId table.rows ∨
        ∃ t fields, .commit t tagId fields ∈ tr ∧
          (listFields tagId s.rows).map TagField.toTagFieldCreate =
            sortBy TagFieldCreate.position fields) := by
  intro tagId total due old row row' table tr
  have hrange : total.InRange ∧ due.InRange := by
    simp [TagFieldCreate.InRange, IsInt4, total, due]
  let r : Replace := .start tagId [total] [old]
  let q : Replace := .start tagId [] [old]
  let q₁ : Replace := { q with toDelete := [] }
  let s₀ : ReplaceClients Bool := init table
  let s₁ : ReplaceClients Bool := ⟨[old], [⟨9⟩], Function.update s₀.phase true (.writing r)⟩
  let s₂ : ReplaceClients Bool := ⟨[old], [⟨9⟩], Function.update s₁.phase false (.writing q)⟩
  have hother : ∀ {s : ReplaceClients Bool} {t : Bool}, (∀ q, (s.phase (!t)).call = some q →
      q.deleted = [] ∧ q.inserted = []) → ∀ t' ≠ t, ∀ q, (s.phase t').call = some q →
      q.deleted = [] ∧ q.inserted = [] := by
    intro s t h t' ht
    rwa [← Bool.eq_not.2 ht] at h
  have h₁ : ReplaceStep s₀ (.delete true tagId [total]) s₁ := .delete tagId [total] rfl
  have h₂ : ReplaceStep s₁ (.delete false tagId []) s₂ := .delete tagId [] rfl
  obtain ⟨⟨rows₃, used₃, phase₃⟩, hrun₃, hrows₃, hused₃, hphase₃, hkept₃⟩ :=
    exists_replaced (s := s₂) (t := true) ⟨1⟩ 1 rfl rfl rfl (by decide) hrange.1
      (hother (by rintro _ ⟨⟩; exact ⟨rfl, rfl⟩))
  obtain rfl : rows₃ = [row] := hrows₃
  have hwriting : phase₃ false = .writing q := hkept₃ false (by decide)
  let s₃ : ReplaceClients Bool := ⟨[row], used₃, phase₃⟩
  let s₄ : ReplaceClients Bool := ⟨[row], used₃, Function.update s₃.phase false (.writing q₁)⟩
  let s₅ : ReplaceClients Bool := ⟨[row], used₃, Function.update s₄.phase false (.replaced q₁ [row])⟩
  let s₆ : ReplaceClients Bool := ⟨[row], used₃, Function.update s₅.phase false .idle⟩
  let s₇ : ReplaceClients Bool :=
    ⟨[row], used₃, Function.update s₆.phase false (.writing (.start tagId [due] [row]))⟩
  have h₄ : ReplaceStep s₃ (.skip false ⟨9⟩) s₄ := by
    refine .skip hwriting (List.mem_singleton_self _) fun other hrow => ?_
    rw [List.mem_singleton.1 hrow]
    decide
  have h₅ : ReplaceStep s₄ (.select false [row]) s₅ := .select (r := q₁) rfl rfl rfl rfl
  have h₆ : ReplaceStep s₅ (.commit false tagId []) s₆ := .commit (r := q₁) rfl
  have h₇ : ReplaceStep s₆ (.delete false tagId [due]) s₇ := .delete tagId [due] rfl
  have htime : s₅.InTime (.commit false tagId []) := by
    rintro _ ⟨⟩ hfields
    exact absurd rfl hfields
  have hidle : ∀ r, (s₇.phase true).call = some r → r.deleted = [] ∧ r.inserted = [] := by
    intro r hr
    rw [show s₇.phase true = .idle from hphase₃] at hr
    cases hr
  obtain ⟨s₈, hrun₈, hrows₈, -⟩ :=
    exists_replaced (s := s₇) (t := false) ⟨2⟩ 2 rfl rfl rfl
      (by rw [show s₇.used = _ from hused₃]; decide) hrange.2 (hother hidle)
  have hlater := Run.cons ⟨h₄, trivial⟩ <| .cons ⟨h₅, trivial⟩ <| .cons ⟨h₆, htime⟩ <|
    .cons ⟨h₇, trivial⟩ hrun₈
  have hrun : Run StepInTime s₀ tr s₈ :=
    .cons ⟨h₁, trivial⟩ <| .cons ⟨h₂, trivial⟩ <| Run.append_iff.2 ⟨_, hrun₃, hlater⟩
  refine ⟨s₈, hrun, ?_, (replace_fields_exact hrun).1 tagId⟩
  rw [hrows₈]
  rfl

open ReplaceClients in
/-- Two clients give a field each to a tag without fields: no statement of one meets a row of the
other, and both fields stay. -/
theorem replace_fields_mixed :
    ¬ ∀ (table : TagFieldTable) (tr : List (ReplaceEvent Bool)) (s : ReplaceClients Bool)
      (tagId : UUID), Run ReplaceStep (init table) tr s →
      listFields tagId s.rows = listFields tagId table.rows ∨
      ∃ t fields, .commit t tagId fields ∈ tr ∧
        (listFields tagId s.rows).map TagField.toTagFieldCreate =
          sortBy TagFieldCreate.position fields := by
  intro hclaim
  let tagId : UUID := ⟨0⟩
  let total : TagFieldCreate :=
    ⟨"total", "Total", .number, none, false, 1, none, none, none, none, none, none, none, none⟩
  let due : TagFieldCreate :=
    ⟨"due", "Due", .date, none, false, 2, none, none, none, none, none, none, none, none⟩
  let row : TagField := total.toRow tagId ⟨1⟩ 0
  let row' : TagField := due.toRow tagId ⟨2⟩ 0
  let r : Replace := .start tagId [total] []
  let r' : Replace := .start tagId [due] []
  let w : Replace := { r with toInsert := [], inserted := [row] }
  let w' : Replace := { r' with toInsert := [], inserted := [row'] }
  let s₀ : ReplaceClients Bool := init (Table.empty _)
  let s₁ : ReplaceClients Bool := ⟨[], [], Function.update s₀.phase true (.writing r)⟩
  let s₂ : ReplaceClients Bool := ⟨[], [], Function.update s₁.phase false (.writing r')⟩
  let s₃ : ReplaceClients Bool := ⟨[], [⟨1⟩], Function.update s₂.phase true (.writing w)⟩
  let s₄ : ReplaceClients Bool := ⟨[], [⟨2⟩, ⟨1⟩], Function.update s₃.phase false (.writing w')⟩
  let s₅ : ReplaceClients Bool :=
    ⟨[], [⟨2⟩, ⟨1⟩], Function.update s₄.phase true (.replaced w [row])⟩
  let s₆ : ReplaceClients Bool :=
    ⟨[], [⟨2⟩, ⟨1⟩], Function.update s₅.phase false (.replaced w' [row'])⟩
  let s₇ : ReplaceClients Bool := ⟨[row], [⟨2⟩, ⟨1⟩], Function.update s₆.phase true .idle⟩
  let s₈ : ReplaceClients Bool := ⟨[row, row'], [⟨2⟩, ⟨1⟩], Function.update s₇.phase false .idle⟩
  have hrange : total.InRange ∧ due.InRange := by
    simp [TagFieldCreate.InRange, IsInt4, total, due]
  have h₁ : ReplaceStep s₀ (.delete true tagId [total]) s₁ := .delete tagId [total] rfl
  have h₂ : ReplaceStep s₁ (.delete false tagId [due]) s₂ := .delete tagId [due] rfl
  have hother : ∀ t' ≠ true, ∀ q, (s₂.phase t').call = some q →
      ∀ row ∈ q.inserted, ¬ row.Clash tagId total := by
    rintro (_ | _) ht q hq
    · cases hq
      rintro _ ⟨⟩
    · exact absurd rfl ht
  have h₃ : ReplaceStep s₂ (.insert true ⟨1⟩) s₃ :=
    .insert (r := r) ⟨1⟩ 0 rfl rfl rfl hrange.1 List.not_mem_nil (by rintro _ ⟨⟩) hother
  have hother' : ∀ t' ≠ false, ∀ q, (s₃.phase t').call = some q →
      ∀ row ∈ q.inserted, ¬ row.Clash tagId due := by
    rintro (_ | _) ht q hq
    · exact absurd rfl ht
    · cases hq
      intro other hrow
      obtain rfl := List.mem_singleton.1 hrow
      simp [TagField.Clash, row, total, due, TagFieldCreate.toRow]
  have h₄ : ReplaceStep s₃ (.insert false ⟨2⟩) s₄ :=
    .insert (r := r') ⟨2⟩ 0 rfl rfl rfl hrange.2 (by simp [s₃]) (by rintro _ ⟨⟩) hother'
  have h₅ : ReplaceStep s₄ (.select true [row]) s₅ := .select (r := w) rfl rfl rfl rfl
  have h₆ : ReplaceStep s₅ (.select false [row']) s₆ := .select (r := w') rfl rfl rfl rfl
  have h₇ : ReplaceStep s₆ (.commit true tagId [total]) s₇ := .commit (r := w) rfl
  have h₈ : ReplaceStep s₇ (.commit false tagId [due]) s₈ := .commit (r := w') rfl
  have hrun : Run ReplaceStep s₀ [.delete true tagId [total], .delete false tagId [due],
      .insert true ⟨1⟩, .insert false ⟨2⟩, .select true [row], .select false [row'],
      .commit true tagId [total], .commit false tagId [due]] s₈ :=
    .cons h₁ <| .cons h₂ <| .cons h₃ <| .cons h₄ <| .cons h₅ <| .cons h₆ <| .cons h₇ <| .single h₈
  have htwo : (listFields tagId s₈.rows).length = 2 := rfl
  rcases hclaim _ _ _ tagId hrun with hinitial | ⟨t, fields, hmem, hfields⟩
  · have hlen := congrArg List.length hinitial
    rw [htwo] at hlen
    cases hlen
  · have hone : fields.length = 1 := by
      simp only [List.mem_cons, ReplaceEvent.commit.injEq, reduceCtorEq, false_or, List.not_mem_nil,
        or_false] at hmem
      rcases hmem with ⟨-, -, rfl⟩ | ⟨-, -, rfl⟩ <;> rfl
    have hlen := congrArg List.length hfields
    rw [List.length_map, htwo, length_sortBy, hone] at hlen
    cases hlen

end Ipa
