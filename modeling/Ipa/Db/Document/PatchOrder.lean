import Ipa.Db.Vector.Sync
import Ipa.Lib.Serial
import Mathlib.Data.List.Permutation

/-!
# Concurrent patches in a serial order

A patch writes the columns that it sets to another value than the one its session has loaded.  A
column that another transaction has changed in between is left alone, although the patch sets it.

* `write_changesOf`: while the columns left out still have the loaded values, the flush writes what
  the whole patch would.
* `patches_serial`: in a run whose flushes all meet that condition, the row is what the committed
  patches leave in some serial order.
* `patches_mixed`: two patches that overlap leave the status of one and the error of the other.
-/

namespace Ipa

open ReadCommitted Serial Transition

/-! ## One patch -/

/-- The row without the time of its last change. -/
def Document.forget (row : Document) : Document := { row with updatedAt := 0 }

/-- The confidence is one that its column keeps unchanged. -/
def Document.Rounded (row : Document) : Prop :=
  row.documentConfidence.map (roundNumeric 3) = row.documentConfidence

/-- A column that is set to the value that was loaded has it still. -/
def Kept {A : Type*} (assigned : Option A) (loaded current : A) : Prop :=
  assigned = some loaded → current = loaded

namespace DocumentPatch

variable {patch : DocumentPatch} {entity row : Document}

/-- What the patch does to a row: all the columns that it sets. -/
def apply (patch : DocumentPatch) (row : Document) : Document := patch.write 0 row

theorem forget_write (now : Timestamp) : (patch.write now row).forget = patch.apply row.forget := rfl

/-- The columns that the flush leaves out, because the patch sets them to what was loaded, have that
value in the current row. -/
structure UpToDate (patch : DocumentPatch) (entity row : Document) : Prop where
  pageCount : Kept patch.pageCount entity.pageCount row.pageCount
  tagId : Kept patch.tagId entity.tagId row.tagId
  tagVersion : Kept patch.tagVersion entity.tagVersion row.tagVersion
  status : Kept patch.status (some entity.status) (some row.status)
  currentStep : Kept patch.currentStep entity.currentStep row.currentStep
  documentConfidence :
    Kept patch.documentConfidence entity.documentConfidence row.documentConfidence
  needsReview : Kept patch.needsReview (some entity.needsReview) (some row.needsReview)
  title : Kept patch.title entity.title row.title
  errorCode : Kept patch.errorCode entity.errorCode row.errorCode
  errorDetail : Kept patch.errorDetail entity.errorDetail row.errorDetail
  completedAt : Kept patch.completedAt entity.completedAt row.completedAt

theorem changed_self {A : Type*} [DecidableEq A] (loaded : A) : changed loaded (some loaded) = none := by
  simp [changed, Option.filter]

theorem changed_of_ne {A : Type*} [DecidableEq A] {a loaded : A} (h : a ≠ loaded) :
    changed loaded (some a) = some a := by
  simp [changed, Option.filter, h]

/-- A column left out by the flush gets the value that the patch sets. -/
theorem getD_changed {A : Type*} [DecidableEq A] {assigned : Option A} {loaded current : A}
    (h : Kept assigned loaded current) :
    (changed loaded assigned).getD current = assigned.getD current := by
  cases assigned with
  | none => rfl
  | some a =>
    by_cases ha : a = loaded
    · subst ha
      rw [changed_self, h rfl]
      rfl
    · rw [changed_of_ne ha]

/-- The same for a column that is not null. -/
theorem join_getD_changed {A : Type*} [DecidableEq A] {assigned : Option (Option A)}
    {loaded current : A} (h : Kept assigned (some loaded) (some current)) :
    (changed (some loaded) assigned).join.getD current = assigned.join.getD current := by
  cases assigned with
  | none => rfl
  | some a =>
    by_cases ha : a = some loaded
    · subst ha
      rw [changed_self]
      exact Option.some.inj (h rfl)
    · rw [changed_of_ne ha]

/-- The same for the column that rounds. -/
theorem round_getD_changed {assigned : Option (Option ℚ)} {loaded current : Option ℚ}
    (h : Kept assigned loaded current)
    (hrounded : current.map (roundNumeric 3) = current) :
    ((changed loaded assigned).map (·.map (roundNumeric 3))).getD current =
      (assigned.map (·.map (roundNumeric 3))).getD current := by
  cases assigned with
  | none => rfl
  | some a =>
    by_cases ha : a = loaded
    · subst ha
      obtain rfl := h rfl
      rw [changed_self]
      exact hrounded.symm
    · rw [changed_of_ne ha]

/-- While the columns left out have the loaded values, the flush writes what the patch would. -/
theorem write_changesOf (h : patch.UpToDate entity row) (hrounded : row.Rounded) (now : Timestamp) :
    (patch.changesOf entity).write now row = patch.write now row := by
  unfold write changesOf
  simp only [getD_changed h.pageCount, getD_changed h.tagId, getD_changed h.tagVersion,
    join_getD_changed h.status, getD_changed h.currentStep,
    round_getD_changed h.documentConfidence hrounded, join_getD_changed h.needsReview,
    getD_changed h.title, getD_changed h.errorCode, getD_changed h.errorDetail,
    getD_changed h.completedAt]

theorem upToDate_self (patch : DocumentPatch) (entity : Document) : patch.UpToDate entity entity :=
  ⟨fun _ => rfl, fun _ => rfl, fun _ => rfl, fun _ => rfl, fun _ => rfl, fun _ => rfl, fun _ => rfl,
    fun _ => rfl, fun _ => rfl, fun _ => rfl, fun _ => rfl⟩

/-- A patch that changes nothing about the loaded row is none. -/
theorem apply_of_changesOf_empty (hrounded : entity.Rounded)
    (h : patch.changesOf entity = .empty) : patch.apply entity.forget = entity.forget := by
  rw [← forget_write 0, ← write_changesOf (upToDate_self patch entity) hrounded, h]
  rfl

theorem rounded_write (hrounded : row.Rounded) (now : Timestamp) : (patch.write now row).Rounded := by
  unfold Document.Rounded write
  cases patch.documentConfidence with
  | none => exact hrounded
  | some confidence =>
    cases confidence with
    | none => rfl
    | some x => exact congrArg some (roundNumeric_idem 3 x)

end DocumentPatch

/-! ## The committed patches of a trace -/

/-- The document and the patch that each client has loaded last, and those of the committed
transactions. -/
structure PatchLog (C : Type*) where
  loaded : C → Option (UUID × DocumentPatch)
  committed : List (UUID × C × DocumentPatch)

namespace SyncClients

variable {C : Type*} [DecidableEq C] {tags : UUID → Option String} {s s' : SyncClients C}
  {e : SyncEvent C} {tr : List (SyncEvent C)} {d : UUID} {row₀ : Document}

/-- What an event adds to the log. -/
def nextLog (log : PatchLog C) : SyncEvent C → PatchLog C
  | .load c d patch => { log with loaded := Function.update log.loaded c (some (d, patch)) }
  | .patched c _ _ => { log with
      committed := log.committed ++ (log.loaded c).toList.map fun l => (l.1, c, l.2) }
  | _ => log

/-- The log of a trace. -/
def patchLog (tr : List (SyncEvent C)) : PatchLog C := tr.foldl nextLog ⟨fun _ => none, []⟩

/-- The transactions that have patched `d` and committed: each with its patch. -/
def commits (tr : List (SyncEvent C)) (d : UUID) : List (C × DocumentPatch) :=
  ((patchLog tr).committed.filter fun t => t.1 = d).map (·.2)

theorem patchLog_append (tr : List (SyncEvent C)) (e : SyncEvent C) :
    patchLog (tr ++ [e]) = nextLog (patchLog tr) e := by
  rw [patchLog, List.foldl_append]
  rfl

/-- The row that the transactions leave one after another. -/
def patchSerially (row₀ : Document) (order : List (C × DocumentPatch)) : Document :=
  serial (fun t row => t.2.apply row) row₀ order

/-- At its flush a patch leaves out only columns that have the loaded value still. -/
def FlushUpToDate (s : SyncClients C) (e : SyncEvent C) : Prop :=
  ∀ c d patch entity row, e = .flush c → s.phase c = .loaded d patch entity →
    patch.changesOf entity ≠ .empty → (s.document d).committed = some row →
    patch.UpToDate entity row

/-- A step whose flush, if it is one, meets the condition. -/
def UpToDateStep (tags : UUID → Option String) (s : SyncClients C) (e : SyncEvent C)
    (s' : SyncClients C) : Prop :=
  Step tags s e s' ∧ s.FlushUpToDate e

/-! ## The invariant -/

/-- What is known of a client that patches: the row that it has loaded was the current one after a
part of the order, and the row that it has written is what its patch makes of the current one. -/
def PatchOk (d : UUID) (row₀ : Document) (order : List (C × DocumentPatch)) (current : Option Document)
    (loaded : Option (UUID × DocumentPatch)) : SyncPhase → Prop
  | .loaded d' patch entity => loaded = some (d', patch) ∧ (d' = d → entity.Rounded ∧
      Passes (fun t row => t.2.apply row) row₀.forget order entity.forget)
  | .flushed d' none | .reloaded d' none => ∃ patch entity, loaded = some (d', patch) ∧ (d' = d →
      patch.apply entity = entity ∧ Passes (fun t row => t.2.apply row) row₀.forget order entity)
  | .flushed d' (some row) | .reloaded d' (some row) => ∃ patch, loaded = some (d', patch) ∧
      (d' = d → row.Rounded ∧ ∃ old, current = some old ∧ row.forget = patch.apply old.forget)
  | _ => True

/-- The current row is what the committed transactions leave in some order. -/
structure OrderedBy (d : UUID) (row₀ : Document) (tr : List (SyncEvent C)) (s : SyncClients C)
    (order : List (C × DocumentPatch)) : Prop where
  perm : order.Perm (commits tr d)
  current : ∃ row, (s.document d).committed = some row ∧ row.Rounded ∧
    row.forget = patchSerially row₀.forget order
  phases : ∀ c, PatchOk d row₀ order (s.document d).committed ((patchLog tr).loaded c) (s.phase c)

section PatchOk

variable {order order' : List (C × DocumentPatch)} {current : Option Document}
  {loaded : Option (UUID × DocumentPatch)} {p : SyncPhase}

omit [DecidableEq C] in
/-- Another order on whose way the same rows are. -/
theorem PatchOk.reorder (h : PatchOk d row₀ order current loaded p)
    (hpasses : ∀ w, Passes (fun t row => t.2.apply row) row₀.forget order w →
      Passes (fun t row => t.2.apply row) row₀.forget order' w) :
    PatchOk d row₀ order' current loaded p := by
  cases p with
  | loaded d' patch entity => exact ⟨h.1, fun hd => ⟨(h.2 hd).1, hpasses _ (h.2 hd).2⟩⟩
  | flushed d' row | reloaded d' row =>
    cases row with
    | none =>
      obtain ⟨patch, entity, hl, hd⟩ := h
      exact ⟨patch, entity, hl, fun hdd => ⟨(hd hdd).1, hpasses _ (hd hdd).2⟩⟩
    | some row => exact h
  | _ => trivial

omit [DecidableEq C] in
/-- Another current row, for a client that has not written it. -/
theorem PatchOk.publish (h : PatchOk d row₀ order current loaded p)
    (hfree : ∀ row, (d, row) ∉ p.documentWrites) (current' : Option Document) :
    PatchOk d row₀ order current' loaded p := by
  cases p with
  | flushed d' row | reloaded d' row =>
    cases row with
    | none => exact h
    | some row =>
      obtain ⟨patch, hl, -⟩ := h
      refine ⟨patch, hl, ?_⟩
      rintro rfl
      exact absurd (List.mem_singleton_self _) (hfree row)
  | loaded d' patch entity => exact h
  | _ => trivial

omit [DecidableEq C] in
/-- What a client has loaded, when it is about to commit. -/
theorem PatchOk.loaded_of_reloaded {d' : UUID} {row : Option Document}
    (h : PatchOk d row₀ order current loaded (.reloaded d' row)) :
    ∃ patch, loaded = some (d', patch) := by
  cases row with
  | none =>
    obtain ⟨patch, -, hl, -⟩ := h
    exact ⟨patch, hl⟩
  | some row =>
    obtain ⟨patch, hl, -⟩ := h
    exact ⟨patch, hl⟩

end PatchOk

/-! ## One step -/

section Step

variable {order : List (C × DocumentPatch)} {c : C} {p : SyncPhase}

/-- A step that commits nothing for `d` and changes the phase of one client. -/
theorem OrderedBy.frame (h : OrderedBy d row₀ tr s order)
    (hcommits : commits (tr ++ [e]) d = commits tr d)
    (hcurrent : (s'.document d).committed = (s.document d).committed)
    (hphase : s'.phase = Function.update s.phase c p)
    (hloaded : ∀ c', c' ≠ c → (patchLog (tr ++ [e])).loaded c' = (patchLog tr).loaded c')
    (hp : PatchOk d row₀ order (s.document d).committed ((patchLog (tr ++ [e])).loaded c) p) :
    OrderedBy d row₀ (tr ++ [e]) s' order := by
  refine ⟨hcommits ▸ h.perm, hcurrent ▸ h.current, fun c' => ?_⟩
  rw [hcurrent, hphase]
  by_cases hc : c' = c
  · subst hc
    rwa [Function.update_self]
  · rw [Function.update_of_ne hc, hloaded c' hc]
    exact h.phases c'

theorem loaded_append (hload : ∀ d patch, e ≠ .load c d patch) :
    (patchLog (tr ++ [e])).loaded c = (patchLog tr).loaded c := by
  rw [patchLog_append]
  cases e with
  | load c' d patch =>
    have hc : c ≠ c' := by
      rintro rfl
      exact hload d patch rfl
    exact Function.update_of_ne hc _ _
  | _ => rfl

theorem commits_append (hpatched : ∀ c d row, e ≠ .patched c d row) :
    commits (tr ++ [e]) d = commits tr d := by
  unfold commits
  rw [patchLog_append]
  cases e with
  | patched c d row => exact absurd rfl (hpatched c d row)
  | _ => rfl

/-- A step that neither loads a row nor commits a patch. -/
theorem OrderedBy.quiet (h : OrderedBy d row₀ tr s order) (hload : ∀ c d patch, e ≠ .load c d patch)
    (hpatched : ∀ c d row, e ≠ .patched c d row)
    (hcurrent : (s'.document d).committed = (s.document d).committed)
    (hphase : s'.phase = Function.update s.phase c p)
    (hp : PatchOk d row₀ order (s.document d).committed ((patchLog tr).loaded c) p) :
    ∃ order', OrderedBy d row₀ (tr ++ [e]) s' order' := by
  refine ⟨order, h.frame (commits_append hpatched) hcurrent hphase ?_ ?_⟩
  · exact fun c' _ => loaded_append (hload c')
  · rwa [loaded_append (hload c)]

/-- A client loads the row that is committed. -/
theorem OrderedBy.load (h : OrderedBy d row₀ tr s order) (hinv : Inv s) {d' : UUID}
    (patch : DocumentPatch) (hidle : s.phase c = .idle) {entity : Document}
    (hvisible : (s.document d').visible c = some entity) :
    PatchOk d row₀ order (s.document d).committed (some (d', patch)) (.loaded d' patch entity) := by
  obtain ⟨current, hcurrent, hrounded, hserial⟩ := h.current
  refine ⟨rfl, ?_⟩
  rintro rfl
  have hfree : ¬ (s.document d').HeldBy c := by
    rintro ⟨v, hv⟩
    have hmem : (d', v) ∈ (s.phase c).documentWrites := (hinv.documentLocks d' c v).1 hv
    rw [hidle] at hmem
    cases hmem
  rw [Cell.visible_of_not_heldBy hfree, hcurrent] at hvisible
  obtain rfl := Option.some.inj hvisible
  exact ⟨hrounded, hserial ▸ passes_last⟩

/-- A client writes what its patch makes of the committed row. -/
theorem OrderedBy.flush (h : OrderedBy d row₀ tr s order) {d' : UUID} {patch : DocumentPatch}
    {entity row : Document} (hloaded : s.phase c = .loaded d' patch entity)
    (hrow : (s.document d').committed = some row) (huptodate : patch.UpToDate entity row)
    (now : Timestamp) :
    PatchOk d row₀ order (s.document d).committed ((patchLog tr).loaded c)
      (.flushed d' (some ((patch.changesOf entity).write now row))) := by
  obtain ⟨current, hcurrent, hrounded, -⟩ := h.current
  have hok := h.phases c
  rw [hloaded] at hok
  refine ⟨patch, hok.1, ?_⟩
  rintro rfl
  obtain rfl := Option.some.inj (hrow.symm.trans hcurrent)
  have hwrite := DocumentPatch.write_changesOf huptodate hrounded now
  refine ⟨DocumentPatch.rounded_write hrounded now, row, hrow, ?_⟩
  rw [hwrite, DocumentPatch.forget_write]

theorem commits_patched {d' : UUID} {row : Option Document} {patch : DocumentPatch}
    (hl : (patchLog tr).loaded c = some (d', patch)) :
    commits (tr ++ [.patched c d' row]) d = commits tr d ++ if d' = d then [(c, patch)] else [] := by
  unfold commits
  rw [patchLog_append, nextLog, hl, List.filter_append, List.map_append]
  congr 1
  by_cases hd : d' = d <;> simp [hd]

/-- The commit of a patch of another document. -/
theorem OrderedBy.patched_of_ne (h : OrderedBy d row₀ tr s order) (hinv : Inv s) {d' : UUID}
    {row : Option Document} (hreloaded : s.phase c = .reloaded d' row) (hd : d' ≠ d)
    (hstep : Step tags s (.patched c d' row) s')
    (hphase : s'.phase = Function.update s.phase c (.patched d')) :
    OrderedBy d row₀ (tr ++ [.patched c d' row]) s' order := by
  obtain ⟨patch, hl⟩ := (hreloaded ▸ h.phases c).loaded_of_reloaded
  refine h.frame ?_ ?_ hphase (fun c' hc => ?_) trivial
  · rw [commits_patched hl, if_neg hd, List.append_nil]
  · rw [document_step hinv hstep]
    simp [SyncClients.current, patches, hd]
  · rw [patchLog_append]
    rfl

/-- The commit of a patch that has written the row. -/
theorem OrderedBy.patched_some (h : OrderedBy d row₀ tr s order) (hinv : Inv s) {row : Document}
    (hreloaded : s.phase c = .reloaded d (some row)) (hstep : Step tags s (.patched c d (some row)) s')
    (hphase : s'.phase = Function.update s.phase c (.patched d)) :
    ∃ order', OrderedBy d row₀ (tr ++ [.patched c d (some row)]) s' order' := by
  have hok := h.phases c
  rw [hreloaded] at hok
  obtain ⟨patch, hl, hwritten⟩ := hok
  obtain ⟨hrounded, old, hold, hrow⟩ := hwritten rfl
  obtain ⟨current, hcurrent, -, hserial⟩ := h.current
  obtain rfl := Option.some.inj (hold.symm.trans hcurrent)
  have hcommitted : (s'.document d).committed = some row := by
    rw [document_step hinv hstep]
    simp [SyncClients.current, patches]
  refine ⟨order ++ [(c, patch)], ?_, ⟨row, hcommitted, hrounded, ?_⟩, fun c' => ?_⟩
  · rw [commits_patched hl, if_pos rfl]
    exact h.perm.append_right _
  · rw [hrow, hserial, patchSerially, patchSerially, serial_append]
    rfl
  · rw [hphase]
    by_cases hc : c' = c
    · subst hc
      rw [Function.update_self]
      trivial
    · rw [Function.update_of_ne hc, patchLog_append]
      refine ((h.phases c').publish (fun row' hrow' => hc ?_) _).reorder fun w hw => hw.append _
      have hmine : (d, row) ∈ (s.phase c).documentWrites := by
        rw [hreloaded]
        exact List.mem_singleton_self _
      exact (hinv.documentLocks.writer_unique hrow' hmine).1

/-- The commit of a patch without a statement: its place is where it has loaded the row. -/
theorem OrderedBy.patched_none (h : OrderedBy d row₀ tr s order) (hinv : Inv s)
    (hreloaded : s.phase c = .reloaded d none) (hstep : Step tags s (.patched c d none) s')
    (hphase : s'.phase = Function.update s.phase c (.patched d)) :
    ∃ order', OrderedBy d row₀ (tr ++ [.patched c d none]) s' order' := by
  have hok := h.phases c
  rw [hreloaded] at hok
  obtain ⟨patch, entity, hl, hsame⟩ := hok
  obtain ⟨happly, hpasses⟩ := hsame rfl
  have hcommitted : (s'.document d).committed = (s.document d).committed := by
    rw [document_step hinv hstep]
    simp [SyncClients.current, patches]
  obtain ⟨order', hperm, hserial, hkeep⟩ := hpasses.exists_insert
    (show (fun (t : C × DocumentPatch) row => t.2.apply row) (c, patch) entity = entity from happly)
  obtain ⟨current, hcurrent, hrounded, hrow⟩ := h.current
  refine ⟨order', ?_, ⟨current, hcommitted ▸ hcurrent, hrounded, hrow.trans hserial.symm⟩,
    fun c' => ?_⟩
  · rw [commits_patched hl, if_pos rfl]
    exact hperm.trans (h.perm.append_right _)
  · rw [hphase, hcommitted]
    by_cases hc : c' = c
    · subst hc
      rw [Function.update_self]
      trivial
    · rw [Function.update_of_ne hc, patchLog_append]
      exact (h.phases c').reorder hkeep

/-- A step under the condition keeps the row in a serial order. -/
theorem orderedBy_step (h : OrderedBy d row₀ tr s order) (hinv : Inv s)
    (hstep : UpToDateStep tags s e s') : ∃ order', OrderedBy d row₀ (tr ++ [e]) s' order' := by
  obtain ⟨hstep, hflush⟩ := hstep
  have hdoc := document_step hinv hstep d
  have hstep' := hstep
  cases hstep with
  | @load c d' patch hidle =>
    refine ⟨order, h.frame (c := c) (commits_append (by simp)) rfl rfl (fun c' hc => ?_) ?_⟩
    · refine loaded_append fun d'' patch' heq => hc ?_
      exact (SyncEvent.load.inj heq).1.symm
    · have hl : (patchLog (tr ++ [.load c d' patch])).loaded c = some (d', patch) := by
        rw [patchLog_append]
        exact Function.update_self _ _ _
      rw [hl]
      cases hvisible : (s.document d').visible c with
      | none => trivial
      | some entity => exact h.load hinv patch hidle hvisible
  | @flush c d' patch entity row now hloaded hchanges hfree hrow hraises =>
    have huptodate := hflush c d' patch entity row rfl hloaded hchanges hrow
    refine h.quiet (c := c) (by simp) (by simp) hdoc rfl ?_
    exact h.flush hloaded hrow huptodate now
  | @flushNothing c d' patch entity hloaded hchanges =>
    have hok := h.phases c
    rw [hloaded] at hok
    refine h.quiet (by simp) (by simp) rfl rfl ⟨patch, entity.forget, hok.1, fun hd => ?_⟩
    exact ⟨DocumentPatch.apply_of_changesOf_empty (hok.2 hd).1 hchanges, (hok.2 hd).2⟩
  | @reload c d' row dto hflushed hdto =>
    have hok := h.phases c
    rw [hflushed] at hok
    refine h.quiet (c := c) (by simp) (by simp) rfl rfl ?_
    cases row <;> exact hok
  | @patched c d' row hreloaded =>
    by_cases hd : d' = d
    · subst hd
      cases row with
      | none => exact h.patched_none hinv hreloaded hstep' rfl
      | some row => exact h.patched_some hinv hreloaded hstep' rfl
    · exact ⟨order, h.patched_of_ne hinv hreloaded hd hstep' rfl⟩
  | @select c d' row hpatched hrow =>
    refine h.quiet (c := c) (by simp) (by simp) rfl rfl ?_
    cases row <;> trivial
  | abort | update | write | refreshed | retry => exact h.quiet (by simp) (by simp) hdoc rfl trivial

end Step

/-- In every run whose flushes leave out only columns that have the loaded value still: the row is,
but for the time of its last change, what the explicitly set columns of the committed patches leave
in some serial order. -/
theorem patches_serial {documents : UUID → Option Document} {chunks : ChunkTable}
    (h : Run (UpToDateStep tags) (init documents chunks) tr s) (hrow : documents d = some row₀)
    (hrounded : row₀.Rounded) :
    ∃ order : List (C × DocumentPatch), order.Perm (commits tr d) ∧
      (s.document d).committed.map Document.forget = some (patchSerially row₀.forget order) := by
  have hinv : ∀ {tr s}, Run (UpToDateStep tags) (init documents chunks) tr s → Inv (C := C) s :=
    fun h => inv_run (h.mono fun _ _ _ hstep => hstep.1)
  have hordered : ∃ order, OrderedBy d row₀ tr s order := by
    refine h.rec_inv (fun tr s => ∃ order, OrderedBy d row₀ tr s order) ?_ ?_
    · exact ⟨[], .refl _, ⟨row₀, hrow, hrounded, rfl⟩, fun c => trivial⟩
    · rintro tr s e s' hrun ⟨order, horder⟩ hstep
      exact orderedBy_step horder (hinv hrun) hstep
  obtain ⟨order, horder⟩ := hordered
  obtain ⟨row, hcommitted, -, hserial⟩ := horder.current
  exact ⟨order, horder.perm, by rw [hcommitted, Option.map_some, hserial]⟩

theorem upToDate_run (h : Run (Step tags) s tr s') (hflush : ∀ c, .flush c ∉ tr) :
    Run (UpToDateStep tags) s tr s' := by
  induction h with
  | nil => exact .nil
  | snoc _ he ih =>
    simp only [List.mem_append, List.mem_singleton, not_or] at hflush
    refine (ih fun c => (hflush c).1).snoc ⟨he, ?_⟩
    rintro c - - - - heq
    exact absurd heq.symm (hflush c).2

end SyncClients

open SyncClients in
/-- Both clients load the row.  The first sets the status and an error; the second sets another status
and another error, and the title that it has loaded. -/
theorem patches_serial_overlap :
    let tags : UUID → Option String := fun _ => none
    let first : DocumentPatch := { statusPatch .failed with errorCode := some (some "ocr_failed") }
    let second : DocumentPatch :=
      { statusPatch .completed with errorCode := some (some "late"), title := some none }
    let row₁ := (first.changesOf newDocument).write 1 newDocument
    let row₂ := (second.changesOf newDocument).write 2 row₁
    let tr : List (SyncEvent ℕ) := [.load 0 ⟨7⟩ first, .load 1 ⟨7⟩ second, .flush 0,
      .reload 0 row₁, .patched 0 ⟨7⟩ (some row₁)] ++ [.flush 1, .reload 1 row₂,
      .patched 1 ⟨7⟩ (some row₂)]
    ∃ s, Run (UpToDateStep tags) (init documents chunks) tr s ∧
      (s.document ⟨7⟩).committed = some row₂ ∧
      ∃ order : List (ℕ × DocumentPatch), order.Perm [(0, first), (1, second)] ∧
        row₂.forget = patchSerially newDocument.forget order := by
  intro tags first second row₁ row₂ tr
  have hidle : ∀ c, (init documents chunks : SyncClients ℕ).phase c = .idle := fun _ => rfl
  have hdocument : (init documents chunks : SyncClients ℕ).document ⟨7⟩ =
    ⟨some newDocument, none⟩ := rfl
  obtain ⟨s₁, h₁, -, hdocument₁, -, hphase₁, hother₁⟩ := exists_load tags 0 first (hidle 0) hdocument
  obtain ⟨s₂, h₂, -, hdocument₂, -, hphase₂, hother₂⟩ :=
    exists_load tags 1 second ((hother₁ 1 (by decide)).trans (hidle 1)) (hdocument₁ ▸ hdocument)
  have hloaded₂ := (hother₂ 0 (by decide)).trans hphase₁
  have hrow₂ : s₂.document ⟨7⟩ = ⟨some newDocument, none⟩ :=
    (congrFun hdocument₂ _).trans ((congrFun hdocument₁ _).trans hdocument)
  obtain ⟨s₃, s₄, h₃, h₄, -, hdocument₄, -, -, hother₄⟩ :=
    exists_commit tags 0 1 hloaded₂ hrow₂ (by decide) (by decide)
  have hloaded₄ := (hother₄ 1 (by decide)).trans hphase₂
  obtain ⟨s₅, s, h₅, h₆, -, hcommitted, -⟩ :=
    exists_commit tags 1 2 hloaded₄ hdocument₄ (by decide) (by decide)
  have hflush₁ : s₂.FlushUpToDate (.flush 0) := by
    intro c d patch entity row hc hloaded _ hrow
    cases hc
    rw [hloaded₂] at hloaded
    cases hloaded
    rw [hrow₂] at hrow
    cases hrow
    exact DocumentPatch.upToDate_self _ _
  have hflush₂ : s₄.FlushUpToDate (.flush 1) := by
    intro c d patch entity row hc hloaded _ hrow
    cases hc
    rw [hloaded₄] at hloaded
    cases hloaded
    rw [hdocument₄] at hrow
    cases hrow
    constructor <;> intro hset <;> first | rfl | exact absurd hset (by decide)
  have hrun : Run (UpToDateStep tags) (init documents chunks) tr s :=
    Run.append_iff.2 ⟨s₄, .cons ⟨h₁, by simp [FlushUpToDate]⟩ <| .cons ⟨h₂, by simp [FlushUpToDate]⟩ <|
      .cons ⟨h₃, hflush₁⟩ <| upToDate_run h₄ (by simp), .cons ⟨h₅, hflush₂⟩ <|
      upToDate_run h₆ (by simp)⟩
  obtain ⟨order, hperm, hserial⟩ := patches_serial hrun (d := ⟨7⟩) rfl rfl
  rw [hcommitted] at hserial
  exact ⟨s, hrun, congrArg Cell.committed hcommitted, order, hperm, Option.some.inj hserial⟩

open SyncClients in
/-- Both clients load the row.  The first sets the status and the error of a failure.  The second sets
the status that it has loaded and another error: its statement leaves the status out, so that the row
has the status of the first and the error of the second. -/
theorem patches_mixed :
    ¬ ∀ (tags : UUID → Option String) (documents : UUID → Option Document) (chunks : ChunkTable)
      (tr : List (SyncEvent ℕ)) (s : SyncClients ℕ) (d : UUID) (row₀ : Document),
      Run (Step tags) (init documents chunks) tr s → documents d = some row₀ → row₀.Rounded →
      ∃ order : List (ℕ × DocumentPatch), order.Perm (commits tr d) ∧
        (s.document d).committed.map Document.forget =
          some (patchSerially row₀.forget order) := by
  intro hclaim
  let tags : UUID → Option String := fun _ => none
  let first : DocumentPatch := { statusPatch .failed with errorCode := some (some "ocr_failed") }
  let second : DocumentPatch := { statusPatch .received with errorCode := some (some "late") }
  let row₁ := (first.changesOf newDocument).write 1 newDocument
  let row₂ := (second.changesOf newDocument).write 2 row₁
  have hidle : ∀ c, (init documents chunks : SyncClients ℕ).phase c = .idle := fun _ => rfl
  have hdocument : (init documents chunks : SyncClients ℕ).document ⟨7⟩ =
    ⟨some newDocument, none⟩ := rfl
  obtain ⟨s₁, h₁, -, hdocument₁, -, hphase₁, hother₁⟩ := exists_load tags 0 first (hidle 0) hdocument
  obtain ⟨s₂, h₂, -, hdocument₂, -, hphase₂, hother₂⟩ :=
    exists_load tags 1 second ((hother₁ 1 (by decide)).trans (hidle 1)) (hdocument₁ ▸ hdocument)
  obtain ⟨s₃, s₄, h₃, h₄, -, hdocument₄, -, -, hother₄⟩ :=
    exists_commit tags 0 1 ((hother₂ 0 (by decide)).trans hphase₁)
      ((congrFun hdocument₂ _).trans ((congrFun hdocument₁ _).trans hdocument)) (by decide) (by decide)
  obtain ⟨s₅, s, h₅, h₆, -, hcommitted, -⟩ :=
    exists_commit tags 1 2 ((hother₄ 1 (by decide)).trans hphase₂) hdocument₄ (by decide) (by decide)
  have hrun : Run (Step tags) (init documents chunks) ([.load 0 ⟨7⟩ first, .load 1 ⟨7⟩ second, .flush 0,
      .reload 0 row₁, .patched 0 ⟨7⟩ (some row₁)] ++ [.flush 1, .reload 1 row₂,
      .patched 1 ⟨7⟩ (some row₂)]) s :=
    Run.append_iff.2 ⟨s₄, .cons h₁ <| .cons h₂ <| .cons h₃ h₄, .cons h₅ h₆⟩
  obtain ⟨order, hperm, hserial⟩ := hclaim tags documents chunks _ s ⟨7⟩ newDocument hrun rfl rfl
  rw [hcommitted] at hserial
  have horder : order = [(0, first), (1, second)] ∨ order = [(1, second), (0, first)] :=
    List.perm_pair.1 hperm
  have hrow := Option.some.inj hserial
  rcases horder with rfl | rfl
  · exact absurd (congrArg Document.status hrow) (by decide)
  · exact absurd (congrArg Document.errorCode hrow) (by decide)

end Ipa
