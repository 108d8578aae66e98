import Ipa.Db.Vector.Refresh

/-!
# What concurrent refreshes leave

Refreshes of one document hold the locks of its chunks until they commit, so the committed chunks are
those that the refreshes leave one after another (`SyncClients.committed_chunks`): a chunk carries
what the refresh that commits last has read.  That may be outdated, since the document is not locked
between the two statements of a refresh.

* `refresh_metadata_current`: the chunks carry the current tag and status if and only if the refresh
  that commits last has read them, as it has in every run where no refresh is overtaken by a patch.
* `overtaken_refresh_stale`: two clients, the first of which is overtaken.
-/

namespace Ipa

open PgVectorStore ReadCommitted Transition

namespace SyncClients

variable {C : Type*} {s s' : SyncClients C} {c : C} {e : SyncEvent C} {tr : List (SyncEvent C)}
  {d : UUID} {tags : UUID → Option String}

/-! ## The trace -/

/-- The rows that the committed refreshes of `d` have read, in the order of their commits. -/
def refreshes (tr : List (SyncEvent C)) (d : UUID) : List TagRow :=
  tr.filterMap fun e =>
    match e with
    | .refreshed _ d' row => if d' = d then some row else none
    | _ => none

/-- The rows of `d` that the committed patches have written. -/
def patches (tr : List (SyncEvent C)) (d : UUID) : List Document :=
  tr.filterMap fun e =>
    match e with
    | .patched _ d' row => if d' = d then row else none
    | _ => none

/-- The row that is committed after the events, `document` being the first one. -/
def current (document : Option Document) (tr : List (SyncEvent C)) (d : UUID) : Option Document :=
  (patches tr d).getLast?.or document

theorem refreshes_append (tr tr' : List (SyncEvent C)) (d : UUID) :
    refreshes (tr ++ tr') d = refreshes tr d ++ refreshes tr' d := List.filterMap_append

theorem current_append (document : Option Document) (tr tr' : List (SyncEvent C)) (d : UUID) :
    current document (tr ++ tr') d = current (current document tr d) tr' d := by
  unfold current patches
  rw [List.filterMap_append, List.getLast?_append, Option.or_assoc]

/-- What refreshes one after another make of a chunk. -/
def refreshAll (chunk : Option Chunk) (rows : List TagRow) : Option Chunk :=
  rows.foldl (fun chunk row => chunk.map (refreshChunk row)) chunk

theorem refreshAll_append (chunk : Option Chunk) (rows rows' : List TagRow) :
    refreshAll chunk (rows ++ rows') = refreshAll (refreshAll chunk rows) rows' := List.foldl_append

theorem refreshAll_same (chunk : Option Chunk) (rows : List TagRow) :
    Option.Rel SameButDenorm chunk (refreshAll chunk rows) := by
  induction rows using List.reverseRecOn with
  | nil =>
    cases chunk with
    | none => exact .none
    | some chunk => exact .some (.refl chunk)
  | append_singleton rows row ih =>
    rw [refreshAll_append]
    generalize refreshAll chunk rows = chunk' at ih
    cases ih with
    | none => exact .none
    | some hsame => exact .some (hsame.refreshChunk row)

theorem refreshAll_carries {chunk : Option Chunk} {chunk' : Chunk} {rows : List TagRow} {row : TagRow}
    (hlast : rows.getLast? = some row) (h : refreshAll chunk rows = some chunk') :
    Carries row chunk' := by
  obtain ⟨rows', rfl⟩ := List.getLast?_eq_some_iff.1 hlast
  rw [refreshAll_append] at h
  obtain ⟨chunk'', -, rfl⟩ := Option.map_eq_some_iff.1 h
  exact carries_refreshChunk row chunk''

/-! ## The invariant -/

/-- A refresh has written what it has to, and the chunks that it has not written are still to come. -/
def RefreshOk (committed : ChunkKey → Option Chunk) : SyncPhase → Prop
  | .updating d row todo w =>
    (∀ k ∈ todo, k.documentId = d) ∧
    (∀ k chunk, (k, chunk) ∈ w →
      k.documentId = d ∧ (committed k).map (refreshChunk row) = some chunk) ∧
    ∀ k, k.documentId = d → committed k ≠ none → k ∈ todo ∨ ∃ chunk, (k, chunk) ∈ w
  | _ => True

/-- The rows, the locks and the open refreshes fit together. -/
structure Inv (s : SyncClients C) : Prop where
  documentLocks : Locks s.document fun c => (s.phase c).documentWrites
  chunkLocks : Locks s.chunk fun c => (s.phase c).chunkWrites
  indexed : ∀ k, (s.chunk k).committed ≠ none → k ∈ s.index
  refresh : ∀ c, RefreshOk (fun k => (s.chunk k).committed) (s.phase c)

theorem inv_init (documents : UUID → Option Document) (chunks : ChunkTable) :
    Inv (init documents chunks : SyncClients C) where
  documentLocks _ _ _ := by simp [init, SyncPhase.documentWrites]
  chunkLocks _ _ _ := by simp [init, SyncPhase.chunkWrites]
  indexed k hk := by
    obtain ⟨chunk, hchunk⟩ := Option.ne_none_iff_exists'.1 hk
    obtain ⟨hrow, rfl⟩ := chunks.lookup_eq_some_iff.1 hchunk
    exact List.mem_map_of_mem hrow
  refresh _ := trivial

variable [DecidableEq C]

/-- A statement changes the phase of its client and commits no chunk. -/
theorem Inv.statement (h : Inv s) {p : SyncPhase} {document : Store C UUID Document}
    {chunk : Store C ChunkKey Chunk}
    (hdocument : Locks document fun c' => (Function.update s.phase c p c').documentWrites)
    (hchunk : Locks chunk fun c' => (Function.update s.phase c p c').chunkWrites)
    (hcommitted : ∀ k, (chunk k).committed = (s.chunk k).committed)
    (hp : RefreshOk (fun k => (s.chunk k).committed) p) :
    Inv ⟨s.index, document, chunk, Function.update s.phase c p⟩ where
  documentLocks := hdocument
  chunkLocks := hchunk
  indexed k := by
    rw [hcommitted]
    exact h.indexed k
  refresh c' := by
    simp only [hcommitted]
    rw [read_update (RefreshOk _)]
    split_ifs
    · exact hp
    · exact h.refresh c'

/-- What the commit of a refresh does to the chunks. -/
theorem committed_commit (h : Inv s) {row : TagRow} {w : List (ChunkKey × Chunk)}
    (hupdating : s.phase c = .updating d row [] w) (k : ChunkKey) :
    (s.chunk.commit c k).committed =
      if k.documentId = d then (s.chunk k).committed.map (refreshChunk row)
      else (s.chunk k).committed := by
  have hw : (s.phase c).chunkWrites = w := by
    rw [hupdating]
    rfl
  have hok := h.refresh c
  rw [hupdating] at hok
  obtain ⟨-, hwritten, hall⟩ := hok
  by_cases hmem : ∃ chunk, (k, chunk) ∈ w
  · obtain ⟨chunk, hchunk⟩ := hmem
    obtain ⟨hd, hnew⟩ := hwritten k chunk hchunk
    rw [if_pos hd, hnew]
    exact h.chunkLocks.committed_commit (hw.symm ▸ hchunk)
  · rw [h.chunkLocks.committed_commit_of_notMem fun chunk hchunk => hmem ⟨chunk, hw ▸ hchunk⟩]
    split_ifs with hd
    · by_cases hnone : (s.chunk k).committed = none
      · rw [hnone]
        rfl
      · rcases hall k hd hnone with htodo | hmem'
        · cases htodo
        · exact absurd hmem' hmem
    · rfl

theorem Inv.refreshed (h : Inv s) {row : TagRow} {w : List (ChunkKey × Chunk)}
    (hupdating : s.phase c = .updating d row [] w) :
    Inv ⟨s.index, s.document, s.chunk.commit c, Function.update s.phase c .done⟩ where
  documentLocks := h.documentLocks.update_phase (by rw [hupdating]; rfl)
  chunkLocks := h.chunkLocks.commit_phase rfl
  indexed k hk := by
    refine h.indexed k fun hnone => hk ?_
    rw [committed_commit h hupdating, hnone]
    split_ifs <;> rfl
  refresh c' := by
    rw [read_update (RefreshOk _)]
    split_ifs with hc
    · trivial
    · have hok := h.refresh c'
      cases hp : s.phase c' with
      | updating d' row' todo w' =>
        rw [hp] at hok
        obtain ⟨htodo, hwritten, hall⟩ := hok
        refine ⟨htodo, fun k chunk hchunk => ?_, fun k hd hk => hall k hd fun hnone => hk ?_⟩
        · have hmine : (k, chunk) ∈ (s.phase c').chunkWrites := by
            rw [hp]
            exact hchunk
          have hsame : (s.chunk.commit c k).committed = (s.chunk k).committed :=
            h.chunkLocks.committed_commit_of_notMem fun chunk' hchunk' =>
              hc (h.chunkLocks.writer_unique hmine hchunk').1
          show k.documentId = d' ∧ (s.chunk.commit c k).committed.map _ = some chunk
          rw [hsame]
          exact hwritten k chunk hchunk
        · show (s.chunk.commit c k).committed = none
          rw [committed_commit h hupdating, show (s.chunk k).committed = none from hnone]
          split_ifs <;> rfl
      | _ => trivial

/-- A statement that writes nothing. -/
theorem Inv.reads (h : Inv s) {p : SyncPhase}
    (hdocument : p.documentWrites = (s.phase c).documentWrites)
    (hchunk : p.chunkWrites = (s.phase c).chunkWrites)
    (hp : RefreshOk (fun k => (s.chunk k).committed) p) :
    Inv ⟨s.index, s.document, s.chunk, Function.update s.phase c p⟩ :=
  h.statement (h.documentLocks.update_phase hdocument) (h.chunkLocks.update_phase hchunk)
    (fun _ => rfl) hp

omit [DecidableEq C] in
/-- The second statement of a refresh goes through the chunks of its document. -/
theorem Inv.update (h : Inv s) (d : UUID) (row : TagRow) :
    RefreshOk (fun k => (s.chunk k).committed)
      (.updating d row (s.index.filter fun k => k.documentId = d) []) := by
  refine ⟨fun k hk => ?_, fun k chunk hk => ?_, fun k hd hk => .inl ?_⟩
  · exact of_decide_eq_true (List.mem_filter.1 hk).2
  · cases hk
  · exact List.mem_filter.2 ⟨h.indexed k hk, decide_eq_true hd⟩

theorem RefreshOk.write {committed : ChunkKey → Option Chunk} {row : TagRow} {todo : List ChunkKey}
    {w : List (ChunkKey × Chunk)} {k : ChunkKey} {chunk : Chunk}
    (h : RefreshOk committed (.updating d row todo w)) (htodo : k ∈ todo)
    (hchunk : committed k = some chunk) : RefreshOk committed
      (.updating d row (todo.erase k) (w ++ [(k, refreshChunk row chunk)])) := by
  obtain ⟨hdoc, hwritten, hall⟩ := h
  refine ⟨fun k' hk' => hdoc k' (List.mem_of_mem_erase hk'), fun k' chunk' hk' => ?_,
    fun k' hd hk' => ?_⟩
  · rcases List.mem_append.1 hk' with hk' | hk'
    · exact hwritten k' chunk' hk'
    · obtain ⟨rfl, rfl⟩ := Prod.mk.inj (List.mem_singleton.1 hk')
      exact ⟨hdoc k' htodo, congrArg (Option.map (refreshChunk row)) hchunk⟩
  · by_cases hk : k' = k
    · exact .inr ⟨refreshChunk row chunk, by simp [hk]⟩
    · refine (hall k' hd hk').imp (List.mem_erase_of_ne hk).2 ?_
      rintro ⟨chunk', hchunk'⟩
      exact ⟨chunk', List.mem_append_left _ hchunk'⟩

omit [DecidableEq C] in
theorem chunkWrites_of_patching {p : SyncPhase} (h : p.Patching) : p.chunkWrites = [] := by
  cases p with
  | loaded | flushed | reloaded => rfl
  | _ => cases h

omit [DecidableEq C] in
theorem documentWrites_of_refreshing {p : SyncPhase} (h : p.Refreshing d) : p.documentWrites = [] := by
  cases p with
  | selected | updating => rfl
  | _ => cases h

theorem inv_step (h : Inv s) (he : Step tags s e s') : Inv s' := by
  cases he with
  | @load c d patch hidle =>
    cases hvisible : (s.document d).visible c <;>
      exact h.reads (by rw [hidle]; rfl) (by rw [hidle]; rfl) trivial
  | @flush c d patch entity row now hloaded hchanges hfree hrow hok =>
    exact h.statement (h.documentLocks.write_phase hfree (by rw [hloaded]; rfl))
      (h.chunkLocks.update_phase (by rw [hloaded]; rfl)) (fun _ => rfl) trivial
  | @flushNothing c d patch entity hloaded hchanges =>
    exact h.reads (by rw [hloaded]; rfl) (by rw [hloaded]; rfl) trivial
  | @reload c d row dto hflushed hdto =>
    exact h.reads (by rw [hflushed]; rfl) (by rw [hflushed]; rfl) trivial
  | @patched c d row hreloaded =>
    exact h.statement (h.documentLocks.commit_phase rfl)
      (h.chunkLocks.update_phase (by rw [hreloaded]; rfl)) (fun _ => rfl) trivial
  | @abort c hpatching =>
    exact h.statement (h.documentLocks.rollback_phase rfl)
      (h.chunkLocks.update_phase (chunkWrites_of_patching hpatching).symm) (fun _ => rfl) trivial
  | @select c d row hpatched hrow =>
    cases row <;> exact h.reads (by rw [hpatched]; rfl) (by rw [hpatched]; rfl) trivial
  | @update c d row hselected =>
    exact h.reads (by rw [hselected]; rfl) (by rw [hselected]; rfl) (h.update d row)
  | @write c d row todo w k chunk hupdating htodo hfree hchunk =>
    have hok := h.refresh c
    rw [hupdating] at hok
    exact h.statement (h.documentLocks.update_phase (by rw [hupdating]; rfl))
      (h.chunkLocks.write_phase hfree (by rw [hupdating]; rfl))
      (fun _ => Store.committed_write _ _ _ _ _) (hok.write htodo hchunk)
  | @refreshed c d row w hupdating => exact h.refreshed hupdating
  | @retry c d hrefreshing =>
    exact h.statement
      (h.documentLocks.update_phase (documentWrites_of_refreshing hrefreshing).symm)
      (h.chunkLocks.rollback_phase rfl) (fun _ => Store.committed_rollback _ _ _) trivial

theorem inv_run {documents : UUID → Option Document} {chunks : ChunkTable}
    (h : Run (Step tags) (init documents chunks) tr s) : Inv s :=
  h.state_inv Inv (inv_init documents chunks) fun _ _ _ hi he => inv_step hi he

/-! ## What a run commits -/

/-- Only the commit of a patch changes a document, and it publishes what the patch has written. -/
theorem document_step (h : Inv s) (he : Step tags s e s') (d : UUID) :
    (s'.document d).committed = current (s.document d).committed [e] d := by
  cases he with
  | load | flushNothing | reload | select | update | write | refreshed | retry => rfl
  | flush => exact Store.committed_write _ _ _ _ _
  | abort => exact Store.committed_rollback _ _ _
  | @patched c d' row hreloaded =>
    have hw : (s.phase c).documentWrites = row.toList.map (d', ·) := by
      rw [hreloaded]
      rfl
    by_cases hd : d' = d
    · subst hd
      cases row with
      | none =>
        rw [h.documentLocks.committed_commit_of_notMem fun v hv => by rw [hw] at hv; cases hv]
        simp [current, patches]
      | some row =>
        have hmem : (d', row) ∈ (s.phase c).documentWrites := by
          rw [hw]
          exact List.mem_singleton_self _
        have hcommit := h.documentLocks.committed_commit hmem
        simpa [current, patches] using hcommit
    · have hnot : ∀ v, (d, v) ∉ (s.phase c).documentWrites := by
        intro v hv
        rw [hw] at hv
        obtain ⟨row', -, heq⟩ := List.mem_map.1 hv
        exact hd (congrArg Prod.fst heq)
      rw [h.documentLocks.committed_commit_of_notMem hnot]
      simp [current, patches, hd]

theorem committed_documents {documents : UUID → Option Document} {chunks : ChunkTable}
    (h : Run (Step tags) (init documents chunks) tr s) (d : UUID) :
    (s.document d).committed = current (documents d) tr d := by
  refine h.rec_inv (fun tr s => (s.document d).committed = current (documents d) tr d) rfl ?_
  intro tr s e s' hrun ih he
  rw [current_append, ← ih]
  exact document_step (inv_run hrun) he d

/-- Only the commit of a refresh changes a chunk. -/
theorem chunk_step (h : Inv s) (he : Step tags s e s') (k : ChunkKey) :
    (s'.chunk k).committed = refreshAll (s.chunk k).committed (refreshes [e] k.documentId) := by
  cases he with
  | load | flush | flushNothing | reload | patched | abort | select | update => rfl
  | write => exact Store.committed_write _ _ _ _ _
  | retry => exact Store.committed_rollback _ _ _
  | @refreshed c d row w hupdating =>
    have hcommit := committed_commit h hupdating k
    by_cases hd : d = k.documentId
    · rw [if_pos hd.symm] at hcommit
      rw [hcommit]
      simp [refreshes, refreshAll, hd]
    · rw [if_neg (Ne.symm hd)] at hcommit
      rw [hcommit]
      simp [refreshes, refreshAll, hd]

/-- The committed chunks are those that the committed refreshes leave one after another. -/
theorem committed_chunks {documents : UUID → Option Document} {chunks : ChunkTable}
    (h : Run (Step tags) (init documents chunks) tr s) (k : ChunkKey) :
    (s.chunk k).committed = refreshAll (chunks.lookup k) (refreshes tr k.documentId) := by
  refine h.rec_inv (fun tr s => (s.chunk k).committed =
    refreshAll (chunks.lookup k) (refreshes tr k.documentId)) rfl ?_
  intro tr s e s' hrun ih he
  rw [refreshes_append, refreshAll_append, ← ih]
  exact chunk_step (inv_run hrun) he k

/-! ## Refreshes that nobody overtakes -/

section Overtaken

variable {document : Option Document}

/-- The refresh of `d` that commits last has read the current tag and status. -/
def LastReadCurrent (tags : UUID → Option String) (document : Option Document)
    (tr : List (SyncEvent C)) (d : UUID) : Prop :=
  ∀ row doc, (refreshes tr d).getLast? = some row → current document tr d = some doc →
    row = selectTag tags doc

/-- No patch that changes the tag or the status of `d` commits between the two statements of a
refresh: what a refresh has read is current when it commits. -/
def NotOvertaken (tags : UUID → Option String) (document : Option Document)
    (tr : List (SyncEvent C)) (d : UUID) : Prop :=
  ∀ tr₁ tr₂ c row doc, tr = tr₁ ++ .refreshed c d row :: tr₂ → current document tr₁ d = some doc →
    row = selectTag tags doc

/-- The client has committed its patch of `d` and has not refreshed the chunks yet. -/
def Pending (d : UUID) (p : SyncPhase) : Prop := p = .patched d ∨ p.Refreshing d

omit [DecidableEq C] in
theorem LastReadCurrent.append (h : LastReadCurrent tags document tr d)
    (hrefreshed : ∀ c row, e ≠ .refreshed c d row) (hpatched : ∀ c row, e ≠ .patched c d row) :
    LastReadCurrent tags document (tr ++ [e]) d := by
  have hr : refreshes [e] d = [] := by
    cases e with
    | refreshed c d' row =>
      have hd : d' ≠ d := by
        rintro rfl
        exact hrefreshed c row rfl
      simp [refreshes, hd]
    | _ => rfl
  have hp : patches [e] d = [] := by
    cases e with
    | patched c d' row =>
      have hd : d' ≠ d := by
        rintro rfl
        exact hpatched c row rfl
      simp [patches, hd]
    | _ => rfl
  intro row doc hlast hcurrent
  rw [refreshes_append, hr, List.append_nil] at hlast
  rw [current_append, current, hp] at hcurrent
  exact h row doc hlast hcurrent

omit [DecidableEq C] in
theorem not_pending_of_patching {p : SyncPhase} (hp : p.Patching) : ¬ Pending d p := by
  rintro (rfl | hr)
  · exact hp
  · cases p with
    | selected | updating => exact hp
    | _ => cases hr

omit [DecidableEq C] in
theorem not_finished_of_pending {p : SyncPhase} (hp : Pending d p) : ¬ p.Finished := by
  rcases hp with rfl | hp
  · exact id
  · cases p with
    | selected | updating => exact id
    | _ => cases hp

omit [DecidableEq C] in
theorem eq_of_pending_of_refreshing {p : SyncPhase} {d' : UUID} (hp : Pending d p)
    (hr : p.Refreshing d') : d' = d := by
  rcases hp with rfl | hp
  · cases hr
  · cases p with
    | selected | updating => exact hr.symm.trans hp
    | _ => cases hr

theorem pending_update {c' : C} {p : SyncPhase} (hp : Pending d (s.phase c'))
    (h : Pending d (s.phase c) → Pending d p) : Pending d (Function.update s.phase c p c') := by
  rw [read_update (Pending d)]
  split_ifs with hc
  · exact h (hc ▸ hp)
  · exact hp

/-- A client stays pending until it has refreshed the chunks, or has found that there is no such
document. -/
theorem pending_step (he : Step tags s e s') {c' : C} (hp : Pending d (s.phase c')) :
    Pending d (s'.phase c') ∨ (∃ row, e = .refreshed c' d row) ∨
      e = .select c' d none ∧ (s.document d).visible c' = none := by
  cases he with
  | @load c _ _ hmine =>
    refine .inl (pending_update hp fun h => ?_)
    rw [hmine] at h
    rcases h with h | h <;> cases h
  | @flush c _ _ _ _ _ hmine | @flushNothing c _ _ _ hmine | @reload c _ _ _ hmine
  | @patched c _ _ hmine =>
    exact .inl (pending_update hp fun h => absurd h (not_pending_of_patching (by rw [hmine]; trivial)))
  | @abort c hpatching =>
    exact .inl (pending_update hp fun h => absurd h (not_pending_of_patching hpatching))
  | @select c d' row hpatched hrow =>
    by_cases hc : c' = c
    · subst hc
      rw [hpatched] at hp
      rcases hp with hp | hp
      · obtain rfl := SyncPhase.patched.inj hp
        subst hrow
        cases hvisible : (s.document d').visible c' with
        | none => exact .inr (.inr ⟨rfl, rfl⟩)
        | some doc =>
          refine .inl (.inr ?_)
          simp only [Function.update_self]
          rfl
      · cases hp
    · left
      simp only [Function.update_of_ne hc]
      exact hp
  | @update c d' row hselected =>
    refine .inl (pending_update hp fun h => .inr (eq_of_pending_of_refreshing h ?_))
    rw [hselected]
    rfl
  | @write c d' row todo w k chunk hupdating =>
    refine .inl (pending_update hp fun h => .inr (eq_of_pending_of_refreshing h ?_))
    rw [hupdating]
    rfl
  | @refreshed c d' row w hupdating =>
    by_cases hc : c' = c
    · subst hc
      obtain rfl : d' = d := eq_of_pending_of_refreshing hp (by rw [hupdating]; rfl)
      exact .inr (.inl ⟨row, rfl⟩)
    · left
      simp only [Function.update_of_ne hc]
      exact hp
  | @retry c d' hrefreshing =>
    refine .inl (pending_update hp fun h => .inl ?_)
    rw [eq_of_pending_of_refreshing h hrefreshing]

/-- While no refresh is overtaken, the last one has read the current row or another one is to come. -/
theorem pending_or_current {documents : UUID → Option Document} {chunks : ChunkTable}
    (h : Run (Step tags) (init documents chunks) tr s) (hfresh : NotOvertaken tags (documents d) tr d) :
    (∃ c, Pending d (s.phase c)) ∨ LastReadCurrent tags (documents d) tr d := by
  refine h.rec_inv (fun tr s => NotOvertaken tags (documents d) tr d →
    (∃ c, Pending d (s.phase c)) ∨ LastReadCurrent tags (documents d) tr d) ?_ ?_ hfresh
  · exact fun _ => .inr fun row doc hlast => by cases hlast
  intro tr s e s' hrun ih he hfresh
  have hfresh' : NotOvertaken tags (documents d) tr d := fun tr₁ tr₂ c row doc htr =>
    hfresh tr₁ (tr₂ ++ [e]) c row doc (by rw [htr, List.append_assoc, List.cons_append])
  by_cases hrefreshed : ∃ c row, e = .refreshed c d row
  · obtain ⟨c, row, rfl⟩ := hrefreshed
    right
    intro row' doc hlast hcurrent
    have hone : refreshes [SyncEvent.refreshed c d row] d = [row] := by simp [refreshes]
    rw [refreshes_append, hone, List.getLast?_concat] at hlast
    obtain rfl := Option.some.inj hlast
    rw [current_append] at hcurrent
    exact hfresh tr [] c row doc rfl hcurrent
  by_cases hpatched : ∃ c row, e = .patched c d row
  · obtain ⟨c, row, rfl⟩ := hpatched
    left
    cases he with
    | patched => exact ⟨c, .inl (Function.update_self _ _ _)⟩
  have hkeep : LastReadCurrent tags (documents d) tr d →
      LastReadCurrent tags (documents d) (tr ++ [e]) d := fun hlast =>
    hlast.append (fun c row hev => hrefreshed ⟨c, row, hev⟩) fun c row hev => hpatched ⟨c, row, hev⟩
  rcases ih hfresh' with ⟨c, hp⟩ | hlast
  · rcases pending_step he hp with hp | ⟨row, hev⟩ | ⟨hev, hvisible⟩
    · exact .inl ⟨c, hp⟩
    · exact absurd ⟨c, row, hev⟩ hrefreshed
    · have hphase : s.phase c = .patched d := by
        rw [hev] at he
        cases he with
        | select hpatched => exact hpatched
      have hnone : current (documents d) tr d = none := by
        rw [← committed_documents hrun d, ← hvisible]
        refine (Cell.visible_of_not_heldBy ?_).symm
        rintro ⟨v, hv⟩
        have hmem : (d, v) ∈ (s.phase c).documentWrites :=
          ((inv_run hrun).documentLocks d c v).1 hv
        rw [hphase] at hmem
        cases hmem
      refine .inr (hkeep fun row doc _ hcurrent => ?_)
      rw [hnone] at hcurrent
      cases hcurrent
  · exact .inr (hkeep hlast)

end Overtaken

/-! ## The theorem -/

/-- The chunks of `d` carry its current tag and status. -/
def ChunksCurrent (tags : UUID → Option String) (s : SyncClients C) (d : UUID) : Prop :=
  ∀ k chunk doc, (s.chunk k).committed = some chunk → k.documentId = d →
    (s.document d).committed = some doc → Carries (selectTag tags doc) chunk

/-- Every chunk has kept the other members of its metadata and its other columns, and the chunks of
documents that nobody has refreshed are as they were. -/
def OthersKept (chunks : ChunkTable) (tr : List (SyncEvent C)) (s : SyncClients C) : Prop :=
  ∀ k, Option.Rel SameButDenorm (chunks.lookup k) (s.chunk k).committed ∧
    (refreshes tr k.documentId = [] → (s.chunk k).committed = chunks.lookup k)

theorem othersKept_run {documents : UUID → Option Document} {chunks : ChunkTable}
    (h : Run (Step tags) (init documents chunks) tr s) : OthersKept chunks tr s := by
  intro k
  have hchunk := committed_chunks h k
  refine ⟨hchunk ▸ refreshAll_same _ _, fun hnone => ?_⟩
  rw [hchunk, hnone]
  rfl

/-! ### Transactions that nobody interrupts -/

section Alone

variable (tags) {chunk : Chunk} {doc : Document} {k : ChunkKey}

/-- The client loads the document. -/
theorem exists_load (c : C) (patch : DocumentPatch) (hidle : s.phase c = .idle)
    (hdocument : s.document d = ⟨some doc, none⟩) :
    ∃ s', Step tags s (.load c d patch) s' ∧ s'.index = s.index ∧ s'.document = s.document ∧
      s'.chunk = s.chunk ∧ s'.phase c = .loaded d patch doc ∧ ∀ c' ≠ c, s'.phase c' = s.phase c' := by
  have hvisible : (s.document d).visible c = some doc := by rw [hdocument]; rfl
  have h₁ : Step tags s (.load c d patch) ⟨s.index, s.document, s.chunk,
      Function.update s.phase c (afterLoad d patch ((s.document d).visible c))⟩ := .load hidle
  rw [hvisible] at h₁
  exact ⟨_, h₁, rfl, rfl, rfl, Function.update_self _ _ _, fun c' hc => Function.update_of_ne hc _ _⟩

/-- The client writes the columns that differ from what it has loaded and commits. -/
theorem exists_commit (c : C) {patch : DocumentPatch} {entity : Document} (now : Timestamp)
    (hloaded : s.phase c = .loaded d patch entity) (hdocument : s.document d = ⟨some doc, none⟩)
    (hchanges : patch.changesOf entity ≠ .empty) (hok : (patch.changesOf entity).raises tags = none) :
    let row := (patch.changesOf entity).write now doc
    ∃ s₁ s', Step tags s (.flush c) s₁ ∧
      Run (Step tags) s₁ [.reload c row, .patched c d (some row)] s' ∧
      s'.index = s.index ∧ s'.document d = ⟨some row, none⟩ ∧ s'.chunk = s.chunk ∧
      s'.phase c = .patched d ∧ ∀ c' ≠ c, s'.phase c' = s.phase c' := by
  intro row
  let phase₂ : C → SyncPhase := Function.update s.phase c (.flushed d (some row))
  let phase₃ : C → SyncPhase := Function.update phase₂ c (.reloaded d (some row))
  have h₂ : Step tags s (.flush c) ⟨s.index, s.document.write c d row, s.chunk, phase₂⟩ :=
    .flush now hloaded hchanges (congrArg Cell.writer hdocument) (congrArg Cell.committed hdocument)
      hok
  have hwriter := Store.writer_write c d row s.document
  have h₃ : Step tags ⟨s.index, s.document.write c d row, s.chunk, phase₂⟩ (.reload c row)
      ⟨s.index, s.document.write c d row, s.chunk, phase₃⟩ :=
    .reload (s := ⟨s.index, s.document.write c d row, s.chunk, phase₂⟩) (Function.update_self _ _ _)
      (Cell.visible_of_writer hwriter)
  have h₄ : Step tags ⟨s.index, s.document.write c d row, s.chunk, phase₃⟩ (.patched c d (some row))
      ⟨s.index, (s.document.write c d row).commit c, s.chunk, Function.update phase₃ c (.patched d)⟩ :=
    .patched (s := ⟨s.index, s.document.write c d row, s.chunk, phase₃⟩) (Function.update_self _ _ _)
  refine ⟨_, _, h₂, .cons h₃ <| .single h₄, rfl, ?_, rfl, Function.update_self _ _ _, fun c' hc => ?_⟩
  · exact Cell.commit_of_writer hwriter
  · simp only [phase₂, phase₃, Function.update_of_ne hc]

/-- The client commits its patch. -/
theorem exists_patch (c : C) (patch : DocumentPatch) (now : Timestamp) (hidle : s.phase c = .idle)
    (hdocument : s.document d = ⟨some doc, none⟩) (hchanges : patch.changesOf doc ≠ .empty)
    (hok : (patch.changesOf doc).raises tags = none) :
    let row := (patch.changesOf doc).write now doc
    ∃ s', Run (Step tags) s [.load c d patch, .flush c, .reload c row, .patched c d (some row)] s' ∧
      s'.index = s.index ∧ s'.document d = ⟨some row, none⟩ ∧ s'.chunk = s.chunk ∧
      s'.phase c = .patched d ∧ ∀ c' ≠ c, s'.phase c' = s.phase c' := by
  intro row
  obtain ⟨s₁, h₁, hindex₁, hdocument₁, hchunk₁, hphase₁, hother₁⟩ :=
    exists_load tags c patch hidle hdocument
  obtain ⟨s₂, s', h₂, h₃, hindex, hdocument', hchunk, hphase, hother⟩ :=
    exists_commit tags c now hphase₁ (hdocument₁ ▸ hdocument) hchanges hok
  exact ⟨s', .cons h₁ <| .cons h₂ h₃, hindex.trans hindex₁, hdocument', hchunk.trans hchunk₁, hphase,
    fun c' hc => (hother c' hc).trans (hother₁ c' hc)⟩

/-- The client reads the document. -/
theorem exists_select (c : C) (hpatched : s.phase c = .patched d)
    (hdocument : s.document d = ⟨some doc, none⟩) :
    ∃ s', Step tags s (.select c d (some (selectTag tags doc))) s' ∧ s'.index = s.index ∧
      s'.document = s.document ∧ s'.chunk = s.chunk ∧ s'.phase c = .selected d (selectTag tags doc) ∧
      ∀ c' ≠ c, s'.phase c' = s.phase c' := by
  have hrow : some (selectTag tags doc) = ((s.document d).visible c).map (selectTag tags) := by
    rw [hdocument]
    rfl
  exact ⟨_, .select hpatched hrow, rfl, rfl, rfl, Function.update_self _ _ _,
    fun c' hc => Function.update_of_ne hc _ _⟩

/-- The client writes the only chunk. -/
theorem exists_refresh (c : C) {row : TagRow} (hselected : s.phase c = .selected d row)
    (hindex : s.index = [k]) (hk : k.documentId = d) (hchunk : s.chunk k = ⟨some chunk, none⟩) :
    ∃ s', Run (Step tags) s [.update c, .write c k, .refreshed c d row] s' ∧ s'.index = s.index ∧
      s'.document = s.document ∧ s'.chunk k = ⟨some (refreshChunk row chunk), none⟩ ∧
      s'.phase c = .done ∧ ∀ c' ≠ c, s'.phase c' = s.phase c' := by
  have htodo : s.index.filter (fun k => k.documentId = d) = [k] := by
    rw [hindex, List.filter_singleton, hk, decide_eq_true rfl]
    rfl
  have h₁ : Step tags s (.update c) ⟨s.index, s.document, s.chunk, Function.update s.phase c
      (.updating d row (s.index.filter fun k => k.documentId = d) [])⟩ := .update hselected
  rw [htodo] at h₁
  let phase₁ : C → SyncPhase := Function.update s.phase c (.updating d row [k] [])
  let phase₂ : C → SyncPhase :=
    Function.update phase₁ c (.updating d row [] [(k, refreshChunk row chunk)])
  have h₂ : Step tags ⟨s.index, s.document, s.chunk, phase₁⟩ (.write c k)
      ⟨s.index, s.document, s.chunk.write c k (refreshChunk row chunk), phase₂⟩ := by
    have hstep : Step tags ⟨s.index, s.document, s.chunk, phase₁⟩ _ _ :=
      .write (s := ⟨s.index, s.document, s.chunk, phase₁⟩) (Function.update_self _ _ _)
        (List.mem_singleton_self k) (congrArg Cell.writer hchunk) (congrArg Cell.committed hchunk)
    rwa [List.erase_cons_head] at hstep
  have h₃ : Step tags ⟨s.index, s.document, s.chunk.write c k (refreshChunk row chunk), phase₂⟩
      (.refreshed c d row) ⟨s.index, s.document,
        (s.chunk.write c k (refreshChunk row chunk)).commit c, Function.update phase₂ c .done⟩ :=
    .refreshed (s := ⟨s.index, s.document, s.chunk.write c k (refreshChunk row chunk), phase₂⟩)
      (Function.update_self _ _ _)
  refine ⟨_, .cons h₁ <| .cons h₂ <| .single h₃, rfl, rfl, ?_, Function.update_self _ _ _,
    fun c' hc => ?_⟩
  · have hwriter := Store.writer_write c k (refreshChunk row chunk) s.chunk
    exact Cell.commit_of_writer hwriter
  · simp only [phase₁, phase₂, Function.update_of_ne hc]

end Alone

end SyncClients

/-- Clients that each commit a patch and then refresh the metadata, interleaved in any way; some
refresh of `d` has committed and all clients have finished.  The chunks of `d` then carry its current
tag and status, everything else being kept, if and only if the refresh of `d` that has committed last
had read them or there are no chunks; and it had read them in every run in which no refresh of `d` is
overtaken by a patch between its two statements. -/
theorem refresh_metadata_current {C : Type*} [DecidableEq C] {tags : UUID → Option String}
    {documents : UUID → Option Document} {chunks : ChunkTable} {tr : List (SyncEvent C)}
    {s : SyncClients C} {d : UUID}
    (h : Run (SyncClients.Step tags) (SyncClients.init documents chunks) tr s)
    (hrefreshed : SyncClients.refreshes tr d ≠ []) (hfinished : ∀ c, (s.phase c).Finished) :
    ((SyncClients.ChunksCurrent tags s d ∧ SyncClients.OthersKept chunks tr s) ↔
      SyncClients.LastReadCurrent tags (documents d) tr d ∨
        ∀ k, k.documentId = d → chunks.lookup k = none) ∧
    (SyncClients.NotOvertaken tags (documents d) tr d →
      SyncClients.LastReadCurrent tags (documents d) tr d) := by
  have hkept := SyncClients.othersKept_run h
  have hdocument := SyncClients.committed_documents h d
  obtain ⟨row, hlast⟩ := Option.ne_none_iff_exists'.1 (mt List.getLast?_eq_none_iff.1 hrefreshed)
  have hcarries : ∀ k chunk, (s.chunk k).committed = some chunk → k.documentId = d →
      Carries row chunk := by
    intro k chunk hchunk hd
    rw [SyncClients.committed_chunks h k, hd] at hchunk
    exact SyncClients.refreshAll_carries hlast hchunk
  refine ⟨⟨?_, ?_⟩, fun hfresh => ?_⟩
  · rintro ⟨hcurrent, -⟩
    by_contra hnot
    push Not at hnot
    obtain ⟨hread, k, hd, hk⟩ := hnot
    refine hread fun row' doc hlast' hdoc => ?_
    obtain rfl : row = row' := Option.some.inj (hlast.symm.trans hlast')
    obtain ⟨chunk, hchunk⟩ := Option.ne_none_iff_exists'.1 hk
    have hrel := (hkept k).1
    rw [hchunk] at hrel
    cases hchunk' : (s.chunk k).committed with
    | none =>
      rw [hchunk'] at hrel
      cases hrel
    | some chunk' =>
      exact (hcarries k chunk' hchunk' hd).unique
        (hcurrent k chunk' doc hchunk' hd (hdocument.trans hdoc))
  · intro hcond
    refine ⟨fun k chunk doc hchunk hd hdoc => ?_, hkept⟩
    rcases hcond with hread | hnone
    · rw [← hread row doc hlast (hdocument.symm.trans hdoc)]
      exact hcarries k chunk hchunk hd
    · have hrel := (hkept k).1
      rw [hnone k hd, hchunk] at hrel
      cases hrel
  · rcases SyncClients.pending_or_current h hfresh with ⟨c, hp⟩ | hread
    · exact absurd (hfinished c) (SyncClients.not_finished_of_pending hp)
    · exact hread

section Runs

namespace SyncClients

/-- A new document. -/
def newDocument : Document where
  id := ⟨7⟩
  sha256 := ""
  originalFilename := ""
  mimeType := ""
  sizeBytes := 0
  blobKey := ""
  pageCount := none
  tagId := none
  tagVersion := none
  status := .received
  currentStep := none
  documentConfidence := none
  needsReview := true
  title := none
  source := .api
  uploadedBy := none
  traceId := none
  errorCode := none
  errorDetail := none
  metadata := []
  createdAt := 0
  updatedAt := 0
  completedAt := none
  deletedAt := none

/-- Its only chunk. -/
def newChunk : Chunk where
  id := ⟨9⟩
  documentId := ⟨7⟩
  chunkIndex := 0
  text := ""
  embedding := []
  embedModel := ""
  embedDim := 0
  pageFrom := none
  pageTo := none
  metadata := []
  createdAt := 0

/-- The document is there. -/
def documents : UUID → Option Document := fun _ => some newDocument

/-- The chunk is there. -/
def chunks : ChunkTable := ⟨[newChunk], List.nodup_singleton _⟩

/-- A patch of the status. -/
def statusPatch (status : DocumentStatus) : DocumentPatch :=
  { DocumentPatch.empty with status := some (some status) }

theorem cell_chunks {C : Type*} : (init documents chunks : SyncClients C).chunk newChunk.key =
    ⟨some newChunk, none⟩ :=
  congrArg (Cell.mk · none) (chunks.lookup_key (List.mem_singleton_self _))

end SyncClients

open SyncClients in
/-- Client `0` and then client `1` patch the status, both read the document, and client `1` refreshes the
chunk before client `0`. -/
theorem refresh_metadata_current_two_clients :
    let tags : UUID → Option String := fun _ => none
    let first := ((statusPatch .processing).changesOf newDocument).write 1 newDocument
    let row := ((statusPatch .completed).changesOf first).write 2 first
    let tr : List (SyncEvent ℕ) := [.load 0 ⟨7⟩ (statusPatch .processing), .flush 0, .reload 0 first,
        .patched 0 ⟨7⟩ (some first)] ++ ([.load 1 ⟨7⟩ (statusPatch .completed), .flush 1, .reload 1 row,
        .patched 1 ⟨7⟩ (some row)] ++ .select 0 ⟨7⟩ (some (selectTag tags row)) ::
      .select 1 ⟨7⟩ (some (selectTag tags row)) ::
      ([.update 1, .write 1 newChunk.key, .refreshed 1 ⟨7⟩ (selectTag tags row)] ++
        [.update 0, .write 0 newChunk.key, .refreshed 0 ⟨7⟩ (selectTag tags row)]))
    ∃ s, Run (SyncClients.Step tags) (init documents chunks) tr s ∧ ChunksCurrent tags s ⟨7⟩ ∧
      (s.document ⟨7⟩).committed = some row := by
  intro tags first row tr
  have hidle : (init documents chunks : SyncClients ℕ).phase 0 = .idle := rfl
  have hdocument : (init documents chunks : SyncClients ℕ).document ⟨7⟩ =
    ⟨some newDocument, none⟩ := rfl
  obtain ⟨s₁, h₁, hindex₁, hdocument₁, hchunk₁, hphase₁, hother₁⟩ :=
    exists_patch tags 0 (statusPatch .processing) 1 hidle hdocument (by decide) (by decide)
  obtain ⟨s₂, h₂, hindex₂, hdocument₂, hchunk₂, hphase₂, hother₂⟩ :=
    exists_patch tags 1 (statusPatch .completed) 2 (hother₁ 1 (by decide)) hdocument₁ (by decide)
      (by decide)
  obtain ⟨s₃, h₃, hindex₃, hdocument₃, hchunk₃, hphase₃, hother₃⟩ :=
    exists_select tags 0 ((hother₂ 0 (by decide)).trans hphase₁) hdocument₂
  obtain ⟨s₄, h₄, hindex₄, hdocument₄, hchunk₄, hphase₄, hother₄⟩ :=
    exists_select tags 1 ((hother₃ 1 (by decide)).trans hphase₂) (hdocument₃ ▸ hdocument₂)
  have hchunk : s₄.chunk newChunk.key = ⟨some newChunk, none⟩ := by
    rw [hchunk₄, hchunk₃, hchunk₂, hchunk₁]
    exact cell_chunks
  have hindex : s₄.index = [newChunk.key] :=
    hindex₄.trans (hindex₃.trans (hindex₂.trans hindex₁))
  obtain ⟨s₅, h₅, hindex₅, hdocument₅, hchunk₅, hphase₅, hother₅⟩ :=
    exists_refresh tags 1 hphase₄ hindex rfl hchunk
  have hselected := (hother₅ 0 (by decide)).trans ((hother₄ 0 (by decide)).trans hphase₃)
  obtain ⟨s, h₆, -, hdocument₆, -, hphase₆, hother₆⟩ :=
    exists_refresh tags 0 hselected (hindex₅.trans hindex) rfl hchunk₅
  have hrun : Run (SyncClients.Step tags) (init documents chunks) tr s :=
    Run.append_iff.2 ⟨s₁, h₁, Run.append_iff.2 ⟨s₂, h₂, .cons h₃ <| .cons h₄ <|
      Run.append_iff.2 ⟨s₅, h₅, h₆⟩⟩⟩
  have hfinished : ∀ c, (s.phase c).Finished := by
    intro c
    by_cases h0 : c = 0
    · rw [h0, hphase₆]
      trivial
    rw [hother₆ c h0]
    by_cases h1 : c = 1
    · rw [h1, hphase₅]
      trivial
    rw [hother₅ c h1, hother₄ c h1, hother₃ c h0, hother₂ c h1, hother₁ c h0]
    trivial
  have hread : LastReadCurrent tags (documents ⟨7⟩) tr ⟨7⟩ := by
    intro row' doc hlast hdoc
    cases hlast
    cases hdoc
    rfl
  have hcurrent := ((refresh_metadata_current hrun (by decide) hfinished).1.2 (.inl hread)).1
  refine ⟨s, hrun, hcurrent, ?_⟩
  rw [hdocument₆, hdocument₅, hdocument₄, hdocument₃]
  exact congrArg Cell.committed hdocument₂

open SyncClients in
/-- Client `0` reads the document, client `1` patches it and refreshes the chunk, and then client `0`
writes what it has read. -/
theorem overtaken_refresh_stale : ¬ ∀ (tags : UUID → Option String)
    (documents : UUID → Option Document) (chunks : ChunkTable) (tr : List (SyncEvent ℕ))
    (s : SyncClients ℕ) (d : UUID), Run (SyncClients.Step tags) (init documents chunks) tr s →
      refreshes tr d ≠ [] → (∀ c, (s.phase c).Finished) → ChunksCurrent tags s d := by
  intro hclaim
  let tags : UUID → Option String := fun _ => none
  have hidle : (init documents chunks : SyncClients ℕ).phase 0 = .idle := rfl
  have hdocument : (init documents chunks : SyncClients ℕ).document ⟨7⟩ =
    ⟨some newDocument, none⟩ := rfl
  obtain ⟨s₁, h₁, hindex₁, hdocument₁, hchunk₁, hphase₁, hother₁⟩ :=
    exists_patch tags 0 (statusPatch .processing) 1 hidle hdocument (by decide) (by decide)
  obtain ⟨s₂, h₂, hindex₂, hdocument₂, hchunk₂, hphase₂, hother₂⟩ :=
    exists_select tags 0 hphase₁ hdocument₁
  obtain ⟨s₃, h₃, hindex₃, hdocument₃, hchunk₃, hphase₃, hother₃⟩ :=
    exists_patch tags 1 (statusPatch .completed) 2
      ((hother₂ 1 (by decide)).trans (hother₁ 1 (by decide))) (hdocument₂ ▸ hdocument₁)
      (by decide) (by decide)
  obtain ⟨s₄, h₄, hindex₄, hdocument₄, hchunk₄, hphase₄, hother₄⟩ :=
    exists_select tags 1 hphase₃ hdocument₃
  have hchunk : s₄.chunk newChunk.key = ⟨some newChunk, none⟩ := by
    rw [hchunk₄, hchunk₃, hchunk₂, hchunk₁]
    exact cell_chunks
  have hindex : s₄.index = [newChunk.key] :=
    hindex₄.trans (hindex₃.trans (hindex₂.trans hindex₁))
  obtain ⟨s₅, h₅, hindex₅, hdocument₅, hchunk₅, hphase₅, hother₅⟩ :=
    exists_refresh tags 1 hphase₄ hindex rfl hchunk
  have hselected := (hother₅ 0 (by decide)).trans ((hother₄ 0 (by decide)).trans
    ((hother₃ 0 (by decide)).trans hphase₂))
  obtain ⟨s, h₆, -, hdocument₆, hchunk₆, hphase₆, hother₆⟩ :=
    exists_refresh tags 0 hselected (hindex₅.trans hindex) rfl hchunk₅
  have hrun := Run.append_iff.2 ⟨s₁, h₁, .cons h₂ <| Run.append_iff.2 ⟨s₃, h₃, .cons h₄ <|
    Run.append_iff.2 ⟨s₅, h₅, h₆⟩⟩⟩
  have hfinished : ∀ c, (s.phase c).Finished := by
    intro c
    by_cases h0 : c = 0
    · rw [h0, hphase₆]
      trivial
    rw [hother₆ c h0]
    by_cases h1 : c = 1
    · rw [h1, hphase₅]
      trivial
    rw [hother₅ c h1, hother₄ c h1, hother₃ c h1, hother₂ c h0, hother₁ c h0]
    trivial
  have hcurrent := hclaim tags documents chunks _ s ⟨7⟩ hrun (by decide) hfinished newChunk.key _ _
    (congrArg Cell.committed hchunk₆) rfl
    (by rw [hdocument₆, hdocument₅, hdocument₄]; exact congrArg Cell.committed hdocument₃)
  have hrow := (carries_refreshChunk _ _).unique hcurrent
  exact absurd (congrArg TagRow.status hrow) (by decide)

end Runs

end Ipa
