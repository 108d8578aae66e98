import Ipa.Db.Base
import Ipa.Lib.Listing
import Ipa.Lib.Run
import Mathlib.Data.Prod.Lex

/-!
# The audit log of a document

`EventRepository.append` inserts a row of `document_events` and `EventRepository.listEvents` lists the
rows of a document.  Transactions append in any interleaving (`AuditStep`): a row carries the start of
its transaction as its time and the next number of the sequence as its identifier, and others see it
once the transaction has committed.  So a row may become visible after rows that are listed behind it.

* `audit_inv`: the identifiers of all rows, visible or not, are distinct.
* `listEvents_grows`: a later listing has all events of an earlier one in their order, and begins with
  them exactly when the events that became visible in between come after them.
* `listEvents_not_prefix`: a transaction that started first and commits last puts its event in front.
-/

namespace Ipa

/-- A row of `document_events`; the DTO that the repository returns has the same fields. -/
structure DocumentEvent where
  id : ℤ
  documentId : UUID
  step : Option PipelineStep
  eventType : String
  payload : Option JsonObject
  actor : Option String
  traceId : Option String
  createdAt : Timestamp

namespace EventRepository

/-- The arguments of `append`. -/
structure AppendArgs where
  documentId : UUID
  eventType : String
  step : Option PipelineStep
  payload : Option JsonObject
  actor : Option String
  traceId : Option String

/-- Insert one event: `id` is the next number of the sequence and `now` the start of the transaction. -/
def append (id : ℤ) (now : Timestamp) (documentExists : UUID → Bool) (args : AppendArgs) :
    Except DbError DocumentEvent :=
  if documentExists args.documentId then
    .ok {
      id := id
      documentId := args.documentId
      step := args.step
      eventType := args.eventType
      payload := args.payload
      actor := args.actor
      traceId := args.traceId
      createdAt := now }
  else .error .foreignKeyViolation

/-- What the listing is ordered by. -/
def order (e : DocumentEvent) : ℤ ×ₗ ℤ := toLex (e.createdAt, e.id)

/-- The events of a document, oldest first.  A negative limit, which the server refuses, is left
out. -/
def listEvents (rows : List DocumentEvent) (documentId : UUID) (limit : ℕ) : List DocumentEvent :=
  (Listing.sortBy order (rows.filter fun e => e.documentId = documentId)).take limit

end EventRepository

open EventRepository

/-! ## Transactions that append -/

/-- A transaction: not begun, open with its start and the rows it has inserted, or over. -/
inductive AuditTxn
  | new
  | active (now : Timestamp) (rows : List DocumentEvent)
  | aborted
  | done

/-- The rows that all transactions see, the last number drawn from the sequence, the clock of the
server and the transactions. -/
structure AuditState (C : Type*) where
  rows : List DocumentEvent
  sequence : ℤ
  clock : Timestamp
  txn : C → AuditTxn

/-- The start of a transaction, an appended event, and the end of the transaction. -/
inductive AuditAction (C : Type*)
  | begin (c : C) (now : Timestamp)
  | append (c : C) (documentExists : UUID → Bool) (args : AppendArgs)
  | commit (c : C)
  | rollback (c : C)

section

variable {C : Type*} [DecidableEq C]

/-- One action of one transaction.  A number drawn from the sequence is not given back. -/
inductive AuditStep : AuditState C → AuditAction C → AuditState C → Prop
  | begin {s : AuditState C} {c : C} {now : Timestamp} (h : s.txn c = .new) (hclock : s.clock ≤ now) :
      AuditStep s (.begin c now)
        { s with clock := now, txn := Function.update s.txn c (.active now []) }
  | append {s : AuditState C} {c : C} {now : Timestamp} {rows : List DocumentEvent}
      {documentExists : UUID → Bool} {args : AppendArgs} {e : DocumentEvent}
      (h : s.txn c = .active now rows)
      (he : EventRepository.append (s.sequence + 1) now documentExists args = .ok e) :
      AuditStep s (.append c documentExists args)
        { s with
          sequence := s.sequence + 1
          txn := Function.update s.txn c (.active now (rows ++ [e])) }
  | appendRaises {s : AuditState C} {c : C} {now : Timestamp} {rows : List DocumentEvent}
      {documentExists : UUID → Bool} {args : AppendArgs} {err : DbError}
      (h : s.txn c = .active now rows)
      (he : EventRepository.append (s.sequence + 1) now documentExists args = .error err) :
      AuditStep s (.append c documentExists args)
        { s with sequence := s.sequence + 1, txn := Function.update s.txn c .aborted }
  | commit {s : AuditState C} {c : C} {now : Timestamp} {rows : List DocumentEvent}
      (h : s.txn c = .active now rows) :
      AuditStep s (.commit c)
        { s with rows := s.rows ++ rows, txn := Function.update s.txn c .done }
  | rollback {s : AuditState C} {c : C} (h : s.txn c ≠ .new) (h' : s.txn c ≠ .done) :
      AuditStep s (.rollback c) { s with txn := Function.update s.txn c .done }

/-- The table before any transaction: whatever earlier ones have left in it. -/
structure AuditState.Initial (s : AuditState C) : Prop where
  new : ∀ c, s.txn c = .new
  ids_nodup : (s.rows.map (·.id)).Nodup
  ids_le : ∀ e ∈ s.rows, e.id ≤ s.sequence

/-- The rows of an open transaction. -/
def AuditTxn.rows : AuditTxn → List DocumentEvent
  | .active _ rows => rows
  | _ => []

/-- The rows in one place: visible to all, or inserted by one open transaction. -/
def AuditState.held (s : AuditState C) : Option C → List DocumentEvent
  | none => s.rows
  | some c => (s.txn c).rows

section Held

variable {s s' : AuditState C} {c : C} {txn : AuditTxn}

omit [DecidableEq C] in
theorem held_of_active {now : Timestamp} {rows : List DocumentEvent}
    (h : s.txn c = .active now rows) : s.held (some c) = rows :=
  congrArg AuditTxn.rows h

theorem held_update_self (h : s'.txn = Function.update s.txn c txn) :
    s'.held (some c) = txn.rows := by
  have htxn : s'.txn c = txn := by rw [h, Function.update_self]
  exact congrArg AuditTxn.rows htxn

theorem held_update_of_ne (h : s'.txn = Function.update s.txn c txn) (hrows : s'.rows = s.rows)
    {p : Option C} (hp : p ≠ some c) : s'.held p = s.held p := by
  cases p with
  | none => exact hrows
  | some c' =>
    have hc : c' ≠ c := fun hc => hp (congrArg some hc)
    have htxn : s'.txn c' = s.txn c' := by rw [h, Function.update_of_ne hc]
    exact congrArg AuditTxn.rows htxn

/-- A transaction drops its rows. -/
theorem held_sublist_of_empty (h : s'.txn = Function.update s.txn c txn) (hrows : s'.rows = s.rows)
    (htxn : txn.rows = []) (p : Option C) : (s'.held p).Sublist (s.held p) := by
  by_cases hp : p = some c
  · subst hp
    rw [held_update_self h, htxn]
    exact List.nil_sublist _
  · rw [held_update_of_ne h hrows hp]

end Held

/-! ## The identifiers are distinct -/

/-- No two rows have the same identifier, and each was drawn from the sequence. -/
structure AuditInv (s : AuditState C) : Prop where
  nodup : ∀ p, ((s.held p).map (·.id)).Nodup
  drawn : ∀ p, ∀ e ∈ s.held p, e.id ≤ s.sequence
  apart : ∀ p p', p ≠ p' → ∀ e ∈ s.held p, ∀ e' ∈ s.held p', e.id ≠ e'.id

namespace AuditInv

variable {s s' : AuditState C} {c : C}

omit [DecidableEq C] in
/-- Rows that vanish keep the invariant. -/
theorem sublist (h : AuditInv s) (hheld : ∀ p, (s'.held p).Sublist (s.held p))
    (hseq : s.sequence ≤ s'.sequence) : AuditInv s' where
  nodup p := (h.nodup p).sublist ((hheld p).map _)
  drawn p e he := (h.drawn p e ((hheld p).subset he)).trans hseq
  apart p p' hne e he e' he' := h.apart p p' hne e ((hheld p).subset he) e' ((hheld p').subset he')

/-- A transaction inserts a row with the next number. -/
theorem append (h : AuditInv s) {now : Timestamp} {rows : List DocumentEvent} {e : DocumentEvent}
    (hopen : s.txn c = .active now rows) (hid : e.id = s.sequence + 1)
    (hseq : s'.sequence = s.sequence + 1) (hrows : s'.rows = s.rows)
    (htxn : s'.txn = Function.update s.txn c (.active now (rows ++ [e]))) : AuditInv s' := by
  have hnew : s'.held (some c) = s.held (some c) ++ [e] := by
    rw [held_of_active hopen, held_update_self htxn]
    rfl
  have hrest : ∀ p, p ≠ some c → s'.held p = s.held p := fun p => held_update_of_ne htxn hrows
  have hmem : ∀ p, ∀ x ∈ s'.held p, x ∈ s.held p ∨ p = some c ∧ x = e := by
    intro p x hx
    by_cases hp : p = some c
    · subst hp
      rw [hnew, List.mem_append, List.mem_singleton] at hx
      exact hx.imp_right fun hxe => ⟨rfl, hxe⟩
    · rw [hrest p hp] at hx
      exact .inl hx
  have hfresh : ∀ p, ∀ x ∈ s.held p, x.id ≠ e.id := by
    intro p x hx
    have hle := h.drawn p x hx
    omega
  refine ⟨fun p => ?_, fun p x hx => ?_, fun p p' hne x hx x' hx' => ?_⟩
  · by_cases hp : p = some c
    · subst hp
      rw [hnew, List.map_append, List.map_singleton, List.nodup_append]
      refine ⟨h.nodup _, List.nodup_singleton _, fun i hi j hj => ?_⟩
      obtain ⟨x, hx, rfl⟩ := List.mem_map.1 hi
      rw [List.mem_singleton.1 hj]
      exact hfresh _ x hx
    · rw [hrest p hp]
      exact h.nodup p
  · rcases hmem p x hx with hold | ⟨-, rfl⟩
    · have hle := h.drawn p x hold
      omega
    · omega
  · rcases hmem p x hx with hold | ⟨hp, rfl⟩ <;> rcases hmem p' x' hx' with hold' | ⟨hp', rfl⟩
    · exact h.apart p p' hne x hold x' hold'
    · exact hfresh p x hold
    · exact (hfresh p' x' hold').symm
    · exact absurd (hp.trans hp'.symm) hne

/-- The rows of a transaction become visible. -/
theorem commit (h : AuditInv s) (hseq : s'.sequence = s.sequence)
    (hvisible : s'.rows = s.rows ++ s.held (some c))
    (htxn : s'.txn = Function.update s.txn c .done) : AuditInv s' := by
  have hgone : s'.held (some c) = [] := held_update_self htxn
  have hrest : ∀ c', c' ≠ c → s'.held (some c') = s.held (some c') := by
    intro c' hc
    have htxn' : s'.txn c' = s.txn c' := by rw [htxn, Function.update_of_ne hc]
    exact congrArg AuditTxn.rows htxn'
  have hnone : s'.held none = s.held none ++ s.held (some c) := hvisible
  have hmem : ∀ p, ∀ x ∈ s'.held p, x ∈ s.held p ∨ p = none ∧ x ∈ s.held (some c) := by
    intro p x hx
    cases p with
    | none =>
      rw [hnone, List.mem_append] at hx
      exact hx.imp_right fun hxc => ⟨rfl, hxc⟩
    | some c' =>
      by_cases hc : c' = c
      · subst hc
        rw [hgone] at hx
        cases hx
      · rw [hrest c' hc] at hx
        exact .inl hx
  refine ⟨fun p => ?_, fun p x hx => ?_, fun p p' hne x hx x' hx' => ?_⟩
  · cases p with
    | none =>
      rw [hnone, List.map_append, List.nodup_append]
      refine ⟨h.nodup _, h.nodup _, fun i hi j hj => ?_⟩
      obtain ⟨x, hx, rfl⟩ := List.mem_map.1 hi
      obtain ⟨y, hy, rfl⟩ := List.mem_map.1 hj
      exact h.apart none (some c) (by simp) x hx y hy
    | some c' =>
      by_cases hc : c' = c
      · subst hc
        rw [hgone]
        exact List.nodup_nil
      · rw [hrest c' hc]
        exact h.nodup _
  · rw [hseq]
    rcases hmem p x hx with hold | ⟨-, hold⟩ <;> exact h.drawn _ x hold
  · have hleft : ∀ q, q ≠ none → ∀ y ∈ s'.held q, q ≠ some c ∧ y ∈ s.held q := by
      intro q hq y hy
      refine ⟨?_, (hmem q y hy).resolve_right fun hn => hq hn.1⟩
      rintro rfl
      rw [hgone] at hy
      cases hy
    rcases hmem p x hx with hold | ⟨rfl, hold⟩
    · rcases hmem p' x' hx' with hold' | ⟨rfl, hold'⟩
      · exact h.apart p p' hne x hold x' hold'
      · exact h.apart p (some c) (hleft p hne x hx).1 x hold x' hold'
    · obtain ⟨hpc, hold'⟩ := hleft p' hne.symm x' hx'
      exact h.apart (some c) p' hpc.symm x hold x' hold'

end AuditInv

omit [DecidableEq C] in
theorem audit_inv_init {s : AuditState C} (h : s.Initial) : AuditInv s := by
  have hheld : ∀ c, s.held (some c) = [] := fun c => congrArg AuditTxn.rows (h.new c)
  refine ⟨fun p => ?_, fun p e he => ?_, fun p p' hne e he e' he' => ?_⟩
  · cases p with
    | none => exact h.ids_nodup
    | some c =>
      rw [hheld]
      exact List.nodup_nil
  · cases p with
    | none => exact h.ids_le e he
    | some c =>
      rw [hheld] at he
      cases he
  · cases p with
    | some c =>
      rw [hheld] at he
      cases he
    | none =>
      cases p' with
      | none => exact absurd rfl hne
      | some c =>
        rw [hheld] at he'
        cases he'

theorem audit_inv_step {s s' : AuditState C} {a : AuditAction C} (h : AuditInv s)
    (hstep : AuditStep s a s') : AuditInv s' := by
  cases hstep with
  | begin hnew hclock => exact h.sublist (held_sublist_of_empty rfl rfl rfl) (Int.le_refl _)
  | @append c now rows documentExists args e hopen he =>
    have hid : e.id = s.sequence + 1 := by
      unfold EventRepository.append at he
      split_ifs at he
      obtain rfl := Except.ok.inj he
      rfl
    exact h.append hopen hid rfl rfl rfl
  | appendRaises hopen he =>
    exact h.sublist (held_sublist_of_empty rfl rfl rfl) (Int.le_add_one (Int.le_refl _))
  | @commit c now rows hopen =>
    exact h.commit (c := c) rfl (congrArg (s.rows ++ ·) (held_of_active hopen).symm) rfl
  | rollback => exact h.sublist (held_sublist_of_empty rfl rfl rfl) (Int.le_refl _)

/-- The identifiers of the rows of a run are distinct. -/
theorem audit_inv {s₀ s : AuditState C} {tr : List (AuditAction C)} (h₀ : s₀.Initial)
    (h : Transition.Run AuditStep s₀ tr s) : AuditInv s :=
  h.state_inv AuditInv (audit_inv_init h₀) fun _ _ _ => audit_inv_step

/-! ## Two listings -/

/-- The table only gets more rows. -/
theorem rows_prefix_run {s s' : AuditState C} {tr : List (AuditAction C)}
    (h : Transition.Run AuditStep s tr s') : s.rows <+: s'.rows := by
  refine h.state_inv (fun m => s.rows <+: m.rows) List.prefix_rfl fun m a m' hm hstep => ?_
  cases hstep with
  | commit => exact hm.trans (List.prefix_append _ _)
  | _ => exact hm

omit [DecidableEq C] in
theorem nodup_order {s : AuditState C} (h : AuditInv s) (d : UUID) :
    ((s.rows.filter fun e => e.documentId = d).map order).Nodup := by
  have hids : ((s.rows.filter fun e => e.documentId = d).map (·.id)).Nodup :=
    (h.nodup none).sublist (List.filter_sublist.map _)
  rw [List.Nodup, List.pairwise_map] at hids ⊢
  exact hids.imp fun hne horder => hne (congrArg (fun k => (ofLex k).2) horder)

theorem listEvents_of_le {rows : List DocumentEvent} {d : UUID} {limit : ℕ}
    (h : (rows.filter fun e => e.documentId = d).length ≤ limit) :
    listEvents rows d limit = Listing.sortBy order (rows.filter fun e => e.documentId = d) := by
  refine List.take_of_length_le ?_
  rwa [Listing.length_sortBy]

/-- With a limit of at least the number of events, a later listing of a document has the events of an
earlier one in their order.  It begins with them exactly when each event that became visible in
between comes, by the start of its transaction and then by its identifier, after all of them. -/
theorem listEvents_grows {s₀ s₁ s₂ : AuditState C} {tr₁ tr₂ : List (AuditAction C)}
    (h₀ : s₀.Initial) (h₁ : Transition.Run AuditStep s₀ tr₁ s₁)
    (h₂ : Transition.Run AuditStep s₁ tr₂ s₂) (d : UUID) (limit₁ limit₂ : ℕ)
    (hlimit₁ : (s₁.rows.filter fun e => e.documentId = d).length ≤ limit₁)
    (hlimit₂ : (s₂.rows.filter fun e => e.documentId = d).length ≤ limit₂) :
    (listEvents s₁.rows d limit₁).Sublist (listEvents s₂.rows d limit₂) ∧
    (listEvents s₁.rows d limit₁ <+: listEvents s₂.rows d limit₂ ↔
      ∀ e ∈ s₂.rows, e.documentId = d → e ∉ s₁.rows →
        ∀ e' ∈ listEvents s₁.rows d limit₁,
          e'.createdAt < e.createdAt ∨ e'.createdAt = e.createdAt ∧ e'.id < e.id) := by
  have hinv : AuditInv s₂ := audit_inv h₀ (Transition.Run.append_iff.2 ⟨s₁, h₁, h₂⟩)
  have hnodup := nodup_order hinv d
  have hfilter : (s₁.rows.filter fun e => e.documentId = d).Subperm
      (s₂.rows.filter fun e => e.documentId = d) :=
    ((rows_prefix_run h₂).sublist.filter _).subperm
  rw [listEvents_of_le hlimit₁, listEvents_of_le hlimit₂]
  have hsub := Listing.sortBy_sublist order hnodup hfilter
  refine ⟨hsub, (Listing.prefix_iff_of_sublist hsub (Listing.pairwise_lt_sortBy order hnodup)).trans ?_⟩
  simp only [Listing.mem_sortBy, List.mem_filter, decide_eq_true_eq, order, Prod.Lex.toLex_lt_toLex]
  constructor
  · intro h e he hd hnew
    exact h e ⟨he, hd⟩ fun hold => hnew hold.1
  · rintro h e ⟨he, hd⟩ hnew
    exact h e he hd fun hold => hnew ⟨hold, hd⟩

end

/-- A transaction starts, another one starts, appends and commits, and then the first one does. -/
theorem overlapping_run :
    let s₀ : AuditState Bool := ⟨[], 0, 0, fun _ => .new⟩
    let late : DocumentEvent := ⟨1, ⟨7⟩, none, "uploaded", none, none, none, 2⟩
    let early : DocumentEvent := ⟨2, ⟨7⟩, none, "step_started", none, none, none, 1⟩
    ∃ s s' tr tr', Transition.Run AuditStep s₀ tr s ∧ Transition.Run AuditStep s tr' s' ∧
      s.rows = [late] ∧ s'.rows = [late, early] := by
  intro s₀ late early
  let lateArgs : AppendArgs := ⟨⟨7⟩, "uploaded", none, none, none, none⟩
  let earlyArgs : AppendArgs := ⟨⟨7⟩, "step_started", none, none, none, none⟩
  let s₁ : AuditState Bool := ⟨[], 0, 1, Function.update s₀.txn true (.active 1 [])⟩
  let s₂ : AuditState Bool := ⟨[], 0, 2, Function.update s₁.txn false (.active 2 [])⟩
  let s₃ : AuditState Bool := ⟨[], 1, 2, Function.update s₂.txn false (.active 2 ([] ++ [late]))⟩
  let s₄ : AuditState Bool := ⟨[late], 1, 2, Function.update s₃.txn false .done⟩
  let s₅ : AuditState Bool := ⟨[late], 2, 2, Function.update s₄.txn true (.active 1 ([] ++ [early]))⟩
  let s₆ : AuditState Bool := ⟨[late, early], 2, 2, Function.update s₅.txn true .done⟩
  have h₁ : AuditStep s₀ (.begin true 1) s₁ := .begin rfl (by decide)
  have h₂ : AuditStep s₁ (.begin false 2) s₂ := .begin rfl (by decide)
  have h₃ : AuditStep s₂ (.append false (fun _ => true) lateArgs) s₃ := .append rfl rfl
  have h₄ : AuditStep s₃ (.commit false) s₄ := .commit rfl
  have h₅ : AuditStep s₄ (.append true (fun _ => true) earlyArgs) s₅ := .append rfl rfl
  have h₆ : AuditStep s₅ (.commit true) s₆ := .commit rfl
  exact ⟨s₄, s₆, _, _, (((Transition.Run.single h₁).snoc h₂).snoc h₃).snoc h₄,
    (Transition.Run.single h₅).snoc h₆, rfl, rfl⟩

/-- The two listings of that run: the second one is no continuation of the first. -/
theorem listEvents_grows_overlapping :
    let late : DocumentEvent := ⟨1, ⟨7⟩, none, "uploaded", none, none, none, 2⟩
    let early : DocumentEvent := ⟨2, ⟨7⟩, none, "step_started", none, none, none, 1⟩
    (listEvents [late] ⟨7⟩ 100).Sublist (listEvents [late, early] ⟨7⟩ 100) := by
  intro late early
  obtain ⟨s, s', tr, tr', h, h', hrows, hrows'⟩ := overlapping_run
  have h₀ : AuditState.Initial (⟨[], 0, 0, fun _ => .new⟩ : AuditState Bool) :=
    ⟨fun _ => rfl, List.nodup_nil, fun e he => by cases he⟩
  have hgrows := listEvents_grows h₀ h h' ⟨7⟩ 100 100
  rw [hrows, hrows'] at hgrows
  exact (hgrows (by decide) (by decide)).1

theorem listEvents_not_prefix :
    ¬ ∀ (s₀ s s' : AuditState Bool) (tr tr' : List (AuditAction Bool)), s₀.Initial →
      Transition.Run AuditStep s₀ tr s → Transition.Run AuditStep s tr' s' →
      ∀ (d : UUID) (limit limit' : ℕ),
        (s.rows.filter fun e => e.documentId = d).length ≤ limit →
        (s'.rows.filter fun e => e.documentId = d).length ≤ limit' →
        listEvents s.rows d limit <+: listEvents s'.rows d limit' := by
  intro hall
  obtain ⟨s, s', tr, tr', h, h', hrows, hrows'⟩ := overlapping_run
  have h₀ : AuditState.Initial (⟨[], 0, 0, fun _ => .new⟩ : AuditState Bool) :=
    ⟨fun _ => rfl, List.nodup_nil, fun e he => by cases he⟩
  have hle := hall _ s s' tr tr' h₀ h h' ⟨7⟩ 2 2
  rw [hrows, hrows'] at hle
  have hids := List.IsPrefix.map (fun e => e.id) (hle (by decide) (by decide))
  exact absurd hids (by decide)

end Ipa
