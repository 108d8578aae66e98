import Ipa.Db.Step.RowEffect
import Ipa.Lib.ReadCommitted
import Ipa.Lib.Run

/-!
# Concurrent calls of the step repository

Any number of transactions, each of which runs one call of the repository and then commits or rolls
back, under READ COMMITTED.  The statement of a call takes the rows that satisfy its condition in the
committed versions at its start (`StepEvent.start`) and then deals with them one by one, in any
order: a row that another open transaction has written makes it wait; once the row is free its
condition is checked again on the committed version, and the row is written (`StepEvent.write`) or
left (`StepEvent.skip`).  A call that raises can only roll back.

* `StepSessions.inv_run`: every uncommitted version is what its call writes on the committed version
  it will replace.
* `StepSessions.committed_step`: only a commit changes a committed row, and it does to it what its
  call does.
-/

namespace Ipa

open StepRepository ReadCommitted Transition

/-! ## Transactions -/

/-- Where a transaction stands. -/
inductive StepTxn
  | idle
  | active (env : StepEnv) (call : StepCall) (todo : List StepKey)
      (written : List (StepKey × DocumentStep))
  | returned (env : StepEnv) (call : StepCall) (written : List (StepKey × DocumentStep))
  | ended

namespace StepTxn

/-- What the transaction has written. -/
def written : StepTxn → List (StepKey × DocumentStep)
  | active _ _ _ w | returned _ _ w => w
  | idle | ended => []

/-- The call whose writes are open. -/
def call? : StepTxn → Option (StepEnv × StepCall)
  | active env c _ _ | returned env c _ => some (env, c)
  | idle | ended => none

end StepTxn

/-- The rows and the transactions. -/
structure StepSessions (T : Type*) where
  cell : Store T StepKey DocumentStep
  txn : T → StepTxn

/-- What transactions do. -/
inductive StepEvent (T : Type*)
  | start (t : T) (env : StepEnv) (call : StepCall)
  | skip (t : T) (k : StepKey)
  | write (t : T) (k : StepKey)
  | finish (t : T) (env : StepEnv) (call : StepCall) (written : List (StepKey × DocumentStep))
  | commit (t : T) (env : StepEnv) (call : StepCall) (written : List (StepKey × DocumentStep))
  | rollback (t : T)

/-- The rows that an event publishes. -/
def StepEvent.published {T : Type*} : StepEvent T → List (StepKey × DocumentStep)
  | .commit _ _ _ w => w
  | _ => []

namespace StepSessions

variable {T : Type*}

/-- No rows, no transactions. -/
def init : StepSessions T := ⟨Store.empty, fun _ => .idle⟩

/-- The rows that satisfy the condition of a call, all of them rows of its document. -/
def candidates (cell : Store T StepKey DocumentStep) (env : StepEnv) (c : StepCall) : List StepKey :=
  (stepOrder.map fun s => (c.documentId, s)).filter fun k =>
    (c.onVersion env k (cell k).committed).isSome

variable [DecidableEq T]

/-- A statement deals with one row, starts or ends, or a transaction ends. -/
inductive Step : StepSessions T → StepEvent T → StepSessions T → Prop
  | start {s : StepSessions T} {t : T} {env : StepEnv} {c : StepCall}
      (hidle : s.txn t = .idle) (hargs : c.ArgsInRange) :
      Step s (.start t env c)
        ⟨s.cell, Function.update s.txn t (.active env c (candidates s.cell env c) [])⟩
  | skip {s : StepSessions T} {t : T} {env : StepEnv} {c : StepCall} {todo : List StepKey}
      {w : List (StepKey × DocumentStep)} {k : StepKey}
      (hactive : s.txn t = .active env c todo w) (htodo : k ∈ todo)
      (hfree : (s.cell k).writer = none)
      (hmiss : c.onVersion env k (s.cell k).committed = none) :
      Step s (.skip t k) ⟨s.cell, Function.update s.txn t (.active env c (todo.erase k) w)⟩
  | write {s : StepSessions T} {t : T} {env : StepEnv} {c : StepCall} {todo : List StepKey}
      {w : List (StepKey × DocumentStep)} {k : StepKey} {v : DocumentStep}
      (hactive : s.txn t = .active env c todo w) (htodo : k ∈ todo)
      (hfree : (s.cell k).writer = none)
      (hhit : c.onVersion env k (s.cell k).committed = some (.ok v)) :
      Step s (.write t k) ⟨s.cell.write t k v,
        Function.update s.txn t (.active env c (todo.erase k) (w ++ [(k, v)]))⟩
  | finish {s : StepSessions T} {t : T} {env : StepEnv} {c : StepCall}
      {w : List (StepKey × DocumentStep)} (hactive : s.txn t = .active env c [] w) :
      Step s (.finish t env c w) ⟨s.cell, Function.update s.txn t (.returned env c w)⟩
  | commit {s : StepSessions T} {t : T} {env : StepEnv} {c : StepCall}
      {w : List (StepKey × DocumentStep)} (hreturned : s.txn t = .returned env c w) :
      Step s (.commit t env c w) ⟨s.cell.commit t, Function.update s.txn t .ended⟩
  | rollback {s : StepSessions T} {t : T} {env : StepEnv} {c : StepCall}
      (hopen : (s.txn t).call? = some (env, c)) :
      Step s (.rollback t) ⟨s.cell.rollback t, Function.update s.txn t .ended⟩

/-! ## The invariant -/

/-- The uncommitted versions are the writes of the open transactions, and each is what its call
writes on the committed version. -/
structure Inv (s : StepSessions T) : Prop where
  locks : Locks s.cell fun t => (s.txn t).written
  planned : ∀ t k v, (k, v) ∈ (s.txn t).written → ∃ env c, (s.txn t).call? = some (env, c) ∧
    c.onVersion env k (s.cell k).committed = some (.ok v)

omit [DecidableEq T] in
theorem inv_init : Inv (init : StepSessions T) := ⟨Locks.empty, by simp [init, StepTxn.written]⟩

variable {s s' : StepSessions T} {e : StepEvent T} {t : T}

/-- A transaction changes its phase, keeping its call and its writes. -/
theorem Inv.phase (h : Inv s) {p : StepTxn} (hw : p.written = (s.txn t).written)
    (hc : p.written ≠ [] → p.call? = (s.txn t).call?) :
    Inv ⟨s.cell, Function.update s.txn t p⟩ where
  locks := h.locks.update_phase hw
  planned t' k v hv := by
    rw [read_update StepTxn.written] at hv
    by_cases ht : t' = t
    · subst ht
      rw [if_pos rfl] at hv
      simp only [Function.update_self]
      rw [hc (List.ne_nil_of_mem hv)]
      exact h.planned t' k v (hw ▸ hv)
    · rw [if_neg ht] at hv
      simp only [Function.update_of_ne ht]
      exact h.planned t' k v hv

/-- A transaction ends; what the others have planned stays, since they hold their rows. -/
theorem Inv.ended (h : Inv s) {cell : Store T StepKey DocumentStep}
    (hlocks : Locks cell fun t' => (Function.update s.txn t .ended t').written)
    (hkeep : ∀ k, (∀ v, (k, v) ∉ (s.txn t).written) → (cell k).committed = (s.cell k).committed) :
    Inv ⟨cell, Function.update s.txn t .ended⟩ where
  locks := hlocks
  planned t' k v hv := by
    rw [read_update StepTxn.written] at hv
    by_cases ht : t' = t
    · simp [ht, StepTxn.written] at hv
    · rw [if_neg ht] at hv
      simp only [Function.update_of_ne ht]
      rw [hkeep k fun v' hv' => ht (h.locks.writer_unique hv hv').1]
      exact h.planned t' k v hv

theorem inv_step (h : Inv s) (he : Step s e s') : Inv s' := by
  cases he with
  | start hidle => exact h.phase (by rw [hidle]; rfl) fun hne => absurd rfl hne
  | skip hactive => exact h.phase (by rw [hactive]; rfl) fun _ => by rw [hactive]; rfl
  | finish hactive => exact h.phase (by rw [hactive]; rfl) fun _ => by rw [hactive]; rfl
  | @write t env c todo w k v hactive htodo hfree hhit =>
    refine ⟨h.locks.write_phase hfree ?_, fun t' k' v' hv' => ?_⟩
    · rw [hactive]
      rfl
    · simp only [Store.committed_write]
      rw [read_update StepTxn.written] at hv'
      by_cases ht : t' = t
      · subst ht
        rw [if_pos rfl] at hv'
        simp only [Function.update_self]
        refine ⟨env, c, rfl, ?_⟩
        rcases List.mem_append.1 hv' with hold | hnew
        · obtain ⟨env', c', hc, hplan⟩ := h.planned t' k' v' (by rw [hactive]; exact hold)
          rw [hactive, StepTxn.call?, Option.some.injEq, Prod.mk.injEq] at hc
          rwa [hc.1, hc.2]
        · obtain ⟨rfl, rfl⟩ := Prod.mk.inj (List.mem_singleton.1 hnew)
          exact hhit
      · rw [if_neg ht] at hv'
        simp only [Function.update_of_ne ht]
        exact h.planned t' k' v' hv'
  | commit =>
    exact h.ended (h.locks.commit_phase rfl) fun k hk => h.locks.committed_commit_of_notMem hk
  | rollback => exact h.ended (h.locks.rollback_phase rfl) fun k _ => Store.committed_rollback _ _ _

theorem inv_run {s₀ : StepSessions T} {tr : List (StepEvent T)} (h₀ : Inv s₀)
    (h : Run Step s₀ tr s) : Inv s :=
  h.state_inv Inv h₀ fun _ _ _ hi he => inv_step hi he

/-! ## What a step does to the committed rows -/

/-- Only a commit changes a committed row, and it writes what its call writes on that row. -/
theorem committed_step (h : Inv s) (he : Step s e s') (k : StepKey) :
    (∃ t env c w v, e = .commit t env c w ∧ (k, v) ∈ w ∧
      c.onVersion env k (s.cell k).committed = some (.ok v) ∧ (s'.cell k).committed = some v) ∨
    ((∀ v, (k, v) ∉ e.published) ∧ (s'.cell k).committed = (s.cell k).committed) := by
  cases he with
  | start | skip | finish => exact .inr ⟨fun _ => List.not_mem_nil, rfl⟩
  | write => exact .inr ⟨fun _ => List.not_mem_nil, Store.committed_write _ _ _ _ _⟩
  | rollback => exact .inr ⟨fun _ => List.not_mem_nil, Store.committed_rollback _ _ _⟩
  | @commit t env c w hreturned =>
    have hw : (s.txn t).written = w := by rw [hreturned]; rfl
    by_cases hk : ∃ v, (k, v) ∈ w
    · obtain ⟨v, hv⟩ := hk
      rw [← hw] at hv
      obtain ⟨env', c', hc, hplan⟩ := h.planned t k v hv
      rw [hreturned, StepTxn.call?, Option.some.injEq, Prod.mk.injEq] at hc
      rw [← hc.1, ← hc.2] at hplan
      exact .inl ⟨t, env, c, w, v, rfl, hw ▸ hv, hplan, h.locks.committed_commit hv⟩
    · rw [not_exists] at hk
      exact .inr ⟨hk, h.locks.committed_commit_of_notMem (hw ▸ hk)⟩

/-- A committed row is stored under its key. -/
theorem key_committed {tr : List (StepEvent T)} (h : Run Step init tr s) {k : StepKey}
    {r : DocumentStep} (hr : (s.cell k).committed = some r) : r.key = k := by
  refine h.rec_inv (fun _ s => ∀ r, (s.cell k).committed = some r → r.key = k)
    (fun r hr => ?_) (fun tr s e s' h ih he r hr => ?_) r hr
  · cases hr
  · obtain ⟨_, env, c, _, v, -, -, hplan, hv⟩ | ⟨-, hsame⟩ :=
      committed_step (inv_run inv_init h) he k
    · obtain rfl : v = r := Option.some.inj (hv.symm.trans hr)
      exact key_onVersion ih hplan
    · exact ih r (hsame ▸ hr)

end StepSessions

end Ipa
