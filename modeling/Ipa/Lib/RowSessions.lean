import Ipa.Lib.ReadCommitted
import Ipa.Lib.Run
import Ipa.Lib.Table

/-!
# Sessions that run statements on single rows

A statement names the key of one row, finds the version that its transaction sees, and writes another
one, finds nothing to do, or raises (`Outcome`).  A row that another open transaction has written makes
it wait, as does a version of another row with the same value in a unique index.

* `Chain`, `Logged`: the committed versions of a row are written one on another, in the order in which
  the transactions commit, and the open ones are written on the last of them.
* `Distinct`: no two rows agree in the unique index, whether committed or not.
* `RowSessions.inv_run`: both hold in every run of any number of sessions.
-/

namespace ReadCommitted

variable {T K V U A E : Type*}

/-! ## Versions written one on another -/

/-- What a statement does with the version that it finds. -/
inductive Outcome (V E : Type*)
  | miss
  | write (v : V)
  | raise (e : E)

/-- The version that the last entry has written, or the one before the first. -/
def leaves (v : Option V) (entries : List (U × V)) : Option V :=
  (entries.getLast?.map Prod.snd).or v

/-- Each entry is a statement with the version that it writes on the one before. -/
def Chain (onRow : U → Option V → Outcome V E) : Option V → List (U × V) → Prop
  | _, [] => True
  | v, (u, v') :: entries => onRow u v = .write v' ∧ Chain onRow (some v') entries

section Chain

variable {onRow : U → Option V → Outcome V E} {v : Option V} {u : U} {v' : V}
  {entries entries' : List (U × V)}

@[simp]
theorem leaves_nil (v : Option V) : leaves v ([] : List (U × V)) = v := rfl

@[simp]
theorem leaves_cons (v : Option V) (u : U) (v' : V) (entries : List (U × V)) :
    leaves v ((u, v') :: entries) = leaves (some v') entries := by
  cases entries with
  | nil => rfl
  | cons e entries => rw [leaves, leaves, List.getLast?_cons_cons, List.getLast?_cons, Option.map_some]; rfl

theorem leaves_append (v : Option V) (entries entries' : List (U × V)) :
    leaves v (entries ++ entries') = leaves (leaves v entries) entries' := by
  unfold leaves
  rw [List.getLast?_append, Option.map_or, Option.or_assoc]

theorem chain_append :
    Chain onRow v (entries ++ entries') ↔ Chain onRow v entries ∧ Chain onRow (leaves v entries) entries' := by
  induction entries generalizing v with
  | nil => simp [Chain]
  | cons e entries ih =>
    obtain ⟨u, v'⟩ := e
    rw [List.cons_append, Chain, ih, Chain, leaves_cons, and_assoc]

theorem chain_snoc :
    Chain onRow v (entries ++ [(u, v')]) ↔
      Chain onRow v entries ∧ onRow u (leaves v entries) = .write v' := by
  rw [chain_append]
  simp [Chain]

/-- What every write keeps holds of every version of a chain. -/
theorem Chain.forall_mem {P : V → Prop} (h : Chain onRow v entries) (h0 : ∀ x ∈ v, P x)
    (hstep : ∀ u v v', (∀ x ∈ v, P x) → onRow u v = .write v' → P v') : ∀ e ∈ entries, P e.2 := by
  induction entries generalizing v with
  | nil => exact fun e he => absurd he List.not_mem_nil
  | cons e entries ih =>
    obtain ⟨u, v'⟩ := e
    have hv' : P v' := hstep u v v' h0 h.1
    rw [List.forall_mem_cons]
    refine ⟨hv', ih h.2 fun x hx => ?_⟩
    rwa [← Option.mem_some_iff.1 hx]

/-- Nothing is written on a version that no statement changes. -/
theorem Chain.eq_nil {x : V} (h : Chain onRow (some x) entries)
    (hfixed : ∀ u v', onRow u (some x) ≠ .write v') : entries = [] := by
  cases entries with
  | nil => rfl
  | cons e entries => exact absurd h.1 (hfixed e.1 e.2)

/-- A version that every write keeps good is good when the chain ends. -/
theorem Chain.exists_leaves {P : V → Prop} {x : V} (h : Chain onRow (some x) entries) (h0 : P x)
    (hkeep : ∀ u y v', P y → onRow u (some y) = .write v' → P v') :
    ∃ x', leaves (some x) entries = some x' ∧ P x' := by
  induction entries generalizing x with
  | nil => exact ⟨x, rfl, h0⟩
  | cons e entries ih =>
    obtain ⟨u, v'⟩ := e
    rw [leaves_cons]
    exact ih h.2 (hkeep u x v' h0 h.1)

/-- A column that no statement changes once the row is there has one value in the whole chain. -/
theorem Chain.column_eq {f : V → A} {x : V} (h : Chain onRow v entries)
    (hkeep : ∀ u y v', onRow u (some y) = .write v' → f v' = f y) (hx : leaves v entries = some x) :
    ∀ e ∈ entries, f e.2 = f x := by
  induction entries generalizing v with
  | nil => exact fun e he => absurd he List.not_mem_nil
  | cons e entries ih =>
    obtain ⟨u, v'⟩ := e
    rw [leaves_cons] at hx
    have htail := ih h.2 hx
    rw [List.forall_mem_cons]
    refine ⟨?_, htail⟩
    cases entries with
    | nil => rw [Option.some.inj hx]
    | cons e' entries => rw [← htail e' List.mem_cons_self, hkeep _ _ _ h.2.1]

end Chain

/-! ## Logs -/

/-- The entries of the row `k`. -/
def entriesOf [DecidableEq K] (k : K) (writes : List (K × U × V)) : List (U × V) :=
  (writes.filter fun e => e.1 = k).map Prod.snd

section EntriesOf

variable [DecidableEq K]

@[simp]
theorem entriesOf_nil (k : K) : entriesOf k ([] : List (K × U × V)) = [] := rfl

theorem entriesOf_append (k : K) (writes writes' : List (K × U × V)) :
    entriesOf k (writes ++ writes') = entriesOf k writes ++ entriesOf k writes' := by
  rw [entriesOf, List.filter_append, List.map_append]
  rfl

theorem entriesOf_snoc (k k' : K) (u : U) (v : V) (writes : List (K × U × V)) :
    entriesOf k (writes ++ [(k', u, v)]) =
      if k' = k then entriesOf k writes ++ [(u, v)] else entriesOf k writes := by
  rw [entriesOf_append]
  split_ifs with h
  · simp [entriesOf, h]
  · simp [entriesOf, h]

end EntriesOf

/-- The committed versions of each row are a chain, `log`, on the initial one, and the writes `W` of
each open transaction are a chain on the last committed version. -/
structure Logged (onRow : K → U → Option V → Outcome V E) (init : K → Option V) (log : K → List (U × V))
    (W : T → K → List (U × V)) (s : Store T K V) : Prop where
  chain : ∀ k, Chain (onRow k) (init k) (log k)
  committed : ∀ k, (s k).committed = leaves (init k) (log k)
  open_chain : ∀ t k, Chain (onRow k) (s k).committed (W t k)
  lock : ∀ k t v, (s k).writer = some (t, v) ↔ (W t k).getLast?.map Prod.snd = some v

/-- No other transaction has written the row. -/
def Cell.FreeFor (t : T) (c : Cell T V) : Prop := ∀ t' v, c.writer = some (t', v) → t' = t

section Visible

variable [DecidableEq T] {s : Store T K V} {t : T} {k : K} {v : V}

theorem Store.visible_write [DecidableEq K] (hfree : (s k).FreeFor t) (t' : T) (k' : K) :
    (s.write t k v k').visible t' = if t' = t ∧ k' = k then some v else (s k').visible t' := by
  by_cases hk : k' = k
  · subst hk
    by_cases ht : t' = t
    · subst ht
      rw [if_pos ⟨rfl, rfl⟩, Cell.visible_of_writer (s.writer_write t' k' v)]
    · have hnew : ¬ (s.write t k' v k').HeldBy t' := by
        rintro ⟨v', hw⟩
        rw [Store.writer_write, Option.some.injEq, Prod.mk.injEq] at hw
        exact ht hw.1.symm
      have hold : ¬ (s k').HeldBy t' := fun ⟨v', hw⟩ => ht (hfree t' v' hw)
      rw [if_neg fun h => ht h.1, Cell.visible_of_not_heldBy hnew, Cell.visible_of_not_heldBy hold,
        Store.committed_write]
  · rw [if_neg fun h => hk h.2, Store.write, Function.update_of_ne hk]

theorem Store.visible_rollback (t : T) (s : Store T K V) (t' : T) (k : K) :
    (s.rollback t k).visible t' = if t' = t then (s k).committed else (s k).visible t' := by
  by_cases hheld : (s k).HeldBy t
  · obtain ⟨v, hw⟩ := hheld
    rw [Store.rollback, Cell.rollback_of_heldBy ⟨v, hw⟩]
    split_ifs with ht
    · rfl
    · have hold : ¬ (s k).HeldBy t' := by
        rintro ⟨v', hw'⟩
        rw [hw, Option.some.injEq, Prod.mk.injEq] at hw'
        exact ht hw'.1.symm
      rw [Cell.visible_of_not_heldBy hold]
      rfl
  · rw [Store.rollback, Cell.rollback_of_not_heldBy hheld]
    split_ifs with ht
    · rw [ht, Cell.visible_of_not_heldBy hheld]
    · rfl

/-- A commit publishes what its transaction sees. -/
theorem Store.committed_commit_eq (t : T) (s : Store T K V) (k : K) :
    (s.commit t k).committed = (s k).visible t := by
  rw [Store.commit]
  by_cases hheld : (s k).HeldBy t
  · obtain ⟨v, hw⟩ := hheld
    rw [Cell.commit_of_writer hw, Cell.visible_of_writer hw]
  · rw [Cell.commit_of_not_heldBy hheld, Cell.visible_of_not_heldBy hheld]

/-- After a commit another transaction goes on to see the version that it has written. -/
theorem Store.visible_commit_of_heldBy {t' : T} (ht : t' ≠ t) (hheld : (s k).HeldBy t') :
    (s.commit t k).visible t' = (s k).visible t' := by
  obtain ⟨v, hw⟩ := hheld
  have hother : ¬ (s k).HeldBy t := by
    rintro ⟨v', hw'⟩
    rw [hw, Option.some.injEq, Prod.mk.injEq] at hw'
    exact ht hw'.1
  rw [Store.commit, Cell.commit_of_not_heldBy hother]

/-- Every other row it sees as it has been published. -/
theorem Store.visible_commit {t' : T} (h : t' = t ∨ ¬ (s k).HeldBy t') :
    (s.commit t k).visible t' = (s k).visible t := by
  have hheld : ¬ (s.commit t k).HeldBy t' := by
    rintro ⟨v, hw⟩
    rw [Store.commit, Cell.writer_commit, Cell.writer_rollback_iff] at hw
    exact h.elim hw.2 fun hnot => hnot ⟨v, hw.1⟩
  rw [Cell.visible_of_not_heldBy hheld, Store.committed_commit_eq]

end Visible

namespace Logged

variable {onRow : K → U → Option V → Outcome V E} {init : K → Option V} {log : K → List (U × V)}
  {W W' : T → K → List (U × V)} {s : Store T K V} {t t' : T} {k : K} {u : U} {v : V}

theorem start (init : K → Option V) :
    Logged onRow init (fun _ => []) (fun _ _ => []) (fun k => ⟨init k, none⟩ : Store T K V) where
  chain _ := trivial
  committed _ := rfl
  open_chain _ _ := trivial
  lock k t v := by simp

theorem congr (h : Logged onRow init log W s) (hW : ∀ t k, W' t k = W t k) :
    Logged onRow init log W' s := by
  rwa [funext fun t => funext (hW t)]

/-- A row that is free for a transaction has no entries of another one. -/
theorem eq_nil_of_freeFor (h : Logged onRow init log W s) (hfree : (s k).FreeFor t) (ht : t' ≠ t) :
    W t' k = [] := by
  cases hlast : (W t' k).getLast? with
  | none => exact List.getLast?_eq_none_iff.1 hlast
  | some e =>
    have hw : (s k).writer = some (t', e.2) := (h.lock k t' e.2).2 (by rw [hlast]; rfl)
    exact absurd (hfree t' e.2 hw) ht

variable [DecidableEq T]

/-- A transaction sees what its own writes leave. -/
theorem visible (h : Logged onRow init log W s) (t : T) (k : K) :
    (s k).visible t = leaves (s k).committed (W t k) := by
  by_cases hheld : (s k).HeldBy t
  · obtain ⟨v, hw⟩ := hheld
    rw [Cell.visible_of_writer hw, leaves, (h.lock k t v).1 hw]
    rfl
  · have hnone : (W t k).getLast?.map Prod.snd = none := by
      cases hlast : (W t k).getLast?.map Prod.snd with
      | none => rfl
      | some v => exact absurd ⟨v, (h.lock k t v).2 hlast⟩ hheld
    rw [Cell.visible_of_not_heldBy hheld, leaves, hnone]
    rfl

theorem write [DecidableEq K] (h : Logged onRow init log W s) (hfree : (s k).FreeFor t)
    (hwrite : onRow k u ((s k).visible t) = .write v)
    (hW : ∀ t' k', W' t' k' = if t' = t ∧ k = k' then W t k ++ [(u, v)] else W t' k') :
    Logged onRow init log W' (s.write t k v) where
  chain := h.chain
  committed k' := by rw [Store.committed_write, h.committed]
  open_chain t' k' := by
    rw [Store.committed_write, hW]
    split_ifs with hnew
    · obtain ⟨rfl, rfl⟩ := hnew
      rw [chain_snoc, ← h.visible]
      exact ⟨h.open_chain t' k, hwrite⟩
    · exact h.open_chain t' k'
  lock k' t' v' := by
    rw [hW]
    by_cases hk : k = k'
    · subst hk
      rw [Store.writer_write]
      split_ifs with hnew
      · simp [hnew.1]
      · have ht : t' ≠ t := fun ht => hnew ⟨ht, rfl⟩
        rw [h.eq_nil_of_freeFor hfree ht]
        simp [Ne.symm ht]
    · rw [Store.write, Function.update_of_ne (Ne.symm hk), if_neg fun hnew => hk hnew.2]
      exact h.lock k' t' v'

theorem rollback (h : Logged onRow init log W s)
    (hW : ∀ t' k, W' t' k = if t' = t then [] else W t' k) :
    Logged onRow init log W' (s.rollback t) where
  chain := h.chain
  committed k := by rw [Store.committed_rollback, h.committed]
  open_chain t' k := by
    rw [Store.committed_rollback, hW]
    split_ifs
    · trivial
    · exact h.open_chain t' k
  lock k t' v := by
    rw [hW, Store.rollback, Cell.writer_rollback_iff, h.lock]
    split_ifs with ht
    · simp [ht]
    · simp [ht]

/-- A commit publishes what the transaction has left. -/
theorem committed_commit (h : Logged onRow init log W s) (t : T) (k : K) :
    (s.commit t k).committed = leaves (s k).committed (W t k) := by
  rw [← h.visible, Store.committed_commit_eq]

/-- A commit puts the entries of the transaction at the end of the logs. -/
theorem commit (h : Logged onRow init log W s)
    (hW : ∀ t' k, W' t' k = if t' = t then [] else W t' k) :
    Logged onRow init (fun k => log k ++ W t k) W' (s.commit t) where
  chain k := by
    rw [chain_append, ← h.committed]
    exact ⟨h.chain k, h.open_chain t k⟩
  committed k := by rw [h.committed_commit, leaves_append, h.committed]
  open_chain t' k := by
    rw [hW]
    split_ifs with ht
    · trivial
    · by_cases hheld : (s k).HeldBy t
      · obtain ⟨v, hw⟩ := hheld
        have hfree : (s k).FreeFor t := by
          rintro t'' v'' hw''
          rw [hw] at hw''
          exact (congrArg Prod.fst (Option.some.inj hw'')).symm
        rw [h.eq_nil_of_freeFor hfree ht]
        trivial
      · rw [Store.commit, Cell.commit_of_not_heldBy hheld]
        exact h.open_chain t' k
  lock k t' v := by
    rw [Store.commit, Cell.writer_commit]
    exact (h.rollback hW).lock k t' v

end Logged

/-! ## Unique indexes -/

/-- No two rows have versions with the same value of `index`. -/
def Distinct (index : V → A) (s : Store T K V) : Prop :=
  ∀ k k' v v', (s k).Version v → (s k').Version v' → index v = index v' → k = k'

namespace Distinct

variable {index : V → A} {s : Store T K V} {t : T} {k : K} {v : V}

theorem write [DecidableEq K] (h : Distinct index s)
    (hnew : ∀ k' ≠ k, ∀ v', (s k').Version v' → index v' ≠ index v) :
    Distinct index (s.write t k v) := by
  intro k₁ k₂ v₁ v₂ h₁ h₂ heq
  by_contra hne
  rcases Store.version_of_write h₁ with hold₁ | ⟨rfl, rfl⟩ <;>
    rcases Store.version_of_write h₂ with hold₂ | ⟨rfl, rfl⟩
  · exact hne (h k₁ k₂ v₁ v₂ hold₁ hold₂ heq)
  · exact hnew k₁ hne v₁ hold₁ heq
  · exact hnew k₂ (Ne.symm hne) v₂ hold₂ heq.symm
  · exact hne rfl

variable [DecidableEq T]

theorem commit (h : Distinct index s) (t : T) : Distinct index (s.commit t) :=
  fun k k' v v' hv hv' => h k k' v v' (Cell.version_of_commit hv) (Cell.version_of_commit hv')

theorem rollback (h : Distinct index s) (t : T) : Distinct index (s.rollback t) :=
  fun k k' v v' hv hv' => h k k' v v' (Cell.version_of_rollback hv) (Cell.version_of_rollback hv')

end Distinct

/-! ## Sessions -/

/-- Statements: what each does on its row, the column with a unique index and the error of a statement
that violates it, and the error for a row that another one refers to and that is not there. -/
structure Statements (K V U A E : Type*) where
  onRow : K → U → Option V → Outcome V E
  index : V → A
  clash : K → U → E
  foreign : K → U → (K → Option V) → Option E

/-- Where the transaction of a session stands: after an error it can only be rolled back. -/
inductive RowPhase (K V U : Type*)
  | active (writes : List (K × U × V))
  | failed (writes : List (K × U × V))

/-- What the open transaction has written. -/
def RowPhase.writes : RowPhase K V U → List (K × U × V)
  | active writes | failed writes => writes

/-- The keys that have been written, the rows and the sessions. -/
structure RowSessions (T K V U : Type*) where
  keys : List K
  cell : Store T K V
  phase : T → RowPhase K V U

/-- A statement writes its row, finds none or raises; a transaction ends. -/
inductive RowEvent (T K V U E : Type*)
  | write (t : T) (k : K) (u : U) (v : V)
  | miss (t : T) (k : K) (u : U)
  | raise (t : T) (k : K) (u : U) (e : E)
  | commit (t : T) (writes : List (K × U × V))
  | rollback (t : T)

/-- The session that takes the step. -/
def RowEvent.session : RowEvent T K V U E → T
  | write t _ _ _ | miss t _ _ | raise t _ _ _ | commit t _ | rollback t => t

namespace RowSessions

variable {s s' : RowSessions T K V U} {t : T} {k : K} {u : U} {v : V}

/-- The rows that the statements of a session see. -/
def visible [DecidableEq T] (s : RowSessions T K V U) (t : T) (k : K) : Option V := (s.cell k).visible t

/-- What a query of a session reads, in some order. -/
def select [DecidableEq T] (s : RowSessions T K V U) (t : T) : List V := s.keys.filterMap (s.visible t)

/-- The rows of a table, and no open transaction. -/
def init [DecidableEq K] {key : V → K} (table : Table key) : RowSessions T K V U :=
  ⟨table.rows.map key, fun k => ⟨table.lookup k, none⟩, fun _ => .active []⟩

/-- One statement of one session, or the end of a transaction. -/
inductive Step [DecidableEq T] [DecidableEq K] (table : Statements K V U A E) :
    RowSessions T K V U → RowEvent T K V U E → RowSessions T K V U → Prop
  | write {s : RowSessions T K V U} {t : T} {k : K} {u : U} {v : V} {w : List (K × U × V)}
      (hactive : s.phase t = .active w) (hfree : (s.cell k).FreeFor t)
      (hwrite : table.onRow k u (s.visible t k) = .write v)
      (hindex : ∀ k' ≠ k, ∀ v', (s.cell k').Version v' → table.index v' ≠ table.index v)
      (hforeign : table.foreign k u (s.visible t) = none) :
      Step table s (.write t k u v) ⟨s.keys.insert k, s.cell.write t k v,
        Function.update s.phase t (.active (w ++ [(k, u, v)]))⟩
  | miss {s : RowSessions T K V U} {t : T} {k : K} {u : U} {w : List (K × U × V)}
      (hactive : s.phase t = .active w) (hmiss : table.onRow k u (s.visible t k) = .miss) :
      Step table s (.miss t k u) s
  | raise {s : RowSessions T K V U} {t : T} {k : K} {u : U} {e : E} {w : List (K × U × V)}
      (hactive : s.phase t = .active w) (hfree : (s.cell k).FreeFor t)
      (hraise : table.onRow k u (s.visible t k) = .raise e) :
      Step table s (.raise t k u e) ⟨s.keys, s.cell, Function.update s.phase t (.failed w)⟩
  /-- The session sees another row with the new value of the unique column. -/
  | clash {s : RowSessions T K V U} {t : T} {k k' : K} {u : U} {v v' : V} {w : List (K × U × V)}
      (hactive : s.phase t = .active w) (hfree : (s.cell k).FreeFor t)
      (hwrite : table.onRow k u (s.visible t k) = .write v) (hk : k' ≠ k)
      (hfree' : (s.cell k').FreeFor t) (hvisible : s.visible t k' = some v')
      (hindex : table.index v' = table.index v) :
      Step table s (.raise t k u (table.clash k u))
        ⟨s.keys, s.cell, Function.update s.phase t (.failed w)⟩
  | foreign {s : RowSessions T K V U} {t : T} {k : K} {u : U} {v : V} {e : E} {w : List (K × U × V)}
      (hactive : s.phase t = .active w) (hfree : (s.cell k).FreeFor t)
      (hwrite : table.onRow k u (s.visible t k) = .write v)
      (hforeign : table.foreign k u (s.visible t) = some e) :
      Step table s (.raise t k u e) ⟨s.keys, s.cell, Function.update s.phase t (.failed w)⟩
  | commit {s : RowSessions T K V U} {t : T} {w : List (K × U × V)} (hactive : s.phase t = .active w) :
      Step table s (.commit t w) ⟨s.keys, s.cell.commit t, Function.update s.phase t (.active [])⟩
  | rollback {s : RowSessions T K V U} {t : T} :
      Step table s (.rollback t) ⟨s.keys, s.cell.rollback t, Function.update s.phase t (.active [])⟩

/-- The entries of a row that an event commits. -/
def committedBy [DecidableEq K] (k : K) : RowEvent T K V U E → List (U × V)
  | .commit _ writes => entriesOf k writes
  | _ => []

/-- The entries of a row that the events commit, in the order of the commits. -/
def log [DecidableEq K] (tr : List (RowEvent T K V U E)) (k : K) : List (U × V) :=
  tr.flatMap (committedBy k)

/-- The entries of a row that an open transaction has written. -/
def openEntries [DecidableEq K] (s : RowSessions T K V U) (t : T) (k : K) : List (U × V) :=
  entriesOf k (s.phase t).writes

/-- What a session sees of a row: the entries that are committed, in the order of their commits, and then
its own. -/
def history [DecidableEq K] (tr : List (RowEvent T K V U E)) (s : RowSessions T K V U) (t : T) (k : K) :
    List (U × V) :=
  log tr k ++ s.openEntries t k

section

variable [DecidableEq K]

theorem log_append (tr tr' : List (RowEvent T K V U E)) (k : K) :
    log (tr ++ tr') k = log tr k ++ log tr' k := List.flatMap_append

theorem log_snoc (tr : List (RowEvent T K V U E)) (e : RowEvent T K V U E) (k : K) :
    log (tr ++ [e]) k = log tr k ++ committedBy k e := by
  rw [log_append, log, log, List.flatMap_singleton]

/-- An event that is no commit. -/
theorem log_snoc_of_nil {e : RowEvent T K V U E} (tr : List (RowEvent T K V U E))
    (he : ∀ k : K, committedBy k e = []) : log (tr ++ [e]) = log tr := by
  funext k
  rw [log_snoc, he, List.append_nil]

theorem openEntries_eq {w : List (K × U × V)} (h : s.phase t = .active w) (k : K) :
    s.openEntries t k = entriesOf k w := by
  rw [openEntries, h]
  rfl

/-! ### The invariant -/

/-- The rows are logged and distinct in the unique index, and the keys of all rows are listed. -/
structure Inv (table : Statements K V U A E) (first : K → Option V) (tr : List (RowEvent T K V U E))
    (s : RowSessions T K V U) : Prop where
  logged : Logged table.onRow first (log tr) s.openEntries s.cell
  distinct : Distinct table.index s.cell
  keys : ∀ k v, (s.cell k).Version v → k ∈ s.keys
  nodup : s.keys.Nodup

variable [DecidableEq T] {table : Statements K V U A E} {first : K → Option V}
  {tr tr' : List (RowEvent T K V U E)} {e : RowEvent T K V U E} {key : V → K} {rows : Table key}

omit [DecidableEq T] in
theorem inv_init (hindex : (rows.rows.map table.index).Nodup) :
    Inv table rows.lookup [] (init rows : RowSessions T K V U) where
  logged := Logged.start rows.lookup
  distinct k k' v v' hv hv' heq := by
    have hrow : ∀ k v, ((init rows : RowSessions T K V U).cell k).Version v → rows.lookup k = some v := by
      rintro k v (hcommitted | ⟨t, hw⟩)
      · exact hcommitted
      · cases hw
    obtain ⟨hmem, rfl⟩ := rows.lookup_eq_some_iff.1 (hrow k v hv)
    obtain ⟨hmem', rfl⟩ := rows.lookup_eq_some_iff.1 (hrow k' v' hv')
    rw [List.inj_on_of_nodup_map hindex hmem hmem' heq]
  keys k v hv := by
    rcases hv with hcommitted | ⟨t, hw⟩
    · obtain ⟨hmem, rfl⟩ := rows.lookup_eq_some_iff.1 hcommitted
      exact List.mem_map_of_mem hmem
    · cases hw
  nodup := rows.nodup

/-- A step of one session changes what this session has written. -/
theorem openEntries_update (p : RowPhase K V U) (t' : T) (k : K) :
    (⟨s.keys, s.cell, Function.update s.phase t p⟩ : RowSessions T K V U).openEntries t' k =
      if t' = t then entriesOf k p.writes else s.openEntries t' k :=
  read_update (fun p : RowPhase K V U => entriesOf k p.writes) s.phase t p t'

/-- A step that commits nothing and changes no row. -/
theorem Inv.phase (h : Inv table first tr s) (t : T) {p : RowPhase K V U}
    (hp : ∀ k, entriesOf k p.writes = s.openEntries t k) (he : ∀ k, committedBy k e = []) :
    Inv table first (tr ++ [e]) ⟨s.keys, s.cell, Function.update s.phase t p⟩ where
  logged := by
    rw [log_snoc_of_nil tr he]
    refine h.logged.congr fun t' k => ?_
    rw [openEntries_update, hp]
    split_ifs with ht
    · rw [ht]
    · rfl
  distinct := h.distinct
  keys := h.keys
  nodup := h.nodup

theorem inv_step (h : Inv table first tr s) (hstep : Step table s e s') :
    Inv table first (tr ++ [e]) s' := by
  have hended : ∀ t t' k, (if t' = t then entriesOf k (RowPhase.active ([] : List (K × U × V))).writes
      else s.openEntries t' k) = if t' = t then [] else s.openEntries t' k := fun _ _ _ => rfl
  cases hstep with
  | @write t k u v w hactive hfree hwrite hindex hforeign =>
    refine ⟨?_, h.distinct.write hindex, fun k' v' hv => ?_, h.nodup.insert⟩
    · rw [log_snoc_of_nil tr fun _ => rfl]
      refine h.logged.write hfree hwrite fun t' k' => ?_
      refine (openEntries_update (s := s) _ t' k').trans ?_
      rw [openEntries_eq hactive, RowPhase.writes, entriesOf_snoc]
      by_cases ht : t' = t
      · subst ht
        by_cases hk : k = k'
        · simp [hk]
        · simp [hk, openEntries_eq hactive]
      · simp [ht]
    · rcases Store.version_of_write hv with hold | ⟨rfl, -⟩
      · exact List.mem_insert_of_mem (h.keys k' v' hold)
      · exact List.mem_insert_self
  | @miss t k u w hactive hmiss =>
    refine ⟨?_, h.distinct, h.keys, h.nodup⟩
    rw [log_snoc_of_nil tr fun _ => rfl]
    exact h.logged
  | raise hactive hfree hraise => exact h.phase _ (fun k => (openEntries_eq hactive k).symm) fun _ => rfl
  | clash hactive hfree hwrite hk hfree' hvisible hindex =>
    exact h.phase _ (fun k => (openEntries_eq hactive k).symm) fun _ => rfl
  | foreign hactive hfree hwrite hforeign =>
    exact h.phase _ (fun k => (openEntries_eq hactive k).symm) fun _ => rfl
  | @commit t w hactive =>
    refine ⟨?_, h.distinct.commit t, fun k v hv => h.keys k v (Cell.version_of_commit hv), h.nodup⟩
    have hlog : log (tr ++ [.commit t w]) = fun k => log tr k ++ s.openEntries t k := by
      funext k
      rw [log_snoc, committedBy, openEntries_eq hactive]
    rw [hlog]
    exact h.logged.commit fun t' k => (openEntries_update (s := s) _ t' k).trans (hended t t' k)
  | @rollback t =>
    refine ⟨?_, h.distinct.rollback t, fun k v hv => h.keys k v (Cell.version_of_rollback hv), h.nodup⟩
    rw [log_snoc_of_nil tr fun _ => rfl]
    exact h.logged.rollback fun t' k => (openEntries_update (s := s) _ t' k).trans (hended t t' k)

theorem Inv.run (h : Inv table first tr s) (hrun : Transition.Run (Step table) s tr' s') :
    Inv table first (tr ++ tr') s' := by
  refine hrun.rec_inv (fun tr' s' => Inv table first (tr ++ tr') s') (by rwa [List.append_nil]) ?_
  intro tr' m e m' _ hm hstep
  rw [← List.append_assoc]
  exact inv_step hm hstep

/-- The invariant holds in every run from a table whose rows are distinct in the unique column. -/
theorem inv_run (hindex : (rows.rows.map table.index).Nodup)
    (h : Transition.Run (Step (T := T) table) (init rows) tr s) : Inv table rows.lookup tr s :=
  (inv_init hindex).run h

/-! ### What the sessions see -/

/-- What a session sees of a row is written on the first version. -/
theorem Inv.chain_visible (h : Inv table first tr s) (t : T) (k : K) :
    Chain (table.onRow k) (first k) (history tr s t k) ∧
      s.visible t k = leaves (first k) (history tr s t k) := by
  rw [history, chain_append, leaves_append, ← h.logged.committed]
  exact ⟨⟨h.logged.chain k, h.logged.open_chain t k⟩, h.logged.visible t k⟩

/-- A row is free for a session if no other one has written it. -/
theorem Inv.freeFor (h : Inv table first tr s) (hother : ∀ t' ≠ t, s.openEntries t' k = []) :
    (s.cell k).FreeFor t := by
  intro t' v hw
  by_contra ht
  have hlast := (h.logged.lock k t' v).1 hw
  rw [hother t' ht] at hlast
  cases hlast

/-- What the first versions have and every write keeps holds of every row that a session sees. -/
theorem Inv.visible_inv {P : V → Prop} (h : Inv table first tr s) (t : T) (k : K)
    (h0 : ∀ v ∈ first k, P v)
    (hstep : ∀ u v v', (∀ x ∈ v, P x) → table.onRow k u v = .write v' → P v') :
    ∀ v ∈ s.visible t k, P v := by
  obtain ⟨hchain, hvisible⟩ := h.chain_visible t k
  intro v hv
  rw [hvisible, Option.mem_def, leaves, Option.or_eq_some_iff] at hv
  rcases hv with hlast | ⟨-, hfirst⟩
  · obtain ⟨e, he, rfl⟩ := Option.map_eq_some_iff.1 hlast
    exact hchain.forall_mem h0 hstep e (List.mem_of_getLast? he)
  · exact h0 v hfirst

theorem Inv.mem_select (h : Inv table first tr s) {t : T} :
    v ∈ s.select t ↔ ∃ k, s.visible t k = some v := by
  rw [select, List.mem_filterMap]
  refine ⟨fun ⟨k, _, hk⟩ => ⟨k, hk⟩, fun ⟨k, hk⟩ => ⟨k, ?_, hk⟩⟩
  exact h.keys k v (Cell.version_of_visible hk)

/-- A committed version that no statement changes: every session sees it, then and at any later time,
and no statement writes the row. -/
theorem Inv.fixed (h : Inv table first tr s) (hv : (s.cell k).committed = some v)
    (hfixed : ∀ u v', table.onRow k u (some v) ≠ .write v')
    (hrun : Transition.Run (Step table) s tr' s') :
    (∀ t, s'.visible t k = some v) ∧ ∀ t u v', RowEvent.write t k u v' ∉ tr' := by
  have hlater : ∀ tr' s', Transition.Run (Step table) s tr' s' → ∀ t, s'.visible t k = some v := by
    intro tr' s' hrun t
    obtain ⟨hchain, hvisible⟩ := (h.run hrun).chain_visible t k
    rw [history, log_append, List.append_assoc, leaves_append, ← h.logged.committed, hv] at hvisible
    rw [history, log_append, List.append_assoc, chain_append, ← h.logged.committed, hv] at hchain
    rw [hvisible, hchain.2.eq_nil hfixed, leaves_nil]
  refine ⟨hlater tr' s' hrun, fun t u v' hmem => ?_⟩
  obtain ⟨tr₁, tr₂, m, m', -, h₁, hstep, -⟩ := hrun.exists_step_of_mem hmem
  cases hstep with
  | write hactive hfree hwrite hindex hforeign =>
    rw [hlater tr₁ m h₁ t] at hwrite
    exact hfixed u v' hwrite

/-- If no statement changes a row, every session sees at any later time what one sees that has written
nothing. -/
theorem Inv.select_subset (h : Inv table first tr s)
    (hfixed : ∀ k u v v', table.onRow k u (some v) ≠ .write v') (hidle : ∀ k, s.openEntries t k = [])
    (hrun : Transition.Run (Step table) s tr' s') (t' : T) : s.select t ⊆ s'.select t' := by
  intro v hv
  obtain ⟨k, hk⟩ := h.mem_select.1 hv
  rw [visible, h.logged.visible, hidle, leaves_nil] at hk
  exact (h.run hrun).mem_select.2 ⟨k, (h.fixed hk (fun u v' => hfixed k u v v') hrun).1 t'⟩

omit [DecidableEq T] in
/-- Two committed entries with one value of the unique column are entries of one row, if no statement
changes this column of a row. -/
theorem Inv.index_log (h : Inv table first tr s)
    (hkeep : ∀ k u x v', table.onRow k u (some x) = .write v' → table.index v' = table.index x)
    {k k' : K} {e e' : U × V} (he : e ∈ log tr k) (he' : e' ∈ log tr k')
    (heq : table.index e.2 = table.index e'.2) : k = k' := by
  have hlast : ∀ k, ∀ e ∈ log tr k, ∃ x, (s.cell k).committed = some x ∧ table.index e.2 = table.index x := by
    intro k e he
    have hcommitted := h.logged.committed k
    cases hx : (s.cell k).committed with
    | none =>
      rw [hx, leaves, eq_comm, Option.or_eq_none_iff, Option.map_eq_none_iff,
        List.getLast?_eq_none_iff] at hcommitted
      rw [hcommitted.1] at he
      cases he
    | some x => exact ⟨x, rfl, (h.logged.chain k).column_eq (hkeep k) (hcommitted.symm.trans hx) e he⟩
  obtain ⟨x, hx, hex⟩ := hlast k e he
  obtain ⟨x', hx', hex'⟩ := hlast k' e' he'
  exact h.distinct k k' x x' (.inl hx) (.inl hx') (hex.symm.trans (heq.trans hex'))

/-- The rows that a query reads are distinct in the unique column. -/
theorem Inv.nodup_select (h : Inv table first tr s) (t : T) : ((s.select t).map table.index).Nodup := by
  rw [List.Nodup, List.pairwise_map]
  refine List.Pairwise.filterMap (s.visible t) ?_ h.nodup
  intro k k' hne v hv v' hv' heq
  exact hne (h.distinct k k' v v' (Cell.version_of_visible hv) (Cell.version_of_visible hv') heq)

/-! ### Statements of several rows -/

/-- The entries of a row that an event adds to the open transaction of a session. -/
def writtenBy (t : T) (k : K) : RowEvent T K V U E → List (U × V)
  | .write t' k' u v => if t' = t ∧ k' = k then [(u, v)] else []
  | _ => []

/-- The event ends the transaction of the session. -/
def Ends (t : T) : RowEvent T K V U E → Prop
  | .commit t' _ | .rollback t' => t' = t
  | _ => False

theorem openEntries_step (hstep : Step table s e s') (hends : ¬ Ends t e) (k : K) :
    s'.openEntries t k = s.openEntries t k ++ writtenBy t k e := by
  cases hstep with
  | @write t' k' u v w hactive =>
    refine (openEntries_update (s := s) _ t k).trans ?_
    rw [RowPhase.writes, entriesOf_snoc, writtenBy]
    by_cases ht : t = t'
    · subst ht
      rw [if_pos rfl, openEntries_eq hactive]
      by_cases hk : k' = k
      · rw [if_pos hk, if_pos ⟨rfl, hk⟩]
      · rw [if_neg hk, if_neg fun h => hk h.2, List.append_nil]
    · rw [if_neg ht, if_neg fun h => ht h.1.symm, List.append_nil]
  | miss => exact (List.append_nil _).symm
  | raise hactive | clash hactive | foreign hactive =>
    refine ((openEntries_update (s := s) _ t k).trans ?_).trans (List.append_nil _).symm
    split_ifs with ht
    · rw [ht, openEntries_eq hactive]
      rfl
    · rfl
  | commit | rollback =>
    refine ((openEntries_update (s := s) _ t k).trans ?_).trans (List.append_nil _).symm
    exact if_neg fun ht => hends ht.symm

/-- While its transaction is open, a session adds its writes to its entries. -/
theorem openEntries_run (hrun : Transition.Run (Step table) s tr' s') (hends : ∀ e ∈ tr', ¬ Ends t e)
    (k : K) : s'.openEntries t k = s.openEntries t k ++ tr'.flatMap (writtenBy t k) := by
  induction hrun with
  | nil => exact (List.append_nil _).symm
  | snoc hrun hstep ih =>
    have hlast := hends _ (List.mem_append_right _ (List.mem_singleton_self _))
    rw [openEntries_step hstep hlast, ih fun e he => hends e (List.mem_append_left _ he),
      List.flatMap_append, List.flatMap_singleton, List.append_assoc]

/-! ### References between rows -/

/-- Every row refers to a row that is there in a version that suits it, among the committed rows and in
what each session sees. -/
structure Refs (ref : V → Option K) (ok : V → V → Prop) (s : RowSessions T K V U) : Prop where
  committed : ∀ k v k', (s.cell k).committed = some v → ref v = some k' →
    ∃ x, (s.cell k').committed = some x ∧ ok v x
  visible : ∀ t k v k', s.visible t k = some v → ref v = some k' →
    ∃ x, s.visible t k' = some x ∧ ok v x

/-- What a statement on a row finds there and writes suits the same rows. -/
def KeepsRefs (table : Statements K V U A E) (ok : V → V → Prop) : Prop :=
  ∀ k u x x' v, ok v x → table.onRow k u (some x) = .write x' → ok v x'

/-- A row that is written refers to another one, which its session sees. -/
def WritesRefs (ref : V → Option K) (ok : V → V → Prop) (s : RowSessions T K V U) :
    RowEvent T K V U E → Prop
  | .write t _ _ v => ∀ k', ref v = some k' → ∃ x, s.visible t k' = some x ∧ ok v x
  | _ => True

section Refs

variable {ref : V → Option K} {ok : V → V → Prop} {k' : K}

theorem refs_init {rows : Table key} (hrows : ∀ v ∈ rows.rows, ∀ k', ref v = some k' →
    ∃ x, rows.lookup k' = some x ∧ ok v x) :
    Refs ref ok (init rows : RowSessions T K V U) :=
  ⟨fun _ v k' hv => hrows v (rows.mem_of_lookup hv) k',
    fun _ _ v k' hv => hrows v (rows.mem_of_lookup hv) k'⟩

/-- What is committed of a row is there for every session. -/
theorem Inv.exists_visible (h : Inv table first tr s) (hkeep : KeepsRefs table ok) (t : T)
    (hx : ∃ x, (s.cell k').committed = some x ∧ ok v x) : ∃ x, s.visible t k' = some x ∧ ok v x := by
  obtain ⟨x, hcommitted, hok⟩ := hx
  have hchain := h.logged.open_chain t k'
  rw [hcommitted] at hchain
  rw [visible, h.logged.visible, hcommitted]
  exact hchain.exists_leaves hok fun u y v' hy hwrite => hkeep k' u y v' v hy hwrite

/-- What a session sees of a row that it has not written, the other ones see as well. -/
theorem Inv.exists_visible_of_not_heldBy (h : Inv table first tr s) (hkeep : KeepsRefs table ok)
    (hheld : ¬ (s.cell k').HeldBy t) (hx : ∃ x, s.visible t k' = some x ∧ ok v x) (t' : T) :
    ∃ x, s.visible t' k' = some x ∧ ok v x := by
  rw [visible, Cell.visible_of_not_heldBy hheld] at hx
  exact h.exists_visible hkeep t' hx

theorem Refs.commit (h : Inv table first tr s) (hkeep : KeepsRefs table ok) (hrefs : Refs ref ok s)
    (t t' : T) (hv : (s.cell.commit t k).visible t' = some v) (hk' : ref v = some k') :
    ∃ x, (s.cell.commit t k').visible t' = some x ∧ ok v x := by
  by_cases hother : t' ≠ t ∧ (s.cell k').HeldBy t'
  · rw [Store.visible_commit_of_heldBy hother.1 hother.2]
    by_cases hown : (s.cell k).HeldBy t'
    · rw [Store.visible_commit_of_heldBy hother.1 hown] at hv
      exact hrefs.visible t' k v k' hv hk'
    · rw [Store.visible_commit (.inr hown)] at hv
      have hheld : ¬ (s.cell k').HeldBy t := by
        rintro ⟨x, hw⟩
        obtain ⟨x', hw'⟩ := hother.2
        rw [hw, Option.some.injEq, Prod.mk.injEq] at hw'
        exact hother.1 hw'.1.symm
      exact h.exists_visible_of_not_heldBy hkeep hheld (hrefs.visible t k v k' hv hk') t'
  · rw [not_and_or, not_not] at hother
    rw [Store.visible_commit hother]
    by_cases hown : t' ≠ t ∧ (s.cell k).HeldBy t'
    · rw [Store.visible_commit_of_heldBy hown.1 hown.2] at hv
      exact h.exists_visible_of_not_heldBy hkeep (hother.resolve_left hown.1)
        (hrefs.visible t' k v k' hv hk') t
    · rw [not_and_or, not_not] at hown
      rw [Store.visible_commit hown] at hv
      exact hrefs.visible t k v k' hv hk'

theorem refs_step (h : Inv table first tr s) (hkeep : KeepsRefs table ok) (hrefs : Refs ref ok s)
    (hstep : Step table s e s') (hwrites : s.WritesRefs ref ok e) : Refs ref ok s' := by
  cases hstep with
  | miss hactive hmiss => exact hrefs
  | raise hactive hfree hraise => exact ⟨hrefs.committed, hrefs.visible⟩
  | clash hactive hfree hwrite hk hfree' hvisible hindex => exact ⟨hrefs.committed, hrefs.visible⟩
  | foreign hactive hfree hwrite hforeign => exact ⟨hrefs.committed, hrefs.visible⟩
  | @write t k u v w hactive hfree hwrite hindex hforeign =>
    refine ⟨fun k₁ v₁ k₂ => ?_, fun t' k₁ v₁ k₂ => ?_⟩
    · simp only [Store.committed_write]
      exact hrefs.committed k₁ v₁ k₂
    · simp only [visible, Store.visible_write hfree]
      intro hv₁ hk₂
      have hold : ∃ x, s.visible t' k₂ = some x ∧ ok v₁ x := by
        split_ifs at hv₁ with hnew
        · obtain rfl := Option.some.inj hv₁
          rw [hnew.1]
          exact hwrites k₂ hk₂
        · exact hrefs.visible t' k₁ v₁ k₂ hv₁ hk₂
      obtain ⟨x, hx, hok⟩ := hold
      split_ifs with hnew
      · obtain ⟨rfl, rfl⟩ := hnew
        rw [hx] at hwrite
        exact ⟨v, rfl, hkeep _ u x v v₁ hok hwrite⟩
      · exact ⟨x, hx, hok⟩
  | @commit t w hactive =>
    refine ⟨fun k₁ v₁ k₂ => ?_, fun t' k₁ v₁ k₂ => hrefs.commit h hkeep t t'⟩
    simp only [Store.committed_commit_eq]
    exact hrefs.visible t k₁ v₁ k₂
  | @rollback t =>
    refine ⟨fun k₁ v₁ k₂ => ?_, fun t' k₁ v₁ k₂ => ?_⟩
    · simp only [Store.committed_rollback]
      exact hrefs.committed k₁ v₁ k₂
    · simp only [visible, Store.visible_rollback]
      split_ifs
      · exact hrefs.committed k₁ v₁ k₂
      · exact hrefs.visible t' k₁ v₁ k₂

/-- References hold in every run whose steps write suitable ones. -/
theorem refs_run {rows : Table key} (hindex : (rows.rows.map table.index).Nodup)
    (hkeep : KeepsRefs table ok) (hrows : ∀ v ∈ rows.rows, ∀ k', ref v = some k' →
      ∃ x, rows.lookup k' = some x ∧ ok v x) {G : RowSessions T K V U → RowEvent T K V U E → Prop}
    (hguard : ∀ tr s e s', Inv table rows.lookup tr s → Refs ref ok s → Step table s e s' →
      G s e → s.WritesRefs ref ok e)
    (h : Transition.Run (fun s e s' => Step table s e s' ∧ G s e) (init rows) tr s) :
    Refs ref ok s := by
  refine h.rec_inv (fun _ s => Refs ref ok s) (refs_init hrows) fun tr s e s' hrun hrefs hstep => ?_
  have hinv := inv_run hindex (hrun.mono fun _ _ _ hstep => hstep.1)
  exact refs_step hinv hkeep hrefs hstep.1 (hguard tr s e s' hinv hrefs hstep.1 hstep.2)

end Refs

end

end RowSessions

end ReadCommitted
