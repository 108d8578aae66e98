import Mathlib.Logic.Function.Basic
import Mathlib.Tactic.Common

/-!
# Row versions under READ COMMITTED

A row is known to everybody by its last committed version and to the transaction that has written it
by the version it wrote.  The uncommitted version of a row is its lock: it belongs to one transaction
(`Cell.writer`), a statement of another transaction waits for it, and it ends with that transaction,
by becoming the committed version (`Cell.commit`) or by being dropped (`Cell.rollback`).

`Locks s W` says that the uncommitted versions of the store `s` are exactly those that the open
transactions have written, `W t` being the writes of `t`.  The systems built on the store keep it
(`Locks.write`, `Locks.commit`, `Locks.rollback`), and it says what a commit publishes
(`Locks.committed_commit`).
-/

namespace ReadCommitted

variable {T K V : Type*}

/-- A row: its committed version and the uncommitted one with its writer, if they exist. -/
structure Cell (T V : Type*) where
  committed : Option V
  writer : Option (T × V)

namespace Cell

variable [DecidableEq T] {c : Cell T V} {t t' : T} {v : V}

/-- The version that the statements of `t` see. -/
def visible (t : T) (c : Cell T V) : Option V :=
  match c.writer with
  | some (t', v) => if t' = t then some v else c.committed
  | none => c.committed

/-- `t` has written the row. -/
def HeldBy (t : T) (c : Cell T V) : Prop := ∃ v, c.writer = some (t, v)

/-- End `t` by publishing its version. -/
def commit (t : T) (c : Cell T V) : Cell T V :=
  match c.writer with
  | some (t', v) => if t' = t then ⟨some v, none⟩ else c
  | none => c

/-- End `t` by dropping its version. -/
def rollback (t : T) (c : Cell T V) : Cell T V :=
  match c.writer with
  | some (t', _) => if t' = t then ⟨c.committed, none⟩ else c
  | none => c

theorem visible_of_writer (h : c.writer = some (t, v)) : c.visible t = some v := by
  simp [visible, h]

theorem visible_of_not_heldBy (h : ¬ c.HeldBy t) : c.visible t = c.committed := by
  unfold visible
  split
  · rename_i t' v hw
    exact if_neg fun ht : t' = t => h ⟨v, ht ▸ hw⟩
  · rfl

theorem commit_of_writer (h : c.writer = some (t, v)) : c.commit t = ⟨some v, none⟩ := by
  simp [commit, h]

theorem commit_of_not_heldBy (h : ¬ c.HeldBy t) : c.commit t = c := by
  unfold commit
  split
  · rename_i t' v hw
    exact if_neg fun ht : t' = t => h ⟨v, ht ▸ hw⟩
  · rfl

theorem rollback_of_not_heldBy (h : ¬ c.HeldBy t) : c.rollback t = c := by
  unfold rollback
  split
  · rename_i t' v hw
    exact if_neg fun ht : t' = t => h ⟨v, ht ▸ hw⟩
  · rfl

theorem rollback_of_heldBy (h : c.HeldBy t) : c.rollback t = ⟨c.committed, none⟩ := by
  obtain ⟨v, hw⟩ := h
  simp [rollback, hw]

@[simp]
theorem committed_rollback (t : T) (c : Cell T V) : (c.rollback t).committed = c.committed := by
  by_cases h : c.HeldBy t
  · rw [rollback_of_heldBy h]
  · rw [rollback_of_not_heldBy h]

/-- Ending a transaction frees its row and leaves every other lock. -/
theorem writer_rollback_iff : (c.rollback t).writer = some (t', v) ↔
    c.writer = some (t', v) ∧ t' ≠ t := by
  by_cases h : c.HeldBy t
  · rw [rollback_of_heldBy h]
    obtain ⟨v', hw⟩ := h
    simp [hw]
    rintro rfl _
    rfl
  · rw [rollback_of_not_heldBy h]
    refine ⟨fun hw => ⟨hw, ?_⟩, And.left⟩
    rintro rfl
    exact h ⟨v, hw⟩

theorem writer_commit (t : T) (c : Cell T V) : (c.commit t).writer = (c.rollback t).writer := by
  unfold commit rollback
  split
  · split_ifs <;> rfl
  · rfl

/-- A version of the row, committed or not. -/
def Version (c : Cell T V) (v : V) : Prop := c.committed = some v ∨ ∃ t, c.writer = some (t, v)

theorem version_of_visible (h : c.visible t = some v) : c.Version v := by
  by_cases hheld : c.HeldBy t
  · obtain ⟨v', hw⟩ := hheld
    obtain rfl := Option.some.inj ((visible_of_writer hw).symm.trans h)
    exact .inr ⟨t, hw⟩
  · rw [visible_of_not_heldBy hheld] at h
    exact .inl h

/-- The end of a transaction brings no new version. -/
theorem version_of_rollback (h : (c.rollback t).Version v) : c.Version v := by
  rcases h with hcommitted | ⟨t', hw⟩
  · exact .inl (by rwa [committed_rollback] at hcommitted)
  · exact .inr ⟨t', (writer_rollback_iff.1 hw).1⟩

theorem version_of_commit (h : (c.commit t).Version v) : c.Version v := by
  by_cases hheld : c.HeldBy t
  · obtain ⟨v', hw⟩ := hheld
    rw [commit_of_writer hw] at h
    rcases h with hcommitted | ⟨t', hnone⟩
    · exact .inr ⟨t, hw.trans (congrArg (fun v => some (t, v)) (Option.some.inj hcommitted))⟩
    · cases hnone
  · rwa [commit_of_not_heldBy hheld] at h

end Cell

/-! ## Stores -/

/-- A row for each key. -/
abbrev Store (T K V : Type*) := K → Cell T V

namespace Store

/-- The store without rows. -/
def empty : Store T K V := fun _ => ⟨none, none⟩

/-- Give the row with key `k` the uncommitted version `v`. -/
def write [DecidableEq K] (t : T) (k : K) (v : V) (s : Store T K V) : Store T K V :=
  Function.update s k ⟨(s k).committed, some (t, v)⟩

/-- End `t` by publishing its versions. -/
def commit [DecidableEq T] (t : T) (s : Store T K V) : Store T K V := fun k => (s k).commit t

/-- End `t` by dropping its versions. -/
def rollback [DecidableEq T] (t : T) (s : Store T K V) : Store T K V := fun k => (s k).rollback t

@[simp]
theorem committed_write [DecidableEq K] (t : T) (k : K) (v : V) (s : Store T K V) (k' : K) :
    (s.write t k v k').committed = (s k').committed := by
  unfold write
  by_cases h : k' = k
  · rw [h, Function.update_self]
  · rw [Function.update_of_ne h]

theorem writer_write [DecidableEq K] (t : T) (k : K) (v : V) (s : Store T K V) :
    (s.write t k v k).writer = some (t, v) := by
  rw [write, Function.update_self]

/-- A write brings one new version. -/
theorem version_of_write [DecidableEq K] {t : T} {k k' : K} {v v' : V} {s : Store T K V}
    (h : (s.write t k v k').Version v') : (s k').Version v' ∨ k' = k ∧ v' = v := by
  by_cases hk : k' = k
  · subst hk
    rcases h with hcommitted | ⟨t', hw⟩
    · exact .inl (.inl (by rwa [committed_write] at hcommitted))
    · rw [writer_write, Option.some.injEq, Prod.mk.injEq] at hw
      exact .inr ⟨rfl, hw.2.symm⟩
  · rw [write, Function.update_of_ne hk] at h
    exact .inl h

@[simp]
theorem committed_rollback [DecidableEq T] (t : T) (s : Store T K V) (k : K) :
    (s.rollback t k).committed = (s k).committed :=
  Cell.committed_rollback t (s k)

end Store

/-! ## The writes of the open transactions -/

/-- What is read off the phase of each transaction after one of them has changed it. -/
theorem read_update [DecidableEq T] {P A : Type*} (read : P → A) (phase : T → P) (t : T) (p : P)
    (t' : T) : read (Function.update phase t p t') = if t' = t then read p else read (phase t') := by
  rw [Function.update_apply, apply_ite read]

/-- The uncommitted versions of `s` are the writes `W` of its open transactions. -/
def Locks (s : Store T K V) (W : T → List (K × V)) : Prop :=
  ∀ k t v, (s k).writer = some (t, v) ↔ (k, v) ∈ W t

namespace Locks

variable {s : Store T K V} {W : T → List (K × V)} {k : K} {t t' : T} {v v' : V}

theorem empty : Locks (Store.empty : Store T K V) fun _ => [] := by
  intro k t v
  simp [Store.empty]

/-- A row has one writer. -/
theorem writer_unique (h : Locks s W) (hv : (k, v) ∈ W t) (hv' : (k, v') ∈ W t') :
    t = t' ∧ v = v' := by
  have heq := ((h k t v).2 hv).symm.trans ((h k t' v').2 hv')
  simpa using heq

/-- Changing a transaction without changing its writes keeps the locks. -/
theorem congr {W' : T → List (K × V)} (h : Locks s W) (hW : ∀ t, W' t = W t) : Locks s W' := by
  rwa [funext hW]

variable [DecidableEq T]

theorem write [DecidableEq K] {W' : T → List (K × V)} (h : Locks s W) (hfree : (s k).writer = none)
    (hW : ∀ t', W' t' = if t' = t then W t ++ [(k, v)] else W t') : Locks (s.write t k v) W' := by
  intro k' t' v'
  rw [hW, Store.write]
  have hnone : ∀ t v, (k, v) ∉ W t := by
    intro t v hv
    rw [← h, hfree] at hv
    cases hv
  by_cases hk : k' = k
  · subst hk
    rw [Function.update_self]
    split_ifs with ht
    · subst ht
      simp [hnone, eq_comm]
    · simp [hnone, Ne.symm ht]
  · rw [Function.update_of_ne hk, h]
    split_ifs with ht
    · simp [ht, hk]
    · rfl

/-- Ending `t` leaves the locks of the others. -/
theorem rollback {W' : T → List (K × V)} (h : Locks s W)
    (hW : ∀ t', W' t' = if t' = t then [] else W t') : Locks (s.rollback t) W' := by
  intro k' t' v'
  rw [hW, Store.rollback, Cell.writer_rollback_iff, h]
  split_ifs with ht
  · simp [ht]
  · simp [ht]

theorem commit {W' : T → List (K × V)} (h : Locks s W)
    (hW : ∀ t', W' t' = if t' = t then [] else W t') : Locks (s.commit t) W' := by
  intro k' t' v'
  rw [Store.commit, Cell.writer_commit]
  exact h.rollback hW k' t' v'

/-! ### Writes read off the phases of the transactions -/

section Phases

variable {P : Type*} {read : P → List (K × V)} {phase : T → P} {p : P}

theorem update_phase (h : Locks s fun t => read (phase t)) (hp : read p = read (phase t)) :
    Locks s fun t' => read (Function.update phase t p t') := by
  refine h.congr fun t' => ?_
  rw [read_update read]
  split_ifs with ht
  · rw [ht, hp]
  · rfl

theorem write_phase [DecidableEq K] (h : Locks s fun t => read (phase t))
    (hfree : (s k).writer = none) (hp : read p = read (phase t) ++ [(k, v)]) :
    Locks (s.write t k v) fun t' => read (Function.update phase t p t') := by
  refine h.write hfree fun t' => ?_
  rw [read_update read, hp]

theorem rollback_phase (h : Locks s fun t => read (phase t)) (hp : read p = []) :
    Locks (s.rollback t) fun t' => read (Function.update phase t p t') := by
  refine h.rollback fun t' => ?_
  rw [read_update read, hp]

theorem commit_phase (h : Locks s fun t => read (phase t)) (hp : read p = []) :
    Locks (s.commit t) fun t' => read (Function.update phase t p t') := by
  refine h.commit fun t' => ?_
  rw [read_update read, hp]

end Phases

/-- A commit publishes the row that the transaction has written. -/
theorem committed_commit (h : Locks s W) (hv : (k, v) ∈ W t) :
    (s.commit t k).committed = some v := by
  rw [Store.commit, Cell.commit_of_writer ((h k t v).2 hv)]

/-- A commit leaves every row that the transaction has not written. -/
theorem committed_commit_of_notMem (h : Locks s W) (hv : ∀ v, (k, v) ∉ W t) :
    (s.commit t k).committed = (s k).committed := by
  rw [Store.commit, Cell.commit_of_not_heldBy]
  rintro ⟨v, hw⟩
  exact hv v ((h k t v).1 hw)

end Locks

end ReadCommitted
