import Ipa.Lib.RowSessions

/-!
# Executing the calls of sessions

`next` executes one call of a session on the rows, and `play` the calls of any number of sessions in the
order of a list.  A call that has to wait for another transaction is not executed.

* `run_play`: the events of the calls are a run of the sessions.
-/

namespace ReadCommitted

variable {T K V U A E : Type*}

/-- A statement of a session, or the end of its transaction. -/
inductive RowCall (T K U : Type*)
  | statement (t : T) (k : K) (u : U)
  | commit (t : T)
  | rollback (t : T)

/-- The versions of a row. -/
def Cell.versions (c : Cell T V) : List V := c.committed.toList ++ (c.writer.map Prod.snd).toList

/-- No other transaction has written the row. -/
def Cell.isFreeFor [DecidableEq T] (t : T) (c : Cell T V) : Bool := c.writer.all fun w => w.1 = t

theorem Cell.mem_versions {c : Cell T V} {v : V} (h : c.Version v) : v ∈ c.versions := by
  rw [versions, List.mem_append]
  rcases h with hcommitted | ⟨t, hw⟩
  · exact .inl (by simp [hcommitted])
  · exact .inr (by simp [hw])

theorem Cell.freeFor_of_isFreeFor [DecidableEq T] {t : T} {c : Cell T V} (h : c.isFreeFor t = true) :
    c.FreeFor t := by
  intro t' v hw
  rw [isFreeFor, hw] at h
  simpa using h

namespace RowSessions

section

variable [DecidableEq T] [DecidableEq K] [DecidableEq A] (table : Statements K V U A E)

/-- Another row with the value that `v` has in the unique column. -/
def rival (s : RowSessions T K V U) (k : K) (v : V) : Option K :=
  s.keys.find? fun k' => k' ≠ k && (s.cell k').versions.any fun v' => table.index v' = table.index v

/-- A statement that writes `v` on its row, unless it violates a constraint. -/
def nextWrite (s : RowSessions T K V U) (t : T) (w : List (K × U × V)) (k : K) (u : U) (v : V) :
    Option (RowEvent T K V U E × RowSessions T K V U) :=
  let failed : RowSessions T K V U := ⟨s.keys, s.cell, Function.update s.phase t (.failed w)⟩
  match table.foreign k u (s.visible t) with
  | some e => some (.raise t k u e, failed)
  | none =>
    match s.rival table k v with
    | none => some (.write t k u v, ⟨s.keys.insert k, s.cell.write t k v,
        Function.update s.phase t (.active (w ++ [(k, u, v)]))⟩)
    | some k' =>
      if (s.cell k').isFreeFor t && (s.visible t k').any fun v' => table.index v' = table.index v then
        some (.raise t k u (table.clash k u), failed)
      else none

/-- Execute a call, if it has not to wait and its transaction has not failed. -/
def next (s : RowSessions T K V U) :
    RowCall T K U → Option (RowEvent T K V U E × RowSessions T K V U)
  | .statement t k u =>
    match s.phase t, table.onRow k u (s.visible t k) with
    | .failed _, _ => none
    | .active _, .miss => some (.miss t k u, s)
    | .active w, .raise e =>
      if (s.cell k).isFreeFor t then
        some (.raise t k u e, ⟨s.keys, s.cell, Function.update s.phase t (.failed w)⟩)
      else none
    | .active w, .write v => if (s.cell k).isFreeFor t then s.nextWrite table t w k u v else none
  | .commit t =>
    match s.phase t with
    | .failed _ => none
    | .active w =>
      some (.commit t w, ⟨s.keys, s.cell.commit t, Function.update s.phase t (.active [])⟩)
  | .rollback t =>
    some (.rollback t, ⟨s.keys, s.cell.rollback t, Function.update s.phase t (.active [])⟩)

/-- Execute calls, oldest first. -/
def play (s : RowSessions T K V U) :
    List (RowCall T K U) → Option (List (RowEvent T K V U E) × RowSessions T K V U)
  | [] => some ([], s)
  | call :: calls =>
    match s.next table call with
    | none => none
    | some (e, s') => (play s' calls).map fun r => (e :: r.1, r.2)

/-- Every call that is executed meets a condition on the state and its event. -/
def PlaysWith (G : RowSessions T K V U → RowEvent T K V U E → Prop) :
    RowSessions T K V U → List (RowCall T K U) → Prop
  | _, [] => True
  | s, call :: calls =>
    match s.next table call with
    | none => True
    | some (e, s') => G s e ∧ PlaysWith G s' calls

end

variable [DecidableEq T] [DecidableEq K] [DecidableEq A] {table : Statements K V U A E}
  {s s' : RowSessions T K V U} {t : T} {k : K} {u : U} {v : V} {w : List (K × U × V)}
  {e : RowEvent T K V U E} {call : RowCall T K U} {calls : List (RowCall T K U)}
  {tr tr' : List (RowEvent T K V U E)} {first : K → Option V}

omit [DecidableEq T] in
theorem index_ne_of_rival (hkeys : ∀ k v, (s.cell k).Version v → k ∈ s.keys)
    (h : s.rival table k v = none) : ∀ k' ≠ k, ∀ v', (s.cell k').Version v' →
      table.index v' ≠ table.index v := by
  intro k' hk v' hv heq
  rw [rival, List.find?_eq_none] at h
  refine h k' (hkeys k' v' hv) ?_
  rw [Bool.and_eq_true, List.any_eq_true]
  exact ⟨decide_eq_true hk, v', Cell.mem_versions hv, decide_eq_true heq⟩

theorem step_of_nextWrite (hkeys : ∀ k v, (s.cell k).Version v → k ∈ s.keys)
    (hactive : s.phase t = .active w) (hfree : (s.cell k).FreeFor t)
    (hwrite : table.onRow k u (s.visible t k) = .write v)
    (h : s.nextWrite table t w k u v = some (e, s')) : Step table s e s' := by
  unfold nextWrite at h
  dsimp only at h
  cases hforeign : table.foreign k u (s.visible t) with
  | some error =>
    rw [hforeign] at h
    cases h
    exact .foreign hactive hfree hwrite hforeign
  | none =>
    cases hrival : s.rival table k v with
    | none =>
      rw [hforeign, hrival] at h
      cases h
      exact .write hactive hfree hwrite (index_ne_of_rival hkeys hrival) hforeign
    | some k' =>
      simp only [hforeign, hrival] at h
      split_ifs at h with hclash
      cases h
      rw [Bool.and_eq_true, Option.any_eq_true] at hclash
      obtain ⟨hfree', v', hvisible, hindex⟩ := hclash
      have hk : k' ≠ k := by
        have hfound := List.find?_some hrival
        rw [Bool.and_eq_true] at hfound
        exact of_decide_eq_true hfound.1
      exact .clash hactive hfree hwrite hk (Cell.freeFor_of_isFreeFor hfree') hvisible
        (of_decide_eq_true hindex)

/-- A call that is executed is a step. -/
theorem step_of_next (hkeys : ∀ k v, (s.cell k).Version v → k ∈ s.keys)
    (h : s.next table call = some (e, s')) : Step table s e s' := by
  cases call with
  | statement t k u =>
    unfold next at h
    dsimp only at h
    split at h
    · cases h
    · rename_i w hactive hmiss
      cases h
      exact .miss hactive hmiss
    · rename_i w error hactive hraise
      split_ifs at h with hfree
      cases h
      exact .raise hactive (Cell.freeFor_of_isFreeFor hfree) hraise
    · rename_i w v hactive hwrite
      split_ifs at h with hfree
      exact step_of_nextWrite hkeys hactive (Cell.freeFor_of_isFreeFor hfree) hwrite h
  | commit t =>
    unfold next at h
    dsimp only at h
    split at h
    · cases h
    · rename_i w hactive
      cases h
      exact .commit hactive
  | rollback t =>
    cases h
    exact .rollback

/-- The events of the calls are a run whose steps meet a condition, which may rely on the keys of all rows
being listed. -/
theorem run_play_guarded {G : RowSessions T K V U → RowEvent T K V U E → Prop}
    (hinv : Inv table first tr s) (h : s.play table calls = some (tr', s'))
    (hguard : PlaysWith table (fun s e => (∀ k v, (s.cell k).Version v → k ∈ s.keys) → G s e) s calls) :
    Transition.Run (fun s e s' => Step table s e s' ∧ G s e) s tr' s' := by
  induction calls generalizing s tr tr' with
  | nil =>
    cases h
    exact .nil
  | cons call calls ih =>
    rw [play] at h
    rw [PlaysWith] at hguard
    split at h
    · cases h
    · rename_i e m hnext
      rw [hnext] at hguard
      obtain ⟨r, hplay, heq⟩ := Option.map_eq_some_iff.1 h
      cases heq
      have hstep := step_of_next hinv.keys hnext
      exact .cons ⟨hstep, hguard.1 hinv.keys⟩ (ih (inv_step hinv hstep) hplay hguard.2)

theorem playsWith_of_forall {G : RowSessions T K V U → RowEvent T K V U E → Prop} (h : ∀ s e, G s e)
    (s : RowSessions T K V U) (calls : List (RowCall T K U)) : PlaysWith table G s calls := by
  induction calls generalizing s with
  | nil => trivial
  | cons call calls ih =>
    rw [PlaysWith]
    split
    · trivial
    · exact ⟨h _ _, ih _⟩

/-- The events of the calls are a run. -/
theorem run_play (hinv : Inv table first tr s) (h : s.play table calls = some (tr', s')) :
    Transition.Run (Step table) s tr' s' :=
  (run_play_guarded (G := fun _ _ => True) hinv h (playsWith_of_forall (fun _ _ _ => trivial) s calls)).mono
    fun _ _ _ hstep => hstep.1

/-- The calls of a list that are executed on the rows of a table. -/
theorem exists_run_play {key : V → K} {rows : Table key} (hindex : (rows.rows.map table.index).Nodup)
    (h : ((init rows : RowSessions T K V U).play table calls).isSome) :
    Transition.Run (Step table) (init rows) (((init rows).play table calls).get h).1
      (((init rows).play table calls).get h).2 :=
  run_play (inv_init hindex) (Option.some_get h).symm

end RowSessions

end ReadCommitted
