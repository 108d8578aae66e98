import Mathlib.Logic.Function.Basic
import Mathlib.Tactic.Common

/-!
# Stores of keys with values

A store is a partial function from keys to values.  Its operations act on one key at a time:
`put`, `erase`, `putNew` (only when the key is free) and `compareAndErase` (only when the key holds a
given value).

Operations that read and write one key each (`Local`) do not interfere: in every sequence of them the
answers of the operations on one key are those of the sequence without all the others
(`Local.answers_filter`).
-/

namespace KeyValue

variable {K V : Type*} [DecidableEq K]

/-- The value of each key that has one. -/
abbrev Store (K V : Type*) := K → Option V

/-- Give a key a value. -/
def put (k : K) (v : V) (s : Store K V) : Store K V := Function.update s k (some v)

/-- Take the value of a key away. -/
def erase (k : K) (s : Store K V) : Store K V := Function.update s k none

/-- Put a value under a free key; the answer says whether it was free. -/
def putNew (k : K) (v : V) (s : Store K V) : Store K V × Bool :=
  match s k with
  | none => (put k v s, true)
  | some _ => (s, false)

/-- Erase a key that holds `v`; the answer says whether it did. -/
def compareAndErase [DecidableEq V] (k : K) (v : V) (s : Store K V) : Store K V × Bool :=
  if s k = some v then (erase k s, true) else (s, false)

section

variable {k k' : K} {v w : V} {s : Store K V}

@[simp]
theorem put_self : put k v s k = some v := Function.update_self _ _ _

theorem put_of_ne (h : k' ≠ k) : put k v s k' = s k' := Function.update_of_ne h _ _

@[simp]
theorem erase_self : erase k s k = none := Function.update_self _ _ _

theorem erase_of_ne (h : k' ≠ k) : erase k s k' = s k' := Function.update_of_ne h _ _

theorem putNew_of_none (h : s k = none) : putNew k v s = (put k v s, true) := by
  rw [putNew, h]

theorem putNew_of_some (h : s k = some w) : putNew k v s = (s, false) := by
  rw [putNew, h]

/-- A value that is there stays. -/
theorem putNew_fst_of_some (h : s k = some w) : (putNew k' v s).1 k = some w := by
  by_cases hk : k = k'
  · subst hk
    rw [putNew_of_some h]
    exact h
  · cases hs : s k' with
    | none =>
      rw [putNew_of_none hs]
      exact (put_of_ne hk).trans h
    | some _ =>
      rw [putNew_of_some hs]
      exact h

theorem putNew_snd_eq_true (h : (putNew k v s).2 = true) : s k = none := by
  cases hs : s k with
  | none => rfl
  | some _ =>
    rw [putNew_of_some hs] at h
    cases h

theorem putNew_fst_of_false (h : (putNew k v s).2 = false) : (putNew k v s).1 = s := by
  cases hs : s k with
  | none =>
    rw [putNew_of_none hs] at h
    cases h
  | some _ => rw [putNew_of_some hs]

variable [DecidableEq V]

/-- Only the value that is compared with is erased. -/
theorem compareAndErase_fst_of_ne (h : s k = some w) (hne : w ≠ v) :
    (compareAndErase k' v s).1 k = some w := by
  unfold compareAndErase
  split_ifs with hs
  · by_cases hk : k = k'
    · subst hk
      exact absurd (Option.some.inj (h.symm.trans hs)) hne
    · exact (erase_of_ne hk).trans h
  · exact h

end

/-! ## Local operations -/

/-- An operation that reads and writes one key. -/
structure ActsAt {A : Type*} (k : K) (f : Store K V → Store K V × A) : Prop where
  frame : ∀ s k', k' ≠ k → (f s).1 k' = s k'
  congr : ∀ s s', s k = s' k → (f s).2 = (f s').2 ∧ (f s).1 k = (f s').1 k

namespace ActsAt

variable {A B : Type*} {k : K} {f f' : Store K V → Store K V × A}

omit [DecidableEq K] in
/-- What is answered without a look at the store. -/
theorem pure (a : A) : ActsAt k fun s : Store K V => (s, a) :=
  ⟨fun _ _ _ => rfl, fun _ _ hs => ⟨rfl, hs⟩⟩

omit [DecidableEq K] in
theorem map (h : ActsAt k f) (g : A → B) : ActsAt k fun s => ((f s).1, g (f s).2) :=
  ⟨h.frame, fun s s' hs => ⟨congrArg g (h.congr s s' hs).1, (h.congr s s' hs).2⟩⟩

theorem put (v : V) (a : A) : ActsAt k fun s => (put k v s, a) :=
  ⟨fun _ _ hne => put_of_ne hne, fun _ _ _ =>
    ⟨rfl, put_self.trans put_self.symm⟩⟩

theorem putNew (v : V) : ActsAt k fun s => putNew k v s := by
  constructor
  · intro s k' hne
    cases hs : s k with
    | none =>
      rw [KeyValue.putNew, hs]
      exact put_of_ne hne
    | some w => rw [KeyValue.putNew, hs]
  · intro s s' hs
    unfold KeyValue.putNew
    rw [← hs]
    cases hv : s k with
    | none =>
      exact ⟨rfl, put_self.trans put_self.symm⟩
    | some w => exact ⟨rfl, hs⟩

theorem erase (g : Option V → A) : ActsAt k fun s => (erase k s, g (s k)) :=
  ⟨fun _ _ hne => erase_of_ne hne, fun _ _ hs =>
    ⟨congrArg g hs, erase_self.trans erase_self.symm⟩⟩

theorem compareAndErase [DecidableEq V] (v : V) : ActsAt k fun s => compareAndErase k v s := by
  constructor
  · intro s k' hne
    unfold KeyValue.compareAndErase
    split_ifs
    · exact erase_of_ne hne
    · rfl
  · intro s s' hs
    unfold KeyValue.compareAndErase
    rw [← hs]
    split_ifs
    · exact ⟨rfl, erase_self.trans erase_self.symm⟩
    · exact ⟨rfl, hs⟩

end ActsAt

/-- Operations with answers, each of which reads and writes its own key only. -/
structure Local {Op A : Type*} (key : Op → K) (exec : Op → Store K V → Store K V × A) : Prop where
  frame : ∀ op s k, k ≠ key op → (exec op s).1 k = s k
  congr : ∀ op s s', s (key op) = s' (key op) →
    (exec op s).2 = (exec op s').2 ∧ (exec op s).1 (key op) = (exec op s').1 (key op)

omit [DecidableEq K] in
theorem Local.of_actsAt {Op A : Type*} {key : Op → K} {exec : Op → Store K V → Store K V × A}
    (h : ∀ op, ActsAt (key op) (exec op)) : Local key exec :=
  ⟨fun op => (h op).frame, fun op => (h op).congr⟩

section Run

variable {Op A : Type*} (exec : Op → Store K V → Store K V × A)

/-- Run operations one after another: each with its answer. -/
def answers : List Op → Store K V → List (Op × A)
  | [], _ => []
  | op :: ops, s => (op, (exec op s).2) :: answers ops (exec op s).1

variable {exec} {key : Op → K}

/-- The answers on one key are those of the operations on it alone, from any store that agrees on
that key. -/
theorem Local.answers_filter (hlocal : Local key exec) (k : K) (ops : List Op) {s s' : Store K V}
    (hs : s k = s' k) :
    (answers exec ops s).filter (fun a => key a.1 = k) =
      answers exec (ops.filter fun op => key op = k) s' := by
  induction ops generalizing s s' with
  | nil => rfl
  | cons op ops ih =>
    rw [answers]
    by_cases hop : key op = k
    · subst hop
      obtain ⟨hanswer, hafter⟩ := hlocal.congr op s s' hs
      rw [List.filter_cons_of_pos (by simp), List.filter_cons_of_pos (by simp), answers, hanswer,
        ih hafter]
    · have hafter : (exec op s).1 k = s' k := (hlocal.frame op s k (Ne.symm hop)).trans hs
      rw [List.filter_cons_of_neg (by simpa using hop), List.filter_cons_of_neg (by simpa using hop),
        ih hafter]

end Run

end KeyValue
