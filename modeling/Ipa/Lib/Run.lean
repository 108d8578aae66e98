import Mathlib.Data.List.Induction
import Mathlib.Tactic.Common

/-!
# Runs of a labelled transition system

A system is a relation `step s e s'`: in the state `s` the event `e` may happen and leads to `s'`.
`Run step init tr s` says that the events `tr`, oldest first, lead from `init` to `s`.  A claim about
every interleaving of some parties is a claim about every run of the system of their events.

* `Run.rec_inv`: an invariant of traces and states, shown by one step lemma.
* `Run.append_iff`: a run of `tr₁ ++ tr₂` is a run of `tr₁` followed by a run of `tr₂`.
* `Run.mono_inv`: what a step keeps is kept by every later part of a run.
* `Run.guard_iff`: the runs whose steps meet a condition are those whose steps have good outcomes.
* `Run.simulates`: a relation between two systems that every step keeps makes runs of one runs of the
  other.
-/

namespace Transition

/-- The events `tr` lead from `init` to the last argument. -/
inductive Run {S E : Type*} (step : S → E → S → Prop) (init : S) : List E → S → Prop
  | nil : Run step init [] init
  | snoc {tr : List E} {s s' : S} {e : E} :
      Run step init tr s → step s e s' → Run step init (tr ++ [e]) s'

namespace Run

variable {S E : Type*} {step : S → E → S → Prop} {init s s' : S} {e : E} {tr tr₁ tr₂ : List E}

theorem nil_iff : Run step init [] s ↔ s = init := by
  constructor
  · intro h
    generalize htr : ([] : List E) = tr at h
    cases h with
    | nil => rfl
    | snoc => simp at htr
  · rintro rfl
    exact nil

theorem snoc_iff : Run step init (tr ++ [e]) s' ↔ ∃ s, Run step init tr s ∧ step s e s' := by
  constructor
  · intro h
    generalize htr : tr ++ [e] = tr' at h
    cases h with
    | nil => simp at htr
    | snoc h he =>
      obtain ⟨rfl, he'⟩ := List.append_inj' htr rfl
      obtain rfl := List.singleton_inj.1 he'
      exact ⟨_, h, he⟩
  · rintro ⟨s, h, he⟩
    exact h.snoc he

theorem append_iff :
    Run step init (tr₁ ++ tr₂) s' ↔ ∃ s, Run step init tr₁ s ∧ Run step s tr₂ s' := by
  induction tr₂ using List.reverseRecOn generalizing s' with
  | nil => simp [nil_iff]
  | append_singleton tr₂ e ih =>
    rw [← List.append_assoc]
    simp only [snoc_iff, ih]
    constructor
    · rintro ⟨m, ⟨s, h₁, h₂⟩, he⟩
      exact ⟨s, h₁, m, h₂, he⟩
    · rintro ⟨s, h₁, m, h₂, he⟩
      exact ⟨m, ⟨s, h₁, h₂⟩, he⟩

theorem single (he : step s e s') : Run step s [e] s' := nil.snoc he

/-- Prepend a step to a run. -/
theorem cons (he : step s e s') {s''} (h : Run step s' tr s'') : Run step s (e :: tr) s'' :=
  append_iff.2 ⟨s', single he, h⟩

theorem cons_iff {s''} :
    Run step s (e :: tr) s'' ↔ ∃ s', step s e s' ∧ Run step s' tr s'' := by
  rw [← List.singleton_append, append_iff]
  constructor
  · rintro ⟨m, h₁, h₂⟩
    obtain ⟨a, ha, he⟩ := snoc_iff.1 (show Run step s ([] ++ [e]) m from h₁)
    obtain rfl := nil_iff.1 ha
    exact ⟨m, he, h₂⟩
  · rintro ⟨m, he, h₂⟩
    exact ⟨m, single he, h₂⟩

/-- An invariant of the trace so far and the state, kept by every step. -/
theorem rec_inv (Inv : List E → S → Prop) (h0 : Inv [] init)
    (hstep : ∀ tr s e s', Run step init tr s → Inv tr s → step s e s' → Inv (tr ++ [e]) s')
    (h : Run step init tr s) : Inv tr s := by
  induction h with
  | nil => exact h0
  | snoc h he ih => exact hstep _ _ _ _ h ih he

/-- An invariant of the state, kept by every step. -/
theorem state_inv (Inv : S → Prop) (h0 : Inv init)
    (hstep : ∀ s e s', Inv s → step s e s' → Inv s') (h : Run step init tr s) : Inv s :=
  h.rec_inv (fun _ s => Inv s) h0 fun _ s e s' _ => hstep s e s'

/-- A fact that every step of a kind keeps is kept by a run all of whose events are of that kind. -/
theorem mono_inv (Inv : S → Prop) (Kind : E → Prop) (h0 : Inv init)
    (hstep : ∀ s e s', Kind e → Inv s → step s e s' → Inv s') (h : Run step init tr s)
    (hk : ∀ e ∈ tr, Kind e) : Inv s := by
  induction h with
  | nil => exact h0
  | snoc _ he ih =>
    simp only [List.mem_append, List.mem_singleton] at hk
    exact hstep _ _ _ (hk _ (.inr rfl)) (ih fun e he => hk e (.inl he)) he

/-- A run of a system is a run of every system with more steps. -/
theorem mono {step' : S → E → S → Prop} (hsub : ∀ s e s', step s e s' → step' s e s')
    (h : Run step init tr s) : Run step' init tr s := by
  induction h with
  | nil => exact nil
  | snoc _ he ih => exact ih.snoc (hsub _ _ _ he)

/-- When a step from a good state meets a condition if and only if it has a good outcome, the runs
whose steps all meet the condition are the runs whose steps all have good outcomes. -/
theorem guard_iff (Inv : S → Prop) {Guard : S → E → Prop} {Good : E → S → Prop} (h0 : Inv init)
    (hstep : ∀ s e s', Inv s → step s e s' → (Guard s e ↔ Good e s') ∧ (Good e s' → Inv s')) :
    Run (fun s e s' => step s e s' ∧ Guard s e) init tr s ↔
      Run (fun s e s' => step s e s' ∧ Good e s') init tr s := by
  constructor
  · intro h
    refine (?_ : Inv s ∧ _).2
    induction h with
    | nil => exact ⟨h0, nil⟩
    | snoc _ he ih =>
      obtain ⟨hiff, hinv⟩ := hstep _ _ _ ih.1 he.1
      have hgood := hiff.1 he.2
      exact ⟨hinv hgood, ih.2.snoc ⟨he.1, hgood⟩⟩
  · intro h
    refine (?_ : Inv s ∧ _).2
    induction h with
    | nil => exact ⟨h0, nil⟩
    | snoc _ he ih =>
      obtain ⟨hiff, hinv⟩ := hstep _ _ _ ih.1 he.1
      exact ⟨hinv he.2, ih.2.snoc ⟨he.1, hiff.2 he.2⟩⟩

/-- A step of the one system is a step of the other, or leaves the related state as it is: then the
events that the other one sees lead there to a related state. -/
theorem simulates {S' E' : Type*} {step' : S' → E' → S' → Prop} {t : S'} (R : S → S' → Prop)
    (see : E → Option E') (h0 : R init t)
    (hstep : ∀ s e s' t, R s t → step s e s' →
      (see e).elim (R s' t) fun e' => ∃ t', step' t e' t' ∧ R s' t')
    (h : Run step init tr s) : ∃ t', Run step' t (tr.filterMap see) t' ∧ R s t' := by
  induction h with
  | nil => exact ⟨t, nil, h0⟩
  | @snoc tr s s' e h he ih =>
    obtain ⟨t', hrun, hrel⟩ := ih
    have hnext := hstep _ _ _ _ hrel he
    rw [List.filterMap_append]
    cases hsee : see e with
    | none =>
      rw [hsee] at hnext
      rw [List.filterMap_cons_none hsee, List.filterMap_nil, List.append_nil]
      exact ⟨t', hrun, hnext⟩
    | some e' =>
      rw [hsee] at hnext
      obtain ⟨t'', ht, hrel'⟩ := hnext
      rw [List.filterMap_cons_some hsee, List.filterMap_nil]
      exact ⟨t'', hrun.snoc ht, hrel'⟩

/-- Every event of a run happens in a state that some prefix of the run reaches. -/
theorem exists_step_of_mem (h : Run step init tr s) (he : e ∈ tr) :
    ∃ tr₁ tr₂ m m', tr = tr₁ ++ e :: tr₂ ∧ Run step init tr₁ m ∧ step m e m' ∧ Run step m' tr₂ s := by
  obtain ⟨tr₁, tr₂, rfl⟩ := List.append_of_mem he
  obtain ⟨m, h₁, h₂⟩ := append_iff.1 h
  obtain ⟨m', hs, h₃⟩ := cons_iff.1 h₂
  exact ⟨tr₁, tr₂, m, m', rfl, h₁, hs, h₃⟩

end Run

end Transition
