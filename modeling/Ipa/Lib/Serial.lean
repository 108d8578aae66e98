import Mathlib.Data.List.Basic
import Mathlib.Tactic.Common

/-!
# Serial orders

`serial apply init order` is the state that transactions leave one after another.  A transaction that
changes nothing in some state on the way (`Passes`) can be put into the order there
(`Passes.exists_insert`): the final state stays and no state on the way is lost.
-/

namespace Serial

variable {S T : Type*} (apply : T → S → S) {init v w : S} {order : List T} {t : T}

/-- The state after the transactions of `order`, oldest first. -/
def serial (init : S) (order : List T) : S := order.foldl (fun s t => apply t s) init

/-- Some first part of the order leaves the state `v`. -/
def Passes (init : S) (order : List T) (v : S) : Prop :=
  ∃ before later, order = before ++ later ∧ serial apply init before = v

variable {apply}

theorem serial_append (init : S) (order order' : List T) :
    serial apply init (order ++ order') = serial apply (serial apply init order) order' :=
  List.foldl_append

theorem serial_cons (init : S) (t : T) (order : List T) :
    serial apply init (t :: order) = serial apply (apply t init) order := rfl

theorem passes_last : Passes apply init order (serial apply init order) :=
  ⟨order, [], (List.append_nil order).symm, rfl⟩

theorem Passes.append (h : Passes apply init order v) (order' : List T) :
    Passes apply init (order ++ order') v := by
  obtain ⟨before, later, rfl, hv⟩ := h
  exact ⟨before, later ++ order', List.append_assoc .., hv⟩

/-- A transaction that changes nothing in a state on the way is put in there. -/
theorem Passes.exists_insert (h : Passes apply init order v) (ht : apply t v = v) :
    ∃ order', order'.Perm (order ++ [t]) ∧ serial apply init order' = serial apply init order ∧
      ∀ w, Passes apply init order w → Passes apply init order' w := by
  obtain ⟨before, later, rfl, hv⟩ := h
  have hsame : serial apply init (before ++ [t]) = serial apply init before := by
    rw [serial_append, hv, serial_cons, ht]
    rfl
  have hkeep : ∀ rest, serial apply init (before ++ t :: rest) = serial apply init (before ++ rest) := by
    intro rest
    rw [← List.singleton_append, ← List.append_assoc, serial_append, hsame, ← serial_append]
  refine ⟨before ++ t :: later, ?_, hkeep later, ?_⟩
  · rw [List.append_assoc]
    apply List.Perm.append_left
    exact (List.perm_append_singleton t later).symm
  · rintro w ⟨before', later', hsplit, hw⟩
    -- the state `w` is passed before the place of `t` or after it
    rcases List.append_eq_append_iff.1 hsplit with ⟨mid, rfl, rfl⟩ | ⟨mid, rfl, rfl⟩
    · refine ⟨before ++ t :: mid, later', by simp, ?_⟩
      rw [hkeep, hw]
    · refine ⟨before', mid ++ t :: later, by simp, hw⟩

end Serial
