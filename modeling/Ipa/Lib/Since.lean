import Mathlib.Data.List.DropRight
import Mathlib.Data.List.Induction

/-!
# What a log says since its last reset

`since reset value log` are the values of the entries after the last one that resets.

* `since_snoc`: what one more entry does.
* `since_append_cons`: the entries before a reset do not matter.
-/

namespace Listing

variable {E A : Type*} (reset : E → Bool) (value : E → Option A)

/-- The values of the entries after the last reset, oldest first. -/
def since (log : List E) : List A := (log.rtakeWhile fun e => !reset e).filterMap value

variable {reset value} {log log' : List E} {e : E} {a : A}

@[simp]
theorem since_nil : since reset value [] = [] := rfl

theorem since_snoc (log : List E) (e : E) :
    since reset value (log ++ [e]) = if reset e then [] else since reset value log ++ (value e).toList := by
  rw [since, List.rtakeWhile_concat, since]
  cases hreset : reset e with
  | true => simp
  | false => cases hvalue : value e <;> simp [hvalue]

theorem since_snoc_of_reset (log : List E) (h : reset e) : since reset value (log ++ [e]) = [] := by
  rw [since_snoc, if_pos h]

theorem since_snoc_of_none (log : List E) (h : reset e = false) (hvalue : value e = none) :
    since reset value (log ++ [e]) = since reset value log := by
  rw [since_snoc, h, if_neg Bool.false_ne_true, hvalue, Option.toList_none, List.append_nil]

theorem since_snoc_of_some (log : List E) (h : reset e = false) (hvalue : value e = some a) :
    since reset value (log ++ [e]) = since reset value log ++ [a] := by
  rw [since_snoc, h, if_neg Bool.false_ne_true, hvalue, Option.toList_some]

theorem since_append_cons (log log' : List E) (h : reset e) :
    since reset value (log ++ e :: log') = since reset value log' := by
  induction log' using List.reverseRecOn with
  | nil => exact since_snoc_of_reset log h
  | append_singleton log' e' ih =>
    rw [← List.cons_append, ← List.append_assoc, since_snoc, since_snoc, ih]

theorem exists_of_mem_since (h : a ∈ since reset value log) : ∃ e ∈ log, value e = some a := by
  obtain ⟨e, he, hvalue⟩ := List.mem_filterMap.1 h
  exact ⟨e, List.rtakeWhile_suffix _ _ |>.mem he, hvalue⟩

end Listing
