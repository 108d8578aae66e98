import Mathlib.Data.Int.Basic
import Mathlib.Tactic.Common

/-!
# Reading texts back

A text made of parts is read back from the left, up to a separator that the part before it does not
have (`append_sep_inj`).  Numbers are read back from their decimal digits, also when these are
padded with zeros (`zeroPadded_inj`): the zeros do not change the value, and no digit is a sign.
-/

namespace Text

/-- What stands before and after the first separator. -/
theorem append_sep_inj {α : Type*} {sep : α} {l l' r r' : List α} (hl : sep ∉ l) (hl' : sep ∉ l')
    (h : l ++ sep :: r = l' ++ sep :: r') : l = l' ∧ r = r' := by
  induction l generalizing l' with
  | nil =>
    cases l' with
    | nil => exact ⟨rfl, (List.cons.inj h).2⟩
    | cons c l' =>
      obtain rfl : sep = c := (List.cons.inj h).1
      exact absurd List.mem_cons_self hl'
  | cons c l ih =>
    cases l' with
    | nil =>
      obtain rfl : c = sep := (List.cons.inj h).1
      exact absurd List.mem_cons_self hl
    | cons c' l' =>
      obtain ⟨rfl, htail⟩ := List.cons.inj h
      obtain ⟨rfl, hr⟩ := ih (fun hm => hl (List.mem_cons_of_mem c hm))
        (fun hm => hl' (List.mem_cons_of_mem c hm)) htail
      exact ⟨rfl, hr⟩

/-- A text is read back from its first characters, a separator and the whole of it. -/
theorem take_append_self_inj {α : Type*} {sep : α} {n : ℕ} {l l' : List α}
    (h : l.take n ++ sep :: l = l'.take n ++ sep :: l') : l = l' := by
  have hlength := congrArg List.length h
  simp only [List.length_append, List.length_take, List.length_cons] at hlength
  have hsame : (sep :: l).length = (sep :: l').length := by
    simp only [List.length_cons]
    omega
  exact (List.cons.inj (List.append_inj_right' h hsame)).2

/-! ## Numbers -/

theorem toString_nat_inj {m n : ℕ} (h : toString m = toString n) : m = n := by
  have hdigits : Nat.toDigits 10 m = Nat.toDigits 10 n := by
    rw [← Nat.toList_repr, ← Nat.toList_repr]
    exact congrArg String.toList h
  rw [← Nat.ofDigitChars_ten_toDigits (n := m), hdigits, Nat.ofDigitChars_ten_toDigits]

/-- A sign is no digit. -/
theorem minus_notMem_toDigits (m : ℕ) : '-' ∉ Nat.toDigits 10 m := by
  intro hmem
  exact absurd (Nat.isDigit_of_mem_toDigits (by decide) (by decide) hmem) (by decide)

theorem toString_nat_ne_minus (m : ℕ) (s : String) : toString m ≠ "-" ++ s := by
  intro h
  have hlist : Nat.toDigits 10 m = '-' :: s.toList := by
    rw [← Nat.toList_repr]
    exact (congrArg String.toList h).trans (String.toList_append ..)
  exact minus_notMem_toDigits m (hlist ▸ List.mem_cons_self)

theorem toString_int_inj {a b : ℤ} (h : toString a = toString b) : a = b := by
  cases a with
  | ofNat m =>
    cases b with
    | ofNat n => exact congrArg Int.ofNat (toString_nat_inj h)
    | negSucc n => exact absurd h (toString_nat_ne_minus m _)
  | negSucc m =>
    cases b with
    | ofNat n => exact absurd h.symm (toString_nat_ne_minus n _)
    | negSucc n =>
      have hdigits := congrArg String.toList h
      have htail : (toString (m + 1)).toList = (toString (n + 1)).toList := by
        have hm : (toString (Int.negSucc m)).toList = '-' :: (toString (m + 1)).toList :=
          String.toList_append ..
        have hn : (toString (Int.negSucc n)).toList = '-' :: (toString (n + 1)).toList :=
          String.toList_append ..
        rw [hm, hn] at hdigits
        exact (List.cons.inj hdigits).2
      exact congrArg Int.negSucc (Nat.succ.inj (toString_nat_inj (String.toList_inj.1 htail)))

/-! ### Padding with zeros -/

/-- The sign of a number and its decimal digits, with zeros between them where the two have fewer
than `width` characters: the format `0{width}d`. -/
def zeroPadded (width : ℕ) (n : ℤ) : String :=
  let sign := if n < 0 then ['-'] else []
  String.ofList (sign ++ (Nat.toDigits 10 n.natAbs).leftpad (width - sign.length) '0')

/-- Leading zeros do not change the value of digits. -/
theorem ofDigitChars_leftpad (width m : ℕ) :
    Nat.ofDigitChars 10 ((Nat.toDigits 10 m).leftpad width '0') 0 = m := by
  rw [List.leftpad, Nat.ofDigitChars_append, Nat.ofDigitChars_replicate_zero, Nat.mul_zero,
    Nat.ofDigitChars_ten_toDigits]

theorem leftpad_inj {width m n : ℕ}
    (h : (Nat.toDigits 10 m).leftpad width '0' = (Nat.toDigits 10 n).leftpad width '0') : m = n := by
  rw [← ofDigitChars_leftpad width m, h, ofDigitChars_leftpad]

theorem leftpad_ne_minus (width m : ℕ) (l : List Char) :
    (Nat.toDigits 10 m).leftpad width '0' ≠ '-' :: l := by
  intro h
  have hmem : '-' ∈ (Nat.toDigits 10 m).leftpad width '0' := h ▸ List.mem_cons_self
  rw [List.leftpad, List.mem_append] at hmem
  rcases hmem with hzero | hdigit
  · exact absurd (List.eq_of_mem_replicate hzero) (by decide)
  · exact minus_notMem_toDigits m hdigit

/-- A number is read back from its padded digits, however many it has. -/
theorem zeroPadded_inj {width : ℕ} {a b : ℤ} (h : zeroPadded width a = zeroPadded width b) :
    a = b := by
  have hchars := String.ofList_injective h
  by_cases ha : a < 0 <;> by_cases hb : b < 0
  · rw [if_pos ha, if_pos hb] at hchars
    have habs : a.natAbs = b.natAbs := leftpad_inj (List.cons.inj hchars).2
    omega
  · rw [if_pos ha, if_neg hb] at hchars
    exact absurd hchars.symm (leftpad_ne_minus _ _ _)
  · rw [if_neg ha, if_pos hb] at hchars
    exact absurd hchars (leftpad_ne_minus _ _ _)
  · rw [if_neg ha, if_neg hb] at hchars
    have habs : a.natAbs = b.natAbs := leftpad_inj hchars
    omega

example : zeroPadded 5 7 = "00007" ∧ zeroPadded 5 (-7) = "-0007" ∧ zeroPadded 5 123456 = "123456" := by
  decide

end Text
