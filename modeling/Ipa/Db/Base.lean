import Ipa.Core.Basic
import Mathlib.Algebra.Order.Ring.Rat
import Mathlib.Tactic.Linarith
import Mathlib.Tactic.Positivity

/-!
# Shared database definitions

The errors that a statement raises, the ranges of the `integer` and `real` types, the rounding of the
`numeric` type and the reading of a result that has at most one row.
-/

namespace Ipa

/-- Errors of the database driver and of the session. -/
inductive DbError
  | foreignKeyViolation
  | uniqueViolation
  | notNullViolation
  | cardinalityViolation
  | integerOutOfRange
  | numericOutOfRange
  | dimensionMismatch
  | multipleResultsFound
  | characterNotInRepertoire
  | programLimitExceeded
  | tooManyArguments
deriving DecidableEq, Repr

/-- `n` fits the four-byte `integer` type. -/
def IsInt4 (n : ℤ) : Prop := -2 ^ 31 ≤ n ∧ n ≤ 2 ^ 31 - 1

instance (n : ℤ) : Decidable (IsInt4 n) := inferInstanceAs (Decidable (_ ∧ _))

/-- `x` is rounded to a finite four-byte floating point number. -/
def IsFloat4 (x : ℚ) : Prop := |x| < 2 ^ 128 - 2 ^ 103

theorem isFloat4_iff {x : ℚ} : IsFloat4 x ↔ x.num.natAbs < (2 ^ 128 - 2 ^ 103) * x.den := by
  have hden : (0 : ℚ) < x.den := Nat.cast_pos.2 x.den_pos
  have habs : |x| = (x.num.natAbs : ℚ) / x.den := by
    nth_rewrite 1 [← Rat.num_div_den x]
    rw [abs_div, Nat.abs_cast, Nat.cast_natAbs, Int.cast_abs]
  rw [IsFloat4, habs, div_lt_iff₀ hden, ← Nat.cast_lt (α := ℚ)]
  norm_num

instance (x : ℚ) : Decidable (IsFloat4 x) :=
  decidable_of_iff (x.num.natAbs < (2 ^ 128 - 2 ^ 103) * x.den) isFloat4_iff.symm

/-- The text has a character that no column of the server takes. -/
def hasNul (text : String) : Bool := text.toList.contains (Char.ofNat 0)

/-- The nearest number with `scale` decimal digits, ties going up. -/
def roundHalfUp (scale : ℕ) (x : ℚ) : ℚ := (x * 10 ^ scale + 1 / 2).floor / 10 ^ scale

/-- What a `numeric` column with `scale` decimal digits keeps of a value: ties go away from zero. -/
def roundNumeric (scale : ℕ) (x : ℚ) : ℚ :=
  if 0 ≤ x then roundHalfUp scale x else -roundHalfUp scale (-x)

theorem floor_add_half (m : ℤ) : ((m : ℚ) + 1 / 2).floor = m := by
  apply Int.le_antisymm
  · have hlt : ((m : ℚ) + 1 / 2).floor < m + 1 := by
      rw [Rat.floor_lt_iff]
      push_cast
      linarith
    omega
  · rw [Rat.le_floor_iff]
    linarith

/-- A multiple of the last digit is not rounded. -/
theorem roundNumeric_intCast_div (scale : ℕ) (m : ℤ) :
    roundNumeric scale ((m : ℚ) / 10 ^ scale) = m / 10 ^ scale := by
  have hpow : (10 : ℚ) ^ scale ≠ 0 := by positivity
  have hup : ∀ n : ℤ, roundHalfUp scale ((n : ℚ) / 10 ^ scale) = n / 10 ^ scale := by
    intro n
    rw [roundHalfUp, div_mul_cancel₀ _ hpow, floor_add_half]
  unfold roundNumeric
  split_ifs
  · exact hup m
  · have hneg := hup (-m)
    rw [Int.cast_neg, neg_div] at hneg
    rw [hneg, neg_neg]

/-- What a column keeps of a value, it keeps unchanged. -/
theorem roundNumeric_idem (scale : ℕ) (x : ℚ) :
    roundNumeric scale (roundNumeric scale x) = roundNumeric scale x := by
  obtain ⟨m, hm⟩ : ∃ m : ℤ, roundNumeric scale x = m / 10 ^ scale := by
    unfold roundNumeric
    split_ifs
    · exact ⟨_, rfl⟩
    · exact ⟨-(-x * 10 ^ scale + 1 / 2).floor, by rw [roundHalfUp, Int.cast_neg, neg_div]⟩
  rw [hm, roundNumeric_intCast_div]

/-! ### Order -/

theorem floor_mono {x y : ℚ} (h : x ≤ y) : x.floor ≤ y.floor := by
  rw [Rat.le_floor_iff]
  exact (Rat.floor_le x).trans h

theorem roundHalfUp_mono (scale : ℕ) : Monotone (roundHalfUp scale) := by
  intro x y h
  have hpow : (0 : ℚ) < 10 ^ scale := by positivity
  have hscaled : x * 10 ^ scale + 1 / 2 ≤ y * 10 ^ scale + 1 / 2 := by
    have := mul_le_mul_of_nonneg_right h hpow.le
    linarith
  exact div_le_div_of_nonneg_right (Int.cast_le.2 (floor_mono hscaled)) hpow.le

theorem roundHalfUp_zero (scale : ℕ) : roundHalfUp scale 0 = 0 := by
  have h := floor_add_half 0
  rw [Int.cast_zero] at h
  rw [roundHalfUp, zero_mul, h, Int.cast_zero, zero_div]

/-- Rounding keeps the order of two numbers. -/
theorem roundNumeric_mono (scale : ℕ) : Monotone (roundNumeric scale) := by
  intro x y h
  have hnonneg : ∀ z : ℚ, 0 ≤ z → 0 ≤ roundHalfUp scale z := by
    intro z hz
    have := roundHalfUp_mono scale hz
    rwa [roundHalfUp_zero] at this
  unfold roundNumeric
  split_ifs with hx hy hy
  · exact roundHalfUp_mono scale h
  · linarith
  · have hneg := hnonneg (-x) (by linarith)
    have hpos := hnonneg y hy
    linarith
  · exact neg_le_neg (roundHalfUp_mono scale (neg_le_neg h))

/-- What a column keeps of a number between zero and one is between zero and one. -/
theorem roundNumeric_mem_unit (scale : ℕ) {x : ℚ} (h : 0 ≤ x ∧ x ≤ 1) :
    0 ≤ roundNumeric scale x ∧ roundNumeric scale x ≤ 1 := by
  have hzero := roundNumeric_intCast_div scale 0
  have hone := roundNumeric_intCast_div scale (10 ^ scale)
  rw [Int.cast_zero, zero_div] at hzero
  rw [Int.cast_pow, Int.cast_ofNat, div_self (by positivity)] at hone
  exact ⟨hzero ▸ roundNumeric_mono scale h.1, hone ▸ roundNumeric_mono scale h.2⟩

/-- Two rounded numbers compare as the numbers do, unless they have become equal. -/
theorem roundNumeric_le_iff (scale : ℕ) (x y : ℚ) :
    roundNumeric scale x ≤ roundNumeric scale y ↔ x ≤ y ∨ roundNumeric scale x = roundNumeric scale y := by
  constructor
  · intro h
    rcases le_total x y with hle | hge
    · exact .inl hle
    · exact .inr (h.antisymm (roundNumeric_mono scale hge))
  · rintro (hle | heq)
    · exact roundNumeric_mono scale hle
    · exact heq.le

/-- What `citext` compares of a text without letters other than `A` to `Z` and `a` to `z`. -/
def lowerText (text : String) : String := String.ofList (text.toList.map Char.toLower)

/-- `scalars().one_or_none()`. -/
def oneOrNone {R : Type*} : List R → Except DbError (Option R)
  | [] => .ok none
  | [r] => .ok (some r)
  | _ :: _ :: _ => .error .multipleResultsFound

@[simp]
theorem oneOrNone_toList {R : Type*} (row : Option R) : oneOrNone row.toList = .ok row := by
  cases row <;> rfl

end Ipa
