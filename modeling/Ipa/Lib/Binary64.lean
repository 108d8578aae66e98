import Mathlib.Algebra.Order.Field.Power
import Mathlib.Data.Int.Log
import Mathlib.Data.Rat.Floor
import Mathlib.Tactic.FieldSimp
import Mathlib.Tactic.Linarith
import Mathlib.Tactic.NormNum
import Mathlib.Tactic.Positivity
import Mathlib.Tactic.Ring

/-!
# Binary floating point numbers of 53 places

A `Double` is a rational number that rounding to 53 binary places leaves as it is.  Its operations round
the exact result to the nearest such number, and of two to the one whose last place is even.  Exponents
have no bounds: no number here comes near those of the format.

* `nearest_mul_zpow`: what has 53 places stays as it is.
* `abs_nearest_sub_le`: rounding changes a number by one part in `2 ^ 53` at most.
* `sum_bounds`: so a sum of `n` terms is off by `n` such parts of its terms at most.
-/

namespace Binary64

/-! ## Rounding to an integer -/

/-- The nearest integer, the even one of two. -/
def roundEven (x : ℚ) : ℤ :=
  if x - ⌊x⌋ < 1 / 2 ∨ x - ⌊x⌋ = 1 / 2 ∧ Even ⌊x⌋ then ⌊x⌋ else ⌊x⌋ + 1

theorem abs_roundEven_sub_le (x : ℚ) : |roundEven x - x| ≤ 1 / 2 := by
  have hle := Int.floor_le x
  have hlt := Int.lt_floor_add_one x
  unfold roundEven
  rw [abs_le]
  split_ifs with h
  · have hhalf : x - ⌊x⌋ ≤ 1 / 2 := h.elim le_of_lt fun h => h.1.le
    constructor <;> linarith
  · have hhalf : 1 / 2 ≤ x - ⌊x⌋ := not_lt.1 fun hlt => h (.inl hlt)
    push_cast
    constructor <;> linarith

theorem floor_le_roundEven (x : ℚ) : ⌊x⌋ ≤ roundEven x ∧ roundEven x ≤ ⌊x⌋ + 1 := by
  unfold roundEven
  split_ifs <;> omega

/-- An integer bound on the absolute value is kept. -/
theorem abs_roundEven_le {x : ℚ} {n : ℤ} (h : |x| < n) : |roundEven x| ≤ n := by
  obtain ⟨hlow, hhigh⟩ := abs_lt.1 h
  obtain ⟨hfloor, hnext⟩ := floor_le_roundEven x
  have hge : -n ≤ ⌊x⌋ := Int.le_floor.2 (by push_cast; exact hlow.le)
  have hlt : ⌊x⌋ < n := Int.floor_lt.2 hhigh
  rw [abs_le]
  omega

@[simp]
theorem roundEven_intCast (n : ℤ) : roundEven n = n := by
  simp [roundEven]

@[simp]
theorem roundEven_zero : roundEven 0 = 0 := by
  simp [roundEven]

theorem roundEven_of_lt {x : ℚ} {n : ℤ} (h : |x - n| < 1 / 2) : roundEven x = n := by
  have hle := abs_roundEven_sub_le x
  have hclose : |((roundEven x - n : ℤ) : ℚ)| < 1 := by
    push_cast
    calc |(roundEven x - n : ℚ)| = |roundEven x - x + (x - n)| := by rw [sub_add_sub_cancel]
      _ ≤ |roundEven x - x| + |x - n| := abs_add_le _ _
      _ < 1 := by linarith
  have hzero : |roundEven x - n| < 1 := by exact_mod_cast hclose
  have := Int.abs_lt_one_iff.1 hzero
  omega

/-- Of two nearest integers it is the even one. -/
theorem roundEven_of_even {x : ℚ} {n : ℤ} (h : |x - n| = 1 / 2) (heven : Even n) : roundEven x = n := by
  rcases (abs_eq (by norm_num)).1 h with hx | hx
  · have hfloor : ⌊x⌋ = n := Int.floor_eq_iff.2 ⟨by linarith, by linarith⟩
    rw [roundEven, hfloor, if_pos (.inr ⟨hx, heven⟩)]
  · have hfloor : ⌊x⌋ = n - 1 := Int.floor_eq_iff.2 ⟨by push_cast; linarith, by push_cast; linarith⟩
    have hodd : ¬ Even (n - 1) := by
      rw [Int.even_sub_one]
      exact not_not.2 heven
    rw [roundEven, hfloor, if_neg, sub_add_cancel]
    rintro (hlt | ⟨-, heven'⟩)
    · push_cast at hlt
      linarith
    · exact hodd heven'

/-! ## Rounding to 53 places -/

/-- The weight of the last of the 53 places of `q` is `2 ^ exponent q`. -/
def exponent (q : ℚ) : ℤ := Int.log 2 |q| - 52

/-- The number of 53 places that is nearest to `q`. -/
def nearest (q : ℚ) : ℚ := roundEven (q / 2 ^ exponent q) * 2 ^ exponent q

@[simp]
theorem nearest_zero : nearest 0 = 0 := by
  simp [nearest]

section Nearest

variable {q : ℚ} {m e : ℤ}

theorem two_zpow_le (hq : q ≠ 0) : (2 : ℚ) ^ (exponent q + 52) ≤ |q| := by
  have h := Int.zpow_log_le_self (R := ℚ) (b := 2) one_lt_two (abs_pos.2 hq)
  rw [exponent, sub_add_cancel]
  exact_mod_cast h

theorem lt_two_zpow (q : ℚ) : |q| < (2 : ℚ) ^ (exponent q + 53) := by
  have h := Int.lt_zpow_succ_log_self (R := ℚ) (b := 2) one_lt_two |q|
  have hexponent : exponent q + 53 = Int.log 2 |q| + 1 := by
    rw [exponent]
    ring
  rw [hexponent]
  exact_mod_cast h

/-- How a rounded number is found: its exponent and its nearest integer. -/
theorem nearest_eq (hlow : (2 : ℚ) ^ (e + 52) ≤ |q|) (hhigh : |q| < (2 : ℚ) ^ (e + 53))
    (hnear : |q / 2 ^ e - m| < 1 / 2 ∨ |q / 2 ^ e - m| = 1 / 2 ∧ Even m) : nearest q = m * 2 ^ e := by
  have hq : 0 < |q| := lt_of_lt_of_le (zpow_pos two_pos _) hlow
  have hlog : Int.log 2 |q| = e + 52 := by
    have hle : e + 52 ≤ Int.log 2 |q| :=
      (Int.zpow_le_iff_le_log (b := 2) one_lt_two hq).1 (by exact_mod_cast hlow)
    have hlt : Int.log 2 |q| < e + 53 :=
      (Int.lt_zpow_iff_log_lt (b := 2) one_lt_two hq).1 (by exact_mod_cast hhigh)
    omega
  have hround : roundEven (q / 2 ^ e) = m :=
    hnear.elim roundEven_of_lt fun h => roundEven_of_even h.1 h.2
  rw [nearest, exponent, hlog, add_sub_cancel_right, hround]

/-- A number whose last place is an integer is rounded to itself. -/
theorem nearest_of_div (h : q / 2 ^ exponent q = m) : nearest q = q := by
  have hpos : (2 : ℚ) ^ exponent q ≠ 0 := by positivity
  rw [nearest, h, roundEven_intCast, ← h, div_mul_cancel₀ q hpos]

/-- The last place is that of the exponent `e`, or the integer is `2 ^ 53` and has one place more. -/
theorem exponent_mul_zpow (hm : |m| ≤ 2 ^ 53) (hne : m ≠ 0) :
    exponent (m * 2 ^ e) ≤ e ∨ exponent (m * 2 ^ e) = e + 1 ∧ |m| = 2 ^ 53 := by
  have hpos : (0 : ℚ) < 2 ^ e := by positivity
  have hlow := two_zpow_le (q := m * 2 ^ e) (by positivity)
  rw [abs_mul, abs_of_pos hpos] at hlow
  have hbound : |(m : ℚ)| ≤ 2 ^ 53 := by exact_mod_cast hm
  have hle : (2 : ℚ) ^ (exponent (m * 2 ^ e) + 52) ≤ 2 ^ (53 + e) := by
    rw [zpow_add₀ two_ne_zero 53 e]
    exact hlow.trans (mul_le_mul_of_nonneg_right (by exact_mod_cast hm) hpos.le)
  have hexp : exponent (m * 2 ^ e) + 52 ≤ 53 + e := (zpow_le_zpow_iff_right₀ one_lt_two).1 hle
  by_cases hgt : exponent (m * 2 ^ e) ≤ e
  · exact .inl hgt
  · have heq : exponent (m * 2 ^ e) = e + 1 := by omega
    have hfull : (2 : ℚ) ^ 53 ≤ |(m : ℚ)| := by
      have hsum : (2 : ℚ) ^ (exponent (m * 2 ^ e) + 52) = 2 ^ 53 * 2 ^ e := by
        rw [heq, add_right_comm, add_assoc, zpow_add₀ two_ne_zero, mul_comm]
        norm_num
      rw [hsum] at hlow
      exact le_of_mul_le_mul_right hlow hpos
    exact .inr ⟨heq, le_antisymm hm (by exact_mod_cast hfull)⟩

/-- An integer of 53 places, at any exponent, is rounded to itself. -/
theorem nearest_mul_zpow (e : ℤ) (hm : |m| ≤ 2 ^ 53) : nearest (m * 2 ^ e) = m * 2 ^ e := by
  by_cases hne : m = 0
  · rw [hne, Int.cast_zero, zero_mul, nearest_zero]
  rcases exponent_mul_zpow (e := e) hm hne with hle | ⟨heq, habs⟩
  · obtain ⟨k, hk⟩ := Int.le.dest hle
    refine nearest_of_div (m := m * 2 ^ k) ?_
    have hexp : (2 : ℚ) ^ e = 2 ^ k * 2 ^ exponent (m * 2 ^ e) := by
      rw [← zpow_natCast, ← zpow_add₀ two_ne_zero, add_comm, hk]
    rw [div_eq_iff (by positivity)]
    push_cast
    rw [mul_assoc, ← hexp]
  · obtain ⟨n, rfl⟩ : ∃ n : ℤ, m = n * 2 := by
      rcases abs_eq (by norm_num : (0 : ℤ) ≤ 2 ^ 53) |>.1 habs with rfl | rfl
      · exact ⟨2 ^ 52, by norm_num⟩
      · exact ⟨-2 ^ 52, by norm_num⟩
    refine nearest_of_div (m := n) ?_
    rw [heq, zpow_add₀ two_ne_zero, zpow_one, div_eq_iff (by positivity)]
    push_cast
    ring

theorem nearest_nearest (q : ℚ) : nearest (nearest q) = nearest q := by
  refine nearest_mul_zpow _ (abs_roundEven_le ?_)
  rw [abs_div, abs_of_pos (by positivity : (0 : ℚ) < 2 ^ exponent q), div_lt_iff₀ (by positivity)]
  have hlt := lt_two_zpow q
  rw [add_comm, zpow_add₀ two_ne_zero] at hlt
  exact_mod_cast hlt

theorem nearest_natCast {n : ℕ} (h : n ≤ 2 ^ 53) : nearest n = n := by
  have hnearest := nearest_mul_zpow (m := n) 0 (by rw [Nat.abs_cast]; exact_mod_cast h)
  rwa [zpow_zero, mul_one, Int.cast_natCast] at hnearest

/-- Rounding changes a number by one part in `2 ^ 53` at most. -/
theorem abs_nearest_sub_le (q : ℚ) : |nearest q - q| ≤ |q| / 2 ^ 53 := by
  by_cases hq : q = 0
  · rw [hq, nearest_zero, sub_zero, abs_zero, zero_div]
  have hpos : (0 : ℚ) < 2 ^ exponent q := by positivity
  have hdiff : nearest q - q = (roundEven (q / 2 ^ exponent q) - q / 2 ^ exponent q) * 2 ^ exponent q := by
    rw [nearest, sub_mul, div_mul_cancel₀ q hpos.ne']
  have hlow := two_zpow_le hq
  rw [zpow_add₀ two_ne_zero] at hlow
  rw [hdiff, abs_mul, abs_of_pos hpos]
  calc |roundEven (q / 2 ^ exponent q) - q / 2 ^ exponent q| * 2 ^ exponent q
      ≤ 1 / 2 * 2 ^ exponent q := mul_le_mul_of_nonneg_right (abs_roundEven_sub_le _) hpos.le
    _ ≤ |q| / 2 ^ 53 := by
        rw [le_div_iff₀ (by positivity)]
        norm_num at hlow ⊢
        linarith

/-- The relative error of rounding. -/
def unit : ℚ := 1 / 2 ^ 53

theorem unit_pos : 0 < unit := by
  unfold unit
  positivity

theorem unit_lt_one : unit < 1 := by
  norm_num [unit]

theorem nearest_bounds (hq : 0 ≤ q) : (1 - unit) * q ≤ nearest q ∧ nearest q ≤ (1 + unit) * q := by
  have h := abs_nearest_sub_le q
  rw [abs_of_nonneg hq, abs_le] at h
  have hunit : q / 2 ^ 53 = unit * q := by
    unfold unit
    ring
  rw [hunit] at h
  constructor <;> linarith

end Nearest

end Binary64

/-! ## Doubles -/

open Binary64

/-- A number of 53 places. -/
@[ext]
structure Double where
  val : ℚ
  rounded : nearest val = val
deriving DecidableEq

namespace Double

/-- The nearest double. -/
def ofRat (q : ℚ) : Double := ⟨nearest q, nearest_nearest q⟩

instance : Zero Double := ⟨⟨0, nearest_zero⟩⟩

instance : One Double := ⟨ofRat 1⟩

instance : NatCast Double := ⟨fun n => ofRat n⟩

instance : Add Double := ⟨fun a b => ofRat (a.val + b.val)⟩

instance : Div Double := ⟨fun a b => ofRat (a.val / b.val)⟩

instance : LinearOrder Double := LinearOrder.lift' val fun _ _ => Double.ext

@[simp]
theorem val_zero : (0 : Double).val = 0 := rfl

@[simp]
theorem val_one : (1 : Double).val = 1 := by
  have h := nearest_natCast (n := 1) (by norm_num)
  rw [Nat.cast_one] at h
  exact h

theorem val_natCast (n : ℕ) : (n : Double).val = nearest n := rfl

theorem val_add (a b : Double) : (a + b).val = nearest (a.val + b.val) := rfl

theorem val_div (a b : Double) : (a / b).val = nearest (a.val / b.val) := rfl

theorem lt_iff {a b : Double} : a < b ↔ a.val < b.val := Iff.rfl

theorem plus_comm (a b : Double) : a + b = b + a := Double.ext (by rw [val_add, val_add, add_comm])

theorem zero_plus (a : Double) : 0 + a = a := Double.ext (by rw [val_add, val_zero, zero_add, a.rounded])

/-- The reciprocal of an integer, both of which are rounded. -/
theorem one_div_bounds {n : ℕ} (hn : 0 < n) :
    (1 - unit) / (1 + unit) * (1 / n) ≤ (1 / (n : Double)).val ∧
      (1 / (n : Double)).val ≤ (1 + unit) / (1 - unit) * (1 / n) := by
  have hu := unit_pos
  have hu' : 0 < 1 - unit := by
    have := unit_lt_one
    linarith
  have hpos : (0 : ℚ) < n := by exact_mod_cast hn
  obtain ⟨hlow, hhigh⟩ := nearest_bounds hpos.le
  have hnearest : 0 < nearest n := lt_of_lt_of_le (mul_pos hu' hpos) hlow
  obtain ⟨hlow', hhigh'⟩ := nearest_bounds (q := 1 / nearest n) (by positivity)
  rw [val_div, val_one, val_natCast]
  constructor
  · refine le_trans ?_ hlow'
    rw [div_mul_div_comm, mul_one, mul_one_div]
    gcongr
  · refine hhigh'.trans ?_
    rw [div_mul_div_comm, mul_one, mul_one_div]
    gcongr

section Sum

variable {A : Type*} {a b : ℚ}

theorem foldl_nonneg {l : List ℚ} (h : ∀ x ∈ l, 0 ≤ x) : 0 ≤ l.foldl (· + ·) 0 := by
  rw [← List.sum_eq_foldl]
  exact List.sum_nonneg h

/-- A sum of terms that are off by factors `a` and `b`: each addition adds a rounding. -/
theorem sum_bounds (t : A → Double) (x : A → ℚ) (ha : 0 ≤ a) (hb : 0 ≤ b) (l : List A)
    (h : ∀ i ∈ l, 0 ≤ x i ∧ a * x i ≤ (t i).val ∧ (t i).val ≤ b * x i) :
    a * (1 - unit) ^ l.length * (l.map x).foldl (· + ·) 0 ≤ ((l.map t).foldl (· + ·) 0).val ∧
      ((l.map t).foldl (· + ·) 0).val ≤ b * (1 + unit) ^ l.length * (l.map x).foldl (· + ·) 0 := by
  have hu := unit_pos
  have hu' : 0 ≤ 1 - unit := by
    have := unit_lt_one
    linarith
  induction l using List.reverseRecOn with
  | nil => simp
  | append_singleton l i ih =>
    obtain ⟨hlow, hhigh⟩ := ih fun j hj => h j (List.mem_append_left _ hj)
    obtain ⟨hx, hti, hti'⟩ := h i (List.mem_append_right _ (List.mem_singleton_self i))
    have hsum : 0 ≤ (l.map x).foldl (· + ·) 0 := by
      refine foldl_nonneg fun q hq => ?_
      obtain ⟨j, hj, rfl⟩ := List.mem_map.1 hq
      exact (h j (List.mem_append_left _ hj)).1
    have hpow₀ : 0 ≤ (1 - unit) ^ l.length := pow_nonneg hu' _
    have hpow : (1 - unit) ^ l.length ≤ 1 := pow_le_one₀ hu' (by linarith)
    have hpow' : 1 ≤ (1 + unit) ^ l.length := one_le_pow₀ (by linarith)
    simp only [List.map_append, List.map_singleton, List.foldl_append, List.foldl_cons, List.foldl_nil,
      List.length_append, List.length_singleton, val_add, pow_succ]
    generalize (l.map x).foldl (· + ·) 0 = sum at *
    generalize ((l.map t).foldl (· + ·) 0).val = total at *
    generalize (1 - unit) ^ l.length = low at *
    generalize (1 + unit) ^ l.length = high at *
    have hlow' : a * low * (sum + x i) ≤ total + (t i).val := by
      have hterm : a * low * x i ≤ a * x i := by
        rw [mul_assoc]
        exact mul_le_mul_of_nonneg_left (mul_le_of_le_one_left hx hpow) ha
      linarith
    have hhigh' : total + (t i).val ≤ b * high * (sum + x i) := by
      have hterm : b * x i ≤ b * high * x i := by
        rw [mul_assoc]
        exact mul_le_mul_of_nonneg_left (le_mul_of_one_le_left hx hpow') hb
      linarith
    have hnonneg : 0 ≤ total + (t i).val :=
      le_trans (mul_nonneg (mul_nonneg ha hpow₀) (add_nonneg hsum hx)) hlow'
    obtain ⟨hround, hround'⟩ := nearest_bounds hnonneg
    constructor
    · calc a * (low * (1 - unit)) * (sum + x i) = (1 - unit) * (a * low * (sum + x i)) := by ring
        _ ≤ (1 - unit) * (total + (t i).val) := mul_le_mul_of_nonneg_left hlow' hu'
        _ ≤ _ := hround
    · calc nearest (total + (t i).val) ≤ (1 + unit) * (total + (t i).val) := hround'
        _ ≤ (1 + unit) * (b * high * (sum + x i)) := mul_le_mul_of_nonneg_left hhigh' (by linarith)
        _ = _ := by ring

end Sum

end Double
