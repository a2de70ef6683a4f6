import Mathlib.Data.Int.Log
import Mathlib.Data.Rat.Floor
import Mathlib.Algebra.Order.Field.Power
import Mathlib.Tactic.Positivity
import Mathlib.Tactic.Linarith
import Mathlib.Tactic.Ring
import Mathlib.Tactic.FieldSimp

/-!
# IEEE-754 binary64 values

A double is a not-a-number, one of the two infinities, or a rational number.
The two zeros are one value here: no operation below tells them apart.
Arithmetic is the exact rational operation followed by rounding to nearest,
ties to even, with the usual exponent range.

What verification needs of it is that rounding does nothing on numbers that
have a 53-bit significand, so that sums, differences and comparisons of small
integers are exact.
-/

namespace CJson

/-- The values of the type `f64`: rationals, two infinities, and one value for all
that is not a number.  Zero has no sign here. -/
inductive Binary64 where
  | nan
  | infinite (negative : Bool)
  | finite (value : ℚ)
  deriving DecidableEq

namespace Binary64

/-- The nearest integer, the even one of two equally near. -/
def roundEven (value : ℚ) : Int :=
  let rest := value - ⌊value⌋
  if rest < 1 / 2 then ⌊value⌋
  else if 1 / 2 < rest then ⌊value⌋ + 1
  else if ⌊value⌋ % 2 = 0 then ⌊value⌋ else ⌊value⌋ + 1

@[simp] theorem roundEven_intCast (value : Int) : roundEven (value : ℚ) = value := by
  simp [roundEven]

/-- The exponent of the last significand bit of a number of this size. -/
def exponent (value : ℚ) : Int :=
  max (Int.log 2 |value| - 52) (-1074)

/-- Round an exact result to the nearest double. -/
def round (value : ℚ) : Binary64 :=
  let unit : ℚ := (2 : ℚ) ^ exponent value
  let rounded := roundEven (value / unit) * unit
  if (2 : ℚ) ^ (1024 : Int) ≤ |rounded| then .infinite (decide (value < 0)) else .finite rounded

/-- Conversion from an integer type of at most 53 bits. -/
def ofInt (value : Int) : Binary64 := .finite value

/-- `f64::abs`. -/
def abs : Binary64 -> Binary64
  | nan => nan
  | infinite _ => infinite false
  | finite value => finite |value|

/-- Subtraction. -/
def sub : Binary64 -> Binary64 -> Binary64
  | nan, _ => nan
  | _, nan => nan
  | infinite left, infinite right => if left = right then nan else infinite left
  | infinite left, finite _ => infinite left
  | finite _, infinite right => infinite (!right)
  | finite left, finite right => round (left - right)

/-- Multiplication by a positive constant. -/
def scale (factor : ℚ) : Binary64 -> Binary64
  | nan => nan
  | infinite negative => infinite negative
  | finite value => round (value * factor)

/-- `a < b`, false as soon as one side is not a number. -/
def lt : Binary64 -> Binary64 -> Bool
  | nan, _ => false
  | _, nan => false
  | infinite left, infinite right => left && !right
  | infinite left, finite _ => left
  | finite _, infinite right => !right
  | finite left, finite right => decide (left < right)

/-- `a <= b`, false as soon as one side is not a number. -/
def le : Binary64 -> Binary64 -> Bool
  | nan, _ => false
  | _, nan => false
  | infinite left, infinite right => left || !right
  | infinite left, finite _ => left
  | finite _, infinite right => !right
  | finite left, finite right => decide (left ≤ right)

theorem round_zero : round 0 = .finite 0 := by
  simp [round, roundEven]

private theorem exponent_le {factor power : Int} (nonzero : factor ≠ 0) (small : |factor| < 2 ^ 53)
    (low : -1074 ≤ power) : exponent ((factor : ℚ) * 2 ^ power) ≤ power := by
  have positive : (0 : ℚ) < |(factor : ℚ) * 2 ^ power| := by
    have factorNe : (factor : ℚ) ≠ 0 := Int.cast_ne_zero.mpr nonzero
    positivity
  have bound : |(factor : ℚ) * 2 ^ power| < ((2 : Nat) : ℚ) ^ (power + 53) := by
    have factorBound : |(factor : ℚ)| < 2 ^ (53 : Int) := by
      have cast : ((|factor| : Int) : ℚ) < ((2 ^ 53 : Int) : ℚ) := Int.cast_lt.mpr small
      rw [Int.cast_abs] at cast
      exact_mod_cast cast
    have unitPositive : (0 : ℚ) < 2 ^ power := by positivity
    rw [abs_mul, abs_of_pos unitPositive, Nat.cast_two, zpow_add₀ (by norm_num), mul_comm]
    exact mul_lt_mul_of_pos_left factorBound unitPositive
  have logBound := (Int.lt_zpow_iff_log_lt one_lt_two positive).mp bound
  exact max_le (by omega) low

private theorem abs_lt_overflow {factor power : Int} (small : |factor| < 2 ^ 53)
    (high : power ≤ 970) : |(factor : ℚ) * 2 ^ power| < 2 ^ (1024 : Int) := by
  have factorBound : |(factor : ℚ)| < 2 ^ (53 : Int) := by
    have cast : ((|factor| : Int) : ℚ) < ((2 ^ 53 : Int) : ℚ) := Int.cast_lt.mpr small
    rw [Int.cast_abs] at cast
    exact_mod_cast cast
  have unitPositive : (0 : ℚ) < 2 ^ power := by positivity
  calc |(factor : ℚ) * 2 ^ power| = |(factor : ℚ)| * 2 ^ power := by
        rw [abs_mul, abs_of_pos unitPositive]
    _ < 2 ^ (53 : Int) * 2 ^ power := mul_lt_mul_of_pos_right factorBound unitPositive
    _ = 2 ^ (53 + power) := (zpow_add₀ (by norm_num) _ _).symm
    _ ≤ 2 ^ (1024 : Int) := zpow_le_zpow_right₀ (by norm_num) (by omega)

/-- The cast to a signed integer type with these bounds: toward zero, saturating,
and 0 for not-a-number. -/
def toInt (low high : Int) : Binary64 -> Int
  | nan => 0
  | infinite negative => if negative then low else high
  | finite value => max low (min high (if value < 0 then ⌈value⌉ else ⌊value⌋))

theorem toInt_bounds {low high : Int} (bottom : low ≤ 0) (top : 0 ≤ high) (number : Binary64) :
    low ≤ number.toInt low high ∧ number.toInt low high ≤ high := by
  cases number with
  | nan => exact ⟨bottom, top⟩
  | infinite negative =>
      cases negative with
      | false => exact ⟨bottom.trans top, le_refl _⟩
      | true => exact ⟨le_refl _, bottom.trans top⟩
  | finite value => exact ⟨le_max_left _ _, max_le (bottom.trans top) (min_le_left _ _)⟩

theorem toInt_ofInt {low high value : Int} (lower : low ≤ value) (upper : value ≤ high) :
    toInt low high (ofInt value) = value := by
  simp only [toInt, ofInt, Int.ceil_intCast, Int.floor_intCast, ite_self]
  omega

/-- Rounding is the identity on integer multiples of a power of two with a
53-bit factor, away from both ends of the exponent range. -/
theorem round_of_representable {factor power : Int} (small : |factor| < 2 ^ 53)
    (low : -1074 ≤ power) (high : power ≤ 970) :
    round ((factor : ℚ) * 2 ^ power) = .finite ((factor : ℚ) * 2 ^ power) := by
  by_cases zero : factor = 0
  · subst zero
    simpa using round_zero
  · obtain ⟨shift, shiftEq⟩ := Int.le.dest (exponent_le zero small low)
    have quotient : (factor : ℚ) * 2 ^ power / 2 ^ exponent ((factor : ℚ) * 2 ^ power) =
        ((factor * 2 ^ shift : Int) : ℚ) := by
      have split : (2 : ℚ) ^ power = 2 ^ exponent ((factor : ℚ) * 2 ^ power) * 2 ^ shift := by
        conv_lhs => rw [← shiftEq]
        rw [zpow_add₀ (by norm_num), zpow_natCast]
      rw [div_eq_iff (by positivity)]
      conv_lhs => rw [split]
      push_cast
      ring
    have rounded : (roundEven ((factor : ℚ) * 2 ^ power /
        2 ^ exponent ((factor : ℚ) * 2 ^ power)) : ℚ) *
          2 ^ exponent ((factor : ℚ) * 2 ^ power) = (factor : ℚ) * 2 ^ power := by
      rw [quotient, roundEven_intCast, ← quotient, div_mul_cancel₀]
      positivity
    simp only [round]
    rw [rounded, if_neg (not_le.mpr (abs_lt_overflow small high))]

theorem round_intCast {value : Int} (small : |value| < 2 ^ 53) :
    round (value : ℚ) = .finite value := by
  simpa using @round_of_representable value 0 small (by omega) (by omega)

/-- Differences of small integers are exact. -/
theorem sub_ofInt {left right : Int} (leftSmall : |left| < 2 ^ 52) (rightSmall : |right| < 2 ^ 52) :
    sub (ofInt left) (ofInt right) = ofInt (left - right) := by
  have small : |left - right| < 2 ^ 53 := by
    have := abs_sub left right
    omega
  simp only [sub, ofInt]
  rw [← Int.cast_sub, round_intCast small]

theorem abs_ofInt (value : Int) : abs (ofInt value) = ofInt |value| := by
  simp [abs, ofInt]

theorem le_ofInt (left right : Int) : le (ofInt left) (ofInt right) = decide (left ≤ right) := by
  simp [le, ofInt]

/-- Scaling a small integer by a power of two is exact. -/
theorem scale_ofInt {value power : Int} (small : |value| < 2 ^ 53) (low : -1074 ≤ power)
    (high : power ≤ 970) :
    scale (2 ^ power) (ofInt value) = .finite ((value : ℚ) * 2 ^ power) :=
  round_of_representable small low high

/-- Ties are broken the same way on both sides of zero. -/
theorem roundEven_neg (value : ℚ) : roundEven (-value) = -roundEven value := by
  have split := Int.floor_add_fract value
  have nonneg := Int.fract_nonneg value
  have small := Int.fract_lt_one value
  by_cases whole : Int.fract value = 0
  · have same : value = (⌊value⌋ : ℚ) := by linarith
    rw [same, ← Int.cast_neg, roundEven_intCast, roundEven_intCast]
  · have positive : 0 < Int.fract value := lt_of_le_of_ne nonneg (Ne.symm whole)
    have below : ⌊-value⌋ = -⌊value⌋ - 1 := by
      rw [Int.floor_eq_iff]
      push_cast
      constructor <;> linarith
    have rest : -value - ((-⌊value⌋ - 1 : Int) : ℚ) = 1 - Int.fract value := by
      push_cast
      linarith
    have here : value - (⌊value⌋ : ℚ) = Int.fract value := by linarith
    simp only [roundEven, below, rest, here]
    rcases lt_trichotomy (Int.fract value) (1 / 2) with less | half | more
    · rw [if_neg (by linarith), if_pos (by linarith), if_pos less]
      omega
    · rw [half, if_neg (by norm_num), if_neg (by norm_num), if_neg (lt_irrefl _), if_neg (lt_irrefl _)]
      split_ifs <;> omega
    · rw [if_pos (by linarith), if_neg (by linarith), if_pos more]
      omega

theorem abs_round_neg (value : ℚ) : abs (round (-value)) = abs (round value) := by
  have unit : exponent (-value) = exponent value := by rw [exponent, exponent, abs_neg]
  simp only [round, unit, neg_div, roundEven_neg, Int.cast_neg, neg_mul, abs_neg]
  split
  · rfl
  · simp only [abs, abs_neg]

/-- The distance of two doubles. -/
theorem abs_sub_comm (left right : Binary64) : abs (sub left right) = abs (sub right left) := by
  cases left with
  | nan => cases right <;> rfl
  | infinite negative =>
      cases right with
      | nan => rfl
      | infinite other => cases negative <;> cases other <;> rfl
      | finite value => rfl
  | finite value =>
      cases right with
      | nan => rfl
      | infinite other => rfl
      | finite other => rw [sub, sub, ← neg_sub, abs_round_neg]

theorem roundEven_nonneg {value : ℚ} (nonneg : 0 ≤ value) : 0 ≤ roundEven value := by
  have floor : 0 ≤ ⌊value⌋ := Int.floor_nonneg.mpr nonneg
  simp only [roundEven]
  split_ifs <;> omega

/-- No rounding takes a result below zero. -/
theorem le_zero_round {value : ℚ} (nonneg : 0 ≤ value) : le (.finite 0) (round value) = true := by
  have rounded : (0 : ℚ) ≤ (roundEven (value / (2 : ℚ) ^ exponent value) : ℚ) * (2 : ℚ) ^ exponent value := by
    have quotient : 0 ≤ value / (2 : ℚ) ^ exponent value := by positivity
    have whole : (0 : ℚ) ≤ (roundEven (value / (2 : ℚ) ^ exponent value) : ℚ) := by
      exact_mod_cast roundEven_nonneg quotient
    positivity
  simp only [round]
  split
  · rw [le, decide_eq_false (not_lt.mpr nonneg)]
    rfl
  · exact decide_eq_true rounded

end Binary64
end CJson
