import Mathlib.Data.Int.Log
import Mathlib.Data.Rat.Floor
import Mathlib.Tactic.FieldSimp
import Mathlib.Tactic.Linarith
import Mathlib.Tactic.NormNum
import Mathlib.Tactic.Positivity

/-!
Rounding of rationals to a number of significant bits, to nearest with ties to
even and with an unbounded exponent, and truncation to an integer. Values are
handled as sign and magnitude. The error is bounded absolutely by half a unit in
the last place and relatively by a power of two; a quotient of two integers
below the bound of exact representation never rounds past an integer.
-/

namespace Rounding

section Integers

/-- The nearest integer, the even one of two. -/
def roundHalfEven (value : ℚ) : ℤ :=
  let down := ⌊value⌋
  if value - down < 1 / 2 then down
  else if 1 / 2 < value - down then down + 1
  else if down % 2 = 0 then down
  else down + 1

theorem round_half_even_error (value : ℚ) : |(roundHalfEven value : ℚ) - value| ≤ 1 / 2 := by
  have lower := Int.floor_le value
  have upper := Int.lt_floor_add_one value
  simp only [roundHalfEven]
  split_ifs with below above even <;> push_cast <;> rw [abs_le] <;> constructor <;> linarith

theorem round_half_even_int (value : ℤ) : roundHalfEven value = value := by
  simp [roundHalfEven]

/-- The integer part, towards zero. -/
def truncate (value : ℚ) : ℤ := if value < 0 then -⌊-value⌋ else ⌊value⌋

theorem truncate_neg (value : ℚ) : truncate (-value) = -truncate value := by
  rcases lt_trichotomy value 0 with negative | rfl | positive
  · rw [truncate, truncate, if_neg (by linarith), if_pos negative, neg_neg]
  · simp [truncate]
  · rw [truncate, truncate, if_pos (by linarith), if_neg (by linarith), neg_neg]

theorem truncate_of_nonneg {value : ℚ} (nonneg : 0 ≤ value) : truncate value = ⌊value⌋ :=
  if_neg (not_lt.mpr nonneg)

end Integers

section Significands

variable (precision : ℕ)

/-- The spacing of the representable values around a positive magnitude. -/
def unitInLastPlace (value : ℚ) : ℚ := 2 ^ (Int.log 2 value - precision + 1)

def roundMagnitude (value : ℚ) : ℚ :=
  roundHalfEven (value / unitInLastPlace precision value) * unitInLastPlace precision value

def roundNearestEven (value : ℚ) : ℚ :=
  if value < 0 then -roundMagnitude precision (-value) else roundMagnitude precision value

theorem unit_pos (value : ℚ) : 0 < unitInLastPlace precision value :=
  zpow_pos (by norm_num) _

theorem round_magnitude_error (value : ℚ) :
    |roundMagnitude precision value - value| ≤ unitInLastPlace precision value / 2 := by
  have positive := unit_pos precision value
  have scaled := round_half_even_error (value / unitInLastPlace precision value)
  have factored : roundMagnitude precision value - value =
      (roundHalfEven (value / unitInLastPlace precision value) -
        value / unitInLastPlace precision value) * unitInLastPlace precision value := by
    rw [roundMagnitude, sub_mul, div_mul_cancel₀ _ positive.ne']
  rw [factored, abs_mul, abs_of_pos positive]
  calc |(roundHalfEven (value / unitInLastPlace precision value) : ℚ) -
          value / unitInLastPlace precision value| * unitInLastPlace precision value
      ≤ 1 / 2 * unitInLastPlace precision value :=
        mul_le_mul_of_nonneg_right scaled positive.le
    _ = unitInLastPlace precision value / 2 := by ring

/-- Below one the unit in the last place is at most the relative error. -/
theorem unit_le_of_lt_one {value : ℚ} (positive : 0 < value) (below : value < 1) :
    unitInLastPlace precision value ≤ 2 ^ (-precision : ℤ) := by
  have logNegative : Int.log 2 value < 0 :=
    (Int.lt_zpow_iff_log_lt (by decide) positive).mp (by simpa using below)
  exact zpow_le_zpow_right₀ (by norm_num) (by omega)

theorem round_magnitude_of_multiple {value : ℚ} {count : ℤ}
    (multiple : value = count * unitInLastPlace precision value) :
    roundMagnitude precision value = value := by
  have quotient : value / unitInLastPlace precision value = count := by
    rw [div_eq_iff (unit_pos precision value).ne']
    exact multiple
  rw [roundMagnitude, quotient, round_half_even_int]
  exact multiple.symm

theorem unit_eq (value : ℚ) : unitInLastPlace precision value =
    2 ^ Int.log 2 value * 2 ^ (1 - precision : ℤ) := by
  rw [unitInLastPlace, ← zpow_add₀ (by norm_num)]
  congr 1
  ring

theorem unit_le {value : ℚ} (positive : 0 < value) :
    unitInLastPlace precision value ≤ value * 2 ^ (1 - precision : ℤ) := by
  have power : (2 : ℚ) ^ Int.log 2 value ≤ value := Int.zpow_log_le_self (by decide) positive
  rw [unit_eq]
  exact mul_le_mul_of_nonneg_right power (zpow_pos (by norm_num) _).le

theorem round_magnitude_zero : roundMagnitude precision 0 = 0 := by
  have multiple : (0 : ℚ) = (0 : ℤ) * unitInLastPlace precision 0 := by simp
  exact round_magnitude_of_multiple precision multiple

theorem round_magnitude_of_significand {significand : ℕ} (bounded : significand < 2 ^ precision)
    (exponent : ℤ) :
    roundMagnitude precision (significand * 2 ^ exponent) = significand * 2 ^ exponent := by
  rcases Nat.eq_zero_or_pos significand with rfl | nonzero
  · simp [round_magnitude_zero]
  · generalize value : (significand : ℚ) * 2 ^ exponent = scaled
    have positive : 0 < scaled := by
      rw [← value]
      exact mul_pos (by exact_mod_cast nonzero) (zpow_pos (by norm_num) _)
    have below : scaled < 2 ^ (precision + exponent : ℤ) := by
      rw [← value, zpow_add₀ (by norm_num), zpow_natCast]
      exact mul_lt_mul_of_pos_right (by exact_mod_cast bounded) (zpow_pos (by norm_num) _)
    have logBelow : Int.log 2 scaled < precision + exponent :=
      (Int.lt_zpow_iff_log_lt (by decide) positive).mp below
    obtain ⟨shift, shifted⟩ : ∃ shift : ℕ, exponent = shift + (Int.log 2 scaled - precision + 1) :=
      ⟨(exponent - (Int.log 2 scaled - precision + 1)).toNat, by omega⟩
    have multiple : scaled = ((significand * 2 ^ shift : ℕ) : ℤ) *
        unitInLastPlace precision scaled := by
      calc scaled
          = significand * (2 ^ shift * 2 ^ (Int.log 2 scaled - precision + 1)) := by
            rw [← zpow_natCast, ← zpow_add₀ (by norm_num), ← shifted, value]
        _ = ((significand * 2 ^ shift : ℕ) : ℤ) * unitInLastPlace precision scaled := by
            rw [unitInLastPlace]
            push_cast
            ring
    exact round_magnitude_of_multiple precision multiple

/-- Integers up to the bound of exact representation are not rounded. -/
theorem round_magnitude_of_small {value : ℕ} (some : 0 < precision) (small : value ≤ 2 ^ precision) :
    roundMagnitude precision value = value := by
  rcases Nat.lt_or_eq_of_le small with below | rfl
  · have exact := round_magnitude_of_significand precision below 0
    rwa [zpow_zero, mul_one] at exact
  · have one : 1 < 2 ^ precision := Nat.one_lt_two_pow some.ne'
    have exact := round_magnitude_of_significand precision one precision
    rw [zpow_natCast, Nat.cast_one, one_mul] at exact
    rwa [Nat.cast_pow, Nat.cast_ofNat]

theorem round_magnitude_of_power (some : 0 < precision) (exponent : ℤ) :
    roundMagnitude precision (2 ^ exponent) = 2 ^ exponent := by
  have one : 1 < 2 ^ precision := Nat.one_lt_two_pow some.ne'
  have exact := round_magnitude_of_significand precision one exponent
  rwa [Nat.cast_one, one_mul] at exact

theorem round_magnitude_relative_error {value : ℚ} (positive : 0 < value) :
    |roundMagnitude precision value - value| ≤ value * 2 ^ (-precision : ℤ) := by
  have absolute := round_magnitude_error precision value
  have unit := unit_le precision positive
  have halved : value * 2 ^ (1 - precision : ℤ) / 2 = value * 2 ^ (-precision : ℤ) := by
    rw [sub_eq_add_neg, zpow_add₀ (by norm_num), zpow_one]
    ring
  linarith

/-- The error is below one part in `2 ^ precision`, except at a power of two, which is exact. -/
theorem round_magnitude_exact_or_close (some : 0 < precision) {value : ℚ} (positive : 0 < value) :
    roundMagnitude precision value = value ∨
      |roundMagnitude precision value - value| < value * 2 ^ (-precision : ℤ) := by
  have power : (2 : ℚ) ^ Int.log 2 value ≤ value := Int.zpow_log_le_self (by decide) positive
  rcases power.eq_or_lt with same | below
  · left
    rw [← same]
    exact round_magnitude_of_power precision some _
  · right
    have unit : unitInLastPlace precision value < value * 2 ^ (1 - precision : ℤ) := by
      rw [unit_eq]
      exact mul_lt_mul_of_pos_right below (zpow_pos (by norm_num) _)
    have absolute := round_magnitude_error precision value
    have halved : value * 2 ^ (1 - precision : ℤ) / 2 = value * 2 ^ (-precision : ℤ) := by
      rw [sub_eq_add_neg, zpow_add₀ (by norm_num), zpow_one]
      ring
    linarith

/-- A quotient of integers, the first of which is in the exact range, keeps its integer part:
its distance from the integers is more than its rounding error. -/
theorem floor_round_div (some : 0 < precision) {dividend divisor : ℕ} (positive : 0 < divisor)
    (small : dividend ≤ 2 ^ precision) :
    ⌊roundMagnitude precision ((dividend : ℚ) / divisor)⌋ = ((dividend / divisor : ℕ) : ℤ) := by
  rcases Nat.eq_zero_or_pos (dividend % divisor) with whole | fraction
  · obtain ⟨count, rfl⟩ := Nat.dvd_of_mod_eq_zero whole
    have nonzero : (divisor : ℚ) ≠ 0 := by exact_mod_cast positive.ne'
    have countSmall : count ≤ 2 ^ precision := (Nat.le_mul_of_pos_left count positive).trans small
    rw [Nat.cast_mul, mul_div_cancel_left₀ _ nonzero, Nat.mul_div_cancel_left _ positive,
      round_magnitude_of_small precision some countSmall, Int.floor_natCast]
  · have divisorPos : (0 : ℚ) < divisor := by exact_mod_cast positive
    have dividendPos : (0 : ℚ) < dividend := by
      exact_mod_cast fraction.trans_le (Nat.mod_le _ _)
    have quotientPos : (0 : ℚ) < dividend / divisor := div_pos dividendPos divisorPos
    have parts : (dividend : ℚ) = divisor * (dividend / divisor : ℕ) + (dividend % divisor : ℕ) := by
      exact_mod_cast (Nat.div_add_mod dividend divisor).symm
    have fractionLow : (1 : ℚ) ≤ (dividend % divisor : ℕ) := by exact_mod_cast fraction
    have fractionHigh : ((dividend % divisor : ℕ) : ℚ) + 1 ≤ divisor := by
      exact_mod_cast Nat.mod_lt dividend positive
    have above : ((dividend / divisor : ℕ) : ℚ) + 1 / divisor ≤ dividend / divisor := by
      rw [le_div_iff₀ divisorPos, add_mul, one_div_mul_cancel divisorPos.ne']
      linarith
    have below : (dividend : ℚ) / divisor + 1 / divisor ≤ (dividend / divisor : ℕ) + 1 := by
      rw [← add_div, div_le_iff₀ divisorPos]
      linarith
    have unit : (dividend : ℚ) / divisor * 2 ^ (-precision : ℤ) ≤ 1 / divisor := by
      have bounded : (dividend : ℚ) ≤ 2 ^ precision := by exact_mod_cast small
      rw [zpow_neg, zpow_natCast, div_mul_eq_mul_div, div_le_div_iff_of_pos_right divisorPos]
      exact (mul_inv_le_iff₀ (by positivity)).mpr (by linarith)
    have gap : (0 : ℚ) < 1 / divisor := one_div_pos.mpr divisorPos
    rw [Int.floor_eq_iff, Int.cast_natCast]
    rcases round_magnitude_exact_or_close precision some quotientPos with exact | close
    · rw [exact]
      constructor <;> linarith
    · rw [abs_lt] at close
      constructor <;> linarith

theorem round_magnitude_bounds {value : ℚ} (positive : 0 < value) :
    value * (1 - 2 ^ (-precision : ℤ)) ≤ roundMagnitude precision value ∧
      roundMagnitude precision value ≤ value * (1 + 2 ^ (-precision : ℤ)) := by
  have error := abs_le.mp (round_magnitude_relative_error precision positive)
  constructor <;> linarith [error.1, error.2]

theorem round_magnitude_pos (some : 0 < precision) {value : ℚ} (positive : 0 < value) :
    0 < roundMagnitude precision value := by
  have small : (2 : ℚ) ^ (-precision : ℤ) < 1 := by
    rw [zpow_neg, zpow_natCast]
    exact inv_lt_one_of_one_lt₀ (one_lt_pow₀ (by norm_num) some.ne')
  exact (mul_pos positive (by linarith)).trans_le (round_magnitude_bounds precision positive).1

theorem round_magnitude_nonneg (some : 0 < precision) {value : ℚ} (nonneg : 0 ≤ value) :
    0 ≤ roundMagnitude precision value := by
  rcases nonneg.eq_or_lt with rfl | positive
  · exact (round_magnitude_zero precision).ge
  · exact (round_magnitude_pos precision some positive).le

/-- A quotient of rounded values, rounded again, is off by at most four relative errors. -/
theorem round_quotient_error (several : 3 ≤ precision) {dividend divisor : ℚ}
    (dividendPos : 0 < dividend) (divisorPos : 0 < divisor) :
    |roundMagnitude precision (roundMagnitude precision dividend /
        roundMagnitude precision divisor) - dividend / divisor| ≤
      dividend / divisor * (4 * 2 ^ (-precision : ℤ)) := by
  have some : 0 < precision := by omega
  obtain ⟨dividendLow, dividendHigh⟩ := round_magnitude_bounds precision dividendPos
  obtain ⟨divisorLow, divisorHigh⟩ := round_magnitude_bounds precision divisorPos
  have roundedDividend := round_magnitude_pos precision some dividendPos
  have roundedDivisor := round_magnitude_pos precision some divisorPos
  obtain ⟨low, high⟩ := round_magnitude_bounds precision (div_pos roundedDividend roundedDivisor)
  have unitPos : (0 : ℚ) < 2 ^ (-precision : ℤ) := zpow_pos (by norm_num) _
  have unitSmall : (2 : ℚ) ^ (-precision : ℤ) ≤ 1 / 8 := by
    have eight : (2 : ℚ) ^ (-3 : ℤ) = 1 / 8 := by norm_num
    rw [← eight]
    exact zpow_le_zpow_right₀ (by norm_num) (by omega)
  generalize (2 : ℚ) ^ (-precision : ℤ) = unit at *
  generalize roundMagnitude precision dividend = first at *
  generalize roundMagnitude precision divisor = second at *
  generalize roundMagnitude precision (first / second) = result at *
  have quotientPos := div_pos dividendPos divisorPos
  have upper : first / second ≤ dividend / divisor * ((1 + unit) / (1 - unit)) := by
    rw [div_mul_div_comm]
    exact div_le_div₀ (by positivity) dividendHigh (mul_pos divisorPos (by linarith)) divisorLow
  have lower : dividend / divisor * ((1 - unit) / (1 + unit)) ≤ first / second := by
    rw [div_mul_div_comm]
    exact div_le_div₀ roundedDividend.le dividendLow roundedDivisor divisorHigh
  have growth : (1 + unit) / (1 - unit) * (1 + unit) ≤ 1 + 4 * unit := by
    rw [div_mul_eq_mul_div, div_le_iff₀ (by linarith)]
    nlinarith
  have decay : 1 - 4 * unit ≤ (1 - unit) / (1 + unit) * (1 - unit) := by
    rw [div_mul_eq_mul_div, le_div_iff₀ (by linarith)]
    nlinarith
  have highest : result ≤ dividend / divisor * (1 + 4 * unit) := by
    calc result ≤ first / second * (1 + unit) := high
      _ ≤ dividend / divisor * ((1 + unit) / (1 - unit)) * (1 + unit) :=
        mul_le_mul_of_nonneg_right upper (by linarith)
      _ = dividend / divisor * ((1 + unit) / (1 - unit) * (1 + unit)) := mul_assoc _ _ _
      _ ≤ dividend / divisor * (1 + 4 * unit) := mul_le_mul_of_nonneg_left growth quotientPos.le
  have lowest : dividend / divisor * (1 - 4 * unit) ≤ result := by
    calc dividend / divisor * (1 - 4 * unit)
        ≤ dividend / divisor * ((1 - unit) / (1 + unit) * (1 - unit)) :=
          mul_le_mul_of_nonneg_left decay quotientPos.le
      _ = dividend / divisor * ((1 - unit) / (1 + unit)) * (1 - unit) := (mul_assoc _ _ _).symm
      _ ≤ first / second * (1 - unit) := mul_le_mul_of_nonneg_right lower (by linarith)
      _ ≤ result := low
  rw [abs_le]
  constructor <;> linarith

section Signs

theorem round_nearest_even_of_nonneg {value : ℚ} (nonneg : 0 ≤ value) :
    roundNearestEven precision value = roundMagnitude precision value :=
  if_neg (not_lt.mpr nonneg)

theorem round_nearest_even_neg (value : ℚ) :
    roundNearestEven precision (-value) = -roundNearestEven precision value := by
  rcases lt_trichotomy value 0 with negative | rfl | positive
  · rw [roundNearestEven, roundNearestEven, if_neg (by linarith), if_pos negative, neg_neg]
  · rw [neg_zero, round_nearest_even_of_nonneg precision le_rfl, round_magnitude_zero, neg_zero]
  · rw [roundNearestEven, roundNearestEven, if_pos (by linarith), if_neg (by linarith), neg_neg]

end Signs

end Significands

section Naturals

/-- The count of units that is nearest to a natural number, the even one of two. -/
def nearestEven (value unit : ℕ) : ℕ :=
  if 2 * (value % unit) < unit then value / unit
  else if unit < 2 * (value % unit) then value / unit + 1
  else if value / unit % 2 = 0 then value / unit
  else value / unit + 1

/-- A count is nearer than half a unit, or half a unit away and even. -/
def Nearest (value unit count : ℕ) : Prop :=
  (2 * value < 2 * (unit * count) + unit ∧ 2 * (unit * count) < 2 * value + unit) ∨
    (2 * value = 2 * (unit * count) + unit ∨ 2 * (unit * count) = 2 * value + unit) ∧ count % 2 = 0

variable {value unit count : ℕ}

theorem nearest_even_nearest (positive : 0 < unit) (value : ℕ) :
    Nearest value unit (nearestEven value unit) := by
  have split := Nat.div_add_mod value unit
  have below := Nat.mod_lt value positive
  have next : unit * (value / unit + 1) = unit * (value / unit) + unit := Nat.mul_succ _ _
  unfold Nearest nearestEven
  split_ifs <;> (try rw [next]) <;> omega

theorem nearest_unique (positive : 0 < unit) {other : ℕ} (nearest : Nearest value unit count)
    (second : Nearest value unit other) : count = other := by
  have ordered {low high : ℕ} (first : Nearest value unit low) (last : Nearest value unit high) :
      ¬ low < high := by
    intro less
    have apart : unit * low + unit ≤ unit * high := by
      rw [← Nat.mul_succ]
      exact Nat.mul_le_mul_left unit less
    have tie : high = low + 1 ∨ unit * low + unit + unit ≤ unit * high := by
      rcases Nat.lt_or_eq_of_le (Nat.succ_le_of_lt less) with farther | next
      · right
        rw [← Nat.mul_succ, ← Nat.mul_succ]
        exact Nat.mul_le_mul_left unit farther
      · exact Or.inl next.symm
    unfold Nearest at first last
    omega
  exact Nat.le_antisymm (Nat.le_of_not_lt (ordered second nearest))
    (Nat.le_of_not_lt (ordered nearest second))

theorem nearest_even_eq_iff (positive : 0 < unit) :
    nearestEven value unit = count ↔ Nearest value unit count := by
  constructor
  · rintro rfl
    exact nearest_even_nearest positive value
  · exact nearest_unique positive (nearest_even_nearest positive value)

/-- Rounding does not cross a whole number of units. -/
theorem nearest_even_le (positive : 0 < unit) {whole : ℕ} (inside : value ≤ unit * whole) :
    nearestEven value unit ≤ whole := by
  have nearest := nearest_even_nearest positive value
  by_contra beyond
  have more : unit * whole + unit ≤ unit * nearestEven value unit := by
    rw [← Nat.mul_succ]
    exact Nat.mul_le_mul_left unit (Nat.lt_of_not_le beyond)
  unfold Nearest at nearest
  omega

/-- Rounding below an even number of units mirrors rounding above zero. -/
theorem nearest_even_sub (positive : 0 < unit) {whole : ℕ} (even : whole % 2 = 0)
    (inside : value ≤ unit * whole) :
    nearestEven (unit * whole - value) unit = whole - nearestEven value unit := by
  have nearest := nearest_even_nearest positive value
  have bounded := nearest_even_le positive inside
  have product := Nat.mul_le_mul_left unit bounded
  have less : unit * (whole - nearestEven value unit) =
      unit * whole - unit * nearestEven value unit := Nat.mul_sub _ _ _
  rw [nearest_even_eq_iff positive]
  unfold Nearest at nearest ⊢
  rw [less]
  omega

/-- An even number of units in front of a number stays in front of what it rounds to. -/
theorem nearest_even_add (positive : 0 < unit) {whole : ℕ} (even : whole % 2 = 0) :
    nearestEven (unit * whole + value) unit = whole + nearestEven value unit := by
  have nearest := nearest_even_nearest positive value
  have more : unit * (whole + nearestEven value unit) =
      unit * whole + unit * nearestEven value unit := Nat.mul_add _ _ _
  rw [nearest_even_eq_iff positive]
  unfold Nearest at nearest ⊢
  rw [more]
  omega

theorem round_half_even_div (positive : 0 < unit) (value : ℕ) :
    roundHalfEven ((value : ℚ) / unit) = nearestEven value unit := by
  have unitPos : (0 : ℚ) < unit := by exact_mod_cast positive
  have down : ⌊(value : ℚ) / unit⌋ = ((value / unit : ℕ) : ℤ) := by
    have floor := Rat.floor_intCast_div_natCast (value : ℤ) unit
    rwa [Int.cast_natCast, ← Int.natCast_div] at floor
  have fraction : (value : ℚ) / unit - ((value / unit : ℕ) : ℤ) =
      ((value % unit : ℕ) : ℚ) / unit := by
    have split : ((unit * (value / unit) + value % unit : ℕ) : ℚ) = value := by
      exact_mod_cast Nat.div_add_mod value unit
    rw [Int.cast_natCast, sub_eq_iff_eq_add, div_add' _ _ _ unitPos.ne', ← split]
    congr 1
    push_cast
    ring
  have less : ((value % unit : ℕ) : ℚ) / unit < 1 / 2 ↔ 2 * (value % unit) < unit := by
    rw [div_lt_div_iff₀ unitPos (by norm_num), one_mul, mul_comm]
    exact_mod_cast Iff.rfl
  have more : 1 / 2 < ((value % unit : ℕ) : ℚ) / unit ↔ unit < 2 * (value % unit) := by
    rw [div_lt_div_iff₀ (by norm_num) unitPos, one_mul, mul_comm]
    exact_mod_cast Iff.rfl
  have parity : ((value / unit : ℕ) : ℤ) % 2 = 0 ↔ value / unit % 2 = 0 := by omega
  simp only [roundHalfEven, down, nearestEven, fraction, less, more, parity]
  split_ifs <;> push_cast <;> rfl

/-- The spacing of the representable values around a natural number, one at least. -/
def natUnit (precision value : ℕ) : ℕ := 2 ^ (Nat.log 2 value + 1 - precision)

theorem round_magnitude_nat (precision : ℕ) (some : 0 < precision) (value : ℕ) :
    roundMagnitude precision value =
      ((natUnit precision value * nearestEven value (natUnit precision value) : ℕ) : ℚ) := by
  by_cases large : precision ≤ Nat.log 2 value + 1
  · have unit : unitInLastPlace precision value = (natUnit precision value : ℕ) := by
      have exponent : (Nat.log 2 value : ℤ) - precision + 1 =
          ((Nat.log 2 value + 1 - precision : ℕ) : ℤ) := by omega
      rw [unitInLastPlace, Int.log_natCast, exponent, zpow_natCast, natUnit]
      push_cast
      rfl
    have positive : 0 < natUnit precision value := Nat.two_pow_pos _
    rw [roundMagnitude, unit, round_half_even_div positive, Int.cast_natCast, Nat.cast_mul,
      mul_comm]
  · have one : natUnit precision value = 1 := by
      rw [natUnit, Nat.sub_eq_zero_of_le (by omega), Nat.pow_zero]
    have small : value ≤ 2 ^ precision := by
      have below := Nat.lt_pow_succ_log_self (show 1 < 2 by decide) value
      exact (below.trans_le (Nat.pow_le_pow_right (by decide) (by omega))).le
    have exact : nearestEven value 1 = value := by
      rw [nearest_even_eq_iff Nat.one_pos]
      left
      omega
    rw [one, exact, one_mul]
    exact round_magnitude_of_small precision some small

end Naturals

end Rounding
