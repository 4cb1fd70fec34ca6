import Mathlib.Data.Rat.Cast.Order
import Mathlib.Tactic.Ring
import NaplesPU.Lib.Rounding

/-!
The lowering of integer division to conversions and one floating-point division.
A single-precision value is a rational with twenty-four significant bits; every
value met here is far inside the range of the format, so its exponent is not
bounded. The truncated quotient is kept as an integer.
-/

namespace NaplesPU.DivisionLowering

open Rounding

inductive DivOpcode where
  | SDIV
  | UDIV
deriving DecidableEq, Repr

def significandBits : ℕ := 24

def DivOpcode.value (opcode : DivOpcode) (operand : BitVec 32) : ℤ :=
  match opcode with
  | .SDIV => operand.toInt
  | .UDIV => operand.toNat

/-- `SINT_TO_FP` or `UINT_TO_FP`, each as the one rounding that the node stands for. The target
expands the second one further, to code that may round twice. -/
def itof (opcode : DivOpcode) (operand : BitVec 32) : ℚ :=
  roundNearestEven significandBits (opcode.value operand)

def fdiv (left right : ℚ) : ℚ := roundNearestEven significandBits (left / right)

/-- `FP_TO_SINT` or `FP_TO_UINT`. -/
def ftoi (value : ℚ) : ℤ := truncate value

def lowerXDIV (opcode : DivOpcode) (op1 op2 : BitVec 32) : ℤ :=
  let op1FP := itof opcode op1
  let op2FP := itof opcode op2
  let resFP := fdiv op1FP op2FP
  ftoi resFP

/-- The same nodes on vectors, whose operations act lane by lane. -/
def lowerXDIV_VV (opcode : DivOpcode) (op1 op2 : Fin 16 → BitVec 32) : Fin 16 → ℤ :=
  let op1FP := fun lane => itof opcode (op1 lane)
  let op2FP := fun lane => itof opcode (op2 lane)
  let resFP := fun lane => fdiv (op1FP lane) (op2FP lane)
  fun lane => ftoi (resFP lane)

section Magnitudes

def magnitudeQuotient (dividend divisor : ℕ) : ℤ :=
  ⌊roundMagnitude significandBits (roundMagnitude significandBits dividend /
    roundMagnitude significandBits divisor)⌋

theorem round_small {value : ℕ} (small : value ≤ 2 ^ significandBits) :
    roundMagnitude significandBits value = value :=
  round_magnitude_of_small _ (by decide) small

theorem magnitude_quotient_of_small {dividend divisor : ℕ} (positive : 0 < divisor)
    (small : dividend ≤ 2 ^ significandBits) (divisorSmall : divisor ≤ 2 ^ significandBits) :
    magnitudeQuotient dividend divisor = (dividend / divisor : ℕ) := by
  rw [magnitudeQuotient, round_small small, round_small divisorSmall]
  exact floor_round_div _ (by decide) positive small

/-- The first integer that is not representable rounds down to the even neighbour. -/
theorem round_first_gap : roundMagnitude significandBits (16777217 : ℕ) = (16777216 : ℕ) := by
  have log : Int.log 2 ((16777217 : ℕ) : ℚ) = 24 := by
    have natural : Nat.log 2 16777217 = 24 :=
      Nat.log_eq_of_pow_le_of_lt_pow (by norm_num) (by norm_num)
    rw [Int.log_natCast, natural, Nat.cast_ofNat]
  have unit : unitInLastPlace significandBits (16777217 : ℕ) = 2 := by
    rw [unitInLastPlace, log, significandBits]
    norm_num
  have down : ⌊((16777217 : ℕ) : ℚ) / 2⌋ = 8388608 := by
    rw [Int.floor_eq_iff]
    norm_num
  have even : roundHalfEven (((16777217 : ℕ) : ℚ) / 2) = 8388608 := by
    simp only [roundHalfEven, down]
    norm_num
  rw [roundMagnitude, unit, even]
  norm_num

/-- A divisor from the second gap on stays so far above the dividend that the quotient does
not round up to one. -/
theorem magnitude_quotient_of_large {dividend divisor : ℕ} (small : dividend ≤ 2 ^ significandBits)
    (large : 2 ^ significandBits + 2 ≤ divisor) : magnitudeQuotient dividend divisor = 0 := by
  rcases Nat.eq_zero_or_pos dividend with rfl | positive
  · rw [magnitudeQuotient, Nat.cast_zero, round_magnitude_zero, zero_div, round_magnitude_zero,
      Int.floor_zero]
  · have dividendPos : (1 : ℚ) ≤ dividend := by exact_mod_cast positive
    have dividendHigh : (dividend : ℚ) ≤ 16777216 := by exact_mod_cast small
    have divisorLow : (16777218 : ℚ) ≤ divisor := by exact_mod_cast large
    have divisorBounds := (round_magnitude_bounds significandBits
      (show (0 : ℚ) < divisor by linarith)).1
    have unit : (2 : ℚ) ^ (-(significandBits : ℕ) : ℤ) = 1 / 16777216 := by
      rw [significandBits]
      norm_num
    rw [unit] at divisorBounds
    rw [magnitudeQuotient, round_small small]
    generalize roundMagnitude significandBits (divisor : ℚ) = rounded at divisorBounds ⊢
    have roundedLow : (16777216 + 3 / 4 : ℚ) ≤ rounded := by linarith
    have roundedPos : (0 : ℚ) < rounded := by linarith
    have quotientPos : (0 : ℚ) < dividend / rounded := div_pos (by linarith) roundedPos
    have quotientHigh : (dividend : ℚ) / rounded ≤ 1 - 1 / 30000000 := by
      rw [div_le_iff₀ roundedPos]
      linarith
    have ulp := unit_le_of_lt_one significandBits quotientPos (by linarith)
    have error := abs_le.mp (round_magnitude_error significandBits ((dividend : ℚ) / rounded))
    have resultPos := round_magnitude_pos significandBits (by decide) quotientPos
    rw [unit] at ulp
    rw [Int.floor_eq_iff, Int.cast_zero]
    constructor <;> linarith

/-- Dividends in the exact range divide exactly, but for one pair. -/
theorem magnitude_quotient_eq_iff {dividend divisor : ℕ} (positive : 0 < divisor)
    (small : dividend ≤ 2 ^ significandBits) :
    magnitudeQuotient dividend divisor = (dividend / divisor : ℕ) ↔
      ¬ (dividend = 2 ^ significandBits ∧ divisor = 2 ^ significandBits + 1) := by
  rcases Nat.lt_trichotomy divisor (2 ^ significandBits + 1) with below | rfl | above
  · have exact := magnitude_quotient_of_small positive small (Nat.le_of_lt_succ below)
    exact iff_of_true exact fun exception => absurd exception.2 below.ne
  · have gap : magnitudeQuotient dividend (2 ^ significandBits + 1) =
        (dividend / 2 ^ significandBits : ℕ) := by
      have rounded : roundMagnitude significandBits ((2 ^ significandBits + 1 : ℕ) : ℚ) =
        (2 ^ significandBits : ℕ) := round_first_gap
      rw [magnitudeQuotient, rounded, round_small small]
      exact floor_round_div _ (by decide) (Nat.two_pow_pos _) small
    rw [gap, Nat.div_eq_of_lt (show dividend < 2 ^ significandBits + 1 by omega), Nat.cast_inj,
      Nat.div_eq_zero_iff]
    constructor
    · rintro (zero | less) ⟨rfl, -⟩
      · exact absurd zero (by decide)
      · exact lt_irrefl _ less
    · intro allowed
      right
      exact lt_of_le_of_ne small fun same => allowed ⟨same, rfl⟩
  · rw [magnitude_quotient_of_large small above, Nat.div_eq_of_lt (by omega)]
    exact iff_of_true rfl fun exception => absurd exception.2 above.ne'

theorem magnitude_quotient_error (dividend : ℕ) {divisor : ℕ} (positive : 0 < divisor) :
    |(magnitudeQuotient dividend divisor : ℚ) - dividend / divisor| <
      1 + (dividend / divisor : ℚ) / 2 ^ 22 := by
  rcases Nat.eq_zero_or_pos dividend with rfl | dividendPositive
  · rw [magnitudeQuotient, Nat.cast_zero, round_magnitude_zero, zero_div, round_magnitude_zero]
    norm_num
  · have dividendPos : (0 : ℚ) < dividend := by exact_mod_cast dividendPositive
    have divisorPos : (0 : ℚ) < divisor := by exact_mod_cast positive
    have error := abs_le.mp (round_quotient_error significandBits (by decide) dividendPos divisorPos)
    have unit : (4 : ℚ) * 2 ^ (-(significandBits : ℕ) : ℤ) = 1 / 2 ^ 22 := by
      rw [significandBits]
      norm_num
    rw [unit, mul_one_div] at error
    have lower := Int.floor_le (roundMagnitude significandBits
      (roundMagnitude significandBits dividend / roundMagnitude significandBits divisor))
    have upper := Int.lt_floor_add_one (roundMagnitude significandBits
      (roundMagnitude significandBits dividend / roundMagnitude significandBits divisor))
    rw [magnitudeQuotient, abs_lt]
    constructor <;> linarith

end Magnitudes

section Signs

def divideIntegers (left right : ℤ) : ℤ :=
  ftoi (fdiv (roundNearestEven significandBits left) (roundNearestEven significandBits right))

theorem divide_neg_left (left right : ℤ) :
    divideIntegers (-left) right = -divideIntegers left right := by
  rw [divideIntegers, Int.cast_neg, round_nearest_even_neg, fdiv, neg_div, round_nearest_even_neg,
    ftoi, truncate_neg]
  rfl

theorem divide_neg_right (left right : ℤ) :
    divideIntegers left (-right) = -divideIntegers left right := by
  rw [divideIntegers, Int.cast_neg, round_nearest_even_neg, fdiv, div_neg, round_nearest_even_neg,
    ftoi, truncate_neg]
  rfl

theorem divide_natural (left right : ℕ) :
    divideIntegers left right = magnitudeQuotient left right := by
  have castNonneg (value : ℕ) : (0 : ℚ) ≤ value := value.cast_nonneg
  have nonneg (value : ℕ) : 0 ≤ roundMagnitude significandBits (value : ℚ) :=
    round_magnitude_nonneg significandBits (by decide) (castNonneg value)
  have quotientNonneg := div_nonneg (nonneg left) (nonneg right)
  rw [divideIntegers, Int.cast_natCast, Int.cast_natCast,
    round_nearest_even_of_nonneg _ (castNonneg left),
    round_nearest_even_of_nonneg _ (castNonneg right), fdiv,
    round_nearest_even_of_nonneg _ quotientNonneg, ftoi,
    truncate_of_nonneg (round_magnitude_nonneg significandBits (by decide) quotientNonneg)]
  rfl

/-- What the lowering promises of two integers: the exact quotient for dividends in the exact
range, but for one pair of magnitudes, and a small error for all others. -/
def DividesWithin (dividend divisor result : ℤ) : Prop :=
  (|dividend| ≤ 2 ^ significandBits →
    (result = dividend.tdiv divisor ↔
      ¬ (|dividend| = 2 ^ significandBits ∧ |divisor| = 2 ^ significandBits + 1))) ∧
  |(result : ℚ) - dividend / divisor| < 1 + |(dividend / divisor : ℚ)| / 2 ^ 22

theorem divides_neg_left {dividend divisor result : ℤ}
    (divides : DividesWithin dividend divisor result) :
    DividesWithin (-dividend) divisor (-result) := by
  obtain ⟨exact, error⟩ := divides
  constructor
  · rw [abs_neg, Int.neg_tdiv, neg_inj]
    exact exact
  · rw [Int.cast_neg, Int.cast_neg, neg_div, ← neg_sub_neg, neg_neg, neg_neg, abs_sub_comm, abs_neg]
    exact error

theorem divides_neg_right {dividend divisor result : ℤ}
    (divides : DividesWithin dividend divisor result) :
    DividesWithin dividend (-divisor) (-result) := by
  obtain ⟨exact, error⟩ := divides
  constructor
  · rw [abs_neg divisor, Int.tdiv_neg, neg_inj]
    exact exact
  · rw [Int.cast_neg, Int.cast_neg, div_neg, ← neg_sub_neg, neg_neg, neg_neg, abs_sub_comm, abs_neg]
    exact error

theorem divides_natural (dividend : ℕ) {divisor : ℕ} (positive : 0 < divisor) :
    DividesWithin dividend divisor (magnitudeQuotient dividend divisor) := by
  constructor
  · intro small
    rw [Nat.abs_cast] at small
    have smallNat : dividend ≤ 2 ^ significandBits := by exact_mod_cast small
    have exact := magnitude_quotient_eq_iff positive smallNat
    rw [Nat.abs_cast, Nat.abs_cast, ← Int.ofNat_tdiv]
    exact_mod_cast exact
  · have error := magnitude_quotient_error dividend positive
    have nonneg : (0 : ℚ) ≤ dividend / divisor := by positivity
    rw [Int.cast_natCast, Int.cast_natCast, abs_of_nonneg nonneg]
    exact error

theorem divide_integers_within (dividend : ℤ) {divisor : ℤ} (nonzero : divisor ≠ 0) :
    DividesWithin dividend divisor (divideIntegers dividend divisor) := by
  obtain ⟨left, rfl | rfl⟩ := dividend.eq_nat_or_neg <;>
    obtain ⟨right, rfl | rfl⟩ := divisor.eq_nat_or_neg
  · rw [divide_natural]
    exact divides_natural left (by omega)
  · rw [divide_neg_right, divide_natural]
    exact divides_neg_right (divides_natural left (by omega))
  · rw [divide_neg_left, divide_natural]
    exact divides_neg_left (divides_natural left (by omega))
  · rw [divide_neg_left, divide_neg_right, divide_natural]
    exact divides_neg_left (divides_neg_right (divides_natural left (by omega)))

end Signs

section Lowering

theorem value_ne_zero (opcode : DivOpcode) {operand : BitVec 32} (nonzero : operand ≠ 0) :
    opcode.value operand ≠ 0 := by
  cases opcode with
  | SDIV => exact fun zero => nonzero (BitVec.toInt_inj.mp zero)
  | UDIV => exact fun zero => nonzero (BitVec.toNat_inj.mp (Int.natCast_eq_zero.mp zero))

/-- Scalar and vector division by the lowered nodes, for every pair of operands and every lane. -/
theorem division_lowering_within (opcode : DivOpcode) :
    (∀ op1 op2 : BitVec 32, op2 ≠ 0 →
      DividesWithin (opcode.value op1) (opcode.value op2) (lowerXDIV opcode op1 op2)) ∧
    ∀ (op1 op2 : Fin 16 → BitVec 32) (lane : Fin 16), op2 lane ≠ 0 →
      DividesWithin (opcode.value (op1 lane)) (opcode.value (op2 lane))
        (lowerXDIV_VV opcode op1 op2 lane) := by
  constructor
  · intro op1 op2 nonzero
    exact divide_integers_within _ (value_ne_zero opcode nonzero)
  · intro op1 op2 lane nonzero
    exact divide_integers_within _ (value_ne_zero opcode nonzero)

theorem seven_halves_lowered : lowerXDIV .SDIV 7 2 = 3 :=
  ((division_lowering_within .SDIV).1 7 2 (by decide)).1 (by decide) |>.mpr (by decide)

/-- A dividend past the exact range comes back rounded. -/
theorem sdiv_past_exact_range_inexact : ¬ ∀ (opcode : DivOpcode) (op1 op2 : BitVec 32), op2 ≠ 0 →
    ¬ (opcode = .SDIV ∧ op1 = BitVec.intMin 32 ∧ op2 = -1) →
    lowerXDIV opcode op1 op2 = (opcode.value op1).tdiv (opcode.value op2) := by
  intro all
  have same : divideIntegers (16777217 : ℕ) (1 : ℕ) = 16777217 :=
    all .SDIV 16777217 1 (by decide) (by decide)
  rw [divide_natural, magnitudeQuotient, round_first_gap, round_small (by decide), Nat.cast_one,
    div_one, round_small (by decide), Int.floor_natCast] at same
  revert same
  decide

end Lowering

end NaplesPU.DivisionLowering
