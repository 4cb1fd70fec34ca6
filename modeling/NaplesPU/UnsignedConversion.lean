import Mathlib.Tactic.IntervalCases
import NaplesPU.DivisionLowering
import NaplesPU.Lib.Lanes

/-!
The conversion of unsigned integers to single precision: the signed conversion,
and for an operand whose signed view is negative the addition of two to the
thirty-second. Both nodes round, so that an operand is rounded twice.
-/

namespace NaplesPU.UnsignedConversion

open Rounding Lanes DivisionLowering

/-- `SINT_TO_FP`, which the hardware has. -/
def sintToFP (value : BitVec 32) : ℚ := roundNearestEven significandBits value.toInt

def fadd (left right : ℚ) : ℚ := roundNearestEven significandBits (left + right)

def adjustValue : ℚ := 4294967296

def LowerUINT_TO_FP (rVal : BitVec 32) : ℚ :=
  let signedVal := sintToFP rVal
  let isNegative := rVal.slt 0
  let adjusted := fadd signedVal adjustValue
  if isNegative then adjusted else signedVal

/-- The mask of `npu_mask_cmpi32_slt`, a bit for each lane. -/
def maskCmpSlt (left right : Fin 16 → BitVec 32) : BitVec 16 :=
  ofBits fun lane => (left lane).slt (right lane)

/-- The same nodes on vectors; the selection takes each lane by its bit of the mask. -/
def lowerUINT_TO_FP_V (rVal : Fin 16 → BitVec 32) : Fin 16 → ℚ :=
  let signedVal := fun lane => sintToFP (rVal lane)
  let isNegativeMask := maskCmpSlt rVal fun _ => 0
  let adjusted := fun lane => fadd (signedVal lane) adjustValue
  fun lane => if isNegativeMask.getLsbD lane then adjusted lane else signedVal lane

def correctlyRounded (rVal : BitVec 32) : ℚ := roundNearestEven significandBits rVal.toNat

/-- Where two roundings are one. An operand from half the range on is two hundred and fifty-six
times a quotient and a remainder, whose half is the tie between two floats. The first rounding
has the spacing of the floats at the distance of the operand from the whole range; it moves no
other operand onto a tie, or it moves one onto a tie that goes to the nearer float. -/
def RoundsOnce (rVal : BitVec 32) : Prop :=
  let value := rVal.toNat
  let quotient := value / 256
  let remainder := value % 256
  let distance := if remainder < 128 then 128 - remainder else remainder - 128
  let spacing := natUnit significandBits (2 ^ 32 - value)
  value < 2 ^ 31 ∨ remainder = 128 ∨ spacing < 2 * distance ∨
    (spacing = 128 ∧ distance = 64) ∨ (remainder < 128 ↔ quotient % 2 = 0)

instance (rVal : BitVec 32) : Decidable (RoundsOnce rVal) :=
  inferInstanceAs (Decidable (_ ∨ _))

section Naturals

theorem remainder_rounded {exponent remainder : ℕ} (few : exponent ≤ 7) (inside : remainder < 256) :
    2 ^ exponent * nearestEven remainder (2 ^ exponent) ≤ 256 ∧
    (remainder < 128 → 2 ^ exponent * nearestEven remainder (2 ^ exponent) ≤ 128) ∧
    (128 < remainder → 128 ≤ 2 ^ exponent * nearestEven remainder (2 ^ exponent)) ∧
    (2 ^ exponent * nearestEven remainder (2 ^ exponent) = 128 ↔
      ¬ ((if remainder < 128 then 128 - remainder else remainder - 128) * 2 > 2 ^ exponent ∨
        (2 ^ exponent = 128 ∧
          (if remainder < 128 then 128 - remainder else remainder - 128) = 64))) := by
  have nearest := nearest_even_nearest (Nat.two_pow_pos exponent) remainder
  generalize nearestEven remainder (2 ^ exponent) = count at nearest ⊢
  unfold Nearest at nearest
  interval_cases exponent <;> split_ifs <;> omega

theorem rounded_twice_iff {exponent value : ℕ} (few : exponent ≤ 7) :
    nearestEven (2 ^ exponent * nearestEven value (2 ^ exponent)) 256 = nearestEven value 256 ↔
      value % 256 = 128 ∨
        2 ^ exponent < 2 * (if value % 256 < 128 then 128 - value % 256 else value % 256 - 128) ∨
        (2 ^ exponent = 128 ∧
          (if value % 256 < 128 then 128 - value % 256 else value % 256 - 128) = 64) ∨
        (value % 256 < 128 ↔ value / 256 % 2 = 0) := by
  have inside : value % 256 < 256 := Nat.mod_lt _ (by decide)
  obtain ⟨whole, below, above, tie⟩ := remainder_rounded few inside
  have power : 2 ^ exponent * 2 ^ (8 - exponent) = 256 := by
    rw [← Nat.pow_add, Nat.add_sub_cancel' (by omega)]
  have even : 2 ^ (8 - exponent) * (value / 256) % 2 = 0 := by
    obtain ⟨less, same⟩ : ∃ less, 8 - exponent = less + 1 := ⟨7 - exponent, by omega⟩
    rw [same, Nat.pow_succ, Nat.mul_right_comm, Nat.mul_mod_left]
  have split : value = 2 ^ exponent * (2 ^ (8 - exponent) * (value / 256)) + value % 256 := by
    rw [← Nat.mul_assoc, power]
    exact (Nat.div_add_mod value 256).symm
  have first : 2 ^ exponent * nearestEven value (2 ^ exponent) =
      256 * (value / 256) + 2 ^ exponent * nearestEven (value % 256) (2 ^ exponent) := by
    have added := @nearest_even_add (value % 256) _ (Nat.two_pow_pos exponent) _ even
    rw [← split] at added
    rw [added, Nat.mul_add, ← Nat.mul_assoc, power]
  have centre : value % 256 = 128 →
      (if value % 256 < 128 then 128 - value % 256 else value % 256 - 128) = 0 := by
    intro same
    rw [same]
    rfl
  have positive := Nat.two_pow_pos exponent
  rw [first]
  generalize 2 ^ exponent * nearestEven (value % 256) (2 ^ exponent) = rounded at *
  generalize (if value % 256 < 128 then 128 - value % 256 else value % 256 - 128) = distance at *
  unfold nearestEven
  split_ifs <;> omega

end Naturals

section Magnitudes

variable {value : ℕ}

theorem nat_unit_of_log {exponent : ℕ} (value : ℕ) (low : 2 ^ (exponent + 23) ≤ value)
    (high : value < 2 ^ (exponent + 24)) : natUnit significandBits value = 2 ^ exponent := by
  have log : Nat.log 2 value = exponent + 23 := Nat.log_eq_of_pow_le_of_lt_pow low high
  rw [natUnit, log, significandBits]
  congr 1

/-- The floats from half the range on are multiples of two hundred and fifty-six, the upper end
included. -/
theorem round_upper_half (low : 2 ^ 31 ≤ value) (high : value ≤ 2 ^ 32) :
    roundMagnitude significandBits value = ((256 * nearestEven value 256 : ℕ) : ℚ) := by
  rcases Nat.lt_or_eq_of_le high with below | rfl
  · have unit : natUnit significandBits value = 2 ^ 8 := nat_unit_of_log value low below
    rw [round_magnitude_nat significandBits (by decide), unit]
    norm_num
  · have exact : nearestEven (2 ^ 32) 256 = 2 ^ 24 := by decide
    have power : ((2 ^ 32 : ℕ) : ℚ) = 2 ^ (32 : ℤ) := by norm_num
    rw [exact, power, round_magnitude_of_power significandBits (by decide)]
    norm_num

theorem nat_unit_exponent {bound : ℕ} (small : value < 2 ^ (bound + 24)) :
    ∃ exponent, exponent ≤ bound ∧ natUnit significandBits value = 2 ^ exponent := by
  have log : Nat.log 2 value < bound + 24 := Nat.log_lt_of_lt_pow' (by omega) small
  exact ⟨Nat.log 2 value + 1 - 24, by omega, rfl⟩

/-- What the first rounding leaves of the distance to the whole range is at most half of it. -/
theorem rounded_distance_le (small : value ≤ 2 ^ 31) :
    natUnit significandBits value * nearestEven value (natUnit significandBits value) ≤ 2 ^ 31 := by
  obtain ⟨exponent, few, unit⟩ := nat_unit_exponent (show value < 2 ^ (8 + 24) by omega)
  have whole : 2 ^ exponent * 2 ^ (31 - exponent) = 2 ^ 31 := by
    rw [← Nat.pow_add, Nat.add_sub_cancel' (by omega)]
  rw [unit, ← whole]
  apply Nat.mul_le_mul_left
  apply nearest_even_le (Nat.two_pow_pos exponent)
  rw [whole]
  exact small

theorem adjusted_magnitude (low : 2 ^ 31 ≤ value) :
    fadd (-roundMagnitude significandBits ((2 ^ 32 - value : ℕ) : ℚ)) adjustValue =
      ((256 * nearestEven (2 ^ 32 - natUnit significandBits (2 ^ 32 - value) *
        nearestEven (2 ^ 32 - value) (natUnit significandBits (2 ^ 32 - value))) 256 : ℕ) : ℚ) := by
  have half := rounded_distance_le (show 2 ^ 32 - value ≤ 2 ^ 31 by omega)
  rw [round_magnitude_nat significandBits (by decide)]
  generalize natUnit significandBits (2 ^ 32 - value) *
    nearestEven (2 ^ 32 - value) (natUnit significandBits (2 ^ 32 - value)) = rounded at *
  have sum : -(rounded : ℚ) + adjustValue = ((2 ^ 32 - rounded : ℕ) : ℚ) := by
    rw [Nat.cast_sub (by omega), adjustValue]
    push_cast
    ring
  rw [fadd, sum, round_nearest_even_of_nonneg _ (Nat.cast_nonneg _),
    round_upper_half (by omega) (Nat.sub_le _ _)]

/-- The distance is rounded as the operand is, except at half the range. -/
theorem rounded_distance_mirrored {exponent : ℕ} (few : exponent ≤ 7) (high : value < 2 ^ 32) :
    2 ^ 32 - 2 ^ exponent * nearestEven (2 ^ 32 - value) (2 ^ exponent) =
      2 ^ exponent * nearestEven value (2 ^ exponent) := by
  have positive := Nat.two_pow_pos exponent
  have whole : 2 ^ exponent * 2 ^ (32 - exponent) = 2 ^ 32 := by
    rw [← Nat.pow_add, Nat.add_sub_cancel' (by omega)]
  have even : 2 ^ (32 - exponent) % 2 = 0 := by
    obtain ⟨less, same⟩ : ∃ less, 32 - exponent = less + 1 := ⟨31 - exponent, by omega⟩
    rw [same, Nat.pow_succ, Nat.mul_mod_left]
  have inside : value ≤ 2 ^ exponent * 2 ^ (32 - exponent) := by
    rw [whole]
    exact high.le
  have mirrored := nearest_even_sub positive even inside
  have bounded := Nat.mul_le_mul_left (2 ^ exponent) (nearest_even_le positive inside)
  rw [whole] at mirrored bounded
  rw [mirrored, Nat.mul_sub, whole, Nat.sub_sub_self bounded]

end Magnitudes

section Conversion

variable {rVal : BitVec 32}

theorem slt_zero_iff (rVal : BitVec 32) : rVal.slt 0 = true ↔ 2 ^ 31 ≤ rVal.toNat := by
  have bounded := rVal.isLt
  have zero : (0 : BitVec 32).toInt = 0 := rfl
  rw [BitVec.slt_iff_toInt_lt, zero, BitVec.toInt_eq_toNat_cond]
  split_ifs <;> omega

/-- An operand of the lower half is converted by the hardware. -/
theorem lower_half_rounded_once (small : rVal.toNat < 2 ^ 31) :
    LowerUINT_TO_FP rVal = correctlyRounded rVal := by
  have positive : rVal.slt 0 = false := by
    rw [← Bool.not_eq_true, slt_zero_iff]
    omega
  have signed : rVal.toInt = rVal.toNat := by
    rw [BitVec.toInt_eq_toNat_cond, if_pos (by omega)]
  rw [LowerUINT_TO_FP, positive, if_neg (by decide), sintToFP, signed, correctlyRounded,
    Int.cast_natCast]

theorem upper_half_adjusted (large : 2 ^ 31 ≤ rVal.toNat) :
    LowerUINT_TO_FP rVal = fadd (-roundMagnitude significandBits
      ((2 ^ 32 - rVal.toNat : ℕ) : ℚ)) adjustValue := by
  have bounded := rVal.isLt
  have signed : (rVal.toInt : ℚ) = -((2 ^ 32 - rVal.toNat : ℕ) : ℚ) := by
    have integer : rVal.toInt = -((2 ^ 32 - rVal.toNat : ℕ) : ℤ) := by
      rw [BitVec.toInt_eq_toNat_cond, if_neg (by omega)]
      omega
    rw [integer]
    push_cast
    rfl
  rw [LowerUINT_TO_FP, if_pos ((slt_zero_iff rVal).mpr large), sintToFP, signed,
    round_nearest_even_neg, round_nearest_even_of_nonneg _ (Nat.cast_nonneg _)]

theorem upper_half_iff (large : 2 ^ 31 ≤ rVal.toNat) :
    LowerUINT_TO_FP rVal = correctlyRounded rVal ↔ RoundsOnce rVal := by
  have bounded := rVal.isLt
  rw [upper_half_adjusted large, adjusted_magnitude large, correctlyRounded,
    round_nearest_even_of_nonneg _ (Nat.cast_nonneg _), round_upper_half large bounded.le,
    Nat.cast_inj, Nat.mul_right_inj (by decide), RoundsOnce]
  generalize rVal.toNat = value at *
  rcases Nat.lt_or_eq_of_le large with above | rfl
  · obtain ⟨exponent, few, unit⟩ := nat_unit_exponent (show 2 ^ 32 - value < 2 ^ (7 + 24) by omega)
    rw [unit, rounded_distance_mirrored few bounded, rounded_twice_iff few]
    exact (or_iff_right (Nat.not_lt.mpr large)).symm
  · have unit : natUnit significandBits (2 ^ 32 - 2 ^ 31) = 2 ^ 8 :=
      nat_unit_of_log (2 ^ 32 - 2 ^ 31) (by decide) (by decide)
    rw [unit]
    decide

/-- The conversion is correctly rounded exactly where the two roundings are one, of scalars
and in each lane of a vector. -/
theorem unsigned_conversion_iff (rVal : BitVec 32) (lanes : Fin 16 → BitVec 32) (lane : Fin 16) :
    (LowerUINT_TO_FP rVal = correctlyRounded rVal ↔ RoundsOnce rVal) ∧
      (lowerUINT_TO_FP_V lanes lane = correctlyRounded (lanes lane) ↔ RoundsOnce (lanes lane)) := by
  have scalar (operand : BitVec 32) :
      LowerUINT_TO_FP operand = correctlyRounded operand ↔ RoundsOnce operand := by
    rcases Nat.lt_or_ge operand.toNat (2 ^ 31) with small | large
    · exact iff_of_true (lower_half_rounded_once small) (Or.inl small)
    · exact upper_half_iff large
  have selected : lowerUINT_TO_FP_V lanes lane = LowerUINT_TO_FP (lanes lane) := by
    simp only [lowerUINT_TO_FP_V, maskCmpSlt, of_bits_bit]
    rfl
  rw [selected]
  exact ⟨scalar rVal, scalar (lanes lane)⟩

/-- Half the range and a hundred and twenty-nine goes to half the range, a float further off than
the next one: the first rounding moves it onto the tie. -/
theorem conversion_rounds_twice :
    LowerUINT_TO_FP 2147483777 ≠ correctlyRounded 2147483777 := by
  have upper : 2 ^ 31 ≤ (2147483777 : BitVec 32).toNat := by decide
  intro same
  exact absurd ((upper_half_iff upper).mp same) (by decide)

end Conversion

end NaplesPU.UnsignedConversion
