import Mathlib.Algebra.BigOperators.Group.Finset.Basic
import Mathlib.Algebra.CharP.Defs
import Mathlib.Algebra.Ring.GeomSum
import Mathlib.Algebra.Ring.Int.Parity
import Mathlib.Data.BitVec
import Mathlib.Data.FinEnum
import Mathlib.Data.Int.ModEq
import Mathlib.Dynamics.PeriodicPts.Defs
import Mathlib.RingTheory.Int.Basic
import Mathlib.SetTheory.Cardinal.Finite
import Mathlib.Tactic.Ring

/-!
Orbits of the maps that multiply by a constant and add another one. In a ring whose
characteristic is a power of two such a map comes back to where it started only after
as many steps as the characteristic, when the multiplier is one modulo four and the
increment is odd. A map on a finite type that needs as many steps as the type has
elements goes through all of them.
-/

namespace AffineOrbits

open Finset Function

section Iterates

variable {Scalar : Type*} [CommRing Scalar]

def affine (multiplier increment value : Scalar) : Scalar := value * multiplier + increment

/-- Every step adds the first difference times the next power of the multiplier. -/
theorem iterate_affine (multiplier increment value : Scalar) (steps : Nat) :
    (affine multiplier increment)^[steps] value =
      value + (value * (multiplier - 1) + increment) * ∑ i ∈ range steps, multiplier ^ i := by
  induction steps with
  | zero => simp
  | succ steps induction =>
      rw [iterate_succ_apply', induction, affine, geom_sum_succ]
      ring

end Iterates

section TwoAdic

variable {multiplier : Int}

theorem geom_sum_double (multiplier : Int) (count : Nat) :
    ∑ i ∈ range (2 * count), multiplier ^ i =
      (1 + multiplier ^ count) * ∑ i ∈ range count, multiplier ^ i := by
  have shifted : ∑ i ∈ range count, multiplier ^ (count + i) =
      multiplier ^ count * ∑ i ∈ range count, multiplier ^ i := by
    rw [mul_sum]
    exact sum_congr rfl fun i _ => pow_add multiplier count i
  rw [two_mul, sum_range_add, shifted]
  ring

theorem odd_geom_sum_iff (odd : Odd multiplier) (count : Nat) :
    Odd (∑ i ∈ range count, multiplier ^ i) ↔ Odd count := by
  induction count with
  | zero => simp
  | succ count induction =>
      have last : Odd (multiplier ^ count) := odd.pow
      rw [sum_range_succ, Int.odd_add, induction, Nat.odd_add_one]
      constructor
      · intro same counted
        exact Int.not_even_iff_odd.mpr last (same.mp counted)
      · intro even
        exact ⟨fun counted => absurd counted even,
          fun evenLast => absurd last (Int.not_odd_iff_even.mpr evenLast)⟩

/-- One plus a power of the multiplier is twice an odd number. -/
theorem one_add_pow (one : multiplier % 4 = 1) (count : Nat) :
    ∃ half, 1 + multiplier ^ count = 2 * half ∧ Odd half := by
  have power : multiplier ^ count % 4 = 1 := by
    have same : multiplier ^ count ≡ 1 ^ count [ZMOD 4] := Int.ModEq.pow count one
    rw [one_pow] at same
    exact same
  refine ⟨(1 + multiplier ^ count) / 2, ?_, Int.odd_iff.mpr ?_⟩ <;> omega

theorem pow_dvd_odd_mul_iff {factor value : Int} (odd : Odd factor) (width : Nat) :
    (2 : Int) ^ width ∣ factor * value ↔ (2 : Int) ^ width ∣ value := by
  have coprime : IsCoprime ((2 : Int) ^ width) factor := (Int.isCoprime_two_left.mpr odd).pow_left
  exact ⟨coprime.dvd_of_dvd_mul_left, fun divides => divides.mul_left factor⟩

/-- Two divides such a sum as often as it divides the number of its terms. -/
theorem pow_dvd_geom_sum_iff (one : multiplier % 4 = 1) (width count : Nat) :
    (2 : Int) ^ width ∣ ∑ i ∈ range count, multiplier ^ i ↔ 2 ^ width ∣ count := by
  have odd : Odd multiplier := by
    rw [Int.odd_iff]
    omega
  induction width generalizing count with
  | zero => simp
  | succ width induction =>
      rcases Nat.even_or_odd' count with ⟨half, rfl | rfl⟩
      · obtain ⟨factor, twice, oddFactor⟩ := one_add_pow one half
        rw [geom_sum_double, twice, pow_succ', pow_succ', mul_assoc,
          mul_dvd_mul_iff_left (by decide), pow_dvd_odd_mul_iff oddFactor,
          Nat.mul_dvd_mul_iff_left (by decide)]
        exact induction half
      · have oddCount : Odd (2 * half + 1) := odd_two_mul_add_one half
        have oddSum := (odd_geom_sum_iff odd (2 * half + 1)).mpr oddCount
        constructor
        · intro divides
          have two := (dvd_pow_self (2 : Int) width.succ_ne_zero).trans divides
          exact absurd (even_iff_two_dvd.mpr two) (Int.not_even_iff_odd.mpr oddSum)
        · intro divides
          have two := (dvd_pow_self 2 width.succ_ne_zero).trans divides
          exact absurd (even_iff_two_dvd.mpr two) (Nat.not_even_iff_odd.mpr oddCount)

end TwoAdic

section Period

variable {Scalar : Type*} [CommRing Scalar] {width : Nat} [CharP Scalar (2 ^ width)]
  {multiplier increment : Int}

theorem returns_iff (one : multiplier % 4 = 1) (odd : Odd increment) (value : Int) (steps : Nat) :
    (affine (multiplier : Scalar) increment)^[steps] value = value ↔ 2 ^ width ∣ steps := by
  have oddDifference : Odd (value * (multiplier - 1) + increment) := by
    have even : Even (multiplier - 1) := by
      rw [Int.even_iff]
      omega
    exact (even.mul_left value).add_odd odd
  have cast : ((value : Scalar) * (multiplier - 1) + increment) *
        ∑ i ∈ range steps, (multiplier : Scalar) ^ i =
      (((value * (multiplier - 1) + increment) * ∑ i ∈ range steps, multiplier ^ i : Int) :
        Scalar) := by
    push_cast
    rfl
  rw [iterate_affine, add_eq_left, cast, CharP.intCast_eq_zero_iff Scalar (2 ^ width), Nat.cast_pow,
    Nat.cast_ofNat, pow_dvd_odd_mul_iff oddDifference, pow_dvd_geom_sum_iff one]

theorem minimal_period_affine (one : multiplier % 4 = 1) (odd : Odd increment) (value : Int) :
    minimalPeriod (affine (multiplier : Scalar) increment) value = 2 ^ width := by
  apply Nat.dvd_antisymm
  · apply IsPeriodicPt.minimalPeriod_dvd
    exact (returns_iff one odd value (2 ^ width)).mpr dvd_rfl
  · exact (returns_iff one odd value _).mp iterate_minimalPeriod

end Period

section Orbit

variable {State : Type*} [Finite State] {step : State → State} {start : State}

/-- An orbit as long as the type is large has every value at just one place. -/
theorem exists_unique_step (whole : minimalPeriod step start = Nat.card State) (value : State) :
    ∃! count, count < Nat.card State ∧ step^[count] start = value := by
  have injective : Injective fun count : Fin (Nat.card State) => step^[count] start := by
    intro count other same
    apply Fin.ext
    exact (iterate_eq_iterate_iff_of_lt_minimalPeriod (count.isLt.trans_eq whole.symm)
      (other.isLt.trans_eq whole.symm)).mp same
  have surjective := (injective.bijective_of_nat_card_le (by simp)).2
  obtain ⟨count, reached⟩ := surjective value
  refine ⟨count, ⟨count.isLt, reached⟩, ?_⟩
  rintro other ⟨bounded, same⟩
  exact congrArg Fin.val (@injective ⟨other, bounded⟩ count (same.trans reached.symm))

end Orbit

section Words

variable {width : Nat}

instance word_char : CharP (BitVec width) (2 ^ width) where
  cast_eq_zero_iff value := by
    rw [BitVec.natCast_eq_ofNat, ← BitVec.toNat_inj, BitVec.toNat_ofNat]
    exact Nat.dvd_iff_mod_eq_zero.symm

theorem card_words : Nat.card (BitVec width) = 2 ^ width := by
  rw [Nat.card_congr BitVec.equivFin.toEquiv, Nat.card_eq_fintype_card, Fintype.card_fin]

variable {multiplier increment : BitVec width}

theorem minimal_period_words (one : multiplier.toInt % 4 = 1) (odd : Odd increment.toInt)
    (start : BitVec width) : minimalPeriod (affine multiplier increment) start = 2 ^ width := by
  have cast (word : BitVec width) : ((word.toInt : Int) : BitVec width) = word :=
    BitVec.ofInt_toInt
  have period := @minimal_period_affine (BitVec width) _ width _ _ _ one odd start.toInt
  rwa [cast, cast, cast] at period

/-- From every word the map goes through all words of the width. -/
theorem exists_unique_word (one : multiplier.toInt % 4 = 1) (odd : Odd increment.toInt)
    (start word : BitVec width) :
    ∃! count, count < 2 ^ width ∧ (affine multiplier increment)^[count] start = word := by
  rw [← card_words]
  apply exists_unique_step
  rw [minimal_period_words one odd, card_words]

end Words

end AffineOrbits
