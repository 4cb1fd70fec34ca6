import Mathlib.Data.BitVec
import Mathlib.Data.Int.Basic
import Mathlib.Data.Nat.Bitwise
import Mathlib.Tactic.Common
import Mathlib.Tactic.Positivity
import NaplesPU.Lib.TwosComplement

/-!
The division routines of the runtime library. The routines of the two widths have
the same text, so they are instances of definitions over the width; arithmetic
wraps, and the right shift of a negative value is arithmetic. The signs are the
results of a logical conjunction, so a negative operand has the sign one.
-/

set_option linter.style.nameCheck false

namespace NaplesPU.RuntimeDivision

open TwosComplement

theorem to_nat_pos {width : Nat} {divisor : BitVec width} (nonzero : divisor ≠ 0#_) :
    0 < divisor.toNat := by
  apply Nat.pos_of_ne_zero
  intro zero
  exact nonzero (BitVec.eq_of_toNat_eq (zero.trans BitVec.toNat_zero.symm))

section Routines

variable {width : Nat}

/-- The loop of the unsigned division, which counts the subtractions. -/
def subtractLoop (divisor : BitVec width) (nonzero : divisor ≠ 0#_) (dividend res : BitVec width) :
    BitVec width :=
  if divisor ≤ dividend then subtractLoop divisor nonzero (dividend - divisor) (res + 1#_) else res
termination_by dividend.toNat
decreasing_by
  rename_i within
  have positive := to_nat_pos nonzero
  rw [BitVec.toNat_sub_of_le within]
  have ordered : divisor.toNat ≤ dividend.toNat := within
  omega

def unsignedDivide (dividend divisor : BitVec width) : BitVec width :=
  if zero : dividend < divisor ∨ divisor = 0#_ then 0#_
  else subtractLoop divisor (fun same => zero (Or.inr same)) dividend 0#_

/-- The operator `&&`. -/
def logicalAnd (left right : BitVec width) : BitVec width :=
  if left ≠ 0#_ ∧ right ≠ 0#_ then 1#_ else 0#_

/-- `(value >> 31) && 1`, or with the highest bit of the other width. -/
def sign (value : BitVec width) : BitVec width := logicalAnd (value.sshiftRight (width - 1)) 1#_

/-- `(value ^ sign) - sign`. -/
def applySign (value sign : BitVec width) : BitVec width := (value ^^^ sign) - sign

def signedDivide (value1 value2 : BitVec width) : BitVec width :=
  let sign1 := sign value1
  let sign2 := sign value2
  let u_value1 := applySign value1 sign1
  let u_value2 := applySign value2 sign2
  applySign (unsignedDivide u_value1 u_value2) (sign1 ^^^ sign2)

def remainder (divide : BitVec width → BitVec width → BitVec width) (val1 val2 : BitVec width) :
    BitVec width :=
  val1 - divide val1 val2 * val2

end Routines

def __udivsi3 : BitVec 32 → BitVec 32 → BitVec 32 := unsignedDivide

def __udivdi3 : BitVec 64 → BitVec 64 → BitVec 64 := unsignedDivide

def __divsi3 : BitVec 32 → BitVec 32 → BitVec 32 := signedDivide

def __divdi3 : BitVec 64 → BitVec 64 → BitVec 64 := signedDivide

def __umodsi3 : BitVec 32 → BitVec 32 → BitVec 32 := remainder __udivsi3

def __umoddi3 : BitVec 64 → BitVec 64 → BitVec 64 := remainder __udivdi3

def __modsi3 : BitVec 32 → BitVec 32 → BitVec 32 := remainder __divsi3

def __moddi3 : BitVec 64 → BitVec 64 → BitVec 64 := remainder __divdi3

section Unsigned

variable {width : Nat}

/-- The loop adds the quotient to the count, whatever the count wraps to. -/
theorem subtract_loop_eq (divisor : BitVec width) (nonzero : divisor ≠ 0#_)
    (dividend res : BitVec width) :
    subtractLoop divisor nonzero dividend res =
      res + BitVec.ofNat width (dividend.toNat / divisor.toNat) := by
  have positive := to_nat_pos nonzero
  fun_induction subtractLoop divisor nonzero dividend res with
  | case1 dividend res within induction =>
      have quotient := Nat.div_eq_sub_div positive within
      rw [induction, BitVec.toNat_sub_of_le within, quotient, BitVec.ofNat_add, BitVec.add_assoc,
        BitVec.add_comm 1#_]
  | case2 dividend res outside =>
      have below : dividend.toNat < divisor.toNat := Nat.lt_of_not_le outside
      rw [Nat.div_eq_of_lt below, BitVec.add_zero]

theorem unsigned_divide_eq (dividend : BitVec width) {divisor : BitVec width}
    (nonzero : divisor ≠ 0#_) :
    (unsignedDivide dividend divisor).toNat = dividend.toNat / divisor.toNat := by
  have bound : dividend.toNat / divisor.toNat < 2 ^ width :=
    (Nat.div_le_self _ _).trans_lt dividend.isLt
  rw [unsignedDivide]
  split
  · next zero =>
      have below : dividend.toNat < divisor.toNat := zero.resolve_right nonzero
      rw [Nat.div_eq_of_lt below]
      exact BitVec.toNat_zero
  · rw [subtract_loop_eq, BitVec.zero_add, BitVec.toNat_ofNat, Nat.mod_eq_of_lt bound]

theorem unsigned_remainder_eq (dividend : BitVec width) {divisor : BitVec width}
    (nonzero : divisor ≠ 0#_) :
    (remainder unsignedDivide dividend divisor).toNat = dividend.toNat % divisor.toNat := by
  have whole : dividend.toNat / divisor.toNat * divisor.toNat ≤ dividend.toNat :=
    Nat.div_mul_le_self _ _
  have product : (unsignedDivide dividend divisor * divisor).toNat =
      dividend.toNat / divisor.toNat * divisor.toNat := by
    rw [BitVec.toNat_mul, unsigned_divide_eq dividend nonzero,
      Nat.mod_eq_of_lt (whole.trans_lt dividend.isLt)]
  rw [remainder, BitVec.toNat_sub_of_le (by rwa [BitVec.le_def, product]), product,
    Nat.mod_eq_sub_div_mul]

structure DividesUnsigned (n d q r : BitVec width) : Prop where
  quotient : q.toNat = n.toNat / d.toNat
  remainder : r.toNat = n.toNat % d.toNat

theorem divides_unsigned (n : BitVec width) {d : BitVec width} (nonzero : d ≠ 0#_) :
    DividesUnsigned n d (unsignedDivide n d) (remainder unsignedDivide n d) where
  quotient := unsigned_divide_eq n nonzero
  remainder := unsigned_remainder_eq n nonzero

end Unsigned

/-- In both widths the unsigned routines divide right, also where the signed counter passes
its greatest value. -/
theorem unsigned_division (n d : BitVec 32) (wideN wideD : BitVec 64) (nonzero : d ≠ 0)
    (wideNonzero : wideD ≠ 0) :
    DividesUnsigned n d (__udivsi3 n d) (__umodsi3 n d) ∧
      DividesUnsigned wideN wideD (__udivdi3 wideN wideD) (__umoddi3 wideN wideD) :=
  ⟨divides_unsigned n nonzero, divides_unsigned wideN wideNonzero⟩

/-- The quotients are above the greatest signed values. -/
theorem greatest_by_one :
    DividesUnsigned 0xffffffff 1 (__udivsi3 0xffffffff 1) (__umodsi3 0xffffffff 1) ∧
      DividesUnsigned 0xffffffffffffffff 1 (__udivdi3 0xffffffffffffffff 1)
        (__umoddi3 0xffffffffffffffff 1) :=
  unsigned_division 0xffffffff 1 0xffffffffffffffff 1 (by decide) (by decide)

section Signs

variable {width : Nat}

theorem power_double (wide : 3 ≤ width) :
    2 ^ width = 2 * 2 ^ (width - 1) ∧ 4 ≤ 2 ^ (width - 1) ∧ 2 ^ (width - 1) % 2 = 0 := by
  obtain ⟨rest, rfl⟩ : ∃ rest, width = rest + 3 := ⟨width - 3, by omega⟩
  have positive := Nat.two_pow_pos rest
  rw [show rest + 3 - 1 = rest + 2 by omega, Nat.pow_succ 2 (rest + 2), Nat.pow_succ 2 (rest + 1),
    Nat.pow_succ 2 rest]
  omega

theorem one_to_nat (wide : 3 ≤ width) : (1#_ : BitVec width).toNat = 1 := by
  obtain ⟨double, large, halfEven⟩ := power_double wide
  rw [BitVec.toNat_ofNat, Nat.mod_eq_of_lt (by omega)]

theorem sign_eq (wide : 3 ≤ width) (value : BitVec width) :
    sign value = if value.toInt < 0 then 1#_ else 0#_ := by
  obtain ⟨double, large, halfEven⟩ := power_double wide
  have one : (1#_ : BitVec width) ≠ 0#_ := by
    intro same
    have zero := congrArg BitVec.toNat same
    rw [one_to_nat wide, BitVec.toNat_zero] at zero
    cases zero
  have high : value.sshiftRight (width - 1) ≠ 0#_ ↔ value.toInt < 0 := by
    have lower := value.le_toInt
    have upper := value.toInt_lt
    rw [← not_iff_not, not_not, ← BitVec.toInt_inj, BitVec.toInt_sshiftRight, BitVec.toInt_zero,
      Int.shiftRight_eq_div_pow, Int.not_lt, Int.natCast_pow]
    constructor
    · intro zero
      exact (Int.ediv_nonneg_iff_of_pos (by positivity)).mp zero.ge
    · intro nonneg
      exact Int.ediv_eq_zero_of_lt nonneg upper
  rw [sign, logicalAnd]
  simp only [high, one, ne_eq, not_false_eq_true, and_true]

theorem apply_sign_zero (value : BitVec width) : applySign value 0#_ = value := by
  rw [applySign, BitVec.xor_zero, BitVec.sub_zero]

/-- What the sign one makes of a value: an even one stays, an odd one loses two. -/
theorem apply_sign_one (wide : 3 ≤ width) (value : BitVec width) :
    (applySign value 1#_).toNat =
      if value.toNat % 2 = 0 then value.toNat else (value.toNat + 2 ^ width - 2) % 2 ^ width := by
  obtain ⟨double, large, halfEven⟩ := power_double wide
  have bound := value.isLt
  rw [applySign, BitVec.toNat_sub, BitVec.toNat_xor, one_to_nat wide]
  by_cases even : value.toNat % 2 = 0
  · rw [if_pos even, Nat.xor_one_of_even (Nat.even_iff.mpr even),
      show 2 ^ width - 1 + (value.toNat + 1) = value.toNat + 2 ^ width by omega, Nat.add_mod_right,
      Nat.mod_eq_of_lt bound]
  · have odd := Nat.odd_iff.mpr (Nat.mod_two_ne_zero.mp even)
    have positive : 1 ≤ value.toNat := odd.pos
    rw [if_neg even, Nat.xor_one_of_odd odd,
      show 2 ^ width - 1 + (value.toNat - 1) = value.toNat + 2 ^ width - 2 by omega]

theorem nonneg_operand {value : BitVec width} (nonneg : 0 ≤ value.toInt) :
    (value.toNat : Int) = value.toInt := by
  have bound := value.isLt
  rw [BitVec.toInt_eq_toNat_cond] at nonneg ⊢
  split
  · rfl
  · next high =>
      rw [if_neg high] at nonneg
      omega

theorem negative_operand (wide : 3 ≤ width) {value : BitVec width} (negative : value.toInt < 0) :
    ((applySign value 1#_).toNat : Int) = 2 ^ width + value.toInt - 2 * (value.toInt % 2) := by
  obtain ⟨double, large, halfEven⟩ := power_double wide
  have bound := value.isLt
  have cast : ((2 ^ width : Nat) : Int) = 2 ^ width := Int.natCast_pow 2 width
  have reading : value.toInt = (value.toNat : Int) - (2 ^ width : Nat) ∧
      2 ^ (width - 1) ≤ value.toNat := by
    rw [BitVec.toInt_eq_toNat_cond] at negative ⊢
    split at negative
    · omega
    · next high =>
        rw [if_neg high]
        exact ⟨rfl, by omega⟩
  rw [apply_sign_one wide, ← cast]
  split
  · omega
  · next odd =>
      rw [Nat.mod_eq_sub_mod (by omega), Nat.mod_eq_of_lt (by omega)]
      omega

theorem negated_small (wide : 3 ≤ width) {value : BitVec width}
    (small : value.toNat < 2 ^ (width - 1)) :
    (applySign value 1#_).toInt = (value.toNat : Int) - 2 * (value.toNat % 2 : Nat) := by
  obtain ⟨double, large, halfEven⟩ := power_double wide
  rw [BitVec.toInt_eq_toNat_cond, apply_sign_one wide]
  by_cases even : value.toNat % 2 = 0
  · rw [if_pos even, if_pos (by omega), even]
    omega
  · rw [if_neg even, Nat.mod_two_ne_zero.mp even]
    by_cases unit : value.toNat = 1
    · rw [unit, Nat.mod_eq_of_lt (by omega), if_neg (by omega)]
      omega
    · rw [Nat.mod_eq_sub_mod (by omega), Nat.mod_eq_of_lt (by omega), if_pos (by omega)]
      omega

end Signs

/-- The operands whose quotient comes out right: those without a sign, and those whose sign
does no harm. -/
def SignsHarmless (width : Nat) (n d : Int) : Prop :=
  (0 ≤ n ∧ 0 < d) ∨
  (0 ≤ n ∧ d < 0 ∧ (n < -d ∨ d = 1 - 2 ^ (width - 1))) ∨
  (n < 0 ∧ 0 < d ∧ (d = 1 ∧ n % 2 = 0 ∨ d ≤ -n ∧ 2 ^ width + n - 2 * (n % 2) < 2 * d)) ∨
  (n < 0 ∧ d < 0 ∧ (n = d ∨ d % 2 = 0 ∧ n = d + 1 ∨ d % 2 = 1 ∧ n = d - 1 ∧ d ≠ -1))

section Magnitudes

variable {half dividend divisor reading otherReading : Nat}

/-- A negative number reads as one in the upper half, or just below it. -/
theorem misread_bounds (halfEven : half % 2 = 0) (large : 4 ≤ half) (positive : 0 < dividend)
    (bound : dividend ≤ half) (reads : reading = 2 * half - dividend - 2 * (dividend % 2)) :
    half - 1 ≤ reading ∧ reading + 2 ≤ 2 * half ∧ (dividend ≠ half - 1 → half ≤ reading) := by
  rcases Nat.mod_two_eq_zero_or_one dividend with even | odd <;> omega

/-- A negative divisor reads as a number that is mostly too large to divide by. -/
theorem negative_divisor_iff (halfEven : half % 2 = 0) (large : 4 ≤ half)
    (dividendBound : dividend < half) (positive : 0 < divisor) (divisorBound : divisor ≤ half)
    (reads : reading = 2 * half - divisor - 2 * (divisor % 2)) :
    dividend / reading < half ∧
      (((dividend / reading : Nat) : Int) - 2 * (dividend / reading % 2 : Nat) =
          -((dividend / divisor : Nat) : Int) ↔
        dividend < divisor ∨ divisor = half - 1) := by
  by_cases exception : divisor = half - 1
  · have same : reading = divisor := by omega
    rw [same]
    by_cases below : dividend < divisor
    · rw [Nat.div_eq_of_lt below]
      omega
    · have unit : dividend / divisor = 1 := (Nat.div_eq_iff positive).mpr (by omega)
      rw [unit]
      omega
  · obtain ⟨-, -, upper⟩ := misread_bounds halfEven large positive divisorBound reads
    have above : half ≤ reading := upper exception
    have zero : dividend / reading = 0 := Nat.div_eq_of_lt (by omega)
    rw [zero]
    have whole : dividend / divisor = 0 ↔ dividend < divisor := by
      rw [Nat.div_eq_zero_iff]
      omega
    omega

/-- A negative dividend reads as a number close to the modulus, whose quotient is a negative
number only when the divisor is one, or when it is one itself and then loses two. -/
theorem negative_dividend_iff (halfEven : half % 2 = 0) (large : 4 ≤ half) (dividendPos : 0 < dividend)
    (dividendBound : dividend ≤ half) (positive : 1 < divisor) (divisorBound : divisor < half)
    (reads : reading = 2 * half - dividend - 2 * (dividend % 2)) :
    reading / divisor < half ∧
      (((reading / divisor : Nat) : Int) - 2 * (reading / divisor % 2 : Nat) =
          -((dividend / divisor : Nat) : Int) ↔
        divisor ≤ dividend ∧ reading < 2 * divisor) := by
  have small : reading / divisor < half := by
    rw [Nat.div_lt_iff_lt_mul (by omega)]
    have double := Nat.mul_le_mul_left half positive
    omega
  refine ⟨small, ?_⟩
  obtain ⟨above, -, upper⟩ := misread_bounds halfEven large dividendPos dividendBound reads
  have unit : reading / divisor = 1 ↔ reading < 2 * divisor := by
    rw [Nat.div_eq_iff (by omega)]
    omega
  have positiveQuotient : 0 < reading / divisor := Nat.div_pos (by omega) (by omega)
  by_cases one : reading / divisor = 1
  · have short := unit.mp one
    have ordered : dividend ≤ reading := by omega
    have wholeUnit : dividend / divisor = 1 ↔ divisor ≤ dividend := by
      rw [Nat.div_eq_iff (by omega)]
      omega
    rw [one]
    generalize dividend / divisor = whole at wholeUnit ⊢
    omega
  · generalize dividend / divisor = whole
    generalize reading / divisor = quotient at unit positiveQuotient one ⊢
    omega

/-- Two negative operands read as numbers in the upper half. -/
theorem negative_operands_iff (halfEven : half % 2 = 0) (large : 4 ≤ half)
    (dividendPos : 0 < dividend) (dividendBound : dividend ≤ half) (positive : 0 < divisor)
    (divisorBound : divisor ≤ half)
    (reads : reading = 2 * half - dividend - 2 * (dividend % 2))
    (otherReads : otherReading = 2 * half - divisor - 2 * (divisor % 2)) :
    reading / otherReading < half ∧
      (reading / otherReading = dividend / divisor ↔
        dividend = divisor ∨ divisor % 2 = 0 ∧ dividend + 1 = divisor ∨
          divisor % 2 = 1 ∧ dividend = divisor + 1 ∧ divisor ≠ 1) := by
  obtain ⟨-, readingBound, -⟩ := misread_bounds halfEven large dividendPos dividendBound reads
  obtain ⟨otherBound, -, -⟩ := misread_bounds halfEven large positive divisorBound otherReads
  have otherPos : 0 < otherReading := by omega
  rcases Nat.lt_or_ge reading otherReading with below | above
  · have zero : reading / otherReading = 0 := Nat.div_eq_of_lt below
    have whole : 0 = dividend / divisor ↔ dividend < divisor := by
      rw [eq_comm, Nat.div_eq_zero_iff]
      omega
    rw [zero, whole]
    omega
  · rcases Nat.lt_or_ge reading (2 * otherReading) with single | double
    · have one : reading / otherReading = 1 := (Nat.div_eq_iff otherPos).mpr (by omega)
      have whole : 1 = dividend / divisor ↔ divisor ≤ dividend ∧ dividend < 2 * divisor := by
        rw [eq_comm, Nat.div_eq_iff positive]
        omega
      rw [one, whole]
      rcases Nat.mod_two_eq_zero_or_one dividend with even | odd <;>
        rcases Nat.mod_two_eq_zero_or_one divisor with otherEven | otherOdd <;> omega
    · have two : reading / otherReading = 2 := (Nat.div_eq_iff otherPos).mpr (by omega)
      have whole : 2 = dividend / divisor ↔ 2 * divisor ≤ dividend ∧ dividend < 3 * divisor := by
        rw [eq_comm, Nat.div_eq_iff positive]
        omega
      rw [two, whole]
      omega

end Magnitudes

instance (width : Nat) (n d : Int) : Decidable (SignsHarmless width n d) :=
  inferInstanceAs (Decidable (_ ∨ _ ∨ _ ∨ _))

section Quotients

variable {width : Nat} {n d : BitVec width}

theorem signed_divide_eq (wide : 3 ≤ width) (n d : BitVec width) :
    signedDivide n d =
      if n.toInt < 0 then
        if d.toInt < 0 then unsignedDivide (applySign n 1#_) (applySign d 1#_)
        else applySign (unsignedDivide (applySign n 1#_) d) 1#_
      else
        if d.toInt < 0 then applySign (unsignedDivide n (applySign d 1#_)) 1#_
        else unsignedDivide n d := by
  rw [signedDivide, sign_eq wide, sign_eq wide]
  split <;> split <;> simp only [BitVec.xor_self, BitVec.xor_zero, BitVec.zero_xor, apply_sign_zero]

theorem small_to_int (wide : 3 ≤ width) {value : BitVec width}
    (small : value.toNat < 2 ^ (width - 1)) : value.toInt = value.toNat := by
  obtain ⟨double, large, halfEven⟩ := power_double wide
  exact BitVec.toInt_eq_toNat_of_lt (by omega)

theorem negative_magnitude (wide : 3 ≤ width) {value : BitVec width} (negative : value.toInt < 0) :
    ∃ magnitude, value.toInt = -(magnitude : Nat) ∧ 0 < magnitude ∧ magnitude ≤ 2 ^ (width - 1) ∧
      (applySign value 1#_).toNat =
        2 * 2 ^ (width - 1) - magnitude - 2 * (magnitude % 2) := by
  obtain ⟨double, large, halfEven⟩ := power_double wide
  have cast : ((2 ^ width : Nat) : Int) = 2 ^ width := Int.natCast_pow 2 width
  have halfCast : ((2 ^ (width - 1) : Nat) : Int) = 2 ^ (width - 1) := Int.natCast_pow 2 (width - 1)
  have lower := value.le_toInt
  have reading := negative_operand wide negative
  refine ⟨value.toInt.natAbs, by omega, by omega, by omega, ?_⟩
  omega

theorem nonneg_magnitude {value : BitVec width} (nonneg : ¬ value.toInt < 0) :
    value.toInt = value.toNat ∧ value.toNat < 2 ^ (width - 1) := by
  have reading := nonneg_operand (Int.not_lt.mp nonneg)
  have upper := value.toInt_lt
  have halfCast : ((2 ^ (width - 1) : Nat) : Int) = 2 ^ (width - 1) := Int.natCast_pow 2 (width - 1)
  omega

theorem apply_sign_nonzero (wide : 3 ≤ width) {value : BitVec width} (negative : value.toInt < 0) :
    applySign value 1#_ ≠ 0#_ := by
  obtain ⟨double, large, halfEven⟩ := power_double wide
  obtain ⟨magnitude, -, positive, bound, reads⟩ := negative_magnitude wide negative
  obtain ⟨above, -, -⟩ := misread_bounds halfEven large positive bound reads
  intro zero
  rw [zero, BitVec.toNat_zero] at above
  omega

theorem half_power_cast : ((2 ^ (width - 1) : Nat) : Int) = 2 ^ (width - 1) :=
  Int.natCast_pow 2 (width - 1)

theorem negatives_quotient_iff (wide : 3 ≤ width) (negative : n.toInt < 0)
    (divisorNegative : d.toInt < 0) :
    (unsignedDivide (applySign n 1#_) (applySign d 1#_)).toInt = n.toInt.tdiv d.toInt ↔
      SignsHarmless width n.toInt d.toInt := by
  obtain ⟨-, large, halfEven⟩ := power_double wide
  obtain ⟨dividend, reading, dividendPos, dividendBound, reads⟩ := negative_magnitude wide negative
  obtain ⟨divisor, divisorReading, divisorPos, divisorBound, divisorReads⟩ :=
    negative_magnitude wide divisorNegative
  obtain ⟨small, iff⟩ := negative_operands_iff halfEven large dividendPos dividendBound divisorPos
    divisorBound reads divisorReads
  have quotient := unsigned_divide_eq (applySign n 1#_) (apply_sign_nonzero wide divisorNegative)
  rw [small_to_int wide (by rwa [quotient]), quotient, reading, divisorReading, Int.neg_tdiv_neg,
    ← Int.ofNat_tdiv, Int.natCast_inj, iff, SignsHarmless]
  clear small iff quotient reads divisorReads
  omega

theorem unit_quotient_iff (wide : 3 ≤ width) (negative : n.toInt < 0) :
    (applySign (applySign n 1#_) 1#_).toInt = n.toInt ↔ n.toInt % 2 = 0 := by
  obtain ⟨double, large, halfEven⟩ := power_double wide
  obtain ⟨dividend, reading, dividendPos, dividendBound, reads⟩ := negative_magnitude wide negative
  have twice := apply_sign_one wide (applySign n 1#_)
  rw [reads] at twice
  rw [reading, BitVec.toInt_eq_toNat_cond]
  rcases Nat.mod_two_eq_zero_or_one dividend with even | odd
  · rw [if_pos (by omega)] at twice
    omega
  · rw [if_neg (by omega), Nat.mod_eq_sub_mod (by omega), Nat.mod_eq_of_lt (by omega)] at twice
    split <;> omega

theorem negative_dividend_quotient_iff (wide : 3 ≤ width) (nonzero : d ≠ 0#_)
    (negative : n.toInt < 0) (divisorNonneg : ¬ d.toInt < 0) :
    (applySign (unsignedDivide (applySign n 1#_) d) 1#_).toInt = n.toInt.tdiv d.toInt ↔
      SignsHarmless width n.toInt d.toInt := by
  obtain ⟨double, large, halfEven⟩ := power_double wide
  obtain ⟨dividend, reading, dividendPos, dividendBound, reads⟩ := negative_magnitude wide negative
  obtain ⟨divisorReading, divisorBound⟩ := nonneg_magnitude divisorNonneg
  have positive : 0 < d.toNat := to_nat_pos nonzero
  have cast : ((2 ^ width : Nat) : Int) = 2 ^ width := Int.natCast_pow 2 width
  have quotient := unsigned_divide_eq (applySign n 1#_) nonzero
  rcases Nat.lt_or_ge 1 d.toNat with many | single
  · obtain ⟨small, iff⟩ := negative_dividend_iff halfEven large dividendPos dividendBound many
      divisorBound reads
    rw [negated_small wide (by rwa [quotient]), quotient, reading, divisorReading, Int.neg_tdiv,
      ← Int.ofNat_tdiv, iff, reads, SignsHarmless, ← cast]
    clear small iff quotient reads
    rcases Nat.mod_two_eq_zero_or_one dividend with even | odd <;> omega
  · have unit : d.toNat = 1 := by omega
    have same : unsignedDivide (applySign n 1#_) d = applySign n 1#_ := by
      apply BitVec.eq_of_toNat_eq
      rw [quotient, unit, Nat.div_one]
    rw [same, divisorReading, unit, Int.natCast_one, Int.tdiv_one, unit_quotient_iff wide negative,
      SignsHarmless, ← cast]
    clear quotient same
    omega

theorem negative_divisor_quotient_iff (wide : 3 ≤ width) (nonneg : ¬ n.toInt < 0)
    (divisorNegative : d.toInt < 0) :
    (applySign (unsignedDivide n (applySign d 1#_)) 1#_).toInt = n.toInt.tdiv d.toInt ↔
      SignsHarmless width n.toInt d.toInt := by
  obtain ⟨-, large, halfEven⟩ := power_double wide
  obtain ⟨reading, bound⟩ := nonneg_magnitude nonneg
  obtain ⟨divisor, divisorReading, divisorPos, divisorBound, divisorReads⟩ :=
    negative_magnitude wide divisorNegative
  obtain ⟨small, iff⟩ := negative_divisor_iff halfEven large bound divisorPos divisorBound
    divisorReads
  have quotient := unsigned_divide_eq n (apply_sign_nonzero wide divisorNegative)
  rw [negated_small wide (by rwa [quotient]), quotient, reading, divisorReading, Int.tdiv_neg,
    ← Int.ofNat_tdiv, iff, SignsHarmless, ← half_power_cast]
  clear small iff quotient divisorReads
  omega

theorem nonneg_quotient (wide : 3 ≤ width) (nonzero : d ≠ 0#_) (nonneg : ¬ n.toInt < 0)
    (divisorNonneg : ¬ d.toInt < 0) :
    (unsignedDivide n d).toInt = n.toInt.tdiv d.toInt ∧ SignsHarmless width n.toInt d.toInt := by
  obtain ⟨reading, bound⟩ := nonneg_magnitude nonneg
  obtain ⟨divisorReading, -⟩ := nonneg_magnitude divisorNonneg
  have positive : 0 < d.toNat := to_nat_pos nonzero
  have quotient := unsigned_divide_eq n nonzero
  have small : n.toNat / d.toNat < 2 ^ (width - 1) := (Nat.div_le_self _ _).trans_lt bound
  constructor
  · rw [small_to_int wide (by rwa [quotient]), quotient, reading, divisorReading, ← Int.ofNat_tdiv]
  · exact Or.inl ⟨by omega, by omega⟩

/-- For all operands that the division of two's complement numbers is defined on, the quotient
is the truncated one exactly if the signs do no harm. -/
theorem signed_divide_iff (wide : 3 ≤ width) (n : BitVec width) (nonzero : d ≠ 0#_) :
    (signedDivide n d).toInt = n.toInt.tdiv d.toInt ↔ SignsHarmless width n.toInt d.toInt := by
  rw [signed_divide_eq wide]
  split
  case isTrue negative =>
    split
    case isTrue divisorNegative => exact negatives_quotient_iff wide negative divisorNegative
    case isFalse divisorNonneg =>
      exact negative_dividend_quotient_iff wide nonzero negative divisorNonneg
  case isFalse nonneg =>
    split
    case isTrue divisorNegative => exact negative_divisor_quotient_iff wide nonneg divisorNegative
    case isFalse divisorNonneg =>
      obtain ⟨right, harmless⟩ := nonneg_quotient wide nonzero nonneg divisorNonneg
      exact iff_of_true right harmless

structure DividesSigned (n d q r : BitVec width) : Prop where
  quotient : q.toInt = n.toInt.tdiv d.toInt
  division : n.toInt = q.toInt * d.toInt + r.toInt
  bounded : r.toInt.natAbs < d.toInt.natAbs
  sign : r.toInt = 0 ∨ r.toInt.sign = n.toInt.sign

theorem int_nonzero (nonzero : d ≠ 0#_) : d.toInt ≠ 0 := by
  intro zero
  exact nonzero (BitVec.toInt_inj.mp (zero.trans BitVec.toInt_zero.symm))

/-- A truncated remainder is smaller than the divisor, so it does not wrap. -/
theorem truncated_remainder_fits (wide : 3 ≤ width) (nonzero : d ≠ 0#_) :
    (n.toInt.tmod d.toInt).bmod (2 ^ width) = n.toInt.tmod d.toInt := by
  have positive := Int.natAbs_pos.mpr (int_nonzero nonzero)
  have small : (n.toInt.tmod d.toInt).natAbs < d.toInt.natAbs := by
    rw [Int.natAbs_tmod]
    exact Nat.mod_lt _ positive
  have lower := d.le_toInt
  have upper := d.toInt_lt
  rw [bmod_eq_self_iff (by omega)]
  constructor <;> omega

theorem remainder_to_int (wide : 3 ≤ width) (nonzero : d ≠ 0#_)
    {divide : BitVec width → BitVec width → BitVec width}
    (right : (divide n d).toInt = n.toInt.tdiv d.toInt) :
    (remainder divide n d).toInt = n.toInt.tmod d.toInt := by
  rw [remainder, BitVec.toInt_sub, BitVec.toInt_mul, right, Int.sub_bmod_bmod, Int.mul_comm,
    ← Int.tmod_def, truncated_remainder_fits wide nonzero]

theorem divides_signed_iff (wide : 3 ≤ width) (n : BitVec width) (nonzero : d ≠ 0#_) :
    DividesSigned n d (signedDivide n d) (remainder signedDivide n d) ↔
      SignsHarmless width n.toInt d.toInt := by
  rw [← signed_divide_iff wide n nonzero]
  constructor
  · intro divides
    exact divides.quotient
  · intro right
    have rest := remainder_to_int wide nonzero right
    refine ⟨right, ?_, ?_, ?_⟩
    · rw [right, rest, Int.tdiv_mul_add_tmod]
    · rw [rest, Int.natAbs_tmod]
      exact Nat.mod_lt _ (Int.natAbs_pos.mpr (int_nonzero nonzero))
    · rw [rest, Int.sign_tmod]
      by_cases divisible : d.toInt ∣ n.toInt
      · exact Or.inl (Int.tmod_eq_zero_of_dvd divisible)
      · exact Or.inr (if_neg divisible)

end Quotients

/-- In both widths the routines divide right exactly where the signs do no harm. -/
theorem signed_division_iff (n d : BitVec 32) (wideN wideD : BitVec 64) (nonzero : d ≠ 0)
    (wideNonzero : wideD ≠ 0) :
    (DividesSigned n d (__divsi3 n d) (__modsi3 n d) ↔ SignsHarmless 32 n.toInt d.toInt) ∧
      (DividesSigned wideN wideD (__divdi3 wideN wideD) (__moddi3 wideN wideD) ↔
        SignsHarmless 64 wideN.toInt wideD.toInt) :=
  ⟨divides_signed_iff (by decide) n nonzero, divides_signed_iff (by decide) wideN wideNonzero⟩

theorem seven_by_two :
    DividesSigned 7 2 (__divsi3 7 2) (__modsi3 7 2) ∧
      DividesSigned 7 2 (__divdi3 7 2) (__moddi3 7 2) := by
  have divided := signed_division_iff 7 2 7 2 (by decide) (by decide)
  exact ⟨divided.1.mpr (by decide), divided.2.mpr (by decide)⟩

/-- The quotient of minus four by two is not minus two. -/
theorem negative_dividend_misread :
    ¬ ((∀ n d : BitVec 32, d ≠ 0 → ¬ (n = BitVec.intMin 32 ∧ d = -1) →
        DividesSigned n d (__divsi3 n d) (__modsi3 n d)) ∧
      (∀ n d : BitVec 64, d ≠ 0 → ¬ (n = BitVec.intMin 64 ∧ d = -1) →
        DividesSigned n d (__divdi3 n d) (__moddi3 n d))) := by
  rintro ⟨divides, -⟩
  have nonzero : (2 : BitVec 32) ≠ 0 := by decide
  have harmless := (divides_signed_iff (by decide) (-4) nonzero).mp
    (divides (-4) 2 nonzero (by decide))
  exact absurd harmless (by decide)

end NaplesPU.RuntimeDivision
