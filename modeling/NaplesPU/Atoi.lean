import Mathlib.Data.Nat.Digits.Defs
import NaplesPU.Numerals

/-!
The library's `atoi`. It adds the code of a digit before it subtracts that of zero, so it passes
through values above the result.
-/

namespace NaplesPU.Atoi

open ByteMemory CStrings Ctype Machine Numerals Scanning

section Routine

/-- The value so far, and the exact results of the signed operations that led to it. -/
structure Accumulator where
  v : Word
  computed : List Int

/-- `v=v*10+*s-'0'`, from left to right. -/
def Accumulator.next (accumulator : Accumulator) (byte : Byte) : Accumulator :=
  let scaled := accumulator.v * 10
  let added := scaled + charValue byte
  ⟨added - 0x30, accumulator.computed ++
    [accumulator.v.toInt * 10, scaled.toInt + (charValue byte).toInt, added.toInt - 0x30]⟩

def Accumulator.negate (accumulator : Accumulator) : Accumulator :=
  ⟨-accumulator.v, accumulator.computed ++ [-accumulator.v.toInt]⟩

variable {memory : Memory 32}

def atoi (terminated : Terminated memory) (s : Word) : Accumulator :=
  let signed := readSign memory (skipSpaces terminated s)
  let accumulator := (scanDigits terminated Accumulator.next signed.2 ⟨0, []⟩).2
  if signed.1 = -1 then accumulator.negate else accumulator

end Routine

section Values

def decimalValue (digits : List Byte) : Nat := Nat.ofDigits 10 (digits.map digitValue).reverse

/-- The bytes of a string begin with blanks, a sign, and a numeral that ends before the rest. -/
structure Spells (bytes blanks sign digits rest : List Byte) : Prop where
  parts : bytes = blanks ++ (sign ++ (digits ++ rest))
  allBlank : ∀ byte ∈ blanks, blank byte = true
  isSign : Sign sign
  allDigits : ∀ byte ∈ digits, digit byte = true
  nonempty : digits ≠ []
  ended : Stops digit rest

variable {bytes blanks sign digits rest : List Byte}

theorem decimal_value_concat (digits : List Byte) (byte : Byte) :
    decimalValue (digits ++ [byte]) = 10 * decimalValue digits + digitValue byte := by
  rw [decimalValue, List.map_append, List.map_singleton, List.reverse_append,
    List.reverse_singleton, List.singleton_append, Nat.ofDigits_cons, Nat.add_comm]
  rfl

theorem Spells.scanned (spells : Spells bytes blanks sign digits rest) :
    leadingSign (bytes.dropWhile blank) = sign ∧ (unsignedPart bytes).takeWhile digit = digits := by
  have unsigned : Stops signCharacter (digits ++ rest) :=
    digits_stop spells.allDigits spells.nonempty fun byte isDigit => (digit_outside isDigit).2
  have notBlank : Stops blank (digits ++ rest) :=
    digits_stop spells.allDigits spells.nonempty fun byte isDigit => (digit_outside isDigit).1
  have parts := parts_of_append spells.allBlank spells.isSign notBlank unsigned
  rw [spells.parts, parts.2.1, parts.2.2]
  exact ⟨rfl, take_while_run spells.allDigits spells.ended⟩

end Values

section Results

variable {memory : Memory 32} {s : Word} {blanks sign digits rest : List Byte}

theorem char_value_add {byte : Byte} (isDigit : digit byte = true) :
    charValue byte = BitVec.ofNat 32 (digitValue byte) + 0x30 := by
  revert byte
  decide

/-- The digits are accumulated modulo the range of a word. -/
theorem accumulated_value (allDigits : ∀ byte ∈ digits, digit byte = true) :
    (digits.foldl Accumulator.next ⟨0, []⟩).v = BitVec.ofNat 32 (decimalValue digits) := by
  induction digits using List.reverseRecOn with
  | nil => rfl
  | append_singleton digits byte induction =>
      have isDigit := allDigits byte (by simp)
      have before := induction fun other member => allDigits other (by simp [member])
      rw [List.foldl_append, List.foldl_cons, List.foldl_nil, Accumulator.next,
        decimal_value_concat, before, char_value_add isDigit, ← BitVec.add_assoc,
        BitVec.add_sub_cancel, BitVec.mul_comm, BitVec.ofNat_add, BitVec.ofNat_mul]
      rfl

theorem small_to_int {value : Nat} (small : value < 2147483648) :
    (BitVec.ofNat 32 value).toInt = value := by
  have remainder : value % 2 ^ 32 = value := Nat.mod_eq_of_lt (by omega)
  rw [BitVec.toInt_eq_toNat_of_lt]
  · rw [BitVec.toNat_ofNat, remainder]
  · rw [BitVec.toNat_ofNat, remainder]
    omega

/-- The operations for one more digit stay in range if the result plus the code of zero does. -/
theorem next_in_range_iff {value : Nat} {byte : Byte} (isDigit : digit byte = true)
    (bounded : 10 * value + digitValue byte ≤ 2147483648) (computed : List Int) :
    (∀ result ∈ (Accumulator.next ⟨BitVec.ofNat 32 value, computed⟩ byte).computed,
        InRange result) ↔
      (∀ result ∈ computed, InRange result) ∧
        ((10 * value + digitValue byte : Nat) : Int) + 0x30 ≤ INT_MAX := by
  have before : (BitVec.ofNat 32 value).toInt = value := small_to_int (by omega)
  have scaledValue : BitVec.ofNat 32 value * 10 = BitVec.ofNat 32 (10 * value) := by
    rw [BitVec.ofNat_mul, BitVec.mul_comm]
    rfl
  have scaled : (BitVec.ofNat 32 (10 * value)).toInt = (10 * value : Nat) :=
    small_to_int (by omega)
  have addedValue : BitVec.ofNat 32 (10 * value) + charValue byte =
      BitVec.ofNat 32 (10 * value + digitValue byte + 0x30) := by
    rw [char_value_add isDigit, ← BitVec.add_assoc, ← BitVec.ofNat_add]
    exact (BitVec.ofNat_add _ _).symm
  have character := char_value_digit isDigit
  rw [Accumulator.next, List.forall_mem_append]
  apply and_congr_right
  intro earlier
  rw [List.forall_mem_cons, List.forall_mem_cons, List.forall_mem_singleton, scaledValue,
    addedValue, before, scaled, character, InRange, InRange, InRange, INT_MIN, INT_MAX]
  constructor
  · rintro ⟨first, second, third⟩
    omega
  · intro fits
    rw [small_to_int (by omega)]
    omega

theorem computed_in_range_iff (allDigits : ∀ byte ∈ digits, digit byte = true)
    (bounded : decimalValue digits ≤ 2147483648) :
    (∀ result ∈ (digits.foldl Accumulator.next ⟨0, []⟩).computed, InRange result) ↔
      (decimalValue digits : Int) + 0x30 ≤ INT_MAX := by
  induction digits using List.reverseRecOn with
  | nil => exact iff_of_true (List.forall_mem_nil _) (by decide)
  | append_singleton digits byte induction =>
      have isDigit := allDigits byte (by simp)
      have others : ∀ other ∈ digits, digit other = true :=
        fun other member => allDigits other (by simp [member])
      rw [decimal_value_concat] at bounded ⊢
      have before := induction others (by omega)
      have value := accumulated_value others
      rw [List.foldl_append, List.foldl_cons, List.foldl_nil]
      generalize digits.foldl Accumulator.next ⟨0, []⟩ = accumulator at before value
      obtain ⟨v, computed⟩ := accumulator
      dsimp only at value
      rw [value, next_in_range_iff isDigit bounded, before]
      constructor
      · exact And.right
      · intro fits
        exact ⟨by omega, fits⟩

structure Exact (value : Int) (outcome : Accumulator) : Prop where
  value : outcome.v.toInt = value
  computed : ∀ result ∈ outcome.computed, InRange result

theorem sign_value_cases (sign : List Byte) : signValue sign = -1 ∨ signValue sign = 1 := by
  rw [signValue]
  split
  · exact Or.inl rfl
  · exact Or.inr rfl

theorem atoi_spelled (terminated : Terminated memory)
    (spells : Spells (text terminated s) blanks sign digits rest) :
    atoi terminated s =
      if signValue sign = -1 then (digits.foldl Accumulator.next ⟨0, []⟩).negate
      else digits.foldl Accumulator.next ⟨0, []⟩ := by
  obtain ⟨signed, taken⟩ := spells.scanned
  obtain ⟨start, behind⟩ := read_sign_skip_spaces terminated s
  rw [atoi, scan_digits_eq, behind, taken, start, signed]

theorem accumulated_exact_iff (allDigits : ∀ byte ∈ digits, digit byte = true)
    (inRange : InRange (signValue sign * decimalValue digits)) :
    Exact (signValue sign * decimalValue digits)
        (if signValue sign = -1 then (digits.foldl Accumulator.next ⟨0, []⟩).negate
          else digits.foldl Accumulator.next ⟨0, []⟩) ↔
      (decimalValue digits : Int) + 0x30 ≤ INT_MAX := by
  have negative := sign_value_cases sign
  have bounded : decimalValue digits ≤ 2147483648 := by
    rw [InRange, INT_MIN, INT_MAX] at inRange
    rcases negative with minus | plus
    · rw [minus] at inRange
      omega
    · rw [plus] at inRange
      omega
  have computed := computed_in_range_iff allDigits bounded
  have value := accumulated_value allDigits
  constructor
  · intro exactly
    apply computed.mp
    intro result member
    apply exactly.computed
    split
    · exact List.mem_append_left _ member
    · exact member
  · intro fits
    have inside := computed.mpr fits
    rw [INT_MAX] at fits
    have small : (BitVec.ofNat 32 (decimalValue digits)).toInt = decimalValue digits :=
      small_to_int (by omega)
    rcases negative with minus | plus
    · rw [minus, if_pos rfl, neg_one_mul]
      constructor
      · rw [Accumulator.negate, value, BitVec.toInt_neg, small]
        exact Int.bmod_eq_of_le (by omega) (by omega)
      · rw [Accumulator.negate, List.forall_mem_append, List.forall_mem_singleton, value, small,
          InRange, INT_MIN, INT_MAX]
        exact ⟨inside, by omega, by omega⟩
    · rw [plus, if_neg (by decide), one_mul]
      exact ⟨by rw [value, small], inside⟩

/-- `atoi` is exact if the magnitude plus the code of zero is in range. -/
theorem atoi_exact_iff (terminated : Terminated memory)
    (spells : Spells (text terminated s) blanks sign digits rest)
    (inRange : InRange (signValue sign * decimalValue digits)) :
    Exact (signValue sign * decimalValue digits) (atoi terminated s) ↔
      (decimalValue digits : Int) + 0x30 ≤ INT_MAX := by
  rw [atoi_spelled terminated spells]
  exact accumulated_exact_iff spells.allDigits inRange

/-- A blank, a minus, and a numeral. -/
def minusTwelve : List Byte := [0x20, 0x2d, 0x31, 0x32]

theorem minus_twelve_short : minusTwelve.length < 2 ^ 32 := by decide

theorem minus_twelve_spells :
    Spells (text (holding_terminated minus_twelve_short) 0) [0x20] [0x2d] [0x31, 0x32] [] := by
  rw [text_holding minus_twelve_short (by decide)]
  exact ⟨rfl, by decide, Or.inr (Or.inr rfl), by decide, by decide, stops_nil⟩

theorem minus_twelve_exact :
    Exact (signValue [0x2d] * decimalValue [0x31, 0x32])
      (atoi (holding_terminated minus_twelve_short) 0) :=
  (atoi_exact_iff _ minus_twelve_spells (by decide)).mpr (by decide)

def largest : List Byte := [0x32, 0x31, 0x34, 0x37, 0x34, 0x38, 0x33, 0x36, 0x34, 0x37]

theorem largest_short : largest.length < 2 ^ 32 := by decide

theorem largest_spells :
    Spells (text (holding_terminated largest_short) 0) [] [] largest [] := by
  rw [text_holding largest_short (by decide)]
  exact ⟨rfl, by decide, Or.inl rfl, by decide, by decide, stops_nil⟩

/-- On the way to the largest `int` the sum with the code of the last digit is out of range. -/
theorem largest_overflows :
    ¬ ∀ (memory : Memory 32) (terminated : Terminated memory) (s : Word)
      (blanks sign digits rest : List Byte),
      Spells (text terminated s) blanks sign digits rest →
        InRange (signValue sign * decimalValue digits) →
          Exact (signValue sign * decimalValue digits) (atoi terminated s) := by
  intro right
  have exactly := right _ _ 0 [] [] largest [] largest_spells (by decide)
  rw [atoi_spelled _ largest_spells] at exactly
  have fits := (accumulated_exact_iff largest_spells.allDigits (by decide)).mp exactly
  exact absurd fits (by decide)

end Results

end NaplesPU.Atoi
