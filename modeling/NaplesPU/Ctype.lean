import NaplesPU.Machine

/-!
The limits of the types `char` and `int`, and the classes of characters. Plain `char` is signed,
so a byte from the upper half of the range becomes a negative `int`, and no class contains it.
-/

namespace NaplesPU.Ctype

open ByteMemory Machine

def INT_MAX : Int := 2147483647

def INT_MIN : Int := -2147483648

/-- The values of `int`. -/
def InRange (value : Int) : Prop := INT_MIN ≤ value ∧ value ≤ INT_MAX

instance (value : Int) : Decidable (InRange value) :=
  inferInstanceAs (Decidable (INT_MIN ≤ value ∧ value ≤ INT_MAX))

def charValue (byte : Byte) : Word := byte.signExtend 32

def isalnum (c : Word) : Bool := decide ((c ||| 0x20) - 0x61 < 26) || decide (c - 0x30 < 10)

def isdigit (c : Word) : Bool := decide (c - 0x30 < 10)

def isspace (c : Word) : Bool := decide (c - 9 < 5) || decide (c = 0x20)

theorem char_value_to_int (byte : Byte) : (charValue byte).toInt = byte.toInt :=
  BitVec.toInt_signExtend_of_le (by decide)

theorem char_value_inj {byte other : Byte} : charValue byte = charValue other ↔ byte = other := by
  rw [← BitVec.toInt_inj, char_value_to_int, char_value_to_int, BitVec.toInt_inj]

/-- The values that a `char` has as an `int`. -/
def InCharRange (c : Word) : Prop := -128 ≤ c.toInt ∧ c.toInt < 128

instance (c : Word) : Decidable (InCharRange c) :=
  inferInstanceAs (Decidable (-128 ≤ c.toInt ∧ c.toInt < 128))

/-- A `char` equals an `int` if it is what that converts to, and the conversion keeps the
value. -/
theorem char_value_eq_iff {byte : Byte} {c : Word} :
    charValue byte = c ↔ byte = c.setWidth 8 ∧ InCharRange c := by
  have converted : (c.setWidth 8).toInt = c.toInt.bmod 256 := by
    rw [BitVec.toInt_setWidth, BitVec.toInt_eq_toNat_bmod, Int.bmod_bmod_of_dvd]
    exact ⟨2 ^ 24, rfl⟩
  rw [InCharRange, ← BitVec.toInt_inj, ← BitVec.toInt_inj, char_value_to_int, converted]
  constructor
  · intro same
    have low := byte.le_toInt
    have high := byte.toInt_lt
    rw [same] at low high
    have kept : c.toInt.bmod 256 = c.toInt := Int.bmod_eq_of_le low high
    exact ⟨same.trans kept.symm, low, high⟩
  · rintro ⟨same, low, high⟩
    rw [same]
    exact Int.bmod_eq_of_le low high

end NaplesPU.Ctype
