import Mathlib.Data.BitVec
import Mathlib.Data.Int.Basic
import Mathlib.Data.Nat.Basic
import Mathlib.Tactic.Common

/-!
Signed values in fields of a given width: which integers a width represents, and
what sign extension makes of the low bits of a wider value.
-/

namespace TwosComplement

/-- The value is representable in two's complement with `bits` bits. -/
def SignedFits (bits : Nat) (value : Int) : Prop :=
  -2 ^ (bits - 1) ≤ value ∧ value < 2 ^ (bits - 1)

instance (bits : Nat) (value : Int) : Decidable (SignedFits bits value) :=
  inferInstanceAs (Decidable (_ ∧ _))

/-- The signed reading of the low `bits` bits. -/
def signExtend (bits word : Nat) : Int := (BitVec.ofNat bits word).toInt

theorem pow_cast (bits : Nat) : ((2 ^ bits : Nat) : Int) = (2 : Int) ^ bits :=
  Int.natCast_pow 2 bits

theorem sign_extend_eq_bmod (bits word : Nat) :
    signExtend bits word = (word : Int).bmod (2 ^ bits) := by
  rw [signExtend, BitVec.toInt_eq_toNat_bmod, BitVec.toNat_ofNat, Int.natCast_emod, Int.emod_bmod]

theorem sign_extend_mod (bits word : Nat) :
    signExtend bits (word % 2 ^ bits) = signExtend bits word := by
  rw [sign_extend_eq_bmod, sign_extend_eq_bmod, Int.natCast_emod, Int.emod_bmod]

theorem sign_extend_inj {bits word other : Nat} :
    signExtend bits word = signExtend bits other ↔ word % 2 ^ bits = other % 2 ^ bits := by
  rw [signExtend, signExtend, BitVec.toInt_inj, ← BitVec.toNat_inj, BitVec.toNat_ofNat,
    BitVec.toNat_ofNat]

/-- Reduction to the balanced residues fixes exactly the representable values. -/
theorem bmod_eq_self_iff {bits : Nat} (positive : 0 < bits) (value : Int) :
    value.bmod (2 ^ bits) = value ↔ SignedFits bits value := by
  obtain ⟨rest, rfl⟩ : ∃ rest, bits = rest + 1 := ⟨bits - 1, by omega⟩
  have double : ((2 ^ (rest + 1) : Nat) : Int) = 2 * 2 ^ rest := by
    rw [pow_cast, Int.pow_succ']
  rw [Int.bmod_eq_iff (Nat.two_pow_pos _), double, SignedFits, Nat.add_sub_cancel, Int.sub_self]
  constructor
  · rintro ⟨low, high, -⟩
    omega
  · rintro ⟨low, high⟩
    exact ⟨by omega, by omega, Int.dvd_zero _⟩

theorem sign_extend_fits {bits : Nat} (positive : 0 < bits) (word : Nat) :
    SignedFits bits (signExtend bits word) := by
  rw [← bmod_eq_self_iff positive, sign_extend_eq_bmod, Int.bmod_bmod]

theorem SignedFits.mono {bits size : Nat} {value : Int} (fits : SignedFits bits value)
    (wider : bits ≤ size) : SignedFits size value := by
  have power := Int.ofNat_le.mpr
    (Nat.pow_le_pow_right (show 0 < 2 by decide) (Nat.sub_le_sub_right wider 1))
  rw [pow_cast, pow_cast] at power
  obtain ⟨low, high⟩ := fits
  exact ⟨by omega, by omega⟩

/-- Sign extension of a field that keeps at least `bits` bits of the value. -/
theorem sign_extend_field {bits size width : Nat} (value : Int) (inSize : bits ≤ size)
    (inWidth : bits ≤ width) :
    signExtend bits ((BitVec.ofInt size value).toNat % 2 ^ width) = value.bmod (2 ^ bits) := by
  have widthDvd : ((2 ^ bits : Nat) : Int) ∣ ((2 ^ width : Nat) : Int) :=
    Int.natCast_dvd_natCast.mpr (Nat.pow_dvd_pow 2 inWidth)
  have sizeDvd : ((2 ^ bits : Nat) : Int) ∣ ((2 ^ size : Nat) : Int) :=
    Int.natCast_dvd_natCast.mpr (Nat.pow_dvd_pow 2 inSize)
  have nonzero : ((2 ^ size : Nat) : Int) ≠ 0 := by
    have positive := Nat.two_pow_pos size
    omega
  have field : (((BitVec.ofInt size value).toNat % 2 ^ width : Nat) : Int) =
      value % ((2 ^ size : Nat) : Int) % ((2 ^ width : Nat) : Int) := by
    rw [Int.natCast_emod, BitVec.toNat_ofInt, Int.toNat_of_nonneg (Int.emod_nonneg _ nonzero)]
  calc signExtend bits ((BitVec.ofInt size value).toNat % 2 ^ width)
      = (value % ((2 ^ size : Nat) : Int) % ((2 ^ width : Nat) : Int)).bmod (2 ^ bits) := by
        rw [sign_extend_eq_bmod, field]
    _ = (value % ((2 ^ size : Nat) : Int) % ((2 ^ width : Nat) : Int) %
          ((2 ^ bits : Nat) : Int)).bmod (2 ^ bits) := (Int.emod_bmod _ _).symm
    _ = value.bmod (2 ^ bits) := by
        rw [Int.emod_emod_of_dvd _ widthDvd, Int.emod_emod_of_dvd _ sizeDvd, Int.emod_bmod]

/-- A bit vector is the sign extension of its low bits exactly if they hold its value. -/
theorem sign_extend_eq_to_int_iff {size bits : Nat} (positive : 0 < bits) (bounded : bits ≤ size)
    (value : BitVec size) : value.toInt = signExtend bits value.toNat ↔
      SignedFits bits value.toInt := by
  have dvd : 2 ^ bits ∣ 2 ^ size := Nat.pow_dvd_pow 2 bounded
  have low : signExtend bits value.toNat = value.toInt.bmod (2 ^ bits) := by
    rw [sign_extend_eq_bmod, BitVec.toInt_eq_toNat_bmod, Int.bmod_bmod_of_dvd dvd]
  rw [low, ← bmod_eq_self_iff positive, eq_comm]

end TwosComplement
