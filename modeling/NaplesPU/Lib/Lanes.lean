import Mathlib.Data.BitVec
import Mathlib.Data.Fin.Basic

/-!
Bit vectors that are made of lanes of equal width. A vector is built bit by bit.
-/

namespace Lanes

/-- The bit vector with the given bits, the least significant one first. -/
def ofBits {size : Nat} (bits : Fin size → Bool) : BitVec size :=
  (BitVec.ofBoolListLE (List.ofFn bits)).cast List.length_ofFn

theorem of_bits_bit {size : Nat} (bits : Fin size → Bool) (position : Fin size) :
    (ofBits bits).getLsbD position = bits position := by
  rw [ofBits, BitVec.getLsbD_cast, BitVec.getLsbD_ofBoolListLE, List.getD_eq_getElem?_getD,
    List.getElem?_ofFn, dif_pos position.isLt, Option.getD_some]

variable {count width : Nat}

def lane (vector : BitVec (count * width)) (index : Fin count) : BitVec width :=
  vector.extractLsb' (index * width) width

theorem position_inside (index : Fin count) {bit : Nat} (inside : bit < width) :
    index * width + bit < count * width := by
  have next : (index + 1) * width ≤ count * width := Nat.mul_le_mul_right width index.isLt
  rw [Nat.add_mul, Nat.one_mul] at next
  omega

theorem position_lane (index : Fin count) {bit : Nat} (inside : bit < width) :
    (index * width + bit) / width = index ∧ (index * width + bit) % width = bit := by
  have positive : 0 < width := by omega
  rw [Nat.add_comm, Nat.add_mul_div_right _ _ positive, Nat.add_mul_mod_self_right,
    Nat.div_eq_of_lt inside, Nat.mod_eq_of_lt inside, Nat.zero_add]
  exact ⟨rfl, rfl⟩

theorem lane_bit (vector : BitVec (count * width)) (index : Fin count) {bit : Nat}
    (inside : bit < width) :
    (lane vector index).getLsbD bit = vector.getLsbD (index * width + bit) := by
  rw [lane, BitVec.getLsbD_extractLsb', decide_eq_true inside, Bool.true_and]

def laneOf (position : Fin (count * width)) : Fin count :=
  ⟨position / width, Nat.div_lt_of_lt_mul (Nat.mul_comm count width ▸ position.isLt)⟩

def ofLanes (lanes : Fin count → BitVec width) : BitVec (count * width) :=
  ofBits fun position => (lanes (laneOf position)).getLsbD (position % width)

theorem lane_of_lanes (lanes : Fin count → BitVec width) (index : Fin count) :
    lane (ofLanes lanes) index = lanes index := by
  apply BitVec.eq_of_getLsbD_eq
  intro bit inside
  have position := position_lane index inside
  have same : laneOf ⟨index * width + bit, position_inside index inside⟩ = index :=
    Fin.ext position.1
  have built := of_bits_bit (fun position => (lanes (laneOf position)).getLsbD (position % width))
    ⟨index * width + bit, position_inside index inside⟩
  rw [lane_bit _ index inside]
  exact built.trans (by rw [same, position.2])

end Lanes
