import Mathlib.Algebra.BigOperators.Group.List.Basic
import Mathlib.Algebra.Ring.Nat
import Mathlib.Data.Nat.Basic
import Mathlib.Tactic.Common

/-!
Rounding up to a multiple of an alignment, and objects placed one behind the other, each
at its own alignment.
-/

namespace Alignment

/-- The least multiple of `align` that is not below `value`. -/
def alignTo (value align : Nat) : Nat := (value + align - 1) / align * align

variable {align : Nat}

theorem align_to_dvd (value : Nat) : align ∣ alignTo value align := Nat.dvd_mul_left align _

theorem le_align_to (positive : 0 < align) (value : Nat) : value ≤ alignTo value align := by
  have whole := Nat.div_add_mod' (value + align - 1) align
  have rest := Nat.mod_lt (value + align - 1) positive
  rw [alignTo]
  omega

theorem align_to_lt (positive : 0 < align) (value : Nat) : alignTo value align < value + align := by
  have below := Nat.div_mul_le_self (value + align - 1) align
  rw [alignTo]
  omega

theorem align_to_eq_self (positive : 0 < align) {value : Nat} (aligned : align ∣ value) :
    alignTo value align = value := by
  obtain ⟨count, rfl⟩ := aligned
  rw [alignTo, Nat.add_sub_assoc positive, Nat.mul_add_div positive,
    Nat.div_eq_of_lt (Nat.sub_lt positive Nat.one_pos), Nat.add_zero, Nat.mul_comm]

theorem align_to_le (positive : 0 < align) {value bound : Nat} (below : value ≤ bound)
    (aligned : align ∣ bound) : alignTo value align ≤ bound := by
  obtain ⟨count, rfl⟩ := aligned
  rw [alignTo, Nat.mul_comm align count]
  apply Nat.mul_le_mul_right
  apply Nat.le_of_lt_succ
  rw [Nat.div_lt_iff_lt_mul positive, Nat.succ_mul, Nat.mul_comm count]
  omega

theorem align_to_mono (positive : 0 < align) {value other : Nat} (below : value ≤ other) :
    alignTo value align ≤ alignTo other align :=
  align_to_le positive (below.trans (le_align_to positive other)) (align_to_dvd other)

section Integers

/-- The same for integers. -/
def alignToInt (value : Int) (align : Nat) : Int := (value + align - 1) / align * align

theorem align_to_int_nat (positive : 0 < align) (value : Nat) :
    alignToInt value align = alignTo value align := by
  have whole : ((value + align - 1 : Nat) : Int) = value + align - 1 := by omega
  rw [alignToInt, alignTo, ← whole]
  push_cast
  rfl

theorem align_to_int_dvd (value : Int) : (align : Int) ∣ alignToInt value align :=
  Int.dvd_mul_left _ _

theorem le_align_to_int (positive : 0 < align) (value : Int) : value ≤ alignToInt value align := by
  have positiveInt : (0 : Int) < align := Int.natCast_pos.mpr positive
  have whole := Int.emod_add_ediv_mul (value + align - 1) align
  have rest := Int.emod_lt_of_pos (value + align - 1) positiveInt
  rw [alignToInt]
  omega

theorem align_to_int_mono (positive : 0 < align) {value other : Int} (below : value ≤ other) :
    alignToInt value align ≤ alignToInt other align := by
  have positiveInt : (0 : Int) < align := Int.natCast_pos.mpr positive
  apply Int.mul_le_mul_of_nonneg_right _ (Int.le_of_lt positiveInt)
  exact Int.ediv_le_ediv positiveInt (by omega)

/-- One less than an even value is rounded up again, unless the alignment is one. -/
theorem le_align_to_int_pred (positive : 0 < align) (even : 2 ∣ align) {value : Int}
    (evenValue : 2 ∣ value) : value ≤ alignToInt (value - 1) align := by
  have above := le_align_to_int positive (value - 1)
  have multiple : (2 : Int) ∣ alignToInt (value - 1) align :=
    (Int.natCast_dvd_natCast.mpr even).trans (align_to_int_dvd _)
  omega

end Integers

section Stacking

/-- What is placed: so many bytes, which end at a multiple of an alignment. -/
structure Extent where
  size : Nat
  align : Nat

def Extent.next (offset : Nat) (extent : Extent) : Nat := alignTo (offset + extent.size) extent.align

/-- The end of objects that are placed one behind the other. -/
def stacked (offset : Nat) (extents : List Extent) : Nat := extents.foldl Extent.next offset

/-- The alignment is one, and a common alignment is a multiple of it. -/
def Extent.Within (common : Nat) (extent : Extent) : Prop :=
  0 < extent.align ∧ extent.align ∣ common

/-- The room that objects take at most, whatever their order. -/
def room (common : Nat) (extents : List Extent) : Nat :=
  (extents.map fun extent => alignTo extent.size common).sum

variable {common offset bound : Nat} {extents : List Extent}

theorem Extent.next_le {extent : Extent} (within : extent.Within common)
    (below : offset + extent.size ≤ bound) (aligned : common ∣ bound) :
    extent.next offset ≤ bound :=
  align_to_le within.1 below (within.2.trans aligned)

theorem stacked_le (positive : 0 < common) (within : ∀ extent ∈ extents, extent.Within common)
    (below : offset ≤ bound) (aligned : common ∣ bound) :
    stacked offset extents ≤ bound + room common extents := by
  induction extents generalizing offset bound with
  | nil => exact below
  | cons extent rest induction =>
      rw [List.forall_mem_cons] at within
      have grown := le_align_to positive extent.size
      have next : extent.next offset ≤ bound + alignTo extent.size common :=
        Extent.next_le within.1 (by omega) (Nat.dvd_add aligned (align_to_dvd extent.size))
      have later := induction within.2 next (Nat.dvd_add aligned (align_to_dvd extent.size))
      rw [stacked, List.foldl_cons, room, List.map_cons, List.sum_cons, ← Nat.add_assoc]
      exact later

/-- With the common alignment the objects take all that room. -/
theorem stacked_uniform (positive : 0 < common) (uniform : ∀ extent ∈ extents, extent.align = common)
    (aligned : common ∣ offset) : stacked offset extents = offset + room common extents := by
  induction extents generalizing offset with
  | nil => rfl
  | cons extent rest induction =>
      rw [List.forall_mem_cons] at uniform
      have next : extent.next offset = offset + alignTo extent.size common := by
        apply Nat.le_antisymm
        · apply Extent.next_le ⟨by rw [uniform.1]; exact positive, by rw [uniform.1]⟩
          · have grown := le_align_to positive extent.size
            omega
          · exact Nat.dvd_add aligned (align_to_dvd extent.size)
        · rw [Extent.next, uniform.1]
          have grown := le_align_to positive (offset + extent.size)
          have multiple := (Nat.dvd_sub (align_to_dvd (offset + extent.size)) aligned)
          have least := align_to_le positive (show extent.size ≤ alignTo (offset + extent.size) common
            - offset by omega) multiple
          omega
      rw [stacked, List.foldl_cons, next, room, List.map_cons, List.sum_cons, ← Nat.add_assoc]
      exact induction uniform.2 (Nat.dvd_add aligned (align_to_dvd extent.size))

theorem add_sizes_le_stacked (positive : ∀ extent ∈ extents, 0 < extent.align) :
    offset + (extents.map Extent.size).sum ≤ stacked offset extents := by
  induction extents generalizing offset with
  | nil => exact le_refl offset
  | cons extent rest induction =>
      rw [List.forall_mem_cons] at positive
      have grown := le_align_to positive.1 (offset + extent.size)
      have later := @induction (extent.next offset) positive.2
      rw [List.map_cons, List.sum_cons, stacked, List.foldl_cons]
      rw [Extent.next] at later ⊢
      exact le_trans (by omega) later

theorem stacked_dvd (multiples : ∀ extent ∈ extents, common ∣ extent.align)
    (aligned : common ∣ offset) : common ∣ stacked offset extents := by
  induction extents generalizing offset with
  | nil => exact aligned
  | cons extent rest induction =>
      rw [List.forall_mem_cons] at multiples
      exact induction multiples.2 (multiples.1.trans (align_to_dvd _))

theorem room_perm {other : List Extent} (same : extents.Perm other) :
    room common extents = room common other :=
  (same.map _).sum_eq

end Stacking

end Alignment
