import Mathlib.Order.Defs.LinearOrder
import Mathlib.Order.Basic
import Mathlib.Order.Lattice

/-!
Comparison of values of which some may be incomparable. A comparison operator is
the list of the relations on which it is true; on the numbers of a linear order
exactly one of three relations holds, and a value that is not a number is
unordered with every value.
-/

namespace Comparison

inductive Relation where
  | less | equal | greater | unordered
deriving DecidableEq, Repr

def Relation.swap : Relation → Relation
  | .less => .greater
  | .greater => .less
  | .equal => .equal
  | .unordered => .unordered

section Order

variable {α : Type} [LinearOrder α]

def order (left right : α) : Relation :=
  if left < right then .less else if left = right then .equal else .greater

theorem order_self (value : α) : order value value = .equal := by
  rw [order, if_neg (lt_irrefl value), if_pos rfl]

theorem order_equal (left right : α) : order left right = .equal ↔ left = right := by
  constructor
  · intro equal
    rw [order] at equal
    split at equal
    · cases equal
    · split at equal
      · assumption
      · cases equal
  · intro same
    rw [same, order_self]

theorem order_ordered (left right : α) : order left right ≠ .unordered := by
  rw [order]
  split
  · decide
  · split
    · decide
    · decide

theorem order_swap (left right : α) : order right left = (order left right).swap := by
  rcases lt_trichotomy left right with less | same | greater
  · rw [order, order, if_pos less, if_neg (not_lt_of_gt less), if_neg (ne_of_gt less)]
    rfl
  · rw [same, order_self]
    rfl
  · rw [order, order, if_pos greater, if_neg (not_lt_of_gt greater), if_neg (ne_of_gt greater)]
    rfl

end Order

/-- A number or no number. -/
inductive FloatValue (α : Type) where
  | nan
  | num (value : α)
deriving DecidableEq, Repr

section Floats

variable {α : Type} [LinearOrder α]

def floatOrder : FloatValue α → FloatValue α → Relation
  | .num left, .num right => order left right
  | _, _ => .unordered

theorem float_order_unordered_iff (left right : FloatValue α) :
    floatOrder left right = .unordered ↔ left = .nan ∨ right = .nan := by
  cases left with
  | nan => exact ⟨fun _ => Or.inl rfl, fun _ => rfl⟩
  | num left =>
      cases right with
      | nan => exact ⟨fun _ => Or.inr rfl, fun _ => rfl⟩
      | num right =>
          constructor
          · intro unordered
            exact absurd unordered (order_ordered left right)
          · intro isNan
            rcases isNan with isNan | isNan
            · cases isNan
            · cases isNan

/-- A value is equal to itself unless it is no number. -/
theorem float_order_self (value : FloatValue α) :
    floatOrder value value = if value = .nan then .unordered else .equal := by
  cases value with
  | nan => rfl
  | num value => exact order_self value

theorem float_order_swap (left right : FloatValue α) :
    floatOrder right left = (floatOrder left right).swap := by
  cases left with
  | nan => cases right <;> rfl
  | num left =>
      cases right with
      | nan => rfl
      | num right => exact order_swap left right

end Floats

end Comparison
