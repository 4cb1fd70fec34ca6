import Mathlib.Data.BitVec
import Mathlib.Tactic.Common

/-!
Loops as total functions, with invariant rules. A loop comes with a measure that its body
makes smaller; its body may return a result. A loop that counts up to a bound below the range
of its counter does not wrap.
-/

namespace Loops

variable {State : Type*}

section While

/-- Runs the body while the condition holds. -/
def whileLoop (condition : State → Bool) (body : State → State) (measure : State → Nat)
    (smaller : ∀ state, condition state = true → measure (body state) < measure state)
    (state : State) : State :=
  if condition state = true then whileLoop condition body measure smaller (body state) else state
termination_by measure state
decreasing_by exact smaller state (by assumption)

variable {condition : State → Bool} {body : State → State} {measure : State → Nat}
  {smaller : ∀ state, condition state = true → measure (body state) < measure state}

theorem while_invariant (Invariant : State → Prop)
    (kept : ∀ state, Invariant state → condition state = true → Invariant (body state))
    {state : State} (start : Invariant state) :
    Invariant (whileLoop condition body measure smaller state) ∧
      condition (whileLoop condition body measure smaller state) = false := by
  induction state using whileLoop.induct condition body measure smaller with
  | case1 state holds induction =>
      rw [whileLoop, if_pos holds]
      exact induction (kept state start holds)
  | case2 state fails =>
      rw [whileLoop, if_neg fails]
      exact ⟨start, Bool.eq_false_of_not_eq_true fails⟩

/-- A loop is known by its condition and its body; the measure is only there to end it. -/
theorem while_congr {other : State → Bool} {otherMeasure : State → Nat}
    {otherSmaller : ∀ state, other state = true → otherMeasure (body state) < otherMeasure state}
    (same : ∀ state, condition state = other state) (state : State) :
    whileLoop condition body measure smaller state =
      whileLoop other body otherMeasure otherSmaller state := by
  induction state using whileLoop.induct condition body measure smaller with
  | case1 state holds induction =>
      rw [whileLoop, if_pos holds, induction]
      conv_rhs => rw [whileLoop, if_pos ((same state).symm.trans holds)]
  | case2 state fails =>
      rw [whileLoop, if_neg fails, whileLoop, if_neg (by rwa [← same])]

end While

section Returning

variable {Result : Type*}

def returnLoop (condition : State → Bool) (body : State → Result ⊕ State) (measure : State → Nat)
    (smaller : ∀ state next, condition state = true → body state = .inr next →
      measure next < measure state) (state : State) : Result ⊕ State :=
  if _ : condition state = true then
    match _ : body state with
    | .inl result => .inl result
    | .inr next => returnLoop condition body measure smaller next
  else .inr state
termination_by measure state
decreasing_by exact smaller state next (by assumption) (by assumption)

variable {condition : State → Bool} {body : State → Result ⊕ State} {measure : State → Nat}
  {smaller : ∀ state next, condition state = true → body state = .inr next →
    measure next < measure state}

theorem return_invariant (Invariant : State → Prop) (Returned : Result → Prop)
    (kept : ∀ state, Invariant state → condition state = true →
      (body state).elim Returned Invariant) {state : State} (start : Invariant state) :
    (returnLoop condition body measure smaller state).elim Returned
      fun final => Invariant final ∧ condition final = false := by
  fun_induction returnLoop condition body measure smaller state with
  | case1 state holds result returned =>
      have step := kept state start holds
      rw [returned] at step
      exact step
  | case2 state holds next continued induction =>
      have step := kept state start holds
      rw [continued] at step
      exact induction step
  | case3 state fails => exact ⟨start, Bool.eq_false_of_not_eq_true fails⟩

end Returning

section Counting

variable {width : Nat}

theorem next_index {bound index : BitVec width} (less : index < bound) :
    (index + 1).toNat = index.toNat + 1 := by
  have bounded := bound.isLt
  have ordered : index.toNat < bound.toNat := less
  have large : 1 < 2 ^ width := by omega
  have one : (1 : BitVec width).toNat = 1 := Nat.mod_eq_of_lt large
  rw [BitVec.toNat_add, one, Nat.mod_eq_of_lt (by omega)]

/-- Runs the body for every value of a counter from an index up to the bound. -/
def countUp (bound : BitVec width) (body : BitVec width → State → State) (index : BitVec width)
    (state : State) : State :=
  if index < bound then countUp bound body (index + 1) (body index state) else state
termination_by bound.toNat - index.toNat
decreasing_by
  have less : index < bound := by assumption
  have ordered : index.toNat < bound.toNat := less
  rw [next_index less]
  omega

variable {bound : BitVec width} {body : BitVec width → State → State}

theorem count_up_invariant (Invariant : Nat → State → Prop)
    (kept : ∀ (index : BitVec width) (state : State), index.toNat < bound.toNat →
      Invariant index.toNat state → Invariant (index.toNat + 1) (body index state))
    {index : BitVec width} {state : State} (within : index.toNat ≤ bound.toNat)
    (start : Invariant index.toNat state) :
    Invariant bound.toNat (countUp bound body index state) := by
  induction index, state using countUp.induct bound body with
  | case1 index state less induction =>
      have ordered : index.toNat < bound.toNat := less
      have next := next_index less
      rw [countUp, if_pos less]
      apply induction
      · omega
      · rw [next]
        exact kept index state ordered start
  | case2 index state reached =>
      have ordered : bound.toNat ≤ index.toNat := Nat.not_lt.mp reached
      have same : index.toNat = bound.toNat := Nat.le_antisymm within ordered
      rw [countUp, if_neg reached, ← same]
      exact start

end Counting

end Loops
