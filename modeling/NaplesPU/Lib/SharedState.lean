import Mathlib.Logic.Function.Basic
import Mathlib.Logic.Relation
import Mathlib.Tactic.Common

/-!
Parties with a state of their own and one that they share. In every step one party acts. What
each party knows of its own state and the shared one holds in every state that is reached, if its
own acts keep it and whatever the acts of the others are allowed to do to the shared state does.
-/

namespace SharedState

section Systems

variable {Id Own Shared : Type*}

structure System (Id Own Shared : Type*) where
  own : Id → Own
  shared : Shared

variable [DecidableEq Id] (act : Id → Own × Shared → Own × Shared → Prop)

inductive Step (system : System Id Own Shared) : System Id Own Shared → Prop where
  | of (id : Id) {own : Own} {shared : Shared}
      (acts : act id (system.own id, system.shared) (own, shared)) :
      Step system ⟨Function.update system.own id own, shared⟩

def Reachable : System Id Own Shared → System Id Own Shared → Prop :=
  Relation.ReflTransGen (Step act)

/-- An assertion for each party, and what the party is allowed to do to the shared state. -/
structure Stable (assertion : Id → Own → Shared → Prop) (allowed : Id → Shared → Shared → Prop) :
    Prop where
  acts : ∀ {id own shared nextOwn nextShared}, assertion id own shared →
    act id (own, shared) (nextOwn, nextShared) →
    assertion id nextOwn nextShared ∧ allowed id shared nextShared
  others : ∀ {id other own shared nextShared}, id ≠ other → assertion id own shared →
    allowed other shared nextShared → assertion id own nextShared

variable {act} {assertion : Id → Own → Shared → Prop} {allowed : Id → Shared → Shared → Prop}

theorem step_asserted (stable : Stable act assertion allowed) {system next : System Id Own Shared}
    (stepped : Step act system next) (holds : ∀ id, assertion id (system.own id) system.shared) :
    ∀ id, assertion id (next.own id) next.shared := by
  obtain ⟨actor, acts⟩ := stepped
  obtain ⟨kept, within⟩ := stable.acts (holds actor) acts
  intro id
  by_cases same : id = actor
  · subst same
    simp only [Function.update_self]
    exact kept
  · simp only [Function.update_of_ne same]
    exact stable.others same (holds id) within

theorem reachable_asserted (stable : Stable act assertion allowed)
    {system final : System Id Own Shared} (reached : Reachable act system final)
    (holds : ∀ id, assertion id (system.own id) system.shared) :
    ∀ id, assertion id (final.own id) final.shared := by
  induction reached with
  | refl => exact holds
  | tail _ stepped induction => exact step_asserted stable stepped induction

end Systems

end SharedState
