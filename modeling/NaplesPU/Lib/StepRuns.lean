import Mathlib.Data.Nat.Basic
import Mathlib.Tactic.Common

/-!
Runs of a deterministic machine given by a partial step function, and what the
steps of a run weigh together under a cost of the states it leaves. A run that
halts contains every other run from its start.
-/

namespace StepRuns

section Runs

variable {State : Type*} (step : State → Option State)

/-- The state after `count` steps, if the machine makes that many. -/
def iterate : Nat → State → Option State
  | 0, state => some state
  | count + 1, state => (step state).bind (iterate count)

variable {step}

theorem iterate_add (first second : Nat) (state : State) :
    iterate step (first + second) state = (iterate step first state).bind (iterate step second) := by
  induction first generalizing state with
  | zero => rw [Nat.zero_add, iterate, Option.bind_some]
  | succ first induction =>
      rw [Nat.succ_add, iterate, iterate, Option.bind_assoc]
      exact congrArg (Option.bind (step state)) (funext induction)

theorem iterate_one (state : State) : iterate step 1 state = step state := by
  rw [iterate]
  cases step state <;> rfl

theorem iterate_trans {first second : Nat} {start middle final : State}
    (before : iterate step first start = some middle)
    (after : iterate step second middle = some final) :
    iterate step (first + second) start = some final := by
  rw [iterate_add, before, Option.bind_some, after]

theorem iterate_fixed {state : State} (fixed : step state = some state) (count : Nat) :
    iterate step count state = some state := by
  induction count with
  | zero => rw [iterate]
  | succ count induction => rw [iterate, fixed, Option.bind_some, induction]

theorem iterate_of_halted {count : Nat} {state final : State} (halted : step state = none)
    (run : iterate step count state = some final) : final = state := by
  cases count with
  | zero =>
      rw [iterate, Option.some.injEq] at run
      exact run.symm
  | succ count =>
      rw [iterate, halted, Option.bind_none] at run
      cases run

/-- A run that halts is at least as long as every other run from its start, and the
rest of it starts where the other run ends. -/
theorem iterate_split_of_halted {first second : Nat} {start middle final : State}
    (whole : iterate step second start = some final) (halted : step final = none)
    (part : iterate step first start = some middle) :
    ∃ rest, second = first + rest ∧ iterate step rest middle = some final := by
  rcases Nat.le_total first second with shorter | longer
  · obtain ⟨rest, rfl⟩ := Nat.exists_eq_add_of_le shorter
    rw [iterate_add, part, Option.bind_some] at whole
    exact ⟨rest, rfl, whole⟩
  · obtain ⟨rest, rfl⟩ := Nat.exists_eq_add_of_le longer
    rw [iterate_add, whole, Option.bind_some] at part
    have same := iterate_of_halted halted part
    cases rest with
    | zero => exact ⟨0, rfl, by rw [iterate, same]⟩
    | succ rest =>
        rw [iterate, halted, Option.bind_none] at part
        cases part

theorem halted_unique {first second : Nat} {start left right : State}
    (leftRun : iterate step first start = some left) (leftHalted : step left = none)
    (rightRun : iterate step second start = some right) (rightHalted : step right = none) :
    left = right := by
  obtain ⟨rest, -, after⟩ := iterate_split_of_halted rightRun rightHalted leftRun
  exact (iterate_of_halted leftHalted after).symm

def weight (step : State → Option State) (cost : State → Nat) : Nat → State → Nat
  | 0, _ => 0
  | count + 1, state => cost state + ((step state).elim 0 (weight step cost count))

/-- The machine that also adds up what its steps weigh. -/
def weighted (step : State → Option State) (cost : State → Nat) (state : State × Nat) :
    Option (State × Nat) :=
  (step state.1).map fun next => (next, state.2 + cost state.1)

theorem iterate_weighted {cost : State → Nat} (count : Nat) (state : State) (sum : Nat) :
    iterate (weighted step cost) count (state, sum) =
      (iterate step count state).map fun final => (final, sum + weight step cost count state) := by
  induction count generalizing state sum with
  | zero => rfl
  | succ count induction =>
      rw [iterate, iterate, weighted, weight]
      cases step state with
      | none => rfl
      | some next =>
          rw [Option.map_some, Option.bind_some, Option.bind_some, induction, Option.elim_some,
            Nat.add_assoc]

theorem weight_add {cost : State → Nat} {first : Nat} {start middle : State}
    (part : iterate step first start = some middle) (rest : Nat) :
    weight step cost (first + rest) start =
      weight step cost first start + weight step cost rest middle := by
  induction first generalizing start with
  | zero =>
      rw [iterate, Option.some.injEq] at part
      rw [part, Nat.zero_add, weight, Nat.zero_add]
  | succ first induction =>
      rw [iterate] at part
      rw [Nat.succ_add, weight, weight]
      cases next : step start with
      | none => rw [next, Option.bind_none] at part; cases part
      | some state =>
          rw [next, Option.bind_some] at part
          rw [Option.elim_some, Option.elim_some, induction part, Nat.add_assoc]

/-- A run that halts goes on from wherever a weighted run from its start ends, and the
weights add up. -/
theorem rest_of_halted {cost : State → Nat} {first second sum middleSum : Nat}
    {start middle final : State} (whole : iterate step second start = some final)
    (halted : step final = none)
    (part : iterate (weighted step cost) first (start, sum) = some (middle, middleSum)) :
    ∃ rest, iterate step rest middle = some final ∧
      sum + weight step cost second start = middleSum + weight step cost rest middle := by
  rw [iterate_weighted, Option.map_eq_some_iff] at part
  obtain ⟨reached, run, same⟩ := part
  rw [Prod.mk.injEq] at same
  obtain ⟨rfl, rfl⟩ := same
  obtain ⟨rest, rfl, after⟩ := iterate_split_of_halted whole halted run
  exact ⟨rest, after, by rw [weight_add run, Nat.add_assoc]⟩

end Runs

section Reachability

variable {State : Type*} {step : State → Option State}

def Reaches (step : State → Option State) (start final : State) : Prop :=
  ∃ count, iterate step count start = some final

theorem reaches_step {start next : State} (stepped : step start = some next) :
    Reaches step start next := ⟨1, (iterate_one start).trans stepped⟩

theorem reaches_trans {start middle final : State} (before : Reaches step start middle)
    (after : Reaches step middle final) : Reaches step start final := by
  obtain ⟨first, run⟩ := before
  obtain ⟨second, rest⟩ := after
  exact ⟨first + second, iterate_trans run rest⟩

/-- A loop that makes progress under a measure while it has not left reaches its exit. -/
theorem reaches_exit {Index : Type*} (Inside : Index → State → Prop) {Exit : State → Prop}
    (measure : Index → Nat)
    (pass : ∀ index state, Inside index state →
      (∃ final, Reaches step state final ∧ Exit final) ∨
        ∃ next final, measure next < measure index ∧ Reaches step state final ∧ Inside next final)
    (index : Index) (state : State) (inside : Inside index state) :
    ∃ final, Reaches step state final ∧ Exit final := by
  induction bound : measure index using Nat.strong_induction_on generalizing index state with
  | _ weight induction =>
      rcases pass index state inside with left | again
      · exact left
      · obtain ⟨next, middle, smaller, reached, stays⟩ := again
        obtain ⟨final, rest, exit⟩ := induction (measure next) (bound ▸ smaller) next middle stays rfl
        exact ⟨final, reaches_trans reached rest, exit⟩

/-- A run of a machine whose steps are steps of another, taken in states of some kind, is a run
of the other machine through such states. -/
theorem iterate_restricted {narrow : State → Option State} {Allowed : State → Prop}
    (restricted : ∀ state next, narrow state = some next → step state = some next ∧ Allowed state)
    {count : Nat} {start final : State} (run : iterate narrow count start = some final) :
    iterate step count start = some final ∧
      ∀ index < count, ∀ state, iterate step index start = some state → Allowed state := by
  induction count generalizing start with
  | zero => exact ⟨run, fun index below => absurd below (Nat.not_lt_zero index)⟩
  | succ count induction =>
      rw [iterate, Option.bind_eq_some_iff] at run
      obtain ⟨next, first, rest⟩ := run
      obtain ⟨stepped, allowed⟩ := restricted start next first
      obtain ⟨whole, every⟩ := induction rest
      constructor
      · rw [iterate, stepped, Option.bind_some, whole]
      · intro index below state reached
        cases index with
        | zero =>
            rw [iterate, Option.some.injEq] at reached
            rw [← reached]
            exact allowed
        | succ index =>
            rw [iterate, stepped, Option.bind_some] at reached
            exact every index (Nat.lt_of_succ_lt_succ below) state reached

/-- A run all of whose states are of some kind is seen as a run of another machine that makes
the same steps in states of that kind. -/
theorem iterate_viewed {Other : Type*} {other : Other → Option Other} {view : State → Other}
    {Allowed : State → Prop}
    (simulated : ∀ state next, step state = some next → Allowed state →
      other (view state) = some (view next))
    {count : Nat} {start final : State} (run : iterate step count start = some final)
    (allowed : ∀ index < count, ∀ state, iterate step index start = some state → Allowed state) :
    iterate other count (view start) = some (view final) := by
  induction count generalizing start with
  | zero =>
      rw [iterate, Option.some.injEq] at run
      rw [iterate, run]
  | succ count induction =>
      have here := allowed 0 (Nat.succ_pos _) start rfl
      rw [iterate, Option.bind_eq_some_iff] at run
      obtain ⟨next, stepped, rest⟩ := run
      rw [iterate, simulated start next stepped here, Option.bind_some]
      apply induction rest
      intro index below state reached
      apply allowed (index + 1) (Nat.succ_lt_succ below) state
      rw [iterate, stepped, Option.bind_some, reached]

/-- What every step keeps holds along a run. -/
theorem iterate_invariant {Invariant : State → Prop}
    (kept : ∀ state next, step state = some next → Invariant state → Invariant next)
    {count : Nat} {start final : State} (initial : Invariant start)
    (run : iterate step count start = some final) : Invariant final := by
  induction count generalizing start with
  | zero =>
      rw [iterate, Option.some.injEq] at run
      rwa [← run]
  | succ count induction =>
      rw [iterate, Option.bind_eq_some_iff] at run
      obtain ⟨next, stepped, rest⟩ := run
      exact induction (kept start next stepped initial) rest

end Reachability

section Halting

variable {State : Type*} {step : State → Option State}

/-- The state that a machine halts in, if it makes at most so many steps. -/
def runToHalt (step : State → Option State) : Nat → State → Option State
  | 0, state => if (step state).isNone then some state else none
  | fuel + 1, state =>
      match step state with
      | none => some state
      | some next => runToHalt step fuel next

theorem run_to_halt_sound {fuel : Nat} {start final : State}
    (halts : runToHalt step fuel start = some final) :
    ∃ count, iterate step count start = some final ∧ step final = none := by
  induction fuel generalizing start with
  | zero =>
      rw [runToHalt] at halts
      split at halts
      · rename_i stops
        cases halts
        exact ⟨0, rfl, Option.isNone_iff_eq_none.mp stops⟩
      · cases halts
  | succ fuel induction =>
      rw [runToHalt] at halts
      split at halts
      · rename_i stops
        cases halts
        exact ⟨0, rfl, stops⟩
      · rename_i next stepped
        obtain ⟨count, run, stops⟩ := induction halts
        exact ⟨count + 1, by rw [iterate, stepped, Option.bind_some, run], stops⟩

theorem run_to_halt_complete {count : Nat} {start final : State}
    (run : iterate step count start = some final) (stops : step final = none) :
    runToHalt step count start = some final := by
  induction count generalizing start with
  | zero =>
      cases run
      rw [runToHalt, if_pos (Option.isNone_iff_eq_none.mpr stops)]
  | succ count induction =>
      rw [iterate, Option.bind_eq_some_iff] at run
      obtain ⟨next, stepped, rest⟩ := run
      rw [runToHalt, stepped]
      exact induction rest

/-- A machine that can always make a step that keeps the invariant does not halt. -/
theorem never_halts {Invariant : State → Prop}
    (goesOn : ∀ state, Invariant state → ∃ next, step state = some next ∧ Invariant next)
    {start : State} (initial : Invariant start) (fuel : Nat) :
    runToHalt step fuel start = none := by
  induction fuel generalizing start with
  | zero =>
      obtain ⟨next, stepped, -⟩ := goesOn start initial
      rw [runToHalt, stepped]
      rfl
  | succ fuel induction =>
      obtain ⟨next, stepped, kept⟩ := goesOn start initial
      rw [runToHalt, stepped]
      exact induction kept

end Halting

end StepRuns
