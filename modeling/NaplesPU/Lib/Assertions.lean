import Mathlib.Data.List.Basic
import Mathlib.Tactic.Common
import NaplesPU.Lib.StepRuns

/-!
Inductive assertions. Code in labelled blocks has an assertion in front of each item; where every
item leads from its own to that of the item it goes on to, a run stays within the assertions.
-/

namespace Assertions

open StepRuns

section Blocks

variable {Item State : Type*} (execute : Item → State → Option (State × Option Nat))

structure Point (State : Type*) where
  block : Nat
  index : Nat
  state : State

/-- Where an item goes on, in code of the given length: at a label, or behind itself. -/
def follow (length : Nat) (point : Point State) (result : State × Option Nat) : Point State :=
  match result.2 with
  | some label => ⟨label, 0, result.1⟩
  | none =>
      if point.index + 1 < length then ⟨point.block, point.index + 1, result.1⟩
      else ⟨point.block + 1, 0, result.1⟩

def step (blocks : List (List Item)) (point : Point State) : Option (Point State) :=
  blocks[point.block]?.bind fun code =>
    code[point.index]?.bind fun item => (execute item point.state).map (follow code.length point)

abbrev Annotated (Item State : Type*) := List (List (Item × (State → Prop)))

def items (blocks : Annotated Item State) : List (List Item) := blocks.map (List.map Prod.fst)

/-- The assertion in front of the first item, or else what is asserted behind the code. -/
def front (behind : State → Prop) : List (Item × (State → Prop)) → State → Prop
  | [] => behind
  | (_, assertion) :: _ => assertion

/-- What is asserted at a label; nothing is where there is no code. -/
def entry (blocks : Annotated Item State) (label : Nat) : State → Prop :=
  front (fun _ => True) (blocks.getD label [])

/-- Each item of the code leads to the assertion of what it goes on to. -/
def Follows (blocks : Annotated Item State) (behind : State → Prop) :
    List (Item × (State → Prop)) → Prop
  | [] => True
  | (item, assertion) :: rest =>
      (∀ state, assertion state → ∀ result, execute item state = some result →
        (result.2.elim (front behind rest) (entry blocks)) result.1) ∧ Follows blocks behind rest

/-- The assertions are inductive. -/
def Proved (blocks : Annotated Item State) : Prop :=
  ∀ block code, blocks[block]? = some code → Follows execute blocks (entry blocks (block + 1)) code

/-- The assertion in front of the item at a point, if there is one. -/
def Asserted (blocks : Annotated Item State) (point : Point State) : Prop :=
  ∀ code item assertion, blocks[point.block]? = some code →
    code[point.index]? = some (item, assertion) → assertion point.state

variable {execute} {blocks : Annotated Item State}

theorem follows_at {behind : State → Prop} {code : List (Item × (State → Prop))}
    (follows : Follows execute blocks behind code) {index : Nat} {item : Item}
    {assertion : State → Prop} (here : code[index]? = some (item, assertion)) {state : State}
    (holds : assertion state) {result : State × Option Nat}
    (executed : execute item state = some result) :
    (result.2.elim (front behind (code.drop (index + 1))) (entry blocks)) result.1 := by
  induction code generalizing index with
  | nil => cases here
  | cons head rest induction =>
      obtain ⟨first, known⟩ := head
      cases index with
      | zero =>
          rw [List.getElem?_cons_zero, Option.some.injEq, Prod.mk.injEq] at here
          obtain ⟨rfl, rfl⟩ := here
          exact follows.1 state holds result executed
      | succ index =>
          rw [List.getElem?_cons_succ] at here
          exact induction follows.2 here

theorem asserted_entry {label : Nat} {state : State} (holds : entry blocks label state) :
    Asserted blocks ⟨label, 0, state⟩ := by
  intro code item assertion laidOut here
  simp only at laidOut here
  rw [entry, List.getD_eq_getElem?_getD, laidOut, Option.getD_some] at holds
  cases code with
  | nil => cases here
  | cons head rest =>
      rw [List.getElem?_cons_zero, Option.some.injEq] at here
      subst here
      exact holds

theorem asserted_step (proved : Proved execute blocks) {point next : Point State}
    (asserted : Asserted blocks point) (stepped : step execute (items blocks) point = some next) :
    Asserted blocks next := by
  simp only [step, items, List.getElem?_map, Option.bind_eq_some_iff, Option.map_eq_some_iff]
    at stepped
  obtain ⟨_, ⟨code, laidOut, rfl⟩, item, here, result, executed, rfl⟩ := stepped
  rw [List.getElem?_map, Option.map_eq_some_iff] at here
  obtain ⟨⟨_, assertion⟩, here, rfl⟩ := here
  have inside := (List.getElem?_eq_some_iff.mp here).1
  have after := follows_at (proved _ code laidOut) here (asserted code _ _ laidOut here) executed
  obtain ⟨final, label | label⟩ := result
  · rw [Option.elim_none] at after
    simp only [follow, List.length_map]
    split
    case isTrue more =>
        intro other nextItem known same found
        simp only at same found
        rw [laidOut, Option.some.injEq] at same
        subst same
        rw [List.drop_eq_getElem_cons more] at after
        rw [List.getElem?_eq_getElem more, Option.some.injEq] at found
        rw [found] at after
        exact after
    case isFalse last =>
        rw [List.drop_eq_nil_of_le (by omega)] at after
        exact asserted_entry after
  · exact asserted_entry after

/-- A run from the assertion of a label stays within the assertions. -/
theorem asserted_run (proved : Proved execute blocks) {count label : Nat} {state : State}
    (holds : entry blocks label state) {final : Point State}
    (run : iterate (step execute (items blocks)) count ⟨label, 0, state⟩ = some final) :
    Asserted blocks final :=
  iterate_invariant (fun _ _ stepped asserted => asserted_step proved asserted stepped)
    (asserted_entry holds) run

end Blocks

end Assertions
