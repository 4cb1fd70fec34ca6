import Mathlib.Data.Fintype.Basic
import Mathlib.Data.List.Sort
import Mathlib.Tactic.Common

/-!
Interleavings of the events of several parties over a shared state. Neighbouring
events of different parties that commute can be exchanged, so an interleaving
whose other pairs follow a rank of the parties has the outcome of letting the
parties run one after another in the order of their rank. For events that load
from or store to one shared cell there is such a rank as soon as no party is
disturbed between its accesses.
-/

namespace Interleaving

section Reordering

variable {State Event Id : Type*} (fire : Event → State → Option State)

/-- The state after all the events, if each of them can happen in its turn. -/
def run : List Event → State → Option State
  | [], state => some state
  | event :: rest, state => (fire event state).bind (run rest)

def Commutes (first second : Event) : Prop :=
  ∀ state, (fire first state).bind (fire second) = (fire second state).bind (fire first)

variable {fire}

theorem run_append (first second : List Event) (state : State) :
    run fire (first ++ second) state = (run fire first state).bind (run fire second) := by
  induction first generalizing state with
  | nil => rfl
  | cons event rest induction =>
      rw [List.cons_append, run, run, Option.bind_assoc]
      exact congrArg (Option.bind (fire event state)) (funext induction)

theorem run_exchange {first second : Event} (commutes : Commutes fire first second)
    (rest : List Event) (state : State) :
    run fire (first :: second :: rest) state = run fire (second :: first :: rest) state := by
  calc run fire (first :: second :: rest) state
      = ((fire first state).bind (fire second)).bind (run fire rest) :=
        (Option.bind_assoc _ _ _).symm
    _ = ((fire second state).bind (fire first)).bind (run fire rest) := by rw [commutes]
    _ = run fire (second :: first :: rest) state := Option.bind_assoc _ _ _

/-- An event moves behind the events it commutes with. -/
theorem run_move_back {event : Event} {others : List Event}
    (commutes : ∀ other ∈ others, Commutes fire event other) (rest : List Event) (state : State) :
    run fire (event :: (others ++ rest)) state = run fire (others ++ event :: rest) state := by
  induction others generalizing state with
  | nil => rfl
  | cons other others induction =>
      have exchanged := run_exchange (commutes other List.mem_cons_self) (others ++ rest) state
      have moved := induction fun later member => commutes later (List.mem_cons_of_mem other member)
      rw [List.cons_append, exchanged, List.cons_append, run, run]
      exact congrArg (Option.bind (fire other state)) (funext moved)

variable [DecidableEq Id] (owner : Event → Id)

/-- The events of a party whose earlier events of other parties commute with them come first. -/
theorem run_move_front {id : Id} {events : List Event}
    (commutes : events.Pairwise fun first second =>
      owner first ≠ id → owner second = id → Commutes fire first second) (state : State) :
    run fire events state =
      run fire ((events.filter fun event => owner event = id) ++
        events.filter fun event => owner event ≠ id) state := by
  induction events generalizing state with
  | nil => rfl
  | cons event rest induction =>
      rw [List.pairwise_cons] at commutes
      have front := induction commutes.2
      rw [run, funext front]
      by_cases own : owner event = id
      · simp only [own, List.filter_cons, decide_true, if_true, ne_eq, not_true_eq_false,
          decide_false, Bool.false_eq_true, if_false, List.cons_append]
        rfl
      · simp only [own, List.filter_cons, decide_false, Bool.false_eq_true, if_false, ne_eq,
          not_false_eq_true, decide_true, if_true]
        apply run_move_back
        intro other member
        rw [List.mem_filter, decide_eq_true_eq] at member
        exact commutes.1 other member.1 own member.2

/-- Events whose dependent pairs follow the rank of their owners can be sorted by owner. -/
theorem run_sorted {rank : Id → Nat} {order : List Id}
    (sorted : order.Pairwise fun first second => rank first ≤ rank second) (nodup : order.Nodup)
    {events : List Event} (covers : ∀ event ∈ events, owner event ∈ order)
    (ranked : events.Pairwise fun first second => owner first ≠ owner second →
      ¬ Commutes fire first second → rank (owner first) < rank (owner second))
    (state : State) :
    run fire events state =
      run fire (order.flatMap fun id => events.filter fun event => owner event = id) state := by
  induction order generalizing events state with
  | nil =>
      have empty : events = [] := List.eq_nil_iff_forall_not_mem.mpr fun event member =>
        List.not_mem_nil (covers event member)
      rw [empty]
      rfl
  | cons id order induction =>
      rw [List.pairwise_cons] at sorted
      rw [List.nodup_cons] at nodup
      have commutes : events.Pairwise fun first second =>
          owner first ≠ id → owner second = id → Commutes fire first second := by
        refine ranked.imp_of_mem fun {first second} member _ rank foreign own => ?_
        by_contra dependent
        have inOrder : owner first ∈ order :=
          (List.mem_cons.mp (covers first member)).resolve_left foreign
        have above := sorted.1 (owner first) inOrder
        have below := rank (own ▸ foreign) dependent
        rw [own] at below
        omega
      have coversRest : ∀ event ∈ events.filter fun event => owner event ≠ id,
          owner event ∈ order := by
        intro event member
        rw [List.mem_filter, decide_eq_true_eq] at member
        exact (List.mem_cons.mp (covers event member.1)).resolve_left member.2
      have sortedRest := induction sorted.2 nodup.2 coversRest (ranked.filter _)
      have sameParts : ∀ other ∈ order,
          ((events.filter fun event => owner event ≠ id).filter fun event => owner event = other) =
            events.filter fun event => owner event = other := by
        intro other member
        rw [List.filter_filter]
        apply List.filter_congr
        intro event _
        have distinct : other ≠ id := fun same => nodup.1 (same ▸ member)
        by_cases own : owner event = other <;> simp [own, distinct]
      rw [run_move_front owner commutes, run_append, funext sortedRest, List.flatMap_cons, run_append,
        List.flatMap_congr sameParts]

end Reordering

section Accesses

inductive Access where
  | none
  | load
  | store
deriving DecidableEq, Repr

def Conflict (first second : Access) : Prop :=
  first ≠ .none ∧ second ≠ .none ∧ (first = .store ∨ second = .store)

variable {Id : Type*} [DecidableEq Id]

/-- No store of another party falls between two accesses of a party. -/
def WindowsKept (events : List (Id × Access)) : Prop :=
  ∀ {first middle last : Nat} {id other : Id} {before after : Access},
    first < middle → middle < last → events[first]? = some (id, before) →
    events[middle]? = some (other, .store) → events[last]? = some (id, after) →
    before ≠ .none → after ≠ .none → other = id

/-- No load of another party falls between two stores of a party. -/
def ExchangesKept (events : List (Id × Access)) : Prop :=
  ∀ {first middle last : Nat} {id other : Id}, first < middle → middle < last →
    events[first]? = some (id, .store) → events[middle]? = some (other, .load) →
    events[last]? = some (id, .store) → other = id

structure Undisturbed (events : List (Id × Access)) : Prop where
  window : WindowsKept events
  exchange : ExchangesKept events

/-- The place of a party: its first store, or its first load if it stores nothing. -/
def rank (events : List (Id × Access)) (id : Id) : Nat :=
  if (id, .store) ∈ events then events.idxOf (id, .store) else events.idxOf (id, .load)

theorem first_index {Event : Type*} [BEq Event] [LawfulBEq Event] {events : List Event} {event : Event}
    {index : Nat} (found : events[index]? = some event) :
    events[events.idxOf event]? = some event ∧ events.idxOf event ≤ index := by
  obtain ⟨bounded, same⟩ := List.getElem?_eq_some_iff.mp found
  have inside : events.idxOf event < events.length :=
    List.idxOf_lt_length_iff.mpr (List.mem_of_getElem? found)
  constructor
  · exact List.getElem?_eq_some_iff.mpr ⟨inside, List.getElem_idxOf inside⟩
  · by_contra later
    have early := List.not_of_lt_findIdx (p := (· == event)) (Nat.lt_of_not_le later)
    simp [same] at early

/-- A party that makes an access has its rank at one: at or before the access, if either
both are loads or the access is a store. -/
theorem rank_index {events : List (Id × Access)} {index : Nat} {id : Id} {access : Access}
    (found : events[index]? = some (id, access)) (touches : access ≠ .none) :
    ∃ ranked, events[rank events id]? = some (id, ranked) ∧ ranked ≠ .none ∧
      (access = .store → ranked = .store) ∧ (ranked = access → rank events id ≤ index) := by
  by_cases stores : (id, .store) ∈ events
  · obtain ⟨other, atOther⟩ := List.getElem?_of_mem stores
    refine ⟨.store, ?_, by decide, fun _ => rfl, ?_⟩
    · rw [rank, if_pos stores]
      exact (first_index atOther).1
    · rintro rfl
      rw [rank, if_pos stores]
      exact (first_index found).2
  · cases access with
    | none => exact absurd rfl touches
    | store => exact absurd (List.mem_of_getElem? found) stores
    | load =>
        rw [rank, if_neg stores]
        exact ⟨.load, (first_index found).1, by decide, nofun, fun _ => (first_index found).2⟩

theorem rank_lt_of_conflict {events : List (Id × Access)} (undisturbed : Undisturbed events)
    {first second : Nat} (before : first < second) {id other : Id} {access otherAccess : Access}
    (firstEvent : events[first]? = some (id, access))
    (secondEvent : events[second]? = some (other, otherAccess)) (foreign : id ≠ other)
    (conflict : Conflict access otherAccess) : rank events id < rank events other := by
  obtain ⟨touches, otherTouches, someStore⟩ := conflict
  obtain ⟨own, ownEvent, ownTouches, ownStore, ownFirst⟩ := rank_index firstEvent touches
  obtain ⟨their, theirEvent, theirTouches, theirStore, theirFirst⟩ :=
    rank_index secondEvent otherTouches
  have distinct {left right : Nat} {leftAccess rightAccess : Access}
      (leftEvent : events[left]? = some (id, leftAccess))
      (rightEvent : events[right]? = some (other, rightAccess)) : left ≠ right := by
    rintro rfl
    rw [leftEvent, Option.some.injEq, Prod.mk.injEq] at rightEvent
    exact foreign rightEvent.1
  have apart := distinct ownEvent theirEvent
  by_contra notBelow
  have below : rank events other < rank events id := by omega
  by_cases stores : access = .store
  · subst stores
    have position := ownFirst (ownStore rfl)
    rw [ownStore rfl] at ownEvent
    exact foreign (undisturbed.window below (by omega) theirEvent ownEvent secondEvent theirTouches
      otherTouches)
  · have otherStore := someStore.resolve_left stores
    subst otherStore
    rw [theirStore rfl] at theirEvent
    have load : access = .load := by
      cases access <;> simp_all
    subst load
    rcases Nat.lt_or_gt_of_ne (distinct firstEvent theirEvent) with early | late
    · exact foreign (undisturbed.window early below firstEvent theirEvent ownEvent (by decide)
        ownTouches).symm
    · exact foreign (undisturbed.exchange late before theirEvent firstEvent secondEvent)

/-- Undisturbed events have the outcome of letting the parties run one after another. -/
theorem exists_serial_order {State : Type*} [Fintype Id]
    {fire : Id × Access → State → Option State} {events : List (Id × Access)}
    (commutes : ∀ first second : Id × Access, first.1 ≠ second.1 →
      ¬ Conflict first.2 second.2 → Commutes fire first second)
    (undisturbed : Undisturbed events) :
    ∃ order : List Id, order.Nodup ∧ (∀ id, id ∈ order) ∧ ∀ state,
      run fire events state =
        run fire (order.flatMap fun id => events.filter fun event => event.1 = id) state := by
  let below (first second : Id) : Bool := rank events first ≤ rank events second
  let order := Finset.univ.toList.mergeSort below
  have perm : order.Perm Finset.univ.toList := List.mergeSort_perm _ _
  have everyone (id : Id) : id ∈ order := by
    rw [perm.mem_iff, Finset.mem_toList]
    exact Finset.mem_univ id
  have nodup : order.Nodup := perm.nodup_iff.mpr (Finset.nodup_toList _)
  have sorted : order.Pairwise fun first second => rank events first ≤ rank events second := by
    have pairwise : order.Pairwise fun first second => below first second = true := by
      apply List.pairwise_mergeSort
      · intro first second third lower upper
        simp only [below, decide_eq_true_eq] at lower upper ⊢
        exact lower.trans upper
      · intro first second
        simp only [below, Bool.or_eq_true, decide_eq_true_eq]
        exact Nat.le_total _ _
    exact pairwise.imp fun lower => of_decide_eq_true lower
  have ranked : events.Pairwise fun first second => first.1 ≠ second.1 →
      ¬ Commutes fire first second → rank events first.1 < rank events second.1 := by
    rw [List.pairwise_iff_getElem]
    intro first second firstBound secondBound before foreign dependent
    have conflict : Conflict events[first].2 events[second].2 := by
      by_contra none
      exact dependent (commutes _ _ foreign none)
    exact rank_lt_of_conflict undisturbed before (List.getElem?_eq_getElem firstBound)
      (List.getElem?_eq_getElem secondBound) foreign conflict
  exact ⟨order, nodup, everyone, fun state =>
    run_sorted Prod.fst sorted nodup (fun event _ => everyone event.1) ranked state⟩

omit [DecidableEq Id] in
theorem undisturbed_of_grouped [PartialOrder Id] {events : List (Id × Access)}
    (grouped : events.Pairwise fun first second =>
      first.2 ≠ .none → second.2 ≠ .none → first.1 ≤ second.1) :
    Undisturbed events := by
  have ordered {first second : Nat} {id other : Id} {access otherAccess : Access}
      (before : first < second) (firstEvent : events[first]? = some (id, access))
      (secondEvent : events[second]? = some (other, otherAccess)) (touches : access ≠ .none)
      (otherTouches : otherAccess ≠ .none) : id ≤ other := by
    obtain ⟨firstBound, firstSame⟩ := List.getElem?_eq_some_iff.mp firstEvent
    obtain ⟨secondBound, secondSame⟩ := List.getElem?_eq_some_iff.mp secondEvent
    have pair := List.pairwise_iff_getElem.mp grouped first second firstBound secondBound before
    rw [firstSame, secondSame] at pair
    exact pair touches otherTouches
  constructor
  · intro first middle last id other before after lower upper atFirst atMiddle atLast touches later
    exact le_antisymm (ordered upper atMiddle atLast (by decide) later)
      (ordered lower atFirst atMiddle touches (by decide))
  · intro first middle last id other lower upper atFirst atMiddle atLast
    exact le_antisymm (ordered upper atMiddle atLast (by decide) (by decide))
      (ordered lower atFirst atMiddle (by decide) (by decide))

end Accesses

end Interleaving
