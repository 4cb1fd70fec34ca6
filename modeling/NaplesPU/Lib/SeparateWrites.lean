import Mathlib.Data.List.Perm.Basic

/-!
Writes to separate places of a state. Performed in whatever order, each of them is still to be
read afterwards; if separate ones commute, the order makes no difference at all. Both are about
the states that meet a condition which every write keeps.
-/

namespace SeparateWrites

section Writes

variable {State Write : Type*} {perform : State → Write → State} {Separate : Write → Write → Prop}
  {writes : List Write}

theorem kept_by_all {Kept : State → Prop}
    (kept : ∀ write ∈ writes, ∀ state, Kept state → Kept (perform state write)) {state : State}
    (before : Kept state) : Kept (writes.foldl perform state) := by
  induction writes generalizing state with
  | nil => exact before
  | cons write rest induction =>
      rw [List.forall_mem_cons] at kept
      exact induction kept.2 (kept.1 state before)

section Valid

variable (Valid : State → Prop)

/-- A write is kept by the writes behind it. -/
theorem written_by_all {Holds : Write → State → Prop}
    (valid : ∀ write ∈ writes, ∀ state, Valid state → Valid (perform state write))
    (written : ∀ write ∈ writes, ∀ state, Valid state → Holds write (perform state write))
    (kept : ∀ write ∈ writes, ∀ other ∈ writes, Separate write other →
      ∀ state, Valid state → Holds write state → Holds write (perform state other))
    (separate : writes.Pairwise Separate) {state : State} (before : Valid state) :
    ∀ write ∈ writes, Holds write (writes.foldl perform state) := by
  induction writes generalizing state with
  | nil => exact List.forall_mem_nil _
  | cons first rest induction =>
      rw [List.forall_mem_cons] at valid written
      rw [List.pairwise_cons] at separate
      rw [List.forall_mem_cons, List.foldl_cons]
      have next := valid.1 state before
      constructor
      · have both : Valid (rest.foldl perform (perform state first)) ∧
            Holds first (rest.foldl perform (perform state first)) := by
          apply @kept_by_all _ _ perform rest (fun state => Valid state ∧ Holds first state) ?_ _
            ⟨next, written.1 state before⟩
          rintro other inRest after ⟨isValid, holds⟩
          exact ⟨valid.2 other inRest after isValid, kept first List.mem_cons_self other
            (List.mem_cons_of_mem first inRest) (separate.1 other inRest) after isValid holds⟩
        exact both.2
      · apply induction valid.2 written.2 ?_ separate.2 next
        intro write inRest other otherInRest
        exact kept write (List.mem_cons_of_mem first inRest) other
          (List.mem_cons_of_mem first otherInRest)

variable (symmetric : ∀ {write other}, Separate write other → Separate other write)

include symmetric

theorem written_in_any_order {Holds : Write → State → Prop}
    (valid : ∀ write ∈ writes, ∀ state, Valid state → Valid (perform state write))
    (written : ∀ write ∈ writes, ∀ state, Valid state → Holds write (perform state write))
    (kept : ∀ write ∈ writes, ∀ other ∈ writes, Separate write other →
      ∀ state, Valid state → Holds write state → Holds write (perform state other))
    (separate : writes.Pairwise Separate) {order : List Write} (permuted : order.Perm writes)
    {state : State} (before : Valid state) :
    ∀ write ∈ writes, Holds write (order.foldl perform state) := by
  intro write listed
  apply written_by_all Valid ?_ ?_ ?_ ((permuted.pairwise_iff symmetric).mpr separate) before write
    (permuted.mem_iff.mpr listed)
  · intro other inOrder
    exact valid other (permuted.mem_iff.mp inOrder)
  · intro other inOrder
    exact written other (permuted.mem_iff.mp inOrder)
  · intro other inOrder another anotherInOrder
    exact kept other (permuted.mem_iff.mp inOrder) another (permuted.mem_iff.mp anotherInOrder)

theorem same_in_any_order
    (valid : ∀ write ∈ writes, ∀ state, Valid state → Valid (perform state write))
    (commute : ∀ write ∈ writes, ∀ other ∈ writes, Separate write other → ∀ state, Valid state →
      perform (perform state write) other = perform (perform state other) write)
    (separate : writes.Pairwise Separate) {order : List Write} (permuted : writes.Perm order)
    {state : State} (before : Valid state) :
    writes.foldl perform state = order.foldl perform state := by
  induction permuted generalizing state with
  | nil => rfl
  | cons first _ induction =>
      rw [List.forall_mem_cons] at valid
      rw [List.pairwise_cons] at separate
      apply induction valid.2 ?_ separate.2 (valid.1 state before)
      intro write listed other otherListed
      exact commute write (List.mem_cons_of_mem first listed) other
        (List.mem_cons_of_mem first otherListed)
  | swap first second rest =>
      rw [List.pairwise_cons] at separate
      have apart := separate.1 first List.mem_cons_self
      rw [List.foldl_cons, List.foldl_cons, List.foldl_cons, List.foldl_cons,
        commute second List.mem_cons_self first (List.mem_cons_of_mem second List.mem_cons_self)
          apart state before]
  | trans firstHalf _ firstInduction secondInduction =>
      rw [firstInduction valid commute separate before]
      apply secondInduction ?_ ?_ ((firstHalf.pairwise_iff symmetric).mp separate) before
      · intro write listed
        exact valid write (firstHalf.mem_iff.mpr listed)
      · intro write listed other otherListed
        exact commute write (firstHalf.mem_iff.mpr listed) other
          (firstHalf.mem_iff.mpr otherListed)

end Valid

end Writes

end SeparateWrites
