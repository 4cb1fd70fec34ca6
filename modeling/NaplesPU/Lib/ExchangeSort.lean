import Mathlib.Data.List.FinRange
import Mathlib.Data.List.Pairwise
import Mathlib.Logic.Equiv.Basic
import Mathlib.Tactic.Common

/-!
Sorting by exchanges. Each entry in turn is compared with all later ones, and takes their
place when it exceeds one. The entries before it are settled, no later one lies below them.
-/

namespace ExchangeSort

variable {α : Type*} {size : Nat} (le : α → α → Prop) [DecidableRel le]

/-- One comparison: two entries change places if the first exceeds the second. -/
def exchange (i j : Fin size) (entries : Fin size → α) : Fin size → α :=
  if le (entries i) (entries j) then entries else entries ∘ Equiv.swap i j

/-- The first entries are in order, and none after them lies below one of them. -/
def Settled (entries : Fin size → α) (count : Nat) : Prop :=
  ∀ first second : Fin size, first.val < count → first < second →
    le (entries first) (entries second)

/-- No entry after `i` and before the bound lies below that at `i`. -/
def Least (entries : Fin size → α) (i : Fin size) (bound : Nat) : Prop :=
  ∀ later : Fin size, i < later → later.val < bound → le (entries i) (entries later)

/-- An order in which different entries may be equal. -/
structure TotalPreorder (le : α → α → Prop) : Prop where
  total : ∀ left right, le left right ∨ le right left
  transitive : ∀ left middle right, le left middle → le middle right → le left right

variable {le} {i j : Fin size} {entries : Fin size → α}

theorem exchange_perm (i j : Fin size) (entries : Fin size → α) :
    (List.ofFn (exchange le i j entries)).Perm (List.ofFn entries) := by
  rw [exchange]
  split
  · exact List.Perm.refl _
  · exact Equiv.Perm.ofFn_comp_perm (Equiv.swap i j) entries

omit [DecidableRel le] in
theorem settled_nothing (entries : Fin size → α) : Settled le entries 0 := by
  intro first second before
  exact absurd before (Nat.not_lt_zero _)

omit [DecidableRel le] in
theorem least_start (entries : Fin size → α) (i : Fin size) : Least le entries i (i.val + 1) := by
  intro later after before
  have ordered : i.val < later.val := after
  omega

theorem exchange_settled (settled : Settled le entries i.val) (later : i < j) :
    Settled le (exchange le i j entries) i.val := by
  rw [exchange]
  split
  · exact settled
  · intro first second before after
    have firstLess : first < i := before
    have unmoved : Equiv.swap i j first = first :=
      Equiv.swap_apply_of_ne_of_ne firstLess.ne (firstLess.trans later).ne
    have further : first < Equiv.swap i j second := by
      rw [Equiv.swap_apply_def]
      split
      · exact firstLess.trans later
      · split
        · exact firstLess
        · exact after
    rw [Function.comp_apply, Function.comp_apply, unmoved]
    exact settled first (Equiv.swap i j second) before further

/-- Of two entries the one that does not exceed the other is kept first. -/
theorem exchange_least (order : TotalPreorder le) (least : Least le entries i j.val) :
    Least le (exchange le i j entries) i (j.val + 1) := by
  intro other after before
  rw [exchange]
  split
  · rename_i ordered
    rcases Nat.lt_succ_iff_lt_or_eq.mp before with less | same
    · exact least other after less
    · rw [Fin.ext same]
      exact ordered
  · rename_i exceeds
    have below : le (entries j) (entries i) := (order.total _ _).resolve_left exceeds
    rw [Function.comp_apply, Function.comp_apply, Equiv.swap_apply_left]
    rcases Nat.lt_succ_iff_lt_or_eq.mp before with less | same
    · have notLast : other ≠ j := fun equal => by
        rw [equal] at less
        exact lt_irrefl _ less
      rw [Equiv.swap_apply_of_ne_of_ne after.ne' notLast]
      exact order.transitive _ _ _ below (least other after less)
    · rw [Fin.ext same, Equiv.swap_apply_right]
      exact below

omit [DecidableRel le] in
/-- An entry below all later ones is settled. -/
theorem settled_succ (settled : Settled le entries i.val) (least : Least le entries i size) :
    Settled le entries (i.val + 1) := by
  intro first second before after
  rcases Nat.lt_succ_iff_lt_or_eq.mp before with less | same
  · exact settled first second less after
  · obtain rfl := Fin.ext same
    exact least second after second.isLt

omit [DecidableRel le] in
theorem sorted_of_settled (settled : Settled le entries (size - 1)) :
    (List.ofFn entries).Pairwise le := by
  rw [List.pairwise_ofFn]
  intro first second after
  have ordered : first.val < second.val := after
  have bounded := second.isLt
  exact settled first second (by omega) after

end ExchangeSort
