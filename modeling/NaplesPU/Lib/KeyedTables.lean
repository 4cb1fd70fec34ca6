import Mathlib.Data.List.Nodup

/-!
Tables whose entries have keys. Where no two keys of a table are equal, a lookup
that accepts entries of one key only finds the one entry it can accept. The check
of the keys takes one pass, with a bit for every remainder it has seen.
-/

namespace KeyedTables

/-- The bytes of a text, as the digits of one number. -/
def textKey (text : String) : Nat :=
  text.toByteArray.data.toList.foldl (fun key byte => key * 256 + byte.toNat) 0

/-- No bit of the number is at a position of the list, and no position is twice in it. -/
def unseen : Nat → List Nat → Bool
  | _, [] => true
  | seen, position :: rest => !seen.testBit position && unseen (seen ||| 1 <<< position) rest

/-- The keys are distinct, and they are so already modulo a prime of sixteen bits. -/
def distinct (keys : List Nat) : Bool :=
  unseen 0 (keys.map fun key => key % 65521)

theorem nodup_of_unseen {positions : List Nat} {seen : Nat} (fresh : unseen seen positions) :
    positions.Nodup ∧ ∀ position ∈ positions, seen.testBit position = false := by
  induction positions generalizing seen with
  | nil => simp
  | cons position rest induction =>
      rw [unseen, Bool.and_eq_true, Bool.not_eq_true'] at fresh
      obtain ⟨nodup, later⟩ := induction fresh.2
      have apart : ∀ other ∈ rest, seen.testBit other = false ∧ other ≠ position := by
        intro other member
        have unset := later other member
        rw [Nat.testBit_or, Bool.or_eq_false_iff, Nat.one_shiftLeft, Nat.testBit_two_pow] at unset
        exact ⟨unset.1, fun same => of_decide_eq_false unset.2 same.symm⟩
      constructor
      · rw [List.nodup_cons]
        exact ⟨fun member => (apart position member).2 rfl, nodup⟩
      · rintro other (_ | ⟨_, member⟩)
        · exact fresh.1
        · exact (apart other member).1

theorem nodup_of_distinct {keys : List Nat} (unequal : distinct keys) : keys.Nodup :=
  (nodup_of_unseen unequal).1.of_map

variable {Entry : Type*} {table : List Entry} {key : Entry → Nat} {accepts : Entry → Bool}

theorem find_eq_some (unequal : distinct (table.map key)) {entry : Entry}
    (member : entry ∈ table) (accepted : accepts entry)
    (keyed : ∀ other ∈ table, accepts other → key other = key entry) :
    table.find? accepts = some entry := by
  cases found : table.find? accepts with
  | none =>
      have absent := List.find?_eq_none.mp found entry member
      exact absurd accepted absent
  | some other =>
      have otherMember := List.mem_of_find?_eq_some found
      have same := keyed other otherMember (List.find?_some found)
      rw [List.inj_on_of_nodup_map (nodup_of_distinct unequal) otherMember member same]

end KeyedTables
