import Mathlib.Algebra.GroupWithZero.Nat
import Mathlib.Data.List.Basic
import Mathlib.Tactic.Common

/-!
Code in blocks that are laid out one behind the other, and its bytes where every item takes as
many: the place of an item among the items, and of its bytes among the bytes.
-/

namespace CodeLayout

section Positions

variable {Item : Type*} {blocks : List (List Item)} {block index : Nat} {code : List Item}
  {item : Item}

/-- The number of items before the one at an index of a block. -/
def position (blocks : List (List Item)) (block index : Nat) : Nat :=
  ((blocks.take block).map List.length).sum + index

theorem position_succ (blocks : List (List Item)) (block index : Nat) :
    position blocks block (index + 1) = position blocks block index + 1 := rfl

theorem position_next (laidOut : blocks[block]? = some code) :
    position blocks (block + 1) 0 = position blocks block code.length := by
  obtain ⟨inside, rfl⟩ := List.getElem?_eq_some_iff.mp laidOut
  rw [position, position, List.take_add_one, List.getElem?_eq_getElem inside, Option.toList_some,
    List.map_append, List.sum_append, List.map_singleton, List.sum_singleton, Nat.add_zero]

theorem item_at_position (laidOut : blocks[block]? = some code)
    (here : code[index]? = some item) :
    blocks.flatten[position blocks block index]? = some item := by
  induction blocks generalizing block with
  | nil => cases laidOut
  | cons first rest induction =>
      rw [List.flatten_cons]
      cases block with
      | zero =>
          rw [List.getElem?_cons_zero, Option.some.injEq] at laidOut
          subst laidOut
          have inside := (List.getElem?_eq_some_iff.mp here).1
          rw [position, List.take_zero, List.map_nil, List.sum_nil, Nat.zero_add,
            List.getElem?_append_left inside, here]
      | succ block =>
          rw [List.getElem?_cons_succ] at laidOut
          have later := induction laidOut
          rw [position, List.take_succ_cons, List.map_cons, List.sum_cons, Nat.add_assoc,
            List.getElem?_append_right (Nat.le_add_right _ _), Nat.add_sub_cancel_left]
          exact later

theorem position_le (blocks : List (List Item)) (block : Nat) :
    position blocks block 0 ≤ blocks.flatten.length := by
  rw [position, Nat.add_zero, List.length_flatten, ← List.take_append_drop block blocks,
    List.map_append, List.sum_append, List.take_append_drop]
  exact Nat.le_add_right _ _

theorem position_lt (laidOut : blocks[block]? = some code) (here : code[index]? = some item) :
    position blocks block index < blocks.flatten.length :=
  (List.getElem?_eq_some_iff.mp (item_at_position laidOut here)).1

end Positions

section Bytes

variable {Item Byte : Type*} {encode : Nat → Item → Option (List Byte)} {size start : Nat}
  {items : List Item}

/-- The bytes of items, each encoded for the position it is at. -/
def emit (encode : Nat → Item → Option (List Byte)) : Nat → List Item → Option (List Byte)
  | _, [] => some []
  | start, item :: rest =>
      (encode start item).bind fun bytes => (emit encode (start + 1) rest).map (bytes ++ ·)

def Encodable (encode : Nat → Item → Option (List Byte)) (size start : Nat) (items : List Item) :
    Prop :=
  ∀ offset item, items[offset]? = some item →
    ∃ bytes, encode (start + offset) item = some bytes ∧ bytes.length = size

theorem Encodable.tail {item : Item} (encodable : Encodable encode size start (item :: items)) :
    Encodable encode size (start + 1) items := by
  intro offset other here
  rw [Nat.add_assoc, Nat.add_comm 1]
  exact encodable (offset + 1) other here

theorem emit_defined (encodable : Encodable encode size start items) :
    ∃ bytes, emit encode start items = some bytes ∧ bytes.length = size * items.length := by
  induction items generalizing start with
  | nil => exact ⟨[], rfl, (Nat.mul_zero size).symm⟩
  | cons item rest induction =>
      obtain ⟨bytes, encoded, sized⟩ := encodable 0 item rfl
      rw [Nat.add_zero] at encoded
      obtain ⟨more, emitted, length⟩ := induction encodable.tail
      refine ⟨bytes ++ more, ?_, ?_⟩
      · rw [emit, encoded, Option.bind_some, emitted, Option.map_some]
      · rw [List.length_append, sized, length, List.length_cons, Nat.mul_succ, Nat.add_comm]

/-- The bytes of an item are where those of the items before it end. -/
theorem emitted_at {bytes : List Byte} (encodable : Encodable encode size start items)
    (emitted : emit encode start items = some bytes) {offset : Nat} {item : Item}
    (here : items[offset]? = some item) :
    encode (start + offset) item = some ((bytes.drop (size * offset)).take size) := by
  induction items generalizing start offset bytes with
  | nil => cases here
  | cons first rest induction =>
      obtain ⟨part, encoded, length⟩ := encodable 0 first rfl
      rw [Nat.add_zero] at encoded
      rw [emit, encoded, Option.bind_some, Option.map_eq_some_iff] at emitted
      obtain ⟨more, emitted, rfl⟩ := emitted
      cases offset with
      | zero =>
          rw [List.getElem?_cons_zero, Option.some.injEq] at here
          subst here
          rw [Nat.mul_zero, List.drop_zero, List.take_left' length]
          exact encoded
      | succ offset =>
          rw [List.getElem?_cons_succ] at here
          rw [Nat.mul_succ, Nat.add_comm (size * offset), ← List.drop_drop,
            List.drop_left' length, ← Nat.add_assoc, Nat.add_right_comm]
          exact induction encodable.tail emitted here

end Bytes

end CodeLayout
