import NaplesPU.Lib.ExchangeSort
import NaplesPU.Lib.Loops
import NaplesPU.Machine

/-!
The library's `qsort`, an exchange sort of elements of any width, which change places byte
by byte. A comparison sees two elements as their bytes.
-/

namespace NaplesPU.Qsort

open ByteMemory ExchangeSort Loops Machine

abbrev Element (width : Word) := { bytes : List Byte // bytes.length = width.toNat }

def elementAt (memory : Memory 32) (width address : Word) : Element width :=
  ⟨loadBytes memory address width.toNat, load_length memory address width.toNat⟩

/-- The memory, and the addresses that were read or written. -/
structure State where
  memory : Memory 32
  accessed : List Word

section Routine

def cells (width elem : Word) : List Word :=
  (List.range width.toNat).map fun offset => elem + BitVec.ofNat 32 offset

/-- The body of the loop that swaps two elements. -/
def swapByte (elem1 elem2 k : Word) (state : State) : State :=
  let tmp := state.memory (elem1 + k)
  let stored := Function.update state.memory (elem1 + k) (state.memory (elem2 + k))
  ⟨Function.update stored (elem2 + k) tmp, state.accessed ++ [elem1 + k, elem2 + k]⟩

/-- The body of the inner loop; the comparison reads both elements. -/
def compareElements (base width : Word) (cmp : Element width → Element width → Int) (i j : Word)
    (state : State) : State :=
  let elem1 := base + i * width
  let elem2 := base + j * width
  let compared : State :=
    ⟨state.memory, state.accessed ++ (cells width elem1 ++ cells width elem2)⟩
  if 0 < cmp (elementAt state.memory width elem1) (elementAt state.memory width elem2) then
    countUp width (swapByte elem1 elem2) 0 compared
  else compared

def qsort (memory : Memory 32) (base nel width : Word)
    (cmp : Element width → Element width → Int) : State :=
  if nel = 0 then ⟨memory, []⟩
  else
    countUp (nel - 1) (fun i => countUp nel (compareElements base width cmp i) (i + 1)) 0
      ⟨memory, []⟩

end Routine

section Elements

variable (base nel width : Word)

def place (index : Nat) : Word := base + BitVec.ofNat 32 (index * width.toNat)

def entries (memory : Memory 32) (position : Fin nel.toNat) : Element width :=
  elementAt memory width (place base width position)

def elements (memory : Memory 32) : List (Element width) :=
  List.ofFn (entries base nel width memory)

def Inside (address : Word) : Prop :=
  base.toNat ≤ address.toNat ∧ address.toNat < base.toNat + nel.toNat * width.toNat

def Fits : Prop := base.toNat + nel.toNat * width.toNat ≤ 2 ^ 32

variable {base nel width}

theorem place_eq (index : Word) : base + index * width = place base width index.toNat := by
  have product : index * width = BitVec.ofNat 32 (index.toNat * width.toNat) := by
    apply BitVec.eq_of_toNat_eq
    rw [BitVec.toNat_mul, BitVec.toNat_ofNat]
  rw [place, product]

theorem element_room {index : Nat} (inArray : index < nel.toNat) :
    index * width.toNat + width.toNat ≤ nel.toNat * width.toNat := by
  rw [← Nat.succ_mul]
  exact Nat.mul_le_mul_right _ inArray

theorem cell_inside (fits : Fits base nel width) {index offset : Nat}
    (inArray : index < nel.toNat) (inElement : offset < width.toNat) :
    Inside base nel width (place base width index + BitVec.ofNat 32 offset) := by
  have room := @element_room nel width index inArray
  rw [Fits] at fits
  have address : (place base width index + BitVec.ofNat 32 offset).toNat =
      base.toNat + (index * width.toNat + offset) := by
    rw [place, BitVec.add_assoc, ← BitVec.ofNat_add, BitVec.toNat_add, BitVec.toNat_ofNat]
    omega
  rw [Inside, address]
  omega

theorem cells_inside (fits : Fits base nel width) {index : Nat} (inArray : index < nel.toNat) :
    ∀ address ∈ cells width (place base width index), Inside base nel width address := by
  intro address member
  rw [cells, List.mem_map] at member
  obtain ⟨offset, inElement, rfl⟩ := member
  exact cell_inside fits inArray (List.mem_range.mp inElement)

/-- A cell outside the array is in none of its elements. -/
theorem outside_element (fits : Fits base nel width) {index : Nat} (inArray : index < nel.toNat)
    {cell : Word} (outside : ¬ Inside base nel width cell) :
    width.toNat ≤ offsetFrom (place base width index) cell := by
  by_contra near
  have inside := cell_inside fits inArray (not_le.mp near)
  rw [add_offset_from] at inside
  exact outside inside

theorem later_apart (fits : Fits base nel width) {first second : Nat}
    (secondIn : second < nel.toNat) (before : first < second) :
    Apart (place base width first) width.toNat (place base width second) width.toNat := by
  have room := @element_room nel width second secondIn
  have gap := Nat.mul_le_mul_right width.toNat (Nat.succ_le_of_lt before)
  rw [Nat.succ_mul] at gap
  rw [Fits] at fits
  have further : place base width second = place base width first +
      BitVec.ofNat 32 (second * width.toNat - first * width.toNat) := by
    rw [place, place, BitVec.add_assoc, ← BitVec.ofNat_add, Nat.add_sub_cancel' (by omega)]
  rw [further]
  exact apart_of_above (by omega) (by omega)

theorem elements_apart (fits : Fits base nel width) {first second : Nat}
    (firstIn : first < nel.toNat) (secondIn : second < nel.toNat) (different : first ≠ second) :
    Apart (place base width first) width.toNat (place base width second) width.toNat := by
  rcases Nat.lt_or_gt_of_ne different with before | after
  · exact later_apart fits secondIn before
  · exact apart_symm width.isLt.le (later_apart fits firstIn after)

end Elements

section Swap

variable {base nel width : Word} {memory : Memory 32} {first second : Nat}

/-- The first bytes of two elements have changed places, and the array only was accessed. -/
structure Swapping (base nel width : Word) (memory : Memory 32) (first second count : Nat)
    (state : State) : Prop where
  exchanging : state.memory =
    exchanged memory (place base width first) (place base width second) count
  accessed : ∀ address ∈ state.accessed, Inside base nel width address

theorem Swapping.swap_byte {k : Word} {state : State}
    (swapping : Swapping base nel width memory first second k.toNat state)
    (fits : Fits base nel width) (firstIn : first < nel.toNat) (secondIn : second < nel.toNat)
    (different : first ≠ second) (more : k.toNat < width.toNat) :
    Swapping base nel width memory first second (k.toNat + 1)
      (swapByte (place base width first) (place base width second) k state) := by
  have index : BitVec.ofNat 32 k.toNat = k := by
    rw [BitVec.ofNat_toNat, BitVec.setWidth_eq]
  constructor
  · have apart := elements_apart fits firstIn secondIn different
    have next := @exchange_next 32 memory _ _ _ width.isLt.le apart _ more
    rw [index] at next
    rw [swapByte, swapping.exchanging]
    exact next
  · have atFirst := cell_inside fits firstIn more
    have atSecond := cell_inside fits secondIn more
    rw [index] at atFirst atSecond
    rw [swapByte, List.forall_mem_append]
    exact ⟨swapping.accessed, List.forall_mem_cons.mpr
      ⟨atFirst, List.forall_mem_singleton.mpr atSecond⟩⟩

theorem swap_loop (fits : Fits base nel width) (firstIn : first < nel.toNat)
    (secondIn : second < nel.toNat) (different : first ≠ second) {state : State}
    (accessed : ∀ address ∈ state.accessed, Inside base nel width address) :
    Swapping base nel width state.memory first second width.toNat
      (countUp width (swapByte (place base width first) (place base width second)) 0 state) := by
  apply count_up_invariant (Swapping base nel width state.memory first second)
  · intro k current more swapping
    exact swapping.swap_byte fits firstIn secondIn different more
  · exact Nat.zero_le _
  · exact ⟨(exchanged_nothing _ _ _).symm, accessed⟩

theorem entries_exchanged (fits : Fits base nel width) (memory : Memory 32)
    {i j : Fin nel.toNat} (different : i ≠ j) :
    entries base nel width
        (exchanged memory (place base width i) (place base width j) width.toNat) =
      entries base nel width memory ∘ Equiv.swap i j := by
  have apart := elements_apart fits i.isLt j.isLt (Fin.val_ne_of_ne different)
  funext position
  apply Subtype.ext
  rw [Function.comp_apply, Equiv.swap_apply_def]
  split
  · rename_i same
    rw [same]
    exact load_exchanged_first width.isLt.le
  · rename_i notFirst
    split
    · rename_i same
      rw [same]
      exact load_exchanged_second width.isLt.le apart
    · rename_i notSecond
      exact load_exchanged_apart
        (elements_apart fits i.isLt position.isLt (Fin.val_ne_of_ne (Ne.symm notFirst)))
        (elements_apart fits j.isLt position.isLt (Fin.val_ne_of_ne (Ne.symm notSecond)))

end Swap

section Comparison

variable {base nel width : Word} {cmp : Element width → Element width → Int}

def InOrder (cmp : Element width → Element width → Int) (left right : Element width) : Prop :=
  cmp left right ≤ 0

instance : DecidableRel (InOrder cmp) := fun left right =>
  inferInstanceAs (Decidable (cmp left right ≤ 0))

variable {state : State}

/-- The run has accessed the array only, and all other memory is as it was. -/
structure Confined (base nel width : Word) (memory : Memory 32) (state : State) : Prop where
  accessed : ∀ address ∈ state.accessed, Inside base nel width address
  outside : ∀ cell, ¬ Inside base nel width cell → state.memory cell = memory cell

/-- The body of the inner loop exchanges two entries that are not in order. -/
theorem compare_elements_entries (fits : Fits base nel width) {i j : Word}
    (iIn : i.toNat < nel.toNat) (jIn : j.toNat < nel.toNat) (different : i.toNat ≠ j.toNat)
    {memory : Memory 32} (confined : Confined base nel width memory state) :
    entries base nel width (compareElements base width cmp i j state).memory =
        exchange (InOrder cmp) ⟨i.toNat, iIn⟩ ⟨j.toNat, jIn⟩
          (entries base nel width state.memory) ∧
      Confined base nel width memory (compareElements base width cmp i j state) := by
  have compared : ∀ address ∈ state.accessed ++
      (cells width (place base width i.toNat) ++ cells width (place base width j.toNat)),
      Inside base nel width address := by
    rw [List.forall_mem_append, List.forall_mem_append]
    exact ⟨confined.accessed, cells_inside fits iIn, cells_inside fits jIn⟩
  rw [compareElements, place_eq i, place_eq j, exchange]
  split
  · rename_i exceeds
    have swapped := @swap_loop base nel width i.toNat j.toNat fits iIn jIn different
      ⟨state.memory, _⟩ compared
    have unordered : ¬ InOrder cmp (entries base nel width state.memory ⟨i.toNat, iIn⟩)
        (entries base nel width state.memory ⟨j.toNat, jIn⟩) := not_le.mpr exceeds
    have exchanged := @entries_exchanged base nel width fits state.memory ⟨i.toNat, iIn⟩
      ⟨j.toNat, jIn⟩ (Fin.ne_of_val_ne different)
    rw [if_neg unordered, ← exchanged]
    constructor
    · rw [swapped.exchanging]
    · constructor
      · exact swapped.accessed
      · intro cell outside
        rw [swapped.exchanging, ← confined.outside cell outside]
        exact exchanged_outside (outside_element fits iIn outside)
          (outside_element fits jIn outside)
  · rename_i ordered
    have kept : InOrder cmp (entries base nel width state.memory ⟨i.toNat, iIn⟩)
        (entries base nel width state.memory ⟨j.toNat, jIn⟩) := not_lt.mp ordered
    rw [if_pos kept]
    exact ⟨rfl, compared, confined.outside⟩

end Comparison

section Loops

variable {base nel width : Word} {cmp : Element width → Element width → Int}
  {memory : Memory 32}

/-- The array is a rearrangement of what it was, its first entries are settled, and nothing
else was touched. -/
structure Progress (base nel width : Word) (cmp : Element width → Element width → Int)
    (memory : Memory 32) (count : Nat) (state : State) : Prop where
  permuted : (elements base nel width state.memory).Perm (elements base nel width memory)
  settled : Settled (InOrder cmp) (entries base nel width state.memory) count
  confined : Confined base nel width memory state

/-- The inner loop moves a least entry of the rest to the front of it. -/
theorem inner_loop (fits : Fits base nel width) (order : TotalPreorder (InOrder cmp)) {i : Word}
    (iIn : i.toNat < nel.toNat) {state : State}
    (progress : Progress base nel width cmp memory i.toNat state) :
    Progress base nel width cmp memory (i.toNat + 1)
      (countUp nel (compareElements base width cmp i) (i + 1) state) := by
  have next : (i + 1).toNat = i.toNat + 1 := next_index iIn
  have loop := @count_up_invariant State 32 nel (compareElements base width cmp i)
    (fun bound current => i.toNat < bound ∧
      Progress base nel width cmp memory i.toNat current ∧
      Least (InOrder cmp) (entries base nel width current.memory) ⟨i.toNat, iIn⟩ bound)
    ?_ (i + 1) state (by omega) ?_
  · obtain ⟨-, scanned, least⟩ := loop
    exact ⟨scanned.permuted, settled_succ scanned.settled least, scanned.confined⟩
  · rintro j current jIn ⟨later, scanned, least⟩
    obtain ⟨exchanged, confined⟩ :=
      @compare_elements_entries base nel width cmp current fits i j iIn jIn later.ne memory
        scanned.confined
    have after : (⟨i.toNat, iIn⟩ : Fin nel.toNat) < ⟨j.toNat, jIn⟩ := later
    refine ⟨Nat.lt_succ_of_lt later, ⟨?_, ?_, confined⟩, ?_⟩
    · rw [elements, exchanged]
      exact (exchange_perm _ _ _).trans scanned.permuted
    · rw [exchanged]
      exact exchange_settled scanned.settled after
    · rw [exchanged]
      exact exchange_least order least
  · rw [next]
    exact ⟨Nat.lt_succ_self _, progress, least_start _ _⟩

theorem progress_start (base nel width : Word) (cmp : Element width → Element width → Int)
    (memory : Memory 32) : Progress base nel width cmp memory 0 ⟨memory, []⟩ where
  permuted := List.Perm.refl _
  settled := settled_nothing _
  confined := by
    constructor
    · intro address member
      cases member
    · intro cell outside
      rfl

theorem outer_loop (fits : Fits base nel width) (order : TotalPreorder (InOrder cmp))
    (memory : Memory 32) :
    Progress base nel width cmp memory (nel.toNat - 1) (qsort memory base nel width cmp) := by
  have bounded := nel.isLt
  by_cases empty : nel = 0
  · rw [qsort, if_pos empty, empty]
    exact progress_start base 0 width cmp memory
  · have positive := BitVec.toNat_pos_of_ne_zero empty
    have last : (nel - 1).toNat = nel.toNat - 1 := by
      have one : (1 : Word).toNat = 1 := rfl
      rw [BitVec.toNat_sub, one]
      omega
    rw [qsort, if_neg empty, ← last]
    apply count_up_invariant (Progress base nel width cmp memory)
    · intro i state more progress
      exact inner_loop fits order (by omega) progress
    · exact Nat.zero_le _
    · exact progress_start base nel width cmp memory

/-- What `qsort` leaves: the elements in order, none lost or added, and only the array touched. -/
structure Sorted (base nel width : Word) (cmp : Element width → Element width → Int)
    (memory : Memory 32) (final : State) : Prop where
  sorted : (elements base nel width final.memory).Pairwise (InOrder cmp)
  permuted : (elements base nel width final.memory).Perm (elements base nel width memory)
  confined : Confined base nel width memory final

/-- Every array in the address space is sorted, by every total preorder on its elements. -/
theorem qsort_sorts (fits : Fits base nel width) (order : TotalPreorder (InOrder cmp))
    (memory : Memory 32) :
    Sorted base nel width cmp memory (qsort memory base nel width cmp) := by
  have progress := outer_loop fits order memory
  exact ⟨sorted_of_settled progress.settled, progress.permuted, progress.confined⟩

end Loops

section Bytes

/-- Elements compared as the numbers that their bytes are. -/
def compareValues {width : Word} (left right : Element width) : Int :=
  (valueLE left.1 : Int) - (valueLE right.1 : Int)

theorem compare_values_order (width : Word) :
    TotalPreorder (InOrder (@compareValues width)) where
  total := by
    intro left right
    unfold InOrder compareValues
    omega
  transitive := by
    intro left middle right
    unfold InOrder compareValues
    omega

/-- A descending array of five words. -/
theorem words_sorted :
    Sorted 0x1000 5 4 compareValues (fun cell => 0 - cell.setWidth 8)
      (qsort (fun cell => 0 - cell.setWidth 8) 0x1000 5 4 compareValues) :=
  qsort_sorts (by unfold Fits; decide) (compare_values_order 4) _

end Bytes

end NaplesPU.Qsort
