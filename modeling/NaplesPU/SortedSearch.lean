import Mathlib.Data.Nat.Size
import NaplesPU.Bsearch

/-!
Sorting an array once and searching it with the same comparator: what was in the array before is
found, and nothing else, with as many comparisons as the count of elements has binary digits.
-/

namespace NaplesPU.SortedSearch

open ByteMemory Ctype ExchangeSort Loops Machine Qsort Bsearch

section Comparisons

variable {Key : Type} {memory : Memory 32} {searchKey : Key} {base num size : Word}
  {compare : Key → Element size → Int}

/-- Every round so far has at least halved the part that is left. -/
structure Halved (num : Word) (bounds : Bounds) : Prop where
  low : 0 ≤ bounds.low
  left : 2 ^ bounds.indices.length * bounds.extent ≤ num.toNat
  brief : bounds.indices.length ≤ Nat.size num.toNat

theorem Halved.room {bounds : Bounds} (halved : Halved num bounds)
    (ordered : bounds.low ≤ bounds.high) : bounds.indices.length < Nat.size num.toNat := by
  have positive : 0 < bounds.extent := by
    rw [Bounds.extent]
    omega
  exact Nat.lt_size.mpr ((Nat.le_mul_of_pos_right _ positive).trans halved.left)

theorem Halved.next {bounds next : Bounds} (halved : Halved num bounds)
    (ordered : bounds.low ≤ bounds.high) (low : 0 ≤ next.low) {mid : Int}
    (indices : next.indices = bounds.indices ++ [mid]) (half : next.extent ≤ bounds.extent / 2) :
    Halved num next := by
  have length : next.indices.length = bounds.indices.length + 1 := by
    rw [indices, List.length_append, List.length_singleton]
  refine ⟨low, ?_, ?_⟩
  · calc 2 ^ next.indices.length * next.extent
        ≤ 2 ^ next.indices.length * (bounds.extent / 2) := Nat.mul_le_mul_left _ half
      _ = 2 ^ bounds.indices.length * (2 * (bounds.extent / 2)) := by
        rw [length, pow_succ, mul_assoc]
      _ ≤ 2 ^ bounds.indices.length * bounds.extent :=
        Nat.mul_le_mul_left _ (Nat.mul_div_le _ _)
      _ ≤ num.toNat := halved.left
  · rw [length]
    exact halved.room ordered

theorem Halved.round {bounds : Bounds} (halved : Halved num bounds)
    (ordered : bounds.low ≤ bounds.high) :
    (bsearchBody memory searchKey base size compare bounds).elim
      (fun outcome => outcome.indices.length ≤ Nat.size num.toNat) (Halved num) := by
  have low := halved.low
  have one (mid : Int) : (bounds.indices ++ [mid]).length ≤ Nat.size num.toNat := by
    rw [List.length_append, List.length_singleton]
    exact halved.room ordered
  have half : (bounds.low + bounds.high).tdiv 2 = (bounds.low + bounds.high) / 2 :=
    Int.tdiv_eq_ediv_of_nonneg (by omega)
  rw [bsearchBody]
  split
  · exact halved.brief
  · rename_i sum added
    rw [checked_eq added]
    dsimp only
    rw [half]
    split
    · exact one _
    · split
      · split
        · exact one _
        · rename_i high lowered
          refine @Halved.next num bounds ⟨bounds.low, high, _⟩ halved ordered low _ rfl ?_
          rw [Bounds.extent, Bounds.extent, checked_eq lowered]
          dsimp only
          omega
      · split
        · exact one _
        · rename_i next raised
          refine @Halved.next num bounds ⟨next, bounds.high, _⟩ halved ordered ?_ _ rfl ?_
          · rw [checked_eq raised]
            dsimp only
            omega
          · rw [Bounds.extent, Bounds.extent, checked_eq raised]
            dsimp only
            omega

/-- No search compares more often than the count has binary digits. -/
theorem comparisons_bounded (memory : Memory 32) (searchKey : Key) (base num size : Word)
    (compare : Key → Element size → Int) :
    (bsearch memory searchKey base num size compare).indices.length ≤ Nat.size num.toNat := by
  have start : Halved num ⟨0, lastIndex num, []⟩ := by
    refine ⟨le_rfl, ?_, Nat.zero_le _⟩
    have last : lastIndex num < num.toNat ∨ num.toNat = 0 ∧ lastIndex num = -1 := by
      have bound := num.isLt
      have one : (1 : Word).toNat = 1 := rfl
      rw [lastIndex, BitVec.toInt_eq_toNat_cond, BitVec.toNat_sub, one]
      split <;> omega
    rw [Bounds.extent, List.length_nil, pow_zero, one_mul]
    dsimp only
    omega
  have loop := @return_invariant Bounds Outcome (fun bounds => decide (bounds.low ≤ bounds.high))
    (bsearchBody memory searchKey base size compare) Bounds.extent
    (bsearch_smaller memory searchKey base size compare) (Halved num)
    (fun outcome => outcome.indices.length ≤ Nat.size num.toNat)
    (fun bounds halved ordered => halved.round (of_decide_eq_true ordered)) _ start
  rw [bsearch]
  split
  · rename_i outcome ended
    rw [ended] at loop
    exact loop
  · rename_i bounds ended
    rw [ended] at loop
    exact loop.1.brief

end Comparisons

section Sorting

variable {base nel width : Word} {cmp : Element width → Element width → Int}

/-- A comparator whose signs turn round with its arguments, and whose order is transitive. -/
structure Consistent (cmp : Element width → Element width → Int) : Prop where
  signs : ∀ left right, cmp left right ≤ 0 ↔ 0 ≤ cmp right left
  trans : ∀ left middle right, cmp left middle ≤ 0 → cmp middle right ≤ 0 → cmp left right ≤ 0

theorem Consistent.order (consistent : Consistent cmp) : TotalPreorder (InOrder cmp) where
  total := by
    intro left right
    by_cases ordered : cmp left right ≤ 0
    · exact Or.inl ordered
    · have turned := mt (consistent.signs left right).mpr ordered
      exact Or.inr (not_le.mp turned).le
  transitive := consistent.trans

theorem Consistent.refl (consistent : Consistent cmp) (element : Element width) :
    cmp element element = 0 := by
  have same := consistent.signs element element
  omega

theorem sorted_entries (fits : Fits base nel width) (consistent : Consistent cmp)
    (memory : Memory 32) {first second : Nat} (before : first ≤ second)
    (inArray : second < nel.toNat) :
    cmp (elementAt (qsort memory base nel width cmp).memory width (place base width first))
      (elementAt (qsort memory base nel width cmp).memory width (place base width second)) ≤ 0 := by
  have progress := outer_loop fits consistent.order memory
  have sorted := sorted_of_settled progress.settled
  rw [List.pairwise_ofFn] at sorted
  rcases Nat.lt_or_eq_of_le before with earlier | rfl
  · exact @sorted ⟨first, earlier.trans inArray⟩ ⟨second, inArray⟩ earlier
  · exact (consistent.refl _).le

theorem mem_elements (fits : Fits base nel width) (consistent : Consistent cmp)
    (memory : Memory 32) (element : Element width) :
    element ∈ elements base nel width memory ↔ ∃ index < nel.toNat,
      elementAt (qsort memory base nel width cmp).memory width (place base width index) =
        element := by
  have progress := outer_loop fits consistent.order memory
  rw [← progress.permuted.mem_iff, elements, List.mem_ofFn]
  constructor
  · rintro ⟨position, same⟩
    exact ⟨position, position.isLt, same⟩
  · rintro ⟨index, inArray, same⟩
    exact ⟨⟨index, inArray⟩, same⟩

/-- What a search of the sorted array says about the array as it was. -/
structure FindsStored (base nel width : Word) (cmp : Element width → Element width → Int)
    (memory : Memory 32) (key : Element width) (outcome : Outcome) : Prop where
  ends : ∃ pointer, outcome.ended = .returned pointer
  found : ∀ pointer, outcome.ended = .returned (some pointer) →
    (∃ index < nel.toNat, pointer = place base width index) ∧
      elementAt (qsort memory base nel width cmp).memory width pointer ∈
        elements base nel width memory ∧
      cmp key (elementAt (qsort memory base nel width cmp).memory width pointer) = 0
  complete : outcome.ended = .returned none →
    ∀ element ∈ elements base nel width memory, cmp key element ≠ 0
  brief : outcome.indices.length ≤ Nat.size nel.toNat

/-- Sorted once, an array can be searched for every key. -/
theorem sort_then_search (fits : Fits base nel width) (few : nel.toNat ≤ 2 ^ 30)
    (consistent : Consistent cmp) (memory : Memory 32) :
    Confined base nel width memory (qsort memory base nel width cmp) ∧
      ∀ key, FindsStored base nel width cmp memory key
        (bsearch (qsort memory base nel width cmp).memory key base nel width cmp) := by
  have progress := outer_loop fits consistent.order memory
  refine ⟨progress.confined, fun key => ?_⟩
  have partitioned : Partitioned (qsort memory base nel width cmp).memory key base nel width cmp :=
    sorted_partitioned consistent.signs consistent.trans fun _ _ before inArray =>
      sorted_entries fits consistent memory before inArray
  have inRange : SumsInRange (qsort memory base nel width cmp).memory key base nel width cmp :=
    ⟨by omega, fun steps _ beyond => by omega⟩
  have right := searches_right partitioned inRange
  have finds := right.finds
  refine ⟨?_, fun pointer ended => ?_, fun ended element stored => ?_,
    comparisons_bounded _ key base nel width cmp⟩
  · cases ended :
        (bsearch (qsort memory base nel width cmp).memory key base nel width cmp).ended with
    | overflow =>
        rw [ended] at finds
        exact finds.elim
    | returned pointer => exact ⟨pointer, rfl⟩
  · rw [ended] at finds
    obtain ⟨index, inArray, rfl, equal⟩ := finds
    exact ⟨⟨index, inArray, rfl⟩, (mem_elements fits consistent memory _).mpr
      ⟨index, inArray, rfl⟩, equal⟩
  · rw [ended] at finds
    obtain ⟨index, inArray, rfl⟩ := (mem_elements fits consistent memory element).mp stored
    exact finds index inArray

/-- A descending array of five words. -/
theorem words_searched :
    Confined 0x1000 5 4 (fun cell => 0 - cell.setWidth 8)
        (qsort (fun cell => 0 - cell.setWidth 8) 0x1000 5 4 compareValues) ∧
      ∀ key, FindsStored 0x1000 5 4 compareValues (fun cell => 0 - cell.setWidth 8) key
        (bsearch (qsort (fun cell => 0 - cell.setWidth 8) 0x1000 5 4 compareValues).memory key
          0x1000 5 4 compareValues) :=
  sort_then_search (by unfold Fits; decide) (by decide)
    ⟨fun left right => by unfold compareValues; omega,
      fun left middle right => by unfold compareValues; omega⟩ _

end Sorting

end NaplesPU.SortedSearch
