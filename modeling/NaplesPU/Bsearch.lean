import NaplesPU.Ctype
import NaplesPU.Qsort

/-!
The library's `bsearch`. Its bounds are `int`, and so is their sum, which leaves the range of
`int` in arrays of more than 2^30 elements.
-/

namespace NaplesPU.Bsearch

open ByteMemory Ctype Loops Machine Qsort

section Routine

/-- The result of an operation on `int`; the behaviour is undefined if it is out of range. -/
def checked (value : Int) : Option Int := if InRange value then some value else none

/-- The bounds, and the indices that were computed. -/
structure Bounds where
  low : Int
  high : Int
  indices : List Int

inductive Ended where
  | overflow
  | returned (pointer : Option Word)

structure Outcome where
  ended : Ended
  indices : List Int

variable {Key : Type} (memory : Memory 32) (searchKey : Key) (base num size : Word)
  (compare : Key → Element size → Int)

def bsearchBody (bounds : Bounds) : Outcome ⊕ Bounds :=
  match checked (bounds.low + bounds.high) with
  | none => .inl ⟨.overflow, bounds.indices⟩
  | some sum =>
      let mid := sum.tdiv 2
      let midKey := base + BitVec.ofInt 32 mid * size
      let indices := bounds.indices ++ [mid]
      let compVal := compare searchKey (elementAt memory size midKey)
      if compVal = 0 then .inl ⟨.returned (some midKey), indices⟩
      else if compVal < 0 then
        match checked (mid - 1) with
        | none => .inl ⟨.overflow, indices⟩
        | some high => .inr ⟨bounds.low, high, indices⟩
      else
        match checked (mid + 1) with
        | none => .inl ⟨.overflow, indices⟩
        | some low => .inr ⟨low, bounds.high, indices⟩

def Bounds.extent (bounds : Bounds) : Nat := (bounds.high + 1 - bounds.low).toNat

theorem checked_eq {value result : Int} (computed : checked value = some result) :
    result = value := by
  rw [checked] at computed
  split at computed
  · exact (Option.some_inj.mp computed).symm
  · cases computed

theorem middle_between {low high : Int} (ordered : low ≤ high) :
    low ≤ (low + high).tdiv 2 ∧ (low + high).tdiv 2 ≤ high := by
  have one : Int.sign 2 = 1 := rfl
  rw [Int.tdiv_eq_ediv, one]
  split
  · omega
  · omega

theorem bsearch_smaller (bounds next : Bounds)
    (ordered : decide (bounds.low ≤ bounds.high) = true)
    (continued : bsearchBody memory searchKey base size compare bounds = .inr next) :
    next.extent < bounds.extent := by
  have below : bounds.low ≤ bounds.high := of_decide_eq_true ordered
  have between := middle_between below
  rw [bsearchBody] at continued
  split at continued
  · cases continued
  · rename_i sum added
    rw [checked_eq added] at continued
    dsimp only at continued
    split at continued
    · cases continued
    · split at continued
      · split at continued
        · cases continued
        · rename_i high lowered
          cases continued
          rw [Bounds.extent, Bounds.extent, checked_eq lowered]
          dsimp only
          omega
      · split at continued
        · cases continued
        · rename_i low raised
          cases continued
          rw [Bounds.extent, Bounds.extent, checked_eq raised]
          dsimp only
          omega

/-- What the variable `high` holds at first: the count less one, converted to `int`. -/
def lastIndex : Int := (num - 1).toInt

def bsearch : Outcome :=
  match returnLoop (fun bounds => decide (bounds.low ≤ bounds.high))
    (bsearchBody memory searchKey base size compare) Bounds.extent
    (bsearch_smaller memory searchKey base size compare) ⟨0, lastIndex num, []⟩ with
  | .inl outcome => outcome
  | .inr bounds => ⟨.returned none, bounds.indices⟩

end Routine

section Steps

variable {Key : Type} {memory : Memory 32} {searchKey : Key} {base num size : Word}
  {compare : Key → Element size → Int} {bounds : Bounds}

def comparison (memory : Memory 32) (searchKey : Key) (base size : Word)
    (compare : Key → Element size → Int) (index : Nat) : Int :=
  compare searchKey (elementAt memory size (place base size index))

theorem checked_in_range {value : Int} (low : INT_MIN ≤ value) (high : value ≤ INT_MAX) :
    checked value = some value := if_pos ⟨low, high⟩

theorem checked_beyond {value : Int} (beyond : INT_MAX < value) : checked value = none :=
  if_neg fun inside => absurd inside.2 (not_le.mpr beyond)

theorem body_overflows (beyond : INT_MAX < bounds.low + bounds.high) :
    bsearchBody memory searchKey base size compare bounds =
      .inl ⟨.overflow, bounds.indices⟩ := by
  rw [bsearchBody, checked_beyond beyond]

theorem mid_key_eq (mid : Nat) :
    base + BitVec.ofInt 32 (mid : Int) * size = place base size mid := by
  have product : BitVec.ofInt 32 (mid : Int) * size = BitVec.ofNat 32 (mid * size.toNat) := by
    rw [BitVec.ofInt_natCast, BitVec.ofNat_mul, BitVec.ofNat_toNat, BitVec.setWidth_eq]
  rw [place, product]

theorem body_compares {mid : Nat} (positive : 0 ≤ bounds.low + bounds.high)
    (inRange : bounds.low + bounds.high ≤ INT_MAX) (middle : mid = (bounds.low + bounds.high) / 2) :
    bsearchBody memory searchKey base size compare bounds =
      if comparison memory searchKey base size compare mid = 0 then
        .inl ⟨.returned (some (place base size mid)), bounds.indices ++ [(mid : Int)]⟩
      else if comparison memory searchKey base size compare mid < 0 then
        .inr ⟨bounds.low, mid - 1, bounds.indices ++ [(mid : Int)]⟩
      else .inr ⟨mid + 1, bounds.high, bounds.indices ++ [(mid : Int)]⟩ := by
  have half : (bounds.low + bounds.high).tdiv 2 = mid := by
    rw [Int.tdiv_eq_ediv_of_nonneg positive, middle]
  rw [INT_MAX] at inRange
  rw [bsearchBody, checked_in_range (by rw [INT_MIN]; omega) (by rw [INT_MAX]; omega)]
  dsimp only
  rw [half, checked_in_range (by rw [INT_MIN]; omega) (by rw [INT_MAX]; omega),
    checked_in_range (by rw [INT_MIN]; omega) (by rw [INT_MAX]; omega), mid_key_eq]
  rfl

end Steps

section Searches

/-- The elements in front compare less than the key, those behind greater. -/
structure Partitioned {Key : Type} (memory : Memory 32) (searchKey : Key) (base num size : Word)
    (compare : Key → Element size → Int) : Prop where
  greater : ∀ first second, first ≤ second → second < num.toNat →
    0 < comparison memory searchKey base size compare second →
      0 < comparison memory searchKey base size compare first
  less : ∀ first second, first ≤ second → second < num.toNat →
    comparison memory searchKey base size compare first < 0 →
      comparison memory searchKey base size compare second < 0

/-- A pointer to an equal element, or none if there is none. -/
def Finds {Key : Type} (memory : Memory 32) (searchKey : Key) (base num size : Word)
    (compare : Key → Element size → Int) : Ended → Prop
  | .overflow => False
  | .returned (some pointer) => ∃ index < num.toNat, pointer = place base size index ∧
      comparison memory searchKey base size compare index = 0
  | .returned none => ∀ index < num.toNat, comparison memory searchKey base size compare index ≠ 0

/-- The search finds an equal element, with all variables in range and all indices inside the
array. -/
structure SearchesRight {Key : Type} (memory : Memory 32) (searchKey : Key) (base num size : Word)
    (compare : Key → Element size → Int) (outcome : Outcome) : Prop where
  counted : lastIndex num = (num.toNat : Int) - 1
  finds : Finds memory searchKey base num size compare outcome.ended
  indices : ∀ index ∈ outcome.indices, 0 ≤ index ∧ index < num.toNat

/-- The last index is an `int`, and the search does not go up so often that the sum of its bounds
leaves the range. -/
def SumsInRange {Key : Type} (memory : Memory 32) (searchKey : Key) (base num size : Word)
    (compare : Key → Element size → Int) : Prop :=
  num.toNat ≤ 2 ^ 31 ∧ ∀ steps, 1 ≤ num.toNat / 2 ^ steps →
    2 ^ 31 < 2 * num.toNat - num.toNat / 2 ^ steps →
      ¬ 0 < comparison memory searchKey base size compare
        (num.toNat - num.toNat / 2 ^ steps - 1)

/-- The key is in the part of the array between the bounds, and where the upper bound is still
large, the search has only gone up. -/
structure Searching {Key : Type} (memory : Memory 32) (searchKey : Key) (base num size : Word)
    (compare : Key → Element size → Int) (bounds : Bounds) : Prop where
  low : 0 ≤ bounds.low
  ordered : bounds.low ≤ bounds.high + 1
  high : bounds.high < num.toNat
  after : ∀ index : Nat, (index : Int) < bounds.low →
    0 < comparison memory searchKey base size compare index
  before : ∀ index < num.toNat, bounds.high < (index : Int) →
    comparison memory searchKey base size compare index < 0
  upper : bounds.high < 2 ^ 30 ∨ bounds.high = (num.toNat : Int) - 1 ∧
    ∃ steps, bounds.low = ((num.toNat - num.toNat / 2 ^ steps : Nat) : Int)
  indices : ∀ index ∈ bounds.indices, 0 ≤ index ∧ index < num.toNat

variable {Key : Type} {memory : Memory 32} {searchKey : Key} {base num size : Word}
  {compare : Key → Element size → Int} {bounds : Bounds}

theorem last_index_iff : lastIndex num = (num.toNat : Int) - 1 ↔ num.toNat ≤ 2 ^ 31 := by
  have bound := num.isLt
  have one : (1 : Word).toNat = 1 := rfl
  rw [lastIndex, BitVec.toInt_eq_toNat_cond, BitVec.toNat_sub, one]
  split <;> omega

theorem going_up {count steps mid : Nat}
    (middle : (mid : Int) =
      (((count - count / 2 ^ steps : Nat) : Int) + ((count : Int) - 1)) / 2) :
    mid + 1 = count - count / 2 ^ (steps + 1) := by
  have half : count / 2 ^ (steps + 1) = count / 2 ^ steps / 2 := by
    rw [pow_succ, Nat.div_div_eq_div_mul]
  have fewer := Nat.div_le_self count (2 ^ steps)
  omega

theorem Searching.sum_in_range (searching : Searching memory searchKey base num size compare bounds)
    (inRange : SumsInRange memory searchKey base num size compare)
    (ordered : bounds.low ≤ bounds.high) : bounds.low + bounds.high ≤ INT_MAX := by
  rw [INT_MAX]
  rcases searching.upper with small | ⟨last, steps, low⟩
  · omega
  · by_contra beyond
    have few := inRange.1
    have fewer := Nat.div_le_self num.toNat (2 ^ steps)
    apply inRange.2 steps
    · omega
    · omega
    · apply searching.after
      omega

/-- One round finds an equal element, or goes on in the part where it can be. -/
theorem Searching.round (searching : Searching memory searchKey base num size compare bounds)
    (partitioned : Partitioned memory searchKey base num size compare)
    (inRange : SumsInRange memory searchKey base num size compare)
    (ordered : bounds.low ≤ bounds.high) :
    (bsearchBody memory searchKey base size compare bounds).elim
      (SearchesRight memory searchKey base num size compare)
      (Searching memory searchKey base num size compare) := by
  have low := searching.low
  have high := searching.high
  have sum := searching.sum_in_range inRange ordered
  obtain ⟨mid, middle⟩ := Int.eq_ofNat_of_zero_le
    (show 0 ≤ (bounds.low + bounds.high) / 2 by omega)
  have inside : mid < num.toNat := by omega
  have indices : ∀ index ∈ bounds.indices ++ [(mid : Int)], 0 ≤ index ∧ index < num.toNat := by
    intro index member
    rcases List.mem_append.mp member with earlier | here
    · exact searching.indices index earlier
    · rw [List.mem_singleton.mp here]
      omega
  rw [body_compares (by omega) sum middle.symm]
  split
  · rename_i equal
    exact ⟨last_index_iff.mpr inRange.1, ⟨mid, inside, rfl, equal⟩, indices⟩
  · split
    · rename_i less
      constructor
      · exact low
      · dsimp only
        omega
      · dsimp only
        omega
      · exact searching.after
      · intro index inArray further
        dsimp only at further
        exact partitioned.less mid index (by omega) inArray less
      · apply Or.inl
        rw [INT_MAX] at sum
        dsimp only
        omega
      · exact indices
    · rename_i different notLess
      have greater : 0 < comparison memory searchKey base size compare mid := by omega
      constructor
      · dsimp only
        omega
      · dsimp only
        omega
      · exact high
      · intro index behind
        dsimp only at behind
        exact partitioned.greater index mid (by omega) inside greater
      · exact searching.before
      · rcases searching.upper with small | ⟨last, steps, up⟩
        · exact Or.inl small
        · rw [last, up] at middle
          have next := going_up middle.symm
          exact Or.inr ⟨last, steps + 1, by dsimp only; omega⟩
      · exact indices

theorem fewer_left (count : Nat) {done steps : Nat} (within : done ≤ steps) :
    count / 2 ^ steps ≤ count / 2 ^ done :=
  Nat.div_le_div_left (Nat.pow_le_pow_right (by decide) within) (Nat.two_pow_pos done)

/-- Where the search goes up until the sum of its bounds leaves the range, it does not come to
an end. -/
theorem goes_up_to_overflow (partitioned : Partitioned memory searchKey base num size compare)
    (counted : lastIndex num = (num.toNat : Int) - 1) {steps : Nat}
    (more : 1 ≤ num.toNat / 2 ^ steps)
    (beyond : 2 ^ 31 < 2 * num.toNat - num.toNat / 2 ^ steps)
    (after : 0 < comparison memory searchKey base size compare
      (num.toNat - num.toNat / 2 ^ steps - 1)) :
    (bsearch memory searchKey base num size compare).ended = .overflow := by
  have loop := @return_invariant Bounds Outcome (fun bounds => decide (bounds.low ≤ bounds.high))
    (bsearchBody memory searchKey base size compare) Bounds.extent
    (bsearch_smaller memory searchKey base size compare)
    (fun bounds => bounds.high = (num.toNat : Int) - 1 ∧ ∃ done ≤ steps,
      bounds.low = ((num.toNat - num.toNat / 2 ^ done : Nat) : Int))
    (fun outcome => outcome.ended = .overflow) ?kept ⟨0, lastIndex num, []⟩
    ⟨counted, 0, Nat.zero_le _, by simp⟩
  case kept =>
    rintro bounds ⟨last, done, within, low⟩ ordered
    have fewer := Nat.div_le_self num.toNat (2 ^ done)
    by_cases overflows : INT_MAX < bounds.low + bounds.high
    · rw [body_overflows overflows]
      rfl
    · have sum := not_lt.mp overflows
      have sooner : done ≠ steps := by
        rintro rfl
        rw [INT_MAX] at sum
        omega
      have remaining := fewer_left num.toNat (show done + 1 ≤ steps by omega)
      have some := Nat.div_le_self num.toNat (2 ^ steps)
      obtain ⟨mid, middle⟩ := Int.eq_ofNat_of_zero_le
        (show 0 ≤ (bounds.low + bounds.high) / 2 by omega)
      rw [body_compares (by omega) sum middle.symm]
      rw [last, low] at middle
      have next := going_up middle.symm
      have greater : 0 < comparison memory searchKey base size compare mid :=
        partitioned.greater mid _ (by omega) (by omega) after
      rw [if_neg greater.ne', if_neg (not_lt.mpr greater.le)]
      exact ⟨last, done + 1, by omega, by dsimp only; omega⟩
  rw [bsearch]
  cases outcome : returnLoop (fun bounds => decide (bounds.low ≤ bounds.high))
    (bsearchBody memory searchKey base size compare) Bounds.extent
    (bsearch_smaller memory searchKey base size compare) ⟨0, lastIndex num, []⟩ with
  | inl outcome =>
      rw [outcome] at loop
      exact loop
  | inr bounds =>
      rw [outcome] at loop
      obtain ⟨⟨last, done, within, low⟩, stopped⟩ := loop
      have passed : ¬ bounds.low ≤ bounds.high := of_decide_eq_false stopped
      have remaining := fewer_left num.toNat within
      have fewer := Nat.div_le_self num.toNat (2 ^ done)
      omega

theorem searches_right (partitioned : Partitioned memory searchKey base num size compare)
    (inRange : SumsInRange memory searchKey base num size compare) :
    SearchesRight memory searchKey base num size compare
      (bsearch memory searchKey base num size compare) := by
  have counted := last_index_iff.mpr inRange.1
  have start : Searching memory searchKey base num size compare ⟨0, lastIndex num, []⟩ := by
    rw [counted]
    constructor
    · exact le_rfl
    · dsimp only
      omega
    · dsimp only
      omega
    · intro index behind
      dsimp only at behind
      omega
    · intro index inArray further
      dsimp only at further
      omega
    · exact Or.inr ⟨rfl, 0, by simp⟩
    · intro index member
      cases member
  have loop := @return_invariant Bounds Outcome (fun bounds => decide (bounds.low ≤ bounds.high))
    (bsearchBody memory searchKey base size compare) Bounds.extent
    (bsearch_smaller memory searchKey base size compare)
    (Searching memory searchKey base num size compare)
    (SearchesRight memory searchKey base num size compare)
    (fun bounds searching ordered =>
      searching.round partitioned inRange (of_decide_eq_true ordered)) _ start
  rw [bsearch]
  cases outcome : returnLoop (fun bounds => decide (bounds.low ≤ bounds.high))
    (bsearchBody memory searchKey base size compare) Bounds.extent
    (bsearch_smaller memory searchKey base size compare) ⟨0, lastIndex num, []⟩ with
  | inl outcome =>
      rw [outcome] at loop
      exact loop
  | inr bounds =>
      rw [outcome] at loop
      obtain ⟨searching, stopped⟩ := loop
      have passed : ¬ bounds.low ≤ bounds.high := of_decide_eq_false stopped
      refine ⟨counted, ?_, searching.indices⟩
      intro index inArray
      by_cases behind : (index : Int) < bounds.low
      · exact (searching.after index behind).ne'
      · exact (searching.before index inArray (by omega)).ne

/-- `bsearch` is right exactly if its sums stay in range. -/
theorem bsearch_right_iff (partitioned : Partitioned memory searchKey base num size compare) :
    SearchesRight memory searchKey base num size compare
        (bsearch memory searchKey base num size compare) ↔
      SumsInRange memory searchKey base num size compare := by
  constructor
  · intro right
    refine ⟨last_index_iff.mp right.counted, ?_⟩
    intro steps more beyond after
    have finds := right.finds
    rw [goes_up_to_overflow partitioned right.counted more beyond after] at finds
    exact finds
  · exact searches_right partitioned

/-- An array sorted by a comparator of its elements is in the order of the comparison with every
key. -/
theorem sorted_partitioned {compare : Element size → Element size → Int} {key : Element size}
    (signs : ∀ first second, compare first second ≤ 0 ↔ 0 ≤ compare second first)
    (trans : ∀ first second third, compare first second ≤ 0 → compare second third ≤ 0 →
      compare first third ≤ 0)
    (sorted : ∀ first second, first ≤ second → second < num.toNat →
      compare (elementAt memory size (place base size first))
        (elementAt memory size (place base size second)) ≤ 0) :
    Partitioned memory key base num size compare where
  greater := by
    intro first second before inArray after
    by_contra notAfter
    exact absurd (trans _ _ _ (not_lt.mp notAfter) (sorted first second before inArray))
      (not_le.mpr after)
  less := by
    intro first second before inArray less
    by_contra notLess
    have back := trans _ _ _ (sorted first second before inArray)
      ((signs _ _).mpr (not_lt.mp notLess))
    exact absurd ((signs _ _).mp back) (not_le.mpr less)

/-- Bytes that are all less than the key. -/
def behindAll (_key : Unit) (_element : Element 1) : Int := 1

theorem behind_all_partitioned (num : Word) :
    Partitioned (fun _ => 0) () 0 num 1 behindAll :=
  ⟨fun _ _ _ _ _ => Int.one_pos, fun _ _ _ _ less => absurd less Int.one_nonneg.not_gt⟩

theorem three_searched :
    SearchesRight (fun _ => 0) () 0 3 1 behindAll (bsearch (fun _ => 0) () 0 3 1 behindAll) := by
  have three : (3 : Word).toNat = 3 := rfl
  apply (bsearch_right_iff (behind_all_partitioned 3)).mpr
  rw [SumsInRange, three]
  exact ⟨by decide, fun steps _ beyond => by omega⟩

/-- In an array of 2^30 + 1 bytes the search for a key behind all of them adds 2^30 and 2^30. -/
theorem large_array_overflows :
    ¬ ∀ (Key : Type) (memory : Memory 32) (searchKey : Key) (base num size : Word)
      (compare : Key → Element size → Int), num.toNat * size.toNat ≤ 2 ^ 32 →
        Partitioned memory searchKey base num size compare →
          SearchesRight memory searchKey base num size compare
            (bsearch memory searchKey base num size compare) := by
  intro right
  have count : (0x40000001 : Word).toNat = 2 ^ 30 + 1 := rfl
  have searched := right Unit (fun _ => 0) () 0 0x40000001 1 behindAll (by decide)
    (behind_all_partitioned _)
  have more : 1 ≤ (0x40000001 : Word).toNat / 2 ^ 30 := by
    rw [count]
    decide
  have beyond : 2 ^ 31 < 2 * (0x40000001 : Word).toNat - (0x40000001 : Word).toNat / 2 ^ 30 := by
    rw [count]
    decide
  have overflows := goes_up_to_overflow (behind_all_partitioned 0x40000001) searched.counted more
    beyond Int.one_pos
  have finds := searched.finds
  rw [overflows] at finds
  exact finds

end Searches

end NaplesPU.Bsearch
