import Mathlib.Order.Compare
import NaplesPU.Ctype
import NaplesPU.Lib.CStrings
import NaplesPU.Lib.Loops

/-!
The library's `memcmp`, `strcmp` and `strncmp`. They subtract plain characters, which are
signed, where the order of strings is that of unsigned bytes.
-/

namespace NaplesPU.StringCompare

open ByteMemory CStrings Ctype Loops Machine

section Routines

/-- The two pointers of a comparison, and the addresses that it has read. -/
structure Cursors where
  str1 : Word
  str2 : Word
  accessed : List Word

structure BoundedCursors extends Cursors where
  length : Word

structure Outcome where
  value : Word
  accessed : List Word

variable (memory : Memory 32)

def difference (cursors : Cursors) : Word :=
  charValue (memory cursors.str1) - charValue (memory cursors.str2)

def Cursors.reads (cursors : Cursors) : List Word :=
  cursors.accessed ++ [cursors.str1, cursors.str2]

def Cursors.advance (cursors : Cursors) : Cursors :=
  ⟨cursors.str1 + 1, cursors.str2 + 1, cursors.reads⟩

def BoundedCursors.advance (cursors : BoundedCursors) : BoundedCursors :=
  ⟨cursors.toCursors.advance, cursors.length - 1⟩

theorem shorter {cursors : BoundedCursors} (more : cursors.length ≠ 0) :
    cursors.advance.length.toNat < cursors.length.toNat := by
  have positive := BitVec.toNat_pos_of_ne_zero more
  have bounded := cursors.length.isLt
  have one : (1 : Word).toNat = 1 := rfl
  rw [BoundedCursors.advance, BitVec.toNat_sub, one]
  omega

def memcmpBody (cursors : BoundedCursors) : Outcome ⊕ BoundedCursors :=
  let diff := difference memory cursors.toCursors
  if diff ≠ 0 then .inl ⟨diff, cursors.reads⟩ else .inr cursors.advance

theorem memcmp_shorter (cursors next : BoundedCursors)
    (more : decide (cursors.length ≠ 0) = true) (continued : memcmpBody memory cursors = .inr next) :
    next.length.toNat < cursors.length.toNat := by
  rw [memcmpBody] at continued
  split at continued
  · cases continued
  · cases continued
    exact shorter (of_decide_eq_true more)

def memcmp (_str1 _str2 len : Word) : Outcome :=
  match returnLoop (fun cursors => decide (cursors.length ≠ 0)) (memcmpBody memory)
    (fun cursors => cursors.length.toNat) (memcmp_shorter memory) ⟨⟨_str1, _str2, []⟩, len⟩ with
  | .inl outcome => outcome
  | .inr cursors => ⟨0, cursors.accessed⟩

/-- What both strings compare when they stop. -/
def finish (cursors : Cursors) : Outcome := ⟨difference memory cursors, cursors.reads⟩

def strcmpGoesOn (cursors : Cursors) : Bool :=
  decide (memory cursors.str1 ≠ 0) && decide (memory cursors.str1 = memory cursors.str2)

variable {memory}

theorem strcmp_shorter (terminated : Terminated memory) (cursors : Cursors)
    (goesOn : strcmpGoesOn memory cursors = true) :
    stringLength terminated cursors.advance.str1 < stringLength terminated cursors.str1 := by
  rw [strcmpGoesOn, Bool.and_eq_true, decide_eq_true_eq] at goesOn
  rw [Cursors.advance, string_length_succ terminated goesOn.1]
  exact Nat.lt_succ_self _

def strcmp (terminated : Terminated memory) (str1 str2 : Word) : Outcome :=
  finish memory (whileLoop (strcmpGoesOn memory) Cursors.advance
    (fun cursors => stringLength terminated cursors.str1) (strcmp_shorter terminated)
    ⟨str1, str2, []⟩)

variable (memory)

def strncmpGoesOn (cursors : BoundedCursors) : Bool :=
  decide (memory cursors.str1 ≠ 0) && decide (cursors.length ≠ 0) &&
    decide (memory cursors.str1 = memory cursors.str2)

theorem strncmp_shorter (cursors : BoundedCursors) (goesOn : strncmpGoesOn memory cursors = true) :
    cursors.advance.length.toNat < cursors.length.toNat := by
  rw [strncmpGoesOn, Bool.and_eq_true, Bool.and_eq_true, decide_eq_true_eq, decide_eq_true_eq]
    at goesOn
  exact shorter goesOn.1.2

def strncmp (str1 str2 length : Word) : Outcome :=
  if length = 0 then ⟨0, []⟩
  else
    finish memory (whileLoop (strncmpGoesOn memory) BoundedCursors.advance
      (fun cursors => cursors.length.toNat) (strncmp_shorter memory)
      ⟨⟨str1, str2, []⟩, length - 1⟩).toCursors

end Routines

section Sequences

/-- The lexicographic order of byte sequences, compared as unsigned bytes. -/
def byteOrder (left right : List Byte) : Ordering := List.compareLex (compareOn BitVec.toNat) left right

/-- The first two bytes that differ. A sequence that ends has a zero there. -/
def firstDifference : List Byte → List Byte → Option (Byte × Byte)
  | [], [] => none
  | byte :: _, [] => some (byte, 0)
  | [], other :: _ => some (0, other)
  | byte :: left, other :: right =>
      if byte = other then firstDifference left right else some (byte, other)

/-- The bytes of the first difference are in the same half of the range. -/
def SameHalf (left right : List Byte) : Prop :=
  ∀ pair ∈ firstDifference left right, pair.1.toNat < 128 ↔ pair.2.toNat < 128

instance (left right : List Byte) : Decidable (SameHalf left right) :=
  Option.decidableForallMem (firstDifference left right)

theorem byte_order_append (common left right : List Byte) :
    byteOrder (common ++ left) (common ++ right) = byteOrder left right := by
  induction common with
  | nil => rfl
  | cons byte common induction =>
      have same : compareOn BitVec.toNat byte byte = Ordering.eq := by
        rw [compareOn, compare_eq_iff_eq]
      rw [List.cons_append, List.cons_append, byteOrder, List.compareLex_cons_cons, same]
      exact induction

theorem first_difference_append (common left right : List Byte) :
    firstDifference (common ++ left) (common ++ right) = firstDifference left right := by
  induction common with
  | nil => rfl
  | cons byte common induction =>
      rw [List.cons_append, List.cons_append, firstDifference, if_pos rfl, induction]

theorem byte_order_self (bytes : List Byte) : byteOrder bytes bytes = .eq := by
  have whole := byte_order_append bytes [] []
  rw [List.append_nil] at whole
  exact whole

theorem first_difference_self (bytes : List Byte) : firstDifference bytes bytes = none := by
  have whole := first_difference_append bytes [] []
  rw [List.append_nil] at whole
  exact whole

/-- Sequences whose first bytes differ are in the order of these. -/
theorem heads_decide {left right : List Byte} (different : left.headD 0 ≠ right.headD 0) :
    firstDifference left right = some (left.headD 0, right.headD 0) ∧
      byteOrder left right = compare (left.headD 0).toNat (right.headD 0).toNat := by
  cases left with
  | nil =>
      cases right with
      | nil => exact absurd rfl different
      | cons other right =>
          have positive := BitVec.toNat_pos_of_ne_zero (Ne.symm different)
          refine ⟨rfl, ?_⟩
          exact (compare_lt_iff_lt.mpr positive).symm
  | cons byte left =>
      cases right with
      | nil =>
          have positive := BitVec.toNat_pos_of_ne_zero different
          refine ⟨rfl, ?_⟩
          exact (compare_gt_iff_gt.mpr positive).symm
      | cons other right =>
          have apart : byte.toNat ≠ other.toNat := fun same => different (BitVec.eq_of_toNat_eq same)
          constructor
          · exact if_neg different
          · have decided : compareOn BitVec.toNat byte other ≠ Ordering.eq := by
              rw [compareOn, ne_eq, compare_eq_iff_eq]
              exact apart
            rw [byteOrder, List.compareLex_cons_cons]
            cases order : compareOn BitVec.toNat byte other with
            | eq => exact absurd order decided
            | lt => exact order.symm
            | gt => exact order.symm

def signOrder (value : Word) : Ordering := compare value.toInt 0

theorem char_difference (byte other : Byte) :
    (charValue byte - charValue other).toInt = byte.toInt - other.toInt := by
  have low := byte.le_toInt
  have high := byte.toInt_lt
  have otherLow := other.le_toInt
  have otherHigh := other.toInt_lt
  rw [BitVec.toInt_sub, char_value_to_int, char_value_to_int, Int.bmod_eq_of_le] <;> omega

/-- Signed characters are in the order of unsigned bytes exactly in the same half. -/
theorem sign_order_iff {byte other : Byte} (different : byte ≠ other) :
    signOrder (charValue byte - charValue other) = compare byte.toNat other.toNat ↔
      (byte.toNat < 128 ↔ other.toNat < 128) := by
  have apart : byte.toNat ≠ other.toNat := fun same => different (BitVec.eq_of_toNat_eq same)
  have bounded := byte.isLt
  have otherBounded := other.isLt
  rw [signOrder, char_difference, BitVec.toInt_eq_toNat_cond, BitVec.toInt_eq_toNat_cond]
  rcases Nat.lt_or_gt_of_ne apart with below | above
  · rw [compare_lt_iff_lt.mpr below, compare_lt_iff_lt]
    split <;> split <;> omega
  · rw [compare_gt_iff_gt.mpr above, compare_gt_iff_gt]
    split <;> split <;> omega

end Sequences

section Runs

variable {memory : Memory 32} {str1 str2 : Word}

def Same (memory : Memory 32) (str1 str2 : Word) (offset : Nat) : Prop :=
  memory (str1 + BitVec.ofNat 32 offset) = memory (str2 + BitVec.ofNat 32 offset)

/-- They have, and it is not the terminator. -/
def GoesOn (memory : Memory 32) (str1 str2 : Word) (offset : Nat) : Prop :=
  Same memory str1 str2 offset ∧ memory (str1 + BitVec.ofNat 32 offset) ≠ 0

def Address (str1 str2 : Word) (offset : Nat) (address : Word) : Prop :=
  address = str1 + BitVec.ofNat 32 offset ∨ address = str2 + BitVec.ofNat 32 offset

/-- A comparison has passed the first bytes and has read these only. -/
structure Reached (passes : Nat → Prop) (str1 str2 : Word) (count : Nat) (cursors : Cursors) :
    Prop where
  first : cursors.str1 = str1 + BitVec.ofNat 32 count
  second : cursors.str2 = str2 + BitVec.ofNat 32 count
  passed : ∀ offset < count, passes offset
  accessed : ∀ address ∈ cursors.accessed, ∃ offset < count, Address str1 str2 offset address

variable {passes : Nat → Prop} {count : Nat} {cursors : Cursors}

theorem reached_start (passes : Nat → Prop) (str1 str2 : Word) :
    Reached passes str1 str2 0 ⟨str1, str2, []⟩ where
  first := (BitVec.add_zero str1).symm
  second := (BitVec.add_zero str2).symm
  passed := by
    intro offset below
    exact absurd below (Nat.not_lt_zero offset)
  accessed := by
    intro address member
    cases member

theorem Reached.reads (reached : Reached passes str1 str2 count cursors) :
    ∀ address ∈ cursors.reads, ∃ offset < count + 1, Address str1 str2 offset address := by
  intro address member
  rw [Cursors.reads, List.mem_append] at member
  rcases member with before | here
  · obtain ⟨offset, below, known⟩ := reached.accessed address before
    exact ⟨offset, by omega, known⟩
  · rw [reached.first, reached.second] at here
    exact ⟨count, Nat.lt_succ_self count, by simpa [Address] using here⟩

theorem Reached.advance (reached : Reached passes str1 str2 count cursors)
    (passing : passes count) : Reached passes str1 str2 (count + 1) cursors.advance where
  first := by
    rw [Cursors.advance, reached.first, offset_add_one]
  second := by
    rw [Cursors.advance, reached.second, offset_add_one]
  passed := by
    intro offset below
    rcases Nat.lt_succ_iff_lt_or_eq.mp below with before | rfl
    · exact reached.passed offset before
    · exact passing
  accessed := reached.reads

theorem Reached.same_iff (reached : Reached passes str1 str2 count cursors) :
    memory cursors.str1 = memory cursors.str2 ↔ Same memory str1 str2 count := by
  rw [reached.first, reached.second, Same]

theorem difference_zero_iff : difference memory cursors = 0 ↔
    memory cursors.str1 = memory cursors.str2 := by
  rw [difference, sub_eq_zero, char_value_inj]

/-- A comparison with a bound: it has passed the first bytes, and so many are left. -/
def ReachedBefore (passes : Nat → Prop) (str1 str2 : Word) (total count : Nat)
    (cursors : BoundedCursors) : Prop :=
  Reached passes str1 str2 count cursors.toCursors ∧ count + cursors.length.toNat = total

variable {total : Nat} {bounded : BoundedCursors}

theorem ReachedBefore.advance (reached : ReachedBefore passes str1 str2 total count bounded)
    (passing : passes count) (more : bounded.length ≠ 0) :
    ReachedBefore passes str1 str2 total (count + 1) bounded.advance := by
  have positive := BitVec.toNat_pos_of_ne_zero more
  have inside := bounded.length.isLt
  have one : (1 : Word).toNat = 1 := rfl
  have whole := reached.2
  constructor
  · exact reached.1.advance passing
  · rw [BoundedCursors.advance, BitVec.toNat_sub, one]
    omega

/-- `memcmp` stops at the first difference, or has found none. -/
theorem memcmp_stops (memory : Memory 32) (str1 str2 len : Word) :
    (∃ count cursors, Reached (Same memory str1 str2) str1 str2 count cursors ∧
        count < len.toNat ∧ ¬ Same memory str1 str2 count ∧
        memcmp memory str1 str2 len = finish memory cursors) ∨
      ∃ cursors, Reached (Same memory str1 str2) str1 str2 len.toNat cursors ∧
        memcmp memory str1 str2 len = ⟨0, cursors.accessed⟩ := by
  have loop := @return_invariant BoundedCursors Outcome
    (fun cursors => decide (cursors.length ≠ 0)) (memcmpBody memory)
    (fun cursors => cursors.length.toNat) (memcmp_shorter memory)
    (fun cursors => ∃ count,
      ReachedBefore (Same memory str1 str2) str1 str2 len.toNat count cursors)
    (fun outcome => ∃ count cursors, Reached (Same memory str1 str2) str1 str2 count cursors ∧
      count < len.toNat ∧ ¬ Same memory str1 str2 count ∧ outcome = finish memory cursors)
    ?_ ⟨⟨str1, str2, []⟩, len⟩ ⟨0, reached_start _ str1 str2, Nat.zero_add _⟩
  · rw [memcmp]
    split
    · rename_i outcome returned
      rw [returned] at loop
      exact Or.inl loop
    · rename_i cursors ended
      rw [ended] at loop
      obtain ⟨⟨count, reached, whole⟩, done⟩ := loop
      have none : cursors.length = 0 := not_not.mp (of_decide_eq_false done)
      have zero : (0 : Word).toNat = 0 := rfl
      rw [none, zero, Nat.add_zero] at whole
      rw [whole] at reached
      exact Or.inr ⟨cursors.toCursors, reached, rfl⟩
  · rintro cursors ⟨count, reached⟩ more
    have nonzero : cursors.length ≠ 0 := of_decide_eq_true more
    have positive := BitVec.toNat_pos_of_ne_zero nonzero
    have whole := reached.2
    by_cases same : Same memory str1 str2 count
    · have zero := difference_zero_iff.mpr (reached.1.same_iff.mpr same)
      rw [memcmpBody, if_neg (not_not_intro zero)]
      exact ⟨count + 1, reached.advance same nonzero⟩
    · have nonzeroDiff : difference memory cursors.toCursors ≠ 0 := by
        intro zero
        exact same (reached.1.same_iff.mp (difference_zero_iff.mp zero))
      rw [memcmpBody, if_pos nonzeroDiff]
      exact ⟨count, cursors.toCursors, reached.1, by omega, same, rfl⟩

/-- `strcmp` stops at the first difference or at the terminator. -/
theorem strcmp_stops (terminated : Terminated memory) (str1 str2 : Word) :
    ∃ count cursors, Reached (GoesOn memory str1 str2) str1 str2 count cursors ∧
      ¬ GoesOn memory str1 str2 count ∧ strcmp terminated str1 str2 = finish memory cursors := by
  have loop := @while_invariant Cursors (strcmpGoesOn memory) Cursors.advance
    (fun cursors => stringLength terminated cursors.str1) (strcmp_shorter terminated)
    (fun cursors => ∃ count, Reached (GoesOn memory str1 str2) str1 str2 count cursors)
    ?_ ⟨str1, str2, []⟩ ⟨0, reached_start _ str1 str2⟩
  · obtain ⟨⟨count, reached⟩, stopped⟩ := loop
    refine ⟨count, _, reached, ?_, rfl⟩
    rintro ⟨same, nonzero⟩
    rw [← reached.first] at nonzero
    rw [strcmpGoesOn, decide_eq_true nonzero, decide_eq_true (reached.same_iff.mpr same)] at stopped
    cases stopped
  · rintro cursors ⟨count, reached⟩ goesOn
    rw [strcmpGoesOn, Bool.and_eq_true, decide_eq_true_eq, decide_eq_true_eq] at goesOn
    refine ⟨count + 1, reached.advance ⟨reached.same_iff.mp goesOn.2, ?_⟩⟩
    rw [← reached.first]
    exact goesOn.1

/-- `strncmp` stops there too, or at the last byte before the bound. -/
theorem strncmp_stops (memory : Memory 32) (str1 str2 : Word) {length : Word}
    (positive : length ≠ 0) :
    ∃ count cursors, Reached (GoesOn memory str1 str2) str1 str2 count cursors ∧
      count < length.toNat ∧ (GoesOn memory str1 str2 count → count + 1 = length.toNat) ∧
      strncmp memory str1 str2 length = finish memory cursors := by
  have positiveNat := BitVec.toNat_pos_of_ne_zero positive
  have inside := length.isLt
  have one : (1 : Word).toNat = 1 := rfl
  have left : (length - 1).toNat = length.toNat - 1 := by
    rw [BitVec.toNat_sub, one]
    omega
  have loop := @while_invariant BoundedCursors (strncmpGoesOn memory) BoundedCursors.advance
    (fun cursors => cursors.length.toNat) (strncmp_shorter memory)
    (fun cursors => ∃ count,
      ReachedBefore (GoesOn memory str1 str2) str1 str2 (length.toNat - 1) count cursors)
    ?_ ⟨⟨str1, str2, []⟩, length - 1⟩ ⟨0, reached_start _ str1 str2, by dsimp only; omega⟩
  · obtain ⟨⟨count, reached, whole⟩, stopped⟩ := loop
    refine ⟨count, _, reached, by omega, ?_, ?_⟩
    · rintro ⟨same, nonzero⟩
      rw [← reached.first] at nonzero
      rw [strncmpGoesOn, decide_eq_true nonzero, decide_eq_true (reached.same_iff.mpr same),
        Bool.true_and, Bool.and_true] at stopped
      have none := not_not.mp (of_decide_eq_false stopped)
      have zero : (0 : Word).toNat = 0 := rfl
      rw [none, zero] at whole
      omega
    · rw [strncmp, if_neg positive]
  · rintro cursors ⟨count, reached⟩ goesOn
    rw [strncmpGoesOn, Bool.and_eq_true, Bool.and_eq_true, decide_eq_true_eq, decide_eq_true_eq,
      decide_eq_true_eq] at goesOn
    refine ⟨count + 1, reached.advance ⟨reached.1.same_iff.mp goesOn.2, ?_⟩ goesOn.1.2⟩
    rw [← reached.1.first]
    exact goesOn.1.1

end Runs

section Results

/-- What a comparison promises: the order of two sequences, and that it reads nothing behind a
byte that it does not pass, or from the bound on. -/
structure Compares (passes : Nat → Prop) (bound : Option Nat) (str1 str2 : Word)
    (left right : List Byte) (outcome : Outcome) : Prop where
  order : signOrder outcome.value = byteOrder left right
  accessed : ∀ address ∈ outcome.accessed, ∃ offset, (∀ before < offset, passes before) ∧
    (∀ length ∈ bound, offset < length) ∧ Address str1 str2 offset address

variable {memory : Memory 32} {passes : Nat → Prop} {bound : Option Nat} {str1 str2 : Word}
  {count : Nat} {cursors : Cursors} {common left right : List Byte}

theorem Reached.reads_allowed (reached : Reached passes str1 str2 count cursors)
    (inBound : ∀ length ∈ bound, count < length) :
    ∀ address ∈ cursors.reads, ∃ offset, (∀ before < offset, passes before) ∧
      (∀ length ∈ bound, offset < length) ∧ Address str1 str2 offset address := by
  intro address member
  obtain ⟨offset, below, known⟩ := reached.reads address member
  refine ⟨offset, ?_, ?_, known⟩
  · intro before earlier
    exact reached.passed before (by omega)
  · intro length limit
    have short := inBound length limit
    omega

/-- Where the routines stop, they are right exactly if the bytes there are in the same half. -/
theorem compares_finish_iff (reached : Reached passes str1 str2 count cursors)
    (inBound : ∀ length ∈ bound, count < length)
    (first : memory (str1 + BitVec.ofNat 32 count) = left.headD 0)
    (second : memory (str2 + BitVec.ofNat 32 count) = right.headD 0)
    (whole : Same memory str1 str2 count → left = right) :
    Compares passes bound str1 str2 (common ++ left) (common ++ right) (finish memory cursors) ↔
      SameHalf (common ++ left) (common ++ right) := by
  have reads := reached.reads_allowed inBound
  have value : (finish memory cursors).value =
      charValue (left.headD 0) - charValue (right.headD 0) := by
    rw [finish, difference, reached.first, reached.second, first, second]
  by_cases same : Same memory str1 str2 count
  · have equal := whole same
    subst equal
    have order : signOrder (finish memory cursors).value =
        byteOrder (common ++ left) (common ++ left) := by
      rw [value, sub_self, byte_order_self]
      rfl
    apply iff_of_true ⟨order, reads⟩
    intro pair member
    rw [first_difference_self] at member
    cases member
  · rw [Same, first, second] at same
    obtain ⟨decides, order⟩ := heads_decide same
    have halves : SameHalf (common ++ left) (common ++ right) ↔
        ((left.headD 0).toNat < 128 ↔ (right.headD 0).toNat < 128) := by
      rw [SameHalf, first_difference_append, decides]
      simp
    rw [halves, ← sign_order_iff same, ← value, ← order, ← byte_order_append common]
    constructor
    · intro compares
      exact compares.order
    · intro right
      exact ⟨right, reads⟩

theorem load_same {count : Nat} (same : ∀ offset < count, Same memory str1 str2 offset) :
    loadBytes memory str1 count = loadBytes memory str2 count := by
  apply List.map_congr_left
  intro offset member
  exact same offset (List.mem_range.mp member)

theorem load_head (memory : Memory 32) (address : Word) {count : Nat} (positive : 0 < count) :
    memory address = (loadBytes memory address count).headD 0 := by
  obtain ⟨less, rfl⟩ := Nat.exists_eq_add_of_lt positive
  rw [Nat.zero_add, loadBytes, List.range_succ_eq_map, List.map_cons, List.headD_cons,
    BitVec.add_zero]

theorem memcmp_compares_iff (memory : Memory 32) (str1 str2 len : Word) :
    Compares (Same memory str1 str2) (some len.toNat) str1 str2
        (loadBytes memory str1 len.toNat) (loadBytes memory str2 len.toNat)
        (memcmp memory str1 str2 len) ↔
      SameHalf (loadBytes memory str1 len.toNat) (loadBytes memory str2 len.toNat) := by
  rcases memcmp_stops memory str1 str2 len with
    ⟨count, cursors, reached, below, differs, returned⟩ | ⟨cursors, reached, returned⟩
  · have parts (address : Word) : loadBytes memory address len.toNat =
        loadBytes memory address count ++
          loadBytes memory (address + BitVec.ofNat 32 count) (len.toNat - count) := by
      rw [← load_add, Nat.add_sub_cancel' below.le]
    have more : 0 < len.toNat - count := Nat.sub_pos_of_lt below
    rw [returned, parts str1, parts str2, load_same reached.passed]
    apply compares_finish_iff reached
    · intro length limit
      cases limit
      exact below
    · exact load_head memory _ more
    · exact load_head memory _ more
    · intro same
      exact absurd same differs
  · rw [load_same reached.passed, returned]
    apply iff_of_true
    · constructor
      · rw [byte_order_self]
        rfl
      · intro address member
        obtain ⟨offset, below, known⟩ := reached.accessed address member
        refine ⟨offset, ?_, ?_, known⟩
        · intro before earlier
          exact reached.passed before (by omega)
        · intro length limit
          cases limit
          exact below
    · intro pair member
      rw [first_difference_self] at member
      cases member

theorem text_of_same_zero (terminated : Terminated memory)
    (same : Same memory str1 str2 count) (stopped : ¬ GoesOn memory str1 str2 count) :
    text terminated (str1 + BitVec.ofNat 32 count) = [] ∧
      text terminated (str2 + BitVec.ofNat 32 count) = [] := by
  have zero : memory (str1 + BitVec.ofNat 32 count) = 0 := by
    by_contra nonzero
    exact stopped ⟨same, nonzero⟩
  have otherZero : memory (str2 + BitVec.ofNat 32 count) = 0 := by
    rw [← same]
    exact zero
  exact ⟨text_nil terminated zero, text_nil terminated otherZero⟩

theorem texts_split (terminated : Terminated memory)
    (passed : ∀ offset < count, GoesOn memory str1 str2 offset) :
    text terminated str1 =
        loadBytes memory str1 count ++ text terminated (str1 + BitVec.ofNat 32 count) ∧
      text terminated str2 =
        loadBytes memory str1 count ++ text terminated (str2 + BitVec.ofNat 32 count) := by
  constructor
  · exact text_split terminated fun offset below => (passed offset below).2
  · rw [load_same fun offset below => (passed offset below).1]
    apply text_split terminated
    intro offset below
    rw [← (passed offset below).1]
    exact (passed offset below).2

theorem strcmp_compares_iff (terminated : Terminated memory) (str1 str2 : Word) :
    Compares (GoesOn memory str1 str2) none str1 str2 (text terminated str1)
        (text terminated str2) (strcmp terminated str1 str2) ↔
      SameHalf (text terminated str1) (text terminated str2) := by
  obtain ⟨count, cursors, reached, stopped, returned⟩ := strcmp_stops terminated str1 str2
  obtain ⟨firstParts, secondParts⟩ := texts_split terminated reached.passed
  rw [returned, firstParts, secondParts]
  apply compares_finish_iff reached
  · intro length limit
    cases limit
  · exact first_byte terminated _
  · exact first_byte terminated _
  · intro same
    obtain ⟨nothing, otherNothing⟩ := text_of_same_zero terminated same stopped
    rw [nothing, otherNothing]

theorem head_take (bytes : List Byte) {count : Nat} (positive : 0 < count) :
    (bytes.take count).headD 0 = bytes.headD 0 := by
  cases bytes with
  | nil => rw [List.take_nil]
  | cons byte rest =>
      obtain ⟨less, rfl⟩ := Nat.exists_eq_add_of_lt positive
      rfl

theorem strncmp_compares_iff (terminated : Terminated memory) (str1 str2 length : Word) :
    Compares (GoesOn memory str1 str2) (some length.toNat) str1 str2
        ((text terminated str1).take length.toNat) ((text terminated str2).take length.toNat)
        (strncmp memory str1 str2 length) ↔
      SameHalf ((text terminated str1).take length.toNat)
        ((text terminated str2).take length.toNat) := by
  by_cases none : length = 0
  · have zero : (0 : Word).toNat = 0 := rfl
    rw [none, zero, List.take_zero, List.take_zero]
    apply iff_of_true
    · constructor
      · rfl
      · intro address member
        cases member
    · intro pair member
      cases member
  · obtain ⟨count, cursors, reached, below, last, returned⟩ := strncmp_stops memory str1 str2 none
    obtain ⟨firstParts, secondParts⟩ := texts_split terminated reached.passed
    have taken (rest : List Byte) : (loadBytes memory str1 count ++ rest).take length.toNat =
        loadBytes memory str1 count ++ rest.take (length.toNat - count) := by
      rw [List.take_append, load_length, List.take_of_length_le]
      rw [load_length]
      exact below.le
    have more : 0 < length.toNat - count := Nat.sub_pos_of_lt below
    rw [returned, firstParts, secondParts, taken, taken]
    apply compares_finish_iff reached
    · intro limit known
      cases known
      exact below
    · rw [head_take _ more]
      exact first_byte terminated _
    · rw [head_take _ more]
      exact first_byte terminated _
    · intro same
      by_cases goesOn : GoesOn memory str1 str2 count
      · have otherNonzero : memory (str2 + BitVec.ofNat 32 count) ≠ 0 := by
          rw [← goesOn.1]
          exact goesOn.2
        have single : length.toNat - count = 1 := by
          have reachedLast := last goesOn
          omega
        rw [single, text_cons terminated goesOn.2, text_cons terminated otherNonzero,
          List.take_succ_cons, List.take_succ_cons, List.take_zero, List.take_zero]
        exact congrArg (fun byte => [byte]) same
      · obtain ⟨nothing, otherNothing⟩ := text_of_same_zero terminated same goesOn
        rw [nothing, otherNothing]

/-- Each of the routines gives the order of unsigned bytes exactly where the first bytes that
differ are in the same half of the range. -/
theorem comparisons_iff (memory : Memory 32) (str1 str2 length : Word) :
    (Compares (Same memory str1 str2) (some length.toNat) str1 str2
        (loadBytes memory str1 length.toNat) (loadBytes memory str2 length.toNat)
        (memcmp memory str1 str2 length) ↔
      SameHalf (loadBytes memory str1 length.toNat) (loadBytes memory str2 length.toNat)) ∧
    ∀ terminated : Terminated memory,
      (Compares (GoesOn memory str1 str2) none str1 str2 (text terminated str1)
          (text terminated str2) (strcmp terminated str1 str2) ↔
        SameHalf (text terminated str1) (text terminated str2)) ∧
      (Compares (GoesOn memory str1 str2) (some length.toNat) str1 str2
          ((text terminated str1).take length.toNat) ((text terminated str2).take length.toNat)
          (strncmp memory str1 str2 length) ↔
        SameHalf ((text terminated str1).take length.toNat)
          ((text terminated str2).take length.toNat)) :=
  ⟨memcmp_compares_iff memory str1 str2 length, fun terminated =>
    ⟨strcmp_compares_iff terminated str1 str2,
      strncmp_compares_iff terminated str1 str2 length⟩⟩

/-- A string of one byte of the upper half, and one of one byte of the lower half. -/
def twoStrings : Memory 32 := fun cell => if cell = 0x10 then 0x80 else if cell = 0x20 then 1 else 0

theorem two_strings_terminated : Terminated twoStrings := ⟨0, by decide⟩

theorem lower_text : text two_strings_terminated 0x20 = [1] := by
  rw [text_cons _ (by decide), text_nil _ (by decide)]
  decide

theorem lower_after_empty :
    Compares (Same twoStrings 0x20 0x30) (some 1) 0x20 0x30 (loadBytes twoStrings 0x20 1)
        (loadBytes twoStrings 0x30 1) (memcmp twoStrings 0x20 0x30 1) ∧
      Compares (GoesOn twoStrings 0x20 0x30) none 0x20 0x30 (text two_strings_terminated 0x20)
        (text two_strings_terminated 0x30) (strcmp two_strings_terminated 0x20 0x30) ∧
      Compares (GoesOn twoStrings 0x20 0x30) (some 1) 0x20 0x30
        ((text two_strings_terminated 0x20).take 1) ((text two_strings_terminated 0x30).take 1)
        (strncmp twoStrings 0x20 0x30 1) := by
  have compared := comparisons_iff twoStrings 0x20 0x30 1
  have strings := compared.2 two_strings_terminated
  have empty : text two_strings_terminated 0x30 = [] := text_nil _ (by decide)
  refine ⟨compared.1.mpr (by decide), strings.1.mpr ?_, strings.2.mpr ?_⟩
  · rw [lower_text, empty]
    decide
  · rw [lower_text, empty]
    decide

/-- The byte of the upper half comes out before that of the lower half. -/
theorem upper_half_misordered :
    ¬ ∀ (memory : Memory 32) (terminated : Terminated memory) (str1 str2 length : Word),
      Compares (Same memory str1 str2) (some length.toNat) str1 str2
          (loadBytes memory str1 length.toNat) (loadBytes memory str2 length.toNat)
          (memcmp memory str1 str2 length) ∧
        Compares (GoesOn memory str1 str2) none str1 str2 (text terminated str1)
          (text terminated str2) (strcmp terminated str1 str2) ∧
        Compares (GoesOn memory str1 str2) (some length.toNat) str1 str2
          ((text terminated str1).take length.toNat) ((text terminated str2).take length.toNat)
          (strncmp memory str1 str2 length) := by
  intro right
  have compared := (right twoStrings two_strings_terminated 0x10 0x20 1).1
  have halves := (memcmp_compares_iff twoStrings 0x10 0x20 1).mp compared
  exact absurd halves (by decide)

end Results

end NaplesPU.StringCompare
