import NaplesPU.StringCompare

/-!
The library's `strcasecmp` and `strncasecmp`: the comparison of two strings in a memory all of
whose small letters are capital ones.
-/

namespace NaplesPU.CaseCompare

open ByteMemory CStrings Ctype Loops Machine StringCompare

section Routines

def toupper (val : Word) : Word :=
  if BitVec.sle 0x61 val = true ∧ BitVec.sle val 0x7a = true then val - (0x61 - 0x41) else val

variable (memory : Memory 32)

def caseDifference (cursors : Cursors) : Word :=
  toupper (charValue (memory cursors.str1)) - toupper (charValue (memory cursors.str2))

def finishCase (cursors : Cursors) : Outcome := ⟨caseDifference memory cursors, cursors.reads⟩

def strcasecmpGoesOn (cursors : Cursors) : Bool :=
  decide (memory cursors.str1 ≠ 0) &&
    decide (toupper (charValue (memory cursors.str1)) = toupper (charValue (memory cursors.str2)))

variable {memory}

theorem strcasecmp_shorter (terminated : Terminated memory) (cursors : Cursors)
    (goesOn : strcasecmpGoesOn memory cursors = true) :
    stringLength terminated cursors.advance.str1 < stringLength terminated cursors.str1 := by
  rw [strcasecmpGoesOn, Bool.and_eq_true, decide_eq_true_eq] at goesOn
  rw [Cursors.advance, string_length_succ terminated goesOn.1]
  exact Nat.lt_succ_self _

def strcasecmp (terminated : Terminated memory) (str1 str2 : Word) : Outcome :=
  finishCase memory (whileLoop (strcasecmpGoesOn memory) Cursors.advance
    (fun cursors => stringLength terminated cursors.str1) (strcasecmp_shorter terminated)
    ⟨str1, str2, []⟩)

variable (memory)

def strncasecmpGoesOn (cursors : BoundedCursors) : Bool :=
  decide (memory cursors.str1 ≠ 0) && decide (cursors.length ≠ 0) &&
    decide (toupper (charValue (memory cursors.str1)) = toupper (charValue (memory cursors.str2)))

theorem strncasecmp_shorter (cursors : BoundedCursors)
    (goesOn : strncasecmpGoesOn memory cursors = true) :
    cursors.advance.length.toNat < cursors.length.toNat := by
  rw [strncasecmpGoesOn, Bool.and_eq_true, Bool.and_eq_true, decide_eq_true_eq,
    decide_eq_true_eq] at goesOn
  exact shorter goesOn.1.2

def strncasecmp (str1 str2 length : Word) : Outcome :=
  if length = 0 then ⟨0, []⟩
  else
    finishCase memory (whileLoop (strncasecmpGoesOn memory) BoundedCursors.advance
      (fun cursors => cursors.length.toNat) (strncasecmp_shorter memory)
      ⟨⟨str1, str2, []⟩, length - 1⟩).toCursors

end Routines

section Folding

def upper (byte : Byte) : Byte := (toupper (charValue byte)).setWidth 8

def uppercase (memory : Memory 32) : Memory 32 := fun cell => upper (memory cell)

theorem toupper_char (byte : Byte) : toupper (charValue byte) = charValue (upper byte) := by
  revert byte
  decide +kernel

theorem upper_zero_iff (byte : Byte) : upper byte = 0 ↔ byte = 0 := by
  revert byte
  decide +kernel

theorem toupper_eq_iff (byte other : Byte) :
    toupper (charValue byte) = toupper (charValue other) ↔ upper byte = upper other := by
  rw [toupper_char, toupper_char, char_value_inj]

variable {memory : Memory 32} (terminated : Terminated memory)

include terminated in
theorem uppercase_terminated : Terminated (uppercase memory) := by
  obtain ⟨cell, zero⟩ := terminated
  exact ⟨cell, (upper_zero_iff _).mpr zero⟩

theorem uppercase_text (start : Word) :
    text (uppercase_terminated terminated) start = (text terminated start).map upper := by
  have byteAt (offset : Nat) (inside : offset < (text terminated start).length) :
      (text terminated start)[offset] = memory (start + BitVec.ofNat 32 offset) :=
    load_get memory start inside
  apply text_of_bytes
  · intro byte member
    obtain ⟨original, listed, rfl⟩ := List.mem_map.mp member
    exact (upper_zero_iff original).not.mpr (text_nonzero terminated start original listed)
  · intro offset inside
    rw [List.length_map] at inside
    rw [List.getElem_map, byteAt offset inside]
    rfl
  · rw [List.length_map, text_length]
    exact (upper_zero_iff _).mpr (byte_at_length terminated start)

theorem finish_case (cursors : Cursors) :
    finishCase memory cursors = finish (uppercase memory) cursors := by
  rw [finishCase, caseDifference, toupper_char, toupper_char]
  rfl

theorem goes_on_case (cursors : Cursors) :
    strcasecmpGoesOn memory cursors = strcmpGoesOn (uppercase memory) cursors := by
  rw [strcasecmpGoesOn, strcmpGoesOn]
  congr 1
  · exact decide_eq_decide.mpr (upper_zero_iff _).not.symm
  · exact decide_eq_decide.mpr (toupper_eq_iff _ _)

theorem strcasecmp_eq (str1 str2 : Word) :
    strcasecmp terminated str1 str2 = strcmp (uppercase_terminated terminated) str1 str2 := by
  rw [strcasecmp, strcmp, finish_case]
  exact congrArg _ (while_congr goes_on_case _)

theorem strncasecmp_eq (memory : Memory 32) (str1 str2 length : Word) :
    strncasecmp memory str1 str2 length = strncmp (uppercase memory) str1 str2 length := by
  rw [strncasecmp, strncmp]
  split
  · rfl
  · rw [finish_case]
    refine congrArg (fun cursors : BoundedCursors => finish _ cursors.toCursors)
      (while_congr (fun cursors => ?_) _)
    rw [strncasecmpGoesOn, strncmpGoesOn]
    congr 1
    · congr 1
      exact decide_eq_decide.mpr (upper_zero_iff _).not.symm
    · exact decide_eq_decide.mpr (toupper_eq_iff _ _)

end Folding

section Equality

variable {memory : Memory 32} (terminated : Terminated memory)

theorem strcmp_zero_iff (str1 str2 : Word) :
    (strcmp terminated str1 str2).value = 0 ↔ text terminated str1 = text terminated str2 := by
  obtain ⟨count, cursors, reached, stopped, returned⟩ := strcmp_stops terminated str1 str2
  obtain ⟨firstParts, secondParts⟩ := texts_split terminated reached.passed
  have value : (strcmp terminated str1 str2).value = difference memory cursors := by
    rw [returned]
    rfl
  rw [value, difference_zero_iff, reached.same_iff, firstParts, secondParts,
    List.append_cancel_left_eq]
  constructor
  · intro same
    obtain ⟨nothing, otherNothing⟩ := text_of_same_zero terminated same stopped
    rw [nothing, otherNothing]
  · intro same
    rw [Same, first_byte terminated, same, ← first_byte terminated]

theorem strncmp_zero_iff (str1 str2 length : Word) :
    (strncmp memory str1 str2 length).value = 0 ↔
      (text terminated str1).take length.toNat = (text terminated str2).take length.toNat := by
  by_cases none : length = 0
  · have zero : (0 : Word).toNat = 0 := rfl
    rw [none, zero, List.take_zero, List.take_zero]
    exact iff_of_true rfl rfl
  · obtain ⟨count, cursors, reached, below, last, returned⟩ := strncmp_stops memory str1 str2 none
    obtain ⟨firstParts, secondParts⟩ := texts_split terminated reached.passed
    have taken (rest : List Byte) : (loadBytes memory str1 count ++ rest).take length.toNat =
        loadBytes memory str1 count ++ rest.take (length.toNat - count) := by
      rw [List.take_append, load_length, List.take_of_length_le]
      rw [load_length]
      exact below.le
    have more : 0 < length.toNat - count := Nat.sub_pos_of_lt below
    have value : (strncmp memory str1 str2 length).value = difference memory cursors := by
      rw [returned]
      rfl
    rw [value, difference_zero_iff, reached.same_iff, firstParts, secondParts, taken, taken,
      List.append_cancel_left_eq]
    constructor
    · intro same
      by_cases goesOn : GoesOn memory str1 str2 count
      · have otherNonzero : memory (str2 + BitVec.ofNat 32 count) ≠ 0 := by
          rw [← goesOn.1]
          exact goesOn.2
        have single : length.toNat - count = 1 := by
          have reachedLast := last goesOn
          omega
        rw [single, text_cons terminated goesOn.2, text_cons terminated otherNonzero,
          List.take_succ_cons, List.take_succ_cons, List.take_zero, List.take_zero]
        exact congrArg (fun byte => [byte]) same
      · obtain ⟨nothing, otherNothing⟩ := text_of_same_zero terminated same goesOn
        rw [nothing, otherNothing]
    · intro same
      rw [Same, first_byte terminated, ← head_take _ more, same, head_take _ more,
        ← first_byte terminated]

end Equality

section Reads

variable (memory : Memory 32)

/-- No byte is read behind one that is not passed, or from the bound on. -/
def ReadsWithin (passes : Nat → Prop) (bound : Option Nat) (str1 str2 : Word)
    (accessed : List Word) : Prop :=
  ∀ address ∈ accessed, ∃ offset, (∀ before < offset, passes before) ∧
    (∀ length ∈ bound, offset < length) ∧ Address str1 str2 offset address

variable {memory}

theorem strcmp_reads (terminated : Terminated memory) (str1 str2 : Word) :
    ReadsWithin (GoesOn memory str1 str2) none str1 str2
      (strcmp terminated str1 str2).accessed := by
  obtain ⟨count, cursors, reached, -, returned⟩ := strcmp_stops terminated str1 str2
  rw [returned]
  apply reached.reads_allowed
  intro length limit
  cases limit

theorem strncmp_reads (memory : Memory 32) (str1 str2 length : Word) :
    ReadsWithin (GoesOn memory str1 str2) (some length.toNat) str1 str2
      (strncmp memory str1 str2 length).accessed := by
  by_cases none : length = 0
  · rw [none]
    intro address member
    cases member
  · obtain ⟨count, cursors, reached, below, -, returned⟩ := strncmp_stops memory str1 str2 none
    rw [returned]
    apply reached.reads_allowed
    intro limit known
    cases known
    exact below

/-- A comparison whose reads are in bounds promises its order alone. -/
theorem compares_order {passes : Nat → Prop} {bound : Option Nat} {str1 str2 : Word}
    {left right : List Byte} {outcome : Outcome}
    (reads : ReadsWithin passes bound str1 str2 outcome.accessed) :
    Compares passes bound str1 str2 left right outcome ↔
      signOrder outcome.value = byteOrder left right :=
  ⟨Compares.order, fun order => ⟨order, reads⟩⟩

end Reads

section Results

variable {memory : Memory 32}

/-- Zero is returned exactly for strings that are equal but for the case of their letters, up to
the bound if there is one. The sign is that of the order of the capital letters exactly where the
first that differ are in the same half. What is read never lies behind the first difference, the
terminator or the bound. -/
theorem case_comparisons (terminated : Terminated memory) (str1 str2 length : Word) :
    ((strcasecmp terminated str1 str2).value = 0 ↔
      (text terminated str1).map upper = (text terminated str2).map upper) ∧
    ((strncasecmp memory str1 str2 length).value = 0 ↔
      ((text terminated str1).map upper).take length.toNat =
        ((text terminated str2).map upper).take length.toNat) ∧
    (signOrder (strcasecmp terminated str1 str2).value =
        byteOrder ((text terminated str1).map upper) ((text terminated str2).map upper) ↔
      SameHalf ((text terminated str1).map upper) ((text terminated str2).map upper)) ∧
    (signOrder (strncasecmp memory str1 str2 length).value =
        byteOrder (((text terminated str1).map upper).take length.toNat)
          (((text terminated str2).map upper).take length.toNat) ↔
      SameHalf (((text terminated str1).map upper).take length.toNat)
        (((text terminated str2).map upper).take length.toNat)) ∧
    ReadsWithin (GoesOn (uppercase memory) str1 str2) none str1 str2
      (strcasecmp terminated str1 str2).accessed ∧
    ReadsWithin (GoesOn (uppercase memory) str1 str2) (some length.toNat) str1 str2
      (strncasecmp memory str1 str2 length).accessed := by
  rw [strcasecmp_eq, strncasecmp_eq, ← uppercase_text, ← uppercase_text]
  have reads := strcmp_reads (uppercase_terminated terminated) str1 str2
  have boundedReads := strncmp_reads (uppercase memory) str1 str2 length
  refine ⟨strcmp_zero_iff _ str1 str2, strncmp_zero_iff _ str1 str2 length, ?_, ?_, reads,
    boundedReads⟩
  · rw [← compares_order reads]
    exact strcmp_compares_iff _ str1 str2
  · rw [← compares_order boundedReads]
    exact strncmp_compares_iff _ str1 str2 length

end Results

/-- A small letter at `0x10`, and the capital one at `0x20`. -/
def twoCases : Memory 32 := fun cell =>
  if cell = 0x10 then 0x61 else if cell = 0x20 then 0x41 else 0

theorem two_cases_terminated : Terminated twoCases := ⟨0, by decide⟩

theorem two_cases_equal : (strcasecmp two_cases_terminated 0x10 0x20).value = 0 := by
  have small : text two_cases_terminated 0x10 = [0x61] :=
    text_of_bytes _ (by decide) (by decide) (by decide)
  have capital : text two_cases_terminated 0x20 = [0x41] :=
    text_of_bytes _ (by decide) (by decide) (by decide)
  have compared := (case_comparisons two_cases_terminated 0x10 0x20 0).1
  rw [small, capital] at compared
  exact compared.mpr (by decide)

end NaplesPU.CaseCompare
