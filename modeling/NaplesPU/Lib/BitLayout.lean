import Mathlib.Data.Nat.Bitwise
import Mathlib.Data.List.Basic
import Mathlib.Data.List.Pairwise
import Mathlib.Tactic.Common

/-!
Words assembled from named bit fields, and tables that recognise a word by its
fixed fields. A layout lists, for each run of bits of the word, either a
constant or a run of bits of a named variable. The module names no machine: it
gives the extraction laws, the covering condition under which a variable can be
read back, and the uniqueness of the table entry that a word matches.
-/

namespace BitLayout

/-- A run of `width` bits starting at bit `low`. -/
structure Slot where
  low : Nat
  width : Nat
deriving DecidableEq, Repr

namespace Slot

def high (slot : Slot) : Nat := slot.low + slot.width

def Contains (slot : Slot) (position : Nat) : Prop :=
  slot.low ≤ position ∧ position < slot.high

instance (slot : Slot) (position : Nat) : Decidable (slot.Contains position) :=
  inferInstanceAs (Decidable (_ ∧ _))

def Disjoint (slot other : Slot) : Prop := slot.high ≤ other.low ∨ other.high ≤ slot.low

instance (slot other : Slot) : Decidable (slot.Disjoint other) :=
  inferInstanceAs (Decidable (_ ∨ _))

/-- The bits of `word` in the slot, moved down to bit zero. -/
def extract (slot : Slot) (word : Nat) : Nat := (word >>> slot.low) % 2 ^ slot.width

/-- The low bits of `value` moved into the slot, all other bits zero. -/
def place (slot : Slot) (value : Nat) : Nat := (value % 2 ^ slot.width) <<< slot.low

def ones (slot : Slot) : Nat := slot.place (2 ^ slot.width - 1)

theorem test_bit_extract (slot : Slot) (word position : Nat) :
    (slot.extract word).testBit position =
      (decide (position < slot.width) && word.testBit (slot.low + position)) := by
  rw [extract, Nat.testBit_mod_two_pow, Nat.testBit_shiftRight]

theorem test_bit_place (slot : Slot) (value position : Nat) :
    (slot.place value).testBit position =
      (decide (slot.Contains position) && value.testBit (position - slot.low)) := by
  rw [place, Nat.testBit_shiftLeft, Nat.testBit_mod_two_pow]
  by_cases below : slot.low ≤ position
  · have inside : slot.Contains position ↔ position - slot.low < slot.width := by
      unfold Contains high
      omega
    simp [below, inside]
  · simp [below, Contains]

theorem test_bit_ones (slot : Slot) (position : Nat) :
    slot.ones.testBit position = decide (slot.Contains position) := by
  rw [ones, test_bit_place, Nat.testBit_two_pow_sub_one]
  by_cases inside : slot.Contains position
  · have offset : position - slot.low < slot.width := by
      unfold Contains high at inside
      omega
    simp [inside, offset]
  · simp [inside]

theorem place_mod (slot : Slot) (value : Nat) :
    slot.place (value % 2 ^ slot.width) = slot.place value := by
  rw [place, place, Nat.mod_mod]

theorem place_lt {slot : Slot} {size : Nat} (fits : slot.high ≤ size) (value : Nat) :
    slot.place value < 2 ^ size := by
  apply Nat.lt_pow_two_of_testBit
  intro position above
  have outside : ¬ slot.Contains position := by
    unfold Contains
    omega
  simp [test_bit_place, outside]

theorem extract_or (slot : Slot) (left right : Nat) :
    slot.extract (left ||| right) = slot.extract left ||| slot.extract right := by
  apply Nat.eq_of_testBit_eq
  intro position
  simp only [test_bit_extract, Nat.testBit_or]
  cases decide (position < slot.width) <;> simp

theorem extract_zero (slot : Slot) : slot.extract 0 = 0 := by simp [extract]

/-- A slot reads only the bits below its end. -/
theorem extract_congr {slot : Slot} {size word other : Nat} (fits : slot.high ≤ size)
    (same : word % 2 ^ size = other % 2 ^ size) : slot.extract word = slot.extract other := by
  apply Nat.eq_of_testBit_eq
  intro position
  rw [test_bit_extract, test_bit_extract]
  by_cases inside : position < slot.width
  · have below : slot.low + position < size := by
      unfold high at fits
      omega
    have bits := congrArg (fun value => value.testBit (slot.low + position)) same
    simp only [Nat.testBit_mod_two_pow, below, decide_true, Bool.true_and] at bits
    rw [bits]
  · simp [inside]

theorem extract_place (slot : Slot) (value : Nat) :
    slot.extract (slot.place value) = value % 2 ^ slot.width := by
  apply Nat.eq_of_testBit_eq
  intro position
  rw [test_bit_extract, test_bit_place, Nat.testBit_mod_two_pow]
  by_cases inside : position < slot.width
  · have contained : slot.Contains (slot.low + position) := by
      unfold Contains high
      omega
    simp [inside, contained]
  · simp [inside]

theorem extract_place_of_disjoint {slot other : Slot} (apart : slot.Disjoint other)
    (value : Nat) : slot.extract (other.place value) = 0 := by
  apply Nat.eq_of_testBit_eq
  intro position
  rw [test_bit_extract, test_bit_place, Nat.zero_testBit]
  by_cases inside : position < slot.width
  · have outside : ¬ other.Contains (slot.low + position) := by
      unfold Contains
      unfold Disjoint high at apart
      unfold high
      omega
    simp [outside]
  · simp [inside]

/-- Masking a word with a slot's ones keeps exactly the extracted field. -/
theorem and_ones_eq_place_extract (slot : Slot) (word : Nat) :
    word &&& slot.ones = slot.place (slot.extract word) := by
  apply Nat.eq_of_testBit_eq
  intro position
  rw [Nat.testBit_and, test_bit_ones, test_bit_place, test_bit_extract]
  by_cases inside : slot.Contains position
  · have offset : position - slot.low < slot.width := by
      unfold Contains high at inside
      omega
    have restored : slot.low + (position - slot.low) = position := by
      unfold Contains at inside
      omega
    simp [inside, offset, restored]
  · simp [inside]

/-- The word with the slot's bits replaced by the low bits of `value`. -/
def patch (slot : Slot) (word value : Nat) : Nat :=
  (word ^^^ slot.place (slot.extract word)) ||| slot.place value

theorem test_bit_patch (slot : Slot) (word value position : Nat) :
    (slot.patch word value).testBit position =
      if slot.Contains position then value.testBit (position - slot.low)
      else word.testBit position := by
  rw [patch, ← and_ones_eq_place_extract, Nat.testBit_or, Nat.testBit_xor, Nat.testBit_and,
    test_bit_ones, test_bit_place]
  by_cases inside : slot.Contains position <;> simp [inside]

theorem extract_patch (slot : Slot) (word value : Nat) :
    slot.extract (slot.patch word value) = value % 2 ^ slot.width := by
  apply Nat.eq_of_testBit_eq
  intro position
  rw [test_bit_extract, test_bit_patch, Nat.testBit_mod_two_pow]
  by_cases inside : position < slot.width
  · have contained : slot.Contains (slot.low + position) := by
      unfold Contains high
      omega
    rw [if_pos contained, Nat.add_sub_cancel_left]
  · simp [inside]

/-- The second of two patches of a slot is the one that stays. -/
theorem patch_patch (slot : Slot) (word value later : Nat) :
    slot.patch (slot.patch word value) later = slot.patch word later := by
  apply Nat.eq_of_testBit_eq
  intro position
  rw [test_bit_patch, test_bit_patch, test_bit_patch]
  by_cases inside : slot.Contains position <;> simp [inside]

theorem patch_lt {slot : Slot} {size word : Nat} (fits : slot.high ≤ size)
    (bounded : word < 2 ^ size) (value : Nat) : slot.patch word value < 2 ^ size := by
  apply Nat.lt_pow_two_of_testBit
  intro position above
  have outside : ¬ slot.Contains position := by
    unfold Contains
    omega
  rw [test_bit_patch, if_neg outside]
  apply Nat.testBit_lt_two_pow
  exact lt_of_lt_of_le bounded (Nat.pow_le_pow_right (by decide) above)

end Slot

section Assemble

/-- The word that holds each listed value in its slot. -/
def assemble : List (Slot × Nat) → Nat
  | [] => 0
  | (slot, value) :: rest => slot.place value ||| assemble rest

theorem extract_assemble_of_disjoint {slot : Slot} {fields : List (Slot × Nat)}
    (apart : ∀ field ∈ fields, slot.Disjoint field.1) : slot.extract (assemble fields) = 0 := by
  induction fields with
  | nil => exact slot.extract_zero
  | cons field rest induction =>
      rw [assemble, Slot.extract_or, Slot.extract_place_of_disjoint (apart field (by simp)),
        induction fun other member => apart other (by simp [member]), Nat.or_zero]

theorem extract_assemble {fields : List (Slot × Nat)}
    (apart : fields.Pairwise fun field other => field.1.Disjoint other.1)
    {slot : Slot} {value : Nat} (member : (slot, value) ∈ fields) :
    slot.extract (assemble fields) = value % 2 ^ slot.width := by
  induction fields with
  | nil => simp at member
  | cons field rest induction =>
      obtain ⟨headApart, tailApart⟩ := List.pairwise_cons.mp apart
      rw [assemble, Slot.extract_or]
      rcases List.mem_cons.mp member with same | later
      · subst same
        rw [Slot.extract_place, extract_assemble_of_disjoint headApart, Nat.or_zero]
      · have away : slot.Disjoint field.1 := Or.symm (headApart (slot, value) later)
        rw [Slot.extract_place_of_disjoint away, induction tailApart later, Nat.zero_or]

theorem assemble_append (fields more : List (Slot × Nat)) :
    assemble (fields ++ more) = assemble fields ||| assemble more := by
  induction fields with
  | nil => exact (Nat.zero_or _).symm
  | cons field rest induction =>
      rw [List.cons_append, assemble, assemble, induction, Nat.or_assoc]

theorem assemble_concat (fields : List (Slot × Nat)) (slot : Slot) (value : Nat) :
    assemble (fields ++ [(slot, value)]) = assemble fields ||| slot.place value := by
  rw [assemble_append, assemble, assemble, Nat.or_zero]

theorem assemble_perm {fields other : List (Slot × Nat)} (permuted : fields.Perm other) :
    assemble fields = assemble other := by
  induction permuted with
  | nil => rfl
  | cons field _ induction => rw [assemble, assemble, induction]
  | swap field next rest =>
      simp only [assemble]
      exact Nat.or_left_comm _ _ _
  | trans _ _ first second => rw [first, second]

section Narrow

variable {fields : List (Slot × Nat)} {slot whole : Slot}

/-- The low end of a field that is zero. -/
theorem extract_narrow (low : slot.low = whole.low) (narrow : slot.width ≤ whole.width)
    (apart : ∀ field ∈ fields, whole.Disjoint field.1) :
    slot.extract (assemble (fields ++ [(whole, 0)])) = 0 := by
  have nothing : whole.place 0 = 0 := by simp [Slot.place]
  rw [assemble_concat, nothing, Nat.or_zero]
  apply extract_assemble_of_disjoint
  intro field member
  have disjoint := apart field member
  unfold Slot.Disjoint Slot.high at disjoint ⊢
  omega

/-- Patching the low end of a field that is still zero gives the field the low bits. -/
theorem patch_assemble (low : slot.low = whole.low) (narrow : slot.width ≤ whole.width)
    (apart : ∀ field ∈ fields, whole.Disjoint field.1) (value : Nat) :
    slot.patch (assemble (fields ++ [(whole, 0)])) value =
      assemble (fields ++ [(whole, value % 2 ^ slot.width)]) := by
  have nothing (slot : Slot) : slot.place 0 = 0 := by simp [Slot.place]
  have shared : whole.place (value % 2 ^ slot.width) = slot.place value := by
    rw [Slot.place, Slot.place, low, Nat.mod_mod_of_dvd' (Nat.pow_dvd_pow 2 narrow)]
  rw [Slot.patch, extract_narrow low narrow apart, nothing, Nat.xor_zero, assemble_concat,
    assemble_concat, nothing, Nat.or_zero, shared]

end Narrow

/-- Two words that differ at most in one field are equal when the field is. -/
theorem assemble_concat_inj {fields : List (Slot × Nat)} {slot : Slot}
    (apart : ∀ field ∈ fields, slot.Disjoint field.1) (value other : Nat) :
    assemble (fields ++ [(slot, value)]) = assemble (fields ++ [(slot, other)]) ↔
      value % 2 ^ slot.width = other % 2 ^ slot.width := by
  have field (value : Nat) : slot.extract (assemble (fields ++ [(slot, value)])) =
      value % 2 ^ slot.width := by
    rw [assemble_concat, Slot.extract_or, extract_assemble_of_disjoint apart, Nat.zero_or,
      Slot.extract_place]
  constructor
  · intro same
    rw [← field value, ← field other, same]
  · intro same
    rw [assemble_concat, assemble_concat, ← Slot.place_mod, same, Slot.place_mod]

theorem assemble_lt {fields : List (Slot × Nat)} {size : Nat}
    (fits : ∀ field ∈ fields, field.1.high ≤ size) : assemble fields < 2 ^ size := by
  induction fields with
  | nil => exact Nat.two_pow_pos size
  | cons field rest induction =>
      exact Nat.or_lt_two_pow (Slot.place_lt (fits field (by simp)) field.2)
        (induction fun other member => fits other (by simp [member]))

end Assemble

/-- The bits of one field: a constant, or the bits of a variable from `low` up. -/
inductive Source (Name : Type*) where
  | fixed (value : Nat)
  | var (name : Name) (low : Nat)
deriving DecidableEq, Repr

def Source.value {Name : Type*} (values : Name → Nat) : Source Name → Nat
  | .fixed value => value
  | .var name low => values name >>> low

structure BitField (Name : Type*) where
  slot : Slot
  source : Source Name
deriving DecidableEq, Repr

/-- A mask and the value of the word under that mask. -/
structure Pattern where
  mask : Nat
  bits : Nat
deriving DecidableEq, Repr

namespace Pattern

def Matches (pattern : Pattern) (word : Nat) : Prop := word &&& pattern.mask = pattern.bits

instance (pattern : Pattern) (word : Nat) : Decidable (pattern.Matches word) :=
  inferInstanceAs (Decidable (_ = _))

def Conflicts (pattern other : Pattern) : Prop :=
  (pattern.mask &&& other.mask) &&& (pattern.bits ^^^ other.bits) ≠ 0

instance (pattern other : Pattern) : Decidable (pattern.Conflicts other) :=
  inferInstanceAs (Decidable (_ ≠ _))

theorem not_matches_both_of_conflicts {pattern other : Pattern}
    (conflict : pattern.Conflicts other) {word : Nat} (matched : pattern.Matches word) :
    ¬ other.Matches word := by
  intro otherMatched
  apply conflict
  rw [← matched, ← otherMatched]
  apply Nat.eq_of_testBit_eq
  intro position
  simp only [Nat.testBit_and, Nat.testBit_xor, Nat.zero_testBit]
  cases word.testBit position <;> cases pattern.mask.testBit position <;>
    cases other.mask.testBit position <;> rfl

theorem conflicts_symm {pattern other : Pattern} (conflict : pattern.Conflicts other) :
    other.Conflicts pattern := by
  unfold Conflicts at conflict ⊢
  rwa [Nat.and_comm other.mask, Nat.xor_comm other.bits]

def conflictsWith (pattern other : Pattern) : Bool :=
  !Nat.beq ((pattern.mask &&& other.mask) &&& (pattern.bits ^^^ other.bits)) 0

/-- The pairwise check as one Boolean function, which evaluates on long tables. -/
def allConflict : List Pattern → Bool
  | [] => true
  | pattern :: rest => rest.all (conflictsWith pattern) && allConflict rest

theorem conflicts_of_conflicts_with {pattern other : Pattern}
    (conflict : pattern.conflictsWith other) : pattern.Conflicts other := by
  intro zero
  simp [conflictsWith, zero] at conflict

theorem pairwise_of_all_conflict {patterns : List Pattern} (conflict : allConflict patterns) :
    patterns.Pairwise Conflicts := by
  induction patterns with
  | nil => exact List.Pairwise.nil
  | cons pattern rest induction =>
      obtain ⟨head, tail⟩ := (Bool.and_eq_true _ _).mp conflict
      refine List.pairwise_cons.mpr ⟨?_, induction tail⟩
      intro other member
      exact conflicts_of_conflicts_with (List.all_eq_true.mp head other member)

end Pattern

/-- The encoding of one kind of word, field by field. -/
abbrev Layout (Name : Type*) := List (BitField Name)

namespace Layout

variable {Name : Type*}

def encode (layout : Layout Name) (values : Name → Nat) : Nat :=
  assemble (layout.map fun field => (field.slot, field.source.value values))

/-- The bits of a word that the constants of the layout determine. -/
def pattern : Layout Name → Pattern
  | [] => ⟨0, 0⟩
  | ⟨slot, .fixed value⟩ :: rest =>
      ⟨slot.ones ||| (pattern rest).mask, slot.place value ||| (pattern rest).bits⟩
  | ⟨_, .var _ _⟩ :: rest => pattern rest

/-- Collects the bits of one variable from all the fields that hold some of them. -/
def gather [DecidableEq Name] (name : Name) : Layout Name → Nat → Nat
  | [], _ => 0
  | ⟨slot, .var owner low⟩ :: rest, word =>
      if owner = name then (slot.extract word) <<< low ||| gather name rest word
      else gather name rest word
  | ⟨_, .fixed _⟩ :: rest, word => gather name rest word

/-- The fields of a layout occupy different bits of a word of `size` bits. -/
structure WellFormed (layout : Layout Name) (size : Nat) : Prop where
  apart : layout.Pairwise fun field other => field.slot.Disjoint other.slot
  fits : ∀ field ∈ layout, field.slot.high ≤ size

instance (layout : Layout Name) (size : Nat) : Decidable (layout.WellFormed size) :=
  decidable_of_iff (layout.Pairwise (fun field other => field.slot.Disjoint other.slot) ∧
      ∀ field ∈ layout, field.slot.high ≤ size)
    ⟨fun both => ⟨both.1, both.2⟩, fun formed => ⟨formed.apart, formed.fits⟩⟩

def stored [DecidableEq Name] (name : Name) (layout : Layout Name) : List Slot :=
  layout.filterMap fun field =>
    match field.source with
    | .var owner low => if owner = name then some ⟨low, field.slot.width⟩ else none
    | .fixed _ => none

/-- The layout stores the low `width` bits of the variable and no others. -/
def Covers [DecidableEq Name] (layout : Layout Name) (name : Name) (width : Nat) : Prop :=
  (∀ position < width, ∃ slot ∈ layout.stored name, slot.Contains position) ∧
    ∀ slot ∈ layout.stored name, slot.high ≤ width

instance [DecidableEq Name] (layout : Layout Name) (name : Name) (width : Nat) :
    Decidable (layout.Covers name width) :=
  inferInstanceAs (Decidable (_ ∧ _))

section Laws

variable {layout : Layout Name} {size : Nat}

/-- The word depends on the variables that have bits in it, and on no others. -/
theorem encode_congr {values other : Name → Nat}
    (same : ∀ field ∈ layout, ∀ name low, field.source = .var name low →
      values name = other name) : layout.encode values = layout.encode other := by
  rw [encode, encode]
  congr 1
  apply List.map_congr_left
  intro field member
  cases source : field.source with
  | fixed value => rfl
  | var name low => rw [Source.value, Source.value, same field member name low source]

theorem encode_lt (formed : layout.WellFormed size) (values : Name → Nat) :
    layout.encode values < 2 ^ size := by
  apply assemble_lt
  intro entry member
  obtain ⟨field, fieldMember, rfl⟩ := List.mem_map.mp member
  exact formed.fits field fieldMember

theorem extract_encode (formed : layout.WellFormed size) (values : Name → Nat)
    {field : BitField Name} (member : field ∈ layout) :
    field.slot.extract (layout.encode values) =
      field.source.value values % 2 ^ field.slot.width := by
  apply extract_assemble
  · rw [List.pairwise_map]
    exact formed.apart
  · exact List.mem_map.mpr ⟨field, member, rfl⟩

/-- A word matches a layout's pattern once every constant field reads back. -/
theorem pattern_matches_of_extract {word : Nat}
    (reads : ∀ slot value, ⟨slot, .fixed value⟩ ∈ layout →
      slot.extract word = value % 2 ^ slot.width) : layout.pattern.Matches word := by
  induction layout with
  | nil => simp [pattern, Pattern.Matches]
  | cons field rest induction =>
      have restMatches : (pattern rest).Matches word :=
        induction fun slot value member => reads slot value (by simp [member])
      obtain ⟨slot, source⟩ := field
      cases source with
      | var name low => exact restMatches
      | fixed value =>
          have head : word &&& slot.ones = slot.place value := by
            rw [Slot.and_ones_eq_place_extract, reads slot value (by simp), Slot.place_mod]
          simp only [pattern, Pattern.Matches, Nat.and_or_distrib_left, head]
          rw [restMatches]

theorem pattern_matches_encode (formed : layout.WellFormed size) (values : Name → Nat) :
    layout.pattern.Matches (layout.encode values) :=
  pattern_matches_of_extract fun _ _ member => extract_encode formed values member

variable [DecidableEq Name]

/-- A gathered bit is the variable's bit wherever some field stores it. -/
theorem test_bit_gather {values : Name → Nat} {word : Nat} {name : Name}
    (reads : ∀ field ∈ layout, field.slot.extract word =
      field.source.value values % 2 ^ field.slot.width) (position : Nat) :
    (layout.gather name word).testBit position =
      (decide (∃ slot ∈ layout.stored name, slot.Contains position) &&
        (values name).testBit position) := by
  induction layout with
  | nil => simp [gather, stored]
  | cons field rest induction =>
      have restBits := induction fun other member => reads other (by simp [member])
      obtain ⟨slot, source⟩ := field
      cases source with
      | fixed value => exact restBits
      | var owner low =>
          by_cases same : owner = name
          · subst same
            have head := reads ⟨slot, .var owner low⟩ (by simp)
            simp only at head
            have storedCons : stored owner (⟨slot, .var owner low⟩ :: rest) =
                ⟨low, slot.width⟩ :: stored owner rest := by
              simp [stored]
            have headBit : ((slot.extract word) <<< low).testBit position =
                (decide ((⟨low, slot.width⟩ : Slot).Contains position) &&
                  (values owner).testBit position) := by
              rw [head, Nat.testBit_shiftLeft, Nat.testBit_mod_two_pow, Source.value,
                Nat.testBit_shiftRight]
              by_cases above : low ≤ position
              · have restored : low + (position - low) = position := by omega
                have inside : position - low < slot.width ↔
                    (⟨low, slot.width⟩ : Slot).Contains position := by
                  simp only [Slot.Contains, Slot.high]
                  omega
                simp [above, restored, inside]
              · simp [above, Slot.Contains]
            rw [storedCons, gather, if_pos rfl, Nat.testBit_or, restBits, headBit,
              ← Bool.and_or_distrib_right, ← Bool.decide_or]
            simp only [List.exists_mem_cons_iff]
          · have storedCons : stored name (⟨slot, .var owner low⟩ :: rest) =
                stored name rest := by
              simp [stored, same]
            rw [storedCons, gather, if_neg same]
            exact restBits

theorem gather_encode (formed : layout.WellFormed size) {name : Name} {width : Nat}
    (covers : layout.Covers name width) (values : Name → Nat) :
    layout.gather name (layout.encode values) = values name % 2 ^ width := by
  apply Nat.eq_of_testBit_eq
  intro position
  rw [test_bit_gather (fun _ member => extract_encode formed values member),
    Nat.testBit_mod_two_pow]
  congr 1
  rw [decide_eq_decide]
  constructor
  · rintro ⟨slot, member, inside⟩
    exact lt_of_lt_of_le inside.2 (covers.2 slot member)
  · exact covers.1 position

end Laws

section Fields

variable {layout : Layout Name} {size word : Nat}

/-- The constant fields with their values, whose word is what the pattern compares with. -/
def constants (layout : Layout Name) : List (Slot × Nat) :=
  layout.filterMap fun field =>
    match field.source with
    | .fixed value => some (field.slot, value)
    | .var _ _ => none

theorem pattern_bits (layout : Layout Name) : layout.pattern.bits = assemble layout.constants := by
  induction layout with
  | nil => rfl
  | cons field rest induction =>
      obtain ⟨slot, source⟩ := field
      cases source with
      | fixed value => exact congrArg (slot.place value ||| ·) induction
      | var name low => exact induction

theorem mask_contains {slot : Slot} {value : Nat} (member : ⟨slot, .fixed value⟩ ∈ layout)
    {position : Nat} (inside : slot.Contains position) :
    layout.pattern.mask.testBit position = true := by
  induction layout with
  | nil => cases member
  | cons field rest induction =>
      rcases List.mem_cons.mp member with rfl | later
      · rw [pattern, Nat.testBit_or, Slot.test_bit_ones, decide_eq_true inside, Bool.true_or]
      · have found := induction later
        obtain ⟨other, source⟩ := field
        cases source with
        | fixed value => rw [pattern, Nat.testBit_or, found, Bool.or_true]
        | var name low => exact found

/-- In a word that matches the pattern every constant field reads its constant. -/
theorem extract_of_pattern_matches (formed : layout.WellFormed size)
    (matched : layout.pattern.Matches word) {slot : Slot} {value : Nat}
    (member : ⟨slot, .fixed value⟩ ∈ layout) : slot.extract word = value % 2 ^ slot.width := by
  have masked : slot.extract (word &&& layout.pattern.mask) = slot.extract word := by
    apply Nat.eq_of_testBit_eq
    intro position
    rw [Slot.test_bit_extract, Slot.test_bit_extract, Nat.testBit_and]
    by_cases inside : position < slot.width
    · have contained : slot.Contains (slot.low + position) := by
        unfold Slot.Contains Slot.high
        omega
      rw [mask_contains member contained, Bool.and_true]
    · simp [inside]
  have apart : layout.constants.Pairwise fun field other => field.1.Disjoint other.1 := by
    apply formed.apart.filterMap
    intro field other disjoint entry found otherEntry otherFound
    obtain ⟨slot, source⟩ := field
    obtain ⟨otherSlot, otherSource⟩ := other
    cases source with
    | var name low => cases found
    | fixed value =>
        cases otherSource with
        | var name low => cases otherFound
        | fixed otherValue =>
            cases found
            cases otherFound
            exact disjoint
  have listed : (slot, value) ∈ layout.constants :=
    List.mem_filterMap.mpr ⟨⟨slot, .fixed value⟩, member, rfl⟩
  rw [← masked, matched, pattern_bits, extract_assemble apart listed]

def Complete (layout : Layout Name) (size : Nat) : Prop :=
  ∀ position < size, ∃ field ∈ layout, field.slot.Contains position

instance (layout : Layout Name) (size : Nat) : Decidable (layout.Complete size) :=
  inferInstanceAs (Decidable (∀ position < size, _))

/-- The word whose set bits are those of all fields. -/
def filled (layout : Layout Name) : Nat :=
  layout.foldr (fun field bits => field.slot.ones ||| bits) 0

theorem exists_contains_of_filled {layout : Layout Name} {position : Nat}
    (set : layout.filled.testBit position) :
    ∃ field ∈ layout, field.slot.Contains position := by
  induction layout with
  | nil => simp [filled] at set
  | cons field rest induction =>
      rw [filled, List.foldr_cons, Nat.testBit_or, Bool.or_eq_true, Slot.test_bit_ones] at set
      rcases set with own | later
      · exact ⟨field, by simp, of_decide_eq_true own⟩
      · obtain ⟨other, member, inside⟩ := induction later
        exact ⟨other, by simp [member], inside⟩

theorem complete_of_filled {layout : Layout Name} {size : Nat}
    (whole : layout.filled = 2 ^ size - 1) : layout.Complete size := by
  intro position small
  apply exists_contains_of_filled
  rw [whole, Nat.testBit_two_pow_sub_one]
  exact decide_eq_true small

theorem eq_of_extract_eq (complete : layout.Complete size) {other : Nat}
    (bounded : word < 2 ^ size) (otherBounded : other < 2 ^ size)
    (same : ∀ field ∈ layout, field.slot.extract word = field.slot.extract other) :
    word = other := by
  apply Nat.eq_of_testBit_eq
  intro position
  rcases Nat.lt_or_ge position size with small | large
  · obtain ⟨field, member, inside⟩ := complete position small
    have bits := congrArg (fun value => value.testBit (position - field.slot.low))
      (same field member)
    simp only [Slot.test_bit_extract] at bits
    obtain ⟨low, high⟩ := inside
    rw [Slot.high] at high
    simpa [show position - field.slot.low < field.slot.width by omega,
      show field.slot.low + (position - field.slot.low) = position by omega] using bits
  · have power : 2 ^ size ≤ 2 ^ position := Nat.pow_le_pow_right (by decide) large
    rw [Nat.testBit_lt_two_pow (by omega), Nat.testBit_lt_two_pow (by omega)]

/-- A word is the encoding of the values exactly if its variable fields hold them. -/
theorem encode_eq_word_iff (formed : layout.WellFormed size) (complete : layout.Complete size)
    (bounded : word < 2 ^ size) (matched : layout.pattern.Matches word) (values : Name → Nat) :
    layout.encode values = word ↔ ∀ slot name low, ⟨slot, .var name low⟩ ∈ layout →
      (values name >>> low) % 2 ^ slot.width = slot.extract word := by
  constructor
  · rintro rfl slot name low member
    exact (extract_encode formed values member).symm
  · intro holds
    apply eq_of_extract_eq complete (encode_lt formed values) bounded
    rintro ⟨slot, source⟩ member
    rw [extract_encode formed values member]
    cases source with
    | fixed value => exact (extract_of_pattern_matches formed matched member).symm
    | var name low => exact holds slot name low member

variable [DecidableEq Name]

/-- The bits of the variable that the word holds, run by run. -/
def held (name : Name) (word : Nat) (layout : Layout Name) : List (Slot × Nat) :=
  layout.filterMap fun field =>
    match field.source with
    | .var owner low =>
        if owner = name then some (⟨low, field.slot.width⟩, field.slot.extract word) else none
    | .fixed _ => none

theorem gather_eq_assemble (name : Name) (layout : Layout Name) (word : Nat) :
    layout.gather name word = assemble (layout.held name word) := by
  induction layout with
  | nil => rfl
  | cons field rest induction =>
      obtain ⟨slot, source⟩ := field
      cases source with
      | fixed value => exact induction
      | var owner low =>
          by_cases same : owner = name
          · have entry : held name word (⟨slot, .var owner low⟩ :: rest) =
                (⟨low, slot.width⟩, slot.extract word) :: held name word rest := by
              simp [held, same]
            have small : slot.extract word % 2 ^ slot.width = slot.extract word :=
              Nat.mod_mod _ _
            rw [gather, if_pos same, entry, assemble, Slot.place, small, induction]
          · have skipped : held name word (⟨slot, .var owner low⟩ :: rest) =
                held name word rest := by
              simp [held, same]
            rw [gather, if_neg same, skipped, induction]

theorem held_runs (name : Name) (word : Nat) (layout : Layout Name) :
    (layout.held name word).map Prod.fst = layout.stored name := by
  rw [held, stored, List.map_filterMap]
  congr 1
  funext field
  obtain ⟨slot, source⟩ := field
  cases source with
  | fixed value => rfl
  | var owner low =>
      simp only
      split <;> rfl

/-- Gathering keeps the bits of a field where the variable has them, if no other field
holds the same bits of it. -/
theorem extract_gather {name : Name} {slot : Slot} {low : Nat}
    (apart : (layout.stored name).Pairwise Slot.Disjoint)
    (member : ⟨slot, .var name low⟩ ∈ layout) :
    (layout.gather name word >>> low) % 2 ^ slot.width = slot.extract word := by
  have listed : (⟨low, slot.width⟩, slot.extract word) ∈ layout.held name word :=
    List.mem_filterMap.mpr ⟨⟨slot, .var name low⟩, member, if_pos rfl⟩
  rw [← held_runs name word, List.pairwise_map] at apart
  have extracted := extract_assemble apart listed
  rw [← gather_eq_assemble] at extracted
  exact extracted.trans (Nat.mod_mod _ _)

end Fields

end Layout

section Table

variable {Name Entry : Type*} (layoutOf : Entry → Layout Name)

/-- The first entry whose constants agree with the word. -/
def lookup (table : List Entry) (word : Nat) : Option Entry :=
  table.find? fun entry => (layoutOf entry).pattern.Matches word

/-- Every two entries of the table fix some bit to different values. -/
def Unambiguous (table : List Entry) : Prop :=
  table.Pairwise fun entry other =>
    (layoutOf entry).pattern.Conflicts (layoutOf other).pattern

variable {layoutOf} {table : List Entry}

theorem matches_of_lookup {entry : Entry} {word : Nat}
    (found : lookup layoutOf table word = some entry) :
    entry ∈ table ∧ (layoutOf entry).pattern.Matches word := by
  have matched := List.find?_some found
  exact ⟨List.mem_of_find?_eq_some found, of_decide_eq_true matched⟩

theorem unambiguous_of_all_conflict
    (conflict : Pattern.allConflict (table.map fun entry => (layoutOf entry).pattern)) :
    Unambiguous layoutOf table :=
  List.pairwise_map.mp (Pattern.pairwise_of_all_conflict conflict)

theorem Unambiguous.eq_of_matches (unambiguous : Unambiguous layoutOf table)
    {entry other : Entry} (member : entry ∈ table) (otherMember : other ∈ table) {word : Nat}
    (matched : (layoutOf entry).pattern.Matches word)
    (otherMatched : (layoutOf other).pattern.Matches word) : entry = other := by
  by_contra different
  have symmetric : Std.Symm fun entry other : Entry =>
      (layoutOf entry).pattern.Conflicts (layoutOf other).pattern :=
    ⟨fun _ _ => Pattern.conflicts_symm⟩
  have conflict := List.Pairwise.forall unambiguous member otherMember different
  exact Pattern.not_matches_both_of_conflicts conflict matched otherMatched

theorem lookup_eq_some (unambiguous : Unambiguous layoutOf table) {entry : Entry}
    (member : entry ∈ table) {word : Nat} (matched : (layoutOf entry).pattern.Matches word) :
    lookup layoutOf table word = some entry := by
  cases found : lookup layoutOf table word with
  | none =>
      have absent := List.find?_eq_none.mp found entry member
      simp [matched] at absent
  | some other =>
      have otherMember := List.mem_of_find?_eq_some found
      have otherMatched := List.find?_some found
      rw [unambiguous.eq_of_matches member otherMember matched (by simpa using otherMatched)]

end Table

end BitLayout
