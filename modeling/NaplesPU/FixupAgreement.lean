import NaplesPU.Lib.BitLayout
import NaplesPU.ELFRelocations

/-!
The assembler and the linker resolve the same references. Both patches are
compared with one abstract operation, the replacement of a slot of a word, and
the two computed values with the distance of the symbol from the place. The
range checks exist in the linker only, and two rows of the assembler's table are
missing, so the agreement is stated with the exact condition for it.
-/

namespace NaplesPU.FixupAgreement

open BitLayout ByteMemory TwosComplement FixupKinds AsmBackend ELFRelocations

section Patches

variable {slot : Slot} {word : Nat}

theorem mask_bit {width : Nat} (fits : slot.high ≤ width) (position : Nat) :
    ((BitVec.allOnes width >>> (width - slot.width)) <<< slot.low).getLsbD position =
      decide (slot.Contains position) := by
  unfold Slot.high at fits
  rw [BitVec.getLsbD_shiftLeft, BitVec.getLsbD_ushiftRight, BitVec.getLsbD_allOnes,
    Bool.eq_iff_iff]
  simp only [Bool.and_eq_true, Bool.not_eq_true', decide_eq_true_eq, decide_eq_false_iff_not]
  unfold Slot.Contains Slot.high
  omega

theorem word_bit_above {limit : Nat} (bounded : word < 2 ^ limit) {position : Nat}
    (above : limit ≤ position) : word.testBit position = false := by
  apply Nat.testBit_lt_two_pow
  exact lt_of_lt_of_le bounded (Nat.pow_le_pow_right (show 0 < 2 by decide) above)

/-- The backend ors the low bits of the value into the field. -/
theorem fixup_word_ors (isPCRel : Bool) (value : BitVec 64) (positive : 0 < slot.width)
    (fits : slot.high ≤ 32) (bounded : word < 2 ^ 32) :
    ∃ patched, fixupWord ⟨slot.low, slot.width, isPCRel⟩ (BitVec.ofNat 64 word) value =
        some patched ∧ patched.toNat = word ||| slot.place value.toNat := by
  refine ⟨_, by rw [fixupWord, if_pos (by simp only; omega)], ?_⟩
  apply Nat.eq_of_testBit_eq
  intro position
  rw [Nat.testBit_or, Slot.test_bit_place, BitVec.testBit_toNat, BitVec.getLsbD_or,
    BitVec.getLsbD_and, mask_bit (le_trans fits (by decide)), BitVec.getLsbD_ofNat]
  have kept : (decide (position < 64) && word.testBit position) = word.testBit position := by
    by_cases low : position < 64
    · rw [decide_eq_true low, Bool.true_and]
    · rw [word_bit_above bounded (show 32 ≤ position by omega), Bool.and_false]
  rw [kept]
  congr 1
  by_cases inside : slot.Contains position
  · have upper : position < 32 := lt_of_lt_of_le inside.2 fits
    have lower : slot.low ≤ position := inside.1
    rw [decide_eq_true inside, BitVec.testBit_toNat, adjustFixupValue,
      BitVec.getLsbD_shiftLeft, BitVec.getLsbD_setWidth, BitVec.getLsbD_setWidth,
      decide_eq_true (show position < 64 by omega),
      decide_eq_true (show position - slot.low < 64 by omega),
      decide_eq_true (show position - slot.low < 32 by omega),
      decide_eq_false (show ¬ position < slot.low by omega)]
    simp
  · rw [decide_eq_false inside, Bool.and_false, Bool.false_and]

/-- Oring a value into a zero field replaces the field. -/
theorem fixup_word_patches (isPCRel : Bool) (value : BitVec 64) (positive : 0 < slot.width)
    (fits : slot.high ≤ 32) (bounded : word < 2 ^ 32) (zero : slot.extract word = 0) :
    ∃ patched, fixupWord ⟨slot.low, slot.width, isPCRel⟩ (BitVec.ofNat 64 word) value =
        some patched ∧ patched.toNat = slot.patch word value.toNat := by
  obtain ⟨patched, written, ored⟩ := fixup_word_ors isPCRel value positive fits bounded
  have empty : slot.place 0 = 0 := by rw [Slot.place, Nat.zero_mod, Nat.zero_shiftLeft]
  refine ⟨patched, written, ?_⟩
  rw [ored, Slot.patch, zero, empty, Nat.xor_zero]

/-- The linker's relocation replaces the field whatever it held. -/
theorem reloc_word_patches (value : BitVec 64) (fits : slot.high ≤ 32) (bounded : word < 2 ^ 32) :
    ((BitVec.ofNat 32 word &&& ~~~((BitVec.allOnes 32 >>> (32 - slot.width)) <<< slot.low)) |||
      ((value <<< slot.low) &&&
        ((BitVec.allOnes 32 >>> (32 - slot.width)) <<< slot.low).setWidth 64).setWidth 32).toNat =
          slot.patch word value.toNat := by
  apply Nat.eq_of_testBit_eq
  intro position
  rw [Slot.test_bit_patch, BitVec.testBit_toNat, BitVec.getLsbD_or, BitVec.getLsbD_and,
    BitVec.getLsbD_not, mask_bit fits, BitVec.getLsbD_setWidth, BitVec.getLsbD_and,
    BitVec.getLsbD_setWidth, mask_bit fits, BitVec.getLsbD_ofNat]
  by_cases inside : slot.Contains position
  · have upper : position < 32 := lt_of_lt_of_le inside.2 fits
    have lower : slot.low ≤ position := inside.1
    rw [if_pos inside, BitVec.testBit_toNat, BitVec.getLsbD_shiftLeft,
      decide_eq_true inside, decide_eq_true upper, decide_eq_true (show position < 64 by omega),
      decide_eq_false (show ¬ position < slot.low by omega)]
    simp
  · rw [if_neg inside, decide_eq_false inside]
    by_cases low : position < 32
    · rw [decide_eq_true low]
      simp
    · rw [word_bit_above bounded (show 32 ≤ position by omega), decide_eq_false low]
      simp

theorem patch_whole_word (bounded : word < 2 ^ 32) (value : Nat) :
    (⟨0, 32⟩ : Slot).patch word value = value % 2 ^ 32 := by
  apply Nat.eq_of_testBit_eq
  intro position
  rw [Slot.test_bit_patch, Nat.testBit_mod_two_pow]
  by_cases low : position < 32
  · rw [if_pos ⟨Nat.zero_le _, low⟩, decide_eq_true low, Bool.true_and, Nat.sub_zero]
  · rw [if_neg fun inside => low inside.2, word_bit_above bounded (by omega),
      decide_eq_false low, Bool.false_and]

end Patches

def targetField : MCFixupKind → Slot
  | .FK_Data_4 => ⟨0, 32⟩
  | .target .fixup_NaplesPU_Branch => ⟨0, 18⟩
  | .target .fixup_NaplesPU_PCRel_Mem => ⟨3, 9⟩
  | .target .fixup_NaplesPU_PCRel_Lea => ⟨3, 9⟩
  | .target .fixup_NaplesPU_PCRel_Ext => ⟨3, 9⟩
  | .target .fixup_NaplesPU_Absh => ⟨2, 16⟩
  | .target .fixup_NaplesPU_Absl => ⟨2, 16⟩

/-- Data words always, references with a row of the table while the value is in range,
and references without a row never. -/
def ResolvesAlike (kind : MCFixupKind) (value : BitVec 64) : Prop :=
  match kind with
  | .FK_Data_4 => True
  | .target .fixup_NaplesPU_Branch => SignedFits 18 value.toInt
  | .target .fixup_NaplesPU_PCRel_Mem => SignedFits 9 value.toInt
  | .target .fixup_NaplesPU_PCRel_Lea => SignedFits 9 value.toInt
  | .target .fixup_NaplesPU_PCRel_Ext => SignedFits 9 value.toInt
  | .target .fixup_NaplesPU_Absh => False
  | .target .fixup_NaplesPU_Absl => False

section Agreement

variable {data : List Byte} {offset : Nat}

theorem word_bounded (inside : offset + 4 ≤ data.length) : readAt data offset 4 < 2 ^ 32 :=
  read_at_lt inside

theorem apply_fixup_patches {kind : MCFixupKind} (slot : Slot) {isPCRel : Bool}
    (row : getFixupKindInfo kind = ⟨slot.low, slot.width, isPCRel⟩) (value : BitVec 64)
    (positive : 0 < slot.width) (fits : slot.high ≤ 32) (inside : offset + 4 ≤ data.length)
    (zero : slot.extract (readAt data offset 4) = 0) :
    applyFixup kind data offset value =
      .written (writeAt data offset 4 (slot.patch (readAt data offset 4) value.toNat)) := by
  obtain ⟨patched, written, same⟩ := fixup_word_patches isPCRel value positive fits
    (word_bounded inside) zero
  rw [applyFixup, if_pos inside, row, written]
  exact congrArg (fun word => Outcome.written (writeAt data offset 4 word)) same

theorem apply_fixup_missing_row {kind : MCFixupKind} {isPCRel : Bool} {targetOffset : Nat}
    (row : getFixupKindInfo kind = ⟨targetOffset, 0, isPCRel⟩) (value : BitVec 64) :
    applyFixup kind data offset value = .undefinedBehaviour := by
  rw [applyFixup, row]
  split <;> rfl

theorem apply_reloc_patches {slot : Slot} (value : BitVec 64) (fits : slot.high ≤ 32)
    (inside : offset + 4 ≤ data.length) :
    applyNaplesPUReloc slot.width slot.low data offset value =
      writeAt data offset 4 (slot.patch (readAt data offset 4) value.toNat) := by
  rw [applyNaplesPUReloc]
  exact congrArg (writeAt data offset 4) (reloc_word_patches value fits (word_bounded inside))

theorem check_int_iff {bits : Nat} (positive : 0 < bits) (bounded : bits ≤ 64)
    (value : BitVec 64) : checkInt value bits = true ↔ SignedFits bits value.toInt := by
  rw [checkInt, decide_eq_true_iff, sign_extend_eq_to_int_iff positive bounded]

/-- A range-checked relocation agrees with the unchecked patch of its slot on the values
in range and on no others. -/
theorem checked_kind_agrees_iff {kind : MCFixupKind} (slot : Slot) (bits : Nat)
    (row : getFixupKindInfo kind = ⟨slot.low, slot.width, true⟩) (value : BitVec 64)
    (checks : relocateOne data offset (getRelocType kind) value =
      some (if checkInt value bits then
          .written (applyNaplesPUReloc slot.width slot.low data offset value)
        else .outOfRange))
    (widths : 0 < slot.width ∧ slot.high ≤ 32 ∧ 0 < bits ∧ bits ≤ 64)
    (inside : offset + 4 ≤ data.length) (zero : slot.extract (readAt data offset 4) = 0) :
    relocateOne data offset (getRelocType kind) value =
      some (applyFixup kind data offset value) ↔ SignedFits bits value.toInt := by
  obtain ⟨positive, fits, positiveBits, bounded⟩ := widths
  rw [checks, apply_fixup_patches slot row value positive fits inside zero,
    apply_reloc_patches value fits inside, ← check_int_iff positiveBits bounded value]
  by_cases checked : checkInt value bits = true
  · simp [checked]
  · simp [checked]

/-- No relocation has undefined behaviour, so a fixup that does disagrees with it. -/
theorem relocation_defined (type : RelType) (value : BitVec 64) :
    relocateOne data offset type value ≠ some .undefinedBehaviour := by
  cases type <;> simp only [relocateOne, ne_eq, reduceCtorEq, not_false_eq_true,
    Option.some.injEq] <;> split <;> simp

theorem missing_row_disagrees {kind : MCFixupKind} {isPCRel : Bool} {targetOffset : Nat}
    (row : getFixupKindInfo kind = ⟨targetOffset, 0, isPCRel⟩) (value : BitVec 64) :
    relocateOne data offset (getRelocType kind) value =
      some (applyFixup kind data offset value) ↔ False := by
  rw [apply_fixup_missing_row row]
  exact ⟨fun same => relocation_defined _ _ same, False.elim⟩

end Agreement

/-- On a word whose target field is zero, both tools write the same bytes or both refuse
the value exactly if the kind has a complete row and the value is in range for it. -/
theorem fixup_agrees_with_relocation_iff (kind : MCFixupKind) (data : List Byte) (offset : Nat)
    (value : BitVec 64) (inside : offset + 4 ≤ data.length)
    (zero : (targetField kind).extract (readAt data offset 4) = 0) :
    relocateOne data offset (getRelocType kind) value =
      some (applyFixup kind data offset value) ↔ ResolvesAlike kind value := by
  cases kind with
  | FK_Data_4 =>
      rw [apply_fixup_patches ⟨0, 32⟩ rfl value (by decide) (by decide) inside zero,
        patch_whole_word (word_bounded inside)]
      refine ⟨fun _ => trivial, fun _ => ?_⟩
      rw [getRelocType, relocateOne, BitVec.toNat_setWidth]
  | target kind =>
      cases kind with
      | fixup_NaplesPU_Branch =>
          exact checked_kind_agrees_iff ⟨0, 18⟩ 18 rfl value rfl (by decide) inside zero
      | fixup_NaplesPU_PCRel_Mem =>
          exact checked_kind_agrees_iff ⟨3, 9⟩ 9 rfl value rfl (by decide) inside zero
      | fixup_NaplesPU_PCRel_Lea =>
          exact checked_kind_agrees_iff ⟨3, 9⟩ 9 rfl value rfl (by decide) inside zero
      | fixup_NaplesPU_PCRel_Ext =>
          exact checked_kind_agrees_iff ⟨3, 9⟩ 9 rfl value rfl (by decide) inside zero
      | fixup_NaplesPU_Absh => exact missing_row_disagrees rfl value
      | fixup_NaplesPU_Absl => exact missing_row_disagrees rfl value

/-- The four bytes of `beqz $s0, 0`. -/
def beqzBytes : List Byte := [0, 0, 0, 0x75]

theorem branch_fixup_agrees_in_range :
    relocateOne beqzBytes 0 .R_NPU_BRANCH 64 =
      some (applyFixup (.target .fixup_NaplesPU_Branch) beqzBytes 0 64) :=
  (fixup_agrees_with_relocation_iff (.target .fixup_NaplesPU_Branch) beqzBytes 0 64 (by decide)
    (by decide)).mpr (by simp only [ResolvesAlike]; decide)

theorem branch_fixup_truncates_out_of_range :
    relocateOne beqzBytes 0 (getRelocType (.target .fixup_NaplesPU_Branch)) 131072 =
        some .outOfRange ∧
      applyFixup (.target .fixup_NaplesPU_Branch) beqzBytes 0 131072 =
        .written [0, 0, 2, 0x75] ∧
      (targetField (.target .fixup_NaplesPU_Branch)).extract (readAt beqzBytes 0 4) = 0 := by
  decide

/-- The linker's expression gives the symbol's distance from the place. -/
def PlaceRelative (kind : MCFixupKind) (addresses : RelocAddresses) : Prop :=
  kind = .target .fixup_NaplesPU_Branch ∨ addresses.gotEntry = addresses.symbol - addresses.place

/-- A PC-relative reference has the value `S + A - P` in the assembler, whatever the base
of the section; in the linker it has it for branches, and for the other kinds only where
the GOT entry happens to lie at `S - P`. -/
theorem pcrel_reference_agrees_iff (kind : MCFixupKind)
    (pcrel : (getFixupKindInfo kind).isPCRel = true) :
    (∀ addresses addend, linkerValue kind addresses addend =
        some (addresses.symbol + addend - addresses.place) ↔ PlaceRelative kind addresses) ∧
      ∀ base addend symbolOffset fixupOffset,
        evaluateFixup kind addend symbolOffset fixupOffset =
          (base + symbolOffset) + addend - (base + fixupOffset.setWidth 64) := by
  have got (addresses : RelocAddresses) (addend : BitVec 64) :
      addresses.gotEntry + addend = addresses.symbol + addend - addresses.place ↔
        addresses.gotEntry = addresses.symbol - addresses.place := by
    constructor
    · intro same
      calc addresses.gotEntry = addresses.gotEntry + addend - addend := by bv_omega
        _ = addresses.symbol + addend - addresses.place - addend := by rw [same]
        _ = addresses.symbol - addresses.place := by bv_omega
    · intro same
      rw [same]
      bv_omega
  constructor
  · intro addresses addend
    cases kind with
    | FK_Data_4 => cases pcrel
    | target kind =>
        cases kind with
        | fixup_NaplesPU_Branch => exact ⟨fun _ => Or.inl rfl, fun _ => rfl⟩
        | fixup_NaplesPU_PCRel_Mem =>
            simp [linkerValue, getRelocType, getRelExpr, getRelocTargetVA, PlaceRelative, got]
        | fixup_NaplesPU_PCRel_Lea =>
            simp [linkerValue, getRelocType, getRelExpr, getRelocTargetVA, PlaceRelative, got]
        | fixup_NaplesPU_PCRel_Ext =>
            simp [linkerValue, getRelocType, getRelExpr, getRelocTargetVA, PlaceRelative, got]
        | fixup_NaplesPU_Absh => cases pcrel
        | fixup_NaplesPU_Absl => cases pcrel
  · intro base addend symbolOffset fixupOffset
    rw [evaluateFixup, if_pos pcrel]
    bv_omega

/-- A symbol, its GOT entry and a place, in different sections. -/
def crossSection : RelocAddresses := ⟨0x1000, 0x2000, 0x500⟩

theorem branch_value_is_place_relative :
    linkerValue (.target .fixup_NaplesPU_Branch) crossSection 8 = some 0xB08 :=
  ((pcrel_reference_agrees_iff (.target .fixup_NaplesPU_Branch) rfl).1 crossSection 8).mpr
    (Or.inl rfl)

theorem memory_value_is_got_address :
    (getFixupKindInfo (.target .fixup_NaplesPU_PCRel_Mem)).isPCRel = true ∧
      linkerValue (.target .fixup_NaplesPU_PCRel_Mem) crossSection 0 ≠
        some (crossSection.symbol + 0 - crossSection.place) := by
  decide

end NaplesPU.FixupAgreement
