import NaplesPU.FixupAgreement

/-!
A relocation as a write of one field of a word. Every type the linker accepts
replaces the bits of its field by those of the value and leaves the others, so
that the last of several relocations of one place is the one that stays.
-/

namespace NaplesPU.RelocationWrites

open BitLayout ByteMemory TwosComplement AsmBackend ELFRelocations FixupAgreement

def relocField : RelType → Slot
  | .R_NPU_NONE => ⟨0, 0⟩
  | .R_NPU_ABS32 => ⟨0, 32⟩
  | .R_NPU_BRANCH => ⟨0, 18⟩
  | .R_NPU_PCREL_MEM | .R_NPU_PCREL_LEA | .R_NPU_PCREL_EXT => ⟨3, 9⟩
  | .R_NPU_ABS_HIGH_LEA | .R_NPU_ABS_LOW_LEA => ⟨2, 16⟩

def writtenValue : RelType → BitVec 64 → BitVec 64
  | .R_NPU_ABS_HIGH_LEA, val => (val >>> 16) &&& 0xFFFF
  | .R_NPU_ABS_LOW_LEA, val => val &&& 0xFFFF
  | _, val => val

/-- The values that the range check of a type lets through; the types that keep sixteen
bits check only those, and a data word is not checked. -/
def InRange : RelType → BitVec 64 → Prop
  | .R_NPU_NONE, _ => False
  | .R_NPU_ABS32, _ | .R_NPU_ABS_HIGH_LEA, _ | .R_NPU_ABS_LOW_LEA, _ => True
  | .R_NPU_BRANCH, val => SignedFits 18 val.toInt
  | .R_NPU_PCREL_MEM, val | .R_NPU_PCREL_LEA, val | .R_NPU_PCREL_EXT, val =>
      SignedFits 9 val.toInt

/-- What the field of the relocated word says about the value. -/
def ReadsBack : RelType → BitVec 64 → Nat → Prop
  | .R_NPU_NONE, _, _ => False
  | .R_NPU_ABS32, val, field => field = val.toNat % 2 ^ 32
  | .R_NPU_BRANCH, val, field => signExtend 18 field = val.toInt
  | .R_NPU_PCREL_MEM, val, field | .R_NPU_PCREL_LEA, val, field
  | .R_NPU_PCREL_EXT, val, field => signExtend 9 field = val.toInt
  | .R_NPU_ABS_HIGH_LEA, val, field => field = val.toNat / 2 ^ 16 % 2 ^ 16
  | .R_NPU_ABS_LOW_LEA, val, field => field = val.toNat % 2 ^ 16

section Writes

variable {data : List Byte} {offset : Nat} {type : RelType} {val : BitVec 64}

theorem reloc_field_inside (type : RelType) : (relocField type).high ≤ 32 := by
  cases type <;> decide

/-- The bytes with the field of the word at `offset` replaced. -/
def patchWord (data : List Byte) (offset : Nat) (type : RelType) (val : BitVec 64) : List Byte :=
  writeAt data offset 4
    ((relocField type).patch (readAt data offset 4) (writtenValue type val).toNat)

theorem halfword_to_nat (value : BitVec 64) : (value &&& 0xFFFF).toNat = value.toNat % 2 ^ 16 := by
  rw [BitVec.toNat_and]
  exact Nat.and_two_pow_sub_one_eq_mod _ 16

theorem check_uint_halfword (value : BitVec 64) : checkUInt (value &&& 0xFFFF) 16 = true := by
  rw [checkUInt, decide_eq_true_iff, ← BitVec.toNat_inj, BitVec.toNat_ushiftRight,
    halfword_to_nat, Nat.shiftRight_eq_div_pow, Nat.div_eq_of_lt (Nat.mod_lt _ (by decide))]
  rfl

/-- An accepted relocation passed its check and replaced its field. -/
theorem relocate_one_written (inside : offset + 4 ≤ data.length) {result : List Byte} :
    relocateOne data offset type val = some (.written result) ↔
      InRange type val ∧ result = patchWord data offset type val := by
  have checked (slot : Slot) (bits : Nat) (fits : slot.high ≤ 32) (positive : 0 < bits)
      (bounded : bits ≤ 64) :
      some (if checkInt val bits then
          Outcome.written (applyNaplesPUReloc slot.width slot.low data offset val)
        else .outOfRange) = some (.written result) ↔
      SignedFits bits val.toInt ∧
        result = writeAt data offset 4 (slot.patch (readAt data offset 4) val.toNat) := by
    rw [apply_reloc_patches val fits inside, ← check_int_iff positive bounded val]
    by_cases passed : checkInt val bits = true
    · simp [passed, eq_comm]
    · simp [passed]
  have halfword (value : BitVec 64) :
      some (if checkUInt (value &&& 0xFFFF) 16 then
          Outcome.written (applyNaplesPUReloc 16 2 data offset (value &&& 0xFFFF))
        else .outOfRange) = some (.written result) ↔
      True ∧ result = writeAt data offset 4
        ((⟨2, 16⟩ : Slot).patch (readAt data offset 4) (value &&& 0xFFFF).toNat) := by
    have patched := @apply_reloc_patches data offset ⟨2, 16⟩ (value &&& 0xFFFF) (by decide) inside
    rw [if_pos (check_uint_halfword value), patched, true_and, Option.some.injEq,
      Outcome.written.injEq, eq_comm]
  cases type with
  | R_NPU_NONE => simp [relocateOne, InRange]
  | R_NPU_ABS32 =>
      have whole := patch_whole_word (word_bounded inside) val.toNat
      have computed : relocateOne data offset .R_NPU_ABS32 val =
          some (.written (patchWord data offset .R_NPU_ABS32 val)) := by
        change _ = some (Outcome.written (writeAt data offset 4
          ((⟨0, 32⟩ : Slot).patch (readAt data offset 4) val.toNat)))
        rw [whole, ← BitVec.toNat_setWidth]
        rfl
      rw [computed, Option.some.injEq, Outcome.written.injEq, eq_comm]
      exact (iff_of_eq (true_and _)).symm
  | R_NPU_BRANCH => exact checked ⟨0, 18⟩ 18 (by decide) (by decide) (by decide)
  | R_NPU_PCREL_MEM | R_NPU_PCREL_LEA | R_NPU_PCREL_EXT =>
      exact checked ⟨3, 9⟩ 9 (by decide) (by decide) (by decide)
  | R_NPU_ABS_HIGH_LEA => exact halfword (val >>> 16)
  | R_NPU_ABS_LOW_LEA => exact halfword val

theorem patch_word_read (inside : offset + 4 ≤ data.length) (type : RelType) (val : BitVec 64) :
    readAt (patchWord data offset type val) offset 4 =
      (relocField type).patch (readAt data offset 4) (writtenValue type val).toNat := by
  have bounded := Slot.patch_lt (reloc_field_inside type) (word_bounded inside)
    (writtenValue type val).toNat
  rw [patchWord, read_at_write_at inside]
  exact Nat.mod_eq_of_lt bounded

/-- The field of a value in range holds what the type keeps of it. -/
theorem reads_back_of_in_range (passed : InRange type val) :
    ReadsBack type val ((writtenValue type val).toNat % 2 ^ (relocField type).width) := by
  have signed (bits : Nat) (positive : 0 < bits) (bounded : bits ≤ 64)
      (fits : SignedFits bits val.toInt) : signExtend bits (val.toNat % 2 ^ bits) = val.toInt := by
    rw [sign_extend_mod]
    exact ((sign_extend_eq_to_int_iff positive bounded val).mpr fits).symm
  cases type with
  | R_NPU_NONE => exact passed
  | R_NPU_ABS32 => rfl
  | R_NPU_BRANCH => exact signed 18 (by decide) (by decide) passed
  | R_NPU_PCREL_MEM | R_NPU_PCREL_LEA | R_NPU_PCREL_EXT =>
      exact signed 9 (by decide) (by decide) passed
  | R_NPU_ABS_HIGH_LEA =>
      change ((val >>> 16) &&& 0xFFFF).toNat % 2 ^ 16 = val.toNat / 2 ^ 16 % 2 ^ 16
      rw [halfword_to_nat, BitVec.toNat_ushiftRight, Nat.shiftRight_eq_div_pow, Nat.mod_mod]
  | R_NPU_ABS_LOW_LEA =>
      change (val &&& 0xFFFF).toNat % 2 ^ 16 = val.toNat % 2 ^ 16
      rw [halfword_to_nat, Nat.mod_mod]

theorem patch_word_again (inside : offset + 4 ≤ data.length) (type : RelType)
    (val later : BitVec 64) :
    patchWord (patchWord data offset type val) offset type later =
      patchWord data offset type later := by
  rw [patchWord, patch_word_read inside, Slot.patch_patch, patchWord, write_at_write_at inside,
    ← patchWord]

/-- What one accepted relocation does to the bytes of a section. -/
structure CleanWrite (data : List Byte) (offset : Nat) (type : RelType) (val : BitVec 64)
    (result : List Byte) : Prop where
  length : result.length = data.length
  other_bytes : ∀ index, index < offset ∨ offset + 4 ≤ index → result[index]? = data[index]?
  reads_back : ReadsBack type val ((relocField type).extract (readAt result offset 4))
  other_bits : ∀ position, ¬ (relocField type).Contains position →
    (readAt result offset 4).testBit position = (readAt data offset 4).testBit position
  idempotent : relocateOne result offset type val = some (.written result)
  last_wins : ∀ later final, relocateOne data offset type later = some (.written final) →
    relocateOne result offset type later = some (.written final)

theorem relocation_is_clean_write (data : List Byte) (offset : Nat) (type : RelType)
    (val : BitVec 64) (result : List Byte) (inside : offset + 4 ≤ data.length)
    (accepted : relocateOne data offset type val = some (.written result)) :
    CleanWrite data offset type val result := by
  obtain ⟨passed, rfl⟩ := (relocate_one_written inside).mp accepted
  have length : (patchWord data offset type val).length = data.length :=
    write_at_length inside _
  have again (later : BitVec 64) (inRange : InRange type later) :
      relocateOne (patchWord data offset type val) offset type later =
        some (.written (patchWord data offset type later)) := by
    rw [relocate_one_written (by rw [length]; exact inside), patch_word_again inside]
    exact ⟨inRange, rfl⟩
  constructor
  · exact length
  · intro index outside
    exact write_at_outside inside _ outside
  · rw [patch_word_read inside, Slot.extract_patch]
    exact reads_back_of_in_range passed
  · intro position outside
    rw [patch_word_read inside, Slot.test_bit_patch, if_neg outside]
  · exact again val passed
  · intro later final laterAccepted
    obtain ⟨inRange, rfl⟩ := (relocate_one_written inside).mp laterAccepted
    exact again later inRange

end Writes

/-- A backward branch of one word. -/
theorem branch_relocation_is_clean_write :
    CleanWrite beqzBytes 0 .R_NPU_BRANCH (-4) [0xFC, 0xFF, 0x03, 0x75] :=
  relocation_is_clean_write beqzBytes 0 .R_NPU_BRANCH (-4) [0xFC, 0xFF, 0x03, 0x75] (by decide)
    (by decide)

/-- The address of the upper half of the address space reaches the relocation sign-extended,
and the data word keeps its low half. -/
theorem data_word_keeps_low_half :
    ∃ result, relocateOne [0, 0, 0, 0] 0 .R_NPU_ABS32 0xFFFFFFFF80000000 =
        some (.written result) ∧
      (relocField .R_NPU_ABS32).extract (readAt result 0 4) ≠
        (0xFFFFFFFF80000000 : BitVec 64).toNat :=
  ⟨[0, 0, 0, 0x80], by decide⟩

end NaplesPU.RelocationWrites
