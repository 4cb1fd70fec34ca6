import NaplesPU.FixupAgreement

/-!
The bytes that the assembler backend touches for a fixup. Both of its loops run
over four bytes, whatever the size of the data, and the value is ored into them
after it was cut to thirty-two bits. The runs below keep the indices that the
loops access, for the kinds of data of every size and for the target's own.
-/

namespace NaplesPU.FixupBytes

open BitLayout ByteMemory FixupKinds FixupAgreement
open AsmBackend (MCFixupKindInfo Outcome adjustFixupValue fixupWord)

/-- The kinds that the backend names: data of each size, and the target's own. -/
inductive FixupKind where
  | FK_Data_1
  | FK_Data_2
  | FK_Data_4
  | FK_Data_8
  | target (kind : Fixups)
deriving DecidableEq, Repr

def FixupKind.size : FixupKind → Nat
  | .FK_Data_1 => 1
  | .FK_Data_2 => 2
  | .FK_Data_4 => 4
  | .FK_Data_8 => 8
  | .target _ => 4

def FixupKind.ofMC : MCFixupKind → FixupKind
  | .FK_Data_4 => .FK_Data_4
  | .target kind => .target kind

/-- The rows of the data kinds are those of every backend. -/
def getFixupKindInfo : FixupKind → MCFixupKindInfo
  | .FK_Data_1 => ⟨0, 8, false⟩
  | .FK_Data_2 => ⟨0, 16, false⟩
  | .FK_Data_4 => ⟨0, 32, false⟩
  | .FK_Data_8 => ⟨0, 64, false⟩
  | .target kind => AsmBackend.getFixupKindInfo (.target kind)

def NumBytes : Nat := 4

/-- The loop that gathers the bytes at the fixup, with the indices it has read. An index
past the end of the fragment is undefined. -/
def readLoop (data : List Byte) (offset : Nat) : Nat → Option (BitVec 64 × List Nat)
  | 0 => some (0, [])
  | count + 1 =>
      (readLoop data offset count).bind fun (curVal, accessed) =>
        data[offset + count]?.map fun (byte : Byte) =>
          (curVal ||| (byte.setWidth 64 <<< (count * 8)), accessed ++ [offset + count])

/-- The loop that writes the bytes back, with the indices it has written. -/
def writeLoop (data : List Byte) (offset : Nat) (curVal : BitVec 64) :
    Nat → Option (List Byte × List Nat)
  | 0 => some (data, [])
  | count + 1 =>
      (writeLoop data offset curVal count).bind fun (written, accessed) =>
        if offset + count < written.length then
          some (written.set (offset + count) ((curVal >>> (count * 8)).setWidth 8),
            accessed ++ [offset + count])
        else none

/-- The fragment that a run leaves, and the indices that it accessed. -/
structure FixupRun where
  data : List Byte
  accessed : List Nat
deriving DecidableEq

/-- A run with undefined behaviour is `none`. -/
def applyFixup (kind : FixupKind) (data : List Byte) (offset : Nat) (value : BitVec 64) :
    Option FixupRun :=
  (readLoop data offset NumBytes).bind fun (curVal, readIndices) =>
    (fixupWord (getFixupKindInfo kind) curVal value).bind fun word =>
      (writeLoop data offset word NumBytes).map fun (written, writtenIndices) =>
        ⟨written, readIndices ++ writtenIndices⟩

section Loops

variable {data : List Byte} {offset count : Nat}

theorem read_at_one (present : offset < data.length) :
    readAt data offset 1 = (data[offset]).toNat := by
  rw [readAt, List.drop_eq_getElem_cons present, List.take_succ_cons, List.take_zero, value_cons]
  simp [valueLE]

theorem or_byte_above {low : Nat} (few : count < 8) (below : low < 2 ^ (count * 8)) (byte : Byte) :
    BitVec.ofNat 64 low ||| (byte.setWidth 64 <<< (count * 8)) =
      BitVec.ofNat 64 (low + 256 ^ count * byte.toNat) := by
  have power : 2 ^ (count * 8) ≤ 2 ^ 56 := Nat.pow_le_pow_right (by decide) (by omega)
  have size : (256 : Nat) ^ count = 2 ^ (count * 8) := by
    rw [Nat.mul_comm, Nat.pow_mul]
  have product : byte.toNat * 2 ^ (count * 8) ≤ 255 * 2 ^ 56 :=
    Nat.mul_le_mul (Nat.le_of_lt_succ byte.isLt) power
  have sum : low + 256 ^ count * byte.toNat = byte.toNat <<< (count * 8) ||| low := by
    rw [← Nat.shiftLeft_add_eq_or_of_lt below, size, Nat.shiftLeft_eq, Nat.mul_comm, Nat.add_comm]
  have wide : byte.toNat < 2 ^ 64 := lt_of_lt_of_le byte.isLt (by decide)
  have shifted : byte.toNat <<< (count * 8) < 2 ^ 64 := by
    rw [Nat.shiftLeft_eq]
    omega
  apply BitVec.eq_of_toNat_eq
  rw [sum, BitVec.toNat_or, BitVec.toNat_ofNat, BitVec.toNat_ofNat, BitVec.toNat_shiftLeft,
    BitVec.toNat_setWidth, Nat.mod_eq_of_lt wide, Nat.mod_eq_of_lt shifted,
    Nat.mod_eq_of_lt (show low < 2 ^ 64 by omega), Nat.or_comm]
  exact (Nat.mod_eq_of_lt (Nat.or_lt_two_pow shifted (by omega))).symm

theorem read_loop_inside (few : count ≤ 8) (inside : offset + count ≤ data.length) :
    readLoop data offset count =
      some (BitVec.ofNat 64 (readAt data offset count), List.range' offset count) := by
  induction count with
  | zero => rfl
  | succ count induction =>
      have present : offset + count < data.length := by omega
      have before : offset + count ≤ data.length := by omega
      have below : readAt data offset count < 2 ^ (count * 8) := by
        rw [Nat.mul_comm, Nat.pow_mul]
        exact read_at_lt before
      rw [readLoop, induction (by omega) before, Option.bind_some, List.getElem?_eq_getElem present]
      dsimp only
      rw [Option.map_some, or_byte_above (by omega) below, ← read_at_one present,
        ← read_at_add 1 before, List.range'_1_concat]

theorem read_loop_outside (short : data.length < offset + (count + 1)) :
    readLoop data offset (count + 1) = none := by
  have missing : data[offset + count]? = none := List.getElem?_eq_none (by omega)
  rw [readLoop, missing]
  cases readLoop data offset count with
  | none => rfl
  | some state => rfl

theorem write_loop_inside (inside : offset + count ≤ data.length) (curVal : BitVec 64) :
    writeLoop data offset curVal count =
      some (writeAt data offset count curVal.toNat, List.range' offset count) := by
  induction count with
  | zero => simp [writeLoop, writeAt, bytesLE]
  | succ count induction =>
      have before : offset + count ≤ data.length := by omega
      have present : offset + count < data.length := by omega
      have length : (writeAt data offset count curVal.toNat).length = data.length :=
        write_at_length before _
      have front : (data.take offset ++ bytesLE count curVal.toNat).length = offset + count := by
        rw [List.length_append, List.length_take_of_le (by omega), bytes_length]
      have byte : (curVal >>> (count * 8)).setWidth 8 =
          BitVec.ofNat 8 (curVal.toNat >>> (count * 8)) := by
        apply BitVec.eq_of_toNat_eq
        rw [BitVec.toNat_setWidth, BitVec.toNat_ushiftRight, BitVec.toNat_ofNat]
      have stored : (writeAt data offset count curVal.toNat).set (offset + count)
          ((curVal >>> (count * 8)).setWidth 8) = writeAt data offset (count + 1) curVal.toNat := by
        rw [writeAt, List.set_append_right _ _ (by omega), front, Nat.sub_self,
          List.drop_eq_getElem_cons present, List.set_cons_zero, byte, writeAt, bytes_concat]
        simp [Nat.add_assoc]
      rw [writeLoop, induction before, Option.bind_some]
      dsimp only
      rw [if_pos (by omega), stored, List.range'_1_concat]

end Loops

section Runs

variable {kind : FixupKind} {data : List Byte} {offset : Nat} {value : BitVec 64}

theorem apply_fixup_inside (inside : offset + NumBytes ≤ data.length) :
    applyFixup kind data offset value =
      (fixupWord (getFixupKindInfo kind) (BitVec.ofNat 64 (readAt data offset NumBytes)) value).map
        fun word => ⟨writeAt data offset NumBytes word.toNat,
          List.range' offset NumBytes ++ List.range' offset NumBytes⟩ := by
  rw [applyFixup, read_loop_inside (by decide) inside, Option.bind_some]
  simp only [write_loop_inside inside, Option.map_some]
  cases fixupWord (getFixupKindInfo kind) (BitVec.ofNat 64 (readAt data offset NumBytes)) value with
  | none => rfl
  | some word => rfl

theorem apply_fixup_outside (short : data.length < offset + NumBytes) :
    applyFixup kind data offset value = none := by
  rw [applyFixup, NumBytes, read_loop_outside short]
  rfl

/-- On words of data and on instructions, the run leaves the bytes of the backend's model. -/
theorem apply_fixup_outcome (kind : MCFixupKind) :
    AsmBackend.applyFixup kind data offset value =
      match applyFixup (.ofMC kind) data offset value with
      | some run => .written run.data
      | none => .undefinedBehaviour := by
  have row : getFixupKindInfo (.ofMC kind) = AsmBackend.getFixupKindInfo kind := by
    cases kind <;> rfl
  rw [AsmBackend.applyFixup]
  by_cases inside : offset + 4 ≤ data.length
  · rw [if_pos inside, apply_fixup_inside inside, row, NumBytes]
    cases fixupWord (AsmBackend.getFixupKindInfo kind)
        (BitVec.ofNat 64 (readAt data offset 4)) value with
    | none => rfl
    | some word => rfl
  · rw [if_neg inside, apply_fixup_outside (by rw [NumBytes]; omega)]

def kindField : FixupKind → Slot
  | .FK_Data_1 => ⟨0, 8⟩
  | .FK_Data_2 => ⟨0, 16⟩
  | .FK_Data_4 => ⟨0, 32⟩
  | .FK_Data_8 => ⟨0, 64⟩
  | .target kind => targetField (.target kind)

/-- What a run may do: access the fixup's own bytes, write the whole value that its field
holds, and leave every other byte. -/
structure TouchesOwnBytes (kind : FixupKind) (data : List Byte) (offset : Nat)
    (value : BitVec 64) (run : FixupRun) : Prop where
  own_bytes : ∀ index ∈ run.accessed, offset ≤ index ∧ index < offset + kind.size
  whole_value : (kindField kind).extract (readAt run.data offset kind.size) =
    value.toNat % 2 ^ (kindField kind).width
  length : run.data.length = data.length
  other_bytes : ∀ index, index < offset ∨ offset + kind.size ≤ index →
    run.data[index]? = data[index]?

def TouchesExactly (kind : FixupKind) (data : List Byte) (offset : Nat) (value : BitVec 64) :
    Prop :=
  ∃ run, applyFixup kind data offset value = some run ∧
    TouchesOwnBytes kind data offset value run

/-- Every bit that the field has already is a bit of the value. -/
def SetBitsAmong (slot : Slot) (word value : Nat) : Prop :=
  ∀ position, (slot.extract word).testBit position = true → value.testBit position = true

def Writable (kind : FixupKind) (data : List Byte) (offset : Nat) (value : BitVec 64) : Prop :=
  match kind with
  | .FK_Data_1 | .FK_Data_2 => False
  | .FK_Data_4 => SetBitsAmong ⟨0, 32⟩ (readAt data offset 4) value.toNat
  | .FK_Data_8 => SetBitsAmong ⟨0, 32⟩ (readAt data offset 4) value.toNat ∧
      readAt data (offset + 4) 4 = value.toNat / 2 ^ 32
  | .target kind =>
      match kind with
      | .fixup_NaplesPU_Absh | .fixup_NaplesPU_Absl => False
      | _ => SetBitsAmong (targetField (.target kind)) (readAt data offset 4) value.toNat

theorem or_field_iff (slot : Slot) (word value : Nat) :
    slot.extract word ||| value % 2 ^ slot.width = value % 2 ^ slot.width ↔
      SetBitsAmong slot word value := by
  constructor
  · intro absorbed position stored
    have bit := congrArg (fun field => field.testBit position) absorbed
    simp only [Nat.testBit_or, stored, Bool.true_or, Nat.testBit_mod_two_pow] at bit
    exact (Bool.and_eq_true_iff.mp bit.symm).2
  · intro among
    apply Nat.eq_of_testBit_eq
    intro position
    rw [Nat.testBit_or, Nat.testBit_mod_two_pow]
    cases stored : (slot.extract word).testBit position with
    | false => rw [Bool.false_or]
    | true =>
        have inside : position < slot.width := by
          rw [Slot.test_bit_extract, Bool.and_eq_true, decide_eq_true_eq] at stored
          exact stored.1
        rw [among position stored, decide_eq_true inside]
        rfl

theorem run_inside {run : FixupRun} (defined : applyFixup kind data offset value = some run) :
    offset + NumBytes ≤ data.length ∧
      ∃ word, fixupWord (getFixupKindInfo kind) (BitVec.ofNat 64 (readAt data offset NumBytes))
          value = some word ∧
        run = ⟨writeAt data offset NumBytes word.toNat,
          List.range' offset NumBytes ++ List.range' offset NumBytes⟩ := by
  by_cases inside : offset + NumBytes ≤ data.length
  · rw [apply_fixup_inside inside, Option.map_eq_some_iff] at defined
    obtain ⟨word, computed, same⟩ := defined
    exact ⟨inside, word, computed, same.symm⟩
  · rw [apply_fixup_outside (by omega)] at defined
    cases defined

/-- A fixup of less than four bytes accesses bytes after its own. -/
theorem small_fixup_overruns (small : kind.size < NumBytes) :
    ¬ TouchesExactly kind data offset value := by
  rintro ⟨run, defined, touches⟩
  obtain ⟨-, word, -, rfl⟩ := run_inside defined
  have last := touches.own_bytes (offset + 3) (by simp [NumBytes])
  rw [NumBytes] at small
  omega

theorem missing_row_undefined {isPCRel : Bool} {targetOffset : Nat}
    (row : getFixupKindInfo kind = ⟨targetOffset, 0, isPCRel⟩) :
    ¬ TouchesExactly kind data offset value := by
  rintro ⟨run, defined, -⟩
  obtain ⟨-, word, computed, -⟩ := run_inside defined
  rw [row] at computed
  cases computed

/-- A fixup of four bytes with a complete row writes its value where the field has no other
bits. -/
theorem word_fixup_iff (slot : Slot) (isPCRel : Bool) (size : kind.size = NumBytes)
    (field : kindField kind = slot)
    (row : getFixupKindInfo kind = ⟨slot.low, slot.width, isPCRel⟩)
    (widths : 0 < slot.width ∧ slot.high ≤ 32) (inside : offset + kind.size ≤ data.length) :
    TouchesExactly kind data offset value ↔
      SetBitsAmong slot (readAt data offset 4) value.toNat := by
  rw [size] at inside
  have bounded : readAt data offset NumBytes < 2 ^ 32 := word_bounded inside
  obtain ⟨patched, computed, ored⟩ :=
    fixup_word_ors isPCRel value widths.1 widths.2 bounded
  have run : applyFixup kind data offset value =
      some ⟨writeAt data offset NumBytes patched.toNat,
        List.range' offset NumBytes ++ List.range' offset NumBytes⟩ := by
    rw [apply_fixup_inside inside, row, computed, Option.map_some]
  have below : patched.toNat < 2 ^ 32 := by
    rw [ored]
    exact Nat.or_lt_two_pow bounded (Slot.place_lt widths.2 _)
  have stored : slot.extract (readAt (writeAt data offset NumBytes patched.toNat) offset NumBytes) =
      slot.extract (readAt data offset 4) ||| value.toNat % 2 ^ slot.width := by
    rw [read_at_write_at inside, Nat.mod_eq_of_lt (show patched.toNat < 256 ^ NumBytes from below),
      ored, Slot.extract_or, Slot.extract_place, NumBytes]
  rw [← or_field_iff, ← stored]
  constructor
  · rintro ⟨other, defined, touches⟩
    obtain rfl := Option.some.inj (run.symm.trans defined)
    have whole := touches.whole_value
    rwa [field, size] at whole
  · intro whole
    refine ⟨_, run, ?_, ?_, write_at_length inside _, ?_⟩
    · intro index accessed
      rw [List.mem_append, or_self, List.mem_range'_1] at accessed
      rwa [size]
    · rwa [field, size]
    · rw [size]
      intro index outside
      exact write_at_outside inside _ outside

/-- The full mask keeps the low half of the value, which is all that is left of it. -/
theorem doubleword_ors {word : Nat} (bounded : word < 2 ^ 32) (value : BitVec 64) :
    ∃ patched, fixupWord ⟨0, 64, false⟩ (BitVec.ofNat 64 word) value = some patched ∧
      patched.toNat = word ||| value.toNat % 2 ^ 32 := by
  refine ⟨_, by rw [fixupWord, if_pos (by decide)], ?_⟩
  have mask : (BitVec.allOnes 64 >>> 0) <<< 0 = BitVec.allOnes 64 := by decide
  have low : ((value.setWidth 32).setWidth 64).toNat = value.toNat % 2 ^ 32 := by
    rw [BitVec.toNat_setWidth, BitVec.toNat_setWidth]
    omega
  change (BitVec.ofNat 64 word |||
    (adjustFixupValue value <<< 0 &&& (BitVec.allOnes 64 >>> 0) <<< 0)).toNat = _
  rw [mask, BitVec.and_allOnes, BitVec.shiftLeft_zero, BitVec.toNat_or, adjustFixupValue, low,
    BitVec.toNat_ofNat, Nat.mod_eq_of_lt (by omega)]

/-- A doubleword gets the low half of its value, ored in; its high half stays. -/
theorem doubleword_fixup_iff (inside : offset + 8 ≤ data.length) :
    TouchesExactly .FK_Data_8 data offset value ↔
      SetBitsAmong ⟨0, 32⟩ (readAt data offset 4) value.toNat ∧
        readAt data (offset + 4) 4 = value.toNat / 2 ^ 32 := by
  have front : offset + NumBytes ≤ data.length := by
    rw [NumBytes]
    omega
  have bounded : readAt data offset NumBytes < 2 ^ 32 := word_bounded front
  obtain ⟨patched, computed, ored⟩ := doubleword_ors bounded value
  have run : applyFixup .FK_Data_8 data offset value =
      some ⟨writeAt data offset NumBytes patched.toNat,
        List.range' offset NumBytes ++ List.range' offset NumBytes⟩ := by
    rw [apply_fixup_inside front, getFixupKindInfo, computed, Option.map_some]
  have below : patched.toNat < 2 ^ 32 := by
    rw [ored]
    exact Nat.or_lt_two_pow bounded (Nat.mod_lt _ (by decide))
  have length := write_at_length front patched.toNat
  have high : readAt (writeAt data offset NumBytes patched.toNat) (offset + 4) 4 =
      readAt data (offset + 4) 4 :=
    read_at_congr fun index after _ => write_at_outside front _ (Or.inr after)
  have stored : readAt (writeAt data offset NumBytes patched.toNat) offset 8 =
      patched.toNat + 2 ^ 32 * readAt data (offset + 4) 4 := by
    have halves := read_at_add 4 (show offset + 4 ≤
      (writeAt data offset NumBytes patched.toNat).length by rw [length]; exact front)
    rw [high] at halves
    have own := read_at_write_at front patched.toNat
    rw [Nat.mod_eq_of_lt (show patched.toNat < 256 ^ NumBytes from below)] at own
    rw [halves]
    exact congrArg (fun low => low + 2 ^ 32 * readAt data (offset + 4) 4) own
  have highBounded : readAt data (offset + 4) 4 < 2 ^ 32 := word_bounded (by omega)
  have field (bytes : List Byte) : (kindField .FK_Data_8).extract (readAt bytes offset 8) =
      readAt bytes offset 8 % 2 ^ 64 := by
    rw [kindField, Slot.extract, Nat.shiftRight_zero]
  have lowField : (⟨0, 32⟩ : Slot).extract (readAt data offset 4) = readAt data offset NumBytes := by
    rw [Slot.extract, Nat.shiftRight_zero]
    exact Nat.mod_eq_of_lt bounded
  have split : readAt (writeAt data offset NumBytes patched.toNat) offset 8 % 2 ^ 64 =
      value.toNat % 2 ^ 64 ↔
        patched.toNat = value.toNat % 2 ^ 32 ∧
          readAt data (offset + 4) 4 = value.toNat / 2 ^ 32 := by
    have size := value.isLt
    rw [stored]
    omega
  rw [← or_field_iff, lowField, ← ored]
  constructor
  · rintro ⟨other, defined, touches⟩
    obtain rfl := Option.some.inj (run.symm.trans defined)
    have whole := touches.whole_value
    rw [FixupKind.size, field] at whole
    exact split.mp whole
  · intro whole
    refine ⟨_, run, ?_, ?_, length, ?_⟩
    · intro index accessed
      rw [List.mem_append, or_self, List.mem_range'_1, NumBytes] at accessed
      rw [FixupKind.size]
      omega
    · rw [FixupKind.size, field]
      exact split.mpr whole
    · rw [FixupKind.size]
      intro index outside
      exact write_at_outside front _ (by rw [NumBytes]; omega)

/-- A fixup that fits its fragment touches exactly its own bytes if it is of four or eight
bytes, has a row, and is applied where the bytes hold nothing but bits of the value; of a
doubleword the high half must hold the value already. -/
theorem fixup_touches_exactly_iff (kind : FixupKind) (data : List Byte) (offset : Nat)
    (value : BitVec 64) (inside : offset + kind.size ≤ data.length) :
    TouchesExactly kind data offset value ↔ Writable kind data offset value := by
  cases kind with
  | FK_Data_1 => exact iff_of_false (small_fixup_overruns (by decide)) id
  | FK_Data_2 => exact iff_of_false (small_fixup_overruns (by decide)) id
  | FK_Data_4 => exact word_fixup_iff ⟨0, 32⟩ false rfl rfl rfl (by decide) inside
  | FK_Data_8 => exact doubleword_fixup_iff inside
  | target own =>
      cases own with
      | fixup_NaplesPU_Branch => exact word_fixup_iff ⟨0, 18⟩ true rfl rfl rfl (by decide) inside
      | fixup_NaplesPU_PCRel_Mem => exact word_fixup_iff ⟨3, 9⟩ true rfl rfl rfl (by decide) inside
      | fixup_NaplesPU_PCRel_Lea => exact word_fixup_iff ⟨3, 9⟩ true rfl rfl rfl (by decide) inside
      | fixup_NaplesPU_PCRel_Ext => exact word_fixup_iff ⟨3, 9⟩ true rfl rfl rfl (by decide) inside
      | fixup_NaplesPU_Absh => exact iff_of_false (missing_row_undefined rfl) id
      | fixup_NaplesPU_Absl => exact iff_of_false (missing_row_undefined rfl) id

end Runs

theorem zero_word_fixup_touches_exactly :
    TouchesExactly .FK_Data_4 [0, 0, 0, 0] 0 0x12345678 :=
  (fixup_touches_exactly_iff .FK_Data_4 [0, 0, 0, 0] 0 0x12345678 (by decide)).mpr
    (by intro position stored; simp [readAt, valueLE, Slot.extract] at stored)

/-- A byte at the end of its fragment, a byte with bytes after it, and a doubleword. -/
theorem data_fixups_do_not_touch_exactly :
    applyFixup .FK_Data_1 [0, 0] 1 0x7F = none ∧
      applyFixup .FK_Data_1 [0, 1, 2, 3] 0 0x7F =
        some ⟨[0x7F, 1, 2, 3], [0, 1, 2, 3, 0, 1, 2, 3]⟩ ∧
      applyFixup .FK_Data_8 [0, 0, 0, 0, 0, 0, 0, 0] 0 0x1122334455667788 =
        some ⟨[0x88, 0x77, 0x66, 0x55, 0, 0, 0, 0], [0, 1, 2, 3, 0, 1, 2, 3]⟩ ∧
      ¬ TouchesExactly .FK_Data_1 [0, 0] 1 0x7F := by
  refine ⟨by decide, by decide, by decide, ?_⟩
  rintro ⟨run, defined, -⟩
  cases defined

end NaplesPU.FixupBytes
