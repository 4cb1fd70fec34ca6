import NaplesPU.EncodeDecode

/-!
The records that only the assembler has, as records of the decoder table: the
moves of the mask register, the address halves and the effective address. Each
has the word of a typed instruction, which says what the word decodes to.
-/

namespace NaplesPU.AliasEncoding

open BitLayout ByteMemory RegisterInfo InstrFormats InstrInfo FixupKinds MCCodeEmitter
open EncodeDecode TwosComplement

section Aliases

theorem encode_as {inst target : MCInst} (typed : TypedInst target)
    (encodable : ∀ name ∈ layoutVars inst.opcode.layout,
      ∃ value, encodeVar inst name = some ⟨value, []⟩)
    (same : inst.opcode.layout.encode (varValue inst) =
      target.opcode.layout.encode (varValue target)) :
    encodeInstruction inst = encodeInstruction target := by
  rw [encodeInstruction, encodeInstruction, get_binary_code_of_vars encodable,
    get_binary_code_typed typed, same]

theorem typed_move (dst src : Register) : TypedInst ⟨.MOVE_SS_32, [.reg dst, .reg src]⟩ where
  disassemblable := rfl
  operands := by
    simp [miOperands, numberOperands, Opcode.operandList, oneOpOperands, TypedOperand,
      MCInst.getOperand, OperandType.numMIOperands, tiedTo]

theorem typed_move_imm (op : MoveImm) (dst : Register) (value : Int) :
    TypedInst ⟨.moveImm op .SI, [.reg dst, .imm value]⟩ where
  disassemblable := rfl
  operands := by
    simp [miOperands, numberOperands, Opcode.operandList, moveImmOperands, TypedOperand,
      MCInst.getOperand, OperandType.numMIOperands, tiedTo]

theorem typed_add_imm (dst src : Register) (value : Int) :
    TypedInst ⟨.arithIntImm .ADD .SSI, [.reg dst, .reg src, .imm value]⟩ where
  disassemblable := rfl
  operands := by
    simp [miOperands, numberOperands, Opcode.operandList, immOperands, TypedOperand,
      MCInst.getOperand, OperandType.numMIOperands, tiedTo]

/-- Reading the mask register is the move from it. -/
theorem encode_read_mr (dst : Register) :
    encodeInstruction ⟨.READMR, [.reg dst]⟩ =
      encodeInstruction ⟨.MOVE_SS_32, [.reg dst, .reg MR_REG]⟩ := by
  have names : layoutVars Opcode.READMR.layout = [.dst] := by decide
  have own : encodeVar ⟨.READMR, [.reg dst]⟩ .dst = some ⟨getMachineOpValue (.reg dst), []⟩ := rfl
  have first : encodeVar ⟨.MOVE_SS_32, [.reg dst, .reg MR_REG]⟩ .dst =
      some ⟨getMachineOpValue (.reg dst), []⟩ := rfl
  have second : encodeVar ⟨.MOVE_SS_32, [.reg dst, .reg MR_REG]⟩ .src0 =
      some ⟨getMachineOpValue (.reg MR_REG), []⟩ := rfl
  apply encode_as (typed_move dst MR_REG)
  · rw [names]
    simp [own]
  · simp [Opcode.layout, Layout.encode, frOneOp, fr, instConst, instVar, assemble, Source.value,
      varValue, own, first, second, Slot.place, Fmt.value]
    rfl

theorem encode_write_mr (src : Register) :
    encodeInstruction ⟨.WRITEMR, [.reg src]⟩ =
      encodeInstruction ⟨.MOVE_SS_32, [.reg MR_REG, .reg src]⟩ := by
  have names : layoutVars Opcode.WRITEMR.layout = [.src] := by decide
  have own : encodeVar ⟨.WRITEMR, [.reg src]⟩ .src = some ⟨getMachineOpValue (.reg src), []⟩ := rfl
  have first : encodeVar ⟨.MOVE_SS_32, [.reg MR_REG, .reg src]⟩ .dst =
      some ⟨getMachineOpValue (.reg MR_REG), []⟩ := rfl
  have second : encodeVar ⟨.MOVE_SS_32, [.reg MR_REG, .reg src]⟩ .src0 =
      some ⟨getMachineOpValue (.reg src), []⟩ := rfl
  apply encode_as (typed_move MR_REG src)
  · rw [names]
    simp [own]
  · simp [Opcode.layout, Layout.encode, frOneOp, fr, instConst, instVar, assemble, Source.value,
      varValue, own, first, second, Slot.place, Fmt.value]
    rfl

/-- An address that is no label leaves its half zero, which is a move of zero. -/
theorem encode_zero_half {inst : MCInst} {op : MoveImm} {dst : Register}
    (layout : inst.opcode.layout = [instConst 31 27 0b01100, instConst 26 24 op.opcode,
      instVar 23 18 .dst 0, instVar 17 2 .addr 0, instConst 1 1 0, instConst 0 0 0])
    (own : encodeVar inst .dst = some ⟨getMachineOpValue (.reg dst), []⟩)
    (half : encodeVar inst .addr = some ⟨0, []⟩) :
    encodeInstruction inst = encodeInstruction ⟨.moveImm op .SI, [.reg dst, .imm 0]⟩ := by
  have names (code : Nat) : layoutVars [instConst 31 27 0b01100, instConst 26 24 code,
      instVar 23 18 .dst 0, instVar 17 2 .addr 0, instConst 1 1 0, instConst 0 0 0] =
        [.dst, .addr] := rfl
  have first : encodeVar ⟨.moveImm op .SI, [.reg dst, .imm 0]⟩ .dst =
      some ⟨getMachineOpValue (.reg dst), []⟩ := rfl
  have second : encodeVar ⟨.moveImm op .SI, [.reg dst, .imm 0]⟩ .imm = some ⟨0, []⟩ := rfl
  apply encode_as (typed_move_imm op dst 0)
  · rw [layout, names]
    simp [own, half]
  · rw [layout]
    simp [Opcode.layout, Layout.encode, moveImmLayout, fmovei, instConst, instVar, assemble,
      Source.value, varValue, own, half, first, second, Slot.place, Fmt.value]

end Aliases

section EffectiveAddress

variable (base : Register) (offset : Int)

def leaAddress : BitVec 32 :=
  BitVec.ofNat 32 (getEncodingValue base) <<< 10 ||| shortShifted offset 1

/-- The register that the word of an `_lea` names: the offset is ored into the base. -/
def leaBase : Register := ⟨.GPR32, Fin.ofNat 64 ((leaAddress base offset).toNat >>> 10)⟩

theorem lea_address_offset :
    ((leaAddress base offset).toNat >>> 1) % 2 ^ 9 = (BitVec.ofInt 16 offset).toNat % 2 ^ 9 := by
  apply Nat.eq_of_testBit_eq
  intro position
  rw [Nat.testBit_mod_two_pow, Nat.testBit_mod_two_pow, Nat.testBit_shiftRight, leaAddress,
    BitVec.toNat_or, Nat.testBit_or, shortShifted, BitVec.testBit_toNat, BitVec.testBit_toNat,
    BitVec.testBit_toNat, BitVec.getLsbD_shiftLeft, BitVec.getLsbD_shiftLeft,
    BitVec.getLsbD_signExtend]
  by_cases inside : position < 9
  · simp [inside, show 1 + position < 10 by omega, show 1 + position < 32 by omega,
      show position < 16 by omega, show position < 32 by omega]
  · simp [inside]

theorem lea_address_even : (leaAddress base offset).toNat % 2 = 0 := by
  have low : (leaAddress base offset).toNat.testBit 0 = false := by
    rw [BitVec.testBit_toNat, leaAddress, BitVec.getLsbD_or, shortShifted,
      BitVec.getLsbD_shiftLeft, BitVec.getLsbD_shiftLeft]
    simp
  simpa [Nat.testBit_zero] using low

/-- Six bits, nine bits and a zero are the sixteen bits of the address. -/
theorem lea_address_split : (leaAddress base offset).toNat % 2 ^ 16 =
    2 ^ 10 * getEncodingValue (leaBase base offset) +
      2 * ((BitVec.ofInt 32 offset).toNat % 2 ^ 9) := by
  have even := lea_address_even base offset
  have high : getEncodingValue (leaBase base offset) =
      ((leaAddress base offset).toNat >>> 10) % 64 := rfl
  have low : (BitVec.ofInt 32 offset).toNat % 2 ^ 9 = (BitVec.ofInt 16 offset).toNat % 2 ^ 9 := by
    rw [BitVec.toNat_ofInt, BitVec.toNat_ofInt]
    omega
  rw [low, ← lea_address_offset base offset, high, Nat.shiftRight_eq_div_pow,
    Nat.shiftRight_eq_div_pow]
  omega

theorem encode_lea (dst : Register) :
    encodeInstruction ⟨.LOAD_EFFECTIVE_ADDR, [.reg dst, .reg base, .imm offset]⟩ =
      encodeInstruction
        ⟨.arithIntImm .ADD .SSI, [.reg dst, .reg (leaBase base offset), .imm offset]⟩ := by
  have names : layoutVars Opcode.LOAD_EFFECTIVE_ADDR.layout = [.dst, .addr] := by decide
  have own : encodeVar ⟨.LOAD_EFFECTIVE_ADDR, [.reg dst, .reg base, .imm offset]⟩ .dst =
      some ⟨getMachineOpValue (.reg dst), []⟩ := rfl
  have address : encodeVar ⟨.LOAD_EFFECTIVE_ADDR, [.reg dst, .reg base, .imm offset]⟩ .addr =
      some ⟨leaAddress base offset, []⟩ := rfl
  have first : encodeVar ⟨.arithIntImm .ADD .SSI,
      [.reg dst, .reg (leaBase base offset), .imm offset]⟩ .dst =
        some ⟨getMachineOpValue (.reg dst), []⟩ := rfl
  have second : encodeVar ⟨.arithIntImm .ADD .SSI,
      [.reg dst, .reg (leaBase base offset), .imm offset]⟩ .src =
        some ⟨getMachineOpValue (.reg (leaBase base offset)), []⟩ := rfl
  have third : encodeVar ⟨.arithIntImm .ADD .SSI,
      [.reg dst, .reg (leaBase base offset), .imm offset]⟩ .imm =
        some ⟨BitVec.ofInt 32 offset, []⟩ := rfl
  apply encode_as (typed_add_imm dst (leaBase base offset) offset)
  · rw [names]
    simp [own, address]
  · have joined : ((leaAddress base offset).toNat % 2 ^ 16) <<< 2 =
        ((BitVec.ofInt 32 offset).toNat % 2 ^ 9) <<< 3 |||
          ((getMachineOpValue (.reg (leaBase base offset))).toNat % 64) <<< 12 := by
      have bounded := encoding_value_lt (leaBase base offset)
      have below : ((BitVec.ofInt 32 offset).toNat % 2 ^ 9) <<< 3 < 2 ^ 12 := by
        rw [Nat.shiftLeft_eq]
        omega
      rw [machine_op_value_reg, Nat.mod_eq_of_lt bounded, Nat.or_comm,
        ← Nat.shiftLeft_add_eq_or_of_lt below, lea_address_split, Nat.shiftLeft_eq,
        Nat.shiftLeft_eq, Nat.shiftLeft_eq]
      omega
    simp [Opcode.layout, Layout.encode, immLayout, fiOneOp, instConst, instVar, assemble,
      Source.value, varValue, own, address, first, second, third, Slot.place, Fmt.value,
      ArithInt.opcode]
    exact congrArg _ (congrArg _ (congrArg _ joined))

/-- The high bits of an offset of nine bits are all its sign. -/
theorem short_shifted_high {offset : Int} (fits : SignedFits 9 offset) :
    ((shortShifted offset 1).toNat >>> 10) % 64 = if offset < 0 then 63 else 0 := by
  obtain ⟨low, high⟩ := fits
  have extended : (BitVec.ofInt 16 offset).signExtend 32 = BitVec.ofInt 32 offset := by
    have short : offset.bmod (2 ^ 16) = offset :=
      (bmod_eq_self_iff (by decide) offset).mpr ⟨by omega, by omega⟩
    have word : offset.bmod (2 ^ 32) = offset :=
      (bmod_eq_self_iff (by decide) offset).mpr ⟨by omega, by omega⟩
    apply BitVec.eq_of_toInt_eq
    rw [BitVec.toInt_signExtend, BitVec.toInt_ofInt, BitVec.toInt_ofInt, word, short]
    exact short
  rw [shortShifted, extended, BitVec.toNat_shiftLeft, BitVec.toNat_ofInt, Nat.shiftLeft_eq,
    Nat.shiftRight_eq_div_pow]
  split <;> omega

/-- An offset of nine bits leaves the base alone unless it is negative. -/
theorem lea_base_eq_iff {offset : Int} (fits : SignedFits 9 offset) :
    leaBase base offset = base ↔ base.cls = .GPR32 ∧ (0 ≤ offset ∨ base = PC_REG) := by
  have encoded : ((leaAddress base offset).toNat >>> 10) % 64 =
      getEncodingValue base ||| if offset < 0 then 63 else 0 := by
    have bounded := encoding_value_lt base
    have alone : (BitVec.ofNat 32 (getEncodingValue base) <<< 10).toNat >>> 10 =
        getEncodingValue base := by
      rw [BitVec.toNat_shiftLeft, BitVec.toNat_ofNat, Nat.shiftLeft_eq,
        Nat.shiftRight_eq_div_pow]
      omega
    rw [← short_shifted_high fits, leaAddress, BitVec.toNat_or, Nat.shiftRight_or_distrib, alone]
    have modulo := @Nat.or_mod_two_pow (getEncodingValue base)
      ((shortShifted offset 1).toNat >>> 10) 6
    rwa [Nat.mod_eq_of_lt (show getEncodingValue base < 2 ^ 6 from bounded)] at modulo
  have ones : ∀ encoding : Fin 64, encoding.val ||| 63 = 63 := by decide
  have counter : base = PC_REG ↔ base.cls = .GPR32 ∧ getEncodingValue base = 63 := by
    obtain ⟨cls, encoding⟩ := base
    rw [PC_REG, sReg, Register.mk.injEq, Fin.ext_iff]
    rfl
  have same : leaBase base offset = base ↔
      base.cls = .GPR32 ∧ (getEncodingValue base ||| if offset < 0 then 63 else 0) =
        getEncodingValue base := by
    obtain ⟨cls, encoding⟩ := base
    rw [← encoded, leaBase, Register.mk.injEq, Fin.ext_iff, eq_comm]
    rfl
  rw [same, counter]
  apply and_congr_right
  intro scalar
  by_cases negative : offset < 0
  · rw [if_pos negative, getEncodingValue, ones]
    constructor
    · intro counted
      exact Or.inr ⟨scalar, counted.symm⟩
    · rintro (positive | ⟨-, counted⟩)
      · omega
      · exact counted.symm
  · rw [if_neg negative, Nat.or_zero]
    exact ⟨fun _ => Or.inl (by omega), fun _ => rfl⟩

end EffectiveAddress

end NaplesPU.AliasEncoding
