import NaplesPU.AsmMatching

/-!
From a word that decodes back to a word: each decoded operand is one that the
assembler can be given, and the instruction the assembler makes of these
operands has the decoded word, unless the decoder does not look at bits of the
word. It looks at eighteen of the twenty-four bits of a jump offset, and at none
of the low bits of a jump through a register.
-/

namespace NaplesPU.DecodedWords

open BitLayout ByteMemory RegisterInfo InstrFormats InstrInfo DecoderTable FixupKinds
open MCCodeEmitter Disassembler EncodeDecode TwosComplement
open AsmParser AsmStatements AsmMatching

/-- The bits of its field that an operand decoder looks at. -/
def keptBits : OperandType → Nat
  | .reg _ => 6
  | .SIMM9OP => 9
  | .SIMM16OP => 16
  | .MEMri | .V16MEMri => 15
  | .brtarget | .calltarget => 18
  | .LEAri | .ABSh | .ABSl => 0

section Decoders

variable {type : OperandType} {insn other bits : Nat} {part : List MCOperand}

theorem get_reg_eq_some_iff {cls : RegClass} {register : Register} :
    getReg cls insn = some register ↔ register.cls = cls ∧ getEncodingValue register = insn := by
  obtain ⟨own, encoding⟩ := register
  rw [getReg, getEncodingValue]
  split
  · rw [Option.some.injEq, Register.mk.injEq, Fin.ext_iff, eq_comm]
    exact and_congr_right fun _ => eq_comm
  · next large =>
      have bounded := encoding.isLt
      constructor
      · intro absent
        cases absent
      · rintro ⟨-, same⟩
        exact absurd (same ▸ bounded) large

/-- An operand decoder tells two values apart by the bits it looks at. -/
theorem decode_operand_injective (decoded : decodeOperand type insn = some part)
    (otherDecoded : decodeOperand type other = some part) :
    insn % 2 ^ keptBits type = other % 2 ^ keptBits type := by
  have memory {cls : RegClass} (first : decodeMemoryOpValue cls insn = some part)
      (second : decodeMemoryOpValue cls other = some part) : insn % 2 ^ 15 = other % 2 ^ 15 := by
    rw [decodeMemoryOpValue, Option.map_eq_some_iff] at first second
    obtain ⟨base, named, rfl⟩ := first
    obtain ⟨otherBase, otherNamed, same⟩ := second
    obtain ⟨bases, offsets⟩ := List.cons.inj same
    rw [MCOperand.reg.injEq] at bases
    rw [List.cons.injEq, MCOperand.imm.injEq, sign_extend_inj] at offsets
    subst bases
    have low := (get_reg_eq_some_iff.mp named).2.symm.trans (get_reg_eq_some_iff.mp otherNamed).2
    have high := offsets.1
    simp only [fieldFromInstruction, Slot.extract, Nat.shiftRight_eq_div_pow] at low high
    omega
  have immediate {width : Nat} (first : some [.imm (signExtend width insn)] = some part)
      (second : some [.imm (signExtend width other)] = some part) :
      insn % 2 ^ width = other % 2 ^ width := by
    cases first
    have same := Option.some.inj second
    rw [List.cons.injEq, MCOperand.imm.injEq, sign_extend_inj] at same
    exact same.1.symm
  cases type with
  | reg cls =>
      rw [decodeOperand, decodeRegisterClass] at decoded otherDecoded
      split at decoded
      · cases decoded
      · split at otherDecoded
        · cases otherDecoded
        · obtain ⟨register, named, rfl⟩ := Option.map_eq_some_iff.mp decoded
          obtain ⟨otherRegister, otherNamed, same⟩ := Option.map_eq_some_iff.mp otherDecoded
          cases same
          rw [← (get_reg_eq_some_iff.mp named).2, ← (get_reg_eq_some_iff.mp otherNamed).2]
  | SIMM9OP => exact immediate decoded otherDecoded
  | SIMM16OP => exact immediate decoded otherDecoded
  | MEMri => exact memory decoded otherDecoded
  | V16MEMri => exact memory decoded otherDecoded
  | brtarget | calltarget => exact immediate decoded otherDecoded
  | LEAri | ABSh | ABSl => cases decoded

/-- Reading back changes nothing in what a decoder gave. -/
theorem decoded_read_back (decoded : decodeOperand type insn = some part)
    (kept : ∀ width, immBits type = some width → width = bits) :
    part.map (readBack type bits) = part := by
  have extended {width : Nat} (same : width = bits) (value : Nat) :
      (signExtend width value).bmod (2 ^ bits) = signExtend width value := by
    rw [← same, sign_extend_eq_bmod, Int.bmod_bmod]
  have memory {cls : RegClass} (class_ : decodedClass type = cls) (width : 9 = bits)
      (found : decodeMemoryOpValue cls insn = some part) : part.map (readBack type bits) = part := by
    obtain ⟨base, named, rfl⟩ := Option.map_eq_some_iff.mp found
    obtain ⟨own, -⟩ := get_reg_eq_some_iff.mp named
    obtain ⟨baseClass, encoding⟩ := base
    subst own
    rw [List.map_cons, List.map_cons, List.map_nil, readBack, readBack, extended width, class_]
  cases type with
  | reg cls =>
      rw [decodeOperand, decodeRegisterClass] at decoded
      split at decoded
      · cases decoded
      · obtain ⟨register, named, rfl⟩ := Option.map_eq_some_iff.mp decoded
        obtain ⟨own, -⟩ := get_reg_eq_some_iff.mp named
        obtain ⟨registerClass, encoding⟩ := register
        subst own
        rfl
  | SIMM9OP =>
      cases decoded
      rw [List.map_cons, readBack, extended (kept 9 rfl), List.map_nil]
  | SIMM16OP =>
      cases decoded
      rw [List.map_cons, readBack, extended (kept 16 rfl), List.map_nil]
  | MEMri => exact memory rfl (kept 9 rfl) decoded
  | V16MEMri => exact memory rfl (kept 9 rfl) decoded
  | brtarget | calltarget =>
      cases decoded
      rw [List.map_cons, readBack, extended (kept 18 rfl), List.map_nil]
  | LEAri | ABSh | ABSl => cases decoded

end Decoders

section Operands

/-- A number as it is printed, with a sign only if it is negative. -/
def writtenLiteral (value : Int) : Literal :=
  ⟨if value < 0 then .minus else .none, value.natAbs⟩

theorem written_literal_value (value : Int) : (writtenLiteral value).value = value := by
  by_cases negative : value < 0
  · rw [writtenLiteral, if_pos negative]
    change -(value.natAbs : Int) = value
    omega
  · rw [writtenLiteral, if_neg negative]
    change (value.natAbs : Int) = value
    omega

/-- The operands that are printed: numbers of thirty-two bits, and no zero offset. -/
inductive Printed : WrittenOperand → Prop where
  | register (name : Register) : Printed (.register name)
  | literal (value : Int) : SignedFits 32 value → Printed (.literal (writtenLiteral value))
  | memory (offset : Int) (base : Register) : SignedFits 32 offset →
      Printed (.memory (if offset = 0 then none else some (writtenLiteral offset)) base)

theorem wrap_constant_of_fits {value : Int} (fits : SignedFits 32 value) :
    wrapConstant value = value :=
  (bmod_eq_self_iff (by decide) value).mpr (fits.mono (by decide))

theorem offset_value_written (offset : Int) :
    offsetValue (if offset = 0 then none else some (writtenLiteral offset)) = offset := by
  by_cases zero : offset = 0
  · rw [if_pos zero, zero]
    rfl
  · rw [if_neg zero]
    exact written_literal_value offset

theorem machine_operands_literal {value : Int} (fits : SignedFits 32 value) :
    machineOperands (.literal (writtenLiteral value)) = [.imm value] := by
  rw [machineOperands, written_literal_value, wrap_constant_of_fits fits]

theorem machine_operands_memory {offset : Int} (fits : SignedFits 32 offset) (base : Register) :
    machineOperands (.memory (if offset = 0 then none else some (writtenLiteral offset)) base) =
      [.reg base, .imm offset] := by
  rw [machineOperands, offset_value_written, wrap_constant_of_fits fits]

theorem decoded_operand {decl : OperandDecl} {insn : Nat} {part : List MCOperand}
    (decoded : decodeOperand decl.type insn = some part) :
    ∃ operand, part = machineOperands operand ∧ Matches decl operand ∧ Printed operand := by
  have extended {bits : Nat} (positive : 0 < bits) (narrow : bits ≤ 32) (value : Nat) :
      SignedFits 32 (signExtend bits value) := (sign_extend_fits positive value).mono narrow
  obtain ⟨varName, type⟩ := decl
  have number {bits : Nat} (positive : 0 < bits) (narrow : bits ≤ 32)
      (kind : matchClass type = .MCK_Imm) (found : some [.imm (signExtend bits insn)] = some part) :
      ∃ operand, part = machineOperands operand ∧ Matches ⟨varName, type⟩ operand ∧
        Printed operand := by
    have fits := extended positive narrow insn
    refine ⟨.literal (writtenLiteral (signExtend bits insn)), ?_, ?_, Printed.literal _ fits⟩
    · rw [machine_operands_literal fits]
      exact (Option.some.inj found).symm
    · rw [Matches, kind]
      rfl
  have memory {cls : RegClass} (kind : matchClass type = .MCK_Mem)
      (found : decodeMemoryOpValue cls insn = some part) :
      ∃ operand, part = machineOperands operand ∧ Matches ⟨varName, type⟩ operand ∧
        Printed operand := by
    obtain ⟨base, -, rfl⟩ := Option.map_eq_some_iff.mp found
    have fits := extended (show 0 < 9 by decide) (by decide) (fieldFromInstruction insn 6 9)
    refine ⟨_, (machine_operands_memory fits base).symm, ?_, Printed.memory _ base fits⟩
    rw [Matches, kind]
    rfl
  cases type with
  | reg cls =>
      rw [decodeOperand, decodeRegisterClass] at decoded
      split at decoded
      · cases decoded
      · obtain ⟨register, named, rfl⟩ := Option.map_eq_some_iff.mp decoded
        obtain ⟨rfl, -⟩ := get_reg_eq_some_iff.mp named
        refine ⟨.register register, rfl, ?_, Printed.register register⟩
        obtain ⟨own, encoding⟩ := register
        cases own <;> rfl
  | SIMM9OP => exact number (by decide) (by decide) rfl decoded
  | SIMM16OP => exact number (by decide) (by decide) rfl decoded
  | MEMri => exact memory rfl decoded
  | V16MEMri => exact memory rfl decoded
  | brtarget | calltarget => exact number (show 0 < 18 by decide) (by decide) rfl decoded
  | LEAri | ABSh | ABSl => cases decoded

end Operands

section Words

/-- The operand is what the decoder reads of its declaration in the word. -/
structure Decoded (opcode : Opcode) (word : Nat) (decl : OperandDecl) (operand : WrittenOperand) :
    Prop where
  read : decodeOperand decl.type (opcode.layout.gather decl.name word) =
    some (machineOperands operand)
  matched : Matches decl operand
  printed : Printed operand

variable {opcode : Opcode} {word : Nat} {inst : MCInst}

theorem decoded_decls {decls : List OperandDecl} {parts : List (List MCOperand)}
    (untied : ∀ decl ∈ decls, (tiedTo decl.name).isNone)
    (decoded : (decls.mapM fun decl => decodeOperand decl.type
      (opcode.layout.gather (decodedVar decl.name) word)) = some parts) :
    ∃ operands, List.Forall₂ (Decoded opcode word) decls operands ∧
      parts.flatten = operands.flatMap machineOperands := by
  induction decls generalizing parts with
  | nil =>
      obtain rfl := Option.some.inj decoded
      exact ⟨[], List.Forall₂.nil, rfl⟩
  | cons decl decls induction =>
      rw [List.mapM_cons] at decoded
      obtain ⟨part, first, others⟩ := Option.bind_eq_some_iff.mp decoded
      obtain ⟨rest, later, same⟩ := Option.bind_eq_some_iff.mp others
      obtain rfl := Option.some.inj same
      rw [decoded_var_untied (untied decl (by simp))] at first
      obtain ⟨operand, rfl, matched, printed⟩ := decoded_operand first
      obtain ⟨operands, each, flat⟩ :=
        induction (fun other member => untied other (by simp [member])) later
      refine ⟨operand :: operands, List.Forall₂.cons ⟨first, matched, printed⟩ each, ?_⟩
      rw [List.flatten_cons, List.flatMap_cons, flat]

theorem decoded_operands (listed : opcode ∈ decoderTable32)
    (decoded : decodeToMCInst opcode word = some inst) :
    ∃ operands rest, List.Forall₂ (Decoded opcode word) opcode.asmOperands operands ∧
      inst = ⟨opcode, operands.flatMap machineOperands ++ rest⟩ := by
  obtain ⟨split, -, named⟩ := sound_text opcode listed
  rw [decodeToMCInst, split] at decoded
  obtain ⟨parts, read, rfl⟩ := Option.map_eq_some_iff.mp decoded
  rw [List.mapM_append] at read
  obtain ⟨written, first, others⟩ := Option.bind_eq_some_iff.mp read
  obtain ⟨copies, -, same⟩ := Option.bind_eq_some_iff.mp others
  obtain rfl := Option.some.inj same
  obtain ⟨operands, each, flat⟩ := decoded_decls (fun decl own => (named decl own).1) first
  exact ⟨operands, copies.flatten, each, by rw [List.flatten_append, flat]⟩

end Words

section Assembled

variable {opcode : Opcode} {word : Nat} {operands : List WrittenOperand} {first : MCOperand}

theorem matched_of_decoded
    (decoded : List.Forall₂ (Decoded opcode word) opcode.asmOperands operands) :
    List.Forall₂ Matches opcode.asmOperands operands :=
  decoded.imp fun _ _ operand => operand.matched

theorem kept_bits_le (opcode : Opcode) (type : OperandType) :
    keptBits type ≤ fieldWidth opcode type := by
  have branch : 18 ≤ branchBits opcode := by
    unfold branchBits
    split <;> decide
  cases type with
  | brtarget => exact branch
  | calltarget => exact branch
  | _ => simp [keptBits, fieldWidth]

theorem var_value_decoded (listed : opcode ∈ decoderTable32)
    (decoded : List.Forall₂ (Decoded opcode word) opcode.asmOperands operands)
    (copied : tiedOperands opcode ≠ [] → (∃ register, first = .reg register) ∧
      (recordParts opcode operands first).flatten[0]? = some first)
    {entry : Nat × OperandDecl} (member : entry ∈ miOperands opcode)
    (untied : (tiedTo entry.2.name).isNone) :
    varValue ⟨opcode, (recordParts opcode operands first).flatten⟩ entry.2.name %
        2 ^ keptBits entry.2.type =
      opcode.layout.gather entry.2.name word % 2 ^ keptBits entry.2.type := by
  have matched := matched_of_decoded decoded
  have typed := typed_record first listed matched copied
  have parts := record_slices first listed matched rfl
  have paired : (entry.2, operandSlice ⟨opcode, (recordParts opcode operands first).flatten⟩
      entry.1 entry.2) ∈ opcode.operandList.zip (recordParts opcode operands first) := by
    rw [← parts]
    exact List.mem_map.mpr ⟨entry, member, rfl⟩
  obtain ⟨value, -, named, read⟩ := operand_round_trip typed member
  rw [decoded_var_untied untied] at named
  rcases mem_record_parts first listed matched.length_eq paired with
    ⟨operand, own, slice⟩ | ⟨copy, -⟩
  · have original := (List.forall₂_zip decoded own).read
    rw [slice, decoded_read_back original fun width => imm_bits_eq listed member] at read
    have same := decode_operand_injective read original
    rw [Nat.mod_mod_of_dvd _ (Nat.pow_dvd_pow 2 (kept_bits_le opcode entry.2.type))] at same
    rw [varValue, named]
    exact same
  · have tied := (List.mem_filter.mp copy).2
    rw [Option.isNone_iff_eq_none] at untied
    rw [untied] at tied
    cases tied

/-- The field is one that an operand of the text decides. -/
def Recovered (opcode : Opcode) : BitField Var → Prop
  | ⟨_, .fixed _⟩ => True
  | ⟨slot, .var name low⟩ =>
      (opcode.layout.stored name).Pairwise Slot.Disjoint ∧
        ∃ entry ∈ miOperands opcode, entry.2.name = name ∧ (tiedTo entry.2.name).isNone ∧
          low + slot.width ≤ keptBits entry.2.type

instance (opcode : Opcode) : (field : BitField Var) → Decidable (Recovered opcode field)
  | ⟨_, .fixed _⟩ => inferInstanceAs (Decidable True)
  | ⟨_, .var _ _⟩ => inferInstanceAs (Decidable (_ ∧ _))

/-- The records whose word has bits that the decoder does not look at. -/
def unreadRecords : List Opcode := [.JMP, .JMPSR_OFF, .JUMPREG, .JMPSR_REG]

theorem filled_decoder_table : ∀ opcode ∈ decoderTable32,
    opcode.layout.filled = 2 ^ 32 - 1 := by
  decide +kernel

theorem complete_decoder_table (opcode : Opcode) (listed : opcode ∈ decoderTable32) :
    opcode.layout.Complete 32 :=
  Layout.complete_of_filled (filled_decoder_table opcode listed)

theorem recovered_decoder_table : ∀ opcode ∈ decoderTable32, opcode ∉ unreadRecords →
    ∀ field ∈ opcode.layout, Recovered opcode field := by
  decide +kernel

theorem encode_decoded (listed : opcode ∈ decoderTable32) (read : opcode ∉ unreadRecords)
    (bounded : word < 2 ^ 32) (found : opcode.layout.pattern.Matches word)
    (decoded : List.Forall₂ (Decoded opcode word) opcode.asmOperands operands)
    (copied : tiedOperands opcode ≠ [] → (∃ register, first = .reg register) ∧
      (recordParts opcode operands first).flatten[0]? = some first) :
    opcode.layout.encode
      (varValue ⟨opcode, (recordParts opcode operands first).flatten⟩) = word := by
  have formed := (sound_decoder_table opcode listed).1
  rw [Layout.encode_eq_word_iff formed (complete_decoder_table opcode listed) bounded found]
  intro slot name low member
  obtain ⟨apart, entry, own, rfl, untied, narrow⟩ :=
    recovered_decoder_table opcode listed read _ member
  rw [← Layout.extract_gather apart member]
  have same := var_value_decoded listed decoded copied own untied
  exact @Slot.extract_congr ⟨low, slot.width⟩ _ _ _ narrow same

end Assembled

section Jumps

variable {word : Nat}

/-- The value that is encoded for a jump offset agrees with the word's twenty-four bits
exactly if these extend the eighteen that were decoded. -/
theorem jump_offset_iff :
    (BitVec.ofInt 32 (signExtend 18 (word % 2 ^ 24))).toNat % 2 ^ 24 = word % 2 ^ 24 ↔
      SignedFits 18 (signExtend 24 word) := by
  have short := (sign_extend_fits (show 0 < 18 by decide) (word % 2 ^ 24)).mono
    (show 18 ≤ 24 by decide)
  have encoded : signExtend 24 (BitVec.ofInt 32 (signExtend 18 (word % 2 ^ 24))).toNat =
      signExtend 18 (word % 2 ^ 24) := by
    rw [← sign_extend_mod, sign_extend_field _ (by decide) (by decide)]
    exact (bmod_eq_self_iff (by decide) _).mpr short
  have field : (BitVec.ofNat 24 word).toNat = word % 2 ^ 24 := BitVec.toNat_ofNat word 24
  rw [← sign_extend_inj, encoded, ← field, eq_comm]
  exact sign_extend_eq_to_int_iff (by decide) (by decide) (BitVec.ofNat 24 word)

/-- A jump by offset has one variable field, the offset. -/
theorem encode_jump_offset_iff {opcode : Opcode} {code : Nat} (layout : opcode.layout = fj code)
    (listed : opcode ∈ decoderTable32) {operands : List MCOperand}
    (bounded : word < 2 ^ 32) (found : opcode.layout.pattern.Matches word)
    (encoded : varValue ⟨opcode, operands⟩ .addr =
      (BitVec.ofInt 32 (signExtend 18 (opcode.layout.gather .addr word))).toNat) :
    opcode.layout.encode (varValue ⟨opcode, operands⟩) = word ↔
      SignedFits 18 (signExtend 24 word) := by
  have formed := (sound_decoder_table opcode listed).1
  have offset : opcode.layout.gather .addr word = word % 2 ^ 24 := by
    rw [layout]
    simp [fj, fjAll, instConst, instVar, Layout.gather, Slot.extract]
  rw [Layout.encode_eq_word_iff formed (complete_decoder_table opcode listed) bounded found,
    layout]
  rw [offset] at encoded
  simp only [fj, fjAll, instConst, instVar, List.cons_append, List.nil_append, List.mem_cons,
    List.not_mem_nil, or_false, BitField.mk.injEq, reduceCtorEq, and_false, false_or,
    Source.var.injEq]
  rw [← jump_offset_iff]
  constructor
  · intro fields
    have field := fields ⟨0, 24⟩ .addr 0 ⟨rfl, rfl, rfl⟩
    rw [encoded] at field
    exact field
  · rintro same slot name low ⟨rfl, rfl, rfl⟩
    rw [encoded]
    exact same

/-- The word of a jump through a register: constants, the register and the low bits. -/
def RegisterJump (opcode : Opcode) (name : Var) : Prop :=
  ∃ consts : Layout Var, (∀ field ∈ consts, ∃ value, field.source = .fixed value) ∧
    opcode.layout = consts ++ [instVar 23 18 name 0, instVar 17 0 .addr 0]

theorem fj_all_fixed (code : Nat) :
    ∀ field ∈ fjAll code ++ [instConst 27 27 0], ∃ value, field.source = .fixed value := by
  simp [fjAll, instConst]

theorem jump_register_layout : RegisterJump .JUMPREG .cond :=
  ⟨fjAll 0 ++ [instConst 27 27 0], fj_all_fixed 0, rfl⟩

theorem call_register_layout : RegisterJump .JMPSR_REG .dst :=
  ⟨fjAll 1 ++ [instConst 27 27 0], fj_all_fixed 1, rfl⟩

/-- A jump through a register has two variable fields, and its register is the value of
both: the low one is named by no operand. -/
theorem encode_jump_register_iff {opcode : Opcode} {name : Var}
    (layout : RegisterJump opcode name)
    (listed : opcode ∈ decoderTable32) {operands : List MCOperand} {register : Register}
    (bounded : word < 2 ^ 32) (found : opcode.layout.pattern.Matches word)
    (read : getEncodingValue register = (word >>> 18) % 2 ^ 6)
    (encoded : varValue ⟨opcode, operands⟩ name = getEncodingValue register)
    (unnamed : varValue ⟨opcode, operands⟩ .addr = getEncodingValue register) :
    opcode.layout.encode (varValue ⟨opcode, operands⟩) = word ↔
      word % 2 ^ 18 = (word >>> 18) % 2 ^ 6 := by
  have formed := (sound_decoder_table opcode listed).1
  obtain ⟨consts, fixed, fields⟩ := layout
  rw [Layout.encode_eq_word_iff formed (complete_decoder_table opcode listed) bounded found]
  have small := encoding_value_lt register
  constructor
  · intro holds
    have low := holds ⟨0, 18⟩ .addr 0 (by rw [fields]; simp [instVar])
    rw [unnamed] at low
    simp only [Slot.extract, Nat.shiftRight_zero] at low
    omega
  · intro same slot var low member
    rw [fields] at member
    rcases List.mem_append.mp member with const | varField
    · obtain ⟨value, source⟩ := fixed _ const
      cases source
    · simp only [instVar, List.mem_cons, List.not_mem_nil, or_false, BitField.mk.injEq,
        Source.var.injEq] at varField
      rcases varField with ⟨rfl, rfl, rfl⟩ | ⟨rfl, rfl, rfl⟩
      · rw [encoded]
        simp only [Slot.extract, Nat.shiftRight_zero]
        omega
      · rw [unnamed]
        simp only [Slot.extract, Nat.shiftRight_zero]
        omega

end Jumps

/-- The word has in the bits that the decoder does not look at what the encoder puts
there. -/
def Faithful (word : Nat) : Prop :=
  (Opcode.JMP.layout.pattern.Matches word ∨ Opcode.JMPSR_OFF.layout.pattern.Matches word →
      SignedFits 18 (signExtend 24 word)) ∧
    (Opcode.JUMPREG.layout.pattern.Matches word ∨ Opcode.JMPSR_REG.layout.pattern.Matches word →
      word % 2 ^ 18 = (word >>> 18) % 2 ^ 6)

instance (word : Nat) : Decidable (Faithful word) := inferInstanceAs (Decidable (_ ∧ _))

section Reassembled

variable {opcode : Opcode} {word : Nat} {operands : List WrittenOperand} {first : MCOperand}

theorem record_parts_single (untied : tiedOperands opcode = []) (operand : WrittenOperand) :
    (recordParts opcode [operand] first).flatten = machineOperands operand := by
  rw [recordParts, untied]
  exact List.append_nil _

/-- The word of the assembled operands is the decoded word exactly if the word is faithful. -/
theorem encode_decoded_iff (listed : opcode ∈ decoderTable32) (bounded : word < 2 ^ 32)
    (found : opcode.layout.pattern.Matches word)
    (decoded : List.Forall₂ (Decoded opcode word) opcode.asmOperands operands)
    (copied : tiedOperands opcode ≠ [] → (∃ register, first = .reg register) ∧
      (recordParts opcode operands first).flatten[0]? = some first) :
    opcode.layout.encode
      (varValue ⟨opcode, (recordParts opcode operands first).flatten⟩) = word ↔ Faithful word := by
  have only {other : Opcode} (otherListed : other ∈ decoderTable32) :
      other.layout.pattern.Matches word ↔ other = opcode := by
    constructor
    · intro matched
      exact decoder_table_entry_unique otherListed listed matched found
    · rintro rfl
      exact found
  have offset {type : OperandType} (branch : type = .brtarget ∨ type = .calltarget)
      (decls : opcode.asmOperands = [⟨.addr, type⟩]) :
      ∃ operand, operands = [operand] ∧
        machineOperands operand = [.imm (signExtend 18 (opcode.layout.gather .addr word))] := by
    rw [decls] at decoded
    cases decoded with
    | cons head tail =>
        cases tail
        have read := head.read
        rcases branch with rfl | rfl <;> exact ⟨_, rfl, (Option.some.inj read).symm⟩
  have register {name : Var} (decls : opcode.asmOperands = [⟨name, .reg .GPR32⟩])
      (field : opcode.layout.gather name word = (word >>> 18) % 2 ^ 6) :
      ∃ operand register, operands = [operand] ∧ machineOperands operand = [.reg register] ∧
        getEncodingValue register = (word >>> 18) % 2 ^ 6 := by
    rw [decls] at decoded
    cases decoded with
    | cons head tail =>
        cases tail
        obtain ⟨register, rfl, -⟩ := matched_operand head.matched
        have read := head.read
        change decodeRegisterClass .GPR32 _ = _ at read
        rw [decodeRegisterClass, field] at read
        split at read
        · cases read
        · obtain ⟨other, named, same⟩ := Option.map_eq_some_iff.mp read
          cases same
          exact ⟨_, _, rfl, rfl, (get_reg_eq_some_iff.mp named).2⟩
  rw [Faithful, only (by decide), only (by decide), only (by decide), only (by decide)]
  by_cases unread : opcode ∈ unreadRecords
  · simp only [unreadRecords, List.mem_cons, List.not_mem_nil, or_false] at unread
    rcases unread with rfl | rfl | rfl | rfl
    · obtain ⟨operand, rfl, read⟩ := offset (Or.inl rfl) rfl
      rw [record_parts_single rfl, read, encode_jump_offset_iff rfl listed bounded found rfl]
      simp
    · obtain ⟨operand, rfl, read⟩ := offset (Or.inr rfl) rfl
      rw [record_parts_single rfl, read, encode_jump_offset_iff rfl listed bounded found rfl]
      simp
    · obtain ⟨operand, target, rfl, read, same⟩ := @register .cond rfl (by
        simp [Opcode.layout, fjr, fjAll, instConst, instVar, Layout.gather, Slot.extract])
      have own : varValue ⟨.JUMPREG, [.reg target]⟩ .cond = getEncodingValue target :=
        machine_op_value_reg target
      have low : varValue ⟨.JUMPREG, [.reg target]⟩ .addr = getEncodingValue target :=
        machine_op_value_reg target
      rw [record_parts_single rfl, read,
        encode_jump_register_iff jump_register_layout listed bounded found same own low]
      simp
    · obtain ⟨operand, target, rfl, read, same⟩ := @register .dst rfl (by
        simp [Opcode.layout, fjAll, instConst, instVar, Layout.gather, Slot.extract])
      have own : varValue ⟨.JMPSR_REG, [.reg target]⟩ .dst = getEncodingValue target :=
        machine_op_value_reg target
      have low : varValue ⟨.JMPSR_REG, [.reg target]⟩ .addr = getEncodingValue target :=
        machine_op_value_reg target
      rw [record_parts_single rfl, read,
        encode_jump_register_iff call_register_layout listed bounded found same own low]
      simp
  · have exact_ := encode_decoded listed unread bounded found decoded copied
    simp only [unreadRecords, List.mem_cons, List.not_mem_nil, or_false, not_or] at unread
    simp [exact_, Ne.symm unread.1, Ne.symm unread.2.1, Ne.symm unread.2.2.1,
      Ne.symm unread.2.2.2]

end Reassembled

end NaplesPU.DecodedWords
