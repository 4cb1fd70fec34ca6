import NaplesPU.PrintedText

/-!
Printing a decoded instruction and assembling the text. The matcher finds the
record that was printed, since no other entry has its mnemonic and the kinds of
its operands, so that the assembled word is the encoding of the decoded operands.
One word is printed with the mnemonic of another record.
-/

namespace NaplesPU.PrintAssemble

open BitLayout ByteMemory RegisterInfo InstrFormats InstrInfo DecoderTable FixupKinds
open MCCodeEmitter Disassembler EncodeDecode AsmParser AsmStatements AsmMatching
open DecodedWords InstPrinter PrintedText KeyedTables

section Matching

def operandKind : NaplesPUOperand → MatchClassKind
  | .Register register => matchClass (.reg register.cls)
  | .Immediate _ => .MCK_Imm
  | .Memory _ _ => .MCK_Mem

theorem validate_operand_class_eq (kind : MatchClassKind) (operand : NaplesPUOperand) :
    validateOperandClass kind operand = decide (kind = operandKind operand) := by
  cases operand with
  | Register register =>
      obtain ⟨cls, encoding⟩ := register
      cases kind <;> cases cls <;> rfl
  | Immediate value => cases kind <;> rfl
  | Memory base offset => cases kind <;> rfl

/-- Operands are valid for just one list of kinds. -/
theorem operands_valid_eq (kinds : List MatchClassKind) (operands : List NaplesPUOperand) :
    operandsValid kinds operands = decide (kinds = operands.map operandKind) := by
  induction kinds generalizing operands with
  | nil => cases operands <;> rfl
  | cons kind kinds induction =>
      cases operands with
      | nil => rfl
      | cons operand operands =>
          rw [operandsValid, validate_operand_class_eq, induction, ← Bool.decide_and]
          simp only [List.map_cons, List.cons.injEq]

/-- The mnemonic of an entry and the kinds of its operands. -/
def entryKey (entry : Matchable) : Nat :=
  textKey entry.mnemonic * 1024 +
    entry.classes.foldl (fun key kind => key * 4 + kind.ctorIdx) 0

theorem distinct_records : distinct ((decoderTable32.map Matchable.record).map entryKey) := by
  decide +kernel

/-- No entry before a record of the decoder table has its mnemonic and its kinds. -/
theorem found_first {opcode : Opcode} (listed : opcode ∈ decoderTable32) :
    matchTable.find? (fun entry =>
      decide (entry.classes = (Matchable.record opcode).classes) &&
        entry.mnemonic = opcode.mnemonic) = some (.record opcode) := by
  have found : (decoderTable32.map Matchable.record).find? (fun entry =>
      decide (entry.classes = (Matchable.record opcode).classes) &&
        entry.mnemonic = opcode.mnemonic) = some (.record opcode) := by
    apply find_eq_some distinct_records (List.mem_map.mpr ⟨opcode, listed, rfl⟩)
    · simp [Matchable.mnemonic]
    · intro other _ accepted
      rw [Bool.and_eq_true, decide_eq_true_eq, decide_eq_true_eq] at accepted
      obtain ⟨kinds, mnemonic⟩ := accepted
      rw [entryKey, entryKey, kinds, mnemonic, Matchable.mnemonic]
  rw [matchTable, List.find?_append, found, Option.some_or]

/-- The number depends on the variant of an operation only. -/
theorem asm_operands_length (opcode : Opcode) : opcode.asmOperands.length ≤ 3 := by
  cases opcode with
  | arithInt op variant | arithIntImm op variant | arithIntOneOp op variant
  | compInt op variant | compIntImm op variant | arithFloat op variant | compFloat op variant
  | convert op variant | moveImm op variant =>
      cases variant <;> exact Nat.le_of_ble_eq_true rfl
  | loadScalar op space | storeScalar op space | loadVector op space | storeVector op space
  | GLV32W space | SSV32W space =>
      cases space <;> exact Nat.le_of_ble_eq_true rfl
  | _ => exact Nat.le_of_ble_eq_true rfl

variable {opcode : Opcode} {operands : List WrittenOperand}

theorem kinds_of_matches {decls : List OperandDecl}
    (matched : List.Forall₂ Matches decls operands) :
    (decls.map fun decl => matchClass decl.type) =
      (operands.map WrittenOperand.parsed).map operandKind := by
  induction matched with
  | nil => rfl
  | cons head _ induction =>
      rw [Matches, validate_operand_class_eq] at head
      rw [List.map_cons, List.map_cons, List.map_cons, induction, of_decide_eq_true head]

theorem emit_record (listed : opcode ∈ decoderTable32)
    (matched : List.Forall₂ Matches opcode.asmOperands operands) :
    ∃ first, (tiedOperands opcode ≠ [] → (∃ register, first = .reg register) ∧
        (recordParts opcode operands first).flatten[0]? = some first) ∧
      MatchAndEmitInstruction opcode.mnemonic (operands.map WrittenOperand.parsed) =
        some [(bytesLE 4 (opcode.layout.encode
          (varValue ⟨opcode, (recordParts opcode operands first).flatten⟩)), [])] := by
  obtain ⟨first, converted, copied⟩ := convert_record listed matched
  have few : ¬ 3 < (operands.map WrittenOperand.parsed).length := by
    have count := asm_operands_length opcode
    rw [matched.length_eq] at count
    rw [List.length_map]
    omega
  have found : (matchTable.find? fun entry => entry.mnemonic = opcode.mnemonic &&
      operandsValid entry.classes (operands.map WrittenOperand.parsed)) =
        some (.record opcode) := by
    rw [← found_first listed]
    congr 1
    funext entry
    rw [operands_valid_eq, Bool.and_comm, Matchable.classes, kinds_of_matches matched]
  have encoded := encode_typed (typed_record first listed matched copied)
  refine ⟨first, copied, ?_⟩
  rw [MatchAndEmitInstruction, MatchInstructionImpl, if_neg few, found, Option.bind_some]
  simp only [Matchable.operandNames, converted, Option.map_some, Option.bind_some,
    ProcessInstruction, List.mapM_cons, List.mapM_nil, encoded]
  rfl

end Matching

section Words

variable {symbolName : Nat → List Char} {context : MCContext} {word : Nat} {inst : MCInst}

/-- `ori s0, s0, 0`. -/
def orZero : MCInst := ⟨.arithIntImm .OR .SSI, [.reg (sReg 0), .reg (sReg 0), .imm 0]⟩

def orZeroWord : Nat := 0x41000000

theorem decode_or_zero : getInstruction (bytesLE 4 orZeroWord) = some orZero :=
  @get_instruction_of_matches (.arithIntImm .OR .SSI) orZeroWord rfl (by decide) (by decide)

theorem assemble_nop : assembleText context ('\t' :: "nop".toList) =
    some [(bytesLE 4 0xffffffff, [])] := by
  have placed : ∀ position operand, ([] : List WrittenOperand)[position]? = some operand →
      operand.isMemory = hasCustomParser "nop" position := by
    intro position operand found
    cases found
  have assembled := @assemble_statement context ⟨"nop", [], placed⟩ (mnemonic_name .NOP) (by simp)
  rw [statementText, if_pos rfl, List.append_nil] at assembled
  obtain ⟨first, -, emitted⟩ :=
    @emit_record .NOP [] ((mem_decoder_table_iff .NOP).mpr rfl) List.Forall₂.nil
  have constant (values : Var → Nat) : Opcode.NOP.layout.encode values = 0xffffffff := by
    simp [Opcode.layout, instConst, Layout.encode, assemble, Source.value, Slot.place]
  rw [constant] at emitted
  exact assembled.trans emitted

/-- What is printed for `ori s0, s0, 0` is assembled to another word. -/
theorem or_zero_lost : ¬ ∃ text, printInst symbolName orZero = some text ∧
    assembleText context text = some [(bytesLE 4 orZeroWord, [])] := by
  have printed : printInst symbolName orZero = some ('\t' :: "nop".toList) := if_pos (by decide)
  rintro ⟨text, found, assembled⟩
  rw [printed] at found
  obtain rfl := Option.some.inj found
  rw [assemble_nop] at assembled
  revert assembled
  decide

theorem decoded_word (bounded : word < 2 ^ 32)
    (decoded : getInstruction (bytesLE 4 word) = some inst) :
    inst.opcode ∈ decoderTable32 ∧ inst.opcode.layout.pattern.Matches word ∧
      ∃ operands rest,
        List.Forall₂ (Decoded inst.opcode word) inst.opcode.asmOperands operands ∧
          inst.operands = operands.flatMap machineOperands ++ rest := by
  rw [getInstruction, read_instruction_encoded word bounded, Option.bind_some] at decoded
  obtain ⟨opcode, found, read⟩ := Option.bind_eq_some_iff.mp decoded
  obtain ⟨listed, matched⟩ := matches_of_lookup found
  obtain ⟨operands, rest, each, rfl⟩ := decoded_operands listed read
  exact ⟨listed, matched, operands, rest, each, rfl⟩

/-- Only one word decodes to operands that are printed as `nop`. -/
theorem word_of_or_zero (bounded : word < 2 ^ 32)
    (decoded : getInstruction (bytesLE 4 word) = some inst)
    (opcode : inst.opcode = .arithIntImm .OR .SSI)
    (dst : inst.getOperand 0 = some (.reg (sReg 0)))
    (src : inst.getOperand 1 = some (.reg (sReg 0)))
    (imm : inst.getOperand 2 = some (.imm 0)) : word = orZeroWord := by
  obtain ⟨listed, found, operands, rest, each, whole⟩ := decoded_word bounded decoded
  rw [opcode] at listed found each
  have assembled := encode_decoded listed (by decide) bounded found each
    (show tiedOperands (.arithIntImm .OR .SSI) ≠ [] → (∃ register, MCOperand.imm 0 = .reg register) ∧
      (recordParts (.arithIntImm .OR .SSI) operands (.imm 0)).flatten[0]? = some (.imm 0) from
        fun some => absurd rfl some)
  have three : ∃ first second third, operands = [first, second, third] ∧
      operands.flatMap machineOperands = [.reg (sReg 0), .reg (sReg 0), .imm 0] := by
    have decls : (Opcode.arithIntImm .OR .SSI).asmOperands =
        [⟨.dst, .reg .GPR32⟩, ⟨.src, .reg .GPR32⟩, ⟨.imm, .SIMM9OP⟩] := rfl
    rw [decls] at each
    cases each with
    | cons head tail =>
        cases tail with
        | cons next more =>
            cases more with
            | cons last none =>
                cases none
                obtain ⟨first, rfl, -⟩ := matched_operand head.matched
                obtain ⟨second, rfl, -⟩ := matched_operand next.matched
                obtain ⟨third, rfl⟩ := matched_operand last.matched
                rw [MCInst.getOperand, whole] at dst src imm
                refine ⟨_, _, _, rfl, ?_⟩
                cases Option.some.inj dst
                cases Option.some.inj src
                have value : MCOperand.imm (wrapConstant third.value) = .imm 0 :=
                  Option.some.inj imm
                change [MCOperand.reg (sReg 0), .reg (sReg 0),
                  .imm (wrapConstant third.value)] = _
                rw [value]
  obtain ⟨first, second, third, rfl, machine⟩ := three
  have parts : (recordParts (.arithIntImm .OR .SSI) [first, second, third] (.imm 0)).flatten =
      orZero.operands := by
    rw [recordParts, show tiedOperands (.arithIntImm .OR .SSI) = [] from rfl, List.map_nil,
      List.append_nil, ← List.flatMap_def, machine]
    rfl
  rw [parts] at assembled
  have evaluated : (Opcode.arithIntImm .OR .SSI).layout.encode (varValue orZero) = orZeroWord := by
    decide
  exact assembled.symm.trans evaluated

/-- Every word but one is printed as the statement of its operands, which is assembled to
the word that the operands encode to. -/
theorem print_decoded (bounded : word < 2 ^ 32)
    (decoded : getInstruction (bytesLE 4 word) = some inst) (other : word ≠ orZeroWord) :
    ∃ text result, printInst symbolName inst = some text ∧ result < 2 ^ 32 ∧
      assembleText context text = some [(bytesLE 4 result, [])] ∧
        (result = word ↔ Faithful word) := by
  obtain ⟨listed, found, operands, rest, each, whole⟩ := decoded_word bounded decoded
  have matched := matched_of_decoded each
  have shaped := each.imp fun decl operand (read : Decoded inst.opcode word decl operand) =>
    And.intro read.matched read.printed
  have lexes : ∀ operand ∈ operands, operand.Lexes := by
    intro operand member
    obtain ⟨decl, paired⟩ := exists_paired each.length_eq member
    exact lexes_of_printed (List.forall₂_zip each paired).printed
  have lower := mnemonic_name inst.opcode
  have printed := @print_instruction symbolName inst
    ⟨inst.opcode.mnemonic, operands, placed_of_matches listed matched⟩ rest listed rfl shaped whole
  have assembled := @assemble_statement context
    ⟨inst.opcode.mnemonic, operands, placed_of_matches listed matched⟩ lower lexes
  obtain ⟨first, copied, emitted⟩ := emit_record listed matched
  refine ⟨_, _, ?_, Layout.encode_lt (sound_decoder_table inst.opcode listed).1 _,
    assembled.trans emitted, encode_decoded_iff listed bounded found each copied⟩
  rw [printInst, if_neg, printed]
  rintro ⟨opcode, dst, src, imm⟩
  exact other (word_of_or_zero bounded decoded opcode dst src imm)

end Words

/-- Printing a decoded word and assembling the text gives the word exactly if it is not
`ori s0, s0, 0`, which is printed as `nop`, and the decoder looks at all that the encoder
writes. -/
theorem print_assemble_iff (symbolName : Nat → List Char) (context : MCContext) (word : Nat)
    (inst : MCInst) (bounded : word < 2 ^ 32)
    (decoded : getInstruction (bytesLE 4 word) = some inst) :
    (∃ text, printInst symbolName inst = some text ∧
      assembleText context text = some [(bytesLE 4 word, [])]) ↔
        word ≠ 0x41000000 ∧ Faithful word := by
  by_cases same : word = orZeroWord
  · subst same
    rw [decode_or_zero] at decoded
    obtain rfl := Option.some.inj decoded
    constructor
    · intro kept
      exact absurd kept or_zero_lost
    · rintro ⟨other, -⟩
      exact absurd rfl other
  · obtain ⟨text, result, printed, small, assembled, holds⟩ :=
      @print_decoded symbolName context word inst bounded decoded same
    rw [← holds]
    constructor
    · rintro ⟨found, foundPrinted, foundAssembled⟩
      rw [printed] at foundPrinted
      obtain rfl := Option.some.inj foundPrinted
      rw [assembled, Option.some.injEq, List.cons.injEq, Prod.mk.injEq,
        bytes_inj small bounded] at foundAssembled
      exact ⟨same, foundAssembled.1.1⟩
    · rintro ⟨-, rfl⟩
      exact ⟨text, printed, assembled⟩

/-- The word of `addi s0, s1, 5`. -/
theorem add_five_reassembled : ∃ text,
    printInst (fun _ => []) ⟨.arithIntImm .ADD .SSI, [.reg (sReg 0), .reg (sReg 1), .imm 5]⟩ =
        some text ∧
      assembleText noSymbols text = some [(bytesLE 4 0x44001028, [])] :=
  (print_assemble_iff (fun _ => []) noSymbols 0x44001028 _ (by decide)
    (@get_instruction_of_matches (.arithIntImm .ADD .SSI) _ rfl (by decide) (by decide))).mpr
      (by decide)

theorem or_zero_not_reassembled :
    getInstruction (bytesLE 4 0x41000000) = some orZero ∧
      ¬ ∃ text, printInst (fun _ => []) orZero = some text ∧
        assembleText noSymbols text = some [(bytesLE 4 0x41000000, [])] :=
  ⟨decode_or_zero, or_zero_lost⟩

end NaplesPU.PrintAssemble
