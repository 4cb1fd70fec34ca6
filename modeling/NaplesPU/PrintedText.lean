import NaplesPU.DecodedWords
import NaplesPU.InstPrinter

/-!
What the assembler reads in a printed instruction. Each printed piece is a chunk
of tokens, the pieces join because a name or a number is followed by a symbol
that cannot belong to it, and the statement that is parsed is the one printed.
-/

namespace NaplesPU.PrintedText

open Scanning ByteMemory RegisterInfo InstrFormats InstrInfo DecoderTable FixupKinds
open MCCodeEmitter TwosComplement AsmLexer AsmStrings AsmParser AsmStatements AsmMatching
open DecodedWords InstPrinter

section Names

/-- The text is one identifier, without capital letters. -/
def isLowerName : List Char → Bool
  | [] => false
  | first :: rest =>
      (first.isAlpha || first = '_') && rest.all isIdentifierChar &&
        (first :: rest).all fun symbol => symbol.toLower = symbol

theorem register_names : ∀ register ∈ allRegisters,
    isLowerName (getRegisterName register).toList := by
  decide +kernel

def isNameTail (text : List Char) : Bool :=
  text.all isIdentifierChar && text.all fun symbol => symbol.toLower = symbol

theorem lower_name_append {name tail : String} (lower : isLowerName name.toList)
    (follows : isNameTail tail.toList) : isLowerName (name ++ tail).toList := by
  rw [isNameTail, Bool.and_eq_true] at follows
  rw [String.toList_append]
  cases text : name.toList with
  | nil => rw [text] at lower; cases lower
  | cons first rest =>
      rw [text, isLowerName, Bool.and_eq_true, Bool.and_eq_true] at lower
      rw [List.cons_append, isLowerName, List.all_append, lower.1.1, lower.1.2, follows.1,
        ← List.cons_append, List.all_append, lower.2, follows.2]
      rfl

/-- A mnemonic is the name of an operation and what its variants append. -/
theorem mnemonic_name (opcode : Opcode) : isLowerName opcode.mnemonic.toList := by
  cases opcode with
  | arithInt op variant | arithIntImm op variant | arithIntOneOp op variant
  | convert op variant | arithFloat op variant =>
      apply lower_name_append
      · apply lower_name_append
        · cases op <;> decide
        · decide
      · cases variant <;> decide
  | compInt op variant | compIntImm op variant | compFloat op variant =>
      apply lower_name_append
      · cases op <;> decide
      · decide
  | moveImm op variant =>
      apply lower_name_append
      · cases op <;> decide
      · cases variant <;> decide
  | loadScalar op space | storeScalar op space | loadVector op space | storeVector op space =>
      apply lower_name_append
      · apply lower_name_append
        · decide
        · cases op <;> decide
      · cases space <;> decide
  | GLV32W space | SSV32W space =>
      apply lower_name_append
      · decide
      · cases space <;> decide
  | _ => decide

theorem chunk_name {name : String} (lower : isLowerName name.toList) :
    Chunk LexToken Delimited name.toList [.Identifier name] := by
  cases text : name.toList with
  | nil => rw [text] at lower; cases lower
  | cons first rest =>
      rw [text, isLowerName, Bool.and_eq_true, Bool.and_eq_true] at lower
      obtain ⟨⟨start, inside⟩, -⟩ := lower
      have chunk := chunk_identifier (by simpa using start) (List.all_eq_true.mp inside)
      rwa [← text, String.ofList_toList, text] at chunk

theorem map_lower {name : String} (lower : isLowerName name.toList) :
    name.toList.map Char.toLower = name.toList := by
  cases text : name.toList with
  | nil => rfl
  | cons first rest =>
      rw [text, isLowerName, Bool.and_eq_true] at lower
      have same (symbol : Char) (member : symbol ∈ first :: rest) : symbol.toLower = id symbol :=
        of_decide_eq_true (List.all_eq_true.mp lower.2 symbol member)
      exact (List.map_congr_left same).trans (List.map_id _)

theorem to_lower_name {name : String} (lower : isLowerName name.toList) :
    name.toLower = name := by
  apply String.toList_injective
  change (name.map Char.toLower).toList = name.toList
  rw [String.toList_map, map_lower lower]

theorem print_reg_name (register : Register) :
    printRegName register = (getRegisterName register).toList :=
  map_lower (register_names register (mem_all_registers register))

end Names

section Operands

def literalText (literal : Literal) : List Char :=
  match literal.sign with
  | .none => Nat.toDigits 10 literal.magnitude
  | .plus => '+' :: Nat.toDigits 10 literal.magnitude
  | .minus => '-' :: Nat.toDigits 10 literal.magnitude

def operandText : WrittenOperand → List Char
  | .register name => (getRegisterName name).toList
  | .literal number => literalText number
  | .memory offset base =>
      (offset.map literalText).getD [] ++ '(' :: (getRegisterName base).toList ++ [')']

/-- A symbol that is a token of its own, whatever follows. -/
theorem chunk_symbol {symbol : Char} {token : AsmToken} {follows : List Char → Prop}
    (found : ∀ text, follows text → LexToken (symbol :: text) = some (token, text)) :
    Chunk LexToken follows [symbol] [token] :=
  chunk_token (by simp) found

theorem delimited_symbol {symbol : Char} (outside : isIdentifierChar symbol = false)
    (text : List Char) : Delimited (symbol :: text) :=
  stops_cons outside

/-- A minus sign is a token of its own before anything but an arrow head. -/
theorem chunk_minus : Chunk LexToken (fun text => text.head? ≠ some '>') ['-'] [.Minus] := by
  apply chunk_symbol
  intro text notArrow
  have second : LexPunctuation '-' text = (.Minus, text) := by
    simp [LexPunctuation, withSecond, notArrow]
  exact congrArg some second

theorem digits_head_ne (value : Nat) (rest : List Char) :
    (Nat.toDigits 10 value ++ rest).head? ≠ some '>' := by
  cases digits : Nat.toDigits 10 value with
  | nil => exact absurd digits Nat.toDigits_ne_nil
  | cons first others =>
      have digit : first.isDigit := to_digits_are_digits (by rw [digits]; simp)
      rw [List.cons_append, List.head?_cons]
      rintro same
      cases same
      cases digit

theorem chunk_literal (literal : Literal) :
    Chunk LexToken Delimited (literalText literal) literal.tokens := by
  obtain ⟨sign, magnitude⟩ := literal
  cases sign with
  | none => exact chunk_decimal magnitude
  | plus =>
      have plus : Chunk LexToken (fun _ => True) ['+'] [.Plus] := chunk_symbol fun _ _ => rfl
      exact plus.append (chunk_decimal magnitude) fun _ _ => trivial
  | minus => exact chunk_minus.append (chunk_decimal magnitude) fun rest _ => digits_head_ne _ rest

theorem chunk_operand (operand : WrittenOperand) :
    Chunk LexToken Delimited (operandText operand) operand.tokens := by
  have register (name : Register) := chunk_name (register_names name (mem_all_registers name))
  cases operand with
  | register name => exact register name
  | literal number => exact chunk_literal number
  | memory offset base =>
      have opening : Chunk LexToken (fun _ => True) ['('] [.LParen] := chunk_symbol fun _ _ => rfl
      have closing : Chunk LexToken Delimited [')'] [.RParen] := chunk_symbol fun _ _ => rfl
      have inner := opening.append ((register base).append closing fun rest _ =>
        delimited_symbol rfl rest) fun _ _ => trivial
      cases offset with
      | none => exact inner
      | some literal =>
          have whole := (chunk_literal literal).append inner fun _ _ => delimited_symbol rfl _
          simpa [operandText, WrittenOperand.tokens] using whole

theorem chunk_operands (operands : List WrittenOperand) :
    Chunk LexToken Delimited (separated (operands.map operandText)) (operandTokens operands) := by
  induction operands with
  | nil => exact chunk_nil
  | cons operand others induction =>
      cases others with
      | nil => exact chunk_operand operand
      | cons next more =>
          have comma : Chunk LexToken (fun _ => True) [','] [.Comma] :=
            chunk_symbol fun _ _ => rfl
          have blank := induction.skip (@lex_blank ' ' rfl)
          have rest := comma.append blank fun _ _ => trivial
          exact (chunk_operand operand).append rest fun _ _ => delimited_symbol rfl _

end Operands

section Statements

def statementText (statement : Statement) : List Char :=
  '\t' :: statement.mnemonic.toList ++
    if statement.operands = [] then [] else ' ' :: separated (statement.operands.map operandText)

theorem chunk_statement {statement : Statement} (lower : isLowerName statement.mnemonic.toList) :
    Chunk LexToken Delimited (statementText statement)
      (.Identifier statement.mnemonic :: operandTokens statement.operands) := by
  have name := (chunk_name lower).skip (@lex_blank '\t' rfl)
  rw [statementText]
  by_cases bare : statement.operands = []
  · rw [if_pos bare, bare]
    exact name.append chunk_nil fun _ follow => follow
  · rw [if_neg bare]
    have blank := (chunk_operands statement.operands).skip (@lex_blank ' ' rfl)
    exact name.append blank fun _ _ => delimited_symbol rfl _

theorem operand_token_ne {operand : WrittenOperand} {token : AsmToken}
    (member : token ∈ operand.tokens) : token ≠ .EndOfStatement := by
  have number {literal : Literal} (inside : token ∈ literal.tokens) :
      token ≠ .EndOfStatement := by
    obtain ⟨sign, magnitude⟩ := literal
    have integer : intToken magnitude ≠ .EndOfStatement := by
      unfold intToken
      split <;> simp
    cases sign <;> simp [Literal.tokens] at inside
    · rw [inside]
      exact integer
    · rcases inside with rfl | rfl
      · simp
      · exact integer
    · rcases inside with rfl | rfl
      · simp
      · exact integer
  cases operand with
  | register name => simp [WrittenOperand.tokens] at member; simp [member]
  | literal literal => exact number member
  | memory offset base =>
      rw [WrittenOperand.tokens, List.mem_append] at member
      rcases member with inside | outside
      · cases offset with
        | none => simp at inside
        | some literal => exact number inside
      · simp at outside
        rcases outside with rfl | rfl | rfl <;> simp

theorem operand_tokens_ne {operands : List WrittenOperand} {token : AsmToken}
    (member : token ∈ operandTokens operands) : token ≠ .EndOfStatement := by
  induction operands with
  | nil => cases member
  | cons operand others induction =>
      cases others with
      | nil => exact operand_token_ne member
      | cons next more =>
          rw [operandTokens, List.mem_append, List.mem_cons] at member
          · rcases member with own | rfl | later
            · exact operand_token_ne own
            · simp
            · exact induction later
          · simp

theorem lex_statement {statement : Statement} (lower : isLowerName statement.mnemonic.toList) :
    lexText (statementText statement) = .Identifier statement.mnemonic ::
      (operandTokens statement.operands ++ .EndOfStatement :: [.Eof]) := by
  have reads := (chunk_statement lower).reads stops_nil rfl
  have scanned := scan_eq_of_reads reads (le_refl _)
  have open_ : (AsmToken.Identifier statement.mnemonic ::
      operandTokens statement.operands).getLast? ≠ some .EndOfStatement := by
    intro last
    have member := List.mem_of_getLast? last
    rcases List.mem_cons.mp member with same | inside
    · cases same
    · exact operand_tokens_ne inside rfl
  rw [lexText]
  simp only [scanned]
  split
  · next nothing => simp at nothing
  · next ended => exact absurd ended open_
  · simp

theorem assemble_statement (context : MCContext) {statement : Statement}
    (lower : isLowerName statement.mnemonic.toList)
    (lexes : ∀ operand ∈ statement.operands, operand.Lexes) :
    assembleText context (statementText statement) =
      MatchAndEmitInstruction statement.mnemonic
        (statement.operands.map WrittenOperand.parsed) := by
  rw [assembleText, lex_statement lower]
  obtain ⟨fuel, enough⟩ : ∃ fuel, (AsmToken.Identifier statement.mnemonic ::
      (operandTokens statement.operands ++ .EndOfStatement :: [.Eof])).length = fuel + 3 :=
    ⟨(operandTokens statement.operands).length, by simp⟩
  have ends : Run context (fuel + 2) [.EndOfStatement, .Eof] = some [] := rfl
  have kept : skipComments (.Identifier statement.mnemonic ::
      (operandTokens statement.operands ++ .EndOfStatement :: [.Eof])) =
        .Identifier statement.mnemonic ::
          (operandTokens statement.operands ++ .EndOfStatement :: [.Eof]) := rfl
  rw [enough, kept, Run, parse_statement_line, to_lower_name lower, parse_statement, if_pos lexes,
    Option.bind_some]
  · cases emits : MatchAndEmitInstruction statement.mnemonic
        (statement.operands.map WrittenOperand.parsed) with
    | none => simp only [Option.map_none, Option.bind_none]
    | some emitted =>
        simp only [Option.map_some, Option.bind_some, ends, List.append_nil]
  · simp

end Statements

section Placement

/-- The loads, stores and address computations, whose second operand is in memory. -/
def takesMemory (mnemonic : String) : Bool :=
  ["load", "stor", "_lea", "leah", "leal"].contains (String.ofList (mnemonic.toList.take 4))

/-- The bytes of a text as characters, which evaluate faster than the text is decoded. -/
def byteChars (text : String) : List Char :=
  text.toByteArray.data.toList.map fun byte => Char.ofNat byte.toNat

theorem mnemonic_byte_chars : ∀ entry ∈ matchTable,
    String.ofList (byteChars entry.mnemonic) = entry.mnemonic := by
  decide +kernel

theorem memory_positions_of_bytes : ∀ entry ∈ matchTable,
    (entry.classes.map fun kind => decide (kind = .MCK_Mem)) =
      if takesMemory (String.ofList (byteChars entry.mnemonic)) then [false, true]
      else entry.classes.map fun _ => false := by
  simp only [takesMemory, String.toList_ofList]
  decide +kernel

theorem memory_positions (entry : Matchable) (listed : entry ∈ matchTable) :
    (entry.classes.map fun kind => decide (kind = .MCK_Mem)) =
      if takesMemory entry.mnemonic then [false, true] else entry.classes.map fun _ => false := by
  have positions := memory_positions_of_bytes entry listed
  rwa [mnemonic_byte_chars entry listed] at positions

/-- Entries of one mnemonic take memory operands in the same positions. -/
theorem memory_position_unique {entry other : Matchable} (listed : entry ∈ matchTable)
    (otherListed : other ∈ matchTable) (same : entry.mnemonic = other.mnemonic) {position : Nat}
    {kind : MatchClassKind} (present : entry.classes[position]? = some kind)
    (memory : other.classes[position]? = some .MCK_Mem) : kind = .MCK_Mem := by
  have own := congrArg (fun kinds => kinds[position]?) (memory_positions entry listed)
  have others := congrArg (fun kinds => kinds[position]?) (memory_positions other otherListed)
  simp only [List.getElem?_map, present, memory, Option.map_some, decide_true, same] at own others
  by_cases takes : takesMemory other.mnemonic
  · rw [if_pos takes] at own others
    rw [← others] at own
    exact of_decide_eq_true (Option.some.inj own)
  · rw [if_neg takes, List.getElem?_map, memory] at others
    cases others

theorem is_memory_of_matches {decl : OperandDecl} {operand : WrittenOperand}
    (matched : Matches decl operand) :
    operand.isMemory = decide (matchClass decl.type = .MCK_Mem) := by
  rw [Matches] at matched
  cases operand <;> cases kind : matchClass decl.type <;> rw [kind] at matched <;>
    first | rfl | cases matched

/-- Matched operands stand where the parser looks for them. -/
theorem placed_of_matches {opcode : Opcode} (listed : opcode ∈ decoderTable32)
    {operands : List WrittenOperand} (matched : List.Forall₂ Matches opcode.asmOperands operands)
    (position : Nat) (operand : WrittenOperand) (found : operands[position]? = some operand) :
    operand.isMemory = hasCustomParser opcode.mnemonic position := by
  have member : Matchable.record opcode ∈ matchTable := by
    rw [matchTable]
    exact List.mem_append_left _ (List.mem_map.mpr ⟨opcode, listed, rfl⟩)
  obtain ⟨decl, declared⟩ : ∃ decl, opcode.asmOperands[position]? = some decl := by
    have bounded := (List.getElem?_eq_some_iff.mp found).1
    rw [← matched.length_eq] at bounded
    exact ⟨_, List.getElem?_eq_getElem bounded⟩
  have paired : (decl, operand) ∈ opcode.asmOperands.zip operands := by
    apply List.mem_of_getElem?
    exact List.getElem?_zip_eq_some.mpr ⟨declared, found⟩
  have kind : (Matchable.record opcode).classes[position]? = some (matchClass decl.type) := by
    rw [Matchable.classes, List.getElem?_map, declared, Option.map_some]
  rw [is_memory_of_matches (List.forall₂_zip matched paired), Bool.eq_iff_iff,
    decide_eq_true_iff, hasCustomParser, List.any_eq_true]
  constructor
  · intro memory
    refine ⟨.record opcode, member, ?_⟩
    rw [kind, memory]
    simp [Matchable.mnemonic]
  · rintro ⟨entry, otherMember, accepted⟩
    rw [Bool.and_eq_true, decide_eq_true_iff, decide_eq_true_iff] at accepted
    exact memory_position_unique member otherMember accepted.1.symm kind accepted.2

end Placement

section Printing

variable {symbolName : Nat → List Char} {inst : MCInst} {opNo : Nat}

theorem print_decimal_written {value : Int} (fits : SignedFits 32 value) :
    printDecimal (toInt32 value) = literalText (writtenLiteral value) := by
  have same : toInt32 value = value := by
    rw [toInt32, BitVec.toInt_ofInt]
    exact (bmod_eq_self_iff (by decide) value).mpr fits
  rw [same, printDecimal, writtenLiteral]
  by_cases negative : value < 0
  · rw [if_pos negative, if_pos negative]
    rfl
  · rw [if_neg negative, if_neg negative]
    rfl

theorem print_by_type {decl : OperandDecl} {operand : WrittenOperand}
    (matched : Matches decl operand) (printed : Printed operand)
    (slice : (inst.operands.drop opNo).take (machineOperands operand).length =
      machineOperands operand) :
    printByType symbolName decl.type inst opNo = some (operandText operand) := by
  have kind := is_memory_of_matches matched
  have plain (other : operand.isMemory = false) :
      printByType symbolName decl.type inst opNo = printOperand symbolName inst opNo := by
    rw [other] at kind
    obtain ⟨varName, type⟩ := decl
    cases type <;> first | rfl | cases kind
  have addressed (memory : operand.isMemory = true) :
      printByType symbolName decl.type inst opNo = printMemOperand symbolName inst opNo := by
    rw [memory] at kind
    obtain ⟨varName, type⟩ := decl
    cases type with
    | reg cls => cases cls <;> cases kind
    | SIMM9OP | SIMM16OP | brtarget | calltarget => cases kind
    | _ => rfl
  cases printed with
  | register name =>
      have present := operand_of_slice slice
      rw [plain rfl, printOperand, present]
      exact congrArg some (print_reg_name name)
  | literal value fits =>
      rw [machine_operands_literal fits] at slice
      have present := operand_of_slice slice
      rw [plain rfl, printOperand, present]
      exact congrArg some (print_decimal_written fits)
  | memory offset base fits =>
      rw [machine_operands_memory fits] at slice
      obtain ⟨first, second⟩ := operands_of_slice slice
      rw [addressed rfl, printMemOperand, printOperand, printOperand, first, second]
      by_cases zero : offset = 0
      · simp [zero, operandText, print_reg_name]
      · simp [zero, operandText, print_reg_name, print_decimal_written fits]

theorem print_decls {decls : List OperandDecl} {operands : List WrittenOperand}
    (shaped : List.Forall₂ (fun decl operand => Matches decl operand ∧ Printed operand ∧
      (decl.type ≠ .ABSh ∧ decl.type ≠ .ABSl)) decls operands)
    {rest : List MCOperand}
    (whole : inst.operands.drop opNo = operands.flatMap machineOperands ++ rest) :
    ((numberOperands opNo decls).mapM fun entry =>
      printByType symbolName entry.2.type inst entry.1) = some (operands.map operandText) := by
  induction shaped generalizing opNo with
  | nil => rfl
  | @cons decl operand decls operands head _ induction =>
      obtain ⟨matched, printed, relative⟩ := head
      rw [List.flatMap_cons, List.append_assoc] at whole
      have slice : (inst.operands.drop opNo).take (machineOperands operand).length =
          machineOperands operand := by
        rw [whole, List.take_left]
      have later : inst.operands.drop (opNo + decl.type.numMIOperands) =
          operands.flatMap machineOperands ++ rest := by
        rw [← machine_operands_length matched relative, ← List.drop_drop, whole, List.drop_left]
      rw [numberOperands, List.mapM_cons, print_by_type matched printed slice, induction later]
      rfl

/-- Tied operands at the end of a list take no number from the others. -/
theorem filter_untied {own copies : List OperandDecl}
    (untied : ∀ decl ∈ own, (tiedTo decl.name).isNone)
    (tied : ∀ decl ∈ copies, (tiedTo decl.name).isSome) (opNo : Nat) :
    (numberOperands opNo (own ++ copies)).filter (fun entry => (tiedTo entry.2.name).isNone) =
      numberOperands opNo own := by
  induction own generalizing opNo with
  | nil =>
      rw [List.nil_append, numberOperands, List.filter_eq_nil_iff]
      intro entry member
      have listed : entry.2 ∈ copies := by
        rw [← EncodeDecode.number_operands_map_snd copies opNo]
        exact List.mem_map.mpr ⟨entry, member, rfl⟩
      have copy := tied entry.2 listed
      rw [Option.isSome_iff_ne_none] at copy
      simpa using copy
  | cons decl own induction =>
      have kept := induction fun other member => untied other (by simp [member])
      rw [List.cons_append, numberOperands, numberOperands, List.filter_cons,
        if_pos (untied decl (by simp)), kept]

theorem asm_mi_operands {opcode : Opcode} (listed : opcode ∈ decoderTable32) :
    asmMIOperands opcode = numberOperands 0 opcode.asmOperands := by
  obtain ⟨whole, -, named⟩ := sound_text opcode listed
  rw [asmMIOperands, miOperands, whole]
  apply filter_untied fun decl member => (named decl member).1
  intro decl member
  exact (List.mem_filter.mp member).2

theorem print_instruction {statement : Statement} {rest : List MCOperand}
    (listed : inst.opcode ∈ decoderTable32) (named : inst.opcode.mnemonic = statement.mnemonic)
    (shaped : List.Forall₂ (fun decl operand => Matches decl operand ∧ Printed operand)
      inst.opcode.asmOperands statement.operands)
    (whole : inst.operands = statement.operands.flatMap machineOperands ++ rest) :
    printInstruction symbolName inst = some (statementText statement) := by
  have relative := (sound_text inst.opcode listed).2.2
  have shapes : List.Forall₂ (fun decl operand => Matches decl operand ∧ Printed operand ∧
      (decl.type ≠ .ABSh ∧ decl.type ≠ .ABSl)) inst.opcode.asmOperands statement.operands := by
    rw [List.forall₂_iff_zip] at shaped ⊢
    refine ⟨shaped.1, fun paired => ?_⟩
    obtain ⟨matched, printed⟩ := shaped.2 paired
    exact ⟨matched, printed, (relative _ (List.of_mem_zip paired).1).2.2⟩
  have texts := @print_decls symbolName inst 0 _ _ shapes rest whole
  rw [printInstruction, asm_mi_operands listed, texts, Option.map_some, statementText, named]
  simp only [List.map_eq_nil_iff]

theorem lexes_of_printed {operand : WrittenOperand} (printed : Printed operand) :
    operand.Lexes := by
  have small {value : Int} (fits : SignedFits 32 value) :
      (writtenLiteral value).magnitude < 2 ^ 64 := by
    obtain ⟨low, high⟩ := fits
    change value.natAbs < 2 ^ 64
    omega
  cases printed with
  | register name => simp [WrittenOperand.Lexes, WrittenOperand.literal?]
  | literal value fits => simpa [WrittenOperand.Lexes, WrittenOperand.literal?] using small fits
  | memory offset base fits =>
      by_cases zero : offset = 0
      · simp [WrittenOperand.Lexes, WrittenOperand.literal?, zero]
      · simpa [WrittenOperand.Lexes, WrittenOperand.literal?, zero] using small fits

end Printing

end NaplesPU.PrintedText
