import NaplesPU.AsmLexer
import NaplesPU.AsmStrings
import NaplesPU.DecoderTable
import NaplesPU.MCCodeEmitter

/-!
The assembler of one statement: operands are parsed into registers, expressions
and memory operands, the record is matched by mnemonic and operand kinds, its
machine operands are built and the instruction is encoded. An error, which fails
the statement, is `none`. No step looks at the size of a constant, and none at
the class of the base register of a memory operand.
-/

namespace NaplesPU.AsmParser

open ByteMemory RegisterInfo InstrFormats InstrInfo DecoderTable FixupKinds MCCodeEmitter
open AsmLexer AsmStrings

inductive UnaryOp where
  | LNot | Minus | Not | Plus
deriving DecidableEq, Repr

inductive BinaryOp where
  | Add | And | Div | EQ | GT | GTE | LAnd | LOr | LShr | LT | LTE | Mod | Mul | NE | Or | Shl
  | Sub | Xor
deriving DecidableEq, Repr

/-- The kind of a reference that is written behind an at-sign, by its name in small letters. -/
abbrev VariantKind := String

def variantKindNames : List String :=
  ["dtprel", "dtpoff", "got", "gotoff", "gotrel", "gotpcrel", "gottpoff", "indntpoff", "ntpoff",
    "gotntpoff", "plt", "tlscall", "tlsdesc", "tlsgd", "tlsld", "tlsldm", "tpoff", "tprel",
    "tlvp", "tlvppage", "tlvppageoff", "page", "pageoff", "gotpage", "gotpageoff", "imgrel",
    "secrel32", "size", "abs8", "l", "h", "ha", "high", "higha", "higher", "highera", "highest",
    "highesta", "got@l", "got@h", "got@ha", "local", "tocbase", "toc", "toc@l", "toc@h", "toc@ha",
    "tls", "dtpmod", "tprel@l", "tprel@h", "tprel@ha", "tprel@high", "tprel@higha",
    "tprel@higher", "tprel@highera", "tprel@highest", "tprel@highesta", "dtprel@l", "dtprel@h",
    "dtprel@ha", "dtprel@high", "dtprel@higha", "dtprel@higher", "dtprel@highera",
    "dtprel@highest", "dtprel@highesta", "got@tprel", "got@tprel@l", "got@tprel@h",
    "got@tprel@ha", "got@dtprel", "got@dtprel@l", "got@dtprel@h", "got@dtprel@ha", "got@tlsgd",
    "got@tlsgd@l", "got@tlsgd@h", "got@tlsgd@ha", "got@tlsld", "got@tlsld@l", "got@tlsld@h",
    "got@tlsld@ha", "gdgot", "gdplt", "iegot", "ie", "ldgot", "ldplt", "pcrel", "none",
    "got_prel", "target1", "target2", "prel31", "sbrel", "tlsldo", "lo8", "hi8", "hlo8",
    "function", "global", "typeindex", "event", "gotpcrel32@lo", "gotpcrel32@hi", "rel32@lo",
    "rel32@hi", "rel64"]

def getVariantKindForName (name : String) : Option VariantKind :=
  if name.toLower ∈ variantKindNames then some name.toLower else none

/-- An expression as it is written; symbols are numbers of the symbol table. -/
inductive AsmExpr where
  | constant (value : BitVec 64)
  | symbolRef (symbol : Nat) (variant : Option VariantKind := none)
  | unary (op : UnaryOp) (operand : AsmExpr)
  | binary (op : BinaryOp) (left right : AsmExpr)
deriving DecidableEq, Repr

/-- What the parser asks of the assembler's context: the symbol of a name, that without a name,
which only a build without assertions has, the constant a name was assigned if it is such a
variable, the directional label before or after the statement, and the label of the statement
itself, which `.` stands for. The last is the number that a floating point literal stands for, as
the bits of a double; an assertion rejects some literals that the lexer lets through. -/
structure MCContext where
  getOrCreateSymbol : String → Nat
  unnamedSymbol : Option Nat
  variableValue : String → Option (BitVec 64)
  directionalLocalSymbol : BitVec 64 → Bool → Option Nat
  tempSymbol : Nat
  realValue : String → Option (BitVec 64)

def noSymbols : MCContext :=
  ⟨fun _ => 0, none, fun _ => none, fun _ _ => none, 0, fun _ => none⟩

def truth (holds : Bool) : BitVec 64 := if holds then 1 else 0

/-- A comparison gives minus one when it holds. -/
def comparison (holds : Bool) : BitVec 64 := if holds then -1 else 0

def evaluateBinary (op : BinaryOp) (left right : BitVec 64) : Option (BitVec 64) :=
  match op with
  | .Add => some (left + right)
  | .And => some (left &&& right)
  | .Div => if right = 0 then none else some (left.sdiv right)
  | .EQ => some (comparison (left = right))
  | .GT => some (comparison (right.slt left))
  | .GTE => some (comparison (right.sle left))
  | .LAnd => some (truth (left ≠ 0 && right ≠ 0))
  | .LOr => some (truth (left ≠ 0 || right ≠ 0))
  | .LShr => some (left >>> right)
  | .LT => some (comparison (left.slt right))
  | .LTE => some (comparison (left.sle right))
  | .Mod => if right = 0 then none else some (left.srem right)
  | .Mul => some (left * right)
  | .NE => some (comparison (left ≠ right))
  | .Or => some (left ||| right)
  | .Shl => some (left <<< right)
  | .Sub => some (left - right)
  | .Xor => some (left ^^^ right)

/-- The symbol, if any, and the constant that an expression is the sum of. An expression
with two symbols is no such sum. No relocation of the target depends on a variant. -/
def AsmExpr.evaluateAsRelocatable : AsmExpr → Option (Option Nat × BitVec 64)
  | .constant value => some (none, value)
  | .symbolRef symbol _ => some (some symbol, 0)
  | .unary op operand =>
      operand.evaluateAsRelocatable.bind fun value =>
        match op, value with
        | .LNot, (none, number) => some (none, truth (number = 0))
        | .Minus, (none, number) => some (none, -number)
        | .Not, (none, number) => some (none, ~~~number)
        | .Plus, value => some value
        | _, (some _, _) => none
  | .binary op left right =>
      left.evaluateAsRelocatable.bind fun leftValue =>
        right.evaluateAsRelocatable.bind fun rightValue =>
          match leftValue, rightValue, op with
          | (none, first), (none, second), op =>
              (evaluateBinary op first second).map fun value => (none, value)
          | (some symbol, first), (none, second), .Add => some (some symbol, first + second)
          | (none, first), (some symbol, second), .Add => some (some symbol, first + second)
          | (some symbol, first), (none, second), .Sub => some (some symbol, first - second)
          | _, _, _ => none

/-- A constant expression is folded when its parsing ends. -/
def AsmExpr.fold (expression : AsmExpr) : AsmExpr :=
  match expression.evaluateAsRelocatable with
  | some (none, value) => .constant value
  | _ => expression

/-- The precedence of a binary operator, zero for every other token. -/
def getBinOpPrecedence : AsmToken → Nat × BinaryOp
  | .AmpAmp => (2, .LAnd)
  | .PipePipe => (1, .LOr)
  | .EqualEqual => (3, .EQ)
  | .ExclaimEqual | .LessGreater => (3, .NE)
  | .Less => (3, .LT)
  | .LessEqual => (3, .LTE)
  | .Greater => (3, .GT)
  | .GreaterEqual => (3, .GTE)
  | .Plus => (4, .Add)
  | .Minus => (4, .Sub)
  | .Pipe => (5, .Or)
  | .Caret => (5, .Xor)
  | .Amp => (5, .And)
  | .Star => (6, .Mul)
  | .Slash => (6, .Div)
  | .Percent => (6, .Mod)
  | .LessLess => (6, .Shl)
  | .GreaterGreater => (6, .LShr)
  | _ => (0, .Add)

def headPrecedence (tokens : List AsmToken) : Nat :=
  match tokens with
  | token :: _ => (getBinOpPrecedence token).1
  | [] => 0

section Expressions

variable (context : MCContext)

/-- The generic parser drops the comments in front of the token that it goes on to; the parser of
the target does not. -/
def skipComments (tokens : List AsmToken) : List AsmToken := tokens.dropWhile (· = .Comment)

/-- A name, which may be quoted, or begin with a `$` or `@` that stands right before it. -/
def parseIdentifier : List AsmToken → Option (String × List AsmToken)
  | .Dollar true :: .Identifier name :: rest => some ("$" ++ name, skipComments rest)
  | .At true :: .Identifier name :: rest => some ("@" ++ name, skipComments rest)
  | .Identifier name :: rest => some (name, skipComments rest)
  | .String contents :: rest => some (contents, skipComments rest)
  | _ => none

/-- What stands before the first at-sign of a name, and what behind it. -/
def splitVariant (name : String) : String × String :=
  (String.ofList (name.toList.takeWhile (· ≠ '@')),
    String.ofList (name.toList.dropWhile (· ≠ '@')).tail)

/-- A name is a symbol, unless it is a variable whose value is known. -/
def createSymbolRef (name : String) (variant : Option VariantKind) : Option AsmExpr :=
  match variant, context.variableValue name with
  | none, some value => some (.constant value)
  | _, _ =>
      if name = "" then context.unnamedSymbol.map (.symbolRef · variant)
      else some (.symbolRef (context.getOrCreateSymbol name) variant)

def symbolReference (identifier : String) (split : String × String) : Option AsmExpr :=
  if identifier = "" then none
  else if split.2 = "" then createSymbolRef context identifier none
  else
    (getVariantKindForName split.2).bind fun variant =>
      createSymbolRef context split.1 (some variant)

/-- A name with its variant, which stands in the name itself, or behind a quoted name. -/
def parseSymbol (tokens : List AsmToken) : Option (AsmExpr × List AsmToken) :=
  (parseIdentifier tokens).bind fun (identifier, rest) =>
    match tokens, rest with
    | .String _ :: _, .At _ :: afterAt =>
        (parseIdentifier (skipComments afterAt)).bind fun (variant, left) =>
          (symbolReference context identifier (identifier, variant)).map fun symbol =>
            (symbol, left)
    | .String _ :: _, _ =>
        (symbolReference context identifier ("", "")).map fun symbol => (symbol, rest)
    | _, _ =>
        (symbolReference context identifier (splitVariant identifier)).map fun symbol =>
          (symbol, rest)

/-- The variant in the name after a number, whatever the name is; an unknown one is an error. -/
def labelVariant (name : String) : Option (Option VariantKind) :=
  if '@' ∈ name.toList then (getVariantKindForName (splitVariant name).2).map some
  else some none

/-- A number, or the directional label that the number and the letter after it name. -/
def parseInteger (value : BitVec 64) (tokens : List AsmToken) :
    Option (AsmExpr × List AsmToken) :=
  match tokens with
  | .Identifier name :: rest =>
      (labelVariant name).bind fun variant =>
        let letter := (splitVariant name).1
        if letter = "f" ∨ letter = "b" then
          (context.directionalLocalSymbol value (letter = "b")).map fun symbol =>
            (.symbolRef symbol variant, skipComments rest)
        else some (.constant value, tokens)
  | _ => some (.constant value, tokens)

/-- Gives the symbols of an expression a variant. It is an error if one has a variant already;
without a symbol there is no result. -/
def applyModifierToExpr (variant : VariantKind) : AsmExpr → Option (Option AsmExpr)
  | .constant _ => some none
  | .symbolRef _ (some _) => none
  | .symbolRef symbol none => some (some (.symbolRef symbol variant))
  | .unary op operand =>
      (applyModifierToExpr variant operand).map fun modified => modified.map (.unary op)
  | .binary op left right =>
      (applyModifierToExpr variant left).bind fun newLeft =>
        (applyModifierToExpr variant right).map fun newRight =>
          match newLeft, newRight with
          | none, none => none
          | _, _ => some (.binary op (newLeft.getD left) (newRight.getD right))

/-- A variant behind a whole expression. -/
def parseModifier (expression : AsmExpr) (tokens : List AsmToken) :
    Option (AsmExpr × List AsmToken) :=
  match tokens with
  | .At _ :: rest =>
      match skipComments rest with
      | .Identifier name :: left =>
          (getVariantKindForName name).bind fun variant =>
            (applyModifierToExpr variant expression).join.map fun modified =>
              (modified, skipComments left)
      | _ => none
  | _ => some (expression, tokens)

mutual

def parsePrimaryExpr : Nat → List AsmToken → Option (AsmExpr × List AsmToken)
  | 0, _ => none
  | _, [] => none
  | fuel + 1, token :: rest =>
      match token with
      | .Exclaim => (parsePrimaryExpr fuel (skipComments rest)).map fun (operand, left) =>
          (.unary .LNot operand, left)
      | .Minus => (parsePrimaryExpr fuel (skipComments rest)).map fun (operand, left) =>
          (.unary .Minus operand, left)
      | .Plus => (parsePrimaryExpr fuel (skipComments rest)).map fun (operand, left) =>
          (.unary .Plus operand, left)
      | .Tilde => (parsePrimaryExpr fuel (skipComments rest)).map fun (operand, left) =>
          (.unary .Not operand, left)
      | .Dollar _ | .At _ | .String _ | .Identifier _ => parseSymbol context (token :: rest)
      | .Integer value => parseInteger context (BitVec.ofNat 64 value) (skipComments rest)
      | .Real literal => (context.realValue literal).map fun value =>
          (.constant value, skipComments rest)
      | .Dot => some (.symbolRef context.tempSymbol, skipComments rest)
      | .LParen =>
          match parseExpressionWith fuel (skipComments rest) with
          | some (inner, .RParen :: left) => some (inner, skipComments left)
          | _ => none
      | .LBrac =>
          match parseExpressionWith fuel (skipComments rest) with
          | some (inner, .RBrac :: left) => some (inner, skipComments left)
          | _ => none
      | _ => none

/-- Extends an expression by the operators of at least a precedence. -/
def parseBinOpRHS : Nat → Nat → AsmExpr → List AsmToken → Option (AsmExpr × List AsmToken)
  | 0, _, _, _ => none
  | _, _, expression, [] => some (expression, [])
  | fuel + 1, precedence, expression, token :: rest =>
      if (getBinOpPrecedence token).1 < precedence then some (expression, token :: rest)
      else
        (parsePrimaryExpr fuel (skipComments rest)).bind fun (primary, afterPrimary) =>
          (if (getBinOpPrecedence token).1 < headPrecedence afterPrimary then
            parseBinOpRHS fuel ((getBinOpPrecedence token).1 + 1) primary afterPrimary
          else some (primary, afterPrimary)).bind fun (right, afterRight) =>
            parseBinOpRHS fuel precedence
              (.binary (getBinOpPrecedence token).2 expression right) afterRight

def parseExpressionWith : Nat → List AsmToken → Option (AsmExpr × List AsmToken)
  | 0, _ => none
  | fuel + 1, tokens =>
      (parsePrimaryExpr fuel tokens).bind fun (primary, afterPrimary) =>
        (parseBinOpRHS fuel 1 primary afterPrimary).bind fun (expression, afterOperators) =>
          (parseModifier expression afterOperators).map fun (modified, left) =>
            (modified.fold, left)

end

/-- Every call takes a token or hands all of them to a call that does. -/
def parseExpression (tokens : List AsmToken) : Option (AsmExpr × List AsmToken) :=
  parseExpressionWith context (3 * tokens.length + 3) tokens

end Expressions

inductive NaplesPUOperand where
  | Register (register : Register)
  | Immediate (value : AsmExpr)
  | Memory (base : Register) (offset : Option AsmExpr)
deriving DecidableEq, Repr

/-- A missing offset is zero; a constant becomes an immediate, whatever its size. -/
def addExpr : Option AsmExpr → Option MCOperand
  | none => some (.imm 0)
  | some expression =>
      match expression, expression.evaluateAsRelocatable with
      | .constant value, _ => some (.imm value.toInt)
      | _, some (some symbol, constant) => some (.expr ⟨symbol, constant.toInt⟩)
      | _, _ => none

/-- The machine operands that `addRegOperands`, `addImmOperands` and `addMemOperands`
append. -/
def NaplesPUOperand.addOperands : NaplesPUOperand → Option (List MCOperand)
  | .Register register => some [.reg register]
  | .Immediate value => (addExpr (some value)).map fun operand => [operand]
  | .Memory base offset => (addExpr offset).map fun operand => [.reg base, operand]

inductive MatchClassKind where
  | MCK_GPR32 | MCK_VR512W | MCK_Imm | MCK_Mem
deriving DecidableEq, Repr

def matchClass : OperandType → MatchClassKind
  | .reg .GPR32 => .MCK_GPR32
  | .reg .VR512W => .MCK_VR512W
  | .SIMM9OP | .SIMM16OP | .brtarget | .calltarget => .MCK_Imm
  | .MEMri | .V16MEMri | .LEAri | .ABSh | .ABSl => .MCK_Mem

/-- The entries of the matcher: the records, and the pseudo instruction `lea`. -/
inductive Matchable where
  | record (opcode : Opcode)
  | LOAD_EFFECTIVE_ADDR_SYM
deriving DecidableEq, Repr

def Matchable.mnemonic : Matchable → String
  | .record opcode => opcode.mnemonic
  | .LOAD_EFFECTIVE_ADDR_SYM => "lea"

def Matchable.classes : Matchable → List MatchClassKind
  | .record opcode => opcode.asmOperands.map fun decl => matchClass decl.type
  | .LOAD_EFFECTIVE_ADDR_SYM => [.MCK_GPR32, .MCK_Imm]

def Matchable.operandNames : Matchable → List Var
  | .record opcode => opcode.operandList.map OperandDecl.name
  | .LOAD_EFFECTIVE_ADDR_SYM => [.dst, .addr]

/-- The records that no word is decoded to. -/
def asmParserRecords : List Opcode :=
  [.MOVE_VS_M_32, .MOVE_VV_M_32, .READMR, .WRITEMR, .LOAD_EFFECTIVE_ADDR, .LEAH, .LEAL]

/-- Among entries of one mnemonic and the same operand kinds the first record wins: the
masked moves are in the table after the moves. -/
def matchTable : List Matchable :=
  decoderTable32.map .record ++ (asmParserRecords.map .record ++ [.LOAD_EFFECTIVE_ADDR_SYM])

def validateOperandClass : MatchClassKind → NaplesPUOperand → Bool
  | .MCK_GPR32, .Register register => register.cls = .GPR32
  | .MCK_VR512W, .Register register => register.cls = .VR512W
  | .MCK_Imm, .Immediate _ => true
  | .MCK_Mem, .Memory _ _ => true
  | _, _ => false

def operandsValid : List MatchClassKind → List NaplesPUOperand → Bool
  | [], [] => true
  | kind :: kinds, operand :: operands =>
      validateOperandClass kind operand && operandsValid kinds operands
  | _, _ => false

/-- Builds the machine operands; an operand tied to the first copies it. -/
def convertToMCInst : List Var → List NaplesPUOperand → List MCOperand → Option (List MCOperand)
  | [], _, built => some built
  | name :: names, operands, built =>
      if (tiedTo name).isSome then
        built[0]?.bind fun first => convertToMCInst names operands (built ++ [first])
      else
        match operands with
        | [] => none
        | operand :: rest =>
            operand.addOperands.bind fun added => convertToMCInst names rest (built ++ added)

def MatchInstructionImpl (mnemonic : String) (operands : List NaplesPUOperand) :
    Option (Matchable × List MCOperand) :=
  if 3 < operands.length then none
  else
    (matchTable.find? fun entry =>
      entry.mnemonic = mnemonic && operandsValid entry.classes operands).bind fun entry =>
        (convertToMCInst entry.operandNames operands []).map fun built => (entry, built)

/-- The pseudo instruction becomes the two halves, on the expression of its label. -/
def ProcessInstruction : Matchable → List MCOperand → Option (List MCInst)
  | .record opcode, operands => some [⟨opcode, operands⟩]
  | .LOAD_EFFECTIVE_ADDR_SYM, [dest, .expr symbol] =>
      some [⟨.LEAH, [dest, .expr symbol]⟩, ⟨.LEAL, [dest, .expr symbol]⟩]
  | .LOAD_EFFECTIVE_ADDR_SYM, _ => none

/-- What one instruction adds to its section. -/
abbrev Encoded := List Byte × List MCFixup

def MatchAndEmitInstruction (mnemonic : String) (operands : List NaplesPUOperand) :
    Option (List Encoded) :=
  (MatchInstructionImpl mnemonic operands).bind fun (entry, built) =>
    (ProcessInstruction entry built).bind fun insts => insts.mapM encodeInstruction

section Statements

variable (context : MCContext)

/-- The parser of the target goes on to the very next token. -/
def ParseRegister : List AsmToken → Option (Register × List AsmToken)
  | .Identifier name :: rest => (MatchRegisterName name).map fun register => (register, rest)
  | _ => none

def ParseImmediate (tokens : List AsmToken) : Option (AsmExpr × List AsmToken) :=
  match tokens with
  | .Plus :: _ | .Minus :: _ | .Integer _ :: _ => parseExpression context tokens
  | _ => none

def ParseOffset (tokens : List AsmToken) : Option (Option AsmExpr × List AsmToken) :=
  match tokens with
  | .Integer _ :: _ | .Minus :: _ | .Plus :: _ =>
      (parseExpression context tokens).map fun (offset, rest) => (some offset, rest)
  | _ => some (none, tokens)

/-- A name is a label, even when it is the name of a register, and is relative to the
program counter. -/
def ParseMemoryOperand (tokens : List AsmToken) : Option (NaplesPUOperand × List AsmToken) :=
  match tokens with
  | .Identifier _ :: _ =>
      (parseExpression context tokens).map fun (label, rest) =>
        (.Memory PC_REG (some label), rest)
  | _ =>
      (ParseOffset context tokens).bind fun (offset, afterOffset) =>
        match afterOffset with
        | .LParen :: afterParen =>
            match ParseRegister afterParen with
            | some (base, .RParen :: rest) => some (.Memory base offset, rest)
            | _ => none
        | _ => none

def hasCustomParser (mnemonic : String) (position : Nat) : Bool :=
  matchTable.any fun entry => entry.mnemonic = mnemonic && entry.classes[position]? = some .MCK_Mem

/-- A custom parser that fails has reported its error, which fails the statement even
when one of the other parsers succeeds. -/
def ParseOperand (mnemonic : String) (position : Nat) (tokens : List AsmToken) :
    Option (NaplesPUOperand × List AsmToken) :=
  if hasCustomParser mnemonic position then ParseMemoryOperand context tokens
  else
    match ParseRegister tokens, ParseImmediate context tokens with
    | some (register, rest), _ => some (.Register register, rest)
    | none, some (value, rest) => some (.Immediate value, rest)
    | none, none =>
        (parseExpression context tokens).map fun (value, rest) => (.Immediate value, rest)

/-- Operands separated by commas. The loop stops at the first token after an operand that
is no comma, whatever it is. -/
def ParseOperands (mnemonic : String) :
    Nat → Nat → List AsmToken → Option (List NaplesPUOperand × List AsmToken)
  | 0, _, _ => none
  | fuel + 1, position, tokens =>
      (ParseOperand context mnemonic position tokens).bind fun (operand, afterOperand) =>
        match afterOperand with
        | .Comma :: rest =>
            (ParseOperands mnemonic fuel (position + 1) rest).map fun (operands, left) =>
              (operand :: operands, left)
        | _ => some ([operand], afterOperand)

/-- The statement after its mnemonic; every operand takes at least one token. -/
def ParseInstruction (mnemonic : String) (tokens : List AsmToken) :
    Option (List NaplesPUOperand × List AsmToken) :=
  match tokens with
  | .EndOfStatement :: _ => some ([], tokens)
  | _ => ParseOperands context mnemonic tokens.length 0 tokens

/-- A statement that is empty or an instruction, whose mnemonic may be quoted and in any case.
Labels, assignments and directives emit no instruction and are not read. -/
def parseStatement : List AsmToken → Option (List Encoded × List AsmToken)
  | .EndOfStatement :: rest => some ([], skipComments rest)
  | tokens =>
      (parseIdentifier tokens).bind fun (name, rest) =>
        (ParseInstruction context name.toLower rest).bind fun (operands, left) =>
          (MatchAndEmitInstruction name.toLower operands).map fun emitted => (emitted, left)

/-- Statement after statement to the end of the file; every one takes at least one token. -/
def Run : Nat → List AsmToken → Option (List Encoded)
  | 0, _ => none
  | _, .Eof :: _ => some []
  | fuel + 1, tokens =>
      (parseStatement context tokens).bind fun (emitted, rest) =>
        (Run fuel rest).map fun later => emitted ++ later

def assembleText (text : List Char) : Option (List Encoded) :=
  Run context (lexText text).length (skipComments (lexText text))

end Statements

end NaplesPU.AsmParser
