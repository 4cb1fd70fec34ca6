import NaplesPU.AsmParser

/-!
Statements whose operands are registers, integer literals and memory operands
with a literal offset, and what the parser makes of their tokens. A register
name where the mnemonic takes a memory operand, or a register in parentheses
where it takes none, is a label expression: statements do not hold them.
-/

namespace NaplesPU.AsmStatements

open RegisterInfo FixupKinds AsmLexer AsmStrings AsmParser

inductive Sign where
  | none | plus | minus
deriving DecidableEq, Repr

structure Literal where
  sign : Sign
  magnitude : Nat
deriving DecidableEq, Repr

def Literal.value (literal : Literal) : Int :=
  match literal.sign with
  | .none | .plus => literal.magnitude
  | .minus => -literal.magnitude

def Literal.tokens (literal : Literal) : List AsmToken :=
  match literal.sign with
  | .none => [intToken literal.magnitude]
  | .plus => [.Plus, intToken literal.magnitude]
  | .minus => [.Minus, intToken literal.magnitude]

def Literal.expr (literal : Literal) : AsmExpr := .constant (BitVec.ofInt 64 literal.value)

inductive WrittenOperand where
  | register (name : Register)
  | literal (number : Literal)
  | memory (offset : Option Literal) (base : Register)
deriving DecidableEq, Repr

namespace WrittenOperand

def isMemory : WrittenOperand → Bool
  | .memory _ _ => true
  | _ => false

def literal? : WrittenOperand → Option Literal
  | .register _ => none
  | .literal number => some number
  | .memory offset _ => offset

def tokens : WrittenOperand → List AsmToken
  | .register name => [.Identifier (getRegisterName name)]
  | .literal number => number.tokens
  | .memory offset base =>
      (offset.map Literal.tokens).getD [] ++
        [.LParen, .Identifier (getRegisterName base), .RParen]

/-- The literal of the operand, if it has one, is a token of at most sixty-four bits. -/
def Lexes (operand : WrittenOperand) : Prop :=
  ∀ number ∈ operand.literal?, number.magnitude < 2 ^ 64

instance (operand : WrittenOperand) : Decidable operand.Lexes :=
  inferInstanceAs (Decidable (∀ number ∈ operand.literal?, _))

def parsed : WrittenOperand → NaplesPUOperand
  | .register name => .Register name
  | .literal number => .Immediate number.expr
  | .memory offset base => .Memory base (offset.map Literal.expr)

end WrittenOperand

def operandTokens : List WrittenOperand → List AsmToken
  | [] => []
  | [operand] => operand.tokens
  | operand :: rest => operand.tokens ++ .Comma :: operandTokens rest

/-- A mnemonic with its operands, the memory operands where the mnemonic takes them. -/
structure Statement where
  mnemonic : String
  operands : List WrittenOperand
  placed : ∀ position operand, operands[position]? = some operand →
    operand.isMemory = hasCustomParser mnemonic position

section Expressions

variable {context : MCContext} {rest : List AsmToken}

/-- The tokens begin with one that no expression continues with. -/
def Ends (tokens : List AsmToken) : Prop :=
  ∃ token rest, tokens = token :: rest ∧
    (token = .Comma ∨ token = .EndOfStatement ∨ token = .LParen)

theorem skip_ends (ends : Ends rest) : skipComments rest = rest := by
  obtain ⟨token, later, rfl, rfl | rfl | rfl⟩ := ends <;> rfl

theorem skip_int_token (magnitude : Nat) (rest : List AsmToken) :
    skipComments (intToken magnitude :: rest) = intToken magnitude :: rest := by
  rw [intToken]
  split <;> rfl

theorem parse_modifier_ends (ends : Ends rest) (expression : AsmExpr) :
    parseModifier expression rest = some (expression, rest) := by
  obtain ⟨token, later, rfl, rfl | rfl | rfl⟩ := ends <;> rfl

theorem parse_bin_op_ends (ends : Ends rest) (fuel : Nat) (expression : AsmExpr) :
    parseBinOpRHS context (fuel + 1) 1 expression rest = some (expression, rest) := by
  obtain ⟨token, later, rfl, rfl | rfl | rfl⟩ := ends <;> rw [parseBinOpRHS] <;> rfl

theorem parse_integer_ends (ends : Ends rest) (value : BitVec 64) :
    parseInteger context value rest = some (.constant value, rest) := by
  obtain ⟨token, later, rfl, rfl | rfl | rfl⟩ := ends <;> rfl

theorem parse_int_token (ends : Ends rest) (fuel magnitude : Nat) :
    parsePrimaryExpr context (fuel + 1) (intToken magnitude :: rest) =
      if magnitude < 2 ^ 64 then some (.constant (BitVec.ofNat 64 magnitude), rest) else none := by
  by_cases small : magnitude < 2 ^ 64
  · rw [intToken, if_pos small, if_pos small, parsePrimaryExpr, skip_ends ends,
      parse_integer_ends ends]
  · rw [intToken, if_neg small, if_neg small]
    rfl

theorem parse_plus (fuel : Nat) : parsePrimaryExpr context (fuel + 1) (.Plus :: rest) =
    (parsePrimaryExpr context fuel (skipComments rest)).map fun entry =>
      (.unary .Plus entry.1, entry.2) := rfl

theorem parse_minus (fuel : Nat) : parsePrimaryExpr context (fuel + 1) (.Minus :: rest) =
    (parsePrimaryExpr context fuel (skipComments rest)).map fun entry =>
      (.unary .Minus entry.1, entry.2) := rfl

/-- A literal is parsed with its sign, which folding removes. -/
theorem parse_signed (ends : Ends rest) (fuel : Nat) (literal : Literal) :
    ∃ expression : AsmExpr, expression.fold = literal.expr ∧
      parsePrimaryExpr context (fuel + 2) (literal.tokens ++ rest) =
        if literal.magnitude < 2 ^ 64 then some (expression, rest) else none := by
  obtain ⟨sign, magnitude⟩ := literal
  cases sign with
  | none =>
      refine ⟨.constant (BitVec.ofNat 64 magnitude), ?_, parse_int_token ends _ magnitude⟩
      exact congrArg AsmExpr.constant (BitVec.ofInt_natCast 64 magnitude).symm
  | plus =>
      refine ⟨.unary .Plus (.constant (BitVec.ofNat 64 magnitude)), ?_, ?_⟩
      · exact congrArg AsmExpr.constant (BitVec.ofInt_natCast 64 magnitude).symm
      · change parsePrimaryExpr context (fuel + 2) (.Plus :: intToken magnitude :: rest) = _
        rw [parse_plus, skip_int_token, parse_int_token ends, apply_ite (Option.map _)]
        rfl
  | minus =>
      refine ⟨.unary .Minus (.constant (BitVec.ofNat 64 magnitude)), ?_, ?_⟩
      · have negated : -BitVec.ofNat 64 magnitude = BitVec.ofInt 64 (-(magnitude : Int)) := by
          rw [BitVec.ofInt_neg, BitVec.ofInt_natCast]
        exact congrArg AsmExpr.constant negated
      · change parsePrimaryExpr context (fuel + 2) (.Minus :: intToken magnitude :: rest) = _
        rw [parse_minus, skip_int_token, parse_int_token ends, apply_ite (Option.map _)]
        rfl

theorem parse_literal (ends : Ends rest) (literal : Literal) :
    parseExpression context (literal.tokens ++ rest) =
      if literal.magnitude < 2 ^ 64 then some (literal.expr, rest) else none := by
  obtain ⟨fuel, enough⟩ : ∃ fuel, 3 * (literal.tokens ++ rest).length + 3 = fuel + 3 := ⟨_, rfl⟩
  obtain ⟨expression, folded, parsed⟩ := @parse_signed context rest ends fuel literal
  rw [parseExpression, enough, parseExpressionWith, parsed]
  by_cases small : literal.magnitude < 2 ^ 64
  · rw [if_pos small, if_pos small, Option.bind_some]
    change ((parseBinOpRHS context (fuel + 2) 1 expression rest).bind fun entry =>
      (parseModifier entry.1 entry.2).map fun entry => (entry.1.fold, entry.2)) = _
    rw [parse_bin_op_ends ends, Option.bind_some, parse_modifier_ends ends, Option.map_some, folded]
  · rw [if_neg small, if_neg small, Option.bind_none]

end Expressions

section Operands

variable {context : MCContext} {rest : List AsmToken}

/-- The tokens after an operand: those of the next one, or the end of the statement. -/
def EndsOperand (tokens : List AsmToken) : Prop :=
  ∃ token rest, tokens = token :: rest ∧ (token = .Comma ∨ token = .EndOfStatement)

theorem EndsOperand.ends (ends : EndsOperand rest) : Ends rest := by
  obtain ⟨token, later, same, comma | endOfStatement⟩ := ends
  · exact ⟨token, later, same, Or.inl comma⟩
  · exact ⟨token, later, same, Or.inr (Or.inl endOfStatement)⟩

theorem literal_tokens_head (literal : Literal) : ∃ token later,
    literal.tokens = token :: later ∧
      (token = .Plus ∨ token = .Minus ∨ token = intToken literal.magnitude) := by
  obtain ⟨sign, magnitude⟩ := literal
  cases sign with
  | none => exact ⟨_, _, rfl, Or.inr (Or.inr rfl)⟩
  | plus => exact ⟨_, _, rfl, Or.inl rfl⟩
  | minus => exact ⟨_, _, rfl, Or.inr (Or.inl rfl)⟩

theorem parse_register (name : Register) :
    ParseRegister (.Identifier (getRegisterName name) :: rest) = some (name, rest) := by
  rw [ParseRegister, match_register_name, Option.map_some]

theorem parse_register_literal (literal : Literal) :
    ParseRegister (literal.tokens ++ rest) = none := by
  obtain ⟨token, later, same, kind⟩ := literal_tokens_head literal
  rw [same, List.cons_append]
  rcases kind with rfl | rfl | rfl
  · rfl
  · rfl
  · unfold intToken
    split <;> rfl

/-- `ParseImmediate` gives up on a literal only where `parseExpression` does. -/
theorem parse_immediate_literal (ends : Ends rest) (literal : Literal) :
    ParseImmediate context (literal.tokens ++ rest) =
      if literal.magnitude < 2 ^ 64 then some (literal.expr, rest) else none := by
  have expression := @parse_literal context rest ends literal
  obtain ⟨token, later, same, kind⟩ := literal_tokens_head literal
  rw [same, List.cons_append] at expression ⊢
  rcases kind with rfl | rfl | rfl
  · exact expression
  · exact expression
  · by_cases small : literal.magnitude < 2 ^ 64
    · rw [intToken, if_pos small] at expression ⊢
      exact expression
    · rw [intToken, if_neg small, if_neg small]
      rfl

theorem parse_memory_base (base : Register) {tokens : List AsmToken} {offset : Option AsmExpr}
    (notName : ∀ name later, tokens ≠ .Identifier name :: later)
    (read : ParseOffset context tokens =
      some (offset, .LParen :: .Identifier (getRegisterName base) :: .RParen :: rest)) :
    ParseMemoryOperand context tokens = some (.Memory base offset, rest) := by
  rw [ParseMemoryOperand, read, Option.bind_some]
  · simp only [parse_register]
  · exact notName

theorem parse_offset_literal {token : AsmToken} {later : List AsmToken}
    (number : token = .Plus ∨ token = .Minus ∨ ∃ value, token = .Integer value) :
    ParseOffset context (token :: later) =
      (parseExpression context (token :: later)).map fun entry => (some entry.1, entry.2) := by
  rcases number with rfl | rfl | ⟨value, rfl⟩ <;> rfl

theorem parse_memory (offset : Option Literal) (base : Register) :
    ParseMemoryOperand context ((WrittenOperand.memory offset base).tokens ++ rest) =
      if (WrittenOperand.memory offset base).Lexes then
        some ((WrittenOperand.memory offset base).parsed, rest) else none := by
  cases offset with
  | none =>
      rw [if_pos (by simp [WrittenOperand.Lexes, WrittenOperand.literal?])]
      exact parse_memory_base base (by simp [WrittenOperand.tokens]) rfl
  | some literal =>
      have ends : Ends (.LParen :: .Identifier (getRegisterName base) :: .RParen :: rest) :=
        ⟨_, _, rfl, Or.inr (Or.inr rfl)⟩
      have expression := @parse_literal context _ ends literal
      have lexes : (WrittenOperand.memory (some literal) base).Lexes ↔
          literal.magnitude < 2 ^ 64 := by
        simp [WrittenOperand.Lexes, WrittenOperand.literal?]
      have split : (WrittenOperand.memory (some literal) base).tokens ++ rest = literal.tokens ++
          .LParen :: .Identifier (getRegisterName base) :: .RParen :: rest := by
        simp [WrittenOperand.tokens]
      obtain ⟨token, later, same, kind⟩ := literal_tokens_head literal
      rw [split]
      rw [same, List.cons_append] at expression ⊢
      by_cases small : literal.magnitude < 2 ^ 64
      · rw [if_pos small] at expression
        rw [if_pos (lexes.mpr small)]
        have number : token = .Plus ∨ token = .Minus ∨ ∃ value, token = .Integer value := by
          rw [intToken, if_pos small] at kind
          rcases kind with plus | minus | integer
          · exact Or.inl plus
          · exact Or.inr (Or.inl minus)
          · exact Or.inr (Or.inr ⟨_, integer⟩)
        apply parse_memory_base base
        · rcases number with rfl | rfl | ⟨value, rfl⟩ <;> simp
        · rw [parse_offset_literal number, expression]
          rfl
      · rw [if_neg small] at expression
        rw [if_neg fun inside => small (lexes.mp inside)]
        rw [intToken, if_neg small] at kind
        rcases kind with rfl | rfl | rfl
        · rw [ParseMemoryOperand, parse_offset_literal (Or.inl rfl), expression]
          · rfl
          · simp
        · rw [ParseMemoryOperand, parse_offset_literal (Or.inr (Or.inl rfl)), expression]
          · rfl
          · simp
        · rfl

theorem parse_operand (ends : EndsOperand rest) {mnemonic : String} {position : Nat}
    {operand : WrittenOperand} (placed : operand.isMemory = hasCustomParser mnemonic position) :
    ParseOperand context mnemonic position (operand.tokens ++ rest) =
      if operand.Lexes then some (operand.parsed, rest) else none := by
  cases operand with
  | register name =>
      have general : hasCustomParser mnemonic position = false := placed.symm
      have lexes : (WrittenOperand.register name).Lexes := by
        simp [WrittenOperand.Lexes, WrittenOperand.literal?]
      rw [ParseOperand, if_neg (by simp [general]), if_pos lexes]
      simp only [WrittenOperand.tokens, List.cons_append, List.nil_append, parse_register]
      rfl
  | literal number =>
      have general : hasCustomParser mnemonic position = false := placed.symm
      have lexes : (WrittenOperand.literal number).Lexes ↔ number.magnitude < 2 ^ 64 := by
        simp [WrittenOperand.Lexes, WrittenOperand.literal?]
      rw [ParseOperand, if_neg (by simp [general])]
      simp only [WrittenOperand.tokens, parse_register_literal,
        parse_immediate_literal ends.ends, parse_literal ends.ends]
      by_cases small : number.magnitude < 2 ^ 64
      · rw [if_pos small, if_pos (lexes.mpr small)]
        rfl
      · rw [if_neg small, if_neg fun inside => small (lexes.mp inside)]
        rfl
  | memory offset base =>
      have custom : hasCustomParser mnemonic position = true := placed.symm
      rw [ParseOperand, if_pos custom, parse_memory]

theorem parse_operands {mnemonic : String} {operands : List WrittenOperand}
    (nonempty : operands ≠ []) {position fuel : Nat} (enough : operands.length ≤ fuel)
    (placed : ∀ index operand, operands[index]? = some operand →
      operand.isMemory = hasCustomParser mnemonic (position + index)) :
    ParseOperands context mnemonic fuel position
        (operandTokens operands ++ .EndOfStatement :: rest) =
      if ∀ operand ∈ operands, operand.Lexes then
        some (operands.map WrittenOperand.parsed, .EndOfStatement :: rest) else none := by
  induction operands generalizing position fuel with
  | nil => exact absurd rfl nonempty
  | cons operand others induction =>
      obtain ⟨fuel, rfl⟩ : ∃ less, fuel = less + 1 := ⟨fuel - 1, by
        rw [List.length_cons] at enough; omega⟩
      have here := placed 0 operand rfl
      cases others with
      | nil =>
          have ends : EndsOperand (.EndOfStatement :: rest) := ⟨_, _, rfl, Or.inr rfl⟩
          have head := @parse_operand context _ ends mnemonic position operand here
          rw [ParseOperands, operandTokens, head]
          by_cases lexes : operand.Lexes
          · rw [if_pos lexes, if_pos (by simpa using lexes)]
            rfl
          · rw [if_neg lexes, if_neg (by simpa using lexes)]
            rfl
      | cons next more =>
          have tail := @induction (by simp) (position + 1) fuel
            (by rw [List.length_cons] at enough; omega)
            (fun index operand found => by
              have shifted := placed (index + 1) operand found
              rwa [show position + (index + 1) = position + 1 + index by omega] at shifted)
          have ends : EndsOperand
              (.Comma :: (operandTokens (next :: more) ++ .EndOfStatement :: rest)) :=
            ⟨_, _, rfl, Or.inl rfl⟩
          have head := @parse_operand context _ ends mnemonic position operand here
          rw [ParseOperands, operandTokens, List.append_assoc, List.cons_append, head]
          · by_cases lexes : operand.Lexes
            · rw [if_pos lexes, Option.bind_some]
              simp only [tail]
              by_cases later : ∀ operand ∈ next :: more, operand.Lexes
              · rw [if_pos later, if_pos (List.forall_mem_cons.mpr ⟨lexes, later⟩)]
                rfl
              · rw [if_neg later, if_neg fun all => later (List.forall_mem_cons.mp all).2]
                rfl
            · rw [if_neg lexes, if_neg (by simp [lexes])]
              rfl
          · simp

theorem tokens_head (operand : WrittenOperand) :
    ∃ token later, operand.tokens = token :: later ∧ token ≠ .EndOfStatement ∧
      token ≠ .Comment := by
  have number (literal : Literal) (after : List AsmToken) : ∃ token later,
      literal.tokens ++ after = token :: later ∧ token ≠ .EndOfStatement ∧ token ≠ .Comment := by
    obtain ⟨token, later, same, kind⟩ := literal_tokens_head literal
    refine ⟨token, later ++ after, by rw [same, List.cons_append], ?_⟩
    rcases kind with rfl | rfl | rfl
    · simp
    · simp
    · unfold intToken
      split <;> simp
  cases operand with
  | register name => exact ⟨_, _, rfl, by simp⟩
  | literal literal =>
      have first := number literal []
      rwa [List.append_nil] at first
  | memory offset base =>
      cases offset with
      | none => exact ⟨_, _, rfl, by simp⟩
      | some literal => exact number literal _

theorem operand_tokens_head (operand : WrittenOperand) (others : List WrittenOperand) :
    ∃ token later, operandTokens (operand :: others) = token :: later ∧
      token ≠ .EndOfStatement ∧ token ≠ .Comment := by
  obtain ⟨token, later, same, different⟩ := tokens_head operand
  cases others with
  | nil => exact ⟨token, later, same, different⟩
  | cons next more =>
      exact ⟨token, _, by rw [operandTokens, same, List.cons_append]; simp, different⟩

theorem skip_operand_tokens (operands : List WrittenOperand) (rest : List AsmToken) :
    skipComments (operandTokens operands ++ .EndOfStatement :: rest) =
      operandTokens operands ++ .EndOfStatement :: rest := by
  cases operands with
  | nil => rfl
  | cons operand others =>
      obtain ⟨token, later, same, -, noComment⟩ := operand_tokens_head operand others
      rw [same, List.cons_append, skipComments, List.dropWhile_cons_of_neg]
      simpa using noComment

theorem operands_length_le (operands : List WrittenOperand) :
    operands.length ≤ (operandTokens operands).length := by
  induction operands with
  | nil => exact Nat.zero_le _
  | cons operand others induction =>
      obtain ⟨token, later, same, -⟩ := tokens_head operand
      cases others with
      | nil =>
          rw [operandTokens, same]
          simp
      | cons next more =>
          rw [operandTokens, same]
          · simp only [List.length_append, List.length_cons] at induction ⊢
            omega
          · simp

/-- A statement is parsed as what is written, if all its literals are tokens. -/
theorem parse_statement (context : MCContext) (statement : Statement) (rest : List AsmToken) :
    ParseInstruction context statement.mnemonic
        (operandTokens statement.operands ++ .EndOfStatement :: rest) =
      if ∀ operand ∈ statement.operands, operand.Lexes then
        some (statement.operands.map WrittenOperand.parsed, .EndOfStatement :: rest) else none := by
  obtain ⟨mnemonic, operands, placed⟩ := statement
  cases operands with
  | nil => rw [if_pos (by simp)]; rfl
  | cons operand others =>
      have started : ∀ later, operandTokens (operand :: others) ++ .EndOfStatement :: rest ≠
          .EndOfStatement :: later := by
        obtain ⟨token, tokens, same, different, -⟩ := operand_tokens_head operand others
        intro later start
        rw [same, List.cons_append] at start
        exact different (List.cons.inj start).1
      have enough : (operand :: others).length ≤
          (operandTokens (operand :: others) ++ .EndOfStatement :: rest).length := by
        have least := operands_length_le (operand :: others)
        rw [List.length_append]
        omega
      have whole := @parse_operands context rest mnemonic (operand :: others) (by simp) 0 _ enough
        (fun index found present => by rw [Nat.zero_add]; exact placed index found present)
      rw [ParseInstruction]
      · exact whole
      · exact started

theorem parse_statement_line (context : MCContext) (statement : Statement)
    (rest : List AsmToken) :
    parseStatement context (.Identifier statement.mnemonic ::
        (operandTokens statement.operands ++ .EndOfStatement :: rest)) =
      (ParseInstruction context statement.mnemonic.toLower
          (operandTokens statement.operands ++ .EndOfStatement :: rest)).bind fun entry =>
        (MatchAndEmitInstruction statement.mnemonic.toLower entry.1).map fun emitted =>
          (emitted, entry.2) := by
  rw [parseStatement, parseIdentifier, Option.bind_some]
  · dsimp only
    rw [skip_operand_tokens]
  · intro tail same
    cases same

end Operands

end NaplesPU.AsmStatements
