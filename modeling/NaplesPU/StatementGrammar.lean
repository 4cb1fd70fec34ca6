import NaplesPU.AsmParser

/-!
The grammar of a statement after its mnemonic, and what the parser makes of it. The parser stops at
the first token after an operand that is no comma: that token stays, be it the end of the statement
or the beginning of something else.
-/

namespace NaplesPU.StatementGrammar

open RegisterInfo FixupKinds AsmLexer AsmStrings AsmParser

section Grammar

variable (context : MCContext)

def Expression (tokens : List AsmToken) (value : AsmExpr) (left : List AsmToken) : Prop :=
  parseExpression context tokens = some (value, left)

/-- The tokens that a number in front of a base register begins with. -/
def startsNumber : List AsmToken → Bool
  | .Integer _ :: _ | .Minus :: _ | .Plus :: _ => true
  | _ => false

/-- An operand at the beginning of the tokens. Where the mnemonic takes memory, it is a label
that begins with a name or a base register in parentheses; elsewhere it is a register or an
expression. -/
inductive Operand (mnemonic : String) (position : Nat) :
    List AsmToken → NaplesPUOperand → List AsmToken → Prop
  | label {name : String} {rest left : List AsmToken} {value : AsmExpr}
      (memory : hasCustomParser mnemonic position = true)
      (expression : Expression context (.Identifier name :: rest) value left) :
      Operand mnemonic position (.Identifier name :: rest) (.Memory PC_REG (some value)) left
  | base {name : String} {left : List AsmToken} {register : Register}
      (memory : hasCustomParser mnemonic position = true)
      (named : MatchRegisterName name = some register) :
      Operand mnemonic position (.LParen :: .Identifier name :: .RParen :: left)
        (.Memory register none) left
  | offset {name : String} {tokens left : List AsmToken} {value : AsmExpr} {register : Register}
      (memory : hasCustomParser mnemonic position = true) (number : startsNumber tokens = true)
      (expression : Expression context tokens value
        (.LParen :: .Identifier name :: .RParen :: left))
      (named : MatchRegisterName name = some register) :
      Operand mnemonic position tokens (.Memory register (some value)) left
  | register {name : String} {left : List AsmToken} {register : Register}
      (general : hasCustomParser mnemonic position = false)
      (named : MatchRegisterName name = some register) :
      Operand mnemonic position (.Identifier name :: left) (.Register register) left
  | immediate {tokens left : List AsmToken} {value : AsmExpr}
      (general : hasCustomParser mnemonic position = false)
      (unnamed : ParseRegister tokens = none)
      (expression : Expression context tokens value left) :
      Operand mnemonic position tokens (.Immediate value) left

/-- `operand {, operand}` at the beginning of the tokens. -/
inductive OperandList (mnemonic : String) :
    Nat → List AsmToken → List NaplesPUOperand → List AsmToken → Prop
  | last {position : Nat} {tokens left : List AsmToken} {operand : NaplesPUOperand}
      (first : Operand context mnemonic position tokens operand left) :
      OperandList mnemonic position tokens [operand] left
  | next {position : Nat} {tokens rest left : List AsmToken} {operand : NaplesPUOperand}
      {operands : List NaplesPUOperand}
      (first : Operand context mnemonic position tokens operand (.Comma :: rest))
      (others : OperandList mnemonic (position + 1) rest operands left) :
      OperandList mnemonic position tokens (operand :: operands) left

/-- The line of a statement: its operands, if it has any, and its end; `left` is what
comes after the line. -/
inductive Line (mnemonic : String) :
    List AsmToken → List NaplesPUOperand → List AsmToken → Prop
  | bare {left : List AsmToken} : Line mnemonic (.EndOfStatement :: left) [] left
  | operands {tokens left : List AsmToken} {operands : List NaplesPUOperand}
      (list : OperandList context mnemonic 0 tokens operands (.EndOfStatement :: left)) :
      Line mnemonic tokens operands left

/-- What the parser accepts is a line, whether or not it has read the line to its end. -/
def AcceptsLines (mnemonic : String) (tokens : List AsmToken) : Prop :=
  ∀ operands left, ParseInstruction context mnemonic tokens = some (operands, left) →
    ∃ rest, Line context mnemonic tokens operands rest

/-- No operand list at the beginning of the tokens has anything behind it but a comma or the end of
the statement. -/
def ListsEnd (mnemonic : String) (tokens : List AsmToken) : Prop :=
  ∀ operands left, OperandList context mnemonic 0 tokens operands left →
    left.head? = some .Comma ∨ left.head? = some .EndOfStatement

/-- What the parser accepts is a line, and it has read the line to its end. -/
def KeepsContract (mnemonic : String) (tokens : List AsmToken) : Prop :=
  ∀ operands left, ParseInstruction context mnemonic tokens = some (operands, left) →
    Line context mnemonic tokens operands left

/-- The tokens begin neither with the end of the statement nor with operands after which
something else than a comma comes. -/
def BeginsNoStatement (mnemonic : String) (tokens : List AsmToken) : Prop :=
  tokens.head? ≠ some .EndOfStatement ∧
    ∀ operands left, OperandList context mnemonic 0 tokens operands left →
      left.head? = some .Comma

end Grammar

section Consumption

variable {context : MCContext}

theorem skip_comments_length (tokens : List AsmToken) :
    (skipComments tokens).length ≤ tokens.length :=
  (List.dropWhile_sublist _).length_le

theorem parse_identifier_length {tokens left : List AsmToken} {name : String}
    (parsed : parseIdentifier tokens = some (name, left)) : left.length < tokens.length := by
  unfold parseIdentifier at parsed
  split at parsed
  · rename_i rest
    obtain ⟨-, rfl⟩ := Prod.mk.inj (Option.some.inj parsed)
    exact Nat.lt_succ_of_le ((skip_comments_length rest).trans (Nat.le_succ _))
  · rename_i rest
    obtain ⟨-, rfl⟩ := Prod.mk.inj (Option.some.inj parsed)
    exact Nat.lt_succ_of_le ((skip_comments_length rest).trans (Nat.le_succ _))
  · rename_i rest
    obtain ⟨-, rfl⟩ := Prod.mk.inj (Option.some.inj parsed)
    exact Nat.lt_succ_of_le (skip_comments_length rest)
  · rename_i rest
    obtain ⟨-, rfl⟩ := Prod.mk.inj (Option.some.inj parsed)
    exact Nat.lt_succ_of_le (skip_comments_length rest)
  · cases parsed

theorem parse_symbol_length {tokens left : List AsmToken} {expression : AsmExpr}
    (parsed : parseSymbol context tokens = some (expression, left)) :
    left.length < tokens.length := by
  rw [parseSymbol, Option.bind_eq_some_iff] at parsed
  obtain ⟨⟨identifier, rest⟩, first, parsed⟩ := parsed
  have shorter := parse_identifier_length first
  dsimp only at parsed
  split at parsed
  · rename_i afterAt
    rw [Option.bind_eq_some_iff] at parsed
    obtain ⟨⟨variant, after⟩, second, parsed⟩ := parsed
    rw [Option.map_eq_some_iff] at parsed
    obtain ⟨symbol, -, same⟩ := parsed
    obtain ⟨-, rfl⟩ := Prod.mk.inj same
    have skipped := skip_comments_length afterAt
    have variantShorter := parse_identifier_length second
    rw [List.length_cons] at shorter
    dsimp only
    omega
  · rw [Option.map_eq_some_iff] at parsed
    obtain ⟨symbol, -, same⟩ := parsed
    obtain ⟨-, rfl⟩ := Prod.mk.inj same
    exact shorter
  · rw [Option.map_eq_some_iff] at parsed
    obtain ⟨symbol, -, same⟩ := parsed
    obtain ⟨-, rfl⟩ := Prod.mk.inj same
    exact shorter

theorem parse_integer_length {value : BitVec 64} {tokens left : List AsmToken}
    {expression : AsmExpr}
    (parsed : parseInteger context value tokens = some (expression, left)) :
    left.length ≤ tokens.length := by
  unfold parseInteger at parsed
  split at parsed
  · rename_i name rest
    rw [Option.bind_eq_some_iff] at parsed
    obtain ⟨variant, -, parsed⟩ := parsed
    dsimp only at parsed
    split at parsed
    · rw [Option.map_eq_some_iff] at parsed
      obtain ⟨symbol, -, same⟩ := parsed
      obtain ⟨-, rfl⟩ := Prod.mk.inj same
      exact (skip_comments_length rest).trans (Nat.le_succ _)
    · obtain ⟨-, rfl⟩ := Prod.mk.inj (Option.some.inj parsed)
      rfl
  · obtain ⟨-, rfl⟩ := Prod.mk.inj (Option.some.inj parsed)
    rfl

theorem parse_modifier_length {tokens left : List AsmToken} {expression modified : AsmExpr}
    (parsed : parseModifier expression tokens = some (modified, left)) :
    left.length ≤ tokens.length := by
  unfold parseModifier at parsed
  split at parsed
  · rename_i rest
    split at parsed
    · rename_i name after skipped
      rw [Option.bind_eq_some_iff] at parsed
      obtain ⟨variant, -, parsed⟩ := parsed
      rw [Option.map_eq_some_iff] at parsed
      obtain ⟨result, -, same⟩ := parsed
      obtain ⟨-, rfl⟩ := Prod.mk.inj same
      have first := skip_comments_length rest
      have second := skip_comments_length after
      rw [skipped, List.length_cons] at first
      rw [List.length_cons]
      omega
    · cases parsed
  · obtain ⟨-, rfl⟩ := Prod.mk.inj (Option.some.inj parsed)
    rfl

/-- Every parser of expressions takes a token, except the one that may add no operator. -/
theorem expression_parsers_shorten (fuel : Nat) :
    (∀ tokens value left, parsePrimaryExpr context fuel tokens = some (value, left) →
      left.length < tokens.length) ∧
    (∀ precedence expression tokens value left,
      parseBinOpRHS context fuel precedence expression tokens = some (value, left) →
        left.length ≤ tokens.length) ∧
    (∀ tokens value left, parseExpressionWith context fuel tokens = some (value, left) →
      left.length < tokens.length) := by
  induction fuel with
  | zero =>
      refine ⟨?_, ?_, ?_⟩
      · intro tokens value left parsed
        cases tokens <;> simp [parsePrimaryExpr] at parsed
      · intro precedence expression tokens value left parsed
        simp [parseBinOpRHS] at parsed
      · intro tokens value left parsed
        simp [parseExpressionWith] at parsed
  | succ fuel induction =>
      obtain ⟨primary, binary, whole⟩ := induction
      have prefixed (op : UnaryOp) (rest : List AsmToken) (value : AsmExpr) (left : List AsmToken)
          (parsed : (parsePrimaryExpr context fuel (skipComments rest)).map
            (fun entry => (AsmExpr.unary op entry.1, entry.2)) = some (value, left)) :
          left.length < rest.length + 1 := by
        rw [Option.map_eq_some_iff] at parsed
        obtain ⟨⟨operand, after⟩, inner, same⟩ := parsed
        obtain ⟨-, rfl⟩ := Prod.mk.inj same
        have skipped := skip_comments_length rest
        have shorter := primary _ operand after inner
        dsimp only
        omega
      have closing (rest : List AsmToken) (inner : AsmExpr) (bracket : AsmToken)
          (after : List AsmToken)
          (closed : parseExpressionWith context fuel (skipComments rest) =
            some (inner, bracket :: after)) :
          (skipComments after).length < rest.length + 1 := by
        have skipped := skip_comments_length rest
        have skippedAfter := skip_comments_length after
        have shorter := whole _ _ _ closed
        rw [List.length_cons] at shorter
        omega
      refine ⟨?_, ?_, ?_⟩
      · intro tokens value left parsed
        cases tokens with
        | nil => simp [parsePrimaryExpr] at parsed
        | cons token rest =>
            have skipped := skip_comments_length rest
            rw [List.length_cons]
            cases token with
            | Exclaim => exact prefixed .LNot rest value left parsed
            | Minus => exact prefixed .Minus rest value left parsed
            | Plus => exact prefixed .Plus rest value left parsed
            | Tilde => exact prefixed .Not rest value left parsed
            | Dollar adjacent =>
                rw [parsePrimaryExpr] at parsed
                exact parse_symbol_length parsed
            | At adjacent =>
                rw [parsePrimaryExpr] at parsed
                exact parse_symbol_length parsed
            | String contents =>
                rw [parsePrimaryExpr] at parsed
                exact parse_symbol_length parsed
            | Identifier name =>
                rw [parsePrimaryExpr] at parsed
                exact parse_symbol_length parsed
            | Integer number =>
                rw [parsePrimaryExpr] at parsed
                exact Nat.lt_succ_of_le ((parse_integer_length parsed).trans skipped)
            | Real literal =>
                rw [parsePrimaryExpr, Option.map_eq_some_iff] at parsed
                obtain ⟨number, -, same⟩ := parsed
                obtain ⟨-, rfl⟩ := Prod.mk.inj same
                exact Nat.lt_succ_of_le skipped
            | Dot =>
                rw [parsePrimaryExpr] at parsed
                obtain ⟨-, rfl⟩ := Prod.mk.inj (Option.some.inj parsed)
                exact Nat.lt_succ_of_le skipped
            | LParen =>
                rw [parsePrimaryExpr] at parsed
                split at parsed
                · rename_i inner after closed
                  obtain ⟨-, rfl⟩ := Prod.mk.inj (Option.some.inj parsed)
                  exact closing rest _ _ _ closed
                · cases parsed
            | LBrac =>
                rw [parsePrimaryExpr] at parsed
                split at parsed
                · rename_i inner after closed
                  obtain ⟨-, rfl⟩ := Prod.mk.inj (Option.some.inj parsed)
                  exact closing rest _ _ _ closed
                · cases parsed
            | _ => simp [parsePrimaryExpr] at parsed
      · intro precedence expression tokens value left parsed
        cases tokens with
        | nil =>
            simp [parseBinOpRHS] at parsed
            rw [← parsed.2]
        | cons token rest =>
            rw [parseBinOpRHS] at parsed
            split at parsed
            · obtain ⟨-, rfl⟩ := Prod.mk.inj (Option.some.inj parsed)
              rfl
            · rw [Option.bind_eq_some_iff] at parsed
              obtain ⟨⟨operand, afterOperand⟩, first, parsed⟩ := parsed
              rw [Option.bind_eq_some_iff] at parsed
              obtain ⟨⟨right, afterRight⟩, second, parsed⟩ := parsed
              have skipped := skip_comments_length rest
              have firstShorter := primary _ operand afterOperand first
              have secondShorter : afterRight.length ≤ afterOperand.length := by
                split at second
                · exact binary _ _ _ _ _ second
                · obtain ⟨-, rfl⟩ := Prod.mk.inj (Option.some.inj second)
                  rfl
              have thirdShorter := binary _ _ _ _ _ parsed
              rw [List.length_cons]
              omega
      · intro tokens value left parsed
        rw [parseExpressionWith, Option.bind_eq_some_iff] at parsed
        obtain ⟨⟨operand, afterOperand⟩, first, parsed⟩ := parsed
        rw [Option.bind_eq_some_iff] at parsed
        obtain ⟨⟨sum, afterOperators⟩, second, parsed⟩ := parsed
        rw [Option.map_eq_some_iff] at parsed
        obtain ⟨⟨modified, after⟩, third, same⟩ := parsed
        obtain ⟨-, rfl⟩ := Prod.mk.inj same
        have firstShorter := primary _ _ _ first
        have secondShorter := binary _ _ _ _ _ second
        have thirdShorter := parse_modifier_length third
        dsimp only at *
        omega

theorem Expression.shorter {tokens left : List AsmToken} {value : AsmExpr}
    (expression : Expression context tokens value left) : left.length < tokens.length :=
  (expression_parsers_shorten _).2.2 tokens value left expression

end Consumption

section Acceptance

variable {context : MCContext} {mnemonic : String} {position : Nat}
variable {tokens left : List AsmToken} {operand : NaplesPUOperand} {operands : List NaplesPUOperand}

theorem parse_register_some {register : Register}
    (parsed : ParseRegister tokens = some (register, left)) :
    ∃ name, tokens = .Identifier name :: left ∧ MatchRegisterName name = some register := by
  unfold ParseRegister at parsed
  split at parsed
  · rename_i name rest
    rw [Option.map_eq_some_iff] at parsed
    obtain ⟨found, named, same⟩ := parsed
    obtain ⟨rfl, rfl⟩ := Prod.mk.inj same
    exact ⟨name, rfl, named⟩
  · cases parsed

theorem parse_register_name {name : String} {register : Register}
    (named : MatchRegisterName name = some register) :
    ParseRegister (.Identifier name :: left) = some (register, left) := by
  rw [ParseRegister, named, Option.map_some]

/-- The parser of numbers is the parser of expressions on what begins like a number. -/
theorem parse_offset_number (number : startsNumber tokens = true) :
    ParseOffset context tokens =
      (parseExpression context tokens).map fun entry => (some entry.1, entry.2) := by
  unfold startsNumber at number
  split at number
  · rfl
  · rfl
  · rfl
  · cases number

theorem parse_offset_absent (number : startsNumber tokens = false) :
    ParseOffset context tokens = some (none, tokens) := by
  unfold startsNumber at number
  split at number
  · cases number
  · cases number
  · cases number
  · rename_i integer minus plus
    rw [ParseOffset]
    · exact integer
    · exact minus
    · exact plus

/-- What is no register is an expression, with or without the parser of immediates. -/
theorem parse_operand_general (general : hasCustomParser mnemonic position = false)
    (unnamed : ParseRegister tokens = none) :
    ParseOperand context mnemonic position tokens =
      (parseExpression context tokens).map fun entry => (.Immediate entry.1, entry.2) := by
  rw [ParseOperand, if_neg (by simp [general]), unnamed]
  cases immediate : ParseImmediate context tokens with
  | none => rfl
  | some entry =>
      obtain ⟨value, rest⟩ := entry
      have expression : parseExpression context tokens = some (value, rest) := by
        unfold ParseImmediate at immediate
        split at immediate
        · exact immediate
        · exact immediate
        · exact immediate
        · cases immediate
      rw [expression]
      rfl

theorem operand_of_parse
    (parsed : ParseOperand context mnemonic position tokens = some (operand, left)) :
    Operand context mnemonic position tokens operand left := by
  cases memory : hasCustomParser mnemonic position with
  | true =>
      rw [ParseOperand, if_pos memory] at parsed
      unfold ParseMemoryOperand at parsed
      split at parsed
      · rw [Option.map_eq_some_iff] at parsed
        obtain ⟨⟨label, rest⟩, expression, same⟩ := parsed
        obtain ⟨rfl, rfl⟩ := Prod.mk.inj same
        exact .label memory expression
      · rename_i unnamed
        rw [Option.bind_eq_some_iff] at parsed
        obtain ⟨⟨offset, afterOffset⟩, first, parsed⟩ := parsed
        dsimp only at parsed
        split at parsed
        · rename_i afterParen
          split at parsed
          · rename_i base rest inside
            obtain ⟨rfl, rfl⟩ := Prod.mk.inj (Option.some.inj parsed)
            obtain ⟨name, rfl, named⟩ := parse_register_some inside
            cases number : startsNumber tokens with
            | true =>
                rw [parse_offset_number number, Option.map_eq_some_iff] at first
                obtain ⟨⟨value, after⟩, expression, same⟩ := first
                obtain ⟨rfl, rfl⟩ := Prod.mk.inj same
                exact .offset memory number expression named
            | false =>
                rw [parse_offset_absent number] at first
                obtain ⟨rfl, rfl⟩ := Prod.mk.inj (Option.some.inj first)
                exact .base memory named
          · cases parsed
        · cases parsed
  | false =>
      cases unnamed : ParseRegister tokens with
      | none =>
          rw [parse_operand_general memory unnamed, Option.map_eq_some_iff] at parsed
          obtain ⟨⟨value, rest⟩, expression, same⟩ := parsed
          obtain ⟨rfl, rfl⟩ := Prod.mk.inj same
          exact .immediate memory unnamed expression
      | some entry =>
          obtain ⟨found, rest⟩ := entry
          rw [ParseOperand, if_neg (by simp [memory]), unnamed] at parsed
          obtain ⟨rfl, rfl⟩ := Prod.mk.inj (Option.some.inj parsed)
          obtain ⟨name, rfl, named⟩ := parse_register_some unnamed
          exact .register memory named

theorem parse_of_operand (grammar : Operand context mnemonic position tokens operand left) :
    ParseOperand context mnemonic position tokens = some (operand, left) := by
  cases grammar with
  | label memory expression =>
      rw [ParseOperand, if_pos memory, ParseMemoryOperand, expression, Option.map_some]
  | base memory named =>
      rw [ParseOperand, if_pos memory]
      simp [ParseMemoryOperand, ParseOffset, parse_register_name named]
  | offset memory number expression named =>
      rw [ParseOperand, if_pos memory, ParseMemoryOperand, parse_offset_number number, expression,
        Option.map_some, Option.bind_some]
      · simp only [parse_register_name named]
      · intro name rest same
        rw [same] at number
        cases number
  | register general named =>
      rw [ParseOperand, if_neg (by simp [general]), parse_register_name named]
  | immediate general unnamed expression =>
      rw [parse_operand_general general unnamed, expression, Option.map_some]

theorem operand_iff_parsed : Operand context mnemonic position tokens operand left ↔
    ParseOperand context mnemonic position tokens = some (operand, left) :=
  ⟨parse_of_operand, operand_of_parse⟩

theorem Operand.shorter (grammar : Operand context mnemonic position tokens operand left) :
    left.length < tokens.length := by
  cases grammar with
  | label memory expression => exact expression.shorter
  | base memory named =>
      simp only [List.length_cons]
      omega
  | offset memory number expression named =>
      have shorter := expression.shorter
      simp only [List.length_cons] at shorter
      omega
  | register general named => simp
  | immediate general unnamed expression => exact expression.shorter

theorem OperandList.nonempty
    (list : OperandList context mnemonic position tokens operands left) : tokens ≠ [] := by
  cases list with
  | last first => exact List.ne_nil_of_length_pos (by have shorter := first.shorter; omega)
  | next first others => exact List.ne_nil_of_length_pos (by have shorter := first.shorter; omega)

/-- The loop reads the operand list up to the first operand without a comma after it. -/
theorem operand_list_iff_parsed {fuel : Nat} (enough : tokens.length ≤ fuel) :
    ParseOperands context mnemonic fuel position tokens = some (operands, left) ↔
      OperandList context mnemonic position tokens operands left ∧
        left.head? ≠ some .Comma := by
  induction fuel generalizing position tokens operands with
  | zero =>
      rw [ParseOperands]
      constructor
      · intro parsed
        cases parsed
      · rintro ⟨list, -⟩
        exact absurd (List.length_eq_zero_iff.mp (Nat.le_zero.mp enough)) list.nonempty
  | succ fuel induction =>
      constructor
      · intro parsed
        rw [ParseOperands, Option.bind_eq_some_iff] at parsed
        obtain ⟨⟨operand, afterOperand⟩, first, parsed⟩ := parsed
        have grammar := operand_of_parse first
        dsimp only at parsed
        split at parsed
        · rename_i rest
          rw [Option.map_eq_some_iff] at parsed
          obtain ⟨⟨others, after⟩, later, same⟩ := parsed
          obtain ⟨rfl, rfl⟩ := Prod.mk.inj same
          have shorter := grammar.shorter
          rw [List.length_cons] at shorter
          obtain ⟨list, ended⟩ := (induction (by omega)).mp later
          exact ⟨.next grammar list, ended⟩
        · rename_i noComma
          obtain ⟨rfl, rfl⟩ := Prod.mk.inj (Option.some.inj parsed)
          refine ⟨.last grammar, ?_⟩
          intro comma
          obtain ⟨rest, same⟩ := List.head?_eq_some_iff.mp comma
          exact noComma rest same
      · rintro ⟨list, ended⟩
        cases list with
        | last first =>
            rw [ParseOperands, parse_of_operand first, Option.bind_some]
            dsimp only
            split
            · exact absurd rfl ended
            · rfl
        | next first others =>
            have shorter := first.shorter
            rw [List.length_cons] at shorter
            rw [ParseOperands, parse_of_operand first, Option.bind_some]
            dsimp only
            rw [(induction (by omega)).mpr ⟨others, ended⟩, Option.map_some]

theorem no_operand_at_end (rest : List AsmToken) :
    ¬ Operand context mnemonic position (.EndOfStatement :: rest) operand left := by
  intro grammar
  have unread : parseExpression context (.EndOfStatement :: rest) = none := rfl
  cases grammar with
  | offset memory number => cases number
  | immediate general unnamed expression =>
      rw [Expression, unread] at expression
      cases expression

theorem no_list_at_end (rest : List AsmToken) :
    ¬ OperandList context mnemonic position (.EndOfStatement :: rest) operands left := by
  intro list
  cases list with
  | last first => exact no_operand_at_end rest first
  | next first others => exact no_operand_at_end rest first

/-- What the parser accepts: nothing before the end of the statement, which it leaves, or
operands with any token but a comma after them, which it leaves, too. -/
theorem statement_accepted_iff :
    ParseInstruction context mnemonic tokens = some (operands, left) ↔
      (tokens.head? = some .EndOfStatement ∧ operands = [] ∧ left = tokens) ∨
        OperandList context mnemonic 0 tokens operands left ∧ left.head? ≠ some .Comma := by
  by_cases ended : tokens.head? = some .EndOfStatement
  · obtain ⟨rest, rfl⟩ := List.head?_eq_some_iff.mp ended
    have noList : ¬ OperandList context mnemonic 0 (.EndOfStatement :: rest) operands left :=
      no_list_at_end rest
    rw [ParseInstruction, Option.some.injEq, Prod.mk.injEq]
    simp [noList, eq_comm]
  · have loop : ParseInstruction context mnemonic tokens =
        ParseOperands context mnemonic tokens.length 0 tokens := by
      rw [ParseInstruction]
      intro rest same
      rw [same] at ended
      exact ended rfl
    rw [loop, operand_list_iff_parsed (le_refl _)]
    simp [ended]

theorem OperandList.left_unique {other : List AsmToken}
    (list : OperandList context mnemonic position tokens operands left)
    (second : OperandList context mnemonic position tokens operands other) : left = other := by
  induction list with
  | last first =>
      cases second with
      | last again =>
          have same := (parse_of_operand first).symm.trans (parse_of_operand again)
          exact (Prod.mk.inj (Option.some.inj same)).2
      | next again others => cases others
  | next first others induction =>
      cases second with
      | last again => cases others
      | next again more =>
          have same := (parse_of_operand first).symm.trans (parse_of_operand again)
          obtain ⟨-, rests⟩ := Prod.mk.inj (Option.some.inj same)
          rw [List.cons.injEq] at rests
          obtain ⟨-, rfl⟩ := rests
          exact induction more

/-- An accepted line is never read to its end. -/
theorem accepted_line_is_left_open
    (accepted : ParseInstruction context mnemonic tokens = some (operands, left)) :
    ¬ Line context mnemonic tokens operands left := by
  intro line
  rcases statement_accepted_iff.mp accepted with ⟨ended, rfl, rfl⟩ | ⟨list, ended⟩
  · cases line with
    | operands list =>
        obtain ⟨rest, rfl⟩ := List.head?_eq_some_iff.mp ended
        exact no_list_at_end rest list
  · cases line with
    | bare => exact no_list_at_end left list
    | operands second =>
        have same := congrArg List.length (list.left_unique second)
        simp at same

theorem accepts_lines_iff :
    AcceptsLines context mnemonic tokens ↔ ListsEnd context mnemonic tokens := by
  constructor
  · intro accepts operands left list
    by_cases comma : left.head? = some .Comma
    · exact .inl comma
    · have accepted := statement_accepted_iff.mpr (Or.inr ⟨list, comma⟩)
      obtain ⟨rest, line⟩ := accepts operands left accepted
      cases line with
      | bare => exact absurd list (no_list_at_end rest)
      | operands second =>
          rw [list.left_unique second]
          exact .inr rfl
  · intro ends operands left accepted
    rcases statement_accepted_iff.mp accepted with ⟨ended, rfl, rfl⟩ | ⟨list, noComma⟩
    · obtain ⟨rest, rfl⟩ := List.head?_eq_some_iff.mp ended
      exact ⟨rest, .bare⟩
    · have ended := (ends operands left list).resolve_left noComma
      obtain ⟨rest, rfl⟩ := List.head?_eq_some_iff.mp ended
      exact ⟨rest, .operands list⟩

theorem keeps_contract_iff :
    KeepsContract context mnemonic tokens ↔ BeginsNoStatement context mnemonic tokens := by
  constructor
  · intro kept
    have rejected : ∀ operands left,
        ParseInstruction context mnemonic tokens ≠ some (operands, left) := by
      intro operands left accepted
      exact accepted_line_is_left_open accepted (kept operands left accepted)
    constructor
    · intro ended
      exact rejected [] tokens (statement_accepted_iff.mpr (Or.inl ⟨ended, rfl, rfl⟩))
    · intro operands left list
      by_contra noComma
      exact rejected operands left (statement_accepted_iff.mpr (Or.inr ⟨list, noComma⟩))
  · rintro ⟨started, commas⟩ operands left accepted
    rcases statement_accepted_iff.mp accepted with ⟨ended, -, -⟩ | ⟨list, noComma⟩
    · exact absurd ended started
    · exact absurd (commas operands left list) noComma

end Acceptance

/-- The parser accepts lines only, exactly if no operand list at the beginning is followed by
something else than a comma or the end of the statement. It never reads what it accepts to its end,
so that it keeps its whole contract exactly on the tokens that begin no statement. -/
theorem contract_kept_iff (context : MCContext) (mnemonic : String) (tokens : List AsmToken) :
    (AcceptsLines context mnemonic tokens ↔ ListsEnd context mnemonic tokens) ∧
    (∀ operands left, ParseInstruction context mnemonic tokens = some (operands, left) →
      ¬ Line context mnemonic tokens operands left) ∧
    (KeepsContract context mnemonic tokens ↔ BeginsNoStatement context mnemonic tokens) :=
  ⟨accepts_lines_iff, fun _ _ => accepted_line_is_left_open, keeps_contract_iff⟩

/-- `s0, s1 nop` after `move_i32`. -/
def moveThenNop : List AsmToken :=
  [.Identifier "s0", .Comma, .Identifier "s1", .Identifier "nop", .EndOfStatement, .Eof]

/-- The rest of the line is a second instruction. -/
theorem move_then_nop_assembles_two :
    ¬ AcceptsLines noSymbols "move_i32" moveThenNop ∧
      ¬ KeepsContract noSymbols "move_i32" moveThenNop ∧
      assembleText noSymbols "\tmove_i32 s0, s1 nop\n".toList =
        some [([0x00, 0x10, 0x00, 0x20], []), ([0xFF, 0xFF, 0xFF, 0xFF], [])] := by
  have accepted : ParseInstruction noSymbols "move_i32" moveThenNop =
      some ([.Register (sReg 0), .Register (sReg 1)],
        [.Identifier "nop", .EndOfStatement, .Eof]) := by
    decide +kernel
  refine ⟨?_, ?_, ?_⟩
  · intro accepts
    obtain ⟨list, -⟩ := (statement_accepted_iff.mp accepted).resolve_left (by decide)
    rcases accepts_lines_iff.mp accepts _ _ list with comma | ended
    · cases comma
    · cases ended
  · intro kept
    exact accepted_line_is_left_open accepted (kept _ _ accepted)
  · decide +kernel

/-- A quoted name takes its variant behind the quotes. -/
example : assembleText noSymbols "\tjmp \"a b\" @plt\n".toList =
    assembleText noSymbols "\tjmp foo@plt\n".toList := by
  decide +kernel

end NaplesPU.StatementGrammar
