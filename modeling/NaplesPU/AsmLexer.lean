import NaplesPU.Lib.Scanning
import Mathlib.Algebra.Group.Nat.Defs

/-!
The lexer of the assembler. A symbol of the text is a byte. `$` and `@` carry
whether the next token stands right behind them, which decides whether they are
the beginning of a name. A marker of the preprocessor is read as the comment
that it is to every statement. The end of the text ends the statement that is
still open there.
-/

namespace NaplesPU.AsmLexer

open Scanning

inductive AsmToken where
  | Eof | EndOfStatement | Error | Comment
  | Identifier (name : String)
  | String (contents : String)
  | Integer (value : Nat)
  | BigNum (value : Nat)
  | Real (literal : String)
  | Colon | Plus | Minus | Tilde | Slash | BackSlash | LParen | RParen | LBrac | RBrac
  | LCurly | RCurly | Star | Dot | Comma
  | Dollar (adjacent : Bool)
  | At (adjacent : Bool)
  | Equal | EqualEqual | Pipe | PipePipe | Caret | Amp | AmpAmp | Exclaim | ExclaimEqual
  | Percent | Less | LessEqual | LessLess | LessGreater | Greater | GreaterEqual
  | GreaterGreater | MinusGreater
deriving DecidableEq, Repr

def isIdentifierChar (symbol : Char) : Bool :=
  symbol.isAlphanum || symbol = '_' || symbol = '$' || symbol = '.' || symbol = '@' ||
    symbol = '?'

def isHexDigit (symbol : Char) : Bool :=
  symbol.isDigit || ('a' ≤ symbol && symbol ≤ 'f') || ('A' ≤ symbol && symbol ≤ 'F')

/-- The value of a letter or digit as a digit of a radix above ten. -/
def charValue (symbol : Char) : Nat :=
  if symbol.isDigit then symbol.toNat - '0'.toNat
  else if 'a' ≤ symbol then symbol.toNat - 'a'.toNat + 10
  else symbol.toNat - 'A'.toNat + 10

def getAsHexadecimal (digits : List Char) : Nat :=
  digits.foldl (fun value symbol => 16 * value + charValue symbol) 0

/-- A literal of more than sixty-four bits is no `Integer` token. -/
def intToken (value : Nat) : AsmToken := if value < 2 ^ 64 then .Integer value else .BigNum value

def dropSymbol (symbol : Char) : List Char → List Char
  | [] => []
  | head :: rest => if head = symbol then rest else head :: rest

def SkipIgnoredIntegerSuffix (text : List Char) : List Char :=
  dropSymbol 'L' (dropSymbol 'L' (dropSymbol 'U' text))

/-- The symbols after an `e`: a sign, if there is one, and digits. -/
def exponentText (text : List Char) : List Char × List Char :=
  let sign := (text.take 1).filter fun symbol => symbol = '+' || symbol = '-'
  let rest := text.drop sign.length
  (sign ++ rest.takeWhile Char.isDigit, rest.dropWhile Char.isDigit)

/-- The fraction and the exponent of a literal that begins with the symbols `start`. The exponent
may be without digits. -/
def LexFloatLiteral (start text : List Char) : AsmToken × List Char :=
  let mantissa := start ++ text.takeWhile Char.isDigit
  match text.dropWhile Char.isDigit with
  | 'e' :: rest =>
      (.Real (String.ofList (mantissa ++ 'e' :: (exponentText rest).1)), (exponentText rest).2)
  | 'E' :: rest =>
      (.Real (String.ofList (mantissa ++ 'E' :: (exponentText rest).1)), (exponentText rest).2)
  | rest => (.Real (String.ofList mantissa), rest)

/-- The exponent of a hexadecimal floating point literal, in decimal digits. -/
def LexHexExponent (mantissa text : List Char) : AsmToken × List Char :=
  match text with
  | [] => (.Error, [])
  | first :: text =>
      if first = 'p' ∨ first = 'P' then
        let exponent := exponentText text
        if exponent.1.getLast?.any Char.isDigit then
          (.Real (String.ofList (mantissa ++ first :: exponent.1)), exponent.2)
        else (.Error, exponent.2)
      else (.Error, first :: text)

def LexHexFloatLiteral (start : List Char) (noIntDigits : Bool) (text : List Char) :
    AsmToken × List Char :=
  match text with
  | '.' :: fraction =>
      if noIntDigits ∧ fraction.takeWhile isHexDigit = [] then (.Error, fraction)
      else LexHexExponent (start ++ '.' :: fraction.takeWhile isHexDigit)
        (fraction.dropWhile isHexDigit)
  | _ => if noIntDigits then (.Error, text) else LexHexExponent start text

/-- `[a-zA-Z_.][a-zA-Z0-9_$.@?]*`, except for `.` alone and for floating point literals
that begin with it. -/
def LexIdentifier (first : Char) (text : List Char) : AsmToken × List Char :=
  let digits := text.takeWhile Char.isDigit
  let fraction := text.dropWhile Char.isDigit
  if first = '.' ∧ digits ≠ [] ∧ (fraction.head? = some 'e' ∨ fraction.head? = some 'E' ∨
      fraction.head?.all fun symbol => !isIdentifierChar symbol) then
    LexFloatLiteral ('.' :: digits) fraction
  else if first = '.' ∧ text.takeWhile isIdentifierChar = [] then (.Dot, text)
  else (.Identifier (String.ofList (first :: text.takeWhile isIdentifierChar)),
    text.dropWhile isIdentifierChar)

/-- A binary literal after `0b`; a `b` without a digit is left for the next token. -/
def LexBinary (text : List Char) : AsmToken × List Char :=
  let isBit : Char → Bool := fun symbol => symbol = '0' || symbol = '1'
  match text.tail.head? with
  | some symbol =>
      if symbol.isDigit then
        if isBit symbol then
          (intToken (Nat.ofDigitChars 2 (text.tail.takeWhile isBit) 0),
            SkipIgnoredIntegerSuffix (text.tail.dropWhile isBit))
        else (.Error, text.tail)
      else (.Integer 0, text)
  | none => (.Integer 0, text)

def LexHexadecimal (start text : List Char) : AsmToken × List Char :=
  let digits := text.takeWhile isHexDigit
  let rest := text.dropWhile isHexDigit
  if rest.head? = some '.' ∨ rest.head? = some 'p' ∨ rest.head? = some 'P' then
    LexHexFloatLiteral (start ++ digits) (digits = []) rest
  else if digits = [] then (.Error, rest)
  else (intToken (getAsHexadecimal digits), SkipIgnoredIntegerSuffix rest)

/-- A number. Only a small `e` makes it one with an exponent when it has no point. -/
def LexDigit (first : Char) (text : List Char) : AsmToken × List Char :=
  let digits := first :: text.takeWhile Char.isDigit
  let rest := text.dropWhile Char.isDigit
  if first ≠ '0' ∨ text.head? = some '.' then
    if rest.head? = some '.' ∨ rest.head? = some 'e' then
      LexFloatLiteral (digits ++ rest.take 1) rest.tail
    else (intToken (Nat.ofDigitChars 10 digits 0), SkipIgnoredIntegerSuffix rest)
  else if text.head? = some 'b' ∨ text.head? = some 'B' then LexBinary text
  else if text.head? = some 'x' ∨ text.head? = some 'X' then
    LexHexadecimal (first :: text.take 1) text.tail
  else if digits.all fun symbol => symbol < '8' then
    (intToken (Nat.ofDigitChars 8 digits 0), SkipIgnoredIntegerSuffix rest)
  else (.Error, rest)

/-- A character as a number of sixty-four bits, with its sign. -/
def characterValue (symbol : Char) : Nat :=
  ((BitVec.ofNat 8 symbol.toNat).signExtend 64).toNat

/-- `'c'`, or `'\c'` with an escaped symbol. -/
def LexSingleQuote (text : List Char) : AsmToken × List Char :=
  match text with
  | '\\' :: escaped :: '\'' :: rest =>
      (.Integer (match escaped with
        | 't' => 9
        | 'n' => 10
        | 'b' => 8
        | _ => characterValue escaped), rest)
  | '\\' :: _ :: _ :: rest => (.Error, rest)
  | '\\' :: _ => (.Error, [])
  | symbol :: '\'' :: rest => (.Integer (characterValue symbol), rest)
  | _ :: _ :: rest => (.Error, rest)
  | _ => (.Error, [])

/-- The string up to its closing quote; a backslash keeps the symbol after it from closing it. -/
def LexQuote : List Char → List Char → AsmToken × List Char
  | contents, '"' :: rest => (.String (String.ofList contents.reverse), rest)
  | contents, '\\' :: escaped :: rest => LexQuote (escaped :: '\\' :: contents) rest
  | contents, symbol :: rest => LexQuote (symbol :: contents) rest
  | _, [] => (.Error, [])

def LexComment : List Char → AsmToken × List Char
  | '*' :: '/' :: rest => (.Comment, rest)
  | _ :: rest => LexComment rest
  | [] => (.Error, [])

/-- A comment ends its statement, and takes the end of the line with it. -/
def LexLineComment (text : List Char) : AsmToken × List Char :=
  match text.dropWhile fun symbol => symbol ≠ '\n' && symbol ≠ '\r' with
  | '\r' :: rest => (.EndOfStatement, dropSymbol '\n' rest)
  | rest => (.EndOfStatement, rest.tail)

/-- An operator of one symbol, or of two when the second follows. -/
def withSecond (text : List Char) (single : AsmToken) (pairs : List (Char × AsmToken)) :
    AsmToken × List Char :=
  match pairs.find? fun pair => text.head? = some pair.1 with
  | some pair => (pair.2, text.tail)
  | none => (single, text)

def isBlank (symbol : Char) : Bool := symbol = ' ' || symbol = '\t' || symbol = '\x00'

/-- Whether the next token begins with the next symbol. -/
def isAdjacent (text : List Char) : Bool := text.head?.any fun symbol => !isBlank symbol

def LexPunctuation (first : Char) (text : List Char) : AsmToken × List Char :=
  match first with
  | '\n' | ';' => (.EndOfStatement, text)
  | '\r' => (.EndOfStatement, dropSymbol '\n' text)
  | '#' => LexLineComment text
  | ':' => (.Colon, text)
  | '+' => (.Plus, text)
  | '~' => (.Tilde, text)
  | '(' => (.LParen, text)
  | ')' => (.RParen, text)
  | '[' => (.LBrac, text)
  | ']' => (.RBrac, text)
  | '{' => (.LCurly, text)
  | '}' => (.RCurly, text)
  | '*' => (.Star, text)
  | ',' => (.Comma, text)
  | '$' => (.Dollar (isAdjacent text), text)
  | '@' => (.At (isAdjacent text), text)
  | '\\' => (.BackSlash, text)
  | '\'' => LexSingleQuote text
  | '"' => LexQuote [] text
  | '^' => (.Caret, text)
  | '%' => (.Percent, text)
  | '=' => withSecond text .Equal [('=', .EqualEqual)]
  | '-' => withSecond text .Minus [('>', .MinusGreater)]
  | '|' => withSecond text .Pipe [('|', .PipePipe)]
  | '&' => withSecond text .Amp [('&', .AmpAmp)]
  | '!' => withSecond text .Exclaim [('=', .ExclaimEqual)]
  | '<' => withSecond text .Less [('<', .LessLess), ('=', .LessEqual), ('>', .LessGreater)]
  | '>' => withSecond text .Greater [('>', .GreaterGreater), ('=', .GreaterEqual)]
  | '/' =>
      match text.head? with
      | some '/' => LexLineComment text.tail
      | some '*' => LexComment text.tail
      | _ => (.Slash, text)
  | _ => (.Error, text)

def LexToken : List Char → Option (AsmToken × List Char)
  | [] => none
  | first :: text =>
      if isBlank first then LexToken text
      else if first.isAlpha || first = '_' || first = '.' then some (LexIdentifier first text)
      else if first.isDigit then some (LexDigit first text)
      else some (LexPunctuation first text)

/-- The token stream of a text. A statement that the text does not end is ended before
the end of the file. -/
def lexText (text : List Char) : List AsmToken :=
  let tokens := scan LexToken text.length text
  match tokens.getLast? with
  | none | some .EndOfStatement => tokens ++ [.Eof]
  | some _ => tokens ++ [.EndOfStatement, .Eof]

section Chunks

/-- What may follow an identifier or a number: nothing that would belong to it. -/
abbrev Delimited : List Char → Prop := Stops isIdentifierChar

theorem lex_blank {symbol : Char} (blank : isBlank symbol) (text : List Char) :
    LexToken (symbol :: text) = LexToken text := by
  rw [LexToken, if_pos blank]

theorem is_identifier_char_of_is_digit {symbol : Char} (digit : symbol.isDigit) :
    isIdentifierChar symbol := by
  simp [isIdentifierChar, Char.isAlphanum, digit]

theorem chunk_identifier {first : Char} {rest : List Char} (letter : first.isAlpha ∨ first = '_')
    (inside : ∀ symbol ∈ rest, isIdentifierChar symbol) :
    Chunk LexToken Delimited (first :: rest) [.Identifier (String.ofList (first :: rest))] := by
  have notBlank : isBlank first = false := by
    rcases letter with alpha | rfl
    · have different : ∀ blank : Char, blank.isAlpha = false → first ≠ blank := by
        rintro blank none rfl
        simp [none] at alpha
      simp [isBlank, different ' ' rfl, different '\t' rfl, different '\x00' rfl]
    · rfl
  have notDot : first ≠ '.' := by
    rintro rfl
    rcases letter with alpha | underscore
    · exact absurd alpha (by decide)
    · exact absurd underscore (by decide)
  have named : first.isAlpha || first = '_' || first = '.' := by
    rcases letter with alpha | rfl
    · simp [alpha]
    · rfl
  apply chunk_token (by simp)
  intro text delimited
  rw [List.cons_append, LexToken, if_neg (by simp [notBlank]), if_pos named, LexIdentifier,
    if_neg (by simp [notDot]), if_neg (by simp [notDot]), take_while_run inside delimited,
    drop_while_run inside delimited]

theorem drop_symbol_delimited {symbol : Char} {text : List Char} (delimited : Delimited text)
    (inside : isIdentifierChar symbol) : dropSymbol symbol text = text := by
  cases text with
  | nil => rfl
  | cons head rest =>
      have outside := delimited head (by simp)
      have different : head ≠ symbol := by
        rintro rfl
        simp [inside] at outside
      rw [dropSymbol, if_neg different]

theorem skip_suffix_delimited {text : List Char} (delimited : Delimited text) :
    SkipIgnoredIntegerSuffix text = text := by
  rw [SkipIgnoredIntegerSuffix, drop_symbol_delimited delimited (by decide),
    drop_symbol_delimited delimited (by decide), drop_symbol_delimited delimited (by decide)]

theorem head_ne_of_delimited {text : List Char} (delimited : Delimited text) (symbol : Char)
    (inside : isIdentifierChar symbol) : text.head? ≠ some symbol := by
  intro head
  have outside := delimited symbol (by simp [head])
  simp [inside] at outside

/-- A positive number in decimal does not begin with a zero. -/
theorem to_digits_head {value : Nat} (positive : 0 < value) :
    ∃ first rest, Nat.toDigits 10 value = first :: rest ∧ first ≠ '0' := by
  induction value using Nat.strongRecOn with
  | ind value induction =>
      rcases Nat.lt_or_ge value 10 with small | large
      · have notZero : ∀ digit < 10, 0 < digit → Nat.digitChar digit ≠ '0' := by decide
        exact ⟨Nat.digitChar value, [], Nat.toDigits_of_lt_base small, notZero value small positive⟩
      · obtain ⟨first, rest, digits, notZero⟩ := induction (value / 10) (by omega) (by omega)
        rw [Nat.toDigits_of_base_le (by decide) large, digits]
        exact ⟨first, rest ++ _, rfl, notZero⟩

theorem to_digits_are_digits {value : Nat} {symbol : Char}
    (member : symbol ∈ Nat.toDigits 10 value) : symbol.isDigit :=
  Nat.isDigit_of_mem_toDigits (by decide) (by decide) member

theorem ne_of_is_digit {symbol other : Char} (digit : symbol.isDigit)
    (different : other.isDigit = false) : symbol ≠ other := by
  rintro rfl
  simp [different] at digit

theorem is_alpha_of_is_digit {symbol : Char} (digit : symbol.isDigit) :
    symbol.isAlpha = false := by
  have letters : symbol.isAlpha = (decide ('A'.val ≤ symbol.val ∧ symbol.val ≤ 'Z'.val) ||
      ('a'.val ≤ symbol.val && symbol.val ≤ 'z'.val)) := rfl
  rw [letters]
  simp only [Char.isDigit, Bool.and_eq_true, decide_eq_true_eq, UInt32.le_iff_toNat_le,
    ge_iff_le, Bool.or_eq_false_iff, Bool.and_eq_false_iff, decide_eq_false_iff_not,
    not_and_or] at digit ⊢
  have upper : 'A'.val.toNat = 65 := rfl
  have lower : 'a'.val.toNat = 97 := rfl
  have nine : '9'.val.toNat = 57 := rfl
  omega

theorem lex_digit {first : Char} (digit : first.isDigit) (text : List Char) :
    LexToken (first :: text) = some (LexDigit first text) := by
  have notBlank : isBlank first = false := by
    simp [isBlank, ne_of_is_digit digit]
  have notName : (first.isAlpha || first = '_' || first = '.') = false := by
    simp [is_alpha_of_is_digit digit, ne_of_is_digit digit]
  rw [LexToken, if_neg (by simp [notBlank]), if_neg (by simp [notName]), if_pos digit]

theorem lex_zero {text : List Char} (delimited : Delimited text) (noDigit : Stops Char.isDigit text) :
    LexDigit '0' text = (.Integer 0, text) := by
  have absent (symbol : Char) (inside : isIdentifierChar symbol) : text.head? ≠ some symbol :=
    head_ne_of_delimited delimited symbol inside
  have notDecimal : ¬ ('0' ≠ '0' ∨ text.head? = some '.') := by
    simp [absent '.' (by decide)]
  have notBinary : ¬ (text.head? = some 'b' ∨ text.head? = some 'B') := by
    simp [absent 'b' (by decide), absent 'B' (by decide)]
  have notHexadecimal : ¬ (text.head? = some 'x' ∨ text.head? = some 'X') := by
    simp [absent 'x' (by decide), absent 'X' (by decide)]
  rw [LexDigit, take_while_eq_nil noDigit, drop_while_eq_self noDigit, if_neg notDecimal,
    if_neg notBinary, if_neg notHexadecimal, if_pos (by decide), skip_suffix_delimited delimited]
  rfl

theorem lex_decimal {first : Char} {rest text : List Char} (notZero : first ≠ '0')
    (inside : ∀ symbol ∈ rest, symbol.isDigit) (delimited : Delimited text)
    (noDigit : Stops Char.isDigit text) :
    LexDigit first (rest ++ text) =
      (intToken (Nat.ofDigitChars 10 (first :: rest) 0), text) := by
  have notReal : ¬ (text.head? = some '.' ∨ text.head? = some 'e') := by
    simp [head_ne_of_delimited delimited '.' (by decide),
      head_ne_of_delimited delimited 'e' (by decide)]
  rw [LexDigit, take_while_run inside noDigit, drop_while_run inside noDigit,
    if_pos (Or.inl notZero), if_neg notReal, skip_suffix_delimited delimited]

theorem chunk_decimal (value : Nat) :
    Chunk LexToken Delimited (Nat.toDigits 10 value) [intToken value] := by
  apply chunk_token Nat.toDigits_ne_nil
  intro text delimited
  have noDigit : Stops Char.isDigit text := by
    intro symbol head
    have outside := delimited symbol head
    by_contra digit
    simp [is_identifier_char_of_is_digit (by simpa using digit)] at outside
  rcases Nat.eq_zero_or_pos value with rfl | positive
  · rw [Nat.toDigits_zero, List.cons_append, List.nil_append, lex_digit (by decide),
      lex_zero delimited noDigit]
    rfl
  · obtain ⟨first, rest, digits, notZero⟩ := to_digits_head positive
    have digit : first.isDigit := to_digits_are_digits (by rw [digits]; simp)
    have inside : ∀ symbol ∈ rest, symbol.isDigit := fun symbol member =>
      to_digits_are_digits (by rw [digits]; simp [member])
    rw [digits, List.cons_append, lex_digit digit, lex_decimal notZero inside delimited noDigit,
      ← digits, Nat.ofDigitChars_ten_toDigits]

end Chunks

end NaplesPU.AsmLexer
