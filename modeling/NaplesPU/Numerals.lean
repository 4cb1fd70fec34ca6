import NaplesPU.Ctype
import NaplesPU.Lib.CStrings
import NaplesPU.Lib.Scanning

/-!
What the library's conversions of numerals begin with: blanks, a sign and runs of digits, as the
source scans them and as parts of the string.
-/

namespace NaplesPU.Numerals

open ByteMemory CStrings Ctype Machine Scanning

section Classes

def blank (byte : Byte) : Bool := decide (byte = 0x20) || decide (9 ≤ byte ∧ byte ≤ 13)

def digit (byte : Byte) : Bool := decide (0x30 ≤ byte ∧ byte ≤ 0x39)

def signCharacter (byte : Byte) : Bool := decide (byte = 0x2b) || decide (byte = 0x2d)

def Sign (sign : List Byte) : Prop := sign = [] ∨ sign = [0x2b] ∨ sign = [0x2d]

def leadingSign (bytes : List Byte) : List Byte := (bytes.take 1).takeWhile signCharacter

def signValue (sign : List Byte) : Int := if sign = [0x2d] then -1 else 1

def digitValue (byte : Byte) : Nat := byte.toNat - 0x30

theorem isspace_char : (fun byte : Byte => isspace (charValue byte)) = blank := by
  funext byte
  revert byte
  decide

theorem isdigit_char : (fun byte : Byte => isdigit (charValue byte)) = digit := by
  funext byte
  revert byte
  decide

theorem digit_bounds {byte : Byte} (isDigit : digit byte = true) :
    0x30 ≤ byte.toNat ∧ byte.toNat ≤ 0x39 := of_decide_eq_true isDigit

theorem digit_outside {byte : Byte} (isDigit : digit byte = true) :
    blank byte = false ∧ signCharacter byte = false := by
  revert byte
  decide

theorem char_value_digit {byte : Byte} (isDigit : digit byte = true) :
    (charValue byte).toInt = digitValue byte + 0x30 := by
  obtain ⟨low, high⟩ := digit_bounds isDigit
  rw [char_value_to_int, BitVec.toInt_eq_toNat_of_lt (by omega), digitValue]
  omega

end Classes

section Parts

theorem leading_sign_append {sign rest : List Byte} (isSign : Sign sign)
    (stops : Stops signCharacter rest) : leadingSign (sign ++ rest) = sign := by
  rcases isSign with rfl | rfl | rfl
  · cases rest with
    | nil => rfl
    | cons byte rest =>
        have other := stops byte rfl
        rw [leadingSign, List.nil_append, List.take_succ_cons, List.takeWhile_cons, other]
        rfl
  · rfl
  · rfl

theorem leading_sign_is_sign (bytes : List Byte) : Sign (leadingSign bytes) := by
  cases bytes with
  | nil => exact Or.inl rfl
  | cons byte rest =>
      rw [leadingSign, List.take_succ_cons, List.take_zero, List.takeWhile_cons, List.takeWhile_nil]
      split
      · rename_i isSign
        rw [signCharacter, Bool.or_eq_true, decide_eq_true_eq, decide_eq_true_eq] at isSign
        rcases isSign with rfl | rfl
        · exact Or.inr (Or.inl rfl)
        · exact Or.inr (Or.inr rfl)
      · exact Or.inl rfl

theorem leading_sign_first (bytes : List Byte) : leadingSign bytes <+: bytes :=
  (List.takeWhile_prefix _).trans (List.take_prefix 1 bytes)

/-- Behind the blanks and the sign. -/
def unsignedPart (bytes : List Byte) : List Byte :=
  (bytes.dropWhile blank).drop (leadingSign (bytes.dropWhile blank)).length

theorem parts_append (bytes : List Byte) :
    bytes.takeWhile blank ++ (leadingSign (bytes.dropWhile blank) ++ unsignedPart bytes) = bytes := by
  have sign := List.prefix_iff_eq_append.mp (leading_sign_first (bytes.dropWhile blank))
  rw [unsignedPart, sign, List.takeWhile_append_dropWhile]

theorem digits_stop {digits rest : List Byte} (allDigits : ∀ byte ∈ digits, digit byte = true)
    (nonempty : digits ≠ []) {keep : Byte → Bool}
    (outside : ∀ byte, digit byte = true → keep byte = false) : Stops keep (digits ++ rest) := by
  cases digits with
  | nil => exact absurd rfl nonempty
  | cons byte digits => exact stops_cons (outside byte (allDigits byte List.mem_cons_self))

/-- Blanks and a sign in front of something else are the parts that the scans find. -/
theorem parts_of_append {blanks sign rest : List Byte}
    (allBlank : ∀ byte ∈ blanks, blank byte = true) (isSign : Sign sign)
    (notBlank : Stops blank rest) (unsigned : Stops signCharacter rest) :
    (blanks ++ (sign ++ rest)).takeWhile blank = blanks ∧
      leadingSign ((blanks ++ (sign ++ rest)).dropWhile blank) = sign ∧
      unsignedPart (blanks ++ (sign ++ rest)) = rest := by
  have stops : Stops blank (sign ++ rest) := by
    rcases isSign with rfl | rfl | rfl
    · exact notBlank
    · exact stops_cons rfl
    · exact stops_cons rfl
  have signed := leading_sign_append isSign unsigned
  rw [unsignedPart, drop_while_run allBlank stops, signed, List.drop_left]
  exact ⟨take_while_run allBlank stops, rfl, rfl⟩

end Parts

section Scans

theorem zero_not_space : isspace (charValue 0) = false := rfl

theorem zero_not_digit : isdigit (charValue 0) = false := rfl

variable {memory : Memory 32} (terminated : Terminated memory)

def skipSpaces (s : Word) : Word :=
  (@scanWhile 32 Unit memory terminated (fun byte => isspace (charValue byte)) zero_not_space
    (fun _ _ => ()) s ()).1

/-- Takes digits, and what the body makes of them. -/
def scanDigits {State : Type} (body : State → Byte → State) (s : Word) (state : State) :
    Word × State :=
  @scanWhile 32 State memory terminated (fun byte => isdigit (charValue byte)) zero_not_digit
    body s state

/-- The sign as a factor, and the place behind it. -/
def readSign (memory : Memory 32) (s : Word) : Int × Word :=
  if charValue (memory s) = 0x2d then (-1, s + 1)
  else if charValue (memory s) = 0x2b then (1, s + 1)
  else (1, s)

theorem skip_spaces_eq (s : Word) :
    skipSpaces terminated s =
      s + BitVec.ofNat 32 ((text terminated s).takeWhile blank).length := by
  rw [skipSpaces, scan_while_eq, isspace_char]

theorem scan_digits_eq {State : Type} (body : State → Byte → State) (s : Word) (state : State) :
    scanDigits terminated body s state =
      (s + BitVec.ofNat 32 ((text terminated s).takeWhile digit).length,
        ((text terminated s).takeWhile digit).foldl body state) := by
  rw [scanDigits, scan_while_eq, isdigit_char]

theorem char_value_is {byte : Byte} {c : Word} {other : Byte} (known : charValue other = c) :
    charValue byte = c ↔ byte = other := by
  rw [← known, char_value_inj]

theorem read_sign_eq (s : Word) :
    readSign memory s = (signValue (leadingSign (text terminated s)),
      s + BitVec.ofNat 32 (leadingSign (text terminated s)).length) := by
  have minus := @char_value_is (memory s) 0x2d 0x2d rfl
  have plus := @char_value_is (memory s) 0x2b 0x2b rfl
  have one : (1 : Word) = BitVec.ofNat 32 1 := rfl
  rw [readSign, if_congr minus rfl (if_congr plus rfl rfl)]
  by_cases zero : memory s = 0
  · rw [zero, text_nil terminated zero, if_neg (by decide), if_neg (by decide)]
    exact congrArg (Prod.mk 1) (BitVec.add_zero s).symm
  · rw [text_cons terminated zero, leadingSign, List.take_succ_cons, List.take_zero,
      List.takeWhile_cons, List.takeWhile_nil]
    generalize memory s = byte
    by_cases negative : byte = 0x2d
    · rw [negative]
      rfl
    · by_cases positive : byte = 0x2b
      · rw [positive]
        rfl
      · have other : signCharacter byte = false := by
          rw [signCharacter, decide_eq_false positive, decide_eq_false negative]
          rfl
        rw [if_neg negative, if_neg positive, other]
        exact congrArg (Prod.mk 1) (BitVec.add_zero s).symm

theorem read_sign_skip_spaces (s : Word) :
    readSign memory (skipSpaces terminated s) =
        (signValue (leadingSign ((text terminated s).dropWhile blank)),
          s + BitVec.ofNat 32 (((text terminated s).takeWhile blank).length +
            (leadingSign ((text terminated s).dropWhile blank)).length)) ∧
      text terminated (readSign memory (skipSpaces terminated s)).2 =
        unsignedPart (text terminated s) := by
  have skipped := text_after_scan terminated blank s
  have inside := (leading_sign_first ((text terminated s).dropWhile blank)).length_le
  rw [read_sign_eq terminated, skip_spaces_eq, skipped]
  constructor
  · rw [BitVec.ofNat_add, BitVec.add_assoc]
  · rw [unsignedPart, ← skipped]
    rw [← skipped] at inside
    exact text_drop terminated inside

end Scans

end NaplesPU.Numerals
