import NaplesPU.Numerals

/-!
The library's `strtof`. It moves on over a point or a sign that no digit belongs to, and goes
back to the start of the string where an exponent letter has no exponent.
-/

namespace NaplesPU.Strtof

open ByteMemory CStrings Ctype Machine Numerals Scanning

section Routine

def characterDigit (byte : Byte) : Float32 := Float32.ofInt (charValue byte - 0x30).toInt

/-- Each digit behind the point counts for a tenth of the one before it. -/
structure Fraction where
  factor : Float32
  value : Float32

def Fraction.next (fraction : Fraction) (byte : Byte) : Fraction :=
  let factor := fraction.factor * 0.1
  ⟨factor, fraction.value + characterDigit byte * factor⟩

/-- Multiplies by the power of the factor, by repeated squaring. -/
def scale (expo : Word) (factor value : Float32) : Float32 :=
  let product := if expo &&& 1 ≠ 0 then value * factor else value
  if expo >>> 1 = 0 then product else scale (expo >>> 1) (factor * factor) product
termination_by expo.toNat
decreasing_by
  have more : expo >>> 1 ≠ 0 := by assumption
  have positive := BitVec.toNat_pos_of_ne_zero more
  rw [BitVec.toNat_ushiftRight, Nat.shiftRight_one] at positive ⊢
  omega

/-- The factor and the first digit of an exponent. There is none if neither a sign nor one of the
ten digit labels matches. -/
def exponentStart (memory : Memory 32) (p : Word) : Option (Float32 × Word) :=
  if charValue (memory p) = 0x2d then some (0.1, p + 1)
  else if charValue (memory p) = 0x2b then some (10, p + 1)
  else if charValue (memory p) ∈
      [0x30, 0x31, 0x32, 0x33, 0x34, 0x35, 0x36, 0x37, 0x38, 0x39] then some (10, p)
  else none

variable {memory : Memory 32} (terminated : Terminated memory)

def readFraction (p : Word) (value : Float32) : Word × Float32 :=
  if charValue (memory p) = 0x2e then
    let read := scanDigits terminated Fraction.next (p + 1) ⟨1, value⟩
    (read.1, read.2.value)
  else (p, value)

def readExponent (s p : Word) (value : Float32) : Word × Float32 :=
  if charValue (memory p) ||| 32 = 0x65 then
    match exponentStart memory (p + 1) with
    | some (factor, start) =>
        let read := scanDigits terminated
          (fun expo byte => 10 * expo + (charValue byte - 0x30)) start (0 : Word)
        (read.1, scale read.2 factor value)
    | none => (s, 0)
  else (p, value)

def strtof (s endptr : Word) : Memory 32 × Float32 :=
  let signed := readSign memory (skipSpaces terminated s)
  let whole := scanDigits terminated (fun value byte => value * 10 + characterDigit byte) signed.2 0
  let number := readFraction terminated whole.1 whole.2
  let scaled := readExponent terminated s number.1 number.2
  (if endptr ≠ 0 then storeWord32 memory endptr scaled.1 else memory,
    scaled.2 * Float32.ofInt signed.1)

end Routine

section Grammar

def exponentLetter (byte : Byte) : Bool := decide (byte = 0x65) || decide (byte = 0x45)

def AllDigits (digits : List Byte) : Prop := ∀ byte ∈ digits, digit byte = true

def Exponent (bytes : List Byte) : Prop :=
  ∃ letter sign digits, bytes = letter :: (sign ++ digits) ∧ exponentLetter letter = true ∧
    Sign sign ∧ AllDigits digits ∧ digits ≠ []

/-- Blanks, a sign, digits with a fraction, at least one of them, and an exponent. -/
def FloatNumeral (bytes : List Byte) : Prop :=
  ∃ blanks sign whole point fraction exponent,
    bytes = blanks ++ (sign ++ (whole ++ (point ++ (fraction ++ exponent)))) ∧
      (∀ byte ∈ blanks, blank byte = true) ∧ Sign sign ∧ AllDigits whole ∧
      (point = [] ∧ fraction = [] ∨ point = [0x2e] ∧ AllDigits fraction) ∧
      whole ++ fraction ≠ [] ∧ (exponent = [] ∨ Exponent exponent)

def exponentSign (bytes : List Byte) : List Byte := leadingSign bytes.tail

def exponentDigits (bytes : List Byte) : List Byte :=
  (bytes.tail.drop (exponentSign bytes).length).takeWhile digit

def beginsWithLetter (bytes : List Byte) : Bool := bytes.head?.any exponentLetter

def leadingExponent (bytes : List Byte) : List Byte :=
  if beginsWithLetter bytes = true ∧ exponentDigits bytes ≠ [] then
    bytes.take 1 ++ (exponentSign bytes ++ exponentDigits bytes)
  else []

end Grammar

section Parts

/-- What the scan finds in a string before it looks for an exponent, and the rest. -/
structure FloatParts where
  blanks : List Byte
  sign : List Byte
  whole : List Byte
  point : List Byte
  fraction : List Byte
  rest : List Byte

def pointParts (bytes : List Byte) : List Byte × List Byte × List Byte :=
  if bytes.head? = some 0x2e then
    ([0x2e], bytes.tail.takeWhile digit, bytes.tail.dropWhile digit)
  else ([], [], bytes)

def floatParts (bytes : List Byte) : FloatParts :=
  let behind := pointParts ((unsignedPart bytes).dropWhile digit)
  ⟨bytes.takeWhile blank, leadingSign (bytes.dropWhile blank),
    (unsignedPart bytes).takeWhile digit, behind.1, behind.2.1, behind.2.2⟩

namespace FloatParts

variable (parts : FloatParts)

def mantissa : List Byte :=
  parts.blanks ++ (parts.sign ++ (parts.whole ++ (parts.point ++ parts.fraction)))

def digits : List Byte := parts.whole ++ parts.fraction

def numeral : List Byte := parts.mantissa ++ leadingExponent parts.rest

/-- With a digit in the mantissa, an exponent letter has digits behind it; without one, the scan
goes back, or has come over nothing. -/
def ScansRight : Prop :=
  if parts.digits ≠ [] then
    beginsWithLetter parts.rest = true → exponentDigits parts.rest ≠ []
  else if beginsWithLetter parts.rest = true then
    exponentSign parts.rest = [] ∧ exponentDigits parts.rest = []
  else parts.blanks ++ (parts.sign ++ parts.point) = []

instance : Decidable parts.ScansRight := inferInstanceAs (Decidable (ite _ _ _))

def scanned : Nat :=
  if beginsWithLetter parts.rest = true then
    if exponentSign parts.rest = [] ∧ exponentDigits parts.rest = [] then 0
    else
      parts.mantissa.length +
        (1 + (exponentSign parts.rest).length + (exponentDigits parts.rest).length)
  else parts.mantissa.length

end FloatParts

end Parts

section Scans

variable {memory : Memory 32} (terminated : Terminated memory)

theorem point_char (byte : Byte) : charValue byte = 0x2e ↔ byte = 0x2e := char_value_is rfl

theorem letter_char (byte : Byte) :
    charValue byte ||| 32 = 0x65 ↔ exponentLetter byte = true := by
  revert byte
  decide

theorem digit_label (byte : Byte) :
    charValue byte ∈ [0x30, 0x31, 0x32, 0x33, 0x34, 0x35, 0x36, 0x37, 0x38, 0x39] ↔
      digit byte = true := by
  revert byte
  decide

theorem read_fraction_end (p : Word) (value : Float32) :
    (readFraction terminated p value).1 = p + BitVec.ofNat 32
        ((pointParts (text terminated p)).1 ++ (pointParts (text terminated p)).2.1).length ∧
      text terminated (readFraction terminated p value).1 =
        (pointParts (text terminated p)).2.2 := by
  have head : memory p = 0x2e ↔ (text terminated p).head? = some 0x2e :=
    byte_eq_iff_head terminated (by decide)
  rw [readFraction, pointParts]
  by_cases point : memory p = 0x2e
  · have nonzero : memory p ≠ 0 := by
      rw [point]
      decide
    have behind := text_after_scan terminated digit (p + 1)
    rw [if_pos ((point_char _).mpr point), if_pos (head.mp point), scan_digits_eq,
      ← text_tail terminated nonzero]
    constructor
    · rw [List.singleton_append, List.length_cons]
      exact add_one_add p _
    · exact behind
  · rw [if_neg (mt (point_char _).mp point), if_neg (mt head.mpr point)]
    exact ⟨(BitVec.add_zero p).symm, rfl⟩

theorem exponent_start_eq (p : Word) :
    (exponentStart memory p).map Prod.snd =
      if leadingSign (text terminated p) = [] ∧ (text terminated p).takeWhile digit = [] then none
      else some (p + BitVec.ofNat 32 (leadingSign (text terminated p)).length) := by
  have minus := @char_value_is (memory p) 0x2d 0x2d rfl
  have plus := @char_value_is (memory p) 0x2b 0x2b rfl
  rw [exponentStart, if_congr minus rfl (if_congr plus rfl (if_congr (digit_label _) rfl rfl))]
  by_cases zero : memory p = 0
  · rw [text_nil terminated zero, zero]
    rfl
  · rw [text_cons terminated zero, leadingSign, List.take_succ_cons, List.take_zero,
      List.takeWhile_cons, List.takeWhile_nil, List.takeWhile_cons]
    generalize memory p = byte
    by_cases negative : byte = 0x2d
    · rw [negative]
      rfl
    · by_cases positive : byte = 0x2b
      · rw [positive]
        rfl
      · have unsigned : signCharacter byte = false := by
          rw [signCharacter, decide_eq_false positive, decide_eq_false negative]
          rfl
        rw [if_neg negative, if_neg positive, unsigned]
        by_cases isDigit : digit byte = true
        · rw [if_pos isDigit, if_pos isDigit, if_neg (by simp)]
          exact congrArg some (BitVec.add_zero p).symm
        · rw [if_neg isDigit, if_neg isDigit, if_pos ⟨rfl, rfl⟩]
          rfl

theorem exponent_missing_iff (tail : List Byte) :
    leadingSign tail = [] ∧ (tail.drop (leadingSign tail).length).takeWhile digit = [] ↔
      leadingSign tail = [] ∧ tail.takeWhile digit = [] := by
  apply and_congr_right
  intro unsigned
  rw [unsigned, List.length_nil, List.drop_zero]

variable (parts : FloatParts)

/-- The exponent is read to its end, or the scan goes back. -/
theorem read_exponent_end (s p : Word) (value : Float32)
    (rest : text terminated p = parts.rest) :
    (readExponent terminated s p value).1 =
      if beginsWithLetter parts.rest = true then
        if exponentSign parts.rest = [] ∧ exponentDigits parts.rest = [] then s
        else p + BitVec.ofNat 32 (1 + (exponentSign parts.rest).length + (exponentDigits parts.rest).length)
      else p := by
  have letter : exponentLetter (memory p) = beginsWithLetter parts.rest := by
    rw [beginsWithLetter, ← rest, head_any terminated p rfl]
  rw [readExponent, if_congr (letter_char _) rfl rfl, letter]
  split
  · rename_i found
    rw [← letter] at found
    have nonzero : memory p ≠ 0 := by
      intro zero
      rw [zero] at found
      cases found
    have started := exponent_start_eq terminated (p + 1)
    rw [exponentDigits, exponentSign, ← rest, ← text_tail terminated nonzero,
      if_congr (exponent_missing_iff _) rfl rfl]
    cases outcome : exponentStart memory (p + 1) with
    | none =>
        rw [outcome, Option.map_none] at started
        split at started
        · rename_i missing
          rw [if_pos missing]
        · cases started
    | some start =>
        rw [outcome, Option.map_some] at started
        split at started
        · cases started
        · rename_i present
          have place := Option.some_inj.mp started
          have inside := (leading_sign_first (text terminated (p + 1))).length_le
          have behind := text_drop terminated inside
          rw [if_neg present]
          dsimp only
          rw [scan_digits_eq, place, behind, add_one_add, BitVec.add_assoc, ← BitVec.ofNat_add,
            Nat.add_comm 1]
  · rfl

theorem read_mantissa_end (s : Word) (value : Float32) (body : Float32 → Byte → Float32) :
    let whole := scanDigits terminated body (readSign memory (skipSpaces terminated s)).2 value
    (readFraction terminated whole.1 whole.2).1 =
        s + BitVec.ofNat 32 (floatParts (text terminated s)).mantissa.length ∧
      text terminated (readFraction terminated whole.1 whole.2).1 =
        (floatParts (text terminated s)).rest := by
  intro whole
  obtain ⟨start, behind⟩ := read_sign_skip_spaces terminated s
  have digits := text_after_scan terminated digit (readSign memory (skipSpaces terminated s)).2
  have scanned := scan_digits_eq terminated body (readSign memory (skipSpaces terminated s)).2 value
  have place : whole.1 = (readSign memory (skipSpaces terminated s)).2 +
      BitVec.ofNat 32 ((unsignedPart (text terminated s)).takeWhile digit).length := by
    rw [← behind]
    exact congrArg Prod.fst scanned
  rw [behind, ← place] at digits
  obtain ⟨fraction, rest⟩ := read_fraction_end terminated whole.1 whole.2
  rw [digits] at fraction rest
  constructor
  · rw [fraction, place, start, FloatParts.mantissa, floatParts]
    dsimp only
    simp only [BitVec.add_assoc, ← BitVec.ofNat_add, List.length_append, Nat.add_assoc]
  · rw [rest, floatParts]

theorem strtof_end (s : Word) {endptr : Word} (given : endptr ≠ 0) :
    loadWord32 (strtof terminated s endptr).1 endptr =
      s + BitVec.ofNat 32 (floatParts (text terminated s)).scanned := by
  obtain ⟨place, rest⟩ := read_mantissa_end terminated s 0
    fun value byte => value * 10 + characterDigit byte
  rw [strtof, if_pos given, load_word32_store_word32, read_exponent_end terminated _ s _ _ rest,
    place, FloatParts.scanned, BitVec.add_assoc, ← BitVec.ofNat_add]
  split
  · split
    · exact (BitVec.add_zero s).symm
    · rfl
  · rfl

end Scans

section Longest

variable {exponent tail : List Byte}

theorem point_parts_cons (rest : List Byte) :
    pointParts (0x2e :: rest) = ([0x2e], rest.takeWhile digit, rest.dropWhile digit) := by
  rw [pointParts, List.head?_cons, if_pos rfl, List.tail_cons]

theorem point_parts_nothing {bytes : List Byte} (stops : Stops (fun byte => byte = 0x2e) bytes) :
    pointParts bytes = ([], [], bytes) := by
  rw [pointParts, if_neg]
  intro point
  have other := stops 0x2e point
  cases other

theorem letter_outside {byte : Byte} (isLetter : exponentLetter byte = true) :
    digit byte = false ∧ decide (byte = 0x2e) = false := by
  revert byte
  decide

/-- An exponent is the first part of the one that the text begins with. -/
theorem exponent_within (isExponent : Exponent exponent) :
    exponent.length ≤ (leadingExponent (exponent ++ tail)).length := by
  obtain ⟨letter, sign, digits, rfl, isLetter, isSign, allDigits, nonempty⟩ := isExponent
  have unsigned : Stops signCharacter (digits ++ tail) :=
    digits_stop allDigits nonempty fun byte isDigit => (digit_outside isDigit).2
  have signed : exponentSign (letter :: (sign ++ digits) ++ tail) = sign := by
    rw [exponentSign, List.cons_append, List.tail_cons, List.append_assoc,
      leading_sign_append isSign unsigned]
  have taken : exponentDigits (letter :: (sign ++ digits) ++ tail) =
      digits ++ tail.takeWhile digit := by
    rw [exponentDigits, signed, List.cons_append, List.tail_cons, List.append_assoc, List.drop_left,
      List.takeWhile_append_of_pos allDigits]
  rw [leadingExponent, signed, taken, if_pos]
  · simp only [List.cons_append, List.take_succ_cons, List.length_cons, List.length_append]
    omega
  · exact ⟨isLetter, by simp [nonempty]⟩

theorem exponent_stops {exponent : List Byte} (isExponent : Exponent exponent) {keep : Byte → Bool}
    (outside : ∀ byte, exponentLetter byte = true → keep byte = false) :
    Stops keep (exponent ++ tail) := by
  obtain ⟨letter, sign, digits, rfl, isLetter, rest⟩ := isExponent
  exact stops_cons (outside letter isLetter)

/-- Where a numeral stands, the scans take at least its digits, point and exponent. -/
theorem number_within {whole point fraction exponent tail : List Byte}
    (wholeDigits : AllDigits whole)
    (pointed : point = [] ∧ fraction = [] ∨ point = [0x2e] ∧ AllDigits fraction)
    (some : whole ++ fraction ≠ []) (exponential : exponent = [] ∨ Exponent exponent)
    {bytes : List Byte} (parts : bytes = whole ++ (point ++ (fraction ++ (exponent ++ tail)))) :
    bytes.takeWhile digit ++ (pointParts (bytes.dropWhile digit)).2.1 ≠ [] ∧
      (whole ++ (point ++ (fraction ++ exponent))).length ≤
        (bytes.takeWhile digit ++ ((pointParts (bytes.dropWhile digit)).1 ++
          ((pointParts (bytes.dropWhile digit)).2.1 ++
            leadingExponent (pointParts (bytes.dropWhile digit)).2.2))).length := by
  subst parts
  rcases pointed with ⟨rfl, rfl⟩ | ⟨rfl, fractionDigits⟩
  · rw [List.append_nil] at some
    rcases exponential with rfl | isExponent
    · rw [List.nil_append, List.nil_append, List.nil_append,
        List.takeWhile_append_of_pos wholeDigits]
      constructor
      · simp [some]
      · simp only [List.append_nil, List.length_append]
        omega
    · have stops : Stops digit (exponent ++ tail) :=
        exponent_stops isExponent fun byte isLetter => (letter_outside isLetter).1
      have noPoint : Stops (fun byte => byte = 0x2e) (exponent ++ tail) :=
        exponent_stops isExponent fun byte isLetter => (letter_outside isLetter).2
      have within := @exponent_within exponent tail isExponent
      rw [List.nil_append, List.nil_append, List.nil_append, take_while_run wholeDigits stops,
        drop_while_run wholeDigits stops, point_parts_nothing noPoint]
      constructor
      · simp [some]
      · simp only [List.nil_append, List.length_append]
        omega
  · have stops : Stops digit ([0x2e] ++ (fraction ++ (exponent ++ tail))) := stops_cons rfl
    rw [take_while_run wholeDigits stops, drop_while_run wholeDigits stops, List.singleton_append,
      point_parts_cons]
    rcases exponential with rfl | isExponent
    · rw [List.nil_append, List.takeWhile_append_of_pos fractionDigits, List.append_nil]
      constructor
      · rw [← List.append_assoc]
        exact List.append_ne_nil_of_left_ne_nil some _
      · simp only [List.length_append]
        omega
    · have stops : Stops digit (exponent ++ tail) :=
        exponent_stops isExponent fun byte isLetter => (letter_outside isLetter).1
      have within := @exponent_within exponent tail isExponent
      rw [take_while_run fractionDigits stops, drop_while_run fractionDigits stops]
      constructor
      · exact some
      · simp only [List.length_append]
        omega

theorem point_parts_append (bytes : List Byte) :
    (pointParts bytes).1 ++ ((pointParts bytes).2.1 ++ (pointParts bytes).2.2) = bytes := by
  by_cases point : bytes.head? = some 0x2e
  · cases bytes with
    | nil => cases point
    | cons byte bytes =>
        rw [List.head?_cons, Option.some_inj] at point
        rw [point, point_parts_cons, List.takeWhile_append_dropWhile]
        rfl
  · rw [pointParts, if_neg point]
    rfl

theorem float_parts_append (bytes : List Byte) :
    (floatParts bytes).mantissa ++ (floatParts bytes).rest = bytes := by
  have behind := point_parts_append ((unsignedPart bytes).dropWhile digit)
  have whole : (unsignedPart bytes).takeWhile digit ++ (unsignedPart bytes).dropWhile digit =
      unsignedPart bytes := List.takeWhile_append_dropWhile
  have parts := parts_append bytes
  rw [FloatParts.mantissa, floatParts]
  dsimp only
  rw [List.append_assoc, List.append_assoc, List.append_assoc, List.append_assoc, behind, whole,
    parts]

theorem exponent_parts_first (bytes : List Byte) :
    exponentSign bytes ++ exponentDigits bytes <+: bytes.tail := by
  have sign := List.prefix_iff_eq_append.mp (leading_sign_first bytes.tail)
  have digits := List.takeWhile_prefix digit (l := bytes.tail.drop (exponentSign bytes).length)
  have both := (List.prefix_append_right_inj (exponentSign bytes)).mpr digits
  rw [exponentSign, sign] at both
  exact both

theorem leading_exponent_cases (bytes : List Byte) :
    leadingExponent bytes <+: bytes ∧
      (leadingExponent bytes = [] ∨ Exponent (leadingExponent bytes)) := by
  rw [leadingExponent]
  split
  · rename_i present
    obtain ⟨letter, some⟩ := present
    cases bytes with
    | nil => cases letter
    | cons byte bytes =>
        have first := exponent_parts_first (byte :: bytes)
        rw [List.take_succ_cons, List.take_zero, List.singleton_append]
        constructor
        · exact List.cons_prefix_cons.mpr ⟨rfl, first⟩
        · apply Or.inr
          exact ⟨byte, _, _, rfl, letter, leading_sign_is_sign _,
            fun other member => List.mem_takeWhile_imp member, some⟩
  · exact ⟨List.nil_prefix, Or.inl rfl⟩

theorem point_parts_form (bytes : List Byte) :
    (pointParts bytes).1 = [] ∧ (pointParts bytes).2.1 = [] ∨
      (pointParts bytes).1 = [0x2e] ∧ AllDigits (pointParts bytes).2.1 := by
  rw [pointParts]
  split
  · exact Or.inr ⟨rfl, fun byte member => List.mem_takeWhile_imp member⟩
  · exact Or.inl ⟨rfl, rfl⟩

/-- A numeral behind its sign begins with a digit or the point. -/
theorem number_stops {whole point fraction rest : List Byte} (wholeDigits : AllDigits whole)
    (pointed : point = [] ∧ fraction = [] ∨ point = [0x2e] ∧ AllDigits fraction)
    (some : whole ++ fraction ≠ []) {keep : Byte → Bool}
    (outside : ∀ byte, digit byte = true → keep byte = false) (atPoint : keep 0x2e = false) :
    Stops keep (whole ++ (point ++ rest)) := by
  by_cases nothing : whole = []
  · rw [nothing, List.nil_append] at some ⊢
    rcases pointed with ⟨_, none⟩ | ⟨rfl, _⟩
    · exact absurd none some
    · exact stops_cons atPoint
  · exact digits_stop wholeDigits nothing outside

/-- A numeral in front of the string is no longer than what the scan finds. -/
theorem numeral_within {bytes run : List Byte} (first : run <+: bytes)
    (isNumeral : FloatNumeral run) :
    (floatParts bytes).digits ≠ [] ∧ run.length ≤ (floatParts bytes).numeral.length := by
  obtain ⟨tail, rfl⟩ := first
  obtain ⟨blanks, sign, whole, point, fraction, exponent, rfl, allBlank, isSign, wholeDigits,
    pointed, some, exponential⟩ := isNumeral
  have notBlank : Stops blank (whole ++ (point ++ (fraction ++ (exponent ++ tail)))) :=
    number_stops wholeDigits pointed some (fun byte isDigit => (digit_outside isDigit).1) rfl
  have unsigned : Stops signCharacter (whole ++ (point ++ (fraction ++ (exponent ++ tail)))) :=
    number_stops wholeDigits pointed some (fun byte isDigit => (digit_outside isDigit).2) rfl
  have parts := parts_of_append allBlank isSign notBlank unsigned
  obtain ⟨digits, within⟩ := @number_within whole point fraction exponent tail wholeDigits pointed
    some exponential _ rfl
  simp only [List.append_assoc, FloatParts.digits, FloatParts.numeral, FloatParts.mantissa,
    floatParts, parts]
  constructor
  · exact digits
  · simp only [List.length_append] at within ⊢
    omega

/-- Where the scan finds a digit, the mantissa and its exponent are the longest numeral. -/
theorem numeral_longest {bytes : List Byte} (some : (floatParts bytes).digits ≠ []) :
    LongestPrefix FloatNumeral bytes (floatParts bytes).numeral where
  first := by
    have parts := float_parts_append bytes
    have exponent := (leading_exponent_cases (floatParts bytes).rest).1
    have both := (List.prefix_append_right_inj (floatParts bytes).mantissa).mpr exponent
    rw [parts] at both
    exact both
  accepted := by
    refine ⟨bytes.takeWhile blank, leadingSign (bytes.dropWhile blank),
      (unsignedPart bytes).takeWhile digit, (floatParts bytes).point, (floatParts bytes).fraction,
      leadingExponent (floatParts bytes).rest, ?_, fun byte member => List.mem_takeWhile_imp member,
      leading_sign_is_sign _, fun byte member => List.mem_takeWhile_imp member,
      point_parts_form _, some, (leading_exponent_cases _).2⟩
    rw [FloatParts.numeral, FloatParts.mantissa]
    simp only [List.append_assoc]
    rfl
  longest := fun _ first isNumeral => (numeral_within first isNumeral).2

theorem no_numeral {bytes run : List Byte} (none : (floatParts bytes).digits = [])
    (first : run <+: bytes) : ¬ FloatNumeral run :=
  fun isNumeral => (numeral_within first isNumeral).1 none

end Longest

section Results

/-- The end of the longest numeral that the string begins with, or its start if it begins with
none. -/
def EndsNumeral (bytes : List Byte) (s final : Word) : Prop :=
  (∃ run, LongestPrefix FloatNumeral bytes run ∧ final = s + BitVec.ofNat 32 run.length) ∨
    (∀ run, run <+: bytes → ¬ FloatNumeral run) ∧ final = s

variable {memory : Memory 32}

theorem scanned_le (bytes : List Byte) : (floatParts bytes).scanned ≤ bytes.length := by
  have parts := congrArg List.length (float_parts_append bytes)
  have behind := (exponent_parts_first (floatParts bytes).rest).length_le
  rw [List.length_append] at parts behind
  rw [FloatParts.scanned]
  split
  · rename_i letter
    have some : (floatParts bytes).rest ≠ [] := by
      intro nothing
      rw [nothing] at letter
      cases letter
    have positive := List.length_pos_iff.mpr some
    rw [List.length_tail] at behind
    split
    · exact Nat.zero_le _
    · omega
  · omega

def FloatParts.numeralEnd (parts : FloatParts) : Nat :=
  if parts.digits ≠ [] then parts.numeral.length else 0

theorem ends_numeral_at {bytes : List Byte} (short : bytes.length < 2 ^ 32) (s : Word)
    {place : Nat} (inside : place ≤ bytes.length) :
    EndsNumeral bytes s (s + BitVec.ofNat 32 place) ↔ place = (floatParts bytes).numeralEnd := by
  have distance {other : Nat} (within : other ≤ bytes.length)
      (same : s + BitVec.ofNat 32 place = s + BitVec.ofNat 32 other) : place = other := by
    have offsets := congrArg (offsetFrom s) same
    rw [offset_from_add (by omega), offset_from_add (by omega)] at offsets
    exact offsets
  rw [FloatParts.numeralEnd]
  split
  · rename_i some
    have longest := numeral_longest some
    constructor
    · rintro (⟨run, isLongest, same⟩ | ⟨nothing, same⟩)
      · rw [isLongest.unique longest] at same
        exact distance longest.first.length_le same
      · exact absurd longest.accepted (nothing _ longest.first)
    · rintro rfl
      exact Or.inl ⟨_, longest, rfl⟩
  · rename_i none
    have nothing (run : List Byte) (first : run <+: bytes) : ¬ FloatNumeral run :=
      no_numeral (not_not.mp none) first
    constructor
    · rintro (⟨run, isLongest, same⟩ | ⟨_, same⟩)
      · exact absurd isLongest.accepted (nothing run isLongest.first)
      · apply distance (Nat.zero_le _)
        rw [same, BitVec.add_zero]
    · rintro rfl
      exact Or.inr ⟨nothing, BitVec.add_zero s⟩

theorem letter_length {bytes : List Byte} (letter : beginsWithLetter bytes = true) :
    (bytes.take 1).length = 1 := by
  cases bytes with
  | nil => cases letter
  | cons byte bytes => rfl

theorem scanned_eq_iff (parts : FloatParts) :
    parts.scanned = parts.numeralEnd ↔ parts.ScansRight := by
  have mantissa : parts.mantissa.length = parts.blanks.length + (parts.sign.length +
      (parts.whole.length + (parts.point.length + parts.fraction.length))) := by
    simp only [FloatParts.mantissa, List.length_append]
  have digits : parts.digits.length = parts.whole.length + parts.fraction.length :=
    List.length_append
  rw [FloatParts.scanned, FloatParts.numeralEnd, FloatParts.ScansRight, FloatParts.numeral,
    leadingExponent]
  by_cases some : parts.digits ≠ []
  · have positive := List.length_pos_iff.mpr some
    rw [if_pos some, if_pos some]
    by_cases letter : beginsWithLetter parts.rest = true
    · rw [if_pos letter]
      by_cases exponent : exponentDigits parts.rest ≠ []
      · have one := letter_length letter
        have present : ¬ (exponentSign parts.rest = [] ∧ exponentDigits parts.rest = []) :=
          fun missing => exponent missing.2
        rw [if_neg present, if_pos ⟨letter, exponent⟩]
        simp only [List.length_append, one]
        exact iff_of_true (by omega) fun _ => exponent
      · have absent : ¬ (beginsWithLetter parts.rest = true ∧ exponentDigits parts.rest ≠ []) :=
          fun present => exponent present.2
        rw [if_neg absent, List.append_nil]
        apply iff_of_false
        · split
          · omega
          · omega
        · exact fun followed => exponent (followed letter)
    · have absent : ¬ (beginsWithLetter parts.rest = true ∧ exponentDigits parts.rest ≠ []) :=
        fun present => letter present.1
      rw [if_neg letter, if_neg absent, List.append_nil]
      exact iff_of_true rfl fun found => absurd found letter
  · have none := not_not.mp some
    rw [if_neg some, if_neg some]
    by_cases letter : beginsWithLetter parts.rest = true
    · rw [if_pos letter, if_pos letter]
      split
      · rename_i missing
        exact iff_of_true rfl missing
      · rename_i present
        exact iff_of_false (by omega) present
    · rw [none, List.length_nil] at digits
      rw [if_neg letter, if_neg letter, ← List.length_eq_zero_iff]
      simp only [List.length_append]
      omega

theorem ends_numeral_iff (terminated : Terminated memory) (s : Word) :
    EndsNumeral (text terminated s) s
        (s + BitVec.ofNat 32 (floatParts (text terminated s)).scanned) ↔
      (floatParts (text terminated s)).ScansRight := by
  have short := string_length_lt terminated s
  rw [← text_length] at short
  rw [ends_numeral_at short s (scanned_le _), scanned_eq_iff]

/-- The end pointer of `strtof` is that of the longest numeral exactly if the exponent letter, the
sign and the point that the scan comes over belong to one. -/
theorem strtof_ends_iff (terminated : Terminated memory) (s endptr : Word) (given : endptr ≠ 0) :
    EndsNumeral (text terminated s) s (loadWord32 (strtof terminated s endptr).1 endptr) ↔
      (floatParts (text terminated s)).ScansRight := by
  rw [strtof_end terminated s given]
  exact ends_numeral_iff terminated s

def tenth : List Byte := [0x31, 0x65, 0x2d, 0x31]

theorem tenth_short : tenth.length < 2 ^ 32 := by decide

theorem tenth_ends :
    EndsNumeral (text (holding_terminated tenth_short) 0) 0
      (loadWord32 (strtof (holding_terminated tenth_short) 0 0x100).1 0x100) := by
  apply (strtof_ends_iff (holding_terminated tenth_short) 0 0x100 (by decide)).mpr
  rw [text_holding tenth_short (by decide)]
  decide

def oneLetter : List Byte := [0x31, 0x65]

theorem one_letter_short : oneLetter.length < 2 ^ 32 := by decide

/-- The number in front of the letter is not consumed. -/
theorem letter_goes_back :
    ¬ ∀ (memory : Memory 32) (terminated : Terminated memory) (s endptr : Word), endptr ≠ 0 →
      EndsNumeral (text terminated s) s (loadWord32 (strtof terminated s endptr).1 endptr) := by
  intro right
  have ended := right _ (holding_terminated one_letter_short) 0 0x100 (by decide)
  rw [strtof_end _ 0 (by decide), ends_numeral_iff, text_holding one_letter_short (by decide)]
    at ended
  exact absurd ended (by decide)

end Results

end NaplesPU.Strtof
