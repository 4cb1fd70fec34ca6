import Mathlib.Data.Nat.Digits.Defs
import NaplesPU.Numerals

/-!
The library's `strtol` over a `strtoul` that comes from elsewhere. It takes a minus in front of a
letter or digit itself, leaves every other sign to `strtoul`, and clamps what that returns.
-/

namespace NaplesPU.Strtol

open ByteMemory CStrings Ctype Machine Numerals Scanning

section Grammar

def digitOf (byte : Byte) : Option Nat :=
  if 0x30 ≤ byte ∧ byte ≤ 0x39 then some (byte.toNat - 0x30)
  else if 0x61 ≤ byte ∧ byte ≤ 0x7a then some (byte.toNat - 0x61 + 10)
  else if 0x41 ≤ byte ∧ byte ≤ 0x5a then some (byte.toNat - 0x41 + 10)
  else none

/-- The value of digits of a base, if there are some and all are less than the base. -/
def digitsValue (base : Nat) (bytes : List Byte) : Option Nat :=
  if bytes ≠ [] ∧ ∀ byte ∈ bytes, (digitOf byte).any (fun value => value < base) = true then
    some (Nat.ofDigits base (bytes.filterMap digitOf).reverse)
  else none

def behindPrefix : List Byte → Option (List Byte)
  | 0x30 :: 0x78 :: rest => some rest
  | 0x30 :: 0x58 :: rest => some rest
  | _ => none

/-- The value of an unsigned numeral. In base 16 a prefix may stand before the digits, and base 0
is that of the numeral's own prefix, 8 after a leading zero, and else 10. -/
def magnitude (base : Nat) (bytes : List Byte) : Option Nat :=
  if base = 0 ∨ base = 16 then
    match behindPrefix bytes with
    | some digits => digitsValue 16 digits
    | none =>
        digitsValue (if base = 16 then 16 else if bytes.head? = some 0x30 then 8 else 10) bytes
  else digitsValue base bytes

/-- The sign and the magnitude of a numeral with blanks and a sign in front of it. -/
def numeral (base : Nat) (bytes : List Byte) : Option (Bool × Nat) :=
  (magnitude base (unsignedPart bytes)).map fun value =>
    (decide (leadingSign (bytes.dropWhile blank) = [0x2d]), value)

def accepts (base : Nat) (bytes : List Byte) : Bool := (numeral base bytes).isSome

structure Subject where
  length : Nat
  negative : Bool
  magnitude : Nat

def Subject.behind (front : Nat) (negative : Bool) (subject : Subject) : Subject :=
  ⟨front + subject.length, negative, subject.magnitude⟩

def Converts (base : Nat) (bytes : List Byte) : Option Subject → Prop
  | some subject => ∃ run, LongestPrefix (fun run => accepts base run = true) bytes run ∧
      run.length = subject.length ∧
      numeral base run = some (subject.negative, subject.magnitude)
  | none => ∀ run, run <+: bytes → accepts base run = false

def endOffset : Option Subject → Nat
  | some subject => subject.length
  | none => 0

def signedValue : Option Subject → Int
  | some subject => if subject.negative then -(subject.magnitude : Int) else subject.magnitude
  | none => 0

end Grammar

section Unsigned

def ULONG_MAX : Word := 0xffffffff

/-- What `strtoul` returns: the value modulo the range, or the largest one where the magnitude is
out of range. -/
def unsignedValue : Option Subject → Word
  | some subject =>
      if subject.magnitude ≤ ULONG_MAX.toNat then
        if subject.negative then -BitVec.ofNat 32 subject.magnitude
        else BitVec.ofNat 32 subject.magnitude
      else ULONG_MAX
  | none => 0

def ValidBase (base : Word) : Prop := base = 0 ∨ 2 ≤ base.toNat ∧ base.toNat ≤ 36

variable {memory : Memory 32}

/-- The contract of `strtoul` for the strings of a memory: the value and the end of the longest
numeral. -/
def MeetsContract (strtoul : Memory 32 → Word → Word → Word → Memory 32 × Word)
    (terminated : Terminated memory) : Prop :=
  ∀ nptr endptr base, ValidBase base → ∃ subject,
    Converts base.toNat (text terminated nptr) subject ∧
      (strtoul memory nptr endptr base).2 = unsignedValue subject ∧
      (endptr ≠ 0 → loadWord32 (strtoul memory nptr endptr base).1 endptr =
        nptr + BitVec.ofNat 32 (endOffset subject))

/-- A `strtoul` that looks for the longest numeral. -/
def referenceStrtoul (terminated : Terminated memory) (nptr endptr base : Word) :
    Memory 32 × Word :=
  let subject := (findLongest (accepts base.toNat) (text terminated nptr)).bind fun run =>
    (numeral base.toNat run).map fun value => Subject.mk run.length value.1 value.2
  (if endptr ≠ 0 then storeWord32 memory endptr (nptr + BitVec.ofNat 32 (endOffset subject))
    else memory, unsignedValue subject)

end Unsigned

section Routine

def ABS_INT_MIN : Word := 2147483648

variable {memory : Memory 32}

/-- The value of `strtoul` with the sign that was taken, clamped to the range of `int`. -/
def clampedValue (neg : Bool) (v : Word) : Word :=
  if ABS_INT_MIN ≤ v then
    if v = ABS_INT_MIN ∧ neg = true then v
    else BitVec.ofInt 32 (if neg then INT_MIN else INT_MAX)
  else if neg then -v else v

def strtol (strtoul : Memory 32 → Word → Word → Word → Memory 32 × Word)
    (terminated : Terminated memory) (nptr endptr base : Word) : Memory 32 × Word :=
  let start := skipSpaces terminated nptr
  let neg := decide (charValue (memory start) = 0x2d) && isalnum (charValue (memory (start + 1)))
  let number := if neg then start + 1 else start
  let converted := strtoul memory number endptr base
  (if endptr ≠ 0 ∧ loadWord32 converted.1 endptr = number then
      storeWord32 converted.1 endptr nptr
    else converted.1, clampedValue neg converted.2)

end Routine

section Fronts

variable {base : Nat} {bytes front : List Byte} {subject : Option Subject}

theorem digit_alnum {byte : Byte} (isDigit : (digitOf byte).isSome = true) :
    isalnum (charValue byte) = true := by
  revert byte
  decide

theorem digits_value_head {value : Nat} (found : digitsValue base bytes = some value) :
    ∃ byte rest, bytes = byte :: rest ∧ isalnum (charValue byte) = true := by
  rw [digitsValue] at found
  split at found
  · rename_i digits
    cases bytes with
    | nil => exact absurd rfl digits.1
    | cons byte rest =>
        have first := digits.2 byte List.mem_cons_self
        exact ⟨byte, rest, rfl, digit_alnum (Option.isSome_of_any first)⟩
  · cases found

theorem behind_prefix_head {digits : List Byte} (found : behindPrefix bytes = some digits) :
    ∃ rest, bytes = 0x30 :: rest := by
  rw [behindPrefix.eq_def] at found
  split at found
  · exact ⟨_, rfl⟩
  · exact ⟨_, rfl⟩
  · cases found

theorem magnitude_head {value : Nat} (found : magnitude base bytes = some value) :
    ∃ byte rest, bytes = byte :: rest ∧ isalnum (charValue byte) = true := by
  rw [magnitude] at found
  split at found
  · split at found
    · rename_i digits known
      obtain ⟨rest, begins⟩ := behind_prefix_head known
      exact ⟨0x30, rest, begins, rfl⟩
    · exact digits_value_head found
  · exact digits_value_head found

theorem alnum_outside {byte : Byte} (isAlnum : isalnum (charValue byte) = true) :
    blank byte = false ∧ signCharacter byte = false := by
  revert byte
  decide

theorem numeral_unsigned {byte : Byte} {rest : List Byte}
    (isAlnum : isalnum (charValue byte) = true) :
    numeral base (byte :: rest) =
      (magnitude base (byte :: rest)).map fun value => (false, value) := by
  have outside := alnum_outside isAlnum
  have notBlank : Stops blank (byte :: rest) := stops_cons outside.1
  have unsigned : Stops signCharacter (byte :: rest) := stops_cons outside.2
  have parts := @parts_of_append [] [] (byte :: rest) (by simp) (Or.inl rfl) notBlank unsigned
  rw [List.nil_append, List.nil_append] at parts
  rw [numeral, parts.2.1, parts.2.2]
  rfl

theorem numeral_minus (rest : List Byte) :
    numeral base (0x2d :: rest) = (magnitude base rest).map fun value => (true, value) := by
  rfl

theorem numeral_blanks {blanks rest : List Byte} (allBlank : ∀ byte ∈ blanks, blank byte = true) :
    numeral base (blanks ++ rest) = numeral base rest := by
  rw [numeral, numeral, unsignedPart, unsignedPart, List.dropWhile_append_of_pos allBlank]

theorem magnitude_nil : magnitude base [] = none := by
  cases found : magnitude base [] with
  | none => rfl
  | some value =>
      obtain ⟨byte, rest, nothing, _⟩ := magnitude_head found
      cases nothing

theorem numeral_nil : numeral base [] = none := congrArg (Option.map _) magnitude_nil

theorem accepts_nil : accepts base [] = false := congrArg Option.isSome numeral_nil

theorem Converts.behind (converts : Converts base bytes subject) (sign : Bool → Bool)
    (same : ∀ rest, rest <+: bytes →
      numeral base (front ++ rest) = (numeral base rest).map fun value => (sign value.1, value.2))
    (inside : ∀ other, other <+: front → accepts base other = false) :
    Converts base (front ++ bytes)
      (subject.map fun found => found.behind front.length (sign found.negative)) := by
  have accepted (rest : List Byte) (first : rest <+: bytes) :
      accepts base (front ++ rest) = accepts base rest := by
    rw [accepts, same rest first, Option.isSome_map]
    rfl
  cases subject with
  | none =>
      intro run first
      rcases prefix_cases first with within | ⟨rest, following, rfl⟩
      · exact inside run within
      · rw [accepted rest following]
        exact converts rest following
  | some found =>
      obtain ⟨run, longest, length, value⟩ := converts
      have behind : LongestPrefix (fun run => accepts base run = true) (front ++ bytes)
          (front ++ run) := by
        apply longest.behind
        · intro rest first
          rw [accepted rest first]
        · intro other within isAccepted
          rw [inside other within] at isAccepted
          cases isAccepted
      refine ⟨front ++ run, behind, ?_, ?_⟩
      · rw [List.length_append, length]
        rfl
      · rw [same run longest.first, value]
        rfl

theorem converts_behind_blanks {blanks : List Byte}
    (allBlank : ∀ byte ∈ blanks, blank byte = true) (converts : Converts base bytes subject) :
    Converts base (blanks ++ bytes)
      (subject.map fun found => found.behind blanks.length found.negative) := by
  apply converts.behind id
  · intro rest _
    rw [numeral_blanks allBlank]
    exact Option.map_id'.symm
  · intro other within
    have allOther : ∀ byte ∈ other, blank byte = true :=
      fun byte member => allBlank byte (within.subset member)
    have same := @numeral_blanks base other [] allOther
    rw [List.append_nil] at same
    rw [accepts, same]
    exact accepts_nil

/-- A minus in front of a letter or digit is the sign of the numeral behind it. -/
theorem converts_behind_minus {byte : Byte} {rest : List Byte}
    (isAlnum : isalnum (charValue byte) = true)
    (converts : Converts base (byte :: rest) subject) :
    Converts base ([0x2d] ++ (byte :: rest)) (subject.map (Subject.behind 1 true)) := by
  apply converts.behind fun _ => true
  · intro run first
    rw [List.singleton_append, numeral_minus]
    rcases List.prefix_cons_iff.mp first with rfl | ⟨more, rfl, _⟩
    · rw [magnitude_nil, numeral_nil]
      rfl
    · rw [numeral_unsigned isAlnum, Option.map_map]
      rfl
  · intro other within
    rcases List.prefix_cons_iff.mp within with rfl | ⟨more, rfl, following⟩
    · exact accepts_nil
    · rw [List.prefix_nil.mp following, accepts, numeral_minus, magnitude_nil]
      rfl

/-- Without a minus in front of a letter or digit there is no negative numeral. -/
theorem unsigned_of_alone (notBlank : Stops blank bytes)
    (alone : ∀ byte rest, bytes = 0x2d :: byte :: rest → isalnum (charValue byte) = false)
    (converts : Converts base bytes subject) : ∀ found ∈ subject, found.negative = false := by
  rintro found rfl
  obtain ⟨run, longest, length, value⟩ := converts
  by_contra negative
  rw [Bool.not_eq_false] at negative
  rw [negative] at value
  cases run with
  | nil =>
      rw [numeral_nil] at value
      cases value
  | cons byte more =>
      obtain ⟨tail, following⟩ := longest.first
      have outside : blank byte = false := notBlank byte (by rw [← following]; rfl)
      by_cases minus : byte = 0x2d
      · rw [minus, numeral_minus] at value
        obtain ⟨magnitude, known, _⟩ := Option.map_eq_some_iff.mp value
        obtain ⟨next, rest, rfl, isAlnum⟩ := magnitude_head known
        rw [alone next (rest ++ tail) (by rw [← following, minus]; rfl)] at isAlnum
        cases isAlnum
      · have other : leadingSign (byte :: more) ≠ [0x2d] := by
          rw [leadingSign, List.take_succ_cons, List.take_zero, List.takeWhile_cons,
            List.takeWhile_nil]
          split
          · intro same
            exact minus (List.cons.inj same).1
          · intro same
            cases same
        rw [numeral, drop_while_eq_self (stops_cons outside), decide_eq_false other] at value
        obtain ⟨magnitude, _, pair⟩ := Option.map_eq_some_iff.mp value
        cases pair

theorem converts_length (converts : Converts base bytes subject) :
    ∀ found ∈ subject, 0 < found.length ∧ found.length ≤ bytes.length := by
  rintro found rfl
  obtain ⟨run, longest, length, _⟩ := converts
  have accepted := longest.accepted
  rw [← length]
  constructor
  · apply List.length_pos_iff.mpr
    rintro rfl
    rw [accepts_nil] at accepted
    cases accepted
  · exact longest.first.length_le

end Fronts

section Values

variable {found : Option Subject}

/-- The value of a numeral, or the end of the range of `int` that it is beyond. -/
def clamp (value : Int) : Int := max INT_MIN (min value INT_MAX)

theorem unsigned_value_bits {subject : Subject} (unsigned : subject.negative = false) :
    (unsignedValue (some subject)).toNat = min subject.magnitude 4294967295 := by
  have greatest : ULONG_MAX.toNat = 4294967295 := rfl
  rw [unsignedValue, greatest, unsigned]
  split
  · rw [if_neg (by decide), BitVec.toNat_ofNat]
    omega
  · rw [greatest]
    omega

/-- Clamping the value of `strtoul` gives that of the numeral with the sign that was taken. -/
theorem clamped_value (neg : Bool) (front : Nat)
    (unsigned : ∀ subject ∈ found, subject.negative = false) :
    (clampedValue neg (unsignedValue found)).toInt =
      clamp (signedValue (found.map (Subject.behind front neg))) := by
  cases found with
  | none => cases neg <;> rfl
  | some subject =>
      have bits := unsigned_value_bits (unsigned subject rfl)
      generalize unsignedValue (some subject) = v at bits
      have bound := v.isLt
      have large : ABS_INT_MIN ≤ v ↔ 2147483648 ≤ v.toNat := Iff.rfl
      have least : (BitVec.ofInt 32 INT_MIN).toInt = -2147483648 := rfl
      have greatest : (BitVec.ofInt 32 INT_MAX).toInt = 2147483647 := rfl
      rw [clampedValue, if_congr large rfl rfl, Option.map_some, signedValue, clamp, Subject.behind]
      have low : INT_MIN = -2147483648 := rfl
      have high : INT_MAX = 2147483647 := rfl
      dsimp only
      cases neg with
      | false =>
          by_cases beyond : 2147483648 ≤ v.toNat
          · rw [if_pos beyond, if_neg (by simp), if_neg (by simp), if_neg (by simp), greatest]
            omega
          · rw [if_neg beyond, if_neg (by simp), if_neg (by simp),
              BitVec.toInt_eq_toNat_of_lt (by omega)]
            omega
      | true =>
          by_cases beyond : 2147483648 ≤ v.toNat
          · rw [if_pos beyond, if_pos rfl, if_pos rfl]
            split
            · rename_i equal
              rw [equal.1]
              have same : ABS_INT_MIN.toInt = -2147483648 := rfl
              omega
            · omega
          · have positive : v.toInt = v.toNat := BitVec.toInt_eq_toNat_of_lt (by omega)
            have negated : (-v.toInt).bmod (2 ^ 32) = -v.toInt :=
              Int.bmod_eq_of_le (by omega) (by omega)
            rw [if_neg beyond, if_pos rfl, if_pos rfl, BitVec.toInt_neg, negated]
            omega

end Values

section Results

variable {memory : Memory 32} {base : Word}
  {strtoul : Memory 32 → Word → Word → Word → Memory 32 × Word}

/-- The clamped value of the longest numeral and its end; zero and the start where there is
none. -/
def Converted (base : Word) (bytes : List Byte) (nptr endptr : Word)
    (result : Memory 32 × Word) : Prop :=
  ∃ found, Converts base.toNat bytes found ∧ result.2.toInt = clamp (signedValue found) ∧
    (endptr ≠ 0 → loadWord32 result.1 endptr = nptr + BitVec.ofNat 32 (endOffset found))

theorem finish_converts {found : Option Subject} {number nptr endptr : Word} {front : Nat}
    {converted : Memory 32 × Word} (neg : Bool) (place : number = nptr + BitVec.ofNat 32 front)
    (value : converted.2 = unsignedValue found)
    (ended : endptr ≠ 0 →
      loadWord32 converted.1 endptr = number + BitVec.ofNat 32 (endOffset found))
    (unsigned : ∀ subject ∈ found, subject.negative = false)
    (sized : ∀ subject ∈ found, 0 < subject.length ∧ subject.length < 2 ^ 32) :
    (clampedValue neg converted.2).toInt =
        clamp (signedValue (found.map (Subject.behind front neg))) ∧
      (endptr ≠ 0 →
        loadWord32 (if endptr ≠ 0 ∧ loadWord32 converted.1 endptr = number then
            storeWord32 converted.1 endptr nptr
          else converted.1) endptr =
          nptr + BitVec.ofNat 32 (endOffset (found.map (Subject.behind front neg)))) := by
  constructor
  · rw [value]
    exact clamped_value neg front unsigned
  · intro given
    have stored := ended given
    cases found with
    | none =>
        have nowhere : loadWord32 converted.1 endptr = number := by
          rw [stored]
          exact BitVec.add_zero number
        rw [if_pos ⟨given, nowhere⟩, load_word32_store_word32]
        exact (BitVec.add_zero nptr).symm
    | some subject =>
        obtain ⟨positive, short⟩ := sized subject rfl
        have further : loadWord32 converted.1 endptr ≠ number := by
          rw [stored, endOffset]
          intro same
          have distance := congrArg (offsetFrom number) same
          rw [offset_from_add short, offsetFrom, BitVec.sub_self] at distance
          exact positive.ne' distance
        rw [if_neg fun both => further both.2, stored, place, BitVec.add_assoc, ← BitVec.ofNat_add]
        rfl

/-- `strtol` converts the longest numeral and clamps its value. -/
theorem strtol_converts (terminated : Terminated memory)
    (contract : MeetsContract strtoul terminated) (nptr endptr : Word) (valid : ValidBase base) :
    Converted base (text terminated nptr) nptr endptr
      (strtol strtoul terminated nptr endptr base) := by
  have start := skip_spaces_eq terminated nptr
  have behind := text_after_scan terminated blank nptr
  have notBlank := stops_drop_while blank (text terminated nptr)
  have allBlank : ∀ byte ∈ (text terminated nptr).takeWhile blank, blank byte = true :=
    fun byte member => List.mem_takeWhile_imp member
  have whole : (text terminated nptr).takeWhile blank ++ (text terminated nptr).dropWhile blank =
      text terminated nptr := List.takeWhile_append_dropWhile
  have short (s : Word) {found : Option Subject}
      (converts : Converts base.toNat (text terminated s) found) :
      ∀ subject ∈ found, 0 < subject.length ∧ subject.length < 2 ^ 32 := by
    intro subject member
    have bounds := converts_length converts subject member
    rw [text_length] at bounds
    exact ⟨bounds.1, lt_of_le_of_lt bounds.2 (string_length_lt terminated s)⟩
  rw [← start] at behind
  rw [strtol]
  generalize skipSpaces terminated nptr = s at start behind ⊢
  cases taken : decide (charValue (memory s) = 0x2d) && isalnum (charValue (memory (s + 1))) with
  | true =>
      rw [Bool.and_eq_true, decide_eq_true_eq] at taken
      have minus : memory s = 0x2d := (@char_value_is (memory s) 0x2d 0x2d rfl).mp taken.1
      have isAlnum := taken.2
      obtain ⟨found, converts, value, ended⟩ := contract (s + 1) endptr base valid
      have nonzero : memory (s + 1) ≠ 0 := by
        intro zero
        rw [zero] at isAlnum
        cases isAlnum
      have sized := short (s + 1) converts
      have begins : text terminated s = 0x2d :: text terminated (s + 1) := by
        rw [text_cons terminated (by rw [minus]; decide), minus]
      have rest := text_cons terminated nonzero
      rw [rest] at converts
      have unsigned : ∀ subject ∈ found, subject.negative = false := by
        apply unsigned_of_alone _ _ converts
        · exact stops_cons (alnum_outside isAlnum).1
        · rintro byte more same
          rw [(List.cons.inj same).1] at isAlnum
          cases isAlnum
      have signed := converts_behind_blanks allBlank (converts_behind_minus isAlnum converts)
      rw [List.singleton_append, ← rest, ← begins, behind, whole, Option.map_map] at signed
      have place : s + 1 = nptr +
          BitVec.ofNat 32 (((text terminated nptr).takeWhile blank).length + 1) := by
        rw [start, offset_add_one]
      have finished := finish_converts true place value ended unsigned sized
      refine ⟨_, signed, ?_⟩
      have joined : (fun found : Subject => found.behind
            ((text terminated nptr).takeWhile blank).length found.negative) ∘
          Subject.behind 1 true =
          Subject.behind (((text terminated nptr).takeWhile blank).length + 1) true := by
        funext subject
        exact congrArg (fun length => Subject.mk length true subject.magnitude)
          (Nat.add_assoc _ 1 _).symm
      rw [joined]
      exact finished
  | false =>
      obtain ⟨found, converts, value, ended⟩ := contract s endptr base valid
      have sized := short s converts
      have unsigned : ∀ subject ∈ found, subject.negative = false := by
        apply unsigned_of_alone _ _ converts
        · rw [behind]
          exact notBlank
        · intro byte more begins
          have minus : memory s = 0x2d := by
            rw [first_byte terminated, begins]
            rfl
          have next : memory (s + 1) = byte := by
            rw [first_byte terminated, text_tail terminated (by rw [minus]; decide), begins]
            rfl
          rw [minus, next] at taken
          exact taken
      rw [behind] at converts
      have signed := converts_behind_blanks allBlank converts
      rw [whole] at signed
      have finished := finish_converts false start value ended unsigned sized
      refine ⟨_, signed, ?_⟩
      have signs : found.map (fun subject => subject.behind
            ((text terminated nptr).takeWhile blank).length subject.negative) =
          found.map (Subject.behind ((text terminated nptr).takeWhile blank).length false) := by
        apply Option.map_congr
        intro subject member
        rw [unsigned subject member]
      rw [signs]
      exact finished

theorem reference_meets_contract (terminated : Terminated memory) :
    MeetsContract (fun _ => referenceStrtoul terminated) terminated := by
  intro nptr endptr base valid
  refine ⟨_, ?_, rfl, ?_⟩
  · cases search : findLongest (accepts base.toNat) (text terminated nptr) with
    | none => exact fun run first => find_longest_none search first
    | some run =>
        have longest := find_longest_some search
        cases value : numeral base.toNat run with
        | none =>
            have accepted := longest.accepted
            rw [accepts, value] at accepted
            cases accepted
        | some value =>
            rw [Option.bind_some, value]
            exact ⟨run, longest, rfl, value⟩
  · intro given
    dsimp only
    rw [referenceStrtoul, if_pos given, load_word32_store_word32]

/-- A blank, a minus, and a numeral below the range. -/
def belowRange : List Byte :=
  [0x20, 0x2d, 0x32, 0x31, 0x34, 0x37, 0x34, 0x38, 0x33, 0x36, 0x34, 0x39]

theorem below_range_short : belowRange.length < 2 ^ 32 := by decide

theorem below_range_converted :
    Converted 10 (text (holding_terminated below_range_short) 0) 0 0x100
      (strtol (fun _ => referenceStrtoul (holding_terminated below_range_short))
        (holding_terminated below_range_short) 0 0x100 10) :=
  strtol_converts _ (reference_meets_contract _) 0 0x100 (Or.inr (by decide))

end Results

end NaplesPU.Strtol
