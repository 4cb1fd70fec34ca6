import Mathlib.Data.List.TakeWhile
import NaplesPU.Machine
import NaplesPU.Lib.CStrings
import NaplesPU.Lib.StepRuns

/-!
The library's `strlen`, `strcpy` and `strcat`. The copying loop stops at a zero byte that it
finds, so it goes on for ever where it overwrites the terminator before it comes to it.
-/

namespace NaplesPU.StringCopies

open ByteMemory CStrings Machine StepRuns

section Routines

variable {memory : Memory 32}

def isNonzero (byte : Byte) : Bool := decide (byte ≠ 0)

theorem zero_stops : isNonzero 0 = false := rfl

def strlen (terminated : Terminated memory) (str : Word) : Word :=
  (scanWhile terminated zero_stops (fun (len : Word) _ => len + 1) str 0).2

structure Copying where
  memory : Memory 32
  d : Word
  src : Word

def copyNext (state : Copying) : Option Copying :=
  if state.memory state.src ≠ 0 then
    some ⟨storeBytes state.memory state.d [state.memory state.src], state.d + 1, state.src + 1⟩
  else none

def Copying.terminate (state : Copying) : Memory 32 := storeBytes state.memory state.d [0]

/-- The returned pointer and the memory, if the loop ends within so many rounds. -/
def strcpy (fuel : Nat) (memory : Memory 32) (dest src : Word) : Option (Word × Memory 32) :=
  (runToHalt copyNext fuel ⟨memory, dest, src⟩).map fun state => (dest, state.terminate)

def strcat (terminated : Terminated memory) (fuel : Nat) (c s : Word) :
    Option (Word × Memory 32) :=
  let ret := c
  let c := (scanWhile terminated zero_stops (fun state _ => state) c ()).1
  (runToHalt copyNext fuel ⟨memory, c, s⟩).map fun state => (ret, state.terminate)

end Routines

section Lengths

variable {memory : Memory 32} (terminated : Terminated memory)

theorem take_nonzero (start : Word) :
    (text terminated start).takeWhile isNonzero = text terminated start := by
  rw [List.takeWhile_eq_self_iff]
  intro byte member
  exact decide_eq_true (text_nonzero terminated start byte member)

theorem strlen_eq (str : Word) :
    strlen terminated str = BitVec.ofNat 32 (stringLength terminated str) := by
  have counted (bytes : List Byte) (len : Word) :
      bytes.foldl (fun (len : Word) _ => len + 1) len = len + BitVec.ofNat 32 bytes.length := by
    induction bytes generalizing len with
    | nil => exact (BitVec.add_zero len).symm
    | cons byte rest induction => rw [List.foldl_cons, induction, List.length_cons, add_one_add]
  rw [strlen, scan_while_eq, take_nonzero, counted, text_length]
  exact BitVec.zero_add _

theorem strlen_text (str : Word) :
    strlen terminated str = BitVec.ofNat 32 (text terminated str).length := by
  rw [strlen_eq, text_length]

theorem end_eq (c : Word) :
    (scanWhile terminated zero_stops (fun state _ => state) c ()).1 =
      c + BitVec.ofNat 32 (stringLength terminated c) := by
  rw [scan_while_eq, take_nonzero, text_length]

end Lengths

section Loop

variable {memory : Memory 32} {dest src : Word}

/-- The destination is a later byte of the source, or its terminator. -/
def Behind (terminated : Terminated memory) (dest src : Word) : Prop :=
  1 ≤ offsetFrom src dest ∧ offsetFrom src dest ≤ stringLength terminated src

instance (terminated : Terminated memory) : Decidable (Behind terminated dest src) :=
  inferInstanceAs (Decidable (_ ∧ _))

theorem copy_next_some {state : Copying} {byte : Byte} (read : state.memory state.src = byte)
    (nonzero : byte ≠ 0) :
    copyNext state = some ⟨storeBytes state.memory state.d [byte], state.d + 1, state.src + 1⟩ := by
  subst read
  exact if_pos nonzero

theorem copy_next_none {state : Copying} (read : state.memory state.src = 0) :
    copyNext state = none := if_neg (not_not.mpr read)

variable {terminated : Terminated memory}

theorem next_byte (ahead : ¬ Behind terminated dest src) {done : Nat}
    (within : done ≤ stringLength terminated src) :
    copied memory dest src done (src + BitVec.ofNat 32 done) =
      memory (src + BitVec.ofNat 32 done) := by
  have short := string_length_lt terminated src
  have place : dest = src + BitVec.ofNat 32 (offsetFrom src dest) :=
    (add_offset_from src dest).symm
  have bounded : offsetFrom src dest < 2 ^ 32 := (dest - src).isLt
  have distance : offsetFrom dest (src + BitVec.ofNat 32 done) =
      if offsetFrom src dest ≤ done then done - offsetFrom src dest
      else done + 2 ^ 32 - offsetFrom src dest := by
    conv_lhs => rw [place]
    rw [offset_from_above src _ bounded, offset_from_add (by omega)]
  have outside : ¬ offsetFrom dest (src + BitVec.ofNat 32 done) < done := by
    unfold Behind at ahead
    rw [distance]
    split <;> omega
  exact if_neg outside

theorem store_next {done : Nat} (bounded : done < 2 ^ 32) :
    storeBytes (copied memory dest src done) (dest + BitVec.ofNat 32 done)
        [memory (src + BitVec.ofNat 32 done)] =
      copied memory dest src (done + 1) := by
  have single (address : Word) : loadBytes memory address 1 = [memory address] := by
    rw [loadBytes, List.range_one, List.map_singleton, BitVec.add_zero]
  rw [← single]
  exact store_copied memory dest src (by omega) Nat.one_pos

theorem copy_runs (ahead : ¬ Behind terminated dest src) {done : Nat}
    (within : done ≤ stringLength terminated src) :
    iterate copyNext done ⟨memory, dest, src⟩ =
      some ⟨copied memory dest src done, dest + BitVec.ofNat 32 done,
        src + BitVec.ofNat 32 done⟩ := by
  induction done with
  | zero =>
      rw [iterate, copied_nothing, BitVec.add_zero, BitVec.add_zero]
  | succ done induction =>
      have below : done < stringLength terminated src := within
      have short := string_length_lt terminated src
      have byte := next_byte ahead below.le
      rw [iterate_add, induction below.le, Option.bind_some, iterate_one,
        copy_next_some byte (byte_before_length terminated below)]
      dsimp only
      rw [store_next (by omega), offset_add_one, offset_add_one]

/-- Ahead of the source the loop stops at the terminator. -/
theorem copy_halts (ahead : ¬ Behind terminated dest src) :
    runToHalt copyNext (stringLength terminated src) ⟨memory, dest, src⟩ =
      some ⟨copied memory dest src (stringLength terminated src),
        dest + BitVec.ofNat 32 (stringLength terminated src),
        src + BitVec.ofNat 32 (stringLength terminated src)⟩ := by
  apply run_to_halt_complete (copy_runs ahead le_rfl)
  exact copy_next_none ((next_byte ahead le_rfl).trans (byte_at_length terminated src))

/-- The bytes from the one that is read next up to the one that is written next are not zero. -/
structure Chasing (distance : Nat) (state : Copying) : Prop where
  nonzero : ∀ offset < distance, state.memory (state.src + BitVec.ofNat 32 offset) ≠ 0
  behind : state.d = state.src + BitVec.ofNat 32 distance

theorem Chasing.copy_next {distance : Nat} (positive : 0 < distance) (bounded : distance < 2 ^ 32)
    {state : Copying} (chasing : Chasing distance state) :
    ∃ next, copyNext state = some next ∧ Chasing distance next := by
  have first := chasing.nonzero 0 positive
  rw [BitVec.add_zero] at first
  refine ⟨_, if_pos first, fun offset below => ?_, ?_⟩
  · dsimp only
    rw [add_one_add, chasing.behind]
    have place : offsetFrom (state.src + BitVec.ofNat 32 distance)
        (state.src + BitVec.ofNat 32 (offset + 1)) =
        if distance ≤ offset + 1 then offset + 1 - distance
        else offset + 1 + 2 ^ 32 - distance := by
      rw [offset_from_above _ _ bounded, offset_from_add (by omega)]
    by_cases last : offset + 1 = distance
    · rw [storeBytes, place, last, if_pos le_rfl, Nat.sub_self]
      exact first
    · rw [store_outside]
      · exact chasing.nonzero (offset + 1) (by omega)
      · rw [place, if_neg (by omega), List.length_singleton]
        omega
  · dsimp only
    rw [chasing.behind, offset_add_one, add_one_add]

/-- Behind the source the loop never stops. -/
theorem copy_endless (behind : Behind terminated dest src) (fuel : Nat) :
    runToHalt copyNext fuel ⟨memory, dest, src⟩ = none := by
  have bounded : offsetFrom src dest < 2 ^ 32 := (dest - src).isLt
  have chasing : Chasing (offsetFrom src dest) ⟨memory, dest, src⟩ := by
    refine ⟨fun offset below => ?_, (add_offset_from src dest).symm⟩
    exact byte_before_length terminated (lt_of_lt_of_le below behind.2)
  exact never_halts (fun state => Chasing.copy_next behind.1 bounded) chasing fuel

theorem terminate_copied (terminated : Terminated memory) (dest src : Word) :
    storeBytes (copied memory dest src (stringLength terminated src))
        (dest + BitVec.ofNat 32 (stringLength terminated src)) [0] =
      copied memory dest src (stringLength terminated src + 1) := by
  rw [← store_next (string_length_lt terminated src), byte_at_length terminated]

theorem copy_stopped {fuel : Nat} {state : Copying}
    (halts : runToHalt copyNext fuel ⟨memory, dest, src⟩ = some state) :
    ¬ Behind terminated dest src ∧
      state.terminate = copied memory dest src (stringLength terminated src + 1) := by
  have ahead : ¬ Behind terminated dest src := by
    intro behind
    rw [copy_endless behind] at halts
    cases halts
  obtain ⟨count, run, stops⟩ := run_to_halt_sound halts
  obtain ⟨other, otherRun, otherStops⟩ := run_to_halt_sound (copy_halts ahead)
  rw [halted_unique run stops otherRun otherStops, Copying.terminate, terminate_copied]
  exact ⟨ahead, rfl⟩

end Loop

section Results

variable {memory : Memory 32} (terminated : Terminated memory)

def StringAt (final : Memory 32) (start : Word) (bytes : List Byte) : Prop :=
  ∃ kept : Terminated final, text kept start = bytes

def UnchangedOutside (memory final : Memory 32) (start : Word) (count : Nat) : Prop :=
  ∀ cell, (∀ offset < count, cell ≠ start + BitVec.ofNat 32 offset) → final cell = memory cell

theorem copied_string_byte (dest src : Word) {offset : Nat}
    (inside : offset ≤ stringLength terminated src) :
    copied memory dest src (stringLength terminated src + 1) (dest + BitVec.ofNat 32 offset) =
      memory (src + BitVec.ofNat 32 offset) := by
  have short := string_length_lt terminated src
  exact copied_inside memory dest src (Nat.lt_succ_of_le inside) (by omega)

/-- `strcpy` comes to an end exactly if the destination is not inside the string behind its first
byte, and then the destination has the string as it was. -/
theorem strcpy_ends_iff (dest src : Word) :
    ((∃ fuel result, strcpy fuel memory dest src = some result) ↔
        ¬ Behind terminated dest src) ∧
      ∀ fuel result, strcpy fuel memory dest src = some result →
        result.1 = dest ∧ StringAt result.2 dest (text terminated src) ∧
          (∀ kept : Terminated result.2, strlen kept dest = strlen terminated src) ∧
          UnchangedOutside memory result.2 dest (stringLength terminated src + 1) := by
  refine ⟨⟨?_, fun ahead => ⟨_, _, congrArg (Option.map _) (copy_halts ahead)⟩⟩, ?_⟩
  · rintro ⟨fuel, result, ended⟩
    rw [strcpy, Option.map_eq_some_iff] at ended
    obtain ⟨state, halts, -⟩ := ended
    exact (copy_stopped halts).1
  · intro fuel result ended
    rw [strcpy, Option.map_eq_some_iff] at ended
    obtain ⟨state, halts, rfl⟩ := ended
    obtain ⟨-, content⟩ := @copy_stopped memory dest src terminated fuel state halts
    dsimp only
    rw [content]
    have zero : copied memory dest src (stringLength terminated src + 1)
        (dest + BitVec.ofNat 32 (stringLength terminated src)) = 0 :=
      (copied_string_byte terminated dest src le_rfl).trans (byte_at_length terminated src)
    have same (kept : Terminated (copied memory dest src (stringLength terminated src + 1))) :
        text kept dest = text terminated src := by
      apply text_of_bytes _ (text_nonzero terminated src)
      · intro offset inside
        rw [text_length] at inside
        rw [copied_string_byte terminated dest src inside.le]
        exact (load_get memory src _).symm
      · rw [text_length]
        exact zero
    refine ⟨rfl, ⟨⟨_, zero⟩, same _⟩, fun kept => ?_,
      fun cell outside => copied_outside memory dest src outside⟩
    rw [strlen_text, strlen_text, same]

/-- The end of a string is inside another one exactly if both have the same end. -/
theorem behind_end_iff (c s : Word) :
    Behind terminated (c + BitVec.ofNat 32 (stringLength terminated c)) s ↔
      memory s ≠ 0 ∧ c + BitVec.ofNat 32 (stringLength terminated c) =
        s + BitVec.ofNat 32 (stringLength terminated s) := by
  have ended := byte_at_length terminated c
  have short := string_length_lt terminated s
  generalize c + BitVec.ofNat 32 (stringLength terminated c) = stop at ended ⊢
  have place : s + BitVec.ofNat 32 (offsetFrom s stop) = stop := add_offset_from s stop
  constructor
  · rintro ⟨later, inside⟩
    have same : offsetFrom s stop = stringLength terminated s := by
      by_contra different
      apply byte_before_length terminated (lt_of_le_of_ne inside different)
      rw [place, ended]
    rw [same] at place
    refine ⟨fun zero => ?_, place.symm⟩
    rw [string_length_zero terminated zero] at inside
    omega
  · rintro ⟨nonzero, rfl⟩
    rw [Behind, offset_from_add short, string_length_succ terminated nonzero]
    omega

theorem appended_apart {c s : Word}
    (ahead : ¬ Behind terminated (c + BitVec.ofNat 32 (stringLength terminated c)) s)
    {offset : Nat} (inside : offset < stringLength terminated c) :
    stringLength terminated s + 1 ≤ offsetFrom
      (c + BitVec.ofNat 32 (stringLength terminated c)) (c + BitVec.ofNat 32 offset) := by
  have ended := byte_at_length terminated c
  have endedOther := byte_at_length terminated s
  have short := string_length_lt terminated c
  have shortOther := string_length_lt terminated s
  rw [offset_from_above c _ short, offset_from_add (by omega), if_neg (by omega)]
  unfold Behind at ahead
  generalize stopEq : c + BitVec.ofNat 32 (stringLength terminated c) = stop at ended ahead
  have place : s + BitVec.ofNat 32 (offsetFrom s stop) = stop := add_offset_from s stop
  have bounded : offsetFrom s stop < 2 ^ 32 := (stop - s).isLt
  rcases Nat.eq_zero_or_pos (offsetFrom s stop) with here | later
  · rw [here, BitVec.add_zero] at place
    rw [← place] at ended
    rw [string_length_zero terminated ended]
    omega
  · have beyond : stringLength terminated s < offsetFrom s stop := by omega
    by_contra reaches
    -- The string that is appended would end inside the string it is appended to.
    have back : c + BitVec.ofNat 32
        (stringLength terminated c + stringLength terminated s - offsetFrom s stop) =
          s + BitVec.ofNat 32 (stringLength terminated s) := by
      apply add_right_cancel (b := BitVec.ofNat 32 (offsetFrom s stop))
      calc c + BitVec.ofNat 32
              (stringLength terminated c + stringLength terminated s - offsetFrom s stop) +
            BitVec.ofNat 32 (offsetFrom s stop)
          = c + BitVec.ofNat 32 (stringLength terminated c + stringLength terminated s) := by
            rw [BitVec.add_assoc, ← BitVec.ofNat_add, Nat.sub_add_cancel (by omega)]
        _ = stop + BitVec.ofNat 32 (stringLength terminated s) := by
            rw [BitVec.ofNat_add, ← BitVec.add_assoc, stopEq]
        _ = s + BitVec.ofNat 32 (stringLength terminated s) +
            BitVec.ofNat 32 (offsetFrom s stop) := by
            rw [← place, add_right_comm]
            congr 2
            rw [place]
    apply byte_before_length terminated (show stringLength terminated c +
      stringLength terminated s - offsetFrom s stop < stringLength terminated c by omega)
    rw [back, endedOther]

/-- `strcat` comes to an end exactly if the strings end at different places or nothing is
appended, and then both strings, as they were, stand one behind the other. -/
theorem strcat_ends_iff (c s : Word) :
    ((∃ fuel result, strcat terminated fuel c s = some result) ↔
        (memory s ≠ 0 → c + BitVec.ofNat 32 (stringLength terminated c) ≠
          s + BitVec.ofNat 32 (stringLength terminated s))) ∧
      ∀ fuel result, strcat terminated fuel c s = some result →
        result.1 = c ∧ StringAt result.2 c (text terminated c ++ text terminated s) ∧
          (∀ kept : Terminated result.2,
            strlen kept c = strlen terminated c + strlen terminated s) ∧
          UnchangedOutside memory result.2
            (c + BitVec.ofNat 32 (stringLength terminated c))
            (stringLength terminated s + 1) := by
  have condition := not_congr (behind_end_iff terminated c s)
  rw [not_and] at condition
  rw [← condition]
  refine ⟨⟨?_, fun ahead => ?_⟩, ?_⟩
  · rintro ⟨fuel, result, ended⟩
    rw [strcat, end_eq, Option.map_eq_some_iff] at ended
    obtain ⟨state, halts, -⟩ := ended
    exact (copy_stopped halts).1
  · have ended := congrArg (Option.map fun state : Copying => (c, state.terminate))
      (copy_halts ahead)
    rw [← end_eq terminated c] at ended
    exact ⟨_, _, ended⟩
  · intro fuel result ended
    rw [strcat, end_eq, Option.map_eq_some_iff] at ended
    obtain ⟨state, halts, rfl⟩ := ended
    obtain ⟨ahead, content⟩ := @copy_stopped memory _ s terminated fuel state halts
    dsimp only
    rw [content]
    have behind (offset : Nat) (inside : offset ≤ stringLength terminated s) :
        copied memory (c + BitVec.ofNat 32 (stringLength terminated c)) s
          (stringLength terminated s + 1)
          (c + BitVec.ofNat 32 (stringLength terminated c + offset)) =
            memory (s + BitVec.ofNat 32 offset) := by
      rw [BitVec.ofNat_add, ← BitVec.add_assoc]
      exact copied_string_byte terminated _ s inside
    have zero := (behind _ le_rfl).trans (byte_at_length terminated s)
    have joined (kept : Terminated (copied memory
        (c + BitVec.ofNat 32 (stringLength terminated c)) s (stringLength terminated s + 1))) :
        text kept c = text terminated c ++ text terminated s := by
      apply text_of_bytes
      · intro byte member
        rcases List.mem_append.mp member with first | second
        · exact text_nonzero terminated c byte first
        · exact text_nonzero terminated s byte second
      · intro offset inside
        rw [List.length_append, text_length, text_length] at inside
        by_cases first : offset < stringLength terminated c
        · rw [List.getElem_append_left (by rw [text_length]; exact first)]
          have apart := appended_apart terminated ahead first
          have kept : copied memory (c + BitVec.ofNat 32 (stringLength terminated c)) s
              (stringLength terminated s + 1) (c + BitVec.ofNat 32 offset) =
                memory (c + BitVec.ofNat 32 offset) := if_neg (by omega)
          exact kept.trans (load_get memory c _).symm
        · obtain ⟨distance, rfl⟩ := Nat.exists_eq_add_of_le (not_lt.mp first)
          rw [behind distance (by omega), List.getElem_append_right (by rw [text_length]; omega)]
          simp only [text_length, Nat.add_sub_cancel_left]
          exact (load_get memory s _).symm
      · rw [List.length_append, text_length, text_length]
        exact zero
    refine ⟨rfl, ⟨⟨_, zero⟩, joined _⟩, fun kept => ?_,
      fun cell outside => copied_outside memory _ s outside⟩
    rw [strlen_text, strlen_text, strlen_text, joined, List.length_append, BitVec.ofNat_add]

end Results

def letters : Memory 32 := fun cell => if cell = 0x10 then 0x61 else if cell = 0x11 then 0x62 else 0

theorem letters_terminated : Terminated letters := ⟨0, by decide⟩

theorem letters_length : stringLength letters_terminated 0x10 = 2 :=
  string_length_eq _ (by decide) (by decide)

/-- To the next string of memory they are copied, but over their own end they are not. -/
theorem letters_copied :
    (∃ fuel result, strcpy fuel letters 0x20 0x10 = some result) ∧
      ¬ ∃ fuel result, strcpy fuel letters 0x11 0x10 = some result := by
  constructor
  · rw [(strcpy_ends_iff letters_terminated 0x20 0x10).1, Behind, letters_length]
    decide
  · rw [(strcpy_ends_iff letters_terminated 0x11 0x10).1, Behind, letters_length]
    decide

theorem letters_appended :
    (∃ fuel result, strcat letters_terminated fuel 0x20 0x10 = some result) ∧
      ¬ ∃ fuel result, strcat letters_terminated fuel 0x10 0x10 = some result := by
  have empty : stringLength letters_terminated 0x20 = 0 := string_length_zero _ (by decide)
  constructor
  · rw [(strcat_ends_iff letters_terminated 0x20 0x10).1, letters_length, empty]
    decide
  · rw [(strcat_ends_iff letters_terminated 0x10 0x10).1]
    exact fun ends => ends (by decide) rfl

end NaplesPU.StringCopies
