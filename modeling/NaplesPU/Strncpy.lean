import NaplesPU.Machine
import NaplesPU.Lib.CStrings
import NaplesPU.Lib.Loops

/-!
The library's `strncpy`. Where the source ends before the bound it stores one zero, and not
zeros up to the bound.
-/

namespace NaplesPU.Strncpy

open ByteMemory CStrings Loops Machine

section Routine

/-- The memory, the variables of the loop, and the addresses that were written. -/
structure State where
  memory : Memory 32
  d : Word
  src : Word
  length : Word
  written : List Word

def goesOn (state : State) : Bool :=
  decide (state.memory state.src ≠ 0) && decide (0 < state.length)

def State.store (state : State) (byte : Byte) : State :=
  { state with
    memory := storeBytes state.memory state.d [byte]
    written := state.written ++ [state.d] }

def copyNext (state : State) : State :=
  { state.store (state.memory state.src) with
    d := state.d + 1
    src := state.src + 1
    length := state.length - 1 }

theorem pred_to_nat {length : Word} (positive : 0 < length) :
    (length - 1).toNat = length.toNat - 1 := by
  have positiveNat : 0 < length.toNat := positive
  have bounded := length.isLt
  have one : (1 : Word).toNat = 1 := rfl
  rw [BitVec.toNat_sub, one]
  omega

theorem copy_shorter (state : State) (holds : goesOn state = true) :
    (copyNext state).length.toNat < state.length.toNat := by
  rw [goesOn, Bool.and_eq_true, decide_eq_true_eq, decide_eq_true_eq] at holds
  have positive : 0 < state.length.toNat := holds.2
  rw [copyNext, pred_to_nat holds.2]
  omega

def strncpy (memory : Memory 32) (dest src length : Word) : Word × State :=
  let copied := whileLoop goesOn copyNext (fun state => state.length.toNat) copy_shorter
    ⟨memory, dest, src, length, []⟩
  (dest, if 0 < copied.length then copied.store 0 else copied)

end Routine

section Progress

def addresses (dest : Word) (count : Nat) : List Word :=
  (List.range count).map fun offset => dest + BitVec.ofNat 32 offset

variable {memory : Memory 32} {dest src length : Word} {done : Nat} {state : State}

/-- The first bytes are copied, and the variables stand at the next ones. -/
structure Progress (terminated : Terminated memory) (dest src length : Word) (done : Nat)
    (state : State) : Prop where
  bounded : done ≤ length.toNat
  inside : done ≤ stringLength terminated src
  next : state.d = dest + BitVec.ofNat 32 done
  source : state.src = src + BitVec.ofNat 32 done
  remaining : state.length.toNat = length.toNat - done
  content : state.memory = copied memory dest src done
  written : state.written = addresses dest done

variable {terminated : Terminated memory}

theorem addresses_succ (dest : Word) (count : Nat) :
    addresses dest count ++ [dest + BitVec.ofNat 32 count] = addresses dest (count + 1) := by
  rw [addresses, addresses, List.range_succ, List.map_append, List.map_singleton]

theorem progress_start (terminated : Terminated memory) (dest src length : Word) :
    Progress terminated dest src length 0 ⟨memory, dest, src, length, []⟩ where
  bounded := Nat.zero_le _
  inside := Nat.zero_le _
  next := (BitVec.add_zero dest).symm
  source := (BitVec.add_zero src).symm
  remaining := rfl
  content := (copied_nothing memory dest src).symm
  written := rfl

theorem Progress.source_byte (progress : Progress terminated dest src length done state)
    (apart : Apart dest length.toNat src (stringLength terminated src + 1)) :
    state.memory state.src = memory (src + BitVec.ofNat 32 done) := by
  have bounded := progress.bounded
  have beyond := apart done (Nat.lt_succ_of_le progress.inside)
  rw [progress.content, progress.source]
  exact if_neg (by omega)

theorem store_next (bound : done < length.toNat) :
    storeBytes (copied memory dest src done) (dest + BitVec.ofNat 32 done)
        [memory (src + BitVec.ofNat 32 done)] =
      copied memory dest src (done + 1) := by
  have bounded := length.isLt
  have fits : done + 1 ≤ 2 ^ 32 := by omega
  have single (address : Word) : loadBytes memory address 1 = [memory address] := by
    rw [loadBytes, List.range_one, List.map_singleton, BitVec.add_zero]
  rw [← single]
  exact store_copied memory dest src fits Nat.one_pos

theorem Progress.copy_next (progress : Progress terminated dest src length done state)
    (apart : Apart dest length.toNat src (stringLength terminated src + 1))
    (holds : goesOn state = true) :
    Progress terminated dest src length (done + 1) (copyNext state) := by
  have byte := progress.source_byte apart
  rw [goesOn, Bool.and_eq_true, decide_eq_true_eq, decide_eq_true_eq, byte] at holds
  have positive : 0 < state.length.toNat := holds.2
  have remaining := progress.remaining
  have below : done < length.toNat := by omega
  constructor
  · exact below
  · apply Nat.succ_le_of_lt
    apply lt_of_le_of_ne progress.inside
    rintro rfl
    exact holds.1 (byte_at_length terminated src)
  · rw [copyNext, progress.next, offset_add_one]
  · rw [copyNext, progress.source, offset_add_one]
  · rw [copyNext, pred_to_nat holds.2]
    omega
  · rw [copyNext, State.store, byte, progress.content, progress.next]
    exact store_next below
  · rw [copyNext, State.store, progress.written, progress.next]
    exact addresses_succ dest done

theorem copy_stops (terminated : Terminated memory)
    (apart : Apart dest length.toNat src (stringLength terminated src + 1)) :
    Progress terminated dest src length (min (stringLength terminated src) length.toNat)
      (whileLoop goesOn copyNext (fun state => state.length.toNat) copy_shorter
        ⟨memory, dest, src, length, []⟩) := by
  have loop := @while_invariant State goesOn copyNext (fun state => state.length.toNat)
    copy_shorter (fun state => ∃ done, Progress terminated dest src length done state)
    ?kept _ ⟨0, progress_start terminated dest src length⟩
  case kept =>
    rintro state ⟨done, progress⟩ holds
    exact ⟨done + 1, progress.copy_next apart holds⟩
  obtain ⟨⟨done, progress⟩, stopped⟩ := loop
  have inside := progress.inside
  have bounded := progress.bounded
  have remaining := progress.remaining
  rw [goesOn, Bool.and_eq_false_iff, decide_eq_false_iff_not, decide_eq_false_iff_not,
    progress.source_byte apart, not_not] at stopped
  have same : done = min (stringLength terminated src) length.toNat := by
    rcases stopped with zero | none
    · have ended : ¬ done < stringLength terminated src :=
        fun below => byte_before_length terminated below zero
      omega
    · have nothing := Nat.le_zero.mp (not_lt.mp none)
      omega
  rw [← same]
  exact progress

end Progress

section Result

variable {memory : Memory 32} {dest src length : Word} {count : Nat}

/-- Exactly the bytes of the buffer are written: those of the source, and zeros behind them. -/
structure FillsBuffer (terminated : Terminated memory) (dest src length : Word)
    (result : Word × State) : Prop where
  returned : result.1 = dest
  written : ∀ cell, cell ∈ result.2.written ↔
    ∃ offset < length.toNat, cell = dest + BitVec.ofNat 32 offset
  content : ∀ offset < length.toNat, result.2.memory (dest + BitVec.ofNat 32 offset) =
    (text terminated src).getD offset 0
  beyond : ∀ cell, (∀ offset < length.toNat, cell ≠ dest + BitVec.ofNat 32 offset) →
    result.2.memory cell = memory cell

/-- The bytes of the string and one zero are stored, or fewer if the bound is smaller. -/
theorem strncpy_stores (terminated : Terminated memory)
    (apart : Apart dest length.toNat src (stringLength terminated src + 1)) :
    (strncpy memory dest src length).2.memory =
        copied memory dest src (min (stringLength terminated src + 1) length.toNat) ∧
      (strncpy memory dest src length).2.written =
        addresses dest (min (stringLength terminated src + 1) length.toNat) := by
  have progress := copy_stops terminated apart
  have remaining := progress.remaining
  rw [strncpy]
  split
  · rename_i left
    have positive : 0 < BitVec.toNat _ := left
    have short : stringLength terminated src < length.toNat := by omega
    rw [Nat.min_eq_left short.le] at progress
    rw [Nat.min_eq_left (Nat.succ_le_of_lt short), State.store, progress.content, progress.next,
      progress.written, addresses_succ, ← store_next short, byte_at_length terminated]
    exact ⟨rfl, rfl⟩
  · rename_i full
    have nothing : BitVec.toNat _ ≤ 0 := not_lt.mp full
    have long : length.toNat ≤ stringLength terminated src := by omega
    rw [Nat.min_eq_right long] at progress
    rw [Nat.min_eq_right (Nat.le_succ_of_le long)]
    exact ⟨progress.content, progress.written⟩

theorem mem_addresses {cell : Word} :
    cell ∈ addresses dest count ↔ ∃ offset < count, cell = dest + BitVec.ofNat 32 offset := by
  simp only [addresses, List.mem_map, List.mem_range, eq_comm]

/-- The buffer is filled exactly if the bound does not reach beyond the terminator. -/
theorem fills_buffer_iff (terminated : Terminated memory)
    (apart : Apart dest length.toNat src (stringLength terminated src + 1)) :
    FillsBuffer terminated dest src length (strncpy memory dest src length) ↔
      length.toNat ≤ stringLength terminated src + 1 := by
  obtain ⟨content, written⟩ := strncpy_stores terminated apart
  have bounded := length.isLt
  constructor
  · intro filled
    by_contra long
    have short : stringLength terminated src + 1 < length.toNat := not_le.mp long
    have member := (filled.written (dest + BitVec.ofNat 32 (stringLength terminated src + 1))).mpr
      ⟨_, short, rfl⟩
    rw [written, Nat.min_eq_left short.le, mem_addresses] at member
    obtain ⟨offset, below, same⟩ := member
    have distances := congrArg (offsetFrom dest) same
    rw [offset_from_add (by omega), offset_from_add (by omega)] at distances
    omega
  · intro within
    rw [Nat.min_eq_right within] at content written
    constructor
    · rfl
    · intro cell
      rw [written, mem_addresses]
    · intro offset below
      rw [content, copied_inside memory dest src below (by omega)]
      have inside : offset ≤ stringLength terminated src := by omega
      exact byte_of_text terminated inside
    · intro cell outside
      rw [content]
      exact copied_outside memory dest src outside

def twoLetters : Memory 32 :=
  fun cell => if cell = 0x10 then 0x61 else if cell = 0x11 then 0x62 else 0

theorem two_letters_terminated : Terminated twoLetters := ⟨0, by decide⟩

theorem empty_apart (length : Word) (short : length.toNat ≤ 2) :
    Apart (0x10 : Word) length.toNat 0x20 (stringLength two_letters_terminated 0x20 + 1) := by
  rw [string_length_zero _ (by decide)]
  intro offset below
  obtain rfl := Nat.lt_one_iff.mp below
  exact short.trans (by decide)

theorem empty_copied :
    FillsBuffer two_letters_terminated 0x10 0x20 1 (strncpy twoLetters 0x10 0x20 1) :=
  (fills_buffer_iff two_letters_terminated (empty_apart 1 (by decide))).mpr (Nat.le_add_left 1 _)

/-- The second letter of the buffer stays. -/
theorem letter_left :
    ¬ ∀ (memory : Memory 32) (terminated : Terminated memory) (dest src length : Word),
      Apart dest length.toNat src (stringLength terminated src + 1) →
        FillsBuffer terminated dest src length (strncpy memory dest src length) := by
  intro right
  have apart := empty_apart 2 (by decide)
  have filled := right twoLetters two_letters_terminated 0x10 0x20 2 apart
  have cleared := filled.content 1 (by decide)
  rw [(strncpy_stores two_letters_terminated apart).1, text_nil _ (by decide),
    string_length_zero _ (by decide)] at cleared
  exact absurd cleared (by decide)

end Result

end NaplesPU.Strncpy
