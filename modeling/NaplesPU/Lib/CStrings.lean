import Mathlib.Data.Nat.Find
import NaplesPU.Lib.ByteMemory

/-!
Strings that end at a zero byte, in a memory whose addresses wrap. Where some byte is
zero every address begins a string, so a loop that reads on as long as it finds other
bytes comes to an end.
-/

namespace CStrings

open ByteMemory

variable {width : Nat}

/-- Some byte is zero, so every address begins a string. -/
def Terminated (memory : Memory width) : Prop := ∃ cell, memory cell = 0

section Strings

variable {memory : Memory width} (terminated : Terminated memory)

theorem add_one_add (start : BitVec width) (distance : Nat) :
    start + 1 + BitVec.ofNat width distance = start + BitVec.ofNat width (distance + 1) := by
  have one : (1 : BitVec width) = BitVec.ofNat width 1 := rfl
  rw [one, BitVec.add_assoc, ← BitVec.ofNat_add, Nat.add_comm 1]

theorem offset_add_one (start : BitVec width) (distance : Nat) :
    start + BitVec.ofNat width distance + 1 = start + BitVec.ofNat width (distance + 1) := by
  have one : (1 : BitVec width) = BitVec.ofNat width 1 := rfl
  rw [one, BitVec.add_assoc, ← BitVec.ofNat_add]

include terminated in
theorem reaches_zero (start : BitVec width) :
    ∃ distance, memory (start + BitVec.ofNat width distance) = 0 := by
  obtain ⟨cell, zero⟩ := terminated
  exact ⟨offsetFrom start cell, by rw [add_offset_from, zero]⟩

def stringLength (start : BitVec width) : Nat := Nat.find (reaches_zero terminated start)

def text (start : BitVec width) : List Byte :=
  loadBytes memory start (stringLength terminated start)

theorem string_length_zero {start : BitVec width} (zero : memory start = 0) :
    stringLength terminated start = 0 := by
  apply Nat.le_zero.mp
  apply Nat.find_le
  rw [BitVec.add_zero, zero]

theorem string_length_succ {start : BitVec width} (nonzero : memory start ≠ 0) :
    stringLength terminated start = stringLength terminated (start + 1) + 1 := by
  rw [stringLength, stringLength, Nat.find_eq_iff]
  constructor
  · rw [← add_one_add]
    exact Nat.find_spec (reaches_zero terminated (start + 1))
  · intro distance below
    cases distance with
    | zero =>
        rw [BitVec.add_zero]
        exact nonzero
    | succ distance =>
        rw [← add_one_add]
        exact Nat.find_min (reaches_zero terminated (start + 1)) (by omega)

theorem text_nil {start : BitVec width} (zero : memory start = 0) :
    text terminated start = [] := by
  rw [text, string_length_zero terminated zero]
  rfl

theorem text_cons {start : BitVec width} (nonzero : memory start ≠ 0) :
    text terminated start = memory start :: text terminated (start + 1) := by
  rw [text, string_length_succ terminated nonzero, text, loadBytes, loadBytes,
    List.range_succ_eq_map, List.map_cons, List.map_map, BitVec.add_zero]
  congr 1
  apply List.map_congr_left
  intro distance member
  rw [add_one_add]
  rfl

theorem text_length (start : BitVec width) :
    (text terminated start).length = stringLength terminated start := load_length _ _ _

theorem string_length_eq {start : BitVec width} {count : Nat}
    (nonzero : ∀ offset < count, memory (start + BitVec.ofNat width offset) ≠ 0)
    (zero : memory (start + BitVec.ofNat width count) = 0) :
    stringLength terminated start = count :=
  (Nat.find_eq_iff _).mpr ⟨zero, nonzero⟩

theorem lt_string_length {start : BitVec width} {count : Nat}
    (nonzero : ∀ offset < count + 1, memory (start + BitVec.ofNat width offset) ≠ 0) :
    count < stringLength terminated start := by
  apply (Nat.lt_find_iff _ _).mpr
  intro offset within
  exact nonzero offset (Nat.lt_succ_of_le within)

theorem byte_before_length {start : BitVec width} {offset : Nat}
    (below : offset < stringLength terminated start) :
    memory (start + BitVec.ofNat width offset) ≠ 0 :=
  Nat.find_min (reaches_zero terminated start) below

theorem byte_at_length (start : BitVec width) :
    memory (start + BitVec.ofNat width (stringLength terminated start)) = 0 :=
  Nat.find_spec (reaches_zero terminated start)

theorem string_length_lt (start : BitVec width) : stringLength terminated start < 2 ^ width := by
  obtain ⟨cell, zero⟩ := terminated
  apply lt_of_le_of_lt _ (cell - start).isLt
  apply Nat.find_le
  exact (congrArg memory (add_offset_from start cell)).trans zero

/-- The byte at an address is the first of its string, or the terminator. -/
theorem first_byte (start : BitVec width) :
    memory start = (text terminated start).headD 0 := by
  by_cases zero : memory start = 0
  · rw [text_nil terminated zero, List.headD_nil, zero]
  · rw [text_cons terminated zero, List.headD_cons]

theorem byte_eq_iff_head {start : BitVec width} {byte : Byte} (nonzero : byte ≠ 0) :
    memory start = byte ↔ (text terminated start).head? = some byte := by
  by_cases zero : memory start = 0
  · rw [text_nil terminated zero, zero]
    exact iff_of_false nonzero.symm (by simp)
  · rw [text_cons terminated zero, List.head?_cons, Option.some_inj]

theorem head_any (start : BitVec width) {keep : Byte → Bool} (stops : keep 0 = false) :
    (text terminated start).head?.any keep = keep (memory start) := by
  by_cases zero : memory start = 0
  · rw [text_nil terminated zero, zero, stops]
    rfl
  · rw [text_cons terminated zero]
    rfl

theorem text_tail {start : BitVec width} (nonzero : memory start ≠ 0) :
    text terminated (start + 1) = (text terminated start).tail := by
  rw [text_cons terminated nonzero, List.tail_cons]

/-- Behind some of its bytes there is the rest of a string. -/
theorem text_drop {start : BitVec width} {count : Nat}
    (inside : count ≤ (text terminated start).length) :
    text terminated (start + BitVec.ofNat width count) = (text terminated start).drop count := by
  induction count generalizing start with
  | zero => rw [BitVec.add_zero, List.drop_zero]
  | succ count induction =>
      have nonzero : memory start ≠ 0 := by
        intro zero
        rw [text_nil terminated zero, List.length_nil] at inside
        omega
      rw [text_cons terminated nonzero, List.length_cons] at inside
      rw [text_cons terminated nonzero, List.drop_succ_cons, ← add_one_add]
      exact induction (by omega)

theorem byte_of_text {start : BitVec width} {offset : Nat}
    (inside : offset ≤ stringLength terminated start) :
    memory (start + BitVec.ofNat width offset) = (text terminated start).getD offset 0 := by
  rcases Nat.lt_or_eq_of_le inside with below | rfl
  · have within : offset < (text terminated start).length := by
      rw [text_length]
      exact below
    rw [List.getD_eq_getElem _ _ within]
    exact (load_get memory start within).symm
  · rw [byte_at_length terminated, List.getD_eq_default]
    exact (text_length terminated start).le

/-- Bytes before the terminator are the first of the string. -/
theorem text_split {start : BitVec width} {count : Nat}
    (nonzero : ∀ offset < count, memory (start + BitVec.ofNat width offset) ≠ 0) :
    text terminated start =
      loadBytes memory start count ++ text terminated (start + BitVec.ofNat width count) := by
  induction count with
  | zero => rw [BitVec.add_zero, loadBytes, List.range_zero, List.map_nil, List.nil_append]
  | succ count induction =>
      have before := induction fun offset inside => nonzero offset (by omega)
      have next := text_cons terminated (nonzero count (Nat.lt_succ_self count))
      rw [before, next, load_concat, List.append_assoc, List.singleton_append, offset_add_one]

theorem text_of_bytes {start : BitVec width} {bytes : List Byte}
    (nonzero : ∀ byte ∈ bytes, byte ≠ 0)
    (stored : ∀ offset (inside : offset < bytes.length),
      memory (start + BitVec.ofNat width offset) = bytes[offset])
    (zero : memory (start + BitVec.ofNat width bytes.length) = 0) :
    text terminated start = bytes := by
  have length : stringLength terminated start = bytes.length := by
    apply string_length_eq terminated _ zero
    intro offset inside
    rw [stored offset inside]
    exact nonzero _ (List.getElem_mem inside)
  rw [text, length]
  apply List.ext_getElem
  · rw [load_length]
  · intro offset inLoad inBytes
    rw [load_get, stored offset inBytes]

theorem text_nonzero (start : BitVec width) : ∀ byte ∈ text terminated start, byte ≠ 0 := by
  intro byte member
  obtain ⟨offset, inside, rfl⟩ := List.getElem_of_mem member
  rw [text_length] at inside
  have stored : (text terminated start)[offset] = memory (start + BitVec.ofNat width offset) :=
    load_get _ _ _
  rw [stored]
  exact byte_before_length terminated inside

/-- A memory that holds a string at its first address, and zeros behind it. -/
def holding (bytes : List Byte) : Memory width := fun cell => bytes.getD cell.toNat 0

theorem holding_at {bytes : List Byte} (short : bytes.length < 2 ^ width) {offset : Nat}
    (within : offset ≤ bytes.length) :
    holding bytes (0 + BitVec.ofNat width offset) = bytes.getD offset 0 := by
  rw [holding, zero_add, BitVec.toNat_ofNat, Nat.mod_eq_of_lt (by omega)]

theorem holding_end {bytes : List Byte} (short : bytes.length < 2 ^ width) :
    holding bytes (0 + BitVec.ofNat width bytes.length) = 0 := by
  rw [holding_at short le_rfl, List.getD_eq_default _ _ le_rfl]

theorem holding_terminated {bytes : List Byte} (short : bytes.length < 2 ^ width) :
    Terminated (holding bytes : Memory width) :=
  ⟨_, holding_end short⟩

theorem text_holding {bytes : List Byte} (short : bytes.length < 2 ^ width)
    (nonzero : ∀ byte ∈ bytes, byte ≠ 0) :
    text (holding_terminated short) (0 : BitVec width) = bytes := by
  apply text_of_bytes _ nonzero _ (holding_end short)
  intro offset inside
  rw [holding_at short inside.le, List.getD_eq_getElem _ _ inside]

end Strings

section Scans

variable {State : Type*} {memory : Memory width}

def scanWhile (terminated : Terminated memory) {keep : Byte → Bool} (stops : keep 0 = false)
    (body : State → Byte → State) (start : BitVec width) (state : State) :
    BitVec width × State :=
  if keep (memory start) = true then
    scanWhile terminated stops body (start + 1) (body state (memory start))
  else (start, state)
termination_by stringLength terminated start
decreasing_by
  have nonzero : memory start ≠ 0 := by
    intro zero
    simp_all
  rw [string_length_succ terminated nonzero]
  exact Nat.lt_succ_self _

variable (terminated : Terminated memory) {keep : Byte → Bool} (stops : keep 0 = false)
  (body : State → Byte → State)

/-- A scan takes the longest run of the class at the start of the string. -/
theorem scan_while_eq (start : BitVec width) (state : State) :
    scanWhile terminated stops body start state =
      (start + BitVec.ofNat width ((text terminated start).takeWhile keep).length,
        ((text terminated start).takeWhile keep).foldl body state) := by
  fun_induction scanWhile terminated stops body start state with
  | case1 start state kept induction =>
      have nonzero : memory start ≠ 0 := by
        intro zero
        rw [zero, stops] at kept
        cases kept
      rw [induction, text_cons terminated nonzero, List.takeWhile_cons, if_pos kept,
        List.length_cons, List.foldl_cons, add_one_add]
  | case2 start state left =>
      have nothing : (text terminated start).takeWhile keep = [] := by
        by_cases zero : memory start = 0
        · rw [text_nil terminated zero, List.takeWhile_nil]
        · rw [text_cons terminated zero, List.takeWhile_cons, if_neg left]
      rw [nothing, List.length_nil, List.foldl_nil, BitVec.add_zero]

theorem drop_take_while (keep : Byte → Bool) (bytes : List Byte) :
    bytes.drop (bytes.takeWhile keep).length = bytes.dropWhile keep := by
  calc bytes.drop (bytes.takeWhile keep).length
      = (bytes.takeWhile keep ++ bytes.dropWhile keep).drop (bytes.takeWhile keep).length := by
        rw [List.takeWhile_append_dropWhile]
    _ = bytes.dropWhile keep := List.drop_left

theorem text_after_scan (keep : Byte → Bool) (start : BitVec width) :
    text terminated
        (start + BitVec.ofNat width ((text terminated start).takeWhile keep).length) =
      (text terminated start).dropWhile keep := by
  rw [text_drop terminated (List.takeWhile_prefix keep).length_le, drop_take_while]

end Scans

end CStrings
