import Mathlib.Data.List.Basic
import Mathlib.Data.BitVec
import Mathlib.Data.List.GetD
import Mathlib.Data.Nat.Basic
import Mathlib.Tactic.Common

/-!
Little-endian byte strings, and a byte-addressed memory whose addresses wrap.
A store replaces a run of bytes and nothing else; a load of the same run returns
what was stored, and a load of a run that does not meet it is unaffected. Words
of any whole number of bytes are read and written through their byte strings.
-/

namespace ByteMemory

abbrev Byte := BitVec 8

/-- The low `count` bytes of a value, least significant first. -/
def bytesLE : Nat → Nat → List Byte
  | 0, _ => []
  | count + 1, value => BitVec.ofNat 8 value :: bytesLE count (value >>> 8)

def valueLE : List Byte → Nat
  | [] => 0
  | byte :: rest => byte.toNat ||| (valueLE rest <<< 8)

@[simp] theorem bytes_length (count value : Nat) : (bytesLE count value).length = count := by
  induction count generalizing value with
  | zero => rfl
  | succ count induction => rw [bytesLE, List.length_cons, induction]

theorem value_cons (byte : Byte) (rest : List Byte) :
    valueLE (byte :: rest) = byte.toNat + 256 * valueLE rest := by
  rw [valueLE, Nat.or_comm, ← Nat.shiftLeft_add_eq_or_of_lt byte.isLt, Nat.shiftLeft_eq]
  omega

theorem value_lt (bytes : List Byte) : valueLE bytes < 256 ^ bytes.length := by
  induction bytes with
  | nil => simp [valueLE]
  | cons byte rest induction =>
      rw [value_cons, List.length_cons, Nat.pow_succ]
      have low := byte.isLt
      omega

theorem value_bytes (count value : Nat) :
    valueLE (bytesLE count value) = value % 256 ^ count := by
  induction count generalizing value with
  | zero => simp [bytesLE, valueLE, Nat.mod_one]
  | succ count induction =>
      have base : (256 : Nat) ^ (count + 1) = 2 ^ 8 * 256 ^ count := Nat.pow_succ'
      rw [bytesLE, value_cons, induction, BitVec.toNat_ofNat, Nat.shiftRight_eq_div_pow, base]
      exact (Nat.mod_mul (x := value) (a := 2 ^ 8) (b := 256 ^ count)).symm

theorem bytes_inj {count value other : Nat} (bounded : value < 256 ^ count)
    (otherBounded : other < 256 ^ count) :
    bytesLE count value = bytesLE count other ↔ value = other := by
  constructor
  · intro same
    have values := congrArg valueLE same
    rw [value_bytes, value_bytes, Nat.mod_eq_of_lt bounded, Nat.mod_eq_of_lt otherBounded] at values
    exact values
  · intro same
    rw [same]

theorem bytes_value (bytes : List Byte) : bytesLE bytes.length (valueLE bytes) = bytes := by
  induction bytes with
  | nil => rfl
  | cons byte rest induction =>
      have low : BitVec.ofNat 8 (valueLE (byte :: rest)) = byte := by
        apply BitVec.eq_of_toNat_eq
        have bounded := byte.isLt
        rw [value_cons, BitVec.toNat_ofNat]
        omega
      have high : valueLE (byte :: rest) >>> 8 = valueLE rest := by
        have bounded := byte.isLt
        rw [value_cons, Nat.shiftRight_eq_div_pow]
        omega
      rw [List.length_cons, bytesLE, low, high, induction]

theorem bytes_concat (count value : Nat) :
    bytesLE (count + 1) value = bytesLE count value ++ [BitVec.ofNat 8 (value >>> (count * 8))] := by
  induction count generalizing value with
  | zero => rfl
  | succ count induction =>
      have shifts : (value >>> 8) >>> (count * 8) = value >>> ((count + 1) * 8) := by
        rw [← Nat.shiftRight_add]
        congr 1
        omega
      rw [bytesLE, induction, shifts, bytesLE, List.cons_append]

/-- A number that repeats the bits of a byte consists of copies of it. -/
theorem bytes_repeated {byte : Byte} {count value : Nat}
    (repeats : ∀ bit < 8 * count, value.testBit bit = byte.getLsbD (bit % 8)) :
    bytesLE count value = List.replicate count byte := by
  induction count generalizing value with
  | zero => rfl
  | succ count induction =>
      have low : BitVec.ofNat 8 value = byte := by
        apply BitVec.eq_of_getLsbD_eq
        intro bit inside
        rw [BitVec.getLsbD_ofNat, decide_eq_true inside, Bool.true_and, repeats bit (by omega),
          Nat.mod_eq_of_lt inside]
      have high : bytesLE count (value >>> 8) = List.replicate count byte := by
        apply induction
        intro bit inside
        rw [Nat.testBit_shiftRight, repeats (8 + bit) (by omega), Nat.add_mod_left]
      rw [bytesLE, low, high, List.replicate_succ]

section Buffer

/-- The value of the `count` bytes at `offset` of a buffer. -/
def readAt (data : List Byte) (offset count : Nat) : Nat :=
  valueLE ((data.drop offset).take count)

/-- The buffer with the `count` bytes at `offset` replaced by those of `value`. -/
def writeAt (data : List Byte) (offset count value : Nat) : List Byte :=
  data.take offset ++ bytesLE count value ++ data.drop (offset + count)

theorem read_at_lt {data : List Byte} {offset count : Nat}
    (inside : offset + count ≤ data.length) : readAt data offset count < 256 ^ count := by
  have bound := value_lt ((data.drop offset).take count)
  rwa [List.length_take_of_le (by rw [List.length_drop]; omega)] at bound

theorem read_at_bytes (count value : Nat) :
    readAt (bytesLE count value) 0 count = value % 256 ^ count := by
  rw [readAt, List.drop_zero, List.take_of_length_le (by rw [bytes_length]), value_bytes]

theorem write_at_bytes (count value other : Nat) :
    writeAt (bytesLE count value) 0 count other = bytesLE count other := by
  rw [writeAt, List.take_zero, List.nil_append, List.drop_eq_nil_of_le (by rw [bytes_length]; omega),
    List.append_nil]

theorem value_append (bytes rest : List Byte) :
    valueLE (bytes ++ rest) = valueLE bytes + 256 ^ bytes.length * valueLE rest := by
  induction bytes with
  | nil => simp [valueLE]
  | cons byte bytes induction =>
      rw [List.cons_append, value_cons, value_cons, induction, List.length_cons, Nat.pow_succ',
        Nat.mul_add, Nat.mul_assoc, Nat.add_assoc]

section Writes

variable {data : List Byte} {offset count : Nat}

theorem write_at_length (inside : offset + count ≤ data.length) (value : Nat) :
    (writeAt data offset count value).length = data.length := by
  rw [writeAt, List.length_append, List.length_append, List.length_take, List.length_drop,
    bytes_length]
  omega

theorem write_at_drop (inside : offset + count ≤ data.length) (value : Nat) :
    (writeAt data offset count value).drop offset =
      bytesLE count value ++ data.drop (offset + count) := by
  rw [writeAt, List.append_assoc, List.drop_left' (List.length_take_of_le (by omega))]

theorem write_at_outside (inside : offset + count ≤ data.length) (value : Nat) {index : Nat}
    (outside : index < offset ∨ offset + count ≤ index) :
    (writeAt data offset count value)[index]? = data[index]? := by
  rcases outside with before | after
  · rw [writeAt, List.append_assoc,
      List.getElem?_append_left (by rw [List.length_take_of_le (by omega)]; exact before),
      List.getElem?_take_of_lt before]
  · have shifted : index = offset + (index - offset) := by omega
    rw [shifted, ← List.getElem?_drop, write_at_drop inside,
      List.getElem?_append_right (by rw [bytes_length]; omega), bytes_length,
      List.getElem?_drop]
    congr 1
    omega

theorem read_at_write_at (inside : offset + count ≤ data.length) (value : Nat) :
    readAt (writeAt data offset count value) offset count = value % 256 ^ count := by
  rw [readAt, write_at_drop inside, List.take_left' (bytes_length count value), value_bytes]

theorem write_at_write_at (inside : offset + count ≤ data.length) (value other : Nat) :
    writeAt (writeAt data offset count value) offset count other =
      writeAt data offset count other := by
  have front : (writeAt data offset count value).take offset = data.take offset := by
    rw [writeAt, List.append_assoc, List.take_left' (List.length_take_of_le (by omega))]
  have back : (writeAt data offset count value).drop (offset + count) =
      data.drop (offset + count) := by
    rw [← List.drop_drop, write_at_drop inside, List.drop_left' (bytes_length count value)]
  rw [writeAt, front, back]
  rfl

theorem write_at_get (inside : offset + count ≤ data.length) (value : Nat) {index : Nat}
    (within : index < count) :
    (writeAt data offset count value)[offset + index]? = (bytesLE count value)[index]? := by
  rw [← List.getElem?_drop, write_at_drop inside,
    List.getElem?_append_left (by rw [bytes_length]; exact within)]

theorem write_at_comm {other otherCount : Nat} (inside : offset + count ≤ data.length)
    (otherInside : other + otherCount ≤ data.length)
    (apart : offset + count ≤ other ∨ other + otherCount ≤ offset) (value otherValue : Nat) :
    writeAt (writeAt data offset count value) other otherCount otherValue =
      writeAt (writeAt data other otherCount otherValue) offset count value := by
  have insideAfter : offset + count ≤ (writeAt data other otherCount otherValue).length := by
    rwa [write_at_length otherInside]
  have otherInsideAfter : other + otherCount ≤ (writeAt data offset count value).length := by
    rwa [write_at_length inside]
  apply List.ext_getElem?
  intro index
  by_cases first : offset ≤ index ∧ index < offset + count
  · obtain ⟨distance, rfl⟩ := Nat.exists_eq_add_of_le first.1
    rw [write_at_outside otherInsideAfter _ (by omega), write_at_get inside _ (by omega),
      write_at_get insideAfter _ (by omega)]
  · rw [write_at_outside insideAfter value (by omega)]
    by_cases second : other ≤ index ∧ index < other + otherCount
    · obtain ⟨distance, rfl⟩ := Nat.exists_eq_add_of_le second.1
      rw [write_at_get otherInsideAfter _ (by omega), write_at_get otherInside _ (by omega)]
    · rw [write_at_outside otherInsideAfter _ (by omega), write_at_outside inside _ (by omega),
        write_at_outside otherInside _ (by omega)]

theorem read_at_add (more : Nat) (inside : offset + count ≤ data.length) :
    readAt data offset (count + more) =
      readAt data offset count + 256 ^ count * readAt data (offset + count) more := by
  have first : ((data.drop offset).take count).length = count := by
    rw [List.length_take_of_le (by rw [List.length_drop]; omega)]
  rw [readAt, List.take_add, value_append, first, List.drop_drop]
  rfl

theorem read_at_congr {other : List Byte}
    (same : ∀ index, offset ≤ index → index < offset + count → data[index]? = other[index]?) :
    readAt data offset count = readAt other offset count := by
  have bytes : (data.drop offset).take count = (other.drop offset).take count := by
    apply List.ext_getElem?
    intro index
    by_cases inside : index < count
    · rw [List.getElem?_take_of_lt inside, List.getElem?_take_of_lt inside, List.getElem?_drop,
        List.getElem?_drop]
      exact same (offset + index) (by omega) (by omega)
    · rw [List.getElem?_take, List.getElem?_take, if_neg inside, if_neg inside]
  rw [readAt, readAt, bytes]

theorem read_at_write_at_apart {other otherCount : Nat} (inside : offset + count ≤ data.length)
    (apart : other + otherCount ≤ offset ∨ offset + count ≤ other) (value : Nat) :
    readAt (writeAt data offset count value) other otherCount = readAt data other otherCount :=
  read_at_congr fun _ _ _ => write_at_outside inside value (by omega)

end Writes

end Buffer

section Memory

variable {width : Nat}

abbrev Memory (width : Nat) := BitVec width → Byte

def loadBytes (memory : Memory width) (address : BitVec width) (count : Nat) : List Byte :=
  (List.range count).map fun offset => memory (address + BitVec.ofNat width offset)

/-- The distance of a cell above the start of a run, going up and wrapping. -/
def offsetFrom (start cell : BitVec width) : Nat := (cell - start).toNat

def storeBytes (memory : Memory width) (address : BitVec width) (bytes : List Byte) :
    Memory width :=
  fun cell => bytes.getD (offsetFrom address cell) (memory cell)

/-- Two runs of bytes that share no cell. -/
def Apart (address : BitVec width) (count : Nat) (other : BitVec width) (otherCount : Nat) :
    Prop :=
  ∀ offset < otherCount, count ≤ offsetFrom address (other + BitVec.ofNat width offset)

@[simp] theorem load_length (memory : Memory width) (address : BitVec width) (count : Nat) :
    (loadBytes memory address count).length = count := by
  simp [loadBytes]

theorem load_get (memory : Memory width) (address : BitVec width) {count offset : Nat}
    (inside : offset < (loadBytes memory address count).length) :
    (loadBytes memory address count)[offset] = memory (address + BitVec.ofNat width offset) := by
  simp [loadBytes]

theorem load_concat (memory : Memory width) (address : BitVec width) (count : Nat) :
    loadBytes memory address (count + 1) =
      loadBytes memory address count ++ [memory (address + BitVec.ofNat width count)] := by
  rw [loadBytes, List.range_succ, List.map_append]
  rfl

theorem load_add (memory : Memory width) (address : BitVec width) (count more : Nat) :
    loadBytes memory address (count + more) =
      loadBytes memory address count ++
        loadBytes memory (address + BitVec.ofNat width count) more := by
  induction more with
  | zero => rw [loadBytes, loadBytes, loadBytes, List.range_zero, List.map_nil, List.append_nil]; rfl
  | succ more induction =>
      rw [← Nat.add_assoc, load_concat, induction, load_concat, List.append_assoc, BitVec.add_assoc,
        ← BitVec.ofNat_add]

theorem load_part {memory : Memory width} {address : BitVec width} {bytes : List Byte}
    (loaded : loadBytes memory address bytes.length = bytes) {offset count : Nat}
    (inside : offset + count ≤ bytes.length) :
    loadBytes memory (address + BitVec.ofNat width offset) count = (bytes.drop offset).take count := by
  have whole := load_add memory address offset (bytes.length - offset)
  rw [Nat.add_sub_cancel' (by omega), loaded] at whole
  have rest := congrArg (List.drop offset) whole
  rw [List.drop_left' (load_length _ _ _)] at rest
  have front := load_add memory (address + BitVec.ofNat width offset) count
    (bytes.length - offset - count)
  rw [Nat.add_sub_cancel' (by omega), ← rest] at front
  rw [front, List.take_left' (load_length _ _ _)]

theorem store_outside {memory : Memory width} {address cell : BitVec width} {bytes : List Byte}
    (outside : bytes.length ≤ offsetFrom address cell) :
    storeBytes memory address bytes cell = memory cell := by
  rw [storeBytes, List.getD_eq_default _ _ outside]

theorem offset_from_add {address : BitVec width} {offset : Nat} (bounded : offset < 2 ^ width) :
    offsetFrom address (address + BitVec.ofNat width offset) = offset := by
  rw [offsetFrom, BitVec.add_comm, BitVec.add_sub_cancel, BitVec.toNat_ofNat,
    Nat.mod_eq_of_lt bounded]

/-- A run that begins past the end of another and does not wrap around to it. -/
theorem apart_of_above {address : BitVec width} {count gap otherCount : Nat}
    (above : count ≤ gap) (inside : gap + otherCount ≤ 2 ^ width) :
    Apart address count (address + BitVec.ofNat width gap) otherCount := by
  intro offset bounded
  rw [BitVec.add_assoc, ← BitVec.ofNat_add, offset_from_add (by omega)]
  omega

theorem load_store_same (memory : Memory width) (address : BitVec width) {bytes : List Byte}
    (fits : bytes.length ≤ 2 ^ width) :
    loadBytes (storeBytes memory address bytes) address bytes.length = bytes := by
  apply List.ext_getElem
  · simp
  · intro index inLoad inBytes
    simp only [loadBytes, List.getElem_map, List.getElem_range, storeBytes]
    rw [offset_from_add (by omega), List.getD_eq_getElem _ _ inBytes]

theorem load_store_apart {memory : Memory width} {address other : BitVec width}
    {bytes : List Byte} {count : Nat} (apart : Apart address bytes.length other count) :
    loadBytes (storeBytes memory address bytes) other count = loadBytes memory other count := by
  apply List.map_congr_left
  intro offset member
  exact store_outside (apart offset (List.mem_range.mp member))

def storeRuns (memory : Memory width) (runs : List (BitVec width × List Byte)) : Memory width :=
  runs.foldl (fun memory run => storeBytes memory run.1 run.2) memory

theorem store_runs_concat (memory : Memory width) (runs : List (BitVec width × List Byte))
    (address : BitVec width) (bytes : List Byte) :
    storeRuns memory (runs ++ [(address, bytes)]) =
      storeBytes (storeRuns memory runs) address bytes := by
  rw [storeRuns, List.foldl_concat]
  rfl

def CopyOf (source : Memory width) (run : BitVec width × List Byte) : Prop :=
  ∀ offset (inside : offset < run.2.length),
    run.2[offset] = source (run.1 + BitVec.ofNat width offset)

theorem add_offset_from (start cell : BitVec width) :
    start + BitVec.ofNat width (offsetFrom start cell) = cell := by
  rw [offsetFrom, BitVec.ofNat_toNat, BitVec.setWidth_eq, BitVec.add_comm, BitVec.sub_add_cancel]

theorem store_runs_uncovered {runs : List (BitVec width × List Byte)} {memory : Memory width}
    {cell : BitVec width} (outside : ∀ run ∈ runs, run.2.length ≤ offsetFrom run.1 cell) :
    storeRuns memory runs cell = memory cell := by
  induction runs generalizing memory with
  | nil => rfl
  | cons run rest induction =>
      rw [List.forall_mem_cons] at outside
      exact (induction outside.2).trans (store_outside outside.1)

/-- Copies of one source give the cells they cover its bytes, in whatever order they come. -/
theorem store_runs_covered {source : Memory width} {runs : List (BitVec width × List Byte)}
    (copies : ∀ run ∈ runs, CopyOf source run) {memory : Memory width} {cell : BitVec width}
    (covered : ∃ run ∈ runs, offsetFrom run.1 cell < run.2.length) :
    storeRuns memory runs cell = source cell := by
  induction runs generalizing memory with
  | nil => simp at covered
  | cons run rest induction =>
      rw [List.forall_mem_cons] at copies
      by_cases later : ∃ run ∈ rest, offsetFrom run.1 cell < run.2.length
      · exact induction copies.2 later
      · have inside : offsetFrom run.1 cell < run.2.length := by
          simpa only [List.exists_mem_cons_iff, later, or_false] using covered
        have outside : ∀ run ∈ rest, run.2.length ≤ offsetFrom run.1 cell := by
          intro other member
          exact not_lt.mp fun within => later ⟨other, member, within⟩
        have stored : storeBytes memory run.1 run.2 cell = source cell := by
          rw [storeBytes, List.getD_eq_getElem _ _ inside, copies.1 _ inside, add_offset_from]
        exact (store_runs_uncovered outside).trans stored

end Memory

section Copies

variable {width : Nat}

/-- The target after the first `count` bytes at `src` of the source were copied to `dest`. -/
def copiedFrom (source target : Memory width) (dest src : BitVec width) (count : Nat) :
    Memory width :=
  fun cell =>
    if offsetFrom dest cell < count then source (src + BitVec.ofNat width (offsetFrom dest cell))
    else target cell

def copied (memory : Memory width) (dest src : BitVec width) (count : Nat) : Memory width :=
  fun cell =>
    if offsetFrom dest cell < count then memory (src + BitVec.ofNat width (offsetFrom dest cell))
    else memory cell

variable (source target memory : Memory width) (dest src : BitVec width)

theorem copied_from_nothing : copiedFrom source target dest src 0 = target := by
  funext cell
  exact if_neg (Nat.not_lt_zero _)

theorem copied_from_inside {count offset : Nat} (inside : offset < count)
    (bounded : offset < 2 ^ width) :
    copiedFrom source target dest src count (dest + BitVec.ofNat width offset) =
      source (src + BitVec.ofNat width offset) := by
  rw [copiedFrom, offset_from_add bounded, if_pos inside]

theorem copied_from_outside {count : Nat} {cell : BitVec width}
    (outside : ∀ offset < count, cell ≠ dest + BitVec.ofNat width offset) :
    copiedFrom source target dest src count cell = target cell := by
  apply if_neg
  intro inside
  exact outside _ inside (add_offset_from dest cell).symm

theorem copied_nothing : copied memory dest src 0 = memory :=
  copied_from_nothing memory memory dest src

theorem copied_inside {count offset : Nat} (inside : offset < count) (bounded : offset < 2 ^ width) :
    copied memory dest src count (dest + BitVec.ofNat width offset) =
      memory (src + BitVec.ofNat width offset) :=
  copied_from_inside memory memory dest src inside bounded

theorem copied_outside {count : Nat} {cell : BitVec width}
    (outside : ∀ offset < count, cell ≠ dest + BitVec.ofNat width offset) :
    copied memory dest src count cell = memory cell :=
  copied_from_outside memory memory dest src outside

theorem load_copied {count more : Nat}
    (apart : Apart dest count (src + BitVec.ofNat width count) more) :
    loadBytes (copied memory dest src count) (src + BitVec.ofNat width count) more =
      loadBytes memory (src + BitVec.ofNat width count) more := by
  apply List.map_congr_left
  intro offset member
  exact if_neg (Nat.not_lt.mpr (apart offset (List.mem_range.mp member)))

/-- The distance from a cell further up, which wraps for what lies below it. -/
theorem offset_from_above (start cell : BitVec width) {distance : Nat}
    (bounded : distance < 2 ^ width) :
    offsetFrom (start + BitVec.ofNat width distance) cell =
      if distance ≤ offsetFrom start cell then offsetFrom start cell - distance
      else offsetFrom start cell + 2 ^ width - distance := by
  have above : cell - (start + BitVec.ofNat width distance) =
      (cell - start) - BitVec.ofNat width distance := sub_add_eq_sub_sub _ _ _
  have inside := (cell - start).isLt
  rw [offsetFrom, offsetFrom, above, BitVec.toNat_sub, BitVec.toNat_ofNat,
    Nat.mod_eq_of_lt bounded]
  split
  · rename_i reached
    rw [show 2 ^ width - distance + (cell - start).toNat =
      (cell - start).toNat - distance + 2 ^ width by omega, Nat.add_mod_right,
      Nat.mod_eq_of_lt (by omega)]
  · rw [Nat.mod_eq_of_lt (by omega)]
    omega

theorem store_copied_from {count more : Nat} (bound : count + more ≤ 2 ^ width)
    (positive : 0 < more) :
    storeBytes (copiedFrom source target dest src count) (dest + BitVec.ofNat width count)
        (loadBytes source (src + BitVec.ofNat width count) more) =
      copiedFrom source target dest src (count + more) := by
  funext cell
  have bounded := (cell - dest).isLt
  rw [storeBytes, offset_from_above dest cell (by omega), copiedFrom, copiedFrom]
  by_cases before : offsetFrom dest cell < count
  · rw [if_neg (by omega), if_pos before, if_pos (by omega)]
    apply List.getD_eq_default
    rw [load_length]
    omega
  · rw [if_pos (by omega), if_neg before]
    by_cases within : offsetFrom dest cell < count + more
    · rw [if_pos within, List.getD_eq_getElem _ _ (by rw [load_length]; omega), load_get,
        BitVec.add_assoc, ← BitVec.ofNat_add,
        show count + (offsetFrom dest cell - count) = offsetFrom dest cell by omega]
    · rw [if_neg within]
      apply List.getD_eq_default
      rw [load_length]
      omega

theorem store_copied {count more : Nat} (bound : count + more ≤ 2 ^ width)
    (positive : 0 < more) :
    storeBytes (copied memory dest src count) (dest + BitVec.ofNat width count)
        (loadBytes memory (src + BitVec.ofNat width count) more) =
      copied memory dest src (count + more) :=
  store_copied_from memory memory dest src bound positive

end Copies

section Filling

variable {width : Nat} (memory : Memory width) (dest : BitVec width) (byte : Byte)

def filled (count : Nat) : Memory width :=
  fun cell => if offsetFrom dest cell < count then byte else memory cell

theorem filled_nothing : filled memory dest byte 0 = memory := by
  funext cell
  exact if_neg (Nat.not_lt_zero _)

theorem load_constant (address : BitVec width) (count : Nat) :
    loadBytes (fun _ => byte) address count = List.replicate count byte := by
  rw [loadBytes, List.map_const', List.length_range]

theorem store_filled {count more : Nat} (bound : count + more ≤ 2 ^ width) (positive : 0 < more) :
    storeBytes (filled memory dest byte count) (dest + BitVec.ofNat width count)
        (List.replicate more byte) =
      filled memory dest byte (count + more) := by
  have stored := store_copied_from (fun _ => byte) memory dest 0 bound positive
  rw [load_constant] at stored
  exact stored

end Filling

section Exchanges

variable {width : Nat} {memory : Memory width} {first second : BitVec width} {total : Nat}

theorem apart_symm (bound : total ≤ 2 ^ width) (apart : Apart first total second total) :
    Apart second total first total := by
  intro offset inside
  by_contra near
  have within : offsetFrom second (first + BitVec.ofNat width offset) < total := not_le.mp near
  have distance := apart _ within
  rw [add_offset_from, offset_from_add (by omega)] at distance
  omega

def exchanged (memory : Memory width) (first second : BitVec width) (count : Nat) : Memory width :=
  fun cell =>
    if offsetFrom first cell < count then memory (second + BitVec.ofNat width (offsetFrom first cell))
    else if offsetFrom second cell < count then
      memory (first + BitVec.ofNat width (offsetFrom second cell))
    else memory cell

theorem exchanged_nothing (memory : Memory width) (first second : BitVec width) :
    exchanged memory first second 0 = memory := by
  funext cell
  rw [exchanged, if_neg (Nat.not_lt_zero _), if_neg (Nat.not_lt_zero _)]

theorem exchanged_outside {count : Nat} {cell : BitVec width}
    (outsideFirst : count ≤ offsetFrom first cell) (outsideSecond : count ≤ offsetFrom second cell) :
    exchanged memory first second count cell = memory cell := by
  rw [exchanged, if_neg (Nat.not_lt.mpr outsideFirst), if_neg (Nat.not_lt.mpr outsideSecond)]

theorem exchange_next (bound : total ≤ 2 ^ width) (apart : Apart first total second total)
    {count : Nat} (more : count < total) :
    Function.update
        (Function.update (exchanged memory first second count) (first + BitVec.ofNat width count)
          (exchanged memory first second count (second + BitVec.ofNat width count)))
        (second + BitVec.ofNat width count)
        (exchanged memory first second count (first + BitVec.ofNat width count)) =
      exchanged memory first second (count + 1) := by
  have firstOffset : offsetFrom first (first + BitVec.ofNat width count) = count :=
    offset_from_add (by omega)
  have secondOffset : offsetFrom second (second + BitVec.ofNat width count) = count :=
    offset_from_add (by omega)
  have firstApart := apart count more
  have secondApart := apart_symm bound apart count more
  have atFirst : exchanged memory first second count (first + BitVec.ofNat width count) =
      memory (first + BitVec.ofNat width count) :=
    exchanged_outside firstOffset.ge (by omega)
  have atSecond : exchanged memory first second count (second + BitVec.ofNat width count) =
      memory (second + BitVec.ofNat width count) :=
    exchanged_outside (by omega) secondOffset.ge
  funext cell
  rw [atFirst, atSecond]
  by_cases isSecond : cell = second + BitVec.ofNat width count
  · rw [isSecond, Function.update_self, exchanged, if_neg (by omega), if_pos (by omega),
      secondOffset]
  rw [Function.update_of_ne isSecond]
  by_cases isFirst : cell = first + BitVec.ofNat width count
  · rw [isFirst, Function.update_self, exchanged, if_pos (by omega), firstOffset]
  rw [Function.update_of_ne isFirst]
  have notFirst : offsetFrom first cell ≠ count := by
    intro same
    exact isFirst (same ▸ (add_offset_from first cell).symm)
  have notSecond : offsetFrom second cell ≠ count := by
    intro same
    exact isSecond (same ▸ (add_offset_from second cell).symm)
  have firstLess : offsetFrom first cell < count + 1 ↔ offsetFrom first cell < count := by omega
  have secondLess : offsetFrom second cell < count + 1 ↔ offsetFrom second cell < count := by omega
  simp only [exchanged, firstLess, secondLess]

theorem load_exchanged_first (bound : total ≤ 2 ^ width) :
    loadBytes (exchanged memory first second total) first total = loadBytes memory second total := by
  apply List.map_congr_left
  intro offset member
  have inside := List.mem_range.mp member
  have same : offsetFrom first (first + BitVec.ofNat width offset) = offset :=
    offset_from_add (by omega)
  rw [exchanged, if_pos (by omega), same]

theorem load_exchanged_second (bound : total ≤ 2 ^ width) (apart : Apart first total second total) :
    loadBytes (exchanged memory first second total) second total = loadBytes memory first total := by
  apply List.map_congr_left
  intro offset member
  have inside := List.mem_range.mp member
  have same : offsetFrom second (second + BitVec.ofNat width offset) = offset :=
    offset_from_add (by omega)
  have distance := apart offset inside
  rw [exchanged, if_neg (by omega), if_pos (by omega), same]

theorem load_exchanged_apart {other : BitVec width} (firstApart : Apart first total other total)
    (secondApart : Apart second total other total) :
    loadBytes (exchanged memory first second total) other total = loadBytes memory other total := by
  apply List.map_congr_left
  intro offset member
  have inside := List.mem_range.mp member
  exact exchanged_outside (firstApart offset inside) (secondApart offset inside)

end Exchanges

section Words

variable {width : Nat}

def loadWord (memory : Memory width) (address : BitVec width) (count : Nat) :
    BitVec (8 * count) :=
  BitVec.ofNat (8 * count) (valueLE (loadBytes memory address count))

def storeWord (memory : Memory width) (address : BitVec width) (count : Nat)
    (word : BitVec (8 * count)) : Memory width :=
  storeBytes memory address (bytesLE count word.toNat)

private theorem word_bound (count : Nat) : 256 ^ count = 2 ^ (8 * count) := by
  rw [Nat.pow_mul]

theorem load_word_store_word_same (memory : Memory width) (address : BitVec width) {count : Nat}
    (fits : count ≤ 2 ^ width) (word : BitVec (8 * count)) :
    loadWord (storeWord memory address count word) address count = word := by
  have stored := load_store_same memory address
    (show (bytesLE count word.toNat).length ≤ 2 ^ width by rwa [bytes_length])
  rw [bytes_length] at stored
  apply BitVec.eq_of_toNat_eq
  rw [loadWord, storeWord, stored, value_bytes, word_bound, BitVec.toNat_ofNat, Nat.mod_mod,
    Nat.mod_eq_of_lt word.isLt]

theorem load_word_store_word_apart {memory : Memory width} {address other : BitVec width}
    {count otherCount : Nat} {word : BitVec (8 * count)}
    (apart : Apart address count other otherCount) :
    loadWord (storeWord memory address count word) other otherCount =
      loadWord memory other otherCount := by
  rw [loadWord, loadWord, storeWord, load_store_apart]
  rwa [bytes_length]

theorem load_word_congr {memory other : Memory width} {address : BitVec width} {count : Nat}
    (same : ∀ offset < count, other (address + BitVec.ofNat width offset) =
      memory (address + BitVec.ofNat width offset)) :
    loadWord other address count = loadWord memory address count := by
  have bytes : loadBytes other address count = loadBytes memory address count := by
    apply List.map_congr_left
    intro offset inside
    exact same offset (List.mem_range.mp inside)
  rw [loadWord, loadWord, bytes]

theorem store_word_load_word (memory source : Memory width) (address other : BitVec width)
    (count : Nat) :
    storeWord memory address count (loadWord source other count) =
      storeBytes memory address (loadBytes source other count) := by
  have bytes := bytes_value (loadBytes source other count)
  have bounded := value_lt (loadBytes source other count)
  rw [load_length] at bytes bounded
  rw [storeWord, loadWord, BitVec.toNat_ofNat, ← word_bound, Nat.mod_eq_of_lt bounded, bytes]

end Words

end ByteMemory
