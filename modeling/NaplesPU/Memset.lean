import NaplesPU.Lib.Lanes
import NaplesPU.Lib.Loops
import NaplesPU.Machine

/-!
The library's `memset`. From a multiple of sixty-four on it stores vectors, from a multiple of
four on words, and at last bytes. The first two loops stop when no more than one piece is left.
-/

namespace NaplesPU.Memset

open ByteMemory Lanes Loops Machine

/-- The variables of the routine and the memory, with the stores made so far. -/
structure State where
  dest : Word
  length : Word
  memory : Memory 32
  stores : List (Word × List Byte)

/-- What a loop stores at a time, copies of a byte, while more than so many bytes are left. -/
structure Piece (byte : Byte) where
  size : Nat
  word : BitVec (8 * size)
  least : Word
  positive : 0 < size
  enough : size ≤ least.toNat + 1
  copies : bytesLE size word.toNat = List.replicate size byte

variable {byte : Byte}

def Piece.store (piece : Piece byte) (state : State) : State where
  dest := state.dest + BitVec.ofNat 32 piece.size
  length := state.length - BitVec.ofNat 32 piece.size
  memory := storeWord state.memory state.dest piece.size piece.word
  stores := state.stores ++ [(state.dest, bytesLE piece.size piece.word.toNat)]

theorem Piece.length_store (piece : Piece byte) {state : State}
    (more : piece.least < state.length) :
    (piece.store state).length.toNat = state.length.toNat - piece.size := by
  have enough := piece.enough
  have bounded := state.length.isLt
  have less : piece.least.toNat < state.length.toNat := more
  rw [Piece.store, BitVec.toNat_sub, BitVec.toNat_ofNat]
  omega

theorem Piece.shorter (piece : Piece byte) (state : State)
    (more : decide (piece.least < state.length) = true) :
    (piece.store state).length.toNat < state.length.toNat := by
  have positive := piece.positive
  have less : piece.least.toNat < state.length.toNat := of_decide_eq_true more
  rw [piece.length_store (of_decide_eq_true more)]
  omega

def Piece.writeWhile (piece : Piece byte) : State → State :=
  whileLoop (fun state => decide (piece.least < state.length)) piece.store
    (fun state => state.length.toNat) piece.shorter

section Values

def wideVal (value : Word) : Word :=
  value ||| (value <<< 8) ||| (value <<< 16) ||| (value <<< 24)

/-- A cast to `vec16i32` gives every lane the value. -/
def reallyWideValue (value : Word) : Vector := ofLanes fun _ : Fin 16 => wideVal value

theorem low_byte_bit (value : Word) (bit : Nat) :
    (value &&& 0xff).getLsbD bit = (decide (bit < 8) && value.getLsbD bit) := by
  have mask : (0xff : Word).toNat = 2 ^ 8 - 1 := rfl
  rw [BitVec.getLsbD, BitVec.toNat_and, mask, Nat.and_two_pow_sub_one_eq_mod,
    Nat.testBit_mod_two_pow]
  rfl

theorem wide_val_bit (value : Word) {bit : Nat} (inside : bit < 32) :
    (wideVal (value &&& 0xff)).getLsbD bit = (value.setWidth 8).getLsbD (bit % 8) := by
  have small : bit % 8 < 8 := Nat.mod_lt _ (by decide)
  simp only [wideVal, BitVec.getLsbD_or, BitVec.getLsbD_shiftLeft, low_byte_bit,
    BitVec.getLsbD_setWidth]
  have place : bit < 8 ∨ 8 ≤ bit ∧ bit < 16 ∨ 16 ≤ bit ∧ bit < 24 ∨ 24 ≤ bit := by omega
  rcases place with first | second | third | fourth
  · have offset : bit % 8 = bit := by omega
    grind
  · have offset : bit % 8 = bit - 8 := by omega
    grind
  · have offset : bit % 8 = bit - 16 := by omega
    grind
  · have offset : bit % 8 = bit - 24 := by omega
    grind

theorem wide_val_bytes (value : Word) :
    bytesLE 4 (wideVal (value &&& 0xff)).toNat = List.replicate 4 (value.setWidth 8) := by
  apply bytes_repeated
  intro bit inside
  exact wide_val_bit value inside

theorem really_wide_value_bytes (value : Word) :
    bytesLE 64 (reallyWideValue (value &&& 0xff)).toNat =
      List.replicate 64 (value.setWidth 8) := by
  apply bytes_repeated
  intro bit inside
  have lane := of_bits_bit (fun position : Fin (16 * 32) =>
    (wideVal (value &&& 0xff)).getLsbD (position % 32)) ⟨bit, inside⟩
  have same : bit % 32 % 8 = bit % 8 := by omega
  exact lane.trans ((wide_val_bit value (Nat.mod_lt _ (by decide))).trans (by rw [same]))

theorem byte_bytes (value : Word) :
    bytesLE 1 ((value &&& 0xff).setWidth 8).toNat = List.replicate 1 (value.setWidth 8) := by
  apply bytes_repeated
  intro bit inside
  have low := low_byte_bit value bit
  rw [decide_eq_true inside, Bool.true_and] at low
  have kept : ((value &&& 0xff).setWidth 8).getLsbD bit = (value.setWidth 8).getLsbD bit := by
    rw [BitVec.getLsbD_setWidth, BitVec.getLsbD_setWidth, low]
  rw [Nat.mod_eq_of_lt inside]
  exact kept

end Values

section Routine

/-- Write 64 bytes at a time. -/
def vectors (value : Word) : Piece (value.setWidth 8) where
  size := 64
  word := reallyWideValue (value &&& 0xff)
  least := 64
  positive := by decide
  enough := by decide
  copies := really_wide_value_bytes value

/-- Write 4 bytes at a time. -/
def words (value : Word) : Piece (value.setWidth 8) where
  size := 4
  word := wideVal (value &&& 0xff)
  least := 4
  positive := by decide
  enough := by decide
  copies := wide_val_bytes value

/-- Write one byte at a time. -/
def bytes (value : Word) : Piece (value.setWidth 8) where
  size := 1
  word := (value &&& 0xff).setWidth 8
  least := 0
  positive := by decide
  enough := by decide
  copies := byte_bytes value

/-- The returned pointer, and the state at the end. The pieces are of the masked value. -/
def memset (memory : Memory 32) (_dest value length : Word) : Word × State :=
  let entry : State := ⟨_dest, length, memory, []⟩
  let afterVectors := if entry.dest &&& 63 = 0 then (vectors value).writeWhile entry else entry
  let afterWords :=
    if afterVectors.dest &&& 3 = 0 then (words value).writeWhile afterVectors else afterVectors
  (_dest, (bytes value).writeWhile afterWords)

end Routine

section Progress

/-- A store of bytes, words or vectors in the range of a call, at a multiple of its size. -/
structure Proper (dest length : Word) (store : Word × List Byte) : Prop where
  size : store.2.length = 1 ∨ store.2.length = 4 ∨ store.2.length = 64
  aligned : store.1.toNat % store.2.length = 0
  lower : dest.toNat ≤ store.1.toNat
  upper : store.1.toNat + store.2.length ≤ dest.toNat + length.toNat

/-- The first bytes are set, and the variables stand at the next one. -/
structure Progress (memory : Memory 32) (dest length : Word) (byte : Byte) (done : Nat)
    (state : State) : Prop where
  bounded : done ≤ length.toNat
  next : state.dest = dest + BitVec.ofNat 32 done
  remaining : state.length.toNat = length.toNat - done
  content : state.memory = filled memory dest byte done
  replayed : state.memory = storeRuns memory state.stores
  stores : ∀ store ∈ state.stores, Proper dest length store

variable {memory : Memory 32} {dest length : Word} {done : Nat} {state : State}

theorem progress_start (memory : Memory 32) (dest length : Word) (byte : Byte) :
    Progress memory dest length byte 0 ⟨dest, length, memory, []⟩ where
  bounded := Nat.zero_le _
  next := (BitVec.add_zero dest).symm
  remaining := rfl
  content := (filled_nothing memory dest byte).symm
  replayed := rfl
  stores := by
    intro store member
    cases member

/-- A piece is one of the three sizes. -/
def Sized (piece : Piece byte) : Prop := piece.size = 1 ∨ piece.size = 4 ∨ piece.size = 64

theorem Progress.store (progress : Progress memory dest length byte done state)
    (inside : dest.toNat + length.toNat ≤ 2 ^ 32) {piece : Piece byte} (sized : Sized piece)
    (aligned : state.dest.toNat % piece.size = 0) (more : piece.least < state.length) :
    Progress memory dest length byte (done + piece.size) (piece.store state) := by
  have positive := piece.positive
  have enough := piece.enough
  have less : piece.least.toNat < state.length.toNat := more
  have remaining := progress.remaining
  have bounded := progress.bounded
  have lengthLt := length.isLt
  have place : state.dest.toNat = dest.toNat + done := by
    rw [progress.next, BitVec.toNat_add, BitVec.toNat_ofNat]
    omega
  have stored : storeWord state.memory state.dest piece.size piece.word =
      storeBytes state.memory state.dest (bytesLE piece.size piece.word.toNat) := rfl
  constructor
  · omega
  · rw [Piece.store, progress.next, BitVec.add_assoc, ← BitVec.ofNat_add]
  · rw [piece.length_store more, remaining]
    omega
  · rw [Piece.store, stored, piece.copies, progress.content, progress.next,
      store_filled memory dest byte (by omega) positive]
  · rw [Piece.store, stored, store_runs_concat, ← progress.replayed]
  · intro store member
    rcases List.mem_append.mp member with before | last
    · exact progress.stores store before
    · obtain rfl := List.mem_singleton.mp last
      constructor
      · rw [bytes_length]
        exact sized
      · rw [bytes_length]
        exact aligned
      · dsimp only
        omega
      · rw [bytes_length]
        dsimp only
        omega

/-- A loop sets bytes until not more than its bound are left, and what it needs of the
alignment stays. -/
theorem Progress.write_while (progress : Progress memory dest length byte done state)
    (inside : dest.toNat + length.toNat ≤ 2 ^ 32) {piece : Piece byte} (sized : Sized piece)
    (aligned : state.dest.toNat % piece.size = 0) :
    ∃ total, Progress memory dest length byte total (piece.writeWhile state) ∧
      (piece.writeWhile state).length ≤ piece.least := by
  have loop := @while_invariant State (fun state => decide (piece.least < state.length)) piece.store
    (fun state => state.length.toNat) piece.shorter
    (fun state => (∃ total, Progress memory dest length byte total state) ∧
      state.dest.toNat % piece.size = 0) ?_ state ⟨⟨done, progress⟩, aligned⟩
  · obtain ⟨⟨total, finished⟩, -⟩ := loop.1
    refine ⟨total, finished, ?_⟩
    exact BitVec.not_lt.mp (of_decide_eq_false loop.2)
  · rintro state ⟨⟨total, progress⟩, aligned⟩ more
    have next := progress.store inside sized aligned (of_decide_eq_true more)
    refine ⟨⟨_, next⟩, ?_⟩
    have moved : (piece.store state).dest.toNat = (state.dest.toNat + piece.size) % 2 ^ 32 := by
      rw [Piece.store, BitVec.toNat_add, BitVec.toNat_ofNat, Nat.add_mod_mod]
    rw [moved]
    rcases sized with size | size | size
    all_goals
      rw [size] at aligned ⊢
      omega

theorem Progress.write_if (progress : Progress memory dest length byte done state)
    (inside : dest.toNat + length.toNat ≤ 2 ^ 32) {piece : Piece byte} (sized : Sized piece)
    {test : Prop} [Decidable test] (tested : test → state.dest.toNat % piece.size = 0) :
    ∃ total, Progress memory dest length byte total
      (if test then piece.writeWhile state else state) := by
  split
  · rename_i holds
    obtain ⟨total, finished, -⟩ := progress.write_while inside sized (tested holds)
    exact ⟨total, finished⟩
  · exact ⟨done, progress⟩

end Progress

section Result

/-- The bytes of the range are the value, all others are as before, and so the stores made them;
each store is proper. -/
structure IsSet (memory : Memory 32) (dest value length : Word) (result : Word × State) : Prop where
  returned : result.1 = dest
  inside : ∀ cell : Word, dest.toNat ≤ cell.toNat → cell.toNat < dest.toNat + length.toNat →
    result.2.memory cell = BitVec.ofNat 8 (value.toNat % 256)
  outside : ∀ cell : Word, cell.toNat < dest.toNat ∨ dest.toNat + length.toNat ≤ cell.toNat →
    result.2.memory cell = memory cell
  replayed : result.2.memory = storeRuns memory result.2.stores
  stores : ∀ store ∈ result.2.stores, Proper dest length store

variable {memory : Memory 32} {dest value length : Word}

theorem mask_zero_iff (address : Word) {mask : Word} {bits : Nat}
    (known : mask.toNat = 2 ^ bits - 1) :
    address &&& mask = 0 ↔ address.toNat % 2 ^ bits = 0 := by
  have remainder : (address &&& mask).toNat = address.toNat % 2 ^ bits := by
    rw [BitVec.toNat_and, known, Nat.and_two_pow_sub_one_eq_mod]
  rw [← remainder]
  exact BitVec.toNat_inj.symm

/-- `memset` sets the range and nothing else, and returns the destination. -/
theorem memset_sets (memory : Memory 32) (dest value length : Word)
    (inside : dest.toNat + length.toNat ≤ 2 ^ 32) :
    IsSet memory dest value length (memset memory dest value length) := by
  have start := progress_start memory dest length (value.setWidth 8)
  obtain ⟨vectorsDone, afterVectors⟩ := start.write_if inside
    (show Sized (vectors value) from Or.inr (Or.inr rfl))
    (mask_zero_iff dest (show (63 : Word).toNat = 2 ^ 6 - 1 from rfl)).mp
  obtain ⟨wordsDone, afterWords⟩ := afterVectors.write_if inside
    (show Sized (words value) from Or.inr (Or.inl rfl))
    (mask_zero_iff _ (show (3 : Word).toNat = 2 ^ 2 - 1 from rfl)).mp
  obtain ⟨total, finished, few⟩ := afterWords.write_while inside
    (show Sized (bytes value) from Or.inl rfl) (Nat.mod_one _)
  have remaining : (memset memory dest value length).2.length.toNat = length.toNat - total :=
    finished.remaining
  have bounded := finished.bounded
  have none : (memset memory dest value length).2.length.toNat = 0 := Nat.le_zero.mp few
  have all : total = length.toNat := by omega
  rw [all] at finished
  have byte : value.setWidth 8 = BitVec.ofNat 8 (value.toNat % 256) := by
    apply BitVec.eq_of_toNat_eq
    rw [BitVec.toNat_setWidth, BitVec.toNat_ofNat, Nat.mod_mod]
  have content : (memset memory dest value length).2.memory =
      filled memory dest (value.setWidth 8) length.toNat := finished.content
  have offset (cell : Word) :
      offsetFrom dest cell = (2 ^ 32 - dest.toNat + cell.toNat) % 2 ^ 32 := BitVec.toNat_sub _ _
  constructor
  · rfl
  · intro cell lower upper
    have bound := cell.isLt
    rw [content, filled, offset, if_pos (by omega), byte]
  · intro cell apart
    have bound := cell.isLt
    have destBound := dest.isLt
    rw [content, filled, offset, if_neg (by omega)]
  · exact finished.replayed
  · exact finished.stores

/-- From the middle of a vector on, words and two bytes. -/
theorem sixty_six_bytes_set :
    IsSet (fun _ => 0) 0x1004 0x1ab 66 (memset (fun _ => 0) 0x1004 0x1ab 66) :=
  memset_sets (fun _ => 0) 0x1004 0x1ab 66 (by decide)

end Result

end NaplesPU.Memset
