import NaplesPU.Lib.ByteMemory

/-!
The converter from an executable to the hex file of a memory simulator. Program
headers give the size of an image, the segments are read into it, its end is
padded, and the blocks of each segment are printed unless they are zero. Every
index of the image that is written or read is recorded, in the buffer or not;
`outside` is what lies in memory behind the buffer.
-/

namespace NaplesPU.Elf2Hex

open ByteMemory

abbrev Elf32_Word := BitVec 32

structure Elf32_Ehdr where
  e_ident : List Byte
  e_machine : Nat
  e_phoff : Nat
  e_phnum : Nat
deriving DecidableEq

structure Elf32_Phdr where
  p_type : Elf32_Word
  p_offset : Elf32_Word
  p_vaddr : Elf32_Word
  p_filesz : Elf32_Word
  p_memsz : Elf32_Word
deriving DecidableEq

def ElfMagic : List Byte := [0x7f, 0x45, 0x4c, 0x46]

def EM_NPU : Nat := 9876

def PT_LOAD : Elf32_Word := 1

inductive Stop where
  | error (message : String)
  | shortSegment
  | endless
deriving DecidableEq, Repr

def readEhdr (file : List Byte) : Option Elf32_Ehdr :=
  if file.length < 52 then none
  else some ⟨file.take 4, readAt file 18 2, readAt file 28 4, readAt file 44 2⟩

def phdrAt (file : List Byte) (offset : Nat) : Elf32_Phdr :=
  let word (member : Nat) : Elf32_Word := BitVec.ofNat 32 (readAt file (offset + member) 4)
  ⟨word 0, word 4, word 8, word 16, word 20⟩

def readPhdrs (file : List Byte) (offset count : Nat) : Option (List Elf32_Phdr) :=
  if count = 0 ∨ offset + 32 * count ≤ file.length then
    some ((List.range count).map fun segment => phdrAt file (offset + 32 * segment))
  else none

/-- The headers of the file, checked in the order of the source. -/
def readHeaders (file : List Byte) : Except Stop (List Elf32_Phdr) :=
  match readEhdr file with
  | none => .error (.error "Error reading header\n")
  | some eheader =>
      if eheader.e_ident ≠ ElfMagic then .error (.error "Not an elf file\n")
      else if eheader.e_machine ≠ EM_NPU then .error (.error "Incorrect architecture\n")
      else if eheader.e_phoff = 0 then .error (.error "File has no program header\n")
      else
        match readPhdrs file eheader.e_phoff eheader.e_phnum with
        | none => .error (.error "error reading program header\n")
        | some headers => .ok headers

/-- The highest end of a segment, in thirty-two bits, while every segment is checked
against the base address. -/
def findMaxAddress (base : Elf32_Word) :
    Nat → List Elf32_Phdr → Elf32_Word → Except Stop Elf32_Word
  | _, [], maxAddress => .ok maxAddress
  | segment, header :: rest, maxAddress =>
      if header.p_type = PT_LOAD then
        let highAddr := header.p_vaddr + header.p_memsz
        if header.p_vaddr < base then
          .error (.error ("Program segment " ++ toString segment ++ " @" ++
            toString header.p_vaddr.toNat ++ " is before requested base address " ++
            toString base.toNat ++ "\n"))
        else findMaxAddress base (segment + 1) rest
          (if maxAddress < highAddr then highAddr else maxAddress)
      else findMaxAddress base (segment + 1) rest maxAddress

/-- Whole cache lines. The difference wraps, the rounding is done in sixty-four bits. -/
def memSize (maxAddress base : Elf32_Word) : Nat :=
  ((maxAddress - base).toNat + 64 - 1) / 64 * 64

/-- The cells from the start of the buffer on, and the indices used so far. -/
structure MemoryImage where
  bytes : Nat → Byte
  accessed : List Nat

namespace MemoryImage

def write (image : MemoryImage) (index : Nat) (value : Byte) : MemoryImage :=
  ⟨Function.update image.bytes index value, index :: image.accessed⟩

def read (image : MemoryImage) (index : Nat) : Byte × MemoryImage :=
  (image.bytes index, ⟨image.bytes, index :: image.accessed⟩)

def writeRun (image : MemoryImage) : Nat → List Byte → MemoryImage
  | _, [] => image
  | index, value :: rest => (image.write index value).writeRun (index + 1) rest

end MemoryImage

def calloc (size : Nat) (outside : Nat → Byte) : MemoryImage :=
  ⟨fun index => if index < size then 0 else outside index, []⟩

def segmentData (file : List Byte) (header : Elf32_Phdr) : List Byte :=
  (file.drop header.p_offset.toNat).take header.p_filesz.toNat

def readSegments (file : List Byte) (base : Elf32_Word) :
    List Elf32_Phdr → MemoryImage → Except Stop MemoryImage
  | [], image => .ok image
  | header :: rest, image =>
      if header.p_type = PT_LOAD then
        if (segmentData file header).length = header.p_filesz.toNat then
          readSegments file base rest
            (image.writeRun (header.p_vaddr.toNat - base.toNat) (segmentData file header))
        else .error .shortSegment
      else readSegments file base rest image

/-- The loop variable has thirty-two bits, so the loop ends only if the size has too. -/
def pad (maxAddress base : Elf32_Word) (image : MemoryImage) : Except Stop MemoryImage :=
  if memSize maxAddress base < 2 ^ 32 then
    .ok (image.writeRun (maxAddress - base).toNat
      (List.replicate (memSize maxAddress base - (maxAddress - base).toNat) 0xFF))
  else .error .endless

/-- The index of a byte of a block, which is the address of the byte itself. -/
def blockIndex (blockStart : Elf32_Word) (byteOff : Nat) : Nat :=
  (blockStart + BitVec.ofNat 32 byteOff).toNat

/-- Whether the remaining bytes of a block are zero; the scan ends at the first that is not. -/
def scanBlock (blockStart : Elf32_Word) : Nat → Nat → MemoryImage → Bool × MemoryImage
  | 0, _, image => (true, image)
  | remaining + 1, byteOff, image =>
      let (value, image) := image.read (blockIndex blockStart byteOff)
      if value ≠ 0 then (false, image) else scanBlock blockStart remaining (byteOff + 1) image

def printBytes (blockStart : Elf32_Word) : Nat → Nat → MemoryImage → List Byte × MemoryImage
  | 0, _, image => ([], image)
  | remaining + 1, byteOff, image =>
      let (value, image) := image.read (blockIndex blockStart byteOff)
      let (values, image) := printBytes blockStart remaining (byteOff + 1) image
      (value :: values, image)

structure Line where
  address : Elf32_Word
  bytes : List Byte
deriving DecidableEq

def printBlock (blockStart : Elf32_Word) (image : MemoryImage) : List Line × MemoryImage :=
  match scanBlock blockStart 64 0 image with
  | (true, image) => ([], image)
  | (false, image) =>
      let (bytes, image) := printBytes blockStart 64 0 image
      ([⟨blockStart, bytes⟩], image)

/-- The size of a segment rounded to blocks, in thirty-two bits. -/
def elfMemsize (header : Elf32_Phdr) : Elf32_Word := (header.p_memsz + 63) / 64 * 64

def printBlocks (segStart : Elf32_Word) : Nat → Nat → MemoryImage → List Line × MemoryImage
  | 0, _, image => ([], image)
  | remaining + 1, blocks, image =>
      let (line, image) := printBlock (segStart + BitVec.ofNat 32 blocks * 64) image
      let (lines, image) := printBlocks segStart remaining (blocks + 1) image
      (line ++ lines, image)

def printSegments : List Elf32_Phdr → MemoryImage → List Line × MemoryImage
  | [], image => ([], image)
  | header :: rest, image =>
      if header.p_type = PT_LOAD then
        let (lines, image) := printBlocks header.p_vaddr (elfMemsize header / 64).toNat 0 image
        let (more, image) := printSegments rest image
        (lines ++ more, image)
      else printSegments rest image

structure Output where
  lines : List Line
  size : Nat
  image : MemoryImage

/-- The conversion once the headers are read; `allocates` says which sizes `calloc` grants. -/
def convert (allocates : Nat → Bool) (outside : Nat → Byte) (base : Elf32_Word)
    (file : List Byte) (headers : List Elf32_Phdr) : Except Stop Output := do
  let maxAddress ← findMaxAddress base 0 headers 0
  if allocates (memSize maxAddress base) then
    let image ← readSegments file base headers (calloc (memSize maxAddress base) outside)
    let image ← pad maxAddress base image
    let (lines, image) := printSegments headers image
    return ⟨lines, memSize maxAddress base, image⟩
  else throw (.error "not enough memory for program image\n")

def main (allocates : Nat → Bool) (outside : Nat → Byte) (base : Elf32_Word)
    (file : List Byte) : Except Stop Output := do
  convert allocates outside base file (← readHeaders file)

section Runs

variable (image : MemoryImage)

theorem write_run_bytes (index : Nat) (data : List Byte) (cell : Nat) :
    (image.writeRun index data).bytes cell =
      if index ≤ cell ∧ cell < index + data.length then data.getD (cell - index) 0
      else image.bytes cell := by
  induction data generalizing index image with
  | nil => simp [MemoryImage.writeRun]
  | cons value rest induction =>
      rw [MemoryImage.writeRun, induction, MemoryImage.write, List.length_cons]
      by_cases first : cell = index
      · subst first
        simp
      · by_cases later : index + 1 ≤ cell ∧ cell < index + 1 + rest.length
        · obtain ⟨offset, rfl⟩ : ∃ offset, cell = index + 1 + offset :=
            ⟨cell - (index + 1), by omega⟩
          rw [if_pos later, if_pos (by omega)]
          rw [show index + 1 + offset - (index + 1) = offset by omega,
            show index + 1 + offset - index = offset + 1 by omega, List.getD_cons_succ]
        · rw [if_neg later, if_neg (by omega)]
          exact Function.update_of_ne first value image.bytes

theorem write_run_accessed (index : Nat) (data : List Byte) (cell : Nat) :
    cell ∈ (image.writeRun index data).accessed ↔
      (index ≤ cell ∧ cell < index + data.length) ∨ cell ∈ image.accessed := by
  induction data generalizing index image with
  | nil =>
      have empty : ¬ (index ≤ cell ∧ cell < index + 0) := by omega
      rw [MemoryImage.writeRun, List.length_nil, or_iff_right empty]
  | cons value rest induction =>
      have range : index ≤ cell ∧ cell < index + (rest.length + 1) ↔
          (index + 1 ≤ cell ∧ cell < index + 1 + rest.length) ∨ cell = index := by
        omega
      rw [MemoryImage.writeRun, induction, MemoryImage.write, List.length_cons, List.mem_cons, range,
        or_assoc]

end Runs

section Blocks

def blockBytes (bytes : Nat → Byte) (blockStart : Elf32_Word) : List Byte :=
  (List.range 64).map fun byteOff => bytes (blockIndex blockStart byteOff)

/-- The line of a block: none if the block is zero. -/
def blockLines (bytes : Nat → Byte) (blockStart : Elf32_Word) : List Line :=
  if (blockBytes bytes blockStart).all (· = 0) then [] else [⟨blockStart, blockBytes bytes blockStart⟩]

def InBlock (blockStart : Elf32_Word) (index : Nat) : Prop :=
  ∃ byteOff < 64, index = blockIndex blockStart byteOff

variable (blockStart : Elf32_Word) (image : MemoryImage)

theorem scan_bytes (remaining byteOff : Nat) :
    (scanBlock blockStart remaining byteOff image).2.bytes = image.bytes := by
  induction remaining generalizing byteOff image with
  | zero => rfl
  | succ remaining induction =>
      simp only [scanBlock]
      split
      · rfl
      · exact induction (image.read (blockIndex blockStart byteOff)).2 (byteOff + 1)

theorem shift (byteOff ahead : Nat) : byteOff + 1 + ahead = byteOff + (ahead + 1) := by omega

theorem scan_zero_iff (remaining byteOff : Nat) :
    (scanBlock blockStart remaining byteOff image).1 ↔
      ∀ ahead < remaining, image.bytes (blockIndex blockStart (byteOff + ahead)) = 0 := by
  induction remaining generalizing byteOff image with
  | zero => simp [scanBlock]
  | succ remaining induction =>
      simp only [scanBlock]
      rw [Nat.forall_lt_succ_left, Nat.add_zero]
      split
      · rename_i nonzero
        exact iff_of_false Bool.false_ne_true fun zero => nonzero zero.1
      · rename_i zero
        have later := induction (image.read (blockIndex blockStart byteOff)).2 (byteOff + 1)
        simp only [shift] at later
        rw [later]
        exact (and_iff_right (not_not.mp zero)).symm

/-- The scan reads the block from its start up to some byte, and to its end if it is zero. -/
theorem scan_accessed (remaining byteOff : Nat) :
    ∃ count ≤ remaining, ((scanBlock blockStart remaining byteOff image).1 → count = remaining) ∧
      ∀ index, index ∈ (scanBlock blockStart remaining byteOff image).2.accessed ↔
        (∃ ahead < count, index = blockIndex blockStart (byteOff + ahead)) ∨
          index ∈ image.accessed := by
  induction remaining generalizing byteOff image with
  | zero => exact ⟨0, le_rfl, fun _ => rfl, fun index => by simp [scanBlock]⟩
  | succ remaining induction =>
      simp only [scanBlock]
      split
      · refine ⟨1, by omega, ?_, fun index => ?_⟩
        · intro zero
          cases zero
        · simp [MemoryImage.read]
      · obtain ⟨count, bounded, complete, accessed⟩ :=
          induction (image.read (blockIndex blockStart byteOff)).2 (byteOff + 1)
        refine ⟨count + 1, by omega, fun zero => by rw [complete zero], fun index => ?_⟩
        simp only [shift] at accessed
        rw [accessed, Nat.exists_lt_succ_left, Nat.add_zero, MemoryImage.read, List.mem_cons,
          or_assoc, or_left_comm]

theorem print_bytes (remaining byteOff : Nat) :
    (printBytes blockStart remaining byteOff image).2.bytes = image.bytes ∧
      (printBytes blockStart remaining byteOff image).1 =
        ((List.range remaining).map fun ahead =>
          image.bytes (blockIndex blockStart (byteOff + ahead))) ∧
      ∀ index, index ∈ (printBytes blockStart remaining byteOff image).2.accessed ↔
        (∃ ahead < remaining, index = blockIndex blockStart (byteOff + ahead)) ∨
          index ∈ image.accessed := by
  induction remaining generalizing byteOff image with
  | zero => exact ⟨rfl, rfl, fun index => by simp [printBytes]⟩
  | succ remaining induction =>
      obtain ⟨kept, values, accessed⟩ :=
        induction (image.read (blockIndex blockStart byteOff)).2 (byteOff + 1)
      simp only [shift] at values accessed
      refine ⟨kept, ?_, fun index => ?_⟩
      · rw [printBytes, List.range_succ_eq_map, List.map_cons, List.map_map]
        exact congrArg (List.cons _) values
      · rw [printBytes, accessed, Nat.exists_lt_succ_left, Nat.add_zero, MemoryImage.read,
          List.mem_cons, or_assoc, or_left_comm]

theorem block_zero_iff (bytes : Nat → Byte) :
    (blockBytes bytes blockStart).all (· = 0) ↔
      ∀ byteOff < 64, bytes (blockIndex blockStart byteOff) = 0 := by
  simp [blockBytes]

theorem print_block :
    (printBlock blockStart image).1 = blockLines image.bytes blockStart ∧
      (printBlock blockStart image).2.bytes = image.bytes ∧
      ∀ index, index ∈ (printBlock blockStart image).2.accessed ↔
        InBlock blockStart index ∨ index ∈ image.accessed := by
  have zero := scan_zero_iff blockStart image 64 0
  have kept := scan_bytes blockStart image 64 0
  obtain ⟨count, bounded, complete, accessed⟩ := scan_accessed blockStart image 64 0
  simp only [Nat.zero_add] at zero accessed
  rw [← block_zero_iff] at zero
  rw [printBlock]
  rcases scanned : scanBlock blockStart 64 0 image with ⟨skip, after⟩
  rw [scanned] at zero kept complete accessed
  cases skip with
  | true =>
      obtain rfl := complete rfl
      exact ⟨by rw [blockLines, if_pos (zero.mp rfl)], kept, accessed⟩
  | false =>
      obtain ⟨printKept, values, printed⟩ := print_bytes blockStart after 64 0
      simp only [Nat.zero_add] at values printed
      have nonzero : ¬ (blockBytes image.bytes blockStart).all (· = 0) := fun all =>
        Bool.false_ne_true (zero.mpr all)
      refine ⟨?_, ?_, fun index => ?_⟩
      · rw [blockLines, if_neg nonzero, blockBytes, ← kept]
        exact congrArg (fun bytes => [Line.mk blockStart bytes]) values
      · exact printKept.trans kept
      · refine (printed index).trans ?_
        rw [accessed]
        constructor
        · rintro (inside | ⟨ahead, early, same⟩ | before)
          · exact .inl inside
          · exact .inl ⟨ahead, by omega, same⟩
          · exact .inr before
        · rintro (inside | before)
          · exact .inl inside
          · exact .inr (.inr before)

end Blocks

section Segments

theorem print_blocks (segStart : Elf32_Word) (remaining blocks : Nat) (image : MemoryImage) :
    (∀ line, line ∈ (printBlocks segStart remaining blocks image).1 ↔
        ∃ ahead < remaining,
          line ∈ blockLines image.bytes (segStart + BitVec.ofNat 32 (blocks + ahead) * 64)) ∧
      (printBlocks segStart remaining blocks image).2.bytes = image.bytes ∧
      ∀ index, index ∈ (printBlocks segStart remaining blocks image).2.accessed ↔
        (∃ ahead < remaining, InBlock (segStart + BitVec.ofNat 32 (blocks + ahead) * 64) index) ∨
          index ∈ image.accessed := by
  induction remaining generalizing blocks image with
  | zero => exact ⟨fun line => by simp [printBlocks], rfl, fun index => by simp [printBlocks]⟩
  | succ remaining induction =>
      obtain ⟨line, kept, accessed⟩ := print_block (segStart + BitVec.ofNat 32 blocks * 64) image
      obtain ⟨lines, linesKept, linesAccessed⟩ :=
        induction (blocks + 1) (printBlock (segStart + BitVec.ofNat 32 blocks * 64) image).2
      simp only [shift] at lines linesAccessed
      refine ⟨fun other => ?_, linesKept.trans kept, fun index => ?_⟩
      · rw [printBlocks]
        simp only []
        rw [List.mem_append, lines, line, kept, Nat.exists_lt_succ_left, Nat.add_zero]
      · rw [printBlocks]
        simp only []
        rw [linesAccessed, accessed, Nat.exists_lt_succ_left, Nat.add_zero, or_assoc, or_left_comm]

def blockStarts (header : Elf32_Phdr) (start : Elf32_Word) : Prop :=
  ∃ blocks < (elfMemsize header / 64).toNat, start = header.p_vaddr + BitVec.ofNat 32 blocks * 64

theorem exists_block_start (header : Elf32_Phdr) (property : Elf32_Word → Prop) :
    (∃ start, blockStarts header start ∧ property start) ↔
      ∃ blocks < (elfMemsize header / 64).toNat,
        property (header.p_vaddr + BitVec.ofNat 32 blocks * 64) := by
  constructor
  · rintro ⟨_, ⟨blocks, bounded, rfl⟩, holds⟩
    exact ⟨blocks, bounded, holds⟩
  · rintro ⟨blocks, bounded, holds⟩
    exact ⟨_, ⟨blocks, bounded, rfl⟩, holds⟩

theorem print_segments (headers : List Elf32_Phdr) (image : MemoryImage) :
    (∀ line, line ∈ (printSegments headers image).1 ↔
        ∃ header ∈ headers, header.p_type = PT_LOAD ∧
          ∃ start, blockStarts header start ∧ line ∈ blockLines image.bytes start) ∧
      (printSegments headers image).2.bytes = image.bytes ∧
      ∀ index, index ∈ (printSegments headers image).2.accessed ↔
        (∃ header ∈ headers, header.p_type = PT_LOAD ∧
          ∃ start, blockStarts header start ∧ InBlock start index) ∨ index ∈ image.accessed := by
  induction headers generalizing image with
  | nil => exact ⟨fun line => by simp [printSegments], rfl, fun index => by simp [printSegments]⟩
  | cons header rest induction =>
      rw [printSegments]
      split
      · rename_i load
        obtain ⟨lines, kept, accessed⟩ :=
          print_blocks header.p_vaddr (elfMemsize header / 64).toNat 0 image
        obtain ⟨more, moreKept, moreAccessed⟩ := induction
          (printBlocks header.p_vaddr (elfMemsize header / 64).toNat 0 image).2
        simp only [Nat.zero_add] at lines accessed
        refine ⟨fun line => ?_, moreKept.trans kept, fun index => ?_⟩
        · rw [List.mem_append, lines, more, kept]
          simp only [List.exists_mem_cons_iff, load, true_and, exists_block_start]
        · rw [moreAccessed, accessed]
          simp only [List.exists_mem_cons_iff, load, true_and, exists_block_start]
          rw [or_assoc, or_left_comm]
      · rename_i other
        obtain ⟨lines, kept, accessed⟩ := induction image
        refine ⟨fun line => ?_, kept, fun index => ?_⟩
        · rw [lines]
          simp [other]
        · rw [accessed]
          simp [other]

/-- The indices that the segments are read into. -/
def InData (base : Elf32_Word) (header : Elf32_Phdr) (index : Nat) : Prop :=
  header.p_vaddr.toNat - base.toNat ≤ index ∧
    index < header.p_vaddr.toNat - base.toNat + header.p_filesz.toNat

theorem read_segments_accessed {file : List Byte} {base : Elf32_Word} {headers : List Elf32_Phdr}
    {image loaded : MemoryImage} (success : readSegments file base headers image = .ok loaded)
    (index : Nat) : index ∈ loaded.accessed ↔
      (∃ header ∈ headers, header.p_type = PT_LOAD ∧ InData base header index) ∨
        index ∈ image.accessed := by
  induction headers generalizing image with
  | nil =>
      cases success
      simp
  | cons header rest induction =>
      rw [readSegments] at success
      split at success
      · rename_i load
        split at success
        · rename_i whole
          rw [induction success, write_run_accessed, whole]
          simp only [List.exists_mem_cons_iff, load, true_and, InData]
          rw [or_assoc, or_left_comm]
        · cases success
      · rename_i other
        rw [induction success]
        simp [other]

theorem elf_memsize_eq (header : Elf32_Phdr) :
    (elfMemsize header).toNat = (header.p_memsz.toNat + 63) % 2 ^ 32 / 64 * 64 := by
  have sixtyFour : (64 : Elf32_Word).toNat = 64 := rfl
  have sixtyThree : (63 : Elf32_Word).toNat = 63 := rfl
  rw [elfMemsize, BitVec.toNat_mul, BitVec.toNat_udiv, BitVec.toNat_add, sixtyFour, sixtyThree]
  omega

theorem elf_memsize_blocks (header : Elf32_Phdr) :
    (elfMemsize header).toNat = 64 * (elfMemsize header / 64).toNat := by
  have sixtyFour : (64 : Elf32_Word).toNat = 64 := rfl
  rw [BitVec.toNat_udiv, sixtyFour, elf_memsize_eq]
  omega

theorem block_index_eq (vaddr : Elf32_Word) (blocks byteOff : Nat) :
    blockIndex (vaddr + BitVec.ofNat 32 blocks * 64) byteOff =
      (vaddr.toNat + (64 * blocks + byteOff)) % 2 ^ 32 := by
  rw [blockIndex, BitVec.toNat_add, BitVec.toNat_add, BitVec.toNat_mul, BitVec.toNat_ofNat,
    BitVec.toNat_ofNat]
  have sixtyFour : (64 : Elf32_Word).toNat = 64 := rfl
  rw [sixtyFour]
  omega

/-- The blocks of a header are its rounded size from its address on, modulo `2 ^ 32`. -/
theorem in_blocks_iff (header : Elf32_Phdr) (index : Nat) :
    (∃ start, blockStarts header start ∧ InBlock start index) ↔
      ∃ offset < (elfMemsize header).toNat, index = (header.p_vaddr.toNat + offset) % 2 ^ 32 := by
  rw [exists_block_start, elf_memsize_blocks]
  constructor
  · rintro ⟨blocks, bounded, byteOff, inside, rfl⟩
    exact ⟨64 * blocks + byteOff, by omega, block_index_eq _ _ _⟩
  · rintro ⟨offset, bounded, rfl⟩
    refine ⟨offset / 64, by omega, offset % 64, by omega, ?_⟩
    rw [block_index_eq, Nat.div_add_mod]

end Segments

section Accepted

def highestEnd (headers : List Elf32_Phdr) : Nat :=
  ((headers.filter (·.p_type = PT_LOAD)).map fun header =>
    (header.p_vaddr + header.p_memsz).toNat).foldr max 0

def imageSize (base : Elf32_Word) (headers : List Elf32_Phdr) : Nat :=
  memSize (BitVec.ofNat 32 (highestEnd headers)) base

theorem find_max_address {base : Elf32_Word} {segment : Nat} {headers : List Elf32_Phdr}
    {start found : Elf32_Word} (success : findMaxAddress base segment headers start = .ok found) :
    found.toNat = max start.toNat (highestEnd headers) ∧
      ∀ header ∈ headers, header.p_type = PT_LOAD → base.toNat ≤ header.p_vaddr.toNat := by
  induction headers generalizing segment start with
  | nil =>
      cases success
      exact ⟨by simp [highestEnd], by simp⟩
  | cons header rest induction =>
      rw [findMaxAddress] at success
      split at success
      · rename_i load
        split at success
        · cases success
        · rename_i above
          obtain ⟨highest, checked⟩ := induction success
          refine ⟨?_, ?_⟩
          · have ends : highestEnd (header :: rest) =
                max (header.p_vaddr + header.p_memsz).toNat (highestEnd rest) := by
              simp [highestEnd, load]
            rw [highest, ends, ← max_assoc]
            congr 1
            split <;> bv_omega
          · rw [List.forall_mem_cons]
            exact ⟨fun _ => by bv_omega, checked⟩
      · rename_i other
        obtain ⟨highest, checked⟩ := induction success
        refine ⟨?_, ?_⟩
        · rw [highest]
          simp [highestEnd, other]
        · rw [List.forall_mem_cons]
          exact ⟨fun load => absurd load other, checked⟩

/-- The image with everything between the highest end and the end of the buffer set. -/
def padded (base : Elf32_Word) (headers : List Elf32_Phdr) (image : MemoryImage) : MemoryImage :=
  image.writeRun (BitVec.ofNat 32 (highestEnd headers) - base).toNat
    (List.replicate (imageSize base headers -
      (BitVec.ofNat 32 (highestEnd headers) - base).toNat) 0xFF)

structure Converted (outside : Nat → Byte) (base : Elf32_Word) (file : List Byte)
    (headers : List Elf32_Phdr) (loaded : MemoryImage) (output : Output) : Prop where
  segments : readSegments file base headers (calloc (imageSize base headers) outside) = .ok loaded
  bounded : imageSize base headers < 2 ^ 32
  above : ∀ header ∈ headers, header.p_type = PT_LOAD → base.toNat ≤ header.p_vaddr.toNat
  size : output.size = imageSize base headers
  lines : output.lines = (printSegments headers (padded base headers loaded)).1
  image : output.image = (printSegments headers (padded base headers loaded)).2

theorem convert_ok {allocates : Nat → Bool} {outside : Nat → Byte} {base : Elf32_Word}
    {file : List Byte} {headers : List Elf32_Phdr} {output : Output}
    (success : convert allocates outside base file headers = .ok output) :
    ∃ loaded, Converted outside base file headers loaded output := by
  rw [convert] at success
  rcases highest : findMaxAddress base 0 headers 0 with stop | maxAddress
  · rw [highest] at success
    cases success
  · obtain ⟨found, above⟩ := find_max_address highest
    have address : maxAddress = BitVec.ofNat 32 (highestEnd headers) := by
      apply BitVec.eq_of_toNat_eq
      have start : (0 : Elf32_Word).toNat = 0 := rfl
      rw [start, Nat.zero_max] at found
      rw [BitVec.toNat_ofNat, ← found, Nat.mod_eq_of_lt maxAddress.isLt]
    subst address
    rw [highest] at success
    simp only [bind, Except.bind] at success
    split at success
    · rcases segments : readSegments file base headers
          (calloc (memSize (BitVec.ofNat 32 (highestEnd headers)) base) outside) with stop | loaded
      · rw [segments] at success
        cases success
      · simp only [segments, pad] at success
        by_cases bounded : memSize (BitVec.ofNat 32 (highestEnd headers)) base < 2 ^ 32
        · rw [if_pos bounded] at success
          cases success
          exact ⟨loaded, segments, bounded, above, rfl, rfl, rfl⟩
        · rw [if_neg bounded] at success
          cases success
    · cases success

end Accepted

section Accesses

/-- The bytes that a segment has in the file, and its blocks, end inside the buffer. -/
def HeaderFits (size : Nat) (base : Elf32_Word) (header : Elf32_Phdr) : Prop :=
  (header.p_filesz = 0 ∨ header.p_vaddr.toNat - base.toNat + header.p_filesz.toNat ≤ size) ∧
    (elfMemsize header = 0 ∨ header.p_vaddr.toNat + (elfMemsize header).toNat ≤ size)

theorem data_inside_iff (size : Nat) (base : Elf32_Word) (header : Elf32_Phdr) :
    (∀ index, InData base header index → index < size) ↔
      header.p_filesz = 0 ∨ header.p_vaddr.toNat - base.toNat + header.p_filesz.toNat ≤ size := by
  have empty : header.p_filesz = 0 ↔ header.p_filesz.toNat = 0 := by bv_omega
  rw [empty]
  unfold InData
  constructor
  · intro inside
    by_cases nothing : header.p_filesz.toNat = 0
    · exact .inl nothing
    · have last := inside (header.p_vaddr.toNat - base.toNat + header.p_filesz.toNat - 1) (by omega)
      exact .inr (by omega)
  · rintro (nothing | fits) index inside <;> omega

/-- A run of addresses that reaches past the buffer, or wraps around, leaves the buffer. -/
theorem blocks_inside_iff {size : Nat} (bounded : size < 2 ^ 32) (header : Elf32_Phdr) :
    (∀ index, (∃ start, blockStarts header start ∧ InBlock start index) → index < size) ↔
      elfMemsize header = 0 ∨ header.p_vaddr.toNat + (elfMemsize header).toNat ≤ size := by
  have empty : elfMemsize header = 0 ↔ (elfMemsize header).toNat = 0 := by bv_omega
  simp only [in_blocks_iff]
  rw [empty]
  constructor
  · intro inside
    by_cases nothing : (elfMemsize header).toNat = 0
    · exact .inl nothing
    · have address := header.p_vaddr.isLt
      by_cases early : header.p_vaddr.toNat < size
      · by_contra outside
        have reached := inside _ ⟨size - header.p_vaddr.toNat, by omega, rfl⟩
        omega
      · have first := inside _ ⟨0, by omega, rfl⟩
        omega
  · rintro (nothing | fits) index ⟨offset, below, rfl⟩ <;> omega

/-- An accepted file is converted inside the buffer just when every segment fits it. -/
theorem accesses_inside_iff {allocates : Nat → Bool} {outside : Nat → Byte} {base : Elf32_Word}
    {file : List Byte} {headers : List Elf32_Phdr} {output : Output}
    (parsed : readHeaders file = .ok headers)
    (accepted : main allocates outside base file = .ok output) :
    (∀ index ∈ output.image.accessed, index < output.size) ↔
      ∀ header ∈ headers, header.p_type = PT_LOAD →
        HeaderFits (imageSize base headers) base header := by
  rw [main, parsed] at accepted
  obtain ⟨loaded, converted⟩ := convert_ok accepted
  have nothing : (calloc (imageSize base headers) outside).accessed = [] := rfl
  have accessed (index : Nat) : index ∈ output.image.accessed ↔
      (∃ header ∈ headers, header.p_type = PT_LOAD ∧
        ∃ start, blockStarts header start ∧ InBlock start index) ∨
      ((BitVec.ofNat 32 (highestEnd headers) - base).toNat ≤ index ∧
        index < imageSize base headers) ∨
      ∃ header ∈ headers, header.p_type = PT_LOAD ∧ InData base header index := by
    have range (first size : Nat) :
        first ≤ index ∧ index < first + (size - first) ↔ first ≤ index ∧ index < size := by
      omega
    rw [converted.image, (print_segments headers _).2.2, padded, write_run_accessed,
      read_segments_accessed converted.segments, nothing, List.length_replicate, range,
      or_iff_left List.not_mem_nil]
  rw [converted.size]
  simp only [accessed]
  constructor
  · intro inside header member load
    refine ⟨(data_inside_iff _ base header).mp fun index data => ?_,
      (blocks_inside_iff converted.bounded header).mp fun index block => ?_⟩
    · exact inside index (.inr (.inr ⟨header, member, load, data⟩))
    · exact inside index (.inl ⟨header, member, load, block⟩)
  · rintro fits index (⟨header, member, load, block⟩ | ⟨-, pad⟩ | ⟨header, member, load, data⟩)
    · exact (blocks_inside_iff converted.bounded header).mpr (fits header member load).2 index block
    · exact pad
    · exact (data_inside_iff _ base header).mpr (fits header member load).1 index data

end Accesses

def smallFile (vaddr : Byte) : List Byte :=
  ElfMagic ++ List.replicate 14 0 ++ [0x94, 0x26] ++ List.replicate 8 0 ++ [52, 0, 0, 0] ++
    List.replicate 12 0 ++ [1, 0] ++ List.replicate 6 0 ++
    [1, 0, 0, 0, 84, 0, 0, 0, vaddr, 0, 0, 0, vaddr, 0, 0, 0, 4, 0, 0, 0, 4, 0, 0, 0] ++
    List.replicate 8 0 ++ [0x12, 0x34, 0x56, 0x78]

def smallHeader (vaddr : Elf32_Word) : Elf32_Phdr := ⟨1, 84, vaddr, 4, 4⟩

theorem aligned_accesses_inside :
    ∃ output, main (fun _ => true) (fun _ => 0) 0 (smallFile 0) = .ok output ∧
      ∀ index ∈ output.image.accessed, index < output.size := by
  have parsed : readHeaders (smallFile 0) = .ok [smallHeader 0] := by rfl
  have finishes : (main (fun _ => true) (fun _ => 0) 0 (smallFile 0)).isOk = true := by
    decide +kernel
  rcases accepted : main (fun _ => true) (fun _ => 0) 0 (smallFile 0) with stop | output
  · rw [accepted] at finishes
    cases finishes
  · refine ⟨output, rfl, (accesses_inside_iff parsed accepted).mpr ?_⟩
    intro header member load
    obtain rfl := List.mem_singleton.mp member
    exact ⟨.inr (by decide +kernel), .inr (by decide +kernel)⟩

/-- A segment at address 4 has its one block read up to index 67 of a buffer of 64 bytes. -/
theorem unaligned_block_outside :
    ¬ ∀ allocates outside base file output, main allocates outside base file = .ok output →
      ∀ index ∈ output.image.accessed, index < output.size := by
  intro inside
  have outside : ((main (fun _ => true) (fun _ => 0) 0 (smallFile 4)).toOption.map fun output =>
      output.image.accessed.all (· < output.size)) = some false := by
    decide +kernel
  rcases accepted : main (fun _ => true) (fun _ => 0) 0 (smallFile 4) with stop | output
  · rw [accepted] at outside
    cases outside
  · have all := inside _ _ _ _ output accepted
    rw [accepted] at outside
    simp only [Except.toOption, Option.map_some, Option.some.injEq, List.all_eq_false] at outside
    obtain ⟨index, member, above⟩ := outside
    exact above (decide_eq_true (all index member))

end NaplesPU.Elf2Hex
