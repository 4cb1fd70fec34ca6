import Mathlib.Data.List.Pairwise
import NaplesPU.Elf2Hex

/-!
What the lines of a hex file make of a memory. They are read from the image at
the address they print, while the image is filled relative to the base address,
so a segment is printed as the bytes that stand the base address further on.
-/

namespace NaplesPU.HexImage

open ByteMemory Elf2Hex

/-- A zero memory after all lines are written at their addresses. -/
def replay (lines : List Line) : Memory 32 :=
  storeRuns (fun _ => 0) (lines.map fun line => (line.address, line.bytes))

/-- The byte that the file specifies at a distance from the start of a segment. -/
def specified (file : List Byte) (header : Elf32_Phdr) (offset : Nat) : Byte :=
  if offset < header.p_filesz.toNat then file.getD (header.p_offset.toNat + offset) 0 else 0

def InSegment (header : Elf32_Phdr) (address : Nat) : Prop :=
  header.p_vaddr.toNat ≤ address ∧ address < header.p_vaddr.toNat + header.p_memsz.toNat

def loads (headers : List Elf32_Phdr) : List Elf32_Phdr := headers.filter (·.p_type = PT_LOAD)

/-- Loaded segments that share no address, hold their bytes of the file and end in the
address space. -/
structure SegmentsApart (headers : List Elf32_Phdr) : Prop where
  apart : (loads headers).Pairwise fun first second =>
    ∀ address, InSegment first address → ¬ InSegment second address
  inFile : ∀ header ∈ loads headers, header.p_filesz.toNat ≤ header.p_memsz.toNat
  ends : ∀ header ∈ loads headers, header.p_vaddr.toNat + header.p_memsz.toNat < 2 ^ 32

/-- Every address of a loaded segment holds the byte the file specifies. -/
def Preserves (file : List Byte) (headers : List Elf32_Phdr) (lines : List Line) : Prop :=
  ∀ header ∈ loads headers, ∀ offset < header.p_memsz.toNat,
    replay lines (header.p_vaddr + BitVec.ofNat 32 offset) = specified file header offset

section Image

variable (outside : Nat → Byte) (base : Elf32_Word) (file : List Byte)

instance (header : Elf32_Phdr) (index : Nat) : Decidable (InData base header index) :=
  inferInstanceAs (Decidable (_ ∧ _))

/-- The byte at an index of the buffer, or behind it: padding, a byte of the file, or what
the allocation left there. -/
def imageByte (headers : List Elf32_Phdr) (index : Nat) : Byte :=
  if (BitVec.ofNat 32 (highestEnd headers) - base).toNat ≤ index ∧ index < imageSize base headers then
    0xFF
  else
    match (loads headers).find? fun header => InData base header index with
    | some header =>
        file.getD (header.p_offset.toNat + (index - (header.p_vaddr.toNat - base.toNat))) 0
    | none => if index < imageSize base headers then 0 else outside index

variable {outside base file}

/-- The bytes of a run of segments of which no two share an index. -/
theorem read_segments_bytes {headers : List Elf32_Phdr} {image loaded : MemoryImage}
    (apart : (loads headers).Pairwise fun first second =>
      ∀ index, InData base first index → ¬ InData base second index)
    (success : readSegments file base headers image = .ok loaded) (index : Nat) :
    loaded.bytes index =
      match (loads headers).find? fun header => InData base header index with
      | some header =>
          (segmentData file header).getD (index - (header.p_vaddr.toNat - base.toNat)) 0
      | none => image.bytes index := by
  induction headers generalizing image with
  | nil =>
      cases success
      rfl
  | cons header rest induction =>
      rw [readSegments] at success
      split at success
      · rename_i load
        have split : loads (header :: rest) = header :: loads rest := by
          simp [loads, load]
        rw [split, List.pairwise_cons] at apart
        split at success
        · rename_i whole
          rw [induction apart.2 success, split]
          by_cases inside : InData base header index
          · have others : (loads rest).find? (fun header => InData base header index) = none := by
              rw [List.find?_eq_none]
              intro other member
              simpa using apart.1 other member index inside
            rw [others, List.find?_cons_of_pos (by simpa using inside)]
            simp only [write_run_bytes]
            rw [whole]
            exact if_pos inside
          · rw [List.find?_cons_of_neg (by simpa using inside)]
            split
            · rfl
            · rw [write_run_bytes, whole]
              exact if_neg inside
        · cases success
      · rename_i other
        have same : loads (header :: rest) = loads rest := by
          simp [loads, other]
        rw [same] at apart ⊢
        exact induction apart success

theorem segment_data_get {header : Elf32_Phdr} {offset : Nat}
    (inside : offset < header.p_filesz.toNat) :
    (segmentData file header).getD offset 0 = file.getD (header.p_offset.toNat + offset) 0 := by
  rw [segmentData, List.getD_eq_getElem?_getD, List.getD_eq_getElem?_getD, List.getElem?_take,
    if_pos inside, List.getElem?_drop]

theorem padded_bytes {headers : List Elf32_Phdr} {loaded : MemoryImage} {output : Output}
    (apart : (loads headers).Pairwise fun first second =>
      ∀ index, InData base first index → ¬ InData base second index)
    (converted : Converted outside base file headers loaded output) (index : Nat) :
    (padded base headers loaded).bytes index = imageByte outside base file headers index := by
  have pad : (BitVec.ofNat 32 (highestEnd headers) - base).toNat ≤ index ∧
      index < (BitVec.ofNat 32 (highestEnd headers) - base).toNat +
        (imageSize base headers - (BitVec.ofNat 32 (highestEnd headers) - base).toNat) ↔
      (BitVec.ofNat 32 (highestEnd headers) - base).toNat ≤ index ∧
        index < imageSize base headers := by
    omega
  rw [padded, write_run_bytes, List.length_replicate, imageByte]
  simp only [pad]
  by_cases behind : (BitVec.ofNat 32 (highestEnd headers) - base).toNat ≤ index ∧
      index < imageSize base headers
  · rw [if_pos behind, if_pos behind]
    exact List.getD_replicate _ (by omega)
  · rw [if_neg behind, if_neg behind, read_segments_bytes apart converted.segments]
    split
    · rename_i header found
      have inside : InData base header index := by
        simpa using List.find?_some found
      unfold InData at inside
      exact segment_data_get (by omega)
    · rfl

end Image

section Replayed

variable {outside : Nat → Byte} {base : Elf32_Word} {file : List Byte}
  {headers : List Elf32_Phdr} {loaded : MemoryImage} {output : Output}

theorem mem_loads {header : Elf32_Phdr} (member : header ∈ loads headers) :
    header ∈ headers ∧ header.p_type = PT_LOAD := by
  simpa [loads] using member

theorem in_segment_of_data {header : Elf32_Phdr} {index : Nat}
    (above : base.toNat ≤ header.p_vaddr.toNat)
    (inFile : header.p_filesz.toNat ≤ header.p_memsz.toNat) (inside : InData base header index) :
    InSegment header (base.toNat + index) := by
  unfold InData at inside
  unfold InSegment
  omega

theorem data_apart (segments : SegmentsApart headers)
    (converted : Converted outside base file headers loaded output) :
    (loads headers).Pairwise fun first second =>
      ∀ index, InData base first index → ¬ InData base second index := by
  refine segments.apart.imp_of_mem fun firstMember secondMember apart index first second => ?_
  obtain ⟨member, load⟩ := mem_loads firstMember
  obtain ⟨otherMember, otherLoad⟩ := mem_loads secondMember
  exact apart (base.toNat + index)
    (in_segment_of_data (converted.above _ member load) (segments.inFile _ firstMember) first)
    (in_segment_of_data (converted.above _ otherMember otherLoad) (segments.inFile _ secondMember)
      second)

theorem segment_unique (segments : SegmentsApart headers) {header other : Elf32_Phdr}
    (member : header ∈ loads headers) (otherMember : other ∈ loads headers) {address : Nat}
    (inside : InSegment header address) (otherInside : InSegment other address) :
    header = other := by
  have symmetric : Std.Symm fun first second : Elf32_Phdr =>
      ∀ address, InSegment first address → ¬ InSegment second address :=
    ⟨fun _ _ apart address second first => apart address first second⟩
  by_contra different
  exact segments.apart.forall member otherMember different address inside otherInside

theorem end_le_highest (segments : SegmentsApart headers) {header : Elf32_Phdr}
    (member : header ∈ loads headers) :
    header.p_vaddr.toNat + header.p_memsz.toNat ≤ highestEnd headers := by
  have ends := segments.ends header member
  have exact : (header.p_vaddr + header.p_memsz).toNat =
      header.p_vaddr.toNat + header.p_memsz.toNat := by
    rw [BitVec.toNat_add, Nat.mod_eq_of_lt ends]
  rw [← exact]
  unfold loads at member
  unfold highestEnd
  generalize headers.filter (·.p_type = PT_LOAD) = segments at member ⊢
  induction segments with
  | nil => simp at member
  | cons first rest induction =>
      rw [List.map_cons, List.foldr_cons]
      rcases List.mem_cons.mp member with rfl | later
      · exact le_max_left _ _
      · exact (induction later).trans (le_max_right _ _)

theorem highest_end_lt (headers : List Elf32_Phdr) : highestEnd headers < 2 ^ 32 := by
  unfold highestEnd
  induction headers.filter (·.p_type = PT_LOAD) with
  | nil => simp
  | cons first rest induction =>
      rw [List.map_cons, List.foldr_cons]
      exact max_lt (BitVec.isLt _) induction

theorem padding_start (above : base.toNat ≤ highestEnd headers) :
    (BitVec.ofNat 32 (highestEnd headers) - base).toNat = highestEnd headers - base.toNat := by
  have bounded := highest_end_lt headers
  rw [BitVec.toNat_sub_of_le, BitVec.toNat_ofNat, Nat.mod_eq_of_lt bounded]
  rw [BitVec.le_def, BitVec.toNat_ofNat, Nat.mod_eq_of_lt bounded]
  exact above

theorem image_size_eq (above : base.toNat ≤ highestEnd headers) :
    imageSize base headers = (highestEnd headers - base.toNat + 63) / 64 * 64 := by
  rw [imageSize, memSize, padding_start above]
  rfl

/-- The image holds the specified bytes relative to the base address. -/
theorem image_specified (segments : SegmentsApart headers)
    (converted : Converted outside base file headers loaded output) {header : Elf32_Phdr}
    (member : header ∈ loads headers) {offset : Nat} (inside : offset < header.p_memsz.toNat) :
    imageByte outside base file headers (header.p_vaddr.toNat + offset - base.toNat) =
      specified file header offset := by
  obtain ⟨memberAll, load⟩ := mem_loads member
  have above := converted.above header memberAll load
  have highest := end_le_highest segments member
  have below : base.toNat ≤ highestEnd headers := by omega
  have start := padding_start below
  have size := image_size_eq below
  have before : ¬ ((BitVec.ofNat 32 (highestEnd headers) - base).toNat ≤
        header.p_vaddr.toNat + offset - base.toNat ∧
      header.p_vaddr.toNat + offset - base.toNat < imageSize base headers) := by
    omega
  have owner {other : Elf32_Phdr} (otherMember : other ∈ loads headers)
      (data : InData base other (header.p_vaddr.toNat + offset - base.toNat)) : header = other := by
    obtain ⟨otherAll, otherLoad⟩ := mem_loads otherMember
    have address := in_segment_of_data (converted.above _ otherAll otherLoad)
      (segments.inFile _ otherMember) data
    rw [Nat.add_sub_of_le (by omega)] at address
    exact segment_unique segments member otherMember ⟨by omega, by omega⟩ address
  rw [imageByte, if_neg before, specified]
  split
  · rename_i other found
    have data : InData base other (header.p_vaddr.toNat + offset - base.toNat) := by
      simpa using List.find?_some found
    obtain rfl := owner (List.mem_of_find?_eq_some found) data
    unfold InData at data
    rw [if_pos (by omega)]
    congr 2
    omega
  · rename_i nothing
    have behind : ¬ offset < header.p_filesz.toNat := by
      intro early
      refine absurd ?_ (List.find?_eq_none.mp nothing header member)
      refine decide_eq_true ?_
      unfold InData
      omega
    rw [if_neg behind, if_pos (by omega)]

theorem mem_block_lines {bytes : Nat → Byte} {start : Elf32_Word} {line : Line}
    (member : line ∈ blockLines bytes start) : line = ⟨start, blockBytes bytes start⟩ := by
  rw [blockLines] at member
  split at member
  · cases member
  · exact List.mem_singleton.mp member

theorem block_copy (bytes : Nat → Byte) (start : Elf32_Word) :
    CopyOf (fun cell : BitVec 32 => bytes cell.toNat) (start, blockBytes bytes start) := by
  intro offset inside
  simp only [blockBytes, List.getElem_map, List.getElem_range]
  rfl

theorem length_block (bytes : Nat → Byte) (start : Elf32_Word) :
    (blockBytes bytes start).length = 64 := by
  rw [blockBytes, List.length_map, List.length_range]

/-- On a segment, the lines give the byte of the image at the address itself. -/
theorem replay_segment (segments : SegmentsApart headers)
    (converted : Converted outside base file headers loaded output) {header : Elf32_Phdr}
    (member : header ∈ loads headers) {offset : Nat} (inside : offset < header.p_memsz.toNat) :
    replay output.lines (header.p_vaddr + BitVec.ofNat 32 offset) =
      (padded base headers loaded).bytes (header.p_vaddr.toNat + offset) := by
  obtain ⟨memberAll, load⟩ := mem_loads member
  have above := converted.above header memberAll load
  have highest := end_le_highest segments member
  have ends := segments.ends header member
  have bounded := converted.bounded
  rw [image_size_eq (by omega)] at bounded
  have lines := (print_segments headers (padded base headers loaded)).1
  rw [← converted.lines] at lines
  generalize cellEq : header.p_vaddr + BitVec.ofNat 32 offset = cell
  have address : cell.toNat = header.p_vaddr.toNat + offset := by
    rw [← cellEq, BitVec.toNat_add, BitVec.toNat_ofNat]
    omega
  rw [← address, replay]
  have copies : ∀ run ∈ output.lines.map fun line => (line.address, line.bytes),
      CopyOf (fun cell : BitVec 32 => (padded base headers loaded).bytes cell.toNat) run := by
    intro run runMember
    obtain ⟨line, lineMember, rfl⟩ := List.mem_map.mp runMember
    obtain ⟨other, _, _, start, _, block⟩ := (lines line).mp lineMember
    rw [mem_block_lines block]
    exact block_copy _ start
  by_cases covered : ∃ run ∈ output.lines.map fun line => (line.address, line.bytes),
      offsetFrom run.1 cell < run.2.length
  · exact store_runs_covered copies covered
  · have blocks : offset / 64 < (elfMemsize header / 64).toNat := by
      have size := elf_memsize_eq header
      have whole := elf_memsize_blocks header
      omega
    have zero : ∀ byteOff < 64, (padded base headers loaded).bytes
        (blockIndex (header.p_vaddr + BitVec.ofNat 32 (offset / 64) * 64) byteOff) = 0 := by
      rw [← block_zero_iff]
      by_contra nonzero
      have printed := (lines _).mpr ⟨header, memberAll, load, _, ⟨offset / 64, blocks, rfl⟩, by
        rw [blockLines, if_neg nonzero]
        exact List.mem_singleton_self _⟩
      refine covered ⟨_, List.mem_map_of_mem printed, ?_⟩
      simp only [length_block]
      rw [offsetFrom, ← cellEq]
      bv_omega
    have uncovered : ∀ run ∈ output.lines.map fun line => (line.address, line.bytes),
        run.2.length ≤ offsetFrom run.1 cell := by
      intro run runMember
      exact not_lt.mp fun within => covered ⟨run, runMember, within⟩
    rw [store_runs_uncovered uncovered]
    have byte := zero (offset % 64) (by omega)
    rw [block_index_eq, Nat.div_add_mod, Nat.mod_eq_of_lt (by omega), ← address] at byte
    exact byte.symm

/-- Relative to the address zero, the lines describe the segments. -/
theorem preserves_at_zero {allocates : Nat → Bool} (parsed : readHeaders file = .ok headers)
    (segments : SegmentsApart headers)
    (accepted : main allocates outside 0 file = .ok output) :
    Preserves file headers output.lines := by
  rw [main, parsed] at accepted
  obtain ⟨loaded, converted⟩ := convert_ok accepted
  intro header member offset inside
  rw [replay_segment segments converted member inside,
    padded_bytes (data_apart segments converted) converted,
    ← image_specified segments converted member inside]
  rfl

/-- The segments are read from the file, whatever the image is. -/
theorem read_segments_any {image loaded : MemoryImage}
    (success : readSegments file base headers image = .ok loaded) (other : MemoryImage) :
    ∃ result, readSegments file base headers other = .ok result := by
  induction headers generalizing image other with
  | nil => exact ⟨other, rfl⟩
  | cons header rest induction =>
      rw [readSegments] at success ⊢
      split at success
      · rename_i load
        rw [if_pos load]
        split at success
        · rename_i whole
          rw [if_pos whole]
          exact induction success _
        · cases success
      · rename_i skipped
        rw [if_neg skipped]
        exact induction success other

/-- A file is accepted, whatever lies behind the buffer. -/
theorem accepted_any {allocates : Nat → Bool}
    (accepted : main allocates outside base file = .ok output) (other : Nat → Byte) :
    ∃ result, main allocates other base file = .ok result := by
  rw [main] at accepted ⊢
  rcases parsed : readHeaders file with stop | headers
  · rw [parsed] at accepted
    cases accepted
  · rw [parsed] at accepted
    simp only [bind, Except.bind, convert] at accepted ⊢
    split at accepted
    · cases accepted
    · rename_i maxAddress highest
      split at accepted
      · rename_i granted
        rw [if_pos granted]
        split at accepted
        · cases accepted
        · rename_i image success
          obtain ⟨read, same⟩ :=
            read_segments_any success (calloc (memSize maxAddress base) other)
          rw [same]
          simp only [pad] at accepted ⊢
          by_cases bounded : memSize maxAddress base < 2 ^ 32
          · simp only [if_pos bounded]
            exact ⟨_, rfl⟩
          · rw [if_neg bounded] at accepted
            cases accepted
      · cases accepted

/-- The header of the segment whose last byte has the highest address of all. -/
structure HoldsLast (headers : List Elf32_Phdr) (header : Elf32_Phdr) : Prop where
  member : header ∈ loads headers
  nonempty : 0 < header.p_memsz.toNat
  highest : ∀ other ∈ loads headers, 0 < other.p_memsz.toNat →
    other.p_vaddr.toNat + other.p_memsz.toNat ≤ header.p_vaddr.toNat + header.p_memsz.toNat

/-- With another base address the last byte is printed as padding, as a byte that no segment
has, or as one from behind the buffer. -/
theorem last_byte (segments : SegmentsApart headers)
    (converted : Converted outside base file headers loaded output) {header : Elf32_Phdr}
    (last : HoldsLast headers header) (relative : base ≠ 0) :
    imageByte outside base file headers (header.p_vaddr.toNat + (header.p_memsz.toNat - 1)) = 0xFF ∨
    imageByte outside base file headers (header.p_vaddr.toNat + (header.p_memsz.toNat - 1)) = 0 ∨
    imageByte outside base file headers (header.p_vaddr.toNat + (header.p_memsz.toNat - 1)) =
      outside (header.p_vaddr.toNat + (header.p_memsz.toNat - 1)) := by
  have distance : 0 < base.toNat := by bv_omega
  have nonempty := last.nonempty
  rw [imageByte]
  split
  · exact .inl rfl
  · split
    · -- no segment reaches as far behind its start
      rename_i other found
      have otherMember := List.mem_of_find?_eq_some found
      obtain ⟨otherAll, otherLoad⟩ := mem_loads otherMember
      have data : InData base other (header.p_vaddr.toNat + (header.p_memsz.toNat - 1)) := by
        simpa using List.find?_some found
      have inside := in_segment_of_data (converted.above _ otherAll otherLoad)
        (segments.inFile _ otherMember) data
      unfold InSegment at inside
      have below := last.highest other otherMember (by omega)
      omega
    · split
      · exact .inr (.inl rfl)
      · exact .inr (.inr rfl)

/-- Relative to the address zero, or without a byte to load, the lines describe the segments. In
every other case they miss the last byte of the segments, for some content of the memory behind
the buffer, unless it happens to be that of the padding or zero. -/
theorem preserves_image_iff {allocates : Nat → Bool} (parsed : readHeaders file = .ok headers)
    (segments : SegmentsApart headers)
    (accepted : main allocates outside base file = .ok output) :
    (base = 0 ∨ (∀ header ∈ loads headers, header.p_memsz = 0) →
      Preserves file headers output.lines) ∧
    ∀ header, HoldsLast headers header →
      specified file header (header.p_memsz.toNat - 1) ≠ 0xFF →
      specified file header (header.p_memsz.toNat - 1) ≠ 0 →
        ((∀ other result, main allocates other base file = .ok result →
          Preserves file headers result.lines) ↔ base = 0) := by
  refine ⟨?_, ?_⟩
  · rintro (rfl | empty)
    · exact preserves_at_zero parsed segments accepted
    · intro header member offset inside
      rw [empty header member] at inside
      exact absurd inside (Nat.not_lt_zero offset)
  · intro header last notPadding notZero
    constructor
    · intro preserves
      by_contra relative
      obtain ⟨result, again⟩ := accepted_any accepted
        fun _ => specified file header (header.p_memsz.toNat - 1) + 1
      have preserved := preserves _ result again header last.member
        (header.p_memsz.toNat - 1) (Nat.sub_lt last.nonempty Nat.one_pos)
      rw [main, parsed] at again
      obtain ⟨loaded, converted⟩ := convert_ok again
      rw [replay_segment segments converted last.member (Nat.sub_lt last.nonempty Nat.one_pos),
        padded_bytes (data_apart segments converted) converted] at preserved
      rcases last_byte segments converted last relative with padding | zero | behind
      · exact notPadding (preserved.symm.trans padding)
      · exact notZero (preserved.symm.trans zero)
      · have same := preserved.symm.trans behind
        revert same
        generalize specified file header (header.p_memsz.toNat - 1) = value
        intro same
        bv_omega
    · rintro rfl other result again
      exact preserves_at_zero parsed segments again

end Replayed

theorem small_segments_apart {vaddr : Elf32_Word} (early : vaddr.toNat < 2 ^ 32 - 4) :
    SegmentsApart [smallHeader vaddr] where
  apart := by simp [loads, smallHeader, PT_LOAD]
  inFile := by
    intro header member
    obtain rfl := List.mem_singleton.mp (mem_loads member).1
    exact le_rfl
  ends := by
    intro header member
    obtain rfl := List.mem_singleton.mp (mem_loads member).1
    have size : (smallHeader vaddr).p_memsz.toNat = 4 := rfl
    have address : (smallHeader vaddr).p_vaddr = vaddr := rfl
    rw [size, address]
    omega

theorem image_preserved_at_zero :
    ∃ output, main (fun _ => true) (fun _ => 0) 0 (smallFile 0) = .ok output ∧
      Preserves (smallFile 0) [smallHeader 0] output.lines := by
  have parsed : readHeaders (smallFile 0) = .ok [smallHeader 0] := by rfl
  have finishes : (main (fun _ => true) (fun _ => 0) 0 (smallFile 0)).isOk = true := by
    decide +kernel
  rcases accepted : main (fun _ => true) (fun _ => 0) 0 (smallFile 0) with stop | output
  · rw [accepted] at finishes
    cases finishes
  · exact ⟨output, rfl, (preserves_image_iff parsed (small_segments_apart (by decide))
      accepted).1 (.inl rfl)⟩

/-- With base address 4 the segment at address 4 is printed as the padding behind it. -/
theorem image_lost_at_base :
    ¬ ∀ allocates outside base file headers output, readHeaders file = .ok headers →
      SegmentsApart headers → main allocates outside base file = .ok output →
        Preserves file headers output.lines := by
  intro preserves
  have parsed : readHeaders (smallFile 4) = .ok [smallHeader 4] := by rfl
  have printed : ((main (fun _ => true) (fun _ => 0) 4 (smallFile 4)).toOption.map
      (·.lines)) = some [⟨4, List.replicate 60 0xFF ++ List.replicate 4 0⟩] := by
    decide +kernel
  rcases accepted : main (fun _ => true) (fun _ => 0) 4 (smallFile 4) with stop | output
  · rw [accepted] at printed
    cases printed
  · have preserved := preserves _ _ _ _ _ output parsed (small_segments_apart (by decide)) accepted
      (smallHeader 4) (by simp [loads, smallHeader, PT_LOAD]) 0 (by decide)
    rw [accepted] at printed
    have lines : output.lines = [⟨4, List.replicate 60 0xFF ++ List.replicate 4 0⟩] := by
      simpa [Except.toOption] using printed
    rw [lines] at preserved
    revert preserved
    decide +kernel

end NaplesPU.HexImage
