import NaplesPU.HexImage
import NaplesPU.RoutineImages

/-!
The way of a routine to the memory of a simulator: the words of the routine are part of a segment
of an executable, the converter prints the segments as lines, and the lines fill the memory that a
thread fetches from.
-/

namespace NaplesPU.HexProgram

open ByteMemory StepRuns TwosComplement CodeLayout
open RegisterInfo InstrInfo FixupKinds MCCodeEmitter BranchTargets Machine RoutineImages
open Elf2Hex HexImage

/-- The executable has the bytes for the address: they are those of the file at the distance from
the start of a segment that the address has. -/
def InExecutable (file : List Byte) (headers : List Elf32_Phdr) (base : Word)
    (bytes : List Byte) : Prop :=
  ∃ header ∈ loads headers, ∃ start, base = header.p_vaddr + BitVec.ofNat 32 start ∧
    start + bytes.length ≤ header.p_filesz.toNat ∧
    ∀ offset < bytes.length,
      file.getD (header.p_offset.toNat + (start + offset)) 0 = bytes.getD offset 0

section Loading

variable {allocates : Nat → Bool} {outside : Nat → Byte} {file : List Byte}
  {headers : List Elf32_Phdr} {output : Output}

theorem byte_replayed (parsed : readHeaders file = .ok headers) (segments : SegmentsApart headers)
    (accepted : main allocates outside 0 file = .ok output) {header : Elf32_Phdr}
    (member : header ∈ loads headers) {offset : Nat} (inFile : offset < header.p_filesz.toNat) :
    replay output.lines (header.p_vaddr + BitVec.ofNat 32 offset) =
      file.getD (header.p_offset.toNat + offset) 0 := by
  have inside : offset < header.p_memsz.toNat :=
    lt_of_lt_of_le inFile (segments.inFile header member)
  rw [preserves_at_zero parsed segments accepted header member offset inside, specified,
    if_pos inFile]

theorem bytes_replayed (parsed : readHeaders file = .ok headers)
    (segments : SegmentsApart headers) (accepted : main allocates outside 0 file = .ok output)
    {base : Word} {bytes : List Byte}
    (contained : InExecutable file headers base bytes) : Holds base bytes (replay output.lines) := by
  obtain ⟨header, member, start, rfl, room, same⟩ := contained
  apply List.ext_getElem (load_length _ _ _)
  intro offset inLoad inBytes
  have replayed := byte_replayed parsed segments accepted member
    (show start + offset < header.p_filesz.toNat by omega)
  rw [load_get, BitVec.add_assoc, ← BitVec.ofNat_add, replayed, same offset inBytes,
    List.getD_eq_getElem _ _ inBytes]

theorem holds_of_same {base : Word} {bytes : List Byte} {memory later : Memory 32}
    (holds : Holds base bytes memory)
    (same : ∀ offset < bytes.length,
      later (base + BitVec.ofNat 32 offset) = memory (base + BitVec.ofNat 32 offset)) :
    Holds base bytes later := by
  unfold Holds at holds ⊢
  rw [← holds, load_length]
  apply List.map_congr_left
  intro offset member
  exact same offset (List.mem_range.mp member)

/-- An executable at its own addresses that contains the words of a routine, resolved by whichever
tool, is executed from the memory that its lines fill as the routine: step by step while the words
are left alone, and back to the caller at its return. -/
theorem routine_from_hex (parsed : readHeaders file = .ok headers)
    (segments : SegmentsApart headers) (accepted : main allocates outside 0 file = .ok output)
    {base : Word} {resolvers : Nat → Resolver} {program : Program} (routine : Routine program)
    {bytes : List Byte} (assembled : image base resolvers program = some bytes)
    (contained : InExecutable file headers base bytes) (registers : Registers) {count : Nat}
    {final : Thread × Memory 32}
    (run : iterate (stepLabelled program) count (⟨0, 0, registers⟩, replay output.lines) =
      some final)
    (untouched : ∀ index ≤ count, ∀ reached,
      iterate (stepLabelled program) index (⟨0, 0, registers⟩, replay output.lines) =
        some reached → ∀ offset < bytes.length,
          reached.2 (base + BitVec.ofNat 32 offset) =
            replay output.lines (base + BitVec.ofNat 32 offset)) :
    iterate stepHart count (⟨base, registers⟩, replay output.lines) =
        some (fetching base program final) ∧
      ∀ code, program[final.1.block]? = some code → code[final.1.index]? = some ⟨.JRET, []⟩ →
        iterate stepHart (count + 1) (⟨base, registers⟩, replay output.lines) =
          some (⟨final.1.registers.gpr RA_REG.encoding, final.1.registers⟩, final.2) := by
  have loaded := bytes_replayed parsed segments accepted contained
  have holds (index : Nat) (within : index ≤ count) (reached : Thread × Memory 32)
      (part : iterate (stepLabelled program) index (⟨0, 0, registers⟩, replay output.lines) =
        some reached) : Holds base bytes reached.2 :=
    holds_of_same loaded (untouched index within reached part)
  have started : fetching base program (⟨0, 0, registers⟩, replay output.lines) =
      (⟨base, registers⟩, replay output.lines) := by
    simp [fetching, hartOf, position]
  have along := hart_run routine assembled run fun index below =>
    holds index (Nat.le_of_lt below)
  rw [started] at along
  refine ⟨along, fun code laidOut here => ?_⟩
  have returns := hart_return routine assembled (holds count le_rfl final run) laidOut here
  exact iterate_trans along ((iterate_one _).trans returns)

end Loading

def countdownWords : List Byte :=
  [0x08, 0x20, 0x08, 0x45, 0xfc, 0xff, 0x0b, 0x76, 0x00, 0x00, 0x00, 0x73]

/-- An executable with one segment at `0x40`. -/
def countdownFile : List Byte :=
  ElfMagic ++ List.replicate 14 0 ++ [0x94, 0x26] ++ List.replicate 8 0 ++ [52, 0, 0, 0] ++
    List.replicate 12 0 ++ [1, 0] ++ List.replicate 6 0 ++
    [1, 0, 0, 0, 84, 0, 0, 0, 0x40, 0, 0, 0, 0x40, 0, 0, 0, 12, 0, 0, 0, 12, 0, 0, 0] ++
    List.replicate 8 0 ++ countdownWords

def countdownHeader : Elf32_Phdr := ⟨1, 84, 0x40, 12, 12⟩

theorem countdown_member : countdownHeader ∈ loads [countdownHeader] :=
  List.mem_filter.mpr ⟨List.mem_singleton_self _, rfl⟩

theorem countdown_segments : SegmentsApart [countdownHeader] where
  apart := List.pairwise_singleton _ _
  inFile := by
    intro header member
    obtain rfl := List.mem_singleton.mp (mem_loads member).1
    exact le_rfl
  ends := by
    intro header member
    obtain rfl := List.mem_singleton.mp (mem_loads member).1
    decide

theorem countdown_contained :
    InExecutable countdownFile [countdownHeader] 0x40 countdownWords :=
  ⟨countdownHeader, countdown_member, 0, rfl, by decide, by decide⟩

def countdownLoop : List MCInst :=
  [Memcpy.arithi .SUB 2 2 1, (OffsetBranch.BNEZ 2).inst (.expr ⟨0, 0⟩)]

theorem countdown_step {index : Nat} {inst : MCInst} (here : countdownLoop[index]? = some inst)
    {registers : Registers} {memory : Memory 32} {effect : Effect}
    (executed : Memcpy.execRoutine inst registers memory = some effect) :
    stepLabelled countdown (⟨0, index, registers⟩, memory) =
      some (advance countdownLoop ⟨0, index, registers⟩ effect, effect.memory) := by
  have laidOut : countdown[0]? = some countdownLoop := rfl
  rw [stepLabelled, laidOut, Option.bind_some, here, Option.bind_some, executed, Option.map_some]

theorem countdown_subtracts (registers : Registers) (memory : Memory 32) :
    stepLabelled countdown (⟨0, 0, registers⟩, memory) =
      some (⟨0, 1, registers.setGpr 2 (registers.gpr 2 - 1)⟩, memory) :=
  countdown_step rfl (Memcpy.exec_routine_of_exec
    (exec_arith_imm registers memory (show alu .SUB = some fun left right => left - right from rfl)
      2 2 (show SignedFits 9 1 by decide)))

theorem countdown_leaves {registers : Registers} (zero : registers.gpr 2 = 0)
    (memory : Memory 32) :
    stepLabelled countdown (⟨0, 1, registers⟩, memory) = some (⟨1, 0, registers⟩, memory) := by
  have executed := Memcpy.exec_routine_of_exec
    (exec_branch_nonzero registers memory (.reg (sReg 2)) 0)
  have tested : testedRegister (.reg (sReg 2)) = 2 := rfl
  rw [tested, if_neg (not_not.mpr zero)] at executed
  exact countdown_step rfl executed

def countdownRegisters : Registers := ⟨Function.update (fun _ => 0x100) 2 1, fun _ => 0⟩

theorem countdown_from_hex :
    ∃ output, main (fun _ => true) (fun _ => 0) 0 countdownFile = .ok output ∧
      iterate stepHart 3 (⟨0x40, countdownRegisters⟩, replay output.lines) =
        some (⟨0x100, countdownRegisters.setGpr 2 0⟩, replay output.lines) := by
  have parsed : readHeaders countdownFile = .ok [countdownHeader] := by rfl
  have finishes : (main (fun _ => true) (fun _ => 0) 0 countdownFile).isOk = true := by
    decide +kernel
  rcases accepted : main (fun _ => true) (fun _ => 0) 0 countdownFile with stop | output
  · rw [accepted] at finishes
    cases finishes
  · have assembled : image 0x40 (fun _ => .linker) countdown = some countdownWords := by rfl
    have first := countdown_subtracts countdownRegisters (replay output.lines)
    have second := @countdown_leaves (countdownRegisters.setGpr 2 0) rfl (replay output.lines)
    have run : iterate (stepLabelled countdown) 2
        (⟨0, 0, countdownRegisters⟩, replay output.lines) =
          some (⟨1, 0, countdownRegisters.setGpr 2 0⟩, replay output.lines) := by
      rw [iterate, first, Option.bind_some, iterate_one]
      exact second
    have returned := (routine_from_hex parsed countdown_segments accepted countdown_routine
      assembled countdown_contained countdownRegisters run ?untouched).2 [Memcpy.jret] rfl rfl
    case untouched =>
      intro index within reached part offset _
      have cases : index = 0 ∨ index = 1 ∨ index = 2 := by omega
      rcases cases with rfl | rfl | rfl
      · cases part
        rfl
      · rw [iterate_one, first] at part
        cases part
        rfl
      · rw [run] at part
        cases part
        rfl
    exact ⟨output, rfl, returned⟩

end NaplesPU.HexProgram
