import NaplesPU.FrameLowering

/-!
Access to an object of the frame. Selection folds a small constant into the offset
of the access, and the frame index that is left is replaced, once the frame is laid
out, by the stack or the frame pointer and an offset from it. A node other than a
frame index, a constant, a sum or a symbol is named by a number, and offsets, which
the source keeps in sixty-four bits, are integers.
-/

namespace NaplesPU.FrameIndices

open ByteMemory TwosComplement
open RegisterInfo InstrInfo FixupKinds MCCodeEmitter Machine FrameLayout StackSlots FrameLowering

inductive Addr where
  | frameIndex (index : Int)
  | constant (value : Word)
  | add (left right : Addr)
  | targetExternalSymbol (symbol : Nat)
  | targetGlobalAddress (symbol : Nat)
  | other (node : Nat)
deriving DecidableEq, Repr

/-- What the nodes that selection does not look into stand for. -/
structure AddrValues where
  object : Int → Word
  symbol : Nat → Word
  node : Nat → Word

def Addr.value (values : AddrValues) : Addr → Word
  | .frameIndex index => values.object index
  | .constant value => value
  | .add left right => left.value values + right.value values
  | .targetExternalSymbol symbol | .targetGlobalAddress symbol => values.symbol symbol
  | .other node => values.node node

/-- The base and the offset of an address; a direct call is not selected. The offset is the
zero-extended constant, kept in thirty-two bits. -/
def selectADDRri : Addr → Option (Addr × Word)
  | .frameIndex index => some (.frameIndex index, 0)
  | .targetExternalSymbol _ | .targetGlobalAddress _ => none
  | .add base (.constant value) =>
      if SignedFits 9 value.toInt then some (base, BitVec.ofNat 32 value.toNat)
      else some (.add base (.constant value), 0)
  | addr => some (addr, 0)

def offsetImm (offset : Word) : Int := offset.toInt

def isMemoryAccess : Opcode → Bool
  | .loadScalar _ _ | .storeScalar _ _ | .loadVector _ _ | .storeVector _ _ => true
  | _ => false

structure FrameAccess where
  opcode : Opcode
  data : Register
  memory_access : isMemoryAccess opcode = true

def FrameAccess.inst (access : FrameAccess) (base : Register) (offset : Int) : MCInst :=
  ⟨access.opcode, [.reg access.data, .reg base, .imm offset]⟩

def frameOffset (frame : MachineFrameInfo) (objectOffset imm : Int) : Int :=
  objectOffset + imm + (stackSizeInt frame).toInt

/-- Callee-saved registers are saved before the frame pointer is set up. -/
def frameReg (frame : MachineFrameInfo) (frameIndex : Int) : Register :=
  if minCSFI frame ≤ frameIndex ∧ frameIndex ≤ maxCSFI frame then SP_REG
  else getFrameRegister frame

def eliminateFrameIndex (frame : MachineFrameInfo) (frameIndex objectOffset imm : Int)
    (scratch : Fin 64) (access : Register → Int → MCInst) : Except FrameError (List MCInst) :=
  let offset := frameOffset frame objectOffset imm
  let base := frameReg frame frameIndex
  if SignedFits 9 offset then .ok [access base offset]
  else if SignedFits 25 offset then
    .ok [⟨.moveImm .MOVEIH .SI, [.reg (sReg scratch), .imm ((offset >>> (16 : Nat)) % 2 ^ 16)]⟩,
      ⟨.moveImm .MOVEIL .SI, [.reg (sReg scratch), .imm (offset % 2 ^ 16)]⟩,
      ⟨.arithInt .ADD .SSS_32, [.reg (sReg scratch), .reg base, .reg (sReg scratch)]⟩,
      access (sReg scratch) 0]
  else .error .frameTooLarge

/-- The slots of the callee-saved registers go through the same replacement. -/
theorem eliminate_slot_index (frame : MachineFrameInfo) (info : CalleeSavedInfo) (scratch : Fin 64)
    (access : Register → Int → MCInst) :
    StackSlots.eliminateFrameIndex frame info scratch access =
      eliminateFrameIndex frame info.frameIdx info.objectOffset 0 scratch access := by
  have offset : slotOffset frame info = frameOffset frame info.objectOffset 0 := by
    rw [slotOffset, frameOffset, Int.add_zero]
  simp only [StackSlots.eliminateFrameIndex, eliminateFrameIndex, offset, slotBase, frameReg]

section Selection

variable (values : AddrValues)

theorem constant_folded (value : Word) : BitVec.ofNat 32 value.toNat = value := by
  rw [BitVec.ofNat_toNat, BitVec.setWidth_eq]

theorem select_value {addr base : Addr} {offset : Word}
    (selected : selectADDRri addr = some (base, offset)) :
    addr.value values = base.value values + offset := by
  unfold selectADDRri at selected
  split at selected
  · cases selected
    exact (BitVec.add_zero _).symm
  · cases selected
  · cases selected
  · rename_i inner value
    split at selected
    · cases selected
      rw [Addr.value, constant_folded]
      rfl
    · cases selected
      exact (BitVec.add_zero _).symm
  · cases selected
    exact (BitVec.add_zero _).symm

theorem select_offset_fits {addr base : Addr} {offset : Word}
    (selected : selectADDRri addr = some (base, offset)) : SignedFits 9 (offsetImm offset) := by
  have zeroFits : SignedFits 9 (offsetImm 0) := by decide
  unfold selectADDRri at selected
  split at selected
  · cases selected
    exact zeroFits
  · cases selected
  · cases selected
  · rename_i inner value
    split at selected
    · rename_i fits
      cases selected
      rw [constant_folded]
      exact fits
    · cases selected
      exact zeroFits
  · cases selected
    exact zeroFits

end Selection

section Elimination

theorem access_address_encoded (access : FrameAccess) (base : Register) (offset : Int) :
    varValue (access.inst base offset) .addr = (packMemory base offset).toNat := by
  obtain ⟨opcode, data, memoryAccess⟩ := access
  cases opcode with
  | loadScalar op space => rfl
  | storeScalar op space => rfl
  | loadVector op space => rfl
  | storeVector op space => rfl
  | _ => cases memoryAccess

variable (frame : MachineFrameInfo) (frameIndex : Int) {scratch : Fin 64}

theorem frame_reg_scalar : ∃ index, frameReg frame frameIndex = sReg index ∧
    sReg index ∈ getReservedRegs := by
  rw [frameReg, getFrameRegister]
  split
  · exact ⟨61, rfl, by decide⟩
  · split
    · exact ⟨60, rfl, by decide⟩
    · exact ⟨61, rfl, by decide⟩

/-- The base and the offset add up to the address of the object whatever the stack size. -/
theorem frame_offset_address (objectOffset imm : Int) (entrySP : Word) :
    entrySP - BitVec.ofNat 32 (roundedStackSize frame) +
        BitVec.ofInt 32 (frameOffset frame objectOffset imm) =
      entrySP + BitVec.ofInt 32 (objectOffset + imm) := by
  rw [frameOffset, BitVec.ofInt_add, BitVec.ofInt_toInt, stackSizeInt,
    BitVec.add_comm (BitVec.ofInt 32 _), ← BitVec.add_assoc, BitVec.sub_add_cancel]

/-- What stands in front of the access changes only the scratch register, and the operands of
the access then name the address. -/
def Accesses (code : List MCInst) (access : FrameAccess) (scratch : Fin 64)
    (registers : Registers) (memory : Memory 32) (address : Word) : Prop :=
  ∃ before base imm addressed, code = before ++ [access.inst (sReg base) imm] ∧
    SignedFits 9 imm ∧
    execStraight before registers memory = some (addressed, memory) ∧
    (∀ reg, reg ≠ sReg scratch → valueOf addressed reg = valueOf registers reg) ∧
    fieldAddress (access.inst (sReg base) imm) addressed = address

variable (access : FrameAccess) (registers : Registers) (memory : Memory 32) (address : Word)

theorem direct_access {base : Fin 64} {offset : Int} (fits : SignedFits 9 offset) :
    Accesses [access.inst (sReg base) offset] access scratch registers memory
      (registers.gpr base + BitVec.ofInt 32 offset) := by
  refine ⟨[], base, offset, registers, rfl, fits, rfl, fun reg different => rfl, ?_⟩
  exact field_address_eq (sReg base) fits (access_address_encoded access (sReg base) offset)
    registers

theorem indirect_access {base : Fin 64} (apart : scratch ≠ base) (offset : Int) :
    Accesses
      [⟨.moveImm .MOVEIH .SI, [.reg (sReg scratch), .imm ((offset >>> (16 : Nat)) % 2 ^ 16)]⟩,
        ⟨.moveImm .MOVEIL .SI, [.reg (sReg scratch), .imm (offset % 2 ^ 16)]⟩,
        ⟨.arithInt .ADD .SSS_32, [.reg (sReg scratch), .reg (sReg base), .reg (sReg scratch)]⟩,
        access.inst (sReg scratch) 0]
      access scratch registers memory (registers.gpr base + BitVec.ofInt 32 offset) := by
  have added : alu .ADD = some fun left right => left + right := rfl
  have zeroFits : SignedFits 9 0 := by decide
  have kept (value : Word) : (registers.setGpr scratch value).gpr base = registers.gpr base := by
    rw [set_gpr_gpr, Function.update_of_ne apart.symm]
  have set (value : Word) : (registers.setGpr scratch value).gpr scratch = value := by
    rw [set_gpr_gpr, Function.update_self]
  refine ⟨_, scratch, 0, registers.setGpr scratch (registers.gpr base + BitVec.ofInt 32 offset),
    (List.append_assoc [_, _] [_] [_]).symm, zeroFits, ?_, ?_, ?_⟩
  · rw [List.cons_append, List.cons_append, List.nil_append,
      load_halves_runs registers memory scratch (high_half_of_offset offset)
        (low_half_of_offset offset),
      exec_straight_cons (exec_arith _ memory added scratch base scratch), kept, set,
      set_gpr_set_gpr]
    rfl
  · intro reg different
    exact value_of_set_gpr_other registers _ different
  · rw [field_address_eq (sReg scratch) zeroFits (access_address_encoded access (sReg scratch) 0)]
    exact (BitVec.add_zero _).trans (set _)

/-- A replaced access within reach goes to the object and the constant, on either path. -/
theorem eliminated_access (objectOffset imm : Int) (unreserved : sReg scratch ∉ getReservedRegs)
    {entrySP : Word} (based : registers.gpr (frameReg frame frameIndex).encoding =
      entrySP - BitVec.ofNat 32 (roundedStackSize frame))
    (reached : SignedFits 25 (frameOffset frame objectOffset imm)) :
    ∃ code, eliminateFrameIndex frame frameIndex objectOffset imm scratch access.inst = .ok code ∧
      Accesses code access scratch registers memory
        (entrySP + BitVec.ofInt 32 (objectOffset + imm)) := by
  obtain ⟨base, scalar, reserved⟩ := frame_reg_scalar frame frameIndex
  have apart : scratch ≠ base := by
    intro same
    exact unreserved (same ▸ reserved)
  rw [scalar] at based
  have total : registers.gpr base + BitVec.ofInt 32 (frameOffset frame objectOffset imm) =
      entrySP + BitVec.ofInt 32 (objectOffset + imm) := by
    rw [← frame_offset_address frame objectOffset imm entrySP, ← based]
    rfl
  rw [eliminateFrameIndex, scalar, ← total]
  by_cases near : SignedFits 9 (frameOffset frame objectOffset imm)
  · exact ⟨_, if_pos near, direct_access access registers memory near⟩
  · exact ⟨_, (if_neg near).trans (if_pos reached),
      indirect_access access registers memory apart _⟩

theorem eliminated_out_of_reach (objectOffset imm : Int) (accessInst : Register → Int → MCInst)
    (missed : ¬ SignedFits 25 (frameOffset frame objectOffset imm)) :
    eliminateFrameIndex frame frameIndex objectOffset imm scratch accessInst =
      .error .frameTooLarge := by
  have larger : ¬ SignedFits 9 (frameOffset frame objectOffset imm) := fun fits =>
    missed (fits.mono (by decide))
  rw [eliminateFrameIndex]
  exact (if_neg larger).trans (if_neg missed)

end Elimination

theorem entered_frame_reg {frame : Frame} {entry start : MachineState}
    (entered : Entered frame.toMachineFrameInfo entry start)
    (allocates : ¬ Bails frame.toMachineFrameInfo) (frameIndex : Int) :
    start.1.gpr (frameReg frame.toMachineFrameInfo frameIndex).encoding =
      entry.1.gpr 61 - BitVec.ofNat 32 (roundedStackSize frame.toMachineFrameInfo) := by
  have stackPointer := entered.stackPointer
  rw [frameReg, getFrameRegister]
  split
  · exact stackPointer
  · split
    · rename_i usesFP
      exact (entered.framePointer allocates usesFP).trans stackPointer
    · exact stackPointer

/-- A load or a store of a frame object, from its address node to the replaced frame index:
within reach it accesses the address of the node, with an immediate that fits, and out of
reach the compiler stops. -/
theorem frame_access_address (frame : MachineFrameInfo) (objectOffset : Int → Int)
    (access : FrameAccess) {addr : Addr} {frameIndex : Int} {offset : Word}
    (selected : selectADDRri addr = some (.frameIndex frameIndex, offset)) {scratch : Fin 64}
    (unreserved : sReg scratch ∉ getReservedRegs) (registers : Registers) (memory : Memory 32)
    {values : AddrValues} {entrySP : Word}
    (objects : ∀ index, values.object index = entrySP + BitVec.ofInt 32 (objectOffset index))
    (based : registers.gpr (frameReg frame frameIndex).encoding =
      entrySP - BitVec.ofNat 32 (roundedStackSize frame)) :
    (SignedFits 25 (frameOffset frame (objectOffset frameIndex) (offsetImm offset)) →
      ∃ code, eliminateFrameIndex frame frameIndex (objectOffset frameIndex) (offsetImm offset)
          scratch access.inst = .ok code ∧
        Accesses code access scratch registers memory
          (entrySP + BitVec.ofInt 32 (objectOffset frameIndex + offsetImm offset)) ∧
        addr.value values =
          entrySP + BitVec.ofInt 32 (objectOffset frameIndex + offsetImm offset)) ∧
      (¬ SignedFits 25 (frameOffset frame (objectOffset frameIndex) (offsetImm offset)) →
        eliminateFrameIndex frame frameIndex (objectOffset frameIndex) (offsetImm offset)
          scratch access.inst = .error .frameTooLarge) := by
  constructor
  · intro reached
    obtain ⟨code, eliminated, accesses⟩ := eliminated_access frame frameIndex access registers
      memory (objectOffset frameIndex) (offsetImm offset) unreserved based reached
    refine ⟨code, eliminated, accesses, ?_⟩
    rw [select_value values selected, Addr.value, objects, BitVec.ofInt_add, offsetImm,
      BitVec.ofInt_toInt, BitVec.add_assoc]
  · exact eliminated_out_of_reach frame frameIndex _ _ _

/-- A frame of a hundred thousand bytes without callee-saved registers. -/
def largeFrame : MachineFrameInfo where
  stackSize := 100000
  adjustsStack := false
  hasVarSizedObjects := false
  isFrameAddressTaken := false
  disableFramePointerElim := false
  objectIndexEnd := 0
  savedRegs := []

def largeFrameLoad : FrameAccess := ⟨.loadScalar .L32W .Mainmem, sReg 10, rfl⟩

def largeFrameRegisters : Registers := ⟨fun _ => 0x00fe7940, fun _ => 0⟩

def largeFrameValues : AddrValues :=
  ⟨fun _ => 0x01000000 + BitVec.ofInt 32 (-50000), fun _ => 0, fun _ => 0⟩

theorem large_frame_access :
    ∃ code, eliminateFrameIndex largeFrame 2 (-50000) (-4) 11 largeFrameLoad.inst = .ok code ∧
      Accesses code largeFrameLoad 11 largeFrameRegisters (fun _ => 0)
        (0x01000000 + BitVec.ofInt 32 (-50000 + -4)) ∧
      Addr.value largeFrameValues (.add (.frameIndex 2) (.constant (BitVec.ofInt 32 (-4)))) =
        0x01000000 + BitVec.ofInt 32 (-50000 + -4) := by
  have selected : selectADDRri (.add (.frameIndex 2) (.constant (BitVec.ofInt 32 (-4)))) =
      some (.frameIndex 2, BitVec.ofInt 32 (-4)) := by decide
  have objects (index : Int) :
      largeFrameValues.object index = 0x01000000 + BitVec.ofInt 32 (-50000) := rfl
  have based : largeFrameRegisters.gpr (frameReg largeFrame 2).encoding =
      0x01000000 - BitVec.ofNat 32 (roundedStackSize largeFrame) := by decide
  exact (frame_access_address largeFrame (fun _ => -50000) largeFrameLoad selected (by decide)
    largeFrameRegisters (fun _ => 0) objects based).1 (by decide)

end NaplesPU.FrameIndices
