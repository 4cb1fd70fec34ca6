import NaplesPU.StackSlots

/-!
The functions that recognise spills and reloads, beside those that emit them. A load
and a store have their operands in the same order, the register before the address,
but the recogniser of stores looks for the address in front of the register.
-/

namespace NaplesPU.SpillRecognisers

open ByteMemory TwosComplement
open RegisterInfo InstrFormats InstrInfo FixupKinds MCCodeEmitter Machine

/-- Generic instructions and pseudo instructions have no record. -/
inductive MachineOpcode where
  | target (opcode : Opcode)
  | other (number : Nat)
deriving DecidableEq, Repr

/-- The kinds of machine operands. A register is physical or virtual, and zero is none; no
register of the target has a subregister. -/
inductive MachineOperand where
  | MO_Register (reg : BitVec 32) (isDef isKill : Bool)
  | MO_Immediate (value : Int)
  | MO_CImmediate
  | MO_FPImmediate
  | MO_MachineBasicBlock
  | MO_FrameIndex (index : Int)
  | MO_ConstantPoolIndex
  | MO_TargetIndex
  | MO_JumpTableIndex
  | MO_ExternalSymbol
  | MO_GlobalAddress
  | MO_BlockAddress
  | MO_RegisterMask
  | MO_RegisterLiveOut
  | MO_Metadata
  | MO_MCSymbol
  | MO_CFIIndex
  | MO_IntrinsicID
  | MO_Predicate
deriving DecidableEq, Repr

structure MachineInstr where
  opcode : MachineOpcode
  operands : List MachineOperand
deriving DecidableEq, Repr

/-- The register of an operand; of another operand, and of none, it is not defined. -/
def MachineInstr.getReg (inst : MachineInstr) (opNo : Nat) : Option (BitVec 32) :=
  match inst.operands[opNo]? with
  | some (.MO_Register reg _ _) => some reg
  | _ => none

/-- The shape of both recognisers, which differ in where they look for the address and the
register. They return the register, or zero, and what they leave in `FrameIndex`. -/
def isStackSlotAccess (opcodes : List Opcode) (address register : Nat) (inst : MachineInstr)
    (frameIndex : Int) : Option (BitVec 32 × Int) :=
  if inst.opcode ∈ opcodes.map .target then
    match inst.operands[address]? with
    | none => none
    | some (.MO_FrameIndex index) =>
        match inst.operands[address + 1]? with
        | none => none
        | some (.MO_Immediate value) =>
            if value = 0 then (inst.getReg register).map fun reg => (reg, index)
            else some (0, frameIndex)
        | some _ => some (0, frameIndex)
    | some _ => some (0, frameIndex)
  else some (0, frameIndex)

def isLoadFromStackSlot : MachineInstr → Int → Option (BitVec 32 × Int) :=
  isStackSlotAccess [.loadScalar .L32W .Mainmem, .loadVector .LV32W .Mainmem_U] 1 0

def isStoreToStackSlot : MachineInstr → Int → Option (BitVec 32 × Int) :=
  isStackSlotAccess [.storeScalar .S32W .Mainmem, .storeVector .SV32W .Mainmem_U] 0 2

def storeOpcode : RegClass → Opcode
  | .GPR32 => .storeScalar .S32W .Mainmem
  | .VR512W => .storeVector .SV32W .Mainmem_U

def loadOpcode : RegClass → Opcode
  | .GPR32 => .loadScalar .L32W .Mainmem
  | .VR512W => .loadVector .LV32W .Mainmem_U

def storeRegToStackSlot (srcReg : BitVec 32) (isKill : Bool) (frameIndex : Int) (cls : RegClass) :
    MachineInstr :=
  ⟨.target (storeOpcode cls), [.MO_Register srcReg false isKill, .MO_FrameIndex frameIndex,
    .MO_Immediate 0]⟩

def loadRegFromStackSlot (destReg : BitVec 32) (frameIndex : Int) (cls : RegClass) :
    MachineInstr :=
  ⟨.target (loadOpcode cls), [.MO_Register destReg true false, .MO_FrameIndex frameIndex,
    .MO_Immediate 0]⟩

section Specification

/-- The number of the machine operand at a place of an operand that the record names. -/
def operandNo (opcode : Opcode) (name : Var) (place : Nat) : Option Nat :=
  ((miOperands opcode).find? fun entry => entry.2.name = name).map fun entry => entry.1 + place

/-- The instruction moves the whole register directly from or to the frame index. -/
structure DirectAccess (opcodeOf : RegClass → Opcode) (inst : MachineInstr) (reg : BitVec 32)
    (frameIndex : Int) (cls : RegClass) : Prop where
  opcode : inst.opcode = .target (opcodeOf cls)
  register : (operandNo (opcodeOf cls) .dstsrc 0).bind inst.getReg = some reg
  base : (operandNo (opcodeOf cls) .addr 0).bind (inst.operands[·]?) =
    some (.MO_FrameIndex frameIndex)
  offset : (operandNo (opcodeOf cls) .addr 1).bind (inst.operands[·]?) = some (.MO_Immediate 0)

def DirectStore (inst : MachineInstr) (reg : BitVec 32) (frameIndex : Int) : Prop :=
  reg ≠ 0 ∧ ∃ cls, DirectAccess storeOpcode inst reg frameIndex cls

def DirectLoad (inst : MachineInstr) (reg : BitVec 32) (frameIndex : Int) : Prop :=
  reg ≠ 0 ∧ ∃ cls, DirectAccess loadOpcode inst reg frameIndex cls

def Recognised (recogniser : MachineInstr → Int → Option (BitVec 32 × Int)) (inst : MachineInstr)
    (reg : BitVec 32) (frameIndex : Int) : Prop :=
  reg ≠ 0 ∧ ∀ before, recogniser inst before = some (reg, frameIndex)

def RecognisesStores (inst : MachineInstr) : Prop :=
  ∀ reg frameIndex, Recognised isStoreToStackSlot inst reg frameIndex ↔
    DirectStore inst reg frameIndex

def RecognisesLoads (inst : MachineInstr) : Prop :=
  ∀ reg frameIndex, Recognised isLoadFromStackSlot inst reg frameIndex ↔
    DirectLoad inst reg frameIndex

end Specification

section Operands

variable {inst : MachineInstr} {reg : BitVec 32} {frameIndex : Int}

/-- A register is returned for one shape of the operands only. -/
theorem access_eq_some_iff (present : reg ≠ 0) (opcodes : List Opcode) (address register : Nat)
    (before : Int) :
    isStackSlotAccess opcodes address register inst before = some (reg, frameIndex) ↔
      inst.opcode ∈ opcodes.map .target ∧ inst.getReg register = some reg ∧
        inst.operands[address]? = some (.MO_FrameIndex frameIndex) ∧
          inst.operands[address + 1]? = some (.MO_Immediate 0) := by
  have returned : 0#32 ≠ reg := present.symm
  rw [isStackSlotAccess]
  split
  · next listed =>
      split
      · next missing => simp [missing]
      · next index base =>
          split
          · next missing => simp [missing]
          · next value offset =>
              by_cases zero : value = 0
              · simp [listed, base, offset, zero]
              · simp [returned, offset, zero]
          · next operand constant offset =>
              have other : operand ≠ .MO_Immediate 0 := constant 0
              simp [returned, offset, other]
      · next operand index base =>
          have other : operand ≠ .MO_FrameIndex frameIndex := index frameIndex
          simp [returned, base, other]
  · next unlisted => simp [returned, unlisted]

theorem recognised_iff (opcodes : List Opcode) (address register : Nat) :
    Recognised (isStackSlotAccess opcodes address register) inst reg frameIndex ↔
      reg ≠ 0 ∧ inst.opcode ∈ opcodes.map .target ∧ inst.getReg register = some reg ∧
        inst.operands[address]? = some (.MO_FrameIndex frameIndex) ∧
          inst.operands[address + 1]? = some (.MO_Immediate 0) := by
  rw [Recognised, and_congr_right_iff]
  intro present
  simp only [access_eq_some_iff present, forall_const]

/-- The records of loads and stores name the register first and the address second. -/
theorem load_operands (cls : RegClass) :
    (loadOpcode cls).operandList = [⟨.dstsrc, .reg cls⟩, ⟨.addr, .MEMri⟩] := by
  cases cls <;> rfl

theorem store_operands (cls : RegClass) :
    (storeOpcode cls).operandList = [⟨.dstsrc, .reg cls⟩, ⟨.addr, .MEMri⟩] := by
  cases cls <;> rfl

theorem direct_access_iff {opcodeOf : RegClass → Opcode} {cls : RegClass}
    (record : (opcodeOf cls).operandList = [⟨.dstsrc, .reg cls⟩, ⟨.addr, .MEMri⟩]) :
    DirectAccess opcodeOf inst reg frameIndex cls ↔
      inst.opcode = .target (opcodeOf cls) ∧ inst.getReg 0 = some reg ∧
        inst.operands[1]? = some (.MO_FrameIndex frameIndex) ∧
          inst.operands[2]? = some (.MO_Immediate 0) := by
  have register : operandNo (opcodeOf cls) .dstsrc 0 = some 0 := by
    rw [operandNo, miOperands, record]
    rfl
  have address (place : Nat) : operandNo (opcodeOf cls) .addr place = some (1 + place) := by
    rw [operandNo, miOperands, record]
    rfl
  constructor
  · rintro ⟨opcode, named, base, offset⟩
    rw [register, Option.bind_some] at named
    rw [address, Option.bind_some] at base offset
    exact ⟨opcode, named, base, offset⟩
  · rintro ⟨opcode, named, base, offset⟩
    constructor
    · exact opcode
    · rwa [register]
    · rwa [address]
    · rwa [address]

theorem direct_load_iff :
    DirectLoad inst reg frameIndex ↔
      reg ≠ 0 ∧ (∃ cls, inst.opcode = .target (loadOpcode cls)) ∧ inst.getReg 0 = some reg ∧
        inst.operands[1]? = some (.MO_FrameIndex frameIndex) ∧
          inst.operands[2]? = some (.MO_Immediate 0) := by
  simp only [DirectLoad, direct_access_iff (load_operands _), exists_and_right]

theorem direct_store_iff :
    DirectStore inst reg frameIndex ↔
      reg ≠ 0 ∧ (∃ cls, inst.opcode = .target (storeOpcode cls)) ∧ inst.getReg 0 = some reg ∧
        inst.operands[1]? = some (.MO_FrameIndex frameIndex) ∧
          inst.operands[2]? = some (.MO_Immediate 0) := by
  simp only [DirectStore, direct_access_iff (store_operands _), exists_and_right]

end Operands

section Recognition

variable {inst : MachineInstr} {reg : BitVec 32} {frameIndex : Int}

theorem opcode_listed_iff (opcodeOf : RegClass → Opcode) :
    inst.opcode ∈ [opcodeOf .GPR32, opcodeOf .VR512W].map .target ↔
      ∃ cls, inst.opcode = .target (opcodeOf cls) := by
  rw [List.map_cons, List.map_cons, List.map_nil, List.mem_pair]
  constructor
  · rintro (scalar | vector)
    · exact ⟨.GPR32, scalar⟩
    · exact ⟨.VR512W, vector⟩
  · rintro ⟨cls, same⟩
    cases cls with
    | GPR32 => exact Or.inl same
    | VR512W => exact Or.inr same

theorem recognises_loads (inst : MachineInstr) : RecognisesLoads inst := by
  intro reg frameIndex
  have listed : inst.opcode ∈
      [Opcode.loadScalar .L32W .Mainmem, .loadVector .LV32W .Mainmem_U].map .target ↔
        ∃ cls, inst.opcode = .target (loadOpcode cls) := opcode_listed_iff loadOpcode
  rw [isLoadFromStackSlot, recognised_iff, direct_load_iff, listed]

theorem recognised_store_iff :
    Recognised isStoreToStackSlot inst reg frameIndex ↔
      reg ≠ 0 ∧ (∃ cls, inst.opcode = .target (storeOpcode cls)) ∧ inst.getReg 2 = some reg ∧
        inst.operands[0]? = some (.MO_FrameIndex frameIndex) ∧
          inst.operands[1]? = some (.MO_Immediate 0) := by
  have listed : inst.opcode ∈
      [Opcode.storeScalar .S32W .Mainmem, .storeVector .SV32W .Mainmem_U].map .target ↔
        ∃ cls, inst.opcode = .target (storeOpcode cls) := opcode_listed_iff storeOpcode
  rw [isStoreToStackSlot, recognised_iff, listed]

/-- The operands of a store stand in another order than its record has them: the address is
first, and the register behind it. -/
def AddressFirst (inst : MachineInstr) : Prop :=
  (∃ cls, inst.opcode = .target (storeOpcode cls)) ∧
    (∃ frameIndex, inst.operands[0]? = some (.MO_FrameIndex frameIndex)) ∧
      inst.operands[1]? = some (.MO_Immediate 0) ∧ ∃ reg, reg ≠ 0 ∧ inst.getReg 2 = some reg

/-- The operand in front is a register or a frame index, not both. -/
theorem not_recognised_of_direct (direct : DirectStore inst reg frameIndex)
    (other : BitVec 32) (otherIndex : Int) :
    ¬ Recognised isStoreToStackSlot inst other otherIndex := by
  intro recognised
  obtain ⟨-, -, named, -⟩ := direct_store_iff.mp direct
  obtain ⟨-, -, -, base, -⟩ := recognised_store_iff.mp recognised
  rw [MachineInstr.getReg, base] at named
  cases named

theorem recognises_stores_iff :
    RecognisesStores inst ↔
      (∀ reg frameIndex, ¬ DirectStore inst reg frameIndex) ∧ ¬ AddressFirst inst := by
  constructor
  · intro agrees
    have none : ∀ reg frameIndex, ¬ DirectStore inst reg frameIndex := fun reg frameIndex direct =>
      not_recognised_of_direct direct reg frameIndex ((agrees reg frameIndex).mpr direct)
    refine ⟨none, ?_⟩
    rintro ⟨opcode, ⟨frameIndex, base⟩, offset, reg, present, named⟩
    have recognised := recognised_store_iff.mpr ⟨present, opcode, named, base, offset⟩
    exact none reg frameIndex ((agrees reg frameIndex).mp recognised)
  · rintro ⟨none, ordered⟩ reg frameIndex
    constructor
    · intro recognised
      obtain ⟨present, opcode, named, base, offset⟩ := recognised_store_iff.mp recognised
      exact absurd ⟨opcode, ⟨frameIndex, base⟩, offset, reg, present, named⟩ ordered
    · intro direct
      exact absurd direct (none reg frameIndex)

/-- The instruction has registers where its record declares them. -/
def Formed (inst : MachineInstr) : Prop :=
  ∀ opcode, inst.opcode = .target opcode → ∀ entry ∈ miOperands opcode, ∀ cls,
    entry.2.type = .reg cls → (inst.getReg entry.1).isSome

theorem Formed.not_address_first (formed : Formed inst) : ¬ AddressFirst inst := by
  rintro ⟨⟨cls, opcode⟩, ⟨frameIndex, base⟩, -⟩
  have listed : (0, ⟨.dstsrc, .reg cls⟩) ∈ miOperands (storeOpcode cls) := by
    cases cls <;> exact List.mem_cons_self
  have present := formed _ opcode _ listed cls rfl
  rw [MachineInstr.getReg, base] at present
  cases present

theorem recognises_stores_of_formed_iff (formed : Formed inst) :
    RecognisesStores inst ↔ ∀ reg frameIndex, ¬ DirectStore inst reg frameIndex := by
  rw [recognises_stores_iff, and_iff_left formed.not_address_first]

end Recognition

section Emitted

variable {reg : BitVec 32}

theorem direct_store_of_spill (present : reg ≠ 0) (isKill : Bool) (frameIndex : Int)
    (cls : RegClass) :
    DirectStore (storeRegToStackSlot reg isKill frameIndex cls) reg frameIndex :=
  direct_store_iff.mpr ⟨present, ⟨cls, rfl⟩, rfl, rfl, rfl⟩

theorem direct_load_of_reload (present : reg ≠ 0) (frameIndex : Int) (cls : RegClass) :
    DirectLoad (loadRegFromStackSlot reg frameIndex cls) reg frameIndex :=
  direct_load_iff.mpr ⟨present, ⟨cls, rfl⟩, rfl, rfl, rfl⟩

theorem spill_formed (isKill : Bool) (frameIndex : Int) (cls : RegClass) :
    Formed (storeRegToStackSlot reg isKill frameIndex cls) := by
  intro opcode same entry member declared type
  obtain rfl := MachineOpcode.target.inj same
  have places :
      miOperands (storeOpcode cls) = [(0, ⟨.dstsrc, .reg cls⟩), (1, ⟨.addr, .MEMri⟩)] := by
    cases cls <;> rfl
  rw [places, List.mem_pair] at member
  rcases member with rfl | rfl
  · rfl
  · cases type

theorem spill_unrecognised (isKill : Bool) (frameIndex : Int) (cls : RegClass) (before : Int) :
    isStoreToStackSlot (storeRegToStackSlot reg isKill frameIndex cls) before =
      some (0, before) := by
  cases cls <;> rfl

end Emitted

section Execution

variable (assign : BitVec 32 → Register)

/-- The frame index becomes a base register, and the immediate behind it an offset. -/
def MachineInstr.replaceFrameIndex (inst : MachineInstr) (fiOperandNum : Nat)
    (frameReg : BitVec 32) (offset : Int) : MachineInstr :=
  let based := inst.operands.set fiOperandNum (.MO_Register frameReg false false)
  { inst with operands := based.set (fiOperandNum + 1) (.MO_Immediate offset) }

def lowerOperand : MachineOperand → Option MCOperand
  | .MO_Register reg _ _ => some (.reg (assign reg))
  | .MO_Immediate value => some (.imm value)
  | _ => none

def MachineInstr.lower (inst : MachineInstr) : Option MCInst :=
  match inst.opcode with
  | .target opcode =>
      (inst.operands.mapM (lowerOperand assign)).map fun operands => ⟨opcode, operands⟩
  | .other _ => none

variable {inst : MachineInstr} {reg frameReg : BitVec 32} {frameIndex offset : Int}
  {opcodeOf : RegClass → Opcode} {cls : RegClass} {base : Fin 64}

theorem direct_access_lowered
    (record : (opcodeOf cls).operandList = [⟨.dstsrc, .reg cls⟩, ⟨.addr, .MEMri⟩])
    (direct : DirectAccess opcodeOf inst reg frameIndex cls) (explicit : inst.operands.length = 3) :
    (inst.replaceFrameIndex 1 frameReg offset).lower assign =
      some ⟨opcodeOf cls, [.reg (assign reg), .reg (assign frameReg), .imm offset]⟩ := by
  obtain ⟨opcode, named, -, -⟩ := (direct_access_iff record).mp direct
  obtain ⟨first, second, third, operands⟩ := List.length_eq_three.mp explicit
  have register : lowerOperand assign first = some (.reg (assign reg)) := by
    rw [MachineInstr.getReg, operands] at named
    cases first with
    | MO_Register own isDef isKill =>
        obtain rfl := Option.some.inj named
        rfl
    | _ => cases named
  have address : lowerOperand assign (.MO_Register frameReg false false) =
      some (.reg (assign frameReg)) := rfl
  have displacement : lowerOperand assign (.MO_Immediate offset) = some (.imm offset) := rfl
  rw [MachineInstr.lower, MachineInstr.replaceFrameIndex, opcode, operands]
  simp [register, address, displacement]

theorem direct_store_executes (direct : DirectAccess storeOpcode inst reg frameIndex cls)
    (explicit : inst.operands.length = 3) (classed : (assign reg).cls = cls)
    (based : assign frameReg = sReg base) (fits : SignedFits 9 offset) (registers : Registers)
    (memory : Memory 32) :
    ((inst.replaceFrameIndex 1 frameReg offset).lower assign).bind (exec · registers memory) =
      some ⟨registers, storeWord memory (registers.gpr base + BitVec.ofInt 32 offset)
        (assign reg).cls.spillSize (StackSlots.valueOf registers (assign reg)), none⟩ := by
  have same : (⟨storeOpcode cls, [.reg (assign reg), .reg (sReg base), .imm offset]⟩ : MCInst) =
      StackSlots.storeRegToStackSlot (assign reg) (sReg base) offset := by
    rw [StackSlots.storeRegToStackSlot, classed]
    cases cls <;> rfl
  rw [direct_access_lowered assign (store_operands cls) direct explicit, based, same,
    Option.bind_some, StackSlots.exec_store_register registers memory (assign reg) base fits]

theorem direct_load_executes (direct : DirectAccess loadOpcode inst reg frameIndex cls)
    (explicit : inst.operands.length = 3) (classed : (assign reg).cls = cls)
    (based : assign frameReg = sReg base) (fits : SignedFits 9 offset) (registers : Registers)
    (memory : Memory 32) :
    ((inst.replaceFrameIndex 1 frameReg offset).lower assign).bind (exec · registers memory) =
      some ⟨StackSlots.setValue registers (assign reg)
        (loadWord memory (registers.gpr base + BitVec.ofInt 32 offset) (assign reg).cls.spillSize),
          memory, none⟩ := by
  have same : (⟨loadOpcode cls, [.reg (assign reg), .reg (sReg base), .imm offset]⟩ : MCInst) =
      StackSlots.loadRegFromStackSlot (assign reg) (sReg base) offset := by
    rw [StackSlots.loadRegFromStackSlot, classed]
    cases cls <;> rfl
  rw [direct_access_lowered assign (load_operands cls) direct explicit, based, same,
    Option.bind_some, StackSlots.exec_load_register registers memory (assign reg) base fits]

end Execution

/-- The recogniser of loads is right about every instruction, and that of stores about those
that are no direct stores; so every reload is recognised and no spill is. -/
theorem recognisers_match_iff (inst : MachineInstr) :
    (RecognisesStores inst ∧ RecognisesLoads inst ↔
      (∀ reg frameIndex, ¬ DirectStore inst reg frameIndex) ∧ ¬ AddressFirst inst) ∧
    ∀ (reg : BitVec 32) (frameIndex : Int) (cls : RegClass) (isKill : Bool), reg ≠ 0 →
      Recognised isLoadFromStackSlot (loadRegFromStackSlot reg frameIndex cls) reg frameIndex ∧
        ¬ Recognised isStoreToStackSlot (storeRegToStackSlot reg isKill frameIndex cls)
          reg frameIndex := by
  constructor
  · rw [recognises_stores_iff, and_iff_left (recognises_loads inst)]
  · intro reg frameIndex cls isKill present
    constructor
    · exact (recognises_loads _ reg frameIndex).mpr (direct_load_of_reload present frameIndex cls)
    · exact not_recognised_of_direct (direct_store_of_spill present isKill frameIndex cls) reg
        frameIndex

/-- The first virtual register in the first slot. -/
theorem first_slot_recognised :
    (0x80000000 : BitVec 32) ≠ 0 ∧
      Recognised isLoadFromStackSlot (loadRegFromStackSlot 0x80000000 0 .GPR32) 0x80000000 0 ∧
        ¬ Recognised isStoreToStackSlot (storeRegToStackSlot 0x80000000 true 0 .GPR32)
          0x80000000 0 :=
  ⟨by decide, (recognisers_match_iff (loadRegFromStackSlot 0x80000000 0 .GPR32)).2 0x80000000 0
    .GPR32 true (by decide)⟩

/-- The store of the first virtual register to the first slot is well formed and direct, and the
recogniser returns zero. -/
theorem first_spill_missed :
    Formed (storeRegToStackSlot 0x80000000 true 0 .GPR32) ∧
      DirectStore (storeRegToStackSlot 0x80000000 true 0 .GPR32) 0x80000000 0 ∧
        (∀ before, isStoreToStackSlot (storeRegToStackSlot 0x80000000 true 0 .GPR32) before =
          some (0, before)) ∧
            ¬ RecognisesStores (storeRegToStackSlot 0x80000000 true 0 .GPR32) := by
  have direct : DirectStore (storeRegToStackSlot 0x80000000 true 0 .GPR32) 0x80000000 0 :=
    direct_store_of_spill (by decide) true 0 .GPR32
  refine ⟨spill_formed true 0 .GPR32, direct, spill_unrecognised true 0 .GPR32, ?_⟩
  intro agrees
  exact not_recognised_of_direct direct 0x80000000 0 ((agrees 0x80000000 0).mpr direct)

end NaplesPU.SpillRecognisers
