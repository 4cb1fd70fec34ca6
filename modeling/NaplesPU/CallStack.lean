import Mathlib.Logic.Relation
import NaplesPU.FrameLowering

/-!
The calls of a whole program. A function is entered by its prologue and left by its epilogue
and a jump to the return address; between them its body runs code, sets up call frames and
calls. What the prologue stored below the stack pointer of the caller has to survive the calls
of the body, to any depth.
-/

namespace NaplesPU.CallStack

open ByteMemory TwosComplement
open RegisterInfo InstrInfo FixupKinds MCCodeEmitter Machine FrameLayout StackSlots FrameLowering

/-- A callee-saved register that the function does not save is not given out either. -/
structure Pristine {frame : Frame} (scavenger : Scavenger frame) : Prop where
  prologue : sReg scavenger.prologue ∈ calleeSavedRegs → sReg scavenger.prologue ∈ frame.savedRegs
  epilogue : sReg scavenger.epilogue ∈ calleeSavedRegs → sReg scavenger.epilogue ∈ frame.savedRegs
  spill : ∀ reg, sReg (scavenger.spill reg) ∈ calleeSavedRegs →
    sReg (scavenger.spill reg) ∈ frame.savedRegs
  reload : ∀ reg, sReg (scavenger.reload reg) ∈ calleeSavedRegs →
    sReg (scavenger.reload reg) ∈ frame.savedRegs

structure MachineFunction where
  frame : Frame
  scavenger : Scavenger frame
  prologue : List MCInst
  epilogue : List MCInst
  emitted : emitFrame frame scavenger = .ok (prologue, epilogue)
  pristine : Pristine scavenger

section Slots

/-- The cells of a slot, when the stack pointer of the body is at `base`. -/
def InSlot (frame : MachineFrameInfo) (base : Word) (info : CalleeSavedInfo) (cell : Word) : Prop :=
  offsetFrom (slotAddress frame base info) cell < info.size

def Covers (frame : MachineFrameInfo) (base cell : Word) : Prop :=
  ∃ info ∈ calleeSavedInfo frame, InSlot frame base info cell

theorem assign_depth_le {frameIdx offset : Nat} {regs : List Register} {info : CalleeSavedInfo}
    (member : info ∈ assignCalleeSavedSpillSlots frameIdx offset regs) :
    info.depth ≤ regs.foldl nextOffset offset := by
  induction regs generalizing frameIdx offset with
  | nil => cases member
  | cons reg rest induction =>
      rw [assignCalleeSavedSpillSlots] at member
      rw [List.foldl_cons]
      rcases List.mem_cons.mp member with rfl | later
      · exact le_foldl_next_offset rest _
      · exact induction later

theorem depth_le_rounded (frame : Frame) {info : CalleeSavedInfo}
    (member : info ∈ calleeSavedInfo frame.toMachineFrameInfo) :
    info.depth ≤ roundedStackSize frame.toMachineFrameInfo := by
  have inside := frame.slots_inside
  have rounded := Alignment.le_align_to (show 0 < getStackAlignment by decide) frame.stackSize
  have deep := assign_depth_le member
  rw [← fixedCSEnd] at deep
  rw [roundedStackSize]
  omega

theorem slot_address_eq (frame : MachineFrameInfo) (pointer : Word) (info : CalleeSavedInfo) :
    slotAddress frame (pointer - stackSizeInt frame) info =
      pointer - BitVec.ofNat 32 info.depth := by
  rw [slotAddress, slotOffset, CalleeSavedInfo.objectOffset, BitVec.ofInt_add, BitVec.ofInt_toInt,
    BitVec.ofInt_neg, BitVec.ofInt_natCast, BitVec.add_comm (-BitVec.ofNat 32 info.depth),
    ← BitVec.add_assoc, BitVec.sub_add_cancel, BitVec.sub_eq_add_neg]

/-- A slot lies between the stack pointer of the body and that of the caller. -/
theorem in_slot_bounds (frame : Frame) {pointer : Word}
    (room : roundedStackSize frame.toMachineFrameInfo ≤ pointer.toNat) {cell : Word}
    (covered : Covers frame.toMachineFrameInfo
      (pointer - stackSizeInt frame.toMachineFrameInfo) cell) :
    (pointer - stackSizeInt frame.toMachineFrameInfo).toNat ≤ cell.toNat ∧
      cell.toNat < pointer.toNat := by
  obtain ⟨info, member, inside⟩ := covered
  have deep := depth_le_rounded frame member
  have shallow := (saved_depth_bounds frame member).1
  have small := pointer.isLt
  have below := cell.isLt
  rw [InSlot, slot_address_eq, offsetFrom, BitVec.toNat_sub, BitVec.toNat_sub,
    BitVec.toNat_ofNat] at inside
  rw [BitVec.toNat_sub, stackSizeInt, BitVec.toNat_ofNat]
  omega

end Slots

section Spills

variable (frame : Frame) (registers : Registers) (memory : Memory 32) (scratch : SlotScratch)

theorem spills_leave {infos : List CalleeSavedInfo}
    (members : ∀ info ∈ infos, info ∈ calleeSavedInfo frame.toMachineFrameInfo)
    (free : SpillsFree scratch.spill (infos.map CalleeSavedInfo.reg)) :
    ∃ spilled stored,
      execStraight ((infos.map FrameInst.store).flatMap (instCode frame.toMachineFrameInfo scratch))
        registers memory = some (spilled, stored) ∧
      (∀ reg, (∀ info ∈ infos, reg ≠ sReg (scratch.spill info.reg)) →
        valueOf spilled reg = valueOf registers reg) ∧
      ∀ cell, (∀ info ∈ infos, ¬ InSlot frame.toMachineFrameInfo (registers.gpr 61) info cell) →
        stored cell = memory cell := by
  induction infos generalizing registers memory with
  | nil => exact ⟨registers, memory, rfl, fun _ _ => rfl, fun _ _ => rfl⟩
  | cons info rest induction =>
      rw [List.map_cons] at free
      rcases free with ⟨unreserved, unread, freeRest⟩
      have pointerFree := ne_of_unreserved stack_pointer_reserved unreserved
      have headUnread : info.reg ≠ sReg (scratch.spill info.reg) := by
        intro same
        exact unread (same ▸ List.mem_cons_self)
      rcases spill_runs frame registers memory (members info List.mem_cons_self) pointerFree
        headUnread with ⟨first, keptFirst, runsFirst⟩
      have pointer : first.gpr 61 = registers.gpr 61 := by
        apply keptFirst SP_REG
        exact fun same => unreserved (same ▸ stack_pointer_reserved)
      rcases induction first _
        (fun later inRest => members later (List.mem_cons_of_mem info inRest)) freeRest with
        ⟨spilled, stored, runs, kept, untouched⟩
      refine ⟨spilled, stored, ?_, ?_, ?_⟩
      · rw [List.map_cons, List.flatMap_cons, exec_straight_append]
        exact (congrArg (Option.bind · _) runsFirst).trans runs
      · intro reg unscratched
        rw [List.forall_mem_cons] at unscratched
        rw [kept reg unscratched.2, keptFirst reg unscratched.1]
      · intro cell outside
        rw [List.forall_mem_cons] at outside
        rw [pointer] at untouched
        rw [untouched cell outside.2]
        apply store_outside
        rw [bytes_length]
        exact Nat.le_of_not_lt outside.1

theorem reloads_leave {infos : List CalleeSavedInfo}
    (members : ∀ info ∈ infos, info ∈ calleeSavedInfo frame.toMachineFrameInfo)
    (free : ReloadsFree scratch.reload (infos.map CalleeSavedInfo.reg)) :
    ∃ restored,
      execStraight ((infos.reverse.map FrameInst.load).flatMap
        (instCode frame.toMachineFrameInfo scratch)) registers memory = some (restored, memory) ∧
      ∀ reg, (∀ info ∈ infos, reg ≠ info.reg ∧ reg ≠ sReg (scratch.reload info.reg)) →
        valueOf restored reg = valueOf registers reg := by
  induction infos with
  | nil => exact ⟨registers, rfl, fun _ _ => rfl⟩
  | cons info rest induction =>
      rw [List.map_cons] at free
      rcases free with ⟨unreserved, -, freeRest⟩
      rcases induction (fun later inRest => members later (List.mem_cons_of_mem info inRest))
        freeRest with ⟨later, runsLater, keptLater⟩
      have pointerFree := ne_of_unreserved stack_pointer_reserved unreserved
      rcases reload_runs frame later memory (members info List.mem_cons_self) pointerFree with
        ⟨addressed, kept, runs⟩
      refine ⟨setValue addressed info.reg
        (loadSlot frame.toMachineFrameInfo memory (later.gpr 61) info), ?_, ?_⟩
      · rw [List.reverse_cons, List.map_append, List.flatMap_append, exec_straight_append,
          runsLater, Option.bind_some, List.map_singleton, List.flatMap_singleton]
        exact runs
      · intro reg apart
        rw [List.forall_mem_cons] at apart
        rw [value_of_set_value_other _ _ apart.1.1, kept reg apart.1.2, keptLater reg apart.2]

end Spills

section Frames

/-- The callee-saved registers that a function does not save. -/
def Unsaved (frame : MachineFrameInfo) (reg : Register) : Prop :=
  reg ∈ calleeSavedRegs ∧ reg ∉ frame.savedRegs

def KeepsUnsaved (frame : MachineFrameInfo) (before after : Registers) : Prop :=
  ∀ reg, Unsaved frame reg → valueOf after reg = valueOf before reg

theorem KeepsUnsaved.trans {frame : MachineFrameInfo} {first second third : Registers}
    (left : KeepsUnsaved frame first second) (right : KeepsUnsaved frame second third) :
    KeepsUnsaved frame first third :=
  fun reg unsaved => (right reg unsaved).trans (left reg unsaved)

theorem unsaved_ne {frame : MachineFrameInfo} {reg : Register} {scratch : Fin 64}
    (pristine : sReg scratch ∈ calleeSavedRegs → sReg scratch ∈ frame.savedRegs)
    (unsaved : Unsaved frame reg) : reg ≠ sReg scratch := by
  rintro rfl
  exact unsaved.2 (pristine unsaved.1)

theorem unsaved_ne_pointer {frame : MachineFrameInfo} {reg : Register}
    (unsaved : Unsaved frame reg) : reg ≠ SP_REG := by
  rintro rfl
  have callee := unsaved.1
  revert callee
  decide

variable {frame : Frame} (scavenger : Scavenger frame)

structure PrologueKeeps (reg : Register) : Prop where
  stackPointer : reg ≠ SP_REG
  framePointer : hasFP frame.toMachineFrameInfo = true → reg ≠ FP_REG
  adjustment : reg ≠ sReg scavenger.prologue
  spills : ∀ saved, reg ≠ sReg (scavenger.spill saved)

structure EpilogueKeeps (reg : Register) : Prop where
  stackPointer : reg ≠ SP_REG
  unsaved : reg ∉ frame.savedRegs
  adjustment : reg ≠ sReg scavenger.epilogue
  reloads : ∀ saved, reg ≠ sReg (scavenger.reload saved)

variable {scavenger} {reg : Register}

theorem unsaved_prologue_keeps (pristine : Pristine scavenger)
    (unsaved : Unsaved frame.toMachineFrameInfo reg) : PrologueKeeps scavenger reg where
  stackPointer := unsaved_ne_pointer unsaved
  framePointer usesFP := by
    rintro rfl
    exact unsaved.2 (frame.saved_frame_pointer usesFP)
  adjustment := unsaved_ne pristine.prologue unsaved
  spills saved := unsaved_ne (pristine.spill saved) unsaved

theorem unsaved_epilogue_keeps (pristine : Pristine scavenger)
    (unsaved : Unsaved frame.toMachineFrameInfo reg) : EpilogueKeeps scavenger reg where
  stackPointer := unsaved_ne_pointer unsaved
  unsaved := unsaved.2
  adjustment := unsaved_ne pristine.epilogue unsaved
  reloads saved := unsaved_ne (pristine.reload saved) unsaved

variable (frame) (scavenger)

theorem saves_leave (entry : MachineState) :
    ∃ spilled, run ((insertCSRSaves frame.toMachineFrameInfo).flatMap
        (instCode frame.toMachineFrameInfo scavenger.toSlotScratch)) entry = some spilled ∧
      (∀ reg, PrologueKeeps scavenger reg → valueOf spilled.1 reg = valueOf entry.1 reg) ∧
      ∀ cell, ¬ Covers frame.toMachineFrameInfo (entry.1.gpr 61) cell →
        spilled.2 cell = entry.2 cell := by
  have free : SpillsFree scavenger.spill
      ((calleeSavedInfo frame.toMachineFrameInfo).map CalleeSavedInfo.reg) := by
    rw [saved_map_reg]
    exact scavenger.spills_free
  rcases spills_leave frame entry.1 entry.2 scavenger.toSlotScratch (fun info known => known) free
    with ⟨spilled, stored, runs, kept, untouched⟩
  refine ⟨(spilled, stored), runs, ?_, ?_⟩
  · intro reg keeps
    exact kept reg fun info _ => keeps.spills info.reg
  · intro cell outside
    exact untouched cell fun info known inside => outside ⟨info, known, inside⟩

theorem set_pointer_leaves (state : MachineState) :
    ∃ pointed, run ((setFramePointer frame.toMachineFrameInfo).flatMap
        (instCode frame.toMachineFrameInfo scavenger.toSlotScratch)) state =
          some (pointed, state.2) ∧
      ∀ reg, PrologueKeeps scavenger reg → valueOf pointed reg = valueOf state.1 reg := by
  rw [setFramePointer]
  split
  case isTrue usesFP =>
      refine ⟨state.1.setGpr 60 (state.1.gpr 61), move_runs 60 61 state, ?_⟩
      intro reg keeps
      exact value_of_set_gpr_other state.1 _ (keeps.framePointer usesFP)
  case isFalse => exact ⟨state.1, rfl, fun reg keeps => rfl⟩

/-- The prologue writes two special registers, scratch registers and the slots. -/
theorem prologue_leaves (entry : MachineState) :
    ∃ start, run (prologueCode frame scavenger) entry = some start ∧
      (∀ reg, PrologueKeeps scavenger reg → valueOf start.1 reg = valueOf entry.1 reg) ∧
      ∀ cell, ¬ Covers frame.toMachineFrameInfo
          (entry.1.gpr 61 - stackSizeInt frame.toMachineFrameInfo) cell →
        start.2 cell = entry.2 cell := by
  rw [prologueCode, prologueInsts]
  split
  case isTrue bails =>
      rcases saves_leave frame scavenger entry with ⟨start, runs, kept, untouched⟩
      refine ⟨start, runs, kept, ?_⟩
      intro cell outside
      have unmoved : entry.1.gpr 61 - (0 : Word) = entry.1.gpr 61 := BitVec.sub_zero _
      rw [bails.1, unmoved] at outside
      exact untouched cell outside
  case isFalse =>
      rcases adjust_runs (-stackSizeInt frame.toMachineFrameInfo) scavenger.prologue_free.1 entry
        with ⟨adjusted, runsAdjust, pointer, keptAdjust⟩
      rcases saves_leave frame scavenger (adjusted, entry.2) with
        ⟨spilled, runsSaves, keptSaves, untouched⟩
      rcases set_pointer_leaves frame scavenger spilled with ⟨pointed, runsSet, keptSet⟩
      refine ⟨(pointed, spilled.2), ?_, ?_, ?_⟩
      · rw [List.flatMap_append, List.flatMap_append, target_code, run_append, run_append,
          runsAdjust, Option.bind_some, runsSaves, Option.bind_some]
        exact runsSet
      · intro reg keeps
        rw [keptSet reg keeps, keptSaves reg keeps,
          keptAdjust reg keeps.adjustment keeps.stackPointer]
      · intro cell outside
        rw [BitVec.sub_eq_add_neg, ← pointer] at outside
        exact untouched cell outside

theorem restore_pointer_leaves (finish : MachineState) :
    ∃ ready, run ((restoreStackPointer frame.toMachineFrameInfo).flatMap
        (instCode frame.toMachineFrameInfo scavenger.toSlotScratch)) finish =
          some (ready, finish.2) ∧
      ∀ reg, EpilogueKeeps scavenger reg → valueOf ready reg = valueOf finish.1 reg := by
  rw [restoreStackPointer]
  split
  · refine ⟨finish.1.setGpr 61 (finish.1.gpr 60), move_runs 61 60 finish, ?_⟩
    intro reg keeps
    exact value_of_set_gpr_other finish.1 _ keeps.stackPointer
  · exact ⟨finish.1, rfl, fun reg keeps => rfl⟩

theorem restores_leave (ready : MachineState) :
    ∃ restored, run ((insertCSRRestores frame.toMachineFrameInfo).flatMap
        (instCode frame.toMachineFrameInfo scavenger.toSlotScratch)) ready =
          some (restored, ready.2) ∧
      ∀ reg, EpilogueKeeps scavenger reg → valueOf restored reg = valueOf ready.1 reg := by
  have free := scavenger.reloads_free
  rw [← saved_map_reg] at free
  rcases reloads_leave frame ready.1 ready.2 scavenger.toSlotScratch (fun info known => known) free
    with ⟨restored, runs, kept⟩
  refine ⟨restored, runs, ?_⟩
  intro reg keeps
  apply kept reg
  intro info known
  refine ⟨?_, keeps.reloads info.reg⟩
  rintro rfl
  exact keeps.unsaved (saved_of_info frame known)

theorem final_adjust_leaves (restored : MachineState) :
    ∃ left, run ((if roundedStackSize frame.toMachineFrameInfo = 0 then []
        else (adjustStackPointer (stackSizeInt frame.toMachineFrameInfo) scavenger.epilogue).map
          FrameInst.target).flatMap (instCode frame.toMachineFrameInfo scavenger.toSlotScratch))
          restored = some (left, restored.2) ∧
      ∀ reg, EpilogueKeeps scavenger reg → valueOf left reg = valueOf restored.1 reg := by
  split
  · exact ⟨restored.1, rfl, fun reg keeps => rfl⟩
  · rcases adjust_runs (stackSizeInt frame.toMachineFrameInfo) scavenger.epilogue_free.1 restored
      with ⟨adjusted, runs, -, kept⟩
    rw [target_code]
    exact ⟨adjusted, runs, fun reg keeps => kept reg keeps.adjustment keeps.stackPointer⟩

/-- The epilogue writes the stack pointer, scratch registers and those that it reloads, and no
memory. -/
theorem epilogue_leaves (finish : MachineState) :
    ∃ exit, run (epilogueCode frame scavenger) finish = some exit ∧
      (∀ reg, EpilogueKeeps scavenger reg → valueOf exit.1 reg = valueOf finish.1 reg) ∧
      exit.2 = finish.2 := by
  rcases restore_pointer_leaves frame scavenger finish with ⟨ready, runsReady, keptReady⟩
  rcases restores_leave frame scavenger (ready, finish.2) with
    ⟨restored, runsRestores, keptRestores⟩
  rcases final_adjust_leaves frame scavenger (restored, finish.2) with
    ⟨left, runsAdjust, keptAdjust⟩
  refine ⟨(left, finish.2), ?_, ?_, rfl⟩
  · rw [epilogueCode, epilogueInsts, List.flatMap_append, List.flatMap_append, run_append,
      run_append, runsReady, Option.bind_some, runsRestores, Option.bind_some]
    exact runsAdjust
  · intro reg keeps
    rw [keptAdjust reg keeps, keptRestores reg keeps, keptReady reg keeps]

end Frames

section Execution

/-- A call that has not returned: the state in which the function was entered, and the call frame
that its body has set up. -/
structure Activation where
  function : MachineFunction
  entry : MachineState
  callFrame : Option Word

def Activation.frame (activation : Activation) : MachineFrameInfo :=
  activation.function.frame.toMachineFrameInfo

/-- The stack pointer that the prologue leaves. -/
def Activation.base (activation : Activation) : Word :=
  activation.entry.1.gpr 61 - stackSizeInt activation.frame

/-- What the call frame has moved the stack pointer by. -/
def Activation.taken (activation : Activation) : Nat :=
  if activation.frame.hasVarSizedObjects then (activation.callFrame.getD 0).toNat else 0

/-- The innermost call comes first. -/
inductive Config where
  | running (state : MachineState) (active : List Activation)
  /-- A function returned to another address than that of its call. -/
  | stray

/-- What the code of a body keeps: the frame pointer, the callee-saved registers that are not
saved, the slots of all active functions, and the stack pointer, unless it allocates below the
frame. -/
structure BodyCode (activation : Activation) (active : List Activation)
    (before after : MachineState) : Prop where
  framePointer : after.1.gpr 60 = before.1.gpr 60
  unsaved : KeepsUnsaved activation.frame before.1 after.1
  slots : ∀ other ∈ active, ∀ cell, Covers other.frame other.base cell →
    after.2 cell = before.2 cell
  fixed : activation.frame.hasVarSizedObjects = false ∨ activation.callFrame ≠ none →
    after.1.gpr 61 = before.1.gpr 61
  allocated : (after.1.gpr 61).toNat ≤ activation.base.toNat

def called (state : MachineState) (returnAddress : Word) : MachineState :=
  (state.1.setGpr RA_REG.encoding returnAddress, state.2)

def returned (activation : Activation) (exit : MachineState) (rest : List Activation) : Config :=
  if exit.1.gpr RA_REG.encoding = activation.entry.1.gpr RA_REG.encoding then .running exit rest
  else .stray

/-- A register that the scavenger gives to the adjustment of the stack pointer for a call. -/
def Scavenged (frame : MachineFrameInfo) (scratch : Fin 64) : Prop :=
  sReg scratch ∉ getReservedRegs ∧ (sReg scratch ∈ calleeSavedRegs → sReg scratch ∈ frame.savedRegs)

inductive Step : Config → Config → Prop where
  | code {state next : MachineState} {activation : Activation} {rest : List Activation}
      (keeps : BodyCode activation (activation :: rest) state next) :
      Step (.running state (activation :: rest)) (.running next (activation :: rest))
  | setup {state next : MachineState} {activation : Activation} {rest : List Activation}
      {amount : Word} {scratch : Fin 64} (closed : activation.callFrame = none)
      (scavenged : Scavenged activation.frame scratch)
      (room : amount.toNat ≤ (state.1.gpr 61).toNat)
      (runs : run (eliminateCallFramePseudoInstr activation.frame .ADJCALLSTACKDOWN amount scratch)
        state = some next) :
      Step (.running state (activation :: rest))
        (.running next ({ activation with callFrame := some amount } :: rest))
  | destroy {state next : MachineState} {activation : Activation} {rest : List Activation}
      {amount : Word} {scratch : Fin 64} (opened : activation.callFrame = some amount)
      (scavenged : Scavenged activation.frame scratch)
      (runs : run (eliminateCallFramePseudoInstr activation.frame .ADJCALLSTACKUP amount scratch)
        state = some next) :
      Step (.running state (activation :: rest))
        (.running next ({ activation with callFrame := none } :: rest))
  | call {state start : MachineState} {caller : Activation} {rest : List Activation}
      {callee : MachineFunction} {returnAddress : Word} (opened : caller.callFrame ≠ none)
      (saved : RA_REG ∈ caller.frame.savedRegs)
      (room : roundedStackSize callee.frame.toMachineFrameInfo ≤ (state.1.gpr 61).toNat)
      (runs : run callee.prologue (called state returnAddress) = some start) :
      Step (.running state (caller :: rest))
        (.running start (⟨callee, called state returnAddress, none⟩ :: caller :: rest))
  | ret {state exit : MachineState} {activation : Activation} {rest : List Activation}
      (closed : activation.callFrame = none)
      (runs : run activation.function.epilogue state = some exit) :
      Step (.running state (activation :: rest)) (returned activation exit rest)

end Execution

section Invariant

/-- What a function relies on while it runs, or when its callee returns. -/
structure Holds (activation : Activation) (registers : Registers) (memory : Memory 32) : Prop where
  room : roundedStackSize activation.frame ≤ (activation.entry.1.gpr 61).toNat
  framePointer : hasFP activation.frame = true → registers.gpr 60 = activation.base
  unsaved : KeepsUnsaved activation.frame activation.entry.1 registers
  slots : ∀ info ∈ calleeSavedInfo activation.frame,
    loadSlot activation.frame memory activation.base info = valueOf activation.entry.1 info.reg
  fixed : activation.frame.hasVarSizedObjects = false → registers.gpr 61 = activation.base
  below : (registers.gpr 61).toNat + activation.taken ≤ activation.base.toNat

def Stacked : List Activation → Registers → Memory 32 → Prop
  | [], _, _ => True
  | activation :: rest, registers, memory =>
      Holds activation registers memory ∧ Stacked rest activation.entry.1 memory

def Sound : Config → Prop
  | .running state active => Stacked active state.1 state.2
  | .stray => False

theorem code_of_emitted (function : MachineFunction) :
    stackSizeInt function.frame.toMachineFrameInfo ≠ BitVec.intMin 32 ∧
      function.prologue = prologueCode function.frame function.scavenger ∧
      function.epilogue = epilogueCode function.frame function.scavenger := by
  have emitted := function.emitted
  by_cases overflows : stackSizeInt function.frame.toMachineFrameInfo = BitVec.intMin 32
  · rw [emit_frame_undefined _ _ overflows] at emitted
    cases emitted
  · by_cases reached : SlotsInReach function.frame.toMachineFrameInfo
    · rw [emit_frame_eq _ _ overflows reached, Except.ok.injEq, Prod.mk.injEq] at emitted
      exact ⟨overflows, emitted.1.symm, emitted.2.symm⟩
    · rw [emit_frame_too_large _ _ overflows reached] at emitted
      cases emitted

theorem prologue_spec (function : MachineFunction) (entry : MachineState) :
    ∃ start, run function.prologue entry = some start ∧
      Entered function.frame.toMachineFrameInfo entry start ∧
      (∀ reg, PrologueKeeps function.scavenger reg →
        valueOf start.1 reg = valueOf entry.1 reg) ∧
      ∀ cell, ¬ Covers function.frame.toMachineFrameInfo
          (entry.1.gpr 61 - stackSizeInt function.frame.toMachineFrameInfo) cell →
        start.2 cell = entry.2 cell := by
  obtain ⟨-, isPrologue, -⟩ := code_of_emitted function
  rcases prologue_runs function.frame function.scavenger entry with ⟨start, runs, entered⟩
  rcases prologue_leaves function.frame function.scavenger entry with ⟨left, runsLeft, kept⟩
  rw [runs, Option.some.injEq] at runsLeft
  rw [isPrologue]
  exact ⟨start, runs, entered, runsLeft ▸ kept⟩

theorem room_sound {function : MachineFunction} {pointer : Word}
    (room : roundedStackSize function.frame.toMachineFrameInfo ≤ pointer.toNat) :
    ¬ LosesStackPointer function.frame.toMachineFrameInfo := by
  intro lost
  have large := four_gibibytes_of_lost function.frame lost
  have small := pointer.isLt
  omega

theorem base_to_nat {activation : Activation}
    (room : roundedStackSize activation.frame ≤ (activation.entry.1.gpr 61).toNat) :
    activation.base.toNat =
      (activation.entry.1.gpr 61).toNat - roundedStackSize activation.frame := by
  have small := (activation.entry.1.gpr 61).isLt
  rw [Activation.base, BitVec.toNat_sub, stackSizeInt, BitVec.toNat_ofNat]
  omega

theorem holds_entered {function : MachineFunction} {entry start : MachineState}
    (room : roundedStackSize function.frame.toMachineFrameInfo ≤ (entry.1.gpr 61).toNat)
    (entered : Entered function.frame.toMachineFrameInfo entry start)
    (kept : ∀ reg, PrologueKeeps function.scavenger reg →
      valueOf start.1 reg = valueOf entry.1 reg) :
    Holds ⟨function, entry, none⟩ start.1 start.2 where
  room := room
  framePointer usesFP := by
    have moved : ¬ Bails function.frame.toMachineFrameInfo := by
      rw [bails_iff]
      exact fun bails => room_sound room ⟨usesFP, bails⟩
    rw [entered.framePointer moved usesFP, entered.stackPointer]
    rfl
  unsaved reg unsaved := kept reg (unsaved_prologue_keeps function.pristine unsaved)
  slots := by
    intro info known
    have held := entered.slots info known
    rw [entered.stackPointer] at held
    exact held
  fixed _ := entered.stackPointer
  below := by
    rw [entered.stackPointer]
    simp [Activation.taken, Activation.base, Activation.frame]

theorem stacked_room {active : List Activation} {registers : Registers} {memory : Memory 32}
    (stacked : Stacked active registers memory) :
    ∀ activation ∈ active,
      roundedStackSize activation.frame ≤ (activation.entry.1.gpr 61).toNat := by
  induction active generalizing registers with
  | nil => exact List.forall_mem_nil _
  | cons activation rest induction =>
      exact List.forall_mem_cons.mpr ⟨stacked.1.room, induction stacked.2⟩

theorem stacked_slots {active : List Activation} {registers : Registers} {memory : Memory 32}
    (stacked : Stacked active registers memory) :
    ∀ activation ∈ active, ∀ info ∈ calleeSavedInfo activation.frame,
      loadSlot activation.frame memory activation.base info =
        valueOf activation.entry.1 info.reg := by
  induction active generalizing registers with
  | nil => exact List.forall_mem_nil _
  | cons activation rest induction =>
      exact List.forall_mem_cons.mpr ⟨stacked.1.slots, induction stacked.2⟩

/-- Memory that differs outside the slots only. -/
theorem holds_memory {activation : Activation} {registers : Registers} {memory other : Memory 32}
    (same : ∀ cell, Covers activation.frame activation.base cell → other cell = memory cell)
    (holds : Holds activation registers memory) : Holds activation registers other where
  room := holds.room
  framePointer := holds.framePointer
  unsaved := holds.unsaved
  slots := by
    intro info known
    rw [← holds.slots info known]
    apply load_word_congr
    intro offset inside
    apply same
    refine ⟨info, known, ?_⟩
    have small : info.reg.cls.spillSize ≤ 64 := by cases info.reg.cls <;> decide
    rw [InSlot, offset_from_add (by omega)]
    exact inside
  fixed := holds.fixed
  below := holds.below

theorem stacked_memory {active : List Activation} {registers : Registers}
    {memory other : Memory 32}
    (same : ∀ activation ∈ active, ∀ cell, Covers activation.frame activation.base cell →
      other cell = memory cell)
    (stacked : Stacked active registers memory) : Stacked active registers other := by
  induction active generalizing registers with
  | nil => trivial
  | cons activation rest induction =>
      rw [List.forall_mem_cons] at same
      exact ⟨holds_memory same.1 stacked.1, induction same.2 stacked.2⟩

/-- Registers that agree where a function relies on its callee. -/
def Agree (registers other : Registers) : Prop :=
  other.gpr 61 = registers.gpr 61 ∧
    ∀ reg ∈ calleeSavedRegs, valueOf other reg = valueOf registers reg

theorem stacked_agree {active : List Activation} {registers other : Registers}
    {memory : Memory 32} (agree : Agree registers other)
    (stacked : Stacked active registers memory) : Stacked active other memory := by
  cases active with
  | nil => trivial
  | cons activation rest =>
      obtain ⟨holds, stackedRest⟩ := stacked
      have pointer : other.gpr 60 = registers.gpr 60 := agree.2 FP_REG (by decide)
      refine ⟨⟨holds.room, ?_, ?_, holds.slots, ?_, ?_⟩, stackedRest⟩
      · intro usesFP
        rw [pointer, holds.framePointer usesFP]
      · intro reg unsaved
        rw [agree.2 reg unsaved.1, holds.unsaved reg unsaved]
      · intro isFixed
        rw [agree.1, holds.fixed isFixed]
      · rw [agree.1]
        exact holds.below

theorem stacked_above {active : List Activation} {registers : Registers} {memory : Memory 32}
    (stacked : Stacked active registers memory) :
    ∀ outer ∈ active, (registers.gpr 61).toNat ≤ outer.base.toNat := by
  induction active generalizing registers with
  | nil => exact List.forall_mem_nil _
  | cons activation rest induction =>
      have below := stacked.1.below
      have room := base_to_nat stacked.1.room
      rw [List.forall_mem_cons]
      refine ⟨by omega, ?_⟩
      intro outer listed
      have further := induction stacked.2 outer listed
      omega

theorem stacked_pairwise {active : List Activation} {registers : Registers} {memory : Memory 32}
    (stacked : Stacked active registers memory) :
    active.Pairwise fun inner outer => (inner.entry.1.gpr 61).toNat ≤ outer.base.toNat := by
  induction active generalizing registers with
  | nil => exact List.Pairwise.nil
  | cons activation rest induction =>
      exact List.Pairwise.cons (stacked_above stacked.2) (induction stacked.2)

theorem stacked_code {activation : Activation} {rest : List Activation} {state next : MachineState}
    (keeps : BodyCode activation (activation :: rest) state next)
    (stacked : Stacked (activation :: rest) state.1 state.2) :
    Stacked (activation :: rest) next.1 next.2 := by
  obtain ⟨holds, stackedRest⟩ := stacked_memory keeps.slots stacked
  refine ⟨⟨holds.room, ?_, ?_, holds.slots, ?_, ?_⟩, stackedRest⟩
  · intro usesFP
    rw [keeps.framePointer, holds.framePointer usesFP]
  · exact holds.unsaved.trans keeps.unsaved
  · intro isFixed
    rw [keeps.fixed (Or.inl isFixed), holds.fixed isFixed]
  · by_cases fixed : activation.frame.hasVarSizedObjects = false ∨ activation.callFrame ≠ none
    · rw [keeps.fixed fixed]
      exact holds.below
    · rw [not_or, not_not] at fixed
      have none : activation.taken = 0 := by
        rw [Activation.taken, fixed.2]
        split <;> rfl
      rw [none]
      exact keeps.allocated

theorem adjust_call_frame (frame : MachineFrameInfo) (opcode : CallFrameOpcode) (amount : Word)
    {scratch : Fin 64} (scavenged : Scavenged frame scratch) (state : MachineState) :
    ∃ moved, run (eliminateCallFramePseudoInstr frame opcode amount scratch) state =
        some (moved, state.2) ∧
      moved.gpr 60 = state.1.gpr 60 ∧ KeepsUnsaved frame state.1 moved ∧
      moved.gpr 61 = state.1.gpr 61 + callFrameMove frame opcode amount := by
  rw [eliminateCallFramePseudoInstr, callFrameMove]
  by_cases moves : amount ≠ 0 ∧ hasReservedCallFrame frame = false
  · rw [if_pos moves, if_pos moves.2]
    rcases adjust_runs (callFrameAmount opcode amount) scavenged.1 state with
      ⟨adjusted, runs, pointer, kept⟩
    refine ⟨adjusted, runs, ?_, ?_, pointer⟩
    · have unscratched : FP_REG ≠ sReg scratch := fun same =>
        scavenged.1 (same ▸ frame_pointer_reserved)
      exact kept FP_REG unscratched (by decide)
    · intro reg unsaved
      exact kept reg (unsaved_ne scavenged.2 unsaved) (unsaved_ne_pointer unsaved)
  · have unmoved : (if hasReservedCallFrame frame = false then callFrameAmount opcode amount
        else 0) = 0 := by
      by_cases unreserved : hasReservedCallFrame frame = false
      · have zero : amount = 0 := by_contra fun nonzero => moves ⟨nonzero, unreserved⟩
        rw [if_pos unreserved, zero]
        cases opcode <;> rfl
      · exact if_neg unreserved
    rw [if_neg moves, unmoved]
    exact ⟨state.1, rfl, rfl, fun reg unsaved => rfl, (BitVec.add_zero _).symm⟩

theorem call_frame_move_eq (frame : MachineFrameInfo) (opcode : CallFrameOpcode) (amount : Word) :
    callFrameMove frame opcode amount =
      if frame.hasVarSizedObjects then callFrameAmount opcode amount else 0 := by
  rw [callFrameMove, hasReservedCallFrame]
  cases frame.hasVarSizedObjects <;> rfl

theorem holds_adjusted {activation : Activation} {registers moved : Registers} {memory : Memory 32}
    (callFrame : Option Word) (holds : Holds activation registers memory)
    (framePointer : moved.gpr 60 = registers.gpr 60)
    (kept : KeepsUnsaved activation.frame registers moved)
    (fixed : activation.frame.hasVarSizedObjects = false → moved.gpr 61 = registers.gpr 61)
    (below : (moved.gpr 61).toNat + (if activation.frame.hasVarSizedObjects then
      (callFrame.getD 0).toNat else 0) ≤ activation.base.toNat) :
    Holds { activation with callFrame := callFrame } moved memory where
  room := holds.room
  framePointer usesFP := framePointer.trans (holds.framePointer usesFP)
  unsaved := holds.unsaved.trans kept
  slots := holds.slots
  fixed isFixed := (fixed isFixed).trans (holds.fixed isFixed)
  below := below

theorem stacked_setup {activation : Activation} {rest : List Activation}
    {state next : MachineState} {amount : Word} {scratch : Fin 64}
    (closed : activation.callFrame = none) (scavenged : Scavenged activation.frame scratch)
    (room : amount.toNat ≤ (state.1.gpr 61).toNat)
    (runs : run (eliminateCallFramePseudoInstr activation.frame .ADJCALLSTACKDOWN amount scratch)
      state = some next)
    (stacked : Stacked (activation :: rest) state.1 state.2) :
    Stacked ({ activation with callFrame := some amount } :: rest) next.1 next.2 := by
  obtain ⟨holds, stackedRest⟩ := stacked
  rcases adjust_call_frame activation.frame .ADJCALLSTACKDOWN amount scavenged state with
    ⟨moved, runsMoved, framePointer, kept, pointer⟩
  rw [runs, Option.some.injEq] at runsMoved
  subst runsMoved
  rw [call_frame_move_eq] at pointer
  refine ⟨holds_adjusted (some amount) holds framePointer kept ?_ ?_, stackedRest⟩
  · intro isFixed
    rw [pointer, isFixed, if_neg (by decide)]
    exact BitVec.add_zero _
  · have below := holds.below
    rw [Activation.taken, closed] at below
    rw [pointer, Option.getD_some]
    split
    case isTrue sized =>
        rw [if_pos sized] at below
        rw [callFrameAmount, ← BitVec.sub_eq_add_neg, BitVec.toNat_sub_of_le room]
        have zero : ((none : Option Word).getD 0).toNat = 0 := rfl
        omega
    case isFalse fixed =>
        have unmoved : state.1.gpr 61 + (0 : Word) = state.1.gpr 61 := BitVec.add_zero _
        rw [if_neg fixed] at below
        rw [unmoved]
        exact below

theorem stacked_destroy {activation : Activation} {rest : List Activation}
    {state next : MachineState} {amount : Word} {scratch : Fin 64}
    (opened : activation.callFrame = some amount) (scavenged : Scavenged activation.frame scratch)
    (runs : run (eliminateCallFramePseudoInstr activation.frame .ADJCALLSTACKUP amount scratch)
      state = some next)
    (stacked : Stacked (activation :: rest) state.1 state.2) :
    Stacked ({ activation with callFrame := none } :: rest) next.1 next.2 := by
  obtain ⟨holds, stackedRest⟩ := stacked
  rcases adjust_call_frame activation.frame .ADJCALLSTACKUP amount scavenged state with
    ⟨moved, runsMoved, framePointer, kept, pointer⟩
  rw [runs, Option.some.injEq] at runsMoved
  subst runsMoved
  rw [call_frame_move_eq] at pointer
  refine ⟨holds_adjusted none holds framePointer kept ?_ ?_, stackedRest⟩
  · intro isFixed
    rw [pointer, isFixed, if_neg (by decide)]
    exact BitVec.add_zero _
  · have below := holds.below
    have small := activation.base.isLt
    rw [Activation.taken, opened, Option.getD_some] at below
    rw [pointer]
    split
    case isTrue sized =>
        rw [if_pos sized] at below
        have zero : ((none : Option Word).getD 0).toNat = 0 := rfl
        rw [callFrameAmount, BitVec.toNat_add]
        omega
    case isFalse fixed =>
        have unmoved : state.1.gpr 61 + (0 : Word) = state.1.gpr 61 := BitVec.add_zero _
        rw [if_neg fixed] at below
        rw [unmoved]
        exact below

theorem stacked_call {caller : Activation} {rest : List Activation} {callee : MachineFunction}
    {state start : MachineState} {returnAddress : Word}
    (saved : RA_REG ∈ caller.frame.savedRegs)
    (room : roundedStackSize callee.frame.toMachineFrameInfo ≤ (state.1.gpr 61).toNat)
    (runs : run callee.prologue (called state returnAddress) = some start)
    (stacked : Stacked (caller :: rest) state.1 state.2) :
    Stacked (⟨callee, called state returnAddress, none⟩ :: caller :: rest) start.1 start.2 := by
  have pointer : (called state returnAddress).1.gpr 61 = state.1.gpr 61 := by
    rw [called, set_gpr_gpr, Function.update_of_ne (by decide)]
  have framePointer : (called state returnAddress).1.gpr 60 = state.1.gpr 60 := by
    rw [called, set_gpr_gpr, Function.update_of_ne (by decide)]
  have atCall : Stacked (caller :: rest) (called state returnAddress).1 state.2 := by
    obtain ⟨holds, stackedRest⟩ := stacked
    refine ⟨⟨holds.room, ?_, ?_, holds.slots, ?_, ?_⟩, stackedRest⟩
    · intro usesFP
      rw [framePointer, holds.framePointer usesFP]
    · intro reg unsaved
      have other : reg ≠ sReg RA_REG.encoding := by
        rintro rfl
        exact unsaved.2 saved
      exact (value_of_set_gpr_other state.1 returnAddress other).trans (holds.unsaved reg unsaved)
    · intro isFixed
      rw [pointer, holds.fixed isFixed]
    · rw [pointer]
      exact holds.below
  rcases prologue_spec callee (called state returnAddress) with
    ⟨reached, runsReached, entered, kept, untouched⟩
  rw [runs, Option.some.injEq] at runsReached
  subst runsReached
  rw [← pointer] at room
  have holds := holds_entered room entered kept
  refine ⟨holds, ?_⟩
  apply stacked_memory ?_ atCall
  intro outer listed cell covered
  -- The slots of the callee end where those of the enclosing functions begin.
  apply untouched
  intro written
  have above := stacked_above atCall outer listed
  have inCallee := in_slot_bounds callee.frame room written
  have inOuter := in_slot_bounds outer.function.frame (stacked_room atCall outer listed) covered
  have atBase : outer.base.toNat ≤ cell.toNat := inOuter.1
  omega

theorem epilogue_spec {activation : Activation} {registers : Registers} {memory : Memory 32}
    (holds : Holds activation registers memory) :
    ∃ exit, run activation.function.epilogue (registers, memory) = some exit ∧
      Agree activation.entry.1 exit.1 ∧ exit.2 = memory := by
  obtain ⟨-, -, isEpilogue⟩ := code_of_emitted activation.function
  rcases epilogue_runs activation.function.frame activation.function.scavenger (registers, memory)
    with ⟨exit, runs, exitPointer, held⟩
  rcases epilogue_leaves activation.function.frame activation.function.scavenger
    (registers, memory) with ⟨left, runsLeft, kept, sameMemory⟩
  rw [runs, Option.some.injEq] at runsLeft
  subst runsLeft
  have pointer : epiloguePointer activation.function.frame.toMachineFrameInfo (registers, memory) =
      activation.base := by
    rw [epiloguePointer]
    split
    case isTrue usesFP => exact holds.framePointer usesFP
    case isFalse noFP =>
        apply holds.fixed
        rw [hasFP, Bool.not_eq_true, Bool.or_eq_false_iff, Bool.or_eq_false_iff] at noFP
        exact noFP.1.2
  rw [pointer] at exitPointer held
  refine ⟨exit, ?_, ⟨?_, ?_⟩, sameMemory⟩
  · rw [isEpilogue]
    exact runs
  · rw [exitPointer]
    exact BitVec.sub_add_cancel _ _
  · intro reg callee
    by_cases saved : reg ∈ activation.frame.savedRegs
    · rw [Activation.frame, ← saved_map_reg] at saved
      rcases List.mem_map.mp saved with ⟨info, known, rfl⟩
      rw [held info known]
      exact holds.slots info known
    · rw [kept reg (unsaved_epilogue_keeps activation.function.pristine ⟨callee, saved⟩)]
      exact holds.unsaved reg ⟨callee, saved⟩

theorem step_sound {config next : Config} (sound : Sound config) (step : Step config next) :
    Sound next := by
  cases step with
  | code keeps => exact stacked_code keeps sound
  | setup closed scavenged room runs => exact stacked_setup closed scavenged room runs sound
  | destroy opened scavenged runs => exact stacked_destroy opened scavenged runs sound
  | call opened saved room runs => exact stacked_call saved room runs sound
  | @ret state exit activation rest closed runs =>
      rcases epilogue_spec sound.1 with ⟨left, runsLeft, agree, sameMemory⟩
      rw [runs, Option.some.injEq] at runsLeft
      subst runsLeft
      have address : exit.1.gpr RA_REG.encoding = activation.entry.1.gpr RA_REG.encoding :=
        agree.2 RA_REG (by decide)
      have stackedRest := stacked_agree agree sound.2
      rw [← sameMemory] at stackedRest
      rw [returned, if_pos address]
      exact stackedRest

theorem steps_sound {config final : Config} (sound : Sound config)
    (steps : Relation.ReflTransGen Step config final) : Sound final := by
  induction steps with
  | refl => exact sound
  | tail _ step induction => exact step_sound induction step

theorem entered_sound {function : MachineFunction} {entry start : MachineState}
    (room : roundedStackSize function.frame.toMachineFrameInfo ≤ (entry.1.gpr 61).toNat)
    (runs : run function.prologue entry = some start) :
    Sound (.running start [⟨function, entry, none⟩]) := by
  rcases prologue_spec function entry with ⟨reached, runsReached, entered, kept, -⟩
  rw [runs, Option.some.injEq] at runsReached
  subst runsReached
  exact ⟨holds_entered room entered kept, trivial⟩

/-- However deep the calls of a program go and in whatever order its functions run, no return
goes astray. The frames of the functions that are active lie one below the other, what their
prologues saved is still there, and a function that returns gives all callee-saved registers,
the return address among them, and the stack pointer back. -/
theorem calls_restored {function : MachineFunction} {entry start : MachineState}
    (room : roundedStackSize function.frame.toMachineFrameInfo ≤ (entry.1.gpr 61).toNat)
    (runs : run function.prologue entry = some start) {config : Config}
    (steps : Relation.ReflTransGen Step (.running start [⟨function, entry, none⟩]) config) :
    ∃ state active, config = .running state active ∧
      (∀ activation ∈ active, ∀ info ∈ calleeSavedInfo activation.frame,
        loadSlot activation.frame state.2 activation.base info =
          valueOf activation.entry.1 info.reg) ∧
      (∀ activation ∈ active, (state.1.gpr 61).toNat ≤ activation.base.toNat) ∧
      (active.Pairwise fun inner outer => (inner.entry.1.gpr 61).toNat ≤ outer.base.toNat) ∧
      ∀ activation rest, active = activation :: rest →
        ∃ exit, run activation.function.epilogue state = some exit ∧
          exit.1.gpr 61 = activation.entry.1.gpr 61 ∧
          (∀ reg ∈ calleeSavedRegs, valueOf exit.1 reg = valueOf activation.entry.1 reg) ∧
          exit.2 = state.2 ∧ returned activation exit rest = .running exit rest := by
  have sound := steps_sound (entered_sound room runs) steps
  cases config with
  | stray => exact absurd sound not_false
  | running state active =>
      refine ⟨state, active, rfl, stacked_slots sound, stacked_above sound,
        stacked_pairwise sound, ?_⟩
      rintro activation rest rfl
      rcases epilogue_spec sound.1 with ⟨exit, runsExit, agree, sameMemory⟩
      have address : exit.1.gpr RA_REG.encoding = activation.entry.1.gpr RA_REG.encoding :=
        agree.2 RA_REG (by decide)
      exact ⟨exit, runsExit, agree.1, agree.2, sameMemory, if_pos address⟩

theorem eighth_unpreserved : sReg 8 ∉ calleeSavedRegs := by decide

/-- A function that calls, with a frame pointer and registers of both classes to save. -/
def callingFunction : MachineFunction where
  frame := mixedFrame
  scavenger := mixedScavenger
  prologue := prologueCode mixedFrame mixedScavenger
  epilogue := epilogueCode mixedFrame mixedScavenger
  emitted := emit_frame_eq mixedFrame mixedScavenger (by decide) (by decide)
  pristine := ⟨by decide, by decide, fun _ callee => absurd callee eighth_unpreserved,
    fun _ callee => absurd callee eighth_unpreserved⟩

def leafFrame : Frame where
  stackSize := 0
  adjustsStack := false
  hasVarSizedObjects := false
  isFrameAddressTaken := false
  disableFramePointerElim := false
  objectIndexEnd := 0
  savedRegs := []
  saved_nodup := by decide
  saved_callee := by decide
  saved_frame_pointer := by decide
  slots_inside := by decide
  stack_size_lt := by decide

def leafScavenger : Scavenger leafFrame where
  spill := fun _ => 8
  reload := fun _ => 8
  prologue := 8
  epilogue := 8
  prologue_free := by decide
  epilogue_free := by decide
  spills_free := trivial
  reloads_free := trivial

def leafFunction : MachineFunction where
  frame := leafFrame
  scavenger := leafScavenger
  prologue := prologueCode leafFrame leafScavenger
  epilogue := epilogueCode leafFrame leafScavenger
  emitted := emit_frame_eq leafFrame leafScavenger (by decide) (by decide)
  pristine := ⟨by decide, by decide, fun _ callee => absurd callee eighth_unpreserved,
    fun _ callee => absurd callee eighth_unpreserved⟩

def callerState : MachineState :=
  (⟨Function.update (fun index => BitVec.ofNat 32 index) 61 0x1000, fun _ => 0⟩, fun _ => 0)

/-- The leaf is called and returns, and then its caller does. -/
theorem leaf_call_restored :
    ∃ start exit, run callingFunction.prologue callerState = some start ∧
      run callingFunction.epilogue (called start 12) = some exit ∧
      exit.1.gpr 61 = 0x1000 ∧ exit.1.gpr 62 = 62 ∧ exit.1.gpr 50 = 50 := by
  rcases prologue_spec callingFunction callerState with ⟨start, runs, -⟩
  let outer : Activation := ⟨callingFunction, callerState, none⟩
  let inner : Activation := ⟨leafFunction, called start 12, none⟩
  have free : Scavenged outer.frame 8 := ⟨by decide, by decide⟩
  have setup : Step (.running start [outer])
      (.running start [{ outer with callFrame := some 0 }]) :=
    Step.setup rfl free (Nat.zero_le _) rfl
  have call : Step (.running start [{ outer with callFrame := some 0 }])
      (.running (called start 12) [inner, { outer with callFrame := some 0 }]) :=
    Step.call (by decide) (by decide) (Nat.zero_le _) rfl
  have back : Step (.running (called start 12) [inner, { outer with callFrame := some 0 }])
      (.running (called start 12) [{ outer with callFrame := some 0 }]) := by
    have goesBack : returned inner (called start 12) [{ outer with callFrame := some 0 }] =
        .running (called start 12) [{ outer with callFrame := some 0 }] := if_pos rfl
    rw [← goesBack]
    exact Step.ret rfl rfl
  have destroy : Step (.running (called start 12) [{ outer with callFrame := some 0 }])
      (.running (called start 12) [outer]) := Step.destroy rfl free rfl
  have room : roundedStackSize callingFunction.frame.toMachineFrameInfo ≤
      (callerState.1.gpr 61).toNat := by decide
  rcases calls_restored room runs ((((Relation.ReflTransGen.single setup).tail call).tail back).tail
    destroy) with ⟨state, active, same, -, -, -, returns⟩
  cases same
  rcases returns outer [] rfl with ⟨exit, runsExit, pointer, saved, -⟩
  exact ⟨start, exit, runs, runsExit, pointer, saved RA_REG (by decide),
    saved (sReg 50) (by decide)⟩

end Invariant

section StackUse

def framesSize : List Activation → Nat
  | [] => 0
  | activation :: rest => roundedStackSize activation.frame + framesSize rest

/-- The function that was entered first, below whose frame all others are. -/
def Rooted (entry : MachineState) : Config → Prop
  | .running _ active => ∀ outermost, (active.map Activation.entry).getLast? = some outermost →
      outermost = entry
  | .stray => True

theorem rooted_step {entry : MachineState} {config next : Config} (rooted : Rooted entry config)
    (step : Step config next) : Rooted entry next := by
  cases step with
  | code keeps => exact rooted
  | setup closed scavenged room runs => exact rooted
  | destroy opened scavenged runs => exact rooted
  | call opened saved room runs =>
      intro outermost last
      rw [List.map_cons, List.map_cons, List.getLast?_cons_cons] at last
      exact rooted outermost last
  | @ret state exit activation rest closed runs =>
      rw [returned]
      split
      case isTrue =>
          intro outermost last
          cases rest with
          | nil => cases last
          | cons caller rest =>
              apply rooted outermost
              rw [List.map_cons, List.map_cons, List.getLast?_cons_cons]
              exact last
      case isFalse => trivial

theorem steps_rooted {entry : MachineState} {config final : Config} (rooted : Rooted entry config)
    (steps : Relation.ReflTransGen Step config final) : Rooted entry final := by
  induction steps with
  | refl => exact rooted
  | tail _ step induction => exact rooted_step induction step

/-- The stack pointer is as far below where it was as the frames are large; further only for
variable-sized objects and the call frames beside them. -/
theorem stacked_depth {active : List Activation} {registers : Registers} {memory : Memory 32}
    (stacked : Stacked active registers memory) {outermost : MachineState}
    (last : (active.map Activation.entry).getLast? = some outermost) :
    (registers.gpr 61).toNat + framesSize active ≤ (outermost.1.gpr 61).toNat ∧
      ((∀ activation ∈ active, activation.frame.hasVarSizedObjects = false) →
        (registers.gpr 61).toNat + framesSize active = (outermost.1.gpr 61).toNat) := by
  induction active generalizing registers with
  | nil => cases last
  | cons activation rest induction =>
      have below := stacked.1.below
      have base := base_to_nat stacked.1.room
      have room := stacked.1.room
      cases rest with
      | nil =>
          rw [List.map_singleton, List.getLast?_singleton, Option.some.injEq] at last
          subst last
          rw [framesSize, framesSize]
          refine ⟨by omega, fun fixed => ?_⟩
          rw [stacked.1.fixed (fixed _ List.mem_cons_self)]
          omega
      | cons caller rest =>
          rw [List.map_cons, List.map_cons, List.getLast?_cons_cons] at last
          obtain ⟨least, most⟩ := induction stacked.2 last
          rw [framesSize]
          refine ⟨by omega, fun fixed => ?_⟩
          rw [List.forall_mem_cons] at fixed
          have further := most fixed.2
          rw [stacked.1.fixed fixed.1]
          omega

theorem frames_size_multiple (active : List Activation) : 64 ∣ framesSize active := by
  induction active with
  | nil => exact Nat.dvd_zero 64
  | cons activation rest induction =>
      exact Nat.dvd_add (Alignment.align_to_dvd activation.frame.stackSize) induction

theorem assign_vector_depth {frameIdx offset : Nat} {regs : List Register} {info : CalleeSavedInfo}
    (member : info ∈ assignCalleeSavedSpillSlots frameIdx offset regs)
    (isVector : info.reg.cls = .VR512W) : 64 ∣ info.depth := by
  induction regs generalizing frameIdx offset with
  | nil => cases member
  | cons reg rest induction =>
      rw [assignCalleeSavedSpillSlots] at member
      rcases List.mem_cons.mp member with rfl | later
      · rw [nextOffset, isVector]
        exact Alignment.align_to_dvd _
      · exact induction later

/-- A function without variable-sized objects that was entered with an aligned stack pointer. -/
theorem holds_aligned {activation : Activation} {registers : Registers} {memory : Memory 32}
    (holds : Holds activation registers memory)
    (fixed : activation.frame.hasVarSizedObjects = false) (aligned : Aligned activation.entry) :
    64 ∣ (registers.gpr 61).toNat ∧
      ∀ info ∈ calleeSavedInfo activation.frame, info.reg.cls = .VR512W →
        64 ∣ (slotAddress activation.frame activation.base info).toNat := by
  have multiple : 64 ∣ roundedStackSize activation.frame :=
    Alignment.align_to_dvd activation.frame.stackSize
  rw [Aligned] at aligned
  constructor
  · rw [holds.fixed fixed, base_to_nat holds.room]
    exact Nat.dvd_sub aligned multiple
  · intro info known isVector
    have depth := assign_vector_depth known isVector
    have deep := depth_le_rounded activation.function.frame known
    have room := holds.room
    have small := (activation.entry.1.gpr 61).isLt
    rw [Activation.frame] at room
    rw [Activation.base, slot_address_eq, BitVec.toNat_sub, BitVec.toNat_ofNat]
    omega

/-- As long as no active function has variable-sized objects. -/
theorem stacked_aligned {active : List Activation} {registers : Registers} {memory : Memory 32}
    (stacked : Stacked active registers memory) {outermost : MachineState}
    (last : (active.map Activation.entry).getLast? = some outermost)
    (fixed : ∀ activation ∈ active, activation.frame.hasVarSizedObjects = false)
    (aligned : Aligned outermost) :
    64 ∣ (registers.gpr 61).toNat ∧ ∀ activation ∈ active, Aligned activation.entry ∧
      ∀ info ∈ calleeSavedInfo activation.frame, info.reg.cls = .VR512W →
        64 ∣ (slotAddress activation.frame activation.base info).toNat := by
  induction active generalizing registers with
  | nil => cases last
  | cons activation rest induction =>
      rw [List.forall_mem_cons] at fixed
      cases rest with
      | nil =>
          rw [List.map_singleton, List.getLast?_singleton, Option.some.injEq] at last
          subst last
          obtain ⟨pointer, slots⟩ := holds_aligned stacked.1 fixed.1 aligned
          exact ⟨pointer, List.forall_mem_cons.mpr ⟨⟨aligned, slots⟩, List.forall_mem_nil _⟩⟩
      | cons caller rest =>
          rw [List.map_cons, List.map_cons, List.getLast?_cons_cons] at last
          obtain ⟨entered, enclosing⟩ := induction stacked.2 last fixed.2
          obtain ⟨pointer, slots⟩ := holds_aligned stacked.1 fixed.1 entered
          exact ⟨pointer, List.forall_mem_cons.mpr ⟨⟨entered, slots⟩, enclosing⟩⟩

/-- In every run the stack holds the rounded frames of the active functions, and nothing else
while none of them has variable-sized objects. Then every function was entered with an aligned
stack pointer, if the first one was, and vector registers are saved at aligned places. -/
theorem stack_use {function : MachineFunction} {entry start : MachineState}
    (room : roundedStackSize function.frame.toMachineFrameInfo ≤ (entry.1.gpr 61).toNat)
    (runs : run function.prologue entry = some start) {state : MachineState}
    {active : List Activation} (nonempty : active ≠ [])
    (steps : Relation.ReflTransGen Step (.running start [⟨function, entry, none⟩])
      (.running state active)) :
    (state.1.gpr 61).toNat + framesSize active ≤ (entry.1.gpr 61).toNat ∧
      ((∀ activation ∈ active, activation.frame.hasVarSizedObjects = false) →
        (state.1.gpr 61).toNat + framesSize active = (entry.1.gpr 61).toNat ∧
        (Aligned entry → Aligned state ∧ ∀ activation ∈ active, Aligned activation.entry ∧
          ∀ info ∈ calleeSavedInfo activation.frame, info.reg.cls = .VR512W →
            64 ∣ (slotAddress activation.frame activation.base info).toNat)) := by
  have initial := entered_sound room runs
  have stacked : Stacked active state.1 state.2 := steps_sound initial steps
  have start : Rooted entry (.running start [⟨function, entry, none⟩]) :=
    fun outermost last => (Option.some.inj last).symm
  have rooted := steps_rooted start steps
  cases last : (active.map Activation.entry).getLast? with
  | none =>
      rw [List.getLast?_eq_none_iff, List.map_eq_nil_iff] at last
      exact absurd last nonempty
  | some outermost =>
      have isEntry := rooted outermost last
      subst isEntry
      obtain ⟨least, most⟩ := stacked_depth stacked last
      exact ⟨least, fun fixed => ⟨most fixed, stacked_aligned stacked last fixed⟩⟩

/-- A function that calls, and saves registers of both classes in three lines of the stack. -/
def fixedFrame : Frame where
  stackSize := 150
  adjustsStack := true
  hasVarSizedObjects := false
  isFrameAddressTaken := false
  disableFramePointerElim := false
  objectIndexEnd := 1
  savedRegs := [sReg 50, RA_REG, vReg 56]
  saved_nodup := by decide
  saved_callee := by decide
  saved_frame_pointer := by decide
  slots_inside := by decide
  stack_size_lt := by decide

def fixedScavenger : Scavenger fixedFrame where
  spill := fun _ => 8
  reload := fun _ => 8
  prologue := 8
  epilogue := 8
  prologue_free := by decide
  epilogue_free := by decide
  spills_free := ⟨by decide, by decide, by decide, by decide, by decide, by decide, trivial⟩
  reloads_free := ⟨by decide, by decide, by decide, by decide, by decide, by decide, trivial⟩

def fixedFunction : MachineFunction where
  frame := fixedFrame
  scavenger := fixedScavenger
  prologue := prologueCode fixedFrame fixedScavenger
  epilogue := epilogueCode fixedFrame fixedScavenger
  emitted := emit_frame_eq fixedFrame fixedScavenger (by decide) (by decide)
  pristine := ⟨by decide, by decide, fun _ callee => absurd callee eighth_unpreserved,
    fun _ callee => absurd callee eighth_unpreserved⟩

theorem leaf_stack_use :
    ∃ start, run fixedFunction.prologue callerState = some start ∧
      ((called start 12).1.gpr 61).toNat + 192 = 0x1000 ∧ Aligned (called start 12) := by
  rcases prologue_spec fixedFunction callerState with ⟨start, runs, -⟩
  let outer : Activation := ⟨fixedFunction, callerState, none⟩
  have setup : Step (.running start [outer])
      (.running start [{ outer with callFrame := some 0 }]) :=
    Step.setup rfl (show Scavenged outer.frame 8 from ⟨by decide, by decide⟩) (Nat.zero_le _) rfl
  have call : Step (.running start [{ outer with callFrame := some 0 }])
      (.running (called start 12)
        [⟨leafFunction, called start 12, none⟩, { outer with callFrame := some 0 }]) :=
    Step.call (by decide) (by decide) (Nat.zero_le _) rfl
  have room : roundedStackSize fixedFunction.frame.toMachineFrameInfo ≤
      (callerState.1.gpr 61).toNat := by decide
  have used := stack_use room runs (List.cons_ne_nil _ _)
    ((Relation.ReflTransGen.single setup).tail call)
  rcases used.2 (List.forall_mem_cons.mpr ⟨rfl, List.forall_mem_cons.mpr
    ⟨rfl, List.forall_mem_nil _⟩⟩) with ⟨most, aligned⟩
  have entryAligned : Aligned callerState := by
    rw [Aligned]
    decide
  have size : framesSize [⟨leafFunction, called start 12, none⟩,
      { outer with callFrame := some 0 }] = 192 := by
    have sizes : roundedStackSize leafFrame.toMachineFrameInfo +
        (roundedStackSize fixedFrame.toMachineFrameInfo + 0) = 192 := by decide
    exact sizes
  rw [size] at most
  exact ⟨start, runs, most, (aligned entryAligned).1⟩

end StackUse

end NaplesPU.CallStack
