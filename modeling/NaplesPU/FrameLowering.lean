import NaplesPU.StackSlots

/-!
Prologue and epilogue. The prologue moves the stack pointer down, lets the generic
code spill the callee-saved registers and sets the frame pointer; the epilogue
undoes this before the return. Between them runs the body, whose call frames move
the stack pointer only where the frame has variable-sized objects. Code past the
prologue is any function of the state that keeps what the frame relies on.
-/

namespace NaplesPU.FrameLowering

open ByteMemory TwosComplement
open RegisterInfo InstrInfo FixupKinds MCCodeEmitter Machine FrameLayout StackSlots

abbrev MachineState := Registers × Memory 32

def run (code : List MCInst) (state : MachineState) : Option MachineState :=
  execStraight code state.1 state.2

/-- The registers that the scavenger gives to the code of a frame. None is reserved, and none
is live where it is used. -/
structure Scavenger (frame : Frame) extends SlotScratch where
  prologue : Fin 64
  epilogue : Fin 64
  prologue_free : sReg prologue ∉ getReservedRegs ∧ sReg prologue ∉ frame.savedRegs
  epilogue_free : sReg epilogue ∉ getReservedRegs ∧ sReg epilogue ∉ frame.savedRegs
  spills_free : SpillsFree spill frame.savedRegs
  reloads_free : ReloadsFree reload frame.savedRegs

section Emission

def loadConstant (reg : Register) (value : Word) : List MCInst :=
  ⟨.moveImm .MOVEIH .SI, [.reg reg, .imm (value.sshiftRight 16).toInt]⟩ ::
    if value &&& 0xffff ≠ 0 then
      [⟨.moveImm .MOVEIL .SI, [.reg reg, .imm (value &&& 0xffff).toInt]⟩]
    else []

def adjustStackPointer (amount : Word) (scratch : Fin 64) : List MCInst :=
  if SignedFits 9 amount.toInt then
    [⟨.arithIntImm .ADD .SSI, [.reg SP_REG, .reg SP_REG, .imm amount.toInt]⟩]
  else
    loadConstant (sReg scratch) amount ++
      [⟨.arithInt .ADD .SSS_32, [.reg SP_REG, .reg SP_REG, .reg (sReg scratch)]⟩]

/-- Negation of an `int`, undefined on the least one. -/
def negateInt (value : Word) : Except FrameError Word :=
  if value = BitVec.intMin 32 then .error .undefined else .ok (-value)

def insertCSRSaves (frame : MachineFrameInfo) : List FrameInst :=
  (calleeSavedInfo frame).map .store

def insertCSRRestores (frame : MachineFrameInfo) : List FrameInst :=
  (calleeSavedInfo frame).reverse.map .load

def setFramePointer (frame : MachineFrameInfo) : List FrameInst :=
  if hasFP frame then [.target ⟨.MOVE_SS_32, [.reg FP_REG, .reg SP_REG]⟩] else []

/-- There is no stack allocation. -/
def Bails (frame : MachineFrameInfo) : Prop :=
  stackSizeInt frame = 0 ∧ frame.adjustsStack = false

instance (frame : MachineFrameInfo) : Decidable (Bails frame) := inferInstanceAs (Decidable (_ ∧ _))

/-- The block begins with the spills: the stack pointer moves before them, the frame pointer is
set after them. -/
def emitPrologue (frame : MachineFrameInfo) (scratch : Fin 64) (block : List FrameInst) :
    Except FrameError (List FrameInst) :=
  if Bails frame then .ok block
  else do
    let amount ← negateInt (stackSizeInt frame)
    let saves := (calleeSavedInfo frame).length
    return (adjustStackPointer amount scratch).map .target ++ block.take saves ++
      setFramePointer frame ++ block.drop saves

/-- The block ends with the reloads and the return: the stack pointer comes back from the frame
pointer before them, and moves up between them and the return. -/
def emitEpilogue (frame : MachineFrameInfo) (scratch : Fin 64) (block : List FrameInst) :
    List FrameInst :=
  let firstReload := block.length - 1 - (calleeSavedInfo frame).length
  let pointed :=
    if hasFP frame then
      block.take firstReload ++ [.target ⟨.MOVE_SS_32, [.reg SP_REG, .reg FP_REG]⟩] ++
        block.drop firstReload
    else block
  if roundedStackSize frame = 0 then pointed
  else
    pointed.take (pointed.length - 1) ++
      (adjustStackPointer (stackSizeInt frame) scratch).map .target ++
      pointed.drop (pointed.length - 1)

def emitFrame (frame : Frame) (scavenger : Scavenger frame) :
    Except FrameError (List MCInst × List MCInst) := do
  let entry ← emitPrologue frame.toMachineFrameInfo scavenger.prologue
    (insertCSRSaves frame.toMachineFrameInfo)
  let exit := emitEpilogue frame.toMachineFrameInfo scavenger.epilogue
    (insertCSRRestores frame.toMachineFrameInfo ++ [.target ⟨.JRET, []⟩])
  let prologue ← replaceFrameIndices frame.toMachineFrameInfo scavenger.toSlotScratch entry
  let epilogue ← replaceFrameIndices frame.toMachineFrameInfo scavenger.toSlotScratch
    (exit.take (exit.length - 1))
  return (prologue, epilogue)

inductive CallFrameOpcode where
  | ADJCALLSTACKDOWN
  | ADJCALLSTACKUP
deriving DecidableEq, Repr

def callFrameAmount (opcode : CallFrameOpcode) (amount : Word) : Word :=
  match opcode with
  | .ADJCALLSTACKDOWN => -amount
  | .ADJCALLSTACKUP => amount

def eliminateCallFramePseudoInstr (frame : MachineFrameInfo) (opcode : CallFrameOpcode)
    (amount : Word) (scratch : Fin 64) : List MCInst :=
  if amount ≠ 0 ∧ hasReservedCallFrame frame = false then
    adjustStackPointer (callFrameAmount opcode amount) scratch
  else []

end Emission

section Body

/-- A call frame that is set up, used and destroyed. Its size is a nonnegative `int`. -/
structure CallSequence where
  amount : Nat
  amount_lt : amount < 2 ^ 31
  inside : MachineState → MachineState
  setupScratch : Fin 64
  destroyScratch : Fin 64
  setup_free : sReg setupScratch ∉ getReservedRegs
  destroy_free : sReg destroyScratch ∉ getReservedRegs

inductive BodyItem where
  | work (code : MachineState → MachineState)
  | call (sequence : CallSequence)

def BodyItem.code : BodyItem → MachineState → MachineState
  | .work code => code
  | .call sequence => sequence.inside

def runSetup (frame : MachineFrameInfo) (sequence : CallSequence) (state : MachineState) :
    Option MachineState :=
  run (eliminateCallFramePseudoInstr frame .ADJCALLSTACKDOWN (BitVec.ofNat 32 sequence.amount)
    sequence.setupScratch) state

def runDestroy (frame : MachineFrameInfo) (sequence : CallSequence) (state : MachineState) :
    Option MachineState :=
  run (eliminateCallFramePseudoInstr frame .ADJCALLSTACKUP (BitVec.ofNat 32 sequence.amount)
    sequence.destroyScratch) state

def runItem (frame : MachineFrameInfo) : BodyItem → MachineState → Option MachineState
  | .work code, state => some (code state)
  | .call sequence, state =>
      (runSetup frame sequence state).bind fun ready =>
        runDestroy frame sequence (sequence.inside ready)

def runBody (frame : MachineFrameInfo) : List BodyItem → MachineState → Option MachineState
  | [], state => some state
  | item :: rest, state => (runItem frame item state).bind (runBody frame rest)

/-- What the frame relies on: the frame pointer, the callee-saved slots below the given stack
pointer, and, without variable-sized objects, the stack pointer. -/
structure Kept (frame : MachineFrameInfo) (base : Word) (before after : MachineState) : Prop where
  framePointer : after.1.gpr 60 = before.1.gpr 60
  stackPointer : frame.hasVarSizedObjects = false → after.1.gpr 61 = before.1.gpr 61
  slots : ∀ info ∈ calleeSavedInfo frame,
    loadSlot frame after.2 base info = loadSlot frame before.2 base info

def Keeps (frame : MachineFrameInfo) (base : Word) (item : BodyItem) : Prop :=
  ∀ state, Kept frame base state (item.code state)

def Aligned (state : MachineState) : Prop := 64 ∣ (state.1.gpr 61).toNat

/-- Dynamic allocation rounds sizes up to the stack alignment, so code that has variable-sized
objects moves the stack pointer by multiples of it. -/
def MovesAligned (frame : MachineFrameInfo) (item : BodyItem) : Prop :=
  frame.hasVarSizedObjects = true →
    ∀ state, ((item.code state).1.gpr 61).toNat % 64 = (state.1.gpr 61).toNat % 64

/-- Every call frame of the body whose size is a multiple of the alignment leaves the stack
pointer aligned, after its setup and after its destruction. -/
def CallsAligned (frame : MachineFrameInfo) (body : List BodyItem) (start : MachineState) : Prop :=
  ∀ before sequence after, body = before ++ .call sequence :: after → 64 ∣ sequence.amount →
    ∃ reached ready left, runBody frame before start = some reached ∧
      runSetup frame sequence reached = some ready ∧ Aligned ready ∧
      runItem frame (.call sequence) reached = some left ∧ Aligned left

end Body

/-- The code of the frame gives the caller its registers back, around every body and from every
state, and keeps the stack pointer aligned. -/
def RestoresFrame (frame : Frame) (scavenger : Scavenger frame) : Prop :=
  ∃ prologue epilogue, emitFrame frame scavenger = .ok (prologue, epilogue) ∧
    ∀ entry, ∃ start, run prologue entry = some start ∧ (Aligned entry → Aligned start) ∧
      ∀ body, (∀ item ∈ body, Keeps frame.toMachineFrameInfo (start.1.gpr 61) item) →
        ∃ finish exit, runBody frame.toMachineFrameInfo body start = some finish ∧
          run epilogue finish = some exit ∧ exit.1.gpr 61 = entry.1.gpr 61 ∧
          (∀ reg ∈ frame.savedRegs, valueOf exit.1 reg = valueOf entry.1 reg) ∧
          (Aligned entry → (∀ item ∈ body, MovesAligned frame.toMachineFrameInfo item) →
            CallsAligned frame.toMachineFrameInfo body start)

section StackPointer

theorem run_append (first second : List MCInst) (state : MachineState) :
    run (first ++ second) state = (run first state).bind (run second) :=
  exec_straight_append first second state.1 state.2

/-- A reserved call frame is the only one without a frame pointer, as the adjustment asserts. -/
theorem frame_pointer_of_unreserved_call_frame {frame : MachineFrameInfo}
    (unreserved : hasReservedCallFrame frame = false) : hasFP frame = true := by
  rw [hasReservedCallFrame, Bool.not_eq_false'] at unreserved
  rw [hasFP, unreserved, Bool.or_true, Bool.true_or]

theorem load_constant_runs (value : Word) (scratch : Fin 64) (registers : Registers)
    (memory : Memory 32) (rest : List MCInst) :
    execStraight (loadConstant (sReg scratch) value ++ rest) registers memory =
      execStraight rest (registers.setGpr scratch value) memory := by
  rw [loadConstant]
  by_cases lowZero : value &&& 0xffff = 0
  · rw [if_neg (not_not_intro lowZero), List.cons_append, List.nil_append,
      exec_straight_cons (exec_move_high registers memory scratch _), shifted_high_half,
      high_half_alone lowZero]
  · rw [if_pos lowZero]
    exact load_halves_runs registers memory scratch (shifted_high_half value)
      (low_half_of_word value) rest

theorem adjust_runs (amount : Word) {scratch : Fin 64} (free : sReg scratch ∉ getReservedRegs)
    (state : MachineState) :
    ∃ adjusted, run (adjustStackPointer amount scratch) state = some (adjusted, state.2) ∧
      adjusted.gpr 61 = state.1.gpr 61 + amount ∧
      ∀ reg, reg ≠ sReg scratch → reg ≠ SP_REG → valueOf adjusted reg = valueOf state.1 reg := by
  have pointerFree := ne_of_unreserved stack_pointer_reserved free
  have added : alu .ADD = some fun left right => left + right := rfl
  rw [adjustStackPointer]
  by_cases near : SignedFits 9 amount.toInt
  · rw [if_pos near]
    refine ⟨state.1.setGpr 61 (state.1.gpr 61 + amount), ?_, ?_, ?_⟩
    · have executed := exec_arith_imm state.1 state.2 added 61 61 near
      rw [BitVec.ofInt_toInt] at executed
      exact exec_straight_cons executed []
    · rw [set_gpr_gpr, Function.update_self]
    · intro reg unscratched different
      exact value_of_set_gpr_other state.1 _ different
  · rw [if_neg near]
    have pointer : (state.1.setGpr scratch amount).gpr 61 = state.1.gpr 61 := by
      rw [set_gpr_gpr, Function.update_of_ne pointerFree.symm]
    have loaded : (state.1.setGpr scratch amount).gpr scratch = amount := by
      rw [set_gpr_gpr, Function.update_self]
    refine ⟨(state.1.setGpr scratch amount).setGpr 61 (state.1.gpr 61 + amount), ?_, ?_, ?_⟩
    · have executed := exec_arith (state.1.setGpr scratch amount) state.2 added 61 61 scratch
      rw [pointer, loaded] at executed
      rw [run, load_constant_runs]
      exact exec_straight_cons executed []
    · rw [set_gpr_gpr, Function.update_self]
    · intro reg unscratched different
      exact (value_of_set_gpr_other _ _ different).trans
        (value_of_set_gpr_other state.1 amount unscratched)

end StackPointer

section EmittedCode

def SlotsInReach (frame : MachineFrameInfo) : Prop :=
  ∀ info ∈ calleeSavedInfo frame, SignedFits 25 (slotOffset frame info)

instance (frame : MachineFrameInfo) : Decidable (SlotsInReach frame) :=
  inferInstanceAs (Decidable (∀ info ∈ calleeSavedInfo frame, _))

def prologueInsts (frame : MachineFrameInfo) (scratch : Fin 64) : List FrameInst :=
  if Bails frame then insertCSRSaves frame
  else
    (adjustStackPointer (-stackSizeInt frame) scratch).map .target ++ insertCSRSaves frame ++
      setFramePointer frame

def restoreStackPointer (frame : MachineFrameInfo) : List FrameInst :=
  if hasFP frame then [.target ⟨.MOVE_SS_32, [.reg SP_REG, .reg FP_REG]⟩] else []

def epilogueInsts (frame : MachineFrameInfo) (scratch : Fin 64) : List FrameInst :=
  restoreStackPointer frame ++ insertCSRRestores frame ++
    if roundedStackSize frame = 0 then []
    else (adjustStackPointer (stackSizeInt frame) scratch).map .target

theorem emit_prologue_eq (frame : MachineFrameInfo) (scratch : Fin 64) (rest : List FrameInst)
    (defined : stackSizeInt frame ≠ BitVec.intMin 32) :
    emitPrologue frame scratch (insertCSRSaves frame ++ rest) =
      .ok (prologueInsts frame scratch ++ rest) := by
  have length : (insertCSRSaves frame).length = (calleeSavedInfo frame).length := List.length_map _
  rw [emitPrologue, prologueInsts]
  by_cases bails : Bails frame
  · rw [if_pos bails, if_pos bails]
  · rw [if_neg bails, if_neg bails, negateInt, if_neg defined, ← length]
    simp only [List.take_left, List.drop_left, List.append_assoc]
    rfl

theorem emit_epilogue_eq (frame : MachineFrameInfo) (scratch : Fin 64)
    (before : List FrameInst) (ret : FrameInst) :
    emitEpilogue frame scratch (before ++ insertCSRRestores frame ++ [ret]) =
      before ++ epilogueInsts frame scratch ++ [ret] := by
  have length : (insertCSRRestores frame).length = (calleeSavedInfo frame).length := by
    rw [insertCSRRestores, List.length_map, List.length_reverse]
  have firstReload : (before ++ insertCSRRestores frame ++ [ret]).length - 1 -
      (calleeSavedInfo frame).length = before.length := by
    rw [List.length_append, List.length_append, List.length_singleton, length]
    omega
  have pointed : (if hasFP frame then
        (before ++ insertCSRRestores frame ++ [ret]).take before.length ++
          [.target ⟨.MOVE_SS_32, [.reg SP_REG, .reg FP_REG]⟩] ++
          (before ++ insertCSRRestores frame ++ [ret]).drop before.length
      else before ++ insertCSRRestores frame ++ [ret]) =
      (before ++ restoreStackPointer frame ++ insertCSRRestores frame) ++ [ret] := by
    rw [restoreStackPointer]
    split
    · rw [List.append_assoc before (insertCSRRestores frame), List.take_left, List.drop_left,
        List.append_assoc (before ++ _)]
    · rw [List.append_nil]
  rw [emitEpilogue, firstReload]
  simp only [pointed]
  rw [epilogueInsts]
  split
  · simp only [List.append_assoc, List.append_nil]
  · have last : ((before ++ restoreStackPointer frame ++ insertCSRRestores frame) ++ [ret]).length -
        1 = (before ++ restoreStackPointer frame ++ insertCSRRestores frame).length := by
      rw [List.length_append, List.length_singleton, Nat.add_sub_cancel]
    rw [last, List.take_left, List.drop_left]
    simp only [List.append_assoc]

theorem targets_in_reach (frame : MachineFrameInfo) (insts : List MCInst) :
    ∀ inst ∈ insts.map FrameInst.target, InReach frame inst := by
  intro inst member
  rcases List.mem_map.mp member with ⟨target, known, rfl⟩
  trivial

theorem saves_in_reach_iff (frame : MachineFrameInfo) :
    (∀ inst ∈ insertCSRSaves frame, InReach frame inst) ↔ SlotsInReach frame :=
  List.forall_mem_map

theorem restores_in_reach (frame : MachineFrameInfo) (reached : SlotsInReach frame) :
    ∀ inst ∈ insertCSRRestores frame, InReach frame inst := by
  intro inst member
  rcases List.mem_map.mp member with ⟨info, known, rfl⟩
  exact reached info (List.mem_reverse.mp known)

theorem prologue_in_reach_iff (frame : MachineFrameInfo) (scratch : Fin 64) :
    (∀ inst ∈ prologueInsts frame scratch, InReach frame inst) ↔ SlotsInReach frame := by
  rw [← saves_in_reach_iff, prologueInsts]
  split
  · exact Iff.rfl
  · have pointer : ∀ inst ∈ setFramePointer frame, InReach frame inst := by
      rw [setFramePointer]
      split
      · exact targets_in_reach frame [_]
      · exact targets_in_reach frame []
    rw [List.forall_mem_append, List.forall_mem_append]
    exact ⟨fun all => all.1.2, fun all => ⟨⟨targets_in_reach frame _, all⟩, pointer⟩⟩

theorem epilogue_in_reach (frame : MachineFrameInfo) (scratch : Fin 64)
    (reached : SlotsInReach frame) : ∀ inst ∈ epilogueInsts frame scratch, InReach frame inst := by
  have pointer : ∀ inst ∈ restoreStackPointer frame, InReach frame inst := by
    rw [restoreStackPointer]
    split
    · exact targets_in_reach frame [_]
    · exact targets_in_reach frame []
  have adjusted : ∀ inst ∈ (if roundedStackSize frame = 0 then []
      else (adjustStackPointer (stackSizeInt frame) scratch).map .target), InReach frame inst := by
    split
    · exact targets_in_reach frame []
    · exact targets_in_reach frame _
  rw [epilogueInsts, List.forall_mem_append, List.forall_mem_append]
  exact ⟨⟨pointer, restores_in_reach frame reached⟩, adjusted⟩

variable (frame : Frame) (scavenger : Scavenger frame)

def prologueCode : List MCInst :=
  (prologueInsts frame.toMachineFrameInfo scavenger.prologue).flatMap
    (instCode frame.toMachineFrameInfo scavenger.toSlotScratch)

def epilogueCode : List MCInst :=
  (epilogueInsts frame.toMachineFrameInfo scavenger.epilogue).flatMap
    (instCode frame.toMachineFrameInfo scavenger.toSlotScratch)

theorem emit_frame_eq (defined : stackSizeInt frame.toMachineFrameInfo ≠ BitVec.intMin 32)
    (reached : SlotsInReach frame.toMachineFrameInfo) :
    emitFrame frame scavenger = .ok (prologueCode frame scavenger, epilogueCode frame scavenger) := by
  have entry := emit_prologue_eq frame.toMachineFrameInfo scavenger.prologue [] defined
  have exit := emit_epilogue_eq frame.toMachineFrameInfo scavenger.epilogue [] (.target ⟨.JRET, []⟩)
  rw [List.append_nil, List.append_nil] at entry
  rw [List.nil_append, List.nil_append] at exit
  rw [emitFrame, entry, exit]
  simp only [bind, Except.bind]
  rw [replace_of_in_reach _ ((prologue_in_reach_iff _ _).mpr reached), List.length_append,
    List.length_singleton, Nat.add_sub_cancel, List.take_left,
    replace_of_in_reach _ (epilogue_in_reach _ _ reached)]
  rfl

theorem emit_frame_too_large (defined : stackSizeInt frame.toMachineFrameInfo ≠ BitVec.intMin 32)
    (missed : ¬ SlotsInReach frame.toMachineFrameInfo) :
    emitFrame frame scavenger = .error .frameTooLarge := by
  have entry := emit_prologue_eq frame.toMachineFrameInfo scavenger.prologue [] defined
  have unreached := fun all => missed
    ((prologue_in_reach_iff frame.toMachineFrameInfo scavenger.prologue).mp all)
  rw [List.append_nil, List.append_nil] at entry
  rw [emitFrame, entry]
  simp only [bind, Except.bind]
  rw [replace_of_out_of_reach _ unreached]

theorem emit_frame_undefined (overflows : stackSizeInt frame.toMachineFrameInfo = BitVec.intMin 32) :
    emitFrame frame scavenger = .error .undefined := by
  have moved : ¬ Bails frame.toMachineFrameInfo := by
    rintro ⟨zero, -⟩
    rw [overflows] at zero
    revert zero
    decide
  rw [emitFrame, emitPrologue, if_neg moved, negateInt, if_pos overflows]
  rfl

end EmittedCode

section EmittedRuns

theorem target_code (frame : MachineFrameInfo) (scratch : SlotScratch) (insts : List MCInst) :
    (insts.map FrameInst.target).flatMap (instCode frame scratch) = insts := by
  rw [List.flatMap_map]
  exact List.flatMap_singleton' insts

theorem move_runs (dst src : Fin 64) (state : MachineState) :
    run [⟨.MOVE_SS_32, [.reg (sReg dst), .reg (sReg src)]⟩] state =
      some (state.1.setGpr dst (state.1.gpr src), state.2) :=
  exec_straight_cons (exec_move state.1 state.2 dst src) []

/-- The state after the prologue: what the body and the epilogue rely on. -/
structure Entered (frame : MachineFrameInfo) (entry start : MachineState) : Prop where
  stackPointer : start.1.gpr 61 = entry.1.gpr 61 - stackSizeInt frame
  slots : ∀ info ∈ calleeSavedInfo frame,
    loadSlot frame start.2 (start.1.gpr 61) info = valueOf entry.1 info.reg
  framePointer : ¬ Bails frame → hasFP frame = true → start.1.gpr 60 = start.1.gpr 61
  bailed : Bails frame → start.1.gpr 60 = entry.1.gpr 60

variable (frame : Frame) (scavenger : Scavenger frame)

theorem frame_pointer_reserved : FP_REG ∈ getReservedRegs := by decide

theorem stack_pointer_unsaved : SP_REG ∉ frame.savedRegs := by
  intro saved
  have callee := frame.saved_callee SP_REG saved
  revert callee
  decide

theorem saves_run (entry : MachineState) :
    ∃ spilled, run ((insertCSRSaves frame.toMachineFrameInfo).flatMap
        (instCode frame.toMachineFrameInfo scavenger.toSlotScratch)) entry = some spilled ∧
      (∀ reg ∈ getReservedRegs, valueOf spilled.1 reg = valueOf entry.1 reg) ∧
      ∀ info ∈ calleeSavedInfo frame.toMachineFrameInfo,
        loadSlot frame.toMachineFrameInfo spilled.2 (entry.1.gpr 61) info =
          valueOf entry.1 info.reg := by
  have free : SpillsFree scavenger.spill
      ((calleeSavedInfo frame.toMachineFrameInfo).map CalleeSavedInfo.reg) := by
    rw [saved_map_reg]
    exact scavenger.spills_free
  rcases spills_run frame entry.1 entry.2 scavenger.toSlotScratch (fun info known => known)
    (assign_pairwise _ _ _) free with ⟨spilled, stored, runs, kept, held, -⟩
  exact ⟨(spilled, stored), runs, kept, held⟩

theorem set_pointer_runs (state : MachineState) :
    ∃ pointed, run ((setFramePointer frame.toMachineFrameInfo).flatMap
        (instCode frame.toMachineFrameInfo scavenger.toSlotScratch)) state =
          some (pointed, state.2) ∧
      pointed.gpr 61 = state.1.gpr 61 ∧
      (hasFP frame.toMachineFrameInfo = true → pointed.gpr 60 = pointed.gpr 61) := by
  rw [setFramePointer]
  split
  case isTrue usesFP =>
      have pointer : (state.1.setGpr 60 (state.1.gpr 61)).gpr 61 = state.1.gpr 61 := by
        rw [set_gpr_gpr, Function.update_of_ne (by decide)]
      refine ⟨state.1.setGpr 60 (state.1.gpr 61), move_runs 60 61 state, pointer, ?_⟩
      intro _
      rw [pointer, set_gpr_gpr, Function.update_self]
  case isFalse noFP => exact ⟨state.1, rfl, rfl, fun usesFP => absurd usesFP noFP⟩

theorem bailed_prologue_runs (bails : Bails frame.toMachineFrameInfo) (entry : MachineState) :
    ∃ start, run (prologueCode frame scavenger) entry = some start ∧
      Entered frame.toMachineFrameInfo entry start := by
  rcases saves_run frame scavenger entry with ⟨start, runs, kept, held⟩
  have pointer : start.1.gpr 61 = entry.1.gpr 61 := kept SP_REG stack_pointer_reserved
  rw [prologueCode, prologueInsts, if_pos bails]
  refine ⟨start, runs, ⟨?_, ?_, fun moved => absurd bails moved, ?_⟩⟩
  · rw [pointer, bails.1]
    exact (BitVec.sub_zero _).symm
  · rw [pointer]
    exact held
  · intro _
    exact kept FP_REG frame_pointer_reserved

theorem prologue_runs (entry : MachineState) :
    ∃ start, run (prologueCode frame scavenger) entry = some start ∧
      Entered frame.toMachineFrameInfo entry start := by
  by_cases bails : Bails frame.toMachineFrameInfo
  · exact bailed_prologue_runs frame scavenger bails entry
  · rcases adjust_runs (-stackSizeInt frame.toMachineFrameInfo) scavenger.prologue_free.1 entry with
      ⟨adjusted, runsAdjust, adjustedPointer, keptAdjust⟩
    rcases saves_run frame scavenger (adjusted, entry.2) with ⟨spilled, runsSaves, kept, held⟩
    rcases set_pointer_runs frame scavenger spilled with ⟨pointed, runsSet, pointer, framePointer⟩
    have spilledPointer : spilled.1.gpr 61 = adjusted.gpr 61 := kept SP_REG stack_pointer_reserved
    rw [spilledPointer] at pointer
    refine ⟨(pointed, spilled.2), ?_, ⟨?_, ?_, fun _ => framePointer, fun bailed =>
      absurd bailed bails⟩⟩
    · rw [prologueCode, prologueInsts, if_neg bails, List.flatMap_append, List.flatMap_append,
        target_code, run_append, run_append, runsAdjust, Option.bind_some, runsSaves,
        Option.bind_some]
      exact runsSet
    · rw [pointer, adjustedPointer, BitVec.sub_eq_add_neg]
    · intro info known
      have saved := saved_of_info frame known
      rw [pointer, held info known]
      apply keptAdjust
      · intro same
        exact scavenger.prologue_free.2 (same ▸ saved)
      · intro same
        exact stack_pointer_unsaved frame (same ▸ saved)

def epiloguePointer (frame : MachineFrameInfo) (finish : MachineState) : Word :=
  if hasFP frame then finish.1.gpr 60 else finish.1.gpr 61

theorem restore_pointer_runs (finish : MachineState) :
    ∃ ready, run ((restoreStackPointer frame.toMachineFrameInfo).flatMap
        (instCode frame.toMachineFrameInfo scavenger.toSlotScratch)) finish =
          some (ready, finish.2) ∧
      ready.gpr 61 = epiloguePointer frame.toMachineFrameInfo finish := by
  rw [restoreStackPointer, epiloguePointer]
  split
  · refine ⟨finish.1.setGpr 61 (finish.1.gpr 60), move_runs 61 60 finish, ?_⟩
    rw [set_gpr_gpr, Function.update_self]
  · exact ⟨finish.1, rfl, rfl⟩

theorem restores_run (ready : MachineState) :
    ∃ restored, run ((insertCSRRestores frame.toMachineFrameInfo).flatMap
        (instCode frame.toMachineFrameInfo scavenger.toSlotScratch)) ready =
          some (restored, ready.2) ∧
      restored.gpr 61 = ready.1.gpr 61 ∧
      ∀ info ∈ calleeSavedInfo frame.toMachineFrameInfo, valueOf restored info.reg =
        loadSlot frame.toMachineFrameInfo ready.2 (ready.1.gpr 61) info := by
  have distinct := frame.saved_nodup
  have unsaved := stack_pointer_unsaved frame
  have free := scavenger.reloads_free
  rw [← saved_map_reg] at distinct unsaved free
  exact reloads_run frame ready.1 ready.2 scavenger.toSlotScratch (fun info known => known) distinct
    unsaved free

theorem final_adjust_runs (restored : MachineState) :
    ∃ left, run ((if roundedStackSize frame.toMachineFrameInfo = 0 then []
        else (adjustStackPointer (stackSizeInt frame.toMachineFrameInfo) scavenger.epilogue).map
          FrameInst.target).flatMap (instCode frame.toMachineFrameInfo scavenger.toSlotScratch))
          restored = some left ∧
      left.1.gpr 61 = restored.1.gpr 61 + stackSizeInt frame.toMachineFrameInfo ∧
      ∀ reg ∈ frame.savedRegs, valueOf left.1 reg = valueOf restored.1 reg := by
  split
  case isTrue empty =>
      have zero : stackSizeInt frame.toMachineFrameInfo = 0 := by
        rw [stackSizeInt, empty]
        rfl
      refine ⟨restored, rfl, ?_, fun reg saved => rfl⟩
      rw [zero]
      exact (BitVec.add_zero _).symm
  case isFalse =>
      rcases adjust_runs (stackSizeInt frame.toMachineFrameInfo) scavenger.epilogue_free.1 restored
        with ⟨adjusted, runs, pointer, kept⟩
      rw [target_code]
      refine ⟨(adjusted, restored.2), runs, pointer, ?_⟩
      intro reg saved
      apply kept
      · intro same
        exact scavenger.epilogue_free.2 (same ▸ saved)
      · intro same
        exact stack_pointer_unsaved frame (same ▸ saved)

theorem epilogue_runs (finish : MachineState) :
    ∃ exit, run (epilogueCode frame scavenger) finish = some exit ∧
      exit.1.gpr 61 = epiloguePointer frame.toMachineFrameInfo finish +
        stackSizeInt frame.toMachineFrameInfo ∧
      ∀ info ∈ calleeSavedInfo frame.toMachineFrameInfo, valueOf exit.1 info.reg =
        loadSlot frame.toMachineFrameInfo finish.2
          (epiloguePointer frame.toMachineFrameInfo finish) info := by
  rcases restore_pointer_runs frame scavenger finish with ⟨ready, runsReady, pointer⟩
  rcases restores_run frame scavenger (ready, finish.2) with
    ⟨restored, runsRestores, restoredPointer, held⟩
  rcases final_adjust_runs frame scavenger (restored, finish.2) with
    ⟨exit, runsAdjust, exitPointer, kept⟩
  refine ⟨exit, ?_, ?_, ?_⟩
  · rw [epilogueCode, epilogueInsts, List.flatMap_append, List.flatMap_append, run_append,
      run_append, runsReady, Option.bind_some, runsRestores, Option.bind_some]
    exact runsAdjust
  · rw [exitPointer, restoredPointer, pointer]
  · intro info known
    rw [kept info.reg (saved_of_info frame known), held info known, pointer]

end EmittedRuns

section BodyRuns

variable {frame : MachineFrameInfo}

theorem Kept.trans {base : Word} {first second third : MachineState}
    (left : Kept frame base first second) (right : Kept frame base second third) :
    Kept frame base first third where
  framePointer := right.framePointer.trans left.framePointer
  stackPointer fixed := (right.stackPointer fixed).trans (left.stackPointer fixed)
  slots info known := (right.slots info known).trans (left.slots info known)

def callFrameMove (frame : MachineFrameInfo) (opcode : CallFrameOpcode) (amount : Word) : Word :=
  if hasReservedCallFrame frame = false then callFrameAmount opcode amount else 0

theorem call_frame_runs (frame : MachineFrameInfo) (opcode : CallFrameOpcode) (amount : Word)
    {scratch : Fin 64} (free : sReg scratch ∉ getReservedRegs) (base : Word) (state : MachineState) :
    ∃ moved, run (eliminateCallFramePseudoInstr frame opcode amount scratch) state = some moved ∧
      moved.1.gpr 61 = state.1.gpr 61 + callFrameMove frame opcode amount ∧
      Kept frame base state moved := by
  rw [eliminateCallFramePseudoInstr, callFrameMove]
  by_cases unreserved : hasReservedCallFrame frame = false
  · by_cases zero : amount = 0
    · have unmoved : callFrameAmount opcode amount = 0 := by
        subst zero
        cases opcode <;> rfl
      rw [if_neg fun both => both.1 zero, if_pos unreserved, unmoved]
      exact ⟨state, rfl, (BitVec.add_zero _).symm, ⟨rfl, fun _ => rfl, fun info known => rfl⟩⟩
    · rw [if_pos ⟨zero, unreserved⟩, if_pos unreserved]
      rcases adjust_runs (callFrameAmount opcode amount) free state with
        ⟨adjusted, runs, pointer, kept⟩
      have unscratched : FP_REG ≠ sReg scratch := by
        intro same
        exact free (same ▸ frame_pointer_reserved)
      refine ⟨(adjusted, state.2), runs, pointer, ⟨?_, ?_, fun info known => rfl⟩⟩
      · exact kept FP_REG unscratched (by decide)
      · intro fixed
        rw [hasReservedCallFrame, fixed] at unreserved
        cases unreserved
  · rw [if_neg fun both => unreserved both.2, if_neg unreserved]
    exact ⟨state, rfl, (BitVec.add_zero _).symm, ⟨rfl, fun _ => rfl, fun info known => rfl⟩⟩

theorem item_runs {base : Word} {item : BodyItem} (keeps : Keeps frame base item)
    (state : MachineState) :
    ∃ next, runItem frame item state = some next ∧ Kept frame base state next := by
  cases item with
  | work code => exact ⟨code state, rfl, keeps state⟩
  | call sequence =>
      rcases call_frame_runs frame .ADJCALLSTACKDOWN (BitVec.ofNat 32 sequence.amount)
        sequence.setup_free base state with ⟨ready, runsSetup, -, keptSetup⟩
      rcases call_frame_runs frame .ADJCALLSTACKUP (BitVec.ofNat 32 sequence.amount)
        sequence.destroy_free base (sequence.inside ready) with ⟨left, runsDestroy, -, keptDestroy⟩
      refine ⟨left, ?_, (keptSetup.trans (keeps ready)).trans keptDestroy⟩
      exact (congrArg (Option.bind · _) runsSetup).trans runsDestroy

theorem body_runs {base : Word} {body : List BodyItem}
    (keeps : ∀ item ∈ body, Keeps frame base item) (state : MachineState) :
    ∃ finish, runBody frame body state = some finish ∧ Kept frame base state finish := by
  induction body generalizing state with
  | nil => exact ⟨state, rfl, ⟨rfl, fun _ => rfl, fun info known => rfl⟩⟩
  | cons item rest induction =>
      rcases item_runs (keeps item List.mem_cons_self) state with ⟨next, runsItem, keptItem⟩
      rcases induction (fun later inRest => keeps later (List.mem_cons_of_mem item inRest)) next with
        ⟨finish, runsRest, keptRest⟩
      refine ⟨finish, ?_, keptItem.trans keptRest⟩
      rw [runBody, runsItem, Option.bind_some]
      exact runsRest

end BodyRuns

section Alignment

variable {frame : MachineFrameInfo}

theorem stack_size_multiple (frame : MachineFrameInfo) : 64 ∣ (stackSizeInt frame).toNat := by
  have rounded : 64 ∣ roundedStackSize frame := Alignment.align_to_dvd frame.stackSize
  rw [stackSizeInt, BitVec.toNat_ofNat]
  omega

theorem entered_aligned {entry start : MachineState} (entered : Entered frame entry start)
    (aligned : Aligned entry) : Aligned start := by
  have multiple := stack_size_multiple frame
  rw [Aligned] at aligned ⊢
  rw [entered.stackPointer, BitVec.toNat_sub]
  omega

/-- Items move the stack pointer by multiples of the alignment: a call frame, whatever its size,
takes back what it took. -/
theorem item_aligned {base : Word} {item : BodyItem} (keeps : Keeps frame base item)
    (moves : MovesAligned frame item) {state next : MachineState} (aligned : Aligned state)
    (runs : runItem frame item state = some next) : Aligned next := by
  have residue (before : MachineState) :
      ((item.code before).1.gpr 61).toNat % 64 = (before.1.gpr 61).toNat % 64 := by
    by_cases fixed : frame.hasVarSizedObjects = false
    · rw [(keeps before).stackPointer fixed]
    · exact moves (Bool.eq_true_of_not_eq_false fixed) before
  cases item with
  | work code =>
      cases runs
      rw [Aligned, Nat.dvd_iff_mod_eq_zero] at aligned ⊢
      exact (residue state).trans aligned
  | call sequence =>
      rcases call_frame_runs frame .ADJCALLSTACKDOWN (BitVec.ofNat 32 sequence.amount)
        sequence.setup_free base state with ⟨ready, runsSetup, setupPointer, -⟩
      rcases call_frame_runs frame .ADJCALLSTACKUP (BitVec.ofNat 32 sequence.amount)
        sequence.destroy_free base (sequence.inside ready) with ⟨left, runsDestroy, leftPointer, -⟩
      have composed : runItem frame (.call sequence) state = some left :=
        (congrArg (Option.bind · _) runsSetup).trans runsDestroy
      rw [composed] at runs
      cases runs
      have inside : ((sequence.inside ready).1.gpr 61).toNat % 64 = (ready.1.gpr 61).toNat % 64 :=
        residue ready
      rw [setupPointer] at inside
      rw [Aligned, Nat.dvd_iff_mod_eq_zero] at aligned ⊢
      rw [leftPointer, callFrameMove]
      rw [callFrameMove] at inside
      split at inside
      case isTrue unreserved =>
          rw [if_pos unreserved, callFrameAmount, BitVec.toNat_add]
          rw [callFrameAmount, BitVec.toNat_add, BitVec.toNat_neg] at inside
          omega
      case isFalse reserved =>
          have zero : (0 : Word).toNat = 0 := rfl
          rw [if_neg reserved, BitVec.toNat_add]
          rw [BitVec.toNat_add] at inside
          omega

theorem body_aligned {base : Word} {body : List BodyItem}
    (keeps : ∀ item ∈ body, Keeps frame base item) (moves : ∀ item ∈ body, MovesAligned frame item)
    {state finish : MachineState} (aligned : Aligned state)
    (runs : runBody frame body state = some finish) : Aligned finish := by
  induction body generalizing state with
  | nil =>
      cases runs
      exact aligned
  | cons item rest induction =>
      have keepsItem := keeps item List.mem_cons_self
      rcases item_runs keepsItem state with ⟨next, runsItem, -⟩
      rw [runBody, runsItem, Option.bind_some] at runs
      exact induction (fun later inRest => keeps later (List.mem_cons_of_mem item inRest))
        (fun later inRest => moves later (List.mem_cons_of_mem item inRest))
        (item_aligned keepsItem (moves item List.mem_cons_self) aligned runsItem) runs

theorem setup_aligned {sequence : CallSequence} (multiple : 64 ∣ sequence.amount) (base : Word)
    {state : MachineState} (aligned : Aligned state) :
    ∃ ready, runSetup frame sequence state = some ready ∧ Aligned ready := by
  rcases call_frame_runs frame .ADJCALLSTACKDOWN (BitVec.ofNat 32 sequence.amount)
    sequence.setup_free base state with ⟨ready, runs, pointer, -⟩
  refine ⟨ready, runs, ?_⟩
  rw [Aligned] at aligned ⊢
  rw [pointer, callFrameMove]
  split
  · rw [callFrameAmount, BitVec.toNat_add, BitVec.toNat_neg, BitVec.toNat_ofNat]
    omega
  · rw [BitVec.toNat_add]
    exact (Nat.dvd_mod_iff (by decide)).mpr ((Nat.dvd_add_right aligned).mpr (Nat.dvd_zero 64))

theorem calls_aligned {base : Word} {body : List BodyItem}
    (keeps : ∀ item ∈ body, Keeps frame base item) (moves : ∀ item ∈ body, MovesAligned frame item)
    {start : MachineState} (aligned : Aligned start) : CallsAligned frame body start := by
  rintro before sequence after rfl multiple
  have inBefore : ∀ item ∈ before, item ∈ before ++ .call sequence :: after :=
    fun item member => List.mem_append_left _ member
  have inCall : .call sequence ∈ before ++ .call sequence :: after :=
    List.mem_append_right before List.mem_cons_self
  rcases body_runs (fun item member => keeps item (inBefore item member)) start with
    ⟨reached, runsBefore, -⟩
  have reachedAligned := body_aligned (fun item member => keeps item (inBefore item member))
    (fun item member => moves item (inBefore item member)) aligned runsBefore
  rcases setup_aligned multiple base reachedAligned with ⟨ready, runsSetup, readyAligned⟩
  rcases item_runs (keeps _ inCall) reached with ⟨left, runsCall, -⟩
  exact ⟨reached, ready, left, runsBefore, runsSetup, readyAligned, runsCall,
    item_aligned (keeps _ inCall) (moves _ inCall) reachedAligned runsCall⟩

end Alignment

section Restoration

variable (frame : Frame) (scavenger : Scavenger frame)

/-- The frame pointer is not set although the epilogue reads it. -/
def LosesStackPointer (frame : MachineFrameInfo) : Prop :=
  hasFP frame = true ∧ frame.adjustsStack = false ∧ roundedStackSize frame % 2 ^ 32 = 0

theorem bails_iff (frame : MachineFrameInfo) :
    Bails frame ↔ frame.adjustsStack = false ∧ roundedStackSize frame % 2 ^ 32 = 0 := by
  have zero : stackSizeInt frame = 0 ↔ roundedStackSize frame % 2 ^ 32 = 0 := by
    rw [← BitVec.toNat_inj, stackSizeInt, BitVec.toNat_ofNat]
    rfl
  rw [Bails, zero, And.comm]

theorem overflows_iff (frame : MachineFrameInfo) :
    stackSizeInt frame = BitVec.intMin 32 ↔ roundedStackSize frame % 2 ^ 32 = 2 ^ 31 := by
  rw [← BitVec.toNat_inj, stackSizeInt, BitVec.toNat_ofNat]
  rfl

/-- No frame that fits in the address space loses the stack pointer. -/
theorem four_gibibytes_of_lost (lost : LosesStackPointer frame.toMachineFrameInfo) :
    2 ^ 32 ≤ roundedStackSize frame.toMachineFrameInfo := by
  have positive := rounded_pos_of_frame_pointer frame lost.1
  exact Nat.le_of_dvd positive (Nat.dvd_of_mod_eq_zero lost.2.2)

theorem restores_frame (defined : stackSizeInt frame.toMachineFrameInfo ≠ BitVec.intMin 32)
    (reached : SlotsInReach frame.toMachineFrameInfo)
    (sound : ¬ LosesStackPointer frame.toMachineFrameInfo) : RestoresFrame frame scavenger := by
  refine ⟨_, _, emit_frame_eq frame scavenger defined reached, ?_⟩
  intro entry
  rcases prologue_runs frame scavenger entry with ⟨start, runsPrologue, entered⟩
  refine ⟨start, runsPrologue, entered_aligned entered, ?_⟩
  intro body keeps
  rcases body_runs keeps start with ⟨finish, runsBody, kept⟩
  rcases epilogue_runs frame scavenger finish with ⟨exit, runsEpilogue, exitPointer, held⟩
  have pointer : epiloguePointer frame.toMachineFrameInfo finish = start.1.gpr 61 := by
    rw [epiloguePointer]
    split
    case isTrue usesFP =>
        have moved : ¬ Bails frame.toMachineFrameInfo := by
          rw [bails_iff]
          exact fun bails => sound ⟨usesFP, bails⟩
        rw [kept.framePointer, entered.framePointer moved usesFP]
    case isFalse noFP =>
        apply kept.stackPointer
        rw [hasFP, Bool.not_eq_true, Bool.or_eq_false_iff, Bool.or_eq_false_iff] at noFP
        exact noFP.1.2
  rw [pointer] at exitPointer held
  refine ⟨finish, exit, runsBody, runsEpilogue, ?_, ?_, ?_⟩
  · rw [exitPointer, entered.stackPointer, BitVec.sub_add_cancel]
  · intro reg saved
    rw [← saved_map_reg] at saved
    rcases List.mem_map.mp saved with ⟨info, known, rfl⟩
    rw [held info known, kept.slots info known, entered.slots info known]
  · intro aligned moves
    exact calls_aligned keeps moves (entered_aligned entered aligned)

/-- With the frame pointer still that of the caller, the epilogue makes it the stack pointer. -/
theorem not_restores_frame (lost : LosesStackPointer frame.toMachineFrameInfo) :
    ¬ RestoresFrame frame scavenger := by
  rintro ⟨prologue, epilogue, emitted, restores⟩
  have bails : Bails frame.toMachineFrameInfo := (bails_iff _).mpr lost.2
  have defined : stackSizeInt frame.toMachineFrameInfo ≠ BitVec.intMin 32 := by
    rw [bails.1]
    decide
  have reached : SlotsInReach frame.toMachineFrameInfo := by
    by_contra missed
    rw [emit_frame_too_large frame scavenger defined missed] at emitted
    cases emitted
  rw [emit_frame_eq frame scavenger defined reached] at emitted
  cases emitted
  let registers : Registers := ⟨Function.update (fun _ => 0) 60 64, fun _ => 0⟩
  rcases prologue_runs frame scavenger (registers, fun _ => 0) with ⟨start, runsStart, entered⟩
  rcases restores (registers, fun _ => 0) with ⟨other, runsOther, -, body⟩
  rw [runsStart] at runsOther
  cases runsOther
  rcases body [] (fun item member => by cases member) with
    ⟨finish, exit, runsBody, runsExit, pointer, -⟩
  cases runsBody
  rcases epilogue_runs frame scavenger start with ⟨left, runsLeft, leftPointer, -⟩
  rw [runsLeft] at runsExit
  cases runsExit
  rw [leftPointer, epiloguePointer, if_pos lost.1, entered.bailed bails, bails.1] at pointer
  revert pointer
  decide

/-- The compiler rejects a frame exactly if a callee-saved slot is out of reach. For every frame
it accepts, the emitted code restores the frame exactly if the stack size does not overflow when
it is negated, and does not vanish in an `int` where the frame pointer has to be set. -/
theorem frame_restored_iff :
    (emitFrame frame scavenger = .error .frameTooLarge ↔
      roundedStackSize frame.toMachineFrameInfo % 2 ^ 32 ≠ 2 ^ 31 ∧
        ¬ SlotsInReach frame.toMachineFrameInfo) ∧
    (emitFrame frame scavenger ≠ .error .frameTooLarge →
      (RestoresFrame frame scavenger ↔
        roundedStackSize frame.toMachineFrameInfo % 2 ^ 32 ≠ 2 ^ 31 ∧
          ¬ LosesStackPointer frame.toMachineFrameInfo)) := by
  by_cases overflows : stackSizeInt frame.toMachineFrameInfo = BitVec.intMin 32
  · have emitted := emit_frame_undefined frame scavenger overflows
    have size := (overflows_iff _).mp overflows
    have unrestored : ¬ RestoresFrame frame scavenger := by
      rintro ⟨prologue, epilogue, ok, -⟩
      rw [emitted] at ok
      cases ok
    rw [emitted]
    exact ⟨iff_of_false (by decide) fun both => both.1 size,
      fun _ => iff_of_false unrestored fun both => both.1 size⟩
  · have size := mt (overflows_iff _).mpr overflows
    by_cases reached : SlotsInReach frame.toMachineFrameInfo
    · have emitted := emit_frame_eq frame scavenger overflows reached
      rw [emitted]
      refine ⟨iff_of_false (by simp) fun both => both.2 reached, fun _ => ?_⟩
      constructor
      · intro restores
        exact ⟨size, fun lost => not_restores_frame frame scavenger lost restores⟩
      · intro sound
        exact restores_frame frame scavenger overflows reached sound.2
    · have rejected := emit_frame_too_large frame scavenger overflows reached
      exact ⟨iff_of_true rejected ⟨size, reached⟩, fun accepted => absurd rejected accepted⟩

/-- A frame with a frame pointer that saves registers of both classes and calls functions. -/
def mixedFrame : Frame where
  stackSize := 192
  adjustsStack := true
  hasVarSizedObjects := true
  isFrameAddressTaken := false
  disableFramePointerElim := false
  objectIndexEnd := 1
  savedRegs := [sReg 50, FP_REG, RA_REG, vReg 56]
  saved_nodup := by decide
  saved_callee := by decide
  saved_frame_pointer := by decide
  slots_inside := by decide
  stack_size_lt := by decide

def mixedScavenger : Scavenger mixedFrame where
  spill := fun _ => 8
  reload := fun _ => 8
  prologue := 8
  epilogue := 8
  prologue_free := by decide
  epilogue_free := by decide
  spills_free := ⟨by decide, by decide, by decide, by decide, by decide, by decide, by decide,
    by decide, trivial⟩
  reloads_free := ⟨by decide, by decide, by decide, by decide, by decide, by decide, by decide,
    by decide, trivial⟩

theorem mixed_frame_restored : RestoresFrame mixedFrame mixedScavenger := by
  have emitted := emit_frame_eq mixedFrame mixedScavenger (by decide) (by decide)
  have accepted : emitFrame mixedFrame mixedScavenger ≠ .error .frameTooLarge := by
    rw [emitted]
    exact fun rejected => by cases rejected
  apply ((frame_restored_iff mixedFrame mixedScavenger).2 accepted).mpr
  exact ⟨by decide, fun lost => absurd lost.2.1 (by decide)⟩

/-- A frame of four gibibytes in a function that keeps a frame pointer and calls nothing. -/
def fourGibibyteFrame : Frame where
  stackSize := 2 ^ 32
  adjustsStack := false
  hasVarSizedObjects := false
  isFrameAddressTaken := true
  disableFramePointerElim := false
  objectIndexEnd := 1
  savedRegs := [FP_REG]
  saved_nodup := by decide
  saved_callee := by decide
  saved_frame_pointer := by decide
  slots_inside := by decide
  stack_size_lt := by decide

def fourGibibyteScavenger : Scavenger fourGibibyteFrame where
  spill := fun _ => 8
  reload := fun _ => 8
  prologue := 8
  epilogue := 8
  prologue_free := by decide
  epilogue_free := by decide
  spills_free := ⟨by decide, by decide, trivial⟩
  reloads_free := ⟨by decide, by decide, trivial⟩

theorem four_gibibyte_frame_lost : ¬ ∀ (frame : Frame) (scavenger : Scavenger frame),
    emitFrame frame scavenger ≠ .error .frameTooLarge → RestoresFrame frame scavenger := by
  intro all
  have lost : LosesStackPointer fourGibibyteFrame.toMachineFrameInfo :=
    ⟨by decide, by decide, by decide⟩
  have emitted := emit_frame_eq fourGibibyteFrame fourGibibyteScavenger (by decide) (by decide)
  apply not_restores_frame fourGibibyteFrame fourGibibyteScavenger lost
  apply all
  rw [emitted]
  exact fun rejected => by cases rejected

end Restoration

end NaplesPU.FrameLowering
