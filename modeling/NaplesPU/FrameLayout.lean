import Mathlib.Data.List.Nodup
import Mathlib.Data.List.Perm.Subperm
import NaplesPU.Lib.Alignment
import NaplesPU.RegisterInfo

/-!
The stack frame of a function as the frame lowering finds it. Frame objects are
placed by their distance below the stack pointer at entry: first the slots of the
callee-saved registers, one below the other in the order of the list, then
whatever else the function keeps.
-/

namespace NaplesPU.FrameLayout

open Alignment RegisterInfo

def getStackAlignment : Nat := 64

structure MachineFrameInfo where
  stackSize : Nat
  adjustsStack : Bool
  hasVarSizedObjects : Bool
  isFrameAddressTaken : Bool
  /-- The option of the target machine that keeps a frame pointer everywhere. -/
  disableFramePointerElim : Bool
  objectIndexEnd : Nat
  savedRegs : List Register

def hasFP (frame : MachineFrameInfo) : Bool :=
  frame.disableFramePointerElim || frame.hasVarSizedObjects || frame.isFrameAddressTaken

def hasReservedCallFrame (frame : MachineFrameInfo) : Bool := !frame.hasVarSizedObjects

def getFrameRegister (frame : MachineFrameInfo) : Register :=
  if hasFP frame then FP_REG else SP_REG

def roundedStackSize (frame : MachineFrameInfo) : Nat := alignTo frame.stackSize getStackAlignment

/-- A callee-saved register and its stack object, whose offset is minus `depth`. -/
structure CalleeSavedInfo where
  reg : Register
  frameIdx : Nat
  depth : Nat
deriving DecidableEq, Repr

def CalleeSavedInfo.size (info : CalleeSavedInfo) : Nat := info.reg.cls.spillSize

def CalleeSavedInfo.objectOffset (info : CalleeSavedInfo) : Int := -info.depth

/-- Where the object of a register ends when the object before it ended at `offset`. -/
def nextOffset (offset : Nat) (reg : Register) : Nat :=
  alignTo (offset + reg.cls.spillSize) (min reg.cls.spillAlignment getStackAlignment)

/-- Each register takes the next frame index and the next aligned place. -/
def assignCalleeSavedSpillSlots : Nat → Nat → List Register → List CalleeSavedInfo
  | _, _, [] => []
  | frameIdx, offset, reg :: rest =>
      ⟨reg, frameIdx, nextOffset offset reg⟩ ::
        assignCalleeSavedSpillSlots (frameIdx + 1) (nextOffset offset reg) rest

def calleeSavedInfo (frame : MachineFrameInfo) : List CalleeSavedInfo :=
  assignCalleeSavedSpillSlots frame.objectIndexEnd 0 frame.savedRegs

def minCSFI (frame : MachineFrameInfo) : Int :=
  match (calleeSavedInfo frame)[0]? with
  | some first => first.frameIdx
  | none => 0

def maxCSFI (frame : MachineFrameInfo) : Int :=
  match (calleeSavedInfo frame)[(calleeSavedInfo frame).length - 1]? with
  | some last => last.frameIdx
  | none => -1

def fixedCSEnd (savedRegs : List Register) : Nat := savedRegs.foldl nextOffset 0

/-- A frame as it is laid out: the saved registers are callee-saved ones, the frame pointer is
among them if the function has one, and the stack size covers their slots. -/
structure Frame extends MachineFrameInfo where
  saved_nodup : savedRegs.Nodup
  saved_callee : ∀ reg ∈ savedRegs, reg ∈ calleeSavedRegs
  saved_frame_pointer : hasFP toMachineFrameInfo = true → FP_REG ∈ savedRegs
  slots_inside : fixedCSEnd savedRegs ≤ stackSize
  /-- Offsets are computed in sixty-four signed bits. -/
  stack_size_lt : stackSize < 2 ^ 63

/-- The registers to save: those that the function modifies, and the frame pointer it uses. -/
def determineCalleeSaves (usesFP : Bool) (modified : Register → Bool) : List Register :=
  calleeSavedRegs.filter fun reg => modified reg || (usesFP && reg = FP_REG)

theorem determine_callee_saves_valid (usesFP : Bool) (modified : Register → Bool) :
    (determineCalleeSaves usesFP modified).Nodup ∧
      (∀ reg ∈ determineCalleeSaves usesFP modified, reg ∈ calleeSavedRegs) ∧
      (usesFP = true → FP_REG ∈ determineCalleeSaves usesFP modified) := by
  have order : calleeSavedRegs.Nodup := by decide
  refine ⟨order.filter _, fun reg member => List.mem_of_mem_filter member, ?_⟩
  intro used
  rw [determineCalleeSaves, List.mem_filter, used]
  simp [calleeSavedRegs, FP_REG]

section Slots

theorem spill_size_pos (cls : RegClass) : 0 < cls.spillSize := by
  cases cls <;> decide

theorem next_offset_bounds (offset : Nat) (reg : Register) :
    offset + reg.cls.spillSize ≤ nextOffset offset reg ∧ nextOffset offset reg < offset + 128 := by
  have positive : 0 < min reg.cls.spillAlignment getStackAlignment := by
    cases reg.cls <;> decide
  have small : reg.cls.spillSize + min reg.cls.spillAlignment getStackAlignment ≤ 128 := by
    cases reg.cls <;> decide
  have high := align_to_lt positive (offset + reg.cls.spillSize)
  constructor
  · exact le_align_to positive _
  · rw [nextOffset]
    omega

theorem assign_regs (frameIdx offset : Nat) (regs : List Register) :
    (assignCalleeSavedSpillSlots frameIdx offset regs).map CalleeSavedInfo.reg = regs := by
  induction regs generalizing frameIdx offset with
  | nil => rfl
  | cons reg rest induction => rw [assignCalleeSavedSpillSlots, List.map_cons, induction]

theorem assign_bounds {frameIdx offset : Nat} {regs : List Register} {info : CalleeSavedInfo}
    (member : info ∈ assignCalleeSavedSpillSlots frameIdx offset regs) :
    offset + info.size ≤ info.depth ∧ info.depth ≤ offset + 128 * regs.length := by
  induction regs generalizing frameIdx offset with
  | nil => cases member
  | cons reg rest induction =>
      have next := next_offset_bounds offset reg
      rw [assignCalleeSavedSpillSlots] at member
      rw [List.length_cons]
      rcases List.mem_cons.mp member with rfl | later
      · exact ⟨next.1, by dsimp only; omega⟩
      · have bounds := induction later
        omega

theorem le_foldl_next_offset (regs : List Register) (offset : Nat) :
    offset ≤ regs.foldl nextOffset offset := by
  induction regs generalizing offset with
  | nil => exact le_refl _
  | cons reg rest induction =>
      have step := (next_offset_bounds offset reg).1
      exact le_trans (by omega) (induction (nextOffset offset reg))

/-- Each slot ends above the one that follows it. -/
def Above (upper lower : CalleeSavedInfo) : Prop := upper.depth + lower.size ≤ lower.depth

theorem assign_pairwise (frameIdx offset : Nat) (regs : List Register) :
    (assignCalleeSavedSpillSlots frameIdx offset regs).Pairwise Above := by
  induction regs generalizing frameIdx offset with
  | nil => exact List.Pairwise.nil
  | cons reg rest induction =>
      rw [assignCalleeSavedSpillSlots, List.pairwise_cons]
      exact ⟨fun lower member => (assign_bounds member).1, induction _ _⟩

theorem assign_indices (frameIdx offset : Nat) (regs : List Register) :
    (assignCalleeSavedSpillSlots frameIdx offset regs).map CalleeSavedInfo.frameIdx =
      List.range' frameIdx regs.length := by
  induction regs generalizing frameIdx offset with
  | nil => rfl
  | cons reg rest induction =>
      rw [assignCalleeSavedSpillSlots, List.map_cons, induction, List.length_cons, List.range'_succ]

variable (frame : Frame)

theorem saved_length : frame.savedRegs.length ≤ 19 :=
  (List.subperm_of_subset frame.saved_nodup frame.saved_callee).length_le

theorem saved_map_reg :
    (calleeSavedInfo frame.toMachineFrameInfo).map CalleeSavedInfo.reg = frame.savedRegs :=
  assign_regs _ _ _

/-- The frame indices of the callee-saved slots are those between the first and the last. -/
theorem saved_index_between {info : CalleeSavedInfo}
    (member : info ∈ calleeSavedInfo frame.toMachineFrameInfo) :
    minCSFI frame.toMachineFrameInfo ≤ info.frameIdx ∧
      info.frameIdx ≤ maxCSFI frame.toMachineFrameInfo := by
  have indices : (calleeSavedInfo frame.toMachineFrameInfo).map CalleeSavedInfo.frameIdx =
    List.range' frame.objectIndexEnd frame.savedRegs.length := assign_indices _ _ _
  have length := congrArg List.length indices
  rw [List.length_map, List.length_range'] at length
  have between := List.mem_map_of_mem (f := CalleeSavedInfo.frameIdx) member
  rw [indices, List.mem_range'_1] at between
  have nth (index : Nat) (inside : index < (calleeSavedInfo frame.toMachineFrameInfo).length) :
      ((calleeSavedInfo frame.toMachineFrameInfo)[index]).frameIdx =
        frame.objectIndexEnd + index := by
    have entry : ((calleeSavedInfo frame.toMachineFrameInfo).map CalleeSavedInfo.frameIdx)[index]? =
        some (frame.objectIndexEnd + index) := by
      rw [indices, List.getElem?_range' (by omega), Nat.one_mul]
    rw [List.getElem?_map, List.getElem?_eq_getElem inside] at entry
    exact Option.some.inj entry
  have first : 0 < (calleeSavedInfo frame.toMachineFrameInfo).length := by omega
  rw [minCSFI, maxCSFI, List.getElem?_eq_getElem first,
    List.getElem?_eq_getElem (Nat.sub_lt first Nat.one_pos)]
  dsimp only
  rw [nth 0 first, nth _ (Nat.sub_lt first Nat.one_pos)]
  omega

theorem saved_of_info {info : CalleeSavedInfo}
    (member : info ∈ calleeSavedInfo frame.toMachineFrameInfo) : info.reg ∈ frame.savedRegs := by
  rw [← saved_map_reg]
  exact List.mem_map_of_mem member

theorem saved_depth_bounds {info : CalleeSavedInfo}
    (member : info ∈ calleeSavedInfo frame.toMachineFrameInfo) :
    info.size ≤ info.depth ∧ info.depth ≤ 2432 := by
  have bounds := assign_bounds member
  have short := saved_length frame
  omega

/-- The bail-out of the prologue on an empty frame never meets a frame with a frame pointer. -/
theorem rounded_pos_of_frame_pointer (usesFP : hasFP frame.toMachineFrameInfo = true) :
    0 < roundedStackSize frame.toMachineFrameInfo := by
  have saved := frame.saved_frame_pointer usesFP
  have inside := frame.slots_inside
  have rounded := le_align_to (show 0 < getStackAlignment by decide) frame.stackSize
  rw [roundedStackSize]
  cases shape : frame.savedRegs with
  | nil =>
      rw [shape] at saved
      cases saved
  | cons reg rest =>
      have step := (next_offset_bounds 0 reg).1
      have grows := le_foldl_next_offset rest (nextOffset 0 reg)
      have positive := spill_size_pos reg.cls
      rw [shape, fixedCSEnd, List.foldl_cons] at inside
      omega

end Slots

end NaplesPU.FrameLayout
