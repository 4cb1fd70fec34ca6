import Mathlib.Data.List.Nodup
import NaplesPU.FrameLayout
import NaplesPU.Machine

/-!
Spilling registers to stack slots and reloading them. The generic code places one
store for each callee-saved register, in the order of the list, and one load for
each in the reverse order; their frame indices are then replaced by a base register
and an offset. An offset past nine bits goes through a register that the scavenger
finds free at that place.
-/

namespace NaplesPU.StackSlots

open ByteMemory TwosComplement
open RegisterInfo InstrInfo FixupKinds MCCodeEmitter Machine FrameLayout

inductive FrameError where
  /-- The code of the compiler overflows a signed integer. -/
  | undefined
  /-- The compiler reports that the frame is too large. -/
  | frameTooLarge
deriving DecidableEq, Repr

/-- An instruction whose frame index is still to be replaced. -/
inductive FrameInst where
  | target (inst : MCInst)
  | store (info : CalleeSavedInfo)
  | load (info : CalleeSavedInfo)

/-- The registers that the scavenger gives to the replaced frame indices. -/
structure SlotScratch where
  spill : Register → Fin 64
  reload : Register → Fin 64

def storeRegToStackSlot (reg base : Register) (offset : Int) : MCInst :=
  match reg.cls with
  | .GPR32 => ⟨.storeScalar .S32W .Mainmem, [.reg reg, .reg base, .imm offset]⟩
  | .VR512W => ⟨.storeVector .SV32W .Mainmem_U, [.reg reg, .reg base, .imm offset]⟩

def loadRegFromStackSlot (reg base : Register) (offset : Int) : MCInst :=
  match reg.cls with
  | .GPR32 => ⟨.loadScalar .L32W .Mainmem, [.reg reg, .reg base, .imm offset]⟩
  | .VR512W => ⟨.loadVector .LV32W .Mainmem_U, [.reg reg, .reg base, .imm offset]⟩

def stackSizeInt (frame : MachineFrameInfo) : Word := BitVec.ofNat 32 (roundedStackSize frame)

/-- The offset of a slot; its instruction has the immediate zero. -/
def slotOffset (frame : MachineFrameInfo) (info : CalleeSavedInfo) : Int :=
  info.objectOffset + (stackSizeInt frame).toInt

def slotBase (frame : MachineFrameInfo) (info : CalleeSavedInfo) : Register :=
  if minCSFI frame ≤ info.frameIdx ∧ info.frameIdx ≤ maxCSFI frame then SP_REG
  else getFrameRegister frame

def eliminateFrameIndex (frame : MachineFrameInfo) (info : CalleeSavedInfo) (scratch : Fin 64)
    (access : Register → Int → MCInst) : Except FrameError (List MCInst) :=
  let offset := slotOffset frame info
  let frameReg := slotBase frame info
  if SignedFits 9 offset then .ok [access frameReg offset]
  else if SignedFits 25 offset then
    .ok [⟨.moveImm .MOVEIH .SI, [.reg (sReg scratch), .imm ((offset >>> (16 : Nat)) % 2 ^ 16)]⟩,
      ⟨.moveImm .MOVEIL .SI, [.reg (sReg scratch), .imm (offset % 2 ^ 16)]⟩,
      ⟨.arithInt .ADD .SSS_32, [.reg (sReg scratch), .reg frameReg, .reg (sReg scratch)]⟩,
      access (sReg scratch) 0]
  else .error .frameTooLarge

def replaceFrameIndex (frame : MachineFrameInfo) (scratch : SlotScratch) :
    FrameInst → Except FrameError (List MCInst)
  | .target inst => .ok [inst]
  | .store info =>
      eliminateFrameIndex frame info (scratch.spill info.reg) (storeRegToStackSlot info.reg)
  | .load info =>
      eliminateFrameIndex frame info (scratch.reload info.reg) (loadRegFromStackSlot info.reg)

def replaceFrameIndices (frame : MachineFrameInfo) (scratch : SlotScratch) :
    List FrameInst → Except FrameError (List MCInst)
  | [] => .ok []
  | inst :: rest => do
      let code ← replaceFrameIndex frame scratch inst
      let after ← replaceFrameIndices frame scratch rest
      return code ++ after

section Registers

/-- The content of a register of either class. -/
def valueOf (registers : Registers) : (reg : Register) → BitVec (8 * reg.cls.spillSize)
  | ⟨.GPR32, index⟩ => registers.gpr index
  | ⟨.VR512W, index⟩ => registers.vec index

def setValue (registers : Registers) :
    (reg : Register) → BitVec (8 * reg.cls.spillSize) → Registers
  | ⟨.GPR32, index⟩, value => registers.setGpr index value
  | ⟨.VR512W, index⟩, value => registers.setVec index value

variable (registers : Registers)

theorem value_of_set_value_same (reg : Register) (value : BitVec (8 * reg.cls.spillSize)) :
    valueOf (setValue registers reg value) reg = value := by
  rcases reg with ⟨cls, index⟩
  cases cls with
  | GPR32 => exact Function.update_self index (show Word from value) registers.gpr
  | VR512W => exact Function.update_self index (show Vector from value) registers.vec

theorem value_of_set_value_other {reg other : Register} (value : BitVec (8 * reg.cls.spillSize))
    (different : other ≠ reg) :
    valueOf (setValue registers reg value) other = valueOf registers other := by
  rcases reg with ⟨cls, index⟩
  rcases other with ⟨otherCls, otherIndex⟩
  cases cls with
  | GPR32 =>
      cases otherCls with
      | GPR32 =>
          have apart : otherIndex ≠ index := fun same => different (same ▸ rfl)
          exact Function.update_of_ne apart (show Word from value) registers.gpr
      | VR512W => rfl
  | VR512W =>
      cases otherCls with
      | GPR32 => rfl
      | VR512W =>
          have apart : otherIndex ≠ index := fun same => different (same ▸ rfl)
          exact Function.update_of_ne apart (show Vector from value) registers.vec

theorem value_of_set_gpr_other {index : Fin 64} {other : Register} (value : Word)
    (different : other ≠ sReg index) :
    valueOf (registers.setGpr index value) other = valueOf registers other := by
  exact value_of_set_value_other registers (show BitVec (8 * (sReg index).cls.spillSize) from value)
    different

variable (memory : Memory 32)

theorem exec_store_register (reg : Register) (base : Fin 64) {offset : Int}
    (fits : SignedFits 9 offset) :
    exec (storeRegToStackSlot reg (sReg base) offset) registers memory =
      some ⟨registers, storeWord memory (registers.gpr base + BitVec.ofInt 32 offset)
        reg.cls.spillSize (valueOf registers reg), none⟩ := by
  rcases reg with ⟨cls, index⟩
  cases cls with
  | GPR32 => exact exec_store registers memory index base fits
  | VR512W => exact exec_store_vector registers memory index base fits

theorem exec_load_register (reg : Register) (base : Fin 64) {offset : Int}
    (fits : SignedFits 9 offset) :
    exec (loadRegFromStackSlot reg (sReg base) offset) registers memory =
      some ⟨setValue registers reg (loadWord memory (registers.gpr base + BitVec.ofInt 32 offset)
        reg.cls.spillSize), memory, none⟩ := by
  rcases reg with ⟨cls, index⟩
  cases cls with
  | GPR32 => exact exec_load registers memory index base fits
  | VR512W => exact exec_load_vector registers memory index base fits

end Registers

section Constants

theorem low_mask_bit (position : Nat) :
    (0xffff : Word).getLsbD position = decide (position < 16) := by
  have mask : (0xffff : Word).toNat = 2 ^ 16 - 1 := rfl
  rw [BitVec.getLsbD, mask, Nat.testBit_two_pow_sub_one]

theorem halves_joined (value : Word) :
    ((value >>> 16) <<< 16 &&& 0xffff0000) ||| (value &&& 0xffff) = value := by
  have highMask : (0xffff0000 : Word) = ~~~0xffff := rfl
  apply BitVec.eq_of_getLsbD_eq
  intro position inside
  rw [highMask]
  simp only [BitVec.getLsbD_or, BitVec.getLsbD_and, BitVec.getLsbD_shiftLeft,
    BitVec.getLsbD_ushiftRight, BitVec.getLsbD_not, low_mask_bit]
  by_cases low : position < 16
  · simp [low]
  · simp [low, inside, show 16 + (position - 16) = position by omega]

theorem high_half_alone {value : Word} (lowZero : value &&& 0xffff = 0) :
    (value >>> 16) <<< 16 = value := by
  apply BitVec.eq_of_getLsbD_eq
  intro position inside
  rw [BitVec.getLsbD_shiftLeft, BitVec.getLsbD_ushiftRight]
  by_cases low : position < 16
  · have bit := congrArg (fun word : Word => word.getLsbD position) lowZero
    simp only [BitVec.getLsbD_and, low_mask_bit, low, decide_true, Bool.and_true] at bit
    simp [low, bit]
  · simp [low, inside, show 16 + (position - 16) = position by omega]

theorem shifted_high_half (value : Word) :
    BitVec.ofInt 32 (value.sshiftRight 16).toInt &&& (0xffff : Word) = value >>> 16 := by
  rw [BitVec.ofInt_toInt]
  apply BitVec.eq_of_getLsbD_eq
  intro position inside
  simp only [BitVec.getLsbD_and, BitVec.getLsbD_ushiftRight, low_mask_bit,
    BitVec.getLsbD_sshiftRight]
  by_cases low : position < 16
  · simp [low, inside, show 16 + position < 32 by omega]
  · simp [low, show 32 ≤ 16 + position by omega]

theorem low_half_of_word (value : Word) :
    BitVec.ofInt 32 (value &&& 0xffff).toInt &&& 0xffff = value &&& 0xffff := by
  rw [BitVec.ofInt_toInt, BitVec.and_assoc, BitVec.and_self]

theorem low_mask_to_nat (value : Word) : (value &&& 0xffff).toNat = value.toNat % 2 ^ 16 := by
  have mask : (0xffff : Word).toNat = 2 ^ 16 - 1 := rfl
  rw [BitVec.toNat_and, mask, Nat.and_two_pow_sub_one_eq_mod]

theorem high_half_of_offset (offset : Int) :
    BitVec.ofInt 32 ((offset >>> (16 : Nat)) % 2 ^ 16) &&& (0xffff : Word) =
      BitVec.ofInt 32 offset >>> 16 := by
  apply BitVec.eq_of_toNat_eq
  rw [low_mask_to_nat, BitVec.toNat_ushiftRight, BitVec.toNat_ofInt, BitVec.toNat_ofInt,
    Int.shiftRight_eq_div_pow, Nat.shiftRight_eq_div_pow]
  omega

theorem low_half_of_offset (offset : Int) :
    BitVec.ofInt 32 (offset % 2 ^ 16) &&& 0xffff = BitVec.ofInt 32 offset &&& 0xffff := by
  apply BitVec.eq_of_toNat_eq
  rw [low_mask_to_nat, low_mask_to_nat, BitVec.toNat_ofInt, BitVec.toNat_ofInt]
  omega

variable (registers : Registers) (memory : Memory 32)

theorem set_gpr_set_gpr (index : Fin 64) (first second : Word) :
    (registers.setGpr index first).setGpr index second = registers.setGpr index second := by
  simp only [Registers.setGpr, Function.update_idem]

/-- The two moves of a constant, whatever their immediates have above the sixteen bits. -/
theorem load_halves_runs (dst : Fin 64) {high low : Int} {value : Word}
    (highBits : BitVec.ofInt 32 high &&& (0xffff : Word) = value >>> 16)
    (lowBits : BitVec.ofInt 32 low &&& 0xffff = value &&& 0xffff) (rest : List MCInst) :
    execStraight (⟨.moveImm .MOVEIH .SI, [.reg (sReg dst), .imm high]⟩ ::
        ⟨.moveImm .MOVEIL .SI, [.reg (sReg dst), .imm low]⟩ :: rest) registers memory =
      execStraight rest (registers.setGpr dst value) memory := by
  have kept : (registers.setGpr dst ((value >>> 16) <<< 16)).gpr dst = (value >>> 16) <<< 16 := by
    rw [set_gpr_gpr, Function.update_self]
  rw [exec_straight_cons (exec_move_high registers memory dst high), highBits,
    exec_straight_cons (exec_move_low _ memory dst low), lowBits, kept, halves_joined,
    set_gpr_set_gpr]

end Constants

section Replacement

def InReach (frame : MachineFrameInfo) : FrameInst → Prop
  | .target _ => True
  | .store info | .load info => SignedFits 25 (slotOffset frame info)

def slotCode (frame : MachineFrameInfo) (info : CalleeSavedInfo) (scratch : Fin 64)
    (access : Register → Int → MCInst) : List MCInst :=
  if SignedFits 9 (slotOffset frame info) then [access (slotBase frame info) (slotOffset frame info)]
  else
    [⟨.moveImm .MOVEIH .SI,
        [.reg (sReg scratch), .imm ((slotOffset frame info >>> (16 : Nat)) % 2 ^ 16)]⟩,
      ⟨.moveImm .MOVEIL .SI, [.reg (sReg scratch), .imm (slotOffset frame info % 2 ^ 16)]⟩,
      ⟨.arithInt .ADD .SSS_32,
        [.reg (sReg scratch), .reg (slotBase frame info), .reg (sReg scratch)]⟩,
      access (sReg scratch) 0]

def instCode (frame : MachineFrameInfo) (scratch : SlotScratch) : FrameInst → List MCInst
  | .target inst => [inst]
  | .store info => slotCode frame info (scratch.spill info.reg) (storeRegToStackSlot info.reg)
  | .load info => slotCode frame info (scratch.reload info.reg) (loadRegFromStackSlot info.reg)

variable {frame : MachineFrameInfo} (scratch : SlotScratch)

theorem eliminate_of_fits {info : CalleeSavedInfo} (fits : SignedFits 25 (slotOffset frame info))
    (register : Fin 64) (access : Register → Int → MCInst) :
    eliminateFrameIndex frame info register access =
      .ok (slotCode frame info register access) := by
  simp only [eliminateFrameIndex, slotCode, fits, if_true]
  split <;> rfl

theorem eliminate_of_too_large {info : CalleeSavedInfo}
    (large : ¬ SignedFits 25 (slotOffset frame info)) (register : Fin 64)
    (access : Register → Int → MCInst) :
    eliminateFrameIndex frame info register access = .error .frameTooLarge := by
  have larger : ¬ SignedFits 9 (slotOffset frame info) := by
    rw [SignedFits] at large ⊢
    omega
  simp only [eliminateFrameIndex, larger, large, if_false]

theorem replace_one_of_in_reach {inst : FrameInst} (reached : InReach frame inst) :
    replaceFrameIndex frame scratch inst = .ok (instCode frame scratch inst) := by
  cases inst with
  | target inst => rfl
  | store info => exact eliminate_of_fits reached _ _
  | load info => exact eliminate_of_fits reached _ _

theorem replace_one_of_out_of_reach {inst : FrameInst} (missed : ¬ InReach frame inst) :
    replaceFrameIndex frame scratch inst = .error .frameTooLarge := by
  cases inst with
  | target inst => exact absurd trivial missed
  | store info => exact eliminate_of_too_large missed _ _
  | load info => exact eliminate_of_too_large missed _ _

theorem replace_of_in_reach {insts : List FrameInst} (reached : ∀ inst ∈ insts, InReach frame inst) :
    replaceFrameIndices frame scratch insts = .ok (insts.flatMap (instCode frame scratch)) := by
  induction insts with
  | nil => rfl
  | cons inst rest induction =>
      rw [replaceFrameIndices, replace_one_of_in_reach scratch (reached inst List.mem_cons_self),
        induction fun other member => reached other (List.mem_cons_of_mem inst member)]
      rfl

theorem replace_of_out_of_reach {insts : List FrameInst}
    (missed : ¬ ∀ inst ∈ insts, InReach frame inst) :
    replaceFrameIndices frame scratch insts = .error .frameTooLarge := by
  induction insts with
  | nil => exact absurd (fun inst member => by cases member) missed
  | cons inst rest induction =>
      rw [replaceFrameIndices]
      by_cases reached : InReach frame inst
      · have later : ¬ ∀ other ∈ rest, InReach frame other := by
          intro all
          apply missed
          intro other member
          rcases List.mem_cons.mp member with rfl | inRest
          · exact reached
          · exact all other inRest
        rw [replace_one_of_in_reach scratch reached, induction later]
        rfl
      · rw [replace_one_of_out_of_reach scratch reached]
        rfl

end Replacement

section Runs

def slotAddress (frame : MachineFrameInfo) (sp : Word) (info : CalleeSavedInfo) : Word :=
  sp + BitVec.ofInt 32 (slotOffset frame info)

def loadSlot (frame : MachineFrameInfo) (memory : Memory 32) (sp : Word) (info : CalleeSavedInfo) :
    BitVec (8 * info.reg.cls.spillSize) :=
  loadWord memory (slotAddress frame sp info) info.reg.cls.spillSize

theorem load_slot_store_below (frame : MachineFrameInfo) (memory : Memory 32) (sp : Word)
    {upper lower : CalleeSavedInfo} (above : Above upper lower) (inside : upper.size ≤ upper.depth)
    (small : lower.depth ≤ 2432) (value : BitVec (8 * lower.reg.cls.spillSize)) :
    loadSlot frame (storeWord memory (slotAddress frame sp lower) lower.reg.cls.spillSize value) sp
      upper = loadSlot frame memory sp upper := by
  have gap : lower.size ≤ lower.depth - upper.depth := by
    rw [Above] at above
    omega
  have shifted : slotAddress frame sp upper =
      slotAddress frame sp lower + BitVec.ofNat 32 (lower.depth - upper.depth) := by
    have distance : slotOffset frame upper =
        slotOffset frame lower + (lower.depth - upper.depth : Nat) := by
      rw [slotOffset, slotOffset, CalleeSavedInfo.objectOffset, CalleeSavedInfo.objectOffset]
      rw [Above] at above
      omega
    rw [slotAddress, distance, BitVec.ofInt_add, BitVec.ofInt_natCast, slotAddress,
      BitVec.add_assoc]
  apply load_word_store_word_apart
  rw [shifted]
  apply apart_of_above gap
  rw [Above] at above
  simp only [CalleeSavedInfo.size] at inside above
  omega

variable (frame : Frame) (registers : Registers) (memory : Memory 32)

theorem slot_base_eq {info : CalleeSavedInfo}
    (member : info ∈ calleeSavedInfo frame.toMachineFrameInfo) :
    slotBase frame.toMachineFrameInfo info = sReg 61 :=
  if_pos (saved_index_between frame member)

/-- What precedes the access of a slot leaves its address in the operands of the access and
changes nothing but the scratch register. -/
theorem slot_code_runs {info : CalleeSavedInfo}
    (member : info ∈ calleeSavedInfo frame.toMachineFrameInfo) {scratch : Fin 64}
    (free : scratch ≠ 61) (access : Register → Int → MCInst) :
    ∃ base offset addressed, SignedFits 9 offset ∧
      (∀ reg, reg ≠ sReg scratch → valueOf addressed reg = valueOf registers reg) ∧
      addressed.gpr base + BitVec.ofInt 32 offset =
        slotAddress frame.toMachineFrameInfo (registers.gpr 61) info ∧
      execStraight (slotCode frame.toMachineFrameInfo info scratch access) registers memory =
        execStraight [access (sReg base) offset] addressed memory := by
  rw [slotCode, slot_base_eq frame member]
  by_cases near : SignedFits 9 (slotOffset frame.toMachineFrameInfo info)
  · rw [if_pos near]
    exact ⟨61, slotOffset frame.toMachineFrameInfo info, registers, near, fun reg different => rfl,
      rfl, rfl⟩
  · have added : alu .ADD = some fun left right => left + right := rfl
    have pointer (value : Word) : (registers.setGpr scratch value).gpr 61 = registers.gpr 61 := by
      rw [set_gpr_gpr, Function.update_of_ne free.symm]
    have offset (value : Word) : (registers.setGpr scratch value).gpr scratch = value := by
      rw [set_gpr_gpr, Function.update_self]
    rw [if_neg near, load_halves_runs registers memory scratch (high_half_of_offset _)
      (low_half_of_offset _), exec_straight_cons (exec_arith _ memory added scratch 61 scratch),
      pointer, offset, set_gpr_set_gpr]
    refine ⟨scratch, 0, _, by decide, ?_, ?_, rfl⟩
    · intro reg different
      exact value_of_set_gpr_other registers _ different
    · rw [offset, slotAddress]
      exact BitVec.add_zero _

theorem spill_runs {info : CalleeSavedInfo}
    (member : info ∈ calleeSavedInfo frame.toMachineFrameInfo) {scratch : Fin 64}
    (free : scratch ≠ 61) (unread : info.reg ≠ sReg scratch) :
    ∃ spilled, (∀ reg, reg ≠ sReg scratch → valueOf spilled reg = valueOf registers reg) ∧
      execStraight (slotCode frame.toMachineFrameInfo info scratch (storeRegToStackSlot info.reg))
          registers memory =
        some (spilled, storeWord memory
          (slotAddress frame.toMachineFrameInfo (registers.gpr 61) info) info.reg.cls.spillSize
          (valueOf registers info.reg)) := by
  rcases slot_code_runs frame registers memory member free (storeRegToStackSlot info.reg) with
    ⟨base, offset, spilled, fits, kept, address, runs⟩
  refine ⟨spilled, kept, ?_⟩
  rw [runs, exec_straight_cons (exec_store_register spilled memory info.reg base fits), address,
    kept info.reg unread]
  rfl

theorem reload_runs {info : CalleeSavedInfo}
    (member : info ∈ calleeSavedInfo frame.toMachineFrameInfo) {scratch : Fin 64}
    (free : scratch ≠ 61) :
    ∃ addressed, (∀ reg, reg ≠ sReg scratch → valueOf addressed reg = valueOf registers reg) ∧
      execStraight (slotCode frame.toMachineFrameInfo info scratch (loadRegFromStackSlot info.reg))
          registers memory =
        some (setValue addressed info.reg
          (loadSlot frame.toMachineFrameInfo memory (registers.gpr 61) info), memory) := by
  rcases slot_code_runs frame registers memory member free (loadRegFromStackSlot info.reg) with
    ⟨base, offset, addressed, fits, kept, address, runs⟩
  refine ⟨addressed, kept, ?_⟩
  rw [runs, exec_straight_cons (exec_load_register addressed memory info.reg base fits), address]
  rfl

/-- While a register is spilled, it and the registers after it are live. -/
def SpillsFree (scratch : Register → Fin 64) : List Register → Prop
  | [] => True
  | reg :: rest =>
      sReg (scratch reg) ∉ getReservedRegs ∧ sReg (scratch reg) ∉ reg :: rest ∧
        SpillsFree scratch rest

/-- While a register is reloaded, the registers after it, which come back first, are live. -/
def ReloadsFree (scratch : Register → Fin 64) : List Register → Prop
  | [] => True
  | reg :: rest =>
      sReg (scratch reg) ∉ getReservedRegs ∧ sReg (scratch reg) ∉ rest ∧ ReloadsFree scratch rest

theorem ne_of_unreserved {scratch index : Fin 64} (reserved : sReg index ∈ getReservedRegs)
    (free : sReg scratch ∉ getReservedRegs) : scratch ≠ index := by
  rintro rfl
  exact free reserved

theorem stack_pointer_reserved : sReg 61 ∈ getReservedRegs := by decide

/-- The spills of a list, by induction on it: a slot keeps its value because the later slots
lie below it. -/
theorem spills_run (scratch : SlotScratch) {infos : List CalleeSavedInfo}
    (members : ∀ info ∈ infos, info ∈ calleeSavedInfo frame.toMachineFrameInfo)
    (ordered : infos.Pairwise Above)
    (free : SpillsFree scratch.spill (infos.map CalleeSavedInfo.reg)) :
    ∃ spilled stored,
      execStraight ((infos.map FrameInst.store).flatMap (instCode frame.toMachineFrameInfo scratch))
        registers memory = some (spilled, stored) ∧
      (∀ reg ∈ getReservedRegs, valueOf spilled reg = valueOf registers reg) ∧
      (∀ info ∈ infos, loadSlot frame.toMachineFrameInfo stored (registers.gpr 61) info =
        valueOf registers info.reg) ∧
      ∀ other ∈ calleeSavedInfo frame.toMachineFrameInfo, (∀ info ∈ infos, Above other info) →
        loadSlot frame.toMachineFrameInfo stored (registers.gpr 61) other =
          loadSlot frame.toMachineFrameInfo memory (registers.gpr 61) other := by
  induction infos generalizing registers memory with
  | nil =>
      refine ⟨registers, memory, rfl, fun reg reserved => rfl, ?_, fun other known above => rfl⟩
      intro info member
      cases member
  | cons info rest induction =>
      rw [List.map_cons] at free
      rcases free with ⟨unreserved, unread, freeRest⟩
      rw [List.pairwise_cons] at ordered
      have member := members info List.mem_cons_self
      have pointerFree := ne_of_unreserved stack_pointer_reserved unreserved
      have headUnread : info.reg ≠ sReg (scratch.spill info.reg) := by
        intro same
        exact unread (same ▸ List.mem_cons_self)
      rcases spill_runs frame registers memory member pointerFree headUnread with
        ⟨first, keptFirst, runsFirst⟩
      have keptReserved : ∀ reg ∈ getReservedRegs, valueOf first reg = valueOf registers reg := by
        intro reg reserved
        apply keptFirst
        rintro rfl
        exact unreserved reserved
      have pointer : first.gpr 61 = registers.gpr 61 :=
        keptReserved SP_REG stack_pointer_reserved
      rcases induction first _ (fun later inRest => members later (List.mem_cons_of_mem info inRest))
        ordered.2 freeRest with ⟨spilled, stored, runs, kept, held, untouched⟩
      rw [pointer] at held untouched
      have bounds := saved_depth_bounds frame member
      have below (upper : CalleeSavedInfo)
          (known : upper ∈ calleeSavedInfo frame.toMachineFrameInfo) (above : Above upper info) :=
        load_slot_store_below frame.toMachineFrameInfo memory (registers.gpr 61) above
          (saved_depth_bounds frame known).1 bounds.2 (valueOf registers info.reg)
      refine ⟨spilled, stored, ?_, ?_, ?_, ?_⟩
      · rw [List.map_cons, List.flatMap_cons, exec_straight_append]
        exact (congrArg (Option.bind · _) runsFirst).trans runs
      · intro reg reserved
        rw [kept reg reserved, keptReserved reg reserved]
      · intro other inList
        rcases List.mem_cons.mp inList with rfl | inRest
        · rw [untouched other member ordered.1, loadSlot]
          exact load_word_store_word_same memory _ (by cases other.reg.cls <;> decide) _
        · rw [held other inRest]
          apply keptFirst
          intro same
          exact unread (List.mem_cons_of_mem _ (same ▸ List.mem_map_of_mem inRest))
      · intro other known above
        rw [untouched other known fun later inRest => above later (List.mem_cons_of_mem info inRest)]
        exact below other known (above info List.mem_cons_self)

/-- The reloads of a list: the later registers come back first, and neither the reload of an
earlier one nor its scratch register touches them again. -/
theorem reloads_run (scratch : SlotScratch) {infos : List CalleeSavedInfo}
    (members : ∀ info ∈ infos, info ∈ calleeSavedInfo frame.toMachineFrameInfo)
    (distinct : (infos.map CalleeSavedInfo.reg).Nodup)
    (pointerUnsaved : SP_REG ∉ infos.map CalleeSavedInfo.reg)
    (free : ReloadsFree scratch.reload (infos.map CalleeSavedInfo.reg)) :
    ∃ restored,
      execStraight ((infos.reverse.map FrameInst.load).flatMap
        (instCode frame.toMachineFrameInfo scratch)) registers memory = some (restored, memory) ∧
      restored.gpr 61 = registers.gpr 61 ∧
      ∀ info ∈ infos, valueOf restored info.reg =
        loadSlot frame.toMachineFrameInfo memory (registers.gpr 61) info := by
  induction infos with
  | nil =>
      refine ⟨registers, rfl, rfl, ?_⟩
      intro info member
      cases member
  | cons info rest induction =>
      rw [List.map_cons] at free distinct pointerUnsaved
      rcases free with ⟨unreserved, unread, freeRest⟩
      rw [List.nodup_cons] at distinct
      rw [List.mem_cons, not_or] at pointerUnsaved
      rcases induction (fun later inRest => members later (List.mem_cons_of_mem info inRest))
        distinct.2 pointerUnsaved.2 freeRest with ⟨later, runsLater, pointerLater, heldLater⟩
      have pointerFree := ne_of_unreserved stack_pointer_reserved unreserved
      rcases reload_runs frame later memory (members info List.mem_cons_self) pointerFree with
        ⟨addressed, kept, runs⟩
      refine ⟨setValue addressed info.reg
        (loadSlot frame.toMachineFrameInfo memory (later.gpr 61) info), ?_, ?_, ?_⟩
      · rw [List.reverse_cons, List.map_append, List.flatMap_append, exec_straight_append, runsLater,
          Option.bind_some, List.map_singleton, List.flatMap_singleton]
        exact runs
      · have pointerKept : SP_REG ≠ sReg (scratch.reload info.reg) := by
          intro same
          exact unreserved (same ▸ stack_pointer_reserved)
        have moved := value_of_set_value_other addressed
          (loadSlot frame.toMachineFrameInfo memory (later.gpr 61) info) pointerUnsaved.1
        rw [kept SP_REG pointerKept] at moved
        exact moved.trans pointerLater
      · intro other inList
        rcases List.mem_cons.mp inList with rfl | inRest
        · rw [value_of_set_value_same, pointerLater]
        · have saved := List.mem_map_of_mem (f := CalleeSavedInfo.reg) inRest
          have apart : other.reg ≠ info.reg := by
            intro same
            exact distinct.1 (same ▸ saved)
          have unscratched : other.reg ≠ sReg (scratch.reload info.reg) := by
            intro same
            exact unread (same ▸ saved)
          rw [value_of_set_value_other _ _ apart, kept other.reg unscratched, heldLater other inRest]

end Runs

end NaplesPU.StackSlots
