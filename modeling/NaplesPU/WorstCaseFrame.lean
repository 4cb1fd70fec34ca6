import NaplesPU.FrameLayout
import NaplesPU.Lib.TwosComplement

/-!
The bound that the compiler puts on a frame before it is laid out. It gives every object the
largest alignment of the frame and assumes that all callee-saved registers are spilled; from it
depends whether the register scavenger has a slot. The layout takes the objects in another
order where a stack protector guards them, and leaves out those that were removed, while the
estimate counts such an object with a size of -1.
-/

namespace NaplesPU.WorstCaseFrame

open Alignment TwosComplement RegisterInfo FrameLayout

section Objects

/-- How close to the stack protector an object is placed. -/
inductive SSPLayoutKind where
  | SSPLK_None | SSPLK_LargeArray | SSPLK_SmallArray | SSPLK_AddrOf
deriving DecidableEq, Repr

/-- A local object, which has no size any more when it was removed. Its alignment is a power of
two. -/
structure StackObject where
  size : Option Nat
  alignment : Nat
  layout : SSPLayoutKind
  alignment_power : ∃ exponent, alignment = 2 ^ exponent
deriving DecidableEq

def isDeadObject (object : StackObject) : Bool := object.size.isNone

/-- The size as it is read, without a look at whether the object was removed. -/
def getObjectSize (object : StackObject) : Int :=
  match object.size with
  | some size => size
  | none => -1

/-- The objects of a frame before it is laid out. The registers to spill are callee-saved ones,
in their order; no object is aligned more than the frame; the slot of the stack protector is
the first object, since its allocation is put at the start of the function, and it is in use. An
index of an object is an `int`. -/
structure FrameObjects where
  fixedOffsets : List Int
  savedRegs : List Register
  objects : List StackObject
  maxAlignment : Nat
  stackProtectorIndex : Option Nat
  adjustsStack : Bool
  hasVarSizedObjects : Bool
  maxCallFrameSize : Nat
  saved_callee : savedRegs.Sublist calleeSavedRegs
  objects_lt : objects.length < 2 ^ 31
  max_alignment_power : objects ≠ [] → ∃ exponent, maxAlignment = 2 ^ exponent
  alignment_le : ∀ object ∈ objects, object.alignment ≤ maxAlignment
  protector_first : ∀ index ∈ stackProtectorIndex, index = 0 ∧
    ∀ object ∈ objects.head?, isDeadObject object = false

def FrameObjects.live (frame : FrameObjects) : List StackObject :=
  frame.objects.filter fun object => !isDeadObject object

end Objects

section Estimate

def getRegSizeInBits : RegClass → Nat
  | .GPR32 => 32
  | .VR512W => 512

def hasReservedCallFrame (frame : FrameObjects) : Bool := !frame.hasVarSizedObjects

def fixedEnd (frame : FrameObjects) : Nat :=
  frame.fixedOffsets.foldl (fun offset object => max offset (-object).toNat) 0

/-- A callee-saved register counts with its size in bits, as bytes. -/
def savedExtent (cls : RegClass) : Extent := ⟨getRegSizeInBits cls, getRegSizeInBits cls⟩

/-- The local variable `Offset` at the end of the estimate. It is signed and is rounded as an
unsigned number of sixty-four bits, which gives the same, since alignments are powers of two. -/
def worstCaseOffset (frame : FrameObjects) : Int :=
  let saved := stacked (fixedEnd frame) (calleeSavedRegs.map fun reg => savedExtent reg.cls)
  let placed := frame.objects.foldl
    (fun offset object => alignToInt (offset + getObjectSize object) frame.maxAlignment)
    (saved : Int)
  let called :=
    if frame.adjustsStack && hasReservedCallFrame frame then
      alignToInt (placed + frame.maxCallFrameSize) (max frame.maxAlignment getStackAlignment)
    else placed
  alignToInt called getStackAlignment

/-- The slot of the register scavenger, of the size and the alignment of a scalar register; the
result is read as a signed number again. -/
def scavengingSlot (frame : FrameObjects) : Option Extent :=
  if SignedFits 9 (worstCaseOffset frame) then none
  else some ⟨RegClass.GPR32.spillSize, RegClass.GPR32.spillAlignment⟩

end Estimate

section Layout

/-- The order of the layout, without the removed objects: with a stack protector, its slot, then
the arrays and the objects whose address is taken. -/
def allocationOrder (frame : FrameObjects) : List StackObject :=
  match frame.stackProtectorIndex with
  | none => frame.live
  | some index =>
      let others := (frame.objects.eraseIdx index).filter fun object => !isDeadObject object
      frame.objects[index]?.toList ++ others.filter (·.layout = .SSPLK_LargeArray) ++
        others.filter (·.layout = .SSPLK_SmallArray) ++ others.filter (·.layout = .SSPLK_AddrOf) ++
        others.filter (·.layout = .SSPLK_None)

def StackObject.extent (object : StackObject) : Extent := ⟨object.size.getD 0, object.alignment⟩

def placedEnd (frame : FrameObjects) : Nat :=
  stacked (frame.savedRegs.foldl nextOffset (fixedEnd frame))
    ((allocationOrder frame).map StackObject.extent)

def calledEnd (frame : FrameObjects) : Nat :=
  if frame.adjustsStack && hasReservedCallFrame frame then
    placedEnd frame + frame.maxCallFrameSize
  else placedEnd frame

/-- The size of the objects of the frame, as the prologue rounds it. -/
def frameSize (frame : FrameObjects) : Nat := alignTo (calledEnd frame) getStackAlignment

/-- The stack size of the layout, which is rounded to the alignment of the objects as well. The
slots of the registers are aligned no more than the stack. -/
def stackSize (frame : FrameObjects) : Nat :=
  alignTo (calledEnd frame) (max getStackAlignment frame.maxAlignment)

end Layout

section SavedRegisters

theorem saved_extent_positive (cls : RegClass) : 0 < (savedExtent cls).align := by
  cases cls <;> decide

theorem slot_fits (cls : RegClass) :
    0 < min cls.spillAlignment getStackAlignment ∧ cls.spillSize ≤ (savedExtent cls).size ∧
      min cls.spillAlignment getStackAlignment ∣ (savedExtent cls).align := by
  cases cls <;> decide

theorem add_size_le_next {extent : Extent} (positive : 0 < extent.align) (offset : Nat) :
    offset + extent.size ≤ extent.next offset := le_align_to positive _

theorem next_offset_le (reg : Register) {offset bound : Nat} (below : offset ≤ bound) :
    nextOffset offset reg ≤ (savedExtent reg.cls).next bound := by
  obtain ⟨positive, smaller, divides⟩ := slot_fits reg.cls
  have grown := add_size_le_next (saved_extent_positive reg.cls) bound
  exact align_to_le positive (by omega) (divides.trans (align_to_dvd _))

theorem saved_end_le {regs all : List Register} (subset : regs.Sublist all) {offset bound : Nat}
    (below : offset ≤ bound) :
    regs.foldl nextOffset offset ≤ stacked bound (all.map fun reg => savedExtent reg.cls) := by
  induction subset generalizing offset bound with
  | slnil => exact below
  | cons reg subset induction =>
      have grown : bound + (savedExtent reg.cls).size ≤ (savedExtent reg.cls).next bound :=
        add_size_le_next (saved_extent_positive reg.cls) bound
      exact induction (by dsimp only; omega)
  | cons_cons reg subset induction => exact induction (next_offset_le reg below)

end SavedRegisters

section Bound

variable (frame : FrameObjects)

theorem max_alignment_pos {object : StackObject} (member : object ∈ frame.objects) :
    0 < frame.maxAlignment := by
  obtain ⟨largest, power⟩ := frame.max_alignment_power (List.ne_nil_of_mem member)
  rw [power]
  exact Nat.two_pow_pos largest

theorem alignment_within {object : StackObject} (member : object ∈ frame.objects) :
    object.extent.Within frame.maxAlignment := by
  obtain ⟨largest, known⟩ := frame.max_alignment_power (List.ne_nil_of_mem member)
  obtain ⟨exponent, power⟩ := object.alignment_power
  have bounded := frame.alignment_le object member
  rw [known, power, Nat.pow_le_pow_iff_right (by decide)] at bounded
  constructor
  · rw [StackObject.extent, power]
    exact Nat.two_pow_pos exponent
  · rw [StackObject.extent, power, known]
    exact Nat.pow_dvd_pow 2 bounded

theorem count_kind (objects : List StackObject) (object : StackObject) (kind : SSPLayoutKind) :
    (objects.filter (·.layout = kind)).count object =
      if object.layout = kind then objects.count object else 0 := by
  split
  · rename_i same
    exact List.count_filter (decide_eq_true same)
  · rename_i different
    apply List.count_eq_zero_of_not_mem
    intro member
    have kept := (List.mem_filter.mp member).2
    exact different (of_decide_eq_true kept)

theorem kinds_perm (objects : List StackObject) :
    (objects.filter (·.layout = .SSPLK_LargeArray) ++
      objects.filter (·.layout = .SSPLK_SmallArray) ++ objects.filter (·.layout = .SSPLK_AddrOf) ++
      objects.filter (·.layout = .SSPLK_None)).Perm objects := by
  rw [List.perm_iff_count]
  intro object
  simp only [List.count_append, count_kind]
  cases object.layout <;> simp

theorem live_subset {object : StackObject} (member : object ∈ frame.live) :
    object ∈ frame.objects :=
  List.mem_of_mem_filter member

/-- The layout begins with the object that the estimate begins with. -/
theorem allocation_order_cons {first : StackObject} {rest : List StackObject}
    (known : frame.live = first :: rest) :
    ∃ others, allocationOrder frame = first :: others ∧ others.Perm rest := by
  rw [allocationOrder]
  cases protector : frame.stackProtectorIndex with
  | none => exact ⟨rest, known, List.Perm.refl rest⟩
  | some index =>
      obtain ⟨rfl, inUse⟩ := frame.protector_first index protector
      rw [FrameObjects.live] at known
      rcases objects : frame.objects with _ | ⟨slot, others⟩
      · rw [objects] at known
        cases known
      · rw [objects] at known inUse
        rw [List.filter_cons_of_pos (by rw [inUse slot rfl]; rfl)] at known
        cases known
        exact ⟨_, rfl, kinds_perm _⟩

theorem allocation_order_nil (known : frame.live = []) : allocationOrder frame = [] := by
  rw [allocationOrder]
  cases protector : frame.stackProtectorIndex with
  | none => exact known
  | some index =>
      obtain ⟨rfl, inUse⟩ := frame.protector_first index protector
      rw [FrameObjects.live] at known
      rcases objects : frame.objects with _ | ⟨slot, others⟩
      · rfl
      · rw [objects] at known inUse
        rw [List.filter_cons_of_pos (by rw [inUse slot rfl]; rfl)] at known
        cases known

/-- An object as the estimate takes it. -/
def widened (object : StackObject) : Extent := ⟨object.size.getD 0, frame.maxAlignment⟩

theorem widened_align {objects : List StackObject} :
    ∀ extent ∈ objects.map (widened frame), extent.align = frame.maxAlignment := by
  intro extent member
  obtain ⟨object, -, rfl⟩ := List.mem_map.mp member
  rfl

def savedRoom : Nat :=
  stacked (fixedEnd frame) (calleeSavedRegs.map fun reg => savedExtent reg.cls)

/-- What the estimate would be before the call frame, had no object been removed. -/
def estimatedEnd : Nat := stacked (savedRoom frame) (frame.live.map (widened frame))

theorem room_widened (objects : List StackObject) :
    room frame.maxAlignment (objects.map (widened frame)) =
      room frame.maxAlignment (objects.map StackObject.extent) := by
  rw [room, room, List.map_map, List.map_map]
  rfl

/-- Behind the first object the estimate goes on from a multiple of the largest alignment, and
has room for the others in every order. -/
theorem stacked_behind_first {first : StackObject} {rest others : List StackObject}
    (known : frame.live = first :: rest) (perm : others.Perm rest) {offset bound : Nat}
    (below : offset ≤ bound) :
    stacked offset ((first :: others).map StackObject.extent) ≤
      stacked bound ((first :: rest).map (widened frame)) := by
  have positive : 0 < frame.maxAlignment :=
    max_alignment_pos frame (live_subset frame (by rw [known]; exact List.mem_cons_self))
  have within : ∀ object ∈ first :: rest, object.extent.Within frame.maxAlignment := by
    intro object member
    exact alignment_within frame (live_subset frame (by rw [known]; exact member))
  rw [List.forall_mem_cons] at within
  have grown : bound + first.size.getD 0 ≤ (widened frame first).next bound := le_align_to positive _
  have aligned : frame.maxAlignment ∣ (widened frame first).next bound := align_to_dvd _
  have placed : first.extent.next offset ≤ (widened frame first).next bound := by
    have fits : offset + first.extent.size ≤ bound + first.size.getD 0 := Nat.add_le_add_right below _
    exact Extent.next_le within.1 (fits.trans grown) aligned
  have othersWithin : ∀ extent ∈ others.map StackObject.extent,
      extent.Within frame.maxAlignment := by
    intro extent member
    obtain ⟨object, inside, rfl⟩ := List.mem_map.mp member
    exact within.2 object (perm.mem_iff.mp inside)
  calc stacked offset ((first :: others).map StackObject.extent)
      = stacked (first.extent.next offset) (others.map StackObject.extent) := rfl
    _ ≤ (widened frame first).next bound +
          room frame.maxAlignment (others.map StackObject.extent) :=
        stacked_le positive othersWithin placed aligned
    _ = (widened frame first).next bound + room frame.maxAlignment (rest.map (widened frame)) := by
        rw [room_perm (perm.map _), room_widened]
    _ = stacked ((widened frame first).next bound) (rest.map (widened frame)) :=
        (stacked_uniform positive (widened_align frame) aligned).symm

theorem placed_end_le : placedEnd frame ≤ estimatedEnd frame := by
  have saved := saved_end_le frame.saved_callee (le_refl (fixedEnd frame))
  rw [placedEnd, estimatedEnd, savedRoom]
  generalize frame.savedRegs.foldl nextOffset (fixedEnd frame) = offset at saved ⊢
  generalize stacked (fixedEnd frame) (calleeSavedRegs.map fun reg => savedExtent reg.cls) = bound
    at saved ⊢
  cases known : frame.live with
  | nil =>
      rw [allocation_order_nil frame known]
      exact saved
  | cons first rest =>
      obtain ⟨others, order, perm⟩ := allocation_order_cons frame known
      rw [order]
      exact stacked_behind_first frame known perm saved

/-- What the estimate with the call frame would be. -/
def estimatedCall : Nat :=
  if frame.adjustsStack && hasReservedCallFrame frame then
    alignTo (estimatedEnd frame + frame.maxCallFrameSize) (max frame.maxAlignment getStackAlignment)
  else estimatedEnd frame

theorem stack_alignment_pos : 0 < getStackAlignment := by decide

theorem common_alignment_pos : 0 < max frame.maxAlignment getStackAlignment :=
  lt_max_of_lt_right stack_alignment_pos

theorem called_end_le : calledEnd frame ≤ estimatedCall frame := by
  have placed := placed_end_le frame
  have rounded := le_align_to (common_alignment_pos frame)
    (estimatedEnd frame + frame.maxCallFrameSize)
  rw [calledEnd, estimatedCall]
  split
  · omega
  · exact placed

/-- Had no object been removed, the estimate would bound every frame. -/
theorem frame_size_le : frameSize frame ≤ alignTo (estimatedCall frame) getStackAlignment :=
  align_to_mono stack_alignment_pos (called_end_le frame)

theorem estimated_end_dvd (nonempty : frame.live ≠ []) :
    frame.maxAlignment ∣ estimatedEnd frame := by
  rw [estimatedEnd]
  generalize savedRoom frame = bound
  cases known : frame.live with
  | nil => exact absurd known nonempty
  | cons first rest =>
      have aligned : frame.maxAlignment ∣ (widened frame first).next bound := align_to_dvd _
      change _ ∣ stacked ((widened frame first).next bound) (rest.map (widened frame))
      apply stacked_dvd _ aligned
      intro extent member
      rw [widened_align frame extent member]

/-- It would bound the rounded stack size too, where there is an object to bring the alignment
with it. -/
theorem stack_size_le (nonempty : frame.live ≠ []) :
    stackSize frame ≤ alignTo (estimatedCall frame) getStackAlignment := by
  rw [stackSize]
  rcases le_total frame.maxAlignment getStackAlignment with small | large
  · rw [max_eq_left small]
    exact frame_size_le frame
  · rw [max_eq_right large]
    have positive : 0 < frame.maxAlignment := stack_alignment_pos.trans_le large
    have multiple : frame.maxAlignment ∣ estimatedCall frame := by
      rw [estimatedCall, max_eq_left large]
      split
      · exact align_to_dvd _
      · exact estimated_end_dvd frame nonempty
    exact (align_to_le positive (called_end_le frame) multiple).trans
      (le_align_to stack_alignment_pos _)

end Bound

section Removed

variable (frame : FrameObjects)

theorem saved_room_even : 2 ∣ savedRoom frame := by
  have evenAlign : ∀ extent ∈ calleeSavedRegs.map fun reg => savedExtent reg.cls,
      2 ∣ extent.align := by
    intro extent member
    obtain ⟨reg, -, rfl⟩ := List.mem_map.mp member
    cases reg.cls <;> decide
  obtain ⟨first, rest, known⟩ : ∃ first rest,
      (calleeSavedRegs.map fun reg => savedExtent reg.cls) = first :: rest := ⟨_, _, rfl⟩
  rw [known, List.forall_mem_cons] at evenAlign
  rw [savedRoom, known, stacked, List.foldl_cons]
  exact stacked_dvd evenAlign.2 (evenAlign.1.trans (align_to_dvd _))

/-- With an even alignment a removed object takes nothing away. -/
theorem live_le_placed {objects : List StackObject} (positive : 0 < frame.maxAlignment)
    (even : 2 ∣ frame.maxAlignment) {offset : Int} {bound : Nat} (evenOffset : 2 ∣ offset)
    (below : (bound : Int) ≤ offset) :
    (stacked bound ((objects.filter fun object => !isDeadObject object).map (widened frame)) :
        Int) ≤
      objects.foldl (fun offset object =>
        alignToInt (offset + getObjectSize object) frame.maxAlignment) offset := by
  induction objects generalizing offset bound with
  | nil => exact below
  | cons object rest induction =>
      have evenNext : 2 ∣ alignToInt (offset + getObjectSize object) frame.maxAlignment :=
        (Int.natCast_dvd_natCast.mpr even).trans (align_to_int_dvd _)
      rw [List.foldl_cons]
      cases size : object.size with
      | none =>
          have dead : ¬ (!isDeadObject object) = true := by
            rw [isDeadObject, size]
            decide
          have minusOne : getObjectSize object = -1 := by
            rw [getObjectSize, size]
          rw [List.filter_cons, if_neg dead]
          apply induction evenNext
          rw [minusOne]
          exact below.trans (le_align_to_int_pred positive even evenOffset)
      | some bytes =>
          have alive : (!isDeadObject object) = true := by
            rw [isDeadObject, size]
            rfl
          have whole : getObjectSize object = bytes := by
            rw [getObjectSize, size]
          have next : (widened frame object).next bound =
              alignTo (bound + bytes) frame.maxAlignment := by
            rw [Extent.next, widened, size]
            rfl
          rw [List.filter_cons, if_pos alive, List.map_cons, stacked, List.foldl_cons, next]
          apply induction evenNext
          rw [whole, ← align_to_int_nat positive]
          apply align_to_int_mono positive
          push_cast
          omega

/-- The estimate is not below what it would be without the removed objects, unless no object is
aligned. -/
theorem estimate_le_offset (aligned : frame.maxAlignment ≠ 1) :
    (alignTo (estimatedCall frame) getStackAlignment : Int) ≤ worstCaseOffset frame := by
  have placed : (estimatedEnd frame : Int) ≤ frame.objects.foldl (fun offset object =>
      alignToInt (offset + getObjectSize object) frame.maxAlignment) (savedRoom frame : Int) := by
    have savedEven := saved_room_even frame
    rw [estimatedEnd, FrameObjects.live]
    generalize savedRoom frame = bound at savedEven ⊢
    rcases Decidable.em (frame.objects = []) with none | some
    · rw [none]
      exact le_refl _
    · obtain ⟨exponent, power⟩ := frame.max_alignment_power some
      rcases exponent with _ | exponent
      · exact absurd power aligned
      · have even : 2 ∣ frame.maxAlignment := ⟨2 ^ exponent, by rw [power, Nat.pow_succ']⟩
        have positive : 0 < frame.maxAlignment := by
          rw [power]
          exact Nat.two_pow_pos _
        exact live_le_placed frame positive even (by omega) (le_refl _)
  rw [worstCaseOffset, ← align_to_int_nat stack_alignment_pos]
  apply align_to_int_mono stack_alignment_pos
  rw [estimatedCall]
  split
  · rw [← align_to_int_nat (common_alignment_pos frame)]
    apply align_to_int_mono (common_alignment_pos frame)
    rw [Nat.cast_add]
    exact Int.add_le_add_right placed _
  · exact placed

/-- So it bounds the size rounded to the alignment of the objects as well. -/
theorem stack_size_le_offset (aligned : frame.maxAlignment ≠ 1) (nonempty : frame.live ≠ []) :
    (stackSize frame : Int) ≤ worstCaseOffset frame :=
  (Int.ofNat_le.mpr (stack_size_le frame nonempty)).trans (estimate_le_offset frame aligned)

/-- All registers together exceed the reach of nine bits, so the scavenger has a slot in every
function with an aligned object. -/
theorem scavenging_slot_created (aligned : frame.maxAlignment ≠ 1) :
    (scavengingSlot frame).isSome = true := by
  have savedPositive : ∀ extent ∈ calleeSavedRegs.map fun reg => savedExtent reg.cls,
      0 < extent.align := by
    intro extent member
    obtain ⟨reg, -, rfl⟩ := List.mem_map.mp member
    exact saved_extent_positive reg.cls
  have widenedPositive : ∀ extent ∈ frame.live.map (widened frame), 0 < extent.align := by
    intro extent member
    obtain ⟨object, inside, rfl⟩ := List.mem_map.mp member
    exact max_alignment_pos frame (live_subset frame inside)
  have sizes : ((calleeSavedRegs.map fun reg => savedExtent reg.cls).map Extent.size).sum =
    4448 := rfl
  have saved := @add_sizes_le_stacked (fixedEnd frame) _ savedPositive
  have placed : _ ≤ estimatedEnd frame := add_sizes_le_stacked widenedPositive
  have called := le_align_to (common_alignment_pos frame)
    (estimatedEnd frame + frame.maxCallFrameSize)
  have ended : estimatedEnd frame ≤ estimatedCall frame := by
    rw [estimatedCall]
    split <;> omega
  have rounded := le_align_to stack_alignment_pos (estimatedCall frame)
  have sound := estimate_le_offset frame aligned
  rw [sizes, ← savedRoom] at saved
  have large : ¬ SignedFits 9 (worstCaseOffset frame) := by
    rw [SignedFits]
    omega
  rw [scavengingSlot, if_neg large]
  rfl

end Removed

section Merged

end Merged

end NaplesPU.WorstCaseFrame
