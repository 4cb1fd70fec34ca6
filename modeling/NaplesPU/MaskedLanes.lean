import Mathlib.Data.Fintype.Basic
import NaplesPU.Lib.Lanes
import NaplesPU.StackSlots

/-!
The expansions of the pseudo instructions that choose lanes by a mask. Every operation
that writes a vector register is taken to be masked by the mask register; the expansions
save it, write the lanes they want under masks of their own, and restore it. Code is kept
over virtual registers, and an allocation gives each a register such that what is alive
at a definition keeps its value.
-/

namespace NaplesPU.MaskedLanes

open ByteMemory Lanes RegisterInfo InstrInfo FixupKinds MCCodeEmitter Machine StackSlots

section Execution

abbrev mr : Fin 64 := MR_REG.encoding

def wordOf (vector : Vector) (index : Fin 16) : Word := lane vector index

def vectorOf (words : Fin 16 → Word) : Vector := ofLanes words

/-- Lanes whose bit of the mask is zero keep their old value. -/
def maskedWrite (mask : Word) (old new : Vector) : Vector :=
  vectorOf fun index => if mask.getLsbD index then wordOf new index else wordOf old index

def splat (value : Word) : Vector := vectorOf fun _ => value

/-- Execution with masked moves of vectors. A shift by the width or more has no meaning. -/
def execMasked (inst : MCInst) (registers : Registers) (memory : Memory 32) :
    Option Effect :=
  match inst.opcode with
  | .MOVE_VV_32 =>
      some ⟨registers.setVec (fieldReg inst .dst)
        (maskedWrite (registers.gpr mr) (registers.vec (fieldReg inst .dst))
          (registers.vec (fieldReg inst .src0))), memory, none⟩
  | .MOVE_VS_M_32 =>
      some ⟨registers.setVec (fieldReg inst .dst)
        (maskedWrite (registers.gpr mr) (registers.vec (fieldReg inst .dst))
          (splat (registers.gpr (fieldReg inst .src0)))), memory, none⟩
  | .arithInt .SLL .SSS_32 =>
      let amount := (registers.gpr (fieldReg inst .src1)).toNat
      if amount < 32 then
        some ⟨registers.setGpr (fieldReg inst .dst)
          (registers.gpr (fieldReg inst .src0) <<< amount), memory, none⟩
      else none
  | _ => exec inst registers memory

def execMaskedStraight : List MCInst → Registers → Memory 32 →
    Option (Registers × Memory 32)
  | [], registers, memory => some (registers, memory)
  | inst :: rest, registers, memory =>
      match execMasked inst registers memory with
      | some ⟨nextRegisters, nextMemory, none⟩ => execMaskedStraight rest nextRegisters nextMemory
      | _ => none

theorem word_of_vector_of (words : Fin 16 → Word) (index : Fin 16) :
    wordOf (vectorOf words) index = words index := lane_of_lanes words index

theorem masked_write_word (mask : Word) (old new : Vector) (index : Fin 16) :
    wordOf (maskedWrite mask old new) index =
      if mask.getLsbD index then wordOf new index else wordOf old index :=
  word_of_vector_of _ index

theorem splat_word (value : Word) (index : Fin 16) : wordOf (splat value) index = value :=
  word_of_vector_of _ index

variable (registers : Registers) (memory : Memory 32)

/-- What an instruction does without a mask it does with one. -/
theorem exec_masked_of_exec {inst : MCInst} {registers : Registers} {effect : Effect}
    (executed : exec inst registers memory = some effect) :
    execMasked inst registers memory = some effect := by
  unfold execMasked
  split
  all_goals
    first
    | exact executed
    | (rename_i opcode
       unfold exec at executed
       rw [opcode] at executed
       cases executed)

theorem exec_masked_cons {inst : MCInst} {registers nextRegisters : Registers}
    (executed : execMasked inst registers memory = some ⟨nextRegisters, memory, none⟩)
    (rest : List MCInst) :
    execMaskedStraight (inst :: rest) registers memory =
      execMaskedStraight rest nextRegisters memory := by
  rw [execMaskedStraight, executed]

theorem exec_move_vector (dst src : Fin 64) :
    execMasked ⟨.MOVE_VV_32, [.reg (vReg dst), .reg (vReg src)]⟩ registers memory =
      some ⟨registers.setVec dst
        (maskedWrite (registers.gpr mr) (registers.vec dst) (registers.vec src)),
        memory, none⟩ := by
  simp only [execMasked]
  rw [field_reg_eq .dst (vReg dst) rfl, field_reg_eq .src0 (vReg src) rfl]
  rfl

theorem exec_move_scalar_masked (dst src old : Fin 64) :
    execMasked ⟨.MOVE_VS_M_32, [.reg (vReg dst), .reg (sReg src), .reg (vReg old)]⟩ registers
        memory =
      some ⟨registers.setVec dst
        (maskedWrite (registers.gpr mr) (registers.vec dst) (splat (registers.gpr src))),
        memory, none⟩ := by
  simp only [execMasked]
  rw [field_reg_eq .dst (vReg dst) rfl, field_reg_eq .src0 (sReg src) rfl]
  rfl

theorem exec_shift (dst src0 src1 : Fin 64) (inside : (registers.gpr src1).toNat < 32) :
    execMasked ⟨.arithInt .SLL .SSS_32, [.reg (sReg dst), .reg (sReg src0), .reg (sReg src1)]⟩
        registers memory =
      some ⟨registers.setGpr dst (registers.gpr src0 <<< (registers.gpr src1).toNat),
        memory, none⟩ := by
  simp only [execMasked]
  rw [field_reg_eq .dst (sReg dst) rfl, field_reg_eq .src0 (sReg src0) rfl,
    field_reg_eq .src1 (sReg src1) rfl]
  exact if_pos inside

end Execution

section Allocation

inductive MachineOperand (Reg : Type) where
  | define (register : Reg)
  | use (register : Reg)
  | imm (value : Int)

structure MachineInstr (Reg : Type) where
  opcode : Opcode
  operands : List (MachineOperand Reg)

variable {Reg : Type} [DecidableEq Reg]

def MachineInstr.defines (inst : MachineInstr Reg) (register : Reg) : Bool :=
  inst.operands.any fun operand =>
    match operand with
    | .define written => written = register
    | _ => false

def MachineInstr.uses (inst : MachineInstr Reg) (register : Reg) : Bool :=
  inst.operands.any fun operand =>
    match operand with
    | .use read => read = register
    | _ => false

/-- The code reads the value that a register has at its start. -/
def live : List (MachineInstr Reg) → Reg → Bool
  | [], _ => false
  | inst :: rest, register =>
      inst.uses register || !inst.defines register && live rest register

/-- An allocation in which values that are alive together do not share a register. -/
structure Allocation (cls : Reg → RegClass) (mask : Reg) (code : List (MachineInstr Reg)) where
  assign : Reg → Fin 64
  mask_assigned : assign mask = mr
  allocatable : ∀ register, register ≠ mask →
    (⟨cls register, assign register⟩ : Register) ∉ getReservedRegs
  separated : ∀ (index : Fin code.length) (written register : Reg),
    (code.get index).defines written = true → live (code.drop (index + 1)) register = true →
    register ≠ written →
      (⟨cls register, assign register⟩ : Register) ≠ ⟨cls written, assign written⟩

variable {cls : Reg → RegClass} {mask : Reg} {code : List (MachineInstr Reg)}
  (alloc : Allocation cls mask code)

def Allocation.place (register : Reg) : Register := ⟨cls register, alloc.assign register⟩

def Allocation.lowerOperand : MachineOperand Reg → MCOperand
  | .define register | .use register => .reg (alloc.place register)
  | .imm value => .imm value

def Allocation.lower (inst : MachineInstr Reg) : MCInst :=
  ⟨inst.opcode, inst.operands.map alloc.lowerOperand⟩

/-- The mask register is given to no virtual register. -/
theorem Allocation.not_mask {register : Reg} (virtual : register ≠ mask)
    (scalar : cls register = .GPR32) : alloc.assign register ≠ mr := by
  intro same
  apply alloc.allocatable register virtual
  rw [scalar, same]
  decide

/-- A register that is alive behind a definition is not the defined one. -/
theorem Allocation.apart (index : Fin code.length) {register written : Reg}
    (defined : (code.get index).defines written = true)
    (alive : live (code.drop (index + 1)) register = true) (other : register ≠ written)
    (sameClass : cls register = cls written) : alloc.assign register ≠ alloc.assign written := by
  intro same
  apply alloc.separated index written register defined alive other
  rw [sameClass, same]

structure Unchanged (before after : Registers) (dst : Fin 64) (temporaries : List (Fin 64)) :
    Prop where
  mask : after.gpr mr = before.gpr mr
  scalars : ∀ index ∉ temporaries, after.gpr index = before.gpr index
  vectors : ∀ index, index ≠ dst → after.vec index = before.vec index

end Allocation

section Expansions

inductive SelectReg where
  | mr | dst | pred | trueVal | falseVal | oldMR | negOne
deriving DecidableEq, Repr

def SelectReg.cls : SelectReg → RegClass
  | .dst | .trueVal | .falseVal => .VR512W
  | .mr | .pred | .oldMR | .negOne => .GPR32

def loadImmediate {Reg : Type} (register : Reg) (immediate : Word) : List (MachineInstr Reg) :=
  [⟨.moveImm .MOVEIH .SI, [.define register, .imm ((immediate >>> 16) &&& (0xFFFF : Word)).toNat]⟩,
    ⟨.moveImm .MOVEIL .SI, [.use register, .imm (immediate &&& (0xFFFF : Word)).toNat]⟩]

def emitSelectCC_Vec32 : List (MachineInstr SelectReg) :=
  [ ⟨.MOVE_SS_32, [.define .oldMR, .use .mr]⟩,
    ⟨.MOVE_SS_32, [.define .mr, .use .pred]⟩,
    ⟨.MOVE_VV_32, [.define .dst, .use .trueVal]⟩ ] ++
  loadImmediate .negOne 0xFFFFFFFF ++
  [ ⟨.arithInt .XOR .SSS_32, [.define .mr, .use .mr, .use .negOne]⟩,
    -- the destination is added as an operand that is read
    ⟨.MOVE_VV_32, [.use .dst, .use .falseVal]⟩,
    ⟨.MOVE_SS_32, [.define .mr, .use .oldMR]⟩ ]

inductive InsertReg where
  | mr | dst | source | scalar | index | one | shiftedVal | oldMR
deriving DecidableEq, Repr

def InsertReg.cls : InsertReg → RegClass
  | .dst | .source => .VR512W
  | .mr | .scalar | .index | .one | .shiftedVal | .oldMR => .GPR32

def emitInsertELT : List (MachineInstr InsertReg) :=
  [ ⟨.MOVE_SS_32, [.define .oldMR, .use .mr]⟩ ] ++
  loadImmediate .one 1 ++
  [ ⟨.arithInt .SLL .SSS_32, [.define .shiftedVal, .use .one, .use .index]⟩,
    ⟨.MOVE_SS_32, [.define .mr, .use .shiftedVal]⟩,
    ⟨.MOVE_VS_M_32, [.define .dst, .use .scalar, .use .source]⟩,
    ⟨.MOVE_SS_32, [.define .mr, .use .oldMR]⟩ ]

abbrev SelectAllocation := Allocation SelectReg.cls .mr emitSelectCC_Vec32

/-- The masked move ties its destination to the old vector. -/
structure InsertAllocation extends Allocation InsertReg.cls .mr emitInsertELT where
  tied : assign .dst = assign .source

end Expansions

section Runs

variable {registers final : Registers} {memory finalMemory : Memory 32}

theorem exec_masked_of_straight {straight : List MCInst}
    (executed : execStraight straight registers memory = some (final, finalMemory))
    (rest : List MCInst) :
    execMaskedStraight (straight ++ rest) registers memory =
      execMaskedStraight rest final finalMemory := by
  induction straight generalizing registers memory with
  | nil =>
      cases executed
      rfl
  | cons inst straight induction =>
      rw [execStraight] at executed
      split at executed
      · rename_i nextRegisters nextMemory first
        rw [List.cons_append, execMaskedStraight, exec_masked_of_exec memory first]
        exact induction executed
      · cases executed

theorem high_half_masked (value : Word) :
    BitVec.ofInt 32 (((value >>> 16) &&& (0xFFFF : Word)).toNat : Int) &&& (0xffff : Word) =
      value >>> 16 := by
  apply BitVec.eq_of_toNat_eq
  rw [BitVec.ofInt_natCast, BitVec.ofNat_toNat, BitVec.setWidth_eq, BitVec.and_assoc,
    BitVec.and_self, low_mask_to_nat, BitVec.toNat_ushiftRight, Nat.shiftRight_eq_div_pow]
  omega

theorem low_half_masked (value : Word) :
    BitVec.ofInt 32 ((value &&& (0xFFFF : Word)).toNat : Int) &&& (0xffff : Word) =
      value &&& 0xffff := by
  rw [BitVec.ofInt_natCast, BitVec.ofNat_toNat, BitVec.setWidth_eq, BitVec.and_assoc,
    BitVec.and_self]

variable {Reg : Type} [DecidableEq Reg] {cls : Reg → RegClass} {mask : Reg}
  {code : List (MachineInstr Reg)} (alloc : Allocation cls mask code)

theorem place_scalar {register : Reg} (scalar : cls register = .GPR32) :
    alloc.place register = sReg (alloc.assign register) := by
  rw [Allocation.place, scalar]
  rfl

theorem place_vector {register : Reg} (vector : cls register = .VR512W) :
    alloc.place register = vReg (alloc.assign register) := by
  rw [Allocation.place, vector]
  rfl

theorem load_immediate_runs {register : Reg} (scalar : cls register = .GPR32) (immediate : Word)
    (rest : List MCInst) :
    execMaskedStraight ((loadImmediate register immediate).map alloc.lower ++ rest) registers
        memory =
      execMaskedStraight rest (registers.setGpr (alloc.assign register) immediate) memory := by
  have loaded := load_halves_runs registers memory (alloc.assign register)
    (high_half_masked immediate) (low_half_masked immediate) []
  rw [← place_scalar alloc scalar] at loaded
  exact exec_masked_of_straight loaded rest

variable (registers) (memory) {target source other : Reg}

theorem lowered_move (targetScalar : cls target = .GPR32) (sourceScalar : cls source = .GPR32) :
    execMasked (alloc.lower ⟨.MOVE_SS_32, [.define target, .use source]⟩) registers memory =
      some ⟨registers.setGpr (alloc.assign target) (registers.gpr (alloc.assign source)),
        memory, none⟩ := by
  simp only [Allocation.lower, List.map_cons, List.map_nil, Allocation.lowerOperand,
    place_scalar alloc targetScalar, place_scalar alloc sourceScalar]
  exact exec_masked_of_exec memory (exec_move registers memory _ _)

theorem lowered_xor (targetScalar : cls target = .GPR32) (sourceScalar : cls source = .GPR32)
    (otherScalar : cls other = .GPR32) :
    execMasked (alloc.lower ⟨.arithInt .XOR .SSS_32, [.define target, .use source, .use other]⟩)
        registers memory =
      some ⟨registers.setGpr (alloc.assign target)
        (registers.gpr (alloc.assign source) ^^^ registers.gpr (alloc.assign other)),
        memory, none⟩ := by
  simp only [Allocation.lower, List.map_cons, List.map_nil, Allocation.lowerOperand,
    place_scalar alloc targetScalar, place_scalar alloc sourceScalar,
    place_scalar alloc otherScalar]
  exact exec_masked_of_exec memory (exec_arith registers memory rfl _ _ _)

theorem lowered_shift (targetScalar : cls target = .GPR32) (sourceScalar : cls source = .GPR32)
    (otherScalar : cls other = .GPR32)
    (inside : (registers.gpr (alloc.assign other)).toNat < 32) :
    execMasked (alloc.lower ⟨.arithInt .SLL .SSS_32, [.define target, .use source, .use other]⟩)
        registers memory =
      some ⟨registers.setGpr (alloc.assign target)
        (registers.gpr (alloc.assign source) <<< (registers.gpr (alloc.assign other)).toNat),
        memory, none⟩ := by
  simp only [Allocation.lower, List.map_cons, List.map_nil, Allocation.lowerOperand,
    place_scalar alloc targetScalar, place_scalar alloc sourceScalar,
    place_scalar alloc otherScalar]
  exact exec_shift registers memory _ _ _ inside

theorem lowered_move_vector {operand : MachineOperand Reg}
    (names : operand = .define target ∨ operand = .use target)
    (targetVector : cls target = .VR512W) (sourceVector : cls source = .VR512W) :
    execMasked (alloc.lower ⟨.MOVE_VV_32, [operand, .use source]⟩) registers memory =
      some ⟨registers.setVec (alloc.assign target)
        (maskedWrite (registers.gpr mr) (registers.vec (alloc.assign target))
          (registers.vec (alloc.assign source))), memory, none⟩ := by
  have lowered : alloc.lowerOperand operand = .reg (vReg (alloc.assign target)) := by
    rw [← place_vector alloc targetVector]
    rcases names with rfl | rfl <;> rfl
  rw [Allocation.lower, List.map_cons, List.map_cons, List.map_nil, lowered,
    Allocation.lowerOperand, place_vector alloc sourceVector]
  exact exec_move_vector registers memory _ _

theorem lowered_insert (targetVector : cls target = .VR512W) (sourceScalar : cls source = .GPR32)
    (otherVector : cls other = .VR512W) :
    execMasked (alloc.lower ⟨.MOVE_VS_M_32, [.define target, .use source, .use other]⟩) registers
        memory =
      some ⟨registers.setVec (alloc.assign target)
        (maskedWrite (registers.gpr mr) (registers.vec (alloc.assign target))
          (splat (registers.gpr (alloc.assign source)))), memory, none⟩ := by
  simp only [Allocation.lower, List.map_cons, List.map_nil, Allocation.lowerOperand,
    place_vector alloc targetVector, place_scalar alloc sourceScalar,
    place_vector alloc otherVector]
  exact exec_move_scalar_masked registers memory _ _ _

end Runs

section Select

/-- Two writes under complementary masks choose between two vectors. -/
theorem complementary_writes_word (pred : Word) (old trueVal falseVal : Vector)
    (index : Fin 16) :
    wordOf (maskedWrite (pred ^^^ 0xFFFFFFFF) (maskedWrite pred old trueVal) falseVal) index =
      if pred.getLsbD index then wordOf trueVal index else wordOf falseVal index := by
  have ones : (0xFFFFFFFF : Word).getLsbD index = true := by
    revert index
    decide
  rw [masked_write_word, masked_write_word, BitVec.getLsbD_xor, ones, Bool.xor_true]
  cases pred.getLsbD index <;> rfl

/-- Every lane of the destination is that of the vector which its bit of the predicate chooses. -/
def SelectsLanes (alloc : SelectAllocation) (registers : Registers) (memory : Memory 32) : Prop :=
  ∃ final, execMaskedStraight (emitSelectCC_Vec32.map alloc.lower) registers memory =
      some (final, memory) ∧
    (∀ index : Fin 16, wordOf (final.vec (alloc.assign .dst)) index =
      if (registers.gpr (alloc.assign .pred)).getLsbD index then
        wordOf (registers.vec (alloc.assign .trueVal)) index
      else wordOf (registers.vec (alloc.assign .falseVal)) index) ∧
    Unchanged registers final (alloc.assign .dst) [alloc.assign .oldMR, alloc.assign .negOne]

theorem selects_lanes (alloc : SelectAllocation) (registers : Registers) (memory : Memory 32) :
    SelectsLanes alloc registers memory := by
  have oldVirtual : alloc.assign .oldMR ≠ mr := alloc.not_mask (by decide) rfl
  have negVirtual : alloc.assign .negOne ≠ mr := alloc.not_mask (by decide) rfl
  have predKept : alloc.assign .pred ≠ alloc.assign .oldMR :=
    alloc.apart ⟨0, by decide⟩ rfl rfl (by decide) rfl
  have oldKept : alloc.assign .oldMR ≠ alloc.assign .negOne :=
    alloc.apart ⟨3, by decide⟩ rfl rfl (by decide) rfl
  have falseKept : alloc.assign .falseVal ≠ alloc.assign .dst :=
    alloc.apart ⟨2, by decide⟩ rfl rfl (by decide) rfl
  have lowered : emitSelectCC_Vec32.map alloc.lower =
      alloc.lower ⟨.MOVE_SS_32, [.define .oldMR, .use .mr]⟩ ::
      alloc.lower ⟨.MOVE_SS_32, [.define .mr, .use .pred]⟩ ::
      alloc.lower ⟨.MOVE_VV_32, [.define .dst, .use .trueVal]⟩ ::
      ((loadImmediate .negOne 0xFFFFFFFF).map alloc.lower ++
        [alloc.lower ⟨.arithInt .XOR .SSS_32, [.define .mr, .use .mr, .use .negOne]⟩,
          alloc.lower ⟨.MOVE_VV_32, [.use .dst, .use .falseVal]⟩,
          alloc.lower ⟨.MOVE_SS_32, [.define .mr, .use .oldMR]⟩]) := rfl
  rw [SelectsLanes, lowered,
    exec_masked_cons memory (lowered_move _ memory alloc rfl rfl),
    exec_masked_cons memory (lowered_move _ memory alloc rfl rfl),
    exec_masked_cons memory (lowered_move_vector _ memory alloc (Or.inl rfl) rfl rfl),
    load_immediate_runs alloc rfl,
    exec_masked_cons memory (lowered_xor _ memory alloc rfl rfl rfl),
    exec_masked_cons memory (lowered_move_vector _ memory alloc (Or.inr rfl) rfl rfl),
    exec_masked_cons memory (lowered_move _ memory alloc rfl rfl), execMaskedStraight]
  refine ⟨_, rfl, ?_, ?_, ?_, ?_⟩
  · intro index
    simp only [set_gpr_gpr, set_gpr_vec, set_vec_gpr, set_vec_vec, alloc.mask_assigned,
      Function.update_self, Function.update_of_ne predKept, Function.update_of_ne falseKept,
      Function.update_of_ne negVirtual.symm]
    exact complementary_writes_word _ _ _ _ index
  · simp only [set_gpr_gpr, set_vec_gpr, alloc.mask_assigned, Function.update_self,
      Function.update_of_ne oldVirtual, Function.update_of_ne oldKept]
  · intro index others
    rw [List.mem_cons, List.mem_singleton, not_or] at others
    simp only [set_gpr_gpr, set_vec_gpr, alloc.mask_assigned, Function.update_self,
      Function.update_of_ne oldVirtual, Function.update_of_ne oldKept]
    by_cases isMask : index = mr
    · rw [isMask, Function.update_self]
    · simp only [Function.update_of_ne isMask, Function.update_of_ne others.1,
        Function.update_of_ne others.2]
  · intro index other
    simp only [set_gpr_vec, set_vec_vec, Function.update_of_ne other]

end Select

section Insert

theorem one_shifted_bit (amount : Nat) (index : Fin 16) :
    ((1 : Word) <<< amount).getLsbD index = decide (index.val = amount) := by
  have inside : index.val < 32 := by omega
  have one : (1 : Word).toNat = 1 := rfl
  rw [BitVec.getLsbD, BitVec.toNat_shiftLeft, one, Nat.shiftLeft_eq, Nat.one_mul,
    Nat.testBit_mod_two_pow, Nat.testBit_two_pow, decide_eq_true inside, Bool.true_and,
    decide_eq_decide]
  exact eq_comm

/-- The lane that the index names is the scalar, and the others are those of the source. -/
def InsertsLane (alloc : InsertAllocation) (registers : Registers) (memory : Memory 32) : Prop :=
  ∃ final, execMaskedStraight (emitInsertELT.map alloc.lower) registers memory =
      some (final, memory) ∧
    (∀ index : Fin 16, wordOf (final.vec (alloc.assign .dst)) index =
      if index.val = (registers.gpr (alloc.assign .index)).toNat then
        registers.gpr (alloc.assign .scalar)
      else wordOf (registers.vec (alloc.assign .source)) index) ∧
    Unchanged registers final (alloc.assign .dst)
      [alloc.assign .oldMR, alloc.assign .one, alloc.assign .shiftedVal]

theorem inserts_lane (alloc : InsertAllocation) (registers : Registers) (memory : Memory 32)
    (inside : (registers.gpr (alloc.assign .index)).toNat < 16) :
    InsertsLane alloc registers memory := by
  have oldVirtual : alloc.assign .oldMR ≠ mr := alloc.not_mask (by decide) rfl
  have oneVirtual : alloc.assign .one ≠ mr := alloc.not_mask (by decide) rfl
  have shiftedVirtual : alloc.assign .shiftedVal ≠ mr := alloc.not_mask (by decide) rfl
  have scalarVirtual : alloc.assign .scalar ≠ mr := alloc.not_mask (by decide) rfl
  have indexOld : alloc.assign .index ≠ alloc.assign .oldMR :=
    alloc.apart ⟨0, by decide⟩ rfl rfl (by decide) rfl
  have scalarOld : alloc.assign .scalar ≠ alloc.assign .oldMR :=
    alloc.apart ⟨0, by decide⟩ rfl rfl (by decide) rfl
  have indexOne : alloc.assign .index ≠ alloc.assign .one :=
    alloc.apart ⟨1, by decide⟩ rfl rfl (by decide) rfl
  have scalarOne : alloc.assign .scalar ≠ alloc.assign .one :=
    alloc.apart ⟨1, by decide⟩ rfl rfl (by decide) rfl
  have oldOne : alloc.assign .oldMR ≠ alloc.assign .one :=
    alloc.apart ⟨1, by decide⟩ rfl rfl (by decide) rfl
  have scalarShifted : alloc.assign .scalar ≠ alloc.assign .shiftedVal :=
    alloc.apart ⟨3, by decide⟩ rfl rfl (by decide) rfl
  have oldShifted : alloc.assign .oldMR ≠ alloc.assign .shiftedVal :=
    alloc.apart ⟨3, by decide⟩ rfl rfl (by decide) rfl
  have lowered : emitInsertELT.map alloc.lower =
      alloc.lower ⟨.MOVE_SS_32, [.define .oldMR, .use .mr]⟩ ::
      ((loadImmediate .one 1).map alloc.lower ++
        [alloc.lower ⟨.arithInt .SLL .SSS_32, [.define .shiftedVal, .use .one, .use .index]⟩,
          alloc.lower ⟨.MOVE_SS_32, [.define .mr, .use .shiftedVal]⟩,
          alloc.lower ⟨.MOVE_VS_M_32, [.define .dst, .use .scalar, .use .source]⟩,
          alloc.lower ⟨.MOVE_SS_32, [.define .mr, .use .oldMR]⟩]) := rfl
  have index (value one : Word) :
      ((registers.setGpr (alloc.assign .oldMR) value).setGpr (alloc.assign .one) one).gpr
        (alloc.assign .index) = registers.gpr (alloc.assign .index) := by
    simp only [set_gpr_gpr, Function.update_of_ne indexOne, Function.update_of_ne indexOld]
  rw [InsertsLane, lowered,
    exec_masked_cons memory (lowered_move _ memory alloc.toAllocation rfl rfl),
    load_immediate_runs alloc.toAllocation rfl,
    exec_masked_cons memory (lowered_shift _ memory alloc.toAllocation rfl rfl rfl
      (by rw [index]; omega)),
    exec_masked_cons memory (lowered_move _ memory alloc.toAllocation rfl rfl),
    exec_masked_cons memory (lowered_insert _ memory alloc.toAllocation rfl rfl rfl),
    exec_masked_cons memory (lowered_move _ memory alloc.toAllocation rfl rfl), execMaskedStraight,
    index]
  refine ⟨_, rfl, ?_, ?_, ?_, ?_⟩
  · intro lane
    simp only [set_gpr_gpr, set_gpr_vec, set_vec_vec, alloc.mask_assigned, Function.update_self,
      Function.update_of_ne scalarVirtual, Function.update_of_ne scalarOld,
      Function.update_of_ne scalarOne, Function.update_of_ne scalarShifted]
    rw [masked_write_word, splat_word, one_shifted_bit, alloc.tied]
    simp only [decide_eq_true_eq]
  · simp only [set_gpr_gpr, set_vec_gpr, alloc.mask_assigned, Function.update_self,
      Function.update_of_ne oldVirtual, Function.update_of_ne oldOne,
      Function.update_of_ne oldShifted]
  · intro index others
    rw [List.mem_cons, List.mem_cons, List.mem_singleton, not_or, not_or] at others
    simp only [set_gpr_gpr, set_vec_gpr, alloc.mask_assigned, Function.update_self,
      Function.update_of_ne oldVirtual, Function.update_of_ne oldOne,
      Function.update_of_ne oldShifted]
    by_cases isMask : index = mr
    · rw [isMask, Function.update_self]
    · simp only [Function.update_of_ne isMask, Function.update_of_ne others.1,
        Function.update_of_ne others.2.1, Function.update_of_ne others.2.2]
  · intro index other
    simp only [set_gpr_vec, set_vec_vec, Function.update_of_ne other]

end Insert

/-- Both expansions choose lanes as their pseudo instructions say, and leave everything but
their destination and their temporaries as it was. -/
theorem masked_expansions :
    (∀ (alloc : SelectAllocation) (registers : Registers) (memory : Memory 32),
      SelectsLanes alloc registers memory) ∧
    ∀ (alloc : InsertAllocation) (registers : Registers) (memory : Memory 32),
      (registers.gpr (alloc.assign .index)).toNat < 16 → InsertsLane alloc registers memory :=
  ⟨selects_lanes, inserts_lane⟩

section Allocations

instance select_reg_fintype : Fintype SelectReg where
  elems := {.mr, .dst, .pred, .trueVal, .falseVal, .oldMR, .negOne}
  complete register := by cases register <;> decide

instance insert_reg_fintype : Fintype InsertReg where
  elems := {.mr, .dst, .source, .scalar, .index, .one, .shiftedVal, .oldMR}
  complete register := by cases register <;> decide

/-- The destination of a selection in the register of the vector it first copies. -/
def selectExample : SelectAllocation where
  assign
    | .mr => mr
    | .dst | .trueVal => 0
    | .falseVal => 1
    | .pred | .negOne => 2
    | .oldMR => 3
  mask_assigned := rfl
  allocatable register virtual := by
    cases register with
    | mr => exact absurd rfl virtual
    | _ => decide
  separated := by decide +kernel

/-- The shifted value in the register of the index. -/
def insertExample : InsertAllocation where
  assign
    | .mr => mr
    | .dst | .source => 0
    | .scalar => 1
    | .index | .shiftedVal => 2
    | .one => 3
    | .oldMR => 4
  mask_assigned := rfl
  allocatable register virtual := by
    cases register with
    | mr => exact absurd rfl virtual
    | _ => decide
  separated := by decide +kernel
  tied := rfl

def indexedRegisters : Registers := ⟨fun index => BitVec.ofNat 32 index, fun _ => 0⟩

/-- The expansions in two allocations that share registers. -/
theorem shared_registers_expanded :
    SelectsLanes selectExample indexedRegisters (fun _ => 0) ∧
      InsertsLane insertExample indexedRegisters fun _ => 0 := by
  have both := masked_expansions
  exact ⟨both.1 selectExample indexedRegisters _,
    both.2 insertExample indexedRegisters _ (by decide)⟩

end Allocations

end NaplesPU.MaskedLanes
