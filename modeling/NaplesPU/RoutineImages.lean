import NaplesPU.Lib.CodeLayout
import NaplesPU.BranchTargets
import NaplesPU.Memcpy

/-!
The words of a routine in memory, and a thread that fetches them. Each branch to a label of the
routine is resolved by one of the two tools; the thread knows no labels, only its program counter.
-/

namespace NaplesPU.RoutineImages

open ByteMemory StepRuns TwosComplement CodeLayout
open RegisterInfo InstrFormats InstrInfo FixupKinds MCCodeEmitter Disassembler
open DecoderTable AsmBackend ELFRelocations EncodeDecode BranchTargets Machine
open Memcpy (execRoutine exec_routine_of_exec)

section Assembly

variable (base : Word) (resolvers : Nat → Resolver) (program : Program)

/-- The distance of a label from the start of the routine. -/
def labelOffset (label : Nat) : Nat := 4 * position program label 0

/-- The value of a branch: the assembler computes it from offsets in the section, the linker
from addresses. -/
def branchValue (place : Nat) (target : MCExpr) : Resolver → Option (BitVec 64)
  | .assembler => some (evaluateFixup (.target .fixup_NaplesPU_Branch)
      (BitVec.ofInt 64 target.constant) (BitVec.ofNat 64 (labelOffset program target.symbol))
      (BitVec.ofNat 32 (4 * place)))
  | .linker => linkerValue (.target .fixup_NaplesPU_Branch)
      ⟨base.setWidth 64 + BitVec.ofNat 64 (labelOffset program target.symbol), 0,
        base.setWidth 64 + BitVec.ofNat 64 (4 * place)⟩
      ((BitVec.ofInt 32 target.constant).signExtend 64)

def written : Outcome → Option (List Byte)
  | .written data => some data
  | _ => none

/-- The four bytes of the instruction at a place. References to data are not resolved here. -/
def assembleInst (place : Nat) (inst : MCInst) : Option (List Byte) :=
  match encodeInstruction inst with
  | some (bytes, []) => some bytes
  | some (bytes, [⟨offset, target, .target .fixup_NaplesPU_Branch⟩]) =>
      (branchValue base program place target (resolvers place)).bind fun value =>
        ((resolvers place).resolve ⟨offset, target, .target .fixup_NaplesPU_Branch⟩ bytes
          value).bind written
  | _ => none

def image : Option (List Byte) := emit (assembleInst base resolvers program) 0 program.flatten

/-- The instructions of a routine: branches to its labels, and what refers to none. -/
inductive RoutineInst : MCInst → Prop where
  | plain {inst : MCInst} (valid : ValidInst inst)
      (straight : inst.opcode ∉ [Opcode.JMP, .JMPSR_OFF, .BEQZ, .BNEZ]) : RoutineInst inst
  | branch (branch : OffsetBranch) {label : Nat} (known : label < program.length) :
      RoutineInst (branch.inst (.expr ⟨label, 0⟩))

/-- Branches reach each other's labels. -/
structure Routine : Prop where
  insts : ∀ inst ∈ program.flatten, RoutineInst program inst
  small : 4 * program.flatten.length < 2 ^ 17

end Assembly

section Checks

def checkMemory (inst : MCInst) (opNo : Nat) (cls : RegClass) : Bool :=
  match inst.getOperand opNo, inst.getOperand (opNo + 1) with
  | some (.reg base), some (.imm offset) => base.cls = cls ∧ SignedFits 9 offset
  | _, _ => false

def checkOperand (inst : MCInst) (opNo : Nat) (decl : OperandDecl) : Bool :=
  match decl.type, inst.getOperand opNo with
  | .reg cls, some (.reg register) =>
      register.cls = cls ∧ ((tiedTo decl.name).isSome → inst.getOperand opNo = inst.getOperand 0)
  | .SIMM9OP, some (.imm value) => SignedFits 9 value
  | .SIMM16OP, some (.imm value) => -2 ^ 15 ≤ value ∧ value < 2 ^ 16
  | .MEMri, _ => checkMemory inst opNo .GPR32
  | .V16MEMri, _ => checkMemory inst opNo .VR512W
  | .brtarget, some (.imm value) | .calltarget, some (.imm value) =>
      SignedFits (branchBits inst.opcode) value
  | _, _ => false

def checkInst (inst : MCInst) : Bool :=
  isDisassemblable inst.opcode ∧
    inst.operands.length = (inst.opcode.operandList.map fun decl => decl.type.numMIOperands).sum ∧
    (miOperands inst.opcode).all fun entry => checkOperand inst entry.1 entry.2

theorem valid_memory_of_check {inst : MCInst} {opNo : Nat} {cls : RegClass}
    (checked : checkMemory inst opNo cls = true) : ValidMemory inst opNo cls := by
  unfold checkMemory at checked
  split at checked
  · rename_i base offset first second
    rw [decide_eq_true_eq] at checked
    exact ⟨base, offset, first, checked.1, second, checked.2⟩
  · cases checked

theorem valid_operand_of_check {inst : MCInst} {opNo : Nat} {decl : OperandDecl}
    (checked : checkOperand inst opNo decl = true) : ValidOperand inst opNo decl := by
  unfold checkOperand at checked
  unfold ValidOperand
  split at checked
  case h_1 cls register type present =>
      rw [decide_eq_true_eq] at checked
      simp only [type]
      exact ⟨⟨register, present, checked.1⟩, checked.2⟩
  case h_4 type => simp only [type]; exact valid_memory_of_check checked
  case h_5 type => simp only [type]; exact valid_memory_of_check checked
  case h_8 => cases checked
  all_goals
    rename_i value type present
    rw [decide_eq_true_eq] at checked
    simp only [type]
    exact ⟨value, present, checked⟩

theorem valid_of_check {inst : MCInst} (checked : checkInst inst = true) : ValidInst inst := by
  rw [checkInst, decide_eq_true_eq] at checked
  obtain ⟨disassemblable, count, operands⟩ := checked
  rw [List.all_eq_true] at operands
  exact ⟨disassemblable, count, fun entry member => valid_operand_of_check (operands entry member)⟩

def checkTarget (program : Program) (target : MCExpr) : Bool :=
  target.constant = 0 ∧ target.symbol < program.length

def checkBranch (program : Program) (inst : MCInst) : Bool :=
  match inst.opcode, inst.operands with
  | .JMP, [.expr target] | .JMPSR_OFF, [.expr target] => checkTarget program target
  | .BEQZ, [.reg cond, .expr target] | .BNEZ, [.reg cond, .expr target] =>
      cond.cls = .GPR32 ∧ checkTarget program target
  | _, _ => false

def checkRoutine (program : Program) : Bool :=
  4 * program.flatten.length < 2 ^ 17 ∧ program.flatten.all fun inst =>
    checkBranch program inst ∨
      checkInst inst ∧ inst.opcode ∉ [Opcode.JMP, .JMPSR_OFF, .BEQZ, .BNEZ]

theorem routine_inst_of_check {program : Program} {inst : MCInst}
    (checked : checkBranch program inst = true) : RoutineInst program inst := by
  have known {target : MCExpr} (near : checkTarget program target = true) :
      target = ⟨target.symbol, 0⟩ ∧ target.symbol < program.length := by
    rw [checkTarget, decide_eq_true_eq] at near
    obtain ⟨symbol, constant⟩ := target
    obtain ⟨rfl, inside⟩ := near
    exact ⟨rfl, inside⟩
  obtain ⟨opcode, operands⟩ := inst
  unfold checkBranch at checked
  split at checked
  case h_1 target isJump single =>
      obtain ⟨same, inside⟩ := known checked
      simp only at isJump single
      rw [isJump, single, same]
      exact .branch .JMP inside
  case h_2 target isCall single =>
      obtain ⟨same, inside⟩ := known checked
      simp only at isCall single
      rw [isCall, single, same]
      exact .branch .JMPSR_OFF inside
  case h_3 cond target isBranch both =>
      rw [decide_eq_true_eq] at checked
      obtain ⟨same, inside⟩ := known checked.2
      obtain ⟨cls, encoding⟩ := cond
      obtain rfl : cls = .GPR32 := checked.1
      simp only at isBranch both
      rw [isBranch, both, same]
      exact .branch (.BEQZ encoding) inside
  case h_4 cond target isBranch both =>
      rw [decide_eq_true_eq] at checked
      obtain ⟨same, inside⟩ := known checked.2
      obtain ⟨cls, encoding⟩ := cond
      obtain rfl : cls = .GPR32 := checked.1
      simp only at isBranch both
      rw [isBranch, both, same]
      exact .branch (.BNEZ encoding) inside
  case h_5 => cases checked

theorem routine_of_check {program : Program} (checked : checkRoutine program = true) :
    Routine program := by
  rw [checkRoutine, decide_eq_true_eq, List.all_eq_true] at checked
  refine ⟨fun inst member => ?_, checked.1⟩
  have known := checked.2 inst member
  rw [decide_eq_true_eq] at known
  rcases known with branch | ⟨plain, straight⟩
  · exact routine_inst_of_check branch
  · exact .plain (valid_of_check plain) straight

end Checks

section Fetching

/-- A thread that fetches what it executes. -/
structure Hart where
  pc : Word
  registers : Registers

/-- Where an instruction goes on if it is a jump; offsets are relative to the jump. -/
def jumpTarget (inst : MCInst) (hart : Hart) : Option Word :=
  match inst.opcode, inst.operands with
  | .JMP, [.imm offset] => some (hart.pc + BitVec.ofInt 32 offset)
  | .BEQZ, [cond, .imm offset] =>
      some (if hart.registers.gpr (testedRegister cond) = 0 then hart.pc + BitVec.ofInt 32 offset
        else hart.pc + 4)
  | .BNEZ, [cond, .imm offset] =>
      some (if hart.registers.gpr (testedRegister cond) ≠ 0 then hart.pc + BitVec.ofInt 32 offset
        else hart.pc + 4)
  | .JRET, _ => some (hart.registers.gpr RA_REG.encoding)
  | _, _ => none

def stepHart (state : Hart × Memory 32) : Option (Hart × Memory 32) :=
  (getInstruction (loadBytes state.2 state.1.pc 4)).bind fun inst =>
    match jumpTarget inst state.1 with
    | some target => some (⟨target, state.1.registers⟩, state.2)
    | none =>
        (execRoutine inst state.1.registers state.2).map fun effect =>
          (⟨state.1.pc + 4, effect.registers⟩, effect.memory)

def stepLabelled (program : Program) (state : Thread × Memory 32) : Option (Thread × Memory 32) :=
  program[state.1.block]?.bind fun code =>
    code[state.1.index]?.bind fun inst =>
      (execRoutine inst state.1.registers state.2).map fun effect =>
        (advance code state.1 effect, effect.memory)

def Holds (base : Word) (bytes : List Byte) (memory : Memory 32) : Prop :=
  loadBytes memory base bytes.length = bytes

def hartOf (base : Word) (program : Program) (thread : Thread) : Hart :=
  ⟨base + BitVec.ofNat 32 (4 * position program thread.block thread.index), thread.registers⟩

end Fetching

section Words

variable {base : Word} {resolvers : Nat → Resolver} {program : Program} {place : Nat}

/-- An instruction without a label decodes to itself. -/
theorem assemble_plain {inst : MCInst} (valid : ValidInst inst)
    (straight : inst.opcode ∉ [Opcode.JMP, .JMPSR_OFF, .BEQZ, .BNEZ]) :
    ∃ bytes, assembleInst base resolvers program place inst = some bytes ∧ bytes.length = 4 ∧
      getInstruction bytes = some (reduceMoveImm inst) := by
  obtain ⟨bytes, encoded, decoded⟩ := decode_encode valid
  have offsets : JumpOffsetDecodes inst := by
    unfold JumpOffsetDecodes
    split
    case h_1 jump | h_2 jump =>
        rw [jump] at straight
        exact absurd (by decide) straight
    case h_3 => trivial
  rw [(decoded_eq_reduced_iff valid).mpr offsets] at decoded
  refine ⟨bytes, ?_, encode_instruction_length encoded, decoded⟩
  rw [assembleInst, encoded]

theorem distance_of_nat (width first second : Nat) :
    BitVec.ofInt width (first - (second : Nat)) =
      BitVec.ofNat width first - BitVec.ofNat width second := by
  rw [Int.sub_eq_add_neg, BitVec.ofInt_add, BitVec.ofInt_neg, BitVec.ofInt_natCast,
    BitVec.ofInt_natCast, ← BitVec.sub_eq_add_neg]

theorem branch_value (resolver : Resolver) (label : Nat) (near : 4 * place < 2 ^ 32) :
    branchValue base program place ⟨label, 0⟩ resolver =
      some (BitVec.ofInt 64 (labelOffset program label - (4 * place : Nat))) := by
  have offset : (BitVec.ofNat 32 (4 * place)).setWidth 64 = BitVec.ofNat 64 (4 * place) := by
    apply BitVec.eq_of_toNat_eq
    rw [BitVec.toNat_setWidth, BitVec.toNat_ofNat, BitVec.toNat_ofNat, Nat.mod_eq_of_lt near]
  rw [distance_of_nat]
  cases resolver with
  | assembler =>
      have relative : (getFixupKindInfo (.target .fixup_NaplesPU_Branch)).isPCRel = true := rfl
      rw [branchValue, evaluateFixup, if_pos relative, offset,
        show BitVec.ofInt 64 0 = 0 from rfl, zero_add]
  | linker =>
      have addend : (BitVec.ofInt 32 0).signExtend 64 = 0 := by decide
      rw [branchValue, linkerValue, getRelocType, getRelExpr, Option.map_some, getRelocTargetVA,
        addend, add_zero, add_sub_add_left_eq_sub]

theorem assemble_branch (branch : OffsetBranch) {label : Nat} (near : 4 * place < 2 ^ 17)
    (labelNear : labelOffset program label < 2 ^ 17) :
    ∃ bytes, assembleInst base resolvers program place (branch.inst (.expr ⟨label, 0⟩)) =
        some bytes ∧ bytes.length = 4 ∧
      getInstruction bytes =
        some (branch.inst (.imm (labelOffset program label - (4 * place : Nat)))) := by
  let distance : Int := labelOffset program label - (4 * place : Nat)
  have fits : SignedFits 18 distance := by
    unfold SignedFits
    omega
  have value : (BitVec.ofInt 64 distance).toInt = distance := by
    rw [BitVec.toInt_ofInt, bmod_eq_self_iff (by decide)]
    unfold SignedFits at fits ⊢
    omega
  have valueFits : SignedFits 18 (BitVec.ofInt 64 distance).toInt := by rwa [value]
  have bytes := label_bytes branch (resolvers place) ⟨label, 0⟩ valueFits
  have encoded : encodeInstruction (branch.inst (.expr ⟨label, 0⟩)) =
      some (bytesLE 4 (branch.word 0), [⟨0, ⟨label, 0⟩, .target .fixup_NaplesPU_Branch⟩]) := by
    have target : encodeBranchTargetOpValue (branch.inst (.expr ⟨label, 0⟩)) branch.targetOpNo =
        some ⟨0, [⟨0, ⟨label, 0⟩, .target .fixup_NaplesPU_Branch⟩]⟩ := by
      cases branch <;> rfl
    exact branch.encode_target _ target
  rw [labelBytes, encoded] at bytes
  refine ⟨bytesLE 4 (branch.word ((BitVec.ofInt 64 distance).toNat % 2 ^ 18)), ?_,
    bytes_length _ _, ?_⟩
  · rw [assembleInst, encoded]
    simp only at bytes ⊢
    rw [branch_value _ _ (by omega), Option.bind_some, bytes, Option.bind_some, written]
  · rw [decode_word, sign_extend_mod,
      ← (sign_extend_eq_to_int_iff (by decide) (by decide) _).mpr valueFits, value]

variable {bytes : List Byte}

theorem label_near (routine : Routine program) (label : Nat) :
    labelOffset program label < 2 ^ 17 := by
  have small := routine.small
  have inside := position_le program label
  unfold labelOffset
  omega

theorem routine_encodable (routine : Routine program) :
    Encodable (assembleInst base resolvers program) 4 0 program.flatten := by
  intro offset inst here
  have small := routine.small
  obtain ⟨inside, same⟩ := List.getElem?_eq_some_iff.mp here
  have formed : RoutineInst program inst := same ▸ routine.insts _ (List.getElem_mem inside)
  rw [Nat.zero_add]
  cases formed with
  | plain valid straight =>
      obtain ⟨bytes, assembled, length, -⟩ :=
        @assemble_plain base resolvers program offset inst valid straight
      exact ⟨bytes, assembled, length⟩
  | @branch branch label known =>
      obtain ⟨bytes, assembled, length, -⟩ := @assemble_branch base resolvers program offset branch
        label (by omega) (label_near routine label)
      exact ⟨bytes, assembled, length⟩

theorem fetched_bytes (routine : Routine program)
    (assembled : image base resolvers program = some bytes) {memory : Memory 32}
    (holds : Holds base bytes memory) {block index : Nat} {code : List MCInst} {inst : MCInst}
    (laidOut : program[block]? = some code) (here : code[index]? = some inst) :
    assembleInst base resolvers program (position program block index) inst =
      some (loadBytes memory
        (base + BitVec.ofNat 32 (4 * position program block index)) 4) := by
  have encodable := @routine_encodable base resolvers program routine
  have placed := emitted_at encodable assembled (item_at_position laidOut here)
  have inside := position_lt laidOut here
  obtain ⟨other, same, length⟩ := emit_defined encodable
  rw [image, same, Option.some.injEq] at assembled
  subst assembled
  rw [load_part holds (by omega), ← placed, Nat.zero_add]

end Words

section Simulation

variable {base : Word} {resolvers : Nat → Resolver} {program : Program} {bytes : List Byte}

/-- A move by an immediate uses sixteen bits of it, which its decoder keeps. -/
theorem exec_move_reduced (op : MoveImm) (dst : Register) (value : Int) (registers : Registers)
    (memory : Memory 32) :
    exec ⟨.moveImm op .SI, [.reg dst, .imm (value.bmod (2 ^ 16))]⟩ registers memory =
      exec ⟨.moveImm op .SI, [.reg dst, .imm value]⟩ registers memory := by
  have kept : BitVec.ofInt 32 (value.bmod (2 ^ 16)) &&& (0xffff : Word) =
      BitVec.ofInt 32 value &&& 0xffff := by
    have mask : (0xffff : Word).toNat = 2 ^ 16 - 1 := rfl
    apply BitVec.eq_of_toNat_eq
    rw [BitVec.toNat_and, BitVec.toNat_and, mask, Nat.and_two_pow_sub_one_eq_mod,
      Nat.and_two_pow_sub_one_eq_mod, BitVec.toNat_ofInt, BitVec.toNat_ofInt, Int.bmod]
    split <;> omega
  have wrapped : fieldImm16 ⟨.moveImm op .SI, [.reg dst, .imm (value.bmod (2 ^ 16))]⟩ .imm =
      BitVec.ofInt 32 (value.bmod (2 ^ 16)) &&& 0xffff := field_imm16_eq .imm rfl
  have whole : fieldImm16 ⟨.moveImm op .SI, [.reg dst, .imm value]⟩ .imm =
      BitVec.ofInt 32 value &&& 0xffff := field_imm16_eq .imm rfl
  have register : fieldReg ⟨.moveImm op .SI, [.reg dst, .imm (value.bmod (2 ^ 16))]⟩ .dst =
      fieldReg ⟨.moveImm op .SI, [.reg dst, .imm value]⟩ .dst := rfl
  cases op <;> simp only [exec, wrapped, whole, kept, register]

theorem exec_reduced {inst : MCInst} (valid : ValidInst inst) (registers : Registers)
    (memory : Memory 32) :
    execRoutine (reduceMoveImm inst) registers memory = execRoutine inst registers memory := by
  obtain ⟨opcode, operands⟩ := inst
  cases opcode with
  | moveImm op variant =>
      cases variant with
      | SI =>
          obtain ⟨⟨dst, first, -⟩, -⟩ := valid.operands (0, ⟨.dst, .reg .GPR32⟩) List.mem_cons_self
          obtain ⟨value, second, -⟩ := valid.operands (1, ⟨.imm, .SIMM16OP⟩)
            (List.mem_cons_of_mem _ List.mem_cons_self)
          have count : operands.length = 2 := valid.count
          obtain ⟨left, right, rfl⟩ := List.length_eq_two.mp count
          cases first
          cases second
          exact exec_move_reduced op dst value registers memory
      | VI_U => cases op <;> rfl
      | VI_M => cases op <;> rfl
  | _ => rfl

theorem jump_target_plain {inst : MCInst}
    (straight : inst.opcode ∉ [Opcode.JMP, .JMPSR_OFF, .BEQZ, .BNEZ])
    (noReturn : inst.opcode ≠ .JRET) (hart : Hart) : jumpTarget inst hart = none := by
  unfold jumpTarget
  split
  case h_1 opcode operands | h_2 opcode operands | h_3 opcode operands =>
      rw [opcode] at straight
      exact absurd (by decide) straight
  case h_4 opcode => exact absurd opcode noReturn
  case h_5 => rfl

theorem exec_target {inst : MCInst} (notZero : inst.opcode ≠ .BEQZ)
    (notNonzero : inst.opcode ≠ .BNEZ)
    {registers : Registers} {memory : Memory 32} {effect : Effect}
    (executed : exec inst registers memory = some effect) : effect.target = none := by
  unfold exec at executed
  split at executed
  case h_12 zero => exact absurd zero notZero
  case h_13 nonzero => exact absurd nonzero notNonzero
  all_goals
    first
    | (rw [Option.map_eq_some_iff] at executed
       obtain ⟨operation, -, rfl⟩ := executed
       rfl)
    | (cases executed
       try rfl)

theorem target_plain {inst : MCInst}
    (straight : inst.opcode ∉ [Opcode.JMP, .JMPSR_OFF, .BEQZ, .BNEZ]) {registers : Registers}
    {memory : Memory 32} {effect : Effect}
    (executed : execRoutine inst registers memory = some effect) : effect.target = none := by
  simp only [List.mem_cons, List.not_mem_nil, or_false, not_or] at straight
  obtain ⟨noJump, -, notZero, notNonzero⟩ := straight
  unfold execRoutine at executed
  split at executed
  case h_5 jump => exact absurd jump noJump
  case h_6 => exact exec_target notZero notNonzero executed
  all_goals
    cases executed
    rfl

theorem hart_next {block index : Nat} {code : List MCInst} {inst : MCInst}
    (laidOut : program[block]? = some code) (here : code[index]? = some inst)
    {registers : Registers} {effect : Effect} (next : effect.target = none) :
    hartOf base program (advance code ⟨block, index, registers⟩ effect) =
      ⟨(hartOf base program ⟨block, index, registers⟩).pc + 4, effect.registers⟩ := by
  have inside := (List.getElem?_eq_some_iff.mp here).1
  have above : base + BitVec.ofNat 32 (4 * (position program block index + 1)) =
      base + BitVec.ofNat 32 (4 * position program block index) + 4 := by
    rw [Nat.mul_add, BitVec.ofNat_add, BitVec.add_assoc]
    rfl
  simp only [advance, next]
  split
  case isTrue more =>
      rw [hartOf, hartOf, ← above, position_succ]
  case isFalse atEnd =>
      have last : index + 1 = code.length := by omega
      rw [hartOf, hartOf, ← above, ← position_succ, last, position_next laidOut]

theorem hart_jump (base : Word) (program : Program) (thread : Thread) (label : Nat) :
    (hartOf base program thread).pc + BitVec.ofInt 32 (labelOffset program label -
        (4 * position program thread.block thread.index : Nat)) =
      base + BitVec.ofNat 32 (labelOffset program label) := by
  rw [distance_of_nat, hartOf, BitVec.add_assoc, BitVec.add_comm (BitVec.ofNat 32 _),
    BitVec.sub_add_cancel]

/-- A branch goes to its target in one machine if it does in the other. -/
theorem branch_taken (branch : OffsetBranch) {label : Nat} {registers : Registers}
    {memory : Memory 32} {effect : Effect}
    (executed : execRoutine (branch.inst (.expr ⟨label, 0⟩)) registers memory = some effect) :
    ∃ taken : Bool, effect = ⟨registers, memory, if taken then some label else none⟩ ∧
      ∀ (pc : Word) (offset : Int), jumpTarget (branch.inst (.imm offset)) ⟨pc, registers⟩ =
        some (if taken then pc + BitVec.ofInt 32 offset else pc + 4) := by
  cases branch with
  | JMP => exact ⟨true, (Option.some.inj executed).symm, fun _ _ => rfl⟩
  | JMPSR_OFF => cases executed
  | BEQZ cond =>
      have tested :=
        exec_routine_of_exec (exec_branch_zero registers memory (.reg (sReg cond)) label)
      rw [OffsetBranch.inst, OffsetBranch.opcode, tested, Option.some.injEq] at executed
      refine ⟨registers.gpr (testedRegister (.reg (sReg cond))) = 0, ?_, fun pc offset => ?_⟩
      · rw [← executed]
        simp only [decide_eq_true_eq]
      · simp only [jumpTarget, OffsetBranch.inst, OffsetBranch.opcode, decide_eq_true_eq]
  | BNEZ cond =>
      have tested :=
        exec_routine_of_exec (exec_branch_nonzero registers memory (.reg (sReg cond)) label)
      rw [OffsetBranch.inst, OffsetBranch.opcode, tested, Option.some.injEq] at executed
      refine ⟨registers.gpr (testedRegister (.reg (sReg cond))) ≠ 0, ?_, fun pc offset => ?_⟩
      · rw [← executed]
        simp only [decide_eq_true_eq]
      · simp only [jumpTarget, OffsetBranch.inst, OffsetBranch.opcode, decide_eq_true_eq]

theorem step_hart_plain {inst : MCInst} {hart : Hart} {memory : Memory 32} {effect : Effect}
    (fetched : getInstruction (loadBytes memory hart.pc 4) = some inst)
    (plain : jumpTarget inst hart = none)
    (executed : execRoutine inst hart.registers memory = some effect) :
    stepHart (hart, memory) = some (⟨hart.pc + 4, effect.registers⟩, effect.memory) := by
  simp only [stepHart, fetched, Option.bind_some, plain, executed, Option.map_some]

theorem step_hart_jump {inst : MCInst} {hart : Hart} {memory : Memory 32} {target : Word}
    (fetched : getInstruction (loadBytes memory hart.pc 4) = some inst)
    (jumps : jumpTarget inst hart = some target) :
    stepHart (hart, memory) = some (⟨target, hart.registers⟩, memory) := by
  simp only [stepHart, fetched, Option.bind_some, jumps]

/-- What the labelled routine does in a step, a thread that fetches its words does. -/
theorem hart_step (routine : Routine program)
    (assembled : image base resolvers program = some bytes) {state next : Thread × Memory 32}
    (stepped : stepLabelled program state = some next) (holds : Holds base bytes state.2) :
    stepHart (hartOf base program state.1, state.2) =
      some (hartOf base program next.1, next.2) := by
  obtain ⟨⟨block, index, registers⟩, memory⟩ := state
  simp only [stepLabelled, Option.bind_eq_some_iff, Option.map_eq_some_iff] at stepped
  obtain ⟨code, laidOut, inst, here, effect, executed, rfl⟩ := stepped
  let hart := hartOf base program ⟨block, index, registers⟩
  have member : inst ∈ program.flatten := List.mem_of_getElem? (item_at_position laidOut here)
  have inside := position_lt laidOut here
  have small := routine.small
  have fetches := fetched_bytes routine assembled holds laidOut here
  have formed := routine.insts inst member
  cases formed with
  | plain valid straight =>
      obtain ⟨word, same, -, decoded⟩ := @assemble_plain base resolvers program
        (position program block index) inst valid straight
      rw [fetches, Option.some.injEq] at same
      rw [← same] at decoded
      have noReturn : inst.opcode ≠ .JRET := by
        intro isReturn
        simp only [execRoutine, exec, isReturn] at executed
        cases executed
      have opcode : (reduceMoveImm inst).opcode = inst.opcode := by
        unfold reduceMoveImm
        split <;> rfl
      have plain : jumpTarget (reduceMoveImm inst) hart = none :=
        jump_target_plain (by rwa [opcode]) (by rwa [opcode]) hart
      have reduced : execRoutine (reduceMoveImm inst) hart.registers memory = some effect := by
        rw [exec_reduced valid, ← executed]
        rfl
      rw [hart_next laidOut here (target_plain straight executed)]
      exact @step_hart_plain _ hart memory effect decoded plain reduced
  | @branch branch label known =>
      obtain ⟨word, same, -, decoded⟩ := @assemble_branch base resolvers program
        (position program block index) branch label (by omega) (label_near routine label)
      rw [fetches, Option.some.injEq] at same
      rw [← same] at decoded
      obtain ⟨taken, rfl, target⟩ := branch_taken branch executed
      have stepped := @step_hart_jump _ hart memory _ decoded (target hart.pc _)
      cases taken with
      | true =>
          rw [if_pos rfl, hart_jump base program ⟨block, index, registers⟩ label] at stepped
          exact stepped
      | false =>
          rw [hart_next laidOut here rfl]
          exact stepped

def fetching (base : Word) (program : Program) (state : Thread × Memory 32) : Hart × Memory 32 :=
  (hartOf base program state.1, state.2)

theorem hart_run (routine : Routine program)
    (assembled : image base resolvers program = some bytes) {count : Nat}
    {state final : Thread × Memory 32}
    (run : iterate (stepLabelled program) count state = some final)
    (holds : ∀ index < count, ∀ reached, iterate (stepLabelled program) index state = some reached →
      Holds base bytes reached.2) :
    iterate stepHart count (fetching base program state) = some (fetching base program final) := by
  have simulated (reached next : Thread × Memory 32)
      (stepped : stepLabelled program reached = some next) (held : Holds base bytes reached.2) :
      stepHart (fetching base program reached) = some (fetching base program next) :=
    hart_step routine assembled stepped held
  exact iterate_viewed simulated run holds

theorem hart_return (routine : Routine program)
    (assembled : image base resolvers program = some bytes) {memory : Memory 32}
    (holds : Holds base bytes memory) {thread : Thread} {code : List MCInst}
    (laidOut : program[thread.block]? = some code)
    (here : code[thread.index]? = some ⟨.JRET, []⟩) :
    stepHart (fetching base program (thread, memory)) =
      some (⟨thread.registers.gpr RA_REG.encoding, thread.registers⟩, memory) := by
  have valid : ValidInst ⟨.JRET, []⟩ := ⟨rfl, rfl, fun _ member => absurd member List.not_mem_nil⟩
  have fetches := fetched_bytes routine assembled holds laidOut here
  obtain ⟨word, same, -, decoded⟩ := @assemble_plain base resolvers program
    (position program thread.block thread.index) _ valid (by decide)
  rw [fetches, Option.some.injEq] at same
  rw [← same] at decoded
  exact @step_hart_jump _ (hartOf base program thread) memory _ decoded rfl

end Simulation

/-- Every routine that is small enough is assembled, whoever resolves its branches, and its words
do what the routine does: until it changes them, and when it returns. -/
theorem routine_image (base : Word) (resolvers : Nat → Resolver) (program : Program)
    (routine : Routine program) :
    ∃ bytes, image base resolvers program = some bytes ∧
      bytes.length = 4 * program.flatten.length ∧
      ∀ count start final, iterate (stepLabelled program) count start = some final →
        (∀ index ≤ count, ∀ reached, iterate (stepLabelled program) index start = some reached →
          Holds base bytes reached.2) →
        iterate stepHart count (fetching base program start) = some (fetching base program final) ∧
          ∀ code, program[final.1.block]? = some code → code[final.1.index]? = some ⟨.JRET, []⟩ →
            iterate stepHart (count + 1) (fetching base program start) =
              some (⟨final.1.registers.gpr RA_REG.encoding, final.1.registers⟩, final.2) := by
  obtain ⟨bytes, assembled, length⟩ :=
    emit_defined (@routine_encodable base resolvers program routine)
  refine ⟨bytes, assembled, length, fun count start final run holds => ?_⟩
  have along := hart_run routine assembled run fun index below =>
    holds index (Nat.le_of_lt below)
  refine ⟨along, fun code laidOut here => ?_⟩
  have returns := hart_return routine assembled (holds count le_rfl final run) laidOut here
  exact iterate_trans along ((iterate_one _).trans returns)

/-- A loop that counts a register down. -/
def countdown : Program :=
  [[Memcpy.arithi .SUB 2 2 1, (OffsetBranch.BNEZ 2).inst (.expr ⟨0, 0⟩)], [Memcpy.jret]]

theorem countdown_routine : Routine countdown := routine_of_check (by decide)

theorem countdown_image :
    ∃ bytes, image 0x400 (fun _ => .linker) countdown = some bytes ∧
      bytes.length = 4 * countdown.flatten.length ∧
      ∀ count start final, iterate (stepLabelled countdown) count start = some final →
        (∀ index ≤ count, ∀ reached, iterate (stepLabelled countdown) index start = some reached →
          Holds 0x400 bytes reached.2) →
        iterate stepHart count (fetching 0x400 countdown start) =
            some (fetching 0x400 countdown final) ∧
          ∀ code, countdown[final.1.block]? = some code →
            code[final.1.index]? = some ⟨.JRET, []⟩ →
            iterate stepHart (count + 1) (fetching 0x400 countdown start) =
              some (⟨final.1.registers.gpr RA_REG.encoding, final.1.registers⟩, final.2) :=
  routine_image 0x400 (fun _ => .linker) countdown countdown_routine

end NaplesPU.RoutineImages
