import NaplesPU.Lib.ByteMemory
import NaplesPU.Lib.Interleaving
import NaplesPU.Lib.StepRuns
import NaplesPU.Lib.TwosComplement
import NaplesPU.MCCodeEmitter

/-!
Execution of machine code by a hardware thread. An instruction is executed from
the fields its encoder writes, so an operand of an unexpected kind acts as
whatever its encoding means: an immediate in a register field names the register
of that number. Only the instructions the modelled lowerings emit have a meaning
here. The shared memory is kept apart from the registers of the thread.
-/

namespace NaplesPU.Machine

open ByteMemory Interleaving StepRuns TwosComplement
open RegisterInfo InstrFormats InstrInfo FixupKinds MCCodeEmitter

abbrev Word := BitVec 32

abbrev Vector := BitVec 512

structure Registers where
  gpr : Fin 64 → Word
  vec : Fin 64 → Vector

def Registers.setGpr (registers : Registers) (index : Fin 64) (value : Word) : Registers :=
  { registers with gpr := Function.update registers.gpr index value }

def Registers.setVec (registers : Registers) (index : Fin 64) (value : Vector) : Registers :=
  { registers with vec := Function.update registers.vec index value }

@[simp] theorem set_gpr_gpr (registers : Registers) (index : Fin 64) (value : Word) :
    (registers.setGpr index value).gpr = Function.update registers.gpr index value := rfl

@[simp] theorem set_gpr_vec (registers : Registers) (index : Fin 64) (value : Word) :
    (registers.setGpr index value).vec = registers.vec := rfl

@[simp] theorem set_vec_vec (registers : Registers) (index : Fin 64) (value : Vector) :
    (registers.setVec index value).vec = Function.update registers.vec index value := rfl

@[simp] theorem set_vec_gpr (registers : Registers) (index : Fin 64) (value : Vector) :
    (registers.setVec index value).gpr = registers.gpr := rfl

def fieldReg (inst : MCInst) (name : Var) : Fin 64 := Fin.ofNat 64 (varValue inst name)

/-- The value of a nine-bit immediate field, which the hardware sign-extends. -/
def fieldSimm9 (inst : MCInst) (name : Var) : Word :=
  BitVec.ofInt 32 (signExtend 9 (varValue inst name))

def fieldImm16 (inst : MCInst) (name : Var) : Word := BitVec.ofNat 32 (varValue inst name % 2 ^ 16)

/-- The address of a memory operand: base register in the low six bits of the field,
signed offset in the nine above. -/
def fieldAddress (inst : MCInst) (registers : Registers) : Word :=
  registers.gpr (fieldReg inst .addr) +
    BitVec.ofInt 32 (signExtend 9 ((varValue inst .addr) >>> 6))

/-- The label of a branch, as the fixup of its target records it. -/
def branchTarget (inst : MCInst) : Option Nat :=
  (varFixups inst .addr).head?.map fun fixup => fixup.value.symbol

def alu : ArithInt → Option (Word → Word → Word)
  | .OR => some fun left right => left ||| right
  | .AND => some fun left right => left &&& right
  | .XOR => some fun left right => left ^^^ right
  | .ADD => some fun left right => left + right
  | .SUB => some fun left right => left - right
  | _ => none

def loadWord32 (memory : Memory 32) (address : Word) : Word := loadWord memory address 4

def storeWord32 (memory : Memory 32) (address value : Word) : Memory 32 :=
  storeWord memory address 4 value

theorem load_word32_store_word32 (memory : Memory 32) (address value : Word) :
    loadWord32 (storeWord32 memory address value) address = value :=
  load_word_store_word_same memory address (show 4 ≤ 2 ^ 32 by decide) value

/-- What an instruction leaves: registers, memory, and the label it jumps to if it does. -/
structure Effect where
  registers : Registers
  memory : Memory 32
  target : Option Nat

def branchIf (inst : MCInst) (registers : Registers) (memory : Memory 32) (taken : Bool) :
    Option Effect :=
  if taken then (branchTarget inst).map fun label => ⟨registers, memory, some label⟩
  else some ⟨registers, memory, none⟩

/-- A comparison sets sixteen bits or none. -/
def compareResult (holds : Bool) : Word := if holds then 0xffff else 0

theorem compare_result_zero_iff (holds : Bool) : compareResult holds = 0 ↔ holds = false := by
  cases holds <;> decide

def exec (inst : MCInst) (registers : Registers) (memory : Memory 32) : Option Effect :=
  match inst.opcode with
  | .arithInt op .SSS_32 =>
      (alu op).map fun operation =>
        ⟨registers.setGpr (fieldReg inst .dst)
          (operation (registers.gpr (fieldReg inst .src0)) (registers.gpr (fieldReg inst .src1))),
          memory, none⟩
  | .arithIntImm op .SSI =>
      (alu op).map fun operation =>
        ⟨registers.setGpr (fieldReg inst .dst)
          (operation (registers.gpr (fieldReg inst .src)) (fieldSimm9 inst .imm)), memory, none⟩
  | .compInt .SNESI .SSS_32 =>
      some ⟨registers.setGpr (fieldReg inst .dst) (compareResult
        (registers.gpr (fieldReg inst .src0) != registers.gpr (fieldReg inst .src1))), memory, none⟩
  | .MOVE_SS_32 =>
      some ⟨registers.setGpr (fieldReg inst .dst) (registers.gpr (fieldReg inst .src0)), memory, none⟩
  | .moveImm .MOVEIH .SI =>
      some ⟨registers.setGpr (fieldReg inst .dst) (fieldImm16 inst .imm <<< 16), memory, none⟩
  | .moveImm .MOVEIL .SI =>
      some ⟨registers.setGpr (fieldReg inst .dst)
        ((registers.gpr (fieldReg inst .dst) &&& 0xffff0000) ||| fieldImm16 inst .imm), memory, none⟩
  | .moveImm .MOVEI .SI =>
      some ⟨registers.setGpr (fieldReg inst .dst) (fieldImm16 inst .imm), memory, none⟩
  | .loadScalar .L32W .Mainmem =>
      some ⟨registers.setGpr (fieldReg inst .dstsrc)
        (loadWord32 memory (fieldAddress inst registers)), memory, none⟩
  | .storeScalar .S32W .Mainmem =>
      some ⟨registers, storeWord32 memory (fieldAddress inst registers)
        (registers.gpr (fieldReg inst .dstsrc)), none⟩
  | .loadVector .LV32W .Mainmem_U =>
      some ⟨registers.setVec (fieldReg inst .dstsrc)
        (loadWord memory (fieldAddress inst registers) 64), memory, none⟩
  | .storeVector .SV32W .Mainmem_U =>
      some ⟨registers, storeWord memory (fieldAddress inst registers) 64
        (registers.vec (fieldReg inst .dstsrc)), none⟩
  | .BEQZ => branchIf inst registers memory (registers.gpr (fieldReg inst .cond) = 0)
  | .BNEZ => branchIf inst registers memory (registers.gpr (fieldReg inst .cond) ≠ 0)
  | _ => none

def execStraight : List MCInst → Registers → Memory 32 → Option (Registers × Memory 32)
  | [], registers, memory => some (registers, memory)
  | inst :: rest, registers, memory =>
      match exec inst registers memory with
      | some ⟨nextRegisters, nextMemory, none⟩ => execStraight rest nextRegisters nextMemory
      | _ => none

theorem exec_straight_cons {inst : MCInst} {registers nextRegisters : Registers}
    {memory nextMemory : Memory 32}
    (executed : exec inst registers memory = some ⟨nextRegisters, nextMemory, none⟩)
    (rest : List MCInst) :
    execStraight (inst :: rest) registers memory =
      execStraight rest nextRegisters nextMemory := by
  rw [execStraight, executed]

theorem exec_straight_append (first second : List MCInst) (registers : Registers)
    (memory : Memory 32) :
    execStraight (first ++ second) registers memory =
      (execStraight first registers memory).bind fun middle =>
        execStraight second middle.1 middle.2 := by
  induction first generalizing registers memory with
  | nil => rfl
  | cons inst rest induction =>
      rw [List.cons_append, execStraight, execStraight]
      split
      · exact induction _ _
      · rfl

section Instructions

theorem field_reg_eq {inst : MCInst} (name : Var) (register : Register)
    (encoded : varValue inst name = (getMachineOpValue (.reg register)).toNat) :
    fieldReg inst name = register.encoding := by
  rw [fieldReg, encoded, machine_op_value_reg]
  apply Fin.ext
  exact Nat.mod_eq_of_lt (encoding_value_lt register)

theorem field_simm9_eq {inst : MCInst} (name : Var) {value : Int} (fits : SignedFits 9 value)
    (encoded : varValue inst name = (getMachineOpValue (.imm value)).toNat) :
    fieldSimm9 inst name = BitVec.ofInt 32 value := by
  have extended : signExtend 9 ((BitVec.ofInt 32 value).toNat % 2 ^ 32) = value := by
    rw [sign_extend_field value (by decide) (by decide)]
    exact (bmod_eq_self_iff (by decide) value).mpr fits
  have low : (BitVec.ofInt 32 value).toNat % 2 ^ 32 = (BitVec.ofInt 32 value).toNat :=
    Nat.mod_eq_of_lt (BitVec.isLt _)
  rw [fieldSimm9, encoded, getMachineOpValue, ← low, extended]

theorem field_imm16_eq {inst : MCInst} (name : Var) {value : Int}
    (encoded : varValue inst name = (getMachineOpValue (.imm value)).toNat) :
    fieldImm16 inst name = BitVec.ofInt 32 value &&& 0xffff := by
  have mask : (0xffff : Word).toNat = 2 ^ 16 - 1 := rfl
  apply BitVec.eq_of_toNat_eq
  rw [fieldImm16, encoded, getMachineOpValue, BitVec.toNat_and, mask,
    Nat.and_two_pow_sub_one_eq_mod, BitVec.toNat_ofNat]
  omega

theorem field_address_eq {inst : MCInst} (base : Register) {offset : Int}
    (fits : SignedFits 9 offset) (encoded : varValue inst .addr = (packMemory base offset).toNat)
    (registers : Registers) :
    fieldAddress inst registers = registers.gpr base.encoding + BitVec.ofInt 32 offset := by
  have register : fieldReg inst .addr = base.encoding := by
    rw [fieldReg, encoded]
    apply Fin.ext
    exact pack_memory_base base offset
  have displacement : signExtend 9 (varValue inst .addr >>> 6) = offset := by
    rw [encoded, ← sign_extend_mod, pack_memory_offset,
      sign_extend_field offset (by decide) (by decide)]
    exact (bmod_eq_self_iff (by decide) offset).mpr fits
  rw [fieldAddress, register, displacement]

variable (registers : Registers) (memory : Memory 32)

theorem exec_arith {op : ArithInt} {operation : Word → Word → Word}
    (known : alu op = some operation) (dst src0 src1 : Fin 64) :
    exec ⟨.arithInt op .SSS_32, [.reg (sReg dst), .reg (sReg src0), .reg (sReg src1)]⟩
        registers memory =
      some ⟨registers.setGpr dst (operation (registers.gpr src0) (registers.gpr src1)),
        memory, none⟩ := by
  simp only [exec, known, Option.map_some]
  rw [field_reg_eq .dst (sReg dst) rfl, field_reg_eq .src0 (sReg src0) rfl,
    field_reg_eq .src1 (sReg src1) rfl]
  rfl

theorem exec_arith_imm {op : ArithInt} {operation : Word → Word → Word}
    (known : alu op = some operation) (dst src : Fin 64) {value : Int}
    (fits : SignedFits 9 value) :
    exec ⟨.arithIntImm op .SSI, [.reg (sReg dst), .reg (sReg src), .imm value]⟩
        registers memory =
      some ⟨registers.setGpr dst (operation (registers.gpr src) (BitVec.ofInt 32 value)),
        memory, none⟩ := by
  simp only [exec, known, Option.map_some]
  rw [field_reg_eq .dst (sReg dst) rfl, field_reg_eq .src (sReg src) rfl,
    field_simm9_eq .imm fits rfl]
  rfl

theorem exec_not_equal (dst src0 src1 : Fin 64) :
    exec ⟨.compInt .SNESI .SSS_32, [.reg (sReg dst), .reg (sReg src0), .reg (sReg src1)]⟩
        registers memory =
      some ⟨registers.setGpr dst (compareResult (registers.gpr src0 != registers.gpr src1)),
        memory, none⟩ := by
  simp only [exec]
  rw [field_reg_eq .dst (sReg dst) rfl, field_reg_eq .src0 (sReg src0) rfl,
    field_reg_eq .src1 (sReg src1) rfl]
  rfl

theorem exec_move (dst src : Fin 64) :
    exec ⟨.MOVE_SS_32, [.reg (sReg dst), .reg (sReg src)]⟩ registers memory =
      some ⟨registers.setGpr dst (registers.gpr src), memory, none⟩ := by
  simp only [exec]
  rw [field_reg_eq .dst (sReg dst) rfl, field_reg_eq .src0 (sReg src) rfl]
  rfl

theorem exec_move_high (dst : Fin 64) (value : Int) :
    exec ⟨.moveImm .MOVEIH .SI, [.reg (sReg dst), .imm value]⟩ registers memory =
      some ⟨registers.setGpr dst ((BitVec.ofInt 32 value &&& 0xffff) <<< 16), memory, none⟩ := by
  simp only [exec]
  rw [field_reg_eq .dst (sReg dst) rfl, field_imm16_eq .imm rfl]
  rfl

theorem exec_move_low (dst : Fin 64) (value : Int) :
    exec ⟨.moveImm .MOVEIL .SI, [.reg (sReg dst), .imm value]⟩ registers memory =
      some ⟨registers.setGpr dst
        ((registers.gpr dst &&& 0xffff0000) ||| (BitVec.ofInt 32 value &&& 0xffff)),
        memory, none⟩ := by
  simp only [exec]
  rw [field_reg_eq .dst (sReg dst) rfl, field_imm16_eq .imm rfl]
  rfl

theorem exec_move_immediate (dst : Fin 64) (value : Int) :
    exec ⟨.moveImm .MOVEI .SI, [.reg (sReg dst), .imm value]⟩ registers memory =
      some ⟨registers.setGpr dst (BitVec.ofInt 32 value &&& 0xffff), memory, none⟩ := by
  simp only [exec]
  rw [field_reg_eq .dst (sReg dst) rfl, field_imm16_eq .imm rfl]
  rfl

theorem exec_load (dst base : Fin 64) {offset : Int} (fits : SignedFits 9 offset) :
    exec ⟨.loadScalar .L32W .Mainmem, [.reg (sReg dst), .reg (sReg base), .imm offset]⟩
        registers memory =
      some ⟨registers.setGpr dst
        (loadWord32 memory (registers.gpr base + BitVec.ofInt 32 offset)), memory, none⟩ := by
  simp only [exec]
  rw [field_reg_eq .dstsrc (sReg dst) rfl, field_address_eq (sReg base) fits rfl]
  rfl

theorem exec_store (src base : Fin 64) {offset : Int} (fits : SignedFits 9 offset) :
    exec ⟨.storeScalar .S32W .Mainmem, [.reg (sReg src), .reg (sReg base), .imm offset]⟩
        registers memory =
      some ⟨registers, storeWord32 memory (registers.gpr base + BitVec.ofInt 32 offset)
        (registers.gpr src), none⟩ := by
  simp only [exec]
  rw [field_reg_eq .dstsrc (sReg src) rfl, field_address_eq (sReg base) fits rfl]
  rfl

theorem exec_load_vector (dst base : Fin 64) {offset : Int} (fits : SignedFits 9 offset) :
    exec ⟨.loadVector .LV32W .Mainmem_U, [.reg (vReg dst), .reg (sReg base), .imm offset]⟩
        registers memory =
      some ⟨registers.setVec dst
        (loadWord memory (registers.gpr base + BitVec.ofInt 32 offset) 64), memory, none⟩ := by
  simp only [exec]
  rw [field_reg_eq .dstsrc (vReg dst) rfl, field_address_eq (sReg base) fits rfl]
  rfl

theorem exec_store_vector (src base : Fin 64) {offset : Int} (fits : SignedFits 9 offset) :
    exec ⟨.storeVector .SV32W .Mainmem_U, [.reg (vReg src), .reg (sReg base), .imm offset]⟩
        registers memory =
      some ⟨registers, storeWord memory (registers.gpr base + BitVec.ofInt 32 offset) 64
        (registers.vec src), none⟩ := by
  simp only [exec]
  rw [field_reg_eq .dstsrc (vReg src) rfl, field_address_eq (sReg base) fits rfl]
  rfl

def testedRegister (cond : MCOperand) : Fin 64 := Fin.ofNat 64 (getMachineOpValue cond).toNat

theorem tested_register_reg (index : Fin 64) : testedRegister (.reg (sReg index)) = index := by
  rw [testedRegister, machine_op_value_reg]
  apply Fin.ext
  exact Nat.mod_eq_of_lt index.isLt

theorem exec_branch_zero (cond : MCOperand) (label : Nat) :
    exec ⟨.BEQZ, [cond, .expr ⟨label, 0⟩]⟩ registers memory =
      some ⟨registers, memory,
        if registers.gpr (testedRegister cond) = 0 then some label else none⟩ := by
  have field : fieldReg ⟨.BEQZ, [cond, .expr ⟨label, 0⟩]⟩ .cond = testedRegister cond := rfl
  have target : branchTarget ⟨.BEQZ, [cond, .expr ⟨label, 0⟩]⟩ = some label := rfl
  simp only [exec, branchIf, field, target, decide_eq_true_eq]
  split <;> rfl

theorem exec_branch_nonzero (cond : MCOperand) (label : Nat) :
    exec ⟨.BNEZ, [cond, .expr ⟨label, 0⟩]⟩ registers memory =
      some ⟨registers, memory,
        if registers.gpr (testedRegister cond) ≠ 0 then some label else none⟩ := by
  have field : fieldReg ⟨.BNEZ, [cond, .expr ⟨label, 0⟩]⟩ .cond = testedRegister cond := rfl
  have target : branchTarget ⟨.BNEZ, [cond, .expr ⟨label, 0⟩]⟩ = some label := rfl
  simp only [exec, branchIf, field, target, decide_eq_true_eq]
  split <;> rfl

end Instructions

/-- The basic blocks of a function, in layout order. -/
abbrev Program := List (List MCInst)

structure Thread where
  block : Nat
  index : Nat
  registers : Registers

/-- The position after an instruction: the label, the next instruction of the block, or
the block laid out after it. -/
def advance (code : List MCInst) (thread : Thread) (effect : Effect) : Thread :=
  match effect.target with
  | some label => ⟨label, 0, effect.registers⟩
  | none =>
      if thread.index + 1 < code.length then ⟨thread.block, thread.index + 1, effect.registers⟩
      else ⟨thread.block + 1, 0, effect.registers⟩

/-- One instruction of one thread against the memory. A thread past the last block has
left the program and makes no step. -/
def stepThread (program : Program) (thread : Thread) (memory : Memory 32) :
    Option (Thread × Memory 32) :=
  match program[thread.block]? with
  | none => none
  | some code =>
      match code[thread.index]? with
      | none => none
      | some inst =>
          (exec inst thread.registers memory).map fun effect =>
            (advance code thread effect, effect.memory)

/-- The same step on a thread that has the memory to itself. -/
def step (program : Program) (state : Thread × Memory 32) : Option (Thread × Memory 32) :=
  stepThread program state.1 state.2

def accessOf (inst : MCInst) : Access :=
  match inst.opcode with
  | .loadScalar _ _ | .loadVector _ _ => .load
  | .storeScalar _ _ | .storeVector _ _ => .store
  | _ => .none

def nextAccess (program : Program) (thread : Thread) : Access :=
  match program[thread.block]? with
  | some code =>
      match code[thread.index]? with
      | some inst => accessOf inst
      | none => .none
  | none => .none

section Accesses

def Effect.control (effect : Effect) : Registers × Option Nat := (effect.registers, effect.target)

theorem branch_if_memory {inst : MCInst} {registers : Registers} {memory : Memory 32} {taken : Bool}
    {effect : Effect} (branched : branchIf inst registers memory taken = some effect) :
    effect.memory = memory := by
  cases taken with
  | true =>
      rw [branchIf, if_pos rfl, Option.map_eq_some_iff] at branched
      obtain ⟨label, -, rfl⟩ := branched
      rfl
  | false =>
      rw [branchIf, if_neg (by decide), Option.some.injEq] at branched
      rw [← branched]

theorem branch_if_control (inst : MCInst) (registers : Registers) (memory other : Memory 32)
    (taken : Bool) :
    (branchIf inst registers memory taken).map Effect.control =
      (branchIf inst registers other taken).map Effect.control := by
  cases taken with
  | true => rw [branchIf, branchIf, if_pos rfl, if_pos rfl, Option.map_map, Option.map_map]; rfl
  | false => rfl

theorem exec_keeps_memory {inst : MCInst} (noStore : accessOf inst ≠ .store)
    {registers : Registers} {memory : Memory 32} {effect : Effect}
    (executed : exec inst registers memory = some effect) : effect.memory = memory := by
  unfold exec at executed
  unfold accessOf at noStore
  split at executed
  all_goals first
    | exact branch_if_memory executed
    | simp_all; done
    | (simp only [Option.map_eq_some_iff, Option.some.injEq] at executed
       obtain ⟨_, -, rfl⟩ := executed
       rfl)

theorem exec_ignores_memory {inst : MCInst} (noLoad : accessOf inst ≠ .load) (registers : Registers)
    (memory other : Memory 32) :
    (exec inst registers memory).map Effect.control =
      (exec inst registers other).map Effect.control := by
  unfold exec
  unfold accessOf at noLoad
  split
  all_goals first
    | exact branch_if_control _ _ _ _ _
    | (rw [Option.map_map, Option.map_map]; rfl)
    | (simp_all; done)
    | rfl
variable {program : Program} {thread : Thread}

theorem step_keeps_memory (noStore : nextAccess program thread ≠ .store) {memory : Memory 32}
    {next : Thread × Memory 32} (stepped : stepThread program thread memory = some next) :
    next.2 = memory := by
  unfold nextAccess at noStore
  unfold stepThread at stepped
  split at stepped
  · cases stepped
  · rename_i code laidOut
    split at stepped
    · cases stepped
    · rename_i inst here
      simp only [laidOut, here] at noStore
      rw [Option.map_eq_some_iff] at stepped
      obtain ⟨effect, executed, rfl⟩ := stepped
      exact exec_keeps_memory noStore executed

theorem step_ignores_memory (noLoad : nextAccess program thread ≠ .load) (memory other : Memory 32) :
    (stepThread program thread memory).map Prod.fst =
      (stepThread program thread other).map Prod.fst := by
  unfold nextAccess at noLoad
  unfold stepThread
  split
  · rfl
  · rename_i code laidOut
    split
    · rfl
    · rename_i inst here
      simp only [laidOut, here] at noLoad
      have control := exec_ignores_memory noLoad thread.registers memory other
      have moved := congrArg (Option.map fun control : Registers × Option Nat =>
        advance code thread ⟨control.1, memory, control.2⟩) control
      rw [Option.map_map, Option.map_map] at moved ⊢
      exact moved

/-- A step that does not store is the same on any memory that it does not load from. -/
theorem step_quiet (noStore : nextAccess program thread ≠ .store) {memory other : Memory 32}
    (same : nextAccess program thread = .none ∨ other = memory) :
    stepThread program thread other =
      (stepThread program thread memory).map fun next => (next.1, other) := by
  have control : (stepThread program thread other).map Prod.fst =
      (stepThread program thread memory).map Prod.fst := by
    rcases same with quiet | rfl
    · apply step_ignores_memory
      rw [quiet]
      decide
    · rfl
  cases stepped : stepThread program thread other with
  | none =>
      rw [stepped, Option.map_none, eq_comm, Option.map_eq_none_iff] at control
      rw [control, Option.map_none]
  | some next =>
      rw [stepped, Option.map_some, eq_comm, Option.map_eq_some_iff] at control
      obtain ⟨result, ran, first⟩ := control
      rw [ran, Option.map_some, first, ← step_keeps_memory noStore stepped]

end Accesses

def storeWeight (program : Program) (state : Thread × Memory 32) : Nat :=
  if nextAccess program state.1 = .store then 1 else 0

def storesIn (program : Program) (count : Nat) (state : Thread × Memory 32) : Nat :=
  weight (step program) (storeWeight program) count state

section Blocks

variable {program : Program} {block : Nat} {code : List MCInst}

theorem step_at (laidOut : program[block]? = some code) {index : Nat} {inst : MCInst}
    (here : code[index]? = some inst) {registers : Registers} {memory : Memory 32}
    {effect : Effect} (executed : exec inst registers memory = some effect) (stores : Nat) :
    weighted (step program) (storeWeight program) ((⟨block, index, registers⟩, memory), stores) =
      some ((advance code ⟨block, index, registers⟩ effect, effect.memory),
        stores + if accessOf inst = .store then 1 else 0) := by
  simp [weighted, step, stepThread, storeWeight, nextAccess, laidOut, here, executed]

theorem iterate_straight (laidOut : program[block]? = some code) {before straight rest : List MCInst}
    (split : code = before ++ straight ++ rest) (more : rest ≠ [])
    {registers finalRegisters : Registers} {memory finalMemory : Memory 32}
    (executed : execStraight straight registers memory = some (finalRegisters, finalMemory))
    (stores : Nat) :
    iterate (weighted (step program) (storeWeight program)) straight.length
        ((⟨block, before.length, registers⟩, memory), stores) =
      some ((⟨block, before.length + straight.length, finalRegisters⟩, finalMemory),
        stores + straight.countP fun inst => accessOf inst = .store) := by
  induction straight generalizing before registers memory stores with
  | nil =>
      rw [execStraight, Option.some.injEq, Prod.mk.injEq] at executed
      obtain ⟨rfl, rfl⟩ := executed
      rfl
  | cons inst straight induction =>
      have here : code[before.length]? = some inst := by
        rw [split]
        simp
      have inside : before.length + 1 < code.length := by
        have positive := List.length_pos_iff.mpr more
        rw [split]
        simp
        omega
      rw [execStraight] at executed
      split at executed
      · rename_i nextRegisters nextMemory first
        have shifted : code = (before ++ [inst]) ++ straight ++ rest := by
          rw [split, List.append_assoc before [inst], List.singleton_append]
        have tail := induction shifted executed (stores + if accessOf inst = .store then 1 else 0)
        rw [List.length_cons, iterate, step_at laidOut here first, Option.bind_some, advance]
        simp only [inside, if_true]
        rw [List.length_append, List.length_singleton] at tail
        rw [tail, List.countP_cons, Nat.add_assoc before.length, Nat.add_comm 1, Nat.add_assoc stores]
        simp only [decide_eq_true_eq, Nat.add_comm]
      · cases executed

/-- A block of straight-line code and a last instruction runs from its start to the
label that instruction jumps to, or to the block after it. -/
theorem iterate_block {straight : List MCInst} {last : MCInst}
    (laidOut : program[block]? = some (straight ++ [last]))
    {registers middleRegisters : Registers} {memory middleMemory : Memory 32} {effect : Effect}
    (executed : execStraight straight registers memory = some (middleRegisters, middleMemory))
    (final : exec last middleRegisters middleMemory = some effect) (stores : Nat) :
    iterate (weighted (step program) (storeWeight program)) (straight.length + 1)
        ((⟨block, 0, registers⟩, memory), stores) =
      some ((⟨effect.target.getD (block + 1), 0, effect.registers⟩, effect.memory),
        stores + (straight ++ [last]).countP fun inst => accessOf inst = .store) := by
  have split : straight ++ [last] = [] ++ straight ++ [last] := rfl
  have run := iterate_straight laidOut split (List.cons_ne_nil last []) executed stores
  have here : (straight ++ [last])[straight.length]? = some last := by simp
  have branch := (iterate_one _).trans (step_at laidOut here final
    (stores + straight.countP fun inst => accessOf inst = .store))
  rw [List.length_nil, Nat.zero_add] at run
  rw [iterate_trans run branch, advance]
  cases effect.target <;> simp [Nat.add_assoc, List.countP_cons]

end Blocks

end NaplesPU.Machine
