import NaplesPU.AddressLowering
import Mathlib.Data.Set.Lattice
import Mathlib.Order.CompletePartialOrder

/-!
The start-up code that every hardware thread begins with, instruction by instruction:
the prologue that sets up a stack, the loop over the global constructors, the copy into
the scratchpad and the call of `main`. Addresses are loaded by linked pairs of moves.
A call of a constructor is one step, whose effect is any that its convention allows.
-/

namespace NaplesPU.Startup

open ByteMemory StepRuns TwosComplement
open RegisterInfo InstrFormats InstrInfo FixupKinds MCCodeEmitter
open Disassembler ELFRelocations EncodeDecode Machine AddressLowering

/-- The labels of the blocks in their order, those of the data words behind them, and the
symbols that the linker defines. -/
inductive Symbol where
  | _start | init_loop | preload_scratchpad | preload_scratchpad_vector
  | preload_scratchpad_words | preload_scratchpad_remain_bytes | do_main | halt
  | init_array_end | init_array_start | thread_halt_addr
  | stacks_dim | threads_per_core | stacks_base
  | __init_array_start | __init_array_end | __scratchpad_data_start | __scratchpad_data_end
  | main
deriving DecidableEq

def Symbol.number : Symbol → Nat
  | ._start => 0 | .init_loop => 1 | .preload_scratchpad => 2 | .preload_scratchpad_vector => 3
  | .preload_scratchpad_words => 4 | .preload_scratchpad_remain_bytes => 5 | .do_main => 6
  | .halt => 7 | .init_array_end => 8 | .init_array_start => 9 | .thread_halt_addr => 10
  | .stacks_dim => 11 | .threads_per_core => 12 | .stacks_base => 13
  | .__init_array_start => 14 | .__init_array_end => 15 | .__scratchpad_data_start => 16
  | .__scratchpad_data_end => 17 | .main => 18

section Mnemonics

def s (index : Fin 64) : MCOperand := .reg (sReg index)

def v (index : Fin 64) : MCOperand := .reg (vReg index)

/-- The scalar registers with a name of their own. -/
abbrev rm : Fin 64 := MR_REG.encoding

abbrev fp : Fin 64 := FP_REG.encoding

abbrev sp : Fin 64 := SP_REG.encoding

def Symbol.label (symbol : Symbol) : MCOperand := .expr ⟨symbol.number, 0⟩

def movei (dst : Fin 64) (value : Int) : MCInst := ⟨.moveImm .MOVEI .SI, [s dst, .imm value]⟩

def moveih (dst : Fin 64) (value : Int) : MCInst := ⟨.moveImm .MOVEIH .SI, [s dst, .imm value]⟩

def moveil (dst : Fin 64) (value : Int) : MCInst := ⟨.moveImm .MOVEIL .SI, [s dst, .imm value]⟩

/-- The assembler reads a symbol as a memory operand whose base is the program counter. -/
def leah (dst : Fin 64) (symbol : Symbol) : MCInst :=
  ⟨.LEAH, [s dst, .reg PC_REG, symbol.label]⟩

def leal (dst : Fin 64) (symbol : Symbol) : MCInst :=
  ⟨.LEAL, [s dst, s dst, .reg PC_REG, symbol.label]⟩

def read_cr (dst register : Fin 64) : MCInst := ⟨.READCR, [s dst, s register]⟩

def write_cr (value register : Fin 64) : MCInst := ⟨.WRITECR, [s value, s register]⟩

def arith_i32 (op : ArithInt) (dst src0 src1 : Fin 64) : MCInst :=
  ⟨.arithInt op .SSS_32, [s dst, s src0, s src1]⟩

def arithi (op : ArithInt) (dst src : Fin 64) (value : Int) : MCInst :=
  ⟨.arithIntImm op .SSI, [s dst, s src, .imm value]⟩

def cmpge_i32 (dst src0 src1 : Fin 64) : MCInst :=
  ⟨.compInt .SGESI .SSS_32, [s dst, s src0, s src1]⟩

def cmplti (dst src : Fin 64) (value : Int) : MCInst :=
  ⟨.compIntImm .SLTSI .SSI, [s dst, s src, .imm value]⟩

def bnez (cond : Fin 64) (label : Symbol) : MCInst := ⟨.BNEZ, [s cond, label.label]⟩

def jmp (label : Symbol) : MCInst := ⟨.JMP, [label.label]⟩

def jmpsr (dst : Fin 64) : MCInst := ⟨.JMPSR_REG, [s dst]⟩

def load (op : LoadScalar) (dst base : Fin 64) : MCInst :=
  ⟨.loadScalar op .Mainmem, [s dst, s base, .imm 0]⟩

def store (op : StoreScalar) (space : Space) (src base : Fin 64) : MCInst :=
  ⟨.storeScalar op space, [s src, s base, .imm 0]⟩

end Mnemonics

/-- The code of `_start` up to its first branch. -/
def prologue : List MCInst :=
  [ movei 2 5, movei 3 11, write_cr 2 3,
    moveih rm 0, moveil rm 0xFFFF,
    movei 1 0, movei 2 2, read_cr 1 1, read_cr 2 2,
    leah 4 .stacks_dim, leal 4 .stacks_dim,
    leah 5 .threads_per_core, leal 5 .threads_per_core,
    leah 0 .stacks_base, leal 0 .stacks_base,
    arith_i32 .MULL 3 1 5, arith_i32 .ADD 3 3 2, arithi .ADD 3 3 1,
    arith_i32 .MULL 3 3 4, arith_i32 .ADD 0 0 3,
    leah sp .stacks_base, leal sp .stacks_base,
    leah fp .stacks_base, leal fp .stacks_base ]

/-- The code of `_start` that only the first thread of the first tile goes through. -/
def loadArrayBounds : List MCInst :=
  [ leah 24 .init_array_start, leal 24 .init_array_start,
    leah 25 .init_array_end, leal 25 .init_array_end ]

def initLoop : List MCInst :=
  [ cmpge_i32 0 24 25, bnez 0 .preload_scratchpad, load .L32W 0 24, arithi .ADD 24 24 4,
    jmpsr 0, jmp .init_loop ]

/-- A loop of the preload: `size` bytes at a time while that many are left. -/
def preloadLoop (size : Int) (loop next : Symbol) (copy : List MCInst) : List MCInst :=
  [cmplti 4 3 size, bnez 4 next] ++ copy ++
    [arithi .ADD 0 0 size, arithi .ADD 2 2 size, arithi .SUB 3 3 size, jmp loop]

def start : List MCInst :=
  prologue ++ [bnez 2 .do_main, bnez 1 .preload_scratchpad] ++ loadArrayBounds

def crt0 : Program :=
  [ start,
    initLoop,
    [ arith_i32 .XOR 0 0 0, arith_i32 .XOR 1 1 1,
      leah 0 .__scratchpad_data_start, leal 0 .__scratchpad_data_start,
      leah 1 .__scratchpad_data_end, leal 1 .__scratchpad_data_end,
      moveih 2 0, moveil 2 0, arith_i32 .SUB 3 1 0 ],
    preloadLoop 64 .preload_scratchpad_vector .preload_scratchpad_words
      [⟨.loadVector .LV32W .Mainmem_U, [v 0, s 0, .imm 0]⟩,
        ⟨.storeVector .SV32W .Scratchpad_U, [v 0, s 2, .imm 0]⟩],
    preloadLoop 4 .preload_scratchpad_words .preload_scratchpad_remain_bytes
      [load .L32W 4 0, store .S32W .Scratchpad 4 2],
    preloadLoop 1 .preload_scratchpad_remain_bytes .do_main
      [load .L32BU 4 0, store .S32B .Scratchpad 4 2],
    [ movei 0 12, movei 1 13, read_cr 0 0, read_cr 1 1, movei 2 1, movei 3 11, write_cr 2 3,
      ⟨.JMPSR_OFF, [Symbol.main.label]⟩,
      movei 1 13, write_cr 0 1, movei 1 0, moveih 2 0xFFFF, moveil 2 0xFFC0,
      store .S32W .Mainmem 1 2, ⟨.FLUSH, [s 2]⟩, movei 2 2, movei 3 11, write_cr 2 3 ],
    [jmp .halt] ]

def wordsBefore (block index : Nat) : Nat := ((crt0.take block).map List.length).sum + index

/-- The words before a label of the file; the linker places the other symbols. -/
def Symbol.words (symbol : Symbol) : Option Nat :=
  match symbol with
  | ._start | .init_loop | .preload_scratchpad | .preload_scratchpad_vector
  | .preload_scratchpad_words | .preload_scratchpad_remain_bytes | .do_main | .halt =>
      some (wordsBefore symbol.number 0)
  | .init_array_end => some (wordsBefore 8 0)
  | .init_array_start => some (wordsBefore 8 1)
  | .thread_halt_addr => some (wordsBefore 8 2)
  | _ => none

section Execution

structure Core where
  registers : Registers
  control : Word → Word
  memory : Memory 32

def Core.setGpr (core : Core) (index : Fin 64) (value : Word) : Core :=
  { core with registers := core.registers.setGpr index value }

def Core.gpr (core : Core) : Fin 64 → Word := core.registers.gpr

@[simp] theorem set_gpr_core (core : Core) (index : Fin 64) (value : Word) :
    (core.setGpr index value).gpr = Function.update core.gpr index value := rfl

@[simp] theorem set_gpr_control (core : Core) (index : Fin 64) (value : Word) :
    (core.setGpr index value).control = core.control := rfl

@[simp] theorem set_gpr_memory (core : Core) (index : Fin 64) (value : Word) :
    (core.setGpr index value).memory = core.memory := rfl

inductive Transfer where
  | next
  | jump (label : Nat)
  | call (address : Word)

def jumpTo : Option Nat → Transfer
  | some label => .jump label
  | none => .next

variable (link : Nat → RelocAddresses)

def execCore (inst : MCInst) (core : Core) : Option (Core × Transfer) :=
  match inst.opcode with
  | .arithInt .MULL .SSS_32 =>
      some (core.setGpr (fieldReg inst .dst)
        (core.gpr (fieldReg inst .src0) * core.gpr (fieldReg inst .src1)), .next)
  | .compInt .SGESI .SSS_32 =>
      some (core.setGpr (fieldReg inst .dst)
        (compareResult ((core.gpr (fieldReg inst .src1)).sle (core.gpr (fieldReg inst .src0)))),
        .next)
  | .READCR =>
      some (core.setGpr (fieldReg inst .src0) (core.control (core.gpr (fieldReg inst .src1))), .next)
  | .WRITECR =>
      some ({ core with
        control := Function.update core.control (core.gpr (fieldReg inst .src1))
          (core.gpr (fieldReg inst .src0)) }, .next)
  | .JMP => (branchTarget inst).map fun label => (core, .jump label)
  | .JMPSR_REG => some (core, .call (core.gpr (fieldReg inst .dst)))
  | .LEAH | .LEAL =>
      ((linkInst link inst).bind getInstruction).bind fun moved =>
        (exec moved core.registers core.memory).map fun effect =>
          (⟨effect.registers, core.control, effect.memory⟩, jumpTo effect.target)
  | _ =>
      (exec inst core.registers core.memory).map fun effect =>
        (⟨effect.registers, core.control, effect.memory⟩, jumpTo effect.target)

def execSequence : List MCInst → Core → Option Core
  | [], core => some core
  | inst :: rest, core =>
      match execCore link inst core with
      | some (next, .next) => execSequence rest next
      | _ => none

/-- A thread of the start-up code, and the constructors it has called. -/
structure Boot where
  block : Nat
  index : Nat
  core : Core
  calls : List Word

/-- What a called function does to registers and memory before it returns. -/
abbrev Callee := Word → Registers × Memory 32 → Registers × Memory 32

def ObeysConvention (callee : Callee) : Prop :=
  ∀ address registers memory, ∀ register ∈ calleeSavedRegs,
    match register.cls with
    | .GPR32 => (callee address (registers, memory)).1.gpr register.encoding =
        registers.gpr register.encoding
    | .VR512W => (callee address (registers, memory)).1.vec register.encoding =
        registers.vec register.encoding

variable (textStart : Word) (callee : Callee)

def Boot.call (state : Boot) (core : Core) (address : Word) : Core :=
  let ra := textStart + BitVec.ofNat 32 (4 * (wordsBefore state.block state.index + 1))
  let (registers, memory) := callee address
    (core.registers.setGpr RA_REG.encoding ra, core.memory)
  ⟨registers, core.control, memory⟩

def arrive (code : List MCInst) (block index : Nat) (core : Core) (calls : List Word) : Boot :=
  if index < code.length then ⟨block, index, core, calls⟩ else ⟨block + 1, 0, core, calls⟩

def Boot.advance (state : Boot) (code : List MCInst) (core : Core) : Transfer → Boot
  | .next => arrive code state.block (state.index + 1) core state.calls
  | .jump label => ⟨label, 0, core, state.calls⟩
  | .call address =>
      arrive code state.block (state.index + 1) (state.call textStart callee core address)
        (state.calls ++ [address])

def step (program : Program) (state : Boot) : Option Boot :=
  program[state.block]?.bind fun code =>
    code[state.index]?.bind fun inst =>
      (execCore link inst state.core).map fun result =>
        state.advance textStart callee code result.1 result.2

end Execution

section Instructions

variable (link : Nat → RelocAddresses) (core : Core)

theorem exec_read_cr (dst register : Fin 64) :
    execCore link (read_cr dst register) core =
      some (core.setGpr dst (core.control (core.gpr register)), .next) := by
  simp only [execCore, read_cr, s]
  rw [field_reg_eq .src0 (sReg dst) rfl, field_reg_eq .src1 (sReg register) rfl]
  rfl

theorem exec_write_cr (value register : Fin 64) :
    execCore link (write_cr value register) core =
      some ({ core with
        control := Function.update core.control (core.gpr register) (core.gpr value) }, .next) := by
  simp only [execCore, write_cr, s]
  rw [field_reg_eq .src0 (sReg value) rfl, field_reg_eq .src1 (sReg register) rfl]
  rfl

theorem exec_mull (dst src0 src1 : Fin 64) :
    execCore link (arith_i32 .MULL dst src0 src1) core =
      some (core.setGpr dst (core.gpr src0 * core.gpr src1), .next) := by
  simp only [execCore, arith_i32, s]
  rw [field_reg_eq .dst (sReg dst) rfl, field_reg_eq .src0 (sReg src0) rfl,
    field_reg_eq .src1 (sReg src1) rfl]
  rfl

theorem exec_cmpge (dst src0 src1 : Fin 64) :
    execCore link (cmpge_i32 dst src0 src1) core =
      some (core.setGpr dst (compareResult ((core.gpr src1).sle (core.gpr src0))), .next) := by
  simp only [execCore, cmpge_i32, s]
  rw [field_reg_eq .dst (sReg dst) rfl, field_reg_eq .src0 (sReg src0) rfl,
    field_reg_eq .src1 (sReg src1) rfl]
  rfl

theorem exec_jmp (label : Symbol) :
    execCore link (jmp label) core = some (core, .jump label.number) := rfl

theorem exec_jmpsr (dst : Fin 64) :
    execCore link (jmpsr dst) core = some (core, .call (core.gpr dst)) := by
  simp only [execCore, jmpsr, s]
  rw [field_reg_eq .dst (sReg dst) rfl]
  rfl

theorem exec_machine {inst : MCInst} {registers : Registers} {memory : Memory 32}
    {target : Option Nat} (known : execCore link inst core =
      (exec inst core.registers core.memory).map fun effect =>
        (⟨effect.registers, core.control, effect.memory⟩, jumpTo effect.target))
    (executed : exec inst core.registers core.memory = some ⟨registers, memory, target⟩) :
    execCore link inst core = some (⟨registers, core.control, memory⟩, jumpTo target) := by
  rw [known, executed]
  rfl

theorem exec_arith_i32 {op : ArithInt} {operation : Word → Word → Word}
    (known : alu op = some operation) (dst src0 src1 : Fin 64) :
    execCore link (arith_i32 op dst src0 src1) core =
      some (core.setGpr dst (operation (core.gpr src0) (core.gpr src1)), .next) := by
  have machine : execCore link (arith_i32 op dst src0 src1) core =
      (exec (arith_i32 op dst src0 src1) core.registers core.memory).map fun effect =>
        (⟨effect.registers, core.control, effect.memory⟩, jumpTo effect.target) := by
    -- only the multiplication has a case of its own, and it is not one of these operations
    cases op <;> first | rfl | cases known
  exact exec_machine link core machine (exec_arith core.registers core.memory known dst src0 src1)

theorem exec_arithi {op : ArithInt} {operation : Word → Word → Word}
    (known : alu op = some operation) (dst src : Fin 64) {value : Int}
    (fits : SignedFits 9 value) :
    execCore link (arithi op dst src value) core =
      some (core.setGpr dst (operation (core.gpr src) (BitVec.ofInt 32 value)), .next) :=
  exec_machine link core rfl (exec_arith_imm core.registers core.memory known dst src fits)

theorem exec_movei (dst : Fin 64) {value : Int}
    (low : BitVec.ofInt 32 value &&& (0xffff : Word) = BitVec.ofInt 32 value) :
    execCore link (movei dst value) core =
      some (core.setGpr dst (BitVec.ofInt 32 value), .next) := by
  have moved := exec_machine link core rfl
    (exec_move_immediate core.registers core.memory dst value)
  rw [low] at moved
  exact moved

theorem exec_moveih (dst : Fin 64) (value : Int) :
    execCore link (moveih dst value) core =
      some (core.setGpr dst ((BitVec.ofInt 32 value &&& 0xffff) <<< 16), .next) :=
  exec_machine link core rfl (exec_move_high core.registers core.memory dst value)

theorem exec_moveil (dst : Fin 64) (value : Int) :
    execCore link (moveil dst value) core =
      some (core.setGpr dst
        ((core.gpr dst &&& 0xffff0000) ||| (BitVec.ofInt 32 value &&& 0xffff)), .next) :=
  exec_machine link core rfl (exec_move_low core.registers core.memory dst value)

theorem exec_load32 (dst base : Fin 64) :
    execCore link (load .L32W dst base) core =
      some (core.setGpr dst (loadWord32 core.memory (core.gpr base)), .next) := by
  have loaded := exec_machine link core rfl (exec_load core.registers core.memory dst base
    (show SignedFits 9 0 by decide))
  rw [add_no_offset] at loaded
  exact loaded

theorem exec_bnez (cond : Fin 64) (label : Symbol) :
    execCore link (bnez cond label) core =
      some (core, if core.gpr cond ≠ 0 then .jump label.number else .next) := by
  have branched := exec_machine link core rfl
    (exec_branch_nonzero core.registers core.memory (s cond) label.number)
  rw [s, tested_register_reg] at branched
  rw [bnez, s, Symbol.label, branched, Core.gpr]
  split <;> rfl

theorem exec_sequence_cons {inst : MCInst} {core next : Core}
    (executed : execCore link inst core = some (next, .next)) (rest : List MCInst) :
    execSequence link (inst :: rest) core = execSequence link rest next := by
  rw [execSequence, executed]

def addressOf (symbol : Symbol) : Word := (link symbol.number).symbol.setWidth 32

theorem reference_plain (symbol : Symbol) :
    (referenceValue link ⟨symbol.number, 0⟩).setWidth 32 = addressOf link symbol := by
  rw [reference_value_low, add_no_offset, addressOf]

theorem exec_linked {inst moved : MCInst} {registers : Registers}
    (half : execCore link inst core =
      ((linkInst link inst).bind getInstruction).bind fun moved =>
        (exec moved core.registers core.memory).map fun effect =>
          (⟨effect.registers, core.control, effect.memory⟩, jumpTo effect.target))
    (linked : (linkInst link inst).bind getInstruction = some moved)
    (executed : exec moved core.registers core.memory = some ⟨registers, core.memory, none⟩) :
    execCore link inst core = some (⟨registers, core.control, core.memory⟩, .next) := by
  rw [half, linked, Option.bind_some, executed]
  rfl

theorem link_leah (dst : Fin 64) (symbol : Symbol) :
    linkInst link (leah dst symbol) = some (bytesLE 4 (moveWord 1 dst
      ((referenceValue link ⟨symbol.number, 0⟩ >>> 16) &&& 0xFFFF).toNat)) :=
  link_inst_half _ (encode_leah dst [.reg PC_REG, symbol.label] ⟨symbol.number, 0⟩ rfl) rfl (fun _ _ => rfl)
    (low_sixteen_lt _)

theorem link_leal (dst : Fin 64) (symbol : Symbol) :
    linkInst link (leal dst symbol) = some (bytesLE 4 (moveWord 0 dst
      (referenceValue link ⟨symbol.number, 0⟩ &&& 0xFFFF).toNat)) :=
  link_inst_half _ (encode_leal dst [s dst, .reg PC_REG, symbol.label] ⟨symbol.number, 0⟩ rfl) rfl
    (fun _ _ => rfl) (low_sixteen_lt _)

theorem exec_address (dst : Fin 64) (symbol : Symbol) (rest : List MCInst) :
    execSequence link (leah dst symbol :: leal dst symbol :: rest) core =
      execSequence link rest (core.setGpr dst (addressOf link symbol)) := by
  have highBounded := low_sixteen_lt (referenceValue link ⟨symbol.number, 0⟩ >>> 16)
  have lowBounded := low_sixteen_lt (referenceValue link ⟨symbol.number, 0⟩)
  have high := link_decode_half
    (show (Opcode.moveImm .MOVEIH .SI).layout = moveLayout 1 .imm from rfl)
    (link_leah link dst symbol) highBounded
  have low := link_decode_half
    (show (Opcode.moveImm .MOVEIL .SI).layout = moveLayout 0 .imm from rfl)
    (link_leal link dst symbol) lowBounded
  have pair := exec_pair dst highBounded lowBounded core.registers core.memory
  have value : BitVec.ofNat 32 (2 ^ 16 *
      ((referenceValue link ⟨symbol.number, 0⟩ >>> 16) &&& 0xFFFF).toNat +
        (referenceValue link ⟨symbol.number, 0⟩ &&& 0xFFFF).toNat) = addressOf link symbol := by
    rw [high_sixteen, low_sixteen, Nat.div_add_mod, BitVec.ofNat_toNat, reference_plain,
      BitVec.setWidth_eq]
  rw [exec_straight_cons (exec_move_high _ _ dst _), exec_straight_cons (exec_move_low _ _ dst _),
    execStraight, value, Option.some.injEq, Prod.mk.injEq] at pair
  rw [exec_sequence_cons link (exec_linked link core rfl high (exec_move_high _ _ dst _)),
    exec_sequence_cons link (exec_linked link _ rfl low (exec_move_low _ _ dst _)), pair.1]
  rfl

end Instructions

section Prologue

variable (link : Nat → RelocAddresses) (core : Core)

/-- The documented stack top of a thread; the code computes it, modulo `2 ^ 32`, in `s0`. -/
def stackTop (tile thread : Word) : Word :=
  addressOf link .stacks_base +
    (tile * addressOf link .threads_per_core + thread + 1) * addressOf link .stacks_dim

/-- What the prologue leaves: the documented stack top in `s0`, and the base of all stacks in
the stack and frame pointers. -/
theorem exec_prologue :
    ∃ final, execSequence link prologue core = some final ∧ final.memory = core.memory ∧
      final.gpr 0 = stackTop link (core.control 0) (core.control 2) ∧
      final.gpr 1 = core.control 0 ∧ final.gpr 2 = core.control 2 ∧
      final.gpr sp = addressOf link .stacks_base ∧ final.gpr fp = addressOf link .stacks_base := by
  unfold prologue
  rw [exec_sequence_cons link (exec_movei link _ 2 (by decide)),
    exec_sequence_cons link (exec_movei link _ 3 (by decide)),
    exec_sequence_cons link (exec_write_cr link _ 2 3),
    exec_sequence_cons link (exec_moveih link _ rm 0),
    exec_sequence_cons link (exec_moveil link _ rm 0xFFFF),
    exec_sequence_cons link (exec_movei link _ 1 (by decide)),
    exec_sequence_cons link (exec_movei link _ 2 (by decide)),
    exec_sequence_cons link (exec_read_cr link _ 1 1),
    exec_sequence_cons link (exec_read_cr link _ 2 2),
    exec_address, exec_address, exec_address,
    exec_sequence_cons link (exec_mull link _ 3 1 5),
    exec_sequence_cons link (exec_arith_i32 link _ rfl 3 3 2),
    exec_sequence_cons link (exec_arithi link _ rfl 3 3 (by decide)),
    exec_sequence_cons link (exec_mull link _ 3 3 4),
    exec_sequence_cons link (exec_arith_i32 link _ rfl 0 0 3),
    exec_address, exec_address, execSequence]
  refine ⟨_, rfl, rfl, ?_, ?_, ?_, ?_, ?_⟩
  all_goals simp [stackTop, rm, fp, sp, MR_REG, FP_REG, SP_REG, sReg, Core.gpr, Core.setGpr]

end Prologue

section Steps

variable {link : Nat → RelocAddresses} (textStart : Word) (callee : Callee) {program : Program}
  {block : Nat} {code : List MCInst}

theorem step_at (laidOut : program[block]? = some code) {index : Nat} {inst : MCInst}
    (here : code[index]? = some inst) {core next : Core} {transfer : Transfer}
    (executed : execCore link inst core = some (next, transfer)) (calls : List Word) :
    step link textStart callee program ⟨block, index, core, calls⟩ =
      some ((Boot.mk block index core calls).advance textStart callee code next transfer) := by
  simp only [step, laidOut, here, Option.bind_some, executed, Option.map_some]

theorem step_next (laidOut : program[block]? = some code) {index : Nat} {inst : MCInst}
    (here : code[index]? = some inst) {core next : Core}
    (executed : execCore link inst core = some (next, .next)) (inside : index + 1 < code.length)
    (calls : List Word) :
    iterate (step link textStart callee program) 1 ⟨block, index, core, calls⟩ =
      some ⟨block, index + 1, next, calls⟩ := by
  rw [iterate_one, step_at textStart callee laidOut here executed, Boot.advance, arrive,
    if_pos inside]

theorem step_jump (laidOut : program[block]? = some code) {index : Nat} {inst : MCInst}
    (here : code[index]? = some inst) {core next : Core} {label : Nat}
    (executed : execCore link inst core = some (next, .jump label)) (calls : List Word) :
    iterate (step link textStart callee program) 1 ⟨block, index, core, calls⟩ =
      some ⟨label, 0, next, calls⟩ := by
  rw [iterate_one, step_at textStart callee laidOut here executed, Boot.advance]

theorem step_call (laidOut : program[block]? = some code) {index : Nat} {inst : MCInst}
    (here : code[index]? = some inst) {core next : Core} {address : Word}
    (executed : execCore link inst core = some (next, .call address))
    (inside : index + 1 < code.length) (calls : List Word) :
    iterate (step link textStart callee program) 1 ⟨block, index, core, calls⟩ =
      some ⟨block, index + 1,
        (Boot.mk block index core calls).call textStart callee next address,
        calls ++ [address]⟩ := by
  rw [iterate_one, step_at textStart callee laidOut here executed, Boot.advance, arrive,
    if_pos inside]

theorem iterate_sequence (laidOut : program[block]? = some code) {before insts rest : List MCInst}
    (split : code = before ++ insts ++ rest) {core final : Core}
    (executed : execSequence link insts core = some final) (calls : List Word) :
    iterate (step link textStart callee program) insts.length
        (arrive code block before.length core calls) =
      some (arrive code block (before.length + insts.length) final calls) := by
  induction insts generalizing before core with
  | nil =>
      rw [execSequence, Option.some.injEq] at executed
      subst executed
      rfl
  | cons inst insts induction =>
      rw [execSequence] at executed
      split at executed
      · rename_i next first
        have here : code[before.length]? = some inst := by
          rw [split, List.append_assoc, List.getElem?_append_right le_rfl, Nat.sub_self]
          rfl
        have inside : before.length < code.length := by
          rw [split, List.length_append, List.length_append, List.length_cons]
          omega
        have regrouped : code = (before ++ [inst]) ++ insts ++ rest := by
          rw [split]
          simp only [List.append_assoc, List.cons_append, List.nil_append]
        have remaining := induction regrouped executed
        rw [List.length_append, List.length_singleton] at remaining
        rw [List.length_cons, iterate, arrive, if_pos inside,
          step_at textStart callee laidOut here first, Option.bind_some, Boot.advance, remaining,
          Nat.add_assoc, Nat.add_comm 1]
      · cases executed

end Steps

section Stacks

variable (link : Nat → RelocAddresses) (textStart : Word) (callee : Callee)

def reset (core : Core) : Boot := ⟨0, 0, core, []⟩

def afterPrologue (program : Program) (core : Core) : Option Boot :=
  iterate (step link textStart callee program) prologue.length (reset core)

theorem after_prologue {program : Program} (laidOut : program[0]? = some start) (core : Core) :
    ∃ final, afterPrologue link textStart callee program core =
        some ⟨0, prologue.length, final, []⟩ ∧
      final.gpr 1 = core.control 0 ∧ final.gpr 2 = core.control 2 ∧
      final.gpr sp = addressOf link .stacks_base ∧ final.gpr fp = addressOf link .stacks_base := by
  rcases exec_prologue link core with ⟨final, executed, -, -, tile, thread, stack, frame⟩
  have split : start =
      [] ++ prologue ++ ([bnez 2 .do_main, bnez 1 .preload_scratchpad] ++ loadArrayBounds) := by
    rw [start, List.nil_append, List.append_assoc]
  have ran := iterate_sequence textStart callee laidOut split executed []
  rw [List.length_nil, Nat.zero_add] at ran
  exact ⟨final, ran, tile, thread, stack, frame⟩

/-- The stack top of the comment in the code, for the tile and the thread that the control
registers name. -/
def documentedTop (core : Core) : Nat :=
  (addressOf link .stacks_base).toNat +
    (((core.control 0).toNat * (addressOf link .threads_per_core).toNat +
      (core.control 2).toNat) + 1) * (addressOf link .stacks_dim).toNat

def stackRegion (core : Core) : Set Int :=
  {address | (core.gpr sp).toNat - (addressOf link .stacks_dim).toNat ≤ address ∧
    address < (core.gpr sp).toNat}

/-- Two hardware threads whose documented stacks are in the address space. -/
structure ThreadPair (core other : Core) : Prop where
  different : (core.control 0, core.control 2) ≠ (other.control 0, other.control 2)
  thread : core.control 2 < addressOf link .threads_per_core
  otherThread : other.control 2 < addressOf link .threads_per_core
  positive : 0 < (addressOf link .stacks_dim).toNat
  room : documentedTop link core < 2 ^ 32
  otherRoom : documentedTop link other < 2 ^ 32

structure StacksDocumented (core other final otherFinal : Core) : Prop where
  top : (final.gpr sp).toNat = documentedTop link core
  otherTop : (otherFinal.gpr sp).toNat = documentedTop link other
  frame : final.gpr fp = final.gpr sp
  otherFrame : otherFinal.gpr fp = otherFinal.gpr sp
  apart : Disjoint (stackRegion link final) (stackRegion link otherFinal)

theorem top_above_base (core : Core) (positive : 0 < (addressOf link .stacks_dim).toNat) :
    (addressOf link .stacks_base).toNat < documentedTop link core := by
  rw [documentedTop]
  exact Nat.lt_add_of_pos_right (Nat.mul_pos (Nat.succ_pos _) positive)

theorem stack_region_shared {core other : Core} (same : core.gpr sp = other.gpr sp)
    (positive : 0 < (addressOf link .stacks_dim).toNat) :
    ¬ Disjoint (stackRegion link core) (stackRegion link other) := by
  rw [Set.not_disjoint_iff]
  refine ⟨(core.gpr sp).toNat - 1, ⟨by omega, by omega⟩, ?_⟩
  rw [stackRegion, ← same]
  exact ⟨by omega, by omega⟩

/-- Whatever the threads and the constants, both threads end the prologue with the base of all
stacks as their stack pointer: neither has its documented stack, and the two share one. -/
theorem stacks_shared {core other : Core} (threads : ThreadPair link core other) :
    ∃ final otherFinal,
      afterPrologue link textStart callee crt0 core =
        some ⟨0, prologue.length, final, []⟩ ∧
      afterPrologue link textStart callee crt0 other =
        some ⟨0, prologue.length, otherFinal, []⟩ ∧
      (final.gpr sp).toNat ≠ documentedTop link core ∧
      (otherFinal.gpr sp).toNat ≠ documentedTop link other ∧
      ¬ Disjoint (stackRegion link final) (stackRegion link otherFinal) ∧
      ¬ StacksDocumented link core other final otherFinal := by
  have laidOut : crt0[0]? = some start := rfl
  rcases after_prologue link textStart callee laidOut core with ⟨final, ran, -, -, stack, -⟩
  rcases after_prologue link textStart callee laidOut other with
    ⟨otherFinal, otherRan, -, -, otherStack, -⟩
  have above := top_above_base link core threads.positive
  have otherAbove := top_above_base link other threads.positive
  have shared := stack_region_shared link (stack.trans otherStack.symm) threads.positive
  refine ⟨final, otherFinal, ran, otherRan, ?_, ?_, shared, ?_⟩
  · rw [stack]
    exact above.ne
  · rw [otherStack]
    exact otherAbove.ne
  · intro documented
    exact shared documented.apart

def scriptLink (number : Nat) : RelocAddresses :=
  ⟨if number = Symbol.stacks_dim.number then 0x4000
    else if number = Symbol.stacks_base.number then 0x80000
    else if number = Symbol.threads_per_core.number then 8 else 0, 0, 0⟩

/-- A thread at reset, all its registers and the memory zero. -/
def hardwareThread (tile thread : Word) : Core :=
  ⟨noRegisters, fun register => if register = 0 then tile else if register = 2 then thread else 0,
    fun _ => 0⟩

theorem first_threads_pair : ThreadPair scriptLink (hardwareThread 0 0) (hardwareThread 0 1) where
  different := by decide
  thread := by decide
  otherThread := by decide
  positive := by decide
  room := by decide
  otherRoom := by decide

theorem first_threads_share :
    ∃ final otherFinal,
      afterPrologue scriptLink 0x400 (fun _ state => state) crt0 (hardwareThread 0 0) =
        some ⟨0, prologue.length, final, []⟩ ∧
      afterPrologue scriptLink 0x400 (fun _ state => state) crt0 (hardwareThread 0 1) =
        some ⟨0, prologue.length, otherFinal, []⟩ ∧
      (final.gpr sp).toNat ≠ documentedTop scriptLink (hardwareThread 0 0) ∧
      (otherFinal.gpr sp).toNat ≠ documentedTop scriptLink (hardwareThread 0 1) ∧
      ¬ Disjoint (stackRegion scriptLink final) (stackRegion scriptLink otherFinal) ∧
      ¬ StacksDocumented scriptLink (hardwareThread 0 0) (hardwareThread 0 1) final otherFinal :=
  stacks_shared scriptLink 0x400 (fun _ state => state) first_threads_pair

/-- Under the default linker script the first two threads of the first tile share a stack. -/
theorem stacks_not_documented :
    ¬ ∀ link textStart callee core other, ThreadPair link core other →
      ∃ final otherFinal,
        afterPrologue link textStart callee crt0 core = some ⟨0, prologue.length, final, []⟩ ∧
        afterPrologue link textStart callee crt0 other =
          some ⟨0, prologue.length, otherFinal, []⟩ ∧
        StacksDocumented link core other final otherFinal := by
  intro documented
  rcases documented scriptLink 0x400 (fun _ state => state) _ _ first_threads_pair with
    ⟨final, otherFinal, ran, -, placed⟩
  have laidOut : crt0[0]? = some start := rfl
  rcases after_prologue scriptLink 0x400 (fun _ state => state) laidOut (hardwareThread 0 0) with
    ⟨reached, reachedRan, -, -, stack, -⟩
  rw [ran, Option.some.injEq, Boot.mk.injEq] at reachedRan
  rcases reachedRan with ⟨-, -, rfl, -⟩
  have top := placed.top
  rw [stack] at top
  exact (top_above_base scriptLink (hardwareThread 0 0) first_threads_pair.positive).ne top

end Stacks

section Constructors

variable (link : Nat → RelocAddresses) (textStart : Word) (callee : Callee)

/-- The code before `preload_scratchpad`; a thread that left it is there or at `do_main`. -/
def initProgram : Program := crt0.take 2

def FirstThread (core : Core) : Prop := core.control 0 = 0 ∧ core.control 2 = 0

/-- The labels of the file are where its words are. -/
def Placed : Prop :=
  ∀ symbol : Symbol, ∀ words, symbol.words = some words →
    addressOf link symbol = textStart + BitVec.ofNat 32 (4 * words)

/-- The function addresses between the bounds of the linker, and the two words of the file
that hold these bounds. -/
structure ConstructorTable (memory : Memory 32) where
  addresses : List Word
  holds : ∀ index (inside : index < addresses.length),
    loadWord32 memory (addressOf link .__init_array_start + BitVec.ofNat 32 (4 * index)) =
      addresses[index]
  ends : (addressOf link .__init_array_start).toNat + 4 * addresses.length =
    (addressOf link .__init_array_end).toNat
  startPointer : loadWord32 memory (addressOf link .init_array_start) =
    addressOf link .__init_array_start
  endPointer : loadWord32 memory (addressOf link .init_array_end) =
    addressOf link .__init_array_end

/-- The thread comes to `preload_scratchpad` and has called the functions in this order. -/
def RunsConstructors (core : Core) (addresses : List Word) : Prop :=
  ∃ count final, iterate (step link textStart callee initProgram) count (reset core) = some final ∧
    final.block = Symbol.preload_scratchpad.number ∧ final.calls = addresses

theorem exec_array_bounds (core : Core) :
    execSequence link loadArrayBounds core =
      some ((core.setGpr 24 (addressOf link .init_array_start)).setGpr 25
        (addressOf link .init_array_end)) := by
  rw [loadArrayBounds, exec_address, exec_address, execSequence]

theorem start_laid_out : initProgram[0]? = some start := rfl

theorem loop_laid_out : initProgram[1]? = some initLoop := rfl

theorem loop_reached {core : Core} (first : FirstThread core) :
    ∃ count final, iterate (step link textStart callee initProgram) count (reset core) =
        some ⟨1, 0, final, []⟩ ∧
      final.gpr 24 = addressOf link .init_array_start ∧
      final.gpr 25 = addressOf link .init_array_end := by
  rcases after_prologue link textStart callee start_laid_out core with
    ⟨final, ran, tile, thread, -, -⟩
  rw [first.1] at tile
  rw [first.2] at thread
  have threadBranch := exec_bnez link final 2 .do_main
  rw [thread, if_neg (by simp)] at threadBranch
  have tileBranch := exec_bnez link final 1 .preload_scratchpad
  rw [tile, if_neg (by simp)] at tileBranch
  have bounds := iterate_sequence textStart callee start_laid_out
    (show start = (prologue ++ [bnez 2 .do_main, bnez 1 .preload_scratchpad]) ++ loadArrayBounds ++ []
      by rw [List.append_nil, start]) (exec_array_bounds link final) []
  have branches := iterate_trans
    (step_next textStart callee start_laid_out
      (show start[prologue.length]? = _ from rfl) threadBranch (by decide) [])
    (step_next textStart callee start_laid_out rfl tileBranch (by decide) [])
  refine ⟨_, _, iterate_trans (iterate_trans ran branches) bounds, ?_, ?_⟩
  · simp
  · simp

theorem loop_ends {core : Core} (behind : (core.gpr 25).sle (core.gpr 24)) (calls : List Word) :
    iterate (step link textStart callee initProgram) 2 ⟨1, 0, core, calls⟩ =
      some ⟨2, 0, core.setGpr 0 0xffff, calls⟩ := by
  have compared := exec_cmpge link core 0 24 25
  rw [behind] at compared
  have branched := exec_bnez link (core.setGpr 0 0xffff) 0 .preload_scratchpad
  rw [if_pos (by simp)] at branched
  exact iterate_trans
    (step_next textStart callee loop_laid_out (show initLoop[0]? = _ from rfl) compared (by decide)
      calls)
    (step_jump textStart callee loop_laid_out rfl branched calls)

/-- What a constructor finds: its address is loaded, and the index is already moved on. -/
def beforeCall (core : Core) : Core :=
  ((core.setGpr 0 0).setGpr 0 (loadWord32 core.memory (core.gpr 24))).setGpr 24 (core.gpr 24 + 4)

/-- A round of the loop calls the function whose address is at the index. -/
theorem loop_round {core : Core} (before : (core.gpr 25).sle (core.gpr 24) = false)
    (calls : List Word) :
    iterate (step link textStart callee initProgram) 6 ⟨1, 0, core, calls⟩ =
      some ⟨1, 0, (Boot.mk 1 4 (beforeCall core) calls).call textStart callee (beforeCall core)
        (loadWord32 core.memory (core.gpr 24)),
        calls ++ [loadWord32 core.memory (core.gpr 24)]⟩ := by
  have compared := exec_cmpge link core 0 24 25
  rw [before] at compared
  have branched := exec_bnez link (core.setGpr 0 0) 0 .preload_scratchpad
  rw [if_neg (by simp)] at branched
  have loaded := exec_load32 link (core.setGpr 0 0) 0 24
  have moved := exec_arithi link
    ((core.setGpr 0 0).setGpr 0 (loadWord32 core.memory (core.gpr 24)))
    (show alu .ADD = some _ from rfl) 24 24 (show SignedFits 9 4 by decide)
  have called := exec_jmpsr link (beforeCall core) 0
  have body := iterate_trans (iterate_trans (iterate_trans
    (step_next textStart callee loop_laid_out (show initLoop[0]? = _ from rfl) compared (by decide)
      calls)
    (step_next textStart callee loop_laid_out rfl branched (by decide) calls))
    (step_next textStart callee loop_laid_out rfl loaded (by decide) calls))
    (step_next textStart callee loop_laid_out rfl moved (by decide) calls)
  have address : (beforeCall core).gpr 0 = loadWord32 core.memory (core.gpr 24) := by
    simp [beforeCall]
  rw [address] at called
  have call := step_call textStart callee loop_laid_out (show initLoop[4]? = _ from rfl) called
    (by decide) calls
  have back := step_jump textStart callee loop_laid_out (show initLoop[5]? = _ from rfl)
    (exec_jmp link ((Boot.mk 1 4 (beforeCall core) calls).call textStart callee (beforeCall core)
      (loadWord32 core.memory (core.gpr 24))) .init_loop)
    (calls ++ [loadWord32 core.memory (core.gpr 24)])
  exact iterate_trans (iterate_trans body call) back

/-- The function that only puts the loop's registers back: it may, they are not callee-saved. -/
def rewind : Callee := fun _ state =>
  ((state.1.setGpr 24 (addressOf link .init_array_start)).setGpr 25
    (addressOf link .init_array_end), state.2)

theorem rewind_obeys : ObeysConvention (rewind link) := by
  intro address registers memory register member
  simp only [calleeSavedRegs, List.mem_cons, List.not_mem_nil, or_false] at member
  rcases member with rfl | rfl | rfl | rfl | rfl | rfl | rfl | rfl | rfl | rfl | rfl | rfl | rfl |
    rfl | rfl | rfl | rfl | rfl | rfl <;> rfl

/-- If the loop is entered at all, such a function keeps it going for ever. -/
theorem loop_never_halts
    (before : (addressOf link .init_array_end).sle (addressOf link .init_array_start) = false)
    (count : Nat) {core : Core} (index : core.gpr 24 = addressOf link .init_array_start)
    (bound : core.gpr 25 = addressOf link .init_array_end) {calls : List Word} {final : Boot}
    (ran : iterate (step link textStart (rewind link) initProgram) count ⟨1, 0, core, calls⟩ =
      some final) :
    step link textStart (rewind link) initProgram final ≠ none := by
  induction count using Nat.strong_induction_on generalizing core calls with
  | h count induction =>
      intro halted
      have entered : (core.gpr 25).sle (core.gpr 24) = false := by rw [index, bound, before]
      rcases iterate_split_of_halted ran halted
        (loop_round link textStart (rewind link) entered calls) with ⟨rest, rfl, after⟩
      refine induction rest (by omega) ?_ ?_ after halted
      · simp [Boot.call, rewind, Core.gpr]
      · simp [Boot.call, rewind, Core.gpr]

theorem halted_at_preload {final : Boot} (left : final.block = Symbol.preload_scratchpad.number) :
    step link textStart callee initProgram final = none := by
  have outside : initProgram[final.block]? = none := by
    rw [left]
    rfl
  rw [step, outside, Option.bind_none]

/-- The address of the first data word, whose label is `init_array_end`. -/
def dataStart : Word := textStart + BitVec.ofNat 32 (4 * wordsBefore 8 0)

/-- The signed comparison of the labels' addresses goes the other way round if the second word
is the first of the upper half of the address space. -/
def Straddles : Prop := 2 ^ 31 - 4 ≤ (dataStart textStart).toNat ∧ (dataStart textStart).toNat < 2 ^ 31

theorem label_order (placed : Placed link textStart) :
    (addressOf link .init_array_end).sle (addressOf link .init_array_start) = true ↔
      ¬ Straddles textStart := by
  have second : textStart + BitVec.ofNat 32 (4 * wordsBefore 8 1) = dataStart textStart + 4 := by
    have distance : BitVec.ofNat 32 (4 * wordsBefore 8 1) =
        BitVec.ofNat 32 (4 * wordsBefore 8 0) + 4 := by
      decide
    rw [distance, dataStart, BitVec.add_assoc]
  have first : addressOf link .init_array_end = dataStart textStart :=
    placed .init_array_end _ rfl
  rw [first, placed .init_array_start _ rfl, second, Straddles]
  generalize dataStart textStart = address
  have sum : (address + 4).toNat = (address.toNat + 4) % 2 ^ 32 := BitVec.toNat_add _ _
  have bounded := address.isLt
  rw [BitVec.sle_eq_decide, decide_eq_true_eq, BitVec.toInt_eq_toNat_cond,
    BitVec.toInt_eq_toNat_cond, sum]
  split <;> split <;> omega

theorem constructors_skipped {core : Core} (first : FirstThread core)
    (behind : (addressOf link .init_array_end).sle (addressOf link .init_array_start) = true) :
    RunsConstructors link textStart callee core [] := by
  rcases loop_reached link textStart callee first with ⟨count, reached, ran, index, bound⟩
  have ended := loop_ends link textStart callee (by rw [index, bound, behind]) []
  exact ⟨_, _, iterate_trans ran ended, rfl, rfl⟩

theorem runs_unique {core : Core} {addresses others : List Word}
    (runs : RunsConstructors link textStart callee core addresses)
    (otherRuns : RunsConstructors link textStart callee core others) : addresses = others := by
  rcases runs with ⟨count, final, ran, left, rfl⟩
  rcases otherRuns with ⟨otherCount, otherFinal, otherRan, otherLeft, rfl⟩
  rw [halted_unique ran (halted_at_preload link textStart callee left) otherRan
    (halted_at_preload link textStart callee otherLeft)]

theorem identity_obeys : ObeysConvention fun _ state => state := by
  intro address registers memory register member
  cases register.cls <;> rfl

/-- The bounds of the loop are the addresses of two neighbouring words, not what they hold, so
it ends at once: the constructors run just when there are none. -/
theorem constructors_run_iff {core : Core} (first : FirstThread core)
    (placed : Placed link textStart) (table : ConstructorTable link core.memory) :
    (∀ callee, ObeysConvention callee →
        RunsConstructors link textStart callee core table.addresses) ↔
      table.addresses = [] ∧ ¬ Straddles textStart := by
  constructor
  · intro runs
    cases behind : (addressOf link .init_array_end).sle (addressOf link .init_array_start) with
    | false =>
        rcases runs (rewind link) (rewind_obeys link) with ⟨count, final, ran, left, -⟩
        have halted := halted_at_preload link textStart (rewind link) left
        rcases loop_reached link textStart (rewind link) first with
          ⟨before, reached, part, index, bound⟩
        rcases iterate_split_of_halted ran halted part with ⟨rest, -, after⟩
        exact absurd halted (loop_never_halts link textStart behind rest index bound after)
    | true =>
        have none := runs_unique link textStart _ (runs _ identity_obeys)
          (constructors_skipped link textStart _ first behind)
        exact ⟨none, (label_order link textStart placed).mp behind⟩
  · rintro ⟨empty, apart⟩ callee -
    rw [empty]
    exact constructors_skipped link textStart callee first
      ((label_order link textStart placed).mpr apart)

/-- The symbols by number, with the addresses of a file that starts at `0x400`. -/
def symbols : List Symbol :=
  [._start, .init_loop, .preload_scratchpad, .preload_scratchpad_vector, .preload_scratchpad_words,
    .preload_scratchpad_remain_bytes, .do_main, .halt, .init_array_end, .init_array_start,
    .thread_halt_addr]

/-- The labels of a file at `0x400`, and a table of `entries` words at `0x800000`. -/
def tableLink (entries : Nat) (number : Nat) : RelocAddresses :=
  ⟨match symbols[number]? with
    | some symbol => BitVec.ofNat 64 (0x400 + 4 * symbol.words.getD 0)
    | none => if number = Symbol.__init_array_end.number then BitVec.ofNat 64 (0x800000 + 4 * entries)
        else 0x800000, 0, 0⟩

/-- Its memory: the words of the two labels, and a table that starts with the address `0x1000`. -/
def tableMemory (entries : Nat) : Memory 32 :=
  storeWord32 (storeWord32 (storeWord32 (fun _ => 0) 0x800000 0x1000)
    (addressOf (tableLink entries) .init_array_start) 0x800000)
    (addressOf (tableLink entries) .init_array_end) (BitVec.ofNat 32 (0x800000 + 4 * entries))

theorem table_placed (entries : Nat) : Placed (tableLink entries) 0x400 := by
  intro symbol words known
  cases symbol <;> cases known <;> rfl

def noConstructors : ConstructorTable (tableLink 0) (tableMemory 0) where
  addresses := []
  holds := by
    intro index inside
    cases inside
  ends := by decide +kernel
  startPointer := by decide +kernel
  endPointer := by decide +kernel

def oneConstructor : ConstructorTable (tableLink 1) (tableMemory 1) where
  addresses := [0x1000]
  holds := by
    intro index inside
    have loaded : loadWord32 (tableMemory 1)
        (addressOf (tableLink 1) .__init_array_start + BitVec.ofNat 32 (4 * 0)) = 0x1000 := by
      decide +kernel
    obtain rfl := Nat.lt_one_iff.mp inside
    exact loaded
  ends := by decide +kernel
  startPointer := by decide +kernel
  endPointer := by decide +kernel

def firstThread (memory : Memory 32) : Core := ⟨noRegisters, fun _ => 0, memory⟩

theorem empty_table_run :
    RunsConstructors (tableLink 0) 0x400 (fun _ state => state) (firstThread (tableMemory 0)) [] := by
  have first : FirstThread (firstThread (tableMemory 0)) := ⟨rfl, rfl⟩
  have apart : ¬ Straddles 0x400 := by
    unfold Straddles
    decide
  exact (constructors_run_iff (tableLink 0) 0x400 first (table_placed 0) noConstructors).mpr
    ⟨rfl, apart⟩ _ identity_obeys

/-- A table of one constructor, which is not called. -/
theorem constructor_not_called :
    ¬ ∀ link textStart core, FirstThread core → Placed link textStart →
      ∀ table : ConstructorTable link core.memory, ∀ callee, ObeysConvention callee →
        RunsConstructors link textStart callee core table.addresses := by
  intro runs
  have first : FirstThread (firstThread (tableMemory 1)) := ⟨rfl, rfl⟩
  have called := runs (tableLink 1) 0x400 (firstThread (tableMemory 1)) first (table_placed 1)
    oneConstructor _ identity_obeys
  have behind : (addressOf (tableLink 1) .init_array_end).sle
      (addressOf (tableLink 1) .init_array_start) = true := by
    decide
  have none := runs_unique _ _ _ called (constructors_skipped _ _ _ first behind)
  cases none

end Constructors

end NaplesPU.Startup
