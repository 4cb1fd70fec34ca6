import NaplesPU.Machine

/-!
The expansion of the atomic pseudo instructions by the custom inserter. The
target has no atomic instructions: a pseudo becomes a load, a computation, a
store and a branch whose condition operand is the immediate one. The blocks are
kept over virtual registers; lowering gives each the register that allocation
chose for it.
-/

namespace NaplesPU.AtomicExpansion

open ByteMemory StepRuns TwosComplement
open RegisterInfo InstrInfo FixupKinds Machine

inductive MachineOperand (Reg : Type) where
  | reg (register : Reg)
  | imm (value : Int)
  | mbb (block : Nat)
deriving DecidableEq, Repr

structure MachineInstr (Reg : Type) where
  opcode : Opcode
  operands : List (MachineOperand Reg)
deriving DecidableEq, Repr

def MachineOperand.lower {Reg : Type} (assign : Reg → Fin 64) : MachineOperand Reg → MCOperand
  | .reg register => .reg (sReg (assign register))
  | .imm value => .imm value
  | .mbb block => .expr ⟨block, 0⟩

def MachineInstr.lower {Reg : Type} (assign : Reg → Fin 64) (inst : MachineInstr Reg) : MCInst :=
  ⟨inst.opcode, inst.operands.map (MachineOperand.lower assign)⟩

def lowerBlocks {Reg : Type} (assign : Reg → Fin 64) (blocks : List (List (MachineInstr Reg))) :
    Program :=
  blocks.map fun code => code.map (MachineInstr.lower assign)

section Binary

/-- The registers of an atomic read-modify-write: those of the pseudo, then the virtual
registers its expansion creates. -/
inductive BinaryReg where
  | dest | ptr | amt | oldValue | newValue | inverted
deriving DecidableEq, Repr

inductive AtomicLoad where
  | ADD | SUB | AND | OR | XOR | NAND
deriving DecidableEq, Repr

/-- The two variants of the multiclass `AtomicBinary`, and the swap. -/
inductive AtomicPseudo where
  | ATOMIC_LOAD_R (op : AtomicLoad)
  | ATOMIC_LOAD_I (op : AtomicLoad) (amt : { value : Int // SignedFits 9 value })
  | ATOMIC_SWAP
deriving DecidableEq

def loopMBB : Nat := 0

def exitMBB : Nat := 1

/-- What the operation leaves in `newValue`, and the register the store then reads. -/
def emitOperation (amt : MachineOperand BinaryReg) (opcode : Option Opcode) (invertResult : Bool) :
    List (MachineInstr BinaryReg) × BinaryReg :=
  match opcode with
  | some opcode =>
      let operation : MachineInstr BinaryReg := ⟨opcode, [.reg .newValue, .reg .oldValue, amt]⟩
      if invertResult then
        ([operation, ⟨.arithIntImm .XOR .SSI, [.reg .inverted, .reg .newValue, .imm (-1)]⟩],
          .inverted)
      else ([operation], .newValue)
  | none => ([], .oldValue)

def emitLoop (operation : List (MachineInstr BinaryReg)) (result : BinaryReg) :
    List (MachineInstr BinaryReg) :=
  [⟨.loadScalar .L32W .Mainmem, [.reg .oldValue, .reg .ptr, .imm 0]⟩,
    ⟨.MOVE_SS_32, [.reg .dest, .reg .oldValue]⟩] ++ operation ++
    [⟨.storeScalar .S32W .Mainmem, [.reg result, .reg .ptr, .imm 0]⟩]

def emitAtomicBinary (amt : MachineOperand BinaryReg) (opcode : Option Opcode)
    (invertResult : Bool) : List (List (MachineInstr BinaryReg)) :=
  let (operation, result) := emitOperation amt opcode invertResult
  [emitLoop operation result ++ [⟨.BEQZ, [.imm 1, .mbb loopMBB]⟩]]

/-- The operation that stands for the pseudo, and whether its result is inverted. -/
def AtomicLoad.selected : AtomicLoad → ArithInt × Bool
  | .ADD => (.ADD, false)
  | .SUB => (.SUB, false)
  | .AND => (.AND, false)
  | .OR => (.OR, false)
  | .XOR => (.XOR, false)
  | .NAND => (.AND, true)

def emitInstrWithCustomInserter : AtomicPseudo → List (List (MachineInstr BinaryReg))
  | .ATOMIC_LOAD_R op =>
      emitAtomicBinary (.reg .amt) (some (.arithInt op.selected.1 .SSS_32)) op.selected.2
  | .ATOMIC_LOAD_I op amt =>
      emitAtomicBinary (.imm amt) (some (.arithIntImm op.selected.1 .SSI)) op.selected.2
  | .ATOMIC_SWAP => emitAtomicBinary (.reg .amt) none false

def AtomicPseudo.readsAmt : AtomicPseudo → Bool
  | .ATOMIC_LOAD_R _ => true
  | .ATOMIC_LOAD_I _ _ | .ATOMIC_SWAP => false

/-- An allocation that keeps apart what is alive together in the loop: the pointer and a
register operand are read by every pass, and the result outlives the loop. -/
structure BinaryAllocation (pseudo : AtomicPseudo) where
  assign : BinaryReg → Fin 64
  allocatable : ∀ register, sReg (assign register) ∉ getReservedRegs
  ptrKept : ∀ register ∈ [.dest, .oldValue, .newValue, .inverted], assign register ≠ assign .ptr
  amtKept : pseudo.readsAmt →
    ∀ register ∈ [.dest, .oldValue, .newValue, .inverted], assign register ≠ assign .amt
  destKept : ∀ register ∈ [.newValue, .inverted], assign register ≠ assign .dest

def binaryProgram (pseudo : AtomicPseudo) (alloc : BinaryAllocation pseudo) : Program :=
  lowerBlocks alloc.assign (emitInstrWithCustomInserter pseudo)

def AtomicLoad.apply : AtomicLoad → Word → Word → Word
  | .ADD, old, operand => old + operand
  | .SUB, old, operand => old - operand
  | .AND, old, operand => old &&& operand
  | .OR, old, operand => old ||| operand
  | .XOR, old, operand => old ^^^ operand
  | .NAND, old, operand => ~~~(old &&& operand)

def AtomicPseudo.apply : AtomicPseudo → Word → Word → Word
  | .ATOMIC_LOAD_R op, old, operand | .ATOMIC_LOAD_I op _, old, operand => op.apply old operand
  | .ATOMIC_SWAP, _, operand => operand

def AtomicPseudo.operand (assign : BinaryReg → Fin 64) (registers : Registers) :
    AtomicPseudo → Word
  | .ATOMIC_LOAD_R _ | .ATOMIC_SWAP => registers.gpr (assign .amt)
  | .ATOMIC_LOAD_I _ amt => BitVec.ofInt 32 amt

end Binary

section CmpSwap

inductive CmpSwapReg where
  | dest | ptr | oldVal | newVal | cmpResult
deriving DecidableEq, Repr

def loop1MBB : Nat := 0

def loop2MBB : Nat := 1

def exitCmpSwapMBB : Nat := 2

def emitAtomicCmpSwap : List (List (MachineInstr CmpSwapReg)) :=
  [[⟨.loadScalar .L32W .Mainmem, [.reg .dest, .reg .ptr, .imm 0]⟩,
      ⟨.compInt .SNESI .SSS_32, [.reg .cmpResult, .reg .dest, .reg .oldVal]⟩,
      ⟨.BNEZ, [.reg .cmpResult, .mbb exitCmpSwapMBB]⟩],
    [⟨.storeScalar .S32W .Mainmem, [.reg .newVal, .reg .ptr, .imm 0]⟩,
      ⟨.BEQZ, [.imm 1, .mbb loop1MBB]⟩]]

/-- An allocation that keeps apart what is alive together in the two blocks. -/
structure CmpSwapAllocation where
  assign : CmpSwapReg → Fin 64
  allocatable : ∀ register, sReg (assign register) ∉ getReservedRegs
  inputsKept : ∀ written ∈ [.dest, .cmpResult], ∀ input ∈ [.ptr, .oldVal, .newVal],
    assign written ≠ assign input
  destKept : assign .cmpResult ≠ assign .dest

def cmpSwapProgram (alloc : CmpSwapAllocation) : Program :=
  lowerBlocks alloc.assign emitAtomicCmpSwap

end CmpSwap

end NaplesPU.AtomicExpansion
