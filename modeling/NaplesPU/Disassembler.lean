import NaplesPU.Lib.TwosComplement
import NaplesPU.DecoderTable
import NaplesPU.MCCodeEmitter

/-!
The disassembler: four bytes are read as a little-endian word, the decoder table
finds the record whose constants the word matches, and the hand-written operand
decoders rebuild the operands. There is no symbolizer, so a branch target always
becomes an immediate. The branch decoder extends eighteen bits for every jump,
also for the format whose offset field has twenty-four.
-/

namespace NaplesPU.Disassembler

open BitLayout ByteMemory RegisterInfo InstrFormats InstrInfo DecoderTable FixupKinds
open MCCodeEmitter TwosComplement

def fieldFromInstruction (insn startBit numBits : Nat) : Nat :=
  (⟨startBit, numBits⟩ : Slot).extract insn

def decodeRegisterClass (cls : RegClass) (regNo : Nat) : Option (List MCOperand) :=
  if 63 < regNo then none else (getReg cls regNo).map fun register => [.reg register]

def decodeSimm9Value (insn : Nat) : Option (List MCOperand) := some [.imm (signExtend 9 insn)]

def decodeSimm16Value (insn : Nat) : Option (List MCOperand) := some [.imm (signExtend 16 insn)]

def decodeMemoryOpValue (cls : RegClass) (insn : Nat) : Option (List MCOperand) :=
  (getReg cls (fieldFromInstruction insn 0 6)).map fun baseReg =>
    [.reg baseReg, .imm (signExtend 9 (fieldFromInstruction insn 6 9))]

def decodeBranchTargetOpValue (insn : Nat) : Option (List MCOperand) :=
  some [.imm (signExtend 18 insn)]

/-- The decoder method of an operand class; the address classes of the assembler-only
records have none. -/
def decodeOperand (type : OperandType) (insn : Nat) : Option (List MCOperand) :=
  match type with
  | .reg cls => decodeRegisterClass cls insn
  | .SIMM9OP => decodeSimm9Value insn
  | .SIMM16OP => decodeSimm16Value insn
  | .MEMri => decodeMemoryOpValue .GPR32 insn
  | .V16MEMri => decodeMemoryOpValue .VR512W insn
  | .brtarget | .calltarget => decodeBranchTargetOpValue insn
  | .LEAri | .ABSh | .ABSl => none

/-- The variable whose bits an operand is read from: its own, or those of the operand
it is tied to. -/
def decodedVar (name : Var) : Var := (tiedTo name).getD name

def decodeToMCInst (opcode : Opcode) (insn : Nat) : Option MCInst :=
  (opcode.operandList.mapM fun decl =>
    decodeOperand decl.type (opcode.layout.gather (decodedVar decl.name) insn)).map
      fun operands => ⟨opcode, operands.flatten⟩

def readInstruction32 (bytes : List Byte) : Option Nat :=
  if bytes.length < 4 then none else some (valueLE (bytes.take 4))

def getInstruction (bytes : List Byte) : Option MCInst :=
  (readInstruction32 bytes).bind fun insn =>
    (lookup Opcode.layout decoderTable32 insn).bind fun opcode => decodeToMCInst opcode insn

theorem read_instruction_encoded (word : Nat) (bounded : word < 2 ^ 32) :
    readInstruction32 (bytesLE 4 word) = some word := by
  have whole : (bytesLE 4 word).take 4 = bytesLE 4 word :=
    List.take_of_length_le (by rw [bytes_length])
  rw [readInstruction32, if_neg (by rw [bytes_length]; decide), whole, value_bytes,
    Nat.mod_eq_of_lt (by omega)]

theorem get_instruction_of_matches {opcode : Opcode} {word : Nat}
    (disassemblable : isDisassemblable opcode) (bounded : word < 2 ^ 32)
    (matched : opcode.layout.pattern.Matches word) :
    getInstruction (bytesLE 4 word) = decodeToMCInst opcode word := by
  have listed := (mem_decoder_table_iff opcode).mpr disassemblable
  rw [getInstruction, read_instruction_encoded word bounded, Option.bind_some,
    lookup_eq_some unambiguous_decoder_table listed matched, Option.bind_some]

end NaplesPU.Disassembler
