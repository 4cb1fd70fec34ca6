import NaplesPU.AsmStrings
import NaplesPU.MCCodeEmitter

/-!
The instruction printer: the text of a record with each operand printed by the
method of its class. A printer that is handed an operand it asserts against
prints nothing at all. No comment is attached to an instruction here.
-/

namespace NaplesPU.InstPrinter

open RegisterInfo InstrFormats InstrInfo FixupKinds MCCodeEmitter AsmStrings

def printRegName (register : Register) : List Char :=
  (getRegisterName register).toList.map Char.toLower

def printDecimal (value : Int) : List Char :=
  if value < 0 then '-' :: Nat.toDigits 10 value.natAbs else Nat.toDigits 10 value.natAbs

def toInt32 (value : Int) : Int := (BitVec.ofInt 32 value).toInt

section Printing

variable (symbolName : Nat → List Char)

/-- A symbol with its constant, which is left out when it is zero. -/
def printExpr (expression : MCExpr) : List Char :=
  let offset := toInt32 expression.constant
  symbolName expression.symbol ++
    (if 0 < offset then ['+'] else []) ++ if offset = 0 then [] else printDecimal offset

def printOperand (inst : MCInst) (opNum : Nat) : Option (List Char) :=
  match inst.getOperand opNum with
  | some (.reg register) => some (printRegName register)
  | some (.imm value) => some (printDecimal (toInt32 value))
  | some (.expr expression) => some (printExpr symbolName expression)
  | none => none

/-- A base register in parentheses after its offset, unless the offset is zero; or the
label that the operand is. -/
def printMemOperand (inst : MCInst) (opNum : Nat) : Option (List Char) :=
  match inst.getOperand opNum, inst.getOperand (opNum + 1) with
  | some (.expr _), _ => printOperand symbolName inst opNum
  | _, some (.expr _) => printOperand symbolName inst (opNum + 1)
  | some (.reg _), some (.imm offset) =>
      (if offset = 0 then some [] else printOperand symbolName inst (opNum + 1)).bind
        fun offsetText => (printOperand symbolName inst opNum).map fun baseText =>
          offsetText ++ '(' :: baseText ++ [')']
  | _, _ => none

def printByType (type : OperandType) (inst : MCInst) (opNum : Nat) : Option (List Char) :=
  match type with
  | .MEMri | .V16MEMri | .LEAri | .ABSh | .ABSl => printMemOperand symbolName inst opNum
  | .reg _ | .SIMM9OP | .SIMM16OP | .brtarget | .calltarget => printOperand symbolName inst opNum

def separated : List (List Char) → List Char
  | [] => []
  | [text] => text
  | text :: rest => text ++ ',' :: ' ' :: separated rest

def asmMIOperands (opcode : Opcode) : List (Nat × OperandDecl) :=
  (miOperands opcode).filter fun entry => (tiedTo entry.2.name).isNone

/-- A tab, the mnemonic, and the operands after a blank. -/
def printInstruction (inst : MCInst) : Option (List Char) :=
  ((asmMIOperands inst.opcode).mapM fun entry =>
    printByType symbolName entry.2.type inst entry.1).map fun texts =>
      '\t' :: inst.opcode.mnemonic.toList ++
        if texts = [] then [] else ' ' :: separated texts

/-- `ori s0, s0, 0` is printed as `nop`. -/
def printInst (inst : MCInst) : Option (List Char) :=
  if inst.opcode = .arithIntImm .OR .SSI ∧ inst.getOperand 0 = some (.reg (sReg 0)) ∧
      inst.getOperand 1 = some (.reg (sReg 0)) ∧ inst.getOperand 2 = some (.imm 0) then
    some ('\t' :: "nop".toList)
  else printInstruction symbolName inst

end Printing

end NaplesPU.InstPrinter
