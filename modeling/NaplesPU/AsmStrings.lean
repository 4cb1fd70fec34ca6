import NaplesPU.InstrInfo
import NaplesPU.Lib.KeyedTables

/-!
The assembly syntax of the records: the mnemonic each record prints and is
matched by, the operands its text names, and the names of the registers. The
operands that a constraint ties to another one are not named in the text. The
vector and scalar variants of an instruction share their mnemonic, and so do the
jumps by offset and by register; only the kinds of their operands differ.
-/

namespace NaplesPU.InstrInfo

open InstrFormats

def ArithInt.operator : ArithInt → String
  | .OR => "or" | .AND => "and" | .XOR => "xor" | .ADD => "add" | .SUB => "sub"
  | .MULL => "mull" | .MULH => "mulhs" | .MULHU => "mulhu" | .SRA => "ashr" | .SRL => "shr"
  | .SLL => "shl"

def ArithIntOneOp.operator : ArithIntOneOp → String
  | .CLZ => "clz" | .CTZ => "ctz"

def CompInt.operator : CompInt → String
  | .SEQSI => "cmpeq" | .SNESI => "cmpne" | .SGTSI => "cmpgt" | .SGESI => "cmpge"
  | .SLTSI => "cmplt" | .SLESI => "cmple" | .SGTUI => "cmpugt" | .SGEUI => "cmpuge"
  | .SLTUI => "cmpult" | .SLEUI => "cmpule"

def ArithFloat.operator : ArithFloat → String
  | .ADDF => "fadd" | .SUBF => "fsub" | .MULF => "fmul" | .DIVF => "fdiv"

def CompFloat.operator : CompFloat → String
  | .SEQFO => "cmpfeq" | .SNEFO => "cmpfne" | .SGTFO => "cmpfgt" | .SGEFO => "cmpfge"
  | .SLTFO => "cmpflt" | .SLEFO => "cmpfle"

def Convert.operator : Convert → String
  | .SEXT8_32 => "sext8" | .SEXT16_32 => "sext16" | .I32TOF32 => "itof" | .F32TOI32 => "ftoi"

def MoveImm.operator : MoveImm → String
  | .MOVEIL => "moveil" | .MOVEIH => "moveih" | .MOVEI => "movei"

def LoadScalar.suffix : LoadScalar → String
  | .L32BS => "_s8" | .L32SS => "_s16" | .L32W => "" | .L32BU => "_u8" | .L32SU => "_u16"

def StoreScalar.suffix : StoreScalar → String
  | .S32B => "_8" | .S32S => "_16" | .S32W => ""

def LoadVector.suffix : LoadVector → String
  | .LV32B => "_v16i8" | .LV32S => "_v16i16" | .LV32W => "_v16i32" | .LV32BU => "_v16u8"
  | .LV32SU => "_v16u16"

def StoreVector.suffix : StoreVector → String
  | .SV32B => "_v16i8" | .SV32S => "_v16i16" | .SV32W => "_v16i32"

def TwoOpVariant.mask : TwoOpVariant → String
  | .VVS_M_32 | .VVV_M_32 => ".m"
  | _ => ""

def ImmVariant.mask : ImmVariant → String
  | .VVI_M => ".m"
  | _ => ""

def OneOpVariant.mask : OneOpVariant → String
  | .VV_M => ".m"
  | _ => ""

def MoveImmVariant.mask : MoveImmVariant → String
  | .VI_M => ".m"
  | _ => ""

def Space.suffix : Space → String
  | .Mainmem => "" | .Scratchpad => "_scratchpad"

def VectorSpace.suffix : VectorSpace → String
  | .Mainmem_U => "" | .Scratchpad_U => "_scratchpad" | .Mainmem_M => ".m"
  | .Scratchpad_M => "_scratchpad.m"

def ScatterSpace.suffix : ScatterSpace → String
  | .Scratchpad_U => "_scratchpad" | .Scratchpad_M => "_scratchpad.m"

/-- The part of a record's `AsmString` before its operands. -/
def Opcode.mnemonic : Opcode → String
  | .arithInt op variant => op.operator ++ "_i32" ++ variant.mask
  | .arithIntImm op variant => op.operator ++ "i" ++ variant.mask
  | .arithIntOneOp op variant => op.operator ++ "_i32" ++ variant.mask
  | .compInt op _ => op.operator ++ "_i32"
  | .compIntImm op _ => op.operator ++ "i"
  | .CROSSPROD_32 => "crp"
  | .SHUFFLEI_32 => "shuffle_i32"
  | .GET_LANEI_32 => "getlane_i32"
  | .GET_LANEIimm => "getlanei"
  | .MOVE_SS_32 | .MOVE_VS_32 | .MOVE_VV_32 | .MOVE_VS_M_32 | .MOVE_VV_M_32 => "move_i32"
  | .arithFloat op variant => op.operator ++ "_f32" ++ variant.mask
  | .compFloat op _ => op.operator ++ "_f32"
  | .convert op variant => op.operator ++ "_i32" ++ variant.mask
  | .moveImm op variant => op.operator ++ variant.mask
  | .READMR => "read_mr"
  | .WRITEMR => "write_mr"
  | .CREATEMASK_32 => "crt_mask_i32"
  | .loadScalar op space => "load32" ++ op.suffix ++ space.suffix
  | .storeScalar op space => "store32" ++ op.suffix ++ space.suffix
  | .loadVector op space => "load" ++ op.suffix ++ space.suffix
  | .storeVector op space => "store" ++ op.suffix ++ space.suffix
  | .GLV32W space => "loadg32" ++ space.suffix
  | .SSV32W space => "stores32" ++ space.suffix
  | .JMP | .JUMPREG => "jmp"
  | .JRET => "jret"
  | .BEQZ => "beqz"
  | .BNEZ => "bnez"
  | .JMPSR_OFF | .JMPSR_REG => "jmpsr"
  | .BARRIER => "barrier"
  | .FLUSH => "flush"
  | .READCR => "read_cr"
  | .WRITECR => "write_cr"
  | .NOP => "nop"
  | .LOAD_EFFECTIVE_ADDR => "_lea"
  | .LEAH => "leah"
  | .LEAL => "leal"

def Opcode.asmOperands (opcode : Opcode) : List OperandDecl :=
  opcode.operandList.filter fun decl => (tiedTo decl.name).isNone

end NaplesPU.InstrInfo

namespace NaplesPU.AsmStrings

open RegisterInfo KeyedTables

/-- The name of a register: the special scalar registers have names of their own. -/
def getRegisterName (register : Register) : String :=
  match register.cls with
  | .GPR32 =>
      if register = TR_REG then "tr"
      else if register = MR_REG then "rm"
      else if register = FP_REG then "fp"
      else if register = SP_REG then "sp"
      else if register = RA_REG then "ra"
      else if register = PC_REG then "pc"
      else "s" ++ toString register.encoding.val
  | .VR512W => "v" ++ toString register.encoding.val

def allRegisters : List Register := (List.finRange 64).map sReg ++ (List.finRange 64).map vReg

def MatchRegisterName (name : String) : Option Register :=
  allRegisters.find? fun register => getRegisterName register = name

theorem mem_all_registers (register : Register) : register ∈ allRegisters := by
  obtain ⟨cls, encoding⟩ := register
  cases cls <;> simp [allRegisters, sReg, vReg]

theorem distinct_register_names :
    distinct (allRegisters.map fun register => textKey (getRegisterName register)) := by
  decide +kernel

theorem match_register_name (register : Register) :
    MatchRegisterName (getRegisterName register) = some register := by
  apply find_eq_some distinct_register_names (mem_all_registers register)
  · simp
  · intro other _ named
    rw [of_decide_eq_true named]

end NaplesPU.AsmStrings
