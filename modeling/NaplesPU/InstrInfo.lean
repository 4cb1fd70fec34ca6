import NaplesPU.InstrFormats

/-!
The real instructions of the target description, with the layout and the operand
list of each record. A multiclass is one constructor of `Opcode` that carries the
`defm` it comes from and the variant it defines, so `.arithInt .ADD .SSI` is the
record `ADDSSI`. Pseudo instructions have no encoding and are not listed.
-/

namespace NaplesPU.InstrInfo

open BitLayout RegisterInfo InstrFormats

/-- The operand classes, by the encoder and decoder methods they select. -/
inductive OperandType where
  | reg (cls : RegClass)
  | SIMM9OP
  | SIMM16OP
  | MEMri
  | V16MEMri
  | LEAri
  | ABSh
  | ABSl
  | brtarget
  | calltarget
deriving DecidableEq, Repr

def OperandType.numMIOperands : OperandType → Nat
  | .MEMri | .V16MEMri | .LEAri => 2
  | _ => 1

structure OperandDecl where
  name : Var
  type : OperandType
deriving DecidableEq, Repr

/-- The records of `FArithInt_TwoOp` and `FSRInt_TwoOp`, which define the same variants. -/
inductive ArithInt where
  | OR | AND | XOR | ADD | SUB | MULL | MULH | MULHU | SRA | SRL | SLL
deriving DecidableEq, Repr

def ArithInt.opcode : ArithInt → Nat
  | .OR => 1 | .AND => 2 | .XOR => 3 | .ADD => 4 | .SUB => 5 | .MULL => 6 | .MULH => 7
  | .MULHU => 8 | .SRA => 9 | .SRL => 10 | .SLL => 11

inductive ArithIntOneOp where
  | CLZ | CTZ
deriving DecidableEq, Repr

def ArithIntOneOp.opcode : ArithIntOneOp → Nat
  | .CLZ => 12 | .CTZ => 13

inductive CompInt where
  | SEQSI | SNESI | SGTSI | SGESI | SLTSI | SLESI | SGTUI | SGEUI | SLTUI | SLEUI
deriving DecidableEq, Repr

def CompInt.opcode : CompInt → Nat
  | .SEQSI => 14 | .SNESI => 15 | .SGTSI => 16 | .SGESI => 17 | .SLTSI => 18 | .SLESI => 19
  | .SGTUI => 20 | .SGEUI => 21 | .SLTUI => 22 | .SLEUI => 23

inductive ArithFloat where
  | ADDF | SUBF | MULF | DIVF
deriving DecidableEq, Repr

def ArithFloat.opcode : ArithFloat → Nat
  | .ADDF => 33 | .SUBF => 34 | .MULF => 35 | .DIVF => 36

inductive CompFloat where
  | SEQFO | SNEFO | SGTFO | SGEFO | SLTFO | SLEFO
deriving DecidableEq, Repr

def CompFloat.opcode : CompFloat → Nat
  | .SEQFO => 37 | .SNEFO => 38 | .SGTFO => 39 | .SGEFO => 40 | .SLTFO => 41 | .SLEFO => 42

/-- The one-operand families that come as scalar, vector and masked vector. -/
inductive Convert where
  | SEXT8_32 | SEXT16_32 | I32TOF32 | F32TOI32
deriving DecidableEq, Repr

def Convert.opcode : Convert → Nat
  | .SEXT8_32 => 43 | .SEXT16_32 => 44 | .I32TOF32 => 48 | .F32TOI32 => 49

inductive MoveImm where
  | MOVEIL | MOVEIH | MOVEI
deriving DecidableEq, Repr

def MoveImm.opcode : MoveImm → Nat
  | .MOVEIL => 0 | .MOVEIH => 1 | .MOVEI => 2

inductive LoadScalar where
  | L32BS | L32SS | L32W | L32BU | L32SU
deriving DecidableEq, Repr

def LoadScalar.opcode : LoadScalar → Nat
  | .L32BS => 0 | .L32SS => 1 | .L32W => 2 | .L32BU => 4 | .L32SU => 5

inductive StoreScalar where
  | S32B | S32S | S32W
deriving DecidableEq, Repr

def StoreScalar.opcode : StoreScalar → Nat
  | .S32B => 32 | .S32S => 33 | .S32W => 34

inductive LoadVector where
  | LV32B | LV32S | LV32W | LV32BU | LV32SU
deriving DecidableEq, Repr

def LoadVector.opcode : LoadVector → Nat
  | .LV32B => 7 | .LV32S => 8 | .LV32W => 9 | .LV32BU => 11 | .LV32SU => 12

inductive StoreVector where
  | SV32B | SV32S | SV32W
deriving DecidableEq, Repr

def StoreVector.opcode : StoreVector → Nat
  | .SV32B => 36 | .SV32S => 37 | .SV32W => 38

/-- Two-operand variants: the letters give the kinds of `dst`, `src0` and `src1`. -/
inductive TwoOpVariant where
  | SSS_32 | VVS_U_32 | VVV_U_32 | VVS_M_32 | VVV_M_32
deriving DecidableEq, Repr

/-- Variants with an immediate in place of `src1`. -/
inductive ImmVariant where
  | SSI | VVI_U | VVI_M
deriving DecidableEq, Repr

inductive OneOpVariant where
  | SS | VV_U | VV_M
deriving DecidableEq, Repr

inductive CompVariant where
  | SSS_32 | SVS_U_32 | SVV_U_32
deriving DecidableEq, Repr

inductive CompImmVariant where
  | SSI | SVI
deriving DecidableEq, Repr

inductive MoveImmVariant where
  | SI | VI_U | VI_M
deriving DecidableEq, Repr

inductive Space where
  | Mainmem | Scratchpad
deriving DecidableEq, Repr

inductive VectorSpace where
  | Mainmem_U | Scratchpad_U | Mainmem_M | Scratchpad_M
deriving DecidableEq, Repr

inductive ScatterSpace where
  | Scratchpad_U | Scratchpad_M
deriving DecidableEq, Repr

inductive Opcode where
  | arithInt (op : ArithInt) (variant : TwoOpVariant)
  | arithIntImm (op : ArithInt) (variant : ImmVariant)
  | arithIntOneOp (op : ArithIntOneOp) (variant : OneOpVariant)
  | compInt (op : CompInt) (variant : CompVariant)
  | compIntImm (op : CompInt) (variant : CompImmVariant)
  | CROSSPROD_32 | SHUFFLEI_32 | GET_LANEI_32 | GET_LANEIimm
  | MOVE_SS_32 | MOVE_VS_32 | MOVE_VV_32 | MOVE_VS_M_32 | MOVE_VV_M_32
  | arithFloat (op : ArithFloat) (variant : TwoOpVariant)
  | compFloat (op : CompFloat) (variant : CompVariant)
  | convert (op : Convert) (variant : OneOpVariant)
  | moveImm (op : MoveImm) (variant : MoveImmVariant)
  | READMR | WRITEMR | CREATEMASK_32
  | loadScalar (op : LoadScalar) (space : Space)
  | storeScalar (op : StoreScalar) (space : Space)
  | loadVector (op : LoadVector) (space : VectorSpace)
  | storeVector (op : StoreVector) (space : VectorSpace)
  | GLV32W (space : ScatterSpace)
  | SSV32W (space : ScatterSpace)
  | JMP | JUMPREG | JRET | BEQZ | BNEZ | JMPSR_OFF | JMPSR_REG
  | BARRIER | FLUSH | READCR | WRITECR
  | NOP
  | LOAD_EFFECTIVE_ADDR | LEAH | LEAL
deriving DecidableEq, Repr

def twoOpLayout (opcode : Nat) : TwoOpVariant → Layout Var
  | .SSS_32 => frTwoOp opcode 0 .S .S .S 0
  | .VVS_U_32 => frTwoOp opcode 0 .V .V .S 0
  | .VVV_U_32 => frTwoOp opcode 0 .V .V .V 0
  | .VVS_M_32 => frTwoOp opcode 0 .V .V .S 1
  | .VVV_M_32 => frTwoOp opcode 0 .V .V .V 1

def twoOpOperands : TwoOpVariant → List OperandDecl
  | .SSS_32 => [⟨.dst, .reg .GPR32⟩, ⟨.src0, .reg .GPR32⟩, ⟨.src1, .reg .GPR32⟩]
  | .VVS_U_32 => [⟨.dst, .reg .VR512W⟩, ⟨.src0, .reg .VR512W⟩, ⟨.src1, .reg .GPR32⟩]
  | .VVV_U_32 => [⟨.dst, .reg .VR512W⟩, ⟨.src0, .reg .VR512W⟩, ⟨.src1, .reg .VR512W⟩]
  | .VVS_M_32 => [⟨.dst, .reg .VR512W⟩, ⟨.src0, .reg .VR512W⟩, ⟨.src1, .reg .GPR32⟩,
      ⟨.oldvalue, .reg .VR512W⟩]
  | .VVV_M_32 => [⟨.dst, .reg .VR512W⟩, ⟨.src0, .reg .VR512W⟩, ⟨.src1, .reg .VR512W⟩,
      ⟨.oldvalue, .reg .VR512W⟩]

/-- The immediate forms keep the low five bits of the six-bit opcode. -/
def immLayout (opcode : Nat) : ImmVariant → Layout Var
  | .SSI => fiOneOp (opcode % 32) .S .S 0
  | .VVI_U => fiOneOp (opcode % 32) .V .V 0
  | .VVI_M => fiOneOp (opcode % 32) .V .V 1

def immOperands : ImmVariant → List OperandDecl
  | .SSI => [⟨.dst, .reg .GPR32⟩, ⟨.src, .reg .GPR32⟩, ⟨.imm, .SIMM9OP⟩]
  | .VVI_U => [⟨.dst, .reg .VR512W⟩, ⟨.src, .reg .VR512W⟩, ⟨.imm, .SIMM9OP⟩]
  | .VVI_M => [⟨.dst, .reg .VR512W⟩, ⟨.src, .reg .VR512W⟩, ⟨.imm, .SIMM9OP⟩,
      ⟨.oldvalue, .reg .VR512W⟩]

def oneOpLayout (opcode : Nat) : OneOpVariant → Layout Var
  | .SS => frOneOp opcode 0 .S .S 0
  | .VV_U => frOneOp opcode 0 .V .V 0
  | .VV_M => frOneOp opcode 0 .V .V 1

def oneOpOperands : OneOpVariant → List OperandDecl
  | .SS => [⟨.dst, .reg .GPR32⟩, ⟨.src0, .reg .GPR32⟩]
  | .VV_U => [⟨.dst, .reg .VR512W⟩, ⟨.src0, .reg .VR512W⟩]
  | .VV_M => [⟨.dst, .reg .VR512W⟩, ⟨.src0, .reg .VR512W⟩, ⟨.oldvalue, .reg .VR512W⟩]

def compLayout (opcode : Nat) : CompVariant → Layout Var
  | .SSS_32 => frTwoOp opcode 0 .S .S .S 0
  | .SVS_U_32 => frTwoOp opcode 0 .S .V .S 0
  | .SVV_U_32 => frTwoOp opcode 0 .S .V .V 0

def compOperands : CompVariant → List OperandDecl
  | .SSS_32 => [⟨.dst, .reg .GPR32⟩, ⟨.src0, .reg .GPR32⟩, ⟨.src1, .reg .GPR32⟩]
  | .SVS_U_32 => [⟨.dst, .reg .GPR32⟩, ⟨.src0, .reg .VR512W⟩, ⟨.src1, .reg .GPR32⟩]
  | .SVV_U_32 => [⟨.dst, .reg .GPR32⟩, ⟨.src0, .reg .VR512W⟩, ⟨.src1, .reg .VR512W⟩]

def compImmLayout (opcode : Nat) : CompImmVariant → Layout Var
  | .SSI => fiOneOp (opcode % 32) .S .S 0
  | .SVI => fiOneOp (opcode % 32) .S .V 0

def compImmOperands : CompImmVariant → List OperandDecl
  | .SSI => [⟨.dst, .reg .GPR32⟩, ⟨.src, .reg .GPR32⟩, ⟨.imm, .SIMM9OP⟩]
  | .SVI => [⟨.dst, .reg .GPR32⟩, ⟨.src, .reg .VR512W⟩, ⟨.imm, .SIMM9OP⟩]

def moveImmLayout (opcode : Nat) : MoveImmVariant → Layout Var
  | .SI => fmovei opcode .S 0
  | .VI_U => fmovei opcode .V 0
  | .VI_M => fmovei opcode .V 1

def moveImmOperands : MoveImmVariant → List OperandDecl
  | .SI => [⟨.dst, .reg .GPR32⟩, ⟨.imm, .SIMM16OP⟩]
  | .VI_U => [⟨.dst, .reg .VR512W⟩, ⟨.imm, .SIMM16OP⟩]
  | .VI_M => [⟨.dst, .reg .VR512W⟩, ⟨.imm, .SIMM16OP⟩, ⟨.oldvalue, .reg .VR512W⟩]

def scalarMemLayout (opcode : Nat) : Space → Layout Var
  | .Mainmem => fm opcode 0 0 0
  | .Scratchpad => fm opcode 0 1 0

def vectorMemLayout (opcode : Nat) : VectorSpace → Layout Var
  | .Mainmem_U => fm opcode 0 0 0
  | .Scratchpad_U => fm opcode 0 1 0
  | .Mainmem_M => fm opcode 0 0 1
  | .Scratchpad_M => fm opcode 0 1 1

def scatterMemLayout (opcode : Nat) : ScatterSpace → Layout Var
  | .Scratchpad_U => fm opcode 0 1 0
  | .Scratchpad_M => fm opcode 0 1 1

def Opcode.layout : Opcode → Layout Var
  | .arithInt op variant => twoOpLayout op.opcode variant
  | .arithIntImm op variant => immLayout op.opcode variant
  | .arithIntOneOp op variant => oneOpLayout op.opcode variant
  | .compInt op variant => compLayout op.opcode variant
  | .compIntImm op variant => compImmLayout op.opcode variant
  | .CROSSPROD_32 => frTwoOp 63 0 .V .V .V 0
  | .SHUFFLEI_32 => frTwoOp 24 0 .V .V .V 0
  | .GET_LANEI_32 => frTwoOp 25 0 .S .V .S 0
  | .GET_LANEIimm => fiOneOp 25 .S .V 0
  | .MOVE_SS_32 => frOneOp 32 0 .S .S 0
  | .MOVE_VS_32 => frOneOp 32 0 .V .S 0
  | .MOVE_VV_32 => frOneOp 32 0 .V .V 0
  | .MOVE_VS_M_32 => frOneOp 32 0 .V .S 0
  | .MOVE_VV_M_32 => frOneOp 32 0 .V .V 0
  | .arithFloat op variant => twoOpLayout op.opcode variant
  | .compFloat op variant => compLayout op.opcode variant
  | .convert op variant => oneOpLayout op.opcode variant
  | .moveImm op variant => moveImmLayout op.opcode variant
  | .READMR =>
      [instConst 31 30 0, instConst 29 24 32, instVar 23 18 .dst 0, instConst 17 12 59,
        instConst 11 6 0, instConst 5 5 0, instConst 4 4 0, instConst 3 3 0, instConst 2 2 0,
        instConst 1 1 0, instConst 0 0 0]
  | .WRITEMR =>
      [instConst 31 30 0, instConst 29 24 32, instConst 23 18 59, instVar 17 12 .src 0,
        instConst 11 6 0, instConst 5 5 0, instConst 4 4 0, instConst 3 3 0, instConst 2 2 0,
        instConst 1 1 0, instConst 0 0 0]
  | .CREATEMASK_32 => frOneOp 50 0 .S .V 0
  | .loadScalar op space => scalarMemLayout op.opcode space
  | .storeScalar op space => scalarMemLayout op.opcode space
  | .loadVector op space => vectorMemLayout op.opcode space
  | .storeVector op space => vectorMemLayout op.opcode space
  | .GLV32W space => scatterMemLayout 16 space
  | .SSV32W space => scatterMemLayout 42 space
  | .JMP => fj 0
  | .JUMPREG => fjr 0
  | .JRET => fjAll 3 ++ [instConst 27 27 0, instConst 23 18 0, instConst 17 0 0]
  | .BEQZ => fjr 5
  | .BNEZ => fjr 6
  | .JMPSR_OFF => fj 1
  | .JMPSR_REG => fjAll 1 ++ [instConst 27 27 0, instVar 23 18 .dst 0, instVar 17 0 .addr 0]
  | .BARRIER => fc 0
  | .FLUSH =>
      [instConst 31 27 0b01101, instConst 26 24 2, instVar 23 18 .src0 0, instConst 17 12 0,
        instConst 11 0 0]
  | .READCR => fc 3
  | .WRITECR => fc 4
  | .NOP => [instConst 31 0 0xffffffff]
  | .LOAD_EFFECTIVE_ADDR =>
      [instConst 31 29 0b010, instConst 28 24 4, instVar 23 18 .dst 0, instVar 17 2 .addr 0,
        instConst 1 1 0, instConst 0 0 0]
  | .LEAH =>
      [instConst 31 27 0b01100, instConst 26 24 1, instVar 23 18 .dst 0, instVar 17 2 .addr 0,
        instConst 1 1 0, instConst 0 0 0]
  | .LEAL =>
      [instConst 31 27 0b01100, instConst 26 24 0, instVar 23 18 .dst 0, instVar 17 2 .addr 0,
        instConst 1 1 0, instConst 0 0 0]

/-- The operands of each record, `outs` before `ins`. -/
def Opcode.operandList : Opcode → List OperandDecl
  | .arithInt _ variant => twoOpOperands variant
  | .arithIntImm _ variant => immOperands variant
  | .arithIntOneOp _ variant => oneOpOperands variant
  | .compInt _ variant => compOperands variant
  | .compIntImm _ variant => compImmOperands variant
  | .CROSSPROD_32 => twoOpOperands .VVV_U_32
  | .SHUFFLEI_32 => twoOpOperands .VVV_U_32
  | .GET_LANEI_32 => compOperands .SVS_U_32
  | .GET_LANEIimm => compImmOperands .SVI
  | .MOVE_SS_32 => oneOpOperands .SS
  | .MOVE_VS_32 => [⟨.dst, .reg .VR512W⟩, ⟨.src0, .reg .GPR32⟩]
  | .MOVE_VV_32 => oneOpOperands .VV_U
  | .MOVE_VS_M_32 =>
      [⟨.dst, .reg .VR512W⟩, ⟨.src0, .reg .GPR32⟩, ⟨.oldvalue, .reg .VR512W⟩]
  | .MOVE_VV_M_32 => oneOpOperands .VV_M
  | .arithFloat _ variant => twoOpOperands variant
  | .compFloat _ variant => compOperands variant
  | .convert _ variant => oneOpOperands variant
  | .moveImm _ variant => moveImmOperands variant
  | .READMR => [⟨.dst, .reg .GPR32⟩]
  | .WRITEMR => [⟨.src, .reg .GPR32⟩]
  | .CREATEMASK_32 => [⟨.dst, .reg .GPR32⟩, ⟨.src0, .reg .VR512W⟩]
  | .loadScalar _ _ | .storeScalar _ _ => [⟨.dstsrc, .reg .GPR32⟩, ⟨.addr, .MEMri⟩]
  | .loadVector _ _ | .storeVector _ _ => [⟨.dstsrc, .reg .VR512W⟩, ⟨.addr, .MEMri⟩]
  | .GLV32W _ | .SSV32W _ => [⟨.dstsrc, .reg .VR512W⟩, ⟨.addr, .V16MEMri⟩]
  | .JMP => [⟨.addr, .brtarget⟩]
  | .JUMPREG => [⟨.cond, .reg .GPR32⟩]
  | .JRET => []
  | .BEQZ | .BNEZ => [⟨.cond, .reg .GPR32⟩, ⟨.addr, .brtarget⟩]
  | .JMPSR_OFF => [⟨.addr, .calltarget⟩]
  | .JMPSR_REG => [⟨.dst, .reg .GPR32⟩]
  | .BARRIER | .READCR | .WRITECR => [⟨.src0, .reg .GPR32⟩, ⟨.src1, .reg .GPR32⟩]
  | .FLUSH => [⟨.src0, .reg .GPR32⟩]
  | .NOP => []
  | .LOAD_EFFECTIVE_ADDR => [⟨.dst, .reg .GPR32⟩, ⟨.addr, .LEAri⟩]
  | .LEAH => [⟨.dst, .reg .GPR32⟩, ⟨.addr, .ABSh⟩]
  | .LEAL => [⟨.dst, .reg .GPR32⟩, ⟨.addrh, .reg .GPR32⟩, ⟨.addr, .ABSl⟩]

/-- The operand an operand is tied to by the constraint of its record. -/
def tiedTo : Var → Option Var
  | .oldvalue => some .dst
  | .addrh => some .dst
  | _ => none

end NaplesPU.InstrInfo
