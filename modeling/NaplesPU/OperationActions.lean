import Mathlib.Data.List.Basic

/-!
Which operations the constructor of `NaplesPUTargetLowering` registers for custom
lowering or for expansion, and which of them `LowerOperation` hands to a function.
An operation on which the constructor is silent keeps the action of the base class.
-/

namespace NaplesPU.OperationActions

inductive MVT where
  | i1 | i32 | f32 | v8i1 | v16i1 | v8i8 | v16i8 | v16i16 | v16i32 | v16f32 | Other
deriving DecidableEq, Repr

def MVT.isVector : MVT → Bool
  | .v8i1 | .v16i1 | .v8i8 | .v16i8 | .v16i16 | .v16i32 | .v16f32 => true
  | _ => false

inductive ISDOpcode where
  | BUILD_VECTOR | VECTOR_SHUFFLE | SCALAR_TO_VECTOR
  | UREM | SREM | SDIVREM | UDIVREM | SDIV | UDIV
  | GlobalAddress | ConstantPool | BlockAddress | JumpTable
  | SELECT_CC | SELECT | VSELECT | SETCC | SIGN_EXTEND_INREG | INTRINSIC_VOID
  | CTTZ_ZERO_UNDEF | CTLZ_ZERO_UNDEF | CTPOP | BSWAP | ROTL | ROTR
  | UINT_TO_FP | FP_TO_UINT | FNEG | FABS | FCOPYSIGN | FFLOOR | FREM
  | FSQRT | FSIN | FCOS | FSINCOS | ConstantFP
  | FRAMEADDR | RETURNADDR | BR_CC | BRCOND | BR_JT
  | ATOMIC_LOAD | ATOMIC_STORE | DYNAMIC_STACKALLOC | STACKSAVE | STACKRESTORE
  | UMUL_LOHI | SMUL_LOHI | ADDC | ADDE | SUBC | SUBE | SRA_PARTS | SRL_PARTS | SHL_PARTS
  | VASTART | VAARG | VACOPY | VAEND
deriving DecidableEq, Repr

inductive LegalizeAction where
  | Legal | Custom | Expand
deriving DecidableEq, Repr

structure OperationAction where
  op : ISDOpcode
  vt : MVT
  action : LegalizeAction
deriving DecidableEq, Repr

def setOperationActions (ops : List ISDOpcode) (vts : List MVT) (action : LegalizeAction) :
    List OperationAction :=
  ops.flatMap fun op => vts.map fun vt => ⟨op, vt, action⟩

def vectCustomOps : List ISDOpcode := [.BUILD_VECTOR, .VECTOR_SHUFFLE, .SCALAR_TO_VECTOR]

def scalarI32RemDivRemOps : List ISDOpcode := [.UREM, .SREM, .SDIVREM, .UDIVREM]

def scalarI32DivOps : List ISDOpcode := [.SDIV, .UDIV]

def scalarI32CustomOps : List ISDOpcode :=
  [.GlobalAddress, .ConstantPool, .BlockAddress, .JumpTable, .SELECT_CC, .CTTZ_ZERO_UNDEF,
    .CTLZ_ZERO_UNDEF, .UINT_TO_FP, .FRAMEADDR, .RETURNADDR]

def scalarF32CustomOps : List ISDOpcode :=
  [.GlobalAddress, .ConstantPool, .BlockAddress, .SELECT_CC, .SETCC, .FNEG, .FABS]

def scalarIntExpOps : List ISDOpcode :=
  [.CTPOP, .BR_CC, .BRCOND, .SELECT, .ROTL, .ROTR, .UDIVREM, .SDIVREM, .FP_TO_UINT, .BSWAP,
    .ATOMIC_LOAD, .ATOMIC_STORE]

def scalarFloatExpOps : List ISDOpcode := [.BR_CC, .BRCOND, .SELECT, .FCOPYSIGN, .FFLOOR]

def vecIntExpOps : List ISDOpcode := [.ROTL, .ROTR, .FP_TO_UINT, .UDIVREM, .SDIVREM]

def vecFloatExpOps : List ISDOpcode := [.FFLOOR, .FREM]

/-- The calls of `setOperationAction` in the constructor, in their order. -/
def operationActions : List OperationAction :=
  setOperationActions vectCustomOps [.v16i32, .v16f32] .Custom ++
  setOperationActions [.SCALAR_TO_VECTOR] [.v8i8] .Custom ++
  setOperationActions scalarI32RemDivRemOps [.i32, .v16i32, .v16i8, .v16i16] .Expand ++
  setOperationActions scalarI32DivOps [.i32, .v16i32] .Custom ++
  setOperationActions scalarI32DivOps [.v16i8, .v16i16] .Expand ++
  setOperationActions scalarI32CustomOps [.i32] .Custom ++
  setOperationActions scalarF32CustomOps [.f32] .Custom ++
  setOperationActions [.INTRINSIC_VOID] [.Other] .Custom ++
  setOperationActions [.SETCC, .SELECT, .SELECT_CC, .VSELECT] [.v16i32, .v16f32] .Custom ++
  setOperationActions [.FNEG] [.v16f32] .Custom ++
  setOperationActions [.UINT_TO_FP] [.v16i32] .Custom ++
  setOperationActions [.FABS] [.v16f32] .Custom ++
  setOperationActions [.SIGN_EXTEND_INREG] [.i1] .Expand ++
  setOperationActions [.SIGN_EXTEND_INREG] [.v16i1, .v8i1] .Custom ++
  setOperationActions scalarIntExpOps [.i32] .Expand ++
  setOperationActions scalarFloatExpOps [.f32] .Expand ++
  setOperationActions vecIntExpOps [.v16i32] .Expand ++
  setOperationActions vecFloatExpOps [.v16f32] .Expand ++
  setOperationActions [.FREM] [.f32] .Expand ++
  setOperationActions [.BR_JT] [.Other] .Expand ++
  setOperationActions [.UMUL_LOHI, .SMUL_LOHI, .DYNAMIC_STACKALLOC] [.i32] .Expand ++
  setOperationActions [.STACKSAVE, .STACKRESTORE] [.Other] .Expand ++
  setOperationActions [.ADDC] [.i32] .Custom ++
  setOperationActions [.ADDE, .SUBC, .SUBE, .SRA_PARTS, .SRL_PARTS, .SHL_PARTS] [.i32] .Expand ++
  setOperationActions [.VAARG, .VACOPY, .VAEND] [.Other] .Expand ++
  setOperationActions [.VASTART] [.Other] .Custom ++
  setOperationActions [.FSQRT, .FSIN, .FCOS, .FSINCOS] [.f32] .Expand ++
  setOperationActions [.ConstantFP] [.f32] .Legal

/-- The last call for an operation and a type decides. -/
def getOperationAction (op : ISDOpcode) (vt : MVT) : Option LegalizeAction :=
  (operationActions.reverse.find? fun entry => entry.op = op ∧ entry.vt = vt).map
    OperationAction.action

/-- The functions that `LowerOperation` calls. -/
inductive CustomLowering where
  | LowerXDIV_VV | LowerXDIV | LowerVECTOR_SHUFFLE | LowerBUILD_VECTOR | LowerSCALAR_TO_VECTOR
  | LowerGlobalAddress | LowerBlockAddress | LowerConstantPool | LowerSELECT | LowerVSELECT
  | LowerSELECT_CC | LowerSETCC | LowerFNEG | LowerCTLZ_ZERO_UNDEF | LowerCTTZ_ZERO_UNDEF
  | LowerUINT_TO_FP | LowerFRAMEADDR | LowerRETURNADDR | LowerSIGN_EXTEND_INREG | LowerFABS
  | LowerJumpTable | LowerINTRINSIC_VOID
deriving DecidableEq, Repr

/-- The dispatch on the operation; `none` is the unreachable default. -/
def lowerOperation (op : ISDOpcode) (vt : MVT) : Option CustomLowering :=
  match op with
  | .SDIV | .UDIV => if vt.isVector then some .LowerXDIV_VV else some .LowerXDIV
  | .VECTOR_SHUFFLE => some .LowerVECTOR_SHUFFLE
  | .BUILD_VECTOR => some .LowerBUILD_VECTOR
  | .SCALAR_TO_VECTOR => some .LowerSCALAR_TO_VECTOR
  | .GlobalAddress => some .LowerGlobalAddress
  | .BlockAddress => some .LowerBlockAddress
  | .ConstantPool => some .LowerConstantPool
  | .SELECT => some .LowerSELECT
  | .VSELECT => some .LowerVSELECT
  | .SELECT_CC => some .LowerSELECT_CC
  | .SETCC => some .LowerSETCC
  | .FNEG => some .LowerFNEG
  | .CTLZ_ZERO_UNDEF => some .LowerCTLZ_ZERO_UNDEF
  | .CTTZ_ZERO_UNDEF => some .LowerCTTZ_ZERO_UNDEF
  | .UINT_TO_FP => some .LowerUINT_TO_FP
  | .FRAMEADDR => some .LowerFRAMEADDR
  | .RETURNADDR => some .LowerRETURNADDR
  | .SIGN_EXTEND_INREG => some .LowerSIGN_EXTEND_INREG
  | .FABS => some .LowerFABS
  | .JumpTable => some .LowerJumpTable
  | .INTRINSIC_VOID => some .LowerINTRINSIC_VOID
  | _ => none

def customHandler (op : ISDOpcode) (vt : MVT) : Option CustomLowering :=
  match getOperationAction op vt with
  | some .Custom => lowerOperation op vt
  | _ => none

/-- The dispatch has a case for every operation registered as custom but these two. -/
theorem custom_operations_dispatched : ∀ entry ∈ operationActions, entry.action = .Custom →
    ((lowerOperation entry.op entry.vt).isSome ↔ entry.op ≠ .VASTART ∧ entry.op ≠ .ADDC) := by
  decide

/-- What a call registers is what the table says in the end. -/
theorem registered_action_stays : ∀ entry ∈ operationActions,
    getOperationAction entry.op entry.vt = some entry.action := by
  decide +kernel

/-- No two calls of the constructor disagree on an operation and a type. -/
theorem operation_actions_consistent : ∀ first ∈ operationActions, ∀ second ∈ operationActions,
    first.op = second.op → first.vt = second.vt → first.action = second.action := by
  intro first listed second otherListed sameOp sameVt
  have own := registered_action_stays first listed
  have other := registered_action_stays second otherListed
  rw [sameOp, sameVt, other] at own
  exact (Option.some.inj own).symm

end NaplesPU.OperationActions
