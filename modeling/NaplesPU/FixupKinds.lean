import NaplesPU.InstrInfo

/-!
Machine-code instructions as the assembler holds them, and the fixups it records
for operands whose value it does not know yet.
-/

namespace NaplesPU.FixupKinds

open RegisterInfo InstrInfo

/-- The target's fixup kinds, in the order of their enumeration. -/
inductive Fixups where
  | fixup_NaplesPU_Branch
  | fixup_NaplesPU_PCRel_Mem
  | fixup_NaplesPU_PCRel_Lea
  | fixup_NaplesPU_PCRel_Ext
  | fixup_NaplesPU_Absh
  | fixup_NaplesPU_Absl
deriving DecidableEq, Repr

/-- The distance of a kind from `FirstTargetFixupKind`. -/
def Fixups.index : Fixups → Nat
  | .fixup_NaplesPU_Branch => 0
  | .fixup_NaplesPU_PCRel_Mem => 1
  | .fixup_NaplesPU_PCRel_Lea => 2
  | .fixup_NaplesPU_PCRel_Ext => 3
  | .fixup_NaplesPU_Absh => 4
  | .fixup_NaplesPU_Absl => 5

/-- The kinds that reach the backend: four-byte data and the target's own. -/
inductive MCFixupKind where
  | FK_Data_4
  | target (kind : Fixups)
deriving DecidableEq, Repr

/-- A relocatable expression: a symbol plus a constant. -/
structure MCExpr where
  symbol : Nat
  constant : Int
deriving DecidableEq, Repr

structure MCFixup where
  offset : Nat
  value : MCExpr
  kind : MCFixupKind
deriving DecidableEq, Repr

inductive MCOperand where
  | reg (register : Register)
  | imm (value : Int)
  | expr (value : MCExpr)
deriving DecidableEq, Repr

structure MCInst where
  opcode : Opcode
  operands : List MCOperand
deriving DecidableEq, Repr

def MCInst.getOperand (inst : MCInst) (opNo : Nat) : Option MCOperand := inst.operands[opNo]?

end NaplesPU.FixupKinds
