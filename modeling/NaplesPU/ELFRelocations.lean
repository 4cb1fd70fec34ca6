import NaplesPU.Lib.TwosComplement
import NaplesPU.AsmBackend

/-!
Relocations: the type the object writer gives a fixup, and what the linker makes
of each type, namely the expression it evaluates, the range it checks and the
bits it replaces.
-/

namespace NaplesPU.ELFRelocations

open ByteMemory TwosComplement FixupKinds AsmBackend

inductive RelType where
  | R_NPU_NONE
  | R_NPU_ABS32
  | R_NPU_BRANCH
  | R_NPU_PCREL_MEM
  | R_NPU_PCREL_LEA
  | R_NPU_PCREL_EXT
  | R_NPU_ABS_HIGH_LEA
  | R_NPU_ABS_LOW_LEA
deriving DecidableEq, Repr

def getRelocType : MCFixupKind → RelType
  | .FK_Data_4 => .R_NPU_ABS32
  | .target .fixup_NaplesPU_Branch => .R_NPU_BRANCH
  | .target .fixup_NaplesPU_PCRel_Mem => .R_NPU_PCREL_MEM
  | .target .fixup_NaplesPU_PCRel_Lea => .R_NPU_PCREL_LEA
  | .target .fixup_NaplesPU_PCRel_Ext => .R_NPU_PCREL_EXT
  | .target .fixup_NaplesPU_Absh => .R_NPU_ABS_HIGH_LEA
  | .target .fixup_NaplesPU_Absl => .R_NPU_ABS_LOW_LEA

/-- `V` is the sign extension of its low `bits` bits. -/
def checkInt (v : BitVec 64) (bits : Nat) : Bool := v.toInt = signExtend bits v.toNat

def checkUInt (v : BitVec 64) (bits : Nat) : Bool := v >>> bits = 0

/-- Replaces the `size` bits from `base` up of the word at `offset`. -/
def applyNaplesPUReloc (size base : Nat) (data : List Byte) (offset : Nat) (v : BitVec 64) :
    List Byte :=
  let mask : BitVec 32 := (BitVec.allOnes 32 >>> (32 - size)) <<< base
  let word : BitVec 32 := BitVec.ofNat 32 (readAt data offset 4)
  writeAt data offset 4
    ((word &&& ~~~mask) ||| ((v <<< base) &&& mask.setWidth 64).setWidth 32).toNat

/-- The effect of one relocation on the bytes at `offset`. An unknown type is fatal. -/
def relocateOne (data : List Byte) (offset : Nat) (type : RelType) (val : BitVec 64) :
    Option Outcome :=
  match type with
  | .R_NPU_NONE => none
  | .R_NPU_ABS32 => some (.written (writeAt data offset 4 (val.setWidth 32).toNat))
  | .R_NPU_BRANCH =>
      some (if checkInt val 18 then .written (applyNaplesPUReloc 18 0 data offset val)
        else .outOfRange)
  | .R_NPU_PCREL_MEM | .R_NPU_PCREL_LEA | .R_NPU_PCREL_EXT =>
      some (if checkInt val 9 then .written (applyNaplesPUReloc 9 3 data offset val)
        else .outOfRange)
  | .R_NPU_ABS_HIGH_LEA =>
      let high := (val >>> 16) &&& 0xFFFF
      some (if checkUInt high 16 then .written (applyNaplesPUReloc 16 2 data offset high)
        else .outOfRange)
  | .R_NPU_ABS_LOW_LEA =>
      let low := val &&& 0xFFFF
      some (if checkUInt low 16 then .written (applyNaplesPUReloc 16 2 data offset low)
        else .outOfRange)

inductive RelExpr where
  | R_ABS
  | R_PC
  | R_GOT
deriving DecidableEq, Repr

def getRelExpr : RelType → Option RelExpr
  | .R_NPU_NONE => none
  | .R_NPU_ABS32 | .R_NPU_ABS_HIGH_LEA | .R_NPU_ABS_LOW_LEA => some .R_ABS
  | .R_NPU_BRANCH => some .R_PC
  | .R_NPU_PCREL_MEM | .R_NPU_PCREL_LEA | .R_NPU_PCREL_EXT => some .R_GOT

/-- The addresses that an expression may use: of the symbol, of its GOT entry, and of
the place that is relocated. -/
structure RelocAddresses where
  symbol : BitVec 64
  gotEntry : BitVec 64
  place : BitVec 64
deriving DecidableEq

def getRelocTargetVA (expr : RelExpr) (addresses : RelocAddresses) (addend : BitVec 64) : BitVec 64 :=
  match expr with
  | .R_ABS => addresses.symbol + addend
  | .R_GOT => addresses.gotEntry + addend
  | .R_PC => addresses.symbol + addend - addresses.place

/-- The value the linker computes for a fixup that was left to it. -/
def linkerValue (kind : MCFixupKind) (addresses : RelocAddresses) (addend : BitVec 64) :
    Option (BitVec 64) :=
  (getRelExpr (getRelocType kind)).map fun expr => getRelocTargetVA expr addresses addend

end NaplesPU.ELFRelocations
