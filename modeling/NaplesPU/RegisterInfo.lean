import Mathlib.Data.BitVec
import Mathlib.Data.Fin.Basic
import Mathlib.Data.List.Basic

/-!
The register file of the target: two classes of sixty-four registers, scalar
`GPR32` and vector `VR512W`, whose class order is the order of their encodings.
The last six scalar registers are special and reserved; the callee-saved list
keeps the order in which the frame lowering spills it.
-/

namespace NaplesPU.RegisterInfo

/-- Each class has sixty-four registers, so numerals name them. -/
instance register_count_ne_zero : NeZero 64 := ⟨by decide⟩

inductive RegClass where
  | GPR32
  | VR512W
deriving DecidableEq, Repr

/-- A physical register, named by its class and its hardware encoding. -/
structure Register where
  cls : RegClass
  encoding : Fin 64
deriving DecidableEq, Repr

def sReg (index : Fin 64) : Register := ⟨.GPR32, index⟩

def vReg (index : Fin 64) : Register := ⟨.VR512W, index⟩

def TR_REG : Register := sReg 58

def MR_REG : Register := sReg 59

def FP_REG : Register := sReg 60

def SP_REG : Register := sReg 61

def RA_REG : Register := sReg 62

def PC_REG : Register := sReg 63

def getEncodingValue (register : Register) : Nat := register.encoding

/-- The class lists its registers by encoding, so the element at `index` is the
register with that encoding; there is none past the sixty-fourth. -/
def getReg (cls : RegClass) (index : Nat) : Option Register :=
  if bounded : index < 64 then some ⟨cls, ⟨index, bounded⟩⟩ else none

theorem get_reg_of_encoding (cls : RegClass) (register : Register) :
    getReg cls (getEncodingValue register) = some ⟨cls, register.encoding⟩ := by
  simp [getReg, getEncodingValue]

theorem encoding_value_lt (register : Register) : getEncodingValue register < 64 :=
  register.encoding.isLt

def RegClass.spillSize : RegClass → Nat
  | .GPR32 => 4
  | .VR512W => 64

def RegClass.spillAlignment : RegClass → Nat
  | .GPR32 => 4
  | .VR512W => 64

def getReservedRegs : List Register := [TR_REG, MR_REG, FP_REG, SP_REG, RA_REG, PC_REG]

/-- The callee-saved registers, in the order of the calling convention. -/
def calleeSavedRegs : List Register :=
  [sReg 50, sReg 51, sReg 52, sReg 53, sReg 54, sReg 55, sReg 56, sReg 57,
    MR_REG, FP_REG, RA_REG,
    vReg 56, vReg 57, vReg 58, vReg 59, vReg 60, vReg 61, vReg 62, vReg 63]

end NaplesPU.RegisterInfo
