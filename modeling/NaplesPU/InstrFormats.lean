import NaplesPU.Lib.BitLayout
import NaplesPU.RegisterInfo

/-!
The instruction formats of the target description: for each format class, the
fields of the thirty-two bit word `Inst` that it assigns. A value given by the
class parameters is a constant field; `dst`, `src0` and the other `bits<n>`
variables of the class are variable fields.
-/

namespace NaplesPU.InstrFormats

open BitLayout

/-- The `bits<n>` variables of the format classes, and the operands `oldvalue`
and `addrh`, which have no bits of their own because they are tied to `dst`. -/
inductive Var where
  | dst | src0 | src1 | src | imm | dstsrc | addr | cond | oldvalue | addrh
deriving DecidableEq, Repr

inductive Fmt where
  | S
  | V
deriving DecidableEq, Repr

def Fmt.value : Fmt → Nat
  | .S => 0
  | .V => 1

/-- `let Inst{high-low} = value`. -/
def instConst (high low value : Nat) : BitField Var := ⟨⟨low, high + 1 - low⟩, .fixed value⟩

/-- `let Inst{high-low} = name`, from bit `first` of the variable up. -/
def instVar (high low : Nat) (name : Var) (first : Nat) : BitField Var :=
  ⟨⟨low, high + 1 - low⟩, .var name first⟩

def fr (opcode l : Nat) (fmt2 fmt1 fmt0 : Fmt) (m : Nat) : Layout Var :=
  [instConst 31 30 0, instConst 29 24 opcode, instVar 23 18 .dst 0, instVar 17 12 .src0 0,
    instConst 5 5 0, instConst 4 4 l, instConst 3 3 fmt2.value, instConst 2 2 fmt1.value,
    instConst 1 1 fmt0.value, instConst 0 0 m]

def frTwoOp (opcode l : Nat) (fmt2 fmt1 fmt0 : Fmt) (m : Nat) : Layout Var :=
  fr opcode l fmt2 fmt1 fmt0 m ++ [instVar 11 6 .src1 0]

def frOneOp (opcode l : Nat) (fmt2 fmt1 : Fmt) (m : Nat) : Layout Var :=
  fr opcode l fmt2 fmt1 .S m ++ [instConst 11 6 0]

def fiOneOp (opcode : Nat) (fmt1 fmt0 : Fmt) (m : Nat) : Layout Var :=
  [instConst 31 29 0b010, instConst 28 24 opcode, instVar 23 18 .dst 0, instVar 11 3 .imm 0,
    instConst 2 2 fmt1.value, instConst 1 1 fmt0.value, instConst 0 0 m, instVar 17 12 .src 0]

def fmovei (opcode : Nat) (fmt : Fmt) (m : Nat) : Layout Var :=
  [instConst 31 27 0b01100, instConst 26 24 opcode, instVar 23 18 .dst 0, instVar 17 2 .imm 0,
    instConst 1 1 fmt.value, instConst 0 0 m]

/-- The base register is the low six bits of `addr` and the offset the other nine. -/
def fm (opcode l s m : Nat) : Layout Var :=
  [instConst 31 30 0b10, instConst 29 24 opcode, instVar 23 18 .dstsrc 0, instVar 17 12 .addr 0,
    instVar 11 3 .addr 6, instConst 2 2 l, instConst 1 1 s, instConst 0 0 m]

def fjAll (opcode : Nat) : Layout Var := [instConst 31 28 0b0111, instConst 26 24 opcode]

def fjr (opcode : Nat) : Layout Var :=
  fjAll opcode ++ [instConst 27 27 0, instVar 23 18 .cond 0, instVar 17 0 .addr 0]

def fj (opcode : Nat) : Layout Var :=
  fjAll opcode ++ [instConst 27 27 1, instVar 23 0 .addr 0]

def fc (opcode : Nat) : Layout Var :=
  [instConst 31 27 0b01101, instConst 26 24 opcode, instVar 23 18 .src0 0,
    instVar 17 12 .src1 0, instConst 11 0 0]

end NaplesPU.InstrFormats
