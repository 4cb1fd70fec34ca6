import NaplesPU.Lib.ByteMemory
import NaplesPU.FixupKinds

/-!
The code emitter: the operand encoders written by hand, and the word the record
of an instruction assembles from them. An operand encoder that reads an operand
of the wrong kind, where the source asserts, gives no encoding. Nothing here
checks that a value fits its field: a field keeps the low bits of its operand.
-/

namespace NaplesPU.MCCodeEmitter

open BitLayout ByteMemory RegisterInfo InstrFormats InstrInfo FixupKinds

/-- The value an operand encoder returns, with the fixups it pushed. -/
structure OperandEncoding where
  value : BitVec 32
  fixups : List MCFixup
deriving DecidableEq

def getMachineOpValue : MCOperand → BitVec 32
  | .reg register => BitVec.ofNat 32 (getEncodingValue register)
  | .imm value => BitVec.ofInt 32 value
  | .expr _ => 0

/-- `static_cast<short>(imm) << shift`, as it reaches an unsigned value. -/
def shortShifted (value : Int) (shift : Nat) : BitVec 32 :=
  (BitVec.ofInt 16 value).signExtend 32 <<< shift

/-- The base register in the low six bits, the offset ored in above them. -/
def packMemory (base : Register) (offset : Int) : BitVec 32 :=
  BitVec.ofNat 32 (getEncodingValue base) ||| shortShifted offset 6

/-- The memory operand always is the operands one and two of the instruction. -/
def encodeMemoryOpValue (inst : MCInst) : Option OperandEncoding :=
  match inst.getOperand 1, inst.getOperand 2 with
  | some (.reg baseReg), some (.expr offset) =>
      some ⟨BitVec.ofNat 32 (getEncodingValue baseReg),
        [⟨0, offset, .target .fixup_NaplesPU_PCRel_Mem⟩]⟩
  | some (.reg baseReg), some (.imm offset) =>
      some ⟨packMemory baseReg offset, []⟩
  | _, _ => none

def encodeLEAValue (inst : MCInst) : Option OperandEncoding :=
  match inst.getOperand 1, inst.getOperand 2 with
  | some (.reg baseReg), some (.expr offset) =>
      some ⟨BitVec.ofNat 32 (getEncodingValue baseReg) <<< 10,
        [⟨0, offset, .target .fixup_NaplesPU_PCRel_Lea⟩]⟩
  | some (.reg baseReg), some (.imm offset) =>
      some ⟨BitVec.ofNat 32 (getEncodingValue baseReg) <<< 10 ||| shortShifted offset 1, []⟩
  | _, _ => none

/-- The address operand at `first`, or the label in the assembly text after it. -/
def encodeAbsolute (inst : MCInst) (first : Nat) (kind : Fixups) : Option OperandEncoding :=
  match inst.getOperand first with
  | some (.expr address) => some ⟨0, [⟨0, address, .target kind⟩]⟩
  | some _ =>
      match inst.getOperand (first + 1) with
      | some (.expr label) => some ⟨0, [⟨0, label, .target kind⟩]⟩
      | some _ => some ⟨0, []⟩
      | none => none
  | none => none

def encodeABShValue (inst : MCInst) : Option OperandEncoding :=
  encodeAbsolute inst 1 .fixup_NaplesPU_Absh

def encodeABSlValue (inst : MCInst) : Option OperandEncoding :=
  encodeAbsolute inst 2 .fixup_NaplesPU_Absl

def encodeBranchTargetOpValue (inst : MCInst) (opNo : Nat) : Option OperandEncoding :=
  match inst.getOperand opNo with
  | some (.imm target) => some ⟨BitVec.ofInt 32 target, []⟩
  | some (.expr target) => some ⟨0, [⟨0, target, .target .fixup_NaplesPU_Branch⟩]⟩
  | _ => none

def encodeOperand (inst : MCInst) (type : OperandType) (opNo : Nat) : Option OperandEncoding :=
  match type with
  | .MEMri | .V16MEMri => encodeMemoryOpValue inst
  | .LEAri => encodeLEAValue inst
  | .ABSh => encodeABShValue inst
  | .ABSl => encodeABSlValue inst
  | .brtarget | .calltarget => encodeBranchTargetOpValue inst opNo
  | .reg _ | .SIMM9OP | .SIMM16OP =>
      (inst.getOperand opNo).map fun operand => ⟨getMachineOpValue operand, []⟩

/-- The operands of a record with the machine operand number where each begins. -/
def numberOperands : Nat → List OperandDecl → List (Nat × OperandDecl)
  | _, [] => []
  | opNo, decl :: rest => (opNo, decl) :: numberOperands (opNo + decl.type.numMIOperands) rest

def miOperands (opcode : Opcode) : List (Nat × OperandDecl) := numberOperands 0 opcode.operandList

/-- The encoding of the operand a variable names. A variable that names no operand
takes the first operand: the emitter assumes such variables to be in order. -/
def encodeVar (inst : MCInst) (name : Var) : Option OperandEncoding :=
  match (miOperands inst.opcode).find? fun entry => entry.2.name = name with
  | some (opNo, decl) => encodeOperand inst decl.type opNo
  | none =>
      match miOperands inst.opcode with
      | (opNo, decl) :: _ => encodeOperand inst decl.type opNo
      | [] => none

def varValue (inst : MCInst) (name : Var) : Nat :=
  match encodeVar inst name with
  | some encoding => encoding.value.toNat
  | none => 0

/-- The variables that have bits in the word, each once. -/
def layoutVars (layout : Layout Var) : List Var :=
  (layout.filterMap fun field =>
    match field.source with
    | .var name _ => some name
    | .fixed _ => none).dedup

def varFixups (inst : MCInst) (name : Var) : List MCFixup :=
  match encodeVar inst name with
  | some encoding => encoding.fixups
  | none => []

def getBinaryCodeForInstr (inst : MCInst) : Option (BitVec 32 × List MCFixup) :=
  let vars := layoutVars inst.opcode.layout
  if vars.all fun name => (encodeVar inst name).isSome then
    some (BitVec.ofNat 32 (inst.opcode.layout.encode (varValue inst)),
      vars.flatMap (varFixups inst))
  else none

/-- Four bytes, least significant first, and the fixups of the instruction. -/
def encodeInstruction (inst : MCInst) : Option (List Byte × List MCFixup) :=
  (getBinaryCodeForInstr inst).map fun code => (bytesLE 4 code.1.toNat, code.2)

theorem get_binary_code_of_vars {inst : MCInst}
    (encodable : ∀ name ∈ layoutVars inst.opcode.layout,
      ∃ value, encodeVar inst name = some ⟨value, []⟩) :
    getBinaryCodeForInstr inst =
      some (BitVec.ofNat 32 (inst.opcode.layout.encode (varValue inst)), []) := by
  have defined : (layoutVars inst.opcode.layout).all
      (fun name => (encodeVar inst name).isSome) = true := by
    rw [List.all_eq_true]
    intro name stored
    obtain ⟨value, encoded⟩ := encodable name stored
    rw [encoded]
    rfl
  have noFixups : (layoutVars inst.opcode.layout).flatMap (varFixups inst) = [] := by
    rw [List.flatMap_eq_nil_iff]
    intro name stored
    obtain ⟨value, encoded⟩ := encodable name stored
    rw [varFixups, encoded]
  rw [getBinaryCodeForInstr, if_pos defined, noFixups]

section Fields

theorem machine_op_value_reg (register : Register) :
    (getMachineOpValue (.reg register)).toNat = getEncodingValue register := by
  have bounded := encoding_value_lt register
  rw [getMachineOpValue, BitVec.toNat_ofNat, Nat.mod_eq_of_lt (by omega)]

theorem encoding_test_bit (register : Register) {position : Nat} (high : 6 ≤ position) :
    (getEncodingValue register).testBit position = false := by
  have power : 2 ^ 6 ≤ 2 ^ position := Nat.pow_le_pow_right (show 0 < 2 by decide) high
  exact Nat.testBit_lt_two_pow (lt_of_lt_of_le (encoding_value_lt register) power)

theorem pack_memory_base (base : Register) (offset : Int) :
    (packMemory base offset).toNat % 2 ^ 6 = getEncodingValue base := by
  have bounded := encoding_value_lt base
  apply Nat.eq_of_testBit_eq
  intro position
  rw [Nat.testBit_mod_two_pow, packMemory, BitVec.toNat_or, Nat.testBit_or, shortShifted,
    BitVec.toNat_shiftLeft, Nat.testBit_mod_two_pow, Nat.testBit_shiftLeft, BitVec.toNat_ofNat,
    Nat.mod_eq_of_lt (by omega)]
  by_cases inside : position < 6
  · simp [inside, show ¬ 6 ≤ position by omega]
  · simp [inside, encoding_test_bit base (show 6 ≤ position by omega)]

theorem pack_memory_offset (base : Register) (offset : Int) :
    ((packMemory base offset).toNat >>> 6) % 2 ^ 9 = (BitVec.ofInt 16 offset).toNat % 2 ^ 9 := by
  apply Nat.eq_of_testBit_eq
  intro position
  rw [Nat.testBit_mod_two_pow, Nat.testBit_mod_two_pow, Nat.testBit_shiftRight, packMemory,
    BitVec.toNat_or, Nat.testBit_or, shortShifted, BitVec.testBit_toNat, BitVec.testBit_toNat,
    BitVec.testBit_toNat, BitVec.getLsbD_shiftLeft, BitVec.getLsbD_signExtend]
  by_cases inside : position < 9
  · have high : (BitVec.ofNat 32 (getEncodingValue base)).getLsbD (6 + position) = false := by
      rw [BitVec.getLsbD_ofNat, encoding_test_bit base (show 6 ≤ 6 + position by omega),
        Bool.and_false]
    rw [high, Bool.false_or]
    simp [inside, show 6 + position < 32 by omega, show position < 16 by omega,
      show position < 32 by omega]
  · simp [inside]

end Fields

end NaplesPU.MCCodeEmitter
