import NaplesPU.EncodeDecode
import NaplesPU.FixupAgreement
import NaplesPU.Machine

/-!
How the address of a symbol gets into a register: a pair of instructions for its
two halves, whose symbol and offset travel from the node through the machine
operand and the expression to a relocation. Each stage has a case for each kind
of symbol, and two of them lose the offset.
-/

namespace NaplesPU.AddressLowering

open BitLayout ByteMemory RegisterInfo InstrFormats InstrInfo FixupKinds MCCodeEmitter
open Disassembler TwosComplement AsmBackend ELFRelocations FixupAgreement EncodeDecode Machine

inductive AddressNode where
  | globalAddress (global : Nat) (offset : Int)
  | constantPool (constant : Nat) (offset : Int)
  | blockAddress (block : Nat) (offset : Int)
  | jumpTable (index : Nat)
deriving DecidableEq, Repr

def AddressNode.offset : AddressNode → Int
  | .globalAddress _ offset | .constantPool _ offset | .blockAddress _ offset => offset
  | .jumpTable _ => 0

/-- What the nodes carry: offsets are not folded into global addresses, and the offset of a
constant-pool node is an `int` that is not negative. -/
def AddressNode.Formed : AddressNode → Prop
  | .globalAddress _ offset => offset = 0
  | .constantPool _ offset => 0 ≤ offset ∧ offset < 2 ^ 31
  | .blockAddress _ offset => SignedFits 64 offset
  | .jumpTable _ => True

/-- The target node of the same symbol. Only the constant pool hands its offset on. -/
def getTargetNode : AddressNode → AddressNode
  | .globalAddress global _ => .globalAddress global 0
  | .constantPool constant offset => .constantPool constant offset
  | .blockAddress block _ => .blockAddress block 0
  | .jumpTable index => .jumpTable index

inductive MachineOperand where
  | MO_Register (register : Register)
  | MO_GlobalAddress (global : Nat) (offset : Int)
  | MO_ConstantPoolIndex (index : Nat) (offset : Int)
  | MO_BlockAddress (block : Nat) (offset : Int)
  | MO_JumpTableIndex (index : Nat)
deriving DecidableEq, Repr

structure MachineInstr where
  opcode : Opcode
  operands : List MachineOperand
deriving DecidableEq, Repr

def addOperand : AddressNode → MachineOperand
  | .globalAddress global offset => .MO_GlobalAddress global offset
  | .constantPool constant offset => .MO_ConstantPoolIndex constant offset
  | .blockAddress block offset => .MO_BlockAddress block offset
  | .jumpTable index => .MO_JumpTableIndex index

/-- The pair selected for an address. The high half is tied to the register of the low one. -/
def getAddr (node : AddressNode) (dst : Fin 64) : List MachineInstr :=
  [⟨.LEAH, [.MO_Register (sReg dst), addOperand (getTargetNode node)]⟩,
    ⟨.LEAL, [.MO_Register (sReg dst), .MO_Register (sReg dst), addOperand (getTargetNode node)]⟩]

structure AsmSymbols where
  getSymbol : Nat → Nat
  getCPISymbol : Nat → Nat
  getBlockAddressSymbol : Nat → Nat
  getJTISymbol : Nat → Nat

variable (symbols : AsmSymbols)

def AsmSymbols.symbol : AddressNode → Nat
  | .globalAddress global _ => symbols.getSymbol global
  | .constantPool constant _ => symbols.getCPISymbol constant
  | .blockAddress block _ => symbols.getBlockAddressSymbol block
  | .jumpTable index => symbols.getJTISymbol index

/-- A symbol plus an offset that is summed in thirty-two unsigned bits. -/
def symbolPlus (symbol : Nat) (offset : Int) : MCOperand :=
  .expr ⟨symbol, offset % 2 ^ 32⟩

def LowerOperand : MachineOperand → MCOperand
  | .MO_Register register => .reg register
  | .MO_GlobalAddress global offset => symbolPlus (symbols.getSymbol global) offset
  | .MO_BlockAddress block offset => symbolPlus (symbols.getBlockAddressSymbol block) offset
  | .MO_ConstantPoolIndex index offset => symbolPlus (symbols.getCPISymbol index) offset
  | .MO_JumpTableIndex index => symbolPlus (symbols.getJTISymbol index) 0

/-- An instruction whose second operand is in the constant pool or a jump table is taken for
a load relative to the program counter, and refers to the plain symbol. -/
def Lower (inst : MachineInstr) : MCInst :=
  match inst.operands with
  | result :: .MO_ConstantPoolIndex index _ :: _ =>
      ⟨inst.opcode, [LowerOperand symbols result, .reg PC_REG, .expr ⟨symbols.getCPISymbol index, 0⟩]⟩
  | result :: .MO_JumpTableIndex index :: _ =>
      ⟨inst.opcode, [LowerOperand symbols result, .reg PC_REG, .expr ⟨symbols.getJTISymbol index, 0⟩]⟩
  | operands => ⟨inst.opcode, operands.map (LowerOperand symbols)⟩

/-- The bytes of an instruction after the linker applied the relocation of its fixup. The
addend goes through a signed thirty-two bit member. -/
def linkInst (link : Nat → RelocAddresses) (inst : MCInst) : Option (List Byte) :=
  match encodeInstruction inst with
  | some (bytes, [fixup]) =>
      (linkerValue fixup.kind (link fixup.value.symbol)
        ((BitVec.ofInt 32 fixup.value.constant).signExtend 64)).bind fun value =>
          match relocateOne bytes fixup.offset (getRelocType fixup.kind) value with
          | some (.written data) => some data
          | _ => none
  | _ => none

/-- Runs the linked pair: what the words decode to is executed. -/
def materialise (link : Nat → RelocAddresses) (node : AddressNode) (dst : Fin 64)
    (registers : Registers) (memory : Memory 32) : Option (Registers × Memory 32) :=
  (((getAddr node dst).map (Lower symbols)).mapM fun inst =>
    (linkInst link inst).bind getInstruction).bind fun insts =>
      execStraight insts registers memory

section Words

/-- A word of the format of the immediate moves, which the two halves share. -/
def moveFields (code : Nat) (dst : Fin 64) : List (Slot × Nat) :=
  [(⟨27, 5⟩, 0b01100), (⟨24, 3⟩, code), (⟨18, 6⟩, dst), (⟨1, 1⟩, 0), (⟨0, 1⟩, 0)]

def moveImmField : Slot := ⟨2, 16⟩

def moveWord (code : Nat) (dst : Fin 64) (value : Nat) : Nat :=
  assemble (moveFields code dst ++ [(moveImmField, value)])

theorem move_fields_apart (code : Nat) (dst : Fin 64) :
    ∀ field ∈ moveFields code dst, moveImmField.Disjoint field.1 := by
  simp [moveFields, moveImmField, Slot.Disjoint, Slot.high]

theorem move_word_lt (code : Nat) (dst : Fin 64) (value : Nat) : moveWord code dst value < 2 ^ 32 := by
  apply assemble_lt
  simp [moveFields, moveImmField, Slot.high]

def moveLayout (code : Nat) (name : Var) : Layout Var :=
  [instConst 31 27 0b01100, instConst 26 24 code, instVar 23 18 .dst 0, instVar 17 2 name 0,
    instConst 1 1 0, instConst 0 0 0]

theorem encode_move {inst : MCInst} {code : Nat} {dst : Fin 64} {name : Var}
    {encoding : OperandEncoding} (layout : inst.opcode.layout = moveLayout code name)
    (other : name ≠ .dst)
    (register : encodeVar inst .dst = some ⟨getMachineOpValue (.reg (sReg dst)), []⟩)
    (value : encodeVar inst name = some encoding) :
    encodeInstruction inst =
      some (bytesLE 4 (moveWord code dst encoding.value.toNat), encoding.fixups) := by
  have vars : layoutVars (moveLayout code name) = [.dst, name] := by
    simp [layoutVars, moveLayout, instConst, instVar, other.symm]
  have dstValue : varValue inst .dst = dst := by
    rw [varValue, register]
    exact machine_op_value_reg (sReg dst)
  have immValue : varValue inst name = encoding.value.toNat := by rw [varValue, value]
  have word : (moveLayout code name).encode (varValue inst) =
      moveWord code dst encoding.value.toNat := by
    rw [moveWord, Layout.encode]
    simp only [moveLayout, List.map_cons, List.map_nil, instConst, instVar, Source.value,
      Nat.shiftRight_zero, dstValue, immValue, moveFields, moveImmField, List.cons_append,
      List.nil_append]
    exact assemble_perm ((((List.perm_append_singleton _ [_, _]).symm.cons _).cons _).cons _)
  have code : getBinaryCodeForInstr inst =
      some (BitVec.ofNat 32 (moveWord code dst encoding.value.toNat), encoding.fixups) := by
    rw [getBinaryCodeForInstr, layout, vars, word]
    simp [register, value, varFixups]
  rw [encodeInstruction, code, Option.map_some, BitVec.toNat_ofNat,
    Nat.mod_eq_of_lt (move_word_lt _ _ _)]

theorem decode_move {op : MoveImm} {code : Nat} (dst : Fin 64)
    (layout : (Opcode.moveImm op .SI).layout = moveLayout code .imm) {half : Nat}
    (bounded : half < 2 ^ 16) :
    getInstruction (bytesLE 4 (moveWord code dst half)) =
      some ⟨.moveImm op .SI, [.reg (sReg dst), .imm ((half : Int).bmod (2 ^ 16))]⟩ := by
  have valid : ValidInst ⟨.moveImm op .SI, [.reg (sReg dst), .imm half]⟩ := by
    refine ⟨rfl, rfl, ?_⟩
    have low : (-2 ^ 15 : Int) ≤ half := by omega
    have high : (half : Int) < 2 ^ 16 := by omega
    have limits : (-2 ^ 15 : Int) ≤ half ∧ (half : Int) < 2 ^ 16 := ⟨low, high⟩
    intro entry member
    simp only [miOperands, numberOperands, Opcode.operandList, moveImmOperands, List.mem_cons,
      List.not_mem_nil, or_false] at member
    rcases member with rfl | rfl
    · exact ⟨⟨sReg dst, rfl, rfl⟩, fun tied => by cases tied⟩
    · exact ⟨half, rfl, limits⟩
  obtain ⟨bytes, encoded, decoded⟩ := decode_encode valid
  have value : (BitVec.ofInt 32 (half : Int)).toNat = half := by
    rw [BitVec.toNat_ofInt]
    omega
  have register : encodeVar ⟨.moveImm op .SI, [.reg (sReg dst), .imm half]⟩ .dst =
      some ⟨getMachineOpValue (.reg (sReg dst)), []⟩ := rfl
  have immediate : encodeVar ⟨.moveImm op .SI, [.reg (sReg dst), .imm half]⟩ .imm =
      some ⟨BitVec.ofInt 32 half, []⟩ := rfl
  have emitted := encode_move layout (by decide) register immediate
  rw [encoded, value, Option.some.injEq, Prod.mk.injEq] at emitted
  rw [← emitted.1, decoded]
  rfl

theorem move_imm_value {half : Nat} (bounded : half < 2 ^ 16) :
    BitVec.ofInt 32 ((half : Int).bmod (2 ^ 16)) &&& 0xffff = BitVec.ofNat 32 half := by
  have mask : (0xffff : Word).toNat = 2 ^ 16 - 1 := rfl
  apply BitVec.eq_of_toNat_eq
  rw [BitVec.toNat_and, mask, Nat.and_two_pow_sub_one_eq_mod, BitVec.toNat_ofInt, Int.bmod,
    BitVec.toNat_ofNat]
  split <;> omega

end Words

section Linking

variable {link : Nat → RelocAddresses}

def referenceValue (link : Nat → RelocAddresses) (target : MCExpr) : BitVec 64 :=
  (link target.symbol).symbol + (BitVec.ofInt 32 target.constant).signExtend 64

theorem reference_value_low (target : MCExpr) :
    (referenceValue link target).setWidth 32 =
      (link target.symbol).symbol.setWidth 32 + BitVec.ofInt 32 target.constant := by
  have narrowed (value : Word) : (value.signExtend 64).setWidth 32 = value := by
    apply BitVec.eq_of_getLsbD_eq
    intro position inside
    rw [BitVec.getLsbD_setWidth, BitVec.getLsbD_signExtend]
    simp only [inside, show position < 64 by omega, decide_true, Bool.true_and, if_true]
  rw [referenceValue, BitVec.setWidth_add _ _ (by decide), narrowed]

theorem link_inst_half {inst : MCInst} {kind : Fixups} {code : Nat} {dst : Fin 64}
    {target : MCExpr} (half : BitVec 64)
    (emitted : encodeInstruction inst =
      some (bytesLE 4 (moveWord code dst 0), [⟨0, target, .target kind⟩]))
    (absolute : getRelExpr (getRelocType (.target kind)) = some .R_ABS)
    (relocated : ∀ data offset, relocateOne data offset (getRelocType (.target kind))
        (referenceValue link target) =
      some (if checkUInt half 16 then .written (applyNaplesPUReloc 16 2 data offset half)
        else .outOfRange))
    (bounded : half.toNat < 2 ^ 16) :
    linkInst link inst = some (bytesLE 4 (moveWord code dst half.toNat)) := by
  have checked : checkUInt half 16 = true := by
    rw [checkUInt, decide_eq_true_eq]
    bv_omega
  have read : readAt (bytesLE 4 (moveWord code dst 0)) 0 4 = moveWord code dst 0 := by
    rw [read_at_bytes]
    exact Nat.mod_eq_of_lt (move_word_lt code dst 0)
  have patched : moveImmField.patch (moveWord code dst 0) half.toNat =
      moveWord code dst (half.toNat % 2 ^ 16) :=
    patch_assemble (show moveImmField.low = moveImmField.low from rfl) le_rfl
      (move_fields_apart code dst) half.toNat
  have inWord : moveImmField.high ≤ 32 := by decide
  have applied := apply_reloc_patches half inWord
    (show 0 + 4 ≤ (bytesLE 4 (moveWord code dst 0)).length by rw [bytes_length])
  rw [read, patched, write_at_bytes, Nat.mod_eq_of_lt bounded] at applied
  have value : linkerValue (.target kind) (link target.symbol)
      ((BitVec.ofInt 32 target.constant).signExtend 64) = some (referenceValue link target) := by
    rw [linkerValue, absolute]
    rfl
  rw [linkInst, emitted]
  simp only [value, Option.bind_some, relocated, checked, if_true]
  exact congrArg some applied

theorem link_decode_half {inst : MCInst} {code : Nat} {dst : Fin 64} {half : BitVec 64}
    {op : MoveImm}
    (layout : (Opcode.moveImm op .SI).layout = moveLayout code .imm)
    (linked : linkInst link inst = some (bytesLE 4 (moveWord code dst half.toNat)))
    (bounded : half.toNat < 2 ^ 16) :
    (linkInst link inst).bind getInstruction =
      some ⟨.moveImm op .SI, [.reg (sReg dst), .imm ((half.toNat : Int).bmod (2 ^ 16))]⟩ := by
  rw [linked, Option.bind_some, decode_move dst layout bounded]

end Linking

section Pair

variable (link : Nat → RelocAddresses) (node : AddressNode) (dst : Fin 64)

/-- Either operand list of a high half leads to the fixup of its address. -/
theorem encode_leah (rest : List MCOperand) (target : MCExpr)
    (found : encodeABShValue ⟨.LEAH, .reg (sReg dst) :: rest⟩ =
      some ⟨0, [⟨0, target, .target .fixup_NaplesPU_Absh⟩]⟩) :
    encodeInstruction ⟨.LEAH, .reg (sReg dst) :: rest⟩ =
      some (bytesLE 4 (moveWord 1 dst 0), [⟨0, target, .target .fixup_NaplesPU_Absh⟩]) := by
  have register : encodeVar ⟨.LEAH, .reg (sReg dst) :: rest⟩ .dst =
      some ⟨getMachineOpValue (.reg (sReg dst)), []⟩ := rfl
  have address : encodeVar ⟨.LEAH, .reg (sReg dst) :: rest⟩ .addr =
      some ⟨0, [⟨0, target, .target .fixup_NaplesPU_Absh⟩]⟩ := found
  have layout : Opcode.LEAH.layout = moveLayout 1 .addr := rfl
  have emitted := encode_move layout (by decide) register address
  simpa using emitted

theorem encode_leal (rest : List MCOperand) (target : MCExpr)
    (found : encodeABSlValue ⟨.LEAL, .reg (sReg dst) :: rest⟩ =
      some ⟨0, [⟨0, target, .target .fixup_NaplesPU_Absl⟩]⟩) :
    encodeInstruction ⟨.LEAL, .reg (sReg dst) :: rest⟩ =
      some (bytesLE 4 (moveWord 0 dst 0), [⟨0, target, .target .fixup_NaplesPU_Absl⟩]) := by
  have register : encodeVar ⟨.LEAL, .reg (sReg dst) :: rest⟩ .dst =
      some ⟨getMachineOpValue (.reg (sReg dst)), []⟩ := rfl
  have address : encodeVar ⟨.LEAL, .reg (sReg dst) :: rest⟩ .addr =
      some ⟨0, [⟨0, target, .target .fixup_NaplesPU_Absl⟩]⟩ := found
  have layout : Opcode.LEAL.layout = moveLayout 0 .addr := rfl
  have emitted := encode_move layout (by decide) register address
  simpa using emitted

/-- The high half refers to the plain symbol, whatever the node. -/
theorem encode_high :
    encodeInstruction (Lower symbols
        ⟨.LEAH, [.MO_Register (sReg dst), addOperand (getTargetNode node)]⟩) =
      some (bytesLE 4 (moveWord 1 dst 0),
        [⟨0, ⟨symbols.symbol node, 0⟩, .target .fixup_NaplesPU_Absh⟩]) := by
  cases node with
  | globalAddress global offset => exact encode_leah dst _ ⟨symbols.getSymbol global, 0⟩ rfl
  | constantPool constant offset => exact encode_leah dst _ ⟨symbols.getCPISymbol constant, 0⟩ rfl
  | blockAddress block offset => exact encode_leah dst _ ⟨symbols.getBlockAddressSymbol block, 0⟩ rfl
  | jumpTable index => exact encode_leah dst _ ⟨symbols.getJTISymbol index, 0⟩ rfl

/-- The low half refers to the symbol plus the offset of the target node. -/
theorem encode_low :
    encodeInstruction (Lower symbols ⟨.LEAL, [.MO_Register (sReg dst), .MO_Register (sReg dst),
        addOperand (getTargetNode node)]⟩) =
      some (bytesLE 4 (moveWord 0 dst 0),
        [⟨0, ⟨symbols.symbol node, (getTargetNode node).offset % 2 ^ 32⟩,
          .target .fixup_NaplesPU_Absl⟩]) := by
  cases node with
  | globalAddress global offset => exact encode_leal dst _ _ rfl
  | constantPool constant offset => exact encode_leal dst _ _ rfl
  | blockAddress block offset => exact encode_leal dst _ _ rfl
  | jumpTable index => exact encode_leal dst _ _ rfl

theorem low_sixteen (value : BitVec 64) :
    (value &&& 0xFFFF).toNat = (value.setWidth 32).toNat % 2 ^ 16 := by
  have mask : (0xFFFF : BitVec 64).toNat = 2 ^ 16 - 1 := rfl
  rw [BitVec.toNat_and, mask, Nat.and_two_pow_sub_one_eq_mod, BitVec.toNat_setWidth]
  omega

theorem low_sixteen_lt (value : BitVec 64) : (value &&& 0xFFFF).toNat < 2 ^ 16 := by
  rw [low_sixteen]
  exact Nat.mod_lt _ (by decide)

theorem high_sixteen (value : BitVec 64) :
    ((value >>> 16) &&& 0xFFFF).toNat = (value.setWidth 32).toNat / 2 ^ 16 := by
  rw [low_sixteen, BitVec.toNat_setWidth, BitVec.toNat_setWidth, BitVec.toNat_ushiftRight,
    Nat.shiftRight_eq_div_pow]
  omega

theorem link_high :
    linkInst link (Lower symbols
        ⟨.LEAH, [.MO_Register (sReg dst), addOperand (getTargetNode node)]⟩) =
      some (bytesLE 4 (moveWord 1 dst
        ((referenceValue link ⟨symbols.symbol node, 0⟩ >>> 16) &&& 0xFFFF).toNat)) :=
  link_inst_half _ (encode_high symbols node dst) rfl (fun _ _ => rfl) (low_sixteen_lt _)

theorem link_low :
    linkInst link (Lower symbols ⟨.LEAL, [.MO_Register (sReg dst), .MO_Register (sReg dst),
        addOperand (getTargetNode node)]⟩) =
      some (bytesLE 4 (moveWord 0 dst (referenceValue link
        ⟨symbols.symbol node, (getTargetNode node).offset % 2 ^ 32⟩ &&& 0xFFFF).toNat)) :=
  link_inst_half _ (encode_low symbols node dst) rfl (fun _ _ => rfl) (low_sixteen_lt _)

theorem exec_pair {high low : Nat} (highBounded : high < 2 ^ 16) (lowBounded : low < 2 ^ 16)
    (registers : Registers) (memory : Memory 32) :
    execStraight
        [⟨.moveImm .MOVEIH .SI, [.reg (sReg dst), .imm ((high : Int).bmod (2 ^ 16))]⟩,
          ⟨.moveImm .MOVEIL .SI, [.reg (sReg dst), .imm ((low : Int).bmod (2 ^ 16))]⟩]
        registers memory =
      some (registers.setGpr dst (BitVec.ofNat 32 (2 ^ 16 * high + low)), memory) := by
  have joined : (BitVec.ofNat 32 high <<< 16 &&& 0xffff0000) ||| BitVec.ofNat 32 low =
      BitVec.ofNat 32 (2 ^ 16 * high + low) := by
    have highMask : (0xffff0000 : Word) = BitVec.ofNat 32 (2 ^ 16 * (2 ^ 16 - 1) + 0) := rfl
    apply BitVec.eq_of_getLsbD_eq
    intro position inside
    rw [highMask]
    simp only [BitVec.getLsbD_or, BitVec.getLsbD_and, BitVec.getLsbD_shiftLeft,
      BitVec.getLsbD_ofNat, Nat.testBit_two_pow_mul_add _ lowBounded,
      Nat.testBit_two_pow_mul_add _ (show 0 < 2 ^ 16 by decide)]
    by_cases below : position < 16
    · simp [below, inside]
    · have above : low < 2 ^ position :=
        lt_of_lt_of_le lowBounded (Nat.pow_le_pow_right (by decide) (by omega))
      simp only [inside, below, decide_true, decide_false, Bool.not_false, Bool.true_and, if_false,
        Nat.testBit_two_pow_sub_one, Nat.testBit_lt_two_pow above, Bool.or_false,
        show position - 16 < 32 by omega, show position - 16 < 16 by omega, Bool.and_true]
  rw [exec_straight_cons (exec_move_high registers memory dst _),
    exec_straight_cons (exec_move_low _ memory dst _), execStraight, move_imm_value highBounded,
    move_imm_value lowBounded, ← joined]
  simp [Registers.setGpr]

/-- What the pair leaves in the destination: the high half of the symbol's address over the
low half of the address plus the offset of the target node. -/
def halves (address : Word) (offset : Int) : Word :=
  BitVec.ofNat 32 (2 ^ 16 * (address.toNat / 2 ^ 16) +
    (address + BitVec.ofInt 32 offset).toNat % 2 ^ 16)

theorem add_no_offset (address : Word) : address + BitVec.ofInt 32 0 = address :=
  BitVec.add_zero address

theorem materialise_eq (registers : Registers) (memory : Memory 32) :
    materialise symbols link node dst registers memory =
      some (registers.setGpr dst (halves ((link (symbols.symbol node)).symbol.setWidth 32)
        (getTargetNode node).offset), memory) := by
  have high := link_decode_half
    (show (Opcode.moveImm .MOVEIH .SI).layout = moveLayout 1 .imm from rfl)
    (link_high symbols link node dst) (low_sixteen_lt _)
  have low := link_decode_half
    (show (Opcode.moveImm .MOVEIL .SI).layout = moveLayout 0 .imm from rfl)
    (link_low symbols link node dst) (low_sixteen_lt _)
  rw [materialise, getAddr, List.map_cons, List.map_cons, List.map_nil, List.mapM_cons,
    List.mapM_cons, high, low]
  have executed := exec_pair dst (low_sixteen_lt (referenceValue link ⟨symbols.symbol node, 0⟩ >>> 16))
    (low_sixteen_lt (referenceValue link
      ⟨symbols.symbol node, (getTargetNode node).offset % 2 ^ 32⟩)) registers memory
  have value : BitVec.ofNat 32 (2 ^ 16 *
      ((referenceValue link ⟨symbols.symbol node, 0⟩ >>> 16) &&& 0xFFFF).toNat +
        (referenceValue link ⟨symbols.symbol node, (getTargetNode node).offset % 2 ^ 32⟩ &&&
          0xFFFF).toNat) =
      halves ((link (symbols.symbol node)).symbol.setWidth 32) (getTargetNode node).offset := by
    have wrapped (offset : Int) : BitVec.ofInt 32 (offset % 2 ^ 32) = BitVec.ofInt 32 offset := by
      apply BitVec.eq_of_toNat_eq
      rw [BitVec.toNat_ofInt, BitVec.toNat_ofInt]
      exact congrArg Int.toNat (Int.emod_emod_of_dvd _ (dvd_refl _))
    rw [high_sixteen, low_sixteen, reference_value_low, reference_value_low, wrapped,
      add_no_offset, halves]
  rw [value] at executed
  exact executed

end Pair

def target (link : Nat → RelocAddresses) (node : AddressNode) : Word :=
  (link (symbols.symbol node)).symbol.setWidth 32 + BitVec.ofInt 32 node.offset

/-- The offset of the node reaches both halves, or makes no difference to them. -/
def OffsetSurvives (symbol : Word) : AddressNode → Prop
  | .globalAddress _ offset | .blockAddress _ offset => BitVec.ofInt 32 offset = 0
  | .constantPool _ offset =>
      (symbol + BitVec.ofInt 32 offset).toNat / 2 ^ 16 = symbol.toNat / 2 ^ 16
  | .jumpTable _ => True

theorem halves_eq_add_iff (address : Word) (offset : Int) :
    halves address offset = address + BitVec.ofInt 32 offset ↔
      (address + BitVec.ofInt 32 offset).toNat / 2 ^ 16 = address.toNat / 2 ^ 16 := by
  rw [halves, ← BitVec.toNat_inj, BitVec.toNat_ofNat]
  generalize address + BitVec.ofInt 32 offset = sum
  omega

theorem halves_zero (address : Word) : halves address 0 = address := by
  have same := (halves_eq_add_iff address 0).mpr (by rw [add_no_offset])
  rwa [add_no_offset] at same

/-- The pair leaves the address with the offset just when the offset survives, and changes
nothing but the destination. -/
theorem address_materialised_iff (link : Nat → RelocAddresses) (node : AddressNode)
    (dst : Fin 64) (registers : Registers) (memory : Memory 32) :
    materialise symbols link node dst registers memory =
        some (registers.setGpr dst (target symbols link node), memory) ↔
      OffsetSurvives ((link (symbols.symbol node)).symbol.setWidth 32) node := by
  have same (value other : Word) :
      some (registers.setGpr dst value, memory) = some (registers.setGpr dst other, memory) ↔
        value = other := by
    constructor
    · intro states
      have values := congrArg (fun state => state.map fun state => state.1.gpr dst) states
      simpa using values
    · rintro rfl
      rfl
  rw [materialise_eq, same, target]
  cases node with
  | globalAddress global offset =>
      rw [getTargetNode, AddressNode.offset, halves_zero]
      exact BitVec.self_eq_add_right
  | constantPool constant offset => exact halves_eq_add_iff _ _
  | blockAddress block offset =>
      rw [getTargetNode, AddressNode.offset, halves_zero]
      exact BitVec.self_eq_add_right
  | jumpTable index =>
      rw [getTargetNode, AddressNode.offset, halves_zero, add_no_offset]
      simp [OffsetSurvives]

def disjointSymbols : AsmSymbols :=
  ⟨fun global => 4 * global, fun constant => 4 * constant + 1, fun block => 4 * block + 2,
    fun index => 4 * index + 3⟩

/-- Every symbol at the last word of the first 64 KiB. -/
def atBoundary : Nat → RelocAddresses := fun _ => ⟨0xfffc, 0, 0⟩

def noRegisters : Registers := ⟨fun _ => 0, fun _ => 0⟩

/-- A constant-pool address whose offset carries into the high half. -/
theorem carry_is_lost :
    ¬ ∀ symbols link (node : AddressNode) dst registers memory, node.Formed →
      materialise symbols link node dst registers memory =
        some (registers.setGpr dst (target symbols link node), memory) := by
  intro materialised
  have state := materialised disjointSymbols atBoundary (.constantPool 0 8) 3 noRegisters
    (fun _ => 0) (by simp [AddressNode.Formed])
  rw [materialise_eq] at state
  have values := congrArg (fun state => state.map fun state => state.1.gpr 3) state
  revert values
  simp [target, halves, atBoundary, getTargetNode, AddressNode.offset]

end NaplesPU.AddressLowering
