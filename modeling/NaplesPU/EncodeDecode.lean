import NaplesPU.Disassembler

/-!
Round trip of the instruction set through `encodeInstruction` and
`getInstruction`. One lemma per operand class says what its decoder makes of the
field its encoder wrote; a check of the decoder table says that every operand
has its own field of the right width; together they give the decoded
instruction for all operand values, also those the branch decoder misreads.
-/

namespace NaplesPU.EncodeDecode

open BitLayout ByteMemory RegisterInfo InstrFormats InstrInfo DecoderTable FixupKinds
open MCCodeEmitter Disassembler TwosComplement

/-- The width of the offset field of a jump: twenty-four bits in format FJ. -/
def branchBits : Opcode → Nat
  | .JMP | .JMPSR_OFF => 24
  | _ => 18

def ValidMemory (inst : MCInst) (opNo : Nat) (cls : RegClass) : Prop :=
  ∃ base offset, inst.getOperand opNo = some (.reg base) ∧ base.cls = cls ∧
    inst.getOperand (opNo + 1) = some (.imm offset) ∧ SignedFits 9 offset

def ValidOperand (inst : MCInst) (opNo : Nat) (decl : OperandDecl) : Prop :=
  match decl.type with
  | .reg cls =>
      (∃ register, inst.getOperand opNo = some (.reg register) ∧ register.cls = cls) ∧
        ((tiedTo decl.name).isSome → inst.getOperand opNo = inst.getOperand 0)
  | .SIMM9OP => ∃ value, inst.getOperand opNo = some (.imm value) ∧ SignedFits 9 value
  | .SIMM16OP =>
      ∃ value, inst.getOperand opNo = some (.imm value) ∧ -2 ^ 15 ≤ value ∧ value < 2 ^ 16
  | .MEMri => ValidMemory inst opNo .GPR32
  | .V16MEMri => ValidMemory inst opNo .VR512W
  | .brtarget | .calltarget =>
      ∃ value, inst.getOperand opNo = some (.imm value) ∧
        SignedFits (branchBits inst.opcode) value
  | .LEAri | .ABSh | .ABSl => False

/-- A disassemblable instruction with exactly the operands of its record. -/
structure ValidInst (inst : MCInst) : Prop where
  disassemblable : isDisassemblable inst.opcode
  count : inst.operands.length =
    (inst.opcode.operandList.map fun decl => decl.type.numMIOperands).sum
  operands : ∀ entry ∈ miOperands inst.opcode, ValidOperand inst entry.1 entry.2

/-- The operand at `opNo` is of the declared kind, whatever its value. -/
def TypedOperand (inst : MCInst) (opNo : Nat) (decl : OperandDecl) : Prop :=
  match decl.type with
  | .reg _ =>
      (∃ register, inst.getOperand opNo = some (.reg register)) ∧
        ((tiedTo decl.name).isSome → inst.getOperand opNo = inst.getOperand 0)
  | .SIMM9OP | .SIMM16OP | .brtarget | .calltarget =>
      ∃ value, inst.getOperand opNo = some (.imm value)
  | .MEMri | .V16MEMri =>
      ∃ base offset, inst.getOperand opNo = some (.reg base) ∧
        inst.getOperand (opNo + 1) = some (.imm offset)
  | .LEAri | .ABSh | .ABSl => False

structure TypedInst (inst : MCInst) : Prop where
  disassemblable : isDisassemblable inst.opcode
  operands : ∀ entry ∈ miOperands inst.opcode, TypedOperand inst entry.1 entry.2

def decodedClass : OperandType → RegClass
  | .reg cls => cls
  | .V16MEMri => .VR512W
  | _ => .GPR32

/-- What the decoder of an operand class makes of a machine operand: a register of its
own class and a value of its own width. -/
def readBack (type : OperandType) (bits : Nat) : MCOperand → MCOperand
  | .reg register => .reg ⟨decodedClass type, register.encoding⟩
  | .imm value => .imm (value.bmod (2 ^ bits))
  | .expr value => .expr value

def wrapImm (bits : Nat) : MCOperand → MCOperand
  | .imm value => .imm (value.bmod (2 ^ bits))
  | operand => operand

/-- The machine operands that the declared operand at `opNo` expands to. -/
def operandSlice (inst : MCInst) (opNo : Nat) (decl : OperandDecl) : List MCOperand :=
  (inst.operands.drop opNo).take decl.type.numMIOperands

def fieldWidth (opcode : Opcode) : OperandType → Nat
  | .reg _ => 6
  | .SIMM9OP => 9
  | .SIMM16OP | .LEAri | .ABSh | .ABSl => 16
  | .MEMri | .V16MEMri => 15
  | .brtarget | .calltarget => branchBits opcode

def immBits : OperandType → Option Nat
  | .SIMM9OP | .MEMri | .V16MEMri => some 9
  | .SIMM16OP => some 16
  | .brtarget | .calltarget => some 18
  | .reg _ | .LEAri | .ABSh | .ABSl => none

section Operands

variable {inst : MCInst} {opNo : Nat}

theorem slice_one {operand : MCOperand} (present : inst.getOperand opNo = some operand) :
    (inst.operands.drop opNo).take 1 = [operand] := by
  obtain ⟨bounded, same⟩ := List.getElem?_eq_some_iff.mp present
  rw [List.drop_eq_getElem_cons bounded, same, List.take_succ_cons, List.take_zero]

theorem slice_two {first second : MCOperand} (present : inst.getOperand opNo = some first)
    (next : inst.getOperand (opNo + 1) = some second) :
    (inst.operands.drop opNo).take 2 = [first, second] := by
  obtain ⟨bounded, same⟩ := List.getElem?_eq_some_iff.mp present
  obtain ⟨nextBounded, nextSame⟩ := List.getElem?_eq_some_iff.mp next
  rw [List.drop_eq_getElem_cons bounded, List.drop_eq_getElem_cons nextBounded, same, nextSame]
  rfl

theorem decode_register (register : Register) (cls : RegClass) :
    decodeRegisterClass cls ((getMachineOpValue (.reg register)).toNat % 2 ^ 6) =
      some [.reg ⟨cls, register.encoding⟩] := by
  have bounded : getEncodingValue register < 2 ^ 6 := encoding_value_lt register
  rw [machine_op_value_reg, Nat.mod_eq_of_lt bounded, decodeRegisterClass, if_neg (by omega),
    get_reg_of_encoding]
  rfl

/-- A register and an offset packed into one value read back separately. -/
theorem decode_memory (base : Register) (cls : RegClass) (offset : Int) :
    decodeMemoryOpValue cls ((packMemory base offset).toNat % 2 ^ 15) =
      some [.reg ⟨cls, base.encoding⟩, .imm (offset.bmod (2 ^ 9))] := by
  have low : fieldFromInstruction ((packMemory base offset).toNat % 2 ^ 15) 0 6 =
      getEncodingValue base := by
    rw [← pack_memory_base base offset]
    change (((packMemory base offset).toNat % 2 ^ 15) >>> 0) % 2 ^ 6 = _
    rw [Nat.shiftRight_zero]
    omega
  have upper : fieldFromInstruction ((packMemory base offset).toNat % 2 ^ 15) 6 9 =
      (BitVec.ofInt 16 offset).toNat % 2 ^ 9 := by
    rw [← pack_memory_offset base offset]
    change (((packMemory base offset).toNat % 2 ^ 15) >>> 6) % 2 ^ 9 = _
    rw [Nat.shiftRight_eq_div_pow, Nat.shiftRight_eq_div_pow]
    omega
  rw [decodeMemoryOpValue, low, upper, get_reg_of_encoding, Option.map_some,
    sign_extend_field offset (by decide) (by decide)]

/-- What the decoder makes of the field that the encoder wrote, class by class. -/
theorem decode_operand_encode {decl : OperandDecl} {bits : Nat}
    (typed : TypedOperand inst opNo decl)
    (position : decl.type = .MEMri ∨ decl.type = .V16MEMri → opNo = 1)
    (kept : ∀ width, immBits decl.type = some width → width = bits) :
    ∃ value, encodeOperand inst decl.type opNo = some ⟨value, []⟩ ∧
      decodeOperand decl.type (value.toNat % 2 ^ fieldWidth inst.opcode decl.type) =
        some ((operandSlice inst opNo decl).map (readBack decl.type bits)) := by
  have memory (type : OperandType) {base : Register} {offset : Int}
      (first : inst.getOperand 1 = some (.reg base))
      (second : inst.getOperand 2 = some (.imm offset)) (width : bits = 9) :
      ∃ value, encodeMemoryOpValue inst = some ⟨value, []⟩ ∧
        decodeMemoryOpValue (decodedClass type) (value.toNat % 2 ^ 15) =
          some (((inst.operands.drop 1).take 2).map (readBack type bits)) := by
    refine ⟨_, by rw [encodeMemoryOpValue, first, second], ?_⟩
    rw [decode_memory base, slice_two first second, width]
    rfl
  have branch (type : OperandType) {value : Int}
      (present : inst.getOperand opNo = some (.imm value)) (width : bits = 18) :
      ∃ encoded, encodeBranchTargetOpValue inst opNo = some ⟨encoded, []⟩ ∧
        decodeBranchTargetOpValue (encoded.toNat % 2 ^ branchBits inst.opcode) =
          some (((inst.operands.drop opNo).take 1).map (readBack type bits)) := by
    have wide : 18 ≤ branchBits inst.opcode := by
      unfold branchBits
      split <;> decide
    refine ⟨_, by rw [encodeBranchTargetOpValue, present], ?_⟩
    rw [decodeBranchTargetOpValue, sign_extend_field value (by decide) wide,
      slice_one present, width]
    rfl
  obtain ⟨name, type⟩ := decl
  cases type with
  | reg cls =>
      obtain ⟨⟨register, present⟩, -⟩ := typed
      refine ⟨_, by rw [encodeOperand, present]; rfl, ?_⟩
      change decodeRegisterClass cls ((getMachineOpValue (.reg register)).toNat % 2 ^ 6) =
        some (((inst.operands.drop opNo).take 1).map (readBack (.reg cls) bits))
      rw [decode_register, slice_one present]
      rfl
  | SIMM9OP =>
      obtain ⟨value, present⟩ := typed
      refine ⟨_, by rw [encodeOperand, present]; rfl, ?_⟩
      change decodeSimm9Value ((BitVec.ofInt 32 value).toNat % 2 ^ 9) =
        some (((inst.operands.drop opNo).take 1).map (readBack .SIMM9OP bits))
      rw [decodeSimm9Value, sign_extend_field value (by decide) (by decide),
        slice_one present, ← kept 9 rfl]
      rfl
  | SIMM16OP =>
      obtain ⟨value, present⟩ := typed
      refine ⟨_, by rw [encodeOperand, present]; rfl, ?_⟩
      change decodeSimm16Value ((BitVec.ofInt 32 value).toNat % 2 ^ 16) =
        some (((inst.operands.drop opNo).take 1).map (readBack .SIMM16OP bits))
      rw [decodeSimm16Value, sign_extend_field value (by decide) (by decide),
        slice_one present, ← kept 16 rfl]
      rfl
  | MEMri =>
      obtain rfl := position (Or.inl rfl)
      obtain ⟨base, offset, first, second⟩ := typed
      exact memory .MEMri first second (kept 9 rfl).symm
  | V16MEMri =>
      obtain rfl := position (Or.inr rfl)
      obtain ⟨base, offset, first, second⟩ := typed
      exact memory .V16MEMri first second (kept 9 rfl).symm
  | brtarget =>
      obtain ⟨value, present⟩ := typed
      exact branch .brtarget present (kept 18 rfl).symm
  | calltarget =>
      obtain ⟨value, present⟩ := typed
      exact branch .calltarget present (kept 18 rfl).symm
  | LEAri => exact typed.elim
  | ABSh => exact typed.elim
  | ABSl => exact typed.elim

end Operands

section Slices

theorem slices_flatten (inst : MCInst) (change : MCOperand → MCOperand)
    (decls : List OperandDecl) (opNo : Nat)
    (count : inst.operands.length = opNo + (decls.map fun decl => decl.type.numMIOperands).sum) :
    ((numberOperands opNo decls).map fun entry =>
      (operandSlice inst entry.1 entry.2).map change).flatten =
        (inst.operands.drop opNo).map change := by
  induction decls generalizing opNo with
  | nil =>
      rw [List.map_nil, List.sum_nil, Nat.add_zero] at count
      rw [numberOperands, List.drop_eq_nil_of_le (by omega)]
      rfl
  | cons decl rest induction =>
      rw [List.map_cons, List.sum_cons] at count
      rw [numberOperands, List.map_cons, List.flatten_cons,
        induction (opNo + decl.type.numMIOperands) (by omega), operandSlice, ← List.map_append,
        ← List.drop_drop, List.take_append_drop]

theorem map_m_eq_some {Item Result : Type} {step : Item → Option Result} {image : Item → Result}
    {items : List Item} (each : ∀ item ∈ items, step item = some (image item)) :
    items.mapM step = some (items.map image) := by
  induction items with
  | nil => rfl
  | cons item rest induction =>
      rw [List.mapM_cons, each item (by simp),
        induction fun other member => each other (by simp [member])]
      rfl

theorem number_operands_map_snd (decls : List OperandDecl) (opNo : Nat) :
    (numberOperands opNo decls).map Prod.snd = decls := by
  induction decls generalizing opNo with
  | nil => rfl
  | cons decl rest induction => rw [numberOperands, List.map_cons, induction]

end Slices

def decodedImmBits : Opcode → Nat
  | .moveImm _ _ => 16
  | .JMP | .JMPSR_OFF | .BEQZ | .BNEZ => 18
  | _ => 9

/-- An operand has a field of its width, and its variable names it or, for a tied
operand, names the register operand it is tied to. -/
def SoundEntry (opcode : Opcode) (entry : Nat × OperandDecl) : Prop :=
  opcode.layout.Covers (decodedVar entry.2.name) (fieldWidth opcode entry.2.type) ∧
    (entry.2.type = .MEMri ∨ entry.2.type = .V16MEMri → entry.1 = 1) ∧
    (immBits entry.2.type = none ∨ immBits entry.2.type = some (decodedImmBits opcode)) ∧
    ((miOperands opcode).find? (fun other => other.2.name = decodedVar entry.2.name) = some entry ∨
      (tiedTo entry.2.name).isSome ∧ entry.2.type = .reg .VR512W ∧
        (miOperands opcode).find? (fun other => other.2.name = decodedVar entry.2.name) =
          some (0, ⟨.dst, .reg .VR512W⟩))

instance (opcode : Opcode) (entry : Nat × OperandDecl) : Decidable (SoundEntry opcode entry) :=
  inferInstanceAs (Decidable (_ ∧ _))

/-- What the round trip needs of a record of the decoder table. -/
def SoundRecord (opcode : Opcode) : Prop :=
  opcode.layout.WellFormed 32 ∧ (∀ entry ∈ miOperands opcode, SoundEntry opcode entry) ∧
    (layoutVars opcode.layout = [] ∨ miOperands opcode ≠ [])

instance (opcode : Opcode) : Decidable (SoundRecord opcode) :=
  inferInstanceAs (Decidable (_ ∧ _))

theorem sound_decoder_table : ∀ opcode ∈ decoderTable32, SoundRecord opcode := by
  decide +kernel

section RoundTrip

variable {inst : MCInst}

theorem sound_record (disassemblable : isDisassemblable inst.opcode) : SoundRecord inst.opcode :=
  sound_decoder_table inst.opcode ((mem_decoder_table_iff inst.opcode).mpr disassemblable)

/-- All immediates of a record have the width that its decoder keeps. -/
theorem imm_bits_eq {opcode : Opcode} (listed : opcode ∈ decoderTable32)
    {entry : Nat × OperandDecl} (member : entry ∈ miOperands opcode) {width : Nat}
    (present : immBits entry.2.type = some width) : width = decodedImmBits opcode := by
  obtain ⟨-, -, bits, -⟩ := (sound_decoder_table opcode listed).2.1 entry member
  rcases bits with absent | same
  · rw [absent] at present
    cases present
  · rw [same] at present
    exact (Option.some.inj present).symm

theorem decoded_var_untied {name : Var} (untied : (tiedTo name).isNone) :
    decodedVar name = name := by
  rw [Option.isNone_iff_eq_none] at untied
  rw [decodedVar, untied, Option.getD_none]

def decodedOperands (inst : MCInst) : List MCOperand :=
  ((miOperands inst.opcode).map fun entry =>
    (operandSlice inst entry.1 entry.2).map
      (readBack entry.2.type (decodedImmBits inst.opcode))).flatten

/-- Every operand of a typed instruction encodes without a fixup, and its variable
carries the value of its own encoder. -/
theorem operand_round_trip (typed : TypedInst inst) {entry : Nat × OperandDecl}
    (member : entry ∈ miOperands inst.opcode) :
    ∃ value, encodeOperand inst entry.2.type entry.1 = some ⟨value, []⟩ ∧
      encodeVar inst (decodedVar entry.2.name) = some ⟨value, []⟩ ∧
      decodeOperand entry.2.type (value.toNat % 2 ^ fieldWidth inst.opcode entry.2.type) =
        some ((operandSlice inst entry.1 entry.2).map
          (readBack entry.2.type (decodedImmBits inst.opcode))) := by
  obtain ⟨-, position, -, named⟩ := (sound_record typed.disassemblable).2.1 entry member
  have listed := (mem_decoder_table_iff inst.opcode).mpr typed.disassemblable
  have operand := typed.operands entry member
  obtain ⟨value, encoded, decoded⟩ := decode_operand_encode operand position
    fun width present => imm_bits_eq listed member present
  refine ⟨value, encoded, ?_, decoded⟩
  rcases named with own | ⟨tied, type, leader⟩
  · rw [encodeVar, own]
    exact encoded
  · rw [encodeVar, leader]
    rw [TypedOperand, type] at operand
    have shared : encodeOperand inst (.reg .VR512W) 0 =
        encodeOperand inst (.reg .VR512W) entry.1 := by
      change (inst.getOperand 0).map _ = (inst.getOperand entry.1).map _
      rw [operand.2 tied]
    rw [← encoded, type]
    exact shared

theorem encode_var_typed (typed : TypedInst inst) {name : Var}
    (stored : name ∈ layoutVars inst.opcode.layout) :
    ∃ value, encodeVar inst name = some ⟨value, []⟩ := by
  rw [encodeVar]
  cases found : (miOperands inst.opcode).find? fun entry => entry.2.name = name with
  | some entry =>
      obtain ⟨value, encoded, -⟩ := operand_round_trip typed (List.mem_of_find?_eq_some found)
      exact ⟨value, encoded⟩
  | none =>
      rcases (sound_record typed.disassemblable).2.2 with empty | nonempty
      · rw [empty] at stored
        cases stored
      · obtain ⟨first, rest, split⟩ := List.exists_cons_of_ne_nil nonempty
        obtain ⟨value, encoded, -⟩ := operand_round_trip typed
          (show first ∈ miOperands inst.opcode by simp [split])
        rw [split]
        exact ⟨value, encoded⟩

theorem get_binary_code_typed (typed : TypedInst inst) :
    getBinaryCodeForInstr inst =
      some (BitVec.ofNat 32 (inst.opcode.layout.encode (varValue inst)), []) :=
  get_binary_code_of_vars fun _ stored => encode_var_typed typed stored

theorem encode_typed (typed : TypedInst inst) :
    encodeInstruction inst = some (bytesLE 4 (inst.opcode.layout.encode (varValue inst)), []) := by
  have bounded := Layout.encode_lt (sound_record typed.disassemblable).1 (varValue inst)
  rw [encodeInstruction, get_binary_code_typed typed, Option.map_some, BitVec.toNat_ofNat,
    Nat.mod_eq_of_lt bounded]

theorem decode_to_mcinst_encoded (typed : TypedInst inst) :
    decodeToMCInst inst.opcode (inst.opcode.layout.encode (varValue inst)) =
      some ⟨inst.opcode, decodedOperands inst⟩ := by
  have formed := (sound_record typed.disassemblable).1
  have each : ∀ entry ∈ miOperands inst.opcode,
      decodeOperand entry.2.type (inst.opcode.layout.gather (decodedVar entry.2.name)
        (inst.opcode.layout.encode (varValue inst))) =
          some ((operandSlice inst entry.1 entry.2).map
            (readBack entry.2.type (decodedImmBits inst.opcode))) := by
    intro entry member
    obtain ⟨value, -, named, decoded⟩ := operand_round_trip typed member
    have covers := ((sound_record typed.disassemblable).2.1 entry member).1
    rw [Layout.gather_encode formed covers, varValue, named]
    exact decoded
  have decls : inst.opcode.operandList = (miOperands inst.opcode).map Prod.snd :=
    (number_operands_map_snd inst.opcode.operandList 0).symm
  have decoded := map_m_eq_some each
  rw [decodeToMCInst, decls, List.mapM_map]
  change Option.map _ ((miOperands inst.opcode).mapM fun entry =>
    decodeOperand entry.2.type (inst.opcode.layout.gather (decodedVar entry.2.name)
      (inst.opcode.layout.encode (varValue inst)))) = _
  rw [decoded, Option.map_some]
  rfl

/-- The bytes of a typed instruction decode to the instruction whose operands are those
that their decoders keep. -/
theorem decode_encode_typed (typed : TypedInst inst) :
    ∃ bytes, encodeInstruction inst = some (bytes, []) ∧
      getInstruction bytes = some ⟨inst.opcode, decodedOperands inst⟩ := by
  have formed := (sound_record typed.disassemblable).1
  have bounded := Layout.encode_lt formed (varValue inst)
  have matched := Layout.pattern_matches_encode formed (varValue inst)
  refine ⟨_, encode_typed typed, ?_⟩
  rw [get_instruction_of_matches typed.disassemblable bounded matched,
    decode_to_mcinst_encoded typed]

/-- A valid operand is typed, and its decoder changes at most its immediate. -/
theorem valid_operand_typed {opNo : Nat} {decl : OperandDecl} (bits : Nat)
    (valid : ValidOperand inst opNo decl) :
    TypedOperand inst opNo decl ∧ (operandSlice inst opNo decl).map (readBack decl.type bits) =
      (operandSlice inst opNo decl).map (wrapImm bits) := by
  have immediate (type : OperandType) {value : Int}
      (present : inst.getOperand opNo = some (.imm value)) :
      ((inst.operands.drop opNo).take 1).map (readBack type bits) =
        ((inst.operands.drop opNo).take 1).map (wrapImm bits) := by
    rw [slice_one present]
    rfl
  have memory (type : OperandType) {base : Register} {offset : Int}
      (first : inst.getOperand opNo = some (.reg base)) (same : base.cls = decodedClass type)
      (second : inst.getOperand (opNo + 1) = some (.imm offset)) :
      ((inst.operands.drop opNo).take 2).map (readBack type bits) =
        ((inst.operands.drop opNo).take 2).map (wrapImm bits) := by
    rw [slice_two first second, List.map_cons, List.map_cons, readBack, ← same]
    rfl
  obtain ⟨name, type⟩ := decl
  cases type with
  | reg cls =>
      obtain ⟨⟨register, present, same⟩, tied⟩ := valid
      subst same
      refine ⟨⟨⟨register, present⟩, tied⟩, ?_⟩
      change ((inst.operands.drop opNo).take 1).map _ = ((inst.operands.drop opNo).take 1).map _
      rw [slice_one present]
      rfl
  | SIMM9OP =>
      obtain ⟨value, present, -⟩ := valid
      exact ⟨⟨value, present⟩, immediate .SIMM9OP present⟩
  | SIMM16OP =>
      obtain ⟨value, present, -⟩ := valid
      exact ⟨⟨value, present⟩, immediate .SIMM16OP present⟩
  | MEMri =>
      obtain ⟨base, offset, first, same, second, -⟩ := valid
      exact ⟨⟨base, offset, first, second⟩, memory .MEMri first same second⟩
  | V16MEMri =>
      obtain ⟨base, offset, first, same, second, -⟩ := valid
      exact ⟨⟨base, offset, first, second⟩, memory .V16MEMri first same second⟩
  | brtarget =>
      obtain ⟨value, present, -⟩ := valid
      exact ⟨⟨value, present⟩, immediate .brtarget present⟩
  | calltarget =>
      obtain ⟨value, present, -⟩ := valid
      exact ⟨⟨value, present⟩, immediate .calltarget present⟩
  | LEAri => exact valid.elim
  | ABSh => exact valid.elim
  | ABSl => exact valid.elim

theorem ValidInst.typed (valid : ValidInst inst) : TypedInst inst where
  disassemblable := valid.disassemblable
  operands := fun entry member =>
    (valid_operand_typed 0 (valid.operands entry member)).1

theorem decoded_operands_valid (valid : ValidInst inst) :
    decodedOperands inst = inst.operands.map (wrapImm (decodedImmBits inst.opcode)) := by
  have count : inst.operands.length = 0 + (inst.opcode.operandList.map fun decl =>
      decl.type.numMIOperands).sum := by
    rw [valid.count, Nat.zero_add]
  have whole := slices_flatten inst (wrapImm (decodedImmBits inst.opcode)) _ 0 count
  rw [List.drop_zero] at whole
  rw [← whole, decodedOperands]
  congr 1
  apply List.map_congr_left
  intro entry member
  exact (valid_operand_typed _ (valid.operands entry member)).2

/-- The bytes of a valid instruction decode to the instruction whose immediates are
reduced to the bits that their decoders keep. -/
theorem decode_encode (valid : ValidInst inst) :
    ∃ bytes, encodeInstruction inst = some (bytes, []) ∧
      getInstruction bytes =
        some ⟨inst.opcode, inst.operands.map (wrapImm (decodedImmBits inst.opcode))⟩ := by
  rw [← decoded_operands_valid valid]
  exact decode_encode_typed valid.typed

end RoundTrip

/-- The instruction itself, its move immediate reduced modulo `2 ^ 16` if it has one. -/
def reduceMoveImm (inst : MCInst) : MCInst :=
  match inst.opcode with
  | .moveImm _ _ => ⟨inst.opcode, inst.operands.map (wrapImm 16)⟩
  | _ => inst

/-- The offset of a format FJ jump is inside the eighteen bits its decoder extends. -/
def JumpOffsetDecodes (inst : MCInst) : Prop :=
  match inst.opcode with
  | .JMP | .JMPSR_OFF => ∀ offset, inst.getOperand 0 = some (.imm offset) → SignedFits 18 offset
  | _ => True

section Unchanged

variable {inst : MCInst}

theorem wrap_imm_eq_self_iff {bits : Nat} (positive : 0 < bits) (value : Int) :
    wrapImm bits (.imm value) = .imm value ↔ SignedFits bits value := by
  rw [wrapImm, MCOperand.imm.injEq, bmod_eq_self_iff positive]

theorem slice_unchanged (valid : ValidInst inst) (notMove : decodedImmBits inst.opcode ≠ 16)
    (narrow : branchBits inst.opcode = 18) {entry : Nat × OperandDecl}
    (member : entry ∈ miOperands inst.opcode) :
    (operandSlice inst entry.1 entry.2).map (wrapImm (decodedImmBits inst.opcode)) =
      operandSlice inst entry.1 entry.2 := by
  obtain ⟨-, -, bits, -⟩ := (sound_record valid.disassemblable).2.1 entry member
  have operand := valid.operands entry member
  obtain ⟨opNo, name, type⟩ := entry
  have memory (cls : RegClass) (validMemory : ValidMemory inst opNo cls)
      (width : decodedImmBits inst.opcode = 9) :
      ((inst.operands.drop opNo).take 2).map (wrapImm (decodedImmBits inst.opcode)) =
        (inst.operands.drop opNo).take 2 := by
    obtain ⟨base, offset, first, -, second, fits⟩ := validMemory
    rw [slice_two first second, width, List.map_cons, List.map_cons,
      (wrap_imm_eq_self_iff (by decide) offset).mpr fits]
    rfl
  have immediate (value : Int) (present : inst.getOperand opNo = some (.imm value)) (width : Nat)
      (same : decodedImmBits inst.opcode = width) (positive : 0 < width)
      (fits : SignedFits width value) :
      ((inst.operands.drop opNo).take 1).map (wrapImm (decodedImmBits inst.opcode)) =
        (inst.operands.drop opNo).take 1 := by
    rw [slice_one present, same, List.map_cons, (wrap_imm_eq_self_iff positive value).mpr fits,
      List.map_nil]
  cases type with
  | reg cls =>
      obtain ⟨⟨register, present, -⟩, -⟩ := operand
      change ((inst.operands.drop opNo).take 1).map _ = (inst.operands.drop opNo).take 1
      rw [slice_one present]
      rfl
  | SIMM9OP =>
      obtain ⟨value, present, fits⟩ := operand
      exact immediate value present 9 (by simpa [immBits, eq_comm] using bits) (by decide) fits
  | SIMM16OP => simp [immBits, Ne.symm notMove] at bits
  | MEMri => exact memory .GPR32 operand (by simpa [immBits, eq_comm] using bits)
  | V16MEMri => exact memory .VR512W operand (by simpa [immBits, eq_comm] using bits)
  | brtarget =>
      obtain ⟨value, present, fits⟩ := operand
      rw [narrow] at fits
      exact immediate value present 18 (by simpa [immBits, eq_comm] using bits) (by decide) fits
  | calltarget =>
      obtain ⟨value, present, fits⟩ := operand
      rw [narrow] at fits
      exact immediate value present 18 (by simpa [immBits, eq_comm] using bits) (by decide) fits
  | LEAri => exact operand.elim
  | ABSh => exact operand.elim
  | ABSl => exact operand.elim

theorem operands_unchanged (valid : ValidInst inst) (notMove : decodedImmBits inst.opcode ≠ 16)
    (narrow : branchBits inst.opcode = 18) :
    inst.operands.map (wrapImm (decodedImmBits inst.opcode)) = inst.operands := by
  have count : inst.operands.length = 0 + (inst.opcode.operandList.map fun decl =>
      decl.type.numMIOperands).sum := by
    rw [valid.count, Nat.zero_add]
  have changed := slices_flatten inst (wrapImm (decodedImmBits inst.opcode)) _ 0 count
  have kept := slices_flatten inst id _ 0 count
  rw [List.drop_zero] at changed kept
  rw [← changed]
  rw [List.map_id] at kept
  conv_rhs => rw [← kept]
  congr 1
  apply List.map_congr_left
  intro entry member
  rw [slice_unchanged valid notMove narrow member, List.map_id]

/-- A wide jump has its offset as only operand, and keeps it if eighteen bits hold it. -/
theorem jump_unchanged_iff (valid : ValidInst inst) {type : OperandType}
    (decls : inst.opcode.operandList = [⟨.addr, type⟩])
    (jump : type = .brtarget ∨ type = .calltarget) :
    inst.operands.map (wrapImm 18) = inst.operands ↔
      ∀ offset, inst.getOperand 0 = some (.imm offset) → SignedFits 18 offset := by
  have operand := valid.operands (0, ⟨.addr, type⟩) (by simp [miOperands, decls, numberOperands])
  have count := valid.count
  obtain ⟨offset, present⟩ : ∃ offset, inst.getOperand 0 = some (.imm offset) := by
    rcases jump with rfl | rfl
    · obtain ⟨offset, present, -⟩ := operand
      exact ⟨offset, present⟩
    · obtain ⟨offset, present, -⟩ := operand
      exact ⟨offset, present⟩
  have single : inst.operands.length = 1 := by
    rw [count, decls]
    rcases jump with rfl | rfl <;> rfl
  have whole : inst.operands = [.imm offset] := by
    rw [← slice_one present, List.drop_zero, List.take_of_length_le (by omega)]
  rw [whole, List.map_cons, List.map_nil, List.cons.injEq,
    wrap_imm_eq_self_iff (by decide) offset]
  constructor
  · rintro ⟨fits, -⟩ other otherPresent
    rw [present] at otherPresent
    cases otherPresent
    exact fits
  · intro all
    exact ⟨all offset present, rfl⟩

theorem decoded_eq_reduced_iff (valid : ValidInst inst) :
    (⟨inst.opcode, inst.operands.map (wrapImm (decodedImmBits inst.opcode))⟩ : MCInst) =
      reduceMoveImm inst ↔ JumpOffsetDecodes inst := by
  have usual (notMove : decodedImmBits inst.opcode ≠ 16) (narrow : branchBits inst.opcode = 18) :
      (⟨inst.opcode, inst.operands.map (wrapImm (decodedImmBits inst.opcode))⟩ : MCInst) =
        inst := by
    rw [operands_unchanged valid notMove narrow]
  obtain ⟨opcode, operands⟩ := inst
  cases opcode with
  | moveImm op variant => exact ⟨fun _ => trivial, fun _ => rfl⟩
  | JMP =>
      simp only [reduceMoveImm, JumpOffsetDecodes, decodedImmBits, MCInst.mk.injEq, true_and]
      exact jump_unchanged_iff valid
        (show Opcode.JMP.operandList = [⟨.addr, .brtarget⟩] from rfl) (Or.inl rfl)
  | JMPSR_OFF =>
      simp only [reduceMoveImm, JumpOffsetDecodes, decodedImmBits, MCInst.mk.injEq, true_and]
      exact jump_unchanged_iff valid
        (show Opcode.JMPSR_OFF.operandList = [⟨.addr, .calltarget⟩] from rfl) (Or.inr rfl)
  | _ => exact ⟨fun _ => trivial, fun _ => usual (by simp [decodedImmBits]) rfl⟩

end Unchanged

/-- The four bytes of the instruction decode to the instruction. -/
def RoundTrips (inst : MCInst) : Prop :=
  ∃ bytes, encodeInstruction inst = some (bytes, []) ∧ bytes.length = 4 ∧
    getInstruction bytes = some (reduceMoveImm inst)

theorem encode_instruction_length {inst : MCInst} {bytes : List Byte} {fixups : List MCFixup}
    (encoded : encodeInstruction inst = some (bytes, fixups)) : bytes.length = 4 := by
  rw [encodeInstruction, Option.map_eq_some_iff] at encoded
  obtain ⟨code, -, same⟩ := encoded
  rw [← (Prod.mk.inj same).1, bytes_length]

/-- A valid instruction survives the round trip exactly if it is not a wide jump whose
offset needs more than eighteen bits; no word of its record belongs to another record. -/
theorem encode_decode_round_trip_iff (inst : MCInst) (valid : ValidInst inst) :
    (RoundTrips inst ↔ JumpOffsetDecodes inst) ∧
      ∀ other ∈ decoderTable32, other ≠ inst.opcode → ∀ word,
        inst.opcode.layout.pattern.Matches word → ¬ other.layout.pattern.Matches word := by
  constructor
  · obtain ⟨bytes, encoded, decoded⟩ := decode_encode valid
    rw [← decoded_eq_reduced_iff valid]
    constructor
    · rintro ⟨found, foundEncoded, -, foundDecoded⟩
      rw [encoded] at foundEncoded
      obtain ⟨same, -⟩ := Prod.mk.inj (Option.some.inj foundEncoded)
      rw [← same, decoded] at foundDecoded
      exact Option.some.inj foundDecoded
    · intro same
      exact ⟨bytes, encoded, encode_instruction_length encoded, by rw [decoded, same]⟩
  · intro other otherListed different word matched otherMatched
    have listed := (mem_decoder_table_iff inst.opcode).mpr valid.disassemblable
    exact different (decoder_table_entry_unique otherListed listed otherMatched matched)

/-- `beqz $s5, -4`. -/
def beqzBack : MCInst := ⟨.BEQZ, [.reg (sReg 5), .imm (-4)]⟩

theorem valid_beqz_back : ValidInst beqzBack where
  disassemblable := rfl
  count := rfl
  operands := by
    simp [miOperands, numberOperands, beqzBack, Opcode.operandList, ValidOperand,
      MCInst.getOperand, OperandType.numMIOperands, sReg, tiedTo, SignedFits, branchBits]

theorem beqz_back_round_trips : RoundTrips beqzBack :=
  (encode_decode_round_trip_iff beqzBack valid_beqz_back).1.mpr trivial

/-- `jmp 131072`, the first forward offset that eighteen signed bits do not hold. -/
def jmpFar : MCInst := ⟨.JMP, [.imm 131072]⟩

theorem valid_jmp_far : ValidInst jmpFar where
  disassemblable := rfl
  count := rfl
  operands := by
    simp [miOperands, numberOperands, jmpFar, Opcode.operandList, ValidOperand,
      MCInst.getOperand, SignedFits, branchBits]

theorem jmp_far_does_not_round_trip : ValidInst jmpFar ∧ ¬ RoundTrips jmpFar := by
  refine ⟨valid_jmp_far, ?_⟩
  rintro ⟨bytes, encoded, -, decoded⟩
  obtain ⟨found, foundEncoded, foundDecoded⟩ := decode_encode valid_jmp_far
  rw [encoded] at foundEncoded
  obtain ⟨same, -⟩ := Prod.mk.inj (Option.some.inj foundEncoded)
  rw [← same, decoded] at foundDecoded
  revert foundDecoded
  decide

end NaplesPU.EncodeDecode
