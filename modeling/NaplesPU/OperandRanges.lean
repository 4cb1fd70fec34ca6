import NaplesPU.AliasEncoding
import NaplesPU.AsmMatching

/-!
When an accepted statement is read back. The matcher compares no constant with
the width of its field and no base register with the class its decoder takes, so
a statement is read back exactly if its operands happen to fit. The records that
only the assembler has encode as records of the decoder table.
-/

namespace NaplesPU.OperandRanges

open BitLayout ByteMemory RegisterInfo InstrFormats InstrInfo DecoderTable FixupKinds
open MCCodeEmitter Disassembler EncodeDecode TwosComplement
open AsmLexer AsmParser AsmStatements AsmMatching AliasEncoding

/-- The moves of an immediate, which is a pattern of sixteen bits. -/
def moveImmMnemonics : List String :=
  ["moveil", "moveih", "movei", "moveil.m", "moveih.m", "movei.m"]

def branchMnemonics : List String := ["jmp", "jmpsr", "beqz", "bnez"]

/-- The gathers and scatters, which take a vector of addresses. -/
def gatherMnemonics : List String :=
  ["loadg32_scratchpad", "loadg32_scratchpad.m", "stores32_scratchpad", "stores32_scratchpad.m"]

section Values

variable (mnemonic : String)

/-- The value of a written literal, that of a move reduced to its sixteen bits. -/
def literalValue (number : Literal) : Int :=
  if mnemonic ∈ moveImmMnemonics then number.value.bmod (2 ^ 16) else number.value

def operandValues : WrittenOperand → List MCOperand
  | .register name => [.reg name]
  | .literal number => [.imm (literalValue mnemonic number)]
  | .memory offset base => [.reg base, .imm (offsetValue offset)]

end Values

/-- The operand values of a statement. The mnemonics of the mask register stand for moves
from it and to it. -/
def statementValues (statement : Statement) : List MCOperand :=
  let written := statement.operands.flatMap (operandValues statement.mnemonic)
  if statement.mnemonic = "read_mr" then written ++ [.reg MR_REG]
  else if statement.mnemonic = "write_mr" then .reg MR_REG :: written
  else written

/-- The operands of a decoded instruction that its text names: all but the tied one, which
comes last. -/
def namedOperands (inst : MCInst) : List MCOperand :=
  inst.operands.take (inst.opcode.asmOperands.map fun decl => decl.type.numMIOperands).sum

/-- The statement emitted one word, without a fixup, that decodes to what is written. -/
def ReadsBack (statement : Statement) (emitted : List Encoded) : Prop :=
  ∃ bytes decoded, emitted = [(bytes, [])] ∧ getInstruction bytes = some decoded ∧
    namedOperands decoded = statementValues statement

section Conditions

variable (mnemonic : String)

def literalBits : Nat :=
  if mnemonic ∈ moveImmMnemonics then 16 else if mnemonic ∈ branchMnemonics then 18 else 9

def baseClass : RegClass := if mnemonic ∈ gatherMnemonics then .VR512W else .GPR32

/-- The memory operand is one that the word holds: the address of `leah` and `leal` is not
encoded at all, and a negative offset of `_lea` sets all bits of the base register. -/
def MemoryFits (offset : Int) (base : Register) : Prop :=
  mnemonic ≠ "leah" ∧ mnemonic ≠ "leal" ∧ SignedFits 9 offset ∧ base.cls = baseClass mnemonic ∧
    (mnemonic = "_lea" → 0 ≤ offset ∨ base = PC_REG)

def Fits : WrittenOperand → Prop
  | .register _ => True
  | .literal number =>
      mnemonic ∈ moveImmMnemonics ∨ SignedFits (literalBits mnemonic) number.value
  | .memory offset base => MemoryFits mnemonic (offsetValue offset) base

instance (offset : Int) (base : Register) : Decidable (MemoryFits mnemonic offset base) :=
  inferInstanceAs (Decidable (_ ∧ _))

instance : (operand : WrittenOperand) → Decidable (Fits mnemonic operand)
  | .register _ => inferInstanceAs (Decidable True)
  | .literal _ => inferInstanceAs (Decidable (_ ∨ _))
  | .memory _ _ => inferInstanceAs (Decidable (MemoryFits _ _ _))

end Conditions

def SoundMnemonic (opcode : Opcode) : Prop :=
  opcode.mnemonic ∉ ["read_mr", "write_mr", "_lea", "leah", "leal"] ∧
    ∀ decl ∈ opcode.asmOperands,
      (decl.type ∈ [OperandType.MEMri, .V16MEMri] →
        decodedImmBits opcode = 9 ∧ decodedClass decl.type = baseClass opcode.mnemonic) ∧
      (decl.type ∈ [OperandType.SIMM9OP, .SIMM16OP, .brtarget, .calltarget] →
        decodedImmBits opcode = literalBits opcode.mnemonic)

instance (opcode : Opcode) : Decidable (SoundMnemonic opcode) :=
  inferInstanceAs (Decidable (_ ∧ _))

theorem sound_mnemonic : ∀ opcode ∈ decoderTable32, SoundMnemonic opcode := by
  decide +kernel

section Operands

theorem bmod_wrap_constant (value : Int) {bits : Nat} (narrow : bits ≤ 64) :
    (wrapConstant value).bmod (2 ^ bits) = value.bmod (2 ^ bits) := by
  rw [wrapConstant]
  exact_mod_cast Int.bmod_bmod_of_dvd (Nat.pow_dvd_pow 2 narrow)

theorem reclassed_eq_iff (register : Register) (cls : RegClass) :
    (⟨cls, register.encoding⟩ : Register) = register ↔ register.cls = cls := by
  obtain ⟨own, encoding⟩ := register
  simp [eq_comm]

theorem literal_bits_bounds (mnemonic : String) :
    0 < literalBits mnemonic ∧ literalBits mnemonic ≤ 64 := by
  unfold literalBits
  split
  · decide
  · split <;> decide

variable {opcode : Opcode} {decl : OperandDecl} {operand : WrittenOperand}

theorem literal_read_back_iff (mnemonic : String) (number : Literal) :
    number.value.bmod (2 ^ literalBits mnemonic) = literalValue mnemonic number ↔
      Fits mnemonic (.literal number) := by
  by_cases move : mnemonic ∈ moveImmMnemonics
  · simp [Fits, literalValue, literalBits, move]
  · rw [literalValue, if_neg move, bmod_eq_self_iff (literal_bits_bounds mnemonic).1]
    simp [Fits, move]

theorem operand_read_back_iff (listed : opcode ∈ decoderTable32)
    (own : decl ∈ opcode.asmOperands) (matched : Matches decl operand) :
    (machineOperands operand).map (readBack decl.type (decodedImmBits opcode)) =
      operandValues opcode.mnemonic operand ↔ Fits opcode.mnemonic operand := by
  obtain ⟨other, sound⟩ := sound_mnemonic opcode listed
  obtain ⟨memoryBits, numberBits⟩ := sound decl own
  have relative := ((sound_text opcode listed).2.2 decl own).2
  have shape := matched_operand matched
  obtain ⟨varName, type⟩ := decl
  have number (literal : Literal) (bits : decodedImmBits opcode = literalBits opcode.mnemonic) :
      [MCOperand.imm ((wrapConstant literal.value).bmod (2 ^ decodedImmBits opcode))] =
        operandValues opcode.mnemonic (.literal literal) ↔
          Fits opcode.mnemonic (.literal literal) := by
    rw [bits, bmod_wrap_constant _ (literal_bits_bounds _).2, operandValues, ← literal_read_back_iff]
    simp
  have memory (offset : Option Literal) (base : Register) (cls : RegClass)
      (bits : decodedImmBits opcode = 9) (same : cls = baseClass opcode.mnemonic) :
      [MCOperand.reg ⟨cls, base.encoding⟩,
        .imm ((wrapConstant (offsetValue offset)).bmod (2 ^ decodedImmBits opcode))] =
        operandValues opcode.mnemonic (.memory offset base) ↔
          Fits opcode.mnemonic (.memory offset base) := by
    have fits := bmod_eq_self_iff (show 0 < 9 by decide) (offsetValue offset)
    simp only [List.mem_cons, List.not_mem_nil, or_false, not_or] at other
    rw [bits, bmod_wrap_constant _ (by decide), operandValues, Fits, MemoryFits, ← fits, ← same,
      List.cons.injEq, List.cons.injEq, MCOperand.reg.injEq, MCOperand.imm.injEq,
      reclassed_eq_iff]
    simp [other, and_comm]
  cases type with
  | reg cls =>
      obtain ⟨name, rfl, same⟩ := shape
      have kept : (⟨cls, name.encoding⟩ : Register) = name := (reclassed_eq_iff name cls).mpr same
      simp [machineOperands, readBack, decodedClass, operandValues, Fits, kept]
  | SIMM9OP | SIMM16OP | brtarget | calltarget =>
      obtain ⟨literal, rfl⟩ := shape
      exact number literal (numberBits (by simp))
  | MEMri =>
      obtain ⟨offset, base, rfl⟩ := shape
      obtain ⟨bits, same⟩ := memoryBits (by simp)
      exact memory offset base .GPR32 bits same
  | V16MEMri =>
      obtain ⟨offset, base, rfl⟩ := shape
      obtain ⟨bits, same⟩ := memoryBits (by simp)
      exact memory offset base .VR512W bits same
  | LEAri => exact absurd rfl relative.1
  | ABSh => exact absurd rfl relative.2.1
  | ABSl => exact absurd rfl relative.2.2

end Operands

section Records

variable {decls : List OperandDecl} {operands : List WrittenOperand}

/-- Lists made of pieces of the same lengths are equal piece by piece. -/
theorem zip_pieces_eq_iff {kept : OperandDecl → WrittenOperand → List MCOperand}
    {wanted : WrittenOperand → List MCOperand}
    (lengths : List.Forall₂ (fun decl operand => (kept decl operand).length =
      (wanted operand).length) decls operands) :
    (decls.zip operands).flatMap (fun entry => kept entry.1 entry.2) = operands.flatMap wanted ↔
      ∀ entry ∈ decls.zip operands, kept entry.1 entry.2 = wanted entry.2 := by
  induction lengths with
  | nil => simp
  | @cons decl operand _ _ length _ induction =>
      rw [List.zip_cons_cons, List.flatMap_cons, List.flatMap_cons, List.forall_mem_cons,
        ← induction]
      constructor
      · intro same
        exact List.append_inj same length
      · rintro ⟨head, tail⟩
        rw [head, tail]

theorem operand_values_length (mnemonic : String) (operand : WrittenOperand) :
    (operandValues mnemonic operand).length = (machineOperands operand).length := by
  cases operand <;> rfl

theorem machine_operands_sum
    (relative : ∀ decl ∈ decls, decl.type ≠ .ABSh ∧ decl.type ≠ .ABSl)
    (matched : List.Forall₂ Matches decls operands)
    (change : OperandDecl → MCOperand → MCOperand) :
    ((decls.zip operands).flatMap fun entry =>
      (machineOperands entry.2).map (change entry.1)).length =
        (decls.map fun decl => decl.type.numMIOperands).sum := by
  induction matched with
  | nil => rfl
  | @cons decl operand decls operands head _ induction =>
      have own := machine_operands_length head (relative decl (by simp))
      have others := induction fun other member => relative other (by simp [member])
      rw [List.zip_cons_cons, List.flatMap_cons, List.length_append, List.length_map, own,
        List.map_cons, List.sum_cons, others]

theorem record_named_iff {opcode : Opcode} (listed : opcode ∈ decoderTable32)
    (matched : List.Forall₂ Matches opcode.asmOperands operands) (first : MCOperand) :
    namedOperands ⟨opcode, decodedOperands ⟨opcode, (recordParts opcode operands first).flatten⟩⟩ =
        operands.flatMap (operandValues opcode.mnemonic) ↔
      ∀ operand ∈ operands, Fits opcode.mnemonic operand := by
  obtain ⟨copies, decoded⟩ := decoded_record first listed matched
  have named := machine_operands_sum (fun decl own => ((sound_text opcode listed).2.2 decl own).2.2)
    matched fun decl => readBack decl.type (decodedImmBits opcode)
  have lengths : List.Forall₂ (fun decl operand =>
      ((machineOperands operand).map (readBack decl.type (decodedImmBits opcode))).length =
        (operandValues opcode.mnemonic operand).length) opcode.asmOperands operands := by
    apply matched.imp
    intro decl operand _
    rw [List.length_map, operand_values_length]
  rw [namedOperands, decoded, ← named, List.take_left, zip_pieces_eq_iff lengths]
  have paired (decl : OperandDecl) (operand : WrittenOperand)
      (entry : (decl, operand) ∈ opcode.asmOperands.zip operands) :=
    operand_read_back_iff listed (List.of_mem_zip entry).1
      (List.forall₂_zip matched entry)
  constructor
  · intro same operand member
    obtain ⟨decl, entry⟩ := exists_paired matched.length_eq member
    exact (paired decl operand entry).mp (same _ entry)
  · rintro all ⟨decl, operand⟩ entry
    exact (paired decl operand entry).mpr (all operand (List.of_mem_zip entry).2)

end Records

section Emitted

variable {statement : Statement} {emitted : List Encoded}

theorem emitted_by {mnemonic : String} {operands : List NaplesPUOperand}
    (accepted : MatchAndEmitInstruction mnemonic operands = some emitted) :
    ∃ entry built insts,
      (matchTable.find? fun entry =>
        entry.mnemonic = mnemonic && operandsValid entry.classes operands) = some entry ∧
      convertToMCInst entry.operandNames operands [] = some built ∧
      ProcessInstruction entry built = some insts ∧ insts.mapM encodeInstruction = some emitted := by
  rw [MatchAndEmitInstruction, Option.bind_eq_some_iff] at accepted
  obtain ⟨⟨entry, built⟩, matched, processed⟩ := accepted
  obtain ⟨insts, instsOf, encoded⟩ := Option.bind_eq_some_iff.mp processed
  rw [MatchInstructionImpl] at matched
  split at matched
  · cases matched
  · obtain ⟨found, foundEntry, converted⟩ := Option.bind_eq_some_iff.mp matched
    obtain ⟨list, convertedList, same⟩ := Option.map_eq_some_iff.mp converted
    obtain ⟨rfl, rfl⟩ := Prod.mk.inj same
    exact ⟨_, _, insts, foundEntry, convertedList, instsOf, encoded⟩

/-- The records of the decoder table come first in the matcher. -/
theorem found_entry {accepts : Matchable → Bool} {entry : Matchable}
    (found : matchTable.find? accepts = some entry) :
    (∃ opcode ∈ decoderTable32, entry = .record opcode) ∨
      (∀ opcode ∈ decoderTable32, accepts (.record opcode) = false) ∧
        entry ∈ asmParserRecords.map .record ++ [.LOAD_EFFECTIVE_ADDR_SYM] := by
  rw [matchTable, List.find?_append] at found
  cases first : (decoderTable32.map Matchable.record).find? accepts with
  | some other =>
      rw [first, Option.some_or] at found
      obtain rfl := Option.some.inj found
      obtain ⟨opcode, listed, rfl⟩ := List.mem_map.mp (List.mem_of_find?_eq_some first)
      exact Or.inl ⟨opcode, listed, rfl⟩
  | none =>
      rw [first, Option.none_or] at found
      refine Or.inr ⟨fun opcode listed => ?_, List.mem_of_find?_eq_some found⟩
      have none := List.find?_eq_none.mp first (.record opcode)
        (List.mem_map.mpr ⟨opcode, listed, rfl⟩)
      simpa using none

theorem reads_back_as {inst target : MCInst} (typed : TypedInst target)
    (same : encodeInstruction inst = encodeInstruction target)
    (encoded : [inst].mapM encodeInstruction = some emitted) :
    ReadsBack statement emitted ↔
      namedOperands ⟨target.opcode, decodedOperands target⟩ = statementValues statement := by
  obtain ⟨bytes, word, decoded⟩ := decode_encode_typed typed
  have single : emitted = [(bytes, [])] := by
    rw [List.mapM_cons, same, word] at encoded
    exact (Option.some.inj encoded).symm
  subst single
  constructor
  · rintro ⟨found, inst, only, foundDecoded, named⟩
    obtain ⟨rfl, -⟩ := Prod.mk.inj (List.cons.inj only).1
    rw [decoded] at foundDecoded
    rwa [Option.some.inj foundDecoded]
  · intro named
    exact ⟨bytes, _, rfl, decoded, named⟩

end Emitted

section Entries

variable {statement : Statement} {emitted : List Encoded} {built : List MCOperand}

theorem record_reads_back_iff {opcode : Opcode} (listed : opcode ∈ decoderTable32)
    (same : opcode.mnemonic = statement.mnemonic)
    (matched : List.Forall₂ Matches opcode.asmOperands statement.operands)
    (converted : convertToMCInst (opcode.operandList.map OperandDecl.name)
      (statement.operands.map WrittenOperand.parsed) [] = some built)
    (encoded : [⟨opcode, built⟩].mapM encodeInstruction = some emitted) :
    ReadsBack statement emitted ↔
      ∀ operand ∈ statement.operands, Fits statement.mnemonic operand := by
  obtain ⟨first, parts, copied⟩ := convert_record listed matched
  rw [converted] at parts
  obtain rfl := Option.some.inj parts
  have ordinary := (sound_mnemonic opcode listed).1
  simp only [List.mem_cons, List.not_mem_nil, or_false, not_or, same] at ordinary
  have values : statementValues statement =
      statement.operands.flatMap (operandValues opcode.mnemonic) := by
    rw [statementValues, if_neg ordinary.1, if_neg ordinary.2.1, same]
  rw [reads_back_as (typed_record first listed matched copied) rfl encoded, values,
    record_named_iff listed matched first, same]

theorem matched_scalar {varName : Var}
    (matched : List.Forall₂ Matches [⟨varName, .reg .GPR32⟩] statement.operands) :
    ∃ name : Register, statement.operands = [.register name] ∧ name.cls = .GPR32 := by
  generalize statement.operands = operands at matched
  cases matched with
  | cons first rest =>
      cases rest
      obtain ⟨name, rfl, scalar⟩ := matched_operand first
      exact ⟨name, rfl, scalar⟩

theorem matched_scalar_memory {first second : Var} {type : OperandType}
    (address : matchClass type = .MCK_Mem)
    (matched : List.Forall₂ Matches [⟨first, .reg .GPR32⟩, ⟨second, type⟩] statement.operands) :
    ∃ (name : Register) (offset : Option Literal) (base : Register),
      statement.operands = [.register name, .memory offset base] ∧ name.cls = .GPR32 := by
  generalize statement.operands = operands at matched
  cases matched with
  | cons head tail =>
      cases tail with
      | cons memory rest =>
          cases rest
          obtain ⟨name, rfl, scalar⟩ := matched_operand head
          rename_i operand
          rw [Matches, address] at memory
          cases operand with
          | register other => exact absurd memory Bool.false_ne_true
          | literal number => exact absurd memory Bool.false_ne_true
          | memory offset base => exact ⟨name, offset, base, rfl, scalar⟩

theorem convert_dst_addr (name : Register) (operand : WrittenOperand) :
    convertToMCInst [.dst, .addr] [(WrittenOperand.register name).parsed, operand.parsed] [] =
      some (.reg name :: machineOperands operand) := by
  simp only [convertToMCInst, tiedTo, add_operands, machineOperands, Option.isSome_none,
    Bool.false_eq_true, if_false, Option.bind_some, List.nil_append, List.cons_append]

theorem convert_dst_tied_addr (name : Register) (operand : WrittenOperand) :
    convertToMCInst [.dst, .addrh, .addr]
        [(WrittenOperand.register name).parsed, operand.parsed] [] =
      some (.reg name :: .reg name :: machineOperands operand) := by
  simp only [convertToMCInst, tiedTo, add_operands, machineOperands, Option.isSome_none,
    Option.isSome_some, Bool.false_eq_true, if_false, if_true, Option.bind_some, List.nil_append,
    List.cons_append, List.getElem?_cons_zero]

theorem mask_move_reads_back {inst : MCInst} {dst src : Register}
    (word : encodeInstruction inst = encodeInstruction ⟨.MOVE_SS_32, [.reg dst, .reg src]⟩)
    (scalarDst : dst.cls = .GPR32) (scalarSrc : src.cls = .GPR32)
    (values : statementValues statement = [.reg dst, .reg src])
    (encoded : [inst].mapM encodeInstruction = some emitted) : ReadsBack statement emitted := by
  rw [reads_back_as (typed_move dst src) word encoded, values]
  change [MCOperand.reg ⟨.GPR32, dst.encoding⟩, .reg ⟨.GPR32, src.encoding⟩] = _
  rw [(reclassed_eq_iff dst .GPR32).mpr scalarDst, (reclassed_eq_iff src .GPR32).mpr scalarSrc]

/-- The halves of an address keep nothing of a memory operand. -/
theorem half_never_reads_back {inst : MCInst} {op : MoveImm} {name : Register}
    (half : statement.mnemonic = "leah" ∨ statement.mnemonic = "leal")
    {offset : Option Literal} {base : Register}
    (written : statement.operands = [.register name, .memory offset base])
    (word : encodeInstruction inst = encodeInstruction ⟨.moveImm op .SI, [.reg name, .imm 0]⟩)
    (encoded : [inst].mapM encodeInstruction = some emitted) :
    ¬ ReadsBack statement emitted ∧
      ¬ ∀ operand ∈ statement.operands, Fits statement.mnemonic operand := by
  constructor
  · have other : statement.mnemonic ≠ "read_mr" ∧ statement.mnemonic ≠ "write_mr" := by
      rcases half with same | same <;> simp [same]
    rw [reads_back_as (typed_move_imm op name 0) word encoded, statementValues, if_neg other.1,
      if_neg other.2, written]
    change ¬ [MCOperand.reg ⟨.GPR32, name.encoding⟩, .imm ((0 : Int).bmod (2 ^ 16))] =
      [.reg name, .reg base, .imm (offsetValue offset)]
    simp
  · intro all
    have fits := all (.memory offset base) (by simp [written])
    rcases half with same | same
    · exact fits.1 same
    · exact fits.2.1 same

theorem lea_reads_back_iff (same : statement.mnemonic = "_lea") {name base : Register}
    {offset : Option Literal} (scalar : name.cls = .GPR32)
    (written : statement.operands = [.register name, .memory offset base])
    (encoded : [⟨.LOAD_EFFECTIVE_ADDR,
      [.reg name, .reg base, .imm (wrapConstant (offsetValue offset))]⟩].mapM encodeInstruction =
        some emitted) :
    ReadsBack statement emitted ↔
      ∀ operand ∈ statement.operands, Fits statement.mnemonic operand := by
  have kept := (reclassed_eq_iff name .GPR32).mpr scalar
  rw [reads_back_as (typed_add_imm name (leaBase base (wrapConstant (offsetValue offset)))
    (wrapConstant (offsetValue offset))) (encode_lea base _ name) encoded, statementValues,
    if_neg (by rw [same]; decide), if_neg (by rw [same]; decide), written, same]
  change [MCOperand.reg ⟨.GPR32, name.encoding⟩, .reg (leaBase base _),
    .imm ((wrapConstant (offsetValue offset)).bmod (2 ^ 9))] =
      [.reg name, .reg base, .imm (offsetValue offset)] ↔ _
  have wrapped : SignedFits 9 (offsetValue offset) →
      wrapConstant (offsetValue offset) = offsetValue offset := by
    rintro ⟨low, high⟩
    exact (bmod_eq_self_iff (show 0 < 64 by decide) _).mpr ⟨by omega, by omega⟩
  have fits := bmod_eq_self_iff (show 0 < 9 by decide) (offsetValue offset)
  rw [kept, bmod_wrap_constant _ (by decide)]
  simp only [List.cons.injEq, MCOperand.reg.injEq, MCOperand.imm.injEq, true_and, and_true,
    List.forall_mem_cons, Fits, MemoryFits, fits]
  constructor
  · rintro ⟨alone, bits⟩
    rw [wrapped bits, lea_base_eq_iff base bits] at alone
    simpa [bits, baseClass, gatherMnemonics] using alone
  · rintro ⟨⟨-, -, bits, scalarBase, direction⟩, -⟩
    refine ⟨?_, bits⟩
    rw [wrapped bits, lea_base_eq_iff base bits]
    exact ⟨by simpa [baseClass, gatherMnemonics] using scalarBase, direction trivial⟩

/-- The pseudo instruction is not matched with a label here, so it is not processed. -/
theorem sym_operands {operands : List WrittenOperand}
    (valid : operandsValid Matchable.LOAD_EFFECTIVE_ADDR_SYM.classes
      (operands.map WrittenOperand.parsed))
    (converted : convertToMCInst Matchable.LOAD_EFFECTIVE_ADDR_SYM.operandNames
      (operands.map WrittenOperand.parsed) [] = some built) :
    ∃ dst value, built = [.reg dst, .imm value] := by
  have matched := @matches_of_valid [⟨.dst, .reg .GPR32⟩, ⟨.addr, .SIMM9OP⟩] operands valid
  cases matched with
  | cons head tail =>
      cases tail with
      | cons label rest =>
          cases rest
          obtain ⟨name, rfl, -⟩ := matched_operand head
          obtain ⟨number, rfl⟩ := matched_operand label
          have built := (convert_dst_addr name (.literal number)).symm.trans converted
          exact ⟨_, _, (Option.some.inj built).symm⟩

theorem entry_reads_back_iff {entry : Matchable} {insts : List MCInst}
    (found : (matchTable.find? fun entry => entry.mnemonic = statement.mnemonic &&
      operandsValid entry.classes (statement.operands.map WrittenOperand.parsed)) = some entry)
    (converted : convertToMCInst entry.operandNames
      (statement.operands.map WrittenOperand.parsed) [] = some built)
    (processed : ProcessInstruction entry built = some insts)
    (encoded : insts.mapM encodeInstruction = some emitted) :
    ReadsBack statement emitted ↔
      ∀ operand ∈ statement.operands, Fits statement.mnemonic operand := by
  have matchedBy := List.find?_some found
  rw [Bool.and_eq_true, decide_eq_true_iff] at matchedBy
  obtain ⟨same, valid⟩ := matchedBy
  have record {opcode : Opcode} (this : entry = .record opcode) :
      opcode.mnemonic = statement.mnemonic ∧
        List.Forall₂ Matches opcode.asmOperands statement.operands ∧
        convertToMCInst (opcode.operandList.map OperandDecl.name)
          (statement.operands.map WrittenOperand.parsed) [] = some built ∧
        [⟨opcode, built⟩].mapM encodeInstruction = some emitted := by
    subst this
    obtain rfl := Option.some.inj processed
    exact ⟨same, matches_of_valid valid, converted, encoded⟩
  -- An unmasked move of the same operand kinds stands before a masked one.
  have shadowed {opcode : Opcode} (this : entry = .record opcode) (earlier : Opcode)
      (listed : earlier ∈ decoderTable32) (kinds : (Matchable.record earlier).classes =
        (Matchable.record opcode).classes) (text : earlier.mnemonic = opcode.mnemonic)
      (unmatched : ∀ opcode ∈ decoderTable32, (decide (opcode.mnemonic = statement.mnemonic) &&
        operandsValid (Matchable.record opcode).classes
          (statement.operands.map WrittenOperand.parsed)) = false) : False := by
    subst this
    have refused := unmatched earlier listed
    rw [text, kinds] at refused
    have accepted : (decide (opcode.mnemonic = statement.mnemonic) &&
        operandsValid (Matchable.record opcode).classes
          (statement.operands.map WrittenOperand.parsed)) = true :=
      (Bool.and_eq_true _ _).mpr ⟨decide_eq_true same, valid⟩
    rw [accepted] at refused
    cases refused
  rcases found_entry found with ⟨opcode, listed, this⟩ | ⟨unmatched, member⟩
  · obtain ⟨text, matched, parts, word⟩ := record this
    exact record_reads_back_iff listed text matched parts word
  · simp only [asmParserRecords, List.map_cons, List.map_nil, List.cons_append, List.nil_append,
      List.mem_cons, List.not_mem_nil, or_false] at member
    rcases member with this | this | this | this | this | this | this | this
    · exact (shadowed this .MOVE_VS_32 (by decide) rfl rfl unmatched).elim
    · exact (shadowed this .MOVE_VV_32 (by decide) rfl rfl unmatched).elim
    · obtain ⟨text, matched, parts, word⟩ := record this
      obtain ⟨name, written, scalar⟩ := matched_scalar matched
      rw [written] at parts
      obtain rfl := Option.some.inj parts
      have values : statementValues statement = [.reg name, .reg MR_REG] := by
        have named : statement.mnemonic = "read_mr" := text.symm
        rw [statementValues, if_pos named, written]
        rfl
      have back := mask_move_reads_back (encode_read_mr name) scalar rfl values word
      simpa [written, Fits] using back
    · obtain ⟨text, matched, parts, word⟩ := record this
      obtain ⟨name, written, scalar⟩ := matched_scalar matched
      rw [written] at parts
      obtain rfl := Option.some.inj parts
      have values : statementValues statement = [.reg MR_REG, .reg name] := by
        have named : statement.mnemonic = "write_mr" := text.symm
        rw [statementValues, if_neg (by rw [named]; decide), if_pos named, written]
        rfl
      have back := mask_move_reads_back (encode_write_mr name) rfl scalar values word
      simpa [written, Fits] using back
    · obtain ⟨text, matched, parts, word⟩ := record this
      obtain ⟨name, offset, base, written, scalar⟩ := matched_scalar_memory rfl matched
      rw [written] at parts
      obtain rfl := Option.some.inj ((convert_dst_addr name (.memory offset base)).symm.trans parts)
      exact lea_reads_back_iff text.symm scalar written word
    · obtain ⟨text, matched, parts, word⟩ := record this
      obtain ⟨name, offset, base, written, -⟩ := matched_scalar_memory rfl matched
      rw [written] at parts
      obtain rfl := Option.some.inj ((convert_dst_addr name (.memory offset base)).symm.trans parts)
      have never := half_never_reads_back (Or.inl text.symm) written
        (@encode_zero_half _ .MOVEIH name rfl rfl rfl) word
      exact iff_of_false never.1 never.2
    · obtain ⟨text, matched, parts, word⟩ := record this
      obtain ⟨name, offset, base, written, -⟩ := matched_scalar_memory rfl matched
      rw [written] at parts
      obtain rfl := Option.some.inj
        ((convert_dst_tied_addr name (.memory offset base)).symm.trans parts)
      have never := half_never_reads_back (Or.inr text.symm) written
        (@encode_zero_half _ .MOVEIL name rfl rfl rfl) word
      exact iff_of_false never.1 never.2
    · subst this
      obtain ⟨dst, value, rfl⟩ := sym_operands valid converted
      cases processed

/-- An accepted statement is read back exactly if every operand fits: nothing else is
rejected, so an operand that does not fit is changed without an error. -/
theorem accepted_reads_back_iff (context : MCContext) (statement : Statement)
    (rest left : List AsmToken) (operands : List NaplesPUOperand) (emitted : List Encoded)
    (parsed : ParseInstruction context statement.mnemonic
      (operandTokens statement.operands ++ .EndOfStatement :: rest) = some (operands, left))
    (accepted : MatchAndEmitInstruction statement.mnemonic operands = some emitted) :
    ReadsBack statement emitted ↔
      ∀ operand ∈ statement.operands, Fits statement.mnemonic operand := by
  rw [parse_statement] at parsed
  split at parsed
  · obtain ⟨rfl, -⟩ := Prod.mk.inj (Option.some.inj parsed)
    obtain ⟨entry, built, insts, found, converted, processed, encoded⟩ := emitted_by accepted
    exact entry_reads_back_iff found converted processed encoded
  · cases parsed

end Entries

def addLiteral (value : Nat) : Statement where
  mnemonic := "addi"
  operands := [.register (sReg 0), .register (sReg 1), .literal ⟨.none, value⟩]
  placed := by
    have general : hasCustomParser "addi" 0 = false ∧ hasCustomParser "addi" 1 = false ∧
        hasCustomParser "addi" 2 = false := by decide +kernel
    rintro (_ | _ | _ | position) operand found
    · obtain rfl := Option.some.inj found
      exact general.1.symm
    · obtain rfl := Option.some.inj found
      exact general.2.1.symm
    · obtain rfl := Option.some.inj found
      exact general.2.2.symm
    · cases found

theorem parse_add_literal {value : Nat} (small : value < 2 ^ 64) :
    ParseInstruction noSymbols (addLiteral value).mnemonic
        (operandTokens (addLiteral value).operands ++ [.EndOfStatement]) =
      some ((addLiteral value).operands.map WrittenOperand.parsed, [.EndOfStatement]) := by
  rw [parse_statement, if_pos]
  simpa [addLiteral, WrittenOperand.Lexes, WrittenOperand.literal?] using small

theorem emitted_additions :
    MatchAndEmitInstruction "addi" ((addLiteral 5).operands.map WrittenOperand.parsed) =
        some [([0x28, 0x10, 0x00, 0x44], [])] ∧
      MatchAndEmitInstruction "addi" ((addLiteral 300).operands.map WrittenOperand.parsed) =
        some [([0x60, 0x19, 0x00, 0x44], [])] := by
  decide +kernel

theorem add_five_reads_back : ReadsBack (addLiteral 5) [([0x28, 0x10, 0x00, 0x44], [])] :=
  (accepted_reads_back_iff noSymbols (addLiteral 5) [] _ _ _ (parse_add_literal (by decide))
    emitted_additions.1).mpr (by decide)

/-- `addi s0, s1, 300` is accepted and decodes to `addi s0, s1, -212`. -/
theorem add_three_hundred_is_changed :
    ParseInstruction noSymbols (addLiteral 300).mnemonic
        (operandTokens (addLiteral 300).operands ++ [.EndOfStatement]) =
      some ((addLiteral 300).operands.map WrittenOperand.parsed, [.EndOfStatement]) ∧
    MatchAndEmitInstruction (addLiteral 300).mnemonic
        ((addLiteral 300).operands.map WrittenOperand.parsed) =
      some [([0x60, 0x19, 0x00, 0x44], [])] ∧
    ¬ ReadsBack (addLiteral 300) [([0x60, 0x19, 0x00, 0x44], [])] := by
  refine ⟨parse_add_literal (by decide), emitted_additions.2, ?_⟩
  rintro ⟨bytes, decoded, same, found, named⟩
  obtain ⟨rfl, -⟩ := Prod.mk.inj (List.cons.inj same).1
  have read : getInstruction [0x60, 0x19, 0x00, 0x44] = some ⟨.arithIntImm .ADD .SSI,
      [.reg (sReg 0), .reg (sReg 1), .imm (-212)]⟩ :=
    @get_instruction_of_matches (.arithIntImm .ADD .SSI) 0x44001960 rfl (by decide) (by decide)
  rw [read] at found
  obtain rfl := Option.some.inj found
  revert named
  decide

end NaplesPU.OperandRanges
