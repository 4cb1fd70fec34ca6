import NaplesPU.AliasEncoding
import NaplesPU.AsmParser

/-!
The two ways of writing an address. `_lea` adds an offset to a base register in
the word of an immediate addition, and ors the sign of the offset into the
base. `lea` stands for the two halves of a label; the low half of the expansion
has one operand less than its encoder reads.
-/

namespace NaplesPU.LeaEncoding

open BitLayout ByteMemory RegisterInfo InstrInfo FixupKinds MCCodeEmitter TwosComplement
open Disassembler EncodeDecode AsmParser AliasEncoding

section EffectiveAddress

def leaInst (dst base : Fin 64) (offset : Int) : MCInst :=
  ⟨.LOAD_EFFECTIVE_ADDR, [.reg (sReg dst), .reg (sReg base), .imm offset]⟩

def addInst (dst base : Fin 64) (offset : Int) : MCInst :=
  ⟨.arithIntImm .ADD .SSI, [.reg (sReg dst), .reg (sReg base), .imm offset]⟩

theorem decoded_add (dst base : Fin 64) (offset : Int) : ∃ rest,
    decodedOperands (addInst dst base offset) = .reg (sReg dst) :: .reg (sReg base) :: rest :=
  ⟨_, rfl⟩

theorem add_base_injective {dst base other : Fin 64} {offset : Int}
    (same : encodeInstruction (addInst dst base offset) =
      encodeInstruction (addInst dst other offset)) : base = other := by
  obtain ⟨bytes, encoded, decoded⟩ :=
    decode_encode_typed (typed_add_imm (sReg dst) (sReg base) offset)
  obtain ⟨otherBytes, otherEncoded, otherDecoded⟩ :=
    decode_encode_typed (typed_add_imm (sReg dst) (sReg other) offset)
  have bytesSame : bytes = otherBytes := by
    have codes := encoded.symm.trans (same.trans otherEncoded)
    rw [Option.some.injEq, Prod.mk.injEq] at codes
    exact codes.1
  have operandsSame : decodedOperands (addInst dst base offset) =
      decodedOperands (addInst dst other offset) := by
    rw [bytesSame, otherDecoded, Option.some.injEq, MCInst.mk.injEq] at decoded
    exact decoded.2.symm
  obtain ⟨rest, own⟩ := decoded_add dst base offset
  obtain ⟨otherRest, others⟩ := decoded_add dst other offset
  rw [own, others] at operandsSame
  have bases := (List.cons.inj (List.cons.inj operandsSame).2).1
  simpa [sReg] using bases

/-- The word is that of the addition as long as no sign reaches the base register. -/
theorem lea_is_addition_iff (dst base : Fin 64) (offset : Int) (fits : SignedFits 9 offset) :
    encodeInstruction (leaInst dst base offset) = encodeInstruction (addInst dst base offset) ↔
      0 ≤ offset ∨ sReg base = PC_REG := by
  have named : encodeInstruction (leaInst dst base offset) =
      encodeInstruction (addInst dst (leaBase (sReg base) offset).encoding offset) :=
    encode_lea (sReg base) offset (sReg dst)
  have kept := lea_base_eq_iff (sReg base) fits
  rw [named]
  constructor
  · intro same
    have encoding := add_base_injective same
    have register : leaBase (sReg base) offset = sReg base := by
      have scalar : leaBase (sReg base) offset = sReg (leaBase (sReg base) offset).encoding := rfl
      rw [scalar, encoding]
    exact (kept.mp register).2
  · intro allowed
    rw [kept.mpr ⟨rfl, allowed⟩]
    rfl

theorem lea_forward_is_addition :
    encodeInstruction (leaInst 1 2 4) = encodeInstruction (addInst 1 2 4) :=
  (lea_is_addition_iff 1 2 4 (by decide)).mpr (Or.inl (by decide))

theorem lea_backward_is_no_addition :
    SignedFits 9 (-4) ∧
      encodeInstruction (leaInst 1 2 (-4)) ≠ encodeInstruction (addInst 1 2 (-4)) := by
  decide

end EffectiveAddress

section Halves

def EmitInstToData (fragment code : Encoded) : Encoded :=
  (fragment.1 ++ code.1, fragment.2 ++ code.2.map fun fixup =>
    { fixup with offset := fixup.offset + fragment.1.length })

def emitAll (codes : List Encoded) : Encoded := codes.foldl EmitInstToData ([], [])

/-- What `lea dst, label` adds to an empty fragment. -/
def pseudoStatement (dst : Register) (label : AsmExpr) : Option Encoded :=
  (MatchAndEmitInstruction "lea" [.Register dst, .Immediate label]).map emitAll

/-- What `leah dst, label` and `leal dst, label` add: their label is an operand relative
to the program counter. -/
def explicitStatements (dst : Register) (label : AsmExpr) : Option Encoded :=
  (MatchAndEmitInstruction "leah" [.Register dst, .Memory PC_REG (some label)]).bind fun high =>
    (MatchAndEmitInstruction "leal" [.Register dst, .Memory PC_REG (some label)]).map fun low =>
      emitAll (high ++ low)

/-- The pseudo instruction encodes, to the words and the fixups of its explicit halves. -/
def EqualsItsHalves (dst : Register) (label : AsmExpr) : Prop :=
  ∃ words address, addExpr (some label) = some (.expr address) ∧
    pseudoStatement dst label = some (words,
      [⟨0, address, .target .fixup_NaplesPU_Absh⟩, ⟨4, address, .target .fixup_NaplesPU_Absl⟩]) ∧
    explicitStatements dst label = pseudoStatement dst label

variable {mnemonic : String} {entry : Matchable} {operands : List NaplesPUOperand}

theorem match_only_entry (few : operands.length ≤ 3) (listed : entry ∈ matchTable)
    (only : ∀ other ∈ matchTable, other.mnemonic = mnemonic → other = entry)
    (named : entry.mnemonic = mnemonic) (valid : operandsValid entry.classes operands) :
    MatchInstructionImpl mnemonic operands =
      (convertToMCInst entry.operandNames operands []).map fun built => (entry, built) := by
  have found : (matchTable.find? fun other => other.mnemonic = mnemonic &&
      operandsValid other.classes operands) = some entry := by
    cases first : matchTable.find? fun other => other.mnemonic = mnemonic &&
        operandsValid other.classes operands with
    | none =>
        have skipped := List.find?_eq_none.mp first entry listed
        simp [named, valid] at skipped
    | some other =>
        have accepted := List.find?_some first
        rw [Bool.and_eq_true, decide_eq_true_eq] at accepted
        rw [only other (List.mem_of_find?_eq_some first) accepted.1]
  rw [MatchInstructionImpl, if_neg (by omega), found, Option.bind_some]

theorem only_entries : ∀ entry ∈ matchTable,
    (entry.mnemonic = "lea" → entry = .LOAD_EFFECTIVE_ADDR_SYM) ∧
      (entry.mnemonic = "leah" → entry = .record .LEAH) ∧
        (entry.mnemonic = "leal" → entry = .record .LEAL) := by
  decide +kernel

theorem mem_match_table_of_parsed {opcode : Opcode} (parsed : opcode ∈ asmParserRecords) :
    .record opcode ∈ matchTable := by
  rw [matchTable, List.mem_append, List.mem_append]
  exact Or.inr (Or.inl (List.mem_map.mpr ⟨opcode, parsed, rfl⟩))

variable {dst : Register} {address : MCExpr}

/-- The word of a half: its address field is zero until the fixup is applied. -/
def halfBytes (opcode : Opcode) (dst : Register) : List Byte :=
  bytesLE 4 (BitVec.ofNat 32 (opcode.layout.encode fun name =>
    if name = .dst then getEncodingValue dst else 0)).toNat

theorem encode_half {inst : MCInst} {fixup : MCFixup}
    (half : inst.opcode = .LEAH ∨ inst.opcode = .LEAL)
    (own : encodeVar inst .dst = some ⟨getMachineOpValue (.reg dst), []⟩)
    (label : encodeVar inst .addr = some ⟨0, [fixup]⟩) :
    encodeInstruction inst = some (halfBytes inst.opcode dst, [fixup]) := by
  have names : layoutVars inst.opcode.layout = [.dst, .addr] := by
    rcases half with high | low
    · rw [high]
      decide
    · rw [low]
      decide
  have fields : inst.opcode.layout.encode (varValue inst) =
      inst.opcode.layout.encode fun name =>
        if name = .dst then getEncodingValue dst else 0 := by
    apply Layout.encode_congr
    intro field member name low source
    have stored : name ∈ layoutVars inst.opcode.layout := by
      rw [layoutVars, List.mem_dedup, List.mem_filterMap]
      exact ⟨field, member, by rw [source]⟩
    rw [names, List.mem_pair] at stored
    rcases stored with rfl | rfl
    · rw [varValue, own, if_pos rfl]
      exact machine_op_value_reg dst
    · rw [varValue, label, if_neg (by decide)]
      rfl
  rw [encodeInstruction, getBinaryCodeForInstr, names]
  simp [own, label, varFixups, fields, halfBytes]

theorem explicit_high :
    encodeInstruction ⟨.LEAH, [.reg dst, .reg PC_REG, .expr address]⟩ =
      some (halfBytes .LEAH dst, [⟨0, address, .target .fixup_NaplesPU_Absh⟩]) :=
  encode_half (Or.inl rfl) rfl rfl

theorem expanded_high :
    encodeInstruction ⟨.LEAH, [.reg dst, .expr address]⟩ =
      encodeInstruction ⟨.LEAH, [.reg dst, .reg PC_REG, .expr address]⟩ := by
  rw [explicit_high]
  exact encode_half (Or.inl rfl) rfl rfl

theorem explicit_low :
    encodeInstruction ⟨.LEAL, [.reg dst, .reg dst, .reg PC_REG, .expr address]⟩ =
      some (halfBytes .LEAL dst, [⟨0, address, .target .fixup_NaplesPU_Absl⟩]) :=
  encode_half (Or.inr rfl) rfl rfl

/-- The low half of the expansion, if it had the operand that is tied to its first one. -/
theorem expanded_low_with_tied_operand :
    encodeInstruction ⟨.LEAL, [.reg dst, .reg dst, .expr address]⟩ =
      encodeInstruction ⟨.LEAL, [.reg dst, .reg dst, .reg PC_REG, .expr address]⟩ := by
  rw [explicit_low]
  exact encode_half (Or.inr rfl) rfl rfl

/-- The encoder of the low half reads operand two, and the expansion has two operands. -/
theorem expanded_low (first second : MCOperand) :
    encodeInstruction ⟨.LEAL, [first, second]⟩ = none := by
  have names : layoutVars Opcode.LEAL.layout = [.dst, .addr] := by decide
  have missing : encodeVar ⟨.LEAL, [first, second]⟩ .addr = none := rfl
  rw [encodeInstruction, getBinaryCodeForInstr, names]
  simp [missing]

theorem expansion_never_encodes (built : List MCOperand) :
    (ProcessInstruction .LOAD_EFFECTIVE_ADDR_SYM built).bind
      (fun insts => insts.mapM encodeInstruction) = none := by
  cases expanded : ProcessInstruction .LOAD_EFFECTIVE_ADDR_SYM built with
  | none => rfl
  | some insts =>
      rw [ProcessInstruction.eq_def] at expanded
      split at expanded
      · contradiction
      · obtain rfl := Option.some.inj expanded
        simp [expanded_low]
      · cases expanded

/-- No statement of the pseudo instruction assembles. -/
theorem pseudo_never_emits (operands : List NaplesPUOperand) :
    MatchAndEmitInstruction "lea" operands = none := by
  rw [MatchAndEmitInstruction]
  cases matched : MatchInstructionImpl "lea" operands with
  | none => rfl
  | some result =>
      obtain ⟨entry, built⟩ := result
      have listed : entry ∈ matchTable ∧ entry.mnemonic = "lea" := by
        rw [MatchInstructionImpl] at matched
        split at matched
        · cases matched
        · rw [Option.bind_eq_some_iff] at matched
          obtain ⟨other, found, converted⟩ := matched
          have accepted := List.find?_some found
          rw [Bool.and_eq_true, decide_eq_true_eq] at accepted
          rw [Option.map_eq_some_iff] at converted
          obtain ⟨operands, -, same⟩ := converted
          obtain ⟨rfl, rfl⟩ := Prod.mk.inj same
          exact ⟨List.mem_of_find?_eq_some found, accepted.1⟩
      rw [(only_entries entry listed.1).1 listed.2, Option.bind_some]
      exact expansion_never_encodes built

theorem explicit_emits (opcode : Opcode) (scalar : dst.cls = .GPR32) {label : AsmExpr}
    {built : List MCOperand} {code : Encoded} (listed : .record opcode ∈ matchTable)
    (only : ∀ other ∈ matchTable, other.mnemonic = opcode.mnemonic → other = .record opcode)
    (kinds : (Matchable.record opcode).classes = [.MCK_GPR32, .MCK_Mem])
    (converted : convertToMCInst (Matchable.record opcode).operandNames
      [.Register dst, .Memory PC_REG (some label)] [] = some built)
    (encoded : encodeInstruction ⟨opcode, built⟩ = some code) :
    MatchAndEmitInstruction opcode.mnemonic [.Register dst, .Memory PC_REG (some label)] =
      some [code] := by
  have valid : operandsValid (Matchable.record opcode).classes
      [.Register dst, .Memory PC_REG (some label)] := by
    rw [kinds]
    simp [operandsValid, validateOperandClass, scalar]
  rw [MatchAndEmitInstruction, match_only_entry (by simp) listed only rfl valid, converted]
  simp [ProcessInstruction, encoded]

theorem explicit_statements_emit (scalar : dst.cls = .GPR32) {label : AsmExpr}
    (relocatable : addExpr (some label) = some (.expr address)) :
    explicitStatements dst label = some (halfBytes .LEAH dst ++ halfBytes .LEAL dst,
      [⟨0, address, .target .fixup_NaplesPU_Absh⟩,
        ⟨4, address, .target .fixup_NaplesPU_Absl⟩]) := by
  have high : MatchAndEmitInstruction "leah" [.Register dst, .Memory PC_REG (some label)] =
      some [(halfBytes .LEAH dst, [⟨0, address, .target .fixup_NaplesPU_Absh⟩])] := by
    apply explicit_emits .LEAH scalar (mem_match_table_of_parsed (by decide))
      (fun entry listed => (only_entries entry listed).2.1) rfl _ explicit_high
    simp [Matchable.operandNames, Opcode.operandList, convertToMCInst, tiedTo,
      NaplesPUOperand.addOperands, relocatable]
  have low : MatchAndEmitInstruction "leal" [.Register dst, .Memory PC_REG (some label)] =
      some [(halfBytes .LEAL dst, [⟨0, address, .target .fixup_NaplesPU_Absl⟩])] := by
    apply explicit_emits .LEAL scalar (mem_match_table_of_parsed (by decide))
      (fun entry listed => (only_entries entry listed).2.2) rfl _ explicit_low
    simp [Matchable.operandNames, Opcode.operandList, convertToMCInst, tiedTo,
      NaplesPUOperand.addOperands, relocatable]
  rw [explicitStatements, high, low]
  simp [emitAll, EmitInstToData, halfBytes]

/-- The pseudo instruction never equals its halves: it does not encode. -/
theorem lea_never_equals_its_halves (dst : Register) (label : AsmExpr) :
    ¬ EqualsItsHalves dst label := by
  rintro ⟨words, address, -, encoded, -⟩
  rw [pseudoStatement, pseudo_never_emits] at encoded
  cases encoded

/-- `lea s0, label` fails where its halves give two words and two fixups. -/
theorem lea_label_does_not_encode :
    ¬ EqualsItsHalves (sReg 0) (.symbolRef 7) ∧
      pseudoStatement (sReg 0) (.symbolRef 7) = none ∧
      explicitStatements (sReg 0) (.symbolRef 7) =
        some ([0, 0, 0, 0x61, 0, 0, 0, 0x60],
          [⟨0, ⟨7, 0⟩, .target .fixup_NaplesPU_Absh⟩,
            ⟨4, ⟨7, 0⟩, .target .fixup_NaplesPU_Absl⟩]) := by
  have pseudo : pseudoStatement (sReg 0) (.symbolRef 7) = none := by
    rw [pseudoStatement, pseudo_never_emits, Option.map_none]
  have halves : explicitStatements (sReg 0) (.symbolRef 7) =
      some ([0, 0, 0, 0x61, 0, 0, 0, 0x60],
        [⟨0, ⟨7, 0⟩, .target .fixup_NaplesPU_Absh⟩,
          ⟨4, ⟨7, 0⟩, .target .fixup_NaplesPU_Absl⟩]) :=
    explicit_statements_emit rfl rfl
  refine ⟨?_, pseudo, halves⟩
  rintro ⟨words, address, -, encoded, -⟩
  rw [pseudo] at encoded
  cases encoded

end Halves

end NaplesPU.LeaEncoding
