import NaplesPU.AsmStatements
import NaplesPU.EncodeDecode

/-!
From a parsed statement to the instruction its record makes of it: the matcher
leaves the kinds of the operands as the record declares them, the machine
operands are those written followed by the tied one, and the instruction is
typed, so that the decoder gives back what each operand decoder keeps.
-/

namespace NaplesPU.AsmMatching

open ByteMemory RegisterInfo InstrFormats InstrInfo DecoderTable FixupKinds MCCodeEmitter
open Disassembler EncodeDecode AsmLexer AsmStrings AsmParser AsmStatements

def wrapConstant (value : Int) : Int := value.bmod (2 ^ 64)

def offsetValue (offset : Option Literal) : Int := (offset.map Literal.value).getD 0

def machineOperands : WrittenOperand → List MCOperand
  | .register name => [.reg name]
  | .literal number => [.imm (wrapConstant number.value)]
  | .memory offset base => [.reg base, .imm (wrapConstant (offsetValue offset))]

theorem add_operands (operand : WrittenOperand) :
    operand.parsed.addOperands = some (machineOperands operand) := by
  have constant (literal : Literal) :
      addExpr (some literal.expr) = some (.imm (wrapConstant literal.value)) := by
    rw [Literal.expr, addExpr, wrapConstant, BitVec.toInt_ofInt]
  cases operand with
  | register name => rfl
  | literal number =>
      rw [WrittenOperand.parsed, NaplesPUOperand.addOperands, constant]
      rfl
  | memory offset base =>
      cases offset with
      | none => rfl
      | some literal =>
          rw [WrittenOperand.parsed, NaplesPUOperand.addOperands, Option.map_some, constant]
          rfl

/-- The operands that a constraint of the record ties to its first one. -/
def tiedOperands (opcode : Opcode) : List OperandDecl :=
  opcode.operandList.filter fun decl => (tiedTo decl.name).isSome

/-- In a record of the decoder table the tied operand is a vector and comes last, after a
first operand that is a vector, too; and every other operand is of a class that the
disassembler has a decoder for. -/
def SoundText (opcode : Opcode) : Prop :=
  opcode.operandList = opcode.asmOperands ++ tiedOperands opcode ∧
    (∀ decl ∈ tiedOperands opcode, decl.type = .reg .VR512W ∧
      opcode.asmOperands.head?.map OperandDecl.type = some (.reg .VR512W)) ∧
    ∀ decl ∈ opcode.asmOperands, (tiedTo decl.name).isNone ∧
      (decl.type ≠ .LEAri ∧ decl.type ≠ .ABSh ∧ decl.type ≠ .ABSl)

instance (opcode : Opcode) : Decidable (SoundText opcode) :=
  inferInstanceAs (Decidable (_ ∧ _))

theorem sound_text : ∀ opcode ∈ decoderTable32, SoundText opcode := by
  decide +kernel

section Conversion

variable {decls : List OperandDecl} {operands : List WrittenOperand}

theorem operands_valid_length {kinds : List MatchClassKind} {parsed : List NaplesPUOperand}
    (valid : operandsValid kinds parsed) : kinds.length = parsed.length := by
  induction kinds generalizing parsed with
  | nil =>
      cases parsed with
      | nil => rfl
      | cons operand rest => simp [operandsValid] at valid
  | cons kind kinds induction =>
      cases parsed with
      | nil => simp [operandsValid] at valid
      | cons operand rest =>
          rw [operandsValid, Bool.and_eq_true] at valid
          rw [List.length_cons, List.length_cons, induction valid.2]

/-- Operands that are not tied are appended in their order. -/
theorem convert_untied (untied : ∀ decl ∈ decls, (tiedTo decl.name).isNone)
    (count : decls.length = operands.length) (more : List Var) (built : List MCOperand) :
    convertToMCInst (decls.map OperandDecl.name ++ more) (operands.map WrittenOperand.parsed)
        built =
      convertToMCInst more [] (built ++ operands.flatMap machineOperands) := by
  induction decls generalizing operands built with
  | nil =>
      obtain rfl := List.length_eq_zero_iff.mp count.symm
      rw [List.map_nil, List.map_nil, List.nil_append, List.flatMap_nil, List.append_nil]
  | cons decl decls induction =>
      cases operands with
      | nil => simp at count
      | cons operand operands =>
          have free : ¬ (tiedTo decl.name).isSome := by
            have none := untied decl (by simp)
            rw [Option.isNone_iff_eq_none] at none
            simp [none]
          rw [List.map_cons, List.map_cons, List.cons_append, convertToMCInst, if_neg free]
          simp only [add_operands, Option.bind_some]
          rw [induction (fun other member => untied other (by simp [member])) (by simpa using count),
            List.flatMap_cons, List.append_assoc]

end Conversion

section Parts

variable {inst : MCInst}

theorem slices_of_parts {decls : List OperandDecl} {parts : List (List MCOperand)} {opNo : Nat}
    (sizes : List.Forall₂ (fun decl part => part.length = decl.type.numMIOperands) decls parts)
    (whole : inst.operands.drop opNo = parts.flatten) :
    (numberOperands opNo decls).map (fun entry => (entry.2, operandSlice inst entry.1 entry.2)) =
      decls.zip parts := by
  induction sizes generalizing opNo with
  | nil => rfl
  | @cons decl part decls parts size _ induction =>
      rw [List.flatten_cons] at whole
      have first : operandSlice inst opNo decl = part := by
        rw [operandSlice, whole, ← size, List.take_left]
      have rest : inst.operands.drop (opNo + decl.type.numMIOperands) = parts.flatten := by
        rw [← List.drop_drop, whole, ← size, List.drop_left]
      rw [numberOperands, List.map_cons, first, induction rest, List.zip_cons_cons]

theorem operand_of_slice {opNo : Nat} {operand : MCOperand}
    (slice : (inst.operands.drop opNo).take 1 = [operand]) : inst.getOperand opNo = some operand := by
  have first := congrArg List.head? slice
  rwa [List.head?_take, if_neg (by decide), List.head?_drop] at first

theorem operands_of_slice {opNo : Nat} {first second : MCOperand}
    (slice : (inst.operands.drop opNo).take 2 = [first, second]) :
    inst.getOperand opNo = some first ∧ inst.getOperand (opNo + 1) = some second := by
  have head := congrArg (fun part => part[0]?) slice
  have next := congrArg (fun part => part[1]?) slice
  simp only [List.getElem?_take_of_lt (show 0 < 2 by decide),
    List.getElem?_take_of_lt (show 1 < 2 by decide), List.getElem?_drop, Nat.add_zero] at head next
  exact ⟨head, next⟩

end Parts

section Matched

def Matches (decl : OperandDecl) (operand : WrittenOperand) : Prop :=
  validateOperandClass (matchClass decl.type) operand.parsed

theorem matches_of_valid {decls : List OperandDecl} {operands : List WrittenOperand}
    (valid : operandsValid (decls.map fun decl => matchClass decl.type)
      (operands.map WrittenOperand.parsed)) : List.Forall₂ Matches decls operands := by
  induction decls generalizing operands with
  | nil =>
      have count := operands_valid_length valid
      obtain rfl : operands = [] := by simpa [eq_comm] using count
      exact List.Forall₂.nil
  | cons decl decls induction =>
      cases operands with
      | nil => simp [operandsValid] at valid
      | cons operand operands =>
          rw [List.map_cons, List.map_cons, operandsValid, Bool.and_eq_true] at valid
          exact List.Forall₂.cons valid.1 (induction valid.2)

theorem matched_operand {decl : OperandDecl} {operand : WrittenOperand}
    (matched : Matches decl operand) :
    match decl.type with
    | .reg cls => ∃ name, operand = .register name ∧ name.cls = cls
    | .SIMM9OP | .SIMM16OP | .brtarget | .calltarget => ∃ number, operand = .literal number
    | .MEMri | .V16MEMri | .LEAri | .ABSh | .ABSl =>
        ∃ offset base, operand = .memory offset base := by
  obtain ⟨varName, type⟩ := decl
  cases type with
  | reg cls =>
      cases operand with
      | register name => cases cls <;> exact ⟨name, rfl, of_decide_eq_true matched⟩
      | literal number => cases cls <;> exact absurd matched Bool.false_ne_true
      | memory offset base => cases cls <;> exact absurd matched Bool.false_ne_true
  | SIMM9OP | SIMM16OP | brtarget | calltarget =>
      cases operand with
      | literal number => exact ⟨number, rfl⟩
      | register name => exact absurd matched Bool.false_ne_true
      | memory offset base => exact absurd matched Bool.false_ne_true
  | MEMri | V16MEMri | LEAri | ABSh | ABSl =>
      cases operand with
      | memory offset base => exact ⟨offset, base, rfl⟩
      | register name => exact absurd matched Bool.false_ne_true
      | literal number => exact absurd matched Bool.false_ne_true

theorem machine_operands_length {decl : OperandDecl} {operand : WrittenOperand}
    (matched : Matches decl operand) (relative : decl.type ≠ .ABSh ∧ decl.type ≠ .ABSl) :
    (machineOperands operand).length = decl.type.numMIOperands := by
  have shape := matched_operand matched
  obtain ⟨varName, type⟩ := decl
  cases type with
  | reg cls =>
      obtain ⟨name, rfl, -⟩ := shape
      rfl
  | SIMM9OP | SIMM16OP | brtarget | calltarget =>
      obtain ⟨number, rfl⟩ := shape
      rfl
  | MEMri | V16MEMri | LEAri =>
      obtain ⟨offset, base, rfl⟩ := shape
      rfl
  | ABSh => exact absurd rfl relative.1
  | ABSl => exact absurd rfl relative.2

theorem convert_tied {decls : List OperandDecl} (tied : ∀ decl ∈ decls, (tiedTo decl.name).isSome)
    {built : List MCOperand} {first : MCOperand} (present : built[0]? = some first) :
    convertToMCInst (decls.map OperandDecl.name) [] built =
      some (built ++ (decls.map fun _ => [first]).flatten) := by
  induction decls generalizing built with
  | nil => rw [List.map_nil, convertToMCInst, List.map_nil, List.flatten_nil, List.append_nil]
  | cons decl decls induction =>
      have extended : (built ++ [first])[0]? = some first := by
        rw [List.getElem?_append_left (List.getElem?_eq_some_iff.mp present).1, present]
      rw [List.map_cons, convertToMCInst, if_pos (tied decl (by simp)), present, Option.bind_some,
        induction (fun other member => tied other (by simp [member])) extended, List.map_cons,
        List.flatten_cons, List.append_assoc]

end Matched

theorem exists_paired {decls : List OperandDecl} {operands : List WrittenOperand}
    (count : decls.length = operands.length) {operand : WrittenOperand}
    (member : operand ∈ operands) : ∃ decl, (decl, operand) ∈ decls.zip operands := by
  have second : (decls.zip operands).map Prod.snd = operands :=
    List.map_snd_zip (le_of_eq count.symm)
  rw [← second] at member
  obtain ⟨⟨decl, other⟩, entry, rfl⟩ := List.mem_map.mp member
  exact ⟨decl, entry⟩

section Records

variable {opcode : Opcode} {operands : List WrittenOperand}

/-- The machine operands of a record, each operand's own followed by those it ties. -/
def recordParts (opcode : Opcode) (operands : List WrittenOperand) (first : MCOperand) :
    List (List MCOperand) :=
  operands.map machineOperands ++ (tiedOperands opcode).map fun _ => [first]

/-- What the conversion makes of matched operands: a first operand that is tied to is a
register. -/
theorem convert_record (listed : opcode ∈ decoderTable32)
    (matched : List.Forall₂ Matches opcode.asmOperands operands) :
    ∃ first, convertToMCInst (opcode.operandList.map OperandDecl.name)
        (operands.map WrittenOperand.parsed) [] = some (recordParts opcode operands first).flatten ∧
      (tiedOperands opcode ≠ [] → (∃ register, first = .reg register) ∧
        (recordParts opcode operands first).flatten[0]? = some first) := by
  obtain ⟨split, tied, named⟩ := sound_text opcode listed
  have whole := convert_untied (fun decl member => (named decl member).1) matched.length_eq
    ((tiedOperands opcode).map OperandDecl.name) []
  rw [← List.map_append, ← split, List.nil_append] at whole
  by_cases none : tiedOperands opcode = []
  · refine ⟨.imm 0, ?_, fun some => absurd none some⟩
    rw [whole, none, List.map_nil, convertToMCInst, recordParts, none, List.map_nil,
      List.append_nil, List.flatMap_def]
  · obtain ⟨decl, member⟩ := List.exists_mem_of_ne_nil _ none
    obtain ⟨leader, rest, decls⟩ : ∃ leader rest, opcode.asmOperands = leader :: rest := by
      cases list : opcode.asmOperands with
      | nil =>
          have head := (tied decl member).2
          rw [list] at head
          cases head
      | cons leader rest => exact ⟨leader, rest, rfl⟩
    have vector : leader.type = .reg .VR512W := by
      have head := (tied decl member).2
      rw [decls] at head
      exact Option.some.inj head
    rw [decls] at matched
    cases matched with
    | @cons _ operand _ others first later =>
        have shape := matched_operand first
        rw [vector] at shape
        obtain ⟨register, rfl, -⟩ := shape
        have present : ((WrittenOperand.register register :: others).flatMap machineOperands)[0]? =
            some (.reg register) := rfl
        refine ⟨.reg register, ?_, fun _ => ⟨⟨register, rfl⟩, rfl⟩⟩
        have copies := convert_tied
          (fun decl (member : decl ∈ tiedOperands opcode) => (List.mem_filter.mp member).2) present
        rw [whole, copies, recordParts, List.flatten_append, List.flatMap_def]

variable (first : MCOperand)

theorem mem_record_parts (listed : opcode ∈ decoderTable32)
    (count : opcode.asmOperands.length = operands.length) {decl : OperandDecl}
    {part : List MCOperand}
    (member : (decl, part) ∈ opcode.operandList.zip (recordParts opcode operands first)) :
    (∃ operand, (decl, operand) ∈ opcode.asmOperands.zip operands ∧
        part = machineOperands operand) ∨
      decl ∈ tiedOperands opcode ∧ part = [first] := by
  have lengths : opcode.asmOperands.length = (operands.map machineOperands).length := by
    rw [List.length_map, count]
  rw [(sound_text opcode listed).1, recordParts, List.zip_append lengths, List.mem_append]
    at member
  rcases member with written | copied
  · left
    rw [List.zip_map_right] at written
    obtain ⟨⟨source, operand⟩, paired, same⟩ := List.mem_map.mp written
    obtain ⟨rfl, rfl⟩ := Prod.mk.inj same
    exact ⟨operand, paired, rfl⟩
  · right
    have tied := (List.of_mem_zip copied).1
    obtain ⟨other, -, same⟩ := List.mem_map.mp (List.of_mem_zip copied).2
    exact ⟨tied, same.symm⟩

theorem record_parts_sizes (listed : opcode ∈ decoderTable32)
    (matched : List.Forall₂ Matches opcode.asmOperands operands) :
    List.Forall₂ (fun decl part => part.length = decl.type.numMIOperands) opcode.operandList
      (recordParts opcode operands first) := by
  obtain ⟨split, tied, named⟩ := sound_text opcode listed
  rw [List.forall₂_iff_zip]
  constructor
  · have written := matched.length_eq
    simp only [split, recordParts, List.length_append, List.length_map, written]
  · intro decl part member
    rcases mem_record_parts first listed matched.length_eq member with
      ⟨operand, paired, rfl⟩ | ⟨copied, rfl⟩
    · have fits := List.forall₂_zip matched paired
      exact machine_operands_length fits (named decl (List.of_mem_zip paired).1).2.2
    · rw [(tied decl copied).1]
      rfl

theorem record_slices (listed : opcode ∈ decoderTable32)
    (matched : List.Forall₂ Matches opcode.asmOperands operands) {inst : MCInst}
    (same : inst = ⟨opcode, (recordParts opcode operands first).flatten⟩) :
    (miOperands inst.opcode).map (fun entry => (entry.2, operandSlice inst entry.1 entry.2)) =
      opcode.operandList.zip (recordParts opcode operands first) := by
  subst same
  exact slices_of_parts (record_parts_sizes first listed matched) List.drop_zero

theorem typed_record (listed : opcode ∈ decoderTable32)
    (matched : List.Forall₂ Matches opcode.asmOperands operands)
    (copied : tiedOperands opcode ≠ [] → (∃ register, first = .reg register) ∧
      (recordParts opcode operands first).flatten[0]? = some first) :
    TypedInst ⟨opcode, (recordParts opcode operands first).flatten⟩ where
  disassemblable := (mem_decoder_table_iff opcode).mp listed
  operands := by
    rintro ⟨opNo, decl⟩ member
    have parts := record_slices first listed matched rfl
    have paired : (decl, operandSlice ⟨opcode, (recordParts opcode operands first).flatten⟩
        opNo decl) ∈ opcode.operandList.zip (recordParts opcode operands first) := by
      rw [← parts]
      exact List.mem_map.mpr ⟨(opNo, decl), member, rfl⟩
    obtain ⟨-, tied, named⟩ := sound_text opcode listed
    rcases mem_record_parts first listed matched.length_eq paired with
      ⟨operand, own, slice⟩ | ⟨copy, slice⟩
    · have free := (named decl (List.of_mem_zip own).1).1
      have relative := (named decl (List.of_mem_zip own).1).2
      have shape := matched_operand (List.forall₂_zip matched own)
      obtain ⟨varName, type⟩ := decl
      cases type with
      | reg cls =>
          obtain ⟨name, rfl, -⟩ := shape
          refine ⟨⟨name, operand_of_slice slice⟩, fun some => ?_⟩
          rw [Option.isNone_iff_eq_none] at free
          rw [free] at some
          cases some
      | SIMM9OP | SIMM16OP | brtarget | calltarget =>
          obtain ⟨number, rfl⟩ := shape
          exact ⟨_, operand_of_slice slice⟩
      | MEMri | V16MEMri =>
          obtain ⟨offset, base, rfl⟩ := shape
          exact ⟨_, _, operands_of_slice slice⟩
      | LEAri => exact absurd rfl relative.1
      | ABSh => exact absurd rfl relative.2.1
      | ABSl => exact absurd rfl relative.2.2
    · obtain ⟨⟨register, rfl⟩, head⟩ := copied (List.ne_nil_of_mem copy)
      have vector := (tied decl copy).1
      obtain ⟨varName, type⟩ := decl
      subst vector
      have present := operand_of_slice slice
      exact ⟨⟨register, present⟩, fun _ => present.trans head.symm⟩

/-- What the decoders keep of the operands written, in front of the copies. -/
theorem decoded_record (listed : opcode ∈ decoderTable32)
    (matched : List.Forall₂ Matches opcode.asmOperands operands) :
    ∃ copies, decodedOperands ⟨opcode, (recordParts opcode operands first).flatten⟩ =
      ((opcode.asmOperands.zip operands).flatMap fun entry =>
        (machineOperands entry.2).map (readBack entry.1.type (decodedImmBits opcode))) ++
          copies := by
  have count : opcode.asmOperands.length = (operands.map machineOperands).length := by
    rw [List.length_map, matched.length_eq]
  have regrouped : decodedOperands ⟨opcode, (recordParts opcode operands first).flatten⟩ =
      ((opcode.operandList.zip (recordParts opcode operands first)).map fun entry =>
        entry.2.map (readBack entry.1.type (decodedImmBits opcode))).flatten := by
    rw [← record_slices first listed matched rfl, List.map_map]
    rfl
  rw [regrouped, (sound_text opcode listed).1, recordParts, List.zip_append count,
    List.map_append, List.flatten_append, List.zip_map_right, List.map_map]
  exact ⟨_, rfl⟩

end Records

end NaplesPU.AsmMatching
