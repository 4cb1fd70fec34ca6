import NaplesPU.InstrInfo

/-!
The table the disassembler consults. It holds every record that is neither
`isAsmParserOnly` nor in a decoder namespace of its own; no two of its entries
can match the same word, because some bit is a different constant in each.
-/

namespace NaplesPU.DecoderTable

open BitLayout InstrFormats InstrInfo

class Enumerated (Item : Type) where
  all : List Item
  complete : ∀ item, item ∈ all

open Enumerated (all)

@[simp] theorem mem_all {Item : Type} [Enumerated Item] (item : Item) : item ∈ all :=
  Enumerated.complete item

instance : Enumerated ArithInt where
  all := [.OR, .AND, .XOR, .ADD, .SUB, .MULL, .MULH, .MULHU, .SRA, .SRL, .SLL]
  complete item := by cases item <;> decide

instance : Enumerated ArithIntOneOp where
  all := [.CLZ, .CTZ]
  complete item := by cases item <;> decide

instance : Enumerated CompInt where
  all := [.SEQSI, .SNESI, .SGTSI, .SGESI, .SLTSI, .SLESI, .SGTUI, .SGEUI, .SLTUI, .SLEUI]
  complete item := by cases item <;> decide

instance : Enumerated ArithFloat where
  all := [.ADDF, .SUBF, .MULF, .DIVF]
  complete item := by cases item <;> decide

instance : Enumerated CompFloat where
  all := [.SEQFO, .SNEFO, .SGTFO, .SGEFO, .SLTFO, .SLEFO]
  complete item := by cases item <;> decide

instance : Enumerated Convert where
  all := [.SEXT8_32, .SEXT16_32, .I32TOF32, .F32TOI32]
  complete item := by cases item <;> decide

instance : Enumerated MoveImm where
  all := [.MOVEIL, .MOVEIH, .MOVEI]
  complete item := by cases item <;> decide

instance : Enumerated LoadScalar where
  all := [.L32BS, .L32SS, .L32W, .L32BU, .L32SU]
  complete item := by cases item <;> decide

instance : Enumerated StoreScalar where
  all := [.S32B, .S32S, .S32W]
  complete item := by cases item <;> decide

instance : Enumerated LoadVector where
  all := [.LV32B, .LV32S, .LV32W, .LV32BU, .LV32SU]
  complete item := by cases item <;> decide

instance : Enumerated StoreVector where
  all := [.SV32B, .SV32S, .SV32W]
  complete item := by cases item <;> decide

instance : Enumerated TwoOpVariant where
  all := [.SSS_32, .VVS_U_32, .VVV_U_32, .VVS_M_32, .VVV_M_32]
  complete item := by cases item <;> decide

instance : Enumerated ImmVariant where
  all := [.SSI, .VVI_U, .VVI_M]
  complete item := by cases item <;> decide

instance : Enumerated OneOpVariant where
  all := [.SS, .VV_U, .VV_M]
  complete item := by cases item <;> decide

instance : Enumerated CompVariant where
  all := [.SSS_32, .SVS_U_32, .SVV_U_32]
  complete item := by cases item <;> decide

instance : Enumerated CompImmVariant where
  all := [.SSI, .SVI]
  complete item := by cases item <;> decide

instance : Enumerated MoveImmVariant where
  all := [.SI, .VI_U, .VI_M]
  complete item := by cases item <;> decide

instance : Enumerated Space where
  all := [.Mainmem, .Scratchpad]
  complete item := by cases item <;> decide

instance : Enumerated VectorSpace where
  all := [.Mainmem_U, .Scratchpad_U, .Mainmem_M, .Scratchpad_M]
  complete item := by cases item <;> decide

instance : Enumerated ScatterSpace where
  all := [.Scratchpad_U, .Scratchpad_M]
  complete item := by cases item <;> decide

/-- Every record of a multiclass: each `defm` with each of its variants. -/
def family {Op Variant : Type} [Enumerated Op] [Enumerated Variant]
    (record : Op → Variant → Opcode) : List Opcode :=
  (all : List Op).flatMap fun op => (all : List Variant).map (record op)

@[simp] theorem mem_family {Op Variant : Type} [Enumerated Op] [Enumerated Variant]
    {record : Op → Variant → Opcode} {opcode : Opcode} :
    opcode ∈ family record ↔ ∃ op variant, record op variant = opcode := by
  simp [family]

/-- The records of the default decoder namespace that the decoder emitter keeps. -/
def decoderTable32 : List Opcode := List.flatten [
  family .arithInt, family .arithIntImm, family .arithIntOneOp, family .compInt,
  family .compIntImm, [.CROSSPROD_32, .SHUFFLEI_32, .GET_LANEI_32, .GET_LANEIimm],
  [.MOVE_SS_32, .MOVE_VS_32, .MOVE_VV_32], family .arithFloat, family .compFloat,
  family .convert, family .moveImm, [.CREATEMASK_32], family .loadScalar, family .storeScalar,
  family .loadVector, family .storeVector, all.map .GLV32W, all.map .SSV32W,
  [.JMP, .JUMPREG, .JRET, .BEQZ, .BNEZ, .JMPSR_OFF, .JMPSR_REG],
  [.BARRIER, .FLUSH, .READCR, .WRITECR, .NOP]]

/-- `isAsmParserOnly` records, and those of the namespaces `Read_SPR` and `Write_SPR`,
do not reach the table. -/
def isDisassemblable : Opcode → Bool
  | .MOVE_VS_M_32 | .MOVE_VV_M_32 | .LOAD_EFFECTIVE_ADDR | .LEAH | .LEAL => false
  | .READMR | .WRITEMR => false
  | _ => true

theorem mem_decoder_table_iff (opcode : Opcode) :
    opcode ∈ decoderTable32 ↔ isDisassemblable opcode := by
  cases opcode <;> simp [decoderTable32, isDisassemblable]

theorem unambiguous_decoder_table : Unambiguous Opcode.layout decoderTable32 :=
  unambiguous_of_all_conflict (by decide +kernel)

/-- A word matches the constants of at most one record of the table. -/
theorem decoder_table_entry_unique {opcode other : Opcode} (listed : opcode ∈ decoderTable32)
    (otherListed : other ∈ decoderTable32) {word : Nat}
    (matched : opcode.layout.pattern.Matches word)
    (otherMatched : other.layout.pattern.Matches word) : opcode = other :=
  unambiguous_decoder_table.eq_of_matches listed otherListed matched otherMatched

end NaplesPU.DecoderTable
