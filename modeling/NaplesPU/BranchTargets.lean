import NaplesPU.EncodeDecode
import NaplesPU.FixupAgreement

/-!
Jumps that carry an offset. One fixup and one relocation resolve the labels of
both jump formats, but the offset field of format FJ is six bits wider than what
they write. The disassembler and the branch evaluator read the offset back.
-/

namespace NaplesPU.BranchTargets

open BitLayout ByteMemory RegisterInfo InstrFormats InstrInfo DecoderTable FixupKinds
open MCCodeEmitter Disassembler TwosComplement AsmBackend ELFRelocations FixupAgreement
open EncodeDecode

/-- The instructions of the branch classes whose target is an offset. -/
inductive OffsetBranch where
  | JMP
  | JMPSR_OFF
  | BEQZ (cond : Fin 64)
  | BNEZ (cond : Fin 64)
deriving DecidableEq, Repr

namespace OffsetBranch

def opcode : OffsetBranch → Opcode
  | .JMP => .JMP
  | .JMPSR_OFF => .JMPSR_OFF
  | .BEQZ _ => .BEQZ
  | .BNEZ _ => .BNEZ

def inst (branch : OffsetBranch) (target : MCOperand) : MCInst :=
  match branch with
  | .JMP | .JMPSR_OFF => ⟨branch.opcode, [target]⟩
  | .BEQZ cond | .BNEZ cond => ⟨branch.opcode, [.reg (sReg cond), target]⟩

/-- Whether the branch is of format FJ, with an offset field of twenty-four bits. -/
def isWide : OffsetBranch → Bool
  | .JMP | .JMPSR_OFF => true
  | .BEQZ _ | .BNEZ _ => false

def addr (branch : OffsetBranch) : Slot := ⟨0, branchBits branch.opcode⟩

/-- The fields of the word other than the offset. -/
def fields : OffsetBranch → List (Slot × Nat)
  | .JMP => [(⟨28, 4⟩, 0b0111), (⟨24, 3⟩, 0), (⟨27, 1⟩, 1)]
  | .JMPSR_OFF => [(⟨28, 4⟩, 0b0111), (⟨24, 3⟩, 1), (⟨27, 1⟩, 1)]
  | .BEQZ cond => [(⟨28, 4⟩, 0b0111), (⟨24, 3⟩, 5), (⟨27, 1⟩, 0), (⟨18, 6⟩, cond)]
  | .BNEZ cond => [(⟨28, 4⟩, 0b0111), (⟨24, 3⟩, 6), (⟨27, 1⟩, 0), (⟨18, 6⟩, cond)]

def word (branch : OffsetBranch) (offset : Nat) : Nat :=
  assemble (branch.fields ++ [(branch.addr, offset)])

theorem addr_apart (branch : OffsetBranch) :
    ∀ field ∈ branch.fields, branch.addr.Disjoint field.1 := by
  cases branch with
  | JMP => decide
  | JMPSR_OFF => decide
  | BEQZ cond => simp [fields, addr, branchBits, opcode, Slot.Disjoint, Slot.high]
  | BNEZ cond => simp [fields, addr, branchBits, opcode, Slot.Disjoint, Slot.high]

theorem word_lt (branch : OffsetBranch) (offset : Nat) : branch.word offset < 2 ^ 32 := by
  apply assemble_lt
  cases branch with
  | JMP => simp [fields, addr, branchBits, opcode, Slot.high]
  | JMPSR_OFF => simp [fields, addr, branchBits, opcode, Slot.high]
  | BEQZ cond => simp [fields, addr, branchBits, opcode, Slot.high]
  | BNEZ cond => simp [fields, addr, branchBits, opcode, Slot.high]

theorem branch_bits (branch : OffsetBranch) :
    branchBits branch.opcode = if branch.isWide then 24 else 18 := by
  cases branch <;> rfl

theorem narrow_addr (branch : OffsetBranch) : 18 ≤ branch.addr.width := by
  cases branch <;> simp [addr, branchBits, opcode]

theorem word_inj (branch : OffsetBranch) (offset other : Nat) :
    branch.word offset = branch.word other ↔
      offset % 2 ^ branchBits branch.opcode = other % 2 ^ branchBits branch.opcode :=
  assemble_concat_inj branch.addr_apart offset other

def targetOpNo : OffsetBranch → Nat
  | .JMP | .JMPSR_OFF => 0
  | .BEQZ _ | .BNEZ _ => 1

theorem encode_var_addr (branch : OffsetBranch) (target : MCOperand) :
    encodeVar (branch.inst target) .addr =
      encodeBranchTargetOpValue (branch.inst target) branch.targetOpNo := by
  cases branch <;> rfl

theorem encode_var_cond {branch : OffsetBranch} {cond : Fin 64}
    (conditional : branch = .BEQZ cond ∨ branch = .BNEZ cond) (target : MCOperand) :
    encodeVar (branch.inst target) .cond = some ⟨getMachineOpValue (.reg (sReg cond)), []⟩ := by
  rcases conditional with rfl | rfl <;> rfl

theorem layout_vars (branch : OffsetBranch) :
    layoutVars branch.opcode.layout = if branch.isWide then [.addr] else [.cond, .addr] := by
  cases branch <;> rfl

theorem encode_layout (branch : OffsetBranch) (target : MCOperand) :
    branch.opcode.layout.encode (varValue (branch.inst target)) =
      branch.word (varValue (branch.inst target) .addr) := by
  cases branch with
  | JMP => simp [Layout.encode, Opcode.layout, fj, fjAll, instConst, instVar, Source.value, word,
      fields, OffsetBranch.addr, branchBits, opcode]
  | JMPSR_OFF => simp [Layout.encode, Opcode.layout, fj, fjAll, instConst, instVar, Source.value,
      word, fields, OffsetBranch.addr, branchBits, opcode]
  | BEQZ cond =>
      have value : varValue (inst (.BEQZ cond) target) .cond = cond := by
        rw [varValue, encode_var_cond (Or.inl rfl)]
        exact machine_op_value_reg (sReg cond)
      simp [Layout.encode, Opcode.layout, fjr, fjAll, instConst, instVar, Source.value, word,
        fields, OffsetBranch.addr, branchBits, opcode, value]
  | BNEZ cond =>
      have value : varValue (inst (.BNEZ cond) target) .cond = cond := by
        rw [varValue, encode_var_cond (Or.inr rfl)]
        exact machine_op_value_reg (sReg cond)
      simp [Layout.encode, Opcode.layout, fjr, fjAll, instConst, instVar, Source.value, word,
        fields, OffsetBranch.addr, branchBits, opcode, value]

theorem encode_target (branch : OffsetBranch) (target : MCOperand) {encoding : OperandEncoding}
    (encoded : encodeBranchTargetOpValue (branch.inst target) branch.targetOpNo =
      some encoding) :
    encodeInstruction (branch.inst target) =
      some (bytesLE 4 (branch.word encoding.value.toNat), encoding.fixups) := by
  have addr : encodeVar (branch.inst target) .addr = some encoding := by
    rw [encode_var_addr, encoded]
  have value : varValue (branch.inst target) .addr = encoding.value.toNat := by
    rw [varValue, addr]
  have fixups : varFixups (branch.inst target) .addr = encoding.fixups := by
    rw [varFixups, addr]
  have opcode : (branch.inst target).opcode = branch.opcode := by cases branch <;> rfl
  have code : getBinaryCodeForInstr (branch.inst target) =
      some (BitVec.ofNat 32 (branch.word encoding.value.toNat), encoding.fixups) := by
    rw [getBinaryCodeForInstr, opcode, layout_vars, encode_layout, value]
    cases branch with
    | JMP => simp [isWide, addr, fixups]
    | JMPSR_OFF => simp [isWide, addr, fixups]
    | BEQZ cond => simp [isWide, addr, varFixups, encode_var_cond (Or.inl rfl)]
    | BNEZ cond => simp [isWide, addr, varFixups, encode_var_cond (Or.inr rfl)]
  rw [encodeInstruction, code, Option.map_some, BitVec.toNat_ofNat,
    Nat.mod_eq_of_lt (word_lt branch _)]

end OffsetBranch

/-- The two tools that write the value of a fixup into the bytes of an instruction. -/
inductive Resolver where
  | assembler
  | linker
deriving DecidableEq, Repr

def Resolver.resolve (resolver : Resolver) (fixup : MCFixup) (data : List Byte)
    (value : BitVec 64) : Option Outcome :=
  match resolver with
  | .assembler => some (applyFixup fixup.kind data fixup.offset value)
  | .linker => relocateOne data fixup.offset (getRelocType fixup.kind) value

/-- The bytes of a branch to a label whose fixup has the value. -/
def labelBytes (resolver : Resolver) (branch : OffsetBranch) (label : MCExpr)
    (value : BitVec 64) : Option Outcome :=
  match encodeInstruction (branch.inst (.expr label)) with
  | some (bytes, [fixup]) => resolver.resolve fixup bytes value
  | _ => none

def immBytes (branch : OffsetBranch) (offset : Int) : Option Outcome :=
  (encodeInstruction (branch.inst (.imm offset))).map fun code => .written code.1

section Labels

variable (branch : OffsetBranch)

theorem imm_bytes (offset : Int) :
    immBytes branch offset =
      some (.written (bytesLE 4 (branch.word (BitVec.ofInt 32 offset).toNat))) := by
  have encoded : encodeBranchTargetOpValue (branch.inst (.imm offset)) branch.targetOpNo =
      some ⟨BitVec.ofInt 32 offset, []⟩ := by
    cases branch <;> rfl
  rw [immBytes, branch.encode_target _ encoded]
  rfl

/-- Both tools write the low eighteen bits of a value in range. -/
theorem label_bytes (resolver : Resolver) (label : MCExpr) {value : BitVec 64}
    (fits : SignedFits 18 value.toInt) :
    labelBytes resolver branch label value =
      some (.written (bytesLE 4 (branch.word (value.toNat % 2 ^ 18)))) := by
  have encoded : encodeBranchTargetOpValue (branch.inst (.expr label)) branch.targetOpNo =
      some ⟨0, [⟨0, label, .target .fixup_NaplesPU_Branch⟩]⟩ := by
    cases branch <;> rfl
  have emitted : encodeInstruction (branch.inst (.expr label)) =
      some (bytesLE 4 (branch.word 0), [⟨0, label, .target .fixup_NaplesPU_Branch⟩]) :=
    branch.encode_target _ encoded
  have read : readAt (bytesLE 4 (branch.word 0)) 0 4 = branch.word 0 := by
    rw [read_at_bytes]
    exact Nat.mod_eq_of_lt (branch.word_lt 0)
  have zero : (⟨0, 18⟩ : Slot).extract (readAt (bytesLE 4 (branch.word 0)) 0 4) = 0 := by
    rw [read]
    exact extract_narrow rfl branch.narrow_addr branch.addr_apart
  have patched : (⟨0, 18⟩ : Slot).patch (branch.word 0) value.toNat =
      branch.word (value.toNat % 2 ^ 18) :=
    patch_assemble (show (⟨0, 18⟩ : Slot).low = branch.addr.low from rfl) branch.narrow_addr
      branch.addr_apart value.toNat
  have inside : 0 + 4 ≤ (bytesLE 4 (branch.word 0)).length := by rw [bytes_length]
  have written : applyFixup (.target .fixup_NaplesPU_Branch) (bytesLE 4 (branch.word 0)) 0 value =
      .written (bytesLE 4 (branch.word (value.toNat % 2 ^ 18))) := by
    rw [apply_fixup_patches ⟨0, 18⟩ rfl value (by decide) (by decide) inside zero, read, patched,
      write_at_bytes]
  rw [labelBytes, emitted, ← written]
  cases resolver with
  | assembler => rfl
  | linker =>
      exact (fixup_agrees_with_relocation_iff (.target .fixup_NaplesPU_Branch) _ 0 value inside
        zero).mpr fits

/-- A jump by label is the jump by the same offset, unless it is of format FJ and goes back:
the fixup leaves the sign bits above the eighteenth clear. -/
theorem label_equals_immediate_iff (resolver : Resolver) (label : MCExpr) (offset : Int)
    (fits : SignedFits 18 offset) :
    labelBytes resolver branch label (BitVec.ofInt 64 offset) = immBytes branch offset ↔
      branch.isWide = false ∨ 0 ≤ offset := by
  have value : (BitVec.ofInt 64 offset).toInt = offset := by
    rw [BitVec.toInt_ofInt, bmod_eq_self_iff (by decide)]
    unfold SignedFits at fits ⊢
    omega
  have wide : (BitVec.ofInt 64 offset).toNat = (offset % 2 ^ 64).toNat := by
    rw [BitVec.toNat_ofInt]
    rfl
  have narrow : (BitVec.ofInt 32 offset).toNat = (offset % 2 ^ 32).toNat := by
    rw [BitVec.toNat_ofInt]
    rfl
  rw [label_bytes branch resolver label (by rwa [value]), imm_bytes, Option.some.injEq,
    Outcome.written.injEq, bytes_inj (branch.word_lt _) (branch.word_lt _), branch.word_inj, wide,
    narrow]
  unfold SignedFits at fits
  have extended : (offset % 2 ^ 64).toNat % 2 ^ 18 % 2 ^ 24 = (offset % 2 ^ 32).toNat % 2 ^ 24 ↔
      0 ≤ offset := by
    omega
  have kept : (offset % 2 ^ 64).toNat % 2 ^ 18 % 2 ^ 18 = (offset % 2 ^ 32).toNat % 2 ^ 18 := by
    omega
  rw [branch.branch_bits]
  cases branch.isWide with
  | true => simpa using extended
  | false => simpa using kept

end Labels

/-- The bytes of `jmp label` with the label four bytes back, and of `jmp -4`. -/
theorem backward_jump_differs (resolver : Resolver) :
    labelBytes resolver .JMP ⟨0, 0⟩ (-4) = some (.written [0xfc, 0xff, 0x03, 0x78]) ∧
      immBytes .JMP (-4) = some (.written [0xfc, 0xff, 0xff, 0x78]) := by
  cases resolver <;> exact ⟨rfl, rfl⟩

theorem label_differs_from_immediate :
    ¬ ∀ resolver branch label offset, SignedFits 18 offset →
      labelBytes resolver branch label (BitVec.ofInt 64 offset) = immBytes branch offset := by
  intro same
  have jump := same .linker .JMP ⟨0, 0⟩ (-4) (by decide)
  rw [show BitVec.ofInt 64 (-4) = -4 from rfl, (backward_jump_differs .linker).1,
    (backward_jump_differs .linker).2] at jump
  revert jump
  decide

theorem backward_branch_label_agrees :
    labelBytes .linker (.BEQZ 5) ⟨0, 0⟩ (BitVec.ofInt 64 (-4)) = immBytes (.BEQZ 5) (-4) :=
  (label_equals_immediate_iff (.BEQZ 5) .linker ⟨0, 0⟩ (-4) (by decide)).mpr (.inl rfl)

/-- The expression a symbolizer adds as the operand for a value, if it knows the value. -/
abbrev Symbolizer := BitVec 64 → Option MCExpr

/-- The branch decoder with a symbolizer, which it offers the target it computed. -/
def decodeBranchTargetAt (symbolize : Symbolizer) (address : BitVec 64) (insn : Nat) :
    Option (List MCOperand) :=
  match symbolize (address + 4 + BitVec.ofInt 64 (signExtend 18 insn)) with
  | some target => some [.expr target]
  | none => decodeBranchTargetOpValue insn

def decodeOperandAt (symbolize : Symbolizer) (address : BitVec 64) (type : OperandType)
    (insn : Nat) : Option (List MCOperand) :=
  match type with
  | .brtarget | .calltarget => decodeBranchTargetAt symbolize address insn
  | type => decodeOperand type insn

def decodeToMCInstAt (symbolize : Symbolizer) (address : BitVec 64) (opcode : Opcode)
    (insn : Nat) : Option MCInst :=
  (opcode.operandList.mapM fun decl =>
    decodeOperandAt symbolize address decl.type
      (opcode.layout.gather (decodedVar decl.name) insn)).map
        fun operands => ⟨opcode, operands.flatten⟩

def getInstructionAt (symbolize : Symbolizer) (address : BitVec 64) (bytes : List Byte) :
    Option MCInst :=
  (readInstruction32 bytes).bind fun insn =>
    (lookup Opcode.layout decoderTable32 insn).bind (decodeToMCInstAt symbolize address · insn)

/-- A symbolizer that knows no value leaves the disassembler as it is. -/
theorem get_instruction_unsymbolized (address : BitVec 64) (bytes : List Byte) :
    getInstructionAt (fun _ => none) address bytes = getInstruction bytes := by
  have operand (type : OperandType) (insn : Nat) :
      decodeOperandAt (fun _ => none) address type insn = decodeOperand type insn := by
    cases type <;> rfl
  simp only [getInstructionAt, getInstruction, decodeToMCInstAt, decodeToMCInst, operand]

/-- Registers have the operand type `OPERAND_REGISTER`, all other classes `OPERAND_UNKNOWN`. -/
def isRegisterOperand : OperandType → Bool
  | .reg _ => true
  | _ => false

/-- The operand classes of a record, one for each machine operand. -/
def opInfo (opcode : Opcode) : List OperandType :=
  opcode.operandList.flatMap fun decl => List.replicate decl.type.numMIOperands decl.type

/-- The target computed from the last operand, which is read as an immediate. -/
def evaluateBranch (inst : MCInst) (addr : BitVec 64) : Option (BitVec 64) :=
  match (opInfo inst.opcode)[inst.operands.length - 1]?, inst.operands.getLast? with
  | some type, some (.imm offset) =>
      if isRegisterOperand type then none else some (addr + BitVec.ofInt 64 offset)
  | _, _ => none

section Targets

variable (branch : OffsetBranch)

theorem valid_branch {offset : Int} (fits : SignedFits (branchBits branch.opcode) offset) :
    ValidInst (branch.inst (.imm offset)) := by
  cases branch with
  | JMP =>
      exact ⟨rfl, rfl, by simpa [miOperands, numberOperands, OffsetBranch.inst,
        OffsetBranch.opcode, Opcode.operandList, ValidOperand, MCInst.getOperand] using fits⟩
  | JMPSR_OFF =>
      exact ⟨rfl, rfl, by simpa [miOperands, numberOperands, OffsetBranch.inst,
        OffsetBranch.opcode, Opcode.operandList, ValidOperand, MCInst.getOperand] using fits⟩
  | BEQZ cond =>
      exact ⟨rfl, rfl, by simpa [miOperands, numberOperands, OffsetBranch.inst, sReg, tiedTo,
        OperandType.numMIOperands, OffsetBranch.opcode, Opcode.operandList, ValidOperand,
        MCInst.getOperand] using fits⟩
  | BNEZ cond =>
      exact ⟨rfl, rfl, by simpa [miOperands, numberOperands, OffsetBranch.inst, sReg, tiedTo,
        OperandType.numMIOperands, OffsetBranch.opcode, Opcode.operandList, ValidOperand,
        MCInst.getOperand] using fits⟩

theorem inst_opcode (target : MCOperand) : (branch.inst target).opcode = branch.opcode := by
  cases branch <;> rfl

/-- Whatever the offset field holds, the decoder extends its low eighteen bits. -/
theorem decode_word (value : Nat) :
    getInstruction (bytesLE 4 (branch.word value)) =
      some (branch.inst (.imm (signExtend 18 value))) := by
  have bits := branch.branch_bits
  have wide : 18 ≤ branchBits branch.opcode := branch.narrow_addr
  have fits : SignedFits (branchBits branch.opcode) (signExtend (branchBits branch.opcode) value) := by
    rw [← bmod_eq_self_iff (by omega), sign_extend_eq_bmod, Int.bmod_bmod]
  have same : branch.word (BitVec.ofInt 32 (signExtend (branchBits branch.opcode) value)).toNat =
      branch.word value := by
    rw [branch.word_inj, BitVec.toNat_ofInt, sign_extend_eq_bmod, Int.bmod, bits]
    split <;> split <;> omega
  obtain ⟨bytes, encoded, decoded⟩ := decode_encode (valid_branch branch fits)
  have emitted := imm_bytes branch (signExtend (branchBits branch.opcode) value)
  have emittedBytes : bytes = bytesLE 4 (branch.word value) := by
    rw [immBytes, encoded, same, Option.map_some, Option.some.injEq, Outcome.written.injEq] at emitted
    exact emitted
  rw [← emittedBytes, decoded]
  have kept : (signExtend (branchBits branch.opcode) value).bmod (2 ^ 18) = signExtend 18 value := by
    rw [sign_extend_eq_bmod, sign_extend_eq_bmod,
      Int.bmod_bmod_of_dvd (Nat.pow_dvd_pow 2 wide)]
  cases branch with
  | JMP => exact congrArg (fun offset => some (OffsetBranch.JMP.inst (.imm offset))) kept
  | JMPSR_OFF => exact congrArg (fun offset => some (OffsetBranch.JMPSR_OFF.inst (.imm offset))) kept
  | BEQZ cond =>
      exact congrArg (fun offset => some ((OffsetBranch.BEQZ cond).inst (.imm offset))) kept
  | BNEZ cond =>
      exact congrArg (fun offset => some ((OffsetBranch.BNEZ cond).inst (.imm offset))) kept

theorem decode_target_at (symbolize : Symbolizer) (place : BitVec 64) (insn : Nat) :
    decodeBranchTargetAt symbolize place insn =
      some [(symbolize (place + 4 + BitVec.ofInt 64 (signExtend 18 insn))).elim
        (.imm (signExtend 18 insn)) .expr] := by
  rw [decodeBranchTargetAt]
  cases symbolize (place + 4 + BitVec.ofInt 64 (signExtend 18 insn)) <;> rfl

theorem jump_at {opcode : Opcode} {type : OperandType}
    (record : opcode.operandList = [⟨.addr, type⟩]) (jump : type = .brtarget ∨ type = .calltarget)
    {insn : Nat} {offset : Int} (decoded : decodeToMCInst opcode insn = some ⟨opcode, [.imm offset]⟩)
    (symbolize : Symbolizer) (place : BitVec 64) :
    decodeToMCInstAt symbolize place opcode insn = some ⟨opcode,
      [(symbolize (place + 4 + BitVec.ofInt 64 offset)).elim (.imm offset) .expr]⟩ := by
  rw [decodeToMCInst, record] at decoded
  rw [decodeToMCInstAt, record]
  rcases jump with rfl | rfl
  · simp [decodeOperand, decodeBranchTargetOpValue] at decoded
    simp [decodeOperandAt, decode_target_at, decoded]
  · simp [decodeOperand, decodeBranchTargetOpValue] at decoded
    simp [decodeOperandAt, decode_target_at, decoded]

theorem conditional_at {opcode : Opcode}
    (record : opcode.operandList = [⟨.cond, .reg .GPR32⟩, ⟨.addr, .brtarget⟩])
    {insn : Nat} {register : Register} {offset : Int}
    (decoded : decodeToMCInst opcode insn = some ⟨opcode, [.reg register, .imm offset]⟩)
    (symbolize : Symbolizer) (place : BitVec 64) :
    decodeToMCInstAt symbolize place opcode insn = some ⟨opcode, [.reg register,
      (symbolize (place + 4 + BitVec.ofInt 64 offset)).elim (.imm offset) .expr]⟩ := by
  rw [decodeToMCInst, record] at decoded
  rw [decodeToMCInstAt, record]
  cases read : decodeRegisterClass .GPR32
      (opcode.layout.gather (decodedVar .cond) insn) with
  | none => simp [decodeOperand, read] at decoded
  | some front =>
      simp [decodeOperand, decodeBranchTargetOpValue, read] at decoded
      have split : front ++ [.imm (signExtend 18 (opcode.layout.gather (decodedVar .addr) insn))] =
          [.reg register] ++ [.imm offset] := decoded
      obtain ⟨rfl, target⟩ := List.append_inj' split rfl
      obtain rfl : signExtend 18 (opcode.layout.gather (decodedVar .addr) insn) = offset := by
        simpa using target
      simp [decodeOperandAt, decodeOperand, decode_target_at, read]

/-- With a symbolizer the operand is the symbol of the value the decoder offers. -/
theorem get_instruction_at {data : List Byte} {offset : Int}
    (decoded : getInstruction data = some (branch.inst (.imm offset))) (symbolize : Symbolizer)
    (place : BitVec 64) :
    getInstructionAt symbolize place data = some (branch.inst
      ((symbolize (place + 4 + BitVec.ofInt 64 offset)).elim (.imm offset) .expr)) := by
  rw [getInstruction, Option.bind_eq_some_iff] at decoded
  obtain ⟨insn, read, decoded⟩ := decoded
  rw [Option.bind_eq_some_iff] at decoded
  obtain ⟨opcode, found, decoded⟩ := decoded
  rw [getInstructionAt, read, Option.bind_some, found, Option.bind_some]
  have record : opcode = branch.opcode := by
    rw [decodeToMCInst, Option.map_eq_some_iff] at decoded
    obtain ⟨operands, -, same⟩ := decoded
    rw [← inst_opcode branch, ← same]
  subst record
  cases branch with
  | JMP => exact jump_at rfl (.inl rfl) decoded symbolize place
  | JMPSR_OFF => exact jump_at rfl (.inr rfl) decoded symbolize place
  | BEQZ cond => exact conditional_at rfl decoded symbolize place
  | BNEZ cond => exact conditional_at rfl decoded symbolize place

def SymbolicTarget (data : List Byte) (place value : BitVec 64) : Prop :=
  ∀ symbolize label, symbolize value = some label →
    getInstructionAt symbolize place data = some (branch.inst (.expr label))

def EvaluatedTarget (data : List Byte) (place value : BitVec 64) : Prop :=
  ∃ inst, getInstruction data = some inst ∧ evaluateBranch inst place = some value

theorem evaluate_branch_inst (offset : Int) (place : BitVec 64) :
    evaluateBranch (branch.inst (.imm offset)) place = some (place + BitVec.ofInt 64 offset) := by
  cases branch <;> rfl

section Resolved

variable {branch} {resolver : Resolver} {label : MCExpr} {place target : BitVec 64}
  {data : List Byte}

theorem resolved_decodes (fits : SignedFits 18 (target - place).toInt)
    (resolved : labelBytes resolver branch label (target - place) = some (.written data)) :
    getInstruction data = some (branch.inst (.imm (target - place).toInt)) := by
  rw [label_bytes branch resolver label fits, Option.some.injEq, Outcome.written.injEq] at resolved
  rw [← resolved, decode_word, sign_extend_mod,
    ← (sign_extend_eq_to_int_iff (by decide) (by decide) _).mpr fits]

/-- The value the disassembler offers lies four bytes behind the target. -/
theorem resolved_offers (fits : SignedFits 18 (target - place).toInt)
    (resolved : labelBytes resolver branch label (target - place) = some (.written data))
    (symbolize : Symbolizer) :
    getInstructionAt symbolize place data = some (branch.inst
      ((symbolize (target + 4)).elim (.imm (target - place).toInt) .expr)) := by
  have offered : place + 4 + BitVec.ofInt 64 (target - place).toInt = target + 4 := by
    rw [BitVec.ofInt_toInt]
    bv_omega
  rw [get_instruction_at branch (resolved_decodes fits resolved), offered]

theorem resolved_not_symbolic (fits : SignedFits 18 (target - place).toInt)
    (resolved : labelBytes resolver branch label (target - place) = some (.written data)) :
    ¬ SymbolicTarget branch data place target := by
  intro symbolic
  have known := symbolic (fun value => if value = target then some label else none) label
    (if_pos rfl)
  have other : target + 4 ≠ target := by bv_omega
  rw [resolved_offers fits resolved, if_neg other] at known
  cases branch <;> cases known

end Resolved

/-- The evaluator recovers the target of a resolved branch; the disassembler offers the
address four bytes behind it, and never the target. -/
theorem resolved_branch_targets (resolver : Resolver) (label : MCExpr) (place target : BitVec 64)
    {data : List Byte} (fits : SignedFits 18 (target - place).toInt)
    (resolved : labelBytes resolver branch label (target - place) = some (.written data)) :
    EvaluatedTarget data place target ∧ SymbolicTarget branch data place (target + 4) ∧
      ¬ SymbolicTarget branch data place target := by
  refine ⟨⟨_, resolved_decodes fits resolved, ?_⟩, ?_, resolved_not_symbolic fits resolved⟩
  · rw [evaluate_branch_inst, BitVec.ofInt_toInt, BitVec.add_comm, BitVec.sub_add_cancel]
  · intro symbolize symbol known
    rw [resolved_offers fits resolved, known]
    rfl

end Targets

/-- `beqz $s5` at address 4096, resolved to address 4160. -/
theorem branch_target_offered_behind :
    ∃ data, labelBytes .linker (.BEQZ 5) ⟨0, 0⟩ (4160 - 4096) = some (.written data) ∧
      SymbolicTarget (.BEQZ 5) data 4096 4164 :=
  ⟨_, label_bytes (.BEQZ 5) .linker ⟨0, 0⟩ (by decide),
    (resolved_branch_targets (.BEQZ 5) .linker ⟨0, 0⟩ 4096 4160 (by decide)
      (label_bytes (.BEQZ 5) .linker ⟨0, 0⟩ (by decide))).2.1⟩

theorem symbolic_target_not_recovered :
    ¬ ∀ branch resolver label (place target : BitVec 64) data,
      SignedFits 18 (target - place).toInt →
        labelBytes resolver branch label (target - place) = some (.written data) →
          SymbolicTarget branch data place target ∧ EvaluatedTarget data place target := by
  intro recovered
  have fits : SignedFits 18 ((4160 : BitVec 64) - 4096).toInt := by decide
  have resolved := label_bytes (.BEQZ 5) .linker ⟨0, 0⟩ fits
  exact resolved_not_symbolic fits resolved (recovered _ _ _ _ _ _ fits resolved).1

end NaplesPU.BranchTargets
