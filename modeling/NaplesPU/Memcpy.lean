import NaplesPU.StackSlots

/-!
The copy of a block of memory by the library, instruction by instruction. Where both
pointers have the same place in a vector, bytes are copied up to the next vector and then
whole vectors; where they have the same place in a word, words; and what remains as bytes.
-/

namespace NaplesPU.Memcpy

open ByteMemory StepRuns TwosComplement
open RegisterInfo InstrFormats InstrInfo FixupKinds MCCodeEmitter Machine StackSlots

inductive Label where
  | memcpy | copy_vector_lead_in | copy_vector | copy_word_check | copy_word_lead_in
  | copy_words | copy_remain_bytes | copy_done
deriving DecidableEq, Repr

def Label.number : Label → Nat
  | .memcpy => 0 | .copy_vector_lead_in => 1 | .copy_vector => 2 | .copy_word_check => 3
  | .copy_word_lead_in => 4 | .copy_words => 5 | .copy_remain_bytes => 6 | .copy_done => 7

section Mnemonics

def s (index : Fin 64) : MCOperand := .reg (sReg index)

def v (index : Fin 64) : MCOperand := .reg (vReg index)

def Label.operand (label : Label) : MCOperand := .expr ⟨label.number, 0⟩

def move_i32 (dst src : Fin 64) : MCInst := ⟨.MOVE_SS_32, [s dst, s src]⟩

def arithi (op : ArithInt) (dst src : Fin 64) (value : Int) : MCInst :=
  ⟨.arithIntImm op .SSI, [s dst, s src, .imm value]⟩

def cmpeq_i32 (dst src0 src1 : Fin 64) : MCInst :=
  ⟨.compInt .SEQSI .SSS_32, [s dst, s src0, s src1]⟩

def cmpulti (dst src : Fin 64) (value : Int) : MCInst :=
  ⟨.compIntImm .SLTUI .SSI, [s dst, s src, .imm value]⟩

def beqz (cond : Fin 64) (label : Label) : MCInst := ⟨.BEQZ, [s cond, label.operand]⟩

def bnez (cond : Fin 64) (label : Label) : MCInst := ⟨.BNEZ, [s cond, label.operand]⟩

def jmp (label : Label) : MCInst := ⟨.JMP, [label.operand]⟩

def jret : MCInst := ⟨.JRET, []⟩

def loadFrom (op : LoadScalar) (dst base : Fin 64) : MCInst :=
  ⟨.loadScalar op .Mainmem, [s dst, s base, .imm 0]⟩

def storeTo (op : StoreScalar) (src base : Fin 64) : MCInst :=
  ⟨.storeScalar op .Mainmem, [s src, s base, .imm 0]⟩

def load_v16i32 (dst base : Fin 64) : MCInst :=
  ⟨.loadVector .LV32W .Mainmem_U, [v dst, s base, .imm 0]⟩

def store_v16i32 (src base : Fin 64) : MCInst :=
  ⟨.storeVector .SV32W .Mainmem_U, [v src, s base, .imm 0]⟩

end Mnemonics

/-- Copies some bytes and goes on to the next ones. -/
def copyPiece (load store : MCInst) (size : Int) (loop : Label) : List MCInst :=
  [load, store, arithi .ADD 0 0 size, arithi .ADD 1 1 size, arithi .SUB 2 2 size, jmp loop]

def copyByte (loop : Label) : List MCInst :=
  copyPiece (loadFrom .L32BU 4 1) (storeTo .S32B 4 0) 1 loop

def copyWord (loop : Label) : List MCInst :=
  copyPiece (loadFrom .L32W 4 1) (storeTo .S32W 4 0) 4 loop

def copyVector (loop : Label) : List MCInst :=
  copyPiece (load_v16i32 0 1) (store_v16i32 0 0) 64 loop

/-- The destination is in `s0`, the source in `s1` and the count in `s2`. -/
def memcpy : Program :=
  [ [ move_i32 6 0, arithi .AND 3 0 63, arithi .AND 4 1 63, cmpeq_i32 5 3 4,
      beqz 5 .copy_word_check ],
    [arithi .AND 4 0 63, beqz 4 .copy_vector, beqz 2 .copy_done] ++ copyByte .copy_vector_lead_in,
    [cmpulti 4 2 64, bnez 4 .copy_words] ++ copyVector .copy_vector,
    [arithi .AND 3 0 3, arithi .AND 4 1 3, cmpeq_i32 5 3 4, beqz 5 .copy_remain_bytes],
    [arithi .AND 4 0 3, beqz 4 .copy_words, beqz 2 .copy_done] ++ copyByte .copy_word_lead_in,
    [cmpulti 4 2 4, bnez 4 .copy_remain_bytes] ++ copyWord .copy_words,
    [beqz 2 .copy_done] ++ copyByte .copy_remain_bytes,
    [move_i32 0 6, jret] ]

section Execution

def execRoutine (inst : MCInst) (registers : Registers) (memory : Memory 32) : Option Effect :=
  match inst.opcode with
  | .compInt .SEQSI .SSS_32 =>
      some ⟨registers.setGpr (fieldReg inst .dst) (compareResult
        (registers.gpr (fieldReg inst .src0) == registers.gpr (fieldReg inst .src1))), memory, none⟩
  | .compIntImm .SLTUI .SSI =>
      some ⟨registers.setGpr (fieldReg inst .dst) (compareResult
        ((registers.gpr (fieldReg inst .src)).ult (fieldSimm9 inst .imm))), memory, none⟩
  | .loadScalar .L32BU .Mainmem =>
      some ⟨registers.setGpr (fieldReg inst .dstsrc)
        ((loadWord memory (fieldAddress inst registers) 1).setWidth 32), memory, none⟩
  | .storeScalar .S32B .Mainmem =>
      some ⟨registers, storeWord memory (fieldAddress inst registers) 1
        ((registers.gpr (fieldReg inst .dstsrc)).setWidth 8), none⟩
  | .JMP => (branchTarget inst).map fun label => ⟨registers, memory, some label⟩
  | _ => exec inst registers memory

/-- Words are accessed at multiples of four, vectors at multiples of sixty-four. -/
def alignedAccess (inst : MCInst) (registers : Registers) : Bool :=
  match inst.opcode with
  | .loadScalar .L32W _ | .storeScalar .S32W _ => (fieldAddress inst registers).toNat % 4 == 0
  | .loadVector _ _ | .storeVector _ _ => (fieldAddress inst registers).toNat % 64 == 0
  | _ => true

def stepWith (execute : MCInst → Registers → Memory 32 → Option Effect)
    (state : Thread × Memory 32) : Option (Thread × Memory 32) :=
  memcpy[state.1.block]?.bind fun code =>
    code[state.1.index]?.bind fun inst =>
      (execute inst state.1.registers state.2).map fun effect =>
        (advance code state.1 effect, effect.memory)

def step : Thread × Memory 32 → Option (Thread × Memory 32) := stepWith execRoutine

def nextInst (thread : Thread) : Option MCInst :=
  memcpy[thread.block]?.bind fun code => code[thread.index]?

/-- The instruction that a thread is at accesses the memory aligned, if at all. -/
def Aligned (state : Thread × Memory 32) : Prop :=
  ∀ inst, nextInst state.1 = some inst → alignedAccess inst state.1.registers = true

end Execution

section AlignedExecution

def execAligned (inst : MCInst) (registers : Registers) (memory : Memory 32) : Option Effect :=
  if alignedAccess inst registers then execRoutine inst registers memory else none

theorem aligned_step {state next : Thread × Memory 32}
    (stepped : stepWith execAligned state = some next) :
    step state = some next ∧ Aligned state := by
  rw [stepWith, Option.bind_eq_some_iff] at stepped
  obtain ⟨code, laidOut, stepped⟩ := stepped
  rw [Option.bind_eq_some_iff] at stepped
  obtain ⟨inst, here, stepped⟩ := stepped
  rw [Option.map_eq_some_iff] at stepped
  obtain ⟨effect, executed, rfl⟩ := stepped
  rw [execAligned] at executed
  split at executed
  · rename_i aligned
    constructor
    · rw [step, stepWith, laidOut, Option.bind_some, here, Option.bind_some, executed,
        Option.map_some]
    · intro other known
      rw [nextInst, laidOut, Option.bind_some, here, Option.some.injEq] at known
      rw [← known]
      exact aligned
  · cases executed

abbrev Runs : Thread × Memory 32 → Thread × Memory 32 → Prop := Reaches (stepWith execAligned)

variable {block index : Nat} {code : List MCInst} {inst : MCInst}
  {registers next : Registers} {memory nextMemory : Memory 32}

theorem runs_inst (laidOut : memcpy[block]? = some code) (here : code[index]? = some inst)
    {effect : Effect} (executed : execAligned inst registers memory = some effect) :
    Runs (⟨block, index, registers⟩, memory)
      (advance code ⟨block, index, registers⟩ effect, effect.memory) := by
  apply reaches_step
  rw [stepWith, laidOut, Option.bind_some, here, Option.bind_some, executed, Option.map_some]

theorem runs_next (laidOut : memcpy[block]? = some code) (here : code[index]? = some inst)
    (executed : execAligned inst registers memory = some ⟨next, nextMemory, none⟩)
    (more : index + 1 < code.length) :
    Runs (⟨block, index, registers⟩, memory) (⟨block, index + 1, next⟩, nextMemory) := by
  have run := runs_inst laidOut here executed
  simp only [advance, more, if_true] at run
  exact run

theorem runs_jump (laidOut : memcpy[block]? = some code) (here : code[index]? = some inst)
    {label : Nat}
    (executed : execAligned inst registers memory = some ⟨next, nextMemory, some label⟩) :
    Runs (⟨block, index, registers⟩, memory) (⟨label, 0, next⟩, nextMemory) :=
  runs_inst laidOut here executed

theorem exec_routine_of_exec {effect : Effect}
    (executed : exec inst registers memory = some effect) :
    execRoutine inst registers memory = some effect := by
  unfold execRoutine
  split
  all_goals
    first
    | exact executed
    | (rename_i opcode
       unfold exec at executed
       rw [opcode] at executed
       cases executed)

theorem exec_aligned_of {effect : Effect} (aligned : alignedAccess inst registers = true)
    (executed : execRoutine inst registers memory = some effect) :
    execAligned inst registers memory = some effect := by
  rw [execAligned, if_pos aligned, executed]

end AlignedExecution

section Instructions

variable (registers : Registers) (memory : Memory 32)

theorem aligned_move (dst src : Fin 64) :
    execAligned (move_i32 dst src) registers memory =
      some ⟨registers.setGpr dst (registers.gpr src), memory, none⟩ := by
  apply exec_aligned_of rfl
  exact exec_routine_of_exec (exec_move registers memory dst src)

theorem aligned_arithi {op : ArithInt} {operation : Word → Word → Word}
    (known : alu op = some operation) (dst src : Fin 64) {value : Int}
    (fits : SignedFits 9 value) :
    execAligned (arithi op dst src value) registers memory =
      some ⟨registers.setGpr dst (operation (registers.gpr src) (BitVec.ofInt 32 value)),
        memory, none⟩ := by
  apply exec_aligned_of rfl
  exact exec_routine_of_exec (exec_arith_imm registers memory known dst src fits)

theorem aligned_cmpeq (dst src0 src1 : Fin 64) :
    execAligned (cmpeq_i32 dst src0 src1) registers memory =
      some ⟨registers.setGpr dst (compareResult (registers.gpr src0 == registers.gpr src1)),
        memory, none⟩ := by
  apply exec_aligned_of rfl
  simp only [execRoutine, cmpeq_i32, s]
  rw [field_reg_eq .dst (sReg dst) rfl, field_reg_eq .src0 (sReg src0) rfl,
    field_reg_eq .src1 (sReg src1) rfl]
  rfl

theorem aligned_cmpulti (dst src : Fin 64) {value : Int} (fits : SignedFits 9 value) :
    execAligned (cmpulti dst src value) registers memory =
      some ⟨registers.setGpr dst
        (compareResult ((registers.gpr src).ult (BitVec.ofInt 32 value))), memory, none⟩ := by
  apply exec_aligned_of rfl
  simp only [execRoutine, cmpulti, s]
  rw [field_reg_eq .dst (sReg dst) rfl, field_reg_eq .src (sReg src) rfl,
    field_simm9_eq .imm fits rfl]
  rfl

theorem aligned_beqz (cond : Fin 64) (label : Label) :
    execAligned (beqz cond label) registers memory =
      some ⟨registers, memory, if registers.gpr cond = 0 then some label.number else none⟩ := by
  have branched := exec_branch_zero registers memory (s cond) label.number
  rw [s, tested_register_reg] at branched
  apply exec_aligned_of rfl
  exact exec_routine_of_exec branched

theorem aligned_bnez (cond : Fin 64) (label : Label) :
    execAligned (bnez cond label) registers memory =
      some ⟨registers, memory, if registers.gpr cond ≠ 0 then some label.number else none⟩ := by
  have branched := exec_branch_nonzero registers memory (s cond) label.number
  rw [s, tested_register_reg] at branched
  apply exec_aligned_of rfl
  exact exec_routine_of_exec branched

theorem aligned_jmp (label : Label) :
    execAligned (jmp label) registers memory = some ⟨registers, memory, some label.number⟩ := rfl

end Instructions

section Pieces

/-- The load and the store copy bytes from `s1` to `s0` when both are aligned, and change no
register but the one they use. -/
def Copies (load store : MCInst) (size place : Nat) : Prop :=
  ∀ (registers : Registers) (memory : Memory 32), (registers.gpr 0).toNat % place = 0 →
    (registers.gpr 1).toNat % place = 0 →
    ∃ loaded, execAligned load registers memory = some ⟨loaded, memory, none⟩ ∧
      execAligned store loaded memory = some ⟨loaded,
        storeBytes memory (registers.gpr 0) (loadBytes memory (registers.gpr 1) size), none⟩ ∧
      (∀ index, index ≠ 4 → loaded.gpr index = registers.gpr index) ∧
      ∀ index, index ≠ 0 → loaded.vec index = registers.vec index

theorem scalar_address {inst : MCInst} (base : Fin 64)
    (encoded : varValue inst .addr = (packMemory (sReg base) 0).toNat) (registers : Registers) :
    fieldAddress inst registers = registers.gpr base := by
  rw [field_address_eq (sReg base) (by decide) encoded]
  exact BitVec.add_zero _

theorem aligned_of_base {inst : MCInst} {registers : Registers} {size : Nat} (base : Fin 64)
    (encoded : varValue inst .addr = (packMemory (sReg base) 0).toNat)
    (checked : alignedAccess inst registers = ((fieldAddress inst registers).toNat % size == 0))
    (aligned : (registers.gpr base).toNat % size = 0) : alignedAccess inst registers = true := by
  rw [checked, scalar_address base encoded]
  exact beq_iff_eq.mpr aligned

theorem copies_word : Copies (loadFrom .L32W 4 1) (storeTo .S32W 4 0) 4 4 := by
  intro registers memory destAligned srcAligned
  have load := exec_load registers memory 4 1 (show SignedFits 9 0 by decide)
  have store := exec_store (registers.setGpr 4 (loadWord32 memory (registers.gpr 1))) memory 4 0
    (show SignedFits 9 0 by decide)
  have zero (address : Word) : address + BitVec.ofInt 32 0 = address := BitVec.add_zero _
  rw [zero] at load store
  have stored := store_word_load_word memory memory (registers.gpr 0) (registers.gpr 1) 4
  refine ⟨registers.setGpr 4 (loadWord32 memory (registers.gpr 1)), ?_, ?_, ?_, ?_⟩
  · apply exec_aligned_of
    · exact aligned_of_base 1 rfl rfl srcAligned
    · exact exec_routine_of_exec load
  · rw [← stored]
    apply exec_aligned_of
    · exact aligned_of_base 0 rfl rfl destAligned
    · exact exec_routine_of_exec store
  · intro index other
    rw [set_gpr_gpr, Function.update_of_ne other]
  · intro index other
    rfl

theorem copies_vector : Copies (load_v16i32 0 1) (store_v16i32 0 0) 64 64 := by
  intro registers memory destAligned srcAligned
  have load := exec_load_vector registers memory 0 1 (show SignedFits 9 0 by decide)
  have store := exec_store_vector (registers.setVec 0 (loadWord memory (registers.gpr 1) 64))
    memory 0 0 (show SignedFits 9 0 by decide)
  have zero (address : Word) : address + BitVec.ofInt 32 0 = address := BitVec.add_zero _
  rw [zero] at load store
  have stored := store_word_load_word memory memory (registers.gpr 0) (registers.gpr 1) 64
  refine ⟨registers.setVec 0 (loadWord memory (registers.gpr 1) 64), ?_, ?_, ?_, ?_⟩
  · apply exec_aligned_of
    · exact aligned_of_base 1 rfl rfl srcAligned
    · exact exec_routine_of_exec load
  · rw [← stored]
    apply exec_aligned_of
    · exact aligned_of_base 0 rfl rfl destAligned
    · rw [set_vec_vec, Function.update_self] at store
      exact exec_routine_of_exec store
  · intro index other
    rfl
  · intro index other
    rw [set_vec_vec, Function.update_of_ne other]

theorem load_byte (dst base : Fin 64) (registers : Registers) (memory : Memory 32) :
    execAligned (loadFrom .L32BU dst base) registers memory =
      some ⟨registers.setGpr dst ((loadWord memory (registers.gpr base) 1).setWidth 32),
        memory, none⟩ := by
  apply exec_aligned_of rfl
  simp only [execRoutine, loadFrom, s]
  rw [field_reg_eq .dstsrc (sReg dst) rfl, scalar_address base rfl]
  rfl

theorem store_byte (src base : Fin 64) (registers : Registers) (memory : Memory 32) :
    execAligned (storeTo .S32B src base) registers memory =
      some ⟨registers, storeWord memory (registers.gpr base) 1
        ((registers.gpr src).setWidth 8), none⟩ := by
  apply exec_aligned_of rfl
  simp only [execRoutine, storeTo, s]
  rw [field_reg_eq .dstsrc (sReg src) rfl, scalar_address base rfl]
  rfl

theorem copies_byte : Copies (loadFrom .L32BU 4 1) (storeTo .S32B 4 0) 1 1 := by
  intro registers memory _ _
  have stored := store_word_load_word memory memory (registers.gpr 0) (registers.gpr 1) 1
  have low : ((loadWord memory (registers.gpr 1) 1).setWidth 32).setWidth 8 =
      loadWord memory (registers.gpr 1) 1 := by
    rw [BitVec.setWidth_setWidth_of_le _ (by decide)]
    exact BitVec.setWidth_eq _
  refine ⟨_, load_byte 4 1 registers memory, ?_, ?_, ?_⟩
  · rw [store_byte, set_gpr_gpr, Function.update_self, low, ← stored]
    rfl
  · intro index other
    rw [set_gpr_gpr, Function.update_of_ne other]
  · intro index other
    rfl

end Pieces

section Progress

/-- The ranges of a call neither wrap nor overlap. -/
structure Call (entry : Registers) : Prop where
  dest_inside : (entry.gpr 0).toNat + (entry.gpr 2).toNat ≤ 2 ^ 32
  src_inside : (entry.gpr 1).toNat + (entry.gpr 2).toNat ≤ 2 ^ 32
  apart : (entry.gpr 0).toNat + (entry.gpr 2).toNat ≤ (entry.gpr 1).toNat ∨
    (entry.gpr 1).toNat + (entry.gpr 2).toNat ≤ (entry.gpr 0).toNat

/-- The first bytes are copied, and the registers stand at the next one. -/
structure Progress (entry : Registers) (old : Memory 32) (done : Nat) (registers : Registers)
    (memory : Memory 32) : Prop where
  bounded : done ≤ (entry.gpr 2).toNat
  dest : registers.gpr 0 = entry.gpr 0 + BitVec.ofNat 32 done
  src : registers.gpr 1 = entry.gpr 1 + BitVec.ofNat 32 done
  count : (registers.gpr 2).toNat = (entry.gpr 2).toNat - done
  result : registers.gpr 6 = entry.gpr 0
  content : memory = copied old (entry.gpr 0) (entry.gpr 1) done
  saved : ∀ register ∈ calleeSavedRegs, valueOf registers register = valueOf entry register

variable {entry registers : Registers} {old memory : Memory 32} {done : Nat}

/-- What is copied next does not lie in what was copied to. -/
theorem Call.source_apart (call : Call entry) {size : Nat}
    (enough : done + size ≤ (entry.gpr 2).toNat) :
    Apart (entry.gpr 0) done (entry.gpr 1 + BitVec.ofNat 32 done) size := by
  intro offset inside
  have destInside := call.dest_inside
  have srcInside := call.src_inside
  have apart := call.apart
  have countLt := (entry.gpr 2).isLt
  rw [BitVec.add_assoc, ← BitVec.ofNat_add, offsetFrom, BitVec.toNat_sub, BitVec.toNat_add,
    BitVec.toNat_ofNat]
  omega

theorem Progress.set_scratch (progress : Progress entry old done registers memory)
    {index : Fin 64} (scratch : index = 3 ∨ index = 4 ∨ index = 5) (value : Word) :
    Progress entry old done (registers.setGpr index value) memory := by
  have unsaved : ∀ register ∈ calleeSavedRegs, register ≠ sReg index := by
    rcases scratch with rfl | rfl | rfl <;> decide
  have others : (0 : Fin 64) ≠ index ∧ (1 : Fin 64) ≠ index ∧ (2 : Fin 64) ≠ index ∧
      (6 : Fin 64) ≠ index := by
    rcases scratch with rfl | rfl | rfl <;> decide
  obtain ⟨zero, one, two, six⟩ := others
  refine ⟨progress.bounded, ?_, ?_, ?_, ?_, progress.content, ?_⟩
  · rw [set_gpr_gpr, Function.update_of_ne zero, progress.dest]
  · rw [set_gpr_gpr, Function.update_of_ne one, progress.src]
  · rw [set_gpr_gpr, Function.update_of_ne two, progress.count]
  · rw [set_gpr_gpr, Function.update_of_ne six, progress.result]
  · intro register saved
    rw [value_of_set_gpr_other registers value (unsaved register saved),
      progress.saved register saved]

theorem Progress.copy_bytes (call : Call entry)
    (progress : Progress entry old done registers memory) {size : Nat} (positive : 0 < size)
    (enough : done + size ≤ (entry.gpr 2).toNat) :
    storeBytes memory (registers.gpr 0) (loadBytes memory (registers.gpr 1) size) =
      copied old (entry.gpr 0) (entry.gpr 1) (done + size) := by
  have countLt := (entry.gpr 2).isLt
  rw [progress.dest, progress.src, progress.content, load_copied old _ _ (call.source_apart enough),
    store_copied old _ _ (by omega) positive]

/-- The pointers go up and the count goes down by what was copied. -/
theorem Progress.advanced (progress : Progress entry old done registers memory) {size : Nat}
    (enough : done + size ≤ (entry.gpr 2).toNat) {loaded : Registers}
    (scalars : ∀ index, index ≠ 4 → loaded.gpr index = registers.gpr index)
    (vectors : ∀ index, index ≠ 0 → loaded.vec index = registers.vec index) :
    Progress entry old (done + size)
      (((loaded.setGpr 0 (loaded.gpr 0 + BitVec.ofInt 32 size)).setGpr 1
        (loaded.gpr 1 + BitVec.ofInt 32 size)).setGpr 2 (loaded.gpr 2 - BitVec.ofInt 32 size))
      (copied old (entry.gpr 0) (entry.gpr 1) (done + size)) where
  bounded := enough
  dest := by
    simp only [set_gpr_gpr]
    rw [Function.update_of_ne (by decide), Function.update_of_ne (by decide), Function.update_self,
      scalars 0 (by decide), progress.dest, BitVec.ofInt_natCast, BitVec.add_assoc,
      BitVec.ofNat_add]
  src := by
    simp only [set_gpr_gpr]
    rw [Function.update_of_ne (by decide), Function.update_self, scalars 1 (by decide),
      progress.src, BitVec.ofInt_natCast, BitVec.add_assoc, BitVec.ofNat_add]
  count := by
    have count := progress.count
    have countLt := (entry.gpr 2).isLt
    simp only [set_gpr_gpr]
    rw [Function.update_self, scalars 2 (by decide), BitVec.ofInt_natCast, BitVec.toNat_sub,
      BitVec.toNat_ofNat]
    omega
  result := by
    simp only [set_gpr_gpr]
    rw [Function.update_of_ne (by decide), Function.update_of_ne (by decide),
      Function.update_of_ne (by decide), scalars 6 (by decide), progress.result]
  content := rfl
  saved := by
    intro register saved
    have apart : register ≠ sReg 0 ∧ register ≠ sReg 1 ∧ register ≠ sReg 2 ∧ register ≠ sReg 4 ∧
        register ≠ vReg 0 := by
      revert register
      decide
    obtain ⟨zero, one, two, four, vector⟩ := apart
    rw [value_of_set_gpr_other _ _ two, value_of_set_gpr_other _ _ one,
      value_of_set_gpr_other _ _ zero, ← progress.saved register saved]
    rcases register with ⟨cls, index⟩
    cases cls with
    | GPR32 => exact scalars index fun same => four (same ▸ rfl)
    | VR512W => exact vectors index fun same => vector (same ▸ rfl)

variable {load store : MCInst} {size place : Nat} {loop : Label} {block : Nat}
  {code : List MCInst}

theorem piece_runs (index : Nat) (call : Call entry) (copies : Copies load store size place)
    (fits : SignedFits 9 size) (positive : 0 < size) (laidOut : memcpy[block]? = some code)
    (here : code.drop index = copyPiece load store size loop)
    (progress : Progress entry old done registers memory)
    (enough : done + size ≤ (entry.gpr 2).toNat)
    (destAligned : (registers.gpr 0).toNat % place = 0)
    (srcAligned : (registers.gpr 1).toNat % place = 0) :
    ∃ next nextMemory,
      Runs (⟨block, index, registers⟩, memory) (⟨loop.number, 0, next⟩, nextMemory) ∧
      Progress entry old (done + size) next nextMemory := by
  obtain ⟨loaded, loads, stores, scalars, vectors⟩ :=
    copies registers memory destAligned srcAligned
  rw [progress.copy_bytes call positive enough] at stores
  have inst (offset : Nat) : code[index + offset]? = (copyPiece load store size loop)[offset]? := by
    rw [← here, List.getElem?_drop]
  have length := congrArg List.length here
  rw [List.length_drop] at length
  have inside : index + 6 = code.length := by
    change code.length - index = 6 at length
    omega
  have addDest := aligned_arithi loaded (copied old (entry.gpr 0) (entry.gpr 1) (done + size))
    (show alu .ADD = some _ from rfl) 0 0 fits
  have addSrc := aligned_arithi (loaded.setGpr 0 (loaded.gpr 0 + BitVec.ofInt 32 size))
    (copied old (entry.gpr 0) (entry.gpr 1) (done + size)) (show alu .ADD = some _ from rfl) 1 1
    fits
  refine ⟨_, _, ?_, progress.advanced enough scalars vectors⟩
  apply reaches_trans (runs_next laidOut (inst 0) loads (by omega))
  apply reaches_trans (runs_next laidOut (inst 1) stores (by omega))
  apply reaches_trans (runs_next laidOut (inst 2) addDest (by omega))
  apply reaches_trans (runs_next laidOut (inst 3) addSrc (by omega))
  apply reaches_trans (runs_next laidOut (inst 4) (aligned_arithi _ _ rfl 2 2 fits) (by omega))
  exact runs_jump laidOut (inst 5) (aligned_jmp _ _ loop)

end Progress

section Branches

variable {block index : Nat} {code : List MCInst} {registers : Registers} {memory : Memory 32}
  {cond : Fin 64} {label : Label}

theorem runs_beqz_taken (laidOut : memcpy[block]? = some code)
    (here : code[index]? = some (beqz cond label)) (zero : registers.gpr cond = 0) :
    Runs (⟨block, index, registers⟩, memory) (⟨label.number, 0, registers⟩, memory) := by
  have branched := aligned_beqz registers memory cond label
  rw [if_pos zero] at branched
  exact runs_jump laidOut here branched

theorem runs_beqz_passed (laidOut : memcpy[block]? = some code)
    (here : code[index]? = some (beqz cond label)) (nonzero : registers.gpr cond ≠ 0)
    (more : index + 1 < code.length) :
    Runs (⟨block, index, registers⟩, memory) (⟨block, index + 1, registers⟩, memory) := by
  have branched := aligned_beqz registers memory cond label
  rw [if_neg nonzero] at branched
  exact runs_next laidOut here branched more

theorem runs_beqz_fallen (laidOut : memcpy[block]? = some code)
    (here : code[index]? = some (beqz cond label)) (nonzero : registers.gpr cond ≠ 0)
    (last : index + 1 = code.length) :
    Runs (⟨block, index, registers⟩, memory) (⟨block + 1, 0, registers⟩, memory) := by
  have branched := aligned_beqz registers memory cond label
  rw [if_neg nonzero] at branched
  have run := runs_inst laidOut here branched
  have outside : ¬ index + 1 < code.length := by omega
  simp only [advance, outside, if_false] at run
  exact run

theorem runs_bnez_taken (laidOut : memcpy[block]? = some code)
    (here : code[index]? = some (bnez cond label)) (nonzero : registers.gpr cond ≠ 0) :
    Runs (⟨block, index, registers⟩, memory) (⟨label.number, 0, registers⟩, memory) := by
  have branched := aligned_bnez registers memory cond label
  rw [if_pos nonzero] at branched
  exact runs_jump laidOut here branched

theorem runs_bnez_passed (laidOut : memcpy[block]? = some code)
    (here : code[index]? = some (bnez cond label)) (zero : registers.gpr cond = 0)
    (more : index + 1 < code.length) :
    Runs (⟨block, index, registers⟩, memory) (⟨block, index + 1, registers⟩, memory) := by
  have branched := aligned_bnez registers memory cond label
  rw [if_neg (not_not.mpr zero)] at branched
  exact runs_next laidOut here branched more

/-- An immediate that is a size is that size. -/
theorem size_to_nat {size : Nat} (fits : SignedFits 9 size) :
    (BitVec.ofInt 32 (size : Int)).toNat = size := by
  have bound := fits.2
  rw [BitVec.ofInt_natCast, BitVec.toNat_ofNat]
  omega

theorem runs_if_less (registers : Registers) (memory : Memory 32) {size : Nat}
    (fits : SignedFits 9 size) (laidOut : memcpy[block]? = some code)
    (compares : code[index]? = some (cmpulti 4 2 size))
    (branches : code[index + 1]? = some (bnez 4 label)) (more : index + 2 < code.length) :
    ∃ flag,
      ((registers.gpr 2).toNat < size → Runs (⟨block, index, registers⟩, memory)
        (⟨label.number, 0, registers.setGpr 4 flag⟩, memory)) ∧
      (size ≤ (registers.gpr 2).toNat → Runs (⟨block, index, registers⟩, memory)
        (⟨block, index + 2, registers.setGpr 4 flag⟩, memory)) := by
  have less : (registers.gpr 2).ult (BitVec.ofInt 32 size) =
      decide ((registers.gpr 2).toNat < size) := by
    rw [BitVec.ult, size_to_nat fits]
  have compared := aligned_cmpulti registers memory 4 2 fits
  rw [less] at compared
  have first := runs_next laidOut compares compared (by omega)
  have flag : (registers.setGpr 4 (compareResult (decide ((registers.gpr 2).toNat < size)))).gpr 4 =
      compareResult (decide ((registers.gpr 2).toNat < size)) := by
    rw [set_gpr_gpr, Function.update_self]
  refine ⟨compareResult (decide ((registers.gpr 2).toNat < size)), ?_, ?_⟩
  · intro below
    apply reaches_trans first (runs_bnez_taken laidOut branches ?_)
    rw [flag, decide_eq_true below]
    decide
  · intro above
    apply reaches_trans first (runs_bnez_passed laidOut branches ?_ more)
    rw [flag, decide_eq_false (not_lt.mpr above)]
    rfl

end Branches

section Loops

def At (label : Label) (holds : Registers → Memory 32 → Prop) (state : Thread × Memory 32) : Prop :=
  ∃ registers memory, state = (⟨label.number, 0, registers⟩, memory) ∧ holds registers memory

variable (entry : Registers) (old : Memory 32)

def Finished : Thread × Memory 32 → Prop :=
  At .copy_done (Progress entry old (entry.gpr 2).toNat)

def Finishes (state : Thread × Memory 32) : Prop :=
  ∃ final, Runs state final ∧ Finished entry old final

variable {entry : Registers} {old : Memory 32} {registers : Registers} {memory : Memory 32}
  {done : Nat}

theorem finishes_after {state middle : Thread × Memory 32} (run : Runs state middle)
    (finishes : Finishes entry old middle) : Finishes entry old state := by
  obtain ⟨final, rest, finished⟩ := finishes
  exact ⟨final, reaches_trans run rest, finished⟩

theorem Progress.finished (progress : Progress entry old done registers memory)
    (empty : registers.gpr 2 = 0) :
    Finished entry old (⟨Label.copy_done.number, 0, registers⟩, memory) := by
  have count := progress.count
  have bounded := progress.bounded
  have zero : (registers.gpr 2).toNat = 0 := by rw [empty]; rfl
  have all : done = (entry.gpr 2).toNat := by omega
  exact ⟨registers, memory, rfl, all ▸ progress⟩

theorem Progress.enough (progress : Progress entry old done registers memory) {size : Nat}
    (more : size ≤ (registers.gpr 2).toNat) : done + size ≤ (entry.gpr 2).toNat := by
  have count := progress.count
  have bounded := progress.bounded
  omega

theorem remain_finishes (call : Call entry) {state : Thread × Memory 32}
    (reached : At .copy_remain_bytes (Progress entry old done) state) :
    Finishes entry old state := by
  have laidOut : memcpy[Label.copy_remain_bytes.number]? =
      some ([beqz 2 .copy_done] ++ copyByte .copy_remain_bytes) := rfl
  apply reaches_exit (fun index => At .copy_remain_bytes (Progress entry old index))
    (fun index => (entry.gpr 2).toNat - index) ?_ done state reached
  intro done state inside
  obtain ⟨registers, memory, rfl, progress⟩ := inside
  by_cases empty : registers.gpr 2 = 0
  · left
    exact ⟨_, runs_beqz_taken laidOut rfl empty, progress.finished empty⟩
  · right
    have enough := progress.enough (BitVec.toNat_pos_of_ne_zero empty)
    obtain ⟨next, nextMemory, run, further⟩ := piece_runs 1 call copies_byte (by decide) (by decide)
      laidOut rfl progress enough (Nat.mod_one _) (Nat.mod_one _)
    refine ⟨done + 1, _, by omega, ?_, next, nextMemory, rfl, further⟩
    exact reaches_trans (runs_beqz_passed laidOut rfl empty (by decide)) run

def PlaceAligned (place : Nat) (registers : Registers) : Prop :=
  (registers.gpr 0).toNat % place = 0 ∧ (registers.gpr 1).toNat % place = 0

/-- A place divides what the addresses wrap at. -/
theorem aligned_further {size place : Nat} (known : place = 4 ∨ place = 64)
    (whole : size % place = 0) (progress : Progress entry old done registers memory)
    {next : Registers} {nextMemory : Memory 32}
    (further : Progress entry old (done + size) next nextMemory)
    (aligned : PlaceAligned place registers) : PlaceAligned place next := by
  have dest := aligned.1
  have src := aligned.2
  rw [progress.dest, BitVec.toNat_add, BitVec.toNat_ofNat] at dest
  rw [progress.src, BitVec.toNat_add, BitVec.toNat_ofNat] at src
  rw [PlaceAligned, further.dest, further.src, BitVec.toNat_add, BitVec.toNat_add,
    BitVec.toNat_ofNat]
  rcases known with rfl | rfl <;> omega

def AlignedProgress (entry : Registers) (old : Memory 32) (place done : Nat)
    (registers : Registers) (memory : Memory 32) : Prop :=
  Progress entry old done registers memory ∧ PlaceAligned place registers

/-- The progress of a loop whose pointers stand at the same place. -/
def LevelProgress (entry : Registers) (old : Memory 32) (place done : Nat)
    (registers : Registers) (memory : Memory 32) : Prop :=
  Progress entry old done registers memory ∧
    (registers.gpr 0).toNat % place = (registers.gpr 1).toNat % place

variable {load store : MCInst} {size place : Nat} {label exit : Label}

theorem pieces_finish (call : Call entry) (copies : Copies load store size place)
    (known : place = 4 ∨ place = 64) (whole : size % place = 0) (positive : 0 < size)
    (fits : SignedFits 9 size)
    (laidOut : memcpy[label.number]? =
      some ([cmpulti 4 2 size, bnez 4 exit] ++ copyPiece load store size label))
    (after : ∀ done state, At exit (AlignedProgress entry old place done) state →
      Finishes entry old state)
    {state : Thread × Memory 32} (reached : At label (AlignedProgress entry old place done) state) :
    Finishes entry old state := by
  apply reaches_exit (fun index => At label (AlignedProgress entry old place index))
    (fun index => (entry.gpr 2).toNat - index) ?_ done state reached
  intro done state inside
  obtain ⟨registers, memory, rfl, progress, aligned⟩ := inside
  have more :
      0 + 2 < ([cmpulti 4 2 size, bnez 4 exit] ++ copyPiece load store size label).length := by
    simp [copyPiece]
  obtain ⟨flag, leaves, stays⟩ := runs_if_less registers memory fits laidOut rfl rfl more
  have flagged := progress.set_scratch (Or.inr (Or.inl rfl)) flag
  rcases Nat.lt_or_ge (registers.gpr 2).toNat size with few | many
  · left
    exact finishes_after (leaves few) (after done _ ⟨_, _, rfl, flagged, aligned⟩)
  · right
    have enough := progress.enough many
    obtain ⟨next, nextMemory, run, further⟩ := piece_runs 2 call copies fits positive laidOut rfl
      flagged enough aligned.1 aligned.2
    refine ⟨done + size, _, by omega, ?_, next, nextMemory, rfl, further, ?_⟩
    · exact reaches_trans (stays many) run
    · exact aligned_further known whole progress further aligned

theorem level_further {size place : Nat} (known : place = 4 ∨ place = 64)
    (progress : Progress entry old done registers memory) {next : Registers}
    {nextMemory : Memory 32}
    (further : Progress entry old (done + size) next nextMemory)
    (level : (registers.gpr 0).toNat % place = (registers.gpr 1).toNat % place) :
    (next.gpr 0).toNat % place = (next.gpr 1).toNat % place := by
  rw [progress.dest, progress.src, BitVec.toNat_add, BitVec.toNat_add, BitVec.toNat_ofNat] at level
  rw [further.dest, further.src, BitVec.toNat_add, BitVec.toNat_add, BitVec.toNat_ofNat]
  rcases known with rfl | rfl <;> omega

variable {mask : Int} {target : Label}

/-- The immediate that keeps the place of an address. -/
def Masks (mask : Int) (place : Nat) : Prop :=
  SignedFits 9 mask ∧ ∀ value : Word, (value &&& BitVec.ofInt 32 mask).toNat = value.toNat % place

/-- Bytes are copied up to a multiple, or until none is left. -/
theorem lead_in_finishes (call : Call entry) (masks : Masks mask place)
    (known : place = 4 ∨ place = 64)
    (laidOut : memcpy[label.number]? =
      some ([arithi .AND 4 0 mask, beqz 4 target, beqz 2 .copy_done] ++ copyByte label))
    (after : ∀ done state, At target (AlignedProgress entry old place done) state →
      Finishes entry old state)
    {state : Thread × Memory 32} (reached : At label (LevelProgress entry old place done) state) :
    Finishes entry old state := by
  apply reaches_exit (fun index => At label (LevelProgress entry old place index))
    (fun index => (entry.gpr 2).toNat - index) ?_ done state reached
  intro done state inside
  obtain ⟨registers, memory, rfl, progress, level⟩ := inside
  have length :
      ([arithi .AND 4 0 mask, beqz 4 target, beqz 2 .copy_done] ++ copyByte label).length = 9 := rfl
  have placed := masks.2 (registers.gpr 0)
  have flagged := progress.set_scratch (Or.inr (Or.inl rfl))
    (registers.gpr 0 &&& BitVec.ofInt 32 mask)
  have first : Runs (⟨label.number, 0, registers⟩, memory) (⟨label.number, 1,
      registers.setGpr 4 (registers.gpr 0 &&& BitVec.ofInt 32 mask)⟩, memory) :=
    runs_next laidOut rfl (aligned_arithi registers memory rfl 4 0 masks.1) (by omega)
  by_cases aligned : registers.gpr 0 &&& BitVec.ofInt 32 mask = 0
  · left
    have zero : (registers.gpr 0).toNat % place = 0 := by
      rw [← placed, aligned]
      rfl
    apply finishes_after (reaches_trans first (runs_beqz_taken laidOut rfl aligned))
    exact after done _ ⟨_, _, rfl, flagged, zero, level.symm.trans zero⟩
  · have second := reaches_trans first (runs_beqz_passed laidOut rfl aligned (by omega))
    by_cases empty : registers.gpr 2 = 0
    · left
      exact ⟨_, reaches_trans second (runs_beqz_taken laidOut rfl empty), flagged.finished empty⟩
    · right
      have enough := progress.enough (BitVec.toNat_pos_of_ne_zero empty)
      obtain ⟨next, nextMemory, run, further⟩ := piece_runs 3 call copies_byte (by decide)
        (by decide) laidOut rfl flagged enough (Nat.mod_one _) (Nat.mod_one _)
      refine ⟨done + 1, _, by omega, ?_, next, nextMemory, rfl, further, ?_⟩
      · apply reaches_trans second
        exact reaches_trans (runs_beqz_passed laidOut rfl empty (by omega)) run
      · exact level_further known progress further level

/-- Compares the places of both pointers, and goes on at a label if they differ or to the next
block if they are the same. -/
theorem check_runs (index : Nat) {block : Nat} {code : List MCInst} (masks : Masks mask place)
    (laidOut : memcpy[block]? = some code)
    (here : code.drop index =
      [arithi .AND 3 0 mask, arithi .AND 4 1 mask, cmpeq_i32 5 3 4, beqz 5 target])
    (progress : Progress entry old done registers memory) :
    ∃ next, Progress entry old done next memory ∧
      (Runs (⟨block, index, registers⟩, memory) (⟨target.number, 0, next⟩, memory) ∨
        Runs (⟨block, index, registers⟩, memory) (⟨block + 1, 0, next⟩, memory) ∧
          (next.gpr 0).toNat % place = (next.gpr 1).toNat % place) := by
  have inst (offset : Nat) : code[index + offset]? =
      [arithi .AND 3 0 mask, arithi .AND 4 1 mask, cmpeq_i32 5 3 4, beqz 5 target][offset]? := by
    rw [← here, List.getElem?_drop]
  have length := congrArg List.length here
  rw [List.length_drop] at length
  have inside : index + 4 = code.length := by
    change code.length - index = 4 at length
    omega
  let first := registers.setGpr 3 (registers.gpr 0 &&& BitVec.ofInt 32 mask)
  let second := first.setGpr 4 (registers.gpr 1 &&& BitVec.ofInt 32 mask)
  let third := second.setGpr 5 (compareResult (registers.gpr 0 &&& BitVec.ofInt 32 mask ==
    registers.gpr 1 &&& BitVec.ofInt 32 mask))
  have compared : Runs (⟨block, index, registers⟩, memory) (⟨block, index + 3, third⟩, memory) := by
    apply reaches_trans (runs_next laidOut (inst 0)
      (aligned_arithi registers memory rfl 3 0 masks.1) (by omega))
    apply reaches_trans (runs_next laidOut (inst 1)
      (aligned_arithi first memory rfl 4 1 masks.1) (by omega))
    exact runs_next laidOut (inst 2) (aligned_cmpeq second memory 5 3 4) (by omega)
  refine ⟨third, ?_, ?_⟩
  · exact ((progress.set_scratch (Or.inl rfl) _).set_scratch (Or.inr (Or.inl rfl)) _).set_scratch
      (Or.inr (Or.inr rfl)) _
  · by_cases differ : third.gpr 5 = 0
    · left
      exact reaches_trans compared (runs_beqz_taken laidOut (inst 3) differ)
    · right
      constructor
      · exact reaches_trans compared (runs_beqz_fallen laidOut (inst 3) differ (by omega))
      · have flag : third.gpr 5 = compareResult (registers.gpr 0 &&& BitVec.ofInt 32 mask ==
            registers.gpr 1 &&& BitVec.ofInt 32 mask) := by
          rw [set_gpr_gpr, Function.update_self]
        rw [flag, compare_result_zero_iff, Bool.not_eq_false, beq_iff_eq] at differ
        have same := congrArg BitVec.toNat differ
        rw [masks.2, masks.2] at same
        exact same

theorem masks_low_bits {mask : Int} (bits : Nat) (fits : SignedFits 9 mask)
    (ones : (BitVec.ofInt 32 mask).toNat = 2 ^ bits - 1) : Masks mask (2 ^ bits) := by
  refine ⟨fits, ?_⟩
  intro value
  rw [BitVec.toNat_and, ones, Nat.and_two_pow_sub_one_eq_mod]

theorem masks_word : Masks 3 4 := masks_low_bits 2 (by decide) rfl

theorem masks_vector : Masks 63 64 := masks_low_bits 6 (by decide) rfl

theorem words_finish (call : Call entry) (done : Nat) (state : Thread × Memory 32)
    (reached : At .copy_words (AlignedProgress entry old 4 done) state) :
    Finishes entry old state := by
  apply pieces_finish call copies_word (Or.inl rfl) rfl (by decide) (by decide) rfl ?_ reached
  intro done state remains
  obtain ⟨registers, memory, rfl, progress, -⟩ := remains
  exact remain_finishes call ⟨registers, memory, rfl, progress⟩

theorem vectors_finish (call : Call entry) (done : Nat) (state : Thread × Memory 32)
    (reached : At .copy_vector (AlignedProgress entry old 64 done) state) :
    Finishes entry old state := by
  apply pieces_finish call copies_vector (Or.inr rfl) rfl (by decide) (by decide) rfl ?_ reached
  intro done state words
  obtain ⟨registers, memory, rfl, progress, aligned⟩ := words
  apply words_finish call done
  refine ⟨registers, memory, rfl, progress, ?_, ?_⟩
  · have dest := aligned.1
    omega
  · have src := aligned.2
    omega

/-- Without a common place in a vector, words are copied if there is one in a word. -/
theorem word_check_finishes (call : Call entry) {state : Thread × Memory 32}
    (reached : At .copy_word_check (Progress entry old done) state) : Finishes entry old state := by
  obtain ⟨registers, memory, rfl, progress⟩ := reached
  obtain ⟨next, checked, differ | ⟨same, level⟩⟩ :=
    check_runs 0 masks_word (show memcpy[Label.copy_word_check.number]? = some _ from rfl) rfl
      progress
  · exact finishes_after differ (remain_finishes call ⟨next, memory, rfl, checked⟩)
  · have leadIn : At .copy_word_lead_in (LevelProgress entry old 4 done)
        (⟨Label.copy_word_check.number + 1, 0, next⟩, memory) :=
      ⟨next, memory, rfl, checked, level⟩
    apply finishes_after same
    exact lead_in_finishes call masks_word (Or.inl rfl) rfl (words_finish call) leadIn

theorem memcpy_finishes (call : Call entry) (memory : Memory 32) :
    Finishes entry memory (⟨Label.memcpy.number, 0, entry⟩, memory) := by
  have started : Progress entry memory 0 (entry.setGpr 6 (entry.gpr 0)) memory := by
    refine ⟨Nat.zero_le _, ?_, ?_, rfl, ?_, (copied_nothing memory _ _).symm, ?_⟩
    · rw [set_gpr_gpr, Function.update_of_ne (by decide)]
      exact (BitVec.add_zero _).symm
    · rw [set_gpr_gpr, Function.update_of_ne (by decide)]
      exact (BitVec.add_zero _).symm
    · rw [set_gpr_gpr, Function.update_self]
    · intro register saved
      apply value_of_set_gpr_other
      revert register
      decide
  have first : Runs (⟨0, 0, entry⟩, memory) (⟨0, 1, entry.setGpr 6 (entry.gpr 0)⟩, memory) :=
    runs_next rfl rfl (aligned_move entry memory 6 0) (by decide)
  apply finishes_after first
  obtain ⟨next, checked, differ | ⟨same, level⟩⟩ :=
    check_runs 1 masks_vector (show memcpy[0]? = some _ from rfl) rfl started
  · exact finishes_after differ (word_check_finishes call ⟨next, memory, rfl, checked⟩)
  · have leadIn : At .copy_vector_lead_in (LevelProgress entry memory 64 0)
        (⟨0 + 1, 0, next⟩, memory) := ⟨next, memory, rfl, checked, level⟩
    apply finishes_after same
    exact lead_in_finishes call masks_vector (Or.inr rfl) rfl (vectors_finish call) leadIn

end Loops

section Main

/-- What a call must do: it comes to its return through aligned accesses, with the bytes copied
and nothing else changed but registers that need not be saved. -/
structure CopiesBlock (entry : Registers) (memory : Memory 32) (count : Nat)
    (final : Thread × Memory 32) : Prop where
  run : iterate step count (⟨Label.memcpy.number, 0, entry⟩, memory) = some final
  returned : nextInst final.1 = some jret
  result : final.1.registers.gpr 0 = entry.gpr 0
  inside : ∀ offset < (entry.gpr 2).toNat, final.2 (entry.gpr 0 + BitVec.ofNat 32 offset) =
    memory (entry.gpr 1 + BitVec.ofNat 32 offset)
  outside : ∀ cell, (∀ offset < (entry.gpr 2).toNat, cell ≠ entry.gpr 0 + BitVec.ofNat 32 offset) →
    final.2 cell = memory cell
  aligned : ∀ index < count, ∀ state,
    iterate step index (⟨Label.memcpy.number, 0, entry⟩, memory) = some state → Aligned state
  saved : ∀ register ∈ calleeSavedRegs,
    valueOf final.1.registers register = valueOf entry register

/-- A call on ranges that neither wrap nor overlap copies the block. -/
theorem memcpy_copies (entry : Registers) (memory : Memory 32) (call : Call entry) :
    ∃ count final, CopiesBlock entry memory count final := by
  obtain ⟨middle, reached, registers, content, rfl, progress⟩ := memcpy_finishes call memory
  have last : Runs (⟨7, 0, registers⟩, content)
      (⟨7, 1, registers.setGpr 0 (registers.gpr 6)⟩, content) :=
    runs_next rfl rfl (aligned_move registers content 0 6) (by decide)
  obtain ⟨count, run⟩ := reaches_trans reached last
  obtain ⟨whole, aligned⟩ := iterate_restricted (fun _ _ => aligned_step) run
  have countLt := (entry.gpr 2).isLt
  refine ⟨count, _, whole, rfl, ?_, ?_, ?_, aligned, ?_⟩
  · rw [set_gpr_gpr, Function.update_self, progress.result]
  · intro offset inside
    rw [progress.content]
    exact copied_inside memory _ _ inside (by omega)
  · intro cell outside
    rw [progress.content]
    exact copied_outside memory _ _ outside
  · intro register saved
    rw [value_of_set_gpr_other, progress.saved register saved]
    revert register
    decide

/-- Seventy bytes from one place in a vector to the same place in another. -/
def seventyBytes : Registers :=
  ⟨fun index => if index = 0 then 0x1003 else if index = 1 then 0x2003 else 70, fun _ => 0⟩

theorem seventy_bytes_copied :
    ∃ count final, CopiesBlock seventyBytes (fun cell => cell.setWidth 8) count final := by
  have call : Call seventyBytes := ⟨by decide, by decide, Or.inl (by decide)⟩
  exact memcpy_copies seventyBytes (fun cell => cell.setWidth 8) call

end Main

end NaplesPU.Memcpy
