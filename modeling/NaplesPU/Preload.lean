import NaplesPU.Memcpy
import NaplesPU.Startup

/-!
The copy of the initial data into the scratchpad by the start-up code. Three loops copy
vectors, words and bytes while that many bytes are left, each from where the one before
it stopped.
-/

namespace NaplesPU.Preload

open ByteMemory StepRuns TwosComplement
open RegisterInfo InstrFormats InstrInfo FixupKinds MCCodeEmitter
open ELFRelocations Machine AddressLowering Startup
open Memcpy (alignedAccess scalar_address aligned_of_base size_to_nat)

section Execution

/-- A thread of the preload, with the scratchpad of its tile. -/
structure Loader where
  block : Nat
  index : Nat
  core : Core
  scratchpad : Memory 32

def preloadProgram : Program := crt0.take Symbol.do_main.number

variable (link : Nat → RelocAddresses)

/-- Executes an instruction; the stores of the preload go to the scratchpad. -/
def execPreload (inst : MCInst) (core : Core) (scratchpad : Memory 32) :
    Option (Core × Memory 32 × Transfer) :=
  match inst.opcode with
  | .compIntImm .SLTSI .SSI =>
      some (core.setGpr (fieldReg inst .dst)
        (compareResult ((core.gpr (fieldReg inst .src)).slt (fieldSimm9 inst .imm))), scratchpad,
        .next)
  | .loadScalar .L32BU .Mainmem =>
      some (core.setGpr (fieldReg inst .dstsrc)
        ((loadWord core.memory (fieldAddress inst core.registers) 1).setWidth 32),
        scratchpad, .next)
  | .storeScalar .S32W .Scratchpad =>
      some (core, storeWord32 scratchpad (fieldAddress inst core.registers)
        (core.gpr (fieldReg inst .dstsrc)), .next)
  | .storeScalar .S32B .Scratchpad =>
      some (core, storeWord scratchpad (fieldAddress inst core.registers) 1
        ((core.gpr (fieldReg inst .dstsrc)).setWidth 8), .next)
  | .storeVector .SV32W .Scratchpad_U =>
      some (core, storeWord scratchpad (fieldAddress inst core.registers) 64
        (core.registers.vec (fieldReg inst .dstsrc)), .next)
  | _ => (execCore link inst core).map fun result => (result.1, scratchpad, result.2)

/-- Where a thread goes on. There are no calls here. -/
def Loader.advance (state : Loader) (code : List MCInst) (core : Core) (scratchpad : Memory 32) :
    Transfer → Option Loader
  | .next =>
      some (if state.index + 1 < code.length then
        ⟨state.block, state.index + 1, core, scratchpad⟩
      else ⟨state.block + 1, 0, core, scratchpad⟩)
  | .jump label => some ⟨label, 0, core, scratchpad⟩
  | .call _ => none

/-- One instruction. A thread at `do_main` makes no step. -/
def stepWith (execute : MCInst → Core → Memory 32 → Option (Core × Memory 32 × Transfer))
    (state : Loader) : Option Loader :=
  preloadProgram[state.block]?.bind fun code =>
    code[state.index]?.bind fun inst =>
      (execute inst state.core state.scratchpad).bind fun result =>
        state.advance code result.1 result.2.1 result.2.2

def step : Loader → Option Loader := stepWith (execPreload link)

def Aligned (state : Loader) : Prop :=
  ∀ inst, (preloadProgram[state.block]?.bind fun code => code[state.index]?) = some inst →
    alignedAccess inst state.core.registers = true

end Execution

section AlignedExecution

variable {link : Nat → RelocAddresses}

def execAligned (link : Nat → RelocAddresses) (inst : MCInst) (core : Core)
    (scratchpad : Memory 32) : Option (Core × Memory 32 × Transfer) :=
  if alignedAccess inst core.registers then execPreload link inst core scratchpad else none

theorem aligned_step {state next : Loader}
    (stepped : stepWith (execAligned link) state = some next) :
    step link state = some next ∧ Aligned state := by
  rw [stepWith, Option.bind_eq_some_iff] at stepped
  obtain ⟨code, laidOut, stepped⟩ := stepped
  rw [Option.bind_eq_some_iff] at stepped
  obtain ⟨inst, here, stepped⟩ := stepped
  rw [execAligned] at stepped
  split at stepped
  · rename_i aligned
    constructor
    · rw [step, stepWith, laidOut, Option.bind_some, here, Option.bind_some, stepped]
    · intro other known
      rw [laidOut, Option.bind_some, here, Option.some.injEq] at known
      rw [← known]
      exact aligned
  · cases stepped

abbrev Runs (link : Nat → RelocAddresses) : Loader → Loader → Prop :=
  Reaches (stepWith (execAligned link))

variable {block index : Nat} {code : List MCInst} {inst : MCInst} {core next : Core}
  {scratchpad nextScratchpad : Memory 32}

theorem runs_next (laidOut : preloadProgram[block]? = some code) (here : code[index]? = some inst)
    (executed : execAligned link inst core scratchpad = some (next, nextScratchpad, .next))
    (more : index + 1 < code.length) :
    Runs link ⟨block, index, core, scratchpad⟩ ⟨block, index + 1, next, nextScratchpad⟩ := by
  apply reaches_step
  rw [stepWith, laidOut, Option.bind_some, here, Option.bind_some, executed, Option.bind_some,
    Loader.advance, if_pos more]

/-- The last instruction of a block, if it does not jump, leads to the next block. -/
theorem runs_fallen (laidOut : preloadProgram[block]? = some code)
    (here : code[index]? = some inst)
    (executed : execAligned link inst core scratchpad = some (next, nextScratchpad, .next))
    (last : index + 1 = code.length) :
    Runs link ⟨block, index, core, scratchpad⟩ ⟨block + 1, 0, next, nextScratchpad⟩ := by
  have outside : ¬ index + 1 < code.length := by omega
  apply reaches_step
  rw [stepWith, laidOut, Option.bind_some, here, Option.bind_some, executed, Option.bind_some,
    Loader.advance, if_neg outside]

theorem runs_jump (laidOut : preloadProgram[block]? = some code) (here : code[index]? = some inst)
    {label : Nat}
    (executed : execAligned link inst core scratchpad = some (next, nextScratchpad, .jump label)) :
    Runs link ⟨block, index, core, scratchpad⟩ ⟨label, 0, next, nextScratchpad⟩ := by
  apply reaches_step
  rw [stepWith, laidOut, Option.bind_some, here, Option.bind_some, executed, Option.bind_some,
    Loader.advance]

theorem preload_of_core {transfer : Transfer}
    (executed : execCore link inst core = some (next, transfer)) :
    execPreload link inst core scratchpad = some (next, scratchpad, transfer) := by
  have mapped : (execCore link inst core).map (fun result => (result.1, scratchpad, result.2)) =
      some (next, scratchpad, transfer) := by
    rw [executed, Option.map_some]
  unfold execPreload
  split
  all_goals
    first
    | exact mapped
    | (rename_i opcode
       unfold execCore exec at executed
       simp only [opcode] at executed
       cases executed)

theorem aligned_of_core (aligned : alignedAccess inst core.registers = true) {transfer : Transfer}
    (executed : execCore link inst core = some (next, transfer)) :
    execAligned link inst core scratchpad = some (next, scratchpad, transfer) := by
  rw [execAligned, if_pos aligned, preload_of_core executed]

theorem exec_aligned_of {result : Core × Memory 32 × Transfer}
    (aligned : alignedAccess inst core.registers = true)
    (executed : execPreload link inst core scratchpad = some result) :
    execAligned link inst core scratchpad = some result := by
  rw [execAligned, if_pos aligned, executed]

end AlignedExecution

section Pieces

variable {link : Nat → RelocAddresses}

/-- The load and the store copy bytes from `s0` to `s2` of the scratchpad when both are aligned;
they change `s4` at most of the scalar registers. -/
def Copies (link : Nat → RelocAddresses) (copy : List MCInst) (size : Nat) : Prop :=
  ∃ load store, copy = [load, store] ∧ ∀ (core : Core) (scratchpad : Memory 32),
    (core.gpr 0).toNat % size = 0 → (core.gpr 2).toNat % size = 0 →
    ∃ loaded, execAligned link load core scratchpad = some (loaded, scratchpad, .next) ∧
      execAligned link store loaded scratchpad = some (loaded,
        storeBytes scratchpad (core.gpr 2) (loadBytes core.memory (core.gpr 0) size), .next) ∧
      loaded.memory = core.memory ∧ ∀ index, index ≠ 4 → loaded.gpr index = core.gpr index

theorem copies_vector : Copies link [⟨.loadVector .LV32W .Mainmem_U, [v 0, s 0, .imm 0]⟩,
    ⟨.storeVector .SV32W .Scratchpad_U, [v 0, s 2, .imm 0]⟩] 64 := by
  refine ⟨_, _, rfl, ?_⟩
  intro core scratchpad srcAligned destAligned
  have vector := exec_machine link core rfl (exec_load_vector core.registers core.memory 0 0
    (show SignedFits 9 0 by decide))
  rw [add_no_offset] at vector
  have stored := store_word_load_word scratchpad core.memory (core.gpr 2) (core.gpr 0) 64
  refine ⟨_, aligned_of_core ?_ vector, ?_, rfl, ?_⟩
  · exact aligned_of_base 0 rfl rfl srcAligned
  · rw [← stored]
    apply exec_aligned_of
    · exact aligned_of_base 2 rfl rfl destAligned
    · simp only [execPreload, v, s]
      rw [scalar_address 2 rfl, field_reg_eq .dstsrc (vReg 0) rfl]
      rfl
  · intro index other
    rfl

theorem copies_word :
    Copies link [load .L32W 4 0, store .S32W .Scratchpad 4 2] 4 := by
  refine ⟨_, _, rfl, ?_⟩
  intro core scratchpad srcAligned destAligned
  have word := exec_load32 link core 4 0
  have stored := store_word_load_word scratchpad core.memory (core.gpr 2) (core.gpr 0) 4
  refine ⟨_, aligned_of_core ?_ word, ?_, rfl, ?_⟩
  · exact aligned_of_base 0 rfl rfl srcAligned
  · rw [← stored]
    apply exec_aligned_of
    · exact aligned_of_base 2 rfl rfl destAligned
    · simp only [execPreload, store, s]
      rw [scalar_address 2 rfl, field_reg_eq .dstsrc (sReg 4) rfl]
      rfl
  · intro index other
    rw [set_gpr_core, Function.update_of_ne other]

theorem copies_byte :
    Copies link [load .L32BU 4 0, store .S32B .Scratchpad 4 2] 1 := by
  refine ⟨_, _, rfl, ?_⟩
  intro core scratchpad _ _
  have stored := store_word_load_word scratchpad core.memory (core.gpr 2) (core.gpr 0) 1
  have low : ((loadWord core.memory (core.gpr 0) 1).setWidth 32).setWidth 8 =
      loadWord core.memory (core.gpr 0) 1 := by
    rw [BitVec.setWidth_setWidth_of_le _ (by decide)]
    exact BitVec.setWidth_eq _
  rw [← low] at stored
  refine ⟨core.setGpr 4 ((loadWord core.memory (core.gpr 0) 1).setWidth 32), ?_, ?_, rfl, ?_⟩
  · apply exec_aligned_of rfl
    simp only [execPreload, load, s]
    rw [scalar_address 0 rfl, field_reg_eq .dstsrc (sReg 4) rfl]
    rfl
  · rw [← stored]
    apply exec_aligned_of rfl
    simp only [execPreload, store, s]
    rw [scalar_address 2 rfl, field_reg_eq .dstsrc (sReg 4) rfl]
    rfl
  · intro index other
    rw [set_gpr_core, Function.update_of_ne other]

end Pieces

section Progress

variable (link : Nat → RelocAddresses)

abbrev dataStart : Word := addressOf link .__scratchpad_data_start

abbrev dataEnd : Word := addressOf link .__scratchpad_data_end

def dataSize : Nat := (dataEnd link).toNat - (dataStart link).toNat

structure DataLaidOut : Prop where
  aligned : (dataStart link).toNat % 64 = 0
  ordered : (dataStart link).toNat ≤ (dataEnd link).toNat
  small : dataSize link < 2 ^ 31

/-- The first bytes are copied, and the registers stand at the next one. -/
structure Progress (memory old : Memory 32) (done : Nat) (core : Core) (scratchpad : Memory 32) :
    Prop where
  bounded : done ≤ dataSize link
  src : core.gpr 0 = dataStart link + BitVec.ofNat 32 done
  dest : core.gpr 2 = 0 + BitVec.ofNat 32 done
  remaining : (core.gpr 3).toNat = dataSize link - done
  mainMemory : core.memory = memory
  content : scratchpad = copiedFrom memory old 0 (dataStart link) done

def At (memory old : Memory 32) (label : Symbol) (place done : Nat) (state : Loader) : Prop :=
  ∃ core scratchpad, state = ⟨label.number, 0, core, scratchpad⟩ ∧
    Progress link memory old done core scratchpad ∧ done % place = 0

variable {link} {memory old scratchpad : Memory 32} {core : Core} {done : Nat}

theorem Progress.set_scratch (progress : Progress link memory old done core scratchpad)
    (value : Word) : Progress link memory old done (core.setGpr 4 value) scratchpad where
  bounded := progress.bounded
  src := by
    rw [set_gpr_core, Function.update_of_ne (by decide), progress.src]
  dest := by
    rw [set_gpr_core, Function.update_of_ne (by decide), progress.dest]
  remaining := by
    rw [set_gpr_core, Function.update_of_ne (by decide), progress.remaining]
  mainMemory := progress.mainMemory
  content := progress.content

theorem Progress.pointers_aligned (progress : Progress link memory old done core scratchpad)
    (laidOut : DataLaidOut link) {place : Nat} (divides : place ∣ 64) (whole : done % place = 0) :
    (core.gpr 0).toNat % place = 0 ∧ (core.gpr 2).toNat % place = 0 := by
  have start := Nat.dvd_trans divides (Nat.dvd_of_mod_eq_zero laidOut.aligned)
  have copied := Nat.dvd_of_mod_eq_zero whole
  have space : place ∣ 2 ^ 32 := Nat.dvd_trans divides (by decide)
  have offset : (BitVec.ofNat 32 done).toNat = done % 2 ^ 32 := BitVec.toNat_ofNat _ _
  constructor
  · rw [progress.src, BitVec.toNat_add, offset]
    apply Nat.mod_eq_zero_of_dvd
    rw [Nat.dvd_mod_iff space]
    exact Nat.dvd_add start ((Nat.dvd_mod_iff space).mpr copied)
  · rw [progress.dest, zero_add, offset]
    apply Nat.mod_eq_zero_of_dvd
    exact (Nat.dvd_mod_iff space).mpr copied

theorem Progress.advanced (progress : Progress link memory old done core scratchpad) {size : Nat}
    (laidOut : DataLaidOut link) (positive : 0 < size) (enough : done + size ≤ dataSize link)
    {loaded : Core} (keeps : loaded.memory = core.memory)
    (scalars : ∀ index, index ≠ 4 → loaded.gpr index = core.gpr index) :
    Progress link memory old (done + size)
      (((loaded.setGpr 0 (loaded.gpr 0 + BitVec.ofInt 32 size)).setGpr 2
        (loaded.gpr 2 + BitVec.ofInt 32 size)).setGpr 3 (loaded.gpr 3 - BitVec.ofInt 32 size))
      (storeBytes scratchpad (core.gpr 2) (loadBytes core.memory (core.gpr 0) size)) where
  bounded := enough
  src := by
    simp only [set_gpr_core]
    rw [Function.update_of_ne (by decide), Function.update_of_ne (by decide), Function.update_self,
      scalars 0 (by decide), progress.src, BitVec.ofInt_natCast, BitVec.add_assoc,
      BitVec.ofNat_add]
  dest := by
    simp only [set_gpr_core]
    rw [Function.update_of_ne (by decide), Function.update_self, scalars 2 (by decide),
      progress.dest, BitVec.ofInt_natCast, BitVec.add_assoc, BitVec.ofNat_add]
  remaining := by
    have count := progress.remaining
    have small := laidOut.small
    simp only [set_gpr_core]
    rw [Function.update_self, scalars 3 (by decide), BitVec.ofInt_natCast, BitVec.toNat_sub,
      BitVec.toNat_ofNat]
    omega
  mainMemory := keeps.trans progress.mainMemory
  content := by
    have small := laidOut.small
    rw [progress.content, progress.dest, progress.src, progress.mainMemory,
      store_copied_from memory old 0 _ (by omega) positive]

end Progress

section Instructions

variable {link : Nat → RelocAddresses} (core : Core) (scratchpad : Memory 32)

theorem aligned_addi (dst src : Fin 64) {value : Int} (fits : SignedFits 9 value) :
    execAligned link (arithi .ADD dst src value) core scratchpad =
      some (core.setGpr dst (core.gpr src + BitVec.ofInt 32 value), scratchpad, .next) :=
  aligned_of_core rfl (exec_arithi link core rfl dst src fits)

theorem aligned_subi (dst src : Fin 64) {value : Int} (fits : SignedFits 9 value) :
    execAligned link (arithi .SUB dst src value) core scratchpad =
      some (core.setGpr dst (core.gpr src - BitVec.ofInt 32 value), scratchpad, .next) :=
  aligned_of_core rfl (exec_arithi link core rfl dst src fits)

theorem aligned_cmplti (dst src : Fin 64) {value : Int} (fits : SignedFits 9 value) :
    execAligned link (cmplti dst src value) core scratchpad =
      some (core.setGpr dst (compareResult ((core.gpr src).slt (BitVec.ofInt 32 value))),
        scratchpad, .next) := by
  apply exec_aligned_of rfl
  simp only [execPreload, cmplti, s]
  rw [field_reg_eq .dst (sReg dst) rfl, field_reg_eq .src (sReg src) rfl,
    field_simm9_eq .imm fits rfl]
  rfl

theorem aligned_bnez (cond : Fin 64) (label : Symbol) :
    execAligned link (bnez cond label) core scratchpad =
      some (core, scratchpad, if core.gpr cond ≠ 0 then .jump label.number else .next) :=
  aligned_of_core rfl (exec_bnez link core cond label)

theorem aligned_jmp (label : Symbol) :
    execAligned link (jmp label) core scratchpad =
      some (core, scratchpad, .jump label.number) :=
  aligned_of_core rfl (exec_jmp link core label)

/-- Counts below the sign bit are compared as they are. -/
theorem slt_small {count : Word} {size : Nat} (small : count.toNat < 2 ^ 31)
    (fits : SignedFits 9 size) :
    count.slt (BitVec.ofInt 32 size) = decide (count.toNat < size) := by
  have value := size_to_nat fits
  have bound := fits.2
  rw [BitVec.slt, BitVec.toInt_eq_toNat_of_lt (by omega), BitVec.toInt_eq_toNat_of_lt (by omega),
    value]
  simp only [Int.ofNat_lt]

end Instructions

section Loops

variable {link : Nat → RelocAddresses} {memory old : Memory 32} {loop next : Symbol}
  {copy : List MCInst} {size : Nat} {core : Core} {scratchpad : Memory 32} {done : Nat}

theorem head_runs (fits : SignedFits 9 size)
    (laidOut : preloadProgram[loop.number]? = some (preloadLoop size loop next copy))
    (small : (core.gpr 3).toNat < 2 ^ 31) :
    ((core.gpr 3).toNat < size → Runs link ⟨loop.number, 0, core, scratchpad⟩
      ⟨next.number, 0, core.setGpr 4 0xffff, scratchpad⟩) ∧
    (size ≤ (core.gpr 3).toNat → Runs link ⟨loop.number, 0, core, scratchpad⟩
      ⟨loop.number, 2, core.setGpr 4 0, scratchpad⟩) := by
  have length : 2 < (preloadLoop size loop next copy).length := by
    simp [preloadLoop]
  have compared := @aligned_cmplti link core scratchpad 4 3 size fits
  rw [slt_small small fits] at compared
  constructor
  · intro below
    rw [decide_eq_true below] at compared
    have branched := @aligned_bnez link (core.setGpr 4 0xffff) scratchpad 4 next
    rw [if_pos (by simp)] at branched
    exact reaches_trans (runs_next laidOut rfl compared (by omega))
      (runs_jump laidOut rfl branched)
  · intro above
    rw [decide_eq_false (not_lt.mpr above)] at compared
    have branched := @aligned_bnez link (core.setGpr 4 0) scratchpad 4 next
    rw [if_neg (by simp)] at branched
    exact reaches_trans (runs_next laidOut rfl compared (by omega))
      (runs_next laidOut rfl branched length)

theorem piece_runs (fits : SignedFits 9 size) (positive : 0 < size)
    (laidOut : preloadProgram[loop.number]? = some (preloadLoop size loop next copy))
    (data : DataLaidOut link) (copies : Copies link copy size) (divides : size ∣ 64)
    (progress : Progress link memory old done core scratchpad) (whole : done % size = 0)
    (more : size ≤ (core.gpr 3).toNat) :
    ∃ final finalScratchpad,
      Runs link ⟨loop.number, 2, core, scratchpad⟩ ⟨loop.number, 0, final, finalScratchpad⟩ ∧
      Progress link memory old (done + size) final finalScratchpad := by
  obtain ⟨load, store, rfl, piece⟩ := copies
  obtain ⟨srcAligned, destAligned⟩ := progress.pointers_aligned data divides whole
  obtain ⟨loaded, loads, stores, keeps, scalars⟩ := piece core scratchpad srcAligned destAligned
  have enough : done + size ≤ dataSize link := by
    have remaining := progress.remaining
    have bounded := progress.bounded
    omega
  refine ⟨_, _, ?_, progress.advanced data positive enough keeps scalars⟩
  apply reaches_trans (runs_next laidOut rfl loads (by simp [preloadLoop]))
  apply reaches_trans (runs_next laidOut rfl stores (by simp [preloadLoop]))
  apply reaches_trans
    (runs_next laidOut rfl (aligned_addi _ _ 0 0 fits) (by simp [preloadLoop]))
  apply reaches_trans
    (runs_next laidOut rfl (aligned_addi _ _ 2 2 fits) (by simp [preloadLoop]))
  apply reaches_trans
    (runs_next laidOut rfl (aligned_subi _ _ 3 3 fits) (by simp [preloadLoop]))
  exact runs_jump laidOut rfl (aligned_jmp _ _ loop)

/-- A loop copies pieces until fewer bytes than a piece are left. -/
theorem loop_runs (fits : SignedFits 9 size) (positive : 0 < size)
    (laidOut : preloadProgram[loop.number]? = some (preloadLoop size loop next copy))
    (data : DataLaidOut link) (copies : Copies link copy size) (divides : size ∣ 64)
    {state : Loader} (reached : At link memory old loop size done state) :
    ∃ final, Runs link state final ∧
      ∃ total, dataSize link < total + size ∧ At link memory old next size total final := by
  apply reaches_exit (fun index => At link memory old loop size index)
    (fun index => dataSize link - index) ?_ done state reached
  intro done state inside
  obtain ⟨core, scratchpad, rfl, progress, whole⟩ := inside
  have remaining := progress.remaining
  have small := data.small
  obtain ⟨leaves, stays⟩ := @head_runs link loop next copy size core scratchpad fits laidOut
    (show (core.gpr 3).toNat < 2 ^ 31 by omega)
  rcases Nat.lt_or_ge (core.gpr 3).toNat size with below | above
  · left
    exact ⟨_, leaves below, done, by omega, _, _, rfl, progress.set_scratch 0xffff, whole⟩
  · right
    obtain ⟨final, finalScratchpad, run, further⟩ := piece_runs fits positive laidOut data copies
      divides (progress.set_scratch 0) whole above
    refine ⟨done + size, _, by omega, reaches_trans (stays above) run, _, _, rfl, further, ?_⟩
    rw [Nat.add_mod_right, whole]

end Loops

section Preload

variable {link : Nat → RelocAddresses}

/-- The code before the loops sets the pointers and the count. -/
def preload_scratchpad : List MCInst :=
  [ arith_i32 .XOR 0 0 0, arith_i32 .XOR 1 1 1,
    leah 0 .__scratchpad_data_start, leal 0 .__scratchpad_data_start,
    leah 1 .__scratchpad_data_end, leal 1 .__scratchpad_data_end,
    moveih 2 0, moveil 2 0, arith_i32 .SUB 3 1 0 ]

theorem aligned_of_no_access {inst : MCInst} (quiet : accessOf inst = .none)
    (registers : Registers) : alignedAccess inst registers = true := by
  unfold accessOf at quiet
  unfold alignedAccess
  split
  all_goals simp_all

theorem runs_sequence {block : Nat} {code before insts : List MCInst}
    (laidOut : preloadProgram[block]? = some code) (split : code = before ++ insts)
    (more : insts ≠ []) (quiet : ∀ inst ∈ insts, accessOf inst = .none) {core final : Core}
    (executed : execSequence link insts core = some final) (scratchpad : Memory 32) :
    Runs link ⟨block, before.length, core, scratchpad⟩ ⟨block + 1, 0, final, scratchpad⟩ := by
  induction insts generalizing before core with
  | nil => exact absurd rfl more
  | cons inst insts induction =>
      rw [List.forall_mem_cons] at quiet
      rw [execSequence] at executed
      split at executed
      · rename_i next first
        have here : code[before.length]? = some inst := by
          rw [split, List.getElem?_append_right le_rfl, Nat.sub_self]
          rfl
        have stepped : execAligned link inst core scratchpad = some (next, scratchpad, .next) :=
          aligned_of_core (aligned_of_no_access quiet.1 core.registers) first
        cases insts with
        | nil =>
            rw [execSequence, Option.some.injEq] at executed
            subst executed
            exact runs_fallen laidOut here stepped (by rw [split, List.length_append]; rfl)
        | cons other rest =>
            have regrouped : code = (before ++ [inst]) ++ other :: rest := by
              rw [split, List.append_assoc, List.singleton_append]
            have inside : before.length + 1 < code.length := by
              rw [split, List.length_append, List.length_cons, List.length_cons]
              omega
            have remaining := induction regrouped (List.cons_ne_nil _ _) quiet.2 executed
            rw [List.length_append, List.length_singleton] at remaining
            exact reaches_trans (runs_next laidOut here stepped inside) remaining
      · cases executed

theorem exec_preload_scratchpad (core : Core) :
    ∃ final, execSequence link preload_scratchpad core = some final ∧
      final.memory = core.memory ∧ final.gpr 0 = dataStart link ∧ final.gpr 2 = 0 ∧
      final.gpr 3 = dataEnd link - dataStart link := by
  unfold preload_scratchpad
  rw [exec_sequence_cons link (exec_arith_i32 link _ rfl 0 0 0),
    exec_sequence_cons link (exec_arith_i32 link _ rfl 1 1 1),
    exec_address, exec_address,
    exec_sequence_cons link (exec_moveih link _ 2 0),
    exec_sequence_cons link (exec_moveil link _ 2 0),
    exec_sequence_cons link (exec_arith_i32 link _ rfl 3 1 0), execSequence]
  refine ⟨_, rfl, rfl, ?_, ?_, ?_⟩
  all_goals simp

theorem vector_loop_reached (data : DataLaidOut link) (core : Core) (scratchpad : Memory 32) :
    ∃ state, Runs link ⟨Symbol.preload_scratchpad.number, 0, core, scratchpad⟩ state ∧
      At link core.memory scratchpad .preload_scratchpad_vector 64 0 state := by
  obtain ⟨final, executed, keeps, src, dest, count⟩ := @exec_preload_scratchpad link core
  have laidOut : preloadProgram[Symbol.preload_scratchpad.number]? = some preload_scratchpad := rfl
  have run := runs_sequence laidOut (List.nil_append _).symm (by decide) (by decide) executed
    scratchpad
  refine ⟨_, run, final, scratchpad, rfl, ?_, Nat.zero_mod 64⟩
  constructor
  · exact Nat.zero_le _
  · rw [src, BitVec.add_zero]
  · rw [dest, BitVec.add_zero]
  · have ordered := data.ordered
    have bounded := (dataEnd link).isLt
    rw [count, BitVec.toNat_sub, dataSize]
    omega
  · exact keeps
  · exact (copied_from_nothing _ _ _ _).symm

/-- Whole pieces are whole smaller pieces. -/
theorem At.smaller {memory old : Memory 32} {label : Symbol} {place smaller done : Nat}
    {state : Loader} (reached : At link memory old label place done state)
    (divides : smaller ∣ place) : At link memory old label smaller done state := by
  obtain ⟨core, scratchpad, same, progress, whole⟩ := reached
  have pieces := Nat.dvd_trans divides (Nat.dvd_of_mod_eq_zero whole)
  exact ⟨core, scratchpad, same, progress, Nat.mod_eq_zero_of_dvd pieces⟩

/-- Three loops, each from where the one before it stopped. -/
theorem preload_runs (data : DataLaidOut link) (core : Core) (scratchpad : Memory 32) :
    ∃ final, Runs link ⟨Symbol.preload_scratchpad.number, 0, core, scratchpad⟩ final ∧
      At link core.memory scratchpad .do_main 1 (dataSize link) final := by
  obtain ⟨vectors, toVectors, atVectors⟩ := vector_loop_reached data core scratchpad
  obtain ⟨words, toWords, vectorsDone, -, atWords⟩ := loop_runs (by decide) (by decide) rfl data
    copies_vector (by decide) atVectors
  obtain ⟨bytes, toBytes, wordsDone, -, atBytes⟩ := loop_runs (by decide) (by decide) rfl data
    copies_word (by decide) (atWords.smaller (by decide))
  obtain ⟨final, toMain, total, enough, atMain⟩ := loop_runs (by decide) (by decide) rfl data
    copies_byte (by decide) (atBytes.smaller (by decide))
  have bounded : total ≤ dataSize link := by
    obtain ⟨_, _, _, progress, _⟩ := atMain
    exact progress.bounded
  have all : total = dataSize link := by omega
  refine ⟨final, ?_, all ▸ atMain⟩
  exact reaches_trans toVectors (reaches_trans toWords (reaches_trans toBytes toMain))

/-- The scratchpad starts with the data and is otherwise as it was. -/
structure Preloaded (link : Nat → RelocAddresses) (memory old : Memory 32) (final : Loader) :
    Prop where
  left : final.block = Symbol.do_main.number
  start : final.index = 0
  halted : step link final = none
  data : ∀ k < dataSize link, final.scratchpad (BitVec.ofNat 32 k) =
    memory (dataStart link + BitVec.ofNat 32 k)
  others : ∀ cell : Word, dataSize link ≤ cell.toNat → final.scratchpad cell = old cell
  mainMemory : final.core.memory = memory

theorem preloaded_of_at {memory old : Memory 32} {final : Loader}
    (reached : At link memory old .do_main 1 (dataSize link) final) :
    Preloaded link memory old final := by
  obtain ⟨core, scratchpad, rfl, progress, -⟩ := reached
  have bounded : dataSize link < 2 ^ 32 :=
    Nat.lt_of_le_of_lt (Nat.sub_le _ _) (dataEnd link).isLt
  constructor
  · rfl
  · rfl
  · rfl
  · intro k inside
    have copied := copied_from_inside memory old 0 (dataStart link) inside (by omega)
    rw [zero_add] at copied
    exact progress.content ▸ copied
  · intro cell outside
    have kept : copiedFrom memory old 0 (dataStart link) (dataSize link) cell = old cell := by
      apply if_neg
      rw [offsetFrom, sub_zero]
      exact Nat.not_lt.mpr outside
    exact progress.content ▸ kept
  · exact progress.mainMemory

/-- The preload terminates at `do_main` with the data in the scratchpad, and every access on the
way is aligned. -/
theorem preload_copies_data (data : DataLaidOut link) (core : Core) (scratchpad : Memory 32) :
    ∃ count final,
      iterate (step link) count ⟨Symbol.preload_scratchpad.number, 0, core, scratchpad⟩ =
        some final ∧
      Preloaded link core.memory scratchpad final ∧
      ∀ index < count, ∀ state,
        iterate (step link) index ⟨Symbol.preload_scratchpad.number, 0, core, scratchpad⟩ =
          some state → Aligned state := by
  obtain ⟨final, ⟨count, run⟩, reached⟩ := preload_runs data core scratchpad
  obtain ⟨whole, aligned⟩ := iterate_restricted (fun _ _ => aligned_step) run
  exact ⟨count, final, whole, preloaded_of_at reached, aligned⟩

/-- Data of seventy-one bytes: a vector, a word and three bytes. -/
def mixedLink (number : Nat) : RelocAddresses :=
  ⟨if number = Symbol.__scratchpad_data_start.number then 0x1000
    else if number = Symbol.__scratchpad_data_end.number then 0x1047 else 0, 0, 0⟩

theorem mixed_data_preloaded :
    ∃ count final,
      iterate (step mixedLink) count
        ⟨Symbol.preload_scratchpad.number, 0, hardwareThread 0 0, fun _ => 0⟩ = some final ∧
      Preloaded mixedLink (hardwareThread 0 0).memory (fun _ => 0) final ∧
      ∀ index < count, ∀ state,
        iterate (step mixedLink) index
          ⟨Symbol.preload_scratchpad.number, 0, hardwareThread 0 0, fun _ => 0⟩ = some state →
          Aligned state :=
  preload_copies_data ⟨by decide, by decide, by decide⟩ (hardwareThread 0 0) fun _ => 0

end Preload

end NaplesPU.Preload
