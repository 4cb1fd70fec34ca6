import NaplesPU.AtomicExpansion

/-!
One hardware thread running an expanded atomic pseudo by itself. The branch that
closes the loop tests the register its immediate operand encodes to, so whether
the loop is left after one pass depends on that register: on what the expansion
wrote there, or else on what the caller had there.
-/

namespace NaplesPU.AtomicRuns

open ByteMemory StepRuns TwosComplement
open RegisterInfo InstrInfo FixupKinds Machine AtomicExpansion

def loopCondition : Fin 64 := testedRegister (.imm 1)

section Binary

def oldWord (assign : BinaryReg → Fin 64) (registers : Registers) (memory : Memory 32) : Word :=
  loadWord32 memory (registers.gpr (assign .ptr))

def computed : AtomicLoad → Word → Word → Word
  | .NAND, old, operand => old &&& operand
  | op, old, operand => op.apply old operand

theorem alu_selected (op : AtomicLoad) : alu op.selected.1 = some (computed op) := by
  cases op <;> rfl

theorem computed_inverted (op : AtomicLoad) (old operand : Word) :
    (if op.selected.2 then ~~~ computed op old operand else computed op old operand) =
      op.apply old operand := by
  cases op <;> rfl

/-- The word that the expansion stores. A swap stores the old value. -/
def stored : AtomicPseudo → Word → Word → Word
  | .ATOMIC_LOAD_R op, old, operand | .ATOMIC_LOAD_I op _, old, operand => op.apply old operand
  | .ATOMIC_SWAP, old, _ => old

def afterLoad (op : AtomicLoad) (assign : BinaryReg → Fin 64) (old operand : Word)
    (moved : Registers) : Registers :=
  let result := moved.setGpr (assign .newValue) (computed op old operand)
  if op.selected.2 then result.setGpr (assign .inverted) (op.apply old operand) else result

def afterMove (assign : BinaryReg → Fin 64) (old : Word) (registers : Registers) : Registers :=
  (registers.setGpr (assign .oldValue) old).setGpr (assign .dest) old

def afterOperation (pseudo : AtomicPseudo) (assign : BinaryReg → Fin 64) (old : Word)
    (registers : Registers) : Registers :=
  let operand := pseudo.operand assign registers
  match pseudo with
  | .ATOMIC_LOAD_R op | .ATOMIC_LOAD_I op _ =>
      afterLoad op assign old operand (afterMove assign old registers)
  | .ATOMIC_SWAP => afterMove assign old registers

theorem exec_invert (dst src : Fin 64) (registers : Registers) (memory : Memory 32) :
    exec ⟨.arithIntImm .XOR .SSI, [.reg (sReg dst), .reg (sReg src), .imm (-1)]⟩ registers memory =
      some ⟨registers.setGpr dst (~~~ registers.gpr src), memory, none⟩ := by
  have allOnes : BitVec.ofInt 32 (-1) = BitVec.allOnes 32 := rfl
  rw [exec_arith_imm registers memory (show alu .XOR = some _ from rfl) dst src (by decide), allOnes,
    BitVec.xor_allOnes]

/-- The operation of a load pseudo, from what its first instruction does. -/
theorem exec_operation {op : AtomicLoad} {assign : BinaryReg → Fin 64} {opcode : Opcode}
    {amt : MachineOperand BinaryReg} {old operand : Word} {moved : Registers} {memory : Memory 32}
    (first : exec ⟨opcode, [.reg (sReg (assign .newValue)), .reg (sReg (assign .oldValue)),
        amt.lower assign]⟩ moved memory =
      some ⟨moved.setGpr (assign .newValue) (computed op old operand), memory, none⟩) :
    execStraight ((emitOperation amt (some opcode) op.selected.2).1.map (MachineInstr.lower assign))
        moved memory = some (afterLoad op assign old operand moved, memory) ∧
      (afterLoad op assign old operand moved).gpr
        (assign (emitOperation amt (some opcode) op.selected.2).2) = op.apply old operand := by
  have result := computed_inverted op old operand
  cases inverts : op.selected.2 with
  | true =>
      rw [inverts, if_pos rfl] at result
      constructor
      · refine (exec_straight_cons first _).trans ?_
        refine (exec_straight_cons (exec_invert _ _ _ _) _).trans ?_
        simp [execStraight, afterLoad, inverts, result]
      · simp [emitOperation, afterLoad, inverts]
  | false =>
      rw [inverts, if_neg (by decide)] at result
      constructor
      · refine (exec_straight_cons first _).trans ?_
        simp [execStraight, afterLoad, inverts]
      · simp [emitOperation, afterLoad, inverts, result]

variable {pseudo : AtomicPseudo} (alloc : BinaryAllocation pseudo) (registers : Registers)

theorem after_move_old_value (old : Word) :
    (afterMove alloc.assign old registers).gpr (alloc.assign .oldValue) = old := by
  simp [afterMove, Function.update_apply]

theorem after_move_amt (reads : pseudo.readsAmt) (old : Word) :
    (afterMove alloc.assign old registers).gpr (alloc.assign .amt) =
      registers.gpr (alloc.assign .amt) := by
  have dest := alloc.amtKept reads .dest (by simp)
  have oldValue := alloc.amtKept reads .oldValue (by simp)
  simp [afterMove, dest.symm, oldValue.symm]

theorem after_operation_ptr (old : Word) :
    (afterOperation pseudo alloc.assign old registers).gpr (alloc.assign .ptr) =
      registers.gpr (alloc.assign .ptr) := by
  have dest := (alloc.ptrKept .dest (by simp)).symm
  have oldValue := (alloc.ptrKept .oldValue (by simp)).symm
  have newValue := (alloc.ptrKept .newValue (by simp)).symm
  have inverted := (alloc.ptrKept .inverted (by simp)).symm
  cases pseudo with
  | ATOMIC_LOAD_R op =>
      simp only [afterOperation, afterLoad]
      split <;> simp [afterMove, dest, oldValue, newValue, inverted]
  | ATOMIC_LOAD_I op amt =>
      simp only [afterOperation, afterLoad]
      split <;> simp [afterMove, dest, oldValue, newValue, inverted]
  | ATOMIC_SWAP => simp [afterOperation, afterMove, dest, oldValue]

theorem after_operation_dest (old : Word) :
    (afterOperation pseudo alloc.assign old registers).gpr (alloc.assign .dest) = old := by
  have newValue := (alloc.destKept .newValue (by simp)).symm
  have inverted := (alloc.destKept .inverted (by simp)).symm
  cases pseudo with
  | ATOMIC_LOAD_R op =>
      simp only [afterOperation, afterLoad]
      split <;> simp [afterMove, newValue, inverted]
  | ATOMIC_LOAD_I op amt =>
      simp only [afterOperation, afterLoad]
      split <;> simp [afterMove, newValue, inverted]
  | ATOMIC_SWAP => simp [afterOperation, afterMove]

theorem exec_middle : ∃ operation result,
    emitInstrWithCustomInserter pseudo =
        [emitLoop operation result ++ [⟨.BEQZ, [.imm 1, .mbb loopMBB]⟩]] ∧
      (operation.map (MachineInstr.lower alloc.assign)).countP
        (fun inst => accessOf inst = .store) = 0 ∧
      ∀ old registers memory,
        execStraight (operation.map (MachineInstr.lower alloc.assign))
            (afterMove alloc.assign old registers) memory =
          some (afterOperation pseudo alloc.assign old registers, memory) ∧
        (afterOperation pseudo alloc.assign old registers).gpr (alloc.assign result) =
          stored pseudo old (pseudo.operand alloc.assign registers) := by
  cases pseudo with
  | ATOMIC_LOAD_R op =>
      refine ⟨_, _, rfl, by cases op <;> rfl, fun old registers memory => ?_⟩
      apply exec_operation
      refine (exec_arith _ _ (alu_selected op) _ _ _).trans ?_
      rw [after_move_old_value, after_move_amt alloc registers rfl]
      rfl
  | ATOMIC_LOAD_I op amt =>
      refine ⟨_, _, rfl, by cases op <;> rfl, fun old registers memory => ?_⟩
      apply exec_operation
      refine (exec_arith_imm _ _ (alu_selected op) _ _ amt.property).trans ?_
      rw [after_move_old_value]
      rfl
  | ATOMIC_SWAP =>
      refine ⟨_, _, rfl, rfl, fun old registers memory => ⟨rfl, ?_⟩⟩
      exact after_move_old_value alloc registers old

theorem exec_load_at_ptr (dst base : Fin 64) (memory : Memory 32) :
    exec ⟨.loadScalar .L32W .Mainmem, [.reg (sReg dst), .reg (sReg base), .imm 0]⟩
        registers memory =
      some ⟨registers.setGpr dst (loadWord32 memory (registers.gpr base)), memory, none⟩ := by
  rw [exec_load registers memory dst base (by decide)]
  simp

theorem exec_store_at_ptr (src base : Fin 64) (memory : Memory 32) :
    exec ⟨.storeScalar .S32W .Mainmem, [.reg (sReg src), .reg (sReg base), .imm 0]⟩
        registers memory =
      some ⟨registers, storeWord32 memory (registers.gpr base) (registers.gpr src), none⟩ := by
  rw [exec_store registers memory src base (by decide)]
  simp

/-- The branch that closes the loop of every expansion, as it is encoded. -/
def loopBranch : MCInst := ⟨.BEQZ, [.imm 1, .expr ⟨loopMBB, 0⟩]⟩

theorem exec_loop_branch (memory : Memory 32) :
    exec loopBranch registers memory = some ⟨registers, memory,
      if registers.gpr loopCondition = 0 then some loopMBB else none⟩ :=
  exec_branch_zero registers memory (.imm 1) loopMBB

/-- The loop block of every expansion: one store, at the pointer, then the branch. -/
theorem exec_loop : ∃ straight, binaryProgram pseudo alloc = [straight ++ [loopBranch]] ∧
    ((straight ++ [loopBranch]).countP fun inst => accessOf inst = .store) = 1 ∧
    ∀ registers memory,
      execStraight straight registers memory =
        some (afterOperation pseudo alloc.assign
            (oldWord alloc.assign registers memory) registers,
          storeWord32 memory (registers.gpr (alloc.assign .ptr))
            (stored pseudo (oldWord alloc.assign registers memory)
              (pseudo.operand alloc.assign registers))) := by
  obtain ⟨operation, result, emitted, storeless, middle⟩ := exec_middle alloc
  refine ⟨(emitLoop operation result).map (MachineInstr.lower alloc.assign), ?_, ?_, ?_⟩
  · rw [binaryProgram, emitted, lowerBlocks, List.map_singleton, List.map_append]
    rfl
  · rw [emitLoop, List.map_append, List.map_append, List.countP_append, List.countP_append,
      List.countP_append, storeless]
    rfl
  · intro registers memory
    have loaded := exec_load_at_ptr registers (alloc.assign .oldValue) (alloc.assign .ptr) memory
    change _ = some (Effect.mk (registers.setGpr _ (oldWord alloc.assign registers memory)) _ _)
      at loaded
    generalize oldWord alloc.assign registers memory = old at loaded ⊢
    have moved := exec_move (registers.setGpr (alloc.assign .oldValue) old) memory
      (alloc.assign .dest) (alloc.assign .oldValue)
    rw [set_gpr_gpr, Function.update_self] at moved
    obtain ⟨computes, operand⟩ := middle old registers memory
    have stores := exec_store_at_ptr (afterOperation pseudo alloc.assign old registers)
      (alloc.assign result) (alloc.assign .ptr) memory
    rw [after_operation_ptr, operand] at stores
    rw [emitLoop, List.append_assoc, List.map_append, List.map_append]
    refine (exec_straight_cons loaded _).trans ?_
    refine (exec_straight_cons moved _).trans ?_
    change execStraight (operation.map (MachineInstr.lower alloc.assign) ++ _)
      (afterMove alloc.assign old registers) memory = _
    rw [exec_straight_append, computes]
    exact exec_straight_cons stores []

/-- What the closing branch tests after one pass: what the pass last wrote to the register,
or what the caller has there. -/
def branchValue (pseudo : AtomicPseudo) (assign : BinaryReg → Fin 64)
    (old operand initial : Word) : Word :=
  let kept := if assign .oldValue = loopCondition ∨ assign .dest = loopCondition then old
    else initial
  match pseudo with
  | .ATOMIC_LOAD_R op | .ATOMIC_LOAD_I op _ =>
      if op.selected.2 ∧ assign .inverted = loopCondition then op.apply old operand
      else if assign .newValue = loopCondition then computed op old operand
      else kept
  | .ATOMIC_SWAP => kept

theorem after_move_condition (assign : BinaryReg → Fin 64) (old : Word) :
    (afterMove assign old registers).gpr loopCondition =
      if assign .oldValue = loopCondition ∨ assign .dest = loopCondition then old
      else registers.gpr loopCondition := by
  simp only [afterMove, set_gpr_gpr, Function.update_apply, eq_comm]
  split <;> simp_all

theorem after_load_condition (op : AtomicLoad) (assign : BinaryReg → Fin 64) (old operand : Word) :
    (afterLoad op assign old operand registers).gpr loopCondition =
      if op.selected.2 ∧ assign .inverted = loopCondition then op.apply old operand
      else if assign .newValue = loopCondition then computed op old operand
      else registers.gpr loopCondition := by
  simp only [afterLoad]
  split
  · rename_i inverts
    simp [Function.update_apply, inverts, eq_comm]
  · rename_i plain
    simp [Function.update_apply, plain, eq_comm]

theorem after_operation_condition (pseudo : AtomicPseudo) (assign : BinaryReg → Fin 64)
    (old : Word) :
    (afterOperation pseudo assign old registers).gpr loopCondition =
      branchValue pseudo assign old (pseudo.operand assign registers)
        (registers.gpr loopCondition) := by
  cases pseudo with
  | ATOMIC_LOAD_R op =>
      simp only [afterOperation, after_load_condition, after_move_condition, branchValue]
  | ATOMIC_LOAD_I op amt =>
      simp only [afterOperation, after_load_condition, after_move_condition, branchValue]
  | ATOMIC_SWAP => exact after_move_condition registers assign old

def binaryStart (registers : Registers) (memory : Memory 32) : Thread × Memory 32 :=
  (⟨loopMBB, 0, registers⟩, memory)

/-- The run ends in the exit block with the old word in the destination, the word at the
pointer updated by the operation, no other byte changed, and one store made. -/
def UpdatesOnce (pseudo : AtomicPseudo) (alloc : BinaryAllocation pseudo) (registers : Registers)
    (memory : Memory 32) : Prop :=
  ∃ count final, iterate (step (binaryProgram pseudo alloc)) count (binaryStart registers memory) =
      some (⟨exitMBB, 0, final⟩, storeWord32 memory (registers.gpr (alloc.assign .ptr))
        (pseudo.apply (oldWord alloc.assign registers memory)
          (pseudo.operand alloc.assign registers))) ∧
    final.gpr (alloc.assign .dest) = oldWord alloc.assign registers memory ∧
    storesIn (binaryProgram pseudo alloc) count (binaryStart registers memory) = 1

/-- One pass: the store is made, and the branch decides between the loop and the exit. -/
theorem iterate_pass (memory : Memory 32) (stores : Nat) :
    ∃ count, iterate (weighted (step (binaryProgram pseudo alloc))
        (storeWeight (binaryProgram pseudo alloc))) count (binaryStart registers memory, stores) =
      some ((⟨if (afterOperation pseudo alloc.assign
            (oldWord alloc.assign registers memory) registers).gpr loopCondition = 0
          then loopMBB else exitMBB, 0, afterOperation pseudo alloc.assign
            (oldWord alloc.assign registers memory) registers⟩,
        storeWord32 memory (registers.gpr (alloc.assign .ptr))
          (stored pseudo (oldWord alloc.assign registers memory)
            (pseudo.operand alloc.assign registers))), stores + 1) := by
  obtain ⟨straight, laidOut, oneStore, executes⟩ := exec_loop alloc
  have block : (binaryProgram pseudo alloc)[loopMBB]? = some (straight ++ [loopBranch]) := by
    rw [laidOut]
    rfl
  have run := iterate_block block (executes registers memory) (exec_loop_branch _ _) stores
  rw [oneStore] at run
  refine ⟨_, run.trans ?_⟩
  split <;> rfl

theorem step_exit {thread : Thread} (exited : thread.block = exitMBB) (memory : Memory 32) :
    step (binaryProgram pseudo alloc) (thread, memory) = none := by
  obtain ⟨straight, laidOut, -⟩ := exec_loop alloc
  rw [step, stepThread, laidOut, exited]
  rfl

/-- The stored word is the updated one, except that a swap stores the old word. -/
theorem stored_eq_apply_iff (pseudo : AtomicPseudo) (old operand : Word) :
    stored pseudo old operand = pseudo.apply old operand ↔
      (pseudo = .ATOMIC_SWAP → operand = old) := by
  cases pseudo with
  | ATOMIC_LOAD_R op => simp [stored, AtomicPseudo.apply]
  | ATOMIC_LOAD_I op amt => simp [stored, AtomicPseudo.apply]
  | ATOMIC_SWAP =>
      simp only [stored, AtomicPseudo.apply, forall_const]
      exact eq_comm

variable (memory : Memory 32)

/-- The register the closing branch tests is not zero after the first pass. -/
def LeavesAtOnce : Prop :=
  branchValue pseudo alloc.assign (oldWord alloc.assign registers memory)
    (pseudo.operand alloc.assign registers) (registers.gpr loopCondition) ≠ 0

theorem updates_once_of_leaves (leaves : LeavesAtOnce alloc registers memory)
    (swap : pseudo = .ATOMIC_SWAP →
      pseudo.operand alloc.assign registers = oldWord alloc.assign registers memory) :
    UpdatesOnce pseudo alloc registers memory := by
  obtain ⟨count, pass⟩ := iterate_pass alloc registers memory 0
  rw [after_operation_condition, if_neg leaves, (stored_eq_apply_iff _ _ _).mpr swap,
    iterate_weighted, Option.map_eq_some_iff] at pass
  obtain ⟨final, run, same⟩ := pass
  rw [Prod.mk.injEq, Nat.zero_add, Nat.zero_add] at same
  obtain ⟨rfl, once⟩ := same
  exact ⟨count, _, run, after_operation_dest alloc registers _, once⟩

/-- A pass that goes back to the loop block is followed by a second store. -/
theorem leaves_of_updates_once (updates : UpdatesOnce pseudo alloc registers memory) :
    LeavesAtOnce alloc registers memory := by
  intro stays
  obtain ⟨count, final, run, -, once⟩ := updates
  obtain ⟨first, pass⟩ := iterate_pass alloc registers memory 0
  rw [after_operation_condition, if_pos stays] at pass
  obtain ⟨rest, after, firstSum⟩ := rest_of_halted run (step_exit alloc rfl _) pass
  obtain ⟨second, nextPass⟩ := iterate_pass alloc _ _ 0
  obtain ⟨_, -, secondSum⟩ := rest_of_halted after (step_exit alloc rfl _) nextPass
  rw [storesIn] at once
  omega

/-- Every run into the exit block of a pseudo that leaves the loop at once. -/
theorem exit_of_leaves (leaves : LeavesAtOnce alloc registers memory) {count : Nat}
    {thread : Thread} {finalMemory : Memory 32}
    (run : iterate (step (binaryProgram pseudo alloc)) count (binaryStart registers memory) =
      some (thread, finalMemory)) (exited : thread.block = exitMBB) :
    thread.registers.gpr (alloc.assign .dest) = oldWord alloc.assign registers memory ∧
      finalMemory = storeWord32 memory (registers.gpr (alloc.assign .ptr))
        (stored pseudo (oldWord alloc.assign registers memory)
          (pseudo.operand alloc.assign registers)) := by
  obtain ⟨first, pass⟩ := iterate_pass alloc registers memory 0
  rw [after_operation_condition, if_neg leaves] at pass
  obtain ⟨rest, after, -⟩ := rest_of_halted run (step_exit alloc exited _) pass
  have same := iterate_of_halted (step_exit alloc rfl _) after
  rw [Prod.mk.injEq] at same
  rw [same.1]
  exact ⟨after_operation_dest alloc registers _, same.2⟩

theorem swap_of_updates_once (updates : UpdatesOnce pseudo alloc registers memory)
    (swap : pseudo = .ATOMIC_SWAP) :
    pseudo.operand alloc.assign registers = oldWord alloc.assign registers memory := by
  have leaves := leaves_of_updates_once alloc registers memory updates
  obtain ⟨count, final, run, -, -⟩ := updates
  have same := (exit_of_leaves alloc registers memory leaves run rfl).2
  have words := congrArg (loadWord32 · (registers.gpr (alloc.assign .ptr))) same
  simp only [load_word32_store_word32] at words
  exact (stored_eq_apply_iff _ _ _).mp words.symm swap

/-- An expansion, run from any state, updates the word at the pointer once and as its pseudo
says exactly if the first pass leaves the loop and a swap finds its own operand. -/
theorem atomic_binary_updates_once_iff : UpdatesOnce pseudo alloc registers memory ↔
    LeavesAtOnce alloc registers memory ∧ (pseudo = .ATOMIC_SWAP →
      pseudo.operand alloc.assign registers = oldWord alloc.assign registers memory) := by
  constructor
  · intro updates
    exact ⟨leaves_of_updates_once alloc registers memory updates,
      swap_of_updates_once alloc registers memory updates⟩
  · rintro ⟨leaves, swap⟩
    exact updates_once_of_leaves alloc registers memory leaves swap

/-- Registers that nothing shares, none of them the one the branch tests. -/
def separateRegisters : BinaryReg → Fin 64
  | .dest => 2
  | .ptr => 3
  | .amt => 4
  | .oldValue => 5
  | .newValue => 6
  | .inverted => 7

def separateAllocation (pseudo : AtomicPseudo) : BinaryAllocation pseudo where
  assign := separateRegisters
  allocatable register := by cases register <;> decide
  ptrKept := by decide
  amtKept _ := by decide
  destKept := by decide

/-- A caller that has zero in the tested register never leaves the loop. -/
theorem add_loops_on_zero_condition : ¬ ∀ (pseudo : AtomicPseudo) (alloc : BinaryAllocation pseudo)
    (registers : Registers) (memory : Memory 32), UpdatesOnce pseudo alloc registers memory := by
  intro all
  let add : AtomicPseudo := .ATOMIC_LOAD_I .ADD ⟨1, by decide⟩
  let zeros : Registers := ⟨fun _ => 0, fun _ => 0⟩
  exact leaves_of_updates_once (separateAllocation add) zeros (fun _ => 0) (all _ _ _ _) rfl

end Binary

section CmpSwap

variable (alloc : CmpSwapAllocation) (registers : Registers) (memory : Memory 32)

def comparedWord (assign : CmpSwapReg → Fin 64) : Word :=
  loadWord32 memory (registers.gpr (assign .ptr))

def afterCompare (assign : CmpSwapReg → Fin 64) (old : Word) : Registers :=
  (registers.setGpr (assign .dest) old).setGpr (assign .cmpResult)
    (compareResult (old != registers.gpr (assign .oldVal)))

theorem after_compare_input (old : Word) {input : CmpSwapReg}
    (isInput : input ∈ [.ptr, .oldVal, .newVal]) :
    (afterCompare registers alloc.assign old).gpr (alloc.assign input) =
      registers.gpr (alloc.assign input) := by
  have dest := (alloc.inputsKept .dest (by simp) input isInput).symm
  have cmpResult := (alloc.inputsKept .cmpResult (by simp) input isInput).symm
  simp [afterCompare, dest, cmpResult]

theorem after_compare_dest (old : Word) :
    (afterCompare registers alloc.assign old).gpr (alloc.assign .dest) = old := by
  simp [afterCompare, alloc.destKept.symm]

/-- The first block: leave if the word is not the expected one. -/
theorem iterate_compare (stores : Nat) : ∃ count,
    iterate (weighted (step (cmpSwapProgram alloc)) (storeWeight (cmpSwapProgram alloc))) count
        ((⟨loop1MBB, 0, registers⟩, memory), stores) =
      some ((⟨if comparedWord registers memory alloc.assign = registers.gpr (alloc.assign .oldVal)
          then loop2MBB else exitCmpSwapMBB, 0,
          afterCompare registers alloc.assign (comparedWord registers memory alloc.assign)⟩, memory),
        stores) := by
  let load : MCInst := ⟨.loadScalar .L32W .Mainmem,
    [.reg (sReg (alloc.assign .dest)), .reg (sReg (alloc.assign .ptr)), .imm 0]⟩
  let compare : MCInst := ⟨.compInt .SNESI .SSS_32, [.reg (sReg (alloc.assign .cmpResult)),
    .reg (sReg (alloc.assign .dest)), .reg (sReg (alloc.assign .oldVal))]⟩
  let leave : MCInst := ⟨.BNEZ, [.reg (sReg (alloc.assign .cmpResult)), .expr ⟨exitCmpSwapMBB, 0⟩]⟩
  have block : (cmpSwapProgram alloc)[loop1MBB]? = some ([load, compare] ++ [leave]) := rfl
  have kept := alloc.inputsKept .dest (by simp) .oldVal (by simp)
  have loaded := exec_load_at_ptr registers (alloc.assign .dest) (alloc.assign .ptr) memory
  have compared := exec_not_equal (registers.setGpr (alloc.assign .dest)
    (comparedWord registers memory alloc.assign)) memory (alloc.assign .cmpResult)
    (alloc.assign .dest) (alloc.assign .oldVal)
  rw [set_gpr_gpr, Function.update_self, Function.update_of_ne kept.symm] at compared
  have straight : execStraight [load, compare] registers memory =
      some (afterCompare registers alloc.assign (comparedWord registers memory alloc.assign),
        memory) :=
    (exec_straight_cons loaded _).trans (exec_straight_cons compared [])
  have left := exec_branch_nonzero
    (afterCompare registers alloc.assign (comparedWord registers memory alloc.assign)) memory
    (.reg (sReg (alloc.assign .cmpResult))) exitCmpSwapMBB
  have tested : (afterCompare registers alloc.assign
      (comparedWord registers memory alloc.assign)).gpr (alloc.assign .cmpResult) =
      compareResult
        (comparedWord registers memory alloc.assign != registers.gpr (alloc.assign .oldVal)) := by
    simp [afterCompare]
  rw [tested_register_reg, tested] at left
  refine ⟨_, (iterate_block block straight left stores).trans ?_⟩
  by_cases same : comparedWord registers memory alloc.assign = registers.gpr (alloc.assign .oldVal)
  · rw [same, bne_self_eq_false, if_pos rfl]
    rfl
  · rw [bne_iff_ne.mpr same, if_neg same]
    rfl

/-- The second block: one store, and back if the tested register is zero. -/
theorem iterate_exchange (stores : Nat) : ∃ count,
    iterate (weighted (step (cmpSwapProgram alloc)) (storeWeight (cmpSwapProgram alloc))) count
        ((⟨loop2MBB, 0, registers⟩, memory), stores) =
      some ((⟨if registers.gpr loopCondition = 0 then loop1MBB else exitCmpSwapMBB, 0, registers⟩,
        storeWord32 memory (registers.gpr (alloc.assign .ptr))
          (registers.gpr (alloc.assign .newVal))), stores + 1) := by
  let store : MCInst := ⟨.storeScalar .S32W .Mainmem,
    [.reg (sReg (alloc.assign .newVal)), .reg (sReg (alloc.assign .ptr)), .imm 0]⟩
  have block : (cmpSwapProgram alloc)[loop2MBB]? = some ([store] ++ [loopBranch]) := rfl
  have stored := exec_store_at_ptr registers (alloc.assign .newVal) (alloc.assign .ptr) memory
  have run := iterate_block block (exec_straight_cons stored []) (exec_loop_branch _ _) stores
  refine ⟨_, run.trans ?_⟩
  split <;> rfl

theorem step_exit_cmp_swap {thread : Thread} (exited : thread.block = exitCmpSwapMBB)
    (memory : Memory 32) : step (cmpSwapProgram alloc) (thread, memory) = none := by
  rw [step, stepThread, exited]
  rfl

theorem exit_of_different
    (different : comparedWord registers memory alloc.assign ≠ registers.gpr (alloc.assign .oldVal))
    {count : Nat} {thread : Thread} {finalMemory : Memory 32}
    (run : iterate (step (cmpSwapProgram alloc)) count (⟨loop1MBB, 0, registers⟩, memory) =
      some (thread, finalMemory)) (exited : thread.block = exitCmpSwapMBB) :
    thread.registers.gpr (alloc.assign .dest) = comparedWord registers memory alloc.assign ∧
      finalMemory = memory := by
  obtain ⟨first, compares⟩ := iterate_compare alloc registers memory 0
  rw [if_neg different] at compares
  obtain ⟨rest, after, -⟩ := rest_of_halted run (step_exit_cmp_swap alloc exited _) compares
  have same := iterate_of_halted (step_exit_cmp_swap alloc rfl _) after
  rw [Prod.mk.injEq] at same
  rw [same.1]
  exact ⟨after_compare_dest alloc registers _, same.2⟩

/-- The run ends in the exit block with the entry word in the destination, the new word at
the pointer if the entry word is the expected one and an unchanged memory if not, and at most
one store made. -/
def SwapsOnce : Prop :=
  ∃ count final, iterate (step (cmpSwapProgram alloc)) count
      (⟨loop1MBB, 0, registers⟩, memory) = some (⟨exitCmpSwapMBB, 0, final⟩,
        if comparedWord registers memory alloc.assign = registers.gpr (alloc.assign .oldVal) then
          storeWord32 memory (registers.gpr (alloc.assign .ptr)) (registers.gpr (alloc.assign .newVal))
        else memory) ∧
    final.gpr (alloc.assign .dest) = comparedWord registers memory alloc.assign ∧
    storesIn (cmpSwapProgram alloc) count (⟨loop1MBB, 0, registers⟩, memory) ≤ 1

/-- What the closing branch tests after the words compared equal: the comparison's result,
the loaded word, or what the caller has in the register. -/
def exchangeValue (assign : CmpSwapReg → Fin 64) (old initial : Word) : Word :=
  if assign .cmpResult = loopCondition then 0
  else if assign .dest = loopCondition then old
  else initial

theorem after_compare_condition {old : Word} (equal : old = registers.gpr (alloc.assign .oldVal)) :
    (afterCompare registers alloc.assign old).gpr loopCondition =
      exchangeValue alloc.assign old (registers.gpr loopCondition) := by
  simp [afterCompare, exchangeValue, compareResult, equal, Function.update_apply, eq_comm]

/-- The compared words differ, or the exchange leaves the loop. -/
def LeavesCmpSwap : Prop :=
  comparedWord registers memory alloc.assign = registers.gpr (alloc.assign .oldVal) →
    exchangeValue alloc.assign (comparedWord registers memory alloc.assign)
      (registers.gpr loopCondition) ≠ 0

theorem iterate_both (equal : comparedWord registers memory alloc.assign =
      registers.gpr (alloc.assign .oldVal)) (stores : Nat) : ∃ count,
    iterate (weighted (step (cmpSwapProgram alloc)) (storeWeight (cmpSwapProgram alloc))) count
        ((⟨loop1MBB, 0, registers⟩, memory), stores) =
      some ((⟨if exchangeValue alloc.assign (comparedWord registers memory alloc.assign)
            (registers.gpr loopCondition) = 0 then loop1MBB else exitCmpSwapMBB, 0,
          afterCompare registers alloc.assign (comparedWord registers memory alloc.assign)⟩,
        storeWord32 memory (registers.gpr (alloc.assign .ptr))
          (registers.gpr (alloc.assign .newVal))), stores + 1) := by
  obtain ⟨first, compares⟩ := iterate_compare alloc registers memory stores
  rw [if_pos equal] at compares
  obtain ⟨second, exchanges⟩ := iterate_exchange alloc
    (afterCompare registers alloc.assign (comparedWord registers memory alloc.assign)) memory stores
  rw [after_compare_condition alloc registers equal, after_compare_input alloc registers _ (by simp),
    after_compare_input alloc registers _ (by simp)] at exchanges
  exact ⟨first + second, iterate_trans compares exchanges⟩

theorem swaps_once_of_leaves (leaves : LeavesCmpSwap alloc registers memory) :
    SwapsOnce alloc registers memory := by
  by_cases equal : comparedWord registers memory alloc.assign =
    registers.gpr (alloc.assign .oldVal)
  · obtain ⟨count, both⟩ := iterate_both alloc registers memory equal 0
    rw [if_neg (leaves equal), iterate_weighted, Option.map_eq_some_iff] at both
    obtain ⟨final, run, same⟩ := both
    rw [Prod.mk.injEq, Nat.zero_add, Nat.zero_add] at same
    obtain ⟨rfl, once⟩ := same
    refine ⟨count, _, ?_, after_compare_dest alloc registers _, once.le⟩
    rw [if_pos equal]
    exact run
  · obtain ⟨count, compares⟩ := iterate_compare alloc registers memory 0
    rw [if_neg equal, iterate_weighted, Option.map_eq_some_iff] at compares
    obtain ⟨final, run, same⟩ := compares
    rw [Prod.mk.injEq, Nat.zero_add] at same
    obtain ⟨rfl, none⟩ := same
    refine ⟨count, _, ?_, after_compare_dest alloc registers _, by rw [storesIn, none]; decide⟩
    rw [if_neg equal]
    exact run

/-- After an exchange that goes back, the reloaded word is the new one: it is either stored
again or found in the destination. -/
theorem leaves_of_swaps_once (swaps : SwapsOnce alloc registers memory) :
    LeavesCmpSwap alloc registers memory := by
  intro equal stays
  obtain ⟨count, final, run, dest, once⟩ := swaps
  obtain ⟨first, both⟩ := iterate_both alloc registers memory equal 0
  rw [if_pos stays] at both
  obtain ⟨rest, after, firstSum⟩ := rest_of_halted run (step_exit_cmp_swap alloc rfl _) both
  let registers' := afterCompare registers alloc.assign (comparedWord registers memory alloc.assign)
  let memory' := storeWord32 memory (registers.gpr (alloc.assign .ptr))
    (registers.gpr (alloc.assign .newVal))
  by_cases again : comparedWord registers' memory' alloc.assign =
    registers'.gpr (alloc.assign .oldVal)
  · obtain ⟨second, bothAgain⟩ := iterate_both alloc registers' memory' again 0
    obtain ⟨_, -, secondSum⟩ := rest_of_halted after (step_exit_cmp_swap alloc rfl _) bothAgain
    rw [storesIn] at once
    omega
  · have left := (exit_of_different alloc registers' memory' again after rfl).1
    rw [left] at dest
    apply again
    rw [dest, equal]
    exact (after_compare_input alloc registers _ (by simp)).symm

/-- A compare-and-swap, run from any state, behaves as its pseudo says exactly if the words
differ or the first exchange leaves the loop. -/
theorem atomic_cmp_swap_swaps_once_iff :
    SwapsOnce alloc registers memory ↔ LeavesCmpSwap alloc registers memory := by
  constructor
  · exact leaves_of_swaps_once alloc registers memory
  · exact swaps_once_of_leaves alloc registers memory

def separateCmpSwap : CmpSwapAllocation where
  assign
    | .dest => 2
    | .ptr => 3
    | .oldVal => 4
    | .newVal => 5
    | .cmpResult => 6
  allocatable register := by cases register <;> decide
  inputsKept := by decide
  destKept := by decide

/-- With zero in the tested register an exchange of equal words never ends. -/
theorem cmp_swap_loops_on_zero_condition : ¬ ∀ (alloc : CmpSwapAllocation) (registers : Registers)
    (memory : Memory 32), SwapsOnce alloc registers memory := by
  intro all
  let zeros : Registers := ⟨fun _ => 0, fun _ => 0⟩
  have equal : comparedWord zeros (fun _ => 0) separateCmpSwap.assign =
      zeros.gpr (separateCmpSwap.assign .oldVal) := by decide
  exact leaves_of_swaps_once separateCmpSwap zeros (fun _ => 0) (all _ _ _) equal rfl

end CmpSwap

end NaplesPU.AtomicRuns
