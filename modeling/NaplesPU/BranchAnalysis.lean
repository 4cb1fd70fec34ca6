import NaplesPU.Machine

/-!
The analysis of the branches that end a basic block, and the two operations that
rewrite them. Instructions that are neither terminators nor debug values are
left abstract: they only change a state, of which the terminators read scalar
registers.
-/

namespace NaplesPU.BranchAnalysis

open RegisterInfo FixupKinds Machine

/-- The opcodes of `isCondBranchOpcode`. -/
inductive CondBranch where
  | BEQZ
  | BNEZ
deriving DecidableEq, Repr

inductive MachineInst (Inst : Type) where
  | plain (inst : Inst)
  | DBG_VALUE
  | JMP (target : Nat)
  | branch (opcode : CondBranch) (cond : MCOperand) (target : Nat)
  | JUMPREG (cond : Fin 64)
  | JRET
deriving DecidableEq

variable {Inst State : Type}

def MachineInst.isTerminator : MachineInst Inst → Bool
  | .plain _ | .DBG_VALUE => false
  | .JMP _ | .branch _ _ _ | .JUMPREG _ | .JRET => true

/-- The instructions of a block: after a terminator come only terminators and debug values. -/
structure BasicBlock (Inst : Type) where
  insts : List (MachineInst Inst)
  terminatorsLast : insts.Pairwise fun first second =>
    first.isTerminator → second.isTerminator ∨ second = .DBG_VALUE

/-- What `analyzeBranch` leaves: its result, its output arguments and the block. -/
structure Analysis (Inst : Type) where
  cantAnalyze : Bool
  trueBlock : Option Nat
  falseBlock : Option Nat
  cond : Option (CondBranch × MCOperand)
  insts : List (MachineInst Inst)

/-- The walk from the end. The instructions not yet looked at come last first, those after
them in order; `inside` says that the walk skipped debug values in this turn of the loop,
so that the next instruction is taken for a terminator whatever it is. -/
def walk (allowModify inside : Bool) : List (MachineInst Inst) → List (MachineInst Inst) →
    Option Nat → Option Nat → Option (CondBranch × MCOperand) → Analysis Inst
  | [], after, trueBlock, falseBlock, cond => ⟨false, trueBlock, falseBlock, cond, after⟩
  | .DBG_VALUE :: before, after, trueBlock, falseBlock, cond =>
      walk allowModify true before (.DBG_VALUE :: after) trueBlock falseBlock cond
  | .plain inst :: before, after, trueBlock, falseBlock, cond =>
      ⟨inside, trueBlock, falseBlock, cond, (.plain inst :: before).reverse ++ after⟩
  | .JMP target :: before, after, _, _, _ =>
      walk allowModify false before (.JMP target :: if allowModify then [] else after)
        (some target) none none
  | .branch opcode operand target :: before, after, trueBlock, falseBlock, cond =>
      if cond.isSome then
        ⟨true, trueBlock, falseBlock, cond,
          (.branch opcode operand target :: before).reverse ++ after⟩
      else
        walk allowModify false before (.branch opcode operand target :: after) (some target)
          trueBlock (some (opcode, operand))
  | .JUMPREG register :: before, after, trueBlock, falseBlock, cond =>
      ⟨true, trueBlock, falseBlock, cond, (.JUMPREG register :: before).reverse ++ after⟩
  | .JRET :: before, after, trueBlock, _, _ =>
      ⟨true, trueBlock, none, none,
        (.JRET :: before).reverse ++ if allowModify then [] else after⟩

/-- The analysis, called with an empty condition. -/
def analyzeBranch (allowModify : Bool) (insts : List (MachineInst Inst)) : Analysis Inst :=
  walk allowModify false insts.reverse [] none none none

/-- Appends the branches and counts them. A false block without a condition is refused:
the source would read past the end of the condition. -/
def insertBranch (insts : List (MachineInst Inst)) (trueBlock : Nat) (falseBlock : Option Nat)
    (cond : Option (CondBranch × MCOperand)) : Option (List (MachineInst Inst) × Nat) :=
  match falseBlock, cond with
  | some falseBlock, some (opcode, operand) =>
      some (insts ++ [.branch opcode operand trueBlock, .JMP falseBlock], 2)
  | some _, none => none
  | none, none => some (insts ++ [.JMP trueBlock], 1)
  | none, some (opcode, operand) => some (insts ++ [.branch opcode operand trueBlock], 1)

/-- The erasure from the end. Each erased branch restarts the scan, which skips the same
debug values again. -/
def eraseBranches : List (MachineInst Inst) → List (MachineInst Inst) × Nat
  | .DBG_VALUE :: before => ((.DBG_VALUE :: (eraseBranches before).1), (eraseBranches before).2)
  | .JMP _ :: before | .branch _ _ _ :: before =>
      ((eraseBranches before).1, (eraseBranches before).2 + 1)
  | before => (before, 0)

def removeBranch (insts : List (MachineInst Inst)) : List (MachineInst Inst) × Nat :=
  ((eraseBranches insts.reverse).1.reverse, (eraseBranches insts.reverse).2)

section Semantics

/-- Where control goes at the end of a block. -/
inductive Transfer where
  | block (target : Nat)
  | fallThrough
  | indirect (address : Word)
  | ret
deriving DecidableEq

variable (apply : Inst → State → State) (gpr : State → Fin 64 → Word)

def taken (opcode : CondBranch) (value : Word) : Bool :=
  match opcode with
  | .BEQZ => value = 0
  | .BNEZ => value ≠ 0

def CondBranch.target : CondBranch → InstrInfo.Opcode
  | .BEQZ => .BEQZ
  | .BNEZ => .BNEZ

theorem exec_branch (opcode : CondBranch) (cond : MCOperand) (label : Nat) (registers : Registers)
    (memory : ByteMemory.Memory 32) :
    exec ⟨opcode.target, [cond, .expr ⟨label, 0⟩]⟩ registers memory =
      some ⟨registers, memory,
        if taken opcode (registers.gpr (testedRegister cond)) then some label else none⟩ := by
  cases opcode with
  | BEQZ => simp [CondBranch.target, exec_branch_zero, taken]
  | BNEZ => simp [CondBranch.target, exec_branch_nonzero, taken]

def runBlock : List (MachineInst Inst) → State → State × Transfer
  | [], state => (state, .fallThrough)
  | .plain inst :: rest, state => runBlock rest (apply inst state)
  | .DBG_VALUE :: rest, state => runBlock rest state
  | .JMP target :: _, state => (state, .block target)
  | .branch opcode cond target :: rest, state =>
      if taken opcode (gpr state (testedRegister cond)) then (state, .block target)
      else runBlock rest state
  | .JUMPREG register :: _, state => (state, .indirect (gpr state register))
  | .JRET :: _, state => (state, .ret)

/-- What the outputs of the analysis say about the end of a block. -/
def described (trueBlock falseBlock : Option Nat) (cond : Option (CondBranch × MCOperand))
    (state : State) : Transfer :=
  let goTo (block : Option Nat) : Transfer := block.elim .fallThrough .block
  match cond with
  | none => goTo trueBlock
  | some (opcode, operand) =>
      if taken opcode (gpr state (testedRegister operand)) then goTo trueBlock else goTo falseBlock

variable {apply gpr}

/-- Ends of a block that run alike can be exchanged. -/
theorem run_append_congr {first second : List (MachineInst Inst)}
    (alike : ∀ state, runBlock apply gpr first state = runBlock apply gpr second state)
    (before : List (MachineInst Inst)) (state : State) :
    runBlock apply gpr (before ++ first) state = runBlock apply gpr (before ++ second) state := by
  induction before generalizing state with
  | nil => exact alike state
  | cons inst rest induction =>
      cases inst with
      | plain inst => exact induction (apply inst state)
      | DBG_VALUE => exact induction state
      | branch opcode cond target =>
          rw [List.cons_append, List.cons_append, runBlock, runBlock, induction state]
      | JMP target => rfl
      | JUMPREG register => rfl
      | JRET => rfl

/-- What the walk deletes never runs: it follows a jump or a return. -/
theorem run_walk (allowModify inside : Bool) (before after : List (MachineInst Inst))
    (trueBlock falseBlock : Option Nat) (cond : Option (CondBranch × MCOperand)) (state : State) :
    runBlock apply gpr (walk allowModify inside before after trueBlock falseBlock cond).insts state =
      runBlock apply gpr (before.reverse ++ after) state := by
  induction before generalizing inside after trueBlock falseBlock cond with
  | nil => rfl
  | cons inst before induction =>
      have shifted : (inst :: before).reverse ++ after = before.reverse ++ inst :: after := by
        rw [List.reverse_cons, List.append_assoc, List.singleton_append]
      cases inst with
      | plain inst => rfl
      | DBG_VALUE => rw [walk, induction, shifted]
      | JMP target =>
          rw [walk, induction, shifted]
          apply run_append_congr
          intro state
          rfl
      | branch opcode operand target =>
          rw [walk]
          split
          · rfl
          · rw [induction, shifted]
      | JUMPREG register => rfl
      | JRET =>
          rw [walk, shifted, List.reverse_cons, List.append_assoc, List.singleton_append]
          apply run_append_congr
          intro state
          rfl

theorem run_analyze_branch (allowModify : Bool) (insts : List (MachineInst Inst)) (state : State) :
    runBlock apply gpr (analyzeBranch allowModify insts).insts state =
      runBlock apply gpr insts state := by
  rw [analyzeBranch, run_walk, List.reverse_reverse, List.append_nil]

def MachineInst.isBranch : MachineInst Inst → Bool
  | .JMP _ | .branch _ _ _ => true
  | .plain _ | .DBG_VALUE | .JUMPREG _ | .JRET => false

def MachineInst.isPlain : MachineInst Inst → Bool
  | .plain _ => true
  | _ => false

variable (apply gpr) in
/-- What holds of the instructions behind the walk: they are branches, and the outputs say
what they do. -/
structure Scanned (after : List (MachineInst Inst)) (trueBlock falseBlock : Option Nat)
    (cond : Option (CondBranch × MCOperand)) : Prop where
  branches : ∀ inst ∈ after, inst.isBranch
  runs : ∀ state, runBlock apply gpr after state =
    (state, described gpr trueBlock falseBlock cond state)
  unconditional : cond = none → falseBlock = none

theorem scanned_jump {after : List (MachineInst Inst)} (target : Nat)
    (branches : ∀ inst ∈ after, inst.isBranch) :
    Scanned apply gpr (.JMP target :: after) (some target) none none where
  branches := List.forall_mem_cons.mpr ⟨rfl, branches⟩
  runs _ := rfl
  unconditional _ := rfl

theorem scanned_branch {after : List (MachineInst Inst)} {trueBlock falseBlock : Option Nat}
    (scanned : Scanned apply gpr after trueBlock falseBlock none) (opcode : CondBranch)
    (operand : MCOperand) (target : Nat) :
    Scanned apply gpr (.branch opcode operand target :: after) (some target) trueBlock
      (some (opcode, operand)) where
  branches := List.forall_mem_cons.mpr ⟨rfl, scanned.branches⟩
  runs state := by
    rw [runBlock, scanned.runs state, described, described]
    split <;> rfl
  unconditional none := by cases none

/-- A walk over a block without debug values that succeeds ends at the plain instructions. -/
theorem walk_scanned (allowModify : Bool) {before after : List (MachineInst Inst)}
    {trueBlock falseBlock : Option Nat} {cond : Option (CondBranch × MCOperand)}
    (noDebug : ∀ inst ∈ before, inst ≠ .DBG_VALUE)
    (ordered : before.Pairwise fun second first => first.isTerminator → second.isTerminator)
    (scanned : Scanned apply gpr after trueBlock falseBlock cond)
    (analyzed : (walk allowModify false before after trueBlock falseBlock cond).cantAnalyze = false) :
    ∃ body ends, (walk allowModify false before after trueBlock falseBlock cond).insts =
        body ++ ends ∧
      (∀ inst ∈ body, inst.isPlain) ∧
      Scanned apply gpr ends
        (walk allowModify false before after trueBlock falseBlock cond).trueBlock
        (walk allowModify false before after trueBlock falseBlock cond).falseBlock
        (walk allowModify false before after trueBlock falseBlock cond).cond := by
  induction before generalizing after trueBlock falseBlock cond with
  | nil => exact ⟨[], after, rfl, by simp, scanned⟩
  | cons inst before induction =>
      rw [List.forall_mem_cons] at noDebug
      rw [List.pairwise_cons] at ordered
      cases inst with
      | plain inst =>
          refine ⟨(.plain inst :: before).reverse, after, rfl, ?_, scanned⟩
          intro earlier member
          rw [List.mem_reverse, List.mem_cons] at member
          rcases member with rfl | member
          · rfl
          · have debug := noDebug.2 earlier member
            have terminator := ordered.1 earlier member
            cases earlier <;> simp_all [MachineInst.isPlain, MachineInst.isTerminator]
      | DBG_VALUE => exact absurd rfl noDebug.1
      | JMP target =>
          have branches : ∀ inst ∈ (if allowModify then [] else after), inst.isBranch := by
            split
            · simp
            · exact scanned.branches
          exact induction noDebug.2 ordered.2 (scanned_jump target branches) analyzed
      | branch opcode operand target =>
          cases cond with
          | some cond => cases analyzed
          | none =>
              exact induction noDebug.2 ordered.2 (scanned_branch scanned opcode operand target)
                analyzed
      | JUMPREG register => cases analyzed
      | JRET => cases analyzed

theorem erase_branches_append {ends before : List (MachineInst Inst)}
    (branches : ∀ inst ∈ ends, inst.isBranch) (plain : ∀ inst ∈ before, inst.isPlain) :
    eraseBranches (ends ++ before) = (before, ends.length) := by
  induction ends with
  | nil =>
      cases before with
      | nil => rfl
      | cons inst before =>
          have isPlain := plain inst List.mem_cons_self
          cases inst <;> first | rfl | cases isPlain
  | cons inst ends induction =>
      rw [List.forall_mem_cons] at branches
      have rest := induction branches.2
      cases inst with
      | JMP target => rw [List.cons_append, eraseBranches, rest, List.length_cons]
      | branch opcode operand target => rw [List.cons_append, eraseBranches, rest, List.length_cons]
      | plain inst => cases branches.1
      | DBG_VALUE => cases branches.1
      | JUMPREG register => cases branches.1
      | JRET => cases branches.1

theorem remove_branch_append {body ends : List (MachineInst Inst)}
    (plain : ∀ inst ∈ body, inst.isPlain) (branches : ∀ inst ∈ ends, inst.isBranch) :
    removeBranch (body ++ ends) = (body, ends.length) := by
  have erased : eraseBranches (ends.reverse ++ body.reverse) = (body.reverse, ends.reverse.length) :=
    erase_branches_append (fun inst member => branches inst (List.mem_reverse.mp member))
      (fun inst member => plain inst (List.mem_reverse.mp member))
  rw [removeBranch, List.reverse_append, erased, List.reverse_reverse, List.length_reverse]

/-- The inserted branches do what the outputs of an analysis say. -/
theorem insert_branch_runs (apply : Inst → State → State) (gpr : State → Fin 64 → Word)
    (body : List (MachineInst Inst)) (trueBlock : Nat)
    {falseBlock : Option Nat} {cond : Option (CondBranch × MCOperand)}
    (unconditional : cond = none → falseBlock = none) :
    ∃ added, insertBranch body trueBlock falseBlock cond = some (body ++ added, added.length) ∧
      ∀ state, runBlock apply gpr added state =
        (state, described gpr (some trueBlock) falseBlock cond state) := by
  cases cond with
  | none =>
      obtain rfl := unconditional rfl
      exact ⟨[.JMP trueBlock], rfl, fun _ => rfl⟩
  | some cond =>
      obtain ⟨opcode, operand⟩ := cond
      cases falseBlock with
      | none =>
          refine ⟨[.branch opcode operand trueBlock], rfl, fun state => ?_⟩
          rw [runBlock, described]
          split <;> rfl
      | some falseBlock =>
          refine ⟨[.branch opcode operand trueBlock, .JMP falseBlock], rfl, fun state => ?_⟩
          rw [runBlock, described]
          split <;> rfl

theorem run_plain (apply : Inst → State → State) (gpr : State → Fin 64 → Word)
    {body : List (MachineInst Inst)} (plain : ∀ inst ∈ body, inst.isPlain)
    (ends : List (MachineInst Inst)) (state : State) :
    ∃ middle, runBlock apply gpr (body ++ ends) state = runBlock apply gpr ends middle := by
  induction body generalizing state with
  | nil => exact ⟨state, rfl⟩
  | cons inst body induction =>
      rw [List.forall_mem_cons] at plain
      cases inst with
      | plain inst => exact induction plain.2 (apply inst state)
      | DBG_VALUE => cases plain.1
      | JMP target => cases plain.1
      | branch opcode operand target => cases plain.1
      | JUMPREG register => cases plain.1
      | JRET => cases plain.1

variable (apply gpr)

/-- The outputs of the analysis name the block's transfer of control in every state. -/
def Describes (analysis : Analysis Inst) (insts : List (MachineInst Inst)) : Prop :=
  ∀ state, (runBlock apply gpr insts state).2 =
    described gpr analysis.trueBlock analysis.falseBlock analysis.cond
      (runBlock apply gpr insts state).1

/-- Removing the branches and inserting those of the analysis gives a block that runs alike,
and both report how many instructions they removed and added. -/
def RoundTrips (analysis : Analysis Inst) (trueBlock : Nat) (insts : List (MachineInst Inst)) :
    Prop :=
  ∃ kept removed added, analysis.insts = kept ++ removed ∧
    removeBranch analysis.insts = (kept, removed.length) ∧
    insertBranch kept trueBlock analysis.falseBlock analysis.cond =
      some (kept ++ added, added.length) ∧
    ∀ state, runBlock apply gpr (kept ++ added) state = runBlock apply gpr insts state

theorem analyze_branch_scanned (allowModify : Bool) (block : BasicBlock Inst)
    (noDebug : ∀ inst ∈ block.insts, inst ≠ .DBG_VALUE)
    (analyzed : (analyzeBranch allowModify block.insts).cantAnalyze = false) :
    ∃ body ends, (analyzeBranch allowModify block.insts).insts = body ++ ends ∧
      (∀ inst ∈ body, inst.isPlain) ∧
      Scanned apply gpr ends (analyzeBranch allowModify block.insts).trueBlock
        (analyzeBranch allowModify block.insts).falseBlock
        (analyzeBranch allowModify block.insts).cond := by
  have noDebugBack : ∀ inst ∈ block.insts.reverse, inst ≠ .DBG_VALUE := by
    intro inst member
    exact noDebug inst (List.mem_reverse.mp member)
  have ordered : block.insts.reverse.Pairwise fun second first =>
      first.isTerminator → second.isTerminator := by
    rw [List.pairwise_reverse]
    refine block.terminatorsLast.imp_of_mem fun {first second} _ member later isTerminator => ?_
    exact (later isTerminator).resolve_right (noDebug second member)
  have start : Scanned apply gpr [] none none none :=
    ⟨by simp, fun _ => rfl, fun _ => rfl⟩
  exact walk_scanned allowModify noDebugBack ordered start analyzed

variable {apply gpr}

section Scans

variable {analysis : Analysis Inst} {body ends insts : List (MachineInst Inst)}

theorem describes_of_scanned (split : analysis.insts = body ++ ends)
    (plain : ∀ inst ∈ body, inst.isPlain)
    (scanned : Scanned apply gpr ends analysis.trueBlock analysis.falseBlock analysis.cond)
    (alike : ∀ state, runBlock apply gpr analysis.insts state = runBlock apply gpr insts state) :
    Describes apply gpr analysis insts := by
  intro state
  obtain ⟨middle, reached⟩ := run_plain apply gpr plain ends state
  rw [← alike, split, reached, scanned.runs]

theorem round_trips_of_scanned {trueBlock : Nat} (split : analysis.insts = body ++ ends)
    (plain : ∀ inst ∈ body, inst.isPlain)
    (scanned : Scanned apply gpr ends analysis.trueBlock analysis.falseBlock analysis.cond)
    (branches : analysis.trueBlock = some trueBlock)
    (alike : ∀ state, runBlock apply gpr analysis.insts state = runBlock apply gpr insts state) :
    RoundTrips apply gpr analysis trueBlock insts := by
  obtain ⟨added, inserted, runs⟩ :=
    insert_branch_runs apply gpr body trueBlock scanned.unconditional
  refine ⟨body, ends, added, split, ?_, inserted, fun state => ?_⟩
  · rw [split, remove_branch_append plain scanned.branches]
  · rw [← alike, split]
    apply run_append_congr
    intro middle
    rw [runs, scanned.runs, branches]

end Scans

variable (apply gpr)

/-- The analysis of a block without debug values is right and can be undone, and for every
block its deletions leave the transfer of control alone. -/
theorem analyze_branch_faithful (allowModify : Bool) (block : BasicBlock Inst) :
    ((∀ inst ∈ block.insts, inst ≠ .DBG_VALUE) →
      (analyzeBranch allowModify block.insts).cantAnalyze = false →
      ∀ trueBlock, (analyzeBranch allowModify block.insts).trueBlock = some trueBlock →
        Describes apply gpr (analyzeBranch allowModify block.insts) block.insts ∧
        RoundTrips apply gpr (analyzeBranch allowModify block.insts) trueBlock block.insts) ∧
      ∀ state, runBlock apply gpr (analyzeBranch allowModify block.insts).insts state =
        runBlock apply gpr block.insts state := by
  constructor
  · intro noDebug analyzed trueBlock branches
    obtain ⟨body, ends, split, plain, scanned⟩ :=
      analyze_branch_scanned apply gpr allowModify block noDebug analyzed
    exact ⟨describes_of_scanned split plain scanned (run_analyze_branch allowModify block.insts),
      round_trips_of_scanned split plain scanned branches
        (run_analyze_branch allowModify block.insts)⟩
  · exact run_analyze_branch allowModify block.insts

/-- A conditional branch, the jump behind it, and a jump that is never reached. -/
def twoWayBlock : BasicBlock Unit where
  insts := [.plain (), .branch .BEQZ (.reg (sReg 3)) 5, .JMP 7, .JMP 8]
  terminatorsLast := by decide

theorem two_way_block_round_trips :
    RoundTrips (fun _ registers => registers) Registers.gpr
      (analyzeBranch true twoWayBlock.insts) 5 twoWayBlock.insts :=
  ((analyze_branch_faithful (fun _ registers => registers) Registers.gpr true twoWayBlock).1
    (by decide) rfl 5 rfl).2

end Semantics

end NaplesPU.BranchAnalysis
