import NaplesPU.BranchAnalysis
import Mathlib.Data.List.Chain
import Mathlib.Data.List.DropRight

/-!
What debug values do to the analysis of the branches of a block. The scan skips
them, but then takes the instruction before them for a terminator.
-/

namespace NaplesPU.DebugValues

open FixupKinds BranchAnalysis

variable {Inst : Type}

def isDebugValue : MachineInst Inst → Bool
  | .DBG_VALUE => true
  | .plain _ | .JMP _ | .branch _ _ _ | .JUMPREG _ | .JRET => false

def isCondBranch : MachineInst Inst → Bool
  | .branch _ _ _ => true
  | .plain _ | .DBG_VALUE | .JMP _ | .JUMPREG _ | .JRET => false

/-- The block without its debug values. -/
def code (insts : List (MachineInst Inst)) : List (MachineInst Inst) :=
  insts.filter fun inst => !isDebugValue inst

def outputs (analysis : Analysis Inst) :
    Bool × Option Nat × Option Nat × Option (CondBranch × MCOperand) :=
  (analysis.cantAnalyze, analysis.trueBlock, analysis.falseBlock, analysis.cond)

/-- The instruction right behind the last plain one is a debug value. -/
def DebugEndsBody (insts : List (MachineInst Inst)) : Prop :=
  ∃ before inst after, insts = before ++ .plain inst :: .DBG_VALUE :: after ∧
    ∀ later ∈ after, !later.isPlain

def notBothCond (first second : MachineInst Inst) : Prop :=
  ¬ (isCondBranch first ∧ isCondBranch second)

/-- The terminators of a block are not only branches, or hold two conditional ones in a row. -/
def BailsOut (insts : List (MachineInst Inst)) : Prop :=
  (∃ inst ∈ insts.rtakeWhile fun inst => !inst.isPlain, !inst.isBranch) ∨
    ¬ (insts.rtakeWhile fun inst => !inst.isPlain).IsChain notBothCond

def DebugBeforePlain (before : List (MachineInst Inst)) : Prop :=
  ∃ later inst earlier, before = later ++ .DBG_VALUE :: .plain inst :: earlier ∧
    ∀ other ∈ later, !other.isPlain

/-- Whether the scan comes to a plain instruction right after it skipped a debug value. -/
def stopsInside (inside : Bool) : List (MachineInst Inst) → Bool
  | [] => false
  | .DBG_VALUE :: before => stopsInside true before
  | .plain _ :: _ => inside
  | .JMP _ :: before | .branch _ _ _ :: before | .JUMPREG _ :: before | .JRET :: before =>
      stopsInside false before

/-- Debug values change nothing but the return value, and that only where the scan stops
inside them. -/
theorem outputs_walk (allowModify inside : Bool) (before after : List (MachineInst Inst))
    (trueBlock falseBlock : Option Nat) (cond : Option (CondBranch × MCOperand)) :
    outputs (walk allowModify inside before after trueBlock falseBlock cond) =
      let scanned := walk allowModify false (code before) (code after) trueBlock falseBlock cond
      (scanned.cantAnalyze || stopsInside inside before, scanned.trueBlock, scanned.falseBlock,
        scanned.cond) := by
  induction before generalizing inside after trueBlock falseBlock cond with
  | nil => rfl
  | cons inst before induction =>
      cases inst with
      | plain inst => rfl
      | DBG_VALUE => exact induction true (.DBG_VALUE :: after) trueBlock falseBlock cond
      | JMP target =>
          have kept : code (.JMP target :: if allowModify then [] else after) =
              .JMP target :: if allowModify then [] else code after := by
            cases allowModify <;> rfl
          have rest := induction false (.JMP target :: if allowModify then [] else after)
            (some target) none none
          rw [kept] at rest
          exact rest
      | branch opcode operand target =>
          cases cond with
          | some cond => rfl
          | none =>
              exact induction false (.branch opcode operand target :: after) (some target)
                trueBlock (some (opcode, operand))
      | JUMPREG register => rfl
      | JRET => rfl

theorem behind_cons {first : MachineInst Inst} {before : List (MachineInst Inst)}
    (notPlain : first.isPlain = false) (notDebug : isDebugValue first = false) :
    DebugBeforePlain (first :: before) ↔ DebugBeforePlain before := by
  constructor
  · rintro ⟨later, inst, earlier, same, others⟩
    rw [List.cons_eq_append_iff] at same
    rcases same with ⟨rfl, same⟩ | ⟨later, rfl, rfl⟩
    · cases same
      cases notDebug
    · exact ⟨later, inst, earlier, rfl, (List.forall_mem_cons.mp others).2⟩
  · rintro ⟨later, inst, earlier, rfl, others⟩
    exact ⟨first :: later, inst, earlier, rfl,
      List.forall_mem_cons.mpr ⟨congrArg Bool.not notPlain, others⟩⟩

theorem stops_inside_iff (inside : Bool) (before : List (MachineInst Inst)) :
    stopsInside inside before ↔
      (inside ∧ ∃ inst earlier, before = .plain inst :: earlier) ∨ DebugBeforePlain before := by
  induction before generalizing inside with
  | nil => simp [stopsInside, DebugBeforePlain]
  | cons first before induction =>
      cases first with
      | plain inst =>
          simp [stopsInside, DebugBeforePlain, List.cons_eq_append_iff, MachineInst.isPlain]
      | DBG_VALUE =>
          rw [stopsInside, induction]
          constructor
          · rintro (⟨-, inst, earlier, rfl⟩ | ⟨later, inst, earlier, rfl, others⟩)
            · exact .inr ⟨[], inst, earlier, rfl, by simp⟩
            · exact .inr ⟨.DBG_VALUE :: later, inst, earlier, rfl,
                List.forall_mem_cons.mpr ⟨rfl, others⟩⟩
          · rintro (⟨-, inst, earlier, same⟩ | ⟨later, inst, earlier, same, others⟩)
            · cases same
            · rw [List.cons_eq_append_iff] at same
              rcases same with ⟨rfl, same⟩ | ⟨later, rfl, rfl⟩
              · cases same
                exact .inl ⟨rfl, inst, earlier, rfl⟩
              · exact .inr ⟨later, inst, earlier, rfl, (List.forall_mem_cons.mp others).2⟩
      | JMP target =>
          rw [stopsInside, induction, behind_cons rfl rfl]
          simp
      | branch opcode operand target =>
          rw [stopsInside, induction, behind_cons rfl rfl]
          simp
      | JUMPREG register =>
          rw [stopsInside, induction, behind_cons rfl rfl]
          simp
      | JRET =>
          rw [stopsInside, induction, behind_cons rfl rfl]
          simp

theorem stops_inside_reverse (insts : List (MachineInst Inst)) :
    stopsInside false insts.reverse ↔ DebugEndsBody insts := by
  rw [stops_inside_iff]
  constructor
  · rintro (⟨inside, -⟩ | ⟨later, inst, earlier, same, others⟩)
    · cases inside
    · refine ⟨earlier.reverse, inst, later.reverse, ?_, fun other member =>
        others other (List.mem_reverse.mp member)⟩
      rw [← List.reverse_reverse insts, same]
      simp
  · rintro ⟨before, inst, after, rfl, others⟩
    refine .inr ⟨after.reverse, inst, before.reverse, by simp, fun other member =>
      others other (List.mem_reverse.mp member)⟩

theorem chain_branch_iff (opcode : CondBranch) (operand : MCOperand) (target : Nat)
    (insts : List (MachineInst Inst)) :
    (MachineInst.branch opcode operand target :: insts).IsChain notBothCond ↔
      (∀ inst, ¬ (inst ∈ insts.head? ∧ isCondBranch inst)) ∧ insts.IsChain notBothCond := by
  rw [List.isChain_cons]
  apply and_congr_left'
  apply forall_congr'
  intro inst
  rw [notBothCond, not_and, not_and]
  exact imp_congr_right fun _ => ⟨fun both => both rfl, fun alone _ => alone⟩

/-- A scan without debug values fails at the first terminator that is no branch, and at a
conditional branch when the last thing it met is one. -/
theorem walk_fails_iff (allowModify : Bool) {before : List (MachineInst Inst)}
    (noDebug : ∀ inst ∈ before, !isDebugValue inst) (after : List (MachineInst Inst))
    (trueBlock falseBlock : Option Nat) (cond : Option (CondBranch × MCOperand)) :
    (walk allowModify false before after trueBlock falseBlock cond).cantAnalyze ↔
      (∃ inst ∈ before.takeWhile fun inst => !inst.isPlain, !inst.isBranch) ∨
        (cond.isSome ∧
          ∃ inst ∈ (before.takeWhile fun inst => !inst.isPlain).head?, isCondBranch inst) ∨
        ¬ (before.takeWhile fun inst => !inst.isPlain).IsChain notBothCond := by
  induction before generalizing after trueBlock falseBlock cond with
  | nil => simp [walk]
  | cons inst before induction =>
      rw [List.forall_mem_cons] at noDebug
      cases inst with
      | plain inst => simp [walk, MachineInst.isPlain]
      | DBG_VALUE => cases noDebug.1
      | JMP target =>
          rw [walk, induction noDebug.2, List.takeWhile_cons_of_pos rfl]
          simp [MachineInst.isBranch, isCondBranch, List.isChain_cons, notBothCond]
      | branch opcode operand target =>
          rw [walk, List.takeWhile_cons_of_pos rfl]
          cases cond with
          | some cond => simp [isCondBranch]
          | none =>
              simp only [Option.isSome_none, Bool.false_eq_true, if_false]
              rw [induction noDebug.2]
              rw [chain_branch_iff, not_and_or, not_forall]
              simp [MachineInst.isBranch]
      | JUMPREG register => simp [walk, MachineInst.isPlain, MachineInst.isBranch]
      | JRET => simp [walk, MachineInst.isPlain, MachineInst.isBranch]

theorem code_noDebug (insts : List (MachineInst Inst)) :
    ∀ inst ∈ code insts, !isDebugValue inst := by
  intro inst member
  exact (List.mem_filter.mp member).2

theorem analyze_code_fails_iff (allowModify : Bool) (insts : List (MachineInst Inst)) :
    (analyzeBranch allowModify (code insts)).cantAnalyze ↔ BailsOut (code insts) := by
  have noDebug : ∀ inst ∈ (code insts).reverse, !isDebugValue inst := by
    intro inst member
    exact code_noDebug insts inst (List.mem_reverse.mp member)
  rw [analyzeBranch, walk_fails_iff allowModify noDebug, BailsOut, List.rtakeWhile,
    List.isChain_reverse]
  have symmetric : (fun first second : MachineInst Inst => notBothCond second first) =
      notBothCond := by
    funext first second
    rw [notBothCond, notBothCond, and_comm]
  simp [symmetric]

theorem outputs_analyze_branch (allowModify : Bool) (insts : List (MachineInst Inst)) :
    outputs (analyzeBranch allowModify insts) =
      let scanned := analyzeBranch allowModify (code insts)
      (scanned.cantAnalyze || stopsInside false insts.reverse, scanned.trueBlock,
        scanned.falseBlock, scanned.cond) := by
  rw [analyzeBranch, outputs_walk, analyzeBranch]
  rw [code, List.filter_reverse]
  rfl

/-- Two blocks of the same code have the same analysis just when a debug value follows the
last plain instruction in both or in neither, or the analysis of the code fails anyway. -/
theorem debug_values_unseen_iff (allowModify : Bool) {first second : List (MachineInst Inst)}
    (same : code first = code second) :
    outputs (analyzeBranch allowModify first) = outputs (analyzeBranch allowModify second) ↔
      (DebugEndsBody first ↔ DebugEndsBody second) ∨ BailsOut (code first) := by
  rw [outputs_analyze_branch, outputs_analyze_branch, ← same, ← stops_inside_reverse,
    ← stops_inside_reverse, ← analyze_code_fails_iff allowModify]
  cases fails : (analyzeBranch allowModify (code first)).cantAnalyze with
  | false => simp [fails]
  | true => simp [fails]

/-- A block that falls through, and the same block with a debug value at its end. -/
theorem debug_value_seen :
    ¬ ∀ (Inst : Type) (allowModify : Bool) (first second : List (MachineInst Inst)),
      code first = code second →
        outputs (analyzeBranch allowModify first) = outputs (analyzeBranch allowModify second) := by
  intro unseen
  exact absurd (unseen Unit false [.plain ()] [.plain (), .DBG_VALUE] rfl) (by decide)

theorem debug_value_unseen_behind_jump :
    outputs (analyzeBranch false [.plain (), .JMP 3]) =
      outputs (analyzeBranch false [.plain (), .JMP 3, .DBG_VALUE]) :=
  (debug_values_unseen_iff false rfl).mpr
    (.inl (iff_of_false (mt (stops_inside_reverse _).mpr (by decide))
      (mt (stops_inside_reverse _).mpr (by decide))))

end NaplesPU.DebugValues
