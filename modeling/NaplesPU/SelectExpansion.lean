import Mathlib.Data.BitVec
import Mathlib.Data.List.Find
import Mathlib.Data.List.Nodup
import NaplesPU.Lib.TraceSimulation

/-!
The expansion of a scalar selection into control flow. A block is split behind the
pseudo instruction: its first part branches over an empty block to the rest, which
begins with a PHI, takes over the successors and replaces the block in their PHIs.
Instructions other than selections and the branch on a register are arbitrary.
-/

namespace NaplesPU.SelectExpansion

open StepRuns TraceSimulation

abbrev Word := BitVec 32

section Functions

variable (Id Reg Other : Type)

inductive MachineInstr where
  /-- `SELECTI` and `SELECTF`. -/
  | select (dst pred trueVal falseVal : Reg)
  | bnez (cond : Reg) (target : Id)
  | other (inst : Other)

structure Phi where
  dst : Reg
  incoming : List (Reg × Id)

structure Block where
  phis : List (Phi Id Reg)
  code : List (MachineInstr Id Reg Other)
  succs : List Id

structure MachineFunction where
  layout : List Id
  block : Id → Block Id Reg Other

end Functions

section Semantics

variable (Id Reg Other Mem : Type)

/-- The virtual registers, and everything else that instructions read and write. -/
structure State where
  regs : Reg → Word
  memory : Mem

inductive Flow where
  | next
  | goto (target : Id)
  | leave

/-- What the other instructions do, and what is known of them: only terminators have targets,
and nothing goes anywhere else. -/
structure Semantics where
  exec : Other → State Reg Mem → Option (State Reg Mem × Flow Id)
  isTerminator : Other → Bool
  targets : Other → List Id
  goto_target : ∀ inst state next target, exec inst state = some (next, .goto target) →
    target ∈ targets inst
  target_terminator : ∀ inst target, target ∈ targets inst → isTerminator inst = true

end Semantics

section Execution

variable {Id Reg Other Mem : Type} [DecidableEq Id] [DecidableEq Reg]

def State.set (state : State Reg Mem) (register : Reg) (value : Word) : State Reg Mem :=
  { state with regs := Function.update state.regs register value }

/-- The operand of a PHI for a block that control comes from. -/
def Phi.lookup (phi : Phi Id Reg) (pred : Id) : Option Reg :=
  (phi.incoming.find? fun incoming => incoming.2 = pred).map Prod.fst

/-- What PHIs select, all from the registers before them. -/
def phiValues (pred : Id) (regs : Reg → Word) : List (Phi Id Reg) → Option (List (Reg × Word))
  | [] => some []
  | phi :: rest => do
      let register ← phi.lookup pred
      let values ← phiValues pred regs rest
      return (phi.dst, regs register) :: values

def evalPhis (phis : List (Phi Id Reg)) (pred : Id) (state : State Reg Mem) :
    Option (State Reg Mem) :=
  (phiValues pred state.regs phis).map fun values =>
    values.foldl (fun state value => state.set value.1 value.2) state

def layoutNext : List Id → Id → Option Id
  | first :: second :: rest, id =>
      if first = id then some second else layoutNext (second :: rest) id
  | _, _ => none

/-- What a block has left to execute, or the state in which the function was left. -/
inductive Config (Id Reg Other Mem : Type) where
  | running (block : Id) (rest : List (MachineInstr Id Reg Other)) (state : State Reg Mem)
  | left (state : State Reg Mem)

/-- An executed instruction and the state that it is executed in. -/
abbrev Event (Id Reg Other Mem : Type) := MachineInstr Id Reg Other × State Reg Mem

def enter (function : MachineFunction Id Reg Other) (pred target : Id) (state : State Reg Mem) :
    Option (Config Id Reg Other Mem) :=
  (evalPhis (function.block target).phis pred state).map fun next =>
    .running target (function.block target).code next

def follow (function : MachineFunction Id Reg Other) (block : Id)
    (rest : List (MachineInstr Id Reg Other)) (state : State Reg Mem) :
    Flow Id → Option (Config Id Reg Other Mem)
  | .next => some (.running block rest state)
  | .goto target => enter function block target state
  | .leave => some (.left state)

def execute (sem : Semantics Id Reg Other Mem) (state : State Reg Mem) :
    MachineInstr Id Reg Other → Option (State Reg Mem × Flow Id)
  | .select dst pred trueVal falseVal =>
      some (state.set dst
        (if state.regs pred ≠ 0 then state.regs trueVal else state.regs falseVal), .next)
  | .bnez cond target => some (state, if state.regs cond ≠ 0 then .goto target else .next)
  | .other inst => sem.exec inst state

/-- A pseudo instruction is no event. -/
def observed (state : State Reg Mem) : MachineInstr Id Reg Other → List (Event Id Reg Other Mem)
  | .select _ _ _ _ => []
  | inst => [(inst, state)]

/-- One instruction; behind its last one a block is left for the next in the layout. -/
def step (sem : Semantics Id Reg Other Mem) (function : MachineFunction Id Reg Other) :
    Config Id Reg Other Mem → Option (List (Event Id Reg Other Mem) × Config Id Reg Other Mem)
  | .left _ => none
  | .running block [] state =>
      (layoutNext function.layout block).bind fun next =>
        (enter function block next state).map fun config => ([], config)
  | .running block (inst :: rest) state =>
      (execute sem state inst).bind fun result =>
        (follow function block rest result.1 result.2).map fun config =>
          (observed state inst, config)

end Execution

section Invariant

variable {Id Reg Other Mem : Type} (sem : Semantics Id Reg Other Mem)

def MachineInstr.isTerminator : MachineInstr Id Reg Other → Bool
  | .select _ _ _ _ => false
  | .bnez _ _ => true
  | .other inst => sem.isTerminator inst

def MachineInstr.targets : MachineInstr Id Reg Other → List Id
  | .select _ _ _ _ => []
  | .bnez _ target => [target]
  | .other inst => sem.targets inst

/-- What holds of every machine function: targets are blocks of it, PHIs have operands for
predecessors only, and terminators stand behind all other instructions. -/
structure WellFormed (function : MachineFunction Id Reg Other) : Prop where
  targets_laid_out : ∀ id ∈ function.layout, ∀ inst ∈ (function.block id).code,
    ∀ target ∈ inst.targets sem, target ∈ function.layout
  incoming_laid_out : ∀ id ∈ function.layout, ∀ phi ∈ (function.block id).phis,
    ∀ operand ∈ phi.incoming, operand.2 ∈ function.layout
  incoming_preds : ∀ id ∈ function.layout, ∀ phi ∈ (function.block id).phis,
    ∀ operand ∈ phi.incoming, id ∈ (function.block operand.2).succs
  terminators_last : ∀ id ∈ function.layout, (function.block id).code.Pairwise
    fun first second => first.isTerminator sem = true → second.isTerminator sem = true

end Invariant

section Expansion

variable {Id Reg Other : Type} [DecidableEq Id]

/-- A selection in a block, and the two blocks that are created for it. -/
structure Site (function : MachineFunction Id Reg Other) where
  thisMBB : Id
  copy0MBB : Id
  sinkMBB : Id
  before : List (MachineInstr Id Reg Other)
  after : List (MachineInstr Id Reg Other)
  dst : Reg
  pred : Reg
  trueVal : Reg
  falseVal : Reg
  laid_out : thisMBB ∈ function.layout
  code : (function.block thisMBB).code = before ++ .select dst pred trueVal falseVal :: after
  copy0_new : copy0MBB ∉ function.layout
  sink_new : sinkMBB ∉ function.layout
  distinct : copy0MBB ≠ sinkMBB

/-- The operand blocks of a PHI, with one replaced by another. -/
def Phi.update (phi : Phi Id Reg) (fromMBB toMBB : Id) : Phi Id Reg :=
  { phi with incoming := phi.incoming.map fun incoming =>
      (incoming.1, if incoming.2 = fromMBB then toMBB else incoming.2) }

/-- The PHIs of a block after a block took over the successors of another. -/
def updatePHIs (function : MachineFunction Id Reg Other) (fromMBB toMBB id : Id) :
    List (Phi Id Reg) :=
  if id ∈ (function.block fromMBB).succs then
    (function.block id).phis.map fun phi => phi.update fromMBB toMBB
  else (function.block id).phis

def insertBehind (id : Id) (inserted : List Id) : List Id → List Id
  | [] => []
  | first :: rest =>
      if first = id then first :: (inserted ++ rest) else first :: insertBehind id inserted rest

variable {function : MachineFunction Id Reg Other}

/-- The true value from the branch, the false value from the empty block. -/
def sinkPhi (site : Site function) : Phi Id Reg where
  dst := site.dst
  incoming := [(site.trueVal, site.thisMBB), (site.falseVal, site.copy0MBB)]

def emitSelectCC (site : Site function) : MachineFunction Id Reg Other where
  layout := insertBehind site.thisMBB [site.copy0MBB, site.sinkMBB] function.layout
  block id :=
    if id = site.sinkMBB then
      { phis := [sinkPhi site]
        code := site.after
        succs := (function.block site.thisMBB).succs }
    else if id = site.copy0MBB then { phis := [], code := [], succs := [site.sinkMBB] }
    else
      let phis := updatePHIs function site.thisMBB site.sinkMBB id
      if id = site.thisMBB then
        { phis := phis
          code := site.before ++ [.bnez site.pred site.sinkMBB]
          succs := [site.copy0MBB, site.sinkMBB] }
      else { function.block id with phis := phis }

end Expansion

section Instructions

variable {Id Reg Other Mem : Type} [DecidableEq Id] [DecidableEq Reg]
  {sem : Semantics Id Reg Other Mem} {inst : MachineInstr Id Reg Other}
  {state next : State Reg Mem} {target : Id}

omit [DecidableEq Id] in
theorem execute_goto (executed : execute sem state inst = some (next, .goto target)) :
    target ∈ inst.targets sem := by
  cases inst with
  | select dst pred trueVal falseVal => cases executed
  | bnez cond label =>
      rw [execute, Option.some.injEq, Prod.mk.injEq] at executed
      have taken := executed.2
      split at taken
      · cases taken
        exact List.mem_singleton_self _
      · cases taken
  | other inst => exact sem.goto_target inst state next target executed

omit [DecidableEq Id] [DecidableEq Reg] in
theorem target_terminator (goes : target ∈ inst.targets sem) : inst.isTerminator sem = true := by
  cases inst with
  | select dst pred trueVal falseVal => cases goes
  | bnez cond label => rfl
  | other inst => exact sem.target_terminator inst target goes

end Instructions

section Layout

variable {Id : Type} [DecidableEq Id] {layout : List Id} {thisMBB copy0MBB sinkMBB : Id}

theorem layout_next_cons (first : Id) (rest : List Id) (id : Id) :
    layoutNext (first :: rest) id = if first = id then rest.head? else layoutNext rest id := by
  cases rest with
  | nil =>
      rw [List.head?_nil]
      split <;> rfl
  | cons second rest => rw [layoutNext, List.head?_cons]

theorem layout_next_mem {id next : Id} (known : layoutNext layout id = some next) :
    next ∈ layout := by
  induction layout with
  | nil => cases known
  | cons first rest induction =>
      rw [layout_next_cons] at known
      split at known
      · exact List.mem_cons_of_mem first (List.mem_of_mem_head? known)
      · exact List.mem_cons_of_mem first (induction known)

theorem insert_behind_mem {id : Id} {inserted : List Id} (laidOut : thisMBB ∈ layout) :
    id ∈ insertBehind thisMBB inserted layout ↔ id ∈ inserted ∨ id ∈ layout := by
  induction layout with
  | nil => cases laidOut
  | cons first rest induction =>
      unfold insertBehind
      by_cases here : first = thisMBB
      · rw [if_pos here, List.mem_cons, List.mem_append, List.mem_cons]
        exact or_left_comm
      · have behind : thisMBB ∈ rest := by
          rcases List.mem_cons.mp laidOut with same | behind
          · exact absurd same.symm here
          · exact behind
        rw [if_neg here, List.mem_cons, induction behind, List.mem_cons]
        exact or_left_comm

theorem insert_behind_head (inserted : List Id) :
    (insertBehind thisMBB inserted layout).head? = layout.head? := by
  cases layout with
  | nil => rfl
  | cons first rest =>
      unfold insertBehind
      split <;> rfl

theorem insert_behind_next (laidOut : thisMBB ∈ layout) (copy0New : copy0MBB ∉ layout)
    (sinkNew : sinkMBB ∉ layout) (distinct : copy0MBB ≠ sinkMBB) :
    layoutNext (insertBehind thisMBB [copy0MBB, sinkMBB] layout) thisMBB = some copy0MBB ∧
      layoutNext (insertBehind thisMBB [copy0MBB, sinkMBB] layout) copy0MBB = some sinkMBB ∧
      layoutNext (insertBehind thisMBB [copy0MBB, sinkMBB] layout) sinkMBB =
        layoutNext layout thisMBB := by
  induction layout with
  | nil => cases laidOut
  | cons first rest induction =>
      rw [List.mem_cons, not_or] at copy0New sinkNew
      have copy0First := Ne.symm copy0New.1
      have sinkFirst := Ne.symm sinkNew.1
      unfold insertBehind
      by_cases here : first = thisMBB
      · rw [if_pos here]
        simp only [List.cons_append, List.nil_append, layout_next_cons, if_pos here,
          List.head?_cons, if_neg copy0First, if_neg sinkFirst, if_neg distinct, if_true, and_self]
      · have behind : thisMBB ∈ rest := by
          rcases List.mem_cons.mp laidOut with same | behind
          · exact absurd same.symm here
          · exact behind
        rw [if_neg here]
        simp only [layout_next_cons first, if_neg here, if_neg copy0First, if_neg sinkFirst]
        exact induction behind copy0New.2 sinkNew.2

theorem insert_behind_other {id : Id} (other : id ≠ thisMBB) (notCopy0 : id ≠ copy0MBB)
    (notSink : id ≠ sinkMBB) :
    layoutNext (insertBehind thisMBB [copy0MBB, sinkMBB] layout) id = layoutNext layout id := by
  induction layout with
  | nil => rfl
  | cons first rest induction =>
      unfold insertBehind
      by_cases here : first = thisMBB
      · have apart : first ≠ id := fun same => other (same.symm.trans here)
        rw [if_pos here]
        simp only [List.cons_append, List.nil_append, layout_next_cons, if_neg apart,
          if_neg (Ne.symm notCopy0), if_neg (Ne.symm notSink)]
      · rw [if_neg here, layout_next_cons, layout_next_cons, insert_behind_head, induction]

end Layout

section Phis

variable {Id Reg : Type} [DecidableEq Id] {phi : Phi Id Reg} {fromMBB toMBB pred : Id}

theorem lookup_update_other (notFrom : pred ≠ fromMBB) (notTo : pred ≠ toMBB) :
    (phi.update fromMBB toMBB).lookup pred = phi.lookup pred := by
  have unchanged : ∀ operand : Reg × Id,
      ((if operand.2 = fromMBB then toMBB else operand.2) = pred) ↔ operand.2 = pred := by
    intro operand
    split
    case isTrue here =>
      rw [here]
      exact ⟨fun same => absurd same.symm notTo, fun same => absurd same.symm notFrom⟩
    case isFalse => exact Iff.rfl
  rw [Phi.lookup, Phi.lookup, Phi.update, List.find?_map, Option.map_map]
  simp only [Function.comp_def, unchanged]

theorem lookup_update_to (fresh : ∀ operand ∈ phi.incoming, operand.2 ≠ toMBB) :
    (phi.update fromMBB toMBB).lookup toMBB = phi.lookup fromMBB := by
  have replaced : ∀ operand ∈ phi.incoming,
      ((if operand.2 = fromMBB then toMBB else operand.2) = toMBB) ↔ operand.2 = fromMBB := by
    intro operand listed
    split
    case isTrue here => exact ⟨fun _ => here, fun _ => rfl⟩
    case isFalse other =>
      exact ⟨fun same => absurd same (fresh operand listed), fun same => absurd same other⟩
  rw [Phi.lookup, Phi.lookup, Phi.update, List.find?_map, Option.map_map]
  congr 1
  apply List.find?_congr
  intro operand listed
  exact decide_eq_decide.mpr (replaced operand listed)

theorem update_absent (absent : ∀ operand ∈ phi.incoming, operand.2 ≠ fromMBB) :
    phi.update fromMBB toMBB = phi := by
  have unchanged : ∀ operand ∈ phi.incoming,
      (operand.1, if operand.2 = fromMBB then toMBB else operand.2) = operand := by
    intro operand listed
    rw [if_neg (absent operand listed)]
  rw [Phi.update, List.map_congr_left unchanged, List.map_id']

/-- PHIs that find the same operands for two blocks select the same values. -/
theorem phi_values_update {phis : List (Phi Id Reg)} {image : Id} (regs : Reg → Word)
    (operands : ∀ phi ∈ phis, (phi.update fromMBB toMBB).lookup image = phi.lookup pred) :
    phiValues image regs (phis.map fun phi => phi.update fromMBB toMBB) =
      phiValues pred regs phis := by
  induction phis with
  | nil => rfl
  | cons phi rest induction =>
      rw [List.forall_mem_cons] at operands
      rw [List.map_cons, phiValues, phiValues, operands.1, induction operands.2, Phi.update]

end Phis

section Blocks

variable {Id Reg Other Mem : Type} {sem : Semantics Id Reg Other Mem}
  {function : MachineFunction Id Reg Other} {site : Site function} {id : Id}

theorem laid_out_ne_copy0 (laidOut : id ∈ function.layout) : id ≠ site.copy0MBB :=
  fun same => site.copy0_new (same ▸ laidOut)

theorem laid_out_ne_sink (laidOut : id ∈ function.layout) : id ≠ site.sinkMBB :=
  fun same => site.sink_new (same ▸ laidOut)

theorem before_listed {inst : MachineInstr Id Reg Other} (listed : inst ∈ site.before) :
    inst ∈ (function.block site.thisMBB).code := by
  rw [site.code]
  exact List.mem_append_left _ listed

theorem after_listed {inst : MachineInstr Id Reg Other} (listed : inst ∈ site.after) :
    inst ∈ (function.block site.thisMBB).code := by
  rw [site.code]
  exact List.mem_append_right _ (List.mem_cons_of_mem _ listed)

variable [DecidableEq Id]

theorem sink_block : (emitSelectCC site).block site.sinkMBB =
    { phis := [sinkPhi site]
      code := site.after
      succs := (function.block site.thisMBB).succs } :=
  if_pos rfl

theorem copy0_block : (emitSelectCC site).block site.copy0MBB =
    { phis := [], code := [], succs := [site.sinkMBB] } := by
  rw [emitSelectCC]
  simp only [if_neg site.distinct, if_true]

theorem this_block : (emitSelectCC site).block site.thisMBB =
    { phis := updatePHIs function site.thisMBB site.sinkMBB site.thisMBB
      code := site.before ++ [.bnez site.pred site.sinkMBB]
      succs := [site.copy0MBB, site.sinkMBB] } := by
  rw [emitSelectCC]
  simp only [if_neg (laid_out_ne_sink site.laid_out), if_neg (laid_out_ne_copy0 site.laid_out),
    if_true]

theorem other_block (laidOut : id ∈ function.layout) (other : id ≠ site.thisMBB) :
    (emitSelectCC site).block id =
      { function.block id with phis := updatePHIs function site.thisMBB site.sinkMBB id } := by
  rw [emitSelectCC]
  simp only [if_neg (laid_out_ne_sink laidOut), if_neg (laid_out_ne_copy0 laidOut), if_neg other]

theorem phis_updated (laidOut : id ∈ function.layout) :
    ((emitSelectCC site).block id).phis =
      updatePHIs function site.thisMBB site.sinkMBB id := by
  by_cases here : id = site.thisMBB
  · rw [here, this_block]
  · rw [other_block laidOut here]

theorem phis_mapped (wellFormed : WellFormed sem function) (laidOut : id ∈ function.layout) :
    ((emitSelectCC site).block id).phis =
      (function.block id).phis.map fun phi => phi.update site.thisMBB site.sinkMBB := by
  rw [phis_updated laidOut, updatePHIs]
  split
  case isTrue => rfl
  case isFalse noSuccessor =>
    have unchanged : ∀ phi ∈ (function.block id).phis,
        phi.update site.thisMBB site.sinkMBB = phi := by
      intro phi listed
      apply update_absent
      intro operand operandListed here
      have successor := wellFormed.incoming_preds id laidOut phi listed operand operandListed
      rw [here] at successor
      exact noSuccessor successor
    rw [List.map_congr_left unchanged, List.map_id']

variable [DecidableEq Reg]

/-- PHIs select what they did for every block but the one that was split. -/
theorem eval_elsewhere {pred : Id} (wellFormed : WellFormed sem function)
    (laidOut : id ∈ function.layout) (predLaidOut : pred ∈ function.layout)
    (other : pred ≠ site.thisMBB) (state : State Reg Mem) :
    evalPhis ((emitSelectCC site).block id).phis pred state =
      evalPhis (function.block id).phis pred state := by
  have operands : ∀ phi ∈ (function.block id).phis,
      (phi.update site.thisMBB site.sinkMBB).lookup pred = phi.lookup pred :=
    fun phi _ => lookup_update_other other (laid_out_ne_sink predLaidOut)
  rw [phis_mapped wellFormed laidOut, evalPhis, evalPhis, phi_values_update state.regs operands]

/-- PHIs select for the rest of the block what they did for the block. -/
theorem eval_successor (wellFormed : WellFormed sem function) (laidOut : id ∈ function.layout)
    (state : State Reg Mem) :
    evalPhis ((emitSelectCC site).block id).phis site.sinkMBB state =
      evalPhis (function.block id).phis site.thisMBB state := by
  have operands : ∀ phi ∈ (function.block id).phis,
      (phi.update site.thisMBB site.sinkMBB).lookup site.sinkMBB = phi.lookup site.thisMBB := by
    intro phi listed
    apply lookup_update_to
    intro operand operandListed
    exact laid_out_ne_sink
      (wellFormed.incoming_laid_out id laidOut phi listed operand operandListed)
  rw [phis_mapped wellFormed laidOut, evalPhis, evalPhis, phi_values_update state.regs operands]

end Blocks

section Simulation

variable {Id Reg Other Mem : Type} {function : MachineFunction Id Reg Other}

/-- Where the expanded function is while the function is somewhere, in the same state: in the
same block, or past the selection in the block that took over the rest. -/
inductive Related (site : Site function) :
    Config Id Reg Other Mem → Config Id Reg Other Mem → Prop where
  | elsewhere {id : Id} {done rest : List (MachineInstr Id Reg Other)} {state : State Reg Mem}
      (laidOut : id ∈ function.layout) (other : id ≠ site.thisMBB)
      (code : (function.block id).code = done ++ rest) :
      Related site (.running id rest state) (.running id rest state)
  | before {done rest : List (MachineInstr Id Reg Other)} {state : State Reg Mem}
      (code : site.before = done ++ rest) :
      Related site
        (.running site.thisMBB
          (rest ++ .select site.dst site.pred site.trueVal site.falseVal :: site.after) state)
        (.running site.thisMBB (rest ++ [.bnez site.pred site.sinkMBB]) state)
  | after {done rest : List (MachineInstr Id Reg Other)} {state : State Reg Mem}
      (code : site.after = done ++ rest) :
      Related site (.running site.thisMBB rest state) (.running site.sinkMBB rest state)
  | left {state : State Reg Mem} : Related site (.left state) (.left state)

variable [DecidableEq Id]

/-- All instructions but the branch that was added. -/
def visible (site : Site function) (event : Event Id Reg Other Mem) : Bool :=
  match event.1 with
  | .bnez _ target => target ≠ site.sinkMBB
  | _ => true

/-- Steps that write the same events and end alike. -/
def Matched (site : Site function)
    (result image : List (Event Id Reg Other Mem) × Config Id Reg Other Mem) : Prop :=
  image.1 = result.1 ∧ result.1.filter (visible site) = result.1 ∧
    Related site result.2 image.2

variable [DecidableEq Reg] {sem : Semantics Id Reg Other Mem} {site : Site function} {id : Id}
  {state : State Reg Mem}

omit [DecidableEq Reg] in
theorem start_related (laidOut : id ∈ function.layout) :
    Related site (.running id (function.block id).code state)
      (.running id ((emitSelectCC site).block id).code state) := by
  by_cases here : id = site.thisMBB
  · subst here
    rw [site.code, this_block]
    exact Related.before (List.nil_append site.before).symm
  · rw [other_block laidOut here]
    exact Related.elsewhere laidOut here (List.nil_append _).symm

theorem enter_related {pred image : Id} (laidOut : id ∈ function.layout)
    (values : evalPhis ((emitSelectCC site).block id).phis image state =
      evalPhis (function.block id).phis pred state) :
    Option.Rel (Related site) (enter function pred id state)
      (enter (emitSelectCC site) image id state) := by
  rw [enter, enter, values]
  cases evalPhis (function.block id).phis pred state with
  | none => exact Option.Rel.none
  | some next => exact Option.Rel.some (start_related laidOut)

theorem follow_related {block image : Id} {rest imageRest : List (MachineInstr Id Reg Other)}
    {flow : Flow Id}
    (ahead : flow = .next → Related site (.running block rest state)
      (.running image imageRest state))
    (jumps : ∀ target, flow = .goto target → Option.Rel (Related site)
      (enter function block target state) (enter (emitSelectCC site) image target state)) :
    Option.Rel (Related site) (follow function block rest state flow)
      (follow (emitSelectCC site) image imageRest state flow) := by
  cases flow with
  | next => exact Option.Rel.some (ahead rfl)
  | goto target => exact jumps target rfl
  | leave => exact Option.Rel.some Related.left

omit [DecidableEq Reg] in
theorem written_matched {events : List (Event Id Reg Other Mem)}
    {result image : Option (Config Id Reg Other Mem)}
    (shown : events.filter (visible site) = events)
    (related : Option.Rel (Related site) result image) :
    Option.Rel (Matched site) (result.map fun config => (events, config))
      (image.map fun config => (events, config)) := by
  cases related with
  | none => exact Option.Rel.none
  | some related => exact Option.Rel.some ⟨rfl, shown, related⟩

omit [DecidableEq Reg] in
theorem observed_visible (wellFormed : WellFormed sem function) {inst : MachineInstr Id Reg Other}
    (laidOut : id ∈ function.layout) (listed : inst ∈ (function.block id).code) :
    (observed state inst).filter (visible site) = observed state inst := by
  cases inst with
  | select dst pred trueVal falseVal => rfl
  | bnez cond target =>
      have targetLaidOut := wellFormed.targets_laid_out id laidOut _ listed target
        (List.mem_singleton_self target)
      have notSink : target ≠ site.sinkMBB := laid_out_ne_sink targetLaidOut
      exact List.filter_cons_of_pos (decide_eq_true notSink)
  | other inst => rfl

theorem instruction_related (wellFormed : WellFormed sem function) {block image : Id}
    {inst : MachineInstr Id Reg Other} {rest imageRest : List (MachineInstr Id Reg Other)}
    (laidOut : block ∈ function.layout) (listed : inst ∈ (function.block block).code)
    (ahead : ∀ next, execute sem state inst = some (next, .next) →
      Related site (.running block rest next) (.running image imageRest next))
    (jumps : ∀ next target, execute sem state inst = some (next, .goto target) →
      Option.Rel (Related site) (enter function block target next)
        (enter (emitSelectCC site) image target next)) :
    Option.Rel (Matched site) (step sem function (.running block (inst :: rest) state))
      (step sem (emitSelectCC site) (.running image (inst :: imageRest) state)) := by
  rw [step, step]
  cases executed : execute sem state inst with
  | none => exact Option.Rel.none
  | some result =>
      rw [Option.bind_some, Option.bind_some]
      apply written_matched (observed_visible wellFormed laidOut listed)
      apply follow_related
      · intro isNext
        exact ahead result.1 (executed.trans (congrArg some (Prod.ext rfl isNext)))
      · intro target isGoto
        exact jumps result.1 target (executed.trans (congrArg some (Prod.ext rfl isGoto)))

/-- Blocks for which all PHIs select alike are executed alike to their ends. -/
theorem rest_matched (wellFormed : WellFormed sem function) {block image : Id}
    {rest : List (MachineInstr Id Reg Other)} (laidOut : block ∈ function.layout)
    (sameNext : layoutNext (emitSelectCC site).layout image = layoutNext function.layout block)
    (values : ∀ id ∈ function.layout, ∀ state : State Reg Mem,
      evalPhis ((emitSelectCC site).block id).phis image state =
        evalPhis (function.block id).phis block state)
    (listed : ∀ inst ∈ rest, inst ∈ (function.block block).code)
    (ahead : ∀ inst later (next : State Reg Mem), rest = inst :: later →
      Related site (.running block later next) (.running image later next)) :
    Option.Rel (Matched site) (step sem function (.running block rest state))
      (step sem (emitSelectCC site) (.running image rest state)) := by
  cases rest with
  | nil =>
      rw [step, step, sameNext]
      cases known : layoutNext function.layout block with
      | none => exact Option.Rel.none
      | some next =>
          rw [Option.bind_some, Option.bind_some]
          apply written_matched rfl
          have nextLaidOut := layout_next_mem known
          exact enter_related nextLaidOut (values next nextLaidOut state)
  | cons inst later =>
      have here := listed inst List.mem_cons_self
      apply instruction_related wellFormed laidOut here
      · intro next _
        exact ahead inst later next rfl
      · intro next target executed
        have targetLaidOut := wellFormed.targets_laid_out block laidOut inst here target
          (execute_goto executed)
        exact enter_related targetLaidOut (values target targetLaidOut next)

theorem elsewhere_matched (wellFormed : WellFormed sem function)
    {done rest : List (MachineInstr Id Reg Other)} (laidOut : id ∈ function.layout)
    (other : id ≠ site.thisMBB) (code : (function.block id).code = done ++ rest) :
    Option.Rel (Matched site) (step sem function (.running id rest state))
      (step sem (emitSelectCC site) (.running id rest state)) := by
  apply rest_matched wellFormed laidOut
  · exact insert_behind_other other (laid_out_ne_copy0 laidOut) (laid_out_ne_sink laidOut)
  · intro target targetLaidOut next
    exact eval_elsewhere wellFormed targetLaidOut laidOut other next
  · intro inst listed
    rw [code]
    exact List.mem_append_right done listed
  · intro inst later next isRest
    rw [isRest] at code
    exact Related.elsewhere laidOut other (code.trans (List.append_cons done inst later))

/-- No instruction in front of the selection branches, as the selection stands behind it. -/
theorem before_matched (wellFormed : WellFormed sem function)
    {done rest : List (MachineInstr Id Reg Other)} {inst : MachineInstr Id Reg Other}
    (code : site.before = done ++ inst :: rest) :
    Option.Rel (Matched site)
      (step sem function (.running site.thisMBB (inst :: (rest ++
        .select site.dst site.pred site.trueVal site.falseVal :: site.after)) state))
      (step sem (emitSelectCC site) (.running site.thisMBB
        (inst :: (rest ++ [.bnez site.pred site.sinkMBB])) state)) := by
  have inFront : inst ∈ site.before := by
    rw [code]
    exact List.mem_append_right done List.mem_cons_self
  apply instruction_related wellFormed site.laid_out (before_listed inFront)
  · intro next _
    exact Related.before (code.trans (List.append_cons done inst rest))
  · intro next target executed
    have ordered := wellFormed.terminators_last site.thisMBB site.laid_out
    rw [site.code, List.pairwise_append] at ordered
    have selectTerminator := ordered.2.2 inst inFront _ List.mem_cons_self
      (target_terminator (execute_goto executed))
    cases selectTerminator

theorem after_matched (wellFormed : WellFormed sem function)
    {done rest : List (MachineInstr Id Reg Other)} (code : site.after = done ++ rest) :
    Option.Rel (Matched site) (step sem function (.running site.thisMBB rest state))
      (step sem (emitSelectCC site) (.running site.sinkMBB rest state)) := by
  apply rest_matched wellFormed site.laid_out
  · exact (insert_behind_next site.laid_out site.copy0_new site.sink_new site.distinct).2.2
  · intro target targetLaidOut next
    exact eval_successor wellFormed targetLaidOut next
  · intro inst listed
    apply after_listed
    rw [code]
    exact List.mem_append_right done listed
  · intro inst later next isRest
    rw [isRest] at code
    exact Related.after (code.trans (List.append_cons done inst later))

theorem enter_sink {pred : Id} {value : Reg}
    (selects : (sinkPhi site).lookup pred = some value) :
    enter (emitSelectCC site) pred site.sinkMBB state =
      some (.running site.sinkMBB site.after (state.set site.dst (state.regs value))) := by
  rw [enter, sink_block, evalPhis, phiValues, selects]
  rfl

theorem branch_step :
    step sem (emitSelectCC site)
      (.running site.thisMBB [.bnez site.pred site.sinkMBB] state) =
      (follow (emitSelectCC site) site.thisMBB [] state
        (if state.regs site.pred ≠ 0 then .goto site.sinkMBB else .next)).map fun config =>
          ([(.bnez site.pred site.sinkMBB, state)], config) := rfl

theorem taken_run (taken : state.regs site.pred ≠ 0) :
    Runs (step sem (emitSelectCC site))
      (.running site.thisMBB [.bnez site.pred site.sinkMBB] state)
      (.running site.sinkMBB site.after (state.set site.dst (state.regs site.trueVal)))
      [(.bnez site.pred site.sinkMBB, state)] := by
  have selects : (sinkPhi site).lookup site.thisMBB = some site.trueVal := by
    simp [Phi.lookup, sinkPhi]
  apply runs_step
  rw [branch_step, if_pos taken, follow, enter_sink selects, Option.map_some]

/-- The empty block behind the branch leads to the rest of the block as well. -/
theorem fallen_run (fallen : state.regs site.pred = 0) :
    Runs (step sem (emitSelectCC site))
      (.running site.thisMBB [.bnez site.pred site.sinkMBB] state)
      (.running site.sinkMBB site.after (state.set site.dst (state.regs site.falseVal)))
      [(.bnez site.pred site.sinkMBB, state)] := by
  obtain ⟨behindThis, behindCopy0, -⟩ :=
    insert_behind_next site.laid_out site.copy0_new site.sink_new site.distinct
  have passed : step sem (emitSelectCC site)
      (.running site.thisMBB [.bnez site.pred site.sinkMBB] state) =
      some ([(.bnez site.pred site.sinkMBB, state)], .running site.thisMBB [] state) := by
    rw [branch_step, if_neg (not_not_intro fallen), follow, Option.map_some]
  have copied : step sem (emitSelectCC site) (.running site.thisMBB [] state) =
      some ([], .running site.copy0MBB [] state) := by
    have laidBehind : layoutNext (emitSelectCC site).layout site.thisMBB = some site.copy0MBB :=
      behindThis
    rw [step, laidBehind, Option.bind_some, enter, copy0_block]
    rfl
  have selects : (sinkPhi site).lookup site.copy0MBB = some site.falseVal := by
    have notThis : site.thisMBB ≠ site.copy0MBB := laid_out_ne_copy0 site.laid_out
    simp [Phi.lookup, sinkPhi, notThis]
  have sunk : step sem (emitSelectCC site) (.running site.copy0MBB [] state) =
      some ([], .running site.sinkMBB site.after
        (state.set site.dst (state.regs site.falseVal))) := by
    have laidBehind : layoutNext (emitSelectCC site).layout site.copy0MBB = some site.sinkMBB :=
      behindCopy0
    rw [step, laidBehind, Option.bind_some, enter_sink selects, Option.map_some]
  exact runs_trans (runs_step passed) (runs_trans (runs_step copied) (runs_step sunk))

/-- The selection is matched by the branch, and the empty block where it falls through. -/
theorem select_run (sem : Semantics Id Reg Other Mem) (site : Site function)
    (state : State Reg Mem) :
    ∃ log, Runs (step sem (emitSelectCC site))
      (.running site.thisMBB [.bnez site.pred site.sinkMBB] state)
      (.running site.sinkMBB site.after (state.set site.dst
        (if state.regs site.pred ≠ 0 then state.regs site.trueVal
          else state.regs site.falseVal))) log ∧
      log.filter (visible site) = [] := by
  have hidden : [((.bnez site.pred site.sinkMBB, state) : Event Id Reg Other Mem)].filter
      (visible site) = [] :=
    List.filter_cons_of_neg (by rw [visible, decide_eq_true_eq]; exact not_not_intro rfl)
  refine ⟨[(.bnez site.pred site.sinkMBB, state)], ?_, hidden⟩
  split
  case isTrue taken => exact taken_run taken
  case isFalse fallen => exact fallen_run (not_not.mp fallen)

theorem matched_run {config image : Config Id Reg Other Mem}
    (matched : Option.Rel (Matched site) (step sem function config)
      (step sem (emitSelectCC site) image))
    {events : List (Event Id Reg Other Mem)} {next : Config Id Reg Other Mem}
    (stepped : step sem function config = some (events, next)) :
    ∃ final log, Runs (step sem (emitSelectCC site)) image final log ∧
      log.filter (visible site) = events ∧ Related site next final := by
  rw [stepped] at matched
  generalize reached : step sem (emitSelectCC site) image = result at matched
  cases matched with
  | some matched =>
      obtain ⟨sameEvents, shown, related⟩ := matched
      exact ⟨_, _, runs_step reached, sameEvents ▸ shown, related⟩

theorem matched_halted {config image : Config Id Reg Other Mem}
    (matched : Option.Rel (Matched site) (step sem function config)
      (step sem (emitSelectCC site) image))
    (halted : step sem function config = none) : step sem (emitSelectCC site) image = none := by
  rw [halted] at matched
  generalize reached : step sem (emitSelectCC site) image = result at matched
  cases matched with
  | none => rfl

theorem select_simulates (wellFormed : WellFormed sem function) :
    Simulates (step sem function) (step sem (emitSelectCC site)) (visible site)
      (Related site) where
  forward config image events next related stepped := by
    cases related with
    | elsewhere laidOut other code =>
        exact matched_run (elsewhere_matched wellFormed laidOut other code) stepped
    | @before done rest state code =>
        cases rest with
        | nil =>
            cases stepped
            obtain ⟨log, run, hidden⟩ := select_run sem site state
            exact ⟨_, log, run, hidden, Related.after (List.nil_append site.after).symm⟩
        | cons inst rest => exact matched_run (before_matched wellFormed code) stepped
    | after code => exact matched_run (after_matched wellFormed code) stepped
    | left => cases stepped
  halted config image related halted := by
    cases related with
    | elsewhere laidOut other code =>
        exact matched_halted (elsewhere_matched wellFormed laidOut other code) halted
    | @before done rest state code =>
        cases rest with
        | nil => cases halted
        | cons inst rest => exact matched_halted (before_matched wellFormed code) halted
    | after code => exact matched_halted (after_matched wellFormed code) halted
    | left => rfl

/-- From the start of a block the expanded function executes the same instructions in the same
states and comes to the same blocks, and PHIs select what they did. -/
theorem select_expansion_preserves (wellFormed : WellFormed sem function) (site : Site function) :
    (∀ id ∈ function.layout, ∀ (state : State Reg Mem) (final : Config Id Reg Other Mem)
        (events : List (Event Id Reg Other Mem)),
      Runs (step sem function) (.running id (function.block id).code state) final events →
      ∃ reached log,
        Runs (step sem (emitSelectCC site))
          (.running id ((emitSelectCC site).block id).code state) reached log ∧
        log.filter (visible site) = events ∧ Related site final reached ∧
        (step sem function final = none → step sem (emitSelectCC site) reached = none)) ∧
      ∀ id ∈ function.layout, ∀ state : State Reg Mem,
        evalPhis ((emitSelectCC site).block id).phis site.sinkMBB state =
          evalPhis (function.block id).phis site.thisMBB state ∧
        ∀ pred ∈ function.layout, pred ≠ site.thisMBB →
          evalPhis ((emitSelectCC site).block id).phis pred state =
            evalPhis (function.block id).phis pred state := by
  have simulates : Simulates (step sem function) (step sem (emitSelectCC site)) (visible site)
      (Related site) := select_simulates wellFormed
  constructor
  · intro id laidOut state final events run
    obtain ⟨reached, log, imageRun, shown, related⟩ :=
      runs_simulated simulates (start_related laidOut) run
    exact ⟨reached, log, imageRun, shown, related, simulates.halted final reached related⟩
  · intro id laidOut state
    refine ⟨eval_successor wellFormed laidOut state, ?_⟩
    intro pred predLaidOut other
    exact eval_elsewhere wellFormed laidOut predLaidOut other state

/-- A block with one selection that branches to itself. -/
def selfLoop : MachineFunction Nat Nat Empty where
  layout := [0]
  block _ := { phis := [⟨1, [(2, 0)]⟩], code := [.select 2 1 3 4, .bnez 2 0], succs := [0] }

def selfLoopSite : Site selfLoop where
  thisMBB := 0
  copy0MBB := 1
  sinkMBB := 2
  before := []
  after := [.bnez 2 0]
  dst := 2
  pred := 1
  trueVal := 3
  falseVal := 4
  laid_out := List.mem_singleton_self 0
  code := rfl
  copy0_new := by decide
  sink_new := by decide
  distinct := by decide

def noOthers : Semantics Nat Nat Empty Unit where
  exec inst := inst.elim
  isTerminator inst := inst.elim
  targets inst := inst.elim
  goto_target inst := inst.elim
  target_terminator inst := inst.elim

def loopState : State Nat Unit := ⟨fun register => BitVec.ofNat 32 register, ()⟩

theorem self_loop_well_formed : WellFormed noOthers selfLoop := by
  constructor <;> simp [selfLoop, MachineInstr.targets, MachineInstr.isTerminator]

/-- Once around the block, and to its start again. -/
theorem self_loop_expanded :
    ∃ reached log,
      Runs (step noOthers (emitSelectCC selfLoopSite))
        (.running 0 ((emitSelectCC selfLoopSite).block 0).code loopState) reached log ∧
      log.filter (visible selfLoopSite) = [(.bnez 2 0, loopState.set 2 3)] ∧
      Related selfLoopSite
        (.running 0 (selfLoop.block 0).code ((loopState.set 2 3).set 1 3)) reached := by
  have once : Runs (step noOthers selfLoop) (.running 0 (selfLoop.block 0).code loopState)
      (.running 0 (selfLoop.block 0).code ((loopState.set 2 3).set 1 3))
      [(.bnez 2 0, loopState.set 2 3)] := ⟨2, rfl⟩
  have preserved := select_expansion_preserves self_loop_well_formed selfLoopSite
  obtain ⟨reached, log, run, shown, related, -⟩ :=
    preserved.1 0 (List.mem_singleton_self 0) loopState _ _ once
  exact ⟨reached, log, run, shown, related⟩

end Simulation

section WellFormedness

variable {Id Reg Other Mem : Type} [DecidableEq Id] {sem : Semantics Id Reg Other Mem}
  {function : MachineFunction Id Reg Other} {site : Site function} {id : Id}

theorem laid_out_expanded :
    id ∈ (emitSelectCC site).layout ↔
      id = site.copy0MBB ∨ id = site.sinkMBB ∨ id ∈ function.layout := by
  rw [emitSelectCC, insert_behind_mem site.laid_out, List.mem_cons, List.mem_singleton, or_assoc]

theorem still_laid_out (laidOut : id ∈ function.layout) : id ∈ (emitSelectCC site).layout :=
  laid_out_expanded.mpr (Or.inr (Or.inr laidOut))

theorem expanded_targets (wellFormed : WellFormed sem function)
    (laidOut : id ∈ (emitSelectCC site).layout) {inst : MachineInstr Id Reg Other}
    (listed : inst ∈ ((emitSelectCC site).block id).code) {target : Id}
    (goes : target ∈ inst.targets sem) : target ∈ (emitSelectCC site).layout := by
  rcases laid_out_expanded.mp laidOut with rfl | rfl | laidOut
  · rw [copy0_block] at listed
    cases listed
  · rw [sink_block] at listed
    exact still_laid_out (wellFormed.targets_laid_out site.thisMBB site.laid_out inst
      (after_listed listed) target goes)
  · by_cases here : id = site.thisMBB
    · rw [here, this_block, List.mem_append, List.mem_singleton] at listed
      rcases listed with listed | rfl
      · exact still_laid_out (wellFormed.targets_laid_out site.thisMBB site.laid_out inst
          (before_listed listed) target goes)
      · rw [List.mem_singleton.mp goes]
        exact laid_out_expanded.mpr (Or.inr (Or.inl rfl))
    · rw [other_block laidOut here] at listed
      exact still_laid_out (wellFormed.targets_laid_out id laidOut inst listed target goes)

theorem expanded_incoming (wellFormed : WellFormed sem function)
    (laidOut : id ∈ (emitSelectCC site).layout) {phi : Phi Id Reg}
    (listed : phi ∈ ((emitSelectCC site).block id).phis) {operand : Reg × Id}
    (operandListed : operand ∈ phi.incoming) :
    operand.2 ∈ (emitSelectCC site).layout ∧
      id ∈ ((emitSelectCC site).block operand.2).succs := by
  rcases laid_out_expanded.mp laidOut with rfl | rfl | laidOut
  · rw [copy0_block] at listed
    cases listed
  · rw [sink_block, List.mem_singleton] at listed
    rw [listed, sinkPhi, List.mem_cons, List.mem_singleton] at operandListed
    rcases operandListed with rfl | rfl
    · refine ⟨still_laid_out site.laid_out, ?_⟩
      rw [this_block]
      exact List.mem_cons_of_mem _ List.mem_cons_self
    · refine ⟨laid_out_expanded.mpr (Or.inl rfl), ?_⟩
      rw [copy0_block]
      exact List.mem_cons_self
  · rw [phis_mapped wellFormed laidOut, List.mem_map] at listed
    obtain ⟨original, originalListed, rfl⟩ := listed
    rw [Phi.update, List.mem_map] at operandListed
    obtain ⟨old, oldListed, rfl⟩ := operandListed
    have predecessor := wellFormed.incoming_preds id laidOut original originalListed old oldListed
    have oldLaidOut := wellFormed.incoming_laid_out id laidOut original originalListed old oldListed
    by_cases here : old.2 = site.thisMBB
    · rw [here] at predecessor
      rw [if_pos here, sink_block]
      exact ⟨laid_out_expanded.mpr (Or.inr (Or.inl rfl)), predecessor⟩
    · rw [if_neg here, other_block oldLaidOut here]
      exact ⟨still_laid_out oldLaidOut, predecessor⟩

theorem expanded_terminators (wellFormed : WellFormed sem function)
    (laidOut : id ∈ (emitSelectCC site).layout) :
    ((emitSelectCC site).block id).code.Pairwise fun first second =>
      first.isTerminator sem = true → second.isTerminator sem = true := by
  have ordered := wellFormed.terminators_last site.thisMBB site.laid_out
  rw [site.code, List.pairwise_append, List.pairwise_cons] at ordered
  obtain ⟨orderedBefore, ⟨-, orderedAfter⟩, -⟩ := ordered
  rcases laid_out_expanded.mp laidOut with rfl | rfl | laidOut
  · rw [copy0_block]
    exact List.Pairwise.nil
  · rw [sink_block]
    exact orderedAfter
  · by_cases here : id = site.thisMBB
    · rw [here, this_block, List.pairwise_append]
      refine ⟨orderedBefore, List.pairwise_singleton _ _, ?_⟩
      intro first _ second isBranch _
      rw [List.mem_singleton.mp isBranch, MachineInstr.isTerminator]
    · rw [other_block laidOut here]
      exact wellFormed.terminators_last id laidOut

/-- Further selections of the function can be expanded. -/
theorem emit_select_cc_well_formed (wellFormed : WellFormed sem function) (site : Site function) :
    WellFormed sem (emitSelectCC site) where
  targets_laid_out _ laidOut _ listed _ goes := expanded_targets wellFormed laidOut listed goes
  incoming_laid_out _ laidOut _ listed _ operandListed :=
    (expanded_incoming wellFormed laidOut listed operandListed).1
  incoming_preds _ laidOut _ listed _ operandListed :=
    (expanded_incoming wellFormed laidOut listed operandListed).2
  terminators_last _ laidOut := expanded_terminators wellFormed laidOut

end WellFormedness

end NaplesPU.SelectExpansion
