import NaplesPU.SelectExpansion

/-!
The pass that expands the selections of a whole function. It goes through the blocks in
their layout; behind an expansion it goes on at the start of the block that took over the
rest, so that it meets every selection once. Each expansion keeps the function well formed
and is a simulation, and simulations compose.
-/

namespace NaplesPU.ExpandISelPseudos

open StepRuns TraceSimulation SelectExpansion

section Pass

variable {Id Reg Other : Type}

/-- `usesCustomInsertionHook`. -/
def isSelect : MachineInstr Id Reg Other → Bool
  | .select _ _ _ _ => true
  | _ => false

/-- The first selection of a list of instructions, and what stands around it. -/
structure Selection (code : List (MachineInstr Id Reg Other)) where
  before : List (MachineInstr Id Reg Other)
  after : List (MachineInstr Id Reg Other)
  dst : Reg
  pred : Reg
  trueVal : Reg
  falseVal : Reg
  split : code = before ++ .select dst pred trueVal falseVal :: after
  first : ∀ inst ∈ before, isSelect inst = false

def Selection.behind {code : List (MachineInstr Id Reg Other)} (inst : MachineInstr Id Reg Other)
    (other : isSelect inst = false) (selection : Selection code) : Selection (inst :: code) where
  before := inst :: selection.before
  after := selection.after
  dst := selection.dst
  pred := selection.pred
  trueVal := selection.trueVal
  falseVal := selection.falseVal
  split := congrArg (inst :: ·) selection.split
  first := List.forall_mem_cons.mpr ⟨other, selection.first⟩

def findSelection : (code : List (MachineInstr Id Reg Other)) → Option (Selection code)
  | [] => none
  | .select dst pred trueVal falseVal :: rest =>
      some ⟨[], rest, dst, pred, trueVal, falseVal, rfl, List.forall_mem_nil _⟩
  | .bnez cond target :: rest => (findSelection rest).map (Selection.behind (.bnez cond target) rfl)
  | .other inst :: rest => (findSelection rest).map (Selection.behind (.other inst) rfl)

/-- Where new blocks come from: `CreateMachineBasicBlock` gives one that the layout has not. -/
structure BlockSupply (Id : Type) where
  create : List Id → Id
  create_new : ∀ layout, create layout ∉ layout

/-- The function, and the block that the pass is at. -/
structure Pass (Id Reg Other : Type) where
  function : MachineFunction Id Reg Other
  block : Id

variable (supply : BlockSupply Id) {function : MachineFunction Id Reg Other} {id : Id}

def siteOf (laidOut : id ∈ function.layout) (selection : Selection (function.block id).code) :
    Site function where
  thisMBB := id
  copy0MBB := supply.create function.layout
  sinkMBB := supply.create (supply.create function.layout :: function.layout)
  before := selection.before
  after := selection.after
  dst := selection.dst
  pred := selection.pred
  trueVal := selection.trueVal
  falseVal := selection.falseVal
  laid_out := laidOut
  code := selection.split
  copy0_new := supply.create_new function.layout
  sink_new listed :=
    supply.create_new (supply.create function.layout :: function.layout)
      (List.mem_cons_of_mem _ listed)
  distinct same :=
    supply.create_new (supply.create function.layout :: function.layout)
      (List.mem_cons.mpr (Or.inl same.symm))

variable [DecidableEq Id]

/-- The next selection of the block is expanded; behind the last one the next block follows. -/
def expandNext (pass : Pass Id Reg Other) : Option (Pass Id Reg Other) :=
  if laidOut : pass.block ∈ pass.function.layout then
    match findSelection (pass.function.block pass.block).code with
    | some selection =>
        some ⟨emitSelectCC (siteOf supply laidOut selection),
          (siteOf supply laidOut selection).sinkMBB⟩
    | none =>
        (layoutNext pass.function.layout pass.block).map fun next => ⟨pass.function, next⟩
  else none

def selections (function : MachineFunction Id Reg Other) : List Id → Nat
  | [] => 0
  | id :: rest => (function.block id).code.countP isSelect + selections function rest

end Pass

section Search

variable {Id Reg Other : Type} {code : List (MachineInstr Id Reg Other)}

theorem find_selection_none (missed : findSelection code = none) :
    ∀ inst ∈ code, isSelect inst = false := by
  induction code with
  | nil => exact List.forall_mem_nil _
  | cons inst rest induction =>
      cases inst with
      | select dst pred trueVal falseVal => cases missed
      | bnez cond target =>
          rw [findSelection, Option.map_eq_none_iff] at missed
          exact List.forall_mem_cons.mpr ⟨rfl, induction missed⟩
      | other inst =>
          rw [findSelection, Option.map_eq_none_iff] at missed
          exact List.forall_mem_cons.mpr ⟨rfl, induction missed⟩

theorem count_select_zero (none : ∀ inst ∈ code, isSelect inst = false) :
    code.countP isSelect = 0 :=
  List.countP_eq_zero.mpr fun inst listed => Bool.eq_false_iff.mp (none inst listed)

theorem Selection.count (selection : Selection code) :
    code.countP isSelect = selection.after.countP isSelect + 1 := by
  have counted := congrArg (List.countP isSelect) selection.split
  rw [List.countP_append, count_select_zero selection.first, List.countP_cons_of_pos rfl,
    Nat.zero_add] at counted
  exact counted

variable {function : MachineFunction Id Reg Other} {ids : List Id}

theorem selections_congr {image : MachineFunction Id Reg Other}
    (same : ∀ id ∈ ids, (image.block id).code = (function.block id).code) :
    selections image ids = selections function ids := by
  induction ids with
  | nil => rfl
  | cons id ids induction =>
      rw [List.forall_mem_cons] at same
      rw [selections, selections, same.1, induction same.2]

theorem selections_append (function : MachineFunction Id Reg Other) (first second : List Id) :
    selections function (first ++ second) =
      selections function first + selections function second := by
  induction first with
  | nil => rw [List.nil_append, selections, Nat.zero_add]
  | cons id first induction =>
      rw [List.cons_append, selections, selections, induction, Nat.add_assoc]

theorem selections_zero
    (none : ∀ id ∈ ids, ∀ inst ∈ (function.block id).code, isSelect inst = false) :
    selections function ids = 0 := by
  induction ids with
  | nil => rfl
  | cons id ids induction =>
      rw [List.forall_mem_cons] at none
      rw [selections, count_select_zero none.1, induction none.2]

end Search

section Layout

variable {Id : Type} [DecidableEq Id] {done rest inserted : List Id} {block : Id}

theorem layout_next_append (new : block ∉ done) :
    layoutNext (done ++ block :: rest) block = rest.head? := by
  induction done with
  | nil => rw [List.nil_append, layout_next_cons, if_pos rfl]
  | cons first done induction =>
      rw [List.mem_cons, not_or] at new
      rw [List.cons_append, layout_next_cons, if_neg (Ne.symm new.1), induction new.2]

theorem insert_behind_append (new : block ∉ done) :
    insertBehind block inserted (done ++ block :: rest) = done ++ block :: (inserted ++ rest) := by
  induction done with
  | nil => rw [List.nil_append, insertBehind, if_pos rfl, List.nil_append]
  | cons first done induction =>
      rw [List.mem_cons, not_or] at new
      rw [List.cons_append, insertBehind, if_neg (Ne.symm new.1), induction new.2, List.cons_append]

omit [DecidableEq Id] in
theorem nodup_insert {first second : Id} (nodup : (done ++ rest).Nodup)
    (firstNew : first ∉ done ++ rest) (secondNew : second ∉ done ++ rest)
    (distinct : first ≠ second) : (done ++ first :: second :: rest).Nodup := by
  rw [List.nodup_middle, List.nodup_cons, List.nodup_middle, List.nodup_cons]
  refine ⟨?_, secondNew, nodup⟩
  rw [List.mem_append, List.mem_cons, or_left_comm, ← List.mem_append, not_or]
  exact ⟨distinct, firstNew⟩

end Layout

section Located

variable {Id Reg Other Mem : Type} [DecidableEq Id] [DecidableEq Reg]
  {sem : Semantics Id Reg Other Mem} {function : MachineFunction Id Reg Other}

/-- What is executed is a part of a block. -/
inductive Located (function : MachineFunction Id Reg Other) : Config Id Reg Other Mem → Prop where
  | running {id : Id} {done rest : List (MachineInstr Id Reg Other)} {state : State Reg Mem}
      (laidOut : id ∈ function.layout) (code : (function.block id).code = done ++ rest) :
      Located function (.running id rest state)
  | left {state : State Reg Mem} : Located function (.left state)

/-- All instructions but the branches to blocks that the function has not. -/
def isOriginal (function : MachineFunction Id Reg Other) (event : Event Id Reg Other Mem) : Bool :=
  match event.1 with
  | .bnez _ target => target ∈ function.layout
  | _ => true

omit [DecidableEq Id] [DecidableEq Reg] in
theorem located_start {id : Id} (laidOut : id ∈ function.layout) (state : State Reg Mem) :
    Located function (.running id (function.block id).code state) :=
  Located.running laidOut (List.nil_append _).symm

theorem located_enter {pred target : Id} {state : State Reg Mem} {config : Config Id Reg Other Mem}
    (laidOut : target ∈ function.layout)
    (entered : enter function pred target state = some config) :
    Located function config := by
  rw [enter, Option.map_eq_some_iff] at entered
  obtain ⟨next, -, rfl⟩ := entered
  exact located_start laidOut next

omit [DecidableEq Reg] in
theorem observed_original {inst : MachineInstr Id Reg Other} (state : State Reg Mem)
    (targets : ∀ target ∈ inst.targets sem, target ∈ function.layout) :
    (observed state inst).filter (isOriginal function) = observed state inst := by
  cases inst with
  | select dst pred trueVal falseVal => rfl
  | bnez cond target =>
      have laidOut := targets target (List.mem_singleton_self target)
      exact List.filter_cons_of_pos (decide_eq_true laidOut)
  | other inst => rfl

theorem located_step (wellFormed : WellFormed sem function) {config next : Config Id Reg Other Mem}
    {events : List (Event Id Reg Other Mem)} (located : Located function config)
    (stepped : step sem function config = some (events, next)) :
    events.filter (isOriginal function) = events ∧ Located function next := by
  cases located with
  | left => cases stepped
  | @running id done rest state laidOut code =>
      cases rest with
      | nil =>
          rw [step, Option.bind_eq_some_iff] at stepped
          obtain ⟨behind, known, stepped⟩ := stepped
          rw [Option.map_eq_some_iff] at stepped
          obtain ⟨config, entered, same⟩ := stepped
          cases same
          exact ⟨rfl, located_enter (layout_next_mem known) entered⟩
      | cons inst rest =>
          have listed : inst ∈ (function.block id).code := by
            rw [code]
            exact List.mem_append_right done List.mem_cons_self
          have targets := wellFormed.targets_laid_out id laidOut inst listed
          rw [step, Option.bind_eq_some_iff] at stepped
          obtain ⟨⟨after, flow⟩, executed, stepped⟩ := stepped
          rw [Option.map_eq_some_iff] at stepped
          obtain ⟨config, followed, same⟩ := stepped
          cases same
          refine ⟨observed_original state targets, ?_⟩
          cases flow with
          | next =>
              cases followed
              exact Located.running laidOut (code.trans (List.append_cons done inst rest))
          | goto target => exact located_enter (targets target (execute_goto executed)) followed
          | leave =>
              cases followed
              exact Located.left

theorem self_simulates (wellFormed : WellFormed sem function) :
    Simulates (step sem function) (step sem function) (isOriginal function)
      fun config image => Located function config ∧ image = config where
  forward config image events next related stepped := by
    obtain ⟨located, rfl⟩ := related
    obtain ⟨shown, locatedNext⟩ := located_step wellFormed located stepped
    exact ⟨next, events, runs_step stepped, shown, locatedNext, rfl⟩
  halted config image related halted := by
    obtain ⟨-, rfl⟩ := related
    exact halted

end Located

section Invariant

variable {Id Reg Other Mem : Type} [DecidableEq Id] [DecidableEq Reg]
  {sem : Semantics Id Reg Other Mem} {original : MachineFunction Id Reg Other}
  {supply : BlockSupply Id} {pass : Pass Id Reg Other} {done rest : List Id}

/-- The state of a configuration, and whether the function was left in it. -/
def outcome : Config Id Reg Other Mem → State Reg Mem × Bool
  | .running _ _ state => (state, false)
  | .left state => (state, true)

/-- A function that does what another does: from the starts of its blocks, in the same states. -/
def Implements (sem : Semantics Id Reg Other Mem) (original image : MachineFunction Id Reg Other) :
    Prop :=
  ∃ Related : Config Id Reg Other Mem → Config Id Reg Other Mem → Prop,
    Simulates (step sem original) (step sem image) (isOriginal original) Related ∧
    (∀ id ∈ original.layout, ∀ state, Related (.running id (original.block id).code state)
      (.running id (image.block id).code state)) ∧
    ∀ config reached, Related config reached → outcome reached = outcome config

/-- What the pass is at: some blocks have no selections any more, and each of those that are
left will add two blocks. -/
structure Expanding (sem : Semantics Id Reg Other Mem) (original : MachineFunction Id Reg Other)
    (pass : Pass Id Reg Other) (done rest : List Id) : Prop where
  well_formed : WellFormed sem pass.function
  nodup : pass.function.layout.Nodup
  head : pass.function.layout.head? = original.layout.head?
  layout : pass.function.layout = done ++ pass.block :: rest
  expanded : ∀ id ∈ done, ∀ inst ∈ (pass.function.block id).code, isSelect inst = false
  order : pass.function.layout.filter (· ∈ original.layout) = original.layout
  length : pass.function.layout.length + 2 * selections pass.function (pass.block :: rest) =
    original.layout.length + 2 * selections original original.layout
  implements : Implements sem original pass.function

omit [DecidableEq Id] [DecidableEq Reg] in
theorem related_outcome {function : MachineFunction Id Reg Other} {site : Site function}
    {config reached : Config Id Reg Other Mem} (related : Related site config reached) :
    outcome reached = outcome config := by
  cases related <;> rfl

theorem implements_self (wellFormed : WellFormed sem original) :
    Implements sem original original :=
  ⟨_, self_simulates wellFormed, fun _ laidOut state => ⟨located_start laidOut state, rfl⟩,
    fun _ _ related => congrArg outcome related.2⟩

/-- The branch that an expansion adds goes to a block that the function has not. -/
theorem implements_expanded {function : MachineFunction Id Reg Other}
    (wellFormed : WellFormed sem function) (kept : ∀ id ∈ original.layout, id ∈ function.layout)
    (implements : Implements sem original function) (site : Site function) :
    Implements sem original (emitSelectCC site) := by
  obtain ⟨First, simulates, starts, same⟩ := implements
  have finer (event : Event Id Reg Other Mem) (seen : isOriginal original event = true) :
      visible site event = true := by
    obtain ⟨inst, state⟩ := event
    cases inst with
    | select dst pred trueVal falseVal => rfl
    | bnez cond target =>
        have laidOut := kept target (of_decide_eq_true seen)
        exact decide_eq_true (laid_out_ne_sink laidOut)
    | other inst => rfl
  have expands : Simulates (step sem function) (step sem (emitSelectCC site)) (visible site)
      (Related site) := select_simulates wellFormed
  refine ⟨_, simulates.trans expands finer, ?_, ?_⟩
  · intro id laidOut state
    exact ⟨_, starts id laidOut state, start_related (kept id laidOut)⟩
  · rintro config reached ⟨between, first, second⟩
    exact (related_outcome second).trans (same config between first)

theorem Expanding.kept (expanding : Expanding sem original pass done rest) :
    ∀ id ∈ original.layout, id ∈ pass.function.layout := by
  intro id laidOut
  rw [← expanding.order] at laidOut
  exact List.mem_of_mem_filter laidOut

omit [DecidableEq Reg] in
theorem selections_expanded (laidOut : pass.block ∈ pass.function.layout)
    (selection : Selection (pass.function.block pass.block).code) (notRest : pass.block ∉ rest)
    (laidOutRest : ∀ id ∈ rest, id ∈ pass.function.layout) :
    selections pass.function (pass.block :: rest) =
      selections (emitSelectCC (siteOf supply laidOut selection))
        ((siteOf supply laidOut selection).sinkMBB :: rest) + 1 := by
  have codeRest : ∀ id ∈ rest, ((emitSelectCC (siteOf supply laidOut selection)).block id).code =
      (pass.function.block id).code := by
    intro id listed
    have other : id ≠ pass.block := fun same => notRest (same ▸ listed)
    rw [other_block (laidOutRest id listed) other]
  rw [selections, selections, sink_block, selections_congr codeRest, selection.count,
    Nat.add_right_comm]
  rfl

theorem expanding_expand (expanding : Expanding sem original pass done rest)
    (laidOut : pass.block ∈ pass.function.layout)
    (selection : Selection (pass.function.block pass.block).code) :
    Expanding sem original
      ⟨emitSelectCC (siteOf supply laidOut selection), (siteOf supply laidOut selection).sinkMBB⟩
      (done ++ [pass.block, (siteOf supply laidOut selection).copy0MBB]) rest := by
  generalize isSite : siteOf supply laidOut selection = site
  have atBlock : site.thisMBB = pass.block := by rw [← isSite]; rfl
  have isBefore : site.before = selection.before := by rw [← isSite]; rfl
  have isAfter : site.after = selection.after := by rw [← isSite]; rfl
  have nodup := expanding.nodup
  rw [expanding.layout, List.nodup_append, List.nodup_cons] at nodup
  obtain ⟨-, ⟨notRest, -⟩, apart⟩ := nodup
  have notDone : pass.block ∉ done := fun listed =>
    apart pass.block listed pass.block List.mem_cons_self rfl
  have laidOutDone (id : Id) (listed : id ∈ done) : id ∈ pass.function.layout := by
    rw [expanding.layout]
    exact List.mem_append_left _ listed
  have laidOutRest (id : Id) (listed : id ∈ rest) : id ∈ pass.function.layout := by
    rw [expanding.layout]
    exact List.mem_append_right _ (List.mem_cons_of_mem _ listed)
  have layout : (emitSelectCC site).layout =
      done ++ pass.block :: site.copy0MBB :: site.sinkMBB :: rest := by
    have inserted : (emitSelectCC site).layout =
        insertBehind pass.block [site.copy0MBB, site.sinkMBB] (done ++ pass.block :: rest) := by
      rw [← expanding.layout, ← atBlock]
      rfl
    exact inserted.trans (insert_behind_append notDone)
  have codeDone (id : Id) (listed : id ∈ done) :
      ((emitSelectCC site).block id).code = (pass.function.block id).code := by
    have other : id ≠ site.thisMBB := fun same => notDone (atBlock ▸ same ▸ listed)
    rw [other_block (laidOutDone id listed) other]
  have copy0Original : site.copy0MBB ∉ original.layout := fun listed =>
    site.copy0_new (expanding.kept site.copy0MBB listed)
  have sinkOriginal : site.sinkMBB ∉ original.layout := fun listed =>
    site.sink_new (expanding.kept site.sinkMBB listed)
  refine ⟨emit_select_cc_well_formed expanding.well_formed site, ?_, ?_, ?_, ?_, ?_, ?_, ?_⟩
  · have copy0New := site.copy0_new
    have sinkNew := site.sink_new
    have before := expanding.nodup
    rw [expanding.layout, List.append_cons] at copy0New sinkNew before
    rw [layout, List.append_cons]
    exact nodup_insert before copy0New sinkNew site.distinct
  · exact (insert_behind_head _).trans expanding.head
  · rw [layout, List.append_assoc]
    rfl
  · intro id listed inst instListed
    rw [List.mem_append, List.mem_cons, List.mem_singleton] at listed
    rcases listed with listed | rfl | rfl
    · rw [codeDone id listed] at instListed
      exact expanding.expanded id listed inst instListed
    · rw [← atBlock, this_block, isBefore, List.mem_append, List.mem_singleton] at instListed
      rcases instListed with instListed | rfl
      · exact selection.first inst instListed
      · rfl
    · rw [copy0_block] at instListed
      cases instListed
  · have before := expanding.order
    rw [expanding.layout, List.append_cons, List.filter_append] at before
    rw [layout, List.append_cons, List.filter_append,
      List.filter_cons_of_neg (by rw [decide_eq_true_eq]; exact copy0Original),
      List.filter_cons_of_neg (by rw [decide_eq_true_eq]; exact sinkOriginal), before]
  · have before := expanding.length
    have counted : selections pass.function (pass.block :: rest) =
        selections (emitSelectCC site) (site.sinkMBB :: rest) + 1 := by
      rw [← isSite]
      exact selections_expanded laidOut selection notRest laidOutRest
    rw [counted, expanding.layout] at before
    rw [layout]
    simp only [List.length_append, List.length_cons] at before ⊢
    omega
  · exact implements_expanded expanding.well_formed expanding.kept expanding.implements site

theorem expanding_next {next : Id} (expanding : Expanding sem original pass done (next :: rest))
    (missed : findSelection (pass.function.block pass.block).code = none) :
    Expanding sem original ⟨pass.function, next⟩ (done ++ [pass.block]) rest where
  well_formed := expanding.well_formed
  nodup := expanding.nodup
  head := expanding.head
  layout := by
    rw [expanding.layout, List.append_cons]
  expanded := by
    intro id listed
    rw [List.mem_append, List.mem_singleton] at listed
    rcases listed with listed | rfl
    · exact expanding.expanded id listed
    · exact find_selection_none missed
  order := expanding.order
  length := by
    have before := expanding.length
    rw [selections, count_select_zero (find_selection_none missed), Nat.zero_add] at before
    exact before
  implements := expanding.implements

/-- What the pass has left to do. -/
def remaining (pass : Pass Id Reg Other) (rest : List Id) : Nat :=
  selections pass.function (pass.block :: rest) + rest.length

/-- A step does a part of what is left, and without a step there is nothing left. -/
theorem expand_next_cases (supply : BlockSupply Id)
    (expanding : Expanding sem original pass done rest) :
    (expandNext supply pass = none ∧ remaining pass rest = 0) ∨
      ∃ next done' rest', expandNext supply pass = some next ∧
        Expanding sem original next done' rest' ∧
        remaining pass rest = remaining next rest' + 1 := by
  have laidOut : pass.block ∈ pass.function.layout := by
    rw [expanding.layout]
    exact List.mem_append_right _ List.mem_cons_self
  have nodup := expanding.nodup
  rw [expanding.layout, List.nodup_append, List.nodup_cons] at nodup
  obtain ⟨-, ⟨notRest, -⟩, apart⟩ := nodup
  have notDone : pass.block ∉ done := fun listed =>
    apart pass.block listed pass.block List.mem_cons_self rfl
  rw [expandNext, dif_pos laidOut]
  cases found : findSelection (pass.function.block pass.block).code with
  | some selection =>
      refine Or.inr ⟨_, _, _, rfl, expanding_expand expanding laidOut selection, ?_⟩
      have laidOutRest : ∀ id ∈ rest, id ∈ pass.function.layout := by
        intro id listed
        rw [expanding.layout]
        exact List.mem_append_right _ (List.mem_cons_of_mem _ listed)
      rw [remaining, selections_expanded laidOut selection notRest laidOutRest,
        Nat.add_right_comm]
      rfl
  | none =>
      have none := count_select_zero (find_selection_none found)
      rw [expanding.layout, layout_next_append notDone]
      cases rest with
      | nil => exact Or.inl ⟨rfl, by rw [remaining, selections, none]; rfl⟩
      | cons next rest =>
          refine Or.inr ⟨_, _, _, rfl, expanding_next expanding found, ?_⟩
          rw [remaining, selections, none, Nat.zero_add]
          rfl

theorem expand_all (supply : BlockSupply Id)
    (expanding : Expanding sem original pass done rest) :
    ∃ final done', iterate (expandNext supply) (remaining pass rest) pass = some final ∧
      expandNext supply final = none ∧ Expanding sem original final done' [] ∧
      remaining final [] = 0 := by
  induction left : remaining pass rest generalizing pass done rest with
  | zero =>
      rcases expand_next_cases supply expanding with ⟨halted, -⟩ | ⟨_, _, _, -, -, more⟩
      · have noRest : rest = [] :=
          List.eq_nil_of_length_eq_zero (Nat.eq_zero_of_add_eq_zero_left left)
        subst noRest
        exact ⟨pass, done, rfl, halted, expanding, left⟩
      · rw [left] at more
        cases more
  | succ count induction =>
      rcases expand_next_cases supply expanding with
        ⟨-, nothing⟩ | ⟨next, done', rest', stepped, expandingNext, more⟩
      · rw [left] at nothing
        cases nothing
      · rw [left, Nat.succ_inj] at more
        obtain ⟨final, finalDone, run, halted, finished, nothing⟩ :=
          induction expandingNext more.symm
        refine ⟨final, finalDone, ?_, halted, finished, nothing⟩
        rw [iterate, stepped, Option.bind_some, run]

theorem implements_runs {image : MachineFunction Id Reg Other}
    (implements : Implements sem original image) {id : Id} (laidOut : id ∈ original.layout)
    {state : State Reg Mem} {config : Config Id Reg Other Mem}
    {events : List (Event Id Reg Other Mem)}
    (run : Runs (step sem original) (.running id (original.block id).code state) config events) :
    ∃ reached log,
      Runs (step sem image) (.running id (image.block id).code state) reached log ∧
      log.filter (isOriginal original) = events ∧ outcome reached = outcome config ∧
      (step sem original config = none → step sem image reached = none) := by
  obtain ⟨_, simulates, starts, same⟩ := implements
  obtain ⟨reached, log, imageRun, shown, related⟩ :=
    runs_simulated simulates (starts id laidOut state) run
  exact ⟨reached, log, imageRun, shown, same config reached related,
    simulates.halted config reached related⟩

theorem expanding_start {entry : Id} (wellFormed : WellFormed sem original)
    (nodup : original.layout.Nodup) (begins : original.layout = entry :: rest) :
    Expanding sem original ⟨original, entry⟩ [] rest where
  well_formed := wellFormed
  nodup := nodup
  head := rfl
  layout := begins
  expanded := List.forall_mem_nil _
  order := List.filter_eq_self.mpr fun _ listed => decide_eq_true listed
  length := by rw [begins]
  implements := implements_self wellFormed

/-- The pass ends, and expands every selection into two more blocks. The function stays well
formed, its blocks keep their order, and every run from the start of one executes the same
instructions in the same states, ends in the same state and halts where it did. -/
theorem expand_isel_pseudos (supply : BlockSupply Id) {entry : Id}
    (wellFormed : WellFormed sem original) (nodup : original.layout.Nodup)
    (begins : original.layout = entry :: rest) :
    ∃ final : Pass Id Reg Other,
      iterate (expandNext supply) (selections original original.layout + rest.length)
        ⟨original, entry⟩ = some final ∧
      expandNext supply final = none ∧
      WellFormed sem final.function ∧
      selections final.function final.function.layout = 0 ∧
      final.function.layout.Nodup ∧
      final.function.layout.head? = some entry ∧
      final.function.layout.filter (· ∈ original.layout) = original.layout ∧
      final.function.layout.length =
        original.layout.length + 2 * selections original original.layout ∧
      ∀ id ∈ original.layout, ∀ (state : State Reg Mem) (config : Config Id Reg Other Mem)
          (events : List (Event Id Reg Other Mem)),
        Runs (step sem original) (.running id (original.block id).code state) config events →
        ∃ reached log,
          Runs (step sem final.function) (.running id (final.function.block id).code state)
            reached log ∧
          log.filter (isOriginal original) = events ∧ outcome reached = outcome config ∧
          (step sem original config = none → step sem final.function reached = none) := by
  obtain ⟨final, done, run, halted, finished, nothing⟩ :=
    expand_all supply (expanding_start wellFormed nodup begins)
  have noneLeft : selections final.function [final.block] = 0 := nothing
  have length := finished.length
  rw [noneLeft, Nat.mul_zero, Nat.add_zero] at length
  refine ⟨final, ?_, halted, finished.well_formed, ?_, finished.nodup, ?_, finished.order, length,
    ?_⟩
  · rw [begins]
    exact run
  · rw [finished.layout, selections_append, noneLeft, selections_zero finished.expanded]
  · rw [finished.head, begins, List.head?_cons]
  · intro id laidOut state config events sourceRun
    exact implements_runs finished.implements laidOut sourceRun

/-- Blocks numbered behind all of the layout. -/
def numbered : BlockSupply Nat where
  create layout := layout.foldr (fun id most => max (id + 1) most) 0
  create_new layout listed := by
    have below : ∀ ids : List Nat, ∀ id ∈ ids,
        id < ids.foldr (fun id most => max (id + 1) most) 0 := by
      intro ids
      induction ids with
      | nil => exact List.forall_mem_nil _
      | cons first ids induction =>
          rw [List.forall_mem_cons, List.foldr_cons]
          refine ⟨Nat.lt_of_lt_of_le (Nat.lt_succ_self first) (Nat.le_max_left _ _), ?_⟩
          intro id listed
          exact Nat.lt_of_lt_of_le (induction id listed) (Nat.le_max_right _ _)
    exact Nat.lt_irrefl _ (below layout _ listed)

/-- A block that branches to itself becomes three, and goes around as before. -/
theorem self_loop_expanded_whole :
    ∃ final : Pass Nat Nat Empty,
      iterate (expandNext numbered) 1 ⟨selfLoop, 0⟩ = some final ∧
      expandNext numbered final = none ∧ final.function.layout.length = 3 ∧
      ∃ reached log,
        Runs (step noOthers final.function)
          (.running 0 (final.function.block 0).code loopState) reached log ∧
        log.filter (isOriginal selfLoop) = [(.bnez 2 0, loopState.set 2 3)] ∧
        outcome reached = ((loopState.set 2 3).set 1 3, false) := by
  have once : Runs (step noOthers selfLoop) (.running 0 (selfLoop.block 0).code loopState)
      (.running 0 (selfLoop.block 0).code ((loopState.set 2 3).set 1 3))
      [(.bnez 2 0, loopState.set 2 3)] := ⟨2, rfl⟩
  obtain ⟨final, run, halted, -, -, -, -, -, length, runs⟩ :=
    expand_isel_pseudos numbered self_loop_well_formed (List.nodup_singleton 0) rfl
  obtain ⟨reached, log, imageRun, shown, same, -⟩ :=
    runs 0 (List.mem_singleton_self 0) loopState _ _ once
  exact ⟨final, run, halted, length, reached, log, imageRun, shown, same⟩

end Invariant

end NaplesPU.ExpandISelPseudos
