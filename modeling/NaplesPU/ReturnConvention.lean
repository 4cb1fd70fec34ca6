import NaplesPU.CallingConv
import Mathlib.Tactic.IntervalCases

/-!
The return of values: the rule table `RetCC_NaplesPU32` over the legal types,
the copies that `LowerReturn` emits for it and those with which `LowerCall`
reads the results. The table has registers only, and the hook that would demote
a return with too many values to memory is the one of the base class.
-/

namespace NaplesPU.ReturnConvention

open RegisterInfo CallingConv

def retCCNaplesPU32 : List CCRule :=
  [⟨false, [.i32, .f32], .assignToReg [sReg 0, sReg 1, sReg 2, sReg 3, sReg 4, sReg 5]⟩,
    ⟨false, [.v16i32, .v16f32],
      .assignToReg [vReg 0, vReg 1, vReg 2, vReg 3, vReg 4, vReg 5]⟩]

def assignReturn (valVT : ArgVT) (state : CCState) : Option (Loc × CCState) :=
  retCCNaplesPU32.findSome? fun rule => rule.apply valVT state

/-- `AnalyzeReturn` and `AnalyzeCallResult`. A value without a location is unreachable. -/
def analyzeReturnFrom (state : CCState) : List ArgVT → Option (List CCValAssign)
  | [] => some []
  | valVT :: rest =>
      (assignReturn valVT state).bind fun first =>
        (analyzeReturnFrom first.2 rest).map fun others => ⟨valVT, first.1⟩ :: others

def analyzeReturn (isVarArg : Bool) (outs : List ArgVT) : Option (List CCValAssign) :=
  analyzeReturnFrom ⟨isVarArg, [], 0⟩ outs

/-- `getLocReg`, which asserts that the location is a register. -/
def getLocReg (va : CCValAssign) : Option Register :=
  match va.loc with
  | .reg register => some register
  | .mem _ => none

/-- What a function returns. One with a structure argument for its result returns nothing
else, as the verifier asserts. -/
structure Signature where
  isVarArg : Bool
  hasStructRetAttr : Bool
  outs : List ArgVT
  void : hasStructRetAttr = true → outs = []

/-- The hook of the base class, which the target does not override: if it were false, the
return would be demoted to memory. -/
def CanLowerReturn (_ : Signature) : Bool := true

/-- A value that a return copies: the k-th of its values, or the address of its structure. -/
inductive Returned where
  | value (index : Nat)
  | sretReturnReg
deriving DecidableEq, Repr

structure ReturnCopy where
  register : Register
  source : Returned
deriving DecidableEq, Repr

def LowerReturn (signature : Signature) : Option (List ReturnCopy) :=
  (analyzeReturn signature.isVarArg signature.outs).bind fun rvLocs =>
    (rvLocs.mapM getLocReg).map fun registers =>
      (registers.zipIdx.map fun (register, index) => ReturnCopy.mk register (.value index)) ++
        if signature.hasStructRetAttr then [⟨sReg 0, .sretReturnReg⟩] else []

/-- The registers from which `LowerCall` copies the results, in their order. -/
def callResults (isVarArg : Bool) (ins : List ArgVT) : Option (List Register) :=
  (analyzeReturn isVarArg ins).bind fun rvLocs => rvLocs.mapM getLocReg

/-- Every value has a register of its own, into which the callee copies it and from which
the caller copies it; or the return is demoted. The caller may take the function for one with
variable arguments when it is not, or the other way round. -/
def HasPlace (signature : Signature) (callerIsVarArg : Bool) : Prop :=
  CanLowerReturn signature = false ∨
    ∃ (copies : List ReturnCopy) (results : List Register),
      LowerReturn signature = some copies ∧
      callResults callerIsVarArg signature.outs = some results ∧
      results.length = signature.outs.length ∧
      (∀ index register, results[index]? = some register →
        copies[index]? = some (ReturnCopy.mk register (.value index))) ∧
      (copies.map ReturnCopy.register).Nodup

section Assignment

def classCount (cls : RegClass) (outs : List ArgVT) : Nat := outs.countP fun valVT => valVT.cls = cls

/-- The registers that are used are the first of each class. -/
def UsedUpTo (counts : RegClass → Nat) (state : CCState) : Prop :=
  ∀ register, register ∈ state.usedRegs ↔ register.encoding.val < counts register.cls

variable {counts : RegClass → Nat} {state : CCState} {valVT : ArgVT}

def returnRegs (cls : RegClass) : List Register :=
  [⟨cls, 0⟩, ⟨cls, 1⟩, ⟨cls, 2⟩, ⟨cls, 3⟩, ⟨cls, 4⟩, ⟨cls, 5⟩]

theorem assign_return_eq (valVT : ArgVT) (state : CCState) :
    assignReturn valVT state =
      (state.allocateReg (returnRegs valVT.cls)).map fun next => (.reg next.1, next.2) := by
  rw [assignReturn, retCCNaplesPU32]
  cases valVT with
  | i32 | f32 =>
      cases allocated : state.allocateReg (returnRegs .GPR32) with
      | none => simp_all [CCRule.apply, returnRegs, sReg, ArgVT.cls]
      | some next => simp_all [CCRule.apply, returnRegs, sReg, ArgVT.cls]
  | v16i32 | v16f32 =>
      cases allocated : state.allocateReg (returnRegs .VR512W) with
      | none => simp_all [CCRule.apply, returnRegs, vReg, ArgVT.cls]
      | some next => simp_all [CCRule.apply, returnRegs, vReg, ArgVT.cls]

/-- The registers of a class are handed out in their order. -/
theorem first_free_register (used : UsedUpTo counts state) {cls : RegClass}
    (small : counts cls < 6) :
    (returnRegs cls).find? (fun register => register ∉ state.usedRegs) =
      some ⟨cls, Fin.ofNat 64 (counts cls)⟩ := by
  have taken (encoding : Fin 64) : ⟨cls, encoding⟩ ∈ state.usedRegs ↔
      encoding.val < counts cls := used ⟨cls, encoding⟩
  generalize counts cls = count at taken small
  interval_cases count <;> simp [returnRegs, taken]
  rfl

theorem return_regs_low (cls : RegClass) :
    ∀ register ∈ returnRegs cls, register.cls = cls ∧ register.encoding.val < 6 := by
  cases cls <;> decide

theorem no_free_register (used : UsedUpTo counts state) {cls : RegClass}
    (full : 6 ≤ counts cls) :
    (returnRegs cls).find? (fun register => register ∉ state.usedRegs) = none := by
  rw [List.find?_eq_none]
  intro register member
  have low := return_regs_low cls register member
  have taken : register ∈ state.usedRegs := by
    rw [used, low.1]
    exact lt_of_lt_of_le low.2 full
  simp [taken]

def countAnother (counts : RegClass → Nat) (cls : RegClass) : RegClass → Nat :=
  fun other => if other = cls then counts other + 1 else counts other

theorem used_another (used : UsedUpTo counts state) {cls : RegClass} (small : counts cls < 6) :
    UsedUpTo (countAnother counts cls)
      { state with usedRegs := ⟨cls, Fin.ofNat 64 (counts cls)⟩ :: state.usedRegs } := by
  rintro ⟨other, encoding⟩
  rw [List.mem_cons, used, countAnother]
  by_cases same : other = cls
  · subst same
    rw [if_pos rfl, Register.mk.injEq, Fin.ext_iff, Fin.val_ofNat, Nat.mod_eq_of_lt (by omega)]
    simp only [true_and]
    omega
  · rw [if_neg same]
    simp [same]

theorem assign_return_takes (used : UsedUpTo counts state) (small : counts valVT.cls < 6) :
    ∃ register next, assignReturn valVT state = some (.reg register, next) ∧
      Takes valVT state (.reg register) next ∧
      UsedUpTo (countAnother counts valVT.cls) next := by
  have found := first_free_register used small
  have free := List.find?_some found
  rw [decide_eq_true_eq] at free
  refine ⟨_, _, ?_, Takes.reg rfl free, used_another used small⟩
  rw [assign_return_eq, CCState.allocateReg, found]
  rfl

/-- A seventh value of a class has no location. -/
theorem assign_return_unreachable (used : UsedUpTo counts state) (full : 6 ≤ counts valVT.cls) :
    assignReturn valVT state = none := by
  rw [assign_return_eq, CCState.allocateReg, no_free_register used full]
  rfl

end Assignment

section Analysis

variable {counts : RegClass → Nat} {state : CCState} {outs : List ArgVT}

theorem class_count_cons (cls : RegClass) (valVT : ArgVT) (outs : List ArgVT) :
    classCount cls (valVT :: outs) = classCount cls outs + if valVT.cls = cls then 1 else 0 := by
  rw [classCount, List.countP_cons, ← classCount]
  simp

/-- Every location is a register of its own that was free before. -/
structure Assigned (state : CCState) (outs : List ArgVT) (registers : List Register) : Prop where
  length : registers.length = outs.length
  free : ∀ register ∈ registers, register ∉ state.usedRegs
  nodup : registers.Nodup

theorem analyze_return_assigned (used : UsedUpTo counts state)
    (fits : ∀ cls, counts cls + classCount cls outs ≤ 6) :
    ∃ rvLocs registers, analyzeReturnFrom state outs = some rvLocs ∧
      rvLocs.mapM getLocReg = some registers ∧ Assigned state outs registers := by
  induction outs generalizing counts state with
  | nil => exact ⟨[], [], rfl, rfl, rfl, by simp, List.nodup_nil⟩
  | cons valVT rest induction =>
      have own := fits valVT.cls
      rw [class_count_cons, if_pos rfl] at own
      obtain ⟨register, next, assigned, takes, usedNext⟩ :=
        assign_return_takes used (show counts valVT.cls < 6 by omega)
      have later (cls : RegClass) : countAnother counts valVT.cls cls + classCount cls rest ≤ 6 := by
        have bound := fits cls
        rw [class_count_cons] at bound
        rw [countAnother]
        by_cases same : cls = valVT.cls
        · subst same
          rw [if_pos rfl] at bound ⊢
          omega
        · rw [if_neg same]
          omega
      obtain ⟨rvLocs, registers, analyzed, read, spec⟩ := induction usedNext later
      cases takes with
      | reg cls free =>
          refine ⟨⟨valVT, .reg register⟩ :: rvLocs, register :: registers, ?_, ?_, ?_, ?_, ?_⟩
          · rw [analyzeReturnFrom, assigned, Option.bind_some, analyzed, Option.map_some]
          · rw [List.mapM_cons, read]
            rfl
          · rw [List.length_cons, List.length_cons, spec.length]
          · intro other member
            rcases List.mem_cons.mp member with rfl | member
            · exact free
            · exact fun taken => spec.free other member (List.mem_cons_of_mem _ taken)
          · rw [List.nodup_cons]
            exact ⟨fun member => spec.free register member List.mem_cons_self, spec.nodup⟩

/-- No rule asks whether the function takes variable arguments. -/
theorem analyze_return_any_var_arg (isVarArg other : Bool) (usedRegs : List Register)
    (stackOffset : Nat) (outs : List ArgVT) :
    analyzeReturnFrom ⟨isVarArg, usedRegs, stackOffset⟩ outs =
      analyzeReturnFrom ⟨other, usedRegs, stackOffset⟩ outs := by
  induction outs generalizing usedRegs with
  | nil => rfl
  | cons valVT rest induction =>
      rw [analyzeReturnFrom, analyzeReturnFrom, assign_return_eq, assign_return_eq,
        CCState.allocateReg, CCState.allocateReg]
      cases (returnRegs valVT.cls).find? fun register => register ∉ usedRegs with
      | none => rfl
      | some register =>
          change (analyzeReturnFrom ⟨isVarArg, register :: usedRegs, stackOffset⟩ rest).map _ =
            (analyzeReturnFrom ⟨other, register :: usedRegs, stackOffset⟩ rest).map _
          rw [induction]

theorem analyze_return_unreachable (used : UsedUpTo counts state) (within : ∀ cls, counts cls ≤ 6)
    {cls : RegClass} (tooMany : 6 < counts cls + classCount cls outs) :
    analyzeReturnFrom state outs = none := by
  induction outs generalizing counts state with
  | nil =>
      have bound := within cls
      rw [classCount, List.countP_nil] at tooMany
      omega
  | cons valVT rest induction =>
      by_cases small : counts valVT.cls < 6
      · obtain ⟨register, next, assigned, takes, usedNext⟩ := assign_return_takes used small
        have later : analyzeReturnFrom next rest = none := by
          apply induction usedNext
          · intro other
            have bound := within other
            rw [countAnother]
            by_cases same : other = valVT.cls
            · subst same
              rw [if_pos rfl]
              omega
            · rw [if_neg same]
              exact bound
          · rw [class_count_cons] at tooMany
            rw [countAnother]
            by_cases same : cls = valVT.cls
            · rw [if_pos same.symm] at tooMany
              rw [if_pos same]
              omega
            · rw [if_neg fun reversed => same reversed.symm] at tooMany
              rw [if_neg same]
              omega
        rw [analyzeReturnFrom, assigned, Option.bind_some, later, Option.map_none]
      · rw [analyzeReturnFrom, assign_return_unreachable used (by omega), Option.bind_none]

end Analysis

section Agreement

variable {signature : Signature}

theorem used_up_to_nothing (isVarArg : Bool) : UsedUpTo (fun _ => 0) ⟨isVarArg, [], 0⟩ := by
  intro register
  simp

theorem copies_of_registers {rvLocs : List CCValAssign} {registers : List Register}
    (analyzed : analyzeReturn signature.isVarArg signature.outs = some rvLocs)
    (read : rvLocs.mapM getLocReg = some registers)
    (length : registers.length = signature.outs.length) (nodup : registers.Nodup) :
    ∃ copies, LowerReturn signature = some copies ∧
      (∀ index register, registers[index]? = some register →
        copies[index]? = some (ReturnCopy.mk register (.value index))) ∧
      (copies.map ReturnCopy.register).Nodup := by
  have lowered : LowerReturn signature =
      some ((registers.zipIdx.map fun (register, index) => ReturnCopy.mk register (.value index)) ++
        if signature.hasStructRetAttr then [⟨sReg 0, .sretReturnReg⟩] else []) := by
    rw [LowerReturn, analyzed, Option.bind_some, read, Option.map_some]
  refine ⟨_, lowered, ?_, ?_⟩
  · intro index register present
    have inside := (List.getElem?_eq_some_iff.mp present).1
    rw [List.getElem?_append_left (by simpa using inside), List.getElem?_map,
      List.getElem?_zipIdx, present]
    simp
  · have values : (registers.zipIdx.map fun (register, index) =>
        ReturnCopy.mk register (.value index)).map ReturnCopy.register = registers := by
      rw [List.map_map]
      exact List.zipIdx_map_fst 0 registers
    rw [List.map_append, values]
    cases sret : signature.hasStructRetAttr with
    | false => simpa using nodup
    | true =>
        rw [signature.void sret] at length
        rw [List.length_eq_zero_iff.mp length]
        simp

/-- Every return has a place exactly if it has at most six values of each register class. -/
theorem return_has_place_iff (signature : Signature) (callerIsVarArg : Bool) :
    HasPlace signature callerIsVarArg ↔ ∀ cls, classCount cls signature.outs ≤ 6 := by
  constructor
  · rintro (demoted | ⟨copies, results, lowered, -⟩) cls
    · cases demoted
    · by_contra tooMany
      have unreachable : analyzeReturn signature.isVarArg signature.outs = none :=
        analyze_return_unreachable (used_up_to_nothing _) (fun _ => Nat.zero_le 6)
          (show 6 < 0 + classCount cls signature.outs by omega)
      rw [LowerReturn, unreachable] at lowered
      cases lowered
  · intro fits
    have bound (cls : RegClass) : 0 + classCount cls signature.outs ≤ 6 := by
      rw [Nat.zero_add]
      exact fits cls
    right
    obtain ⟨rvLocs, registers, analyzed, read, spec⟩ :=
      analyze_return_assigned (used_up_to_nothing signature.isVarArg) bound
    obtain ⟨copies, lowered, placed, nodup⟩ :=
      copies_of_registers analyzed read spec.length spec.nodup
    have called : analyzeReturn callerIsVarArg signature.outs = some rvLocs := by
      rw [analyzeReturn, analyze_return_any_var_arg callerIsVarArg signature.isVarArg]
      exact analyzed
    refine ⟨copies, registers, lowered, ?_, spec.length, placed, nodup⟩
    rw [callResults, called, Option.bind_some, read]

/-- `{ i32, i32, i32, i32, i32, i32, i32 }`. -/
def sevenWords : Signature := ⟨false, false, List.replicate 7 .i32, by decide⟩

theorem seven_words_are_unreachable :
    ¬ HasPlace sevenWords false ∧ CanLowerReturn sevenWords = true ∧
      LowerReturn sevenWords = none := by
  have unreachable : LowerReturn sevenWords = none := by decide
  refine ⟨?_, rfl, unreachable⟩
  rintro (demoted | ⟨copies, results, lowered, -⟩)
  · cases demoted
  · rw [unreachable] at lowered
    cases lowered

end Agreement

end NaplesPU.ReturnConvention
