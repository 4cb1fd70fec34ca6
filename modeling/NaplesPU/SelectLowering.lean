import NaplesPU.CompareLowering
import NaplesPU.SelectionTypes

/-!
The lowering of vector selections. All three kinds become one node that selects each
lane by a bit of a lane mask. The result of a scalar comparison serves as such a mask
as long as it has sixteen ones, which a comparison folded to a constant has not.
-/

namespace NaplesPU.SelectLowering

open Comparison OperationActions SelectionDAG SelectionTypes CompareLowering

variable {R : Type}

section Definitions

/-- The type of a comparison: a word for scalars, integer lanes for vectors. -/
def getSetCCResultType (vt : MVT) : MVT :=
  if vt.isVector then
    match vt with
    | .v16f32 => .v16i32
    | vector => vector
  else .i32

variable [LinearOrder R]

def lowerSELECT (vt : MVT) (cond trueVal falseVal : Node R) : Node R :=
  let pred := getSetCC (getSetCCResultType .i1) cond (.constant .i32 0) .SETNE
  .selCondResult vt pred trueVal falseVal

def lowerSELECT_CC (vt : MVT) (left right trueVal falseVal : Node R) (cc : CondCode) : Node R :=
  let pred := getSetCC (getSetCCResultType left.vt) left right cc
  .selCondResult vt pred trueVal falseVal

def lowerVSELECT (vt : MVT) (cond trueVal falseVal : Node R) : Option (Node R) :=
  (intrinsicForVectorCompare .SETNE false).map fun intrinsic =>
    let mask := .intrinsicWoChain .i32 intrinsic cond (.constant (getScalarType cond.vt) 0)
    .selCondResult vt mask trueVal falseVal

def lowerVectorSelect : Node R → Option (Node R)
  | .select vt cond trueVal falseVal => some (lowerSELECT vt cond trueVal falseVal)
  | .selectCC vt left right trueVal falseVal cc =>
      some (lowerSELECT_CC vt left right trueVal falseVal cc)
  | .vselect vt cond trueVal falseVal => lowerVSELECT vt cond trueVal falseVal
  | _ => none

def SelectsRight (env : Env R) (op lowered : Node R) : Prop :=
  WellTyped lowered ∧ Refines (denote env op) (denote env lowered)

def AgreeAboveFirst : Value R → Value R → Prop
  | .vector trueVal, .vector falseVal =>
      ∀ lane, 0 < lane.val → ElemRefines (trueVal lane) (falseVal lane)
  | _, _ => True

/-- A comparison that is folded to a true constant selects the first lane only. -/
def FoldedRight (env : Env R) (left right trueVal falseVal : Node R) (cc : CondCode) : Prop :=
  constantTruth left right cc = some (some true) →
    AgreeAboveFirst (denote env trueVal) (denote env falseVal)

def Selectable (env : Env R) : Node R → Prop
  | .select _ cond trueVal falseVal =>
      FoldedRight env cond (.constant .i32 0) trueVal falseVal .SETNE
  | .selectCC _ left right trueVal falseVal cc =>
      left.vt.isVector = false ∧ FoldedRight env left right trueVal falseVal cc
  | _ => False

end Definitions

section Predicates

variable [LinearOrder R]

theorem get_set_cc_vt (vt : MVT) (left right : Node R) (cc : CondCode) :
    (getSetCC vt left right cc).vt = vt := by
  have constant (value : Word) : (getConstant vt value : Node R).vt = vt := by
    rw [getConstant]
    split <;> rfl
  unfold getSetCC
  split
  · rename_i folded folds
    rcases fold_set_cc_cases folds with isConstant | undefined | swapped
    · obtain ⟨value, rfl⟩ := isConstant
      exact constant value
    · rw [undefined]
      rfl
    · obtain ⟨value, -, rfl⟩ := swapped
      rfl
  · unfold foldConstantVector
    split
    · split <;> rfl
    · rfl

theorem result_type_eq_i32_iff (vt : MVT) : getSetCCResultType vt = .i32 ↔ vt.isVector = false := by
  cases vt <;> decide

/-- A scalar comparison is folded if both operands are constants, and otherwise kept, perhaps
with its operands swapped. -/
theorem get_set_cc_scalar (left right : Node R) {cc : CondCode}
    (notFolded : cc.alwaysFolded = false) :
    (∃ truth, constantTruth left right cc = some (some truth) ∧
        getSetCC .i32 left right cc = .constant .i32 (if truth then 1 else 0)) ∨
      (constantTruth left right cc = some none ∧ getSetCC .i32 left right cc = .undef .i32) ∨
      (constantTruth left right cc = none ∧
        (getSetCC .i32 left right cc = .setcc .i32 left right cc ∨
          ∃ value, left = .constantFP value ∧
            getSetCC .i32 left right cc = .setcc .i32 right left cc.swapped)) := by
  have noVector : foldConstantVector .i32 left right cc = none := by
    unfold foldConstantVector
    split
    · exact if_neg fun vector => Bool.false_ne_true vector.1
    · rfl
  unfold getSetCC
  rw [fold_set_cc_of_not_folded notFolded, noVector, Option.getD_none]
  unfold foldConstantOperands
  cases constants : constantTruth left right cc with
  | some truth =>
      cases truth with
      | some known => exact Or.inl ⟨known, rfl, rfl⟩
      | none => exact Or.inr (Or.inl ⟨rfl, rfl⟩)
  | none =>
      cases left with
      | constantFP value => exact Or.inr (Or.inr ⟨rfl, Or.inr ⟨value, rfl, rfl⟩⟩)
      | _ => exact Or.inr (Or.inr ⟨rfl, Or.inl rfl⟩)

theorem scalar_predicate_well_typed {left right : Node R} {cc : CondCode}
    (notFolded : cc.alwaysFolded = false) (scalar : left.vt.isVector = false)
    (same : left.vt = right.vt) (leftTyped : WellTyped left) (rightTyped : WellTyped right) :
    WellTyped (getSetCC .i32 left right cc) := by
  rcases get_set_cc_scalar left right notFolded with
    folded | undefined | ⟨-, kept⟩
  · obtain ⟨truth, -, pred⟩ := folded
    rw [pred]
    rfl
  · rw [undefined.2]
    trivial
  · rcases kept with pred | ⟨value, -, pred⟩
    · rw [pred]
      exact ⟨⟨Or.inl rfl, scalar.symm⟩, same, leftTyped, rightTyped⟩
    · rw [pred]
      exact ⟨⟨Or.inl rfl, (same ▸ scalar).symm⟩, same.symm, rightTyped, leftTyped⟩

end Predicates

section Values

variable [LinearOrder R] {env : Env R}

def scalarTruth (cc : CondCode) (left right : Option (Elem R)) : Option Bool :=
  left.bind fun leftElem => right.bind fun rightElem => cc.truth leftElem rightElem

def maskValue (truth : Option Bool) : Value R :=
  .scalar (truth.map fun known => .int (maskWord known))

theorem denote_setcc_scalar {left right : Node R} {leftValue rightValue : Option (Elem R)}
    (leftKnown : denote env left = .scalar leftValue)
    (rightKnown : denote env right = .scalar rightValue) (cc : CondCode) :
    denote env (.setcc .i32 left right cc) = maskValue (scalarTruth cc leftValue rightValue) := by
  rw [denote, leftKnown, rightKnown, maskValue, scalarTruth, Value.zipWith]
  cases leftValue with
  | none => rfl
  | some leftElem =>
      cases rightValue with
      | none => rfl
      | some rightElem => rfl

/-- A swapped comparison of floating-point values has the truth value of the original. -/
theorem scalar_truth_swapped {left right : Option (Elem R)} (leftTyped : ElemHasVT .f32 left)
    (rightTyped : ElemHasVT .f32 right) (cc : CondCode) :
    scalarTruth cc.swapped right left = scalarTruth cc left right := by
  cases left with
  | none => cases right <;> rfl
  | some leftElem =>
      cases right with
      | none => rfl
      | some rightElem =>
          have leftFloat := leftTyped leftElem rfl
          have rightFloat := rightTyped rightElem rfl
          cases leftElem with
          | float leftNumber =>
              cases rightElem with
              | float rightNumber => exact truth_swapped cc leftNumber rightNumber
              | _ => cases rightFloat
          | _ => cases leftFloat

theorem constant_truth_denote {left right : Node R} {cc : CondCode} {truth : Option Bool}
    (constants : constantTruth left right cc = some truth)
    {leftValue rightValue : Option (Elem R)} (leftKnown : denote env left = .scalar leftValue)
    (rightKnown : denote env right = .scalar rightValue) :
    scalarTruth cc leftValue rightValue = truth := by
  unfold constantTruth at constants
  split at constants
  · cases leftKnown
    cases rightKnown
    exact Option.some.inj constants
  · cases leftKnown
    cases rightKnown
    exact Option.some.inj constants
  · cases constants

theorem mask_word_bit (truth : Bool) (lane : Fin 16) :
    (maskWord truth).getLsbD lane = truth := by
  cases truth with
  | false => exact BitVec.getLsbD_zero
  | true =>
      revert lane
      decide

theorem one_bit (lane : Fin 16) : (1 : Word).getLsbD lane = decide (lane = 0) := by
  revert lane
  decide

variable {vt : MVT} {pred trueVal falseVal : Node R} {trueLanes falseLanes : Lanes R}

/-- A predicate of sixteen equal bits selects a whole value. -/
theorem select_by_mask {truth : Option Bool} (mask : denote env pred = maskValue truth)
    (trueKnown : denote env trueVal = .vector trueLanes)
    (falseKnown : denote env falseVal = .vector falseLanes) :
    denote env (.selCondResult vt pred trueVal falseVal) =
      chooseWhole truth vt (.vector trueLanes) (.vector falseLanes) := by
  rw [denote, mask, trueKnown, falseKnown, maskValue]
  cases truth with
  | none => rfl
  | some truth =>
      simp only [Option.map_some, Value.choose, mask_word_bit]
      cases truth <;> rfl

/-- A predicate of one selects the first lane of one value and the others of the other. -/
theorem select_by_one (one : denote env pred = .scalar (some (.int 1)))
    (trueKnown : denote env trueVal = .vector trueLanes)
    (falseKnown : denote env falseVal = .vector falseLanes) :
    denote env (.selCondResult vt pred trueVal falseVal) =
      .vector fun lane => if lane = 0 then trueLanes lane else falseLanes lane := by
  rw [denote, one, trueKnown, falseKnown]
  simp only [Value.choose, one_bit, decide_eq_true_eq]

omit [LinearOrder R] in
theorem refines_first_lane_iff :
    Refines (.vector trueLanes)
        (.vector fun lane => if lane = 0 then trueLanes lane else falseLanes lane) ↔
      AgreeAboveFirst (.vector trueLanes) (.vector falseLanes) := by
  constructor
  · intro refines lane above
    have selected : ElemRefines (trueLanes lane)
        (if lane = 0 then trueLanes lane else falseLanes lane) := refines lane
    have notFirst : lane ≠ 0 := by
      intro first
      rw [first] at above
      exact Nat.lt_irrefl 0 above
    rw [if_neg notFirst] at selected
    exact selected
  · intro agree lane
    dsimp only
    by_cases first : lane = 0
    · rw [if_pos first]
      exact elem_refines_refl _
    · rw [if_neg first]
      exact agree lane (Nat.pos_of_ne_zero fun zero => first (Fin.ext zero))

theorem kept_predicate_value {left right : Node R} {cc : CondCode}
    (typedEnv : TypedEnv env) (same : left.vt = right.vt) (rightTyped : WellTyped right)
    {leftValue rightValue : Option (Elem R)} (leftKnown : denote env left = .scalar leftValue)
    (rightKnown : denote env right = .scalar rightValue)
    (kept : getSetCC .i32 left right cc = .setcc .i32 left right cc ∨
      ∃ value, left = .constantFP value ∧
        getSetCC .i32 left right cc = .setcc .i32 right left cc.swapped) :
    denote env (getSetCC .i32 left right cc) = maskValue (scalarTruth cc leftValue rightValue) := by
  rcases kept with pred | ⟨value, rfl, pred⟩
  · rw [pred]
    exact denote_setcc_scalar leftKnown rightKnown cc
  · rw [pred, denote_setcc_scalar rightKnown leftKnown]
    have rightVT := denote_has_vt typedEnv rightTyped
    rw [rightKnown, ← same] at rightVT
    have leftVT : ElemHasVT .f32 leftValue := by
      cases leftKnown
      intro elem defined
      cases defined
      rfl
    rw [scalar_truth_swapped leftVT rightVT.2]

omit [LinearOrder R] in
theorem right_unless_folded {truth : Option (Option Bool)} {agree : Prop} (value : Value R)
    (other : truth ≠ some (some true)) :
    Refines value value ↔ (truth = some (some true) → agree) :=
  iff_of_true (refines_refl value) fun folded => absurd folded other

/-- The selection by a scalar comparison is right unless the comparison is folded to a true
constant and the values differ above the first lane. -/
theorem scalar_selection_iff {left right : Node R} {cc : CondCode} (typedEnv : TypedEnv env)
    (notFolded : cc.alwaysFolded = false) (same : left.vt = right.vt)
    (rightTyped : WellTyped right) {leftValue rightValue : Option (Elem R)}
    (leftKnown : denote env left = .scalar leftValue)
    (rightKnown : denote env right = .scalar rightValue)
    (trueKnown : denote env trueVal = .vector trueLanes)
    (falseKnown : denote env falseVal = .vector falseLanes) :
    Refines (chooseWhole (scalarTruth cc leftValue rightValue) vt (.vector trueLanes)
        (.vector falseLanes))
        (denote env (.selCondResult vt (getSetCC .i32 left right cc) trueVal falseVal)) ↔
      FoldedRight env left right trueVal falseVal cc := by
  rw [FoldedRight, trueKnown, falseKnown]
  rcases get_set_cc_scalar left right notFolded with
    ⟨truth, constants, pred⟩ | ⟨constants, pred⟩ | ⟨constants, kept⟩
  · rw [constant_truth_denote constants leftKnown rightKnown, pred, constants]
    cases truth with
    | true =>
        rw [select_by_one rfl trueKnown falseKnown]
        constructor
        · intro refines _
          exact refines_first_lane_iff.mp refines
        · intro folded
          exact refines_first_lane_iff.mpr (folded rfl)
    | false =>
        have zero : denote env (.constant .i32 (if false then 1 else 0)) = maskValue (some false) :=
          rfl
        rw [select_by_mask zero trueKnown falseKnown]
        exact right_unless_folded _ (by decide)
  · have undefined : denote env (.undef .i32) = maskValue none := rfl
    rw [constant_truth_denote constants leftKnown rightKnown, pred, constants,
      select_by_mask undefined trueKnown falseKnown]
    exact right_unless_folded _ (by decide)
  · have mask := kept_predicate_value typedEnv same rightTyped leftKnown rightKnown kept
    rw [select_by_mask mask trueKnown falseKnown, constants]
    exact right_unless_folded _ (by decide)

theorem nonzero_truth (elem : Elem R) :
    CondCode.SETNE.truth elem (.int 0) = nonzero elem := by
  cases elem with
  | int value =>
      have zero : order value.toInt (0 : Word).toInt = .equal ↔ value = 0 := by
        rw [order_equal, BitVec.toInt_inj]
      have ordered := order_ordered value.toInt (0 : Word).toInt
      have holds : CondCode.SETNE.holds (order value.toInt (0 : Word).toInt) =
          decide (value ≠ 0) := by
        by_cases isZero : value = 0
        · rw [zero.mpr isZero, decide_eq_false (not_not.mpr isZero)]
          rfl
        · rw [decide_eq_true isZero]
          have differs : order value.toInt (0 : Word).toInt ≠ .equal := fun equal =>
            isZero (zero.mp equal)
          revert ordered differs
          generalize order value.toInt (0 : Word).toInt = relation
          cases relation <;> decide
      exact congrArg some holds
  | float value => rfl
  | bit value => rfl

theorem scalar_truth_nonzero (value : Option (Elem R)) :
    scalarTruth .SETNE value (some (.int 0)) = value.bind nonzero := by
  cases value with
  | none => rfl
  | some elem => exact nonzero_truth elem

end Values

section Main

variable [LinearOrder R] {env : Env R} {op lowered : Node R}

theorem select_iff (typedEnv : TypedEnv env) {vt : MVT} {cond trueVal falseVal : Node R}
    (typed : WellTyped (.select vt cond trueVal falseVal)) (vector : vt.isVector = true) :
    SelectsRight env (.select vt cond trueVal falseVal) (lowerSELECT vt cond trueVal falseVal) ↔
      FoldedRight env cond (.constant .i32 0) trueVal falseVal .SETNE := by
  obtain ⟨condVT, trueVT, falseVT, condTyped, trueTyped, falseTyped⟩ := typed
  have notFolded : CondCode.SETNE.alwaysFolded = false := rfl
  have scalar : cond.vt.isVector = false := by
    rw [condVT]
    rfl
  obtain ⟨condValue, condKnown, -⟩ := scalar_of_has_vt (denote_has_vt typedEnv condTyped) scalar
  obtain ⟨trueLanes, trueKnown, -⟩ :=
    vector_of_has_vt (denote_has_vt typedEnv trueTyped) (trueVT ▸ vector)
  obtain ⟨falseLanes, falseKnown, -⟩ :=
    vector_of_has_vt (denote_has_vt typedEnv falseTyped) (falseVT ▸ vector)
  have zeroTyped : WellTyped (.constant .i32 0 : Node R) := rfl
  have zeroKnown : denote env (.constant .i32 0) = .scalar (some (.int 0)) := rfl
  have value : denote env (.select vt cond trueVal falseVal) =
      chooseWhole (scalarTruth .SETNE condValue (some (.int 0))) vt (.vector trueLanes)
        (.vector falseLanes) := by
    rw [denote, condKnown, trueKnown, falseKnown, scalar_truth_nonzero]
  have pred : WellTyped (getSetCC .i32 cond (.constant .i32 0) .SETNE) :=
    scalar_predicate_well_typed notFolded scalar condVT condTyped zeroTyped
  have wellTyped : WellTyped (lowerSELECT vt cond trueVal falseVal) :=
    ⟨get_set_cc_vt .i32 _ _ _, trueVT, falseVT, pred, trueTyped, falseTyped⟩
  have refines : Refines _ (denote env (lowerSELECT vt cond trueVal falseVal)) ↔ _ :=
    scalar_selection_iff typedEnv notFolded condVT zeroTyped condKnown zeroKnown trueKnown
      falseKnown
  rw [SelectsRight, value]
  constructor
  · intro right
    exact refines.mp right.2
  · intro folded
    exact ⟨wellTyped, refines.mpr folded⟩

theorem select_cc_iff (typedEnv : TypedEnv env) {vt : MVT}
    {left right trueVal falseVal : Node R} {cc : CondCode}
    (typed : WellTyped (.selectCC vt left right trueVal falseVal cc))
    (vector : vt.isVector = true) :
    SelectsRight env (.selectCC vt left right trueVal falseVal cc)
        (lowerSELECT_CC vt left right trueVal falseVal cc) ↔
      left.vt.isVector = false ∧ FoldedRight env left right trueVal falseVal cc := by
  obtain ⟨code, same, trueVT, falseVT, leftTyped, rightTyped, trueTyped, falseTyped⟩ := typed
  cases scalar : left.vt.isVector with
  | true =>
      constructor
      · intro right
        -- the lane mask of a comparison of vectors is not made
        have pred : (getSetCC (getSetCCResultType left.vt) left _ cc).vt = .i32 := right.1.1
        rw [get_set_cc_vt, result_type_eq_i32_iff, scalar] at pred
        cases pred
      · intro selectable
        cases selectable.1
  | false =>
      obtain ⟨leftValue, leftKnown, -⟩ :=
        scalar_of_has_vt (denote_has_vt typedEnv leftTyped) scalar
      obtain ⟨rightValue, rightKnown, -⟩ :=
        scalar_of_has_vt (denote_has_vt typedEnv rightTyped) (same ▸ scalar)
      obtain ⟨trueLanes, trueKnown, -⟩ :=
        vector_of_has_vt (denote_has_vt typedEnv trueTyped) (trueVT ▸ vector)
      obtain ⟨falseLanes, falseKnown, -⟩ :=
        vector_of_has_vt (denote_has_vt typedEnv falseTyped) (falseVT ▸ vector)
      have value : denote env (.selectCC vt left right trueVal falseVal cc) =
          chooseWhole (scalarTruth cc leftValue rightValue) vt (.vector trueLanes)
            (.vector falseLanes) := by
        rw [denote, leftKnown, rightKnown, trueKnown, falseKnown]
        rfl
      have pred := scalar_predicate_well_typed code.1 scalar same leftTyped rightTyped
      have wellTyped :
          WellTyped (.selCondResult vt (getSetCC .i32 left right cc) trueVal falseVal) :=
        ⟨get_set_cc_vt .i32 _ _ _, trueVT, falseVT, pred, trueTyped, falseTyped⟩
      have refines : Refines _ (denote env
          (.selCondResult vt (getSetCC .i32 left right cc) trueVal falseVal)) ↔ _ :=
        scalar_selection_iff typedEnv code.1 same rightTyped leftKnown rightKnown trueKnown
          falseKnown
      rw [SelectsRight, lowerSELECT_CC, (result_type_eq_i32_iff left.vt).mpr scalar, value]
      constructor
      · intro right
        exact ⟨rfl, refines.mp right.2⟩
      · intro selectable
        exact ⟨wellTyped, refines.mpr selectable.2⟩

omit [LinearOrder R] in
/-- The lane mask of a condition of words is compared with a scalar. -/
theorem vselect_not_well_typed {vt : MVT} {cond trueVal falseVal : Node R}
    (lanes : cond.vt = .v16i32) (handled : lowerVSELECT vt cond trueVal falseVal = some lowered) :
    ¬ WellTyped lowered := by
  intro typed
  cases handled
  have zero : (.constant (getScalarType cond.vt) 0 : Node R).vt = .v16i32 := typed.2.2.2.1.2.2.1
  rw [lanes] at zero
  cases zero

/-- A vector selection is lowered to a well-typed node of its value exactly if its condition is
scalar, and is not folded to a true constant where the values differ above the first lane. -/
theorem vector_select_iff (typedEnv : TypedEnv env) (typed : WellTyped op)
    (vector : op.vt = .v16i32 ∨ op.vt = .v16f32)
    (handled : lowerVectorSelect op = some lowered) :
    SelectsRight env op lowered ↔ Selectable env op := by
  have isVector : op.vt.isVector = true := by
    rcases vector with vector | vector <;> rw [vector] <;> rfl
  cases op with
  | select vt cond trueVal falseVal =>
      cases handled
      exact select_iff typedEnv typed isVector
  | selectCC vt left right trueVal falseVal cc =>
      cases handled
      exact select_cc_iff typedEnv typed isVector
  | vselect vt cond trueVal falseVal =>
      constructor
      · intro right
        exact vselect_not_well_typed typed.1 handled right.1
      · intro selectable
        exact selectable.elim
  | _ => cases handled

end Main

/-- A word of one and vectors whose lanes are their index. -/
def indexedOperands : Env ℚ
  | .i32, _ => .scalar (some (.int 1))
  | .v16i32, index => .vector fun _ => some (.int (BitVec.ofNat 32 index))
  | vt, _ => .undefined vt

theorem indexed_operands_typed : TypedEnv indexedOperands := by
  intro vt index
  cases vt with
  | i32 =>
      refine ⟨rfl, ?_⟩
      intro elem defined
      cases defined
      rfl
  | v16i32 =>
      refine ⟨rfl, ?_⟩
      intro lane elem defined
      cases defined
      rfl
  | _ => exact undefined_has_vt _

def wordVector (index : Nat) : Node ℚ := .operand .v16i32 index

theorem selection_by_word :
    SelectsRight indexedOperands
        (.select .v16i32 (.operand .i32 0) (wordVector 1) (wordVector 2))
        (lowerSELECT .v16i32 (.operand .i32 0) (wordVector 1) (wordVector 2)) ↔
      Selectable indexedOperands
        (.select .v16i32 (.operand .i32 0) (wordVector 1) (wordVector 2)) := by
  have typed : WellTyped
      (.select .v16i32 (.operand .i32 0) (wordVector 1) (wordVector 2) : Node ℚ) :=
    ⟨rfl, rfl, rfl, trivial, trivial, trivial⟩
  exact vector_select_iff indexed_operands_typed typed (Or.inl rfl) rfl

/-- A condition with a word for each lane is compared with a scalar zero. -/
theorem lane_condition_mistyped :
    ¬ ∀ (env : Env ℚ) (op lowered : Node ℚ), TypedEnv env → WellTyped op →
      (op.vt = .v16i32 ∨ op.vt = .v16f32) → lowerVectorSelect op = some lowered →
      SelectsRight env op lowered := by
  intro always
  have typed : WellTyped
      (.vselect .v16i32 (wordVector 0) (wordVector 1) (wordVector 2) : Node ℚ) :=
    ⟨rfl, rfl, rfl, trivial, trivial, trivial⟩
  have right := always indexedOperands _ _ indexed_operands_typed typed (Or.inl rfl) rfl
  exact vselect_not_well_typed rfl rfl right.1

end NaplesPU.SelectLowering
