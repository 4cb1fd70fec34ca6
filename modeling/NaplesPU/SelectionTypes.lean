import NaplesPU.SelectionDAG

/-!
The types of the nodes of the selection graph. A well-typed node has a value of its
type wherever its operands do, and one value refines another that is undefined where
they differ.
-/

namespace NaplesPU.SelectionTypes

open Comparison OperationActions SelectionDAG

variable {R : Type}

section Definitions

/-- `getScalarType`. -/
def getScalarType : MVT → MVT
  | .v16i1 => .i1
  | .v16i32 => .i32
  | .v16f32 => .f32
  | vt => vt

def ElemHasVT (vt : MVT) (value : Option (Elem R)) : Prop :=
  ∀ elem, value = some elem → elem.vt = vt

def HasVT (vt : MVT) : Value R → Prop
  | .scalar value => vt.isVector = false ∧ ElemHasVT (getScalarType vt) value
  | .vector lanes => vt.isVector = true ∧ ∀ lane, ElemHasVT (getScalarType vt) (lanes lane)

def TypedEnv (env : Env R) : Prop := ∀ vt index, HasVT vt (env vt index)

def CompareVT (vt operandVT : MVT) : Prop :=
  (vt = .i32 ∨ vt = .v16i1 ∨ vt = .v16i32) ∧ vt.isVector = operandVT.isVector

def CompareCode (cc : CondCode) (operandVT : MVT) : Prop :=
  cc.alwaysFolded = false ∧ (getScalarType operandVT = .i32 → cc.forIntegers = true)

/-- Both operands of a comparison have one type, the predicate of a selection is a word. -/
def WellTyped : Node R → Prop
  | .operand _ _ | .constantFP _ | .undef _ => True
  | .constant vt _ => vt = .i32
  | .buildVector vt elems =>
      vt.isVector = true ∧ ∀ lane, (elems lane).vt = getScalarType vt ∧ WellTyped (elems lane)
  | .scalarToVector vt scalar =>
      vt.isVector = true ∧ scalar.vt = getScalarType vt ∧ WellTyped scalar
  | .insertVectorElt vt vector scalar index =>
      vector.vt = vt ∧ scalar.vt = getScalarType vt ∧ index.vt = .i32 ∧
        WellTyped vector ∧ WellTyped scalar ∧ WellTyped index
  | .vectorShuffle vt left right _ =>
      left.vt = vt ∧ right.vt = vt ∧ WellTyped left ∧ WellTyped right
  | .setcc vt left right _ =>
      CompareVT vt left.vt ∧ left.vt = right.vt ∧ WellTyped left ∧ WellTyped right
  | .select vt cond trueVal falseVal =>
      cond.vt = .i32 ∧ trueVal.vt = vt ∧ falseVal.vt = vt ∧
        WellTyped cond ∧ WellTyped trueVal ∧ WellTyped falseVal
  | .selectCC vt left right trueVal falseVal cc =>
      CompareCode cc left.vt ∧ left.vt = right.vt ∧ trueVal.vt = vt ∧ falseVal.vt = vt ∧
        WellTyped left ∧ WellTyped right ∧ WellTyped trueVal ∧ WellTyped falseVal
  | .vselect vt cond trueVal falseVal =>
      cond.vt = .v16i32 ∧ trueVal.vt = vt ∧ falseVal.vt = vt ∧
        WellTyped cond ∧ WellTyped trueVal ∧ WellTyped falseVal
  | .xor vt left right =>
      getScalarType vt = .i32 ∧ left.vt = vt ∧ right.vt = vt ∧ WellTyped left ∧ WellTyped right
  | .signExtend vt source | .signExtendInReg vt source =>
      vt = .v16i32 ∧ source.vt = .v16i1 ∧ WellTyped source
  | .floatCompare _ vt left right =>
      CompareVT vt left.vt ∧ left.vt = right.vt ∧ WellTyped left ∧ WellTyped right
  | .splat vt scalar => vt.isVector = true ∧ scalar.vt = getScalarType vt ∧ WellTyped scalar
  | .intrinsicWoChain vt id left right =>
      vt = .i32 ∧ left.vt = id.operandVT ∧ right.vt = id.operandVT ∧
        WellTyped left ∧ WellTyped right
  | .selCondResult vt pred trueVal falseVal =>
      pred.vt = .i32 ∧ trueVal.vt = vt ∧ falseVal.vt = vt ∧
        WellTyped pred ∧ WellTyped trueVal ∧ WellTyped falseVal

def ElemRefines (source target : Option (Elem R)) : Prop :=
  ∀ elem, source = some elem → target = some elem

def Refines : Value R → Value R → Prop
  | .scalar source, .scalar target => ElemRefines source target
  | .vector source, .vector target => ∀ lane, ElemRefines (source lane) (target lane)
  | _, _ => False

end Definitions

section Refinement

theorem elem_refines_refl (value : Option (Elem R)) : ElemRefines value value :=
  fun _ defined => defined

theorem refines_refl (value : Value R) : Refines value value := by
  cases value with
  | scalar value => exact elem_refines_refl value
  | vector lanes => exact fun lane => elem_refines_refl (lanes lane)

end Refinement

section Values

variable {vt : MVT}

theorem undefined_has_vt (vt : MVT) : HasVT vt (.undefined vt : Value R) := by
  rw [Value.undefined]
  split
  · rename_i vector
    refine ⟨vector, ?_⟩
    intro lane elem absent
    cases absent
  · rename_i scalar
    refine ⟨Bool.eq_false_of_not_eq_true scalar, ?_⟩
    intro elem absent
    cases absent

theorem scalar_of_has_vt {value : Value R} (typed : HasVT vt value) (scalar : vt.isVector = false) :
    ∃ elem, value = .scalar elem ∧ ElemHasVT (getScalarType vt) elem := by
  cases value with
  | scalar value => exact ⟨value, rfl, typed.2⟩
  | vector lanes => exact absurd (scalar.symm.trans typed.1) Bool.false_ne_true

theorem vector_of_has_vt {value : Value R} (typed : HasVT vt value) (vector : vt.isVector = true) :
    ∃ lanes, value = .vector lanes ∧ ∀ lane, ElemHasVT (getScalarType vt) (lanes lane) := by
  cases value with
  | scalar value => exact absurd (typed.1.symm.trans vector) Bool.false_ne_true
  | vector lanes => exact ⟨lanes, rfl, typed.2⟩

theorem bind_has_vt {operation : Elem R → Elem R → Option (Elem R)}
    (typed : ∀ left right, ElemHasVT vt (operation left right)) (left right : Option (Elem R)) :
    ElemHasVT vt (left.bind fun leftElem => right.bind fun rightElem =>
      operation leftElem rightElem) := by
  intro elem defined
  rw [Option.bind_eq_some_iff] at defined
  obtain ⟨leftElem, -, defined⟩ := defined
  rw [Option.bind_eq_some_iff] at defined
  obtain ⟨rightElem, -, defined⟩ := defined
  exact typed leftElem rightElem elem defined

theorem zip_with_has_vt {operation : Elem R → Elem R → Option (Elem R)}
    (typed : ∀ left right, ElemHasVT (getScalarType vt) (operation left right))
    {operandVT : MVT} (shape : vt.isVector = operandVT.isVector) {left right : Value R}
    (leftTyped : HasVT operandVT left) : HasVT vt (Value.zipWith operation vt left right) := by
  cases left with
  | scalar leftValue =>
      cases right with
      | scalar rightValue => exact ⟨shape.trans leftTyped.1, bind_has_vt typed _ _⟩
      | vector rightLanes => exact undefined_has_vt vt
  | vector leftLanes =>
      cases right with
      | scalar rightValue => exact undefined_has_vt vt
      | vector rightLanes =>
          exact ⟨shape.trans leftTyped.1, fun lane => bind_has_vt typed _ _⟩

theorem bool_elem_vt {operandVT : MVT} (compare : CompareVT vt operandVT) (truth : Bool) :
    (boolElem vt truth : Elem R).vt = getScalarType vt := by
  rcases compare.1 with rfl | rfl | rfl <;> rfl

theorem compare_has_vt {operandVT : MVT} (compare : CompareVT vt operandVT) (truth : Option Bool) :
    ElemHasVT (getScalarType vt) (truth.map (boolElem vt) : Option (Elem R)) := by
  intro elem defined
  rw [Option.map_eq_some_iff] at defined
  obtain ⟨known, -, rfl⟩ := defined
  exact bool_elem_vt compare known

theorem choose_has_vt (pred : Word) {trueVal falseVal : Value R} (trueTyped : HasVT vt trueVal)
    (falseTyped : HasVT vt falseVal) : HasVT vt (Value.choose pred vt trueVal falseVal) := by
  cases trueVal with
  | scalar trueElem =>
      cases falseVal with
      | scalar falseElem =>
          refine ⟨trueTyped.1, ?_⟩
          split
          · exact trueTyped.2
          · exact falseTyped.2
      | vector falseLanes => exact undefined_has_vt vt
  | vector trueLanes =>
      cases falseVal with
      | scalar falseElem => exact undefined_has_vt vt
      | vector falseLanes =>
          refine ⟨trueTyped.1, ?_⟩
          intro lane
          dsimp only
          split
          · exact trueTyped.2 lane
          · exact falseTyped.2 lane

theorem choose_lanes_has_vt (truths : Fin 16 → Option Bool) {trueVal falseVal : Value R}
    (trueTyped : HasVT vt trueVal) (falseTyped : HasVT vt falseVal) :
    HasVT vt (chooseLanes truths vt trueVal falseVal) := by
  cases trueVal with
  | scalar trueElem => exact undefined_has_vt vt
  | vector trueLanes =>
      cases falseVal with
      | scalar falseElem => exact undefined_has_vt vt
      | vector falseLanes =>
          refine ⟨trueTyped.1, ?_⟩
          intro lane elem defined
          rw [Option.bind_eq_some_iff] at defined
          obtain ⟨truth, -, defined⟩ := defined
          cases truth with
          | true => exact trueTyped.2 lane elem defined
          | false => exact falseTyped.2 lane elem defined

theorem choose_whole_has_vt (truth : Option Bool) {trueVal falseVal : Value R}
    (trueTyped : HasVT vt trueVal) (falseTyped : HasVT vt falseVal) :
    HasVT vt (chooseWhole truth vt trueVal falseVal) := by
  cases truth with
  | none => exact undefined_has_vt vt
  | some truth =>
      cases truth with
      | true => exact trueTyped
      | false => exact falseTyped

end Values

section Soundness

theorem scalar_type_idem (vt : MVT) : getScalarType (getScalarType vt) = getScalarType vt := by
  cases vt <;> rfl

/-- A scalar of the element type of a vector is an element of it. -/
theorem lane_of_scalar {vt scalarVT : MVT} (same : scalarVT = getScalarType vt)
    {value : Option (Elem R)} (typed : HasVT scalarVT (.scalar value)) :
    ElemHasVT (getScalarType vt) value := by
  have elem := typed.2
  rw [same, scalar_type_idem] at elem
  exact elem

theorem absent_has_vt (vt : MVT) : ElemHasVT vt (none : Option (Elem R)) := by
  intro elem absent
  cases absent

theorem append_has_vt {vt : MVT} {left right : Lanes R} (leftTyped : ∀ lane, ElemHasVT vt (left lane))
    (rightTyped : ∀ lane, ElemHasVT vt (right lane)) (position : Fin (16 + 16)) :
    ElemHasVT vt (Fin.append left right position) := by
  induction position using Fin.addCases with
  | left lane =>
      rw [Fin.append_left]
      exact leftTyped lane
  | right lane =>
      rw [Fin.append_right]
      exact rightTyped lane

theorem extend_has_vt (value : Value R) : HasVT .v16i32 (value.extend .v16i32) := by
  cases value with
  | scalar value => exact undefined_has_vt .v16i32
  | vector lanes =>
      refine ⟨rfl, ?_⟩
      intro lane elem defined
      rw [Option.bind_eq_some_iff] at defined
      obtain ⟨source, -, extended⟩ := defined
      cases source with
      | bit value =>
          cases extended
          rfl
      | _ => cases extended

theorem mask_compare_has_vt [LinearOrder R] (id : Intrinsic) (left right : Value R) :
    HasVT .i32 (maskCompare id left right) := by
  cases left with
  | scalar value => exact ⟨rfl, absent_has_vt _⟩
  | vector leftLanes =>
      cases right with
      | scalar value => exact ⟨rfl, absent_has_vt _⟩
      | vector rightLanes =>
          refine ⟨rfl, ?_⟩
          intro elem defined
          cases defined
          rfl

variable [LinearOrder R] {env : Env R}

theorem denote_has_vt (typedEnv : TypedEnv env) {node : Node R} (typed : WellTyped node) :
    HasVT node.vt (denote env node) := by
  induction node with
  | operand vt index => exact typedEnv vt index
  | constant vt value =>
      have word : vt = .i32 := typed
      rw [word]
      refine ⟨rfl, ?_⟩
      intro elem defined
      cases defined
      rfl
  | constantFP value =>
      refine ⟨rfl, ?_⟩
      intro elem defined
      cases defined
      rfl
  | undef vt => exact undefined_has_vt vt
  | buildVector vt elems induction =>
      refine ⟨typed.1, ?_⟩
      intro lane
      have elem := induction lane (typed.2 lane).2
      dsimp only
      split
      · rename_i value known
        rw [known] at elem
        exact lane_of_scalar (typed.2 lane).1 elem
      · exact absent_has_vt _
  | scalarToVector vt scalar induction =>
      obtain ⟨vector, scalarVT, scalarTyped⟩ := typed
      have elem := induction scalarTyped
      unfold denote
      split
      · rename_i value known
        rw [known] at elem
        refine ⟨vector, ?_⟩
        intro lane
        dsimp only
        split
        · exact lane_of_scalar scalarVT elem
        · exact absent_has_vt _
      · exact undefined_has_vt vt
  | insertVectorElt vt vector scalar index vectorInduction scalarInduction indexInduction =>
      obtain ⟨vectorVT, scalarVT, indexVT, vectorTyped, scalarTyped, indexTyped⟩ := typed
      have whole := vectorInduction vectorTyped
      have elem := scalarInduction scalarTyped
      unfold denote
      split
      · rename_i lanes value position knownVector knownScalar knownIndex
        rw [knownVector, vectorVT] at whole
        rw [knownScalar] at elem
        refine ⟨whole.1, ?_⟩
        intro lane
        dsimp only
        split
        · exact lane_of_scalar scalarVT elem
        · exact whole.2 lane
      · exact undefined_has_vt vt
  | vectorShuffle vt left right mask leftInduction rightInduction =>
      obtain ⟨leftVT, rightVT, leftTyped, rightTyped⟩ := typed
      have first := leftInduction leftTyped
      have second := rightInduction rightTyped
      unfold denote
      split
      · rename_i leftLanes rightLanes knownLeft knownRight
        rw [knownLeft, leftVT] at first
        rw [knownRight, rightVT] at second
        refine ⟨first.1, ?_⟩
        intro lane
        exact append_has_vt first.2 second.2 (mask lane)
      · exact undefined_has_vt vt
  | setcc vt left right cc leftInduction rightInduction =>
      obtain ⟨compare, same, leftTyped, rightTyped⟩ := typed
      exact zip_with_has_vt (fun leftElem rightElem => compare_has_vt compare _) compare.2
        (leftInduction leftTyped)
  | select vt cond trueVal falseVal condInduction trueInduction falseInduction =>
      obtain ⟨-, trueVT, falseVT, -, trueTyped, falseTyped⟩ := typed
      unfold denote
      split
      · exact choose_whole_has_vt _ (trueVT ▸ trueInduction trueTyped)
          (falseVT ▸ falseInduction falseTyped)
      · exact undefined_has_vt vt
  | selectCC vt left right trueVal falseVal cc leftInduction rightInduction trueInduction
      falseInduction =>
      obtain ⟨-, -, trueVT, falseVT, -, -, trueTyped, falseTyped⟩ := typed
      unfold denote
      split
      · exact choose_whole_has_vt _ (trueVT ▸ trueInduction trueTyped)
          (falseVT ▸ falseInduction falseTyped)
      · exact choose_lanes_has_vt _ (trueVT ▸ trueInduction trueTyped)
          (falseVT ▸ falseInduction falseTyped)
      · exact undefined_has_vt vt
  | vselect vt cond trueVal falseVal condInduction trueInduction falseInduction =>
      obtain ⟨-, trueVT, falseVT, -, trueTyped, falseTyped⟩ := typed
      unfold denote
      split
      · exact choose_lanes_has_vt _ (trueVT ▸ trueInduction trueTyped)
          (falseVT ▸ falseInduction falseTyped)
      · exact undefined_has_vt vt
  | xor vt left right leftInduction rightInduction =>
      obtain ⟨word, leftVT, -, leftTyped, -⟩ := typed
      have operation (leftElem rightElem : Elem R) :
          ElemHasVT (getScalarType vt) (xorElem leftElem rightElem) := by
        rw [word]
        intro elem defined
        cases leftElem with
        | int left =>
            cases rightElem with
            | int right =>
                cases defined
                rfl
            | _ => cases defined
        | _ => cases defined
      exact zip_with_has_vt operation (congrArg MVT.isVector leftVT.symm) (leftInduction leftTyped)
  | signExtend vt source induction =>
      have wide : vt = .v16i32 := typed.1
      rw [wide]
      exact extend_has_vt _
  | signExtendInReg vt source induction =>
      have wide : vt = .v16i32 := typed.1
      rw [wide]
      exact extend_has_vt _
  | floatCompare op vt left right leftInduction rightInduction =>
      obtain ⟨compare, same, leftTyped, rightTyped⟩ := typed
      exact zip_with_has_vt (fun leftElem rightElem => compare_has_vt compare _) compare.2
        (leftInduction leftTyped)
  | splat vt scalar induction =>
      obtain ⟨vector, scalarVT, scalarTyped⟩ := typed
      have elem := induction scalarTyped
      unfold denote
      split
      · rename_i value known
        rw [known] at elem
        exact ⟨vector, fun lane => lane_of_scalar scalarVT elem⟩
      · exact undefined_has_vt vt
  | intrinsicWoChain vt id left right leftInduction rightInduction =>
      have word : vt = .i32 := typed.1
      rw [word]
      exact mask_compare_has_vt id _ _
  | selCondResult vt pred trueVal falseVal predInduction trueInduction falseInduction =>
      obtain ⟨-, trueVT, falseVT, -, trueTyped, falseTyped⟩ := typed
      unfold denote
      split
      · exact choose_has_vt _ (trueVT ▸ trueInduction trueTyped)
          (falseVT ▸ falseInduction falseTyped)
      · exact undefined_has_vt vt

end Soundness

end NaplesPU.SelectionTypes
