import Mathlib.Algebra.Order.Ring.Rat
import NaplesPU.SelectionTypes

/-!
The lowering of vector shuffles. Only the first operand is looked at: where it is
built around a scalar, all lanes of the result are that scalar, whatever lanes the
mask selects.
-/

namespace NaplesPU.ShuffleLowering

open OperationActions SelectionDAG SelectionTypes

variable {R : Type}

section Definitions

/-- The node of a vector of equal lanes; `none` is the empty value. -/
def checkSplat (splatVT : MVT) (opScalar : Node R) : Option (Node R) :=
  if splatVT = .v16i32 ∨ splatVT = .v16f32 then some (.splat splatVT opScalar) else none

def isZero : Node R → Bool
  | .constant _ value => value = 0
  | _ => false

def lowerSCALAR_TO_VECTOR (vt : MVT) (scalar : Node R) : Option (Node R) := checkSplat vt scalar

/-- The mask of a splat of the first lane. -/
def isShuffleMaskLegal (mask : List Int) : Bool := mask.length = 16 && mask.all (· = 0)

/-- The mask and the second operand are not read. -/
def lowerVECTOR_SHUFFLE (vt : MVT) (left _right : Node R) (_mask : Fin 16 → Fin 32) :
    Option (Node R) :=
  match left with
  | .insertVectorElt _ _ scalar index => if isZero index then checkSplat vt scalar else none
  | .scalarToVector _ scalar => checkSplat vt scalar
  | _ => none

variable [LinearOrder R] (env : Env R)

def concatenated (left right : Node R) (position : Fin 32) : Option (Elem R) :=
  match denote env left, denote env right with
  | .vector leftLanes, .vector rightLanes => (Fin.append leftLanes rightLanes) position
  | _, _ => none

/-- Every lane whose source is defined has the value of its source. -/
def ShufflesRight (left right : Node R) (mask : Fin 16 → Fin 32) (lowered : Node R) : Prop :=
  ∃ lanes, denote env lowered = .vector lanes ∧
    ∀ lane, ElemRefines (concatenated env left right (mask lane)) (lanes lane)

/-- Every lane that is selected is undefined or the first lane of the first operand. -/
def SelectsFirst (left right : Node R) (mask : Fin 16 → Fin 32) : Prop :=
  ∀ lane, ElemRefines (concatenated env left right (mask lane)) (concatenated env left right 0)

end Definitions

section Splats

variable {vt : MVT} {scalar lowered : Node R}

theorem check_splat_some (splat : checkSplat vt scalar = some lowered) :
    (vt = .v16i32 ∨ vt = .v16f32) ∧ lowered = .splat vt scalar := by
  rw [checkSplat] at splat
  split at splat
  · rename_i known
    exact ⟨known, (Option.some.inj splat).symm⟩
  · cases splat

theorem splat_is_vector (known : vt = .v16i32 ∨ vt = .v16f32) :
    vt.isVector = true ∧ (getScalarType vt).isVector = false := by
  rcases known with rfl | rfl <;> exact ⟨rfl, rfl⟩

variable [LinearOrder R] {env : Env R}

theorem splat_value (typedEnv : TypedEnv env) (known : vt = .v16i32 ∨ vt = .v16f32)
    (scalarVT : scalar.vt = getScalarType vt) (typed : WellTyped scalar) :
    ∃ value, denote env scalar = .scalar value ∧
      denote env (.splat vt scalar) = .vector fun _ => value := by
  have elemVT : scalar.vt.isVector = false := by
    rw [scalarVT]
    exact (splat_is_vector known).2
  obtain ⟨value, scalarKnown, -⟩ := scalar_of_has_vt (denote_has_vt typedEnv typed) elemVT
  refine ⟨value, scalarKnown, ?_⟩
  rw [denote, scalarKnown]

/-- A scalar in the first lane is the same scalar in all lanes, which are undefined but the
first. -/
theorem scalar_to_vector_refines (typedEnv : TypedEnv env)
    (typed : WellTyped (.scalarToVector vt scalar))
    (handled : lowerSCALAR_TO_VECTOR vt scalar = some lowered) :
    WellTyped lowered ∧ Refines (denote env (.scalarToVector vt scalar)) (denote env lowered) := by
  obtain ⟨known, rfl⟩ := check_splat_some handled
  obtain ⟨vector, scalarVT, scalarTyped⟩ := typed
  obtain ⟨value, scalarKnown, splatKnown⟩ := splat_value typedEnv known scalarVT scalarTyped
  refine ⟨⟨vector, scalarVT, scalarTyped⟩, ?_⟩
  rw [splatKnown, denote, scalarKnown]
  intro lane elem defined
  dsimp only at defined
  split at defined
  · exact defined
  · cases defined

end Splats

section Shuffles

variable {vt : MVT} {left right lowered : Node R} {mask : Fin 16 → Fin 32}

theorem shuffle_scalar (handled : lowerVECTOR_SHUFFLE vt left right mask = some lowered) :
    ∃ scalar, checkSplat vt scalar = some lowered ∧
      ((∃ vectorVT vector indexVT,
          left = .insertVectorElt vectorVT vector scalar (.constant indexVT 0)) ∨
        ∃ vectorVT, left = .scalarToVector vectorVT scalar) := by
  unfold lowerVECTOR_SHUFFLE at handled
  split at handled
  · rename_i vectorVT vector scalar index
    split at handled
    · rename_i zero
      cases index with
      | constant indexVT value =>
          have isNull : value = 0 := of_decide_eq_true zero
          rw [isNull]
          exact ⟨scalar, handled, Or.inl ⟨vectorVT, vector, indexVT, rfl⟩⟩
      | _ => cases zero
    · cases handled
  · rename_i vectorVT scalar
    exact ⟨scalar, handled, Or.inr ⟨vectorVT, rfl⟩⟩
  · cases handled

variable [LinearOrder R] {env : Env R}

theorem concatenated_first {leftLanes rightLanes : Lanes R}
    (leftKnown : denote env left = .vector leftLanes)
    (rightKnown : denote env right = .vector rightLanes) :
    concatenated env left right 0 = leftLanes 0 := by
  rw [concatenated, leftKnown, rightKnown]
  exact Fin.append_left leftLanes rightLanes 0

theorem shuffle_splats_first (typedEnv : TypedEnv env)
    (typed : WellTyped (.vectorShuffle vt left right mask))
    (handled : lowerVECTOR_SHUFFLE vt left right mask = some lowered) :
    WellTyped lowered ∧
      denote env lowered = .vector fun _ => concatenated env left right 0 := by
  obtain ⟨scalar, splat, built⟩ := shuffle_scalar handled
  obtain ⟨known, rfl⟩ := check_splat_some splat
  obtain ⟨leftVT, rightVT, leftTyped, rightTyped⟩ := typed
  have vector := (splat_is_vector known).1
  obtain ⟨leftLanes, leftKnown, -⟩ :=
    vector_of_has_vt (denote_has_vt typedEnv leftTyped) (leftVT ▸ vector)
  obtain ⟨rightLanes, rightKnown, -⟩ :=
    vector_of_has_vt (denote_has_vt typedEnv rightTyped) (rightVT ▸ vector)
  rw [concatenated_first leftKnown rightKnown]
  rcases built with ⟨vectorVT, source, indexVT, rfl⟩ | ⟨vectorVT, rfl⟩
  · have sameVT : vectorVT = vt := leftVT
    obtain ⟨sourceVT, scalarVT, -, sourceTyped, scalarTyped, -⟩ := leftTyped
    rw [sameVT] at sourceVT scalarVT
    obtain ⟨value, scalarKnown, splatKnown⟩ := splat_value typedEnv known scalarVT scalarTyped
    obtain ⟨sourceLanes, sourceKnown, -⟩ :=
      vector_of_has_vt (denote_has_vt typedEnv sourceTyped) (sourceVT ▸ vector)
    refine ⟨⟨vector, scalarVT, scalarTyped⟩, ?_⟩
    rw [denote, sourceKnown, scalarKnown, denote, Value.vector.injEq] at leftKnown
    rw [splatKnown, ← leftKnown]
    rfl
  · have sameVT : vectorVT = vt := leftVT
    obtain ⟨-, scalarVT, scalarTyped⟩ := leftTyped
    rw [sameVT] at scalarVT
    obtain ⟨value, scalarKnown, splatKnown⟩ := splat_value typedEnv known scalarVT scalarTyped
    refine ⟨⟨vector, scalarVT, scalarTyped⟩, ?_⟩
    rw [denote, scalarKnown, Value.vector.injEq] at leftKnown
    rw [splatKnown, ← leftKnown]
    rfl

/-- A shuffle is lowered to its value exactly if its mask selects nothing but the first lane of
the first operand, lanes of the same value and undefined ones. -/
theorem vector_shuffle_iff (typedEnv : TypedEnv env)
    (typed : WellTyped (.vectorShuffle vt left right mask))
    (handled : lowerVECTOR_SHUFFLE vt left right mask = some lowered) :
    ShufflesRight env left right mask lowered ↔ SelectsFirst env left right mask := by
  have value := (shuffle_splats_first typedEnv typed handled).2
  constructor
  · intro shuffles lane
    obtain ⟨lanes, known, sources⟩ := shuffles
    rw [value, Value.vector.injEq] at known
    have source := sources lane
    rw [← known] at source
    exact source
  · intro first
    exact ⟨_, value, first⟩

/-- The property is refinement of the value of the shuffle node. -/
theorem shuffles_right_iff_refines {leftLanes rightLanes : Lanes R}
    (leftKnown : denote env left = .vector leftLanes)
    (rightKnown : denote env right = .vector rightLanes) :
    ShufflesRight env left right mask lowered ↔
      Refines (denote env (.vectorShuffle vt left right mask)) (denote env lowered) := by
  have source (position : Fin 32) :
      concatenated env left right position = (Fin.append leftLanes rightLanes) position := by
    rw [concatenated, leftKnown, rightKnown]
  rw [denote, leftKnown, rightKnown]
  constructor
  · intro shuffles
    obtain ⟨lanes, known, sources⟩ := shuffles
    rw [known]
    intro lane
    have defined := sources lane
    rw [source] at defined
    exact defined
  · intro refines
    cases known : denote env lowered with
    | scalar value =>
        rw [known] at refines
        exact refines.elim
    | vector lanes =>
        rw [known] at refines
        refine ⟨lanes, known, ?_⟩
        intro lane
        rw [source]
        exact refines lane

theorem legal_shuffle_right (typedEnv : TypedEnv env)
    (typed : WellTyped (.vectorShuffle vt left right mask))
    (handled : lowerVECTOR_SHUFFLE vt left right mask = some lowered)
    (legal : isShuffleMaskLegal (List.ofFn fun lane => ((mask lane).val : Int)) = true) :
    ShufflesRight env left right mask lowered := by
  rw [isShuffleMaskLegal, Bool.and_eq_true, List.all_eq_true] at legal
  apply (vector_shuffle_iff typedEnv typed handled).mpr
  intro lane
  have zero := legal.2 _ (List.mem_ofFn.mpr ⟨lane, rfl⟩)
  have first : mask lane = 0 := by
    apply Fin.ext
    exact Int.ofNat_eq_zero.mp (of_decide_eq_true zero)
  rw [first]
  exact elem_refines_refl _

end Shuffles

def zeroVectors : Env ℚ
  | .v16i32, _ => .vector fun _ => some (.int 0)
  | vt, _ => .undefined vt

theorem zero_vectors_typed : TypedEnv zeroVectors := by
  intro vt index
  cases vt with
  | v16i32 =>
      refine ⟨rfl, ?_⟩
      intro lane elem defined
      cases defined
      rfl
  | _ => exact undefined_has_vt _

def sevenFirst : Node ℚ :=
  .insertVectorElt .v16i32 (.operand .v16i32 0) (.constant .i32 7) (.constant .i32 0)

def splatOfSeven : Node ℚ := .splat .v16i32 (.constant .i32 7)

def alternating (lane : Fin 16) : Fin 32 := if lane.val % 2 = 0 then 1 else 0

theorem seven_first_typed (mask : Fin 16 → Fin 32) :
    WellTyped (.vectorShuffle .v16i32 sevenFirst (.undef .v16i32) mask) :=
  ⟨rfl, rfl, ⟨rfl, rfl, rfl, trivial, rfl, rfl⟩, trivial⟩

theorem first_lane_splatted :
    ShufflesRight zeroVectors sevenFirst (.undef .v16i32) (fun _ => 0) splatOfSeven ↔
      SelectsFirst zeroVectors sevenFirst (.undef .v16i32) fun _ => 0 :=
  vector_shuffle_iff zero_vectors_typed (seven_first_typed fun _ => 0) rfl

/-- The second lane is a zero, but the scalar of the first is splatted. -/
theorem second_lane_lost :
    ¬ ∀ (env : Env ℚ) (vt : MVT) (left right lowered : Node ℚ) (mask : Fin 16 → Fin 32),
      TypedEnv env → WellTyped (.vectorShuffle vt left right mask) →
      lowerVECTOR_SHUFFLE vt left right mask = some lowered →
      ShufflesRight env left right mask lowered := by
  intro always
  obtain ⟨lanes, known, sources⟩ := always zeroVectors .v16i32 sevenFirst (.undef .v16i32)
    splatOfSeven alternating zero_vectors_typed (seven_first_typed alternating) rfl
  have seven : denote zeroVectors splatOfSeven = .vector fun _ => some (.int 7) := rfl
  rw [seven, Value.vector.injEq] at known
  have zero : concatenated zeroVectors sevenFirst (.undef .v16i32) 1 = some (.int 0) := rfl
  have lane := sources 0 (.int 0) zero
  rw [← known, Option.some.injEq, Elem.int.injEq] at lane
  revert lane
  decide

end NaplesPU.ShuffleLowering
