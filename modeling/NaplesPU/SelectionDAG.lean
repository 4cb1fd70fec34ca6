import Mathlib.Data.BitVec
import NaplesPU.Lib.Comparison
import NaplesPU.Lib.Lanes
import NaplesPU.OperationActions

/-!
Nodes of the selection graph and their values. A node that the modelled functions
do not look into is an operand of a given type. A value may be undefined, lane by
lane in a vector, and a lowering may only replace what is undefined. Floating-point
numbers are the elements of a linear order.
-/

namespace NaplesPU.SelectionDAG

open Comparison OperationActions

abbrev Word := BitVec 32

/-- The codes of `ISD::CondCode`. -/
inductive CondCode where
  | SETFALSE | SETOEQ | SETOGT | SETOGE | SETOLT | SETOLE | SETONE | SETO
  | SETUO | SETUEQ | SETUGT | SETUGE | SETULT | SETULE | SETUNE | SETTRUE
  | SETFALSE2 | SETEQ | SETGT | SETGE | SETLT | SETLE | SETNE | SETTRUE2
deriving DecidableEq, Repr

def CondCode.trueOn : CondCode → List Relation
  | .SETFALSE | .SETFALSE2 => []
  | .SETOEQ | .SETEQ => [.equal]
  | .SETOGT | .SETGT => [.greater]
  | .SETOGE | .SETGE => [.greater, .equal]
  | .SETOLT | .SETLT => [.less]
  | .SETOLE | .SETLE => [.less, .equal]
  | .SETONE | .SETNE => [.less, .greater]
  | .SETO => [.less, .greater, .equal]
  | .SETUO => [.unordered]
  | .SETUEQ => [.unordered, .equal]
  | .SETUGT => [.unordered, .greater]
  | .SETUGE => [.unordered, .greater, .equal]
  | .SETULT => [.unordered, .less]
  | .SETULE => [.unordered, .less, .equal]
  | .SETUNE => [.unordered, .less, .greater]
  | .SETTRUE | .SETTRUE2 => [.unordered, .less, .greater, .equal]

def CondCode.holds (cc : CondCode) (relation : Relation) : Bool := relation ∈ cc.trueOn

/-- The codes whose result is undefined on a value that is not a number. -/
def CondCode.dontCare : CondCode → Bool
  | .SETEQ | .SETGT | .SETGE | .SETLT | .SETLE | .SETNE => true
  | _ => false

/-- The codes that are true on a value that is not a number. -/
def CondCode.isUnordered : CondCode → Bool
  | .SETUEQ | .SETUGT | .SETUGE | .SETULT | .SETULE | .SETUNE => true
  | _ => false

/-- The codes used on integers; the unordered ones compare without a sign. -/
def CondCode.forIntegers : CondCode → Bool
  | .SETEQ | .SETNE | .SETLT | .SETLE | .SETGT | .SETGE
  | .SETULT | .SETULE | .SETUGT | .SETUGE => true
  | _ => false

def CondCode.alwaysFolded : CondCode → Bool
  | .SETFALSE | .SETFALSE2 | .SETTRUE | .SETTRUE2 => true
  | _ => false

/-- `getSetCCSwappedOperands`. -/
def CondCode.swapped : CondCode → CondCode
  | .SETOGT => .SETOLT
  | .SETOGE => .SETOLE
  | .SETOLT => .SETOGT
  | .SETOLE => .SETOGE
  | .SETUGT => .SETULT
  | .SETUGE => .SETULE
  | .SETULT => .SETUGT
  | .SETULE => .SETUGE
  | .SETGT => .SETLT
  | .SETGE => .SETLE
  | .SETLT => .SETGT
  | .SETLE => .SETGE
  | cc => cc

inductive Elem (R : Type) where
  | int (value : Word)
  | float (value : FloatValue R)
  | bit (value : Bool)

def Elem.vt {R : Type} : Elem R → MVT
  | .int _ => .i32
  | .float _ => .f32
  | .bit _ => .i1

/-- The comparisons of `NaplesPUISD`, which the hardware has. -/
inductive FloatCompare where
  | FGT | FGE | FLT | FLE | FEQ | FNE
deriving DecidableEq, Repr

def FloatCompare.code : FloatCompare → CondCode
  | .FGT => .SETOGT
  | .FGE => .SETOGE
  | .FLT => .SETOLT
  | .FLE => .SETOLE
  | .FEQ => .SETOEQ
  | .FNE => .SETONE

inductive Intrinsic where
  | npu_mask_cmpf32_eq | npu_mask_cmpf32_ne | npu_mask_cmpf32_gt
  | npu_mask_cmpf32_ge | npu_mask_cmpf32_lt | npu_mask_cmpf32_le
  | npu_mask_cmpi32_eq | npu_mask_cmpi32_ne | npu_mask_cmpi32_ugt | npu_mask_cmpi32_sgt
  | npu_mask_cmpi32_uge | npu_mask_cmpi32_sge | npu_mask_cmpi32_ult | npu_mask_cmpi32_slt
  | npu_mask_cmpi32_ule | npu_mask_cmpi32_sle
deriving DecidableEq, Repr

/-- What the instruction of an intrinsic compares for, as its scalar form. -/
def Intrinsic.code : Intrinsic → CondCode
  | .npu_mask_cmpf32_eq => .SETOEQ
  | .npu_mask_cmpf32_ne => .SETONE
  | .npu_mask_cmpf32_gt => .SETOGT
  | .npu_mask_cmpf32_ge => .SETOGE
  | .npu_mask_cmpf32_lt => .SETOLT
  | .npu_mask_cmpf32_le => .SETOLE
  | .npu_mask_cmpi32_eq => .SETEQ
  | .npu_mask_cmpi32_ne => .SETNE
  | .npu_mask_cmpi32_ugt => .SETUGT
  | .npu_mask_cmpi32_sgt => .SETGT
  | .npu_mask_cmpi32_uge => .SETUGE
  | .npu_mask_cmpi32_sge => .SETGE
  | .npu_mask_cmpi32_ult => .SETULT
  | .npu_mask_cmpi32_slt => .SETLT
  | .npu_mask_cmpi32_ule => .SETULE
  | .npu_mask_cmpi32_sle => .SETLE

def Intrinsic.operandVT : Intrinsic → MVT
  | .npu_mask_cmpf32_eq | .npu_mask_cmpf32_ne | .npu_mask_cmpf32_gt
  | .npu_mask_cmpf32_ge | .npu_mask_cmpf32_lt | .npu_mask_cmpf32_le => .v16f32
  | _ => .v16i32

inductive Node (R : Type) where
  | operand (vt : MVT) (index : Nat)
  | constant (vt : MVT) (value : Word)
  | constantFP (value : FloatValue R)
  | undef (vt : MVT)
  | buildVector (vt : MVT) (elems : Fin 16 → Node R)
  | scalarToVector (vt : MVT) (scalar : Node R)
  | insertVectorElt (vt : MVT) (vector scalar index : Node R)
  | vectorShuffle (vt : MVT) (left right : Node R) (mask : Fin 16 → Fin 32)
  | setcc (vt : MVT) (left right : Node R) (cc : CondCode)
  | select (vt : MVT) (cond trueVal falseVal : Node R)
  | selectCC (vt : MVT) (left right trueVal falseVal : Node R) (cc : CondCode)
  | vselect (vt : MVT) (cond trueVal falseVal : Node R)
  | xor (vt : MVT) (left right : Node R)
  | signExtend (vt : MVT) (source : Node R)
  | signExtendInReg (vt : MVT) (source : Node R)
  | floatCompare (op : FloatCompare) (vt : MVT) (left right : Node R)
  | splat (vt : MVT) (scalar : Node R)
  | intrinsicWoChain (vt : MVT) (id : Intrinsic) (left right : Node R)
  | selCondResult (vt : MVT) (pred trueVal falseVal : Node R)

/-- `getValueType`. -/
def Node.vt {R : Type} : Node R → MVT
  | .constantFP _ => .f32
  | .operand vt _ | .constant vt _ | .undef vt | .buildVector vt _
  | .scalarToVector vt _ | .insertVectorElt vt _ _ _ | .vectorShuffle vt _ _ _
  | .setcc vt _ _ _ | .select vt _ _ _ | .selectCC vt _ _ _ _ _ | .vselect vt _ _ _
  | .xor vt _ _ | .signExtend vt _ | .signExtendInReg vt _ | .floatCompare _ vt _ _
  | .splat vt _ | .intrinsicWoChain vt _ _ _ | .selCondResult vt _ _ _ => vt

section Values

variable {R : Type}

abbrev Lanes (R : Type) := Fin 16 → Option (Elem R)

/-- A value, of which `none` is an undefined scalar or lane. -/
inductive Value (R : Type) where
  | scalar (value : Option (Elem R))
  | vector (lanes : Lanes R)

def Value.undefined (vt : MVT) : Value R :=
  if vt.isVector then .vector fun _ => none else .scalar none

/-- What a comparison of the given result type has for a truth value: sixteen ones in a scalar,
all ones in a lane. -/
def boolElem (vt : MVT) (truth : Bool) : Elem R :=
  match vt with
  | .v16i1 => .bit truth
  | .i32 => .int (if truth then 0xffff else 0)
  | _ => .int (if truth then -1 else 0)

def Value.zipWith (operation : Elem R → Elem R → Option (Elem R)) (vt : MVT) :
    Value R → Value R → Value R
  | .scalar left, .scalar right =>
      .scalar (left.bind fun leftElem => right.bind fun rightElem => operation leftElem rightElem)
  | .vector left, .vector right =>
      .vector fun lane => (left lane).bind fun leftElem =>
        (right lane).bind fun rightElem => operation leftElem rightElem
  | _, _ => .undefined vt

def xorElem : Elem R → Elem R → Option (Elem R)
  | .int left, .int right => some (.int (left ^^^ right))
  | _, _ => none

def extendElem : Elem R → Option (Elem R)
  | .bit value => some (.int (if value then -1 else 0))
  | _ => none

def Value.extend (vt : MVT) : Value R → Value R
  | .vector lanes => .vector fun lane => (lanes lane).bind extendElem
  | .scalar _ => .undefined vt

def maskOf (bits : Fin 16 → Bool) : Word := (Lanes.ofBits bits).setWidth 32

theorem mask_of_bit (bits : Fin 16 → Bool) (lane : Fin 16) :
    (maskOf bits).getLsbD lane = bits lane := by
  have inside : lane.val < 32 := by omega
  rw [maskOf, BitVec.getLsbD_setWidth, Lanes.of_bits_bit, decide_eq_true inside, Bool.true_and]

/-- The choice of a scalar by a word that is not zero, and of a lane by its bit. -/
def Value.choose (pred : Word) (vt : MVT) : Value R → Value R → Value R
  | .scalar trueVal, .scalar falseVal => .scalar (if pred ≠ 0 then trueVal else falseVal)
  | .vector trueVal, .vector falseVal =>
      .vector fun lane => if pred.getLsbD lane then trueVal lane else falseVal lane
  | _, _ => .undefined vt

def chooseLanes (truths : Fin 16 → Option Bool) (vt : MVT) : Value R → Value R → Value R
  | .vector trueVal, .vector falseVal =>
      .vector fun lane => (truths lane).bind fun truth =>
        if truth then trueVal lane else falseVal lane
  | _, _ => .undefined vt

def chooseWhole (truth : Option Bool) (vt : MVT) (trueVal falseVal : Value R) : Value R :=
  match truth with
  | some true => trueVal
  | some false => falseVal
  | none => .undefined vt

def nonzero : Elem R → Option Bool
  | .int value => some (value ≠ 0)
  | _ => none

variable [LinearOrder R]

def CondCode.truth (cc : CondCode) : Elem R → Elem R → Option Bool
  | .int left, .int right =>
      some (cc.holds (if cc.isUnordered then order left.toNat right.toNat
        else order left.toInt right.toInt))
  | .float left, .float right =>
      if cc.dontCare = true ∧ floatOrder left right = .unordered then none
      else some (cc.holds (floatOrder left right))
  | _, _ => none

def maskCompare (id : Intrinsic) : Value R → Value R → Value R
  | .vector left, .vector right =>
      .scalar (some (.int (maskOf fun lane =>
        ((left lane).bind fun leftElem => (right lane).bind fun rightElem =>
          id.code.truth leftElem rightElem).getD false)))
  | _, _ => .scalar none

abbrev Env (R : Type) := MVT → Nat → Value R

/-- The value of a node. Scalar comparisons give `0xffff` or zero. -/
def denote (env : Env R) : Node R → Value R
  | .operand vt index => env vt index
  | .constant _ value => .scalar (some (.int value))
  | .constantFP value => .scalar (some (.float value))
  | .undef vt => .undefined vt
  | .buildVector _ elems =>
      .vector fun lane =>
        match denote env (elems lane) with
        | .scalar value => value
        | .vector _ => none
  | .scalarToVector vt scalar =>
      match denote env scalar with
      | .scalar value => .vector fun lane => if lane = 0 then value else none
      | .vector _ => .undefined vt
  | .insertVectorElt vt vector scalar index =>
      match denote env vector, denote env scalar, denote env index with
      | .vector lanes, .scalar value, .scalar (some (.int position)) =>
          .vector fun lane => if lane.val = position.toNat then value else lanes lane
      | _, _, _ => .undefined vt
  | .vectorShuffle vt left right mask =>
      match denote env left, denote env right with
      | .vector leftLanes, .vector rightLanes =>
          .vector fun lane => (Fin.append leftLanes rightLanes) (mask lane)
      | _, _ => .undefined vt
  | .setcc vt left right cc =>
      Value.zipWith (fun leftElem rightElem => (cc.truth leftElem rightElem).map (boolElem vt)) vt
        (denote env left) (denote env right)
  | .select vt cond trueVal falseVal =>
      match denote env cond with
      | .scalar value =>
          chooseWhole (value.bind nonzero) vt (denote env trueVal) (denote env falseVal)
      | .vector _ => .undefined vt
  | .selectCC vt left right trueVal falseVal cc =>
      match denote env left, denote env right with
      | .scalar leftValue, .scalar rightValue =>
          chooseWhole (leftValue.bind fun leftElem => rightValue.bind fun rightElem =>
            cc.truth leftElem rightElem) vt (denote env trueVal) (denote env falseVal)
      | .vector leftLanes, .vector rightLanes =>
          chooseLanes (fun lane => (leftLanes lane).bind fun leftElem =>
            (rightLanes lane).bind fun rightElem => cc.truth leftElem rightElem) vt
            (denote env trueVal) (denote env falseVal)
      | _, _ => .undefined vt
  | .vselect vt cond trueVal falseVal =>
      match denote env cond with
      | .vector lanes =>
          chooseLanes (fun lane => (lanes lane).bind nonzero) vt (denote env trueVal)
            (denote env falseVal)
      | .scalar _ => .undefined vt
  | .xor vt left right => Value.zipWith xorElem vt (denote env left) (denote env right)
  | .signExtend vt source => (denote env source).extend vt
  | .signExtendInReg vt source => (denote env source).extend vt
  | .floatCompare op vt left right =>
      Value.zipWith (fun leftElem rightElem =>
        (op.code.truth leftElem rightElem).map (boolElem vt)) vt
        (denote env left) (denote env right)
  | .splat vt scalar =>
      match denote env scalar with
      | .scalar value => .vector fun _ => value
      | .vector _ => .undefined vt
  | .intrinsicWoChain _ id left right => maskCompare id (denote env left) (denote env right)
  | .selCondResult vt pred trueVal falseVal =>
      match denote env pred with
      | .scalar (some (.int word)) =>
          Value.choose word vt (denote env trueVal) (denote env falseVal)
      | _ => .undefined vt

end Values

section Construction

variable {R : Type}

/-- `getConstant`, which makes a vector of equal elements for a vector type. -/
def getConstant (vt : MVT) (value : Word) : Node R :=
  if vt.isVector then .buildVector vt fun _ => .constant .i32 value else .constant vt value

/-- The target leaves the contents of a boolean undefined, which counts as zero or one. -/
def getBoolConstant (truth : Bool) (vt : MVT) : Node R := getConstant vt (if truth then 1 else 0)

theorem get_constant_not_setcc {vt resultVT : MVT} {value : Word} {left right : Node R}
    {cc : CondCode} : getConstant vt value ≠ .setcc resultVT left right cc := by
  intro same
  rw [getConstant] at same
  split at same
  · cases same
  · cases same

variable [LinearOrder R]

/-- The truth value of a comparison of two constants; the inner `none` is an undefined one. -/
def constantTruth : Node R → Node R → CondCode → Option (Option Bool)
  | .constant _ left, .constant _ right, cc => some (cc.truth (.int left : Elem R) (.int right))
  | .constantFP left, .constantFP right, cc => some (cc.truth (.float left) (.float right))
  | _, _, _ => none

/-- What a comparison with constant operands is replaced by; a constant on the left side of a
floating-point comparison moves to the right. -/
def foldConstantOperands (vt : MVT) (left right : Node R) (cc : CondCode) : Option (Node R) :=
  match constantTruth left right cc with
  | some (some truth) => some (getBoolConstant truth vt)
  | some none => some (.undef vt)
  | none =>
      match left with
      | .constantFP _ => some (.setcc vt right left cc.swapped)
      | _ => none

def foldSetCC (vt : MVT) (left right : Node R) (cc : CondCode) : Option (Node R) :=
  match cc with
  | .SETFALSE | .SETFALSE2 => some (getBoolConstant false vt)
  | .SETTRUE | .SETTRUE2 => some (getBoolConstant true vt)
  | _ => foldConstantOperands vt left right cc

def constantElems : Node R → Option (Fin 16 → Node R)
  | .buildVector _ elems => some elems
  | .undef vt => some fun _ => .undef vt
  | _ => none

def foldElement (left right : Node R) (cc : CondCode) : Option (Node R) :=
  match foldSetCC .i1 left right cc with
  | some (.constant _ value) => some (.constant .i32 (if value = 0 then 0 else -1))
  | some (.undef _) => some (.undef .i32)
  | _ => none

/-- `FoldConstantVectorArithmetic` on a comparison: every lane must fold. -/
def foldConstantVector (vt : MVT) (left right : Node R) (cc : CondCode) : Option (Node R) :=
  match constantElems left, constantElems right with
  | some leftElems, some rightElems =>
      if vt.isVector ∧ ∀ lane, (foldElement (leftElems lane) (rightElems lane) cc).isSome then
        some (.buildVector vt fun lane =>
          (foldElement (leftElems lane) (rightElems lane) cc).getD (.undef vt))
      else none
  | _, _ => none

/-- `getSetCC`, and `getNode` on a comparison. -/
def getSetCC (vt : MVT) (left right : Node R) (cc : CondCode) : Node R :=
  match foldSetCC vt left right cc with
  | some folded => folded
  | none => (foldConstantVector vt left right cc).getD (.setcc vt left right cc)

theorem truth_swapped (cc : CondCode) (left right : FloatValue R) :
    cc.swapped.truth (.float right) (.float left) = cc.truth (.float left) (.float right) := by
  have swapped : cc.swapped.dontCare = cc.dontCare := by
    cases cc <;> rfl
  have unordered : floatOrder right left = .unordered ↔ floatOrder left right = .unordered := by
    rw [float_order_unordered_iff, float_order_unordered_iff, or_comm]
  have holds (relation : Relation) : cc.swapped.holds relation.swap = cc.holds relation := by
    cases cc <;> cases relation <;> rfl
  simp only [CondCode.truth, swapped, unordered]
  rw [float_order_swap left right, holds]

theorem fold_constant_operands_cases {vt : MVT} {left right folded : Node R} {cc : CondCode}
    (folds : foldConstantOperands vt left right cc = some folded) :
    (∃ value, folded = getConstant vt value) ∨ folded = .undef vt ∨
      ∃ value, left = .constantFP value ∧ folded = .setcc vt right left cc.swapped := by
  unfold foldConstantOperands at folds
  split at folds
  · exact Or.inl ⟨_, (Option.some.inj folds).symm⟩
  · exact Or.inr (Or.inl (Option.some.inj folds).symm)
  · split at folds
    · exact Or.inr (Or.inr ⟨_, rfl, (Option.some.inj folds).symm⟩)
    · cases folds

/-- What folding leaves: a constant, nothing defined, or the comparison with its operands
swapped. -/
theorem fold_set_cc_cases {vt : MVT} {left right folded : Node R} {cc : CondCode}
    (folds : foldSetCC vt left right cc = some folded) :
    (∃ value, folded = getConstant vt value) ∨ folded = .undef vt ∨
      ∃ value, left = .constantFP value ∧ folded = .setcc vt right left cc.swapped := by
  cases cc with
  | SETFALSE | SETFALSE2 | SETTRUE | SETTRUE2 => exact Or.inl ⟨_, (Option.some.inj folds).symm⟩
  | _ => exact fold_constant_operands_cases folds

theorem fold_set_cc_of_not_folded {cc : CondCode} (notFolded : cc.alwaysFolded = false) (vt : MVT)
    (left right : Node R) :
    foldSetCC vt left right cc = foldConstantOperands vt left right cc := by
  cases cc with
  | SETFALSE | SETFALSE2 | SETTRUE | SETTRUE2 => cases notFolded
  | _ => rfl

/-- A comparison whose left operand is no floating-point constant is folded or kept. -/
theorem get_set_cc_kept {vt resultVT : MVT} {left right keptLeft keptRight : Node R}
    {cc keptCode : CondCode} (noFloat : left.vt ≠ .f32)
    (kept : getSetCC vt left right cc = .setcc resultVT keptLeft keptRight keptCode) :
    resultVT = vt ∧ keptLeft = left ∧ keptRight = right ∧ keptCode = cc := by
  unfold getSetCC at kept
  split at kept
  · rename_i folded folds
    rcases fold_set_cc_cases folds with constant | undefined | swapped
    · obtain ⟨value, rfl⟩ := constant
      exact absurd kept get_constant_not_setcc
    · rw [undefined] at kept
      cases kept
    · obtain ⟨value, rfl, -⟩ := swapped
      exact absurd rfl noFloat
  · unfold foldConstantVector at kept
    split at kept
    · split at kept
      · cases kept
      · cases kept
        exact ⟨rfl, rfl, rfl, rfl⟩
    · cases kept
      exact ⟨rfl, rfl, rfl, rfl⟩

end Construction

end NaplesPU.SelectionDAG
