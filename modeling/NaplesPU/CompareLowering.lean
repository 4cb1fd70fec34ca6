import Mathlib.Algebra.Order.Ring.Rat
import NaplesPU.SelectionDAG

/-!
The lowering of comparisons. The hardware has ordered comparisons only: a scalar
comparison that is true on a value that is not a number becomes the complement of
an ordered one, and a vector comparison becomes the selection between all ones and
zero by the lane mask of an intrinsic.
-/

namespace NaplesPU.CompareLowering

open Comparison OperationActions SelectionDAG

variable {R : Type}

section Definitions

/-- The operands of a comparison under a comparison of the target. -/
def morphSETCCNode (compare : FloatCompare) (vt : MVT) (left right : Node R) : Node R :=
  .floatCompare compare vt left right

/-- The negation of all sixteen bits that a scalar comparison sets. -/
def negateCompare (vt : MVT) (compare : Node R) : Node R :=
  .xor vt compare (.constant .i32 0xffff)

/-- Ordered comparisons are natively supported, and don't-care ones are converted to those. -/
def nativeCompare : CondCode → Option FloatCompare
  | .SETGT | .SETOGT => some .FGT
  | .SETGE | .SETOGE => some .FGE
  | .SETLT | .SETOLT => some .FLT
  | .SETLE | .SETOLE => some .FLE
  | .SETEQ | .SETOEQ => some .FEQ
  | .SETNE | .SETONE => some .FNE
  | _ => none

/-- The comparison whose inverse is the unordered one. -/
def complementCompare : CondCode → Option FloatCompare
  | .SETUEQ => some .FNE
  | .SETUGT => some .FLE
  | .SETUGE => some .FLT
  | .SETULT => some .FGE
  | .SETULE => some .FGT
  | .SETUNE => some .FEQ
  | _ => none

/-- The intrinsic of a vector comparison; `none` is the unreachable end. -/
def intrinsicForVectorCompare (cc : CondCode) (isFloat : Bool) : Option Intrinsic :=
  if isFloat then
    match cc with
    | .SETOEQ | .SETUEQ | .SETEQ => some .npu_mask_cmpf32_eq
    | .SETONE | .SETUNE | .SETNE => some .npu_mask_cmpf32_ne
    | .SETOGT | .SETUGT | .SETGT => some .npu_mask_cmpf32_gt
    | .SETOGE | .SETUGE | .SETGE => some .npu_mask_cmpf32_ge
    | .SETOLT | .SETULT | .SETLT => some .npu_mask_cmpf32_lt
    | .SETOLE | .SETULE | .SETLE => some .npu_mask_cmpf32_le
    | _ => none
  else
    match cc with
    | .SETUEQ | .SETEQ => some .npu_mask_cmpi32_eq
    | .SETUNE | .SETNE => some .npu_mask_cmpi32_ne
    | .SETUGT => some .npu_mask_cmpi32_ugt
    | .SETGT => some .npu_mask_cmpi32_sgt
    | .SETUGE => some .npu_mask_cmpi32_uge
    | .SETGE => some .npu_mask_cmpi32_sge
    | .SETULT => some .npu_mask_cmpi32_ult
    | .SETLT => some .npu_mask_cmpi32_slt
    | .SETULE => some .npu_mask_cmpi32_ule
    | .SETLE => some .npu_mask_cmpi32_sle
    | _ => none

def isFloatingPoint (vt : MVT) : Bool := vt = .f32 || vt = .v16f32

variable [LinearOrder R]

/-- `vt` is the type of the result; `none` is the unreachable end. -/
def lowerSETCC (vt : MVT) (left right : Node R) (cc : CondCode) : Option (Node R) :=
  if left.vt = .v16i1 then
    some (getSetCC .v16i1 (.signExtend .v16i32 left) (.signExtend .v16i32 right) cc)
  else if vt = .v16i32 then some (.signExtendInReg .v16i32 (getSetCC .v16i1 left right cc))
  else
    match cc with
    -- ordered equality of the first operand with itself
    | .SETO => some (.floatCompare .FEQ vt left left)
    | .SETUO => some (negateCompare vt (.floatCompare .FEQ vt left left))
    | _ =>
        match nativeCompare cc with
        | some compare => some (morphSETCCNode compare vt left right)
        | none =>
            (complementCompare cc).map fun compare =>
              negateCompare vt (morphSETCCNode compare vt left right)

/-- The expansion of a vector comparison; `none` is the empty value and the unreachable end. -/
def lowerSIGN_EXTEND_INREG : Node R → Option (Node R)
  | .signExtendInReg vt (.setcc _ left right cc) =>
      if vt = .v16i32 then
        (intrinsicForVectorCompare cc (isFloatingPoint left.vt)).map fun intrinsic =>
          let falseVal := .splat .v16i32 (.constant .i32 0)
          let trueVal := .splat .v16i32 (.constant .i32 (-1))
          let mask := .intrinsicWoChain .i32 intrinsic left right
          .selCondResult vt mask trueVal falseVal
      else none
  | _ => none

def lowerVectorCompare (left right : Node R) (cc : CondCode) : Option (Node R) :=
  (lowerSETCC .v16i32 left right cc).bind lowerSIGN_EXTEND_INREG

end Definitions

section Scalars

variable [LinearOrder R] (env : Env R)

/-- The word of a scalar comparison. -/
def maskWord (truth : Bool) : Word := if truth then 0xffff else 0

theorem mask_word_nonzero_iff (truth : Bool) : maskWord truth ≠ 0 ↔ truth = true := by
  cases truth <;> decide

theorem mask_word_negated (truth : Bool) : maskWord truth ^^^ 0xffff = maskWord !truth := by
  cases truth <;> rfl

theorem float_compare_truth (op : FloatCompare) (left right : FloatValue R) :
    op.code.truth (.float left) (.float right) =
      some (op.code.holds (floatOrder left right)) := by
  have defined : op.code.dontCare = false := by
    cases op <;> rfl
  rw [CondCode.truth, defined, if_neg (fun both => Bool.false_ne_true both.1)]

variable {left right : Node R} {a b : FloatValue R}

theorem denote_float_compare (leftValue : denote env left = .scalar (some (.float a)))
    (rightValue : denote env right = .scalar (some (.float b))) (op : FloatCompare) :
    denote env (.floatCompare op .i32 left right) =
      .scalar (some (.int (maskWord (op.code.holds (floatOrder a b))))) := by
  rw [denote, leftValue, rightValue]
  simp only [Value.zipWith, Option.bind_some, float_compare_truth, Option.map_some]
  rfl

theorem denote_negate {compare : Node R} {truth : Bool}
    (value : denote env compare = .scalar (some (.int (maskWord truth)))) :
    denote env (negateCompare .i32 compare) = .scalar (some (.int (maskWord !truth))) := by
  rw [negateCompare, denote, value, denote, ← mask_word_negated]
  rfl

theorem native_compare_holds {cc : CondCode} {op : FloatCompare}
    (native : nativeCompare cc = some op) (relation : Relation) :
    op.code.holds relation = cc.holds relation := by
  cases cc with
  | SETGT | SETGE | SETLT | SETLE | SETEQ | SETNE
  | SETOGT | SETOGE | SETOLT | SETOLE | SETOEQ | SETONE =>
      cases native
      rfl
  | _ => cases native

theorem complement_compare_holds {cc : CondCode} {op : FloatCompare}
    (complement : complementCompare cc = some op) (relation : Relation) :
    (!op.code.holds relation) = cc.holds relation := by
  cases cc with
  | SETUEQ | SETUGT | SETUGE | SETULT | SETULE | SETUNE =>
      cases complement
      cases relation <;> rfl
  | _ => cases complement

/-- What the lowered comparison compares with: for the two checks for a number, the first
operand itself. -/
def comparedWith (cc : CondCode) (a b : FloatValue R) : FloatValue R :=
  if cc = .SETO ∨ cc = .SETUO then a else b

/-- Every code is lowered to its own truth value on what is compared. -/
theorem lowered_scalar_value (float : left.vt = .f32)
    (leftValue : denote env left = .scalar (some (.float a)))
    (rightValue : denote env right = .scalar (some (.float b))) {cc : CondCode} {lowered : Node R}
    (handled : lowerSETCC .i32 left right cc = some lowered) :
    denote env lowered =
      .scalar (some (.int (maskWord (cc.holds (floatOrder a (comparedWith cc a b)))))) := by
  have scalar : left.vt ≠ .v16i1 := by
    rw [float]
    decide
  have checked := denote_float_compare env leftValue leftValue .FEQ
  unfold lowerSETCC at handled
  rw [if_neg scalar, if_neg (by decide)] at handled
  split at handled
  · cases handled
    have same : FloatCompare.FEQ.code.holds (floatOrder a a) =
        CondCode.SETO.holds (floatOrder a a) := by
      rw [float_order_self]
      split <;> rfl
    rw [comparedWith, if_pos (Or.inl rfl), ← same]
    exact checked
  · cases handled
    have inverse : (!FloatCompare.FEQ.code.holds (floatOrder a a)) =
        CondCode.SETUO.holds (floatOrder a a) := by
      rw [float_order_self]
      split <;> rfl
    rw [comparedWith, if_pos (Or.inr rfl), ← inverse]
    exact denote_negate env checked
  · rename_i notOrdered notUnordered
    have other : comparedWith cc a b = b := by
      rw [comparedWith, if_neg (not_or.mpr ⟨notOrdered, notUnordered⟩)]
    rw [other]
    split at handled
    · rename_i op native
      cases handled
      rw [← native_compare_holds native]
      exact denote_float_compare env leftValue rightValue op
    · rw [Option.map_eq_some_iff] at handled
      obtain ⟨op, complement, rfl⟩ := handled
      rw [← complement_compare_holds complement]
      exact denote_negate env (denote_float_compare env leftValue rightValue op)

/-- The codes that are lowered are all but those that are always folded. -/
theorem lower_setcc_handled_iff (float : left.vt = .f32) (cc : CondCode) :
    (lowerSETCC .i32 left right cc).isSome = !cc.alwaysFolded := by
  have scalar : left.vt ≠ .v16i1 := by
    rw [float]
    decide
  unfold lowerSETCC
  rw [if_neg scalar, if_neg (by decide)]
  cases cc <;> rfl

theorem truth_some_iff (cc : CondCode) (a b : FloatValue R) (truth : Bool) :
    cc.truth (.float a) (.float b) = some truth ↔
      ¬ (cc.dontCare = true ∧ floatOrder a b = .unordered) ∧ cc.holds (floatOrder a b) = truth := by
  rw [CondCode.truth]
  by_cases undefined : cc.dontCare = true ∧ floatOrder a b = .unordered
  · rw [if_pos undefined]
    constructor
    · intro absent
      cases absent
    · intro defined
      exact absurd undefined defined.1
  · rw [if_neg undefined, Option.some.injEq]
    constructor
    · intro same
      exact ⟨undefined, same⟩
    · intro defined
      exact defined.2

/-- The checks for a number only see whether the relation is that of no number. -/
theorem check_holds_iff {cc : CondCode} (check : cc = .SETO ∨ cc = .SETUO)
    (relation other : Relation) :
    cc.holds relation = cc.holds other ↔ (relation = .unordered ↔ other = .unordered) := by
  rcases check with rfl | rfl <;> cases relation <;> cases other <;> decide

theorem compared_with_agrees_iff (cc : CondCode) (a b : FloatValue R) :
    cc.holds (floatOrder a (comparedWith cc a b)) = cc.holds (floatOrder a b) ↔
      ¬ ((cc = .SETO ∨ cc = .SETUO) ∧ a ≠ .nan ∧ b = .nan) := by
  by_cases check : cc = .SETO ∨ cc = .SETUO
  · rw [comparedWith, if_pos check, check_holds_iff check, float_order_unordered_iff,
      float_order_unordered_iff]
    by_cases leftNan : a = .nan <;> by_cases rightNan : b = .nan <;>
      simp [check, leftNan, rightNan]
  · rw [comparedWith, if_neg check]
    exact ⟨fun _ misread => check misread.1, fun _ => rfl⟩

/-- A scalar comparison is lowered to a value that is not zero exactly where its code is true,
but for the two checks for a number on a number followed by none. -/
theorem scalar_compare_iff (float : left.vt = .f32)
    (leftValue : denote env left = .scalar (some (.float a)))
    (rightValue : denote env right = .scalar (some (.float b))) {cc : CondCode} {lowered : Node R}
    (handled : lowerSETCC .i32 left right cc = some lowered) :
    (∃ word, denote env lowered = .scalar (some (.int word)) ∧
        ∀ truth, cc.truth (.float a) (.float b) = some truth → (word ≠ 0 ↔ truth = true)) ↔
      ¬ ((cc = .SETO ∨ cc = .SETUO) ∧ a ≠ .nan ∧ b = .nan) := by
  have value := lowered_scalar_value env float leftValue rightValue handled
  constructor
  · intro correct misread
    obtain ⟨word, same, agrees⟩ := correct
    rw [value, Value.scalar.injEq, Option.some.injEq, Elem.int.injEq] at same
    have defined : cc.dontCare = false := by
      rcases misread.1 with rfl | rfl <;> rfl
    have truth := agrees (cc.holds (floatOrder a b)) ((truth_some_iff cc a b _).mpr
      ⟨fun undefined => Bool.false_ne_true (defined.symm.trans undefined.1), rfl⟩)
    rw [← same, mask_word_nonzero_iff] at truth
    exact (compared_with_agrees_iff cc a b).mp (Bool.eq_iff_iff.mpr truth) misread
  · intro noMisread
    refine ⟨_, value, ?_⟩
    intro truth defined
    rw [mask_word_nonzero_iff, (compared_with_agrees_iff cc a b).mpr noMisread,
      ((truth_some_iff cc a b truth).mp defined).2]

end Scalars

section Vectors

def laneWord (truth : Bool) : Word := if truth then -1 else 0

theorem lane_word_ones_iff (truth : Bool) :
    (some (Elem.int (laneWord truth)) : Option (Elem R)) = some (.int (-1)) ↔ truth = true := by
  rw [Option.some.injEq, Elem.int.injEq]
  cases truth <;> decide

theorem lane_word_inj {truth other : Bool}
    (same : (some (Elem.int (laneWord truth)) : Option (Elem R)) = some (.int (laneWord other))) :
    truth = other := by
  rw [Option.some.injEq, Elem.int.injEq] at same
  revert same
  cases truth <;> cases other <;> decide

variable [LinearOrder R] (env : Env R)

def HasNaN (x y : Elem R) : Prop :=
  ∃ left right, x = .float left ∧ y = .float right ∧ floatOrder left right = .unordered

structure VectorOperand (node : Node R) (isFloat : Bool) (lanes : Fin 16 → Elem R) : Prop where
  vt : node.vt = if isFloat then .v16f32 else .v16i32
  value : denote env node = .vector fun lane => some (lanes lane)
  typed : ∀ lane, (lanes lane).vt = if isFloat then .f32 else .i32

def loweredLane (cc : CondCode) : Elem R → Elem R → Bool
  | .float left, .float right =>
      cc.holds (floatOrder left right) && floatOrder left right ≠ .unordered
  | x, y => (cc.truth x y).getD false

theorem float_intrinsic_holds {cc : CondCode} {id : Intrinsic}
    (chosen : intrinsicForVectorCompare cc true = some id) :
    id.code.dontCare = false ∧ ∀ relation,
      id.code.holds relation = (cc.holds relation && relation ≠ .unordered) := by
  cases cc with
  | SETFALSE | SETFALSE2 | SETTRUE | SETTRUE2 | SETO | SETUO => cases chosen
  | _ =>
      cases chosen
      refine ⟨rfl, ?_⟩
      intro relation
      cases relation <;> rfl

theorem order_equal_iff (x y : Word) :
    order x.toNat y.toNat = .equal ↔ order x.toInt y.toInt = .equal := by
  rw [order_equal, order_equal, BitVec.toNat_inj, BitVec.toInt_inj]

/-- Equality does not depend on how the words are read. -/
theorem unsigned_equality (x y : Word) :
    CondCode.SETUEQ.holds (order x.toNat y.toNat) = CondCode.SETEQ.holds (order x.toInt y.toInt) ∧
      CondCode.SETUNE.holds (order x.toNat y.toNat) =
        CondCode.SETNE.holds (order x.toInt y.toInt) := by
  have same := order_equal_iff x y
  have natural := order_ordered x.toNat y.toNat
  have signed := order_ordered x.toInt y.toInt
  revert same natural signed
  generalize order x.toNat y.toNat = unsignedRelation
  generalize order x.toInt y.toInt = signedRelation
  cases unsignedRelation <;> cases signedRelation <;> decide

theorem int_intrinsic_truth {cc : CondCode} {id : Intrinsic}
    (chosen : intrinsicForVectorCompare cc false = some id) (x y : Word) :
    id.code.truth (.int x : Elem R) (.int y) = cc.truth (.int x : Elem R) (.int y) := by
  cases cc with
  | SETUEQ =>
      cases chosen
      exact congrArg some (unsigned_equality x y).1.symm
  | SETUNE =>
      cases chosen
      exact congrArg some (unsigned_equality x y).2.symm
  | SETEQ | SETNE | SETGT | SETGE | SETLT | SETLE | SETUGT | SETUGE | SETULT | SETULE =>
      cases chosen
      rfl
  | _ => cases chosen

omit [LinearOrder R] in
theorem paired_lanes {isFloat : Bool} {x y : Elem R}
    (leftTyped : x.vt = if isFloat then .f32 else .i32)
    (rightTyped : y.vt = if isFloat then .f32 else .i32) :
    (isFloat = true ∧ ∃ left right, x = .float left ∧ y = .float right) ∨
      isFloat = false ∧ ∃ left right, x = .int left ∧ y = .int right := by
  cases isFloat with
  | true =>
      cases x with
      | float left =>
          cases y with
          | float right => exact Or.inl ⟨rfl, left, right, rfl, rfl⟩
          | _ => cases rightTyped
      | _ => cases leftTyped
  | false =>
      cases x with
      | int left =>
          cases y with
          | int right => exact Or.inr ⟨rfl, left, right, rfl, rfl⟩
          | _ => cases rightTyped
      | _ => cases leftTyped

/-- The intrinsic of a code compares like the code, but is false where a lane has no number. -/
theorem intrinsic_truth {cc : CondCode} {id : Intrinsic} {isFloat : Bool}
    (chosen : intrinsicForVectorCompare cc isFloat = some id) {x y : Elem R}
    (leftTyped : x.vt = if isFloat then .f32 else .i32)
    (rightTyped : y.vt = if isFloat then .f32 else .i32) :
    (id.code.truth x y).getD false = loweredLane cc x y := by
  rcases paired_lanes leftTyped rightTyped with
    ⟨rfl, left, right, rfl, rfl⟩ | ⟨rfl, left, right, rfl, rfl⟩
  · obtain ⟨defined, holds⟩ := float_intrinsic_holds chosen
    rw [CondCode.truth, defined, if_neg (fun both => Bool.false_ne_true both.1),
      Option.getD_some, holds]
    rfl
  · rw [int_intrinsic_truth chosen]
    rfl

variable {left right : Node R} {isFloat : Bool} {a b : Fin 16 → Elem R}

theorem lowered_vector_node (leftVector : left.vt = if isFloat then .v16f32 else .v16i32)
    {cc : CondCode} {lowered : Node R}
    (handled : lowerVectorCompare left right cc = some lowered) :
    ∃ id, intrinsicForVectorCompare cc isFloat = some id ∧
      lowered = .selCondResult .v16i32 (.intrinsicWoChain .i32 id left right)
        (.splat .v16i32 (.constant .i32 (-1))) (.splat .v16i32 (.constant .i32 0)) := by
  have notBits : left.vt ≠ .v16i1 := by
    rw [leftVector]
    cases isFloat <;> decide
  have notScalar : left.vt ≠ .f32 := by
    rw [leftVector]
    cases isFloat <;> decide
  have float : isFloatingPoint left.vt = isFloat := by
    rw [leftVector]
    cases isFloat <;> rfl
  unfold lowerVectorCompare lowerSETCC at handled
  rw [if_neg notBits, if_pos rfl, Option.bind_some] at handled
  unfold lowerSIGN_EXTEND_INREG at handled
  split at handled
  · rename_i extended
    rw [Node.signExtendInReg.injEq] at extended
    obtain ⟨rfl, kept⟩ := extended
    obtain ⟨-, rfl, rfl, rfl⟩ := get_set_cc_kept notScalar kept
    rw [if_pos rfl, float, Option.map_eq_some_iff] at handled
    obtain ⟨id, chosen, rfl⟩ := handled
    exact ⟨id, chosen, rfl⟩
  · cases handled

/-- Every lane of the result is all ones or zero. -/
theorem lowered_vector_value (leftOperand : VectorOperand env left isFloat a)
    (rightOperand : VectorOperand env right isFloat b) {cc : CondCode} {lowered : Node R}
    (handled : lowerVectorCompare left right cc = some lowered) :
    denote env lowered =
      .vector fun lane => some (.int (laneWord (loweredLane cc (a lane) (b lane)))) := by
  obtain ⟨id, chosen, rfl⟩ := lowered_vector_node leftOperand.vt handled
  simp only [denote, leftOperand.value, rightOperand.value, maskCompare, Value.choose,
    Option.bind_some, mask_of_bit]
  congr 1
  funext lane
  rw [intrinsic_truth chosen (leftOperand.typed lane) (rightOperand.typed lane), laneWord]
  split <;> rfl

/-- The lowering of a scalar comparison; that of integers is legal as it is. -/
def lowerScalarCompare (left right : Node R) (cc : CondCode) : Option (Node R) :=
  if left.vt = .f32 then lowerSETCC .i32 left right cc else some (.setcc .i32 left right cc)

/-- A lane is all ones or zero as its comparison is true or false, and agrees with the scalar
comparison of the same two values. -/
structure LaneAgrees (cc : CondCode) (x y : Elem R) (lane : Option (Elem R)) : Prop where
  predicate : ∀ truth, cc.truth x y = some truth → lane = some (.int (laneWord truth))
  scalar : ∀ left right lowered : Node R, left.vt = x.vt →
    denote env left = .scalar (some x) → denote env right = .scalar (some y) →
    lowerScalarCompare left right cc = some lowered →
    ∃ word, denote env lowered = .scalar (some (.int word)) ∧
      (word ≠ 0 ↔ lane = some (.int (-1)))

theorem holds_unordered {cc : CondCode} {id : Intrinsic}
    (chosen : intrinsicForVectorCompare cc true = some id) :
    cc.holds .unordered = cc.isUnordered ∧ (cc.isUnordered = true → cc.dontCare = false) ∧
      ¬ (cc = .SETO ∨ cc = .SETUO) := by
  cases cc with
  | SETFALSE | SETFALSE2 | SETTRUE | SETTRUE2 | SETO | SETUO => cases chosen
  | _ => decide

theorem float_lane_agrees {cc : CondCode} {id : Intrinsic}
    (chosen : intrinsicForVectorCompare cc true = some id) (x y : FloatValue R)
    (right : ¬ (cc.isUnordered = true ∧ floatOrder x y = .unordered)) :
    LaneAgrees env cc (.float x) (.float y)
      (some (.int (laneWord (loweredLane cc (.float x) (.float y))))) := by
  obtain ⟨unordered, -, noCheck⟩ := holds_unordered chosen
  have lane : loweredLane cc (.float x) (.float y) = cc.holds (floatOrder x y) := by
    by_cases isNan : floatOrder x y = .unordered
    · have ordered : cc.isUnordered = false := by
        rw [← Bool.not_eq_true]
        intro bad
        exact right ⟨bad, isNan⟩
      rw [loweredLane, isNan, unordered, ordered]
      rfl
    · rw [loweredLane, decide_eq_true isNan, Bool.and_true]
  rw [lane]
  refine ⟨?_, ?_⟩
  · intro truth defined
    rw [((truth_some_iff cc x y truth).mp defined).2]
  · intro leftNode rightNode lowered float leftValue rightValue handled
    have floatVT : leftNode.vt = .f32 := float
    rw [lowerScalarCompare, if_pos floatVT] at handled
    have value := lowered_scalar_value env floatVT leftValue rightValue handled
    rw [comparedWith, if_neg noCheck] at value
    exact ⟨_, value, (mask_word_nonzero_iff _).trans (lane_word_ones_iff _).symm⟩

theorem int_lane_agrees (cc : CondCode) (x y : Word) :
    LaneAgrees env cc (.int x) (.int y)
      (some (.int (laneWord (loweredLane cc (.int x : Elem R) (.int y))))) := by
  obtain ⟨known, truth⟩ : ∃ known, cc.truth (.int x : Elem R) (.int y) = some known := ⟨_, rfl⟩
  have lane : loweredLane cc (.int x : Elem R) (.int y) = known := by
    change (cc.truth (.int x : Elem R) (.int y)).getD false = known
    rw [truth, Option.getD_some]
  rw [lane]
  refine ⟨?_, ?_⟩
  · intro other defined
    rw [truth, Option.some.injEq] at defined
    rw [defined]
  · intro leftNode rightNode lowered int leftValue rightValue handled
    have notFloat : leftNode.vt ≠ .f32 := by
      rw [int]
      intro same
      cases same
    rw [lowerScalarCompare, if_neg notFloat, Option.some.injEq] at handled
    have value : denote env lowered = .scalar (some (.int (maskWord known))) := by
      rw [← handled, denote, leftValue, rightValue]
      simp only [Value.zipWith, Option.bind_some, truth, Option.map_some]
      rfl
    exact ⟨_, value, (mask_word_nonzero_iff _).trans (lane_word_ones_iff _).symm⟩

/-- A lane is right, and agrees with the scalar comparison, unless an unordered code meets no
number in it. -/
theorem lane_agrees_iff {cc : CondCode} {id : Intrinsic}
    (chosen : intrinsicForVectorCompare cc isFloat = some id) {x y : Elem R}
    (leftTyped : x.vt = if isFloat then .f32 else .i32)
    (rightTyped : y.vt = if isFloat then .f32 else .i32) :
    LaneAgrees env cc x y (some (.int (laneWord (loweredLane cc x y)))) ↔
      ¬ (cc.isUnordered = true ∧ HasNaN x y) := by
  constructor
  · intro agrees misread
    obtain ⟨unorderedCode, left, right, rfl, rfl, isNan⟩ := misread
    have float : isFloat = true := by
      cases isFloat with
      | true => rfl
      | false => cases leftTyped
    rw [float] at chosen
    obtain ⟨unordered, defined, -⟩ := holds_unordered chosen
    have truth : cc.truth (.float left) (.float right) = some true := by
      rw [truth_some_iff, isNan, unordered, unorderedCode, defined unorderedCode]
      exact ⟨fun both => Bool.false_ne_true both.1, rfl⟩
    have lane := lane_word_inj (agrees.predicate true truth)
    rw [loweredLane, isNan] at lane
    exact Bool.false_ne_true ((Bool.and_false _).symm.trans lane)
  · intro right
    rcases paired_lanes leftTyped rightTyped with
      ⟨rfl, left, other, rfl, rfl⟩ | ⟨rfl, left, other, rfl, rfl⟩
    · apply float_lane_agrees env chosen
      intro misread
      exact right ⟨misread.1, left, other, rfl, rfl, misread.2⟩
    · exact int_lane_agrees env cc left other

/-- A vector comparison is right, and agrees with the scalar one, exactly if no lane without a
number meets an unordered code. -/
theorem vector_compare_iff (leftOperand : VectorOperand env left isFloat a)
    (rightOperand : VectorOperand env right isFloat b) {cc : CondCode} {lowered : Node R}
    (handled : lowerVectorCompare left right cc = some lowered) :
    (∃ lanes, denote env lowered = .vector lanes ∧
        ∀ lane, LaneAgrees env cc (a lane) (b lane) (lanes lane)) ↔
      ∀ lane, ¬ (cc.isUnordered = true ∧ HasNaN (a lane) (b lane)) := by
  have value := lowered_vector_value env leftOperand rightOperand handled
  obtain ⟨id, chosen, -⟩ := lowered_vector_node leftOperand.vt handled
  have lanewise (lane : Fin 16) :=
    lane_agrees_iff env chosen (leftOperand.typed lane) (rightOperand.typed lane)
  constructor
  · intro correct lane
    obtain ⟨lanes, same, agrees⟩ := correct
    rw [value, Value.vector.injEq] at same
    have agreed := agrees lane
    rw [← same] at agreed
    exact (lanewise lane).mp agreed
  · intro right
    exact ⟨_, value, fun lane => (lanewise lane).mpr (right lane)⟩

end Vectors

def noOperands : Env ℚ := fun _ _ => .scalar none

def oneNode : Node ℚ := .constantFP (.num 1)

def nanNode : Node ℚ := .constantFP .nan

theorem nan_compared :
    (∃ word, denote noOperands
          (negateCompare .i32 (morphSETCCNode .FGE .i32 nanNode oneNode)) =
          .scalar (some (.int word)) ∧
        ∀ truth, CondCode.SETULT.truth (.float .nan) (.float (.num (1 : ℚ))) = some truth →
          (word ≠ 0 ↔ truth = true)) ↔
      ¬ ((CondCode.SETULT = .SETO ∨ CondCode.SETULT = .SETUO) ∧
        FloatValue.nan ≠ (.nan : FloatValue ℚ) ∧ FloatValue.num (1 : ℚ) = .nan) := by
  have handled : lowerSETCC .i32 nanNode oneNode .SETULT =
      some (negateCompare .i32 (morphSETCCNode .FGE .i32 nanNode oneNode)) := rfl
  have left : denote noOperands nanNode = .scalar (some (.float .nan)) := rfl
  have right : denote noOperands oneNode = .scalar (some (.float (.num 1))) := rfl
  exact scalar_compare_iff noOperands rfl left right handled

/-- A number and no number are not found to be unordered. -/
theorem second_operand_unchecked :
    ¬ ∀ (env : Env ℚ) (left right : Node ℚ) (a b : FloatValue ℚ) (cc : CondCode)
      (lowered : Node ℚ), left.vt = .f32 → right.vt = .f32 →
      denote env left = .scalar (some (.float a)) →
      denote env right = .scalar (some (.float b)) →
      lowerSETCC .i32 left right cc = some lowered →
      ∃ word, denote env lowered = .scalar (some (.int word)) ∧
        ∀ truth, cc.truth (.float a) (.float b) = some truth → (word ≠ 0 ↔ truth = true) := by
  intro always
  obtain ⟨word, value, agrees⟩ := always noOperands oneNode nanNode (.num 1) .nan .SETO
    (.floatCompare .FEQ .i32 oneNode oneNode) rfl rfl rfl rfl rfl
  have one : denote noOperands oneNode = .scalar (some (.float (.num 1))) := rfl
  have equal : floatOrder (.num (1 : ℚ)) (.num 1) = .equal := order_self 1
  rw [denote_float_compare noOperands one one, equal, Value.scalar.injEq, Option.some.injEq,
    Elem.int.injEq] at value
  have unordered : CondCode.SETO.truth (.float (.num (1 : ℚ))) (.float .nan) = some false := rfl
  have nonzero : word ≠ 0 := by
    rw [← value]
    decide
  exact Bool.false_ne_true ((agrees false unordered).mp nonzero)

/-- Two vectors of ones, of which the first has no number in its fourth lane. -/
def oneLanes (index : Nat) (lane : Fin 16) : Elem ℚ :=
  .float (if index = 0 ∧ lane.val = 3 then .nan else .num 1)

def oneVectors : Env ℚ := fun _ index => .vector fun lane => some (oneLanes index lane)

def vectorNode (index : Nat) : Node ℚ := .operand .v16f32 index

theorem one_vectors_operand (index : Nat) :
    VectorOperand oneVectors (vectorNode index) true (oneLanes index) where
  vt := rfl
  value := rfl
  typed _ := rfl

theorem ordered_vectors_compared :
    (∃ lanes, denote oneVectors (.selCondResult .v16i32
          (.intrinsicWoChain .i32 .npu_mask_cmpf32_eq (vectorNode 0) (vectorNode 1))
          (.splat .v16i32 (.constant .i32 (-1))) (.splat .v16i32 (.constant .i32 0))) =
          .vector lanes ∧
        ∀ lane, LaneAgrees oneVectors .SETOEQ (oneLanes 0 lane) (oneLanes 1 lane) (lanes lane)) ↔
      ∀ lane, ¬ (CondCode.SETOEQ.isUnordered = true ∧
        HasNaN (oneLanes 0 lane) (oneLanes 1 lane)) := by
  have handled : lowerVectorCompare (vectorNode 0) (vectorNode 1) .SETOEQ =
      some (.selCondResult .v16i32
        (.intrinsicWoChain .i32 .npu_mask_cmpf32_eq (vectorNode 0) (vectorNode 1))
        (.splat .v16i32 (.constant .i32 (-1))) (.splat .v16i32 (.constant .i32 0))) := rfl
  exact vector_compare_iff oneVectors (one_vectors_operand 0) (one_vectors_operand 1) handled

/-- A lane without a number is not found unordered or equal. -/
theorem unordered_lane_lost :
    ¬ ∀ (env : Env ℚ) (left right lowered : Node ℚ) (isFloat : Bool) (a b : Fin 16 → Elem ℚ)
      (cc : CondCode), VectorOperand env left isFloat a → VectorOperand env right isFloat b →
      lowerVectorCompare left right cc = some lowered →
      ∃ lanes, denote env lowered = .vector lanes ∧
        ∀ lane, LaneAgrees env cc (a lane) (b lane) (lanes lane) := by
  intro always
  obtain ⟨lanes, value, agrees⟩ := always oneVectors (vectorNode 0) (vectorNode 1) _ true
    (oneLanes 0) (oneLanes 1) .SETUEQ (one_vectors_operand 0) (one_vectors_operand 1) rfl
  have computed := lowered_vector_value oneVectors (one_vectors_operand 0) (one_vectors_operand 1)
    (show lowerVectorCompare (vectorNode 0) (vectorNode 1) .SETUEQ = some _ from rfl)
  rw [computed, Value.vector.injEq] at value
  have lane := (agrees 3).predicate true rfl
  rw [← value] at lane
  exact Bool.false_ne_true (lane_word_inj lane)

end NaplesPU.CompareLowering
