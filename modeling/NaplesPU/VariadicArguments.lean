import NaplesPU.CallingConv
import NaplesPU.OperationActions

/-!
Access to the arguments of a variadic function. The callee keeps a fixed object
where it takes its variable arguments to start, and `va_start` is to store the
address of that object. The function written for it is commented out together
with its case in `LowerOperation`, while the constructor still registers the
operation as custom.
-/

namespace NaplesPU.VariadicArguments

open Alignment Machine CallingConv OperationActions

def endOffset (paramEnd : Nat) (va : CCValAssign) : Nat :=
  match va.loc with
  | .reg _ => paramEnd
  | .mem offset => offset + va.valVT.size

/-- The end of the last parameter on the stack. -/
def paramEndOffset (argLocs : List CCValAssign) : Nat := argLocs.foldl endOffset 0

/-- The object that `getVarArgsFrameIndex` names, which `LowerFormalArguments` creates. -/
def varArgsObject (isVarArg : Bool) (ins : List ArgVT) : Option FixedObject :=
  if isVarArg then
    (analyze isVarArg ins).map fun analysis => ⟨4, paramEndOffset analysis.1⟩
  else none

def varArgsAddress (ins : List ArgVT) (entrySP : Word) : Option Word :=
  (varArgsObject true ins).map fun object => object.address entrySP

def firstVariadic (declared variadic : List ArgVT) (stackPtr : Word) : Option Outgoing :=
  (lowerCall true (declared ++ variadic) stackPtr).bind fun call =>
    call.outgoing[declared.length]?

/-- What a use of the variable arguments needs: a function that lowers `va_start`, and the
address of the first of them in the object of the callee. -/
structure VariadicAccess (declared variadic : List ArgVT) (entrySP : Word) : Prop where
  lowered : ∃ handler, customHandler .VASTART .Other = some handler
  found : ∀ valVT, variadic.head? = some valVT → ∃ address,
    varArgsAddress declared entrySP = some address ∧
      firstVariadic declared variadic entrySP = some (.store address valVT.size)

theorem va_start_custom : getOperationAction .VASTART .Other = some .Custom := by
  decide

theorem va_start_undispatched : customHandler .VASTART .Other = none := by
  decide

section Addresses

theorem assign_variadic (valVT : ArgVT) (usedRegs : List RegisterInfo.Register) (offset : Nat) :
    assign valVT ⟨true, usedRegs, offset⟩ =
      some (.mem (alignTo offset valVT.size),
        ⟨true, usedRegs, alignTo offset valVT.size + valVT.size⟩) := by
  cases valVT <;> rfl

/-- The parameters fill the stack up to where the next argument is allocated. -/
theorem analyze_variadic (args : List ArgVT) {offset : Nat} (words : 4 ∣ offset) : ∃ locs last,
    analyzeFrom ⟨true, [], offset⟩ args = some (locs, ⟨true, [], last⟩) ∧
      locs.foldl endOffset offset = last ∧ locs.length = args.length ∧ 4 ∣ last := by
  induction args generalizing offset with
  | nil => exact ⟨[], offset, rfl, rfl, rfl, words⟩
  | cons valVT rest induction =>
      have wordSize : 4 ∣ valVT.size := by
        cases valVT <;> decide
      have nextWords : 4 ∣ alignTo offset valVT.size + valVT.size :=
        Nat.dvd_add (wordSize.trans (align_to_dvd offset)) wordSize
      obtain ⟨locs, last, analyzed, ends, count, lastWords⟩ := induction nextWords
      refine ⟨⟨valVT, .mem (alignTo offset valVT.size)⟩ :: locs, last, ?_, ends, ?_, lastWords⟩
      · rw [analyzeFrom, assign_variadic, Option.bind_some, analyzed, Option.map_some]
      · rw [List.length_cons, List.length_cons, count]

/-- The caller aligns the end of the parameters to the size of the argument, the callee does
not. -/
theorem variadic_addresses (declared rest : List ArgVT) (valVT : ArgVT) (entrySP : Word) :
    ∃ locs next, analyze true declared = some (locs, next) ∧
      4 ∣ paramEndOffset locs ∧
      varArgsAddress declared entrySP = some (entrySP + BitVec.ofNat 32 (paramEndOffset locs)) ∧
      firstVariadic declared (valVT :: rest) entrySP =
        some (.store (entrySP + BitVec.ofNat 32 (alignTo (paramEndOffset locs) valVT.size))
          valVT.size) := by
  obtain ⟨locs, paramEnd, analyzed, ends, count, words⟩ := analyze_variadic declared (dvd_zero 4)
  have wordSize : 4 ∣ valVT.size := by
    cases valVT <;> decide
  obtain ⟨others, last, analyzedRest, -, -, -⟩ := analyze_variadic rest
    (Nat.dvd_add (wordSize.trans (align_to_dvd paramEnd)) wordSize)
  have whole : analyze true (declared ++ valVT :: rest) =
      some (locs ++ ⟨valVT, .mem (alignTo paramEnd valVT.size)⟩ :: others, ⟨true, [], last⟩) := by
    rw [analyze, analyze_from_append, analyzed, Option.bind_some, analyzeFrom, assign_variadic,
      Option.bind_some, analyzedRest]
    rfl
  have paramEnds : paramEndOffset locs = paramEnd := ends
  refine ⟨locs, ⟨true, [], paramEnd⟩, analyzed, ?_, ?_, ?_⟩
  · rw [paramEnds]
    exact words
  · rw [varArgsAddress, varArgsObject, if_pos rfl, analyze, analyzed, Option.map_some,
      Option.map_some, FixedObject.address, BitVec.ofInt_natCast]
  · rw [firstVariadic, lowerCall, whole, Option.map_some, Option.bind_some, List.map_append,
      List.getElem?_append_right (by rw [List.length_map, count]), List.length_map, count,
      Nat.sub_self, paramEnds]
    rfl

theorem add_of_nat_injective {base : Word} {first second : Nat} (below : first ≤ second)
    (near : second < first + 2 ^ 32)
    (same : base + BitVec.ofNat 32 first = base + BitVec.ofNat 32 second) : first = second := by
  have cancelled := congrArg BitVec.toNat (add_left_cancel same)
  rw [BitVec.toNat_ofNat, BitVec.toNat_ofNat] at cancelled
  omega

/-- The object of the callee is where the caller put the first variable argument exactly when
the parameters end at a multiple of its size. -/
theorem variadic_address_iff (declared rest : List ArgVT) (valVT : ArgVT) (entrySP : Word) :
    ∃ locs next, analyze true declared = some (locs, next) ∧
      ((∃ address, varArgsAddress declared entrySP = some address ∧
          firstVariadic declared (valVT :: rest) entrySP = some (.store address valVT.size)) ↔
        valVT.size ∣ paramEndOffset locs) := by
  obtain ⟨locs, next, analyzed, -, callee, caller⟩ :=
    variadic_addresses declared rest valVT entrySP
  refine ⟨locs, next, analyzed, ?_⟩
  rw [callee, caller]
  constructor
  · intro found
    obtain ⟨address, fromCallee, fromCaller⟩ := found
    rw [Option.some.injEq] at fromCallee
    rw [Option.some.injEq, Outgoing.store.injEq] at fromCaller
    have near := align_to_lt (size_pos valVT) (paramEndOffset locs)
    have small : valVT.size ≤ 64 := by
      cases valVT <;> decide
    have equal := add_of_nat_injective (le_align_to (size_pos valVT) (paramEndOffset locs))
      (by omega) (fromCallee.trans fromCaller.1.symm)
    rw [equal]
    exact align_to_dvd _
  · intro divides
    refine ⟨_, rfl, ?_⟩
    rw [align_to_eq_self (size_pos valVT) divides]

theorem scalar_variadic_address (declared rest : List ArgVT) {valVT : ArgVT}
    (scalar : valVT.cls = .GPR32) (entrySP : Word) : ∃ address,
    varArgsAddress declared entrySP = some address ∧
      firstVariadic declared (valVT :: rest) entrySP = some (.store address valVT.size) := by
  obtain ⟨locs, next, -, words, callee, caller⟩ :=
    variadic_addresses declared rest valVT entrySP
  have size : valVT.size = 4 := by
    cases valVT with
    | i32 => rfl
    | f32 => rfl
    | v16i32 => cases scalar
    | v16f32 => cases scalar
  refine ⟨_, callee, ?_⟩
  rw [caller, size, align_to_eq_self (by decide) words]

end Addresses

/-- No variadic function reaches its variable arguments: nothing lowers `va_start`. -/
theorem variadic_access_fails (declared variadic : List ArgVT) (entrySP : Word) :
    ¬ VariadicAccess declared variadic entrySP := by
  intro access
  obtain ⟨handler, dispatched⟩ := access.lowered
  rw [va_start_undispatched] at dispatched
  cases dispatched

theorem one_parameter_one_argument :
    ¬ ∀ (declared variadic : List ArgVT) (entrySP : Word),
      VariadicAccess declared variadic entrySP := by
  intro always
  have access := always [.i32] [.i32] 0x1000
  obtain ⟨handler, dispatched⟩ := access.lowered
  rw [va_start_undispatched] at dispatched
  cases dispatched

end NaplesPU.VariadicArguments
