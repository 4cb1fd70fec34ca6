import NaplesPU.Lib.Alignment
import NaplesPU.Machine

/-!
The passing of arguments: the rule table `CC_NaplesPU32` over the legal types,
the stores that `LowerCall` emits for it and the stack objects from which
`LowerFormalArguments` loads. The rules that promote narrower types come first in
the table and do not apply to a legal type. Offsets are natural numbers; the
source counts them in an unsigned word, which `next_offset_le` shows not to
overflow for any list of less than two to the twenty-fifth arguments.
-/

namespace NaplesPU.CallingConv

open Alignment RegisterInfo Machine

inductive ArgVT where
  | i32 | f32 | v16i32 | v16f32
deriving DecidableEq, Repr

/-- `getSizeInBits() / 8`. -/
def ArgVT.size : ArgVT → Nat
  | .i32 | .f32 => 4
  | .v16i32 | .v16f32 => 64

/-- The register class that `LowerFormalArguments` copies the type from. -/
def ArgVT.cls : ArgVT → RegClass
  | .i32 | .f32 => .GPR32
  | .v16i32 | .v16f32 => .VR512W

inductive Loc where
  | reg (register : Register)
  | mem (offset : Nat)
deriving DecidableEq, Repr

structure CCValAssign where
  valVT : ArgVT
  loc : Loc
deriving DecidableEq, Repr

structure CCState where
  isVarArg : Bool
  usedRegs : List Register
  stackOffset : Nat
deriving DecidableEq, Repr

inductive CCAction where
  | assignToReg (regs : List Register)
  | assignToStack (size align : Nat)
deriving DecidableEq, Repr

structure CCRule where
  ifNotVarArg : Bool
  ifType : List ArgVT
  action : CCAction
deriving DecidableEq, Repr

def ccNaplesPU32 : List CCRule :=
  [⟨true, [.i32, .f32],
      .assignToReg [sReg 0, sReg 1, sReg 2, sReg 3, sReg 4, sReg 5, sReg 6, sReg 7]⟩,
    ⟨true, [.v16i32, .v16f32],
      .assignToReg [vReg 0, vReg 1, vReg 2, vReg 3, vReg 4, vReg 5, vReg 6, vReg 7]⟩,
    ⟨false, [.i32, .f32], .assignToStack 4 4⟩,
    ⟨false, [.v16i32, .v16f32], .assignToStack 64 64⟩]

/-- The first register of the list that no argument has yet. -/
def CCState.allocateReg (state : CCState) (regs : List Register) : Option (Register × CCState) :=
  (regs.find? fun register => register ∉ state.usedRegs).map fun register =>
    (register, { state with usedRegs := register :: state.usedRegs })

def CCState.allocateStack (state : CCState) (size align : Nat) : Nat × CCState :=
  (alignTo state.stackOffset align,
    { state with stackOffset := alignTo state.stackOffset align + size })

def CCRule.apply (rule : CCRule) (valVT : ArgVT) (state : CCState) : Option (Loc × CCState) :=
  if (rule.ifNotVarArg && state.isVarArg) || valVT ∉ rule.ifType then none
  else
    match rule.action with
    | .assignToReg regs => (state.allocateReg regs).map fun next => (.reg next.1, next.2)
    | .assignToStack size align =>
        some (.mem (state.allocateStack size align).1, (state.allocateStack size align).2)

/-- The first rule that gives the argument a location. -/
def assign (valVT : ArgVT) (state : CCState) : Option (Loc × CCState) :=
  ccNaplesPU32.findSome? fun rule => rule.apply valVT state

/-- `AnalyzeCallOperands` and `AnalyzeFormalArguments`, which differ in the flags they read.
An argument without a location ends the analysis. -/
def analyzeFrom (state : CCState) : List ArgVT → Option (List CCValAssign × CCState)
  | [] => some ([], state)
  | valVT :: rest =>
      (assign valVT state).bind fun first =>
        (analyzeFrom first.2 rest).map fun others => (⟨valVT, first.1⟩ :: others.1, others.2)

def analyze (isVarArg : Bool) (args : List ArgVT) : Option (List CCValAssign × CCState) :=
  analyzeFrom ⟨isVarArg, [], 0⟩ args

/-- `getStackAlignment`, in bytes. -/
def stackAlignment : Nat := 64

inductive Outgoing where
  | copyToReg (register : Register)
  | store (address : Word) (size : Nat)
deriving DecidableEq, Repr

def passArgument (stackPtr : Word) (va : CCValAssign) : Outgoing :=
  match va.loc with
  | .reg register => .copyToReg register
  | .mem offset => .store (stackPtr + BitVec.ofNat 32 offset) va.valVT.size

structure Call where
  argsSize : Nat
  outgoing : List Outgoing
deriving DecidableEq, Repr

/-- The lowering of a call, with the stack pointer that `CALLSEQ_START` leaves. -/
def lowerCall (isVarArg : Bool) (outs : List ArgVT) (stackPtr : Word) : Option Call :=
  (analyze isVarArg outs).map fun analysis =>
    { argsSize := alignTo analysis.2.stackOffset stackAlignment
      outgoing := analysis.1.map (passArgument stackPtr) }

/-- An object at a fixed offset from the stack pointer on entry. -/
structure FixedObject where
  size : Nat
  spOffset : Int
deriving DecidableEq, Repr

def FixedObject.address (object : FixedObject) (entrySP : Word) : Word :=
  entrySP + BitVec.ofInt 32 object.spOffset

inductive Incoming where
  | copyFromReg (cls : RegClass) (register : Register)
  | load (object : FixedObject)
deriving DecidableEq, Repr

def receiveArgument (va : CCValAssign) : Incoming :=
  match va.loc with
  | .reg register => .copyFromReg va.valVT.cls register
  | .mem offset => .load ⟨va.valVT.size, offset⟩

def lowerFormalArguments (isVarArg : Bool) (ins : List ArgVT) : Option (List Incoming) :=
  (analyze isVarArg ins).map fun analysis => analysis.1.map receiveArgument

section Assignment

/-- What a location takes from the state and leaves to the next argument. -/
inductive Takes (valVT : ArgVT) (state : CCState) : Loc → CCState → Prop
  | reg {register : Register} (cls : register.cls = valVT.cls) (free : register ∉ state.usedRegs) :
      Takes valVT state (.reg register)
        { state with usedRegs := register :: state.usedRegs }
  | mem : Takes valVT state (.mem (alignTo state.stackOffset valVT.size))
      { state with stackOffset := alignTo state.stackOffset valVT.size + valVT.size }

theorem allocate_reg_takes {valVT : ArgVT} {state next : CCState} {regs : List Register}
    {register : Register} (sameClass : ∀ register ∈ regs, register.cls = valVT.cls)
    (allocated : state.allocateReg regs = some (register, next)) :
    Takes valVT state (.reg register) next := by
  rw [CCState.allocateReg, Option.map_eq_some_iff] at allocated
  obtain ⟨found, first, same⟩ := allocated
  rw [Prod.mk.injEq] at same
  obtain ⟨rfl, rfl⟩ := same
  have free := List.find?_some first
  rw [decide_eq_true_eq] at free
  exact .reg (sameClass found (List.mem_of_find?_eq_some first)) free

/-- An action assigns registers of the type's class, or slots of its size. -/
def CCAction.Fits (valVT : ArgVT) : CCAction → Prop
  | .assignToReg regs => ∀ register ∈ regs, register.cls = valVT.cls
  | .assignToStack size align => size = valVT.size ∧ align = valVT.size

instance (valVT : ArgVT) (action : CCAction) : Decidable (action.Fits valVT) :=
  match action with
  | .assignToReg regs => inferInstanceAs (Decidable (∀ register ∈ regs, register.cls = valVT.cls))
  | .assignToStack size align =>
      inferInstanceAs (Decidable (size = valVT.size ∧ align = valVT.size))

theorem rules_fit : ∀ rule ∈ ccNaplesPU32, ∀ valVT ∈ rule.ifType, rule.action.Fits valVT := by
  decide

theorem apply_takes {rule : CCRule} (member : rule ∈ ccNaplesPU32) {valVT : ArgVT}
    {state next : CCState} {loc : Loc} (applied : rule.apply valVT state = some (loc, next)) :
    Takes valVT state loc next := by
  rw [CCRule.apply] at applied
  split at applied
  · cases applied
  · rename_i enabled
    simp only [Bool.or_eq_true, not_or, decide_eq_true_eq, not_not] at enabled
    have typed := rules_fit rule member valVT enabled.2
    split at applied
    · rename_i regs assigns
      rw [assigns] at typed
      rw [Option.map_eq_some_iff] at applied
      obtain ⟨⟨register, after⟩, allocated, same⟩ := applied
      rw [Prod.mk.injEq] at same
      obtain ⟨rfl, rfl⟩ := same
      exact allocate_reg_takes typed allocated
    · rename_i size align assigns
      rw [assigns] at typed
      obtain ⟨rfl, rfl⟩ := typed
      rw [Option.some.injEq, Prod.mk.injEq] at applied
      obtain ⟨rfl, rfl⟩ := applied
      exact .mem

/-- Every argument of a legal type gets a location. -/
theorem assign_takes (valVT : ArgVT) (state : CCState) :
    ∃ loc next, assign valVT state = some (loc, next) ∧ Takes valVT state loc next := by
  have found : (assign valVT state).isSome := by
    rw [assign, List.findSome?_isSome_iff]
    cases valVT with
    | i32 => exact ⟨⟨false, [.i32, .f32], .assignToStack 4 4⟩, by decide, rfl⟩
    | f32 => exact ⟨⟨false, [.i32, .f32], .assignToStack 4 4⟩, by decide, rfl⟩
    | v16i32 => exact ⟨⟨false, [.v16i32, .v16f32], .assignToStack 64 64⟩, by decide, rfl⟩
    | v16f32 => exact ⟨⟨false, [.v16i32, .v16f32], .assignToStack 64 64⟩, by decide, rfl⟩
  obtain ⟨⟨loc, next⟩, assigned⟩ := Option.isSome_iff_exists.mp found
  obtain ⟨rule, member, applied⟩ := List.exists_of_findSome?_eq_some assigned
  exact ⟨loc, next, assigned, apply_takes member applied⟩

end Assignment

section Analysis

/-- Two arguments share no register and no byte of the stack. -/
def Apart (first second : CCValAssign) : Prop :=
  match first.loc, second.loc with
  | .reg register, .reg other => register ≠ other
  | .mem offset, .mem other =>
      offset + first.valVT.size ≤ other ∨ other + second.valVT.size ≤ offset
  | _, _ => True

/-- The location suits the type: a register of its class, or an aligned slot below `limit`. -/
def Placed (limit : Nat) (va : CCValAssign) : Prop :=
  match va.loc with
  | .reg register => register.cls = va.valVT.cls
  | .mem offset => va.valVT.size ∣ offset ∧ offset + va.valVT.size ≤ limit

def Free (state : CCState) (va : CCValAssign) : Prop :=
  match va.loc with
  | .reg register => register ∉ state.usedRegs
  | .mem offset => state.stackOffset ≤ offset

theorem size_pos (valVT : ArgVT) : 0 < valVT.size := by
  cases valVT <;> decide

section Steps

variable {valVT : ArgVT} {state next : CCState} {loc : Loc}

theorem takes_free (takes : Takes valVT state loc next) : Free state ⟨valVT, loc⟩ := by
  cases takes with
  | reg cls free => exact free
  | mem => exact le_align_to (size_pos valVT) _

theorem takes_placed (takes : Takes valVT state loc next) :
    Placed next.stackOffset ⟨valVT, loc⟩ := by
  cases takes with
  | reg cls free => exact cls
  | mem => exact ⟨align_to_dvd _, le_refl _⟩

theorem takes_offset_le (takes : Takes valVT state loc next) :
    state.stackOffset ≤ next.stackOffset := by
  cases takes with
  | reg cls free => exact le_refl _
  | mem => exact (le_align_to (size_pos valVT) _).trans (Nat.le_add_right _ _)

theorem takes_offset_bound (takes : Takes valVT state loc next) :
    next.stackOffset ≤ state.stackOffset + 128 := by
  cases takes with
  | reg cls free => exact Nat.le_add_right _ _
  | mem =>
      have below := align_to_lt (size_pos valVT) state.stackOffset
      have small : valVT.size ≤ 64 := by cases valVT <;> decide
      change alignTo state.stackOffset valVT.size + valVT.size ≤ state.stackOffset + 128
      omega

/-- What is free after an argument is apart from it, and was free before. -/
theorem takes_apart (takes : Takes valVT state loc next) {va : CCValAssign} (free : Free next va) :
    Apart ⟨valVT, loc⟩ va ∧ Free state va := by
  obtain ⟨laterVT, later⟩ := va
  have below := takes_offset_le takes
  cases takes with
  | reg cls isFree =>
      cases later with
      | reg other =>
          simp only [Free, List.mem_cons, not_or] at free
          exact ⟨fun same => free.1 same.symm, free.2⟩
      | mem other => exact ⟨trivial, free⟩
  | mem =>
      cases later with
      | reg other => exact ⟨trivial, free⟩
      | mem other => exact ⟨Or.inl free, below.trans free⟩

end Steps

theorem placed_mono {limit higher : Nat} (within : limit ≤ higher) {va : CCValAssign}
    (placed : Placed limit va) : Placed higher va := by
  obtain ⟨valVT, loc⟩ := va
  cases loc with
  | reg register => exact placed
  | mem offset => exact ⟨placed.1, placed.2.trans within⟩

structure Analyzed (state : CCState) (args : List ArgVT) (locs : List CCValAssign)
    (next : CCState) : Prop where
  types : locs.map CCValAssign.valVT = args
  offsets : state.stackOffset ≤ next.stackOffset
  bounded : next.stackOffset ≤ state.stackOffset + 128 * args.length
  placed : ∀ va ∈ locs, Placed next.stackOffset va
  free : ∀ va ∈ locs, Free state va
  apart : locs.Pairwise Apart

theorem analyze_from_spec (args : List ArgVT) (state : CCState) :
    ∃ locs next, analyzeFrom state args = some (locs, next) ∧ Analyzed state args locs next := by
  induction args generalizing state with
  | nil => exact ⟨[], state, rfl, rfl, le_refl _, le_refl _, by simp, by simp, List.Pairwise.nil⟩
  | cons valVT rest induction =>
      obtain ⟨loc, middle, assigned, takes⟩ := assign_takes valVT state
      obtain ⟨locs, next, analyzed, spec⟩ := induction middle
      have later (va : CCValAssign) (member : va ∈ locs) :=
        takes_apart takes (spec.free va member)
      refine ⟨⟨valVT, loc⟩ :: locs, next, ?_, ?_, ?_, ?_, ?_, ?_, ?_⟩
      · rw [analyzeFrom, assigned, Option.bind_some, analyzed, Option.map_some]
      · rw [List.map_cons, spec.types]
      · exact (takes_offset_le takes).trans spec.offsets
      · have first := takes_offset_bound takes
        have others := spec.bounded
        rw [List.length_cons]
        omega
      · exact List.forall_mem_cons.mpr
          ⟨placed_mono spec.offsets (takes_placed takes), spec.placed⟩
      · exact List.forall_mem_cons.mpr
          ⟨takes_free takes, fun va member => (later va member).2⟩
      · exact List.pairwise_cons.mpr ⟨fun va member => (later va member).1, spec.apart⟩

/-- The callee sees the locations the caller gave to the same leading arguments. -/
theorem analyze_from_append (declared extra : List ArgVT) (state : CCState) :
    analyzeFrom state (declared ++ extra) =
      (analyzeFrom state declared).bind fun first =>
        (analyzeFrom first.2 extra).map fun second => (first.1 ++ second.1, second.2) := by
  induction declared generalizing state with
  | nil =>
      rw [List.nil_append, analyzeFrom, Option.bind_some]
      cases analyzeFrom state extra <;> rfl
  | cons valVT rest induction =>
      rw [List.cons_append, analyzeFrom, analyzeFrom, Option.bind_assoc]
      congr 1
      funext first
      rw [induction, Option.map_bind, Option.bind_map]
      congr 1
      funext second
      rw [Function.comp_apply, Option.map_map]
      rfl

theorem next_offset_le (isVarArg : Bool) (args : List ArgVT) : ∃ locs next,
    analyze isVarArg args = some (locs, next) ∧ next.stackOffset ≤ 128 * args.length := by
  obtain ⟨locs, next, analyzed, spec⟩ := analyze_from_spec args ⟨isVarArg, [], 0⟩
  exact ⟨locs, next, analyzed, by simpa using spec.bounded⟩

end Analysis

section Agreement

/-- The callee takes the argument from where the caller has put it. -/
def Agrees (entrySP : Word) : Incoming → Outgoing → Prop
  | .copyFromReg cls register, .copyToReg other => other = register ∧ register.cls = cls
  | .load object, .store address size => address = object.address entrySP ∧ size = object.size
  | _, _ => False

theorem pass_agrees_receive {limit : Nat} {va : CCValAssign} (placed : Placed limit va)
    (stackPtr : Word) : Agrees stackPtr (receiveArgument va) (passArgument stackPtr va) := by
  obtain ⟨valVT, loc⟩ := va
  cases loc with
  | reg register => exact ⟨rfl, placed⟩
  | mem offset =>
      refine ⟨?_, rfl⟩
      rw [FixedObject.address, BitVec.ofInt_natCast]

/-- For every list of arguments, of which the callee declares a leading part, each has a place
of its own inside the argument area, and the callee finds those it declares there. -/
theorem caller_and_callee_agree (isVarArg : Bool) (declared extra : List ArgVT) (stackPtr : Word) :
    ∃ locs next call formals,
      analyze isVarArg (declared ++ extra) = some (locs, next) ∧
      locs.map CCValAssign.valVT = declared ++ extra ∧
      locs.Pairwise Apart ∧
      lowerCall isVarArg (declared ++ extra) stackPtr = some call ∧
      (∀ va ∈ locs, Placed call.argsSize va) ∧
      64 ∣ call.argsSize ∧
      lowerFormalArguments isVarArg declared = some formals ∧
      List.Forall₂ (Agrees stackPtr) formals (call.outgoing.take declared.length) := by
  obtain ⟨firstLocs, middle, firstAnalyzed, firstSpec⟩ :=
    analyze_from_spec declared ⟨isVarArg, [], 0⟩
  obtain ⟨locs, next, analyzed, spec⟩ :=
    analyze_from_spec (declared ++ extra) ⟨isVarArg, [], 0⟩
  have whole := analyzed
  rw [analyze_from_append, firstAnalyzed, Option.bind_some, Option.map_eq_some_iff] at whole
  obtain ⟨⟨extraLocs, last⟩, -, same⟩ := whole
  rw [Prod.mk.injEq] at same
  obtain ⟨joined, -⟩ := same
  have count : (firstLocs.map (passArgument stackPtr)).length = declared.length := by
    rw [← firstSpec.types, List.length_map, List.length_map]
  refine ⟨locs, next, ⟨alignTo next.stackOffset stackAlignment, locs.map (passArgument stackPtr)⟩,
    firstLocs.map receiveArgument, analyzed, spec.types, spec.apart, ?_, ?_, align_to_dvd _, ?_, ?_⟩
  · rw [lowerCall, analyze, analyzed, Option.map_some]
  · intro va member
    exact placed_mono (le_align_to (show 0 < stackAlignment by decide) _) (spec.placed va member)
  · rw [lowerFormalArguments, analyze, firstAnalyzed, Option.map_some]
  · rw [← joined, List.map_append, ← count, List.take_left, List.forall₂_map_left_iff,
      List.forall₂_map_right_iff, List.forall₂_same]
    intro va member
    exact pass_agrees_receive (firstSpec.placed va member) stackPtr

end Agreement

end NaplesPU.CallingConv
