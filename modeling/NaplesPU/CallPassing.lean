import NaplesPU.CallStack
import NaplesPU.FrameIndices
import NaplesPU.ReturnConvention
import NaplesPU.SpillRecognisers
import NaplesPU.Lib.SeparateWrites

/-!
The values of a call, from the caller to the callee and back. The caller stores and copies its
arguments in any order, the callee finds them behind its prologue, in registers or through
loads whose frame indices are replaced, and its results are in their registers behind its
epilogue.
-/

namespace NaplesPU.CallPassing

open Alignment ByteMemory TwosComplement SeparateWrites
open RegisterInfo InstrInfo FixupKinds MCCodeEmitter Machine FrameLayout StackSlots FrameLowering
open CallingConv CallStack FrameIndices ReturnConvention
open SpillRecognisers (loadOpcode)

section Passing

structure Value where
  valVT : ArgVT
  bits : BitVec (8 * valVT.size)

abbrev Passing := Outgoing × Value

def perform (state : MachineState) : Passing → MachineState
  | (.copyToReg register, value) => (setValue state.1 register (value.bits.setWidth _), state.2)
  | (.store address size, value) =>
      (state.1, storeWord state.2 address size (value.bits.setWidth (8 * size)))

def Passed : Passing → MachineState → Prop
  | (.copyToReg register, value), state =>
      (valueOf state.1 register).setWidth (8 * value.valVT.size) = value.bits
  | (.store address size, value), state =>
      (loadWord state.2 address size).setWidth (8 * value.valVT.size) = value.bits

def Separate : Outgoing → Outgoing → Prop
  | .copyToReg register, .copyToReg other => register ≠ other
  | .store address size, .store other otherSize =>
      ByteMemory.Apart address size other otherSize ∧
        ByteMemory.Apart other otherSize address size
  | _, _ => True

def Suits : Passing → Prop
  | (.copyToReg register, value) => register.cls.spillSize = value.valVT.size
  | (.store _ size, value) => size = value.valVT.size

theorem separate_symm {place other : Outgoing} (separate : Separate place other) :
    Separate other place := by
  cases place with
  | copyToReg register =>
      cases other with
      | copyToReg otherRegister => exact Ne.symm separate
      | store address size => trivial
  | store address size =>
      cases other with
      | copyToReg register => trivial
      | store otherAddress otherSize => exact And.symm separate

theorem set_width_back {width other : Nat} (same : other = width) (bits : BitVec width) :
    (bits.setWidth other).setWidth width = bits := by
  subst same
  rw [BitVec.setWidth_eq, BitVec.setWidth_eq]

theorem perform_passed {passing : Passing} (suits : Suits passing) (state : MachineState) :
    Passed passing (perform state passing) := by
  obtain ⟨place, value⟩ := passing
  cases place with
  | copyToReg register =>
      have wide : 8 * register.cls.spillSize = 8 * value.valVT.size := congrArg (8 * ·) suits
      rw [Passed, perform, value_of_set_value_same]
      exact set_width_back wide value.bits
  | store address size =>
      have wide : 8 * size = 8 * value.valVT.size := congrArg (8 * ·) suits
      have small : size ≤ 2 ^ 32 := by
        rw [show size = value.valVT.size from suits]
        cases value.valVT <;> decide
      rw [Passed, perform, load_word_store_word_same state.2 address small]
      exact set_width_back wide value.bits

theorem passed_perform {passing other : Passing} (separate : Separate passing.1 other.1)
    {state : MachineState} (passed : Passed passing state) :
    Passed passing (perform state other) := by
  obtain ⟨place, value⟩ := passing
  obtain ⟨otherPlace, otherValue⟩ := other
  cases place with
  | copyToReg register =>
      cases otherPlace with
      | copyToReg otherRegister =>
          rw [Passed, perform, value_of_set_value_other _ _ separate]
          exact passed
      | store address size => exact passed
  | store address size =>
      cases otherPlace with
      | copyToReg register => exact passed
      | store otherAddress otherSize =>
          rw [Passed, perform, load_word_store_word_apart separate.2]
          exact passed

end Passing

section Locations

def argumentRegs : List Register :=
  [sReg 0, sReg 1, sReg 2, sReg 3, sReg 4, sReg 5, sReg 6, sReg 7,
    vReg 0, vReg 1, vReg 2, vReg 3, vReg 4, vReg 5, vReg 6, vReg 7]

def actionRegisters : CCAction → List Register
  | .assignToReg regs => regs
  | .assignToStack _ _ => []

theorem apply_register {rule : CCRule} (listed : rule ∈ ccNaplesPU32) {valVT : ArgVT}
    {state next : CCState} {register : Register}
    (applied : rule.apply valVT state = some (.reg register, next)) : register ∈ argumentRegs := by
  rw [CCRule.apply] at applied
  split at applied
  case isTrue => cases applied
  case isFalse =>
      split at applied
      case h_1 regs isRegs =>
          rw [Option.map_eq_some_iff] at applied
          obtain ⟨⟨found, after⟩, allocated, same⟩ := applied
          rw [CCState.allocateReg, Option.map_eq_some_iff] at allocated
          obtain ⟨chosen, search, pair⟩ := allocated
          cases pair
          cases same
          have inRule := List.mem_of_find?_eq_some search
          have table : ∀ rule ∈ ccNaplesPU32, ∀ register ∈ actionRegisters rule.action,
              register ∈ argumentRegs := by decide
          apply table rule listed
          rw [isRegs]
          exact inRule
      case h_2 => cases applied

theorem analyze_from_registers {args : List ArgVT} {state next : CCState}
    {locs : List CCValAssign} (analyzed : analyzeFrom state args = some (locs, next)) :
    ∀ va ∈ locs, ∀ register, va.loc = .reg register → register ∈ argumentRegs := by
  induction args generalizing state locs with
  | nil =>
      cases analyzed
      exact List.forall_mem_nil _
  | cons valVT rest induction =>
      rw [analyzeFrom, Option.bind_eq_some_iff] at analyzed
      obtain ⟨⟨loc, middle⟩, assigned, analyzed⟩ := analyzed
      rw [Option.map_eq_some_iff] at analyzed
      obtain ⟨⟨others, last⟩, later, same⟩ := analyzed
      cases same
      rw [List.forall_mem_cons]
      refine ⟨?_, induction later⟩
      rintro register isReg
      rw [assign, List.findSome?_eq_some_iff] at assigned
      obtain ⟨before, rule, after, table, applied, -⟩ := assigned
      have listed : rule ∈ ccNaplesPU32 := by
        rw [table]
        exact List.mem_append_right before List.mem_cons_self
      cases isReg
      exact apply_register listed applied

end Locations

section Loads

theorem load_opcode_access (cls : RegClass) : isMemoryAccess (loadOpcode cls) = true := by
  cases cls <;> rfl

/-- The load of an argument from the stack into a register of either class. -/
def frameLoad (data : Register) : FrameAccess :=
  ⟨loadOpcode data.cls, data, load_opcode_access data.cls⟩

theorem frame_load_inst (data base : Register) (offset : Int) :
    (frameLoad data).inst base offset = loadRegFromStackSlot data base offset := by
  rcases data with ⟨cls, index⟩
  cases cls <;> rfl

theorem frame_load_runs {code : List MCInst} {data : Register} {scratch : Fin 64}
    {state : MachineState} {address : Word}
    (accesses : Accesses code (frameLoad data) scratch state.1 state.2 address) :
    ∃ loaded, run code state = some (loaded, state.2) ∧
      valueOf loaded data = loadWord state.2 address data.cls.spillSize := by
  obtain ⟨before, base, offset, addressed, rfl, fits, runsBefore, -, field⟩ := accesses
  have encoded := field_address_eq (sReg base) fits
    (access_address_encoded (frameLoad data) (sReg base) offset) addressed
  rw [field] at encoded
  refine ⟨setValue addressed data (loadWord state.2 address data.cls.spillSize), ?_,
    value_of_set_value_same _ _ _⟩
  have prepared : run before state = some (addressed, state.2) := runsBefore
  have loaded := exec_load_register addressed state.2 data base fits
  rw [run_append, prepared, Option.bind_some, frame_load_inst, encoded]
  exact exec_straight_cons loaded []

/-- Behind a prologue both pointers that an index is replaced with are where it expects them. -/
theorem start_frame_reg {activation : Activation} {start : MachineState}
    (holds : Holds activation start.1 start.2) (pointer : start.1.gpr 61 = activation.base)
    (frameIndex : Int) :
    start.1.gpr (frameReg activation.frame frameIndex).encoding = activation.base := by
  rw [frameReg, getFrameRegister]
  split
  · exact pointer
  · split
    · rename_i usesFP
      exact holds.framePointer usesFP
    · exact pointer

/-- An argument is in its register, or a load of its object gets it through any index, if the
replacement of the index reaches the object. -/
def Arrives (frame : MachineFrameInfo) (start : MachineState) : Incoming → Value → Prop
  | .copyFromReg cls register, value =>
      register.cls = cls ∧
        (valueOf start.1 register).setWidth (8 * value.valVT.size) = value.bits
  | .load object, value =>
      SignedFits 25 (frameOffset frame object.spOffset 0) →
        ∀ frameIndex scratch data, data.cls = value.valVT.cls → sReg scratch ∉ getReservedRegs →
          ∃ code loaded,
            FrameIndices.eliminateFrameIndex frame frameIndex object.spOffset 0 scratch
              (frameLoad data).inst = .ok code ∧
            run code start = some (loaded, start.2) ∧
            (valueOf loaded data).setWidth (8 * value.valVT.size) = value.bits

end Loads

section Arguments

theorem spill_size_eq (valVT : ArgVT) : valVT.cls.spillSize = valVT.size := by
  cases valVT <;> rfl

theorem placed_suits {limit : Nat} {va : CCValAssign} {value : Value} (stackPtr : Word)
    (placed : Placed limit va) (typed : va.valVT = value.valVT) :
    Suits (passArgument stackPtr va, value) := by
  obtain ⟨valVT, loc⟩ := va
  subst typed
  cases loc with
  | reg register => exact (congrArg RegClass.spillSize placed).trans (spill_size_eq value.valVT)
  | mem offset => rfl

theorem apart_offsets (base : Word) {first count second other : Nat}
    (apart : first + count ≤ second ∨ second + other ≤ first) (bounded : first < 2 ^ 32)
    (fits : first + count ≤ 2 ^ 32) (otherFits : second + other ≤ 2 ^ 32) :
    ByteMemory.Apart (base + BitVec.ofNat 32 first) count (base + BitVec.ofNat 32 second)
      other := by
  intro offset inside
  have distance : offsetFrom base (base + BitVec.ofNat 32 (second + offset)) = second + offset :=
    offset_from_add (by omega)
  rw [BitVec.add_assoc, ← BitVec.ofNat_add, offset_from_above base _ bounded, distance]
  split <;> omega

theorem apart_separate {limit : Nat} (fits : limit ≤ 2 ^ 32) {first second : CCValAssign}
    (stackPtr : Word) (firstPlaced : Placed limit first) (secondPlaced : Placed limit second)
    (apart : CallingConv.Apart first second) :
    Separate (passArgument stackPtr first) (passArgument stackPtr second) := by
  obtain ⟨firstVT, firstLoc⟩ := first
  obtain ⟨secondVT, secondLoc⟩ := second
  cases firstLoc with
  | reg register =>
      cases secondLoc with
      | reg other => exact apart
      | mem offset => trivial
  | mem offset =>
      cases secondLoc with
      | reg other => trivial
      | mem other =>
          have positive := size_pos firstVT
          have otherPositive := size_pos secondVT
          have inside : offset + firstVT.size ≤ limit := firstPlaced.2
          have otherInside : other + secondVT.size ≤ limit := secondPlaced.2
          have order : offset + firstVT.size ≤ other ∨ other + secondVT.size ≤ offset := apart
          have ahead : ByteMemory.Apart (stackPtr + BitVec.ofNat 32 offset) firstVT.size
              (stackPtr + BitVec.ofNat 32 other) secondVT.size :=
            apart_offsets stackPtr order (by omega) (by omega) (by omega)
          have behind : ByteMemory.Apart (stackPtr + BitVec.ofNat 32 other) secondVT.size
              (stackPtr + BitVec.ofNat 32 offset) firstVT.size :=
            apart_offsets stackPtr order.symm (by omega) (by omega) (by omega)
          exact ⟨ahead, behind⟩

/-- The arguments with the places that the analysis gave them. -/
def passings (stackPtr : Word) (locs : List CCValAssign) (values : List Value) : List Passing :=
  (locs.map (passArgument stackPtr)).zip values

theorem zip_typed {locs : List CCValAssign} {values : List Value}
    (typed : locs.map CCValAssign.valVT = values.map Value.valVT) {va : CCValAssign}
    {value : Value} (listed : (va, value) ∈ locs.zip values) : va.valVT = value.valVT := by
  have both : List.Forall₂ Eq (locs.map CCValAssign.valVT) (values.map Value.valVT) := by
    rw [typed]
    exact List.forall₂_refl _
  rw [List.forall₂_map_left_iff, List.forall₂_map_right_iff, List.forall₂_iff_zip] at both
  exact both.2 listed

theorem passing_listed {stackPtr : Word} {locs : List CCValAssign} {values : List Value}
    {passing : Passing} (listed : passing ∈ passings stackPtr locs values) :
    ∃ va value, (va, value) ∈ locs.zip values ∧ passing = (passArgument stackPtr va, value) := by
  rw [passings, List.zip_map_left, List.mem_map] at listed
  obtain ⟨⟨va, value⟩, inZip, same⟩ := listed
  exact ⟨va, value, inZip, same.symm⟩

theorem passings_separate {stackPtr : Word} {limit : Nat} (fits : limit ≤ 2 ^ 32)
    {locs : List CCValAssign} {values : List Value} (placed : ∀ va ∈ locs, Placed limit va)
    (apart : locs.Pairwise CallingConv.Apart) :
    (passings stackPtr locs values).Pairwise fun passing other => Separate passing.1 other.1 := by
  induction locs generalizing values with
  | nil => exact List.Pairwise.nil
  | cons va locs induction =>
      cases values with
      | nil => exact List.Pairwise.nil
      | cons value values =>
          rw [List.forall_mem_cons] at placed
          rw [List.pairwise_cons] at apart
          refine List.Pairwise.cons ?_ (induction placed.2 apart.2)
          intro other listed
          have place := (List.of_mem_zip listed).1
          rw [List.mem_map] at place
          obtain ⟨otherVa, inLocs, same⟩ := place
          rw [← same]
          exact apart_separate fits stackPtr placed.1 (placed.2 otherVa inLocs)
            (apart.1 otherVa inLocs)

theorem all_passed {stackPtr : Word} {limit : Nat} (fits : limit ≤ 2 ^ 32)
    {locs : List CCValAssign} {values : List Value} (placed : ∀ va ∈ locs, Placed limit va)
    (apart : locs.Pairwise CallingConv.Apart)
    (typed : locs.map CCValAssign.valVT = values.map Value.valVT) {order : List Passing}
    (permuted : order.Perm (passings stackPtr locs values)) (state : MachineState) :
    ∀ passing ∈ passings stackPtr locs values, Passed passing (order.foldl perform state) := by
  intro passing listed
  refine written_in_any_order (fun _ => True) (fun separate => separate_symm separate)
    (fun _ _ _ _ => trivial) ?_ ?_ (passings_separate fits placed apart) permuted trivial passing
    listed
  · intro written inList next _
    obtain ⟨va, value, inZip, rfl⟩ := passing_listed inList
    exact perform_passed (placed_suits stackPtr (placed va (List.of_mem_zip inZip).1)
      (zip_typed typed inZip)) next
  · intro written _ other _ separate next _ passed
    exact passed_perform separate passed

/-- The registers of arguments are live when the prologue runs, which then does not use them. -/
def LiveInsKept {frame : Frame} (scavenger : Scavenger frame) (formals : List Incoming) : Prop :=
  ∀ cls register, Incoming.copyFromReg cls register ∈ formals →
    register ≠ sReg scavenger.prologue ∧ ∀ saved, register ≠ sReg (scavenger.spill saved)

theorem argument_prologue_keeps {frame : Frame} {scavenger : Scavenger frame}
    {register : Register} (isArgument : register ∈ argumentRegs)
    (live : register ≠ sReg scavenger.prologue ∧ ∀ saved, register ≠ sReg (scavenger.spill saved)) :
    PrologueKeeps scavenger register where
  stackPointer := by
    rintro rfl
    revert isArgument
    decide
  framePointer _ := by
    rintro rfl
    revert isArgument
    decide
  adjustment := live.1
  spills := live.2

theorem passed_stack_pointer {stackPtr : Word} {locs : List CCValAssign} {values : List Value}
    (inTable : ∀ va ∈ locs, ∀ register, va.loc = .reg register → register ∈ argumentRegs)
    {order : List Passing} (permuted : order.Perm (passings stackPtr locs values))
    (state : MachineState) : (order.foldl perform state).1.gpr 61 = state.1.gpr 61 := by
  apply @kept_by_all _ _ perform order (fun next => next.1.gpr 61 = state.1.gpr 61) ?_ state rfl
  intro passing inOrder next kept
  obtain ⟨⟨valVT, loc⟩, value, inZip, rfl⟩ := passing_listed (permuted.mem_iff.mp inOrder)
  cases loc with
  | mem offset => exact kept
  | reg register =>
      have isArgument := inTable _ (List.of_mem_zip inZip).1 register rfl
      have apart : SP_REG ≠ register := by
        rintro rfl
        revert isArgument
        decide
      rw [← kept]
      exact value_of_set_value_other next.1 _ apart

theorem argument_area_untouched {function : MachineFunction} {entry start : MachineState}
    (room : roundedStackSize function.frame.toMachineFrameInfo ≤ (entry.1.gpr 61).toNat)
    (untouched : ∀ cell, ¬ Covers function.frame.toMachineFrameInfo
      (entry.1.gpr 61 - stackSizeInt function.frame.toMachineFrameInfo) cell →
        start.2 cell = entry.2 cell)
    {offset size : Nat} (inside : (entry.1.gpr 61).toNat + offset + size ≤ 2 ^ 32) :
    loadWord start.2 (entry.1.gpr 61 + BitVec.ofNat 32 offset) size =
      loadWord entry.2 (entry.1.gpr 61 + BitVec.ofNat 32 offset) size := by
  apply load_word_congr
  intro byte within
  apply untouched
  intro covered
  have below := (in_slot_bounds function.frame room covered).2
  rw [BitVec.add_assoc, ← BitVec.ofNat_add, BitVec.toNat_add, BitVec.toNat_ofNat] at below
  omega

section Callee

variable {function : MachineFunction} {entry start : MachineState}
  (room : roundedStackSize function.frame.toMachineFrameInfo ≤ (entry.1.gpr 61).toNat)
  (entered : Entered function.frame.toMachineFrameInfo entry start)
  (kept : ∀ reg, PrologueKeeps function.scavenger reg → valueOf start.1 reg = valueOf entry.1 reg)
  (untouched : ∀ cell, ¬ Covers function.frame.toMachineFrameInfo
    (entry.1.gpr 61 - stackSizeInt function.frame.toMachineFrameInfo) cell →
      start.2 cell = entry.2 cell)

include room entered kept untouched in
/-- What was passed on the stack is loaded through any index of its object. -/
theorem stack_argument_arrives {valVT : ArgVT} {offset limit : Nat} {value : Value}
    (typed : valVT = value.valVT) (inside : offset + valVT.size ≤ limit)
    (area : (entry.1.gpr 61).toNat + limit ≤ 2 ^ 32)
    (passed : Passed (passArgument (entry.1.gpr 61) ⟨valVT, .mem offset⟩, value) entry) :
    Arrives function.frame.toMachineFrameInfo start (receiveArgument ⟨valVT, .mem offset⟩)
      value := by
  intro reached frameIndex scratch data cls unreserved
  have holds := holds_entered room entered kept
  have based := start_frame_reg holds entered.stackPointer frameIndex
  obtain ⟨code, eliminated, accesses⟩ := eliminated_access function.frame.toMachineFrameInfo
    frameIndex (frameLoad data) start.1 start.2 offset 0 unreserved based reached
  obtain ⟨loaded, runs, held⟩ := frame_load_runs accesses
  refine ⟨code, loaded, eliminated, runs, ?_⟩
  have size : data.cls.spillSize = valVT.size := by
    rw [cls, ← typed, spill_size_eq]
  have address : entry.1.gpr 61 + BitVec.ofInt 32 (offset + 0) =
      entry.1.gpr 61 + BitVec.ofNat 32 offset := by
    rw [Int.add_zero, BitVec.ofInt_natCast]
  rw [held, address, size, argument_area_untouched room untouched (by omega)]
  exact passed

include kept in
theorem register_argument_arrives {valVT : ArgVT} {register : Register} {value : Value}
    (cls : register.cls = valVT.cls) (isArgument : register ∈ argumentRegs)
    (live : register ≠ sReg function.scavenger.prologue ∧
      ∀ saved, register ≠ sReg (function.scavenger.spill saved))
    (passed : Passed (.copyToReg register, value) entry) :
    Arrives function.frame.toMachineFrameInfo start (receiveArgument ⟨valVT, .reg register⟩)
      value := by
  refine ⟨cls, ?_⟩
  rw [kept register (argument_prologue_keeps isArgument live)]
  exact passed

end Callee

theorem passed_called {passing : Passing} {state : MachineState}
    (inTable : ∀ register, passing.1 = .copyToReg register → register ∈ argumentRegs)
    (passed : Passed passing state) (returnAddress : Word) :
    Passed passing (called state returnAddress) := by
  obtain ⟨place, value⟩ := passing
  cases place with
  | store address size => exact passed
  | copyToReg register =>
      have apart : register ≠ RA_REG := by
        have isArgument := inTable register rfl
        rintro rfl
        revert isArgument
        decide
      have kept : valueOf (called state returnAddress).1 register = valueOf state.1 register :=
        value_of_set_gpr_other state.1 _ apart
      rw [Passed, kept]
      exact passed

theorem pass_register {stackPtr : Word} {va : CCValAssign} {register : Register}
    (passes : passArgument stackPtr va = .copyToReg register) : va.loc = .reg register := by
  obtain ⟨valVT, loc⟩ := va
  cases loc with
  | reg other =>
      cases passes
      rfl
  | mem offset => cases passes

theorem passing_of_zip {stackPtr : Word} {locs : List CCValAssign} {values : List Value}
    {va : CCValAssign} {value : Value} (listed : (va, value) ∈ locs.zip values) :
    (passArgument stackPtr va, value) ∈ passings stackPtr locs values := by
  rw [passings, List.zip_map_left]
  exact List.mem_map_of_mem listed

/-- The caller gives the declared arguments the places in which the callee sees them. -/
theorem leading_listed {declared extra : List Value} {state next middle : CCState}
    {locs firstLocs : List CCValAssign}
    (analyzed : analyzeFrom state ((declared ++ extra).map Value.valVT) = some (locs, next))
    (firstAnalyzed : analyzeFrom state (declared.map Value.valVT) = some (firstLocs, middle))
    (length : firstLocs.length = declared.length) {pair : CCValAssign × Value}
    (listed : pair ∈ firstLocs.zip declared) : pair ∈ locs.zip (declared ++ extra) := by
  rw [List.map_append, analyze_from_append, firstAnalyzed, Option.bind_some,
    Option.map_eq_some_iff] at analyzed
  obtain ⟨⟨extraLocs, last⟩, -, same⟩ := analyzed
  cases same
  rw [List.zip_append length]
  exact List.mem_append_left _ listed

/-- In whatever order a caller stores and copies its arguments, those that the callee declares
are behind its prologue in their registers, or in objects from which its loads get them. -/
theorem arguments_arrive (isVarArg : Bool) (declared extra : List Value)
    (function : MachineFunction) (state : MachineState) (returnAddress : Word) {call : Call}
    {formals : List Incoming}
    (lowered : lowerCall isVarArg ((declared ++ extra).map Value.valVT) (state.1.gpr 61) =
      some call)
    (received : lowerFormalArguments isVarArg (declared.map Value.valVT) = some formals)
    (area : (state.1.gpr 61).toNat + call.argsSize ≤ 2 ^ 32)
    (room : roundedStackSize function.frame.toMachineFrameInfo ≤ (state.1.gpr 61).toNat)
    (live : LiveInsKept function.scavenger formals) {order : List Passing}
    (permuted : order.Perm (call.outgoing.zip (declared ++ extra))) :
    ∃ start, run function.prologue (called (order.foldl perform state) returnAddress) =
        some start ∧
      List.Forall₂ (Arrives function.frame.toMachineFrameInfo start) formals declared := by
  obtain ⟨locs, next, analyzed, spec⟩ :=
    analyze_from_spec ((declared ++ extra).map Value.valVT) ⟨isVarArg, [], 0⟩
  obtain ⟨firstLocs, middle, firstAnalyzed, firstSpec⟩ :=
    analyze_from_spec (declared.map Value.valVT) ⟨isVarArg, [], 0⟩
  rw [lowerCall, analyze, analyzed, Option.map_some, Option.some.injEq] at lowered
  rw [lowerFormalArguments, analyze, firstAnalyzed, Option.map_some, Option.some.injEq] at received
  subst lowered received
  have inTable := analyze_from_registers analyzed
  have below : next.stackOffset ≤ alignTo next.stackOffset stackAlignment :=
    le_align_to (show 0 < stackAlignment by decide) _
  change (state.1.gpr 61).toNat + alignTo next.stackOffset stackAlignment ≤ 2 ^ 32 at area
  have passed := all_passed (show next.stackOffset ≤ 2 ^ 32 by omega) spec.placed spec.apart
    spec.types permuted state
  have pointer : (called (order.foldl perform state) returnAddress).1.gpr 61 = state.1.gpr 61 :=
    passed_stack_pointer inTable permuted state
  rcases prologue_spec function (called (order.foldl perform state) returnAddress) with
    ⟨start, runs, entered, kept, untouched⟩
  refine ⟨start, runs, ?_⟩
  rw [List.forall₂_map_left_iff, List.forall₂_iff_zip]
  have length : firstLocs.length = declared.length := by
    rw [← List.length_map CCValAssign.valVT, firstSpec.types, List.length_map]
  refine ⟨length, ?_⟩
  intro va value inZip
  have inLocs := (List.of_mem_zip inZip).1
  have typed := zip_typed firstSpec.types inZip
  have listed := leading_listed analyzed firstAnalyzed length inZip
  obtain ⟨valVT, loc⟩ := va
  have handed := passed_called (fun register passes => inTable _ (List.of_mem_zip listed).1 register
    (pass_register passes)) (passed _ (passing_of_zip listed)) returnAddress
  cases loc with
  | reg register =>
      apply register_argument_arrives kept (firstSpec.placed _ inLocs)
        (inTable _ (List.of_mem_zip listed).1 register rfl) ?_ handed
      exact live valVT.cls register (List.mem_map_of_mem inLocs)
  | mem offset =>
      rw [← pointer] at handed area room
      have placed := (spec.placed _ (List.of_mem_zip listed).1).2
      exact stack_argument_arrives room entered kept untouched typed placed (by omega) handed

/-- Nine words, one more than there are registers, and a vector that the callee does not
declare. -/
def nineWords : List Value := (List.range 9).map fun index => ⟨.i32, BitVec.ofNat 32 (100 + index)⟩

def extraVector : List Value := [⟨.v16i32, 7⟩]

def nineWordsPassed : List Passing :=
  [(.copyToReg (sReg 0), ⟨.i32, 100⟩), (.copyToReg (sReg 1), ⟨.i32, 101⟩),
    (.copyToReg (sReg 2), ⟨.i32, 102⟩), (.copyToReg (sReg 3), ⟨.i32, 103⟩),
    (.copyToReg (sReg 4), ⟨.i32, 104⟩), (.copyToReg (sReg 5), ⟨.i32, 105⟩),
    (.copyToReg (sReg 6), ⟨.i32, 106⟩), (.copyToReg (sReg 7), ⟨.i32, 107⟩),
    (.store 0x1000 4, ⟨.i32, 108⟩), (.copyToReg (vReg 0), ⟨.v16i32, 7⟩)]

def nineFormals : List Incoming :=
  [.copyFromReg .GPR32 (sReg 0), .copyFromReg .GPR32 (sReg 1), .copyFromReg .GPR32 (sReg 2),
    .copyFromReg .GPR32 (sReg 3), .copyFromReg .GPR32 (sReg 4), .copyFromReg .GPR32 (sReg 5),
    .copyFromReg .GPR32 (sReg 6), .copyFromReg .GPR32 (sReg 7), .load ⟨4, 0⟩]

/-- The last of the words was stored, and is loaded over the frame. -/
theorem ninth_word_arrives :
    ∃ start code loaded,
      run callingFunction.prologue (called (nineWordsPassed.reverse.foldl perform callerState) 12) =
        some start ∧
      valueOf start.1 (sReg 3) = (103 : Word) ∧
      FrameIndices.eliminateFrameIndex mixedFrame.toMachineFrameInfo (-1) 0 0 9
        (frameLoad (sReg 10)).inst = .ok code ∧
      run code start = some (loaded, start.2) ∧ valueOf loaded (sReg 10) = (108 : Word) := by
  have lowered : lowerCall false ((nineWords ++ extraVector).map Value.valVT)
      (callerState.1.gpr 61) = some ⟨64, nineWordsPassed.map Prod.fst⟩ := by decide
  have received : lowerFormalArguments false (nineWords.map Value.valVT) = some nineFormals := by
    decide
  have live : LiveInsKept callingFunction.scavenger nineFormals := by
    intro cls register listed
    have apart : register ≠ sReg 8 := by
      rintro rfl
      revert listed
      cases cls <;> decide
    exact ⟨apart, fun _ => apart⟩
  have permuted : nineWordsPassed.reverse.Perm
      ((nineWordsPassed.map Prod.fst).zip (nineWords ++ extraVector)) :=
    List.reverse_perm nineWordsPassed
  obtain ⟨start, runs, arrived⟩ := arguments_arrive false nineWords extraVector callingFunction
    callerState 12 lowered received (by decide) (by decide) live permuted
  rw [List.forall₂_iff_get] at arrived
  obtain ⟨-, third⟩ := arrived.2 3 (by decide) (by decide)
  obtain ⟨code, loaded, eliminated, runsLoad, ninth⟩ := arrived.2 8 (by decide) (by decide)
    (by decide) (-1) 9 (sReg 10) rfl (by decide)
  exact ⟨start, code, loaded, runs, third, eliminated, runsLoad, ninth⟩

end Arguments

section Results

/-- The analysis of a return gives each value another register of its class. -/
theorem analyze_return_registers {state : CCState} {outs : List ArgVT} {rvLocs : List CCValAssign}
    (analyzed : analyzeReturnFrom state outs = some rvLocs) :
    ∃ registers, rvLocs.mapM getLocReg = some registers ∧
      List.Forall₂ (fun register valVT => register ∈ returnRegs valVT.cls) registers outs ∧
      (∀ register ∈ registers, register ∉ state.usedRegs) ∧ registers.Nodup := by
  induction outs generalizing state rvLocs with
  | nil =>
      cases analyzed
      exact ⟨[], rfl, List.Forall₂.nil, List.forall_mem_nil _, List.nodup_nil⟩
  | cons valVT rest induction =>
      rw [analyzeReturnFrom, Option.bind_eq_some_iff] at analyzed
      obtain ⟨⟨loc, next⟩, assigned, analyzed⟩ := analyzed
      rw [Option.map_eq_some_iff] at analyzed
      obtain ⟨others, later, same⟩ := analyzed
      rw [assign_return_eq, Option.map_eq_some_iff] at assigned
      obtain ⟨⟨register, after⟩, allocated, located⟩ := assigned
      rw [CCState.allocateReg, Option.map_eq_some_iff] at allocated
      obtain ⟨found, search, taken⟩ := allocated
      cases taken
      cases located
      obtain ⟨registers, read, classes, free, nodup⟩ := induction later
      have isFree := List.find?_some search
      rw [decide_eq_true_eq] at isFree
      refine ⟨register :: registers, ?_,
        List.Forall₂.cons (List.mem_of_find?_eq_some search) classes, ?_, ?_⟩
      · rw [← same, List.mapM_cons, read]
        rfl
      · rw [List.forall_mem_cons]
        exact ⟨isFree, fun other listed used => free other listed (List.mem_cons_of_mem _ used)⟩
      · rw [List.nodup_cons]
        exact ⟨fun listed => free register listed List.mem_cons_self, nodup⟩

def returnedValue (values : List Value) (structAddress : Word) : Returned → Value
  | .value index => values.getD index ⟨.i32, structAddress⟩
  | .sretReturnReg => ⟨.i32, structAddress⟩

def returnPassing (values : List Value) (structAddress : Word) (copy : ReturnCopy) : Passing :=
  (.copyToReg copy.register, returnedValue values structAddress copy.source)

def results (signature : Signature) (registers : List Register) (values : List Value)
    (structAddress : Word) : List (Register × Value) :=
  registers.zip values ++
    if signature.hasStructRetAttr then [(sReg 0, ⟨.i32, structAddress⟩)] else []

def copyResult : Register × Value → Passing
  | (register, value) => (.copyToReg register, value)

theorem copied_values {registers : List Register} {values : List Value}
    (length : registers.length = values.length) (structAddress : Word) :
    (registers.zipIdx.map fun (register, index) => ReturnCopy.mk register (.value index)).map
        (returnPassing values structAddress) =
      (registers.zip values).map copyResult := by
  apply List.ext_getElem
  · simp [length]
  · intro index inside _
    rw [List.length_map, List.length_map, List.length_zipIdx] at inside
    have present : index < values.length := by omega
    simp [returnPassing, returnedValue, copyResult, present]

/-- The registers of results are scavenged neither for the stack pointer nor for a reload. -/
def LiveOutsKept {frame : Frame} (scavenger : Scavenger frame) (copies : List ReturnCopy) : Prop :=
  ∀ copy ∈ copies, copy.register ≠ sReg scavenger.epilogue ∧
    ∀ saved, copy.register ≠ sReg (scavenger.reload saved)

theorem result_epilogue_keeps {frame : Frame} {scavenger : Scavenger frame} {register : Register}
    {cls : RegClass} (isResult : register ∈ returnRegs cls)
    (live : register ≠ sReg scavenger.epilogue ∧
      ∀ saved, register ≠ sReg (scavenger.reload saved)) :
    EpilogueKeeps scavenger register where
  stackPointer := by
    rintro rfl
    revert isResult
    cases cls <;> decide
  unsaved saved := by
    have isCalleeSaved := frame.saved_callee register saved
    have apart : ∀ cls, ∀ register ∈ returnRegs cls, register ∉ calleeSavedRegs := by
      intro cls
      cases cls <;> decide
    exact apart cls register isResult isCalleeSaved
  adjustment := live.1
  reloads := live.2

section Copies

variable {signature : Signature} {registers : List Register} {values : List Value}
  {structAddress : Word}

theorem results_classes
    (classes : List.Forall₂ (fun register valVT => register ∈ returnRegs valVT.cls) registers
      (values.map Value.valVT)) :
    ∀ result ∈ results signature registers values structAddress,
      result.1 ∈ returnRegs result.2.valVT.cls := by
  rw [results, List.forall_mem_append]
  constructor
  · rintro ⟨register, value⟩ listed
    rw [List.forall₂_map_right_iff, List.forall₂_iff_zip] at classes
    exact classes.2 listed
  · split
    case isTrue =>
        have first : sReg 0 ∈ returnRegs .GPR32 := by decide
        exact List.forall_mem_singleton.mpr first
    case isFalse => exact List.forall_mem_nil _

/-- With a structure for its result a function returns no values. -/
theorem results_nodup (typed : values.map Value.valVT = signature.outs)
    (length : registers.length = values.length) (nodup : registers.Nodup) :
    ((results signature registers values structAddress).map Prod.fst).Nodup := by
  rw [results]
  split
  case isTrue sret =>
      rw [signature.void sret, List.map_eq_nil_iff] at typed
      rw [typed, List.zip_nil_right]
      exact List.nodup_singleton _
  case isFalse =>
      rw [List.append_nil, List.map_fst_zip length.le]
      exact nodup

theorem results_passed
    (inClass : ∀ result ∈ results signature registers values structAddress,
      result.1 ∈ returnRegs result.2.valVT.cls)
    (nodup : ((results signature registers values structAddress).map Prod.fst).Nodup)
    {order : List Passing}
    (permuted : order.Perm ((results signature registers values structAddress).map copyResult))
    (state : MachineState) :
    ∀ result ∈ results signature registers values structAddress,
      Passed (copyResult result) (order.foldl perform state) := by
  have separate : ((results signature registers values structAddress).map copyResult).Pairwise
      fun passing other => Separate passing.1 other.1 := by
    rw [List.pairwise_map]
    rw [List.Nodup, List.pairwise_map] at nodup
    exact nodup.imp fun apart => apart
  have passed : ∀ passing ∈ (results signature registers values structAddress).map copyResult,
      Passed passing (order.foldl perform state) := by
    refine written_in_any_order (fun _ => True) (fun separate => separate_symm separate)
      (fun _ _ _ _ => trivial) ?_ ?_ separate permuted trivial
    · intro passing listed next _
      obtain ⟨⟨register, value⟩, inResults, rfl⟩ := List.mem_map.mp listed
      have cls := (return_regs_low _ register (inClass _ inResults)).1
      have suits : Suits (copyResult (register, value)) :=
        (congrArg RegClass.spillSize cls).trans (spill_size_eq value.valVT)
      exact perform_passed suits next
    · intro passing _ other _ apart next _ held
      exact passed_perform apart held
  intro result listed
  exact passed _ (List.mem_map_of_mem listed)

end Copies

def Delivered (state : MachineState) (register : Register) (value : Value) : Prop :=
  Passed (.copyToReg register, value) state

theorem return_reg_kept {cls : RegClass} {register : Register}
    (isResult : register ∈ returnRegs cls) (registers : Registers)
    (value : BitVec (8 * register.cls.spillSize)) :
    Agree registers (setValue registers register value) := by
  have apart : ∀ cls, ∀ register ∈ returnRegs cls,
      register ∉ calleeSavedRegs ∧ register ≠ SP_REG := by
    intro cls
    cases cls <;> decide
  obtain ⟨unsaved, notPointer⟩ := apart cls register isResult
  constructor
  · exact value_of_set_value_other registers value notPointer.symm
  · intro saved member
    apply value_of_set_value_other registers value
    rintro rfl
    exact unsaved member

/-- The copies of results leave the stack pointer, all callee-saved registers and memory alone. -/
theorem copies_agree {order : List Passing}
    (isResult : ∀ passing ∈ order, ∃ register value cls,
      passing = copyResult (register, value) ∧ register ∈ returnRegs cls)
    (state : MachineState) :
    Agree state.1 (order.foldl perform state).1 ∧ (order.foldl perform state).2 = state.2 := by
  induction order generalizing state with
  | nil => exact ⟨⟨rfl, fun _ _ => rfl⟩, rfl⟩
  | cons passing rest induction =>
      rw [List.forall_mem_cons] at isResult
      obtain ⟨⟨register, value, cls, rfl, inClass⟩, others⟩ := isResult
      have first := return_reg_kept inClass state.1 (value.bits.setWidth _)
      obtain ⟨later, memory⟩ := induction others (perform state (copyResult (register, value)))
      refine ⟨⟨later.1.trans first.1, fun saved member => ?_⟩, memory⟩
      exact (later.2 saved member).trans (first.2 saved member)

/-- In whatever order a function copies its results, the caller finds them behind the epilogue
in the registers from which it copies them; the address of a structure is in the first. Where the
body has kept what its prologue left, the stack pointer and all callee-saved registers are those
of the call. -/
theorem results_arrive (function : MachineFunction) (signature : Signature)
    (callerIsVarArg : Bool) (values : List Value) (structAddress : Word) (finish : MachineState)
    (typed : values.map Value.valVT = signature.outs) {copies : List ReturnCopy}
    (lowered : LowerReturn signature = some copies)
    (live : LiveOutsKept function.scavenger copies) {order : List Passing}
    (permuted : order.Perm (copies.map (returnPassing values structAddress))) :
    ∃ registers exit, callResults callerIsVarArg signature.outs = some registers ∧
      run function.epilogue (order.foldl perform finish) = some exit ∧
      List.Forall₂ (Delivered exit) registers values ∧
      (signature.hasStructRetAttr = true → valueOf exit.1 (sReg 0) = structAddress) ∧
      (∀ entry, Holds ⟨function, entry, none⟩ finish.1 finish.2 →
        exit.1.gpr 61 = entry.1.gpr 61 ∧
          ∀ saved ∈ calleeSavedRegs, valueOf exit.1 saved = valueOf entry.1 saved) ∧
      exit.2 = finish.2 := by
  have analysis := lowered
  rw [LowerReturn, Option.bind_eq_some_iff] at analysis
  obtain ⟨rvLocs, analyzed, copied⟩ := analysis
  obtain ⟨registers, read, classes, -, nodup⟩ := analyze_return_registers analyzed
  rw [read, Option.map_some, Option.some.injEq] at copied
  have length : registers.length = values.length := by
    rw [classes.length_eq, ← typed, List.length_map]
  have passings : copies.map (returnPassing values structAddress) =
      (results signature registers values structAddress).map copyResult := by
    rw [← copied, List.map_append, copied_values length, results, List.map_append]
    split
    case isTrue => rfl
    case isFalse => rfl
  have called : callResults callerIsVarArg signature.outs = some registers := by
    rw [callResults, analyzeReturn, analyze_return_any_var_arg callerIsVarArg signature.isVarArg]
    rw [analyzeReturn] at analyzed
    rw [analyzed, Option.bind_some, read]
  rw [← typed] at classes
  have inClass : ∀ result ∈ results signature registers values structAddress,
      result.1 ∈ returnRegs result.2.valVT.cls := results_classes classes
  rw [passings] at permuted
  have isResult : ∀ passing ∈ order, ∃ register value cls,
      passing = copyResult (register, value) ∧ register ∈ returnRegs cls := by
    intro passing listed
    obtain ⟨⟨register, value⟩, inResults, rfl⟩ := List.mem_map.mp (permuted.mem_iff.mp listed)
    exact ⟨register, value, _, rfl, inClass _ inResults⟩
  obtain ⟨copied, sameMemory⟩ := copies_agree isResult finish
  have passed := results_passed inClass (results_nodup typed length nodup) permuted finish
  obtain ⟨-, -, isEpilogue⟩ := code_of_emitted function
  obtain ⟨exit, runs, kept, memory⟩ := epilogue_leaves function.frame function.scavenger
    (order.foldl perform finish)
  have delivered : ∀ result ∈ results signature registers values structAddress,
      Delivered exit result.1 result.2 := by
    rintro ⟨register, value⟩ listed
    have performed : copyResult (register, value) ∈
        copies.map (returnPassing values structAddress) := by
      rw [passings]
      exact List.mem_map_of_mem listed
    obtain ⟨copy, inCopies, same⟩ := List.mem_map.mp performed
    cases same
    rw [Delivered, Passed, kept _ (result_epilogue_keeps (inClass _ listed) (live copy inCopies))]
    exact passed _ listed
  refine ⟨registers, exit, called, isEpilogue ▸ runs, ?_, ?_, ?_, memory.trans sameMemory⟩
  · rw [List.forall₂_iff_zip]
    exact ⟨length, fun listed => delivered _ (List.mem_append_left _ listed)⟩
  · intro sret
    have last : (sReg 0, (⟨.i32, structAddress⟩ : Value)) ∈
        results signature registers values structAddress := by
      rw [results, if_pos sret]
      exact List.mem_append_right _ List.mem_cons_self
    exact delivered _ last
  · intro entry holds
    have stacked : Stacked [⟨function, entry, none⟩] finish.1 finish.2 := ⟨holds, trivial⟩
    rw [← sameMemory] at stacked
    obtain ⟨ready, -⟩ := stacked_agree copied stacked
    obtain ⟨restored, runsRestored, agree, -⟩ := epilogue_spec ready
    rw [isEpilogue] at runsRestored
    rw [runs, Option.some.injEq] at runsRestored
    subst runsRestored
    exact agree

def threeResults : Signature := ⟨false, false, [.i32, .v16f32, .f32], by decide⟩

def threeValues : List Value := [⟨.i32, 11⟩, ⟨.v16f32, 22⟩, ⟨.f32, 33⟩]

/-- The copies are made from the last to the first, between the prologue and the epilogue. -/
theorem three_results_arrive :
    ∃ start exit, run callingFunction.prologue callerState = some start ∧
      run callingFunction.epilogue
        ([(.copyToReg (sReg 1), ⟨.f32, 33⟩), (.copyToReg (vReg 0), ⟨.v16f32, 22⟩),
          (.copyToReg (sReg 0), ⟨.i32, 11⟩)].foldl perform start) = some exit ∧
      valueOf exit.1 (sReg 0) = (11 : Word) ∧ valueOf exit.1 (sReg 1) = (33 : Word) ∧
      exit.1.gpr 61 = 0x1000 := by
  have lowered : LowerReturn threeResults =
      some [⟨sReg 0, .value 0⟩, ⟨vReg 0, .value 1⟩, ⟨sReg 1, .value 2⟩] := by decide
  have live : LiveOutsKept callingFunction.scavenger
      [⟨sReg 0, .value 0⟩, ⟨vReg 0, .value 1⟩, ⟨sReg 1, .value 2⟩] := by
    intro copy listed
    have apart : ∀ copy ∈ [ReturnCopy.mk (sReg 0) (.value 0), ⟨vReg 0, .value 1⟩,
        ⟨sReg 1, .value 2⟩], copy.register ≠ sReg 8 := by decide
    exact ⟨apart copy listed, fun _ => apart copy listed⟩
  obtain ⟨start, entry, entered, kept, -⟩ := prologue_spec callingFunction callerState
  have room : roundedStackSize callingFunction.frame.toMachineFrameInfo ≤
      (callerState.1.gpr 61).toNat := by decide
  obtain ⟨registers, exit, called, runs, delivered, -, restored, -⟩ :=
    results_arrive callingFunction threeResults false threeValues 0 start rfl lowered live
      (List.reverse_perm [_, _, _])
  have places : registers = [sReg 0, vReg 0, sReg 1] := by
    have read : callResults false threeResults.outs = some [sReg 0, vReg 0, sReg 1] := by decide
    rw [called, Option.some.injEq] at read
    exact read
  subst places
  obtain ⟨pointer, -⟩ := restored callerState (holds_entered room entered kept)
  cases delivered with
  | cons first rest =>
      cases rest with
      | cons second rest =>
          cases rest with
          | cons third _ => exact ⟨start, exit, entry, runs, first, third, pointer⟩

end Results

end NaplesPU.CallPassing
