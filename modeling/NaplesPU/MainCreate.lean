import NaplesPU.Machine

/-!
The pass that gives a module of kernels its `main`. The new function loads the arguments of the
first kernel from the array that it is handed, a word apart from each other whatever their types,
and calls the kernel. The array is declared with elements of type `void*`, which is no type: a build
of the compiler with assertions stops there.
-/

namespace NaplesPU.MainCreate

open ByteMemory Machine

section Modules

inductive CallingConv where
  | C
  | SPIR_FUNC
  | SPIR_KERNEL
deriving DecidableEq, Repr

inductive IRType where
  | void
  | int (bits : Nat)
  | float
  | pointer (element : IRType)
  | vector (lanes : Nat) (element : IRType)
deriving DecidableEq, Repr

/-- What the pass does instead of coming to its end: an assertion of the compiler fails, or more
arguments are kept than there is room for. -/
inductive Failure where
  | assertion (message : String)
  | tooManyArguments
deriving DecidableEq, Repr

def isValidElementType : IRType → Bool
  | .void => false
  | _ => true

def getPointerTo (asserts : Bool) (element : IRType) : Except Failure IRType :=
  if asserts && !isValidElementType element then
    .error (.assertion "Invalid type for pointer element!")
  else .ok (.pointer element)

def IRType.bits : IRType → Nat
  | .void => 0
  | .int bits => bits
  | .float | .pointer _ => 32
  | .vector lanes element => lanes * element.bits

def IRType.storeSize (type : IRType) : Nat := (type.bits + 7) / 8

inductive IRValue where
  | argument (index : Nat)
  | inst (index : Nat)
deriving DecidableEq, Repr

inductive IRInst where
  | getelementptr (pointer : IRValue) (index : BitVec 32)
  | bitcast (value : IRValue) (type : IRType)
  | load (type : IRType) (pointer : IRValue) (alignment : Nat)
  | call (callee : String) (operands : List IRValue)
  | ret
deriving DecidableEq, Repr

/-- A function; of the code that was there before nothing is known. -/
structure Function (Code : Type) where
  name : String
  callingConv : CallingConv
  args : List IRType
  body : Code ⊕ List IRInst

/-- A module: its functions, the names of its variables and aliases, and the number that the symbol
table has given out last. -/
structure Module (Code : Type) where
  functions : List (Function Code)
  globals : List String
  lastUnique : Nat

variable {Code : Type}

def Module.names (module : Module Code) : List String :=
  module.functions.map Function.name ++ module.globals

/-- The name of a new function, and the number behind it if the name is taken; of more numbers than
there are names one is free. -/
def createValueName (taken : List String) (lastUnique : Nat) (name : String) : String × Nat :=
  if name ∈ taken then
    let number := ((List.range' (lastUnique + 1) (taken.length + 1)).find? fun number =>
      name ++ "." ++ toString number ∉ taken).getD lastUnique
    (name ++ "." ++ toString number, number)
  else (name, lastUnique)

def MAX_ARGS : Nat := 27

def ARGV_IDX : Nat := 0

/-- Appends an instruction to the block, and names its value. -/
def insert (block : List IRInst) (inst : IRInst) : IRValue × List IRInst :=
  (.inst block.length, block ++ [inst])

/-- A cast to the type that the value has already is the value. -/
def createBitCast (block : List IRInst) (value : IRValue) (type destType : IRType) :
    IRValue × List IRInst :=
  if type = destType then (value, block) else insert block (.bitcast value destType)

def voidPtr : IRType := .pointer .void

section Emission

variable (asserts : Bool)

def loadArgument (argv : IRValue) (index : Nat) (type : IRType) (block : List IRInst) :
    Except Failure (IRValue × List IRInst) := do
  let element := insert block (.getelementptr argv (BitVec.ofNat 32 index))
  let pointerType ← getPointerTo asserts type
  let pointer := createBitCast element.2 element.1 (.pointer voidPtr) pointerType
  return insert pointer.2 (.load type pointer.1 4)

/-- The loads of the arguments; the array that keeps them has no place behind its last. -/
def loadArguments (argv : IRValue) :
    List IRType → Nat → List IRInst → Except Failure (List IRValue × List IRInst)
  | [], _, block => .ok ([], block)
  | type :: rest, counter, block => do
      let (argument, block) ← loadArgument asserts argv (ARGV_IDX + counter) type block
      if counter < MAX_ARGS then
        let (arguments, block) ← loadArguments argv rest (counter + 1) block
        return (argument :: arguments, block)
      else throw .tooManyArguments

def createMain (name : String) (kernel : Function Code) : Except Failure (Function Code) := do
  let element ← getPointerTo asserts .void
  let array ← getPointerTo asserts element
  let (arguments, block) ← loadArguments asserts (.argument 1) kernel.args 0 []
  return ⟨name, .C, [.int 32, array],
    .inr (block ++ [.call kernel.name arguments] ++ [.ret])⟩

/-- The first kernel, which becomes an ordinary function, and what stands around it. -/
def findKernel : List (Function Code) → Option (List (Function Code) × Function Code)
  | [] => none
  | function :: rest =>
      if function.callingConv = .SPIR_KERNEL then
        some ({ function with callingConv := .C } :: rest, { function with callingConv := .C })
      else (findKernel rest).map fun found => (function :: found.1, found.2)

/-- The module after the pass, and whether it has changed. -/
def runOnModule (module : Module Code) : Except Failure (Module Code × Bool) :=
  if module.functions.any fun function => function.name = "main" then .ok (module, false)
  else
    match findKernel module.functions with
    | none => .ok (module, false)
    | some (functions, kernel) => do
        let (name, lastUnique) := createValueName module.names module.lastUnique "main"
        let main ← createMain asserts name kernel
        return (⟨functions ++ [main], module.globals, lastUnique⟩, true)

end Emission

end Modules

section Execution

inductive RuntimeValue where
  | pointer (address : Word)
  | bytes (content : List Byte)
deriving DecidableEq

/-- The values of the instructions so far, and the calls. -/
structure Frame where
  values : List RuntimeValue
  calls : List (String × List RuntimeValue)

variable (memory : Memory 32) (args : List RuntimeValue)

def evaluate (frame : Frame) : IRValue → Option RuntimeValue
  | .argument index => args[index]?
  | .inst index => frame.values[index]?

def evaluateAll (frame : Frame) : List IRValue → Option (List RuntimeValue)
  | [] => some []
  | operand :: rest =>
      (evaluate args frame operand).bind fun value =>
        (evaluateAll frame rest).map (value :: ·)

/-- Elements are pointers, of a word each. A load that is not aligned as it says has no meaning. -/
def execInst (frame : Frame) : IRInst → Option Frame
  | .getelementptr pointer index =>
      match evaluate args frame pointer with
      | some (.pointer address) =>
          some { frame with values := frame.values ++ [.pointer (address + 4 * index)] }
      | _ => none
  | .bitcast value _ =>
      (evaluate args frame value).map fun value =>
        { frame with values := frame.values ++ [value] }
  | .load type pointer alignment =>
      match evaluate args frame pointer with
      | some (.pointer address) =>
          if address.toNat % alignment = 0 then
            some { frame with
              values := frame.values ++ [.bytes (loadBytes memory address type.storeSize)] }
          else none
      | _ => none
  | .call callee operands =>
      (evaluateAll args frame operands).map fun operands =>
        ⟨frame.values ++ [.bytes []], frame.calls ++ [(callee, operands)]⟩
  | .ret => some frame

def execBlock (block : List IRInst) : Option Frame :=
  block.foldlM (execInst memory args) ⟨[], []⟩

def calls {Code : Type} (function : Function Code) : Option (List (String × List RuntimeValue)) :=
  match function.body with
  | .inl _ => none
  | .inr block => (execBlock memory args block).map Frame.calls

end Execution

section Loads

variable {memory : Memory 32} {args : List RuntimeValue} {block : List IRInst} {frame : Frame}

theorem exec_block_append (first second : List IRInst) :
    execBlock memory args (first ++ second) =
      (execBlock memory args first).bind fun frame =>
        second.foldlM (execInst memory args) frame := by
  rw [execBlock, List.foldlM_append]
  rfl

/-- A block has run, and every instruction of it has left a value. -/
structure Ran (memory : Memory 32) (args : List RuntimeValue) (block : List IRInst)
    (frame : Frame) : Prop where
  executed : execBlock memory args block = some frame
  values : frame.values.length = block.length

structure Extends (frame later : Frame) : Prop where
  values : frame.values <+: later.values
  calls : later.calls = frame.calls

theorem Extends.trans {middle later : Frame} (first : Extends frame middle)
    (second : Extends middle later) : Extends frame later :=
  ⟨first.values.trans second.values, second.calls.trans first.calls⟩

theorem Extends.evaluate {later : Frame} (extended : Extends frame later) {operand : IRValue}
    {value : RuntimeValue} (evaluated : evaluate args frame operand = some value) :
    evaluate args later operand = some value := by
  cases operand with
  | argument index => exact evaluated
  | inst index =>
      obtain ⟨more, same⟩ := extended.values
      have inside : index < frame.values.length := (List.getElem?_eq_some_iff.1 evaluated).1
      rw [MainCreate.evaluate, ← same, List.getElem?_append_left inside]
      exact evaluated

theorem Ran.insert (ran : Ran memory args block frame) {inst : IRInst} {value : RuntimeValue}
    (executed : execInst memory args frame inst =
      some { frame with values := frame.values ++ [value] }) :
    ∃ later, Ran memory args (insert block inst).2 later ∧ Extends frame later ∧
      evaluate args later (insert block inst).1 = some value := by
  refine ⟨{ frame with values := frame.values ++ [value] }, ⟨?_, ?_⟩,
    ⟨List.prefix_append _ _, rfl⟩, ?_⟩
  · rw [MainCreate.insert, exec_block_append, ran.executed, Option.bind_some, List.foldlM_cons,
      executed]
    rfl
  · rw [MainCreate.insert, List.length_append, List.length_append, ran.values]
    rfl
  · rw [MainCreate.insert, MainCreate.evaluate, ← ran.values]
    exact List.getElem?_concat_length

def slot (memory : Memory 32) (argv : Word) (index : Nat) (type : IRType) : RuntimeValue :=
  .bytes (loadBytes memory (argv + 4 * BitVec.ofNat 32 index) type.storeSize)

theorem slot_aligned {argv : Word} (aligned : argv.toNat % 4 = 0) (index : Nat) :
    (argv + 4 * BitVec.ofNat 32 index).toNat % 4 = 0 := by
  have four : (4 : Word).toNat = 4 := rfl
  rw [BitVec.toNat_add, BitVec.toNat_mul, BitVec.toNat_ofNat, four]
  omega

theorem cast_runs (ran : Ran memory args block frame) {operand : IRValue} {value : RuntimeValue}
    (evaluated : evaluate args frame operand = some value) (type destType : IRType) :
    ∃ later, Ran memory args (createBitCast block operand type destType).2 later ∧
      Extends frame later ∧
      evaluate args later (createBitCast block operand type destType).1 = some value := by
  unfold createBitCast
  split
  · exact ⟨frame, ran, ⟨List.prefix_refl _, rfl⟩, evaluated⟩
  · apply ran.insert
    rw [execInst, evaluated, Option.map_some]

theorem load_argument_runs {argv : Word} (aligned : argv.toNat % 4 = 0) (argc : RuntimeValue)
    (ran : Ran memory [argc, .pointer argv] block frame) (index : Nat) (type : IRType) :
    ∃ loaded later, loadArgument false (.argument 1) index type block = .ok loaded ∧
      Ran memory [argc, .pointer argv] loaded.2 later ∧ Extends frame later ∧
      evaluate [argc, .pointer argv] later loaded.1 = some (slot memory argv index type) := by
  obtain ⟨first, ranElement, firstExtends, element⟩ := @Ran.insert memory [argc, .pointer argv]
    block frame ran (.getelementptr (.argument 1) (BitVec.ofNat 32 index)) _ rfl
  obtain ⟨second, ranCast, secondExtends, cast⟩ :=
    cast_runs ranElement element (.pointer voidPtr) (.pointer type)
  obtain ⟨third, ranLoad, thirdExtends, loaded⟩ := @Ran.insert memory [argc, .pointer argv] _ _
    ranCast (.load type _ 4) (slot memory argv index type) (by
      rw [execInst, cast]
      exact if_pos (slot_aligned aligned index))
  exact ⟨_, third, rfl, ranLoad, (firstExtends.trans secondExtends).trans thirdExtends, loaded⟩

/-- What the kernel is handed for its arguments from a place on. -/
def slots (memory : Memory 32) (argv : Word) : List IRType → Nat → List RuntimeValue
  | [], _ => []
  | type :: rest, index => slot memory argv index type :: slots memory argv rest (index + 1)

theorem load_arguments_run {argv : Word} (aligned : argv.toNat % 4 = 0) (argc : RuntimeValue)
    {types : List IRType} {counter : Nat} (few : counter + types.length ≤ MAX_ARGS)
    (ran : Ran memory [argc, .pointer argv] block frame) :
    ∃ loaded later, loadArguments false (.argument 1) types counter block = .ok loaded ∧
      Ran memory [argc, .pointer argv] loaded.2 later ∧ Extends frame later ∧
      evaluateAll [argc, .pointer argv] later loaded.1 =
        some (slots memory argv types counter) := by
  induction types generalizing counter block frame with
  | nil => exact ⟨([], block), frame, rfl, ran, ⟨List.prefix_refl _, rfl⟩, rfl⟩
  | cons type rest induction =>
      rw [List.length_cons] at few
      obtain ⟨argument, middle, emittedFirst, ranFirst, firstExtends, first⟩ :=
        load_argument_runs aligned argc ran (ARGV_IDX + counter) type
      obtain ⟨loaded, later, emitted, ranRest, restExtends, others⟩ :=
        @induction _ _ (counter + 1) (by omega) ranFirst
      refine ⟨(argument.1 :: loaded.1, loaded.2), later, ?_, ranRest,
        firstExtends.trans restExtends, ?_⟩
      · have room : counter < MAX_ARGS := by omega
        rw [loadArguments, emittedFirst]
        simp only [bind, Except.bind, if_pos room, emitted]
        rfl
      · rw [evaluateAll, restExtends.evaluate first, Option.bind_some, others, Option.map_some,
          slots, ARGV_IDX, Nat.zero_add]

theorem slots_length (memory : Memory 32) (argv : Word) (types : List IRType) (index : Nat) :
    (slots memory argv types index).length = types.length := by
  induction types generalizing index with
  | nil => rfl
  | cons type rest induction => rw [slots, List.length_cons, List.length_cons, induction]

theorem slots_get {argv : Word} {types : List IRType} {place : Nat} {type : IRType}
    (declared : types[place]? = some type) (index : Nat) :
    (slots memory argv types index)[place]? = some (slot memory argv (index + place) type) := by
  induction types generalizing index place with
  | nil => exact absurd declared (by simp)
  | cons head rest induction =>
      cases place with
      | zero =>
          rw [List.getElem?_cons_zero, Option.some.injEq] at declared
          rw [slots, List.getElem?_cons_zero, declared, Nat.add_zero]
      | succ place =>
          rw [List.getElem?_cons_succ] at declared
          rw [slots, List.getElem?_cons_succ, induction declared, Nat.add_right_comm, Nat.add_assoc]

/-- An argument is what lies behind its word, and runs on into the words of the next ones when it is
wider than that. -/
theorem slot_of_block {argv : Word} {bytes : List Byte}
    (loaded : loadBytes memory argv bytes.length = bytes) {index : Nat} {type : IRType}
    (inside : 4 * index + type.storeSize ≤ bytes.length) :
    slot memory argv index type = .bytes ((bytes.drop (4 * index)).take type.storeSize) := by
  have place : 4 * BitVec.ofNat 32 index = BitVec.ofNat 32 (4 * index) :=
    (BitVec.ofNat_mul 4 index).symm
  rw [slot, place, load_part loaded inside]

end Loads

section Pass

variable {Code : Type} {before after : List (Function Code)} {kernel : Function Code}

theorem find_kernel_first (first : ∀ function ∈ before, function.callingConv ≠ .SPIR_KERNEL)
    (isKernel : kernel.callingConv = .SPIR_KERNEL) (after : List (Function Code)) :
    findKernel (before ++ kernel :: after) =
      some (before ++ { kernel with callingConv := .C } :: after,
        { kernel with callingConv := .C }) := by
  induction before with
  | nil => exact if_pos isKernel
  | cons function rest induction =>
      rw [List.cons_append, findKernel, if_neg (first function List.mem_cons_self),
        induction fun other among => first other (List.mem_cons_of_mem _ among)]
      rfl

/-- A module that has its `main`, or no kernel, stays as it is. -/
theorem module_unchanged (asserts : Bool) {module : Module Code}
    (idle : (∃ function ∈ module.functions, function.name = "main") ∨
      ∀ function ∈ module.functions, function.callingConv ≠ .SPIR_KERNEL) :
    runOnModule asserts module = .ok (module, false) := by
  unfold runOnModule
  split
  · rfl
  · rename_i nameless
    have missing : findKernel module.functions = none := by
      rcases idle with ⟨function, among, named⟩ | ordinary
      · exact absurd (List.any_eq_true.2 ⟨function, among, decide_eq_true named⟩) nameless
      · generalize module.functions = functions at ordinary
        induction functions with
        | nil => rfl
        | cons function rest induction =>
            rw [findKernel, if_neg (ordinary function List.mem_cons_self),
              induction fun other among => ordinary other (List.mem_cons_of_mem _ among)]
            rfl
    rw [missing]

/-- Whatever memory the function is started on, it makes one call, of the kernel, and hands over
for every argument the bytes from the word of its place on. -/
structure Launches (kernel main : Function Code) : Prop where
  callingConv : main.callingConv = .C
  args : main.args = [.int 32, .pointer voidPtr]
  calls : ∀ (memory : Memory 32) (argc : RuntimeValue) (argv : Word), argv.toNat % 4 = 0 →
    ∃ operands, MainCreate.calls memory [argc, .pointer argv] main =
        some [(kernel.name, operands)] ∧
      operands.length = kernel.args.length ∧
      ∀ (index : Nat) (type : IRType), kernel.args[index]? = some type →
        ∀ bytes : List Byte, loadBytes memory argv bytes.length = bytes →
          4 * index + type.storeSize ≤ bytes.length →
          operands[index]? = some (.bytes ((bytes.drop (4 * index)).take type.storeSize))

theorem create_main_launches (name : String) (few : kernel.args.length ≤ MAX_ARGS) :
    ∃ main, createMain false name kernel = .ok main ∧ main.name = name ∧
      Launches kernel main := by
  -- The instructions do not depend on the memory that they are tried on.
  obtain ⟨loaded, _, emitted, -⟩ := @load_arguments_run (fun _ => 0) [] ⟨[], []⟩ 0 (by decide)
    (.bytes []) kernel.args 0 (by omega) ⟨rfl, rfl⟩
  refine ⟨⟨name, .C, [.int 32, .pointer voidPtr],
      .inr (loaded.2 ++ [.call kernel.name loaded.1] ++ [.ret])⟩, ?_, rfl, rfl, rfl,
    fun memory argc argv aligned => ⟨slots memory argv kernel.args 0, ?_, slots_length _ _ _ _, ?_⟩⟩
  · rw [createMain, emitted]
    rfl
  · obtain ⟨same, later, again, ran, extended, evaluated⟩ :=
      @load_arguments_run memory [] ⟨[], []⟩ argv aligned argc kernel.args 0 (by omega) ⟨rfl, rfl⟩
    obtain rfl := Except.ok.inj (emitted.symm.trans again)
    rw [MainCreate.calls]
    dsimp only
    rw [List.append_assoc, exec_block_append, ran.executed, Option.bind_some]
    rw [List.singleton_append, List.foldlM_cons, execInst, evaluated, extended.calls]
    rfl
  · intro index type declared bytes holding inside
    rw [slots_get declared, Nat.zero_add, slot_of_block holding inside]

theorem nameless_functions {module : Module Code} (nameless : "main" ∉ module.names) :
    (module.functions.any fun function => function.name = "main") ≠ true := by
  intro named
  obtain ⟨function, among, same⟩ := List.any_eq_true.1 named
  rw [Module.names, List.mem_append, not_or] at nameless
  exact nameless.1 (List.mem_map.mpr ⟨function, among, of_decide_eq_true same⟩)

/-- A name that is taken is not given out again. -/
theorem main_renamed {taken : List String} (named : "main" ∈ taken) (lastUnique : Nat) :
    (createValueName taken lastUnique "main").1 ≠ "main" := by
  rw [createValueName, if_pos named]
  intro same
  have longer := congrArg String.length same
  dsimp only at longer
  rw [String.length_append, String.length_append] at longer
  have name : "main".length = 4 := rfl
  have dot : ".".length = 1 := rfl
  omega

/-- In a build without assertions, the first kernel of a module in which nothing is called `main`
gets one, which launches it; the kernel becomes an ordinary function, the other functions stay as
they are, and the pass has nothing left to do. A build with assertions rejects the array. -/
theorem kernel_launched {globals : List String} (lastUnique : Nat)
    (nameless : "main" ∉ (⟨before ++ kernel :: after, globals, lastUnique⟩ : Module Code).names)
    (first : ∀ function ∈ before, function.callingConv ≠ .SPIR_KERNEL)
    (isKernel : kernel.callingConv = .SPIR_KERNEL) (few : kernel.args.length ≤ MAX_ARGS) :
    (∃ main : Function Code, main.name = "main" ∧ Launches kernel main ∧
      runOnModule false ⟨before ++ kernel :: after, globals, lastUnique⟩ =
        .ok (⟨before ++ { kernel with callingConv := .C } :: after ++ [main], globals,
          lastUnique⟩, true) ∧
      runOnModule false ⟨before ++ { kernel with callingConv := .C } :: after ++ [main], globals,
          lastUnique⟩ =
        .ok (⟨before ++ { kernel with callingConv := .C } :: after ++ [main], globals,
          lastUnique⟩, false)) ∧
    runOnModule true ⟨before ++ kernel :: after, globals, lastUnique⟩ =
      .error (.assertion "Invalid type for pointer element!") := by
  have unnamed := nameless_functions nameless
  obtain ⟨main, created, name, launches⟩ :=
    @create_main_launches _ { kernel with callingConv := .C } "main" few
  refine ⟨⟨main, name, ⟨launches.callingConv, launches.args, launches.calls⟩, ?_, ?_⟩, ?_⟩
  · rw [runOnModule, if_neg unnamed, find_kernel_first first isKernel after]
    dsimp only
    rw [createValueName, if_neg nameless]
    dsimp only
    rw [created]
    rfl
  · exact module_unchanged false
      (.inl ⟨main, List.mem_append_right _ List.mem_cons_self, name⟩)
  · rw [runOnModule, if_neg unnamed, find_kernel_first first isKernel after]
    rfl

/-- A kernel of two pointers and a length, behind the function that it uses. -/
theorem scale_kernel_launched :
    (∃ main : Function Unit, main.name = "main" ∧
      Launches ⟨"scale", .SPIR_KERNEL, [.pointer .float, .pointer .float, .int 32], .inl ()⟩ main ∧
      runOnModule false ⟨[⟨"twice", .SPIR_FUNC, [.float], .inl ()⟩,
          ⟨"scale", .SPIR_KERNEL, [.pointer .float, .pointer .float, .int 32], .inl ()⟩],
          ["table"], 0⟩ =
        .ok (⟨[⟨"twice", .SPIR_FUNC, [.float], .inl ()⟩,
          ⟨"scale", .C, [.pointer .float, .pointer .float, .int 32], .inl ()⟩, main],
          ["table"], 0⟩, true) ∧
      runOnModule false ⟨[⟨"twice", .SPIR_FUNC, [.float], .inl ()⟩,
          ⟨"scale", .C, [.pointer .float, .pointer .float, .int 32], .inl ()⟩, main],
          ["table"], 0⟩ =
        .ok (⟨[⟨"twice", .SPIR_FUNC, [.float], .inl ()⟩,
          ⟨"scale", .C, [.pointer .float, .pointer .float, .int 32], .inl ()⟩, main],
          ["table"], 0⟩, false)) ∧
    runOnModule true ⟨[⟨"twice", .SPIR_FUNC, [.float], .inl ()⟩,
        ⟨"scale", .SPIR_KERNEL, [.pointer .float, .pointer .float, .int 32], .inl ()⟩],
        ["table"], 0⟩ =
      .error (.assertion "Invalid type for pointer element!") :=
  @kernel_launched Unit [⟨"twice", .SPIR_FUNC, [.float], .inl ()⟩] []
    ⟨"scale", .SPIR_KERNEL, [.pointer .float, .pointer .float, .int 32], .inl ()⟩ ["table"] 0
    (by decide) (by decide) rfl (by decide)

/-- A double word and the word behind it share four bytes of the array. -/
example :
    (createMain false "main"
        (⟨"mix", .C, [.int 64, .int 32], .inl ()⟩ : Function Unit)).toOption.bind
      (calls (fun cell => BitVec.ofNat 8 cell.toNat) [.bytes [2, 0, 0, 0], .pointer 0x40]) =
        some [("mix", [.bytes [0x40, 0x41, 0x42, 0x43, 0x44, 0x45, 0x46, 0x47],
          .bytes [0x44, 0x45, 0x46, 0x47]])] := by
  decide

end Pass

end NaplesPU.MainCreate
