import NaplesPU.BootAccesses
import NaplesPU.Lib.SharedState

/-!
The start-up code in all the hardware threads at once. The threads share main memory and, within a
tile, a scratchpad. The first thread of each tile runs from the beginning; the others wait until a
thread of their tile that is in `main` starts them. In `main` a thread does what it likes to its
registers, the scratchpad of its tile and all of main memory but the data of the scratchpads, which
is still needed by tiles that start later.
-/

namespace NaplesPU.ConcurrentBoot

open ByteMemory StepRuns TwosComplement Assertions SharedState
open RegisterInfo InstrFormats InstrInfo FixupKinds MCCodeEmitter
open ELFRelocations AddressLowering Startup Preload BootProtocol BootAccesses
open Machine (Word Registers)

section Execution

/-- The number of the tile, and that of the thread in the tile. -/
abbrev ThreadId := Word × Word

inductive Mode where
  | waiting | running | calling
deriving DecidableEq

/-- What belongs to a thread alone; it counts the instructions that it has executed. -/
structure HardwareThread where
  mode : Mode
  block : Nat
  index : Nat
  registers : Registers
  control : Word → Word
  events : List Event
  executed : Nat

structure Memories where
  main : Memory 32
  scratchpads : Word → Memory 32
  started : ThreadId → Bool

abbrev Tiles := System ThreadId HardwareThread Memories

def HardwareThread.core (thread : HardwareThread) (memory : Memory 32) : Core :=
  ⟨thread.registers, thread.control, memory⟩

/-- The thread behind its instruction, in the next block if that was the last of its own. -/
def HardwareThread.behind (thread : HardwareThread) (code : List MCInst) (mode : Mode)
    (registers : Registers) (control : Word → Word) (events : List Event) : HardwareThread :=
  if thread.index + 1 < code.length then
    ⟨mode, thread.block, thread.index + 1, registers, control, thread.events ++ events,
      thread.executed + 1⟩
  else
    ⟨mode, thread.block + 1, 0, registers, control, thread.events ++ events, thread.executed + 1⟩

variable (link : Nat → RelocAddresses) (textStart : Word)

/-- A call takes the thread into `main`, from which it will come back behind the call. -/
def HardwareThread.advance (thread : HardwareThread) (code : List MCInst) (core : Core)
    (events : List Event) : Transfer → HardwareThread
  | .next => thread.behind code .running core.registers core.control events
  | .jump label =>
      ⟨.running, label, 0, core.registers, core.control, thread.events ++ events,
        thread.executed + 1⟩
  | .call _ =>
      let ra := textStart + BitVec.ofNat 32 (4 * (wordsBefore thread.block thread.index + 1))
      thread.behind code .calling (core.registers.setGpr RA_REG.encoding ra) core.control events

def execute (tile : Word) (thread : HardwareThread) (memories : Memories) :
    Option (HardwareThread × Memories) :=
  crt0[thread.block]?.bind fun code =>
    code[thread.index]?.bind fun inst =>
      (execThread link inst (thread.core memories.main)
          (memories.scratchpads tile)).map fun result =>
        (thread.advance textStart code result.1
            (observed inst (thread.core memories.main) result.2.2) result.2.2,
          { memories with
            main := result.1.memory
            scratchpads := Function.update memories.scratchpads tile result.2.1 })

/-- What a thread does in one step: it begins once it is started, executes an instruction, works in
`main`, where it may start threads of its tile, or leaves `main`. -/
inductive Act (id : ThreadId) : HardwareThread × Memories → HardwareThread × Memories → Prop where
  | begin {thread : HardwareThread} {memories : Memories} (waits : thread.mode = .waiting)
      (started : memories.started id = true) :
      Act id (thread, memories) ({ thread with mode := .running }, memories)
  | execute {thread next : HardwareThread} {memories nextMemories : Memories}
      (runs : thread.mode = .running)
      (executed : execute link textStart id.1 thread memories = some (next, nextMemories)) :
      Act id (thread, memories) (next, nextMemories)
  | work {thread : HardwareThread} {memories : Memories} (calls : thread.mode = .calling)
      (registers : Registers) (control : Word → Word) {main : Memory 32} (scratchpad : Memory 32)
      {started : ThreadId → Bool} (keeps : KeepsData link memories.main main)
      (starts : ∀ other, started other ≠ memories.started other →
        other.1 = id.1 ∧ started other = true) :
      Act id (thread, memories)
        ({ thread with registers := registers, control := control },
          ⟨main, Function.update memories.scratchpads id.1 scratchpad, started⟩)
  | leave {thread : HardwareThread} {memories : Memories} (calls : thread.mode = .calling) :
      Act id (thread, memories) ({ thread with mode := .running }, memories)

/-- The machine when it is switched on. -/
structure Fresh (tiles : Tiles) : Prop where
  ids : ∀ id, (tiles.own id).control 0 = id.1 ∧ (tiles.own id).control 2 = id.2
  code : ∀ id, (tiles.own id).block = 0 ∧ (tiles.own id).index = 0
  silent : ∀ id, (tiles.own id).events = [] ∧ (tiles.own id).executed = 0
  first : ∀ id : ThreadId, id.2 = 0 → (tiles.own id).mode = .running
  others : ∀ id : ThreadId, id.2 ≠ 0 →
    (tiles.own id).mode = .waiting ∧ tiles.shared.started id = false

structure AtCall (link : Nat → RelocAddresses) (fresh tiles : Tiles) (id : ThreadId) : Prop where
  control : (tiles.own id).control = Function.update (fresh.own id).control 11 1
  argc : (tiles.own id).registers.gpr 0 = (fresh.own id).control 12
  argv : (tiles.own id).registers.gpr 1 = (fresh.own id).control 13
  lanes : (tiles.own id).registers.gpr rm = 0xFFFF
  stack : (tiles.own id).registers.gpr sp = addressOf link .stacks_base
  frame : (tiles.own id).registers.gpr fp = addressOf link .stacks_base
  loaded : id.2 = 0 → Loaded link fresh.shared.main (fresh.shared.scratchpads id.1)
    (tiles.shared.scratchpads id.1)

/-- What can be said of a thread at any time. -/
structure Sound (link : Nat → RelocAddresses) (textStart : Word) (fresh : Tiles)
    (turns : ThreadId → Nat) (tiles : Tiles) (id : ThreadId) : Prop where
  shown : ∃ result, (tiles.own id).events <+:
    protocol link ((fresh.own id).control 12) ((fresh.own id).control 13) result
  goesOn : (tiles.own id).mode = .running →
    (execute link textStart id.1 (tiles.own id) tiles.shared).isSome
  soon : (tiles.own id).events.length < 3 → (tiles.own id).executed ≤ turns id
  calls : (tiles.own id).mode = .calling → (tiles.own id).events =
    [.control 11 5, .control 11 1, .called (addressOf link .main) ((fresh.own id).control 12)
      ((fresh.own id).control 13)]
  prepared : (tiles.own id).mode = .running → (tiles.own id).block = Symbol.do_main.number →
    (tiles.own id).index = 7 → (tiles.own id).events.length < 3 → AtCall link fresh tiles id
  later : id.2 ≠ 0 → (tiles.own id).mode ≠ .waiting → 3 ≤ (tiles.own (id.1, 0)).events.length
  data : KeepsData link fresh.shared.main tiles.shared.main

end Execution

section Alone

variable {link : Nat → RelocAddresses} {textStart : Word} {begin final state : BootProtocol.Thread}
  {turns count : Nat}

/-- The call is the last that is looked at, so that it need not come back to anything. -/
abbrev enter : Returns := fun _ state => state

abbrev alone (link : Nat → RelocAddresses) (textStart : Word) :
    BootProtocol.Thread → Option BootProtocol.Thread :=
  BootProtocol.step link textStart enter

/-- A run of a thread by itself on which it makes no call. -/
structure QuietRun (link : Nat → RelocAddresses) (textStart : Word)
    (begin final : BootProtocol.Thread) (turns : Nat) : Prop where
  run : iterate (alone link textStart) turns begin = some final
  quiet : ∃ shown, final.events = begin.events ++ shown ∧
    ∀ address argc argv, .called address argc argv ∉ shown

theorem advance_events (thread : BootProtocol.Thread) (code : List MCInst) (core : Core)
    (scratchpad : Memory 32) (events : List Event) (transfer : Transfer) :
    (thread.advance textStart enter code core scratchpad events transfer).events =
      thread.events ++ events := by
  cases transfer with
  | next =>
      rw [BootProtocol.Thread.advance, BootProtocol.arrive]
      split <;> rfl
  | jump label => rfl
  | call address =>
      simp only [BootProtocol.Thread.advance, BootProtocol.arrive]
      split <;> rfl

theorem quiet_step (quiet : QuietRun link textStart begin final turns) (early : count < turns)
    (part : iterate (alone link textStart) count begin = some state) :
    ∃ next code inst result, Executes link textStart enter state next code inst result ∧
      (∀ address, result.2.2 ≠ .call address) ∧
      iterate (alone link textStart) (count + 1) begin = some next := by
  obtain ⟨run, shown, same, silent⟩ := quiet
  obtain ⟨rest, rfl⟩ := Nat.exists_eq_add_of_lt early
  rw [Nat.add_assoc, iterate_add, part, Option.bind_some, Nat.add_comm rest, iterate_add,
    iterate_one, Option.bind_eq_some_iff] at run
  obtain ⟨next, stepped, remaining⟩ := run
  obtain ⟨code, inst, result, executes⟩ := executes_of_step stepped
  refine ⟨next, code, inst, result, executes, fun address calls => ?_, ?_⟩
  · obtain ⟨before, grown⟩ := iterate_events part
    have events := iterate_events remaining
    have left := executes.left
    rw [calls] at left
    rw [left, advance_events, same, ← grown, List.append_assoc, List.prefix_append_right_inj]
      at events
    apply silent address (state.core.gpr 0) (state.core.gpr 1)
    apply events.subset
    exact List.mem_append_right _ (List.mem_singleton.mpr rfl)
  · rw [iterate_add, part, Option.bind_some, iterate_one, stepped]

theorem quiet_asserted {first : Prop}
    (proved : Proved (BootAccesses.execute link) (annotated link first))
    (quiet : QuietRun link textStart begin final turns) (asserted : AssertedAt link first begin)
    (within : count ≤ turns) (part : iterate (alone link textStart) count begin = some state) :
    AssertedAt link first state := by
  induction count generalizing state with
  | zero =>
      rw [iterate, Option.some.injEq] at part
      exact part ▸ asserted
  | succ count induction =>
      have whole := part
      rw [iterate_add, Option.bind_eq_some_iff] at part
      obtain ⟨middle, before, -⟩ := part
      obtain ⟨next, code, inst, result, executes, noCall, after⟩ := quiet_step quiet within before
      rw [whole, Option.some.injEq] at after
      subst after
      exact asserted_next proved (induction (by omega) before) executes noCall

theorem boots_alone
    (behind : (addressOf link .init_array_end).sle (addressOf link .init_array_start) = true)
    (data : DataLaidOut link) (core : Core) (scratchpad : Memory 32) :
    ∃ turns atCall loaded, QuietRun link textStart (reset core scratchpad)
        ⟨Symbol.do_main.number, 7, atCall, loaded, [.control 11 5, .control 11 1]⟩ turns ∧
      CallReady link core atCall ∧
      (core.control 2 = 0 → Loaded link core.memory scratchpad loaded) := by
  obtain ⟨next, loaded, toMain, ready, -, isLoaded⟩ :=
    @leads_do_main link textStart enter behind core scratchpad fun _ => data
  obtain ⟨atCall, toCall, callReady⟩ :=
    @leads_at_call link textStart enter core next ready loaded [.control 11 5]
  obtain ⟨turns, run⟩ := reaches_trans toMain toCall
  refine ⟨turns, atCall, loaded, ⟨run, _, rfl, ?_⟩, callReady, isLoaded⟩
  intro address argc argv member
  simp at member

theorem ends_alone (core : Core) (scratchpad : Memory 32) (events : List Event) :
    ∃ turns final, QuietRun link textStart
        ⟨Symbol.do_main.number, 8, core, scratchpad, events⟩ final turns ∧
      alone link textStart final = some final ∧
      final.events = events ++ [.control 13 (core.gpr 0), .flushed 0xFFFFFFC0, .control 11 2] := by
  obtain ⟨next, ⟨turns, run⟩, -⟩ := @leads_end link textStart enter core scratchpad events
  refine ⟨turns, _, ⟨run, [.control 13 (core.gpr 0), .flushed 0xFFFFFFC0, .control 11 2], ?_, ?_⟩,
    step_halt next scratchpad _, ?_⟩
  · simp only [List.append_assoc, List.cons_append, List.nil_append]
  · intro address argc argv member
    simp at member
  · simp only [List.append_assoc, List.cons_append, List.nil_append]

end Alone

section Mirrored

variable {link : Nat → RelocAddresses} {textStart : Word} {first : Prop} {tile : Word}
  {state next : BootProtocol.Thread} {thread : HardwareThread} {memories : Memories}
  {code : List MCInst} {inst : MCInst} {result : Core × Memory 32 × Transfer}

/-- The thread is where it would be alone, in memories of its own. -/
structure Mirrors (link : Nat → RelocAddresses) (first : Prop) (tile : Word)
    (state : BootProtocol.Thread) (thread : HardwareThread) (memories : Memories) : Prop where
  block : thread.block = state.block
  index : thread.index = state.index
  registers : thread.registers = state.core.registers
  control : thread.control = state.core.control
  events : thread.events = state.events
  keeps : KeepsData link state.core.memory memories.main
  scratchpad : first → memories.scratchpads tile = state.scratchpad

/-- Among the others the thread executes the same instruction to the same effect. -/
theorem mirrored_execute (mirrors : Mirrors link first tile state thread memories)
    (shielded : Shielded link first inst state.core state.scratchpad)
    (executes : Executes link textStart enter state next code inst result) :
    ∃ main scratchpad, execute link textStart tile thread memories =
        some (thread.advance textStart code ⟨result.1.registers, result.1.control, main⟩
            (observed inst state.core result.2.2) result.2.2,
          { memories with
            main := main, scratchpads := Function.update memories.scratchpads tile scratchpad }) ∧
      KeepsData link memories.main main ∧ KeepsData link result.1.memory main ∧
      (first → scratchpad = result.2.1) ∧ (¬ first → scratchpad = memories.scratchpads tile) := by
  obtain ⟨laidOut, here, ran, -⟩ := executes
  obtain ⟨kept, others⟩ := shielded _ _ _ ran
  obtain ⟨main, scratchpad, executed, keeps, own, foreign⟩ :=
    others memories.main (memories.scratchpads tile) mirrors.keeps mirrors.scratchpad
  have same : thread.core memories.main =
      ⟨state.core.registers, state.core.control, memories.main⟩ := by
    rw [HardwareThread.core, mirrors.registers, mirrors.control]
  refine ⟨main, scratchpad, ?_, keeps, (kept.symm.trans mirrors.keeps).trans keeps, own, foreign⟩
  rw [execute, mirrors.block, laidOut, Option.bind_some, mirrors.index, here, Option.bind_some,
    same, executed, Option.map_some]
  rfl

/-- An instruction that makes no call leads to where the thread would be alone. -/
theorem mirrors_next (mirrors : Mirrors link first tile state thread memories)
    (executes : Executes link textStart enter state next code inst result)
    (noCall : ∀ address, result.2.2 ≠ .call address) {main scratchpad : Memory 32}
    (keeps : KeepsData link result.1.memory main) (own : first → scratchpad = result.2.1) :
    Mirrors link first tile next
      (thread.advance textStart code ⟨result.1.registers, result.1.control, main⟩
        (observed inst state.core result.2.2) result.2.2)
      { memories with
        main := main, scratchpads := Function.update memories.scratchpads tile scratchpad } := by
  obtain ⟨-, -, -, rfl⟩ := executes
  obtain ⟨core, stored, transfer⟩ := result
  obtain ⟨block, index, -, -, events, -, -⟩ := mirrors
  have loaded (isFirst : first) :
      Function.update memories.scratchpads tile scratchpad tile = stored := by
    rw [Function.update_self, own isFirst]
  cases transfer with
  | next =>
      simp only [HardwareThread.advance, HardwareThread.behind, BootProtocol.Thread.advance,
        BootProtocol.arrive, block, index, events]
      split <;> exact ⟨rfl, rfl, rfl, rfl, rfl, keeps, loaded⟩
  | jump label =>
      simp only [HardwareThread.advance, BootProtocol.Thread.advance, events]
      exact ⟨rfl, rfl, rfl, rfl, rfl, keeps, loaded⟩
  | call address => exact absurd rfl (noCall address)

theorem advance_counts (core : Core) (events : List Event) {transfer : Transfer}
    (noCall : ∀ address, transfer ≠ .call address) :
    (thread.advance textStart code core events transfer).mode = .running ∧
      (thread.advance textStart code core events transfer).executed = thread.executed + 1 := by
  cases transfer with
  | next =>
      rw [HardwareThread.advance, HardwareThread.behind]
      split <;> exact ⟨rfl, rfl⟩
  | jump label => exact ⟨rfl, rfl⟩
  | call address => exact absurd rfl (noCall address)

theorem mirrored_step (ordered : (dataStart link).toNat ≤ (dataEnd link).toNat)
    (below : (dataEnd link).toNat ≤ 0xFFFFFFC0) (asserted : AssertedAt link first state)
    (mirrors : Mirrors link first tile state thread memories)
    (executes : Executes link textStart enter state next code inst result)
    (noCall : ∀ address, result.2.2 ≠ .call address) :
    ∃ nextThread nextMemories,
      execute link textStart tile thread memories = some (nextThread, nextMemories) ∧
      Mirrors link first tile next nextThread nextMemories ∧ nextThread.mode = .running ∧
      nextThread.executed = thread.executed + 1 ∧
      KeepsData link memories.main nextMemories.main := by
  have shielded := shielded_at ordered below asserted executes.laidOut executes.here
  obtain ⟨main, scratchpad, executed, keeps, kept, own, -⟩ :=
    mirrored_execute mirrors shielded executes
  obtain ⟨running, counted⟩ := @advance_counts textStart thread code
    ⟨result.1.registers, result.1.control, main⟩ (observed inst state.core result.2.2) _ noCall
  exact ⟨_, _, executed, mirrors_next mirrors executes noCall kept own, running, counted, keeps⟩

theorem mirrored_call {core : Core} {scratchpad : Memory 32} {events : List Event}
    (mirrors : Mirrors link first tile ⟨Symbol.do_main.number, 7, core, scratchpad, events⟩ thread
      memories) :
    ∃ next, execute link textStart tile thread memories = some (next, memories) ∧
      next.mode = .calling ∧ next.block = Symbol.do_main.number ∧ next.index = 8 ∧
      next.events =
        events ++ [.called (addressOf link .main) (core.gpr 0) (core.gpr 1)] := by
  obtain ⟨block, index, registers, -, shown, -, -⟩ := mirrors
  have calls : execThread link callMain (thread.core memories.main) (memories.scratchpads tile) =
      some (thread.core memories.main, memories.scratchpads tile,
        .call (addressOf link .main)) := rfl
  refine ⟨thread.advance textStart doMain (thread.core memories.main)
    (observed callMain (thread.core memories.main) (.call (addressOf link .main)))
    (.call (addressOf link .main)), ?_, ?_⟩
  · rw [execute, block, main_laid_out, Option.bind_some, index,
      show doMain[7]? = some callMain from rfl, Option.bind_some, calls, Option.map_some,
      Function.update_eq_self]
    rfl
  · have inside : thread.index + 1 < doMain.length := by
      rw [index]
      exact (show 8 < doMain.length by decide)
    rw [HardwareThread.advance, HardwareThread.behind, if_pos inside]
    refine ⟨rfl, block, by rw [index], ?_⟩
    simp only [observed, HardwareThread.core, Core.gpr, registers, shown]

/-- An instruction leaves the other tiles alone, and starts nobody. -/
theorem execute_shared {nextThread : HardwareThread} {nextMemories : Memories}
    (executed : execute link textStart tile thread memories = some (nextThread, nextMemories)) :
    nextMemories.started = memories.started ∧
      ∀ other ≠ tile, nextMemories.scratchpads other = memories.scratchpads other := by
  rw [execute, Option.bind_eq_some_iff] at executed
  obtain ⟨code, -, executed⟩ := executed
  rw [Option.bind_eq_some_iff] at executed
  obtain ⟨inst, -, executed⟩ := executed
  rw [Option.map_eq_some_iff] at executed
  obtain ⟨result, -, same⟩ := executed
  rw [Prod.mk.injEq] at same
  obtain ⟨-, rfl⟩ := same
  exact ⟨rfl, fun other different => Function.update_of_ne different _ _⟩

end Mirrored

section Phases

variable (link : Nat → RelocAddresses) (textStart : Word) (fresh : Tiles) (turns : ThreadId → Nat)
  (id : ThreadId)

def begins : BootProtocol.Thread :=
  reset ((fresh.own id).core fresh.shared.main) (fresh.shared.scratchpads id.1)

def untilMain : List Event :=
  [.control 11 5, .control 11 1, .called (addressOf link .main) ((fresh.own id).control 12)
    ((fresh.own id).control 13)]

/-- What the thread comes to alone, up to its call. -/
def BootsAlone : Prop :=
  ∃ atCall loaded, QuietRun link textStart (begins fresh id)
      ⟨Symbol.do_main.number, 7, atCall, loaded, [.control 11 5, .control 11 1]⟩ (turns id) ∧
    CallReady link ((fresh.own id).core fresh.shared.main) atCall ∧
    (id.2 = 0 → Loaded link fresh.shared.main (fresh.shared.scratchpads id.1) loaded)

/-- Behind its call the thread begins anew, from what `main` has left. -/
structure EndRun (begin final : BootProtocol.Thread) (limit : Nat) : Prop where
  block : begin.block = Symbol.do_main.number
  index : begin.index = 8
  events : begin.events = untilMain link fresh id
  quiet : QuietRun link textStart begin final limit
  halts : alone link textStart final = some final
  shown : ∃ result, final.events =
    protocol link ((fresh.own id).control 12) ((fresh.own id).control 13) result

inductive Phase (own : HardwareThread) (shared : Memories) : Prop where
  | waiting (waits : own.mode = .waiting) (other : id.2 ≠ 0) (untouched : own = fresh.own id)
  | booting {count : Nat} {state : BootProtocol.Thread} (runs : own.mode = .running)
      (within : count ≤ turns id) (executed : own.executed = count)
      (run : iterate (alone link textStart) count (begins fresh id) = some state)
      (mirrors : Mirrors link (id.2 = 0) id.1 state own shared)
  | calling (calls : own.mode = .calling) (block : own.block = Symbol.do_main.number)
      (index : own.index = 8) (events : own.events = untilMain link fresh id)
  | ending {begin final state : BootProtocol.Thread} {limit count : Nat}
      (runs : own.mode = .running) (endRun : EndRun link textStart fresh id begin final limit)
      (within : count ≤ limit)
      (run : iterate (alone link textStart) count begin = some state)
      (mirrors : Mirrors link False id.1 state own shared)

/-- What holds of a thread and of what it shares with the others. -/
structure Asserting (own : HardwareThread) (shared : Memories) : Prop where
  phase : Phase link textStart fresh turns id own shared
  data : KeepsData link fresh.shared.main shared.main
  started : id.2 ≠ 0 → own.mode ≠ .waiting → shared.started id = true
  held : id.2 = 0 → own.events.length < 3 →
    ∀ thread, thread ≠ 0 → shared.started (id.1, thread) = false

/-- What a thread may do to the others. A thread that has not been started does nothing. -/
structure Allowed (shared next : Memories) : Prop where
  keeps : KeepsData link shared.main next.main
  apart : ∀ tile, tile ≠ id.1 ∨ id.2 ≠ 0 ∧ shared.started id = false →
    next.scratchpads tile = shared.scratchpads tile ∧
      ∀ thread, next.started (tile, thread) = shared.started (tile, thread)
  started : ∀ other, shared.started other = true → next.started other = true

/-- What the start-up code needs of the link. -/
structure Linked : Prop where
  bounds : (addressOf link .init_array_end).sle (addressOf link .init_array_start) = true
  data : DataLaidOut link
  below : (dataEnd link).toNat ≤ 0xFFFFFFC0

end Phases

section Runs

variable {link : Nat → RelocAddresses} {textStart : Word} {fresh tiles : Tiles}
  {turns : ThreadId → Nat} {id : ThreadId} {own next : HardwareThread}
  {shared nextShared : Memories}

theorem begins_asserted (ids : (fresh.own id).control 2 = id.2) :
    AssertedAt link (id.2 = 0) (begins fresh id) :=
  asserted_entry (lead_prologue (fun zero => ids.symm.trans zero) _)

theorem ends_asserted {begin final : BootProtocol.Thread} {limit : Nat}
    (endRun : EndRun link textStart fresh id begin final limit) : AssertedAt link False begin := by
  intro code inst assertion laidOut here
  rw [endRun.block] at laidOut
  cases laidOut
  rw [endRun.index] at here
  cases here
  exact trivial

theorem boots_events (boots : BootsAlone link textStart fresh turns id) {count : Nat}
    {state : BootProtocol.Thread} (within : count ≤ turns id)
    (run : iterate (alone link textStart) count (begins fresh id) = some state) :
    state.events <+: [.control 11 5, .control 11 1] := by
  obtain ⟨atCall, loaded, ⟨whole, -⟩, -⟩ := boots
  obtain ⟨rest, same⟩ := Nat.exists_eq_add_of_le within
  rw [same, iterate_add, run, Option.bind_some] at whole
  exact iterate_events whole

theorem ends_events {begin final state : BootProtocol.Thread} {limit count : Nat}
    (endRun : EndRun link textStart fresh id begin final limit) (within : count ≤ limit)
    (run : iterate (alone link textStart) count begin = some state) :
    untilMain link fresh id <+: state.events ∧ state.events <+: final.events := by
  obtain ⟨rest, rfl⟩ := Nat.exists_eq_add_of_le within
  have whole := endRun.quiet.run
  rw [iterate_add, run, Option.bind_some] at whole
  exact ⟨endRun.events ▸ iterate_events run, iterate_events whole⟩

/-- Before the call a thread goes on with the start-up code, or calls. -/
theorem booting_executes (linked : Linked link) (ids : (fresh.own id).control 2 = id.2)
    (boots : BootsAlone link textStart fresh turns id) {count : Nat} {state : BootProtocol.Thread}
    (within : count ≤ turns id) (executed : own.executed = count)
    (run : iterate (alone link textStart) count (begins fresh id) = some state)
    (mirrors : Mirrors link (id.2 = 0) id.1 state own shared) :
    ∃ next nextShared, execute link textStart id.1 own shared = some (next, nextShared) ∧
      Phase link textStart fresh turns id next nextShared ∧
      KeepsData link shared.main nextShared.main ∧ own.events <+: next.events := by
  obtain ⟨atCall, loaded, quiet, ready, -⟩ := boots
  rcases Nat.lt_or_eq_of_le within with early | last
  · have asserted := quiet_asserted (annotated_proved linked.bounds fun _ => linked.data) quiet
      (begins_asserted ids) within run
    obtain ⟨further, code, inst, result, executes, noCall, after⟩ := quiet_step quiet early run
    obtain ⟨next, nextShared, ran, mirrored, running, counted, keeps⟩ :=
      mirrored_step linked.data.ordered linked.below asserted mirrors executes noCall
    have grown : state.events <+: further.events := by
      rw [executes.left, advance_events]
      exact List.prefix_append _ _
    refine ⟨next, nextShared, ran, ?_, keeps, ?_⟩
    · exact .booting running early (by rw [counted, executed]) after mirrored
    · rw [mirrors.events, mirrored.events]
      exact grown
  · have whole := quiet.run
    rw [← last, run, Option.some.injEq] at whole
    subst whole
    obtain ⟨next, ran, calls, block, index, events⟩ :=
      @mirrored_call link textStart _ _ own shared _ _ _ mirrors
    rw [ready.argc, ready.argv] at events
    refine ⟨next, shared, ran, .calling calls block index events, KeepsData.refl link _, ?_⟩
    rw [mirrors.events, events]
    exact List.prefix_append _ _

/-- Behind the call a thread goes on to its last loop, and stays there. -/
theorem ending_executes (linked : Linked link) {begin final state : BootProtocol.Thread}
    {limit count : Nat} (endRun : EndRun link textStart fresh id begin final limit)
    (within : count ≤ limit) (run : iterate (alone link textStart) count begin = some state)
    (mirrors : Mirrors link False id.1 state own shared) :
    ∃ next nextShared, execute link textStart id.1 own shared = some (next, nextShared) ∧
      Phase link textStart fresh turns id next nextShared ∧
      KeepsData link shared.main nextShared.main ∧ own.events <+: next.events := by
  have asserted := quiet_asserted (annotated_proved linked.bounds False.elim) endRun.quiet
    (ends_asserted endRun) within run
  rcases Nat.lt_or_eq_of_le within with early | last
  · obtain ⟨further, code, inst, result, executes, noCall, after⟩ :=
      quiet_step endRun.quiet early run
    obtain ⟨next, nextShared, ran, mirrored, running, -, keeps⟩ :=
      mirrored_step linked.data.ordered linked.below asserted mirrors executes noCall
    refine ⟨next, nextShared, ran, .ending running endRun early after mirrored, keeps, ?_⟩
    rw [mirrors.events, mirrored.events, executes.left, advance_events]
    exact List.prefix_append _ _
  · have whole := endRun.quiet.run
    rw [← last, run, Option.some.injEq] at whole
    subst whole
    obtain ⟨code, inst, result, executes⟩ := executes_of_step endRun.halts
    have events := congrArg BootProtocol.Thread.events executes.left
    rw [advance_events, List.self_eq_append_right] at events
    have noCall (address : Word) : result.2.2 ≠ .call address := by
      intro calls
      rw [calls] at events
      cases events
    obtain ⟨next, nextShared, ran, mirrored, running, -, keeps⟩ :=
      mirrored_step linked.data.ordered linked.below asserted mirrors executes noCall
    refine ⟨next, nextShared, ran, .ending running endRun within run mirrored, keeps, ?_⟩
    rw [mirrors.events, mirrored.events]

theorem phase_executes (linked : Linked link) (ids : (fresh.own id).control 2 = id.2)
    (boots : BootsAlone link textStart fresh turns id)
    (phase : Phase link textStart fresh turns id own shared) (runs : own.mode = .running) :
    ∃ next nextShared, execute link textStart id.1 own shared = some (next, nextShared) ∧
      Phase link textStart fresh turns id next nextShared ∧
      KeepsData link shared.main nextShared.main ∧ own.events <+: next.events := by
  cases phase with
  | waiting waits => rw [waits] at runs; cases runs
  | booting _ within executed run mirrors =>
      exact booting_executes linked ids boots within executed run mirrors
  | calling calls => rw [calls] at runs; cases runs
  | ending _ endRun within run mirrors => exact ending_executes linked endRun within run mirrors

theorem Mirrors.of_shared {first : Prop} {tile : Word} {state : BootProtocol.Thread}
    (mirrors : Mirrors link first tile state own shared)
    (keeps : KeepsData link shared.main nextShared.main)
    (same : first → nextShared.scratchpads tile = shared.scratchpads tile) :
    Mirrors link first tile state own nextShared :=
  { mirrors with
    keeps := mirrors.keeps.trans keeps
    scratchpad := fun isFirst => (same isFirst).trans (mirrors.scratchpad isFirst) }

theorem executes_asserting (linked : Linked link) (ids : (fresh.own id).control 2 = id.2)
    (boots : BootsAlone link textStart fresh turns id)
    (asserting : Asserting link textStart fresh turns id own shared) (runs : own.mode = .running)
    (executed : execute link textStart id.1 own shared = some (next, nextShared)) :
    Asserting link textStart fresh turns id next nextShared ∧
      Allowed link id shared nextShared := by
  obtain ⟨phase, data, started, held⟩ := asserting
  obtain ⟨_, _, ran, further, keeps, grown⟩ := phase_executes linked ids boots phase runs
  rw [executed, Option.some.injEq, Prod.mk.injEq] at ran
  obtain ⟨rfl, rfl⟩ := ran
  obtain ⟨starts, apart⟩ := execute_shared executed
  have mine (other : id.2 ≠ 0) : shared.started id = true := by
    apply started other
    rw [runs]
    exact Mode.noConfusion
  constructor
  · refine ⟨further, data.trans keeps, fun other _ => ?_, fun isFirst early => ?_⟩
    · rw [starts]
      exact mine other
    · rw [starts]
      exact held isFirst (Nat.lt_of_le_of_lt grown.length_le early)
  · refine ⟨keeps, fun tile outside => ⟨apart tile ?_, fun _ => by rw [starts]⟩,
      fun _ on => by rw [starts]; exact on⟩
    rintro rfl
    obtain elsewhere | ⟨other, off⟩ := outside
    · exact elsewhere rfl
    · rw [mine other] at off
      cases off

theorem begin_asserting (boots : Fresh fresh)
    (asserting : Asserting link textStart fresh turns id own shared) (waits : own.mode = .waiting)
    (on : shared.started id = true) :
    Asserting link textStart fresh turns id { own with mode := .running } shared := by
  obtain ⟨phase, data, -, -⟩ := asserting
  cases phase with
  | booting runs => rw [waits] at runs; cases runs
  | calling calls => rw [waits] at calls; cases calls
  | ending runs => rw [waits] at runs; cases runs
  | waiting _ other untouched =>
      subst untouched
      refine ⟨.booting rfl (Nat.zero_le _) (boots.silent id).2 rfl ?_, data, fun _ _ => on,
        fun isFirst => absurd isFirst other⟩
      exact ⟨(boots.code id).1, (boots.code id).2, rfl, rfl, (boots.silent id).1, data,
        fun isFirst => absurd isFirst other⟩

theorem calling_events (asserting : Asserting link textStart fresh turns id own shared)
    (calls : own.mode = .calling) : own.block = Symbol.do_main.number ∧ own.index = 8 ∧
      own.events = untilMain link fresh id := by
  cases asserting.phase with
  | waiting waits => rw [calls] at waits; cases waits
  | booting runs => rw [calls] at runs; cases runs
  | ending runs => rw [calls] at runs; cases runs
  | calling _ block index events => exact ⟨block, index, events⟩

theorem work_asserting (asserting : Asserting link textStart fresh turns id own shared)
    (calls : own.mode = .calling) (registers : Registers) (control : Word → Word)
    {main : Memory 32} (scratchpad : Memory 32) {started : ThreadId → Bool}
    (keeps : KeepsData link shared.main main)
    (starts : ∀ other, started other ≠ shared.started other →
      other.1 = id.1 ∧ started other = true) :
    Asserting link textStart fresh turns id { own with registers := registers, control := control }
        ⟨main, Function.update shared.scratchpads id.1 scratchpad, started⟩ ∧
      Allowed link id shared
        ⟨main, Function.update shared.scratchpads id.1 scratchpad, started⟩ := by
  obtain ⟨block, index, events⟩ := calling_events asserting calls
  have stays (other : ThreadId) (on : shared.started other = true) : started other = true := by
    by_contra off
    exact off (starts other (fun same => off (same.trans on))).2
  have running : own.mode ≠ .waiting := by
    rw [calls]
    exact Mode.noConfusion
  constructor
  · refine ⟨.calling calls block index events, asserting.data.trans keeps,
      fun other _ => stays id (asserting.started other running), fun _ early => ?_⟩
    rw [show ({ own with registers := registers, control := control } : HardwareThread).events =
      _ from events] at early
    exact absurd early (lt_irrefl 3)
  · refine ⟨keeps, fun tile outside => ?_, stays⟩
    have elsewhere : tile ≠ id.1 := by
      obtain elsewhere | ⟨other, off⟩ := outside
      · exact elsewhere
      · rw [asserting.started other running] at off
        cases off
    refine ⟨Function.update_of_ne elsewhere _ _, fun thread => ?_⟩
    by_contra changed
    exact elsewhere (starts (tile, thread) changed).1

theorem leave_asserting (asserting : Asserting link textStart fresh turns id own shared)
    (calls : own.mode = .calling) :
    Asserting link textStart fresh turns id { own with mode := .running } shared := by
  obtain ⟨block, index, events⟩ := calling_events asserting calls
  let begin : BootProtocol.Thread := ⟨Symbol.do_main.number, 8,
    ⟨own.registers, own.control, shared.main⟩, shared.scratchpads id.1, untilMain link fresh id⟩
  obtain ⟨limit, final, quiet, halts, shown⟩ :=
    @ends_alone link textStart begin.core begin.scratchpad begin.events
  have endRun : EndRun link textStart fresh id begin final limit :=
    ⟨rfl, rfl, rfl, quiet, halts, _, shown⟩
  have running : own.mode ≠ .waiting := by
    rw [calls]
    exact Mode.noConfusion
  refine ⟨.ending rfl endRun (Nat.zero_le _) rfl ?_, asserting.data,
    fun other _ => asserting.started other running, fun _ early => ?_⟩
  · exact ⟨block, index, rfl, rfl, events, KeepsData.refl link _, fun never => never.elim⟩
  · rw [show ({ own with mode := .running } : HardwareThread).events = _ from events] at early
    exact absurd early (lt_irrefl 3)

theorem Allowed.refl (shared : Memories) : Allowed link id shared shared :=
  ⟨KeepsData.refl link _, fun _ _ => ⟨rfl, fun _ => rfl⟩, fun _ on => on⟩

theorem acts_asserting (linked : Linked link) (boots : Fresh fresh)
    (bootsAlone : BootsAlone link textStart fresh turns id)
    (asserting : Asserting link textStart fresh turns id own shared)
    (acts : Act link textStart id (own, shared) (next, nextShared)) :
    Asserting link textStart fresh turns id next nextShared ∧
      Allowed link id shared nextShared := by
  cases acts with
  | begin waits on => exact ⟨begin_asserting boots asserting waits on, Allowed.refl _⟩
  | execute runs executed =>
      exact executes_asserting linked (boots.ids id).2 bootsAlone asserting runs executed
  | work calls registers control scratchpad keeps starts =>
      exact work_asserting asserting calls registers control scratchpad keeps starts
  | leave calls => exact ⟨leave_asserting asserting calls, Allowed.refl _⟩

theorem others_asserting {other : ThreadId} (bootsAlone : BootsAlone link textStart fresh turns id)
    (different : id ≠ other) (asserting : Asserting link textStart fresh turns id own shared)
    (allowed : Allowed link other shared nextShared) :
    Asserting link textStart fresh turns id own nextShared := by
  obtain ⟨phase, data, started, held⟩ := asserting
  have outside (isFirst : id.2 = 0) (early : own.events.length < 3) :
      id.1 ≠ other.1 ∨ other.2 ≠ 0 ∧ shared.started other = false := by
    by_cases same : id.1 = other.1
    · right
      have later : other.2 ≠ 0 := fun zero => different (Prod.ext same (isFirst.trans zero.symm))
      have off := held isFirst early other.2 later
      rw [same] at off
      exact ⟨later, off⟩
    · exact Or.inl same
  refine ⟨?_, data.trans allowed.keeps,
    fun later active => allowed.started id (started later active),
    fun isFirst early thread later => ?_⟩
  · cases phase with
    | waiting waits later untouched => exact .waiting waits later untouched
    | booting runs within executed run mirrors =>
        refine .booting runs within executed run (mirrors.of_shared allowed.keeps fun isFirst => ?_)
        have shown := (boots_events bootsAlone within run).length_le
        rw [← mirrors.events] at shown
        exact (allowed.apart id.1 (outside isFirst (Nat.lt_succ_of_le shown))).1
    | calling calls block index events => exact .calling calls block index events
    | ending runs endRun within run mirrors =>
        exact .ending runs endRun within run (mirrors.of_shared allowed.keeps False.elim)
  · rw [(allowed.apart id.1 (outside isFirst early)).2 thread]
    exact held isFirst early thread later

theorem asserting_stable (linked : Linked link) (boots : Fresh fresh)
    (bootsAlone : ∀ id, BootsAlone link textStart fresh turns id) :
    Stable (Act link textStart) (Asserting link textStart fresh turns) (Allowed link) where
  acts := fun asserting acts => acts_asserting linked boots (bootsAlone _) asserting acts
  others := fun different asserting allowed =>
    others_asserting (bootsAlone _) different asserting allowed

theorem fresh_asserting (boots : Fresh fresh) (id : ThreadId) :
    Asserting link textStart fresh turns id (fresh.own id) fresh.shared := by
  have off (thread : Word) (later : thread ≠ 0) : fresh.shared.started (id.1, thread) = false :=
    (boots.others (id.1, thread) later).2
  refine ⟨?_, KeepsData.refl link _, fun later active => ?_, fun _ _ => off⟩
  · by_cases isFirst : id.2 = 0
    · refine .booting (boots.first id isFirst) (Nat.zero_le _) (boots.silent id).2 rfl ?_
      exact ⟨(boots.code id).1, (boots.code id).2, rfl, rfl, (boots.silent id).1,
        KeepsData.refl link _, fun _ => rfl⟩
    · exact .waiting (boots.others id isFirst).1 isFirst rfl
  · exact absurd (boots.others id later).1 active

theorem boots_before_main (boots : BootsAlone link textStart fresh turns id) {count : Nat}
    {state : BootProtocol.Thread} (within : count ≤ turns id)
    (run : iterate (alone link textStart) count (begins fresh id) = some state)
    (block : state.block = Symbol.do_main.number) (index : state.index = 7) : count = turns id := by
  obtain ⟨atCall, loaded, quiet, -⟩ := boots
  by_contra different
  obtain ⟨-, code, inst, result, ⟨laidOut, here, ran, -⟩, noCall, -⟩ :=
    quiet_step quiet (Nat.lt_of_le_of_ne within different) run
  rw [block, main_laid_out, Option.some.injEq] at laidOut
  subst laidOut
  rw [index, show doMain[7]? = some callMain from rfl, Option.some.injEq] at here
  subst here
  rw [show execThread link callMain state.core state.scratchpad =
      some (state.core, state.scratchpad, .call (addressOf link .main)) from rfl,
    Option.some.injEq] at ran
  apply noCall (addressOf link .main)
  rw [← ran]

theorem asserting_shown (bootsAlone : BootsAlone link textStart fresh turns id)
    (boots : Fresh fresh) (asserting : Asserting link textStart fresh turns id own shared) :
    ∃ result, own.events <+:
      protocol link ((fresh.own id).control 12) ((fresh.own id).control 13) result := by
  have starts (result : Word) : [.control 11 5, .control 11 1] <+:
      protocol link ((fresh.own id).control 12) ((fresh.own id).control 13) result :=
    ⟨_, rfl⟩
  have calls (result : Word) : untilMain link fresh id <+:
      protocol link ((fresh.own id).control 12) ((fresh.own id).control 13) result :=
    ⟨_, rfl⟩
  cases asserting.phase with
  | waiting _ _ untouched =>
      rw [untouched, (boots.silent id).1]
      exact ⟨0, List.nil_prefix⟩
  | booting _ within _ run mirrors =>
      rw [mirrors.events]
      exact ⟨0, (boots_events bootsAlone within run).trans (starts 0)⟩
  | calling _ _ _ events =>
      rw [events]
      exact ⟨0, calls 0⟩
  | ending _ endRun within run mirrors =>
      obtain ⟨result, shown⟩ := endRun.shown
      have events := (ends_events endRun within run).2
      rw [shown, ← mirrors.events] at events
      exact ⟨result, events⟩

theorem asserting_soon (boots : Fresh fresh)
    (asserting : Asserting link textStart fresh turns id own shared)
    (early : own.events.length < 3) : own.executed ≤ turns id := by
  cases asserting.phase with
  | waiting _ _ untouched =>
      rw [untouched, (boots.silent id).2]
      exact Nat.zero_le _
  | booting _ within executed => exact executed.trans_le within
  | calling _ _ _ events =>
      rw [events] at early
      exact absurd early (lt_irrefl 3)
  | ending _ endRun within run mirrors =>
      rw [mirrors.events] at early
      exact absurd early (Nat.not_lt_of_le (ends_events endRun within run).1.length_le)

theorem asserting_prepared (bootsAlone : BootsAlone link textStart fresh turns id)
    (asserting : Asserting link textStart fresh turns id (tiles.own id) tiles.shared)
    (runs : (tiles.own id).mode = .running)
    (block : (tiles.own id).block = Symbol.do_main.number) (index : (tiles.own id).index = 7)
    (early : (tiles.own id).events.length < 3) : AtCall link fresh tiles id := by
  cases asserting.phase with
  | waiting waits => rw [runs] at waits; cases waits
  | calling calls => rw [runs] at calls; cases calls
  | ending _ endRun within run mirrors =>
      rw [mirrors.events] at early
      exact absurd early (Nat.not_lt_of_le (ends_events endRun within run).1.length_le)
  | booting _ within _ run mirrors =>
      have last := boots_before_main bootsAlone within run (mirrors.block.symm.trans block)
        (mirrors.index.symm.trans index)
      obtain ⟨atCall, loaded, quiet, ready, isLoaded⟩ := bootsAlone
      have whole := quiet.run
      rw [← last, run, Option.some.injEq] at whole
      subst whole
      obtain ⟨-, -, registers, control, -, -, scratchpad⟩ := mirrors
      have gpr (index : Fin 64) : (tiles.own id).registers.gpr index = atCall.gpr index := by
        rw [registers]
        rfl
      refine ⟨control.trans ready.control, (gpr 0).trans ready.argc, (gpr 1).trans ready.argv,
        (gpr rm).trans ready.lanes, (gpr sp).trans ready.stack, (gpr fp).trans ready.frame,
        fun isFirst => ?_⟩
      rw [scratchpad isFirst]
      exact isLoaded isFirst

theorem asserting_sound (linked : Linked link) (boots : Fresh fresh)
    (bootsAlone : BootsAlone link textStart fresh turns id)
    (asserting : ∀ id, Asserting link textStart fresh turns id (tiles.own id) tiles.shared) :
    Sound link textStart fresh turns tiles id where
  shown := asserting_shown bootsAlone boots (asserting id)
  goesOn := fun runs => by
    obtain ⟨next, nextShared, ran, -⟩ :=
      phase_executes linked (boots.ids id).2 bootsAlone (asserting id).phase runs
    rw [ran]
    rfl
  soon := asserting_soon boots (asserting id)
  calls := fun calls => (calling_events (asserting id) calls).2.2
  prepared := asserting_prepared bootsAlone (asserting id)
  later := fun later active => by
    by_contra early
    have off := (asserting (id.1, 0)).held rfl (Nat.lt_of_not_le early) id.2 later
    rw [(asserting id).started later active] at off
    cases off
  data := (asserting id).data

theorem boots_alone_fresh (linked : Linked link) (boots : Fresh fresh) :
    ∃ turns, ∀ id, BootsAlone link textStart fresh turns id := by
  have each (id : ThreadId) := @boots_alone link textStart linked.bounds linked.data
    ((fresh.own id).core fresh.shared.main) (fresh.shared.scratchpads id.1)
  choose turns atCall loaded quiet ready isLoaded using each
  exact ⟨turns, fun id => ⟨atCall id, loaded id, quiet id, ready id,
    fun isFirst => isLoaded id ((boots.ids id).2.trans isFirst)⟩⟩

/-- In any order of steps a thread shows the protocol, comes to its call of `main` after a number of
instructions that does not depend on the order, and makes the call with what it would have alone. -/
theorem concurrent_boot (placed : Placed link textStart) (apart : ¬ Straddles textStart)
    (data : DataLaidOut link) (below : (dataEnd link).toNat ≤ 0xFFFFFFC0) (boots : Fresh fresh) :
    ∃ turns, ∀ tiles, Reachable (Act link textStart) fresh tiles →
      ∀ id, Sound link textStart fresh turns tiles id := by
  have linked : Linked link := ⟨(label_order link textStart placed).mpr apart, data, below⟩
  obtain ⟨turns, bootsAlone⟩ := @boots_alone_fresh link textStart fresh linked boots
  refine ⟨turns, fun tiles reached id => asserting_sound linked boots (bootsAlone id) ?_⟩
  exact reachable_asserted (asserting_stable linked boots bootsAlone) reached
    (fresh_asserting boots)

def switchedOn : Tiles where
  own := fun id => ⟨if id.2 = 0 then .running else .waiting, 0, 0,
    (hardwareThread id.1 id.2).registers, (hardwareThread id.1 id.2).control, [], 0⟩
  shared := ⟨fun _ => 0, fun _ _ => 0, fun _ => false⟩

theorem switched_on_fresh : Fresh switchedOn where
  ids := fun _ => ⟨rfl, rfl⟩
  code := fun _ => ⟨rfl, rfl⟩
  silent := fun _ => ⟨rfl, rfl⟩
  first := fun _ isFirst => if_pos isFirst
  others := fun _ later => ⟨if_neg later, rfl⟩

theorem tiles_boot : ∃ turns, ∀ tiles, Reachable (Act dataLink 0x400) switchedOn tiles →
    ∀ id, Sound dataLink 0x400 switchedOn turns tiles id := by
  have apart : ¬ Straddles 0x400 := by
    unfold Straddles
    decide
  exact concurrent_boot data_placed apart ⟨by decide, by decide, by decide⟩ (by decide)
    switched_on_fresh

end Runs

end NaplesPU.ConcurrentBoot
