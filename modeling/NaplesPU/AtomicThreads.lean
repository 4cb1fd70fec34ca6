import NaplesPU.AtomicRuns

/-!
Hardware threads that each run one expanded atomic pseudo against one shared,
sequentially consistent memory. Each step executes one instruction of one thread.
Nothing in the expansions keeps a thread out of the window between the load and
the store of another one.
-/

namespace NaplesPU.AtomicThreads

open ByteMemory Interleaving StepRuns
open RegisterInfo InstrInfo FixupKinds Machine AtomicExpansion AtomicRuns

inductive Operation where
  | binary (pseudo : AtomicPseudo) (alloc : BinaryAllocation pseudo)
  | cmpSwap (alloc : CmpSwapAllocation)

def Operation.program : Operation → Program
  | .binary pseudo alloc => binaryProgram pseudo alloc
  | .cmpSwap alloc => cmpSwapProgram alloc

def Operation.exit : Operation → Nat
  | .binary _ _ => exitMBB
  | .cmpSwap _ => exitCmpSwapMBB

def Operation.ptr : Operation → Fin 64
  | .binary _ alloc => alloc.assign .ptr
  | .cmpSwap alloc => alloc.assign .ptr

def Operation.dest : Operation → Fin 64
  | .binary _ alloc => alloc.assign .dest
  | .cmpSwap alloc => alloc.assign .dest

/-- A thread's operation, and the registers it begins with. -/
structure Participant where
  operation : Operation
  registers : Registers

structure System (n : Nat) where
  threads : Fin n → Thread
  memory : Memory 32

section Runs

variable {n : Nat} (programs : Fin n → Program)

def stepSystem (id : Fin n) (system : System n) : Option (System n) :=
  (stepThread (programs id) (system.threads id) system.memory).map fun next =>
    ⟨Function.update system.threads id next.1, next.2⟩

def runSchedule : List (Fin n) → System n → Option (System n)
  | [], system => some system
  | id :: rest, system => (stepSystem programs id system).bind (runSchedule rest)

def accesses : List (Fin n) → System n → List (Fin n × Access)
  | [], _ => []
  | id :: rest, system =>
      (id, nextAccess (programs id) (system.threads id)) ::
        (stepSystem programs id system).elim [] (accesses rest)

/-- One step of a thread that makes the given access. -/
def fire (event : Fin n × Access) (system : System n) : Option (System n) :=
  if nextAccess (programs event.1) (system.threads event.1) = event.2 then
    stepSystem programs event.1 system
  else none

theorem run_accesses {schedule : List (Fin n)} {system final : System n}
    (ran : runSchedule programs schedule system = some final) :
    run (fire programs) (accesses programs schedule system) system = some final := by
  induction schedule generalizing system with
  | nil => exact ran
  | cons id rest induction =>
      rw [runSchedule] at ran
      rw [accesses, run, fire, if_pos rfl]
      cases next : stepSystem programs id system with
      | none => rw [next, Option.bind_none] at ran; cases ran
      | some middle =>
          rw [next, Option.bind_some] at ran
          exact induction ran

end Runs

section Commuting

variable {n : Nat} {programs : Fin n → Program}

/-- A step that stores nothing commutes with another thread's step, unless it loads and the
other step stores. -/
theorem quiet_commutes {first second : Fin n × Access} (foreign : first.1 ≠ second.1)
    (noStore : first.2 ≠ .store) (quiet : first.2 = .none ∨ second.2 ≠ .store) :
    Commutes (fire programs) first second := by
  obtain ⟨id, access⟩ := first
  obtain ⟨other, otherAccess⟩ := second
  intro system
  obtain ⟨threads, memory⟩ := system
  change id ≠ other at foreign
  by_cases enabled : nextAccess (programs id) (threads id) = access
  · subst enabled
    by_cases otherEnabled : nextAccess (programs other) (threads other) = otherAccess
    · subst otherEnabled
      cases otherStep : stepThread (programs other) (threads other) memory with
      | none =>
          cases step : stepThread (programs id) (threads id) memory with
          | none => simp [fire, stepSystem, step, otherStep]
          | some next =>
              have kept := step_keeps_memory noStore step
              simp [fire, stepSystem, step, otherStep, foreign.symm, kept]
      | some otherNext =>
          have same : nextAccess (programs id) (threads id) = .none ∨ otherNext.2 = memory :=
            quiet.imp_right fun noStore => step_keeps_memory noStore otherStep
          have later := step_quiet noStore same
          cases step : stepThread (programs id) (threads id) memory with
          | none =>
              rw [step] at later
              simp [fire, stepSystem, step, otherStep, foreign, later]
          | some next =>
              have kept := step_keeps_memory noStore step
              rw [step] at later
              simp [fire, stepSystem, step, otherStep, foreign, foreign.symm, later, kept,
                Function.update_comm foreign]
    · cases step : stepThread (programs id) (threads id) memory <;>
        simp [fire, stepSystem, otherEnabled, step, foreign.symm]
  · by_cases otherEnabled : nextAccess (programs other) (threads other) = otherAccess
    · cases otherStep : stepThread (programs other) (threads other) memory <;>
        simp [fire, stepSystem, enabled, otherEnabled, otherStep, foreign]
    · simp [fire, enabled, otherEnabled]

theorem commutes_of_no_conflict (first second : Fin n × Access) (foreign : first.1 ≠ second.1)
    (noConflict : ¬ Conflict first.2 second.2) : Commutes (fire programs) first second := by
  by_cases firstStores : first.2 = .store
  · have secondQuiet : second.2 = .none := by
      by_contra touches
      exact noConflict ⟨by rw [firstStores]; decide, touches, Or.inl firstStores⟩
    intro system
    exact (quiet_commutes foreign.symm (by rw [secondQuiet]; decide) (Or.inl secondQuiet)
      system).symm
  · apply quiet_commutes foreign firstStores
    by_contra disturbed
    rw [not_or, not_not] at disturbed
    exact noConflict ⟨disturbed.1, by rw [disturbed.2]; decide, Or.inr disturbed.2⟩

end Commuting

section Serial

variable {n : Nat} (programs : Fin n → Program) (exits : Fin n → Nat)

/-- The operations one after another: each runs by itself, from the memory that those
before it left, into its exit block. -/
def SerialRun : List (Fin n) → System n → System n → Prop
  | [], system, final => system = final
  | id :: rest, system, final =>
      ∃ count thread memory, iterate (step (programs id)) count (system.threads id, system.memory) =
          some (thread, memory) ∧
        thread.block = exits id ∧
        SerialRun rest ⟨Function.update system.threads id thread, memory⟩ final

variable {programs exits}

theorem fire_eq_some {event : Fin n × Access} {system next : System n}
    (fired : fire programs event system = some next) :
    ∃ result, step (programs event.1) (system.threads event.1, system.memory) = some result ∧
      next = ⟨Function.update system.threads event.1 result.1, result.2⟩ := by
  rw [fire] at fired
  split at fired
  · rw [stepSystem, Option.map_eq_some_iff] at fired
    obtain ⟨result, stepped, same⟩ := fired
    exact ⟨result, stepped, same.symm⟩
  · cases fired

theorem run_own {id : Fin n} {events : List (Fin n × Access)}
    (own : ∀ event ∈ events, event.1 = id) {system final : System n}
    (ran : run (fire programs) events system = some final) :
    ∃ thread memory, iterate (step (programs id)) events.length
        (system.threads id, system.memory) = some (thread, memory) ∧
      final = ⟨Function.update system.threads id thread, memory⟩ := by
  induction events generalizing system with
  | nil =>
      rw [run, Option.some.injEq] at ran
      exact ⟨_, _, rfl, by rw [Function.update_eq_self, ran]⟩
  | cons event rest induction =>
      rw [run, Option.bind_eq_some_iff] at ran
      obtain ⟨middle, fired, after⟩ := ran
      obtain ⟨result, stepped, rfl⟩ := fire_eq_some fired
      rw [own event List.mem_cons_self] at stepped after
      obtain ⟨thread, memory, iterated, rfl⟩ :=
        induction (fun later member => own later (List.mem_cons_of_mem event member)) after
      simp only [Function.update_self] at iterated
      refine ⟨thread, memory, ?_, by rw [Function.update_idem]⟩
      rw [List.length_cons, iterate, stepped, Option.bind_some]
      exact iterated

theorem run_foreign {id : Fin n} {events : List (Fin n × Access)}
    (foreign : ∀ event ∈ events, event.1 ≠ id) {system final : System n}
    (ran : run (fire programs) events system = some final) :
    final.threads id = system.threads id := by
  induction events generalizing system with
  | nil =>
      rw [run, Option.some.injEq] at ran
      rw [ran]
  | cons event rest induction =>
      rw [run, Option.bind_eq_some_iff] at ran
      obtain ⟨middle, fired, after⟩ := ran
      obtain ⟨result, -, rfl⟩ := fire_eq_some fired
      rw [induction (fun later member => foreign later (List.mem_cons_of_mem event member)) after]
      exact Function.update_of_ne (foreign event List.mem_cons_self).symm _ _

/-- Events sorted by thread, after which all threads have left, are a serial run. -/
theorem serial_run_of_sorted {order : List (Fin n)} (nodup : order.Nodup)
    {events : List (Fin n × Access)} {system final : System n}
    (ran : run (fire programs)
      (order.flatMap fun id => events.filter fun event => event.1 = id) system = some final)
    (exited : ∀ id ∈ order, (final.threads id).block = exits id) :
    SerialRun programs exits order system final := by
  induction order generalizing system with
  | nil =>
      rw [List.flatMap_nil, run, Option.some.injEq] at ran
      exact ran
  | cons id rest induction =>
      rw [List.nodup_cons] at nodup
      rw [List.flatMap_cons, run_append, Option.bind_eq_some_iff] at ran
      obtain ⟨middle, first, after⟩ := ran
      have own : ∀ event ∈ events.filter fun event => event.1 = id, event.1 = id := by
        intro event member
        exact of_decide_eq_true (List.mem_filter.mp member).2
      have foreign : ∀ event ∈ rest.flatMap fun other => events.filter fun event => event.1 = other,
          event.1 ≠ id := by
        intro event member same
        obtain ⟨other, inRest, filtered⟩ := List.mem_flatMap.mp member
        have owner : event.1 = other := of_decide_eq_true (List.mem_filter.mp filtered).2
        exact nodup.1 (same ▸ owner ▸ inRest)
      have kept := run_foreign foreign after
      obtain ⟨thread, memory, iterated, rfl⟩ := run_own own first
      simp only [Function.update_self] at kept
      refine ⟨_, thread, memory, iterated, ?_, ?_⟩
      · rw [← kept]
        exact exited id List.mem_cons_self
      · exact induction nodup.2 after fun other member =>
          exited other (List.mem_cons_of_mem id member)

end Serial

section Atomicity

variable {n : Nat} (participants : Fin n → Participant) (address : Word) (memory : Memory 32)

def programsOf (id : Fin n) : Program := (participants id).operation.program

def exitsOf (id : Fin n) : Nat := (participants id).operation.exit

def startOf : System n := ⟨fun id => ⟨0, 0, (participants id).registers⟩, memory⟩

def Exited (system : System n) : Prop :=
  ∀ id, (system.threads id).block = exitsOf participants id

def destOf (system : System n) (id : Fin n) : Word :=
  (system.threads id).registers.gpr (participants id).operation.dest

/-- The final word and every destination are those of running the operations one after
another in some order. -/
def Serializable (final : System n) : Prop :=
  ∃ order serial, order.Perm (List.finRange n) ∧
    SerialRun (programsOf participants) (exitsOf participants) order (startOf participants memory)
      serial ∧
    loadWord32 final.memory address = loadWord32 serial.memory address ∧
    destOf participants final = destOf participants serial

/-- Threads whose accesses are not disturbed act one after another. -/
theorem undisturbed_operations_serializable {schedule : List (Fin n)} {final : System n}
    (ran : runSchedule (programsOf participants) schedule (startOf participants memory) = some final)
    (exited : Exited participants final)
    (undisturbed : Undisturbed
      (accesses (programsOf participants) schedule (startOf participants memory))) :
    Serializable participants address memory final := by
  obtain ⟨order, nodup, everyone, sorted⟩ :=
    exists_serial_order commutes_of_no_conflict undisturbed
  have perm : order.Perm (List.finRange n) :=
    (List.perm_ext_iff_of_nodup nodup (List.nodup_finRange n)).mpr fun id => by
      simp [everyone id]
  have run := run_accesses (programsOf participants) ran
  rw [sorted] at run
  exact ⟨order, final, perm, serial_run_of_sorted nodup run fun id _ => exited id, rfl, rfl⟩

theorem serial_pair {programs : Fin 2 → Program} {exits : Fin 2 → Nat} {order : List (Fin 2)}
    (perm : order.Perm (List.finRange 2)) {system serial : System 2}
    (runs : SerialRun programs exits order system serial) :
    ∃ first second, second ≠ first ∧ ∃ middle,
      (∃ count, iterate (step (programs first)) count (system.threads first, system.memory) =
        some (serial.threads first, middle)) ∧
      (∃ count, iterate (step (programs second)) count (system.threads second, middle) =
        some (serial.threads second, serial.memory)) ∧
      ∀ id, (serial.threads id).block = exits id := by
  obtain ⟨first, second, rfl⟩ := List.length_eq_two.mp perm.length_eq
  have apart : second ≠ first := by
    have nodup := perm.nodup_iff.mpr (List.nodup_finRange 2)
    simp only [List.nodup_cons, List.mem_singleton] at nodup
    exact fun same => nodup.1 same.symm
  obtain ⟨count, thread, middle, ran, exited, otherCount, otherThread, memory, otherRan, otherExited,
    rfl⟩ := runs
  simp only [Function.update_of_ne apart] at otherRan
  refine ⟨first, second, apart, middle, ⟨count, ?_⟩, ⟨otherCount, ?_⟩, fun id => ?_⟩
  · simp only [Function.update_of_ne apart.symm, Function.update_self]
    exact ran
  · simp only [Function.update_self]
    exact otherRan
  · by_cases isSecond : id = second
    · simp only [isSecond, Function.update_self]
      exact otherExited
    · have isFirst : id = first := by omega
      simp only [isFirst, Function.update_of_ne apart.symm, Function.update_self]
      exact exited

def increment : AtomicPseudo := .ATOMIC_LOAD_I .ADD ⟨1, by decide⟩

/-- A thread that adds one to the word at zero, with one in the register the branch tests. -/
def incrementer : Participant where
  operation := .binary increment (separateAllocation increment)
  registers := ⟨fun index => if index = loopCondition then 1 else 0, fun _ => 0⟩

theorem incrementer_leaves (memory : Memory 32) :
    LeavesAtOnce (separateAllocation increment) incrementer.registers memory := by
  intro zero
  exact absurd (show (1 : Word) = 0 from zero) (by decide)

theorem incrementer_solo {memory finalMemory : Memory 32} {count : Nat} {thread : Thread}
    (ran : iterate (step incrementer.operation.program) count
      (⟨0, 0, incrementer.registers⟩, memory) = some (thread, finalMemory))
    (exited : thread.block = incrementer.operation.exit) :
    thread.registers.gpr incrementer.operation.dest = loadWord32 memory 0 ∧
      loadWord32 finalMemory 0 = loadWord32 memory 0 + 1 := by
  obtain ⟨dest, rfl⟩ := exit_of_leaves _ _ memory (incrementer_leaves memory) ran exited
  exact ⟨dest, load_word32_store_word32 memory 0 _⟩

/-- The second incrementer loads between the store and the branch of the first. -/
def staggered : List (Fin 2) := [0, 0, 0, 0, 1, 0, 1, 1, 1, 1]

theorem staggered_outcome :
    (runSchedule (programsOf fun _ => incrementer) staggered
      (startOf (fun _ => incrementer) fun _ => 0)).any fun final =>
        (∀ id : Fin 2, (final.threads id).block = exitMBB) ∧ loadWord32 final.memory 0 = 2 := by
  rfl

theorem staggered_increments_serializable : ∃ final : System 2,
    loadWord32 final.memory 0 = 2 ∧
      Serializable (fun _ => incrementer) 0 (fun _ => 0) final := by
  obtain ⟨final, ran, outcome⟩ := (Option.any_eq_true _ _).mp staggered_outcome
  rw [decide_eq_true_eq] at outcome
  have grouped : Undisturbed (accesses (programsOf fun _ => incrementer) staggered
      (startOf (fun _ => incrementer) fun _ => 0)) := by
    apply undisturbed_of_grouped
    decide
  exact ⟨final, outcome.2, undisturbed_operations_serializable _ _ _ ran outcome.1 grouped⟩

/-- Two incrementers of which each loads before the other stores. -/
def overlapping : List (Fin 2) := [0, 1, 0, 0, 0, 0, 1, 1, 1, 1]

theorem overlapping_outcome :
    (runSchedule (programsOf fun _ => incrementer) overlapping
      (startOf (fun _ => incrementer) fun _ => 0)).any fun final =>
        (∀ id : Fin 2, (final.threads id).block = exitMBB) ∧
          ∀ id, destOf (fun _ => incrementer) final id = 0 := by
  rfl

/-- One of the two updates is lost. -/
theorem overlapping_increments_not_serializable : ¬ ∀ (n : Nat) (participants : Fin n → Participant)
    (address : Word) (memory : Memory 32) (schedule : List (Fin n)) (final : System n),
    (∀ id, (participants id).registers.gpr (participants id).operation.ptr = address) →
    runSchedule (programsOf participants) schedule (startOf participants memory) = some final →
    Exited participants final → Serializable participants address memory final := by
  intro all
  obtain ⟨final, ran, outcome⟩ := (Option.any_eq_true _ _).mp overlapping_outcome
  rw [decide_eq_true_eq] at outcome
  obtain ⟨order, serial, perm, runs, -, sameDest⟩ := all 2 (fun _ => incrementer) 0 (fun _ => 0)
    overlapping final (fun _ => rfl) ran outcome.1
  obtain ⟨first, second, -, middle, ⟨_, firstRan⟩, ⟨_, secondRan⟩, exited⟩ := serial_pair perm runs
  have firstWord := (incrementer_solo firstRan (exited first)).2
  have secondDest := (incrementer_solo secondRan (exited second)).1
  have dest : destOf (fun _ : Fin 2 => incrementer) final second = loadWord32 middle 0 :=
    (congrFun sameDest second).trans secondDest
  rw [outcome.2, firstWord] at dest
  revert dest
  decide

/-- A thread whose sum is in the register the branch tests: it goes back when the sum is zero. -/
def returningIncrementer : Participant where
  operation := .binary increment
    { assign := fun
        | .dest => 2
        | .ptr => 3
        | .amt => 4
        | .oldValue => 5
        | .newValue => 1
        | .inverted => 7
      allocatable := fun register => by cases register <;> decide
      ptrKept := by decide
      amtKept := fun _ => by decide
      destKept := by decide }
  registers := ⟨fun _ => 0, fun _ => 0⟩

/-- A thread whose comparison fails, so that it only loads. -/
def observer : Participant where
  operation := .cmpSwap separateCmpSwap
  registers := ⟨fun index => if index = 4 then 7 else 0, fun _ => 0⟩

def returning (id : Fin 2) : Participant := if id = 0 then returningIncrementer else observer

/-- The observer loads between the two passes of the other thread. -/
def between : List (Fin 2) := [0, 0, 0, 0, 0, 1, 1, 1, 0, 0, 0, 0, 0]

theorem observer_solo {memory finalMemory : Memory 32} (different : loadWord32 memory 0 ≠ 7)
    {count : Nat} {thread : Thread}
    (ran : iterate (step observer.operation.program) count
      (⟨0, 0, observer.registers⟩, memory) = some (thread, finalMemory))
    (exited : thread.block = observer.operation.exit) :
    thread.registers.gpr observer.operation.dest = loadWord32 memory 0 :=
  (exit_of_different separateCmpSwap observer.registers memory different ran exited).1

theorem between_outcome :
    (runSchedule (programsOf returning) between (startOf returning fun _ => 255)).any fun final =>
      (∀ id : Fin 2, (final.threads id).block = exitsOf returning id) ∧
        destOf returning final 1 = 0 := by
  rfl

theorem returning_solo :
    (iterate (step returningIncrementer.operation.program) 10
      (⟨0, 0, returningIncrementer.registers⟩, fun _ => 255)).any fun result =>
        result.1.block = exitMBB ∧ loadWord32 result.2 0 = 1 := by
  rfl

theorem between_windows_kept :
    WindowsKept (accesses (programsOf returning) between (startOf returning fun _ => 255)) := by
  have stores : ∀ event ∈ accesses (programsOf returning) between (startOf returning fun _ => 255),
      event.2 = .store → event.1 = 0 := by decide
  have loads : (accesses (programsOf returning) between
      (startOf returning fun _ => 255)).Pairwise fun first second =>
        first.1 = 1 → second.1 = 1 → first.2 = .none ∨ second.2 = .none := by decide
  intro first middle last id other before after lower upper atFirst atMiddle atLast touches later
  have zero : other = 0 := stores _ (List.mem_of_getElem? atMiddle) rfl
  by_contra apart
  have one : id = 1 := by omega
  obtain ⟨firstBound, firstSame⟩ := List.getElem?_eq_some_iff.mp atFirst
  obtain ⟨lastBound, lastSame⟩ := List.getElem?_eq_some_iff.mp atLast
  have pair := List.pairwise_iff_getElem.mp loads first last firstBound lastBound (lower.trans upper)
  rw [firstSame, lastSame] at pair
  exact (pair one one).elim touches later

/-- Keeping stores out of the windows is not enough: the observer finds a word that the other
thread leaves only between two passes. -/
theorem kept_windows_not_serializable : ¬ ∀ (n : Nat) (participants : Fin n → Participant)
    (address : Word) (memory : Memory 32) (schedule : List (Fin n)) (final : System n),
    (∀ id, (participants id).registers.gpr (participants id).operation.ptr = address) →
    runSchedule (programsOf participants) schedule (startOf participants memory) = some final →
    Exited participants final →
    WindowsKept (accesses (programsOf participants) schedule (startOf participants memory)) →
    Serializable participants address memory final := by
  intro all
  obtain ⟨final, ran, outcome⟩ := (Option.any_eq_true _ _).mp between_outcome
  rw [decide_eq_true_eq] at outcome
  obtain ⟨order, serial, perm, runs, -, sameDest⟩ := all 2 returning 0 (fun _ => 255) between final
    (by decide) ran outcome.1 between_windows_kept
  have observed := congrFun sameDest 1
  rw [outcome.2] at observed
  obtain ⟨first, second, apart, middle, ⟨_, firstRan⟩, ⟨_, secondRan⟩, exited⟩ :=
    serial_pair perm runs
  rcases (by omega : first = 0 ∧ second = 1 ∨ first = 1 ∧ second = 0) with ⟨rfl, rfl⟩ | ⟨rfl, rfl⟩
  · obtain ⟨solo, soloRan, soloOutcome⟩ := (Option.any_eq_true _ _).mp returning_solo
    rw [decide_eq_true_eq] at soloOutcome
    have same := halted_unique firstRan (step_exit _ (exited 0) _) soloRan
      (step_exit _ soloOutcome.1 _)
    rw [← same] at soloOutcome
    have found := observer_solo (by rw [soloOutcome.2]; decide) secondRan (exited 1)
    rw [soloOutcome.2] at found
    exact absurd (observed.trans found) (by decide)
  · have found := observer_solo (by decide) firstRan (exited 1)
    exact absurd (observed.trans found) (by decide)

end Atomicity

end NaplesPU.AtomicThreads
