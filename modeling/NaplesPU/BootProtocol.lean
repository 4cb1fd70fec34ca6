import NaplesPU.Preload

/-!
The whole of the start-up code, from the reset of a hardware thread to the loop it ends in.
A thread tells the outside its mode by a control register, hands `main` its arguments from two
others and its result back to one of them. What `main` does to the thread and to the memories
before it returns is unknown.
-/

namespace NaplesPU.BootProtocol

open ByteMemory StepRuns TwosComplement
open RegisterInfo InstrFormats InstrInfo FixupKinds MCCodeEmitter
open ELFRelocations Machine AddressLowering Startup Preload

inductive Event where
  | control (register value : Word)
  | called (address argc argv : Word)
  | flushed (address : Word)
deriving DecidableEq

structure Thread where
  block : Nat
  index : Nat
  core : Core
  scratchpad : Memory 32
  events : List Event

abbrev Returns := Word → Core × Memory 32 → Core × Memory 32

section Execution

variable (link : Nat → RelocAddresses)

/-- A direct call goes to the symbol of its operand; a flush leaves memory as it is. -/
def execThread (inst : MCInst) (core : Core) (scratchpad : Memory 32) :
    Option (Core × Memory 32 × Transfer) :=
  match inst.opcode with
  | .JMPSR_OFF =>
      (branchTarget inst).map fun label =>
        (core, scratchpad, .call ((link label).symbol.setWidth 32))
  | .FLUSH => some (core, scratchpad, .next)
  | _ => execPreload link inst core scratchpad

def observed (inst : MCInst) (core : Core) : Transfer → List Event
  | .call address => [.called address (core.gpr 0) (core.gpr 1)]
  | _ =>
      match inst.opcode with
      | .WRITECR => [.control (core.gpr (fieldReg inst .src1)) (core.gpr (fieldReg inst .src0))]
      | .FLUSH => [.flushed (core.gpr (fieldReg inst .src0))]
      | _ => []

variable (textStart : Word) (returns : Returns)

/-- A call leaves the return address in its register, and comes back to it. -/
def Thread.call (thread : Thread) (core : Core) (scratchpad : Memory 32) (address : Word) :
    Core × Memory 32 :=
  let ra := textStart + BitVec.ofNat 32 (4 * (wordsBefore thread.block thread.index + 1))
  returns address (core.setGpr RA_REG.encoding ra, scratchpad)

/-- A thread at an index of a block; behind its end it is in the next block. -/
def arrive (code : List MCInst) (block index : Nat) (core : Core) (scratchpad : Memory 32)
    (events : List Event) : Thread :=
  if index < code.length then ⟨block, index, core, scratchpad, events⟩
  else ⟨block + 1, 0, core, scratchpad, events⟩

def Thread.advance (thread : Thread) (code : List MCInst) (core : Core) (scratchpad : Memory 32)
    (events : List Event) : Transfer → Thread
  | .next => arrive code thread.block (thread.index + 1) core scratchpad (thread.events ++ events)
  | .jump label => ⟨label, 0, core, scratchpad, thread.events ++ events⟩
  | .call address =>
      let (core, scratchpad) := thread.call textStart returns core scratchpad address
      arrive code thread.block (thread.index + 1) core scratchpad (thread.events ++ events)

def step (thread : Thread) : Option Thread :=
  crt0[thread.block]?.bind fun code =>
    code[thread.index]?.bind fun inst =>
      (execThread link inst thread.core thread.scratchpad).map fun result =>
        thread.advance textStart returns code result.1 result.2.1
          (observed inst thread.core result.2.2) result.2.2

def reset (core : Core) (scratchpad : Memory 32) : Thread := ⟨0, 0, core, scratchpad, []⟩

end Execution

section Steps

variable {link : Nat → RelocAddresses} {textStart : Word} {returns : Returns}

abbrev Leads (link : Nat → RelocAddresses) (textStart : Word) (returns : Returns) :
    Thread → Thread → Prop :=
  Reaches (step link textStart returns)

variable {block index : Nat} {code : List MCInst} {inst : MCInst} {core next : Core}
  {scratchpad nextScratchpad : Memory 32} {events : List Event}

theorem arrive_inside (inside : index < code.length) :
    arrive code block index core scratchpad events = ⟨block, index, core, scratchpad, events⟩ :=
  if_pos inside

theorem step_at (laidOut : crt0[block]? = some code) (here : code[index]? = some inst)
    {transfer : Transfer}
    (executed : execThread link inst core scratchpad = some (next, nextScratchpad, transfer)) :
    step link textStart returns ⟨block, index, core, scratchpad, events⟩ =
      some ((Thread.mk block index core scratchpad events).advance textStart returns code next
        nextScratchpad (observed inst core transfer) transfer) := by
  rw [step, laidOut, Option.bind_some, here, Option.bind_some, executed, Option.map_some]

theorem leads_next (laidOut : crt0[block]? = some code) (here : code[index]? = some inst)
    (executed : execThread link inst core scratchpad = some (next, nextScratchpad, .next)) :
    Leads link textStart returns ⟨block, index, core, scratchpad, events⟩
      (arrive code block (index + 1) next nextScratchpad (events ++ observed inst core .next)) := by
  apply reaches_step
  rw [step_at laidOut here executed, Thread.advance]

theorem leads_jump (laidOut : crt0[block]? = some code) (here : code[index]? = some inst)
    {label : Nat} (quiet : observed inst core (.jump label) = [])
    (executed : execThread link inst core scratchpad = some (next, nextScratchpad, .jump label)) :
    Leads link textStart returns ⟨block, index, core, scratchpad, events⟩
      ⟨label, 0, next, nextScratchpad, events⟩ := by
  apply reaches_step
  rw [step_at laidOut here executed, Thread.advance, quiet, List.append_nil]

/-- Events are never taken back. -/
theorem step_events {thread next : Thread}
    (stepped : step link textStart returns thread = some next) :
    thread.events <+: next.events := by
  rw [step, Option.bind_eq_some_iff] at stepped
  obtain ⟨code, -, stepped⟩ := stepped
  rw [Option.bind_eq_some_iff] at stepped
  obtain ⟨inst, -, stepped⟩ := stepped
  rw [Option.map_eq_some_iff] at stepped
  obtain ⟨⟨core, scratchpad, transfer⟩, -, rfl⟩ := stepped
  have further : ∀ core scratchpad events, thread.events <+:
      (arrive code thread.block (thread.index + 1) core scratchpad
        (thread.events ++ events)).events := by
    intro core scratchpad events
    rw [arrive]
    split <;> exact List.prefix_append _ _
  cases transfer with
  | next => exact further _ _ _
  | jump label => exact List.prefix_append _ _
  | call address => exact further _ _ _

theorem iterate_events {count : Nat} {thread final : Thread}
    (run : iterate (step link textStart returns) count thread = some final) :
    thread.events <+: final.events := by
  induction count generalizing thread with
  | zero =>
      rw [iterate, Option.some.injEq] at run
      rw [run]
  | succ count induction =>
      rw [iterate, Option.bind_eq_some_iff] at run
      obtain ⟨next, stepped, rest⟩ := run
      exact (step_events stepped).trans (induction rest)

theorem thread_of_preload {transfer : Transfer}
    (executed : execPreload link inst core scratchpad = some (next, nextScratchpad, transfer)) :
    execThread link inst core scratchpad = some (next, nextScratchpad, transfer) := by
  unfold execThread
  split
  case h_1 opcode | h_2 opcode =>
      unfold execPreload execCore exec at executed
      simp only [opcode] at executed
      cases executed
  case h_3 => exact executed

theorem thread_of_core {transfer : Transfer}
    (executed : execCore link inst core = some (next, transfer)) :
    execThread link inst core scratchpad = some (next, scratchpad, transfer) :=
  thread_of_preload (preload_of_core executed)

/-- Only these are seen, calls apart. -/
def isQuiet (inst : MCInst) : Bool := inst.opcode ≠ .WRITECR ∧ inst.opcode ≠ .FLUSH

theorem observed_quiet (quiet : isQuiet inst = true) {transfer : Transfer}
    (noCall : ∀ address, transfer ≠ .call address) : observed inst core transfer = [] := by
  rw [isQuiet, decide_eq_true_eq] at quiet
  unfold observed
  split
  case h_1 address => exact absurd rfl (noCall address)
  case h_2 =>
      split
      case h_1 isWrite => exact absurd isWrite quiet.1
      case h_2 isFlush => exact absurd isFlush quiet.2
      case h_3 => rfl

/-- A sequence runs instruction by instruction and nothing is seen of it. -/
theorem leads_sequence (laidOut : crt0[block]? = some code) {before insts rest : List MCInst}
    (split : code = before ++ insts ++ rest) (quiet : ∀ inst ∈ insts, isQuiet inst = true)
    {final : Core} (executed : execSequence link insts core = some final) :
    Leads link textStart returns (arrive code block before.length core scratchpad events)
      (arrive code block (before.length + insts.length) final scratchpad events) := by
  induction insts generalizing before core with
  | nil =>
      rw [execSequence, Option.some.injEq] at executed
      subst executed
      exact ⟨0, rfl⟩
  | cons inst insts induction =>
      rw [List.forall_mem_cons] at quiet
      rw [execSequence] at executed
      split at executed
      · rename_i next first
        have here : code[before.length]? = some inst := by
          rw [split, List.append_assoc, List.getElem?_append_right le_rfl, Nat.sub_self]
          rfl
        have inside : before.length < code.length := by
          rw [split, List.length_append, List.length_append, List.length_cons]
          omega
        have regrouped : code = (before ++ [inst]) ++ insts ++ rest := by
          rw [split]
          simp only [List.append_assoc, List.cons_append, List.nil_append]
        have remaining := induction regrouped quiet.2 executed
        rw [List.length_append, List.length_singleton] at remaining
        have stepped := @leads_next link textStart returns block before.length code inst core next
          scratchpad scratchpad events laidOut here (thread_of_core first)
        rw [observed_quiet quiet.1 (fun _ => Transfer.noConfusion), List.append_nil] at stepped
        rw [arrive_inside inside, List.length_cons, Nat.add_comm insts.length, ← Nat.add_assoc]
        exact reaches_trans stepped remaining
      · cases executed

theorem leads_write {value register : Fin 64} (laidOut : crt0[block]? = some code)
    (here : code[index]? = some (write_cr value register)) (core : Core) (scratchpad : Memory 32)
    (events : List Event) :
    Leads link textStart returns ⟨block, index, core, scratchpad, events⟩
      (arrive code block (index + 1)
        { core with control := Function.update core.control (core.gpr register) (core.gpr value) }
        scratchpad (events ++ [.control (core.gpr register) (core.gpr value)])) := by
  have seen : observed (write_cr value register) core .next =
      [.control (core.gpr register) (core.gpr value)] := by
    simp only [observed, write_cr, s]
    rw [field_reg_eq .src0 (sReg value) rfl, field_reg_eq .src1 (sReg register) rfl]
    rfl
  rw [← seen]
  exact leads_next laidOut here (thread_of_core (exec_write_cr link core value register))

/-- The code that tells the mode of the thread. -/
def setMode (mode : Int) : List MCInst := [movei 2 mode, movei 3 11, write_cr 2 3]

def modeSet (core : Core) (mode : Word) : Core :=
  { (core.setGpr 2 mode).setGpr 3 11 with control := Function.update core.control 11 mode }

theorem leads_set_mode (laidOut : crt0[block]? = some code) {before rest : List MCInst} {mode : Int}
    (split : code = before ++ setMode mode ++ rest)
    (low : BitVec.ofInt 32 mode &&& (0xffff : Word) = BitVec.ofInt 32 mode) :
    Leads link textStart returns (arrive code block before.length core scratchpad events)
      (arrive code block (before.length + 3) (modeSet core (BitVec.ofInt 32 mode)) scratchpad
        (events ++ [.control 11 (BitVec.ofInt 32 mode)])) := by
  have moves : execSequence link [movei 2 mode, movei 3 11] core =
      some ((core.setGpr 2 (BitVec.ofInt 32 mode)).setGpr 3 (BitVec.ofInt 32 11)) := by
    rw [exec_sequence_cons link (exec_movei link _ 2 low),
      exec_sequence_cons link (exec_movei link _ 3 (by decide)), execSequence]
  have regrouped : code = before ++ [movei 2 mode, movei 3 11] ++ (write_cr 2 3 :: rest) := by
    rw [split]
    simp only [setMode, List.append_assoc, List.cons_append, List.nil_append]
  have quiet : ∀ inst ∈ [movei 2 mode, movei 3 11], isQuiet inst = true :=
    List.forall_mem_cons.mpr ⟨rfl, List.forall_mem_singleton.mpr rfl⟩
  have moved := @leads_sequence link textStart returns block code core scratchpad events laidOut
    before _ _ regrouped quiet _ moves
  have here : code[before.length + 2]? = some (write_cr 2 3) := by
    rw [split, List.append_assoc, List.getElem?_append_right (by omega),
      show before.length + 2 - before.length = 2 by omega]
    rfl
  have inside : before.length + 2 < code.length := by
    rw [split, List.length_append, List.length_append, setMode, List.length_cons, List.length_cons,
      List.length_singleton]
    omega
  rw [show before.length + [movei 2 mode, movei 3 11].length = before.length + 2 from rfl,
    arrive_inside inside] at moved
  exact reaches_trans moved (leads_write laidOut here _ _ _)

end Steps

section Loading

variable {link : Nat → RelocAddresses}

/-- What the preload leaves alone. -/
structure Keeps (core next : Core) : Prop where
  control : next.control = core.control
  gpr : ∀ index : Fin 64, 4 < index.val → next.gpr index = core.gpr index

theorem Keeps.refl (core : Core) : Keeps core core := ⟨rfl, fun _ _ => rfl⟩

theorem Keeps.trans {first second third : Core} (left : Keeps first second)
    (right : Keeps second third) : Keeps first third :=
  ⟨right.control.trans left.control,
    fun index high => (right.gpr index high).trans (left.gpr index high)⟩

theorem keeps_set (core : Core) {dst : Fin 64} (low : dst.val ≤ 4) (value : Word) :
    Keeps core (core.setGpr dst value) := by
  refine ⟨rfl, fun index high => ?_⟩
  rw [set_gpr_core, Function.update_of_ne]
  rintro rfl
  omega

/-- Nothing is seen of such an instruction, and it stays in the preload. -/
def Confined (link : Nat → RelocAddresses) (inst : MCInst) : Prop :=
  isQuiet inst = true ∧ ∀ core scratchpad, ∃ next nextScratchpad transfer,
    execPreload link inst core scratchpad = some (next, nextScratchpad, transfer) ∧
    Keeps core next ∧ (transfer = .next ∨ ∃ label, 2 ≤ label ∧ transfer = .jump label)

theorem confined_of_set {inst : MCInst} (quiet : isQuiet inst = true) {dst : Fin 64}
    (low : dst.val ≤ 4)
    (executed : ∀ core, ∃ value, execCore link inst core = some (core.setGpr dst value, .next)) :
    Confined link inst := by
  refine ⟨quiet, fun core scratchpad => ?_⟩
  obtain ⟨value, set⟩ := executed core
  exact ⟨_, _, _, preload_of_core set, keeps_set core low value, Or.inl rfl⟩

theorem confined_arith {op : ArithInt} {operation : Word → Word → Word}
    (known : alu op = some operation) {dst : Fin 64} (low : dst.val ≤ 4) (src0 src1 : Fin 64) :
    Confined link (arith_i32 op dst src0 src1) :=
  confined_of_set rfl low fun core => ⟨_, exec_arith_i32 link core known dst src0 src1⟩

theorem confined_arithi {op : ArithInt} {operation : Word → Word → Word}
    (known : alu op = some operation) {dst : Fin 64} (low : dst.val ≤ 4) (src : Fin 64)
    {value : Int} (fits : SignedFits 9 value) : Confined link (arithi op dst src value) :=
  confined_of_set rfl low fun core => ⟨_, exec_arithi link core known dst src fits⟩

theorem confined_moveih {dst : Fin 64} (low : dst.val ≤ 4) (value : Int) :
    Confined link (moveih dst value) :=
  confined_of_set rfl low fun core => ⟨_, exec_moveih link core dst value⟩

theorem confined_moveil {dst : Fin 64} (low : dst.val ≤ 4) (value : Int) :
    Confined link (moveil dst value) :=
  confined_of_set rfl low fun core => ⟨_, exec_moveil link core dst value⟩

theorem confined_leah {dst : Fin 64} (low : dst.val ≤ 4) (symbol : Symbol) :
    Confined link (leah dst symbol) :=
  confined_of_set rfl low fun core => ⟨_, exec_linked link core rfl
    (link_decode_half (show (Opcode.moveImm .MOVEIH .SI).layout = moveLayout 1 .imm from rfl)
      (link_leah link dst symbol) (low_sixteen_lt _)) (exec_move_high _ _ dst _)⟩

theorem confined_leal {dst : Fin 64} (low : dst.val ≤ 4) (symbol : Symbol) :
    Confined link (leal dst symbol) :=
  confined_of_set rfl low fun core => ⟨_, exec_linked link core rfl
    (link_decode_half (show (Opcode.moveImm .MOVEIL .SI).layout = moveLayout 0 .imm from rfl)
      (link_leal link dst symbol) (low_sixteen_lt _)) (exec_move_low _ _ dst _)⟩

theorem preload_of_aligned {inst : MCInst} {core : Core} {scratchpad : Memory 32}
    {result : Core × Memory 32 × Transfer}
    (executed : execAligned link inst core scratchpad = some result) :
    execPreload link inst core scratchpad = some result := by
  rw [execAligned] at executed
  split at executed
  · exact executed
  · cases executed

theorem confined_cmplti {dst : Fin 64} (low : dst.val ≤ 4) (src : Fin 64) {value : Int}
    (fits : SignedFits 9 value) : Confined link (cmplti dst src value) := by
  refine ⟨rfl, fun core scratchpad => ?_⟩
  have compared := preload_of_aligned (@aligned_cmplti link core scratchpad dst src value fits)
  exact ⟨_, _, _, compared, keeps_set core low _, Or.inl rfl⟩

theorem confined_bnez (cond : Fin 64) {label : Symbol} (inside : 2 ≤ label.number) :
    Confined link (bnez cond label) := by
  refine ⟨rfl, fun core scratchpad => ?_⟩
  refine ⟨_, _, _, preload_of_core (exec_bnez link core cond label), Keeps.refl core, ?_⟩
  split
  · exact Or.inr ⟨label.number, inside, rfl⟩
  · exact Or.inl rfl

theorem confined_jmp {label : Symbol} (inside : 2 ≤ label.number) : Confined link (jmp label) :=
  ⟨rfl, fun core _ => ⟨_, _, _, preload_of_core (exec_jmp link core label),
    Keeps.refl core, Or.inr ⟨label.number, inside, rfl⟩⟩⟩

theorem confined_load_word (base : Fin 64) : Confined link (load .L32W 4 base) :=
  confined_of_set rfl (by decide) fun core => ⟨_, exec_load32 link core 4 base⟩

theorem confined_load_byte (base : Fin 64) : Confined link (load .L32BU 4 base) := by
  refine ⟨rfl, fun core scratchpad => ?_⟩
  refine ⟨_, _, _, rfl, ?_, Or.inl rfl⟩
  rw [field_reg_eq .dstsrc (sReg 4) rfl]
  exact keeps_set core (by decide) _

theorem confined_load_vector : Confined link ⟨.loadVector .LV32W .Mainmem_U, [v 0, s 0, .imm 0]⟩ :=
  ⟨rfl, fun core _ => ⟨_, _, _, preload_of_core (exec_machine link core rfl
    (exec_load_vector core.registers core.memory 0 0 (show SignedFits 9 0 by decide))),
    ⟨rfl, fun _ _ => rfl⟩, Or.inl rfl⟩⟩

theorem confined_store {inst : MCInst} (quiet : isQuiet inst = true)
    (stores : ∀ core scratchpad, ∃ stored,
      execPreload link inst core scratchpad = some (core, stored, .next)) : Confined link inst := by
  refine ⟨quiet, fun core scratchpad => ?_⟩
  obtain ⟨stored, executed⟩ := stores core scratchpad
  exact ⟨_, _, _, executed, Keeps.refl core, Or.inl rfl⟩

/-- A loop of the preload, whatever it copies with. -/
theorem confined_loop {size : Int} (fits : SignedFits 9 size) {loop next : Symbol}
    (loopInside : 2 ≤ loop.number) (nextInside : 2 ≤ next.number) {load store : MCInst}
    (loads : Confined link load) (stores : Confined link store) :
    ∀ inst ∈ preloadLoop size loop next [load, store], Confined link inst := by
  simp only [preloadLoop, List.cons_append, List.nil_append, List.forall_mem_cons]
  exact ⟨confined_cmplti (by decide) 3 fits, confined_bnez 4 nextInside, loads, stores,
    confined_arithi rfl (by decide) 0 fits, confined_arithi rfl (by decide) 2 fits,
    confined_arithi rfl (by decide) 3 fits, confined_jmp loopInside, List.forall_mem_nil _⟩

theorem confined_preload_scratchpad : ∀ inst ∈ preload_scratchpad, Confined link inst := by
  simp only [preload_scratchpad, List.forall_mem_cons]
  exact ⟨confined_arith rfl (by decide) 0 0, confined_arith rfl (by decide) 1 1,
    confined_leah (by decide) _, confined_leal (by decide) _, confined_leah (by decide) _,
    confined_leal (by decide) _, confined_moveih (by decide) 0, confined_moveil (by decide) 0,
    confined_arith rfl (by decide) 1 0, List.forall_mem_nil _⟩

theorem preload_confined {block : Nat} (inside : 2 ≤ block) {code : List MCInst}
    (laidOut : preloadProgram[block]? = some code) : ∀ inst ∈ code, Confined link inst := by
  have upper : block < 6 := (List.getElem?_eq_some_iff.mp laidOut).1
  have blocks : block = 2 ∨ block = 3 ∨ block = 4 ∨ block = 5 := by omega
  rcases blocks with rfl | rfl | rfl | rfl
  · cases laidOut
    exact confined_preload_scratchpad
  · cases laidOut
    exact confined_loop (by decide) (by decide) (by decide) confined_load_vector
      (confined_store rfl fun core scratchpad => ⟨_, rfl⟩)
  · cases laidOut
    exact confined_loop (by decide) (by decide) (by decide) (confined_load_word 0)
      (confined_store rfl fun core scratchpad => ⟨_, rfl⟩)
  · cases laidOut
    exact confined_loop (by decide) (by decide) (by decide) (confined_load_byte 0)
      (confined_store rfl fun core scratchpad => ⟨_, rfl⟩)

/-- A thread of the preload in the whole of the code. -/
def threadOf (loader : Loader) (events : List Event) : Thread :=
  ⟨loader.block, loader.index, loader.core, loader.scratchpad, events⟩

variable {textStart : Word} {returns : Returns}

theorem preload_laid_out {block : Nat} {code : List MCInst}
    (laidOut : preloadProgram[block]? = some code) : crt0[block]? = some code := by
  have inside : block < Symbol.do_main.number := by
    have upper := (List.getElem?_eq_some_iff.mp laidOut).1
    exact lt_of_lt_of_le upper (List.length_take_le _ _)
  rw [← laidOut, preloadProgram, List.getElem?_take_of_lt inside]

/-- A step of the preload is one of the thread, of which nothing is seen. -/
theorem step_of_preload {loader next : Loader} (inside : 2 ≤ loader.block)
    (stepped : Preload.step link loader = some next) (events : List Event) :
    step link textStart returns (threadOf loader events) = some (threadOf next events) ∧
      Keeps loader.core next.core ∧ 2 ≤ next.block := by
  rw [Preload.step, stepWith, Option.bind_eq_some_iff] at stepped
  obtain ⟨code, laidOut, stepped⟩ := stepped
  rw [Option.bind_eq_some_iff] at stepped
  obtain ⟨inst, here, stepped⟩ := stepped
  have confined : Confined link inst :=
    preload_confined inside laidOut inst (List.mem_of_getElem? here)
  obtain ⟨quiet, executes⟩ := confined
  obtain ⟨core, scratchpad, transfer, executed, keeps, stays⟩ :=
    executes loader.core loader.scratchpad
  rw [executed, Option.bind_some] at stepped
  have advanced := @step_at link textStart returns loader.block loader.index code inst loader.core
    core loader.scratchpad scratchpad events (preload_laid_out laidOut) here transfer
    (thread_of_preload executed)
  rcases stays with rfl | ⟨label, labelInside, rfl⟩
  · rw [observed_quiet quiet (fun _ => Transfer.noConfusion), Thread.advance, List.append_nil]
      at advanced
    rw [Loader.advance, Option.some.injEq] at stepped
    subst stepped
    rw [threadOf, advanced, arrive]
    split
    · exact ⟨rfl, keeps, inside⟩
    · exact ⟨rfl, keeps, Nat.le_succ_of_le inside⟩
  · rw [observed_quiet quiet (fun _ => Transfer.noConfusion), Thread.advance, List.append_nil]
      at advanced
    rw [Loader.advance, Option.some.injEq] at stepped
    subst stepped
    exact ⟨advanced, keeps, labelInside⟩

theorem leads_of_preload {count : Nat} {loader final : Loader} (inside : 2 ≤ loader.block)
    (run : iterate (Preload.step link) count loader = some final) (events : List Event) :
    Leads link textStart returns (threadOf loader events) (threadOf final events) ∧
      Keeps loader.core final.core := by
  induction count generalizing loader with
  | zero =>
      rw [iterate, Option.some.injEq] at run
      subst run
      exact ⟨⟨0, rfl⟩, Keeps.refl _⟩
  | succ count induction =>
      rw [iterate, Option.bind_eq_some_iff] at run
      obtain ⟨next, stepped, rest⟩ := run
      obtain ⟨first, keeps, nextInside⟩ :=
        @step_of_preload link textStart returns loader next inside stepped events
      obtain ⟨further, keepsRest⟩ := induction nextInside rest
      exact ⟨reaches_trans (reaches_step first) further, keeps.trans keepsRest⟩

/-- The scratchpad that `main` finds in the first thread of a tile. -/
structure Loaded (link : Nat → RelocAddresses) (memory old scratchpad : Memory 32) : Prop where
  data : ∀ k < dataSize link, scratchpad (BitVec.ofNat 32 k) =
    memory (Preload.dataStart link + BitVec.ofNat 32 k)
  others : ∀ cell : Word, dataSize link ≤ cell.toNat → scratchpad cell = old cell

theorem leads_preload (data : DataLaidOut link) (core : Core) (scratchpad : Memory 32)
    (events : List Event) :
    ∃ next loaded, Leads link textStart returns
        ⟨Symbol.preload_scratchpad.number, 0, core, scratchpad, events⟩
        ⟨Symbol.do_main.number, 0, next, loaded, events⟩ ∧
      Keeps core next ∧ next.memory = core.memory ∧ Loaded link core.memory scratchpad loaded := by
  obtain ⟨final, ⟨count, run⟩, reached⟩ := preload_runs data core scratchpad
  obtain ⟨whole, -⟩ := iterate_restricted (fun _ _ => aligned_step) run
  have lifted := @leads_of_preload link textStart returns count _ final
    (show 2 ≤ Symbol.preload_scratchpad.number by decide) whole events
  have loaded := preloaded_of_at reached
  obtain ⟨next, nextScratchpad, rfl, -, -⟩ := reached
  exact ⟨next, nextScratchpad, lifted.1, lifted.2, loaded.mainMemory, loaded.data, loaded.others⟩

end Loading

section Start

variable {link : Nat → RelocAddresses} {textStart : Word} {returns : Returns}

/-- What every thread has when it comes to `do_main`: its stack, and all lanes enabled. -/
structure Ready (link : Nat → RelocAddresses) (original core : Core) : Prop where
  memory : core.memory = original.memory
  control : core.control = Function.update original.control 11 5
  lanes : core.gpr rm = 0xFFFF
  stack : core.gpr sp = addressOf link .stacks_base
  frame : core.gpr fp = addressOf link .stacks_base

theorem ready_of_keeps {original core next : Core} (ready : Ready link original core)
    (keeps : Keeps core next) (memory : next.memory = core.memory) : Ready link original next where
  memory := memory.trans ready.memory
  control := keeps.control.trans ready.control
  lanes := (keeps.gpr rm (by decide)).trans ready.lanes
  stack := (keeps.gpr sp (by decide)).trans ready.stack
  frame := (keeps.gpr fp (by decide)).trans ready.frame

theorem ready_set {original core : Core} (ready : Ready link original core) {index : Fin 64}
    (other : rm ≠ index ∧ sp ≠ index ∧ fp ≠ index) (value : Word) :
    Ready link original (core.setGpr index value) where
  memory := ready.memory
  control := ready.control
  lanes := (Function.update_of_ne other.1 _ _).trans ready.lanes
  stack := (Function.update_of_ne other.2.1 _ _).trans ready.stack
  frame := (Function.update_of_ne other.2.2 _ _).trans ready.frame

def afterMode : List MCInst :=
  [ moveih rm 0, moveil rm 0xFFFF,
    movei 1 0, movei 2 2, read_cr 1 1, read_cr 2 2,
    leah 4 .stacks_dim, leal 4 .stacks_dim,
    leah 5 .threads_per_core, leal 5 .threads_per_core,
    leah 0 .stacks_base, leal 0 .stacks_base,
    arith_i32 .MULL 3 1 5, arith_i32 .ADD 3 3 2, arithi .ADD 3 3 1,
    arith_i32 .MULL 3 3 4, arith_i32 .ADD 0 0 3,
    leah sp .stacks_base, leal sp .stacks_base,
    leah fp .stacks_base, leal fp .stacks_base ]

theorem prologue_split : prologue = setMode 5 ++ afterMode := rfl

theorem exec_after_mode (core : Core) :
    ∃ final, execSequence link afterMode core = some final ∧ final.memory = core.memory ∧
      final.control = core.control ∧ final.gpr 1 = core.control 0 ∧ final.gpr 2 = core.control 2 ∧
      final.gpr rm = 0xFFFF ∧ final.gpr sp = addressOf link .stacks_base ∧
      final.gpr fp = addressOf link .stacks_base := by
  unfold afterMode
  rw [exec_sequence_cons link (exec_moveih link _ rm 0),
    exec_sequence_cons link (exec_moveil link _ rm 0xFFFF),
    exec_sequence_cons link (exec_movei link _ 1 (by decide)),
    exec_sequence_cons link (exec_movei link _ 2 (by decide)),
    exec_sequence_cons link (exec_read_cr link _ 1 1),
    exec_sequence_cons link (exec_read_cr link _ 2 2),
    exec_address, exec_address, exec_address,
    exec_sequence_cons link (exec_mull link _ 3 1 5),
    exec_sequence_cons link (exec_arith_i32 link _ rfl 3 3 2),
    exec_sequence_cons link (exec_arithi link _ rfl 3 3 (by decide)),
    exec_sequence_cons link (exec_mull link _ 3 3 4),
    exec_sequence_cons link (exec_arith_i32 link _ rfl 0 0 3),
    exec_address, exec_address, execSequence]
  refine ⟨_, rfl, rfl, rfl, ?_, ?_, ?_, ?_, ?_⟩
  all_goals simp [rm, fp, sp, MR_REG, FP_REG, SP_REG, sReg, Core.gpr, Core.setGpr]

/-- A thread behind the prologue has told that it boots. -/
theorem leads_prologue (core : Core) (scratchpad : Memory 32) :
    ∃ next, Leads link textStart returns (reset core scratchpad)
        ⟨0, prologue.length, next, scratchpad, [.control 11 5]⟩ ∧
      Ready link core next ∧ next.gpr 1 = core.control 0 ∧ next.gpr 2 = core.control 2 := by
  have laidOut : crt0[0]? = some start := rfl
  have split : start = [] ++ setMode 5 ++ (afterMode ++
      ([bnez 2 .do_main, bnez 1 .preload_scratchpad] ++ loadArrayBounds)) := rfl
  have told := @leads_set_mode link textStart returns 0 start core scratchpad [] laidOut [] _ 5
    split (by decide)
  obtain ⟨next, executed, memory, control, tile, thread, lanes, stack, frame⟩ :=
    @exec_after_mode link (modeSet core (BitVec.ofInt 32 5))
  have rest : start = setMode 5 ++ afterMode ++
      ([bnez 2 .do_main, bnez 1 .preload_scratchpad] ++ loadArrayBounds) := rfl
  have ran := @leads_sequence link textStart returns 0 start (modeSet core (BitVec.ofInt 32 5))
    scratchpad [.control 11 5] laidOut (setMode 5) afterMode _ rest (by decide) next executed
  refine ⟨next, reaches_trans told ran, ⟨memory, control, lanes, stack, frame⟩, ?_, ?_⟩
  · rw [tile]
    rfl
  · rw [thread]
    rfl

theorem leads_branch {block index : Nat} {code : List MCInst} {cond : Fin 64} {label : Symbol}
    (laidOut : crt0[block]? = some code) (here : code[index]? = some (bnez cond label))
    (core : Core) (scratchpad : Memory 32) (events : List Event) :
    Leads link textStart returns ⟨block, index, core, scratchpad, events⟩
      (if core.gpr cond ≠ 0 then ⟨label.number, 0, core, scratchpad, events⟩
        else arrive code block (index + 1) core scratchpad events) := by
  have branched := exec_bnez link core cond label
  split
  case isTrue taken =>
      rw [if_pos taken] at branched
      exact leads_jump laidOut here (observed_quiet rfl fun _ => Transfer.noConfusion)
        (thread_of_core branched)
  case isFalse missed =>
      rw [if_neg missed] at branched
      have stepped := @leads_next link textStart returns block index code _ core core scratchpad
        scratchpad events laidOut here (thread_of_core branched)
      rw [observed_quiet rfl (fun _ => Transfer.noConfusion), List.append_nil] at stepped
      exact stepped

/-- The first thread of all finds the bounds of its loop in the wrong order. -/
theorem leads_past_constructors
    (behind : (addressOf link .init_array_end).sle (addressOf link .init_array_start) = true)
    {original core : Core} (ready : Ready link original core) (scratchpad : Memory 32)
    (events : List Event) :
    ∃ next, Leads link textStart returns ⟨0, prologue.length + 2, core, scratchpad, events⟩
        ⟨Symbol.preload_scratchpad.number, 0, next, scratchpad, events⟩ ∧
      Ready link original next := by
  let bounded := (core.setGpr 24 (addressOf link .init_array_start)).setGpr 25
    (addressOf link .init_array_end)
  have split : start = (prologue ++ [bnez 2 .do_main, bnez 1 .preload_scratchpad]) ++
      loadArrayBounds ++ [] := rfl
  have bounds := @leads_sequence link textStart returns 0 start core scratchpad events rfl _ _ _
    split (by decide) bounded (exec_array_bounds link core)
  have compared := exec_cmpge link bounded 0 24 25
  have first : bounded.gpr 25 = addressOf link .init_array_end := by simp [bounded]
  have second : bounded.gpr 24 = addressOf link .init_array_start := by simp [bounded]
  rw [first, second, behind] at compared
  have loop : crt0[1]? = some initLoop := rfl
  have tested := @leads_next link textStart returns 1 0 initLoop _ bounded _ scratchpad _ events
    loop rfl (thread_of_core compared)
  rw [observed_quiet rfl (fun _ => Transfer.noConfusion), List.append_nil] at tested
  have left := @leads_branch link textStart returns 1 1 initLoop 0 .preload_scratchpad loop rfl
    (bounded.setGpr 0 0xffff) scratchpad events
  rw [if_pos (by simp)] at left
  refine ⟨_, reaches_trans bounds (reaches_trans tested left), ?_⟩
  exact ready_set (ready_set (ready_set ready (by decide) _) (by decide) _) (by decide) _

/-- Every thread comes to `do_main`, the first of a tile with its scratchpad loaded. -/
theorem leads_do_main
    (behind : (addressOf link .init_array_end).sle (addressOf link .init_array_start) = true)
    (core : Core) (scratchpad : Memory 32) (data : core.control 2 = 0 → DataLaidOut link) :
    ∃ next loaded, Leads link textStart returns (reset core scratchpad)
        ⟨Symbol.do_main.number, 0, next, loaded, [.control 11 5]⟩ ∧
      Ready link core next ∧ (core.control 2 ≠ 0 → loaded = scratchpad) ∧
      (core.control 2 = 0 → Loaded link core.memory scratchpad loaded) := by
  obtain ⟨begun, toBranch, ready, tile, thread⟩ :=
    @leads_prologue link textStart returns core scratchpad
  have laidOut : crt0[0]? = some start := rfl
  have threadBranch := @leads_branch link textStart returns 0 prologue.length start 2 .do_main
    laidOut rfl begun scratchpad [.control 11 5]
  rw [thread] at threadBranch
  by_cases first : core.control 2 = 0
  · rw [if_neg (not_not.mpr first)] at threadBranch
    have tileBranch := @leads_branch link textStart returns 0 (prologue.length + 1) start 1
      .preload_scratchpad laidOut rfl begun scratchpad [.control 11 5]
    rw [tile] at tileBranch
    have toPreload : ∃ next, Leads link textStart returns
        ⟨0, prologue.length + 1, begun, scratchpad, [.control 11 5]⟩
        ⟨Symbol.preload_scratchpad.number, 0, next, scratchpad, [.control 11 5]⟩ ∧
        Ready link core next := by
      by_cases firstTile : core.control 0 = 0
      · rw [if_neg (not_not.mpr firstTile)] at tileBranch
        obtain ⟨next, leads, readyNext⟩ := @leads_past_constructors link textStart returns behind
          core begun ready scratchpad [.control 11 5]
        exact ⟨next, reaches_trans tileBranch leads, readyNext⟩
      · rw [if_pos firstTile] at tileBranch
        exact ⟨begun, tileBranch, ready⟩
    obtain ⟨next, leads, readyNext⟩ := toPreload
    obtain ⟨final, loaded, preloads, keeps, memory, isLoaded⟩ := @leads_preload link textStart
      returns (data first) next scratchpad [.control 11 5]
    refine ⟨final, loaded, reaches_trans toBranch (reaches_trans threadBranch
      (reaches_trans leads preloads)), ready_of_keeps readyNext keeps memory,
      fun other => absurd first other, fun _ => ?_⟩
    rw [← readyNext.memory]
    exact isLoaded
  · rw [if_pos first] at threadBranch
    exact ⟨begun, scratchpad, reaches_trans toBranch threadBranch, ready, fun _ => rfl,
      fun isFirst => absurd isFirst first⟩

end Start

section Main

variable {link : Nat → RelocAddresses} {textStart : Word} {returns : Returns}

structure Entry (link : Nat → RelocAddresses) (textStart : Word) (original core : Core) : Prop where
  memory : core.memory = original.memory
  control : core.control = Function.update original.control 11 1
  argc : core.gpr 0 = original.control 12
  argv : core.gpr 1 = original.control 13
  lanes : core.gpr rm = 0xFFFF
  stack : core.gpr sp = addressOf link .stacks_base
  frame : core.gpr fp = addressOf link .stacks_base
  returnAddress : core.gpr RA_REG.encoding =
    textStart + BitVec.ofNat 32 (4 * (wordsBefore Symbol.do_main.number 7 + 1))

def passArguments : List MCInst := [movei 0 12, movei 1 13, read_cr 0 0, read_cr 1 1]

def callMain : MCInst := ⟨.JMPSR_OFF, [Symbol.main.label]⟩

def haltAddress : List MCInst := [movei 1 0, moveih 2 0xFFFF, moveil 2 0xFFC0]

def doMain : List MCInst :=
  passArguments ++ setMode 1 ++ [callMain, movei 1 13, write_cr 0 1] ++ haltAddress ++
    [store .S32W .Mainmem 1 2, ⟨.FLUSH, [s 2]⟩] ++ setMode 2

theorem main_laid_out : crt0[Symbol.do_main.number]? = some doMain := rfl

theorem leads_call (core : Core) (scratchpad : Memory 32) (events : List Event) :
    ∃ entered, entered = core.setGpr RA_REG.encoding
        (textStart + BitVec.ofNat 32 (4 * (wordsBefore Symbol.do_main.number 7 + 1))) ∧
      Leads link textStart returns ⟨Symbol.do_main.number, 7, core, scratchpad, events⟩
        ⟨Symbol.do_main.number, 8, (returns (addressOf link .main) (entered, scratchpad)).1,
          (returns (addressOf link .main) (entered, scratchpad)).2,
          events ++ [.called (addressOf link .main) (core.gpr 0) (core.gpr 1)]⟩ := by
  have calls : execThread link callMain core scratchpad =
      some (core, scratchpad, .call (addressOf link .main)) := rfl
  refine ⟨_, rfl, reaches_step ?_⟩
  rw [step_at main_laid_out (show doMain[7]? = some callMain from rfl) calls]
  rfl

/-- What a thread has when it stands at its call of `main`, after it has told that it runs. -/
structure CallReady (link : Nat → RelocAddresses) (original core : Core) : Prop where
  memory : core.memory = original.memory
  control : core.control = Function.update original.control 11 1
  argc : core.gpr 0 = original.control 12
  argv : core.gpr 1 = original.control 13
  lanes : core.gpr rm = 0xFFFF
  stack : core.gpr sp = addressOf link .stacks_base
  frame : core.gpr fp = addressOf link .stacks_base

theorem leads_at_call {original core : Core} (ready : Ready link original core)
    (scratchpad : Memory 32) (events : List Event) :
    ∃ atCall, Leads link textStart returns
        ⟨Symbol.do_main.number, 0, core, scratchpad, events⟩
        ⟨Symbol.do_main.number, 7, atCall, scratchpad, events ++ [.control 11 1]⟩ ∧
      CallReady link original atCall := by
  let passed := (((core.setGpr 0 12).setGpr 1 13).setGpr 0 (core.control 12)).setGpr 1
    (core.control 13)
  have executed : execSequence link passArguments core = some passed := by
    unfold passArguments
    rw [exec_sequence_cons link (exec_movei link _ 0 (by decide)),
      exec_sequence_cons link (exec_movei link _ 1 (by decide)),
      exec_sequence_cons link (exec_read_cr link _ 0 0),
      exec_sequence_cons link (exec_read_cr link _ 1 1), execSequence]
    rfl
  have arguments := @leads_sequence link textStart returns Symbol.do_main.number doMain core
    scratchpad events main_laid_out [] passArguments _ rfl (by decide) passed executed
  have told := @leads_set_mode link textStart returns Symbol.do_main.number doMain passed scratchpad
    events main_laid_out passArguments _ 1 rfl (by decide)
  refine ⟨modeSet passed 1, reaches_trans arguments told, ?_⟩
  have kept (index : Fin 64) (other : index ≠ 0 ∧ index ≠ 1 ∧ index ≠ 2 ∧ index ≠ 3) :
      (modeSet passed 1).gpr index = core.gpr index := by
    simp [modeSet, passed, Core.gpr, Core.setGpr, other]
  constructor
  · exact ready.memory
  · have control : (modeSet passed 1).control = Function.update core.control 11 1 := rfl
    rw [control, ready.control, Function.update_idem]
  · have argc : (modeSet passed 1).gpr 0 = core.control 12 := by
      simp [modeSet, passed, Core.gpr, Core.setGpr]
    rw [argc, ready.control]
    rfl
  · have argv : (modeSet passed 1).gpr 1 = core.control 13 := by
      simp [modeSet, passed, Core.gpr, Core.setGpr]
    rw [argv, ready.control]
    rfl
  · rw [kept rm (by decide), ready.lanes]
  · rw [kept sp (by decide), ready.stack]
  · rw [kept fp (by decide), ready.frame]

/-- `main` is entered with its arguments, in a thread that has told that it runs. -/
theorem leads_entry {original core : Core} (ready : Ready link original core)
    (scratchpad : Memory 32) (events : List Event) :
    ∃ entered, Leads link textStart returns
        ⟨Symbol.do_main.number, 0, core, scratchpad, events⟩
        ⟨Symbol.do_main.number, 8, (returns (addressOf link .main) (entered, scratchpad)).1,
          (returns (addressOf link .main) (entered, scratchpad)).2,
          events ++ [.control 11 1] ++
            [.called (addressOf link .main) (original.control 12) (original.control 13)]⟩ ∧
      Entry link textStart original entered := by
  obtain ⟨atCall, toCall, callReady⟩ :=
    @leads_at_call link textStart returns original core ready scratchpad events
  obtain ⟨entered, same, called⟩ := @leads_call link textStart returns atCall scratchpad
    (events ++ [.control 11 1])
  rw [callReady.argc, callReady.argv] at called
  refine ⟨entered, reaches_trans toCall called, ?_⟩
  have kept (index : Fin 64) (other : index ≠ RA_REG.encoding) :
      entered.gpr index = atCall.gpr index := by
    rw [same, set_gpr_core, Function.update_of_ne other]
  constructor
  · rw [same]
    exact callReady.memory
  · rw [same]
    exact callReady.control
  · rw [kept 0 (by decide), callReady.argc]
  · rw [kept 1 (by decide), callReady.argv]
  · rw [kept rm (by decide), callReady.lanes]
  · rw [kept sp (by decide), callReady.stack]
  · rw [kept fp (by decide), callReady.frame]
  · rw [same, set_gpr_core, Function.update_self]

/-- The result of `main` goes to its control register, zero to a word of the top of memory, and
the thread tells that it ended. -/
theorem leads_end (core : Core) (scratchpad : Memory 32) (events : List Event) :
    ∃ next, Leads link textStart returns ⟨Symbol.do_main.number, 8, core, scratchpad, events⟩
        ⟨Symbol.halt.number, 0, next, scratchpad,
          events ++ [.control 13 (core.gpr 0)] ++ [.flushed 0xFFFFFFC0] ++ [.control 11 2]⟩ ∧
      next.memory = storeWord32 core.memory 0xFFFFFFC0 0 ∧
      next.control = Function.update (Function.update core.control 13 (core.gpr 0)) 11 2 := by
  let resultSet : Core :=
    { core.setGpr 1 13 with control := Function.update core.control 13 (core.gpr 0) }
  let addressed := ((resultSet.setGpr 1 0).setGpr 2 0xFFFF0000).setGpr 2 0xFFFFFFC0
  let stored : Core :=
    { addressed with memory := storeWord32 core.memory 0xFFFFFFC0 0 }
  have selects := @leads_next link textStart returns Symbol.do_main.number 8 doMain _ core _
    scratchpad _ events main_laid_out rfl (thread_of_core (exec_movei link core 1
      (show BitVec.ofInt 32 13 &&& (0xffff : Word) = BitVec.ofInt 32 13 by decide)))
  rw [observed_quiet rfl (fun _ => Transfer.noConfusion), List.append_nil] at selects
  have writes := @leads_write link textStart returns Symbol.do_main.number 9 doMain 0 1
    main_laid_out rfl (core.setGpr 1 13) scratchpad events
  have executed : execSequence link haltAddress resultSet = some addressed := by
    unfold haltAddress
    rw [exec_sequence_cons link (exec_movei link _ 1 (by decide)),
      exec_sequence_cons link (exec_moveih link _ 2 0xFFFF),
      exec_sequence_cons link (exec_moveil link _ 2 0xFFC0), execSequence]
    simp only [set_gpr_core, Function.update_self]
    rfl
  have addresses := @leads_sequence link textStart returns Symbol.do_main.number doMain resultSet
    scratchpad (events ++ [.control 13 (core.gpr 0)]) main_laid_out
    (passArguments ++ setMode 1 ++ [callMain, movei 1 13, write_cr 0 1]) haltAddress _ rfl
    (by decide) addressed executed
  have stores : execCore link (store .S32W .Mainmem 1 2) addressed = some (stored, .next) := by
    have word := exec_machine link addressed rfl (exec_store addressed.registers addressed.memory 1
      2 (show SignedFits 9 0 by decide))
    rw [add_no_offset] at word
    exact word
  have zeroed := @leads_next link textStart returns Symbol.do_main.number 13 doMain _ addressed _
    scratchpad _ (events ++ [.control 13 (core.gpr 0)]) main_laid_out rfl (thread_of_core stores)
  rw [observed_quiet rfl (fun _ => Transfer.noConfusion), List.append_nil] at zeroed
  have flushes : execThread link ⟨.FLUSH, [s 2]⟩ stored scratchpad =
      some (stored, scratchpad, .next) := rfl
  have flush := @leads_next link textStart returns Symbol.do_main.number 14 doMain _ stored _
    scratchpad _ (events ++ [.control 13 (core.gpr 0)]) main_laid_out rfl flushes
  have told := @leads_set_mode link textStart returns Symbol.do_main.number doMain stored scratchpad
    (events ++ [.control 13 (core.gpr 0)] ++ [.flushed 0xFFFFFFC0]) main_laid_out
    (passArguments ++ setMode 1 ++ [callMain, movei 1 13, write_cr 0 1] ++ haltAddress ++
      [store .S32W .Mainmem 1 2, ⟨.FLUSH, [s 2]⟩]) [] 2 rfl (by decide)
  refine ⟨modeSet stored 2, ?_, rfl, rfl⟩
  exact reaches_trans selects (reaches_trans writes (reaches_trans addresses (reaches_trans zeroed
    (reaches_trans flush told))))

theorem step_halt (core : Core) (scratchpad : Memory 32) (events : List Event) :
    step link textStart returns ⟨Symbol.halt.number, 0, core, scratchpad, events⟩ =
      some ⟨Symbol.halt.number, 0, core, scratchpad, events⟩ := by
  have laidOut : crt0[Symbol.halt.number]? = some [jmp .halt] := rfl
  rw [step_at laidOut rfl (thread_of_core (exec_jmp link core .halt)), Thread.advance,
    observed_quiet rfl fun _ => Transfer.noConfusion, List.append_nil]

end Main

section Boot

variable {link : Nat → RelocAddresses} {textStart : Word} {returns : Returns}

/-- What a thread shows of itself if `main` is called and returns. -/
def protocol (link : Nat → RelocAddresses) (argc argv result : Word) : List Event :=
  [.control 11 5, .control 11 1, .called (addressOf link .main) argc argv, .control 13 result,
    .flushed 0xFFFFFFC0, .control 11 2]

/-- A thread that is done, from where `main` was entered. -/
structure Ended (link : Nat → RelocAddresses) (original : Core) (returned : Core × Memory 32)
    (final : Thread) : Prop where
  block : final.block = Symbol.halt.number
  index : final.index = 0
  events : final.events =
    protocol link (original.control 12) (original.control 13) (returned.1.gpr 0)
  memory : final.core.memory = storeWord32 returned.1.memory 0xFFFFFFC0 0
  control : final.core.control =
    Function.update (Function.update returned.1.control 13 (returned.1.gpr 0)) 11 2
  scratchpad : final.scratchpad = returned.2

/-- The scratchpad in which `main` is entered: the data, for the first thread of its tile. -/
def Prepared (link : Nat → RelocAddresses) (core : Core) (scratchpad loaded : Memory 32) : Prop :=
  if core.control 2 = 0 then Loaded link core.memory scratchpad loaded else loaded = scratchpad

theorem leads_ended
    (behind : (addressOf link .init_array_end).sle (addressOf link .init_array_start) = true)
    (core : Core) (scratchpad : Memory 32) (data : core.control 2 = 0 → DataLaidOut link) :
    ∃ entered loaded final, Entry link textStart core entered ∧
      Prepared link core scratchpad loaded ∧
      Ended link core (returns (addressOf link .main) (entered, loaded)) final ∧
      Leads link textStart returns (reset core scratchpad) final := by
  obtain ⟨ready, loaded, toMain, isReady, others, first⟩ :=
    @leads_do_main link textStart returns behind core scratchpad data
  obtain ⟨entered, throughMain, entry⟩ :=
    @leads_entry link textStart returns core ready isReady loaded [.control 11 5]
  obtain ⟨next, toEnd, memory, control⟩ := @leads_end link textStart returns
    (returns (addressOf link .main) (entered, loaded)).1
    (returns (addressOf link .main) (entered, loaded)).2 _
  refine ⟨entered, loaded, _, entry, ?_, ⟨rfl, rfl, rfl, memory, control, rfl⟩,
    reaches_trans toMain (reaches_trans throughMain toEnd)⟩
  rw [Prepared]
  split
  case isTrue isFirst => exact first isFirst
  case isFalse other => exact others other

/-- A thread shows the protocol step by step, whatever `main` does, and stays where it ends. -/
theorem boot_protocol (placed : Placed link textStart) (apart : ¬ Straddles textStart)
    (core : Core) (scratchpad : Memory 32) (data : core.control 2 = 0 → DataLaidOut link) :
    ∃ entered loaded final, Entry link textStart core entered ∧
      Prepared link core scratchpad loaded ∧
      Ended link core (returns (addressOf link .main) (entered, loaded)) final ∧
      ∃ count, (∀ more, iterate (step link textStart returns) (count + more)
          (reset core scratchpad) = some final) ∧
        ∀ fewer ≤ count, ∃ state, iterate (step link textStart returns) fewer
          (reset core scratchpad) = some state ∧ state.events <+: final.events := by
  have behind := (label_order link textStart placed).mpr apart
  obtain ⟨entered, loaded, final, entry, prepared, ended, count, run⟩ :=
    @leads_ended link textStart returns behind core scratchpad data
  refine ⟨entered, loaded, final, entry, prepared, ended, count, fun more => ?_, ?_⟩
  · rw [iterate_add, run, Option.bind_some]
    apply iterate_fixed
    obtain ⟨block, index, final, finalScratchpad, events⟩ := final
    obtain ⟨rfl, rfl, -⟩ := ended
    exact step_halt final finalScratchpad events
  · intro fewer below
    obtain ⟨rest, rfl⟩ := Nat.exists_eq_add_of_le below
    rw [iterate_add, Option.bind_eq_some_iff] at run
    obtain ⟨state, part, remaining⟩ := run
    exact ⟨state, part, iterate_events remaining⟩

/-- A file at `0x400` whose tile has seventy-one bytes of data. -/
def dataLink (number : Nat) : RelocAddresses :=
  if number = Symbol.__scratchpad_data_end.number then ⟨0x800047, 0, 0⟩ else tableLink 0 number

theorem data_placed : Placed dataLink 0x400 := by
  intro symbol words known
  cases symbol <;> cases known <;> rfl

theorem first_thread_boots :
    ∃ entered loaded final, Entry dataLink 0x400 (hardwareThread 0 0) entered ∧
      Prepared dataLink (hardwareThread 0 0) (fun _ => 0) loaded ∧
      Ended dataLink (hardwareThread 0 0) (entered, loaded) final ∧
      ∃ count, (∀ more, iterate (step dataLink 0x400 fun _ state => state) (count + more)
          (reset (hardwareThread 0 0) fun _ => 0) = some final) ∧
        ∀ fewer ≤ count, ∃ state, iterate (step dataLink 0x400 fun _ state => state) fewer
          (reset (hardwareThread 0 0) fun _ => 0) = some state ∧
          state.events <+: final.events := by
  have apart : ¬ Straddles 0x400 := by
    unfold Straddles
    decide
  exact @boot_protocol dataLink 0x400 (fun _ state => state) data_placed apart
    (hardwareThread 0 0) (fun _ => 0) fun _ => ⟨by decide, by decide, by decide⟩

end Boot

end NaplesPU.BootProtocol
