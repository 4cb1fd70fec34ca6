import NaplesPU.BootProtocol
import NaplesPU.Lib.Assertions

/-!
Which memory the start-up code depends on. Up to its call of `main` a thread loads from the data
of its scratchpad alone and stores to its scratchpad alone, and only the first thread of a tile
does either; behind the call it stores to one word at the top of memory. Assertions in front of
each instruction carry this along.
-/

namespace NaplesPU.BootAccesses

open ByteMemory StepRuns TwosComplement Assertions
open RegisterInfo InstrFormats InstrInfo FixupKinds MCCodeEmitter
open ELFRelocations EncodeDecode Machine AddressLowering Startup Preload BootProtocol
open Memcpy (scalar_address size_to_nat)

section Assertions

abbrev Assertion := Core × Memory 32 → Prop

variable (link : Nat → RelocAddresses) (first : Prop)

def Leading (after : Core → Prop) (insts : List MCInst) : Assertion :=
  fun state => ∃ final, execSequence link insts state.1 = some final ∧ after final

def annotateSequence (after : Core → Prop) : List MCInst → List (MCInst × Assertion)
  | [] => []
  | inst :: rest => (inst, Leading link after (inst :: rest)) :: annotateSequence after rest

def annotate (assertion : Assertion) (code : List MCInst) : List (MCInst × Assertion) :=
  code.map fun inst => (inst, assertion)

/-- The source pointer is as far from the end of the data as the count says, and so many bytes are
left. -/
structure Left (need : Nat) (core : Core) : Prop where
  src : core.gpr 0 = dataEnd link - core.gpr 3
  bounded : (core.gpr 3).toNat ≤ dataSize link
  enough : need ≤ (core.gpr 3).toNat

/-- The pointer has gone past a piece which is still counted. -/
structure Moved (size : Nat) (core : Core) : Prop where
  src : core.gpr 0 = dataEnd link - (core.gpr 3 - BitVec.ofNat 32 size)
  bounded : (core.gpr 3).toNat ≤ dataSize link
  enough : size ≤ (core.gpr 3).toNat

def annotatedLoop (size : Nat) (loop next : Symbol) (load store : MCInst) :
    List (MCInst × Assertion) :=
  [ (cmplti 4 3 size, fun state => first ∧ Left link 0 state.1),
    (bnez 4 next, fun state => first ∧ Left link 0 state.1 ∧
      (state.1.gpr 4 = 0 → size ≤ (state.1.gpr 3).toNat)) ] ++
  annotate (fun state => first ∧ Left link size state.1) [load, store, arithi .ADD 0 0 size] ++
  annotate (fun state => first ∧ Moved link size state.1)
    [arithi .ADD 2 2 size, arithi .SUB 3 3 size] ++
  [(jmp loop, fun state => first ∧ Left link 0 state.1)]

/-- The start-up code with its assertions, for a thread that is the first of its tile or not. -/
def annotated : Annotated MCInst (Core × Memory 32) :=
  [ annotateSequence link (fun core => core.gpr 2 = 0 → first) prologue ++
      [ (bnez 2 .do_main, fun state => state.1.gpr 2 = 0 → first),
        (bnez 1 .preload_scratchpad, fun _ => first) ] ++
      annotateSequence link (fun core => first ∧
        core.gpr 24 = addressOf link .init_array_start ∧
        core.gpr 25 = addressOf link .init_array_end) loadArrayBounds,
    [ (cmpge_i32 0 24 25, fun state => first ∧
        state.1.gpr 24 = addressOf link .init_array_start ∧
        state.1.gpr 25 = addressOf link .init_array_end),
      (bnez 0 .preload_scratchpad, fun state => first ∧ state.1.gpr 0 = 0xffff) ] ++
      annotate (fun _ => False)
        [load .L32W 0 24, arithi .ADD 24 24 4, jmpsr 0, jmp .init_loop],
    annotateSequence link (fun core => first ∧ Left link 0 core) preload_scratchpad,
    annotatedLoop link first 64 .preload_scratchpad_vector .preload_scratchpad_words
      ⟨.loadVector .LV32W .Mainmem_U, [v 0, s 0, .imm 0]⟩
      ⟨.storeVector .SV32W .Scratchpad_U, [v 0, s 2, .imm 0]⟩,
    annotatedLoop link first 4 .preload_scratchpad_words .preload_scratchpad_remain_bytes
      (load .L32W 4 0) (store .S32W .Scratchpad 4 2),
    annotatedLoop link first 1 .preload_scratchpad_remain_bytes .do_main
      (load .L32BU 4 0) (store .S32B .Scratchpad 4 2),
    annotate (fun _ => True)
        (passArguments ++ setMode 1 ++ [callMain, movei 1 13, write_cr 0 1]) ++
      annotateSequence link (fun core => core.gpr 2 = 0xFFFFFFC0) haltAddress ++
      [(store .S32W .Mainmem 1 2, fun state => state.1.gpr 2 = 0xFFFFFFC0)] ++
      annotate (fun _ => True) (⟨.FLUSH, [s 2]⟩ :: setMode 2),
    [(jmp .halt, fun _ => True)] ]

theorem items_annotated : items (annotated link first) = crt0 := rfl

/-- Executes an instruction; a call leads nowhere here. -/
def execute (inst : MCInst) (state : Core × Memory 32) :
    Option ((Core × Memory 32) × Option Nat) :=
  (execThread link inst state.1 state.2).bind fun result =>
    match result.2.2 with
    | .next => some ((result.1, result.2.1), none)
    | .jump label => some ((result.1, result.2.1), some label)
    | .call _ => none

end Assertions

section Blocks

variable {link : Nat → RelocAddresses} {first : Prop} {blocks : Annotated MCInst (Core × Memory 32)}
  {behind before after : Assertion} {rest : List (MCInst × Assertion)} {inst : MCInst}

theorem follows_next
    (leads : ∀ core scratchpad, before (core, scratchpad) → ∃ next nextScratchpad,
      execThread link inst core scratchpad = some (next, nextScratchpad, .next) ∧
      front behind rest (next, nextScratchpad))
    (follows : Follows (execute link) blocks behind rest) :
    Follows (execute link) blocks behind ((inst, before) :: rest) := by
  refine ⟨fun state holds result executed => ?_, follows⟩
  obtain ⟨core, scratchpad⟩ := state
  obtain ⟨next, nextScratchpad, ran, asserted⟩ := leads core scratchpad holds
  rw [execute, ran, Option.bind_some, Option.some.injEq] at executed
  subst executed
  exact asserted

theorem follows_jmp {label : Symbol} (target : ∀ state, before state →
      Assertions.entry blocks label.number state)
    (follows : Follows (execute link) blocks behind rest) :
    Follows (execute link) blocks behind ((jmp label, before) :: rest) := by
  refine ⟨fun state holds result executed => ?_, follows⟩
  rw [execute, thread_of_core (exec_jmp link state.1 label), Option.bind_some, Option.some.injEq]
    at executed
  subst executed
  exact target state holds

theorem follows_bnez {cond : Fin 64} {label : Symbol}
    (taken : ∀ state, before state → state.1.gpr cond ≠ 0 →
      Assertions.entry blocks label.number state)
    (passed : ∀ state, before state → state.1.gpr cond = 0 → front behind rest state)
    (follows : Follows (execute link) blocks behind rest) :
    Follows (execute link) blocks behind ((bnez cond label, before) :: rest) := by
  refine ⟨fun state holds result executed => ?_, follows⟩
  rw [execute, thread_of_core (exec_bnez link state.1 cond label), Option.bind_some] at executed
  by_cases zero : state.1.gpr cond = 0
  · rw [if_neg (not_not.mpr zero), Option.some.injEq] at executed
    subst executed
    exact passed state holds zero
  · rw [if_pos zero, Option.some.injEq] at executed
    subst executed
    exact taken state holds zero

theorem follows_sequence {final : Core → Prop} (insts : List MCInst)
    (next : ∀ state : Core × Memory 32, final state.1 → front behind rest state)
    (follows : Follows (execute link) blocks behind rest) :
    Follows (execute link) blocks behind (annotateSequence link final insts ++ rest) := by
  induction insts with
  | nil => exact follows
  | cons inst insts induction =>
      refine ⟨fun state holds result executed => ?_, induction⟩
      obtain ⟨last, ran, reached⟩ := holds
      rw [execSequence] at ran
      split at ran
      case h_2 => cases ran
      case h_1 core stepped =>
          rw [execute, thread_of_core stepped, Option.bind_some, Option.some.injEq] at executed
          subst executed
          simp only [Option.elim_none]
          cases insts with
          | nil =>
              rw [execSequence, Option.some.injEq] at ran
              subst ran
              exact next _ reached
          | cons other others => exact ⟨last, ran, reached⟩

/-- Nothing is asserted of instructions that do not jump. -/
theorem follows_free {insts : List MCInst}
    (straight : ∀ inst ∈ insts, ∀ core scratchpad result,
      execute link inst (core, scratchpad) = some result → result.2 = none)
    (next : ∀ state, front behind rest state)
    (follows : Follows (execute link) blocks behind rest) :
    Follows (execute link) blocks behind (annotate (fun _ => True) insts ++ rest) := by
  induction insts with
  | nil => exact follows
  | cons inst insts induction =>
      rw [List.forall_mem_cons] at straight
      refine ⟨fun state _ result executed => ?_, induction straight.2⟩
      rw [straight.1 state.1 state.2 result executed, Option.elim_none]
      cases insts with
      | nil => exact next _
      | cons other others => exact trivial

end Blocks

section Loops

variable {link : Nat → RelocAddresses} {first : Prop} {blocks : Annotated MCInst (Core × Memory 32)}
  {behind : Assertion} {core next : Core} {need size : Nat}

theorem Left.of_same (left : Left link need core) (src : next.gpr 0 = core.gpr 0)
    (count : next.gpr 3 = core.gpr 3) : Left link need next := by
  obtain ⟨at_, bounded, enough⟩ := left
  rw [← count] at bounded enough
  exact ⟨by rw [src, count, at_], bounded, enough⟩

theorem Left.moved (left : Left link size core) :
    Moved link size (core.setGpr 0 (core.gpr 0 + BitVec.ofInt 32 size)) := by
  have count : (core.setGpr 0 (core.gpr 0 + BitVec.ofInt 32 size)).gpr 3 = core.gpr 3 := by
    rw [set_gpr_core, Function.update_of_ne (by decide)]
  constructor
  · rw [count, set_gpr_core, Function.update_self, left.src, BitVec.ofInt_natCast,
      sub_sub_eq_add_sub, sub_add_eq_add_sub]
  · rw [count]
    exact left.bounded
  · rw [count]
    exact left.enough

theorem Moved.of_same (moved : Moved link size core) (src : next.gpr 0 = core.gpr 0)
    (count : next.gpr 3 = core.gpr 3) : Moved link size next := by
  obtain ⟨at_, bounded, enough⟩ := moved
  rw [← count] at bounded enough
  exact ⟨by rw [src, count, at_], bounded, enough⟩

theorem Moved.counted (moved : Moved link size core) :
    Left link 0 (core.setGpr 3 (core.gpr 3 - BitVec.ofInt 32 size)) := by
  have src : (core.setGpr 3 (core.gpr 3 - BitVec.ofInt 32 size)).gpr 0 = core.gpr 0 := by
    rw [set_gpr_core, Function.update_of_ne (by decide)]
  have count : (core.setGpr 3 (core.gpr 3 - BitVec.ofInt 32 size)).gpr 3 =
      core.gpr 3 - BitVec.ofNat 32 size := by
    rw [set_gpr_core, Function.update_self, BitVec.ofInt_natCast]
  have bounded := moved.bounded
  have enough := moved.enough
  have word := (core.gpr 3).isLt
  constructor
  · rw [src, count]
    exact moved.src
  · rw [count, BitVec.toNat_sub, BitVec.toNat_ofNat]
    omega
  · exact Nat.zero_le _

/-- A load of a piece from where `s0` points; of the scalar registers it changes `s4` at most. -/
def LoadsPiece (link : Nat → RelocAddresses) (size : Nat) (inst : MCInst) : Prop :=
  ∃ set : Registers → BitVec (8 * size) → Registers,
    (∀ registers word index, index ≠ 4 → (set registers word).gpr index = registers.gpr index) ∧
    ∀ core scratchpad, execThread link inst core scratchpad =
      some (⟨set core.registers (loadWord core.memory (core.gpr 0) size), core.control,
        core.memory⟩, scratchpad, .next)

def StoresPiece (link : Nat → RelocAddresses) (inst : MCInst) : Prop :=
  ∃ stored : Registers → Memory 32 → Memory 32, ∀ core scratchpad,
    execThread link inst core scratchpad = some (core, stored core.registers scratchpad, .next)

/-- Pieces are moved while enough is left, so that they are of the data. -/
theorem follows_loop (fits : SignedFits 9 size) (small : first → dataSize link < 2 ^ 31)
    {loop next : Symbol} {load store : MCInst} (loads : LoadsPiece link size load)
    (stores : StoresPiece link store)
    (start : Assertions.entry blocks loop.number = fun state => first ∧ Left link 0 state.1)
    (short : ∀ state, first ∧ Left link 0 state.1 → Assertions.entry blocks next.number state) :
    Follows (execute link) blocks behind (annotatedLoop link first size loop next load store) := by
  refine follows_next ?_ (follows_bnez ?_ ?_ (follows_next ?_ (follows_next ?_ (follows_next ?_
    (follows_next ?_ (follows_next ?_ (follows_jmp ?_ trivial)))))))
  · rintro core scratchpad ⟨isFirst, left⟩
    refine ⟨_, _, thread_of_preload (preload_of_aligned (aligned_cmplti core scratchpad 4 3 fits)),
      isFirst, left.of_same rfl rfl, fun unset => ?_⟩
    have bounded : (core.gpr 3).toNat ≤ dataSize link := left.bounded
    have below := Nat.lt_of_le_of_lt bounded (small isFirst)
    rw [set_gpr_core, Function.update_self, slt_small below fits] at unset
    by_contra less
    rw [decide_eq_true (by simpa using less)] at unset
    cases unset
  · rintro state ⟨isFirst, left, -⟩ _
    exact short state ⟨isFirst, left⟩
  · rintro state ⟨isFirst, left, enough⟩ unset
    exact ⟨isFirst, left.src, left.bounded, enough unset⟩
  · rintro core scratchpad ⟨isFirst, left⟩
    obtain ⟨set, kept, ran⟩ := loads
    exact ⟨_, _, ran core scratchpad, isFirst,
      left.of_same (kept _ _ 0 (by decide)) (kept _ _ 3 (by decide))⟩
  · rintro core scratchpad ⟨isFirst, left⟩
    obtain ⟨stored, ran⟩ := stores
    exact ⟨_, _, ran core scratchpad, isFirst, left⟩
  · rintro core scratchpad ⟨isFirst, left⟩
    exact ⟨_, _, thread_of_core (exec_arithi link core rfl 0 0 fits), isFirst, left.moved⟩
  · rintro core scratchpad ⟨isFirst, moved⟩
    exact ⟨_, _, thread_of_core (exec_arithi link core rfl 2 2 fits), isFirst,
      moved.of_same rfl rfl⟩
  · rintro core scratchpad ⟨isFirst, moved⟩
    exact ⟨_, _, thread_of_core (exec_arithi link core rfl 3 3 fits), isFirst, moved.counted⟩
  · rintro state holds
    rw [start]
    exact holds

end Loops

section Pieces

variable {link : Nat → RelocAddresses}

theorem loads_vector : LoadsPiece link 64 ⟨.loadVector .LV32W .Mainmem_U, [v 0, s 0, .imm 0]⟩ := by
  refine ⟨fun registers word => registers.setVec 0 word, fun _ _ _ _ => rfl,
    fun core scratchpad => ?_⟩
  have loaded := exec_machine link core rfl (exec_load_vector core.registers core.memory 0 0
    (show SignedFits 9 0 by decide))
  rw [add_no_offset] at loaded
  exact thread_of_core loaded

theorem loads_word : LoadsPiece link 4 (load .L32W 4 0) :=
  ⟨fun registers word => registers.setGpr 4 word,
    fun _ _ _ other => Function.update_of_ne other _ _,
    fun core _ => thread_of_core (exec_load32 link core 4 0)⟩

theorem loads_byte : LoadsPiece link 1 (load .L32BU 4 0) := by
  refine ⟨fun registers word => registers.setGpr 4 (word.setWidth 32),
    fun _ _ _ other => Function.update_of_ne other _ _, fun core scratchpad => ?_⟩
  apply thread_of_preload
  simp only [execPreload, load, s]
  rw [scalar_address 0 rfl, field_reg_eq .dstsrc (sReg 4) rfl]
  rfl

theorem stores_vector :
    StoresPiece link ⟨.storeVector .SV32W .Scratchpad_U, [v 0, s 2, .imm 0]⟩ :=
  ⟨fun registers scratchpad => storeWord scratchpad (fieldAddress _ registers) 64
    (registers.vec (fieldReg _ .dstsrc)), fun _ _ => rfl⟩

theorem stores_word : StoresPiece link (store .S32W .Scratchpad 4 2) :=
  ⟨fun registers scratchpad => storeWord32 scratchpad (fieldAddress _ registers)
    (registers.gpr (fieldReg _ .dstsrc)), fun _ _ => rfl⟩

theorem stores_byte : StoresPiece link (store .S32B .Scratchpad 4 2) :=
  ⟨fun registers scratchpad => storeWord scratchpad (fieldAddress _ registers) 1
    ((registers.gpr (fieldReg _ .dstsrc)).setWidth 8), fun _ _ => rfl⟩

end Pieces

section Assertions

variable {link : Nat → RelocAddresses} {first : Prop}

theorem lead_prologue {core : Core} (isFirst : core.control 2 = 0 → first)
    (scratchpad : Memory 32) :
    Assertions.entry (annotated link first) 0 (core, scratchpad) := by
  obtain ⟨final, executed, -, -, -, thread, -⟩ := exec_prologue link core
  refine ⟨final, executed, fun zero => isFirst ?_⟩
  rw [← thread, zero]

theorem lead_preload (ordered : (dataStart link).toNat ≤ (dataEnd link).toNat) (isFirst : first)
    (state : Core × Memory 32) :
    Assertions.entry (annotated link first) Symbol.preload_scratchpad.number state := by
  obtain ⟨final, executed, -, src, -, count⟩ := @exec_preload_scratchpad link state.1
  refine ⟨final, executed, isFirst, ?_, ?_, Nat.zero_le _⟩
  · rw [src, count, sub_sub_cancel]
  · have bounded := (dataEnd link).isLt
    rw [count, BitVec.toNat_sub, dataSize]
    omega

theorem lead_halt_address (core : Core) (scratchpad : Memory 32) :
    Leading link (fun core => core.gpr 2 = 0xFFFFFFC0) haltAddress (core, scratchpad) := by
  let zeroed := core.setGpr 1 0
  let addressed := (zeroed.setGpr 2 0xFFFF0000).setGpr 2 0xFFFFFFC0
  have executed : execSequence link haltAddress core = some addressed := by
    unfold haltAddress
    rw [exec_sequence_cons link (exec_movei link _ 1 (by decide)),
      exec_sequence_cons link (exec_moveih link _ 2 0xFFFF),
      exec_sequence_cons link (exec_moveil link _ 2 0xFFC0), execSequence]
    simp only [set_gpr_core, Function.update_self]
    rfl
  exact ⟨addressed, executed, by simp [addressed]⟩

def Straight (link : Nat → RelocAddresses) (inst : MCInst) : Prop :=
  ∀ core scratchpad result, execute link inst (core, scratchpad) = some result → result.2 = none

theorem straight_of_core {inst : MCInst}
    (executed : ∀ core, ∃ next, execCore link inst core = some (next, .next)) :
    Straight link inst := by
  intro core scratchpad result ran
  obtain ⟨next, goes⟩ := executed core
  rw [execute, thread_of_core goes, Option.bind_some, Option.some.injEq] at ran
  rw [← ran]

theorem straight_movei (dst : Fin 64) {value : Int}
    (low : BitVec.ofInt 32 value &&& (0xffff : Word) = BitVec.ofInt 32 value) :
    Straight link (movei dst value) :=
  straight_of_core fun core => ⟨_, exec_movei link core dst low⟩

theorem straight_read_cr (dst register : Fin 64) : Straight link (read_cr dst register) :=
  straight_of_core fun core => ⟨_, exec_read_cr link core dst register⟩

theorem straight_write_cr (value register : Fin 64) : Straight link (write_cr value register) :=
  straight_of_core fun core => ⟨_, exec_write_cr link core value register⟩

theorem straight_call : Straight link callMain := by
  intro core scratchpad result ran
  cases ran

theorem straight_flush : Straight link ⟨.FLUSH, [s 2]⟩ := by
  intro core scratchpad result ran
  cases ran
  rfl

theorem straight_set_mode {mode : Int}
    (low : BitVec.ofInt 32 mode &&& (0xffff : Word) = BitVec.ofInt 32 mode) :
    ∀ inst ∈ setMode mode, Straight link inst := by
  simp only [setMode, List.forall_mem_cons]
  exact ⟨straight_movei 2 low, straight_movei 3 (by decide), straight_write_cr 2 3,
    List.forall_mem_nil _⟩

theorem straight_to_halt_address : ∀ inst ∈ passArguments ++ setMode 1 ++
    [callMain, movei 1 13, write_cr 0 1], Straight link inst := by
  simp only [List.forall_mem_append, passArguments, List.forall_mem_cons]
  exact ⟨⟨⟨straight_movei 0 (by decide), straight_movei 1 (by decide), straight_read_cr 0 0,
    straight_read_cr 1 1, List.forall_mem_nil _⟩, straight_set_mode (by decide)⟩, straight_call,
    straight_movei 1 (by decide), straight_write_cr 0 1, List.forall_mem_nil _⟩

theorem straight_at_end : ∀ inst ∈ (⟨.FLUSH, [s 2]⟩ :: setMode 2 : List MCInst),
    Straight link inst :=
  List.forall_mem_cons.mpr ⟨straight_flush, straight_set_mode (by decide)⟩

theorem follows_never {blocks : Annotated MCInst (Core × Memory 32)} {behind : Assertion}
    (insts : List MCInst) :
    Follows (execute link) blocks behind (annotate (fun _ => False) insts) := by
  induction insts with
  | nil => exact trivial
  | cons inst insts induction => exact ⟨fun _ never => never.elim, induction⟩

theorem follows_start (data : first → DataLaidOut link) :
    Follows (execute link) (annotated link first) (Assertions.entry (annotated link first) 1)
      (annotateSequence link (fun core => core.gpr 2 = 0 → first) prologue ++
        ([(bnez 2 .do_main, fun state => state.1.gpr 2 = 0 → first),
          (bnez 1 .preload_scratchpad, fun _ => first)] ++
        (annotateSequence link (fun core => first ∧
          core.gpr 24 = addressOf link .init_array_start ∧
          core.gpr 25 = addressOf link .init_array_end) loadArrayBounds ++ []))) := by
  refine follows_sequence _ (fun _ known => known) (follows_bnez (fun _ _ _ => trivial)
    (fun _ known zero => known zero) (follows_bnez (fun state isFirst _ => ?_)
    (fun state isFirst _ => ?_) (follows_sequence _ (fun _ known => known) trivial)))
  · exact lead_preload (data isFirst).ordered isFirst state
  · exact ⟨_, exec_array_bounds link state.1, isFirst, by simp, by simp⟩

theorem follows_init_loop
    (bounds : (addressOf link .init_array_end).sle (addressOf link .init_array_start) = true)
    (data : first → DataLaidOut link) {behind : Assertion} :
    Follows (execute link) (annotated link first) behind
      ([(cmpge_i32 0 24 25, fun state => first ∧
          state.1.gpr 24 = addressOf link .init_array_start ∧
          state.1.gpr 25 = addressOf link .init_array_end),
        (bnez 0 .preload_scratchpad, fun state => first ∧ state.1.gpr 0 = 0xffff)] ++
        annotate (fun _ => False)
          [load .L32W 0 24, arithi .ADD 24 24 4, jmpsr 0, jmp .init_loop]) := by
  refine follows_next ?_ (follows_bnez ?_ ?_ (follows_never _))
  · rintro core scratchpad ⟨isFirst, start, last⟩
    refine ⟨_, _, thread_of_core (exec_cmpge link core 0 24 25), isFirst, ?_⟩
    rw [show core.gpr 24 = _ from start, show core.gpr 25 = _ from last, bounds, set_gpr_core,
      Function.update_self]
    rfl
  · rintro state ⟨isFirst, -⟩ _
    exact lead_preload (data isFirst).ordered isFirst state
  · rintro state ⟨-, set⟩ unset
    rw [set] at unset
    cases unset

theorem follows_do_main {behind : Assertion} (always : ∀ state, behind state) :
    Follows (execute link) (annotated link first) behind
      (annotate (fun _ => True) (passArguments ++ setMode 1 ++
          [callMain, movei 1 13, write_cr 0 1]) ++
        (annotateSequence link (fun core => core.gpr 2 = 0xFFFFFFC0) haltAddress ++
        ((store .S32W .Mainmem 1 2, fun state => state.1.gpr 2 = 0xFFFFFFC0) ::
          (annotate (fun _ => True) (⟨.FLUSH, [s 2]⟩ :: setMode 2) ++ [])))) := by
  refine follows_free straight_to_halt_address (fun state => lead_halt_address state.1 state.2)
    (follows_sequence _ (fun _ known => known) (follows_next (fun core scratchpad _ => ?_)
    (follows_free straight_at_end always trivial)))
  have stores := exec_machine link core rfl (exec_store core.registers core.memory 1 2
    (show SignedFits 9 0 by decide))
  exact ⟨_, _, thread_of_core stores, trivial⟩

theorem annotated_proved
    (bounds : (addressOf link .init_array_end).sle (addressOf link .init_array_start) = true)
    (data : first → DataLaidOut link) : Proved (execute link) (annotated link first) := by
  have small (isFirst : first) : dataSize link < 2 ^ 31 := (data isFirst).small
  intro block code laidOut
  have inside : block < 8 := (List.getElem?_eq_some_iff.mp laidOut).1
  have blocks : block = 0 ∨ block = 1 ∨ block = 2 ∨ block = 3 ∨ block = 4 ∨ block = 5 ∨ block = 6 ∨
      block = 7 := by omega
  rcases blocks with rfl | rfl | rfl | rfl | rfl | rfl | rfl | rfl <;> cases laidOut
  · exact follows_start data
  · exact follows_init_loop bounds data
  · have sequence := @follows_sequence link (annotated link first)
      (Assertions.entry (annotated link first) 3) [] (fun core => first ∧ Left link 0 core)
      preload_scratchpad (fun _ known => known) trivial
    rw [List.append_nil] at sequence
    exact sequence
  · exact follows_loop (by decide) small loads_vector stores_vector rfl fun _ known => known
  · exact follows_loop (by decide) small loads_word stores_word rfl fun _ known => known
  · exact follows_loop (by decide) small loads_byte stores_byte rfl fun _ _ => trivial
  · exact follows_do_main fun _ => trivial
  · exact follows_jmp (fun _ _ => trivial) trivial

end Assertions

section Plain

variable {link : Nat → RelocAddresses} {inst : MCInst}

/-- An instruction that neither depends on a memory nor changes one. -/
def Plain (link : Nat → RelocAddresses) (inst : MCInst) : Prop :=
  ∃ effect : Registers → (Word → Word) → Registers × (Word → Word) × Transfer,
    ∀ core scratchpad, execThread link inst core scratchpad =
      some (⟨(effect core.registers core.control).1, (effect core.registers core.control).2.1,
        core.memory⟩, scratchpad, (effect core.registers core.control).2.2)

theorem plain_of_set {dst : Fin 64} (value : (Fin 64 → Word) → (Word → Word) → Word)
    (executed : ∀ core, execCore link inst core =
      some (core.setGpr dst (value core.gpr core.control), .next)) : Plain link inst :=
  ⟨fun registers control =>
    (registers.setGpr dst (value registers.gpr control), control, .next),
    fun core _ => thread_of_core (executed core)⟩

theorem plain_movei (dst : Fin 64) {value : Int}
    (low : BitVec.ofInt 32 value &&& (0xffff : Word) = BitVec.ofInt 32 value) :
    Plain link (movei dst value) :=
  plain_of_set (fun _ _ => BitVec.ofInt 32 value) fun core => exec_movei link core dst low

theorem plain_moveih (dst : Fin 64) (value : Int) : Plain link (moveih dst value) :=
  plain_of_set (fun _ _ => (BitVec.ofInt 32 value &&& 0xffff) <<< 16)
    fun core => exec_moveih link core dst value

theorem plain_moveil (dst : Fin 64) (value : Int) : Plain link (moveil dst value) :=
  plain_of_set
    (fun gpr _ => (gpr dst &&& 0xffff0000) ||| (BitVec.ofInt 32 value &&& 0xffff))
    fun core => exec_moveil link core dst value

theorem plain_leah (dst : Fin 64) (symbol : Symbol) : Plain link (leah dst symbol) :=
  plain_of_set (fun _ _ => (BitVec.ofInt 32 (Int.bmod
      ((referenceValue link ⟨symbol.number, 0⟩ >>> 16) &&& 0xFFFF).toNat (2 ^ 16)) &&&
        0xffff) <<< 16)
    fun core => exec_linked link core rfl
      (link_decode_half (show (Opcode.moveImm .MOVEIH .SI).layout = moveLayout 1 .imm from rfl)
        (link_leah link dst symbol) (low_sixteen_lt _)) (exec_move_high _ _ dst _)

theorem plain_leal (dst : Fin 64) (symbol : Symbol) : Plain link (leal dst symbol) :=
  plain_of_set (fun gpr _ => (gpr dst &&& 0xffff0000) ||| (BitVec.ofInt 32 (Int.bmod
      (referenceValue link ⟨symbol.number, 0⟩ &&& 0xFFFF).toNat (2 ^ 16)) &&& 0xffff))
    fun core => exec_linked link core rfl
      (link_decode_half (show (Opcode.moveImm .MOVEIL .SI).layout = moveLayout 0 .imm from rfl)
        (link_leal link dst symbol) (low_sixteen_lt _)) (exec_move_low _ _ dst _)

theorem plain_read_cr (dst register : Fin 64) : Plain link (read_cr dst register) :=
  plain_of_set (fun gpr control => control (gpr register))
    fun core => exec_read_cr link core dst register

theorem plain_write_cr (value register : Fin 64) : Plain link (write_cr value register) :=
  ⟨fun registers control =>
    (registers, Function.update control (registers.gpr register) (registers.gpr value), .next),
    fun core _ => thread_of_core (exec_write_cr link core value register)⟩

theorem plain_mull (dst src0 src1 : Fin 64) : Plain link (arith_i32 .MULL dst src0 src1) :=
  plain_of_set (fun gpr _ => gpr src0 * gpr src1) fun core => exec_mull link core dst src0 src1

theorem plain_arith {op : ArithInt} {operation : Word → Word → Word}
    (known : alu op = some operation) (dst src0 src1 : Fin 64) :
    Plain link (arith_i32 op dst src0 src1) :=
  plain_of_set (fun gpr _ => operation (gpr src0) (gpr src1))
    fun core => exec_arith_i32 link core known dst src0 src1

theorem plain_arithi {op : ArithInt} {operation : Word → Word → Word}
    (known : alu op = some operation) (dst src : Fin 64) {value : Int}
    (fits : SignedFits 9 value) : Plain link (arithi op dst src value) :=
  plain_of_set (fun gpr _ => operation (gpr src) (BitVec.ofInt 32 value))
    fun core => exec_arithi link core known dst src fits

theorem plain_cmpge (dst src0 src1 : Fin 64) : Plain link (cmpge_i32 dst src0 src1) :=
  plain_of_set (fun gpr _ => compareResult ((gpr src1).sle (gpr src0)))
    fun core => exec_cmpge link core dst src0 src1

theorem plain_cmplti (dst src : Fin 64) {value : Int} (fits : SignedFits 9 value) :
    Plain link (cmplti dst src value) :=
  ⟨fun registers control => (registers.setGpr dst
      (compareResult ((registers.gpr src).slt (BitVec.ofInt 32 value))), control, .next),
    fun core scratchpad => thread_of_preload
      (preload_of_aligned (aligned_cmplti core scratchpad dst src fits))⟩

theorem plain_bnez (cond : Fin 64) (label : Symbol) : Plain link (bnez cond label) :=
  ⟨fun registers control => (registers, control,
      if registers.gpr cond ≠ 0 then .jump label.number else .next),
    fun core _ => thread_of_core (exec_bnez link core cond label)⟩

theorem plain_jmp (label : Symbol) : Plain link (jmp label) :=
  ⟨fun registers control => (registers, control, .jump label.number),
    fun core _ => thread_of_core (exec_jmp link core label)⟩

theorem plain_call : Plain link callMain :=
  ⟨fun registers control => (registers, control, .call (addressOf link .main)),
    fun _ _ => rfl⟩

theorem plain_flush : Plain link ⟨.FLUSH, [s 2]⟩ :=
  ⟨fun registers control => (registers, control, .next), fun _ _ => rfl⟩

end Plain

section Shielded

variable {link : Nat → RelocAddresses} {first : Prop} {inst : MCInst} {core : Core}
  {scratchpad memory other third : Memory 32}

/-- The second memory has the data of the scratchpads from the first. -/
def KeepsData (link : Nat → RelocAddresses) (memory other : Memory 32) : Prop :=
  ∀ k < dataSize link, other (dataStart link + BitVec.ofNat 32 k) =
    memory (dataStart link + BitVec.ofNat 32 k)

theorem KeepsData.refl (link : Nat → RelocAddresses) (memory : Memory 32) :
    KeepsData link memory memory := fun _ _ => rfl

theorem KeepsData.symm (keeps : KeepsData link memory other) : KeepsData link other memory :=
  fun k inside => (keeps k inside).symm

theorem KeepsData.trans (keeps : KeepsData link memory other)
    (further : KeepsData link other third) : KeepsData link memory third :=
  fun k inside => (further k inside).trans (keeps k inside)

/-- An instruction does the same to a thread whatever the others have made of the memories, the
data and the scratchpad of a first thread apart. -/
def Shielded (link : Nat → RelocAddresses) (first : Prop) (inst : MCInst) (core : Core)
    (scratchpad : Memory 32) : Prop :=
  ∀ next nextScratchpad transfer,
    execThread link inst core scratchpad = some (next, nextScratchpad, transfer) →
    KeepsData link core.memory next.memory ∧
    ∀ memory other, KeepsData link core.memory memory → (first → other = scratchpad) →
      ∃ nextMemory nextOther,
        execThread link inst ⟨core.registers, core.control, memory⟩ other =
          some (⟨next.registers, next.control, nextMemory⟩, nextOther, transfer) ∧
        KeepsData link memory nextMemory ∧ (first → nextOther = nextScratchpad) ∧
        (¬ first → nextOther = other)

theorem shielded_of_plain (plain : Plain link inst) : Shielded link first inst core scratchpad := by
  obtain ⟨effect, executed⟩ := plain
  intro next nextScratchpad transfer ran
  rw [executed, Option.some.injEq, Prod.mk.injEq, Prod.mk.injEq] at ran
  obtain ⟨rfl, rfl, rfl⟩ := ran
  refine ⟨KeepsData.refl link _, fun memory other _ same => ?_⟩
  exact ⟨memory, other, executed _ _, KeepsData.refl link _, same, fun _ => rfl⟩

theorem left_in_data {need : Nat} (left : Left link need core)
    (ordered : (dataStart link).toNat ≤ (dataEnd link).toNat) {offset : Nat}
    (inside : offset < need) : ∃ k < dataSize link,
      core.gpr 0 + BitVec.ofNat 32 offset = dataStart link + BitVec.ofNat 32 k := by
  obtain ⟨src, bounded, enough⟩ := left
  have size : dataSize link = (dataEnd link).toNat - (dataStart link).toNat := rfl
  have last := (dataEnd link).isLt
  refine ⟨dataSize link - (core.gpr 3).toNat + offset, by omega, ?_⟩
  apply BitVec.eq_of_toNat_eq
  rw [src, BitVec.toNat_add, BitVec.toNat_sub, BitVec.toNat_add, BitVec.toNat_ofNat,
    BitVec.toNat_ofNat]
  omega

theorem shielded_load {size : Nat} (loads : LoadsPiece link size inst) (left : Left link size core)
    (ordered : (dataStart link).toNat ≤ (dataEnd link).toNat) :
    Shielded link first inst core scratchpad := by
  obtain ⟨set, -, executed⟩ := loads
  intro next nextScratchpad transfer ran
  rw [executed, Option.some.injEq, Prod.mk.injEq, Prod.mk.injEq] at ran
  obtain ⟨rfl, rfl, rfl⟩ := ran
  refine ⟨KeepsData.refl link _, fun memory other keeps same => ?_⟩
  refine ⟨memory, other, ?_, KeepsData.refl link _, same, fun _ => rfl⟩
  have loaded : loadWord memory (core.gpr 0) size = loadWord core.memory (core.gpr 0) size := by
    apply load_word_congr
    intro offset inside
    obtain ⟨k, within, cell⟩ := left_in_data left ordered inside
    rw [cell]
    exact keeps k within
  rw [executed]
  show some (Core.mk (set core.registers (loadWord memory (core.gpr 0) size)) core.control memory,
    other, Transfer.next) = _
  rw [loaded]

theorem shielded_store (stores : StoresPiece link inst) (isFirst : first) :
    Shielded link first inst core scratchpad := by
  obtain ⟨stored, executed⟩ := stores
  intro next nextScratchpad transfer ran
  rw [executed, Option.some.injEq, Prod.mk.injEq, Prod.mk.injEq] at ran
  obtain ⟨rfl, rfl, rfl⟩ := ran
  refine ⟨KeepsData.refl link _, fun memory other _ same => ?_⟩
  refine ⟨memory, stored core.registers other, executed _ _, KeepsData.refl link _, fun _ => ?_,
    fun notFirst => absurd isFirst notFirst⟩
  rw [same isFirst]

theorem keeps_top (ordered : (dataStart link).toNat ≤ (dataEnd link).toNat)
    (below : (dataEnd link).toNat ≤ 0xFFFFFFC0) (memory : Memory 32) (value : Word) :
    KeepsData link memory (storeWord32 memory 0xFFFFFFC0 value) := by
  intro k inside
  have size : dataSize link = (dataEnd link).toNat - (dataStart link).toNat := rfl
  apply store_outside
  rw [bytes_length, offsetFrom, BitVec.toNat_sub, BitVec.toNat_add, BitVec.toNat_ofNat]
  have top : (0xFFFFFFC0 : Word).toNat = 0xFFFFFFC0 := rfl
  rw [top]
  omega

theorem shielded_top (ordered : (dataStart link).toNat ≤ (dataEnd link).toNat)
    (below : (dataEnd link).toNat ≤ 0xFFFFFFC0) (top : core.gpr 2 = 0xFFFFFFC0) :
    Shielded link first (store .S32W .Mainmem 1 2) core scratchpad := by
  have executed (core : Core) (top : core.gpr 2 = 0xFFFFFFC0) (scratchpad : Memory 32) :
      execThread link (store .S32W .Mainmem 1 2) core scratchpad =
        some (⟨core.registers, core.control, storeWord32 core.memory 0xFFFFFFC0 (core.gpr 1)⟩,
          scratchpad, .next) := by
    have stored := exec_machine link core rfl (exec_store core.registers core.memory 1 2
      (show SignedFits 9 0 by decide))
    rw [add_no_offset, show core.registers.gpr 2 = _ from top] at stored
    exact thread_of_core stored
  intro next nextScratchpad transfer ran
  rw [executed core top, Option.some.injEq, Prod.mk.injEq, Prod.mk.injEq] at ran
  obtain ⟨rfl, rfl, rfl⟩ := ran
  refine ⟨keeps_top ordered below _ _, fun memory other _ same => ?_⟩
  exact ⟨_, other, executed ⟨core.registers, core.control, memory⟩ top other,
    keeps_top ordered below _ _, same, fun _ => rfl⟩

end Shielded

section Guarded

variable {link : Nat → RelocAddresses} {first : Prop}

def Guarded (link : Nat → RelocAddresses) (first : Prop)
    (code : List (MCInst × Assertion)) : Prop :=
  ∀ item ∈ code, ∀ core scratchpad, item.2 (core, scratchpad) →
    Shielded link first item.1 core scratchpad

theorem guarded_nil : Guarded link first [] := List.forall_mem_nil _

theorem guarded_append {front rest : List (MCInst × Assertion)} (left : Guarded link first front)
    (right : Guarded link first rest) : Guarded link first (front ++ rest) :=
  List.forall_mem_append.mpr ⟨left, right⟩

theorem guarded_cons {inst : MCInst} {assertion : Assertion} {rest : List (MCInst × Assertion)}
    (shielded : ∀ core scratchpad, assertion (core, scratchpad) →
      Shielded link first inst core scratchpad)
    (guarded : Guarded link first rest) : Guarded link first ((inst, assertion) :: rest) :=
  List.forall_mem_cons.mpr ⟨shielded, guarded⟩

theorem guarded_sequence {after : Core → Prop} {insts : List MCInst}
    (plain : ∀ inst ∈ insts, Plain link inst) :
    Guarded link first (annotateSequence link after insts) := by
  induction insts with
  | nil => exact guarded_nil
  | cons inst rest induction =>
      rw [List.forall_mem_cons] at plain
      exact guarded_cons (fun _ _ _ => shielded_of_plain plain.1) (induction plain.2)

theorem guarded_annotate {assertion : Assertion} {insts : List MCInst}
    (shielded : ∀ inst ∈ insts, ∀ core scratchpad, assertion (core, scratchpad) →
      Shielded link first inst core scratchpad) :
    Guarded link first (annotate assertion insts) :=
  List.forall_mem_map.mpr shielded

theorem guarded_plain {assertion : Assertion} {insts : List MCInst}
    (plain : ∀ inst ∈ insts, Plain link inst) : Guarded link first (annotate assertion insts) :=
  guarded_annotate fun inst member _ _ _ => shielded_of_plain (plain inst member)

theorem plain_set_mode {mode : Int}
    (low : BitVec.ofInt 32 mode &&& (0xffff : Word) = BitVec.ofInt 32 mode) :
    ∀ inst ∈ setMode mode, Plain link inst := by
  simp only [setMode, List.forall_mem_cons]
  exact ⟨plain_movei 2 low, plain_movei 3 (by decide), plain_write_cr 2 3, List.forall_mem_nil _⟩

theorem plain_prologue : ∀ inst ∈ prologue, Plain link inst := by
  rw [prologue_split, List.forall_mem_append]
  refine ⟨plain_set_mode (by decide), ?_⟩
  simp only [afterMode, List.forall_mem_cons]
  exact ⟨plain_moveih rm 0, plain_moveil rm 0xFFFF, plain_movei 1 (by decide),
    plain_movei 2 (by decide), plain_read_cr 1 1, plain_read_cr 2 2, plain_leah 4 _, plain_leal 4 _,
    plain_leah 5 _, plain_leal 5 _, plain_leah 0 _, plain_leal 0 _, plain_mull 3 1 5,
    plain_arith rfl 3 3 2, plain_arithi rfl 3 3 (by decide), plain_mull 3 3 4,
    plain_arith rfl 0 0 3, plain_leah sp _, plain_leal sp _, plain_leah fp _, plain_leal fp _, List.forall_mem_nil _⟩

theorem plain_array_bounds : ∀ inst ∈ loadArrayBounds, Plain link inst := by
  simp only [loadArrayBounds, List.forall_mem_cons]
  exact ⟨plain_leah 24 _, plain_leal 24 _, plain_leah 25 _, plain_leal 25 _, List.forall_mem_nil _⟩

theorem plain_preload_scratchpad : ∀ inst ∈ preload_scratchpad, Plain link inst := by
  simp only [preload_scratchpad, List.forall_mem_cons]
  exact ⟨plain_arith rfl 0 0 0, plain_arith rfl 1 1 1, plain_leah 0 _, plain_leal 0 _,
    plain_leah 1 _, plain_leal 1 _, plain_moveih 2 0, plain_moveil 2 0, plain_arith rfl 3 1 0,
    List.forall_mem_nil _⟩

theorem plain_to_halt_address : ∀ inst ∈ passArguments ++ setMode 1 ++
    [callMain, movei 1 13, write_cr 0 1], Plain link inst := by
  simp only [List.forall_mem_append, passArguments, List.forall_mem_cons]
  exact ⟨⟨⟨plain_movei 0 (by decide), plain_movei 1 (by decide), plain_read_cr 0 0,
    plain_read_cr 1 1, List.forall_mem_nil _⟩, plain_set_mode (by decide)⟩, plain_call,
    plain_movei 1 (by decide), plain_write_cr 0 1, List.forall_mem_nil _⟩

theorem plain_halt_address : ∀ inst ∈ haltAddress, Plain link inst := by
  simp only [haltAddress, List.forall_mem_cons]
  exact ⟨plain_movei 1 (by decide), plain_moveih 2 _, plain_moveil 2 _, List.forall_mem_nil _⟩

theorem guarded_loop {size : Nat} (fits : SignedFits 9 size)
    (ordered : first → (dataStart link).toNat ≤ (dataEnd link).toNat) {loop next : Symbol}
    {load store : MCInst} (loads : LoadsPiece link size load) (stores : StoresPiece link store) :
    Guarded link first (annotatedLoop link first size loop next load store) := by
  refine guarded_cons (fun _ _ _ => shielded_of_plain (plain_cmplti 4 3 fits))
    (guarded_cons (fun _ _ _ => shielded_of_plain (plain_bnez 4 next)) (guarded_cons ?_
    (guarded_cons ?_ (guarded_cons (fun _ _ _ => shielded_of_plain (plain_arithi rfl 0 0 fits))
    (guarded_cons (fun _ _ _ => shielded_of_plain (plain_arithi rfl 2 2 fits))
    (guarded_cons (fun _ _ _ => shielded_of_plain (plain_arithi rfl 3 3 fits))
    (guarded_cons (fun _ _ _ => shielded_of_plain (plain_jmp loop)) guarded_nil)))))))
  · rintro core scratchpad ⟨isFirst, left⟩
    exact shielded_load loads left (ordered isFirst)
  · rintro core scratchpad ⟨isFirst, -⟩
    exact shielded_store stores isFirst

theorem annotated_guarded (ordered : (dataStart link).toNat ≤ (dataEnd link).toNat)
    (below : (dataEnd link).toNat ≤ 0xFFFFFFC0) :
    ∀ code ∈ annotated link first, Guarded link first code := by
  simp only [annotated, List.forall_mem_cons]
  refine ⟨?_, ?_, guarded_sequence plain_preload_scratchpad,
    guarded_loop (by decide) (fun _ => ordered) loads_vector stores_vector,
    guarded_loop (by decide) (fun _ => ordered) loads_word stores_word,
    guarded_loop (by decide) (fun _ => ordered) loads_byte stores_byte, ?_,
    guarded_cons (fun _ _ _ => shielded_of_plain (plain_jmp .halt)) guarded_nil,
    List.forall_mem_nil _⟩
  · exact guarded_append (guarded_append (guarded_sequence plain_prologue)
      (guarded_cons (fun _ _ _ => shielded_of_plain (plain_bnez 2 .do_main))
      (guarded_cons (fun _ _ _ => shielded_of_plain (plain_bnez 1 .preload_scratchpad))
      guarded_nil))) (guarded_sequence plain_array_bounds)
  · exact guarded_append (guarded_cons (fun _ _ _ => shielded_of_plain (plain_cmpge 0 24 25))
      (guarded_cons (fun _ _ _ => shielded_of_plain (plain_bnez 0 .preload_scratchpad))
      guarded_nil)) (guarded_annotate fun _ _ _ _ never => never.elim)
  · refine guarded_append (guarded_append (guarded_append (guarded_plain plain_to_halt_address)
      (guarded_sequence plain_halt_address)) (guarded_cons ?_ guarded_nil))
      (guarded_plain (List.forall_mem_cons.mpr ⟨plain_flush, plain_set_mode (by decide)⟩))
    intro core scratchpad top
    exact shielded_top ordered below top

end Guarded

section Runs

variable {link : Nat → RelocAddresses} {first : Prop} {textStart : Word} {returns : Returns}
  {thread next : BootProtocol.Thread}

/-- A step and the instruction that made it. -/
structure Executes (link : Nat → RelocAddresses) (textStart : Word) (returns : Returns)
    (thread next : BootProtocol.Thread) (code : List MCInst) (inst : MCInst)
    (result : Core × Memory 32 × Transfer) : Prop where
  laidOut : crt0[thread.block]? = some code
  here : code[thread.index]? = some inst
  ran : execThread link inst thread.core thread.scratchpad = some result
  left : next = thread.advance textStart returns code result.1 result.2.1
    (observed inst thread.core result.2.2) result.2.2

theorem executes_of_step (stepped : BootProtocol.step link textStart returns thread = some next) :
    ∃ code inst result, Executes link textStart returns thread next code inst result := by
  rw [BootProtocol.step, Option.bind_eq_some_iff] at stepped
  obtain ⟨code, laidOut, stepped⟩ := stepped
  rw [Option.bind_eq_some_iff] at stepped
  obtain ⟨inst, here, stepped⟩ := stepped
  rw [Option.map_eq_some_iff] at stepped
  obtain ⟨result, ran, left⟩ := stepped
  exact ⟨code, inst, result, laidOut, here, ran, left.symm⟩

def AssertedAt (link : Nat → RelocAddresses) (first : Prop) (thread : BootProtocol.Thread) : Prop :=
  Asserted (annotated link first) ⟨thread.block, thread.index, (thread.core, thread.scratchpad)⟩

variable {code : List MCInst} {inst : MCInst} {result : Core × Memory 32 × Transfer}

theorem annotated_at (laidOut : crt0[thread.block]? = some code)
    (here : code[thread.index]? = some inst) :
    ∃ annotatedCode assertion, (annotated link first)[thread.block]? = some annotatedCode ∧
      annotatedCode[thread.index]? = some (inst, assertion) := by
  rw [← items_annotated link first, items, List.getElem?_map, Option.map_eq_some_iff] at laidOut
  obtain ⟨annotatedCode, found, rfl⟩ := laidOut
  rw [List.getElem?_map, Option.map_eq_some_iff] at here
  obtain ⟨⟨_, assertion⟩, item, rfl⟩ := here
  exact ⟨annotatedCode, assertion, found, item⟩

/-- Where no call is made the thread goes on within the assertions. -/
theorem asserted_next (proved : Proved (execute link) (annotated link first))
    (asserted : AssertedAt link first thread)
    (executes : Executes link textStart returns thread next code inst result)
    (noCall : ∀ address, result.2.2 ≠ .call address) : AssertedAt link first next := by
  obtain ⟨laidOut, here, ran, rfl⟩ := executes
  obtain ⟨core, scratchpad, transfer⟩ := result
  have stepped (goal : Point (Core × Memory 32)) (target : Option Nat)
      (executed : execute link inst (thread.core, thread.scratchpad) =
        some ((core, scratchpad), target))
      (same : follow code.length ⟨thread.block, thread.index, (thread.core, thread.scratchpad)⟩
        ((core, scratchpad), target) = goal) : Asserted (annotated link first) goal := by
    apply asserted_step proved asserted
    rw [items_annotated, Assertions.step, laidOut, Option.bind_some, here, Option.bind_some,
      executed, Option.map_some, same]
  cases transfer with
  | next =>
      apply stepped _ none
      · rw [execute, ran, Option.bind_some]
      · simp only [follow, BootProtocol.Thread.advance, BootProtocol.arrive]
        split <;> rfl
  | jump label =>
      apply stepped _ (some label)
      · rw [execute, ran, Option.bind_some]
      · rfl
  | call address => exact absurd rfl (noCall address)

theorem shielded_at (ordered : (dataStart link).toNat ≤ (dataEnd link).toNat)
    (below : (dataEnd link).toNat ≤ 0xFFFFFFC0) (asserted : AssertedAt link first thread)
    (laidOut : crt0[thread.block]? = some code) (here : code[thread.index]? = some inst) :
    Shielded link first inst thread.core thread.scratchpad := by
  obtain ⟨annotatedCode, assertion, found, item⟩ :=
    @annotated_at link first thread code inst laidOut here
  exact annotated_guarded ordered below annotatedCode (List.mem_of_getElem? found) (inst, assertion)
    (List.mem_of_getElem? item) _ _ (asserted _ _ _ found item)

end Runs

end NaplesPU.BootAccesses
