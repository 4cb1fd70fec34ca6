import NaplesPU.Lib.Assertions
import NaplesPU.RoutineImages

/-!
The copy of a block as it runs: what it accesses on the way, whatever it was called with, and the
words it is assembled to, fetched from the same memory that they copy.
-/

namespace NaplesPU.MemcpyImage

open ByteMemory StepRuns TwosComplement Assertions Interleaving
open RegisterInfo InstrFormats InstrInfo FixupKinds MCCodeEmitter EncodeDecode BranchTargets
open Machine StackSlots Memcpy RoutineImages

section Assertions

abbrev State := Registers × Memory 32

def execute (inst : MCInst) (state : State) : Option (State × Option Nat) :=
  (execRoutine inst state.1 state.2).map fun effect =>
    ((effect.registers, effect.memory), effect.target)

def accessBytes (inst : MCInst) : Nat :=
  match inst.opcode with
  | .loadScalar .L32BU _ | .storeScalar .S32B _ => 1
  | .loadScalar .L32W _ | .storeScalar .S32W _ => 4
  | _ => 64

variable (entry : Registers) (old : Memory 32)

/-- An access is inside its buffer: a load in the source, a store in the destination. -/
def AccessInside (inst : MCInst) (registers : Registers) : Prop :=
  match accessOf inst with
  | .none => True
  | .load => ∃ offset, offset + accessBytes inst ≤ (entry.gpr 2).toNat ∧
      fieldAddress inst registers = entry.gpr 1 + BitVec.ofNat 32 offset
  | .store => ∃ offset, offset + accessBytes inst ≤ (entry.gpr 2).toNat ∧
      fieldAddress inst registers = entry.gpr 0 + BitVec.ofNat 32 offset

/-- Nothing behind the destination or before it is changed. -/
def Untouched (memory : Memory 32) : Prop :=
  ∀ cell, (entry.gpr 2).toNat ≤ offsetFrom (entry.gpr 0) cell → memory cell = old cell

/-- The registers of the copy: so much is needed of what is left, and each register is so far
ahead of what is done. -/
def Within (need dest src count : Nat) (state : State) : Prop :=
  (∃ done, done + need ≤ (entry.gpr 2).toNat ∧
    state.1.gpr 0 = entry.gpr 0 + BitVec.ofNat 32 (done + dest) ∧
    state.1.gpr 1 = entry.gpr 1 + BitVec.ofNat 32 (done + src) ∧
    (state.1.gpr 2).toNat = (entry.gpr 2).toNat - (done + count)) ∧
  Untouched entry old state.2

abbrev Between : State → Prop := Within entry old 0 0 0 0

/-- The comparison with the size of a piece is in `s4`. -/
def Compared (size : Int) (state : State) : Prop :=
  Between entry old state ∧
    state.1.gpr 4 = compareResult ((state.1.gpr 2).ult (BitVec.ofInt 32 size))

def annotate (assertion : State → Prop) (code : List MCInst) : List (MCInst × (State → Prop)) :=
  code.map fun inst => (inst, assertion)

def annotatedPiece (load store : MCInst) (size : Nat) (loop : Label) :
    List (MCInst × (State → Prop)) :=
  (copyPiece load store size loop).zip
    [Within entry old size 0 0 0, Within entry old size 0 0 0, Within entry old size 0 0 0,
      Within entry old size size 0 0, Within entry old size size size 0,
      Within entry old size size size size]

def annotatedByte (loop : Label) : List (MCInst × (State → Prop)) :=
  annotatedPiece entry old (loadFrom .L32BU 4 1) (storeTo .S32B 4 0) 1 loop

/-- The routine, with what holds in front of each instruction. -/
def annotated : Annotated MCInst State :=
  [ annotate (Between entry old) [ move_i32 6 0, arithi .AND 3 0 63, arithi .AND 4 1 63,
      cmpeq_i32 5 3 4, beqz 5 .copy_word_check ],
    annotate (Between entry old) [arithi .AND 4 0 63, beqz 4 .copy_vector, beqz 2 .copy_done] ++
      annotatedByte entry old .copy_vector_lead_in,
    [(cmpulti 4 2 64, Between entry old), (bnez 4 .copy_words, Compared entry old 64)] ++
      annotatedPiece entry old (load_v16i32 0 1) (store_v16i32 0 0) 64 .copy_vector,
    annotate (Between entry old) [arithi .AND 3 0 3, arithi .AND 4 1 3, cmpeq_i32 5 3 4,
      beqz 5 .copy_remain_bytes],
    annotate (Between entry old) [arithi .AND 4 0 3, beqz 4 .copy_words, beqz 2 .copy_done] ++
      annotatedByte entry old .copy_word_lead_in,
    [(cmpulti 4 2 4, Between entry old), (bnez 4 .copy_remain_bytes, Compared entry old 4)] ++
      annotatedPiece entry old (loadFrom .L32W 4 1) (storeTo .S32W 4 0) 4 .copy_words,
    annotate (Between entry old) [beqz 2 .copy_done] ++ annotatedByte entry old .copy_remain_bytes,
    annotate (fun state => Untouched entry old state.2) [move_i32 0 6, jret] ]

theorem items_annotated : items (annotated entry old) = memcpy := rfl

end Assertions

section Conditions

variable {entry : Registers} {old : Memory 32} {need dest src count size : Nat}

def Leads (inst : MCInst) (before after : State → Prop) : Prop :=
  ∀ state, before state → ∀ result, execute inst state = some result →
    result.2 = none ∧ after result.1

theorem leads_of_exec {inst : MCInst} {before after : State → Prop}
    (executed : ∀ registers memory, before (registers, memory) → ∃ next nextMemory,
      execRoutine inst registers memory = some ⟨next, nextMemory, none⟩ ∧
        after (next, nextMemory)) :
    Leads inst before after := by
  intro state holds result found
  obtain ⟨next, nextMemory, ran, holdsNext⟩ := executed state.1 state.2 holds
  rw [execute, ran, Option.map_some, Option.some.injEq] at found
  subst found
  exact ⟨rfl, holdsNext⟩

theorem routine_of_aligned {inst : MCInst} {registers : Registers} {memory : Memory 32}
    {effect : Effect} (executed : execAligned inst registers memory = some effect) :
    execRoutine inst registers memory = some effect := by
  rw [execAligned] at executed
  split at executed
  · exact executed
  · cases executed

/-- The assertions of the copy are about three registers and the memory. -/
theorem within_congr {registers next : Registers} {memory : Memory 32}
    (same : ∀ index : Fin 64, index.val ≤ 2 → next.gpr index = registers.gpr index)
    (within : Within entry old need dest src count (registers, memory)) :
    Within entry old need dest src count (next, memory) := by
  obtain ⟨⟨done, enough, first, second, third⟩, untouched⟩ := within
  refine ⟨⟨done, enough, ?_, ?_, ?_⟩, untouched⟩
  · exact (same 0 (by decide)).trans first
  · exact (same 1 (by decide)).trans second
  · exact (congrArg BitVec.toNat (same 2 (by decide))).trans third

theorem within_set {registers : Registers} {memory : Memory 32} {dst : Fin 64}
    (scratch : 2 < dst.val) (value : Word)
    (within : Within entry old need dest src count (registers, memory)) :
    Within entry old need dest src count (registers.setGpr dst value, memory) := by
  refine within_congr (fun index low => ?_) within
  rw [set_gpr_gpr, Function.update_of_ne]
  rintro rfl
  omega

theorem leads_move {dst : Fin 64} (scratch : 2 < dst.val) (from_ : Fin 64) :
    Leads (move_i32 dst from_) (Within entry old need dest src count)
      (Within entry old need dest src count) :=
  leads_of_exec fun registers memory within => ⟨_, _,
    routine_of_aligned (aligned_move registers memory dst from_), within_set scratch _ within⟩

theorem leads_and {dst : Fin 64} (scratch : 2 < dst.val) (from_ : Fin 64) {mask : Int}
    (fits : SignedFits 9 mask) :
    Leads (arithi .AND dst from_ mask) (Within entry old need dest src count)
      (Within entry old need dest src count) :=
  leads_of_exec fun registers memory within => ⟨_, _,
    routine_of_aligned (aligned_arithi registers memory rfl dst from_ fits),
    within_set scratch _ within⟩

theorem leads_cmpeq {dst : Fin 64} (scratch : 2 < dst.val) (src0 src1 : Fin 64) :
    Leads (cmpeq_i32 dst src0 src1) (Within entry old need dest src count)
      (Within entry old need dest src count) :=
  leads_of_exec fun registers memory within => ⟨_, _,
    routine_of_aligned (aligned_cmpeq registers memory dst src0 src1), within_set scratch _ within⟩

theorem leads_compared {size : Int} (fits : SignedFits 9 size) :
    Leads (cmpulti 4 2 size) (Between entry old) (Compared entry old size) :=
  leads_of_exec fun registers memory within => ⟨_, _,
    routine_of_aligned (aligned_cmpulti registers memory 4 2 fits),
    within_set (by decide) _ within, by
      simp only [set_gpr_gpr, Function.update_self]
      rw [Function.update_of_ne (by decide)]⟩

theorem untouched_store {memory : Memory 32} {done : Nat} (untouched : Untouched entry old memory)
    (enough : done + size ≤ (entry.gpr 2).toNat) (value : BitVec (8 * size)) :
    Untouched entry old (storeWord memory (entry.gpr 0 + BitVec.ofNat 32 done) size value) := by
  intro cell outside
  have total := (entry.gpr 2).isLt
  rw [storeWord, store_outside, untouched cell outside]
  rw [bytes_length, offset_from_above _ _ (by omega), if_pos (by omega)]
  omega

theorem within_store {registers : Registers} {memory : Memory 32} (value : BitVec (8 * size))
    (within : Within entry old size 0 0 0 (registers, memory)) :
    Within entry old size 0 0 0 (registers, storeWord memory (registers.gpr 0) size value) := by
  obtain ⟨⟨done, enough, first, rest⟩, untouched⟩ := within
  refine ⟨⟨done, enough, first, rest⟩, ?_⟩
  have address : registers.gpr 0 = entry.gpr 0 + BitVec.ofNat 32 (done + 0) := first
  rw [address]
  exact untouched_store untouched enough value

theorem leads_load_byte : Leads (loadFrom .L32BU 4 1) (Within entry old need dest src count)
    (Within entry old need dest src count) :=
  leads_of_exec fun registers memory within => ⟨_, _,
    routine_of_aligned (load_byte 4 1 registers memory), within_set (by decide) _ within⟩

theorem leads_store_byte : Leads (storeTo .S32B 4 0) (Within entry old 1 0 0 0)
    (Within entry old 1 0 0 0) :=
  leads_of_exec fun registers memory within => ⟨_, _,
    routine_of_aligned (store_byte 4 0 registers memory), within_store _ within⟩

theorem leads_load_word : Leads (loadFrom .L32W 4 1) (Within entry old need dest src count)
    (Within entry old need dest src count) :=
  leads_of_exec fun registers memory within => ⟨_, _,
    exec_routine_of_exec (exec_load registers memory 4 1 (by decide)),
    within_set (by decide) _ within⟩

theorem leads_store_word : Leads (storeTo .S32W 4 0) (Within entry old 4 0 0 0)
    (Within entry old 4 0 0 0) := by
  apply leads_of_exec
  intro registers memory within
  have stores := exec_store registers memory 4 0 (show SignedFits 9 0 by decide)
  rw [show registers.gpr 0 + BitVec.ofInt 32 0 = registers.gpr 0 from BitVec.add_zero _] at stores
  exact ⟨_, _, exec_routine_of_exec stores, within_store _ within⟩

theorem leads_load_vector : Leads (load_v16i32 0 1) (Within entry old need dest src count)
    (Within entry old need dest src count) :=
  leads_of_exec fun registers memory within => ⟨_, _,
    exec_routine_of_exec (exec_load_vector registers memory 0 1 (by decide)),
    within_congr (fun _ _ => rfl) within⟩

theorem leads_store_vector : Leads (store_v16i32 0 0) (Within entry old 64 0 0 0)
    (Within entry old 64 0 0 0) := by
  apply leads_of_exec
  intro registers memory within
  have stores := exec_store_vector registers memory 0 0 (show SignedFits 9 0 by decide)
  rw [show registers.gpr 0 + BitVec.ofInt 32 0 = registers.gpr 0 from BitVec.add_zero _] at stores
  exact ⟨_, _, exec_routine_of_exec stores, within_store _ within⟩

theorem leads_advance (fits : SignedFits 9 size) :
    Leads (arithi .ADD 0 0 size) (Within entry old size 0 0 0) (Within entry old size size 0 0) ∧
      Leads (arithi .ADD 1 1 size) (Within entry old size size 0 0)
        (Within entry old size size size 0) := by
  constructor
  · refine leads_of_exec fun registers memory within => ⟨_, _,
      routine_of_aligned (aligned_arithi registers memory rfl 0 0 fits), ?_⟩
    obtain ⟨⟨done, enough, first, second, third⟩, untouched⟩ := within
    refine ⟨⟨done, enough, ?_, ?_, ?_⟩, untouched⟩
    · simp only at first ⊢
      rw [set_gpr_gpr, Function.update_self, first, BitVec.ofInt_natCast, BitVec.add_assoc,
        ← BitVec.ofNat_add, Nat.add_zero]
    · exact second
    · exact third
  · refine leads_of_exec fun registers memory within => ⟨_, _,
      routine_of_aligned (aligned_arithi registers memory rfl 1 1 fits), ?_⟩
    obtain ⟨⟨done, enough, first, second, third⟩, untouched⟩ := within
    refine ⟨⟨done, enough, ?_, ?_, ?_⟩, untouched⟩
    · exact first
    · simp only at second ⊢
      rw [set_gpr_gpr, Function.update_self, second, BitVec.ofInt_natCast, BitVec.add_assoc,
        ← BitVec.ofNat_add, Nat.add_zero]
    · exact third

theorem leads_count (fits : SignedFits 9 size) :
    Leads (arithi .SUB 2 2 size) (Within entry old size size size 0)
      (Within entry old size size size size) := by
  refine leads_of_exec fun registers memory within => ⟨_, _,
    routine_of_aligned (aligned_arithi registers memory rfl 2 2 fits), ?_⟩
  obtain ⟨⟨done, enough, first, second, third⟩, untouched⟩ := within
  have total := (entry.gpr 2).isLt
  refine ⟨⟨done, enough, first, second, ?_⟩, untouched⟩
  simp only at third ⊢
  rw [set_gpr_gpr, Function.update_self, BitVec.ofInt_natCast, BitVec.toNat_sub, third,
    BitVec.toNat_ofNat]
  omega

theorem between_of_piece {state : State} (within : Within entry old size size size size state) :
    Between entry old state := by
  obtain ⟨⟨done, enough, first, second, third⟩, untouched⟩ := within
  exact ⟨⟨done + size, enough, first, second, third⟩, untouched⟩

end Conditions

section Blocks

variable {entry : Registers} {old : Memory 32} {size : Nat} {blocks : Annotated MCInst State}
  {behind : State → Prop} {rest : List (MCInst × (State → Prop))}

theorem follows_leads {inst : MCInst} {before after : State → Prop}
    (leads : Leads inst before after)
    (next : front behind rest = after) (follows : Follows execute blocks behind rest) :
    Follows execute blocks behind ((inst, before) :: rest) := by
  refine ⟨fun state holds result executed => ?_, follows⟩
  obtain ⟨straight, holdsNext⟩ := leads state holds result executed
  rw [straight, Option.elim_none, next]
  exact holdsNext

theorem follows_jump {label : Label} {before : State → Prop}
    (target : ∀ state, before state → Assertions.entry blocks label.number state)
    (follows : Follows execute blocks behind rest) :
    Follows execute blocks behind ((jmp label, before) :: rest) := by
  refine ⟨fun state holds result executed => ?_, follows⟩
  rw [execute, routine_of_aligned (aligned_jmp state.1 state.2 label), Option.map_some,
    Option.some.injEq] at executed
  subst executed
  exact target state holds

theorem follows_beqz {cond : Fin 64} {label : Label} {before : State → Prop}
    (taken : ∀ state, before state → state.1.gpr cond = 0 →
      Assertions.entry blocks label.number state)
    (passed : ∀ state, before state → state.1.gpr cond ≠ 0 → front behind rest state)
    (follows : Follows execute blocks behind rest) :
    Follows execute blocks behind ((beqz cond label, before) :: rest) := by
  refine ⟨fun state holds result executed => ?_, follows⟩
  rw [execute, routine_of_aligned (aligned_beqz state.1 state.2 cond label), Option.map_some,
    Option.some.injEq] at executed
  subst executed
  by_cases zero : state.1.gpr cond = 0
  · simp only [zero, if_true, Option.elim_some]
    exact taken state holds zero
  · simp only [zero, if_false, Option.elim_none]
    exact passed state holds zero

theorem follows_bnez {cond : Fin 64} {label : Label} {before : State → Prop}
    (taken : ∀ state, before state → Assertions.entry blocks label.number state)
    (passed : ∀ state, before state → state.1.gpr cond = 0 → front behind rest state)
    (follows : Follows execute blocks behind rest) :
    Follows execute blocks behind ((bnez cond label, before) :: rest) := by
  refine ⟨fun state holds result executed => ?_, follows⟩
  rw [execute, routine_of_aligned (aligned_bnez state.1 state.2 cond label), Option.map_some,
    Option.some.injEq] at executed
  subst executed
  by_cases zero : state.1.gpr cond = 0
  · simp only [ne_eq, zero, not_true_eq_false, if_false, Option.elim_none]
    exact passed state holds zero
  · simp only [ne_eq, zero, not_false_eq_true, if_true, Option.elim_some]
    exact taken state holds

theorem follows_piece {load store : MCInst} {loop : Label} (fits : SignedFits 9 size)
    (loads : Leads load (Within entry old size 0 0 0) (Within entry old size 0 0 0))
    (stores : Leads store (Within entry old size 0 0 0) (Within entry old size 0 0 0))
    (start : Assertions.entry blocks loop.number = Between entry old) :
    Follows execute blocks behind (annotatedPiece entry old load store size loop) := by
  refine follows_leads loads rfl (follows_leads stores rfl (follows_leads (leads_advance fits).1 rfl
    (follows_leads (leads_advance fits).2 rfl (follows_leads (leads_count fits) rfl
      (follows_jump (fun state within => ?_) trivial)))))
  rw [start]
  exact between_of_piece within

theorem within_of_more {state : State} (between : Between entry old state)
    (more : size ≤ (state.1.gpr 2).toNat) : Within entry old size 0 0 0 state := by
  obtain ⟨⟨done, enough, first, second, third⟩, untouched⟩ := between
  exact ⟨⟨done, by omega, first, second, third⟩, untouched⟩

theorem follows_check {mask : Int} (fits : SignedFits 9 mask) {label : Label}
    (differ : Assertions.entry blocks label.number = Between entry old)
    (next : behind = Between entry old) :
    Follows execute blocks behind (annotate (Between entry old)
      [arithi .AND 3 0 mask, arithi .AND 4 1 mask, cmpeq_i32 5 3 4, beqz 5 label]) := by
  refine follows_leads (leads_and (by decide) 0 fits) rfl (follows_leads
    (leads_and (by decide) 1 fits) rfl (follows_leads (leads_cmpeq (by decide) 3 4) rfl
      (follows_beqz (fun state between _ => ?_) (fun state between _ => ?_) trivial)))
  · rw [differ]
    exact between
  · rw [next]
    exact between

theorem follows_bytes {loop : Label}
    (start : Assertions.entry blocks loop.number = Between entry old)
    (done : Assertions.entry blocks Label.copy_done.number =
      fun state => Untouched entry old state.2) :
    Follows execute blocks behind
      (annotate (Between entry old) [beqz 2 .copy_done] ++ annotatedByte entry old loop) := by
  refine follows_beqz (fun state between _ => ?_) (fun state between more => ?_)
    (follows_piece (by decide) leads_load_byte leads_store_byte start)
  · rw [done]
    exact between.2
  · apply within_of_more between
    have positive : (state.1.gpr 2).toNat ≠ 0 := fun zero => more (BitVec.eq_of_toNat_eq zero)
    omega

theorem follows_lead_in {mask : Int} (fits : SignedFits 9 mask) {loop next : Label}
    (start : Assertions.entry blocks loop.number = Between entry old)
    (aligned : Assertions.entry blocks next.number = Between entry old)
    (done : Assertions.entry blocks Label.copy_done.number =
      fun state => Untouched entry old state.2) :
    Follows execute blocks behind
      (annotate (Between entry old) [arithi .AND 4 0 mask, beqz 4 next, beqz 2 .copy_done] ++
        annotatedByte entry old loop) := by
  refine follows_leads (leads_and (by decide) 0 fits) rfl (follows_beqz (fun state between _ => ?_)
    (fun state between _ => between) (follows_bytes start done))
  rw [aligned]
  exact between

theorem follows_pieces (fits : SignedFits 9 size) {load store : MCInst} {loop next : Label}
    (loads : Leads load (Within entry old size 0 0 0) (Within entry old size 0 0 0))
    (stores : Leads store (Within entry old size 0 0 0) (Within entry old size 0 0 0))
    (start : Assertions.entry blocks loop.number = Between entry old)
    (short : Assertions.entry blocks next.number = Between entry old) :
    Follows execute blocks behind
      ([(cmpulti 4 2 size, Between entry old), (bnez 4 next, Compared entry old size)] ++
        annotatedPiece entry old load store size loop) := by
  refine follows_leads (leads_compared fits) rfl (follows_bnez (fun state compared => ?_)
    (fun state compared enough => ?_) (follows_piece fits loads stores start))
  · rw [short]
    exact compared.1
  · apply within_of_more compared.1
    rw [compared.2, compare_result_zero_iff, BitVec.ult, decide_eq_false_iff_not,
      size_to_nat fits] at enough
    exact Nat.not_lt.mp enough

theorem follows_last : Follows execute blocks behind
    (annotate (fun state => Untouched entry old state.2) [move_i32 0 6, jret]) := by
  refine follows_leads (leads_of_exec fun registers memory untouched => ⟨_, _,
    routine_of_aligned (aligned_move registers memory 0 6), untouched⟩) rfl ⟨?_, trivial⟩
  intro state _ result executed
  cases executed

theorem annotated_proved (entry : Registers) (old : Memory 32) :
    Proved execute (annotated entry old) := by
  intro block code laidOut
  have inside : block < 8 := (List.getElem?_eq_some_iff.mp laidOut).1
  have blocks : block = 0 ∨ block = 1 ∨ block = 2 ∨ block = 3 ∨ block = 4 ∨ block = 5 ∨ block = 6 ∨
      block = 7 := by omega
  rcases blocks with rfl | rfl | rfl | rfl | rfl | rfl | rfl | rfl <;> cases laidOut
  · exact follows_leads (leads_move (by decide) 0) rfl (follows_check (by decide) rfl rfl)
  · exact follows_lead_in (by decide) rfl rfl rfl
  · exact follows_pieces (by decide) leads_load_vector leads_store_vector rfl rfl
  · exact follows_check (by decide) rfl rfl
  · exact follows_lead_in (by decide) rfl rfl rfl
  · exact follows_pieces (by decide) leads_load_word leads_store_word rfl rfl
  · exact follows_bytes rfl rfl
  · exact follows_last

end Blocks

section Accesses

variable {entry : Registers} {old : Memory 32}

/-- What a state of the copy is in front of its instruction. -/
def pointOf (state : Thread × Memory 32) : Point State :=
  ⟨state.1.block, state.1.index, (state.1.registers, state.2)⟩

theorem point_step {program : Program} {state next : Thread × Memory 32}
    (stepped : stepLabelled program state = some next) :
    Assertions.step execute program (pointOf state) = some (pointOf next) := by
  simp only [stepLabelled, Option.bind_eq_some_iff, Option.map_eq_some_iff] at stepped
  obtain ⟨code, laidOut, inst, here, ⟨registers, memory, target⟩, executed, rfl⟩ := stepped
  simp only [Assertions.step, pointOf, laidOut, Option.bind_some, here, execute, executed,
    Option.map_some, follow, advance]
  cases target with
  | none =>
      simp only
      split <;> rfl
  | some label => rfl

/-- What an assertion in front of an instruction is for. -/
def Safe (entry : Registers) (old : Memory 32) (item : MCInst × (State → Prop)) : Prop :=
  ∀ state : State, item.2 state → AccessInside entry item.1 state.1 ∧ Untouched entry old state.2

theorem safe_quiet {inst : MCInst} (quiet : accessOf inst = .none) {assertion : State → Prop}
    (untouched : ∀ state, assertion state → Untouched entry old state.2) :
    Safe entry old (inst, assertion) := by
  intro state holds
  refine ⟨?_, untouched state holds⟩
  rw [AccessInside, quiet]
  trivial

theorem safe_annotate {assertion : State → Prop}
    (untouched : ∀ state, assertion state → Untouched entry old state.2) {code : List MCInst}
    (quiet : ∀ inst ∈ code, accessOf inst = .none) :
    ∀ item ∈ annotate assertion code, Safe entry old item := by
  intro item member
  obtain ⟨inst, present, rfl⟩ := List.mem_map.mp member
  exact safe_quiet (quiet inst present) untouched

theorem safe_piece {load store : MCInst} {size : Nat} {loop : Label}
    (loads : accessOf load = .load ∧ accessBytes load = size ∧
      ∀ registers, fieldAddress load registers = registers.gpr 1)
    (stores : accessOf store = .store ∧ accessBytes store = size ∧
      ∀ registers, fieldAddress store registers = registers.gpr 0) :
    ∀ item ∈ annotatedPiece entry old load store size loop, Safe entry old item := by
  simp only [annotatedPiece, copyPiece, List.zip_cons_cons, List.zip_nil_right,
    List.forall_mem_cons]
  refine ⟨?_, ?_, safe_quiet rfl fun _ => And.right, safe_quiet rfl fun _ => And.right,
    safe_quiet rfl fun _ => And.right, safe_quiet rfl fun _ => And.right, List.forall_mem_nil _⟩
  · rintro state ⟨⟨done, enough, -, second, -⟩, untouched⟩
    refine ⟨?_, untouched⟩
    rw [AccessInside, loads.1]
    refine ⟨done, by rw [loads.2.1]; exact enough, ?_⟩
    rw [loads.2.2, second, Nat.add_zero]
  · rintro state ⟨⟨done, enough, first, -, -⟩, untouched⟩
    refine ⟨?_, untouched⟩
    rw [AccessInside, stores.1]
    refine ⟨done, by rw [stores.2.1]; exact enough, ?_⟩
    rw [stores.2.2, first, Nat.add_zero]

theorem safe_byte (loop : Label) : ∀ item ∈ annotatedByte entry old loop, Safe entry old item :=
  safe_piece ⟨rfl, rfl, scalar_address 1 rfl⟩ ⟨rfl, rfl, scalar_address 0 rfl⟩

theorem safe_annotated : ∀ code ∈ annotated entry old, ∀ item ∈ code, Safe entry old item := by
  have between : ∀ state, Between entry old state → Untouched entry old state.2 :=
    fun _ => And.right
  have compared {size : Int} : ∀ state, Compared entry old size state →
      Untouched entry old state.2 := fun _ holds => holds.1.2
  simp only [annotated, List.forall_mem_cons, List.forall_mem_append]
  refine ⟨safe_annotate between (by decide), ⟨safe_annotate between (by decide), safe_byte _⟩,
    ⟨⟨safe_quiet rfl between, safe_quiet rfl compared, List.forall_mem_nil _⟩,
      safe_piece ⟨rfl, rfl, scalar_address 1 rfl⟩ ⟨rfl, rfl, scalar_address 0 rfl⟩⟩,
    safe_annotate between (by decide), ⟨safe_annotate between (by decide), safe_byte _⟩,
    ⟨⟨safe_quiet rfl between, safe_quiet rfl compared, List.forall_mem_nil _⟩,
      safe_piece ⟨rfl, rfl, scalar_address 1 rfl⟩ ⟨rfl, rfl, scalar_address 0 rfl⟩⟩,
    ⟨safe_annotate between (by decide), safe_byte _⟩,
    safe_annotate (fun _ => id) (by decide), List.forall_mem_nil _⟩

/-- A thread of the copy stays within the assertions. -/
theorem asserted_reached {memory : Memory 32} {count : Nat} {state : Thread × Memory 32}
    (run : iterate Memcpy.step count (⟨Label.memcpy.number, 0, entry⟩, memory) = some state) :
    Asserted (annotated entry memory) (pointOf state) := by
  have started : Assertions.entry (annotated entry memory) Label.memcpy.number (entry, memory) := by
    refine ⟨⟨0, Nat.zero_le _, ?_, ?_, rfl⟩, fun _ _ => rfl⟩
    · exact (BitVec.add_zero _).symm
    · exact (BitVec.add_zero _).symm
  have viewed : iterate (Assertions.step execute memcpy) count
      (pointOf (⟨Label.memcpy.number, 0, entry⟩, memory)) = some (pointOf state) :=
    @iterate_viewed _ Memcpy.step _ _ pointOf (fun _ => True)
      (fun _ _ stepped _ => point_step stepped) _ _ _ run fun _ _ _ _ => trivial
  exact asserted_run (annotated_proved entry memory) started viewed

theorem inside_of_asserted {state : Thread × Memory 32} {inst : MCInst}
    (asserted : Asserted (annotated entry old) (pointOf state))
    (here : nextInst state.1 = some inst) :
    AccessInside entry inst state.1.registers ∧ Untouched entry old state.2 := by
  rw [nextInst, Option.bind_eq_some_iff, ← items_annotated entry old] at here
  obtain ⟨_, laidOut, here⟩ := here
  rw [items, List.getElem?_map, Option.map_eq_some_iff] at laidOut
  obtain ⟨code, laidOut, rfl⟩ := laidOut
  rw [List.getElem?_map, Option.map_eq_some_iff] at here
  obtain ⟨⟨_, assertion⟩, here, rfl⟩ := here
  exact safe_annotated code (List.mem_of_getElem? laidOut) _ (List.mem_of_getElem? here) _
    (asserted code _ _ laidOut here)

/-- Whatever it was called with, the copy is never about to access anything outside of its two
buffers, and at no time has it changed anything outside of the destination. -/
theorem memcpy_stays_inside (entry : Registers) (memory : Memory 32) (count : Nat)
    (state : Thread × Memory 32) (inst : MCInst)
    (run : iterate Memcpy.step count (⟨Label.memcpy.number, 0, entry⟩, memory) = some state)
    (here : nextInst state.1 = some inst) :
    AccessInside entry inst state.1.registers ∧ Untouched entry memory state.2 :=
  inside_of_asserted (asserted_reached run) here

/-- Eight bytes into the word in front of them: the copy reads what it has written. -/
def overlapping : Registers :=
  ⟨fun index => if index = 0 then 0x1000 else if index = 1 then 0x1004 else 8, fun _ => 0⟩

theorem overlapping_stays_inside :
    ∃ state, iterate Memcpy.step 14 (⟨Label.memcpy.number, 0, overlapping⟩, fun _ => 0) =
        some state ∧
      AccessInside overlapping (storeTo .S32W 4 0) state.1.registers ∧
      Untouched overlapping (fun _ => 0) state.2 := by
  have reached : (iterate Memcpy.step 14 (⟨Label.memcpy.number, 0, overlapping⟩, fun _ => 0)).map
      (fun state => nextInst state.1) = some (some (storeTo .S32W 4 0)) := by
    decide +kernel
  obtain ⟨state, run, here⟩ := Option.map_eq_some_iff.mp reached
  exact ⟨state, run, memcpy_stays_inside overlapping (fun _ => 0) 14 state _ run here⟩

end Accesses

section Image

variable {entry : Registers} {memory : Memory 32} {base : Word} {bytes : List Byte}

theorem memcpy_routine : Routine memcpy := routine_of_check (by decide)

theorem words_stay (holds : Holds base bytes memory)
    (apart : Apart (entry.gpr 0) (entry.gpr 2).toNat base bytes.length) {other : Memory 32}
    (untouched : Untouched entry memory other) : Holds base bytes other := by
  have same : loadBytes other base bytes.length = loadBytes memory base bytes.length := by
    apply List.map_congr_left
    intro offset member
    exact untouched _ (apart offset (List.mem_range.mp member))
  rw [Holds, same]
  exact holds

theorem inst_of_run {rest : Nat} {state final : Thread × Memory 32}
    (run : iterate Memcpy.step rest state = some final) (returned : nextInst final.1 = some jret) :
    ∃ inst, nextInst state.1 = some inst := by
  cases rest with
  | zero =>
      rw [iterate, Option.some.injEq] at run
      rw [run]
      exact ⟨jret, returned⟩
  | succ rest =>
      rw [iterate, Option.bind_eq_some_iff] at run
      obtain ⟨next, stepped, -⟩ := run
      simp only [Memcpy.step, stepWith, Option.bind_eq_some_iff] at stepped
      obtain ⟨code, laidOut, inst, here, -⟩ := stepped
      exact ⟨inst, by rw [nextInst, laidOut, Option.bind_some, here]⟩

theorem memcpy_returns (call : Call entry) (memory : Memory 32) :
    ∃ count registers content, iterate Memcpy.step count
        (⟨Label.memcpy.number, 0, entry⟩, memory) = some (⟨7, 1, registers⟩, content) ∧
      registers.gpr 0 = entry.gpr 0 ∧
      content = copied memory (entry.gpr 0) (entry.gpr 1) (entry.gpr 2).toNat ∧
      ∀ register ∈ calleeSavedRegs, valueOf registers register = valueOf entry register := by
  obtain ⟨middle, reached, registers, content, rfl, progress⟩ := memcpy_finishes call memory
  have last : Runs (⟨7, 0, registers⟩, content)
      (⟨7, 1, registers.setGpr 0 (registers.gpr 6)⟩, content) :=
    runs_next rfl rfl (aligned_move registers content 0 6) (by decide)
  obtain ⟨count, run⟩ := reaches_trans reached last
  obtain ⟨whole, -⟩ := iterate_restricted (fun _ _ => aligned_step) run
  refine ⟨count, _, _, whole, ?_, progress.content, fun register saved => ?_⟩
  · rw [set_gpr_gpr, Function.update_self, progress.result]
  · rw [value_of_set_gpr_other, progress.saved register saved]
    revert register
    decide

/-- The words of the copy, wherever they are and whoever resolved their branches, copy the block
and go back to their caller. -/
theorem memcpy_image_copies (resolvers : Nat → Resolver)
    (assembled : image base resolvers memcpy = some bytes) (holds : Holds base bytes memory)
    (call : Call entry) (apart : Apart (entry.gpr 0) (entry.gpr 2).toNat base bytes.length) :
    ∃ count registers final, iterate stepHart count (⟨base, entry⟩, memory) =
        some (⟨entry.gpr RA_REG.encoding, registers⟩, final) ∧
      registers.gpr 0 = entry.gpr 0 ∧
      (∀ offset < (entry.gpr 2).toNat, final (entry.gpr 0 + BitVec.ofNat 32 offset) =
        memory (entry.gpr 1 + BitVec.ofNat 32 offset)) ∧
      Untouched entry memory final ∧
      ∀ register ∈ calleeSavedRegs, valueOf registers register = valueOf entry register := by
  obtain ⟨count, registers, content, run, result, rfl, saved⟩ := memcpy_returns call memory
  have labelled : iterate (stepLabelled memcpy) count
      (⟨Label.memcpy.number, 0, entry⟩, memory) = some (⟨7, 1, registers⟩, _) := run
  have held (index : Nat) (below : index ≤ count) (reached : Thread × Memory 32)
      (part : iterate (stepLabelled memcpy) index (⟨Label.memcpy.number, 0, entry⟩, memory) =
        some reached) : Holds base bytes reached.2 := by
    obtain ⟨rest, rfl⟩ := Nat.exists_eq_add_of_le below
    rw [iterate_add, part, Option.bind_some] at labelled
    obtain ⟨inst, here⟩ := inst_of_run labelled rfl
    exact words_stay holds apart (inside_of_asserted (asserted_reached part) here).2
  have along := hart_run memcpy_routine assembled labelled fun index below =>
    held index (Nat.le_of_lt below)
  have laidOut : memcpy[(⟨7, 1, registers⟩ : Thread).block]? = some [move_i32 0 6, jret] := rfl
  have returns := hart_return memcpy_routine assembled (held count le_rfl _ labelled) laidOut rfl
  have started : fetching base memcpy (⟨Label.memcpy.number, 0, entry⟩, memory) =
      (⟨base, entry⟩, memory) := by
    simp [fetching, hartOf, CodeLayout.position, Label.number]
  have total := (entry.gpr 2).isLt
  have address : registers.gpr RA_REG.encoding = entry.gpr RA_REG.encoding :=
    saved RA_REG (by decide)
  rw [started] at along
  rw [address] at returns
  refine ⟨count + 1, registers, _, iterate_trans along ((iterate_one _).trans returns), result,
    fun offset inside => ?_, fun cell outside => ?_, saved⟩
  · exact copied_inside memory _ _ inside (by omega)
  · exact if_neg (Nat.not_lt.mpr outside)

/-- The words of the copy at `0x4000`, every other one resolved by the linker. -/
theorem seventy_bytes_copied_by_words :
    ∃ bytes count registers final,
      image 0x4000 (fun place => if place % 2 = 0 then .linker else .assembler) memcpy =
        some bytes ∧
      iterate stepHart count (⟨0x4000, seventyBytes⟩,
        storeBytes (fun cell => cell.setWidth 8) 0x4000 bytes) =
          some (⟨seventyBytes.gpr RA_REG.encoding, registers⟩, final) ∧
      registers.gpr 0 = seventyBytes.gpr 0 ∧
      (∀ offset < (seventyBytes.gpr 2).toNat, final (seventyBytes.gpr 0 + BitVec.ofNat 32 offset) =
        storeBytes (fun cell => cell.setWidth 8) 0x4000 bytes
          (seventyBytes.gpr 1 + BitVec.ofNat 32 offset)) ∧
      Untouched seventyBytes (storeBytes (fun cell => cell.setWidth 8) 0x4000 bytes) final ∧
      ∀ register ∈ calleeSavedRegs,
        valueOf registers register = valueOf seventyBytes register := by
  obtain ⟨bytes, assembled, length⟩ := CodeLayout.emit_defined
    (@routine_encodable 0x4000 (fun place => if place % 2 = 0 then .linker else .assembler) memcpy
      memcpy_routine)
  have size : bytes.length = 208 := length
  have call : Call seventyBytes := ⟨by decide, by decide, Or.inl (by decide)⟩
  have holds : Holds 0x4000 bytes (storeBytes (fun cell => cell.setWidth 8) 0x4000 bytes) :=
    load_store_same _ _ (by omega)
  have apart : Apart (seventyBytes.gpr 0) (seventyBytes.gpr 2).toNat 0x4000 bytes.length := by
    have above := @apart_of_above 32 (seventyBytes.gpr 0) (seventyBytes.gpr 2).toNat 0x2ffd 208
      (by decide) (by decide)
    have place : seventyBytes.gpr 0 + BitVec.ofNat 32 0x2ffd = 0x4000 := by decide
    rw [size, ← place]
    exact above
  obtain ⟨count, registers, final, copied⟩ :=
    memcpy_image_copies _ assembled holds call apart
  exact ⟨bytes, count, registers, final, assembled, copied⟩

end Image

end NaplesPU.MemcpyImage
