import NaplesPU.FrameLowering

/-!
The code that loads constants. A constant takes one or two moves of sixteen bits; a float takes
two, and a displacement of the stack pointer goes through a register where nine bits are too
few for it.
-/

namespace NaplesPU.ConstantLoads

open ByteMemory TwosComplement
open RegisterInfo InstrInfo FixupKinds MCCodeEmitter Machine StackSlots FrameLowering

section Emission

/-- The two moves of an immediate, which the compiler keeps in sixty-four signed bits. -/
def insertLoad32Immediate (destReg : Register) (immediate : BitVec 64) : List MCInst :=
  [⟨.moveImm .MOVEIH .SI, [.reg destReg, .imm (immediate.sshiftRight 16 &&& 0xFFFF).toInt]⟩,
    ⟨.moveImm .MOVEIL .SI, [.reg destReg, .imm (immediate &&& 0xFFFF).toInt]⟩]

def insertLoad32ImmediateZeroHigh (destReg : Register) (immediate : BitVec 64) : List MCInst :=
  [⟨.moveImm .MOVEI .SI, [.reg destReg, .imm immediate.toInt]⟩]

def emitLoadI32 (destReg : Register) (immOp : BitVec 64) : List MCInst :=
  if immOp &&& 0xFFFF0000 ≠ 0 then insertLoad32Immediate destReg immOp
  else insertLoad32ImmediateZeroHigh destReg immOp

/-- The immediate is the bit pattern of the float. -/
def emitLoadF32 (destReg : Register) (immOp : Word) : List MCInst :=
  insertLoad32Immediate destReg (immOp.setWidth 64)

end Emission

section Halves

theorem immediate_low (immediate : BitVec 64) :
    BitVec.ofInt 32 immediate.toInt = immediate.setWidth 32 := by
  apply BitVec.eq_of_toNat_eq
  rw [BitVec.toNat_ofInt, BitVec.toNat_setWidth, BitVec.toInt_eq_toNat_cond]
  split <;> omega

theorem wide_mask_bit (position : Nat) :
    (0xFFFF : BitVec 64).getLsbD position = decide (position < 16) := by
  have mask : (0xFFFF : BitVec 64).toNat = 2 ^ 16 - 1 := rfl
  rw [BitVec.getLsbD, mask, Nat.testBit_two_pow_sub_one]

theorem high_half_of_immediate (immediate : BitVec 64) :
    BitVec.ofInt 32 (immediate.sshiftRight 16 &&& 0xFFFF).toInt &&& (0xffff : Word) =
      immediate.setWidth 32 >>> 16 := by
  rw [immediate_low]
  apply BitVec.eq_of_getLsbD_eq
  intro position inside
  simp only [BitVec.getLsbD_and, BitVec.getLsbD_setWidth, BitVec.getLsbD_ushiftRight,
    BitVec.getLsbD_sshiftRight, wide_mask_bit, low_mask_bit]
  by_cases low : position < 16
  · simp [low, inside, show 16 + position < 32 by omega, show position < 64 by omega,
      show 16 + position < 64 by omega]
  · simp [low, show ¬ 16 + position < 32 by omega]

theorem low_half_of_immediate (immediate : BitVec 64) :
    BitVec.ofInt 32 (immediate &&& 0xFFFF).toInt &&& 0xffff =
      immediate.setWidth 32 &&& (0xffff : Word) := by
  rw [immediate_low]
  apply BitVec.eq_of_getLsbD_eq
  intro position inside
  simp only [BitVec.getLsbD_and, BitVec.getLsbD_setWidth, wide_mask_bit, low_mask_bit]
  by_cases low : position < 16 <;> simp [low]

/-- An immediate that has no bits in the high half is its low half. -/
theorem low_half_alone {immediate : BitVec 64} (highZero : immediate &&& 0xFFFF0000 = 0) :
    BitVec.ofInt 32 immediate.toInt &&& 0xffff = immediate.setWidth 32 := by
  rw [immediate_low]
  apply BitVec.eq_of_getLsbD_eq
  intro position inside
  simp only [BitVec.getLsbD_and, BitVec.getLsbD_setWidth, low_mask_bit]
  by_cases low : position < 16
  · simp [low]
  · have shifted : (0xFFFF0000 : BitVec 64) = (0xFFFF : BitVec 64) <<< 16 := rfl
    have mask : (0xFFFF0000 : BitVec 64).getLsbD position = true := by
      rw [shifted, BitVec.getLsbD_shiftLeft, wide_mask_bit]
      simp [low, show position < 64 by omega, show position - 16 < 16 by omega]
    have bit : (immediate &&& 0xFFFF0000).getLsbD position = false := by
      rw [highZero]
      exact BitVec.getLsbD_zero
    rw [BitVec.getLsbD_and, mask, Bool.and_true] at bit
    simp [bit]

end Halves

section Loads

variable (dst : Fin 64) (registers : Registers) (memory : Memory 32)

theorem insert_load_immediate_runs (immediate : BitVec 64) :
    execStraight (insertLoad32Immediate (sReg dst) immediate) registers memory =
      some (registers.setGpr dst (immediate.setWidth 32), memory) :=
  load_halves_runs registers memory dst (high_half_of_immediate immediate)
    (low_half_of_immediate immediate) []

theorem emit_load_integer_runs (immOp : BitVec 64) :
    execStraight (emitLoadI32 (sReg dst) immOp) registers memory =
      some (registers.setGpr dst (immOp.setWidth 32), memory) := by
  rw [emitLoadI32]
  by_cases highZero : immOp &&& 0xFFFF0000 = 0
  · rw [if_neg (not_not_intro highZero), insertLoad32ImmediateZeroHigh,
      exec_straight_cons (exec_move_immediate registers memory dst _), low_half_alone highZero]
    rfl
  · rw [if_pos highZero]
    exact insert_load_immediate_runs dst registers memory immOp

theorem emit_load_float_runs (immOp : Word) :
    execStraight (emitLoadF32 (sReg dst) immOp) registers memory =
      some (registers.setGpr dst immOp, memory) := by
  have loaded := insert_load_immediate_runs dst registers memory (immOp.setWidth 64)
  rw [BitVec.setWidth_setWidth_of_le _ (by decide), BitVec.setWidth_eq] at loaded
  exact loaded

/-- Every constant arrives in its register as it is, and the stack pointer moves by every
amount, whatever free register helps. -/
theorem constants_materialised (immOp : BitVec 64) (bits value amount : Word) {scratch : Fin 64}
    (free : sReg scratch ∉ getReservedRegs) :
    execStraight (emitLoadI32 (sReg dst) immOp) registers memory =
        some (registers.setGpr dst (immOp.setWidth 32), memory) ∧
      execStraight (emitLoadF32 (sReg dst) bits) registers memory =
        some (registers.setGpr dst bits, memory) ∧
      execStraight (loadConstant (sReg dst) value) registers memory =
        some (registers.setGpr dst value, memory) ∧
      ∃ adjusted, execStraight (adjustStackPointer amount scratch) registers memory =
          some (adjusted, memory) ∧
        adjusted.gpr 61 = registers.gpr 61 + amount := by
  have loaded := load_constant_runs value dst registers memory []
  rw [List.append_nil] at loaded
  obtain ⟨adjusted, ran, pointer, -⟩ := adjust_runs amount free (registers, memory)
  exact ⟨emit_load_integer_runs dst registers memory immOp,
    emit_load_float_runs dst registers memory bits, loaded, adjusted, ran, pointer⟩

def blank : Registers where
  gpr := fun _ => 0
  vec := fun _ => 0

/-- A low half with its highest bit set, a negative zero, a constant without a low half and the
least amount. -/
theorem edge_constants_materialised :
    execStraight (emitLoadI32 (sReg 5) 0x8000) blank (fun _ => 0) =
        some (blank.setGpr 5 0x8000, fun _ => 0) ∧
      execStraight (emitLoadF32 (sReg 5) 0x80000000) blank (fun _ => 0) =
        some (blank.setGpr 5 0x80000000, fun _ => 0) ∧
      execStraight (loadConstant (sReg 5) 0xfffe0000) blank (fun _ => 0) =
        some (blank.setGpr 5 0xfffe0000, fun _ => 0) ∧
      ∃ adjusted, execStraight (adjustStackPointer 0x80000000 9) blank (fun _ => 0) =
          some (adjusted, fun _ => 0) ∧
        adjusted.gpr 61 = 0 + 0x80000000 :=
  constants_materialised 5 blank (fun _ => 0) 0x8000 0x80000000 0xfffe0000 0x80000000 (by decide)

end Loads

end NaplesPU.ConstantLoads
