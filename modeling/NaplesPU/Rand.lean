import NaplesPU.Lib.AffineOrbits

/-!
The generator of the C library. The state is multiplied and incremented modulo
2^32, and a call returns its lower thirty-one bits. The multiplier is one modulo
four and the increment odd, so that the state goes through all words.
-/

namespace NaplesPU.Rand

open AffineOrbits Function

def rand (randseed : BitVec 32) : BitVec 32 × BitVec 32 :=
  let randseed := randseed * 1103515245 + 12345
  (randseed &&& 0x7fffffff, randseed)

def srand (seed : BitVec 32) : BitVec 32 := seed

def randseedAfter (seed : BitVec 32) : Nat → BitVec 32
  | 0 => srand seed
  | calls + 1 => (rand (randseedAfter seed calls)).2

/-- What the call after so many others returns. -/
def returned (seed : BitVec 32) (calls : Nat) : BitVec 32 := (rand (randseedAfter seed calls)).1

section States

theorem randseed_after_eq (seed : BitVec 32) (calls : Nat) :
    randseedAfter seed calls = (affine 1103515245 12345)^[calls] seed := by
  induction calls with
  | zero => rfl
  | succ calls induction =>
      rw [iterate_succ_apply', ← induction]
      rfl

theorem randseed_after_next (seed : BitVec 32) (calls : Nat) :
    randseedAfter seed (calls + 1) = randseedAfter (rand seed).2 calls := by
  rw [randseed_after_eq, randseed_after_eq, iterate_succ_apply]
  rfl

/-- The state takes every value once in as many calls as there are values. -/
theorem state_reached (seed state : BitVec 32) :
    ∃! calls, calls < 2 ^ 32 ∧ randseedAfter seed calls = state := by
  simp only [randseed_after_eq]
  exact exists_unique_word (by decide) (by decide) seed state

theorem state_repeats (seed : BitVec 32) (calls : Nat) :
    randseedAfter seed (calls + 2 ^ 32) = randseedAfter seed calls := by
  have period : minimalPeriod (affine 1103515245 12345) seed = 2 ^ 32 :=
    minimal_period_words (by decide) (by decide) seed
  rw [randseed_after_eq, randseed_after_eq, ← period, iterate_add_minimalPeriod_eq]

end States

section Results

/-- Two states have the lower bits of a result: the upper bit is free. -/
theorem masked_eq_iff (state : BitVec 32) (result : BitVec 31) :
    state &&& 0x7fffffff = result.setWidth 32 ↔
      state = result.setWidth 32 ∨ state = result.setWidth 32 + 0x80000000 := by
  have stateBound := state.isLt
  have resultBound := result.isLt
  have mask : state.toNat &&& (0x7fffffff : BitVec 32).toNat = state.toNat % 2 ^ 31 :=
    Nat.and_two_pow_sub_one_eq_mod state.toNat 31
  have upper : (0x80000000 : BitVec 32).toNat = 2 ^ 31 := rfl
  rw [← BitVec.toNat_inj, ← BitVec.toNat_inj, ← BitVec.toNat_inj, BitVec.toNat_and,
    BitVec.toNat_add, BitVec.toNat_setWidth, mask, upper]
  omega

theorem halves_differ (result : BitVec 31) :
    result.setWidth 32 ≠ result.setWidth 32 + 0x80000000 := by
  intro same
  exact absurd (left_eq_add.mp same) (by decide)

theorem returned_twice (seed : BitVec 32) (result : BitVec 31) :
    ((Finset.range (2 ^ 32)).filter fun call =>
      returned seed call = result.setWidth 32).card = 2 := by
  obtain ⟨first, ⟨firstBound, firstState⟩, firstOnly⟩ :=
    state_reached (rand seed).2 (result.setWidth 32)
  obtain ⟨second, ⟨secondBound, secondState⟩, secondOnly⟩ :=
    state_reached (rand seed).2 (result.setWidth 32 + 0x80000000)
  rw [Finset.card_eq_two]
  refine ⟨first, second, ?_, ?_⟩
  · rintro rfl
    exact halves_differ result (firstState.symm.trans secondState)
  · ext call
    have left : returned seed call = randseedAfter (rand seed).2 call &&& 0x7fffffff := by
      rw [← randseed_after_next]
      rfl
    rw [Finset.mem_filter, Finset.mem_range, Finset.mem_insert, Finset.mem_singleton, left,
      masked_eq_iff]
    constructor
    · rintro ⟨bounded, low | high⟩
      · exact Or.inl (firstOnly call ⟨bounded, low⟩)
      · exact Or.inr (secondOnly call ⟨bounded, high⟩)
    · rintro (rfl | rfl)
      · exact ⟨firstBound, Or.inl firstState⟩
      · exact ⟨secondBound, Or.inr secondState⟩

end Results

/-- From every seed the state takes each of its values once before it repeats, and in that
time each result is returned twice. -/
theorem rand_full_period (seed : BitVec 32) :
    (∀ state, ∃! calls, calls < 2 ^ 32 ∧ randseedAfter seed calls = state) ∧
      (∀ calls, randseedAfter seed (calls + 2 ^ 32) = randseedAfter seed calls) ∧
        ∀ result : BitVec 31, ((Finset.range (2 ^ 32)).filter fun call =>
          returned seed call = result.setWidth 32).card = 2 :=
  ⟨state_reached seed, state_repeats seed, returned_twice seed⟩

end NaplesPU.Rand
