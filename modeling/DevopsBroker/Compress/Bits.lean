import DevopsBroker.Lib.CanonicalCode

/-!
# `compress/bits.linux-x86_64.asm`: reversing bits

`reverse16` reverses a 16-bit value six bits at a time through a lookup table,
stopping early when the rest of the value is zero, and shifts the result down so
that only the lowest `numBits` bits of the value are left, reversed.

Mirroring notes vs the assembly source:
- The shift count `16 - numBits` is taken for `numBits ≤ 16`, as every caller
  has it.
-/

namespace DevopsBroker.Compress

open DevopsBroker.Lib

/-- `reverseBitLUT`: the reversals of all 6-bit values. -/
def reverseBitLUT : Array Nat :=
  #[0x00, 0x20, 0x10, 0x30, 0x08, 0x28, 0x18, 0x38, 0x04, 0x24, 0x14, 0x34, 0x0c, 0x2c, 0x1c, 0x3c,
    0x02, 0x22, 0x12, 0x32, 0x0a, 0x2a, 0x1a, 0x3a, 0x06, 0x26, 0x16, 0x36, 0x0e, 0x2e, 0x1e, 0x3e,
    0x01, 0x21, 0x11, 0x31, 0x09, 0x29, 0x19, 0x39, 0x05, 0x25, 0x15, 0x35, 0x0d, 0x2d, 0x1d, 0x3d,
    0x03, 0x23, 0x13, 0x33, 0x0b, 0x2b, 0x1b, 0x3b, 0x07, 0x27, 0x17, 0x37, 0x0f, 0x2f, 0x1f, 0x3f]

/-- `e474415b_reverse16`. -/
def reverse16 (value numBits : Nat) : Nat :=
  let reverse := reverseBitLUT.getD (value &&& 0x3F) 0 <<< 10
  let value := value >>> 6
  if value = 0 then reverse >>> (16 - numBits)
  else
    let reverse := reverse ||| reverseBitLUT.getD (value &&& 0x3F) 0 <<< 4
    let value := value >>> 6
    if value = 0 then reverse >>> (16 - numBits)
    else
      let reverse := reverse ||| reverseBitLUT.getD value 0 >>> 2
      reverse >>> (16 - numBits)

/-- The table reverses six bits. -/
theorem testBit_reverseBitLUT {x : Nat} (hx : x < 64) (j : Nat) :
    (reverseBitLUT.getD x 0).testBit j = (decide (j < 6) && x.testBit (5 - j)) := by
  rcases Nat.lt_or_ge j 6 with hj | hj
  · have hall : ∀ x < 64, ∀ j < 6,
        (reverseBitLUT.getD x 0).testBit j = x.testBit (5 - j) := by decide +kernel
    rw [hall x hx j hj, decide_eq_true hj, Bool.true_and]
  · have hall : ∀ x < 64, reverseBitLUT.getD x 0 < 2 ^ 6 := by decide +kernel
    have hpow : 2 ^ 6 ≤ 2 ^ j := Nat.pow_le_pow_right (by omega) hj
    rw [Nat.testBit_lt_two_pow (Nat.lt_of_lt_of_le (hall x hx) hpow),
      decide_eq_false (by omega), Bool.false_and]

/-- The early exits skip only zero bits. -/
theorem reverse16_eq (value numBits : Nat) :
    reverse16 value numBits =
      (reverseBitLUT.getD (value &&& 0x3F) 0 <<< 10
        ||| reverseBitLUT.getD (value >>> 6 &&& 0x3F) 0 <<< 4
        ||| reverseBitLUT.getD (value >>> 6 >>> 6) 0 >>> 2) >>> (16 - numBits) := by
  unfold reverse16
  dsimp only
  split
  next h => rw [h]; simp [reverseBitLUT]
  next =>
    split
    next h => rw [h]; simp [reverseBitLUT]
    next => rfl

/-- **`reverse16` reads the low bits of its value backwards.** -/
theorem reverse16_eq_msbFirst {value numBits : Nat} (hv : value < 2 ^ 16) (hn : numBits ≤ 16) :
    reverse16 value numBits = msbFirst value.testBit numBits := by
  refine Nat.eq_of_testBit_eq fun j => ?_
  have hand : ∀ x, x &&& 0x3F = x % 2 ^ 6 := fun x => Nat.and_two_pow_sub_one_eq_mod x 6
  have hmod : ∀ x, x % 2 ^ 6 < 64 := fun x => Nat.mod_lt x (by omega)
  have hhigh : value >>> 6 >>> 6 < 64 := by
    rw [Nat.shiftRight_eq_div_pow, Nat.shiftRight_eq_div_pow]
    omega
  rw [reverse16_eq, testBit_msbFirst, Nat.testBit_shiftRight, Nat.testBit_or, Nat.testBit_or,
    Nat.testBit_shiftLeft, Nat.testBit_shiftLeft, Nat.testBit_shiftRight, hand, hand,
    testBit_reverseBitLUT (hmod _), testBit_reverseBitLUT (hmod _), testBit_reverseBitLUT hhigh,
    Nat.testBit_mod_two_pow, Nat.testBit_mod_two_pow, Nat.testBit_shiftRight,
    Nat.testBit_shiftRight, Nat.testBit_shiftRight]
  rcases Nat.lt_or_ge j numBits with hj | hj
  · -- which of the three groups the bit comes from
    have hpos : 16 - numBits + j < 16 := by omega
    rw [decide_eq_true hj, Bool.true_and]
    generalize hk : 16 - numBits + j = k at hpos ⊢
    have hidx : numBits - 1 - j = 15 - k := by omega
    rw [hidx]
    rcases Nat.lt_or_ge k 4 with h4 | h4
    · rw [show 6 + (6 + (5 - (2 + k))) = 15 - k by omega]
      simp [show ¬ 10 ≤ k by omega, show ¬ 4 ≤ k by omega, show 2 + k < 6 by omega]
    · rcases Nat.lt_or_ge k 10 with h10 | h10
      · rw [show 6 + (5 - (k - 4)) = 15 - k by omega]
        simp [show ¬ 10 ≤ k by omega, h4, show k - 4 < 6 by omega, show ¬ 2 + k < 6 by omega,
          show 5 - (k - 4) < 6 by omega]
      · rw [show 5 - (k - 10) = 15 - k by omega]
        simp [h10, show k - 10 < 6 by omega, show ¬ k - 4 < 6 by omega, show ¬ 2 + k < 6 by omega,
          show 15 - k < 6 by omega]
  · rw [decide_eq_false (show ¬ j < numBits by omega), Bool.false_and]
    simp [show ¬ 16 - numBits + j - 10 < 6 by omega, show ¬ 16 - numBits + j - 4 < 6 by omega,
      show ¬ 2 + (16 - numBits + j) < 6 by omega]

end DevopsBroker.Compress
