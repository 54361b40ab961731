import Mathlib.Data.Nat.Bitwise

/-!
# Reflected cyclic redundancy checks

The remainder is divided bit by bit, lowest bit first, by a polynomial of `w` bits
(the leading one left out, bits reversed); the register is inverted before and after.
A division step is linear in exclusive or, so several of them at once are the table
entry of the bits that drop out, and the other bits moved down (`crcBits_table`).
-/

namespace DevopsBroker.Lib

section

variable {w : Nat} (poly : BitVec w)

/-- One division step: the lowest bit drops out. -/
def crcBit (crc : BitVec w) : BitVec w :=
  crc >>> 1 ^^^ (if crc.getLsbD 0 then poly else 0#w)

/-- Several division steps. -/
def crcBits : Nat → BitVec w → BitVec w
  | 0, crc => crc
  | n + 1, crc => crcBits n (crcBit poly crc)

/-- Take in one byte. -/
def crcByte (crc : BitVec w) (b : UInt8) : BitVec w :=
  crcBits poly 8 (crc ^^^ BitVec.ofNat w b.toNat)

/-- The checksum of what came before, extended by some bytes. -/
def crcUpdate (crc : BitVec w) (bytes : List UInt8) : BitVec w :=
  ~~~ (bytes.foldl (crcByte poly) (~~~ crc))

/-- The checksum of a byte sequence. -/
def crcOf (bytes : List UInt8) : BitVec w := crcUpdate poly 0#w bytes

theorem crcUpdate_nil (crc : BitVec w) : crcUpdate poly crc [] = crc := BitVec.not_not

theorem crcUpdate_append (crc : BitVec w) (xs ys : List UInt8) :
    crcUpdate poly crc (xs ++ ys) = crcUpdate poly (crcUpdate poly crc xs) ys := by
  unfold crcUpdate
  rw [List.foldl_append, BitVec.not_not]

/-! ## Linearity -/

theorem crcBit_xor (a b : BitVec w) : crcBit poly (a ^^^ b) = crcBit poly a ^^^ crcBit poly b := by
  have hcancel : ∀ x y : BitVec w, (x ^^^ poly) ^^^ (y ^^^ poly) = x ^^^ y := by
    intro x y
    rw [BitVec.xor_comm y poly, ← BitVec.xor_assoc, BitVec.xor_assoc x, BitVec.xor_self,
      BitVec.xor_zero]
  unfold crcBit
  rw [BitVec.getLsbD_xor, BitVec.ushiftRight_xor_distrib]
  cases a.getLsbD 0 <;> cases b.getLsbD 0
  · simp
  · simp [BitVec.xor_assoc]
  · simp only [Bool.bne_false, if_true, Bool.false_eq_true, if_false, BitVec.xor_zero]
    rw [BitVec.xor_assoc, BitVec.xor_comm _ poly, ← BitVec.xor_assoc]
  · simp [hcancel]

theorem crcBits_xor (n : Nat) :
    ∀ a b : BitVec w, crcBits poly n (a ^^^ b) = crcBits poly n a ^^^ crcBits poly n b := by
  induction n with
  | zero => intro a b; rfl
  | succ n ih =>
    intro a b
    rw [crcBits, crcBit_xor, ih]
    rfl

theorem crcBits_add (n m : Nat) :
    ∀ crc : BitVec w, crcBits poly (n + m) crc = crcBits poly m (crcBits poly n crc) := by
  induction n with
  | zero => intro crc; rw [Nat.zero_add]; rfl
  | succ n ih =>
    intro crc
    rw [Nat.succ_add, crcBits, ih]
    rfl

/-- Where no set bit drops out, the steps only shift. -/
theorem crcBits_high (n : Nat) :
    ∀ crc : BitVec w, (∀ i < n, crc.getLsbD i = false) → crcBits poly n crc = crc >>> n := by
  induction n with
  | zero => intro crc _; rfl
  | succ n ih =>
    intro crc h
    have hstep : crcBit poly crc = crc >>> 1 := by
      rw [crcBit, h 0 (Nat.succ_pos n), if_neg (by decide), BitVec.xor_zero]
    have hrest : ∀ i < n, (crc >>> 1).getLsbD i = false := by
      intro i hi
      rw [BitVec.getLsbD_ushiftRight]
      exact h (1 + i) (by omega)
    rw [crcBits, hstep, ih _ hrest, ← BitVec.shiftRight_add, Nat.add_comm]

/-- **Several steps at once**: the table entry of the bits that drop out, and the
others moved down. -/
theorem crcBits_table (n : Nat) (crc mask : BitVec w)
    (hmask : ∀ i < w, mask.getLsbD i = decide (i < n)) :
    crcBits poly n crc = crcBits poly n (crc &&& mask) ^^^ crc >>> n := by
  have hsplit : crc = (crc &&& mask) ^^^ (crc &&& ~~~ mask) := by
    refine BitVec.eq_of_getLsbD_eq fun i hi => ?_
    rw [BitVec.getLsbD_xor, BitVec.getLsbD_and, BitVec.getLsbD_and, BitVec.getLsbD_not]
    cases crc.getLsbD i <;> cases mask.getLsbD i <;> simp [hi]
  have hlow : ∀ i < n, (crc &&& ~~~ mask).getLsbD i = false := by
    intro i hi
    rw [BitVec.getLsbD_and, BitVec.getLsbD_not]
    by_cases hw : i < w
    · rw [hmask i hw, decide_eq_true hi]
      simp
    · simp [hw]
  have hhigh : (crc &&& ~~~ mask) >>> n = crc >>> n := by
    refine BitVec.eq_of_getLsbD_eq fun i hi => ?_
    rw [BitVec.getLsbD_ushiftRight, BitVec.getLsbD_ushiftRight, BitVec.getLsbD_and,
      BitVec.getLsbD_not]
    by_cases hw : n + i < w
    · rw [hmask _ hw, decide_eq_false (show ¬ n + i < n by omega)]
      simp [hw]
    · rw [BitVec.getLsbD_of_ge crc (n + i) (by omega)]
      simp
  calc crcBits poly n crc
      = crcBits poly n ((crc &&& mask) ^^^ (crc &&& ~~~ mask)) := by rw [← hsplit]
    _ = crcBits poly n (crc &&& mask) ^^^ crcBits poly n (crc &&& ~~~ mask) :=
        crcBits_xor poly n _ _
    _ = crcBits poly n (crc &&& mask) ^^^ crc >>> n := by
        rw [crcBits_high poly n _ hlow, hhigh]

end

end DevopsBroker.Lib
