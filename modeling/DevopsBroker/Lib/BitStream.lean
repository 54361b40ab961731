import Mathlib.Data.Nat.Bitwise

/-!
# Bytes in memory and flat bit streams

A memory maps every address to a byte. `bitAt` numbers the bits of a byte
sequence LSB first, and a `FlatReader` reads such a stream of known length front
to back: it is what a bit reader is for, whatever buffers the bytes sit in.

`orBytes` assembles bytes into a word one at a time, the first byte in the low
bits; `testBit_orBytes` is its meaning, so that a word put together from several
runs of bytes can be compared with the stream bit by bit.
-/

namespace DevopsBroker.Lib

/-- Byte-addressed memory. -/
abbrev Mem := Nat → UInt8

/-- Bit `p` of a byte sequence, LSB first. -/
def bitAt (bytes : Nat → UInt8) (p : Nat) : Bool := (bytes (p / 8)).toNat.testBit (p % 8)

/-- A byte has no bits from 8 on. -/
theorem testBit_byte_ge (b : UInt8) {i : Nat} (h : 8 ≤ i) : b.toNat.testBit i = false :=
  Nat.testBit_lt_two_pow (Nat.lt_of_lt_of_le b.toNat_lt (Nat.pow_le_pow_right (by omega) h))

/-- OR the `k` bytes from address `next` on into `bits`, the first one at byte
position `i`. -/
def orBytes (mem : Mem) : Nat → Nat → Nat → Nat → Nat
  | 0, _, _, bits => bits
  | k + 1, next, i, bits =>
    orBytes mem k (next + 1) (i + 1) (bits ||| (mem next).toNat <<< (i * 8))

/-- Which bits `orBytes` sets. -/
theorem testBit_orBytes (mem : Mem) :
    ∀ (k : Nat) {next i bits : Nat} (t : Nat),
      (orBytes mem k next i bits).testBit t =
        (bits.testBit t || (decide (8 * i ≤ t) && decide (t < 8 * (i + k))
          && bitAt (fun a => mem (next + a)) (t - 8 * i))) := by
  intro k
  induction k with
  | zero =>
    intro next i bits t
    have hout : (decide (8 * i ≤ t) && decide (t < 8 * (i + 0))) = false := by
      rw [Bool.and_eq_false_iff, decide_eq_false_iff_not, decide_eq_false_iff_not]
      omega
    rw [orBytes, hout, Bool.false_and, Bool.or_false]
  | succ k ih =>
    intro next i bits t
    rw [orBytes, ih, Nat.testBit_or, Nat.testBit_shiftLeft, Bool.or_assoc]
    congr 1
    rcases Nat.lt_or_ge t (i * 8) with hlt | hge
    · -- below the word written so far
      simp only [show ¬ t ≥ i * 8 by omega, show ¬ 8 * i ≤ t by omega,
        show ¬ 8 * (i + 1) ≤ t by omega, decide_false, Bool.false_and, Bool.or_false]
    · rcases Nat.lt_or_ge t (8 * (i + 1)) with hbyte | hrest
      · -- inside the byte at `next`
        have hdiv : (t - 8 * i) / 8 = 0 := by omega
        have hmod : (t - 8 * i) % 8 = t - i * 8 := by omega
        simp only [hge, show 8 * i ≤ t by omega, show ¬ 8 * (i + 1) ≤ t by omega,
          show t < 8 * (i + (k + 1)) by omega, decide_true, decide_false, Bool.true_and,
          Bool.false_and, Bool.or_false, bitAt, hdiv, hmod, Nat.add_zero]
      · -- in a later byte
        have hsub : t - 8 * i = t - 8 * (i + 1) + 8 := by omega
        have hdiv : (t - 8 * (i + 1) + 8) / 8 = (t - 8 * (i + 1)) / 8 + 1 := by omega
        have hmod : (t - 8 * (i + 1) + 8) % 8 = (t - 8 * (i + 1)) % 8 := by omega
        rw [testBit_byte_ge _ (by omega : 8 ≤ t - i * 8), Bool.and_false, Bool.false_or, bitAt,
          bitAt, hsub, hdiv, hmod, show i + 1 + k = i + (k + 1) by omega,
          show next + 1 + (t - 8 * (i + 1)) / 8 = next + ((t - 8 * (i + 1)) / 8 + 1) by omega,
          decide_eq_true hrest, decide_eq_true (show 8 * i ≤ t by omega)]

/-- `length` bytes of memory. -/
def bytesAt (mem : Mem) (address length : Nat) : List UInt8 :=
  (List.range length).map fun i => mem (address + i)

theorem bytesAt_length (mem : Mem) (address length : Nat) :
    (bytesAt mem address length).length = length := by
  rw [bytesAt, List.length_map, List.length_range]

theorem bytesAt_succ (mem : Mem) (address length : Nat) :
    bytesAt mem address (length + 1) = mem address :: bytesAt mem (address + 1) length := by
  unfold bytesAt
  rw [List.range_succ_eq_map, List.map_cons, List.map_map]
  congr 1
  refine List.map_congr_left fun i _ => ?_
  show mem (address + (i + 1)) = mem (address + 1 + i)
  congr 1
  omega

theorem bytesAt_add (mem : Mem) (n m : Nat) :
    ∀ address, bytesAt mem address (n + m) =
      bytesAt mem address n ++ bytesAt mem (address + n) m := by
  induction n with
  | zero =>
    intro address
    rw [Nat.zero_add, Nat.add_zero]
    rfl
  | succ n ih =>
    intro address
    rw [Nat.succ_add, bytesAt_succ, bytesAt_succ, ih, List.cons_append,
      show address + 1 + n = address + (n + 1) by omega]

theorem bytesAt_take (mem : Mem) (address : Nat) {n m : Nat} (h : n ≤ m) :
    (bytesAt mem address m).take n = bytesAt mem address n := by
  rw [bytesAt, ← List.map_take, List.take_range, Nat.min_eq_left h]
  rfl

/-- Memory that shows a list. -/
theorem bytesAt_eq_iff {mem : Mem} {address : Nat} {bytes : List UInt8} :
    bytesAt mem address bytes.length = bytes ↔
      ∀ i, ∀ h : i < bytes.length, mem (address + i) = bytes[i] := by
  unfold bytesAt
  rw [List.ext_getElem_iff]
  simp only [List.length_map, List.length_range, List.getElem_map, List.getElem_range, true_and]
  exact ⟨fun h i hi => h i hi hi, fun h i hi _ => h i hi⟩

/-- A reader of a bit stream of `total` bits, at position `pos`. -/
@[ext]
structure FlatReader where
  stream : Nat → Bool
  total : Nat
  pos : Nat

/-- Move `n` bits on, unless that passes the end. -/
def FlatReader.advance (r : FlatReader) (n : Nat) : Option FlatReader :=
  if r.pos + n ≤ r.total then some { r with pos := r.pos + n } else none

/-- The bits from the position on. -/
def FlatReader.ahead (r : FlatReader) (i : Nat) : Bool := r.stream (r.pos + i)

/-- The first `n` bits as a number, the first bit at the bottom. -/
def lsbFirst (bit : Nat → Bool) : Nat → Nat
  | 0 => 0
  | n + 1 => lsbFirst bit n + (bit n).toNat * 2 ^ n

/-- A word holds, in its low `n` bits, the stream from `pos` on, as far as it goes. -/
def FlatReader.Shows (r : FlatReader) (n bits : Nat) : Prop :=
  ∀ i < n, r.pos + i < r.total → bits.testBit i = r.stream (r.pos + i)

theorem FlatReader.advance_eq_some {r r' : FlatReader} {n : Nat} :
    r.advance n = some r' ↔ r.pos + n ≤ r.total ∧ r' = { r with pos := r.pos + n } := by
  unfold FlatReader.advance
  split
  next h => exact ⟨fun heq => ⟨h, (Option.some.inj heq).symm⟩, fun heq => by rw [heq.2]⟩
  next h => exact ⟨fun heq => absurd heq (by simp), fun heq => absurd heq.1 h⟩

/-- Moving on in two steps. -/
theorem FlatReader.advance_add {r r₁ r₂ : FlatReader} {n m : Nat} (hn : r.advance n = some r₁)
    (hm : r₁.advance m = some r₂) : r.advance (n + m) = some r₂ := by
  obtain ⟨_, rfl⟩ := FlatReader.advance_eq_some.mp hn
  obtain ⟨hend, rfl⟩ := FlatReader.advance_eq_some.mp hm
  exact FlatReader.advance_eq_some.mpr ⟨by dsimp only at hend; omega, by rw [Nat.add_assoc]⟩

theorem lsbFirst_lt (bit : Nat → Bool) (n : Nat) : lsbFirst bit n < 2 ^ n := by
  induction n with
  | zero => exact Nat.one_pos
  | succ n ih =>
    rw [lsbFirst, Nat.pow_succ]
    cases bit n with
    | false => simp; omega
    | true => simp; omega

/-- The bits of `lsbFirst`, from the bottom up. -/
theorem testBit_lsbFirst (bit : Nat → Bool) (n j : Nat) :
    (lsbFirst bit n).testBit j = (decide (j < n) && bit j) := by
  induction n with
  | zero => simp [lsbFirst]
  | succ n ih =>
    have hsum : lsbFirst bit (n + 1) = 2 ^ n * (bit n).toNat + lsbFirst bit n := by
      rw [lsbFirst, Nat.mul_comm, Nat.add_comm]
    rw [hsum, Nat.testBit_two_pow_mul_add _ (lsbFirst_lt bit n)]
    rcases Nat.lt_trichotomy j n with hlt | heq | hgt
    · rw [if_pos hlt, ih, decide_eq_true hlt, decide_eq_true (by omega)]
    · subst heq
      rw [if_neg (Nat.lt_irrefl j), Nat.sub_self, decide_eq_true (Nat.lt_succ_self j)]
      cases bit j <;> rfl
    · rw [if_neg (by omega), decide_eq_false (by omega), Bool.false_and]
      obtain ⟨k, hk⟩ : ∃ k, j - n = k + 1 := ⟨j - n - 1, by omega⟩
      rw [hk]
      cases bit n <;> simp [Nat.testBit_succ]

/-- Shifting a word that shows the stream moves its window on. -/
theorem FlatReader.Shows.shift {r r' : FlatReader} {n k bits : Nat} (h : r.Shows n bits)
    (hr : r.advance k = some r') : r'.Shows (n - k) (bits >>> k) := by
  obtain ⟨_, rfl⟩ := FlatReader.advance_eq_some.mp hr
  intro i hi hend
  dsimp only at hend ⊢
  rw [Nat.testBit_shiftRight, h (k + i) (by omega) (by omega), Nat.add_assoc]

/-- The low bits of a word that shows the stream are the next number in it. -/
theorem FlatReader.Shows.and_mask {r r' : FlatReader} {n k bits : Nat} (h : r.Shows n bits)
    (hk : k ≤ n) (hr : r.advance k = some r') : bits &&& (2 ^ k - 1) = lsbFirst r.ahead k := by
  obtain ⟨hend, _⟩ := FlatReader.advance_eq_some.mp hr
  refine Nat.eq_of_testBit_eq fun j => ?_
  rw [Nat.and_two_pow_sub_one_eq_mod, Nat.testBit_mod_two_pow, testBit_lsbFirst]
  by_cases hj : j < k
  · rw [h j (by omega) (by omega)]
    rfl
  · rw [decide_eq_false hj, Bool.false_and, Bool.false_and]

end DevopsBroker.Lib
