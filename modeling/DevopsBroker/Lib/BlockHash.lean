import Mathlib.Data.List.Basic

/-!
# Iterated hash functions

A compression function takes a state and a block of bytes; `absorb` runs it over whole
blocks. A message is padded with a one bit, zeros and a trailer so that whole blocks
come out (`padding`), and `finish` absorbs what is left of a message together with its
padding. Blocks at the front of the message can be absorbed before (`finish_append`):
the padding depends on the length of the message modulo the block size only.
-/

namespace DevopsBroker.Lib

section

variable {σ : Type} (compress : σ → List UInt8 → σ) (size : Nat)

/-- Compress `n` blocks of bytes. -/
def absorb : Nat → σ → List UInt8 → σ
  | 0, state, _ => state
  | n + 1, state, bytes => absorb n (compress state (bytes.take size)) (bytes.drop size)

/-- What is appended to a message of some length: a one bit, zeros, the trailer. -/
def padding (length : Nat) (trailer : List UInt8) : List UInt8 :=
  0x80 :: (List.replicate ((size - (length + 1 + trailer.length) % size) % size) 0 ++ trailer)

/-- Absorb the last bytes of a message, padded. -/
def finish (state : σ) (bytes trailer : List UInt8) : σ :=
  let padded := bytes ++ padding size bytes.length trailer
  absorb compress size (padded.length / size) state padded

@[simp] theorem absorb_zero (state : σ) (bytes : List UInt8) :
    absorb compress size 0 state bytes = state := rfl

theorem absorb_succ (n : Nat) (state : σ) (bytes : List UInt8) :
    absorb compress size (n + 1) state bytes =
      absorb compress size n (compress state (bytes.take size)) (bytes.drop size) := rfl

/-- One block is one compression. -/
theorem absorb_one (state : σ) {bytes : List UInt8} (h : bytes.length = size) :
    absorb compress size 1 state bytes = compress state bytes := by
  rw [absorb_succ, absorb_zero, List.take_of_length_le (Nat.le_of_eq h)]

/-- Blocks in a row, in two runs. -/
theorem absorb_append (n m : Nat) :
    ∀ (state : σ) {xs : List UInt8} (ys : List UInt8), xs.length = n * size →
      absorb compress size (n + m) state (xs ++ ys) =
        absorb compress size m (absorb compress size n state xs) ys := by
  induction n with
  | zero =>
    intro state xs ys h
    have hnil : xs = [] := List.eq_nil_of_length_eq_zero (by rw [h, Nat.zero_mul])
    rw [hnil, List.nil_append, Nat.zero_add, absorb_zero]
  | succ n ih =>
    intro state xs ys h
    rw [Nat.succ_mul] at h
    have hrest : (xs.drop size).length = n * size := by
      rw [List.length_drop, h]
      omega
    rw [Nat.succ_add, absorb_succ, absorb_succ, List.take_append_of_le_length (by omega),
      List.drop_append_of_le_length (by omega), ih _ ys hrest]

/-- Bytes behind the blocks do not matter. -/
theorem absorb_append_left (n : Nat) (state : σ) {xs : List UInt8} (ys : List UInt8)
    (h : xs.length = n * size) :
    absorb compress size n state (xs ++ ys) = absorb compress size n state xs := by
  have hrun := absorb_append compress size n 0 state ys h
  rw [Nat.add_zero, absorb_zero] at hrun
  exact hrun

/-- The padding depends on the length modulo the block size only. -/
theorem padding_add_mul (length n : Nat) (trailer : List UInt8) :
    padding size (n * size + length) trailer = padding size length trailer := by
  unfold padding
  rw [show n * size + length + 1 + trailer.length = length + 1 + trailer.length + size * n by
    rw [Nat.mul_comm]; omega, Nat.add_mul_mod_self_left]

/-- **Whole blocks at the front of a message can be absorbed first.** -/
theorem finish_append (hsize : 0 < size) (n : Nat) (state : σ) {xs : List UInt8}
    (ys trailer : List UInt8) (h : xs.length = n * size) :
    finish compress size state (xs ++ ys) trailer =
      finish compress size (absorb compress size n state xs) ys trailer := by
  have hlength : (xs ++ ys).length = n * size + ys.length := by rw [List.length_append, h]
  have hblocks : (xs ++ (ys ++ padding size ys.length trailer)).length / size =
      n + (ys ++ padding size ys.length trailer).length / size := by
    rw [List.length_append, h, Nat.add_comm, Nat.add_mul_div_right _ _ hsize, Nat.add_comm]
  unfold finish
  dsimp only
  rw [hlength, padding_add_mul, List.append_assoc, hblocks, absorb_append compress size n _ _ _ h]

/-! ## The last block -/

/-- A message with the part of its padding that does not depend on what the trailer,
of some length, holds. -/
def beforeTrailer (bytes : List UInt8) (trailerLength : Nat) : List UInt8 :=
  bytes ++ 0x80 :: List.replicate ((size - (bytes.length + 1 + trailerLength) % size) % size) 0

/-- How many blocks come before the last one. -/
def lastIndex (bytes : List UInt8) (trailerLength : Nat) : Nat :=
  ((beforeTrailer size bytes trailerLength).length + trailerLength) / size - 1

/-- The state that the last block is compressed into. -/
def chaining (state : σ) (bytes : List UInt8) (trailerLength : Nat) : σ :=
  absorb compress size (lastIndex size bytes trailerLength) state
    (beforeTrailer size bytes trailerLength)

/-- The last block. -/
def lastBlock (bytes trailer : List UInt8) : List UInt8 :=
  (beforeTrailer size bytes trailer.length).drop (lastIndex size bytes trailer.length * size)
    ++ trailer

theorem beforeTrailer_append (bytes trailer : List UInt8) :
    beforeTrailer size bytes trailer.length ++ trailer =
      bytes ++ padding size bytes.length trailer := by
  unfold beforeTrailer padding
  rw [List.append_assoc, List.cons_append]

/-- A padded message is made of whole blocks, one at least. -/
theorem length_beforeTrailer (hsize : 0 < size) (bytes : List UInt8) (t : Nat) :
    (beforeTrailer size bytes t).length + t = (lastIndex size bytes t + 1) * size := by
  have hlength : (beforeTrailer size bytes t).length + t =
      bytes.length + 1 + t + (size - (bytes.length + 1 + t) % size) % size := by
    unfold beforeTrailer
    rw [List.length_append, List.length_cons, List.length_replicate]
    omega
  have hdvd : size ∣ (beforeTrailer size bytes t).length + t := by
    have hdiv := Nat.div_add_mod (bytes.length + 1 + t) size
    have hmod := Nat.mod_lt (bytes.length + 1 + t) hsize
    rw [hlength]
    rcases Nat.eq_zero_or_pos ((bytes.length + 1 + t) % size) with hzero | hpos
    · rw [hzero, Nat.sub_zero, Nat.mod_self, Nat.add_zero]
      exact Nat.dvd_of_mod_eq_zero hzero
    · rw [Nat.mod_eq_of_lt (by omega : size - (bytes.length + 1 + t) % size < size)]
      refine ⟨(bytes.length + 1 + t) / size + 1, ?_⟩
      rw [Nat.mul_succ]
      omega
  obtain ⟨k, hk⟩ := hdvd
  have hpos : 0 < k := by
    rcases Nat.eq_zero_or_pos k with hzero | hpos
    · rw [hzero, Nat.mul_zero] at hk
      omega
    · exact hpos
  unfold lastIndex
  rw [hk, Nat.mul_div_cancel_left _ hsize, Nat.sub_add_cancel hpos, Nat.mul_comm]

theorem length_lastBlock (hsize : 0 < size) (bytes : List UInt8) {trailer : List UInt8}
    (h : trailer.length ≤ size) : (lastBlock size bytes trailer).length = size := by
  have hlength := length_beforeTrailer size hsize bytes trailer.length
  rw [Nat.succ_mul] at hlength
  unfold lastBlock
  rw [List.length_append, List.length_drop]
  omega

/-- **The last block is compressed into a state that does not depend on the trailer.** -/
theorem finish_eq_compress (hsize : 0 < size) (state : σ) (bytes : List UInt8)
    {trailer : List UInt8} (h : trailer.length ≤ size) :
    finish compress size state bytes trailer =
      compress (chaining compress size state bytes trailer.length)
        (lastBlock size bytes trailer) := by
  have hlength := length_beforeTrailer size hsize bytes trailer.length
  have hblock := length_lastBlock size hsize bytes h
  unfold lastBlock at hblock
  unfold finish chaining lastBlock
  dsimp only
  rw [← beforeTrailer_append, List.length_append, hlength, Nat.mul_div_cancel _ hsize]
  generalize hn : lastIndex size bytes trailer.length = n at hlength hblock ⊢
  generalize beforeTrailer size bytes trailer.length = front at hlength hblock ⊢
  rw [Nat.succ_mul] at hlength
  have htake : (front.take (n * size)).length = n * size := by
    rw [List.length_take]
    omega
  have hfront : front = front.take (n * size) ++ front.drop (n * size) :=
    (List.take_append_drop _ _).symm
  have hchain : absorb compress size n state front =
      absorb compress size n state (front.take (n * size)) := by
    have hleft := absorb_append_left compress size n state (front.drop (n * size)) htake
    rw [← hfront] at hleft
    exact hleft
  have hsplit : front ++ trailer =
      front.take (n * size) ++ (front.drop (n * size) ++ trailer) := by
    rw [← List.append_assoc, ← hfront]
  rw [hsplit, absorb_append compress size n 1 _ _ htake, absorb_one compress size _ hblock, hchain]

end

end DevopsBroker.Lib
