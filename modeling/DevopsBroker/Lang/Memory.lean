import DevopsBroker.Lib.BitStream

/-!
# `lang/memory.linux-x86_64.asm`: copying and clearing bytes

`memcopy` moves eight bytes at a time, then four, then single ones. Each move
reads all of its bytes before it writes them, so that the result is a plain copy
where the destination does not reach back into the source. `copyObject` is that copy
for two objects apart, each seen from its own first byte. `meminit` clears eight bytes
at a time, then single ones.
-/

namespace DevopsBroker.Lang

open DevopsBroker.Lib

/-- Move `k` bytes at once. -/
def moveBytes (mem : Mem) (source dest k : Nat) : Mem := fun a =>
  if dest ≤ a ∧ a < dest + k then mem (source + (a - dest)) else mem a

/-- `n` moves of `k` bytes in a row. -/
def copyChunks (k : Nat) : Nat → Nat → Nat → Mem → Mem
  | 0, _, _, mem => mem
  | n + 1, source, dest, mem =>
    copyChunks k n (source + k) (dest + k) (moveBytes mem source dest k)

/-- `f668c4bd_memcopy`. -/
def memcopy (mem : Mem) (source dest numBytes : Nat) : Mem :=
  let eights := numBytes / 8
  let mem := copyChunks 8 eights source dest mem
  let source := source + 8 * eights
  let dest := dest + 8 * eights
  let numBytes := numBytes % 8
  if 4 ≤ numBytes then
    copyChunks 1 (numBytes - 4) (source + 4) (dest + 4) (moveBytes mem source dest 4)
  else copyChunks 1 numBytes source dest mem

/-- Two moves next to each other are one, when the first does not write what the
second reads. -/
theorem moveBytes_moveBytes (mem : Mem) {source dest k m : Nat}
    (h : source + (k + m) ≤ dest ∨ dest ≤ source) :
    moveBytes (moveBytes mem source dest k) (source + k) (dest + k) m =
      moveBytes mem source dest (k + m) := by
  funext a
  unfold moveBytes
  by_cases h1 : dest + k ≤ a ∧ a < dest + k + m
  · -- a byte of the second move comes from where the first one did not store
    have hno : ¬ (dest ≤ source + k + (a - (dest + k)) ∧
        source + k + (a - (dest + k)) < dest + k) := by omega
    have hin : dest ≤ a ∧ a < dest + (k + m) := by omega
    rw [if_pos h1, if_neg hno, if_pos hin]
    congr 1
    omega
  · rw [if_neg h1]
    by_cases h2 : dest ≤ a ∧ a < dest + k
    · have hin : dest ≤ a ∧ a < dest + (k + m) := by omega
      rw [if_pos h2, if_pos hin]
    · have hno : ¬ (dest ≤ a ∧ a < dest + (k + m)) := by omega
      rw [if_neg h2, if_neg hno]

theorem moveBytes_zero (mem : Mem) (source dest : Nat) : moveBytes mem source dest 0 = mem := by
  funext a
  have hno : ¬ (dest ≤ a ∧ a < dest + 0) := by omega
  unfold moveBytes
  rw [if_neg hno]

/-- Moves in a row are one move of all the bytes, when they go down or do not overlap. -/
theorem copyChunks_eq (k : Nat) :
    ∀ (n : Nat) {source dest : Nat} (mem : Mem),
      source + k * n ≤ dest ∨ dest ≤ source →
      copyChunks k n source dest mem = moveBytes mem source dest (k * n) := by
  intro n
  induction n with
  | zero =>
    intro source dest mem _
    rw [copyChunks, Nat.mul_zero, moveBytes_zero]
  | succ n ih =>
    intro source dest mem h
    rw [Nat.mul_succ] at h ⊢
    rw [copyChunks, ih _ (by omega), moveBytes_moveBytes mem (by omega), Nat.add_comm]

/-- **`memcopy` copies**, where destination and source do not overlap. -/
theorem memcopy_eq (mem : Mem) {source dest numBytes : Nat}
    (h : source + numBytes ≤ dest ∨ dest + numBytes ≤ source) :
    memcopy mem source dest numBytes = moveBytes mem source dest numBytes := by
  have hdiv := Nat.div_add_mod numBytes 8
  unfold memcopy
  dsimp only
  rw [copyChunks_eq 8 _ mem (by omega)]
  -- four bytes at once before the last few, or not
  split
  next h4 =>
    rw [copyChunks_eq 1 _ _ (by omega), moveBytes_moveBytes _ (by omega),
      moveBytes_moveBytes _ (by omega)]
    congr 1
    omega
  next h4 =>
    rw [copyChunks_eq 1 _ _ (by omega), moveBytes_moveBytes _ (by omega)]
    congr 1
    omega

/-- A move changes the bytes of its destination, and no others. -/
theorem moveBytes_frame (mem : Mem) (source : Nat) {dest k a : Nat} (h : a < dest ∨ dest + k ≤ a) :
    moveBytes mem source dest k a = mem a := by
  unfold moveBytes
  rw [if_neg (by omega)]

theorem copyChunks_frame (k : Nat) :
    ∀ (n : Nat) (source : Nat) {dest a : Nat} (mem : Mem), a < dest ∨ dest + k * n ≤ a →
      copyChunks k n source dest mem a = mem a := by
  intro n
  induction n with
  | zero => exact fun _ _ _ _ _ => rfl
  | succ n ih =>
    intro source dest a mem h
    rw [Nat.mul_succ] at h
    rw [copyChunks, ih _ _ (by omega), moveBytes_frame mem source (by omega)]

/-- `memcopy` leaves everything but its destination alone, also where that overlaps the source. -/
theorem memcopy_frame (mem : Mem) (source : Nat) {dest numBytes a : Nat}
    (h : a < dest ∨ dest + numBytes ≤ a) : memcopy mem source dest numBytes a = mem a := by
  have hdiv := Nat.div_add_mod numBytes 8
  unfold memcopy
  split
  next h4 =>
    rw [copyChunks_frame 1 _ _ _ (by omega), moveBytes_frame _ _ (by omega),
      copyChunks_frame 8 _ _ _ (by omega)]
  next h4 => rw [copyChunks_frame 1 _ _ _ (by omega), copyChunks_frame 8 _ _ _ (by omega)]

/-- `f668c4bd_memcopy` between two objects that share no byte. -/
def copyObject (source dest : Mem) (numBytes : Nat) : Mem := fun i =>
  if i < numBytes then source i else dest i

/-- `copyObject` is what `memcopy` does to the destination. -/
theorem memcopy_object (mem : Mem) {source dest numBytes : Nat}
    (h : source + numBytes ≤ dest ∨ dest + numBytes ≤ source) :
    (fun i => memcopy mem source dest numBytes (dest + i)) =
      copyObject (fun i => mem (source + i)) (fun i => mem (dest + i)) numBytes := by
  funext i
  rw [memcopy_eq mem h]
  unfold moveBytes copyObject
  by_cases hi : i < numBytes
  · rw [if_pos ⟨by omega, by omega⟩, if_pos hi, Nat.add_sub_cancel_left]
  · rw [if_neg (by omega), if_neg hi]

/-! ## Clearing and storing -/

/-- Store `k` zero bytes at once. -/
def zeroBytes (mem : Mem) (dest k : Nat) : Mem := fun a =>
  if dest ≤ a ∧ a < dest + k then 0 else mem a

/-- `n` such stores in a row. -/
def initChunks (k : Nat) : Nat → Nat → Mem → Mem
  | 0, _, mem => mem
  | n + 1, dest, mem => initChunks k n (dest + k) (zeroBytes mem dest k)

/-- `f668c4bd_meminit`. -/
def meminit (mem : Mem) (ptr size : Nat) : Mem :=
  let numBlocks := size / 8
  initChunks 1 (size % 8) (ptr + 8 * numBlocks) (initChunks 8 numBlocks ptr mem)

/-- Store a byte. -/
def storeByte (mem : Mem) (address : Nat) (value : UInt8) : Mem := fun a =>
  if a = address then value else mem a

/-- The bytes of a quadword, the low one first. -/
def quadword (value : Nat) : List UInt8 := (List.range 8).map fun i => UInt8.ofNat (value / 256 ^ i)

/-- Store a quadword. -/
def storeQuadword (mem : Mem) (address value : Nat) : Mem := fun a =>
  if address ≤ a ∧ a < address + 8 then (quadword value).getD (a - address) 0 else mem a

theorem zeroBytes_zeroBytes (mem : Mem) (dest k m : Nat) :
    zeroBytes (zeroBytes mem dest k) (dest + k) m = zeroBytes mem dest (k + m) := by
  funext a
  unfold zeroBytes
  by_cases h : dest ≤ a ∧ a < dest + (k + m)
  · rw [if_pos h]
    split
    · rfl
    · rw [if_pos (by omega)]
  · rw [if_neg (by omega), if_neg (by omega), if_neg h]

theorem initChunks_eq (k : Nat) :
    ∀ (n dest : Nat) (mem : Mem), initChunks k n dest mem = zeroBytes mem dest (k * n) := by
  intro n
  induction n with
  | zero =>
    intro dest mem
    funext a
    rw [zeroBytes, if_neg (by omega)]
    rfl
  | succ n ih =>
    intro dest mem
    rw [initChunks, ih, zeroBytes_zeroBytes, Nat.mul_succ, Nat.add_comm]

/-- **`meminit` clears.** -/
theorem meminit_eq (mem : Mem) (ptr size : Nat) : meminit mem ptr size = zeroBytes mem ptr size := by
  unfold meminit
  dsimp only
  rw [initChunks_eq, initChunks_eq, zeroBytes_zeroBytes, Nat.one_mul, Nat.div_add_mod]

theorem quadword_length (value : Nat) : (quadword value).length = 8 := rfl

end DevopsBroker.Lang
