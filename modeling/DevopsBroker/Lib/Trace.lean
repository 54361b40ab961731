import DevopsBroker.Lib.Region
import DevopsBroker.Lib.Rounds
import DevopsBroker.Lib.Text

/-!
# Memory with a trace

A `Trace` is a memory with the regions that were read from it and written to it so far, through
registers of any width. `Stored` says that stores in a row left some bytes, and wrote to nothing
else; `Copied` that these are bytes that were read somewhere else. One store, and one move, lead
from such a state to the next one, whatever its width.
-/

namespace DevopsBroker.Lib

/-- A memory, with the regions that were read and those that were written, the last one first. -/
structure Trace where
  mem : Mem
  reads : List Region
  writes : List Region

namespace Trace

/-- Nothing was read or written yet. -/
def start (mem : Mem) : Trace := ⟨mem, [], []⟩

/-- Load `k` bytes into a register. -/
def load (t : Trace) (address k : Nat) : Nat × Trace :=
  (littleEndian (bytesAt t.mem address k), { t with reads := ⟨address, k⟩ :: t.reads })

/-- Store the low `k` bytes of a register. -/
def store (t : Trace) (address k register : Nat) : Trace :=
  { t with
    mem := storeBytes t.mem address (charsOf k register)
    writes := ⟨address, k⟩ :: t.writes }

/-- Load `k` bytes, and store them. -/
def move (t : Trace) (source dest k : Nat) : Trace :=
  let (register, t) := t.load source k
  t.store dest k register

@[simp] theorem move_reads (t : Trace) (source dest k : Nat) :
    (t.move source dest k).reads = ⟨source, k⟩ :: t.reads := rfl

@[simp] theorem move_writes (t : Trace) (source dest k : Nat) :
    (t.move source dest k).writes = ⟨dest, k⟩ :: t.writes := rfl

end Trace

/-! ## Bytes in registers -/

theorem charsOf_length (n register : Nat) : (charsOf n register).length = n := by
  induction n generalizing register with
  | zero => rfl
  | succ n ih => rw [charsOf, List.length_cons, ih]

theorem charsOf_eq_map (n : Nat) :
    ∀ register, charsOf n register = (List.range n).map fun i => lowByte (register / 256 ^ i) := by
  induction n with
  | zero => exact fun _ => rfl
  | succ n ih =>
    intro register
    rw [charsOf, ih, List.range_succ_eq_map, List.map_cons, List.map_map, Nat.pow_zero, Nat.div_one]
    refine congrArg _ (List.map_congr_left fun i _ => ?_)
    show lowByte (register / 256 / 256 ^ i) = lowByte (register / 256 ^ (i + 1))
    rw [Nat.div_div_eq_div_mul, Nat.pow_succ, Nat.mul_comm]

/-- What was loaded is stored again. -/
theorem charsOf_bytesAt (mem : Mem) (address k : Nat) :
    charsOf k (littleEndian (bytesAt mem address k)) = bytesAt mem address k := by
  have hlength := bytesAt_length mem address k
  rw [charsOf_littleEndian (Nat.le_of_eq hlength.symm),
    List.take_of_length_le (Nat.le_of_eq hlength)]

theorem charsOf_zero (n : Nat) : charsOf n 0 = List.replicate n 0 := by
  induction n with
  | zero => rfl
  | succ n ih => rw [charsOf, Nat.zero_div, ih]; rfl

/-! ## Stores in a row -/

/-- Two stores next to each other are one. -/
theorem storeBytes_storeBytes (mem : Mem) (address : Nat) (xs ys : List UInt8) :
    storeBytes (storeBytes mem address xs) (address + xs.length) ys =
      storeBytes mem address (xs ++ ys) := by
  funext a
  unfold storeBytes
  rw [List.length_append]
  by_cases hback : address + xs.length ≤ a ∧ a < address + xs.length + ys.length
  · have hoffset : a - (address + xs.length) = a - address - xs.length := by omega
    rw [if_pos hback, if_pos (by omega), List.getD_append_right _ _ _ _ (by omega), hoffset]
  · rw [if_neg hback]
    by_cases hfront : address ≤ a ∧ a < address + xs.length
    · rw [if_pos hfront, if_pos (by omega), List.getD_append _ _ _ _ (by omega)]
    · rw [if_neg hfront, if_neg (by omega)]

theorem storeBytes_nil (mem : Mem) (address : Nat) : storeBytes mem address [] = mem := by
  funext a
  rw [storeBytes, if_neg (by rw [List.length_nil]; omega)]

/-- What does not overlap with a store stays. -/
theorem bytesAt_storeBytes_apart {mem : Mem} {p n address : Nat} {bytes : List UInt8}
    (h : p + n ≤ address ∨ address + bytes.length ≤ p) :
    bytesAt (storeBytes mem address bytes) p n = bytesAt mem p n := by
  refine bytesAt_inj.mpr fun k hk => ?_
  rw [storeBytes, if_neg (by omega)]

/-- One more region behind those that cover an interval. -/
theorem Region.cover_cons {regions : List Region} {low high k : Nat}
    (h : Region.cover regions = Finset.Ico low high) (hle : low ≤ high) :
    Region.cover (⟨high, k⟩ :: regions) = Finset.Ico low (high + k) := by
  rw [Region.cover, h, Finset.union_comm]
  exact Finset.Ico_union_Ico_eq_Ico hle (Nat.le_add_right high k)

/-- Stores in a row left these bytes, and wrote to no other address. -/
structure Stored (mem : Mem) (dest : Nat) (bytes : List UInt8) (t : Trace) : Prop where
  content : t.mem = storeBytes mem dest bytes
  writes : Region.cover t.writes = Finset.Ico dest (dest + bytes.length)

theorem stored_start (mem : Mem) (dest : Nat) : Stored mem dest [] (Trace.start mem) where
  content := (storeBytes_nil mem dest).symm
  writes := (Finset.Ico_self dest).symm

/-- A load changes nothing. -/
theorem Stored.load {mem : Mem} {dest : Nat} {bytes : List UInt8} {t : Trace}
    (h : Stored mem dest bytes t) (address k : Nat) : Stored mem dest bytes (t.load address k).2 :=
  ⟨h.content, h.writes⟩

/-- **One more store**, behind what is there. -/
theorem Stored.store {mem : Mem} {dest : Nat} {bytes : List UInt8} {t : Trace}
    (h : Stored mem dest bytes t) (k register : Nat) :
    Stored mem dest (bytes ++ charsOf k register) (t.store (dest + bytes.length) k register) where
  content := by
    rw [← storeBytes_storeBytes, ← h.content]
    rfl
  writes := by
    rw [List.length_append, charsOf_length, ← Nat.add_assoc]
    exact Region.cover_cons h.writes (Nat.le_add_right ..)

/-- The bytes are there. -/
theorem Stored.byte {mem : Mem} {dest : Nat} {bytes : List UInt8} {t : Trace}
    (h : Stored mem dest bytes t) {i : Nat} (hi : i < bytes.length) :
    t.mem (dest + i) = bytes.getD i 0 := by
  rw [h.content, storeBytes, if_pos ⟨by omega, by omega⟩, Nat.add_sub_cancel_left]

/-- Every other byte is as before. -/
theorem Stored.outside {mem : Mem} {dest : Nat} {bytes : List UInt8} {t : Trace}
    (h : Stored mem dest bytes t) {a : Nat} (ha : ¬ (dest ≤ a ∧ a < dest + bytes.length)) :
    t.mem a = mem a := by
  rw [h.content, storeBytes, if_neg ha]

/-! ## Copies -/

/-- The first `n` bytes at `source` were copied, and nothing else was read or written. -/
structure Copied (mem : Mem) (source dest n : Nat) (t : Trace) : Prop where
  stored : Stored mem dest (bytesAt mem source n) t
  reads : Region.cover t.reads = Finset.Ico source (source + n)

theorem copied_start (mem : Mem) (source dest : Nat) :
    Copied mem source dest 0 (Trace.start mem) where
  stored := stored_start mem dest
  reads := (Finset.Ico_self source).symm

/-- **One more move**, where the stores so far did not reach what it reads. -/
theorem Copied.move {mem : Mem} {source dest n : Nat} {t : Trace} (h : Copied mem source dest n t)
    {k : Nat} (happart : source + n + k ≤ dest ∨ dest ≤ source) :
    Copied mem source dest (n + k) (t.move (source + n) (dest + n) k) where
  stored := by
    have hsame : bytesAt t.mem (source + n) k = bytesAt mem (source + n) k := by
      rw [h.stored.content]
      refine bytesAt_storeBytes_apart ?_
      rw [bytesAt_length]
      omega
    have hbytes : bytesAt mem source n ++ charsOf k (littleEndian (bytesAt t.mem (source + n) k)) =
        bytesAt mem source (n + k) := by
      rw [charsOf_bytesAt, hsame, bytesAt_add]
    have hstored := (h.stored.load (source + n) k).store k
      (littleEndian (bytesAt t.mem (source + n) k))
    rw [hbytes, bytesAt_length] at hstored
    exact hstored
  reads := by
    rw [← Nat.add_assoc]
    exact Region.cover_cons h.reads (Nat.le_add_right ..)

section

variable {mem : Mem} {source dest n : Nat} {t : Trace}

/-- The bytes are there. -/
theorem Copied.byte (h : Copied mem source dest n t) {i : Nat} (hi : i < n) :
    t.mem (dest + i) = mem (source + i) := by
  have hbyte := h.stored.byte (by rw [bytesAt_length]; exact hi)
  rw [hbyte, bytesAt, List.getD_eq_getElem?_getD, List.getElem?_map, List.getElem?_range hi]
  rfl

/-- Every other byte is as before. -/
theorem Copied.outside (h : Copied mem source dest n t) {a : Nat}
    (ha : ¬ (dest ≤ a ∧ a < dest + n)) : t.mem a = mem a :=
  h.stored.outside (by rw [bytesAt_length]; exact ha)

/-- All of them. -/
theorem Copied.all (h : Copied mem source dest n t) {total : Nat} (hall : n = total) :
    Copied mem source dest total t := by
  rw [← hall]
  exact h

theorem Copied.writes (h : Copied mem source dest n t) :
    Region.cover t.writes = Finset.Ico dest (dest + n) := by
  rw [h.stored.writes, bytesAt_length]

end

end DevopsBroker.Lib
