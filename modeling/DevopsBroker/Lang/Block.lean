import DevopsBroker.Lang.Memory

/-!
# `lang/memory.linux-x86_64.asm`: blocks on the heap

A `Block` is what `aligned_alloc` hands out: a number of bytes, with some content.
`malloc`, `mallocArray` and `resizeArray` give `none` where they abort, and so does an
access outside of a block. Allocation itself succeeds; the content of a new block
(`garbage`) is whatever was there.

`resizeArray` copies quadwords, as many as hold the elements of the array. It aborts
when there are no elements to copy.

Mirroring notes vs the assembly source:
- `jo` after `add` is signed overflow, and after `mul` a product of more than 64 bits.
- The copy loop of `resizeArray` moves one quadword after the other into a block that
  shares no byte with the old one: it is `copyObject`.
- `resizeStrArray` computes a multiple of 16, and then allocates as many bytes as it is told to. `r13`
  is the caller's there, and not touched before the return.
-/

namespace DevopsBroker.Lang

open DevopsBroker.Lib

/-- A `void *` that is stored and compared, but not followed. -/
abbrev Pointer := UInt64

/-- `NULL`. -/
def nullPointer : Pointer := 0

/-- Bytes that were allocated together. -/
structure Block where
  size : Nat
  byte : Mem

/-- `.calcAllocSize`: the next multiple of 16. -/
def allocSize (size : Nat) : Option Nat :=
  if size < 2 ^ 63 ∧ 2 ^ 63 ≤ size + 15 then none
  else some ((size + 15) % 2 ^ 64 / 16 * 16)

/-- `f668c4bd_alignedAlloc`, with the pointer that `aligned_alloc` gives it. -/
def alignedAlloc (ptr : Pointer) : Option Pointer := if ptr = nullPointer then none else some ptr

/-- `f668c4bd_malloc`. -/
def malloc (garbage : Mem) (size : Nat) : Option Block :=
  (allocSize size).map fun size => ⟨size, garbage⟩

/-- `f668c4bd_mallocArray`. -/
def mallocArray (garbage : Mem) (typeSize numBlocks : Nat) : Option Block :=
  if 2 ^ 64 ≤ typeSize * numBlocks then none else malloc garbage (typeSize * numBlocks)

/-- `f668c4bd_resizeArray`. -/
def resizeArray (garbage : Mem) (array : Option Block) (arrayLen typeSize numBlocks : Nat) :
    Option Block :=
  match array with
  | none => none
  | some old =>
    if arrayLen = 0 ∨ typeSize = 0 ∨ numBlocks = 0 then none
    else
      match mallocArray garbage typeSize numBlocks with
      | none => none
      | some new =>
        if 2 ^ 64 ≤ arrayLen * typeSize ∨
            (arrayLen * typeSize < 2 ^ 63 ∧ 2 ^ 63 ≤ arrayLen * typeSize + 7) then none
        else
          let numBytes := 8 * ((arrayLen * typeSize + 7) % 2 ^ 64 / 8)
          if numBytes ≤ old.size ∧ numBytes ≤ new.size then
            some { new with byte := copyObject old.byte new.byte numBytes }
          else none

/-- `f668c4bd_stralloc`: always with room for a `NUL`. -/
def stralloc (garbage : Mem) (size : Nat) : Option Block :=
  let size := (size / 16 + 1) * 16 % 2 ^ 64
  if size = 0 then none else some ⟨size, garbage⟩

namespace Block

/-- `f668c4bd_memcopy` from one block to another. -/
def copyTo (source target : Block) (numBytes : Nat) : Option Block :=
  if numBytes ≤ source.size ∧ numBytes ≤ target.size then
    some { target with byte := copyObject source.byte target.byte numBytes }
  else none

/-- The string that a block starts with. -/
def text (b : Block) : Option (List UInt8) :=
  if 0 ∈ bytesAt b.byte 0 b.size then some ((bytesAt b.byte 0 b.size).takeWhile (· ≠ 0)) else none

/-- Store a byte. -/
def storeByte (b : Block) (i : Nat) (value : UInt8) : Option Block :=
  if i < b.size then some { b with byte := Lang.storeByte b.byte i value } else none

/-- Store the bytes of another object, one after the other. -/
def storeBytes (b : Block) (i : Nat) : List UInt8 → Option Block
  | [] => some b
  | value :: bytes => do
    let b ← b.storeByte i value
    storeBytes b (i + 1) bytes

/-- The quadword at index `i` of an array of pointers. -/
def slot (b : Block) (i : Nat) : Pointer := UInt64.ofNat (orBytes b.byte 8 (8 * i) 0 0)

/-- Load a pointer from an array. -/
def loadSlot (b : Block) (i : Nat) : Option Pointer :=
  if 8 * i + 8 ≤ b.size then some (b.slot i) else none

/-- Store a pointer into an array. -/
def storeSlot (b : Block) (i : Nat) (p : Pointer) : Option Block :=
  if 8 * i + 8 ≤ b.size then some { b with byte := storeQuadword b.byte (8 * i) p.toNat }
  else none

/-- The first `n` pointers of an array. -/
def slots (b : Block) (n : Nat) : List Pointer := (List.range n).map b.slot

end Block

/-- `f668c4bd_resizeStrArray`. With nothing to copy it returns what `r13` points to. -/
def resizeStrArray (garbage : Mem) (r13 : Block) (strPtr : Option Block) (strLen newSize : Nat) :
    Option Block :=
  match strPtr with
  | none => some r13
  | some old =>
    if strLen = 0 then some r13
    else if newSize = 0 then some r13
    else old.copyTo ⟨newSize, garbage⟩ strLen

/-! ## Allocation -/

theorem malloc_eq (garbage : Mem) {size : Nat} (h : size + 15 < 2 ^ 63) :
    malloc garbage size = some ⟨(size + 15) / 16 * 16, garbage⟩ := by
  unfold malloc allocSize
  rw [if_neg (by omega), Nat.mod_eq_of_lt (by omega)]
  rfl

theorem mallocArray_eq (garbage : Mem) {typeSize numBlocks : Nat}
    (h : typeSize * numBlocks + 15 < 2 ^ 63) :
    mallocArray garbage typeSize numBlocks =
      some ⟨(typeSize * numBlocks + 15) / 16 * 16, garbage⟩ := by
  unfold mallocArray
  rw [if_neg (by omega), malloc_eq garbage h]

/-- An empty array cannot be resized. -/
theorem resizeArray_zero (garbage : Mem) (array : Option Block) (typeSize numBlocks : Nat) :
    resizeArray garbage array 0 typeSize numBlocks = none := by
  unfold resizeArray
  cases array with
  | none => rfl
  | some old =>
    dsimp only
    rw [if_pos (Or.inl rfl)]

/-- Nor can an array be resized to no elements. -/
theorem resizeArray_noBlocks (garbage : Mem) (array : Option Block) (arrayLen typeSize : Nat) :
    resizeArray garbage array arrayLen typeSize 0 = none := by
  unfold resizeArray
  cases array with
  | none => rfl
  | some old =>
    dsimp only
    rw [if_pos (Or.inr (Or.inr rfl))]

/-- **`resizeArray` keeps the elements**, where it has some, and they fit into the new block. -/
theorem resizeArray_keeps (garbage : Mem) {old : Block} {arrayLen typeSize numBlocks : Nat}
    (hlen : 0 < arrayLen) (htype : 0 < typeSize) (hnum : 0 < numBlocks)
    (hfit : arrayLen * typeSize ≤ (typeSize * numBlocks + 15) / 16 * 16)
    (hsmall : typeSize * numBlocks + 15 < 2 ^ 63) (haligned : old.size % 16 = 0)
    (hold : arrayLen * typeSize ≤ old.size) :
    ∃ new, resizeArray garbage (some old) arrayLen typeSize numBlocks = some new ∧
      new.size = (typeSize * numBlocks + 15) / 16 * 16 ∧
      ∀ i < arrayLen * typeSize, new.byte i = old.byte i := by
  unfold resizeArray
  dsimp only
  rw [if_neg (by omega), mallocArray_eq garbage hsmall]
  dsimp only
  rw [if_neg (by omega), Nat.mod_eq_of_lt (by omega), if_pos (by omega)]
  refine ⟨_, rfl, rfl, ?_⟩
  intro i hi
  show copyObject old.byte garbage _ i = old.byte i
  rw [copyObject, if_pos (by omega)]

/-- It does where there are as many blocks as elements. -/
theorem resizeArray_eq (garbage : Mem) {old : Block} {arrayLen typeSize numBlocks : Nat}
    (hlen : 0 < arrayLen) (htype : 0 < typeSize) (hnum : arrayLen ≤ numBlocks)
    (hsmall : typeSize * numBlocks + 15 < 2 ^ 63) (haligned : old.size % 16 = 0)
    (hold : arrayLen * typeSize ≤ old.size) :
    ∃ new, resizeArray garbage (some old) arrayLen typeSize numBlocks = some new ∧
      new.size = (typeSize * numBlocks + 15) / 16 * 16 ∧
      ∀ i < arrayLen * typeSize, new.byte i = old.byte i := by
  have hfit : arrayLen * typeSize ≤ typeSize * numBlocks := by
    rw [Nat.mul_comm]
    exact Nat.mul_le_mul_left _ hnum
  exact resizeArray_keeps garbage hlen htype (by omega) (by omega) hsmall haligned hold

/-! ## Arrays of bytes -/

theorem bytesAt_congr {mem mem' : Mem} {address n : Nat}
    (h : ∀ i, address ≤ i → i < address + n → mem i = mem' i) :
    bytesAt mem address n = bytesAt mem' address n := by
  refine List.map_congr_left ?_
  intro i hi
  have hlt := List.mem_range.mp hi
  exact h (address + i) (by omega) (by omega)

namespace Block

theorem storeByte_eq {b : Block} {i : Nat} (h : i < b.size) (value : UInt8) :
    b.storeByte i value = some { b with byte := Lang.storeByte b.byte i value } := by
  unfold storeByte
  rw [if_pos h]

/-- **Storing bytes in a row**: they are there, and those before them stay. -/
theorem storeBytes_eq (bytes : List UInt8) :
    ∀ {b : Block} {i : Nat}, i + bytes.length ≤ b.size →
      ∃ b', b.storeBytes i bytes = some b' ∧ b'.size = b.size ∧
        (∀ a < i, b'.byte a = b.byte a) ∧ bytesAt b'.byte i bytes.length = bytes := by
  induction bytes with
  | nil =>
    intro b i _
    exact ⟨b, rfl, rfl, fun _ _ => rfl, rfl⟩
  | cons value bytes ih =>
    intro b i hroom
    rw [List.length_cons] at hroom
    have hrest : i + 1 + bytes.length ≤
        ({ b with byte := Lang.storeByte b.byte i value } : Block).size := by
      dsimp only
      omega
    obtain ⟨b', hrun, hsize, hkeep, hbytes⟩ := ih hrest
    refine ⟨b', ?_, hsize, ?_, ?_⟩
    · rw [storeBytes, storeByte_eq (by omega)]
      exact hrun
    · intro a ha
      rw [hkeep a (by omega)]
      exact if_neg (by omega)
    · rw [List.length_cons, bytesAt_succ, hbytes, hkeep i (by omega)]
      exact congrArg (· :: bytes) (if_pos rfl)

/-- Some bytes, and then the others. -/
theorem storeBytes_append (xs ys : List UInt8) :
    ∀ (b : Block) (i : Nat), b.storeBytes i (xs ++ ys) =
      (b.storeBytes i xs).bind fun b => b.storeBytes (i + xs.length) ys := by
  induction xs with
  | nil => exact fun _ _ => rfl
  | cons value xs ih =>
    intro b i
    rw [List.cons_append, storeBytes, storeBytes]
    cases b.storeByte i value with
    | none => rfl
    | some b₁ =>
      have hlength : i + 1 + xs.length = i + (xs.length + 1) := by omega
      rw [List.length_cons, ← hlength]
      exact ih b₁ (i + 1)

theorem storeByte_size {b b' : Block} {i : Nat} {value : UInt8} (h : b.storeByte i value = some b') :
    i < b.size ∧ b'.size = b.size := by
  unfold storeByte at h
  split at h
  next hi =>
    cases h
    exact ⟨hi, rfl⟩
  next _ => cases h

theorem storeBytes_size (bytes : List UInt8) :
    ∀ {b b' : Block} {i : Nat}, b.storeBytes i bytes = some b' → b'.size = b.size := by
  induction bytes with
  | nil =>
    intro b b' i h
    cases h
    rfl
  | cons value bytes ih =>
    intro b b' i h
    rw [storeBytes, Option.bind_eq_bind, Option.bind_eq_some_iff] at h
    obtain ⟨b₁, hfirst, hrest⟩ := h
    exact (ih hrest).trans (storeByte_size hfirst).2

/-- Those behind them stay, too. -/
theorem storeBytes_behind (bytes : List UInt8) :
    ∀ {b b' : Block} {i : Nat}, b.storeBytes i bytes = some b' →
      ∀ a, i + bytes.length ≤ a → b'.byte a = b.byte a := by
  induction bytes with
  | nil =>
    intro b b' i h a _
    rw [storeBytes, Option.some.injEq] at h
    rw [h]
  | cons value bytes ih =>
    intro b b' i h a ha
    rw [List.length_cons] at ha
    rw [storeBytes, Option.bind_eq_bind, Option.bind_eq_some_iff] at h
    obtain ⟨b₁, hstore, hrest⟩ := h
    unfold storeByte at hstore
    split at hstore
    next hi =>
      cases hstore
      rw [ih hrest a (by omega)]
      exact if_neg (by omega)
    next => exact absurd hstore (by simp)

/-- A block that starts with the bytes stored into it. -/
theorem storeBytes_front {b : Block} {bytes : List UInt8} (h : bytes.length ≤ b.size) :
    ∃ b', b.storeBytes 0 bytes = some b' ∧ bytesAt b'.byte 0 b'.size =
      bytes ++ bytesAt b.byte bytes.length (b.size - bytes.length) := by
  obtain ⟨b', hrun, hsize, -, hbytes⟩ := storeBytes_eq bytes (by omega : 0 + bytes.length ≤ b.size)
  refine ⟨b', hrun, ?_⟩
  have hsplit : b'.size = bytes.length + (b.size - bytes.length) := by omega
  rw [hsplit, bytesAt_add, hbytes, Nat.zero_add]
  congr 1
  apply bytesAt_congr
  intro a ha _
  exact storeBytes_behind bytes hrun a (by omega)

end Block

/-! ## Arrays of pointers -/

theorem testBit_quadword (mem : Mem) (address : Nat) {value : Nat} (h : value < 2 ^ 64) (i : Nat) :
    (orBytes (storeQuadword mem address value) 8 address 0 0).testBit i = value.testBit i := by
  rw [testBit_orBytes, Nat.zero_testBit, Bool.false_or, decide_eq_true (Nat.zero_le _),
    Bool.true_and]
  by_cases hi : i < 64
  · rw [decide_eq_true (by omega), Bool.true_and]
    have hin : address ≤ address + (i - 8 * 0) / 8 ∧
        address + (i - 8 * 0) / 8 < address + 8 := by omega
    unfold bitAt storeQuadword
    dsimp only
    rw [if_pos hin, Nat.add_sub_cancel_left, Nat.mul_zero, Nat.sub_zero]
    have hget : (quadword value).getD (i / 8) 0 = UInt8.ofNat (value / 256 ^ (i / 8)) := by
      unfold quadword
      rw [List.getD_eq_getElem?_getD, List.getElem?_map, List.getElem?_range (by omega)]
      rfl
    rw [hget, UInt8.toNat_ofNat', Nat.testBit_mod_two_pow, decide_eq_true (by omega),
      Bool.true_and, show 256 ^ (i / 8) = 2 ^ (8 * (i / 8)) by rw [Nat.pow_mul],
      Nat.testBit_div_two_pow, Nat.mod_add_div]
  · rw [decide_eq_false (by omega), Bool.false_and]
    refine (Nat.testBit_lt_two_pow ?_).symm
    exact Nat.lt_of_lt_of_le h (Nat.pow_le_pow_right (by omega) (by omega))

namespace Block

theorem slot_congr {b b' : Block} {i : Nat}
    (h : ∀ a, 8 * i ≤ a → a < 8 * i + 8 → b.byte a = b'.byte a) : b.slot i = b'.slot i := by
  unfold slot
  congr 1
  refine Nat.eq_of_testBit_eq ?_
  intro j
  rw [testBit_orBytes, testBit_orBytes]
  by_cases hj : j < 64
  · unfold bitAt
    dsimp only
    rw [h _ (by omega) (by omega)]
  · rw [decide_eq_false (show ¬ j < 8 * (0 + 8) by omega)]
    simp

theorem storeSlot_eq {b : Block} {i : Nat} (h : 8 * i + 8 ≤ b.size) (p : Pointer) :
    b.storeSlot i p = some { b with byte := storeQuadword b.byte (8 * i) p.toNat } := by
  unfold storeSlot
  rw [if_pos h]

/-- Reading what was stored. -/
theorem slot_storeQuadword_self (b : Block) (i : Nat) (p : Pointer) :
    slot { b with byte := storeQuadword b.byte (8 * i) p.toNat } i = p := by
  unfold slot
  dsimp only
  have hbits : orBytes (storeQuadword b.byte (8 * i) p.toNat) 8 (8 * i) 0 0 = p.toNat :=
    Nat.eq_of_testBit_eq (testBit_quadword b.byte (8 * i) p.toNat_lt)
  rw [hbits, UInt64.ofNat_toNat]

/-- Reading another slot. -/
theorem slot_storeQuadword_ne (b : Block) {i j : Nat} (h : j ≠ i) (p : Pointer) :
    slot { b with byte := storeQuadword b.byte (8 * i) p.toNat } j = b.slot j := by
  refine slot_congr ?_
  intro a hlow hhigh
  show storeQuadword b.byte (8 * i) p.toNat a = b.byte a
  rw [storeQuadword, if_neg (by omega)]

theorem loadSlot_eq {b : Block} {i : Nat} (h : 8 * i + 8 ≤ b.size) :
    b.loadSlot i = some (b.slot i) := by
  unfold loadSlot
  rw [if_pos h]

@[simp] theorem slots_length (b : Block) (n : Nat) : (b.slots n).length = n := by
  rw [slots, List.length_map, List.length_range]

theorem slots_succ (b : Block) (n : Nat) : b.slots (n + 1) = b.slots n ++ [b.slot n] := by
  unfold slots
  rw [List.range_succ, List.map_append]
  rfl

theorem slots_congr {b b' : Block} {n : Nat} (h : ∀ i < n, b.slot i = b'.slot i) :
    b.slots n = b'.slots n := by
  refine List.map_congr_left ?_
  intro i hi
  exact h i (List.mem_range.mp hi)

/-- **Storing behind the first `n` pointers appends one.** -/
theorem slots_storeQuadword (b : Block) (n : Nat) (p : Pointer) :
    slots { b with byte := storeQuadword b.byte (8 * n) p.toNat } (n + 1) =
      b.slots n ++ [p] := by
  rw [slots_succ, slot_storeQuadword_self]
  congr 1
  refine slots_congr ?_
  intro i hi
  exact slot_storeQuadword_ne b (by omega) p

theorem getElem?_slots (b : Block) {i n : Nat} (h : i < n) : (b.slots n)[i]? = some (b.slot i) := by
  unfold slots
  rw [List.getElem?_map, List.getElem?_range h]
  rfl

end Block

/-- `resizeArray` keeps the pointers of an array. -/
theorem resizeArray_slots (garbage : Mem) {old : Block} {arrayLen numBlocks : Nat}
    (hlen : 0 < arrayLen) (hnum : arrayLen ≤ numBlocks) (hsmall : numBlocks < 2 ^ 32)
    (haligned : old.size % 16 = 0) (hold : 8 * arrayLen ≤ old.size) :
    ∃ new, resizeArray garbage (some old) arrayLen 8 numBlocks = some new ∧
      new.size % 16 = 0 ∧ 8 * numBlocks ≤ new.size ∧ new.slots arrayLen = old.slots arrayLen := by
  obtain ⟨new, hnew, hsize, hbyte⟩ := resizeArray_eq garbage hlen (by omega : 0 < 8) hnum
    (by omega) haligned (by omega)
  refine ⟨new, hnew, by omega, by omega, ?_⟩
  refine Block.slots_congr ?_
  intro i hi
  exact Block.slot_congr fun a _ hhigh => hbyte a (by omega)

end DevopsBroker.Lang
