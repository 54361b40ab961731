import DevopsBroker.Lang.Block

/-!
# `adt/listarray.linux-x86_64.asm` and `adt/listarray.c`: the list in an array

`ListArray` keeps its elements in one block and moves to a larger one when it is full.
`add`, `addAll` and `addFromStack` exist twice: in x86-64 assembly, and in C for
`__arm__` (namespace `ListArray.Arm`). The two grow at different lengths and to
different sizes.

Mirroring notes vs the source:
- A list is not `NULL`, and `values` is the block it points to; `none` stands for an
  abort of `resizeArray`, and for an access outside of a block.
- `uint32_t` arithmetic is natural numbers modulo `2 ^ 32`. `addAll` shifts the length in
  `edx`: it takes the offset of the first new element modulo `2 ^ 32`.
- An array of elements is a function of the index, or `none` for `NULL`; index `j` of a
  stack stands for `stack[-j]`.
- `garbage` is what a newly allocated block holds.
- The C code for `__arm__` is taken with what a build for x86-64 has around it: slots of eight bytes,
  and the `resizeArray` of `Lang.Memory`. Under `src` there is no other.
-/

namespace DevopsBroker.Adt

open DevopsBroker.Lang
open DevopsBroker.Lib (Mem)

/-- `LISTARRAY_DEFAULT_SIZE`. -/
def LISTARRAY_DEFAULT_SIZE : UInt32 := 8

/-- `struct ListArray`. -/
structure ListArray where
  values : Block
  length : Nat
  size : Nat

/-- A `void **` parameter. -/
abbrev Elements := Option (Nat → Pointer)

namespace ListArray

/-- `b196167f_initListArrayWithSize`, and `b196167f_createListArrayWithSize` for the
structure that it allocates. -/
def initListArrayWithSize (garbage : Mem) (size : UInt32) : Option ListArray :=
  (malloc garbage (8 * size.toNat)).map fun values => ⟨values, 0, size.toNat⟩

/-- `b196167f_initListArray`. -/
def initListArray (garbage : Mem) : Option ListArray :=
  initListArrayWithSize garbage LISTARRAY_DEFAULT_SIZE

/-- `values = f668c4bd_resizeArray(values, length, sizeof(void*), newSize)`, with the new
size stored. -/
def resize (garbage : Mem) (list : ListArray) (newSize : Nat) : Option ListArray :=
  (resizeArray garbage (some list.values) list.length 8 newSize).map fun values =>
    { list with values := values, size := newSize }

/-- Store `n` elements in a row, from index `i` on. -/
def storeAll : Nat → Block → Nat → (Nat → Pointer) → Option Block
  | 0, values, _, _ => some values
  | n + 1, values, i, elements => do
    let values ← values.storeSlot i (elements 0)
    storeAll n values (i + 1) fun j => elements (j + 1)

/-- `b196167f_add`. -/
def add (garbage : Mem) (list : ListArray) (element : Pointer) : Option ListArray :=
  if element = nullPointer then some list
  else do
    let list ←
      if list.length = list.size then resize garbage list (2 * list.size % 2 ^ 32) else some list
    let values ← list.values.storeSlot list.length element
    return { list with values := values, length := (list.length + 1) % 2 ^ 32 }

/-- `.shouldWeResize` of `b196167f_addAll` and `b196167f_addFromStack`. -/
def shouldWeResize (garbage : Mem) (list : ListArray) (newLength : Nat) : Option ListArray :=
  if newLength ≤ list.size then some list
  else resize garbage list ((newLength + newLength / 2) % 2 ^ 32)

/-- `b196167f_addAll`. -/
def addAll (garbage : Mem) (list : ListArray) (elementArray : Elements) (numElements : Nat) :
    Option ListArray :=
  match elementArray with
  | none => some list
  | some elements =>
    if numElements = 0 then some list
    else do
      let newLength := (numElements + list.length) % 2 ^ 32
      let list ← shouldWeResize garbage list newLength
      -- `shl edx, 3` is an operation on 32 bits
      let values ← storeAll numElements list.values (8 * list.length % 2 ^ 32 / 8) elements
      return { list with values := values, length := newLength }

/-- `b196167f_addFromStack`. -/
def addFromStack (garbage : Mem) (list : ListArray) (stack : Elements) (numElements : Nat) :
    Option ListArray :=
  match stack with
  | none => some list
  | some elements =>
    if numElements = 0 then some list
    else do
      let newLength := (numElements + list.length) % 2 ^ 32
      let list ← shouldWeResize garbage list newLength
      let values ← storeAll numElements list.values list.length elements
      return { list with values := values, length := newLength }

/-- `b196167f_clear`; what `freeElement` does to the elements is not the list's. -/
def clear (list : ListArray) : ListArray := { list with length := 0 }

/-- `b196167f_ensureCapacity`. -/
def ensureCapacity (garbage : Mem) (list : ListArray) (capacity : Nat) : Option ListArray :=
  if list.size < capacity then resize garbage list ((capacity + 7) % 2 ^ 32 / 8 * 8) else some list

/-- `b196167f_get`. -/
def get (list : ListArray) (index : Nat) : Option Pointer :=
  if index < list.length then list.values.loadSlot index else some nullPointer

/-- `b196167f_last`. -/
def last (list : ListArray) : Option Pointer :=
  if 0 < list.length then list.values.loadSlot (list.length - 1) else some nullPointer

/-- `b196167f_reset`. -/
def reset (list : ListArray) : Option ListArray := do
  let values ← storeAll list.length list.values 0 fun _ => nullPointer
  return { list with values := values, length := 0 }

/-! ## The functions compiled for `__arm__` -/

namespace Arm

/-- `(((length + 7) >> 3) << 3) << 1`. -/
def newCapacity (length : Nat) : Nat := (length + 7) % 2 ^ 32 / 8 * 8 * 2 % 2 ^ 32

/-- `b196167f_add`. -/
def add (garbage : Mem) (list : ListArray) (element : Pointer) : Option ListArray := do
  let list ←
    if list.length = list.size then resize garbage list (newCapacity list.length) else some list
  let values ← list.values.storeSlot list.length element
  return { list with values := values, length := (list.length + 1) % 2 ^ 32 }

/-- `for (uint32_t i = listArray->length; i < newLength; i++)`. -/
def storeElements (values : Block) (elementArray : Elements) (length newLength : Nat) :
    Option Block :=
  if length < newLength then
    match elementArray with
    -- `elementArray[0]` is read off a null pointer
    | none => none
    | some elements => storeAll (newLength - length) values length elements
  else some values

/-- `b196167f_addAll`. -/
def addAll (garbage : Mem) (list : ListArray) (elementArray : Elements) (numElements : Nat) :
    Option ListArray := do
  let newLength := (list.length + numElements) % 2 ^ 32
  let list ←
    if list.size ≤ newLength then resize garbage list (newCapacity newLength) else some list
  let values ← storeElements list.values elementArray list.length newLength
  return { list with values := values, length := newLength }

/-- `b196167f_addFromStack`: the loop of `b196167f_addAll`, down the stack. -/
def addFromStack (garbage : Mem) (list : ListArray) (stack : Elements) (numElements : Nat) :
    Option ListArray :=
  addAll garbage list stack numElements

end Arm

end ListArray

end DevopsBroker.Adt
