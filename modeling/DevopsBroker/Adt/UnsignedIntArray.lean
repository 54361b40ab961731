import DevopsBroker.Lang.StringBuilderNumber
import DevopsBroker.Lib.LittleEndian

/-!
# `adt/unsignedintarray.linux-x86_64.asm` and `adt/unsignedintarray.c`: numbers in an array

`UnsignedIntArray` keeps numbers of four bytes in one block, and moves to one of twice the size
when it is full. `extract` shows them in a `StringBuilder`.

Mirroring notes vs the source:
- An array is not `NULL`, and `values` is the block it points to; `none` stands for an abort, and for
  an access outside of a block.
- `uint32_t` arithmetic is natural numbers modulo `2 ^ 32`.
- `garbage` is what a newly allocated block holds, one after the other for each element that is
  extracted.
-/

namespace DevopsBroker.Adt

open DevopsBroker.Lang
open DevopsBroker.Lib

/-- `A8638224_DEFAULT_SIZE`. -/
def A8638224_DEFAULT_SIZE : Nat := 16

/-- `SIZEOF_UINT`. -/
def SIZEOF_UINT : Nat := 4

/-- The bytes of a `uint32_t`, the low one first. -/
def uintBytes (value : UInt32) : List UInt8 :=
  (List.range 4).map fun i => UInt8.ofNat (value.toNat / 256 ^ i)

/-- The `uint32_t` at an index. -/
def uintAt (values : Block) (i : Nat) : UInt32 :=
  UInt32.ofNat (littleEndian (bytesAt values.byte (4 * i) 4))

/-- `struct UnsignedIntArray`. -/
structure UnsignedIntArray where
  values : Block
  length : Nat
  size : Nat

namespace UnsignedIntArray

/-- `a8638224_initUnsignedIntArray`, and `a8638224_createUnsignedIntArray` for the structure that it
allocates. -/
def initUnsignedIntArray (garbage : Mem) : Option UnsignedIntArray := do
  let values ← mallocArray garbage SIZEOF_UINT A8638224_DEFAULT_SIZE
  return ⟨values, 0, A8638224_DEFAULT_SIZE⟩

/-- `.resizeArray`. -/
def resize (garbage : Mem) (listArray : UnsignedIntArray) : Option UnsignedIntArray := do
  let newLength := 2 * listArray.size % 2 ^ 32
  let values ← resizeArray garbage (some listArray.values) listArray.length SIZEOF_UINT newLength
  return { listArray with values := values, size := newLength }

/-- `a8638224_add`. -/
def add (garbage : Mem) (listArray : UnsignedIntArray) (element : UInt32) :
    Option UnsignedIntArray := do
  let listArray ←
    if listArray.length = listArray.size then resize garbage listArray else some listArray
  let values ← listArray.values.storeBytes (4 * listArray.length) (uintBytes element)
  return { listArray with values := values, length := (listArray.length + 1) % 2 ^ 32 }

/-- `listArray->values[i]`. -/
def load (listArray : UnsignedIntArray) (i : Nat) : Option UInt32 :=
  if 4 * i + 4 ≤ listArray.values.size then some (uintAt listArray.values i) else none

/-- `for (uint32_t i=1; i < listArray->length; i++)`, for the rounds that are left. -/
def extractRest (garbage : Nat → Nat → Mem) (listArray : UnsignedIntArray) :
    Nat → Nat → StringBuilder → Option StringBuilder
  | 0, _, strBuilder => some strBuilder
  | n + 1, i, strBuilder => do
    let strBuilder ← strBuilder.appendChar (garbage i 0) COMMA
    let value ← listArray.load i
    let strBuilder ← strBuilder.appendUint (garbage i 1) (garbage i 2) value
    extractRest garbage listArray n (i + 1) strBuilder

/-- The elements: nothing, or the first one and the others. -/
def extractElements (garbage : Nat → Nat → Mem) (listArray : UnsignedIntArray)
    (strBuilder : StringBuilder) : Option StringBuilder :=
  if 0 < listArray.length then do
    let value ← listArray.load 0
    let strBuilder ← strBuilder.appendUint (garbage 0 1) (garbage 0 2) value
    extractRest garbage listArray (listArray.length - 1) 1 strBuilder
  else some strBuilder

/-- `a8638224_extract`. -/
def extract (garbage : Nat → Nat → Mem) (listArray : UnsignedIntArray) (strBuilder : StringBuilder) :
    Option StringBuilder := do
  let strBuilder ← strBuilder.appendChar (garbage 0 0) LEFT_BRACKET
  let strBuilder ← extractElements garbage listArray strBuilder
  strBuilder.appendChar (garbage listArray.length 3) RIGHT_BRACKET

end UnsignedIntArray

end DevopsBroker.Adt
