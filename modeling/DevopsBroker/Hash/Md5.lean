import DevopsBroker.Hash.Md5Transform
import DevopsBroker.Lang.Memory

/-!
# `hash/md5.c`: MD5 of a buffer, and of a stream of buffers

Mirroring notes vs the C source:
- A buffer is the list of its bytes; an access outside of it has no meaning in C, and
  is an error here.
- The local array `message` starts with whatever is on the stack: each function takes it
  as a parameter.
- `f1518caf_md5` and `f1518caf_md5StreamEnd` have one body, and differ in the value
  they store at the end (`md5Body`).
- `length` is a natural number below `2 ^ 32`; only `f1518caf_md5Stream` can take 64 off
  a smaller one.
-/

namespace DevopsBroker.Hash

open DevopsBroker.Lang
open DevopsBroker.Lib (Mem)

def A_INIT_VALUE : BitVec 32 := 0x67452301
def B_INIT_VALUE : BitVec 32 := 0xefcdab89
def C_INIT_VALUE : BitVec 32 := 0x98badcfe
def D_INIT_VALUE : BitVec 32 := 0x10325476

def ONE_BIT_VALUE : UInt8 := 0x80

/-- `f1518caf_initMD5State`. -/
def initMD5State : Md5State := ⟨A_INIT_VALUE, B_INIT_VALUE, C_INIT_VALUE, D_INIT_VALUE⟩

/-- Why a call does not come back with a state. -/
inductive Md5Error where
  | outOfBounds
  | exit (message : String)
deriving DecidableEq, Repr

/-- The `numBytes` bytes behind the pointer `buffer + offset`. -/
def readBuffer (buffer : List UInt8) (offset numBytes : Nat) : Except Md5Error Mem :=
  if offset + numBytes ≤ buffer.length then .ok fun i => buffer.getD (offset + i) 0
  else .error .outOfBounds

/-- `while (length > 64)`: the state, the offset and the length after it. -/
def md5Blocks (state : Md5State) (buffer : List UInt8) (offset length : Nat) :
    Except Md5Error (Md5State × Nat × Nat) :=
  if 64 < length then
    match readBuffer buffer offset 64 with
    | .error e => .error e
    | .ok block => md5Blocks (md5Transform state block) buffer (offset + 64) (length - 64)
  else .ok (state, offset, length)
termination_by length

/-- `for (; length < 64; length++) message[length] = 0;` -/
def clearMessage (message : Mem) (length : Nat) : Mem :=
  if length < 64 then clearMessage (storeByte message length 0) (length + 1) else message
termination_by 64 - length

/-- What stands in `message` when a block of its own is needed for the length. -/
def lengthBlock (message : Mem) (msgLength : Nat) : Mem :=
  let message := meminit message 0 56
  let message := storeByte message 0 ONE_BIT_VALUE
  storeQuadword message 56 msgLength

/-- The body of `f1518caf_md5` and of `f1518caf_md5StreamEnd`. -/
def md5Body (state : Md5State) (buffer : List UInt8) (length msgLength : Nat) (message : Mem) :
    Except Md5Error Md5State := do
  let (state, offset, length) ← md5Blocks state buffer 0 length
  if 0 < length then
    if length < 56 then
      -- the rest, the padding and the length fit into one block
      let rest ← readBuffer buffer offset length
      let message := copyObject rest message length
      let message := storeByte message length ONE_BIT_VALUE
      let message := meminit message (length + 1) (64 - (length + 1))
      let message := storeQuadword message 56 msgLength
      return md5Transform state message
    else if length < 64 then
      -- the rest and its padding fill a block, and the length is in another one
      let rest ← readBuffer buffer offset length
      let message := copyObject rest message length
      let message := storeByte message length ONE_BIT_VALUE
      let message := clearMessage message (length + 1)
      let state := md5Transform state message
      let message := meminit message 0 56
      let message := storeQuadword message 56 msgLength
      return md5Transform state message
    else
      -- 64 bytes are left, as the loop stops in front of them
      let block ← readBuffer buffer offset 64
      let state := md5Transform state block
      return md5Transform state (lengthBlock message msgLength)
  else
    return md5Transform state (lengthBlock message msgLength)

/-- `f1518caf_md5`. -/
def md5 (state : Md5State) (buffer : List UInt8) (length : Nat) (message : Mem) :
    Except Md5Error Md5State :=
  md5Body state buffer length length message

/-- `f1518caf_md5StreamEnd`. -/
def md5StreamEnd (state : Md5State) (buffer : List UInt8) (length origLen : Nat) (message : Mem) :
    Except Md5Error Md5State :=
  md5Body state buffer length origLen message

/-- `do … while (length > 0)`. -/
def md5StreamBlocks (state : Md5State) (buffer : List UInt8) (offset length : Nat) :
    Except Md5Error Md5State :=
  if h : offset + 64 ≤ buffer.length then
    let state := md5Transform state fun i => buffer.getD (offset + i) 0
    -- `length -= 64` on a `uint32_t`
    let length := (length + 2 ^ 32 - 64) % 2 ^ 32
    if 0 < length then md5StreamBlocks state buffer (offset + 64) length else .ok state
  else .error .outOfBounds
termination_by buffer.length - offset

/-- `f1518caf_md5Stream`. -/
def md5Stream (state : Md5State) (buffer : List UInt8) (length : Nat) :
    Except Md5Error Md5State :=
  if length &&& 0x3F ≠ 0 then
    .error (.exit ("f1518caf_md5Stream(): Invalid buffer length of " ++ toString length))
  else md5StreamBlocks state buffer 0 length

end DevopsBroker.Hash
