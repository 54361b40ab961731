import DevopsBroker.Lang.Block

/-!
# `lang/stringbuilder.c`: the string builder

`StringBuilder` keeps `length` characters and a `NUL` in a buffer. Each of the routines
that append has its own test for when to grow, and all of them grow through
`resizeStringBuilder`, which moves the characters to a new buffer. It does not change
`size`.

Mirroring notes vs the C source:
- `none` stands for an abort of `resizeArray`, and for an access outside of the buffer.
- A `char *` into the buffer is its index. A source string is the list of its
  characters before the `NUL`.
- `uint32_t` arithmetic is natural numbers modulo `2 ^ 32`.
- `garbage` is what a newly allocated buffer holds, each one of a call.
-/

namespace DevopsBroker.Lang

open DevopsBroker.Lib (Mem)

def LEFT_BRACKET : UInt8 := 0x5B
def RIGHT_BRACKET : UInt8 := 0x5D
def COMMA : UInt8 := 0x2C

/-- `STRINGBUILDER_DEFAULT_SIZE`. -/
def STRINGBUILDER_DEFAULT_SIZE : UInt32 := 64

/-- `struct StringBuilder`. -/
structure StringBuilder where
  buffer : Block
  length : Nat
  size : Nat

namespace StringBuilder

/-- `c598a24c_initStringBuilder_uint32`. -/
def initStringBuilder_uint32 (garbage : Mem) (bufSize : UInt32) : Option StringBuilder := do
  let buffer ← mallocArray garbage 1 bufSize.toNat
  let buffer ← buffer.storeByte 0 0
  return ⟨buffer, 0, bufSize.toNat⟩

/-- `c598a24c_initStringBuilder`. -/
def initStringBuilder (garbage : Mem) : Option StringBuilder :=
  initStringBuilder_uint32 garbage STRINGBUILDER_DEFAULT_SIZE

/-- `c598a24c_resetStringBuilder`. -/
def resetStringBuilder (b : StringBuilder) : Option StringBuilder := do
  let buffer ← b.buffer.storeByte 0 0
  return { b with buffer := buffer, length := 0 }

/-- `resizeStringBuilder`: the builder, and where its next character goes. -/
def resizeStringBuilder (garbage : Mem) (b : StringBuilder) (newSize : Nat) :
    Option (StringBuilder × Nat) := do
  let buffer ← resizeArray garbage (some b.buffer) b.length 1 newSize
  -- `size` stays what it was
  return ({ b with buffer := buffer }, b.length)

/-- `// Resize strBuilder->buffer if necessary`: every routine has its own test and size. -/
def resizeIf (necessary : Prop) [Decidable necessary] (garbage : Mem) (b : StringBuilder)
    (target newSize : Nat) : Option (StringBuilder × Nat) :=
  if necessary then resizeStringBuilder garbage b newSize else some (b, target)

/-- `appendNull`. -/
def appendNull (garbage : Mem) (b : StringBuilder) (target : Nat) : Option StringBuilder := do
  let (b, target) ← resizeIf (b.length = b.size) garbage b target (2 * b.size % 2 ^ 32)
  let buffer ← b.buffer.storeByte target 0
  return { b with buffer := buffer }

/-- `c598a24c_appendBytes`. -/
def appendBytes (garbage : Mem) (b : StringBuilder) (bytes : List UInt8) :
    Option StringBuilder := do
  let newLength := (b.length + bytes.length + 1) % 2 ^ 32
  let (b, target) ←
    resizeIf (b.size ≤ newLength) garbage b b.length ((newLength + newLength / 2) % 2 ^ 32)
  let buffer ← b.buffer.storeBytes target bytes
  let length := (b.length + bytes.length) % 2 ^ 32
  let buffer ← buffer.storeByte (target + bytes.length) 0
  return { b with buffer := buffer, length := length }

/-- `c598a24c_append_char`. -/
def appendChar (garbage : Mem) (b : StringBuilder) (ch : UInt8) : Option StringBuilder := do
  let (b, target) ←
    resizeIf (b.size ≤ (b.length + 1) % 2 ^ 32) garbage b b.length (2 * b.size % 2 ^ 32)
  let buffer ← b.buffer.storeByte target ch
  let buffer ← buffer.storeByte (target + 1) 0
  return { b with buffer := buffer, length := (b.length + 1) % 2 ^ 32 }

/-- `while (ch)` of `c598a24c_append_string`. -/
def appendChars (garbage : Mem) : StringBuilder → Nat → List UInt8 → Option (StringBuilder × Nat)
  | b, target, [] => some (b, target)
  | b, target, ch :: source =>
    if ch = 0 then some (b, target)
    else do
      -- an equality, so that a longer builder is not resized
      let (b, target) ← resizeIf (b.length = b.size) garbage b target (2 * b.size % 2 ^ 32)
      let buffer ← b.buffer.storeByte target ch
      appendChars garbage { b with buffer := buffer, length := (b.length + 1) % 2 ^ 32 }
        (target + 1) source

/-- `c598a24c_append_string`. -/
def appendString (garbage : Mem) (b : StringBuilder) (source : List UInt8) :
    Option StringBuilder := do
  let (b, target) ← appendChars garbage b b.length source
  appendNull garbage b target

/-- `while (string != NULL)` of `c598a24c_append_stringArray`. -/
def appendElements (garbage : Mem) :
    StringBuilder → Nat → List (List UInt8) → Option (StringBuilder × Nat)
  | b, target, [] => some (b, target)
  | b, target, string :: array => do
    let (b, target) ← resizeIf (b.length = b.size) garbage b target (2 * b.size % 2 ^ 32)
    let buffer ← b.buffer.storeByte target COMMA
    let (b, target) ← appendChars garbage
      { b with buffer := buffer, length := (b.length + 1) % 2 ^ 32 } (target + 1) string
    appendElements garbage b target array

/-- The elements: nothing, or the first one and the others. -/
def appendArray (garbage : Mem) (b : StringBuilder) (target : Nat) :
    List (List UInt8) → Option (StringBuilder × Nat)
  | [] => some (b, target)
  | string :: array => do
    let (b, target) ← appendChars garbage b target string
    appendElements garbage b target array

/-- `c598a24c_append_stringArray`. -/
def appendStringArray (garbage : Mem) (b : StringBuilder) (array : List (List UInt8)) :
    Option StringBuilder := do
  let (b, target) ←
    resizeIf (b.size ≤ (b.length + 3) % 2 ^ 32) garbage b b.length (2 * b.size % 2 ^ 32)
  let buffer ← b.buffer.storeByte target LEFT_BRACKET
  let (b, target) ← appendArray garbage
    { b with buffer := buffer, length := (b.length + 1) % 2 ^ 32 } (target + 1) array
  let buffer ← b.buffer.storeByte target RIGHT_BRACKET
  -- `target` stays at the bracket
  appendNull garbage { b with buffer := buffer, length := (b.length + 1) % 2 ^ 32 } target

/-- `c598a24c_append_string_uint32`. -/
def appendString_uint32 (garbage : Mem) (b : StringBuilder) (source : List UInt8) :
    Option StringBuilder := do
  let newLength := (b.length + source.length + 1) % 2 ^ 32
  let (b, target) ←
    resizeIf (b.size ≤ newLength) garbage b b.length ((newLength + newLength / 2) % 2 ^ 32)
  let b := { b with length := (b.length + source.length) % 2 ^ 32 }
  let buffer ← b.buffer.storeBytes target source
  let buffer ← buffer.storeByte (target + source.length) 0
  return { b with buffer := buffer }

/-- `c598a24c_getLastChar`. -/
def getLastChar (b : StringBuilder) : UInt8 :=
  if 0 < b.length then b.buffer.byte (b.length - 1) else 0

/-- `c598a24c_reduceLength`. -/
def reduceLength (b : StringBuilder) (newLength : Nat) : Option StringBuilder :=
  if newLength < b.length then do
    let buffer ← b.buffer.storeByte newLength 0
    return { b with buffer := buffer, length := newLength }
  else some b

/-- What the builder holds, in a new string. -/
def copyString (garbage : Mem) (b : StringBuilder) : Option Block := do
  let string ← stralloc garbage b.length
  let string ← b.buffer.copyTo string b.length
  string.storeByte b.length 0

/-- `c598a24c_createString`: the string (or `NULL`), and the builder. `garbage` is for the buffer,
and `fresh` for the string. -/
def createString (garbage fresh : Mem) (b : StringBuilder) (suffix : Option (List UInt8)) :
    Option (Option Block × StringBuilder) :=
  if 0 < b.length then
    match suffix with
    | none => (copyString fresh b).map fun string => (some string, b)
    | some suffix => do
      let origLength := b.length
      let b ← appendString garbage b suffix
      let string ← copyString fresh b
      let b ← reduceLength b origLength
      return (some string, b)
  else some (none, b)

end StringBuilder

end DevopsBroker.Lang
