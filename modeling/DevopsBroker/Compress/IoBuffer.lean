import DevopsBroker.Lib.BitStream
import DevopsBroker.Io.FileBuffer

/-!
# `compress/iobuffer.c`: reading bits out of a chain of pages

An `InputBuffer` walks a chain of FileBuffers bit by bit. It keeps two
positions: `bitPos`, the number of bits consumed, and `offsetBitPos`, the bit
position inside the current page. A read assembles the eight bytes at the
current position; near the end of a page the missing ones come from the next.

Mirroring notes vs the C source:
- `uint32_t` and `uint64_t` fields are `Nat`, with the wrap-around written out
  where a value is added to.
- The two reads (of `getNextBits` and of `useNumBits`) are the same statements
  in the source, and so are the two steps to the next page (of `useNumBits` and
  of `advanceNumBits`): `loadBits` and `advanceOffset` here.
- At the end of the last page `loadBits` reads up to eight bytes past it, as the
  source does; memory has some byte everywhere.
- `useNumBits` and `advanceNumBits` have moved `bitPos` already when they find
  that there is no next page.
-/

namespace DevopsBroker.Compress

open DevopsBroker.Lib DevopsBroker.Io

/-- `OFFSET_BIT_END_POS`: the number of bits in a page. -/
abbrev OFFSET_BIT_END_POS : Nat := 32768

/-- `OFFSET_BIT_MIN`: the bits every read provides. -/
abbrev OFFSET_BIT_MIN : Nat := 57

/-- `struct InputBuffer`; `next` is the chain behind `fileBuffer`. -/
structure InputBuffer where
  fileBuffer : FileBuffer
  next : List FileBuffer
  buffer : Nat
  bits : Nat
  bitPos : Nat
  totalNumBits : Nat
  offsetBitPos : Nat

/-- `c49f5b0d_initInputBuffer`. -/
def initInputBuffer (fileBuffer : FileBuffer) (next : List FileBuffer) (length : Nat) :
    InputBuffer :=
  { fileBuffer := fileBuffer
    next := next
    buffer := fileBuffer.buffer
    bits := 0
    bitPos := 0
    totalNumBits := length * 8 % 2 ^ 32
    offsetBitPos := fileBuffer.dataOffset * 8 % 2 ^ 32 }

/-- The eight bytes at the current position, as one word. -/
def loadBits (mem : Mem) (ib : InputBuffer) : Nat :=
  let next := ib.buffer + ib.offsetBitPos / 8
  let minOffsetBitPos := (ib.offsetBitPos + OFFSET_BIT_MIN) % 2 ^ 32
  match ib.next with
  | [] => orBytes mem 8 next 0 0
  | nextBuffer :: _ =>
    if minOffsetBitPos ≤ OFFSET_BIT_END_POS then orBytes mem 8 next 0 0
    else
      -- the bytes left in this page, then bytes from the start of the next one
      let endCurrentBuf := MEMORY_PAGE_SIZE - ib.offsetBitPos / 8
      let bits := orBytes mem endCurrentBuf next 0 0
      orBytes mem (8 - endCurrentBuf) nextBuffer.buffer endCurrentBuf bits

/-- Move `offsetBitPos` on by `numBits`, into the next page when it passes the
end of this one; `none` when there is no next page. -/
def advanceOffset (ib : InputBuffer) (numBits : Nat) : Option InputBuffer :=
  let nextOffsetBitPos := (ib.offsetBitPos + numBits) % 2 ^ 32
  if nextOffsetBitPos > OFFSET_BIT_END_POS then
    match ib.next with
    | [] => none
    | nextBuffer :: rest =>
      some { ib with
        fileBuffer := nextBuffer
        next := rest
        buffer := nextBuffer.buffer
        offsetBitPos := nextOffsetBitPos - OFFSET_BIT_END_POS }
  else some { ib with offsetBitPos := nextOffsetBitPos }

/-- `c49f5b0d_getNextBits`. -/
def getNextBits (mem : Mem) (ib : InputBuffer) : InputBuffer :=
  { ib with bits := loadBits mem ib >>> (ib.offsetBitPos % 8) }

/-- `c49f5b0d_advanceNumBits`. -/
def advanceNumBits (ib : InputBuffer) (numBits : Nat) : Bool × InputBuffer :=
  let nextBitPos := (ib.bitPos + numBits) % 2 ^ 64
  if nextBitPos > ib.totalNumBits then (false, ib)
  else
    let ib := { ib with bitPos := nextBitPos }
    match advanceOffset ib numBits with
    | none => (false, ib)
    | some ib => (true, ib)

/-- `c49f5b0d_useNumBits`: the bits at the old position, and the new position. -/
def useNumBits (mem : Mem) (ib : InputBuffer) (numBits : Nat) : Bool × InputBuffer :=
  let nextBitPos := (ib.bitPos + numBits) % 2 ^ 64
  if nextBitPos > ib.totalNumBits then (false, ib)
  else
    let ib := { ib with bitPos := nextBitPos }
    let bits := loadBits mem ib
    match advanceOffset ib numBits with
    | none => (false, ib)
    | some ib' => (true, { ib' with bits := bits >>> (ib.offsetBitPos % 8) })

end DevopsBroker.Compress
