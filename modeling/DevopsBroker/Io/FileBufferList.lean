import DevopsBroker.Io.FileBuffer
import DevopsBroker.Hash.Crc32

/-!
# `io/filebuffer.c`: lists of FileBuffers

A `FileBufferList` collects the FileBuffers that were read for a file.
`containsData` looks a range of the file up, and `crc32` and `write` then walk the
FileBuffers from the one it returned.

Mirroring notes vs the C source:
- A FileBuffer is returned as its index in `values`, and its chain of `next` is the
  rest of `values` from there: `addBuffer` links each FileBuffer to the one it adds
  behind it, and an acquired FileBuffer has no next one.
- File offsets are `Int`; they stay far below the range of an `int64_t`.
- `crc32` and `write` walk the chain in the same way and differ in what they do with
  each piece: `forPieces`. Going on past the last FileBuffer reads through a null
  pointer, which is `none`.
- `write` gives the calls of `writeFile`, as pointer and number of bytes. Both are
  functions of the chain: neither changes a FileBuffer.
-/

namespace DevopsBroker.Io

open DevopsBroker.Lib DevopsBroker.Hash

/-- `FILEBUFFERLIST_DEFAULT_SIZE`. -/
abbrev FILEBUFFERLIST_DEFAULT_SIZE : Nat := 8

/-- `struct FileBufferList`; `length` is the number of values. -/
structure FileBufferList where
  values : List FileBuffer
  numBytes : Int
  fileOffset : Int
  size : Nat
deriving Repr, DecidableEq

/-- `ce97d170_initFileBufferList`. -/
def initFileBufferList : FileBufferList :=
  { values := []
    numBytes := 0
    fileOffset := 0
    size := FILEBUFFERLIST_DEFAULT_SIZE }

/-- `ce97d170_resetFileBufferList`, what it does to the list. -/
def resetFileBufferList (bufferList : FileBufferList) : FileBufferList :=
  { bufferList with values := [], numBytes := 0, fileOffset := 0 }

/-- `ce97d170_addBuffer`. -/
def addBuffer (bufferList : FileBufferList) (fileBuffer : FileBuffer) : FileBufferList :=
  { values := bufferList.values ++ [fileBuffer]
    numBytes := bufferList.numBytes + fileBuffer.numBytes
    fileOffset :=
      if bufferList.values.length = 0 then fileBuffer.fileOffset else bufferList.fileOffset
    size :=
      if bufferList.values.length = bufferList.size then bufferList.size * 2 % 2 ^ 32
      else bufferList.size }

/-- The loop of `containsData` over the FileBuffers from index `i` on, with the
index found so far. -/
def findBuffer (offset : Int) : List FileBuffer → Nat → Nat → Nat
  | [], _, found => found
  | fileBuffer :: rest, i, found =>
    if fileBuffer.fileOffset ≤ offset then findBuffer offset rest (i + 1) i else found

/-- `fileBuffer->dataOffset = offset - fileBuffer->fileOffset`. -/
def FileBuffer.seek (offset : Int) (fileBuffer : FileBuffer) : FileBuffer :=
  { fileBuffer with dataOffset := ((offset - fileBuffer.fileOffset) % 2 ^ 32).toNat }

/-- `ce97d170_containsData`: the FileBuffer where the data begins, if the list has
all of it, and the list with that FileBuffer moved to it. -/
def containsData (bufferList : FileBufferList) (offset : Int) (length : Nat) :
    FileBufferList × Option Nat :=
  if 0 < bufferList.values.length ∧ bufferList.fileOffset ≤ offset then
    let bufferListEnd := bufferList.fileOffset + bufferList.numBytes
    let dataEnd := offset + length
    if bufferListEnd ≥ dataEnd then
      let found := findBuffer offset bufferList.values.tail 1 0
      ({ bufferList with values := bufferList.values.modify found (FileBuffer.seek offset) },
        some found)
    else (bufferList, none)
  else (bufferList, none)

/-- A lookup that fails leaves the list as it is. -/
theorem containsData_none {bufferList bufferList' : FileBufferList} {offset : Int} {length : Nat}
    (h : containsData bufferList offset length = (bufferList', none)) :
    bufferList' = bufferList := by
  unfold containsData at h
  split at h
  next _ =>
    dsimp only at h
    split at h
    · cases h
    · exact (congrArg Prod.fst h).symm
  next _ => exact (congrArg Prod.fst h).symm

/-- Walk a chain for `length` bytes, handing the start and the size of each piece to `f`. -/
def forPieces {σ : Type} (f : σ → Nat → Nat → σ) : List FileBuffer → Nat → σ → Option σ
  | _, 0, s => some s
  | [], _ + 1, _ => none
  | fileBuffer :: next, length + 1, s =>
    let bufferPtr := fileBuffer.buffer + fileBuffer.dataOffset
    let bufferLength := (fileBuffer.numBytes + 2 ^ 32 - fileBuffer.dataOffset) % 2 ^ 32
    let bufferLength := if bufferLength > length + 1 then length + 1 else bufferLength
    forPieces f next (length + 1 - bufferLength) (f s bufferPtr bufferLength)

/-- `ce97d170_crc32`. -/
def crc32 (mem : Mem) (chain : List FileBuffer) (length : Nat) : Option (BitVec 32) :=
  forPieces (fun crc bufferPtr bufferLength => Hash.crc32 mem bufferPtr bufferLength crc)
    chain length 0

/-- `ce97d170_write`: the calls of `writeFile`. -/
def write (chain : List FileBuffer) (length : Nat) : Option (List (Nat × Nat)) :=
  forPieces (fun calls bufferPtr bufferLength => calls ++ [(bufferPtr, bufferLength)])
    chain length []

end DevopsBroker.Io
