/-!
# `io/filebuffer.h`: the buffers a file is read into

A `FileBuffer` describes one page of file data: where the page is, which file
offset its first byte has, how many of its bytes are file data and where the
data of interest starts in it.

Mirroring notes vs the C source:
- FileBuffers are linked through `next` in the order they are added to their
  list. The model keeps them in a `List` instead: the successor of a FileBuffer
  is the next element and `next == NULL` is the end of the list.
-/

namespace DevopsBroker.Io

/-- `MEMORY_PAGE_SIZE`. -/
abbrev MEMORY_PAGE_SIZE : Nat := 4096

/-- `struct FileBuffer`, without the link to the next one. -/
structure FileBuffer where
  buffer : Nat
  fileOffset : Int
  dataOffset : Nat
  numBytes : Nat
deriving Repr, DecidableEq

end DevopsBroker.Io
