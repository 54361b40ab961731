import DevopsBroker.Io.FileBuffer
import DevopsBroker.Lang.Memory
import DevopsBroker.Lib.Text

/-!
# `text/linebuffer.linux-x86_64.asm`: lines from a file

`populateLineBuffer` reads behind the data that is in the buffer. `getLine` looks for the next
newline, puts a `NUL` in its place and returns a pointer into the buffer. When there is only a
part of a line left it moves that part to the front. When there is nothing left it leaves the
buffer as it is, so that the next data goes behind the old data.

Mirroring notes vs the assembly source:
- The buffer is in memory at `lineBuffer`; `length`, `size` and `line`, which are behind it, are
  fields. The eight characters that `lodsq` loads may be from there, but none that counts is.
- `findNewline` counts `r9d - r8d` down.
- `rep movsq` and `rep movsb` copy upwards.
- When `size` is zero, `rsi` is not saved over the call of `read`. The system call keeps it.
- `read` does not fail here: an error ends the process.
- `getLineFromFileBuffer` decrements `ecx` before it is tested, so that a zero counts for `2 ^ 32`.
-/

namespace DevopsBroker.Text

open DevopsBroker.Lang DevopsBroker.Lib

def BUFFER_SIZE : Nat := 0xfe8
def NEWLINE : UInt8 := 0x0A

/-- `struct String`, as far as it is used: where a line is, and how long. -/
structure Line where
  value : Nat
  length : Nat
deriving DecidableEq

/-- `struct LineBuffer`, with the memory that `buffer` is in. -/
structure LineBuffer where
  mem : Mem
  length : Nat
  size : Nat
  line : Line

/-- `c196bc72_initLineBuffer`. -/
def initLineBuffer (mem : Mem) (lineBuffer : Nat) : LineBuffer :=
  { mem := storeBytes mem lineBuffer [0, 0, 0, 0], length := 0, size := 0, line := ⟨0, 0⟩ }

/-! ## `getLine` -/

/-- How `.findNewline` is left: at a `NUL`; with the address of the newline, `r8d` and `ecx`; or at
the end of the data. -/
inductive Search where
  | epilogue
  | foundNewline (rsi r8d ecx : Nat)
  | newLineNotFound
deriving DecidableEq

/-- `.findNewline`. -/
def findNewline (mem : Mem) : Nat → Nat → Nat → Nat → Nat → Nat → Search
  | 0, _, _, _, _, _ => .newLineNotFound
  | n + 1, rax, dl, rsi, r8d, ecx =>
    if lowByte rax = 0 then .epilogue
    else
      let r8d := (r8d + 1) % 2 ^ 32
      if lowByte rax = NEWLINE then .foundNewline (rsi - dl) r8d ecx
      else
        let ecx := (ecx + 1) % 2 ^ 32
        if dl - 1 ≠ 0 then findNewline mem n (rax / 256) (dl - 1) rsi r8d ecx
        else findNewline mem n (orBytes mem 8 rsi 0 0) 8 (rsi + 8) r8d ecx

/-- `.copyBuffer` to `.copyBytes`: the data, and a `NUL` behind it. -/
def copyBuffer (mem : Mem) (rsi rdi r9d : Nat) : Mem :=
  let eights := r9d / 8
  let mem := copyChunks 8 eights rsi rdi mem
  let mem := copyChunks 1 (r9d % 8) (rsi + 8 * eights) (rdi + 8 * eights) mem
  storeByte mem (rdi + r9d) 0

/-- `c196bc72_getLine`. -/
def getLine (lineBuffer : Nat) (st : LineBuffer) : Option Line × LineBuffer :=
  let rsi := lineBuffer + st.length
  if st.length = st.size then (none, st)
  else
    let remaining := (st.size + 2 ^ 32 - st.length) % 2 ^ 32
    match findNewline st.mem remaining (orBytes st.mem 8 rsi 0 0) 8 (rsi + 8) st.length 0 with
    | .epilogue => (none, st)
    | .foundNewline newline r8d ecx =>
      let line : Line := { value := rsi, length := ecx }
      (some line, { st with mem := storeByte st.mem newline 0, length := r8d, line := line })
    | .newLineNotFound =>
      (none, { st with mem := copyBuffer st.mem rsi lineBuffer remaining, length := 0, size := remaining })

/-! ## `getLineFromFileBuffer` -/

/-- `.findNewline` of `getLineFromFileBuffer`: where the newline is, and the length of the line. -/
def fileNewline (mem : Mem) : Nat → Nat → Nat → Nat → Nat → Option (Nat × Nat)
  | 0, _, _, _, _ => none
  | ecx + 1, rax, r8b, rsi, edx =>
    if lowByte rax = 0 then none
    else if lowByte rax = NEWLINE then some (rsi, edx)
    else
      let rsi := rsi + 1
      let edx := (edx + 1) % 2 ^ 32
      if r8b - 1 ≠ 0 then fileNewline mem ecx (rax / 256) (r8b - 1) rsi edx
      else fileNewline mem ecx (orBytes mem 8 rsi 0 0) 8 rsi edx

/-- `c196bc72_getLineFromFileBuffer`: the line, or `NULL`, and the memory. -/
def getLineFromFileBuffer (mem : Mem) (fileBuffer : Io.FileBuffer) : Option Line × Mem :=
  let ecx := (2 ^ 32 + fileBuffer.numBytes - fileBuffer.dataOffset) % 2 ^ 32
  let rsi := fileBuffer.buffer + fileBuffer.dataOffset
  let rounds := if ecx = 0 then 2 ^ 32 else ecx
  match fileNewline mem rounds (orBytes mem 8 rsi 0 0) 8 rsi 0 with
  | none => (none, mem)
  | some (newline, edx) => (some { value := rsi, length := edx }, storeByte mem newline 0)

/-! ## `populateLineBuffer` -/

/-- A file that is read: what is left of it, and how much each call returns at most, less one. -/
structure Descriptor where
  rest : List UInt8
  chunks : Nat → Nat

/-- How many bytes a call returns: some of them, as long as there are any and any are asked for. -/
def Descriptor.available (fd : Descriptor) (count : Nat) : Nat :=
  min (min count fd.rest.length) (fd.chunks 0 + 1)

/-- `read`. -/
def read (fd : Descriptor) (count : Nat) : List UInt8 × Descriptor :=
  (fd.rest.take (fd.available count),
    { rest := fd.rest.drop (fd.available count), chunks := fun i => fd.chunks (i + 1) })

/-- `c196bc72_populateLineBuffer`. -/
def populateLineBuffer (lineBuffer : Nat) (st : LineBuffer) (fd : Descriptor) :
    Nat × LineBuffer × Descriptor :=
  let (rsi, edx) :=
    if st.size = 0 then (lineBuffer, BUFFER_SIZE)
    else (lineBuffer + st.size, (BUFFER_SIZE + 2 ^ 32 - st.size) % 2 ^ 32)
  let (bytes, fd) := read fd edx
  (bytes.length,
    { st with mem := storeBytes st.mem rsi bytes, size := (st.size + bytes.length) % 2 ^ 32 }, fd)

/-! ## The loop of a caller -/

/-- `getLine` until it returns `NULL`: the lines, each with the memory at that time. -/
def getLines (lineBuffer : Nat) : Nat → LineBuffer → Option (List (Mem × Line) × LineBuffer)
  | 0, _ => none
  | fuel + 1, st =>
    match getLine lineBuffer st with
    | (none, st) => some ([], st)
    | (some line, st) => do
      let (lines, st') ← getLines lineBuffer fuel st
      some ((st.mem, line) :: lines, st')

/-- `populateLineBuffer` until it returns zero, with `getLine` after each call. -/
def readLines (lineBuffer : Nat) : Nat → LineBuffer → Descriptor → Option (List (Mem × Line))
  | 0, _, _ => none
  | fuel + 1, st, fd => do
    let (numBytes, st, fd) := populateLineBuffer lineBuffer st fd
    let (lines, st) ← getLines lineBuffer fuel st
    if numBytes = 0 then some lines
    else
      let more ← readLines lineBuffer fuel st fd
      some (lines ++ more)

end DevopsBroker.Text
