import DevopsBroker.Lang.StringBuilderNumber

/-!
# `lang/system.c`: the output of another program

`execute` has a child process run a program, and reads from a pipe what the child writes, until
the end of it. It returns what it has read if the child ends well.

Mirroring notes vs the C source:
- The parent is modelled; the child runs the program, or ends.
- What the kernel answers is an input. `read` gives some bytes, as many as were asked for at most;
  it gives none at the end, and from there on.
- A call that ends the process is an `Ended`, with the message that it prints. `abort` also stands
  for an access outside of an object.
- A message is the text that its `StringBuilder` has.
- `garbage` is what the buffers hold that are allocated one after the other.
-/

namespace DevopsBroker.Lang

open DevopsBroker.Lib (Mem)

/-- `PIPE_BUFFER_LENGTH`, which is `PIPE_BUF`. -/
def PIPE_BUFFER_LENGTH : UInt32 := 4096

/-- How a process ends. -/
inductive Ended where
  | abort
  | exit (message : List UInt8)

/-- A text of the source. -/
def literalText (text : String) : List UInt8 := text.toUTF8.toList

/-- `'`. -/
def APOSTROPHE : UInt8 := 0x27

/-- Without a result, the process is aborted. -/
def orAbort {α : Type} : Option α → Except Ended α
  | none => .error .abort
  | some a => .ok a

/-- `c7c88e52_printLibError(errorMessage.buffer, errno); exit(EXIT_FAILURE);`. -/
def exitWith {α : Type} (errorMessage : Option StringBuilder) : Except Ended α := do
  let message ← orAbort (errorMessage.bind fun b => b.buffer.text)
  .error (.exit message)

/-- What one `read` gives, of `PIPE_BUFFER_LENGTH` bytes. -/
structure Chunk where
  bytes : List UInt8
  pos : 0 < bytes.length
  le : bytes.length ≤ PIPE_BUFFER_LENGTH.toNat

/-- What the kernel answers; `none` is `SYSTEM_ERROR_CODE`. -/
structure Kernel where
  pipe : Bool
  fork : Option Int32
  closeWrite : Bool
  reads : List (Option Chunk)
  closeRead : Bool
  waitpid : Option Int32

/-- `e2f74138_readFile`. -/
def readFile (garbage : Nat → Mem) (pathName : List UInt8) : Option Chunk → Except Ended (List UInt8)
  | some chunk => .ok chunk.bytes
  | none => exitWith do
    let b ← StringBuilder.initStringBuilder (garbage 0)
    let b ← b.appendString (garbage 1) (literalText "Cannot read from file '")
    let b ← b.appendString (garbage 2) pathName
    b.appendChar (garbage 3) APOSTROPHE

/-- `while (numBytes != END_OF_FILE)`. -/
def readAll (garbage : Nat → Mem) (path : List UInt8) :
    List (Option Chunk) → StringBuilder → Except Ended StringBuilder
  | [], execOutput => .ok execOutput
  | answer :: reads, execOutput => do
    let buffer ← readFile garbage path answer
    let execOutput ← orAbort (execOutput.appendString_uint32 (garbage 0) buffer)
    readAll (fun i => garbage (i + 1)) path reads execOutput

/-- `WIFEXITED`. -/
def WIFEXITED (status : Int32) : Bool := status.toUInt32 &&& 0x7F = 0

/-- `WEXITSTATUS`. -/
def WEXITSTATUS (status : Int32) : UInt32 := (status.toUInt32 &&& 0xFF00) >>> 8

/-- `c16819a0_waitForChild`, with what `waitpid` leaves in `status`. -/
def waitForChild (garbage : Nat → Mem) (child : Int32) : Option Int32 → Except Ended Unit
  | none => exitWith do
    let b ← StringBuilder.initStringBuilder (garbage 0)
    let b ← b.appendString (garbage 1) (literalText "Attempt to wait() on child process '")
    let b ← b.appendInt (garbage 2) (garbage 3) child
    b.appendString (garbage 4) (literalText "' failed")
  | some status =>
    if ¬ WIFEXITED status ∨ WEXITSTATUS status ≠ 0 then exitWith do
      let b ← StringBuilder.initStringBuilder (garbage 0)
      let b ← b.appendString (garbage 1) (literalText "Invalid child process exit status '")
      let b ← b.appendInt (garbage 2) (garbage 3) status
      b.appendChar (garbage 4) APOSTROPHE
    else .ok ()

/-- A system call that fails ends the process. -/
def orExit (succeeds : Bool) (message : String) : Except Ended Unit :=
  if succeeds then .ok () else .error (.exit (literalText message))

/-- `c16819a0_execute`, in the parent. -/
def execute (garbage : Nat → Nat → Mem) (kernel : Kernel) (path : List UInt8) :
    Except Ended StringBuilder := do
  orExit kernel.pipe "Attempt to create pipe() failed"
  match kernel.fork with
  | none => .error (.exit (literalText "Attempt to fork() child process failed"))
  | some child => do
    orExit kernel.closeWrite "Attempt to close write end of pipe() failed"
    let execOutput ← orAbort (StringBuilder.initStringBuilder_uint32 (garbage 0 0) PIPE_BUFFER_LENGTH)
    let execOutput ← readAll (garbage 1) path kernel.reads execOutput
    orExit kernel.closeRead "Attempt to close read end of pipe() failed"
    waitForChild (garbage 2) child kernel.waitpid
    return execOutput

end DevopsBroker.Lang
