import Mathlib.Logic.Function.Basic
import DevopsBroker.Lib.Ring
import DevopsBroker.Io.FileBufferList

/-!
# `io/async.c`, and reading in `io/filebuffer.c`

AIOFiles share an AIOContext: requests are queued there, `submit` hands up to eight of
them to the kernel, and `getEvents` asks it for completions. The AIORequests come out of a
pool, and `cleanUpAIOTicket` returns those of a ticket when it counted as many events as
requests. `readFileBuffer` and `readFileBufferList` are what this is used for.

Mirroring notes vs the C source:
- An AIORequest is its address, a number; what stands there is in `requests`. Memory for
  a new one is acquired from `fresh` on, and has never been used.
- `requestQueue` is the bounded first-in-first-out queue that `QueueBounded` stands for.
- `inFlight` is what the kernel holds: the requests that it took and has not given a
  completion of, each with the AIOFile and the contents it was submitted with.
- What the kernel answers is an input: `ioSubmit` is the number of requests that it takes
  (all errors are `-1`), `ioGetEvents` the completions (`none` is an error). An answer that
  no kernel gives, such as a completion of a request that it does not hold, is `none`.
- An array is overwritten from its start; what stood behind that stays.
- The pages that are acquired are an input. A page whose read is dropped is lost.
- `uint32_t` arithmetic is natural numbers modulo `2 ^ 32`. The counters for the print
  functions are left out.
-/

namespace DevopsBroker.Io

open DevopsBroker.Lib

/-- `ASYNC_AIOTICKET_MAXSIZE`. -/
abbrev ASYNC_AIOTICKET_MAXSIZE : Nat := 32768

/-- `SYSTEM_ERROR_CODE`. -/
abbrev SYSTEM_ERROR_CODE : Int := -1

/-- `AIORequest *`. -/
abbrev RequestPtr := Nat

/-- `AIORequest`, for a read. -/
structure AIORequest where
  aio_buf : Nat
  aio_nbytes : Nat
  aio_offset : Int
deriving DecidableEq

/-- `AIOEvent`. -/
structure AIOEvent where
  obj : RequestPtr
  res : Int
deriving DecidableEq

/-- `struct AIOTicket`. -/
structure AIOTicket where
  requestList : List RequestPtr
  eventList : List AIOEvent
  numRequests : Nat
  numEvents : Nat

/-- `struct AIOFile`. -/
structure AIOFile where
  aioTicket : AIOTicket
  offset : Int
  numRequestsRemaining : Nat

/-- A request that the kernel holds. -/
structure Submitted (φ : Type) where
  request : RequestPtr
  file : φ
  iocb : AIORequest

/-- The AIOFiles of one AIOContext, the AIORequestPool, and the kernel. -/
structure Aio (φ : Type) where
  files : φ → AIOFile
  requestQueue : Fifo RequestPtr
  pool : List RequestPtr
  fresh : RequestPtr
  requests : RequestPtr → AIORequest
  inFlight : List (Submitted φ)

/-- What the kernel answers in one call. -/
structure Kernel where
  ioSubmit : Int
  ioGetEvents : Option (List AIOEvent)

/-- Overwrite an array from its start. -/
def overwrite {α : Type} (new old : List α) : List α := new ++ old.drop new.length

namespace Aio

section

variable {φ : Type}

/-! ## The pool, the queue and the kernel -/

/-- `f1207515_acquireAIORequest`. -/
def acquireAIORequest (s : Aio φ) : RequestPtr × Aio φ :=
  match s.pool with
  | [] => (s.fresh, { s with fresh := s.fresh + 1 })
  | aioRequest :: pool => (aioRequest, { s with pool := pool })

/-- `f1207515_releaseAIORequest`. -/
def releaseAIORequest (s : Aio φ) (aioRequest : RequestPtr) : Aio φ :=
  { s with pool := aioRequest :: s.pool }

/-- The loop of `submit`: take so many requests off the queue, or all. -/
def dequeueRequests : Nat → Fifo RequestPtr → List RequestPtr × Fifo RequestPtr
  | 0, queue => ([], queue)
  | n + 1, queue =>
    match queue.pop with
    | (none, queue) => ([], queue)
    | (some aioRequest, queue) =>
      (aioRequest :: (dequeueRequests n queue).1, (dequeueRequests n queue).2)

/-- What the kernel holds after these completions. -/
def reap : List AIOEvent → List (Submitted φ) → Option (List (Submitted φ))
  | [], inFlight => some inFlight
  | event :: events, inFlight =>
    if inFlight.any (·.request = event.obj) then
      reap events (inFlight.eraseP (·.request = event.obj))
    else none

/-- The FileBuffer of a completion. -/
def bufferOf (s : Aio φ) (event : AIOEvent) : FileBuffer :=
  { buffer := (s.requests event.obj).aio_buf
    fileOffset := (s.requests event.obj).aio_offset
    dataOffset := 0
    numBytes := (event.res % 2 ^ 32).toNat }

variable [DecidableEq φ]

/-- Change an AIOFile. -/
def setFile (s : Aio φ) (aioFile : φ) (file : AIOFile) : Aio φ :=
  { s with files := Function.update s.files aioFile file }

/-- Change the AIOTicket of an AIOFile. -/
def setTicket (s : Aio φ) (aioFile : φ) (aioTicket : AIOTicket) : Aio φ :=
  s.setFile aioFile { s.files aioFile with aioTicket := aioTicket }

/-! ## `async.c` -/

/-- `f1207515_initAIOTicket`. -/
def initAIOTicket (s : Aio φ) (aioFile : φ) : Aio φ :=
  s.setTicket aioFile { (s.files aioFile).aioTicket with numRequests := 0, numEvents := 0 }

/-- `f1207515_cleanUpAIOTicket`. -/
def cleanUpAIOTicket (s : Aio φ) (aioFile : φ) : Aio φ :=
  let aioTicket := (s.files aioFile).aioTicket
  if aioTicket.numEvents = aioTicket.numRequests then
    (aioTicket.requestList.take aioTicket.numRequests).foldl releaseAIORequest s
  else s

/-- `f1207515_read`; nothing happens when the queue is full. -/
def read (s : Aio φ) (aioFile : φ) (buf bufSize : Nat) : Aio φ :=
  if s.requestQueue.items.length = s.requestQueue.capacity then s
  else
    let (aioReadRequest, s) := s.acquireAIORequest
    let file := s.files aioFile
    let s := { s with
      requests := Function.update s.requests aioReadRequest ⟨buf, bufSize, file.offset⟩
      requestQueue := (s.requestQueue.push aioReadRequest).2 }
    s.setFile aioFile { file with offset := file.offset + bufSize }

/-- `f1207515_submit`; its result is not used. -/
def submit (s : Aio φ) (aioFile : φ) (ioSubmit : Int) : Option (Aio φ) :=
  if s.requestQueue.items = [] then some s
  else
    let (requestList, requestQueue) := dequeueRequests 8 s.requestQueue
    let aioTicket := (s.files aioFile).aioTicket
    let s := { s with requestQueue := requestQueue }.setTicket aioFile
      { aioTicket with
        requestList := overwrite requestList aioTicket.requestList
        numRequests := requestList.length }
    -- the kernel takes requests from the front of the list
    if ioSubmit ≤ requestList.length then
      some { s with
        inFlight := s.inFlight ++ (requestList.take ioSubmit.toNat).map fun aioRequest =>
          ⟨aioRequest, aioFile, s.requests aioRequest⟩ }
    else none

/-- `f1207515_getEvents`: the number of events, and the state after it. -/
def getEvents (s : Aio φ) (aioFile : φ) (ioGetEvents : Option (List AIOEvent)) :
    Option (Int × Aio φ) :=
  match ioGetEvents with
  | none => some (SYSTEM_ERROR_CODE, s)
  | some events =>
    let aioTicket := (s.files aioFile).aioTicket
    if events.length ≤ aioTicket.numRequests then
      (reap events s.inFlight).map fun inFlight =>
        (events.length, { s with inFlight := inFlight }.setTicket aioFile
          { aioTicket with
            eventList := overwrite events aioTicket.eventList
            numEvents := (aioTicket.numEvents + events.length) % 2 ^ 32 })
    else none

/-! ## `filebuffer.c` -/

/-- `ce97d170_readFileBuffer`: the FileBuffer, `none` for `NULL`, and the state after it. -/
def readFileBuffer (s : Aio φ) (aioFile : φ) (length page : Nat) (kernel : Kernel) :
    Option (Option FileBuffer × Aio φ) :=
  if length > MEMORY_PAGE_SIZE then some (none, s)
  else do
    let fileOffset := (s.files aioFile).offset
    let s := s.initAIOTicket aioFile
    let s := s.read aioFile page MEMORY_PAGE_SIZE
    let s ← s.submit aioFile kernel.ioSubmit
    let (_, s) ← s.getEvents aioFile kernel.ioGetEvents
    let event := (s.files aioFile).aioTicket.eventList.headD ⟨0, 0⟩
    return (some ⟨page, fileOffset, 0, (event.res % 2 ^ 32).toNat⟩, s.cleanUpAIOTicket aioFile)

/-- `numBlocks`, how many pages are read: `length` is cut to 32 bits first. -/
def numBlocksOf (length : Int) : Nat :=
  (min (length % 2 ^ 32).toNat ASYNC_AIOTICKET_MAXSIZE + 4095) / 4096

/-- The loop that reads `numBlocks` pages. -/
def readBlocks (s : Aio φ) (aioFile : φ) (pages : List Nat) : Aio φ :=
  pages.foldl (fun s page => s.read aioFile page MEMORY_PAGE_SIZE) s

/-- `numRequestsRemaining = numRequests`. -/
def setRemaining (s : Aio φ) (aioFile : φ) (numRequests : Nat) : Aio φ :=
  s.setFile aioFile { s.files aioFile with numRequestsRemaining := numRequests }

/-- Up to the completions: create and submit requests, unless there are some left. -/
def issueReads (s : Aio φ) (aioFile : φ) (length : Int) (pages : Nat → Nat) (ioSubmit : Int) :
    Option (Aio φ) :=
  if 0 < (s.files aioFile).numRequestsRemaining then some s
  else
    let s := s.initAIOTicket aioFile
    let numBlocks := numBlocksOf length
    let s := s.readBlocks aioFile ((List.range numBlocks).map pages)
    (s.setRemaining aioFile numBlocks).submit aioFile ioSubmit

/-- `ce97d170_readFileBufferList`. -/
def readFileBufferList (s : Aio φ) (aioFile : φ) (bufferList : FileBufferList) (length : Int)
    (pages : Nat → Nat) (kernel : Kernel) : Option (FileBufferList × Aio φ) := do
  let bufferList :=
    if bufferList.values.length > 0 then resetFileBufferList bufferList else bufferList
  let s ← s.issueReads aioFile length pages kernel.ioSubmit
  let (numEvents, s) ← s.getEvents aioFile kernel.ioGetEvents
  let remaining := ((s.files aioFile).numRequestsRemaining - numEvents : Int) % 2 ^ 32
  let s := s.setRemaining aioFile remaining.toNat
  let events := (s.files aioFile).aioTicket.eventList.take numEvents.toNat
  return ((events.map s.bufferOf).foldl addBuffer bufferList, s.cleanUpAIOTicket aioFile)

end

end Aio

end DevopsBroker.Io
