import DevopsBroker.Io.FileBuffer
import DevopsBroker.Memory.MemoryPool

/-!
# The pools of `io/filebuffer.c` and `io/async.c`: structs that are used again

A FileBuffer is acquired from the FileBufferPool, an AIORequest from the AIORequestPool. Either
takes a struct off its stack, and has the MemoryPool cut off another one when the stack is empty;
a struct that is released goes on the stack.

Mirroring notes vs the C source:
- The two pools are the same struct under two names, and so are their functions but for the
  fields that `acquireFileBuffer` sets: `acquireStruct` and `releaseStruct` here.
- A pool is one variable of a state that is passed on, next to `Pools` and `MemoryPool`.
- `acquireFileBuffer` gives what it sets the fields to. `next` is `NULL`; FileBuffers are
  linked when they are added to a list.
- `none` as a result stands for an abort, or for an access through `NULL`.
-/

namespace DevopsBroker.Memory

open DevopsBroker.Adt
open DevopsBroker.Io (FileBuffer)
open DevopsBroker.Lang

/-- `struct FileBufferPool`, and `struct AIORequestPool`. -/
structure StructPool where
  structStack : StackArray
  numAlloc : UInt32
  numFree : UInt32
  numInUse : UInt32
  numUsed : UInt32

/-- `fileBufferPool` and `aioRequestPool`, as they are declared. -/
def declaredStructPool : StructPool := ⟨⟨none, 0, 0⟩, 0, 0, 0, 0⟩

/-- `sizeof(FileBuffer)`. -/
def FILEBUFFER_SIZE : UInt32 := 32

/-- `sizeof(AIORequest)`. -/
def AIOREQUEST_SIZE : UInt32 := 64

/-- Initialize the struct stack. -/
def initStructPool (env : Env) (pool : StructPool) : Option StructPool :=
  match pool.structStack.values with
  | some _ => some pool
  | none => (StackArray.initStackArray (env.garbage 30)).map fun structStack =>
      { pool with structStack := structStack }

/-- The pointer that `f502a409_acquireMemory` returns. -/
def Acquired.pointer : Acquired → Pointer
  | .block ptr => ptr
  | .null _ => nullPointer

/-- A struct off the stack, or a new one. -/
def takeStruct (env : Env) (s : Pools) (memoryPool : MemoryPool) (pool : StructPool)
    (size : UInt32) : Option (Pointer × Pools × MemoryPool × StructPool) :=
  if pool.structStack.length = 0 then
    (acquireMemory env s memoryPool size).map fun (acquired, s, memoryPool) =>
      (acquired.pointer, s, memoryPool, { pool with numAlloc := pool.numAlloc + 1 })
  else
    pool.structStack.pop.map fun (struct, structStack) =>
      (struct, s, memoryPool,
        { pool with structStack := structStack, numFree := pool.numFree - 1 })

/-- What the functions that acquire a struct have in common. -/
def acquireStruct (env : Env) (s : Pools) (memoryPool : MemoryPool) (pool : StructPool)
    (size : UInt32) : Option (Pointer × Pools × MemoryPool × StructPool) := do
  let pool ← initStructPool env pool
  let (struct, s, memoryPool, pool) ← takeStruct env s memoryPool pool size
  return (struct, s, memoryPool,
    { pool with numInUse := pool.numInUse + 1, numUsed := pool.numUsed + 1 })

/-- What the functions that release a struct have in common. -/
def releaseStruct (env : Env) (pool : StructPool) (struct : Pointer) : Option StructPool :=
  (pool.structStack.push (env.garbage 31) struct).map fun structStack =>
    { pool with
      structStack := structStack
      numInUse := pool.numInUse - 1
      numFree := pool.numFree + 1 }

/-- `ce97d170_acquireFileBuffer`. -/
def acquireFileBuffer (env : Env) (s : Pools) (memoryPool : MemoryPool) (pool : StructPool)
    (internalBuf : Pointer) :
    Option ((Pointer × FileBuffer) × Pools × MemoryPool × StructPool) := do
  let (fileBuffer, s, memoryPool, pool) ← acquireStruct env s memoryPool pool FILEBUFFER_SIZE
  -- the fields are set through the pointer
  if fileBuffer = nullPointer then none
  else return ((fileBuffer, ⟨internalBuf.toNat, 0, 0, 0⟩), s, memoryPool, pool)

/-- `ce97d170_releaseFileBuffer`. -/
def releaseFileBuffer (env : Env) (pool : StructPool) (fileBuffer : Pointer) : Option StructPool :=
  releaseStruct env pool fileBuffer

/-- `f1207515_acquireAIORequest`. -/
def acquireAIORequest (env : Env) (s : Pools) (memoryPool : MemoryPool) (pool : StructPool) :
    Option (Pointer × Pools × MemoryPool × StructPool) :=
  acquireStruct env s memoryPool pool AIOREQUEST_SIZE

/-- `f1207515_releaseAIORequest`. -/
def releaseAIORequest (env : Env) (pool : StructPool) (aioRequest : Pointer) : Option StructPool :=
  releaseStruct env pool aioRequest

end DevopsBroker.Memory
