import DevopsBroker.Memory.PagePool

/-!
# `memory/memorypool.c`: blocks of any size up to a page

The MemoryPool cuts blocks off the page on the top of its stack, one behind the other,
and takes another page from the PagePool when a block does not fit. Nothing is given
back before the end.

Mirroring notes vs the C source:
- `NULL` is returned for a block larger than a page, after an error message that quotes
  the size. The message is part of the result here.
- `block += numPageBytesUsed` is pointer arithmetic modulo `2 ^ 64`.
- `none` as a result stands for an abort.
-/

namespace DevopsBroker.Memory

open DevopsBroker.Adt
open DevopsBroker.Lang

/-- `struct MemoryPool`. -/
structure MemoryPool where
  pageStack : StackArray
  numPagesAlloc : UInt32
  numPageBytesUsed : UInt32
  numPageBytesFree : UInt32
  numBlocksAlloc : UInt32

/-- `memoryPool`, as it is declared. -/
def memoryPool : MemoryPool := ⟨⟨none, 0, 0⟩, 0, 0, 0, 0⟩

/-- What `f502a409_acquireMemory` returns, with the error message that it prints. -/
inductive Acquired where
  | block (ptr : Pointer)
  | null (errorMessage : String)

/-- Initialize the page stack. -/
def initMemoryPool (env : Env) (pool : MemoryPool) : Option MemoryPool :=
  match pool.pageStack.values with
  | some _ => some pool
  | none => (StackArray.initStackArray (env.garbage 20)).map fun pageStack =>
      { pool with pageStack := pageStack }

/-- The page that the block is cut off, acquired if need be. -/
def currentPage (env : Env) (s : Pools) (pool : MemoryPool) (size : UInt32) :
    Option (Pointer × Pools × MemoryPool) :=
  if pool.numPageBytesFree < size then do
    -- what is left of the page before is lost
    let (block, s) ← acquirePage env s
    let pageStack ← pool.pageStack.push (env.garbage 21) block
    return (block, s, { pool with
      pageStack := pageStack
      numPagesAlloc := pool.numPagesAlloc + 1
      numPageBytesUsed := 0
      numPageBytesFree := UInt32.ofNat MEMORY_PAGE_SIZE })
  else pool.pageStack.peek.map fun block => (block, s, pool)

/-- `f502a409_acquireMemory`. -/
def acquireMemory (env : Env) (s : Pools) (pool : MemoryPool) (size : UInt32) :
    Option (Acquired × Pools × MemoryPool) := do
  let pool ← initMemoryPool env pool
  if MEMORY_PAGE_SIZE < size.toNat then
    return (.null ("f502a409_acquireMemory(): Invalid requested size of " ++ toString size.toNat),
      s, pool)
  else
    let (block, s, pool) ← currentPage env s pool size
    return (.block (block + pool.numPageBytesUsed.toUInt64), s, { pool with
      numPageBytesUsed := pool.numPageBytesUsed + size
      numPageBytesFree := pool.numPageBytesFree - size
      numBlocksAlloc := pool.numBlocksAlloc + 1 })

end DevopsBroker.Memory
