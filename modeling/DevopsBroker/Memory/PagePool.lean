import DevopsBroker.Adt.StackArray

/-!
# `memory/slabpool.c` and `memory/pagepool.c`: the two pools

The SlabPool hands out slabs of 32 KB. It gets them from `aligned_alloc` one at a time,
when no slab is free, and never gives them back. The PagePool is one of its clients: it
cuts a slab into eight pages and hands those out. Both keep what is free on a stack.

Mirroring notes vs the C source:
- The global variables are a state that is passed on: `Slabs` for the functions of
  `slabpool.c`, `Pools` for those of `pagepool.c`. `Slabs.blocks` is not a variable: it
  records what `aligned_alloc` has handed out.
- `Env` is what a call is given from outside: the pointer that `aligned_alloc` returns,
  and what newly allocated blocks hold, numbered by the place that allocates.
- `slabList` is `none` where its `values` are `NULL`.
- `none` as a result stands for an abort.
-/

namespace DevopsBroker.Memory

open DevopsBroker.Adt
open DevopsBroker.Lang
open DevopsBroker.Lib (Mem)

/-- `MEMORY_PAGE_SIZE`. -/
abbrev MEMORY_PAGE_SIZE : Nat := 4096

/-- `SLABPOOL_SLAB_SIZE`. -/
abbrev SLABPOOL_SLAB_SIZE : Nat := 32768

/-- What a call finds outside of the pools. -/
structure Env where
  aligned_alloc : Pointer
  garbage : Nat → Mem

/-! ## `slabpool.c` -/

/-- `struct SlabPool`. -/
structure SlabPool where
  slabStack : StackArray
  numSlabsAlloc : UInt32
  numSlabsFree : UInt32
  numSlabsInUse : UInt32
  numSlabsUsed : UInt32

/-- The state that the SlabPool works on. -/
structure Slabs where
  blocks : List Pointer
  slabPool : SlabPool

/-- `slabPool`, as it is declared. -/
def slabPool : SlabPool := ⟨⟨none, 0, 0⟩, 0, 0, 0, 0⟩

/-- `populateSlabPool`. -/
def populateSlabPool (env : Env) (s : Slabs) : Option Slabs := do
  let slab ← alignedAlloc env.aligned_alloc
  let slabStack ← s.slabPool.slabStack.push (env.garbage 1) slab
  return {
    blocks := s.blocks ++ [slab]
    slabPool := { s.slabPool with
      slabStack := slabStack
      numSlabsAlloc := s.slabPool.numSlabsAlloc + 1
      numSlabsFree := s.slabPool.numSlabsFree + 1 } }

/-- Initialize the slab stack if no slabs have been allocated yet. -/
def initSlabStack (env : Env) (s : Slabs) : Option Slabs :=
  if s.slabPool.numSlabsAlloc = 0 then
    (StackArray.initStackArray (env.garbage 0)).map fun slabStack =>
      { s with slabPool := { s.slabPool with slabStack := slabStack } }
  else some s

/-- Populate the SlabPool if no slabs are free. -/
def ensureSlab (env : Env) (s : Slabs) : Option Slabs :=
  if s.slabPool.numSlabsFree = 0 then populateSlabPool env s else some s

/-- `b426145b_acquireSlab`. -/
def acquireSlab (env : Env) (s : Slabs) : Option (Pointer × Slabs) := do
  let s ← initSlabStack env s
  let s ← ensureSlab env s
  let (slabPtr, slabStack) ← s.slabPool.slabStack.pop
  return (slabPtr, { s with
    slabPool := { s.slabPool with
      slabStack := slabStack
      numSlabsFree := s.slabPool.numSlabsFree - 1
      numSlabsInUse := s.slabPool.numSlabsInUse + 1
      numSlabsUsed := s.slabPool.numSlabsUsed + 1 } })

/-- `b426145b_releaseSlab`. -/
def releaseSlab (env : Env) (s : Slabs) (slabPtr : Pointer) : Option Slabs := do
  let slabStack ← s.slabPool.slabStack.push (env.garbage 0) slabPtr
  return { s with
    slabPool := { s.slabPool with
      slabStack := slabStack
      numSlabsFree := s.slabPool.numSlabsFree + 1
      numSlabsInUse := s.slabPool.numSlabsInUse - 1 } }

/-! ## `pagepool.c` -/

/-- `struct PagePool`. -/
structure PagePool where
  pageStack : StackArray
  slabList : Option ListArray
  numPagesAlloc : UInt32
  numPagesFree : UInt32
  numPagesInUse : UInt32
  numPagesUsed : UInt32

/-- The state that both pools work on. -/
structure Pools extends Slabs where
  pagePool : PagePool

/-- `pagePool`, as it is declared. -/
def pagePool : PagePool := ⟨⟨none, 0, 0⟩, none, 0, 0, 0, 0⟩

/-- The loop of `populatePagePool`, with `n` pages to go. -/
def pushPages (garbage : Nat → Mem) : Nat → StackArray → Pointer → Option StackArray
  | 0, pageStack, _ => some pageStack
  | n + 1, pageStack, slabBufferPtr => do
    let pageStack ← pageStack.push (garbage n) slabBufferPtr
    pushPages garbage n pageStack (slabBufferPtr + UInt64.ofNat MEMORY_PAGE_SIZE)

/-- `populatePagePool`. -/
def populatePagePool (env : Env) (s : Pools) : Option Pools := do
  let (slabBufferPtr, slabs) ← acquireSlab env s.toSlabs
  let slabList ← s.pagePool.slabList
  let slabList ← slabList.add (env.garbage 4) slabBufferPtr
  -- the eight pages of the slab, from the first one on
  let pageStack ← pushPages (fun n => env.garbage (5 + n)) 8 s.pagePool.pageStack slabBufferPtr
  return {
    toSlabs := slabs
    pagePool := { s.pagePool with
      pageStack := pageStack
      slabList := some slabList
      numPagesAlloc := s.pagePool.numPagesAlloc + 8
      numPagesFree := s.pagePool.numPagesFree + 8 } }

/-- Initialize the page stack and slab list if no slabs have been allocated yet. -/
def initPageStack (env : Env) (s : Pools) : Option Pools :=
  match s.pagePool.pageStack.values with
  | some _ => some s
  | none => do
    let pageStack ← StackArray.initStackArray (env.garbage 2)
    let slabList ← ListArray.initListArray (env.garbage 3)
    return { s with
      pagePool := { s.pagePool with pageStack := pageStack, slabList := some slabList } }

/-- Populate the PagePool with another slab if no pages are free. -/
def ensurePage (env : Env) (s : Pools) : Option Pools :=
  if s.pagePool.numPagesFree = 0 then populatePagePool env s else some s

/-- `f502a409_acquirePage`. -/
def acquirePage (env : Env) (s : Pools) : Option (Pointer × Pools) := do
  let s ← initPageStack env s
  let s ← ensurePage env s
  let (pagePtr, pageStack) ← s.pagePool.pageStack.pop
  return (pagePtr, { s with
    pagePool := { s.pagePool with
      pageStack := pageStack
      numPagesFree := s.pagePool.numPagesFree - 1
      numPagesInUse := s.pagePool.numPagesInUse + 1
      numPagesUsed := s.pagePool.numPagesUsed + 1 } })

/-- `f502a409_releasePage`. -/
def releasePage (env : Env) (s : Pools) (pagePtr : Pointer) : Option Pools := do
  let pageStack ← s.pagePool.pageStack.push (env.garbage 0) pagePtr
  return { s with
    pagePool := { s.pagePool with
      pageStack := pageStack
      numPagesFree := s.pagePool.numPagesFree + 1
      numPagesInUse := s.pagePool.numPagesInUse - 1 } }

end DevopsBroker.Memory
