import DevopsBroker.Lang.AllocRequest
import DevopsBroker.Lib.Trace

/-!
# `lang/memory.linux-x86_64.asm`: the loops over memory

`memcopy`, `meminit`, `realloc` and `resizeArray` from label to label, with what is in their
registers and a trace of what they read and write. `Memory` has the same copies by what they
come to, and `Block` the same blocks.

Mirroring notes vs the assembly source:
- Addresses are natural numbers: no region goes beyond the end of the address space.
- `dl` and `sil` are the low bytes of `rdx` and `rsi`, and `cl` is that of `rcx`.
- `NULL` is address zero. A prefetch does nothing, and `push` and `pop` keep a register.
- What `aligned_alloc` and `malloc` return is a parameter. The size they were called with is the
  size of the block that is returned.
- The loops run on fuel; `none` is out of fuel, or a trap. `some none` is `.fatalError`.
-/

namespace DevopsBroker.Lang

open DevopsBroker.Lib

/-- `dec`, and what is left of a counter. -/
def decrement (register : Nat) : Nat := (2 ^ 64 + register - 1) % 2 ^ 64

/-- The low byte of a register is set. -/
def withLowByte (register byte : Nat) : Nat := register / 256 * 256 + byte

/-! ## `memcopy` -/

/-- Where `memcopy` is. -/
inductive MemcopyLabel where
  | eightBytes
  | fourBytes
  | bytes

/-- The registers of `memcopy`. -/
structure MemcopyState where
  label : MemcopyLabel
  rdi : Nat
  rsi : Nat
  rdx : Nat
  rcx : Nat
  trace : Trace

/-- From one label of `memcopy` to the next one. -/
def memcopyRound (s : MemcopyState) : Option (Turn MemcopyState Trace) :=
  match s.label with
  | .eightBytes =>
    let trace := s.trace.move s.rdi s.rsi 8
    let rdx := (2 ^ 64 + s.rdx - s.rcx) % 2 ^ 64
    let s := { s with rdi := s.rdi + s.rcx, rsi := s.rsi + s.rcx, rdx := rdx, trace := trace }
    if rdx = 0 then some (.done trace)
    else if s.rcx ≤ rdx then some (.next s)
    else if rdx % 256 < 0x04 then some (.next { s with label := .bytes })
    else some (.next { s with label := .fourBytes })
  | .fourBytes =>
    let trace := s.trace.move s.rdi s.rsi 4
    let rcx := withLowByte s.rcx 0x04
    let dl := (256 + s.rdx % 256 - 0x04) % 256
    if dl = 0 then some (.done trace)
    else
      some (.next ⟨.bytes, s.rdi + rcx, s.rsi + rcx, withLowByte s.rdx dl, rcx, trace⟩)
  | .bytes =>
    let trace := s.trace.move s.rdi s.rsi 1
    let dl := (256 + s.rdx % 256 - 1) % 256
    if dl = 0 then some (.done trace)
    else some (.next ⟨.bytes, s.rdi + 1, s.rsi + 1, withLowByte s.rdx dl, s.rcx, trace⟩)

/-- `f668c4bd_memcopy`, in memory. -/
def memcopyIn (fuel : Nat) (mem : Mem) (source dest : Nat) (numBytes : UInt64) : Option Trace :=
  let rdx := numBytes.toNat
  let rcx := 0x08
  if rcx ≤ rdx then rounds memcopyRound fuel ⟨.eightBytes, source, dest, rdx, rcx, .start mem⟩
  else if 0x04 ≤ rdx % 256 then
    rounds memcopyRound fuel ⟨.fourBytes, source, dest, rdx, rcx, .start mem⟩
  else if rdx % 256 = 0 then some (.start mem)
  else rounds memcopyRound fuel ⟨.bytes, source, dest, rdx, rcx, .start mem⟩

/-! ## `meminit` -/

/-- Where `meminit` is. -/
inductive MeminitLabel where
  | initBlocks
  | initBytes

/-- The registers of `meminit`; `r8` is zero. -/
structure MeminitState where
  label : MeminitLabel
  rdi : Nat
  rsi : Nat
  rax : Nat
  rcx : Nat
  trace : Trace

/-- From one label of `meminit` to the next one. -/
def meminitRound (s : MeminitState) : Option (Turn MeminitState Trace) :=
  match s.label with
  | .initBlocks =>
    let trace := s.trace.store (s.rdi + 8 * s.rcx) 8 0
    let rcx := s.rcx + 1
    let rax := decrement s.rax
    if rax ≠ 0 then some (.next { s with rax := rax, rcx := rcx, trace := trace })
    else if s.rsi = 0 then some (.done trace)
    else some (.next ⟨.initBytes, s.rdi + 8 * rcx, s.rsi, rax, 8 * rcx, trace⟩)
  | .initBytes =>
    let trace := s.trace.store s.rdi 1 0
    let sil := (256 + s.rsi % 256 - 1) % 256
    if sil ≠ 0 then
      some (.next { s with rdi := s.rdi + 1, rsi := withLowByte s.rsi sil, trace := trace })
    else some (.done trace)

/-- `f668c4bd_meminit`, in memory. -/
def meminitIn (fuel : Nat) (mem : Mem) (ptr : Nat) (size : UInt64) : Option Trace :=
  if ptr = 0 then some (.start mem)
  else if size = 0 then some (.start mem)
  else
    let rsi := size.toNat
    let rax := rsi / 8
    if rax = 0 then rounds meminitRound fuel ⟨.initBytes, ptr, rsi, rax, 0, .start mem⟩
    else rounds meminitRound fuel ⟨.initBlocks, ptr, rsi - 8 * rax, rax, 0, .start mem⟩

/-! ## Blocks that move -/

/-- A block that is returned, the one that is passed to `free`, and the trace of the copy. -/
structure Moved where
  block : Region
  freed : Nat
  trace : Trace

/-- What is in a region of memory, as a block. -/
def blockAt (mem : Mem) (region : Region) : Block := ⟨region.size, fun i => mem (region.start + i)⟩

/-- The registers of `realloc` in `.whileData`; `rdx` is sixteen. -/
structure ReallocState where
  rdi : Nat
  rsi : Nat
  rax : Nat
  trace : Trace

/-- From `.whileData` of `realloc` back to it, or to `.free`. -/
def reallocRound (s : ReallocState) : Option (Turn ReallocState Trace) :=
  -- `movdqa` traps at an address that is no multiple of sixteen
  if s.rdi % 16 ≠ 0 ∨ s.rax % 16 ≠ 0 then none
  else
    let trace := s.trace.move s.rdi s.rax 16
    let rsi := decrement s.rsi
    if rsi = 0 then some (.done trace)
    else some (.next ⟨s.rdi + 0x10, rsi, s.rax + 0x10, trace⟩)

/-- `f668c4bd_realloc`, with the pointer that `malloc` gives it. -/
def realloc (fuel : Nat) (mem : Mem) (ptr : Nat) (origSize newSize : UInt64) (newPtr : Nat) :
    Option (Option Moved) :=
  let rax : UInt64 := 0x0F
  let rsi := ((origSize + rax) >>> (4 : UInt64)) <<< (4 : UInt64)
  let rdx := ((newSize + rax) >>> (4 : UInt64)) <<< (4 : UInt64)
  if rsi > rdx then some none
  else
    -- the size parameter for `malloc` is what `rax` was set to for the rounding
    let block : Region := ⟨newPtr, rax.toNat⟩
    if newPtr = 0 then some none
    else
      -- and the number of copies is shifted to the left
      let numCopies := rsi <<< (4 : UInt64)
      (rounds reallocRound fuel ⟨ptr, numCopies.toNat, newPtr, .start mem⟩).map fun trace =>
        some ⟨block, ptr, trace⟩

/-- The registers of `resizeArray` in `.copyData` that change. -/
structure ResizeState where
  rcx : Nat
  rax : Nat
  trace : Trace

/-- From `.copyData` of `resizeArray` back to it, or to `.freeOriginalArray`. -/
def resizeRound (r12 rdi : Nat) (s : ResizeState) : Option (Turn ResizeState Trace) :=
  let trace := s.trace.move (r12 + 8 * s.rcx) (rdi + 8 * s.rcx) 8
  let rax := decrement s.rax
  if rax ≠ 0 then some (.next ⟨s.rcx + 1, rax, trace⟩) else some (.done trace)

/-- `f668c4bd_resizeArray`, in memory, with the pointer that `aligned_alloc` gives it. -/
def resizeArrayIn (fuel : Nat) (mem : Mem) (arrayPtr : Nat) (arrayLen : UInt32)
    (typeSize numBlocks : UInt64) (newPtr : Nat) : Option (Option Moved) :=
  if arrayPtr = 0 then some none
  else if arrayLen = 0 then some none
  else if typeSize = 0 then some none
  else if numBlocks = 0 then some none
  else
    match resizeArrayRequest typeSize numBlocks with
    | none => some none
    | some size =>
      if newPtr = 0 then some none
      else
        match (mulOrAbort arrayLen.toUInt64 typeSize).bind fun numBytes =>
          addOrAbort numBytes 0x07 with
        | none => some none
        | some numBytes =>
          let rax := numBytes >>> (3 : UInt64)
          (rounds (resizeRound arrayPtr newPtr) fuel ⟨0, rax.toNat, .start mem⟩).map fun trace =>
            some ⟨⟨newPtr, size.toNat⟩, arrayPtr, trace⟩

end DevopsBroker.Lang
